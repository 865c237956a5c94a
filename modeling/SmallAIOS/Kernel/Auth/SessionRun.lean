import SmallAIOS.Kernel.Auth.SessionArena

/-!
# Runs of the session table

A run is any sequence of calls on the table that starts empty. Its history
says which session an id should stand for (`expected`): the one it was given
out for, with the activity noted since, until that one is released, invalidated
or swept. As long as no slot has been freed `2 ^ 24` times, the table says the
same (`run_resolves`), and no id is given out twice, so that the id of a session
that is gone stands for nothing ever again.
-/

namespace SmallAIOS.Auth

open List Lib.Arena
open SessionId hiding none

inductive Call
  | acquire (session : Session)
  | release (id : ℕ)
  | resetIdle (id nowUnix : ℕ)
  | invalidateUser (userId : ℕ)
  | tick (sw : Sweeper) (now : ℕ)

inductive Ret
  | acquired (r : Except SessionError ℕ)
  | released (r : Except SessionError Session)
  | reset (r : Except SessionError Unit)
  | count (n : ℕ)

/-- What a call does to the session an id should stand for. -/
def effect (id : ℕ) : Call × Ret → Option Session → Option Session
  | (.acquire s, .acquired (.ok id')), o => if id' = id then some s else o
  | (.release id', .released (.ok _)), o => if id' = id then none else o
  | (.resetIdle id' nowUnix, .reset (.ok _)), o =>
    if id' = id then o.map ({ · with lastActivityUnixTime := nowUnix }) else o
  | (.invalidateUser userId, _), o => o.filter (!·.userId == userId)
  | (.tick sw now, _), o => o.filter (!sw.isIdle now ·)
  | _, o => o

/-- The session an id should stand for after the calls made, the last one first. -/
def expected (h : List (Call × Ret)) (id : ℕ) : Option Session :=
  h.foldr (effect id) none

/-- The id a call gave out. -/
def Ret.id? : Ret → Option ℕ
  | .acquired (.ok id) => some id
  | _ => none

/-- The ids given out. -/
def issued (h : List (Call × Ret)) : List ℕ :=
  h.filterMap fun e => e.2.id?

variable {h : List (Call × Ret)} {e : Call × Ret}

theorem issued_cons_of_none (he : e.2.id? = none) : issued (e :: h) = issued h :=
  filterMap_cons_none he

theorem issued_cons_of_some {id : ℕ} (he : e.2.id? = some id) : issued (e :: h) = id :: issued h :=
  filterMap_cons_some he

namespace SessionTable

def step (t : SessionTable) : Call → Option (Ret × SessionTable)
  | .acquire session => some (.acquired (t.acquire session).1, (t.acquire session).2)
  | .release id => (t.release id).map fun r => (.released r.1, r.2)
  | .resetIdle id nowUnix => some (.reset (t.resetIdle id nowUnix).1, (t.resetIdle id nowUnix).2)
  | .invalidateUser userId => (t.invalidateUser userId).map fun r => (.count r.1, r.2)
  | .tick sw now => (sw.tick .noop now t ()).map fun r => (.count r.1, r.2.1)

/-- The slot has a session before and none after. -/
def frees (t t' : SessionTable) (i : Fin sessionTableCap) : Bool :=
  (t.slots i).session.isSome && (t'.slots i).session.isNone

/-- The runs from the empty table, with the calls made, the last one first, and how often they have
    freed each slot. -/
inductive Run : List (Call × Ret) → (Fin sessionTableCap → ℕ) → SessionTable → Prop
  | new : Run [] (fun _ => 0) new
  | step {h : List (Call × Ret)} {n : Fin sessionTableCap → ℕ} {t t' : SessionTable} {c : Call}
    {r : Ret} : Run h n t → t.step c = some (r, t') →
      Run ((c, r) :: h) (fun i => n i + (frees t t' i).toNat) t'

/-- The generations count how often the slots have been freed, ids stand for what they should, and
    have been given out once each. -/
structure Inv (h : List (Call × Ret)) (n : Fin sessionTableCap → ℕ) (t : SessionTable) :
    Prop where
  counted : t.Counted
  gen : ∀ i, (t.slots i).generation = n i
  agree : ∀ id, t.resolve id = expected h id
  issued : ∀ id ∈ issued h, ∃ k, key id = some k ∧ t.arena.Issued k
  nodup : (Auth.issued h).Nodup

variable {n : Fin sessionTableCap → ℕ} {t t' : SessionTable}
  {p : Fin sessionTableCap → Session → Bool} {s : Session}

/-! ## What ids stand for -/

theorem frees_self (t : SessionTable) (i : Fin sessionTableCap) : frees t t i = false := by
  rcases hs : (t.slots i).session with _ | s <;> simp [frees]

theorem frees_put {i j : Fin sessionTableCap} (h : t'.slots = t.put i s) :
    frees t t' j = false := by
  by_cases hj : j = i
  · simp [frees, h, put, hj]
  · rcases hs : (t.slots j).session with _ | s <;> simp [frees, h, put, hj, hs]

theorem frees_vacate (t : SessionTable) (p : Fin sessionTableCap → Session → Bool)
    (i : Fin sessionTableCap) : frees t (t.vacate p) i = decide (i ∈ t.holding p) := by
  by_cases hi : i ∈ t.holding p
  · obtain ⟨s, hs, -⟩ := mem_holding.1 hi
    simp [frees, vacate_slots_of_mem hi, hi, hs, Slot.free]
  · rcases hs : (t.slots i).session with _ | s <;>
      simp [frees, vacate_slots_of_notMem hi, hi]

variable {i : Fin sessionTableCap}

theorem resolve_put (h : t'.slots = t.put i s) (hg : (t.slots i).generation < 2 ^ 24) (id : ℕ) :
    t'.resolve id = if t.idOf i = id then some s else t.resolve id := by
  rw [resolve, arena_put h, resolve]
  by_cases hid : t.idOf i = id
  · rw [if_pos hid, ← hid, idOf, key_encode hg, Option.bind_some,
      find_insert]
    exact if_pos rfl
  · rw [if_neg hid]
    rcases hk : key id with _ | k
    · rfl
    · have hne : k ≠ (i, t.arena.gen i) := by
        rintro rfl
        exact hid (key_eq_some hk)
      rw [Option.bind_some, Option.bind_some, find_insert, if_neg hne]

/-- If the sessions that go are told by themselves, so are the ids that no longer stand for one. -/
theorem bind_filter_find (q : Session → Bool) (id : ℕ) :
    ((key id).bind fun k => (t.arena.find k).filter q) = (t.resolve id).filter q := by
  rw [resolve]
  cases key id <;> rfl

variable {id : ℕ}

/-- If a single slot is freed, that is the id of its session. -/
theorem bind_filter_slot (hi : slot id = some i)
    (hg : (t.slots i).generation = generation id) (id' : ℕ) :
    ((key id').bind fun k => (t.arena.find k).filter fun _ => !k.1 == i) =
      if id = id' then none else t.resolve id' := by
  rw [resolve]
  rcases hk : key id' with _ | ⟨j, g⟩
  · exact (ite_self none).symm
  rw [Option.bind_some, Option.bind_some]
  by_cases hj : j = i
  · subst hj
    have hnone : (t.arena.find (j, g)).filter (fun _ => !j == j) = none := by simp
    rw [hnone]
    split_ifs with hid
    · rfl
    · -- Another id of the slot is of another generation.
      refine (if_neg fun hgen : (t.slots j).generation = g => hid ?_).symm
      rw [← encode_of_slot hi, ← hg, hgen]
      exact key_eq_some hk
  · have hid : id ≠ id' := by
      rintro rfl
      rw [key, hi] at hk
      exact hj (congrArg Prod.fst (Option.some.inj hk)).symm
    have hne : (!j == i) = true := by simpa using hj
    rw [if_neg hid, hne]
    cases t.arena.find (j, g) <;> rfl

/-! ## One call -/

namespace Inv

theorem new : Inv [] (fun _ => 0) new where
  counted := rfl
  gen _ := rfl
  agree id := by
    rw [resolve]
    rcases key id with _ | k
    · rfl
    · exact ite_self none
  issued _ hid := nomatch hid
  nodup := .nil

section

variable (hI : Inv h n t)
include hI

/-- A call that fails changes nothing. -/
theorem skip (heff : ∀ id o, effect id e o = o) (hid : e.2.id? = none) :
    Inv (e :: h) (fun i => n i + (frees t t i).toNat) t where
  counted := hI.counted
  gen i := by rw [frees_self, hI.gen]; rfl
  agree id := (hI.agree id).trans (heff id _).symm
  issued id hmem := hI.issued id (issued_cons_of_none hid ▸ hmem)
  nodup := by
    rw [issued_cons_of_none hid]
    exact hI.nodup

/-- Slots are freed, and the ids of their sessions stand for nothing. -/
theorem vacate (hid : e.2.id? = none) (hn : ∀ i, n i + (frees t (t.vacate p) i).toNat < 2 ^ 24)
    (heff : ∀ id, ((key id).bind fun k => (t.arena.find k).filter (!p k.1 ·)) =
      effect id e (t.resolve id)) :
    Inv (e :: h) (fun i => n i + (frees t (t.vacate p) i).toNat) (t.vacate p) := by
  have hg : ∀ i ∈ t.holding p, (t.slots i).generation + 1 < 2 ^ 24 := by
    intro i hi
    have := hn i
    rwa [frees_vacate, decide_eq_true hi, ← hI.gen] at this
  refine ⟨hI.counted.vacate, ?_, ?_, ?_, ?_⟩
  · intro i
    change (t.vacate p).arena.gen i = _
    rw [arena_vacate hg, frees_vacate, ← hI.gen]
    by_cases hi : i ∈ t.holding p
    · rw [decide_eq_true hi]
      exact congrArg (fun b => (t.slots i).generation + Bool.toNat b) (Finset.mem_filter.1 hi).2
    · have hany := Bool.eq_false_iff.2 fun h => hi (Finset.mem_filter.2 ⟨Finset.mem_univ i, h⟩)
      rw [decide_eq_false hi]
      exact congrArg (fun b => (t.slots i).generation + Bool.toNat b) hany
  · intro id
    rw [resolve, arena_vacate hg]
    simp only [find_drop]
    rw [heff, hI.agree]
    rfl
  · intro id hmem
    rw [issued_cons_of_none hid] at hmem
    obtain ⟨k, hk, hiss⟩ := hI.issued id hmem
    exact ⟨k, hk, arena_vacate hg ▸ hiss.drop⟩
  · rw [issued_cons_of_none hid]
    exact hI.nodup

section

variable (hn : ∀ i, n i < 2 ^ 24)
include hn

/-- An empty slot is filled, under an id that is new. -/
theorem acquire (hi : (t.slots i).session = none) (ht : t' = ⟨t.put i s, t.liveCount + 1⟩) :
    Inv ((.acquire s, .acquired (.ok (t.idOf i))) :: h)
      (fun i => n i + (frees t t' i).toNat) t' := by
  subst ht
  have hg : (t.slots i).generation < 2 ^ 24 := hI.gen i ▸ hn i
  have hkey : key (t.idOf i) = some (i, t.arena.gen i) := key_encode hg
  have hiss : Auth.issued ((.acquire s, .acquired (.ok (t.idOf i))) :: h) =
      t.idOf i :: Auth.issued h := issued_cons_of_some rfl
  refine ⟨hI.counted.acquire hi, ?_, ?_, ?_, ?_⟩
  · intro j
    rw [generation_put rfl, frees_put rfl, hI.gen]
    rfl
  · intro id
    rw [resolve_put rfl hg, hI.agree]
    rfl
  · intro id hmem
    rw [arena_put rfl]
    rcases mem_cons.1 hmem with rfl | hmem
    · exact ⟨_, hkey, issued_insert⟩
    · obtain ⟨k, hk, hissued⟩ := hI.issued id hmem
      exact ⟨k, hk, hissued.insert⟩
  · rw [hiss, nodup_cons]
    refine ⟨fun hmem => ?_, hI.nodup⟩
    obtain ⟨k, hk, hissued⟩ := hI.issued _ hmem
    rw [hkey] at hk
    cases hk
    exact not_issued hi hissued

/-- The activity of a session is noted. -/
theorem resetIdle {id nowUnix : ℕ} (hi : slot id = some i)
    (hg : (t.slots i).generation = generation id) (hs : (t.slots i).session = some s)
    (ht : t' = ⟨t.put i { s with lastActivityUnixTime := nowUnix }, t.liveCount⟩) :
    Inv ((.resetIdle id nowUnix, .reset (.ok ())) :: h)
      (fun i => n i + (frees t t' i).toNat) t' := by
  subst ht
  have hid : t.idOf i = id := by rw [idOf, hg, encode_of_slot hi]
  refine ⟨hI.counted.resetIdle hs, ?_, ?_, ?_, hI.nodup⟩
  · intro j
    rw [generation_put rfl, frees_put rfl, hI.gen]
    rfl
  · intro id'
    rw [resolve_put rfl (hI.gen i ▸ hn i), hid]
    change _ = if id = id' then (expected h id').map _ else expected h id'
    rw [← hI.agree id']
    split_ifs with heq
    · rw [← heq, resolve_eq_some.2 ⟨i, hi, hg, hs⟩]
      rfl
    · rfl
  · intro id' hmem
    rw [arena_put rfl]
    obtain ⟨k, hk, hissued⟩ := hI.issued id' hmem
    exact ⟨k, hk, hissued.insert⟩

/-- No call panics. -/
theorem exists_step (c : Call) : ∃ r t', t.step c = some (r, t') := by
  have hg : ∀ i, (t.slots i).generation < 2 ^ 24 := fun i => hI.gen i ▸ hn i
  cases c with
  | acquire s | resetIdle id nowUnix => exact ⟨_, _, rfl⟩
  | release id =>
    rcases hres : t.resolve id with _ | s
    · exact ⟨_, _, congrArg (Option.map _) (release_of_resolve_none hres)⟩
    · obtain ⟨i, hi, hgen, hs⟩ := resolve_eq_some.1 hres
      exact ⟨_, _, congrArg (Option.map _) (release_eq hI.counted hi hgen hs)⟩
  | invalidateUser userId =>
    exact ⟨_, _, congrArg (Option.map _) (invalidateUser_eq hI.counted userId)⟩
  | tick sw now => exact ⟨_, _, congrArg (Option.map _) (sw.tick_eq now () hI.counted hg)⟩

end

theorem step {c : Call} {r : Ret} (hs : t.step c = some (r, t'))
    (hn : ∀ i, n i + (frees t t' i).toNat < 2 ^ 24) :
    Inv ((c, r) :: h) (fun i => n i + (frees t t' i).toNat) t' := by
  have hn' : ∀ i, n i < 2 ^ 24 := fun i => (Nat.le_add_right _ _).trans_lt (hn i)
  have hg : ∀ i, (t.slots i).generation < 2 ^ 24 := fun i => hI.gen i ▸ hn' i
  cases c with
  | acquire s =>
    rcases acquire_eq t s with hfull | ⟨i, hi, hacq⟩
    · rw [SessionTable.step, hfull] at hs
      cases hs
      exact hI.skip (fun _ _ => rfl) rfl
    · rw [SessionTable.step, hacq] at hs
      cases hs
      exact hI.acquire hn' hi rfl
  | release id =>
    rcases hres : t.resolve id with _ | s
    · rw [SessionTable.step, release_of_resolve_none hres] at hs
      cases hs
      exact hI.skip (fun _ _ => rfl) rfl
    · obtain ⟨i, hi, hgen, hses⟩ := resolve_eq_some.1 hres
      rw [SessionTable.step, release_eq hI.counted hi hgen hses] at hs
      cases hs
      exact hI.vacate rfl hn (bind_filter_slot hi hgen)
  | resetIdle id nowUnix =>
    rcases hres : t.resolve id with _ | s
    · rw [SessionTable.step, SessionTable.resetIdle, lookupMut_of_resolve_none _ hres] at hs
      cases hs
      exact hI.skip (fun _ _ => rfl) rfl
    · obtain ⟨i, hi, hgen, hses⟩ := resolve_eq_some.1 hres
      rw [SessionTable.step, resetIdle_eq nowUnix hi hgen hses] at hs
      cases hs
      exact hI.resetIdle hn' hi hgen hses rfl
  | invalidateUser userId =>
    rw [SessionTable.step, invalidateUser_eq hI.counted userId] at hs
    cases hs
    exact hI.vacate rfl hn (bind_filter_find _)
  | tick sw now =>
    rw [SessionTable.step, sw.tick_eq now () hI.counted hg] at hs
    cases hs
    exact hI.vacate rfl hn (bind_filter_find _)

end

end Inv

/-! ## Runs -/

theorem Run.inv (hr : Run h n t) (hn : ∀ i, n i < 2 ^ 24) : Inv h n t := by
  induction hr with
  | new => exact .new
  | step _ hs ih => exact (ih fun i => (Nat.le_add_right _ _).trans_lt (hn i)).step hs hn

/-- Only when it is given out does an id come to stand for a session. -/
theorem effect_none (he : e.2.id? ≠ some id) : effect id e none = none := by
  rw [effect.eq_def]
  split
  · refine if_neg ?_
    rintro rfl
    exact he rfl
  · exact ite_self none
  · exact ite_self none
  all_goals rfl

/-- An id that was given out and stands for nothing never does again, since it is not given out a
    second time. -/
theorem expected_append {h₁ h₂ : List (Call × Ret)} (hn : (issued (h₂ ++ h₁)).Nodup)
    (hid : id ∈ issued h₁) (hnone : expected h₁ id = none) : expected (h₂ ++ h₁) id = none := by
  induction h₂ with
  | nil => exact hnone
  | cons e h₂ ih =>
    have hmem : id ∈ issued (h₂ ++ h₁) := by
      rw [issued, filterMap_append]
      exact mem_append_right _ hid
    have htail := hn.sublist ((sublist_cons_self _ _).filterMap _)
    refine (congrArg (effect id e) (ih htail)).trans (effect_none fun he => ?_)
    rw [cons_append, issued_cons_of_some he, nodup_cons] at hn
    exact hn.1 hmem

/-- The live sessions have different ids, none of them `SessionId.none`. -/
theorem nodup_iter (t : SessionTable) : (t.iter.map Prod.fst).Nodup := by
  have hmap : t.iter.map Prod.fst = (t.live.map Prod.fst).map t.idOf := by
    rw [iter_eq, map_map, map_map]
    rfl
  rw [hmap]
  refine t.nodup_live.map fun i j hij => ?_
  have hslot := congrArg slot hij
  rw [idOf, idOf, slot_encode, slot_encode] at hslot
  exact Option.some.inj hslot

theorem none_notMem_iter (t : SessionTable) : SessionId.none ∉ t.iter.map Prod.fst := by
  rw [iter_eq, map_map]
  intro hmem
  obtain ⟨p, -, hp⟩ := mem_map.1 hmem
  exact encode_ne_none hp

/-- As long as no slot has been freed `2 ^ 24` times: the count is that of the occupied slots, and
    at most the capacity; the ids of the live sessions are distinct and none is `SessionId.none`;
    every id stands for the session the history says, and was given out at most once; so that one
    whose session has been released, invalidated or swept is stale for good. No call panics. -/
theorem run_resolves (hr : Run h n t) (hn : ∀ i, n i < 2 ^ 24) :
    (t.liveCount = (Finset.univ.filter fun i => (t.slots i).session ≠ none).card ∧
      t.liveCount ≤ sessionTableCap) ∧
    ((t.iter.map Prod.fst).Nodup ∧ SessionId.none ∉ t.iter.map Prod.fst) ∧
    (∀ id, t.lookup id = (expected h id).elim (.error .stale) .ok) ∧
    (issued h).Nodup ∧
    (∀ h₁ h₂, h = h₂ ++ h₁ → ∀ id ∈ issued h₁, expected h₁ id = none →
      t.lookup id = .error .stale) ∧
    ∀ c, ∃ r t', t.step c = some (r, t') := by
  have hI := hr.inv hn
  have hlookup : ∀ id, t.lookup id = (expected h id).elim (.error .stale) .ok := by
    intro id
    rw [lookup_eq, hI.agree]
  refine ⟨⟨?_, hI.counted.le_cap⟩, ⟨t.nodup_iter, t.none_notMem_iter⟩, hlookup, hI.nodup, ?_,
    hI.exists_step hn⟩
  · rw [hI.counted]
    congr 1
    ext i
    simp [mem_holding, Option.ne_none_iff_exists']
  · rintro h₁ h₂ rfl id hid hnone
    rw [hlookup, expected_append hI.nodup hid hnone]
    rfl

/-- The session of a guest. -/
def guest : Session where
  userId := 7
  username := Session.usernameBuf []
  usernameLen := 0
  role := .viewer
  loginUnixTime := 100
  lastActivityUnixTime := 100
  peerIdentity := none
  flags := 0
  mustChangePassword := false

/-- A guest logs in, is swept after an hour, and logs in again. -/
theorem run_resolves_guest : ∃ n t,
    Run [(.acquire guest, .acquired (.ok 1)), (.tick .new 3701, .count 1),
      (.acquire guest, .acquired (.ok 0))] n t ∧ (∀ i, n i < 2 ^ 24) ∧
    t.lookup 0 = .error .stale ∧ t.lookup 1 = .ok guest := by
  have hr := ((Run.new.step (c := .acquire guest) rfl).step (c := .tick .new 3701) rfl).step
    (c := .acquire guest) rfl
  refine ⟨_, _, hr, by decide, ?_, ?_⟩
  · exact (run_resolves hr (by decide)).2.2.1 0
  · exact (run_resolves hr (by decide)).2.2.1 1

end SessionTable

end SmallAIOS.Auth

import SmallAIOS.Kernel.Auth.SessionTable
import SmallAIOS.Lib.Arena

/-!
# The session table as an arena

The table is a generational arena (`SessionTable.arena`), in which an id finds
the session it stands for (`lookup_eq`). What the operations do to it:
`acquire` fills an empty cell (`acquire_eq`), `resetIdle` changes the session
of one (`resetIdle_eq`), and `release`, `invalidateUser` and `Sweeper.tick`
empty the cells of some sessions (`release_eq`, `invalidateUser_eq`,
`Sweeper.tick_eq`), in one and the same way (`vacate`, `arena_vacate`). While
the count of live sessions is right, none of them panics.
-/

namespace SmallAIOS.Auth

open List Function
open SessionId hiding none

namespace SessionTable

variable {t t' : SessionTable} {p q : Fin sessionTableCap → Session → Bool} {id : ℕ}

/-- The slots as the cells of a generational arena. -/
def arena (t : SessionTable) : Lib.Arena (Fin sessionTableCap) Session where
  entry i := (t.slots i).session
  gen i := (t.slots i).generation

/-- The session an id stands for. -/
def resolve (t : SessionTable) (id : ℕ) : Option Session :=
  (key id).bind t.arena.find

/-- The count of live sessions is that of the slots with one. -/
def Counted (t : SessionTable) : Prop :=
  t.liveCount = (t.holding fun _ _ => true).card

theorem lookup_eq (t : SessionTable) (id : ℕ) :
    t.lookup id = (t.resolve id).elim (.error .stale) .ok := by
  rcases hi : slot id with _ | i
  · simp [lookup, resolve, key, hi]
  by_cases hg : (t.slots i).generation = generation id
  · rcases hs : (t.slots i).session with _ | s <;>
      simp [lookup, resolve, key, hi, hg, hs, Lib.Arena.find, arena]
  · simp [lookup, resolve, key, hi, hg, Lib.Arena.find, arena]

variable {s : Session}

/-- The slot of an id that stands for a session holds it. -/
theorem resolve_eq_some : t.resolve id = some s ↔
    ∃ i, slot id = some i ∧ (t.slots i).generation = generation id ∧
      (t.slots i).session = some s := by
  simp [resolve, key, Option.bind_eq_some_iff, Lib.Arena.find_eq_some, arena]

/-- The three ways an id can be stale. -/
theorem resolve_eq_none (h : t.resolve id = none) : slot id = none ∨
    ∃ i, slot id = some i ∧
      ((t.slots i).generation ≠ generation id ∨ (t.slots i).session = none) := by
  rcases hi : slot id with _ | i
  · exact Or.inl rfl
  refine Or.inr ⟨i, rfl, ?_⟩
  by_cases hg : (t.slots i).generation = generation id
  · refine Or.inr (Option.eq_none_iff_forall_ne_some.2 fun s hs => ?_)
    rw [resolve_eq_some.2 ⟨i, hi, hg, hs⟩] at h
    cases h
  · exact Or.inl hg

theorem lookupMut_of_resolve_none (f : Session → Session) (h : t.resolve id = none) :
    t.lookupMut id f = .error .stale := by
  rcases resolve_eq_none h with hi | ⟨i, hi, hg | hs⟩
  · simp [lookupMut, hi]
  · simp [lookupMut, hi, hg]
  · simp [lookupMut, hi, hs]

theorem release_of_resolve_none (h : t.resolve id = none) :
    t.release id = some (.error .stale, t) := by
  rcases resolve_eq_none h with hi | ⟨i, hi, hg | hs⟩
  · simp [release, hi]
  · simp [release, hi, hg]
  · simp [release, hi, hs]

/-! ## Freeing slots -/

variable {i : Fin sessionTableCap}

theorem mem_holding : i ∈ t.holding p ↔ ∃ s, (t.slots i).session = some s ∧ p i s = true := by
  simp [holding, Option.any_eq_true]

theorem Counted.ext (h : t.Counted) (h' : t'.Counted) (hs : t.slots = t'.slots) : t = t' := by
  obtain ⟨slots, n⟩ := t
  obtain ⟨slots', n'⟩ := t'
  cases hs
  exact congrArg (SessionTable.mk slots) (h.trans h'.symm)

theorem holding_subset : t.holding p ⊆ t.holding fun _ _ => true := by
  intro i hi
  obtain ⟨s, hs, -⟩ := mem_holding.1 hi
  exact mem_holding.2 ⟨s, hs, rfl⟩

theorem Counted.card_le (h : t.Counted) : (t.holding p).card ≤ t.liveCount :=
  (Finset.card_le_card holding_subset).trans_eq h.symm

theorem Counted.le_cap (h : t.Counted) : t.liveCount ≤ sessionTableCap := by
  rw [h]
  exact (Finset.card_le_univ _).trans_eq (Fintype.card_fin _)

theorem vacate_slots_of_mem (h : i ∈ t.holding p) : (t.vacate p).slots i = (t.slots i).free :=
  if_pos (Finset.mem_filter.1 h).2

theorem vacate_slots_of_notMem (h : i ∉ t.holding p) : (t.vacate p).slots i = t.slots i :=
  if_neg fun hi => h (Finset.mem_filter.2 ⟨Finset.mem_univ i, hi⟩)

theorem holding_vacate : ((t.vacate p).holding fun _ _ => true) =
    (t.holding fun _ _ => true) \ t.holding p := by
  ext i
  rw [Finset.mem_sdiff, mem_holding]
  by_cases hi : i ∈ t.holding p
  · simp [vacate_slots_of_mem hi, Slot.free, hi]
  · rw [vacate_slots_of_notMem hi, mem_holding]
    simp [hi]

theorem Counted.vacate (h : t.Counted) : (t.vacate p).Counted := by
  rw [Counted, holding_vacate, Finset.card_sdiff_of_subset holding_subset, ← h, SessionTable.vacate]

/-- Only what is asked of the sessions of the table matters. -/
theorem vacate_congr (h : ∀ i s, (t.slots i).session = some s → p i s = q i s) :
    t.vacate p = t.vacate q := by
  have hany : ∀ i, (t.slots i).session.any (p i) = (t.slots i).session.any (q i) := by
    intro i
    rcases hs : (t.slots i).session with _ | s
    · rfl
    · exact h i s hs
  simp only [vacate, holding, hany]

/-- Seen as an arena, the table drops those sessions, unless a generation wraps around. -/
theorem arena_vacate (h : ∀ i ∈ t.holding p, (t.slots i).generation + 1 < 2 ^ 24) :
    (t.vacate p).arena = t.arena.drop p := by
  have hcell : ∀ i, ((t.vacate p).slots i).session = (t.arena.drop p).entry i ∧
      ((t.vacate p).slots i).generation = (t.arena.drop p).gen i := by
    intro i
    rcases hs : (t.slots i).session with _ | s
    · simp [arena, vacate, Lib.Arena.drop, hs]
    rcases hp : p i s with _ | _
    · simp [arena, vacate, Lib.Arena.drop, hs, hp, Option.filter]
    · have hmem := mem_holding.2 ⟨s, hs, hp⟩
      have hg := h i hmem
      have hmod : ((t.slots i).generation + 1) % 2 ^ 32 % 2 ^ 24 =
          (t.slots i).generation + 1 := by omega
      rw [vacate_slots_of_mem hmem, Slot.free, and_genMask, hmod]
      simp [arena, Lib.Arena.drop, hs, hp, Option.filter]
  rw [Lib.Arena.mk.injEq]
  exact ⟨funext fun i => (hcell i).1, funext fun i => (hcell i).2⟩

/-! ## The operations that free slots -/

/-- A session that is released is the only one to go. -/
theorem release_eq (hc : t.Counted)
    (hi : slot id = some i) (hg : (t.slots i).generation = generation id)
    (hs : (t.slots i).session = some s) :
    t.release id = some (.ok s, t.vacate fun j _ => j == i) := by
  have hmem : i ∈ t.holding fun j _ => j == i := mem_holding.2 ⟨s, hs, beq_self_eq_true i⟩
  have hone : (t.holding fun j _ => j == i) = {i} := by
    ext j
    rw [Finset.mem_singleton]
    refine ⟨fun hj => ?_, fun hj => hj ▸ hmem⟩
    obtain ⟨-, -, hji⟩ := mem_holding.1 hj
    exact eq_of_beq hji
  have hlive : ¬ t.liveCount < 1 := by
    have := hc.card_le (p := fun j _ => j == i)
    rw [hone] at this
    exact not_lt.2 this
  have hslots : update t.slots i (t.slots i).free =
      (t.vacate fun j _ => j == i).slots := by
    funext j
    by_cases hj : j = i
    · subst hj
      rw [vacate_slots_of_mem hmem, update_self]
    · have hnot : j ∉ t.holding fun j _ => j == i := by simpa [hone] using hj
      rw [vacate_slots_of_notMem hnot, update_of_ne hj]
  simp only [release, hi, hg, hs, ne_eq, not_true_eq_false, if_false, if_neg hlive, hslots]
  rw [vacate, hone, Finset.card_singleton]

/-- Freeing one slot and then others is freeing them all. -/
theorem vacate_vacate {l : List (Fin sessionTableCap)}
    (hc : t.Counted) : ((t.vacate fun j _ => j == i).vacate fun j _ => l.contains j) =
      t.vacate fun j _ => (i :: l).contains j := by
  refine hc.vacate.vacate.ext hc.vacate (funext fun j => ?_)
  rcases hs : (t.slots j).session with _ | s
  · simp [vacate, hs]
  by_cases hj : j = i
  · subst hj
    simp [vacate, hs, Slot.free]
  · simp [vacate, hs, hj]

theorem invalidateUser_eq (hc : t.Counted) (userId : ℕ) :
    t.invalidateUser userId = some ((t.holding fun _ s => s.userId == userId).card,
      t.vacate fun _ s => s.userId == userId) :=
  if_neg (not_lt.2 hc.card_le)

/-! ## The operations that write a slot -/

/-- The slot with its session replaced. -/
def put (t : SessionTable) (i : Fin sessionTableCap) (s : Session) : Fin sessionTableCap → Slot :=
  update t.slots i { t.slots i with session := some s }

theorem arena_put (h : t'.slots = t.put i s) : t'.arena = t.arena.insert i s := by
  have hcell : ∀ j, t'.arena.entry j = (t.arena.insert i s).entry j ∧
      t'.arena.gen j = (t.arena.insert i s).gen j := by
    intro j
    by_cases hj : j = i
    · subst hj
      simp [arena, h, put, Lib.Arena.insert]
    · simp [arena, h, put, Lib.Arena.insert, hj]
  rw [Lib.Arena.mk.injEq]
  exact ⟨funext fun j => (hcell j).1, funext fun j => (hcell j).2⟩

theorem generation_put {i j : Fin sessionTableCap} (h : t'.slots = t.put i s) :
    (t'.slots j).generation = (t.slots j).generation := by
  change t'.arena.gen j = t.arena.gen j
  rw [arena_put h]
  rfl

theorem holding_put (h : t'.slots = t.put i s) :
    (t'.holding fun _ _ => true) = insert i (t.holding fun _ _ => true) := by
  ext j
  rw [Finset.mem_insert, mem_holding, mem_holding, h, put]
  by_cases hj : j = i
  · simp [hj]
  · simp [hj]

/-- A session goes into an empty slot, or the table is full. -/
theorem acquire_eq (t : SessionTable) (s : Session) :
    t.acquire s = (.error .tableFull, t) ∨ ∃ i, (t.slots i).session = none ∧
      t.acquire s = (.ok (encode i (t.slots i).generation), ⟨t.put i s, t.liveCount + 1⟩) := by
  rw [acquire]
  split
  · rename_i i hi
    have hnone : (t.slots i).session.isNone = true := by simpa using find?_some hi
    exact Or.inr ⟨i, Option.isNone_iff_eq_none.1 hnone, rfl⟩
  · exact Or.inl rfl

theorem resetIdle_eq (nowUnix : ℕ)
    (hi : slot id = some i) (hg : (t.slots i).generation = generation id)
    (hs : (t.slots i).session = some s) :
    t.resetIdle id nowUnix =
      (.ok (), ⟨t.put i { s with lastActivityUnixTime := nowUnix }, t.liveCount⟩) := by
  simp [resetIdle, lookupMut, hi, hg, hs, put]

theorem Counted.acquire (h : t.Counted)
    (hi : (t.slots i).session = none) : Counted ⟨t.put i s, t.liveCount + 1⟩ := by
  have hnot : i ∉ t.holding fun _ _ => true := by simp [mem_holding, hi]
  rw [Counted, holding_put rfl, Finset.card_insert_of_notMem hnot, ← h]

theorem Counted.resetIdle {s s' : Session} (h : t.Counted)
    (hi : (t.slots i).session = some s) : Counted ⟨t.put i s', t.liveCount⟩ := by
  rw [Counted, holding_put rfl, Finset.insert_eq_of_mem (mem_holding.2 ⟨s, hi, rfl⟩), ← h]

end SessionTable

/-! ## The sweeper -/

namespace SessionTable

variable {t : SessionTable}

/-- The live sessions with their slots. -/
def live (t : SessionTable) : List (Fin sessionTableCap × Session) :=
  (finRange sessionTableCap).filterMap fun i => (t.slots i).session.map (i, ·)

/-- The id of the session in a slot. -/
def idOf (t : SessionTable) (i : Fin sessionTableCap) : ℕ :=
  encode i (t.slots i).generation

theorem iter_eq (t : SessionTable) : t.iter = t.live.map fun p => (t.idOf p.1, p.2) := by
  rw [live, map_filterMap, iter]
  congr 1
  funext i
  rw [Option.map_map]
  rfl

theorem mem_live {p : Fin sessionTableCap × Session} :
    p ∈ t.live ↔ (t.slots p.1).session = some p.2 := by
  obtain ⟨i, s⟩ := p
  simp [live]

theorem nodup_live (t : SessionTable) : (t.live.map Prod.fst).Nodup := by
  rw [live, map_filterMap]
  refine (nodup_finRange _).filterMap ?_
  intro i j k hi hj
  simp only [Option.map_map, Option.mem_def, Option.map_eq_some_iff, comp] at hi hj
  obtain ⟨-, -, rfl⟩ := hi
  obtain ⟨-, -, rfl⟩ := hj
  rfl

end SessionTable

/-- Report the sessions swept, in their order. -/
def AuditSink.report {σ : Type*} (sink : AuditSink σ) (audit : σ) (swept : List (ℕ × Session)) :
    σ :=
  swept.foldl (fun audit p => sink.onSessionInvalidated audit p.1 p.2 .idleTimeout) audit

namespace Sweeper

open SessionTable

variable {σ : Type*} {t : SessionTable} {sink : AuditSink σ}

/-- A live session is swept: audited, and its slot freed. -/
theorem sweep_eq {i : Fin sessionTableCap} {s : Session} (hc : t.Counted)
    (hg : (t.slots i).generation < 2 ^ 24) (hs : (t.slots i).session = some s) (killed : ℕ)
    (audit : σ) : sweep sink (killed, t, audit) (t.idOf i) =
      some (killed + 1, t.vacate fun j _ => j == i,
        sink.onSessionInvalidated audit (t.idOf i) s .idleTimeout) := by
  have hi : slot (t.idOf i) = some i := slot_encode i _
  have hgen : (t.slots i).generation = generation (t.idOf i) := by
    rw [idOf, generation_encode, Nat.mod_eq_of_lt hg]
  have hlook : t.lookup (t.idOf i) = .ok s := by
    rw [lookup_eq, resolve_eq_some.2 ⟨i, hi, hgen, hs⟩]
    rfl
  simp only [sweep, hlook, release_eq hc hi hgen hs, Option.map_some]

theorem foldlM_sweep (l : List (Fin sessionTableCap × Session)) (hc : t.Counted)
    (hg : ∀ i, (t.slots i).generation < 2 ^ 24) (hn : (l.map Prod.fst).Nodup)
    (hl : ∀ p ∈ l, (t.slots p.1).session = some p.2) (killed : ℕ) (audit : σ) :
    (l.map fun p => t.idOf p.1).foldlM (sweep sink) (killed, t, audit) =
      some (killed + l.length, t.vacate fun j _ => (l.map Prod.fst).contains j,
        sink.report audit (l.map fun p => (t.idOf p.1, p.2))) := by
  induction l generalizing t killed audit with
  | nil =>
    have : (t.vacate fun _ _ => false) = t := by simp [vacate, holding]
    simp [this, AuditSink.report]
  | cons p l ih =>
    obtain ⟨i, s⟩ := p
    rw [map_cons, nodup_cons] at hn
    -- The slots still to be swept are not that of the first session.
    have hslot : ∀ p ∈ l, (t.vacate fun j _ => j == i).slots p.1 = t.slots p.1 := by
      intro p hp
      refine vacate_slots_of_notMem fun hmem => hn.1 ?_
      obtain ⟨-, -, hpi⟩ := mem_holding.1 hmem
      exact eq_of_beq hpi ▸ mem_map.2 ⟨p, hp, rfl⟩
    have hid : ∀ p ∈ l, (t.vacate fun j _ => j == i).idOf p.1 = t.idOf p.1 := by
      intro p hp
      rw [idOf, hslot p hp, idOf]
    have hg' : ∀ j, ((t.vacate fun j _ => j == i).slots j).generation < 2 ^ 24 := by
      intro j
      by_cases hj : j ∈ t.holding fun j _ => j == i
      · rw [vacate_slots_of_mem hj, Slot.free, and_genMask]
        exact Nat.mod_lt _ (Nat.two_pow_pos 24)
      · rw [vacate_slots_of_notMem hj]
        exact hg j
    have hrest := ih hc.vacate hg' hn.2
      (fun p hp => by rw [hslot p hp]; exact hl p (mem_cons_of_mem _ hp)) (killed + 1)
      (sink.onSessionInvalidated audit (t.idOf i) s .idleTimeout)
    rw [map_congr_left hid, vacate_vacate hc,
      map_congr_left fun p hp => congrArg (·, p.2) (hid p hp)] at hrest
    rw [map_cons, foldlM_cons, sweep_eq hc (hg i) (hl (i, s) mem_cons_self)]
    refine hrest.trans ?_
    rw [Nat.add_right_comm]
    rfl

/-- A tick frees the slots of the idle sessions, and reports each of them once with its id. -/
theorem tick_eq (sw : Sweeper) (now : ℕ) (audit : σ) (hc : t.Counted)
    (hg : ∀ i, (t.slots i).generation < 2 ^ 24) : sw.tick sink now t audit =
      some ((t.iter.filter fun p => sw.isIdle now p.2).length,
        t.vacate fun _ s => sw.isIdle now s,
        sink.report audit (t.iter.filter fun p => sw.isIdle now p.2)) := by
  have hfilter : (t.iter.filter fun p => sw.isIdle now p.2) =
      (t.live.filter fun p => sw.isIdle now p.2).map fun p => (t.idOf p.1, p.2) := by
    rw [iter_eq, filter_map]
    rfl
  have hn : ((t.live.filter fun p => sw.isIdle now p.2).map Prod.fst).Nodup :=
    t.nodup_live.sublist (filter_sublist.map _)
  have hl : ∀ p ∈ t.live.filter fun p => sw.isIdle now p.2,
      (t.slots p.1).session = some p.2 := fun p hp => mem_live.1 (mem_filter.1 hp).1
  rw [tick, hfilter, map_map]
  refine (foldlM_sweep _ hc hg hn hl 0 audit).trans ?_
  rw [Nat.zero_add, length_map, vacate_congr]
  intro i s hs
  rw [Bool.eq_iff_iff, contains_iff_mem, mem_map]
  constructor
  · rintro ⟨⟨i', s'⟩, hp, rfl⟩
    obtain ⟨hlive, hidle⟩ := mem_filter.1 hp
    rw [mem_live.1 hlive] at hs
    exact Option.some.inj hs ▸ hidle
  · intro hidle
    exact ⟨(i, s), mem_filter.2 ⟨mem_live.2 hs, hidle⟩, rfl⟩

end Sweeper

end SmallAIOS.Auth

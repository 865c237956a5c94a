import SmallAIOS.Fs.LittleFs.Files
import SmallAIOS.Fs.LittleFs.Load

/-!
# Careful runs

A run starts on a device that has been formatted. A call that only changes the entries of a
directory needs of its step that the blocks of the metadata pairs do not fail, and that no revision
is about to wrap around (`Sturdy`). The other calls need more (`Call.Careful`), given the write path
that the call finds:

* a directory is made without any failure, and where no free block holds a half that is newer than
  its first one;
* a handle is used on the entry of a file, and without any failure if the file is in a chain; a
  file is cut without any failure;
* the device is mounted again when nothing is left to commit, and the files in directories are not
  in chains.

In a careful run, each of whose steps meets both (`Careful`), the invariant holds in every state, of
the write path that is loaded or will be (`inv_of_reachesBy`). A call that does not rewrite a file
in a chain hands out only blocks that were not in use (`Call.keeps`).
-/

namespace SmallAIOS.Fs.LittleFs

open Lib Flash Option Prod Fallible

variable {cfg : Config}

namespace FileSystem

/-- The write path that the next call finds. -/
def loaded (s : FileSystem cfg) : Option (Mounted cfg) :=
  match s.mem with
  | some m => some ⟨s.dev, m⟩
  | none => (load s.dev).toOption.map fun m => ⟨s.dev, m⟩

/-- A file system with this write path. -/
def ofMounted (m : Mounted cfg) : FileSystem cfg := ⟨m.dev, some m.mem⟩

end FileSystem

/-! ## The condition -/

/-- The condition on a call that does more than to change entries, given the write path. -/
def Call.Careful (m : Mounted cfg) : Call → Prop
  | .mount => (∀ p ∈ m.mem.pairs, p.dirty = false) ∧
    ∀ p ∈ m.mem.pairs.tail, ∀ e ∈ p.entries, e.isCtz = false
  | .mkdir _ => NoFaults m ∧
    ∀ b < cfg.blockCount, m.mem.allocator.taken b = false → Superseded m.dev.image b
  | .truncate _ _ => NoFaults m
  | .write h _ | .flush h | .close h => ∀ e ∈ h.entry m.mem.pairs,
    e.typName = tagNameReg ∧ (e.isCtz = true → NoFaults m)
  | _ => True

/-- The call stores the contents of a file that is in a chain, or cuts a file. -/
def Call.Rewrites (m : Mounted cfg) : Call → Prop
  | .write h _ | .flush h | .close h => ∃ e ∈ h.entry m.mem.pairs, e.isCtz = true
  | .truncate _ _ => True
  | _ => False

instance (m : Mounted cfg) : Decidable (NoFaults m) :=
  inferInstanceAs (Decidable (∀ b < cfg.blockCount, m.dev.faults b = []))

instance (m : Mounted cfg) : (c : Call) → Decidable (c.Careful m)
  | .mount => inferInstanceAs (Decidable (_ ∧ _))
  | .mkdir _ => inferInstanceAs (Decidable (_ ∧ ∀ b < cfg.blockCount, _ → _))
  | .truncate _ _ => inferInstanceAs (Decidable (NoFaults m))
  | .write h _ | .flush h | .close h =>
    inferInstanceAs (Decidable (∀ e ∈ h.entry m.mem.pairs, _ ∧ (_ → _)))
  | .create _ | .openWrite _ _ | .fsync | .remove _ | .rename _ _ | .rmdir _ =>
    inferInstanceAs (Decidable True)

/-- The blocks of the metadata pairs do not fail in the step, and their revisions can grow. -/
def Sturdy (s : FileSystem cfg) (a : Step cfg) : Prop :=
  ∀ m ∈ (s.begin a.faults).loaded, ∀ p ∈ m.mem.pairs, p.revision + 2 < 2 ^ 32 ∧
    ∀ i, m.dev.faults (p.blocks.half i) = []

/-- The condition on a step of a run. -/
def Careful (s : FileSystem cfg) (a : Step cfg) : Prop :=
  Sturdy s a ∧ ∀ m ∈ (s.begin a.faults).loaded, a.call.Careful m

instance (s : FileSystem cfg) (a : Step cfg) : Decidable (Sturdy s a) :=
  inferInstanceAs (Decidable (∀ m ∈ (s.begin a.faults).loaded, ∀ p ∈ m.mem.pairs, _ ∧ ∀ _, _))

instance (s : FileSystem cfg) (a : Step cfg) : Decidable (Careful s a) :=
  inferInstanceAs (Decidable (_ ∧ ∀ m ∈ (s.begin a.faults).loaded, _))

/-! ## One call -/

/-- The write path after a call, if it was loaded. -/
def Call.after (m : Mounted cfg) : Call → Mounted cfg
  | .mount => m
  | .create path => (Mounted.create path m).2
  | .openWrite path flags => (Mounted.openWrite path flags m).2
  | .write h bytes => (Mounted.write h bytes m).2
  | .flush h => (Mounted.flush h m).2
  | .close h => (Mounted.close h m).2
  | .fsync => (commitAll m).2
  | .remove path => (Mounted.remove path m).2
  | .rename src dst => (Mounted.rename src dst m).2
  | .truncate path newSize => (Mounted.truncate path newSize m).2
  | .mkdir path => (Mounted.mkdir path m).2
  | .rmdir path => (Mounted.rmdir path m).2

namespace FileSystem

variable {s s' : FileSystem cfg} {m : Mounted cfg} {α : Type}

/-- A write path that is not loaded yet is the one on the device. -/
theorem loaded_of_none {d : Device cfg.toGeometry} :
    (FileSystem.mk d none).loaded = some m ↔ ∃ mem, load d = .ok mem ∧ m = ⟨d, mem⟩ := by
  rw [loaded]
  cases load d with
  | error e =>
    refine iff_of_false (by rintro ⟨⟩) ?_
    rintro ⟨mem, ⟨⟩, -⟩
  | ok mem =>
    refine ⟨fun h => ⟨mem, rfl, (some.inj h).symm⟩, ?_⟩
    rintro ⟨-, ⟨⟩, rfl⟩
    rfl

section

variable (hs : s.loaded = some m) (x : M cfg α)
include hs

theorem dev_of_loaded : m.dev = s.dev := by
  obtain ⟨d, _ | mem⟩ := s
  · obtain ⟨mem, -, rfl⟩ := loaded_of_none.1 hs
    rfl
  · cases hs
    rfl

/-- The write path is loaded, and the call is made on it. -/
theorem loading_eq : s.loading x = ((x m).1, ofMounted (x m).2) := by
  obtain ⟨d, _ | mem⟩ := s
  · obtain ⟨mem, hload, rfl⟩ := loaded_of_none.1 hs
    rw [loading, ensureMutable]
    rw [hload]
    rfl
  · cases hs
    rfl

/-- A call that needs the write path fails if it is not loaded. -/
theorem withMutable_cases :
    (s.withMutable x).2 = s ∨ s.withMutable x = ((x m).1, ofMounted (x m).2) := by
  obtain ⟨d, _ | mem⟩ := s
  · exact .inl rfl
  · cases hs
    exact .inr rfl

/-- What a call does to the file system: nothing, mount it again, or what it does on the write
    path. -/
theorem run_cases (c : Call) :
    (c.run s).2 = s ∨ c = .mount ∧ (c.run s).2 = { s with mem := none } ∨
      (c.run s).2 = ofMounted (c.after m) := by
  cases c with
  | mount =>
    change s.remount.2 = _ ∨ _ ∧ s.remount.2 = _ ∨ _
    rw [remount]
    cases mount s.dev.image with
    | error e => exact .inl rfl
    | ok u => exact .inr (.inl ⟨rfl, rfl⟩)
  | create _ | openWrite _ _ | remove _ | rename _ _ | truncate _ _ | mkdir _ | rmdir _ =>
    right; right
    rw [Call.run, loading_eq hs]
    rfl
  | write h bytes =>
    change (s.write h bytes).2 = _ ∨ _ ∨ (s.write h bytes).2 = _
    rw [write]
    split_ifs
    · exact (withMutable_cases hs _).imp id fun heq => .inr (congrArg snd heq)
    · exact .inl rfl
  | flush h =>
    exact (withMutable_cases hs (Mounted.flush h)).imp id fun heq => .inr (congrArg snd heq)
  | close h =>
    change (s.close h).2 = _ ∨ _ ∨ (s.close h).2 = _
    rw [close]
    split_ifs
    · exact .inl rfl
    · exact (withMutable_cases hs _).imp id fun heq => .inr (congrArg snd heq)
  | fsync =>
    change s.fsync.2 = _ ∨ _ ∨ s.fsync.2 = _
    rw [fsync]
    cases s.mem with
    | none => exact .inl rfl
    | some _ => exact (withMutable_cases hs _).imp id fun heq => .inr (congrArg snd heq)

end

/-- A step is a call from where it begins. -/
theorem step_eq_some {a : Step cfg} {r : Except LittleFsError (Option FileMut)}
    (h : s.step a = some (r, s')) :
    a.call.run (s.begin a.faults) = (r.mapError some, s') := by
  rw [step] at h
  rcases hr : a.call.run (s.begin a.faults) with ⟨(_ | e) | v, s1⟩
  · rw [hr] at h
    cases h
  · rw [hr] at h
    cases h
    rfl
  · rw [hr] at h
    cases h
    rfl

end FileSystem

section Keeps

variable {m : Mounted cfg} {e : PairEntry} {f : FileMut}

/-- A handle of an entry that is there is used. -/
theorem Calm.writing (h : Calm m) (he : f.entry m.mem.pairs = some e)
    (hreg : e.typName = tagNameReg) : Writing (Spared m e) m f m :=
  ⟨h.able, .refl h.inv.sound fun _ hb => hb.taken, e, he, hreg, fun _ hb hsp => hsp.2 hb⟩

/-- A handle of an entry that is not there is refused. -/
theorem flushFilemut_of_none (he : f.entry m.mem.pairs = none) :
    ∃ err, flushFilemut f m = (.error err, m) := by
  rw [flushFilemut, M.get_bind]
  cases hp : m.mem.pairs[f.pairIdx]? with
  | none =>
    have hat : M.pairAt f.pairIdx m = (.error none, m) := by rw [M.pairAt, hp]
    exact ⟨none, bind_of_error hat⟩
  | some p =>
    rw [FileMut.entry, hp, bind_some] at he
    rw [bind_of_ok (pairAt_eq hp), he]
    exact ⟨some .notFound, rfl⟩

/-- What a call leaves: the invariant, and handed out are only blocks that were not in use, unless
    it rewrites a file in a chain. -/
structure Kept (m : Mounted cfg) (rewrites : Prop) (m' : Mounted cfg) : Prop where
  inv : Inv m'
  handed : ¬rewrites → HandsOut (fun b => m.mem.allocator.taken b = true) m m'

variable {rewrites : Prop} {path : List UInt8}

theorem Calm.kept (h : Calm m) : Kept m rewrites m := ⟨h.inv, fun _ => .of_eq rfl⟩

variable {o : Except (Option LittleFsError) PUnit × Mounted cfg}

theorem Updating.kept (h : Calm m) (hu : Updating m path o) : Kept m rewrites o.2 := by
  cases hu with
  | refused err => exact h.kept
  | commits s1 idx p name hdir hdev hhanded hs hp =>
    have hc := hs.committing hp
    exact ⟨(hs.of_committing hp hc).inv, fun _ => .of_eq (hc.handed_eq.trans hhanded)⟩

theorem Opening.kept {flags : OpenFlags} {o : Except (Option LittleFsError) FileMut × Mounted cfg}
    (h : Calm m) (ho : Opening m path flags o) : Kept m rewrites o.2 := by
  cases ho with
  | refused err => exact h.kept
  | existing idx p name e hdir hp he ht => exact h.kept
  | emptied idx p name e hdir hp he ht hinv
  | created idx p name id hdir hp hnone hcreate hid hinv => exact ⟨hinv, fun _ => .of_eq rfl⟩

/-- A handle is used on a file. -/
theorem Inv.kept {m' : Mounted cfg} (hinv : Inv m') (hh : HandsOut (Spared m e) m m')
    (hrw : e.isCtz = true → rewrites) : Kept m rewrites m' := by
  refine ⟨hinv, fun hne => ?_⟩
  -- A file that is not in a chain has no blocks to spare.
  have hctz : e.isCtz = false := by
    cases h : e.isCtz with
    | false => rfl
    | true => exact absurd (hrw h) hne
  obtain ⟨l, hl, hfree⟩ := hh
  refine ⟨l, hl, fun b hb htaken => hfree b hb ⟨htaken, ?_⟩⟩
  rw [chain_of_not_isCtz hctz]
  exact List.not_mem_nil

/-- A careful call keeps the invariant. -/
theorem Call.keeps (c : Call) (h : Calm m) (hc : c.Careful m) :
    Kept m (c.Rewrites m) (c.after m) := by
  cases c with
  | mount => exact h.kept
  | create path => exact (create_updating h path).kept h
  | openWrite path flags => exact (opening h.inv path flags).kept h
  | write f bytes =>
    cases he : f.entry m.mem.pairs with
    | none =>
      obtain ⟨err, hfl⟩ := flushFilemut_of_none (f := { f with buf := f.buf ++ bytes }) he
      change Kept m _ (Mounted.write f bytes m).2
      rw [Mounted.write]
      split_ifs
      · exact h.kept
      · dsimp only
        split_ifs
        · rw [bind_of_error hfl]
          exact h.kept
        · exact h.kept
    | some e =>
      have hw := (h.writing he (hc e he).1).write (fun e' he' => (hc e' he').2) bytes
      exact hw.able.inv.kept hw.apart.handed fun hctz => ⟨e, he, hctz⟩
  | flush f =>
    cases he : f.entry m.mem.pairs with
    | none =>
      obtain ⟨err, hfl⟩ := flushFilemut_of_none he
      change Kept m _ ((flushFilemut f >>= fun _ => _) m).2
      rw [bind_of_error hfl]
      exact h.kept
    | some e =>
      have hw := (h.writing he (hc e he).1).flush fun e' he' => (hc e' he').2
      change Kept m _ ((flushFilemut f >>= fun _ => pure _) m).2
      rw [snd_bind_pure]
      exact hw.able.inv.kept hw.apart.handed fun hctz => ⟨e, he, hctz⟩
  | close f =>
    cases he : f.entry m.mem.pairs with
    | none =>
      obtain ⟨err, hfl⟩ := flushFilemut_of_none he
      change Kept m _ (Mounted.close f m).2
      rw [Mounted.close]
      split_ifs
      · exact h.kept
      · rw [bind_of_error hfl]
        exact h.kept
    | some e =>
      obtain ⟨hinv, hhanded⟩ := (h.writing he (hc e he).1).close fun e' he' => (hc e' he').2
      exact hinv.kept hhanded fun hctz => ⟨e, he, hctz⟩
  | fsync =>
    rcases hr : commitAll m with ⟨r, m'⟩
    change Kept m _ (commitAll m).2
    rw [hr]
    obtain ⟨hsteady, hhanded⟩ := steady_commitAll h.steady hr
    exact ⟨hsteady.inv, fun _ => .of_eq hhanded⟩
  | remove path => exact (remove_updating h path).kept h
  | rename src dst => exact (rename_updating h src dst).kept h
  | truncate path newSize =>
    exact ⟨truncate_keeps h hc path newSize, (absurd trivial)⟩
  | mkdir path =>
    obtain ⟨hinv, hhanded⟩ := mkdir_keeps h hc.1 hc.2 path
    exact ⟨hinv, fun _ => hhanded⟩
  | rmdir path => exact (rmdir_updating h path).kept h

end Keeps

/-! ## Runs -/

/-- The write path when a call begins. -/
def Mounted.begin (m : Mounted cfg) (faults : ℕ → List (Option (Fault cfg.toGeometry))) :
    Mounted cfg where
  dev := { m.dev with faults := faults, cuts := [] }
  mem := { m.mem with handed := [] }

namespace FileSystem

variable {s s' s0 : FileSystem cfg} {m : Mounted cfg} {a : Step cfg}

theorem loaded_begin (hs : s.loaded = some m) (faults : ℕ → List (Option (Fault cfg.toGeometry))) :
    (s.begin faults).loaded = some (m.begin faults) := by
  obtain ⟨d, _ | mem⟩ := s
  · obtain ⟨mem, hload, rfl⟩ := loaded_of_none.1 hs
    refine loaded_of_none.2 ⟨{ mem with handed := [] }, ?_, rfl⟩
    rw [← handed_load hload]
    exact hload
  · cases hs
    rfl

theorem Sturdy.calm (hs : s.loaded = some m) (hinv : Inv m) (hc : Sturdy s a) :
    Calm (m.begin a.faults) := by
  have hpairs := hc _ (loaded_begin hs a.faults)
  -- The invariant does not depend on the failures to come.
  refine ⟨⟨hinv.toLayout, hinv.taken, hinv.good, hinv.bad, hinv.blockCount_eq⟩, ?_, ?_⟩
  · exact fun p hp => (hpairs p hp).2
  · exact fun p hp => (hpairs p hp).1

theorem Careful.calm (hs : s.loaded = some m) (hinv : Inv m) (hc : Careful s a) :
    Calm (m.begin a.faults) ∧ a.call.Careful (m.begin a.faults) :=
  ⟨Sturdy.calm hs hinv hc.1, hc.2 _ (loaded_begin hs a.faults)⟩

variable {r : Except LittleFsError (Option FileMut)}
  {t : List (Step cfg × Except LittleFsError (Option FileMut))}

theorem step_cases (hs : s.loaded = some m) (h : s.step a = some (r, s')) :
    s' = s.begin a.faults ∨ a.call = .mount ∧ s' = { s.begin a.faults with mem := none } ∨
      s' = ofMounted (a.call.after (m.begin a.faults)) := by
  have heq : (a.call.run (s.begin a.faults)).2 = s' := congrArg snd (step_eq_some h)
  rw [← heq]
  exact run_cases (loaded_begin hs a.faults) a.call

/-- A careful step keeps the invariant. -/
theorem inv_step (hs : s.loaded = some m) (hinv : Inv m) (hc : Careful s a)
    (h : s.step a = some (r, s')) : ∃ m', s'.loaded = some m' ∧ Inv m' := by
  have hb := loaded_begin hs a.faults
  obtain ⟨hcalm, hcall⟩ := Careful.calm hs hinv hc
  obtain rfl | ⟨hmount, rfl⟩ | rfl := step_cases hs h
  · exact ⟨_, hb, hcalm.inv⟩
  · rw [hmount] at hcall
    obtain ⟨mem, hload, hinv'⟩ := hcalm.inv.reload hcall.1 hcall.2
    rw [dev_of_loaded hb] at hload hinv'
    exact ⟨_, loaded_of_none.2 ⟨mem, hload, rfl⟩, hinv'⟩
  · exact ⟨_, rfl, (a.call.keeps hcalm hcall).inv⟩

/-- A careful step that does not rewrite a file in a chain hands out only blocks that were not in
    use. -/
theorem handed_step (hs : s.loaded = some m) (hinv : Inv m) (hc : Careful s a)
    (hrw : ¬a.call.Rewrites m) (h : s.step a = some (r, s')) {mem : MutableState}
    (hmem : s'.mem = some mem) {b : ℕ} (hb : b ∈ mem.handed) :
    b ∉ owned m.dev.image m.mem.pairs := by
  obtain ⟨hcalm, hcall⟩ := Careful.calm hs hinv hc
  obtain rfl | ⟨-, rfl⟩ | rfl := step_cases hs h
  · obtain ⟨mem', -, rfl⟩ := map_eq_some_iff.1 hmem
    cases hb
  · cases hmem
  · cases hmem
    obtain ⟨l, hl, hfree⟩ := (a.call.keeps hcalm hcall).handed hrw
    rw [hl] at hb
    exact fun hown => hfree b hb (hinv.taken b hown)

/-- In every careful run, the invariant holds of the write path. -/
theorem inv_of_reachesBy (h0 : s0.Formatted) (h : ReachesBy Careful step s0 t s) :
    ∃ m, s.loaded = some m ∧ Inv m := by
  refine h.invariant (I := fun s => ∃ m, s.loaded = some m ∧ Inv m) ?_ ?_
  · obtain ⟨d, d', hformat, rfl⟩ := h0
    obtain ⟨mem, hload, hinv⟩ := exists_load_of_format hformat
    exact ⟨_, loaded_of_none.2 ⟨mem, hload, rfl⟩, hinv⟩
  · rintro s a r s' ⟨m, hs, hinv⟩ hc hstep
    exact inv_step hs hinv hc hstep

end FileSystem

end SmallAIOS.Fs.LittleFs

import SmallAIOS.Fs.LittleFs.Mkdir

/-!
# Writing through a handle

`openWrite` finds or makes the entry of a file, or empties it, all in memory (`Opening`). Bytes
that are written are buffered; `flush`, `close` and long writes store them in the file. While a
handle is used, nothing happens to a set `T` of blocks that are in use and not in the file's chain
(`Writing`): each call keeps this, whether it fails or not.

* `Writing.flush`, `Writing.write`: storing what is buffered;
* `Writing.closing`: how `close` ends: with a commit, or before it;
* `truncate_keeps`: cutting a file keeps the invariant on a device that does not fail.
-/

namespace SmallAIOS.Fs.LittleFs

open Lib Flash List Fallible Mounted

variable {cfg : Config} {s s' s₀ s1 : Mounted cfg} {p : PairState} {e : PairEntry} {h : FileMut}
  {T : ℕ → Prop} {idx b : ℕ} {name path : List UInt8} {flags : OpenFlags}

/-- The invariant, with metadata pairs that do not fail and can be committed once more. -/
structure Able (s : Mounted cfg) : Prop where
  inv : Inv s
  quiet : Quiet s
  low : ∀ p ∈ s.mem.pairs, p.revision + 1 < 2 ^ 32

theorem Calm.able (h : Calm s) : Able s :=
  ⟨h.inv, h.quiet, fun p hp => (Nat.lt_succ_self _).trans (h.low p hp)⟩

theorem Able.steady (h : Able s) : Steady s := ⟨h.inv, h.quiet, fun p hp _ => h.low p hp⟩

/-- The pairs are where they were, with the same revisions. -/
def SamePairs (s s' : Mounted cfg) : Prop :=
  ∀ q ∈ s'.mem.pairs, ∃ q' ∈ s.mem.pairs, q'.blocks = q.blocks ∧ q'.revision = q.revision

theorem Able.of_same (h : Able s) (hinv : Inv s')
    (hf : ∀ b, s.dev.faults b = [] → s'.dev.faults b = []) (hsame : SamePairs s s') : Able s' := by
  refine ⟨hinv, fun q hq i => ?_, fun q hq => ?_⟩
  · obtain ⟨q', hq', hblocks, -⟩ := hsame q hq
    exact hblocks ▸ hf _ (h.quiet q' hq' i)
  · obtain ⟨q', hq', -, hrev⟩ := hsame q hq
    exact hrev ▸ h.low q' hq'

variable {o : Except (Option LittleFsError) PUnit × Mounted cfg}

/-- A commit from a calm state. -/
theorem Calm.of_committing (h : Calm s)
    (hp : s.mem.pairs[idx]? = some p) (hc : Committing s idx p o) : Able o.2 := by
  have hsteady := h.steady.of_committing hp hc
  refine ⟨hsteady.inv, hsteady.quiet, fun q hq => ?_⟩
  cases hc with
  | clean hd | unfit hd => exact h.able.low q hq
  | done half =>
    obtain ⟨l1, l2, hl, -, hmod⟩ := modify_split hp
    change q ∈ s.mem.pairs.modify idx _ at hq
    rw [hmod] at hq
    rcases mem_middle.1 hq with rfl | hq
    · exact h.low p (mem_of_getElem? hp)
    · exact h.able.low q (hl ▸ mem_middle.2 (.inr hq))

/-! ## Opening -/

/-- How opening a file for writing ends. Nothing happens on the device. -/
inductive Opening (s : Mounted cfg) (path : List UInt8) (flags : OpenFlags) :
    Except (Option LittleFsError) FileMut × Mounted cfg → Prop
  | refused (err : Option LittleFsError) : Opening s path flags (.error err, s)
  | existing (idx : ℕ) (p : PairState) (name : List UInt8) (e : PairEntry)
    (hdir : resolveParent s.dev.image path = .ok (p.blocks, name))
    (hp : s.mem.pairs[idx]? = some p) (he : p.entries.find? (named name tagNameReg) = some e)
    (ht : flags.truncate = false) :
    Opening s path flags (.ok ⟨idx, e.id, [], flags.append, false⟩, s)
  | emptied (idx : ℕ) (p : PairState) (name : List UInt8) (e : PairEntry)
    (hdir : resolveParent s.dev.image path = .ok (p.blocks, name))
    (hp : s.mem.pairs[idx]? = some p) (he : p.entries.find? (named name tagNameReg) = some e)
    (ht : flags.truncate = true)
    (hinv : Inv (s.editEntries idx
      (updateFirst (named name tagNameReg) (.setStruct tagStructInline [])))) :
    Opening s path flags (.ok ⟨idx, e.id, [], flags.append, false⟩, s.editEntries idx
      (updateFirst (named name tagNameReg) (.setStruct tagStructInline [])))
  | created (idx : ℕ) (p : PairState) (name : List UInt8) (id : ℕ)
    (hdir : resolveParent s.dev.image path = .ok (p.blocks, name))
    (hp : s.mem.pairs[idx]? = some p) (hnone : p.entries.find? (named name tagNameReg) = none)
    (hcreate : flags.create = true) (hid : freshId p.entries = some id)
    (hinv : Inv (s.editEntries idx (· ++ [newFile id name]))) :
    Opening s path flags (.ok ⟨idx, id, [], flags.append, false⟩,
      s.editEntries idx (· ++ [newFile id name]))

/-- A file is emptied in memory. -/
theorem Inv.emptyFile (hinv : Inv s) (hp : s.mem.pairs[idx]? = some p)
    (he : p.entries.find? (named name tagNameReg) = some e) (hap : Apart (Spared s e) s s')
    (hpairs : s'.mem.pairs = s.mem.pairs) :
    Inv (s'.editEntries idx
      (updateFirst (named name tagNameReg) (.setStruct tagStructInline []))) := by
  have hreg := (named_iff.1 (find?_some he)).1
  have hold := (hinv.pairOk p (mem_of_getElem? hp)).entries.formed e (mem_of_find?_eq_some he)
  refine hinv.setStruct hp he hreg hap hpairs
    (formed_inline (hold.id_pos hreg) hreg _) (chain_of_not_isCtz rfl) nodup_nil ?_ ?_ ?_
  all_goals exact fun b hb => absurd hb not_mem_nil

theorem opening (hinv : Inv s) (path : List UInt8) (flags : OpenFlags) :
    Opening s path flags (openWrite path flags s) := by
  rw [openWrite]
  obtain ⟨err, heq⟩ | ⟨idx, p, name, hdir, hp, heq⟩ := inParent_cases path _ s <;> rw [heq]
  · exact .refused _
  cases he : p.entries.find? (named name tagNameReg) with
  | some e =>
    cases ht : flags.truncate with
    | false => exact .existing idx p name e hdir hp he ht
    | true =>
      exact .emptied idx p name e hdir hp he ht
        (hinv.emptyFile hp he (.refl hinv.sound fun _ hb => hb.taken) rfl)
  | none =>
    cases hcreate : flags.create with
    | false => exact .refused _
    | true =>
      cases hid : freshId p.entries with
      | none => exact .refused _
      | some id => exact .created idx p name id hdir hp he hcreate hid (hinv.newFile hp hid he)

/-- The entry of a handle. -/
def FileMut.entry (h : FileMut) (pairs : List PairState) : Option PairEntry :=
  (pairs[h.pairIdx]?).bind fun p => p.entries.find? (withId h.id)

open FileMut

theorem FileMut.entry_eq_some {pairs : List PairState} : h.entry pairs = some e ↔
    ∃ p, pairs[h.pairIdx]? = some p ∧ p.entries.find? (withId h.id) = some e :=
  Option.bind_eq_some_iff

variable {payload : List UInt8} {h' : FileMut} {typ : ℕ}

theorem find_withId_updateFirst {es : List PairEntry} {id typ : ℕ}
    (he : es.find? (withId id) = some e) :
    (updateFirst (withId id) (.setStruct typ payload) es).find? (withId id) =
      some (e.setStruct typ payload) := by
  have hid := find?_some he
  have hid' : withId id (e.setStruct typ payload) = true := hid
  obtain ⟨-, l1, -, rfl, hl⟩ := find?_eq_some_iff_append.1 he
  rw [updateFirst_append (fun x hx => by simpa using hl x hx) hid, find?_append,
    find?_eq_none.2 fun x hx => by simpa using hl x hx, find?_cons_of_pos hid']
  rfl

/-- The entry of the handle after it got another struct tag. -/
theorem entry_restruct (he : h.entry s.mem.pairs = some e) :
    h.entry (s.restruct h typ payload).mem.pairs = some (e.setStruct typ payload) := by
  obtain ⟨p, hp, he⟩ := entry_eq_some.1 he
  exact entry_eq_some.2 ⟨_, getElem?_editEntries hp, find_withId_updateFirst he⟩

/-! ## Writing -/

/-- From `s₀` to `s`, in which the handle is used, nothing happened to the blocks in `T`, and the
    file is not in them. -/
structure Writing (T : ℕ → Prop) (s₀ : Mounted cfg) (h : FileMut) (s : Mounted cfg) : Prop where
  able : Able s
  apart : Apart T s₀ s
  entry : ∃ e, h.entry s.mem.pairs = some e ∧ e.typName = tagNameReg ∧
    ∀ b ∈ e.chain s.dev.image, ¬T b

theorem samePairs_restruct (hp : s'.mem.pairs = s.mem.pairs) (he : h.entry s.mem.pairs = some e) :
    SamePairs s (s'.restruct h typ payload) := by
  obtain ⟨p, hget, -⟩ := entry_eq_some.1 he
  intro q hq
  rw [← hp]
  exact mem_editEntries (hp ▸ hget) hq

/-- What is in the file after a flush is not in `T`, if it was not before. -/
theorem Flushing.writing (hfl : Flushing s h e o) (hable : Able s) (hap : Apart T s₀ s)
    (he : h.entry s.mem.pairs = some e) (hreg : e.typName = tagNameReg)
    (hfree : ∀ b ∈ e.chain s.dev.image, ¬T b) : Writing T s₀ h o.2 := by
  have hsp : ∀ b, T b → Spared s e b := fun b hb => ⟨hap.taken b hb, fun hmem => hfree b hmem hb⟩
  cases hfl with
  | failed err s' hinv hap' hpairs hchain =>
    refine ⟨hable.of_same hinv hap'.faults ?_, hap.trans (hap'.mono hsp), e, hpairs ▸ he, hreg,
      hchain ▸ hfree⟩
    intro q hq
    exact ⟨q, hpairs ▸ hq, rfl, rfl⟩
  | inline hfits hinv =>
    refine ⟨hable.of_same hinv (fun _ h => h) (samePairs_restruct rfl he), hap.trans ?_, _,
      entry_restruct he, hreg, fun b hb => ?_⟩
    · exact ⟨hinv.sound, hap.taken, fun _ _ => rfl, fun _ _ => rfl, fun _ h => h, nothing_more,
        nothing_more⟩
    · cases hb
  | chain s' payload hfits hap' hpairs hlen hinv hfree' hcontent hctz hsize =>
    have hap1 := hap'.mono hsp
    refine ⟨hable.of_same hinv hap'.faults (samePairs_restruct hpairs he), hap.trans ?_, _,
      entry_restruct (hpairs ▸ he), hreg, fun b hb hT => hfree' b hb (hsp b hT)⟩
    exact ⟨hinv.sound, hap1.taken, hap1.image, hap1.bad_eq, hap1.faults, hap1.cuts, hap1.handed⟩

/-- A write returns the handle of the same file. -/
theorem write_handle {bytes : List UInt8} (hw : write h bytes s = (.ok h', s')) :
    h'.pairIdx = h.pairIdx ∧ h'.id = h.id := by
  rw [write] at hw
  split_ifs at hw
  · cases hw
  · dsimp only at hw
    split_ifs at hw
    · obtain ⟨-, s1, -, hpure⟩ := bind_eq_ok.1 hw
      cases hpure
      exact ⟨rfl, rfl⟩
    · cases hw
      exact ⟨rfl, rfl⟩

section

variable (hw : Writing T s₀ h s)
include hw

theorem Writing.noFaults (hf : NoFaults s₀) : NoFaults s :=
  hf.apart hw.apart

/-- The entry of a handle does not depend on what is buffered. -/
theorem Writing.congr (hidx : h'.pairIdx = h.pairIdx) (hid : h'.id = h.id) : Writing T s₀ h' s := by
  refine ⟨hw.able, hw.apart, ?_⟩
  rw [FileMut.entry, hidx, hid]
  exact hw.entry

variable (hf : ∀ e, h.entry s.mem.pairs = some e → e.isCtz = true → NoFaults s)
include hf

/-- What is buffered is stored, or this fails. -/
theorem Writing.flush : Writing T s₀ h (flushFilemut h s).2 := by
  obtain ⟨e, he, hreg, hfree⟩ := hw.entry
  obtain ⟨p, hp, hfind⟩ := entry_eq_some.1 he
  exact (flushing hw.able.inv hp hfind hreg (hf e he)).writing hw.able hw.apart he hreg hfree

theorem Writing.write (bytes : List UInt8) : Writing T s₀ h (write h bytes s).2 := by
  rw [Mounted.write]
  by_cases hc : h.closed = true
  · rw [if_pos hc]
    exact hw
  · rw [if_neg hc]
    split_ifs
    · rw [snd_bind_pure]
      have hw' : Writing T s₀ { h with buf := h.buf ++ bytes } s := hw.congr rfl rfl
      exact (hw'.flush hf).congr rfl rfl
    · exact hw

/-- How `close` ends: it was closed before, it fails before the commit, or with the commit. -/
theorem Writing.closing :
    (∃ o s', close h s = (o, s') ∧ Writing T s₀ h s') ∨
      ∃ s' p, close h s = commitPair h.pairIdx s' ∧ Writing T s₀ h s' ∧
        s'.mem.pairs[h.pairIdx]? = some p := by
  rw [close]
  split_ifs with hc
  · exact .inl ⟨_, _, rfl, hw⟩
  · have hw' := hw.flush hf
    rcases hfl : flushFilemut h s with ⟨err | u, s'⟩
    · rw [hfl] at hw'
      exact .inl ⟨_, _, bind_of_error hfl, hw'⟩
    · rw [hfl] at hw'
      obtain ⟨e, he, -⟩ := hw'.entry
      obtain ⟨p, hp, -⟩ := entry_eq_some.1 he
      exact .inr ⟨s', p, bind_of_ok hfl, hw', hp⟩

/-- The invariant holds after `close`, and no block of `T` was handed out. -/
theorem Writing.close : Inv (close h s).2 ∧ HandsOut T s₀ (close h s).2 := by
  obtain ⟨o, s', heq, hw'⟩ | ⟨s', p, heq, hw', hp⟩ := hw.closing hf
  · rw [heq]
    exact ⟨hw'.able.inv, hw'.apart.handed⟩
  · rw [heq]
    have hc := hw'.able.steady.committing hp
    exact ⟨(hw'.able.steady.of_committing hp hc).inv, .trans_eq hw'.apart.handed hc.handed_eq⟩

end

/-! ## truncate -/

/-- A file has been emptied and its chain returned. -/
theorem Calm.cutFile (h : Calm s) (hp : s.mem.pairs[idx]? = some p)
    (he : p.entries.find? (named name tagNameReg) = some e) :
    Calm ((s.released (e.chain s.dev.image)).editEntries idx
      (updateFirst (named name tagNameReg) (.setStruct tagStructInline []))) := by
  have hap : Apart (Spared s e) s (s.released (e.chain s.dev.image)) :=
    .released h.inv.sound (fun _ hb => hb.taken) fun _ hb => hb.2
  refine ⟨h.inv.emptyFile hp he hap rfl, fun q hq i => ?_, fun q hq => ?_⟩
  · obtain ⟨q', hq', hblocks, -⟩ := mem_editEntries hp hq
    exact hblocks ▸ h.quiet q' hq' i
  · obtain ⟨q', hq', -, hrev⟩ := mem_editEntries hp hq
    exact hrev ▸ h.low q' hq'

/-- A handle is used on a file that exists. -/
theorem Writing.of_existing (h : Able s) (hp : s.mem.pairs[idx]? = some p)
    (he : p.entries.find? (named name tagNameReg) = some e) (append : Bool) :
    Writing (Spared s e) s ⟨idx, e.id, [], append, false⟩ s := by
  have hok := (h.inv.pairOk p (mem_of_getElem? hp)).entries
  refine ⟨h, .refl h.inv.sound fun _ hb => hb.taken, e, entry_eq_some.2 ⟨p, hp, ?_⟩,
    (named_iff.1 (find?_some he)).1, fun b hb hsp => hsp.2 hb⟩
  exact hok.find_withId (mem_of_find?_eq_some he)

/-- A file is opened, written to, and closed. -/
theorem Able.append_keeps (h : Able s) (hf : NoFaults s) (path bytes : List UInt8) :
    Inv ((openWrite path ⟨false, false, true⟩ >>= fun f =>
      write f bytes >>= fun f => close f) s).2 := by
  have hopen := opening h.inv path ⟨false, false, true⟩
  rcases ho : openWrite path ⟨false, false, true⟩ s with ⟨err | f, s'⟩
  all_goals rw [ho] at hopen
  · rw [bind_of_error ho]
    cases hopen
    exact h.inv
  rw [bind_of_ok ho]
  cases hopen with
  | emptied _ _ _ _ _ _ _ ht => cases ht
  | created _ _ _ _ _ _ _ hcreate => cases hcreate
  | existing idx p name e hdir hp he ht =>
    have hw := (Writing.of_existing h hp he true).write (fun _ _ _ => hf) bytes
    rcases hwr : write ⟨idx, e.id, [], true, false⟩ bytes s with ⟨err | f, s'⟩
    all_goals rw [hwr] at hw
    · rw [bind_of_error hwr]
      exact hw.able.inv
    · rw [bind_of_ok hwr]
      obtain ⟨hidx, hid⟩ := write_handle hwr
      exact ((hw.congr hidx hid).close fun _ _ _ => hw.noFaults hf).1

theorem Committing.noFaults (hc : Committing s idx p o) (hf : NoFaults s) : NoFaults o.2 := by
  cases hc with
  | clean hd => exact hf
  | unfit hd => exact hf
  | done half => exact fun b hb => faults_written (hf b hb)

/-- Cutting a file keeps the invariant. -/
theorem truncate_keeps (h : Calm s) (hf : NoFaults s) (path : List UInt8) (newSize : ℕ) :
    Inv (truncate path newSize s).2 := by
  rw [truncate]
  obtain ⟨err, heq⟩ | ⟨addr, name, -, heq⟩ := atPath_cases path _ s <;> rw [heq]
  · exact h.inv
  rw [M.get_bind]
  cases truncated s.dev.image path newSize with
  | error err => exact h.inv
  | ok bytes =>
    rw [M.ofExcept_ok_bind]
    obtain heq | ⟨idx, p, hp, rfl, heq⟩ := atPair_cases addr _ s <;> rw [heq]
    · exact h.inv
    cases he : p.entries.find? (named name tagNameReg) with
    | none => exact h.inv
    | some e =>
      have hlt := h.inv.chain_lt (mem_of_getElem? hp) (mem_of_find?_eq_some he)
      rw [M.ofOption_some_bind, bind_of_ok (releaseChain_eq hlt), M.modify_bind]
      -- The empty file is committed first, and then the bytes are appended to it.
      have hcalm := h.cutFile hp he
      have hget := getElem?_editEntries
        (f := updateFirst (named name tagNameReg) (.setStruct tagStructInline [])) hp
      have hc := hcalm.steady.committing hget
      have hable := hcalm.of_committing hget hc
      have hf' := hc.noFaults hf
      generalize (s.released (e.chain s.dev.image)).editEntries idx _ = s1 at *
      rcases hcp : commitPair idx s1 with ⟨err | u, s2⟩
      all_goals rw [hcp] at hable hf'
      · rw [bind_of_error hcp]
        exact hable.inv
      · rw [bind_of_ok hcp]
        split_ifs with hnil
        · exact hable.inv
        · exact hable.append_keeps hf' path bytes

end SmallAIOS.Fs.LittleFs

import SmallAIOS.Fs.LittleFs.Layout

/-!
# Commits

The invariant of a loaded write path (`Inv`): the pairs are laid out on the medium, the allocator
has every block in use, and the blocks of the pairs are good.

Where the block of the half that is not read is good and does not fail, a commit either changes
nothing, or erases this block and programs it with the entries of the pair (`commitPair_eq`). So it
keeps the invariant (`Steady.of_committing`), and so does `fsync` (`steady_commitAll`).
-/

namespace SmallAIOS.Fs.LittleFs

open Lib Flash List Function Fallible BlockAllocator Nat Device Mounted

variable {cfg : Config}

/-! ## The invariant -/

/-- The invariant of a loaded write path. -/
structure Inv (s : Mounted cfg) : Prop extends Layout s.dev.image s.mem.pairs where
  taken : ∀ b ∈ owned s.dev.image s.mem.pairs, s.mem.allocator.taken b = true
  good : ∀ p ∈ s.mem.pairs, ∀ i, s.mem.allocator.bad (p.blocks.half i) = false
  bad : ∀ b < cfg.blockCount, s.dev.bad b = true ∨ s.mem.bbt b = true → s.mem.allocator.bad b = true
  blockCount_eq : s.mem.allocator.blockCount = cfg.blockCount

/-- The blocks of the metadata pairs do not fail. -/
def Quiet (s : Mounted cfg) : Prop :=
  ∀ p ∈ s.mem.pairs, ∀ i, s.dev.faults (p.blocks.half i) = []

/-- The revisions of the pairs to commit do not wrap around. -/
def Bounded (s : Mounted cfg) : Prop := ∀ p ∈ s.mem.pairs, p.dirty = true → p.revision + 1 < 2 ^ 32

variable {s s' : Mounted cfg} {p : PairState} {idx b i : ℕ} {bs half : List UInt8}
  {es : List PairEntry}

/-- A block that the allocator has not found bad is good for the device. -/
theorem Inv.not_bad (h : Inv s) (hb : b < cfg.blockCount) (hgood : s.mem.allocator.bad b = false) :
    s.dev.bad b = false ∧ s.mem.bbt b = false := by
  have := h.bad b hb
  rw [hgood] at this
  constructor
  · by_contra hne
    exact Bool.false_ne_true (this (.inl (by simpa using hne)))
  · by_contra hne
    exact Bool.false_ne_true (this (.inr (by simpa using hne)))

/-- Where a pair is in the list, and what changing it gives. -/
theorem modify_split {α : Type*} {l : List α} {a : α} (h : l[i]? = some a) :
    ∃ l1 l2, l = l1 ++ a :: l2 ∧ l1.length = i ∧ ∀ f, l.modify i f = l1 ++ f a :: l2 := by
  obtain ⟨hlt, rfl⟩ := List.getElem?_eq_some_iff.1 h
  have hlen := length_take_of_le hlt.le
  have hsplit : l = l.take i ++ l[i] :: l.drop (i + 1) := by
    rw [getElem_cons_drop, take_append_drop]
  refine ⟨l.take i, l.drop (i + 1), hsplit, hlen, fun f => ?_⟩
  rw [modify_eq_take_cons_drop hlt]

/-! ## Writing a block -/

namespace Mounted

/-- The block has been erased and programmed. -/
def written (s : Mounted cfg) (b : ℕ) (bs : List UInt8) : Mounted cfg where
  dev := (((s.dev.start b).put b (.erased _)).start b).put b (.ofBytes _ bs)
  mem := { s.mem with allocator := s.mem.allocator.noteErase b }

@[simp] theorem image_written : (s.written b bs).dev.image = update s.dev.image b (.ofBytes _ bs) :=
  update_idem ..

@[simp] theorem cuts_written : (s.written b bs).dev.cuts =
    s.dev.cuts ++ [s.dev.image, update s.dev.image b (.erased _)] :=
  append_assoc ..

theorem faults_written {x : ℕ} (h : s.dev.faults x = []) : (s.written b bs).dev.faults x = [] :=
  faults_start (faults_start h)

end Mounted

theorem length_padToPage (bs : List UInt8) : cfg.pageSize ∣ (padToPage cfg bs).length := by
  have hpos := cfg.pageSize_pos
  have hle : bs.length ≤ (bs.length + cfg.pageSize - 1) / cfg.pageSize * cfg.pageSize := by
    have := div_add_mod (bs.length + cfg.pageSize - 1) cfg.pageSize
    have := mod_lt (bs.length + cfg.pageSize - 1) hpos
    rw [mul_comm]
    omega
  rw [padToPage, length_append, length_replicate, add_sub_of_le hle]
  exact dvd_mul_left ..

/-- The padding is what an erased block holds. -/
theorem ofBytes_padToPage (bs : List UInt8) :
    Block.ofBytes cfg.toGeometry (padToPage cfg bs) = .ofBytes _ bs := by
  ext1
  change take _ (padToPage cfg bs ++ _) = take _ (bs ++ _)
  rw [padToPage, append_assoc, replicate_append_replicate, take_append,
    take_append, take_replicate, take_replicate]
  congr 2
  omega

theorem programBlock_eq (hb : b < cfg.blockCount) (hbad : s.dev.bad b = false)
    (hf : s.dev.faults b = []) (hk : s.dev.image b = .erased _) :
    programBlock b bs s = (.ok .done, { s with dev := (s.dev.start b).put b (.ofBytes _ bs) }) := by
  have hdev : M.onDevice (program b (padToPage cfg bs)) s =
      (.ok (.ok ()), { s with dev := (s.dev.start b).put b (.ofBytes _ bs) }) := by
    rw [M.onDevice, program_erased hb (length_padToPage bs) hbad hf hk, ofBytes_padToPage]
  rw [programBlock, bind_of_ok hdev]
  rfl

/-- A block that is good and does not fail is written. -/
theorem writeBlock_eq (hb : b < cfg.blockCount) (hbad : s.dev.bad b = false)
    (hf : s.dev.faults b = []) : writeBlock b bs s = (.ok .done, s.written b bs) := by
  have hdev : M.onDevice (erase b) s =
      (.ok (.ok ()), { s with dev := (s.dev.start b).put b (.erased _) }) := by
    rw [M.onDevice, erase_eq hb hbad hf]
  rw [writeBlock, bind_of_ok hdev]
  exact programBlock_eq hb hbad (faults_start hf) (image_put_self ..)

/-! ## Committing a pair -/

/-- The entries of the pair are in the half that was not read. -/
def Mounted.committed (s : Mounted cfg) (idx : ℕ) (p : PairState) (half : List UInt8) :
    Mounted cfg :=
  (s.written p.alternate half).editPair idx PairState.committed

/-- The block to which the pair is written next is good, and does not fail. -/
structure Ready (s : Mounted cfg) (p : PairState) : Prop where
  lt : p.alternate < cfg.blockCount
  not_bad : s.dev.bad p.alternate = false
  not_bbt : s.mem.bbt p.alternate = false
  faults_eq : s.dev.faults p.alternate = []
  revision_lt : p.dirty = true → p.revision + 1 < 2 ^ 32

theorem Inv.ready (h : Inv s) (hq : Quiet s) (hb : Bounded s) (hp : p ∈ s.mem.pairs) : Ready s p :=
  have hlt := half_lt h.lt hp _
  have hgood := h.not_bad hlt (h.good p hp _)
  ⟨hlt, hgood.1, hgood.2, hq p hp _, hb p hp⟩

section

variable (hp : s.mem.pairs[idx]? = some p)
include hp

theorem pairAt_eq : M.pairAt idx s = (.ok p, s) := by
  rw [M.pairAt, hp]

theorem commitLoop_eq {attempts : ℕ} (hr : Ready s p) :
    commitLoop idx (p.revision + 1) half (attempts + 1) s = (.ok ⟨⟩, s.committed idx p half) := by
  have halt : alternateBlock idx p s = (.ok p.alternate, s) :=
    if_neg (ne_true_of_eq_false hr.not_bbt)
  have hget : ((s.written p.alternate half).editPair idx fun q =>
      { q with activeHalf := !p.activeHalf, revision := p.revision + 1, dirty := false }) =
      s.committed idx p half := by
    obtain ⟨l1, l2, -, -, hmod⟩ := modify_split hp
    change mk _ { s.mem with allocator := _, pairs := s.mem.pairs.modify idx _ } = _
    rw [hmod]
    change _ = mk _ { s.mem with allocator := _, pairs := s.mem.pairs.modify idx _ }
    rw [hmod]
    rfl
  have hat : (s.committed idx p half).mem.pairs[idx]? = some p.committed := by
    change (s.mem.pairs.modify idx _)[idx]? = _
    rw [getElem?_modify_eq, hp]
    rfl
  rw [commitLoop, bind_of_ok (pairAt_eq hp), bind_of_ok halt,
    bind_of_ok (writeBlock_eq hr.lt hr.not_bad hr.faults_eq)]
  change promote idx p.blocks (!p.activeHalf) (p.revision + 1) _ = _
  rw [promote, M.modify_bind, hget, bind_of_ok (pairAt_eq hat)]
  rw [if_pos (show p.committed.blocks = p.blocks from rfl)]
  rfl

/-- A dirty pair is written to the half that is not read, if it fits in it. -/
theorem commitPair_eq (hr : Ready s p) (hd : p.dirty = true) :
    commitPair idx s = match buildMetadataHalf (p.revision + 1) p.entries p.tail with
      | none => (.error (some .unsupported), s)
      | some half =>
        if cfg.blockSize < half.length then (.error (some .unsupported), s)
        else (.ok ⟨⟩, s.committed idx p half) := by
  have hmod := mod_eq_of_lt (hr.revision_lt hd)
  rw [commitPair, bind_of_ok (pairAt_eq hp), hd, hmod, if_neg (by decide)]
  cases buildMetadataHalf (p.revision + 1) p.entries p.tail with
  | none => rfl
  | some half =>
    change (if cfg.blockSize < half.length then fail _ else commitLoop idx _ half 4) s = _
    split_ifs with hlen
    · dsimp only
      rw [if_pos hlen]
      rfl
    · dsimp only
      rw [if_neg hlen, commitLoop_eq hp hr]

end

/-- How the commit of a pair ends: there is nothing to commit, the half is too long, or it has been
    written. -/
inductive Committing (s : Mounted cfg) (idx : ℕ) (p : PairState) :
    Except (Option LittleFsError) PUnit × Mounted cfg → Prop
  | clean (hd : p.dirty = false) : Committing s idx p (.ok ⟨⟩, s)
  | unfit (hd : p.dirty = true) : Committing s idx p (.error (some .unsupported), s)
  | done (half : List UInt8) (hhalf : buildMetadataHalf (p.revision + 1) p.entries none = some half)
    (hlen : half.length ≤ cfg.blockSize) (hrev : p.revision + 1 < 2 ^ 32) :
    Committing s idx p (.ok ⟨⟩, s.committed idx p half)

theorem committing (hp : s.mem.pairs[idx]? = some p) (hr : Ready s p) (ht : p.tail = none) :
    Committing s idx p (commitPair idx s) := by
  cases hd : p.dirty with
  | false =>
    rw [commitPair, bind_of_ok (pairAt_eq hp), hd]
    exact .clean hd
  | true =>
    rw [commitPair_eq hp hr hd, ht]
    cases hhalf : buildMetadataHalf (p.revision + 1) p.entries none with
    | none => exact .unfit hd
    | some half =>
      by_cases hlen : cfg.blockSize < half.length
      · simp only [if_pos hlen]
        exact .unfit hd
      · simp only [if_neg hlen]
        exact .done half hhalf (not_lt.1 hlen) (hr.revision_lt hd)

/-- What holds before and after a commit. -/
structure Steady (s : Mounted cfg) : Prop where
  inv : Inv s
  quiet : Quiet s
  bounded : Bounded s

/-- A commit does not move a pair. -/
theorem mem_committed {q : PairState} (hp : s.mem.pairs[idx]? = some p)
    (hq : q ∈ (s.committed idx p half).mem.pairs) :
    ∃ q' ∈ s.mem.pairs, q'.blocks = q.blocks ∧ (q.dirty = true → q = q') := by
  obtain ⟨l1, l2, hl, -, hmod⟩ := modify_split hp
  change q ∈ s.mem.pairs.modify idx _ at hq
  rw [hmod] at hq
  rw [hl]
  rcases mem_middle.1 hq with rfl | hq
  · exact ⟨p, mem_append_cons_self, rfl, fun hd => (nomatch hd)⟩
  · exact ⟨q, mem_middle.2 (.inr hq), rfl, fun _ => rfl⟩

theorem Inv.committed (h : Inv s) (hp : s.mem.pairs[idx]? = some p)
    (hhalf : buildMetadataHalf (p.revision + 1) p.entries none = some half)
    (hlen : half.length ≤ cfg.blockSize) (hrev : p.revision + 1 < 2 ^ 32) :
    Inv (s.committed idx p half) := by
  obtain ⟨l1, l2, hl, -, hmod⟩ := modify_split hp
  have hlayout : Layout s.dev.image (l1 ++ p :: l2) := hl ▸ h.toLayout
  have himg : (s.committed idx p half).dev.image =
      update s.dev.image p.alternate (.ofBytes _ half) := image_written
  have hpairs : (s.committed idx p half).mem.pairs = l1 ++ p.committed :: l2 := hmod _
  have halloc : (s.committed idx p half).mem.allocator = s.mem.allocator.noteErase p.alternate :=
    rfl
  have hnew := hlayout.commit hhalf hlen hrev
  -- The blocks in use are the same.
  have howned : owned (update s.dev.image p.alternate (.ofBytes _ half))
      (l1 ++ p.committed :: l2) = owned s.dev.image s.mem.pairs := by
    rw [hl]
    exact hlayout.owned_writeHalf rfl rfl fun x hx => update_of_ne hx ..
  refine ⟨himg ▸ hpairs ▸ hnew, ?_, ?_, ?_, ?_⟩
  · rw [himg, hpairs, howned, halloc]
    intro b hb
    rw [taken_noteErase]
    exact h.taken b hb
  · rw [halloc, bad_noteErase]
    intro q hq i
    obtain ⟨q', hq', hblocks, -⟩ := mem_committed hp hq
    exact hblocks ▸ h.good q' hq' i
  · rw [halloc, bad_noteErase]
    exact h.bad
  · rw [halloc, blockCount_noteErase]
    exact h.blockCount_eq

namespace Steady

theorem committing (h : Steady s) (hp : s.mem.pairs[idx]? = some p) :
    Committing s idx p (commitPair idx s) :=
  have hmem := mem_of_getElem? hp
  LittleFs.committing hp (h.inv.ready h.quiet h.bounded hmem) (h.inv.pairOk p hmem).tail_eq

/-- A commit keeps the invariant. -/
theorem of_committing {r : Except (Option LittleFsError) PUnit × Mounted cfg} (h : Steady s)
    (hp : s.mem.pairs[idx]? = some p) (hc : Committing s idx p r) : Steady r.2 := by
  cases hc with
  | clean hd => exact h
  | unfit hd => exact h
  | done half hhalf hlen hrev =>
    refine ⟨h.inv.committed hp hhalf hlen hrev, fun q hq i => ?_, fun q hq hd => ?_⟩
    · obtain ⟨q', hq', hblocks, -⟩ := mem_committed hp hq
      exact faults_written (hblocks ▸ h.quiet q' hq' i)
    · obtain ⟨q', hq', -, heq⟩ := mem_committed hp hq
      obtain rfl := heq hd
      exact h.bounded q hq' hd

end Steady

namespace Committing

variable {o : Except (Option LittleFsError) PUnit × Mounted cfg} (h : Committing s idx p o)
include h

theorem handed_eq : o.2.mem.handed = s.mem.handed := by
  cases h <;> rfl

theorem length_eq : o.2.mem.pairs.length = s.mem.pairs.length := by
  cases h with
  | clean hd => rfl
  | unfit hd => rfl
  | done half => exact length_modify ..

end Committing

/-! ## Committing everything -/

variable {r : Except (Option LittleFsError) PUnit}

/-- Pairs are committed one after the other, until one does not fit. -/
theorem steady_each {is : List ℕ} (h : Steady s) (his : ∀ i ∈ is, i < s.mem.pairs.length)
    (hr : each commitPair is s = (r, s')) : Steady s' ∧ s'.mem.handed = s.mem.handed := by
  induction is generalizing s with
  | nil =>
    cases hr
    exact ⟨h, rfl⟩
  | cons idx is ih =>
    rw [forall_mem_cons] at his
    obtain ⟨p, hp⟩ : ∃ p, s.mem.pairs[idx]? = some p := ⟨_, getElem?_eq_getElem his.1⟩
    have hc := h.committing hp
    have hsteady := h.of_committing hp hc
    have hhanded := hc.handed_eq
    have hlen := hc.length_eq
    rcases bind_cases hr with ⟨e, hcp, rfl⟩ | ⟨u, s1, hcp, hr⟩
    all_goals rw [hcp] at hsteady hhanded hlen
    · exact ⟨hsteady, hhanded⟩
    · obtain ⟨hs, hhanded'⟩ := ih hsteady (hlen ▸ his.2) hr
      exact ⟨hs, hhanded'.trans hhanded⟩

/-- Committing everything hands out nothing. -/
theorem steady_commitAll (h : Steady s) (hr : commitAll s = (r, s')) :
    Steady s' ∧ s'.mem.handed = s.mem.handed :=
  steady_each h (fun _ hi => mem_range.1 hi) hr

end SmallAIOS.Fs.LittleFs

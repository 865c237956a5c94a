import SmallAIOS.Fs.LittleFs.Apart

/-!
# Storing a file

What a handle has buffered is stored in the tag of the file or in a chain of blocks. The blocks of
the file are returned first, and none of the other blocks in use is written (`Spared`). So
`flushFilemut` keeps the invariant, and afterwards the file has the contents it should have:

* `flushing`: how it ends, of a file that is not in a chain whatever fails, and of one that is if
  nothing fails;
* `Inv.setStruct`: the invariant is kept when the file is given a chain of blocks that are not in
  use.
-/

namespace SmallAIOS.Fs.LittleFs

open Lib Flash List Fallible PairEntry BlockPair

variable {cfg : Config}

/-- The contents of a file. -/
def PairEntry.content (img : Image cfg.toGeometry) (e : PairEntry) : List UInt8 :=
  if e.isCtz then ctzContent img e.head e.size else e.structPayload

variable {s s' s1 : Mounted cfg} {img img' : Image cfg.toGeometry} {p : PairState}
  {e e' : PairEntry} {es l1 l2 : List PairEntry} {h : FileMut} {b idx typ : ℕ}
  {payload data : List UInt8} {c : List ℕ}

theorem contentBefore_eq {append : Bool} (h : ∀ b ∈ e.chain img, b < cfg.blockCount) :
    contentBefore img append e = .ok (if append then e.content img else []) := by
  rw [chain] at h
  rw [contentBefore, content]
  split_ifs at h ⊢ with happ hctz
  · rw [readCtzAt_eq h (Nat.zero_add _).le, drop_zero,
      take_of_length_le length_ctzContent.le]
  · rfl
  · rfl
  · rfl

/-! ## Changes in memory -/

theorem chains_append :
    chains img (l1 ++ e :: l2) = chains img l1 ++ (e.chain img ++ chains img l2) := by
  rw [chains, flatMap_append]
  rfl

theorem mem_chains (he : e ∈ es) (hb : b ∈ e.chain img) : b ∈ chains img es :=
  mem_flatMap.2 ⟨e, he, hb⟩

/-- An entry that is not the superblock and names no directory is replaced by another such one. -/
structure Swaps (cfg : Config) (e e' : PairEntry) : Prop where
  id_eq : e'.id = e.id
  typName_eq : e'.typName = e.typName
  not_super : e.typName ≠ tagNameSuperblock
  dirs_eq : e'.dirBlocks = e.dirBlocks
  formed : e'.Formed cfg

theorem Swaps.super (h : Swaps cfg e e') (hmem : superblockEntry cfg ∈ l1 ++ e :: l2) :
    superblockEntry cfg ∈ l1 ++ e' :: l2 := by
  refine mem_middle.2 (.inr ((mem_middle.1 hmem).resolve_left fun heq => ?_))
  exact h.not_super (heq ▸ rfl)

theorem Swaps.dirs (h : Swaps cfg e e') : (l1 ++ e' :: l2).filterMap dirBlocks =
    (l1 ++ e :: l2).filterMap dirBlocks := by
  rw [filterMap_append, filterMap_append, filterMap_cons, filterMap_cons, h.dirs_eq]

/-- A file gets another struct tag. -/
theorem Swaps.setStruct (hreg : e.typName = tagNameReg) (hold : e.Formed cfg)
    (hnew : (e.setStruct typ payload).Formed cfg) : Swaps cfg e (e.setStruct typ payload) where
  id_eq := rfl
  typName_eq := rfl
  not_super := by rw [hreg]; decide
  dirs_eq := by
    have hne : e.typName ≠ tagNameDir := by rw [hreg]; decide
    rw [hold.dirBlocks_eq_none hne, hnew.dirBlocks_eq_none hne]
  formed := hnew

/-- What is left of the blocks in use when the chain of a file is returned. -/
def Spared (s : Mounted cfg) (e : PairEntry) (b : ℕ) : Prop :=
  s.mem.allocator.taken b = true ∧ b ∉ e.chain s.dev.image

variable {pairs1 pairs2 : List PairState} {q : PairState}

/-- A pair in the same blocks, whose entries have the chain `c` in addition. -/
theorem owned_perm (hblocks : q.blocks = p.blocks)
    (h : (chains img q.entries).Perm (c ++ chains img p.entries)) :
    (owned img (pairs1 ++ q :: pairs2)).Perm (c ++ owned img (pairs1 ++ p :: pairs2)) := by
  refine owned_perm_middle.trans (.trans ?_ (owned_perm_middle.symm.append_left c))
  rw [← append_assoc]
  refine List.Perm.append_right _ ?_
  rw [PairState.owned, hblocks]
  refine ((h.cons _).cons _).trans ?_
  exact (perm_middle.trans (perm_middle.cons _)).symm

/-- What else is in use is spared when the chain of a file is returned. -/
theorem Inv.spared (hinv : Inv s)
    (hpairs : s.mem.pairs = pairs1 ++ p :: pairs2) (hentries : p.entries = l1 ++ e :: l2)
    (hnil : e'.chain s.dev.image = []) :
    ∀ b ∈ owned s.dev.image (pairs1 ++ p.edited (l1 ++ e' :: l2) :: pairs2), Spared s e b := by
  have hsub : (chains s.dev.image (l1 ++ e' :: l2)).Sublist (chains s.dev.image p.entries) := by
    rw [hentries, chains_append, chains_append, hnil]
    exact (List.Sublist.refl _).append (sublist_append_right ..)
  have howned : (owned s.dev.image (pairs1 ++ p.edited (l1 ++ e' :: l2) :: pairs2)).Sublist
      (owned s.dev.image (pairs1 ++ p :: pairs2)) := owned_edited_sublist hsub
  have hperm : (owned s.dev.image (pairs1 ++ p :: pairs2)).Perm (e.chain s.dev.image ++
      owned s.dev.image (pairs1 ++ p.edited (l1 ++ e' :: l2) :: pairs2)) := by
    refine owned_perm rfl ?_
    change (chains _ p.entries).Perm (_ ++ chains _ (l1 ++ e' :: l2))
    rw [hentries, chains_append, chains_append, hnil]
    exact perm_append_comm_assoc ..
  intro b hb
  refine ⟨hinv.taken b (hpairs ▸ howned.subset hb), fun hmem => ?_⟩
  have hnodup := hperm.nodup_iff.1 (hpairs ▸ hinv.nodup)
  exact (nodup_append.1 hnodup).2.2 b hmem b hb rfl

theorem EntriesOk.swap (h : EntriesOk cfg (l1 ++ e :: l2)) (hs : Swaps cfg e e')
    (hname : e'.name = e.name) : EntriesOk cfg (l1 ++ e' :: l2) :=
  h.replace hs.id_eq (fun x hx => by rw [hs.typName_eq, hname]; exact h.name_ne hx) hs.formed

/-- The pairs after an edit. -/
theorem pairs_editEntries {f : List PairEntry → List PairEntry} (hp : s.mem.pairs[idx]? = some p) :
    ∃ pairs1 pairs2, s.mem.pairs = pairs1 ++ p :: pairs2 ∧
      (s.editEntries idx f).mem.pairs = pairs1 ++ p.edited (f p.entries) :: pairs2 := by
  obtain ⟨pairs1, pairs2, hl, -, hmod⟩ := modify_split hp
  exact ⟨pairs1, pairs2, hl, hmod _⟩

theorem formed_inline (hid : 0 < e.id) (hreg : e.typName = tagNameReg) (data : List UInt8) :
    (e.setStruct tagStructInline data).Formed cfg := .inline hid hreg rfl

theorem PairEntry.Formed.id_pos (h : e.Formed cfg) (hreg : e.typName = tagNameReg) : 0 < e.id := by
  rcases h with rfl | ⟨hid, -⟩ | ⟨hid, -⟩ | ⟨hid, -⟩
  · exact absurd hreg (by decide : tagNameSuperblock ≠ tagNameReg)
  all_goals exact hid

/-- A file that is not in a chain is given one, of blocks that are not in use. -/
theorem Layout.attach (hl : Layout img (pairs1 ++ p :: pairs2))
    (hentries : p.entries = l1 ++ e :: l2) (hnil : e.chain img = []) (hs : Swaps cfg e e')
    (hname : e'.name = e.name) (hnodup : (e'.chain img).Nodup)
    (hlt : ∀ b ∈ e'.chain img, b < cfg.blockCount)
    (hfree : ∀ b ∈ e'.chain img, b ∉ owned img (pairs1 ++ p :: pairs2)) :
    Layout img (pairs1 ++ p.edited (l1 ++ e' :: l2) :: pairs2) ∧
      (owned img (pairs1 ++ p.edited (l1 ++ e' :: l2) :: pairs2)).Perm
        (e'.chain img ++ owned img (pairs1 ++ p :: pairs2)) := by
  have hok : EntriesOk cfg (l1 ++ e :: l2) := hentries ▸ hl.pairOk_middle.entries
  have hchains : (chains img (l1 ++ e' :: l2)).Perm (e'.chain img ++ chains img p.entries) := by
    rw [hentries, chains_append, chains_append, hnil]
    exact perm_append_comm_assoc ..
  have hperm : (owned img (pairs1 ++ p.edited (l1 ++ e' :: l2) :: pairs2)).Perm
      (e'.chain img ++ owned img (pairs1 ++ p :: pairs2)) := owned_perm rfl hchains
  refine ⟨hl.editChains (hok.swap hs hname) (fun h => hs.super (hentries ▸ h))
    (hs.dirs.trans (hentries ▸ rfl)) (hperm.nodup_iff.2 (nodup_append.2
      ⟨hnodup, hl.nodup, ?_⟩)) fun b hb => ?_, hperm⟩
  · rintro b hb _ hb' rfl
    exact hfree b hb hb'
  · rcases mem_append.1 (hchains.mem_iff.1 hb) with hb | hb
    · exact hlt b hb
    · exact hl.lt b (mem_owned mem_append_cons_self
        (mem_cons_of_mem _ (mem_cons_of_mem _ hb)))

/-- A file is emptied, after nothing has happened to the blocks that others use. -/
theorem Inv.emptied (hinv : Inv s)
    (hl : s.mem.pairs = pairs1 ++ p :: pairs2) (hentries : p.entries = l1 ++ e :: l2)
    (hs : Swaps cfg e e') (hname : e'.name = e.name) (hctz : e'.isCtz = false)
    (hap : Apart (Spared s e) s s') :
    Layout s'.dev.image (pairs1 ++ p.edited (l1 ++ e' :: l2) :: pairs2) ∧
      ∀ b ∈ owned s'.dev.image (pairs1 ++ p.edited (l1 ++ e' :: l2) :: pairs2), Spared s e b := by
  have hlayout : Layout s.dev.image (pairs1 ++ p :: pairs2) := hl ▸ hinv.toLayout
  have hok : EntriesOk cfg (l1 ++ e :: l2) := hentries ▸ hlayout.pairOk_middle.entries
  have hspared := hinv.spared hl hentries (chain_of_not_isCtz hctz)
  have hsub : (chains s.dev.image (l1 ++ e' :: l2)).Sublist (chains s.dev.image p.entries) := by
    rw [hentries, chains_append, chains_append, chain_of_not_isCtz hctz]
    exact (List.Sublist.refl _).append (sublist_append_right ..)
  have hbase := hlayout.editEntries (hok.swap hs hname) (fun h => hs.super (hentries ▸ h))
    (hs.dirs.trans (hentries ▸ rfl)) hsub
  have himg : ∀ b ∈ owned s.dev.image (pairs1 ++ p.edited (l1 ++ e' :: l2) :: pairs2),
      s'.dev.image b = s.dev.image b := fun b hb => hap.image b (hspared b hb)
  exact ⟨hbase.congr himg, owned_congr himg ▸ hspared⟩

/-- A file is given a chain of blocks that are not in use by others, after nothing has happened to
    what is. -/
theorem Inv.setStruct {q : PairEntry → Bool} (hinv : Inv s) (hp : s.mem.pairs[idx]? = some p)
    (he : p.entries.find? q = some e) (hreg : e.typName = tagNameReg)
    (hap : Apart (Spared s e) s s') (hpairs : s'.mem.pairs = s.mem.pairs)
    (hnew : (e.setStruct typ payload).Formed cfg)
    (hc : (e.setStruct typ payload).chain s'.dev.image = c) (hnodup : c.Nodup)
    (hlt : ∀ b ∈ c, b < cfg.blockCount) (htaken : ∀ b ∈ c, s'.mem.allocator.taken b = true)
    (hfree : ∀ b ∈ c, ¬Spared s e b) :
    Inv (s'.editEntries idx (updateFirst q (.setStruct typ payload))) := by
  obtain ⟨pairs1, pairs2, hl', hedit⟩ := pairs_editEntries
    (f := updateFirst q (.setStruct typ payload)) (hpairs ▸ hp)
  have hl : s.mem.pairs = pairs1 ++ p :: pairs2 := hpairs ▸ hl'
  obtain ⟨l1, l2, hentries, -, hupd⟩ := find?_split he
  have hp' := mem_of_getElem? hp
  have hold := (hinv.pairOk p hp').entries.formed e (mem_of_find?_eq_some he)
  -- First the file without any block, which does not depend on what was written.
  have hnone : (e.setStruct tagStructInline []).Formed cfg :=
    formed_inline (hold.id_pos hreg) hreg []
  obtain ⟨hbase, hspared⟩ := hinv.emptied hl hentries (.setStruct hreg hold hnone) rfl rfl hap
  -- Then the file with its new chain.
  have hswap : Swaps cfg (e.setStruct tagStructInline []) (e.setStruct typ payload) :=
    .setStruct hreg hnone hnew
  obtain ⟨hlayout, hperm⟩ := hbase.attach rfl (chain_of_not_isCtz rfl) hswap rfl (hc ▸ hnodup)
    (hc ▸ hlt) fun b hb hb' => hfree b (hc ▸ hb) (hspared b hb')
  have hmem : ∀ b ∈ owned s'.dev.image (pairs1 ++ p.edited (l1 ++ e.setStruct typ payload :: l2) ::
      pairs2), s'.mem.allocator.taken b = true := by
    intro b hb
    rcases mem_append.1 (hperm.mem_iff.1 hb) with hb | hb
    · exact htaken b (hc ▸ hb)
    · exact hap.taken b (hspared b hb)
  rw [hupd] at hedit
  refine ⟨hedit ▸ hlayout, hedit ▸ hmem, fun x hx i => ?_, hap.sound.bad, hap.sound.blockCount_eq⟩
  rw [hedit] at hx
  -- The pairs are where they were.
  have hsame : (p.edited (l1 ++ e.setStruct typ payload :: l2)).blocks = p.blocks := rfl
  have hsame' : (p.edited (l1 ++ e.setStruct typ payload :: l2)).blocks =
    (p.edited (l1 ++ e.setStruct tagStructInline [] :: l2)).blocks := rfl
  obtain ⟨y, hy, heq⟩ := exists_blocks_eq hsame hx
  obtain ⟨z, hz, heq'⟩ := exists_blocks_eq hsame' hx
  have hsp : Spared s e (x.blocks.half i) :=
    hspared _ (heq' ▸ mem_owned hz (half_mem_owned z i))
  refine (hap.bad_eq _ hsp).trans ?_
  rw [← heq]
  exact hinv.good y (hl ▸ hy) i

/-! ## Failures -/

variable {T : ℕ → Prop}

/-- Nothing has happened to the blocks in use. -/
theorem Inv.of_apart (hinv : Inv s) (hap : Apart T s s')
    (hpairs : s'.mem.pairs = s.mem.pairs) (hT : ∀ b ∈ owned s.dev.image s.mem.pairs, T b) :
    Inv s' := by
  have himg : ∀ b ∈ owned s.dev.image s.mem.pairs, s'.dev.image b = s.dev.image b := fun b hb =>
    hap.image b (hT b hb)
  refine ⟨hpairs ▸ hinv.toLayout.congr himg, fun b hb => ?_, fun p hp i => ?_, hap.sound.bad,
    hap.sound.blockCount_eq⟩
  · rw [hpairs, owned_congr himg] at hb
    exact hap.taken b (hT b hb)
  · have hp' : p ∈ s.mem.pairs := hpairs ▸ hp
    exact (hap.bad_eq _ (hT _ (mem_owned hp' (half_mem_owned p i)))).trans (hinv.good p hp' i)

/-- All blocks have been handed out, and nothing has been written. -/
theorem Inv.of_full (hinv : Inv s) (hap : Apart T s s')
    (hpairs : s'.mem.pairs = s.mem.pairs) (hdev : s'.dev = s.dev)
    (hfull : ∀ b < cfg.blockCount, s'.mem.allocator.taken b = true)
    (hT : ∀ p ∈ s.mem.pairs, ∀ i, T (p.blocks.half i)) : Inv s' := by
  refine ⟨hpairs ▸ hdev ▸ hinv.toLayout, fun b hb => ?_, fun p hp i => ?_, hap.sound.bad,
    hap.sound.blockCount_eq⟩
  · rw [hpairs, hdev] at hb
    exact hfull b (hinv.lt b hb)
  · have hp' : p ∈ s.mem.pairs := hpairs ▸ hp
    exact (hap.bad_eq _ (hT p hp' i)).trans (hinv.good p hp' i)

/-- The blocks of the pairs are spared. -/
theorem Inv.spared_half (hinv : Inv s) (hp : p ∈ s.mem.pairs) (he : e ∈ p.entries)
    (hq : q ∈ s.mem.pairs) (i : Bool) : Spared s e (q.blocks.half i) := by
  refine ⟨hinv.taken _ (mem_owned hq (half_mem_owned q i)), fun hmem => ?_⟩
  obtain ⟨pairs1, pairs2, hl⟩ := append_of_mem hp
  have hnodup := hl ▸ hinv.nodup
  have hchain := mem_chains he hmem
  rcases mem_middle.1 (hl ▸ hq) with rfl | hq
  · exact half_not_mem_chains (owned_nodup_self hnodup) i hchain
  · exact not_mem_owned hnodup (mem_cons_of_mem _ (mem_cons_of_mem _ hchain))
      (mem_owned hq (half_mem_owned q i))

/-! ## Flushing -/

/-- What a handle stores in its file. -/
def FileMut.combined (h : FileMut) (img : Image cfg.toGeometry) (e : PairEntry) : List UInt8 :=
  (if h.append then e.content img else []) ++ h.buf

/-- The file of a handle gets another struct tag. -/
def Mounted.restruct (s : Mounted cfg) (h : FileMut) (typ : ℕ) (payload : List UInt8) :
    Mounted cfg :=
  s.editEntries h.pairIdx (updateFirst (withId h.id) (.setStruct typ payload))

/-- The file is kept in its tag. -/
def FileMut.Fits (h : FileMut) (img : Image cfg.toGeometry) (e : PairEntry) : Prop :=
  (h.combined img e).length % 2 ^ 32 ≤ inlineCeiling cfg ∧ e.isCtz = false
  deriving Decidable

/-- How storing a file ends. In any case nothing happens to the blocks that others use. -/
inductive Flushing (s : Mounted cfg) (h : FileMut) (e : PairEntry) :
    Except (Option LittleFsError) PUnit × Mounted cfg → Prop
  | failed (err : Option LittleFsError) (s' : Mounted cfg) (hinv : Inv s')
    (hap : Apart (Spared s e) s s') (hpairs : s'.mem.pairs = s.mem.pairs)
    (hchain : e.chain s'.dev.image = e.chain s.dev.image) : Flushing s h e (.error err, s')
  | inline (hfits : h.Fits s.dev.image e)
    (hinv : Inv (s.restruct h tagStructInline (h.combined s.dev.image e))) :
    Flushing s h e (.ok ⟨⟩, s.restruct h tagStructInline (h.combined s.dev.image e))
  | chain (s' : Mounted cfg) (payload : List UInt8) (hfits : ¬h.Fits s.dev.image e)
    (hap : Apart (Spared s e) s s') (hpairs : s'.mem.pairs = s.mem.pairs)
    (hlen : payload.length = 8) (hinv : Inv (s'.restruct h tagStructCtz payload))
    (hfree : ∀ b ∈ (e.setStruct tagStructCtz payload).chain s'.dev.image, ¬Spared s e b)
    (hcontent : (h.combined s.dev.image e).length < 2 ^ 32 →
      (e.setStruct tagStructCtz payload).content s'.dev.image = h.combined s.dev.image e)
    (hctz : (e.setStruct tagStructCtz payload).isCtz = true)
    (hsize : ((e.setStruct tagStructCtz payload).content s'.dev.image).length =
      (h.combined s.dev.image e).length % 2 ^ 32) :
    Flushing s h e (.ok ⟨⟩, s'.restruct h tagStructCtz payload)

/-- The payload of the tag of a file in a chain. -/
theorem ofBytes_payload {head size : ℕ} (hhead : head < 2 ^ 32) (hsize : size < 2 ^ 32)
    (e : PairEntry) :
    (e.setStruct tagStructCtz (toBytes (head, size))).isCtz = true ∧
      (e.setStruct tagStructCtz (toBytes (head, size))).head = head ∧
      (e.setStruct tagStructCtz (toBytes (head, size))).size = size := by
  have hbytes := ofBytes_toBytes (p := (head, size)) ⟨hhead, hsize⟩
  refine ⟨?_, congrArg Prod.fst hbytes, congrArg Prod.snd hbytes⟩
  have hlen : (toBytes (head, size)).length = 8 := by simp [toBytes]
  change (decide (tagStructCtz = tagStructCtz) && decide (8 ≤ (toBytes _).length)) = true
  rw [hlen]
  decide

/-- A file whose entry names the last block of a chain that has been written. -/
theorem Chained.file {blocks : List ℕ} {size head : ℕ} (hch : Chained T s data 0 none blocks)
    (hsize : size = data.length % 2 ^ 32)
    (hlen : blocks.length = ctzChainLength cfg.blockSize size)
    (hlast : blocks.getLast? = some head) :
    (e.setStruct tagStructCtz (toBytes (head, size))).chain s.dev.image = blocks.reverse ∧
      (data.length < 2 ^ 32 →
        (e.setStruct tagStructCtz (toBytes (head, size))).content s.dev.image = data) ∧
      (e.setStruct tagStructCtz (toBytes (head, size))).isCtz = true ∧
      ((e.setStruct tagStructCtz (toBytes (head, size))).content s.dev.image).length =
        data.length % 2 ^ 32 := by
  have hlt : ∀ b ∈ blocks, b < 2 ^ 32 := fun b hb =>
    Nat.lt_of_lt_of_le (hch.lt b hb) (cfg.blockCount_le.trans (by decide))
  have hhead := hlt head (mem_of_getLast? hlast)
  have hsize' : size < 2 ^ 32 := hsize ▸ Nat.mod_lt _ (by decide)
  obtain ⟨hctz, hh, hs⟩ := ofBytes_payload hhead hsize' e
  rw [chain, content, if_pos hctz, hh, hs]
  refine ⟨?_, fun hdata => ?_, hctz, length_ctzContent.trans hsize⟩
  · rw [chainBlocks, ← hlen, hch.laid.chainFrom_eq hlast hlt]
  · rw [Nat.mod_eq_of_lt hdata] at hsize
    subst hsize
    exact (hch.laid.ctzContent_eq hlen hlast hlt).2

theorem Inv.chain_lt (hinv : Inv s) (hp : p ∈ s.mem.pairs) (he : e ∈ p.entries) :
    ∀ b ∈ e.chain s.dev.image, b < cfg.blockCount := fun b hb =>
  hinv.lt b (mem_owned hp (mem_cons_of_mem _ (mem_cons_of_mem _ (mem_chains he hb))))

theorem flushFilemut_eq (hinv : Inv s) (hp : s.mem.pairs[h.pairIdx]? = some p)
    (he : p.entries.find? (withId h.id) = some e) :
    flushFilemut h s = if h.Fits s.dev.image e then
      (.ok ⟨⟩, s.restruct h tagStructInline (h.combined s.dev.image e))
    else storeChain h e (h.combined s.dev.image e) s := by
  have hlt := hinv.chain_lt (mem_of_getElem? hp) (mem_of_find?_eq_some he)
  rw [flushFilemut, M.get_bind, bind_of_ok (pairAt_eq hp), he, M.ofOption_some_bind,
    contentBefore_eq hlt, M.ofExcept_ok_bind]
  rw [← FileMut.combined]
  by_cases hfits : h.Fits s.dev.image e
  · have hcond : (h.combined s.dev.image e).length % 2 ^ 32 ≤ inlineCeiling cfg ∧
        (!e.isCtz) = true := ⟨hfits.1, by rw [hfits.2]; rfl⟩
    rw [if_pos hfits, if_pos hcond]
    rfl
  · have hcond : ¬((h.combined s.dev.image e).length % 2 ^ 32 ≤ inlineCeiling cfg ∧
        (!e.isCtz) = true) := fun hc => hfits ⟨hc.1, by simpa using hc.2⟩
    rw [if_neg hfits, if_neg hcond]

theorem Spared.taken (hb : Spared s e b) : s.mem.allocator.taken b = true := hb.1

/-- Where the chain of the file is returned and blocks are handed out. -/
theorem Apart.release_alloc (hinv : Inv s) {k : ℕ} {r : Except (Option LittleFsError) (List ℕ)}
    (h : allocBlocks k (s.released (e.chain s.dev.image)) = (r, s')) :
    Apart (Spared s e) s s' ∧ s'.mem.pairs = s.mem.pairs ∧ s'.dev = s.dev ∧
      (∀ bs, r = .ok bs → bs.length = k ∧ Held s' bs ∧ ∀ b ∈ bs, ¬Spared s e b) ∧
      (∀ err, r = .error err → ∀ b < cfg.blockCount, s'.mem.allocator.taken b = true) := by
  have hrel : Apart (Spared s e) s (s.released (e.chain s.dev.image)) :=
    .released hinv.sound (fun _ hb => hb.taken) fun _ hb => hb.2
  obtain ⟨hap, hpairs, hdev, hok, hfull⟩ := allocBlocks_spec hrel.sound hrel.taken h
  refine ⟨hrel.trans hap, hpairs, hdev, fun bs hbs => ?_, hfull⟩
  obtain ⟨hlen, hheld, hfree⟩ := hok bs hbs
  refine ⟨hlen, hheld, fun b hb hsp => ?_⟩
  have := hrel.taken b hsp
  rw [hfree b hb] at this
  exact nomatch this

/-- The file is stored in a chain. -/
theorem storing (hinv : Inv s) (hp : s.mem.pairs[h.pairIdx]? = some p)
    (he : p.entries.find? (withId h.id) = some e) (hreg : e.typName = tagNameReg)
    (hf : e.isCtz = true → NoFaults s) (hfits : ¬h.Fits s.dev.image e) :
    Flushing s h e (storeChain h e (h.combined s.dev.image e) s) := by
  have hp' := mem_of_getElem? hp
  have he' := mem_of_find?_eq_some he
  have hold := (hinv.pairOk p hp').entries.formed e he'
  generalize hdata : h.combined s.dev.image e = data
  rw [storeChain, bind_of_ok (releaseChain_eq (hinv.chain_lt hp' he'))]
  rcases ha : allocBlocks (ctzChainLength cfg.blockSize (data.length % 2 ^ 32))
    (s.released (e.chain s.dev.image)) with ⟨err | bs, s1⟩
  all_goals obtain ⟨hap, hpairs, hdev, hok, hfull⟩ := Apart.release_alloc hinv ha
  · -- All blocks are taken.
    rw [bind_of_error ha]
    exact .failed _ _ (hinv.of_full hap hpairs hdev (hfull err rfl)
      fun q hq i => hinv.spared_half hp' he' hq i) hap hpairs (by rw [hdev])
  · obtain ⟨hlen, hheld, hfree⟩ := hok bs rfl
    rw [bind_of_ok ha]
    rcases hw : writeChain data 0 none bs s1 with ⟨err | bs', s2⟩
    all_goals
      obtain ⟨hap2, hpairs2, hok2⟩ := writeChain_spec hap.sound hap.taken hheld hfree hw
      have htrans := hap.trans hap2
    · -- A block has failed, so the file was not in a chain and all blocks in use are spared.
      rw [bind_of_error hw]
      have hctz : e.isCtz = false := by
        by_contra hne
        have hquiet := (hf (by simpa using hne)).apart hap
        obtain ⟨bs', s', hw'⟩ : ∃ bs' s', writeChain data 0 none bs s1 = (.ok bs', s') :=
          writeChain_ok hap.sound hquiet hheld
        rw [hw] at hw'
        exact nomatch hw'
      refine .failed _ _ (hinv.of_apart htrans (hpairs2.trans hpairs) fun b hb => ?_) htrans
        (hpairs2.trans hpairs) (by rw [chain_of_not_isCtz hctz, chain_of_not_isCtz hctz])
      exact ⟨hinv.taken b hb, by rw [chain_of_not_isCtz hctz]; exact not_mem_nil⟩
    · rw [bind_of_ok hw]
      obtain ⟨hlen2, hch⟩ := hok2 bs' rfl
      have hpos := hlen2.trans hlen
      have hne : bs' ≠ [] := by
        rintro rfl
        exact (ctzChainLength_pos cfg.blockSize (data.length % 2 ^ 32)).ne hpos
      have hlast := getLast?_eq_some_getLast hne
      obtain ⟨hchain, hcontent, hctz, hlength⟩ := hch.file rfl hpos hlast
      rw [hlast]
      have hsize : (toBytes (bs'.getLast hne, data.length % 2 ^ 32)).length = 8 := by
        simp [toBytes]
      refine .chain s2 _ hfits htrans (hpairs2.trans hpairs) hsize ?_ ?_ (hdata ▸ hcontent) hctz
        (hdata ▸ hlength)
      · refine hinv.setStruct hp he hreg htrans (hpairs2.trans hpairs)
          (.chain (hold.id_pos hreg) hreg rfl hsize) hchain (nodup_reverse.2 hch.nodup)
          ?_ ?_ ?_
        · exact fun b hb => hch.lt b (mem_reverse.1 hb)
        · exact fun b hb => hch.taken b (mem_reverse.1 hb)
        · exact fun b hb => hch.free b (mem_reverse.1 hb)
      · rw [hchain]
        exact fun b hb => hch.free b (mem_reverse.1 hb)

/-- What a handle has buffered is stored, or it fails. -/
theorem flushing (hinv : Inv s) (hp : s.mem.pairs[h.pairIdx]? = some p)
    (he : p.entries.find? (withId h.id) = some e) (hreg : e.typName = tagNameReg)
    (hf : e.isCtz = true → NoFaults s) : Flushing s h e (flushFilemut h s) := by
  rw [flushFilemut_eq hinv hp he]
  split_ifs with hfits
  · have hold := (hinv.pairOk p (mem_of_getElem? hp)).entries.formed e (mem_of_find?_eq_some he)
    refine .inline hfits (hinv.setStruct hp he hreg ?_ rfl
      (formed_inline (hold.id_pos hreg) hreg _) (chain_of_not_isCtz rfl) nodup_nil ?_ ?_ ?_)
    · exact .refl hinv.sound fun _ hb => hb.taken
    all_goals exact fun b hb => (nomatch hb)
  · exact storing hinv hp he hreg hf hfits

end SmallAIOS.Fs.LittleFs

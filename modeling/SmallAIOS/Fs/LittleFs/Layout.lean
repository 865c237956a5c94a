import SmallAIOS.Fs.LittleFs.Entries

/-!
# The layout of the medium

The blocks in use are those of the metadata pairs and of the chains of files (`owned`). A pair of
the write path knows which of its halves is read, and what that half holds (`Stores`): its entries,
unless the pair is dirty. `Layout` says this of all pairs, and that no block is in use twice.

* `Layout.congr`: it depends on the blocks in use only;
* `Layout.editEntries`: it is kept when the entries of a pair change in memory;
* `Layout.clear`, `Layout.commit`: it is kept when the half of a pair that is not read is erased,
  and when the entries of the pair are written there.
-/

namespace SmallAIOS.Fs.LittleFs

open Lib Flash List Function PairEntry

variable {cfg : Config}

/-! ## Blocks in use -/

section Owned

variable (img : Image cfg.toGeometry)

/-- The blocks of a file in a chain. -/
def PairEntry.chain (e : PairEntry) : List ℕ :=
  if e.isCtz then chainBlocks img e.head e.size else []

/-- The chains of the files in a directory. -/
def chains (es : List PairEntry) : List ℕ := es.flatMap (chain img)

/-- The blocks of a pair, and of the files in it. -/
def PairState.owned (p : PairState) : List ℕ := p.blocks.1 :: p.blocks.2 :: chains img p.entries

/-- The blocks in use. -/
def owned (pairs : List PairState) : List ℕ := pairs.flatMap (PairState.owned img)

variable {img} {img' : Image cfg.toGeometry} {e : PairEntry} {es : List PairEntry}
  {p q : PairState} {pairs l1 l2 : List PairState} {b : ℕ}

theorem chain_of_not_isCtz (h : e.isCtz = false) : e.chain img = [] :=
  if_neg (by rw [h]; exact Bool.false_ne_true)

theorem chain_congr (h : ∀ b ∈ e.chain img, img' b = img b) : e.chain img' = e.chain img := by
  rw [chain] at h ⊢
  split_ifs at h ⊢ with hctz
  · rw [chain, if_pos hctz]
    exact chainFrom_congr h
  · rw [chain, if_neg hctz]

theorem chains_congr (h : ∀ b ∈ chains img es, img' b = img b) : chains img' es = chains img es :=
  flatMap_congr fun e he => chain_congr fun b hb => h b (mem_flatMap.2 ⟨e, he, hb⟩)

theorem owned_congr (h : ∀ b ∈ owned img pairs, img' b = img b) :
    owned img' pairs = owned img pairs := by
  refine flatMap_congr fun p hp => ?_
  rw [PairState.owned, PairState.owned, chains_congr fun b hb => h b ?_]
  exact mem_flatMap.2 ⟨p, hp, mem_cons_of_mem _ (mem_cons_of_mem _ hb)⟩

theorem half_mem_owned (p : PairState) (h : Bool) : p.blocks.half h ∈ p.owned img := by
  cases h
  · exact mem_cons_self
  · exact mem_cons_of_mem _ mem_cons_self

theorem mem_owned (hp : p ∈ pairs) (hb : b ∈ p.owned img) : b ∈ owned img pairs :=
  mem_flatMap.2 ⟨p, hp, hb⟩

theorem owned_append_cons : owned img (l1 ++ p :: l2) =
    owned img l1 ++ (p.owned img ++ owned img l2) := by
  rw [owned, flatMap_append]
  rfl

theorem owned_perm_middle :
    (owned img (l1 ++ p :: l2)).Perm (p.owned img ++ owned img (l1 ++ l2)) := by
  have hperm : (l1 ++ p :: l2).Perm (p :: (l1 ++ l2)) := perm_middle
  have := hperm.flatMap_right (PairState.owned img)
  rwa [flatMap_cons] at this

/-- The blocks of a pair are not in use by another one. -/
theorem not_mem_owned (h : (owned img (l1 ++ p :: l2)).Nodup) (hb : b ∈ p.owned img) :
    b ∉ owned img (l1 ++ l2) := fun hb' =>
  (nodup_append.1 (owned_perm_middle.nodup_iff.1 h)).2.2 b hb b hb' rfl

theorem owned_nodup_self (h : (owned img (l1 ++ p :: l2)).Nodup) : (p.owned img).Nodup :=
  (nodup_append.1 (owned_perm_middle.nodup_iff.1 h)).1

/-- The two halves of a pair are in different blocks. -/
theorem half_ne (h : (p.owned img).Nodup) (i : Bool) : p.blocks.half i ≠ p.blocks.half (!i) := by
  have hne : p.blocks.1 ≠ p.blocks.2 := fun heq =>
    (nodup_cons.1 h).1 (heq ▸ mem_cons_self)
  cases i
  · exact hne
  · exact hne.symm

/-- The blocks of a pair are not in the chain of a file. -/
theorem half_not_mem_chains (h : (p.owned img).Nodup) (i : Bool) :
    p.blocks.half i ∉ chains img p.entries := by
  rw [PairState.owned, nodup_cons, nodup_cons] at h
  cases i
  · exact fun hmem => h.1 (mem_cons_of_mem _ hmem)
  · exact h.2.1

end Owned

/-! ## Pairs on the medium -/

/-- The half of the pair that is read holds these entries. -/
def PairState.Stores (img : Image cfg.toGeometry) (p : PairState) (es : List PairEntry) : Prop :=
  TwoSlot.Holds (slots img p.blocks) p.activeHalf p.revision
    ⟨p.revision, true, halfTags es none, none⟩

/-- A pair of the write path. -/
structure PairOk (img : Image cfg.toGeometry) (p : PairState) : Prop where
  entries : EntriesOk cfg p.entries
  tail_eq : p.tail = none
  revision_lt : p.revision < 2 ^ 32
  stores : ∃ es, p.Stores img es ∧ (p.dirty = false → es.Perm p.entries)

/-- The pairs of the write path: the root with the superblock first, and then those of the
    directories in it, in which there are no other ones. -/
def Shape (cfg : Config) (pairs : List PairState) : Prop :=
  ∃ r ps, pairs = r :: ps ∧ r.blocks = root ∧ superblockEntry cfg ∈ r.entries ∧
    r.entries.filterMap dirBlocks = ps.map PairState.blocks ∧
    ∀ q ∈ ps, q.entries.filterMap dirBlocks = []

/-- The pairs, as they are on the medium. -/
structure Layout (img : Image cfg.toGeometry) (pairs : List PairState) : Prop where
  shape : Shape cfg pairs
  pairOk : ∀ p ∈ pairs, PairOk img p
  nodup : (owned img pairs).Nodup
  lt : ∀ b ∈ owned img pairs, b < cfg.blockCount
  mounts : mount img = .ok ()
  /-- There is room for an empty half. -/
  wide : 12 ≤ cfg.blockSize

variable {img img' : Image cfg.toGeometry} {p p' q : PairState} {pairs l1 l2 : List PairState}
  {es : List PairEntry} {half : List UInt8} {revision : ℕ}

theorem PairOk.congr (h : PairOk img p) (hb : ∀ i, img' (p.blocks.half i) = img (p.blocks.half i)) :
    PairOk img' p := by
  obtain ⟨es, hes, hclean⟩ := h.stores
  rw [PairState.Stores, ← slots_congr (hb false) (hb true)] at hes
  exact ⟨h.entries, h.tail_eq, h.revision_lt, es, hes, hclean⟩

/-- What is read of a pair. -/
theorem PairState.Stores.read (h : p.Stores img es) (h1 : p.blocks.1 < cfg.blockCount)
    (h2 : p.blocks.2 < cfg.blockCount) :
    readMetadataPair img p.blocks = .ok ⟨p.revision, true, halfTags es none, none⟩ :=
  readMetadataPair_of_holds h h1 h2

theorem mount_congr (h : ∀ i, img' (root.half i) = img (root.half i)) : mount img' = mount img := by
  rw [mount, readMetadataPair_congr (h false) (h true)]
  rfl

theorem half_lt (h : ∀ b ∈ owned img pairs, b < cfg.blockCount) (hp : p ∈ pairs) (i : Bool) :
    p.blocks.half i < cfg.blockCount :=
  h _ (mem_owned hp (half_mem_owned p i))

/-- Another pair in the same blocks. -/
theorem exists_blocks_eq (hblocks : p'.blocks = p.blocks) (hq : q ∈ l1 ++ p' :: l2) :
    ∃ q' ∈ l1 ++ p :: l2, q'.blocks = q.blocks := by
  rcases mem_middle.1 hq with rfl | hq
  · exact ⟨p, mem_append_cons_self, hblocks.symm⟩
  · exact ⟨q, mem_middle.2 (.inr hq), rfl⟩

namespace Layout

section

variable (h : Layout img pairs)
include h

theorem exists_root : ∃ r ∈ pairs, r.blocks = root := by
  obtain ⟨r, -, rfl, hroot, -⟩ := h.shape
  exact ⟨r, mem_cons_self, hroot⟩

/-- A pair is given by its blocks. -/
theorem eq_of_blocks (hp : p ∈ pairs) (hq : q ∈ pairs) (heq : q.blocks = p.blocks) : q = p := by
  obtain ⟨l1, l2, rfl⟩ := append_of_mem hp
  by_contra hne
  have hmem : q ∈ l1 ++ l2 := (mem_middle.1 hq).resolve_left hne
  have hself : q.blocks.half false ∈ p.owned img := heq ▸ half_mem_owned p false
  exact not_mem_owned h.nodup hself (mem_owned hmem (half_mem_owned q false))

/-- The layout depends on the blocks in use only. -/
theorem congr (hi : ∀ b ∈ owned img pairs, img' b = img b) : Layout img' pairs := by
  have howned := owned_congr hi
  have hhalf : ∀ p ∈ pairs, ∀ i, img' (p.blocks.half i) = img (p.blocks.half i) := fun p hp i =>
    hi _ (mem_owned hp (half_mem_owned p i))
  obtain ⟨r, hr, hroot⟩ := h.exists_root
  exact ⟨h.shape, fun p hp => (h.pairOk p hp).congr (hhalf p hp), howned ▸ h.nodup, howned ▸ h.lt,
    (mount_congr (hroot ▸ hhalf r hr)).trans h.mounts, h.wide⟩

end

end Layout

/-! ## Changing entries in memory -/

/-- The entries of a pair have changed. -/
def PairState.edited (p : PairState) (es : List PairEntry) : PairState :=
  { p with entries := es, dirty := true }

theorem PairOk.edited (h : PairOk img p) (hes : EntriesOk cfg es) : PairOk img (p.edited es) := by
  obtain ⟨es', hes', -⟩ := h.stores
  exact ⟨hes, h.tail_eq, h.revision_lt, es', hes', fun hd => (nomatch hd)⟩

/-- Another pair in the same blocks, with the same directories. -/
theorem Shape.replace (h : Shape cfg (l1 ++ p :: l2)) (hblocks : p'.blocks = p.blocks)
    (hsb : superblockEntry cfg ∈ p.entries → superblockEntry cfg ∈ p'.entries)
    (hdirs : p'.entries.filterMap dirBlocks = p.entries.filterMap dirBlocks) :
    Shape cfg (l1 ++ p' :: l2) := by
  obtain ⟨r, ps, heq, hroot, hsuper, hdir, hsub⟩ := h
  cases l1 with
  | nil =>
    cases heq
    exact ⟨_, _, rfl, hblocks.trans hroot, hsb hsuper, hdirs.trans hdir, hsub⟩
  | cons x l =>
    rw [cons_append] at heq
    obtain ⟨rfl, rfl⟩ := cons.inj heq
    refine ⟨x, l ++ p' :: l2, rfl, hroot, hsuper, ?_, fun q hq => ?_⟩
    · rw [hdir, map_append, map_cons, map_append, map_cons, hblocks]
    · rcases mem_middle.1 hq with rfl | hq
      · exact hdirs.trans (hsub p mem_append_cons_self)
      · exact hsub q (mem_middle.2 (.inr hq))

theorem owned_edited : (p.edited es).owned img = p.blocks.1 :: p.blocks.2 :: chains img es := rfl

/-- The entries of a pair change, with other files in chains. -/
theorem Layout.editChains (h : Layout img (l1 ++ p :: l2)) (hes : EntriesOk cfg es)
    (hsb : superblockEntry cfg ∈ p.entries → superblockEntry cfg ∈ es)
    (hdirs : es.filterMap dirBlocks = p.entries.filterMap dirBlocks)
    (hnodup : (owned img (l1 ++ p.edited es :: l2)).Nodup)
    (hlt : ∀ b ∈ chains img es, b < cfg.blockCount) : Layout img (l1 ++ p.edited es :: l2) := by
  refine ⟨h.shape.replace rfl hsb hdirs, fun q hq => ?_, hnodup, fun b hb => ?_, h.mounts, h.wide⟩
  · rcases mem_middle.1 hq with rfl | hq
    · exact (h.pairOk p mem_append_cons_self).edited hes
    · exact h.pairOk q (mem_middle.2 (.inr hq))
  · have hold : ∀ b ∈ owned img l1 ++ (p.owned img ++ owned img l2), b < cfg.blockCount :=
      owned_append_cons ▸ h.lt
    rw [owned_append_cons] at hb
    simp only [PairState.owned, mem_append, mem_cons] at hb hold
    rcases hb with hb | (rfl | rfl | hb) | hb
    · exact hold b (.inl hb)
    · exact hold _ (.inr (.inl (.inl rfl)))
    · exact hold _ (.inr (.inl (.inr (.inl rfl))))
    · exact hlt b hb
    · exact hold b (.inr (.inr hb))

/-- Files are only taken out of their chains. -/
theorem owned_edited_sublist (hs : (chains img es).Sublist (chains img p.entries)) :
    (owned img (l1 ++ p.edited es :: l2)).Sublist (owned img (l1 ++ p :: l2)) := by
  rw [owned_append_cons, owned_append_cons]
  exact (List.Sublist.refl _).append (((hs.cons_cons _).cons_cons _).append (List.Sublist.refl _))

/-- The entries of a pair change, and no file is put in a chain. -/
theorem Layout.editEntries (h : Layout img (l1 ++ p :: l2)) (hes : EntriesOk cfg es)
    (hsb : superblockEntry cfg ∈ p.entries → superblockEntry cfg ∈ es)
    (hdirs : es.filterMap dirBlocks = p.entries.filterMap dirBlocks)
    (hs : (chains img es).Sublist (chains img p.entries)) :
    Layout img (l1 ++ p.edited es :: l2) := by
  refine h.editChains hes hsb hdirs (h.nodup.sublist (owned_edited_sublist hs)) fun b hb => ?_
  refine h.lt b (mem_owned mem_append_cons_self ?_)
  exact mem_cons_of_mem _ (mem_cons_of_mem _ (hs.subset hb))

/-! ## Writing a half -/

/-- The half of a pair that is not read. -/
def PairState.alternate (p : PairState) : ℕ := p.blocks.half (!p.activeHalf)

/-- The pair after its entries have been written to the half that was not read. -/
def PairState.committed (p : PairState) : PairState :=
  { p with activeHalf := !p.activeHalf, revision := p.revision + 1, dirty := false }

/-- What a half that was written holds. -/
theorem view_ofBytes (hhalf : buildMetadataHalf revision es none = some half)
    (hlen : half.length ≤ cfg.blockSize) (hrev : revision < 2 ^ 32) (hes : EntriesOk cfg es) :
    parseMetadataHalf (Block.ofBytes cfg.toGeometry half).bytes =
      ⟨revision, true, halfTags es none, none⟩ := by
  have hcount : 2 * es.length + 2 ≤ maxTagsPerHalf := by
    have := hes.length_le
    rw [maxTagsPerHalf]
    omega
  rw [Block.bytes_ofBytes half hlen]
  exact parse_build hhalf hrev (fun e he => hes.fits he) hcount (by simp) _

/-- The blocks in use when nothing but the half that is not read changes. -/
theorem Layout.owned_writeHalf (h : Layout img (l1 ++ p :: l2)) (hblocks : p'.blocks = p.blocks)
    (hentries : p'.entries = p.entries) (hi : ∀ x ≠ p.alternate, img' x = img x) :
    owned img' (l1 ++ p' :: l2) = owned img (l1 ++ p :: l2) := by
  have hother : ∀ x ∈ owned img (l1 ++ l2), img' x = img x := fun x hx =>
    hi x fun heq => not_mem_owned h.nodup (half_mem_owned p _) (heq ▸ hx)
  have hown : p'.owned img' = p.owned img := by
    rw [PairState.owned, PairState.owned, hblocks, hentries, chains_congr]
    exact fun b hb => hi b fun heq =>
      half_not_mem_chains (owned_nodup_self h.nodup) _ (heq ▸ hb)
  rw [owned_append_cons, owned_append_cons, hown,
    owned_congr fun b hb => hother b ?_, owned_congr fun b hb => hother b ?_]
  · rw [owned, flatMap_append]
    exact mem_append_right _ hb
  · rw [owned, flatMap_append]
    exact mem_append_left _ hb

/-- Nothing but the half that is not read changes. -/
theorem Layout.writeHalf (h : Layout img (l1 ++ p :: l2)) (hblocks : p'.blocks = p.blocks)
    (hentries : p'.entries = p.entries) (hp' : PairOk img' p')
    (hi : ∀ x ≠ p.alternate, img' x = img x) (hm : p.blocks = root → mount img' = .ok ()) :
    Layout img' (l1 ++ p' :: l2) := by
  have hq : ∀ q ∈ l1 ++ l2, ∀ i, img' (q.blocks.half i) = img (q.blocks.half i) := fun q hq i =>
    hi _ fun heq => not_mem_owned h.nodup (half_mem_owned p _)
      (heq ▸ mem_owned hq (half_mem_owned q i))
  have howned := h.owned_writeHalf hblocks hentries hi
  refine ⟨h.shape.replace hblocks (hentries ▸ id) (by rw [hentries]), fun q hmem => ?_,
    howned ▸ h.nodup, howned ▸ h.lt, ?_, h.wide⟩
  · rcases mem_middle.1 hmem with rfl | hmem
    · exact hp'
    · exact (h.pairOk q (mem_middle.2 (.inr hmem))).congr (hq q hmem)
  · by_cases hroot : p.blocks = root
    · exact hm hroot
    · obtain ⟨r, hr, hrb⟩ := h.exists_root
      have hmem : r ∈ l1 ++ l2 := (mem_middle.1 hr).resolve_left fun heq => hroot (heq ▸ hrb)
      exact (mount_congr (hrb ▸ hq r hmem)).trans h.mounts

/-- The pair still stores its entries while the other half is erased. -/
theorem PairState.Stores.clear (h : p.Stores img es) (hn : (p.owned img).Nodup) :
    p.Stores (update img p.alternate (.erased _)) es := by
  refine .of_invalid (Eq.trans ?_ h.slot_eq) ?_
  · have hne : p.blocks.half p.activeHalf ≠ p.alternate := half_ne hn _
    rw [slots, slots, viewOf, viewOf, update_of_ne hne]
  · have hblank :
        viewOf (update img p.alternate (.erased _)) (p.blocks.half !p.activeHalf) =
        parseMetadataHalf (replicate cfg.blockSize 0xFF) := by
      rw [viewOf, ← PairState.alternate, update_self, Block.bytes_erased]
    rw [slots, hblank]
    exact if_neg (by rw [parse_erased]; exact Bool.false_ne_true)

/-- Once its entries are in the other half, that is what the pair stores. -/
theorem PairState.Stores.commit (h : p.Stores img es) (hn : (p.owned img).Nodup)
    (hp : EntriesOk cfg p.entries)
    (hhalf : buildMetadataHalf (p.revision + 1) p.entries none = some half)
    (hlen : half.length ≤ cfg.blockSize) (hrev : p.revision + 1 < 2 ^ 32) :
    p.committed.Stores (update img p.alternate (.ofBytes _ half)) p.entries := by
  refine TwoSlot.Holds.write h ?_ ?_ (Nat.lt_succ_self _)
  · have hne : p.blocks.half p.activeHalf ≠ p.alternate := half_ne hn _
    change slots _ p.blocks _ = _
    rw [slots, slots, viewOf, viewOf, update_of_ne hne]
  · have hview : viewOf (update img p.alternate (.ofBytes _ half))
        (p.blocks.half !p.activeHalf) = ⟨p.revision + 1, true, halfTags p.entries none, none⟩ := by
      rw [viewOf, ← PairState.alternate, update_self, view_ofBytes hhalf hlen hrev hp]
    change slots _ p.blocks _ = _
    rw [slots, hview]
    rfl

namespace Layout

variable (h : Layout img (l1 ++ p :: l2))
include h

theorem pairOk_middle : PairOk img p :=
  h.pairOk p mem_append_cons_self

/-- The half that is not read is erased. -/
theorem clear : Layout (update img p.alternate (.erased _)) (l1 ++ p :: l2) := by
  have hn := owned_nodup_self h.nodup
  obtain ⟨hentries, htail, hrev, es, hes, hclean⟩ := h.pairOk_middle
  have hes' := hes.clear hn
  have hp : p ∈ l1 ++ p :: l2 := mem_append_right _ mem_cons_self
  refine h.writeHalf rfl rfl ⟨hentries, htail, hrev, es, hes', hclean⟩
    (fun x hx => update_of_ne hx ..) fun hroot => ?_
  have hold := hes.read (half_lt h.lt hp false) (half_lt h.lt hp true)
  have hnew := hes'.read (half_lt h.lt hp false) (half_lt h.lt hp true)
  rw [← h.mounts, mount, mount, ← hroot, hold, hnew]

/-- The entries of a pair are written to the half that is not read. -/
theorem commit (hhalf : buildMetadataHalf (p.revision + 1) p.entries none = some half)
    (hlen : half.length ≤ cfg.blockSize) (hrev : p.revision + 1 < 2 ^ 32) :
    Layout (update img p.alternate (.ofBytes _ half)) (l1 ++ p.committed :: l2) := by
  have hn := owned_nodup_self h.nodup
  obtain ⟨hentries, htail, -, es, hes, -⟩ := h.pairOk_middle
  have hnew := hes.commit hn hentries hhalf hlen hrev
  have hp : p ∈ l1 ++ p :: l2 := mem_append_right _ mem_cons_self
  refine h.writeHalf rfl rfl ⟨hentries, htail, hrev, p.entries, hnew, fun _ => .refl _⟩
    (fun x hx => update_of_ne hx ..) fun hroot => ?_
  have hread := hnew.read (half_lt h.lt hp false) (half_lt h.lt hp true)
  have hsb : superblockEntry cfg ∈ p.entries := by
    obtain ⟨r, ps, heq, hr, hsuper, -⟩ := h.shape
    rwa [h.eq_of_blocks (heq ▸ mem_cons_self) hp (hroot.trans hr.symm)]
  change (readMetadataPair _ root >>= _) = _
  change readMetadataPair _ p.blocks = _ at hread
  rw [← hroot, hread]
  change checkSuperblock (halfTags p.entries none) = _
  rw [halfTags, Option.map_none, Option.toList_none, append_nil, checkSuperblock_tags hentries hsb]

end Layout

end SmallAIOS.Fs.LittleFs

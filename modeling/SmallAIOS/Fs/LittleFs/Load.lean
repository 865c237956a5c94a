import SmallAIOS.Fs.LittleFs.Flush
import SmallAIOS.Lib.Checked

/-!
# Loading the write path

The write path is loaded from the medium: the pairs with their entries, in the order of their ids,
and the blocks to reserve. Where no pair is dirty and no file in a directory is in a chain, what
is loaded is what was in memory, up to the order of the entries (`Reloads`), and the invariant
holds of it (`Layout.loads`, `Inv.reload`). A device that has just been formatted is such a case
(`exists_load_of_format`).

The blocks of a file in a chain that is in a directory are not reserved, so there it need not hold.
-/

namespace SmallAIOS.Fs.LittleFs

open Lib Flash List Fallible SortedMap PairEntry BlockAllocator Device

variable {cfg : Config} {img : Image cfg.toGeometry} {d d' : Device cfg.toGeometry}
  {pairs ps qs : List PairState} {p q r : PairState} {e : PairEntry} {es : List PairEntry} {b : ℕ}
  {α β ε : Type}

/-- What is read of a pair that is not dirty. -/
theorem Layout.read_pair (hl : Layout img pairs) (hp : p ∈ pairs) (hd : p.dirty = false) :
    ∃ es, es.Perm p.entries ∧ EntriesOk cfg es ∧ readMetadataPair img p.blocks =
      .ok ⟨p.revision, true, es.flatMap tags, none⟩ := by
  obtain ⟨hentries, -, -, es, hes, hclean⟩ := hl.pairOk p hp
  refine ⟨es, hclean hd, hentries.perm (hclean hd).symm, ?_⟩
  rw [← append_nil (es.flatMap tags)]
  exact hes.read (half_lt hl.lt hp false) (half_lt hl.lt hp true)

/-! ## Entries -/

/-- The two tags of an entry, as they are paired up. -/
def PairEntry.pairedTags (e : PairEntry) : Option Tag × Option Tag :=
  (some ⟨e.typName, e.id, e.name⟩, some ⟨e.typStruct, e.id, e.structPayload⟩)

theorem get?_pairUp_tags (h : e.Fits) (m : SortedMap ℕ (Option Tag × Option Tag)) (k : ℕ) :
    (e.tags.foldl pairUp m).get? k = if k = e.id then some e.pairedTags else m.get? k := by
  have hname := h.isName e.name
  have hstruct := h.isStruct e.structPayload
  simp only [tags, foldl_cons, foldl_nil, pairUp, hname.1, hstruct.1, hstruct.2, get?_insert_self]
  by_cases hk : k = e.id
  · rw [if_pos hk, hk, get?_insert_self]
    rfl
  · rw [if_neg hk, get?_insert_of_ne hk, get?_insert_of_ne hk]

/-- The tags under an id are those of the entry with this id. -/
theorem get?_pairUp (h : ∀ e ∈ es, e.Fits) (hnodup : (es.map PairEntry.id).Nodup)
    (m : SortedMap ℕ (Option Tag × Option Tag)) (k : ℕ) :
    ((es.flatMap tags).foldl pairUp m).get? k =
      ((es.find? (withId k)).map pairedTags).or (m.get? k) := by
  induction es generalizing m with
  | nil => rfl
  | cons e es ih =>
    rw [forall_mem_cons] at h
    rw [map_cons, nodup_cons] at hnodup
    rw [flatMap_cons, foldl_append, ih h.2 hnodup.2, get?_pairUp_tags h.1]
    by_cases hk : k = e.id
    · -- No other entry has this id.
      have hnone := find?_eq_none.2 fun x hx hid =>
        hnodup.1 (mem_map.2 ⟨x, hx, (withId_iff.1 hid).trans hk⟩)
      rw [if_pos hk, hnone, find?_cons_of_pos (withId_iff.2 hk.symm)]
      rfl
    · rw [if_neg hk, find?_cons_of_neg fun hid => hk (withId_iff.1 hid).symm]

theorem pairwise_entriesFromView (view : MetadataPairView) :
    (entriesFromView view).Pairwise (·.id < ·.id) := by
  refine List.Pairwise.filterMap _ ?_ (view.tags.foldl pairUp empty).sorted
  rintro ⟨i, _ | n, _ | s⟩ ⟨j, tags⟩ hlt a ha a' ha'
  all_goals cases ha
  rcases tags with ⟨_ | n', _ | s'⟩
  all_goals cases ha'
  exact hlt

/-- The entries of a half are read back, in the order of their ids. -/
theorem entriesFromView_perm (h : EntriesOk cfg es) (revision : ℕ) :
    (entriesFromView ⟨revision, true, es.flatMap tags, none⟩).Perm es := by
  have hnodup : (entriesFromView ⟨revision, true, es.flatMap tags, none⟩).Nodup := by
    refine List.Pairwise.imp ?_ (pairwise_entriesFromView _)
    rintro a _ hlt rfl
    exact Nat.lt_irrefl _ hlt
  have hget := get?_pairUp (fun e he => h.fits he) h.ids_nodup empty
  refine (perm_ext_iff_of_nodup hnodup (List.Nodup.of_map _ h.ids_nodup)).2 fun e => ?_
  rw [entriesFromView, mem_filterMap]
  constructor
  · rintro ⟨⟨k, tags⟩, hmem, heq⟩
    rw [← get?_eq_some, hget] at hmem
    cases hf : es.find? (withId k) with
    | none => rw [hf] at hmem; cases hmem
    | some e' =>
      rw [hf] at hmem
      obtain rfl : e'.pairedTags = tags := Option.some.inj hmem
      obtain rfl : e' = e := by
        have hk := withId_iff.1 (find?_some hf)
        rw [← hk] at heq
        exact Option.some.inj heq
      exact mem_of_find?_eq_some hf
  · intro he
    refine ⟨(e.id, e.pairedTags), get?_eq_some.1 ?_, rfl⟩
    rw [hget, h.find_withId he]
    rfl

/-! ## Pairs -/

/-- The pair `q` is loaded where `p` was in memory. -/
structure Reloads (p q : PairState) : Prop where
  blocks_eq : q.blocks = p.blocks
  revision_eq : q.revision = p.revision
  activeHalf_eq : q.activeHalf = p.activeHalf
  tail_eq : q.tail = p.tail
  entries : q.entries.Perm p.entries

theorem Layout.loadPair (hl : Layout img pairs) (hp : p ∈ pairs) (hd : p.dirty = false) :
    ∃ q, LittleFs.loadPair img p.blocks = .ok q ∧ Reloads p q := by
  obtain ⟨es, hperm, hes, hread⟩ := hl.read_pair hp hd
  obtain ⟨-, htail, -, es', hes', -⟩ := hl.pairOk p hp
  have hactive := (newestHalf_of_holds hes').2
  refine ⟨⟨p.blocks, p.revision, p.activeHalf, _, none, false⟩, ?_, rfl, rfl, rfl, htail.symm,
    (entriesFromView_perm hes p.revision).trans hperm⟩
  rw [LittleFs.loadPair, hread, hactive]
  rfl

theorem owned_reloads (h : List.Forall₂ Reloads ps qs) : (owned img qs).Perm (owned img ps) := by
  induction h with
  | nil => exact .refl _
  | cons hpq _ ih =>
    refine List.Perm.append ?_ ih
    rw [PairState.owned, hpq.blocks_eq]
    exact ((hpq.entries.flatMap_right _).cons _).cons _

theorem PairOk.reload (h : PairOk img p) (hpq : Reloads p q) (hd : p.dirty = false) :
    PairOk img q := by
  obtain ⟨hentries, htail, hrev, es, hes, hclean⟩ := h
  refine ⟨hentries.perm hpq.entries.symm, hpq.tail_eq.trans htail, hpq.revision_eq ▸ hrev, es, ?_,
    fun _ => (hclean hd).trans hpq.entries.symm⟩
  rw [PairState.Stores, hpq.blocks_eq, hpq.activeHalf_eq, hpq.revision_eq]
  exact hes

/-- What is mapped to a rearranged list can be rearranged. -/
theorem exists_perm_map {α β : Type*} {f : α → β} {l : List β} {as : List α}
    (h : l.Perm (as.map f)) : ∃ as' : List α, as'.Perm as ∧ as'.map f = l := by
  generalize hk : as.map f = k at h
  induction h generalizing as with
  | nil => exact ⟨as, .refl _, hk⟩
  | cons x _ ih =>
    obtain ⟨a, as, rfl, rfl, htail⟩ := map_eq_cons_iff.1 hk
    obtain ⟨as', hperm, rfl⟩ := ih htail
    exact ⟨a :: as', hperm.cons a, rfl⟩
  | swap x y l =>
    obtain ⟨a, as, rfl, rfl, htail⟩ := map_eq_cons_iff.1 hk
    obtain ⟨b, as, rfl, rfl, rfl⟩ := map_eq_cons_iff.1 htail
    exact ⟨b :: a :: as, .swap .., rfl⟩
  | trans _ _ ih1 ih2 =>
    obtain ⟨as2, hperm2, hmap⟩ := ih2 hk
    obtain ⟨as1, hperm1, hmap1⟩ := ih1 hmap
    exact ⟨as1, hperm1.trans hperm2, hmap1⟩

theorem mapM_forall₂ {f : α → Except ε β} {R : α → β → Prop} {l : List α}
    (h : ∀ a ∈ l, ∃ b, f a = .ok b ∧ R a b) : ∃ bs, l.mapM f = .ok bs ∧ List.Forall₂ R l bs := by
  induction l with
  | nil => exact ⟨[], rfl, .nil⟩
  | cons a l ih =>
    rw [forall_mem_cons] at h
    obtain ⟨b, hb, hR⟩ := h.1
    obtain ⟨bs, hbs, hall⟩ := ih h.2
    refine ⟨b :: bs, ?_, .cons hR hall⟩
    rw [mapM_cons, hb]
    rw [hbs]
    rfl

theorem exists_of_forall₂ {α β : Type*} {R : α → β → Prop} {l : List α} {l' : List β} {b : β}
    (h : List.Forall₂ R l l') (hb : b ∈ l') : ∃ a ∈ l, R a b := by
  induction h with
  | nil => cases hb
  | cons hR _ ih =>
    rcases mem_cons.1 hb with rfl | hb
    · exact ⟨_, mem_cons_self, hR⟩
    · obtain ⟨a, ha, hab⟩ := ih hb
      exact ⟨a, mem_cons_of_mem _ ha, hab⟩

variable {ps' : List PairState} {r' : PairState}

/-- The pairs are loaded again, those of the directories in the order of the root. -/
theorem Layout.reload (hl : Layout img (r :: ps)) (hclean : ∀ p ∈ r :: ps, p.dirty = false)
    (hqs : qs.Perm ps) (hr : Reloads r r') (hps : List.Forall₂ Reloads qs ps')
    (hdirs : r'.entries.filterMap dirBlocks = qs.map PairState.blocks) :
    Layout img (r' :: ps') ∧ (owned img (r' :: ps')).Perm (owned img (r :: ps)) := by
  have howned : (owned img (r' :: ps')).Perm (owned img (r :: ps)) :=
    (owned_reloads (.cons hr hps)).trans ((hqs.cons r).flatMap_right _)
  obtain ⟨r0, ps0, heq, hroot, hsuper, -, hsub⟩ := hl.shape
  obtain ⟨rfl, rfl⟩ := cons.inj heq
  -- Every pair was there before.
  have hback : ∀ q ∈ ps', ∃ p ∈ ps, Reloads p q := by
    intro q hq
    obtain ⟨p, hp, hpq⟩ := exists_of_forall₂ hps hq
    exact ⟨p, hqs.mem_iff.1 hp, hpq⟩
  refine ⟨⟨⟨r', ps', rfl, hr.blocks_eq.trans hroot, hr.entries.mem_iff.2 hsuper, ?_,
    fun q hq => ?_⟩, fun q hq => ?_, howned.nodup_iff.2 hl.nodup,
    fun b hb => hl.lt b (howned.mem_iff.1 hb), hl.mounts, hl.wide⟩, howned⟩
  · rw [hdirs]
    clear hdirs hqs howned hback
    induction hps with
    | nil => rfl
    | cons hpq _ ih => rw [map_cons, map_cons, hpq.blocks_eq, ih]
  · obtain ⟨p, hp, hpq⟩ := hback q hq
    have := hpq.entries.filterMap dirBlocks
    rw [hsub p hp] at this
    exact perm_nil.1 this
  · rcases mem_cons.1 hq with rfl | hq
    · exact (hl.pairOk r mem_cons_self).reload hr (hclean r mem_cons_self)
    · obtain ⟨p, hp, hpq⟩ := hback q hq
      exact (hl.pairOk p (mem_cons_of_mem _ hp)).reload hpq (hclean p (mem_cons_of_mem _ hp))

/-! ## The allocator -/

namespace BlockAllocator

variable {a : BlockAllocator} {bad : List ℕ}

theorem taken_foldl_markBad (h : a.taken b = true) : (bad.foldl markBad a).taken b = true := by
  induction bad generalizing a with
  | nil => exact h
  | cons c bad ih => exact ih (taken_markBad h)

theorem blockCount_foldl_markBad : (bad.foldl markBad a).blockCount = a.blockCount := by
  induction bad generalizing a with
  | nil => rfl
  | cons c bad ih => rw [foldl_cons, ih, blockCount_markBad]

theorem bad_foldl_markBad (h : ∀ c ∈ bad, c < a.blockCount) :
    (bad.foldl markBad a).bad b = true ↔ a.bad b = true ∨ b ∈ bad := by
  induction bad generalizing a with
  | nil => simp
  | cons c bad ih =>
    rw [forall_mem_cons] at h
    rw [foldl_cons, ih (by rw [blockCount_markBad]; exact h.2)]
    by_cases hbc : b = c
    · simp [hbc, bad_markBad_self h.1]
    · simp [hbc, bad_markBad_of_ne hbc]

end BlockAllocator

/-! ## The state -/

/-- The blocks that are reserved for an entry of the root. -/
def PairEntry.reserved (img : Image cfg.toGeometry) (e : PairEntry) : List ℕ :=
  match e.dirBlocks with
  | some p => [p.1, p.2]
  | none => e.chain img

theorem reservedFor_eq (h : ∀ b ∈ e.chain img, b < cfg.blockCount) :
    reservedFor img e = .ok (e.reserved img) := by
  rw [reservedFor, reserved]
  rw [chain] at h ⊢
  cases e.dirBlocks with
  | some p => rfl
  | none =>
    split_ifs at h ⊢
    · exact walkBlocks_eq h
    · rfl

theorem mem_reserved_of_chain (h : b ∈ e.chain img) : b ∈ e.reserved img := by
  have hctz : e.isCtz = true := by
    by_contra hne
    rw [chain_of_not_isCtz (by simpa using hne)] at h
    cases h
  rw [isCtz, Bool.and_eq_true, decide_eq_true_eq] at hctz
  have hdir : e.dirBlocks = none := by
    refine if_neg fun hd => ?_
    rw [hctz.1] at hd
    exact absurd hd.1 (by decide)
  rw [reserved, hdir]
  exact h

/-- Every block in use is reserved for an entry of the root, if the files in directories are not in
    chains. -/
theorem mem_reserved (hroot : r'.blocks = root)
    (hdirs : r'.entries.filterMap dirBlocks = ps'.map PairState.blocks)
    (hflat : ∀ q ∈ ps', ∀ e ∈ q.entries, e.isCtz = false) (hb : b ∈ owned img (r' :: ps')) :
    b = root.1 ∨ b = root.2 ∨ ∃ e ∈ r'.entries, b ∈ e.reserved img := by
  obtain ⟨q, hq, hbq⟩ := mem_flatMap.1 hb
  rw [PairState.owned, mem_cons, mem_cons] at hbq
  rcases mem_cons.1 hq with rfl | hq
  · rw [hroot] at hbq
    refine hbq.imp id (Or.imp id fun hbe => ?_)
    obtain ⟨e, he, hbe⟩ := mem_flatMap.1 hbe
    exact ⟨e, he, mem_reserved_of_chain hbe⟩
  · -- The pair of a directory, which has no chains.
    have hnil : chains img q.entries = [] := flatMap_eq_nil_iff.2 fun e he =>
      chain_of_not_isCtz (hflat q hq e he)
    have hmem : q.blocks ∈ r'.entries.filterMap dirBlocks :=
      hdirs ▸ mem_map.2 ⟨q, hq, rfl⟩
    obtain ⟨e, he, hdir⟩ := mem_filterMap.1 hmem
    refine .inr (.inr ⟨e, he, ?_⟩)
    rw [reserved, hdir, mem_pair]
    rw [hnil] at hbq
    exact hbq.imp id fun h => h.resolve_right not_mem_nil

/-- Nothing has been handed out yet. -/
theorem handed_load {m : MutableState} (h : load d = .ok m) : m.handed = [] := by
  obtain ⟨r, -, h⟩ := bind_eq_ok h
  obtain ⟨reserved, -, h⟩ := bind_eq_ok h
  obtain ⟨dirs, -, h⟩ := bind_eq_ok h
  cases h
  rfl

/-- The state with these pairs, where these blocks are reserved. -/
def stateOf (d : Device cfg.toGeometry) (pairs : List PairState) (reserved : List ℕ) :
    MutableState where
  allocator := ((range cfg.blockCount).filter d.bad).foldl .markBad
    (.new cfg.blockCount (max cfg.blockCycles 1).toNat reserved)
  bbt := fun b => decide (b < cfg.blockCount) && d.bad b
  pairs := pairs
  handed := []

variable {reserved : List ℕ}

theorem bad_stateOf (hb : b < cfg.blockCount) :
    (stateOf d pairs reserved).allocator.bad b = d.bad b := by
  have hrange : ∀ c ∈ (range cfg.blockCount).filter d.bad, c < cfg.blockCount := fun c hc =>
    mem_range.1 (mem_filter.1 hc).1
  rw [Bool.eq_iff_iff]
  refine (bad_foldl_markBad hrange).trans ?_
  rw [mem_filter, mem_range]
  exact ⟨fun h => h.elim (by rintro ⟨⟩) And.right, fun h => .inr ⟨hb, h⟩⟩

/-- The invariant holds if every block in use is reserved, and the pairs are in good blocks. -/
theorem inv_stateOf (hl : Layout d.image pairs) (hres : ∀ b ∈ owned d.image pairs, b ∈ reserved)
    (hgood : ∀ p ∈ pairs, ∀ i, d.bad (p.blocks.half i) = false) :
    Inv ⟨d, stateOf d pairs reserved⟩ := by
  refine ⟨hl, fun b hb => taken_foldl_markBad ?_, fun q hq i => ?_,
    fun b hb hbad => ?_, blockCount_foldl_markBad⟩
  · simp [BlockAllocator.new, BlockAllocator.taken, hl.lt b hb, hres b hb]
  · exact (bad_stateOf (half_lt hl.lt hq i)).trans (hgood q hq i)
  · refine (bad_stateOf hb).trans (hbad.elim id fun h => ?_)
    exact (Bool.and_eq_true _ _ ▸ h : _ ∧ _).2

/-- The pairs on the medium are loaded, and the blocks for the entries of the root are reserved. -/
theorem Layout.load_eq (hl : Layout d.image (r :: ps)) (hclean : ∀ p ∈ r :: ps, p.dirty = false) :
    ∃ r' ps' reserved, load d = .ok (stateOf d (r' :: ps') reserved) ∧
      Layout d.image (r' :: ps') ∧ Reloads r r' ∧ (∀ q ∈ ps', ∃ p ∈ ps, Reloads p q) ∧
      root.1 ∈ reserved ∧ root.2 ∈ reserved ∧
      ∀ e ∈ r'.entries, ∀ b ∈ e.reserved d.image, b ∈ reserved := by
  obtain ⟨r0, ps0, heq, hroot, -, hdirs, -⟩ := hl.shape
  obtain ⟨rfl, rfl⟩ := cons.inj heq
  obtain ⟨r', hr', hrr⟩ := hl.loadPair mem_cons_self (hclean r mem_cons_self)
  -- The directories, in the order of the entries that were loaded.
  obtain ⟨qs, hqs, hmap⟩ := exists_perm_map (hdirs ▸ hrr.entries.filterMap dirBlocks)
  obtain ⟨ps', hps', hall⟩ := mapM_forall₂ (l := qs)
    fun p hp =>
      have hmem := mem_cons_of_mem r (hqs.mem_iff.1 hp)
      hl.loadPair hmem (hclean p hmem)
  obtain ⟨hl', -⟩ := hl.reload hclean hqs hrr hall hmap.symm
  obtain ⟨bss, hbss, hres⟩ := mapM_forall₂ (l := r'.entries)
    fun e he =>
      ⟨_, reservedFor_eq fun b hb => hl'.lt b (mem_owned mem_cons_self
        (mem_cons_of_mem _ (mem_cons_of_mem _ (mem_chains he hb)))), rfl⟩
  refine ⟨r', ps', root.1 :: root.2 :: bss.flatten, ?_, hl', hrr, fun q hq => ?_,
    mem_cons_self, mem_cons_of_mem _ mem_cons_self, fun e he b hb => ?_⟩
  · rw [load, ← hroot, hr']
    change (r'.entries.mapM (reservedFor d.image) >>= _) = _
    rw [hbss]
    rw [← hmap, mapM_map]
    change (qs.mapM (fun p => LittleFs.loadPair d.image p.blocks) >>= _) = _
    rw [hps']
    rfl
  · obtain ⟨p, hp, hpq⟩ := exists_of_forall₂ hall hq
    exact ⟨p, hqs.mem_iff.1 hp, hpq⟩
  · obtain ⟨bs, hbs, rfl⟩ := exists_of_forall₂ hres.flip he
    exact mem_cons_of_mem _ (mem_cons_of_mem _ (mem_flatten.2 ⟨_, hbs, hb⟩))

/-- The invariant holds of what is loaded, if the files in directories are not in chains. -/
theorem Layout.loads (hl : Layout d.image pairs) (hclean : ∀ p ∈ pairs, p.dirty = false)
    (hflat : ∀ p ∈ pairs.tail, ∀ e ∈ p.entries, e.isCtz = false)
    (hgood : ∀ p ∈ pairs, ∀ i, d.bad (p.blocks.half i) = false) :
    ∃ m, load d = .ok m ∧ Inv ⟨d, m⟩ := by
  obtain ⟨r, ps, rfl, -⟩ := hl.shape
  obtain ⟨r', ps', reserved, hload, hl', hr, hps, h1, h2, hres⟩ := hl.load_eq hclean
  refine ⟨_, hload, inv_stateOf hl' (fun b hb => ?_) fun q hq i => ?_⟩
  · obtain ⟨r0, ps0, heq, hroot, -, hdirs, -⟩ := hl'.shape
    obtain ⟨rfl, rfl⟩ := cons.inj heq
    have hflat' : ∀ q ∈ ps', ∀ e ∈ q.entries, e.isCtz = false := by
      intro q hq e he
      obtain ⟨p, hp, hpq⟩ := hps q hq
      exact hflat p hp e (hpq.entries.mem_iff.1 he)
    rcases mem_reserved hroot hdirs hflat' hb with rfl | rfl | ⟨e, he, hbe⟩
    · exact h1
    · exact h2
    · exact hres e he b hbe
  · rcases mem_cons.1 hq with rfl | hq
    · rw [hr.blocks_eq]
      exact hgood r mem_cons_self i
    · obtain ⟨p, hp, hpq⟩ := hps q hq
      rw [hpq.blocks_eq]
      exact hgood p (mem_cons_of_mem _ hp) i

/-- The write path can be loaded again from the device, if nothing is left to commit and the files
    in directories are not in chains. -/
theorem Inv.reload {s : Mounted cfg} (h : Inv s) (hclean : ∀ p ∈ s.mem.pairs, p.dirty = false)
    (hflat : ∀ p ∈ s.mem.pairs.tail, ∀ e ∈ p.entries, e.isCtz = false) :
    ∃ m, load s.dev = .ok m ∧ Inv ⟨s.dev, m⟩ :=
  h.toLayout.loads hclean hflat fun p hp i =>
    (h.not_bad (half_lt h.lt hp i) (h.good p hp i)).1

/-! ## Formatting -/

/-- The root pair after formatting. -/
def formattedRoot (cfg : Config) : PairState := ⟨root, 1, true, [superblockEntry cfg], none, false⟩

theorem entriesOk_superblock : EntriesOk cfg [superblockEntry cfg] where
  ids_nodup := nodup_singleton _
  names_nodup := nodup_singleton _
  id_lt e he := by
    rw [mem_singleton.1 he]
    exact Nat.two_pow_pos 10
  formed e he := .superblock (mem_singleton.1 he)

/-- A half of the root has been written to a block that was erased. -/
theorem formatHalf_eq_ok {revision : ℕ} (h : formatHalf b revision d = (.ok (), d'))
    (hk : d.image b = .erased _) :
    ∃ half, buildMetadataHalf revision [superblockEntry cfg] none = some half ∧
      half.length ≤ cfg.blockSize ∧ d'.image b = .ofBytes _ half ∧ d'.bad = d.bad ∧
      Device.Touches b d d' := by
  rw [formatHalf] at h
  cases hhalf : buildMetadataHalf revision [superblockEntry cfg] none with
  | none => rw [hhalf] at h; cases h
  | some half =>
    rw [hhalf] at h
    dsimp only at h
    split_ifs at h with hlen
    · cases h
    · have hp := mapError_eq_ok.1 h
      obtain rfl : (program b (padToPage cfg half) d).2 = d' := congrArg Prod.snd hp
      refine ⟨half, rfl, Nat.not_lt.1 hlen, ?_, bad_program, .program ..⟩
      rw [program_of_ok (congrArg Prod.fst hp), hk, Block.program_erased, ofBytes_padToPage]

/-- A block has been erased. -/
theorem erase_eq_ok (h : mapError (fun _ => LittleFsError.io) (erase b) d = (.ok (), d')) :
    b < cfg.blockCount ∧ d.bad b = false ∧ d'.image b = .erased _ ∧ d'.bad = d.bad ∧
      Device.Touches b d d' := by
  have he := mapError_eq_ok.1 h
  obtain rfl : (erase b d).2 = d' := congrArg Prod.snd he
  have hok := congrArg Prod.fst he
  obtain ⟨hlt, hbad⟩ := lt_of_erase hok
  exact ⟨hlt, hbad, erase_of_ok hok, bad_erase, .erase ..⟩

/-- What formatting leaves: the second half of the root is read, and holds the superblock. -/
theorem layout_of_format (h : format d = (.ok (), d')) :
    Layout d'.image [formattedRoot cfg] ∧ ∀ i, d'.bad (root.half i) = false := by
  obtain ⟨⟨⟩, d1, h1, h⟩ := bind_eq_ok.1 h
  obtain ⟨⟨⟩, d2, h2, h⟩ := bind_eq_ok.1 h
  obtain ⟨⟨⟩, d3, h3, h4⟩ := bind_eq_ok.1 h
  obtain ⟨hlt1, hbad1, himg1, hb1, -⟩ := erase_eq_ok h1
  obtain ⟨hlt2, hbad2, himg2, hb2, ht2⟩ := erase_eq_ok h2
  obtain ⟨half0, hhalf0, hlen0, himg3, hb3, ht3⟩ :=
    formatHalf_eq_ok h3 ((ht2.image 0 (by decide)).trans himg1)
  obtain ⟨half1, hhalf1, hlen1, himg4, hb4, ht4⟩ :=
    formatHalf_eq_ok h4 ((ht3.image 1 (by decide)).trans himg2)
  have himg0 := (ht4.image 0 (by decide)).trans himg3
  have hview0 := view_ofBytes hhalf0 hlen0 (Nat.two_pow_pos 32) entriesOk_superblock
  have hview1 := view_ofBytes hhalf1 hlen1 (Nat.one_lt_two_pow (by decide)) entriesOk_superblock
  have hstores : (formattedRoot cfg).Stores d'.image [superblockEntry cfg] := by
    refine .of_lt (q := (0, ⟨0, true, halfTags [superblockEntry cfg] none, none⟩)) ?_ ?_ Nat.one_pos
    · change slots d'.image root true = _
      rw [slots, viewOf, show root.half true = 1 from rfl, himg4, hview1]
      rfl
    · change slots d'.image root false = _
      rw [slots, viewOf, show root.half false = 0 from rfl, himg0, hview0]
      rfl
  have howned : owned d'.image [formattedRoot cfg] = [0, 1] := rfl
  refine ⟨⟨⟨_, [], rfl, rfl, mem_singleton_self _, rfl, fun q hq => by cases hq⟩, fun p hp => ?_,
    by rw [howned]; decide, fun b hb => ?_, ?_, ?_⟩, fun i => ?_⟩
  · rw [mem_singleton.1 hp]
    exact ⟨entriesOk_superblock, rfl, Nat.one_lt_two_pow (by decide), _, hstores, fun _ => .refl _⟩
  · rw [howned, mem_pair] at hb
    rcases hb with rfl | rfl
    · exact hlt1
    · exact hlt2
  · have hread := hstores.read hlt1 hlt2
    change (readMetadataPair d'.image root >>= _) = _
    change readMetadataPair d'.image root = _ at hread
    rw [hread]
    exact checkSuperblock_tags entriesOk_superblock (mem_singleton_self _)
  · have := length_build hhalf0
    omega
  · rw [hb4, hb3, hb2]
    cases i
    · exact (congrFun hb1 0).trans hbad1
    · exact hbad2

/-- The write path can be loaded from a device that has been formatted. -/
theorem exists_load_of_format (h : format d = (.ok (), d')) :
    ∃ m, load d' = .ok m ∧ Inv ⟨d', m⟩ := by
  obtain ⟨hl, hbad⟩ := layout_of_format h
  refine hl.loads (fun p hp => ?_) (fun p hp => by cases hp) fun p hp i => ?_
  · rw [mem_singleton.1 hp]
    rfl
  · rw [mem_singleton.1 hp]
    exact hbad i

end SmallAIOS.Fs.LittleFs

import SmallAIOS.Fs.LittleFs.System

/-!
# The entries of a directory

What the write path keeps of the entries of a metadata pair (`EntriesOk`): ids and names are
distinct, and each entry is the superblock, a file or a directory (`PairEntry.Formed`). This is kept
when an entry is added, changed or removed.

The reader looks at the tags of a half. On the tags of such entries, a root with the superblock
mounts (`checkSuperblock_tags`).
-/

namespace SmallAIOS.Fs.LittleFs

open Lib Flash List PairEntry

variable {cfg : Config}

/-! ## Well-formed entries -/

/-- The entries that the write path makes. -/
inductive PairEntry.Formed (cfg : Config) (e : PairEntry) : Prop
  | superblock (h : e = superblockEntry cfg)
  | inline (hid : 0 < e.id) (hname : e.typName = tagNameReg) (hs : e.typStruct = tagStructInline)
  | chain (hid : 0 < e.id) (hname : e.typName = tagNameReg) (hs : e.typStruct = tagStructCtz)
    (hlen : e.structPayload.length = 8)
  | dir (hid : 0 < e.id) (hname : e.typName = tagNameDir) (hs : e.typStruct = tagStructDir)
    (hlen : e.structPayload.length = 8)

namespace PairEntry

variable {e : PairEntry}

section

variable (h : e.Formed cfg)
include h

theorem Formed.typName_lt : e.typName < 2 ^ 8 := by
  have hsb : (superblockEntry cfg).typName < 2 ^ 8 := (by decide : tagNameSuperblock < 2 ^ 8)
  rcases h with rfl | ⟨-, h, -⟩ | ⟨-, h, -⟩ | ⟨-, h, -⟩
  · exact hsb
  all_goals rw [h]; decide

theorem Formed.typStruct_div : e.typStruct / 2 ^ 8 = tagType3Struct := by
  have hsb : (superblockEntry cfg).typStruct / 2 ^ 8 = tagType3Struct :=
    (by decide : tagStructInline / 2 ^ 8 = tagType3Struct)
  rcases h with rfl | ⟨-, -, h⟩ | ⟨-, -, h, -⟩ | ⟨-, -, h, -⟩
  · exact hsb
  all_goals rw [h]; decide

/-- Only a directory has a pair. -/
theorem Formed.dirBlocks_eq_none (hname : e.typName ≠ tagNameDir) : e.dirBlocks = none := by
  refine if_neg fun hd => ?_
  rcases h with h | ⟨-, -, h⟩ | ⟨-, -, h, -⟩ | ⟨-, h, -⟩
  · rw [h] at hd
    exact absurd hd.1 (by decide : tagStructInline ≠ tagStructDir)
  · rw [h] at hd
    exact absurd hd.1 (by decide)
  · rw [h] at hd
    exact absurd hd.1 (by decide)
  · exact hname h

/-- Only a file is in a chain. -/
theorem Formed.isCtz_eq_false (hname : e.typName ≠ tagNameReg) : e.isCtz = false := by
  rw [isCtz]
  rcases h with h | ⟨-, h, -⟩ | ⟨-, h, -⟩ | ⟨-, -, h, -⟩
  · rw [h]
    rfl
  · exact absurd h hname
  · exact absurd h hname
  · rw [h]
    rfl

end

end PairEntry

/-- The entries of a directory. -/
structure EntriesOk (cfg : Config) (es : List PairEntry) : Prop where
  ids_nodup : (es.map PairEntry.id).Nodup
  names_nodup : (es.map fun e => (e.typName, e.name)).Nodup
  id_lt : ∀ e ∈ es, e.id < 2 ^ 10
  formed : ∀ e ∈ es, e.Formed cfg

variable {e : PairEntry} {name : List UInt8} {α : Type*} {l : List α} {a : α}

theorem named_iff {typ : ℕ} : named name typ e = true ↔ e.typName = typ ∧ e.name = name := by
  simp [named]

theorem withId_iff {id : ℕ} : withId id e = true ↔ e.id = id := by
  simp [withId]

/-- What is in a list around an item. -/
theorem mem_middle {l1 l2 : List α} {a x : α} : x ∈ l1 ++ a :: l2 ↔ x = a ∨ x ∈ l1 ++ l2 :=
  perm_middle.mem_iff.trans mem_cons

/-- The only item with a property is the one that is found. -/
theorem find?_eq_some_of_unique {p : α → Bool} (ha : a ∈ l) (hp : p a = true)
    (hu : ∀ b ∈ l, p b = true → b = a) : l.find? p = some a := by
  cases hf : l.find? p with
  | none => exact absurd hp (find?_eq_none.1 hf a ha)
  | some b => rw [hu b (mem_of_find?_eq_some hf) (find?_some hf)]

namespace EntriesOk

variable {es es' l1 l2 : List PairEntry} {e' : PairEntry} {typ id : ℕ}

section

variable (h : EntriesOk cfg es)
include h

theorem fits (he : e ∈ es) : e.Fits :=
  ⟨h.id_lt e he, (h.formed e he).typName_lt, (h.formed e he).typStruct_div⟩

theorem length_le : es.length ≤ 2 ^ 10 := by
  have hsub : es.map PairEntry.id ⊆ range (2 ^ 10) := by
    intro i hi
    obtain ⟨e, he, rfl⟩ := mem_map.1 hi
    exact mem_range.2 (h.id_lt e he)
  have := (h.ids_nodup.subperm hsub).length_le
  rwa [length_map, length_range] at this

theorem eq_of_id (he : e ∈ es) (he' : e' ∈ es) (hid : e.id = e'.id) : e = e' :=
  inj_on_of_nodup_map h.ids_nodup he he' hid

theorem find_withId (he : e ∈ es) : es.find? (withId e.id) = some e :=
  find?_eq_some_of_unique he (withId_iff.2 rfl) fun _ hb hid =>
    h.eq_of_id hb he (withId_iff.1 hid)

theorem perm (hp : es.Perm es') : EntriesOk cfg es' where
  ids_nodup := (hp.map _).nodup_iff.1 h.ids_nodup
  names_nodup := (hp.map _).nodup_iff.1 h.names_nodup
  id_lt e he := h.id_lt e (hp.mem_iff.2 he)
  formed e he := h.formed e (hp.mem_iff.2 he)

end

/-! ## Changing entries -/

theorem sublist (h : EntriesOk cfg es) (hs : es'.Sublist es) : EntriesOk cfg es' where
  ids_nodup := h.ids_nodup.sublist (hs.map _)
  names_nodup := h.names_nodup.sublist (hs.map _)
  id_lt e he := h.id_lt e (hs.subset he)
  formed e he := h.formed e (hs.subset he)

/-- Add an entry with a fresh id and a fresh name. -/
theorem concat (h : EntriesOk cfg es) (hid : ∀ x ∈ es, x.id ≠ e.id) (hlt : e.id < 2 ^ 10)
    (hname : es.find? (named e.name e.typName) = none) (he : e.Formed cfg) :
    EntriesOk cfg (es ++ [e]) where
  ids_nodup := by
    rw [map_append]
    refine nodup_append.2 ⟨h.ids_nodup, nodup_singleton _, ?_⟩
    rintro i hi j hj rfl
    obtain ⟨x, hx, rfl⟩ := mem_map.1 hi
    exact hid x hx (mem_singleton.1 hj)
  names_nodup := by
    rw [map_append]
    refine nodup_append.2 ⟨h.names_nodup, nodup_singleton _, ?_⟩
    rintro i hi j hj rfl
    obtain ⟨x, hx, rfl⟩ := mem_map.1 hi
    obtain ⟨htyp, hn⟩ := Prod.mk.inj (mem_singleton.1 hj)
    exact find?_eq_none.1 hname x hx (named_iff.2 ⟨htyp, hn⟩)
  id_lt x hx := by
    rcases mem_append.1 hx with hx | hx
    · exact h.id_lt x hx
    · rwa [mem_singleton.1 hx]
  formed x hx := by
    rcases mem_append.1 hx with hx | hx
    · exact h.formed x hx
    · rwa [mem_singleton.1 hx]

/-- Change an entry, but not its id, to a name that is its own or fresh. -/
theorem replace (h : EntriesOk cfg (l1 ++ e :: l2)) (hid : e'.id = e.id)
    (hname : ∀ x ∈ l1 ++ l2, (x.typName, x.name) ≠ (e'.typName, e'.name)) (he : e'.Formed cfg) :
    EntriesOk cfg (l1 ++ e' :: l2) where
  ids_nodup := by
    have := h.ids_nodup
    rwa [map_append, map_cons, ← hid, ← map_cons, ← map_append] at this
  names_nodup := by
    have hperm : ∀ x : PairEntry, (l1 ++ x :: l2).Perm (x :: (l1 ++ l2)) := fun _ =>
      perm_middle
    have hold := ((hperm e).map fun e => (e.typName, e.name)).nodup_iff.1 h.names_nodup
    refine ((hperm e').map _).nodup_iff.2 ?_
    rw [map_cons, nodup_cons] at hold ⊢
    refine ⟨fun hmem => ?_, hold.2⟩
    obtain ⟨x, hx, heq⟩ := mem_map.1 hmem
    exact hname x hx heq
  id_lt x hx := by
    rcases mem_middle.1 hx with rfl | hx
    · exact hid ▸ h.id_lt e mem_append_cons_self
    · exact h.id_lt x (mem_middle.2 (.inr hx))
  formed x hx := by
    rcases mem_middle.1 hx with rfl | hx
    · exact he
    · exact h.formed x (mem_middle.2 (.inr hx))

/-- The other entries have other names. -/
theorem name_ne (h : EntriesOk cfg (l1 ++ e :: l2)) {x : PairEntry} (hx : x ∈ l1 ++ l2) :
    (x.typName, x.name) ≠ (e.typName, e.name) := by
  have hperm : (l1 ++ e :: l2).Perm (e :: (l1 ++ l2)) := perm_middle
  have := (hperm.map fun e => (e.typName, e.name)).nodup_iff.1 h.names_nodup
  rw [map_cons, nodup_cons] at this
  exact fun heq => this.1 (mem_map.2 ⟨x, hx, heq⟩)

end EntriesOk

variable {p : PairEntry → Bool}

theorem updateFirst_append {f : PairEntry → PairEntry}
    {l1 l2 : List PairEntry} (hl : ∀ x ∈ l1, p x = false) (he : p e = true) :
    updateFirst p f (l1 ++ e :: l2) = l1 ++ f e :: l2 := by
  induction l1 with
  | nil => exact if_pos he
  | cons x l ih =>
    rw [forall_mem_cons] at hl
    rw [cons_append, updateFirst, if_neg (by rw [hl.1]; exact Bool.false_ne_true), ih hl.2,
      cons_append]

variable {es : List PairEntry}

/-- Where the entry that is found is in the list, and what changing or removing it gives. -/
theorem find?_split
    (h : es.find? p = some e) : ∃ l1 l2, es = l1 ++ e :: l2 ∧ es.eraseP p = l1 ++ l2 ∧
      ∀ f, updateFirst p f es = l1 ++ f e :: l2 := by
  obtain ⟨he, l1, l2, rfl, hl⟩ := find?_eq_some_iff_append.1 h
  have hl' : ∀ x ∈ l1, p x = false := fun x hx => by simpa using hl x hx
  refine ⟨l1, l2, rfl, ?_, fun f => updateFirst_append hl' he⟩
  rw [eraseP_append_right _ fun x hx => by simp [hl' x hx], eraseP_cons_of_pos he]

theorem freshId_eq_some {id : ℕ} (h : freshId es = some id) :
    0 < id ∧ id < 2 ^ 10 ∧ ∀ x ∈ es, x.id ≠ id := by
  have hmem := mem_range'_1.1 (mem_of_find?_eq_some h)
  have hall := find?_some h
  refine ⟨by omega, by omega, fun x hx => ?_⟩
  simpa using all_eq_true.1 hall x hx

theorem nameTaken_eq_false (h : nameTaken es name = false) :
    es.find? (named name tagNameReg) = none ∧ es.find? (named name tagNameDir) = none := by
  rw [nameTaken, Bool.or_eq_false_iff, any_eq_false, any_eq_false] at h
  exact ⟨find?_eq_none.2 h.1, find?_eq_none.2 h.2⟩

/-! ## What the reader finds -/

section Tags

variable {typ id : ℕ}

theorem PairEntry.Fits.isName (h : e.Fits) (data : List UInt8) :
    (Tag.mk e.typName e.id data).isName = true ∧ (Tag.mk e.typName e.id data).isStruct = false := by
  have : e.typName / 2 ^ 8 = 0 := Nat.div_eq_of_lt h.typName_lt
  rw [Tag.isName, Tag.isStruct, this]
  decide

theorem PairEntry.Fits.isStruct (h : e.Fits) (data : List UInt8) :
    (Tag.mk e.typStruct e.id data).isName = false ∧
      (Tag.mk e.typStruct e.id data).isStruct = true := by
  rw [Tag.isName, Tag.isStruct, h.typStruct_div]
  decide

/-- The entry of a directory has its blocks. -/
theorem dirBlocks_eq (h : EntriesOk cfg es) (hmem : e ∈ es) (hdir : e.typName = tagNameDir) :
    e.structPayload.length = 8 ∧ e.dirBlocks = some (.ofBytes e.structPayload) := by
  rcases h.formed e hmem with rfl | ⟨-, hreg, -⟩ | ⟨-, hreg, -⟩ | ⟨-, -, hs, hlen⟩
  · exact absurd hdir (by decide : tagNameSuperblock ≠ tagNameDir)
  · exact absurd (hreg.symm.trans hdir) (by decide)
  · exact absurd (hreg.symm.trans hdir) (by decide)
  · exact ⟨hlen, if_pos ⟨hs, hlen⟩⟩

/-- If one item passes a filter, and no other item does, it is the last one. -/
theorem getLast?_filter_of_unique {p : α → Bool} (ha : a ∈ l) (hp : p a = true)
    (hu : ∀ b ∈ l, p b = true → b = a) : (l.filter p).getLast? = some a := by
  have hmem : a ∈ l.filter p := mem_filter.2 ⟨ha, hp⟩
  cases hl : (l.filter p).getLast? with
  | none => exact absurd hmem (getLast?_eq_none_iff.1 hl ▸ not_mem_nil)
  | some b =>
    have hb := mem_filter.1 (mem_of_getLast? hl)
    rw [hu b hb.1 hb.2]

/-- A root with the superblock mounts. -/
theorem checkSuperblock_tags (h : EntriesOk cfg es) (hsb : superblockEntry cfg ∈ es) :
    checkSuperblock (es.flatMap tags) = .ok () := by
  have hmem : ∀ t ∈ (superblockEntry cfg).tags, t ∈ es.flatMap tags := fun t ht =>
    mem_flatMap.2 ⟨_, hsb, ht⟩
  -- A tag with the id 0 is one of those of the superblock.
  have hzero : ∀ t ∈ es.flatMap tags, t.id = 0 → t ∈ (superblockEntry cfg).tags := by
    intro t ht hid
    obtain ⟨e, he, ht⟩ := mem_flatMap.1 ht
    have hte : t.id = e.id := by
      rcases mem_pair.1 ht with rfl | rfl <;> rfl
    rwa [h.eq_of_id hsb he (hid.symm.trans hte)]
  have hname : (es.flatMap tags |>.filter fun t =>
      t.isName && t.typ = tagNameSuperblock && t.id = 0 && 8 ≤ t.data.length).getLast? =
      some ⟨tagNameSuperblock, 0, superblockMagic⟩ := by
    refine getLast?_filter_of_unique (hmem _ mem_cons_self) (by decide) fun t ht hp => ?_
    simp only [Bool.and_eq_true, decide_eq_true_eq] at hp
    rcases mem_pair.1 (hzero t ht hp.1.2) with rfl | rfl
    · rfl
    · exact absurd hp.1.1.2 (by decide : tagStructInline ≠ tagNameSuperblock)
  have hstruct : (es.flatMap tags |>.filter fun t =>
      t.isStruct && t.typ = tagStructInline && t.id = 0).getLast? =
      some ⟨tagStructInline, 0, (superblockEntry cfg).structPayload⟩ := by
    have hp : (decide (tagStructInline / 2 ^ 8 = tagType3Struct) &&
        decide (tagStructInline = tagStructInline) && decide (0 = 0)) = true := by decide
    refine getLast?_filter_of_unique (hmem _ (mem_cons_of_mem _ mem_cons_self)) hp fun t ht hp => ?_
    simp only [Bool.and_eq_true, decide_eq_true_eq] at hp
    rcases mem_pair.1 (hzero t ht hp.2) with rfl | rfl
    · exact absurd hp.1.2 (by decide : tagNameSuperblock ≠ tagStructInline)
    · rfl
  have hpayload : (superblockEntry cfg).structPayload = leBytes 4 (majorVersion * 2 ^ 16) ++
      [cfg.blockSize, cfg.blockCount, 255, 0x7FFFFFFF, 1022].flatMap (leBytes 4) := rfl
  have hversion : readU32Le (superblockEntry cfg).structPayload = majorVersion * 2 ^ 16 := by
    rw [hpayload, readU32Le, take_left' length_leBytes, leVal_leBytes (by decide)]
  rw [checkSuperblock, hname, hstruct]
  simp only [hversion]
  rw [if_neg (by decide), if_neg, if_neg (by decide)]
  simp [hpayload]

end Tags

end SmallAIOS.Fs.LittleFs

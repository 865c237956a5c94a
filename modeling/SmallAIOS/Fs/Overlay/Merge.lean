import SmallAIOS.Fs.Overlay.Layer
import SmallAIOS.Lib.SortedMap

/-!
# Listing a directory through both layers

The entries of the upper layer come first, without its marks and its reserved names,
and then those of the lower layer that no entry or whiteout of the upper one stands
over (`mergeReaddir`), unless the upper layer holds the directory as an opaque one.

* `mem_mergeReaddir`: which names are listed, and from which layer;
* `mergeReaddir_lists_iff`: for layers whose listings agree with their lookups, a
  directory lists the names that a lookup in it finds, except for the opaque
  directories of the upper layer.
-/

namespace SmallAIOS.Fs.Overlay

open Lib List SortedMap Path Except

inductive MergedEntryKind
  | regularFile
  | directory
  | other
  deriving DecidableEq

/-- An entry of the merged listing. -/
structure MergedEntry where
  name : Path
  kind : MergedEntryKind
  size : ℕ
  fromUpper : Bool
  deriving DecidableEq

/-- Add an entry of the upper layer, unless it is a mark or has a reserved name. -/
def mergeUpper (merged : SortedMap Path MergedEntry) (e : UpperEntry) :
    SortedMap Path MergedEntry :=
  match e.kind with
  | .whiteout | .opaqueDir => merged
  | .regularFile =>
    if isReservedName e.name then merged
    else merged.insert e.name ⟨e.name, .regularFile, e.size, true⟩
  | .directory =>
    if isReservedName e.name then merged
    else merged.insert e.name ⟨e.name, .directory, e.size, true⟩

/-- Add an entry of the lower layer, unless the upper one hides it. -/
def mergeLower (whiteouts : List Path) (merged : SortedMap Path MergedEntry) (e : LowerEntry) :
    SortedMap Path MergedEntry :=
  if e.name ∈ whiteouts then merged
  else if (merged.get? e.name).isSome then merged
  else if isReservedName e.name then merged
  else
    let kind := match e.kind with
      | .regularFile => .regularFile
      | .directory => .directory
      | .other => .other
    merged.insert e.name ⟨e.name, kind, e.size, false⟩

/-- The entries of both layers by name, an entry of the upper layer before one of the lower. -/
def mergeEntries (us : List UpperEntry) (ls : List LowerEntry) : SortedMap Path MergedEntry :=
  let whiteouts := (us.filter (·.kind = .whiteout)).map (·.name)
  let merged := us.foldl mergeUpper .empty
  ls.foldl (mergeLower whiteouts) merged

variable (upper : UpperLayer) (lower : LowerLayer)

/-- Whether the upper layer holds the directory as an opaque one. -/
def isOpaque (dir : Path) : Except OverlayError Bool :=
  match upper.lookup dir with
  | .ok (some e) => .ok (e.kind = .opaqueDir)
  | .ok none => .ok false
  | .error e => .error (.upper e)

/-- The entries of the upper layer, none if it has no such directory. -/
def upperEntries (dir : Path) : Except OverlayError (List UpperEntry) :=
  match upper.iterDir dir with
  | .ok v => .ok v
  | .error .notFound | .error .notADirectory => .ok []
  | .error e => .error (.upper e)

/-- The entries of the lower layer, none if they are hidden or it has no such directory. -/
def lowerEntries (hidden : Bool) (dir : Path) : Except OverlayError (List LowerEntry) :=
  if hidden then .ok []
  else
    match lower.iterDir dir with
    | .ok v => .ok v
    | .error .notFound | .error .notADirectory => .ok []
    | .error e => .error (.lower e)

/-- List a directory through both layers, in the order of the names. -/
def mergeReaddir (dir : Path) : Except OverlayError (List MergedEntry) := do
  let hidden ← isOpaque upper dir
  let us ← upperEntries upper dir
  let ls ← lowerEntries lower hidden dir
  return (mergeEntries us ls).entries.map (·.2)

/-! ## Which names are listed -/

/-- The layer the name comes from, if it is in the map. -/
def origin (merged : SortedMap Path MergedEntry) (name : Path) : Option Bool :=
  (merged.get? name).map (·.fromUpper)

/-- Every entry is in the map under its own name. -/
def Named (merged : SortedMap Path MergedEntry) : Prop := ∀ p ∈ merged.entries, p.2.name = p.1

/-- The upper layer's entry is listed. -/
def UpperEntry.Shown (e : UpperEntry) : Prop :=
  e.kind ≠ .whiteout ∧ e.kind ≠ .opaqueDir ∧ isReservedName e.name = false
  deriving Decidable

variable {upper lower} {merged : SortedMap Path MergedEntry} {name dir : Path}
  (whiteouts : List Path) {us : List UpperEntry} {ls : List LowerEntry} {b : Bool} {v : MergedEntry}

theorem Named.insert (h : Named merged) : Named (merged.insert v.name v) := by
  intro p hp
  rcases mem_insert.1 hp with rfl | ⟨-, hp⟩
  · rfl
  · exact h p hp

theorem origin_insert :
    origin (merged.insert v.name v) name =
      if v.name = name then some v.fromUpper else origin merged name := by
  by_cases hn : v.name = name
  · rw [origin, ← hn, get?_insert_self, if_pos rfl, Option.map_some]
  · rw [origin, get?_insert_of_ne (Ne.symm hn), if_neg hn, origin]

/-- The listed entries under a name. -/
theorem mem_values_iff (h : Named merged) :
    (∃ e ∈ merged.entries.map (·.2), e.name = name ∧ e.fromUpper = b) ↔
      origin merged name = some b := by
  rw [origin, Option.map_eq_some_iff]
  constructor
  · rintro ⟨e, he, rfl, rfl⟩
    obtain ⟨⟨k, v⟩, hp, rfl⟩ := mem_map.1 he
    have hk : v.name = k := h _ hp
    exact ⟨v, get?_eq_some.2 (hk ▸ hp), rfl⟩
  · rintro ⟨v, hv, rfl⟩
    have hmem := get?_eq_some.1 hv
    exact ⟨v, mem_map_of_mem hmem, h _ hmem, rfl⟩

/-- An entry of the upper layer that is shown is added, another one is passed over. -/
theorem mergeUpper_cases (merged : SortedMap Path MergedEntry) (e : UpperEntry) :
    (e.Shown ∧ ∃ kind, mergeUpper merged e = merged.insert e.name ⟨e.name, kind, e.size, true⟩) ∨
      ¬ e.Shown ∧ mergeUpper merged e = merged := by
  rw [mergeUpper, UpperEntry.Shown]
  cases hr : isReservedName e.name with
  | true => cases e.kind <;> simp
  | false =>
    cases e.kind with
    | regularFile | directory => exact .inl ⟨by decide, _, rfl⟩
    | whiteout => simp
    | opaqueDir => simp

theorem mergeUpper_spec (h : Named merged) (us : List UpperEntry) :
    Named (us.foldl mergeUpper merged) ∧ ∀ name, origin (us.foldl mergeUpper merged) name =
      if ∃ e ∈ us, e.Shown ∧ e.name = name then some true else origin merged name := by
  induction us generalizing merged with
  | nil => exact ⟨h, fun name => by simp⟩
  | cons e us ih =>
    rw [foldl_cons]
    rcases mergeUpper_cases merged e with ⟨hshown, kind, hm⟩ | ⟨hshown, hm⟩
    · rw [hm]
      obtain ⟨hnamed, horigin⟩ := ih (Named.insert h (v := ⟨e.name, kind, e.size, true⟩))
      refine ⟨hnamed, fun name => ?_⟩
      rw [horigin, origin_insert]
      by_cases hn : e.name = name <;> simp [hn, hshown]
    · rw [hm]
      refine ⟨(ih h).1, fun name => ?_⟩
      rw [(ih h).2]
      simp [hshown]

/-- An entry of the lower layer is added if no entry has its name and it is neither under a whiteout
    nor reserved. -/
theorem mergeLower_cases (merged : SortedMap Path MergedEntry) (e : LowerEntry) :
    (e.name ∉ whiteouts ∧ origin merged e.name = none ∧ isReservedName e.name = false ∧
        ∃ kind, mergeLower whiteouts merged e =
          merged.insert e.name ⟨e.name, kind, e.size, false⟩) ∨
      ¬ (e.name ∉ whiteouts ∧ origin merged e.name = none ∧ isReservedName e.name = false) ∧
        mergeLower whiteouts merged e = merged := by
  rw [mergeLower, origin]
  by_cases hw : e.name ∈ whiteouts
  · exact .inr ⟨fun h => h.1 hw, if_pos hw⟩
  · rw [if_neg hw]
    cases hg : merged.get? e.name with
    | some v => exact .inr ⟨fun h => by simp at h, by simp⟩
    | none =>
      cases hr : isReservedName e.name with
      | true => exact .inr ⟨fun h => by simp at h, by simp⟩
      | false => exact .inl ⟨hw, rfl, rfl, _, rfl⟩

theorem mergeLower_spec (h : Named merged) (ls : List LowerEntry) :
    Named (ls.foldl (mergeLower whiteouts) merged) ∧
      ∀ name, origin (ls.foldl (mergeLower whiteouts) merged) name =
        if origin merged name = none ∧ name ∉ whiteouts ∧ isReservedName name = false ∧
          ∃ e ∈ ls, e.name = name then some false else origin merged name := by
  induction ls generalizing merged with
  | nil => exact ⟨h, fun name => by simp⟩
  | cons e ls ih =>
    rw [foldl_cons]
    rcases mergeLower_cases whiteouts merged e with ⟨hw, ho, hr, kind, hm⟩ | ⟨hnot, hm⟩
    · rw [hm]
      obtain ⟨hnamed, horigin⟩ := ih (Named.insert h (v := ⟨e.name, kind, e.size, false⟩))
      refine ⟨hnamed, fun name => ?_⟩
      rw [horigin, origin_insert]
      by_cases hn : e.name = name
      · subst hn
        simp [hw, ho, hr]
      · simp [hn]
    · rw [hm]
      refine ⟨(ih h).1, fun name => ?_⟩
      rw [(ih h).2]
      by_cases hn : e.name = name
      · subst hn
        have hl (l : List LowerEntry) : ¬ (origin merged e.name = none ∧ e.name ∉ whiteouts ∧
            isReservedName e.name = false ∧ ∃ e' ∈ l, e'.name = e.name) :=
          fun h => hnot ⟨h.2.1, h.1, h.2.2.1⟩
        rw [if_neg (hl ls), if_neg (hl (e :: ls))]
      · simp [hn]

theorem mergeEntries_spec (us : List UpperEntry) (ls : List LowerEntry) :
    Named (mergeEntries us ls) ∧ ∀ name,
      (origin (mergeEntries us ls) name = some true ↔ ∃ u ∈ us, u.Shown ∧ u.name = name) ∧
      (origin (mergeEntries us ls) name = some false ↔ isReservedName name = false ∧
        (∀ u ∈ us, u.name = name → u.kind = .opaqueDir) ∧ ∃ e ∈ ls, e.name = name) := by
  have hempty : Named .empty := fun p hp => absurd hp not_mem_nil
  obtain ⟨hnamed, hupper⟩ := mergeUpper_spec hempty us
  obtain ⟨hnamed', hlower⟩ := mergeLower_spec
    ((us.filter (·.kind = .whiteout)).map (·.name)) hnamed ls
  refine ⟨hnamed', fun name => ?_⟩
  have hnone : origin .empty name = none := rfl
  rw [mergeEntries, hlower, hupper, hnone]
  by_cases hshown : ∃ u ∈ us, u.Shown ∧ u.name = name
  · -- The upper layer's entry is in the map, and no entry of the lower one gets in.
    obtain ⟨u, hu, hs, hn⟩ := id hshown
    rw [if_pos hshown, if_neg (by simp)]
    refine ⟨iff_of_true rfl hshown, iff_of_false (by decide) fun h => ?_⟩
    exact hs.2.1 (h.2.1 u hu hn)
  · -- Without one shown, what has the name is a mark, and a whiteout hides the name.
    have hw (hres : isReservedName name = false) :
        name ∉ (us.filter (·.kind = .whiteout)).map (·.name) ↔
          ∀ u ∈ us, u.name = name → u.kind = .opaqueDir := by
      simp only [mem_map, mem_filter, decide_eq_true_eq, not_exists, not_and]
      constructor
      · intro h u hu hn
        by_contra hk
        exact hshown ⟨u, hu, ⟨fun hw => h u ⟨hu, hw⟩ hn, hk, hn ▸ hres⟩, hn⟩
      · rintro h u ⟨hu, hk⟩ hn
        rw [h u hu hn] at hk
        cases hk
    split_ifs with hc
    · obtain ⟨-, hfree, hres, hin⟩ := hc
      exact ⟨iff_of_false (by decide) hshown, iff_of_true rfl ⟨hres, (hw hres).1 hfree, hin⟩⟩
    · refine ⟨iff_of_false (by decide) hshown, iff_of_false (by decide) fun h => hc ?_⟩
      exact ⟨rfl, (hw h.1).2 h.2.1, h.1, h.2.2⟩

/-- What is listed under a name: an entry of the upper layer that is shown, or one of the lower
    layer if the name is not reserved and the upper layer has nothing there but opaque directories.
    -/
theorem mem_mergeReaddir {hidden : Bool} (hh : isOpaque upper dir = .ok hidden)
    (hu : upperEntries upper dir = .ok us) (hl : lowerEntries lower hidden dir = .ok ls) :
    ∃ es, mergeReaddir upper lower dir = .ok es ∧ ∀ name,
      ((∃ e ∈ es, e.name = name ∧ e.fromUpper = true) ↔ ∃ u ∈ us, u.Shown ∧ u.name = name) ∧
      ((∃ e ∈ es, e.name = name ∧ e.fromUpper = false) ↔ isReservedName name = false ∧
        (∀ u ∈ us, u.name = name → u.kind = .opaqueDir) ∧ ∃ e ∈ ls, e.name = name) := by
  have hm : mergeReaddir upper lower dir = .ok ((mergeEntries us ls).entries.map (·.2)) := by
    simp only [mergeReaddir, hh, hu, hl, bind, Except.bind]
    rfl
  obtain ⟨hnamed, hspec⟩ := mergeEntries_spec us ls
  refine ⟨_, hm, fun name => ?_⟩
  rw [mem_values_iff hnamed, mem_values_iff hnamed]
  exact hspec name

/-- A directory that is listed has been looked up and listed in the layers. -/
theorem of_mergeReaddir {es : List MergedEntry} (h : mergeReaddir upper lower dir = .ok es) :
    ∃ hidden us ls, isOpaque upper dir = .ok hidden ∧ upperEntries upper dir = .ok us ∧
      lowerEntries lower hidden dir = .ok ls := by
  simp only [mergeReaddir, bind, Except.bind] at h
  split at h
  · cases h
  · rename_i hidden hh
    split at h
    · cases h
    · rename_i us hu
      split at h
      · cases h
      · rename_i ls hl
        exact ⟨hidden, us, ls, hh, hu, hl⟩

/-! ## Listings and lookups -/

/-- The path is that of a directory that can be seen through the layers. -/
def Visible (upper : UpperLayer) (lower : LowerLayer) (dir : Path) : Prop :=
  (∃ e, lookup upper lower dir = .ok (.upper e) ∧
      (e.kind = .directory ∨ e.kind = .opaqueDir)) ∨
    ∃ e, lookup upper lower dir = .ok (.lower e) ∧ e.kind = .directory

/-- Neither layer fails to list the directory, but for there being none. -/
def Readable (upper : UpperLayer) (lower : LowerLayer) (dir : Path) : Prop :=
  (∀ e, upper.iterDir dir = .error e → e = .notFound ∨ e = .notADirectory) ∧
    ∀ e, lower.iterDir dir = .error e → e = .notFound ∨ e = .notADirectory

/-- The directory lists the name if a lookup finds it in a layer, and from that layer. -/
def ListsFound (upper : UpperLayer) (lower : LowerLayer) (dir name : Path) : Prop :=
  ∃ es, mergeReaddir upper lower dir = .ok es ∧
    ((∃ e ∈ es, e.name = name ∧ e.fromUpper = true) ↔
      ∃ entry, lookup upper lower (join '/' dir name) = .ok (.upper entry)) ∧
    ((∃ e ∈ es, e.name = name ∧ e.fromUpper = false) ↔
      ∃ entry, lookup upper lower (join '/' dir name) = .ok (.lower entry))

theorem UpperLayer.Agrees.entries (h : upper.Agrees) (hrel : Path.Relative '/' dir)
    (hn : Path.IsName '/' name) (hu : upperEntries upper dir = .ok us) :
    ∃ found, upper.lookup (join '/' dir name) = .ok found ∧
      ∀ entry, entry ∈ us ∧ entry.name = name ↔ found = some entry := by
  rw [upperEntries] at hu
  cases hi : upper.iterDir dir with
  | ok v =>
    rw [hi] at hu
    rw [← ok.inj hu]
    exact h.listed dir v name hrel hn hi
  | error e =>
    rw [hi] at hu
    cases e with
    | notFound | notADirectory =>
      refine ⟨none, h.absent dir _ name hrel hn hi (by simp), fun entry => ?_⟩
      rw [← ok.inj hu]
      simp
    | _ => cases hu

theorem LowerLayer.Agrees.entries (h : lower.Agrees) (hrel : Path.Relative '/' dir)
    (hn : Path.IsName '/' name) (hl : lowerEntries lower false dir = .ok ls) (entry : LowerEntry) :
    entry ∈ ls ∧ entry.name = name ↔ lower.lookup (join '/' dir name) = .ok (some entry) := by
  rw [lowerEntries] at hl
  cases hi : lower.iterDir dir with
  | ok v =>
    rw [hi] at hl
    rw [← ok.inj hl]
    exact h.listed dir v name hrel hn hi entry
  | error e =>
    rw [hi] at hl
    cases e with
    | notFound | notADirectory =>
      rw [← ok.inj hl]
      exact iff_of_false (by simp) (h.absent dir _ name hrel hn hi (by simp) entry)
    | _ => cases hl

theorem Visible.isOpaque (h : Visible upper lower dir) :
    ∃ hidden, isOpaque upper dir = .ok hidden ∧ (hidden = true ↔ upper.HasOpaque dir) ∧
      (hidden = false ↔ upper.Clear dir) := by
  have hl : ∃ found, upper.lookup dir = .ok found := by
    rcases h with ⟨e, he, -⟩ | ⟨e, he, -⟩
    · exact ⟨_, (lookup_eq_upper.1 he).1⟩
    · cases hl : upper.lookup dir with
      | ok found => exact ⟨found, rfl⟩
      | error e => simp [lookup, hl] at he
  obtain ⟨found, hl⟩ := hl
  simp only [Overlay.isOpaque, UpperLayer.HasOpaque, UpperLayer.Clear, hl]
  rcases found with _ | e <;> simp

theorem Readable.entries (h : Readable upper lower dir) (hidden : Bool) :
    ∃ us ls, upperEntries upper dir = .ok us ∧ lowerEntries lower hidden dir = .ok ls := by
  have hu : ∃ us, upperEntries upper dir = .ok us := by
    rw [upperEntries]
    cases hi : upper.iterDir dir with
    | ok v => exact ⟨v, rfl⟩
    | error e => rcases h.1 e hi with rfl | rfl <;> exact ⟨[], rfl⟩
  have hl : ∃ ls, lowerEntries lower hidden dir = .ok ls := by
    rw [lowerEntries]
    split_ifs
    · exact ⟨[], rfl⟩
    · cases hi : lower.iterDir dir with
      | ok v => exact ⟨v, rfl⟩
      | error e => rcases h.2 e hi with rfl | rfl <;> exact ⟨[], rfl⟩
  obtain ⟨us, hu⟩ := hu
  obtain ⟨ls, hl⟩ := hl
  exact ⟨us, ls, hu, hl⟩

/-- The names of a directory that is not opaque, below no opaque one, are looked up through clear
    directories. -/
theorem clear_above_join (hclear : upper.Clear dir) (hn : Path.IsName '/' name)
    (habove : ∀ a, Path.Above '/' a dir → upper.Clear a) (a : Path)
    (ha : Path.Above '/' a (join '/' dir name)) : upper.Clear a := by
  by_cases hd : dir = []
  · rw [hd] at ha
    exact absurd ha (not_above_name hn.2)
  · rcases (above_join hn.2 hd).1 ha with rfl | ha
    · exact hclear
    · exact habove a ha

/-- The names found in the upper layer, but for opaque directories, are listed from it. -/
theorem lists_upper_iff (hagree : upper.Agrees) (hrel : Path.Relative '/' dir)
    (hn : Path.IsName '/' name) (hres : isReservedName name = false)
    (hu : upperEntries upper dir = .ok us) :
    (∃ u ∈ us, u.Shown ∧ u.name = name) ↔ ∃ entry,
      lookup upper lower (join '/' dir name) = .ok (.upper entry) ∧ entry.kind ≠ .opaqueDir := by
  obtain ⟨found, hfound, hmem⟩ := hagree.entries hrel hn hu
  constructor
  · rintro ⟨u, hu, hs, hname⟩
    have hf := (hmem u).1 ⟨hu, hname⟩
    exact ⟨u, lookup_eq_upper.2 ⟨hf ▸ hfound, hs.1⟩, hs.2.1⟩
  · rintro ⟨entry, hentry, hk⟩
    obtain ⟨he, hw⟩ := lookup_eq_upper.1 hentry
    obtain ⟨hin, hname⟩ := (hmem entry).2 (ok.inj (hfound.symm.trans he))
    exact ⟨entry, hin, ⟨hw, hk, hname ▸ hres⟩, hname⟩

/-- An upper layer with a whiteout and a file in a directory `d` that is not opaque. -/
def shadingUpper : UpperLayer := .ofEntries
  [([], ⟨"d".toList, .directory, 0, 0o755⟩), ("d".toList, ⟨"a".toList, .regularFile, 1, 0o644⟩),
    ("d".toList, ⟨"b".toList, .whiteout, 0, 0o644⟩)]

/-- A lower layer with three files in a directory `d`. -/
def shadedLower : LowerLayer := .ofEntries
  [([], ⟨"d".toList, .directory, 0, 0o555⟩), ("d".toList, ⟨"a".toList, .regularFile, 1, 0o444⟩),
    ("d".toList, ⟨"b".toList, .regularFile, 1, 0o444⟩),
    ("d".toList, ⟨"c".toList, .regularFile, 1, 0o444⟩)]

/-- An upper layer with one opaque directory. -/
def opaqueUpper : UpperLayer := .ofEntries [([], ⟨"baz".toList, .opaqueDir, 0, 0o755⟩)]

/-- A directory that can be seen lists a name if a lookup finds it in the lower layer, or in the
    upper one and not as an opaque directory, and from the same layer. The directory is not the root
    of an opaque upper layer. If it is not opaque itself, no directory above it is, and no opaque
    directory stands under the name over an entry of the lower layer. -/
theorem mergeReaddir_lists_iff (hupper : upper.Agrees) (hlower : lower.Agrees)
    (hrel : Path.Relative '/' dir) (hvis : Visible upper lower dir)
    (hread : Readable upper lower dir) (hn : Path.IsName '/' name)
    (hres : isReservedName name = false) (hroot : dir = [] → ¬ upper.HasOpaque dir)
    (habove : ¬ upper.HasOpaque dir → ∀ a, Path.Above '/' a dir → upper.Clear a)
    (hover : ¬ upper.HasOpaque dir → upper.HasOpaque (join '/' dir name) →
      ∀ entry, lower.lookup (join '/' dir name) ≠ .ok (some entry)) :
    ∃ es, mergeReaddir upper lower dir = .ok es ∧
      ((∃ e ∈ es, e.name = name ∧ e.fromUpper = true) ↔
        ∃ entry, lookup upper lower (join '/' dir name) = .ok (.upper entry) ∧
          entry.kind ≠ .opaqueDir) ∧
      ((∃ e ∈ es, e.name = name ∧ e.fromUpper = false) ↔
        ∃ entry, lookup upper lower (join '/' dir name) = .ok (.lower entry)) := by
  obtain ⟨hidden, hh, hopaque, hclear⟩ := hvis.isOpaque
  obtain ⟨us, ls, hu, hl⟩ := hread.entries hidden
  obtain ⟨es, hes, hspec⟩ := mem_mergeReaddir hh hu hl
  refine ⟨es, hes, (hspec name).1.trans (lists_upper_iff hupper hrel hn hres hu), ?_⟩
  rw [(hspec name).2]
  simp only [lookup_eq_lower (hrel.join hn.relative hn.1), hres, true_and]
  cases hidden with
  | true =>
    -- Nothing of the lower layer is listed, and the directory hides it from lookups.
    have hop := hopaque.1 rfl
    rw [← ok.inj hl]
    refine iff_of_false (by simp) ?_
    rintro ⟨entry, -, hcl, -⟩
    have hd : dir ≠ [] := fun hd => hroot hd hop
    exact (hcl dir ((above_join hn.2 hd).2 (.inl rfl))).not_hasOpaque hop
  | false =>
    have hcl := hclear.1 rfl
    have hno := hcl.not_hasOpaque
    obtain ⟨found, hfound, hmem⟩ := hupper.entries hrel hn hu
    constructor
    · rintro ⟨hmark, e, he, hname⟩
      have hlook := (hlower.entries hrel hn hl e).1 ⟨he, hname⟩
      refine ⟨e, ?_, clear_above_join hcl hn (habove hno), hlook⟩
      rw [hfound]
      cases found with
      | none => rfl
      | some u =>
        obtain ⟨hin, hname'⟩ := (hmem u).2 rfl
        exact absurd hlook (hover hno ⟨u, hfound, hmark u hin hname'⟩ e)
    · rintro ⟨e, hnone, -, hlook⟩
      obtain ⟨he, hname⟩ := (hlower.entries hrel hn hl e).2 hlook
      refine ⟨fun u hu hname' => ?_, e, he, hname⟩
      have hf := (hmem u).1 ⟨hu, hname'⟩
      rw [hfound, hf] at hnone
      cases hnone

/-- The file of the lower layer that nothing stands over is listed from there. -/
theorem mergeReaddir_lists_shaded :
    ∃ es, mergeReaddir shadingUpper shadedLower "d".toList = .ok es ∧
      ((∃ e ∈ es, e.name = "c".toList ∧ e.fromUpper = true) ↔
        ∃ entry, lookup shadingUpper shadedLower (join '/' "d".toList "c".toList) =
          .ok (.upper entry) ∧ entry.kind ≠ .opaqueDir) ∧
      ((∃ e ∈ es, e.name = "c".toList ∧ e.fromUpper = false) ↔
        ∃ entry, lookup shadingUpper shadedLower (join '/' "d".toList "c".toList) =
          .ok (.lower entry)) := by
  refine mergeReaddir_lists_iff (UpperLayer.agrees_ofEntries (by decide) (by decide))
    (LowerLayer.agrees_ofEntries (by decide) (by decide)) (by decide)
    (.inl ⟨⟨"d".toList, .directory, 0, 0o755⟩, rfl, .inl rfl⟩) ⟨fun _ h => ?_, fun _ h => ?_⟩
    (by decide) (by decide) (fun h => absurd h (by decide)) (fun _ a ha => ?_) (fun _ h => ?_)
  · cases h
  · cases h
  · exact absurd ha (not_above_name (by decide))
  · obtain ⟨entry, hentry, -⟩ := h
    cases hentry

/-- An opaque directory is found by a lookup, and is not listed. -/
theorem not_listsFound_opaque :
    ¬ ∀ (upper : UpperLayer) (lower : LowerLayer) (dir name : Path), upper.Agrees →
      lower.Agrees → Path.Relative '/' dir → Visible upper lower dir →
      Readable upper lower dir → Path.IsName '/' name → isReservedName name = false →
      ListsFound upper lower dir name := by
  intro h
  have hl := h opaqueUpper (.ofEntries []) [] "baz".toList
    (UpperLayer.agrees_ofEntries (by decide) (by decide))
    (LowerLayer.agrees_ofEntries (by decide) (by decide)) (by decide)
    (.inl ⟨⟨[], .directory, 0, 0o755⟩, rfl, .inl rfl⟩)
    ⟨fun _ h => (nomatch h), fun _ h => (nomatch h)⟩ (by decide) (by decide)
  obtain ⟨es, hes, hlisted, -⟩ := hl
  rw [← ok.inj hes] at hlisted
  obtain ⟨e, he, -⟩ := hlisted.2 ⟨⟨"baz".toList, .opaqueDir, 0, 0o755⟩, rfl⟩
  exact not_mem_nil he

end SmallAIOS.Fs.Overlay

import SmallAIOS.Fs.Overlay.Merge

/-!
# What the upper layer hides

A whiteout, an opaque directory or a file of the upper layer is meant to hide what the
lower layer holds below its path: nothing from there is found by a lookup or listed
(`Hides`). Lookups stop only at opaque directories, and listings only look at the
directory they list, so what is hidden depends on what else the upper layer holds.

* `hides_iff`: a path hides the lower layer if every entry of the lower layer below it
  is covered by the upper one on its own (`Covered`).
-/

namespace SmallAIOS.Fs.Overlay

open Lib List

/-- The path is strictly below `p`. -/
def Below (p q : Path) : Prop :=
  ∃ r, r ≠ [] ∧ Path.Relative '/' r ∧ q = Path.join '/' p r

variable (upper : UpperLayer) (lower : LowerLayer)

/-- Nothing of the lower layer is found or listed below the path. -/
structure Hides (p : Path) : Prop where
  lookup : ∀ q, Below p q → ∀ e, Overlay.lookup upper lower q ≠ .ok (.lower e)
  listing : ∀ d, d = p ∨ Below p d → ∀ es, mergeReaddir upper lower d = .ok es →
    ∀ e ∈ es, e.fromUpper = true

/-- The entries of the upper layer in a directory, none if there is no such directory. -/
def UpperLayer.Lists (dir : Path) (us : List UpperEntry) : Prop :=
  upper.iterDir dir = .ok us ∨ us = [] ∧
    (upper.iterDir dir = .error .notFound ∨ upper.iterDir dir = .error .notADirectory)

/-- Below the path, what the lower layer finds has an entry in the upper layer or a directory
    above it that is opaque (or that cannot be looked up), and what the lower layer lists in
    a directory that is not opaque itself is reserved or has an entry in the upper layer that
    is no opaque directory. -/
structure Covered (p : Path) : Prop where
  found : ∀ q, Below p q → ∀ e, lower.lookup q = .ok (some e) →
    upper.lookup q ≠ .ok none ∨ ∃ a, Path.Above '/' a q ∧ ¬ upper.Clear a
  listed : ∀ d, d = p ∨ Below p d → upper.Clear d → ∀ us ls, upper.Lists d us →
    lower.iterDir d = .ok ls → ∀ e ∈ ls, isReservedName e.name = false →
      ∃ u ∈ us, u.name = e.name ∧ u.kind ≠ .opaqueDir

variable {upper lower} {p q d dir : Path} {us : List UpperEntry} {ls : List LowerEntry}

theorem Below.relative (hp : Path.Relative '/' p) (h : Below p q) : Path.Relative '/' q := by
  obtain ⟨r, hne, hr, rfl⟩ := h
  exact hp.join hr hne

theorem upperEntries_eq_ok : upperEntries upper dir = .ok us ↔ upper.Lists dir us := by
  rw [upperEntries, UpperLayer.Lists]
  rcases upper.iterDir dir with e | v
  · cases e <;> simp [eq_comm]
  · simp

theorem isOpaque_eq_false : isOpaque upper dir = .ok false ↔ upper.Clear dir := by
  rw [isOpaque, UpperLayer.Clear]
  rcases upper.lookup dir with e | _ | e <;> simp

theorem mem_of_lowerEntries {e : LowerEntry} (hl : lowerEntries lower false dir = .ok ls)
    (he : e ∈ ls) : lower.iterDir dir = .ok ls := by
  rw [lowerEntries] at hl
  rcases hi : lower.iterDir dir with e' | v
  · rw [hi] at hl
    cases e' with
    | notFound | notADirectory =>
      rw [← Except.ok.inj hl] at he
      exact absurd he not_mem_nil
    | _ => cases hl
  · rw [hi] at hl
    rw [Except.ok.inj hl]

theorem Below.above (hp : p ≠ []) (h : Below p q) : Path.Above '/' p q := by
  obtain ⟨r, -, -, rfl⟩ := h
  exact ⟨r, Path.join_of_ne_nil hp⟩

theorem not_below_self (hp : p ≠ []) : ¬ Below p p := by
  rintro ⟨r, -, -, hr⟩
  rw [Path.join_of_ne_nil hp] at hr
  have := congrArg length hr
  simp at this

/-- An opaque directory covers a lower layer all of whose entries below it are its own. -/
theorem Covered.of_hasOpaque (hp : p ≠ []) (h : upper.HasOpaque p)
    (hflat : ∀ d, Below p d → ∀ ls, lower.iterDir d = .ok ls → ls = []) :
    Covered upper lower p := by
  have hnot : ¬ upper.Clear p := fun hc => hc.not_hasOpaque h
  refine ⟨fun q hq _ _ => .inr ⟨p, hq.above hp, hnot⟩, fun d hd hclear us ls _ hls e he _ => ?_⟩
  rcases hd with rfl | hd
  · exact absurd hclear hnot
  · rw [hflat d hd ls hls] at he
    exact absurd he not_mem_nil

/-- An upper layer with an opaque directory `custom` and a plain one in it. -/
def nestedUpper : UpperLayer := .ofEntries
  [([], ⟨"custom".toList, .opaqueDir, 0, 0o755⟩),
    ("custom".toList, ⟨"sub".toList, .directory, 0, 0o755⟩)]

/-- A lower layer with a file in a directory `custom`. -/
def leafLower : LowerLayer := .ofEntries
  [([], ⟨"custom".toList, .directory, 0, 0o555⟩),
    ("custom".toList, ⟨"leaf".toList, .regularFile, 1, 0o444⟩)]

/-- A lower layer with a file two directories down. -/
def nestedLower : LowerLayer := .ofEntries
  [([], ⟨"custom".toList, .directory, 0, 0o555⟩),
    ("custom".toList, ⟨"sub".toList, .directory, 0, 0o555⟩),
    ("custom/sub".toList, ⟨"x".toList, .regularFile, 1, 0o444⟩)]

/-- A path hides the lower layer if what the lower layer has below it is covered. -/
theorem hides_iff (hp : Path.Relative '/' p) : Hides upper lower p ↔ Covered upper lower p := by
  constructor
  · intro h
    refine ⟨fun q hq e he => ?_, fun d hd hclear us ls hus hls e he hres => ?_⟩
    · by_contra hc
      rw [not_or, not_not, not_exists] at hc
      refine h.lookup q hq e ((lookup_eq_lower (hq.relative hp)).2 ⟨hc.1, fun a ha => ?_, he⟩)
      by_contra hclear
      exact hc.2 a ⟨ha, hclear⟩
    · by_contra hc
      have hle : lowerEntries lower false d = .ok ls := by
        rw [lowerEntries, if_neg (by decide), hls]
      obtain ⟨es, hes, hspec⟩ :=
        mem_mergeReaddir (isOpaque_eq_false.2 hclear) (upperEntries_eq_ok.2 hus) hle
      -- The entry of the lower layer is listed.
      obtain ⟨e', he', -, hfrom⟩ := (hspec e.name).2.2 ⟨hres, fun u hu hn => by
        by_contra hk
        exact hc ⟨u, hu, hn, hk⟩, e, he, rfl⟩
      rw [h.listing d hd es hes e' he'] at hfrom
      cases hfrom
  · intro h
    refine ⟨fun q hq e he => ?_, fun d hd es hes e he => ?_⟩
    · obtain ⟨hnone, hclear, hlow⟩ := (lookup_eq_lower (hq.relative hp)).1 he
      rcases h.found q hq e hlow with hne | ⟨a, ha, hn⟩
      · exact hne hnone
      · exact hn (hclear a ha)
    · by_contra hfrom
      rw [Bool.not_eq_true] at hfrom
      obtain ⟨hidden, us, ls, hh, hu, hl⟩ := of_mergeReaddir hes
      obtain ⟨es', hes', hspec⟩ := mem_mergeReaddir hh hu hl
      rw [hes] at hes'
      cases hes'
      obtain ⟨hres, hmark, e', he', hn'⟩ := (hspec e.name).2.1 ⟨e, he, rfl, hfrom⟩
      cases hidden with
      | true =>
        rw [← Except.ok.inj hl] at he'
        exact not_mem_nil he'
      | false =>
        obtain ⟨u, hu', hn, hk⟩ := h.listed d hd (isOpaque_eq_false.1 hh) us ls
          (upperEntries_eq_ok.1 hu) (mem_of_lowerEntries hl he') e' he' (hn' ▸ hres)
        exact hk (hmark u hu' (hn.trans hn'))

/-- The opaque directory hides the file below it. -/
theorem hides_leaf : Hides nestedUpper leafLower "custom".toList := by
  refine (hides_iff (by decide)).2 (Covered.of_hasOpaque (by decide)
    ⟨⟨"custom".toList, .opaqueDir, 0, 0o755⟩, rfl, rfl⟩ fun d hd ls hls => ?_)
  have hcustom : d ≠ "custom".toList := by
    rintro rfl
    exact not_below_self (by decide) hd
  have hroot : d ≠ [] := by
    rintro rfl
    obtain ⟨r, hr⟩ := hd.above (by decide)
    cases hr
  rw [← Except.ok.inj hls]
  refine eq_nil_iff_forall_not_mem.2 fun e he => ?_
  have hmem := Path.mem_list.1 he
  rcases mem_cons.1 hmem with h | h
  · exact hroot (congrArg Prod.fst h)
  · exact hcustom (congrArg Prod.fst (mem_singleton.1 h))

/-- In a plain directory below an opaque one, what the lower layer has is listed. -/
theorem not_hides_nested :
    ¬ ∀ (upper : UpperLayer) (lower : LowerLayer) (p : Path), Path.Relative '/' p →
      (∃ e, upper.lookup p = .ok (some e) ∧ e.kind ≠ .directory) → Hides upper lower p := by
  intro h
  have hides := h nestedUpper nestedLower "custom".toList (by decide)
    ⟨⟨"custom".toList, .opaqueDir, 0, 0o755⟩, rfl, by decide⟩
  have hlist : mergeReaddir nestedUpper nestedLower "custom/sub".toList =
      .ok [⟨"x".toList, .regularFile, 1, false⟩] := rfl
  have := hides.listing _ (.inr ⟨"sub".toList, by decide, by decide, rfl⟩) _ hlist _ mem_cons_self
  cases this

end SmallAIOS.Fs.Overlay

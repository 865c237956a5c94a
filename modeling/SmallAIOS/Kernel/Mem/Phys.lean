import SmallAIOS.Kernel.Mem.Basic
import SmallAIOS.Lib.Run
import Mathlib.Data.List.Pairwise
import Mathlib.Order.Interval.Set.Defs

/-!
# The physical memory map

The map lists the regions of memory found at boot. Before the usable ones are handed to the
allocator, ranges that are in use are excluded from them: a usable region is left alone, marked
as the kernel's, shrunk, or split in two.

The loop walks the array it changes, and the upper half of a region that is split is appended to
it. Since such a half lies after the range, the loop leaves it alone when it comes to it, and the
outcome can be read off the regions one by one (`shrunk` and `split`).

Additions wrap around, as they do in a release build. If no usable region that begins before the
end of the range reaches the end of the address space, the addresses that remain usable are those
that were and are not in the range (`usable_excludeRange`). The end of such a region wraps around to
an address before it, and the range is not excluded (`excludeRange_topMap`).
-/

namespace SmallAIOS.Mem

open List Option

/-- Maximum number of physical memory regions. -/
def maxRegions : ℕ := 64

/-- Type of a physical memory region. -/
inductive RegionKind
  | usable
  | reserved
  | acpiReclaimable
  | kernel
  deriving DecidableEq

/-- A contiguous physical memory region. -/
structure MemRegion where
  base : ℕ
  size : ℕ
  kind : RegionKind
  deriving DecidableEq

/-- The end of the region, a machine word. -/
def MemRegion.stop (r : MemRegion) : ℕ := (r.base + r.size) % 2 ^ 64

/-- Physical memory map built during boot: the regions in use of an array of `maxRegions`. -/
structure PhysMemoryMap where
  regions : List MemRegion
  count_le : regions.length ≤ maxRegions
  deriving DecidableEq

namespace PhysMemoryMap

def count (m : PhysMemoryMap) : ℕ := m.regions.length

/-- Overwrite the region `i`. -/
def setRegion (m : PhysMemoryMap) (i : ℕ) (r : MemRegion) : PhysMemoryMap where
  regions := m.regions.set i r
  count_le := (length_set ..).trans_le m.count_le

/-- Add a region to the memory map. Returns false if the map is full. -/
def addRegion (m : PhysMemoryMap) (base size : ℕ) (kind : RegionKind) : Bool × PhysMemoryMap :=
  if h : maxRegions ≤ m.count then (false, m)
  else (true, ⟨m.regions ++ [⟨base, size, kind⟩], by
    rw [length_append]; exact Nat.lt_of_not_le h⟩)

/-- Iterate over usable regions only. -/
def usableRegions (m : PhysMemoryMap) : List MemRegion := m.regions.filter (·.kind = .usable)

/-- What the exclusion of `[exclBase, exclEnd)` does to the region `r` at `i`. -/
def excludeAt (exclBase exclEnd i : ℕ) (r : MemRegion) (m : PhysMemoryMap) : PhysMemoryMap :=
  if r.kind ≠ .usable then m
  -- No overlap
  else if exclEnd ≤ r.base ∨ r.stop ≤ exclBase then m
  -- Full overlap
  else if exclBase ≤ r.base ∧ r.stop ≤ exclEnd then m.setRegion i { r with kind := .kernel }
  -- The exclusion splits the region
  else if r.base < exclBase ∧ exclEnd < r.stop then
    ((m.setRegion i { r with size := exclBase - r.base }).addRegion exclEnd (r.stop - exclEnd)
      .usable).2
  -- Overlap at the start
  else if exclBase ≤ r.base then
    m.setRegion i { r with base := exclEnd, size := r.stop - exclEnd }
  -- Overlap at the end
  else m.setRegion i { r with size := exclBase - r.base }

/-- The loop from the index `i` on. It makes one round for every region, so that `maxRegions`
    rounds are enough. -/
def excludeLoop (exclBase exclEnd : ℕ) : ℕ → ℕ → PhysMemoryMap → PhysMemoryMap
  | 0, _, m => m
  | fuel + 1, i, m =>
    match m.regions[i]? with
    | none => m
    | some r => excludeLoop exclBase exclEnd fuel (i + 1) (m.excludeAt exclBase exclEnd i r)

/-- Exclude a range from usable regions. -/
def excludeRange (m : PhysMemoryMap) (exclBase exclSize : ℕ) : PhysMemoryMap :=
  excludeLoop exclBase ((exclBase + exclSize) % 2 ^ 64) maxRegions 0 m

/-! ## Single regions -/

section Regions

variable (exclBase exclEnd : ℕ) (r : MemRegion)

/-- The region has memory before the exclusion and after it. -/
def Contains : Prop :=
  r.kind = .usable ∧ r.base < exclBase ∧ exclEnd < r.base + r.size
  deriving Decidable

/-- The region after the exclusion, at its place in the array. -/
def shrunk : MemRegion :=
  if r.kind ≠ .usable ∨ exclEnd ≤ r.base ∨ r.stop ≤ exclBase then r
  else if exclBase ≤ r.base ∧ r.stop ≤ exclEnd then { r with kind := .kernel }
  else if exclBase ≤ r.base then { r with base := exclEnd, size := r.stop - exclEnd }
  else { r with size := exclBase - r.base }

/-- The upper half of a region that is split. -/
def split : Option MemRegion :=
  if r.kind = .usable ∧ r.base < exclBase ∧ exclEnd < r.stop then
    some ⟨exclEnd, r.stop - exclEnd, .usable⟩
  else none

variable {r} {lo hi : ℕ}

theorem shrunk_of_ne_usable (h : r.kind ≠ .usable) : shrunk lo hi r = r :=
  if_pos (.inl h)

/-- An upper half lies after the exclusion. -/
theorem le_base_of_split {r' : MemRegion} (h : split lo hi r = some r') : hi ≤ r'.base := by
  rw [split] at h
  split_ifs at h
  cases h
  exact le_rfl

/-- An upper half stays as it is. -/
theorem map_shrunk_split : (split lo hi r).toList.map (shrunk lo hi) = (split lo hi r).toList := by
  cases hs : split lo hi r with
  | none => rfl
  | some r' => exact congrArg (fun r => [r]) (if_pos (.inr (.inl (le_base_of_split hs))))

theorem filterMap_split_split (hle : lo ≤ hi) :
    (split lo hi r).toList.filterMap (split lo hi) = [] :=
  filterMap_eq_nil_iff.2 fun _ hr' =>
    if_neg fun hc => not_lt.2 (hle.trans (le_base_of_split (mem_toList.1 hr'))) hc.2.1

/-- Only a region that has memory on both sides is split. -/
theorem isSome_split (h : (split lo hi r).isSome) : Contains lo hi r := by
  rw [split] at h
  split_ifs at h with hc
  · exact ⟨hc.1, hc.2.1, hc.2.2.trans_le (Nat.mod_le ..)⟩
  · cases h

end Regions

/-! ## The loop -/

variable {m : PhysMemoryMap} {lo hi : ℕ} {done rest : List MemRegion} {r r' : MemRegion}

theorem regions_setRegion (h : m.regions = done ++ r :: rest) :
    (m.setRegion done.length r').regions = done ++ r' :: rest := by
  change m.regions.set done.length r' = _
  rw [h, set_append_right _ _ le_rfl, Nat.sub_self, set_cons_zero]

theorem regions_addRegion {base size : ℕ} {kind : RegionKind} (h : m.count < maxRegions) :
    (m.addRegion base size kind).2.regions = m.regions ++ [⟨base, size, kind⟩] := by
  rw [addRegion, dif_neg (not_le.2 h)]

/-- One round of the loop. -/
theorem regions_excludeAt (hle : lo ≤ hi) (h : m.regions = done ++ r :: rest)
    (hroom : (split lo hi r).isSome → m.count < maxRegions) :
    (m.excludeAt lo hi done.length r).regions =
      done ++ shrunk lo hi r :: rest ++ (split lo hi r).toList := by
  rw [excludeAt]
  -- The cases of the source, in its order.
  split_ifs with hkind hno hfull hsplit hstart
  · rw [shrunk_of_ne_usable hkind, split, if_neg fun hc => hkind hc.1, h]
    simp
  · rw [shrunk, if_pos (.inr hno), split, if_neg (by omega), h]
    simp
  · rw [shrunk, if_neg (by tauto), if_pos hfull, split, if_neg (by omega), regions_setRegion h]
    simp
  · have hs : split lo hi r = some ⟨hi, r.stop - hi, .usable⟩ :=
      if_pos ⟨not_not.1 hkind, hsplit⟩
    rw [shrunk, if_neg (by tauto), if_neg hfull, if_neg (by omega), hs, regions_addRegion
      (m := m.setRegion ..) (length_set.trans_lt (hroom (hs ▸ rfl))), regions_setRegion h]
    rfl
  · rw [shrunk, if_neg (by tauto), if_neg hfull, if_pos hstart, split, if_neg fun hc =>
      hsplit hc.2, regions_setRegion h]
    simp
  · rw [shrunk, if_neg (by tauto), if_neg hfull, if_neg hstart, split, if_neg fun hc =>
      hsplit hc.2, regions_setRegion h]
    simp

/-- The loop changes every region that it has not come to yet, and appends the upper halves. It
    later comes to these too, but they lie after the exclusion. -/
theorem regions_excludeLoop (hle : lo ≤ hi) {fuel : ℕ} {done todo : List MemRegion}
    (h : m.regions = done ++ todo) (hfuel : maxRegions ≤ done.length + fuel)
    (hroom : m.count + (todo.filterMap (split lo hi)).length ≤ maxRegions) :
    (excludeLoop lo hi fuel done.length m).regions =
      done ++ todo.map (shrunk lo hi) ++ todo.filterMap (split lo hi) := by
  induction fuel generalizing m done todo with
  | zero =>
    have hcount := m.count_le
    rw [h, length_append] at hcount
    have htodo : todo = [] := length_eq_zero_iff.1 (by omega)
    subst htodo
    rw [excludeLoop, h]
    simp
  | succ fuel ih =>
    cases todo with
    | nil =>
      rw [excludeLoop, h, append_nil, getElem?_eq_none le_rfl]
      simp [h]
    | cons r rest =>
      have hget : m.regions[done.length]? = some r := by
        rw [h, getElem?_append_right le_rfl, Nat.sub_self]
        rfl
      rw [excludeLoop, hget]
      dsimp only
      -- The upper half of `r`, if there is one, is left for a later round.
      have hroom' : m.count + ((split lo hi r).toList.length +
          (rest.filterMap (split lo hi)).length) ≤ maxRegions := by
        rwa [Lib.filterMap_cons_toList, length_append] at hroom
      have hreg := regions_excludeAt hle h fun hs => by
        obtain ⟨r', hr'⟩ := isSome_iff_exists.1 hs
        rw [hr', toList_some, length_singleton] at hroom'
        omega
      have hcount : (m.excludeAt lo hi done.length r).count =
          m.count + (split lo hi r).toList.length := by
        rw [count, count, hreg, h]
        simp only [length_append, length_cons]
      have hreg' : (m.excludeAt lo hi done.length r).regions = (done ++ [shrunk lo hi r]) ++
          (rest ++ (split lo hi r).toList) := by
        rw [hreg, append_assoc, append_assoc]
        rfl
      have hregs := ih hreg' (by rw [length_append, length_singleton]; omega)
        (by rw [filterMap_append, filterMap_split_split hle, append_nil]; omega)
      rw [length_append, length_singleton] at hregs
      rw [hregs, Lib.filterMap_cons_toList, map_append, map_shrunk_split,
        filterMap_append, filterMap_split_split hle]
      simp only [append_assoc, map_cons, append_nil, nil_append, cons_append]

/-- The regions after the exclusion: each one at its place, and then the upper halves. -/
theorem regions_excludeRange {exclSize : ℕ} (hend : lo + exclSize < 2 ^ 64)
    (hroom : m.count + m.regions.countP (Contains lo (lo + exclSize)) ≤ maxRegions) :
    (m.excludeRange lo exclSize).regions = m.regions.map (shrunk lo (lo + exclSize)) ++
      m.regions.filterMap (split lo (lo + exclSize)) := by
  have hlen : (m.regions.filterMap (split lo (lo + exclSize))).length ≤
      m.regions.countP (Contains lo (lo + exclSize)) := by
    rw [length_filterMap_eq_countP]
    exact countP_mono_left fun r _ hs => decide_eq_true (isSome_split hs)
  rw [excludeRange, Nat.mod_eq_of_lt hend]
  exact regions_excludeLoop (Nat.le_add_right _ _) (nil_append _).symm (Nat.le_add_left _ _)
    (by omega)

/-! ## Addresses -/

/-- The addresses in usable regions. -/
def usable (m : PhysMemoryMap) : Set ℕ :=
  {a | ∃ r ∈ m.usableRegions, a ∈ Set.Ico r.base (r.base + r.size)}

/-- The address is usable, and in the region. -/
def Holds (r : MemRegion) (a : ℕ) : Prop := r.kind = .usable ∧ r.base ≤ a ∧ a < r.base + r.size

variable {a : ℕ}

theorem mem_usable : a ∈ m.usable ↔ ∃ r ∈ m.regions, Holds r a := by
  simp only [usable, usableRegions, Set.mem_ofPred_eq, mem_filter, decide_eq_true_eq,
    and_assoc, Set.mem_Ico, Holds]

/-- The fields of the regions are machine words. -/
def Words (m : PhysMemoryMap) : Prop := ∀ r ∈ m.regions, r.base < 2 ^ 64 ∧ r.size < 2 ^ 64

/-- No address is in two usable regions. -/
def Separate (m : PhysMemoryMap) : Prop :=
  m.regions.Pairwise fun r r' => ∀ a, Holds r a → ¬Holds r' a

/-- The end of the region is an address, if it is usable and the exclusion reaches into it. -/
def Clear (lo hi : ℕ) (r : MemRegion) : Prop :=
  r.kind = .usable → r.base + r.size < 2 ^ 64 ∨ hi ≤ r.base ∨ hi ≤ lo

instance : Decidable (Clear lo hi r) := inferInstanceAs (Decidable (_ → _))

theorem stop_eq (hb : r.base < 2 ^ 64) (hs : r.size < 2 ^ 64) :
    r.stop = if r.base + r.size < 2 ^ 64 then r.base + r.size else r.base + r.size - 2 ^ 64 := by
  rw [MemRegion.stop]
  split_ifs <;> omega

theorem holds_split : (∃ r' ∈ split lo hi r, Holds r' a) ↔
    (r.kind = .usable ∧ r.base < lo ∧ hi < r.stop) ∧ hi ≤ a ∧ a < r.stop := by
  rw [split]
  split_ifs with hc
  · simp only [mem_def, some.injEq, exists_eq_left', Holds, true_and, hc]
    omega
  · simp [hc]

/-- The address is in what is left of the region. -/
def Left (lo hi : ℕ) (r : MemRegion) (a : ℕ) : Prop :=
  Holds (shrunk lo hi r) a ∨ ∃ r' ∈ split lo hi r, Holds r' a

/-- What is left of a region is what is not excluded of it. But if its end is no address, it is left
    as it is, or is no longer usable. -/
theorem left_iff (hle : lo ≤ hi) (hhi : hi < 2 ^ 64) (hw : r.base < 2 ^ 64 ∧ r.size < 2 ^ 64) :
    Left lo hi r a ↔
      Holds r a ∧ if Clear lo hi r then ¬(lo ≤ a ∧ a < hi) else r.stop ≤ lo := by
  rw [Left, holds_split]
  by_cases hk : r.kind = .usable
  · have hstop := stop_eq hw.1 hw.2
    have hclear : Clear lo hi r ↔ r.base + r.size < 2 ^ 64 ∨ hi ≤ r.base ∨ hi ≤ lo :=
      forall_prop_of_true hk
    rw [shrunk]
    simp only [hclear, hk, true_and, ne_eq, not_true_eq_false, false_or]
    split_ifs at hstop ⊢ <;>
      simp only [Holds, hk, true_and, reduceCtorEq, false_and, false_or] <;> omega
  · rw [shrunk_of_ne_usable hk]
    simp [Holds, hk]

section

variable {exclSize : ℕ} (hword : m.Words) (hend : lo + exclSize < 2 ^ 64)
  (hroom : m.count + m.regions.countP (Contains lo (lo + exclSize)) ≤ maxRegions)
include hword hend hroom

/-- The addresses that stay usable. -/
theorem mem_usable_excludeRange : a ∈ (m.excludeRange lo exclSize).usable ↔
    ∃ r ∈ m.regions, Holds r a ∧
      if Clear lo (lo + exclSize) r then ¬(lo ≤ a ∧ a < lo + exclSize) else r.stop ≤ lo := by
  have hleft (r) (hr : r ∈ m.regions) :=
    left_iff (a := a) (Nat.le_add_right lo exclSize) hend (hword r hr)
  rw [mem_usable, regions_excludeRange hend hroom]
  constructor
  · rintro ⟨r', hr', ha⟩
    rcases mem_append.1 hr' with hr' | hr'
    · obtain ⟨r, hr, rfl⟩ := mem_map.1 hr'
      exact ⟨r, hr, (hleft r hr).1 (.inl ha)⟩
    · obtain ⟨r, hr, hs⟩ := mem_filterMap.1 hr'
      exact ⟨r, hr, (hleft r hr).1 (.inr ⟨r', hs, ha⟩)⟩
  · rintro ⟨r, hr, ha⟩
    rcases (hleft r hr).2 ha with ha | ⟨r', hs, ha⟩
    · exact ⟨_, mem_append_left _ (mem_map_of_mem hr), ha⟩
    · exact ⟨r', mem_append_right _ (mem_filterMap.2 ⟨r, hr, hs⟩), ha⟩

/-- If the range is excluded, the end of every usable region that it reaches into is an address. -/
theorem clear_of_usable_eq (hsep : m.Separate) (hr : r ∈ m.regions)
    (heq : (m.excludeRange lo exclSize).usable = m.usable \ Set.Ico lo (lo + exclSize)) :
    Clear lo (lo + exclSize) r := by
  have hmem {a : ℕ} := mem_usable_excludeRange (a := a) hword hend hroom
  by_contra hc
  have hover := hc
  rw [Clear] at hover
  push Not at hover
  obtain ⟨hk, hover, hbase, hlt⟩ := hover
  by_cases hno : r.stop ≤ lo
  · -- The region is as it was, with the first address of it that is excluded.
    have hin := hmem.2 ⟨r, hr, ⟨hk, le_max_left _ lo, by omega⟩, by rwa [if_neg hc]⟩
    rw [heq] at hin
    exact hin.2 ⟨le_max_right .., by omega⟩
  · -- The region is not usable any more, and it had the first address after the range.
    have hholds : Holds r (lo + exclSize) := ⟨hk, by omega, by omega⟩
    have hin : lo + exclSize ∈ (m.excludeRange lo exclSize).usable := by
      rw [heq]
      exact ⟨mem_usable.2 ⟨r, hr, hholds⟩, fun hmem => hmem.2.false⟩
    obtain ⟨r', hr', hholds', hstays⟩ := hmem.1 hin
    have hne : r ≠ r' := by
      rintro rfl
      rw [if_neg hc] at hstays
      exact hno hstays
    have : Std.Symm fun r r' => ∀ a, Holds r a → ¬Holds r' a := ⟨fun _ _ h a ha ha' => h a ha' ha⟩
    exact hsep.forall hr hr' hne _ hholds hholds'

end

/-- No region that is not usable changes. The addresses of usable regions after the exclusion are
    those before it which are not in the range, if the end of every usable region that the range
    reaches into is an address, and only then if no address is in two usable regions. The end of the
    range is an address, and the map has room for the regions that are split. -/
theorem usable_excludeRange (m : PhysMemoryMap) (exclBase exclSize : ℕ) (hword : m.Words)
    (hend : exclBase + exclSize < 2 ^ 64)
    (hroom : m.count + m.regions.countP (Contains exclBase (exclBase + exclSize)) ≤ maxRegions) :
    (∀ (i : ℕ) (r : MemRegion), m.regions[i]? = some r → r.kind ≠ .usable →
      (m.excludeRange exclBase exclSize).regions[i]? = some r) ∧
    ((∀ r ∈ m.regions, Clear exclBase (exclBase + exclSize) r) →
      (m.excludeRange exclBase exclSize).usable =
        m.usable \ Set.Ico exclBase (exclBase + exclSize)) ∧
    (m.Separate → (m.excludeRange exclBase exclSize).usable =
        m.usable \ Set.Ico exclBase (exclBase + exclSize) →
      ∀ r ∈ m.regions, Clear exclBase (exclBase + exclSize) r) := by
  refine ⟨fun i r hi hk => ?_, fun hclear => ?_,
    fun hsep heq r hr => clear_of_usable_eq hword hend hroom hsep hr heq⟩
  · have hlt := (List.getElem?_eq_some_iff.1 hi).1
    rw [regions_excludeRange hend hroom, getElem?_append_left (by rwa [length_map]), getElem?_map,
      hi, map_some, shrunk_of_ne_usable hk]
  · ext a
    rw [Set.mem_sdiff, mem_usable_excludeRange hword hend hroom, mem_usable]
    constructor
    · rintro ⟨r, hr, hra, hout⟩
      rw [if_pos (hclear r hr)] at hout
      exact ⟨⟨r, hr, hra⟩, hout⟩
    · rintro ⟨⟨r, hr, hra⟩, hout⟩
      exact ⟨r, hr, hra, by rwa [if_pos (hclear r hr)]⟩

/-- A usable region and a reserved one. -/
def smallMap : PhysMemoryMap :=
  ⟨[⟨0x1000, 0x8000, .usable⟩, ⟨0xA000, 0x1000, .reserved⟩], by decide⟩

/-- An exclusion that splits a region. -/
theorem usable_excludeRange_smallMap :
    (smallMap.excludeRange 0x3000 0x2000).regions = [⟨0x1000, 0x2000, .usable⟩,
      ⟨0xA000, 0x1000, .reserved⟩, ⟨0x5000, 0x4000, .usable⟩] ∧
    (smallMap.excludeRange 0x3000 0x2000).usable =
      smallMap.usable \ Set.Ico 0x3000 (0x3000 + 0x2000) :=
  ⟨by decide, (usable_excludeRange smallMap 0x3000 0x2000 (by unfold Words; decide) (by decide)
    (by decide)).2.1 (by decide)⟩

/-- A usable region up to the last address. -/
def topMap : PhysMemoryMap := ⟨[⟨2 ^ 64 - 0x2000, 0x2000, .usable⟩], by decide⟩

/-- The end of the region wraps around to zero. Its first half is excluded, and is usable all the
    same. -/
theorem excludeRange_topMap :
    (2 ^ 64 - 0x2000) + 0x1000 < 2 ^ 64 ∧
      topMap.count + topMap.regions.countP
        (Contains (2 ^ 64 - 0x2000) (2 ^ 64 - 0x2000 + 0x1000)) ≤ maxRegions ∧
      (topMap.excludeRange (2 ^ 64 - 0x2000) 0x1000).usable ≠
        topMap.usable \ Set.Ico (2 ^ 64 - 0x2000) (2 ^ 64 - 0x2000 + 0x1000) := by
  have hsame : topMap.excludeRange (2 ^ 64 - 0x2000) 0x1000 = topMap := by decide
  have hin : 2 ^ 64 - 0x2000 ∈ topMap.usable :=
    mem_usable.2 ⟨⟨2 ^ 64 - 0x2000, 0x2000, .usable⟩, mem_singleton_self _, rfl, by decide,
      by decide⟩
  refine ⟨by decide, by decide, fun heq => ?_⟩
  rw [hsame] at heq
  exact (heq ▸ hin).2 ⟨le_rfl, by decide⟩

end PhysMemoryMap

end SmallAIOS.Mem

import SmallAIOS.Kernel.Mem.BuddyRun

/-!
# Frees of what is not outstanding

A free of something that was not handed out should be refused and change nothing. The allocator
tests one bit: whether the first page of the block is marked in the page bitmap.

* A free is refused, in every state reached by any calls, if the page is not one of an
  outstanding block and the bitmap has a bit for it, or if the address and the order fail a test
  that comes before (`Refusable`, `free_refused`). A free that is refused leaves the
  allocator as it was, so this also holds after such frees.
* No other free is refused in the runs over one region (`Run.free_refused_iff`). The first page
  of a block with the wrong order, or a page within a larger block, is freed, and for an address
  far above the region the test of the bit panics.
-/

namespace SmallAIOS.Mem.BuddyAllocator

open Lib Option BuddyAllocator

variable {maxPages base addr order k i : ℕ} {b b' : BuddyAllocator maxPages} {out : List (ℕ × ℕ)}

/-! ## Calls -/

/-- The address and the order pass the tests before that of the page bitmap. -/
def WellPlaced (base addr order : ℕ) : Prop :=
  order ≤ maxOrder ∧ isAligned addr pageSize4K = true ∧ base ≤ addr ∧
    (addr - base) / pageSize4K % 2 ^ order = 0

/-- The block is not well placed, or its first page has a bit and is in no outstanding block. -/
def Refusable (maxPages base : ℕ) (out : List (ℕ × ℕ)) (addr order : ℕ) : Prop :=
  WellPlaced base addr order →
    (addr - base) / pageSize4K < 64 * bitmapWords maxPages ∧
      ∀ y ∈ out, (addr - base) / pageSize4K ∉ outPages base y

/-- The allocator is reached by any calls; `out` are the blocks allocated and not freed since.
    Memory is initialised while nothing is outstanding, and what is freed is outstanding or can
    be refused. -/
inductive CallRun (maxPages : ℕ) : List (ℕ × ℕ) → BuddyAllocator maxPages → Prop
  | new : CallRun maxPages [] new
  | init {b b' : BuddyAllocator maxPages} {base size : ℕ} :
    CallRun maxPages [] b → b.init base size = some b' → CallRun maxPages [] b'
  | addFreeRegion {b b' : BuddyAllocator maxPages} {out : List (ℕ × ℕ)} {start size : ℕ} :
    CallRun maxPages out b → b.addFreeRegion start size = some b' → CallRun maxPages out b'
  | allocate {b b' : BuddyAllocator maxPages} {out : List (ℕ × ℕ)} {addr order : ℕ} :
    CallRun maxPages out b → b.allocate order = some (.ok addr, b') →
      CallRun maxPages ((addr, order) :: out) b'
  | allocateError {b b' : BuddyAllocator maxPages} {out : List (ℕ × ℕ)} {e : MemError}
      {order : ℕ} :
    CallRun maxPages out b → b.allocate order = some (.error e, b') → CallRun maxPages out b'
  | free {b b' : BuddyAllocator maxPages} {out : List (ℕ × ℕ)} {addr order : ℕ} :
    CallRun maxPages out b → (addr, order) ∈ out → b.free addr order = some (.ok (), b') →
      CallRun maxPages (out.erase (addr, order)) b'
  | freeError {b b' : BuddyAllocator maxPages} {out : List (ℕ × ℕ)} {e : MemError}
      {addr order : ℕ} :
    CallRun maxPages out b → (addr, order) ∈ out → b.free addr order = some (.error e, b') →
      CallRun maxPages out b'
  | freeRefusable {b b' : BuddyAllocator maxPages} {out : List (ℕ × ℕ)}
      {r : Except MemError Unit} {addr order : ℕ} :
    CallRun maxPages out b → Refusable maxPages b.base out addr order →
      b.free addr order = some (r, b') → CallRun maxPages out b'

/-! ## What single calls do to the page bitmap -/

theorem frame_setFree (h : b.setFree k i = some b') : Frame b b' := by
  obtain ⟨m, hm, rfl⟩ := map_eq_some_iff.1 h
  exact frame_setOrder ((OrderBitmap.setFree_spec _ _).post m hm).1

theorem frame_setAllocated (h : b.setAllocated k i = some b') : Frame b b' := by
  obtain ⟨m, hm, rfl⟩ := map_eq_some_iff.1 h
  exact frame_setOrder ((OrderBitmap.setAllocated_spec _ _).post m hm).1

theorem frame_splitDown {k current idx : ℕ} {r : ℕ × BuddyAllocator maxPages}
    (h : splitDown k current idx b = some r) : Frame b r.2 := by
  induction current generalizing idx b with
  | zero => cases h; exact .refl b
  | succ current ih =>
    rw [splitDown] at h
    split at h
    · obtain ⟨b1, hb1, h⟩ := bind_eq_some_iff.1 h
      exact (frame_setFree hb1).trans (ih h)
    · cases h; exact .refl b

theorem frame_mergeUp {k idx : ℕ} {r : ℕ × ℕ × BuddyAllocator maxPages}
    (h : mergeUp k idx b = some r) : Frame b r.2.2 := by
  fun_induction mergeUp k idx b with
  | case1 | case3 | case5 => cases h; exact .refl _
  | case2 => cases h
  | case4 k idx b hlt hin hfree ih =>
    obtain ⟨b1, hb1, h⟩ := bind_eq_some_iff.1 h
    exact (frame_setAllocated hb1).trans (ih b1 h)

/-- Adding free memory leaves the page bitmap alone. -/
theorem allocMap_addBlocks {start stop : ℕ} (h : b.addBlocks start stop = some b') :
    b'.base = b.base ∧ b'.allocMap = b.allocMap := by
  fun_induction addBlocks b start stop with
  | case1 => cases h
  | case2 => cases h
  | case3 b start hlt hge b1 hb1 ih =>
    have hfr := frame_setFree hb1
    obtain ⟨hbase, hmap⟩ := ih h
    exact ⟨hbase.trans hfr.base, hmap.trans hfr.allocMap⟩
  | case4 => cases h; exact ⟨rfl, rfl⟩

theorem allocMap_addFreeRegion {start size : ℕ} (h : b.addFreeRegion start size = some b') :
    b'.base = b.base ∧ b'.allocMap = b.allocMap := by
  rw [addFreeRegion] at h
  split at h
  · cases h; exact ⟨rfl, rfl⟩
  · obtain ⟨stop, -, h⟩ := bind_eq_some_iff.1 h
    exact allocMap_addBlocks h

/-- An allocation fails and changes nothing, or marks the pages of the block it returns. -/
theorem allocate_cases {r : Except MemError ℕ} (h : b.allocate order = some (r, b')) :
    (∃ e, r = .error e ∧ b' = b) ∨
    ∃ addr, r = .ok addr ∧ b'.base = b.base ∧
      ∀ p, b'.allocMap.mem p =
        (decide (p ∈ outPages b.base (addr, order)) || b.allocMap.mem p) := by
  rw [allocate] at h
  split at h
  · cases h; exact .inl ⟨_, rfl, rfl⟩
  split at h
  · cases h; exact .inl ⟨_, rfl, rfl⟩
  obtain ⟨j, -, h⟩ := bind_eq_some_iff.1 h
  obtain ⟨b1, hb1, h⟩ := bind_eq_some_iff.1 h
  obtain ⟨⟨i, b2⟩, hb2, h⟩ := bind_eq_some_iff.1 h
  obtain ⟨a, ha, h⟩ := bind_eq_some_iff.1 h
  have hfr : Frame b b2 := (frame_setAllocated hb1).trans (frame_splitDown hb2)
  split at h
  · cases h
  obtain ⟨m, hm, h⟩ := bind_eq_some_iff.1 h
  cases h
  obtain ⟨-, rfl⟩ := checkedAdd_eq_some.1 ha
  refine .inr ⟨_, rfl, hfr.base, fun p => ?_⟩
  have hpage : (b2.base + i * 2 ^ order * pageSize4K - b.base) / pageSize4K = i * 2 ^ order := by
    rw [hfr.base, Nat.add_sub_cancel_left, Nat.mul_div_cancel _ (by decide)]
  rw [(markAllocated_spec _ _ _).post m hm, hfr.allocMap, outPages, hpage]
  simp only [Finset.mem_Ico]

/-- A free fails and changes nothing, or clears the pages of the block. -/
theorem free_cases {r : Except MemError Unit} (h : b.free addr order = some (r, b')) :
    (∃ e, r = .error e ∧ b' = b) ∨
    r = .ok () ∧ b'.base = b.base ∧
      ∀ p, b'.allocMap.mem p =
        (!decide (p ∈ outPages b.base (addr, order)) && b.allocMap.mem p) := by
  rw [free] at h
  split at h
  · cases h; exact .inl ⟨_, rfl, rfl⟩
  split at h
  · cases h; exact .inl ⟨_, rfl, rfl⟩
  split at h
  · cases h; exact .inl ⟨_, rfl, rfl⟩
  split at h
  · cases h; exact .inl ⟨_, rfl, rfl⟩
  obtain ⟨marked, -, h⟩ := bind_eq_some_iff.1 h
  split at h
  · cases h; exact .inl ⟨_, rfl, rfl⟩
  obtain ⟨m, hm, h⟩ := bind_eq_some_iff.1 h
  obtain ⟨⟨k, i, b1⟩, hb1, h⟩ := bind_eq_some_iff.1 h
  obtain ⟨b2, hb2, h⟩ := bind_eq_some_iff.1 h
  cases h
  have hfr := (frame_mergeUp hb1).trans (frame_setFree hb2)
  refine .inr ⟨rfl, hfr.base, fun p => ?_⟩
  rw [hfr.allocMap, outPages]
  simp only [(markFree_spec _ _ _).post m hm, Finset.mem_Ico]

/-- A free is refused exactly if it fails one of the tests. -/
theorem free_error_iff :
    (∃ e, b.free addr order = some (.error e, b)) ↔
      (WellPlaced b.base addr order →
        b.allocMap.mem? ((addr - b.base) / pageSize4K) = some false) := by
  rw [free, WellPlaced]
  split_ifs with hk hal hbase hmod
  · exact iff_of_true ⟨_, rfl⟩ fun h => absurd h.1 (not_le.2 hk)
  · exact iff_of_true ⟨_, rfl⟩ fun h => by simp [h.2.1] at hal
  · exact iff_of_true ⟨_, rfl⟩ fun h => absurd h.2.2.1 (not_le.2 hbase)
  · exact iff_of_true ⟨_, rfl⟩ fun h => absurd h.2.2.2 hmod
  · dsimp only
    have hplaced : order ≤ maxOrder ∧ isAligned addr pageSize4K = true ∧ b.base ≤ addr ∧
        (addr - b.base) / pageSize4K % 2 ^ order = 0 :=
      ⟨not_lt.1 hk, by simpa using hal, not_lt.1 hbase, not_not.1 hmod⟩
    rw [forall_prop_of_true hplaced]
    cases hm : b.allocMap.mem? ((addr - b.base) / pageSize4K) with
    | none => simp
    | some r =>
      cases r with
      | false => exact iff_of_true ⟨_, rfl⟩ rfl
      | true =>
        refine iff_of_false ?_ (by simp)
        rintro ⟨e, h⟩
        rw [bind_eq_bind, bind_some] at h
        obtain ⟨m, -, h⟩ := bind_eq_some_iff.1 h
        obtain ⟨⟨k, i, b1⟩, -, h⟩ := bind_eq_some_iff.1 h
        obtain ⟨b2, -, h⟩ := bind_eq_some_iff.1 h
        cases h

/-! ## Runs -/

/-- The pages marked are pages of outstanding blocks. -/
def Covered (out : List (ℕ × ℕ)) (b : BuddyAllocator maxPages) : Prop :=
  ∀ p, b.allocMap.mem p = true → ∃ y ∈ out, p ∈ outPages b.base y

theorem Covered.refuses (h : Covered out b) (hr : Refusable maxPages b.base out addr order) :
    ∃ e, b.free addr order = some (.error e, b) := by
  refine free_error_iff.2 fun hplaced => ?_
  obtain ⟨hlt, hout⟩ := hr hplaced
  refine Bitmap.mem?_eq_some.2 ⟨hlt, ?_⟩
  by_contra hmem
  obtain ⟨y, hy, hp⟩ := h _ (Bool.eq_true_of_not_eq_false hmem)
  exact hout y hy hp

theorem CallRun.covered (h : CallRun maxPages out b) : Covered out b := by
  induction h with
  | new =>
    intro p hp
    exact absurd hp (by rw [BuddyAllocator.new, Bitmap.mem_empty]; exact Bool.false_ne_true)
  | init _ hi ih =>
    intro p hp
    rw [BuddyAllocator.init] at hi
    split_ifs at hi
    cases hi
    obtain ⟨y, hy, -⟩ := ih p hp
    cases hy
  | addFreeRegion _ ha ih =>
    obtain ⟨hbase, hmap⟩ := allocMap_addFreeRegion ha
    intro p hp
    rw [hmap] at hp
    rw [hbase]
    exact ih p hp
  | allocate _ ha ih =>
    obtain ⟨e, he, -⟩ | ⟨a, ha, hbase, hmap⟩ := allocate_cases ha
    · cases he
    cases ha
    intro p hp
    rw [hmap, Bool.or_eq_true, decide_eq_true_iff] at hp
    rw [hbase]
    rcases hp with hp | hp
    · exact ⟨_, List.mem_cons_self, hp⟩
    · obtain ⟨y, hy, hp⟩ := ih p hp
      exact ⟨y, List.mem_cons_of_mem _ hy, hp⟩
  | allocateError _ ha ih =>
    obtain ⟨e, -, rfl⟩ | ⟨a, ha, -⟩ := allocate_cases ha
    · exact ih
    · cases ha
  | free _ hmem hf ih =>
    obtain ⟨e, he, -⟩ | ⟨-, hbase, hmap⟩ := free_cases hf
    · cases he
    intro p hp
    rw [hmap, Bool.and_eq_true, Bool.not_eq_true', decide_eq_false_iff_not] at hp
    rw [hbase]
    -- A page that is still marked is in another block.
    obtain ⟨y, hy, hpy⟩ := ih p hp.2
    refine ⟨y, (List.mem_erase_of_ne ?_).2 hy, hpy⟩
    rintro rfl
    exact hp.1 hpy
  | freeError _ _ hf ih =>
    obtain ⟨e, -, rfl⟩ | ⟨hf, -⟩ := free_cases hf
    · exact ih
    · cases hf
  | freeRefusable _ hr hf ih =>
    obtain ⟨e, he⟩ := ih.refuses hr
    rw [he] at hf
    cases hf
    exact ih

/-- Over one region, the frees that can be refused are those that are. -/
theorem Run.free_refused_iff {size : ℕ} (h : Run maxPages base size out b) :
    (∃ e, b.free addr order = some (.error e, b)) ↔ Refusable maxPages base out addr order := by
  obtain ⟨hinv, haddr⟩ := h.inv
  have hmap := (hinv.tiled haddr).allocMap
  rw [free_error_iff, Refusable, hinv.base_eq]
  rw [Bitmap.mem?_eq_some, ← Bool.not_eq_true, hmap]
  simp only [not_exists, not_and]

/-- In every state reached by any calls, a free that can be refused returns an error and leaves
    the allocator as it was; over one region no other free does so. -/
theorem free_refused {maxPages : ℕ} :
    (∀ out (b : BuddyAllocator maxPages), CallRun maxPages out b →
      ∀ addr order, Refusable maxPages b.base out addr order →
        ∃ e, b.free addr order = some (.error e, b)) ∧
    ∀ base size out (b : BuddyAllocator maxPages), Run maxPages base size out b →
      ∀ addr order, (∃ e, b.free addr order = some (.error e, b)) ↔
        Refusable maxPages base out addr order :=
  ⟨fun _ _ h _ _ hr => h.covered.refuses hr, fun _ _ _ _ h _ _ => h.free_refused_iff⟩

/-- A page that was never allocated. -/
theorem free_refused_boot : ∃ b, Run 1024 0x100000 0x4000 [] b ∧
    ∃ e, b.free 0x100000 0 = some (.error e, b) := by
  obtain ⟨b, hb⟩ := (boot_spec 1024 0x100000 0x4000).exists_some ⟨by decide, by decide, by decide⟩
  refine ⟨b, .boot hb, (free_refused.2 _ _ _ b (.boot hb) _ _).2 fun _ => ⟨by decide, ?_⟩⟩
  intro y hy
  cases hy

/-- A block of two pages is freed as one page, and a free above the pages that the bitmap has
    room for panics. -/
theorem free_accepts_wrong_order :
    ∃ b b', Run 1024 0x100000 0x4000 [(0x100000, 1)] b ∧
      (0x100000, 0) ∉ [(0x100000, 1)] ∧ b.free 0x100000 0 = some (.ok (), b') ∧
      b.free (0x100000 + 1024 * 4096) 0 = none := by
  have h : ∃ b ∈ boot 1024 0x100000 0x4000, ∃ r ∈ b.allocate 1, r.1.toOption = some 0x100000 ∧
      (r.2.free (0x100000 + 1024 * 4096) 0).isNone ∧
      ∃ r' ∈ r.2.free 0x100000 0, r'.1.toOption = some () := by decide +kernel
  obtain ⟨b0, hboot, ⟨r, b⟩, halloc, hr, hnone, ⟨r', b'⟩, hfree, hr'⟩ := h
  cases r with
  | error e => cases hr
  | ok addr =>
    cases hr
    cases r' with
    | error e => cases hr'
    | ok u => exact ⟨b, b', .allocate (.boot hboot) halloc, by decide, hfree,
        isNone_iff_eq_none.1 hnone⟩

end SmallAIOS.Mem.BuddyAllocator

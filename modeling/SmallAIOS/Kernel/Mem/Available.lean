import SmallAIOS.Kernel.Mem.Heap
import Mathlib.Order.CompletePartialOrder

/-!
# The bytes available

The bytes that can be allocated are those of the free blocks and those of the
free objects of the slabs. If two states differ by one block, or by one object,
that is handed out in one and not in the other, the bytes available differ by
the bytes of that block or object, and by no others
(`HeapInv.available_block`, `HeapInv.available_object`).
-/

namespace SmallAIOS.Mem

open Lib BuddyAllocator SlabAllocator List Function

variable {maxPages base N a p : ℕ} {O blocks : List Block} {b b' : BuddyAllocator maxPages}
  {x : Block} {c : Fin numClasses} {objs : List (ℕ × Fin numClasses)} {L L' : ℕ → List ℕ}
  {s : SlabAllocator} {m m' : Memory}

/-- `A` is `B` and, besides, `X`. -/
def Adds (A B X : Set ℕ) : Prop := A = B ∪ X ∧ Disjoint B X

theorem Adds.diff {A B X : Set ℕ} (h : Adds A B X) : A \ B = X := by
  rw [h.1, Set.union_sdiff_left, sdiff_eq_left]
  exact h.2.symm

variable {A B X S : Set ℕ}

theorem Adds.union_right (h : Adds A B X) (hS : Disjoint S X) : Adds (A ∪ S) (B ∪ S) X :=
  ⟨by rw [h.1, Set.union_right_comm], Set.disjoint_union_left.2 ⟨h.2, hS⟩⟩

theorem Adds.union_left (h : Adds A B X) (hS : Disjoint S X) : Adds (S ∪ A) (S ∪ B) X :=
  ⟨by rw [h.1, Set.union_assoc], Set.disjoint_union_left.2 ⟨hS, h.2⟩⟩

/-! ## Free blocks -/

/-- The bytes of a block of a region. -/
def blockBytes (base : ℕ) (x : Block) : Set ℕ :=
  Set.Ico (blockAddr base x) (blockAddr base x + blockSize x)

/-- The bytes of the free blocks. -/
def freeBytes (b : BuddyAllocator maxPages) : Set ℕ :=
  {a | ∃ x ∈ b.freeBlocks, a ∈ blockBytes b.base x}

theorem mem_blockBytes : a ∈ blockBytes base x ↔ base ≤ a ∧ (a - base) / pageSize4K ∈ x.pages := by
  have hpos : 0 < pageSize4K := by decide
  rw [blockBytes, Set.mem_Ico, blockAddr, blockSize, Block.pages, Finset.mem_Ico,
    Nat.le_div_iff_mul_le hpos, Nat.div_lt_iff_lt_mul hpos, Nat.add_mul, Nat.one_mul, Nat.add_mul]
  omega

/-- The free bytes are those of the region that are in no block taken. -/
theorem mem_freeBytes (h : b.Inv base N O) : a ∈ freeBytes b ↔
    base ≤ a ∧ (a - base) / pageSize4K < N ∧ ∀ y ∈ O, (a - base) / pageSize4K ∉ y.pages := by
  change (∃ y ∈ b.freeBlocks, a ∈ blockBytes b.base y) ↔ _
  rw [h.base_eq]
  simp only [mem_blockBytes]
  constructor
  · rintro ⟨y, hy, hle, hpage⟩
    refine ⟨hle, h.tiling.lt_of_mem hy hpage, fun z hz hpage' => ?_⟩
    exact Finset.disjoint_left.1 (h.tiling.disjoint_taken hy hz) hpage hpage'
  · rintro ⟨hle, hlt, hO⟩
    rcases h.tiling.exists_iff.2 hlt with ⟨y, hy, hpage⟩ | ⟨y, hy, hpage⟩
    · exact ⟨y, hy, hle, hpage⟩
    · exact absurd hpage (hO y hy)

theorem adds_freeBytes (h : b.Inv base N O) (h' : b'.Inv base N (x :: O)) :
    Adds (freeBytes b) (freeBytes b') (blockBytes base x) := by
  constructor
  · ext a
    rw [Set.mem_union, mem_freeBytes h, mem_freeBytes h', mem_blockBytes]
    simp only [forall_mem_cons]
    constructor
    · rintro ⟨hle, hlt, hO⟩
      by_cases hx : (a - base) / pageSize4K ∈ x.pages
      · exact .inr ⟨hle, hx⟩
      · exact .inl ⟨hle, hlt, hx, hO⟩
    · rintro (⟨hle, hlt, -, hO⟩ | ⟨hle, hx⟩)
      · exact ⟨hle, hlt, hO⟩
      · refine ⟨hle, h'.tiling.lt_of_mem_taken mem_cons_self hx, fun y hy => ?_⟩
        exact Finset.disjoint_left.1 (rel_of_pairwise_cons h'.tiling.pairwise hy) hx
  · rw [Set.disjoint_left]
    intro a ha hx
    exact ((mem_freeBytes h').1 ha).2.2 x mem_cons_self (mem_blockBytes.1 hx).2

/-! ## Free objects -/

/-- The bytes of an object of a class. -/
def objectBytes (c : Fin numClasses) (a : ℕ) : Set ℕ := Set.Ico a (a + sizeClasses c)

/-- The bytes of the free objects of the slabs. -/
def freeObjectBytes (s : SlabAllocator) (m : Memory) : Set ℕ :=
  {x | ∃ c, ∃ p ∈ (s.classes c).slabs, ∃ l, Chain m.word (m.header p).freeList l ∧
    ∃ a ∈ l, x ∈ objectBytes c a}

theorem mem_freeObjectBytes (h : SlabInv objs L s m) {x : ℕ} : x ∈ freeObjectBytes s m ↔
    ∃ c, ∃ p ∈ (s.classes c).slabs, ∃ a ∈ L p, x ∈ objectBytes c a := by
  refine exists_congr fun c => exists_congr fun p => and_congr_right fun hp => ?_
  have hchain := (h.slab c p hp).chain
  constructor
  · rintro ⟨l, hl, ha⟩
    rwa [hl.unique hchain] at ha
  · exact fun ha => ⟨L p, hchain, ha⟩

theorem adds_freeObjectBytes (h : SlabInv objs L s m) (h' : SlabInv ((a, c) :: objs) L' s m')
    (hp : p ∈ (s.classes c).slabs) (ha : a ∈ objects p c)
    (hL : L = update L' p (a :: L' p)) :
    Adds (freeObjectBytes s m) (freeObjectBytes s m') (objectBytes c a) := by
  constructor
  · ext x
    rw [Set.mem_union, mem_freeObjectBytes h, mem_freeObjectBytes h', hL]
    constructor
    · rintro ⟨c', q, hq, o, ho, hx⟩
      by_cases hqp : q = p
      · subst hqp
        obtain rfl := h.class_unique hp hq
        rw [update_self] at ho
        rcases mem_cons.1 ho with rfl | ho
        · exact .inr hx
        · exact .inl ⟨c, q, hq, o, ho, hx⟩
      · rw [update_of_ne hqp] at ho
        exact .inl ⟨c', q, hq, o, ho, hx⟩
    · rintro (⟨c', q, hq, o, ho, hx⟩ | hx)
      · refine ⟨c', q, hq, o, ?_, hx⟩
        by_cases hqp : q = p
        · subst hqp
          rw [update_self]
          exact mem_cons_of_mem _ ho
        · rwa [update_of_ne hqp]
      · exact ⟨c, p, hp, a, by rw [update_self]; exact mem_cons_self, hx⟩
  · rw [Set.disjoint_left]
    intro x hx hxa
    obtain ⟨c', q, hq, o, ho, hxo⟩ := (mem_freeObjectBytes h').1 hx
    have hne : a ≠ o := by
      rintro rfl
      exact h'.notMem (a, c) mem_cons_self q (mem_pages.2 ⟨c', hq⟩) ho
    have hap := h'.objects_apart hp ha hq ((h'.slab c' q hq).subset ho) hne
    rw [objectBytes, Set.mem_Ico] at hxa hxo
    rw [Apart] at hap
    omega

/-! ## All that is available -/

/-- The bytes that can be allocated. -/
def available (b : BuddyAllocator maxPages) (s : SlabAllocator) (m : Memory) : Set ℕ :=
  freeBytes b ∪ freeObjectBytes s m

variable (h : HeapInv base N objs blocks L b s m)
include h

/-- No free object is in a block handed out. -/
theorem HeapInv.disjoint_block (hx : x ∈ blocks) :
    Disjoint (freeObjectBytes s m) (blockBytes base x) := by
  rw [Set.disjoint_left]
  intro y hy hyx
  obtain ⟨c, p, hp, a, ha, hya⟩ := (mem_freeObjectBytes h.slab).1 hy
  have hbounds := objects_bounds ((h.slab.slab c p hp).subset ha)
  have hap := h.page_apart (mem_pages.2 ⟨c, hp⟩) hx
  rw [objectBytes, Set.mem_Ico] at hya
  rw [blockBytes, Set.mem_Ico] at hyx
  rw [Apart] at hap
  omega

/-- No free block has a slab page in it. -/
theorem HeapInv.disjoint_object (hp : p ∈ (s.classes c).slabs) (ha : a ∈ objects p c) :
    Disjoint (freeBytes b) (objectBytes c a) := by
  rw [Set.disjoint_left]
  intro y hy hya
  have hbounds := objects_bounds ha
  have hpage := mem_pages.2 ⟨c, hp⟩
  have hmem : y ∈ blockBytes base (pageBlock base p) := by
    rw [objectBytes, Set.mem_Ico] at hya
    rw [blockBytes, Set.mem_Ico, h.page_addr p hpage, blockSize, pageBlock, blockAt, pow_zero]
    omega
  exact ((mem_freeBytes h.buddy).1 hy).2.2 _
    (mem_append_left _ (mem_map_of_mem hpage)) (mem_blockBytes.1 hmem).2

/-- The bytes available, with and without a block. -/
theorem HeapInv.available_block (h' : HeapInv base N objs (x :: blocks) L' b' s m) :
    Adds (available b s m) (available b' s m) (blockBytes base x) :=
  (adds_freeBytes h.buddy (h'.buddy.perm perm_middle)).union_right (h'.disjoint_block mem_cons_self)

/-- The bytes available, with and without an object. -/
theorem HeapInv.available_object
    (h' : HeapInv base N ((a, c) :: objs) blocks L' b s m') (hp : p ∈ (s.classes c).slabs)
    (ha : a ∈ objects p c) (hL : L = update L' p (a :: L' p)) :
    Adds (available b s m) (available b s m') (objectBytes c a) :=
  (adds_freeObjectBytes h.slab h'.slab hp ha hL).union_left (h.disjoint_object hp ha)

end SmallAIOS.Mem

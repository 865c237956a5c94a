import SmallAIOS.Kernel.Mem.BuddyRun
import SmallAIOS.Kernel.Mem.SlabObjects

/-!
# The two allocators together

The pages of the slabs are blocks of the buddy allocator. So the memory of a
region is shared between the free blocks, the slab pages and the blocks handed
out to clients, and a slab page between its free objects and those handed out
(`HeapInv`). Each operation of either allocator moves one block or one object,
and a block can become a slab page (`HeapInv.grow`). What is handed out does not
overlap, and clients that write to it keep the invariant (`HeapInv.write_block`,
`HeapInv.write_obj`).
-/

namespace SmallAIOS.Mem

open Lib BuddyAllocator List Function Nat SlabAllocator

variable {maxPages base N : ℕ} {c : Fin numClasses} {x y : Block} {o : ℕ × Fin numClasses}

/-! ## Ranges of blocks -/

/-- The number of bytes in a block. -/
def blockSize (x : Block) : ℕ := 2 ^ x.order * pageSize4K

/-- The address of a block has the alignments of a page, and those that the region and the size of
    the block have. -/
theorem two_pow_dvd_blockAddr {j : ℕ} (hbase : base % pageSize4K = 0)
    (h : 2 ^ j ≤ pageSize4K ∨ (2 ^ j ∣ base ∧ 2 ^ j ≤ blockSize x)) :
    2 ^ j ∣ blockAddr base x := by
  rcases h with hle | ⟨hdvd, hle⟩
  · refine (two_pow_dvd_of_le (j := 12) hle).trans ?_
    exact Nat.dvd_add (Nat.dvd_of_mod_eq_zero hbase) (Nat.dvd_mul_left ..)
  · have hpow : blockSize x = 2 ^ (x.order + 12) := (pow_add 2 x.order 12).symm
    rw [hpow] at hle
    refine Nat.dvd_add hdvd ?_
    rw [Nat.mul_assoc]
    refine (two_pow_dvd_of_le hle).trans ?_
    rw [← hpow]
    exact Nat.dvd_mul_left ..

/-- Blocks without a page in common do not overlap. -/
theorem apart_of_disjoint (base : ℕ) (h : Disjoint x.pages y.pages) :
    Apart (blockAddr base x) (blockSize x) (blockAddr base y) (blockSize y) := by
  have key {x y : Block} (h : Disjoint x.pages y.pages)
      (hle : x.index * 2 ^ x.order ≤ y.index * 2 ^ y.order) :
      (x.index + 1) * 2 ^ x.order ≤ y.index * 2 ^ y.order := by
    by_contra hlt
    exact Finset.disjoint_left.1 h (Finset.mem_Ico.2 ⟨hle, not_le.1 hlt⟩) y.first_mem_pages
  rw [Apart, blockAddr, blockSize, blockAddr, blockSize]
  rcases le_total (x.index * 2 ^ x.order) (y.index * 2 ^ y.order) with hle | hle
  · have := mul_le_mul_right pageSize4K (key h hle)
    rw [add_mul, one_mul, add_mul] at this
    omega
  · have := mul_le_mul_right pageSize4K (key h.symm hle)
    rw [add_mul, one_mul, add_mul] at this
    omega

/-- The memories differ at most in the `n` bytes from `a` on. -/
structure Memory.Writes (a n : ℕ) (m m' : Memory) : Prop where
  header : ∀ p, Apart p slabHeaderSize a n → m'.header p = m.header p
  word : ∀ p, Apart p 8 a n → m'.word p = m.word p

theorem Memory.Writes.mono {a n b k : ℕ} {m m' : Memory} (h : m.Writes b k m') (hle : a ≤ b)
    (hend : b + k ≤ a + n) : m.Writes a n m' where
  header p hp := h.header p (hp.symm.mono hle hend).symm
  word p hp := h.word p (hp.symm.mono hle hend).symm

/-! ## The invariant -/

/-- The block of a page. -/
def pageBlock (base p : ℕ) : Block := blockAt base (p, 0)

/-- The objects `objs` and the blocks `blocks` are handed out, and the free list of each slab page
    is that of `L`. -/
structure HeapInv (base N : ℕ) (objs : List (ℕ × Fin numClasses)) (blocks : List Block)
    (L : ℕ → List ℕ) (b : BuddyAllocator maxPages) (s : SlabAllocator) (m : Memory) : Prop where
  buddy : b.Inv base N (s.pages.map (pageBlock base) ++ blocks)
  page_addr : ∀ p ∈ s.pages, blockAddr base (pageBlock base p) = p
  slab : s.SlabInv objs L m

namespace HeapInv

variable {objs objs' : List (ℕ × Fin numClasses)} {blocks blocks' : List Block}
  {L : ℕ → List ℕ} {b : BuddyAllocator maxPages} {s : SlabAllocator} {m m' : Memory}

theorem boot (h : b.Inv base N []) (L : ℕ → List ℕ) (m : Memory) :
    HeapInv base N [] [] L b .new m where
  buddy := by simpa [pages_new] using h
  page_addr := by simp [pages_new]
  slab := .new m L

section

variable (h : HeapInv base N objs blocks L b s m)
include h

theorem perm (ho : objs.Perm objs')
    (hb : blocks.Perm blocks') : HeapInv base N objs' blocks' L b s m where
  buddy := h.buddy.perm (hb.append_left _)
  page_addr := h.page_addr
  slab := h.slab.perm ho

/-- The pages are counted. -/
theorem freePages : b.freePages + (s.pages.length + (blocks.map (2 ^ ·.order)).sum) = N := by
  have hpages := h.buddy.freePages
  have hone : (s.pages.map fun p => 2 ^ (pageBlock base p).order) = s.pages.map fun _ => 1 := rfl
  rw [map_append, map_map, comp_def, hone] at hpages
  simpa using hpages

/-- A block taken ends within the address space. -/
theorem end_lt (hx : x ∈ s.pages.map (pageBlock base) ++ blocks) :
    blockAddr base x + blockSize x < 2 ^ 64 := by
  have hend := h.buddy.tiling.end_le_taken hx
  have hpos : 0 < N := (zero_le _).trans_lt (Block.index_lt_of_end_le hend)
  have hle := mul_le_mul_right pageSize4K hend
  have hfits := h.buddy.fits hpos
  rw [add_mul, one_mul, add_mul] at hle
  rw [blockAddr, blockSize]
  omega

theorem block_end_lt (hx : x ∈ blocks) : blockAddr base x + blockSize x < 2 ^ 64 :=
  h.end_lt (mem_append_right _ hx)

theorem obj_lt {p a : ℕ} (hp : p ∈ (s.classes c).slabs) (ha : a ∈ objects p c) : a < 2 ^ 64 := by
  have hpage := mem_pages.2 ⟨c, hp⟩
  have hend := h.end_lt (mem_append_left _ (mem_map_of_mem hpage))
  have hbounds := objects_bounds ha
  rw [h.page_addr p hpage, blockSize, pageBlock, blockAt, pow_zero] at hend
  omega

end

/-! ## What is handed out does not overlap -/

variable (h : HeapInv base N objs blocks L b s m) {p : ℕ}
include h

theorem pageBlock_disjoint (hp : p ∈ s.pages) (hx : x ∈ blocks) :
    Disjoint (pageBlock base p).pages x.pages :=
  (pairwise_append.1 h.buddy.tiling.pairwise).2.2 _ (mem_map_of_mem hp) x hx

/-- A block does not overlap a slab page. -/
theorem page_apart (hp : p ∈ s.pages) (hx : x ∈ blocks) :
    Apart p pageSize4K (blockAddr base x) (blockSize x) := by
  have := apart_of_disjoint base (h.pageBlock_disjoint hp hx)
  rwa [h.page_addr p hp, blockSize, pageBlock, blockAt, pow_zero] at this

theorem blocks_apart : blocks.Pairwise fun x y =>
    Apart (blockAddr base x) (blockSize x) (blockAddr base y) (blockSize y) :=
  (pairwise_append.1 h.buddy.tiling.pairwise).2.1.imp (apart_of_disjoint base)

theorem obj_apart_block (ho : o ∈ objs) (hx : x ∈ blocks) :
    Apart o.1 (sizeClasses o.2) (blockAddr base x) (blockSize x) := by
  obtain ⟨p, hp, hobj⟩ := h.slab.mem_slabs o ho
  have hbounds := objects_bounds hobj
  exact (h.page_apart (mem_pages.2 ⟨_, hp⟩) hx).mono (by omega) hbounds.2

end HeapInv

namespace SlabAllocator.SlabInv

variable {objs : List (ℕ × Fin numClasses)} {L : ℕ → List ℕ} {s : SlabAllocator} {m : Memory}

section

variable (h : SlabInv objs L s m)
include h

theorem page_apart {p q : ℕ} (hp : p ∈ s.pages) (hq : q ∈ s.pages) (hne : p ≠ q) :
    Apart p pageSize4K q pageSize4K := by
  have h1 := h.aligned p hp
  have h2 := h.aligned q hq
  rw [pageSize4K] at *
  rw [Apart]
  omega

/-- Objects at different addresses do not overlap. -/
theorem objects_apart {c c' : Fin numClasses} {p q a a' : ℕ} (hp : p ∈ (s.classes c).slabs)
    (ha : a ∈ objects p c) (hq : q ∈ (s.classes c').slabs) (ha' : a' ∈ objects q c')
    (hne : a ≠ a') :
    Apart a (sizeClasses c) a' (sizeClasses c') := by
  have hb := objects_bounds ha
  have hb' := objects_bounds ha'
  by_cases hpq : p = q
  · subst hpq
    obtain rfl := h.class_unique hp hq
    exact objects_disjoint ha ha' hne
  · have := h.page_apart (mem_pages.2 ⟨c, hp⟩) (mem_pages.2 ⟨c', hq⟩) hpq
    exact ((this.mono (by omega) hb.2).symm.mono (by omega) hb'.2).symm

theorem objs_apart : objs.Pairwise fun o o' =>
    Apart o.1 (sizeClasses o.2) o'.1 (sizeClasses o'.2) := by
  refine (pairwise_map.1 h.objs_nodup).imp_of_mem fun {o o'} ho ho' hne => ?_
  obtain ⟨p, hp, ha⟩ := h.mem_slabs o ho
  obtain ⟨q, hq, ha'⟩ := h.mem_slabs o' ho'
  exact h.objects_apart hp ha hq ha' hne

end

end SlabAllocator.SlabInv

namespace HeapInv

variable {objs : List (ℕ × Fin numClasses)} {blocks : List Block}
  {L : ℕ → List ℕ} {b : BuddyAllocator maxPages} {s : SlabAllocator} {m m' : Memory} {size : ℕ}

/-! ## Writes of clients -/

/-- A client writes to a block. -/
theorem write_block (h : HeapInv base N objs blocks L b s m) (hx : x ∈ blocks)
    (hw : m.Writes (blockAddr base x) (blockSize x) m') :
    HeapInv base N objs blocks L b s m' where
  __ := h
  slab := by
    refine h.slab.congr (fun p hp => hw.header p ?_) fun p hp a ha => hw.word a ?_
    · exact (h.page_apart hp hx).mono le_rfl (Nat.add_le_add_left (by decide) p)
    · obtain ⟨c, hc⟩ := mem_pages.1 hp
      have hbounds := objects_bounds ((h.slab.slab c p hc).subset ha)
      have hpos := sizeClasses_pos c
      exact (h.page_apart hp hx).mono (by omega) (by omega)

/-- A client writes to an object. -/
theorem write_obj (h : HeapInv base N objs blocks L b s m) (ho : o ∈ objs)
    (hw : m.Writes o.1 (sizeClasses o.2) m') : HeapInv base N objs blocks L b s m' where
  __ := h
  slab := by
    obtain ⟨q, hq, hobj⟩ := h.slab.mem_slabs o ho
    have hbo := objects_bounds hobj
    refine h.slab.congr (fun p hp => hw.header p ?_) fun p hp a ha => hw.word a ?_
    · -- The header is before the objects of its own page.
      by_cases hpq : p = q
      · subst hpq
        exact .inl hbo.1
      · have := h.slab.page_apart hp (mem_pages.2 ⟨_, hq⟩) hpq
        refine (this.symm.mono (by omega) hbo.2).symm.mono le_rfl ?_
        exact Nat.add_le_add_left (by decide) p
    · obtain ⟨c, hc⟩ := mem_pages.1 hp
      have hmem := (h.slab.slab c p hc).subset ha
      have hne : a ≠ o.1 := fun heq => h.slab.notMem o ho p hp (heq ▸ ha)
      have hpos := sizeClasses_pos c
      exact (h.slab.objects_apart hc hmem hq hobj hne).mono le_rfl (by omega)

/-! ## The operations -/

/-- `allocate` of the buddy allocator hands out a block. -/
theorem allocateBlock (h : HeapInv base N objs blocks L b s m) (k : ℕ) :
    (maxOrder < b.searchOrder k ∧ ∃ e, b.allocate k = some (.error e, b)) ∨
    (b.searchOrder k ≤ maxOrder ∧ Returns (N ≤ maxPages) (b.allocate k) fun r => ∃ i,
      r.1 = .ok (blockAddr base ⟨k, i⟩) ∧
      HeapInv base N objs (⟨k, i⟩ :: blocks) L r.2 s m) := by
  by_cases hs : maxOrder < b.searchOrder k
  · refine .inl ⟨hs, ?_⟩
    rw [BuddyAllocator.allocate]
    split
    · exact ⟨_, rfl⟩
    · exact ⟨_, rfl⟩
  · rw [not_lt] at hs
    obtain ⟨hle, hsome⟩ := (b.searchOrder_spec k).1 hs
    obtain ⟨j, hj⟩ := Option.isSome_iff_exists.1 hsome
    refine .inr ⟨hs, (h.buddy.allocate_found (hle.trans hs) hle hs hj).mono ?_⟩
    rintro r ⟨i, -, hok, hinv⟩
    exact ⟨i, hok, hinv.perm perm_middle.symm, h.page_addr, h.slab⟩

/-- A block of an order is found if there are more blocks of that order than pages in use. -/
theorem searchOrder_le (h : HeapInv base N objs blocks L b s m) {k : ℕ} (hk : k ≤ maxOrder)
    (hN : (s.pages.length + (blocks.map (2 ^ ·.order)).sum + 1) * 2 ^ k ≤ N) :
    b.searchOrder k ≤ maxOrder := by
  by_contra hs
  have hsum := h.freePages
  have hsum' := h.buddy.freePages
  obtain ⟨x, hx, hle⟩ := h.buddy.tiling.exists_free_of_lt h.buddy.coalesced hk
    (by rwa [show ((s.pages.map (pageBlock base) ++ blocks).map (2 ^ ·.order)).sum =
      s.pages.length + (blocks.map (2 ^ ·.order)).sum by omega])
  have hmax := (mem_freeBlocks.1 hx).1
  exact h.buddy.findFree_none ((b.searchOrder_spec k).2 _ hle (by omega)) hx

/-- `free` of the buddy allocator takes a block back. -/
theorem freeBlock (h : HeapInv base N objs (x :: blocks) L b s m) :
    Returns (N ≤ maxPages) (b.free (blockAddr base x) x.order) fun r =>
      r.1 = .ok () ∧ HeapInv base N objs blocks L r.2 s m :=
  (h.buddy.perm perm_middle).free.mono fun _ ⟨hok, hinv⟩ => ⟨hok, hinv, h.page_addr, h.slab⟩

/-- `allocate` of the slab allocator hands out an object, if the class has a free one. -/
theorem allocateObject (h : HeapInv base N objs blocks L b s m)
    (hc : sizeClassIndex size = some c) :
    ((∀ p ∈ (s.classes c).slabs, L p = []) ∧
      s.allocate m size = some (.error .slabExhausted, m)) ∨
    ∃ p ∈ (s.classes c).slabs, p % pageSize4K = 0 ∧ ∃ a ∈ objects p c, ∃ l m', L p = a :: l ∧
      s.allocate m size = some (.ok a, m') ∧
      HeapInv base N ((a, c) :: objs) blocks (update L p l) b s m' := by
  refine (h.slab.allocate hc).imp_right ?_
  rintro ⟨p, hp, a, l, m', hl, hall, hslab⟩
  exact ⟨p, hp, h.slab.aligned p (mem_pages.2 ⟨c, hp⟩), a,
    (h.slab.slab c p hp).subset (hl ▸ mem_cons_self), l, m', hl, hall,
    h.buddy, h.page_addr, hslab⟩

/-- `free` of the slab allocator takes an object back. -/
theorem freeObject {a : ℕ} (h : HeapInv base N ((a, c) :: objs) blocks L b s m)
    (hc : sizeClassIndex size = some c) :
    ∃ p ∈ (s.classes c).slabs, a ∈ objects p c ∧ ∃ m', s.free m a size = some (.ok (), m') ∧
      HeapInv base N objs blocks (update L p (a :: L p)) b s m' := by
  obtain ⟨p, hp, ha, m', hfree, hslab⟩ := h.slab.free hc
  exact ⟨p, hp, ha, m', hfree, h.buddy, h.page_addr, hslab⟩

/-- A block of one page becomes a slab page, unless its class has as many as it can. -/
theorem grow {i : ℕ} (h : HeapInv base N objs (⟨0, i⟩ :: blocks) L b s m) (c : Fin numClasses) :
    (maxSlabsPerClass ≤ (s.classes c).slabs.length ∧
      s.addSlabPage m c (blockAddr base ⟨0, i⟩) = (false, s, m)) ∨
    ((s.classes c).slabs.length < maxSlabsPerClass ∧ ∃ s' m',
      s.addSlabPage m c (blockAddr base ⟨0, i⟩) = (true, s', m') ∧
      s'.pages.Perm (blockAddr base ⟨0, i⟩ :: s.pages) ∧
      blockAddr base ⟨0, i⟩ ∈ (s'.classes c).slabs ∧
      HeapInv base N objs blocks (update L (blockAddr base ⟨0, i⟩)
        (objects (blockAddr base ⟨0, i⟩) c)) b s' m') := by
  have hat : pageBlock base (blockAddr base ⟨0, i⟩) = ⟨0, i⟩ := blockAt_blockAddr base ⟨0, i⟩
  have hp := h.buddy.blockAddr_mod ⟨0, i⟩
  have hpage : blockAddr base ⟨0, i⟩ ∉ s.pages := by
    intro hmem
    have hdisj := h.pageBlock_disjoint hmem mem_cons_self
    rw [hat] at hdisj
    exact Finset.disjoint_left.1 hdisj (Block.first_mem_pages _) (Block.first_mem_pages _)
  refine (h.slab.addSlabPage hp hpage c).imp id ?_
  rintro ⟨hlen, s', m', heq, hperm, hmem, hslab⟩
  refine ⟨hlen, s', m', heq, hperm, hmem, ?_, fun p hp => ?_, hslab⟩
  · refine h.buddy.perm ?_
    have := (hperm.map (pageBlock base)).append_right blocks
    rw [map_cons, hat] at this
    exact perm_middle.trans this.symm
  · rcases mem_cons.1 (hperm.mem_iff.1 hp) with rfl | hp
    · rw [hat]
    · exact h.page_addr p hp

end HeapInv

end SmallAIOS.Mem

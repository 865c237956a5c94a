import SmallAIOS.Kernel.Mem.Heap

/-!
# Runs of the global allocator

In a run, clients allocate, write to what they got, and give back what they
have, with the layout they asked for. The layout of an allocation tells where it
is: in a slab object or in a block of its order. This goes wrong if a small
request was served by the buddy allocator, if the pointer of an over-aligned
request is not the address of its block, and if a block is at address `0`. In
the runs without such requests (`Serves`) pointers are aligned, allocations do
not overlap and nothing is lost (`run_serves`).
-/

namespace SmallAIOS.Mem

open Lib BuddyAllocator List Option KernelAllocator

variable {maxPages base N : ℕ}

/-! ## Layouts -/

namespace Layout

variable (l : Layout)

theorem allocSize_le : l.allocSize ≤ 2 ^ l.order * pageSize4K := by
  have h := Nat.le_pow_clog (b := 2) (by decide) l.pagesNeeded
  refine le_trans ?_ (Nat.mul_le_mul_right pageSize4K h)
  rw [pagesNeeded, pageSize4K]
  omega

theorem size_le_block : l.size ≤ 2 ^ l.order * pageSize4K := by
  refine le_trans ?_ l.allocSize_le
  rw [allocSize]
  split
  · exact Nat.le_add_right _ _
  · exact le_rfl

/-- A block of the order asked for is no smaller than the alignment, if that is more than a page. -/
theorem align_le_block (h : pageSize4K < l.align) (i : ℕ) : l.align ≤ blockSize ⟨l.order, i⟩ := by
  refine le_trans ?_ l.allocSize_le
  rw [allocSize, if_pos h]
  exact Nat.le_add_left _ _

variable {l}

/-- An object of the class of a request is aligned. -/
theorem align_dvd_object {c : Fin numClasses} {page a : ℕ} (hs : l.usesSlab = true)
    (hc : sizeClassIndex l.size = some c) (ha : a ∈ objects page c) (hp : page % pageSize4K = 0) :
    l.align ∣ a := by
  obtain ⟨j, hj⟩ := l.align_eq
  have hle := (of_decide_eq_true hs).2.trans (max_le (sizeClassIndex_spec hc) (sizeClasses_pos c))
  rw [hj] at hle ⊢
  exact two_pow_dvd_object ha hp hle

/-- A block of the order of a request is aligned, if the region is. -/
theorem align_dvd_blockAddr (hbase : base % pageSize4K = 0)
    (hal : pageSize4K < l.align → l.align ∣ base) (i : ℕ) :
    l.align ∣ blockAddr base ⟨l.order, i⟩ := by
  obtain ⟨j, hj⟩ := l.align_eq
  have hle (h : pageSize4K < l.align) := l.align_le_block h i
  rw [hj] at hal hle ⊢
  refine two_pow_dvd_blockAddr hbase ?_
  rcases le_or_gt (2 ^ j) pageSize4K with h | h
  · exact .inl h
  · exact .inr ⟨hal h, hle h⟩

/-- An aligned address is not moved. -/
theorem alignDown_add_sub_one {a : ℕ} (h : l.align ∣ a) :
    alignDown (a + l.align - 1) l.align = a := by
  obtain ⟨k, hk⟩ := l.align_eq
  obtain ⟨j, rfl⟩ := h
  have hpos := Nat.two_pow_pos k
  rw [hk, alignDown_two_pow, Nat.add_sub_assoc hpos, Nat.mul_add_div hpos,
    Nat.div_eq_of_lt (Nat.sub_lt hpos Nat.one_pos), Nat.add_zero, Nat.mul_comm]

end Layout

namespace KernelAllocator

variable {h h' : KernelAllocator maxPages} {objs : List (ℕ × Fin numClasses)}
  {blocks : List Block} {l : Layout} {c : Fin numClasses} {size : ℕ}

/-! ## The operations -/

/-- The objects and blocks are handed out. -/
def Heap (base N : ℕ) (objs : List (ℕ × Fin numClasses)) (blocks : List Block)
    (h : KernelAllocator maxPages) : Prop :=
  ∃ L, HeapInv base N objs blocks L h.buddy h.slab h.mem

/-- Some slab of the class has a free object. -/
def HasObject (h : KernelAllocator maxPages) (c : Fin numClasses) : Prop :=
  ∃ page ∈ (h.slab.classes c).slabs, (h.mem.header page).freeList ≠ 0

/-- What a request needs so that giving back what it returns undoes it. -/
structure Serves (h : KernelAllocator maxPages) (l : Layout) : Prop where
  /-- No block is at the address of the null pointer. -/
  base_ne : h.buddy.base ≠ 0
  /-- A small request is served by its class, or fails. -/
  slab : l.usesSlab = true → ∀ c, sizeClassIndex l.size = some c →
    h.HasObject c ∨ (h.slab.classes c).slabs.length < maxSlabsPerClass ∨ h.buddy.freePages = 0
  /-- An over-aligned request gets an aligned block, or fails. -/
  align : pageSize4K < l.align → l.align ∣ h.buddy.base ∨ maxOrder < h.buddy.searchOrder l.order

theorem Heap.trySlabAlloc (hh : h.Heap base N objs blocks) (hc : sizeClassIndex size = some c)
    (hroom : h.HasObject c ∨ (h.slab.classes c).slabs.length < maxSlabsPerClass ∨
      h.buddy.freePages = 0) :
    Returns (N ≤ maxPages) (h.trySlabAlloc size) fun r =>
      (r.1 = none ∧ r.2 = h ∧ maxOrder < h.buddy.searchOrder 0) ∨
      ∃ a p, r.1 = some a ∧ p % pageSize4K = 0 ∧ a ∈ objects p c ∧
        r.2.initialized = h.initialized ∧ r.2.Heap base N ((a, c) :: objs) blocks := by
  obtain ⟨L, hinv⟩ := hh
  rw [KernelAllocator.trySlabAlloc]
  rcases hinv.allocateObject hc with ⟨hnone, hall⟩ | ⟨p, -, hmod, a, ha, l, m', -, hall, hinv'⟩
  · rw [hall]
    rw [hc]
    rcases hinv.allocateBlock 0 with ⟨hs, e, he⟩ | ⟨hs, hret⟩
    · rw [allocatePage, he]
      exact .some (.inl ⟨rfl, rfl, hs⟩)
    · -- A page is free, so the class must have room for it.
      have hlen : (h.slab.classes c).slabs.length < maxSlabsPerClass := by
        rcases hroom with ⟨q, hq, hne⟩ | hlen | h0
        · have hchain := (hinv.slab.slab c q hq).chain
          rw [hnone q hq, Chain.nil_iff] at hchain
          exact absurd hchain hne
        · exact hlen
        · exact absurd (hinv.buddy.searchOrder_of_freePages h0 0) (not_lt.2 hs)
      refine hret.bind ?_
      rintro ⟨r, b'⟩ ⟨i, rfl, hinv'⟩
      rcases hinv'.grow c with ⟨hge, -⟩ | ⟨-, s', m', heq, -, hmem, hinv''⟩
      · exact absurd hlen (not_lt.2 hge)
      dsimp only
      rw [heq]
      rcases hinv''.allocateObject hc with
        ⟨hnone', -⟩ | ⟨p, -, hmod, a, ha, l, m'', -, hall', hinv3⟩
      · have hnil := hnone' _ hmem
        rw [Function.update_self, ← length_eq_zero_iff, length_objects] at hnil
        exact absurd hnil (slabCapacity_ne_zero c)
      · dsimp only
        rw [hall']
        exact .some (.inr ⟨a, p, rfl, hmod, ha, rfl, _, hinv3⟩)
  · rw [hall]
    exact .some (.inr ⟨a, p, rfl, hmod, ha, rfl, _, hinv'⟩)

theorem Heap.tryBuddyAlloc (hh : h.Heap base N objs blocks)
    (hal : pageSize4K < l.align →
      l.align ∣ h.buddy.base ∨ maxOrder < h.buddy.searchOrder l.order) :
    Returns (N ≤ maxPages) (h.tryBuddyAlloc l) fun r =>
      (r.1 = 0 ∧ r.2 = h ∧ maxOrder < h.buddy.searchOrder l.order) ∨
      (h.buddy.searchOrder l.order ≤ maxOrder ∧ ∃ i, r.1 = blockAddr base ⟨l.order, i⟩ ∧
        l.align ∣ r.1 ∧ r.2.initialized = h.initialized ∧
        r.2.Heap base N objs (⟨l.order, i⟩ :: blocks)) := by
  obtain ⟨L, hinv⟩ := hh
  rw [KernelAllocator.tryBuddyAlloc]
  rcases hinv.allocateBlock l.order with ⟨hs, e, he⟩ | ⟨hs, hret⟩
  · rw [he]
    exact .some (.inl ⟨rfl, rfl, hs⟩)
  · refine hret.bind ?_
    rintro ⟨r, b'⟩ ⟨i, rfl, hinv'⟩
    have hdvd := l.align_dvd_blockAddr hinv.buddy.aligned (fun hlt =>
        hinv.buddy.base_eq ▸ (hal hlt).resolve_right (not_lt.2 hs)) i
    dsimp only
    split
    · next hlt =>
      have hend := hinv'.block_end_lt mem_cons_self
      have hle := l.align_le_block hlt i
      have hadd := checkedAdd_eq_some.2 ⟨(Nat.add_le_add_left hle _).trans_lt hend, rfl⟩
      rw [hadd, bind_eq_bind, bind_some, l.alignDown_add_sub_one hdvd]
      exact .some (.inr ⟨hs, i, rfl, hdvd, rfl, L, hinv'⟩)
    · exact .some (.inr ⟨hs, i, rfl, hdvd, rfl, L, hinv'⟩)

theorem Heap.preallocate (hh : h.Heap base N [] []) (hlen : h.slab.pages.length < maxSlabsPerClass)
    (c : Fin numClasses) :
    Returns (N ≤ maxPages) (h.preallocate c) fun h' =>
      h'.slab.pages.length ≤ h.slab.pages.length + 1 ∧ h'.Heap base N [] [] := by
  obtain ⟨L, hinv⟩ := hh
  rw [KernelAllocator.preallocate, allocatePage]
  rcases hinv.allocateBlock 0 with ⟨-, e, he⟩ | ⟨-, hret⟩
  · rw [he]
    exact .some ⟨Nat.le_succ _, L, hinv⟩
  · refine hret.map ?_
    rintro ⟨r, b'⟩ ⟨i, rfl, hinv'⟩
    rcases hinv'.grow c with ⟨hge, -⟩ | ⟨-, s', m', heq, hperm, -, hinv''⟩
    · have := h.slab.length_slabs_le c
      omega
    · dsimp only
      rw [heq]
      exact ⟨hperm.length_eq.le, _, hinv''⟩

/-- The allocator of a region starts with a slab page in each class, as long as there are pages. -/
theorem init_spec (maxPages base : ℕ) (m : Memory) (size : ℕ) :
    Returns (base % pageSize4K = 0 ∧ size / pageSize4K ≤ maxPages ∧
        base + size / pageSize4K * pageSize4K < 2 ^ 64)
      ((new m : KernelAllocator maxPages).init base size) fun h =>
        h.initialized = true ∧ h.slab.pages.length ≤ numClasses ∧
        h.Heap base (size / pageSize4K) [] [] := by
  have key (l : List (Fin numClasses)) (h : KernelAllocator maxPages) :
      h.slab.pages.length + l.length ≤ numClasses → h.Heap base (size / pageSize4K) [] [] →
      Returns (size / pageSize4K ≤ maxPages) ((l.map Fin.val).foldlM preallocate h)
        fun h' => h'.slab.pages.length ≤ numClasses ∧ h'.Heap base (size / pageSize4K) [] [] := by
    induction l generalizing h with
    | nil => exact fun hlen hh => .some ⟨hlen, hh⟩
    | cons c l ih =>
      intro hlen hh
      rw [length_cons] at hlen
      have hlt : h.slab.pages.length < maxSlabsPerClass :=
        lt_of_lt_of_le (show _ < numClasses by omega) (by decide)
      refine (hh.preallocate hlt c).bind fun h' hh' => ?_
      exact ih h' (by omega) hh'.2
  have heq : (new m : KernelAllocator maxPages).init base size =
      (boot maxPages base size).bind fun buddy =>
        (((finRange numClasses).map Fin.val).foldlM preallocate
          { (new m : KernelAllocator maxPages) with buddy }).bind fun h =>
            some { h with initialized := true } := by
    rw [boot, bind_assoc]
    rfl
  rw [heq]
  refine (boot_spec maxPages base size).bind fun b hb => ?_
  refine ((key _ _ ?_ ⟨fun _ => [], .boot hb _ m⟩).weaken fun hs => hs.2.1).bind
    fun h hh => .some ⟨rfl, hh.1, hh.2⟩
  exact (congrArg (·.length + numClasses) SlabAllocator.pages_new).le

/-! ## Runs -/

/-- The allocator `h` over a region is reached by calls of `alloc` and `dealloc`, where `ok` holds
    at each call of `alloc`, and by writes of the clients; `out` are the allocations not given back
    since, by their pointers and layouts. Only those are given back and written to. -/
inductive Run (ok : KernelAllocator maxPages → Layout → Prop) (base size : ℕ) :
    List (ℕ × Layout) → KernelAllocator maxPages → Prop
  | init {m : Memory} {h : KernelAllocator maxPages} :
    (new m).init base size = some h → Run ok base size [] h
  | alloc {h h' : KernelAllocator maxPages} {out : List (ℕ × Layout)} {ptr : ℕ} {l : Layout} :
    Run ok base size out h → ok h l → h.alloc l = some (ptr, h') → ptr ≠ 0 →
      Run ok base size ((ptr, l) :: out) h'
  | fail {h h' : KernelAllocator maxPages} {out : List (ℕ × Layout)} {l : Layout} :
    Run ok base size out h → ok h l → h.alloc l = some (0, h') → Run ok base size out h'
  | dealloc {h h' : KernelAllocator maxPages} {out : List (ℕ × Layout)} {ptr : ℕ} {l : Layout} :
    Run ok base size out h → (ptr, l) ∈ out → h.dealloc ptr l = some h' →
      Run ok base size (out.erase (ptr, l)) h'
  | write {h : KernelAllocator maxPages} {out : List (ℕ × Layout)} {ptr : ℕ} {l : Layout}
      {m : Memory} :
    Run ok base size out h → (ptr, l) ∈ out → h.mem.Writes ptr l.size m →
      Run ok base size out { h with mem := m }

/-- The object of a small allocation. -/
def objOf (y : ℕ × Layout) : Option (ℕ × Fin numClasses) :=
  if y.2.usesSlab then (sizeClassIndex y.2.size).map (y.1, ·) else none

/-- The block of any other allocation. -/
def blockOf (base : ℕ) (y : ℕ × Layout) : Option Block :=
  if y.2.usesSlab then none else some (blockAt base (y.1, y.2.order))

/-- The allocations `out` are where their layouts say. -/
structure Owned (base N : ℕ) (out : List (ℕ × Layout)) (h : KernelAllocator maxPages) :
    Prop where
  initialized : h.initialized = true
  heap : h.Heap base N (out.filterMap objOf) (out.filterMap (blockOf base))
  ne_zero : ∀ y ∈ out, y.1 ≠ 0
  aligned : ∀ y ∈ out, y.2.align ∣ y.1
  addr : ∀ y ∈ out, y.2.usesSlab = false → blockAddr base (blockAt base (y.1, y.2.order)) = y.1

variable {out : List (ℕ × Layout)} {ptr : ℕ} {y : ℕ × Layout}

theorem objOf_eq (hs : l.usesSlab = true) (hc : sizeClassIndex l.size = some c) :
    objOf (ptr, l) = some (ptr, c) := by
  rw [objOf, if_pos hs, hc, map_some]

theorem objOf_eq_none (hs : l.usesSlab = false) : objOf (ptr, l) = none :=
  if_neg (by simp [hs])

theorem blockOf_eq (hs : l.usesSlab = false) :
    blockOf base (ptr, l) = some (blockAt base (ptr, l.order)) :=
  if_neg (by simp [hs])

theorem blockOf_eq_none (hs : l.usesSlab = true) : blockOf base (ptr, l) = none :=
  if_pos hs

/-- The class of a small request. -/
theorem exists_class (hs : l.usesSlab = true) : ∃ c, sizeClassIndex l.size = some c :=
  exists_sizeClassIndex (of_decide_eq_true hs).1

section

variable (ho : Owned base N out h)
include ho

/-- One more allocation. -/
theorem Owned.cons (hinit : h'.initialized = h.initialized)
    (hh : h'.Heap base N (((ptr, l) :: out).filterMap objOf)
      (((ptr, l) :: out).filterMap (blockOf base)))
    (h0 : ptr ≠ 0) (hal : l.align ∣ ptr)
    (haddr : l.usesSlab = false → blockAddr base (blockAt base (ptr, l.order)) = ptr) :
    Owned base N ((ptr, l) :: out) h' where
  initialized := hinit.trans ho.initialized
  heap := hh
  ne_zero := forall_mem_cons.2 ⟨h0, ho.ne_zero⟩
  aligned := forall_mem_cons.2 ⟨hal, ho.aligned⟩
  addr := forall_mem_cons.2 ⟨haddr, ho.addr⟩

/-- One allocation less. -/
theorem Owned.erase (hinit : h'.initialized = h.initialized)
    (hh : h'.Heap base N ((out.erase y).filterMap objOf)
      ((out.erase y).filterMap (blockOf base))) : Owned base N (out.erase y) h' where
  initialized := hinit.trans ho.initialized
  heap := hh
  ne_zero z hz := ho.ne_zero z (mem_of_mem_erase hz)
  aligned z hz := ho.aligned z (mem_of_mem_erase hz)
  addr z hz := ho.addr z (mem_of_mem_erase hz)

theorem Owned.alloc (hok : h.Serves l) :
    Returns (N ≤ maxPages) (h.alloc l) fun r =>
      (r.1 = 0 ∧ Owned base N out r.2) ∨ (r.1 ≠ 0 ∧ Owned base N ((r.1, l) :: out) r.2) := by
  have hinit := ho.initialized
  rw [KernelAllocator.alloc, if_neg (by simp [hinit])]
  cases hs : l.usesSlab with
  | true =>
    obtain ⟨c, hc⟩ := exists_class hs
    refine (ho.heap.trySlabAlloc hc (hok.slab hs c hc)).bind ?_
    rintro ⟨r, h'⟩ (⟨rfl, rfl, hnone⟩ | ⟨a, p, rfl, hp, ha, hinit', hh⟩)
    · -- There is no page for the slab, and so none for the buddy allocator.
      have hnone' := h'.buddy.searchOrder_mono (Nat.zero_le l.order) hnone
      refine (ho.heap.tryBuddyAlloc hok.align).mono ?_
      rintro r (⟨h0, heq, -⟩ | ⟨hsome, -⟩)
      · exact .inl ⟨h0, heq.symm ▸ ho⟩
      · exact absurd hnone' (not_lt.2 hsome)
    · have h0 := object_ne_zero ha
      refine .some (.inr ⟨h0, ho.cons hinit' ?_ h0 (l.align_dvd_object hs hc ha hp) ?_⟩)
      · rwa [filterMap_cons_some (objOf_eq hs hc),
          filterMap_cons_none (blockOf_eq_none hs)]
      · exact fun hs' => absurd hs (by simp [hs'])
  | false =>
    refine (ho.heap.tryBuddyAlloc hok.align).mono ?_
    rintro ⟨r, h'⟩ (⟨h0, heq, -⟩ | ⟨-, i, rfl, hdvd, hinit', hh⟩)
    · exact .inl ⟨h0, heq.symm ▸ ho⟩
    · obtain ⟨L, hinv⟩ := ho.heap
      have hat := blockAt_blockAddr base ⟨l.order, i⟩
      have h0 : blockAddr base ⟨l.order, i⟩ ≠ 0 := by
        have := hok.base_ne
        rw [hinv.buddy.base_eq] at this
        rw [blockAddr]
        omega
      refine .inr ⟨h0, ho.cons hinit' ?_ h0 hdvd fun _ => by rw [hat]⟩
      rwa [filterMap_cons_none (objOf_eq_none hs), filterMap_cons_some (blockOf_eq hs), hat]

theorem Owned.dealloc (hy : (ptr, l) ∈ out) :
    Returns (N ≤ maxPages) (h.dealloc ptr l) (Owned base N (out.erase (ptr, l))) := by
  have hinit := ho.initialized
  have h0 := ho.ne_zero _ hy
  have hperm := perm_cons_erase hy
  obtain ⟨L, hinv⟩ := ho.heap
  replace hinv := hinv.perm (hperm.filterMap _) (hperm.filterMap _)
  rw [KernelAllocator.dealloc, if_neg (by simp [hinit, h0])]
  cases hs : l.usesSlab with
  | true =>
    obtain ⟨c, hc⟩ := exists_class hs
    rw [filterMap_cons_some (objOf_eq hs hc), filterMap_cons_none (blockOf_eq_none hs)] at hinv
    obtain ⟨p, -, -, m', hfree, hinv'⟩ := hinv.freeObject hc
    rw [hfree]
    exact .some (ho.erase rfl ⟨_, hinv'⟩)
  | false =>
    rw [filterMap_cons_none (objOf_eq_none hs), filterMap_cons_some (blockOf_eq hs)] at hinv
    have haddr := ho.addr (ptr, l) hy hs
    have hpage := hinv.buddy.alignDown_blockAddr (blockAt base (ptr, l.order))
    rw [haddr] at hpage
    have hfree := hinv.freeBlock
    rw [haddr] at hfree
    rw [hpage, ite_self]
    exact hfree.map fun r ⟨_, hinv'⟩ => ho.erase rfl ⟨L, hinv'⟩

theorem Owned.write (hy : (ptr, l) ∈ out) {m : Memory}
    (hw : h.mem.Writes ptr l.size m) : Owned base N out { h with mem := m } where
  __ := ho
  heap := by
    obtain ⟨L, hinv⟩ := ho.heap
    cases hs : l.usesSlab with
    | true =>
      obtain ⟨c, hc⟩ := exists_class hs
      refine ⟨L, hinv.write_obj (mem_filterMap.2 ⟨_, hy, objOf_eq hs hc⟩) ?_⟩
      exact hw.mono le_rfl (Nat.add_le_add_left (sizeClassIndex_spec hc) ptr)
    | false =>
      refine ⟨L, hinv.write_block (mem_filterMap.2 ⟨_, hy, blockOf_eq hs⟩) ?_⟩
      rw [ho.addr _ hy hs]
      exact hw.mono le_rfl (Nat.add_le_add_left l.size_le_block ptr)

end

theorem Run.owned (hr : Run Serves base size out h) : Owned base (size / pageSize4K) out h := by
  induction hr with
  | init hi =>
    obtain ⟨hinit, -, hh⟩ := (init_spec maxPages base _ size).post _ hi
    exact ⟨hinit, hh, by simp, by simp, by simp⟩
  | alloc _ hok ha h0 ih =>
    rcases (ih.alloc hok).post _ ha with ⟨h0', -⟩ | ⟨-, ho⟩
    · exact absurd h0' h0
    · exact ho
  | fail _ hok ha ih =>
    rcases (ih.alloc hok).post _ ha with ⟨-, ho⟩ | ⟨h0, -⟩
    · exact ho
    · exact absurd rfl h0
  | dealloc _ hy hd ih => exact (ih.dealloc hy).post _ hd
  | write _ hy hw ih => exact ih.write hy hw

/-- What holds of the allocator with the allocations `out` not given back. -/
structure Sound (N : ℕ) (out : List (ℕ × Layout)) (h : KernelAllocator maxPages) : Prop where
  aligned : ∀ y ∈ out, y.2.align ∣ y.1
  apart : out.Pairwise fun y z => Apart y.1 y.2.size z.1 z.2.size
  freePages : out = [] → h.buddy.freePages + h.slab.pages.length = h.buddy.totalPages
  alloc_returns : N ≤ maxPages → ∀ l, h.Serves l → ∃ r, h.alloc l = some r
  dealloc_returns : N ≤ maxPages → ∀ y ∈ out, ∃ h', h.dealloc y.1 y.2 = some h'

/-- Two allocations are different objects, different blocks, or an object and a block. -/
theorem Owned.apart (ho : Owned base N out h) :
    out.Pairwise fun y z => Apart y.1 y.2.size z.1 z.2.size := by
  obtain ⟨L, hinv⟩ := ho.heap
  refine pairwise_iff_forall_sublist.2 ?_
  rintro ⟨p, l⟩ ⟨p', l'⟩ hsub
  have hmem : (p, l) ∈ out := hsub.subset (by simp)
  have hmem' : (p', l') ∈ out := hsub.subset (by simp)
  have hobjs := hinv.slab.objs_apart.sublist (hsub.filterMap objOf)
  have hblocks := hinv.blocks_apart.sublist (hsub.filterMap (blockOf base))
  -- An object and a block, whichever comes first.
  have hmixed {q q' : ℕ} {k k' : Layout} (hq : (q, k) ∈ out) (hq' : (q', k') ∈ out)
      (hk : k.usesSlab = true) (hk' : k'.usesSlab = false) : Apart q k.size q' k'.size := by
    obtain ⟨c, hc⟩ := exists_class hk
    have hap := hinv.obj_apart_block (mem_filterMap.2 ⟨_, hq, objOf_eq hk hc⟩)
      (mem_filterMap.2 ⟨_, hq', blockOf_eq hk'⟩)
    rw [ho.addr (q', k') hq' hk'] at hap
    exact hap.of_le (sizeClassIndex_spec hc) k'.size_le_block
  cases hs : l.usesSlab with
  | true =>
    cases hs' : l'.usesSlab with
    | true =>
      obtain ⟨c, hc⟩ := exists_class hs
      obtain ⟨c', hc'⟩ := exists_class hs'
      rw [filterMap_cons_some (objOf_eq hs hc), filterMap_cons_some (objOf_eq hs' hc')] at hobjs
      have hap := rel_of_pairwise_cons hobjs mem_cons_self
      exact hap.of_le (sizeClassIndex_spec hc) (sizeClassIndex_spec hc')
    | false => exact hmixed hmem hmem' hs hs'
  | false =>
    cases hs' : l'.usesSlab with
    | true => exact (hmixed hmem' hmem hs' hs).symm
    | false =>
      rw [filterMap_cons_some (blockOf_eq hs), filterMap_cons_some (blockOf_eq hs')] at hblocks
      have hap := rel_of_pairwise_cons hblocks mem_cons_self
      rw [ho.addr (p, l) hmem hs, ho.addr (p', l') hmem' hs'] at hap
      exact hap.of_le l.size_le_block l'.size_le_block

theorem Owned.sound (ho : Owned base N out h) : Sound N out h := by
  refine ⟨ho.aligned, ho.apart, ?_, fun hN l hok => (ho.alloc hok).exists_some hN,
    fun hN y hy => (ho.dealloc hy).exists_some hN⟩
  rintro rfl
  obtain ⟨L, hinv⟩ := ho.heap
  have := hinv.freePages
  rw [hinv.buddy.totalPages]
  simpa using this

/-- In every run of a region in which each request is served as its layout says, pointers are
    aligned, allocations do not overlap, and once all are given back the free pages are those that
    are not slab pages; no call panics. -/
theorem run_serves {size : ℕ} (hr : Run Serves base size out h) : Sound (size / pageSize4K) out h :=
  hr.owned.sound

/-- A region of 1024 pages, with a block for each order that it has room for besides the slab pages.
    -/
theorem exists_init (base : ℕ) (hal : base % pageSize4K = 0)
    (hfits : base + 1024 * pageSize4K < 2 ^ 64) :
    ∃ (m : Memory) (h : KernelAllocator 262144), (new m).init base 0x400000 = some h ∧
      h.initialized = true ∧ h.Heap base 1024 [] [] ∧
      ∀ k ≤ 6, h.buddy.searchOrder k ≤ maxOrder := by
  let m : Memory := ⟨fun _ => ⟨0, 0, 0, 0⟩, fun _ => 0⟩
  have hspec := init_spec 262144 base m 0x400000
  obtain ⟨h, hi, hinit, hlen, hh⟩ := hspec.get ⟨hal, by decide, hfits⟩
  refine ⟨m, h, hi, hinit, hh, fun k hk => ?_⟩
  obtain ⟨L, hinv⟩ := hh
  refine hinv.searchOrder_le (hk.trans (by decide)) ?_
  calc (h.slab.pages.length + 0 + 1) * 2 ^ k ≤ 9 * 2 ^ 6 :=
        Nat.mul_le_mul (Nat.succ_le_succ hlen) (Nat.pow_le_pow_right (by decide) hk)
    _ ≤ 1024 := by decide

/-- A block of two pages is allocated. -/
theorem run_serves_block : ∃ ptr, ∃ h : KernelAllocator 262144,
    Sound 1024 [(ptr, ⟨8192, 8, ⟨3, rfl⟩, by decide⟩)] h := by
  obtain ⟨m, h, hi, hinit, hh, hsearch⟩ := exists_init 0x10000 (by decide) (by decide)
  have hok : h.Serves ⟨8192, 8, ⟨3, rfl⟩, by decide⟩ := by
    obtain ⟨L, hinv⟩ := hh
    refine ⟨?_, fun hs => absurd hs (by decide), fun hlt => absurd hlt (by decide)⟩
    rw [hinv.buddy.base_eq]
    decide
  obtain ⟨⟨ptr, h'⟩, ha, hcase⟩ := (hh.tryBuddyAlloc hok.align).get (by decide)
  rcases hcase with ⟨-, -, hnone⟩ | ⟨-, i, rfl, -⟩
  · exact absurd (hsearch 1 (by decide)) (not_le.2 hnone)
  · have ha' : h.alloc ⟨8192, 8, ⟨3, rfl⟩, by decide⟩ =
        some (blockAddr 0x10000 ⟨1, i⟩, h') := by
      rw [alloc, hinit]
      exact ha
    have h0 : 0 < blockAddr 0x10000 ⟨1, i⟩ := Nat.add_pos_left (by decide) _
    exact ⟨_, h', run_serves (.alloc (.init hi) hok ha' h0.ne')⟩

variable {b : BuddyAllocator maxPages}

/-- The pointer of an over-aligned block. -/
theorem alloc_of_lt {addr : ℕ} (hinit : h.initialized = true)
    (hs : l.usesSlab = false) (hlt : pageSize4K < l.align) (hfits : addr + l.align < 2 ^ 64)
    (hall : h.buddy.allocate l.order = some (.ok addr, b)) :
    h.alloc l = some (alignDown (addr + l.align - 1) l.align, { h with buddy := b }) := by
  rw [alloc, if_neg (by simp [hinit]), if_neg (by simp [hs]),
    tryBuddyAlloc, hall, bind_eq_bind, bind_some]
  dsimp only
  rw [if_pos hlt, checkedAdd_eq_some.2 ⟨hfits, rfl⟩]
  rfl

/-- Two pages, aligned to their size. -/
def twoPages : Layout := ⟨8192, 8192, ⟨13, rfl⟩, by decide⟩

theorem order_twoPages : twoPages.order = 2 := by
  decide

/-- The pointer of two pages in a block of the region at the second page is not the address of the
    block. -/
theorem alignDown_block (i : ℕ) :
    alignDown (blockAddr 0x1000 ⟨2, i⟩ + 8192 - 1) 8192 = 0x2000 + i * 0x4000 := by
  rw [show 8192 = 2 ^ 13 from rfl, alignDown_two_pow]
  simp only [blockAddr, pageSize4K]
  omega

theorem free_block (hb : b.base = 0x1000) (i : ℕ) :
    b.free (0x2000 + i * 0x4000) 2 = some (.error .badAlignment, b) := by
  have hal : isAligned (0x2000 + i * 0x4000) pageSize4K = true := by
    rw [isAligned_page, pageSize4K]
    omega
  rw [BuddyAllocator.free, if_neg (by decide), if_neg (by simp [hal]),
    if_neg (by omega), if_pos (by rw [pageSize4K]; omega)]

/-- In a region at the second page, a block of two pages aligned to their size is not given back:
    its pointer is not the address of the block. -/
theorem dealloc_leaks : ∃ (h h₁ h₂ : KernelAllocator 262144) (ptr : ℕ),
    Run (fun _ _ => True) 0x1000 0x400000 [] h ∧ h.alloc twoPages = some (ptr, h₁) ∧ ptr ≠ 0 ∧
    h₁.dealloc ptr twoPages = some h₂ ∧
    h₂.buddy.freePages + h₂.slab.pages.length ≠ h₂.buddy.totalPages := by
  obtain ⟨m, h, hi, hinit, ⟨L, hinv⟩, hsearch⟩ := exists_init 0x1000 (by decide) (by decide)
  rcases hinv.allocateBlock twoPages.order with ⟨hnone, -⟩ | ⟨-, hret⟩
  · rw [order_twoPages] at hnone
    exact absurd (hsearch 2 (by decide)) (not_le.2 hnone)
  obtain ⟨⟨r, b⟩, hall, i, rfl, hinv'⟩ := hret.get (by decide)
  have hle := twoPages.align_le_block (by decide) i
  have hlt := hinv'.block_end_lt mem_cons_self
  have hptr := alloc_of_lt hinit (by decide) (by decide)
    ((Nat.add_le_add_left hle _).trans_lt hlt) hall
  have hpages := hinv'.freePages
  rw [order_twoPages] at hptr hpages
  refine ⟨h, _, { h with buddy := b }, _, .init hi, hptr, ?_, ?_, ?_⟩
  · exact ((alignDown_block i).trans_ne (by omega))
  · rw [show twoPages.align = 8192 from rfl, alignDown_block]
    have hdown : alignDown (0x2000 + i * 0x4000) pageSize4K = 0x2000 + i * 0x4000 := by
      rw [alignDown_page, pageSize4K]
      omega
    rw [dealloc, if_neg (by simp [hinit]), if_neg (by decide), hdown, ite_self,
      order_twoPages, free_block hinv'.buddy.base_eq, map_some]
  · rw [hinv'.buddy.totalPages]
    simp at hpages
    dsimp only
    omega

end KernelAllocator

end SmallAIOS.Mem

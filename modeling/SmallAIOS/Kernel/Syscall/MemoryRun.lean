import SmallAIOS.Kernel.Mem.Available
import Mathlib.Data.Nat.Size

/-!
# Runs of the memory syscalls

In a run the slabs get pages, and clients allocate, write to what they got, and
free what they have. What `mem_alloc` takes is given back by `mem_free`, exactly,
if `mem_free` chooses the allocator it was taken from, and its pointer is
aligned if the region and the block asked for are (`run_alloc_free`). A request
of at most 2048 bytes with other flags, or for an alignment of more than 16, is
served by the buddy allocator and cannot be freed (`alloc_free_fails`).
-/

namespace SmallAIOS.Syscall

open Lib Mem BuddyAllocator SlabAllocator List Nat

/-! ## Memory syscalls

`mem_alloc` serves a request from the slab allocator or from the buddy
allocator of the kernel state, chosen by its size, its alignment and its flags.
`mem_free` is given the size only, and chooses by that. Results are 64-bit
signed numbers: an address, or an error, which is negative.
-/

/-- Errors of syscalls. -/
inductive SyscallError
  | success
  | noSys
  | permissionDenied
  | invalidArgument
  | outOfMemory
  | notFound
  | alreadyExists
  | timedOut
  | busy
  | bufferTooSmall
  | invalidHandle
  | notSupported
  | ioError
  | deviceError
  | modelError
  | inferenceError
  | badAddress
  deriving DecidableEq

open SyscallError

/-- The raw return value of an error. -/
def SyscallError.asI64 : SyscallError → ℤ
  | success => 0
  | noSys => -1
  | permissionDenied => -2
  | invalidArgument => -3
  | outOfMemory => -4
  | notFound => -5
  | alreadyExists => -6
  | timedOut => -7
  | busy => -8
  | bufferTooSmall => -9
  | invalidHandle => -10
  | notSupported => -11
  | ioError => -12
  | deviceError => -13
  | modelError => -14
  | inferenceError => -15
  | badAddress => -16

/-- The error of a syscall for one of the memory subsystem. -/
def memErrorToSyscall : MemError → ℤ
  | .outOfMemory => outOfMemory.asI64
  | .badAlignment => invalidArgument.asI64
  | .invalidAddress => badAddress.asI64
  | .doubleFree => invalidArgument.asI64
  | .sizeTooLarge => invalidArgument.asI64
  | .orderTooLarge => invalidArgument.asI64
  | .slabExhausted => outOfMemory.asI64
  | .tensorPoolExhausted => outOfMemory.asI64
  | .mappingError => ioError.asI64
  | .notMapped => notFound.asI64
  | .alreadyMapped => alreadyExists.asI64

/-- A machine word as a signed number. -/
def wordAsI64 (n : ℕ) : ℤ := if n < 2 ^ 63 then n else n - 2 ^ 64

/-- Whether a word is a power of two. -/
def isPowerOfTwo (n : ℕ) : Bool := n == 2 ^ n.log2

/-- Convert size to buddy allocator order: the number of bits of the number of pages minus one. -/
def sizeToOrder (size : ℕ) : ℕ :=
  if (size + (pageSize4K - 1)) / pageSize4K ≤ 1 then 0
  else ((size + (pageSize4K - 1)) / pageSize4K - 1).size

/-- Whether `mem_alloc` uses the slab allocator; the flags are a 32-bit number. -/
def useSlab (size align flags : ℕ) : Bool :=
  decide (size ≤ 2048 ∧ flags % 2 ^ 32 = 0 ∧ (align = 0 ∨ align ≤ 16))

/-- The allocators of the kernel state, with the memory they manage. -/
structure KernelState (maxPages : ℕ) where
  buddy : BuddyAllocator maxPages
  slab : SlabAllocator
  mem : Memory

/-- The result of a call that returns nothing but errors. -/
def unitMemResult : Except MemError Unit → ℤ
  | .ok () => success.asI64
  | .error e => memErrorToSyscall e

/-- The result of a call that returns an address. -/
def addrMemResult : Except MemError ℕ → ℤ
  | .ok addr => wordAsI64 addr
  | .error e => memErrorToSyscall e

namespace KernelState

variable {maxPages : ℕ} (k : KernelState maxPages)

/-- Allocate kernel memory. -/
def sysMemAlloc (size align flags : ℕ) : Option (ℤ × KernelState maxPages) :=
  if size = 0 then some (invalidArgument.asI64, k)
  else if align ≠ 0 ∧ !isPowerOfTwo align then some (invalidArgument.asI64, k)
  else if useSlab size align flags then
    -- Small allocations go through the slab allocator.
    (k.slab.allocate k.mem size).map fun r => (addrMemResult r.1, { k with mem := r.2 })
  else
    -- Large allocations go through the buddy allocator.
    (k.buddy.allocate (sizeToOrder size)).map fun r =>
      (addrMemResult r.1, { k with buddy := r.2 })

/-- Free kernel memory. -/
def sysMemFree (ptr size : ℕ) : Option (ℤ × KernelState maxPages) :=
  if ptr = 0 then some (invalidArgument.asI64, k)
  else if size = 0 then some (invalidArgument.asI64, k)
  else if size ≤ 2048 then
    (k.slab.free k.mem ptr size).map fun r => (unitMemResult r.1, { k with mem := r.2 })
  else
    (k.buddy.free ptr (sizeToOrder size)).map fun r => (unitMemResult r.1, { k with buddy := r.2 })

/-- Give a page of the buddy allocator to a class of the slab allocator. -/
def addSlabPage (classIdx : ℕ) : Option (KernelState maxPages) :=
  k.buddy.allocatePage.map fun r =>
    match r.1 with
    | .error _ => { k with buddy := r.2 }
    | .ok page =>
      { buddy := r.2
        slab := (k.slab.addSlabPage k.mem classIdx page).2.1
        mem := (k.slab.addSlabPage k.mem classIdx page).2.2 }

end KernelState

variable {maxPages base N size n : ℕ} {k k' : KernelState maxPages}

/-! ## Orders, alignments and results -/

theorem size_le_block (size : ℕ) : size ≤ 2 ^ sizeToOrder size * pageSize4K := by
  have hpages : (size + (pageSize4K - 1)) / pageSize4K ≤ 2 ^ sizeToOrder size := by
    rw [sizeToOrder]
    split
    · next h => exact h
    · have := lt_size_self ((size + (pageSize4K - 1)) / pageSize4K - 1)
      omega
  refine le_trans ?_ (mul_le_mul_right pageSize4K hpages)
  rw [pageSize4K]
  omega

theorem memErrorToSyscall_neg (e : MemError) : memErrorToSyscall e < 0 := by
  cases e <;> decide

theorem wordAsI64_toNat (h : 0 ≤ wordAsI64 n) (hn : n < 2 ^ 64) : (wordAsI64 n).toNat = n := by
  rw [wordAsI64] at *
  split at h
  · next hlt => rw [if_pos hlt, Int.toNat_natCast]
  · omega

theorem isPowerOfTwo_iff : isPowerOfTwo n = true ↔ ∃ k, n = 2 ^ k := by
  rw [isPowerOfTwo, beq_iff_eq]
  constructor
  · exact fun h => ⟨_, h⟩
  · rintro ⟨k, rfl⟩
    rw [log2_two_pow]

/-! ## Runs -/

/-- The bytes that can be allocated. -/
def KernelState.available (k : KernelState maxPages) : Set ℕ := Mem.available k.buddy k.slab k.mem

open KernelState

/-- An allocation: its pointer, the arguments it was asked for with, and the bytes that were
    available before it and not after it. -/
structure Allocation where
  ptr : ℕ
  size : ℕ
  align : ℕ
  flags : ℕ
  taken : Set ℕ

open Allocation

/-- The kernel memory state `k` over a region is reached by adding pages to the slabs, by the memory
    syscalls, and by writes of the clients; `out` are the allocations not freed since. Only those
    are freed and written to. -/
inductive Run (maxPages base size : ℕ) : List Allocation → KernelState maxPages → Prop
  | boot {b : BuddyAllocator maxPages} {m : Memory} :
    BuddyAllocator.boot maxPages base size = some b → Run maxPages base size [] ⟨b, .new, m⟩
  | addSlabPage {k k' : KernelState maxPages} {out : List Allocation} {classIdx : ℕ} :
    Run maxPages base size out k → k.addSlabPage classIdx = some k' → Run maxPages base size out k'
  | alloc {k k' : KernelState maxPages} {out : List Allocation} {n align flags : ℕ} {r : ℤ} :
    Run maxPages base size out k → k.sysMemAlloc n align flags = some (r, k') → 0 ≤ r →
      Run maxPages base size (⟨r.toNat, n, align, flags, k.available \ k'.available⟩ :: out) k'
  | allocFail {k k' : KernelState maxPages} {out : List Allocation} {n align flags : ℕ} {r : ℤ} :
    Run maxPages base size out k → k.sysMemAlloc n align flags = some (r, k') → r < 0 →
      Run maxPages base size out k'
  | free {k k' : KernelState maxPages} {l l' : List Allocation} {y : Allocation} :
    Run maxPages base size (l ++ y :: l') k → k.sysMemFree y.ptr y.size = some (0, k') →
      Run maxPages base size (l ++ l') k'
  | freeFail {k k' : KernelState maxPages} {out : List Allocation} {y : Allocation} {r : ℤ} :
    Run maxPages base size out k → y ∈ out → k.sysMemFree y.ptr y.size = some (r, k') → r ≠ 0 →
      Run maxPages base size out k'
  | write {k : KernelState maxPages} {out : List Allocation} {y : Allocation} {m : Memory} :
    Run maxPages base size out k → y ∈ out → k.mem.Writes y.ptr y.size m →
      Run maxPages base size out { k with mem := m }

namespace Allocation

/-- Whether the allocation is an object of a slab. -/
def inSlab (y : Allocation) : Bool := useSlab y.size y.align y.flags

/-- The object of an allocation. -/
def obj (y : Allocation) : Option (ℕ × Fin numClasses) :=
  if y.inSlab then (sizeClassIndex y.size).map (y.ptr, ·) else none

/-- The block of an allocation. -/
def block (base : ℕ) (y : Allocation) : Option Block :=
  if y.inSlab then none else some (blockAt base (y.ptr, sizeToOrder y.size))

/-- What was taken is the object or the block. -/
structure Placed (base : ℕ) (y : Allocation) : Prop where
  size_ne : y.size ≠ 0
  align_eq : y.align = 0 ∨ ∃ j, y.align = 2 ^ j
  taken_obj : ∀ c, y.obj = some (y.ptr, c) → y.taken = objectBytes c y.ptr
  taken_block : ∀ x, y.block base = some x → blockAddr base x = y.ptr ∧ y.taken = blockBytes base x

end Allocation

/-- The allocations `out` are where their arguments say. -/
structure Owned (base N : ℕ) (out : List Allocation) (k : KernelState maxPages) : Prop where
  /-- What was allocated and not returned, as its address is a negative number, is lost. -/
  heap : ∃ lostObjs lostBlocks L, HeapInv base N (out.filterMap (·.obj) ++ lostObjs)
    (out.filterMap (·.block base) ++ lostBlocks) L k.buddy k.slab k.mem
  placed : ∀ y ∈ out, y.Placed base

variable {out l l' : List Allocation} {y : Allocation} {c : Fin numClasses} {align flags : ℕ}
  {r : ℤ}

namespace Allocation

theorem obj_eq (hs : y.inSlab = true) (hc : sizeClassIndex y.size = some c) :
    y.obj = some (y.ptr, c) := by
  rw [obj, if_pos hs, hc, Option.map_some]

theorem obj_eq_none (hs : y.inSlab = false) : y.obj = none :=
  if_neg (by simp [hs])

theorem block_eq (hs : y.inSlab = false) :
    y.block base = some (blockAt base (y.ptr, sizeToOrder y.size)) :=
  if_neg (by simp [hs])

theorem block_eq_none (hs : y.inSlab = true) : y.block base = none :=
  if_pos hs

theorem exists_class (hs : y.inSlab = true) : ∃ c, sizeClassIndex y.size = some c :=
  exists_sizeClassIndex (of_decide_eq_true hs).1

end Allocation

/-! ## Allocating -/

variable {L : ℕ → List ℕ} {lo : List (ℕ × Fin numClasses)} {lb : List Block}

/-- One more object is allocated. -/
theorem Owned.cons_obj
    (hinv : HeapInv base N ((y.ptr, c) :: (out.filterMap (·.obj) ++ lo))
      (out.filterMap (·.block base) ++ lb) L k.buddy k.slab k.mem)
    (hp : ∀ y ∈ out, y.Placed base) (hs : y.inSlab = true) (hc : sizeClassIndex y.size = some c)
    (hn : y.size ≠ 0) (hal : y.align = 0 ∨ ∃ j, y.align = 2 ^ j)
    (htaken : y.taken = objectBytes c y.ptr) : Owned base N (y :: out) k := by
  refine ⟨⟨lo, lb, L, ?_⟩, forall_mem_cons.2 ⟨⟨hn, hal, fun c' hc' => ?_, fun x hx => ?_⟩, hp⟩⟩
  · rwa [filterMap_cons_some (obj_eq hs hc),
      filterMap_cons_none (block_eq_none hs)]
  · rw [obj_eq hs hc] at hc'
    cases hc'
    exact htaken
  · rw [block_eq_none hs] at hx
    cases hx

/-- One more block is allocated. -/
theorem Owned.cons_block {i : ℕ}
    (hinv : HeapInv base N (out.filterMap (·.obj) ++ lo)
      (⟨sizeToOrder y.size, i⟩ :: (out.filterMap (·.block base) ++ lb)) L k.buddy k.slab k.mem)
    (hp : ∀ y ∈ out, y.Placed base) (hs : y.inSlab = false) (hn : y.size ≠ 0)
    (hal : y.align = 0 ∨ ∃ j, y.align = 2 ^ j)
    (hptr : blockAddr base ⟨sizeToOrder y.size, i⟩ = y.ptr)
    (htaken : y.taken = blockBytes base ⟨sizeToOrder y.size, i⟩) : Owned base N (y :: out) k := by
  have hat : blockAt base (y.ptr, sizeToOrder y.size) = ⟨sizeToOrder y.size, i⟩ := by
    rw [← hptr]
    exact blockAt_blockAddr base ⟨sizeToOrder y.size, i⟩
  refine ⟨⟨lo, lb, L, ?_⟩, forall_mem_cons.2 ⟨⟨hn, hal, fun c' hc' => ?_, fun x hx => ?_⟩, hp⟩⟩
  · rwa [filterMap_cons_none (obj_eq_none hs),
      filterMap_cons_some (block_eq hs), hat]
  · rw [obj_eq_none hs] at hc'
    cases hc'
  · rw [block_eq hs, hat] at hx
    cases hx
    exact ⟨hptr, htaken⟩

section

variable (ho : Owned base N out k)
include ho

/-- The object allocated. -/
theorem Owned.allocObject (hn : n ≠ 0) (hal : align = 0 ∨ ∃ j, align = 2 ^ j)
    (hs : useSlab n align flags = true)
    (ha : (k.slab.allocate k.mem n).map (fun r => (addrMemResult r.1, { k with mem := r.2 })) =
      some (r, k')) :
    (r < 0 ∧ Owned base N out k') ∨
    (0 ≤ r ∧ Owned base N (⟨r.toNat, n, align, flags, k.available \ k'.available⟩ :: out) k') := by
  obtain ⟨lo, lb, L, hinv⟩ := ho.heap
  obtain ⟨c, hc⟩ := exists_sizeClassIndex (of_decide_eq_true hs).1
  rcases hinv.allocateObject hc with ⟨-, hall⟩ | ⟨p, hp, -, a, hmem, l, m', hl, hall, hinv'⟩
  · rw [hall] at ha
    cases ha
    exact .inl ⟨memErrorToSyscall_neg .slabExhausted, ho⟩
  · rw [hall] at ha
    cases ha
    dsimp only [addrMemResult]
    by_cases h0 : 0 ≤ wordAsI64 a
    · rw [wordAsI64_toNat h0 (hinv.obj_lt hp hmem)]
      have hadds := hinv.available_object hinv' hp hmem (by
        rw [Function.update_self, Function.update_idem, ← hl, Function.update_eq_self])
      exact .inr ⟨h0, .cons_obj hinv' ho.placed hs hc hn hal hadds.diff⟩
    · exact .inl ⟨not_le.1 h0, ⟨(a, c) :: lo, lb, _, hinv'.perm perm_middle.symm (.refl _)⟩,
        ho.placed⟩

/-- The block allocated. -/
theorem Owned.allocBlock (hn : n ≠ 0) (hal : align = 0 ∨ ∃ j, align = 2 ^ j)
    (hs : useSlab n align flags = false)
    (ha : (k.buddy.allocate (sizeToOrder n)).map
      (fun r => (addrMemResult r.1, { k with buddy := r.2 })) = some (r, k')) :
    (r < 0 ∧ Owned base N out k') ∨
    (0 ≤ r ∧ Owned base N (⟨r.toNat, n, align, flags, k.available \ k'.available⟩ :: out) k') := by
  obtain ⟨lo, lb, L, hinv⟩ := ho.heap
  rcases hinv.allocateBlock (sizeToOrder n) with ⟨-, e, he⟩ | ⟨-, hret⟩
  · rw [he] at ha
    cases ha
    exact .inl ⟨memErrorToSyscall_neg e, ho⟩
  · obtain ⟨⟨q, b⟩, hall, ha⟩ := Option.map_eq_some_iff.1 ha
    obtain ⟨i, rfl, hinv'⟩ := hret.post _ hall
    cases ha
    have hlt := hinv'.block_end_lt mem_cons_self
    dsimp only [addrMemResult]
    by_cases h0 : 0 ≤ wordAsI64 (blockAddr base ⟨sizeToOrder n, i⟩)
    · rw [wordAsI64_toNat h0 ((le_add_right _ _).trans_lt hlt)]
      have hadds := hinv.available_block hinv'
      exact .inr ⟨h0, .cons_block hinv' ho.placed hs hn hal rfl hadds.diff⟩
    · exact .inl ⟨not_le.1 h0, ⟨lo, ⟨sizeToOrder n, i⟩ :: lb, L,
        hinv'.perm (.refl _) perm_middle.symm⟩, ho.placed⟩

theorem Owned.alloc (ha : k.sysMemAlloc n align flags = some (r, k')) :
    (r < 0 ∧ Owned base N out k') ∨
    (0 ≤ r ∧ Owned base N (⟨r.toNat, n, align, flags, k.available \ k'.available⟩ :: out) k') := by
  rw [sysMemAlloc] at ha
  split at ha
  · cases ha
    exact .inl ⟨by decide, ho⟩
  · next hn =>
    split at ha
    · cases ha
      exact .inl ⟨by decide, ho⟩
    · next hal =>
      have hal' : align = 0 ∨ ∃ j, align = 2 ^ j := by
        rw [← isPowerOfTwo_iff]
        simpa [Classical.or_iff_not_imp_left] using hal
      cases hs : useSlab n align flags with
      | true =>
        rw [hs] at ha
        exact ho.allocObject hn hal' hs ha
      | false =>
        rw [hs] at ha
        exact ho.allocBlock hn hal' hs ha

end

/-! ## Freeing -/

/-- A block is not freed by the slab allocator. -/
theorem free_block_of_le {objs : List (ℕ × Fin numClasses)} {blocks : List Block}
    {x : Block} (hinv : HeapInv base N objs (x :: blocks) L k.buddy k.slab k.mem) (hn : n ≤ 2048) :
    k.slab.free k.mem (blockAddr base x) n = some (.error .invalidAddress, k.mem) := by
  obtain ⟨c, hc⟩ := exists_sizeClassIndex hn
  refine free_of_notMem hc fun hmem => ?_
  rw [hinv.buddy.alignDown_blockAddr x] at hmem
  -- It would overlap the slab page at its address.
  have hap := hinv.page_apart (mem_pages.2 ⟨c, hmem⟩) mem_cons_self
  have hpos : 0 < blockSize x := Nat.mul_pos (Nat.two_pow_pos _) (by decide)
  rw [Apart, pageSize4K] at hap
  omega

/-- An allocation is freed, and what it took is available again, unless its pointer is null or it is
    a block that is freed as an object. -/
theorem Owned.free (ho : Owned base N (l ++ y :: l') k) :
    Returns (N ≤ maxPages) (k.sysMemFree y.ptr y.size) fun r =>
      (r.1 = 0 ∧ Owned base N (l ++ l') r.2 ∧ Adds r.2.available k.available y.taken) ∨
      (r.1 < 0 ∧ r.2 = k ∧ (y.ptr = 0 ∨ (y.size ≤ 2048 ∧ y.inSlab = false))) := by
  have hperm : (l ++ y :: l').Perm (y :: (l ++ l')) := perm_middle
  have hplaced := ho.placed y (hperm.mem_iff.2 mem_cons_self)
  have hrest (z : Allocation) (hz : z ∈ l ++ l') : z.Placed base :=
    ho.placed z (hperm.mem_iff.2 (mem_cons_of_mem _ hz))
  obtain ⟨lo, lb, L, hinv⟩ := ho.heap
  replace hinv := hinv.perm ((hperm.filterMap _).append_right lo)
    ((hperm.filterMap _).append_right lb)
  rw [sysMemFree]
  split
  · next h0 =>
    have hneg : SyscallError.invalidArgument.asI64 < 0 := by decide
    exact .some (.inr ⟨hneg, rfl, .inl h0⟩)
  rw [if_neg hplaced.size_ne]
  cases hs : y.inSlab with
  | true =>
    obtain ⟨c, hc⟩ := exists_class hs
    have hobj := obj_eq hs hc
    rw [filterMap_cons_some hobj, filterMap_cons_none (block_eq_none hs)] at hinv
    obtain ⟨p, hp, ha, m', hfree, hinv'⟩ := hinv.freeObject hc
    have hadds := hinv'.available_object hinv hp ha rfl
    rw [if_pos (of_decide_eq_true hs).1, hfree, hplaced.taken_obj c hobj]
    exact .some (.inl ⟨rfl, ⟨⟨lo, lb, _, hinv'⟩, hrest⟩, hadds⟩)
  | false =>
    obtain ⟨hptr, htaken⟩ := hplaced.taken_block _ (block_eq hs)
    rw [filterMap_cons_none (obj_eq_none hs), filterMap_cons_some (block_eq hs)] at hinv
    split
    · next hle =>
      have hfree := free_block_of_le hinv hle
      rw [hptr] at hfree
      rw [hfree]
      exact .some (.inr ⟨memErrorToSyscall_neg .invalidAddress, rfl, .inr ⟨hle, rfl⟩⟩)
    · have hfree := hinv.freeBlock
      rw [hptr] at hfree
      refine hfree.map ?_
      rintro ⟨r, b⟩ ⟨rfl, hinv'⟩
      rw [htaken]
      exact .inl ⟨rfl, ⟨⟨lo, lb, L, hinv'⟩, hrest⟩, hinv'.available_block hinv⟩

/-! ## Runs keep allocations in place -/

theorem Owned.addSlabPage (ho : Owned base N out k) {classIdx : ℕ}
    (ha : k.addSlabPage classIdx = some k') : Owned base N out k' := by
  obtain ⟨lo, lb, L, hinv⟩ := ho.heap
  rw [KernelState.addSlabPage, allocatePage] at ha
  rcases hinv.allocateBlock 0 with ⟨-, e, he⟩ | ⟨-, hret⟩
  · rw [he] at ha
    cases ha
    exact ho
  · obtain ⟨⟨q, b⟩, hall, ha⟩ := Option.map_eq_some_iff.1 ha
    obtain ⟨i, rfl, hinv'⟩ := hret.post _ hall
    -- A page that is not added to a class is lost.
    have hlost := hinv'.perm (.refl _) perm_middle.symm
    dsimp only at ha
    by_cases hidx : classIdx < numClasses
    · rcases hinv'.grow ⟨classIdx, hidx⟩ with ⟨-, heq⟩ | ⟨-, s', m', heq, -, -, hinv''⟩
      · rw [heq] at ha
        cases ha
        exact ⟨⟨lo, _, L, hlost⟩, ho.placed⟩
      · rw [heq] at ha
        cases ha
        exact ⟨⟨lo, lb, _, hinv''⟩, ho.placed⟩
    · rw [SlabAllocator.addSlabPage, dif_neg hidx] at ha
      cases ha
      exact ⟨⟨lo, _, L, hlost⟩, ho.placed⟩

theorem Owned.write (ho : Owned base N out k) (hy : y ∈ out) {m : Memory}
    (hw : k.mem.Writes y.ptr y.size m) : Owned base N out { k with mem := m } := by
  obtain ⟨lo, lb, L, hinv⟩ := ho.heap
  refine ⟨⟨lo, lb, L, ?_⟩, ho.placed⟩
  cases hs : y.inSlab with
  | true =>
    obtain ⟨c, hc⟩ := exists_class hs
    refine hinv.write_obj (mem_append_left _ (mem_filterMap.2
      ⟨y, hy, obj_eq hs hc⟩)) ?_
    exact hw.mono le_rfl (Nat.add_le_add_left (sizeClassIndex_spec hc) y.ptr)
  | false =>
    refine hinv.write_block (mem_append_left _ (mem_filterMap.2 ⟨y, hy, block_eq hs⟩)) ?_
    rw [((ho.placed y hy).taken_block _ (block_eq hs)).1]
    exact hw.mono le_rfl (Nat.add_le_add_left (size_le_block y.size) y.ptr)

theorem Run.owned (hr : Run maxPages base size out k) : Owned base (size / pageSize4K) out k := by
  induction hr with
  | boot hb =>
    exact ⟨⟨[], [], fun _ => [], .boot ((boot_spec maxPages base size).post _ hb) _ _⟩, by simp⟩
  | addSlabPage _ ha ih => exact ih.addSlabPage ha
  | alloc _ ha h0 ih =>
    rcases ih.alloc ha with ⟨hneg, -⟩ | ⟨-, ho⟩
    · exact absurd h0 (not_le.2 hneg)
    · exact ho
  | allocFail _ ha hneg ih =>
    rcases ih.alloc ha with ⟨-, ho⟩ | ⟨h0, -⟩
    · exact ho
    · exact absurd h0 (not_le.2 hneg)
  | free _ hf ih =>
    rcases ih.free.post _ hf with ⟨-, ho, -⟩ | ⟨hneg, -⟩
    · exact ho
    · exact absurd hneg (lt_irrefl _)
  | freeFail _ hy hf hne ih =>
    obtain ⟨l, l', rfl⟩ := append_of_mem hy
    rcases ih.free.post _ hf with ⟨h0, -⟩ | ⟨-, rfl, -⟩
    · exact absurd h0 hne
    · exact ih
  | write _ hy hw ih => exact ih.write hy hw

/-- The requests that `mem_free` undoes, in a region at `base`. -/
structure Allocation.Served (base : ℕ) (y : Allocation) : Prop where
  /-- A small request has default flags, and an alignment of at most 16. -/
  route : 2048 < y.size ∨ (y.flags % 2 ^ 32 = 0 ∧ y.align ≤ 16)
  /-- No block is at the address of the null pointer. -/
  base_ne : 2048 < y.size → base ≠ 0
  /-- An alignment of more than a page is one of the region, and of blocks of the order of the
      request. -/
  align : y.align ≤ pageSize4K ∨ (y.align ∣ base ∧ y.align ≤ 2 ^ sizeToOrder y.size * pageSize4K)

theorem Allocation.Served.inSlab (hs : y.Served base) (hle : y.size ≤ 2048) : y.inSlab = true := by
  obtain ⟨hflags, hal⟩ := hs.route.resolve_left (not_lt.2 hle)
  exact decide_eq_true ⟨hle, hflags, .inr hal⟩

/-- The slab of an allocation that is an object. -/
theorem Owned.exists_slab (ho : Owned base N out k) (hy : y ∈ out) (hs : y.inSlab = true) :
    ∃ c p, p % pageSize4K = 0 ∧ y.ptr ∈ objects p c := by
  obtain ⟨lo, lb, L, hinv⟩ := ho.heap
  obtain ⟨c, hc⟩ := exists_class hs
  obtain ⟨p, hp, ha⟩ := hinv.slab.mem_slabs (y.ptr, c)
    (mem_append_left _ (mem_filterMap.2 ⟨y, hy, obj_eq hs hc⟩))
  exact ⟨c, p, hinv.slab.aligned p (mem_pages.2 ⟨c, hp⟩), ha⟩

/-- The pointer of an allocation is aligned. -/
theorem Owned.align_dvd (ho : Owned base N out k) (hy : y ∈ out) (hs : y.Served base)
    (h0 : y.align ≠ 0) : y.align ∣ y.ptr := by
  have hplaced := ho.placed y hy
  obtain ⟨lo, lb, L, hinv⟩ := ho.heap
  obtain ⟨j, hj⟩ := hplaced.align_eq.resolve_left h0
  cases hin : y.inSlab with
  | true =>
    obtain ⟨c, p, hmod, ha⟩ := ho.exists_slab hy hin
    have hle := ((of_decide_eq_true hin).2.2.resolve_left h0).trans (sizeClasses_pos c)
    rw [hj] at hle ⊢
    exact two_pow_dvd_object ha hmod hle
  | false =>
    rw [← (hplaced.taken_block _ (block_eq hin)).1, hj]
    refine two_pow_dvd_blockAddr hinv.buddy.aligned ?_
    rw [← hj]
    exact hs.align

/-- The pointer of an allocation is not null. -/
theorem Owned.ptr_ne (ho : Owned base N out k) (hy : y ∈ out) (hs : y.Served base) : y.ptr ≠ 0 := by
  cases hin : y.inSlab with
  | true =>
    obtain ⟨c, p, -, ha⟩ := ho.exists_slab hy hin
    exact object_ne_zero ha
  | false =>
    have hlt : 2048 < y.size := by
      by_contra hle
      exact Bool.false_ne_true (hin.symm.trans (hs.inSlab (not_lt.1 hle)))
    have hbase := hs.base_ne hlt
    rw [← ((ho.placed y hy).taken_block _ (block_eq hin)).1, blockAddr]
    omega

/-- In a new region of 1024 pages, a request of up to `2 ^ 10` pages that is not for the slab
    allocator gets a block. -/
theorem exists_alloc (n align flags : ℕ) (hn : n ≠ 0)
    (hal : align = 0 ∨ isPowerOfTwo align = true) (hs : useSlab n align flags = false)
    (hk : sizeToOrder n ≤ 10) :
    ∃ (k k' : KernelState 262144) (i : ℕ), Run 262144 0x100000 0x400000 [] k ∧
      k.sysMemAlloc n align flags =
        some (((blockAddr 0x100000 ⟨sizeToOrder n, i⟩ : ℕ) : ℤ), k') ∧
      HeapInv 0x100000 1024 [] [⟨sizeToOrder n, i⟩] (fun _ => []) k'.buddy k'.slab k'.mem := by
  let m : Memory := ⟨fun _ => ⟨0, 0, 0, 0⟩, fun _ => 0⟩
  have hspec := boot_spec 262144 0x100000 0x400000
  rw [show 0x400000 / pageSize4K = 1024 by decide] at hspec
  obtain ⟨b, hb, hbuddy⟩ := hspec.get (by decide)
  have hinv := HeapInv.boot hbuddy (fun _ => []) m
  have hsearch := hinv.searchOrder_le (hk.trans (by decide)) (by
    rw [pages_new]
    simpa using Nat.pow_le_pow_right (by decide) hk)
  rcases hinv.allocateBlock (sizeToOrder n) with ⟨hnone, -⟩ | ⟨-, hret⟩
  · exact absurd hsearch (not_le.2 hnone)
  obtain ⟨⟨r, b'⟩, hall, i, rfl, hinv'⟩ := hret.get (by decide)
  refine ⟨⟨b, .new, m⟩, ⟨b', .new, m⟩, i, .boot hb, ?_, hinv'⟩
  have hlt : blockAddr 0x100000 ⟨sizeToOrder n, i⟩ < 2 ^ 63 := by
    have hend := hinv'.buddy.tiling.end_le_taken (mem_append_right _ mem_cons_self)
    have hle := mul_le_mul_right pageSize4K
      ((mul_le_mul_right (2 ^ sizeToOrder n) (le_succ i)).trans hend)
    exact (Nat.add_le_add_left hle _).trans_lt (by decide)
  have hal' : ¬ (align ≠ 0 ∧ !isPowerOfTwo align) := by
    simpa [Classical.or_iff_not_imp_left] using hal
  rw [sysMemAlloc, if_neg hn, if_neg hal', if_neg (by simp [hs]), hall,
    Option.map_some, addrMemResult, wordAsI64, if_pos hlt]

/-- In every run over a region whose pages the bitmaps have room for: an allocation asked for with
    arguments that are served has an aligned pointer, and `mem_free` succeeds and makes what it took
    available again, and nothing else. -/
theorem run_alloc_free (hN : size / pageSize4K ≤ maxPages) (hr : Run maxPages base size out k)
    (hy : y ∈ out) (hs : y.Served base) :
    (y.align ≠ 0 → y.align ∣ y.ptr) ∧
    ∃ k', k.sysMemFree y.ptr y.size = some (0, k') ∧ Adds k'.available k.available y.taken := by
  refine ⟨hr.owned.align_dvd hy hs, ?_⟩
  obtain ⟨l, l', rfl⟩ := append_of_mem hy
  obtain ⟨⟨r, k'⟩, hf, hcase⟩ := hr.owned.free.get hN
  rcases hcase with ⟨rfl, -, hadds⟩ | ⟨-, -, h0 | ⟨hle, hin⟩⟩
  · exact ⟨k', hf, hadds⟩
  · exact absurd h0 (hr.owned.ptr_ne hy hs)
  · exact absurd (hs.inSlab hle) (by simp [hin])

/-- A block of two pages is allocated, and can be freed. -/
theorem run_alloc_free_block : ∃ (k k' : KernelState 262144) (y : Allocation),
    Run 262144 0x100000 0x400000 [y] k ∧ y.size = 8192 ∧
      k.sysMemFree y.ptr y.size = some (0, k') := by
  obtain ⟨k, k', i, hr, ha, -⟩ := exists_alloc 8192 8 0 (by decide) (.inr (by decide))
    (by decide) (by decide)
  have hr' := Run.alloc hr ha (Int.natCast_nonneg _)
  have hsize : 2048 < 8192 := by decide
  have halign : 8 ≤ pageSize4K := by decide
  obtain ⟨-, k'', hf, -⟩ := run_alloc_free (by decide) hr' mem_cons_self
    ⟨.inl hsize, fun _ => by decide, .inl halign⟩
  exact ⟨k', k'', _, hr', rfl, hf⟩

/-- A request of 64 bytes with the flag for DMA gets a page, which cannot be freed: there is no slab
    at its address. -/
theorem alloc_free_fails : ∃ (k k' : KernelState 262144) (ptr : ℕ),
    Run 262144 0x100000 0x400000 [] k ∧ k.sysMemAlloc 64 0 1 = some ((ptr : ℤ), k') ∧ 0 < ptr ∧
      k'.sysMemFree ptr 64 = some (SyscallError.badAddress.asI64, k') := by
  obtain ⟨k, k', i, hr, ha, hinv⟩ := exists_alloc 64 0 1 (by decide) (.inl rfl) (by decide)
    (by decide)
  have h0 : 0 < blockAddr 0x100000 ⟨sizeToOrder 64, i⟩ := Nat.add_pos_left (by decide) _
  refine ⟨k, k', _, hr, ha, h0, ?_⟩
  rw [sysMemFree, if_neg h0.ne', free_block_of_le hinv (by decide)]
  rfl

end SmallAIOS.Syscall

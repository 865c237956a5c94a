import SmallAIOS.Kernel.Mem.Buddy
import SmallAIOS.Lib.FreeList
import Mathlib.Data.Fin.VecNotation
import Mathlib.Data.Nat.Log

/-!
# The global allocator

The allocator behind the heap types of the kernel. Small requests go to the slab
allocator, which is given another page of the buddy allocator if it has no
object left; all other requests go to the buddy allocator, and so do small ones
for which that did not work. A client passes the layout of an allocation again
when it gives it back, and which allocator to give it to is found out from the
layout alone.
-/

namespace SmallAIOS.Mem

open Lib Function

/-! ## The slab allocator

Sub-page kernel objects, in size classes. Each slab is one page: a header at
its start, and objects of one size in the rest of it. The free objects of a
slab are linked to a list through their first words, from the header on.

The allocator itself keeps, for each class, the addresses of its pages. The
headers and the lists are in memory, which clients write too: it is passed to
each operation and returned by it.
-/

/-- Number of size classes. -/
def numClasses : ℕ := 8

/-- Size classes supported by the slab allocator. -/
def sizeClasses : Fin numClasses → ℕ := ![16, 32, 64, 128, 256, 512, 1024, 2048]

/-- Maximum number of slabs per size class. -/
def maxSlabsPerClass : ℕ := 256

/-- Find the size class index for a given allocation size. -/
def sizeClassIndex (size : ℕ) : Option (Fin numClasses) :=
  (List.finRange numClasses).find? fun i => decide (size ≤ sizeClasses i)

/-- Header stored at the beginning of each slab page. -/
structure SlabHeader where
  /-- The first free object in this slab. -/
  freeList : ℕ
  /-- Number of allocated objects, a 16-bit number. -/
  allocated : ℕ
  /-- Total capacity (objects per slab). -/
  capacity : ℕ
  /-- Object size for this slab. -/
  objSize : ℕ

/-- The size of a header in bytes. -/
def slabHeaderSize : ℕ := 16

/-- What slabs keep in memory: a header at the address of a page, a pointer at
    the address of a free object. -/
structure Memory where
  header : ℕ → SlabHeader
  word : ℕ → ℕ

/-- Per-class slab list. -/
structure SlabClass where
  /-- Physical addresses of slab pages. -/
  slabs : List ℕ
  /-- Object size for this class. -/
  objSize : ℕ
  length_le : slabs.length ≤ maxSlabsPerClass

/-- The offset of the first object in a slab: the header, rounded up. -/
def dataStart (objSize : ℕ) : ℕ :=
  alignDown (slabHeaderSize + (if 16 ≤ objSize then objSize else 16) - 1)
    (if 16 ≤ objSize then objSize else 16)

/-- The number of objects in a slab. -/
def slabCapacity (objSize : ℕ) : ℕ := (pageSize4K - dataStart objSize) / objSize

/-- The objects of a slab. -/
def slabObjects (page objSize : ℕ) : List ℕ :=
  (List.range (slabCapacity objSize)).map fun i => page + (dataStart objSize + i * objSize)

/-- Write the free list and the header of a new slab. -/
def Memory.format (m : Memory) (page objSize : ℕ) : Memory where
  header := update m.header page
    ⟨(thread m.word (slabObjects page objSize)).1, 0, slabCapacity objSize, objSize⟩
  word := (thread m.word (slabObjects page objSize)).2

namespace SlabClass

/-- A class without slabs. -/
def new (objSize : ℕ) : SlabClass := ⟨[], objSize, Nat.zero_le _⟩

variable (c : SlabClass) (m : Memory)

/-- Initialize a new slab page, unless the class has as many as it can. -/
def initSlab (pageAddr : ℕ) : Bool × SlabClass × Memory :=
  if h : c.slabs.length < maxSlabsPerClass then
    if slabCapacity c.objSize = 0 then (false, c, m)
    else (true,
      { c with
        slabs := c.slabs ++ [pageAddr]
        length_le := by rw [List.length_append]; exact h },
      m.format pageAddr c.objSize)
  else (false, c, m)

/-- Allocate an object from this size class. -/
def allocate : Option (Option ℕ × Memory) :=
  match c.slabs.find? fun page => (m.header page).freeList != 0 with
  | none => some (none, m)
  | some page =>
    if 2 ^ 16 ≤ (m.header page).allocated + 1 then none
    else some (some (m.header page).freeList,
      { m with
        header := update m.header page
          { m.header page with
            freeList := m.word (m.header page).freeList
            allocated := (m.header page).allocated + 1 } })

/-- Free an object back to its slab. -/
def free (ptr : ℕ) : Option (Except MemError Unit × Memory) :=
  if alignDown ptr pageSize4K ∈ c.slabs then
    if (m.header (alignDown ptr pageSize4K)).allocated = 0 then none
    else some (.ok (),
      { header := update m.header (alignDown ptr pageSize4K)
          { m.header (alignDown ptr pageSize4K) with
            freeList := ptr
            allocated := (m.header (alignDown ptr pageSize4K)).allocated - 1 }
        word := update m.word ptr (m.header (alignDown ptr pageSize4K)).freeList })
  else some (.error .invalidAddress, m)

end SlabClass

/-- Slab allocator with multiple size classes. -/
structure SlabAllocator where
  classes : Fin numClasses → SlabClass

namespace SlabAllocator

/-- A new slab allocator (all classes empty). -/
def new : SlabAllocator := ⟨fun c => .new (sizeClasses c)⟩

variable (s : SlabAllocator) (m : Memory)

/-- Add a new slab page for a given size class. -/
def addSlabPage (classIdx pageAddr : ℕ) : Bool × SlabAllocator × Memory :=
  if h : classIdx < numClasses then
    (((s.classes ⟨classIdx, h⟩).initSlab m pageAddr).1,
      ⟨update s.classes ⟨classIdx, h⟩ ((s.classes ⟨classIdx, h⟩).initSlab m pageAddr).2.1⟩,
      ((s.classes ⟨classIdx, h⟩).initSlab m pageAddr).2.2)
  else (false, s, m)

/-- Allocate an object of at least `size` bytes. -/
def allocate (size : ℕ) : Option (Except MemError ℕ × Memory) :=
  match sizeClassIndex size with
  | none => some (.error .sizeTooLarge, m)
  | some c => ((s.classes c).allocate m).map fun r => match r.1 with
    | none => (.error .slabExhausted, r.2)
    | some ptr => (.ok ptr, r.2)

/-- Free a previously allocated object of `size` bytes. -/
def free (ptr size : ℕ) : Option (Except MemError Unit × Memory) :=
  match sizeClassIndex size with
  | none => some (.error .sizeTooLarge, m)
  | some c => (s.classes c).free m ptr

end SlabAllocator

/-- The layout of a request. -/
structure Layout where
  size : ℕ
  align : ℕ
  /-- The alignment is a power of two. -/
  align_eq : ∃ k, align = 2 ^ k
  /-- The size, rounded up to the alignment, is at most `isize::MAX`. -/
  size_le : size + align ≤ 2 ^ 63
  deriving DecidableEq

namespace Layout

variable (l : Layout)

/-- Whether a request is one for the slab allocator. -/
def usesSlab : Bool := decide (l.size ≤ 2048 ∧ l.align ≤ max l.size 16)

/-- The number of bytes asked of the buddy allocator. -/
def allocSize : ℕ :=
  -- Need extra pages for alignment.
  if pageSize4K < l.align then l.size + l.align else l.size

/-- The number of pages asked of the buddy allocator. -/
def pagesNeeded : ℕ := (l.allocSize + (pageSize4K - 1)) / pageSize4K

/-- The order asked of the buddy allocator: the trailing zeros of the next power
    of two of the number of pages. -/
def order : ℕ := Nat.clog 2 l.pagesNeeded

end Layout

/-- The global kernel allocator, with the memory it manages. -/
structure KernelAllocator (maxPages : ℕ) where
  buddy : BuddyAllocator maxPages
  slab : SlabAllocator
  initialized : Bool
  mem : Memory

namespace KernelAllocator

variable {maxPages : ℕ}

/-- A new uninitialized allocator. -/
def new (mem : Memory) : KernelAllocator maxPages := ⟨.new, .new, false, mem⟩

variable (h : KernelAllocator maxPages)

/-- Pre-allocate a slab page for a size class. -/
def preallocate (h : KernelAllocator maxPages) (classIdx : ℕ) : Option (KernelAllocator maxPages) :=
  h.buddy.allocatePage.map fun r =>
    match r.1 with
    | .error _ => { h with buddy := r.2 }
    | .ok page =>
      { h with
        buddy := r.2
        slab := (h.slab.addSlabPage h.mem classIdx page).2.1
        mem := (h.slab.addSlabPage h.mem classIdx page).2.2 }

/-- Initialize the allocator with a physical memory region. -/
def init (base size : ℕ) : Option (KernelAllocator maxPages) := do
  let buddy ← h.buddy.init base size
  let buddy ← buddy.addFreeRegion base size
  let h ← (List.range numClasses).foldlM preallocate { h with buddy }
  some { h with initialized := true }

/-- Attempt a slab allocation, growing the slab from the buddy allocator if the
    initial allocation fails. -/
def trySlabAlloc (size : ℕ) : Option (Option ℕ × KernelAllocator maxPages) := do
  let (r, mem) ← h.slab.allocate h.mem size
  match r with
  | .ok ptr => some (some ptr, { h with mem })
  | .error _ =>
    -- Try to grow the slab by allocating a new page from buddy.
    match sizeClassIndex size with
    | none => some (none, { h with mem })
    | some classIdx =>
      let (r, buddy) ← h.buddy.allocatePage
      match r with
      | .error _ => some (none, { h with buddy, mem })
      | .ok page =>
        match h.slab.addSlabPage mem classIdx page with
        | (false, slab, mem) => some (none, { h with buddy, slab, mem })
        | (true, slab, mem) =>
          let (r, mem) ← slab.allocate mem size
          some (r.toOption, { h with buddy, slab, mem })

/-- Attempt a buddy allocation; the null pointer if it fails. -/
def tryBuddyAlloc (l : Layout) : Option (ℕ × KernelAllocator maxPages) := do
  let (r, buddy) ← h.buddy.allocate l.order
  match r with
  | .error _ => some (0, { h with buddy })
  | .ok addr =>
    if pageSize4K < l.align then
      -- Align within the allocation.
      let stop ← checkedAdd addr l.align
      some (alignDown (stop - 1) l.align, { h with buddy })
    else some (addr, { h with buddy })

/-- Allocate memory of a layout; the null pointer on failure. -/
def alloc (l : Layout) : Option (ℕ × KernelAllocator maxPages) :=
  if !h.initialized then some (0, h)
  else if l.usesSlab then do
    let (r, h) ← h.trySlabAlloc l.size
    match r with
    | some ptr => some (ptr, h)
    | none => h.tryBuddyAlloc l
  else h.tryBuddyAlloc l

/-- Give back memory of a layout. The errors of the allocators are ignored. -/
def dealloc (ptr : ℕ) (l : Layout) : Option (KernelAllocator maxPages) :=
  if !h.initialized || ptr == 0 then some h
  else if l.usesSlab then
    (h.slab.free h.mem ptr l.size).map fun r => { h with mem := r.2 }
  else
    -- For over-aligned allocations, the page of the pointer.
    (h.buddy.free (if pageSize4K < l.align then alignDown ptr pageSize4K else ptr) l.order).map
      fun r => { h with buddy := r.2 }

end KernelAllocator

end SmallAIOS.Mem

import SmallAIOS.Kernel.Mem.Basic
import SmallAIOS.Lib.Bitmap

/-!
# The buddy allocator

Page-granularity allocation of physical memory. Blocks of `2 ^ order` pages,
for the orders up to `maxOrder`, are tracked by one bitmap of free blocks for
each order. A block is split into two of the order below, and merged with its
buddy into one of the order above; the index of the buddy is that of the block
with its lowest bit flipped. A further bitmap tracks the pages handed out, to
detect double frees.

The number of pages the bitmaps have room for (`MAX_PAGES`, a constant of the
build) is a parameter. The additions of addresses are checked ones, which panic
(`none`) on overflow.
-/

namespace SmallAIOS.Mem

open Lib

/-- Maximum order (`2 ^ 21` pages). -/
def maxOrder : ℕ := 21

/-- Number of buddy orders. -/
def numOrders : ℕ := maxOrder + 1

/-- Number of bitmap words needed for a given number of bits. -/
def bitmapWords (bits : ℕ) : ℕ := (bits + 63) / 64

variable {maxPages : ℕ}

/-- A free-list bitmap for one order level. -/
structure OrderBitmap (maxPages : ℕ) where
  /-- The bits of the free blocks are set. -/
  bits : Bitmap (bitmapWords maxPages)
  /-- Number of valid blocks at this order. -/
  numBlocks : ℕ
  /-- Count of free blocks. -/
  freeCount : ℕ
  freeCount_eq : freeCount = bits.toFinset.card

namespace OrderBitmap

/-- No block is free. -/
def new : OrderBitmap maxPages := ⟨.empty _, 0, 0, by simp⟩

variable (m : OrderBitmap maxPages)

/-- Mark block `idx` as free. -/
def setFree (idx : ℕ) : Option (OrderBitmap maxPages) :=
  match h : m.bits.mem? idx with
  | none => none
  | some true => some m
  | some false => some
    { m with
      bits := m.bits.insert idx
      freeCount := m.freeCount + 1
      freeCount_eq := by
        obtain ⟨hi, hm⟩ := Bitmap.mem?_eq_some.1 h
        rw [Bitmap.toFinset_insert _ hi, Finset.card_insert_of_notMem (by simp [hm]),
          m.freeCount_eq] }

/-- Mark block `idx` as allocated. -/
def setAllocated (idx : ℕ) : Option (OrderBitmap maxPages) :=
  match h : m.bits.mem? idx with
  | none => none
  | some false => some m
  | some true => some
    { m with
      bits := m.bits.erase idx
      freeCount := m.freeCount - 1
      freeCount_eq := by
        obtain ⟨hi, hm⟩ := Bitmap.mem?_eq_some.1 h
        rw [Bitmap.toFinset_erase, Finset.card_erase_of_mem (by simpa using hm), m.freeCount_eq] }

/-- Whether block `idx` is free. -/
def isFree (idx : ℕ) : Option Bool := m.bits.mem? idx

/-- Find any free block. -/
def findFree : Option ℕ := m.bits.firstBelow m.numBlocks

end OrderBitmap

/-- Buddy allocator for physical page allocation. -/
structure BuddyAllocator (maxPages : ℕ) where
  /-- Base physical address of the managed region. -/
  base : ℕ
  /-- Total number of pages in the managed region. -/
  totalPages : ℕ
  /-- Bitmap for each order level; those below `numOrders` are used. -/
  orders : ℕ → OrderBitmap maxPages
  /-- Tracks which pages have been handed out (for double-free detection). -/
  allocMap : Bitmap (bitmapWords maxPages)
  /-- Total free pages. -/
  freePages : ℕ

/-- Mark the `count` pages from `pageIdx` on as allocated. -/
def markAllocated (m : Bitmap (bitmapWords maxPages)) (pageIdx count : ℕ) :
    Option (Bitmap (bitmapWords maxPages)) :=
  (List.range' pageIdx count).foldlM (fun m i => m.insert? i) m

/-- Mark the `count` pages from `pageIdx` on as free. -/
def markFree (m : Bitmap (bitmapWords maxPages)) (pageIdx count : ℕ) :
    Option (Bitmap (bitmapWords maxPages)) :=
  (List.range' pageIdx count).foldlM (fun m i => m.erase? i) m

namespace BuddyAllocator

/-- A new allocator: no memory is free. -/
def new : BuddyAllocator maxPages where
  base := 0
  totalPages := 0
  orders _ := .new
  allocMap := .empty _
  freePages := 0

variable (b : BuddyAllocator maxPages)

/-- Replace the bitmap of an order. -/
def setOrder (order : ℕ) (m : OrderBitmap maxPages) : BuddyAllocator maxPages :=
  { b with orders := Function.update b.orders order m }

/-- Mark block `idx` of an order as free. -/
def setFree (order idx : ℕ) : Option (BuddyAllocator maxPages) :=
  ((b.orders order).setFree idx).map (b.setOrder order)

/-- Mark block `idx` of an order as allocated. -/
def setAllocated (order idx : ℕ) : Option (BuddyAllocator maxPages) :=
  ((b.orders order).setAllocated idx).map (b.setOrder order)

/-- Initialize the allocator for a physical memory range of `size` bytes. -/
def init (base size : ℕ) : Option (BuddyAllocator maxPages) :=
  if !isAligned base pageSize4K then none
  else some
    { b with
      base
      totalPages := size / pageSize4K
      orders := fun k => { b.orders k with numBlocks := size / pageSize4K / 2 ^ k } }

/-! ## Adding free regions -/

/-- The largest order, from `order` on, of a block at the page `pageIdx` that is aligned and has at
    most `remaining` pages. -/
def growOrder (pageIdx remaining order : ℕ) : ℕ :=
  if order < maxOrder then
    if pageIdx % 2 ^ (order + 1) ≠ 0 ∨ remaining < 2 ^ (order + 1) then order
    else growOrder pageIdx remaining (order + 1)
  else order
termination_by maxOrder - order

/-- The order of the next block of a free region, at `addr`. -/
def regionOrder (addr stop : ℕ) : ℕ :=
  growOrder ((addr - b.base) / pageSize4K) ((stop - addr) / pageSize4K) 0

/-- Mark the addresses from `addr` to `stop` as free, block by block. -/
def addBlocks (b : BuddyAllocator maxPages) (addr stop : ℕ) : Option (BuddyAllocator maxPages) :=
  if addr < stop then
    if addr < b.base then none
    else match b.setFree (b.regionOrder addr stop)
        ((addr - b.base) / pageSize4K / 2 ^ b.regionOrder addr stop) with
      | none => none
      | some b' =>
        addBlocks { b' with freePages := b'.freePages + 2 ^ b.regionOrder addr stop }
          (addr + 2 ^ b.regionOrder addr stop * pageSize4K) stop
  else some b
termination_by stop - addr
decreasing_by
  have := Nat.mul_pos (Nat.two_pow_pos (b.regionOrder addr stop)) (show 0 < pageSize4K by decide)
  omega

/-- Add a free region to the allocator, broken into the largest possible buddy blocks. -/
def addFreeRegion (start size : ℕ) : Option (BuddyAllocator maxPages) :=
  if size = 0 ∨ !isAligned start pageSize4K then some b
  else (checkedAdd start (alignDown size pageSize4K)).bind fun stop => b.addBlocks start stop

/-! ## Allocating -/

/-- The first order from `order` on that has a free block, `numOrders` if there is none. -/
def searchOrder (order : ℕ) : ℕ :=
  if order ≤ maxOrder then
    if (b.orders order).findFree.isSome then order else searchOrder (order + 1)
  else order
termination_by numOrders - order
decreasing_by
  rw [numOrders]
  omega

/-- Split the block `idx` of the order `current`, which is allocated, down to `order`: the left half
    is kept, the right one is free. -/
def splitDown (order : ℕ) : ℕ → ℕ → BuddyAllocator maxPages → Option (ℕ × BuddyAllocator maxPages)
  | 0, idx, b => some (idx, b)
  | current + 1, idx, b =>
    if order < current + 1 then
      (b.setFree current (idx * 2 + 1)).bind fun b => splitDown order current (idx * 2) b
    else some (idx, b)

/-- Allocate a block of `2 ^ order` pages. -/
def allocate (order : ℕ) : Option (Except MemError ℕ × BuddyAllocator maxPages) :=
  if maxOrder < order then some (.error .orderTooLarge, b)
  else if maxOrder < b.searchOrder order then some (.error .outOfMemory, b)
  else do
    let found := b.searchOrder order
    let blockIdx ← (b.orders found).findFree
    let b ← b.setAllocated found blockIdx
    let (idx, b) ← splitDown order found blockIdx b
    let addr ← checkedAdd b.base (idx * 2 ^ order * pageSize4K)
    if b.freePages < 2 ^ order then none
    else
      let allocMap ← markAllocated b.allocMap (idx * 2 ^ order) (2 ^ order)
      some (.ok addr, { b with freePages := b.freePages - 2 ^ order, allocMap })

/-- Allocate a single page. -/
def allocatePage : Option (Except MemError ℕ × BuddyAllocator maxPages) := b.allocate 0

/-! ## Freeing -/

/-- Merge the block `idx` of an order, which is allocated, with its buddy as long as that is free.
    -/
def mergeUp (order idx : ℕ) (b : BuddyAllocator maxPages) :
    Option (ℕ × ℕ × BuddyAllocator maxPages) :=
  if order < maxOrder then
    if (b.orders order).numBlocks ≤ idx ^^^ 1 then some (order, idx, b)
    else match (b.orders order).isFree (idx ^^^ 1) with
      | none => none
      | some false => some (order, idx, b)
      | some true => (b.setAllocated order (idx ^^^ 1)).bind (mergeUp (order + 1) (idx / 2))
  else some (order, idx, b)
termination_by maxOrder - order

/-- Free a block of `2 ^ order` pages at the given physical address. -/
def free (addr order : ℕ) : Option (Except MemError Unit × BuddyAllocator maxPages) :=
  if maxOrder < order then some (.error .orderTooLarge, b)
  else if !isAligned addr pageSize4K then some (.error .badAlignment, b)
  else if addr < b.base then some (.error .invalidAddress, b)
  else if (addr - b.base) / pageSize4K % 2 ^ order ≠ 0 then some (.error .badAlignment, b)
  else do
    let pageIdx := (addr - b.base) / pageSize4K
    -- Check for double free using the allocation bitmap.
    if !(← b.allocMap.mem? pageIdx) then some (.error .doubleFree, b)
    else
      let allocMap ← markFree b.allocMap pageIdx (2 ^ order)
      let (order', idx, b) ← mergeUp order (pageIdx / 2 ^ order)
        { b with allocMap, freePages := b.freePages + 2 ^ order }
      let b ← b.setFree order' idx
      some (.ok (), b)

end BuddyAllocator

end SmallAIOS.Mem

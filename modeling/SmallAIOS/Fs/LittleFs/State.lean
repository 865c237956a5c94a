import SmallAIOS.Fs.LittleFs.Alloc
import SmallAIOS.Fs.LittleFs.Mount
import SmallAIOS.Lib.Triple

/-!
# The state of the write path

The write path keeps the entries of every metadata pair in memory, with the half that was
written last, together with the block allocator and the table of bad blocks. It is
loaded at the first write after a mount (`load`). A pair whose entries have changed is dirty
until it is committed (`commitPair`): its half that is not read is erased and programmed.
A block that fails is marked bad and replaced, at most four times.

Computations on this state (`M`) fail with an error, or with `none` where the source
panics. The state also records the blocks that were handed out.
-/

namespace SmallAIOS.Fs.LittleFs

open Lib Flash Fallible

variable {cfg : Config}

/-- The state of one metadata pair. -/
structure PairState where
  blocks : BlockPair
  revision : ℕ
  /-- The half that was written last. -/
  activeHalf : Bool
  entries : List PairEntry
  tail : Option BlockPair
  dirty : Bool

structure MutableState where
  allocator : BlockAllocator
  /-- The table of bad blocks. -/
  bbt : ℕ → Bool
  pairs : List PairState
  /-- The blocks that were handed out since the state was loaded. -/
  handed : List ℕ

/-! ## Loading -/

/-- The name tag and the struct tag of each id, after one more tag. -/
def pairUp (m : SortedMap ℕ (Option Tag × Option Tag)) (t : Tag) :
    SortedMap ℕ (Option Tag × Option Tag) :=
  let slot := (m.get? t.id).getD (none, none)
  m.insert t.id
    (if t.isName then (some t, slot.2) else if t.isStruct then (slot.1, some t) else slot)

/-- The entries of a half, in the order of their ids. -/
def entriesFromView (view : MetadataPairView) : List PairEntry :=
  (view.tags.foldl pairUp SortedMap.empty).entries.filterMap fun
    | (id, some n, some s) => some ⟨id, n.typ, n.data, s.typ, s.data⟩
    | _ => none

namespace PairEntry

variable (e : PairEntry)

/-- The entry is a file in a chain. -/
def isCtz : Bool := e.typStruct = tagStructCtz && 8 ≤ e.structPayload.length

/-- The pair of a directory. -/
def dirBlocks : Option BlockPair :=
  if e.typStruct = tagStructDir ∧ e.structPayload.length = 8 then some (.ofBytes e.structPayload)
  else none

def head : ℕ := readU32Le e.structPayload

def size : ℕ := readU32Le (e.structPayload.drop 4)

end PairEntry

/-- The blocks to reserve for an entry of the root. -/
def reservedFor (img : Image cfg.toGeometry) (e : PairEntry) : Except LittleFsError (List ℕ) :=
  match e.dirBlocks with
  | some p => .ok [p.1, p.2]
  | none => if e.isCtz then walkBlocks img e.head e.size else .ok []

def loadPair (img : Image cfg.toGeometry) (blocks : BlockPair) :
    Except LittleFsError PairState := do
  let view ← readMetadataPair img blocks
  let active := selectActiveHalf (viewOf img blocks.1) (viewOf img blocks.2)
  return ⟨blocks, active.2, active.1, entriesFromView view, view.tail, false⟩

/-- The state of the write path, from what is on the device. -/
def load (d : Device cfg.toGeometry) : Except LittleFsError MutableState := do
  let rootPair ← loadPair d.image root
  let reserved ← rootPair.entries.mapM (reservedFor d.image)
  let dirs ← (rootPair.entries.filterMap PairEntry.dirBlocks).mapM (loadPair d.image)
  let bad := (List.range cfg.blockCount).filter d.bad
  return {
    allocator := bad.foldl .markBad
      (.new cfg.blockCount (max cfg.blockCycles 1).toNat (root.1 :: root.2 :: reserved.flatten))
    bbt := fun b => decide (b < cfg.blockCount) && d.bad b
    pairs := rootPair :: dirs
    handed := [] }

/-! ## Computations -/

/-- A file system whose write path is loaded. -/
structure Mounted (cfg : Config) where
  dev : Device cfg.toGeometry
  mem : MutableState

/-- A computation of the write path. -/
abbrev M (cfg : Config) := Fallible (Mounted cfg) (Option LittleFsError)

namespace Mounted

variable (s : Mounted cfg)

def setAllocator (a : BlockAllocator) : Mounted cfg :=
  { s with mem := { s.mem with allocator := a } }

/-- Change a pair. -/
def editPair (idx : ℕ) (f : PairState → PairState) : Mounted cfg :=
  { s with mem := { s.mem with pairs := s.mem.pairs.modify idx f } }

/-- Change the entries of a pair, which becomes dirty. -/
def editEntries (idx : ℕ) (f : List PairEntry → List PairEntry) : Mounted cfg :=
  s.editPair idx fun p => { p with entries := f p.entries, dirty := true }

/-- Mark a block bad, in the table, the allocator and the device. -/
def noteBad (b : ℕ) : Mounted cfg where
  dev := (Device.markBad b s.dev).2
  mem :=
    { s.mem with
      allocator := s.mem.allocator.markBad b
      bbt := if b < cfg.blockCount then Function.update s.mem.bbt b true else s.mem.bbt }

end Mounted

namespace M

variable {α β : Type}

def ofExcept : Except LittleFsError α → M cfg α
  | .ok a => pure a
  | .error e => fail (some e)

def ofOption (e : LittleFsError) : Option α → M cfg α
  | some a => pure a
  | none => fail (some e)

/-- An operation of the device, with how it ended. -/
def onDevice (x : Fallible (Device cfg.toGeometry) FlashError Unit) :
    M cfg (Except FlashError Unit) := fun s =>
  (.ok (x s.dev).1, { s with dev := (x s.dev).2 })

/-- A free block. -/
def allocBlock : M cfg ℕ := fun s =>
  match s.mem.allocator.allocBlock with
  | (some b, a) =>
    (.ok b, { s with mem := { s.mem with allocator := a, handed := s.mem.handed ++ [b] } })
  | (none, a) => (.error (some .io), s.setAllocator a)

/-- Go on with the pair with the given blocks, and its index. -/
def atPair (addr : BlockPair) (k : ℕ → PairState → M cfg α) : M cfg α := fun s =>
  match s.mem.pairs.zipIdx.find? fun q => q.1.blocks = addr with
  | some (p, idx) => k idx p s
  | none => (.error (some .notFound), s)

/-- Go on with the pair of the directory in which a path is, and the name in it. -/
def atPath (path : List UInt8) (k : BlockPair → List UInt8 → M cfg α) : M cfg α := fun s =>
  match resolveParent s.dev.image path with
  | .ok (addr, name) => k addr name s
  | .error e => (.error (some e), s)

/-- The pair with the given index, which is in bounds or the source panics. -/
def pairAt (idx : ℕ) : M cfg PairState := fun s =>
  match s.mem.pairs[idx]? with
  | some p => (.ok p, s)
  | none => (.error none, s)

variable {e : LittleFsError} {f : α → M cfg β} {s : Mounted cfg} {a : α}

@[simp] theorem get_bind {f : Mounted cfg → M cfg β} : (get >>= f) s = f s s := rfl

@[simp] theorem modify_bind {g : Mounted cfg → Mounted cfg} {f : PUnit → M cfg β} :
    (modify g >>= f) s = f ⟨⟩ (g s) := rfl

@[simp] theorem onDevice_bind {x : Fallible (Device cfg.toGeometry) FlashError Unit}
    {f : Except FlashError Unit → M cfg β} :
    (onDevice x >>= f) s = f (x s.dev).1 { s with dev := (x s.dev).2 } := rfl

@[simp] theorem ofExcept_ok_bind : (ofExcept (.ok a) >>= f) s = f a s := rfl

@[simp] theorem ofOption_some_bind : (ofOption e (some a) >>= f) s = f a s := rfl

end M

/-! ## Committing -/

/-- How writing a block ended. -/
inductive WriteOutcome
  | done
  /-- The block was marked bad. -/
  | wentBad
  | failed
  deriving DecidableEq

/-- Bytes padded to whole pages. -/
def padToPage (cfg : Config) (bs : List UInt8) : List UInt8 :=
  bs ++ List.replicate ((bs.length + cfg.pageSize - 1) / cfg.pageSize * cfg.pageSize - bs.length)
    0xFF

/-- Program a block that has been erased. -/
def programBlock (b : ℕ) (bs : List UInt8) : M cfg WriteOutcome := do
  match ← M.onDevice (Device.program b (padToPage cfg bs)) with
  | .ok _ => pure .done
  | .error .programFailed | .error .programOnDirty => do
    modify fun s => s.noteBad b
    pure .wentBad
  | .error _ => pure .failed

/-- Erase a block and program it. -/
def writeBlock (b : ℕ) (bs : List UInt8) : M cfg WriteOutcome := do
  match ← M.onDevice (Device.erase b) with
  | .ok _ => do
    modify fun s => s.setAllocator (s.mem.allocator.noteErase b)
    programBlock b bs
  | .error .eraseFailure | .error .programFailed => do
    modify fun s => s.noteBad b
    pure .wentBad
  | .error _ => pure .failed

/-- Allocate another block for a half of a pair. -/
def replaceHalf (idx : ℕ) (old : BlockPair) (h : Bool) : M cfg ℕ := do
  let b ← M.allocBlock
  modify fun s => s.editPair idx fun p => { p with blocks := old.set h b }
  pure b

/-- The block of the half that is not read, or another one if it is bad. -/
def alternateBlock (idx : ℕ) (p : PairState) : M cfg ℕ := fun s =>
  let b := p.blocks.half (!p.activeHalf)
  if s.mem.bbt b then replaceHalf idx p.blocks (!p.activeHalf) s else (.ok b, s)

/-- Let the entries that name a directory by its old blocks name it by its new ones. -/
def relinkEntries (old new : BlockPair) (es : List PairEntry) : List PairEntry :=
  es.map fun e => if e.dirBlocks = some old then { e with structPayload := new.toBytes } else e

/-- The same in every pair but the one that moved. -/
def relink (idx : ℕ) (old new : BlockPair) (pairs : List PairState) : List PairState :=
  pairs.mapIdx fun j p =>
    if j ≠ idx ∧ ∃ e ∈ p.entries, e.dirBlocks = some old then
      { p with entries := relinkEntries old new p.entries, dirty := true }
    else p

/-- The half has been written. -/
def promote (idx : ℕ) (old : BlockPair) (h : Bool) (revision : ℕ) : M cfg PUnit := do
  modify fun s => s.editPair idx fun p =>
    { p with activeHalf := h, revision := revision, dirty := false }
  let p ← M.pairAt idx
  if p.blocks = old then pure ⟨⟩
  else if idx = 0 then fail (some .unsupported)
  else modify fun s =>
    { s with mem := { s.mem with pairs := relink idx old p.blocks s.mem.pairs } }

/-- The attempts to write the half. -/
def commitLoop (idx revision : ℕ) (half : List UInt8) : ℕ → M cfg PUnit
  | 0 => fail (some .io)
  | attempts + 1 => do
    let p ← M.pairAt idx
    let b ← alternateBlock idx p
    match ← writeBlock b half with
    | .done => promote idx p.blocks (!p.activeHalf) revision
    | .wentBad => do
      let _ ← replaceHalf idx p.blocks (!p.activeHalf)
      commitLoop idx revision half attempts
    | .failed => fail (some .io)

def commitPair (idx : ℕ) : M cfg PUnit := do
  let p ← M.pairAt idx
  if !p.dirty then pure ⟨⟩
  else
    let revision := (p.revision + 1) % 2 ^ 32
    let half ← M.ofOption .unsupported (buildMetadataHalf revision p.entries p.tail)
    if cfg.blockSize < half.length then fail (some .unsupported)
    else commitLoop idx revision half 4

/-- Commit every dirty pair, once and in order. -/
def commitAll : M cfg PUnit := fun s =>
  each commitPair (List.range s.mem.pairs.length) s

end SmallAIOS.Fs.LittleFs

import SmallAIOS.Fs.LittleFs.State

/-!
# The operations of the file system

The operations of the write path, each one as the source has it: what is checked first, what
changes in memory, and which pairs are committed.

File handles are values of the client (`FileMut`), and calls that use one return it as it is
afterwards.
-/

namespace SmallAIOS.Fs.LittleFs

open Lib Flash Fallible M

variable {cfg : Config}

/-! ## Entries -/

/-- The entry has this name, of this type. -/
def named (name : List UInt8) (typName : ℕ) (e : PairEntry) : Bool :=
  e.typName = typName && e.name = name

/-- A file or a directory has this name. -/
def nameTaken (es : List PairEntry) (name : List UInt8) : Bool :=
  es.any (named name tagNameReg) || es.any (named name tagNameDir)

/-- The lowest id that is not used. -/
def freshId (es : List PairEntry) : Option ℕ :=
  (List.range' 1 0x3FE).find? fun id => es.all fun e => e.id ≠ id

/-- Change the first entry with a property. -/
def updateFirst (p : PairEntry → Bool) (f : PairEntry → PairEntry) : List PairEntry → List PairEntry
  | [] => []
  | e :: es => if p e then f e :: es else e :: updateFirst p f es

/-- Give an entry another struct tag. -/
def PairEntry.setStruct (typ : ℕ) (payload : List UInt8) (e : PairEntry) : PairEntry :=
  { e with typStruct := typ, structPayload := payload }

/-- The entry with the given id. -/
def withId (id : ℕ) (e : PairEntry) : Bool := e.id = id

/-- An empty file. -/
def newFile (id : ℕ) (name : List UInt8) : PairEntry := ⟨id, tagNameReg, name, tagStructInline, []⟩

/-! ## Files and their blocks -/

structure OpenFlags where
  create : Bool
  truncate : Bool
  append : Bool
  deriving DecidableEq

/-- A file that is open for writing: its entry, and what was written and not yet flushed. -/
structure FileMut where
  pairIdx : ℕ
  id : ℕ
  buf : List UInt8
  append : Bool
  closed : Bool
  deriving DecidableEq

/-- The largest file that is kept in its tag. -/
def inlineCeiling (cfg : Config) : ℕ := max (max cfg.cacheSize cfg.blockSize / 8) 64

/-- Return the blocks of a file to the allocator. -/
def releaseChain (e : PairEntry) : M cfg PUnit := do
  let s ← get
  if e.isCtz then do
    let blocks ← ofExcept (walkBlocks s.dev.image e.head e.size)
    modify fun s => s.setAllocator (blocks.foldl .markFree s.mem.allocator)
  else pure ⟨⟩

def allocBlocks : ℕ → M cfg (List ℕ)
  | 0 => pure []
  | k + 1 => do
    let b ← allocBlock
    let bs ← allocBlocks k
    pure (b :: bs)

/-- Write a block of a chain, or another one in its place if that fails. -/
def writeRemapped (b : ℕ) (bs : List UInt8) : M cfg ℕ := do
  match ← writeBlock b bs with
  | .done => pure b
  | _ => do
    let r ← allocBlock
    match ← writeBlock r bs with
    | .done => pure r
    | _ => fail (some .io)

/-- Write the data to blocks, from the index `idx` on and after the block `prev`. -/
def writeChain (data : List UInt8) : ℕ → Option ℕ → List ℕ → M cfg (List ℕ)
  | _, _, [] => pure []
  | idx, prev, b :: rest => do
    let b ← writeRemapped b (ctzBuf cfg (Chunks.chunk (ctzPayload cfg.blockSize) data idx) prev)
    let bs ← writeChain data (idx + 1) (some b) rest
    pure (b :: bs)

/-- The contents to which a handle appends, or nothing. -/
def contentBefore (img : Image cfg.toGeometry) (append : Bool) (e : PairEntry) :
    Except LittleFsError (List UInt8) :=
  if append then
    if e.isCtz then readCtzAt img e.head e.size 0 e.size else .ok e.structPayload
  else .ok []

/-- Store the contents of a file in a chain of blocks. -/
def storeChain (h : FileMut) (e : PairEntry) (data : List UInt8) : M cfg PUnit := do
  releaseChain e
  let blocks ← allocBlocks (ctzChainLength cfg.blockSize (data.length % 2 ^ 32))
  let blocks ← writeChain data 0 none blocks
  let head ← ofOption .unsupported blocks.getLast?
  modify fun s => s.editEntries h.pairIdx (updateFirst (withId h.id)
    (.setStruct tagStructCtz (BlockPair.toBytes (head, data.length % 2 ^ 32))))

/-- Store what a handle has buffered. -/
def flushFilemut (h : FileMut) : M cfg PUnit := do
  let s ← get
  let p ← pairAt h.pairIdx
  let e ← ofOption .notFound (p.entries.find? (withId h.id))
  let old ← ofExcept (contentBefore s.dev.image h.append e)
  let data := old ++ h.buf
  if data.length % 2 ^ 32 ≤ inlineCeiling cfg ∧ !e.isCtz then
    modify fun s => s.editEntries h.pairIdx
      (updateFirst (withId h.id) (.setStruct tagStructInline data))
  else storeChain h e data

/-! ## Operations on the loaded write path -/

/-- Go on with the directory of a path, its index, and the name in it. -/
def M.inParent {α : Type} (path : List UInt8) (k : ℕ → PairState → List UInt8 → M cfg α) :
    M cfg α :=
  atPath path fun addr name => atPair addr fun idx p => k idx p name

namespace Mounted

def create (path : List UInt8) : M cfg PUnit := inParent path fun idx p name =>
  if nameTaken p.entries name then fail (some .badType)
  else do
    let id ← ofOption .unsupported (freshId p.entries)
    modify fun s => s.editEntries idx (· ++ [newFile id name])
    commitPair idx

def openWrite (path : List UInt8) (flags : OpenFlags) : M cfg FileMut :=
  inParent path fun idx p name =>
  match p.entries.find? (named name tagNameReg) with
  | some e => do
    modify fun s =>
      if flags.truncate then
        s.editEntries idx (updateFirst (named name tagNameReg) (.setStruct tagStructInline []))
      else s
    pure ⟨idx, e.id, [], flags.append, false⟩
  | none =>
    if !flags.create then fail (some .notFound)
    else do
      let id ← ofOption .unsupported (freshId p.entries)
      modify fun s => s.editEntries idx (· ++ [newFile id name])
      pure ⟨idx, id, [], flags.append, false⟩

/-- Buffer bytes. The buffer is flushed when it holds four blocks. -/
def write (h : FileMut) (bytes : List UInt8) : M cfg FileMut :=
  if h.closed then fail (some .io)
  else
    let h := { h with buf := h.buf ++ bytes }
    if cfg.blockSize * 4 ≤ h.buf.length then do
      flushFilemut h
      pure { h with buf := [], append := true }
    else pure h

def flush (h : FileMut) : M cfg FileMut := do
  flushFilemut h
  pure { h with buf := [] }

def close (h : FileMut) : M cfg PUnit :=
  if h.closed then pure ⟨⟩
  else do
    flushFilemut h
    commitPair h.pairIdx

def remove (path : List UInt8) : M cfg PUnit := inParent path fun idx p name => do
  let e ← ofOption .notFound (p.entries.find? (named name tagNameReg))
  releaseChain e
  modify fun s => s.editEntries idx (List.eraseP (named name tagNameReg))
  commitPair idx

/-- The type of the name, of a file or else of a directory. -/
def typeOf (es : List PairEntry) (name : List UInt8) : Option ℕ :=
  if es.any (named name tagNameReg) then some tagNameReg
  else if es.any (named name tagNameDir) then some tagNameDir
  else none

def rename (src dst : List UInt8) : M cfg PUnit :=
  atPath src fun srcAddr srcName => atPath dst fun dstAddr dstName =>
  if srcAddr ≠ dstAddr then fail (some .unsupported)
  else atPair srcAddr fun idx p => do
    let typ ← ofOption .notFound (typeOf p.entries srcName)
    if nameTaken p.entries dstName then fail (some .badType)
    else do
      modify fun s => s.editEntries idx
        (updateFirst (named srcName typ) fun e => { e with name := dstName })
      commitPair idx

/-- The contents of a file on the medium, cut to a size that is not larger. -/
def truncated (img : Image cfg.toGeometry) (path : List UInt8) (newSize : ℕ) :
    Except LittleFsError (List UInt8) := do
  let f ← openRead img path
  if f.size < newSize then .error .unsupported
  else do
    let (bytes, _) ← readFile img f.size f
    return bytes.take newSize

def truncate (path : List UInt8) (newSize : ℕ) : M cfg PUnit :=
  atPath path fun addr name => do
  let s ← get
  let bytes ← ofExcept (truncated s.dev.image path newSize)
  atPair addr fun idx p => do
  let e ← ofOption .notFound (p.entries.find? (named name tagNameReg))
  releaseChain e
  modify fun s => s.editEntries idx
    (updateFirst (named name tagNameReg) (.setStruct tagStructInline []))
  commitPair idx
  if bytes = [] then pure ⟨⟩
  else do
    let h ← openWrite path ⟨false, false, true⟩
    let h ← write h bytes
    close h

def mkdir (path : List UInt8) : M cfg PUnit := atPath path fun addr name =>
  if addr ≠ root then fail (some .unsupported)
  else atPair addr fun idx p =>
    if nameTaken p.entries name then fail (some .badType)
    else do
      let a ← allocBlock
      let b ← allocBlock
      let id ← ofOption .unsupported (freshId p.entries)
      modify fun s => s.editEntries idx
        (· ++ [⟨id, tagNameDir, name, tagStructDir, BlockPair.toBytes (a, b)⟩])
      modify fun s =>
        { s with mem := { s.mem with pairs := s.mem.pairs ++ [⟨(a, b), 0, true, [], none, true⟩] } }
      let s ← get
      -- The pair of the directory comes first, so that the entry does not lead to
      -- erased blocks.
      commitPair (s.mem.pairs.length - 1)
      commitPair idx

def rmdir (path : List UInt8) : M cfg PUnit := atPath path fun addr name =>
  if addr ≠ root then fail (some .unsupported)
  else atPair addr fun _ p => do
    let e ← ofOption .notFound (p.entries.find? (named name tagNameDir))
    let blocks := BlockPair.ofBytes e.structPayload
    if e.structPayload.length < 8 then fail (some .corrupted)
    else atPair blocks fun dirIdx dir =>
      if dir.entries ≠ [] then fail (some .badType)
      else do
        modify fun s =>
          { s with
            mem :=
              { s.mem with
                allocator := (s.mem.allocator.markFree blocks.1).markFree blocks.2
                pairs := s.mem.pairs.eraseIdx dirIdx } }
        atPair addr fun idx p => do
          let _ ← ofOption .notFound (p.entries.find? (named name tagNameDir))
          modify fun s => s.editEntries idx (List.eraseP (named name tagNameDir))
          commitPair idx

end Mounted

end SmallAIOS.Fs.LittleFs

import SmallAIOS.Fs.LittleFs.Ops
import SmallAIOS.Lib.Run

/-!
# The file system and its runs

A device is formatted (`format`) and mounted. A mounted file system (`FileSystem`) loads its write
path with the first operation that needs it. A run is a list of steps: each one is a call, with the
failures that the device meets during the call (`Step`). What was on the medium before each erase
and each program of the last call, and the blocks that it handed out, are in the state.
-/

namespace SmallAIOS.Fs.LittleFs

open Lib Flash Fallible

variable {cfg : Config}

/-! ## Formatting -/

/-- The entry of the superblock: the version, the geometry, and the limits of names, files and
    attributes. -/
def superblockEntry (cfg : Config) : PairEntry where
  id := 0
  typName := tagNameSuperblock
  name := superblockMagic
  typStruct := tagStructInline
  structPayload :=
    [majorVersion * 2 ^ 16, cfg.blockSize, cfg.blockCount, 255, 0x7FFFFFFF, 1022].flatMap
    (leBytes 4)

/-- Write a half of the root with the superblock only. -/
def formatHalf (b revision : ℕ) : Fallible (Device cfg.toGeometry) LittleFsError Unit :=
  match buildMetadataHalf revision [superblockEntry cfg] none with
  | none => fail .unsupported
  | some half =>
    if cfg.blockSize < half.length then fail .unsupported
    else mapError (fun _ => .io) (Device.program b (padToPage cfg half))

def format : Fallible (Device cfg.toGeometry) LittleFsError Unit := do
  mapError (fun _ => .io) (Device.erase 0)
  mapError (fun _ => .io) (Device.erase 1)
  formatHalf 0 0
  formatHalf 1 1

/-! ## Calls -/

/-- A mounted file system. -/
structure FileSystem (cfg : Config) where
  dev : Device cfg.toGeometry
  /-- The write path, once it is loaded. -/
  mem : Option MutableState

namespace FileSystem

variable {α : Type}

/-- What a call returns, or `none` if it panics, and the state after it. -/
abbrev Outcome (cfg : Config) (α : Type) := Except (Option LittleFsError) α × FileSystem cfg

/-- The write path is loaded, or the call fails. -/
def withMutable (x : M cfg α) (s : FileSystem cfg) : Outcome cfg α :=
  match s.mem with
  | none => (.error (some .io), s)
  | some m => ((x ⟨s.dev, m⟩).1, ⟨(x ⟨s.dev, m⟩).2.dev, some (x ⟨s.dev, m⟩).2.mem⟩)

/-- Load the write path if it is not. -/
def ensureMutable (s : FileSystem cfg) : Except LittleFsError (FileSystem cfg) :=
  match s.mem with
  | some _ => .ok s
  | none => (load s.dev).map fun m => { s with mem := some m }

/-- Load the write path, and go on with it. -/
def loading (x : M cfg α) (s : FileSystem cfg) : Outcome cfg α :=
  match s.ensureMutable with
  | .error e => (.error (some e), s)
  | .ok s => s.withMutable x

/-- Buffer bytes. This needs the write path only if they are flushed. -/
def write (h : FileMut) (bytes : List UInt8) (s : FileSystem cfg) : Outcome cfg FileMut :=
  if h.closed ∨ cfg.blockSize * 4 ≤ (h.buf ++ bytes).length then
    s.withMutable (Mounted.write h bytes)
  else (.ok { h with buf := h.buf ++ bytes }, s)

def close (h : FileMut) (s : FileSystem cfg) : Outcome cfg PUnit :=
  if h.closed then (.ok ⟨⟩, s) else s.withMutable (Mounted.close h)

/-- Commit what is dirty, if the write path is loaded. -/
def fsync (s : FileSystem cfg) : Outcome cfg PUnit :=
  match s.mem with
  | none => (.ok ⟨⟩, s)
  | some _ => s.withMutable commitAll

/-- Mount the device again. -/
def remount (s : FileSystem cfg) : Outcome cfg PUnit :=
  match mount s.dev.image with
  | .error e => (.error (some e), s)
  | .ok _ => (.ok ⟨⟩, { s with mem := none })

end FileSystem

/-- A call on the file system. Handles are values of the client. -/
inductive Call
  | mount
  | create (path : List UInt8)
  | openWrite (path : List UInt8) (flags : OpenFlags)
  | write (h : FileMut) (bytes : List UInt8)
  | flush (h : FileMut)
  | close (h : FileMut)
  | fsync
  | remove (path : List UInt8)
  | rename (src dst : List UInt8)
  | truncate (path : List UInt8) (newSize : ℕ)
  | mkdir (path : List UInt8)
  | rmdir (path : List UInt8)
  deriving DecidableEq

/-- The state after a call, and what it returns: the handle, if there is one. -/
def Call.run : Call → FileSystem cfg → FileSystem.Outcome cfg (Option FileMut)
  | .mount, s => nothing s.remount
  | .create path, s => nothing (s.loading (Mounted.create path))
  | .openWrite path flags, s => handle (s.loading (Mounted.openWrite path flags))
  | .write h bytes, s => handle (s.write h bytes)
  | .flush h, s => handle (s.withMutable (Mounted.flush h))
  | .close h, s => nothing (s.close h)
  | .fsync, s => nothing s.fsync
  | .remove path, s => nothing (s.loading (Mounted.remove path))
  | .rename src dst, s => nothing (s.loading (Mounted.rename src dst))
  | .truncate path newSize, s => nothing (s.loading (Mounted.truncate path newSize))
  | .mkdir path, s => nothing (s.loading (Mounted.mkdir path))
  | .rmdir path, s => nothing (s.loading (Mounted.rmdir path))
where
  nothing (r : FileSystem.Outcome cfg PUnit) : FileSystem.Outcome cfg (Option FileMut) :=
    (r.1.map fun _ => none, r.2)
  handle (r : FileSystem.Outcome cfg FileMut) : FileSystem.Outcome cfg (Option FileMut) :=
    (r.1.map some, r.2)

/-! ## Runs -/

/-- A call, with the failures that the device meets during it. -/
structure Step (cfg : Config) where
  call : Call
  faults : ℕ → List (Option (Fault cfg.toGeometry)) := fun _ => []

namespace FileSystem

/-- A call begins: it meets these failures, and nothing is recorded yet. -/
def begin (s : FileSystem cfg) (faults : ℕ → List (Option (Fault cfg.toGeometry))) :
    FileSystem cfg where
  dev := { s.dev with faults := faults, cuts := [] }
  mem := s.mem.map fun m => { m with handed := [] }

/-- A call that does not panic: what it returns, and the state after it. -/
def step (s : FileSystem cfg) (a : Step cfg) :
    Option (Except LittleFsError (Option FileMut) × FileSystem cfg) :=
  match a.call.run (s.begin a.faults) with
  | (.ok r, s') => some (.ok r, s')
  | (.error (some e), s') => some (.error e, s')
  | (.error none, _) => none

/-- A device that has been formatted, once it is mounted. -/
def Formatted (s : FileSystem cfg) : Prop :=
  ∃ d d', format d = (.ok (), d') ∧ s = ⟨d', none⟩

end FileSystem

end SmallAIOS.Fs.LittleFs

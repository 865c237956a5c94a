import SmallAIOS.Fs.Overlay.Integrity
import SmallAIOS.Lib.Triple
import SmallAIOS.Lib.Word

/-!
# Adding a model

A model is added by writing its content to a staging file, its fingerprint and
signature to sidecars, and renaming the staging file to the name of the model
(`add`). At boot, staging files that were left behind are removed (`cleanupOrphanTmp`,
`runBootCleanup`).

Each operation of the upper layer may fail, as planned by `OverlayWriter.faults`. The
writer also keeps the states after each operation that `add` has completed, in which
a loss of power leaves the upper layer (`OverlayWriter.cuts`).
-/

namespace SmallAIOS.Fs.Overlay

open Lib Fallible Fallible

def stagingSuffix : Path := ".tmp".toList

/-- What an operation of the writer fails with. -/
inductive OverlayWriteError
  | reservedSuffix (suffix : Path)
  | busy (name : Path)
  | noSpace
  | emptyName
  | signatureRequired
  | io (e : UpperError)
  | sourceIo
  deriving DecidableEq

structure OverlayCap where
  upperMaxBytes : ℕ
  requireSigned : Bool

structure AddResult where
  name : Path
  sha3 : Digest
  size : ℕ
  signatureWritten : Bool

/-- How far `add` has got when power is lost: it has removed what was left of the staging
    file, is writing that file, has created the fingerprint sidecar, has written it, has
    begun to write the signature sidecar, or has renamed the staging file. -/
inductive Point
  | cleared
  | staging
  | sidecarOpen
  | sidecar
  | signed
  | renamed
  deriving DecidableEq

structure OverlayWriter where
  upper : MockWritableUpperLayer
  cap : OverlayCap
  /-- The names that are locked. -/
  locks : List Path
  /-- The failures of the coming operations of the upper layer. -/
  faults : List (Option UpperError)
  /-- The upper layer after each operation of `add`. -/
  cuts : List (Point × MockWritableUpperLayer)

/-! ## Operations of the upper layer -/

abbrev UpperM := Fallible OverlayWriter UpperError

/-- An operation of the upper layer, unless it is planned to fail. -/
def onUpper {α : Type}
    (f : MockWritableUpperLayer → Except UpperError (α × MockWritableUpperLayer)) : UpperM α :=
  fun w =>
    match w.faults.head? with
    | some (some e) => (.error e, { w with faults := w.faults.tail })
    | _ =>
      match f w.upper with
      | .ok (a, u) => (.ok a, { w with upper := u, faults := w.faults.tail })
      | .error e => (.error e, { w with faults := w.faults.tail })

def unlink (path : Path) : UpperM Unit := onUpper fun u => .ok ((), u.unlink path)

def createOrReplace (path : Path) : UpperM Unit :=
  onUpper fun u => (u.createOrReplace path).map ((), ·)

def append (path : Path) (data : List UInt8) : UpperM Unit :=
  onUpper fun u => (u.append path data).map ((), ·)

def rename (src dst : Path) : UpperM Unit := onUpper fun u => (u.rename src dst).map ((), ·)

def fsync : UpperM Unit := onUpper fun u => .ok ((), u)

def iterDir (path : Path) : UpperM (List UpperEntry) :=
  onUpper fun u => (u.iterDir path).map (·, u)

variable (total : MockWritableUpperLayer → ℕ) (sha3 : List UInt8 → Digest)

/-- The bytes in use, as the upper layer reports them. -/
def totalBytes : UpperM ℕ := onUpper fun u => .ok (total u, u)

/-! ## Adding -/

abbrev WriteM := Fallible OverlayWriter OverlayWriteError

/-- An operation of the upper layer whose failure is passed on. -/
def io {α : Type} (x : UpperM α) : WriteM α := mapError .io x

/-- Record the upper layer as it is when power is lost here. -/
def note (point : Point) : UpperM Unit :=
  modify fun w => { w with cuts := w.cuts ++ [(point, w.upper)] }

/-- An operation of the upper layer after which power may be lost. -/
def step (point : Point) (x : UpperM Unit) : UpperM Unit := do
  x
  note point

/-- What one read of the source returns: some bytes, none at its end, or an error. -/
abbrev Read := Option { bytes : List UInt8 // bytes.length ≤ 8192 }

/-- Copy the source to the staging file and return its bytes. -/
def copySource (staging : Path) (initialUsed : ℕ) :
    List Read → List UInt8 → WriteM (List UInt8)
  | [], copied => pure copied
  | none :: _, _ => do
    attempt (io (step .staging (unlink staging)))
    fail .sourceIo
  | some chunk :: reads, copied =>
    if chunk.1 = [] then pure copied
    else do
      let w ← get
      let proposed := Word.saturatingAdd 64 initialUsed (copied.length + chunk.1.length)
      if w.cap.upperMaxBytes < proposed then
        attempt (io (step .staging (unlink staging)))
        fail .noSpace
      else
        io (step .staging (append staging chunk.1))
        copySource staging initialUsed reads (copied ++ chunk.1)

/-- Write or remove the signature sidecar, and return where this leaves `add`. -/
def writeSignature (name : Path) : Option (List UInt8) → WriteM Point
  | some sig => do
    io (step .signed (createOrReplace (sigSidecarPath name)))
    io (step .signed (append (sigSidecarPath name) sig))
    return .signed
  | none => do
    io (step .sidecar (unlink (sigSidecarPath name)))
    return .sidecar

/-- The part of `add` that writes. -/
def stream (name : Path) (source : List Read) (signature : Option (List UInt8)) :
    WriteM AddResult := do
  let staging := name ++ stagingSuffix
  io (step .cleared (unlink staging))
  io (step .staging (createOrReplace staging))
  let initialUsed ← io (totalBytes total)
  let copied ← copySource staging initialUsed source []
  let digest := sha3 copied
  io (step .sidecarOpen (createOrReplace (sha3SidecarPath name)))
  io (step .sidecar (append (sha3SidecarPath name) (encodeHex digest)))
  let point ← writeSignature name signature
  io (step point fsync)
  io (step .renamed (rename staging name))
  io (step .renamed fsync)
  return ⟨name, digest, copied.length, signature.isSome⟩

/-- Whether the declared size is more than what is left below the cap. -/
def overCap (expectedSize : ℕ) : WriteM Bool := do
  if 0 < expectedSize then
    let used ← io (totalBytes total)
    let w ← get
    return decide (w.cap.upperMaxBytes - used < expectedSize)
  else return false

def release (name : Path) (w : OverlayWriter) : OverlayWriter :=
  { w with locks := w.locks.filter (· ≠ name) }

/-- Add a model, or replace it. -/
def add (name : Path) (source : List Read) (expectedSize : ℕ)
    (signature : Option (List UInt8)) : WriteM AddResult :=
  if name = [] then fail .emptyName
  else
    match matchedReservedSuffix name with
    | some suffix => fail (.reservedSuffix suffix)
    | none => do
      let w ← get
      if w.cap.requireSigned ∧ signature = none then fail .signatureRequired
      else if name ∈ w.locks then fail (.busy name)
      else
        modify fun w => { w with locks := name :: w.locks }
        -- A failure to count the bytes in use leaves the name locked.
        if ← overCap total expectedSize then
          modify (release name)
          fail .noSpace
        else ending (stream total sha3 name source signature) (release name)

/-! ## Cleaning up at boot -/

/-- The files in the root of the upper layer that are named like a staging file. -/
def orphans (entries : List UpperEntry) : List Path :=
  (entries.filter fun e => e.kind = .regularFile ∧ stagingSuffix.isSuffixOf e.name).map (·.name)

def cleanupOrphanTmp : WriteM ℕ := do
  let names := orphans (← io (iterDir []))
  each (fun name => io (unlink name)) names
  if names ≠ [] then io fsync
  return names.length

structure BootCleanupReport where
  removed : List Path
  errors : List UpperError

/-- Remove the files, going on after a failure. -/
def sweep : List Path → BootCleanupReport → UpperM BootCleanupReport
  | [], report => pure report
  | name :: names, report => do
    match ← outcome (unlink name) with
    | .ok () => sweep names { report with removed := report.removed ++ [name] }
    | .error e => sweep names { report with errors := report.errors ++ [e] }

def runBootCleanup : UpperM BootCleanupReport := do
  match ← outcome (iterDir []) with
  | .error .notFound => return ⟨[], []⟩
  | .error e => return ⟨[], [e]⟩
  | .ok entries =>
    let report ← sweep (orphans entries) ⟨[], []⟩
    if report.removed ≠ [] then
      match ← outcome fsync with
      | .ok () => return report
      | .error e => return { report with errors := report.errors ++ [e] }
    else return report

end SmallAIOS.Fs.Overlay

import SmallAIOS.Lib.Fallible
import SmallAIOS.Mgmt.Audit.Chain
import SmallAIOS.Mgmt.Audit.Denial

/-!
# The in-memory audit ring

The ring chains the records it is given, writes their lines to the flusher and
keeps the last `auditRingCapacity` of them in memory. Denials go through the rate
limiter first, which may swallow them or ask for a burst record before. Every
`checkpointInterval` records, the chain head is signed and the signature written
as a record of its own.

A call may thus write several lines, each of which may be refused. The last section
says which: those of `Ring.writes`, as far as the flusher takes them (`Ring.taken`).
-/

namespace SmallAIOS.Mgmt.Audit

open Lib List Fallible

/-! ## Flush sinks and checkpoint signers

The audit ring writes its lines to a pluggable sink (`Flusher`), which may refuse
any of them. A `LoggingFlusher` is one with a log of the lines it took: a line
that is written goes to the end of the log, one that is refused leaves nothing in
it, and a flush does not change it.
-/

/-- Flush-sink errors. -/
inductive FlusherError
  /-- Underlying IO failed. -/
  | io (reason : String)
  /-- The line is not valid UTF-8. -/
  | notUtf8
  deriving DecidableEq

/-- Pluggable flush sink. -/
class Flusher (F : Type) where
  /-- Write one JSONL line. -/
  writeLine (f : F) (line : String) (immediate : Bool) : Except FlusherError Unit × F
  /-- Flush any buffered data. -/
  flush (f : F) : Except FlusherError Unit × F

/-- A flush sink with a log of its lines. -/
class LoggingFlusher (F : Type) extends Flusher F where
  /-- The lines written so far. -/
  lines : F → List String
  lines_of_ok {f : F} {line : String} {immediate : Bool} :
    (writeLine f line immediate).1 = .ok () →
      lines (writeLine f line immediate).2 = lines f ++ [line]
  lines_of_error {f : F} {line : String} {immediate : Bool} {e : FlusherError} :
    (writeLine f line immediate).1 = .error e → lines (writeLine f line immediate).2 = lines f
  lines_flush {f : F} : lines (flush f).2 = lines f

/-- Captures every line in memory. -/
structure MemoryFlusher where
  lines : List String
  /-- When set, the next write fails with this error and clears it. -/
  pendingError : Option FlusherError
  deriving DecidableEq

namespace MemoryFlusher

def new : MemoryFlusher := ⟨[], none⟩

def writeLine (f : MemoryFlusher) (line : String) (_immediate : Bool) :
    Except FlusherError Unit × MemoryFlusher :=
  match f.pendingError with
  | some err => (.error err, { f with pendingError := none })
  | none => (.ok (), { f with lines := f.lines ++ [line] })

instance : LoggingFlusher MemoryFlusher where
  writeLine := writeLine
  flush f := (.ok (), f)
  lines := lines
  lines_of_ok {f line immediate} h := by
    rw [writeLine] at h ⊢
    split at h
    · cases h
    · rfl
  lines_of_error {f line immediate e} h := by
    rw [writeLine] at h ⊢
    split at h
    · rfl
    · cases h
  lines_flush := rfl

end MemoryFlusher

/-- Errors raised by the checkpoint subsystem. -/
inductive CheckpointError
  | signerUnavailable
  | signatureInvalid
  deriving DecidableEq

/-- Signs a chain head. -/
abbrev CheckpointSigner := ChainHead → Except CheckpointError (List UInt8)

/-- Returns an empty signature. -/
def noopSigner : CheckpointSigner := fun _ => .ok []

open Flusher

/-- Ring capacity. -/
def auditRingCapacity : ℕ := 4096

/-- Ring-level errors. -/
inductive RingError
  /-- The flusher rejected the JSONL line. -/
  | flush (e : FlusherError)
  /-- The record exceeds `auditRingRecordBudgetBytes`. -/
  | overBudget
  deriving DecidableEq

/-- The last records, no more than `auditRingCapacity`. -/
structure RecordBuffer where
  records : List AuditRecord
  length_le : records.length ≤ auditRingCapacity

namespace RecordBuffer

def empty : RecordBuffer := ⟨[], Nat.zero_le _⟩

/-- Add a record; the oldest one goes if the buffer is full. -/
def push (b : RecordBuffer) (record : AuditRecord) : RecordBuffer where
  records :=
    (if b.records.length = auditRingCapacity then b.records.tail else b.records) ++ [record]
  length_le := by
    have := b.length_le
    split_ifs with h
    · rw [length_append, length_tail, length_singleton, h]
      decide
    · rw [length_append, length_singleton]
      omega

end RecordBuffer

/-- Audit ring over a flusher of type `F`. -/
structure Ring (F : Type) where
  /-- Bounded ring of committed records. -/
  records : RecordBuffer
  /-- Latest chain head. -/
  chainHead : ChainHead
  /-- Count of records committed since boot. -/
  recordCount : UInt64
  /-- Pending flush flag. -/
  dirty : Bool
  denial : DenialRateLimiter
  flusher : F
  signer : CheckpointSigner
  /-- Signed-checkpoint cadence; zero disables signed checkpoints. -/
  checkpointInterval : UInt32

/-- Add one, or stay at the largest number. -/
def saturatingSucc (n : UInt64) : UInt64 := UInt64.ofNat (min (n.toNat + 1) (2 ^ 64 - 1))

theorem toNat_saturatingSucc (n : UInt64) :
    (saturatingSucc n).toNat = min (n.toNat + 1) (2 ^ 64 - 1) := by
  rw [saturatingSucc, UInt64.toNat_ofNat', Nat.mod_eq_of_lt (by omega)]

namespace Ring

variable {F : Type}

def new (flusher : F) (signer : CheckpointSigner) (checkpointInterval : UInt32) : Ring F where
  records := .empty
  chainHead := emptyChainHead
  recordCount := 0
  dirty := false
  denial := .new
  flusher
  signer
  checkpointInterval

/-- Borrow the most recent in-memory record, if any. -/
def latest (ring : Ring F) : Option AuditRecord := ring.records.records.getLast?

def setCheckpointInterval (ring : Ring F) (interval : UInt32) : Ring F :=
  { ring with checkpointInterval := interval }

def commitInMemory (ring : Ring F) (record : AuditRecord) : Ring F :=
  { ring with
    chainHead := record.hash
    recordCount := saturatingSucc ring.recordCount
    records := ring.records.push record }

section Chain

variable (sha3 : List UInt8 → ChainHead) (ring : Ring F)

/-- The record with the hash of the one before and its own. -/
def chained (record : AuditRecord) : AuditRecord :=
  let record := { record with prevHash := ring.chainHead }
  { record with hash := computeHash sha3 record }

/-- The signed checkpoint to be written now, if any. -/
def dueCheckpoint : Option AuditRecord :=
  if ring.checkpointInterval = 0 then none
  else
    let interval := ring.checkpointInterval.toUInt64
    if 0 < ring.recordCount ∧ ring.recordCount % interval = 0 then
      match ring.signer ring.chainHead with
      | .error _ => none
      | .ok signature =>
        -- An empty signature means that the signer is not configured.
        if signature.isEmpty then none
        else
          let now := saturatingSucc ((ring.latest.map (·.tsNs)).getD 0)
          let cp : AuditRecord :=
            ⟨now, "kernel", .kernel, .checkpoint, .null, .null, 0, ring.chainHead, emptyChainHead,
              signature⟩
          some { cp with hash := computeHash sha3 cp }
    else none

end Chain

/-- The record of the denials swallowed before the given one. -/
def burstRecord (record : AuditRecord) (count : ℕ) : AuditRecord :=
  ⟨record.tsNs, record.who, record.surface, .denyBurst (UInt32.ofNat count), .null, .null, -1,
    emptyChainHead, emptyChainHead, []⟩

variable [Flusher F]

/-- Write the line of a record. -/
def flushRecord (record : AuditRecord) : Fallible (Ring F) RingError PUnit := fun ring =>
  let line := record.toJsonl
  if auditRingRecordBudgetBytes < (utf8 line).length then (.error .overBudget, ring)
  else
    let immediate := record.action.isAuthEvent
    match writeLine ring.flusher line immediate with
    | (.error e, flusher) => (.error (.flush e), { ring with flusher })
    | (.ok (), flusher) => (.ok ⟨⟩, { ring with flusher, dirty := !immediate })

/-- Write the line of a record and commit it. -/
def writeRecord (record : AuditRecord) : Fallible (Ring F) RingError PUnit := do
  flushRecord record
  modify (·.commitInMemory record)

section Append

variable (sha3 : List UInt8 → ChainHead)

def maybeEmitCheckpoint : Fallible (Ring F) RingError PUnit := do
  let ring ← get
  match ring.dueCheckpoint sha3 with
  | some cp => writeRecord cp
  | none => pure ⟨⟩

/-- Append a record without the rate limiter. -/
def appendUncoalesced (record : AuditRecord) : Fallible (Ring F) RingError ChainHead := do
  let ring ← get
  let record := ring.chained sha3 record
  writeRecord record
  maybeEmitCheckpoint sha3
  pure record.hash

/-- Append a denial record. The rate limiter governs whether it is recorded,
    dropped, or comes after the record of a burst. -/
def appendDenial (record : AuditRecord) : Fallible (Ring F) RingError ChainHead :=
  match record.action with
  | .denyBurst _ => appendUncoalesced sha3 record
  | _ => do
    -- The action is `deny`: `append` passes on no other.
    let ring ← get
    let (decision, denial) := ring.denial.observe record.who record.tsNs.toNat
    modify fun ring => { ring with denial }
    match decision with
    | .allow => appendUncoalesced sha3 record
    | .drop => pure ring.chainHead
    | .flushBurst count => do
      let _ ← appendUncoalesced sha3 (burstRecord record count)
      appendUncoalesced sha3 record

/-- Append a record. -/
def append (record : AuditRecord) : Fallible (Ring F) RingError ChainHead :=
  if record.action.isDenial then appendDenial sha3 record else appendUncoalesced sha3 record

/-- Append a denial record by syscall name and identity. -/
def appendDenialEvent (tsNs : UInt64) (who : String) (surface : AuditSurface) (syscall : String) :
    Fallible (Ring F) RingError ChainHead :=
  append sha3 ⟨tsNs, who, surface, .deny syscall, .null, .null, -1, emptyChainHead,
    emptyChainHead, []⟩

end Append

/-- Cooperative tick: flush dirty data. -/
def tick : Fallible (Ring F) RingError PUnit := fun ring =>
  if ring.dirty then
    match flush ring.flusher with
    | (.error e, flusher) => (.error (.flush e), { ring with flusher })
    | (.ok (), flusher) => (.ok ⟨⟩, { ring with flusher, dirty := false })
  else (.ok ⟨⟩, ring)

/-- Force a flush right now. -/
def flushNow : Fallible (Ring F) RingError PUnit := fun ring =>
  match flush ring.flusher with
  | (.error e, flusher) => (.error (.flush e), { ring with flusher })
  | (.ok (), flusher) => (.ok ⟨⟩, { ring with flusher, dirty := false })

/-! ## What a call writes -/

section Writes

variable (sha3 : List UInt8 → ChainHead) (ring : Ring F)

/-- The ring with the records committed. -/
def committed (recs : List AuditRecord) : Ring F := recs.foldl commitInMemory ring

/-- The records to be written for one: itself and a checkpoint that is then due. -/
def writesOf (record : AuditRecord) : List AuditRecord :=
  let r := ring.chained sha3 record
  r :: ((ring.commitInMemory r).dueCheckpoint sha3).toList

/-- The decision on a denial. -/
def decision (record : AuditRecord) : DenialDecision :=
  (DenialRateLimiter.decideFor (ring.denial.userState record.who record.tsNs.toNat)
    record.tsNs.toNat).1

/-- The records to be written by an append. -/
def writes (record : AuditRecord) : List AuditRecord :=
  match record.action with
  | .deny _ =>
    match ring.decision record with
    | .allow => ring.writesOf sha3 record
    | .drop => []
    | .flushBurst count =>
      let burst := ring.writesOf sha3 (burstRecord record count)
      burst ++ (ring.committed burst).writesOf sha3 record
  | _ => ring.writesOf sha3 record

/-- The limiter after an append. -/
def observed (record : AuditRecord) : DenialRateLimiter :=
  match record.action with
  | .deny _ => (ring.denial.observe record.who record.tsNs.toNat).2
  | _ => ring.denial

end Writes

/-- The first ones of the records, up to one whose line the flusher does not take. -/
def taken : F → List AuditRecord → List AuditRecord
  | _, [] => []
  | f, r :: rs =>
    if auditRingRecordBudgetBytes < (utf8 r.toJsonl).length then []
    else
      match writeLine f r.toJsonl r.action.isAuthEvent with
      | (.error _, _) => []
      | (.ok (), f) => r :: taken f rs

section Taken

variable {f f' : F} {r : AuditRecord}

theorem taken_of_not_fits (f : F) (rs : List AuditRecord) (h : ¬ Fits r) :
    taken f (r :: rs) = [] := by
  rw [taken, if_pos (Nat.not_le.1 h)]

theorem taken_of_ok (rs : List AuditRecord) (h : Fits r)
    (hw : writeLine f r.toJsonl r.action.isAuthEvent = (.ok (), f')) :
    taken f (r :: rs) = r :: taken f' rs := by
  rw [taken, if_neg (Nat.not_lt.2 h), hw]

end Taken

theorem taken_isPrefix (f : F) (recs : List AuditRecord) : taken f recs <+: recs := by
  induction recs generalizing f with
  | nil => exact nil_prefix
  | cons r rs ih =>
    rw [taken]
    split_ifs
    · exact nil_prefix
    · split
      · exact nil_prefix
      · exact cons_prefix_cons.2 ⟨rfl, ih _⟩

end Ring

end SmallAIOS.Mgmt.Audit

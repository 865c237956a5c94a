import SmallAIOS.Lib.Marked
import SmallAIOS.Lib.Run
import SmallAIOS.Lib.Word

/-!
# Audit-export pipeline

Records wait in a buffer until a batch of them is cut (`tick`) and sent. While a
batch is in flight no other one is cut; when the caller reports the outcome
(`onSend`), the batch is done with, or it goes back to the front of the buffer. A
record that does not fit in `bufferBytes` evicts the oldest ones, and is dropped
if it does not fit in the empty buffer either. Dropped records are counted, and
the count is reported once in a while (`maybeEmitOverflow`).

Sizes and counters are machine words. A call whose arithmetic overflows panics
and has no outcome (`none`).

`Moves` says what a call does to the records, whatever the call is; `step_moves`
is the only place where the calls are taken apart.
-/

namespace SmallAIOS.AuditExport

open Lib List Option Word Nat

/-- Configuration of the pipeline. -/
structure PipelineConfig where
  batchSize : ℕ
  batchIntervalMs : ℕ
  bufferBytes : ℕ
  backoffInitialMs : ℕ
  backoffCapMs : ℕ
  overflowLogIntervalMs : ℕ
  includeActions : List String
  excludeActions : List String
  deriving DecidableEq

/-- One audit record on its way to the wire. -/
structure PendingRecord where
  action : String
  key : List UInt8
  value : List UInt8
  deriving DecidableEq

/-- Bytes the record contributes to the buffer accounting. -/
def PendingRecord.byteSize (r : PendingRecord) : ℕ :=
  r.action.utf8ByteSize + r.key.length + r.value.length

/-- Reasons the pipeline may halt and refuse further sends. -/
inductive HaltReason
  | unauthenticated
  | proofFailure
  | rollbackSuspected
  | decodeFailure
  deriving DecidableEq

/-- Why the pipeline refused to accept a record. -/
inductive PipelineError
  | halted (reason : HaltReason)
  deriving DecidableEq

/-- What `tick` wants the caller to do next. -/
inductive PipelineAction
  | idle (nextWakeAtMs : Option ℕ)
  | sendBatch (records : List PendingRecord) (proveSinceTx : ℕ)
  | halted (reason : HaltReason)
  deriving DecidableEq

/-- The records the pipeline emits about itself. -/
inductive SelfAudit
  | overflow (dropped : ℕ)
  | attemptOk
  | attemptRetry (code : ℤ)
  | halted (reason : HaltReason)
  deriving DecidableEq

/-- What became of a batch that was sent. -/
inductive SendOutcome
  | success (newTxId : ℕ)
  | retry (code : ℤ)
  | halt (reason : HaltReason)
  deriving DecidableEq

/-- The pipeline state machine. -/
structure Pipeline where
  cfg : PipelineConfig
  /-- The records that wait, the oldest first. -/
  buffer : List PendingRecord
  bufferBytes : ℕ
  inFlight : Option (List PendingRecord)
  lastTxId : ℕ
  batchStartedAt : Option ℕ
  backoffCurrentMs : ℕ
  nextAttemptAt : ℕ
  halt : Option HaltReason
  droppedSinceLastOverflowLog : ℕ
  lastOverflowLogAt : Option ℕ
  deriving DecidableEq

/-- The total size of records. -/
def totalSize (l : List PendingRecord) : ℕ := (l.map PendingRecord.byteSize).sum

/-- What the loop of `push` leaves: whether there is room, and the fields that it changes. -/
structure Room where
  fits : Bool
  buffer : List PendingRecord
  bytes : ℕ
  dropped : ℕ

/-- The loop of `push`: evict the oldest records until `need` more bytes fit. -/
def makeRoom (cap need : ℕ) : List PendingRecord → ℕ → ℕ → Option Room
  | [], bytes, dropped =>
    (add 64 bytes need).map fun total =>
      -- The record alone is larger than the buffer: drop it and count it.
      if cap < total then ⟨false, [], bytes, saturatingAdd 32 dropped 1⟩
      else ⟨true, [], bytes, dropped⟩
  | victim :: rest, bytes, dropped =>
    (add 64 bytes need).bind fun total =>
      if cap < total then
        (sub bytes victim.byteSize).bind fun bytes =>
          makeRoom cap need rest bytes (saturatingAdd 32 dropped 1)
      else some ⟨true, victim :: rest, bytes, dropped⟩

/-- The loop of `tick`: the first `n` records, those left, and their size. -/
def cut : ℕ → List PendingRecord → ℕ →
    Option (List PendingRecord × List PendingRecord × ℕ)
  | 0, buffer, bytes => some ([], buffer, bytes)
  | _ + 1, [], _ => none
  | n + 1, r :: rest, bytes =>
    (sub bytes r.byteSize).bind fun bytes =>
      (cut n rest bytes).map fun (batch, rest, bytes) => (r :: batch, rest, bytes)

/-- The loop of `onSend`: put the records, the last one first, back to the front of the buffer. -/
def putBack : List PendingRecord → List PendingRecord → ℕ → Option (List PendingRecord × ℕ)
  | [], buffer, bytes => some (buffer, bytes)
  | r :: reversed, buffer, bytes =>
    (add 64 bytes r.byteSize).bind fun bytes => putBack reversed (r :: buffer) bytes

namespace Pipeline

def new (cfg : PipelineConfig) (lastKnownTxId : ℕ) : Pipeline where
  cfg := cfg
  buffer := []
  bufferBytes := 0
  inFlight := none
  lastTxId := lastKnownTxId
  batchStartedAt := none
  backoffCurrentMs := 0
  nextAttemptAt := 0
  halt := none
  droppedSinceLastOverflowLog := 0
  lastOverflowLogAt := none

variable (p : Pipeline)

def passesFilter (record : PendingRecord) : Bool :=
  if !p.cfg.includeActions.isEmpty && !p.cfg.includeActions.any (· == record.action) then false
  else if p.cfg.excludeActions.any (· == record.action) then false
  else true

/-- Attempt to enqueue a record. -/
def push (nowMs : ℕ) (record : PendingRecord) : Option (Except PipelineError Bool × Pipeline) :=
  match p.halt with
  | some reason => some (.error (.halted reason), p)
  | none =>
    if !p.passesFilter record then some (.ok false, p)
    else
      (makeRoom p.cfg.bufferBytes record.byteSize p.buffer p.bufferBytes
          p.droppedSinceLastOverflowLog).bind fun room =>
        if room.fits then
          (add 64 room.bytes record.byteSize).map fun bytes =>
            (.ok true, { p with
              buffer := room.buffer ++ [record]
              bufferBytes := bytes
              batchStartedAt := p.batchStartedAt <|> some nowMs
              droppedSinceLastOverflowLog := room.dropped })
        else
          some (.ok false, { p with
            buffer := room.buffer
            bufferBytes := room.bytes
            droppedSinceLastOverflowLog := room.dropped })

/-- Whether a batch is to be cut: it is full, or its time is over. -/
def batchReady (nowMs : ℕ) : Bool :=
  let sizeReady := decide (p.cfg.batchSize ≤ p.buffer.length)
  let timeReady := p.batchStartedAt.any (fun t => decide (p.cfg.batchIntervalMs ≤ nowMs - t)) &&
    !p.buffer.isEmpty
  sizeReady || timeReady

/-- Drive the state machine one step. -/
def tick (nowMs : ℕ) : Option (PipelineAction × Pipeline) :=
  match p.halt with
  | some reason => some (.halted reason, p)
  | none =>
    if p.inFlight.isSome then some (.idle none, p)
    else if nowMs < p.nextAttemptAt then some (.idle (some p.nextAttemptAt), p)
    else if p.batchReady nowMs then
      (cut (min p.cfg.batchSize p.buffer.length) p.buffer p.bufferBytes).map
        fun (batch, rest, bytes) =>
          (.sendBatch batch p.lastTxId, { p with
            buffer := rest
            bufferBytes := bytes
            inFlight := some batch
            batchStartedAt := if rest.isEmpty then none else some nowMs })
    else
      some (.idle (p.batchStartedAt.map fun t => saturatingAdd 64 t p.cfg.batchIntervalMs), p)

/-- Take the batch in flight, if there is one, back to the front of the buffer. -/
def requeue : Option Pipeline :=
  match p.inFlight with
  | some batch =>
    (putBack batch.reverse p.buffer p.bufferBytes).map fun (buffer, bytes) =>
      { p with
        buffer := buffer
        bufferBytes := bytes
        inFlight := none }
  | none => some p

/-- The wait before the next attempt: it doubles up to a limit. -/
def nextBackoff : ℕ :=
  if p.backoffCurrentMs = 0 then p.cfg.backoffInitialMs
  else min (min (p.backoffCurrentMs * 2) (2 ^ 64 - 1)) p.cfg.backoffCapMs

/-- The caller reports the outcome of a `sendBatch` action. -/
def onSend (nowMs : ℕ) (outcome : SendOutcome) : Option (Option SelfAudit × Pipeline) :=
  match outcome with
  | .success newTxId =>
    some (some .attemptOk, { p with
      inFlight := none
      backoffCurrentMs := 0
      nextAttemptAt := 0
      lastTxId := newTxId })
  | .retry code =>
    p.requeue.map fun q => (some (.attemptRetry code), { q with
      batchStartedAt :=
        if p.inFlight.isSome then q.batchStartedAt <|> some nowMs else q.batchStartedAt
      backoffCurrentMs := q.nextBackoff
      nextAttemptAt := saturatingAdd 64 nowMs q.nextBackoff })
  | .halt reason =>
    p.requeue.map fun q => (some (.halted reason), { q with halt := some reason })

/-- Report the records dropped, if that is due. -/
def maybeEmitOverflow (nowMs : ℕ) : Option SelfAudit × Pipeline :=
  if p.droppedSinceLastOverflowLog = 0 then (none, p)
  else if p.lastOverflowLogAt.all fun last =>
      decide (p.cfg.overflowLogIntervalMs ≤ nowMs - last) then
    (some (.overflow p.droppedSinceLastOverflowLog), { p with
      droppedSinceLastOverflowLog := 0
      lastOverflowLogAt := some nowMs })
  else (none, p)

end Pipeline

/-! ## The loops -/

section Loops

variable {cap need bytes dropped n bytes' : ℕ} {buffer buffer' batch rest : List PendingRecord}
  {room : Room}

@[simp] theorem totalSize_nil : totalSize [] = 0 := rfl

@[simp] theorem totalSize_cons (r : PendingRecord) (l : List PendingRecord) :
    totalSize (r :: l) = r.byteSize + totalSize l := rfl

@[simp] theorem totalSize_append (l l' : List PendingRecord) :
    totalSize (l ++ l') = totalSize l + totalSize l' := by
  rw [totalSize, map_append, sum_append_nat, totalSize, totalSize]

/-- The counter, which stops at the largest word, after `n` drops. -/
def CountsDrops (dropped n dropped' : ℕ) : Prop := dropped + n < 2 ^ 32 → dropped' = dropped + n

/-- Records are evicted from the front, each one counted as dropped, until the new one fits, or none
    is left and it is dropped too. -/
theorem makeRoom_spec (h : makeRoom cap need buffer bytes dropped = some room) :
    ∃ victims, buffer = victims ++ room.buffer ∧ totalSize victims + room.bytes = bytes ∧
      (room.fits = true ∧ room.bytes + need ≤ cap ∧
          CountsDrops dropped victims.length room.dropped ∨
        room.fits = false ∧ room.buffer = [] ∧ cap < room.bytes + need ∧
          CountsDrops dropped (victims.length + 1) room.dropped) := by
  induction buffer generalizing bytes dropped with
  | nil =>
    rw [makeRoom, map_eq_some_iff] at h
    obtain ⟨total, htotal, rfl⟩ := h
    obtain ⟨-, rfl⟩ := add_eq_some.1 htotal
    refine ⟨[], ?_⟩
    split_ifs with hcap
    · exact ⟨rfl, zero_add _, .inr ⟨rfl, rfl, hcap, saturatingAdd_of_lt⟩⟩
    · exact ⟨rfl, zero_add _, .inl ⟨rfl, not_lt.1 hcap, fun _ => rfl⟩⟩
  | cons victim rest ih =>
    rw [makeRoom, bind_eq_some_iff] at h
    obtain ⟨total, htotal, h⟩ := h
    obtain ⟨-, rfl⟩ := add_eq_some.1 htotal
    split_ifs at h with hcap
    · obtain ⟨bytes1, hsub, hloop⟩ := bind_eq_some_iff.1 h
      obtain rfl := sub_eq_some.1 hsub
      obtain ⟨victims, rfl, rfl, hroom⟩ := ih hloop
      -- One more drop comes before those of the rest of the loop.
      have hcount {n d : ℕ} (hd : CountsDrops (saturatingAdd 32 dropped 1) n d) :
          CountsDrops dropped (n + 1) d := by
        intro hlt
        have hone : saturatingAdd 32 dropped 1 = dropped + 1 :=
          saturatingAdd_of_lt (by omega)
        rw [hd (by omega)]
        omega
      refine ⟨victim :: victims, rfl, by rw [totalSize_cons, add_assoc], ?_⟩
      exact hroom.imp (And.imp_right (And.imp_right hcount))
        (And.imp_right (And.imp_right (And.imp_right hcount)))
    · cases h
      exact ⟨[], rfl, zero_add _, .inl ⟨rfl, not_lt.1 hcap, fun _ => rfl⟩⟩

theorem cut_spec (h : cut n buffer bytes = some (batch, rest, bytes')) :
    buffer = batch ++ rest ∧ totalSize batch + bytes' = bytes := by
  induction n generalizing buffer bytes batch with
  | zero =>
    cases h
    exact ⟨rfl, zero_add _⟩
  | succ n ih =>
    cases buffer with
    | nil => cases h
    | cons r buffer =>
      rw [cut, bind_eq_some_iff] at h
      obtain ⟨bytes1, hsub, h⟩ := h
      obtain rfl := sub_eq_some.1 hsub
      obtain ⟨⟨batch1, rest1, bytes2⟩, hcut, he⟩ := map_eq_some_iff.1 h
      cases he
      obtain ⟨rfl, rfl⟩ := ih hcut
      exact ⟨rfl, by rw [totalSize_cons, add_assoc]⟩

variable {reversed : List PendingRecord}

theorem putBack_spec (h : putBack reversed buffer bytes = some (buffer', bytes')) :
    buffer' = reversed.reverse ++ buffer ∧ bytes' = bytes + totalSize reversed := by
  induction reversed generalizing buffer bytes with
  | nil =>
    cases h
    exact ⟨rfl, rfl⟩
  | cons r reversed ih =>
    rw [putBack, bind_eq_some_iff] at h
    obtain ⟨bytes1, hadd, h⟩ := h
    obtain ⟨-, rfl⟩ := add_eq_some.1 hadd
    obtain ⟨rfl, rfl⟩ := ih h
    refine ⟨?_, by rw [totalSize_cons, add_assoc]⟩
    rw [reverse_cons, append_assoc, singleton_append]

theorem totalSize_reverse (l : List PendingRecord) : totalSize l.reverse = totalSize l := by
  rw [totalSize, map_reverse, sum_reverse, totalSize]

/-- The loops do not overflow, as long as all sizes together fit in a word. -/
theorem exists_makeRoom (cap dropped : ℕ) (hbytes : bytes = totalSize buffer)
    (hfits : bytes + need < 2 ^ 64) :
    ∃ room, makeRoom cap need buffer bytes dropped = some room := by
  induction buffer generalizing bytes dropped with
  | nil =>
    rw [makeRoom, add_eq_some.2 ⟨hfits, rfl⟩]
    exact ⟨_, rfl⟩
  | cons victim rest ih =>
    rw [makeRoom, add_eq_some.2 ⟨hfits, rfl⟩, bind_some]
    split
    · rw [totalSize_cons] at hbytes
      rw [sub_eq_some.2 hbytes.symm]
      exact ih _ rfl (by omega)
    · exact ⟨_, rfl⟩

theorem exists_cut (hn : n ≤ buffer.length) (hbytes : bytes = totalSize buffer) :
    ∃ r, cut n buffer bytes = some r := by
  induction n generalizing buffer bytes with
  | zero => exact ⟨_, rfl⟩
  | succ n ih =>
    cases buffer with
    | nil => exact absurd hn (not_succ_le_zero n)
    | cons r rest =>
      rw [totalSize_cons] at hbytes
      obtain ⟨q, hq⟩ := ih (le_of_succ_le_succ hn) rfl
      rw [cut, sub_eq_some.2 hbytes.symm, bind_some, hq]
      exact ⟨_, rfl⟩

theorem exists_putBack (buffer : List PendingRecord)
    (hfits : bytes + totalSize reversed < 2 ^ 64) :
    ∃ r, putBack reversed buffer bytes = some r := by
  induction reversed generalizing buffer bytes with
  | nil => exact ⟨_, rfl⟩
  | cons r reversed ih =>
    rw [totalSize_cons] at hfits
    rw [putBack, add_eq_some.2 ⟨by omega, rfl⟩]
    exact ih _ (by omega)

end Loops

/-! ## Calls -/

/-- A call on the pipeline. -/
inductive Call
  | push (nowMs : ℕ) (record : PendingRecord)
  | tick (nowMs : ℕ)
  | onSend (nowMs : ℕ) (outcome : SendOutcome)
  | maybeEmitOverflow (nowMs : ℕ)

/-- The call reports that the batch in flight is not done with. -/
def Call.Returns : Call → Prop
  | .onSend _ (.retry _) | .onSend _ (.halt _) => True
  | _ => False

instance (c : Call) : Decidable c.Returns := by
  unfold Call.Returns
  split <;> infer_instance

/-- The size of the record that a call brings. -/
def Call.size : Call → ℕ
  | .push _ record => record.byteSize
  | _ => 0

/-- What a call returns. -/
inductive Ret
  | pushed (result : Except PipelineError Bool)
  | action (action : PipelineAction)
  | audit (record : Option SelfAudit)

namespace Pipeline

variable (p : Pipeline)

def step : Call → Option (Ret × Pipeline)
  | .push nowMs record => (p.push nowMs record).map fun (result, p') => (.pushed result, p')
  | .tick nowMs => (p.tick nowMs).map fun (action, p') => (.action action, p')
  | .onSend nowMs outcome => (p.onSend nowMs outcome).map fun (record, p') => (.audit record, p')
  | .maybeEmitOverflow nowMs =>
    some (.audit (p.maybeEmitOverflow nowMs).1, (p.maybeEmitOverflow nowMs).2)

/-- The records in flight. -/
def flight : List PendingRecord := p.inFlight.getD []

/-- The record is larger than the buffer, and not turned away before. -/
def Oversized (r : PendingRecord) : Prop :=
  p.halt = none ∧ p.passesFilter r = true ∧ p.cfg.bufferBytes < r.byteSize
  deriving Decidable

/-- What a call does to the records. -/
inductive Moves (p p' : Pipeline) : Call → Ret → Prop
  /-- A record is turned away. -/
  | refused {now : ℕ} {r : PendingRecord} {result : Except PipelineError Bool}
    (result_ne : result ≠ .ok true) (not_oversized : ¬ p.Oversized r) (eq : p' = p) :
    Moves p p' (.push now r) (.pushed result)
  /-- A record is queued, which evicts the oldest ones. -/
  | queued {now : ℕ} {r : PendingRecord} {victims rest : List PendingRecord}
    (buffer : p.buffer = victims ++ rest) (buffer' : p'.buffer = rest ++ [r])
    (bytes : totalSize victims + p'.bufferBytes = p.bufferBytes + r.byteSize)
    (fits : r.byteSize ≤ p'.bufferBytes) (bytes_le : p'.bufferBytes ≤ p.cfg.bufferBytes)
    (dropped : CountsDrops p.droppedSinceLastOverflowLog victims.length
      p'.droppedSinceLastOverflowLog)
    (flight : p'.flight = p.flight) :
    Moves p p' (.push now r) (.pushed (.ok true))
  /-- A record is dropped, after all the others. -/
  | emptied {now : ℕ} {r : PendingRecord}
    (halt : p.halt = none) (filter : p.passesFilter r = true) (buffer' : p'.buffer = [])
    (bytes : totalSize p.buffer + p'.bufferBytes = p.bufferBytes)
    (lt_need : p.cfg.bufferBytes < p'.bufferBytes + r.byteSize)
    (dropped : CountsDrops p.droppedSinceLastOverflowLog (p.buffer.length + 1)
      p'.droppedSinceLastOverflowLog)
    (flight : p'.flight = p.flight) :
    Moves p p' (.push now r) (.pushed (.ok false))
  | idle {now : ℕ} {action : PipelineAction} (eq : p' = p) :
    Moves p p' (.tick now) (.action action)
  /-- A batch is cut. -/
  | cut {now : ℕ} {action : PipelineAction}
    (flight : p.flight = []) (buffer : p.buffer = p'.flight ++ p'.buffer)
    (bytes : totalSize p'.flight + p'.bufferBytes = p.bufferBytes)
    (dropped : p'.droppedSinceLastOverflowLog = p.droppedSinceLastOverflowLog) :
    Moves p p' (.tick now) (.action action)
  /-- The batch in flight is delivered. -/
  | delivered {now newTxId : ℕ} {record : Option SelfAudit}
    (flight' : p'.flight = []) (buffer : p'.buffer = p.buffer)
    (bytes : p'.bufferBytes = p.bufferBytes)
    (dropped : p'.droppedSinceLastOverflowLog = p.droppedSinceLastOverflowLog) :
    Moves p p' (.onSend now (.success newTxId)) (.audit record)
  /-- The batch in flight goes back to the buffer. -/
  | returned {c : Call} {record : Option SelfAudit} (returns : c.Returns)
    (flight' : p'.flight = []) (buffer : p'.buffer = p.flight ++ p.buffer)
    (bytes : p'.bufferBytes = p.bufferBytes + totalSize p.flight)
    (dropped : p'.droppedSinceLastOverflowLog = p.droppedSinceLastOverflowLog) :
    Moves p p' c (.audit record)
  | quiet {now : ℕ} (eq : p' = p) : Moves p p' (.maybeEmitOverflow now) (.audit none)
  /-- The drops are reported. -/
  | reported {now : ℕ} (flight : p'.flight = p.flight) (buffer : p'.buffer = p.buffer)
    (bytes : p'.bufferBytes = p.bufferBytes) (dropped : p'.droppedSinceLastOverflowLog = 0) :
    Moves p p' (.maybeEmitOverflow now) (.audit (some (.overflow p.droppedSinceLastOverflowLog)))

variable {p p' : Pipeline}

variable {now : ℕ} {r : PendingRecord}

theorem push_moves {result : Except PipelineError Bool} (h : p.push now r = some (result, p')) :
    p'.cfg = p.cfg ∧ Moves p p' (.push now r) (.pushed result) := by
  rw [push] at h
  split at h
  · next hhalt =>
    cases h
    exact ⟨rfl, .refused nofun (fun ho => by simp [ho.1] at hhalt) rfl⟩
  · next hhalt =>
    split_ifs at h with hfilter
    · cases h
      refine ⟨rfl, .refused nofun (fun ho => ?_) rfl⟩
      rw [ho.2.1] at hfilter
      cases hfilter
    · rw [Bool.not_eq_true', Bool.not_eq_false] at hfilter
      obtain ⟨room, hroom, h⟩ := bind_eq_some_iff.1 h
      obtain ⟨victims, hbuffer, hbytes, ⟨hfits, hle, hd⟩ | ⟨hfits, hnil, hlt, hd⟩⟩ :=
        makeRoom_spec hroom
      · rw [if_pos hfits] at h
        obtain ⟨bytes, hadd, he⟩ := map_eq_some_iff.1 h
        obtain ⟨-, rfl⟩ := add_eq_some.1 hadd
        cases he
        refine ⟨rfl, .queued hbuffer rfl ?_ (Nat.le_add_left ..) hle hd rfl⟩
        rw [← hbytes]
        exact (add_assoc ..).symm
      · rw [if_neg (by rw [hfits]; nofun)] at h
        cases h
        rw [hnil, append_nil] at hbuffer
        exact ⟨rfl, .emptied hhalt hfilter hnil (by rw [hbuffer, hbytes]) hlt (hbuffer ▸ hd) rfl⟩

theorem tick_moves {action : PipelineAction} (h : p.tick now = some (action, p')) :
    p'.cfg = p.cfg ∧ Moves p p' (.tick now) (.action action) := by
  rw [tick] at h
  split at h
  · cases h
    exact ⟨rfl, .idle rfl⟩
  · split_ifs at h with hflight hwait hready
    · cases h
      exact ⟨rfl, .idle rfl⟩
    · cases h
      exact ⟨rfl, .idle rfl⟩
    · obtain ⟨⟨batch, rest, bytes⟩, hcut, he⟩ := map_eq_some_iff.1 h
      obtain ⟨hbuffer, hbytes⟩ := cut_spec hcut
      cases he
      refine ⟨rfl, .cut ?_ hbuffer hbytes rfl⟩
      rw [flight, not_isSome_iff_eq_none.1 hflight]
      rfl
    · cases h
      exact ⟨rfl, .idle rfl⟩

theorem requeue_spec {q : Pipeline} (h : p.requeue = some q) :
    q = { p with
      buffer := p.flight ++ p.buffer
      bufferBytes := p.bufferBytes + totalSize p.flight
      inFlight := none } := by
  rw [requeue] at h
  split at h
  · next batch hbatch =>
    obtain ⟨⟨buffer, bytes⟩, hback, rfl⟩ := map_eq_some_iff.1 h
    obtain ⟨rfl, rfl⟩ := putBack_spec hback
    rw [flight, hbatch, reverse_reverse, totalSize_reverse, getD_some]
  · next hnone =>
    cases h
    rw [flight, hnone, getD_none, nil_append, totalSize_nil, add_zero, ← hnone]

theorem onSend_moves {outcome : SendOutcome} {record : Option SelfAudit}
    (h : p.onSend now outcome = some (record, p')) :
    p'.cfg = p.cfg ∧ Moves p p' (.onSend now outcome) (.audit record) := by
  cases outcome with
  | success newTxId =>
    cases h
    exact ⟨rfl, .delivered rfl rfl rfl rfl⟩
  | retry code | halt reason =>
    obtain ⟨q, hq, he⟩ := map_eq_some_iff.1 h
    obtain rfl := requeue_spec hq
    cases he
    exact ⟨rfl, .returned trivial rfl rfl rfl rfl⟩

theorem maybeEmitOverflow_moves (now : ℕ) :
    (p.maybeEmitOverflow now).2.cfg = p.cfg ∧ Moves p (p.maybeEmitOverflow now).2
      (.maybeEmitOverflow now) (.audit (p.maybeEmitOverflow now).1) := by
  rw [maybeEmitOverflow]
  split_ifs with hzero hdue
  · exact ⟨rfl, .quiet rfl⟩
  · exact ⟨rfl, .reported rfl rfl rfl rfl⟩
  · exact ⟨rfl, .quiet rfl⟩

theorem step_moves {c : Call} {ret : Ret} (h : p.step c = some (ret, p')) :
    p'.cfg = p.cfg ∧ Moves p p' c ret := by
  cases c with
  | push now r =>
    obtain ⟨_, hr, he⟩ := map_eq_some_iff.1 h
    cases he
    exact push_moves hr
  | tick now =>
    obtain ⟨_, hr, he⟩ := map_eq_some_iff.1 h
    cases he
    exact tick_moves hr
  | onSend now outcome =>
    obtain ⟨_, hr, he⟩ := map_eq_some_iff.1 h
    cases he
    exact onSend_moves hr
  | maybeEmitOverflow now =>
    cases h
    exact maybeEmitOverflow_moves now

theorem exists_requeue (hfits : totalSize p.flight + p.bufferBytes < 2 ^ 64) :
    ∃ q, p.requeue = some q := by
  rw [requeue]
  split
  · next batch hbatch =>
    rw [flight, hbatch, Option.getD_some, ← totalSize_reverse, add_comm] at hfits
    obtain ⟨r, hr⟩ := exists_putBack p.buffer hfits
    rw [hr]
    exact ⟨_, rfl⟩
  · exact ⟨_, rfl⟩

section

variable (hbytes : p.bufferBytes = totalSize p.buffer)
include hbytes

theorem exists_push (now : ℕ) (hfits : p.bufferBytes + r.byteSize < 2 ^ 64) :
    ∃ q, p.push now r = some q := by
  rw [push]
  split
  · exact ⟨_, rfl⟩
  · split
    · exact ⟨_, rfl⟩
    · obtain ⟨room, hroom⟩ :=
        exists_makeRoom p.cfg.bufferBytes p.droppedSinceLastOverflowLog hbytes hfits
      obtain ⟨victims, -, hle, -⟩ := makeRoom_spec hroom
      rw [hroom, bind_some]
      split
      · rw [add_eq_some.2 ⟨by omega, rfl⟩]
        exact ⟨_, rfl⟩
      · exact ⟨_, rfl⟩

theorem exists_tick (now : ℕ) : ∃ q, p.tick now = some q := by
  obtain ⟨q, hq⟩ := exists_cut (min_le_right p.cfg.batchSize p.buffer.length) hbytes
  rw [tick]
  split
  · exact ⟨_, rfl⟩
  · split_ifs
    · exact ⟨_, rfl⟩
    · exact ⟨_, rfl⟩
    · rw [hq]
      exact ⟨_, rfl⟩
    · exact ⟨_, rfl⟩

/-- No call panics, as long as all sizes together fit in a word. -/
theorem exists_step (c : Call) (hfits : totalSize p.flight + p.bufferBytes + c.size < 2 ^ 64) :
    ∃ r, p.step c = some r := by
  cases c with
  | push now r =>
    rw [Call.size] at hfits
    have hpush : p.bufferBytes + r.byteSize < 2 ^ 64 := by omega
    obtain ⟨q, hq⟩ := p.exists_push hbytes now hpush
    rw [step, hq]
    exact ⟨_, rfl⟩
  | tick now =>
    obtain ⟨q, hq⟩ := p.exists_tick hbytes now
    rw [step, hq]
    exact ⟨_, rfl⟩
  | onSend now outcome =>
    obtain ⟨q, hq⟩ := p.exists_requeue hfits
    cases outcome with
    | success newTxId => exact ⟨_, rfl⟩
    | retry code | halt reason =>
      rw [step, onSend, hq]
      exact ⟨_, rfl⟩
  | maybeEmitOverflow now => exact ⟨_, rfl⟩

end

end Pipeline

end SmallAIOS.AuditExport

import SmallAIOS.AuditExport.Pipeline

/-!
# Runs of the audit-export pipeline

The pipeline with a ledger of what became of the records (`Ledger`), which only
watches. Along every run, unless the counter of drops overflows,

* every record accepted is delivered, in flight, buffered or evicted, the first
  three in the order of the pushes, and every drop has been reported or is
  pending (`reachesBy_accounted`);
* a push that is refused keeps the buffer, unless the record is larger than the
  limit (`refused_push_keeps_buffer_iff`);
* the buffer stays within its limit as long as it does when a batch that failed
  comes back (`reachesBy_bufferBytes_le`). `onSend` does not look at the limit: a
  batch comes back on top of the records that were queued meanwhile.
-/

namespace SmallAIOS.AuditExport

open Lib List Pipeline Marked

/-- Where an accepted record is. -/
inductive Fate
  | delivered
  | inFlight
  | buffered
  | evicted
  deriving DecidableEq

/-- What became of the records so far. -/
structure Ledger where
  /-- The records for which `push` returned `Ok(true)`, in order. -/
  accepted : List PendingRecord
  /-- The records of the batches that were reported a success. -/
  delivered : List PendingRecord
  /-- The records evicted to make room. -/
  evicted : List PendingRecord
  /-- The number of records dropped because they are larger than the buffer. -/
  oversized : ℕ
  /-- The sum of the drops reported. -/
  reported : ℕ
  /-- The drops since the last report. -/
  unreported : ℕ
  deriving DecidableEq

namespace Ledger

def empty : Ledger := ⟨[], [], [], 0, 0, 0⟩

/-- The record, if the push accepted it. -/
def queued (r : PendingRecord) : Except PipelineError Bool → List PendingRecord
  | .ok true => [r]
  | _ => []

/-- The records gone from the front of the buffer. -/
def victims (p p' : Pipeline) (queued : List PendingRecord) : List PendingRecord :=
  p.buffer.take ((p.buffer ++ queued).length - p'.buffer.length)

variable (l : Ledger) (p p' : Pipeline)

/-- The ledger after a call that took the pipeline from `p` to `p'`. -/
def note : Call → Ret → Ledger
  | .push _ r, .pushed result =>
    let victims := victims p p' (queued r result)
    let oversized := if p.Oversized r then 1 else 0
    { l with
      accepted := l.accepted ++ queued r result
      evicted := l.evicted ++ victims
      oversized := l.oversized + oversized
      unreported := l.unreported + (victims.length + oversized) }
  | .onSend _ (.success _), _ => { l with delivered := l.delivered ++ p.flight }
  | .maybeEmitOverflow _, .audit (some (.overflow dropped)) =>
    { l with
      reported := l.reported + dropped
      unreported := 0 }
  | _, _ => l

variable {l p p'} {result : Except PipelineError Bool} {r : PendingRecord}

theorem queued_of_ne (h : result ≠ .ok true) : queued r result = [] := by
  rw [queued]
  exact h

theorem note_push {now : ℕ} (gone : List PendingRecord) {oversized : ℕ}
    (hbuffer : p.buffer ++ queued r result = gone ++ p'.buffer)
    (hgone : gone.length ≤ p.buffer.length)
    (hoversized : (if p.Oversized r then 1 else 0) = oversized) :
    l.note p p' (.push now r) (.pushed result) = { l with
      accepted := l.accepted ++ queued r result
      evicted := l.evicted ++ gone
      oversized := l.oversized + oversized
      unreported := l.unreported + (gone.length + oversized) } := by
  have hvictims : victims p p' (queued r result) = gone := by
    rw [victims, hbuffer, length_append, Nat.add_sub_cancel,
      ← take_append_of_le_length hgone, hbuffer, take_left]
  rw [note, hvictims, hoversized]

theorem note_of_returns {c : Call} {ret : Ret} (h : c.Returns) : l.note p p' c ret = l := by
  cases c with
  | onSend now outcome =>
    cases outcome with
    | success newTxId => exact h.elim
    | retry code => rfl
    | halt reason => rfl
  | _ => exact h.elim

end Ledger

/-- The byte count of the buffer stays the size of the records in it. -/
theorem Pipeline.Moves.bytes_eq {p p' : Pipeline} {c : Call} {ret : Ret} (hm : Moves p p' c ret)
    (h : p.bufferBytes = totalSize p.buffer) : p'.bufferBytes = totalSize p'.buffer := by
  cases hm with
  | refused _ _ heq | idle heq | quiet heq => rwa [heq]
  | queued hbuffer hbuffer' hsize =>
    rw [h, hbuffer, totalSize_append] at hsize
    rw [hbuffer', totalSize_append, totalSize_cons, totalSize_nil]
    omega
  | emptied _ _ hnil hsize =>
    rw [hnil, totalSize_nil]
    omega
  | cut _ hbuffer hsize =>
    rw [h, hbuffer, totalSize_append] at hsize
    omega
  | delivered _ hbuffer hsize | reported _ hbuffer hsize => rw [hsize, hbuffer, h]
  | returned _ _ hbuffer hsize => rw [hsize, hbuffer, totalSize_append, h, Nat.add_comm]

/-- A buffer of two bytes, and batches of one record. -/
def twoBytes : PipelineConfig := ⟨1, 1000, 2, 10, 40, 60, [], []⟩

/-- A record of two bytes. -/
def twoByteRecord (key : UInt8) : PendingRecord := ⟨"", [key], [0]⟩

/-- The pipeline and its ledger. -/
abbrev Monitored := Pipeline × Ledger

namespace Monitored

def new (cfg : PipelineConfig) (lastKnownTxId : ℕ) : Monitored :=
  (.new cfg lastKnownTxId, .empty)

def step (m : Monitored) (c : Call) : Option (Ret × Monitored) :=
  (m.1.step c).map fun (ret, p') => (ret, (p', m.2.note m.1 p' c ret))

/-- After the call, fewer than `2 ^ 32` drops have not been reported. -/
def CountFits (m : Monitored) (c : Call) : Prop :=
  ∀ r ∈ m.step c, r.2.2.unreported < 2 ^ 32
  deriving Decidable

/-- The accepted records that are still there, or delivered, with their fates. -/
def placed (m : Monitored) : List (PendingRecord × Fate) :=
  m.2.delivered.map (·, .delivered) ++ m.1.flight.map (·, .inFlight) ++
    m.1.buffer.map (·, .buffered)

/-- The books balance: the records accepted can be marked with what became of them, and every drop
    is reported or pending. -/
structure Accounted (m : Monitored) : Prop where
  /-- Each accepted record has one fate. Those delivered, in flight and buffered are in the order of
      the pushes. -/
  fates : ∃ marked : List (PendingRecord × Fate), marked.map Prod.fst = m.2.accepted ∧
    kept .evicted marked = m.placed ∧ (gone .evicted marked).Perm m.2.evicted
  drops : m.2.evicted.length + m.2.oversized = m.2.reported + m.1.droppedSinceLastOverflowLog
  bytes : m.1.bufferBytes = totalSize m.1.buffer

/-- What every call keeps. Of the fates it only matters who was evicted: the other records are
    delivered, in flight and buffered one after the other. -/
structure Balanced (m : Monitored) : Prop where
  fates : ∃ marked : List (PendingRecord × Fate), marked.map Prod.fst = m.2.accepted ∧
    (kept .evicted marked).map Prod.fst = m.2.delivered ++ m.1.flight ++ m.1.buffer ∧
    (gone .evicted marked).Perm m.2.evicted
  drops : m.2.evicted.length + m.2.oversized = m.2.reported + m.2.unreported
  pending : m.1.droppedSinceLastOverflowLog = m.2.unreported
  bytes : m.1.bufferBytes = totalSize m.1.buffer

variable {m m' : Monitored}

theorem ne_evicted_of_mem_placed {x : PendingRecord × Fate} (h : x ∈ m.placed) :
    x.2 ≠ .evicted := by
  simp only [placed, mem_append, mem_map] at h
  rcases h with (⟨_, _, rfl⟩ | ⟨_, _, rfl⟩) | ⟨_, _, rfl⟩ <;> exact Fate.noConfusion

theorem Balanced.accounted (h : Balanced m) : Accounted m where
  fates := by
    obtain ⟨marked, hfst, hkept, hgone⟩ := h.fates
    have hplaced : m.placed.map Prod.fst = m.2.delivered ++ m.1.flight ++ m.1.buffer := by
      simp [placed, Function.comp_def]
    obtain ⟨marked', hfst', hkept', hgone'⟩ :=
      exists_mark_kept (hkept.trans hplaced.symm) fun _ => ne_evicted_of_mem_placed
    exact ⟨marked', hfst'.trans hfst, hkept', hgone' ▸ hgone⟩
  drops := h.pending ▸ h.drops
  bytes := h.bytes

variable {p p' : Pipeline} {l : Ledger}

section

variable (h : Balanced (p, l))
include h

section

variable (hbytes : p'.bufferBytes = totalSize p'.buffer)
include hbytes

/-- Records are evicted from the front of the buffer, and others queued. -/
theorem Balanced.push {gone rest new : List PendingRecord} {oversized : ℕ}
    (hbuffer : p.buffer = gone ++ rest) (hbuffer' : p'.buffer = rest ++ new)
    (hflight : p'.flight = p.flight)
    (hdropped : p'.droppedSinceLastOverflowLog =
      p.droppedSinceLastOverflowLog + (gone.length + oversized)) :
    Balanced (p', { l with
      accepted := l.accepted ++ new
      evicted := l.evicted ++ gone
      oversized := l.oversized + oversized
      unreported := l.unreported + (gone.length + oversized) }) where
  fates := by
    obtain ⟨marked, hfst, hkept, hgone⟩ := h.fates
    rw [hbuffer, ← append_assoc] at hkept
    obtain ⟨marked', hfst', hkept', hgone'⟩ := exists_mark_gone hkept
    refine ⟨marked' ++ new.map (·, .buffered), ?_, ?_, ?_⟩
    · simp [hfst', hfst, Function.comp_def]
    · have hnew : kept Fate.evicted (new.map (·, Fate.buffered)) =
          new.map (·, Fate.buffered) := filter_eq_self.2 (by simp)
      rw [kept_append, map_append, hkept', hnew]
      simp [hflight, hbuffer', Function.comp_def]
    · have hnew : Marked.gone Fate.evicted (new.map (·, Fate.buffered)) = [] := by
        rw [Marked.gone, filter_eq_nil_iff.2 (by simp), map_nil]
      rw [gone_append, hnew, append_nil]
      exact hgone'.trans (hgone.append_right gone)
  drops := by
    have := h.drops
    simp only [length_append] at this ⊢
    omega
  pending := hdropped.trans (congrArg (· + (gone.length + oversized)) h.pending)
  bytes := hbytes

/-- A push evicts some records from the front of the buffer, and queues its own or not. -/
theorem Balanced.pushed {now oversized : ℕ} {r : PendingRecord} {result : Except PipelineError Bool}
    {gone rest : List PendingRecord} (hbuffer : p.buffer = gone ++ rest)
    (hbuffer' : p'.buffer = rest ++ Ledger.queued r result)
    (hoversized : (if p.Oversized r then 1 else 0) = oversized) (hflight : p'.flight = p.flight)
    (hdropped : CountsDrops p.droppedSinceLastOverflowLog (gone.length + oversized)
      p'.droppedSinceLastOverflowLog)
    (hlt : (l.note p p' (.push now r) (.pushed result)).unreported < 2 ^ 32) :
    Balanced (p', l.note p p' (.push now r) (.pushed result)) := by
  have happend : p.buffer ++ Ledger.queued r result = gone ++ p'.buffer := by
    rw [hbuffer, hbuffer', append_assoc]
  have hlen : gone.length ≤ p.buffer.length := by
    rw [hbuffer, length_append]
    exact Nat.le_add_right ..
  rw [Ledger.note_push gone happend hlen hoversized] at hlt ⊢
  refine h.push hbytes hbuffer hbuffer' hflight (hdropped ?_)
  rwa [h.pending]

/-- The records that are not evicted move on, in order. -/
theorem Balanced.move {delivered : List PendingRecord}
    (horder : delivered ++ p'.flight ++ p'.buffer = l.delivered ++ p.flight ++ p.buffer)
    (hdropped : p'.droppedSinceLastOverflowLog = p.droppedSinceLastOverflowLog) :
    Balanced (p', { l with delivered := delivered }) where
  fates := by
    obtain ⟨marked, hfst, hkept, hgone⟩ := h.fates
    exact ⟨marked, hfst, hkept.trans horder.symm, hgone⟩
  drops := h.drops
  pending := hdropped.trans h.pending
  bytes := hbytes

end

/-- The drops that were pending are reported. -/
theorem Balanced.report (hflight : p'.flight = p.flight) (hbuffer : p'.buffer = p.buffer)
    (hbytes : p'.bufferBytes = p.bufferBytes) (hdropped : p'.droppedSinceLastOverflowLog = 0) :
    Balanced (p', { l with
      reported := l.reported + p.droppedSinceLastOverflowLog
      unreported := 0 }) where
  fates := by
    obtain ⟨marked, hfst, hkept, hgone⟩ := h.fates
    refine ⟨marked, hfst, ?_, hgone⟩
    rw [hkept, hflight, hbuffer]
  drops := h.drops.trans (congrArg (l.reported + ·) h.pending.symm)
  pending := hdropped
  bytes := by rw [hbytes, hbuffer, h.bytes]

end

theorem step_eq_some {c : Call} {ret : Ret} (h : m.step c = some (ret, m')) :
    m.1.step c = some (ret, m'.1) ∧ m'.2 = m.2.note m.1 m'.1 c ret := by
  obtain ⟨_, hs, he⟩ := Option.map_eq_some_iff.1 h
  cases he
  exact ⟨hs, rfl⟩

/-- One call keeps the balance. -/
theorem Balanced.step {c : Call} {ret : Ret} (h : Balanced m) (hfits : m.CountFits c)
    (hs : m.step c = some (ret, m')) : Balanced m' := by
  have hlt := hfits _ hs
  obtain ⟨hstep, hnote⟩ := step_eq_some hs
  obtain ⟨p, l⟩ := m
  obtain ⟨p', l'⟩ := m'
  dsimp only at hstep hnote hlt
  rw [hnote] at hlt ⊢
  have hmoves := (step_moves hstep).2
  have hbytes := hmoves.bytes_eq h.bytes
  cases hmoves with
  | refused hne hover heq =>
    subst heq
    refine h.pushed hbytes (nil_append _).symm ?_ (if_neg hover) rfl (fun _ => rfl) hlt
    rw [Ledger.queued_of_ne hne, append_nil]
  | @queued _ r victims rest hbuffer hbuffer' hsize hneed hle hd hflight =>
    have hover : ¬ p.Oversized r := fun ho => absurd ho.2.2 (by omega)
    exact h.pushed hbytes hbuffer hbuffer' (if_neg hover) hflight hd hlt
  | @emptied _ r hhalt hfilter hnil hsize hlt' hd hflight =>
    rw [hnil, totalSize_nil] at hbytes
    have hover : p.Oversized r := ⟨hhalt, hfilter, by omega⟩
    refine h.pushed ?_ (append_nil _).symm hnil (if_pos hover) hflight hd hlt
    rw [hnil, hbytes, totalSize_nil]
  | idle heq | quiet heq => exact heq ▸ h
  | cut hflight hbuffer hsize hd =>
    refine h.move hbytes ?_ hd
    rw [hflight, append_nil, hbuffer, append_assoc]
  | delivered hflight' hbuffer hsize hd =>
    refine h.move hbytes ?_ hd
    rw [hflight', append_nil, hbuffer]
  | returned hreturns hflight' hbuffer hsize hd =>
    rw [Ledger.note_of_returns hreturns]
    refine h.move hbytes ?_ hd
    rw [hflight', append_nil, hbuffer, append_assoc]
  | reported hflight hbuffer hsize hd => exact h.report hflight hbuffer hsize hd

variable {cfg : PipelineConfig} {lastKnownTxId : ℕ} {t : List (Call × Ret)}

section

variable (h : ReachesBy CountFits step (Monitored.new cfg lastKnownTxId) t m)
include h

theorem reachesBy_balanced : Balanced m := by
  induction h with
  | nil => exact ⟨⟨[], rfl, rfl, .nil⟩, rfl, rfl, rfl⟩
  | cons _ hfits hs ih => exact ih.step hfits hs

/-- In such a run no call panics, as long as the records in the pipeline and the one pushed fit in a
    word together. -/
theorem reachesBy_exists_step (c : Call)
    (hfits : totalSize m.1.flight + totalSize m.1.buffer + c.size < 2 ^ 64) :
    ∃ r, m.step c = some r := by
  have hbytes := (reachesBy_balanced h).bytes
  obtain ⟨r, hr⟩ := m.1.exists_step hbytes c (hbytes ▸ hfits)
  rw [step, hr]
  exact ⟨_, rfl⟩

end

/-- One record is delivered, one evicted, and that is reported. -/
def twoByteCalls : List Call :=
  [.push 5 (twoByteRecord 1), .tick 5, .push 6 (twoByteRecord 2), .push 7 (twoByteRecord 3),
    .onSend 8 (.success 1), .maybeEmitOverflow 9]

theorem reachesBy_exists_step_tick : ∃ t m r, ReachesBy CountFits step (new twoBytes 0) t m ∧
    m.1.buffer = [twoByteRecord 3] ∧ m.step (.tick 10) = some r := by
  have hreach := ReachesBy.of_exec CountFits step (new twoBytes 0) twoByteCalls (by decide +kernel)
  obtain ⟨r, hr⟩ := reachesBy_exists_step hreach (.tick 10) (by decide +kernel)
  exact ⟨_, _, r, hreach, by decide +kernel, hr⟩

/-- The books of the pipeline balance in every run in which fewer than `2 ^ 32` records are dropped
    between two reports. -/
theorem reachesBy_accounted
    (h : ReachesBy CountFits step (Monitored.new cfg lastKnownTxId) t m) : Accounted m :=
  (reachesBy_balanced h).accounted

theorem reachesBy_accounted_twoBytes : ∃ t m, ReachesBy CountFits step (new twoBytes 0) t m ∧
    m.2 = ⟨[twoByteRecord 1, twoByteRecord 2, twoByteRecord 3], [twoByteRecord 1],
      [twoByteRecord 2], 0, 1, 0⟩ ∧ Accounted m := by
  have hreach := ReachesBy.of_exec CountFits step (new twoBytes 0) twoByteCalls (by decide +kernel)
  exact ⟨_, _, hreach, by decide +kernel, reachesBy_accounted hreach⟩

end Monitored

/-! ## Pushes that are refused, and the limit of the buffer -/

namespace Pipeline

variable {p p' : Pipeline} {cfg : PipelineConfig} {lastKnownTxId : ℕ} {t : List (Call × Ret)}

theorem reaches_bufferBytes (h : Reaches step (new cfg lastKnownTxId) t p) :
    p.bufferBytes = totalSize p.buffer := by
  induction h with
  | nil => rfl
  | cons _ hs ih => exact (step_moves hs).2.bytes_eq ih

/-- A push that does not accept its record keeps the buffer, unless the record is larger than the
    limit: the records that wait are evicted for it before that is found out. -/
theorem refused_push_keeps_buffer_iff (h : Reaches step (new cfg lastKnownTxId) t p) (now : ℕ)
    (r : PendingRecord) {result : Except PipelineError Bool}
    (hs : p.push now r = some (result, p')) :
    (result ≠ .ok true → p'.buffer = p.buffer) ↔ ¬ p.Oversized r ∨ p.buffer = [] := by
  cases (push_moves hs).2 with
  | refused _ hover heq => exact iff_of_true (fun _ => by rw [heq]) (.inl hover)
  | queued _ _ _ hfits hle =>
    exact iff_of_true (absurd rfl) (.inl fun ho => absurd ho.2.2 (by omega))
  | emptied hhalt hfilter hnil hsize hlt =>
    -- In a reachable state nothing is counted once all records are evicted.
    have hbytes := reaches_bufferBytes h
    have hover : p.Oversized r := ⟨hhalt, hfilter, by omega⟩
    rw [hnil]
    exact ⟨fun hkeep => .inr (hkeep nofun).symm, fun hor _ => (hor.resolve_left (· hover)).symm⟩

/-- The pipeline has halted, and the record that waits stays. -/
theorem refused_push_keeps_buffer_halted : ∃ t p p', Reaches step (new twoBytes 0) t p ∧
    p.push 6 (twoByteRecord 2) = some (.error (.halted .proofFailure), p') ∧
    p.buffer = [twoByteRecord 1] ∧ p'.buffer = p.buffer := by
  have hreach := Reaches.of_exec step (new twoBytes 0)
    [.push 5 (twoByteRecord 1), .onSend 5 (.halt .proofFailure)] (by decide +kernel)
  exact ⟨_, _, _, hreach, rfl, by decide +kernel,
    (refused_push_keeps_buffer_iff hreach 6 (twoByteRecord 2) rfl).2 (.inl (by decide +kernel))
      nofun⟩

/-- A record of three bytes empties the buffer of two, and is not queued either. -/
theorem buffer_emptied_by_oversized : ∃ t p p', Reaches step (new twoBytes 0) t p ∧
    p.push 6 ⟨"", [1], [2, 3]⟩ = some (.ok false, p') ∧
    p.buffer = [twoByteRecord 1] ∧ p'.buffer = [] :=
  ⟨_, _, _, .of_exec step (new twoBytes 0) [.push 5 (twoByteRecord 1)] (by decide +kernel), rfl,
    by decide +kernel, by decide +kernel⟩

/-- If the call puts the batch in flight back, there is room for it. -/
def ReturnFits (p : Pipeline) (c : Call) : Prop :=
  c.Returns → p.bufferBytes + totalSize p.flight ≤ p.cfg.bufferBytes
  deriving Decidable

/-- One call keeps the limit. -/
theorem step_bufferBytes_le {c : Call} {ret : Ret} (h : p.bufferBytes ≤ p.cfg.bufferBytes)
    (hfits : p.ReturnFits c) (hs : p.step c = some (ret, p')) :
    p'.bufferBytes ≤ p.cfg.bufferBytes := by
  cases (step_moves hs).2 with
  | refused _ _ heq => rwa [heq]
  | queued _ _ _ _ hle => exact hle
  | emptied _ _ _ hsize | cut _ _ hsize => exact (Nat.le_of_add_left_le hsize.le).trans h
  | idle heq => rwa [heq]
  | delivered _ _ hsize => rwa [hsize]
  | returned hreturns _ _ hsize => exact hsize ▸ hfits hreturns
  | quiet heq => rwa [heq]
  | reported _ _ hsize => rwa [hsize]

/-- The buffer stays within its limit in every run in which there is room for the batches that come
    back. -/
theorem reachesBy_bufferBytes_le (h : ReachesBy ReturnFits step (new cfg lastKnownTxId) t p) :
    p.bufferBytes ≤ cfg.bufferBytes := by
  suffices hb : p.cfg = cfg ∧ p.bufferBytes ≤ p.cfg.bufferBytes from hb.1 ▸ hb.2
  induction h with
  | nil => exact ⟨rfl, Nat.zero_le _⟩
  | cons _ hfits hs ih =>
    have hcfg := (step_moves hs).1
    exact ⟨hcfg.trans ih.1, hcfg ▸ step_bufferBytes_le ih.2 hfits hs⟩

/-- A batch comes back to a buffer with room for it. -/
theorem reachesBy_bufferBytes_le_retry : ∃ t p,
    ReachesBy ReturnFits step (new twoBytes 0) t p ∧
      p.buffer = [twoByteRecord 1] ∧ p.bufferBytes ≤ twoBytes.bufferBytes := by
  have hreach := ReachesBy.of_exec ReturnFits step (new twoBytes 0)
    [.push 5 (twoByteRecord 1), .tick 5, .onSend 8 (.retry 14)] (by decide +kernel)
  exact ⟨_, _, hreach, by decide +kernel, reachesBy_bufferBytes_le hreach⟩

/-- A batch comes back to a buffer that has been filled again: the limit is exceeded. -/
theorem bufferBytes_gt_of_retry : ¬ ∀ cfg lastKnownTxId t p,
    Reaches step (new cfg lastKnownTxId) t p → p.bufferBytes ≤ cfg.bufferBytes := by
  intro h
  have hle := h _ _ _ _ (Reaches.of_exec step (new twoBytes 0) [.push 5 (twoByteRecord 1), .tick 5,
    .push 6 (twoByteRecord 2), .onSend 8 (.retry 14)] (by decide +kernel))
  exact absurd hle (by decide +kernel)

end Pipeline

end SmallAIOS.AuditExport

import SmallAIOS.Bus.Dds.Reliable
import SmallAIOS.Lib.Run
import Mathlib.Data.List.Perm.Subperm

/-!
# Reliable delivery over a lossy channel

A writer and a reader over a channel that may drop, duplicate and reorder what is sent: messages
that were sent stay in the channel, and any of them may arrive at any time, again and again or
never. The writer numbers its samples from `1` on, never has more than `maxWriterCache` of them
unacknowledged, and handles an acknack by dropping what it acknowledges and by sending again what
it lists as missing.

Reliability is a joint invariant (`Inv`): every sample is in the cache or was received, the reader
knows what it has received, and every message in the channel tells the truth about it. It is kept
by every step but one: an acknack with a hole that has not been filled since, for which the writer
drops a sample that the reader asks for (`System.Careful` fails). In the runs without such a step
no sample leaves the cache before it was received, and the receipt of every sample is reported
exactly once (`reliable_of_careful`).
-/

namespace SmallAIOS.Bus.Dds

open Lib List Set SortedSet

/-! ## The system -/

/-- A message to the reader. -/
inductive Message
  | sample (seq : ℕ) (data : List UInt8)
  | heartbeat (bytes : List UInt8)
  deriving DecidableEq

/-- A writer, a reader, and what has been sent to the reader and to the writer. -/
structure System where
  writer : WriterHeartbeat
  reader : ReaderAckNack
  toReader : List Message
  toWriter : List (List UInt8)
  deriving DecidableEq

inductive Call
  /-- The writer adds a sample and sends it. -/
  | write (data : List UInt8)
  /-- The writer sends a heartbeat, encoded in a buffer. -/
  | heartbeat (buf : List UInt8)
  /-- The reader sends an acknack, encoded in a buffer. -/
  | acknack (buf : List UInt8)
  /-- A sample arrives at the reader. -/
  | sample (seq : ℕ) (data : List UInt8)
  /-- A heartbeat arrives at the reader. -/
  | heartbeatArrives (bytes : List UInt8)
  /-- An acknack arrives at the writer. -/
  | acknackArrives (bytes : List UInt8)
  deriving DecidableEq

namespace System

def new (writerId readerId : EntityId) : System := ⟨.new writerId, .new readerId, [], []⟩

/-- The samples that an acknack asks for, as far as the writer has them. -/
def retransmitted (w : WriterHeartbeat) (missing : List ℕ) : List Message :=
  missing.filterMap fun seq => (w.getSample seq).map (.sample seq)

/-- A call, and what `receiveSample` returns if a sample arrives. -/
def step (s : System) : Call → Option (Option Bool × System)
  | .write data =>
    (Word.add 64 s.writer.lastSn 1).map fun seq =>
      (none, { s with
        writer := s.writer.addSample seq data, toReader := .sample seq data :: s.toReader })
  | .heartbeat buf =>
    let (r, writer) := s.writer.encodeHeartbeat buf
    match r with
    | .error _ => some (none, { s with writer })
    | .ok (n, out) =>
      some (none, { s with writer, toReader := .heartbeat (out.take n) :: s.toReader })
  | .acknack buf =>
    let (r, reader) := s.reader.encodeAcknack s.writer.entityId buf
    match r with
    | .error _ => some (none, { s with reader })
    | .ok (n, out) => some (none, { s with reader, toWriter := out.take n :: s.toWriter })
  | .sample seq _ =>
    (s.reader.receiveSample seq).map fun r => (some r.1, { s with reader := r.2 })
  | .heartbeatArrives bytes =>
    match decodeHeartbeat bytes with
    | .error _ => some (none, s)
    | .ok hb => some (none, { s with reader := (s.reader.processHeartbeat hb).2 })
  | .acknackArrives bytes =>
    match decodeAcknack bytes with
    | .error _ => some (none, s)
    | .ok a =>
      let writer := s.writer.acknowledgeUpTo a.ackSn
      some (none, { s with
        writer, toReader := retransmitted writer a.missing ++ s.toReader })

/-- Samples are added while less than `maxWriterCache` are unacknowledged, and only what was sent
    arrives. -/
def Allowed (s : System) : Call → Prop
  | .write _ => s.writer.cache.length < maxWriterCache
  | .heartbeat _ => True
  | .acknack _ => True
  | .sample seq data => .sample seq data ∈ s.toReader
  | .heartbeatArrives bytes => .heartbeat bytes ∈ s.toReader
  | .acknackArrives bytes => bytes ∈ s.toWriter

instance (s : System) : ∀ call, Decidable (Allowed s call)
  | .write _ => inferInstanceAs (Decidable (_ < _))
  | .heartbeat _ | .acknack _ => inferInstanceAs (Decidable True)
  | .sample _ _ | .heartbeatArrives _ | .acknackArrives _ => inferInstanceAs (Decidable (_ ∈ _))

/-- The reader has received the sample. -/
def Has (r : ReaderAckNack) (seq : ℕ) : Prop := seq ≤ r.ackSn ∧ seq ∉ r.missing
  deriving Decidable

/-- The sequence numbers stay words, also where the next one is computed, and the holes of an
    acknack that arrives, below the number it acknowledges, have been filled. -/
def Careful (s : System) : Call → Prop
  | .write _ => s.writer.lastSn + 2 < 2 ^ 64
  | .acknackArrives bytes =>
    match decodeAcknack bytes with
    | .error _ => True
    | .ok a => ∀ seq ∈ a.missing, seq < a.ackSn → Has s.reader seq
  | _ => True

instance (s : System) : ∀ call, Decidable (Careful s call)
  | .write _ => inferInstanceAs (Decidable (_ < _))
  | .acknackArrives bytes =>
    match h : decodeAcknack bytes with
    | .error _ => .isTrue (by rw [Careful, h]; trivial)
    | .ok a => decidable_of_iff (∀ seq ∈ a.missing, seq < a.ackSn → Has s.reader seq)
      (by rw [Careful, h])
  | .heartbeat _ => inferInstanceAs (Decidable True)
  | .acknack _ => inferInstanceAs (Decidable True)
  | .sample _ _ => inferInstanceAs (Decidable True)
  | .heartbeatArrives _ => inferInstanceAs (Decidable True)

end System

open Dds.System

/-! ## What has been received -/

/-- The calls made, the last one first, and what they returned. -/
abbrev Trace := List (Call × Option Bool)

/-- The sample is the one that arrives. -/
def isArrival (seq : ℕ) : Call → Bool
  | .sample seq' _ => seq' = seq
  | _ => false

/-- The samples that have arrived at the reader. -/
def received (t : Trace) : Set ℕ := {seq | ∃ x ∈ t, isArrival seq x.1 = true}

/-- How often the arrival of a sample was reported as new. -/
def timesNew (t : Trace) (seq : ℕ) : ℕ := t.countP fun x => isArrival seq x.1 && x.2 = some true

/-! ## The writer -/

variable {R R' : Set ℕ} {last seq last' : ℕ} {a : AckNackData} (id : EntityId) {call : Call}

/-- The samples from `1` to `lastSn` are in the cache, which is in order, or have been received. -/
structure WriterOk (R : Set ℕ) (w : WriterHeartbeat) : Prop where
  lastSn_lt : w.lastSn + 1 < 2 ^ 64
  firstSn_le : w.firstSn ≤ w.lastSn + 1
  length_le : w.cache.length ≤ maxWriterCache
  sorted : w.cache.Pairwise fun x y => x.1 < y.1
  bounds : ∀ x ∈ w.cache, 1 ≤ x.1 ∧ w.firstSn ≤ x.1 ∧ x.1 ≤ w.lastSn
  kept : ∀ seq, 1 ≤ seq → seq ≤ w.lastSn → (∃ x ∈ w.cache, x.1 = seq) ∨ seq ∈ R

namespace WriterOk

variable {w : WriterHeartbeat}

theorem new : WriterOk R (.new id) where
  lastSn_lt := by
    dsimp only [WriterHeartbeat.new]
    decide
  firstSn_le := le_rfl
  length_le := Nat.zero_le _
  sorted := .nil
  bounds x hx := by cases hx
  kept seq h1 h0 := absurd (h1.trans h0) (Nat.not_succ_le_zero 0)

section

variable (h : WriterOk R w)
include h

theorem mono (hR : R ⊆ R') : WriterOk R' w where
  __ := h
  kept seq h1 hle := (h.kept seq h1 hle).imp_right (@hR seq)

/-- What is before the first number in the cache was received. -/
theorem received_of_lt (h1 : 1 ≤ seq) (hlt : seq < w.firstSn) : seq ∈ R := by
  have := h.firstSn_le
  rcases h.kept seq h1 (by omega) with ⟨x, hx, rfl⟩ | hR
  · exact absurd (h.bounds x hx).2.1 (not_le.2 hlt)
  · exact hR

theorem addSample (hlen : w.cache.length < maxWriterCache) (hseq : w.lastSn + 2 < 2 ^ 64)
    (data : List UInt8) : WriterOk R (w.addSample (w.lastSn + 1) data) := by
  have hlen' : (w.cache ++ [(w.lastSn + 1, data)]).length ≤ maxWriterCache := by
    rw [length_append]
    exact hlen
  rw [WriterHeartbeat.addSample, if_neg (not_lt.2 hlen')]
  refine ⟨hseq, h.firstSn_le.trans (Nat.le_succ _), hlen', ?_, ?_, ?_⟩
  · refine pairwise_append.2 ⟨h.sorted, pairwise_singleton .., fun x hx y hy => ?_⟩
    rw [mem_singleton.1 hy]
    exact Nat.lt_succ_of_le (h.bounds x hx).2.2
  · intro x hx
    rcases mem_append.1 hx with hx | hx
    · have := h.bounds x hx
      exact ⟨this.1, this.2.1, this.2.2.trans (Nat.le_succ _)⟩
    · rw [mem_singleton.1 hx]
      exact ⟨Nat.le_add_left .., h.firstSn_le, le_rfl⟩
  · intro seq h1 hle
    rcases Nat.le_succ_iff.1 hle with hle | rfl
    · rcases h.kept seq h1 hle with ⟨x, hx, rfl⟩ | hR
      · exact .inl ⟨x, mem_append_left _ hx, rfl⟩
      · exact .inr hR
    · exact .inl ⟨_, mem_append_right _ (mem_singleton_self _), rfl⟩

/-- An acknowledgement of samples that were received. -/
theorem acknowledgeUpTo {ackSn : ℕ} (hack : ackSn ≤ w.lastSn)
    (hR : ∀ seq, 1 ≤ seq → seq < ackSn → seq ∈ R) : WriterOk R (w.acknowledgeUpTo ackSn) := by
  have hsub : ∀ x ∈ w.cache.filter (fun x => decide (ackSn ≤ x.1)), x ∈ w.cache ∧ ackSn ≤ x.1 :=
    fun x hx => ⟨(mem_filter.1 hx).1, of_decide_eq_true (mem_filter.1 hx).2⟩
  have hkept : ∀ seq, 1 ≤ seq → seq ≤ w.lastSn →
      (∃ x ∈ w.cache.filter (fun x => decide (ackSn ≤ x.1)), x.1 = seq) ∨ seq ∈ R := by
    intro seq h1 hle
    rcases h.kept seq h1 hle with ⟨x, hx, rfl⟩ | hmem
    · by_cases hge : ackSn ≤ x.1
      · exact .inl ⟨x, mem_filter.2 ⟨hx, decide_eq_true hge⟩, rfl⟩
      · exact .inr (hR x.1 h1 (not_le.1 hge))
    · exact .inr hmem
  have hlen := (length_filter_le (fun x : ℕ × List UInt8 => decide (ackSn ≤ x.1))
    w.cache).trans h.length_le
  have hsorted := h.sorted.filter (fun x => decide (ackSn ≤ x.1))
  rw [WriterHeartbeat.acknowledgeUpTo]
  generalize w.cache.filter (fun x => decide (ackSn ≤ x.1)) = cache at hsub hkept hlen hsorted ⊢
  -- The first number is that of the first sample left, or the one acknowledged.
  cases cache with
  | nil =>
    refine ⟨h.lastSn_lt, hack.trans (Nat.le_succ _), hlen, hsorted, fun x hx => ?_, hkept⟩
    cases hx
  | cons y ys =>
    have hy := h.bounds y (hsub y mem_cons_self).1
    refine ⟨h.lastSn_lt, hy.2.2.trans (Nat.le_succ _), hlen, hsorted, fun x hx => ?_, hkept⟩
    have hx' := h.bounds x (hsub x hx).1
    refine ⟨hx'.1, ?_, hx'.2.2⟩
    rcases mem_cons.1 hx with rfl | hx
    · exact le_rfl
    · exact (rel_of_pairwise_cons hsorted hx).le

end

end WriterOk

/-! ## What messages say -/

/-- What a heartbeat says: the writer has not numbered fewer samples, and what it no longer has was
    received. -/
structure HeartbeatOk (R : Set ℕ) (last : ℕ) (hb : HeartbeatData) : Prop where
  lastSn_le : hb.lastSn ≤ last
  received : ∀ seq, 1 ≤ seq → seq < hb.firstSn → seq ∈ R

/-- What an acknack says: what it acknowledges and does not list as missing was received. -/
structure AcknackOk (R : Set ℕ) (last : ℕ) (a : AckNackData) : Prop where
  ackSn_le : a.ackSn ≤ last
  received : ∀ seq, 1 ≤ seq → seq ≤ a.ackSn → seq ∉ a.missing → seq ∈ R

/-- A message to the reader tells the truth. -/
def Message.Ok (R : Set ℕ) (last : ℕ) : Message → Prop
  | .sample seq _ => 1 ≤ seq ∧ seq ≤ last
  | .heartbeat bytes => ∃ hb, decodeHeartbeat bytes = .ok hb ∧ HeartbeatOk R last hb

/-- What was true stays true, since nothing that was received is taken back. -/
theorem Message.Ok.mono {m : Message} (h : m.Ok R last) (hR : R ⊆ R') (hle : last ≤ last') :
    m.Ok R' last' := by
  cases m with
  | sample seq data => exact ⟨h.1, h.2.trans hle⟩
  | heartbeat bytes =>
    obtain ⟨hb, hdec, hok⟩ := h
    refine ⟨hb, hdec, hok.lastSn_le.trans hle, fun seq h1 hlt => ?_⟩
    exact hR (hok.received seq h1 hlt)

theorem AcknackOk.mono (h : AcknackOk R last a) (hR : R ⊆ R') (hle : last ≤ last') :
    AcknackOk R' last' a where
  ackSn_le := h.ackSn_le.trans hle
  received seq h1 hack hmiss := hR (h.received seq h1 hack hmiss)

/-! ## The reader -/

/-- The reader knows what it has received of the samples up to `last`. -/
structure ReaderOk (R : Set ℕ) (last : ℕ) (r : ReaderAckNack) : Prop where
  ackSn_le : r.ackSn ≤ last
  missing_le : ∀ seq ∈ r.missing, 1 ≤ seq ∧ seq ≤ last
  mem_iff : ∀ seq, 1 ≤ seq → (seq ∈ R ↔ Has r seq)

namespace ReaderOk

variable {r : ReaderAckNack}

theorem new : ReaderOk ∅ last (.new id) where
  ackSn_le := Nat.zero_le _
  missing_le seq hseq := absurd hseq not_mem_empty
  mem_iff seq h1 := by
    refine ⟨fun h => absurd h (notMem_empty _), fun h => ?_⟩
    exact absurd (h1.trans h.1) (Nat.not_succ_le_zero 0)

theorem mono (h : ReaderOk R last r) (hle : last ≤ last') : ReaderOk R last' r where
  ackSn_le := h.ackSn_le.trans hle
  missing_le seq hseq := ⟨(h.missing_le seq hseq).1, (h.missing_le seq hseq).2.trans hle⟩
  mem_iff := h.mem_iff

/-- What `receiveSample` does with a sample: it is known, it fills a hole, or it is the next one or
    a later one and those in between are missing from now on. -/
theorem receiveSample_cases (h : ReaderOk R last r) (hle : seq ≤ last) (hlast : last + 1 < 2 ^ 64) :
    Has r seq ∧ r.receiveSample seq = some (false, r) ∨
    ¬ Has r seq ∧ ∃ r', r.receiveSample seq = some (true, r') ∧ r'.ackSn = max r.ackSn seq ∧
      ∀ n, n ∈ r'.missing ↔ (r.ackSn < n ∧ n < seq) ∨ (n ∈ r.missing ∧ n ≠ seq) := by
  rw [ReaderAckNack.receiveSample]
  by_cases hhas : Has r seq
  · exact .inl ⟨hhas, if_pos hhas⟩
  have hack := h.ackSn_le
  refine .inr ⟨hhas, ?_⟩
  rw [Has] at hhas
  rw [if_neg hhas]
  rw [Word.add_eq_some.2 ⟨by omega, rfl⟩, Option.bind_some]
  split
  · next heq =>
    rw [Word.add_eq_some.2 ⟨by omega, rfl⟩]
    have hempty : ∀ n, ¬ (r.ackSn < n ∧ n < seq) := fun n => by omega
    refine ⟨_, rfl, by dsimp only; omega, fun n => ?_⟩
    rw [mem_erase, or_iff_right (hempty n)]
  · split
    · have hrange : ∀ n, (r.ackSn + 1 ≤ n ∧ n < r.ackSn + 1 + (seq - (r.ackSn + 1))) ↔
          (r.ackSn < n ∧ n < seq) := fun n => by omega
      refine ⟨_, rfl, by dsimp only; omega, fun n => ?_⟩
      rw [mem_insertAll, mem_erase, mem_range'_1, hrange]
    · have hempty : ∀ n, ¬ (r.ackSn < n ∧ n < seq) := fun n => by omega
      refine ⟨_, rfl, by dsimp only; omega, fun n => ?_⟩
      rw [mem_erase, or_iff_right (hempty n)]

/-- A sample is reported as new if it was not received before, and is received now. -/
theorem receiveSample (h : ReaderOk R last r) (h1 : 1 ≤ seq) (hle : seq ≤ last)
    (hlast : last + 1 < 2 ^ 64) :
    ∃ b r', r.receiveSample seq = some (b, r') ∧ (b = true ↔ seq ∉ R) ∧
      ReaderOk (insert seq R) last r' := by
  rcases h.receiveSample_cases hle hlast with ⟨hhas, hr⟩ | ⟨hhas, r', hr, hack, hmiss⟩
  · have hmem := (h.mem_iff seq h1).2 hhas
    refine ⟨false, r, hr, by simp [hmem], ?_⟩
    rwa [insert_eq_of_mem hmem]
  · have hnot : seq ∉ R := fun hmem => hhas ((h.mem_iff seq h1).1 hmem)
    refine ⟨true, r', hr, by simp [hnot], ?_, fun n hn => ?_, fun n hn => ?_⟩
    · rw [hack]
      exact max_le h.ackSn_le hle
    · rcases (hmiss n).1 hn with hn | hn
      · omega
      · exact h.missing_le n hn.1
    · rw [mem_insert_iff, h.mem_iff n hn, Has, Has, hack, hmiss]
      -- The number is the one that arrives, below both, between them, or above both.
      rcases eq_or_ne n seq with rfl | hne
      · simp
      · by_cases hmem : n ∈ r.missing
        · simp [hmem, hne]
        · simp only [hmem, hne, false_and, or_false, false_or, not_false_eq_true, and_true]
          omega

variable {hb : HeartbeatData}

/-- A heartbeat makes samples missing that the reader has not seen, and drops only samples that the
    writer no longer has. -/
theorem mem_missing_processHeartbeat {n : ℕ} :
    (n ∈ (r.processHeartbeat hb).2.missing → n ∈ r.missing ∨ (r.ackSn < n ∧ n ≤ hb.lastSn)) ∧
    (n ∈ r.missing → n ∈ (r.processHeartbeat hb).2.missing ∨ n < hb.firstSn) := by
  rw [ReaderAckNack.processHeartbeat]
  split
  · exact ⟨.inl, .inl⟩
  simp only [SortedSet.mem_filter, decide_eq_true_eq]
  split
  · simp only [SortedSet.mem_insertAll, mem_range'_1]
    refine ⟨?_, fun hmem => ?_⟩
    · rintro ⟨hrange | hmem, -⟩
      · exact .inr (by omega)
      · exact .inl hmem
    · rcases le_or_gt hb.firstSn n with hle | hlt
      · exact .inl ⟨.inr hmem, hle⟩
      · exact .inr hlt
  · refine ⟨fun hmem => .inl hmem.1, fun hmem => ?_⟩
    rcases le_or_gt hb.firstSn n with hle | hlt
    · exact .inl ⟨hmem, hle⟩
    · exact .inr hlt

theorem ackSn_processHeartbeat (hb : HeartbeatData) :
    (r.processHeartbeat hb).2.ackSn = r.ackSn := by
  rw [ReaderAckNack.processHeartbeat]
  split
  · rfl
  · rfl

/-- A heartbeat does not change what the reader has. -/
theorem processHeartbeat (h : ReaderOk R last r)
    (hhb : HeartbeatOk R last hb) : ReaderOk R last (r.processHeartbeat hb).2 := by
  refine ⟨?_, fun n hn => ?_, fun n h1 => ?_⟩
  · rw [ackSn_processHeartbeat]
    exact h.ackSn_le
  · rcases mem_missing_processHeartbeat.1 hn with hn | hn
    · exact h.missing_le n hn
    · have := hhb.lastSn_le
      omega
  · rw [h.mem_iff n h1, Has, Has, ackSn_processHeartbeat]
    refine and_congr_right fun hack => not_congr ⟨fun hn => ?_, fun hn => ?_⟩
    · rcases mem_missing_processHeartbeat.2 hn with hn' | hlt
      · exact hn'
      -- What the writer no longer has was received, and is not missing.
      · exact absurd hn ((h.mem_iff n h1).1 (hhb.received n h1 hlt)).2
    · rcases mem_missing_processHeartbeat.1 hn with hn' | hlt
      · exact hn'
      · exact absurd hack (not_le.2 hlt.1)

end ReaderOk

/-! ## The joint invariant -/

/-- What the writer, the reader and the messages have to do with the samples received. -/
structure Inv (R : Set ℕ) (s : System) : Prop where
  writer : WriterOk R s.writer
  reader : ReaderOk R s.writer.lastSn s.reader
  toReader : ∀ m ∈ s.toReader, m.Ok R s.writer.lastSn
  toWriter : ∀ bytes ∈ s.toWriter, ∃ a, decodeAcknack bytes = .ok a ∧ AcknackOk R s.writer.lastSn a

namespace Inv

variable {s : System}

theorem new (writerId readerId : EntityId) : Inv ∅ (.new writerId readerId) where
  writer := .new writerId
  reader := .new readerId
  toReader m hm := by cases hm
  toWriter bytes hbytes := by cases hbytes

section

variable (h : Inv R s) (c : ℕ)
include h

/-- What is missing was not received, so it is in the cache. -/
theorem size_missing_le : s.reader.missing.size ≤ maxWriterCache := by
  have hsub : s.reader.missing.toList ⊆ s.writer.cache.map Prod.fst := by
    intro seq hseq
    obtain ⟨h1, hle⟩ := h.reader.missing_le seq hseq
    rcases h.writer.kept seq h1 hle with ⟨x, hx, rfl⟩ | hR
    · exact mem_map_of_mem hx
    · exact absurd hseq ((h.reader.mem_iff seq h1).1 hR).2
  have hlen := (subperm_of_subset (s.reader.missing.sorted.imp ne_of_lt) hsub).length_le
  rw [length_map] at hlen
  exact hlen.trans h.writer.length_le

/-- A new sample. -/
theorem write (hlen : s.writer.cache.length < maxWriterCache)
    (hseq : s.writer.lastSn + 2 < 2 ^ 64) (data : List UInt8) :
    Inv R { s with
      writer := s.writer.addSample (s.writer.lastSn + 1) data
      toReader := .sample (s.writer.lastSn + 1) data :: s.toReader } := by
  have hw := h.writer.addSample hlen hseq data
  have hlast : (s.writer.addSample (s.writer.lastSn + 1) data).lastSn = s.writer.lastSn + 1 := by
    rw [WriterHeartbeat.addSample]
    split
    · rfl
    · rfl
  have hle : s.writer.lastSn ≤ s.writer.lastSn + 1 := Nat.le_succ _
  rw [← hlast] at hle
  refine ⟨hw, h.reader.mono hle, fun m hm => ?_, fun bytes hbytes => ?_⟩
  · rcases mem_cons.1 hm with rfl | hm
    · exact ⟨Nat.le_add_left .., hlast.ge⟩
    · exact (h.toReader m hm).mono subset_rfl hle
  · obtain ⟨a, hdec, ha⟩ := h.toWriter bytes hbytes
    exact ⟨a, hdec, ha.mono subset_rfl hle⟩

/-- Counting the heartbeats changes nothing. -/
theorem countHeartbeat : Inv R { s with writer := { s.writer with heartbeatCount := c } } where
  writer := ⟨h.writer.lastSn_lt, h.writer.firstSn_le, h.writer.length_le, h.writer.sorted,
    h.writer.bounds, h.writer.kept⟩
  reader := h.reader
  toReader := h.toReader
  toWriter := h.toWriter

/-- Counting the acknacks changes nothing. -/
theorem countAcknack : Inv R { s with reader := { s.reader with acknackCount := c } } where
  writer := h.writer
  reader := ⟨h.reader.ackSn_le, h.reader.missing_le, h.reader.mem_iff⟩
  toReader := h.toReader
  toWriter := h.toWriter

/-- A message to the reader. -/
theorem send {ms : List Message} (hms : ∀ m ∈ ms, m.Ok R s.writer.lastSn) :
    Inv R { s with toReader := ms ++ s.toReader } where
  __ := h
  toReader m hm := (mem_append.1 hm).elim (hms m) (h.toReader m)

/-- A sample arrives. -/
theorem sample {data : List UInt8} (hmem : .sample seq data ∈ s.toReader) :
    ∃ b r, s.reader.receiveSample seq = some (b, r) ∧ (b = true ↔ seq ∉ R) ∧
      Inv (insert seq R) { s with reader := r } := by
  obtain ⟨h1, hle⟩ := h.toReader _ hmem
  obtain ⟨b, r, hr, hb, hreader⟩ := h.reader.receiveSample h1 hle h.writer.lastSn_lt
  have hsub := subset_insert seq R
  refine ⟨b, r, hr, hb, h.writer.mono hsub, hreader, fun m hm => ?_, fun bytes hbytes => ?_⟩
  · exact (h.toReader m hm).mono hsub le_rfl
  · obtain ⟨a, hdec, ha⟩ := h.toWriter bytes hbytes
    exact ⟨a, hdec, ha.mono hsub le_rfl⟩

end

/-- What is sent again are samples of the cache. -/
theorem retransmitted_ok {w : WriterHeartbeat} (h : WriterOk R w) (missing : List ℕ) :
    ∀ m ∈ retransmitted w missing, m.Ok R w.lastSn := by
  intro m hm
  obtain ⟨seq, -, hm⟩ := mem_filterMap.1 hm
  obtain ⟨data, hdata, rfl⟩ := Option.map_eq_some_iff.1 hm
  obtain ⟨x, hx, -⟩ := Option.map_eq_some_iff.1 hdata
  have hfound := find?_some hx
  have hseq : x.1 = seq := of_decide_eq_true hfound
  have hbounds := h.bounds x (mem_of_find?_eq_some hx)
  rw [hseq] at hbounds
  exact ⟨hbounds.1, hbounds.2.2⟩

/-- An acknack whose holes have been filled arrives. -/
theorem acknackArrives (h : Inv R s) (ha : AcknackOk R s.writer.lastSn a)
    (hfilled : ∀ seq ∈ a.missing, seq < a.ackSn → Has s.reader seq) :
    Inv R { s with
      writer := s.writer.acknowledgeUpTo a.ackSn
      toReader := retransmitted (s.writer.acknowledgeUpTo a.ackSn) a.missing ++ s.toReader } := by
  have hw := h.writer.acknowledgeUpTo ha.ackSn_le fun seq h1 hlt => ?_
  · have hinv : Inv R { s with writer := s.writer.acknowledgeUpTo a.ackSn } :=
      ⟨hw, h.reader, h.toReader, h.toWriter⟩
    exact hinv.send (retransmitted_ok hw a.missing)
  · by_cases hmiss : seq ∈ a.missing
    · exact (h.reader.mem_iff seq h1).2 (hfilled seq hmiss hlt)
    · exact ha.received seq h1 hlt.le hmiss

end Inv

/-! ## Runs -/

/-- What has been received after a call. -/
def arrived (call : Call) (R : Set ℕ) : Set ℕ := {seq | isArrival seq call = true ∨ seq ∈ R}

theorem arrived_sample (seq : ℕ) (data : List UInt8) :
    arrived (.sample seq data) R = insert seq R := by
  ext n
  rw [arrived, mem_ofPred_eq, isArrival, decide_eq_true_eq, mem_insert_iff, eq_comm]

/-- A call that is not the arrival of a sample adds nothing. -/
theorem arrived_eq (h : ∀ seq, isArrival seq call = false) : arrived call R = R := by
  ext n
  simp only [arrived, h, Bool.false_eq_true, false_or, mem_ofPred_eq]

/-- Every call returns and keeps the invariant, and the arrival of a sample is reported as new if it
    is the first one. -/
theorem Inv.step {s : System} (h : Inv R s) (hok : Allowed s call) (hcareful : Careful s call) :
    ∃ b s', s.step call = some (b, s') ∧ Inv (arrived call R) s' ∧
      ∀ seq, isArrival seq call = true → (b = some true ↔ seq ∉ R) := by
  cases call with
  | write data =>
    rw [arrived_eq fun _ => rfl]
    refine ⟨none, _, ?_, h.write hok hcareful data, by rintro _ ⟨⟩⟩
    rw [System.step, Word.add_eq_some.2 ⟨h.writer.lastSn_lt, rfl⟩]
    rfl
  | heartbeat buf =>
    rw [arrived_eq fun _ => rfl, System.step]
    obtain ⟨c, hc⟩ := encodeHeartbeat_snd s.writer buf
    have hfirst := h.writer.firstSn_le
    have hlast := h.writer.lastSn_lt
    rcases henc : s.writer.encodeHeartbeat buf with ⟨_ | ⟨n, out⟩, w⟩
    · refine ⟨_, _, rfl, ?_, by rintro _ ⟨⟩⟩
      rw [henc] at hc
      subst hc
      exact h.countHeartbeat c
    · obtain ⟨hb, hdec, hf, hl⟩ := decodeHeartbeat_encodeHeartbeat henc (by omega) (by omega)
      refine ⟨_, _, rfl, ?_, by rintro _ ⟨⟩⟩
      rw [henc] at hc
      subst hc
      have hsent : ∀ m ∈ [Message.heartbeat (out.take n)], m.Ok R s.writer.lastSn := by
        intro m hm
        rw [mem_singleton.1 hm]
        exact ⟨hb, hdec, hl.le, fun _ h1 hlt => h.writer.received_of_lt h1 (hf ▸ hlt)⟩
      exact (h.countHeartbeat c).send hsent
  | acknack buf =>
    rw [arrived_eq fun _ => rfl, System.step]
    obtain ⟨c, hc⟩ := encodeAcknack_snd s.reader s.writer.entityId buf
    have hlast := h.writer.lastSn_lt
    have hack := h.reader.ackSn_le
    rcases henc : s.reader.encodeAcknack s.writer.entityId buf with ⟨_ | ⟨n, out⟩, r⟩
    · refine ⟨_, _, rfl, ?_, by rintro _ ⟨⟩⟩
      rw [henc] at hc
      subst hc
      exact h.countAcknack c
    · obtain ⟨a, hdec, ha, hm⟩ := decodeAcknack_encodeAcknack henc (by omega)
        (h.size_missing_le.trans_lt (by decide)) fun seq hseq => by
          have := h.reader.missing_le seq hseq
          omega
      refine ⟨_, _, rfl, ?_, by rintro _ ⟨⟩⟩
      rw [henc] at hc
      subst hc
      have hinv := h.countAcknack c
      refine ⟨hinv.writer, hinv.reader, hinv.toReader, fun bytes hbytes => ?_⟩
      rcases mem_cons.1 hbytes with rfl | hbytes
      · refine ⟨a, hdec, ha.le.trans hack, fun seq h1 hle hnot => ?_⟩
        rw [hm] at hnot
        exact (h.reader.mem_iff seq h1).2 ⟨ha ▸ hle, hnot⟩
      · exact h.toWriter bytes hbytes
  | sample seq data =>
    obtain ⟨b, r, hr, hb, hinv⟩ := h.sample hok
    rw [arrived_sample]
    refine ⟨_, _, by rw [System.step, hr]; rfl, hinv, fun n hn => ?_⟩
    rw [← of_decide_eq_true hn, ← hb, Option.some_inj]
  | heartbeatArrives bytes =>
    obtain ⟨hb, hdec, hhb⟩ := h.toReader _ hok
    rw [arrived_eq fun _ => rfl, System.step, hdec]
    exact ⟨_, _, rfl, ⟨h.writer, h.reader.processHeartbeat hhb, h.toReader, h.toWriter⟩,
      by rintro _ ⟨⟩⟩
  | acknackArrives bytes =>
    obtain ⟨a, hdec, ha⟩ := h.toWriter bytes hok
    rw [Careful, hdec] at hcareful
    rw [arrived_eq fun _ => rfl, System.step, hdec]
    exact ⟨_, _, rfl, h.acknackArrives ha hcareful, by rintro _ ⟨⟩⟩

/-- A run in which nothing that is missing is acknowledged. -/
abbrev CarefulRun (writerId readerId : EntityId) : Trace → System → Prop :=
  ReachesBy (fun s call => Allowed s call ∧ Careful s call) step (.new writerId readerId)

theorem received_cons_eq (x : Call × Option Bool) (t : Trace) :
    received (x :: t) = arrived x.1 (received t) := by
  ext
  simp only [received, arrived, mem_ofPred_eq, mem_cons, exists_eq_or_imp]

/-- The invariant holds along a run, and samples are reported as new once when they have arrived,
    and never before. -/
theorem CarefulRun.inv {writerId readerId : EntityId} {t : Trace} {s : System}
    (h : CarefulRun writerId readerId t s) :
    Inv (received t) s ∧ ∀ seq, (seq ∈ received t → timesNew t seq = 1) ∧
      (seq ∉ received t → timesNew t seq = 0) := by
  induction h with
  | nil =>
    have hnone : received [] = ∅ := ext fun seq => by simp [received]
    rw [hnone]
    exact ⟨.new writerId readerId, fun seq => ⟨fun h => absurd h (notMem_empty _), fun _ => rfl⟩⟩
  | @cons t s s' call b _ hok hstep ih =>
    obtain ⟨hinv, htimes⟩ := ih
    obtain ⟨b', s1, hstep', hinv', hnew⟩ := hinv.step hok.1 hok.2
    rw [hstep] at hstep'
    obtain ⟨rfl, rfl⟩ := Prod.mk.inj (Option.some.inj hstep')
    rw [received_cons_eq]
    refine ⟨hinv', fun seq => ?_⟩
    rw [timesNew, countP_cons, ← timesNew, arrived, mem_ofPred_eq]
    cases harr : isArrival seq call with
    | false => simpa [harr] using htimes seq
    | true =>
      have hb := hnew seq harr
      by_cases hmem : seq ∈ received t
      · simp [hb, hmem, (htimes seq).1 hmem]
      · simp [hb, hmem, (htimes seq).2 hmem]

/-- In a run in which nothing that is missing is acknowledged, a sample that is no longer in the
    writer's cache has been received, the arrival of every sample is reported as new exactly once,
    and every call returns. -/
theorem reliable_of_careful {writerId readerId : EntityId} {t : Trace} {s : System}
    (h : CarefulRun writerId readerId t s) :
    (∀ seq, 1 ≤ seq → seq ≤ s.writer.lastSn → s.writer.getSample seq = none →
      seq ∈ received t) ∧
    (∀ seq ∈ received t, timesNew t seq = 1) ∧
    ∀ call, Allowed s call → Careful s call → (s.step call).isSome := by
  obtain ⟨hinv, htimes⟩ := h.inv
  refine ⟨fun seq h1 hle hnone => ?_, fun seq hseq => (htimes seq).1 hseq, fun call hok hc => ?_⟩
  · rcases hinv.writer.kept seq h1 hle with ⟨x, hx, hseq⟩ | hR
    · have hfind := find?_eq_none.1 (Option.map_eq_none_iff.1 hnone) x hx
      exact absurd (decide_eq_true hseq) hfind
    · exact hR
  · obtain ⟨b, s', hstep, -⟩ := hinv.step hok hc
    rw [hstep]
    rfl

/-- Two samples arrive in the other order, and are acknowledged. -/
theorem reliable_two_samples :
    ∃ t s, CarefulRun (Vector.replicate 4 0) (Vector.replicate 4 0) t s ∧
      s.writer.getSample 1 = none ∧ timesNew t 1 = 1 := by
  have hrun := ReachesBy.of_exec (fun s call => Allowed s call ∧ Careful s call) step
    (.new (Vector.replicate 4 0) (Vector.replicate 4 0))
    [.write [7], .write [8], .sample 2 [8], .sample 1 [7], .acknack (replicate 24 0),
      .acknackArrives (replicate 8 0 ++ leBytes 8 2 ++ leBytes 4 0 ++ leBytes 4 1)]
    (by decide +kernel)
  have h := reliable_of_careful hrun
  have hget := h.1 1 le_rfl (by decide +kernel) (by decide +kernel)
  exact ⟨_, _, hrun, by decide +kernel, h.2.1 1 hget⟩

/-- The first and the third of three samples arrive. The acknack of the third makes the writer drop
    the second one, which the reader asks for. The next heartbeat makes the reader forget it, and
    when it arrives after all it is not reported as new. -/
theorem missing_sample_dropped :
    ∃ t s t' s', ReachesBy Allowed step
        (.new (Vector.replicate 4 0) (Vector.replicate 4 0)) t s ∧
      s.writer.lastSn = 3 ∧ s.writer.getSample 2 = none ∧ 2 ∉ received t ∧
      ReachesBy Allowed step
        (.new (Vector.replicate 4 0) (Vector.replicate 4 0)) t' s' ∧
      2 ∈ received t' ∧ timesNew t' 2 = 0 := by
  let calls : List Call := [.write [7], .write [8], .write [9], .sample 1 [7], .sample 3 [9],
    .acknack (replicate 32 0),
    .acknackArrives (replicate 8 0 ++ leBytes 8 3 ++ leBytes 4 1 ++ leBytes 8 2 ++ leBytes 4 1)]
  refine ⟨_, _, _, _, .of_exec Allowed step _ calls (by decide +kernel), by decide +kernel,
    by decide +kernel, ?_, .of_exec Allowed step _ (calls ++ [.heartbeat (replicate 28 0),
      .heartbeatArrives (replicate 8 0 ++ leBytes 8 3 ++ leBytes 8 3 ++ leBytes 4 1),
      .sample 2 [8]]) (by decide +kernel), ?_, by decide +kernel⟩
  · change ¬∃ x ∈ _, isArrival 2 (Prod.fst x) = true
    decide +kernel
  · change ∃ x ∈ _, isArrival 2 (Prod.fst x) = true
    decide +kernel

end SmallAIOS.Bus.Dds

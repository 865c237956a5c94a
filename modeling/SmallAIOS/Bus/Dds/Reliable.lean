import SmallAIOS.Lib.Bytes
import SmallAIOS.Lib.SortedSet
import SmallAIOS.Lib.Word
import Mathlib.Data.Vector.Defs

/-!
# Reliable delivery of DDS samples

A writer keeps the samples it may have to send again, and announces in heartbeats which ones it
has. A reader keeps track of the samples it has received, and answers with an acknack: a sequence
number, and the numbers it is missing.

The two meanings of that number differ. For the reader it is the highest number it has seen,
with holes listed as missing (`ReaderAckNack.receiveSample`), and the writer drops everything
before it (`WriterHeartbeat.acknowledgeUpTo`).

Heartbeats and acknacks travel as bytes, and are read as they were written
(`decodeHeartbeat_encodeHeartbeat`, `decodeAcknack_encodeAcknack`).
-/

namespace SmallAIOS.Bus

/-- Bus protocol error type. -/
inductive BusError
  | frameTooShort
  | invalidHeader
  | crcMismatch
  | bufferTooSmall
  | payloadTooLarge
  | invalidId
  | invalidDlc
  | notSupported
  | parityError
  | outOfRange
  | invalidBcd
  | busOff
  | filterTableFull
  | schedulerFull
  | invalidLabel
  | invalidApid
  | qosIncompatible
  | invalidDomain
  | securityError
  | timeout
  | invalidFrame
  deriving DecidableEq

end SmallAIOS.Bus

namespace SmallAIOS.Bus.Dds

open Lib Prod
open List hiding Vector

/-- The four bytes that name an endpoint. -/
abbrev EntityId := Vector UInt8 4

/-- The first four bytes of a list, copied to an entity id. -/
def entityId (bs : List UInt8) : EntityId := Vector.ofFn fun i => bs.getD i 0

/-- Maximum number of samples retained for retransmission. -/
def maxWriterCache : ℕ := 256

/-! ## The writer -/

/-- Decoded heartbeat data. -/
structure HeartbeatData where
  writerEntityId : EntityId
  readerEntityId : EntityId
  firstSn : ℕ
  lastSn : ℕ
  count : ℕ
  deriving DecidableEq

/-- Writer heartbeat state: the samples that are available. Sequence numbers are words. -/
structure WriterHeartbeat where
  entityId : EntityId
  firstSn : ℕ
  lastSn : ℕ
  heartbeatCount : ℕ
  cache : List (ℕ × List UInt8)
  deriving DecidableEq

namespace WriterHeartbeat

/-- A new writer. -/
def new (entityId : EntityId) : WriterHeartbeat := ⟨entityId, 1, 0, 0, []⟩

/-- Record a new sample in the writer cache, and evict the oldest one if there are too many. -/
def addSample (w : WriterHeartbeat) (seq : ℕ) (data : List UInt8) : WriterHeartbeat :=
  let cache := w.cache ++ [(seq, data)]
  if maxWriterCache < cache.length then
    { w with
      lastSn := seq
      cache := cache.tail
      firstSn := match cache.tail with
        | [] => w.firstSn
        | (first, _) :: _ => first }
  else { w with lastSn := seq, cache }

/-- Generate a heartbeat. -/
def generateHeartbeat (w : WriterHeartbeat) : (ℕ × ℕ × ℕ) × WriterHeartbeat :=
  let count := (w.heartbeatCount + 1) % 2 ^ 32
  ((w.firstSn, w.lastSn, count), { w with heartbeatCount := count })

/-- Encode a heartbeat into a buffer. -/
def encodeHeartbeat (w : WriterHeartbeat) (buf : List UInt8) :
    Except BusError (ℕ × List UInt8) × WriterHeartbeat :=
  if buf.length < 28 then (.error .bufferTooSmall, w)
  else
    let ((first, last, count), w') := w.generateHeartbeat
    (.ok (28, w.entityId.toList ++ replicate 4 0 ++ leBytes 8 first ++ leBytes 8 last ++
      leBytes 4 count ++ buf.drop 28), w')

/-- Get a sample by sequence number for retransmission. -/
def getSample (w : WriterHeartbeat) (seq : ℕ) : Option (List UInt8) :=
  (w.cache.find? fun x => x.1 = seq).map snd

/-- Remove acknowledged samples up to (but not including) the given sequence number. -/
def acknowledgeUpTo (w : WriterHeartbeat) (ackSn : ℕ) : WriterHeartbeat :=
  let cache := w.cache.filter fun x => ackSn ≤ x.1
  { w with
    cache
    firstSn := match cache with
      | [] => ackSn
      | (first, _) :: _ => first }

end WriterHeartbeat

/-- Decode a heartbeat. -/
def decodeHeartbeat (data : List UInt8) : Except BusError HeartbeatData :=
  if data.length < 28 then .error .frameTooShort
  else .ok
    { writerEntityId := entityId data
      readerEntityId := entityId (data.drop 4)
      firstSn := leVal ((data.drop 8).take 8)
      lastSn := leVal ((data.drop 16).take 8)
      count := leVal ((data.drop 24).take 4) }

/-! ## The reader -/

/-- Decoded acknack data. -/
structure AckNackData where
  readerEntityId : EntityId
  writerEntityId : EntityId
  ackSn : ℕ
  missing : List ℕ
  count : ℕ
  deriving DecidableEq

/-- Reader acknack state: which samples have been received and which are missing. -/
structure ReaderAckNack where
  entityId : EntityId
  missing : SortedSet ℕ
  ackSn : ℕ
  acknackCount : ℕ
  lastHeartbeatCount : ℕ
  deriving DecidableEq

namespace ReaderAckNack

/-- A new reader. -/
def new (entityId : EntityId) : ReaderAckNack := ⟨entityId, .empty, 0, 0, 0⟩

/-- Record receipt of a sample. Returns true if the sample was new. -/
def receiveSample (r : ReaderAckNack) (seq : ℕ) : Option (Bool × ReaderAckNack) :=
  if seq ≤ r.ackSn ∧ seq ∉ r.missing then some (false, r)
  else
    let missing := r.missing.erase seq
    (Word.add 64 r.ackSn 1).bind fun next =>
      if seq = next then
        -- The loop of the source looks at the next number, and ends in its first round.
        (Word.add 64 seq 1).map fun _ => (true, { r with missing, ackSn := seq })
      else if next < seq then
        some (true, { r with
          missing := missing.insertAll (range' next (seq - next)), ackSn := seq })
      else some (true, { r with missing })

/-- Process a received heartbeat. Returns true if an acknack should be sent. -/
def processHeartbeat (r : ReaderAckNack) (hb : HeartbeatData) : Bool × ReaderAckNack :=
  if hb.count ≤ r.lastHeartbeatCount then (false, r)
  else
    let missing :=
      if r.ackSn < hb.lastSn then
        r.missing.insertAll (range' (r.ackSn + 1) (hb.lastSn - r.ackSn))
      else r.missing
    -- What the writer no longer has is not asked for.
    let missing := missing.filter (hb.firstSn ≤ ·)
    (!missing.toList.isEmpty, { r with missing, lastHeartbeatCount := hb.count })

/-- Encode an acknack into a buffer. -/
def encodeAcknack (r : ReaderAckNack) (writerEid : EntityId) (buf : List UInt8) :
    Except BusError (ℕ × List UInt8) × ReaderAckNack :=
  let total := 4 + 4 + 8 + 4 + r.missing.size * 8 + 4
  if buf.length < total then (.error .bufferTooSmall, r)
  else
    let count := (r.acknackCount + 1) % 2 ^ 32
    (.ok (total, r.entityId.toList ++ writerEid.toList ++ leBytes 8 r.ackSn ++
      leBytes 4 (r.missing.size % 2 ^ 32) ++ r.missing.toList.flatMap (leBytes 8) ++
      leBytes 4 count ++ buf.drop total), { r with acknackCount := count })

end ReaderAckNack

/-- The numbers of eight bytes each at the start of the data. -/
def decodeNumbers : ℕ → List UInt8 → List ℕ
  | 0, _ => []
  | n + 1, data => leVal (data.take 8) :: decodeNumbers n (data.drop 8)

/-- Decode an acknack. -/
def decodeAcknack (data : List UInt8) : Except BusError AckNackData :=
  if data.length < 20 then .error .frameTooShort
  else
    let numMissing := leVal ((data.drop 16).take 4)
    if data.length < 20 + numMissing * 8 + 4 then .error .frameTooShort
    else .ok
      { readerEntityId := entityId data
        writerEntityId := entityId (data.drop 4)
        ackSn := leVal ((data.drop 8).take 8)
        missing := decodeNumbers numMissing (data.drop 20)
        count := leVal ((data.drop (20 + numMissing * 8)).take 4) }

/-! ## The bytes on the wire -/

theorem entityId_append (v : EntityId) (rest : List UInt8) : entityId (v.toList ++ rest) = v := by
  ext i hi
  simp only [entityId, Vector.getElem_ofFn, getD_eq_getElem?_getD]
  rw [getElem?_append_left (by simpa using hi)]
  simp [hi]

theorem leVal_take_leBytes {k n : ℕ} (h : n < 256 ^ k) (rest : List UInt8) :
    leVal ((leBytes k n ++ rest).take k) = n := by
  rw [take_left' length_leBytes, leVal_leBytes h]

theorem leVal_leBytes_self {k n : ℕ} (h : n < 256 ^ k) : leVal ((leBytes k n).take k) = n := by
  rw [← append_nil (leBytes k n), leVal_take_leBytes h]

/-- What is behind the first `k` bytes. -/
theorem drop_add_eq {i k : ℕ} {data a b : List UInt8} (h : data.drop i = a ++ b)
    (ha : a.length = k) : data.drop (i + k) = b := by
  rw [← drop_drop, h, drop_left' ha]

/-- A heartbeat is read as it was written. -/
theorem decodeHeartbeat_bytes {first last count : ℕ} (wid rid : EntityId) (hfirst : first < 2 ^ 64)
    (hlast : last < 2 ^ 64) (hcount : count < 2 ^ 32) :
    decodeHeartbeat (wid.toList ++ rid.toList ++ leBytes 8 first ++ leBytes 8 last ++
      leBytes 4 count) = .ok ⟨wid, rid, first, last, count⟩ := by
  generalize hdata : wid.toList ++ rid.toList ++ leBytes 8 first ++ leBytes 8 last ++
    leBytes 4 count = data
  simp only [append_assoc] at hdata
  have hlen : data.length = 28 := by simp [← hdata]
  have h4 : data.drop 4 = _ := drop_add_eq (i := 0) hdata.symm wid.length_toList
  have h8 : data.drop 8 = _ := drop_add_eq h4 rid.length_toList
  have h16 : data.drop 16 = _ := drop_add_eq h8 length_leBytes
  have h24 : data.drop 24 = _ := drop_add_eq h16 length_leBytes
  rw [decodeHeartbeat, if_neg (by omega), h4, h8, h16, h24, ← hdata, entityId_append,
    entityId_append, leVal_take_leBytes hfirst, leVal_take_leBytes hlast,
    leVal_leBytes_self hcount]

theorem decodeNumbers_flatMap {ns : List ℕ} (h : ∀ n ∈ ns, n < 2 ^ 64) (rest : List UInt8) :
    decodeNumbers ns.length (ns.flatMap (leBytes 8) ++ rest) = ns := by
  induction ns with
  | nil => rfl
  | cons n ns ih =>
    rw [flatMap_cons, append_assoc, length_cons, decodeNumbers,
      leVal_take_leBytes (h n mem_cons_self), drop_left' length_leBytes,
      ih fun m hm => h m (mem_cons_of_mem _ hm)]

theorem length_flatMap_leBytes (ns : List ℕ) : (ns.flatMap (leBytes 8)).length = ns.length * 8 := by
  induction ns with
  | nil => rfl
  | cons n ns ih =>
    rw [flatMap_cons, length_append, length_leBytes, length_cons]
    omega

/-- An acknack is read as it was written. -/
theorem decodeAcknack_bytes {ackSn count : ℕ} {missing : List ℕ} (rid wid : EntityId)
    (hack : ackSn < 2 ^ 64) (hlen : missing.length < 2 ^ 32) (hmiss : ∀ n ∈ missing, n < 2 ^ 64)
    (hcount : count < 2 ^ 32) :
    decodeAcknack (rid.toList ++ wid.toList ++ leBytes 8 ackSn ++ leBytes 4 missing.length ++
      missing.flatMap (leBytes 8) ++ leBytes 4 count) = .ok ⟨rid, wid, ackSn, missing, count⟩ := by
  generalize hdata : rid.toList ++ wid.toList ++ leBytes 8 ackSn ++ leBytes 4 missing.length ++
    missing.flatMap (leBytes 8) ++ leBytes 4 count = data
  simp only [append_assoc] at hdata
  have htotal : data.length = 20 + missing.length * 8 + 4 := by
    simp only [← hdata, length_append, length_flatMap_leBytes, length_leBytes, Vector.length_toList]
    omega
  have h4 : data.drop 4 = _ := drop_add_eq (i := 0) hdata.symm rid.length_toList
  have h8 : data.drop 8 = _ := drop_add_eq h4 wid.length_toList
  have h16 : data.drop 16 = _ := drop_add_eq h8 length_leBytes
  have h20 : data.drop 20 = _ := drop_add_eq h16 length_leBytes
  have hend := drop_add_eq h20 (length_flatMap_leBytes missing)
  rw [decodeAcknack, if_neg (by omega), h4, h8, h16, h20]
  rw [leVal_take_leBytes hlen, if_neg (by omega), hend, ← hdata, entityId_append, entityId_append,
    leVal_take_leBytes hack, decodeNumbers_flatMap hmiss, leVal_leBytes_self hcount]

/-- Sending a heartbeat only counts it. -/
theorem encodeHeartbeat_snd (w : WriterHeartbeat) (buf : List UInt8) :
    ∃ c, (w.encodeHeartbeat buf).2 = { w with heartbeatCount := c } := by
  rw [WriterHeartbeat.encodeHeartbeat]
  split
  · exact ⟨_, rfl⟩
  · exact ⟨_, rfl⟩

/-- Sending an acknack only counts it. -/
theorem encodeAcknack_snd (r : ReaderAckNack) (wid : EntityId) (buf : List UInt8) :
    ∃ c, (r.encodeAcknack wid buf).2 = { r with acknackCount := c } := by
  rw [ReaderAckNack.encodeAcknack]
  split
  · exact ⟨_, rfl⟩
  · exact ⟨_, rfl⟩

variable {buf out : List UInt8} {n : ℕ}

/-- The heartbeat that a writer sends. -/
theorem decodeHeartbeat_encodeHeartbeat {w w' : WriterHeartbeat}
    (h : w.encodeHeartbeat buf = (.ok (n, out), w')) (hfirst : w.firstSn < 2 ^ 64)
    (hlast : w.lastSn < 2 ^ 64) :
    ∃ hb, decodeHeartbeat (out.take n) = .ok hb ∧ hb.firstSn = w.firstSn ∧
      hb.lastSn = w.lastSn := by
  rw [WriterHeartbeat.encodeHeartbeat] at h
  split at h
  · cases (mk.inj h).1
  obtain ⟨hout, -⟩ := mk.inj h
  obtain ⟨rfl, rfl⟩ := mk.inj (Except.ok.inj hout)
  have hcount := Nat.mod_lt (w.heartbeatCount + 1) (Nat.two_pow_pos 32)
  have hdec := decodeHeartbeat_bytes w.entityId (Vector.replicate 4 0) hfirst hlast hcount
  exact ⟨_, (congrArg decodeHeartbeat (take_left' (by simp))).trans hdec, rfl, rfl⟩

/-- The acknack that a reader sends. -/
theorem decodeAcknack_encodeAcknack {r r' : ReaderAckNack} {wid : EntityId}
    (h : r.encodeAcknack wid buf = (.ok (n, out), r')) (hack : r.ackSn < 2 ^ 64)
    (hlen : r.missing.size < 2 ^ 32) (hmiss : ∀ m ∈ r.missing, m < 2 ^ 64) :
    ∃ a, decodeAcknack (out.take n) = .ok a ∧ a.ackSn = r.ackSn ∧ a.missing = r.missing.toList := by
  rw [ReaderAckNack.encodeAcknack] at h
  split at h
  · cases (mk.inj h).1
  obtain ⟨hout, -⟩ := mk.inj h
  obtain ⟨rfl, rfl⟩ := mk.inj (Except.ok.inj hout)
  have hcount := Nat.mod_lt (r.acknackCount + 1) (Nat.two_pow_pos 32)
  have hdec := decodeAcknack_bytes r.entityId wid hack hlen hmiss hcount
  rw [Nat.mod_eq_of_lt hlen]
  refine ⟨_, (congrArg decodeAcknack (take_left' ?_)).trans hdec, rfl, rfl⟩
  simp only [length_append, length_flatMap_leBytes, length_leBytes, Vector.length_toList,
    SortedSet.size]

end SmallAIOS.Bus.Dds

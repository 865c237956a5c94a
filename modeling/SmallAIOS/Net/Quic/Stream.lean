import SmallAIOS.Lib.Run
import SmallAIOS.Lib.SortedMap
import SmallAIOS.Net.Quic.PktNum

/-!
# Streams

A stream has a side that sends and a side that receives. The side that receives keeps the chunks of
data that came, in any order, by their offsets; reading takes the bytes from the next offset to
deliver on, through as many chunks as follow without a hole (`readLoop`), and drops the chunks that
are read.

`step_cases` says what a call does to the side that receives, and `readLoop_spec` what is read:
the bytes from the offset on, up to the first one that is not there.
-/

namespace SmallAIOS.Net.Quic

open Lib List Option

inductive StreamType where
  | bidirectional
  | unidirectional
  deriving DecidableEq

inductive SendState where
  | ready
  | send
  | dataSent
  | resetSent
  | dataRecvd
  deriving DecidableEq

inductive RecvState where
  | recv
  | sizeKnown
  | dataRead
  | resetRecvd
  deriving DecidableEq

structure Stream where
  id : ℕ
  streamType : StreamType
  /-- There is none for a stream that only receives. -/
  sendState : Option SendState
  /-- There is none for a stream that only sends. -/
  recvState : Option RecvState
  sendBuf : List UInt8 := []
  sendOffset : ℕ := 0
  /-- The chunks that came, by their offsets. -/
  recvBuf : SortedMap ℕ (List UInt8) := .empty
  /-- The next offset to deliver. -/
  recvOffset : ℕ := 0
  sendFin : Bool := false
  recvFin : Bool := false
  finalSize : Option ℕ := none
  maxSendData : ℕ
  maxRecvData : ℕ
  totalRecv : ℕ := 0

/-- Read up to `room` bytes from the chunks, from the offset on: the bytes, and the offset after
    them. -/
def readLoop : ℕ → List (ℕ × List UInt8) → ℕ → List UInt8 × ℕ
  | _, [], off => ([], off)
  | room, (key, data) :: chunks, off =>
    if off < key then ([], off)
    else
      let start := off - key
      -- The chunk may be consumed already.
      if data.length ≤ start then readLoop room chunks off
      else
        let piece := (data.drop start).take room
        let off := key + start + piece.length
        if room ≤ piece.length then (piece, off)
        else
          let (out, off) := readLoop (room - piece.length) chunks off
          (piece ++ out, off)

/-! ## What is read -/

/-- A slice, and a slice where it ends, are a slice. -/
theorem append_isPrefix {α : Type*} {a b l : List α} (ha : a <+: l) (hb : b <+: l.drop a.length) :
    a ++ b <+: l := by
  obtain ⟨rest, rfl⟩ := ha
  rw [drop_left] at hb
  exact (prefix_append_right_inj a).2 hb

/-- A part of a chunk that is a slice is one. -/
theorem piece_isPrefix {bytes data : List UInt8} {key off room : ℕ} (hle : key ≤ off)
    (h : data <+: bytes.drop key) : (data.drop (off - key)).take room <+: bytes.drop off := by
  have hdrop := h.drop (off - key)
  rw [drop_drop, Nat.add_sub_of_le hle] at hdrop
  exact ( take_prefix _ _).trans hdrop

/-- `out` is read from the chunks, from `off` to `off'`: if they are slices of `bytes`, it is
    what `bytes` has there, and if there is room left no chunk has the next byte. -/
structure ReadOf (room : ℕ) (chunks : List (ℕ × List UInt8)) (off : ℕ) (out : List UInt8)
    (off' : ℕ) : Prop where
  offset : off' = off + out.length
  bounded : off' = off ∨ ∃ c ∈ chunks, off' ≤ c.1 + c.2.length
  slice : ∀ bytes : List UInt8, (∀ c ∈ chunks, c.2 <+: bytes.drop c.1) → out <+: bytes.drop off
  stop : out.length < room → chunks.Pairwise (·.1 < ·.1) →
    ∀ c ∈ chunks, off' < c.1 ∨ c.1 + c.2.length ≤ off'

theorem readLoop_spec (room : ℕ) (chunks : List (ℕ × List UInt8)) (off : ℕ) :
    ReadOf room chunks off (readLoop room chunks off).1 (readLoop room chunks off).2 := by
  fun_induction readLoop room chunks off with
  | case1 room off => exact ⟨rfl, .inl rfl, fun _ _ => nil_prefix, by simp⟩
  | case2 room key data chunks off hgap =>
    -- The chunks that follow start even later.
    refine ⟨rfl, .inl rfl, fun _ _ => nil_prefix, fun _ hs c hc => .inl ?_⟩
    rcases mem_cons.1 hc with rfl | hc
    · exact hgap
    · exact hgap.trans ((pairwise_cons.1 hs).1 c hc)
  | case3 room key data chunks off hgap start hdone ih =>
    refine ⟨ih.offset, ih.bounded.imp_right fun ⟨c, hc, h⟩ => ⟨c, mem_cons_of_mem _ hc, h⟩,
      fun bytes h => ih.slice bytes fun c hc => h c (mem_cons_of_mem _ hc),
      fun hroom hs c hc => ?_⟩
    rcases mem_cons.1 hc with rfl | hc
    · have hoff := ih.offset
      dsimp only
      omega
    · exact ih.stop hroom (pairwise_cons.1 hs).2 c hc
  | case4 room key data chunks off hgap start hdone piece off' hfull =>
    have hlen : piece.length ≤ data.length - start :=
      (length_take_le' _ _).trans (length_drop ..).le
    dsimp only
    refine ⟨by omega, .inr ⟨_, mem_cons_self, by dsimp only; omega⟩,
      fun bytes h => piece_isPrefix (not_lt.1 hgap) (h _ mem_cons_self),
      fun hroom => absurd hroom (not_lt.2 hfull)⟩
  | case5 room key data chunks off hgap start hdone piece off' hroom out off'' heq ih =>
    -- There is room left, so the piece is the rest of the chunk.
    have hlen : piece.length = data.length - start := by
      have hle : data.length - start ≤ room := by
        by_contra hlt
        exact hroom (by simp only [piece, length_take, length_drop]; omega)
      simp only [piece, length_take, length_drop]
      omega
    rw [heq] at ih
    have hoff := ih.offset
    dsimp only at hoff ⊢
    refine ⟨by rw [length_append]; omega, ?_, fun bytes h => ?_, fun hlt hs c hc => ?_⟩
    · rcases ih.bounded with he | ⟨c, hc, hle⟩
      · exact .inr ⟨_, mem_cons_self, by dsimp only at he ⊢; omega⟩
      · exact .inr ⟨c, mem_cons_of_mem _ hc, hle⟩
    · refine append_isPrefix (piece_isPrefix (not_lt.1 hgap) (h _ mem_cons_self)) ?_
      rw [drop_drop]
      have hnext := ih.slice bytes fun c hc => h c (mem_cons_of_mem _ hc)
      rwa [(by omega : off' = off + piece.length)] at hnext
    · rcases mem_cons.1 hc with rfl | hc
      · dsimp only
        omega
      · rw [length_append] at hlt
        exact ih.stop (by dsimp only; omega) (pairwise_cons.1 hs).2 c hc

namespace Stream

def new (id : ℕ) (streamType : StreamType) (isLocal : Bool)
    (initialMaxSend initialMaxRecv : ℕ) : Stream where
  id := id
  streamType := streamType
  sendState := match streamType with
    | .bidirectional => some .ready
    | .unidirectional => if isLocal then some .ready else none
  recvState := match streamType with
    | .bidirectional => some .recv
    | .unidirectional => if isLocal then none else some .recv
  maxSendData := initialMaxSend
  maxRecvData := initialMaxRecv

variable (s : Stream)

def canSend : Bool := s.sendState = some .ready || s.sendState = some .send

def canRecv : Bool := s.recvState = some .recv || s.recvState = some .sizeKnown

def write (data : List UInt8) : Except NetError ℕ × Stream :=
  if !s.canSend then (.error .invalidProtocol, s)
  else
    (.ok data.length, { s with
      sendBuf := s.sendBuf ++ data
      sendState := s.sendState.map fun state => if state = .ready then .send else state })

def finish : Except NetError Unit × Stream :=
  if !s.canSend then (.error .invalidProtocol, s) else (.ok (), { s with sendFin := true })

def onDataSent (bytes : ℕ) (fin : Bool) : Option Stream :=
  (Word.add 64 s.sendOffset bytes).map fun sendOffset =>
    { s with
      sendOffset := sendOffset
      sendState := if fin then some .dataSent else s.sendState }

def onDataAcked : Stream :=
  if s.sendState = some .dataSent then { s with sendState := some .dataRecvd } else s

/-- Keep a chunk that ends in `e`, and the final size if it is the last one. A chunk that starts
    where another one does takes its place. -/
def keep (offset e : ℕ) (data : List UInt8) (fin : Bool) : Stream :=
  { s with
    recvBuf := if data.isEmpty then s.recvBuf else s.recvBuf.insert offset data
    totalRecv := if data.isEmpty then s.totalRecv else max s.totalRecv e
    recvFin := s.recvFin || fin
    finalSize := if fin then some e else s.finalSize
    recvState := if fin then s.recvState.map fun _ => .sizeKnown else s.recvState }

def recvData (offset : ℕ) (data : List UInt8) (fin : Bool) :
    Option (Except NetError Unit × Stream) :=
  if !s.canRecv then some (.error .invalidProtocol, s)
  else do
    let e ← Word.add 64 offset data.length
    if s.maxRecvData < e then return (.error .bufferTooSmall, s)
    else return (.ok (), s.keep offset e data fin)

/-- The stream after the bytes before `off` are delivered. -/
def consume (off : ℕ) : Stream :=
  { s with
    recvOffset := off
    recvBuf := ⟨s.recvBuf.entries.filter fun c => off < c.1 + c.2.length, s.recvBuf.sorted.filter _⟩
    recvState := if s.recvFin && some off = s.finalSize then some .dataRead else s.recvState }

/-- Read into a buffer of `bufLen` bytes. -/
def read (bufLen : ℕ) : Except NetError (List UInt8) × Stream :=
  if !s.canRecv && s.recvState ≠ some .sizeKnown then (.error .invalidProtocol, s)
  else
    let (out, off) := readLoop bufLen s.recvBuf.entries s.recvOffset
    (.ok out, s.consume off)

def resetSend : Stream := { s with sendState := some .resetSent, sendBuf := [] }

def recvReset (finalSize : ℕ) : Stream :=
  { s with recvState := some .resetRecvd, finalSize := some finalSize }

def updateMaxSendData (limit : ℕ) : Stream := { s with maxSendData := max s.maxSendData limit }

def updateMaxRecvData (limit : ℕ) : Stream := { s with maxRecvData := max s.maxRecvData limit }

def isFinished : Bool :=
  (s.sendState = some .dataRecvd || s.sendState = some .resetSent || s.sendState = none) &&
    (s.recvState = some .dataRead || s.recvState = some .resetRecvd || s.recvState = none)

inductive Call where
  | write (data : List UInt8)
  | finish
  | onDataSent (bytes : ℕ) (fin : Bool)
  | onDataAcked
  | recvData (offset : ℕ) (data : List UInt8) (fin : Bool)
  | read (bufLen : ℕ)
  | resetSend
  | recvReset (finalSize : ℕ)
  | updateMaxSendData (limit : ℕ)
  | updateMaxRecvData (limit : ℕ)
  deriving DecidableEq

inductive Answer where
  | done
  | size (n : ℕ)
  | data (data : List UInt8)
  deriving DecidableEq

/-- What a fallible call answers, and the stream after it. -/
def answer {α : Type} (f : α → Answer) (r : Except NetError α × Stream) :
    Except NetError Answer × Stream := (r.1.map f, r.2)

def step : Call → Option (Except NetError Answer × Stream)
  | .write data => some (answer .size (s.write data))
  | .finish => some (answer (fun _ => .done) s.finish)
  | .onDataSent bytes fin => (s.onDataSent bytes fin).map fun s => (.ok .done, s)
  | .onDataAcked => some (.ok .done, s.onDataAcked)
  | .recvData offset data fin => (s.recvData offset data fin).map (answer fun _ => .done)
  | .read bufLen => some (answer .data (s.read bufLen))
  | .resetSend => some (.ok .done, s.resetSend)
  | .recvReset finalSize => some (.ok .done, s.recvReset finalSize)
  | .updateMaxSendData limit => some (.ok .done, s.updateMaxSendData limit)
  | .updateMaxRecvData limit => some (.ok .done, s.updateMaxRecvData limit)

/-! ## What calls do -/

variable {s} {s' : Stream}

/-- The calls leave the side that receives as it is. -/
structure SameRecv (s s' : Stream) : Prop where
  recvBuf : s'.recvBuf = s.recvBuf
  recvOffset : s'.recvOffset = s.recvOffset
  recvFin : s'.recvFin = s.recvFin
  finalSize : s'.finalSize = s.finalSize
  recvState : s'.recvState = s.recvState
  totalRecv : s'.totalRecv = s.totalRecv

/-- The frame is accepted. -/
def Accepts (s : Stream) (offset : ℕ) (data : List UInt8) : Prop :=
  s.canRecv ∧ offset + data.length < 2 ^ 64 ∧ offset + data.length ≤ s.maxRecvData
  deriving Decidable

/-- The call neither keeps a frame nor delivers bytes. -/
structure Idle (s : Stream) (a : Call) (r : Except NetError Answer) (s' : Stream) : Prop
    extends SameRecv s s' where
  not_data : ∀ data, r ≠ .ok (.data data)
  not_kept : ∀ offset data fin, a = .recvData offset data fin → r ≠ .ok .done
  not_read : ∀ bufLen, a = .read bufLen → ¬s.canRecv

variable {r : Except NetError Answer} {a : Call}

/-- What a call does to the side that receives: it keeps a frame that is accepted, it delivers
    bytes, it resets, or it does nothing. -/
theorem step_cases (h : s.step a = some (r, s')) :
    (∃ offset data fin, a = .recvData offset data fin ∧ r = .ok .done ∧ s.Accepts offset data ∧
      s' = s.keep offset (offset + data.length) data fin) ∨
    (∃ bufLen, a = .read bufLen ∧ s.canRecv ∧
      r = .ok (.data (readLoop bufLen s.recvBuf.entries s.recvOffset).1) ∧
      s' = s.consume (readLoop bufLen s.recvBuf.entries s.recvOffset).2) ∨
    (∃ finalSize, a = .recvReset finalSize ∧ r = .ok .done ∧ s' = s.recvReset finalSize) ∨
    Idle s a r s' := by
  have hsame : SameRecv s s := ⟨rfl, rfl, rfl, rfl, rfl, rfl⟩
  cases a with
  | recvData offset data fin =>
    obtain ⟨q, hq, h⟩ := map_eq_some_iff.1 h
    rw [Stream.recvData] at hq
    split_ifs at hq with hrecv
    · cases hq
      cases h
      exact .inr (.inr (.inr ⟨hsame, nofun, fun _ _ _ _ => nofun, nofun⟩))
    · obtain ⟨e, he, hq⟩ := bind_eq_some_iff.1 hq
      obtain ⟨hlt, rfl⟩ := Word.add_eq_some.1 he
      split_ifs at hq with hmax
      · cases hq
        cases h
        exact .inr (.inr (.inr ⟨hsame, nofun, fun _ _ _ _ => nofun, nofun⟩))
      · cases hq
        cases h
        refine .inl ⟨offset, data, fin, rfl, rfl, ⟨?_, hlt, not_lt.1 hmax⟩, rfl⟩
        simpa using hrecv
  | read bufLen =>
    have h := some.inj h
    rw [Stream.read] at h
    split_ifs at h with hrecv
    · cases h
      refine .inr (.inr (.inr ⟨hsame, nofun, nofun, fun _ _ hcan => ?_⟩))
      simp [hcan] at hrecv
    · cases h
      refine .inr (.inl ⟨bufLen, rfl, ?_, rfl, rfl⟩)
      by_contra hcan
      have hne : s.recvState ≠ some .sizeKnown := fun he => hcan (by simp [canRecv, he])
      exact hrecv (by simp [hcan, hne])
  | recvReset finalSize =>
    cases h
    exact .inr (.inr (.inl ⟨finalSize, rfl, rfl, rfl⟩))
  | write _ | finish | onDataAcked =>
    have h := some.inj h
    simp only [Stream.write, Stream.finish, Stream.onDataAcked] at h
    split_ifs at h <;> cases h <;>
      exact .inr (.inr (.inr ⟨⟨rfl, rfl, rfl, rfl, rfl, rfl⟩, nofun, nofun, nofun⟩))
  | onDataSent bytes fin =>
    obtain ⟨q, hq, h⟩ := map_eq_some_iff.1 h
    obtain ⟨_, -, hq⟩ := map_eq_some_iff.1 hq
    cases hq
    cases h
    exact .inr (.inr (.inr ⟨⟨rfl, rfl, rfl, rfl, rfl, rfl⟩, nofun, nofun, nofun⟩))
  | resetSend | updateMaxSendData _ | updateMaxRecvData _ =>
    cases h
    exact .inr (.inr (.inr ⟨⟨rfl, rfl, rfl, rfl, rfl, rfl⟩, nofun, nofun, nofun⟩))

/-! ## What a run delivers -/

/-- The bytes a call delivers. -/
def output : Except NetError Answer → List UInt8
  | .ok (.data out) => out
  | _ => []

/-- The bytes delivered in a run. -/
def delivered : List (Call × Except NetError Answer) → List UInt8
  | [] => []
  | c :: t => delivered t ++ output c.2

theorem Idle.output_eq (h : Idle s a r s') : output r = [] := by
  rcases r with e | (_ | n | out)
  · rfl
  · rfl
  · rfl
  · exact absurd rfl (h.not_data out)

end Stream

end SmallAIOS.Net.Quic

import SmallAIOS.Lib.Run
import SmallAIOS.Net.Quic.PktNum

/-!
# Connections

A connection is a state machine: it is opened, by this side or by the other one, and closed, and it
handles the segments that come. No data is sent; the sequence numbers this side sends are those of
its SYN and its FIN. `moved_of_step` lists all the moves of the machine, with what is sent and what
becomes of the sequence numbers.

Sequence numbers are words of 32 bits and wrap around.
-/

namespace SmallAIOS.Net.Tcp

open Lib List

/-! ## Segment headers

The fixed part of a header is twenty bytes, with numbers in big-endian order. The data offset is
the length of the header with its options, in words of four bytes, and is kept in the high half of
its byte. A header that is serialized is read back (`parse_serialize`).
-/

namespace TcpFlags

def FIN : UInt8 := 0x01
def SYN : UInt8 := 0x02
def RST : UInt8 := 0x04
def ACK : UInt8 := 0x10

end TcpFlags

structure TcpHeader where
  srcPort : UInt16
  dstPort : UInt16
  seqNum : UInt32
  ackNum : UInt32
  /-- The length of the header in words of four bytes. -/
  dataOffset : UInt8
  flags : UInt8
  window : UInt16
  checksum : UInt16
  urgentPtr : UInt16
  deriving DecidableEq

namespace TcpHeader

def headerMinLen : ℕ := 20

/-- One of the flags is set. -/
def has (h : TcpHeader) (flag : UInt8) : Bool := h.flags &&& flag ≠ 0

/-- The number in the `n` bytes from `i` on. -/
def field (data : List UInt8) (i n : ℕ) : ℕ := beVal ((data.drop i).take n)

/-- The header, and what follows it and its options. -/
def parse (data : List UInt8) : Except NetError (TcpHeader × List UInt8) :=
  if data.length < headerMinLen then .error .packetTooShort
  else
    let dataOffset := (data.getD 12 0 >>> 4) &&& 0x0F
    if dataOffset < 5 then .error .invalidHeader
    else
      let headerLen := dataOffset.toNat * 4
      if data.length < headerLen then .error .packetTooShort
      else .ok
        ({ srcPort := .ofNat (field data 0 2)
           dstPort := .ofNat (field data 2 2)
           seqNum := .ofNat (field data 4 4)
           ackNum := .ofNat (field data 8 4)
           dataOffset := dataOffset
           flags := data.getD 13 0
           window := .ofNat (field data 14 2)
           checksum := .ofNat (field data 16 2)
           urgentPtr := .ofNat (field data 18 2) }, data.drop headerLen)

def serialize (h : TcpHeader) : List UInt8 :=
  beBytes 2 h.srcPort.toNat ++ (beBytes 2 h.dstPort.toNat ++ (beBytes 4 h.seqNum.toNat ++
    (beBytes 4 h.ackNum.toNat ++ ([(h.dataOffset <<< 4) &&& 0xF0] ++ ([h.flags] ++
      (beBytes 2 h.window.toNat ++ (beBytes 2 h.checksum.toNat ++ beBytes 2 h.urgentPtr.toNat)))))))

/-! ## Round trips -/

theorem length_serialize (h : TcpHeader) : h.serialize.length = 20 := by
  simp [serialize]

theorem field_append_right {a b : List UInt8} {i n : ℕ} (h : a.length ≤ i) :
    field (a ++ b) i n = field b (i - a.length) n := by
  rw [field, drop_append, drop_of_length_le h, nil_append, field]

variable {b : List UInt8} {x : UInt8}

theorem field_cons {i n : ℕ} (h : 1 ≤ i) : field (x :: b) i n = field b (i - 1) n :=
  field_append_right (a := [x]) h

theorem field_beBytes {k m : ℕ} (h : m < 256 ^ k) : field (beBytes k m ++ b) 0 k = m := by
  have hlen : (beBytes k m).length = k := length_beBytes
  rw [field, drop_zero, take_left' hlen, beVal_beBytes h]

@[simp] theorem field_u16 (x : UInt16) :
    field (beBytes 2 x.toNat ++ b) 0 2 = x.toNat := field_beBytes x.toNat_lt

@[simp] theorem field_u32 (x : UInt32) :
    field (beBytes 4 x.toNat ++ b) 0 4 = x.toNat := field_beBytes x.toNat_lt

/-- The data offset is read back from its half of the byte. -/
theorem shiftRight_shiftLeft (h : x < 16) : (((x <<< 4) &&& 0xF0) >>> 4) &&& 0x0F = x := by
  have hall : ∀ n < 16, (((UInt8.ofNat n <<< 4) &&& 0xF0) >>> 4) &&& 0x0F = UInt8.ofNat n := by
    decide
  have hx := hall x.toNat (UInt8.lt_iff_toNat_lt.1 h)
  rwa [UInt8.ofNat_toNat] at hx

/-- A header that is serialized, with options and payload after it, is read back. -/
theorem parse_serialize {h : TcpHeader} {rest : List UInt8} (hmin : 5 ≤ h.dataOffset)
    (hmax : h.dataOffset < 16) (hlen : h.dataOffset.toNat * 4 ≤ 20 + rest.length) :
    parse (h.serialize ++ rest) = .ok (h, rest.drop (h.dataOffset.toNat * 4 - 20)) := by
  have hmin' : 5 ≤ h.dataOffset.toNat := UInt8.le_iff_toNat_le.1 hmin
  have hlen' : (h.serialize ++ rest).length = 20 + rest.length := by
    rw [length_append, length_serialize]
  have hoffset : (h.serialize ++ rest).getD 12 0 = (h.dataOffset <<< 4) &&& 0xF0 := by
    simp [serialize, getElem?_append_right]
  have hflags : (h.serialize ++ rest).getD 13 0 = h.flags := by
    simp [serialize, getElem?_append_right]
  have hdrop : (h.serialize ++ rest).drop (h.dataOffset.toNat * 4) =
      rest.drop (h.dataOffset.toNat * 4 - 20) := by
    have hle : h.serialize.length ≤ h.dataOffset.toNat * 4 := by
      rw [length_serialize]
      omega
    rw [drop_append, drop_of_length_le hle, nil_append, length_serialize]
  rw [parse, if_neg (by rw [headerMinLen]; omega)]
  simp only [hoffset, hflags, shiftRight_shiftLeft hmax]
  rw [if_neg (UInt8.not_lt.2 hmin), if_neg (by rw [hlen']; omega), hdrop]
  -- What is left are the fields of the header, read from their places.
  simp [serialize, field_append_right, field_cons]

/-- A header without options is read back from what is sent. -/
theorem parse_serialize_of_no_options {h : TcpHeader} (ho : h.dataOffset = 5) :
    parse h.serialize = .ok (h, []) := by
  have hp : parse (h.serialize ++ []) = .ok (h, [].drop _) :=
    parse_serialize (ho ▸ UInt8.le_refl 5) (ho ▸ by decide) (ho ▸ by decide)
  rwa [drop_nil] at hp

end TcpHeader

open TcpFlags

inductive TcpState where
  | closed
  | listen
  | synSent
  | synReceived
  | established
  | finWait1
  | finWait2
  | closeWait
  | closing
  | lastAck
  | timeWait
  deriving DecidableEq

inductive TcpAction where
  | send (segment : List UInt8)
  | close
  | nothing
  deriving DecidableEq

structure TcpConnection where
  state : TcpState := .closed
  localPort : UInt16
  remotePort : UInt16 := 0
  /-- The next sequence number to send. -/
  sendNext : UInt32 := 0
  /-- The oldest sequence number that is not acknowledged. -/
  sendUna : UInt32 := 0
  /-- The next sequence number that is expected. -/
  recvNext : UInt32 := 0
  sendWindow : UInt16 := 0
  recvWindow : UInt16 := 65535
  deriving DecidableEq

/-- What a call answers, which may be something to do. -/
abbrev Answer := Except NetError (Option TcpAction)

/-- The answer that sends a header. -/
def sent (h : TcpHeader) : Answer := .ok (some (.send h.serialize))

/-- The answer that there is nothing to do. -/
def nothing : Answer := .ok (some .nothing)

namespace TcpConnection

def new (localPort : UInt16) : TcpConnection := { localPort := localPort }

variable (s : TcpConnection)

def makeHeader (flags : UInt8) : TcpHeader where
  srcPort := s.localPort
  dstPort := s.remotePort
  seqNum := s.sendNext
  ackNum := s.recvNext
  dataOffset := 5
  flags := flags
  window := s.recvWindow
  checksum := 0
  urgentPtr := 0

def listen : Answer × TcpConnection :=
  if s.state ≠ .closed then (.error .invalidProtocol, s)
  else (.ok none, { s with state := .listen })

/-- The SYN that opens the connection acknowledges nothing. -/
def connect (remotePort : UInt16) : Answer × TcpConnection :=
  if s.state ≠ .closed then (.error .invalidProtocol, s)
  else
    let s := { s with remotePort := remotePort, sendNext := 1000, sendUna := 1000 }
    (sent { (s.makeHeader SYN) with ackNum := 0 },
      { s with sendNext := s.sendNext + 1, state := .synSent })

def close : Answer × TcpConnection :=
  match s.state with
  | .established => (sent (s.makeHeader (FIN ||| ACK)),
      { s with sendNext := s.sendNext + 1, state := .finWait1 })
  | .closeWait => (sent (s.makeHeader (FIN ||| ACK)),
      { s with sendNext := s.sendNext + 1, state := .lastAck })
  | _ => (.error .invalidProtocol, s)

def handleListen (h : TcpHeader) : Answer × TcpConnection :=
  if !h.has SYN then (nothing, s)
  else
    let s := { s with
      remotePort := h.srcPort
      recvNext := h.seqNum + 1
      sendWindow := h.window
      sendNext := 2000
      sendUna := 2000 }
    (sent (s.makeHeader (SYN ||| ACK)),
      { s with sendNext := s.sendNext + 1, state := .synReceived })

def handleSynSent (h : TcpHeader) : Answer × TcpConnection :=
  if h.flags &&& (SYN ||| ACK) ≠ SYN ||| ACK then (nothing, s)
  else
    let s := { s with recvNext := h.seqNum + 1, sendUna := h.ackNum, sendWindow := h.window }
    (sent (s.makeHeader ACK), { s with state := .established })

def handleSynReceived (h : TcpHeader) : Answer × TcpConnection :=
  (nothing, if h.has ACK then { s with sendUna := h.ackNum, state := .established } else s)

/-- The acknowledgement in a segment is taken as it comes. -/
def noteAck (h : TcpHeader) : TcpConnection :=
  if h.has ACK then { s with sendUna := h.ackNum, sendWindow := h.window } else s

def handleEstablished (h : TcpHeader) (payload : List UInt8) : Answer × TcpConnection :=
  if h.has RST then (.ok (some .close), { s with state := .closed })
  else
    let s := s.noteAck h
    let dataLen := UInt32.ofNat payload.length
    if 0 < dataLen then
      let s := { s with recvNext := s.recvNext + dataLen }
      (sent (s.makeHeader ACK), s)
    else if h.has FIN then
      let s := { s with recvNext := s.recvNext + 1, state := .closeWait }
      (sent (s.makeHeader ACK), s)
    else (nothing, s)

def handleCloseWait : Answer × TcpConnection := (nothing, s)

def handleFinWait1 (h : TcpHeader) : Answer × TcpConnection :=
  if h.has ACK && h.has FIN then
    let s := { s with recvNext := h.seqNum + 1, state := .timeWait }
    (sent (s.makeHeader ACK), s)
  else if h.has ACK then (nothing, { s with sendUna := h.ackNum, state := .finWait2 })
  else if h.has FIN then
    let s := { s with recvNext := h.seqNum + 1, state := .closing }
    (sent (s.makeHeader ACK), s)
  else (nothing, s)

def handleFinWait2 (h : TcpHeader) : Answer × TcpConnection :=
  if h.has FIN then
    let s := { s with recvNext := h.seqNum + 1, state := .timeWait }
    (sent (s.makeHeader ACK), s)
  else (nothing, s)

def handleClosing (h : TcpHeader) : Answer × TcpConnection :=
  (nothing, if h.has ACK then { s with sendUna := h.ackNum, state := .timeWait } else s)

def handleLastAck (h : TcpHeader) : Answer × TcpConnection :=
  if h.has ACK then (.ok (some .close), { s with state := .closed }) else (nothing, s)

def onSegment (h : TcpHeader) (payload : List UInt8) : Answer × TcpConnection :=
  match s.state with
  | .listen => s.handleListen h
  | .synSent => s.handleSynSent h
  | .synReceived => s.handleSynReceived h
  | .established => s.handleEstablished h payload
  | .closeWait => s.handleCloseWait
  | .finWait1 => s.handleFinWait1 h
  | .finWait2 => s.handleFinWait2 h
  | .closing => s.handleClosing h
  | .lastAck => s.handleLastAck h
  | .timeWait | .closed => (nothing, s)

inductive Call where
  | listen
  | connect (remotePort : UInt16)
  | close
  | onSegment (h : TcpHeader) (payload : List UInt8)
  deriving DecidableEq

def step : Call → Option (Answer × TcpConnection)
  | .listen => some s.listen
  | .connect remotePort => some (s.connect remotePort)
  | .close => some s.close
  | .onSegment h payload => some (s.onSegment h payload)

/-! ## The moves of the machine -/

/-- The moves, by the state they start from. -/
inductive Moved (s : TcpConnection) : Call → Answer → TcpConnection → Prop
  /-- Nothing is sent and nothing changes. -/
  | stay {a : Call} {r : Answer} : (∀ b, r ≠ .ok (some (.send b))) → Moved s a r s
  | listen : s.state = .closed → Moved s .listen (.ok none) { s with state := .listen }
  | connect {port : UInt16} : s.state = .closed → Moved s (.connect port)
      (sent { (makeHeader { s with remotePort := port, sendNext := 1000 } SYN) with ackNum := 0 })
      { s with remotePort := port, sendNext := 1001, sendUna := 1000, state := .synSent }
  | close : s.state = .established → Moved s .close (sent (s.makeHeader (FIN ||| ACK)))
      { s with sendNext := s.sendNext + 1, state := .finWait1 }
  | closeWait : s.state = .closeWait → Moved s .close (sent (s.makeHeader (FIN ||| ACK)))
      { s with sendNext := s.sendNext + 1, state := .lastAck }
  | syn {h : TcpHeader} {payload : List UInt8} : s.state = .listen → h.has SYN →
      Moved s (.onSegment h payload)
        (sent (makeHeader
          { s with remotePort := h.srcPort, recvNext := h.seqNum + 1, sendNext := 2000 }
          (SYN ||| ACK)))
        { s with
          remotePort := h.srcPort
          recvNext := h.seqNum + 1
          sendWindow := h.window
          sendNext := 2001
          sendUna := 2000
          state := .synReceived }
  | synAck {h : TcpHeader} {payload : List UInt8} : s.state = .synSent → h.has SYN → h.has ACK →
      Moved s (.onSegment h payload)
        (sent (makeHeader { s with recvNext := h.seqNum + 1 } ACK))
        { s with
          recvNext := h.seqNum + 1
          sendUna := h.ackNum
          sendWindow := h.window
          state := .established }
  | synReceived {h : TcpHeader} {payload : List UInt8} : s.state = .synReceived → h.has ACK →
      Moved s (.onSegment h payload) nothing
        { s with sendUna := h.ackNum, state := .established }
  | reset {h : TcpHeader} {payload : List UInt8} : s.state = .established → h.has RST →
      Moved s (.onSegment h payload) (.ok (some .close)) { s with state := .closed }
  | data {h : TcpHeader} {payload : List UInt8} : s.state = .established → ¬h.has RST →
      0 < UInt32.ofNat payload.length → Moved s (.onSegment h payload)
        (sent (makeHeader { s with recvNext := s.recvNext + .ofNat payload.length } ACK))
        { s.noteAck h with recvNext := s.recvNext + .ofNat payload.length }
  | fin {h : TcpHeader} {payload : List UInt8} : s.state = .established → ¬h.has RST → h.has FIN →
      Moved s (.onSegment h payload) (sent (makeHeader { s with recvNext := s.recvNext + 1 } ACK))
        { s.noteAck h with recvNext := s.recvNext + 1, state := .closeWait }
  | ack {h : TcpHeader} {payload : List UInt8} : s.state = .established → ¬h.has RST →
      Moved s (.onSegment h payload) nothing (s.noteAck h)
  | finAck {h : TcpHeader} {payload : List UInt8} : s.state = .finWait1 → h.has ACK → h.has FIN →
      Moved s (.onSegment h payload) (sent (makeHeader { s with recvNext := h.seqNum + 1 } ACK))
        { s with recvNext := h.seqNum + 1, state := .timeWait }
  | finWait1 {h : TcpHeader} {payload : List UInt8} : s.state = .finWait1 → h.has ACK →
      Moved s (.onSegment h payload) nothing { s with sendUna := h.ackNum, state := .finWait2 }
  | bothFin {h : TcpHeader} {payload : List UInt8} : s.state = .finWait1 → h.has FIN →
      Moved s (.onSegment h payload) (sent (makeHeader { s with recvNext := h.seqNum + 1 } ACK))
        { s with recvNext := h.seqNum + 1, state := .closing }
  | finWait2 {h : TcpHeader} {payload : List UInt8} : s.state = .finWait2 → h.has FIN →
      Moved s (.onSegment h payload) (sent (makeHeader { s with recvNext := h.seqNum + 1 } ACK))
        { s with recvNext := h.seqNum + 1, state := .timeWait }
  | closing {h : TcpHeader} {payload : List UInt8} : s.state = .closing → h.has ACK →
      Moved s (.onSegment h payload) nothing { s with sendUna := h.ackNum, state := .timeWait }
  | lastAck {h : TcpHeader} {payload : List UInt8} : s.state = .lastAck → h.has ACK →
      Moved s (.onSegment h payload) (.ok (some .close)) { s with state := .closed }

variable {s}

variable {a : Call}

theorem stay_nothing : Moved s a nothing s := .stay fun _ => nofun

/-- Noting an acknowledgement changes nothing of what a header shows. -/
theorem makeHeader_noteAck (h : TcpHeader) (recvNext : UInt32) (state : TcpState) (flags : UInt8) :
    makeHeader { s.noteAck h with recvNext := recvNext, state := state } flags =
      makeHeader { s with recvNext := recvNext } flags := by
  rw [noteAck]
  split <;> rfl

theorem recvNext_noteAck (h : TcpHeader) : (s.noteAck h).recvNext = s.recvNext := by
  rw [noteAck]
  split <;> rfl

theorem state_noteAck (h : TcpHeader) : (s.noteAck h).state = s.state := by
  rw [noteAck]
  split <;> rfl

/-- A SYN that acknowledges has both flags. -/
theorem has_of_flags {h : TcpHeader} (hf : h.flags &&& (SYN ||| ACK) = SYN ||| ACK) :
    h.has SYN ∧ h.has ACK := by
  have hall : ∀ n < 256, UInt8.ofNat n &&& (SYN ||| ACK) = SYN ||| ACK →
      UInt8.ofNat n &&& SYN ≠ 0 ∧ UInt8.ofNat n &&& ACK ≠ 0 := by
    decide +kernel
  have hflags := hall h.flags.toNat h.flags.toNat_lt
  rw [UInt8.ofNat_toNat] at hflags
  exact ⟨decide_eq_true (hflags hf).1, decide_eq_true (hflags hf).2⟩

theorem moved_handleEstablished (h : TcpHeader) (payload : List UInt8)
    (hst : s.state = .established) :
    Moved s (.onSegment h payload) (s.handleEstablished h payload).1
      (s.handleEstablished h payload).2 := by
  rw [handleEstablished]
  dsimp only
  rw [recvNext_noteAck]
  split_ifs with hrst hlen hfin
  · exact .reset hst hrst
  · have hm := Moved.data hst hrst hlen
    rwa [← makeHeader_noteAck h _ (s.noteAck h).state] at hm
  · have hm : Moved s (.onSegment h payload) _ _ := .fin hst hrst hfin
    rwa [← makeHeader_noteAck h _ .closeWait] at hm
  · exact .ack hst hrst

theorem moved_handleFinWait1 (h : TcpHeader) (payload : List UInt8) (hst : s.state = .finWait1) :
    Moved s (.onSegment h payload) (s.handleFinWait1 h).1 (s.handleFinWait1 h).2 := by
  rw [handleFinWait1]
  split_ifs with hboth hack hfin
  · rw [Bool.and_eq_true] at hboth
    exact .finAck hst hboth.1 hboth.2
  · exact .finWait1 hst hack
  · exact .bothFin hst hfin
  · exact stay_nothing

theorem moved_onSegment (s : TcpConnection) (h : TcpHeader) (payload : List UInt8) :
    Moved s (.onSegment h payload) (s.onSegment h payload).1 (s.onSegment h payload).2 := by
  rw [onSegment]
  split
  · next hst =>
    rw [handleListen]
    split_ifs with hsyn
    · exact stay_nothing
    · exact .syn hst (by simpa using hsyn)
  · next hst =>
    rw [handleSynSent]
    split_ifs with hflags
    · exact stay_nothing
    · obtain ⟨hsyn, hack⟩ := has_of_flags (not_not.1 hflags)
      exact .synAck hst hsyn hack
  · next hst =>
    rw [handleSynReceived]
    split_ifs with hack
    · exact .synReceived hst hack
    · exact stay_nothing
  · next hst => exact moved_handleEstablished h payload hst
  · exact stay_nothing
  · next hst => exact moved_handleFinWait1 h payload hst
  · next hst =>
    rw [handleFinWait2]
    split_ifs with hfin
    · exact .finWait2 hst hfin
    · exact stay_nothing
  · next hst =>
    rw [handleClosing]
    split_ifs with hack
    · exact .closing hst hack
    · exact stay_nothing
  · next hst =>
    rw [handleLastAck]
    split_ifs with hack
    · exact .lastAck hst hack
    · exact stay_nothing
  · exact stay_nothing
  · exact stay_nothing

variable {s' : TcpConnection} {r : Answer}

theorem moved_of_step (h : s.step a = some (r, s')) : Moved s a r s' := by
  cases a with
  | listen =>
    have h := Option.some.inj h
    rw [TcpConnection.listen] at h
    split_ifs at h with hst
    · cases h
      exact .stay fun _ => nofun
    · cases h
      exact .listen (not_not.1 hst)
  | connect port =>
    have h := Option.some.inj h
    rw [TcpConnection.connect] at h
    split_ifs at h with hst
    · cases h
      exact .stay fun _ => nofun
    · cases h
      exact .connect (not_not.1 hst)
  | close =>
    have h := Option.some.inj h
    rw [TcpConnection.close] at h
    split at h
    · next hst =>
      cases h
      exact .close hst
    · next hst =>
      cases h
      exact .closeWait hst
    · cases h
      exact .stay fun _ => nofun
  | onSegment header payload =>
    have h := Option.some.inj h
    have hm := moved_onSegment s header payload
    rwa [h] at hm

/-- A segment that is sent is a header, and acknowledges what is expected next. -/
theorem Moved.exists_header {b : List UInt8} (hm : Moved s a r s') (hr : r = .ok (some (.send b))) :
    ∃ h : TcpHeader, b = h.serialize ∧ h.dataOffset = 5 ∧ (h.has ACK → h.ackNum = s'.recvNext) := by
  cases hm with
  | stay hne => exact absurd hr (hne b)
  | connect _ =>
    cases hr
    have hno : ¬SYN &&& ACK ≠ 0 := by decide
    exact ⟨_, rfl, rfl, fun hack => absurd (of_decide_eq_true hack) hno⟩
  | close _ | closeWait _ | syn _ _ | synAck _ _ _ | data _ _ _ | fin _ _ _ | finAck _ _ _
  | bothFin _ _ | finWait2 _ _ =>
    cases hr
    exact ⟨_, rfl, rfl, fun _ => rfl⟩
  | listen _ | synReceived _ _ | reset _ _ | ack _ _ | finWait1 _ _ | closing _ _ | lastAck _ _ =>
    cases hr

end TcpConnection

end SmallAIOS.Net.Tcp

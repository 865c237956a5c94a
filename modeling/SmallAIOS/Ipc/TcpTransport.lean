import SmallAIOS.Ipc.KeyExpr
import SmallAIOS.Lib.Bytes
import SmallAIOS.Lib.Run

/-!
# Frames over TCP

A frame is sent as the length of its body in four bytes, then its type, its
flags and its payload. The bytes of a stream of frames arrive in chunks that have
nothing to do with the frames: `TcpTransport.feedData` collects them, and
`TcpTransport.tryDecodeFrame` takes a frame off the front once it is complete.

However the stream is cut, and whenever decoding is tried, the frames come out
in order, each once all of its bytes are there, and nothing else does
(`run_decodes`).
-/

namespace SmallAIOS.Ipc

open Lib List Nat UInt8

/-- Frame types in the wire protocol. -/
inductive FrameType
  | init
  | initAck
  | «open»
  | openAck
  | close
  | keepAlive
  | data
  | query
  | reply
  deriving DecidableEq

namespace FrameType

/-- The byte of a frame type. -/
def toU8 : FrameType → UInt8
  | init => 0x01
  | initAck => 0x02
  | «open» => 0x03
  | openAck => 0x04
  | close => 0x05
  | keepAlive => 0x06
  | data => 0x10
  | query => 0x11
  | reply => 0x12

/-- The frame type of a byte. -/
def fromU8 (v : UInt8) : Option FrameType :=
  if v = 0x01 then some init
  else if v = 0x02 then some initAck
  else if v = 0x03 then some «open»
  else if v = 0x04 then some openAck
  else if v = 0x05 then some close
  else if v = 0x06 then some keepAlive
  else if v = 0x10 then some data
  else if v = 0x11 then some query
  else if v = 0x12 then some reply
  else none

@[simp] theorem fromU8_toU8 (t : FrameType) : fromU8 t.toU8 = some t := by
  cases t <;> rfl

end FrameType

/-- A single wire-protocol frame. -/
structure Frame where
  frameType : FrameType
  /-- Flags byte (interpretation depends on frame type). -/
  flags : UInt8
  payload : List UInt8
  deriving DecidableEq

open SmallAIOS.Ipc.Frame

namespace Frame

/-- Encode this frame into bytes; the length is truncated to 32 bits. -/
def encode (f : Frame) : List UInt8 :=
  let bodyLen := 2 + f.payload.length
  let len := bodyLen % 2 ^ 32
  [ofNat (len >>> 24), ofNat (len >>> 16), ofNat (len >>> 8), ofNat len,
    f.frameType.toU8, f.flags] ++ f.payload

/-- Decode a frame from bytes. Returns the frame and the number of bytes consumed. -/
def decode (data : List UInt8) : Except IpcError (Frame × ℕ) :=
  match data with
  | b₀ :: b₁ :: b₂ :: b₃ :: frameTypeByte :: flags :: rest =>
    let bodyLen := beVal [b₀, b₁, b₂, b₃]
    let total := 4 + bodyLen
    if data.length < total then .error .packetTooShort
    else if bodyLen < 2 then .error .packetTooShort
    else
      match FrameType.fromU8 frameTypeByte with
      | none => .error .invalidState
      | some frameType => .ok (⟨frameType, flags, rest.take (total - 6)⟩, total)
  | _ => .error .packetTooShort

end Frame

/-- The receiving side of a TCP transport: the bytes not yet decoded. -/
structure TcpTransport where
  rxBuffer : List UInt8

namespace TcpTransport

/-- A new TCP transport. -/
def new : TcpTransport := ⟨[]⟩

variable (t : TcpTransport)

/-- Append raw bytes to the receive buffer. -/
def feedData (data : List UInt8) : TcpTransport := ⟨t.rxBuffer ++ data⟩

/-- Attempt to decode one complete frame from the receive buffer. -/
def tryDecodeFrame : Except IpcError (Option Frame) × TcpTransport :=
  match t.rxBuffer with
  | b₀ :: b₁ :: b₂ :: b₃ :: _ :: _ :: _ =>
    let total := 4 + beVal [b₀, b₁, b₂, b₃]
    if t.rxBuffer.length < total then (.ok none, t)
    else
      match decode t.rxBuffer with
      | .error e => (.error e, t)
      | .ok (frame, consumed) => (.ok (some frame), ⟨t.rxBuffer.drop consumed⟩)
  | _ => (.ok none, t)

end TcpTransport

/-! ## A frame and the bytes it is sent as -/

/-- The length of the body fits into the four bytes for it. -/
def Frame.Short (f : Frame) : Prop := 2 + f.payload.length < 2 ^ 32

theorem beVal_shifts {n : ℕ} (h : n < 2 ^ 32) :
    beVal [ofNat (n >>> 24), ofNat (n >>> 16), ofNat (n >>> 8), ofNat n] = n := by
  have he : [ofNat (n >>> 24), ofNat (n >>> 16), ofNat (n >>> 8),
      ofNat n] = beBytes 4 n := by
    simp [beBytes, leBytes, Nat.shiftRight_eq_div_pow, Nat.div_div_eq_div_mul]
  rw [he, beVal_beBytes h]

variable {f : Frame}

/-- The bytes of a frame: four that say how long it is, and the rest. -/
theorem Frame.Short.encode_eq (h : f.Short) :
    ∃ b₀ b₁ b₂ b₃, f.encode = b₀ :: b₁ :: b₂ :: b₃ :: f.frameType.toU8 :: f.flags :: f.payload ∧
      beVal [b₀, b₁, b₂, b₃] = 2 + f.payload.length := by
  refine ⟨_, _, _, _, rfl, ?_⟩
  rw [mod_eq_of_lt h, beVal_shifts h]

theorem Frame.Short.length_encode (h : f.Short) : f.encode.length = 4 + (2 + f.payload.length) := by
  obtain ⟨b₀, b₁, b₂, b₃, he, -⟩ := h.encode_eq
  rw [he]
  simp only [length_cons]
  omega

/-- The bytes of a frame are complete, whatever comes after them. -/
theorem Frame.Short.complete (h : f.Short) (rx : List UInt8) :
    ¬ (f.encode ++ rx).length < 4 + (2 + f.payload.length) := by
  rw [length_append, h.length_encode]
  omega

/-- A frame is decoded from its bytes. -/
theorem Frame.Short.decode_append (h : f.Short) (rx : List UInt8) :
    decode (f.encode ++ rx) = .ok (f, f.encode.length) := by
  obtain ⟨b₀, b₁, b₂, b₃, he, hv⟩ := h.encode_eq
  have hcomplete := h.complete rx
  have hbody : ¬ 2 + f.payload.length < 2 := by omega
  have hpayload : 4 + (2 + f.payload.length) - 6 = f.payload.length := by omega
  rw [h.length_encode]
  rw [he] at hcomplete ⊢
  simp only [cons_append] at hcomplete ⊢
  rw [decode]
  simp only [hv, if_neg hcomplete, if_neg hbody, FrameType.fromU8_toU8, hpayload, take_left]

namespace TcpTransport

variable {t : TcpTransport} {frames : List Frame} {rx : List UInt8}

/-- A frame that is complete is decoded, and its bytes are removed. -/
theorem tryDecodeFrame_append (h : f.Short) (rx : List UInt8) :
    tryDecodeFrame ⟨f.encode ++ rx⟩ = (.ok (some f), ⟨rx⟩) := by
  obtain ⟨b₀, b₁, b₂, b₃, he, hv⟩ := h.encode_eq
  have hdecode := h.decode_append rx
  have hcomplete := h.complete rx
  have hdrop : (f.encode ++ rx).drop f.encode.length = rx := drop_left
  rw [he] at hdecode hcomplete hdrop ⊢
  simp only [cons_append] at hdecode hcomplete hdrop ⊢
  rw [tryDecodeFrame]
  simp only [hv, if_neg hcomplete, hdecode, hdrop]

/-- A frame that is not complete is left alone. -/
theorem tryDecodeFrame_of_prefix (h : f.Short) (hp : rx <+: f.encode) (hne : rx ≠ f.encode) :
    tryDecodeFrame ⟨rx⟩ = (.ok none, ⟨rx⟩) := by
  obtain ⟨b₀, b₁, b₂, b₃, he, hv⟩ := h.encode_eq
  have hlt := lt_of_le_of_ne hp.length_le fun hl => hne (hp.eq_of_length hl)
  rw [he] at hp hlt
  rw [tryDecodeFrame]
  split
  next c0 c1 c2 c3 _ _ _ hrx =>
    subst hrx
    simp only [cons_prefix_cons] at hp
    obtain ⟨rfl, rfl, rfl, rfl, -⟩ := hp
    rw [if_pos]
    simp only [length_cons] at hlt ⊢
    omega
  · rfl

/-- What a call of `tryDecodeFrame` does when the buffer is the start of what the frames are sent
    as: it takes off the first frame, or does nothing if that one is not complete. -/
theorem tryDecodeFrame_cases (hf : ∀ f ∈ frames, f.Short)
    (hp : t.rxBuffer <+: frames.flatMap encode) :
    (t.tryDecodeFrame = (.ok none, t) ∧
      (t.rxBuffer = frames.flatMap encode → frames = [])) ∨
    ∃ f frames' rx, frames = f :: frames' ∧ t.rxBuffer = f.encode ++ rx ∧
      t.tryDecodeFrame = (.ok (some f), ⟨rx⟩) := by
  obtain ⟨rx⟩ := t
  dsimp only at hp ⊢
  rcases frames with _ | ⟨f, frames⟩
  · rw [flatMap_nil, prefix_nil] at hp
    exact .inl ⟨by rw [hp]; rfl, fun _ => rfl⟩
  · have hshort := hf f mem_cons_self
    by_cases hc : f.encode <+: rx
    · obtain ⟨rx, rfl⟩ := hc
      exact .inr ⟨f, frames, rx, rfl, rfl, tryDecodeFrame_append hshort rx⟩
    · refine .inl ⟨?_, fun he => absurd ⟨_, he.symm⟩ hc⟩
      rcases prefix_or_prefix_of_prefix hp (prefix_append _ _) with h | h
      · exact tryDecodeFrame_of_prefix hshort h fun he => hc (he ▸ prefix_rfl)
      · exact absurd h hc

/-! ## Runs -/

inductive Op
  | feedData (chunk : List UInt8)
  | tryDecodeFrame

inductive Ret
  | fed
  | decoded (r : Except IpcError (Option Frame))

def step (t : TcpTransport) : Op → Ret × TcpTransport
  | .feedData chunk => (.fed, t.feedData chunk)
  | .tryDecodeFrame => (.decoded t.tryDecodeFrame.1, t.tryDecodeFrame.2)

/-- The bytes an operation feeds. -/
def Op.bytes : Op → List UInt8
  | feedData chunk => chunk
  | tryDecodeFrame => []

/-- The frame a call returned. -/
def Ret.frame? : Ret → Option Frame
  | decoded (.ok f) => f
  | _ => none

/-- The call did not return an error. -/
def Ret.Ok : Ret → Prop
  | decoded (.error _) => False
  | _ => True

/-- The bytes fed by a run. -/
def fed (ops : List Op) : List UInt8 := ops.flatMap Op.bytes

/-- The frames returned by a run. -/
def returned (rets : List Ret) : List Frame := rets.filterMap Ret.frame?

theorem returned_cons (r : Ret) (rets : List Ret) :
    returned (r :: rets) = r.frame?.toList ++ returned rets :=
  filterMap_cons_toList _ r rets

/-- A run that feeds the start of what the frames are sent as returns the first of them, and keeps
    the bytes after those. -/
theorem run_returned {ops : List Op} (hf : ∀ f ∈ frames, f.Short)
    (hp : t.rxBuffer ++ fed ops <+: frames.flatMap encode) :
    (∀ r ∈ (run step t ops).1, r.Ok) ∧
    returned (run step t ops).1 <+: frames ∧
    (returned (run step t ops).1).flatMap encode ++ (run step t ops).2.rxBuffer =
      t.rxBuffer ++ fed ops := by
  induction ops generalizing t frames with
  | nil => simp [run, returned, fed]
  | cons op ops ih =>
    cases op with
    | feedData chunk =>
      have hfed : t.rxBuffer ++ fed (.feedData chunk :: ops) =
          (t.feedData chunk).rxBuffer ++ fed ops := (append_assoc ..).symm
      rw [hfed] at hp ⊢
      obtain ⟨hok, hret, hbytes⟩ := ih hf hp
      exact ⟨forall_mem_cons.2 ⟨trivial, hok⟩, hret, hbytes⟩
    | tryDecodeFrame =>
      change _ ∧ _ ∧ _ = t.rxBuffer ++ fed ops
      have hrx := (prefix_append _ _).trans hp
      rcases tryDecodeFrame_cases hf hrx with ⟨he, -⟩ | ⟨f, frames', rx, rfl, hb, he⟩
      · obtain ⟨hok, hret, hbytes⟩ := ih hf hp
        simp only [run, step, he]
        exact ⟨forall_mem_cons.2 ⟨trivial, hok⟩, hret, hbytes⟩
      · rw [hb, append_assoc, flatMap_cons, prefix_append_right_inj] at hp
        obtain ⟨hok, hret, hbytes⟩ := ih (forall_mem_cons.1 hf).2 hp
        simp only [run, step, he, returned_cons]
        refine ⟨forall_mem_cons.2 ⟨trivial, hok⟩, ?_, ?_⟩
        · exact cons_prefix_cons.2 ⟨rfl, hret⟩
        · rw [hb, append_assoc, ← hbytes]
          simp [Ret.frame?]

/-- Once all bytes are there, calls of `tryDecodeFrame` return the frames. -/
theorem run_drain {n : ℕ} (hf : ∀ f ∈ frames, f.Short)
    (hb : t.rxBuffer = frames.flatMap encode) (hn : frames.length ≤ n) :
    returned (run step t (replicate n .tryDecodeFrame)).1 = frames ∧
      (run step t (replicate n .tryDecodeFrame)).2.rxBuffer = [] := by
  induction n generalizing t frames with
  | zero =>
    obtain rfl := length_eq_zero_iff.1 (le_zero.1 hn)
    exact ⟨rfl, hb⟩
  | succ n ih =>
    rcases tryDecodeFrame_cases hf ⟨[], by rw [hb, append_nil]⟩ with
      ⟨he, hnil⟩ | ⟨f, frames', rx, rfl, hc, he⟩
    · obtain rfl := hnil hb
      simp only [replicate_succ, run, step, he]
      exact ih hf hb (zero_le n)
    · rw [hc, flatMap_cons, append_cancel_left_eq] at hb
      obtain ⟨hret, hrx⟩ := ih (forall_mem_cons.1 hf).2 hb (le_of_succ_le_succ hn)
      simp only [replicate_succ, run, step, he, returned_cons, hret]
      exact ⟨rfl, hrx⟩

/-- However the bytes of some frames are cut into chunks, and whenever decoding is tried in between:
    no call fails, the frames are returned in order, and the bytes of those returned had all been
    fed, the others being in the buffer. Once all bytes are fed, a call that returns nothing has all
    frames returned before it and the buffer empty, and there is one after as many calls as there
    are frames. -/
theorem run_decodes {ops : List Op} (hf : ∀ f ∈ frames, 2 + f.payload.length < 2 ^ 32)
    (hp : fed ops <+: frames.flatMap encode) :
    (∀ r ∈ (run step new ops).1, r.Ok) ∧
    returned (run step new ops).1 <+: frames ∧
    (returned (run step new ops).1).flatMap encode ++ (run step new ops).2.rxBuffer =
      fed ops ∧
    (fed ops = frames.flatMap encode →
      ((run step new ops).2.tryDecodeFrame.1 = .ok none →
        returned (run step new ops).1 = frames ∧ (run step new ops).2.rxBuffer = []) ∧
      ∀ n ≥ frames.length,
        returned (run step new (ops ++ replicate n .tryDecodeFrame)).1 = frames ∧
        (run step new (ops ++ replicate n .tryDecodeFrame)).2.rxBuffer = []) := by
  obtain ⟨hok, ⟨rest, hrest⟩, hbytes⟩ := run_returned (t := new) hf hp
  change _ = fed ops at hbytes
  refine ⟨hok, ⟨rest, hrest⟩, hbytes, fun hall => ?_⟩
  -- The buffer has the bytes of the frames not returned yet.
  have hrx : (run step new ops).2.rxBuffer = rest.flatMap encode := by
    rw [hall, ← hrest, flatMap_append, append_cancel_left_eq] at hbytes
    exact hbytes
  have hf' : ∀ f ∈ rest, f.Short := fun f hm => hf f (hrest ▸ mem_append_right _ hm)
  constructor
  · intro hn
    rcases tryDecodeFrame_cases hf' ⟨[], by rw [hrx, append_nil]⟩ with
      ⟨-, hnil⟩ | ⟨f, _, rx, -, -, he⟩
    · obtain rfl := hnil hrx
      exact ⟨by simpa using hrest, hrx⟩
    · rw [he] at hn
      cases hn
  · intro n hn
    have hlen : rest.length ≤ n := by
      refine le_trans ?_ hn
      rw [← hrest, length_append]
      exact Nat.le_add_left ..
    obtain ⟨hret, hempty⟩ := run_drain hf' hrx hlen
    rw [run_append, returned, filterMap_append]
    exact ⟨(congrArg _ hret).trans hrest, hempty⟩

/-- A frame cut in the middle of its length, with a try in between. -/
theorem run_decodes_cut :
    (∀ f ∈ [Frame.mk .data 0 [7]], 2 + f.payload.length < 2 ^ 32) ∧
      returned (run step new [.feedData [0, 0], .tryDecodeFrame, .feedData [0, 3, 0x10, 0, 7],
        .tryDecodeFrame, .tryDecodeFrame]).1 = [⟨.data, 0, [7]⟩] := by
  have hf : ∀ f ∈ [Frame.mk .data 0 [7]], 2 + f.payload.length < 2 ^ 32 := by
    intro f hm
    rw [mem_singleton.1 hm]
    decide
  have hfed : fed [.feedData [0, 0], .tryDecodeFrame, .feedData [0, 3, 0x10, 0, 7],
      .tryDecodeFrame] = [Frame.mk .data 0 [7]].flatMap Frame.encode := by decide
  have h := run_decodes hf ⟨[], by rw [hfed, append_nil]⟩
  exact ⟨hf, ((h.2.2.2 hfed).2 1 (le_refl 1)).1⟩

end TcpTransport

end SmallAIOS.Ipc

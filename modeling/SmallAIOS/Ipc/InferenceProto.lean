import SmallAIOS.Ipc.KeyExpr
import SmallAIOS.Lib.Bytes
import SmallAIOS.Lib.Decoder
import SmallAIOS.Lib.Utf8

/-!
# Binary inference request/response protocol

A request or a response is a header of 24 bytes and a list of tensors; a tensor
holds a name, dimensions and data, each after its length. The decoder asks for
the bytes of a field before it reads it, the header in one go and the dimensions
of a tensor in one go.

A message whose lengths fit their fields is decoded from its encoding, and a
message cut short at any byte is refused (`inference_roundtrip`). Both come from
`Lib.Decodes`, field by field.
-/

namespace SmallAIOS.Ipc

open Lib List Nat Decoder

/-- Magic number identifying inference protocol packets ("ONNX"). -/
def inferenceMagic : ℕ := 0x4F4E4E58

/-- Current protocol version. -/
def protocolVersion : UInt8 := 1

/-! ## Fields -/

/-- Read a big-endian number of `k` bytes. -/
def readBe (k : ℕ) : Decoder IpcError UInt8 ℕ := do
  let bs ← take k .packetTooShort
  pure (beVal bs)

def readU8 : Decoder IpcError UInt8 UInt8 := do
  let n ← readBe 1
  pure (UInt8.ofNat n)

def readU32 : Decoder IpcError UInt8 UInt32 := do
  let n ← readBe 4
  pure (UInt32.ofNat n)

def readU64 : Decoder IpcError UInt8 UInt64 := do
  let n ← readBe 8
  pure (UInt64.ofNat n)

theorem decodes_readBe {k n : ℕ} (h : n < 256 ^ k) : Decodes (readBe k) (beBytes k n) n := by
  have hk : (beBytes k n).length = k := length_beBytes
  have := (Decodes.take (e := IpcError.packetTooShort) hk).map beVal
  rwa [beVal_beBytes h] at this

theorem decodes_readU8 (b : UInt8) : Decodes readU8 [b] b := by
  have := (decodes_readBe (k := 1) b.toNat_lt).map UInt8.ofNat
  rwa [beBytes, leBytes, UInt8.ofNat_toNat] at this

theorem decodes_readU32 (n : UInt32) : Decodes readU32 (beBytes 4 n.toNat) n := by
  have := (decodes_readBe (k := 4) n.toNat_lt).map UInt32.ofNat
  rwa [UInt32.ofNat_toNat] at this

theorem decodes_readU64 (n : UInt64) : Decodes readU64 (beBytes 8 n.toNat) n := by
  have := (decodes_readBe (k := 8) n.toNat_lt).map UInt64.ofNat
  rwa [UInt64.ofNat_toNat] at this

/-! ## Tensors -/

/-- Data type of tensor elements. -/
inductive TensorDataType
  | float32
  | float16
  | int8
  | int32
  | int64
  | uint8
  deriving DecidableEq

namespace TensorDataType

/-- The byte of a data type. -/
def toU8 : TensorDataType → UInt8
  | float32 => 1
  | float16 => 2
  | int8 => 3
  | int32 => 4
  | int64 => 5
  | uint8 => 6

/-- Convert from a raw byte. -/
def fromU8 (val : UInt8) : Except IpcError TensorDataType :=
  match val.toNat with
  | 1 => .ok float32
  | 2 => .ok float16
  | 3 => .ok int8
  | 4 => .ok int32
  | 5 => .ok int64
  | 6 => .ok uint8
  | _ => .error .invalidProtocol

theorem fromU8_toU8 (t : TensorDataType) : fromU8 t.toU8 = .ok t := by
  cases t <;> rfl

end TensorDataType

/-- A named tensor with shape and raw data. -/
structure TensorData where
  name : String
  dataType : TensorDataType
  shape : List UInt32
  /-- Raw tensor data bytes (layout depends on the data type). -/
  data : List UInt8
  deriving DecidableEq

namespace TensorData

/-- Encode this tensor into the wire format; the lengths are truncated to the
    width of their fields. -/
def encode (t : TensorData) : List UInt8 :=
  beBytes 2 ((utf8 t.name).length % 2 ^ 16) ++ utf8 t.name ++
    [t.dataType.toU8] ++
    beBytes 2 (t.shape.length % 2 ^ 16) ++ t.shape.flatMap (fun dim => beBytes 4 dim.toNat) ++
    beBytes 4 (t.data.length % 2 ^ 32) ++ t.data

/-- Decode a tensor from the wire format at the cursor. -/
def decode : Decoder IpcError UInt8 TensorData := do
  let nameLen ← readBe 2
  let nameBytes ← take nameLen .packetTooShort
  let name ← lift ((ofUtf8 nameBytes).elim (.error .invalidProtocol) .ok)
  let typeByte ← readU8
  let dataType ← lift (TensorDataType.fromU8 typeByte)
  let numDims ← readBe 2
  -- The dimensions are asked for in one go.
  need (4 * numDims) .packetTooShort
  let shape ← readU32.times numDims
  let dataLen ← readBe 4
  let data ← take dataLen .packetTooShort
  pure { name, dataType, shape, data }

/-- The lengths fit the fields they are sent in. -/
def Short (t : TensorData) : Prop :=
  (utf8 t.name).length < 2 ^ 16 ∧ t.shape.length < 2 ^ 16 ∧ t.data.length < 2 ^ 32
  deriving Decidable

theorem decodes {t : TensorData} (h : t.Short) : Decodes decode t.encode t := by
  obtain ⟨hname, hshape, hdata⟩ := h
  have hdims : Decodes (readU32.times t.shape.length) (t.shape.flatMap fun d => beBytes 4 d.toNat)
      t.shape := .times fun d _ => decodes_readU32 d
  rw [encode, mod_eq_of_lt hname, mod_eq_of_lt hshape, mod_eq_of_lt hdata]
  simp only [append_assoc]
  refine (decodes_readBe hname).bind ((Decodes.take rfl).bind ?_)
  rw [ofUtf8_utf8]
  refine .lift rfl ?_
  refine (decodes_readU8 _).bind ?_
  refine .lift (TensorDataType.fromU8_toU8 _) ?_
  refine (decodes_readBe hshape).bind (.need (hdims.bind ?_) ?_)
  · exact (decodes_readBe hdata).bind ((Decodes.take rfl).map _)
  · simp [mul_comm]

/-- The tensors of a message are decoded one after the other. -/
theorem decodes_times {ts : List TensorData} (h : ∀ t ∈ ts, t.Short) :
    Decodes (decode.times ts.length) (ts.flatMap encode) ts :=
  .times fun t ht => decodes (h t ht)

end TensorData

/-! ## Messages -/

/-- Type of inference request. -/
inductive InferenceRequestType
  | loadModel
  | unloadModel
  | runInference
  | getModelInfo
  deriving DecidableEq

namespace InferenceRequestType

/-- The byte of a request type. -/
def toU8 : InferenceRequestType → UInt8
  | loadModel => 1
  | unloadModel => 2
  | runInference => 3
  | getModelInfo => 4

/-- Convert from a raw byte. -/
def fromU8 (val : UInt8) : Except IpcError InferenceRequestType :=
  match val.toNat with
  | 1 => .ok loadModel
  | 2 => .ok unloadModel
  | 3 => .ok runInference
  | 4 => .ok getModelInfo
  | _ => .error .invalidProtocol

theorem fromU8_toU8 (t : InferenceRequestType) : fromU8 t.toU8 = .ok t := by
  cases t <;> rfl

end InferenceRequestType

/-- Every message starts with the magic number and the version. -/
theorem decodes_preamble {α : Type} {d : Decoder IpcError UInt8 α} {bytes : List UInt8} {a : α}
    (h : Decodes d bytes a) : Decodes (do
      let magic ← readBe 4
      check (magic = inferenceMagic) .invalidProtocol
      let version ← readU8
      check (version = protocolVersion) .invalidProtocol
      d) (beBytes 4 inferenceMagic ++ ([protocolVersion] ++ bytes)) a := by
  refine (decodes_readBe (by decide)).bind (.check rfl ?_)
  exact (decodes_readU8 _).bind (.check rfl h)

/-- An inference request message. -/
structure InferenceRequest where
  requestType : InferenceRequestType
  requestId : UInt64
  modelId : UInt32
  inputs : List TensorData
  timeoutMs : UInt32
  deriving DecidableEq

namespace InferenceRequest

/-- Encode this request into the binary wire format. -/
def encode (r : InferenceRequest) : List UInt8 :=
  beBytes 4 inferenceMagic ++ [protocolVersion] ++ [r.requestType.toU8] ++
    beBytes 8 r.requestId.toNat ++ beBytes 4 r.modelId.toNat ++ beBytes 4 r.timeoutMs.toNat ++
    beBytes 2 (r.inputs.length % 2 ^ 16) ++ r.inputs.flatMap TensorData.encode

/-- The decoder of a request. -/
def decoder : Decoder IpcError UInt8 InferenceRequest := do
  need 24 .packetTooShort
  let magic ← readBe 4
  check (magic = inferenceMagic) .invalidProtocol
  let version ← readU8
  check (version = protocolVersion) .invalidProtocol
  let typeByte ← readU8
  let requestType ← lift (InferenceRequestType.fromU8 typeByte)
  let requestId ← readU64
  let modelId ← readU32
  let timeoutMs ← readU32
  let numInputs ← readBe 2
  let inputs ← TensorData.decode.times numInputs
  pure { requestType, requestId, modelId, inputs, timeoutMs }

/-- Decode an inference request from binary wire format. -/
def decode (data : List UInt8) : Except IpcError InferenceRequest :=
  (decoder data 0).map Prod.fst

/-- The lengths fit the fields they are sent in. -/
def Short (r : InferenceRequest) : Prop :=
  r.inputs.length < 2 ^ 16 ∧ ∀ t ∈ r.inputs, t.Short
  deriving Decidable

theorem decodes {r : InferenceRequest} (h : r.Short) : Decodes decoder r.encode r := by
  obtain ⟨hn, hinputs⟩ := h
  rw [encode, mod_eq_of_lt hn]
  refine .need ?_ ?_
  · refine decodes_preamble ((decodes_readU8 _).bind ?_)
    refine .lift (InferenceRequestType.fromU8_toU8 _) ?_
    refine (decodes_readU64 _).bind ((decodes_readU32 _).bind ((decodes_readU32 _).bind ?_))
    exact (decodes_readBe hn).bind ((TensorData.decodes_times hinputs).map _)
  · simp only [length_append, length_beBytes, length_singleton]
    omega

end InferenceRequest

/-- Status codes for inference responses. -/
inductive ResponseStatus
  | ok
  | modelNotFound
  | invalidInput
  | inferenceError
  | timeout
  | internalError
  deriving DecidableEq

namespace ResponseStatus

/-- The byte of a status. -/
def toU8 : ResponseStatus → UInt8
  | ok => 0
  | modelNotFound => 1
  | invalidInput => 2
  | inferenceError => 3
  | timeout => 4
  | internalError => 5

/-- Convert from a raw byte. -/
def fromU8 (val : UInt8) : Except IpcError ResponseStatus :=
  match val.toNat with
  | 0 => .ok ok
  | 1 => .ok modelNotFound
  | 2 => .ok invalidInput
  | 3 => .ok inferenceError
  | 4 => .ok timeout
  | 5 => .ok internalError
  | _ => .error .invalidProtocol

theorem fromU8_toU8 (t : ResponseStatus) : fromU8 t.toU8 = .ok t := by
  cases t <;> rfl

end ResponseStatus

/-- An inference response message. -/
structure InferenceResponse where
  requestId : UInt64
  status : ResponseStatus
  outputs : List TensorData
  elapsedUs : UInt64
  deriving DecidableEq

open InferenceResponse

namespace InferenceResponse

/-- Encode this response into the binary wire format. -/
def encode (r : InferenceResponse) : List UInt8 :=
  beBytes 4 inferenceMagic ++ [protocolVersion] ++ beBytes 8 r.requestId.toNat ++
    [r.status.toU8] ++ beBytes 8 r.elapsedUs.toNat ++
    beBytes 2 (r.outputs.length % 2 ^ 16) ++ r.outputs.flatMap TensorData.encode

/-- The decoder of a response. -/
def decoder : Decoder IpcError UInt8 InferenceResponse := do
  need 24 .packetTooShort
  let magic ← readBe 4
  check (magic = inferenceMagic) .invalidProtocol
  let version ← readU8
  check (version = protocolVersion) .invalidProtocol
  let requestId ← readU64
  let statusByte ← readU8
  let status ← lift (ResponseStatus.fromU8 statusByte)
  let elapsedUs ← readU64
  let numOutputs ← readBe 2
  let outputs ← TensorData.decode.times numOutputs
  pure { requestId, status, outputs, elapsedUs }

/-- Decode an inference response from binary wire format. -/
def decode (data : List UInt8) : Except IpcError InferenceResponse :=
  (decoder data 0).map Prod.fst

/-- The lengths fit the fields they are sent in. -/
def Short (r : InferenceResponse) : Prop :=
  r.outputs.length < 2 ^ 16 ∧ ∀ t ∈ r.outputs, t.Short
  deriving Decidable

theorem decodes {r : InferenceResponse} (h : r.Short) : Decodes decoder r.encode r := by
  obtain ⟨hn, houtputs⟩ := h
  rw [encode, mod_eq_of_lt hn]
  refine .need ?_ ?_
  · refine decodes_preamble ((decodes_readU64 _).bind ((decodes_readU8 _).bind ?_))
    refine .lift (ResponseStatus.fromU8_toU8 _) ?_
    refine (decodes_readU64 _).bind ?_
    exact (decodes_readBe hn).bind ((TensorData.decodes_times houtputs).map _)
  · simp only [length_append, length_beBytes, length_singleton]
    omega

end InferenceResponse

/-- A message whose lengths fit their fields is decoded from its encoding, and a
    strict prefix of the encoding is refused. -/
theorem inference_roundtrip :
    (∀ r : InferenceRequest, r.Short → InferenceRequest.decode r.encode = .ok r ∧
      ∀ part, part <+: r.encode → part ≠ r.encode →
        ∃ e, InferenceRequest.decode part = .error e) ∧
    (∀ r : InferenceResponse, r.Short → decode r.encode = .ok r ∧
      ∀ part, part <+: r.encode → part ≠ r.encode → ∃ e, decode part = .error e) :=
  ⟨fun _ h => (InferenceRequest.decodes h).exact, fun _ h => (decodes h).exact⟩

/-- A request with a scalar input and a response without outputs. -/
theorem inference_roundtrip_scalar :
    InferenceRequest.decode (InferenceRequest.encode
        ⟨.runInference, 7, 1, [⟨"x", .int8, [], [5]⟩], 100⟩) =
      .ok ⟨.runInference, 7, 1, [⟨"x", .int8, [], [5]⟩], 100⟩ ∧
    decode (encode ⟨7, .timeout, [], 100⟩) = .ok ⟨7, .timeout, [], 100⟩ :=
  ⟨(inference_roundtrip.1 _ (by decide)).1, (inference_roundtrip.2 _ (by decide)).1⟩

end SmallAIOS.Ipc

import SmallAIOS.Lib.Bytes
import SmallAIOS.Lib.Utf8
import Mathlib.Data.Vector.Defs

/-!
# Security audit entries

An entry of the security audit log is serialised to 69 bytes, at fixed offsets
(`AuditEntry.serialize`). The operation is padded to the 32 bytes of its buffer,
and comes after its length. Nothing is lost: the entry is determined by its bytes
(`AuditEntry.serialize_injective`), and is read back from them but for what its
operation may hold (`AuditEntry.deserialize_serialize_iff`).
-/

namespace SmallAIOS.Security.Audit

open Lib UInt8
open List hiding Vector

/-- Top-level event category. -/
inductive EventCategory
  | capability
  | authentication
  | resource
  | inference
  | system
  | security
  deriving DecidableEq

/-- The discriminant of the category. -/
def EventCategory.toU8 : EventCategory → UInt8
  | capability => 0
  | authentication => 1
  | resource => 2
  | inference => 3
  | system => 4
  | security => 5

def EventCategory.fromU8 : UInt8 → Option EventCategory
  | 0 => some capability
  | 1 => some authentication
  | 2 => some resource
  | 3 => some inference
  | 4 => some system
  | 5 => some security
  | _ => none

/-- Event subcategory within a category. -/
inductive EventSubcategory
  | grant
  | revoke
  | deny
  | tlsSuccess
  | tlsFailure
  | allocation
  | exhaustion
  | request
  | completion
  | timeout
  | boot
  | shutdown
  | watchdog
  | gateAllowed
  | gateDenied
  | gatePermissivePass
  | policyUpdate
  deriving DecidableEq

/-- The discriminant of the subcategory. -/
def EventSubcategory.toU8 : EventSubcategory → UInt8
  | grant => 0
  | revoke => 1
  | deny => 2
  | tlsSuccess => 10
  | tlsFailure => 11
  | allocation => 20
  | exhaustion => 21
  | request => 30
  | completion => 31
  | timeout => 32
  | boot => 40
  | shutdown => 41
  | watchdog => 42
  | gateAllowed => 50
  | gateDenied => 51
  | gatePermissivePass => 52
  | policyUpdate => 53

def EventSubcategory.fromU8 : UInt8 → Option EventSubcategory
  | 0 => some grant
  | 1 => some revoke
  | 2 => some deny
  | 10 => some tlsSuccess
  | 11 => some tlsFailure
  | 20 => some allocation
  | 21 => some exhaustion
  | 30 => some request
  | 31 => some completion
  | 32 => some timeout
  | 40 => some boot
  | 41 => some shutdown
  | 42 => some watchdog
  | 50 => some gateAllowed
  | 51 => some gateDenied
  | 52 => some gatePermissivePass
  | 53 => some policyUpdate
  | _ => none

/-- The category the subcategory belongs to. -/
def EventSubcategory.category : EventSubcategory → EventCategory
  | grant | revoke | deny => .capability
  | tlsSuccess | tlsFailure => .authentication
  | allocation | exhaustion => .resource
  | request | completion | timeout => .inference
  | boot | shutdown | watchdog => .system
  | gateAllowed | gateDenied | gatePermissivePass | policyUpdate => .security

theorem EventCategory.fromU8_toU8 (c : EventCategory) : fromU8 c.toU8 = some c := by
  cases c <;> rfl

theorem EventSubcategory.fromU8_toU8 (c : EventSubcategory) : fromU8 c.toU8 = some c := by
  cases c <;> rfl

theorem EventCategory.toU8_injective : Function.Injective toU8 := fun a b h =>
  Option.some.inj (by rw [← fromU8_toU8, h, fromU8_toU8])

theorem EventSubcategory.toU8_injective : Function.Injective toU8 := fun a b h =>
  Option.some.inj (by rw [← fromU8_toU8, h, fromU8_toU8])

/-- A classified event. -/
structure AuditEventType where
  category : EventCategory
  subcategory : EventSubcategory
  deriving DecidableEq

def AuditEventType.toBytes (t : AuditEventType) : List UInt8 :=
  [t.category.toU8, t.subcategory.toU8]

/-- The event type, if the subcategory belongs to the category. -/
def AuditEventType.new (category : EventCategory) (subcategory : EventSubcategory) :
    Option AuditEventType :=
  if subcategory.category = category then some ⟨category, subcategory⟩ else none

def AuditEventType.fromBytes (b₀ b₁ : UInt8) : Option AuditEventType := do
  let category ← EventCategory.fromU8 b₀
  let subcategory ← EventSubcategory.fromU8 b₁
  new category subcategory

theorem AuditEventType.toBytes_injective : Function.Injective toBytes := by
  rintro ⟨c, d⟩ ⟨c', d'⟩ h
  obtain ⟨hc, hd⟩ := cons.inj h
  cases EventCategory.toU8_injective hc
  cases EventSubcategory.toU8_injective (singleton_inj.1 hd)
  rfl

/-- Result of an audited operation. -/
inductive AuditResult
  | success
  | failure
  deriving DecidableEq

def AuditResult.toU8 : AuditResult → UInt8
  | success => 0
  | failure => 1

def AuditResult.fromU8 : UInt8 → Option AuditResult
  | 0 => some success
  | 1 => some failure
  | _ => none

theorem AuditResult.fromU8_toU8 (r : AuditResult) : fromU8 r.toU8 = some r := by
  cases r <;> rfl

theorem AuditResult.toU8_injective : Function.Injective toU8 := fun a b h =>
  Option.some.inj (by rw [← fromU8_toU8, h, fromU8_toU8])

/-- Maximum length of the operation description stored inline. -/
def opMaxLen : ℕ := 32

/-- Short inline operation description: the bytes of the buffer after it are zero. -/
structure Operation where
  buf : Vector UInt8 32
  len : ℕ
  len_le : len ≤ opMaxLen
  padding : buf.toList.drop len = replicate (opMaxLen - len) 0
  deriving DecidableEq

namespace Operation

/-- The operation with the given bytes, truncated to what the buffer holds. -/
def ofBytes (bytes : List UInt8) : Operation where
  buf := ⟨(bytes.take opMaxLen ++ replicate (opMaxLen - bytes.length) 0).toArray, by
    simp only [size_toArray, length_append, length_take, length_replicate, opMaxLen]
    omega⟩
  len := min bytes.length opMaxLen
  len_le := Nat.min_le_right ..
  padding := by
    have hlen : min bytes.length opMaxLen = (bytes.take opMaxLen).length := by
      rw [length_take, Nat.min_comm]
    have hpad : opMaxLen - bytes.length = opMaxLen - min bytes.length opMaxLen := by omega
    rw [Vector.toList_mk, toList_toArray, hpad, hlen, drop_left]

/-- Create an operation from a string. Truncates to 32 bytes. -/
def new (s : String) : Operation := ofBytes (utf8 s)

/-- The operation as bytes. -/
def asBytes (op : Operation) : List UInt8 := op.buf.toList.take op.len

/-- The bytes padded with zeros to what the buffer holds. -/
def padded (op : Operation) : List UInt8 :=
  op.asBytes ++ replicate (opMaxLen - op.asBytes.length) 0

variable (bytes : List UInt8)

theorem asBytes_ofBytes : (ofBytes bytes).asBytes = bytes.take opMaxLen := by
  rw [asBytes, ofBytes, Vector.toList_mk, take_left']
  rw [length_take, Nat.min_comm]

theorem ofBytes_take : ofBytes (bytes.take opMaxLen) = ofBytes bytes := by
  have hlen : min (bytes.take opMaxLen).length opMaxLen = min bytes.length opMaxLen := by
    rw [length_take]
    omega
  have hpad : opMaxLen - (bytes.take opMaxLen).length = opMaxLen - bytes.length := by
    omega
  simp only [ofBytes, take_take, min_self, hlen, hpad]

theorem length_asBytes (op : Operation) : op.asBytes.length = op.len := by
  rw [asBytes, length_take, Vector.length_toList]
  exact Nat.min_eq_left op.len_le

theorem padded_eq (op : Operation) : op.padded = op.buf.toList := by
  rw [padded, length_asBytes, ← op.padding]
  exact take_append_drop ..

variable {op op' : Operation}

theorem ext_buf (hbuf : op.buf = op'.buf) (hlen : op.len = op'.len) : op = op' := by
  cases op
  cases hbuf
  cases hlen
  rfl

/-- The operation is determined by its length and its buffer. -/
theorem eq_of_serialized (hlen : ofNat op.asBytes.length = ofNat op'.asBytes.length)
    (hbuf : op.padded = op'.padded) : op = op' := by
  rw [padded_eq, padded_eq] at hbuf
  have hle := op.len_le
  have hle' := op'.len_le
  have hmod := congrArg toNat hlen
  rw [length_asBytes, length_asBytes, toNat_ofNat', toNat_ofNat'] at hmod
  rw [opMaxLen] at hle hle'
  exact ext_buf (Vector.toList_inj.1 hbuf) (by omega)

end Operation

/-- A single audit log entry. -/
structure AuditEntry where
  timestampNs : UInt64
  eventType : AuditEventType
  taskId : UInt64
  resourceType : UInt8
  resourceInstance : UInt64
  operation : Operation
  result : AuditResult
  capabilityId : UInt64
  deriving DecidableEq

namespace AuditEntry

/-- Size of a serialised entry. -/
def serializedSize : ℕ := 69

/-- The bytes of an entry, in a fixed layout. -/
def serialize (e : AuditEntry) : List UInt8 :=
  beBytes 8 e.timestampNs.toNat ++ (e.eventType.toBytes ++ (beBytes 8 e.taskId.toNat ++
    ([e.resourceType] ++ (beBytes 8 e.resourceInstance.toNat ++
      ([ofNat e.operation.asBytes.length] ++ (e.operation.padded ++
        ([e.result.toU8] ++ beBytes 8 e.capabilityId.toNat)))))))

variable (e : AuditEntry)

theorem length_serialize : e.serialize.length = serializedSize := by
  simp only [serialize, length_append, length_beBytes, AuditEventType.toBytes,
    Operation.padded_eq, Vector.length_toList, length_cons, length_nil, serializedSize]

theorem beBytes_toNat_inj {a b : UInt64} (h : beBytes 8 a.toNat = beBytes 8 b.toNat) : a = b :=
  UInt64.toNat_inj.1 ((beBytes_inj a.toNat_lt b.toNat_lt).1 h)

/-- The fields are at fixed offsets, so that an entry is determined by its bytes. -/
theorem serialize_injective : Function.Injective serialize := by
  intro e e' h
  obtain ⟨hts, h⟩ := append_inj h (by simp only [length_beBytes])
  obtain ⟨hev, h⟩ := append_inj h rfl
  obtain ⟨htask, h⟩ := append_inj h (by simp only [length_beBytes])
  obtain ⟨hrt, h⟩ := append_inj h rfl
  obtain ⟨hri, h⟩ := append_inj h (by simp only [length_beBytes])
  obtain ⟨hlen, h⟩ := append_inj h rfl
  obtain ⟨hop, h⟩ := append_inj h (by simp only [Operation.padded_eq, Vector.length_toList])
  obtain ⟨hres, hcap⟩ := append_inj h rfl
  have hop := Operation.eq_of_serialized (singleton_inj.1 hlen) hop
  have hres := AuditResult.toU8_injective (singleton_inj.1 hres)
  cases e
  cases beBytes_toNat_inj hts
  cases AuditEventType.toBytes_injective hev
  cases beBytes_toNat_inj htask
  cases singleton_inj.1 hrt
  cases beBytes_toNat_inj hri
  cases hop
  cases hres
  cases beBytes_toNat_inj hcap
  rfl

/-- The entry of a boot at the given time. -/
def bootAt (timestampNs : UInt64) : AuditEntry where
  timestampNs := timestampNs
  eventType := ⟨.system, .boot⟩
  taskId := 1
  resourceType := 0
  resourceInstance := 0
  operation := .ofBytes []
  result := .success
  capabilityId := 0

/-- The number in the eight bytes from `i` on. -/
def u64At (buf : List UInt8) (i : ℕ) : UInt64 := .ofNat (beVal ((buf.drop i).take 8))

/-- Read an entry back from its bytes. -/
def deserialize (buf : List UInt8) : Option AuditEntry := do
  let timestampNs := u64At buf 0
  let eventType ← AuditEventType.fromBytes (buf.getD 8 0) (buf.getD 9 0)
  let taskId := u64At buf 10
  let resourceType := buf.getD 18 0
  let resourceInstance := u64At buf 19
  let opLen := min (buf.getD 27 0).toNat opMaxLen
  let opStr ← ofUtf8 ((buf.drop 28).take opLen)
  let operation := Operation.new opStr
  let result ← AuditResult.fromU8 (buf.getD 60 0)
  let capabilityId := u64At buf 61
  some { timestampNs, eventType, taskId, resourceType, resourceInstance, operation, result,
         capabilityId }

/-- What is read back from the bytes of an entry. -/
theorem deserialize_serialize : deserialize e.serialize =
    (AuditEventType.new e.eventType.category e.eventType.subcategory).bind fun eventType =>
      (ofUtf8 e.operation.asBytes).bind fun opStr =>
        some { e with eventType, operation := .new opStr } := by
  have hu64 (x : UInt64) : beVal (beBytes 8 x.toNat) = x.toNat := beVal_beBytes x.toNat_lt
  have hle : e.operation.len ≤ 32 := e.operation.len_le
  have hlen : min (e.serialize.getD 27 0).toNat opMaxLen = e.operation.len := by
    have hat : e.serialize.getD 27 0 = ofNat e.operation.len := by
      simp [serialize, AuditEventType.toBytes, Operation.padded_eq, Operation.length_asBytes]
    rw [hat, toNat_ofNat', opMaxLen]
    omega
  have hop : (e.serialize.drop 28).take e.operation.len = e.operation.asBytes := by
    simp [serialize, drop_append, take_append, drop_of_length_le, AuditEventType.toBytes,
      Operation.padded_eq, Operation.asBytes, Nat.sub_eq_zero_of_le hle]
  simp only [deserialize, hlen, hop]
  simp [serialize, u64At, hu64, drop_append, drop_of_length_le, take_of_length_le,
    AuditEventType.toBytes, AuditEventType.fromBytes, EventCategory.fromU8_toU8,
    EventSubcategory.fromU8_toU8, AuditResult.fromU8_toU8, Operation.padded_eq]

/-- An entry is read back if its subcategory belongs to the category, and if the operation is not
    cut within a character. -/
theorem deserialize_serialize_iff (e : AuditEntry) (s : String) :
    deserialize { e with operation := .new s }.serialize = some { e with operation := .new s } ↔
      e.eventType.subcategory.category = e.eventType.category ∧
        (ofUtf8 ((utf8 s).take opMaxLen)).isSome := by
  rw [deserialize_serialize, AuditEventType.new, Operation.new, Operation.asBytes_ofBytes]
  by_cases hcat : e.eventType.subcategory.category = e.eventType.category
  · cases hs : ofUtf8 ((utf8 s).take opMaxLen) with
    | none => simp
    | some t =>
      have ht : Operation.new t = .new s := by
        rw [Operation.new, utf8_of_ofUtf8 hs, Operation.new, Operation.ofBytes_take]
      rw [← Operation.new]
      simp [hcat, ht]
  · simp [hcat]

/-- The operation is cut within its last character. -/
theorem cut_character_not_read_back :
    let s := "allocate the buffers of the café"
    deserialize { bootAt 0 with operation := .new s }.serialize = none := by
  intro s
  have hs : ofUtf8 ((utf8 s).take opMaxLen) = none := by decide +kernel
  rw [deserialize_serialize, Operation.new, Operation.asBytes_ofBytes, hs]
  rfl

end AuditEntry

end SmallAIOS.Security.Audit

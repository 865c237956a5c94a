import SmallAIOS.Lib.Bytes
import Mathlib.Data.Vector.Defs

/-!
# Boot-config records

A boot-config record says which system image to boot, and how far its update got.
On disk it fills a block of 4096 bytes, with the digest of what comes before at
the end. The digest, SHA-3-256, is a parameter.

Decoding is strict. What is encoded decodes to the same record with the digest
filled in, unless the caller put another magic or version in it
(`decodeRecord_encodeRecord`), in which case it does not decode
(`not_decodable_encodeRecord`).
-/

namespace SmallAIOS.Fs.BootConfig

open Lib
open List hiding Vector

abbrev Digest := Vector UInt8 32

def bootConfigMagic : Vector UInt8 8 := #v[83, 109, 65, 73, 79, 83, 66, 67]

def bootConfigVersion : UInt8 := 1

def bootConfigRecordSize : ℕ := 4096

def recordBodyLen : ℕ := 4064

/-- Which of the two double-buffered records this is. -/
inductive SlotPosition
  | slotX
  | slotY
  deriving DecidableEq

namespace SlotPosition

/-- The distance of the slot from the beginning of the partition, in blocks. -/
def lbaDelta : SlotPosition → ℕ
  | slotX => 0
  | slotY => 1

def other : SlotPosition → SlotPosition
  | slotX => slotY
  | slotY => slotX

variable {s t : SlotPosition}

@[simp] theorem other_other : s.other.other = s := by cases s <;> rfl

theorem other_ne : s.other ≠ s := by cases s <;> exact nofun

theorem eq_other_of_ne (h : t ≠ s) : t = s.other := by
  cases s <;> cases t <;> first | rfl | exact absurd rfl h

end SlotPosition

/-- Which system image is the boot target. -/
inductive ActiveSquashfsSlot
  | a
  | b
  deriving DecidableEq

namespace ActiveSquashfsSlot

def fromU8 : UInt8 → Option ActiveSquashfsSlot
  | 0 => some a
  | 1 => some b
  | _ => none

def asU8 : ActiveSquashfsSlot → UInt8
  | a => 0
  | b => 1

@[simp] theorem fromU8_asU8 (s : ActiveSquashfsSlot) : fromU8 s.asU8 = some s := by
  cases s <;> rfl

end ActiveSquashfsSlot

structure BootConfigRecord where
  magic : Vector UInt8 8
  version : UInt8
  valid : Bool
  activeSlot : ActiveSquashfsSlot
  tentative : Bool
  generation : UInt64
  bootSuccess : Bool
  recordHash : Digest
  deriving DecidableEq

/-- Errors of the block device. -/
inductive BlockError
  | mediaError
  | notPresent
  | timeout
  | badCrc
  | unaligned
  | outOfRange
  | deviceBusy
  deriving DecidableEq

inductive BootConfigError
  | bothSlotsInvalid
  | badMagic
  | unsupportedVersion (v : UInt8)
  | badRecordHash
  | badActiveSlot
  | badBufferLen
  | generationNotMonotonic
  | block (e : BlockError)
  deriving DecidableEq

namespace BootConfigRecord

/-- A fresh record, the digest of which is not yet computed. -/
def new (activeSlot : ActiveSquashfsSlot) (generation : UInt64) : BootConfigRecord where
  magic := bootConfigMagic
  version := bootConfigVersion
  valid := true
  activeSlot
  tentative := false
  generation
  bootSuccess := false
  recordHash := .replicate 32 0

/-- The magic and the version are the ones that decode. -/
def Current (rec : BootConfigRecord) : Prop :=
  rec.magic = bootConfigMagic ∧ rec.version = bootConfigVersion
  deriving Decidable

/-- The bytes before the digest. -/
def body (rec : BootConfigRecord) : List UInt8 :=
  rec.magic.toList ++ ([rec.version, rec.valid.toUInt8, rec.activeSlot.asU8,
    rec.tentative.toUInt8] ++ (leBytes 8 rec.generation.toNat ++
      (rec.bootSuccess.toUInt8 :: replicate (recordBodyLen - 21) 0)))

theorem length_body (rec : BootConfigRecord) : rec.body.length = recordBodyLen := by
  simp only [body, length_append, length_cons, Vector.length_toList,
    length_leBytes, length_replicate]
  decide

end BootConfigRecord

open BootConfigRecord

section Codec

variable (sha3 : List UInt8 → Digest)

/-- The bytes of a record on disk. -/
def encodeRecord (rec : BootConfigRecord) : List UInt8 := rec.body ++ (sha3 rec.body).toList

def decodeRecord (buf : List UInt8) : Except BootConfigError BootConfigRecord :=
  if buf.length ≠ bootConfigRecordSize then .error .badBufferLen
  else if buf.take 8 ≠ bootConfigMagic.toList then .error .badMagic
  else if buf.getD 8 0 ≠ bootConfigVersion then .error (.unsupportedVersion (buf.getD 8 0))
  else
    let hash := sha3 (buf.take recordBodyLen)
    if hash.toList ≠ buf.drop recordBodyLen then .error .badRecordHash
    else match ActiveSquashfsSlot.fromU8 (buf.getD 10 0) with
      | none => .error .badActiveSlot
      | some activeSlot => .ok
        { magic := bootConfigMagic
          version := buf.getD 8 0
          valid := buf.getD 9 0 != 0
          activeSlot
          tentative := buf.getD 11 0 != 0
          generation := UInt64.ofNat (leVal ((buf.drop 12).take 8))
          bootSuccess := buf.getD 20 0 != 0
          -- The trailer, which is the digest that was just computed.
          recordHash := hash }

/-- The record with its digest filled in. -/
def sealed (rec : BootConfigRecord) : BootConfigRecord := { rec with recordHash := sha3 rec.body }

end Codec

variable {sha3 : List UInt8 → Digest} {rec : BootConfigRecord} {buf : List UInt8}

theorem length_encodeRecord : (encodeRecord sha3 rec).length = bootConfigRecordSize := by
  rw [encodeRecord, length_append, length_body, Vector.length_toList]
  rfl

@[simp] theorem toUInt8_bne_zero (b : Bool) : (b.toUInt8 != 0) = b := by cases b <;> rfl

@[simp] theorem ofNat_leVal_leBytes (n : UInt64) :
    UInt64.ofNat (leVal (leBytes 8 n.toNat)) = n := by
  rw [leVal_leBytes n.toNat_lt, UInt64.ofNat_toNat]

/-- The fields are found where they were put. -/
theorem fields_append {m g rest : List UInt8} {v w s t x : UInt8} (hm : m.length = 8)
    (hg : g.length = 8) (hbuf : buf = m ++ ([v, w, s, t] ++ (g ++ (x :: rest)))) :
    buf.take 8 = m ∧ buf.getD 8 0 = v ∧ buf.getD 9 0 = w ∧ buf.getD 10 0 = s ∧
      buf.getD 11 0 = t ∧ (buf.drop 12).take 8 = g ∧ buf.getD 20 0 = x := by
  subst hbuf
  refine ⟨?_, ?_, ?_, ?_, ?_, ?_, ?_⟩ <;>
    simp [take_append, drop_append, getElem?_append, hm, hg]

theorem encodeRecord_eq (sha3 : List UInt8 → Digest) (rec : BootConfigRecord) :
    encodeRecord sha3 rec = rec.magic.toList ++ ([rec.version, rec.valid.toUInt8,
      rec.activeSlot.asU8, rec.tentative.toUInt8] ++ (leBytes 8 rec.generation.toNat ++
        (rec.bootSuccess.toUInt8 ::
          (replicate (recordBodyLen - 21) 0 ++ (sha3 rec.body).toList)))) := by
  simp only [encodeRecord, body, append_assoc, cons_append]

/-- A record with the right magic and version is read back. -/
theorem decodeRecord_encodeRecord (h : rec.Current) :
    decodeRecord sha3 (encodeRecord sha3 rec) = .ok (sealed sha3 rec) := by
  obtain ⟨hmagic, hversion, hvalid, hslot, htentative, hgen, hsuccess⟩ :=
    fields_append Vector.length_toList length_leBytes (encodeRecord_eq sha3 rec)
  have hbody : (encodeRecord sha3 rec).take recordBodyLen = rec.body :=
    take_left' rec.length_body
  have htrailer : (encodeRecord sha3 rec).drop recordBodyLen = (sha3 rec.body).toList :=
    drop_left' rec.length_body
  simp only [decodeRecord, length_encodeRecord, hmagic, hversion, hvalid, hslot, htentative, hgen,
    hsuccess, hbody, htrailer, h.1, h.2, ne_eq, not_true, if_false,
    ActiveSquashfsSlot.fromU8_asU8, toUInt8_bne_zero, ofNat_leVal_leBytes]
  rw [sealed, h.1, h.2]

/-- A record with another magic or version is written all the same, and is not read back. -/
theorem not_decodable_encodeRecord (h : ¬ rec.Current) :
    ∃ e, decodeRecord sha3 (encodeRecord sha3 rec) = .error e := by
  obtain ⟨hmagic, hversion, -⟩ :=
    fields_append Vector.length_toList length_leBytes (encodeRecord_eq sha3 rec)
  rw [decodeRecord, if_neg (not_not.2 length_encodeRecord), hmagic, hversion]
  by_cases hm : rec.magic = bootConfigMagic
  · have hv : rec.version ≠ bootConfigVersion := fun hv => h ⟨hm, hv⟩
    rw [if_neg (not_not.2 (congrArg _ hm)), if_pos hv]
    exact ⟨_, rfl⟩
  · rw [if_pos (mt Vector.toList_inj.1 hm)]
    exact ⟨_, rfl⟩

/-- What a record that is written decodes to. -/
def readBack (sha3 : List UInt8 → Digest) (rec : BootConfigRecord) : Option BootConfigRecord :=
  if rec.Current then some (sealed sha3 rec) else none

theorem eq_sealed_of_mem_readBack {r : BootConfigRecord} (h : r ∈ readBack sha3 rec) :
    r = sealed sha3 rec := by
  unfold readBack at h
  split at h
  · exact (Option.some.inj h).symm
  · cases h

theorem toOption_decodeRecord_encodeRecord :
    (decodeRecord sha3 (encodeRecord sha3 rec)).toOption = readBack sha3 rec := by
  unfold readBack
  split
  · next h => rw [decodeRecord_encodeRecord h, Except.toOption]
  · next h =>
    obtain ⟨e, he⟩ := not_decodable_encodeRecord h
    rw [he, Except.toOption]

/-- What is read back has the right magic and version. -/
theorem current_of_decodeRecord (h : decodeRecord sha3 buf = .ok rec) : rec.Current := by
  unfold decodeRecord at h
  dsimp only at h
  split_ifs at h with _ _ hversion _
  split at h
  · cases h
  · cases h
    exact ⟨rfl, not_not.1 hversion⟩

/-- The generation in the bytes of a record. -/
def generationAt (buf : List UInt8) : UInt64 := UInt64.ofNat (leVal ((buf.drop 12).take 8))

theorem generationAt_encodeRecord (sha3 : List UInt8 → Digest) (rec : BootConfigRecord) :
    generationAt (encodeRecord sha3 rec) = rec.generation := by
  obtain ⟨-, -, -, -, -, hgen, -⟩ :=
    fields_append Vector.length_toList length_leBytes (encodeRecord_eq sha3 rec)
  rw [generationAt, hgen, ofNat_leVal_leBytes]

end SmallAIOS.Fs.BootConfig

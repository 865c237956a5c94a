import SmallAIOS.Fs.Overlay.Upper
import Mathlib.Data.Vector.Defs

/-!
# The fingerprint of a model

Next to a model's file is a sidecar with the digest of its bytes in hexadecimal. A
model is loaded if its bytes have the digest of the sidecar (`verifyFingerprint`).

* `decodeHex_encodeHex`: a sidecar as it is written reads back as the digest;
* `readSidecarDigest_eq`, `verifyFingerprint_of_digest`: how a model is verified in the
  writable upper layer, by what is found under its two keys.
-/

namespace SmallAIOS.Fs.Overlay

open Lib MockWritableUpperLayer UInt8
open List hiding Vector

abbrev Digest := Vector UInt8 32

inductive IntegrityError
  | sidecarMissing
  | sidecarMalformed
  | hashMismatch
  | io (e : UpperError)
  deriving DecidableEq

def sha3SidecarPath (name : Path) : Path := name ++ ".sha3".toList

def sigSidecarPath (name : Path) : Path := name ++ ".sig".toList

/-! ## Hexadecimal digests -/

/-- The digit of a value below 16. -/
def hexDigit (n : UInt8) : UInt8 := if n < 10 then 48 + n else 87 + n

/-- The digits of the bytes, the upper half of each before the lower one. -/
def encodeBytes : List UInt8 → List UInt8
  | [] => []
  | b :: bytes => hexDigit (b >>> 4) :: hexDigit (b &&& 0x0f) :: encodeBytes bytes

def encodeHex (digest : Digest) : List UInt8 := encodeBytes digest.toList

def decodeNibble (b : UInt8) : Option UInt8 :=
  if 48 ≤ b ∧ b ≤ 57 then some (b - 48)
  else if 97 ≤ b ∧ b ≤ 102 then some (10 + b - 97)
  else none

/-- Read the digits two by two. -/
def decodePairs : List UInt8 → Option (List UInt8)
  | a :: b :: rest => do
    let hi ← decodeNibble a
    let lo ← decodeNibble b
    let bytes ← decodePairs rest
    return (hi <<< 4 ||| lo) :: bytes
  | _ => some []

/-- Read 64 digits. Bytes that are not UTF-8 have one that is no digit. -/
def decodeHex (s : List UInt8) : Option (List UInt8) :=
  if s.length ≠ 64 then none else decodePairs s

theorem decode_hexDigit (b : UInt8) :
    decodeNibble (hexDigit (b >>> 4)) = some (b >>> 4) ∧
      decodeNibble (hexDigit (b &&& 0x0f)) = some (b &&& 0x0f) ∧
      ((b >>> 4) <<< 4 ||| b &&& 0x0f) = b := by
  have h : ∀ n : Fin 256, decodeNibble (hexDigit (ofFin n >>> 4)) =
      some (ofFin n >>> 4) ∧ decodeNibble (hexDigit (ofFin n &&& 0x0f)) = some (ofFin n &&& 0x0f) ∧
      ((ofFin n >>> 4) <<< 4 ||| ofFin n &&& 0x0f) = ofFin n := by
    decide +kernel
  have := h b.toFin
  rwa [ofFin_toFin] at this

variable (bytes : List UInt8)

theorem decodePairs_encodeBytes : decodePairs (encodeBytes bytes) = some bytes := by
  induction bytes with
  | nil => rfl
  | cons b bytes ih =>
    obtain ⟨hhi, hlo, hb⟩ := decode_hexDigit b
    rw [encodeBytes, decodePairs, hhi, hlo, ih]
    simp only [Option.bind_eq_bind, Option.bind_some, Option.pure_def, hb]

theorem length_encodeBytes : (encodeBytes bytes).length = 2 * bytes.length := by
  induction bytes with
  | nil => rfl
  | cons b bytes ih =>
    rw [encodeBytes, length_cons, length_cons, length_cons]
    omega

/-- A digest that is written reads back. -/
theorem decodeHex_encodeHex (digest : Digest) :
    decodeHex (encodeHex digest) = some digest.toList := by
  have hlen : (encodeHex digest).length = 64 := by
    rw [encodeHex, length_encodeBytes, Vector.length_toList]
  rw [decodeHex, if_neg (not_not.2 hlen), encodeHex, decodePairs_encodeBytes]

theorem encodeHex_injective {d d' : Digest} (h : encodeHex d = encodeHex d') : d = d' := by
  have := decodeHex_encodeHex d
  rw [h, decodeHex_encodeHex, Option.some.injEq] at this
  exact (Vector.toList_inj.1 this).symm

/-! ## Verifying a model -/

variable (upper : UpperLayer) (sha3 : List UInt8 → Digest)

/-- Read the file from where it is filled up to its size, until a read returns nothing. -/
def readLoop (path : Path) (size filled : ℕ) (out : List UInt8) :
    Except IntegrityError (List UInt8) :=
  if filled < size then
    match upper.readFile path filled (size - filled) with
    | .error e => .error (.io e)
    | .ok bytes =>
      if bytes = [] then .ok out
      else readLoop path size (filled + bytes.length) (out ++ bytes)
  else .ok out
termination_by size - filled
decreasing_by
  have := length_pos_iff.2 ‹bytes ≠ []›
  omega

def readFull (path : Path) : Except IntegrityError (List UInt8) :=
  match upper.lookup path with
  | .error e => .error (.io e)
  | .ok none => .error (.io .notFound)
  | .ok (some entry) =>
    if entry.kind ≠ .regularFile then .error (.io .notARegularFile)
    else readLoop upper path entry.size 0 []

/-- The digest the sidecar holds. -/
def readSidecarDigest (path : Path) : Except IntegrityError (List UInt8) :=
  match upper.lookup path with
  | .error e => .error (.io e)
  | .ok none => .error .sidecarMissing
  | .ok (some entry) =>
    if entry.kind = .regularFile then do
      let raw ← readFull upper path
      match decodeHex raw with
      | some digest => .ok digest
      | none => .error .sidecarMalformed
    else .error .sidecarMalformed

/-- The bytes of the model, if they have the digest of its sidecar. -/
def verifyFingerprint (name : Path) : Except IntegrityError (List UInt8) := do
  let expected ← readSidecarDigest upper (sha3SidecarPath name)
  let bytes ← readFull upper name
  if (sha3 bytes).toList ≠ expected then .error .hashMismatch else .ok bytes

/-! ## Verifying a model of the writable upper layer -/

section

variable {u : MockWritableUpperLayer} {path name : Path} {bytes : List UInt8}
  {sha3 : List UInt8 → Digest}

/-- One read returns the rest of the file. -/
theorem readFull_of_fileAt (h : u.fileAt (normalize path) = some bytes) :
    readFull u.toUpperLayer path = .ok bytes := by
  have hf : u.files.get? (normalize path) = some bytes := by
    rw [fileAt] at h
    split_ifs at h
    exact h
  rw [readFull, u.toUpperLayer_lookup, u.lookup_of_fileAt h]
  simp only [ne_eq, not_true_eq_false, if_false]
  rw [readLoop]
  by_cases hb : bytes = []
  · rw [hb, if_neg (by decide)]
  · have hpos := length_pos_iff.2 hb
    have hread : u.toUpperLayer.readFile path 0 (bytes.length - 0) = .ok bytes := by
      simp [toUpperLayer, readFile, hf]
    rw [if_pos hpos, hread]
    simp only [if_neg hb]
    rw [readLoop, if_neg (by omega), nil_append]

/-- What reading the sidecar comes to. -/
theorem readSidecarDigest_eq :
    readSidecarDigest u.toUpperLayer path =
      match u.fileAt (normalize path) with
      | some raw => (decodeHex raw).elim (.error .sidecarMalformed) .ok
      | none => if u.NothingAt (normalize path) then .error .sidecarMissing
          else .error .sidecarMalformed := by
  rw [readSidecarDigest, u.toUpperLayer_lookup]
  cases hf : u.fileAt (normalize path) with
  | some raw =>
    rw [u.lookup_of_fileAt hf, readFull_of_fileAt hf]
    simp only [bind, Except.bind]
    cases decodeHex raw <;> rfl
  | none =>
    by_cases hn : u.NothingAt (normalize path)
    · rw [u.lookup_of_nothingAt hn]
      exact (if_pos hn).symm
    · obtain ⟨e, he, hk⟩ := u.lookup_of_fileAt_eq_none hf hn
      rw [he]
      exact (if_neg hk).trans (if_neg hn).symm

theorem verifyFingerprint_of_error {e : IntegrityError}
    (h : readSidecarDigest u.toUpperLayer (sha3SidecarPath name) = .error e) :
    verifyFingerprint u.toUpperLayer sha3 name = .error e := by
  simp only [verifyFingerprint, h, bind, Except.bind]

/-- How a model with a readable sidecar is verified. -/
theorem verifyFingerprint_of_digest {digest : List UInt8}
    (h : readSidecarDigest u.toUpperLayer (sha3SidecarPath name) = .ok digest) :
    verifyFingerprint u.toUpperLayer sha3 name =
      match u.fileAt (normalize name) with
      | some bytes => if (sha3 bytes).toList = digest then .ok bytes else .error .hashMismatch
      | none => if u.NothingAt (normalize name) then .error (.io .notFound)
          else .error (.io .notARegularFile) := by
  simp only [verifyFingerprint, h]
  cases hf : u.fileAt (normalize name) with
  | some bytes =>
    rw [readFull_of_fileAt hf]
    exact ite_not ..
  | none =>
    by_cases hn : u.NothingAt (normalize name)
    · rw [readFull, u.toUpperLayer_lookup, u.lookup_of_nothingAt hn]
      exact (if_pos hn).symm
    · obtain ⟨e, he, hk⟩ := u.lookup_of_fileAt_eq_none hf hn
      rw [readFull, u.toUpperLayer_lookup, he, if_neg hn]
      dsimp only
      rw [if_pos hk]
      rfl

end

end SmallAIOS.Fs.Overlay

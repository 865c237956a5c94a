import SmallAIOS.Lib.Bytes
import SmallAIOS.Lib.Decoder
import SmallAIOS.Lib.Utf8

/-!
# Persisted immudb state

The exporter keeps the last signed state of the server in a file: a header with a
magic number and a version, the transaction, and four fields of variable length,
each after its length.

A state whose fields are within the cap is read back from its file, and a file that
a torn write has left with fewer bytes is refused (`persistedState_roundtrip`).
-/

namespace SmallAIOS.AuditExport.Immudb

open Lib List Decoder

/-- Magic header bytes for the on-disk format. -/
def magic : List UInt8 := utf8 "SAIOSAEX"

/-- Format version. -/
def formatVersion : UInt8 := 1

/-- Per-field cap when decoding. -/
def maxFieldLen : ℕ := 64 * 1024

/-- Errors the codec may surface. -/
inductive StateCodecError
  | truncated
  | badMagic
  | unsupportedVersion
  | oversizedField
  | invalidUtf8
  deriving DecidableEq

/-- What is cached on disk after each successful `verifiableSet`. -/
structure PersistedState where
  db : String
  txId : UInt64
  txHash : List UInt8
  publicKey : List UInt8
  signature : List UInt8
  deriving DecidableEq

/-- A field after its length, which is cut to 32 bits. -/
def encodeBlob (bytes : List UInt8) : List UInt8 := leBytes 4 bytes.length ++ bytes

def decodeBlob : Decoder StateCodecError UInt8 (List UInt8) := do
  let len ← take 4 .truncated
  check (leVal len ≤ maxFieldLen) .oversizedField
  take (leVal len) .truncated

theorem decodes_decodeBlob {bytes : List UInt8} (h : bytes.length ≤ maxFieldLen) :
    Decodes decodeBlob (encodeBlob bytes) bytes := by
  have hlt : bytes.length < 256 ^ 4 := h.trans_lt (by decide)
  have hval := leVal_leBytes hlt
  exact .bind (.take length_leBytes) (.check (hval.trans_le h) (.take hval.symm))

namespace PersistedState

/-- Serialize to the canonical on-disk byte form. -/
def encode (s : PersistedState) : List UInt8 :=
  magic ++ ([formatVersion] ++ (replicate 7 0 ++ (leBytes 8 s.txId.toNat ++
    (encodeBlob s.txHash ++ (encodeBlob s.publicKey ++
      (encodeBlob s.signature ++ encodeBlob (utf8 s.db)))))))

/-- Read a state at the cursor. -/
def decoder : Decoder StateCodecError UInt8 PersistedState := do
  need (8 + 1 + 7 + 8) .truncated
  let header ← take 8 .truncated
  check (header = magic) .badMagic
  let version ← take 1 .truncated
  check (version = [formatVersion]) .unsupportedVersion
  -- The reserved bytes are not looked at.
  let _ ← take 7 .truncated
  let txIdBytes ← take 8 .truncated
  let txHash ← decodeBlob
  let publicKey ← decodeBlob
  let signature ← decodeBlob
  let dbBytes ← decodeBlob
  let db ← lift ((ofUtf8 dbBytes).elim (.error .invalidUtf8) .ok)
  pure { db, txId := UInt64.ofNat (leVal txIdBytes), txHash, publicKey, signature }

/-- Decode from the canonical on-disk byte form. -/
def decode (input : List UInt8) : Except StateCodecError PersistedState :=
  (decoder input 0).map Prod.fst

/-- Every field is within the cap. -/
def Small (s : PersistedState) : Prop :=
  ∀ field ∈ [s.txHash, s.publicKey, s.signature, utf8 s.db], field.length ≤ maxFieldLen
  deriving Decidable

theorem decodes {s : PersistedState} (h : s.Small) : Decodes decoder s.encode s := by
  simp only [Small, forall_mem_cons] at h
  obtain ⟨hhash, hkey, hsig, hdb, -⟩ := h
  have hmagic : magic.length = 8 := by decide +kernel
  have htx : UInt64.ofNat (leVal (leBytes 8 s.txId.toNat)) = s.txId := by
    rw [leVal_leBytes s.txId.toNat_lt, UInt64.ofNat_toNat]
  refine .need ?_ (by simp only [encode, length_append, length_leBytes, length_replicate,
    length_singleton]; omega)
  refine .bind (.take hmagic) (.check rfl (.bind (.take rfl) (.check rfl (.bind (.take rfl)
    (.bind (.take length_leBytes) (.bind (decodes_decodeBlob hhash)
      (.bind (decodes_decodeBlob hkey) (.bind (decodes_decodeBlob hsig) ?_))))))))
  rw [← append_nil (encodeBlob (utf8 s.db)), htx]
  exact .bind (decodes_decodeBlob hdb) (.lift (by rw [ofUtf8_utf8]; rfl) (.pure s))

/-- A state is read back from its encoding, and every strict prefix of the encoding is refused. -/
theorem persistedState_roundtrip (s : PersistedState) (h : s.Small) :
    decode s.encode = .ok s ∧
      ∀ part, part <+: s.encode → part ≠ s.encode → ∃ e, decode part = .error e :=
  (decodes h).exact

/-- A state with a hash, whose key and signature are not known. -/
theorem persistedState_roundtrip_named :
    decode (encode ⟨"audit", 7, [1, 2, 3], [], []⟩) = .ok ⟨"audit", 7, [1, 2, 3], [], []⟩ ∧
      ∀ part, part <+: encode ⟨"audit", 7, [1, 2, 3], [], []⟩ →
        part ≠ encode ⟨"audit", 7, [1, 2, 3], [], []⟩ → ∃ e, decode part = .error e :=
  persistedState_roundtrip _ (by decide +kernel)

end PersistedState

end SmallAIOS.AuditExport.Immudb

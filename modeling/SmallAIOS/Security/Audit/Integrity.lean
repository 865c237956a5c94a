import SmallAIOS.Lib.HashChain
import SmallAIOS.Lib.Word
import SmallAIOS.Security.Audit.Entry

/-!
# Integrity chain of the audit log

Each batch of audit entries is linked to the batch before by a hash,
`SHA-3-256(previous_batch_hash || entry_1 || ... || entry_N)`, and the batches are
numbered (`IntegrityChain.sealBatch`). `verifyChain` accepts a list of batches if
they are linked from the genesis hash on and numbered from zero
(`verifyChain_eq_some_none`).

Neither the boundaries of the batches nor those of the entries are hashed. Still,
chains that verify and end in the same hash hold the same entries in the same
batches (`verifyChain_unique`).

The digest `sha3` is a parameter. What is assumed of it is that it has no
collisions on the bytes of the batches at hand, and does not map them to the
genesis hash.
-/

namespace SmallAIOS.Security.Audit

open Lib
open List hiding Vector

/-- A SHA-3-256 digest. -/
abbrev Digest := Vector UInt8 32

/-- The previous hash of the first batch. -/
def genesisHash : Digest := .replicate 32 0

/-- A sealed batch of audit entries with integrity hash. -/
structure AuditBatch where
  previousHash : Digest
  entries : List AuditEntry
  batchHash : Digest
  sequence : ℕ
  deriving DecidableEq

open AuditBatch

/-- The hash chain state for sequential batch sealing. -/
structure IntegrityChain where
  previousHash : Digest
  nextSequence : ℕ
  deriving DecidableEq

/-- What is hashed of a batch. -/
def hashedBytes (previousHash : Digest) (entries : List AuditEntry) : List UInt8 :=
  previousHash.toList ++ entries.flatMap AuditEntry.serialize

section

variable (sha3 : List UInt8 → Digest)

def computeBatchHash (previousHash : Digest) (entries : List AuditEntry) : Digest :=
  sha3 (hashedBytes previousHash entries)

namespace IntegrityChain

def new : IntegrityChain := ⟨genesisHash, 0⟩

/-- Seal a batch of entries. The next batch will chain from this one. -/
def sealBatch (c : IntegrityChain) (entries : List AuditEntry) :
    Option (AuditBatch × IntegrityChain) :=
  let batchHash := computeBatchHash sha3 c.previousHash entries
  (Word.add 64 c.nextSequence 1).map fun next =>
    (⟨c.previousHash, entries, batchHash, c.nextSequence⟩, ⟨batchHash, next⟩)

end IntegrityChain

/-- Verify a batch's hash matches the claimed previous hash and entries. -/
def verifyBatchHash (batch : AuditBatch) : Bool :=
  computeBatchHash sha3 batch.previousHash batch.entries == batch.batchHash

/-- The loop of `verifyChain`, from the batch at `i` on, after the batch `prev`. -/
def verifyFrom (prev : AuditBatch) (i : ℕ) : List AuditBatch → Option (Option ℕ)
  | [] => some none
  | batch :: batches =>
    if batch.previousHash ≠ prev.batchHash then some (some i)
    else
      (Word.add 64 prev.sequence 1).bind fun next =>
        if batch.sequence ≠ next then some (some i)
        else if !verifyBatchHash sha3 batch then some (some i)
        else verifyFrom batch (i + 1) batches

/-- Verify hash chain continuity across a sequence of batches: the index of the first invalid batch,
    if there is one. -/
def verifyChain : List AuditBatch → Option (Option ℕ)
  | [] => some none
  | batch :: batches =>
    if batch.previousHash ≠ genesisHash then some (some 0)
    else if batch.sequence ≠ 0 then some (some 0)
    else if !verifyBatchHash sha3 batch then some (some 0)
    else verifyFrom sha3 batch 1 batches

/-- Batches as the records of a hash chain. -/
def batchChain : HashChain AuditBatch Digest where
  prev := previousHash
  hash := batchHash
  digest b := computeBatchHash sha3 b.previousHash b.entries

end

variable {sha3 : List UInt8 → Digest} {batch prev : AuditBatch} {batches batches' : List AuditBatch}
  {i : ℕ}

theorem verifyBatchHash_iff :
    verifyBatchHash sha3 batch = true ↔
      computeBatchHash sha3 batch.previousHash batch.entries = batch.batchHash := beq_iff_eq

/-- The loop goes on after a batch that is linked, numbered and hashed as it should be. -/
theorem verifyFrom_cons_eq_some_none :
    verifyFrom sha3 prev i (batch :: batches) = some none ↔
      batch.previousHash = prev.batchHash ∧
      (batch.sequence = prev.sequence + 1 ∧ batch.sequence < 2 ^ 64) ∧
      computeBatchHash sha3 batch.previousHash batch.entries = batch.batchHash ∧
      verifyFrom sha3 batch (i + 1) batches = some none := by
  rw [verifyFrom, ← verifyBatchHash_iff]
  refine ⟨fun h => ?_, ?_⟩
  · have hprev : ¬ batch.previousHash ≠ prev.batchHash := fun hne => by
      rw [if_pos hne] at h
      cases h
    rw [if_neg hprev] at h
    obtain ⟨next, hadd, h⟩ := Option.bind_eq_some_iff.1 h
    obtain ⟨hlt, rfl⟩ := Word.add_eq_some.1 hadd
    have hseq : ¬ batch.sequence ≠ prev.sequence + 1 := fun hne => by
      rw [if_pos hne] at h
      cases h
    rw [if_neg hseq] at h
    have hhash : verifyBatchHash sha3 batch = true := by
      by_contra hne
      rw [Bool.eq_false_of_not_eq_true hne] at h
      cases h
    rw [hhash] at h
    exact ⟨not_not.1 hprev, ⟨not_not.1 hseq, not_not.1 hseq ▸ hlt⟩, hhash, h⟩
  · rintro ⟨hprev, ⟨hseq, hlt⟩, hhash, h⟩
    have hadd := Word.add_eq_some.2 ⟨hseq ▸ hlt, hseq.symm⟩
    rw [if_neg (not_not_intro hprev), hadd, Option.bind_some, if_neg (not_not_intro rfl), hhash,
      ← h]
    rfl

theorem verifyFrom_eq_some_none : verifyFrom sha3 prev i batches = some none ↔
    (batchChain sha3).Linked prev.batchHash batches ∧
      batches.map sequence = range' (prev.sequence + 1) batches.length ∧
      ∀ b ∈ batches, b.sequence < 2 ^ 64 := by
  induction batches generalizing prev i with
  | nil => exact iff_of_true rfl ⟨trivial, rfl, nofun⟩
  | cons batch batches ih =>
    rw [verifyFrom_cons_eq_some_none, ih, map_cons, length_cons,
      range'_succ, cons.injEq, forall_mem_cons]
    refine ⟨?_, ?_⟩
    · rintro ⟨hprev, ⟨hseq, hlt⟩, hhash, hlink, hnum, hall⟩
      exact ⟨⟨hprev, hhash, hlink⟩, ⟨hseq, hseq ▸ hnum⟩, hlt, hall⟩
    · rintro ⟨⟨hprev, hhash, hlink⟩, ⟨hseq, hnum⟩, hlt, hall⟩
      exact ⟨hprev, ⟨hseq, hlt⟩, hhash, hlink, hseq ▸ hnum, hall⟩

/-- Batches are accepted if they are linked, and numbered from zero. -/
theorem verifyChain_eq_some_none : verifyChain sha3 batches = some none ↔
    (batchChain sha3).Linked genesisHash batches ∧
      batches.map sequence = range batches.length ∧
      ∀ b ∈ batches, b.sequence < 2 ^ 64 := by
  cases batches with
  | nil => exact iff_of_true rfl ⟨trivial, rfl, forall_mem_nil _⟩
  | cons batch batches =>
    rw [verifyChain, map_cons, length_cons, range_eq_range',
      range'_succ, cons.injEq, forall_mem_cons]
    by_cases hprev : batch.previousHash = genesisHash
    · rw [if_neg (not_not_intro hprev)]
      by_cases hseq : batch.sequence = 0
      · rw [if_neg (not_not_intro hseq)]
        cases hhash : verifyBatchHash sha3 batch with
        | false =>
          refine iff_of_false (by rintro ⟨⟩) fun h => ?_
          rw [verifyBatchHash_iff.2 h.1.2.1] at hhash
          cases hhash
        | true =>
          rw [Bool.not_true, if_neg Bool.false_ne_true, verifyFrom_eq_some_none, hseq]
          exact ⟨fun h => ⟨⟨hprev, verifyBatchHash_iff.1 hhash, h.1⟩, ⟨rfl, h.2.1⟩, by decide,
            h.2.2⟩, fun h => ⟨h.1.2.2, h.2.1.2, h.2.2.2⟩⟩
      · rw [if_pos hseq]
        exact iff_of_false (by rintro ⟨⟩) fun h => hseq h.2.1.1
    · rw [if_pos hprev]
      exact iff_of_false (by rintro ⟨⟩) fun h => hprev h.1.1

/-- The hash before and the entries are determined by what is hashed. -/
theorem hashedBytes_inj {p p' : Digest} {entries entries' : List AuditEntry}
    (h : hashedBytes p entries = hashedBytes p' entries') : p = p' ∧ entries = entries' := by
  obtain ⟨hp, he⟩ := append_inj h (by rw [Vector.length_toList, Vector.length_toList])
  exact ⟨Vector.toList_inj.1 hp, flatMap_injective (by decide) AuditEntry.length_serialize
    AuditEntry.serialize_injective he⟩

/-- Two chains that verify and end in the same hash are of the same length, with the same sequence
    numbers and entries, if the digest has no collisions on their batches and never yields the
    genesis hash. -/
theorem verifyChain_unique
    (hinj : Set.InjOn sha3
      {bytes | ∃ b ∈ batches ++ batches', hashedBytes b.previousHash b.entries = bytes})
    (hgenesis : ∀ b ∈ batches ++ batches',
      sha3 (hashedBytes b.previousHash b.entries) ≠ genesisHash)
    (hne : batches ≠ []) (hne' : batches' ≠ [])
    (h : verifyChain sha3 batches = some none) (h' : verifyChain sha3 batches' = some none)
    (hlast : (batches.getLast hne).batchHash = (batches'.getLast hne').batchHash) :
    batches.length = batches'.length ∧
      batches.map sequence = batches'.map sequence ∧
      batches.map entries = batches'.map entries := by
  obtain ⟨hlink, hnum, -⟩ := verifyChain_eq_some_none.1 h
  obtain ⟨hlink', hnum', -⟩ := verifyChain_eq_some_none.1 h'
  have hhead : (batchChain sha3).head genesisHash batches =
      (batchChain sha3).head genesisHash batches' := by
    rw [HashChain.head_eq_getLast?, HashChain.head_eq_getLast?,
      getLast?_eq_getLast_of_ne_nil hne, getLast?_eq_getLast_of_ne_nil hne']
    exact hlast
  have hrel : List.Forall₂ (fun b b' : AuditBatch => b.entries = b'.entries) batches batches' := by
    refine hlink.forall₂ hlink' (fun b hb b' hb' hd => ?_)
      (fun b hb => hgenesis b (mem_append_left _ hb))
      (fun b hb => hgenesis b (mem_append_right _ hb)) hhead
    have hbytes := hinj ⟨b, mem_append_left _ hb, rfl⟩ ⟨b', mem_append_right _ hb', rfl⟩ hd
    exact (hashedBytes_inj hbytes).symm
  refine ⟨hrel.length_eq, ?_, ?_⟩
  · rw [hnum, hnum', hrel.length_eq]
  · rw [← forall₂_eq_eq_eq, forall₂_map_left_iff, forall₂_map_right_iff]
    exact hrel

/-- A digest that tells batches of different lengths apart. -/
def lengthDigest (bytes : List UInt8) : Digest := .replicate 32 (UInt8.ofNat bytes.length)

/-- A chain of a batch of one entry, and a batch of two. -/
def bootChain : List AuditBatch :=
  let first := computeBatchHash lengthDigest genesisHash [.bootAt 1]
  [⟨genesisHash, [.bootAt 1], first, 0⟩,
    ⟨first, [.bootAt 2, .bootAt 3], computeBatchHash lengthDigest first [.bootAt 2, .bootAt 3], 1⟩]

theorem verifyChain_unique_bootChain :
    verifyChain lengthDigest bootChain = some none ∧ bootChain.length = bootChain.length ∧
      bootChain.map sequence = bootChain.map sequence ∧
      bootChain.map entries = bootChain.map entries := by
  have hdigest : ∀ b ∈ bootChain ++ bootChain, ∀ b' ∈ bootChain ++ bootChain,
      lengthDigest (hashedBytes b.previousHash b.entries) =
        lengthDigest (hashedBytes b'.previousHash b'.entries) →
      hashedBytes b.previousHash b.entries = hashedBytes b'.previousHash b'.entries := by
    decide +kernel
  have hinj : Set.InjOn lengthDigest
      {bytes | ∃ b ∈ bootChain ++ bootChain, hashedBytes b.previousHash b.entries = bytes} := by
    rintro _ ⟨b, hb, rfl⟩ _ ⟨b', hb', rfl⟩ h
    exact hdigest b hb b' hb' h
  have hverify : verifyChain lengthDigest bootChain = some none := by decide +kernel
  exact ⟨hverify, verifyChain_unique hinj (by decide +kernel) nofun nofun hverify hverify rfl⟩

end SmallAIOS.Security.Audit

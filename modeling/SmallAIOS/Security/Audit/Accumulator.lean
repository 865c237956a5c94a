import SmallAIOS.Lib.Run
import SmallAIOS.Security.Audit.Integrity

/-!
# Audit batch accumulator

Entries are collected until there are `batchMaxEntries` of them (`push`), until
they have waited long enough (`tick`), or until the caller asks for them
(`flush`). Then they are sealed into a batch of the integrity chain.

Whatever the calls and the times, the entries of the batches sealed, followed by
those pending, are the entries pushed. No batch is empty or too large, and the
batches verify as a chain (`reaches_conserves`).

The sequence number and the number of batches are machine words, and sealing a
batch panics if they overflow.
-/

namespace SmallAIOS.Security.Audit

open Lib List Option AuditBatch

/-- Maximum entries per batch before forced seal. -/
def batchMaxEntries : ℕ := 256

/-- Accumulates audit entries and produces sealed batches. -/
structure BatchAccumulator where
  pending : List AuditEntry
  batchOpenedNs : ℕ
  timeoutNs : ℕ
  chain : IntegrityChain
  batchesSealed : ℕ

/-- A call on the accumulator. -/
inductive AccCall
  | push (entry : AuditEntry) (nowNs : ℕ)
  | tick (nowNs : ℕ)
  | flush

namespace BatchAccumulator

def withTimeoutNs (timeoutNs : ℕ) : BatchAccumulator := ⟨[], 0, timeoutNs, .new, 0⟩

variable (sha3 : List UInt8 → Digest) (acc : BatchAccumulator)

/-- Seal the pending entries. -/
def sealPending : Option (AuditBatch × BatchAccumulator) :=
  (acc.chain.sealBatch sha3 acc.pending).bind fun (batch, chain) =>
    (Word.add 64 acc.batchesSealed 1).map fun batchesSealed =>
      (batch, { acc with
        pending := []
        chain := chain
        batchesSealed := batchesSealed })

/-- Seal the pending entries and return the batch. -/
def emit : Option (Option AuditBatch × BatchAccumulator) :=
  (acc.sealPending sha3).map fun (batch, acc') => (some batch, acc')

/-- The accumulator with another pending entry. The first one opens a batch. -/
def add (entry : AuditEntry) (nowNs : ℕ) : BatchAccumulator :=
  { acc with
    pending := acc.pending ++ [entry]
    batchOpenedNs := if acc.pending.isEmpty then nowNs else acc.batchOpenedNs }

/-- Add an entry to the accumulator. -/
def push (entry : AuditEntry) (nowNs : ℕ) : Option (Option AuditBatch × BatchAccumulator) :=
  if batchMaxEntries ≤ (acc.add entry nowNs).pending.length then (acc.add entry nowNs).emit sha3
  else some (none, acc.add entry nowNs)

/-- Seal the batch if the timeout has elapsed. -/
def tick (nowNs : ℕ) : Option (Option AuditBatch × BatchAccumulator) :=
  if acc.pending.isEmpty then some (none, { acc with batchOpenedNs := nowNs })
  else if acc.timeoutNs ≤ nowNs - acc.batchOpenedNs then acc.emit sha3
  else some (none, acc)

/-- Seal the current batch regardless of count or time. -/
def flush : Option (Option AuditBatch × BatchAccumulator) :=
  if acc.pending.isEmpty then some (none, acc) else acc.emit sha3

def step : AccCall → Option (Option AuditBatch × BatchAccumulator)
  | .push entry nowNs => acc.push sha3 entry nowNs
  | .tick nowNs => acc.tick sha3 nowNs
  | .flush => acc.flush sha3

end BatchAccumulator

/-- The entry that the call pushes. -/
def AccCall.entries : AccCall → List AuditEntry
  | .push entry _ => [entry]
  | .tick _ => []
  | .flush => []

/-- The entries pushed by the calls, in order. -/
def pushedEntries : List (AccCall × Option AuditBatch) → List AuditEntry
  | [] => []
  | (c, _) :: t => pushedEntries t ++ c.entries

/-- The batches returned by the calls, in order. -/
def sealedBatches : List (AccCall × Option AuditBatch) → List AuditBatch
  | [] => []
  | (_, batch) :: t => sealedBatches t ++ batch.toList

namespace BatchAccumulator

variable {sha3 : List UInt8 → Digest} {acc acc' : BatchAccumulator} {new : List AuditEntry}

/-- What a call does to the pending entries, to which it adds `new`. -/
inductive Collects (sha3 : List UInt8 → Digest) (acc acc' : BatchAccumulator)
    (new : List AuditEntry) : Option AuditBatch → Prop
  /-- They are kept. -/
  | kept (pending : acc'.pending = acc.pending ++ new)
    (lt : acc'.pending.length < batchMaxEntries) (chain : acc'.chain = acc.chain) :
    Collects sha3 acc acc' new none
  /-- They are sealed. -/
  | full {batch : AuditBatch} (ne_nil : acc.pending ++ new ≠ [])
    (le : (acc.pending ++ new).length ≤ batchMaxEntries) (pending : acc'.pending = [])
    (sealed : acc.chain.sealBatch sha3 (acc.pending ++ new) = some (batch, acc'.chain)) :
    Collects sha3 acc acc' new (some batch)

variable {batch : Option AuditBatch} {c : AccCall}

theorem emit_spec (h : acc.emit sha3 = some (batch, acc')) :
    ∃ b, batch = some b ∧ acc'.pending = [] ∧
      acc.chain.sealBatch sha3 acc.pending = some (b, acc'.chain) := by
  obtain ⟨⟨b, acc1⟩, hseal, he⟩ := map_eq_some_iff.1 h
  obtain ⟨⟨b1, chain⟩, hs, hcount⟩ := bind_eq_some_iff.1 hseal
  obtain ⟨n, -, hn⟩ := map_eq_some_iff.1 hcount
  cases hn
  cases he
  exact ⟨_, rfl, rfl, hs⟩

theorem collects_of_emit (hne : ¬ acc.pending.isEmpty = true)
    (hlt : acc.pending.length < batchMaxEntries) (h : acc.emit sha3 = some (batch, acc')) :
    Collects sha3 acc acc' [] batch := by
  obtain ⟨b, rfl, hnil, hseal⟩ := emit_spec h
  rw [← append_nil acc.pending] at hne hlt hseal
  exact .full (fun h => hne (isEmpty_iff.2 h)) hlt.le hnil hseal

theorem step_collects (hlt : acc.pending.length < batchMaxEntries)
    (h : acc.step sha3 c = some (batch, acc')) : Collects sha3 acc acc' c.entries batch := by
  cases c with
  | push entry nowNs =>
    rw [step, push] at h
    split_ifs at h with hfull
    · obtain ⟨b, rfl, hnil, hseal⟩ := emit_spec h
      refine .full (append_ne_nil_of_right_ne_nil _ (cons_ne_nil entry [])) ?_ hnil hseal
      rw [length_append]
      exact hlt
    · cases h
      exact .kept rfl (Nat.not_le.1 hfull) rfl
  | tick nowNs =>
    rw [step, tick] at h
    split_ifs at h with hempty htime
    · cases h
      exact .kept (append_nil _).symm hlt rfl
    · exact collects_of_emit hempty hlt h
    · cases h
      exact .kept (append_nil _).symm hlt rfl
  | flush =>
    rw [step, flush] at h
    split_ifs at h with hempty
    · cases h
      exact .kept (append_nil _).symm hlt rfl
    · exact collects_of_emit hempty hlt h

/-- What every call keeps: the entries are in the batches and pending, in order, and
    the chain continues the batches. -/
structure Continues (sha3 : List UInt8 → Digest) (t : List (AccCall × Option AuditBatch))
    (acc : BatchAccumulator) : Prop where
  entries : (sealedBatches t).flatMap entries ++ acc.pending = pushedEntries t
  pending_lt : acc.pending.length < batchMaxEntries
  sizes : ∀ b ∈ sealedBatches t, b.entries ≠ [] ∧ b.entries.length ≤ batchMaxEntries
  linked : (batchChain sha3).Linked genesisHash (sealedBatches t)
  head : (batchChain sha3).head genesisHash (sealedBatches t) = acc.chain.previousHash
  numbered : (sealedBatches t).map sequence = range (sealedBatches t).length
  next : acc.chain.nextSequence = (sealedBatches t).length
  next_lt : acc.chain.nextSequence < 2 ^ 64

variable {t : List (AccCall × Option AuditBatch)} {timeoutNs : ℕ}

theorem continues_nil : Continues sha3 [] (withTimeoutNs timeoutNs) where
  entries := rfl
  pending_lt := (by decide : 0 < batchMaxEntries)
  sizes := nofun
  linked := trivial
  head := rfl
  numbered := rfl
  next := rfl
  next_lt := (by decide : 0 < 2 ^ 64)

theorem Continues.step (h : Continues sha3 t acc) (hs : acc.step sha3 c = some (batch, acc')) :
    Continues sha3 ((c, batch) :: t) acc' := by
  cases step_collects h.pending_lt hs with
  | kept hpending hlt hchain =>
    have hsame : sealedBatches ((c, none) :: t) = sealedBatches t := append_nil _
    refine ⟨?_, hlt, hsame ▸ h.sizes, hsame ▸ h.linked, ?_, hsame ▸ h.numbered, ?_,
      hchain ▸ h.next_lt⟩
    · rw [hsame, hpending, ← append_assoc, h.entries, pushedEntries]
    · rw [hsame, hchain, h.head]
    · rw [hsame, hchain, h.next]
  | @full b hne hle hnil hseal =>
    have hconcat : sealedBatches ((c, some b) :: t) = sealedBatches t ++ [b] := rfl
    obtain ⟨next, hadd, he⟩ := map_eq_some_iff.1 hseal
    obtain ⟨hlt, rfl⟩ := Word.add_eq_some.1 hadd
    obtain ⟨rfl, hchain⟩ := Prod.mk.inj he
    refine ⟨?_, ?_, ?_, ?_, ?_, ?_, ?_, hchain ▸ hlt⟩
    · rw [hconcat, hnil, flatMap_append, flatMap_singleton, append_nil,
        ← append_assoc, h.entries, pushedEntries]
    · rw [hnil]
      decide
    · intro b' hb'
      rcases mem_append.1 hb' with hb' | hb'
      · exact h.sizes b' hb'
      · obtain rfl := mem_singleton.1 hb'
        exact ⟨hne, hle⟩
    · rw [hconcat, HashChain.linked_concat]
      exact ⟨h.linked, h.head.symm, rfl⟩
    · rw [hconcat, HashChain.head_concat, ← hchain]
      rfl
    · rw [hconcat, map_append, length_append, length_singleton, range_succ,
        h.numbered, ← h.next]
      rfl
    · rw [hconcat, ← hchain, length_append, ← h.next]
      rfl

theorem reaches_continues (h : Reaches (step sha3) (withTimeoutNs timeoutNs) t acc) :
    Continues sha3 t acc := by
  induction h with
  | nil => exact continues_nil
  | cons _ hs ih => exact ih.step hs

/-- In every run the entries pushed are, in order, those of the batches sealed and
    those pending. No batch is empty or too large, and the batches verify. -/
theorem reaches_conserves (h : Reaches (step sha3) (withTimeoutNs timeoutNs) t acc) :
    (sealedBatches t).flatMap entries ++ acc.pending = pushedEntries t ∧
      (∀ b ∈ sealedBatches t, b.entries ≠ [] ∧ b.entries.length ≤ batchMaxEntries) ∧
      verifyChain sha3 (sealedBatches t) = some none := by
  have hc := reaches_continues h
  refine ⟨hc.entries, hc.sizes, verifyChain_eq_some_none.2 ⟨hc.linked, hc.numbered, ?_⟩⟩
  intro b hb
  have hmem := mem_map_of_mem (f := sequence) hb
  rw [hc.numbered, mem_range, ← hc.next] at hmem
  exact hmem.trans hc.next_lt

/-- Two entries are flushed, and a third one is pending. -/
theorem reaches_conserves_flush : ∃ t acc,
    Reaches (step lengthDigest) (withTimeoutNs 5) t acc ∧
      pushedEntries t = [.bootAt 1, .bootAt 2, .bootAt 3] ∧
      ((sealedBatches t).flatMap entries ++ acc.pending = pushedEntries t ∧
        (∀ b ∈ sealedBatches t, b.entries ≠ [] ∧ b.entries.length ≤ batchMaxEntries) ∧
        verifyChain lengthDigest (sealedBatches t) = some none) := by
  have hreach := Reaches.of_exec (step lengthDigest) (withTimeoutNs 5) [.push (.bootAt 1) 1,
    .push (.bootAt 2) 2, .flush, .tick 9, .push (.bootAt 3) 10] (by decide +kernel)
  exact ⟨_, _, hreach, by decide +kernel, reaches_conserves hreach⟩

end BatchAccumulator

end SmallAIOS.Security.Audit

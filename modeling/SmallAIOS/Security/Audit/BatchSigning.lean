import SmallAIOS.Lib.Run
import SmallAIOS.Lib.Slots
import SmallAIOS.Security.Audit.Integrity

/-!
# The queue of batches to sign

A sealed batch waits in the first free slot of a table (`enqueue`) until it is given a signature
and leaves (`signNext`). The slots are scanned in order, and one that has been freed is filled
before those behind it. So batches leave in the order in which they came if one only comes when no
batch waits behind a free slot (`signed_in_order`); otherwise one overtakes those behind the slot
it takes (`later_batch_signed_first`).
-/

namespace SmallAIOS.Security.Audit

open Lib
open List hiding Vector

/-- ML-DSA-65 signature size in bytes. -/
def mlDsa65SigSize : ℕ := 3309

def maxPending : ℕ := 16

/-- A sealed batch with an ML-DSA-65 signature. -/
structure SignedAuditBatch where
  batch : AuditBatch
  signature : Vector UInt8 mlDsa65SigSize
  /-- The signature has been populated. -/
  isSigned : Bool
  signerKeyId : Vector UInt8 16

namespace SignedAuditBatch

def new (batch : AuditBatch) : SignedAuditBatch := ⟨batch, .replicate _ 0, false, .replicate _ 0⟩

/-- Apply a signature to this batch, if it has the right size. -/
def setSignature (b : SignedAuditBatch) (sig : List UInt8) (keyId : Vector UInt8 16) :
    Option SignedAuditBatch :=
  if h : sig.length = mlDsa65SigSize then
    some { b with signature := ⟨sig.toArray, h⟩, signerKeyId := keyId, isSigned := true }
  else none

theorem batch_of_setSignature {b b' : SignedAuditBatch} {sig : List UInt8}
    {keyId : Vector UInt8 16} (h : b.setSignature sig keyId = some b') : b'.batch = b.batch := by
  rw [setSignature] at h
  split_ifs at h
  cases h
  rfl

end SignedAuditBatch

inductive BatchSigningError
  | queueFull
  | noPending
  | invalidSignatureSize

structure BatchSigningQueue where
  pending : Slots SignedAuditBatch maxPending
  pendingCount : ℕ
  totalSigned : ℕ
  totalFailures : ℕ

namespace BatchSigningQueue

def new : BatchSigningQueue := ⟨.empty _ _, 0, 0, 0⟩

variable (q : BatchSigningQueue)

/-- Enqueue a sealed batch for signing. -/
def enqueue (batch : AuditBatch) : Except BatchSigningError Unit × BatchSigningQueue :=
  if maxPending ≤ q.pendingCount then (.error .queueFull, q)
  else match q.pending.fill? (.new batch) with
    | some pending => (.ok (), { q with pending, pendingCount := q.pendingCount + 1 })
    | none => (.error .queueFull, q)

/-- Sign the next pending batch with the provided signature. -/
def signNext (sig : List UInt8) (keyId : Vector UInt8 16) :
    Option (Except BatchSigningError SignedAuditBatch × BatchSigningQueue) :=
  match q.pending.entries.find? (!·.isSigned) with
  | none => some (.error .noPending, q)
  | some b =>
    match b.setSignature sig keyId with
    | none => (Word.add 64 q.totalFailures 1).map fun totalFailures =>
      (.error .invalidSignatureSize, { q with totalFailures })
    | some signed =>
      (Word.sub q.pendingCount 1).bind fun pendingCount =>
      (Word.add 64 q.totalSigned 1).map fun totalSigned =>
        (.ok signed,
          { q with pending := q.pending.vacate (!·.isSigned), pendingCount, totalSigned })

inductive Call
  | enqueue (batch : AuditBatch)
  | signNext (sig : List UInt8) (keyId : Vector UInt8 16)

/-- What a call returns: the batch it took from the queue, if it took one. -/
abbrev Ret := Except BatchSigningError (Option SignedAuditBatch)

def step : Call → Option (Ret × BatchSigningQueue)
  | .enqueue batch => some ((q.enqueue batch).1.map fun _ => none, (q.enqueue batch).2)
  | .signNext sig keyId => (q.signNext sig keyId).map fun r => (r.1.map some, r.2)

/-- The batch that was put into the queue by a call. -/
def enqueued : Call × Ret → Option AuditBatch
  | (.enqueue batch, .ok _) => some batch
  | _ => none

/-- The batch that was taken from the queue by a call. -/
def returned : Call × Ret → Option AuditBatch
  | (_, .ok (some b)) => some b.batch
  | _ => none

/-- A batch is enqueued only when no batch is behind a free slot. -/
def Packed : Call → Prop
  | .enqueue _ => q.pending.cells.Pairwise fun o o' => o'.isSome → o.isSome
  | .signNext .. => True

instance (c : Call) : Decidable (q.Packed c) :=
  match c with
  | .enqueue _ => inferInstanceAs (Decidable (Pairwise _ _))
  | .signNext .. => inferInstanceAs (Decidable True)

/-- The batches that wait, after the calls `t`. -/
structure Waiting (t : List (Call × Ret)) : Prop where
  unsigned : ∀ b ∈ q.pending.entries, b.isSigned = false
  count : q.pendingCount = q.pending.entries.length
  order : t.reverse.filterMap enqueued =
    t.reverse.filterMap returned ++ q.pending.entries.map (·.batch)

variable {q} {q' : BatchSigningQueue} {t : List (Call × Ret)} {c : Call} {ret : Ret}

/-- What a call does: a batch is added, the first one is taken, or none of them changes. -/
theorem Waiting.cases (h : q.Waiting t) (hok : q.Packed c) (hs : q.step c = some (ret, q')) :
    (∃ batch, c = .enqueue batch ∧ ret = .ok none ∧ q'.pendingCount = q.pendingCount + 1 ∧
      q'.pending.entries = q.pending.entries ++ [.new batch]) ∨
    (∃ sig keyId b signed l, c = .signNext sig keyId ∧ ret = .ok (some signed) ∧
      signed.batch = b.batch ∧ q.pending.entries = b :: l ∧ q'.pending.entries = l ∧
      q.pendingCount = 1 + q'.pendingCount) ∨
    ∃ e, ret = .error e ∧ q'.pending = q.pending ∧ q'.pendingCount = q.pendingCount := by
  cases c with
  | enqueue batch =>
    rw [step, enqueue] at hs
    split_ifs at hs
    · cases hs
      exact .inr (.inr ⟨_, rfl, rfl, rfl⟩)
    · cases hfill : q.pending.fill? (.new batch) with
      | none =>
        rw [hfill] at hs
        cases hs
        exact .inr (.inr ⟨_, rfl, rfl, rfl⟩)
      | some pending =>
        rw [hfill] at hs
        cases hs
        exact .inl ⟨batch, rfl, rfl, rfl,
          reduceOption_fillFirst_of_pairwise hok (Slots.fill?_eq_some.1 hfill)⟩
  | signNext sig keyId =>
    obtain ⟨r, hr, heq⟩ := Option.map_eq_some_iff.1 hs
    cases heq
    rw [signNext] at hr
    -- All that wait are unsigned, so the first one is next.
    rcases hl : q.pending.entries with _ | ⟨b, l⟩
    · rw [hl] at hr
      cases hr
      exact .inr (.inr ⟨_, rfl, rfl, rfl⟩)
    · have hb : b.isSigned = false := h.unsigned b (hl ▸ mem_cons_self)
      have hfind : (b :: l).find? (!·.isSigned) = some b := by simp [hb]
      rw [hl, hfind] at hr
      cases hset : b.setSignature sig keyId with
      | none =>
        obtain ⟨n, -, rfl⟩ := Option.map_eq_some_iff.1 (by simpa only [hset] using hr)
        exact .inr (.inr ⟨_, rfl, rfl, rfl⟩)
      | some signed =>
        obtain ⟨n, hn, hr⟩ := Option.bind_eq_some_iff.1 (by simpa only [hset] using hr)
        obtain ⟨m, -, rfl⟩ := Option.map_eq_some_iff.1 hr
        refine .inr (.inl ⟨sig, keyId, b, signed, l, rfl, rfl,
          SignedAuditBatch.batch_of_setSignature hset, rfl, ?_, (Word.sub_eq_some.1 hn).symm⟩)
        simp [hl, hb]

/-- The number of pending batches does not run below zero. -/
theorem Waiting.isSome_signNext (h : q.Waiting t) (hs : q.totalSigned + 1 < 2 ^ 64)
    (hf : q.totalFailures + 1 < 2 ^ 64) (sig : List UInt8) (keyId : Vector UInt8 16) :
    (q.signNext sig keyId).isSome := by
  unfold signNext
  cases hfind : q.pending.entries.find? (!·.isSigned) with
  | none => rfl
  | some b =>
    have hcount : 1 ≤ q.pendingCount := h.count ▸ length_pos_of_mem (mem_of_find?_eq_some hfind)
    dsimp only
    cases b.setSignature sig keyId with
    | none => simp only [Word.add, if_pos hf, Option.map_some, Option.isSome_some]
    | some signed =>
      simp only [Word.sub, Word.add, if_pos hcount, if_pos hs, Option.bind_some, Option.map_some,
        Option.isSome_some]

theorem Waiting.step (h : q.Waiting t) (hok : q.Packed c) (hs : q.step c = some (ret, q')) :
    q'.Waiting ((c, ret) :: t) := by
  obtain ⟨hun, hcount, horder⟩ := h
  obtain ⟨batch, rfl, rfl, hn, hl⟩ | ⟨-, -, b, signed, l, rfl, rfl, hb, hl, rfl, hn⟩ |
    ⟨e, rfl, hpending, hn⟩ := Waiting.cases ⟨hun, hcount, horder⟩ hok hs
  · refine ⟨fun b hb => ?_, by rw [hn, hcount, hl, length_append]; rfl, ?_⟩
    · rcases mem_append.1 (hl ▸ hb) with hb | hb
      · exact hun b hb
      · rw [mem_singleton.1 hb]
        rfl
    · rw [reverse_cons, filterMap_append, horder, hl]
      simp [enqueued, returned, SignedAuditBatch.new]
  · rw [hl] at hun hcount horder
    refine ⟨fun b hb => hun b (mem_cons_of_mem _ hb), ?_, ?_⟩
    · rw [length_cons] at hcount
      omega
    · rw [reverse_cons, filterMap_append, horder]
      simp [enqueued, returned, hb]
  · refine ⟨hpending ▸ hun, by rw [hn, hcount, hpending], ?_⟩
    have hnone : enqueued (c, .error e) = none ∧ returned (c, .error e) = none := by
      cases c <;> exact ⟨rfl, rfl⟩
    rw [reverse_cons, filterMap_append, horder, hpending]
    simp [hnone]

/-- A batch with a given number. -/
def batchOf (n : ℕ) : AuditBatch := ⟨genesisHash, [], genesisHash, n⟩

/-- If batches come only when none waits behind a free slot, those that have left are the first
    ones that came, in their order, and the others wait. -/
theorem signed_in_order (h : ReachesBy Packed step new t q) :
    t.reverse.filterMap enqueued =
        t.reverse.filterMap returned ++ q.pending.entries.map (·.batch) ∧
      q.pendingCount + (t.reverse.filterMap returned).length =
        (t.reverse.filterMap enqueued).length ∧
      (∀ sig keyId e q', q.signNext sig keyId = some (.error e, q') → q'.pending = q.pending) ∧
      (q.totalSigned + 1 < 2 ^ 64 → q.totalFailures + 1 < 2 ^ 64 →
        ∀ sig keyId, (q.signNext sig keyId).isSome) := by
  have hw : q.Waiting t := by
    induction h with
    | nil => exact ⟨by simp [new], by simp [new], by simp [new]⟩
    | cons _ hok hs ih => exact ih.step hok hs
  refine ⟨hw.order, ?_, fun sig keyId e q' hs => ?_, hw.isSome_signNext⟩
  · rw [hw.order, length_append, length_map, hw.count, Nat.add_comm]
  · have hs' : q.step (.signNext sig keyId) = some (.error e, q') := by
      rw [BatchSigningQueue.step, hs]
      rfl
    obtain ⟨_, ⟨⟩, -⟩ | ⟨_, _, _, _, _, -, ⟨⟩, -⟩ | ⟨_, -, hpending, -⟩ :=
      hw.cases (c := .signNext sig keyId) trivial hs'
    exact hpending

theorem signed_in_order_two :
    ∃ t q, ReachesBy Packed step new t q ∧ t.reverse.filterMap returned = [batchOf 0] ∧
      t.reverse.filterMap enqueued =
        t.reverse.filterMap returned ++ q.pending.entries.map (·.batch) := by
  have hr := ReachesBy.of_exec Packed step new
    [.enqueue (batchOf 0), .enqueue (batchOf 1), .signNext (replicate 3309 0) (.replicate 16 0)]
    (by decide +kernel)
  exact ⟨_, _, hr, by decide +kernel, (signed_in_order hr).1⟩

/-- A batch that takes the slot of the first one is signed before the second one. -/
theorem later_batch_signed_first :
    ∃ t q, Reaches step new t q ∧ t.reverse.filterMap enqueued = [batchOf 0, batchOf 1, batchOf 2] ∧
      t.reverse.filterMap returned = [batchOf 0, batchOf 2] := by
  have hr := Reaches.of_exec step new
    [.enqueue (batchOf 0), .enqueue (batchOf 1), .signNext (replicate 3309 0) (.replicate 16 0),
      .enqueue (batchOf 2), .signNext (replicate 3309 0) (.replicate 16 0)] (by decide +kernel)
  exact ⟨_, _, hr, by decide +kernel, by decide +kernel⟩

end BatchSigningQueue

end SmallAIOS.Security.Audit

import SmallAIOS.Lib.Word
import Mathlib.Data.List.Pairwise
import Mathlib.Order.Interval.Set.Disjoint
import Mathlib.Algebra.Order.BigOperators.Group.List
import Mathlib.Order.CompletePartialOrder

/-!
# The memory planner

The planner gives every tensor of an execution graph a place in one memory pool, from the steps
at which it is used (`TensorLifetime`). A buffer is opened for a tensor at the end of the pool. With
buffer reuse, a tensor rather gets the first buffer that is large enough and whose last tensor is
not used any more at its own first step. Only the last tensor of a buffer is remembered, and the
lifetimes come in any order.

* `Spans`: the buffers are aligned, apart from each other, and within the pool;
* `Reused.place`: the tensors of a buffer have it one after the other in time, which is kept because
  the last use of a buffer only grows;
* `planMemory_spec`: the plan is safe, in both modes;
* `planWithReuse_saves`: reuse never needs more memory.
-/

namespace SmallAIOS.OnnxRt.MemoryPlanner

open Lib Option Prod Word Nat
open List hiding Disjoint

/-- The steps of the execution at which a tensor is used first and last. -/
structure TensorLifetime where
  tensorName : String
  firstUse : ℕ
  lastUse : ℕ
  sizeBytes : ℕ
  deriving DecidableEq

def TensorLifetime.overlaps (l l' : TensorLifetime) : Bool :=
  l.firstUse ≤ l'.lastUse && l'.firstUse ≤ l.lastUse

/-- A part of the pool, with the id of its buffer. -/
structure Span where
  bufferId : ℕ
  offset : ℕ
  size : ℕ
  deriving DecidableEq

/-- The part of the pool that a tensor has. -/
structure BufferAllocation extends Span where
  tensorName : String
  deriving DecidableEq

structure MemoryPlan where
  allocations : List BufferAllocation := []
  peakMemory : ℕ := 0
  bufferCount : ℕ := 0
  reuseCount : ℕ := 0
  deriving DecidableEq

structure PlannerConfig where
  enableBufferReuse : Bool := true
  alignment : ℕ := 64

/-! ## The planner -/

/-- The size rounded up to a multiple of the alignment, which is a power of two. Overflow
    panics (`none`). -/
def alignUp (size alignment : ℕ) : Option ℕ :=
  if alignment = 0 then some size
  else do
    let sum ← add 64 size (alignment - 1)
    return sum &&& complement 64 (alignment - 1)

/-- A buffer, with the last use of the tensor that got it last. -/
structure Buffer extends Span where
  lastUse : ℕ
  deriving DecidableEq

/-- The tensor may have this buffer. -/
def Buffer.free (b : Buffer) (l : TensorLifetime) (alignedSize : ℕ) : Bool :=
  b.lastUse < l.firstUse && alignedSize ≤ b.size

/-- The planner with reuse, after some of the tensors. -/
structure ReuseState where
  allocations : List BufferAllocation := []
  buffers : List Buffer := []
  nextBufferId : ℕ := 0
  currentOffset : ℕ := 0
  reuseCount : ℕ := 0

/-- Find the first buffer that is free for the tensor, or open one. -/
def ReuseState.place (alignment : ℕ) (st : ReuseState) (l : TensorLifetime) :
    Option ReuseState := do
  let alignedSize ← alignUp l.sizeBytes alignment
  match st.buffers.dropWhile fun b => !b.free l alignedSize with
  | b :: after =>
    return { st with
      allocations := st.allocations ++ [⟨b.toSpan, l.tensorName⟩]
      buffers := (st.buffers.takeWhile fun b => !b.free l alignedSize) ++
        { b with lastUse := l.lastUse } :: after
      reuseCount := st.reuseCount + 1 }
  | [] =>
    let span := ⟨st.nextBufferId, st.currentOffset, alignedSize⟩
    let currentOffset ← add 64 st.currentOffset alignedSize
    return { st with
      allocations := st.allocations ++ [⟨span, l.tensorName⟩]
      buffers := st.buffers ++ [⟨span, l.lastUse⟩]
      nextBufferId := st.nextBufferId + 1
      currentOffset := currentOffset }

def planWithReuse (lifetimes : List TensorLifetime) (alignment : ℕ) : Option ReuseState :=
  lifetimes.foldlM (ReuseState.place alignment) {}

/-- Open a buffer for the tensor, after these allocations and at this offset. -/
def append (alignment : ℕ) (st : List BufferAllocation × ℕ) (l : TensorLifetime) :
    Option (List BufferAllocation × ℕ) := do
  let alignedSize ← alignUp l.sizeBytes alignment
  let currentOffset ← add 64 st.2 alignedSize
  return (st.1 ++ [⟨⟨st.1.length, st.2, alignedSize⟩, l.tensorName⟩], currentOffset)

def planSequential (lifetimes : List TensorLifetime) (alignment : ℕ) :
    Option (List BufferAllocation × ℕ) :=
  lifetimes.foldlM (append alignment) ([], 0)

def planMemory (lifetimes : List TensorLifetime) (config : PlannerConfig) : Option MemoryPlan :=
  if lifetimes = [] then some {}
  else if config.enableBufferReuse then
    (planWithReuse lifetimes config.alignment).map fun st =>
      ⟨st.allocations, st.currentOffset, st.nextBufferId, st.reuseCount⟩
  else
    (planSequential lifetimes config.alignment).map fun st => ⟨st.1, st.2, st.1.length, 0⟩

/-! ## Alignment -/

variable {alignment a k : ℕ} {l l' : TensorLifetime} {lifetimes : List TensorLifetime}

/-- The least multiple of the alignment that is not smaller than the size. -/
def alignedSize (alignment : ℕ) (l : TensorLifetime) : ℕ :=
  (l.sizeBytes + (alignment - 1)) / alignment * alignment

/-- A size that fits in a word once it is aligned is aligned without overflow. -/
theorem alignUp_eq (hk : k < 64) (hfit : alignedSize (2 ^ k) l < 2 ^ 64) :
    alignUp l.sizeBytes (2 ^ k) = some (alignedSize (2 ^ k) l) := by
  have hpos := Nat.two_pow_pos k
  have hdvd : 2 ^ k ∣ 2 ^ 64 := pow_dvd_pow 2 hk.le
  -- The aligned size is a multiple below `2 ^ 64`, so there is room for the mask.
  have hroom : alignedSize (2 ^ k) l + 2 ^ k ≤ 2 ^ 64 := by
    obtain ⟨m, hm⟩ := hdvd
    rw [alignedSize] at hfit ⊢
    rw [hm, mul_comm (2 ^ k) m] at hfit ⊢
    rw [← succ_mul]
    exact Nat.mul_le_mul_right _ (Nat.lt_of_mul_lt_mul_right hfit)
  have hsum : l.sizeBytes + (2 ^ k - 1) < 2 ^ 64 := by
    have := div_add_mod (l.sizeBytes + (2 ^ k - 1)) (2 ^ k)
    rw [alignedSize, mul_comm] at hroom
    omega
  rw [alignUp, if_neg hpos.ne', add, if_pos hsum]
  change some _ = _
  rw [and_complement hk.le hsum, alignedSize]

theorem dvd_alignedSize : alignment ∣ alignedSize alignment l := dvd_mul_left ..

theorem le_alignedSize (h : 0 < alignment) : l.sizeBytes ≤ alignedSize alignment l := by
  have := div_add_mod (l.sizeBytes + (alignment - 1)) alignment
  have := mod_lt (l.sizeBytes + (alignment - 1)) h
  rw [alignedSize, mul_comm]
  omega

/-! ## Parts of the pool -/

namespace Span

/-- The bytes of a part of the pool. -/
def range (s : Span) : Set ℕ := Set.Ico s.offset (s.offset + s.size)

/-- The part is aligned, and ends within the pool. -/
structure Within (alignment pool : ℕ) (s : Span) : Prop where
  aligned : alignment ∣ s.offset
  le : s.offset + s.size ≤ pool

/-- Parts of different buffers, without a byte in common. -/
structure Apart (s s' : Span) : Prop where
  id_ne : s.bufferId ≠ s'.bufferId
  disjoint : Disjoint s.range s'.range

instance : Std.Symm Apart := ⟨fun _ _ h => ⟨h.id_ne.symm, h.disjoint.symm⟩⟩

end Span

/-- The parts of the pool that were opened, one after the other. -/
structure Spans (alignment : ℕ) (spans : List Span) (pool : ℕ) : Prop where
  aligned : alignment ∣ pool
  within : ∀ s ∈ spans, s.Within alignment pool
  ids : ∀ s ∈ spans, s.bufferId < spans.length
  apart : spans.Pairwise Span.Apart

theorem Spans.nil : Spans alignment [] 0 :=
  ⟨Nat.dvd_zero _, fun _ hs => (nomatch hs), fun _ hs => (nomatch hs), .nil⟩

variable {pool : ℕ} {spans : List Span}

/-- Open one more. -/
theorem Spans.push (h : Spans alignment spans pool) (ha : alignment ∣ a) :
    Spans alignment (spans ++ [⟨spans.length, pool, a⟩]) (pool + a) where
  aligned := Nat.dvd_add h.aligned ha
  within s hs := by
    rcases mem_append.1 hs with hs | hs
    · exact ⟨(h.within s hs).aligned, (h.within s hs).le.trans (Nat.le_add_right ..)⟩
    · rw [mem_singleton.1 hs]
      exact ⟨h.aligned, le_rfl⟩
  ids s hs := by
    rw [length_append]
    rcases mem_append.1 hs with hs | hs
    · exact (h.ids s hs).trans (lt_succ_self _)
    · rw [mem_singleton.1 hs]
      exact lt_succ_self _
  apart := by
    refine pairwise_append.2 ⟨h.apart, pairwise_singleton .., fun s hs s' hs' => ?_⟩
    rw [mem_singleton.1 hs']
    exact ⟨(h.ids s hs).ne, Set.Ico_disjoint_Ico.2 ((min_le_left _ _).trans
      ((h.within s hs).le.trans (le_max_right _ _)))⟩

/-! ## Reuse -/

/-- A tensor with the part of the pool it got. -/
abbrev Use := TensorLifetime × BufferAllocation

/-- The tensor has what it needs. -/
structure Serves (u : Use) : Prop where
  name_eq : u.2.tensorName = u.1.tensorName
  size_le : u.1.sizeBytes ≤ u.2.size

/-- The planner with reuse, after these uses. -/
structure Reused (alignment : ℕ) (uses : List Use) (st : ReuseState) : Prop where
  allocations_eq : st.allocations = uses.map snd
  nextBufferId_eq : st.nextBufferId = st.buffers.length
  spans : Spans alignment (st.buffers.map Buffer.toSpan) st.currentOffset
  serves : ∀ u ∈ uses, Serves u
  /-- The buffer of a tensor remembers a use that is not earlier. -/
  held : ∀ u ∈ uses, ∃ b ∈ st.buffers, u.2.toSpan = b.toSpan ∧ u.1.lastUse ≤ b.lastUse
  /-- The tensors of a buffer have it one after the other. -/
  inTurn : uses.Pairwise fun u u' => u.2.bufferId = u'.2.bufferId → u.1.lastUse < u'.1.firstUse

namespace Reused

variable {uses : List Use} {st : ReuseState}

section

variable (h : Reused alignment uses st)
include h

theorem eq_of_id {b b' : Buffer} (hb : b ∈ st.buffers)
    (hb' : b' ∈ st.buffers) (hid : b.bufferId = b'.bufferId) : b = b' := by
  by_contra hne
  exact ((pairwise_map.1 h.spans.apart).forall hb hb' hne).id_ne hid

/-- A tensor gets a buffer that is free for it. -/
theorem reuse {before after : List Buffer} {b : Buffer}
    (hl : l.firstUse ≤ l.lastUse) (hsize : l.sizeBytes ≤ a) (hb : b.free l a = true)
    (hbuf : st.buffers = before ++ b :: after) :
    Reused alignment (uses ++ [(l, ⟨b.toSpan, l.tensorName⟩)])
      { st with
        allocations := st.allocations ++ [⟨b.toSpan, l.tensorName⟩]
        buffers := before ++ { b with lastUse := l.lastUse } :: after
        reuseCount := st.reuseCount + 1 } := by
  rw [Buffer.free, Bool.and_eq_true, decide_eq_true_eq, decide_eq_true_eq] at hb
  have hspans : (before ++ { b with lastUse := l.lastUse } :: after).map Buffer.toSpan =
      st.buffers.map Buffer.toSpan := by
    rw [hbuf, map_append, map_cons, map_append, map_cons]
  have hmem : b ∈ st.buffers := hbuf ▸ mem_append_right _ mem_cons_self
  -- The buffer of an earlier tensor still is one, with a use that is not earlier.
  have hkeep : ∀ c ∈ st.buffers, ∃ c' ∈ before ++ { b with lastUse := l.lastUse } :: after,
      c.toSpan = c'.toSpan ∧ c.lastUse ≤ c'.lastUse := by
    intro c hc
    rw [hbuf, mem_append, mem_cons] at hc
    rcases hc with hc | rfl | hc
    · exact ⟨c, mem_append_left _ hc, rfl, le_rfl⟩
    · exact ⟨_, mem_append_right _ mem_cons_self, rfl, hb.1.le.trans hl⟩
    · exact ⟨c, mem_append_right _ (mem_cons_of_mem _ hc), rfl, le_rfl⟩
  refine ⟨?_, ?_, hspans ▸ h.spans, fun u hu => ?_, fun u hu => ?_, ?_⟩
  · rw [map_append, h.allocations_eq]
    rfl
  · have := congrArg length hspans
    rw [length_map, length_map] at this
    exact h.nextBufferId_eq.trans this.symm
  · rcases mem_append.1 hu with hu | hu
    · exact h.serves u hu
    · rw [mem_singleton.1 hu]
      exact ⟨rfl, hsize.trans hb.2⟩
  · rcases mem_append.1 hu with hu | hu
    · obtain ⟨c, hc, hspan, hle⟩ := h.held u hu
      obtain ⟨c', hc', hspan', hle'⟩ := hkeep c hc
      exact ⟨c', hc', hspan.trans hspan', hle.trans hle'⟩
    · rw [mem_singleton.1 hu]
      exact ⟨_, mem_append_right _ mem_cons_self, rfl, le_rfl⟩
  · refine pairwise_append.2 ⟨h.inTurn, pairwise_singleton .., fun u hu u' hu' hid => ?_⟩
    rw [mem_singleton.1 hu'] at hid ⊢
    -- The earlier tensor had the same buffer, whose last use is over.
    obtain ⟨c, hc, hspan, hle⟩ := h.held u hu
    have heq : c = b := h.eq_of_id hc hmem ((congrArg Span.bufferId hspan).symm.trans hid)
    exact hle.trans_lt (heq ▸ hb.1)

/-- A tensor gets a buffer of its own. -/
theorem fresh (hsize : l.sizeBytes ≤ a) (ha : alignment ∣ a) :
    Reused alignment (uses ++ [(l, ⟨⟨st.nextBufferId, st.currentOffset, a⟩, l.tensorName⟩)])
      { st with
        allocations := st.allocations ++ [⟨⟨st.nextBufferId, st.currentOffset, a⟩, l.tensorName⟩]
        buffers := st.buffers ++ [⟨⟨st.nextBufferId, st.currentOffset, a⟩, l.lastUse⟩]
        nextBufferId := st.nextBufferId + 1
        currentOffset := st.currentOffset + a } := by
  have hpush := h.spans.push ha
  rw [length_map, ← h.nextBufferId_eq] at hpush
  refine ⟨?_, ?_, ?_, fun u hu => ?_, fun u hu => ?_, ?_⟩
  · rw [map_append, h.allocations_eq]
    rfl
  · rw [length_append, length_singleton, h.nextBufferId_eq]
  · rw [map_append]
    exact hpush
  · rcases mem_append.1 hu with hu | hu
    · exact h.serves u hu
    · rw [mem_singleton.1 hu]
      exact ⟨rfl, hsize⟩
  · rcases mem_append.1 hu with hu | hu
    · obtain ⟨b, hb, hspan, hle⟩ := h.held u hu
      exact ⟨b, mem_append_left _ hb, hspan, hle⟩
    · rw [mem_singleton.1 hu]
      exact ⟨_, mem_append_right _ mem_cons_self, rfl, le_rfl⟩
  · refine pairwise_append.2 ⟨h.inTurn, pairwise_singleton .., fun u hu u' hu' hid => ?_⟩
    rw [mem_singleton.1 hu'] at hid
    -- No earlier tensor has the new buffer.
    obtain ⟨b, hb, hspan, -⟩ := h.held u hu
    have hlt := h.spans.ids _ (mem_map_of_mem hb)
    rw [← hspan, length_map, ← h.nextBufferId_eq, hid] at hlt
    exact absurd hlt (lt_irrefl _)

/-- One more tensor. -/
theorem place (hl : l.firstUse ≤ l.lastUse) (hsize : l.sizeBytes ≤ a)
    (ha : alignment ∣ a) (halign : alignUp l.sizeBytes alignment = some a)
    (hfit : st.currentOffset + a < 2 ^ 64) :
    ∃ alloc st', st.place alignment l = some st' ∧ Reused alignment (uses ++ [(l, alloc)]) st' ∧
      st'.currentOffset ≤ st.currentOffset + a := by
  rw [ReuseState.place, halign, bind_eq_bind, bind_some]
  have hsplit := takeWhile_append_dropWhile (p := fun b : Buffer => !b.free l a) (l := st.buffers)
  cases hdrop : st.buffers.dropWhile fun b => !b.free l a with
  | nil =>
    rw [add, if_pos hfit]
    exact ⟨_, _, rfl, h.fresh hsize ha, le_rfl⟩
  | cons b after =>
    rw [hdrop] at hsplit
    have hfree : b.free l a = true := by
      have := head?_dropWhile_not (fun b : Buffer => !b.free l a) st.buffers
      rw [hdrop] at this
      simpa using this
    exact ⟨_, _, rfl, h.reuse hl hsize hfree hsplit.symm, Nat.le_add_right ..⟩

end

/-- All tensors. -/
theorem placeAll (hk : k < 64) (h : Reused (2 ^ k) uses st)
    (hl : ∀ l ∈ lifetimes, l.firstUse ≤ l.lastUse)
    (hfit : st.currentOffset + (lifetimes.map (alignedSize (2 ^ k))).sum < 2 ^ 64) :
    ∃ uses' st', lifetimes.foldlM (ReuseState.place (2 ^ k)) st = some st' ∧
      Reused (2 ^ k) (uses ++ uses') st' ∧ uses'.map fst = lifetimes := by
  induction lifetimes generalizing uses st with
  | nil => exact ⟨[], st, rfl, by rwa [append_nil], rfl⟩
  | cons l ls ih =>
    rw [forall_mem_cons] at hl
    rw [map_cons, sum_cons] at hfit
    have halign : alignUp l.sizeBytes (2 ^ k) = some (alignedSize (2 ^ k) l) :=
      alignUp_eq hk (by omega)
    obtain ⟨alloc, st1, hplace, hst1, hle⟩ := h.place hl.1 (le_alignedSize (Nat.two_pow_pos k))
      dvd_alignedSize halign (by omega)
    obtain ⟨uses', st', hfold, hst', hmap⟩ := ih hst1 hl.2 (by omega)
    refine ⟨(l, alloc) :: uses', st', ?_, ?_, ?_⟩
    · rw [foldlM_cons, hplace, bind_eq_bind, bind_some, hfold]
    · rwa [append_assoc] at hst'
    · rw [map_cons, hmap]

end Reused

/-! ## Plans -/

/-- The plan gives the tensors these parts of the pool, and tensors that are in use at the
    same time have no byte in common. -/
structure Safe (alignment pool : ℕ) (uses : List Use) : Prop where
  serves : ∀ u ∈ uses, Serves u
  within : ∀ u ∈ uses, u.2.toSpan.Within alignment pool
  disjoint : uses.Pairwise fun u u' => u.1.overlaps u'.1 = true →
    Disjoint u.2.toSpan.range u'.2.toSpan.range

variable {uses : List Use}

theorem Reused.safe {st : ReuseState} (h : Reused alignment uses st) :
    Safe alignment st.currentOffset uses where
  serves := h.serves
  within u hu := by
    obtain ⟨b, hb, hspan, -⟩ := h.held u hu
    exact hspan ▸ h.spans.within _ (mem_map_of_mem hb)
  disjoint := by
    refine List.Pairwise.imp_of_mem (fun {u u'} hu hu' hturn hover => ?_) h.inTurn
    obtain ⟨b, hb, hspan, -⟩ := h.held u hu
    obtain ⟨b', hb', hspan', -⟩ := h.held u' hu'
    rw [TensorLifetime.overlaps, Bool.and_eq_true, decide_eq_true_eq, decide_eq_true_eq] at hover
    -- Two tensors of one buffer have it in turn, so they do not overlap.
    rcases eq_or_ne b.toSpan b'.toSpan with heq | hne
    · have hid := congrArg Span.bufferId (hspan.trans (heq.trans hspan'.symm))
      exact absurd (hturn hid) (not_lt.2 hover.2)
    · rw [hspan, hspan']
      exact (h.spans.apart.forall (mem_map_of_mem hb) (mem_map_of_mem hb') hne).disjoint

/-- Without reuse, all tensors get a buffer of their own. -/
theorem appendAll (hk : k < 64)
    (h : Spans (2 ^ k) (uses.map (·.2.toSpan)) pool) (hs : ∀ u ∈ uses, Serves u)
    (hfit : pool + (lifetimes.map (alignedSize (2 ^ k))).sum < 2 ^ 64) :
    ∃ uses' pool', lifetimes.foldlM (append (2 ^ k)) (uses.map snd, pool) =
        some ((uses ++ uses').map snd, pool') ∧
      Spans (2 ^ k) ((uses ++ uses').map (·.2.toSpan)) pool' ∧ (∀ u ∈ uses ++ uses', Serves u) ∧
      uses'.map fst = lifetimes := by
  induction lifetimes generalizing uses pool with
  | nil => exact ⟨[], pool, by rw [append_nil]; rfl, by rwa [append_nil],
      by rwa [append_nil], rfl⟩
  | cons l ls ih =>
    rw [map_cons, sum_cons] at hfit
    have halign : alignUp l.sizeBytes (2 ^ k) = some (alignedSize (2 ^ k) l) :=
      alignUp_eq hk (by omega)
    let u : Use := (l, ⟨⟨uses.length, pool, alignedSize (2 ^ k) l⟩, l.tensorName⟩)
    have hone : append (2 ^ k) (uses.map snd, pool) l =
        some ((uses ++ [u]).map snd, pool + alignedSize (2 ^ k) l) := by
      rw [append, halign, bind_eq_bind, bind_some, add, if_pos (by omega), length_map, map_append]
      rfl
    have hpush : Spans (2 ^ k) ((uses ++ [u]).map (·.2.toSpan)) (pool + alignedSize (2 ^ k) l) := by
      have := h.push (dvd_alignedSize (l := l))
      rw [length_map] at this
      rwa [map_append]
    have hone' : ∀ u' ∈ uses ++ [u], Serves u' := by
      intro u' hu'
      rcases mem_append.1 hu' with hu' | hu'
      · exact hs u' hu'
      · rw [mem_singleton.1 hu']
        exact ⟨rfl, le_alignedSize (Nat.two_pow_pos k)⟩
    obtain ⟨uses', pool', hfold, hspans, hserves, hmap⟩ := ih hpush hone' (by omega)
    refine ⟨u :: uses', pool', ?_, ?_, ?_, ?_⟩
    · rw [foldlM_cons, hone, bind_eq_bind, bind_some, hfold, append_assoc]
      rfl
    · rwa [append_assoc] at hspans
    · rwa [append_assoc] at hserves
    · rw [map_cons, hmap]

theorem Spans.safe (h : Spans alignment (uses.map (·.2.toSpan)) pool)
    (hs : ∀ u ∈ uses, Serves u) : Safe alignment pool uses where
  serves := hs
  within _ hu := h.within _ (mem_map_of_mem hu)
  disjoint := (pairwise_map.1 h.apart).imp fun hapart _ => hapart.disjoint

/-- The plan of any list of lifetimes has an allocation for each one, in order. The allocations
    are aligned, large enough and within the peak memory, and those of tensors whose lifetimes
    overlap are disjoint. -/
theorem planMemory_spec (lifetimes : List TensorLifetime) (config : PlannerConfig) (k : ℕ)
    (hk : k < 64) (halign : config.alignment = 2 ^ k)
    (huse : ∀ l ∈ lifetimes, l.firstUse ≤ l.lastUse)
    (hfit : (lifetimes.map (alignedSize config.alignment)).sum < 2 ^ 64) :
    ∃ plan, planMemory lifetimes config = some plan ∧
      plan.allocations.length = lifetimes.length ∧
      Safe config.alignment plan.peakMemory (lifetimes.zip plan.allocations) := by
  rw [halign] at hfit ⊢
  rw [planMemory, halign]
  by_cases hnil : lifetimes = []
  · rw [hnil]
    exact ⟨_, rfl, rfl, fun u hu => (nomatch hu), fun u hu => (nomatch hu), .nil⟩
  rw [if_neg hnil]
  -- The uses are the lifetimes together with the allocations.
  have hzip : ∀ uses : List Use, uses.map fst = lifetimes →
      lifetimes.zip (uses.map snd) = uses ∧ (uses.map snd).length = lifetimes.length := by
    rintro uses rfl
    exact ⟨by rw [zip_map']; exact map_id _, by rw [length_map, length_map]⟩
  cases config.enableBufferReuse with
  | true =>
    rw [planWithReuse]
    have hstart : Reused (2 ^ k) [] {} := ⟨rfl, rfl, .nil, fun u hu => (nomatch hu),
      fun u hu => (nomatch hu), .nil⟩
    obtain ⟨uses, st, hst, hreused, hmap⟩ := hstart.placeAll hk huse (by rwa [zero_add])
    obtain ⟨hz, hlen⟩ := hzip uses hmap
    refine ⟨⟨st.allocations, st.currentOffset, st.nextBufferId, st.reuseCount⟩, by rw [hst]; rfl,
      ?_⟩
    rw [hreused.allocations_eq]
    exact ⟨hlen, hz.symm ▸ hreused.safe⟩
  | false =>
    rw [planSequential]
    have hstart : Spans (2 ^ k) (([] : List Use).map (·.2.toSpan)) 0 := .nil
    obtain ⟨uses, pool, hst, hspans, hserves, hmap⟩ := appendAll hk hstart
      (fun u hu => absurd hu not_mem_nil) (by rwa [zero_add])
    obtain ⟨hz, hlen⟩ := hzip uses hmap
    refine ⟨_, by rw [map_nil] at hst; rw [hst]; rfl, hlen, ?_⟩
    change Safe _ _ (lifetimes.zip (uses.map snd))
    rw [hz]
    exact hspans.safe hserves

/-- The lifetimes are not in the order of time, and the third tensor has the first buffer. -/
theorem planMemory_reversed :
    ∃ plan, planMemory [⟨"b", 2, 3, 100⟩, ⟨"a", 0, 1, 8⟩, ⟨"c", 4, 4, 64⟩] {} = some plan ∧
      plan.allocations.length = 3 ∧
      Safe 64 plan.peakMemory (zip [⟨"b", 2, 3, 100⟩, ⟨"a", 0, 1, 8⟩, ⟨"c", 4, 4, 64⟩]
        plan.allocations) :=
  planMemory_spec _ {} 6 (by decide) rfl (by decide) (by decide)

/-! ## What reuse saves -/

variable {st : ReuseState} {q q' : List BufferAllocation × ℕ}

/-- After the same tensors, the planner with reuse needs no more of the pool, and opened a buffer
    less for every one it reused. -/
def Saves (st : ReuseState) (q : List BufferAllocation × ℕ) : Prop :=
  st.currentOffset ≤ q.2 ∧ st.nextBufferId + st.reuseCount = q.1.length

theorem Saves.place (h : Saves st q) (hs : append alignment q l = some q') :
    ∃ st', st.place alignment l = some st' ∧ Saves st' q' := by
  obtain ⟨a, ha, hs⟩ := bind_eq_some_iff.1 hs
  obtain ⟨pool, hpool, hs⟩ := bind_eq_some_iff.1 hs
  obtain ⟨hlt, rfl⟩ := add_eq_some.1 hpool
  cases hs
  obtain ⟨hle, hcount⟩ := h
  rw [ReuseState.place, ha, bind_eq_bind, bind_some]
  split
  · exact ⟨_, rfl, hle.trans (Nat.le_add_right ..), by simp; omega⟩
  · rw [add, if_pos (by omega)]
    exact ⟨_, rfl, Nat.add_le_add_right hle a, by simp; omega⟩

theorem Saves.placeAll (h : Saves st q) (hs : lifetimes.foldlM (append alignment) q = some q') :
    ∃ st', lifetimes.foldlM (ReuseState.place alignment) st = some st' ∧ Saves st' q' := by
  induction lifetimes generalizing st q with
  | nil =>
    cases hs
    exact ⟨st, rfl, h⟩
  | cons l ls ih =>
    obtain ⟨q1, h1, hs⟩ := bind_eq_some_iff.1 hs
    obtain ⟨st1, h2, h⟩ := h.place h1
    rw [foldlM_cons, h2]
    exact ih h hs

/-- With reuse, the plan overflows only if it does without, and needs no more memory. -/
theorem planWithReuse_saves (h : planSequential lifetimes alignment = some q) :
    ∃ st, planWithReuse lifetimes alignment = some st ∧ Saves st q :=
  Saves.placeAll ⟨le_rfl, rfl⟩ h

theorem planWithReuse_saves_pair :
    ∃ st, planWithReuse [⟨"a", 0, 1, 8⟩, ⟨"b", 2, 3, 8⟩] 64 = some st ∧
      Saves st ([⟨⟨0, 0, 64⟩, "a"⟩, ⟨⟨1, 64, 64⟩, "b"⟩], 128) :=
  planWithReuse_saves rfl

end SmallAIOS.OnnxRt.MemoryPlanner

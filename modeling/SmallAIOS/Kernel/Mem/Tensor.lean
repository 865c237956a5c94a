import SmallAIOS.Kernel.Mem.Basic
import SmallAIOS.Lib.Run
import Mathlib.Algebra.BigOperators.Group.Finset.Piecewise
import Mathlib.Data.Fintype.Card

/-!
# The tensor memory pool

Reference-counted buffers in an arena. A bump pointer moves through the arena,
past each buffer allocated, and back to its start when the pool is reset; the
slot of a buffer, but not its memory, is reused once the last reference to it is
released.

Arithmetic on machine words and on reference counts wraps around, as in a
release build. As long as it does not (`Fits`) the buffers in use are within the
arena, aligned and apart, and their reference counts are right (`run_fits`). A
request so large that the end of the buffer wraps around is granted
(`allocate_wraps`), and a reference count wraps to zero (`retain_wraps`).
-/

namespace SmallAIOS.Mem

open Lib List Function Finset Nat Function

/-- Minimum alignment for tensor buffers. -/
def tensorAlignment : ℕ := 64

/-- Maximum number of tensor buffers tracked in the pool. -/
def maxTensorBuffers : ℕ := 4096

/-- Metadata for a single tensor buffer. -/
structure TensorEntry where
  /-- Offset from pool base. -/
  offset : ℕ
  /-- Size in bytes. -/
  size : ℕ
  /-- Reference count, a 32-bit number. -/
  refcount : ℕ
  /-- Whether this entry is in use. -/
  active : Bool

/-- An entry not in use. -/
def TensorEntry.empty : TensorEntry := ⟨0, 0, 0, false⟩

/-- Tensor memory pool with arena allocation. -/
structure TensorPool where
  /-- Base address of the arena. -/
  base : ℕ
  /-- Total size of the arena in bytes. -/
  capacity : ℕ
  /-- Current bump pointer offset. -/
  bumpOffset : ℕ
  /-- Buffer metadata. -/
  entries : Fin maxTensorBuffers → TensorEntry
  /-- Number of active entries. -/
  activeCount : ℕ

namespace TensorPool

/-- An uninitialized tensor pool. -/
def new : TensorPool := ⟨0, 0, 0, fun _ => .empty, 0⟩

variable (p : TensorPool)

/-- Initialize the tensor pool with a contiguous arena. -/
def init (base capacity : ℕ) : TensorPool :=
  { p with base, capacity, bumpOffset := 0, activeCount := 0 }

/-- The first slot that is not in use. -/
def findFreeSlot : Option (Fin maxTensorBuffers) :=
  (finRange maxTensorBuffers).find? fun i => !(p.entries i).active

/-- The bump pointer, rounded up. -/
def alignedOffset : ℕ :=
  alignDown ((p.bumpOffset + tensorAlignment - 1) % 2 ^ 64) tensorAlignment

/-- Allocate a tensor buffer of `size` bytes: its handle and its address. -/
def allocate (size : ℕ) : Except MemError (ℕ × ℕ) × TensorPool :=
  if size = 0 then (.error .badAlignment, p)
  else if p.capacity < (p.alignedOffset + size) % 2 ^ 64 then (.error .tensorPoolExhausted, p)
  else match p.findFreeSlot with
    | none => (.error .tensorPoolExhausted, p)
    | some slot =>
      (.ok (slot, (p.base + p.alignedOffset) % 2 ^ 64),
        { p with
          entries := update p.entries slot ⟨p.alignedOffset, size, 1, true⟩
          bumpOffset := (p.alignedOffset + size) % 2 ^ 64
          activeCount := (p.activeCount + 1) % 2 ^ 64 })

/-- The slot of a handle, if it is in use. -/
def getEntry (handle : ℕ) : Option (Fin maxTensorBuffers) :=
  if h : handle < maxTensorBuffers then
    if (p.entries ⟨handle, h⟩).active then some ⟨handle, h⟩ else none
  else none

/-- Replace the reference count of an entry. -/
def setRefcount (slot : Fin maxTensorBuffers) (n : ℕ) : TensorPool :=
  { p with entries := update p.entries slot { p.entries slot with refcount := n } }

/-- Mark an entry inactive. -/
def deactivate (slot : Fin maxTensorBuffers) : TensorPool :=
  { p with
    entries := update p.entries slot { p.entries slot with active := false }
    activeCount := (p.activeCount + (2 ^ 64 - 1)) % 2 ^ 64 }

/-- Increment the reference count of a tensor buffer. -/
def retain (handle : ℕ) : Except MemError Unit × TensorPool :=
  match p.getEntry handle with
  | none => (.error .invalidAddress, p)
  | some slot => (.ok (), p.setRefcount slot (((p.entries slot).refcount + 1) % 2 ^ 32))

/-- Decrement the reference count. The buffer is logically freed when it reaches
    zero, but arena space is not reclaimed until reset. -/
def release (handle : ℕ) : Except MemError Unit × TensorPool :=
  match p.getEntry handle with
  | none => (.error .invalidAddress, p)
  | some slot =>
    let p' := p.setRefcount slot (((p.entries slot).refcount + (2 ^ 32 - 1)) % 2 ^ 32)
    -- Last reference: mark inactive.
    (.ok (), if (p.entries slot).refcount = 1 then p'.deactivate slot else p')

/-- Free all allocations and reset the bump pointer. -/
def reset : TensorPool :=
  { p with
    bumpOffset := 0
    activeCount := 0
    entries := fun i => { p.entries i with active := false, refcount := 0 } }

/-! ## Runs -/

/-- The calls of the pool. -/
inductive Call
  | allocate (size : ℕ)
  | retain (handle : ℕ)
  | release (handle : ℕ)
  | reset
  deriving DecidableEq

/-- What a call returns. -/
inductive Ret
  | allocated (handle addr : ℕ)
  | ok
  | error (e : MemError)
  deriving DecidableEq

/-- What a call that returns nothing but errors returns. -/
def Ret.ofUnit : Except MemError Unit → Ret
  | .ok () => .ok
  | .error e => .error e

/-- What `allocate` returns. -/
def Ret.ofHandle : Except MemError (ℕ × ℕ) → Ret
  | .ok r => .allocated r.1 r.2
  | .error e => .error e

/-- One call. -/
def step (p : TensorPool) : Call → Option (Ret × TensorPool)
  | .allocate size => some (.ofHandle (p.allocate size).1, (p.allocate size).2)
  | .retain handle => some (.ofUnit (p.retain handle).1, (p.retain handle).2)
  | .release handle => some (.ofUnit (p.release handle).1, (p.release handle).2)
  | .reset => some (.ok, p.reset)

/-- The calls made since the buffer of a handle was allocated. -/
def sinceAllocated (handle : ℕ) (t : List (Call × Ret)) : List (Call × Ret) :=
  t.takeWhile fun e => match e.2 with
    | .allocated h _ => decide (h ≠ handle)
    | _ => true

/-- How often a buffer was retained since it was allocated. -/
def retains (handle : ℕ) (t : List (Call × Ret)) : ℕ :=
  (sinceAllocated handle t).count (.retain handle, .ok)

/-- How often a buffer was released since it was allocated. -/
def releases (handle : ℕ) (t : List (Call × Ret)) : ℕ :=
  (sinceAllocated handle t).count (.release handle, .ok)

/-- A call whose arithmetic does not wrap around. -/
def Fits (p : TensorPool) : Call → Prop
  | .allocate size =>
    (p.bumpOffset + (tensorAlignment - 1)) / tensorAlignment * tensorAlignment + size < 2 ^ 64
  | .retain handle => ∀ i, p.getEntry handle = some i → (p.entries i).refcount < 2 ^ 32 - 1
  | _ => True

/-- What holds of the pool over `capacity` bytes after the calls `t`. -/
structure Sound (capacity : ℕ) (t : List (Call × Ret)) (p : TensorPool) : Prop where
  bounds : ∀ i, (p.entries i).active = true →
    (p.entries i).offset % tensorAlignment = 0 ∧
      (p.entries i).offset + (p.entries i).size ≤ capacity
  apart : ∀ i j, (p.entries i).active = true → (p.entries j).active = true → i ≠ j →
    Apart (p.entries i).offset (p.entries i).size (p.entries j).offset (p.entries j).size
  count : p.activeCount = (univ.filter fun i => (p.entries i).active = true).card
  refcount : ∀ i, (p.entries i).active = true →
    (p.entries i).refcount + releases i t = 1 + retains i t

/-! ## The history of a buffer -/

variable {capacity : ℕ} {p p' : TensorPool} {t : List (Call × Ret)} {a : Call} {r : Ret}

variable {handle : ℕ} {e : TensorEntry}

section

variable (h : ∀ addr, r ≠ .allocated handle addr)
include h

theorem sinceAllocated_cons :
    sinceAllocated handle ((a, r) :: t) = (a, r) :: sinceAllocated handle t := by
  refine takeWhile_cons_of_pos ?_
  cases r with
  | allocated k addr =>
    refine decide_eq_true fun hk => ?_
    exact h addr (by rw [hk])
  | ok => rfl
  | error e => rfl

theorem retains_cons
    (h' : (a, r) ≠ (.retain handle, .ok)) : retains handle ((a, r) :: t) = retains handle t := by
  rw [retains, sinceAllocated_cons h, count_cons_of_ne h', retains]

theorem releases_cons
    (h' : (a, r) ≠ (.release handle, .ok)) : releases handle ((a, r) :: t) = releases handle t := by
  rw [releases, sinceAllocated_cons h, count_cons_of_ne h', releases]

end

/-! ## The steps -/

/-- What holds of the entry of a buffer in use. -/
structure EntryOk (t : List (Call × Ret)) (bump i : ℕ) (e : TensorEntry) : Prop where
  aligned : e.offset % tensorAlignment = 0
  below : e.offset + e.size ≤ bump
  refcount : e.refcount + releases i t = 1 + retains i t
  refcount_pos : 0 < e.refcount
  refcount_lt : e.refcount < 2 ^ 32

/-- The buffers in use are behind the bump pointer. -/
structure Inv (capacity : ℕ) (t : List (Call × Ret)) (p : TensorPool) : Prop where
  capacity_eq : p.capacity = capacity
  bump_le : p.bumpOffset ≤ capacity
  entry : ∀ i, (p.entries i).active = true → EntryOk t p.bumpOffset i (p.entries i)
  apart : ∀ i j, (p.entries i).active = true → (p.entries j).active = true → i ≠ j →
    Apart (p.entries i).offset (p.entries i).size (p.entries j).offset (p.entries j).size
  count : p.activeCount = (univ.filter fun i => (p.entries i).active = true).card

theorem Inv.sound (h : Inv capacity t p) : Sound capacity t p where
  bounds i hi := ⟨(h.entry i hi).aligned, (h.entry i hi).below.trans h.bump_le⟩
  apart := h.apart
  count := h.count
  refcount i hi := (h.entry i hi).refcount

/-- The call `e` is not about the buffer of a handle. -/
def Skips (t : List (Call × Ret)) (e : Call × Ret) (handle : ℕ) : Prop :=
  retains handle (e :: t) = retains handle t ∧ releases handle (e :: t) = releases handle t

theorem EntryOk.mono {bump bump' i : ℕ} (h : EntryOk t bump i e) (hle : bump ≤ bump')
    (hs : Skips t (a, r) i) : EntryOk ((a, r) :: t) bump' i e where
  __ := h
  below := h.below.trans hle
  refcount := by
    rw [hs.1, hs.2]
    exact h.refcount

/-- The number of active entries, when one entry is replaced. -/
theorem card_update (f : Fin maxTensorBuffers → TensorEntry) (slot : Fin maxTensorBuffers)
    (e : TensorEntry) :
    (univ.filter fun i => (update f slot e i).active = true).card +
        (f slot).active.toNat =
      (univ.filter fun i => (f i).active = true).card + e.active.toNat := by
  have hrest : ∑ i ∈ univ.erase slot,
        (if (update f slot e i).active = true then 1 else 0) =
      ∑ i ∈ univ.erase slot, (if (f i).active = true then 1 else 0) :=
    sum_congr rfl fun i hi => by
      rw [update_of_ne (ne_of_mem_erase hi)]
  rw [card_filter, card_filter, ← add_sum_erase _ _ (mem_univ slot),
    ← add_sum_erase univ (fun i => if (f i).active = true then 1 else 0)
      (mem_univ slot), hrest, update_self]
  generalize ∑ i ∈ univ.erase slot, (if (f i).active = true then 1 else 0) = n
  cases (f slot).active <;> cases e.active <;> simp <;> omega

variable {slot : Fin maxTensorBuffers}

/-- One entry is replaced, by a call that is about its buffer only. -/
theorem Inv.update (h : Inv capacity t p) (hp : p'.entries = update p.entries slot e)
    (hcap : p'.capacity = p.capacity) (hle : p.bumpOffset ≤ p'.bumpOffset)
    (hbump : p'.bumpOffset ≤ capacity)
    (hs : ∀ i : Fin maxTensorBuffers, i ≠ slot → Skips t (a, r) i)
    (he : e.active = true → EntryOk ((a, r) :: t) p'.bumpOffset slot e ∧
      ∀ j, (p.entries j).active = true → j ≠ slot →
        Apart e.offset e.size (p.entries j).offset (p.entries j).size)
    (hcount : p'.activeCount + (p.entries slot).active.toNat = p.activeCount + e.active.toNat) :
    Inv capacity ((a, r) :: t) p' := by
  refine ⟨hcap.trans h.capacity_eq, hbump, fun i hi => ?_, fun i j hi hj hne => ?_, ?_⟩
  · rw [hp] at hi ⊢
    by_cases hslot : i = slot
    · subst hslot
      rw [update_self] at hi ⊢
      exact (he hi).1
    · rw [update_of_ne hslot] at hi ⊢
      exact (h.entry i hi).mono hle (hs i hslot)
  · rw [hp] at hi hj ⊢
    by_cases hi' : i = slot
    · subst hi'
      rw [update_of_ne hne.symm] at hj ⊢
      rw [update_self] at hi ⊢
      exact (he hi).2 j hj hne.symm
    · rw [update_of_ne hi'] at hi ⊢
      by_cases hj' : j = slot
      · subst hj'
        rw [update_self] at hj ⊢
        exact ((he hj).2 i hi hi').symm
      · rw [update_of_ne hj'] at hj ⊢
        exact h.apart i j hi hj hne
  · have hcard := card_update p.entries slot e
    rw [hp]
    have := h.count
    omega

/-- A call that is about no buffer in use. -/
theorem Inv.skip (h : Inv capacity t p) (hs : ∀ i : Fin maxTensorBuffers, Skips t (a, r) i) :
    Inv capacity ((a, r) :: t) p where
  __ := h
  entry i hi := (h.entry i hi).mono le_rfl (hs i)

theorem skips_error (a : Call) (e : MemError) (handle : ℕ) : Skips t (a, .error e) handle :=
  ⟨retains_cons (by simp) (by simp), releases_cons (by simp) (by simp)⟩

theorem getEntry_eq_some {i : Fin maxTensorBuffers}
    (h : p.getEntry handle = some i) : handle = i ∧ (p.entries i).active = true := by
  rw [getEntry] at h
  split at h
  · split at h
    · next hact =>
      cases h
      exact ⟨rfl, hact⟩
    · cases h
  · cases h

/-- The bump pointer rounded up, if that does not wrap around. -/
theorem alignedOffset_eq (h : (p.bumpOffset + 63) / 64 * 64 < 2 ^ 64) :
    p.alignedOffset = (p.bumpOffset + 63) / 64 * 64 := by
  have hmod : (p.bumpOffset + 64 - 1) % 2 ^ 64 = p.bumpOffset + 63 := by omega
  have hdown : alignDown (p.bumpOffset + 63) 64 = (p.bumpOffset + 63) / 64 * 64 :=
    alignDown_two_pow _ 6
  rw [alignedOffset, tensorAlignment, hmod, hdown]

variable {size k : ℕ} (base : ℕ)

theorem Fits.alignedOffset (h : p.Fits (.allocate size)) :
    p.alignedOffset % tensorAlignment = 0 ∧ p.bumpOffset ≤ p.alignedOffset ∧
      p.alignedOffset + size < 2 ^ 64 := by
  rw [Fits, tensorAlignment] at h
  rw [alignedOffset_eq (by omega), tensorAlignment]
  omega

theorem Inv.activeCount_le (h : Inv capacity t p) : p.activeCount ≤ 4096 := by
  rw [h.count]
  exact (card_le_univ _).trans (Fintype.card_fin _).le

theorem Inv.allocate (h : Inv capacity t p) (hf : p.Fits (.allocate size)) :
    Inv capacity ((.allocate size, .ofHandle (p.allocate size).1) :: t) (p.allocate size).2 := by
  obtain ⟨hal, hle, hlt⟩ := Fits.alignedOffset hf
  rw [TensorPool.allocate]
  split
  · exact h.skip (skips_error _ _ ·)
  · rw [mod_eq_of_lt hlt]
    split
    · exact h.skip (skips_error _ _ ·)
    · next hcap =>
      split
      · exact h.skip (skips_error _ _ ·)
      · next slot hslot =>
        have hfree : (p.entries slot).active = false := by simpa using find?_some hslot
        have hcount := h.activeCount_le
        have hne {i : Fin maxTensorBuffers} (hi : i ≠ slot) (addr : ℕ) :
            Ret.ofHandle (.ok (slot, (p.base + p.alignedOffset) % 2 ^ 64)) ≠ .allocated i addr := by
          simp only [Ret.ofHandle, ne_eq, Ret.allocated.injEq, not_and]
          exact fun heq => absurd (Fin.ext heq.symm) hi
        refine h.update rfl rfl (hle.trans (le_add_right _ _)) (h.capacity_eq ▸ not_lt.1 hcap)
          (fun i hi => ⟨retains_cons (hne hi) (by simp), releases_cons (hne hi) (by simp)⟩)
          (fun _ => ⟨⟨hal, le_rfl, ?_, Nat.one_pos, Nat.one_lt_two_pow (by decide)⟩,
            fun j hj _ => .inr ((h.entry j hj).below.trans hle)⟩) ?_
        · rw [releases, retains, Ret.ofHandle, sinceAllocated, takeWhile_cons_of_neg (by simp)]
          rfl
        · rw [hfree]
          dsimp only
          rw [mod_eq_of_lt (by omega)]
          rfl

theorem skips_retain (h : handle ≠ k) : Skips t (.retain k, .ok) handle :=
  ⟨retains_cons (by simp) (by simp [h.symm]), releases_cons (by simp) (by simp)⟩

theorem skips_release (h : handle ≠ k) : Skips t (.release k, .ok) handle :=
  ⟨retains_cons (by simp) (by simp), releases_cons (by simp) (by simp [h.symm])⟩

section

variable (h : Inv capacity t p)
include h

theorem Inv.retain (hf : p.Fits (.retain handle)) :
    Inv capacity ((.retain handle, .ofUnit (p.retain handle).1) :: t) (p.retain handle).2 := by
  rw [TensorPool.retain]
  split
  · exact h.skip (skips_error _ _ ·)
  · next slot hslot =>
    have hlt := hf slot hslot
    obtain ⟨rfl, hact⟩ := getEntry_eq_some hslot
    have hentry := h.entry slot hact
    have href := hentry.refcount
    rw [mod_eq_of_lt (by omega)]
    refine h.update rfl rfl le_rfl h.bump_le (fun i hi => skips_retain (Fin.val_ne_of_ne hi))
      (fun _ => ⟨⟨hentry.aligned, hentry.below, ?_, succ_pos _, add_lt_of_lt_sub hlt⟩,
        fun j hj hne => h.apart slot j hact hj hne.symm⟩) rfl
    rw [Ret.ofUnit, retains, sinceAllocated_cons (by simp), count_cons_self, ← retains,
      releases_cons (by simp) (by simp)]
    dsimp only
    omega

theorem Inv.release (handle : ℕ) :
    Inv capacity ((.release handle, .ofUnit (p.release handle).1) :: t) (p.release handle).2 := by
  rw [TensorPool.release]
  split
  · exact h.skip (skips_error _ _ ·)
  · next slot hslot =>
    obtain ⟨rfl, hact⟩ := getEntry_eq_some hslot
    have hentry := h.entry slot hact
    have hpos := hentry.refcount_pos
    have hlt := hentry.refcount_lt
    have href := hentry.refcount
    have hmod : ((p.entries slot).refcount + (2 ^ 32 - 1)) % 2 ^ 32 =
        (p.entries slot).refcount - 1 := by omega
    have hskip (i : Fin maxTensorBuffers) (hi : i ≠ slot) :
        Skips t (.release slot, .ofUnit (.ok ())) i := skips_release (Fin.val_ne_of_ne hi)
    rw [hmod]
    split
    · -- The entry is replaced twice.
      have hentries : ((p.setRefcount slot ((p.entries slot).refcount - 1)).deactivate slot).entries
          = Function.update p.entries slot
            { p.entries slot with
              refcount := (p.entries slot).refcount - 1
              active := false } := by
        simp [TensorPool.deactivate, setRefcount]
      refine h.update hentries rfl le_rfl h.bump_le hskip (fun hfalse => by cases hfalse) ?_
      have hcount := h.activeCount_le
      have hone : 1 ≤ p.activeCount := by
        rw [h.count]
        exact card_pos.2 ⟨slot, by simp [hact]⟩
      rw [hact]
      change (p.activeCount + (2 ^ 64 - 1)) % 2 ^ 64 + 1 = p.activeCount + 0
      omega
    · next hne =>
      refine h.update rfl rfl le_rfl h.bump_le hskip (fun _ => ⟨⟨hentry.aligned, hentry.below,
        ?_, ?_, ?_⟩, fun j hj hne => h.apart slot j hact hj hne.symm⟩) rfl
      · rw [Ret.ofUnit, releases, sinceAllocated_cons (by simp), count_cons_self, ← releases,
          retains_cons (by simp) (by simp)]
        dsimp only
        omega
      · dsimp only
        omega
      · dsimp only
        omega

theorem Inv.reset : Inv capacity ((.reset, .ok) :: t) p.reset where
  capacity_eq := h.capacity_eq
  bump_le := zero_le _
  entry _ hi := by cases hi
  apart _ _ hi := by cases hi
  count := by simp [TensorPool.reset]

theorem Inv.step (hf : p.Fits a) (hs : p.step a = some (r, p')) :
    Inv capacity ((a, r) :: t) p' := by
  cases a with
  | allocate size =>
    cases hs
    exact h.allocate hf
  | retain handle =>
    cases hs
    exact h.retain hf
  | release handle =>
    cases hs
    exact h.release handle
  | reset =>
    cases hs
    exact h.reset

end

/-! ## A pool with one buffer -/

theorem findFreeSlot_eq (h : (p.entries slot).active = false)
    (hlt : ∀ i < slot, (p.entries i).active = true) : p.findFreeSlot = some slot := by
  rw [findFreeSlot, find?_eq_some_iff_getElem]
  refine ⟨by simp [h], slot, by simp, by simp, fun j hj => ?_⟩
  simp [hlt ⟨j, hj.trans slot.isLt⟩ hj]

theorem allocate_of_slot (h0 : size ≠ 0)
    (hcap : (p.alignedOffset + size) % 2 ^ 64 ≤ p.capacity) (hslot : p.findFreeSlot = some slot) :
    p.allocate size = (.ok (slot, (p.base + p.alignedOffset) % 2 ^ 64),
      { p with
        entries := update p.entries slot ⟨p.alignedOffset, size, 1, true⟩
        bumpOffset := (p.alignedOffset + size) % 2 ^ 64
        activeCount := (p.activeCount + 1) % 2 ^ 64 }) := by
  rw [TensorPool.allocate, if_neg h0, if_neg (not_lt.2 hcap), hslot]

/-- A pool of 4096 bytes with one buffer of 64 bytes. -/
def oneBuffer (base : ℕ) : TensorPool where
  base
  capacity := 4096
  bumpOffset := 64
  entries := update (fun _ => .empty) ⟨0, by decide⟩ ⟨0, 64, 1, true⟩
  activeCount := 1

theorem step_oneBuffer : (new.init base 4096).step (.allocate 64) =
    some (.allocated 0 (base % 2 ^ 64), oneBuffer base) := by
  have hslot : (new.init base 4096).findFreeSlot = some ⟨0, by decide⟩ :=
    findFreeSlot_eq rfl fun i hi => absurd hi (not_lt_zero _)
  have hoff : (new.init base 4096).alignedOffset = 0 :=
    (alignedOffset_eq (by simp [init])).trans (by simp [init])
  have hcap : ((new.init base 4096).alignedOffset + 64) % 2 ^ 64 ≤ 4096 := by
    rw [hoff]
    decide
  rw [step, allocate_of_slot (by decide) hcap hslot, hoff]
  rfl

/-! ## Runs without and with arithmetic that wraps around -/

/-- In every run in which no arithmetic wraps around, the buffers in use are
    within the arena, aligned and apart, they are counted, and their reference
    counts are one plus their retains minus their releases. -/
theorem run_fits {base : ℕ} (hr : ReachesBy Fits step (new.init base capacity) t p) :
    Sound capacity t p := by
  suffices Inv capacity t p from this.sound
  induction hr with
  | nil =>
    refine ⟨rfl, zero_le _, fun _ hi => ?_, fun _ _ hi => ?_, ?_⟩
    · cases hi
    · cases hi
    · simp [new, init, TensorEntry.empty]
  | cons _ hf hs ih => exact ih.step hf hs

/-- A buffer is allocated and retained. -/
theorem run_fits_oneBuffer : ∃ p, Sound 4096
      [(.retain 0, .ok), (.allocate 64, .allocated 0 0x1000000)] p ∧
    (p.entries ⟨0, by decide⟩).refcount = 2 := by
  have hslot : (oneBuffer 0x1000000).getEntry 0 = some ⟨0, by decide⟩ := rfl
  have hfits : (new.init 0x1000000 4096).Fits (.allocate 64) := by
    simp [Fits, init, tensorAlignment]
  have hfits' : (oneBuffer 0x1000000).Fits (.retain 0) := by
    intro i hi
    cases hslot.symm.trans hi
    decide
  refine ⟨_, run_fits (.cons (.cons .nil hfits (step_oneBuffer 0x1000000)) hfits'
    (by rw [step, TensorPool.retain, hslot]; rfl)), ?_⟩
  simp [setRefcount, oneBuffer]

/-- The calls of an overflow: a buffer of 64 bytes, and one that is as large as
    the rest of the address space. -/
def wrapTrace : List (Call × Ret) :=
  [(.allocate (2 ^ 64 - 64), .allocated 1 0x1000040), (.allocate 64, .allocated 0 0x1000000)]

/-- In an arena of 4096 bytes a buffer of `2 ^ 64 - 64` bytes is allocated: its end
    wraps around to the start of the arena. -/
theorem allocate_wraps :
    ∃ p, Reaches step (new.init 0x1000000 4096) wrapTrace p ∧ ¬ Sound 4096 wrapTrace p := by
  have hslot : (oneBuffer 0x1000000).findFreeSlot = some ⟨1, by decide⟩ := by
    refine findFreeSlot_eq rfl fun i hi => ?_
    obtain rfl : i = ⟨0, by decide⟩ := Fin.ext (lt_one_iff.1 hi)
    rfl
  have hcap : ((oneBuffer 0x1000000).alignedOffset + (2 ^ 64 - 64)) % 2 ^ 64 ≤ 4096 := by
    decide
  have hall := allocate_of_slot (by decide) hcap hslot
  refine ⟨_, .cons (.cons .nil (step_oneBuffer 0x1000000)) (by rw [step, hall]; rfl), ?_⟩
  intro hsound
  have hbounds := (hsound.bounds ⟨1, by decide⟩ (by simp)).2
  simp at hbounds

/-- A buffer retained `n` times. -/
theorem retains_run (base n : ℕ) : ∃ p, Reaches step (new.init base 4096)
      (replicate n (.retain 0, .ok) ++ [(.allocate 64, .allocated 0 (base % 2 ^ 64))]) p ∧
    (p.entries ⟨0, by decide⟩).active = true ∧
    (p.entries ⟨0, by decide⟩).refcount = (n + 1) % 2 ^ 32 := by
  induction n with
  | zero => exact ⟨_, .cons .nil (step_oneBuffer base), rfl, rfl⟩
  | succ n ih =>
    obtain ⟨p, hr, hact, href⟩ := ih
    have hslot : p.getEntry 0 = some ⟨0, by decide⟩ := by
      rw [getEntry, dif_pos (by decide), if_pos hact]
    refine ⟨_, .cons hr (by rw [step, TensorPool.retain, hslot]; rfl), ?_, ?_⟩
    · simpa [setRefcount] using hact
    · simp [setRefcount, href]

/-- The reference count of a buffer that is in use wraps around to zero. -/
theorem retain_wraps : ∃ t p, Reaches step (new.init base 4096) t p ∧
    (p.entries ⟨0, by decide⟩).active = true ∧ (p.entries ⟨0, by decide⟩).refcount = 0 := by
  obtain ⟨p, hr, hact, href⟩ := retains_run base (2 ^ 32 - 1)
  exact ⟨_, p, hr, hact, href⟩

end TensorPool

end SmallAIOS.Mem

import Mathlib.Data.Finset.Card
import Mathlib.Algebra.Group.Nat.Defs

/-!
# The block allocator

The allocator knows of each block whether it is in use or bad and how often it has been
erased. It hands out blocks from a cursor on, in two passes: first those that are not
hot, i.e., whose erase count is not close to the budget, then any other one. A free block
whose budget is spent becomes bad.

`allocBlock_spec`: a block that is handed out was free (not `taken`), and from then on it
is taken; if there is none, all blocks are taken.
-/

namespace SmallAIOS.Fs.LittleFs

open List Function Nat

structure BlockAllocator where
  inUse : ℕ → Bool
  bad : ℕ → Bool
  eraseCounts : ℕ → ℕ
  /-- Where the next allocation starts. -/
  cursor : ℕ
  blockCount : ℕ
  /-- The number of times a block may be erased. -/
  blockCycles : ℕ

namespace BlockAllocator

def new (blockCount blockCycles : ℕ) (reserved : List ℕ) : BlockAllocator where
  inUse b := decide (b < blockCount) && reserved.contains b
  bad _ := false
  eraseCounts _ := 0
  cursor := 0
  blockCount := blockCount
  blockCycles := max blockCycles 1

variable (a : BlockAllocator) (b : ℕ)

def markFree : BlockAllocator :=
  if b < a.blockCount then { a with inUse := update a.inUse b false } else a

def markBad : BlockAllocator :=
  if b < a.blockCount then
    { a with inUse := update a.inUse b true, bad := update a.bad b true }
  else a

/-- Count an erase of the block. -/
def noteErase : BlockAllocator :=
  if b < a.blockCount then
    { a with
      eraseCounts := update a.eraseCounts b (min (a.eraseCounts b + 1) (2 ^ 32 - 1)) }
  else a

/-- The block is not handed out. -/
def taken : Bool := a.inUse b || a.bad b

/-- The block is free, but its budget is spent. -/
def worn : Bool :=
  decide (b < a.blockCount) && !a.taken b && decide (a.blockCycles ≤ a.eraseCounts b)

/-- The free blocks whose budget is spent become bad. -/
def retireWorn : BlockAllocator :=
  { a with inUse := fun b => a.inUse b || a.worn b, bad := fun b => a.bad b || a.worn b }

def hotThreshold : ℕ := a.blockCycles - max a.blockCycles 10 / 10

/-- The first free block from the cursor on, among the hot ones too or not. -/
def pick (acceptHot : Bool) : Option ℕ :=
  ((range a.blockCount).map fun i => (a.cursor + i) % a.blockCount).find? fun b =>
    !a.taken b && (acceptHot || decide (a.eraseCounts b < a.hotThreshold))

def allocBlock : Option ℕ × BlockAllocator :=
  if a.blockCount = 0 then (none, a)
  else
    let a := a.retireWorn
    match (a.pick false).or (a.pick true) with
    | some b =>
      (some b, { a with inUse := update a.inUse b true, cursor := (b + 1) % a.blockCount })
    | none => (none, a)

variable {a b} {a' : BlockAllocator} {c : ℕ} {o : Option ℕ}

@[simp] theorem blockCount_markFree : (a.markFree b).blockCount = a.blockCount := by
  rw [markFree]; split_ifs <;> rfl

@[simp] theorem blockCount_markBad : (a.markBad b).blockCount = a.blockCount := by
  rw [markBad]; split_ifs <;> rfl

@[simp] theorem blockCount_noteErase : (a.noteErase b).blockCount = a.blockCount := by
  rw [noteErase]; split_ifs <;> rfl

@[simp] theorem taken_noteErase : (a.noteErase b).taken c = a.taken c := by
  rw [noteErase]; split_ifs <;> rfl

@[simp] theorem bad_noteErase : (a.noteErase b).bad = a.bad := by
  rw [noteErase]; split_ifs <;> rfl

@[simp] theorem bad_markFree : (a.markFree b).bad = a.bad := by
  rw [markFree]; split_ifs <;> rfl

theorem taken_markFree_of_ne (h : c ≠ b) : (a.markFree b).taken c = a.taken c := by
  rw [markFree]
  split_ifs
  · simp only [taken, update_of_ne h]
  · rfl

theorem taken_markBad (h : a.taken c = true) : (a.markBad b).taken c = true := by
  rw [markBad]
  split_ifs
  · by_cases hc : c = b
    · simp [taken, hc]
    · simpa only [taken, update_of_ne hc] using h
  · exact h

theorem bad_markBad_of_ne (h : c ≠ b) : (a.markBad b).bad c = a.bad c := by
  rw [markBad]
  split_ifs
  · exact update_of_ne h ..
  · rfl

theorem bad_markBad_self (h : b < a.blockCount) : (a.markBad b).bad b = true := by
  rw [markBad, if_pos h]
  exact update_self ..

theorem taken_retireWorn : a.retireWorn.taken b = (a.taken b || a.worn b) := by
  simp only [retireWorn, taken]
  cases a.inUse b <;> cases a.bad b <;> cases a.worn b <;> rfl

/-- Every block is visited once from the cursor on. -/
theorem mem_candidates (hb : b < a.blockCount) :
    b ∈ (range a.blockCount).map fun i => (a.cursor + i) % a.blockCount := by
  have hcur := mod_lt a.cursor (zero_lt_of_lt hb)
  rcases lt_or_ge b (a.cursor % a.blockCount) with h | h
  · refine mem_map.2 ⟨b + a.blockCount - a.cursor % a.blockCount,
      mem_range.2 (by omega), ?_⟩
    rw [← mod_add_mod, add_sub_of_le (by omega), add_mod_right, mod_eq_of_lt hb]
  · refine mem_map.2 ⟨b - a.cursor % a.blockCount, mem_range.2 (by omega), ?_⟩
    rw [← mod_add_mod, add_sub_of_le h, mod_eq_of_lt hb]

theorem pick_eq_some {hot : Bool} (h : a.pick hot = some b) :
    b < a.blockCount ∧ a.taken b = false := by
  have hmem := mem_of_find?_eq_some h
  have hp := find?_some h
  obtain ⟨i, hi, rfl⟩ := mem_map.1 hmem
  have hn : 0 < a.blockCount := zero_lt_of_lt (mem_range.1 hi)
  refine ⟨mod_lt _ hn, ?_⟩
  simp only [Bool.and_eq_true, Bool.not_eq_true'] at hp
  exact hp.1

/-- What an allocation that gives `o` leaves. -/
structure Allocated (a : BlockAllocator) (o : Option ℕ) (a' : BlockAllocator) : Prop where
  blockCount_eq : a'.blockCount = a.blockCount
  taken_iff : ∀ b, a'.taken b = true ↔ a.taken b = true ∨ a.worn b = true ∨ o = some b
  bad_iff : ∀ b, a'.bad b = true ↔ a.bad b = true ∨ a.worn b = true
  free : ∀ b, o = some b → b < a.blockCount ∧ a.taken b = false ∧ a.worn b = false
  full : o = none → ∀ b < a.blockCount, a'.taken b = true

theorem allocBlock_spec (h : a.allocBlock = (o, a')) : Allocated a o a' := by
  rw [allocBlock] at h
  split_ifs at h with hn
  · cases h
    have hworn : ∀ b, a.worn b = false := fun b => by simp [worn, hn]
    exact ⟨rfl, fun b => by simp [hworn], fun b => by simp [hworn],
      fun b hb => (nomatch hb), fun _ b hb => absurd hb (by omega)⟩
  · dsimp only at h
    rcases hp : (a.retireWorn.pick false).or (a.retireWorn.pick true) with _ | c
    · rw [hp] at h
      cases h
      have hnone := (Option.or_eq_none_iff.1 hp).2
      refine ⟨rfl, fun b => ?_, fun b => ?_, fun b hb => (nomatch hb), ?_⟩
      · simp [taken_retireWorn]
      · simp [retireWorn]
      · intro _ b hb
        simpa using find?_eq_none.1 hnone b (mem_candidates hb)
    · rw [hp] at h
      cases h
      have hc : c < a.retireWorn.blockCount ∧ a.retireWorn.taken c = false := by
        rcases Option.or_eq_some_iff.1 hp with hp | ⟨-, hp⟩ <;> exact pick_eq_some hp
      rw [taken_retireWorn, Bool.or_eq_false_iff] at hc
      refine ⟨rfl, fun b => ?_, fun b => ?_, fun b hb => ?_, fun h => (nomatch h)⟩
      · by_cases hb : b = c
        · simp [taken, hb]
        · have := taken_retireWorn (a := a) (b := b)
          simp only [taken] at this ⊢
          rw [update_of_ne hb, this]
          simp [Ne.symm hb]
      · simp [retireWorn]
      · cases hb
        exact hc

namespace Allocated

theorem mono (h : Allocated a o a') (hb : a.taken b = true) : a'.taken b = true :=
  (h.taken_iff b).2 (.inl hb)

theorem bad_self (h : Allocated a (some c) a') : a'.bad c = false := by
  obtain ⟨-, hfree, hworn⟩ := h.free c rfl
  have hbad : a.bad c = false := (Bool.or_eq_false_iff.1 hfree).2
  rw [← Bool.not_eq_true, h.bad_iff, hbad, hworn]
  simp

end Allocated

end BlockAllocator

end SmallAIOS.Fs.LittleFs

import Mathlib.Order.Lattice

/-!
# Sorted sets

A set of ordered elements, kept as the list of its elements in their order, which is the order
they are iterated over. The greatest one is the last one of the list (`SortedSet.max?_eq_some`),
and the least ones are dropped from its front (`SortedSet.toList_iterate_removeMin`).
-/

namespace Lib

open List

variable {α : Type*} [LinearOrder α]

/-- A set, iterated over in the order of its elements. -/
structure SortedSet (α : Type*) [LinearOrder α] where
  toList : List α
  sorted : toList.Pairwise (· < ·)
  deriving DecidableEq

namespace SortedSet

instance : Membership α (SortedSet α) := ⟨fun s a => a ∈ s.toList⟩

instance (a : α) (s : SortedSet α) : Decidable (a ∈ s) := inferInstanceAs (Decidable (a ∈ s.toList))

/-- The set without elements. -/
def empty : SortedSet α := ⟨[], .nil⟩

variable (s : SortedSet α)

/-- The number of elements. -/
def size : ℕ := s.toList.length

/-- The greatest element. -/
def max? : Option α := s.toList.getLast?

/-- Add an element. -/
def insert (a : α) : SortedSet α where
  toList := s.toList.filter (· < a) ++ a :: s.toList.filter (a < ·)
  sorted := by
    refine pairwise_append.2 ⟨s.sorted.filter _, pairwise_cons.2 ⟨?_, s.sorted.filter _⟩, ?_⟩
    · intro b hb
      exact of_decide_eq_true (mem_filter.1 hb).2
    · intro b hb c hc
      have hba : b < a := of_decide_eq_true (mem_filter.1 hb).2
      rcases mem_cons.1 hc with rfl | hc
      · exact hba
      · exact hba.trans (of_decide_eq_true (mem_filter.1 hc).2)

/-- Keep the elements with a property. -/
def filter (p : α → Bool) : SortedSet α := ⟨s.toList.filter p, s.sorted.filter p⟩

/-- Remove an element. -/
def erase (a : α) : SortedSet α := s.filter (· ≠ a)

/-- Add the elements of a list. -/
def insertAll (as : List α) : SortedSet α := as.foldl insert s

/-- Remove the least element. -/
def removeMin : SortedSet α := ⟨s.toList.tail, s.sorted.tail⟩

variable {s} {a b : α}

theorem mem_toList : a ∈ s.toList ↔ a ∈ s := Iff.rfl

@[simp] theorem not_mem_empty : a ∉ (empty : SortedSet α) := not_mem_nil

theorem mem_insert : b ∈ s.insert a ↔ b = a ∨ b ∈ s := by
  simp only [← mem_toList, insert]
  rcases lt_trichotomy b a with h | rfl | h
  · simp [h, h.not_gt, h.ne]
  · simp
  · simp [h, h.not_gt, h.ne']

theorem mem_filter {p : α → Bool} : b ∈ s.filter p ↔ b ∈ s ∧ p b = true := List.mem_filter

theorem mem_erase : b ∈ s.erase a ↔ b ∈ s ∧ b ≠ a := by
  rw [erase, mem_filter, decide_eq_true_eq]

theorem mem_insertAll {as : List α} : b ∈ s.insertAll as ↔ b ∈ as ∨ b ∈ s := by
  induction as generalizing s with
  | nil => simp [insertAll]
  | cons a as ih =>
    rw [insertAll, foldl_cons, ← insertAll, ih, mem_insert, mem_cons, or_left_comm, or_assoc]

/-- The greatest element is the one that is not below another. -/
theorem max?_eq_some : s.max? = some a ↔ a ∈ s ∧ ∀ b ∈ s, b ≤ a := by
  rw [max?, getLast?_eq_some_iff]
  constructor
  · rintro ⟨l, hl⟩
    have hs := s.sorted
    rw [hl, pairwise_append] at hs
    refine ⟨by simp [← mem_toList, hl], fun b hb => ?_⟩
    rw [← mem_toList, hl, mem_append, mem_singleton] at hb
    rcases hb with hb | rfl
    · exact (hs.2.2 b hb a mem_cons_self).le
    · exact le_rfl
  · rintro ⟨ha, hle⟩
    obtain ⟨l, l', hl⟩ := append_of_mem ha
    have hs := s.sorted
    rw [hl, pairwise_append, pairwise_cons] at hs
    -- An element behind `a` would be above it.
    cases l' with
    | nil => exact ⟨l, hl⟩
    | cons b l' =>
      have hb : b ∈ s := by simp [← mem_toList, hl]
      exact absurd (hs.2.1.1 b mem_cons_self) (hle b hb).not_gt

theorem max?_eq_none : s.max? = none ↔ s.toList = [] := getLast?_eq_none_iff

theorem toList_iterate_removeMin (n : ℕ) : (removeMin^[n] s).toList = s.toList.drop n := by
  induction n generalizing s with
  | zero => rfl
  | succ n ih => rw [Function.iterate_succ_apply, ih, removeMin, drop_tail]

end SortedSet

end Lib

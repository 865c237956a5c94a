import Mathlib.Data.List.Basic

/-!
# Intrusive lists

A list threaded through memory: every node holds, at its own address, the
address of the next one, and the address `0` ends the list. `Chain next a l`
says that `l` are the nodes met from `a` on. The list is determined by the
memory (`Chain.unique`), depends only on the words at its nodes
(`Chain.congr`), and is changed at its front (`Chain.pop`, `Chain.push`).
`thread` builds one, from the last node to the first.
-/

namespace Lib

open Function

/-- The nodes met from `a` on, following `next`. -/
inductive Chain (next : ℕ → ℕ) : ℕ → List ℕ → Prop
  | nil : Chain next 0 []
  | cons {a : ℕ} {l : List ℕ} : a ≠ 0 → Chain next (next a) l → Chain next a (a :: l)

/-- Link the nodes of `l` to a list, writing the last one first; the address of
    the first one, and the memory. -/
def thread (next : ℕ → ℕ) (l : List ℕ) : ℕ × (ℕ → ℕ) :=
  l.foldr (fun a r => (a, update r.2 a r.1)) (0, next)

namespace Chain

variable {next next' : ℕ → ℕ} {a b : ℕ} {l l' : List ℕ}

theorem unique (h : Chain next a l) (h' : Chain next a l') : l = l' := by
  induction h generalizing l' with
  | nil =>
    cases h' with
    | nil => rfl
    | cons h0 => exact absurd rfl h0
  | cons h0 _ ih =>
    cases h' with
    | nil => exact absurd rfl h0
    | cons _ h' => rw [ih h']

theorem congr (h : Chain next a l) (hl : ∀ x ∈ l, next' x = next x) : Chain next' a l := by
  induction h with
  | nil => exact .nil
  | @cons a l h0 _ ih =>
    refine .cons h0 ?_
    rw [hl a List.mem_cons_self]
    exact ih fun x hx => hl x (List.mem_cons_of_mem _ hx)

theorem nil_iff : Chain next a [] ↔ a = 0 := by
  constructor
  · rintro ⟨⟩
    rfl
  · rintro rfl
    exact .nil

/-- The first node of a list that is not empty. -/
theorem pop (h : Chain next a l) (h0 : a ≠ 0) : ∃ l', l = a :: l' ∧ Chain next (next a) l' := by
  cases h with
  | nil => exact absurd rfl h0
  | cons _ h => exact ⟨_, rfl, h⟩

/-- A node put in front. -/
theorem push (h : Chain next a l) (h0 : b ≠ 0) (hb : b ∉ l) :
    Chain (update next b a) b (b :: l) := by
  refine .cons h0 ?_
  rw [update_self]
  refine h.congr fun x hx => update_of_ne ?_ _ _
  rintro rfl
  exact hb hx

end Chain

variable {next : ℕ → ℕ} {l : List ℕ}

theorem thread_of_notMem {x : ℕ} (hx : x ∉ l) : (thread next l).2 x = next x := by
  induction l with
  | nil => rfl
  | cons a l ih =>
    rw [List.mem_cons, not_or] at hx
    obtain ⟨hxa, hxl⟩ := hx
    exact (update_of_ne hxa _ _).trans (ih hxl)

/-- The nodes linked are a list. -/
theorem chain_thread (hl : l.Nodup) (h0 : 0 ∉ l) : Chain (thread next l).2 (thread next l).1 l := by
  induction l with
  | nil => exact .nil
  | cons a l ih =>
    obtain ⟨hal, hl⟩ := List.nodup_cons.1 hl
    rw [List.mem_cons, not_or] at h0
    obtain ⟨ha0, hl0⟩ := h0
    exact (ih hl hl0).push (Ne.symm ha0) hal

end Lib

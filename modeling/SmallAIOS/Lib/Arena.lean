import Mathlib.Order.Nat

/-!
# Generational arenas

Cells that are filled, emptied and filled again, each with its *generation*:
the number of times it has been emptied. A value is known by the key made of
its cell and the generation it was put in at, and is found by it (`Arena.find`)
as long as it stays there.

No key is ever given out twice. A key that has been (`Arena.Issued`) is of an
earlier generation of its cell, or of the present one with the cell full; and
that of a value put into an empty cell is neither (`not_issued`). So a key
whose value is gone finds nothing from then on.
-/

namespace Lib

variable {ι α : Type*}

/-- Cells, empty or with a value, and how often each has been emptied. -/
structure Arena (ι α : Type*) where
  entry : ι → Option α
  gen : ι → ℕ

namespace Arena

/-- The value of a key, unless its cell has been emptied since. -/
def find (a : Arena ι α) (k : ι × ℕ) : Option α :=
  if a.gen k.1 = k.2 then a.entry k.1 else none

/-- The key has been given out. -/
def Issued (a : Arena ι α) (k : ι × ℕ) : Prop :=
  k.2 < a.gen k.1 ∨ a.gen k.1 = k.2 ∧ a.entry k.1 ≠ none

/-- Empty the cells whose value has the property `p`. -/
def drop (a : Arena ι α) (p : ι → α → Bool) : Arena ι α where
  entry i := (a.entry i).filter (!p i ·)
  gen i := a.gen i + ((a.entry i).any (p i)).toNat

variable {a : Arena ι α} {k : ι × ℕ} {p : ι → α → Bool}

theorem find_eq_some {x : α} : a.find k = some x ↔ a.gen k.1 = k.2 ∧ a.entry k.1 = some x := by
  rw [find, Option.ite_none_right_eq_some]

theorem not_issued {i : ι} (h : a.entry i = none) : ¬ a.Issued (i, a.gen i) := by
  rintro (hlt | ⟨-, hne⟩)
  · exact Nat.lt_irrefl _ hlt
  · exact hne h

theorem find_drop : (a.drop p).find k = (a.find k).filter (!p k.1 ·) := by
  rcases hx : a.entry k.1 with _ | x
  · simp [find, drop, hx]
  by_cases hg : a.gen k.1 = k.2 <;> rcases hp : p k.1 x with _ | _ <;>
    simp [find, drop, hx, hp, hg, Option.filter]

theorem Issued.drop (h : a.Issued k) : (a.drop p).Issued k := by
  rcases hx : a.entry k.1 with _ | x
  · rcases h with h | ⟨-, h⟩
    · exact Or.inl (Nat.lt_add_right _ h)
    · exact absurd hx h
  rcases hp : p k.1 x with _ | _
  · rcases h with h | ⟨h, -⟩
    · exact Or.inl (Nat.lt_add_right _ h)
    · exact Or.inr ⟨by simp [Arena.drop, hx, hp, h], by simp [Arena.drop, hx, hp]⟩
  · -- The cell is emptied, and its generation passes that of the key.
    refine Or.inl ?_
    have hle : k.2 ≤ a.gen k.1 := h.elim le_of_lt fun h => h.1.ge
    simpa [Arena.drop, hx, hp] using Nat.lt_succ_of_le hle

variable [DecidableEq ι]

/-- Put a value into a cell, in the place of what it holds. -/
def insert (a : Arena ι α) (i : ι) (x : α) : Arena ι α :=
  { a with entry := Function.update a.entry i (some x) }

variable {i : ι} {x : α}

theorem find_insert : (a.insert i x).find k = if k = (i, a.gen i) then some x else a.find k := by
  obtain ⟨j, g⟩ := k
  by_cases hj : j = i
  · subst hj
    by_cases hg : a.gen j = g
    · simp [find, insert, hg]
    · simp [find, insert, hg, Ne.symm hg]
  · simp [find, insert, hj]

theorem issued_insert : (a.insert i x).Issued (i, a.gen i) :=
  Or.inr ⟨rfl, by simp [insert]⟩

theorem Issued.insert (h : a.Issued k) : (a.insert i x).Issued k := by
  refine h.imp_right fun ⟨hg, hne⟩ => ⟨hg, ?_⟩
  by_cases hk : k.1 = i <;> simp [Arena.insert, hk, hne]

end Arena

end Lib

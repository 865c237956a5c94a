import Mathlib.Data.List.Basic

/-!
# Fallible computations on a state

A computation that changes a state and may fail (`Fallible`). A failure ends it,
and the changes made so far remain.

A computation made of others is worked out with `bind_of_ok` and `bind_of_error`, and how it ends
is traced back to them with `bind_cases` and `bind_eq_ok`.
`each` does the same for each item of a list, until one fails.
-/

namespace Lib

universe v

variable {σ ε ι : Type*} {α β : Type v}

/-- A computation on a state `σ` that may fail. -/
def Fallible (σ ε : Type*) (α : Type v) := σ → Except ε α × σ

namespace Fallible

instance : Monad (Fallible σ ε) where
  pure a := fun s => (.ok a, s)
  bind x f := fun s => match x s with
    | (.ok a, s') => f a s'
    | (.error e, s') => (.error e, s')

/-- The state. -/
def get : Fallible σ ε σ := fun s => (.ok s, s)

/-- Change the state. -/
def modify (f : σ → σ) : Fallible σ ε PUnit := fun s => (.ok ⟨⟩, f s)

variable {x y : Fallible σ ε α} {f : α → Fallible σ ε β} {s s' : σ} {a : α} {e : ε}

theorem bind_apply : (x >>= f) s = match x s with
    | (.ok a, s') => f a s'
    | (.error e, s') => (.error e, s') := rfl

theorem bind_of_ok (h : x s = (.ok a, s')) : (x >>= f) s = f a s' := by
  rw [bind_apply, h]

theorem bind_of_error (h : x s = (.error e, s')) : (x >>= f) s = (.error e, s') := by
  rw [bind_apply, h]

/-- How a computation made of two parts ends. -/
theorem bind_cases {r : Except ε β} (h : (x >>= f) s = (r, s')) :
    (∃ e, x s = (.error e, s') ∧ r = .error e) ∨ ∃ a s1, x s = (.ok a, s1) ∧ f a s1 = (r, s') := by
  rcases hx : x s with ⟨e | a, s1⟩
  · rw [bind_of_error hx] at h
    cases h
    exact .inl ⟨e, rfl, rfl⟩
  · rw [bind_of_ok hx] at h
    exact .inr ⟨a, s1, rfl, h⟩

theorem bind_eq_ok {b : β} : (x >>= f) s = (.ok b, s') ↔
    ∃ a s1, x s = (.ok a, s1) ∧ f a s1 = (.ok b, s') := by
  constructor
  · intro h
    obtain ⟨e, -, ⟨⟩⟩ | hok := bind_cases h
    exact hok
  · rintro ⟨a, s1, hx, hf⟩
    rw [bind_of_ok hx, hf]

theorem bind_congr_left (h : x s = y s') : (x >>= f) s = (y >>= f) s' := by
  rw [bind_apply, bind_apply, h]

/-- What is returned at the end does not change the state. -/
theorem snd_bind_pure (b : β) (s : σ) : ((x >>= fun _ => pure b) s).2 = (x s).2 := by
  rcases h : x s with ⟨_ | _, s'⟩
  · rw [bind_of_error h]
  · rw [bind_of_ok h]
    rfl

/-- Do this for each item, one after the other. -/
def each (x : ι → Fallible σ ε PUnit) : List ι → Fallible σ ε PUnit
  | [] => pure ⟨⟩
  | i :: is => do
    x i
    each x is

theorem each_singleton (x : ι → Fallible σ ε PUnit) (i : ι) (s : σ) : each x [i] s = x i s := by
  rcases h : x i s with ⟨_ | _, s'⟩
  · exact bind_of_error h
  · exact bind_of_ok h

/-- Two lists of items are one. -/
theorem each_append_bind (x : ι → Fallible σ ε PUnit) (is js : List ι)
    (f : PUnit → Fallible σ ε β) (s : σ) :
    (each x (is ++ js) >>= f) s = (each x is >>= fun _ => each x js >>= f) s := by
  induction is generalizing s with
  | nil => rfl
  | cons i is ih =>
    rcases h : x i s with ⟨_ | _, s'⟩
    · have herr : ∀ ks, each x (i :: ks) s = (.error _, s') := fun ks => bind_of_error h
      rw [List.cons_append, bind_of_error (herr _), bind_of_error (herr _)]
    · have hok : ∀ ks, each x (i :: ks) s = each x ks s' := fun ks => bind_of_ok h
      rw [List.cons_append, bind_congr_left (hok _), bind_congr_left (hok _), ih]

end Fallible

end Lib

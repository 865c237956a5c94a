import Mathlib.Data.List.Induction

/-!
# Computations that may panic or fail

A computation that may panic (`none`), or return a result or an error (`Checked`).
A sequence of computations ends with the first one that panics or fails, and is
worked out with `need_bind` and the two lemmas on `ensure`. Where a check is what
decides between a result and an error, `Decides.ensure` peels it off.

Buffers are read and written with their bounds checked: an access out of range is
a panic. `set_foldlM` says that a loop that writes one element after the other
writes them all, and `overwrite_append` what writing past the part already filled
leaves.
-/

namespace Lib

open List

universe u

variable {ε α β : Type u} {x : Except ε α} {b : β}

/-- A sequence of computations that may fail returns a result if each of them does. -/
theorem bind_eq_ok {f : α → Except ε β} (h : (x >>= f) = .ok b) : ∃ a, x = .ok a ∧ f a = .ok b := by
  cases x with
  | error e => cases h
  | ok a => exact ⟨a, rfl, h⟩

/-- A computation that may panic or fail. -/
def Checked (ε α : Type u) := Option (Except ε α)

namespace Checked

instance : Monad (Checked ε) where
  pure a := some (.ok a)
  bind x f := Option.bind x fun
    | .ok a => f a
    | .error e => some (.error e)

/-- A computation that may only panic. -/
def need (x : Option α) : Checked ε α := x.map .ok

/-- Fail unless a condition holds. -/
def ensure (p : Prop) [Decidable p] (e : ε) : Checked ε PUnit :=
  some (if p then .ok ⟨⟩ else .error e)

/-- A computation that may only fail. -/
def lift (x : Except ε α) : Checked ε α := some x

/-- The computation fails. -/
def Fails (x : Checked ε α) : Prop := ∃ e, x = some (.error e)

variable {f : α → Checked ε β} {a : α} {e : ε}

theorem need_bind {x : Option α} (h : x = some a) : (need x >>= f) = f a := by
  rw [h]
  rfl

theorem ensure_bind {f : PUnit → Checked ε β} {p : Prop} [Decidable p] (h : p) :
    (ensure p e >>= f) = f ⟨⟩ := by
  rw [ensure, if_pos h]
  rfl

theorem fails_ensure_bind {f : PUnit → Checked ε β} {p : Prop} [Decidable p] (h : ¬ p) :
    Fails (ensure p e >>= f) := by
  rw [ensure, if_neg h]
  exact ⟨e, rfl⟩

variable {x : Checked ε α}

theorem Fails.bind (h : Fails x) : Fails (x >>= f) := by
  obtain ⟨e, rfl⟩ := h
  exact ⟨e, rfl⟩

theorem bind_of_ok (h : x = some (.ok a)) : (x >>= f) = f a := by
  rw [h]
  rfl

/-- The computation returns `a` if `q` holds, and fails if not. -/
def Decides (x : Checked ε α) (q : Prop) (a : α) : Prop :=
  q ∧ x = some (.ok a) ∨ ¬ q ∧ Fails x

section

variable {p q : Prop} [Decidable p]

theorem Decides.eq_ok (h : Decides x q a) (hq : q) : x = some (.ok a) :=
  h.elim And.right fun hnot => absurd hq hnot.1

theorem Decides.ensure {f : PUnit → Checked ε β} (hp : q → p) (h : p → Decides (f ⟨⟩) q b) :
    Decides (ensure p e >>= f) q b := by
  by_cases hcheck : p
  · rw [ensure_bind hcheck]
    exact h hcheck
  · exact .inr ⟨fun hq => hcheck (hp hq), fails_ensure_bind hcheck⟩

/-- A value that is checked before it is used. -/
theorem Decides.checked (hp : q → p) (h : p → Decides (f a) q b) :
    Decides ((Checked.ensure p e >>= fun _ => pure a) >>= f) q b := by
  by_cases hcheck : p
  · rw [ensure_bind hcheck]
    exact h hcheck
  · exact .inr ⟨fun hq => hcheck (hp hq), (fails_ensure_bind hcheck).bind⟩

end

/-- A sequence of computations that panics did so in the first one, or in what follows it. -/
theorem bind_eq_none (h : (x >>= f) = none) : x = none ∨ ∃ a, x = some (.ok a) ∧ f a = none := by
  rcases x with _ | (e | a)
  · exact .inl rfl
  · cases h
  · exact .inr ⟨a, rfl, h⟩

/-- A sequence of computations returns a result if each of them does. -/
theorem bind_eq_ok (h : (x >>= f) = some (.ok b)) : ∃ a, x = some (.ok a) ∧ f a = some (.ok b) := by
  obtain ⟨r, hr, h⟩ := Option.bind_eq_some_iff.1 h
  cases r with
  | error e => cases h
  | ok a => exact ⟨a, hr, h⟩

/-- A result is worked out by computing it. -/
theorem exists_ok {p : α → Prop} [DecidablePred p]
    (h : Option.any (fun r => r.toOption.any (p ·)) x = true) : ∃ a, x = some (.ok a) ∧ p a := by
  rcases x with _ | (e | a)
  · cases h
  · cases h
  · exact ⟨a, rfl, of_decide_eq_true h⟩

end Checked

/-! ## Buffers -/

variable {γ : Type*}

/-- The elements from the position `a` to the position `b`. -/
def slice (l : List γ) (a b : ℕ) : Option (List γ) :=
  if a ≤ b ∧ b ≤ l.length then some ((l.drop a).take (b - a)) else none

/-- Write an element. -/
def setAt (l : List γ) (i : ℕ) (x : γ) : Option (List γ) :=
  if i < l.length then some (l.set i x) else none

/-- Write elements, the first one at the position `i`. -/
def overwrite (l : List γ) (i : ℕ) (xs : List γ) : Option (List γ) :=
  if i + xs.length ≤ l.length then some (l.take i ++ xs ++ l.drop (i + xs.length)) else none

variable {l done rest xs : List γ} {a b i : ℕ}

theorem slice_eq (hab : a ≤ b) (hb : b ≤ l.length) :
    slice l a b = some ((l.drop a).take (b - a)) := if_pos ⟨hab, hb⟩

/-- What is written past the part already filled goes over what comes next. -/
theorem overwrite_append (h : xs.length ≤ rest.length) :
    overwrite (done ++ rest) done.length xs = some (done ++ xs ++ rest.drop xs.length) := by
  have hle : done.length + xs.length ≤ (done ++ rest).length := by
    rw [length_append]
    omega
  rw [overwrite, if_pos hle, take_left, drop_length_add_append]

/-- Elements written one after the other are written together. -/
theorem set_foldlM (g : ℕ → Option γ) (done rest xs : List γ) (hg : ∀ j < xs.length, g j = xs[j]?)
    (h : xs.length ≤ rest.length) :
    (range xs.length).foldlM (fun l j => (g j).bind (setAt l (done.length + j)))
      (done ++ rest) = some (done ++ xs ++ rest.drop xs.length) := by
  -- The elements are written from the first one on: induction from the last one.
  induction xs using reverseRecOn with
  | nil =>
    rw [append_nil]
    rfl
  | append_singleton xs x ih =>
    have hlen : (xs ++ [x]).length = xs.length + 1 := length_append
    rw [hlen] at h hg ⊢
    have hprev := ih (fun j hj => by
      rw [hg j (by omega), getElem?_append_left hj]) (by omega)
    have hx : g xs.length = some x := by
      rw [hg xs.length (by omega), getElem?_concat_length]
    obtain ⟨y, rest', hy⟩ : ∃ y rest', rest.drop xs.length = y :: rest' :=
      exists_cons_of_length_pos (by rw [length_drop]; omega)
    rw [range_succ, foldlM_append, hprev]
    simp only [Option.bind_eq_bind, Option.bind_some, foldlM_cons, foldlM_nil, hx, hy]
    have hlt : done.length + xs.length < (done ++ xs ++ y :: rest').length := by
      rw [length_append, length_append, length_cons]
      omega
    have htail : rest.drop (xs.length + 1) = rest' := by
      rw [← drop_drop, hy, drop_one, tail_cons]
    rw [setAt, if_pos hlt, htail, ← length_append,
      set_append_right _ _ (Nat.le_refl _), Nat.sub_self, set_cons_zero,
      Option.bind_some, Option.pure_def, append_cons, append_assoc done]

end Lib

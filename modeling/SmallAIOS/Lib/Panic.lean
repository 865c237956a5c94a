import Mathlib.Data.Option.Basic

/-!
# Computations that may panic

A computation that may panic is an `Option`, and `none` if it does. Its
specification (`Returns`) says when it is known not to panic, and what holds of
the value it returns if it does not. Specifications compose along `bind`, so
that partial and total correctness are proved together.
-/

namespace Lib

variable {α β : Type*}

/-- The computation does not panic if `safe`, and its result satisfies `post`. -/
structure Returns (safe : Prop) (x : Option α) (post : α → Prop) : Prop where
  exists_some : safe → ∃ a, x = some a
  post : ∀ a, x = some a → post a

namespace Returns

variable {safe safe' : Prop} {x : Option α} {p q : α → Prop} {a : α}

theorem some (h : p a) : Returns safe (some a) p where
  exists_some _ := ⟨a, rfl⟩
  post _ hb := Option.some.inj hb ▸ h

theorem none (h : ¬ safe) : Returns safe (none : Option α) p where
  exists_some hs := absurd hs h
  post _ ha := nomatch ha

variable (h : Returns safe x p)
include h

theorem mono (hpq : ∀ a, p a → q a) : Returns safe x q where
  exists_some := h.exists_some
  post a ha := hpq a (h.post a ha)

theorem weaken (hs : safe' → safe) : Returns safe' x p where
  exists_some hs' := h.exists_some (hs hs')
  post := h.post

theorem bind {f : α → Option β} {q : β → Prop}
    (hf : ∀ a, p a → Returns safe (f a) q) : Returns safe (x.bind f) q := by
  cases x with
  | none => exact none fun hs => by simpa using h.exists_some hs
  | some a => exact hf a (h.post a rfl)

theorem map {f : α → β} {q : β → Prop} (hf : ∀ a, p a → q (f a)) : Returns safe (x.map f) q := by
  cases x with
  | none => exact none fun hs => by simpa using h.exists_some hs
  | some a => exact some (hf a (h.post a rfl))

/-- What a safe computation returns. -/
theorem get (hs : safe) : ∃ a, x = Option.some a ∧ p a := by
  obtain ⟨a, ha⟩ := h.exists_some hs
  exact ⟨a, ha, h.post a ha⟩

end Returns

end Lib

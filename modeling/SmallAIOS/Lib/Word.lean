import Mathlib.Algebra.Order.Ring.Nat
import Mathlib.Data.Nat.Bitwise

/-!
# Machine words

Arithmetic on the unsigned words of `w` bits, as numbers: an operation that
overflows has no result (`add`, `sub`), or stops at the largest word
(`saturatingAdd`). The complement of a mask clears the low bits of a word
(`and_complement`).
-/

namespace Lib.Word

open Nat

variable {w a b c : ℕ}

/-- Addition, which may overflow. -/
def add (w a b : ℕ) : Option ℕ := if a + b < 2 ^ w then some (a + b) else none

/-- Subtraction, which may overflow. -/
def sub (a b : ℕ) : Option ℕ := if b ≤ a then some (a - b) else none

/-- Addition that stops at the largest word. -/
def saturatingAdd (w a b : ℕ) : ℕ := min (a + b) (2 ^ w - 1)

theorem add_eq_some : add w a b = some c ↔ a + b < 2 ^ w ∧ a + b = c := by
  rw [add]
  split
  · next h => simp only [h, Option.some.injEq, true_and]
  · next h => simp only [h, reduceCtorEq, false_and]

theorem add_bind_add : (add w a b).bind (add w · c) = add w (a + b) c := by
  by_cases h : a + b < 2 ^ w
  · rw [add, if_pos h, Option.bind_some]
  · have hc : ¬ a + b + c < 2 ^ w := by omega
    rw [add, if_neg h, Option.bind_none, add, if_neg hc]

theorem sub_eq_some : sub a b = some c ↔ b + c = a := by
  rw [sub]
  split
  · next h =>
    rw [Option.some.injEq]
    omega
  · next h =>
    simp only [reduceCtorEq, false_iff]
    omega

theorem saturatingAdd_of_lt (h : a + b < 2 ^ w) : saturatingAdd w a b = a + b :=
  min_eq_left (le_sub_one_of_lt h)

/-- All bits inverted. -/
def complement (w a : ℕ) : ℕ := 2 ^ w - 1 - a

/-- The low bits of a word are cleared. -/
theorem and_complement {k x : ℕ} (hk : k ≤ w) (hx : x < 2 ^ w) :
    x &&& complement w (2 ^ k - 1) = x / 2 ^ k * 2 ^ k := by
  have hle : 2 ^ k ≤ 2 ^ w := Nat.pow_le_pow_right (by decide) hk
  have hmask : complement w (2 ^ k - 1) = 2 ^ w - (2 ^ k - 1 + 1) := by
    rw [complement]
    omega
  refine eq_of_testBit_eq fun i => ?_
  rw [testBit_and, hmask, testBit_two_pow_sub_succ (by omega),
    testBit_mul_two_pow, testBit_div_two_pow]
  by_cases hi : k ≤ i
  · rw [Nat.sub_add_cancel hi]
    by_cases hw : i < w
    · simp [hi, hw]
    · have := testBit_lt_two_pow (hx.trans_le (Nat.pow_le_pow_right (by decide) (not_lt.1 hw)))
      simp [this]
  · simp [hi, not_le.1 hi]

end Lib.Word

import Mathlib.Tactic.Ring

/-!
# Numbers as bytes

The `k` bytes of a number, the least significant one first (`leBytes`) or last
(`beBytes`), and the number that bytes stand for. A number below `256 ^ k` is
read back from its bytes (`leVal_leBytes`, `beVal_beBytes`), so that it is
determined by them.
-/

namespace Lib

open List

/-- The `k` low bytes of a number, the least significant one first. -/
def leBytes : ℕ → ℕ → List UInt8
  | 0, _ => []
  | k + 1, n => UInt8.ofNat n :: leBytes k (n / 256)

/-- The number that bytes stand for, the least significant one first. -/
def leVal : List UInt8 → ℕ
  | [] => 0
  | b :: bs => b.toNat + 256 * leVal bs

/-- The `k` low bytes of a number, the most significant one first. -/
def beBytes (k n : ℕ) : List UInt8 := (leBytes k n).reverse

/-- The number that bytes stand for, the most significant one first. -/
def beVal (bs : List UInt8) : ℕ := leVal bs.reverse

variable {k n m : ℕ}

@[simp] theorem length_leBytes : (leBytes k n).length = k := by
  induction k generalizing n with
  | zero => rfl
  | succ k ih => rw [leBytes, length_cons, ih]

@[simp] theorem length_beBytes : (beBytes k n).length = k := by
  rw [beBytes, length_reverse, length_leBytes]

theorem leVal_leBytes (h : n < 256 ^ k) : leVal (leBytes k n) = n := by
  induction k generalizing n with
  | zero =>
    rw [pow_zero, Nat.lt_one_iff] at h
    rw [h]
    rfl
  | succ k ih =>
    have hd : n / 256 < 256 ^ k := Nat.div_lt_of_lt_mul (by rwa [← pow_succ'])
    rw [leBytes, leVal, ih hd]
    exact Nat.mod_add_div n 256

theorem beVal_beBytes (h : n < 256 ^ k) : beVal (beBytes k n) = n := by
  rw [beVal, beBytes, reverse_reverse, leVal_leBytes h]

theorem leBytes_inj (hn : n < 256 ^ k) (hm : m < 256 ^ k) : leBytes k n = leBytes k m ↔ n = m := by
  refine ⟨fun h => ?_, congrArg _⟩
  rw [← leVal_leBytes hn, h, leVal_leBytes hm]

theorem beBytes_inj (hn : n < 256 ^ k) (hm : m < 256 ^ k) : beBytes k n = beBytes k m ↔ n = m := by
  rw [beBytes, beBytes, reverse_inj, leBytes_inj hn hm]

/-- A number and what follows it are determined by the bytes. -/
theorem leBytes_append_inj {a b : List UInt8} (hn : n < 256 ^ k) (hm : m < 256 ^ k)
    (h : leBytes k n ++ a = leBytes k m ++ b) : n = m ∧ a = b := by
  obtain ⟨hnm, hab⟩ := append_inj h (by rw [length_leBytes, length_leBytes])
  exact ⟨(leBytes_inj hn hm).1 hnm, hab⟩

/-- Blocks of one size, not empty, are determined by their elements one after the other. -/
theorem flatMap_injective {α β : Type*} {f : α → List β} (hk : 0 < k)
    (hlen : ∀ x, (f x).length = k) (hf : Function.Injective f) :
    Function.Injective fun l : List α => l.flatMap f := by
  have hne (x : α) (l : List α) : [] ≠ (x :: l).flatMap f := by
    intro h
    exact hk.ne' ((hlen x).symm.trans (congrArg length (nil_eq_append_iff.1 h).1))
  intro l
  induction l with
  | nil =>
    rintro (_ | ⟨y, l'⟩) h
    · rfl
    · exact absurd h (hne y l')
  | cons x l ih =>
    rintro (_ | ⟨y, l'⟩) h
    · exact absurd h.symm (hne x l)
    · obtain ⟨hxy, hl⟩ := append_inj h ((hlen x).trans (hlen y).symm)
      rw [hf hxy, ih hl]

end Lib

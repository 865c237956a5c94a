import Mathlib.Data.Nat.Bitwise

/-!
# Memory management: addresses and errors

Addresses and sizes (`PhysAddr`, `VirtAddr`, `usize`) are numbers. In the buddy,
slab and global allocators arithmetic on them is that of a build with overflow
checks: an operation whose result does not fit in a machine word panics, and a
call that panics has no outcome (`none`). So does one that accesses an array out
of bounds or unwraps nothing. In the memory map and the tensor pool it is that
of a release build, in which it wraps around.
-/

namespace SmallAIOS.Mem

/-- The size of a page. -/
def pageSize4K : ℕ := 4096

/-- Errors from memory subsystem operations. -/
inductive MemError
  | outOfMemory
  | badAlignment
  | invalidAddress
  | doubleFree
  | sizeTooLarge
  | orderTooLarge
  | slabExhausted
  | tensorPoolExhausted
  | mappingError
  | notMapped
  | alreadyMapped
  deriving DecidableEq

/-- Addition of machine words. -/
def checkedAdd (a b : ℕ) : Option ℕ := if a + b < 2 ^ 64 then some (a + b) else none

/-- Whether `addr & (align - 1) == 0`. -/
def isAligned (addr align : ℕ) : Bool := addr &&& (align - 1) == 0

/-- Round down: `addr & !(align - 1)`. -/
def alignDown (addr align : ℕ) : ℕ := addr - (addr &&& (align - 1))

theorem checkedAdd_eq_some {a b c : ℕ} : checkedAdd a b = some c ↔ a + b < 2 ^ 64 ∧ a + b = c := by
  rw [checkedAdd]
  split
  · next h => simp only [h, Option.some.injEq, true_and]
  · next h => simp only [h, reduceCtorEq, false_and]

theorem isAligned_two_pow {addr k : ℕ} : isAligned addr (2 ^ k) ↔ 2 ^ k ∣ addr := by
  rw [isAligned, beq_iff_eq, Nat.and_two_pow_sub_one_eq_mod, Nat.dvd_iff_mod_eq_zero]

theorem alignDown_two_pow (addr k : ℕ) : alignDown addr (2 ^ k) = addr / 2 ^ k * 2 ^ k := by
  rw [alignDown, Nat.and_two_pow_sub_one_eq_mod, Nat.mod_eq_sub_div_mul,
    Nat.sub_sub_self (Nat.div_mul_le_self ..)]

theorem two_pow_dvd_of_le {i j : ℕ} (h : 2 ^ i ≤ 2 ^ j) : 2 ^ i ∣ 2 ^ j :=
  Nat.pow_dvd_pow 2 ((Nat.pow_le_pow_iff_right (by decide)).1 h)

theorem isAligned_page {addr : ℕ} : isAligned addr pageSize4K ↔ addr % pageSize4K = 0 := by
  rw [← Nat.dvd_iff_mod_eq_zero]
  exact isAligned_two_pow (k := 12)

theorem alignDown_page (addr : ℕ) : alignDown addr pageSize4K = addr / pageSize4K * pageSize4K :=
  alignDown_two_pow addr 12

/-! ## Ranges of addresses -/

/-- The ranges of `n` bytes from `a` on, and of `n'` bytes from `a'` on, do not overlap. -/
def Apart (a n a' n' : ℕ) : Prop := a + n ≤ a' ∨ a' + n' ≤ a

theorem Apart.symm {a n a' n' : ℕ} (h : Apart a n a' n') : Apart a' n' a n := Or.symm h

/-- A range within another one. -/
theorem Apart.mono {a n a' n' b k : ℕ} (h : Apart a n a' n') (hle : a ≤ b)
    (hend : b + k ≤ a + n) : Apart b k a' n' := by
  rw [Apart] at *
  omega

/-- Shorter ranges. -/
theorem Apart.of_le {a n a' n' k k' : ℕ} (h : Apart a n a' n') (hk : k ≤ n) (hk' : k' ≤ n') :
    Apart a k a' k' := by
  rw [Apart] at *
  omega

end SmallAIOS.Mem

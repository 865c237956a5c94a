import Mathlib.Data.Finset.Card

/-!
# Bitmaps

A set of indices below `64 * n`, stored as `n` words of 64 bits: the bit
`i % 64` of the word `i / 64` tells whether `i` is in the set. The machine
operations (`mem`, `insert`, `erase`) are those of the set `toFinset`.

An access to a word out of bounds panics: `mem?`, `insert?` and `erase?` are
`none` there. `firstBelow` scans the words for their lowest set bits, and finds
an index below a limit if there is one.
-/

namespace Lib

open BitVec

/-- A bitmap of `n` words. -/
structure Bitmap (n : ℕ) where
  /-- The words, lowest indices first. -/
  words : Vector (BitVec 64) n

namespace Bitmap

variable {n : ℕ}

/-- The empty bitmap. -/
def empty (n : ℕ) : Bitmap n := ⟨Vector.replicate n 0⟩

variable (m : Bitmap n)

/-- The word `k`, `0` out of bounds. -/
def word (k : ℕ) : BitVec 64 := m.words[k]?.getD 0

/-- Whether the bit `i` is set. -/
def mem (i : ℕ) : Bool := (m.word (i / 64) &&& 1#64 <<< (i % 64)) != 0

/-- Set the bit `i`. -/
def insert (i : ℕ) : Bitmap n :=
  ⟨m.words.setIfInBounds (i / 64) (m.word (i / 64) ||| 1#64 <<< (i % 64))⟩

/-- Clear the bit `i`. -/
def erase (i : ℕ) : Bitmap n :=
  ⟨m.words.setIfInBounds (i / 64) (m.word (i / 64) &&& ~~~(1#64 <<< (i % 64)))⟩

theorem getLsbD_one_shiftLeft {i j : ℕ} (hi : i < 64) :
    (1#64 <<< i).getLsbD j = decide (j = i) := by
  grind

/-- The machine test reads one bit of one word. -/
theorem mem_eq (i : ℕ) : m.mem i = (m.word (i / 64)).getLsbD (i % 64) := by
  have hi : i % 64 < 64 := Nat.mod_lt _ (by decide)
  rw [mem, Bool.eq_iff_iff, bne_iff_ne]
  constructor
  · intro h
    by_contra hb
    refine h (eq_of_getLsbD_eq fun j _ => ?_)
    rw [getLsbD_and, getLsbD_one_shiftLeft hi]
    by_cases hj : j = i % 64
    · simpa [hj] using hb
    · simp [hj]
  · intro hb h
    have := congrArg (·.getLsbD (i % 64)) h
    simp [getLsbD_one_shiftLeft hi, hb] at this

theorem word_setIfInBounds (k l : ℕ) (w : BitVec 64) :
    (Bitmap.mk (m.words.setIfInBounds k w)).word l = if k = l ∧ k < n then w else m.word l := by
  simp only [word]
  grind

/-- Indices are equal iff their words and their bits are. -/
theorem eq_iff_div_mod {i j : ℕ} : j = i ↔ i / 64 = j / 64 ∧ j % 64 = i % 64 := by omega

@[simp] theorem mem_empty (i : ℕ) : (empty n).mem i = false := by
  rw [mem_eq, word, empty, Vector.getElem?_replicate]
  split <;> simp

variable {i : ℕ}

theorem mem_insert (hi : i < 64 * n) (j : ℕ) :
    (m.insert i).mem j = (decide (j = i) || m.mem j) := by
  have hn : i / 64 < n := Nat.div_lt_of_lt_mul hi
  rw [mem_eq, insert, word_setIfInBounds, mem_eq]
  by_cases hw : i / 64 = j / 64
  · rw [if_pos ⟨hw, hn⟩, getLsbD_or, getLsbD_one_shiftLeft (Nat.mod_lt _ (by decide)),
      Bool.or_comm]
    simp [@eq_iff_div_mod i j, hw]
  · simp [hw, @eq_iff_div_mod i j]

theorem mem_erase (i j : ℕ) : (m.erase i).mem j = (!decide (j = i) && m.mem j) := by
  rw [mem_eq, erase, word_setIfInBounds, mem_eq]
  by_cases hw : i / 64 = j / 64
  · by_cases hn : i / 64 < n
    · rw [if_pos ⟨hw, hn⟩, getLsbD_and, getLsbD_not,
        getLsbD_one_shiftLeft (Nat.mod_lt _ (by decide)), Bool.and_comm]
      simp [@eq_iff_div_mod i j, hw, Nat.mod_lt]
    · have : m.word (j / 64) = 0 := by
        rw [word, Vector.getElem?_eq_none (by omega), Option.getD_none]
      simp [hn, this]
  · simp [hw, @eq_iff_div_mod i j]

/-- Only bits in bounds are set. -/
theorem lt_of_mem (h : m.mem i = true) : i < 64 * n := by
  by_contra hi
  rw [mem_eq, word, Vector.getElem?_eq_none (by omega)] at h
  simp at h

/-! ## The set of a bitmap -/

/-- The indices of the set bits. -/
def toFinset : Finset ℕ := (Finset.range (64 * n)).filter (m.mem ·)

@[simp] theorem mem_toFinset : i ∈ m.toFinset ↔ m.mem i = true := by
  rw [toFinset, Finset.mem_filter, Finset.mem_range]
  exact and_iff_right_of_imp m.lt_of_mem

@[simp] theorem toFinset_empty : (empty n).toFinset = ∅ := by
  ext i
  simp

theorem toFinset_insert (hi : i < 64 * n) : (m.insert i).toFinset = Insert.insert i m.toFinset := by
  ext j
  simp [mem_insert, hi]

theorem toFinset_erase (i : ℕ) : (m.erase i).toFinset = m.toFinset.erase i := by
  ext j
  simp [mem_erase]

/-! ## Panicking accesses -/

/-- Test the bit `i`; an access out of bounds panics. -/
def mem? (i : ℕ) : Option Bool := if i / 64 < n then some (m.mem i) else none

/-- Set the bit `i`; an access out of bounds panics. -/
def insert? (i : ℕ) : Option (Bitmap n) := if i / 64 < n then some (m.insert i) else none

/-- Clear the bit `i`; an access out of bounds panics. -/
def erase? (i : ℕ) : Option (Bitmap n) := if i / 64 < n then some (m.erase i) else none

theorem div_lt_iff : i / 64 < n ↔ i < 64 * n := by omega

variable {m} {m' : Bitmap n}

theorem mem?_eq_some {b : Bool} : m.mem? i = some b ↔ i < 64 * n ∧ m.mem i = b := by
  simp only [mem?, div_lt_iff]
  split <;> simp [*]

theorem insert?_eq_some : m.insert? i = some m' ↔ i < 64 * n ∧ m.insert i = m' := by
  simp only [insert?, div_lt_iff]
  split <;> simp [*]

theorem erase?_eq_some : m.erase? i = some m' ↔ i < 64 * n ∧ m.erase i = m' := by
  simp only [erase?, div_lt_iff]
  split <;> simp [*]

/-! ## Scanning -/

/-- The first index below `lim` found by scanning the words in order, looking
    in each nonzero one at its lowest set bit. -/
def firstBelow (m : Bitmap n) (lim : ℕ) : Option ℕ :=
  (List.range n).findSome? fun k =>
    if m.word k ≠ 0 then
      if k * 64 + (m.word k).ctz.toNat < lim then some (k * 64 + (m.word k).ctz.toNat) else none
    else none

theorem lowest_mem {k : ℕ} (h : m.word k ≠ 0) :
    m.mem (k * 64 + (m.word k).ctz.toNat) = true ∧
      ∀ i, m.mem i = true → i / 64 = k → k * 64 + (m.word k).ctz.toNat ≤ i := by
  have hlt : (m.word k).ctz.toNat < 64 := by
    have := ctz_lt_iff_ne_zero.2 h
    simpa [lt_def] using this
  have hdiv : (k * 64 + (m.word k).ctz.toNat) / 64 = k := by omega
  have hmod : (k * 64 + (m.word k).ctz.toNat) % 64 = (m.word k).ctz.toNat := by omega
  refine ⟨?_, fun i hi hk => ?_⟩
  · rw [mem_eq, hdiv, hmod]
    exact getLsbD_true_ctz_of_ne_zero h
  · rw [mem_eq, hk] at hi
    by_contra hlt'
    rw [getLsbD_false_of_lt_ctz (by omega)] at hi
    exact Bool.false_ne_true hi

/-- The index found is set and below the limit. -/
theorem firstBelow_some {lim i : ℕ} (h : m.firstBelow lim = some i) : m.mem i = true ∧ i < lim := by
  obtain ⟨k, _, hk⟩ := List.exists_of_findSome?_eq_some h
  split at hk
  · next hw =>
    split at hk
    · next hlt =>
      obtain rfl := Option.some.inj hk
      exact ⟨(lowest_mem hw).1, hlt⟩
    · cases hk
  · cases hk

/-- Nothing is found only if nothing below the limit is set: a word whose
    lowest set bit is past the limit has no set bit before it. -/
theorem firstBelow_none {lim i : ℕ} (h : m.firstBelow lim = none) (hi : i < lim) :
    m.mem i = false := by
  by_contra hb
  rw [Bool.not_eq_false] at hb
  have hk := List.findSome?_eq_none_iff.1 h (i / 64)
    (List.mem_range.2 (div_lt_iff.2 (m.lt_of_mem hb)))
  have hw : m.word (i / 64) ≠ 0 := by
    intro h0
    rw [mem_eq, h0] at hb
    simp at hb
  have := (lowest_mem hw).2 i hb rfl
  rw [if_pos hw, if_pos (this.trans_lt hi)] at hk
  cases hk

end Bitmap

end Lib

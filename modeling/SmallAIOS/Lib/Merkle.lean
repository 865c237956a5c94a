import Mathlib.Data.Nat.Log
import Mathlib.Tactic.Ring

/-!
# Merkle trees

The Merkle tree over a list splits it at the largest power of two below its
length (`split`), as RFC 6962 does: its head is the digest of the heads of the
two parts (`root`), and the audit path of an element lists the heads of the
parts that it is not in, from the leaf up (`path`).

A verifier can `climb` along digests from a leaf, taking the bits of its index to
tell left from right. That is another tree: every node but the top one has a
sibling. Where the last node of a level has none, the audit path skips the level
and the climb does not.

* `length_path_eq_iff`: a path reaches the height `d` if no level is skipped;
* `climb_path`: the climb along a path of that length reaches the head of the tree;
* `climb_inj`: two climbs that reach the same digest are the same, if the digest
  has no collision on what they hash.
-/

namespace Lib.Merkle

open List Nat

variable {α δ : Type*}

/-- How elements, and pairs of digests, are digested. -/
structure Hasher (α δ : Type*) where
  /-- The head of the empty tree. -/
  empty : δ
  leaf : α → δ
  branch : δ → δ → δ

/-- The largest power of two below `n`. -/
def split (n : ℕ) : ℕ := 2 ^ (clog 2 n - 1)

variable {n d i : ℕ}

theorem split_pos : 0 < split n := Nat.two_pow_pos _

theorem split_lt (h : 1 < n) : split n < n := pow_pred_clog_lt_self one_lt_two h

theorem clog_sub_one_add_one (h : 1 < n) : clog 2 n - 1 + 1 = clog 2 n :=
  Nat.sub_add_cancel (Nat.clog_pos one_lt_two h)

theorem le_split_add_split (h : 1 < n) : n ≤ split n + split n := by
  rw [split, ← two_pow_succ, clog_sub_one_add_one h]
  exact le_pow_clog one_lt_two n

variable (H : Hasher α δ)

/-- The head of the tree over a list. -/
def root (l : List α) : δ :=
  match l with
  | [] => H.empty
  | [x] => H.leaf x
  | x :: y :: l =>
    let k := split (x :: y :: l).length
    H.branch (root ((x :: y :: l).take k)) (root ((x :: y :: l).drop k))
termination_by l.length
decreasing_by
  · have := split_lt (n := (x :: y :: l).length) (by simp)
    rw [length_take]
    omega
  · have := split_pos (n := (x :: y :: l).length)
    simp only [length_drop, length_cons] at this ⊢
    omega

/-- The audit path of the element at `i`: the heads of the parts it is not in, the
    smallest one first. -/
def path (l : List α) (i : ℕ) : List δ :=
  if 1 < l.length then
    if i < split l.length then
      path (l.take (split l.length)) i ++ [root H (l.drop (split l.length))]
    else
      path (l.drop (split l.length)) (i - split l.length) ++ [root H (l.take (split l.length))]
  else []
termination_by l.length
decreasing_by
  · rename_i h _
    have := split_lt h
    rw [length_take]
    omega
  · rename_i h _
    have := split_pos (n := l.length)
    rw [length_drop]
    omega

variable {H} {l : List α}

theorem root_of_length_eq_one (h : l.length = 1) (hi : i < l.length) :
    root H l = H.leaf (l.get ⟨i, hi⟩) := by
  obtain ⟨x, rfl⟩ := length_eq_one_iff.1 h
  obtain rfl : i = 0 := by simpa using hi
  rw [root]
  rfl

theorem root_of_one_lt (h : 1 < l.length) :
    root H l = H.branch (root H (l.take (split l.length))) (root H (l.drop (split l.length))) := by
  match l, h with
  | x :: y :: l, _ => rw [root]

theorem path_of_le_one (h : l.length ≤ 1) : path H l i = [] := by
  rw [path, if_neg (not_lt.2 h)]

section

variable (h : 1 < l.length)
include h

theorem path_of_lt_split (hi : i < split l.length) :
    path H l i = path H (l.take (split l.length)) i ++ [root H (l.drop (split l.length))] := by
  rw [path, if_pos h, if_pos hi]

theorem path_of_split_le (hi : split l.length ≤ i) :
    path H l i = path H (l.drop (split l.length)) (i - split l.length) ++
      [root H (l.take (split l.length))] := by
  rw [path, if_pos h, if_neg (not_lt.2 hi)]

theorem length_take_split : (l.take (split l.length)).length = split l.length :=
  length_take_of_le (split_lt h).le

theorem length_drop_split : split l.length + (l.drop (split l.length)).length = l.length := by
  rw [length_drop]
  exact Nat.add_sub_cancel' (split_lt h).le

theorem length_drop_split_le : (l.drop (split l.length)).length ≤ split l.length := by
  have := length_drop_split h
  have := le_split_add_split h
  omega

end

/-! ## Levels without a sibling -/

/-- On the `d` levels from the leaves up, the node over the leaf `i` of `n` leaves
    is a right child, or there are leaves under its right sibling. -/
def Paired (i n d : ℕ) : Prop := ∀ j < d, Odd (i / 2 ^ j) ∨ (i / 2 ^ j + 1) * 2 ^ j < n

theorem div_add_one_mul_le {e j : ℕ} (hi : i < 2 ^ e) (hj : j ≤ e) :
    (i / 2 ^ j + 1) * 2 ^ j ≤ 2 ^ e := by
  have hsplit : 2 ^ (e - j) * 2 ^ j = 2 ^ e := by rw [← pow_add, Nat.sub_add_cancel hj]
  rw [← hsplit] at hi ⊢
  exact Nat.mul_le_mul_right _ (Nat.div_lt_of_lt_mul (by rwa [mul_comm]))

variable {e : ℕ}

theorem paired_of_lt (hi : i < 2 ^ e) (hn : 2 ^ e < n) : Paired i n (e + 1) :=
  fun _ hj => .inr ((div_add_one_mul_le hi (le_of_lt_succ hj)).trans_lt hn)

/-- In a perfect tree every node has a sibling. -/
theorem paired_two_pow (hi : i < 2 ^ e) : Paired i (2 ^ e) e := by
  intro j hj
  rcases even_or_odd (i / 2 ^ j) with heven | hodd
  · -- The node after an even one does not end past the leaves.
    refine .inr ((div_add_one_mul_le hi hj.le).lt_of_ne fun heq => ?_)
    have hsplit : 2 ^ (e - j) * 2 ^ j = 2 ^ e := by rw [← pow_add, Nat.sub_add_cancel hj.le]
    have hlast : i / 2 ^ j + 1 = 2 ^ (e - j) :=
      Nat.eq_of_mul_eq_mul_right (Nat.two_pow_pos j) (heq.trans hsplit.symm)
    have : Even (2 ^ (e - j)) := even_two.pow_of_ne_zero (sub_ne_zero_of_lt hj)
    exact absurd (hlast ▸ this) (not_even_iff_odd.2 heven.add_one)
  · exact .inl hodd

/-- Right of a perfect tree of `2 ^ e` leaves, the levels are those of the rest, up
    to the top one. -/
theorem paired_two_pow_add {e m : ℕ} (hi : i < m) (hm : m ≤ 2 ^ e) :
    Paired (2 ^ e + i) (2 ^ e + m) (e + 1) ↔ Paired i m e := by
  have hlevel (j : ℕ) (hj : j < e) :
      (Odd ((2 ^ e + i) / 2 ^ j) ∨ ((2 ^ e + i) / 2 ^ j + 1) * 2 ^ j < 2 ^ e + m) ↔
        (Odd (i / 2 ^ j) ∨ (i / 2 ^ j + 1) * 2 ^ j < m) := by
    have hsplit : 2 ^ e = 2 ^ j * 2 ^ (e - j) := by rw [← pow_add, Nat.add_sub_cancel' hj.le]
    have hdiv : (2 ^ e + i) / 2 ^ j = 2 ^ (e - j) + i / 2 ^ j := by
      rw [hsplit, Nat.mul_add_div (Nat.two_pow_pos j)]
    have heven : Even (2 ^ (e - j)) := even_two.pow_of_ne_zero (sub_ne_zero_of_lt hj)
    have hmul : (2 ^ (e - j) + i / 2 ^ j + 1) * 2 ^ j = 2 ^ e + (i / 2 ^ j + 1) * 2 ^ j := by
      rw [hsplit]
      ring
    rw [hdiv, odd_add, hmul, add_lt_add_iff_left]
    simp only [not_odd_iff_even.2 heven, false_iff, not_even_iff_odd]
  refine ⟨fun h j hj => (hlevel j hj).1 (h j (lt_succ_of_lt hj)), fun h j hj => ?_⟩
  rcases Nat.lt_succ_iff_lt_or_eq.1 hj with hj | rfl
  · exact (hlevel j hj).2 (h j hj)
  · have htop : (2 ^ j + i) / 2 ^ j = 1 := by
      rw [add_div_left _ (Nat.two_pow_pos j), div_eq_of_lt (hi.trans_le hm)]
    exact .inl (htop ▸ odd_one)

/-- Above the top of the tree there is nothing. -/
theorem not_paired_of_lt (hi : i < n) (hn : n ≤ 2 ^ e) (he : e < d) : ¬ Paired i n d := by
  intro h
  have hzero : i / 2 ^ e = 0 := div_eq_of_lt (hi.trans_le hn)
  rcases h e he with hodd | hlt
  · rw [hzero] at hodd
    exact absurd hodd not_odd_zero
  · rw [hzero, zero_add, one_mul] at hlt
    exact absurd hn (not_le.2 hlt)

/-! ## The length of a path -/

theorem length_path_le (hn : l.length ≤ 2 ^ d) : (path H l i).length ≤ d := by
  fun_induction path H l i generalizing d with
  | case1 l i h hi ih =>
    have hd := clog_le_of_le_pow hn
    rw [← clog_sub_one_add_one h] at hd
    rw [length_append]
    exact (succ_le_succ (ih (length_take_split h).le)).trans hd
  | case2 l i h hi ih =>
    have hd := clog_le_of_le_pow hn
    rw [← clog_sub_one_add_one h] at hd
    rw [length_append]
    exact (succ_le_succ (ih (length_drop_split_le h))).trans hd
  | case3 => exact zero_le d

/-- No path reaches above the top of the tree. -/
theorem length_path_eq_iff_of_clog_lt (hi : i < l.length) (hd : clog 2 l.length < d) :
    (path H l i).length = d ↔ Paired i l.length d := by
  have hn := le_pow_clog one_lt_two l.length
  exact iff_of_false ((length_path_le hn).trans_lt hd).ne (not_paired_of_lt hi hn hd)

/-- A path reaches the height `d` if it skips no level. -/
theorem length_path_eq_iff (hn : l.length ≤ 2 ^ d) (hi : i < l.length) :
    (path H l i).length = d ↔ Paired i l.length d := by
  induction hl : l.length using Nat.strong_induction_on generalizing l i d with
  | _ n ih =>
  subst hl
  rcases lt_or_ge 1 l.length with h | h
  · rcases (clog_le_of_le_pow hn).lt_or_eq with hd | rfl
    · exact length_path_eq_iff_of_clog_lt hi hd
    have hdrop := length_drop_split h
    have hdrop_le := length_drop_split_le h
    rw [← clog_sub_one_add_one h]
    rcases lt_or_ge i (split l.length) with hk | hk
    · -- The left part is a perfect tree.
      refine iff_of_true ?_ (paired_of_lt hk (split_lt h))
      rw [path_of_lt_split h hk, length_append, length_singleton, add_left_inj]
      have htake := length_take_split h
      refine (ih _ (htake.trans_lt (split_lt h)) htake.le (htake.symm ▸ hk) rfl).2 ?_
      rw [htake]
      exact paired_two_pow hk
    · have hi' : i - split l.length < (l.drop (split l.length)).length := by omega
      rw [path_of_split_le h hk, length_append, length_singleton, add_left_inj,
        ih _ (by omega) hdrop_le hi' rfl, ← paired_two_pow_add hi' hdrop_le]
      change Paired (split l.length + _) (split l.length + _) _ ↔ _
      rw [Nat.add_sub_cancel' hk, hdrop]
  · rcases d.eq_zero_or_pos with rfl | hd
    · exact iff_of_true (by rw [path_of_le_one h, length_nil]) nofun
    · exact length_path_eq_iff_of_clog_lt hi (by rwa [clog_of_right_le_one h])

/-! ## Climbing -/

section Climb

variable (branch : δ → δ → δ)

/-- The node above the digest `h` of the node `i` of a level, and its sibling. -/
def above (h : δ) (i : ℕ) (sibling : δ) : δ :=
  if i % 2 = 0 then branch h sibling else branch sibling h

/-- The digest reached from that of the node `i` with the siblings on the way. -/
def climb : δ → ℕ → List δ → δ
  | h, _, [] => h
  | h, i, x :: xs => climb (above branch h i x) (i / 2) xs

/-- The pairs of digests that are hashed on the way. -/
def hashed : δ → ℕ → List δ → List (δ × δ)
  | _, _, [] => []
  | h, i, x :: xs => (if i % 2 = 0 then (h, x) else (x, h)) ::
      hashed (above branch h i x) (i / 2) xs

variable {branch} {h h1 h2 : δ} {xs ys : List δ}

theorem climb_append :
    climb branch h i (xs ++ ys) = climb branch (climb branch h i xs) (i / 2 ^ xs.length) ys := by
  induction xs generalizing h i with
  | nil => rw [nil_append, climb, length_nil, pow_zero, Nat.div_one]
  | cons x xs ih =>
    rw [cons_append, climb, ih, climb, length_cons, Nat.div_div_eq_div_mul, pow_succ']

/-- Only the low bits of the index matter. -/
theorem climb_two_pow_add (xs : List δ) :
    climb branch h (2 ^ xs.length + i) xs = climb branch h i xs := by
  induction xs generalizing h i with
  | nil => rfl
  | cons x xs ih =>
    have hmod : (2 ^ (xs.length + 1) + i) % 2 = i % 2 := by omega
    have hdiv : (2 ^ (xs.length + 1) + i) / 2 = 2 ^ xs.length + i / 2 := by omega
    rw [length_cons, climb, climb, above, hmod, hdiv, ih, above]

/-- The last step of a climb. -/
theorem climb_concat {k : ℕ} (hk : 2 ^ xs.length = k) (x : δ) :
    climb branch h i (xs ++ [x]) = above branch (climb branch h i xs) (i / k) x := by
  rw [climb_append, hk]
  rfl

/-- A climb along an audit path that skips no level reaches the head of the tree. -/
theorem climb_path (hi : i < l.length) (hn : l.length ≤ 2 ^ (path H l i).length) :
    climb H.branch (H.leaf (l.get ⟨i, hi⟩)) i (path H l i) = root H l := by
  obtain ⟨n, hl⟩ : ∃ n, l.length = n := ⟨_, rfl⟩
  induction n using Nat.strong_induction_on generalizing l i with
  | _ n ih =>
  subst hl
  rcases lt_or_ge 1 l.length with h | h
  · have hd := clog_le_of_le_pow hn
    rw [← clog_sub_one_add_one h] at hd
    rw [root_of_one_lt h]
    rcases lt_or_ge i (split l.length) with hk | hk
    · have htake := length_take_split h
      rw [path_of_lt_split h hk, length_append] at hd
      have hpow : 2 ^ (path H (l.take (split l.length)) i).length = split l.length := by
        rw [(length_path_le htake.le).antisymm (le_of_succ_le_succ hd), split]
      have hinner := ih _ (htake.trans_lt (split_lt h)) (htake.symm ▸ hk) (by rw [hpow, htake]) rfl
      rw [get_eq_getElem, getElem_take] at hinner
      rw [path_of_lt_split h hk, climb_concat hpow, get_eq_getElem, hinner, div_eq_of_lt hk]
      rfl
    · have hdrop := length_drop_split h
      have hdrop_le := length_drop_split_le h
      have hpos := split_pos (n := l.length)
      have hi' : i - split l.length < (l.drop (split l.length)).length := by omega
      have hidx := Nat.add_sub_cancel' hk
      rw [path_of_split_le h hk, length_append] at hd
      have hpow : 2 ^ (path H (l.drop (split l.length)) (i - split l.length)).length =
          split l.length := by
        rw [(length_path_le hdrop_le).antisymm (le_of_succ_le_succ hd), split]
      have hinner := ih _ (by omega) hi' (by rw [hpow]; exact hdrop_le) rfl
      rw [← climb_two_pow_add, hpow, get_eq_getElem, getElem_drop] at hinner
      simp only [hidx] at hinner
      have htop : i / split l.length = 1 := by
        rw [← hidx, add_div_left _ hpos, div_eq_of_lt (hi'.trans_le hdrop_le)]
      rw [path_of_split_le h hk, climb_concat hpow, get_eq_getElem, hinner, htop]
      rfl
  · rw [path_of_le_one h, root_of_length_eq_one (by omega) hi]
    rfl

/-- Two climbs that reach the same digest are the same, unless a pair of digests
    that they hash collides. -/
theorem climb_inj {s : Set (δ × δ)} (hinj : s.InjOn fun x => branch x.1 x.2)
    (h1s : ∀ x ∈ hashed branch h1 i xs, x ∈ s) (h2s : ∀ x ∈ hashed branch h2 i ys, x ∈ s)
    (hlen : xs.length = ys.length) (h : climb branch h1 i xs = climb branch h2 i ys) :
    h1 = h2 ∧ xs = ys := by
  induction xs generalizing h1 h2 i ys with
  | nil =>
    obtain rfl := length_eq_zero_iff.1 hlen.symm
    exact ⟨h, rfl⟩
  | cons x xs ih =>
    cases ys with
    | nil => cases hlen
    | cons y ys =>
      rw [hashed, forall_mem_cons] at h1s h2s
      obtain ⟨habove, rfl⟩ := ih h1s.2 h2s.2 (succ.inj hlen) h
      rw [above, above] at habove
      split_ifs at habove h1s h2s
      · cases hinj h1s.1 h2s.1 habove
        exact ⟨rfl, rfl⟩
      · cases hinj h1s.1 h2s.1 habove
        exact ⟨rfl, rfl⟩

end Climb

end Lib.Merkle

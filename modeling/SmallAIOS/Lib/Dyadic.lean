import Mathlib.Algebra.BigOperators.Group.Finset.Piecewise
import Mathlib.Algebra.Order.BigOperators.Group.Finset
import Mathlib.Data.Finset.Max
import Mathlib.Data.Nat.Bitwise
import Mathlib.Order.Interval.Finset.Nat

/-!
# Tilings by dyadic blocks

A *block* of order `k` is a run of `2 ^ k` pages whose first page is a multiple
of `2 ^ k`. It is split into two blocks of order `k - 1`, which are *buddies*,
and buddies are merged into their *parent*.

The free blocks `F` and the blocks taken `O` are a *tiling* of the first `N`
pages if every one of them is in exactly one block (`Tiling`). It is said by
counting the blocks a page is in (`cover`), a sum over the blocks: each of the
moves of a buddy allocator keeps it, since it replaces blocks by others that
cover the same pages the same number of times.

If no two free blocks are buddies (`Coalesced`), a block all of whose pages are
free is within a free block (`Tiling.exists_free_of_coalesced`).
-/

namespace Lib

open Finset Nat

/-- The pages `index * 2 ^ order`, …, `(index + 1) * 2 ^ order - 1`. -/
structure Block where
  order : ℕ
  index : ℕ
  deriving DecidableEq

namespace Block

variable (b c : Block) {p q : ℕ}

/-- The pages of a block. -/
def pages : Finset ℕ := Finset.Ico (b.index * 2 ^ b.order) ((b.index + 1) * 2 ^ b.order)

/-- The other half of the parent. -/
def buddy : Block := ⟨b.order, b.index ^^^ 1⟩

/-- The block of the next order around it. -/
def parent : Block := ⟨b.order + 1, b.index / 2⟩

variable {b c}

theorem mem_pages : p ∈ b.pages ↔ p / 2 ^ b.order = b.index := by
  rw [pages, mem_Ico, Nat.div_eq_iff (Nat.two_pow_pos _), Nat.add_mul]
  have := Nat.two_pow_pos b.order
  omega

theorem card_pages (b : Block) : b.pages.card = 2 ^ b.order := by
  rw [pages, Nat.card_Ico, Nat.add_mul, Nat.one_mul, Nat.add_sub_cancel_left]

theorem first_mem_pages (b : Block) : b.index * 2 ^ b.order ∈ b.pages :=
  mem_pages.2 (Nat.mul_div_cancel _ (Nat.two_pow_pos _))

/-- A page in two blocks of one order shows them equal. -/
theorem eq_of_mem_pages (h : b.order = c.order) (hb : p ∈ b.pages) (hc : p ∈ c.pages) : b = c := by
  rw [mem_pages] at hb hc
  rw [h] at hb
  cases b
  cases c
  simp only [Block.mk.injEq]
  exact ⟨h, hb.symm.trans hc⟩

/-- A block that shares a page with a smaller one contains it. -/
theorem pages_subset (h : b.order ≤ c.order) (hb : p ∈ b.pages) (hc : p ∈ c.pages) :
    b.pages ⊆ c.pages := by
  intro q hq
  rw [mem_pages] at *
  obtain ⟨d, hd⟩ := Nat.exists_eq_add_of_le h
  rw [← hc, hd, pow_add, ← Nat.div_div_eq_div_mul, ← Nat.div_div_eq_div_mul, hq, hb]

theorem xor_one_eq (i : ℕ) : i ^^^ 1 = if i % 2 = 0 then i + 1 else i - 1 := by
  split
  · next h => exact xor_one_of_even (even_iff.2 h)
  · next h => exact xor_one_of_odd (odd_iff.2 (by omega))

@[simp] theorem buddy_buddy (b : Block) : b.buddy.buddy = b := by
  simp [buddy]

theorem buddy_ne (b : Block) : b.buddy ≠ b := by
  intro h
  have := congrArg Block.index h
  simp only [buddy, xor_one_eq] at this
  split at this <;> omega

theorem parent_buddy (b : Block) : b.buddy.parent = b.parent := by
  simp only [buddy, parent, xor_one_eq, Block.mk.injEq, true_and]
  split <;> omega

/-- A page of a block is one of its parent. -/
theorem mem_parent (h : p ∈ b.pages) : p ∈ b.parent.pages := by
  rw [mem_pages] at *
  rw [parent, pow_succ, ← Nat.div_div_eq_div_mul, h]

/-- The pages of the parent are those of the block and of its buddy. -/
theorem mem_pages_parent : p ∈ b.parent.pages ↔ p ∈ b.pages ∨ p ∈ b.buddy.pages := by
  constructor
  · intro h
    rw [mem_pages] at h
    simp only [parent, pow_succ, ← Nat.div_div_eq_div_mul] at h
    rw [mem_pages, mem_pages]
    simp only [buddy, xor_one_eq]
    split <;> omega
  · rintro (h | h)
    · exact mem_parent h
    · exact parent_buddy b ▸ mem_parent h

theorem not_mem_buddy (h : p ∈ b.pages) : p ∉ b.buddy.pages := fun h' =>
  buddy_ne b (eq_of_mem_pages rfl h' h)

theorem index_lt_of_end_le {n : ℕ} (h : (b.index + 1) * 2 ^ b.order ≤ n) : b.index < n := by
  have := Nat.le_mul_of_pos_right (b.index + 1) (Nat.two_pow_pos b.order)
  omega

/-! ## Counting the blocks a page is in -/

/-- `1` on the pages of the block, `0` elsewhere. -/
def ind (b : Block) (p : ℕ) : ℕ := if p ∈ b.pages then 1 else 0

theorem ind_eq_one (h : p ∈ b.pages) : b.ind p = 1 := if_pos h

theorem ind_pos : 0 < b.ind p ↔ p ∈ b.pages := by
  rw [ind]
  split <;> simp [*]

theorem ind_parent (b : Block) (p : ℕ) : b.parent.ind p = b.ind p + b.buddy.ind p := by
  simp only [ind, mem_pages_parent]
  by_cases h : p ∈ b.pages
  · simp [h, not_mem_buddy h]
  · simp [h]

end Block

open Block

variable {N K p : ℕ} {F : Finset Block} {O O' : List Block} {b c : Block}

/-- The number of the blocks the page `p` is in. -/
def cover (F : Finset Block) (O : List Block) (p : ℕ) : ℕ :=
  ∑ b ∈ F, b.ind p + (O.map (·.ind p)).sum

/-- The free blocks `F` and the blocks taken `O` tile the first `N` pages. -/
def Tiling (N : ℕ) (F : Finset Block) (O : List Block) : Prop :=
  ∀ p, cover F O p = if p < N then 1 else 0

namespace Tiling

theorem empty : Tiling 0 ∅ [] := fun p => by simp [cover]

theorem cover_le_one (h : Tiling N F O) (p : ℕ) : cover F O p ≤ 1 := by
  rw [h p]
  split <;> omega

theorem ind_le_sum (hb : b ∈ F) (p : ℕ) : b.ind p ≤ ∑ c ∈ F, c.ind p :=
  single_le_sum (f := fun c => c.ind p) (fun _ _ => zero_le _) hb

/-! ## What a tiling says -/

/-- A block taken shares no page with a free block. -/
theorem not_mem_of_cons (h : Tiling N F (b :: O)) (hp : p ∈ b.pages) (hc : p ∈ c.pages) :
    c ∉ F := by
  intro hF
  have h1 := h.cover_le_one p
  have h2 := ind_le_sum hF p
  rw [cover, List.map_cons, List.sum_cons] at h1
  rw [ind_eq_one hc] at h2
  rw [ind_eq_one hp] at h1
  omega

section

variable (h : Tiling N F O)
include h

theorem perm (hO : O.Perm O') : Tiling N F O' := fun p => by
  rw [← h p, cover, cover, (hO.map (·.ind p)).sum_eq]

/-- Free blocks that share a page are equal. -/
theorem eq_of_mem (hb : b ∈ F) (hc : c ∈ F) (hpb : p ∈ b.pages) (hpc : p ∈ c.pages) : b = c := by
  by_contra hne
  have h1 := h.cover_le_one p
  have h2 := ind_le_sum (mem_erase.2 ⟨Ne.symm hne, hc⟩) p
  rw [cover, ← add_sum_erase F _ hb, ind_eq_one hpb] at h1
  rw [ind_eq_one hpc] at h2
  omega

theorem disjoint_free (hb : b ∈ F) (hc : c ∈ F) (hne : b ≠ c) : Disjoint b.pages c.pages :=
  disjoint_left.2 fun _ hpb hpc => hne (h.eq_of_mem hb hc hpb hpc)

theorem not_mem_of_mem (hb : b ∈ O) (hpb : p ∈ b.pages) (hpc : p ∈ c.pages) : c ∉ F :=
  (h.perm (List.perm_cons_erase hb)).not_mem_of_cons hpb hpc

theorem disjoint_taken (hb : b ∈ F) (hc : c ∈ O) : Disjoint b.pages c.pages :=
  disjoint_left.2 fun _ hpb hpc => h.not_mem_of_mem hc hpc hpb hb

/-- The blocks taken are pairwise disjoint. -/
theorem pairwise : O.Pairwise fun b c => Disjoint b.pages c.pages := by
  have key : ∀ O : List Block, (∀ p, (O.map (·.ind p)).sum ≤ 1) →
      O.Pairwise fun b c => Disjoint b.pages c.pages := by
    intro O hO
    induction O with
    | nil => exact .nil
    | cons b O ih =>
      have hO' : ∀ p, b.ind p + (O.map (·.ind p)).sum ≤ 1 := fun p => by simpa using hO p
      refine .cons (fun c hc => disjoint_left.2 fun p hpb hpc => ?_)
        (ih fun p => (le_add_left _ _).trans (hO' p))
      have h1 := hO' p
      have h2 := List.single_le_sum (fun _ _ => zero_le _) _
        (List.mem_map_of_mem (f := (·.ind p)) hc)
      rw [ind_eq_one hpb] at h1
      rw [ind_eq_one hpc] at h2
      omega
  exact key O fun p => (le_add_left _ _).trans (h.cover_le_one p)

/-- The blocks cover the first `N` pages and no others. -/
theorem exists_iff : ((∃ b ∈ F, p ∈ b.pages) ∨ ∃ b ∈ O, p ∈ b.pages) ↔ p < N := by
  have hpos : 0 < cover F O p ↔ p < N := by
    rw [h p]
    split <;> simp [*]
  rw [← hpos, cover, add_pos_iff_pos_or_pos]
  refine or_congr ?_ ?_
  · rw [sum_pos_iff]
    simp only [ind_pos]
  · rw [List.sum_pos_iff_exists_pos_nat]
    simp [ind_pos]

theorem lt_of_mem (hb : b ∈ F) (hp : p ∈ b.pages) : p < N :=
  h.exists_iff.1 (.inl ⟨b, hb, hp⟩)

theorem lt_of_mem_taken (hb : b ∈ O) (hp : p ∈ b.pages) : p < N :=
  h.exists_iff.1 (.inr ⟨b, hb, hp⟩)

end

/-- A block all of whose pages are among the first `N` ends there. -/
theorem end_le_of_forall_lt (h : ∀ p ∈ b.pages, p < N) : (b.index + 1) * 2 ^ b.order ≤ N := by
  have hpos := Nat.two_pow_pos b.order
  have hlast : (b.index + 1) * 2 ^ b.order - 1 ∈ b.pages := by
    rw [pages, mem_Ico, Nat.add_mul]
    omega
  have := h _ hlast
  omega

theorem end_le (h : Tiling N F O) (hb : b ∈ F) : (b.index + 1) * 2 ^ b.order ≤ N :=
  end_le_of_forall_lt fun _ => h.lt_of_mem hb

theorem end_le_taken (h : Tiling N F O) (hb : b ∈ O) : (b.index + 1) * 2 ^ b.order ≤ N :=
  end_le_of_forall_lt fun _ => h.lt_of_mem_taken hb

theorem sum_range_ind (h : (b.index + 1) * 2 ^ b.order ≤ N) :
    ∑ p ∈ range N, b.ind p = 2 ^ b.order := by
  have hsub : (range N).filter (· ∈ b.pages) = b.pages := by
    ext p
    rw [mem_filter, mem_range, and_iff_right_iff_imp, pages, mem_Ico]
    exact fun hp => hp.2.trans_le h
  simp only [ind]
  rw [← card_filter, hsub, card_pages]

/-- The pages of the blocks taken, counted page by page. -/
theorem sum_range_taken (h : Tiling N F O) :
    ∑ p ∈ range N, (O.map (·.ind p)).sum = (O.map (2 ^ ·.order)).sum := by
  have key : ∀ O' ⊆ O, ∑ p ∈ range N, (O'.map (·.ind p)).sum =
      (O'.map (2 ^ ·.order)).sum := by
    intro O' hO'
    induction O' with
    | nil => simp
    | cons b O' ih =>
      obtain ⟨hb, hO'⟩ := List.cons_subset.1 hO'
      simp only [List.map_cons, List.sum_cons]
      rw [sum_add_distrib, ih hO', sum_range_ind (h.end_le_taken hb)]
  exact key O (List.Subset.refl O)

/-- The blocks taken have no more than `N` pages. -/
theorem sum_pages_le (h : Tiling N F O) : (O.map (2 ^ ·.order)).sum ≤ N :=
  calc (O.map (2 ^ ·.order)).sum = ∑ p ∈ range N, (O.map (·.ind p)).sum :=
        h.sum_range_taken.symm
    _ ≤ ∑ _p ∈ range N, 1 :=
        sum_le_sum fun p _ => (le_add_left _ _).trans (h.cover_le_one p)
    _ = N := by simp

/-! ## The moves -/

/-- Take a free block. -/
theorem take (h : Tiling N F O) (hb : b ∈ F) : Tiling N (F.erase b) (b :: O) := fun p => by
  rw [← h p, cover, cover, ← add_sum_erase F _ hb, List.map_cons, List.sum_cons]
  omega

/-- Free a block taken. -/
theorem give (h : Tiling N F (b :: O)) : Tiling N (insert b F) O := fun p => by
  have hb : b ∉ F := h.not_mem_of_cons b.first_mem_pages b.first_mem_pages
  rw [← h p, cover, cover, sum_insert hb, List.map_cons, List.sum_cons]
  omega

/-- Split a block taken, keeping one half of it. -/
theorem split (h : Tiling N F (b.parent :: O)) : Tiling N (insert b.buddy F) (b :: O) := fun p => by
  have hb : b.buddy ∉ F :=
    h.not_mem_of_cons (parent_buddy b ▸ mem_parent b.buddy.first_mem_pages) b.buddy.first_mem_pages
  rw [← h p, cover, cover, sum_insert hb, List.map_cons, List.sum_cons, List.map_cons,
    List.sum_cons, ind_parent]
  omega

/-- Merge a block taken with its buddy. -/
theorem merge (h : Tiling N F (b :: O)) (hb : b.buddy ∈ F) :
    Tiling N (F.erase b.buddy) (b.parent :: O) := fun p => by
  rw [← h p, cover, cover, ← add_sum_erase F _ hb, List.map_cons, List.sum_cons,
    List.map_cons, List.sum_cons, ind_parent]
  omega

/-- Add a block after the last page. -/
theorem extend (h : Tiling (b.index * 2 ^ b.order) F O) :
    Tiling ((b.index + 1) * 2 ^ b.order) (insert b F) O := fun p => by
  have hb : b ∉ F := fun hb => lt_irrefl _ (h.lt_of_mem hb b.first_mem_pages)
  have hp := h p
  rw [cover] at hp
  rw [cover, sum_insert hb, add_assoc, ind, pages]
  grind

end Tiling

/-! ## Coalescing -/

/-- No two free blocks of an order below `K` are buddies. -/
def Coalesced (K : ℕ) (F : Finset Block) : Prop := ∀ b ∈ F, b.order < K → b.buddy ∉ F

namespace Coalesced

theorem erase (h : Coalesced K F) (b : Block) : Coalesced K (F.erase b) := fun c hc hk hbud =>
  h c (mem_of_mem_erase hc) hk (mem_of_mem_erase hbud)

theorem insert (h : Coalesced K F) (hb : b.order < K → b.buddy ∉ F) : Coalesced K (insert b F) := by
  intro c hc hk hbud
  rcases mem_insert.1 hc with rfl | hc
  · rcases mem_insert.1 hbud with heq | hbud
    · exact buddy_ne _ heq
    · exact hb hk hbud
  · rcases mem_insert.1 hbud with heq | hbud
    · -- The buddy of `c` is the new block, so `c` is the buddy of that.
      rw [← heq, buddy_buddy] at hb
      exact hb hk hc
    · exact h c hc hk hbud

end Coalesced

/-- In a coalesced tiling, a block whose pages are all in free blocks is within
    one of them, which is no smaller. -/
theorem Tiling.exists_free_of_coalesced (h : Tiling N F O) (hF : Coalesced K F) {r : Block}
    (hr : r.order ≤ K) (hfree : ∀ p ∈ r.pages, ∃ b ∈ F, p ∈ b.pages) :
    ∃ b ∈ F, r.order ≤ b.order := by
  by_contra hno
  push Not at hno
  -- The smallest of the free blocks that meet `r`: its buddy is within `r` too,
  -- so it is covered by free blocks, and none of them is smaller or larger.
  obtain ⟨b0, hb0, hp0⟩ := hfree _ r.first_mem_pages
  let S := F.filter fun b => ∃ p ∈ r.pages, p ∈ b.pages
  obtain ⟨b, hbS, hmin⟩ := S.exists_min_image (·.order)
    ⟨b0, mem_filter.2 ⟨hb0, _, r.first_mem_pages, hp0⟩⟩
  obtain ⟨hb, p, hpr, hpb⟩ := mem_filter.1 hbS
  have hlt := hno b hb
  have hsub : b.parent.pages ⊆ r.pages := pages_subset hlt (mem_parent hpb) hpr
  have hq := b.buddy.first_mem_pages
  have hqr := hsub (mem_pages_parent.2 (.inr hq))
  obtain ⟨c, hc, hqc⟩ := hfree _ hqr
  have hle : b.order ≤ c.order := hmin c (mem_filter.2 ⟨hc, _, hqr, hqc⟩)
  rcases hle.eq_or_lt with heq | hgt
  · have : b.buddy = c := eq_of_mem_pages heq hq hqc
    exact hF b hb (hlt.trans_le hr) (this ▸ hc)
  · have hsub' : b.parent.pages ⊆ c.pages :=
      pages_subset hgt (mem_pages_parent.2 (.inr hq)) hqc
    have := h.eq_of_mem hb hc hpb (hsub' (mem_parent hpb))
    rw [this] at hgt
    exact lt_irrefl _ hgt

/-- In a coalesced tiling, a block of any order is free if there are more blocks
    of that order than pages taken. -/
theorem Tiling.exists_free_of_lt (h : Tiling N F O) (hF : Coalesced K F) {k : ℕ} (hk : k ≤ K)
    (hN : ((O.map (2 ^ ·.order)).sum + 1) * 2 ^ k ≤ N) : ∃ b ∈ F, k ≤ b.order := by
  by_contra hno
  -- Each of the first blocks of the order would have a page taken.
  have htaken (i : ℕ) (hi : (i + 1) * 2 ^ k ≤ N) :
      ∃ p ∈ Block.pages ⟨k, i⟩, p < N ∧ 1 ≤ (O.map (·.ind p)).sum := by
    by_contra hfree
    refine hno (h.exists_free_of_coalesced hF (r := ⟨k, i⟩) hk fun p hp => ?_)
    have hlt : p < N := (mem_Ico.1 hp).2.trans_le hi
    refine (h.exists_iff.2 hlt).resolve_right ?_
    rintro ⟨b, hb, hpb⟩
    refine hfree ⟨p, hp, hlt, ?_⟩
    rw [← ind_eq_one hpb]
    exact List.single_le_sum (fun _ _ => zero_le _) _ (List.mem_map_of_mem hb)
  have hsub : range ((O.map (2 ^ ·.order)).sum + 1) ⊆
      ((range N).filter fun p => 1 ≤ (O.map (·.ind p)).sum).image (· / 2 ^ k) := by
    intro i hi
    obtain ⟨p, hp, hlt, hpos⟩ := htaken i ((mul_le_mul_right _ (mem_range.1 hi)).trans hN)
    refine mem_image.2 ⟨p, mem_filter.2 ⟨mem_range.2 hlt, hpos⟩, ?_⟩
    exact Block.mem_pages.1 hp
  have hcard : ((range N).filter fun p => 1 ≤ (O.map (·.ind p)).sum).card ≤
      (O.map (2 ^ ·.order)).sum := by
    rw [← h.sum_range_taken, card_filter]
    refine sum_le_sum fun p _ => ?_
    split
    · assumption
    · exact zero_le _
  have := (card_le_card hsub).trans (card_image_le.trans hcard)
  rw [card_range] at this
  exact not_succ_le_self _ this

end Lib

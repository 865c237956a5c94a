import Mathlib.Data.List.Basic

/-!
# Marked lists

The elements of a list carry marks that say what became of them. Those with the
mark `out` are gone (`gone`), the others are kept (`kept`), in their order. The
marks can be chosen to follow the history of the list: elements in the middle of
those kept go (`exists_mark_gone`), and those kept are marked as one likes
(`exists_mark_kept`).
-/

namespace Lib.Marked

open List Prod

variable {α μ : Type*} [DecidableEq μ] {out : μ}

/-- The elements that are kept, with their marks. -/
def kept (out : μ) (l : List (α × μ)) : List (α × μ) := l.filter (·.2 ≠ out)

/-- The elements that are gone. -/
def gone (out : μ) (l : List (α × μ)) : List α := (l.filter (·.2 = out)).map fst

variable {x : α × μ} {l : List (α × μ)}

theorem kept_cons_of_ne (h : x.2 ≠ out) : kept out (x :: l) = x :: kept out l :=
  filter_cons_of_pos (decide_eq_true h)

theorem kept_cons_of_eq (h : x.2 = out) : kept out (x :: l) = kept out l :=
  filter_cons_of_neg (by simp [h])

theorem gone_cons_of_ne (h : x.2 ≠ out) : gone out (x :: l) = gone out l := by
  rw [gone, filter_cons_of_neg (by simp [h]), gone]

theorem gone_cons_of_eq (h : x.2 = out) : gone out (x :: l) = x.1 :: gone out l := by
  rw [gone, filter_cons_of_pos (by simp [h]), map_cons, gone]

theorem kept_append (l l' : List (α × μ)) : kept out (l ++ l') = kept out l ++ kept out l' :=
  filter_append ..

theorem gone_append (l l' : List (α × μ)) : gone out (l ++ l') = gone out l ++ gone out l' := by
  rw [gone, filter_append, map_append, gone, gone]

/-- An element that is kept goes. -/
theorem exists_mark_gone_one {a b : List α} {v : α} (h : (kept out l).map fst = a ++ v :: b) :
    ∃ l', l'.map fst = l.map fst ∧ (kept out l').map fst = a ++ b ∧
      (gone out l').Perm (v :: gone out l) := by
  induction l generalizing a with
  | nil => exact absurd h.symm (append_ne_nil_of_right_ne_nil a (cons_ne_nil v b))
  | cons x l ih =>
    by_cases hx : x.2 = out
    · rw [kept_cons_of_eq hx] at h
      obtain ⟨l', hl', hk, hg⟩ := ih h
      refine ⟨x :: l', by rw [map_cons, hl', map_cons], ?_, ?_⟩
      · rw [kept_cons_of_eq hx, hk]
      · rw [gone_cons_of_eq hx, gone_cons_of_eq hx]
        exact (hg.cons x.1).trans (List.Perm.swap ..)
    · rw [kept_cons_of_ne hx] at h
      cases a with
      | nil =>
        obtain ⟨rfl, rfl⟩ := cons.inj h
        refine ⟨(x.1, out) :: l, rfl, ?_, ?_⟩
        · rw [kept_cons_of_eq (x := (x.1, out)) rfl, nil_append]
        · rw [gone_cons_of_eq (x := (x.1, out)) rfl, gone_cons_of_ne hx]
      | cons y a =>
        obtain ⟨rfl, hrest⟩ := cons.inj h
        obtain ⟨l', hl', hk, hg⟩ := ih hrest
        refine ⟨x :: l', by rw [map_cons, hl', map_cons], ?_, ?_⟩
        · rw [kept_cons_of_ne hx, map_cons, hk, cons_append]
        · rwa [gone_cons_of_ne hx, gone_cons_of_ne hx]

/-- Elements in the middle of those that are kept go. -/
theorem exists_mark_gone {a v b : List α} (h : (kept out l).map fst = a ++ v ++ b) :
    ∃ l', l'.map fst = l.map fst ∧ (kept out l').map fst = a ++ b ∧
      (gone out l').Perm (gone out l ++ v) := by
  induction v generalizing l with
  | nil => exact ⟨l, rfl, by rw [h, append_nil], by rw [append_nil]⟩
  | cons x v ih =>
    rw [append_assoc] at h
    obtain ⟨l1, hl1, hk1, hg1⟩ := exists_mark_gone_one h
    obtain ⟨l2, hl2, hk2, hg2⟩ := ih (hk1.trans (append_assoc ..).symm)
    refine ⟨l2, hl2.trans hl1, hk2, hg2.trans ?_⟩
    exact (hg1.append_right v).trans perm_middle.symm

/-- The elements that are kept can carry any other marks. -/
theorem exists_mark_kept {l k : List (α × μ)}
    (h : (kept out l).map fst = k.map fst) (hk : ∀ x ∈ k, x.2 ≠ out) :
    ∃ l', l'.map fst = l.map fst ∧ kept out l' = k ∧ gone out l' = gone out l := by
  induction l generalizing k with
  | nil =>
    obtain rfl := map_eq_nil_iff.1 h.symm
    exact ⟨[], rfl, rfl, rfl⟩
  | cons x l ih =>
    by_cases hx : x.2 = out
    · rw [kept_cons_of_eq hx] at h
      obtain ⟨l', hl', hk', hg⟩ := ih h hk
      refine ⟨x :: l', by rw [map_cons, hl', map_cons], ?_, ?_⟩
      · rw [kept_cons_of_eq hx, hk']
      · rw [gone_cons_of_eq hx, gone_cons_of_eq hx, hg]
    · rw [kept_cons_of_ne hx] at h
      cases k with
      | nil => cases h
      | cons y k =>
        obtain ⟨hy, hrest⟩ := cons.inj h
        rw [forall_mem_cons] at hk
        obtain ⟨l', hl', hk', hg⟩ := ih hrest hk.2
        refine ⟨y :: l', by rw [map_cons, hl', map_cons, hy], ?_, ?_⟩
        · rw [kept_cons_of_ne hk.1, hk']
        · rw [gone_cons_of_ne hk.1, gone_cons_of_ne hx, hg]

end Lib.Marked

import Mathlib.Data.List.ReduceOption

/-!
# Slot tables

A table of `n` slots, each free or holding an entry, scanned in order: an entry
goes into the first free slot (`Slots.fill?`), and the first entry with a given
property is dropped, leaving its slot free (`Slots.vacate`), or all of them are
(`Slots.clear`). Seen as the list of their entries, the first adds one, the
second is `List.eraseP` and the third `List.filter`.
-/

namespace Lib

open List

open scoped List

variable {α : Type*}

/-- Put `x` into the first free slot, if there is one. -/
def fillFirst (x : α) : List (Option α) → Option (List (Option α))
  | [] => none
  | none :: l => some (some x :: l)
  | some y :: l => (fillFirst x l).map (some y :: ·)

/-- Free the first slot whose entry has the property `p`. -/
def vacateFirst (p : α → Bool) : List (Option α) → List (Option α)
  | [] => []
  | none :: l => none :: vacateFirst p l
  | some y :: l => if p y then none :: l else some y :: vacateFirst p l

variable {l l' : List (Option α)} (p : α → Bool) {x : α}

theorem length_fillFirst (h : fillFirst x l = some l') : l'.length = l.length := by
  induction l generalizing l' with
  | nil => cases h
  | cons o l ih =>
    cases o with
    | none => cases h; rfl
    | some y =>
      obtain ⟨k, hk, rfl⟩ := Option.map_eq_some_iff.1 h
      rw [length_cons, ih hk, length_cons]

/-- The entry goes in between two of the others. -/
theorem reduceOption_fillFirst (h : fillFirst x l = some l') :
    ∃ l1 l2, l.reduceOption = l1 ++ l2 ∧ l'.reduceOption = l1 ++ x :: l2 := by
  induction l generalizing l' with
  | nil => cases h
  | cons o l ih =>
    cases o with
    | none => cases h; exact ⟨[], l.reduceOption, rfl, rfl⟩
    | some y =>
      obtain ⟨k, hk, rfl⟩ := Option.map_eq_some_iff.1 h
      obtain ⟨l1, l2, hl, hk⟩ := ih hk
      refine ⟨y :: l1, l2, ?_, ?_⟩
      · rw [reduceOption_cons_of_some, hl, cons_append]
      · rw [reduceOption_cons_of_some, hk, cons_append]

/-- If no entry is behind a free slot, the entry goes behind the others. -/
theorem reduceOption_fillFirst_of_pairwise (hl : l.Pairwise fun o o' => o'.isSome → o.isSome)
    (h : fillFirst x l = some l') : l'.reduceOption = l.reduceOption ++ [x] := by
  induction l generalizing l' with
  | nil => cases h
  | cons o l ih =>
    obtain ⟨hfree, hrest⟩ := pairwise_cons.1 hl
    cases o with
    | none =>
      cases h
      have hnil : l.reduceOption = [] := by
        refine eq_nil_iff_forall_not_mem.2 fun y hy => ?_
        exact Bool.false_ne_true (hfree _ (reduceOption_mem_iff.1 hy) rfl)
      rw [reduceOption_cons_of_some, reduceOption_cons_of_none, hnil]
      rfl
    | some y =>
      obtain ⟨k, hk, rfl⟩ := Option.map_eq_some_iff.1 h
      rw [reduceOption_cons_of_some, ih hrest hk, reduceOption_cons_of_some, cons_append]

theorem fillFirst_eq_none {l : List (Option α)} :
    fillFirst x l = none ↔ l.reduceOption.length = l.length := by
  induction l with
  | nil => simp [fillFirst]
  | cons o l ih =>
    cases o with
    | none =>
      have := reduceOption_length_le l
      simp [fillFirst]
      omega
    | some y => simp [fillFirst, ih]

theorem length_vacateFirst (l : List (Option α)) : (vacateFirst p l).length = l.length := by
  induction l with
  | nil => rfl
  | cons o l ih =>
    cases o with
    | none => simp [vacateFirst, ih]
    | some y =>
      rw [vacateFirst]
      split <;> simp [ih]

theorem reduceOption_vacateFirst (l : List (Option α)) :
    (vacateFirst p l).reduceOption = l.reduceOption.eraseP p := by
  induction l with
  | nil => rfl
  | cons o l ih =>
    cases o with
    | none => simp [vacateFirst, ih]
    | some y =>
      rw [vacateFirst]
      split <;> simp [*]

theorem reduceOption_map_filter (l : List (Option α)) :
    (l.map (Option.filter p)).reduceOption = l.reduceOption.filter p := by
  induction l with
  | nil => rfl
  | cons o l ih =>
    rcases o with _ | y
    · simpa using ih
    · by_cases hy : p y <;> simp [Option.filter, hy, ih]

/-- If the values of `f` are distinct, erasing the entry of one value is filtering it out. -/
theorem eraseP_eq_filter_of_nodup {β : Type*} [BEq β] [LawfulBEq β] {f : α → β} {l : List α}
    (h : (l.map f).Nodup) (b : β) : l.eraseP (f · == b) = l.filter (f · != b) := by
  induction l with
  | nil => rfl
  | cons x l ih =>
    rw [map_cons, nodup_cons] at h
    by_cases hx : f x = b
    · rw [eraseP_cons_of_pos (by simpa using hx), filter_cons_of_neg (by simpa using hx),
        filter_eq_self.2]
      intro y hy
      have : f y ≠ f x := fun hyx => h.1 (hyx ▸ mem_map_of_mem hy)
      simpa [← hx] using this
    · rw [eraseP_cons_of_neg (by simpa using hx), filter_cons_of_pos (by simpa using hx),
        ih h.2]

/-- A table of `n` slots. -/
structure Slots (α : Type*) (n : ℕ) where
  /-- The slots; a free one is `none`. -/
  cells : List (Option α)
  length_cells : cells.length = n

namespace Slots

variable {n : ℕ}

/-- A table of free slots. -/
def empty (α : Type*) (n : ℕ) : Slots α n := ⟨replicate n none, length_replicate⟩

variable (s : Slots α n)

/-- The entries of the table, in the order of their slots. -/
def entries : List α := s.cells.reduceOption

/-- Put `x` into the first free slot; `none` if all are taken. -/
def fill? (x : α) : Option (Slots α n) :=
  match h : fillFirst x s.cells with
  | none => none
  | some l => some ⟨l, (length_fillFirst h).trans s.length_cells⟩

/-- Free the first slot whose entry has the property `p`. -/
def vacate (p : α → Bool) : Slots α n :=
  ⟨vacateFirst p s.cells, (length_vacateFirst p s.cells).trans s.length_cells⟩

/-- Free every slot whose entry has the property `p`. -/
def clear (p : α → Bool) : Slots α n :=
  ⟨s.cells.map (Option.filter (!p ·)), length_map _ |>.trans s.length_cells⟩

@[simp] theorem entries_empty : (empty α n).entries = [] :=
  reduceOption_replicate_none

/-- The table whose first slots hold the entries `l`. -/
def ofList (l : List α) (h : l.length ≤ n) : Slots α n :=
  ⟨l.map some ++ replicate (n - l.length) none, by simp; omega⟩

@[simp] theorem entries_ofList (l : List α) (h : l.length ≤ n) : (ofList l h).entries = l := by
  simp [entries, ofList]
  simp [reduceOption]

theorem length_entries_le : s.entries.length ≤ n :=
  Nat.le_trans (reduceOption_length_le _) (Nat.le_of_eq s.length_cells)

variable {s}

variable {s' : Slots α n}

theorem fill?_eq_some : s.fill? x = some s' ↔ fillFirst x s.cells = some s'.cells := by
  rw [fill?]
  constructor
  · intro h
    split at h
    · cases h
    · next l hl => cases h; exact hl
  · intro h
    split
    · next hn => simp [hn] at h
    · next l hl =>
      rw [hl] at h
      cases h
      rfl

/-- Filling a slot adds its entry in between two of the others. -/
theorem entries_fill?_eq (h : s.fill? x = some s') :
    ∃ l1 l2, s.entries = l1 ++ l2 ∧ s'.entries = l1 ++ x :: l2 :=
  reduceOption_fillFirst (fill?_eq_some.1 h)

/-- Filling a slot adds its entry. -/
theorem entries_fill? (h : s.fill? x = some s') : s'.entries ~ x :: s.entries := by
  obtain ⟨l1, l2, hs, hs'⟩ := entries_fill?_eq h
  rw [hs, hs']
  exact perm_middle

/-- There is no free slot exactly when there are `n` entries. -/
theorem fill?_eq_none : s.fill? x = none ↔ s.entries.length = n := by
  rw [fill?]
  split
  · next h => simpa [entries, s.length_cells] using fillFirst_eq_none.1 h
  · next l h =>
    have := mt fillFirst_eq_none.2 (by rw [h]; simp)
    simpa [entries, s.length_cells] using this

theorem fillFirst_append (x : α) (l : List α) (k : List (Option α)) :
    fillFirst x (l.map some ++ none :: k) = some ((l ++ [x]).map some ++ k) := by
  induction l with
  | nil => rfl
  | cons y l ih => simp [fillFirst, ih]

theorem fill?_ofList (x : α) {l : List α} (h : l.length < n) :
    (ofList l (Nat.le_of_lt h)).fill? x =
      some (ofList (l ++ [x]) (by rw [length_append]; exact h)) := by
  obtain ⟨k, hk⟩ := Nat.exists_eq_add_of_lt h
  have h1 : n - l.length = k + 1 := by omega
  have h2 : n - (l ++ [x]).length = k := by simp; omega
  simp only [fill?_eq_some, ofList, h1, h2]
  exact fillFirst_append x l _

/-- Vacating drops the first entry with the property. -/
@[simp] theorem entries_vacate : (s.vacate p).entries = s.entries.eraseP p :=
  reduceOption_vacateFirst p s.cells

/-- Clearing drops all entries with the property. -/
@[simp] theorem entries_clear : (s.clear p).entries = s.entries.filter (!p ·) :=
  reduceOption_map_filter (!p ·) s.cells

end Slots

end Lib

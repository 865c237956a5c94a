import Mathlib.Data.Finset.Card
import Mathlib.Data.List.Pairwise
import Mathlib.Algebra.Order.Ring.Nat
import Mathlib.Algebra.Order.BigOperators.Group.List

/-!
# Sorted maps

A map with ordered keys, kept as the list of its entries in the order of their
keys, which is the order they are iterated over. Looked up by key
(`SortedMap.get?`), inserting updates the map at one key and erasing drops one.
-/

namespace Lib

open List

variable {κ α β : Type*} [LinearOrder κ]

/-- A map from keys to values, iterated over in the order of the keys. -/
structure SortedMap (κ α : Type*) [LinearOrder κ] where
  entries : List (κ × α)
  sorted : entries.Pairwise (·.1 < ·.1)

namespace SortedMap

/-- The map without entries. -/
def empty : SortedMap κ α := ⟨[], .nil⟩

variable (m : SortedMap κ α)

/-- The value of the key. -/
def get? (k : κ) : Option α := m.entries.lookup k

/-- The number of entries. -/
def size : ℕ := m.entries.length

/-- Set the value of the key. -/
def insert (k : κ) (v : α) : SortedMap κ α where
  entries := m.entries.filter (·.1 < k) ++ (k, v) :: m.entries.filter (k < ·.1)
  sorted := by
    refine pairwise_append.2 ⟨m.sorted.filter _, pairwise_cons.2 ⟨?_, m.sorted.filter _⟩, ?_⟩
    · intro p hp
      exact of_decide_eq_true (mem_filter.1 hp).2
    · intro p hp q hq
      have hpk : p.1 < k := of_decide_eq_true (mem_filter.1 hp).2
      rcases mem_cons.1 hq with rfl | hq
      · exact hpk
      · exact hpk.trans (of_decide_eq_true (mem_filter.1 hq).2)

/-- Keep the entries that satisfy `p`. -/
def filter (p : κ × α → Bool) : SortedMap κ α := ⟨m.entries.filter p, m.sorted.filter p⟩

/-- Drop the key. -/
def erase (k : κ) : SortedMap κ α := ⟨m.entries.filter (·.1 ≠ k), m.sorted.filter _⟩

/-- Change every value. -/
def map (f : α → β) : SortedMap κ β :=
  ⟨m.entries.map fun p => (p.1, f p.2), pairwise_map.2 m.sorted⟩

variable {m} {k k' : κ} {v v' : α} {p : κ × α}

/-- A key has one value. -/
theorem value_eq (h : (k, v) ∈ m.entries) (h' : (k, v') ∈ m.entries) : v = v' := by
  have hs : Std.Symm fun p q : κ × α => p.1 ≠ q.1 := ⟨fun _ _ h => h.symm⟩
  have hd := m.sorted.imp fun h => h.ne
  by_contra hne
  exact hd.forall h h' (fun h => hne (Prod.mk.inj h).2) rfl

theorem get?_eq_none : m.get? k = none ↔ ∀ p ∈ m.entries, p.1 ≠ k := by
  rw [get?, lookup_eq_none_iff]
  exact forall₂_congr fun p _ => bne_iff_ne.trans ne_comm

theorem get?_eq_some : m.get? k = some v ↔ (k, v) ∈ m.entries := by
  constructor
  · intro h
    obtain ⟨l1, l2, hl, -⟩ := lookup_eq_some_iff.1 h
    rw [hl]
    exact mem_append_right _ mem_cons_self
  · intro h
    cases hg : m.get? k with
    | none => exact absurd rfl (get?_eq_none.1 hg _ h)
    | some v' =>
      obtain ⟨l1, l2, hl, -⟩ := lookup_eq_some_iff.1 hg
      rw [value_eq h (hl ▸ mem_append_right _ mem_cons_self)]

variable {l : List (κ × α)} (f : α → β)

theorem filter_of_pairwise (h : l.Pairwise (·.1 < ·.1)) (k : κ) :
    l.filter (·.1 = k) = ((l.lookup k).map (k, ·)).toList := by
  induction l with
  | nil => rfl
  | cons p l ih =>
    obtain ⟨a, v⟩ := p
    obtain ⟨hhead, htail⟩ := pairwise_cons.1 h
    rw [filter_cons, lookup_cons]
    by_cases hak : a = k
    · -- The other keys are larger.
      have hrest : l.filter (·.1 = k) = [] := by
        refine filter_eq_nil_iff.2 fun q hq => ?_
        have := hhead q hq
        simpa [hak] using this.ne'
      simp [hak, hrest]
    · have hka : (k == a) = false := beq_eq_false_iff_ne.2 (Ne.symm hak)
      rw [hka, decide_eq_false hak]
      exact ih htail

/-- The entries of a key: its value, if there is one. -/
theorem filter_entries (m : SortedMap κ α) (k : κ) :
    m.entries.filter (·.1 = k) = ((m.get? k).map (k, ·)).toList :=
  filter_of_pairwise m.sorted k

theorem eq_append_of_pairwise (h : l.Pairwise (·.1 < ·.1)) (k : κ) :
    l = l.filter (·.1 < k) ++ (l.filter (·.1 = k) ++ l.filter (k < ·.1)) := by
  induction l with
  | nil => rfl
  | cons p l ih =>
    obtain ⟨hhead, htail⟩ := pairwise_cons.1 h
    have ih := ih htail
    rcases lt_or_ge p.1 k with hlt | hge
    · rw [filter_cons_of_pos (by simpa using hlt),
        filter_cons_of_neg (by simpa using hlt.ne),
        filter_cons_of_neg (by simpa using hlt.le), cons_append, ← ih]
    · -- The other keys are larger than the first one.
      have hgt : ∀ q ∈ l, k < q.1 := fun q hq => hge.trans_lt (hhead q hq)
      have h1 : l.filter (·.1 < k) = [] :=
        filter_eq_nil_iff.2 fun q hq => by simpa using (hgt q hq).le
      have h2 : l.filter (·.1 = k) = [] :=
        filter_eq_nil_iff.2 fun q hq => by simpa using (hgt q hq).ne'
      have h3 : l.filter (k < ·.1) = l :=
        filter_eq_self.2 fun q hq => by simpa using hgt q hq
      rw [filter_cons_of_neg (by simpa using hge), h1]
      rcases hge.eq_or_lt with heq | hlt
      · rw [filter_cons_of_pos (by simpa using heq.symm), h2,
          filter_cons_of_neg (by simpa using heq.ge), h3]
        rfl
      · rw [filter_cons_of_neg (by simpa using hlt.ne'), h2,
          filter_cons_of_pos (by simpa using hlt), h3]
        rfl

section

variable (m : SortedMap κ α)

theorem entries_erase (k : κ) :
    (m.erase k).entries = m.entries.filter (·.1 < k) ++ m.entries.filter (k < ·.1) := by
  have h := eq_append_of_pairwise (m.erase k).sorted k
  rw [h]
  simp only [erase, filter_filter]
  have hnil : m.entries.filter (fun p => decide (p.1 = k) && decide (p.1 ≠ k)) = [] :=
    filter_eq_nil_iff.2 fun q _ => by simp
  rw [hnil]
  congr 1 <;> refine filter_congr fun q _ => Bool.eq_iff_iff.2 ?_
  · simpa using fun h : q.1 < k => h.ne
  · simpa using fun h : k < q.1 => h.ne'

/-- The entries are those of the key and the others. -/
theorem countP_eq (k : κ) (f : κ × α → Bool) :
    m.entries.countP f =
      (m.erase k).entries.countP f + (((m.get? k).map (k, ·)).toList).countP f := by
  have h := congrArg (countP f) (eq_append_of_pairwise m.sorted k)
  rw [filter_of_pairwise m.sorted k, countP_append, countP_append] at h
  rw [entries_erase, countP_append, get?]
  omega

theorem countP_insert (k : κ) (v : α) (f : κ × α → Bool) :
    (m.insert k v).entries.countP f = (m.erase k).entries.countP f + [(k, v)].countP f := by
  rw [insert, entries_erase, countP_append, countP_append, countP_cons, countP_singleton]
  omega

end

theorem countP_insert_of_none (h : m.get? k = none) (f : κ × α → Bool) :
    (m.insert k v).entries.countP f = m.entries.countP f + [(k, v)].countP f := by
  rw [countP_insert, countP_eq m k, h]
  rfl

/-- A new value of a key is counted as the old one. -/
theorem countP_insert_of_some (h : m.get? k = some v') {f : κ × α → Bool}
    (hf : f (k, v) = f (k, v')) : (m.insert k v).entries.countP f = m.entries.countP f := by
  rw [countP_insert, countP_eq m k, h]
  simp [hf]

theorem size_insert_of_none (h : m.get? k = none) : (m.insert k v).size = m.size + 1 := by
  simpa [size] using countP_insert_of_none h fun _ => true

theorem size_insert_of_some (h : m.get? k = some v') : (m.insert k v).size = m.size := by
  simpa [size] using countP_insert_of_some h (f := fun _ => true) rfl

theorem mem_insert : p ∈ (m.insert k v).entries ↔ p = (k, v) ∨ p.1 ≠ k ∧ p ∈ m.entries := by
  simp only [insert, mem_append, mem_cons, mem_filter, decide_eq_true_eq, ne_iff_lt_or_gt]
  tauto

theorem mem_erase : p ∈ (m.erase k).entries ↔ p.1 ≠ k ∧ p ∈ m.entries := by
  simp only [erase, mem_filter, decide_eq_true_eq, and_comm]

@[simp] theorem get?_insert_self : (m.insert k v).get? k = some v :=
  get?_eq_some.2 (mem_insert.2 (.inl rfl))

@[simp] theorem get?_insert_of_ne (h : k' ≠ k) : (m.insert k v).get? k' = m.get? k' := by
  ext v'
  rw [get?_eq_some, get?_eq_some, mem_insert]
  simp [h]

theorem get?_filter (f : κ × α → Bool) :
    (m.filter f).get? k = (m.get? k).filter fun v => f (k, v) := by
  ext v
  rw [get?_eq_some, Option.filter_eq_some_iff, get?_eq_some]
  exact List.mem_filter

theorem get?_erase_self : (m.erase k).get? k = none :=
  get?_eq_none.2 fun _ hp => (mem_erase.1 hp).1

theorem get?_erase_of_ne (h : k' ≠ k) : (m.erase k).get? k' = m.get? k' := by
  ext v'
  rw [get?_eq_some, get?_eq_some, mem_erase]
  simp [h]

/-- An insertion adds no more than the new entry to a total. -/
theorem sum_insert_le (g : κ × α → ℕ) (m : SortedMap κ α) (k : κ) (v : α) :
    ((m.insert k v).entries.map g).sum ≤ (m.entries.map g).sum + g (k, v) := by
  have herase : ((m.erase k).entries.map g).sum ≤ (m.entries.map g).sum :=
    (filter_sublist.map g).sum_le_sum fun _ _ => Nat.zero_le _
  rw [entries_erase, map_append, sum_append] at herase
  simp only [insert, map_append, map_cons, sum_append, sum_cons]
  omega

@[simp] theorem get?_map : (m.map f).get? k = (m.get? k).map f := by
  ext w
  simp only [get?_eq_some, Option.map_eq_some_iff, map, mem_map, Prod.mk.injEq, Prod.exists]
  constructor
  · rintro ⟨k', v, hv, rfl, rfl⟩
    exact ⟨v, hv, rfl⟩
  · rintro ⟨v, hv, rfl⟩
    exact ⟨k, v, hv, rfl, rfl⟩

/-- Changing every value goes through an insertion. -/
theorem map_insert : (m.insert k v).map f = (m.map f).insert k (f v) := by
  simp only [map, insert, map_append, filter_map]
  rfl

/-- There are at most as many entries as keys to choose from. -/
theorem size_le_card {s : Finset κ} (h : ∀ p ∈ m.entries, p.1 ∈ s) : m.size ≤ s.card := by
  have hnd := pairwise_map.2 (m.sorted.imp fun h => h.ne)
  rw [size, ← length_map Prod.fst, ← toFinset_card_of_nodup hnd]
  refine Finset.card_le_card fun k hk => ?_
  obtain ⟨p, hp, rfl⟩ := mem_map.1 (mem_toFinset.1 hk)
  exact h p hp

end SortedMap

end Lib

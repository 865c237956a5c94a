import Mathlib.Data.Fintype.Card

/-!
# Keyed tables

A table of `n` cells, some of which are in use under a key. A key is looked up by
scanning the cells in order (`Keyed.find`), and a new one is written to a cell
not in use.

As long as no two cells have the same key (`Keyed.Distinct`), the table stands
for a map (`Keyed.entry`), which writing a cell updates at its key
(`Distinct.entry_set`). There is a cell left for a new key if the keys come from
a set of at most `n` (`Distinct.exists_free`).
-/

namespace Lib

variable {α : Type*} {n : ℕ} (v : Vector α n)

theorem get_set (i j : Fin n) (x : α) : (v.set i x).get j = if j = i then x else v.get j := by
  refine (Vector.getElem_set i.2 j.2).trans ?_
  simp only [Fin.ext_iff, @eq_comm ℕ i j]
  rfl

@[simp] theorem get_set_self (i : Fin n) (x : α) : (v.set i x).get i = x := by
  rw [get_set, if_pos rfl]

theorem get_set_ne {i j : Fin n} (h : j ≠ i) (x : α) : (v.set i x).get j = v.get j := by
  rw [get_set, if_neg h]

end Lib

namespace Lib.Keyed

open Finset

variable {α κ : Type*} {n : ℕ} (key : α → Option κ)

/-- No key is in use twice. -/
def Distinct (v : Vector α n) : Prop :=
  ∀ i j k, key (v.get i) = some k → key (v.get j) = some k → i = j

variable {key} {v : Vector α n} {i : Fin n} {k k' : κ} {x : α}

/-- Write the cell of the key, or a cell not in use if there is none. -/
theorem Distinct.set (hd : Distinct key v) (hx : key x = some k)
    (hi : ∀ j, key (v.get j) = some k → j = i) : Distinct key (v.set i x i.isLt) := by
  intro a b k1 ha hb
  rw [get_set] at ha hb
  split_ifs at ha hb with hai hbi hbi
  · rw [hai, hbi]
  · rw [hx] at ha
    exact absurd (hi b (hb.trans ha.symm)) hbi
  · rw [hx] at hb
    exact absurd (hi a (ha.trans hb.symm)) hai
  · exact hd a b k1 ha hb

variable [DecidableEq κ]

/-- The first cell in use under the key. -/
def find (key : α → Option κ) (v : Vector α n) (k : κ) : Option (Fin n) :=
  Fin.find? fun i => key (v.get i) == some k

/-- What the table holds under the key. -/
def entry (key : α → Option κ) (v : Vector α n) (k : κ) : Option α :=
  (find key v k).map v.get

theorem key_of_find (h : find key v k = some i) : key (v.get i) = some k :=
  beq_iff_eq.1 (Fin.find?_eq_some_iff.1 h).1

theorem find_eq_none : find key v k = none ↔ ∀ i, key (v.get i) ≠ some k := by
  simp [find]

namespace Distinct

variable (hd : Distinct key v)
include hd

theorem find_eq_some : find key v k = some i ↔ key (v.get i) = some k := by
  refine ⟨key_of_find, fun h => ?_⟩
  cases hf : find key v k with
  | none => exact absurd h (find_eq_none.1 hf i)
  | some j => rw [hd i j k h (key_of_find hf)]

theorem entry_eq_some : entry key v k = some x ↔ ∃ i, key (v.get i) = some k ∧ v.get i = x := by
  simp only [entry, Option.map_eq_some_iff, hd.find_eq_some]

/-- Writing a cell updates the map at its key. -/
theorem entry_set (hx : key x = some k)
    (hi : ∀ j, key (v.get j) = some k → j = i) (hk : ∀ k', key (v.get i) = some k' → k' = k) :
    entry key (v.set i x i.isLt) = Function.update (entry key v) k (some x) := by
  funext k'
  ext y
  rw [(hd.set hx hi).entry_eq_some]
  by_cases hkk : k' = k
  · subst hkk
    rw [Function.update_self, Option.some_inj]
    constructor
    · rintro ⟨j, hj, rfl⟩
      rw [(hd.set hx hi) j i k' hj (by rw [get_set_self, hx]), get_set_self]
    · rintro rfl
      exact ⟨i, by rw [get_set_self, hx], get_set_self ..⟩
  · rw [Function.update_of_ne hkk, hd.entry_eq_some]
    refine exists_congr fun j => ?_
    by_cases hji : j = i
    · subst hji
      rw [get_set_self]
      refine ⟨fun h => ?_, fun h => absurd (hk k' h.1) hkk⟩
      exact absurd (Option.some_inj.1 (h.1.symm.trans hx)) hkk
    · rw [get_set_ne _ hji]

/-- A cell is left for a new key. -/
theorem exists_free {keys : List κ} (hlen : keys.length ≤ n)
    (hkeys : ∀ i k, key (v.get i) = some k → k ∈ keys) (hk : k ∈ keys)
    (hnew : find key v k = none) : ∃ i, key (v.get i) = none := by
  by_contra hfree
  have hused : ∀ i, ∃ k, key (v.get i) = some k := fun i =>
    Option.ne_none_iff_exists'.1 fun h => hfree ⟨i, h⟩
  choose f hf using hused
  -- The keys in use are as many as the cells, and none of them is `k`.
  have hinj : Function.Injective f := fun i j hij => hd i j (f i) (hf i) (hij ▸ hf j)
  have hsub : univ.image f ⊆ keys.toFinset.erase k := by
    intro k' hk'
    obtain ⟨i, -, rfl⟩ := mem_image.1 hk'
    refine mem_erase.2 ⟨fun h => ?_, List.mem_toFinset.2 (hkeys i _ (hf i))⟩
    exact find_eq_none.1 hnew i (h ▸ hf i)
  have hcard := card_le_card hsub
  rw [card_image_of_injective _ hinj, card_univ, Fintype.card_fin,
    card_erase_of_mem (List.mem_toFinset.2 hk)] at hcard
  have hpos := card_pos.2 ⟨k, List.mem_toFinset.2 hk⟩
  have := List.toFinset_card_le keys
  omega

end Distinct

end Lib.Keyed

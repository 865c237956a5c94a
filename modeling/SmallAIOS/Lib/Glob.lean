import Mathlib.Computability.Language

/-!
# Wildcard patterns

A pattern is a list of parts: a letter, a wildcard for one letter, or a wildcard
for any word (`Glob.Part`). It stands for a language, the product of those of
its parts (`Glob.lang`).

Two patterns may have a word over some letters in common (`Glob.Common`).
Whether they do can be found out by walking along both, also when both have
wildcards: parts that take one letter take the same one (`common_cons_cons`),
and a wildcard for any word takes nothing, or moves past the next part of the
other pattern (`common_many_cons`).
-/

namespace Lib.Glob

open List

variable {α : Type*}

/-- A part of a pattern. -/
inductive Part (α : Type*)
  /-- The letter itself. -/
  | lit (a : α)
  /-- Any letter. -/
  | one
  /-- Any word. -/
  | many
  deriving DecidableEq

/-- The words a part stands for. -/
def Part.lang : Part α → Language α
  | lit a => {w | w = [a]}
  | one => {w | ∃ a, w = [a]}
  | many => ⊤

/-- The words a pattern stands for. -/
def lang (p : List (Part α)) : Language α := (p.map Part.lang).prod

/-- The letters a part other than `many` stands for. -/
def Part.Accepts : Part α → α → Prop
  | lit b, a => a = b
  | one, _ => True
  | many, _ => False

variable {a : α} {x y : Part α} {p q : List (Part α)} {w : List α}

/-- A part other than `many` takes one letter of the word. -/
theorem mem_lang_cons_of_ne (hx : x ≠ .many) :
    w ∈ lang (x :: p) ↔ ∃ a, x.Accepts a ∧ ∃ v ∈ lang p, w = a :: v := by
  cases x with
  | lit b =>
    constructor
    · rintro ⟨_, rfl, v, hv, rfl⟩
      exact ⟨b, rfl, v, hv, rfl⟩
    · rintro ⟨_, rfl, v, hv, rfl⟩
      exact ⟨_, rfl, v, hv, rfl⟩
  | one =>
    constructor
    · rintro ⟨_, ⟨a, rfl⟩, v, hv, rfl⟩
      exact ⟨a, trivial, v, hv, rfl⟩
    · rintro ⟨a, -, v, hv, rfl⟩
      exact ⟨_, ⟨a, rfl⟩, v, hv, rfl⟩
  | many => exact absurd rfl hx

theorem mem_lang_many : w ∈ lang (.many :: p) ↔ ∃ u, ∃ v ∈ lang p, u ++ v = w := by
  exact exists_congr fun u => and_iff_right trivial

theorem mem_lang_many_of_mem (h : w ∈ lang p) : w ∈ lang (.many :: p) :=
  mem_lang_many.2 ⟨[], w, h, rfl⟩

theorem cons_mem_lang_many (h : w ∈ lang (.many :: p)) (a : α) : a :: w ∈ lang (.many :: p) := by
  obtain ⟨u, v, hv, rfl⟩ := mem_lang_many.1 h
  exact mem_lang_many.2 ⟨a :: u, v, hv, rfl⟩

/-! ## Common words -/

/-- Two patterns have a word over the letters `S` in common. -/
def Common (S : Set α) (p q : List (Part α)) : Prop :=
  ∃ w, (∀ a ∈ w, a ∈ S) ∧ w ∈ lang p ∧ w ∈ lang q

variable {S : Set α}

theorem Common.symm (h : Common S p q) : Common S q p := by
  obtain ⟨w, hw, hp, hq⟩ := h
  exact ⟨w, hw, hq, hp⟩

theorem common_comm : Common S p q ↔ Common S q p := ⟨.symm, .symm⟩

theorem common_nil_nil : Common S [] [] := ⟨[], by simp, rfl, rfl⟩

theorem not_common_nil_cons (hx : x ≠ .many) : ¬ Common S [] (x :: p) := by
  rintro ⟨w, -, rfl, h⟩
  obtain ⟨a, -, v, -, hv⟩ := (mem_lang_cons_of_ne hx).1 h
  cases hv

theorem common_nil_many : Common S [] (.many :: p) ↔ Common S [] p := by
  constructor
  · rintro ⟨w, hw, rfl, h⟩
    obtain ⟨u, v, hv, he⟩ := mem_lang_many.1 h
    rw [(append_eq_nil_iff.1 he).2] at hv
    exact ⟨[], hw, rfl, hv⟩
  · rintro ⟨w, hw, h, hp⟩
    exact ⟨w, hw, h, mem_lang_many_of_mem hp⟩

/-- Parts that each take one letter take the same one. -/
theorem common_cons_cons (hx : x ≠ .many) (hy : y ≠ .many) :
    Common S (x :: p) (y :: q) ↔ (∃ a ∈ S, x.Accepts a ∧ y.Accepts a) ∧ Common S p q := by
  constructor
  · rintro ⟨w, hw, hp, hq⟩
    obtain ⟨a, ha, v, hv, rfl⟩ := (mem_lang_cons_of_ne hx).1 hp
    obtain ⟨b, hb, u, hu, he⟩ := (mem_lang_cons_of_ne hy).1 hq
    obtain ⟨rfl, rfl⟩ := cons.inj he
    rw [forall_mem_cons] at hw
    exact ⟨⟨a, hw.1, ha, hb⟩, v, hw.2, hv, hu⟩
  · rintro ⟨⟨a, haS, hxa, hya⟩, w, hw, hp, hq⟩
    exact ⟨a :: w, forall_mem_cons.2 ⟨haS, hw⟩,
      (mem_lang_cons_of_ne hx).2 ⟨a, hxa, w, hp, rfl⟩,
      (mem_lang_cons_of_ne hy).2 ⟨a, hya, w, hq, rfl⟩⟩

/-- A word in common with `many` has either nothing for it, or a part of what
    the next part of the other pattern stands for. -/
theorem Common.of_many (h : Common S (.many :: p) (y :: q)) :
    Common S p (y :: q) ∨ Common S (.many :: p) q := by
  obtain ⟨w, hw, hp, hq⟩ := h
  obtain ⟨u, v, hv, rfl⟩ := mem_lang_many.1 hp
  by_cases hy : y = .many
  · subst hy
    obtain ⟨u', v', hv', he⟩ := mem_lang_many.1 hq
    -- One of the two words that the rests stand for is a suffix of the other.
    rcases append_eq_append_iff.1 he with ⟨z, rfl, rfl⟩ | ⟨z, rfl, rfl⟩
    · rw [append_assoc] at hw
      exact .inr ⟨z ++ v, fun a ha => hw a (mem_append_right _ ha),
        mem_lang_many.2 ⟨z, v, hv, rfl⟩, hv'⟩
    · exact .inl ⟨z ++ v', fun a ha => hw a (mem_append_right _ ha), hv,
        mem_lang_many.2 ⟨z, v', hv', rfl⟩⟩
  · obtain ⟨a, -, t, ht, he⟩ := (mem_lang_cons_of_ne hy).1 hq
    cases u with
    | nil => exact .inl ⟨v, hw, hv, hq⟩
    | cons b u =>
      obtain ⟨rfl, rfl⟩ := cons.inj he
      exact .inr ⟨u ++ v, fun c hc => hw c (mem_cons_of_mem _ hc),
        mem_lang_many.2 ⟨u, v, hv, rfl⟩, ht⟩

theorem common_many_cons (hy : y = .many ∨ ∃ a ∈ S, y.Accepts a) :
    Common S (.many :: p) (y :: q) ↔ Common S p (y :: q) ∨ Common S (.many :: p) q := by
  refine ⟨Common.of_many, ?_⟩
  rintro (⟨w, hw, hp, hq⟩ | ⟨w, hw, hp, hq⟩)
  · exact ⟨w, hw, mem_lang_many_of_mem hp, hq⟩
  · rcases hy with rfl | ⟨a, ha, hya⟩
    · exact ⟨w, hw, hp, mem_lang_many_of_mem hq⟩
    · have hy : y ≠ .many := fun h => by simp [h, Part.Accepts] at hya
      exact ⟨a :: w, forall_mem_cons.2 ⟨ha, hw⟩, cons_mem_lang_many hp a,
        (mem_lang_cons_of_ne hy).2 ⟨a, hya, w, hq, rfl⟩⟩

theorem common_many_nil : Common S (.many :: p) [] ↔ Common S p [] := by
  rw [common_comm, common_nil_many, common_comm]

theorem common_cons_many (hx : x = .many ∨ ∃ a ∈ S, x.Accepts a) :
    Common S (x :: p) (.many :: q) ↔ Common S (x :: p) q ∨ Common S p (.many :: q) := by
  rw [common_comm, common_many_cons hx, common_comm, common_comm (p := p)]

end Lib.Glob

import Mathlib.Data.List.DropRight
import Mathlib.Data.List.Nodup

/-!
# Paths

A path is a string of components with a separator between two of them. Components
are joined one at a time (`Path.join`), and a path is relative if no separator
stands at either end, which is what trimming it achieves (`Path.trim_eq_self`).

The directories above a path are what stands before one of its separators
(`Path.Above`). Splitting a path at its separators and joining the components
again one by one goes through the directories above it (`Path.mem_walk`).

A tree is given by the entries of its directories. Looking the path of a name in a
directory up finds what the directory lists under the name (`Path.mem_list_iff`).
-/

namespace Lib.Path

open List

variable {α : Type*} (sep : α)

/-- Drop the separators at both ends. -/
def trim [DecidableEq α] (p : List α) : List α := (p.dropWhile (· = sep)).rdropWhile (· = sep)

/-- The path of a name in a directory, the empty path being the root. -/
def join (dir name : List α) : List α := if dir = [] then name else dir ++ sep :: name

/-- A path with no separator at either end. -/
def Relative (p : List α) : Prop := p.head? ≠ some sep ∧ p.getLast? ≠ some sep

instance [DecidableEq α] (p : List α) : Decidable (Relative sep p) :=
  inferInstanceAs (Decidable (_ ∧ _))

/-- One component of a path. -/
def IsName (n : List α) : Prop := n ≠ [] ∧ sep ∉ n

instance [DecidableEq α] (n : List α) : Decidable (IsName sep n) :=
  inferInstanceAs (Decidable (_ ∧ _))

/-- `a` is a directory above `q`. -/
def Above (a q : List α) : Prop := ∃ r, q = a ++ sep :: r

variable {sep} {a b p q n dir dir' n' : List α} {parts : List (List α)}

theorem trim_eq_self [DecidableEq α] (h : Relative sep p) : trim sep p = p := by
  have hd : p.dropWhile (· = sep) = p := by
    cases p with
    | nil => rfl
    | cons c p =>
      have hc : c ≠ sep := fun e => h.1 (congrArg some e)
      exact dropWhile_cons_of_neg (by simpa using hc)
  rw [trim, hd, rdropWhile_eq_self_iff]
  intro hp hlast
  exact h.2 ((getLast?_eq_some_getLast hp).trans (congrArg some (of_decide_eq_true hlast)))

theorem IsName.relative (h : IsName sep n) : Relative sep n :=
  ⟨fun e => h.2 (mem_of_head? e), fun e => h.2 (mem_of_getLast? e)⟩

theorem join_nil : join sep [] n = n := if_pos rfl

theorem join_of_ne_nil (h : dir ≠ []) : join sep dir n = dir ++ sep :: n := if_neg h

theorem join_ne_nil (h : n ≠ []) : join sep dir n ≠ [] := by
  rw [join]
  split_ifs with hd
  · exact h
  · simp

theorem Relative.join (hd : Relative sep dir) (hn : Relative sep n) (hne : n ≠ []) :
    Relative sep (join sep dir n) := by
  by_cases h : dir = []
  · rwa [h]
  · rw [join_of_ne_nil h]
    constructor
    · rw [head?_append_of_ne_nil _ h]
      exact hd.1
    · rw [getLast?_append_of_ne_nil _ (by simp), getLast?_cons_of_ne_nil hne]
      exact hn.2

section

variable (hn : sep ∉ n)
include hn

/-- The last separator of a path tells the directory from the name. -/
theorem append_sep_inj (hn' : sep ∉ n') (h : dir ++ sep :: n = dir' ++ sep :: n') :
    dir = dir' ∧ n = n' := by
  rcases append_eq_append_iff.1 h with ⟨c, hd, hc⟩ | ⟨c, hd, hc⟩
  · cases c with
    | nil => exact ⟨by simpa using hd.symm, (cons.inj hc).2⟩
    | cons _ c =>
      refine absurd ?_ hn
      rw [(cons.inj hc).2]
      simp
  · cases c with
    | nil => exact ⟨by simpa using hd, (cons.inj hc).2.symm⟩
    | cons _ c =>
      refine absurd ?_ hn'
      rw [(cons.inj hc).2]
      simp

/-- The directory and the name are read off the path. -/
theorem join_inj (hn' : sep ∉ n') (h : join sep dir n = join sep dir' n') :
    dir = dir' ∧ n = n' := by
  rw [join, join] at h
  split_ifs at h with hd hd' hd'
  · exact ⟨hd.trans hd'.symm, h⟩
  · exact absurd (h ▸ by simp) hn
  · exact absurd (h ▸ by simp) hn'
  · exact append_sep_inj hn hn' h

theorem not_above_name : ¬ Above sep a n := by
  rintro ⟨r, rfl⟩
  exact hn (by simp)

/-- Above a name in a directory are the directory and what is above it. -/
theorem above_join (hd : dir ≠ []) : Above sep a (join sep dir n) ↔ a = dir ∨ Above sep a dir := by
  rw [join_of_ne_nil hd]
  constructor
  · rintro ⟨r, h⟩
    rcases append_eq_append_iff.1 h with ⟨c, ha, hc⟩ | ⟨c, hdir, hc⟩
    · cases c with
      | nil => exact .inl (by simpa using ha)
      | cons _ c =>
        refine absurd ?_ hn
        rw [(cons.inj hc).2]
        simp
    · cases c with
      | nil => exact .inl (by simpa using hdir.symm)
      | cons x c =>
        rw [← (cons.inj hc).1] at hdir
        exact .inr ⟨c, hdir⟩
  · rintro (rfl | ⟨r, rfl⟩)
    · exact ⟨n, rfl⟩
    · exact ⟨r ++ sep :: n, by simp⟩

/-- Above a path that starts with a name. -/
theorem above_name_append :
    Above sep a (n ++ sep :: q) ↔ a = n ∨ ∃ b, a = n ++ sep :: b ∧ Above sep b q := by
  constructor
  · rintro ⟨r, h⟩
    rcases append_eq_append_iff.1 h with ⟨c, ha, hc⟩ | ⟨c, hn', hc⟩
    · cases c with
      | nil => exact .inl (by simpa using ha)
      | cons x c =>
        obtain ⟨rfl, hq⟩ := cons.inj hc
        exact .inr ⟨c, ha, r, hq⟩
    · cases c with
      | nil => exact .inl (by simpa using hn'.symm)
      | cons x c =>
        obtain ⟨rfl, -⟩ := cons.inj hc
        exact absurd (hn' ▸ by simp) hn
  · rintro (rfl | ⟨b, rfl, r, rfl⟩)
    · exact ⟨q, rfl⟩
    · exact ⟨r, by simp⟩

end

/-- The paths met when the components are joined to a path one after the other. -/
def walk (sep : α) (walked : List α) (parts : List (List α)) : List (List α) :=
  (parts.scanl (join sep) walked).tail

@[simp] theorem walk_nil : walk sep a [] = [] := rfl

@[simp] theorem walk_cons :
    walk sep a (p :: parts) = join sep a p :: walk sep (join sep a p) parts := by
  rw [walk, scanl_cons, tail_cons, walk]
  cases parts with
  | nil => rfl
  | cons p' parts => rw [scanl_cons, tail_cons]

theorem join_join (h : join sep a p ≠ []) :
    join sep (join sep a p) b = join sep a (p ++ sep :: b) := by
  rw [join_of_ne_nil h]
  by_cases ha : a = []
  · rw [ha, join_nil, join_nil]
  · rw [join_of_ne_nil ha, join_of_ne_nil ha, append_assoc, cons_append]

theorem mem_walk_dropLast (hsep : ∀ n ∈ p :: parts, sep ∉ n) (hne : join sep b p ≠ []) :
    a ∈ walk sep b (p :: parts).dropLast ↔
      ∃ c, a = join sep b c ∧ Above sep c ([sep].intercalate (p :: parts)) := by
  induction parts generalizing p b with
  | nil =>
    simp only [dropLast_singleton, walk_nil, not_mem_nil, false_iff]
    rintro ⟨c, -, hc⟩
    rw [intercalate_singleton] at hc
    exact not_above_name (hsep p mem_cons_self) hc
  | cons p' parts ih =>
    have hp : sep ∉ p := hsep p mem_cons_self
    have hrest : join sep (join sep b p) p' ≠ [] := by
      rw [join_of_ne_nil hne]
      simp
    have hq : [sep].intercalate (p :: p' :: parts) =
        p ++ sep :: [sep].intercalate (p' :: parts) := by
      rw [intercalate_cons_cons, append_assoc, singleton_append]
    rw [dropLast_cons_of_ne_nil (by simp), walk_cons, mem_cons,
      ih (fun n hn => hsep n (mem_cons_of_mem _ hn)) hrest, hq]
    simp only [above_name_append hp, join_join hne]
    constructor
    · rintro (rfl | ⟨c, rfl, hc⟩)
      · exact ⟨p, rfl, .inl rfl⟩
      · exact ⟨_, rfl, .inr ⟨c, rfl, hc⟩⟩
    · rintro ⟨_, rfl, rfl | ⟨c, rfl, hc⟩⟩
      · exact .inl rfl
      · exact .inr ⟨c, rfl, hc⟩

theorem sep_notMem_of_mem_splitOn [DecidableEq α] (h : n ∈ q.splitOn sep) : sep ∉ n := by
  rw [splitOn_eq_splitOnP] at h
  induction q generalizing n with
  | nil =>
    rw [splitOnP_nil, mem_singleton] at h
    rw [h]
    exact not_mem_nil
  | cons c q ih =>
    rw [splitOnP_cons_eq_if_modifyHead] at h
    split_ifs at h with hc
    · rcases mem_cons.1 h with rfl | h
      · exact not_mem_nil
      · exact ih h
    · cases hs : q.splitOnP (· == sep) with
      | nil => simp [hs] at h
      | cons p parts =>
        rw [hs] at h ih
        rcases mem_cons.1 h with rfl | h
        · intro hmem
          rcases mem_cons.1 hmem with rfl | hmem
          · exact hc (beq_self_eq_true _)
          · exact ih mem_cons_self hmem
        · exact ih (mem_cons_of_mem _ h)

/-- Joining all components of a path but the last one goes through the directories above it. -/
theorem mem_walk [DecidableEq α] (hq : Relative sep q) (hne : q ≠ []) :
    a ∈ walk sep [] (q.splitOn sep).dropLast ↔ Above sep a q := by
  have hi : [sep].intercalate (q.splitOn sep) = q := intercalate_splitOn sep
  cases hs : q.splitOn sep with
  | nil => exact absurd hs (splitOn_ne_nil sep q)
  | cons p parts =>
    rw [hs] at hi
    have hsep : ∀ n ∈ p :: parts, sep ∉ n := by
      intro n hn
      rw [← hs] at hn
      exact sep_notMem_of_mem_splitOn hn
    -- The first component is not empty: the path does not start with a separator.
    have hp : p ≠ [] := by
      rintro rfl
      cases parts with
      | nil => exact hne (hi.symm.trans (intercalate_singleton ..))
      | cons p' parts =>
        refine hq.1 ?_
        rw [← hi]
        rfl
    rw [mem_walk_dropLast hsep (by rwa [join_nil]), hi]
    simp only [join_nil, exists_eq_left']

/-! ## Trees as lists of entries -/

section Tree

variable {β : Type*} [DecidableEq α] (sep) (name : β → List α) (entries : List (List α × β))

/-- The entry at the path. -/
def find (path : List α) : Option β :=
  (entries.find? fun p => join sep p.1 (name p.2) = path).map (·.2)

/-- The entries of the directory. -/
def list (dir : List α) : List β := (entries.filter (·.1 = dir)).map (·.2)

variable {sep name entries} {e : β}

theorem mem_list : e ∈ list entries dir ↔ (dir, e) ∈ entries := by
  simp only [list, mem_map, mem_filter, decide_eq_true_eq]
  constructor
  · rintro ⟨⟨d, e⟩, ⟨hmem, rfl⟩, rfl⟩
    exact hmem
  · intro h
    exact ⟨(dir, e), ⟨h, rfl⟩, rfl⟩

/-- If no directory has two entries of one name, it lists under a name what is found there. -/
theorem mem_list_iff (hname : ∀ p ∈ entries, IsName sep (name p.2))
    (hd : (entries.map fun p => (p.1, name p.2)).Nodup) (hn : IsName sep n) :
    e ∈ list entries dir ∧ name e = n ↔ find sep name entries (join sep dir n) = some e := by
  rw [mem_list, find, Option.map_eq_some_iff]
  constructor
  · rintro ⟨hmem, rfl⟩
    have hsome : (entries.find? fun p => join sep p.1 (name p.2) = join sep dir (name e)).isSome :=
      find?_isSome.2 ⟨(dir, e), hmem, decide_eq_true rfl⟩
    obtain ⟨p, hp⟩ := Option.isSome_iff_exists.1 hsome
    have hpmem := mem_of_find?_eq_some hp
    have hjoin : join sep p.1 (name p.2) = join sep dir (name e) := by
      simpa using find?_some hp
    obtain ⟨hdir, hpname⟩ := join_inj (hname p hpmem).2 hn.2 hjoin
    have hpe : p = (dir, e) :=
      inj_on_of_nodup_map hd hpmem hmem (Prod.ext hdir hpname)
    exact ⟨p, hp, congrArg Prod.snd hpe⟩
  · rintro ⟨p, hp, rfl⟩
    have hpmem := mem_of_find?_eq_some hp
    have hjoin : join sep p.1 (name p.2) = join sep dir n := by simpa using find?_some hp
    obtain ⟨rfl, rfl⟩ := join_inj (hname p hpmem).2 hn.2 hjoin
    exact ⟨hpmem, rfl⟩

end Tree

end Lib.Path

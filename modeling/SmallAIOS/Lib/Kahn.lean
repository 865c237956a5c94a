import Mathlib.Order.WellFoundedSet

/-!
# Sorting by dependencies

The nodes of a graph are put in an order in which each one comes behind those it depends on. A
queue starts with the nodes that depend on nothing, and each node that is taken from it puts those
at its end that now have all they depend on, the smaller ones first (`Queue`).

A node may be put before another one that it has nothing to do with. Which of two nodes comes first
is said by the paths of dependencies that end at them (`PathTo`): of the last path to one and the
last path to the other, in the order of their lengths and then of their nodes (`rank`), the one is
before the other (`Queue.lower_iff`). All nodes are taken from the queue if none depends on itself
through others (`Queue.length_of_acyclic`).
-/

namespace Lib

open List Relation

namespace Kahn

variable {α : Type*}

/-- A path to `b` in which each node depends on the one before it. -/
inductive PathTo (r : α → α → Prop) : α → List α → Prop
  | single (b : α) : PathTo r b [b]
  | snoc {a b : α} {w : List α} : PathTo r a w → r a b → PathTo r b (w ++ [b])

variable {r : α → α → Prop} {a b c : α} {w w' : List α}

theorem PathTo.length_pos (h : PathTo r b w) : 0 < w.length := by
  cases h with
  | single => exact Nat.one_pos
  | snoc _ _ =>
    rw [length_append]
    exact Nat.succ_pos _

/-- The path to a node goes through one that it depends on, if it is more than the node. -/
theorem PathTo.cases_snoc (h : PathTo r b w) :
    w = [b] ∨ ∃ a u, r a b ∧ PathTo r a u ∧ w = u ++ [b] := by
  cases h with
  | single => exact .inl rfl
  | snoc hu hr => exact .inr ⟨_, _, hr, hu, rfl⟩

variable [LinearOrder α]

/-- Paths are ordered by their length, and then by their nodes. -/
def rank (w : List α) : ℕ ×ₗ List α := toLex (w.length, w)

/-- Every path to `a` is before some path to `b`. -/
def Lower (r : α → α → Prop) (a b : α) : Prop :=
  ∀ w, PathTo r a w → ∃ w', PathTo r b w' ∧ rank w < rank w'

/-- The queue, of which the nodes in `done` are taken. -/
structure Queue (r : α → α → Prop) (nodes done pending : List α) : Prop where
  nodup : (done ++ pending).Nodup
  mem_iff : ∀ b, b ∈ done ++ pending ↔ b ∈ nodes ∧ ∀ d, r d b → d ∈ done
  lower : (done ++ pending).Pairwise (Lower r)
  exists_last : ∀ b ∈ done ++ pending, ∃ m, PathTo r b m ∧ ∀ w, PathTo r b w → rank w ≤ rank m

variable {nodes done pending rest l : List α}

/-! ## Paths -/

theorem rank_lt_rank : rank w < rank w' ↔ w.length < w'.length ∨ w.length = w'.length ∧ w < w' :=
  Prod.Lex.toLex_lt_toLex

theorem append_lt_append (hlen : w.length = w'.length) (h : w < w') (u u' : List α) :
    w ++ u < w' ++ u' := by
  induction w generalizing w' with
  | nil =>
    rw [eq_nil_of_length_eq_zero hlen.symm] at h
    exact absurd h (lt_irrefl _)
  | cons a w ih =>
    obtain ⟨b, w', rfl⟩ := exists_cons_of_length_eq_add_one hlen.symm
    rw [cons_lt_cons_iff] at h
    rw [cons_append, cons_append, cons_lt_cons_iff]
    rcases h with hlt | ⟨rfl, hlt⟩
    · exact .inl hlt
    · exact .inr ⟨rfl, ih (Nat.succ.inj hlen) hlt⟩

theorem rank_snoc_lt (h : rank w < rank w') : rank (w ++ [a]) < rank (w' ++ [b]) := by
  rw [rank_lt_rank] at h ⊢
  rw [length_append, length_append]
  rcases h with hlt | ⟨heq, hlt⟩
  · exact .inl (Nat.add_lt_add_right hlt 1)
  · exact .inr ⟨congrArg (· + 1) heq, append_lt_append heq hlt _ _⟩

theorem rank_snoc_lt_snoc (h : a < b) : rank (w ++ [a]) < rank (w ++ [b]) := by
  have hlt : [a] < [b] := cons_lt_cons_iff.2 (.inl h)
  rw [rank_lt_rank, length_append, length_append]
  exact .inr ⟨rfl, append_left_lt hlt⟩

/-- A node that depends on another one has a path through it. -/
theorem PathTo.rank_single_lt (h : PathTo r a w) : rank [c] < rank (w ++ [b]) := by
  refine rank_lt_rank.2 (.inl ?_)
  rw [length_append]
  exact Nat.add_lt_add_right h.length_pos 1

/-- A node is put before those that depend on it. -/
theorem lower_of_rel (h : r a b) : Lower r a b := by
  intro w hw
  refine ⟨w ++ [b], .snoc hw h, rank_lt_rank.2 (.inl ?_)⟩
  rw [length_append]
  exact Nat.lt_succ_self _

/-- A node is put before one that depends on `c` if all that it depends on is, or is `c` itself
    and the node is the smaller one. -/
theorem Lower.snoc (hlow : ∀ d, r d a → Lower r d c ∨ d = c ∧ a < b) (hc : r c b) :
    Lower r a b := by
  intro w hw
  rcases hw.cases_snoc with rfl | ⟨d, u, hd, hu, rfl⟩
  · have hone : PathTo r c [c] := .single c
    exact ⟨[c] ++ [b], hone.snoc hc, hone.rank_single_lt⟩
  · rcases hlow d hd with hlow | ⟨rfl, hab⟩
    · obtain ⟨u', hu', hlt⟩ := hlow u hu
      exact ⟨u' ++ [b], hu'.snoc hc, rank_snoc_lt hlt⟩
    · exact ⟨u ++ [b], hu.snoc hc, rank_snoc_lt_snoc hab⟩

/-- The last path to a node goes through the last node it depends on. -/
theorem exists_last_snoc (hlow : ∀ d, r d b → Lower r d c ∨ d = c) (hc : r c b)
    (hlast : ∃ m, PathTo r c m ∧ ∀ w, PathTo r c w → rank w ≤ rank m) :
    ∃ m, PathTo r b m ∧ ∀ w, PathTo r b w → rank w ≤ rank m := by
  obtain ⟨m, hm, hle⟩ := hlast
  refine ⟨m ++ [b], hm.snoc hc, ?_⟩
  intro w hw
  rcases hw.cases_snoc with rfl | ⟨d, u, hd, hu, rfl⟩
  · exact hm.rank_single_lt.le
  · have hu' : rank u ≤ rank m := by
      rcases hlow d hd with hlow | rfl
      · obtain ⟨u', hu', hlt⟩ := hlow u hu
        exact hlt.le.trans (hle u' hu')
      · exact hle u hu
    rcases hu'.lt_or_eq with hlt | heq
    · exact (rank_snoc_lt hlt).le
    · rw [(Prod.mk.inj (toLex.injective heq)).2]

/-! ## The queue -/

/-- The queue starts with the nodes that depend on nothing. -/
theorem Queue.init (hl : l.Pairwise (· < ·)) (hmem : ∀ b, b ∈ l ↔ b ∈ nodes ∧ ∀ d, ¬r d b) :
    Queue r nodes [] l where
  nodup := hl.imp ne_of_lt
  mem_iff b := by
    rw [nil_append, hmem]
    exact and_congr_right fun _ => forall_congr' fun d => by simp
  lower := by
    refine hl.imp_of_mem ?_
    intro a b ha hb hlt w hw
    rcases hw.cases_snoc with rfl | ⟨d, u, hd, -, -⟩
    · exact ⟨[b], .single b, rank_snoc_lt_snoc (w := []) hlt⟩
    · exact absurd hd (((hmem a).1 ha).2 d)
  exists_last b hb := by
    refine ⟨[b], .single b, ?_⟩
    intro w hw
    rcases hw.cases_snoc with rfl | ⟨d, u, hd, -, -⟩
    · exact le_rfl
    · exact absurd hd (((hmem b).1 hb).2 d)

/-- A node is taken, and those are put at the end that now have all they depend on. -/
theorem Queue.step (h : Queue r nodes done (c :: rest)) (hl : l.Pairwise (· < ·))
    (hmem : ∀ b, b ∈ l ↔ b ∈ nodes ∧ r c b ∧ ∀ d, r d b → d ∈ done ∨ d = c) :
    Queue r nodes (done ++ [c]) (rest ++ l) := by
  have heq : done ++ [c] ++ (rest ++ l) = done ++ c :: rest ++ l := by
    rw [append_assoc, append_assoc, singleton_append, cons_append]
  -- The nodes before the one that is taken, and so all that a node in the queue depends on.
  have hbefore : ∀ d ∈ done, Lower r d c := by
    intro d hd
    exact (pairwise_append.1 h.lower).2.2 d hd c mem_cons_self
  have hdeps : ∀ b ∈ l, ∀ d, r d b → Lower r d c ∨ d = c := by
    intro b hb d hd
    exact (((hmem b).1 hb).2.2 d hd).imp_left (hbefore d)
  have hnew : ∀ b ∈ l, r c b := fun b hb => ((hmem b).1 hb).2.1
  have hc : c ∉ done := by
    intro hc
    exact (nodup_append.1 h.nodup).2.2 c hc c mem_cons_self rfl
  constructor
  · rw [heq]
    refine nodup_append.2 ⟨h.nodup, hl.imp ne_of_lt, ?_⟩
    rintro b hb _ hb' rfl
    exact hc (((h.mem_iff b).1 hb).2 c (hnew b hb'))
  · intro b
    rw [heq, mem_append, h.mem_iff, hmem]
    constructor
    · rintro (⟨hb, hd⟩ | ⟨hb, -, hd⟩)
      · exact ⟨hb, fun d hr => mem_append_left _ (hd d hr)⟩
      · refine ⟨hb, fun d hr => ?_⟩
        rw [mem_append, mem_singleton]
        exact hd d hr
    · rintro ⟨hb, hd⟩
      simp only [mem_append, mem_singleton] at hd
      by_cases hr : r c b
      · exact .inr ⟨hb, hr, hd⟩
      · refine .inl ⟨hb, fun d hd' => (hd d hd').resolve_right ?_⟩
        rintro rfl
        exact hr hd'
  · rw [heq]
    refine pairwise_append.2 ⟨h.lower, ?_, ?_⟩
    · refine hl.imp_of_mem ?_
      intro a b ha hb hlt
      exact Lower.snoc (fun d hd => (hdeps a ha d hd).imp_right (⟨·, hlt⟩)) (hnew b hb)
    · intro a ha b hb
      exact Lower.snoc (fun d hd => .inl (hbefore d (((h.mem_iff a).1 ha).2 d hd))) (hnew b hb)
  · intro b hb
    rw [heq, mem_append] at hb
    rcases hb with hb | hb
    · exact h.exists_last b hb
    · refine exists_last_snoc (hdeps b hb) (hnew b hb) (h.exists_last c ?_)
      exact mem_append_right _ mem_cons_self

section

variable (h : Queue r nodes done pending)
include h

/-- The queue has each node at most once. -/
theorem Queue.subperm : (done ++ pending).Subperm nodes :=
  subperm_of_subset h.nodup fun b hb => ((h.mem_iff b).1 hb).1

/-- Two nodes cannot both be put before the other one. -/
theorem Queue.not_lower (ha : a ∈ done ++ pending)
    (hb : b ∈ done ++ pending) (hab : Lower r a b) : ¬Lower r b a := by
  intro hba
  obtain ⟨m, hm, hle⟩ := h.exists_last a ha
  obtain ⟨m', hm', hle'⟩ := h.exists_last b hb
  obtain ⟨w', hw', hlt'⟩ := hab m hm
  obtain ⟨w, hw, hlt⟩ := hba m' hm'
  exact absurd (hlt'.trans_le (hle' w' hw')) ((hlt.trans_le (hle w hw)).not_gt)

/-- Which of two nodes comes first is said by the paths to them. -/
theorem Queue.lower_iff (ha : a ∈ done ++ pending) (hb : b ∈ done ++ pending) :
    Lower r a b ↔ (done ++ pending).idxOf a < (done ++ pending).idxOf b := by
  have hbefore : ∀ {a b}, b ∈ done ++ pending →
      (done ++ pending).idxOf a < (done ++ pending).idxOf b → Lower r a b := by
    intro a b hb hlt
    have hb' := idxOf_lt_length_of_mem hb
    have hl := pairwise_iff_getElem.1 h.lower _ _ (hlt.trans hb') hb' hlt
    rwa [getElem_idxOf, getElem_idxOf] at hl
  refine ⟨?_, hbefore hb⟩
  intro hab
  rcases lt_trichotomy ((done ++ pending).idxOf a) ((done ++ pending).idxOf b) with hlt | heq | hlt
  · exact hlt
  · rw [idxOf_inj ha] at heq
    rw [heq] at hab
    exact absurd hab (h.not_lower hb hb hab)
  · exact absurd (hbefore ha hlt) (h.not_lower ha hb hab)

end

/-! ## The end of the queue -/

variable (h : Queue r nodes done [])
include h

/-- A queue that all nodes were taken from had each one once. -/
theorem Queue.perm (hlen : done.length = nodes.length) : done.Perm nodes := by
  have hsub := h.subperm
  rw [append_nil] at hsub
  exact hsub.perm_of_length_le hlen.ge

theorem Queue.lower_iff_of_length (hlen : done.length = nodes.length) (ha : a ∈ nodes)
    (hb : b ∈ nodes) : Lower r a b ↔ done.idxOf a < done.idxOf b := by
  have hl := h.lower_iff (a := a) (b := b)
  rw [append_nil, (h.perm hlen).mem_iff, (h.perm hlen).mem_iff] at hl
  exact hl ha hb

/-- Without a cycle, all nodes are taken from the queue. -/
theorem Queue.length_of_acyclic (hn : nodes.Nodup) (hr : ∀ d b, r d b → d ∈ nodes)
    (hacyc : ∀ a, ¬TransGen r a a) : done.length = nodes.length := by
  have : IsStrictOrder α (TransGen r) := { irrefl := hacyc, trans := fun _ _ _ => .trans }
  have hall : nodes ⊆ done := by
    intro b hb
    refine (finite_toSet nodes).wellFoundedOn.induction (r := TransGen r) hb ?_
    intro b hb ih
    have hmem := (h.mem_iff b).2 ⟨hb, fun d hd => ih d (hr d b hd) (.single hd)⟩
    rwa [append_nil] at hmem
  have hsub := h.subperm
  rw [append_nil] at hsub
  exact hsub.length_le.antisymm (subperm_of_subset hn hall).length_le

end Kahn

end Lib

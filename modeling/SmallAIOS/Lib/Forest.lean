import Mathlib.Logic.Relation
import Mathlib.Order.Basic

/-!
# Forests

A relation between parents and children is a *forest* if every node has at most
one parent, which comes before it in some order. The subtrees of two children
of one node are then disjoint (`Forest.siblings_disjoint`).
-/

namespace Lib

open Relation

variable {α : Type*} [PartialOrder α]

/-- Every node has at most one parent, which comes before it. -/
structure Forest (E : α → α → Prop) : Prop where
  lt : ∀ {p d}, E p d → p < d
  parent_unique : ∀ {p q d}, E p d → E q d → p = q

namespace Forest

variable {E : α → α → Prop} {a b c d x : α}

theorem le (hE : Forest E) (h : ReflTransGen E a b) : a ≤ b := by
  induction h with
  | refl => exact le_rfl
  | tail _ h ih => exact ih.trans (hE.lt h).le

/-- A path to a node other than its start passes through the parent of the node. -/
theorem path_to_parent (hE : Forest E) (h : ReflTransGen E a d) (hne : a ≠ d) (hcd : E c d) :
    ReflTransGen E a c := by
  rcases ReflTransGen.cases_tail h with rfl | ⟨b, hab, hbd⟩
  · exact absurd rfl hne
  · rwa [hE.parent_unique hcd hbd]

/-- Two children of a node have no descendant in common. -/
theorem siblings_disjoint (hE : Forest E) (ha : E c a) (hb : E c b) (hax : ReflTransGen E a x)
    (hbx : ReflTransGen E b x) : a = b := by
  -- Of two ancestors of a node, one is an ancestor of the other; a child of `c`
  -- that has another one above it would have `c` below that one.
  have above {a b : α} (ha : E c a) (hb : E c b) (h : ReflTransGen E a b) : a = b := by
    by_contra hne
    exact (hE.le (hE.path_to_parent h hne hb)).not_gt (hE.lt ha)
  induction hax with
  | refl => exact (above hb ha hbx).symm
  | @tail y z hay hyz ih =>
    by_cases hbz : b = z
    · exact above ha hb (hbz ▸ hay.tail hyz)
    · exact ih (hE.path_to_parent hbx hbz hyz)

end Forest

end Lib

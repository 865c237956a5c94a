import SmallAIOS.Lib.Forest
import SmallAIOS.Security.Delegation

/-!
# Revocation

The cascade of `revoke` visits the capabilities it collects, and no others:
the live capabilities whose parent is visited, up to `maxChildren` for each
parent. Since the collected children form a forest, one call of the cascade
does not disturb the subtree of the next, and what is left of the registry is
exactly what is not visited (`revokeAux_pruned`).
-/

namespace SmallAIOS.Security.CapRegistry

open Lib Relation List CapRegistry

variable {s s' u v : CapRegistry} {a : Call} {r : Ret} {c d e x fuel : ℕ} {R R' : Set ℕ}
  {l : List ℕ}

/-- The live capability `d` names `p` as its parent. -/
def HasChild (s : CapRegistry) (p d : ℕ) : Prop := ∃ cap ∈ s.live, cap.parent = p ∧ cap.id = d

/-- The cascade collects `d` when it revokes `p`. -/
def Collects (s : CapRegistry) (p d : ℕ) : Prop := d ∈ s.children p

/-- The cascade that starts with `c` comes to `d`. -/
abbrev Visits (s : CapRegistry) : ℕ → ℕ → Prop := ReflTransGen s.Collects

theorem Collects.hasChild (h : s.Collects c d) : s.HasChild c d := by
  obtain ⟨cap, hcap, rfl⟩ := mem_map.1 h
  obtain ⟨hm, hp⟩ := mem_filter.1 (mem_of_mem_take hcap)
  exact ⟨cap, hm, by simpa using hp, rfl⟩

theorem WellFormed.forest (hw : s.WellFormed) : Forest s.HasChild where
  lt := by
    rintro p d ⟨cap, hm, rfl, rfl⟩
    exact hw.parent_lt cap hm
  parent_unique := by
    rintro p q d ⟨cap, hm, rfl, rfl⟩ ⟨cap', hm', rfl, hid⟩
    rw [inj_on_of_nodup_map hw.nodup hm' hm hid]

theorem WellFormed.forest_collects (hw : s.WellFormed) : Forest s.Collects where
  lt h := hw.forest.lt h.hasChild
  parent_unique h h' := hw.forest.parent_unique h.hasChild h'.hasChild

/-! ## Pruning -/

open Classical in
/-- The registry `u` is `s` without the capabilities in `R`, which are marked. -/
structure Pruned (s : CapRegistry) (R : Set ℕ) (u : CapRegistry) : Prop where
  live_eq : u.live = s.live.filter fun cap => cap.id ∉ R
  isRevoked_iff : ∀ x, u.isRevoked x ↔
    s.isRevoked x ∨ ∃ e ∈ R, e % revokedBitmapSize = x % revokedBitmapSize

theorem Pruned.mem_live (h : s.Pruned R u) {cap : Capability} :
    cap ∈ u.live ↔ cap ∈ s.live ∧ cap.id ∉ R := by
  simp [h.live_eq]

theorem Pruned.trans (h : s.Pruned R u) (h' : u.Pruned R' v) : s.Pruned (R ∪ R') v where
  live_eq := by
    rw [h'.live_eq, h.live_eq, filter_filter]
    refine filter_congr fun cap _ => ?_
    rw [Bool.eq_iff_iff]
    simp [and_comm]
  isRevoked_iff x := by
    rw [h'.isRevoked_iff, h.isRevoked_iff]
    simp only [Set.mem_union, or_and_right, exists_or, or_assoc]

theorem isRevoked_markRevoked (s : CapRegistry) (c x : ℕ) : (s.markRevoked c).isRevoked x ↔
    s.isRevoked x ∨ c % revokedBitmapSize = x % revokedBitmapSize := by
  have hlt : c % revokedBitmapSize < 64 * revokedBitmapWords := Nat.mod_lt _ (by decide)
  rw [isRevoked, markRevoked, Bitmap.mem_insert _ hlt, Bool.or_eq_true, decide_eq_true_iff,
    or_comm, @eq_comm ℕ, isRevoked]

theorem WellFormed.pruned_remove (hw : s.WellFormed) (c : ℕ) : s.Pruned {c} (s.remove c) where
  live_eq := by
    rw [live_remove, eraseP_eq_filter_of_nodup hw.nodup]
    refine filter_congr fun cap _ => ?_
    rw [Bool.eq_iff_iff]
    simp
  isRevoked_iff x := by
    rw [show (s.remove c).isRevoked x = (s.markRevoked c).isRevoked x from rfl,
      isRevoked_markRevoked]
    simp

/-- A node none of whose children is pruned has the children it had. -/
theorem Pruned.children_eq (h : s.Pruned R u) (hR : ∀ x, s.HasChild e x → x ∉ R) :
    u.children e = s.children e := by
  rw [children, h.live_eq, filter_filter]
  congr 2
  refine filter_congr fun cap hm => ?_
  by_cases hp : cap.parent = e
  · simpa [hp] using hR cap.id ⟨cap, hm, hp, rfl⟩
  · simp [hp]

/-- Where nothing below `d` is pruned, the cascade that starts with `d` visits what it did. -/
theorem Pruned.visits_iff (h : s.Pruned R u)
    (hR : ∀ e x, s.Visits d e → s.HasChild e x → x ∉ R) : u.Visits d x ↔ s.Visits d x := by
  constructor
  · intro hv
    induction hv with
    | refl => exact .refl
    | tail _ hx ih => exact ih.tail (by rwa [Collects, h.children_eq (hR _ · ih)] at hx)
  · intro hv
    induction hv with
    | refl => exact .refl
    | tail he hx ih => exact ih.tail (by rwa [Collects, h.children_eq (hR _ · he)])

theorem WellFormed.nodup_children (hw : s.WellFormed) (c : ℕ) : (s.children c).Nodup :=
  hw.nodup.sublist (((take_sublist ..).trans filter_sublist).map _)

theorem WellFormed.revokeAux (hw : s.WellFormed) (fuel c : ℕ) : (revokeAux fuel s c).WellFormed :=
  hw.of_sublist (revokeAux_sublist ..).1 (revokeAux_sublist ..).2

/-- The capabilities visited by way of the children `l` of `c`, and `c`. -/
def visitedBy (s : CapRegistry) (c : ℕ) (l : List ℕ) : Set ℕ := {x | x = c ∨ ∃ d ∈ l, s.Visits d x}

theorem visitedBy_children : s.visitedBy c (s.children c) = {x | s.Visits c x} := by
  ext x
  change _ ↔ ReflTransGen s.Collects c x
  rw [ReflTransGen.cases_head_iff, eq_comm]
  rfl

theorem visitedBy_append (l : List ℕ) :
    s.visitedBy c (l ++ [d]) = s.visitedBy c l ∪ {x | s.Visits d x} := by
  ext x
  simp [visitedBy, or_assoc]

section

variable (hw : s.WellFormed)
include hw

/-- What is visited by way of other children of `c` is not below `d`. -/
theorem WellFormed.not_mem_visitedBy (hl : l ⊆ s.children c) (hd : d ∈ s.children c) (hdl : d ∉ l)
    (hv : s.Visits d x) : x ∉ s.visitedBy c l := by
  have hE := hw.forest_collects
  rintro (rfl | ⟨d', hd', hv'⟩)
  · exact (hE.le hv).not_gt (hE.lt hd)
  · exact hdl (hE.siblings_disjoint hd (hl hd') hv hv' ▸ hd')

/-- A child of a node below `d` is not visited by way of other children of `c`: its parent would be.
    -/
theorem WellFormed.hasChild_not_mem_visitedBy (hl : l ⊆ s.children c) (hd : d ∈ s.children c)
    (hdl : d ∉ l) (hv : s.Visits d e) (hx : s.HasChild e x) : x ∉ s.visitedBy c l := by
  have hE := hw.forest_collects
  rintro (rfl | ⟨d', hd', hv'⟩)
  · exact ((hE.lt hd).trans_le (hE.le hv)).not_gt (hw.forest.lt hx)
  · rcases ReflTransGen.cases_tail hv' with rfl | ⟨y, hy, hyx⟩
    · have hce : c = e := hw.forest.parent_unique (Collects.hasChild (hl hd')) hx
      exact (hE.lt hd).not_ge (hce ▸ hE.le hv)
    · obtain rfl := hw.forest.parent_unique hx hyx.hasChild
      exact hw.not_mem_visitedBy hl hd hdl hv (.inr ⟨d', hd', hy⟩)

/-- The calls on the children `l`, after those on `done`, if the calls do what they should on
    smaller registries. -/
theorem foldl_revokeAux_pruned (hc : ∃ cap ∈ s.live, cap.id = c) (hf : s.live.length ≤ fuel + 1)
    (ih : ∀ {s : CapRegistry} {c : ℕ}, s.WellFormed → s.live.length ≤ fuel →
      (∃ cap ∈ s.live, cap.id = c) → s.Pruned {x | s.Visits c x} (revokeAux fuel s c))
    {done l : List ℕ} (hl : done ++ l = s.children c) (hu : u.WellFormed)
    (hp : s.Pruned (s.visitedBy c done) u) :
    s.Pruned {x | s.Visits c x} (l.foldl (revokeAux fuel) u) := by
  induction l generalizing done u with
  | nil =>
    rw [append_nil] at hl
    rwa [hl, visitedBy_children] at hp
  | cons d l ihl =>
    have hd : d ∈ s.children c := by simp [← hl]
    have hdone : done ⊆ s.children c := by simp [← hl]
    have hnd : d ∉ done := by
      have := hw.nodup_children c
      rw [← hl, nodup_append'] at this
      exact fun h => this.2.2 h mem_cons_self
    -- The subtree of `d` is untouched so far.
    have hv (x : ℕ) : u.Visits d x ↔ s.Visits d x :=
      hp.visits_iff fun e x => hw.hasChild_not_mem_visitedBy hdone hd hnd
    have hlen : u.live.length ≤ fuel := by
      obtain ⟨cap, hm, rfl⟩ := hc
      have : u.live.length < s.live.length := by
        rw [hp.live_eq]
        exact length_filter_lt_length_iff_exists.2 ⟨cap, hm, by simp [visitedBy]⟩
      omega
    have hlive : ∃ cap ∈ u.live, cap.id = d := by
      obtain ⟨cap, hm, -, rfl⟩ := Collects.hasChild hd
      exact ⟨cap, hp.mem_live.2 ⟨hm, hw.not_mem_visitedBy hdone hd hnd .refl⟩, rfl⟩
    have hl' : (done ++ [d]) ++ l = s.children c := by simpa using hl
    refine ihl hl' (hu.revokeAux fuel d) ?_
    have := hp.trans (ih hu hlen hlive)
    simpa only [hv, visitedBy_append] using this

/-- The recursion of `revoke` removes exactly what it visits. -/
theorem revokeAux_pruned (hf : s.live.length ≤ fuel) (hc : ∃ cap ∈ s.live, cap.id = c) :
    s.Pruned {x | s.Visits c x} (revokeAux fuel s c) := by
  induction fuel generalizing s c with
  | zero =>
    obtain ⟨cap, hm, -⟩ := hc
    exact absurd (length_pos_of_mem hm) (by omega)
  | succ fuel ih =>
    have hp := hw.pruned_remove c
    have hch : (s.remove c).children c = s.children c := by
      refine hp.children_eq fun x hx hxc => ?_
      exact (hw.forest.lt hx).ne (Set.mem_singleton_iff.1 hxc).symm
    have hsome : (s.find c).isNone = false := by
      obtain ⟨cap, hm, rfl⟩ := hc
      rw [hw.find_of_mem hm, Option.isNone_some]
    rw [revokeAux, if_neg (by simp [hsome]), hch]
    refine foldl_revokeAux_pruned hw hc hf ih (nil_append _) ?_ ?_
    · exact hw.of_sublist (by rw [live_remove]; exact eraseP_sublist) rfl
    · convert hp
      simp [visitedBy]

end

/-! ## The recursion of `revoke` -/

theorem length_live_remove_lt (h : ¬ (s.find c).isNone = true) :
    (s.remove c).live.length < s.live.length := by
  rw [Option.isNone_iff_eq_none] at h
  obtain ⟨cap, hcap⟩ := Option.ne_none_iff_exists'.1 h
  obtain ⟨hm, hid⟩ := find_eq_some hcap
  have hlen := length_eraseP_add_one (p := (·.id == c)) hm (by simpa using hid)
  rw [live_remove]
  omega

/-- Every level of the recursion removes a capability: a depth of the number of capabilities is
    enough. -/
theorem revokeAux_succ (h : s.live.length ≤ fuel) :
    revokeAux (fuel + 1) s c = revokeAux fuel s c := by
  induction fuel generalizing s c with
  | zero =>
    rw [revokeAux, revokeAux, find, length_eq_zero_iff.1 (Nat.le_zero.1 h)]
    rfl
  | succ fuel ih =>
    rw [revokeAux, revokeAux]
    split
    · rfl
    · next hc =>
      have hlt := length_live_remove_lt hc
      refine (foldl_rel (r := fun u v => u = v ∧ u.live.length ≤ fuel) ⟨rfl, by omega⟩ ?_).1
      rintro d - u _ ⟨rfl, hu⟩
      rw [ih hu]
      exact ⟨rfl, (revokeAux_sublist fuel u d).1.length_le.trans hu⟩

/-- `revoke` calls itself on the children it collected, ignoring the result. -/
theorem revoke_eq (h : ¬ (s.find c).isNone = true) :
    s.revoke c = (.ok (), ((s.remove c).children c).foldl (fun u d => (u.revoke d).2)
      (s.remove c)) := by
  have hstep (u : CapRegistry) (d : ℕ) : (u.revoke d).2 = revokeAux maxTotalCaps u d := by
    rw [revoke]
    split
    · next hd => rw [maxTotalCaps, revokeAux, if_pos hd]
    · rfl
  rw [revoke, if_neg h, ← revokeAux_succ s.caps.length_entries_le, revokeAux, if_neg h]
  simp only [hstep]

end SmallAIOS.Security.CapRegistry

import SmallAIOS.Security.Revocation

/-!
# The registry and its history

The calls of a run say which identifiers were issued (`Issued`), what they were
granted for (`granted`), and from which one each was delegated (`Delegated`).
The registry reached keeps part of it (`Recorded`): a live capability is as it
was granted, and the bits set in the bitmap are those of the identifiers issued
that are no longer live.

* Revoking a capability clears all that was derived from it if, and only if,
  no more than `maxChildren` live capabilities have one parent below it, and
  none derived from it was cut off by an earlier revocation
  (`revoke_clears_iff`).
* A capability of which neither itself nor an ancestor was revoked can be
  looked up as long as no identifier congruent to its own modulo
  `revokedBitmapSize` was removed, and no longer (`lookup_of_unrevoked`).
-/

namespace SmallAIOS.Security

open Lib Relation List ReflTransGen

/-! ## Histories -/

/-- A call of the run issued the identifier `c`. -/
def Issued (t : List (Call × Ret)) (c : ℕ) : Prop := ∃ a, (a, Ret.id (.ok c)) ∈ t

/-- The identifier `d` was issued for a delegation of `p`. -/
def Delegated (t : List (Call × Ret)) (p d : ℕ) : Prop :=
  ∃ o ps e now, (Call.delegate p o ps e now, Ret.id (.ok d)) ∈ t

/-- The identifier `d` was derived from `c` by a chain of delegations. -/
abbrev Derived (t : List (Call × Ret)) : ℕ → ℕ → Prop := TransGen (Delegated t)

/-- A call of the run revoked `c`. -/
def Revoked (t : List (Call × Ret)) (c : ℕ) : Prop := (Call.revoke c, Ret.unit (.ok ())) ∈ t

/-- Neither `c` nor any capability it was derived from was revoked. -/
def Unrevoked (t : List (Call × Ret)) (c : ℕ) : Prop :=
  ∀ p, ReflTransGen (Delegated t) p c → ¬ Revoked t p

/-- The capability a call grants with the identifier `c`, given the capabilities granted before. -/
def grantOf (before : ℕ → Option Capability) : Call → ℕ → Option Capability
  | .create o r p e, c => some ⟨c, r, p, e, o, 0⟩
  | .delegate p o ps e _, c =>
    (before p).map fun par => ⟨c, par.resource, ps, effectiveExpires par.expires e, o, p⟩
  | .revoke _, _ => none

/-- The capability granted with the identifier `c`. -/
def granted : List (Call × Ret) → ℕ → Option Capability
  | [], _ => none
  | (a, .id (.ok d)) :: t, c => if d = c then grantOf (granted t) a c else granted t c
  | (_, .id (.error _)) :: t, c => granted t c
  | (_, .unit _) :: t, c => granted t c

section Histories

variable {t : List (Call × Ret)} {a : Call} {r : Ret} {c d p n : ℕ}

@[simp] theorem issued_cons : Issued ((a, r) :: t) c ↔ r = .id (.ok c) ∨ Issued t c := by
  simp [Issued, exists_or, eq_comm]

@[simp] theorem delegated_cons : Delegated ((a, r) :: t) p d ↔
    (r = .id (.ok d) ∧ ∃ o ps e now, a = .delegate p o ps e now) ∨ Delegated t p d := by
  simp only [Delegated, mem_cons, Prod.mk.injEq, exists_or]
  refine or_congr_left ⟨?_, ?_⟩
  · rintro ⟨o, ps, e, now, ha, hr⟩
    exact ⟨hr.symm, o, ps, e, now, ha.symm⟩
  · rintro ⟨hr, o, ps, e, now, ha⟩
    exact ⟨o, ps, e, now, ha.symm, hr.symm⟩

theorem Delegated.issued (h : Delegated t p d) : Issued t d := by
  obtain ⟨o, ps, e, now, h⟩ := h
  exact ⟨_, h⟩

theorem Unrevoked.of_cons (h : Unrevoked ((a, r) :: t) c) : Unrevoked t c := by
  refine fun p hp hr => h p (mono (fun x y hxy => ?_) _ _ hp) (mem_cons_of_mem _ hr)
  exact delegated_cons.2 (.inr hxy)

end Histories

namespace CapRegistry

variable {s s' u : CapRegistry} {t : List (Call × Ret)} {a : Call} {r : Ret}
  {c d p x : ℕ} {cap : Capability}

/-- What the registry `s` keeps of the history `t`. -/
structure Recorded (t : List (Call × Ret)) (s : CapRegistry) : Prop where
  lt_nextId : ∀ c, Issued t c → c < s.nextId
  delegated_lt : ∀ p d, Delegated t p d → p < d
  issued : ∀ cap ∈ s.live, Issued t cap.id
  granted : ∀ cap ∈ s.live, granted t cap.id = some cap
  delegated_iff : ∀ cap ∈ s.live, ∀ p, Delegated t p cap.id ↔ cap.parent = p ∧ p ≠ 0
  isRevoked_iff : ∀ x, s.isRevoked x ↔
    ∃ e, Issued t e ∧ s.find e = none ∧ e % revokedBitmapSize = x % revokedBitmapSize
  live_of_unrevoked : ∀ c, Issued t c → Unrevoked t c → ∃ cap ∈ s.live, cap.id = c

theorem recorded_new : Recorded [] new where
  lt_nextId := by simp [Issued]
  delegated_lt := by simp [Delegated]
  issued := by simp [live, new]
  granted := by simp [live, new]
  delegated_iff := by simp [live, new]
  isRevoked_iff := by simp [Issued, isRevoked, new]
  live_of_unrevoked := by simp [Issued]

/-- A call that issues nothing, after which no other capabilities are live. -/
theorem Recorded.silent (h : Recorded t s) (hr : ∀ c, r ≠ .id (.ok c)) (hn : s'.nextId = s.nextId)
    (hlive : ∀ c ∈ s'.live, c ∈ s.live)
    (hrev : ∀ x, s'.isRevoked x ↔
      ∃ e, Issued t e ∧ s'.find e = none ∧ e % revokedBitmapSize = x % revokedBitmapSize)
    (hu : ∀ c, Issued t c → Unrevoked ((a, r) :: t) c → ∃ cap ∈ s'.live, cap.id = c) :
    Recorded ((a, r) :: t) s' := by
  have hi (c : ℕ) : Issued ((a, r) :: t) c ↔ Issued t c := by simp [hr]
  have hd (p d : ℕ) : Delegated ((a, r) :: t) p d ↔ Delegated t p d := by simp [hr]
  have hg (c : ℕ) : Security.granted ((a, r) :: t) c = Security.granted t c := by
    cases r with
    | id x =>
      cases x with
      | error e => rfl
      | ok c => exact absurd rfl (hr c)
    | unit x => rfl
  refine ⟨?_, ?_, ?_, ?_, ?_, by simpa only [hi] using hrev, by simpa only [hi] using hu⟩
  · simpa only [hi, hn] using h.lt_nextId
  · simpa only [hd] using h.delegated_lt
  · simpa only [hi] using fun c hc => h.issued c (hlive c hc)
  · simpa only [hg] using fun c hc => h.granted c (hlive c hc)
  · simpa only [hd] using fun c hc => h.delegated_iff c (hlive c hc)

/-- A grant is a delegation of its parent, if it has one. -/
theorem WellFormed.grant_delegated_iff (hw : s.WellFormed) (hg : s.Grant a cap) :
    (∃ o ps e now, a = .delegate p o ps e now) ↔ cap.parent = p ∧ p ≠ 0 := by
  cases hg with
  | root o res ps e =>
    constructor
    · rintro ⟨_, _, _, _, h⟩
      cases h
    · rintro ⟨rfl, h⟩
      exact absurd rfl h
  | @delegation q now par ps o e hf =>
    obtain ⟨hm, rfl⟩ := find_eq_some hf
    constructor
    · rintro ⟨_, _, _, _, h⟩
      cases h
      exact ⟨rfl, (hw.pos _ hm).ne'⟩
    · rintro ⟨rfl, -⟩
      exact ⟨o, ps, e, now, rfl⟩

section

variable (h : Recorded t s)
include h

/-- The identifier of a capability that is put in is new. -/
theorem Recorded.nextId_ne {c : ℕ} (hc : Issued t c) : s.nextId ≠ c :=
  (h.lt_nextId c hc).ne'

section

variable (hi : s.Inserted cap s')
include hi

/-- The capabilities are as they were granted, the new one included. -/
theorem Recorded.granted_inserted (hg : s.Grant a cap) : ∀ c ∈ s'.live,
      Security.granted ((a, .id (.ok s.nextId)) :: t) c.id = some c := by
  intro c hc
  rcases hi.mem_live.1 hc with rfl | hc
  · have hid := hg.id_eq
    rw [Security.granted, if_pos hid.symm]
    cases hg with
    | root => rfl
    | delegation o e hf =>
      obtain ⟨hm, rfl⟩ := find_eq_some hf
      rw [grantOf, h.granted _ hm, Option.map_some]
  · rw [Security.granted, if_neg (h.nextId_ne (h.issued c hc))]
    exact h.granted c hc

/-- The parents are those delegated from, also for the new capability. -/
theorem Recorded.delegated_inserted (hw : s.WellFormed) (hg : s.Grant a cap) : ∀ c ∈ s'.live, ∀ p,
      Delegated ((a, .id (.ok s.nextId)) :: t) p c.id ↔ c.parent = p ∧ p ≠ 0 := by
  intro c hc p
  rw [delegated_cons]
  rcases hi.mem_live.1 hc with rfl | hc
  · have hnew : ¬ Delegated t p c.id := fun hd => h.nextId_ne hd.issued hg.id_eq.symm
    rw [or_iff_left hnew, ← hw.grant_delegated_iff hg]
    simp [hg.id_eq]
  · rw [or_iff_right]
    · exact h.delegated_iff c hc p
    · rintro ⟨hr, -⟩
      simp only [Ret.id.injEq, Except.ok.injEq] at hr
      exact h.nextId_ne (h.issued c hc) hr

/-- No bit is set for the new capability, which is live. -/
theorem Recorded.isRevoked_inserted (hg : s.Grant a cap) : ∀ x, s'.isRevoked x ↔
      ∃ e, Issued ((a, .id (.ok s.nextId)) :: t) e ∧ s'.find e = none ∧
        e % revokedBitmapSize = x % revokedBitmapSize := by
  intro x
  have hfind (e : ℕ) : s'.find e = none ↔ s.nextId ≠ e ∧ s.find e = none := by
    simp only [find_eq_none, hi.mem_live, forall_eq_or_imp, hg.id_eq]
  rw [show s'.isRevoked x = s.isRevoked x by rw [isRevoked, hi.revoked, isRevoked], h.isRevoked_iff]
  refine exists_congr fun e => ?_
  rw [hfind, issued_cons]
  constructor
  · rintro ⟨h1, h2, h3⟩
    exact ⟨.inr h1, ⟨h.nextId_ne h1, h2⟩, h3⟩
  · rintro ⟨h1 | h1, ⟨h2, h3⟩, h4⟩
    · cases h1; exact absurd rfl h2
    · exact ⟨h1, h3, h4⟩

/-- A call that puts in the capability it grants. -/
theorem Recorded.inserted (hw : s.WellFormed) (hg : s.Grant a cap) :
    Recorded ((a, .id (.ok s.nextId)) :: t) s' := by
  refine ⟨?_, ?_, ?_, h.granted_inserted hi hg, h.delegated_inserted hi hw hg,
    h.isRevoked_inserted hi hg, ?_⟩
  · intro c hc
    rw [hi.nextId]
    rcases issued_cons.1 hc with hc | hc
    · cases hc; omega
    · have := h.lt_nextId c hc
      omega
  · intro p d hd
    rcases delegated_cons.1 hd with ⟨hr, hdel⟩ | hd
    · cases hr
      obtain ⟨rfl, -⟩ := (hw.grant_delegated_iff hg).1 hdel
      exact hw.parent_lt_nextId hg
    · exact h.delegated_lt p d hd
  · intro c hc
    rcases hi.mem_live.1 hc with rfl | hc
    · exact issued_cons.2 (.inl (by rw [hg.id_eq]))
    · exact issued_cons.2 (.inr (h.issued c hc))
  · intro c hc hu
    rcases issued_cons.1 hc with hc | hc
    · cases hc
      exact ⟨cap, hi.mem_live.2 (.inl rfl), hg.id_eq⟩
    · obtain ⟨c', hc', h'⟩ := h.live_of_unrevoked c hc hu.of_cons
      exact ⟨c', hi.mem_live.2 (.inr hc'), h'⟩

end

theorem Recorded.derived_lt (hd : Derived t c d) : c < d := by
  induction hd with
  | single hd => exact h.delegated_lt _ _ hd
  | tail _ hd ih => exact ih.trans (h.delegated_lt _ _ hd)

/-- What the cascade visits was derived from where it starts. -/
theorem Recorded.derived_of_hasChild (hw : s.WellFormed) (hc : 0 < c)
    (hv : ReflTransGen s.HasChild c d) : ReflTransGen (Delegated t) c d := by
  induction hv with
  | refl => exact .refl
  | @tail p x hp hx ih =>
    obtain ⟨cap, hm, hpar, rfl⟩ := hx
    have := hw.forest.le hp
    exact ih.tail ((h.delegated_iff cap hm p).2 ⟨hpar, by omega⟩)

end

theorem Visits.hasChild (h : s.Visits c d) : ReflTransGen s.HasChild c d :=
  mono (fun _ _ => Collects.hasChild) _ _ h

/-- What the cascade visits is live, if it starts with a live capability. -/
theorem Visits.mem_live (h : s.Visits c d) (hc : ∃ cap ∈ s.live, cap.id = c) :
    ∃ cap ∈ s.live, cap.id = d := by
  rcases cases_tail h with rfl | ⟨p, -, hp⟩
  · exact hc
  · obtain ⟨cap, hm, -, rfl⟩ := Collects.hasChild hp
    exact ⟨cap, hm, rfl⟩

/-- A call that revokes. -/
theorem Recorded.pruned (h : Recorded t s) (hw : s.WellFormed) (hc : s.find c = some cap)
    (hp : s.Pruned {x | s.Visits c x} s') (hn : s'.nextId = s.nextId) :
    Recorded ((.revoke c, .unit (.ok ())) :: t) s' := by
  obtain ⟨hm, rfl⟩ := find_eq_some hc
  have hlive (c : Capability) (hc : c ∈ s'.live) : c ∈ s.live := (hp.mem_live.1 hc).1
  refine h.silent (by simp) hn hlive (fun x => ?_) fun d hd hu => ?_
  · rw [hp.isRevoked_iff, h.isRevoked_iff]
    constructor
    · rintro (⟨e, he, hf, hx⟩ | ⟨e, he, hx⟩)
      · exact ⟨e, he, find_eq_none.2 fun c hc => find_eq_none.1 hf c (hlive c hc), hx⟩
      · obtain ⟨c, hc, rfl⟩ := Visits.mem_live he ⟨cap, hm, rfl⟩
        refine ⟨c.id, h.issued c hc, find_eq_none.2 fun c' hc' hid => ?_, hx⟩
        exact (hp.mem_live.1 hc').2 (hid ▸ he)
    · rintro ⟨e, he, hf, hx⟩
      by_cases hv : s.Visits cap.id e
      · exact .inr ⟨e, hv, hx⟩
      · refine .inl ⟨e, he, find_eq_none.2 fun c hc hid => ?_, hx⟩
        exact find_eq_none.1 hf c (hp.mem_live.2 ⟨hc, hid ▸ hv⟩) hid
  · obtain ⟨c, hc, rfl⟩ := h.live_of_unrevoked d hd hu.of_cons
    refine ⟨c, hp.mem_live.2 ⟨hc, fun hv => hu cap.id ?_ mem_cons_self⟩, rfl⟩
    -- A capability visited has the one revoked among its ancestors.
    have := h.derived_of_hasChild hw (hw.pos cap hm) (Visits.hasChild hv)
    exact mono (fun p d hpd => delegated_cons.2 (.inr hpd)) _ _ this

theorem revoke_pruned (hw : s.WellFormed) (hc : s.find c = some cap) :
    s.Pruned {x | s.Visits c x} (revokeAux maxTotalCaps s c) :=
  revokeAux_pruned hw s.caps.length_entries_le ⟨cap, find_eq_some hc⟩

theorem Run.recorded (h : Run t s) : Recorded t s := by
  induction h with
  | nil => exact recorded_new
  | cons h hs ih =>
    have hw := Run.wellFormed h
    rcases step_cases hs with ⟨rfl, hr⟩ | ⟨rfl, cap, hg, hi⟩ | ⟨c, cap, rfl, hf, rfl, rfl⟩
    · refine ih.silent (fun c => ?_) rfl (fun _ hc => hc) ih.isRevoked_iff fun c hc hu =>
        ih.live_of_unrevoked c hc hu.of_cons
      rcases hr with ⟨e, rfl⟩ | ⟨e, rfl⟩ <;> simp
    · exact ih.inserted hi hw hg
    · exact ih.pruned hw hf (revoke_pruned hw hf) (revokeAux_sublist ..).2

/-! ## What a revocation clears -/

/-- Nothing that was derived from `c` is left in the registry. -/
def Clears (t : List (Call × Ret)) (c : ℕ) (s : CapRegistry) : Prop :=
  ∀ d, Derived t c d → s.find d = none ∧ ∀ now,
    (∃ e, s.lookup d now = .error e) ∧
    (∀ o ps e, ∃ err, s.delegate d o ps e now = some (.error err, s)) ∧
    ∀ task resource required, s.check task resource required now ≠ .ok d

/-- No capability below `c` has more live children than the cascade collects. -/
def Narrow (s : CapRegistry) (c : ℕ) : Prop :=
  ∀ p, ReflTransGen s.HasChild c p → (s.live.filter (·.parent == p)).length ≤ maxChildren

/-- Every live capability derived from `c` is still below it: the ones between are live too. -/
def Attached (t : List (Call × Ret)) (s : CapRegistry) (c : ℕ) : Prop :=
  ∀ cap ∈ s.live, Derived t c cap.id → TransGen s.HasChild c cap.id

/-- The runs in which every revocation so far was of a narrow capability. -/
abbrev NarrowRun (t : List (Call × Ret)) (s : CapRegistry) : Prop :=
  ReachesBy (fun s a => ∀ c, a = .revoke c → s.Narrow c) step new t s

theorem clears_iff : Clears t c s ↔ ∀ cap ∈ s.live, ¬ Derived t c cap.id := by
  constructor
  · exact fun h cap hm hd => find_eq_none.1 (h cap.id hd).1 cap hm rfl
  · intro h d hd
    have hnone : s.find d = none := find_eq_none.2 fun cap hm hid => h cap hm (hid ▸ hd)
    refine ⟨hnone, fun now => ⟨?_, fun o ps e => ?_, fun task res req hch => ?_⟩⟩
    · rw [lookup, hnone]
      split
      · exact ⟨_, rfl⟩
      · exact ⟨_, rfl⟩
    · rw [delegate, hnone]
      exact ⟨_, rfl⟩
    · rw [check] at hch
      split at hch
      · next cap hcap =>
        cases hch
        exact h cap (mem_of_find?_eq_some hcap) hd
      · cases hch

/-- If all the live children of `p` are collected, they are no more than the cascade collects. -/
theorem WellFormed.length_le_of_collects (hw : s.WellFormed)
    (h : ∀ x, s.HasChild p x → s.Collects p x) :
    (s.live.filter (·.parent == p)).length ≤ maxChildren := by
  have hnd : ((s.live.filter (·.parent == p)).map (·.id)).Nodup :=
    hw.nodup.sublist (filter_sublist.map _)
  have hsub : (s.live.filter (·.parent == p)).map (·.id) ⊆ s.children p := by
    intro x hx
    obtain ⟨cap, hm, rfl⟩ := mem_map.1 hx
    obtain ⟨hm, hp⟩ := mem_filter.1 hm
    exact h cap.id ⟨cap, hm, by simpa using hp, rfl⟩
  have hle := (subperm_of_subset hnd hsub).length_le
  rw [length_map, children, length_map, length_take] at hle
  omega

theorem HasChild.collects (h : s.HasChild p x)
    (hn : (s.live.filter (·.parent == p)).length ≤ maxChildren) : s.Collects p x := by
  obtain ⟨cap, hm, rfl, rfl⟩ := h
  rw [Collects, children, take_of_length_le hn]
  exact mem_map_of_mem (mem_filter.2 ⟨hm, by simp⟩)

/-- Below a narrow capability, the cascade visits everything. -/
theorem Narrow.visits (hn : s.Narrow c) (h : ReflTransGen s.HasChild c d) : s.Visits c d := by
  induction h with
  | refl => exact .refl
  | tail hp hx ih => exact ih.tail (hx.collects (hn _ hp))

theorem Recorded.clears_revoke_iff (h : Recorded t s) (hw : s.WellFormed)
    (hc : s.find c = some cap) :
    Clears t c (revokeAux maxTotalCaps s c) ↔ Attached t s c ∧ s.Narrow c := by
  have hp := revoke_pruned hw hc
  have hpos : 0 < c := by
    obtain ⟨hm, rfl⟩ := find_eq_some hc
    exact hw.pos cap hm
  -- What is left is what is not visited.
  have hleft : Clears t c (revokeAux maxTotalCaps s c) ↔
      ∀ cap ∈ s.live, Derived t c cap.id → s.Visits c cap.id := by
    rw [clears_iff]
    refine forall_congr' fun cap => ?_
    rw [hp.mem_live, and_imp]
    exact imp_congr_right fun _ => not_imp_not
  rw [hleft]
  constructor
  · intro hall
    have hchild {p x : ℕ} (hcp : ReflTransGen s.HasChild c p) (hx : s.HasChild p x) :
        s.Collects p x := by
      obtain ⟨cap, hm, hpar, rfl⟩ := hx
      have hle := hw.forest.le hcp
      have hdel := (h.delegated_iff cap hm p).2 ⟨hpar, by omega⟩
      have hv := hall cap hm (.tail' (h.derived_of_hasChild hw hpos hcp) hdel)
      -- The last capability visited before it is its parent.
      rcases cases_tail hv with heq | ⟨q, -, hq⟩
      · have := hw.parent_lt cap hm
        omega
      · rwa [hw.forest.parent_unique ⟨cap, hm, hpar, rfl⟩ hq.hasChild]
    refine ⟨fun cap hm hd => ?_, fun p hcp => hw.length_le_of_collects fun x => hchild hcp⟩
    have hv := Visits.hasChild (hall cap hm hd)
    rcases reflTransGen_iff_eq_or_transGen.1 hv with heq | htr
    · have := h.derived_lt hd
      omega
    · exact htr
  · exact fun ⟨hatt, hn⟩ cap hm hd => hn.visits (hatt cap hm hd).to_reflTransGen

/-- The parent of every live capability is live, if it has one. -/
def Rooted (s : CapRegistry) : Prop :=
  ∀ cap ∈ s.live, cap.parent ≠ 0 → ∃ par ∈ s.live, par.id = cap.parent

theorem Rooted.inserted (hr : s.Rooted) (hg : s.Grant a cap) (hi : s.Inserted cap s') :
    s'.Rooted := by
  have key (c : Capability) (hc : c ∈ s'.live) (h0 : c.parent ≠ 0) :
      ∃ par ∈ s.live, par.id = c.parent := by
    rcases hi.mem_live.1 hc with rfl | hc
    · rcases hg.parent with h0' | ⟨par, hm, hid, -⟩
      · exact absurd h0' h0
      · exact ⟨par, hm, hid⟩
    · exact hr c hc h0
  intro c hc h0
  obtain ⟨par, hm, hid⟩ := key c hc h0
  exact ⟨par, hi.mem_live.2 (.inr hm), hid⟩

/-- Nothing is cut off by the revocation of a narrow capability: with a parent, its children go too.
    -/
theorem Rooted.pruned (hr : s.Rooted) (hn : s.Narrow c) (hp : s.Pruned {x | s.Visits c x} s') :
    s'.Rooted := by
  intro cap hm h0
  obtain ⟨hm, hv⟩ := hp.mem_live.1 hm
  obtain ⟨par, hpar, hid⟩ := hr cap hm h0
  refine ⟨par, hp.mem_live.2 ⟨hpar, fun hvp => hv ?_⟩, hid⟩
  exact hn.visits ((Visits.hasChild hvp).tail ⟨cap, hm, hid.symm, rfl⟩)

theorem NarrowRun.rooted (h : NarrowRun t s) : s.Rooted := by
  induction h with
  | nil => simp [Rooted, live, new]
  | cons h hok hs ih =>
    have hw := Run.wellFormed h.reaches
    rcases step_cases hs with ⟨rfl, -⟩ | ⟨-, cap, hg, hi⟩ | ⟨c, cap, rfl, hf, -, rfl⟩
    · exact ih
    · exact ih.inserted hg hi
    · exact ih.pruned (hok c rfl) (revoke_pruned hw hf)

theorem Recorded.attached (h : Recorded t s) (hr : s.Rooted) (c : ℕ) : Attached t s c := by
  suffices ∀ d, Derived t c d → ∀ cap ∈ s.live, cap.id = d → TransGen s.HasChild c d from
    fun cap hm hd => this _ hd cap hm rfl
  intro d hd
  induction hd with
  | single hd =>
    rintro cap hm rfl
    exact .single ⟨cap, hm, ((h.delegated_iff cap hm _).1 hd).1, rfl⟩
  | @tail p d _ hd ih =>
    rintro cap hm rfl
    obtain ⟨rfl, h0⟩ := (h.delegated_iff cap hm p).1 hd
    obtain ⟨par, hpar, hid⟩ := hr cap hm h0
    exact (ih par hpar hid).tail ⟨cap, hm, rfl, rfl⟩

/-- Revoking a live capability clears all that was derived from it exactly when it is narrow and all
    of that is still attached to it, which it is if every earlier revocation was of a narrow
    capability. -/
theorem revoke_clears_iff (h : Run t s) (hc : s.find c = some cap) :
    (s.revoke c).1 = .ok () ∧
      (Clears t c (s.revoke c).2 ↔ Attached t s c ∧ s.Narrow c) ∧
      (NarrowRun t s → Attached t s c) := by
  have hrec := Run.recorded h
  rw [revoke_of_find hc]
  exact ⟨rfl, hrec.clears_revoke_iff (Run.wellFormed h) hc, fun hn => hrec.attached hn.rooted c⟩

theorem delegated_fanTrace {n i : ℕ} (hi : i < n) : Delegated (fanTrace n) 1 (i + 2) := by
  induction n with
  | zero => omega
  | succ n ih =>
    rw [fanTrace, delegated_cons]
    by_cases h : i = n
    · exact .inl ⟨h ▸ rfl, 2, .read, 0, 0, rfl⟩
    · exact .inr (ih (by omega))

theorem fan_clears : Run (fanTrace 2) (fan 2 (by decide)) ∧ Derived (fanTrace 2) 1 2 ∧
    Clears (fanTrace 2) 1 ((fan 2 (by decide)).revoke 1).2 := by
  have hrun := fan_run 2 (by decide)
  refine ⟨hrun, .single (delegated_fanTrace (by decide)), ?_⟩
  refine (revoke_clears_iff hrun (find_fan_root ..)).2.1.2 ⟨fun cap hm hd => ?_, fun p _ => ?_⟩
  · rw [live_fan, mem_cons] at hm
    rcases hm with rfl | hm
    · exact absurd ((Run.recorded hrun).derived_lt hd) (lt_irrefl _)
    · refine .single ⟨cap, by rw [live_fan]; exact mem_cons_of_mem _ hm, ?_, rfl⟩
      obtain ⟨i, -, rfl⟩ := mem_map.1 hm
      rfl
  · refine length_filter_le _ _ |>.trans ?_
    rw [live_fan]
    decide

/-- Of 65 delegations of a capability, its revocation leaves the last. -/
theorem revoke_leaves_child : Run (fanTrace 65) (fan 65 (by decide)) ∧
    (fan 65 (by decide)).find 1 = some fanRoot ∧ Derived (fanTrace 65) 1 66 ∧
    ((fan 65 (by decide)).revoke 1).1 = .ok () ∧
    ((fan 65 (by decide)).revoke 1).2.lookup 66 0 =
      .ok ⟨66, ⟨.tensorBuffer, 0⟩, .read, 0, 2, 1⟩ := by
  have hrun := fan_run 65 (by decide)
  have hw := Run.wellFormed hrun
  have hf := find_fan_root 65 (by decide)
  refine ⟨hrun, hf, .single (delegated_fanTrace (by decide)), by rw [revoke_of_find hf], ?_⟩
  rw [revoke_of_find hf]
  have hp := revoke_pruned hw hf
  have hm : (⟨66, ⟨.tensorBuffer, 0⟩, .read, 0, 2, 1⟩ : Capability) ∈
      (fan 65 (by decide)).live := by
    decide
  -- Its parent is the root, whose children collected are those before it.
  have hnv : ¬ (fan 65 (by decide)).Visits 1 66 := by
    intro hv
    rcases cases_tail hv with h | ⟨q, -, hq⟩
    · cases h
    · obtain rfl := hw.forest.parent_unique ⟨_, hm, rfl, rfl⟩ hq.hasChild
      rw [Collects] at hq
      revert hq
      decide
  have hrev : (revokeAux maxTotalCaps (fan 65 (by decide)) 1).isRevoked 66 = false := by
    rw [Bool.eq_false_iff, ne_eq, hp.isRevoked_iff]
    rintro (h | ⟨e, he, hmod⟩)
    · cases h
    · obtain ⟨c, hc, rfl⟩ := Visits.mem_live he ⟨fanRoot, by simp, rfl⟩
      have hlt : c.id < 67 := hw.lt_nextId c hc
      rw [revokedBitmapSize] at hmod
      exact hnv ((show c.id = 66 by omega) ▸ he)
  have hfind := (hw.revokeAux maxTotalCaps 1).find_of_mem (hp.mem_live.2 ⟨hm, hnv⟩)
  rw [lookup, hrev, hfind]
  rfl

/-! ## What other revocations leave -/

/-- Capabilities created and revoked in turn. -/
def churnTrace : ℕ → List (Call × Ret)
  | 0 => []
  | n + 1 => (.revoke (n + 1), .unit (.ok ())) ::
    (.create 1 ⟨.tensorBuffer, 0⟩ .read 0, .id (.ok (n + 1))) :: churnTrace n

theorem exists_create (s : CapRegistry) (hlive : s.live = []) (hid : s.nextId + 1 < 2 ^ 64) :
    ∃ s', s.step (.create 1 ⟨.tensorBuffer, 0⟩ .read 0) = some (.id (.ok s.nextId), s') ∧
      s'.live = [⟨s.nextId, ⟨.tensorBuffer, 0⟩, .read, 0, 1, 0⟩] ∧ s'.nextId = s.nextId + 1 ∧
      s'.revoked = s.revoked := by
  cases hf : s.caps.fill? ⟨s.nextId, ⟨.tensorBuffer, 0⟩, .read, 0, 1, 0⟩ with
  | none =>
    have := Slots.fill?_eq_none.1 hf
    rw [← live, hlive] at this
    cases this
  | some caps =>
    refine ⟨{ s with caps, nextId := s.nextId + 1 }, ?_, ?_, rfl, rfl⟩
    · rw [step, create, insert_of_fill? (by simp [hlive, maxCapsPerTask]) hid hf]
      rfl
    · have := Slots.entries_fill? hf
      rw [← live, hlive] at this
      exact perm_singleton.1 this

/-- They leave the registry empty, and their bits set. -/
theorem churn_run (n : ℕ) (hn : n < 2 ^ 63) : ∃ s, Run (churnTrace n) s ∧ s.live = [] ∧
    s.nextId = n + 1 ∧ ∀ i, i < n → s.isRevoked (i + 1) = true := by
  induction n with
  | zero => exact ⟨new, .nil, Slots.entries_empty, rfl, by simp⟩
  | succ n ih =>
    obtain ⟨s, hrun, hlive, hid, hrev⟩ := ih (by omega)
    obtain ⟨s1, hs1, hlive1, hid1, hrev1⟩ := exists_create s hlive (by omega)
    rw [hid] at hs1 hlive1 hid1
    have hrun1 : Run _ s1 := hrun.cons hs1
    have hf : s1.find (n + 1) = some ⟨n + 1, ⟨.tensorBuffer, 0⟩, .read, 0, 1, 0⟩ := by
      simp [find, hlive1]
    have hp := revoke_pruned (Run.wellFormed hrun1) hf
    refine ⟨_, hrun1.cons (by rw [step, revoke_of_find hf]), ?_, ?_, fun i hi => ?_⟩
    · rw [hp.live_eq, hlive1]
      have : s1.Visits (n + 1) (n + 1) := .refl
      simp [this]
    · exact (revokeAux_sublist ..).2.trans hid1
    · rw [hp.isRevoked_iff]
      by_cases h : i = n
      · exact .inr ⟨n + 1, .refl, by rw [h]⟩
      · refine .inl ?_
        rw [isRevoked, hrev1]
        exact hrev i (by omega)

theorem not_delegated_churnTrace (n p d : ℕ) : ¬ Delegated (churnTrace n) p d := by
  induction n with
  | zero => simp [churnTrace, Delegated]
  | succ n ih => simp [churnTrace, ih]

theorem le_of_revoked_churnTrace {n : ℕ} (h : Revoked (churnTrace n) c) : c ≤ n := by
  induction n with
  | zero => cases h
  | succ n ih =>
    have h : c = n + 1 ∨ Revoked (churnTrace n) c := by simpa [Revoked, churnTrace] using h
    rcases h with rfl | h
    · exact le_rfl
    · exact (ih h).trans n.le_succ

/-- The one created after them is not revoked. -/
theorem unrevoked_churn (n : ℕ) :
    Unrevoked ((.create 1 ⟨.tensorBuffer, 0⟩ .read 0, .id (.ok (n + 1))) :: churnTrace n)
      (n + 1) := by
  -- No call of the run is a delegation, and none revokes this one.
  intro p hp hr
  rcases cases_tail hp with rfl | ⟨q, -, hq⟩
  · have hr : Revoked (churnTrace n) (n + 1) := by simpa [Revoked] using hr
    have := le_of_revoked_churnTrace hr
    omega
  · simp [not_delegated_churnTrace] at hq

/-- Some identifier congruent to `c` in the bitmap was issued and removed. -/
def Aliased (t : List (Call × Ret)) (s : CapRegistry) (c : ℕ) : Prop :=
  ∃ e, Issued t e ∧ s.find e = none ∧ e % revokedBitmapSize = c % revokedBitmapSize

/-- A capability that was not revoked, nor any it was derived from, is found and admits what it was
    granted for, unless its bit was set for another one that was removed: then it is taken for
    revoked. -/
theorem lookup_of_unrevoked (h : Run t s) (hc : Issued t c) (hu : Unrevoked t c) :
    ∃ cap, granted t c = some cap ∧
      (¬ Aliased t s c → ∀ now, cap.isExpired now = false → s.lookup c now = .ok cap ∧
        ∀ required : Permissions, required.isSubsetOf cap.permissions = true →
          ∃ d, s.check cap.owner cap.resource required now = .ok d) ∧
      (Aliased t s c → ∀ now, s.lookup c now = .error .revoked) := by
  have hrec := Run.recorded h
  obtain ⟨cap, hm, rfl⟩ := hrec.live_of_unrevoked c hc hu
  refine ⟨cap, hrec.granted cap hm, fun ha now hx => ?_, fun ha now => ?_⟩
  · have hrev : s.isRevoked cap.id = false := by
      rw [Bool.eq_false_iff, ne_eq, hrec.isRevoked_iff]
      exact ha
    constructor
    · simp [lookup, hrev, (Run.wellFormed h).find_of_mem hm, hx]
    · intro required hreq
      have hok : (cap.check cap.resource required now).isOk = true := by
        simp [Capability.check, hx, Permissions.contains_iff.2 hreq, Except.toBool]
      rw [check]
      split
      · exact ⟨_, rfl⟩
      · next hnone =>
        have := find?_eq_none.1 hnone cap hm
        simp [hrev, hok] at this
  · rw [lookup, (hrec.isRevoked_iff _).2 ha]
    rfl

/-- A capability is created after another one was revoked. -/
theorem lookup_after_revocation : ∃ t s cap, Run t s ∧ Revoked t 1 ∧ granted t 2 = some cap ∧
    s.lookup 2 0 = .ok cap := by
  obtain ⟨s, hrun, hlive, hid, -⟩ := churn_run 1 (by decide)
  obtain ⟨s1, hs1, hlive1, -, -⟩ := exists_create s hlive (by omega)
  rw [hid] at hs1 hlive1
  obtain ⟨cap, hg, hok, -⟩ :=
    lookup_of_unrevoked (hrun.cons hs1) ⟨_, mem_cons_self⟩ (unrevoked_churn 1)
  cases hg
  refine ⟨_, s1, _, hrun.cons hs1, by simp [Revoked, churnTrace], rfl, (hok ?_ 0 rfl).1⟩
  rintro ⟨e, ⟨a, he⟩, hf, hmod⟩
  have he : e = 2 ∨ e = 1 := by
    simp only [churnTrace, mem_cons, Prod.mk.injEq, reduceCtorEq, and_false, not_mem_nil, or_false,
      false_or, Ret.id.injEq, Except.ok.injEq] at he
    exact he.imp And.right And.right
  rcases he with rfl | rfl
  · simp [find, hlive1] at hf
  · exact absurd hmod (by decide)

/-- After 4096 capabilities created and revoked in turn, the next one created, which was never
    revoked, is taken for revoked. -/
theorem lookup_revoked_of_churn : ∃ t s, Run t s ∧ Issued t 4097 ∧ Unrevoked t 4097 ∧
    (∃ cap, granted t 4097 = some cap ∧ cap.isExpired 0 = false) ∧
    s.lookup 4097 0 = .error .revoked := by
  obtain ⟨s, hrun, hlive, hid, hrev⟩ := churn_run 4096 (by decide)
  obtain ⟨s1, hs1, -, -, hrev1⟩ := exists_create s hlive (by omega)
  rw [hid] at hs1
  refine ⟨_, s1, hrun.cons hs1, issued_cons.2 (.inl rfl), unrevoked_churn 4096, ?_, ?_⟩
  · exact ⟨⟨4097, ⟨.tensorBuffer, 0⟩, .read, 0, 1, 0⟩, rfl, rfl⟩
  · have : s1.isRevoked 4097 = true := by
      rw [isRevoked, hrev1]
      exact hrev 0 (by decide)
    rw [lookup, this]
    rfl

end CapRegistry

end SmallAIOS.Security

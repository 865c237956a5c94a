import SmallAIOS.Security.Capability

/-!
# Delegation only attenuates

What a call can do to the registry is said once (`step_cases`): fail and leave
the registry as it is, put the capability it grants into it (`Grant`), or
remove some of its capabilities.

From it, the invariant of the registry (`WellFormed`): identifiers are unique,
nonzero and greater than those of the parents, and a live capability is an
*attenuation* of its parent, if the parent is live too. Attenuation is
transitive, so that no chain of live delegations widens the rights or the
lifetime of its root (`run_attenuates`). Also where a parent is not live any
more, the rights come from a capability that was created (`run_backed`).
-/

namespace SmallAIOS.Security

open Lib Relation List Option Slots
open scoped List

/-! ## Attenuation -/

namespace Permissions

variable {p q r : Permissions}

theorem isSubsetOf_iff : p.isSubsetOf q ↔ ∀ i, p.bits.getLsbD i → q.bits.getLsbD i := by
  rw [isSubsetOf, beq_iff_eq]
  constructor
  · intro h i hi
    have := congrArg (·.getLsbD i) h
    have hlt := BitVec.lt_of_getLsbD hi
    simpa [hi, hlt] using this
  · intro h
    refine BitVec.eq_of_getLsbD_eq fun i hi => ?_
    simpa [hi] using h i

theorem contains_iff : p.contains q ↔ q.isSubsetOf p := by
  rw [isSubsetOf_iff, contains, beq_iff_eq]
  constructor
  · intro h i hi
    have := congrArg (·.getLsbD i) h
    simpa [hi] using this
  · intro h
    refine BitVec.eq_of_getLsbD_eq fun i _ => ?_
    simpa using h i

end Permissions

/-- The capability `d` gives no more than `p`, which may be delegated. -/
structure Attenuates (p d : Capability) : Prop where
  resource_eq : d.resource = p.resource
  subset : d.permissions.isSubsetOf p.permissions = true
  grant : p.permissions.contains .grant = true
  expires : p.expires ≠ 0 → d.expires ≠ 0 ∧ d.expires ≤ p.expires

theorem Attenuates.trans {p q r : Capability} (h1 : Attenuates p q) (h2 : Attenuates q r) :
    Attenuates p r where
  resource_eq := h2.resource_eq.trans h1.resource_eq
  subset := Permissions.isSubsetOf_iff.2 fun i hi => Permissions.isSubsetOf_iff.1 h1.subset i
    (Permissions.isSubsetOf_iff.1 h2.subset i hi)
  grant := h1.grant
  expires h := by
    obtain ⟨hq, hle⟩ := h1.expires h
    exact ⟨(h2.expires hq).1, (h2.expires hq).2.trans hle⟩

namespace CapRegistry

variable {s s' : CapRegistry} {a : Call} {r : Ret}

/-! ## What a call can do -/

/-- The capability `cap` is what the call `a` grants, if it succeeds. -/
inductive Grant (s : CapRegistry) : Call → Capability → Prop
  | root (o : ℕ) (r : ResourceRef) (p : Permissions) (e : ℕ) :
    Grant s (.create o r p e) ⟨s.nextId, r, p, e, o, 0⟩
  | delegation {p now : ℕ} {par : Capability} {ps : Permissions} (o e : ℕ) :
    s.find p = some par → s.isRevoked p = false → par.isExpired now = false →
      par.permissions.contains .grant = true → ps.isSubsetOf par.permissions = true →
      Grant s (.delegate p o ps e now)
        ⟨s.nextId, par.resource, ps, effectiveExpires par.expires e, o, p⟩

/-- The registry `s'` is `s` with the capability `cap` put into a free slot. -/
structure Inserted (s : CapRegistry) (cap : Capability) (s' : CapRegistry) : Prop where
  live : s'.live ~ cap :: s.live
  nextId : s'.nextId = s.nextId + 1
  revoked : s'.revoked = s.revoked

theorem Inserted.mem_live {c cap : Capability} (h : s.Inserted cap s') :
    c ∈ s'.live ↔ c = cap ∨ c ∈ s.live := by
  rw [h.live.mem_iff, mem_cons]

variable {cap : Capability}

variable {c : ℕ}

theorem find_eq_some (h : s.find c = some cap) : cap ∈ s.live ∧ cap.id = c :=
  ⟨mem_of_find?_eq_some h, by simpa using find?_some h⟩

theorem find_eq_none : s.find c = none ↔ ∀ cap ∈ s.live, cap.id ≠ c := by
  simp [find]

variable {permissions : Permissions}

variable {x : Except CapError ℕ}

variable {resource : ResourceRef} (n : ℕ) {owner : ℕ}

theorem insert_cases {expires parent : ℕ}
    (h : s.insert owner resource permissions expires parent = some (x, s')) :
    ((∃ e, x = .error e) ∧ s' = s) ∨
      (x = .ok s.nextId ∧
        s.Inserted ⟨s.nextId, resource, permissions, expires, owner, parent⟩ s') := by
  rw [insert] at h
  split at h
  · cases h; exact .inl ⟨⟨_, rfl⟩, rfl⟩
  · split at h
    · cases h; exact .inl ⟨⟨_, rfl⟩, rfl⟩
    · next caps hcaps =>
      split at h
      · cases h
      · cases h; exact .inr ⟨rfl, entries_fill? hcaps, rfl, rfl⟩

theorem delegate_cases {p o e now : ℕ} {ps : Permissions}
    (h : s.delegate p o ps e now = some (x, s')) :
    ((∃ e, x = .error e) ∧ s' = s) ∨
      (x = .ok s.nextId ∧ ∃ cap, s.Grant (.delegate p o ps e now) cap ∧ s.Inserted cap s') := by
  rw [delegate] at h
  split at h
  · cases h; exact .inl ⟨⟨_, rfl⟩, rfl⟩
  · next par hpar =>
    split_ifs at h with h1 h2 h3 h4
    · cases h; exact .inl ⟨⟨_, rfl⟩, rfl⟩
    · cases h; exact .inl ⟨⟨_, rfl⟩, rfl⟩
    · cases h; exact .inl ⟨⟨_, rfl⟩, rfl⟩
    · cases h; exact .inl ⟨⟨_, rfl⟩, rfl⟩
    · refine (insert_cases h).imp_right fun ⟨hx, hi⟩ => ⟨hx, _, ?_, hi⟩
      exact .delegation o e hpar (by simpa using h1) (by simpa using h2) (by simpa using h3)
        (by simpa using h4)

theorem revoke_of_find (h : s.find c = some cap) :
    s.revoke c = (.ok (), revokeAux maxTotalCaps s c) := by
  simp [revoke, h]

/-- What a call can do: fail and change nothing, put in the capability it grants, or revoke. -/
theorem step_cases (h : s.step a = some (r, s')) :
    (s' = s ∧ ((∃ e, r = .id (.error e)) ∨ ∃ e, r = .unit (.error e))) ∨
      (r = .id (.ok s.nextId) ∧ ∃ cap, s.Grant a cap ∧ s.Inserted cap s') ∨
      (∃ c cap, a = .revoke c ∧ s.find c = some cap ∧ r = .unit (.ok ()) ∧
        s' = revokeAux maxTotalCaps s c) := by
  cases a with
  | create o res p e =>
    obtain ⟨⟨x, s1⟩, hx, h⟩ := map_eq_some_iff.1 h
    cases h
    rcases insert_cases hx with ⟨⟨err, rfl⟩, rfl⟩ | ⟨rfl, hi⟩
    · exact .inl ⟨rfl, .inl ⟨err, rfl⟩⟩
    · exact .inr (.inl ⟨rfl, _, .root o res p e, hi⟩)
  | delegate c o p e now =>
    obtain ⟨⟨x, s1⟩, hx, h⟩ := map_eq_some_iff.1 h
    cases h
    rcases delegate_cases hx with ⟨⟨err, rfl⟩, rfl⟩ | ⟨rfl, hi⟩
    · exact .inl ⟨rfl, .inl ⟨err, rfl⟩⟩
    · exact .inr (.inl ⟨rfl, hi⟩)
  | revoke c =>
    cases hf : s.find c with
    | none =>
      simp only [step, revoke, hf, some.injEq, Prod.mk.injEq] at h
      exact .inl ⟨h.2.symm, .inr ⟨_, h.1.symm⟩⟩
    | some cap =>
      simp only [step, revoke_of_find hf, some.injEq, Prod.mk.injEq] at h
      exact .inr (.inr ⟨c, cap, rfl, hf, h.1.symm, h.2.symm⟩)

/-! ## The cascade only removes -/

@[simp] theorem live_remove (c : ℕ) : (s.remove c).live = s.live.eraseP (·.id == c) :=
  entries_vacate _

theorem revokeAux_sublist (fuel : ℕ) (s : CapRegistry) (c : ℕ) :
    (revokeAux fuel s c).live <+ s.live ∧ (revokeAux fuel s c).nextId = s.nextId := by
  induction fuel generalizing s c with
  | zero => exact ⟨.refl _, rfl⟩
  | succ fuel ih =>
    rw [revokeAux]
    split
    · exact ⟨.refl _, rfl⟩
    · -- The recursive calls only remove, whatever children they are made on.
      have key (l : List ℕ) (u : CapRegistry) :
          (l.foldl (revokeAux fuel) u).live <+ u.live ∧
            (l.foldl (revokeAux fuel) u).nextId = u.nextId := by
        induction l generalizing u with
        | nil => exact ⟨.refl _, rfl⟩
        | cons d l ihl =>
          exact ⟨(ihl _).1.trans (ih u d).1, (ihl _).2.trans (ih u d).2⟩
      obtain ⟨hl, hn⟩ := key ((s.remove c).children c) (s.remove c)
      rw [live_remove] at hl
      exact ⟨hl.trans eraseP_sublist, hn⟩

/-! ## The invariant -/

/-- The invariant of the registry. -/
structure WellFormed (s : CapRegistry) : Prop where
  nextId_pos : 0 < s.nextId
  nodup : (s.live.map (·.id)).Nodup
  pos : ∀ c ∈ s.live, 0 < c.id
  lt_nextId : ∀ c ∈ s.live, c.id < s.nextId
  parent_lt : ∀ c ∈ s.live, c.parent < c.id
  attenuates : ∀ p ∈ s.live, ∀ d ∈ s.live, d.parent = p.id → Attenuates p d

theorem wellFormed_new : WellFormed new where
  nextId_pos := Nat.one_pos
  nodup := by simp [live, new]
  pos := by simp [live, new]
  lt_nextId := by simp [live, new]
  parent_lt := by simp [live, new]
  attenuates := by simp [live, new]

/-- Removing capabilities keeps the invariant. -/
theorem WellFormed.of_sublist (hw : s.WellFormed) (hl : s'.live <+ s.live)
    (hn : s'.nextId = s.nextId) : s'.WellFormed where
  nextId_pos := hn ▸ hw.nextId_pos
  nodup := hw.nodup.sublist (hl.map _)
  pos c hc := hw.pos c (hl.mem hc)
  lt_nextId c hc := hn ▸ hw.lt_nextId c (hl.mem hc)
  parent_lt c hc := hw.parent_lt c (hl.mem hc)
  attenuates p hp d hd := hw.attenuates p (hl.mem hp) d (hl.mem hd)

theorem WellFormed.find_of_mem (hw : s.WellFormed) (h : cap ∈ s.live) :
    s.find cap.id = some cap := by
  cases hf : s.find cap.id with
  | none => exact absurd rfl (find_eq_none.1 hf cap h)
  | some c =>
    obtain ⟨hc, hid⟩ := find_eq_some hf
    rw [inj_on_of_nodup_map hw.nodup hc h hid]

theorem Grant.id_eq (h : s.Grant a cap) : cap.id = s.nextId := by
  cases h <;> rfl

/-- The parent of a capability granted is live, and attenuated, or there is none. -/
theorem Grant.parent (h : s.Grant a cap) :
    cap.parent = 0 ∨ ∃ par ∈ s.live, par.id = cap.parent ∧ Attenuates par cap := by
  cases h with
  | root => exact .inl rfl
  | delegation o e hf hr hx hg hs =>
    obtain ⟨hm, hid⟩ := find_eq_some hf
    refine .inr ⟨_, hm, hid, rfl, hs, hg, fun h => ?_⟩
    dsimp only [effectiveExpires]
    split <;> omega

theorem WellFormed.parent_lt_nextId (hw : s.WellFormed) (h : s.Grant a cap) :
    cap.parent < s.nextId := by
  rcases h.parent with h0 | ⟨par, hm, hid, -⟩
  · exact h0 ▸ hw.nextId_pos
  · exact hid ▸ hw.lt_nextId par hm

/-- A grant keeps the invariant: no live capability names it as its parent. -/
theorem WellFormed.inserted (hw : s.WellFormed) (hg : s.Grant a cap)
    (hi : s.Inserted cap s') : s'.WellFormed := by
  have hid := hg.id_eq
  have hpar := hw.parent_lt_nextId hg
  refine ⟨?_, ?_, ?_, ?_, ?_, ?_⟩
  · rw [hi.nextId]; omega
  · rw [(hi.live.map _).nodup_iff, map_cons, nodup_cons]
    refine ⟨fun h => ?_, hw.nodup⟩
    obtain ⟨c, hc, hcid⟩ := mem_map.1 h
    have := hw.lt_nextId c hc
    omega
  · rintro c hc
    rcases hi.mem_live.1 hc with rfl | hc
    · exact hid ▸ hw.nextId_pos
    · exact hw.pos c hc
  · rintro c hc
    rw [hi.nextId]
    rcases hi.mem_live.1 hc with rfl | hc
    · omega
    · have := hw.lt_nextId c hc
      omega
  · rintro c hc
    rcases hi.mem_live.1 hc with rfl | hc
    · omega
    · exact hw.parent_lt c hc
  · rintro p hp d hd h
    rcases hi.mem_live.1 hd with rfl | hd
    · rcases hi.mem_live.1 hp with rfl | hp
      · omega
      · rcases hg.parent with h0 | ⟨par, hm, hpid, hatt⟩
        · have := hw.pos p hp
          omega
        · rwa [inj_on_of_nodup_map hw.nodup hp hm (h.symm.trans hpid.symm)]
    · rcases hi.mem_live.1 hp with rfl | hp
      · have h1 := hw.parent_lt d hd
        have h2 := hw.lt_nextId d hd
        omega
      · exact hw.attenuates p hp d hd h

theorem WellFormed.step (hw : s.WellFormed) (h : s.step a = some (r, s')) : s'.WellFormed := by
  rcases step_cases h with ⟨rfl, -⟩ | ⟨-, cap, hg, hi⟩ | ⟨c, cap, -, -, -, rfl⟩
  · exact hw
  · exact hw.inserted hg hi
  · exact hw.of_sublist (revokeAux_sublist ..).1 (revokeAux_sublist ..).2

theorem Run.wellFormed {t : List (Call × Ret)} (h : Run t s) : s.WellFormed := by
  induction h with
  | nil => exact wellFormed_new
  | cons _ hs ih => exact ih.step hs

/-! ## A root and its delegations -/

/-- The capability the task 1 is granted first. -/
def fanRoot : Capability := ⟨1, ⟨.tensorBuffer, 0⟩, .all, 0, 1, 0⟩

/-- The first `n` delegations of it, to the task 2. -/
def fanLeaves (n : ℕ) : List Capability :=
  (range n).map fun i => ⟨i + 2, ⟨.tensorBuffer, 0⟩, .read, 0, 2, 1⟩

/-- The calls that grant them. -/
def fanTrace : ℕ → List (Call × Ret)
  | 0 => [(.create 1 ⟨.tensorBuffer, 0⟩ .all 0, .id (.ok 1))]
  | n + 1 => (.delegate 1 2 .read 0 0, .id (.ok (n + 2))) :: fanTrace n

theorem length_fan : (fanRoot :: fanLeaves n).length = n + 1 := by simp [fanLeaves]

/-- The registry after them. -/
def fan (n : ℕ) (h : n < 255) : CapRegistry where
  caps := .ofList (fanRoot :: fanLeaves n) (by rw [length_fan, maxTotalCaps]; omega)
  nextId := n + 2
  revoked := .empty _

@[simp] theorem live_fan (h : n < 255) : (fan n h).live = fanRoot :: fanLeaves n := by
  rw [live, fan, entries_ofList]

@[simp] theorem isRevoked_fan (h : n < 255) (c : ℕ) : (fan n h).isRevoked c = false :=
  Bitmap.mem_empty _

theorem find_fan_root (h : n < 255) : (fan n h).find 1 = some fanRoot := by
  rfl

theorem insert_of_fill? {expires parent : ℕ} {caps : Slots Capability maxTotalCaps}
    (hcount : s.live.length < maxCapsPerTask) (hid : s.nextId + 1 < 2 ^ 64)
    (hcaps : s.caps.fill? ⟨s.nextId, resource, permissions, expires, owner, parent⟩ = some caps) :
    s.insert owner resource permissions expires parent =
      some (.ok s.nextId, { s with caps, nextId := s.nextId + 1 }) := by
  have : s.countForTask owner < maxCapsPerTask := countP_le_length.trans_lt hcount
  rw [insert, if_neg (by omega), hcaps]
  simp only
  rw [if_neg (by omega)]

theorem fan_run (h : n < 255) : Run (fanTrace n) (fan n h) := by
  induction n with
  | zero =>
    refine .cons .nil ?_
    have hfill : new.caps.fill? fanRoot = some (fan 0 h).caps := by
      rfl
    have := insert_of_fill? (by simp [live, new, maxCapsPerTask]) (by decide) hfill
    simp only [step]
    exact congrArg _ this
  | succ n ih =>
    refine .cons (ih (by omega)) ?_
    have hn : n < 255 := by omega
    have hfill : (fan n hn).caps.fill? ⟨n + 2, ⟨.tensorBuffer, 0⟩, .read, 0, 2, 1⟩ =
        some (fan (n + 1) h).caps := by
      rw [fan, fill?_ofList _ (by rw [length_fan, maxTotalCaps]; omega)]
      simp [fan, fanLeaves, range_succ]
    have := insert_of_fill? (by rw [live_fan, length_fan, maxCapsPerTask]; omega)
      (by rw [show (fan n hn).nextId = n + 2 from rfl]; omega) hfill
    simp only [step, delegate, isRevoked_fan]
    exact congrArg _ this

/-! ## Chains of delegations -/

/-- The live capability `d` names the live capability `p` as its parent. -/
def DelegatedFrom (s : CapRegistry) (p d : Capability) : Prop :=
  p ∈ s.live ∧ d ∈ s.live ∧ d.parent = p.id

theorem WellFormed.attenuates_of_chain (hw : s.WellFormed) {p d : Capability}
    (h : TransGen s.DelegatedFrom p d) : Attenuates p d := by
  induction h with
  | single h => exact hw.attenuates _ h.1 _ h.2.1 h.2.2
  | tail _ h ih => exact ih.trans (hw.attenuates _ h.1 _ h.2.1 h.2.2)

/-- In every reachable registry, identifiers are unique and nonzero, a live capability attenuates
    its parent, and so does the end of a chain of live delegations attenuate its root. -/
theorem run_attenuates {t : List (Call × Ret)} (h : Run t s) :
    (s.live.map (·.id)).Nodup ∧ (∀ c ∈ s.live, c.id ≠ 0) ∧
      (∀ p ∈ s.live, ∀ d ∈ s.live, d.parent = p.id → Attenuates p d) ∧
      ∀ p d, TransGen s.DelegatedFrom p d → Attenuates p d :=
  have hw := Run.wellFormed h
  ⟨hw.nodup, fun c hc => (hw.pos c hc).ne', hw.attenuates, fun _ _ => hw.attenuates_of_chain⟩

theorem fan_attenuates : Run (fanTrace 2) (fan 2 (by decide)) ∧
    ∀ d ∈ fanLeaves 2, Attenuates fanRoot d := by
  have hr := fan_run 2 (by decide)
  refine ⟨hr, fun d hd => (run_attenuates hr).2.2.1 fanRoot ?_ d ?_ ?_⟩
  · exact mem_cons_self
  · rw [live_fan]
    exact mem_cons_of_mem _ hd
  · obtain ⟨i, -, rfl⟩ := mem_map.1 hd
    rfl

/-- A call of `t` created the capability, or one that it attenuates. -/
def Backed (t : List (Call × Ret)) (d : Capability) : Prop :=
  ∃ c : Capability, (.create c.owner c.resource c.permissions c.expires, .id (.ok c.id)) ∈ t ∧
    (c = d ∨ Attenuates c d)

/-- All rights in a reachable registry come from a capability that was created, also where parents
    were revoked in between. -/
theorem run_backed {t : List (Call × Ret)} (h : Run t s) : ∀ d ∈ s.live, Backed t d := by
  induction h with
  | nil => simp [live, new]
  | @cons t s s' a r hr hs ih =>
    have hold (d : Capability) (hd : d ∈ s.live) : Backed ((a, r) :: t) d :=
      (ih d hd).imp fun _ => And.imp_left (mem_cons_of_mem _)
    intro d hd
    rcases step_cases hs with ⟨rfl, -⟩ | ⟨rfl, cap, hg, hi⟩ | ⟨c, cap, -, -, -, rfl⟩
    · exact hold d hd
    · rcases hi.mem_live.1 hd with rfl | hd
      · rcases hg.parent with h0 | ⟨p, hp, -, hpar⟩
        · cases hg with
          | root => exact ⟨_, mem_cons_self, .inl rfl⟩
          | delegation o e hf =>
            obtain ⟨hm, rfl⟩ := find_eq_some hf
            exact absurd h0 ((Run.wellFormed hr).pos _ hm).ne'
        · obtain ⟨c, hc, h⟩ := hold p hp
          exact ⟨c, hc, .inr (h.elim (· ▸ hpar) (·.trans hpar))⟩
      · exact hold d hd
    · exact hold d ((revokeAux_sublist ..).1.mem hd)

theorem run_backed_fan : Backed (fanTrace 2) ⟨2, ⟨.tensorBuffer, 0⟩, .read, 0, 2, 1⟩ :=
  run_backed (fan_run 2 (by decide)) _ (.tail _ (.head _))

end CapRegistry

end SmallAIOS.Security

import SmallAIOS.Fs.BootConfig.Update

/-!
# The active record and the loss of power

As long as no two valid records have the same generation, exactly one of them is
active (`Slots.IsActive`), and an update goes to the other slot. The active record
then stays the active one until the new record is complete, whatever the write
leaves if it is interrupted.

So power may be lost at any point of any call: afterwards the active record is the
one from before, or the new one (`readActive_after_loss`). This needs reads that do
not fail. A slot that cannot be read counts as free, and the update may go to the
slot of the active record (`updateAtomic_unreadable_iff`).
-/

namespace SmallAIOS.Fs.BootConfig

open Lib Function Option SlotPosition

theorem SlotPosition.forall {p : SlotPosition → Prop} : (∀ s, p s) ↔ p .slotX ∧ p .slotY :=
  ⟨fun h => ⟨h _, h _⟩, fun h s => by cases s <;> [exact h.1; exact h.2]⟩

namespace Slots

variable {v : Slots} {a r : BootConfigRecord} {s : SlotPosition} {g : UInt64}

/-- All generations are lower than `g`. -/
def Below (v : Slots) (g : UInt64) : Prop := ∀ s, ∀ r ∈ v s, r.generation < g

theorem maxGen_any_le : v.maxGen.any (g ≤ ·) = true ↔ ¬ v.Below g := by
  rw [Below, SlotPosition.forall]
  cases hx : v .slotX with
  | none => cases hy : v .slotY <;> simp [maxGen, hx, hy]
  | some x =>
    cases hy : v .slotY with
    | none => simp [maxGen, hx, hy]
    | some y =>
      simp only [maxGen, hx, hy, map_some, any_some, decide_eq_true_eq,
        mem_some_iff, forall_eq', UInt64.le_iff_toNat_le, UInt64.lt_iff_toNat_lt,
        UInt64.toNat_max]
      omega

variable {newRecord : BootConfigRecord}

/-- An update to a higher generation is written. -/
theorem updatePlan_of_below (h : v.Below newRecord.generation) :
    v.updatePlan newRecord = .write v.target newRecord (stored v.target) :=
  if_neg (mt maxGen_any_le.1 (not_not.2 h))

theorem updatePlan_of_not_below (h : ¬ v.Below newRecord.generation) :
    v.updatePlan newRecord = .answer (.error .generationNotMonotonic) :=
  if_pos (maxGen_any_le.2 h)

theorem mem_validAt : a ∈ v.validAt s ↔ v s = some a ∧ a.valid = true :=
  filter_eq_some_iff

theorem validAt_eq_none : v.validAt s = none ↔ ∀ r, v s = some r → r.valid = false := by
  simp [validAt]

theorem pickActive_eq_ok (h : pickActive v = .ok (a, s)) : v s = some a ∧ a.valid = true := by
  suffices hv : v.validAt s = some a from mem_validAt.1 hv
  unfold pickActive at h
  split at h
  · cases h
  · next hx _ => cases h; exact hx
  · next _ hy => cases h; exact hy
  · next hx hy =>
    split_ifs at h
    · cases h; exact hx
    · cases h; exact hy

theorem pickActive_eq_error {e : BootConfigError} (h : pickActive v = .error e) :
    ∀ s, ∀ r ∈ v s, r.valid = false := by
  unfold pickActive at h
  split at h
  · next hx hy => exact SlotPosition.forall.2 ⟨validAt_eq_none.1 hx, validAt_eq_none.1 hy⟩
  · cases h
  · cases h
  · split_ifs at h

/-- The record `a` in the slot `s` is the valid one of the highest generation, and no other is of
    this generation. -/
structure IsActive (v : Slots) (a : BootConfigRecord) (s : SlotPosition) : Prop where
  held : v s = some a
  valid : a.valid = true
  newest : ∀ r, v s.other = some r → r.valid = true → r.generation < a.generation

namespace IsActive

variable (h : v.IsActive a s)
include h

/-- The active record is found, and an update does not touch it. -/
theorem pickActive_target : pickActive v = .ok (a, s) ∧ v.target = s.other := by
  have ha := mem_validAt.2 ⟨h.held, h.valid⟩
  cases hr : v.validAt s.other with
  | none =>
    cases s <;> rw [other] at hr <;> rw [pickActive, target, ha, hr] <;> exact ⟨rfl, rfl⟩
  | some r =>
    have hlt := h.newest r (mem_validAt.1 hr).1 (mem_validAt.1 hr).2
    cases s with
    | slotX =>
      rw [other] at hr
      rw [pickActive, target, ha, hr]
      exact ⟨if_pos (UInt64.le_of_lt hlt), if_neg (UInt64.not_le.2 hlt)⟩
    | slotY =>
      rw [other] at hr
      rw [pickActive, target, ha, hr]
      exact ⟨if_neg (UInt64.not_le.2 hlt), if_pos (UInt64.le_of_lt hlt)⟩

/-- What is not valid may be written to the other slot. -/
theorem update_invalid {x : Option BootConfigRecord}
    (hx : ∀ r ∈ x, r.valid = false) : IsActive (update v s.other x) a s where
  held := by rw [update_of_ne other_ne.symm, h.held]
  valid := h.valid
  newest r hr hvalid := by
    rw [update_self] at hr
    exact absurd hvalid (by simp [hx r hr])

end IsActive

/-- A valid record, and no two of the same generation: one of them is active. -/
theorem exists_isActive (hvalid : ∃ s r, v s = some r ∧ r.valid = true)
    (hne : ∀ x y, v .slotX = some x → v .slotY = some y → x.valid = true → y.valid = true →
      x.generation ≠ y.generation) : ∃ a s, v.IsActive a s := by
  obtain ⟨s, a, ha, hvalid⟩ := hvalid
  have hne' (r : BootConfigRecord) (hr : v s.other = some r) (hr' : r.valid = true) :
      a.generation ≠ r.generation := by
    cases s with
    | slotX => exact hne a r ha hr hvalid hr'
    | slotY => exact (hne r a hr ha hr' hvalid).symm
  cases ho : v.validAt s.other with
  | none =>
    refine ⟨a, s, ha, hvalid, fun r hr hr' => ?_⟩
    rw [validAt_eq_none.1 ho r hr] at hr'
    cases hr'
  | some r =>
    obtain ⟨hr, hr'⟩ := mem_validAt.1 ho
    rcases UInt64.le_total a.generation r.generation with hle | hle
    · refine ⟨r, s.other, hr, hr', fun x hx _ => ?_⟩
      rw [other_other, ha] at hx
      cases hx
      exact UInt64.lt_of_le_of_ne hle (hne' r hr hr')
    · refine ⟨a, s, ha, hvalid, fun x hx _ => ?_⟩
      rw [hr] at hx
      cases hx
      exact UInt64.lt_of_le_of_ne hle (hne' r hr hr').symm

end Slots

theorem nextGeneration_eq_some {g g' : UInt64} :
    nextGeneration g = some g' ↔ g.toNat + 1 < 2 ^ 64 ∧ g + 1 = g' := by
  rw [nextGeneration]
  split
  · next h => simp only [h, some.injEq, true_and]
  · next h => simp only [h, reduceCtorEq, false_and]

theorem Plan.map_eq_write {α β : Type} {plan : Plan α} {g : α → β} {s : SlotPosition}
    {rec : BootConfigRecord} {k : Except BlockError Unit → β} (h : plan.map g = .write s rec k) :
    ∃ k', plan = .write s rec k' ∧ ∀ r, k r = g (k' r) := by
  cases plan with
  | answer a => cases h
  | write s' rec' k' =>
    cases h
    exact ⟨k', rfl, fun _ => rfl⟩

/-- The new record that a call writes when `active` is the active one. -/
def Call.newRecord (active : BootConfigRecord) : Call → Option BootConfigRecord
  | .updateAtomic newRecord => some newRecord
  | .stageNewActiveSlot newActive => some (staging active newActive (active.generation + 1))
  | .bootSuccess _ => some (confirmation active (active.generation + 1))
  | .markInvalid _ => none

/-- The calls that may write a new record. -/
def Call.Updates : Call → Prop
  | .markInvalid _ => False
  | _ => True

/-- What a call may write, and where, in a partition whose slots decode to `v`. -/
inductive Slots.Writes (v : Slots) : Call → SlotPosition → BootConfigRecord → Prop
  | update {newRecord : BootConfigRecord} : v.Below newRecord.generation →
    Writes v (.updateAtomic newRecord) v.target newRecord
  | stage {a : BootConfigRecord} {s : SlotPosition} {newActive : ActiveSquashfsSlot} :
    pickActive v = .ok (a, s) → v.Below (a.generation + 1) →
      Writes v (.stageNewActiveSlot newActive) v.target (staging a newActive (a.generation + 1))
  | confirm {a : BootConfigRecord} {s : SlotPosition} {disarm : Except WatchdogError Unit} :
    pickActive v = .ok (a, s) → v.Below (a.generation + 1) →
      Writes v (.bootSuccess disarm) v.target (confirmation a (a.generation + 1))
  | first {newActive : ActiveSquashfsSlot} : pickActive v = .error .bothSlotsInvalid →
    Writes v (.stageNewActiveSlot newActive) .slotX (firstStaging newActive)
  | mark {s : SlotPosition} {r : BootConfigRecord} : v s = some r →
    Writes v (.markInvalid s) s { r with valid := false }

namespace Slots

variable {v : Slots} {rec newRecord : BootConfigRecord} {t : SlotPosition} {c : Call}

theorem map_updatePlan_eq_write {α : Type} {g : Except BootConfigError SlotPosition → α}
    {k : Except BlockError Unit → α} (h : (v.updatePlan newRecord).map g = .write t rec k) :
    t = v.target ∧ rec = newRecord ∧ v.Below newRecord.generation ∧
      ∀ r, k r = g (stored v.target r) := by
  by_cases hbelow : v.Below newRecord.generation
  · rw [updatePlan_of_below hbelow] at h
    cases h
    exact ⟨rfl, rfl, hbelow, fun _ => rfl⟩
  · rw [updatePlan_of_not_below hbelow] at h
    cases h

theorem stagePlan_eq_write {newActive : ActiveSquashfsSlot}
    {k : Except BlockError Unit → Except BootConfigError (BootConfigRecord × SlotPosition)}
    (h : v.stagePlan newActive = .write t rec k) :
    v.Writes (.stageNewActiveSlot newActive) t rec ∧ ∀ e, k (.error e) = .error (.block e) := by
  rw [stagePlan] at h
  split at h
  · next a s hactive =>
    split at h
    · cases h
    · next newGen hg =>
      obtain ⟨-, rfl⟩ := nextGeneration_eq_some.1 hg
      obtain ⟨rfl, rfl, hbelow, hk⟩ := map_updatePlan_eq_write h
      exact ⟨.stage hactive hbelow, fun e => hk _⟩
  · next hactive =>
    cases h
    exact ⟨.first hactive, fun _ => rfl⟩
  · cases h

theorem bootSuccessPlan_eq_write {disarm : Except WatchdogError Unit}
    {k : Except BlockError Unit → Except BootSuccessError Unit}
    (h : v.bootSuccessPlan disarm = .write t rec k) :
    v.Writes (.bootSuccess disarm) t rec ∧ ∀ e, k (.error e) = .error (.config (.block e)) := by
  rw [bootSuccessPlan] at h
  split at h
  · cases h
  · next a s hactive =>
    split_ifs at h
    split at h
    · cases h
    · next newGen hg =>
      obtain ⟨-, rfl⟩ := nextGeneration_eq_some.1 hg
      obtain ⟨rfl, rfl, hbelow, hk⟩ := map_updatePlan_eq_write h
      exact ⟨.confirm hactive hbelow, fun e => hk _⟩

/-- A call that is to write writes what it may, and fails if the write does. -/
theorem plan_eq_write {k : Except BlockError Unit → Ret} (h : v.plan c = .write t rec k) :
    v.Writes c t rec ∧ ∀ e, (k (.error e)).isOk = false := by
  cases c with
  | updateAtomic newRecord =>
    obtain ⟨rfl, rfl, hbelow, hk⟩ := map_updatePlan_eq_write h
    exact ⟨.update hbelow, fun e => by rw [hk]; rfl⟩
  | stageNewActiveSlot newActive =>
    obtain ⟨k', hk', hk⟩ := Plan.map_eq_write h
    obtain ⟨hw, herror⟩ := stagePlan_eq_write hk'
    exact ⟨hw, fun e => by rw [hk, herror]; rfl⟩
  | bootSuccess disarm =>
    obtain ⟨k', hk', hk⟩ := Plan.map_eq_write h
    obtain ⟨hw, herror⟩ := bootSuccessPlan_eq_write hk'
    exact ⟨hw, fun e => by rw [hk, herror]; rfl⟩
  | markInvalid slot =>
    obtain ⟨k', hk', hk⟩ := Plan.map_eq_write h
    rw [markPlan] at hk'
    split at hk'
    · cases hk'
    · next r hr =>
      cases hk'
      exact ⟨.mark hr, fun e => by rw [hk]; rfl⟩

end Slots

namespace Slots.IsActive

variable {v : Slots} {a rec : BootConfigRecord} {s t : SlotPosition} {c : Call}

/-- What is written is the new record, of a higher generation than the active one, and it is written
    to the other slot. -/
theorem writes (h : v.IsActive a s) (hc : c.Updates) (hw : v.Writes c t rec) :
    t = s.other ∧ rec ∈ c.newRecord a ∧ a.generation < rec.generation := by
  cases hw with
  | update hbelow => exact ⟨h.pickActive_target.2, rfl, hbelow s a h.held⟩
  | stage hactive hbelow | confirm hactive hbelow =>
    cases h.pickActive_target.1.symm.trans hactive
    exact ⟨h.pickActive_target.2, rfl, hbelow s a h.held⟩
  | first hactive => cases h.pickActive_target.1.symm.trans hactive
  | mark => exact hc.elim

/-- However the write of a newer record ends, the active record is the same one, or the new one. -/
theorem update_readBack {sha3 : List UInt8 → Digest} {x : Option BootConfigRecord}
    (h : v.IsActive a s) (hnewer : a.generation < rec.generation)
    (hx : x = v s.other ∨ x = none ∨ x = readBack sha3 rec) :
    IsActive (update v s.other x) a s ∨
      IsActive (update v s.other x) (sealed sha3 rec) s.other := by
  rcases hx with rfl | rfl | rfl
  · rw [update_eq_self]
    exact .inl h
  · exact .inl (h.update_invalid nofun)
  · unfold readBack
    split
    · cases hvalid : rec.valid with
      | true =>
        refine .inr ⟨update_self .., hvalid, fun r' hr' _ => ?_⟩
        rw [other_other, update_of_ne other_ne.symm, h.held] at hr'
        cases hr'
        exact hnewer
      | false =>
        -- The caller of `updateAtomic` may pass a record that is not valid.
        refine .inl (h.update_invalid fun r hr => ?_)
        cases hr
        exact hvalid
    · exact .inl (h.update_invalid nofun)

end Slots.IsActive

/-! ## Loss of power -/

/-- A device that reads reliably. A write that fails or is interrupted leaves the old block, the new
    one, or bytes that do not decode. -/
def tearing (sha3 : List UInt8 → Digest) : Faults Block where
  readFails := False
  stops := True
  leaves old new := {b | b = old ∨ b = new ∨ ∃ e, decodeRecord sha3 b = .error e}

section Loss

variable {sha3 : List UInt8 → Digest} {P : Partition} {d₀ d d' : Disk Block} {c : Call}
  {a : BootConfigRecord} {s : SlotPosition} {ws : List Block} {o : Option Ret}

/-- However a call ends, the active record is the same one, or the new one. -/
theorem Slots.IsActive.runs (hsize : P.blockSize = bootConfigRecordSize) (hc : c.Updates)
    (h : (slots sha3 P d).IsActive a s) (hr : (c.prog sha3 P).Runs (tearing sha3) d ws o d') :
    (slots sha3 P d').IsActive a s ∨ ∃ rec ∈ c.newRecord a, a.generation < rec.generation ∧
      (slots sha3 P d').IsActive (sealed sha3 rec) s.other := by
  rcases runs_prog hsize id hr with ⟨_, -, rfl, -⟩ | ⟨t, rec, k, b, hplan, rfl, hb, -⟩
  · exact .inl h
  · obtain ⟨rfl, hrec, hnewer⟩ := h.writes hc (Slots.plan_eq_write hplan).1
    rw [slots_update]
    refine (h.update_readBack hnewer ?_).imp_right fun h' => ⟨rec, hrec, hnewer, h'⟩
    rcases hb with rfl | rfl | rfl | rfl | ⟨e, he⟩
    · exact .inr (.inr toOption_decodeRecord_encodeRecord)
    · exact .inl rfl
    · exact .inl rfl
    · exact .inr (.inr toOption_decodeRecord_encodeRecord)
    · exact .inr (.inl (by rw [he, Except.toOption]))

/-- One call after the other, each of which may succeed, fail or be interrupted. -/
def UpdateRuns (sha3 : List UInt8 → Digest) (P : Partition) : Disk Block → Disk Block → Prop :=
  Relation.ReflTransGen fun d d' =>
    ∃ c : Call, c.Updates ∧ ∃ ws o, (c.prog sha3 P).Runs (tearing sha3) d ws o d'

theorem UpdateRuns.exists_isActive (hsize : P.blockSize = bootConfigRecordSize)
    (h0 : ∃ a s, (slots sha3 P d₀).IsActive a s) (h : UpdateRuns sha3 P d₀ d) :
    ∃ a s, (slots sha3 P d).IsActive a s := by
  induction h with
  | refl => exact h0
  | tail _ hstep ih =>
    obtain ⟨a, s, ha⟩ := ih
    obtain ⟨c, hc, ws, o, hr⟩ := hstep
    rcases ha.runs hsize hc hr with h' | ⟨rec, -, -, h'⟩
    · exact ⟨a, s, h'⟩
    · exact ⟨_, _, h'⟩

/-- After a loss of power at any point of a call, the active record is the one from before the call,
    or the complete new one, which is of a higher generation. -/
theorem readActive_after_loss (hsize : P.blockSize = bootConfigRecordSize)
    (hvalid : ∃ s r, slots sha3 P d₀ s = some r ∧ r.valid = true)
    (hne : ∀ x y, slots sha3 P d₀ .slotX = some x → slots sha3 P d₀ .slotY = some y →
      x.valid = true → y.valid = true → x.generation ≠ y.generation)
    (hruns : UpdateRuns sha3 P d₀ d) (hc : c.Updates)
    (hloss : (c.prog sha3 P).Runs (tearing sha3) d ws none d') :
    ∃ a s, ((readActive sha3 P).exec d).1 = .ok (a, s) ∧
      (((readActive sha3 P).exec d').1 = .ok (a, s) ∨
        ∃ rec ∈ c.newRecord a, a.generation < rec.generation ∧
          ((readActive sha3 P).exec d').1 = .ok (sealed sha3 rec, s.other)) := by
  obtain ⟨a, s, ha⟩ := hruns.exists_isActive hsize (Slots.exists_isActive hvalid hne)
  have hread {d : Disk Block} {a : BootConfigRecord} {s : SlotPosition}
      (ha : (slots sha3 P d).IsActive a s) : ((readActive sha3 P).exec d).1 = .ok (a, s) := by
    rw [exec_readActive hsize, ha.pickActive_target.1]
  refine ⟨a, s, hread ha, ?_⟩
  rcases ha.runs hsize hc hloss with h' | ⟨rec, hrec, hlt, h'⟩
  · exact .inl (hread h')
  · exact .inr ⟨rec, hrec, hlt, hread h'⟩

end Loss

/-- A digest that is always zero. -/
def zeroDigest : List UInt8 → Digest := fun _ => .replicate 32 0

/-- The partition at the beginning of a device. -/
def firstBlocks : Partition := ⟨4096, 0, by decide⟩

/-- A disk with nothing on it. -/
def blank : Disk Block := fun _ => []

theorem slots_blank : slots zeroDigest firstBlocks blank = fun _ => none := rfl

/-- A disk with one record. -/
def oneRecord : Disk Block :=
  update blank (firstBlocks.lba + slotX.lbaDelta) (encodeRecord zeroDigest (.new .a 1))

theorem slots_oneRecord : slots zeroDigest firstBlocks oneRecord =
    update (fun _ => none) .slotX (some (.new .a 1)) := by
  rw [oneRecord, slots_update_encodeRecord]
  rfl

/-- Power is lost while an update is staged, and the block that was written is garbled. -/
theorem readActive_after_loss_stage : ∃ d',
    d' (firstBlocks.lba + slotY.lbaDelta) = [0] ∧
    ((Call.stageNewActiveSlot .b).prog zeroDigest firstBlocks).Runs (tearing zeroDigest)
      oneRecord [] none d' ∧
    ∃ a s, ((readActive zeroDigest firstBlocks).exec oneRecord).1 = .ok (a, s) ∧
      (((readActive zeroDigest firstBlocks).exec d').1 = .ok (a, s) ∨
        ∃ rec ∈ (Call.stageNewActiveSlot .b).newRecord a, a.generation < rec.generation ∧
          ((readActive zeroDigest firstBlocks).exec d').1 =
            .ok (sealed zeroDigest rec, s.other)) := by
  have hloss : ((Call.stageNewActiveSlot .b).prog zeroDigest firstBlocks).Runs
      (tearing zeroDigest) oneRecord [] none
      (update oneRecord (firstBlocks.lba + slotY.lbaDelta) [0]) := by
    refine Prog.runs_of_skipReads ?_
    rw [skipReads_prog rfl, slots_oneRecord]
    exact .stopWrite trivial (.inr (.inr ⟨.badBufferLen, rfl⟩))
  refine ⟨_, update_self .., hloss, readActive_after_loss rfl ?_ ?_ .refl trivial hloss⟩
  · exact ⟨.slotX, _, congrFun slots_oneRecord _, rfl⟩
  · intro x y _ hy
    cases hy

/-! ## A read that fails -/

section Unreadable

variable {sha3 : List UInt8 → Digest} {P : Partition} {d : Disk Block} {s : SlotPosition}
  {rs rt : BootConfigRecord}

/-- The reads of one slot fail. -/
def failsAt (P : Partition) (s : SlotPosition) (e : BlockError) (lba : ℕ) : Option BlockError :=
  if lba = P.lba + s.lbaDelta then some e else none

theorem execFailing_readSlot (fails : ℕ → Option BlockError) (t : SlotPosition) :
    (readSlot sha3 P t).execFailing fails d =
      ((fails (P.lba + t.lbaDelta)).elim (decodeRecord sha3 (d (P.lba + t.lbaDelta)))
        fun e => .error (.block e), [], d) := by
  rw [readSlot, add_lbaDelta]
  simp only [Prog.execFailing_bind, Prog.read, Prog.execFailing]
  cases fails (P.lba + t.lbaDelta) <;> rfl

/-- A slot that cannot be read counts as one without a record. -/
theorem execFailing_readSlots (e : BlockError) :
    (readSlots sha3 P).execFailing (failsAt P s e) d = (update (slots sha3 P d) s none, [], d) := by
  rw [readSlots, Prog.execFailing_bind, execFailing_readSlot]
  dsimp only
  rw [Prog.execFailing_bind, execFailing_readSlot]
  refine Prod.ext (funext fun t => ?_) rfl
  cases s <;> cases t <;> simp [failsAt, slots, lbaDelta, update] <;> rfl

/-- The slot that cannot be read is overwritten, if the generation is higher than that of the other
    one. -/
theorem execFailing_updateAtomic (hsize : P.blockSize = bootConfigRecordSize)
    (ht : slots sha3 P d s.other = some rt) (hvt : rt.valid = true) (e : BlockError)
    (newRecord : BootConfigRecord) :
    (updateAtomic sha3 P newRecord).execFailing (failsAt P s e) d =
      if newRecord.generation ≤ rt.generation then (.error .generationNotMonotonic, [], d)
      else (.ok s, [encodeRecord sha3 newRecord],
        update d (P.lba + s.lbaDelta) (encodeRecord sha3 newRecord)) := by
  have hgen : Slots.maxGen (update (slots sha3 P d) s none) = some rt.generation := by
    cases s <;> simp_all [Slots.maxGen, other]
  have htarget : Slots.target (update (slots sha3 P d) s none) = s := by
    cases s <;> simp_all [Slots.target, Slots.validAt, other, filter_some]
  rw [updateAtomic, if_neg (not_not.2 hsize), Prog.execFailing_bind, execFailing_readSlots]
  dsimp only
  rw [hgen, htarget, add_lbaDelta]
  simp only [any_some, decide_eq_true_eq, List.nil_append]
  split_ifs <;> rfl

/-- A disk with two records, of the generations 5 and 3. -/
def twoRecords : Disk Block :=
  update (update blank (firstBlocks.lba + slotX.lbaDelta) (encodeRecord zeroDigest (.new .a 5)))
    (firstBlocks.lba + slotY.lbaDelta) (encodeRecord zeroDigest (.new .b 3))

theorem slots_twoRecords :
    slots zeroDigest firstBlocks twoRecords .slotX = some (.new .a 5) ∧
      slots zeroDigest firstBlocks twoRecords .slotY = some (.new .b 3) := by
  rw [twoRecords, slots_update_encodeRecord, slots_update_encodeRecord]
  exact ⟨rfl, rfl⟩

/-- Of two valid records, the one that cannot be read is safe if its generation is lower, or if the
    new generation is refused for the other one. -/
theorem updateAtomic_unreadable_iff (hsize : P.blockSize = bootConfigRecordSize)
    (hs : slots sha3 P d s = some rs) (ht : slots sha3 P d s.other = some rt)
    (hvt : rt.valid = true) (e : BlockError) (newRecord : BootConfigRecord) :
    let r := (updateAtomic sha3 P newRecord).execFailing (failsAt P s e) d
    ((∀ t a b, slots sha3 P d t = some a → slots sha3 P d t.other = some b →
        b.generation ≤ a.generation → r.2.2 (P.lba + t.lbaDelta) = d (P.lba + t.lbaDelta)) ∧
      ∀ t, r.1 = .ok t →
        rs.generation < newRecord.generation ∧ rt.generation < newRecord.generation) ↔
      newRecord.generation ≤ rt.generation ∨ rs.generation < rt.generation := by
  rw [execFailing_updateAtomic hsize ht hvt]
  split_ifs with hle
  · exact iff_of_true ⟨fun _ _ _ _ _ _ => rfl, nofun⟩ (.inl hle)
  have hlt := UInt64.not_le.1 hle
  dsimp only
  constructor
  · rintro ⟨hkept, habove⟩
    obtain ⟨hnewer, -⟩ := habove s rfl
    refine .inr (UInt64.not_le.1 fun hge => ?_)
    -- The block would have to be the new one already.
    have hsame := hkept s rs rt hs ht hge
    rw [update_self] at hsame
    rw [slots, ← hsame, toOption_decodeRecord_encodeRecord] at hs
    rw [eq_sealed_of_mem_readBack hs] at hnewer
    exact UInt64.lt_irrefl _ hnewer
  · intro hlower
    replace hlower := hlower.resolve_left hle
    refine ⟨fun t a b ha hb hba => ?_, fun t _ => ⟨UInt64.lt_trans hlower hlt, hlt⟩⟩
    refine update_of_ne (lba_ne P fun hts => ?_) _ _
    cases hts
    cases hs.symm.trans ha
    cases ht.symm.trans hb
    exact UInt64.not_le.2 hlower hba

/-- The read of the slot of the lower generation fails. -/
theorem updateAtomic_unreadable_lower :
    let r := (updateAtomic zeroDigest firstBlocks (.new .b 6)).execFailing
      (failsAt firstBlocks .slotY .timeout) twoRecords
    r.1 = .ok .slotY ∧
      r.2.2 (firstBlocks.lba + slotX.lbaDelta) = twoRecords (firstBlocks.lba + slotX.lbaDelta) := by
  obtain ⟨hx, hy⟩ := slots_twoRecords
  have h := (updateAtomic_unreadable_iff rfl hy hx rfl .timeout (.new .b 6)).2 (.inr (by decide))
  refine ⟨?_, h.1 .slotX _ _ hx hy (by decide)⟩
  rw [execFailing_updateAtomic (s := .slotY) rfl hx rfl, if_neg (by decide)]

/-- The read of the slot of the higher generation fails: it is overwritten, with a record of a lower
    one. -/
theorem unreadable_record_overwritten :
    let r := (updateAtomic zeroDigest firstBlocks (.new .b 4)).execFailing
      (failsAt firstBlocks .slotX .timeout) twoRecords
    slots zeroDigest firstBlocks twoRecords .slotX = some (.new .a 5) ∧
      slots zeroDigest firstBlocks twoRecords .slotY = some (.new .b 3) ∧
      r.1 = .ok .slotX ∧ slots zeroDigest firstBlocks r.2.2 .slotX = some (.new .b 4) := by
  obtain ⟨hx, hy⟩ := slots_twoRecords
  rw [execFailing_updateAtomic (s := .slotX) rfl hy rfl, if_neg (by decide)]
  refine ⟨hx, hy, rfl, ?_⟩
  rw [slots_update_encodeRecord]
  rfl

end Unreadable

end SmallAIOS.Fs.BootConfig

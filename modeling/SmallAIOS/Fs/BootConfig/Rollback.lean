import SmallAIOS.Fs.BootConfig.Active
import SmallAIOS.Lib.Run

/-!
# Updates after a rollback

An update is accepted if its generation is higher than those of both slots, valid
or not. `stageNewActiveSlot` and `bootSuccess` take the next generation after that
of the active record. If a record that was invalidated has a higher one, the two
disagree, and every further update is refused: a rollback blocks the partition
(`updates_succeed_iff`, `updates_fail_after_rollback`).

This is about a device that never fails. Its slots are a machine of their own
(`Slots.step`), which the calls on the disk follow (`slots_step`).
-/

namespace SmallAIOS.Fs.BootConfig

open Lib Function SlotPosition

namespace Slots

variable {v v' : Slots} {a r rec : BootConfigRecord} {s t : SlotPosition} {c : Call}

/-- No record that can be read has a higher generation than the active one. -/
def Newest (v : Slots) (a : BootConfigRecord) : Prop :=
  ∀ s, ∀ r ∈ v s, r.generation ≤ a.generation

/-- The active record, if there is one, has the highest generation. -/
def Unblocked (v : Slots) : Prop := ∀ a s, pickActive v = .ok (a, s) → v.Newest a

/-- A valid record of a higher generation than that of the other slot is active. -/
theorem IsActive.of_update (hvalid : r.valid = true)
    (hlt : ∀ r' ∈ v s.other, r'.valid = true → r'.generation < r.generation) :
    IsActive (update v s (some r)) r s where
  held := update_self ..
  valid := hvalid
  newest r' hr' := by
    rw [update_of_ne other_ne] at hr'
    exact hlt r' hr'

theorem IsActive.unblocked (h : v.IsActive a s)
    (hle : ∀ r ∈ v s.other, r.generation ≤ a.generation) : v.Unblocked := by
  intro a' s' hactive t r hr
  cases h.pickActive_target.1.symm.trans hactive
  by_cases ht : t = s
  · rw [ht, h.held] at hr
    cases hr
    exact UInt64.le_refl _
  · exact hle r (eq_other_of_ne ht ▸ hr)

/-- What is put in a slot and is not valid has to be covered by the other slot. -/
theorem unblocked_update_invalid {x : Option BootConfigRecord} (hx : ∀ r ∈ x, r.valid = false)
    (hle : ∀ r ∈ x, ∀ r' ∈ v s.other, r'.valid = true → r.generation ≤ r'.generation) :
    Unblocked (update v s x) := by
  intro a t hactive t' r hr
  obtain ⟨ha, hvalid⟩ := pickActive_eq_ok hactive
  have ht : t = s.other := eq_other_of_ne fun ht => by
    rw [ht, update_self] at ha
    rw [hx a ha] at hvalid
    cases hvalid
  rw [ht, update_of_ne other_ne] at ha
  by_cases ht' : t' = s
  · rw [ht', update_self] at hr
    exact hle r hr a ha hvalid
  · rw [update_of_ne ht', eq_other_of_ne ht', ha] at hr
    cases hr
    exact UInt64.le_refl _

variable {sha3 : List UInt8 → Digest}

theorem unblocked_update_below (hbelow : v.Below rec.generation)
    (hvalid : rec.Current → rec.valid = true) :
    Unblocked (update v s (readBack sha3 rec)) := by
  unfold readBack
  split
  · next hcurrent =>
    have hactive : IsActive (update v s (some (sealed sha3 rec))) (sealed sha3 rec) s :=
      .of_update (hvalid hcurrent) fun r' hr' _ => hbelow _ r' hr'
    refine hactive.unblocked fun r hr => ?_
    rw [update_of_ne other_ne] at hr
    exact UInt64.le_of_lt (hbelow _ r hr)
  · exact unblocked_update_invalid nofun nofun

/-- The call does not leave a record that can be read above the active one: it does not write one
    that is not valid, it does not invalidate the newest one if the other one is valid, and if none
    is valid it stages the first update only over generations up to 1. -/
def KeepsNewest (v : Slots) : Call → Prop
  | .updateAtomic newRecord => newRecord.Current → newRecord.valid = true
  | .stageNewActiveSlot _ => (∃ r, pickActive v = .ok r) ∨ ∀ r ∈ v .slotY, r.generation ≤ 1
  | .bootSuccess _ => True
  | .markInvalid slot => ∀ r ∈ v slot, ∀ r' ∈ v slot.other, r'.valid = true →
      r.generation ≤ r'.generation

theorem KeepsNewest.unblocked (h : v.KeepsNewest c)
    (hw : v.Writes c s rec) : Unblocked (update v s (readBack sha3 rec)) := by
  cases hw with
  | update hbelow => exact unblocked_update_below hbelow h
  | stage _ hbelow | confirm _ hbelow => exact unblocked_update_below hbelow fun _ => rfl
  | @first newActive hnone =>
    -- The other slot may hold a record of a higher generation, which is not valid.
    have hinvalid := pickActive_eq_error hnone .slotY
    have hle := h.resolve_left fun ⟨r, hr⟩ => nomatch hr.symm.trans hnone
    have hactive : IsActive (update v .slotX (readBack sha3 (firstStaging newActive)))
        (sealed sha3 (firstStaging newActive)) .slotX :=
      .of_update rfl fun r hr hvalid => nomatch (hinvalid r hr).symm.trans hvalid
    exact hactive.unblocked hle
  | @mark _ r hr =>
    -- The record keeps its generation, and is not active any more.
    refine unblocked_update_invalid (fun r' hr' => ?_) fun r' hr' => ?_
    · rw [eq_sealed_of_mem_readBack hr', sealed]
    · rw [eq_sealed_of_mem_readBack hr']
      exact h r hr

/-- What a call does to the slots, if nothing goes wrong. -/
def step (sha3 : List UInt8 → Digest) (v : Slots) (c : Call) : Option (Ret × Slots) :=
  match v.plan c with
  | .answer ret => some (ret, v)
  | .write s rec k => some (k (.ok ()), update v s (readBack sha3 rec))

theorem Unblocked.step {ret : Ret} (h : v.Unblocked)
    (hkeeps : v.KeepsNewest c) (hs : v.step sha3 c = some (ret, v')) : v'.Unblocked := by
  unfold Slots.step at hs
  split at hs
  · cases hs
    exact h
  · next hplan =>
    cases hs
    exact hkeeps.unblocked (plan_eq_write hplan).1

end Slots

/-- One call on a device that never fails. -/
def step (sha3 : List UInt8 → Digest) (P : Partition) (d : Disk Block) (c : Call) :
    Option (Ret × Disk Block) :=
  let r := (c.prog sha3 P).exec d
  some (r.1, r.2.2)

section Rollback

variable {sha3 : List UInt8 → Digest} {P : Partition} {d₀ d : Disk Block} {a : BootConfigRecord}
  {s : SlotPosition} {t : List (Call × Ret)}

/-- The slots follow their own rules. -/
theorem slots_step (sha3 : List UInt8 → Digest) (hsize : P.blockSize = bootConfigRecordSize)
    (d : Disk Block) (c : Call) :
    (slots sha3 P d).step sha3 c = (step sha3 P d c).map (Prod.map id (slots sha3 P)) := by
  rw [step, exec_prog hsize, Slots.step]
  cases (slots sha3 P d).plan c with
  | answer ret => rfl
  | write s rec k =>
    rw [Option.map_some, Prod.map_apply, slots_update_encodeRecord, id]

theorem reachesBy_unblocked (hsize : P.blockSize = bootConfigRecordSize)
    (hempty : ∀ s, slots sha3 P d₀ s = none)
    (h : ReachesBy (fun d c => (slots sha3 P d).KeepsNewest c) (step sha3 P) d₀ t d) :
    (slots sha3 P d).Unblocked := by
  induction h with
  | nil =>
    intro a s hactive
    cases (hempty s).symm.trans (Slots.pickActive_eq_ok hactive).1
  | cons _ hkeeps hs ih =>
    have hs' := (slots_step sha3 hsize _ _).trans (congrArg _ hs)
    exact ih.step hkeeps hs'

/-- The result of a plan, if nothing goes wrong. -/
def Plan.result {α : Type} : Plan α → α
  | .answer a => a
  | .write _ _ k => k (.ok ())

theorem Plan.result_map {α β : Type} (g : α → β) (plan : Plan α) :
    (plan.map g).result = g plan.result := by
  cases plan <;> rfl

theorem exec_of_plan {α : Type} {p : Action α} {plan : Plan α}
    (h : p.skipReads d = plan.prog sha3 P) : (p.exec d).1 = plan.result := by
  rw [← Prog.exec_skipReads, h]
  cases plan <;> rfl

theorem blockSize_of_readActive (h : ((readActive sha3 P).exec d).1 = .ok (a, s)) :
    P.blockSize = bootConfigRecordSize := by
  by_contra hsize
  rw [readActive, if_pos hsize] at h
  cases h

namespace Slots

variable {v : Slots}

theorem below_succ_iff (hgen : a.generation.toNat + 1 < 2 ^ 64) :
    v.Below (a.generation + 1) ↔ v.Newest a := by
  have hsucc : (a.generation + 1).toNat = a.generation.toNat + 1 := by
    exact Nat.mod_eq_of_lt hgen
  refine forall_congr' fun s => forall_congr' fun r => imp_congr_right fun _ => ?_
  rw [UInt64.lt_iff_toNat_lt, UInt64.le_iff_toNat_le, hsucc, Nat.lt_succ_iff]

/-- An update is accepted exactly if its generation is higher than all others. -/
theorem updatePlan_result (newRecord : BootConfigRecord) :
    (v.updatePlan newRecord).result = .ok v.target ∧ v.Below newRecord.generation ∨
      (v.updatePlan newRecord).result = .error .generationNotMonotonic ∧
        ¬ v.Below newRecord.generation := by
  by_cases hbelow : v.Below newRecord.generation
  · rw [updatePlan_of_below hbelow]
    exact .inl ⟨rfl, hbelow⟩
  · rw [updatePlan_of_not_below hbelow]
    exact .inr ⟨rfl, hbelow⟩

variable (hactive : pickActive v = .ok (a, s)) (hgen : a.generation.toNat + 1 < 2 ^ 64)
include hactive hgen

theorem stagePlan_result_iff (newActive : ActiveSquashfsSlot) :
    (∃ r, (v.stagePlan newActive).result = .ok r) ↔ v.Newest a := by
  rw [stagePlan, hactive]
  dsimp only
  rw [nextGeneration_eq_some.2 ⟨hgen, rfl⟩]
  rw [Plan.result_map, ← below_succ_iff hgen]
  rcases updatePlan_result (staging a newActive (a.generation + 1)) with h | h
  · rw [h.1]
    exact iff_of_true ⟨_, rfl⟩ h.2
  · rw [h.1]
    refine iff_of_false ?_ h.2
    rintro ⟨_, ⟨⟩⟩

theorem bootSuccessPlan_result_iff (disarm : Except WatchdogError Unit) :
    (v.bootSuccessPlan disarm).result = .ok () ↔
      a.bootSuccess = true ∨ v.Newest a ∧ disarm = .ok () := by
  rw [bootSuccessPlan, hactive]
  dsimp only
  split_ifs with hconfirmed
  · exact iff_of_true rfl (.inl hconfirmed)
  · rw [nextGeneration_eq_some.2 ⟨hgen, rfl⟩]
    rw [Plan.result_map, ← below_succ_iff hgen, or_iff_right hconfirmed]
    rcases updatePlan_result (confirmation a (a.generation + 1)) with h | h
    · have hbelow : v.Below (a.generation + 1) := h.2
      rw [h.1, and_iff_right hbelow]
      cases disarm <;> simp [Except.mapError]
    · rw [h.1]
      exact iff_of_false (by rintro ⟨⟩) fun h' => h.2 h'.1

end Slots

/-- A further update and a further confirmation succeed exactly if no record that can be read has a
    higher generation than the active one (and the watchdog can be disarmed if it has to be). From
    an empty partition this is so after any calls that keep the newest record active. -/
theorem updates_succeed_iff (hempty : ∀ s, slots sha3 P d₀ s = none)
    (hread : ((readActive sha3 P).exec d).1 = .ok (a, s))
    (hgen : ∀ s, ∀ r ∈ slots sha3 P d s, r.generation.toNat < 2 ^ 64 - 2)
    (disarm : Except WatchdogError Unit) :
    ((∀ newActive, ∃ r, ((stageNewActiveSlot sha3 P newActive).exec d).1 = .ok r) ∧
        ((bootSuccess sha3 P disarm).exec d).1 = .ok () ↔
      (slots sha3 P d).Newest a ∧ (a.bootSuccess = true ∨ disarm = .ok ())) ∧
    ∀ t, ReachesBy (fun d c => (slots sha3 P d).KeepsNewest c) (step sha3 P) d₀ t d →
      (slots sha3 P d).Newest a := by
  have hsize := blockSize_of_readActive hread
  rw [exec_readActive hsize] at hread
  have hlt : a.generation.toNat + 1 < 2 ^ 64 := by
    have := hgen s a (Slots.pickActive_eq_ok hread).1
    omega
  refine ⟨?_, fun t h => reachesBy_unblocked hsize hempty h a s hread⟩
  have hstage (newActive : ActiveSquashfsSlot) :
      (∃ r, ((stageNewActiveSlot sha3 P newActive).exec d).1 = .ok r) ↔
        (slots sha3 P d).Newest a := by
    rw [exec_of_plan (skipReads_stageNewActiveSlot hsize newActive)]
    exact Slots.stagePlan_result_iff hread hlt newActive
  rw [forall_congr' hstage, exec_of_plan (skipReads_bootSuccess hsize disarm),
    Slots.bootSuccessPlan_result_iff hread hlt]
  constructor
  · rintro ⟨hnewest, hconfirmed | ⟨-, hdisarm⟩⟩
    · exact ⟨hnewest .a, .inl hconfirmed⟩
    · exact ⟨hnewest .a, .inr hdisarm⟩
  · rintro ⟨hnewest, hconfirmed | hdisarm⟩
    · exact ⟨fun _ => hnewest, .inl hconfirmed⟩
    · exact ⟨fun _ => hnewest, .inr ⟨hnewest, hdisarm⟩⟩

/-- The first update keeps the partition open to further ones. -/
theorem updates_succeed_iff_oneRecord : ∃ t,
    ReachesBy (fun d c => (slots zeroDigest firstBlocks d).KeepsNewest c)
      (step zeroDigest firstBlocks) blank t oneRecord ∧
    (∀ newActive, ∃ r,
      ((stageNewActiveSlot zeroDigest firstBlocks newActive).exec oneRecord).1 = .ok r) ∧
    ((bootSuccess zeroDigest firstBlocks (.ok ())).exec oneRecord).1 = .ok () := by
  have hstep : step zeroDigest firstBlocks blank (.updateAtomic (.new .a 1)) =
      some (.updated (.ok .slotX), oneRecord) := by
    rfl
  have hkeeps : (slots zeroDigest firstBlocks blank).KeepsNewest (.updateAtomic (.new .a 1)) :=
    fun _ => rfl
  have hreach : ReachesBy (fun d c => (slots zeroDigest firstBlocks d).KeepsNewest c)
      (step zeroDigest firstBlocks) blank _ oneRecord := ReachesBy.nil.cons hkeeps hstep
  have hread : ((readActive zeroDigest firstBlocks).exec oneRecord).1 =
      .ok (.new .a 1, .slotX) := by
    rw [exec_readActive rfl, slots_oneRecord]
    rfl
  have hgen : ∀ s, ∀ r ∈ slots zeroDigest firstBlocks oneRecord s,
      r.generation.toNat < 2 ^ 64 - 2 := by
    rw [slots_oneRecord]
    intro s r hr
    cases s <;> cases hr
    decide
  obtain ⟨hiff, hnewest⟩ := updates_succeed_iff (congrFun slots_blank) hread hgen (.ok ())
  exact ⟨_, hreach, hiff.2 ⟨hnewest _ hreach, .inr rfl⟩⟩

/-- The newest of two records has been invalidated. -/
def rolledBack : Slots
  | .slotX => some (.new .a 5)
  | .slotY => some { BootConfigRecord.new .b 6 with valid := false }

/-- After the newest of two records is invalidated, nothing can be staged, and the boot cannot be
    confirmed. -/
theorem updates_fail_after_rollback : ∃ t d a s,
    Reaches (step zeroDigest firstBlocks) blank t d ∧
    ((readActive zeroDigest firstBlocks).exec d).1 = .ok (a, s) ∧
    (∀ s, ∀ r ∈ slots zeroDigest firstBlocks d s, r.generation.toNat < 2 ^ 64 - 2) ∧
    (∀ newActive, ((stageNewActiveSlot zeroDigest firstBlocks newActive).exec d).1 =
      .error .generationNotMonotonic) ∧
    ∀ disarm, ((bootSuccess zeroDigest firstBlocks disarm).exec d).1 =
      .error (.config .generationNotMonotonic) := by
  have he : ∃ r ∈ exec (Slots.step zeroDigest) [] (fun _ => none) [.updateAtomic (.new .a 5),
      .updateAtomic (.new .b 6), .markInvalid .slotY], r.2 .slotX = some (.new .a 5) ∧
      r.2 .slotY = some { BootConfigRecord.new .b 6 with valid := false } := by decide +kernel
  obtain ⟨⟨t, v⟩, hv, hx, hy⟩ := he
  have hreach : Reaches (Slots.step zeroDigest) (slots zeroDigest firstBlocks blank) t v :=
    Reaches.nil.exec hv
  obtain ⟨d, hd, rfl⟩ := hreach.exists_of_simulation (slots_step zeroDigest rfl)
  have hslots : slots zeroDigest firstBlocks d = rolledBack := by
    funext s
    cases s <;> assumption
  refine ⟨t, d, .new .a 5, .slotX, hd, ?_, ?_, fun newActive => ?_, fun disarm => ?_⟩
  · rw [exec_readActive rfl, hslots]
    rfl
  · rw [hslots]
    intro s r hr
    cases s <;> cases hr <;> decide
  · rw [exec_of_plan (skipReads_stageNewActiveSlot rfl newActive), hslots]
    rfl
  · rw [exec_of_plan (skipReads_bootSuccess rfl disarm), hslots]
    rfl

end Rollback

end SmallAIOS.Fs.BootConfig

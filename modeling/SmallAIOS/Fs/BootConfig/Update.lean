import SmallAIOS.Fs.BootConfig.Record
import SmallAIOS.Lib.Disk
import SmallAIOS.Lib.Word

/-!
# Updates of the boot configuration

The boot-config partition has two slots, each of which holds a record or nothing
that decodes. The valid record of the highest generation is the active one
(`pickActive`). An update writes the other slot, if the generation is higher than
both (`updateAtomic`). Records are confirmed after a boot (`bootSuccess`), staged
for the next one (`stageNewActiveSlot`) and invalidated (`markInvalid`).

All of these read the slots, decide, and write at most one block. A slot that
cannot be read counts as one that does not decode. What they decide is a function
of what the slots decode to (`Plan`): if reads do not fail, each of them goes on
after its reads as planned (`skipReads_prog`), which gives what its runs do to the
disk (`runs_prog`), and what it does if nothing goes wrong (`exec_prog`).
-/

namespace SmallAIOS.Fs.BootConfig

open Lib Function
open Prog hiding pure

/-- A boot-config partition: the block size of its device and its first block. -/
structure Partition where
  blockSize : ℕ
  lba : ℕ
  /-- Its two blocks can be addressed. -/
  fits : lba + 1 < 2 ^ 64

abbrev Block := List UInt8

/-- The programs on the device. -/
abbrev Action := Prog Block BlockError

/-- What the slots decode to. -/
abbrev Slots := SlotPosition → Option BootConfigRecord

namespace Slots

variable (v : Slots)

/-- The record in a slot, if it is valid. -/
def validAt (s : SlotPosition) : Option BootConfigRecord := (v s).filter (·.valid)

/-- The highest generation of both slots, whether valid or not. -/
def maxGen : Option UInt64 :=
  match (v .slotX).map (·.generation), (v .slotY).map (·.generation) with
  | some x, some y => some (max x y)
  | some x, none => some x
  | none, y => y

/-- The slot to overwrite. -/
def target : SlotPosition :=
  match v.validAt .slotX, v.validAt .slotY with
  | some rx, some ry => if rx.generation ≤ ry.generation then .slotX else .slotY
  | some _, none => .slotY
  | none, _ => .slotX

end Slots

/-- Decide which record is the active one. -/
def pickActive (v : Slots) : Except BootConfigError (BootConfigRecord × SlotPosition) :=
  match v.validAt .slotX, v.validAt .slotY with
  | none, none => .error .bothSlotsInvalid
  | some rx, none => .ok (rx, .slotX)
  | none, some ry => .ok (ry, .slotY)
  | some rx, some ry =>
    if rx.generation ≥ ry.generation then .ok (rx, .slotX) else .ok (ry, .slotY)

/-- The next generation, unless there is none. -/
def nextGeneration (g : UInt64) : Option UInt64 :=
  if g.toNat + 1 < 2 ^ 64 then some (g + 1) else none

inductive WatchdogError
  | notImplemented
  | zeroSeconds
  deriving DecidableEq

inductive BootSuccessError
  | config (e : BootConfigError)
  | generationOverflow
  | watchdog (e : WatchdogError)
  deriving DecidableEq

/-- The record that confirms a boot. -/
def confirmation (active : BootConfigRecord) (newGen : UInt64) : BootConfigRecord :=
  { active with
    valid := true
    tentative := false
    generation := newGen
    bootSuccess := true
    recordHash := .replicate 32 0 }

/-- The record of a staged update. -/
def staging (current : BootConfigRecord) (newActive : ActiveSquashfsSlot) (newGen : UInt64) :
    BootConfigRecord :=
  { current with
    valid := true
    activeSlot := newActive
    tentative := true
    generation := newGen
    bootSuccess := false
    recordHash := .replicate 32 0 }

/-- The record of the first update that is staged. -/
def firstStaging (newActive : ActiveSquashfsSlot) : BootConfigRecord :=
  { BootConfigRecord.new newActive 1 with tentative := true }

/-- The result of a call that returns `a` if its block was stored. -/
def stored {α : Type} (a : α) : Except BlockError Unit → Except BootConfigError α
  | .ok () => .ok a
  | .error e => .error (.block e)

/-! ## The calls -/

section Calls

variable (sha3 : List UInt8 → Digest) (P : Partition)

def readSlot (slot : SlotPosition) : Action (Except BootConfigError BootConfigRecord) :=
  match Word.add 64 P.lba slot.lbaDelta with
  | none => pure (.error (.block .outOfRange))
  | some lba => do
    match ← read lba with
    | .error e => pure (.error (.block e))
    | .ok buf => pure (decodeRecord sha3 buf)

/-- Read both slots. Why one could not be read is not looked at. -/
def readSlots : Action Slots := do
  let slotX ← readSlot sha3 P .slotX
  let slotY ← readSlot sha3 P .slotY
  pure fun
    | .slotX => slotX.toOption
    | .slotY => slotY.toOption

def readActive : Action (Except BootConfigError (BootConfigRecord × SlotPosition)) :=
  if P.blockSize ≠ bootConfigRecordSize then pure (.error (.block .unaligned))
  else do
    let v ← readSlots sha3 P
    pure (pickActive v)

def updateAtomic (newRecord : BootConfigRecord) : Action (Except BootConfigError SlotPosition) :=
  if P.blockSize ≠ bootConfigRecordSize then pure (.error (.block .unaligned))
  else do
    let v ← readSlots sha3 P
    if v.maxGen.any (newRecord.generation ≤ ·) then pure (.error .generationNotMonotonic)
    else match Word.add 64 P.lba v.target.lbaDelta with
      | none => pure (.error (.block .outOfRange))
      | some lba => do
        let result ← store lba (encodeRecord sha3 newRecord)
        pure (stored v.target result)

def markInvalid (slot : SlotPosition) : Action (Except BootConfigError Unit) :=
  if P.blockSize ≠ bootConfigRecordSize then pure (.error (.block .unaligned))
  else match Word.add 64 P.lba slot.lbaDelta with
    | none => pure (.error (.block .outOfRange))
    | some lba => do
      match ← read lba with
      | .error e => pure (.error (.block e))
      | .ok buf =>
        match decodeRecord sha3 buf with
        | .error _ => pure (.ok ())
        | .ok rec => do
          let result ← store lba (encodeRecord sha3 { rec with valid := false })
          pure (stored () result)

/-- Confirm a boot, with a watchdog that answers `disarm` when it is disarmed. -/
def bootSuccess (disarm : Except WatchdogError Unit) : Action (Except BootSuccessError Unit) := do
  match ← readActive sha3 P with
  | .error e => pure (.error (.config e))
  | .ok (active, _) =>
    if active.bootSuccess then pure (.ok ())
    else match nextGeneration active.generation with
      | none => pure (.error .generationOverflow)
      | some newGen => do
        let result ← updateAtomic sha3 P (confirmation active newGen)
        pure (match result with
          | .error e => .error (.config e)
          | .ok _ => disarm.mapError .watchdog)

def stageNewActiveSlot (newActive : ActiveSquashfsSlot) :
    Action (Except BootConfigError (BootConfigRecord × SlotPosition)) := do
  match ← readActive sha3 P with
  | .ok (current, _) =>
    match nextGeneration current.generation with
    | none => pure (.error .generationNotMonotonic)
    | some newGen => do
      let result ← updateAtomic sha3 P (staging current newActive newGen)
      pure (result.map fun pos => (staging current newActive newGen, pos))
  | .error .bothSlotsInvalid => do
    -- This path does not look at the generations of the slots.
    let result ← store P.lba (encodeRecord sha3 (firstStaging newActive))
    pure (stored (firstStaging newActive, .slotX) result)
  | .error e => pure (.error e)

end Calls

/-- The calls. -/
inductive Call
  | updateAtomic (newRecord : BootConfigRecord)
  | stageNewActiveSlot (newActive : ActiveSquashfsSlot)
  | bootSuccess (disarm : Except WatchdogError Unit)
  | markInvalid (slot : SlotPosition)

/-- What a call returns. -/
inductive Ret
  | updated (result : Except BootConfigError SlotPosition)
  | staged (result : Except BootConfigError (BootConfigRecord × SlotPosition))
  | confirmed (result : Except BootSuccessError Unit)
  | marked (result : Except BootConfigError Unit)

/-- The call succeeded. -/
def Ret.isOk : Ret → Bool
  | .updated result => result.isOk
  | .staged result => result.isOk
  | .confirmed result => result.isOk
  | .marked result => result.isOk

def Call.prog (sha3 : List UInt8 → Digest) (P : Partition) : Call → Action Ret
  | .updateAtomic newRecord => do
    let result ← BootConfig.updateAtomic sha3 P newRecord
    pure (.updated result)
  | .stageNewActiveSlot newActive => do
    let result ← BootConfig.stageNewActiveSlot sha3 P newActive
    pure (.staged result)
  | .bootSuccess disarm => do
    let result ← BootConfig.bootSuccess sha3 P disarm
    pure (.confirmed result)
  | .markInvalid slot => do
    let result ← BootConfig.markInvalid sha3 P slot
    pure (.marked result)

/-! ## What the calls decide -/

/-- What a call does after its reads: it returns, or stores a record in a slot and
    returns according to the outcome. -/
inductive Plan (α : Type)
  | answer (a : α)
  | write (s : SlotPosition) (rec : BootConfigRecord) (k : Except BlockError Unit → α)

namespace Plan

variable {α β : Type}

def map (g : α → β) : Plan α → Plan β
  | answer a => answer (g a)
  | write s rec k => write s rec fun r => g (k r)

/-- The program that remains. -/
def prog (sha3 : List UInt8 → Digest) (P : Partition) : Plan α → Action α
  | answer a => .pure a
  | write s rec k =>
    store (P.lba + s.lbaDelta) (encodeRecord sha3 rec) >>= fun r => .pure (k r)

end Plan

namespace Slots

variable (v : Slots)

def updatePlan (newRecord : BootConfigRecord) : Plan (Except BootConfigError SlotPosition) :=
  if v.maxGen.any (newRecord.generation ≤ ·) then .answer (.error .generationNotMonotonic)
  else .write v.target newRecord (stored v.target)

def stagePlan (newActive : ActiveSquashfsSlot) :
    Plan (Except BootConfigError (BootConfigRecord × SlotPosition)) :=
  match pickActive v with
  | .ok (current, _) =>
    match nextGeneration current.generation with
    | none => .answer (.error .generationNotMonotonic)
    | some newGen => (v.updatePlan (staging current newActive newGen)).map fun result =>
        result.map fun pos => (staging current newActive newGen, pos)
  | .error .bothSlotsInvalid =>
    .write .slotX (firstStaging newActive) (stored (firstStaging newActive, .slotX))
  | .error e => .answer (.error e)

def bootSuccessPlan (disarm : Except WatchdogError Unit) : Plan (Except BootSuccessError Unit) :=
  match pickActive v with
  | .error e => .answer (.error (.config e))
  | .ok (active, _) =>
    if active.bootSuccess then .answer (.ok ())
    else match nextGeneration active.generation with
      | none => .answer (.error .generationOverflow)
      | some newGen => (v.updatePlan (confirmation active newGen)).map fun result =>
          match result with
          | .error e => .error (.config e)
          | .ok _ => disarm.mapError .watchdog

def markPlan (slot : SlotPosition) : Plan (Except BootConfigError Unit) :=
  match v slot with
  | none => .answer (.ok ())
  | some rec => .write slot { rec with valid := false } (stored ())

/-- What the call does in a partition whose slots decode to `v`. -/
def plan : Call → Plan Ret
  | .updateAtomic newRecord => (v.updatePlan newRecord).map .updated
  | .stageNewActiveSlot newActive => (v.stagePlan newActive).map .staged
  | .bootSuccess disarm => (v.bootSuccessPlan disarm).map .confirmed
  | .markInvalid slot => (v.markPlan slot).map .marked

end Slots

section Decides

variable {sha3 : List UInt8 → Digest} {P : Partition} {d d' : Disk Block} {α β : Type}

/-- What the slots of a partition decode to. -/
def slots (sha3 : List UInt8 → Digest) (P : Partition) (d : Disk Block) : Slots :=
  fun s => (decodeRecord sha3 (d (P.lba + s.lbaDelta))).toOption

theorem add_lbaDelta (P : Partition) (s : SlotPosition) :
    Word.add 64 P.lba s.lbaDelta = some (P.lba + s.lbaDelta) := by
  have hfits := P.fits
  refine Word.add_eq_some.2 ⟨?_, rfl⟩
  cases s <;> simp only [SlotPosition.lbaDelta] <;> omega

theorem finds_readSlot (s : SlotPosition) :
    (readSlot sha3 P s).Finds d (decodeRecord sha3 (d (P.lba + s.lbaDelta))) := by
  rw [readSlot, add_lbaDelta]
  exact finds_read.bind rfl

theorem finds_readSlots : (readSlots sha3 P).Finds d (slots sha3 P d) := by
  refine (finds_readSlot _).bind ((finds_readSlot _).bind (congrArg pure (funext fun s => ?_)))
  cases s <;> rfl

/-- What is left of a program, if its result is used. -/
theorem skipReads_bind_of_plan {p : Action α} {plan : Plan α} (h : p.skipReads d = plan.prog sha3 P)
    (g : α → β) : (p >>= fun a => pure (g a)).skipReads d = (plan.map g).prog sha3 P := by
  cases plan with
  | answer a => exact Prog.Finds.skipReads_bind h _
  | write s rec k => exact skipReads_bind_of_store h _

variable (hsize : P.blockSize = bootConfigRecordSize) (c : Call)
include hsize

theorem finds_readActive : (readActive sha3 P).Finds d (pickActive (slots sha3 P d)) := by
  rw [readActive, if_neg (not_not.2 hsize)]
  exact finds_readSlots.bind rfl

theorem skipReads_updateAtomic (newRecord : BootConfigRecord) :
    (updateAtomic sha3 P newRecord).skipReads d =
      ((slots sha3 P d).updatePlan newRecord).prog sha3 P := by
  rw [updateAtomic, if_neg (not_not.2 hsize), finds_readSlots.skipReads_bind, Slots.updatePlan]
  split
  · rfl
  · rw [add_lbaDelta]
    rfl

theorem skipReads_markInvalid (s : SlotPosition) :
    (markInvalid sha3 P s).skipReads d = ((slots sha3 P d).markPlan s).prog sha3 P := by
  rw [markInvalid, if_neg (not_not.2 hsize), add_lbaDelta]
  rw [finds_read.skipReads_bind, Slots.markPlan, slots]
  dsimp only
  cases decodeRecord sha3 (d (P.lba + s.lbaDelta)) <;> rfl

theorem skipReads_bootSuccess (disarm : Except WatchdogError Unit) :
    (bootSuccess sha3 P disarm).skipReads d =
      ((slots sha3 P d).bootSuccessPlan disarm).prog sha3 P := by
  rw [bootSuccess, (finds_readActive hsize).skipReads_bind, Slots.bootSuccessPlan]
  cases pickActive (slots sha3 P d) with
  | error e => rfl
  | ok r =>
    dsimp only
    split
    · rfl
    · cases nextGeneration r.1.generation with
      | none => rfl
      | some newGen => exact skipReads_bind_of_plan (skipReads_updateAtomic hsize _) _

theorem skipReads_stageNewActiveSlot (newActive : ActiveSquashfsSlot) :
    (stageNewActiveSlot sha3 P newActive).skipReads d =
      ((slots sha3 P d).stagePlan newActive).prog sha3 P := by
  rw [stageNewActiveSlot, (finds_readActive hsize).skipReads_bind, Slots.stagePlan]
  cases pickActive (slots sha3 P d) with
  | error e => cases e <;> rfl
  | ok r =>
    dsimp only
    cases nextGeneration r.1.generation with
    | none => rfl
    | some newGen => exact skipReads_bind_of_plan (skipReads_updateAtomic hsize _) _

/-- If reads do not fail, every call goes on after them as planned. -/
theorem skipReads_prog : (c.prog sha3 P).skipReads d = ((slots sha3 P d).plan c).prog sha3 P := by
  cases c with
  | updateAtomic newRecord => exact skipReads_bind_of_plan (skipReads_updateAtomic hsize _) _
  | stageNewActiveSlot newActive =>
    exact skipReads_bind_of_plan (skipReads_stageNewActiveSlot hsize _) _
  | bootSuccess disarm => exact skipReads_bind_of_plan (skipReads_bootSuccess hsize _) _
  | markInvalid slot => exact skipReads_bind_of_plan (skipReads_markInvalid hsize _) _

theorem exec_readActive : ((readActive sha3 P).exec d).1 = pickActive (slots sha3 P d) := by
  rw [← exec_skipReads, finds_readActive hsize, Prog.exec]

/-- What a run of a call does: nothing, if it is not to write, and otherwise it
    changes one slot, to the new record if it succeeds. -/
theorem runs_prog {f : Faults Block} (hf : ¬ f.readFails) {c : Call} {ws : List Block}
    {o : Option Ret} (h : (c.prog sha3 P).Runs f d ws o d') :
    (∃ ret, (slots sha3 P d).plan c = .answer ret ∧ d' = d ∧ ws = [] ∧ ∀ r ∈ o, r = ret) ∨
      ∃ s rec k b, (slots sha3 P d).plan c = .write s rec k ∧
        d' = update d (P.lba + s.lbaDelta) b ∧
        (b = encodeRecord sha3 rec ∨ b = d (P.lba + s.lbaDelta) ∨
          b ∈ f.leaves (d (P.lba + s.lbaDelta)) (encodeRecord sha3 rec)) ∧
        ∀ r ∈ o, (∃ e, r = k (.error e)) ∨
          r = k (.ok ()) ∧ b = encodeRecord sha3 rec ∧ ws = [encodeRecord sha3 rec] := by
  have hruns := runs_skipReads hf h
  rw [skipReads_prog hsize] at hruns
  cases hplan : (slots sha3 P d).plan c with
  | answer ret =>
    rw [hplan] at hruns
    exact .inl ⟨ret, rfl, runs_pure hruns⟩
  | write s rec k =>
    rw [hplan] at hruns
    obtain ⟨b, hb⟩ := runs_store hruns
    exact .inr ⟨s, rec, k, b, rfl, hb⟩

/-- What a call does if nothing goes wrong. -/
theorem exec_prog : (c.prog sha3 P).exec d =
    match (slots sha3 P d).plan c with
    | .answer ret => (ret, [], d)
    | .write s rec k => (k (.ok ()), [encodeRecord sha3 rec],
        update d (P.lba + s.lbaDelta) (encodeRecord sha3 rec)) := by
  rw [← exec_skipReads, skipReads_prog hsize]
  cases (slots sha3 P d).plan c <;> rfl

end Decides

theorem lba_ne (P : Partition) {s t : SlotPosition} (h : t ≠ s) :
    P.lba + t.lbaDelta ≠ P.lba + s.lbaDelta := by
  cases s <;> cases t <;> first | exact absurd rfl h | simp [SlotPosition.lbaDelta]

variable (sha3 : List UInt8 → Digest)

/-- A block that is written changes what its slot decodes to. -/
theorem slots_update (P : Partition) (d : Disk Block) (s : SlotPosition) (b : Block) :
    slots sha3 P (update d (P.lba + s.lbaDelta) b) =
      update (slots sha3 P d) s (decodeRecord sha3 b).toOption := by
  funext t
  by_cases ht : t = s
  · rw [ht, slots, update_self, update_self]
  · rw [slots, update_of_ne (lba_ne P ht), update_of_ne ht, slots]

theorem slots_update_encodeRecord (P : Partition) (d : Disk Block) (s : SlotPosition)
    (rec : BootConfigRecord) :
    slots sha3 P (update d (P.lba + s.lbaDelta) (encodeRecord sha3 rec)) =
      update (slots sha3 P d) s (readBack sha3 rec) := by
  rw [slots_update, toOption_decodeRecord_encodeRecord]

end SmallAIOS.Fs.BootConfig

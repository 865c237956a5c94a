import SmallAIOS.Lib.Run
import Mathlib.Data.List.Induction
import Mathlib.Algebra.Group.Nat.Defs

/-!
# The watchdog of the executor

A watchdog is enabled, petted and ticked. Enabling and petting set its countdown to the timeout,
and a tick takes one off it and says whether the watchdog has fired.

What a watchdog is for is said by the calls alone: it fires at a tick if, with this one, at least
`timeout` ticks were made since it was last enabled or petted (`sinceReset`). The countdown is a
word, and the tick after the one at which it is `0` sets it to the largest word. So the watchdog
fires at the tick at which the timeout is reached and at the next one, and then it is silent, as
long as nothing resets it, until the countdown has come down again (`tick_fires_iff_due_iff`).
-/

namespace SmallAIOS.Sched

open Lib

/-- Watchdog state managed by the executor. -/
structure WatchdogState where
  timeoutTicks : UInt64
  remainingTicks : UInt64
  enabled : Bool
  deriving DecidableEq

namespace WatchdogState

/-- A new watchdog with the given timeout. -/
def new (timeoutTicks : UInt64) : WatchdogState := ⟨timeoutTicks, timeoutTicks, false⟩

def enable (w : WatchdogState) : WatchdogState :=
  { w with enabled := true, remainingTicks := w.timeoutTicks }

/-- Reset the countdown. -/
def pet (w : WatchdogState) : WatchdogState := { w with remainingTicks := w.timeoutTicks }

/-- Decrement the countdown, and say whether the watchdog has fired. -/
def tick (w : WatchdogState) : Bool × WatchdogState :=
  if !w.enabled then (false, w)
  else
    -- The atomic subtraction wraps, and returns the value before it.
    let prev := w.remainingTicks
    (decide (prev ≤ 1), { w with remainingTicks := prev - 1 })

/-! ## Runs -/

inductive Call
  | enable
  | pet
  | tick
  deriving DecidableEq

/-- A call, and what it returns if it is a tick. -/
def step (w : WatchdogState) : Call → Option Bool × WatchdogState
  | .enable => (none, w.enable)
  | .pet => (none, w.pet)
  | .tick => (some w.tick.1, w.tick.2)

/-- The watchdog after calls to a new one. -/
def after (timeout : UInt64) (calls : List Call) : WatchdogState :=
  (run step (new timeout) calls).2

/-- The ticks made since the last call that resets the countdown. -/
def sinceReset (calls : List Call) : ℕ :=
  calls.foldl (fun n call => if call = .tick then n + 1 else 0) 0

variable (timeout : UInt64) (calls : List Call) (call : Call)

theorem after_concat : after timeout (calls ++ [call]) = (step (after timeout calls) call).2 := by
  rw [after, run_append]
  rfl

theorem sinceReset_concat :
    sinceReset (calls ++ [call]) = if call = .tick then sinceReset calls + 1 else 0 := by
  rw [sinceReset, List.foldl_append]
  rfl

theorem timeoutTicks_step (w : WatchdogState) (call : Call) :
    (w.step call).2.timeoutTicks = w.timeoutTicks := by
  cases call with
  | enable => rfl
  | pet => rfl
  | tick => simp only [step, tick]; split <;> rfl

theorem timeoutTicks_after : (after timeout calls).timeoutTicks = timeout :=
  run_within (r := fun w w' : WatchdogState => w'.timeoutTicks = w.timeoutTicks)
    timeoutTicks_step (new timeout) calls

/-- The countdown has been decremented once for every tick since it was reset, as a word. A
    watchdog that is not enabled does not count, and enabling it resets the countdown. -/
theorem remainingTicks_after (h : (after timeout calls).enabled = true) :
    (after timeout calls).remainingTicks = timeout - UInt64.ofNat (sinceReset calls) := by
  induction calls using List.reverseRecOn with
  | nil => cases h
  | append_singleton calls call ih =>
    rw [after_concat] at h ⊢
    rw [sinceReset_concat]
    cases call with
    | enable => simp [step, enable, timeoutTicks_after]
    | pet => simp [step, pet, timeoutTicks_after]
    | tick =>
      cases hen : (after timeout calls).enabled with
      | false => simp [step, tick, hen] at h
      | true =>
        simp only [step, tick, hen, if_true, ih hen]
        rw [UInt64.ofNat_add, UInt64.sub_eq_add_neg, UInt64.sub_eq_add_neg, UInt64.sub_eq_add_neg,
          UInt64.neg_add, UInt64.sub_eq_add_neg, UInt64.add_assoc]
        rfl

/-- An enabled watchdog fires exactly when the ticks since the last reset have brought the
    countdown to the last two words before it wraps. -/
theorem tick_iff (h : (after timeout calls).enabled = true) :
    (after timeout calls).tick.1 = true ↔
      (timeout.toNat + 2 ^ 64 - sinceReset calls % 2 ^ 64) % 2 ^ 64 ≤ 1 := by
  simp only [tick, h, Bool.not_true, Bool.false_eq_true, if_false, decide_eq_true_eq,
    remainingTicks_after timeout calls h, UInt64.le_iff_toNat_le, UInt64.toNat_sub,
    UInt64.toNat_ofNat', UInt64.toNat_one]
  omega

/-- A tick of an enabled watchdog fires exactly if the timeout has been reached since the last
    reset, but for the ticks that come more than one tick after it was, and before the countdown
    has come down from the largest word. -/
theorem tick_fires_iff_due_iff (timeout : UInt64) (calls : List Call)
    (h : (after timeout calls).enabled = true) :
    ((after timeout calls).tick.1 = true ↔ timeout.toNat ≤ sinceReset calls + 1) ↔
      sinceReset calls + 1 < timeout.toNat ∨
        (sinceReset calls + 1 - timeout.toNat) % 2 ^ 64 ≤ 1 := by
  rw [tick_iff timeout calls h]
  have := timeout.toNat_lt
  omega

/-- The first tick of a watchdog with timeout `1`. -/
theorem tick_fires_iff_due_one :
    (after 1 [.enable]).tick.1 = true ↔ (1 : UInt64).toNat ≤ sinceReset [.enable] + 1 :=
  (tick_fires_iff_due_iff 1 [.enable] rfl).2 (.inr (by decide))

/-- A watchdog that has fired at the first tick and at the second one is silent at the third,
    though nothing has reset it. -/
theorem fired_then_silent :
    (after 1 [.enable]).tick.1 = true ∧ (after 1 [.enable, .tick]).tick.1 = true ∧
      (after 1 [.enable, .tick, .tick]).enabled = true ∧
      sinceReset [.enable, .tick, .tick] + 1 = 3 ∧
      (after 1 [.enable, .tick, .tick]).tick.1 = false := by
  decide

end WatchdogState

end SmallAIOS.Sched

import SmallAIOS.Lib.Ring
import SmallAIOS.Lib.Run
import SmallAIOS.Lib.Keyed

/-!
# The run queue of a core

`RunQueue` holds the tasks ready to run on a core, in one queue per scheduling
class, each a ring of `maxQueueSize` cells. A task is pushed at the tail of the
queue of its class, popped from the head of the first nonempty queue in the
order of priority, and stolen by an idle core from the *tail* of the inference
queue, which then moves backwards.

The indices of a ring live in `Fin maxQueueSize`, so that no access is out of
bounds, and every `RunQueue` carries the fact that the tail of a queue is
`count` cells after its head. What the queue is for is said by `Deques`, a list
of tasks per class: the tasks in the rings (`RunQueue.tasks`) are such deques,
and every run of the queue is a run of the deques, in which every task goes out
once (`run_refines_deques`).
-/

namespace SmallAIOS.Sched

open Lib Nat Ring
open List hiding Vector
open scoped List

/-- Maximum tasks per priority queue per core. -/
abbrev maxQueueSize : ℕ := 256

/-- Unique identifier for a task. -/
abbrev TaskId := UInt64

/-- The scheduling class of a task, which determines its priority. -/
inductive SchedulingClass
  | system
  | ipc
  | inference
  deriving DecidableEq

open SchedulingClass

/-- The numeric priority of a class (lower = higher priority). -/
def SchedulingClass.priority : SchedulingClass → Fin 3
  | system => 0
  | ipc => 1
  | inference => 2

/-- The class whose tasks are in the queue `q`. -/
def classOf : Fin 3 → SchedulingClass
  | 0 => .system
  | 1 => .ipc
  | _ => .inference

@[simp] theorem priority_classOf : ∀ q : Fin 3, (classOf q).priority = q := by
  decide

variable (c : SchedulingClass) {q : Fin 3}

@[simp] theorem classOf_priority : classOf c.priority = c := by
  cases c <;> rfl

/-- A priority run queue: three circular buffers with head and tail indices. -/
structure RunQueue where
  /-- Task ids in each priority queue. -/
  queues : Vector (Vector TaskId maxQueueSize) 3
  /-- Head of each queue (next to dequeue). -/
  heads : Vector (Fin maxQueueSize) 3
  /-- Tail of each queue (next insert position). -/
  tails : Vector (Fin maxQueueSize) 3
  /-- Count of tasks in each queue. -/
  counts : Vector ℕ 3
  /-- The core that owns this queue. -/
  coreId : UInt32
  counts_le : ∀ q : Fin 3, counts.get q ≤ maxQueueSize
  tails_eq : ∀ q : Fin 3, tails.get q = heads.get q + Fin.ofNat maxQueueSize (counts.get q)

namespace RunQueue

/-- An empty run queue for a core. -/
def new (coreId : UInt32) : RunQueue where
  queues := Vector.replicate 3 (Vector.replicate maxQueueSize 0)
  heads := Vector.replicate 3 0
  tails := Vector.replicate 3 0
  counts := Vector.replicate 3 0
  coreId := coreId
  counts_le _ := by simp [Vector.get]
  tails_eq _ := by simp [Vector.get]

variable (rq : RunQueue)

/-- Push a task into the queue of its class; `false` if that queue is full. -/
def push (cls : SchedulingClass) (taskId : TaskId) : Bool × RunQueue :=
  let q := cls.priority
  if h : maxQueueSize ≤ rq.counts.get q then (false, rq)
  else (true, { rq with
    queues := rq.queues.set q ((rq.queues.get q).set (rq.tails.get q) taskId)
    tails := rq.tails.set q (rq.tails.get q + 1)
    counts := rq.counts.set q (rq.counts.get q + 1)
    counts_le := fun q' => by
      rw [get_set]
      split
      · omega
      · exact rq.counts_le q'
    tails_eq := fun q' => by
      rw [get_set, get_set]
      split
      · next e => rw [e, rq.tails_eq, ofNat_succ, add_assoc]
      · exact rq.tails_eq q' })

/-- Take the task at the head of the nonempty queue `q`. -/
def popAt (q : Fin 3) (h : 0 < rq.counts.get q) : TaskId × RunQueue :=
  ((rq.queues.get q).get (rq.heads.get q), { rq with
    heads := rq.heads.set q (rq.heads.get q + 1)
    counts := rq.counts.set q (rq.counts.get q - 1)
    counts_le := fun q' => by
      rw [get_set]
      split
      · exact (sub_le _ _).trans (rq.counts_le q)
      · exact rq.counts_le q'
    tails_eq := fun q' => by
      rw [get_set, get_set]
      split
      · next e =>
        obtain ⟨c, hc⟩ := exists_eq_succ_of_ne_zero h.ne'
        rw [e, rq.tails_eq, hc, succ_sub_one, ofNat_succ, add_assoc, add_comm 1]
      · exact rq.tails_eq q' })

/-- The loop of `pop` over the queues still to be looked at. -/
def popFrom : List (Fin 3) → Option (SchedulingClass × TaskId) × RunQueue
  | [] => (none, rq)
  | q :: qs =>
    if h : 0 < rq.counts.get q then
      (some (classOf q, (rq.popAt q h).1), (rq.popAt q h).2)
    else popFrom qs

/-- Pop the highest-priority task: `system` first, then `ipc`, then `inference`. -/
def pop : Option (SchedulingClass × TaskId) × RunQueue :=
  rq.popFrom [0, 1, 2]

/-- The cell before `t`, wrapping around. -/
def before (t : Fin maxQueueSize) : Fin maxQueueSize :=
  if t = 0 then Fin.last (maxQueueSize - 1) else t - 1

theorem before_eq (t : Fin maxQueueSize) : before t = t - 1 := by
  rw [before]
  split
  · next h => rw [h]; decide
  · rfl

/-- The cell before the tail of a nonempty queue is its last one. -/
theorem before_tail {c : ℕ} (hc : rq.counts.get q = c + 1) :
    before (rq.tails.get q) = rq.heads.get q + Fin.ofNat maxQueueSize c := by
  rw [before_eq, rq.tails_eq, hc, ofNat_succ, ← add_assoc, add_sub_cancel_right]

/-- Steal a task from the inference queue, from its tail. -/
def stealInference : Option TaskId × RunQueue :=
  let q := inference.priority
  if h : rq.counts.get q = 0 then (none, rq)
  else
    let tail := before (rq.tails.get q)
    (some ((rq.queues.get q).get tail), { rq with
      tails := rq.tails.set q tail
      counts := rq.counts.set q (rq.counts.get q - 1)
      counts_le := fun q' => by
        rw [get_set]
        split
        · exact (sub_le _ _).trans (rq.counts_le q)
        · exact rq.counts_le q'
      tails_eq := fun q' => by
        rw [get_set, get_set]
        split
        · next e =>
          obtain ⟨c, hc⟩ := exists_eq_succ_of_ne_zero h
          rw [e, hc, succ_sub_one]
          exact rq.before_tail hc
        · exact rq.tails_eq q' })

/-- The tasks of a class, oldest first. -/
def tasks (c : SchedulingClass) : List TaskId :=
  contents (rq.queues.get c.priority) (rq.heads.get c.priority) (rq.counts.get c.priority)

@[simp] theorem length_tasks : (rq.tasks c).length = rq.counts.get c.priority :=
  length_contents

end RunQueue

/-! ## Calls -/

/-- A call of a method of the queue. -/
inductive Call
  | push (cls : SchedulingClass) (taskId : TaskId)
  | pop
  | stealInference
  deriving DecidableEq

/-- What a call returns. -/
inductive Ret
  | pushed (ok : Bool)
  | popped (task : Option (SchedulingClass × TaskId))
  | stolen (task : Option TaskId)
  deriving DecidableEq

/-- A call on the queue of a core. -/
def RunQueue.step (rq : RunQueue) : Call → Ret × RunQueue
  | .push c t => (.pushed (rq.push c t).1, (rq.push c t).2)
  | .pop => (.popped rq.pop.1, rq.pop.2)
  | .stealInference => (.stolen rq.stealInference.1, rq.stealInference.2)

/-! ## Bounded double-ended queues -/

/-- A double-ended queue of tasks per class, oldest first. -/
abbrev Deques := SchedulingClass → List TaskId

namespace Deques

variable (d : Deques)

/-- Replace the queue of a class. -/
def update (c : SchedulingClass) (l : List TaskId) : Deques := Function.update d c l

/-- Append to the queue of a class, if it is not full. -/
def push (c : SchedulingClass) (t : TaskId) : Bool × Deques :=
  if (d c).length < maxQueueSize then (true, d.update c (d c ++ [t])) else (false, d)

/-- Take the oldest task of the first nonempty queue of `cs`. -/
def popFirst : List SchedulingClass → Option (SchedulingClass × TaskId) × Deques
  | [] => (none, d)
  | c :: cs =>
    match d c with
    | t :: l => (some (c, t), d.update c l)
    | [] => popFirst cs

/-- Take the oldest task of the nonempty queue of highest priority. -/
def pop : Option (SchedulingClass × TaskId) × Deques :=
  d.popFirst [.system, .ipc, .inference]

/-- Take the newest inference task. -/
def stealInference : Option TaskId × Deques :=
  ((d .inference).getLast?, d.update .inference (d .inference).dropLast)

/-- A call on the deques. -/
def step : Call → Ret × Deques
  | .push c t => (.pushed (d.push c t).1, (d.push c t).2)
  | .pop => (.popped d.pop.1, d.pop.2)
  | .stealInference => (.stolen d.stealInference.1, d.stealInference.2)

end Deques

/-! ## The rings are the deques -/

namespace RunQueue

variable {rq rq' : RunQueue}

/-- Changing the ring of one class replaces the queue of that class. -/
theorem tasks_eq_update {c : SchedulingClass} {l : List TaskId} (hc : rq'.tasks c = l)
    (hne : ∀ q ≠ c.priority, rq'.queues.get q = rq.queues.get q ∧
      rq'.heads.get q = rq.heads.get q ∧ rq'.counts.get q = rq.counts.get q) :
    Deques.update rq.tasks c l = rq'.tasks := by
  funext c'
  rw [Deques.update, Function.update_apply]
  split
  · next e => rw [e, hc]
  · next e =>
    obtain ⟨h1, h2, h3⟩ := hne c'.priority fun h => e (by
      rw [← classOf_priority c', h, classOf_priority])
    rw [tasks, tasks, h1, h2, h3]

/-- A push on the rings is a push on the deques. -/
theorem push_tasks (t : TaskId) :
    Deques.push rq.tasks c t = ((rq.push c t).1, (rq.push c t).2.tasks) := by
  rw [Deques.push, length_tasks, push]
  by_cases h : maxQueueSize ≤ rq.counts.get c.priority
  · rw [if_neg (not_lt.2 h), dif_pos h]
  · rw [if_pos (not_le.1 h), dif_neg h]
    refine congrArg (Prod.mk true) (tasks_eq_update ?_ fun q hq => ?_)
    · simp only [tasks, get_set_self]
      exact contents_push (not_le.1 h) (rq.tails_eq _) t
    · simp only [get_set_ne _ hq, and_self]

/-- The tasks of a class whose queue is not empty: the head cell comes first. -/
theorem tasks_eq_cons (h : 0 < rq.counts.get q) :
    rq.tasks (classOf q) = (rq.popAt q h).1 :: (rq.popAt q h).2.tasks (classOf q) := by
  obtain ⟨n, hn⟩ := exists_eq_succ_of_ne_zero h.ne'
  simp only [tasks, popAt, priority_classOf, get_set_self, hn]
  exact contents_pop

theorem tasks_eq_nil (h : ¬0 < rq.counts.get q) : rq.tasks (classOf q) = [] := by
  rw [tasks, priority_classOf, Nat.eq_zero_of_not_pos h, contents_zero]

/-- Popping from the first nonempty ring pops from the first nonempty deque. -/
theorem popFrom_tasks (qs : List (Fin 3)) :
    Deques.popFirst rq.tasks (qs.map classOf) = ((rq.popFrom qs).1, (rq.popFrom qs).2.tasks) := by
  induction qs with
  | nil => rfl
  | cons q qs ih =>
    rw [map_cons, Deques.popFirst, popFrom]
    by_cases h : 0 < rq.counts.get q
    · rw [dif_pos h, tasks_eq_cons h]
      refine congrArg (Prod.mk _) (tasks_eq_update rfl fun q' hq' => ?_)
      rw [priority_classOf] at hq'
      simp only [popAt, get_set_ne _ hq', and_self]
    · rw [dif_neg h, tasks_eq_nil h]
      exact ih

theorem pop_tasks : Deques.pop rq.tasks = (rq.pop.1, rq.pop.2.tasks) :=
  popFrom_tasks [0, 1, 2]

/-- A steal on the rings is a steal on the deques. -/
theorem stealInference_tasks :
    Deques.stealInference rq.tasks = (rq.stealInference.1, rq.stealInference.2.tasks) := by
  rw [Deques.stealInference, stealInference]
  by_cases h : rq.counts.get inference.priority = 0
  · rw [dif_pos h, tasks, h]
    exact congrArg (Prod.mk none) (tasks_eq_update (by rw [tasks, h]; rfl) fun _ _ => by simp)
  · rw [dif_neg h]
    obtain ⟨n, hn⟩ := exists_eq_succ_of_ne_zero h
    -- The last cell of the ring is the one before its tail.
    have ht : rq.tasks .inference = contents (rq.queues.get inference.priority)
        (rq.heads.get inference.priority) n ++
        [(rq.queues.get inference.priority).get (before (rq.tails.get inference.priority))] := by
      rw [tasks, hn, rq.before_tail hn]
      exact contents_succ
    rw [ht, getLast?_concat, dropLast_concat]
    refine congrArg (Prod.mk _) (tasks_eq_update ?_ fun q hq => ?_)
    · simp only [tasks, get_set_self, hn, succ_sub_one]
    · simp only [get_set_ne _ hq, and_self]

/-- Every call on the rings is the call on the deques. -/
theorem step_tasks (rq : RunQueue) (a : Call) :
    Deques.step rq.tasks a = ((rq.step a).1, (rq.step a).2.tasks) := by
  cases a with
  | push c t => rw [Deques.step, push_tasks, step]
  | pop => rw [Deques.step, pop_tasks, step]
  | stealInference => rw [Deques.step, stealInference_tasks, step]

theorem tasks_new (coreId : UInt32) : (new coreId).tasks = fun _ => [] := by
  funext c
  simp [tasks, new, Vector.get]

end RunQueue

/-! ## Conservation of the tasks -/

/-- The task a call has put into the queue of the class `c`. -/
def accepted (c : SchedulingClass) : Call × Ret → Option TaskId
  | (.push c' t, .pushed true) => if c' = c then some t else none
  | _ => none

/-- The task a call has taken out of the queue of the class `c`. -/
def removed (c : SchedulingClass) : Call × Ret → Option TaskId
  | (.pop, .popped (some (c', t))) => if c' = c then some t else none
  | (.stealInference, .stolen (some t)) => if c = .inference then some t else none
  | _ => none

namespace Deques

variable (d : Deques)

theorem update_self (l : List TaskId) : d.update c l c = l :=
  Function.update_self ..

theorem update_of_ne {c c' : SchedulingClass} (h : c' ≠ c) (l : List TaskId) :
    d.update c l c' = d c' :=
  Function.update_of_ne h ..

theorem popFirst_perm (cs : List SchedulingClass) :
    d c ~ (removed c (.pop, .popped (d.popFirst cs).1)).toList ++ (d.popFirst cs).2 c := by
  induction cs with
  | nil => exact .rfl
  | cons c' cs ih =>
    rw [popFirst]
    split
    · next t l hl =>
      by_cases hc : c' = c
      · subst hc
        simp [removed, update_self, hl]
      · simp [removed, hc, update_of_ne _ (Ne.symm hc)]
    · exact ih

/-- A call only moves tasks: what was there and what is put in is what is
    taken out and what is left. -/
theorem step_perm (a : Call) (c : SchedulingClass) :
    d c ++ (accepted c (a, (d.step a).1)).toList ~
      (removed c (a, (d.step a).1)).toList ++ (d.step a).2 c := by
  cases a with
  | push c' t =>
    rw [step, push]
    split
    · by_cases hc : c' = c
      · subst hc
        simp [accepted, removed, update_self]
      · simp [accepted, removed, hc, update_of_ne _ (Ne.symm hc)]
    · simp [accepted, removed]
  | pop => simpa [accepted, step, pop] using d.popFirst_perm c _
  | stealInference =>
    simp only [step, stealInference]
    by_cases hc : c = .inference
    · subst hc
      rw [update_self]
      rcases eq_nil_or_concat (d .inference) with h | ⟨l, t, h⟩
      · simp [accepted, removed, h]
      · simp [accepted, removed, h]
    · rw [update_of_ne _ hc]
      cases (d .inference).getLast? <;> simp [accepted, removed, hc]

theorem run_perm (as : List Call) (c : SchedulingClass) :
    d c ++ (as.zip (run step d as).1).filterMap (accepted c) ~
      (as.zip (run step d as).1).filterMap (removed c) ++ (run step d as).2 c := by
  induction as generalizing d with
  | nil => simp [run]
  | cons a as ih =>
    rw [run, zip_cons_cons, filterMap_cons_toList, filterMap_cons_toList, ← append_assoc]
    refine ((d.step_perm a c).append_right _).trans ?_
    rw [append_assoc, append_assoc]
    exact (ih _).append_left _

end Deques

/-- The run queue of a core is three bounded double-ended queues. Along every
    run, the calls return what they return on the deques and leave the tasks
    they leave there, no queue outgrows its capacity, and the tasks accepted in
    a class are, up to order, those taken out and those still there. -/
theorem run_refines_deques (coreId : UInt32) (calls : List Call) :
    let r := run RunQueue.step (RunQueue.new coreId) calls
    run Deques.step (fun _ => []) calls = (r.1, r.2.tasks) ∧
      (∀ c, (r.2.tasks c).length ≤ maxQueueSize) ∧
      ∀ c, (calls.zip r.1).filterMap (accepted c) ~
        (calls.zip r.1).filterMap (removed c) ++ r.2.tasks c := by
  intro r
  have h : run Deques.step (fun _ => []) calls = (r.1, r.2.tasks) := by
    rw [← RunQueue.tasks_new coreId]
    exact run_simulation RunQueue.step_tasks _ _
  refine ⟨h, fun c => ?_, fun c => ?_⟩
  · rw [RunQueue.length_tasks]
    exact r.2.counts_le _
  · simpa [h] using Deques.run_perm (fun _ => []) calls c

end SmallAIOS.Sched

import JiuwenSpec.Controller.TaskScheduler

/-!
# The completion signal of a session

A wrapper ends with a check of its session's tasks; where none of them is active it writes the
signal `all_tasks_processed` to the session's stream. The check and the write are two steps, since
the stream calls its listeners before it writes.
Source: `core/controller/modules/task_scheduler.py`, `core/session/agent.py`.
-/

namespace JiuwenSpec.Controller

open Base

/-- `active_states`. -/
def TaskStatus.active : TaskStatus → Bool
  | .submitted => true
  | .working => true
  | _ => false

namespace TaskScheduler

def status? (s : TaskScheduler) (i : Nat) : Option TaskStatus := (s.tasks[i]?).map Task.status

def phase? (s : TaskScheduler) (k : Nat) : Option (Nat × WrapperPhase) :=
  (s.wrappers[k]?).map fun w => (w.task, w.phase)

def activeAt (s : TaskScheduler) (i : Nat) : Bool := (s.status? i).any TaskStatus.active

/-- `_are_all_tasks_completed`, denied, for the tasks of a session. -/
def hasActive (mine : Nat → Bool) (s : TaskScheduler) : Bool :=
  (List.range s.tasks.length).any fun i => mine i && s.activeAt i

def leaves (mine : Nat → Bool) (s t : TaskScheduler) : Bool :=
  (List.range s.tasks.length).any fun i => mine i && s.activeAt i && !t.activeAt i

/-- A wrapper of the session is at the end of its `finally`, which it was not before. -/
def arrives (mine : Nat → Bool) (s t : TaskScheduler) (k : Nat) : Bool :=
  match s.phase? k, t.phase? k with
  | some (_, phase), some (i, .signalling) => decide (phase ≠ .signalling) && mine i
  | _, _ => false

end TaskScheduler

def SchedulerOp.wrapper? : SchedulerOp → Option Nat
  | .advance k _ => some k
  | .deliver k => some k
  | _ => none

/-- The scheduler with the wrappers that have passed the check and write the signal. `owed` tells
that a task of the session has left the active states and no signal was written since, and `early`
that one was written while a task was active. -/
structure Signals where
  scheduler : TaskScheduler
  sending : List Nat := []
  owed : Bool := false
  early : Bool := false

namespace Signals

def writes (x : Signals) (t : TaskScheduler) : SchedulerOp → Bool
  | .advance k .exit => decide (k ∈ x.sending) && decide ((t.phase? k).any (·.2 = .done))
  | _ => false

/-- One step, with `_ensure_session_completion_signal` for the session's tasks. -/
def step (mine : Nat → Bool) (x : Signals) (op : SchedulerOp) : Signals :=
  let t := x.scheduler.step op
  let checked := op.wrapper?.toList.filter fun k =>
    x.scheduler.arrives mine t k && !t.hasActive mine
  { scheduler := t
    sending := (x.sending.filter fun k => (t.phase? k).any (·.2 = .signalling)) ++ checked
    owed := !x.writes t op && (x.owed || x.scheduler.leaves mine t)
    early := x.early || (x.writes t op && t.hasActive mine) }

def Watches (mine : Nat → Bool) (x : Signals) (k : Nat) : Prop :=
  ∃ i phase, x.scheduler.phase? k = some (i, phase) ∧ mine i = true ∧
    ((phase ≠ .signalling ∧ phase ≠ .done) ∨ (phase = .signalling ∧ k ∈ x.sending))

/-- No wrapper of the session and no call for one of its tasks is in progress. -/
def Idle (mine : Nat → Bool) (x : Signals) : Prop :=
  (∀ k i phase, x.scheduler.phase? k = some (i, phase) → mine i = true → phase = .done) ∧
    ∀ c ∈ x.scheduler.calls, mine c.task = true → ∃ result, c.phase = .returned result

def Writes (s : TaskScheduler) (i : Nat) : SchedulerOp → Prop
  | .call kind j => j = i ∧ ((kind = .cancel ∧ s.status? i = some .submitted) ∨
      ∃ r, assocGet? i s.running = some r ∧ r.executor = false)
  | .reply n ok => ok = true ∧ ∃ c r, s.calls[n]? = some c ∧ c.task = i ∧
      assocGet? i s.running = some r
  | _ => False

/-- The steps that keep the signal: none makes a task active while the signal is being sent, a
call ends an active task only where another is active or a wrapper will check, and a wrapper that
has not started, or is sending the signal, is cancelled only where this holds without it, or
nothing is owed. -/
def Safe (mine : Nat → Bool) (x : Signals) (op : SchedulerOp) : Prop :=
  match op with
  | .add => mine x.scheduler.tasks.length = true → x.sending = []
  | .submit i => mine i = true → x.sending = []
  | .advance k (.begin true) => ∀ i phase, x.scheduler.phase? k = some (i, phase) → mine i = true →
      x.sending = []
  | .deliver k => ∀ i phase, x.scheduler.phase? k = some (i, phase) → mine i = true →
      phase = .created ∨ (phase = .signalling ∧ k ∈ x.sending) →
        x.owed = false ∨ x.scheduler.hasActive mine = true ∨ ∃ k', k' ≠ k ∧ x.Watches mine k'
  | op => ∀ i, Writes x.scheduler i op → mine i = true → x.scheduler.activeAt i = true →
      (∃ j, j ≠ i ∧ mine j = true ∧ x.scheduler.activeAt j = true) ∨ ∃ k, x.Watches mine k

end Signals

end JiuwenSpec.Controller

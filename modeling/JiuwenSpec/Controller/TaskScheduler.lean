import JiuwenSpec.Base.Assoc
import JiuwenSpec.Base.Run

/-!
# The task scheduler

The scheduling loop starts a wrapper for a submitted task; the wrapper runs the task's executor and
writes the status; `pause_task` and `cancel_task` stop the wrapper. No section under the lock of
the scheduler or of the task manager awaits anything, so these locks are always free, and a step
goes from one real suspension of its coroutine to the next. Records of tasks are not removed or
replaced here.
Source: `core/controller/modules/task_scheduler.py`, `task_manager.py`.
-/

namespace JiuwenSpec.Controller

open Base

inductive TaskStatus where
  | submitted
  | working
  | paused
  | inputRequired
  | completed
  | canceled
  | failed
  | waiting
  | unknown
deriving DecidableEq

/-- A stored task. The other fields record what happened to it: how often it was submitted, whether
an execution has set COMPLETED or FAILED since, and whether a cancellation has been confirmed. -/
structure Task where
  status : TaskStatus
  submissions : Nat
  settled : Bool
  canceled : Bool
deriving DecidableEq

inductive WrapperPhase where
  /-- `create_task` was called, and nothing has run. -/
  | created
  /-- In the executor, or writing one of its chunks to the stream. -/
  | working
  /-- Publishing the terminal event. -/
  | publishing
  /-- Publishing a failure, in the handler of an exception or a timeout. -/
  | reporting
  /-- Sending the completion signal of the session. -/
  | signalling
  | done
deriving DecidableEq

/-- `_execute_task_wrapper`; `cancelling` tells that `cancel()` was called and is not delivered. -/
structure Wrapper where
  task : Nat
  phase : WrapperPhase
  cancelling : Bool
deriving DecidableEq

/-- An entry of `_running_tasks`: whether there is an executor, and the wrapper. -/
structure RunningTask where
  executor : Bool
  wrapper : Nat

/-- `pause_task` or `cancel_task`. -/
inductive CallKind where
  | pause
  | cancel
deriving DecidableEq

def CallKind.status : CallKind → TaskStatus
  | .pause => .paused
  | .cancel => .canceled

inductive CallPhase where
  /-- The executor is asked, and then told. -/
  | asking
  /-- A wrapper is awaited; the status was written in the given submission. -/
  | joining (wrapper submission : Nat)
  | returned (result : Bool)
deriving DecidableEq

/-- A call of `pause_task` or `cancel_task`. -/
structure Call where
  kind : CallKind
  task : Nat
  phase : CallPhase
deriving DecidableEq

inductive Terminal where
  | completion
  | interaction
  | failure
deriving DecidableEq

def Terminal.status : Terminal → TaskStatus
  | .completion => .completed
  | .interaction => .inputRequired
  | .failure => .failed

def Terminal.final : Terminal → Bool
  | .interaction => false
  | _ => true

structure TaskScheduler where
  maxConcurrentTasks : Nat
  tasks : List Task
  wrappers : List Wrapper
  owned : List (Nat × Nat)
  running : List (Nat × RunningTask)
  calls : List Call

inductive WrapperEvent where
  /-- It starts, with an executor for the type of the task or without. -/
  | begin (found : Bool)
  /-- The executor yields a terminal chunk. -/
  | finish (e : Terminal)
  /-- The executor's stream ends without one. -/
  | exhausted
  /-- An exception or the timeout ends `execute_task`. -/
  | error
  | published
  /-- The completion signal is sent. -/
  | exit

/-- One step; `i` is a task, `k` a wrapper, and `n` a call. -/
inductive SchedulerOp where
  /-- `add_task` of a submitted task. -/
  | add
  /-- A task is submitted again. -/
  | submit (i : Nat)
  /-- The scheduling loop comes to a task of its scan. -/
  | dispatch (i : Nat)
  | advance (k : Nat) (e : WrapperEvent)
  /-- The wrapper meets its cancellation. -/
  | deliver (k : Nat)
  /-- The executor catches the cancellation and goes on. -/
  | ignore (k : Nat)
  | call (kind : CallKind) (i : Nat)
  /-- The executor may be stopped and was told so, or not. -/
  | reply (n : Nat) (ok : Bool)
  /-- The awaited wrapper has ended, without an exception of its own or with one. -/
  | joined (n : Nat) (ok : Bool)

namespace TaskScheduler

def init (limit : Nat) : TaskScheduler := ⟨limit, [], [], [], [], []⟩

def setTask (s : TaskScheduler) (i : Nat) (t : Task) : TaskScheduler :=
  { s with tasks := s.tasks.set i t }

def setWrapper (s : TaskScheduler) (k : Nat) (w : Wrapper) : TaskScheduler :=
  { s with wrappers := s.wrappers.set k w }

def addCall (s : TaskScheduler) (c : Call) : TaskScheduler := { s with calls := s.calls ++ [c] }

def setCall (s : TaskScheduler) (n : Nat) (c : Call) : TaskScheduler :=
  { s with calls := s.calls.set n c }

/-- `update_task_status`. -/
def updateStatus (s : TaskScheduler) (i : Nat) (status : TaskStatus) : TaskScheduler :=
  match s.tasks[i]? with
  | some t => s.setTask i { t with status }
  | none => s

def settle (s : TaskScheduler) (i : Nat) (status : TaskStatus) (final : Bool) : TaskScheduler :=
  match s.tasks[i]? with
  | some t => s.setTask i { t with status, settled := t.settled || final }
  | none => s

def ownedLive (s : TaskScheduler) (i : Nat) : Bool :=
  match assocGet? i s.owned with
  | none => false
  | some k =>
    match s.wrappers[k]? with
    | none => false
    | some w => decide (w.phase ≠ .done)

/-- A task leaves `_running_tasks`. -/
def unregister (s : TaskScheduler) (i : Nat) : TaskScheduler :=
  { s with running := assocDelete i s.running }

def unregisterOwn (s : TaskScheduler) (i k : Nat) : TaskScheduler :=
  match assocGet? i s.running with
  | some r => if r.wrapper = k then s.unregister i else s
  | none => s

/-- The `finally` of a wrapper up to the completion signal. -/
def cleanup (s : TaskScheduler) (k : Nat) (w : Wrapper) : TaskScheduler :=
  (s.unregisterOwn w.task k).setWrapper k { w with phase := .signalling, cancelling := false }

def dispatch (s : TaskScheduler) (i : Nat) : TaskScheduler :=
  match s.tasks[i]? with
  | none => s
  | some t =>
    if t.status ≠ .submitted ∨ s.maxConcurrentTasks ≤ s.running.length ∨
      (assocGet? i s.running).isSome ∨ s.ownedLive i then s
    else
      { s with
        wrappers := s.wrappers ++ [⟨i, .created, false⟩]
        owned := assocSet i s.wrappers.length s.owned
        running := assocSet i ⟨false, s.wrappers.length⟩ s.running }

def setExecutor (s : TaskScheduler) (i : Nat) : TaskScheduler :=
  { s with
    running := s.running.map fun e => (e.1, if e.1 = i then ⟨true, e.2.wrapper⟩ else e.2) }

/-- The start of `execute_task`: the entry gets the executor and the task is WORKING. The status
before is not looked at. -/
def begin (s : TaskScheduler) (k : Nat) (w : Wrapper) (found : Bool) : TaskScheduler :=
  if found then
    ((s.setExecutor w.task).settle w.task .working false).setWrapper k { w with phase := .working }
  else (s.settle w.task .failed true).setWrapper k { w with phase := .reporting }

/-- `cancel()` of a wrapper. -/
def cancelWrapper (s : TaskScheduler) (k : Nat) : TaskScheduler :=
  match s.wrappers[k]? with
  | some w => if w.phase = .done then s else s.setWrapper k { w with cancelling := true }
  | none => s

/-- The second part of a call: the wrapper is cancelled, and the status written. -/
def stop (s : TaskScheduler) (i : Nat) (kind : CallKind) (r : RunningTask) : TaskScheduler :=
  (s.cancelWrapper r.wrapper).updateStatus i kind.status

def call (s : TaskScheduler) (kind : CallKind) (i : Nat) : TaskScheduler :=
  match s.tasks[i]? with
  | none => s.addCall ⟨kind, i, .returned false⟩
  | some t =>
    if kind = .cancel ∧ t.status = .submitted then
      (s.setTask i { t with status := .canceled, canceled := true }).addCall
        ⟨kind, i, .returned true⟩
    else if kind = .cancel ∧ (t.status = .canceled ∨ t.status = .completed ∨ t.status = .failed)
    then s.addCall ⟨kind, i, .returned true⟩
    else
      match assocGet? i s.running with
      | none => s.addCall ⟨kind, i, .returned false⟩
      | some r =>
        if r.executor then s.addCall ⟨kind, i, .asking⟩
        else (s.stop i kind r).addCall ⟨kind, i, .joining r.wrapper t.submissions⟩

def reply (s : TaskScheduler) (n : Nat) (c : Call) (ok : Bool) : TaskScheduler :=
  match s.tasks[c.task]?, assocGet? c.task s.running with
  | some t, some r =>
    if ok then
      (s.stop c.task c.kind r).setCall n { c with phase := .joining r.wrapper t.submissions }
    else s.setCall n { c with phase := .returned false }
  | _, _ => s.setCall n { c with phase := .returned false }

def confirm (s : TaskScheduler) (i submission : Nat) : TaskScheduler :=
  match s.tasks[i]? with
  | some t => if t.submissions = submission then s.setTask i { t with canceled := true } else s
  | none => s

def joined (s : TaskScheduler) (n : Nat) (c : Call) (submission : Nat) (ok : Bool) :
    TaskScheduler :=
  (if ok ∧ c.kind = .cancel then s.confirm c.task submission else s).setCall n
    { c with phase := .returned ok }

def advance (s : TaskScheduler) (k : Nat) (w : Wrapper) : WrapperEvent → TaskScheduler
  | .begin found => if w.phase = .created then s.begin k w found else s
  | .finish e =>
    if w.phase = .working then
      ((s.settle w.task e.status e.final).unregister w.task).setWrapper k
        { w with phase := .publishing }
    else s
  | .exhausted => if w.phase = .working then s.cleanup k w else s
  | .error =>
    if w.phase = .working ∨ w.phase = .publishing then
      (s.settle w.task .failed true).setWrapper k { w with phase := .reporting }
    else s
  | .published => if w.phase = .publishing ∨ w.phase = .reporting then s.cleanup k w else s
  | .exit => if w.phase = .signalling then s.setWrapper k { w with phase := .done } else s

/-- A cancellation is delivered. A wrapper that has not started ends without its `finally`. -/
def deliver (s : TaskScheduler) (k : Nat) (w : Wrapper) : TaskScheduler :=
  match w.phase with
  | .created | .signalling => s.setWrapper k { w with phase := .done }
  | .working | .publishing | .reporting => s.cleanup k w
  | .done => s

def ended (s : TaskScheduler) (k : Nat) : Bool := (s.wrappers[k]?).all fun w => w.phase = .done

/-- One step; one that does not fit does nothing. -/
def step (s : TaskScheduler) : SchedulerOp → TaskScheduler
  | .add => { s with tasks := s.tasks ++ [⟨.submitted, 1, false, false⟩] }
  | .submit i =>
    match s.tasks[i]? with
    | some t => s.setTask i ⟨.submitted, t.submissions + 1, false, false⟩
    | none => s
  | .dispatch i => s.dispatch i
  | .advance k e =>
    match s.wrappers[k]? with
    | some w => if w.cancelling then s else s.advance k w e
    | none => s
  | .deliver k =>
    match s.wrappers[k]? with
    | some w => if w.cancelling then s.deliver k w else s
    | none => s
  | .ignore k =>
    match s.wrappers[k]? with
    | some w =>
      if w.cancelling ∧ w.phase = .working then s.setWrapper k { w with cancelling := false }
      else s
    | none => s
  | .call kind i => s.call kind i
  | .reply n ok =>
    match s.calls[n]? with
    | some c => if c.phase = .asking then s.reply n c ok else s
    | none => s
  | .joined n ok =>
    match s.calls[n]? with
    | some c =>
      match c.phase with
      | .joining k submission => if s.ended k then s.joined n c submission ok else s
      | _ => s
    | none => s

end TaskScheduler

end JiuwenSpec.Controller

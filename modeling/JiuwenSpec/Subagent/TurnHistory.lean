import JiuwenSpec.Base.Run
import JiuwenSpec.Base.TextLines

/-!
# The turns of a subagent

A control accepts inputs for one subagent into the queue of its instance, whose worker claims one
after another. A turn is put together from the metadata of the subagent and the instance when the
status of a turn is set. A step goes from one suspension to the next.
Source: `harness/subagent_runtime/control.py`, `instance.py`.
-/

namespace JiuwenSpec.Subagent

open Base

/-- `UserInputOp`; task ids are named by the order in which they are made. -/
structure UserInput where
  taskId : Nat
  query : Text
deriving DecidableEq

/-- `SubagentOp`. -/
inductive QueuedOp where
  | userInput (op : UserInput)
  | shutdown

/-- `SubagentStatusKind`, as far as an instance sets it. -/
inductive StatusKind where
  | pendingInit
  | running
  | interrupted
  | completed
  | errored
  | closed
deriving DecidableEq

def StatusKind.isFinal : StatusKind → Bool
  | .pendingInit | .running | .interrupted => false
  | .completed | .errored | .closed => true

/-- The outcome of a turn, its `closed_reason`. -/
inductive TurnOutcome where
  | completed
  | cancelled
  | failed
deriving DecidableEq

def resolveTurnOutcome : StatusKind → Option TurnOutcome
  | .completed => some .completed
  | .interrupted => some .cancelled
  | .errored => some .failed
  | .pendingInit | .running | .closed => none

/-- `SubagentTurn`; the empty task id is `none`. -/
structure SubagentTurn where
  taskId : Option Nat
  prompt : Text
  answer : Option Text
  closedReason : Option TurnOutcome

inductive WorkerPhase where
  /-- It waits for the next op. -/
  | idle
  /-- It runs a claimed input. -/
  | running (op : UserInput)
  /-- The execution has given its result, and goes on to its end. -/
  | settled (op : UserInput)
  /-- It has ended. -/
  | done
deriving DecidableEq

structure SubagentInstance where
  ops : List QueuedOp
  phase : WorkerPhase
  status : StatusKind
  interruptRequested : Bool
  lastTaskId : Option Nat
  lastOutput : Option Text
  closed : Bool

/-- `SubagentMetadata`. -/
structure TurnMetadata where
  currentTaskId : Option Nat
  taskDescription : Text

/-- How a claimed input ends. A timeout is an error. -/
inductive TurnEnding where
  | completed (output : Text)
  | errored
  | interrupted

/-- The control and the instance of one subagent. `accepted` has the inputs a task id was returned
for, and `endings` those whose turn has ended. -/
structure TurnHistory where
  instance? : Option SubagentInstance
  metadata : Option TurnMetadata
  nextTask : Nat
  turns : List SubagentTurn
  accepted : List UserInput
  endings : List (UserInput × TurnEnding)

inductive TurnOp where
  | spawn (query : Text)
  | resume (taskDescription : Text)
  /-- `send_input`, from the end of its interrupt on. -/
  | sendInput (query : Text) (interrupted : Bool)
  | interrupt
  /-- `shutdown`, from the end of its interrupt on; `ok` tells whether a close of the execution
  succeeds. -/
  | shutdown (ok : Bool)
  /-- The worker takes the next op. -/
  | take (ok : Bool)
  /-- `on_result`. -/
  | result (output : Option Text)
  | returned
  /-- The run raises, or times out. -/
  | raised
  | cancelled
  /-- The manager drops a closed instance. -/
  | removed
  /-- The registry drops the metadata. -/
  | released

def queuedInputs : List QueuedOp → List UserInput
  | [] => []
  | .userInput op :: ops => op :: queuedInputs ops
  | .shutdown :: ops => queuedInputs ops

theorem queuedInputs_append (ops ops' : List QueuedOp) :
    queuedInputs (ops ++ ops') = queuedInputs ops ++ queuedInputs ops' := by
  induction ops with
  | nil => rfl
  | cons op ops ih => cases op <;> simp [queuedInputs, ih]

def taskDescriptionMaxLen : Nat := 2000

def truncateTaskDescription (query : Text) : Text := (strip query).take taskDescriptionMaxLen

def SubagentInstance.new : SubagentInstance := ⟨[], .idle, .pendingInit, false, none, none, false⟩

def SubagentInstance.enqueue (inst : SubagentInstance) (op : QueuedOp) : SubagentInstance :=
  { inst with ops := inst.ops ++ [op] }

/-- `_finalize_resume_idle`: an instance without an active turn counts as completed. -/
def SubagentInstance.finalizeResumeIdle (inst : SubagentInstance) : SubagentInstance :=
  if (inst.phase = .idle ∨ inst.phase = .done) ∧ inst.ops = [] ∧
      (inst.status = .pendingInit ∨ inst.status = .running) then
    { inst with status := .completed }
  else inst

namespace TurnHistory

def init : TurnHistory := ⟨none, none, 0, [], [], []⟩

/-- The task id that a turn is filed under: the last completed one, or else the one accepted
last. -/
def turnTaskId (inst : SubagentInstance) (metadata : TurnMetadata) : Option Nat :=
  inst.lastTaskId.or metadata.currentTaskId

def appendTurn (s : TurnHistory) (inst : SubagentInstance) (metadata : TurnMetadata)
    (status : StatusKind) : TurnHistory :=
  if turnTaskId inst metadata ≠ none ∧
      turnTaskId inst metadata ∈ s.turns.map SubagentTurn.taskId then s
  else
    { s with
      turns := s.turns ++ [⟨turnTaskId inst metadata, metadata.taskDescription,
        if status = .completed then inst.lastOutput else none, resolveTurnOutcome status⟩] }

def setStatus (s : TurnHistory) (inst : SubagentInstance) (status : StatusKind) : TurnHistory :=
  match s.metadata with
  | some metadata =>
    { s with instance? := some { inst with status } }.appendTurn inst metadata status
  | none => { s with instance? := some { inst with status } }

def settle (s : TurnHistory) (op : UserInput) (ending : TurnEnding) : TurnHistory :=
  { s with endings := s.endings ++ [(op, ending)] }

def accept (s : TurnHistory) (inst : SubagentInstance) (metadata : Option TurnMetadata)
    (query : Text) : TurnHistory :=
  { s with
    instance? := some (inst.enqueue (.userInput ⟨s.nextTask, query⟩))
    metadata
    nextTask := s.nextTask + 1
    accepted := s.accepted ++ [⟨s.nextTask, query⟩] }

def handleShutdown (s : TurnHistory) (inst : SubagentInstance) (ok : Bool) : TurnHistory :=
  if ok then s.setStatus { inst with phase := .done, closed := true } .closed
  else { s with instance? := some { inst with phase := .done } }

def takeOp (s : TurnHistory) (inst : SubagentInstance) (ok : Bool) : TurnHistory :=
  match inst.phase, inst.ops with
  | .idle, .userInput op :: ops =>
    { s with
      instance? := some { inst with
        ops, phase := .running op, status := .running, interruptRequested := false } }
  | .idle, .shutdown :: ops => s.handleShutdown { inst with ops } ok
  | _, _ => s

/-- `on_result` and `_settle_turn`; a second result is an error. -/
def result (s : TurnHistory) (inst : SubagentInstance) (output : Option Text) : TurnHistory :=
  match inst.phase, output with
  | .running op, some output =>
    (s.settle op (.completed output)).setStatus
      { inst with phase := .settled op, lastTaskId := some op.taskId, lastOutput := some output }
      .completed
  | .running op, none =>
    (s.settle op .errored).setStatus { inst with phase := .settled op } .errored
  | .settled _, _ => s.setStatus { inst with phase := .idle } .errored
  | _, _ => s

/-- The run raises; the status is set unless it is final. -/
def raised (s : TurnHistory) (inst : SubagentInstance) : TurnHistory :=
  match inst.phase with
  | .running op =>
    if inst.status.isFinal then
      { s.settle op .errored with instance? := some { inst with phase := .idle } }
    else (s.settle op .errored).setStatus { inst with phase := .idle } .errored
  | .settled _ =>
    if inst.status.isFinal then { s with instance? := some { inst with phase := .idle } }
    else s.setStatus { inst with phase := .idle } .errored
  | .idle | .done => s

/-- The worker behind `_on_turn_cancelled`: a cancellation that was not requested ends it. -/
def afterCancelled (inst : SubagentInstance) : SubagentInstance :=
  { inst with
    phase := if inst.interruptRequested then .idle else .done
    interruptRequested := false }

/-- `_on_turn_cancelled`. -/
def cancelled (s : TurnHistory) (inst : SubagentInstance) : TurnHistory :=
  match inst.phase with
  | .running op =>
    if inst.status.isFinal then
      { s.settle op .interrupted with instance? := some (afterCancelled inst) }
    else (s.settle op .interrupted).setStatus (afterCancelled inst) .interrupted
  | .settled _ =>
    if inst.status.isFinal then { s with instance? := some (afterCancelled inst) }
    else s.setStatus (afterCancelled inst) .interrupted
  | .idle | .done => s

def step (s : TurnHistory) : TurnOp → TurnHistory
  | .spawn query =>
    if s.instance?.any fun inst => !inst.closed then s
    else s.accept .new (some ⟨some s.nextTask, truncateTaskDescription query⟩) query
  | .resume taskDescription =>
    if s.instance?.any fun inst => !inst.closed then
      { s with instance? := s.instance?.map .finalizeResumeIdle }
    else
      { s with
        instance? := some SubagentInstance.new.finalizeResumeIdle
        metadata := some ⟨none, taskDescription⟩ }
  | .sendInput query interrupted =>
    match s.instance? with
    | some inst =>
      if inst.closed ∧ interrupted = false then s
      else
        s.accept { inst with status := .pendingInit }
          (s.metadata.map fun _ => ⟨some s.nextTask, truncateTaskDescription query⟩) query
    | none => s
  | .interrupt =>
    match s.instance? with
    | some inst =>
      if inst.phase = .idle ∨ inst.phase = .done then s
      else { s with instance? := some { inst with interruptRequested := true } }
    | none => s
  | .shutdown ok =>
    match s.instance? with
    | some inst =>
      if inst.closed then s
      else if inst.phase = .done then s.handleShutdown inst ok
      else { s with instance? := some (inst.enqueue .shutdown) }
    | none => s
  | .take ok =>
    match s.instance? with
    | some inst => s.takeOp inst ok
    | none => s
  | .result output =>
    match s.instance? with
    | some inst => s.result inst output
    | none => s
  | .returned =>
    match s.instance? with
    | some inst =>
      match inst.phase with
      | .settled _ => { s with instance? := some { inst with phase := .idle } }
      | .running _ => s.raised inst
      | .idle | .done => s
    | none => s
  | .raised =>
    match s.instance? with
    | some inst => s.raised inst
    | none => s
  | .cancelled =>
    match s.instance? with
    | some inst => s.cancelled inst
    | none => s
  | .removed =>
    if s.instance?.any fun inst => inst.closed then { s with instance? := none } else s
  | .released => { s with metadata := none }

end TurnHistory

end JiuwenSpec.Subagent

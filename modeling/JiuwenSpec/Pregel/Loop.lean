import JiuwenSpec.Pregel.Channels

/-!
# The superstep loop

One superstep activates the ready nodes, or the nodes a checkpoint left pending, consumes
their channels, runs their tasks together, and delivers the messages of all of them. When a
task is interrupted or fails nothing is delivered: the messages of the tasks that succeeded
and the names of the others go into a checkpoint, from which a later run resumes.
Source: `core/graph/pregel/engine.py`, `core/graph/pregel/task.py`, `core/graph/store/base.py`.
-/

namespace JiuwenSpec.Graph

/-- How a task that is done ended; an interrupt is returned as a value. -/
inductive TaskResult where
  | messages (messages : List Message)
  | interrupt
  | exception
  deriving DecidableEq

/-- `TASK_STATUS_INTERRUPT` and `TASK_STATUS_ERROR`. -/
inductive TaskStatus where
  | interrupt
  | error
  deriving DecidableEq

structure PendingNode where
  nodeName : String
  status : TaskStatus

inductive StepError where
  | exception
  | interrupt
  | recursion
  | unknownTarget (target : String)

/-- What becomes of the submitted tasks: those that are done when waiting ends, in the order
in which they are handled, and those that are still pending then. -/
structure Round where
  done : List (String × TaskResult)
  pending : List String

/-- `TaskExecutorPool`: what was collected from the tasks. -/
structure Executor where
  succeedMessages : List Message := []
  failed : List PendingNode := []

namespace Executor

/-- `_commit_failure`; the first status of a node stays. -/
def commitFailure (ex : Executor) (status : TaskStatus) (name : String) : Executor :=
  if name ∈ ex.failed.map (·.nodeName) then ex
  else { ex with failed := ex.failed ++ [⟨name, status⟩] }

def collect (ex : Executor) : String × TaskResult → Executor
  | (_, .messages ms) => { ex with succeedMessages := ex.succeedMessages ++ ms }
  | (name, .interrupt) => ex.commitFailure .interrupt name
  | (name, .exception) => ex.commitFailure .error name

end Executor

/-- `wait_all`: the pending tasks are cancelled; an exception goes before an interrupt. -/
def waitAll (r : Round) : Executor × Option StepError :=
  (r.pending.foldl (·.commitFailure .error) (r.done.foldl Executor.collect {}),
    if r.done.any (·.2 = .exception) then some .exception
    else if r.done.any (·.2 = .interrupt) then some .interrupt
    else none)

/-- `Pregel`, its channels apart: they belong to the graph but change with every run. -/
structure Pregel where
  nodes : List String
  initial : String := START

/-- `GraphState`, what a checkpoint holds. -/
structure GraphState where
  step : Nat
  channelValues : List (String × List Saved)
  pendingBuffer : List Message
  pendingNode : List PendingNode
  nodeVersion : String → Nat

/-- `PregelLoop`. -/
structure LoopState where
  manager : ChannelManager
  step : Nat
  maxStep : Int
  retryPendingNodes : List PendingNode
  nodeVersion : String → Nat

def maxRecursiveLimit : Int := 10000

/-- `create_inner_config`: a limit of zero stands for the default. -/
def recursionLimit (limit : Int) : Int := if limit = 0 then maxRecursiveLimit else limit

/-- How a superstep ends: the run is over, there may be more, or it raised. -/
inductive StepResult where
  | finished (s : LoopState)
  | more (s : LoopState)
  | raised (s : LoopState) (executor : Executor) (error : StepError)

def StepResult.state : StepResult → LoopState
  | .finished s => s
  | .more s => s
  | .raised s _ _ => s

namespace GraphState

def isResume (state : GraphState) : Bool :=
  !state.pendingNode.isEmpty || !state.pendingBuffer.isEmpty || !state.channelValues.isEmpty

end GraphState

namespace LoopState

def resume (channels : List Channel) (limit : Int) (state : GraphState) : LoopState where
  manager := ((ChannelManager.init channels).restore state.channelValues).bufferAll
    state.pendingBuffer
  step := state.step
  maxStep := state.step + recursionLimit limit
  retryPendingNodes := state.pendingNode
  nodeVersion := state.nodeVersion

/-- A run that starts afresh, and the error of the first flush if there is one. -/
def start (g : Pregel) (channels : List Channel) (limit : Int) : LoopState × Option StepError :=
  let (m, err) := ((ChannelManager.init channels).bufferMessage
    (.trigger g.initial g.initial)).flush
  ({ manager := m
     step := 0
     maxStep := recursionLimit limit
     retryPendingNodes := []
     nodeVersion := fun _ => 0 }, err.map fun e => .unknownTarget e.target)

/-- `PregelLoop.init`, with the checkpoint of the session and namespace if there is one. -/
def init (g : Pregel) (channels : List Channel) (limit : Int) :
    Option GraphState → LoopState × Option StepError
  | some state => if state.isResume then (resume channels limit state, none)
    else start g channels limit
  | none => start g channels limit

/-- The ready nodes of the graph, without `END`. -/
def readyNodes (g : Pregel) (s : LoopState) : List String :=
  s.manager.ready.filter (fun n => n ∈ g.nodes ∧ n ≠ END)

/-- The nodes of this superstep; a node that is not retried gets a new version. -/
def activate (g : Pregel) (s : LoopState) : LoopState × List String :=
  if s.retryPendingNodes.isEmpty then
    let active := s.readyNodes g
    ({ s with nodeVersion := fun n => s.nodeVersion n + if n ∈ active then 1 else 0 }, active)
  else ({ s with retryPendingNodes := [] }, s.retryPendingNodes.map (·.nodeName))

/-- `manager.consume` for every active node. -/
def consumeAll (s : LoopState) (active : List String) : LoopState :=
  { s with manager := active.foldl ChannelManager.consume s.manager }

/-- Buffer the messages of the tasks, flush, and go on to the next superstep. -/
def deliver (s : LoopState) (ex : Executor) : StepResult :=
  match (s.manager.bufferAll ex.succeedMessages).flush with
  | (m, none) => .more { s with manager := m, step := s.step + 1 }
  | (m, some e) => .raised { s with manager := m } ex (.unknownTarget e.target)

/-- `_run_step`, given what becomes of the tasks. -/
def runStep (g : Pregel) (s : LoopState) (r : Round) : StepResult :=
  match s.activate g with
  | (s, []) => if s.manager.isEmpty then .finished s else s.deliver {}
  | (s, active) =>
    if s.maxStep < s.step then .raised s {} .recursion
    else
      let s := s.consumeAll active
      match waitAll r with
      | (ex, some e) => .raised s ex e
      | (ex, none) => s.deliver ex

/-- `_save_state_on_error`: the messages collected by the executor join those buffered. -/
def saveStateOnError (s : LoopState) (ex : Executor) : GraphState where
  step := s.step
  channelValues := s.manager.snapshot
  pendingBuffer := s.manager.buffer ++ ex.succeedMessages
  pendingNode := ex.failed
  nodeVersion := s.nodeVersion

end LoopState

namespace Round

def succeeded (r : Round) : List String :=
  r.done.filterMap fun p => match p.2 with
    | .messages _ => some p.1
    | _ => none

/-- The nodes whose tasks were interrupted, failed or were cancelled. -/
def failures (r : Round) : List String :=
  (r.done.filterMap fun p => match p.2 with
    | .messages _ => none
    | _ => some p.1) ++ r.pending

/-- The round is about the active nodes, each task that succeeds routes the messages its node
routes, and a task is left pending only because another one raised. -/
structure Answers (r : Round) (tasks : String → List Message) (active : List String) : Prop where
  nodes : (r.done.map Prod.fst ++ r.pending).Perm active
  routed : ∀ n ms, (n, TaskResult.messages ms) ∈ r.done → ms = tasks n
  pending : r.pending ≠ [] → ∃ n, (n, TaskResult.exception) ∈ r.done

/-- The round in which the given nodes are interrupted and the other active ones succeed. -/
def interrupting (tasks : String → List Message) (active failing : List String) : Round where
  done := active.map fun n => (n, if n ∈ failing then .interrupt else .messages (tasks n))
  pending := []

theorem interrupting_answers (tasks : String → List Message) (active failing : List String) :
    (interrupting tasks active failing).Answers tasks active := by
  refine ⟨?_, fun n ms h => ?_, fun h => absurd rfl h⟩
  · rw [interrupting, List.append_nil, List.map_map]
    exact List.Perm.of_eq (List.map_id active)
  · obtain ⟨m, -, hm⟩ := List.mem_map.mp h
    by_cases hf : m ∈ failing
    · simp [hf] at hm
    · simp only [hf, if_false, Prod.mk.injEq, TaskResult.messages.injEq] at hm
      rw [← hm.2, hm.1]

end Round

end JiuwenSpec.Graph

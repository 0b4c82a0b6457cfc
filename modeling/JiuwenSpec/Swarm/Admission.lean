import JiuwenSpec.Base.Run
import JiuwenSpec.Base.Semaphore
import Mathlib.Data.Int.Basic

/-!
# Two-level admission

A workflow is admitted with a ticket, or not at all; an agent of it takes a slot of its run and then
one of all agents, and gives both back when it ends or is cancelled. An operation is what happens
between two suspensions of the loop: a party is called, gets its turn, or is cancelled.
Source: `agent_teams/workflow/concurrency.py`, `agent_teams/workflow/engine/cap.py`, the gates in
`agent_teams/workflow/engine/primitives.py`, the launch, the end and `relaunch` of a run in
`agent_teams/workflow/tool_swarmflow.py`, and `asyncio.Semaphore`. The body of the lock never
suspends, so admission and release are one step each.
-/

namespace JiuwenSpec.Admission

open Base

structure ConcurrencyLimits where
  maxWorkflows : Int := 16
  agentsPerRun : Option Int := none
  maxAgentsTotal : Int := 64

def resolveAgentsPerRunCap (cpuCount : Option Nat) (agentsPerRun : Option Int) : Int :=
  match agentsPerRun with
  | some n => max 1 n
  | none =>
    let cpus : Nat := if cpuCount.getD 0 = 0 then 4 else cpuCount.getD 0
    max 1 (min 16 ((cpus : Int) - 2))

/-- `validate_swarmflow_concurrency`: the resolved cap, or the reason of the error. -/
def validateSwarmflowConcurrency (cpuCount : Option Nat) (limits : ConcurrencyLimits) :
    Except String Int :=
  let l2 := resolveAgentsPerRunCap cpuCount limits.agentsPerRun
  if limits.maxWorkflows < 1 then .error "swarmflow_concurrency.max_workflows must be >= 1"
  else if limits.maxAgentsTotal < 1 then
    .error "swarmflow_concurrency.max_agents_total must be >= 1"
  else if ∃ n ∈ limits.agentsPerRun, n < 1 then
    .error "swarmflow_concurrency.agents_per_run must be >= 1 when set"
  else if limits.maxAgentsTotal < l2 then
    .error ("swarmflow_concurrency: agents_per_run effective cap (" ++ toString l2 ++
      ") must be <= max_agents_total (" ++ toString limits.maxAgentsTotal ++ ")")
  else if limits.maxAgentsTotal < limits.maxWorkflows then
    .error ("swarmflow_concurrency: max_agents_total (" ++ toString limits.maxAgentsTotal ++
      ") must be >= max_workflows (" ++ toString limits.maxWorkflows ++ ")")
  else .ok l2

inductive RunPhase where
  | admitted
  | resumed
  | ended
  deriving DecidableEq

structure WorkflowRun where
  ticket : Nat
  phase : RunPhase

/-- The tickets of a `ConcurrencyGovernor`, and every run that was admitted. -/
structure TicketTable where
  nextTicket : Nat := 0
  activeTickets : List Nat := []
  runs : List WorkflowRun := []

namespace TicketTable

/-- `admit_workflow` has room. -/
def Admits (limits : ConcurrencyLimits) (t : TicketTable) : Prop :=
  (t.activeTickets.length : Int) < limits.maxWorkflows

instance (limits : ConcurrencyLimits) (t : TicketTable) : Decidable (t.Admits limits) :=
  inferInstanceAs (Decidable ((t.activeTickets.length : Int) < limits.maxWorkflows))

def mint (t : TicketTable) : TicketTable where
  nextTicket := t.nextTicket + 1
  activeTickets := t.activeTickets ++ [t.nextTicket]
  runs := t.runs ++ [⟨t.nextTicket, .admitted⟩]

def releaseWorkflow (t : TicketTable) (ticket : Nat) : TicketTable :=
  { t with activeTickets := t.activeTickets.erase ticket }

/-- The launch of a run fails, or its background task ends. A repeated release does nothing. -/
def close (t : TicketTable) (w : Nat) : TicketTable :=
  match t.runs[w]? with
  | none => t
  | some r => { t with runs := t.runs.set w { r with phase := .ended } }.releaseWorkflow r.ticket

/-- `relaunch`: a run that was paused goes on with the inputs it had; no ticket is minted. -/
def relaunch (t : TicketTable) (w : Nat) : TicketTable :=
  match t.runs[w]? with
  | none => t
  | some r =>
    if r.phase = .ended then { t with runs := t.runs.set w { r with phase := .resumed } } else t

end TicketTable

/-- Where an agent call is: outside of `gate.acquire()`, waiting for a slot of its run, with this
slot and no other, waiting for a slot of all agents, or in the backend. -/
inductive AgentPhase where
  | outside
  | perRun
  | between
  | global
  | running
  deriving DecidableEq

/-- An agent of a run. `mustCancel` is set while a `CancelledError` is due at a granted future. -/
structure Agent where
  run : Nat
  phase : AgentPhase := .outside
  mustCancel : Bool := false

def Agent.moveTo (ag : Agent) (phase : AgentPhase) : Agent :=
  { ag with phase := phase, mustCancel := false }

@[simp] theorem Agent.moveTo_run (ag : Agent) (phase : AgentPhase) :
    (ag.moveTo phase).run = ag.run := rfl

@[simp] theorem Agent.moveTo_phase (ag : Agent) (phase : AgentPhase) :
    (ag.moveTo phase).phase = phase := rfl

@[simp] theorem Agent.moveTo_moveTo (ag : Agent) (phase phase' : AgentPhase) :
    (ag.moveTo phase).moveTo phase' = ag.moveTo phase' := rfl

/-- The `RunAgentAdmission` of each run, and the agents. -/
structure AgentSlots where
  globalSem : Semaphore Nat
  perRunSems : List (Semaphore Nat) := []
  agents : List Agent := []

namespace AgentSlots

def setAgent (s : AgentSlots) (a : Nat) (ag : Agent) : AgentSlots :=
  { s with agents := s.agents.set a ag }

def setPerRun (s : AgentSlots) (w : Nat) (sem : Semaphore Nat) : AgentSlots :=
  { s with perRunSems := s.perRunSems.set w sem }

/-- `async with self._global_sem`, by an agent that has the slot of its run. -/
def acquireGlobal (s : AgentSlots) (a : Nat) (ag : Agent) : AgentSlots :=
  { s with globalSem := s.globalSem.acquire a }.setAgent a
    (ag.moveTo (if s.globalSem.Locked then .global else .running))

/-- `async with self._per_run_sem`, and what follows where a slot is free. -/
def acquirePerRun (s : AgentSlots) (a : Nat) (ag : Agent) : AgentSlots :=
  match s.perRunSems[ag.run]? with
  | none => s
  | some sem =>
    let s := s.setPerRun ag.run (sem.acquire a)
    if sem.Locked then s.setAgent a (ag.moveTo .perRun)
    else (s.setAgent a (ag.moveTo .between)).acquireGlobal a ag

def releasePerRun (s : AgentSlots) (a : Nat) (ag : Agent) : AgentSlots :=
  match s.perRunSems[ag.run]? with
  | none => s
  | some sem =>
    (s.setPerRun ag.run sem.release).setAgent a (ag.moveTo .outside)

/-- The agent has left the inner semaphore, which is `sem` then. -/
def exitGlobal (s : AgentSlots) (a : Nat) (ag : Agent) (sem : Semaphore Nat) : AgentSlots :=
  ({ s with globalSem := sem }.setAgent a
    (ag.moveTo .between)).releasePerRun a ag

/-- The agent leaves the queue of its run, which is `sem` then. -/
def exitPerRun (s : AgentSlots) (a : Nat) (ag : Agent) (sem : Semaphore Nat) : AgentSlots :=
  (s.setPerRun ag.run sem).setAgent a (ag.moveTo .outside)

/-- The loop gives an agent its turn. A waiter goes on where its future is granted or cancelled. -/
def turn (s : AgentSlots) (a : Nat) : AgentSlots :=
  match s.agents[a]? with
  | none => s
  | some ag =>
    match ag.phase with
    | .perRun =>
      match s.perRunSems[ag.run]? with
      | none => s
      | some sem =>
        match sem.get? a with
        | some .cancelled => s.exitPerRun a ag (sem.leave a)
        | some .granted =>
          if ag.mustCancel then s.exitPerRun a ag (sem.giveBack a)
          else
            ((s.setPerRun ag.run (sem.proceed a)).setAgent a
              (ag.moveTo .between)).acquireGlobal a ag
        | _ => s
    | .global =>
      match s.globalSem.get? a with
      | some .cancelled => s.exitGlobal a ag (s.globalSem.leave a)
      | some .granted =>
        if ag.mustCancel then s.exitGlobal a ag (s.globalSem.giveBack a)
        else
          { s with globalSem := s.globalSem.proceed a }.setAgent a
            (ag.moveTo .running)
      | _ => s
    | _ => s

/-- `task.cancel()` of an agent that waits: its future is cancelled, or where it was granted the
error is due at its turn. -/
def cancel (s : AgentSlots) (a : Nat) : AgentSlots :=
  match s.agents[a]? with
  | none => s
  | some ag =>
    match ag.phase with
    | .perRun =>
      match s.perRunSems[ag.run]? with
      | none => s
      | some sem =>
        (s.setPerRun ag.run (sem.cancel a)).setAgent a
          { ag with mustCancel := ag.mustCancel || decide (sem.get? a = some Future.granted) }
    | .global =>
      { s with globalSem := s.globalSem.cancel a }.setAgent a
        { ag with mustCancel := ag.mustCancel || decide (s.globalSem.get? a = some Future.granted) }
    | _ => s

def enter (s : AgentSlots) (a : Nat) : AgentSlots :=
  match s.agents[a]? with
  | none => s
  | some ag => if ag.phase = .outside then s.acquirePerRun a ag else s

/-- The backend returns, raises or is cancelled: both slots are given back. -/
def finish (s : AgentSlots) (a : Nat) : AgentSlots :=
  match s.agents[a]? with
  | none => s
  | some ag => if ag.phase = .running then s.exitGlobal a ag s.globalSem.release else s

/-- A coroutine of the run's script that calls agents; `parallel` makes any number of them. -/
def spawn (s : AgentSlots) (w : Nat) : AgentSlots :=
  if w < s.perRunSems.length then { s with agents := s.agents ++ [{ run := w }] } else s

end AgentSlots

/-- A `ConcurrencyGovernor` with everything that goes through it. -/
structure Governor where
  tickets : TicketTable
  slots : AgentSlots

inductive Op where
  | admitWorkflow
  | close (w : Nat)
  | relaunch (w : Nat)
  | spawn (w : Nat)
  | enter (a : Nat)
  | turn (a : Nat)
  | cancel (a : Nat)
  | finish (a : Nat)

namespace Governor

/-- `ConcurrencyGovernor(limits)`. -/
def init (limits : ConcurrencyLimits) : Governor where
  tickets := {}
  slots := { globalSem := { value := limits.maxAgentsTotal.toNat } }

/-- `admit_workflow`: a ticket and a gate, or nothing at the cap. -/
def admitWorkflow (limits : ConcurrencyLimits) (cap : Int) (g : Governor) : Governor :=
  if g.tickets.Admits limits then
    { tickets := g.tickets.mint
      slots := { g.slots with perRunSems := g.slots.perRunSems ++ [{ value := cap.toNat }] } }
  else g

def step (limits : ConcurrencyLimits) (cap : Int) (g : Governor) : Op → Governor
  | .admitWorkflow => g.admitWorkflow limits cap
  | .close w => { g with tickets := g.tickets.close w }
  | .relaunch w => { g with tickets := g.tickets.relaunch w }
  | .spawn w => { g with slots := g.slots.spawn w }
  | .enter a => { g with slots := g.slots.enter a }
  | .turn a => { g with slots := g.slots.turn a }
  | .cancel a => { g with slots := g.slots.cancel a }
  | .finish a => { g with slots := g.slots.finish a }

def Runs (g : Governor) (a : Nat) : Prop :=
  ∃ ag, g.slots.agents[a]? = some ag ∧ ag.phase = .running

def future (g : Governor) (a : Nat) : Option Future :=
  match g.slots.agents[a]? with
  | none => none
  | some ag =>
    match ag.phase with
    | .perRun => g.slots.perRunSems[ag.run]?.bind fun sem => sem.get? a
    | .global => g.slots.globalSem.get? a
    | _ => none

def Waits (g : Governor) (a : Nat) : Prop := g.future a = some .pending

/-- The wait of the agent is over, and the loop owes it a turn. -/
def Ready (g : Governor) (a : Nat) : Prop :=
  g.future a = some .granted ∨ g.future a = some .cancelled

def runningOf (g : Governor) (w : Nat) : Nat :=
  g.slots.agents.countP fun ag => decide (ag.run = w ∧ ag.phase = .running)

def runningAgents (g : Governor) : Nat :=
  g.slots.agents.countP fun ag => decide (ag.phase = .running)

def holdersOf (g : Governor) (w : Nat) : Nat :=
  g.slots.agents.countP fun ag =>
    decide (ag.run = w ∧ (ag.phase = .global ∨ ag.phase = .running))

def admittedRuns (g : Governor) : Nat :=
  g.tickets.runs.countP fun r => decide (r.phase = .admitted)

def runningWorkflows (g : Governor) : Nat :=
  g.tickets.runs.countP fun r => decide (r.phase ≠ .ended)

end Governor

end JiuwenSpec.Admission

import JiuwenSpec.Base.Json
import JiuwenSpec.Base.Run

/-!
# The leader runtimes of a team

Runs of one team share a pool entry. A run looks the entry up, inspects its session, resumes or
builds an agent, streams, and settles the entry it then finds under its names. A step goes from one
suspension of a call to the next; the lock of the pool is held over no suspension.
Source: `agent_teams/runtime/manager.py`, `dispatch.py`, `pool.py`, `core/runner/team_runner.py`.
-/

namespace JiuwenSpec.Team

open Base

inductive RuntimeState where
  | running
  | paused
deriving DecidableEq

inductive TeamDbState where
  | pendingCreate
  | created
  | cleaned
deriving DecidableEq

inductive RunActionKind where
  | create
  | newTeamInSession
  | coldRecover
  | resumeFromPause
  | rejectRunning
  | rejectOrphaned
  | rejectInconsistent
deriving DecidableEq

/-- `_REJECT_KINDS`. -/
def RunActionKind.rejects : RunActionKind → Bool
  | .rejectRunning | .rejectOrphaned | .rejectInconsistent => true
  | _ => false

/-- What `_inspect_session` reads. -/
structure Inspection where
  teamInDb : Bool
  teamInSession : Bool
  teamDbState : Option TeamDbState

/-- `decide_run_action`; the entry is one of the target session. -/
def decideRunAction (r : Inspection) (entry : Option RuntimeState) : RunActionKind :=
  if !r.teamInDb && r.teamInSession then
    if r.teamDbState = some .pendingCreate ∨ r.teamDbState = some .cleaned then .create
    else .rejectOrphaned
  else if !r.teamInDb && entry.isSome then .rejectInconsistent
  else if !r.teamInDb then .create
  else
    match entry with
    | none => if r.teamInSession then .coldRecover else .newTeamInSession
    | some .paused => .resumeFromPause
    | some .running => .rejectRunning

/-- An agent with its `ActiveTeam` entry; `cycles` counts the runs it was given to. -/
structure Leader where
  currentSessionId : Text
  state : RuntimeState
  stopped : Bool
  cycles : Nat

/-- Where a call is suspended; agents are named by their positions. -/
inductive ManagerPhase where
  /-- `activate` stops the entry of another session. -/
  | evicting (a : Nat)
  /-- In `_inspect_session`, with the entry looked up before. -/
  | inspecting (entry : Option Nat)
  /-- In the `pre_run` of RESUME_FROM_PAUSE. -/
  | resuming (a : Nat)
  /-- In the `pre_run` of CREATE or NEW_TEAM_IN_SESSION. -/
  | preparing
  /-- The agent is built, and its manifest is being flushed. -/
  | building (a : Nat)
  /-- `activate` has returned the agent, and the run goes on. -/
  | running (a cycle : Nat)
  /-- In `finalize` on an entry; `own` is what the run was started with. -/
  | settling (a : Nat) (own : Option (Nat × Nat))
  /-- In `stop_team`. -/
  | stopping (a : Nat)
  /-- In `pause`. -/
  | pausing (a : Nat)
  | ended

/-- A run, or a call of `stop_team` or `pause`. -/
structure ManagerCall where
  sessionId : Text
  phase : ManagerPhase

structure RuntimeManager where
  leaders : List Leader
  pool : Option Nat
  calls : List ManagerCall

/-- How a suspended call `c` goes on. -/
inductive ManagerEvent where
  /-- `stop_coordination` or `pause_coordination` returns, or raises. -/
  | stopped (ok : Bool)
  | inspected (r : Inspection)
  /-- An awaited call of `activate` raises. -/
  | failed
  /-- `pre_run` returns. -/
  | prepared
  /-- The manifest is flushed. -/
  | built
  /-- The agent's stream ends, or is closed. -/
  | finished
  /-- The entry is stopped and removed, or paused. -/
  | settled (stop ok : Bool)

inductive ManagerOp where
  | run (sessionId : Text)
  | stopTeam (sessionId : Text)
  | pause (sessionId : Text)
  | advance (c : Nat) (e : ManagerEvent)

namespace RuntimeManager

def init : RuntimeManager := ⟨[], none, []⟩

def setPhase (s : RuntimeManager) (c : Nat) (call : ManagerCall) (phase : ManagerPhase) :
    RuntimeManager := { s with calls := s.calls.set c { call with phase } }

def addCall (s : RuntimeManager) (sessionId : Text) (phase : ManagerPhase) : RuntimeManager :=
  { s with calls := s.calls ++ [⟨sessionId, phase⟩] }

/-- `_resolve_entry`. -/
def resolve (s : RuntimeManager) (sessionId : Text) : Option Nat :=
  match s.pool with
  | none => none
  | some a =>
    match s.leaders[a]? with
    | none => none
    | some g => if g.currentSessionId = sessionId then some a else none

def modify (s : RuntimeManager) (a : Nat) (f : Leader → Leader) : RuntimeManager :=
  match s.leaders[a]? with
  | some g => { s with leaders := s.leaders.set a (f g) }
  | none => s

/-- An agent is stopped, and the entry removed by the name of the team. -/
def remove (s : RuntimeManager) (a : Nat) : RuntimeManager :=
  { s.modify a (fun g => { g with stopped := true }) with pool := none }

def build (s : RuntimeManager) (sessionId : Text) : RuntimeManager :=
  { s with leaders := s.leaders ++ [⟨sessionId, .running, false, 1⟩] }

/-- `finalize`, up to its first suspension. -/
def finalize (s : RuntimeManager) (c : Nat) (call : ManagerCall) (own : Option (Nat × Nat)) :
    RuntimeManager :=
  match s.resolve call.sessionId with
  | some a => s.setPhase c call (.settling a own)
  | none => s.setPhase c call .ended

/-- `activate`, up to its first suspension: an entry of another session is stopped first. -/
def run (s : RuntimeManager) (sessionId : Text) : RuntimeManager :=
  match s.pool with
  | none => s.addCall sessionId (.inspecting none)
  | some a =>
    if s.resolve sessionId = some a then s.addCall sessionId (.inspecting (some a))
    else s.addCall sessionId (.evicting a)

def entryState (s : RuntimeManager) (entry : Option Nat) : Option RuntimeState :=
  entry.bind fun a => (s.leaders[a]?).map Leader.state

/-- `_apply_action`. A rejected run is finalized like any other. -/
def apply (s : RuntimeManager) (c : Nat) (call : ManagerCall) (entry : Option Nat) :
    RunActionKind → RuntimeManager
  | .rejectRunning | .rejectOrphaned | .rejectInconsistent => s.finalize c call none
  | .resumeFromPause =>
    match entry with
    | some a => s.setPhase c call (.resuming a)
    | none => s.setPhase c call .ended
  | .create | .newTeamInSession => s.setPhase c call .preparing
  | .coldRecover =>
    { (s.build call.sessionId).setPhase c call (.running s.leaders.length 1) with
      pool := some s.leaders.length }

/-- The resumed agent is given to the run, which starts its coordination again. -/
def resume (s : RuntimeManager) (c : Nat) (call : ManagerCall) (a : Nat) : RuntimeManager :=
  match s.leaders[a]? with
  | some g =>
    { s with
      leaders := s.leaders.set a ⟨g.currentSessionId, .running, false, g.cycles + 1⟩ }.setPhase
      c call (.running a (g.cycles + 1))
  | none => s

/-- A suspended call goes on; an event that does not fit its phase does nothing. -/
def advance (s : RuntimeManager) (c : Nat) (call : ManagerCall) : ManagerEvent → RuntimeManager
  | .stopped ok =>
    match call.phase with
    | .evicting a =>
      if ok then (s.remove a).setPhase c call (.inspecting none) else s.setPhase c call .ended
    | .stopping a => if ok then (s.remove a).setPhase c call .ended else s.setPhase c call .ended
    | .pausing a =>
      if ok then (s.modify a fun g => { g with state := .paused }).setPhase c call .ended
      else s.setPhase c call .ended
    | _ => s
  | .inspected r =>
    match call.phase with
    | .inspecting entry => s.apply c call entry (decideRunAction r (s.entryState entry))
    | _ => s
  | .failed =>
    match call.phase with
    | .inspecting _ | .resuming _ | .preparing | .building _ => s.setPhase c call .ended
    | _ => s
  | .prepared =>
    match call.phase with
    | .resuming a => s.resume c call a
    | .preparing => (s.build call.sessionId).setPhase c call (.building s.leaders.length)
    | _ => s
  | .built =>
    match call.phase with
    | .building a => { s.setPhase c call (.running a 1) with pool := some a }
    | _ => s
  | .finished =>
    match call.phase with
    | .running a cycle => s.finalize c call (some (a, cycle))
    | _ => s
  | .settled stop ok =>
    match call.phase with
    | .settling a _ =>
      if !ok then s.setPhase c call .ended
      else if stop then (s.remove a).setPhase c call .ended
      else (s.modify a fun g => { g with state := .paused }).setPhase c call .ended
    | _ => s

def step (s : RuntimeManager) : ManagerOp → RuntimeManager
  | .run sessionId => s.run sessionId
  | .stopTeam sessionId =>
    match s.resolve sessionId with
    | some a => s.addCall sessionId (.stopping a)
    | none => s
  | .pause sessionId =>
    match s.resolve sessionId with
    | some a => s.addCall sessionId (.pausing a)
    | none => s
  | .advance c e =>
    match s.calls[c]? with
    | some call => s.advance c call e
    | none => s

end RuntimeManager

end JiuwenSpec.Team

import JiuwenSpec.Goal.Attempts

/-!
# Work of an interaction

User inputs and goal attempts wait in queues of their own, and the supervisor takes one item at a
time. Source: `harness/task_loop/event_manager.py`, `harness/schema/interaction.py`.
-/

namespace JiuwenSpec.Interaction

open Base

/-- The query of user work: a text, or an `InteractiveInput`. -/
inductive Query where
  | text (text : Text)
  | interactive

structure GoalWork where
  goalId : Text
  revision : Nat
  sessionId : Text

/-- `RoundWorkItem`. -/
inductive Work where
  | user (query : Query)
  | goal (work : GoalWork)

structure EventManager where
  userQueue : List Query
  goalQueue : List GoalWork
  dequeued : Option Work
  active : Option Work

namespace EventManager

/-- `EventManager()`. -/
def empty : EventManager := ⟨[], [], none, none⟩

def pushUser (e : EventManager) (query : Query) : EventManager :=
  { e with userQueue := e.userQueue ++ [query] }

def Matches (goalId : Text) (revision : Nat) (work : Work) : Prop :=
  match work with
  | .user _ => False
  | .goal w => w.goalId = goalId ∧ w.revision = revision

instance (goalId : Text) (revision : Nat) : DecidablePred (Matches goalId revision) :=
  fun work => match work with
  | .user _ => inferInstanceAs (Decidable False)
  | .goal _ => inferInstanceAs (Decidable (_ ∧ _))

def HasGoalWork (e : EventManager) (goalId : Text) (revision : Nat) : Prop :=
  (∃ w ∈ e.goalQueue, Matches goalId revision (.goal w)) ∨
    (∃ w ∈ e.dequeued, Matches goalId revision w) ∨ ∃ w ∈ e.active, Matches goalId revision w

instance (e : EventManager) (goalId : Text) (revision : Nat) :
    Decidable (e.HasGoalWork goalId revision) := inferInstanceAs (Decidable (_ ∨ _))

def hasRunningGoal (e : EventManager) (goalId : Text) : Bool :=
  [e.dequeued, e.active].any fun work =>
    match work with
    | some (.goal w) => decide (w.goalId = goalId)
    | _ => false

/-- `push_goal`, with whether the work is queued. -/
def pushGoal (e : EventManager) (work : GoalWork) : EventManager × Bool :=
  if e.HasGoalWork work.goalId work.revision then (e, false)
  else ({ e with goalQueue := e.goalQueue ++ [work] }, true)

/-- The first interactive answer taken out of a queue. -/
def takeInteractive : List Query → Option (List Query)
  | [] => none
  | .interactive :: rest => some rest
  | query :: rest => (takeInteractive rest).map (query :: ·)

def nextWork (e : EventManager) (resumeOnly : Bool) : Option (Work × EventManager) :=
  if resumeOnly then
    (takeInteractive e.userQueue).map fun rest =>
      (.user .interactive, { e with userQueue := rest, dequeued := some (.user .interactive) })
  else
    match e.userQueue, e.goalQueue with
    | query :: rest, _ =>
      some (.user query, { e with userQueue := rest, dequeued := some (.user query) })
    | [], w :: rest => some (.goal w, { e with goalQueue := rest, dequeued := some (.goal w) })
    | [], [] => none

/-- `mark_started` of the work that was taken last. -/
def markStarted (e : EventManager) (work : Work) : EventManager :=
  { e with dequeued := none, active := some work }

/-- `mark_finished` of the active work. -/
def markFinished (e : EventManager) : EventManager := { e with active := none }

def HasPendingWork (e : EventManager) : Prop := e.userQueue ≠ [] ∨ e.goalQueue ≠ []

instance (e : EventManager) : Decidable e.HasPendingWork := inferInstanceAs (Decidable (_ ∨ _))

def discardGoalWork (e : EventManager) (sessionId goalId : Text) : EventManager :=
  { e with goalQueue := e.goalQueue.filter fun w =>
      !decide (w.sessionId = sessionId ∧ w.goalId = goalId) }

def discardAllWork (e : EventManager) : EventManager := { e with userQueue := [], goalQueue := [] }

/-- `next_work` finds nothing. -/
def Idle (e : EventManager) (resumeOnly : Bool) : Prop := (e.nextWork resumeOnly).isNone

instance (e : EventManager) (resumeOnly : Bool) : Decidable (e.Idle resumeOnly) :=
  inferInstanceAs (Decidable (_ = _))

theorem takeInteractive_eq_none {queue : List Query} :
    takeInteractive queue = none ↔ .interactive ∉ queue := by
  induction queue with
  | nil => simp [takeInteractive]
  | cons query rest ih =>
    cases query with
    | text text => simp [takeInteractive, ih]
    | interactive => simp [takeInteractive]

theorem idle_true (e : EventManager) : e.Idle true ↔ .interactive ∉ e.userQueue := by
  simp [Idle, nextWork, takeInteractive_eq_none]

theorem idle_false (e : EventManager) : e.Idle false ↔ ¬ e.HasPendingWork := by
  rw [Idle, nextWork, if_neg (by decide), HasPendingWork]
  cases e.userQueue with
  | cons query rest => simp
  | nil => cases e.goalQueue <;> simp

theorem Idle.of_not_pending {e : EventManager} (h : ¬ e.HasPendingWork) (resumeOnly : Bool) :
    e.Idle resumeOnly := by
  cases resumeOnly with
  | false => exact (idle_false e).mpr h
  | true =>
    rw [idle_true, not_not.mp (not_or.mp h).1]
    exact List.not_mem_nil

end EventManager

/-!
## The supervisor of an interaction

A session's supervisor takes work while an output stream has a consumer, parks a goal attempt that
asks a question, and sleeps on an event that calls set. Each step ends where the source awaits, so
that calls of the host, control calls of the goal and steps of the round come in any order.
Source: `harness/deep_agent.py`, `harness/goal/native.py`.
-/

open Goal

/-- The output stream: without a consumer, with one, or with one that reads up to the end. -/
inductive Output where
  | closed
  | attached
  | finishing
deriving DecidableEq

/-- `ActiveInteractionRound`, with the attempt that was begun for it. -/
structure Round where
  work : Work
  waitingForInput : Bool
  resumingGoal : Bool
  attempt : Option Attempt

/-- Where the supervisor stands: before a pass of its loop, asleep for want of a consumer, about to
close the idle output, asleep without work, or waiting for a round. -/
inductive Place where
  | top
  | noConsumer
  | closing (waiting : Bool)
  | idle
  | running
deriving DecidableEq

/-- An attempt that was begun, with the limits and the tokens of its goal at that time. -/
structure Begun where
  goalId : Text
  maxAttempts : Option Int
  tokenBudget : Option Int
  totalTokens : Int
deriving DecidableEq

/-- An interaction that is running, and the attempts that were begun in it. -/
structure LoopState where
  goals : Goals
  events : EventManager
  round : Option Round
  output : Output
  wakeup : Bool
  place : Place
  begun : List Begun

namespace LoopState

def start (sessionId : Text) : LoopState where
  goals := .start sessionId
  events := .empty
  round := none
  output := .closed
  wakeup := false
  place := .top
  begun := []

def HasConsumer (s : LoopState) : Prop := s.output ≠ .closed

instance (s : LoopState) : Decidable s.HasConsumer := inferInstanceAs (Decidable (_ ≠ _))

def waiting (s : LoopState) : Bool := s.round.any Round.waitingForInput

def notifyWork (s : LoopState) : LoopState := { s with wakeup := true }

/-- `_ensure_goal_work_locked`. -/
def ensureGoalWork (s : LoopState) (r : GoalRecord) : LoopState :=
  if r.status = .active ∧ s.HasConsumer then
    match s.events.pushGoal ⟨r.goalId, r.revision, r.sessionId⟩ with
    | (events, true) => { s with events := events }.notifyWork
    | (_, false) => s
  else s

/-- `ensure_active_goal_work_locked`. -/
def ensureActiveGoalWork (s : LoopState) : LoopState :=
  s.goals.record.elim s s.ensureGoalWork

/-- The goal of the session is `ACTIVE`. -/
def GoalActive (s : LoopState) : Prop := ∃ r ∈ s.goals.record, r.status = .active

instance (s : LoopState) : Decidable s.GoalActive := inferInstanceAs (Decidable (∃ r ∈ _, _))

/-- `GoalManager.set`, up to the cancellation of the replaced goal's attempt. -/
def setGoal (H : Host) (s : LoopState) (objective : Text) (overwriteConfirmed : Bool)
    (tokenBudget maxAttempts : Option Int) (now : Int) : LoopState :=
  match setRecord s.goals.record (H.newId s.goals.created) s.goals.sessionId objective
    overwriteConfirmed tokenBudget maxAttempts now with
  | .error _ => s
  | .ok r =>
    { s with
      goals := Goal.step H s.goals (.set objective overwriteConfirmed tokenBudget maxAttempts now)
      events := s.goals.record.elim s.events fun existing =>
        s.events.discardGoalWork existing.sessionId existing.goalId }.ensureGoalWork r

/-- `GoalManager.pause`. -/
def pauseGoal (H : Host) (s : LoopState) (now : Int) : LoopState :=
  match s.goals.record with
  | none => s
  | some r =>
    if r.status = .active then
      { s with
        goals := Goal.step H s.goals (.pause (s.events.hasRunningGoal r.goalId) now)
        events := s.events.discardGoalWork r.sessionId r.goalId }
    else s

/-- `GoalManager.resume`. -/
def resumeGoal (H : Host) (s : LoopState) (origin : Origin) (now : Int) : LoopState :=
  match s.goals.record with
  | none => s
  | some r =>
    let inFlight := s.events.hasRunningGoal r.goalId
    match resumeRecord r inFlight origin now with
    | none => s
    | some r' =>
      let s' := { s with goals := Goal.step H s.goals (.resume inFlight origin now) }
      if (r.status = .paused ∨ r.status = .blocked) ∧ inFlight = false then s'.ensureGoalWork r'
      else s'

/-- `GoalManager.clear`, up to the cancellation of the goal's attempt. -/
def clearGoal (H : Host) (s : LoopState) : LoopState :=
  match s.goals.record with
  | none => s
  | some r =>
    { s with
      goals := Goal.step H s.goals .clear
      events := s.events.discardGoalWork r.sessionId r.goalId }

/-- `GoalManager.apply_assessment` for a finish that is under way. -/
def applyFinish (H : Host) (s : LoopState) (index : Nat) (origin : Origin) (now : Int) :
    LoopState :=
  let goals := Goal.step H s.goals (.apply index origin now)
  let s' := { s with goals := goals }
  if goals.settled = s.goals.settled then s' else s'.ensureActiveGoalWork

/-- `send_input`. A text that steers goes to the active round, which has a queue of its own. -/
def sendInput (s : LoopState) (query : Query) (steer : Bool) : LoopState :=
  match query with
  | .interactive => { s with events := s.events.pushUser query }.notifyWork
  | .text _ =>
    if steer ∧ s.round.isSome ∧ s.waiting = false then s.notifyWork
    else
      -- Whether the interaction is kept open ensures the work of an active goal.
      let kept := if s.events.HasPendingWork ∨ s.round.isSome then s else s.ensureActiveGoalWork
      { kept with events := kept.events.pushUser query }.notifyWork

def attachOutput (s : LoopState) : LoopState :=
  let attached := if s.HasConsumer then s else { s with output := .attached }
  if attached.GoalActive then attached.ensureActiveGoalWork.notifyWork else attached

/-- `detach_output`, up to the cancellation of the active round. -/
def detachOutput (s : LoopState) : LoopState :=
  if s.HasConsumer then { s with output := .closed, events := s.events.discardAllWork } else s

def endOutput (s : LoopState) : LoopState :=
  if s.output = .finishing then { s with output := .closed } else s

/-- `_cancel_active_round` for a round that is parked. One that runs is ended by its own task. -/
def cancelRound (s : LoopState) : LoopState :=
  if s.waiting then { s with events := s.events.markFinished, round := none }.notifyWork else s

/-- `_prepare_owned_round`. -/
def prepareRound (s : LoopState) (work : Work) (events : EventManager) : LoopState :=
  match s.round, work with
  | some round, .user .interactive =>
    -- The answer continues the attempt that is parked.
    { s with
      events := (events.markStarted work).markStarted round.work
      round := some { round with waitingForInput := false, resumingGoal := true }
      place := .running }
  | _, _ =>
    { s with
      events := events.markStarted work
      round := some ⟨work, false, false, none⟩
      place := .running }

/-- A pass of `_supervisor_loop` up to its next await. The follow-ups are those the task loop has
left. -/
def supervise (s : LoopState) (followUps : List Text) : LoopState :=
  if ¬ s.HasConsumer then { s with wakeup := false, place := .noConsumer }
  else if s.round.isSome ∧ s.waiting = false then s
  else
    match s.events.nextWork s.waiting with
    | some (work, events) => s.prepareRound work events
    | none =>
      if s.waiting then { s with place := .closing true }
      else
        let promoted := { s.events with
          userQueue := s.events.userQueue ++ followUps.map Query.text }
        match promoted.nextWork false with
        | some (work, events) => s.prepareRound work events
        | none => { s with place := .closing false }

/-- `_close_idle_output_if_finished`. -/
def closeIdleOutput (s : LoopState) : LoopState :=
  if s.events.HasPendingWork ∨ s.round.isSome then s
  else if s.GoalActive then s.ensureActiveGoalWork
  else if s.output = .attached then { s with output := .finishing }
  else s

/-- The supervisor closes the idle output, clears the event and goes to sleep. -/
def fallAsleep (s : LoopState) (waiting : Bool) : LoopState :=
  let cleared := { s.closeIdleOutput with wakeup := false }
  if cleared.events.HasPendingWork ∧ waiting = false then { cleared with place := .top }
  else { cleared with place := .idle }

/-- The attempt of a round's goal work is begun, in `_execute_round`. -/
def beginRound (H : Host) (s : LoopState) (origin : Origin) (now : Int) : LoopState :=
  match s.place, s.round with
  | .running, some ⟨.goal w, false, false, none⟩ =>
    match s.goals.record.bind fun r => beginAttempt r w.goalId w.revision none origin now with
    | none => s
    | some r =>
      { s with
        goals := Goal.step H s.goals (.begin w.goalId w.revision none origin now)
        round := some ⟨.goal w, false, false, some ⟨r.goalId, r.revision, r.attemptCount⟩⟩
        begun := ⟨r.goalId, r.maxAttempts, r.tokenBudget, r.tokenUsage.totalTokens⟩ :: s.begun }
  | _, _ => s

/-- The end of `_execute_round`: a goal round that was interrupted stays as a parked one, any other
is over. -/
def endRound (s : LoopState) (interrupted : Bool) (nextWork : Option Query) : LoopState :=
  match s.place, s.round with
  | .running, some round =>
    let pushed := nextWork.elim s fun query =>
      { s with events := s.events.pushUser query }.notifyWork
    match round.work, interrupted with
    | .goal _, true =>
      { pushed with round := some { round with waitingForInput := true }, place := .top }
    | _, _ =>
      { pushed with events := pushed.events.markFinished, round := none, place := .top }
  | _, _ => s

end LoopState

inductive Action where
  | sendInput (query : Query) (steer : Bool)
  | attachOutput
  | detachOutput
  | endOutput
  | cancelRound
  | setGoal (objective : Text) (overwriteConfirmed : Bool) (tokenBudget maxAttempts : Option Int)
    (now : Int)
  | pauseGoal (now : Int)
  | resumeGoal (origin : Origin) (now : Int)
  | clearGoal
  | accumulateUsage (attempt : Attempt) (delta : TokenUsage) (origin : Origin) (now : Int)
  | finish (call : FinishCall)
  | applyFinish (index : Nat) (origin : Origin) (now : Int)
  | supervise (followUps : List Text)
  | fallAsleep
  | wake
  | beginRound (origin : Origin) (now : Int)
  | endRound (interrupted : Bool) (nextWork : Option Query)

def step (H : Host) (s : LoopState) : Action → LoopState
  | .sendInput query steer => s.sendInput query steer
  | .attachOutput => s.attachOutput
  | .detachOutput => s.detachOutput
  | .endOutput => s.endOutput
  | .cancelRound => s.cancelRound
  | .setGoal objective overwriteConfirmed tokenBudget maxAttempts now =>
    s.setGoal H objective overwriteConfirmed tokenBudget maxAttempts now
  | .pauseGoal now => s.pauseGoal H now
  | .resumeGoal origin now => s.resumeGoal H origin now
  | .clearGoal => s.clearGoal H
  | .accumulateUsage attempt delta origin now =>
    { s with goals := Goal.step H s.goals (.accumulateUsage attempt true delta origin now) }
  | .finish call => { s with goals := Goal.step H s.goals (.finish call) }
  | .applyFinish index origin now => s.applyFinish H index origin now
  | .supervise followUps => if s.place = .top then s.supervise followUps else s
  | .fallAsleep =>
    match s.place with
    | .closing waiting => s.fallAsleep waiting
    | _ => s
  | .wake =>
    if (s.place = .noConsumer ∨ s.place = .idle) ∧ s.wakeup then { s with place := .top } else s
  | .beginRound origin now => s.beginRound H origin now
  | .endRound interrupted nextWork => s.endRound interrupted nextWork

end JiuwenSpec.Interaction

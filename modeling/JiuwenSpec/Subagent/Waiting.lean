import Mathlib.Data.List.Dedup
import JiuwenSpec.Subagent.TurnHistory

/-!
# Waiting for subagents

The sender and the worker of an instance write one status, which a wait reads: at once when it is
final and no work is pending, when a waiter sees it become final, or at its end. An operation goes
from one suspension to the next; the lock of a status is never held across one. The subagents are
numbered, as the inputs are.
Source: `harness/subagent_runtime/control.py`, `instance.py`, `status.py`.
-/

namespace JiuwenSpec.Subagent.Waiting

open Base List

inductive RunEnd where
  | returned
  | raised
  | timedOut
  | cancelled (requested : Bool)
deriving DecidableEq

inductive Phase where
  /-- It waits for the next op. -/
  | idle
  /-- It waits for the shared slot. -/
  | claimed (op : UserInput)
  | running (op : UserInput)
  /-- The run has given its result, and goes on to its end. -/
  | settled
  /-- The run raises. -/
  | failing
  | stopped (ending : RunEnd)
  | closing
  /-- The execution is closed, the status channel not yet. -/
  | closed
  /-- It has ended. -/
  | done
deriving DecidableEq

/-- `SubagentInstance`. `accepted` has the inputs that were sent, and `settled` those whose turn is
over, with the output where it completed. -/
structure Instance where
  ops : List QueuedOp
  phase : Phase
  status : StatusKind
  lastOutput : Option Text
  closed : Bool
  accepted : List Nat
  settled : List (Nat × Option Text)

/-- What happens to an instance, apart from inputs. -/
inductive WorkerEvent where
  /-- The worker takes the next op. -/
  | take
  /-- It gets the slot. -/
  | admitted
  /-- `on_result`. -/
  | result (output : Option Text)
  | raised
  | returned
  | cancelled (requested : Bool)
  | timedOut
  /-- The worker goes on behind the run. -/
  | handled
  /-- `shutdown`, from the end of its interrupt on. -/
  | shutdown
  /-- `_handle_shutdown` comes back from the execution. -/
  | closeExecution (ok : Bool)
  /-- It closes the status channel. -/
  | closeChannel

namespace Instance

variable (inst : Instance)

def settle (op : UserInput) (output : Option Text) : Instance :=
  { inst with settled := inst.settled ++ [(op.taskId, output)] }

def setUnlessFinal (status : StatusKind) : Instance :=
  if inst.status.isFinal then inst else { inst with status }

def take : Instance :=
  match inst.phase, inst.ops with
  | .idle, .userInput op :: ops => { inst with ops, phase := .claimed op }
  | .idle, .shutdown :: ops => { inst with ops, phase := .closing }
  | _, _ => inst

/-- `_handle_claimed_user_input`, behind the slot. -/
def admitted : Instance :=
  match inst.phase with
  | .claimed op => { inst with phase := .running op, status := .running }
  | _ => inst

/-- `on_result` and `_settle_turn`; a second result is an error. -/
def result (output : Option Text) : Instance :=
  match inst.phase, output with
  | .running op, some text =>
    { inst.settle op (some text) with
      phase := .settled, lastOutput := some text, status := .completed }
  | .running op, none => { inst.settle op none with phase := .settled, status := .errored }
  | .settled, _ => { inst with status := .errored }
  | _, _ => inst

/-- The handlers of `_run_one_turn`. -/
def raised : Instance :=
  match inst.phase with
  | .running op => { (inst.settle op none).setUnlessFinal .errored with phase := .failing }
  | .settled => { inst.setUnlessFinal .errored with phase := .failing }
  | _ => inst

/-- The run comes to its end; without a result that is an error. -/
def returned : Instance :=
  match inst.phase with
  | .running _ => inst.raised
  | .settled => { inst with phase := .stopped .returned }
  | .failing => { inst with phase := .stopped .raised }
  | _ => inst

def stop (ending : RunEnd) : Instance :=
  match inst.phase with
  | .running op => { inst.settle op none with phase := .stopped ending }
  | .settled | .failing => { inst with phase := .stopped ending }
  | _ => inst

/-- `_handle_claimed_user_input`, behind the run: `_on_turn_timeout` and `_on_turn_cancelled`,
where a cancellation that was not requested ends the worker. -/
def handled : Instance :=
  match inst.phase with
  | .stopped .returned => { inst with phase := .idle }
  | .stopped .raised | .stopped .timedOut => { inst.setUnlessFinal .errored with phase := .idle }
  | .stopped (.cancelled requested) =>
    { inst.setUnlessFinal .interrupted with phase := if requested then .idle else .done }
  | _ => inst

/-- `shutdown`; behind the end of the worker it handles it itself. -/
def shutdown : Instance :=
  if inst.closed then inst
  else if inst.phase = .done then { inst with phase := .closing }
  else { inst with ops := inst.ops ++ [.shutdown] }

/-- `_handle_shutdown`. -/
def closeExecution (ok : Bool) : Instance :=
  match inst.phase with
  | .closing => if ok then { inst with phase := .closed, status := .closed }
    else { inst with phase := .done }
  | _ => inst

/-- The end of `_handle_shutdown`. -/
def closeChannel : Instance :=
  match inst.phase with
  | .closed => { inst with phase := .done, closed := true }
  | _ => inst

/-- One event; one that does not fit the phase does nothing. -/
def step : WorkerEvent → Instance
  | .take => inst.take
  | .admitted => inst.admitted
  | .result output => inst.result output
  | .raised => inst.raised
  | .returned => inst.returned
  | .cancelled requested => inst.stop (.cancelled requested)
  | .timedOut => inst.stop .timedOut
  | .handled => inst.handled
  | .shutdown => inst.shutdown
  | .closeExecution ok => inst.closeExecution ok
  | .closeChannel => inst.closeChannel

/-- `enqueue` and the pending status of `send_input`. -/
def send (op : UserInput) : Instance :=
  { inst with
    ops := inst.ops ++ [.userInput op]
    status := .pendingInit
    accepted := inst.accepted ++ [op.taskId] }

/-- `_current_run` is not done. -/
def runAlive : Bool :=
  match inst.phase with
  | .running _ | .settled | .failing => true
  | .idle | .claimed _ | .stopped _ | .closing | .closed | .done => false

def turnClaimed : Bool :=
  match inst.phase with
  | .claimed _ | .running _ | .settled | .failing | .stopped _ => true
  | .idle | .closing | .closed | .done => false

def hasPendingWork : Bool :=
  !inst.closed && (inst.ops ≠ [] || inst.runAlive ||
    inst.status = .pendingInit || inst.status = .running)

def current : List UserInput :=
  match inst.phase with
  | .claimed op | .running op => [op]
  | _ => []

def unsettled : List UserInput := inst.current ++ queuedInputs inst.ops

def completes : WorkerEvent → Option UserInput
  | .result (some _) =>
    match inst.phase with
    | .running op => some op
    | _ => none
  | _ => none

def spawned (op : UserInput) : Instance :=
  ⟨[.userInput op], .idle, .pendingInit, none, false, [op.taskId], []⟩

end Instance

/-- `SubagentStatus`, as a wait reports it. -/
inductive Report where
  | notFound
  | found (status : StatusKind)
deriving DecidableEq

def Report.isFinal : Report → Bool
  | .notFound => true
  | .found status => status.isFinal

/-- A call of `wait` in progress. `before` has the inputs that were accepted before it. -/
structure WaitCall where
  targets : List Nat
  statuses : Nat → Option Report
  before : Nat → List Nat

/-- `WaitResult`, with the inputs accepted before the call and those settled at its return. -/
structure WaitResult where
  targets : List Nat
  statuses : Nat → Report
  results : Nat → Option Text
  timedOut : Bool
  before : Nat → List Nat
  settled : Nat → List (Nat × Option Text)

structure Control where
  instances : Nat → Option Instance
  nextTask : Nat
  waits : List WaitCall
  returned : List WaitResult

inductive WaitAction where
  | spawn (id : Nat) (query : Text)
  | sendInput (id : Nat) (query : Text)
  | worker (id : Nat) (event : WorkerEvent)
  | wait (ids : List Nat)
  /-- The waiter of a wait for one subagent comes to its end. -/
  | resolve (wait id : Nat)
  /-- A wait returns, because all waiters have ended or its time is over. -/
  | return (wait : Nat)

def lastOutputOf (before : List Nat) (settled : List (Nat × Option Text)) : Option Text :=
  ((settled.filter fun t => t.1 ∈ before).filterMap Prod.snd).getLast?

namespace Control

variable (s : Control)

def init : Control := ⟨fun _ => none, 0, [], []⟩

def getStatus (id : Nat) : Report :=
  ((s.instances id).map fun inst => .found inst.status).getD .notFound

/-- The first loop of `wait`. -/
def firstStatus (id : Nat) : Option Report :=
  match s.instances id with
  | none => some .notFound
  | some inst =>
    if inst.status.isFinal ∧ inst.hasPendingWork = false then some (.found inst.status) else none

/-- The results of `wait`. -/
def resultOf (report : Report) (id : Nat) : Option Text :=
  if report = .found .completed then
    (s.instances id).bind fun inst => inst.lastOutput.filter fun text => text ≠ []
  else none

/-- The end of `wait`. -/
def waitResult (w : WaitCall) : WaitResult where
  targets := w.targets
  statuses id := (w.statuses id).getD (s.getStatus id)
  results id := s.resultOf ((w.statuses id).getD (s.getStatus id)) id
  timedOut := w.targets.any fun id => !((w.statuses id).getD (s.getStatus id)).isFinal
  before := w.before
  settled id := ((s.instances id).map Instance.settled).getD []

/-- The waiter of `id` ends: it has read a final status, or the channel is closed. -/
def resolve (w : WaitCall) (id : Nat) : WaitCall :=
  match s.instances id with
  | some inst =>
    if id ∈ w.targets ∧ w.statuses id = none ∧ (inst.status.isFinal ∨ inst.closed) then
      { w with statuses := Function.update w.statuses id (some (.found inst.status)) }
    else w
  | none => w

/-- One operation; one that does not fit the state does nothing. -/
def step : WaitAction → Control
  | .spawn id query =>
    match s.instances id with
    | none =>
      { s with
        instances := Function.update s.instances id (some (.spawned ⟨s.nextTask, query⟩))
        nextTask := s.nextTask + 1 }
    | some _ => s
  | .sendInput id query =>
    match s.instances id with
    | some inst =>
      if inst.closed then s
      else
        { s with
          instances := Function.update s.instances id (some (inst.send ⟨s.nextTask, query⟩))
          nextTask := s.nextTask + 1 }
    | none => s
  | .worker id event =>
    match s.instances id with
    | some inst =>
      { s with instances := Function.update s.instances id (some (inst.step event)) }
    | none => s
  | .wait ids =>
    { s with
      waits := s.waits ++ [{
        targets := ids.dedup
        statuses := s.firstStatus
        before := fun id => ((s.instances id).map Instance.accepted).getD [] }] }
  | .resolve wait id =>
    match s.waits[wait]? with
    | some w => { s with waits := s.waits.set wait (s.resolve w id) }
    | none => s
  | .return wait =>
    match s.waits[wait]? with
    | some w =>
      { s with waits := s.waits.eraseIdx wait, returned := s.returned ++ [s.waitResult w] }
    | none => s

end Control

/-- What a wait that has not timed out reports as final has settled, and its results are those of
the inputs accepted before it. -/
def WaitResult.Sound (r : WaitResult) : Prop :=
  r.timedOut = false → ∀ id ∈ r.targets,
    ((r.statuses id).isFinal → ∀ taskId ∈ r.before id, taskId ∈ (r.settled id).map Prod.fst) ∧
      ∀ text, r.results id = some text → lastOutputOf (r.before id) (r.settled id) = some text

/-- Waiting is sound, and an instance without work is neither pending nor running. -/
structure Control.WaitsSound (s : Control) : Prop where
  returned : ∀ r ∈ s.returned, r.Sound
  quiet : ∀ id, ∀ inst ∈ s.instances id, inst.ops = [] → inst.turnClaimed = false →
    inst.status ≠ .pendingInit ∧ inst.status ≠ .running

/-- A wait finds a final status only where no input is unsettled; a final status that the worker
writes while a waiter looks for one finds no input of before the wait in the queue; and no later
input completes while a wait that has not reported another status may still read its output. -/
def Undisturbed (s : Control) : WaitAction → Prop
  | .wait ids => ∀ id ∈ ids, ∀ inst ∈ s.instances id, inst.status.isFinal → inst.unsettled = []
  | .worker id event => ∀ inst ∈ s.instances id, ∀ w ∈ s.waits, id ∈ w.targets →
      (w.statuses id = none → (inst.step event).status.isFinal →
        ∀ op ∈ queuedInputs inst.ops, op.taskId ∉ w.before id) ∧
      (w.statuses id = none ∨ w.statuses id = some (.found .completed) →
        ∀ op ∈ inst.completes event, op.taskId ∈ w.before id)
  | .spawn _ _ | .sendInput _ _ | .resolve _ _ | .return _ => True

instance (s : Control) : (action : WaitAction) → Decidable (Undisturbed s action)
  | .wait ids => inferInstanceAs (Decidable
      (∀ id ∈ ids, ∀ inst ∈ s.instances id, inst.status.isFinal → inst.unsettled = []))
  | .worker id event => inferInstanceAs (Decidable
      (∀ inst ∈ s.instances id, ∀ w ∈ s.waits, id ∈ w.targets →
        (w.statuses id = none → (inst.step event).status.isFinal →
          ∀ op ∈ queuedInputs inst.ops, op.taskId ∉ w.before id) ∧
        (w.statuses id = none ∨ w.statuses id = some (.found .completed) →
          ∀ op ∈ inst.completes event, op.taskId ∈ w.before id)))
  | .spawn _ _ | .sendInput _ _ | .resolve _ _ | .return _ => inferInstanceAs (Decidable True)

def Phase.owesStatus : Phase → Bool
  | .claimed _ | .running _ | .stopped .timedOut | .stopped (.cancelled _) => true
  | _ => false

/-- The accepted inputs have settled in their order, up to the unsettled ones, the output is the one
of the last completed input, and an instance without inputs is neither pending nor running. -/
structure Instance.Ok (inst : Instance) : Prop where
  ordered : inst.accepted = inst.settled.map Prod.fst ++ inst.unsettled.map UserInput.taskId
  output : inst.lastOutput = (inst.settled.filterMap Prod.snd).getLast?
  quiet : queuedInputs inst.ops = [] → inst.phase.owesStatus = false →
    inst.status ≠ .pendingInit ∧ inst.status ≠ .running

namespace Instance

variable {inst : Instance}

theorem setUnlessFinal_eq (inst : Instance) (status : StatusKind) :
    ∃ kind, inst.setUnlessFinal status = { inst with status := kind } ∧
      (kind = status ∨ kind = inst.status ∧ kind.isFinal) := by
  unfold setUnlessFinal
  split
  · next hfinal => exact ⟨_, rfl, .inr ⟨rfl, hfinal⟩⟩
  · exact ⟨_, rfl, .inl rfl⟩

theorem not_pending_of_final {kind : StatusKind} (h : kind.isFinal) :
    kind ≠ .pendingInit ∧ kind ≠ .running := by
  constructor <;> rintro rfl <;> cases h

inductive Stepped (inst : Instance) : WorkerEvent → Instance → Prop
  | same (event) : Stepped inst event inst
  | claims (op ops) (hphase : inst.phase = .idle) (hops : inst.ops = .userInput op :: ops) :
      Stepped inst .take { inst with ops, phase := .claimed op }
  | closes (ops) (hphase : inst.phase = .idle) (hops : inst.ops = .shutdown :: ops) :
      Stepped inst .take { inst with ops, phase := .closing }
  | admits (op) (hphase : inst.phase = .claimed op) :
      Stepped inst .admitted { inst with phase := .running op, status := .running }
  | completes (op text) (hphase : inst.phase = .running op) :
      Stepped inst (.result (some text))
        { inst with
          phase := .settled, status := .completed, lastOutput := some text
          settled := inst.settled ++ [(op.taskId, some text)] }
  /-- The turn ends without an output. -/
  | fails (event op phase status) (hphase : inst.phase = .running op)
      (hnext : phase.owesStatus = true ∨ status.isFinal)
      (hturn : ∀ op', phase ≠ .claimed op' ∧ phase ≠ .running op') :
      Stepped inst event
        { inst with phase, status, settled := inst.settled ++ [(op.taskId, none)] }
  /-- Behind the turn. -/
  | goesOn (event phase status) (hphase : inst.current = [])
      (hstatus : status = inst.status ∧
          (phase.owesStatus = false → inst.phase.owesStatus = false) ∨
        status ≠ .pendingInit ∧ status ≠ .running)
      (hturn : ∀ op, phase ≠ .claimed op ∧ phase ≠ .running op) :
      Stepped inst event { inst with phase, status }
  | queuesShutdown : Stepped inst .shutdown { inst with ops := inst.ops ++ [.shutdown] }
  | closed (hphase : inst.phase = .closed) :
      Stepped inst .closeChannel { inst with phase := .done, closed := true }

theorem stepped_keeps (event : WorkerEvent) {phase : Phase} (hcurrent : inst.current = [])
    (howes : phase.owesStatus = false → inst.phase.owesStatus = false)
    (hturn : ∀ op, phase ≠ .claimed op ∧ phase ≠ .running op) :
    Stepped inst event { inst with phase } :=
  .goesOn event phase inst.status hcurrent (.inl ⟨rfl, howes⟩) hturn

theorem stepped_setUnlessFinal (event : WorkerEvent) {status : StatusKind} {phase : Phase}
    (hstatus : status ≠ .pendingInit ∧ status ≠ .running) (hcurrent : inst.current = [])
    (hturn : ∀ op, phase ≠ .claimed op ∧ phase ≠ .running op) :
    Stepped inst event { inst.setUnlessFinal status with phase } := by
  obtain ⟨kind, heq, hkind⟩ := inst.setUnlessFinal_eq status
  rw [heq]
  refine .goesOn event phase kind hcurrent (.inr ?_) hturn
  rcases hkind with rfl | ⟨-, hfinal⟩
  exacts [hstatus, not_pending_of_final hfinal]

theorem stepped_raised (event : WorkerEvent) : Stepped inst event inst.raised := by
  unfold raised
  split
  · next op hphase =>
    obtain ⟨kind, heq, hkind⟩ := (inst.settle op none).setUnlessFinal_eq .errored
    rw [heq]
    refine .fails event op .failing kind hphase (.inr ?_) (by simp)
    rcases hkind with rfl | ⟨-, hfinal⟩
    exacts [rfl, hfinal]
  · next hphase =>
    exact stepped_setUnlessFinal event (by simp) (by simp [current, hphase]) (by simp)
  · exact .same event

theorem stepped_stop (event : WorkerEvent) (ending : RunEnd)
    (hending : (Phase.stopped ending).owesStatus = true) :
    Stepped inst event (inst.stop ending) := by
  unfold stop
  split
  · next op hphase => exact .fails event op _ inst.status hphase (.inl hending) (by simp)
  · next hphase =>
    exact stepped_keeps event (by simp [current, hphase])
      (fun h => by rw [hending] at h; cases h) (by simp)
  · next hphase =>
    exact stepped_keeps event (by simp [current, hphase])
      (fun h => by rw [hending] at h; cases h) (by simp)
  · exact .same event

theorem stepped_handled : Stepped inst .handled inst.handled := by
  unfold handled
  split
  · next hphase =>
    exact stepped_keeps _ (by simp [current, hphase]) (fun _ => by rw [hphase]; rfl) (by simp)
  · next hphase => exact stepped_setUnlessFinal _ (by simp) (by simp [current, hphase]) (by simp)
  · next hphase => exact stepped_setUnlessFinal _ (by simp) (by simp [current, hphase]) (by simp)
  · next requested hphase =>
    exact stepped_setUnlessFinal _ (by simp) (by simp [current, hphase])
      (by cases requested <;> simp)
  · exact .same _

theorem stepped (inst : Instance) (event : WorkerEvent) : Stepped inst event (inst.step event) := by
  cases event with
  | take =>
    simp only [step, take]
    split
    · next op ops hphase hops => exact .claims op ops hphase hops
    · next ops hphase hops => exact .closes ops hphase hops
    · exact .same _
  | admitted =>
    simp only [step, admitted]
    split
    · next op hphase => exact .admits op hphase
    · exact .same _
  | result output =>
    simp only [step, result]
    split
    · next op text hphase => exact .completes op text hphase
    · next op hphase => exact .fails _ op _ _ hphase (.inr rfl) (by simp)
    · next hphase =>
      exact @Stepped.goesOn inst _ inst.phase .errored (by simp [current, hphase])
        (.inr (by simp)) (by simp [hphase])
    · exact .same _
  | raised => exact stepped_raised _
  | returned =>
    simp only [step, returned]
    split
    · exact stepped_raised _
    · next hphase =>
      exact stepped_keeps _ (by simp [current, hphase]) (fun _ => by rw [hphase]; rfl) (by simp)
    · next hphase =>
      exact stepped_keeps _ (by simp [current, hphase]) (fun _ => by rw [hphase]; rfl) (by simp)
    · exact .same _
  | cancelled requested => exact stepped_stop _ _ rfl
  | timedOut => exact stepped_stop _ _ rfl
  | handled => exact stepped_handled
  | shutdown =>
    simp only [step, shutdown]
    split
    · exact .same _
    · split
      · next hphase =>
        exact stepped_keeps _ (by simp [current, hphase]) (fun _ => by rw [hphase]; rfl) (by simp)
      · exact .queuesShutdown
  | closeExecution ok =>
    simp only [step, closeExecution]
    split
    · next hphase =>
      cases ok with
      | true => exact .goesOn _ _ _ (by simp [current, hphase]) (.inr (by simp)) (by simp)
      | false =>
        exact stepped_keeps _ (by simp [current, hphase]) (fun _ => by rw [hphase]; rfl) (by simp)
    · exact .same _
  | closeChannel =>
    simp only [step, closeChannel]
    split
    · next hphase => exact .closed hphase
    · exact .same _

theorem current_of_turnless {phase : Phase}
    (hturn : ∀ op, phase ≠ .claimed op ∧ phase ≠ .running op) (status : StatusKind)
    (settled : List (Nat × Option Text)) : { inst with phase, status, settled }.current = [] := by
  unfold current
  split
  · next op hphase => exact absurd hphase (hturn op).1
  · next op hphase => exact absurd hphase (hturn op).2
  · rfl

theorem Ok.step (h : inst.Ok) (event : WorkerEvent) : (inst.step event).Ok := by
  have hordered := h.ordered
  have hstepped := stepped inst event
  generalize inst.step event = next at hstepped
  cases hstepped with
  | same => exact h
  | claims op ops hphase hops =>
    refine ⟨?_, h.output, fun _ howes => by cases howes⟩
    simpa [unsettled, current, hphase, hops, queuedInputs] using hordered
  | closes ops hphase hops =>
    refine ⟨?_, h.output, fun hqueued _ => h.quiet ?_ ?_⟩
    · simpa [unsettled, current, hphase, hops, queuedInputs] using hordered
    · rw [hops]; exact hqueued
    · rw [hphase]; rfl
  | admits op hphase =>
    refine ⟨?_, h.output, fun _ howes => by cases howes⟩
    simpa [unsettled, current, hphase] using hordered
  | completes op text hphase =>
    refine ⟨?_, by simp, fun _ _ => by simp⟩
    simpa [unsettled, current, hphase] using hordered
  | fails _ op phase status hphase hnext hturn =>
    refine ⟨?_, by simpa using h.output, fun _ howes => ?_⟩
    · simp only [unsettled, current_of_turnless hturn]
      simpa [unsettled, current, hphase] using hordered
    · exact not_pending_of_final (hnext.resolve_left (by rw [howes]; decide))
  | goesOn _ phase status hphase hstatus hturn =>
    refine ⟨?_, h.output, fun hqueued howes => ?_⟩
    · have hcurrent := @current_of_turnless inst _ hturn status inst.settled
      simp only [unsettled, hphase] at hordered
      simp only [unsettled, hcurrent]
      exact hordered
    · rcases hstatus with ⟨rfl, hkeeps⟩ | hstatus
      · exact h.quiet hqueued (hkeeps howes)
      · exact hstatus
  | queuesShutdown =>
    have hops : queuedInputs (inst.ops ++ [.shutdown]) = queuedInputs inst.ops := by
      rw [queuedInputs_append]
      exact append_nil _
    refine ⟨?_, h.output, fun hqueued howes => h.quiet (hops ▸ hqueued) howes⟩
    simpa [unsettled, current, hops] using hordered
  | closed hphase =>
    refine ⟨?_, h.output, fun hqueued _ => h.quiet hqueued (by rw [hphase]; rfl)⟩
    simpa [unsettled, current, hphase] using hordered

theorem Ok.send (h : inst.Ok) (op : UserInput) : (inst.send op).Ok := by
  refine ⟨?_, h.output, fun hqueued => by
    simp [Instance.send, queuedInputs_append, queuedInputs] at hqueued⟩
  have hordered := h.ordered
  simp only [unsettled] at hordered
  simp [Instance.send, unsettled, current, hordered, queuedInputs_append, queuedInputs]

theorem ok_spawned (op : UserInput) : (spawned op).Ok :=
  ⟨rfl, rfl, fun hqueued => by cases hqueued⟩

theorem settled_step (inst : Instance) (event : WorkerEvent) {taskId : Nat}
    (h : taskId ∈ inst.settled.map Prod.fst) :
    taskId ∈ (inst.step event).settled.map Prod.fst := by
  have hstepped := stepped inst event
  generalize inst.step event = next at hstepped
  cases hstepped <;> simp_all

@[simp] theorem accepted_step (inst : Instance) (event : WorkerEvent) :
    (inst.step event).accepted = inst.accepted := by
  have hstepped := stepped inst event
  generalize inst.step event = next at hstepped
  cases hstepped <;> rfl

theorem final_step (inst : Instance) (event : WorkerEvent)
    (h : (inst.step event).status.isFinal) :
    inst.status.isFinal ∨ (inst.step event).unsettled = queuedInputs inst.ops := by
  have hstepped := stepped inst event
  generalize inst.step event = next at h hstepped
  cases hstepped with
  | same | claims | closes | queuesShutdown | closed => exact .inl h
  | admits => cases h
  | completes => exact .inr rfl
  | fails _ op phase status _ _ hturn =>
    exact .inr (by simp only [unsettled, current_of_turnless hturn, nil_append])
  | goesOn _ phase status _ _ hturn =>
    have hcurrent := @current_of_turnless inst _ hturn status inst.settled
    exact .inr (by simp only [unsettled, hcurrent, nil_append])

end Instance

theorem lastOutputOf_append (before : List Nat) (settled : List (Nat × Option Text)) (taskId : Nat)
    (output : Option Text) (h : taskId ∈ before ∨ output = none) :
    lastOutputOf before (settled ++ [(taskId, output)]) =
      output.or (lastOutputOf before settled) := by
  by_cases hmem : taskId ∈ before
  · cases output <;> simp [lastOutputOf, hmem]
  · simp [lastOutputOf, hmem, h.resolve_left hmem]

/-- A wait for an instance with the inputs accepted before it: a final status that was reported, or
that its waiter is about to read, finds them settled, and as long as the output can still be the
result of the wait it is theirs. -/
structure WaitOk (before : List Nat) (reported : Option Report) (inst : Instance) : Prop where
  accepted : ∀ taskId ∈ before, taskId ∈ inst.accepted
  settled : (reported.getD (.found inst.status)).isFinal →
    ∀ taskId ∈ before, taskId ∈ inst.settled.map Prod.fst
  output : reported.getD (.found .completed) = .found .completed →
    inst.lastOutput = lastOutputOf before inst.settled

variable {before : List Nat} {reported : Option Report} {inst : Instance}

theorem settled_of_queued (h : inst.Ok) (haccepted : ∀ taskId ∈ before, taskId ∈ inst.accepted)
    {ops : List QueuedOp} (hunsettled : inst.unsettled = queuedInputs ops)
    (hqueued : ∀ op ∈ queuedInputs ops, op.taskId ∉ before) :
    ∀ taskId ∈ before, taskId ∈ inst.settled.map Prod.fst := by
  intro taskId hmem
  have hin := haccepted taskId hmem
  rw [h.ordered, mem_append, hunsettled] at hin
  refine hin.resolve_right fun hlater => ?_
  obtain ⟨op, hop, rfl⟩ := mem_map.mp hlater
  exact hqueued op hop hmem

theorem WaitOk.step (h : WaitOk before reported inst) (hok : inst.Ok) (event : WorkerEvent)
    (hfinal : reported = none → (inst.step event).status.isFinal →
      ∀ op ∈ queuedInputs inst.ops, op.taskId ∉ before)
    (hcompletes : reported = none ∨ reported = some (.found .completed) →
      ∀ op ∈ inst.completes event, op.taskId ∈ before) :
    WaitOk before reported (inst.step event) := by
  refine ⟨fun taskId hmem => ?_, fun hreported taskId hmem => ?_, fun hreported => ?_⟩
  · rw [Instance.accepted_step]
    exact h.accepted taskId hmem
  · cases reported with
    | some report => exact inst.settled_step event (h.settled hreported taskId hmem)
    | none =>
      rcases inst.final_step event hreported with hbefore | hunsettled
      · exact inst.settled_step event (h.settled hbefore taskId hmem)
      · refine settled_of_queued (hok.step event) (fun taskId hmem => ?_) hunsettled
          (hfinal rfl hreported) taskId hmem
        rw [Instance.accepted_step]
        exact h.accepted taskId hmem
  · have houtput := h.output hreported
    have hreported : reported = none ∨ reported = some (.found .completed) := by
      cases reported with
      | none => exact .inl rfl
      | some report => exact .inr (congrArg some hreported)
    have hmine := hcompletes hreported
    have hstepped := inst.stepped event
    generalize inst.step event = next at hstepped
    cases hstepped with
    | same | claims | closes | admits | goesOn | queuesShutdown | closed => exact houtput
    | completes op text hphase =>
      have hmem : op.taskId ∈ before := hmine op (by simp [Instance.completes, hphase])
      rw [lastOutputOf_append before inst.settled _ _ (.inl hmem)]
      rfl
    | fails _ op =>
      rw [lastOutputOf_append before inst.settled _ _ (.inr rfl)]
      exact houtput

theorem WaitOk.send (h : WaitOk before reported inst) (op : UserInput) :
    WaitOk before reported (inst.send op) := by
  refine ⟨fun taskId hmem => mem_append_left _ (h.accepted taskId hmem),
    fun hreported => ?_, h.output⟩
  cases reported with
  | some report => exact h.settled hreported
  | none => cases hreported

theorem WaitOk.report (h : WaitOk before none inst) :
    WaitOk before (some (.found inst.status)) inst :=
  ⟨h.accepted, h.settled, fun _ => h.output rfl⟩

theorem waitOk_accepted (hok : inst.Ok) (hfinal : inst.status.isFinal → inst.unsettled = [])
    (hreported : reported = none ∨ reported = some (.found inst.status)) :
    WaitOk inst.accepted reported inst := by
  refine ⟨fun _ => id, fun hstatus taskId hmem => ?_, fun _ => ?_⟩
  · have hunsettled := hfinal (by rcases hreported with rfl | rfl <;> exact hstatus)
    simpa [hok.ordered, hunsettled] using hmem
  · have hall : inst.settled.filter (fun t => t.1 ∈ inst.accepted) = inst.settled := by
      rw [filter_eq_self]
      intro t ht
      simp only [hok.ordered, decide_eq_true_eq]
      exact mem_append_left _ (mem_map_of_mem ht)
    rw [lastOutputOf, hall, hok.output]

theorem waitOk_notFound (inst : Instance) : WaitOk [] (some .notFound) inst :=
  ⟨fun _ hmem => (by cases hmem), fun _ _ hmem => (by cases hmem),
    fun hreported => (by cases hreported)⟩

namespace Control

variable {s : Control}

def InstancesOk (s : Control) : Prop := ∀ id, ∀ inst ∈ s.instances id, inst.Ok

theorem InstancesOk.update (h : InstancesOk s) (id nextTask : Nat) {inst : Instance}
    (hinst : inst.Ok) :
    InstancesOk { s with instances := Function.update s.instances id (some inst), nextTask } := by
  intro other inst' hother
  simp only [Function.update_apply] at hother
  split at hother
  · cases hother
    exact hinst
  · exact h other inst' hother

theorem InstancesOk.step (h : InstancesOk s) (action : WaitAction) :
    InstancesOk (s.step action) := by
  cases action with
  | spawn id query =>
    simp only [Control.step]
    split
    · exact h.update id _ (Instance.ok_spawned _)
    · exact h
  | sendInput id query =>
    simp only [Control.step]
    split
    · next inst hinst =>
      split
      · exact h
      · exact h.update id _ ((h id inst hinst).send _)
    · exact h
  | worker id event =>
    simp only [Control.step]
    split
    · next inst hinst => exact h.update id _ ((h id inst hinst).step event)
    · exact h
  | wait ids => exact h
  | resolve wait id =>
    simp only [Control.step]
    split <;> exact h
  | «return» wait =>
    simp only [Control.step]
    split <;> exact h

structure Ok (s : Control) : Prop where
  found : ∀ w ∈ s.waits, ∀ id ∈ w.targets, ∀ inst ∈ s.instances id,
    WaitOk (w.before id) (w.statuses id) inst
  unknown : ∀ w ∈ s.waits, ∀ id ∈ w.targets, s.instances id = none →
    w.statuses id = some .notFound ∧ w.before id = []
  returned : ∀ r ∈ s.returned, r.Sound

theorem ok_init : Ok init :=
  ⟨fun _ h => (by cases h), fun _ h => (by cases h), fun _ h => (by cases h)⟩

theorem Ok.update (h : Ok s) (id nextTask : Nat) {inst : Instance}
    (hwaits : ∀ w ∈ s.waits, id ∈ w.targets → WaitOk (w.before id) (w.statuses id) inst) :
    Ok { s with instances := Function.update s.instances id (some inst), nextTask } := by
  refine ⟨fun w hw other htarget inst' hother => ?_, fun w hw other htarget hother => ?_,
    h.returned⟩
  all_goals
    simp only [Function.update_apply] at hother
    split at hother
  · next heq =>
    subst heq
    cases hother
    exact hwaits w hw htarget
  · exact h.found w hw other htarget inst' hother
  · cases hother
  · exact h.unknown w hw other htarget hother

theorem Ok.spawn (h : Ok s) (id : Nat) (query : Text) : Ok (s.step (.spawn id query)) := by
  simp only [step]
  split
  · next hnone =>
    refine h.update id _ fun w hw htarget => ?_
    obtain ⟨hstatus, hbefore⟩ := h.unknown w hw id htarget hnone
    rw [hstatus, hbefore]
    exact waitOk_notFound _
  · exact h

theorem Ok.sendInput (h : Ok s) (id : Nat) (query : Text) : Ok (s.step (.sendInput id query)) := by
  simp only [step]
  split
  · next inst hinst =>
    split
    · exact h
    · exact h.update id _ fun w hw htarget =>
        (h.found w hw id htarget inst hinst).send _
  · exact h

theorem Ok.worker (h : Ok s) (hall : InstancesOk s) (id : Nat) (event : WorkerEvent)
    (hquiet : Undisturbed s (.worker id event)) : Ok (s.step (.worker id event)) := by
  simp only [step]
  split
  · next inst hinst =>
    refine h.update id _ fun w hw htarget => ?_
    obtain ⟨hfinal, hcompletes⟩ := hquiet inst hinst w hw htarget
    exact (h.found w hw id htarget inst hinst).step (hall id inst hinst) event hfinal hcompletes
  · exact h

theorem Ok.wait (h : Ok s) (hall : InstancesOk s) (ids : List Nat)
    (hquiet : Undisturbed s (.wait ids)) : Ok (s.step (.wait ids)) := by
  refine ⟨fun w hw id htarget inst hinst => ?_, fun w hw id htarget hnone => ?_,
    h.returned⟩
  all_goals rcases mem_append.mp hw with hw | hw
  · exact h.found w hw id htarget inst hinst
  · cases mem_singleton.mp hw
    have hinst : s.instances id = some inst := hinst
    have hfinal := hquiet id (mem_dedup.mp htarget) inst hinst
    simp only [hinst, Option.map_some, Option.getD_some, firstStatus]
    refine waitOk_accepted (hall id inst hinst) hfinal ?_
    split
    · exact .inr rfl
    · exact .inl rfl
  · exact h.unknown w hw id htarget hnone
  · cases mem_singleton.mp hw
    have hnone : s.instances id = none := hnone
    simp [hnone, firstStatus]

theorem Ok.resolve (h : Ok s) (wait id : Nat) : Ok (s.step (.resolve wait id)) := by
  simp only [step]
  split
  case h_2 => exact h
  next w hwait =>
  have hold : w ∈ s.waits := mem_of_getElem? hwait
  have hsame : s.waits.set wait w = s.waits := by
    obtain ⟨hlt, rfl⟩ := List.getElem?_eq_some_iff.mp hwait
    exact set_getElem_self hlt
  unfold Control.resolve
  split
  · next inst hinst =>
    split
    · next hends =>
      refine ⟨fun w' hw' other htarget inst' hother => ?_,
        fun w' hw' other htarget hnone => ?_, h.returned⟩
      all_goals rcases mem_or_eq_of_mem_set hw' with hw' | rfl
      · exact h.found w' hw' other htarget inst' hother
      · simp only [Function.update_apply]
        split
        · next heq =>
          subst heq
          have hother : s.instances other = some inst' := hother
          cases hinst.symm.trans hother
          have hwaiting := h.found w hold other htarget inst hinst
          rw [hends.2.1] at hwaiting
          exact hwaiting.report
        · exact h.found w hold other htarget inst' hother
      · exact h.unknown w' hw' other htarget hnone
      · simp only [Function.update_apply]
        split
        · next heq =>
          subst heq
          cases hinst.symm.trans hnone
        · exact h.unknown w hold other htarget hnone
    · rwa [hsame]
  · rwa [hsame]

theorem lastOutput_of_resultOf {report : Report} {id : Nat} {inst : Instance} {text : Text}
    (hinst : s.instances id = some inst) (h : s.resultOf report id = some text) :
    report = .found .completed ∧ inst.lastOutput = some text := by
  unfold resultOf at h
  split at h
  · next hcompleted =>
    rw [hinst, Option.bind_some, Option.filter_eq_some_iff] at h
    exact ⟨hcompleted, h.1⟩
  · cases h

theorem Ok.waitResult (h : Ok s) {w : WaitCall} (hw : w ∈ s.waits) : (s.waitResult w).Sound := by
  intro _ id htarget
  cases hinst : s.instances id with
  | some inst =>
    have hwait := h.found w hw id htarget inst hinst
    have hstatus : s.getStatus id = .found inst.status := by simp [getStatus, hinst]
    simp only [Control.waitResult, hinst, hstatus, Option.map_some, Option.getD_some]
    refine ⟨hwait.settled, fun text htext => ?_⟩
    obtain ⟨hreport, houtput⟩ := lastOutput_of_resultOf hinst htext
    rw [← houtput]
    refine (hwait.output ?_).symm
    cases hreported : w.statuses id with
    | none => rfl
    | some report => rwa [hreported] at hreport
  | none =>
    obtain ⟨hstatus, hbefore⟩ := h.unknown w hw id htarget hinst
    simp [Control.waitResult, hinst, hstatus, hbefore, resultOf]

theorem Ok.return (h : Ok s) (wait : Nat) : Ok (s.step (.return wait)) := by
  simp only [step]
  split
  · next w hwait =>
    refine ⟨fun w' hw' => h.found w' (mem_of_mem_eraseIdx hw'),
      fun w' hw' => h.unknown w' (mem_of_mem_eraseIdx hw'), fun r hr => ?_⟩
    rcases mem_append.mp hr with hr | hr
    · exact h.returned r hr
    · rw [mem_singleton.mp hr]
      exact h.waitResult (mem_of_getElem? hwait)
  · exact h

theorem InstancesOk.quiet (h : InstancesOk s) {id : Nat} {inst : Instance}
    (hinst : inst ∈ s.instances id) (hops : inst.ops = []) (hturn : inst.turnClaimed = false) :
    inst.status ≠ .pendingInit ∧ inst.status ≠ .running := by
  refine (h id inst hinst).quiet ?_ ?_
  · rw [hops]; rfl
  · unfold Phase.owesStatus
    split <;> simp_all [Instance.turnClaimed]

def oneInput : List WaitAction :=
  [.spawn 0 ['q'], .wait [0], .worker 0 .take, .worker 0 .admitted,
    .worker 0 (.result (some ['a'])), .resolve 0 0, .worker 0 .returned, .worker 0 .handled,
    .return 0]

def twoInputs : List WaitAction :=
  [.spawn 0 ['q'], .sendInput 0 ['r'], .wait [0], .worker 0 .take, .worker 0 .admitted,
    .worker 0 (.result (some ['a'])), .resolve 0 0, .return 0]

end Control

end JiuwenSpec.Subagent.Waiting

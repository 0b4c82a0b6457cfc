import JiuwenSpec.Swarm.JournalCrash
import JiuwenSpec.Swarm.Replies
import JiuwenSpec.Swarm.SpawnLimit

/-!
# Resumed runs

A run is interrupted, and started again with what its log holds. A call looks its record up
before it goes to the backend; below the spawn limit, each reply is the one that an uninterrupted
run gives, so the run can only end as that one does.
Source: `agent_teams/workflow/engine/primitives.py`, `agent_teams/workflow/engine/journal.py`,
`agent_teams/workflow/engine/runner.py`.
-/

namespace JiuwenSpec.Swarm

open Base

/-- What the runs under one id are started with: the script, its models and schemas, a backend
that is a function of the call and the attempt, and the journal files besides the log of the run,
which hold no record of it. -/
structure Workflow (S V R C D σ : Type) where
  scripts : Scripts S V R
  script : S
  give : Value D → V
  models : Models C D
  schema : R → Schema C
  identity : R → Identity
  kind : R → CallKind σ
  backend : Path → R → Nat → Reply
  retries : Nat
  spawnLimit : Nat
  runId : Text
  files : JournalFiles
  shared : Dict Text Record
  loads : load { files with wal := none } = some shared
  foreign : ∀ key r, shared.get? key = some r → r.text? runIdName ≠ some runId

/-- The state of a run: its tasks, the records it was started with, the log, of which `left` had
been completed then, and where its calls stand. `live` are the calls that went on to the backend,
`served` the records served. -/
structure World (S V R σ : Type) where
  flow : Flow S V R
  prior : Dict Text Record := Dict.empty
  wal : Wal := {}
  left : List Record := []
  spawnCount : Nat := 0
  sids : List σ := []
  waiting : List Path := []
  inFlight : List Path := []
  live : List (Scripts.Call R) := []
  served : List Record := []

/-- What happens next: the task at a position goes on, its call looks up the journal, is let in
by the gate or is answered; a session is closed; the process ends, in the middle of an append or
not, and the run is started again. -/
inductive RunEvent (σ : Type) where
  | go (p : List Nat)
  | enter (p : List Nat)
  | acquired (p : List Nat)
  | finish (p : List Nat)
  | aclose (session : σ)
  | crash (p : List Nat) (n : Nat)
  | interrupt

namespace Workflow

variable {S V R C D σ : Type} (E : Workflow S V R C D σ)

def outcome (key : Path) (req : R) : Option (Outcome D) :=
  attemptCalls E.models (E.schema req) (E.backend key req) (E.retries + 1) 1

/-- What a call returns: the result, or `None` where it fails. -/
def answer (key : Path) (req : R) : Option V :=
  some (E.give ((E.outcome key req).elim .none Outcome.result))

def record (key : Path) (req : R) (outcome : Outcome D) : Record :=
  makeRecord E.models key (E.identity req) E.runId outcome

def cached (prior : Dict Text Record) (call : Scripts.Call R) : Option Record :=
  getCached prior (keyStr call.1) (E.identity call.2).sig (some E.runId)

/-- The run starts, with the records of all files. -/
def boot (wal : Wal) : World S V R σ :=
  match load { E.files with wal := some wal.file } with
  | none => { flow := .done none, wal := wal }
  | some prior =>
    { flow := Scripts.start E.script, prior := prior, wal := wal, left := wal.completed }

def fresh : World S V R σ := E.boot {}

def resume (w : World S V R σ) (p : List Nat) (v : Option V) : World S V R σ :=
  match E.scripts.advance (fun _ _ => v) p w.flow with
  | none => w
  | some e => { w with flow := e.2 }

/-- A call without a record: `None` at the spawn limit, else it waits at the gate; a human turn
passes by both. -/
def drive (w : World S V R σ) (p : List Nat) (call : Scripts.Call R) : World S V R σ :=
  match E.kind call.2 with
  | .humanTurn _ => { w with inFlight := call.1 :: w.inFlight, live := call :: w.live }
  | _ =>
    if E.spawnLimit ≤ w.spawnCount then E.resume w p (some (E.give .none))
    else { w with waiting := call.1 :: w.waiting, live := call :: w.live }

variable [DecidableEq σ]

/-- The gate lets a call in; a turn counts where its session is not open. -/
def admitted (w : World S V R σ) (call : Scripts.Call R) : World S V R σ :=
  let entered := { w with
    waiting := w.waiting.erase call.1
    inFlight := call.1 :: w.inFlight }
  match E.kind call.2 with
  | .turn session =>
    if session ∈ w.sids then entered
    else { entered with spawnCount := w.spawnCount + 1, sids := session :: w.sids }
  | _ => { entered with spawnCount := w.spawnCount + 1 }

/-- The state after an event; what does not fit where the call stands changes nothing. -/
def step (w : World S V R σ) : RunEvent σ → World S V R σ
  | .go p =>
    match Flow.callAt p w.flow with
    | none => E.resume w p none
    | some _ => w
  | .enter p =>
    match Flow.callAt p w.flow with
    | none => w
    | some call =>
      if call.1 ∈ w.waiting ∨ call.1 ∈ w.inFlight then w
      else
        match E.cached w.prior call with
        | none => E.drive w p call
        | some r =>
          E.resume { w with served := r :: w.served } p
            ((rehydrate E.models r (E.schema call.2).cls?).map E.give)
  | .acquired p =>
    match Flow.callAt p w.flow with
    | none => w
    | some call => if call.1 ∈ w.waiting then E.admitted w call else w
  | .finish p =>
    match Flow.callAt p w.flow with
    | none => w
    | some call =>
      if call.1 ∈ w.inFlight then
        let ended := { w with inFlight := w.inFlight.erase call.1 }
        match E.outcome call.1 call.2 with
        | none => E.resume ended p (some (E.give .none))
        | some o =>
          E.resume { ended with wal := w.wal.step (.append (E.record call.1 call.2 o)) } p
            (some (E.give o.result))
      else w
  | .aclose session => { w with sids := w.sids.filter (fun s => s ≠ session) }
  | .crash p n =>
    match Flow.callAt p w.flow with
    | none => w
    | some call =>
      if call.1 ∈ w.inFlight then
        match E.outcome call.1 call.2 with
        | none => w
        | some o => E.boot (w.wal.step (.crash (E.record call.1 call.2 o) n))
      else w
  | .interrupt => E.boot w.wal

/-- No call without a record reaches the spawn limit, and each record is written so that it can
be read back. -/
def Allows (w : World S V R σ) : RunEvent σ → Prop
  | .enter p => ∀ call, Flow.callAt p w.flow = some call →
      call.1 ∉ w.waiting → call.1 ∉ w.inFlight → E.cached w.prior call = none →
      (∀ session, E.kind call.2 ≠ .humanTurn session) → w.spawnCount < E.spawnLimit
  | .finish p => ∀ call, Flow.callAt p w.flow = some call → call.1 ∈ w.inFlight →
      ∀ o, E.outcome call.1 call.2 = some o →
      w.wal.Allows (.append (E.record call.1 call.2 o))
  | .crash p n => ∀ call, Flow.callAt p w.flow = some call → call.1 ∈ w.inFlight →
      ∀ o, E.outcome call.1 call.2 = some o →
      w.wal.Allows (.crash (E.record call.1 call.2 o) n)
  | _ => True

def Uninterrupted (events : List (RunEvent σ)) : Prop :=
  ∀ e ∈ events, e ≠ .interrupt ∧ ∀ p n, e ≠ .crash p n

/-- A record of a call, under its key, its signature and the id of the run. -/
def Matches (r : Record) (call : Scripts.Call R) : Prop :=
  r.key = keyStr call.1 ∧ r.text? sigName = some (E.identity call.2).sig ∧
    r.text? runIdName = some E.runId

/-- What resuming promises at a state: where an uninterrupted run returned, this one can still
return that and nothing else; no call with a record that was there goes to the backend; no record
of another run is served. -/
structure Equivalent (w : World S V R σ) : Prop where
  same : ∀ {events : List (RunEvent σ)} {u : World S V R σ} {r : Option V},
    Meets E.step E.Allows E.fresh events → Uninterrupted events →
    Reached E.step E.fresh events u → u.flow = .done r →
    (∃ es, Trace (E.scripts.advance E.answer) w.flow es (.done r)) ∧
      ∀ r', w.flow = .done r' → r' = r
  once : ∀ call ∈ w.live, ∀ r ∈ w.left, ¬ E.Matches r call
  own : ∀ r ∈ w.served, r.text? runIdName = some E.runId

end Workflow

end JiuwenSpec.Swarm

import JiuwenSpec.Base.Assoc
import JiuwenSpec.Base.Json
import JiuwenSpec.Base.Run

/-!
# Slots and identities of subagents

A control keeps a registry of metadata with a count of reservations, and a manager of instances. A
call looks its id up, takes a slot (perhaps by an eviction), awaits the construction of an instance
and commits. A step goes from one suspension of a call to the next.
Source: `harness/subagent_runtime/control.py`, `session_manager.py`, `registry.py`.
-/

namespace JiuwenSpec.Subagent

open Base

/-- What a call that takes a slot does with it. -/
inductive Admission where
  | spawn
  | resume
deriving DecidableEq

/-- Where a call is suspended; instances are named by the order of their creation. -/
inductive ControlPhase where
  /-- The victim of an eviction is being shut down. -/
  | evicting (victim : Text) (k : Nat)
  /-- The eviction is being persisted. -/
  | evicted
  /-- In `SubagentSessionManager.create`. -/
  | creating
  /-- An instance whose admission failed is being shut down; `registered` tells whether it was
  committed before. -/
  | removing (k : Nat) (registered : Bool)
  /-- In `SubagentInstance.shutdown`, of `close` or `cancel_all`. -/
  | closing (k : Nat)
  /-- `cancel_all` comes to the next id. -/
  | nextId
  | ended
deriving DecidableEq

/-- A call; `rest` are the ids that `cancel_all` has not come to. -/
structure ControlCall where
  admission : Admission
  subagentId : Text
  rest : List Text
  phase : ControlPhase

/-- `SubagentControl`, with the workers that are not shut down. -/
structure SubagentControl where
  maxSubagents : Nat
  workers : List (Nat × Text)
  nextInstance : Nat
  instances : List (Text × Nat)
  table : List Text
  pending : Nat
  calls : List ControlCall

inductive Creation where
  /-- The factory raises. -/
  | failed
  /-- The instance is made, and the admission refused before the commit. -/
  | refused
  /-- The instance is committed, and its first input refused. -/
  | rejected
  | admitted
deriving DecidableEq

inductive ControlEvent where
  /-- A shutdown ends, or raises. -/
  | shutdown (ok : Bool)
  /-- `persist` ends. -/
  | persisted
  | created (outcome : Creation)
  /-- The next id of `cancel_all`. -/
  | nextId

/-- One step. `victim` is the first evictable id in the order of use, when eviction is enabled. -/
inductive ControlOp where
  | spawn (subagentId : Text) (victim : Option Text)
  /-- `known` tells whether there is a record of the id. -/
  | resume (subagentId : Text) (known : Bool) (victim : Option Text)
  /-- `running` tells whether the instance runs a turn. -/
  | close (subagentId : Text) (running : Bool)
  | cancelAll
  | advance (c : Nat) (e : ControlEvent)

namespace SubagentControl

def init (limit : Nat) : SubagentControl := ⟨limit, [], 0, [], [], 0, []⟩

def setPhase (s : SubagentControl) (c : Nat) (call : ControlCall) (phase : ControlPhase) :
    SubagentControl := { s with calls := s.calls.set c { call with phase } }

def addCall (s : SubagentControl) (call : ControlCall) : SubagentControl :=
  { s with calls := s.calls ++ [call] }

/-- `find` has an instance that is not closed. -/
def live (s : SubagentControl) (subagentId : Text) : Bool :=
  match assocGet? subagentId s.instances with
  | some k => s.workers.contains (k, subagentId)
  | none => false

/-- `reserve_slot` succeeds. -/
def hasRoom (s : SubagentControl) : Bool := s.table.length + s.pending < s.maxSubagents

def register (s : SubagentControl) (subagentId : Text) : SubagentControl :=
  if s.table.contains subagentId then s else { s with table := s.table ++ [subagentId] }

def release (s : SubagentControl) (subagentId : Text) : SubagentControl :=
  { s with table := s.table.filter fun x => x ≠ subagentId }

/-- `_acquire_slot`, up to the first suspension of the admission. -/
def acquireSlot (s : SubagentControl) (call : ControlCall) (victim : Option Text) :
    SubagentControl :=
  if s.hasRoom then { s with pending := s.pending + 1 }.addCall { call with phase := .creating }
  else
    match victim with
    | none => s.addCall { call with phase := .ended }
    | some v =>
      match assocGet? v s.instances with
      | some k =>
        if s.table.contains v ∧ s.live v then s.addCall { call with phase := .evicting v k }
        else s.addCall { call with phase := .ended }
      | none => s.addCall { call with phase := .ended }

/-- An instance is shut down, and leaves the manager if it is still the one of its id. -/
def removed (s : SubagentControl) (subagentId : Text) (k : Nat) : SubagentControl :=
  { s with
    workers := s.workers.filter fun w => w.1 ≠ k
    instances := if assocGet? subagentId s.instances = some k
      then assocDelete subagentId s.instances else s.instances }

/-- A slot after an eviction. A resumed id that is live by now is registered as it is. -/
def takeSlot (s : SubagentControl) (c : Nat) (call : ControlCall) : SubagentControl :=
  if s.hasRoom then
    if call.admission = .resume ∧ s.live call.subagentId then
      (s.register call.subagentId).setPhase c call .ended
    else { s with pending := s.pending + 1 }.setPhase c call .creating
  else s.setPhase c call .ended

/-- The worker of a new instance is started, and the instance kept under its id. -/
def create (s : SubagentControl) (subagentId : Text) : SubagentControl :=
  { s with
    workers := s.workers ++ [(s.nextInstance, subagentId)]
    nextInstance := s.nextInstance + 1
    instances := assocSet subagentId s.nextInstance s.instances }

def created (s : SubagentControl) (c : Nat) (call : ControlCall) : Creation → SubagentControl
  | .failed => { s with pending := s.pending - 1 }.setPhase c call .ended
  | .refused =>
    ({ s with pending := s.pending - 1 }.create call.subagentId).setPhase c call
      (.removing s.nextInstance false)
  | .rejected =>
    (({ s with pending := s.pending - 1 }.create call.subagentId).register
      call.subagentId).setPhase c call (.removing s.nextInstance true)
  | .admitted =>
    (({ s with pending := s.pending - 1 }.create call.subagentId).register
      call.subagentId).setPhase c call .ended

/-- A suspended call goes on; an event that does not fit its phase does nothing. -/
def advance (s : SubagentControl) (c : Nat) (call : ControlCall) : ControlEvent → SubagentControl
  | .shutdown ok =>
    match call.phase with
    | .evicting v k =>
      if ok then ((s.removed v k).release v).setPhase c call .evicted
      else s.setPhase c call .ended
    | .removing k registered =>
      if ok then
        if registered then ((s.removed call.subagentId k).release call.subagentId).setPhase c call
          .ended
        else (s.removed call.subagentId k).setPhase c call .ended
      else s.setPhase c call .ended
    | .closing k =>
      if ok then ((s.removed call.subagentId k).release call.subagentId).setPhase c call .nextId
      else s.setPhase c call .nextId
    | _ => s
  | .persisted =>
    match call.phase with
    | .evicted => s.takeSlot c call
    | _ => s
  | .created outcome =>
    match call.phase with
    | .creating => s.created c call outcome
    | _ => s
  | .nextId =>
    match call.phase, call.rest with
    | .nextId, [] => s.setPhase c call .ended
    | .nextId, sid :: rest =>
      match assocGet? sid s.instances with
      | some k => s.setPhase c { call with subagentId := sid, rest } (.closing k)
      | none => (s.release sid).setPhase c { call with subagentId := sid, rest } .nextId
    | _, _ => s

def step (s : SubagentControl) : ControlOp → SubagentControl
  | .spawn subagentId victim =>
    if s.live subagentId then s
    else s.acquireSlot ⟨.spawn, subagentId, [], .ended⟩ victim
  | .resume subagentId known victim =>
    if s.live subagentId || !known then s
    else s.acquireSlot ⟨.resume, subagentId, [], .ended⟩ victim
  | .close subagentId running =>
    match assocGet? subagentId s.instances with
    | some k => if running then s else s.addCall ⟨.spawn, subagentId, [], .closing k⟩
    | none => s
  | .cancelAll => s.addCall ⟨.spawn, [], s.instances.map Prod.fst, .nextId⟩
  | .advance c e =>
    match s.calls[c]? with
    | some call => s.advance c call e
    | none => s

end SubagentControl

end JiuwenSpec.Subagent

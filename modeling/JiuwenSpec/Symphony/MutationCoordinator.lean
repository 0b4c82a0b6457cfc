import JiuwenSpec.Base.Assoc
import JiuwenSpec.Base.Json
import JiuwenSpec.Base.Run

/-!
# Graph mutations over one artifact root

Coordinators of several processes stage, activate and journal graph mutations. The operations of the
artifact store hold a file lock, so each is one step; a coordinator may stop between any two.
Source: `symphony/orchestration/mutation_service.py`, `mutations.py`, `artifacts.py`.
-/

namespace JiuwenSpec.Symphony

open Base

/-- The status of a `GraphMutationResult`. -/
inductive MutationStatus where
  | published
  | noop
deriving DecidableEq

/-- `GraphMutationResult`; `detail` stands for the operation, the source snapshot, the delta and the
diagnostics. -/
structure MutationResult where
  requestId : Text
  status : MutationStatus
  previousVersion : Text
  version : Text
  detail : Text

/-- The `mutation` entry of a graph payload. -/
structure Mutation where
  requestId : Text
  requestDigest : Text
  result : MutationResult

/-- An activation of a mutation: the version it replaced, and the one its payload was built over. -/
structure MutationActivation where
  mutation : Mutation
  overVersion : Text
  builtOver : Option Text

/-- Where a call of `mutate` stands. -/
inductive MutationPhase where
  /-- Before the look-up in the index of requests. -/
  | reading
  /-- The index has no record; the current artifact is read next. -/
  | recovering
  /-- The current artifact is of this request, and its result is recorded next. -/
  | rerecording (r : MutationResult)
  /-- Before the current version is read. -/
  | preparing
  /-- The inventory is loaded and the request validated over a version. -/
  | validating (version : Text)
  /-- The payload with this result is built. -/
  | staging (r : MutationResult)
  | staged (r : MutationResult)
  | recording (r : MutationResult)
  | returned (r : MutationResult)
  | failed
  /-- The process stopped, or an error of the file system ended the call. -/
  | crashed

def MutationPhase.over : MutationPhase → Bool
  | .returned _ | .failed | .crashed => true
  | _ => false

/-- A call of `mutate` with its normalized request; `used` is what was known of the request id when
the call began. -/
structure MutationCall where
  requestId : Text
  requestDigest : Text
  used : Option (Text × MutationResult)
  phase : MutationPhase

/-- The artifact root: `current.json`, the immutable versions, the index of requests; the calls,
and the activations so far. -/
structure ArtifactRoot where
  current : Option Text
  versions : List (Text × Option Mutation)
  requests : List (Text × (Text × MutationResult))
  calls : List MutationCall
  activations : List MutationActivation

inductive MutationEvent where
  /-- The next operation of the store. -/
  | next
  /-- The request is not valid over the version. -/
  | reject
  /-- There is nothing to change. -/
  | noop (detail : Text)
  /-- The payload is built, for a source snapshot with this content hash. -/
  | build (contentHash detail : Text)
  | crash

inductive MutationOp where
  | mutate (requestId requestDigest : Text)
  | advance (c : Nat) (e : MutationEvent)
  /-- A full build is published under a new version. -/
  | publish (version : Text)

/-- `mutation_version`: the first letters and digits of the content hash, and of the digest. -/
def mutationVersion (contentHash requestDigest : Text) : Text :=
  ['m', 'u', 't', 'a', 't', 'i', 'o', 'n', '-'] ++
    ((contentHash.filter Char.isAlphanum).take 16) ++ ['-'] ++
    requestDigest.take 16

namespace ArtifactRoot

def init : ArtifactRoot := ⟨none, [], [], [], []⟩

def currentMutation (s : ArtifactRoot) : Option Mutation :=
  s.current.bind fun v => (assocGet? v s.versions).join

/-- What is known of a request id: its activation, or else its record. -/
def used (s : ArtifactRoot) (requestId : Text) : Option (Text × MutationResult) :=
  match s.activations.find? fun e => e.mutation.requestId = requestId with
  | some e => some (e.mutation.requestDigest, e.mutation.result)
  | none => assocGet? requestId s.requests

def setPhase (s : ArtifactRoot) (c : Nat) (call : MutationCall) (phase : MutationPhase) :
    ArtifactRoot := { s with calls := s.calls.set c { call with phase } }

/-- `MutationJournal.read`: the index of requests. -/
def readRequest (s : ArtifactRoot) (c : Nat) (call : MutationCall) : ArtifactRoot :=
  match assocGet? call.requestId s.requests with
  | some (digest, r) =>
    if digest = call.requestDigest then s.setPhase c call (.returned r)
    else s.setPhase c call .failed
  | none => s.setPhase c call .recovering

/-- `MutationJournal.read`: the current artifact. -/
def recover (s : ArtifactRoot) (c : Nat) (call : MutationCall) : ArtifactRoot :=
  match s.currentMutation with
  | some m =>
    if m.requestId = call.requestId then
      if m.requestDigest = call.requestDigest then s.setPhase c call (.rerecording m.result)
      else s.setPhase c call .failed
    else s.setPhase c call .preparing
  | none => s.setPhase c call .preparing

/-- `record_mutation_request`. -/
def record (s : ArtifactRoot) (c : Nat) (call : MutationCall) (r : MutationResult) :
    ArtifactRoot :=
  match assocGet? call.requestId s.requests with
  | some (digest, _) =>
    if digest = call.requestDigest then
      { s.setPhase c call (.returned r) with
        requests := assocSet call.requestId (call.requestDigest, r) s.requests }
    else s.setPhase c call .failed
  | none =>
    { s.setPhase c call (.returned r) with
      requests := assocSet call.requestId (call.requestDigest, r) s.requests }

/-- `stage` with `reuse_existing`: an existing version of the same request is kept as it is. -/
def stage (s : ArtifactRoot) (c : Nat) (call : MutationCall) (r : MutationResult) :
    ArtifactRoot :=
  match assocGet? r.version s.versions with
  | some (some m) =>
    if m.requestId = call.requestId ∧ m.requestDigest = call.requestDigest then
      s.setPhase c call (.staged r)
    else s.setPhase c call .failed
  | some none => s.setPhase c call .failed
  | none =>
    { s.setPhase c call (.staged r) with
      versions := assocSet r.version (some ⟨call.requestId, call.requestDigest, r⟩) s.versions }

/-- `activate_if_current`. -/
def activate (s : ArtifactRoot) (c : Nat) (call : MutationCall) (r : MutationResult) :
    ArtifactRoot :=
  if s.current = some r.previousVersion then
    { s.setPhase c call (.recording r) with
      current := some r.version
      activations := s.activations ++ [⟨⟨call.requestId, call.requestDigest, r⟩, r.previousVersion,
        ((assocGet? r.version s.versions).join).map fun m => m.result.previousVersion⟩] }
  else s.setPhase c call .failed

def next (s : ArtifactRoot) (c : Nat) (call : MutationCall) : ArtifactRoot :=
  match call.phase with
  | .reading => s.readRequest c call
  | .recovering => s.recover c call
  | .rerecording r => s.record c call r
  | .preparing =>
    match s.current with
    | some v => s.setPhase c call (.validating v)
    | none => s.setPhase c call .failed
  | .staging r => s.stage c call r
  | .staged r => s.activate c call r
  | .recording r => s.record c call r
  | .validating _ | .returned _ | .failed | .crashed => s

/-- A call goes on; an event that does not fit its phase does nothing. -/
def advance (s : ArtifactRoot) (c : Nat) (call : MutationCall) : MutationEvent → ArtifactRoot
  | .next => s.next c call
  | .reject =>
    match call.phase with
    | .validating _ => s.setPhase c call .failed
    | _ => s
  | .noop detail =>
    match call.phase with
    | .validating v => s.setPhase c call (.recording ⟨call.requestId, .noop, v, v, detail⟩)
    | _ => s
  | .build contentHash detail =>
    match call.phase with
    | .validating v =>
      s.setPhase c call (.staging ⟨call.requestId, .published, v,
        mutationVersion contentHash call.requestDigest, detail⟩)
    | _ => s
  | .crash => if call.phase.over then s else s.setPhase c call .crashed

def step (s : ArtifactRoot) : MutationOp → ArtifactRoot
  | .mutate requestId requestDigest =>
    { s with calls := s.calls ++ [⟨requestId, requestDigest, s.used requestId, .reading⟩] }
  | .advance c e =>
    match s.calls[c]? with
    | some call => s.advance c call e
    | none => s
  | .publish version =>
    match assocGet? version s.versions with
    | some _ => s
    | none => { s with current := some version, versions := assocSet version none s.versions }

end ArtifactRoot

end JiuwenSpec.Symphony

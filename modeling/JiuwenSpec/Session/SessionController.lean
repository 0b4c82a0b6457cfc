import Mathlib.Data.Finset.Basic
import Mathlib.Data.List.Sort
import JiuwenSpec.Base.Run
import JiuwenSpec.Session.SessionScope

/-!
# Chained sessions

The metadata of the sessions of a scope, a session with the downstream sessions it may read, and
its directory: one state file and one link file for each downstream. Times are microseconds.
Source: `core/session/session_controller/schema.py`, `data_container.py`, `chain_session.py`.
-/

namespace JiuwenSpec.Session

open Base

/-- `DEFAULT_DATA_CONTAINER_TYPE`. -/
def defaultContainerType : Text := ['a', 'g', 'e', 'n', 't']

structure SessionMeta where
  sessionId : Text
  createdAt : Nat
  updatedAt : Nat
  version : Nat
  isActive : Bool
  dataContainerType : Text
deriving DecidableEq

/-- `SessionMeta.create_new`. -/
def SessionMeta.createNew (id containerType : Text) (now : Nat) : SessionMeta where
  sessionId := id
  createdAt := now
  updatedAt := now
  version := 1
  isActive := true
  dataContainerType := containerType

structure ScopeSessionsMeta where
  sessionScopeKey : Text
  activeSession : Option Text
  sessions : List SessionMeta
deriving DecidableEq

namespace ScopeSessionsMeta

def getSession (m : ScopeSessionsMeta) (id : Text) : Option SessionMeta :=
  m.sessions.find? fun session => session.sessionId = id

/-- `sort_sessions`: the latest update first, stable. -/
def sortSessions (m : ScopeSessionsMeta) : ScopeSessionsMeta :=
  { m with sessions := m.sessions.insertionSort fun a b => b.updatedAt ≤ a.updatedAt }

def deactivateAllSessions (m : ScopeSessionsMeta) : ScopeSessionsMeta :=
  { m with
    activeSession := none
    sessions := m.sessions.map fun session => { session with isActive := false } }

def addSession (m : ScopeSessionsMeta) (session : SessionMeta) : ScopeSessionsMeta :=
  let cleared := if session.isActive then
    { m.deactivateAllSessions with activeSession := some session.sessionId } else m
  { cleared with sessions := cleared.sessions ++ [session] }.sortSessions

/-- The session becomes active; without such a session, `activate_session` returns `False`. -/
def activateSession (m : ScopeSessionsMeta) (id : Text) (now : Nat) : Option ScopeSessionsMeta :=
  (m.getSession id).map fun _ =>
    { m.deactivateAllSessions with
      activeSession := some id
      sessions := m.deactivateAllSessions.sessions.replaceF fun session =>
        if session.sessionId = id then some { session with isActive := true, updatedAt := now }
        else none }.sortSessions

def activeId (m : ScopeSessionsMeta) : Option Text := m.activeSession.filter fun id => id ≠ []

def getActiveSession (m : ScopeSessionsMeta) : Option SessionMeta := m.activeId.bind m.getSession

def ids (m : ScopeSessionsMeta) : List Text := m.sessions.map SessionMeta.sessionId

def Valid (m : ScopeSessionsMeta) : Prop := ∀ id ∈ m.activeSession, id ∈ m.ids

end ScopeSessionsMeta

inductive Permission where
  | read
deriving DecidableEq

/-- `permission.value`. -/
def Permission.value : Permission → Nat
  | .read => 1

/-- `Permission(level)`, a `ValueError` for other levels. -/
def Permission.ofValue (level : Nat) : Option Permission := if level = 1 then some .read else none

structure SharingPolicy where
  permission : Permission
  fieldScopes : Option (Finset Text)
deriving DecidableEq

abbrev Target := Text × Text

structure LinkFile where
  level : Nat
  fieldScopes : Option (Finset Text)
  createdAt : Nat

/-- The fields of a policy as they are written and read, the empty set as `None`. -/
def shownScopes (scopes : Option (Finset Text)) : Option (Finset Text) :=
  scopes.filter fun fields => fields ≠ ∅

def LinkFile.ofPolicy (policy : SharingPolicy) (now : Nat) : LinkFile :=
  ⟨policy.permission.value, shownScopes policy.fieldScopes, now⟩

def LinkFile.policy (link : LinkFile) : Option SharingPolicy :=
  (Permission.ofValue link.level).map fun permission => ⟨permission, shownScopes link.fieldScopes⟩

def linkName (target : Target) : Text := target.1 ++ '_' :: target.2

/-- `filename.split('_', 1)`; a name without an underscore is no link. -/
def targetOf : Text → Option Target
  | [] => none
  | c :: name =>
    if c = '_' then some ([], name) else (targetOf name).map fun target => (c :: target.1, target.2)

/-- The `meta` part of `state.data`. -/
structure StateMeta where
  createdAt : Nat
  updatedAt : Nat
  version : Nat
  isActive : Bool
  dataContainerType : Text

/-- The directory of a session. A link file that is marked as removed is deleted by the same flush,
so no link file keeps the mark. -/
structure SessionDir where
  state : Option StateMeta
  links : List (Text × LinkFile)

/-- A `ChainSession`, cached under its id. -/
structure ChainSession where
  sessionScope : SessionScope
  dataContainerType : Text
  downstreamPolicies : List (Target × SharingPolicy)
  createdAt : Nat
  updatedAt : Nat
  version : Nat
  isActive : Bool
deriving DecidableEq

/-- Write the link files one after another; a name the file system refuses ends the writing. -/
def writeLinks (writable : Text → Bool) (now : Nat) :
    List (Target × SharingPolicy) → List (Text × LinkFile) → List (Text × LinkFile) × Bool
  | [], links => (links, true)
  | e :: rest, links =>
    if writable (linkName e.1) then
      writeLinks writable now rest (assocSet (linkName e.1) (.ofPolicy e.2 now) links)
    else (links, false)

namespace ChainSession

/-- `ChainSession(...)`. -/
def init (scope : SessionScope) : ChainSession where
  sessionScope := scope
  dataContainerType := defaultContainerType
  downstreamPolicies := []
  createdAt := 0
  updatedAt := 0
  version := 1
  isActive := false

def updateFromMeta (x : ChainSession) (m : SessionMeta) : ChainSession :=
  { x with
    createdAt := m.createdAt
    updatedAt := m.updatedAt
    version := m.version
    isActive := m.isActive
    dataContainerType := if m.dataContainerType = [] then x.dataContainerType
      else m.dataContainerType }

/-- `session.is_active = True`. -/
def setActive (x : ChainSession) (now : Nat) : ChainSession :=
  { x with isActive := true, updatedAt := now }

def addDownstream (x : ChainSession) (target : Target) (policy : SharingPolicy) (now : Nat) :
    ChainSession :=
  { x with downstreamPolicies := assocSet target policy x.downstreamPolicies, updatedAt := now }

def removeDownstream (x : ChainSession) (target : Target) (now : Nat) : ChainSession :=
  if (assocGet? target x.downstreamPolicies).isSome then
    { x with downstreamPolicies := assocDelete target x.downstreamPolicies, updatedAt := now }
  else x

/-- `update_data`; the data container accepts the data or refuses it. -/
def updateData (x : ChainSession) (accepted : Bool) (now : Nat) : ChainSession :=
  if accepted then { x with version := x.version + 1, updatedAt := now } else x

/-- `flush`: the session, its directory, and whether every file was written. -/
def flush (x : ChainSession) (writable : Text → Bool) (now : Nat) (dir : SessionDir) :
    ChainSession × SessionDir × Bool :=
  let state : StateMeta := ⟨x.createdAt, now, x.version, x.isActive, x.dataContainerType⟩
  match writeLinks writable now x.downstreamPolicies dir.links with
  | (links, true) =>
    -- Link files that belong to no downstream are deleted.
    let current := x.downstreamPolicies.map fun e => linkName e.1
    ({ x with updatedAt := now }, ⟨state, links.filter fun e => current.contains e.1⟩, true)
  | (links, false) => ({ x with updatedAt := now }, ⟨state, links⟩, false)

def readLink (e : Text × LinkFile) : Option (Target × SharingPolicy) :=
  (targetOf e.1).bind fun target => e.2.policy.map fun policy => (target, policy)

def load (x : ChainSession) (dir : SessionDir) : ChainSession :=
  let loaded := match dir.state with
    | some m => { x with
        createdAt := m.createdAt
        updatedAt := m.updatedAt
        version := m.version
        isActive := m.isActive
        dataContainerType := m.dataContainerType }
    | none => x
  { loaded with
    downstreamPolicies := (dir.links.filterMap readLink).foldl
      (fun policies e => assocSet e.1 e.2 policies) loaded.downstreamPolicies }

end ChainSession

/-!
## The session controller

The controller of an agent caches session objects, keeps the metadata of every scope in
`sessions.json`, and builds a session anew when one is wanted that is not cached.
Source: `core/session/session_controller/session_controller.py`.
-/

/-- A controller, the file `sessions.json` and the directories of the sessions. -/
structure Sessions where
  sessionCache : List (Text × ChainSession)
  metaMap : List (SessionScope × ScopeSessionsMeta)
  metaFile : Option (List (Text × ScopeSessionsMeta))
  dirs : List (Text × SessionDir)

/-- What is given to a controller: its agent, the container type of new sessions, and the names
the file system takes for a link file. -/
structure Host where
  agentId : Text
  containerType : Text
  writable : Text → Bool

namespace Sessions

def init : Sessions := ⟨[], [], none, []⟩

variable (h : Host)

def loadSession (s : Sessions) (scope : SessionScope) (id : Text) : Sessions :=
  if (assocGet? id s.sessionCache).isSome then s
  else { s with sessionCache := assocSet id (.init scope) s.sessionCache }

/-- `_write_meta_file`. -/
def writeMeta (s : Sessions) : Sessions :=
  { s with metaFile := some (writeMetaFile h.agentId s.metaMap) }

/-- `session.flush()` of a cached session, and its answer. -/
def flushCached (s : Sessions) (id : Text) (now : Nat) : Sessions × Bool :=
  match assocGet? id s.sessionCache with
  | none => (s, true)
  | some x =>
    let dir := (assocGet? id s.dirs).getD ⟨none, []⟩
    ({ s with
      sessionCache := assocSet id (x.flush h.writable now dir).1 s.sessionCache
      dirs := assocSet id (x.flush h.writable now dir).2.1 s.dirs },
      (x.flush h.writable now dir).2.2)

/-- Flush every session of the list, and whether all of them answered `True`. -/
def flushEach (s : Sessions) (now : Nat) : List Text → Sessions × Bool
  | [] => (s, true)
  | id :: ids =>
    let first := s.flushCached h id now
    let rest := first.1.flushEach now ids
    (rest.1, first.2 && rest.2)

def flushThese (s : Sessions) (now : Nat) (ids : List Text) : Sessions :=
  let flushed := s.flushEach h now ids
  if flushed.2 then flushed.1.writeMeta h else flushed.1

def flush (s : Sessions) (now : Nat) : Sessions :=
  s.flushThese h now (s.sessionCache.map Prod.fst)

def flushSession (s : Sessions) (id : Text) (now : Nat) : Sessions :=
  if (assocGet? id s.sessionCache).isSome then s.flushThese h now [id] else s

def flushScope (s : Sessions) (scope : SessionScope) (now : Nat) : Sessions :=
  if (assocGet? scope s.metaMap).isSome then
    s.flushThese h now
      ((s.sessionCache.filter fun e => e.2.sessionScope = scope).map Prod.fst)
  else s

/-- Put a new session into the metadata and into the cache, and save it. -/
def addSession (s : Sessions) (scope : SessionScope) (scopeMeta : ScopeSessionsMeta) (id : Text)
    (now : Nat) : Sessions :=
  let session := SessionMeta.createNew id h.containerType now
  let added := { s with
    sessionCache := assocSet id ((ChainSession.init scope).updateFromMeta session) s.sessionCache
    metaMap := assocSet scope (scopeMeta.addSession session) s.metaMap }
  (added.flushCached h id now).1.writeMeta h

/-- `create_if_not_exists`: the error of an id that exists, or whether a session was created. -/
def createIfNotExists (s : Sessions) (scope : SessionScope) (id : Text) (now : Nat) :
    Except Text (Bool × Sessions) :=
  if (assocGet? id s.sessionCache).isSome ∨ ∃ e ∈ s.metaMap, (e.2.getSession id).isSome then
    .error ("Session ID ".toList ++ id ++ " already exists".toList)
  else
    let scopeMeta := (assocGet? scope s.metaMap).getD
      ⟨SessionScopeKey.text ⟨h.agentId, scope⟩, none, []⟩
    match scopeMeta.getActiveSession with
    | some active => .ok (false, s.loadSession scope active.sessionId)
    | none => .ok (true, s.addSession h scope scopeMeta id now)

/-- `get_scope_active_session`; the session it returns is cached. -/
def getScopeActiveSession (s : Sessions) (scope : SessionScope) : Sessions :=
  match (assocGet? scope s.metaMap).bind ScopeSessionsMeta.activeId with
  | some id => s.loadSession scope id
  | none => s

def scopeOf (s : Sessions) (id : Text) : Option SessionScope :=
  match assocGet? id s.sessionCache with
  | some x => some x.sessionScope
  | none => (s.metaMap.find? fun e => (e.2.getSession id).isSome).map Prod.fst

/-- `activate_session`; a session that is not found is a `KeyError`. -/
def activateSession (s : Sessions) (id : Text) (now : Nat) : Except Text Sessions :=
  match s.scopeOf id with
  | none => .error ("Session ".toList ++ id ++ " not found".toList)
  | some scope =>
    let loaded := s.loadSession scope id
    match (assocGet? scope s.metaMap).bind fun m => m.activateSession id now with
    | none => .ok loaded
    | some m =>
      let activated := { loaded with
        sessionCache := match assocGet? id loaded.sessionCache with
          | some x => assocSet id (x.setActive now) loaded.sessionCache
          | none => loaded.sessionCache
        metaMap := assocSet scope m loaded.metaMap }
      .ok ((activated.flushCached h id now).1.writeMeta h)

def modify (s : Sessions) (id : Text) (f : ChainSession → ChainSession) : Sessions :=
  match assocGet? id s.sessionCache with
  | some x => { s with sessionCache := assocSet id (f x) s.sessionCache }
  | none => s

/-- The entry of a scope in `load`; a key that cannot be parsed is logged and left out. -/
def loadEntry (activeOnly : Bool) (s : Sessions) (e : Text × ScopeSessionsMeta) : Sessions :=
  match SessionScopeKey.ofText e.1 with
  | .error _ => s
  | .ok key =>
    let ids := if activeOnly then e.2.activeId.toList else e.2.ids
    ids.foldl (fun s id => s.loadSession key.sessionScope id)
      { s with metaMap := assocSet key.sessionScope e.2 s.metaMap }

def load (s : Sessions) (activeOnly : Bool) : Sessions :=
  match s.metaFile with
  | none => s
  | some file => file.foldl (loadEntry activeOnly) { s with metaMap := [] }

def restart (s : Sessions) (activeOnly : Bool) : Sessions :=
  load { s with sessionCache := [], metaMap := [] } activeOnly

/-- What is done with a controller and the sessions it caches. -/
inductive Op where
  | create (scope : SessionScope) (id : Text)
  | activate (id : Text)
  | getActive (scope : SessionScope)
  | addDownstream (id : Text) (target : Target) (policy : SharingPolicy)
  | removeDownstream (id : Text) (target : Target)
  | updateData (id : Text) (accepted : Bool)
  | flush
  | flushSession (id : Text)
  | flushScope (scope : SessionScope)
  | restart (activeOnly : Bool)

/-- An operation at the time its clock reads; one that raises changes nothing. -/
def step (s : Sessions) (op : Nat × Op) : Sessions :=
  match op.2 with
  | .create scope id =>
    match s.createIfNotExists h scope id op.1 with
    | .ok (_, t) => t
    | .error _ => s
  | .activate id =>
    match s.activateSession h id op.1 with
    | .ok t => t
    | .error _ => s
  | .getActive scope => s.getScopeActiveSession scope
  | .addDownstream id target policy => s.modify id fun x => x.addDownstream target policy op.1
  | .removeDownstream id target => s.modify id fun x => x.removeDownstream target op.1
  | .updateData id accepted => s.modify id fun x => x.updateData accepted op.1
  | .flush => s.flush h op.1
  | .flushSession id => s.flushSession h id op.1
  | .flushScope scope => s.flushScope h scope op.1
  | .restart activeOnly => s.restart activeOnly

end Sessions

end JiuwenSpec.Session

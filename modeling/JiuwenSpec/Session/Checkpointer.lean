import JiuwenSpec.Base.Dict

/-!
# Checkpointers and what they delete

The in-memory checkpointer keeps a store for each kind of state by session; the persistent
one keeps everything in one key-value store under keys joined by colons. Both find graph
states by a prefix of their namespace when they delete.
Source: `core/session/checkpointer/inmemory.py`, `core/session/checkpointer/persistence.py`,
`core/session/checkpointer/base.py`, `core/graph/store/inmemory.py`.
-/

namespace JiuwenSpec.Session

open Base

universe u

/-- `s.startswith(p)`. -/
def startsWith (s p : String) : Bool := p.toList.isPrefixOf s.toList

inductive Entry where
  | agent (sessionId agentId : String)
  | agentTeam (sessionId teamId : String)
  | workflowState (sessionId workflowId : String)
  | workflowUpdates (sessionId workflowId : String)
  | graphState (sessionId ns : String)

def Entry.sessionId : Entry → String
  | agent s _ => s
  | agentTeam s _ => s
  | workflowState s _ => s
  | workflowUpdates s _ => s
  | graphState s _ => s

/-- A deletion: `graph_store().delete`, the clean-up when a workflow has completed, which
looks at whether the session has an agent session as its parent, and `release`. -/
inductive Deletion where
  | graph (sessionId : String) (ns : Option String)
  | workflow (sessionId workflowId : String) (parentIsAgent : Bool)
  | release (sessionId : String) (agentId : Option String)

structure WorkflowStorage (β : Type u) where
  stateBlobs : Dict String β
  stateUpdatesBlobs : Dict String β

/-- `InMemoryCheckpointer`, with the `store_ck` of its graph store. -/
structure InMemoryCheckpointer (β : Type u) where
  agentStores : Dict String (Dict String β)
  agentTeamStores : Dict String (Dict String β)
  workflowStores : Dict String (WorkflowStorage β)
  graphStore : Dict String (Dict String β)
  sessionToWorkflowIds : Dict String (List String)

variable {β : Type u}

def deleteNsByPrefix (subMap : Dict String β) (pre : String) : Dict String β :=
  subMap.filter fun ns _ => !startsWith ns pre

/-- `InMemoryStore.delete`. -/
def inMemoryStoreDelete (store : Dict String (Dict String β)) (sessionId : String)
    (ns : Option String) : Dict String (Dict String β) :=
  match store.get? sessionId with
  | none => store
  | some subMap =>
    match ns with
    | none => store.erase sessionId
    | some pre =>
      let left := deleteNsByPrefix subMap pre
      if left.entries.isEmpty then store.erase sessionId else store.set sessionId left

/-- `WorkflowStorage.clear`. -/
def WorkflowStorage.clear (store : WorkflowStorage β) (workflowId : String) : WorkflowStorage β where
  stateBlobs := store.stateBlobs.erase workflowId
  stateUpdatesBlobs := store.stateUpdatesBlobs.erase workflowId

namespace InMemoryCheckpointer

/-- `_inner_clear_workflow_session`. -/
def clearWorkflowSession (c : InMemoryCheckpointer β) (sessionId workflowId : String) :
    InMemoryCheckpointer β :=
  let c := { c with graphStore := inMemoryStoreDelete c.graphStore sessionId (some workflowId) }
  match c.workflowStores.get? sessionId with
  | none => c
  | some store =>
    { c with
      workflowStores := c.workflowStores.set sessionId (store.clear workflowId)
      sessionToWorkflowIds := c.sessionToWorkflowIds.mapValues fun s ids =>
        if s = sessionId then ids.filter (· ≠ workflowId) else ids }

/-- `post_workflow_execute` of a workflow that completed. -/
def postWorkflowCompletion (c : InMemoryCheckpointer β) (sessionId workflowId : String)
    (parentIsAgent : Bool) : InMemoryCheckpointer β :=
  let c := c.clearWorkflowSession sessionId workflowId
  if parentIsAgent then c
  else
    { c with
      workflowStores := c.workflowStores.erase sessionId
      sessionToWorkflowIds := c.sessionToWorkflowIds.erase sessionId }

def release (c : InMemoryCheckpointer β) (sessionId : String) (agentId : Option String) :
    InMemoryCheckpointer β :=
  match agentId with
  | some agentId =>
    { c with
      agentStores := c.agentStores.mapValues fun s store =>
        if s = sessionId then store.erase agentId else store }
  | none =>
    let workflowIds := (c.sessionToWorkflowIds.get? sessionId).getD []
    { agentStores := c.agentStores.filter fun sid _ => !startsWith sid sessionId
      agentTeamStores := c.agentTeamStores.erase sessionId
      workflowStores := c.workflowStores.erase sessionId
      graphStore := workflowIds.foldl (fun store workflowId =>
        inMemoryStoreDelete store sessionId (some workflowId)) c.graphStore
      sessionToWorkflowIds := c.sessionToWorkflowIds.erase sessionId }

def delete (c : InMemoryCheckpointer β) : Deletion → InMemoryCheckpointer β
  | .graph sessionId ns =>
    { c with graphStore := inMemoryStoreDelete c.graphStore sessionId ns }
  | .workflow sessionId workflowId parentIsAgent =>
    c.postWorkflowCompletion sessionId workflowId parentIsAgent
  | .release sessionId agentId => c.release sessionId agentId

def recover (c : InMemoryCheckpointer β) : Entry → Option β
  | .agent s a => (c.agentStores.get? s).bind (·.get? a)
  | .agentTeam s t => (c.agentTeamStores.get? s).bind (·.get? t)
  | .workflowState s w => (c.workflowStores.get? s).bind (·.stateBlobs.get? w)
  | .workflowUpdates s w => (c.workflowStores.get? s).bind (·.stateUpdatesBlobs.get? w)
  | .graphState s ns => (c.graphStore.get? s).bind (·.get? ns)

end InMemoryCheckpointer

def buildKey (parts : List String) : String := ":".intercalate parts

/-- The keys of an entry, that of the serializer's type before that of the value. -/
def Entry.keys : Entry → List String
  | agent s a =>
    [buildKey [s, "agent", a, "agent_state_blobs_dump_type"],
      buildKey [s, "agent", a, "agent_state_blobs"]]
  | agentTeam s t =>
    [buildKey [s, "agent-team", t, "agent_team_state_blobs_dump_type"],
      buildKey [s, "agent-team", t, "agent_team_state_blobs"]]
  | workflowState s w =>
    [buildKey [s, "workflow", w, "workflow_state_blobs_dump_type"],
      buildKey [s, "workflow", w, "workflow_state_blobs"]]
  | workflowUpdates s w =>
    [buildKey [s, "workflow", w, "workflow_update_blobs_dump_type"],
      buildKey [s, "workflow", w, "workflow_update_blobs"]]
  | graphState s ns =>
    [buildKey [s, "workflow-graph", ns, "checkpoint_data_type"],
      buildKey [s, "workflow-graph", ns, "checkpoint_data_value"]]

/-- The prefix that `GraphStore.delete` deletes. -/
def graphPrefix (sessionId : String) (ns : Option String) : String :=
  match ns with
  | none => buildKey [sessionId, "workflow-graph"]
  | some ns =>
    if ns = "" then buildKey [sessionId, "workflow-graph"]
    else buildKey [sessionId, "workflow-graph", ns]

/-- The keys a `PersistenceCheckpointer` deletes: those with a prefix, as far as the store
tells, and those of a list. -/
def deletedKeys (hasPrefix : String → String → Bool) : Deletion → String → Bool
  | .graph s ns, k => hasPrefix k (graphPrefix s ns)
  | .workflow s w _, k =>
    hasPrefix k (graphPrefix s (some w)) ||
      ((Entry.workflowState s w).keys ++ (Entry.workflowUpdates s w).keys).contains k
  | .release s none, k => hasPrefix k (s ++ ":")
  | .release s (some a), k => (Entry.agent s a).keys.contains k

/-- A deletion by a `PersistenceCheckpointer`, over a store that tells prefixes by
`hasPrefix`. -/
def persistenceDelete (hasPrefix : String → String → Bool) (kv : Dict String β) (d : Deletion) :
    Dict String β := kv.filter fun k _ => !deletedKeys hasPrefix d k

def persistenceRecover (kv : Dict String β) (e : Entry) : List (Option β) := e.keys.map kv.get?

end JiuwenSpec.Session

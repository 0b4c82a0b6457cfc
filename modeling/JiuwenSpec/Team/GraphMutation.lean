import JiuwenSpec.Base.DepthFirst
import JiuwenSpec.Team.TaskBoard

/-!
# Cycle detection on the dependency graph

`detect_cycle_in_adjacency`: an iterative depth-first walk over the outgoing edges of
every task the adjacency map mentions. It returns nothing exactly when the graph has no
cycle.
Source: `agent_teams/tools/database/graph.py`.
-/

namespace JiuwenSpec.Team

open Base Base.DepthFirst List

/-- Outgoing edges: a task and the tasks it depends on. -/
abbrev Adjacency := Dict String (List String)

namespace Adjacency

def deps (adjacency : Adjacency) (node : String) : List String :=
  (adjacency.get? node).getD []

/-- The order in which the walk visits them: `children.pop()` takes the last one first. -/
def children (adjacency : Adjacency) (node : String) : List String :=
  (adjacency.deps node).reverse

/-- The keys of `color`: every node followed by its targets. A repeated key is not white
when the walk comes back to it. -/
def roots (adjacency : Adjacency) : List String :=
  adjacency.entries.flatMap (fun e => e.1 :: e.2)

/-- The turns a walk can take: each node is opened once and each edge looked at once. -/
def walkBound (adjacency : Adjacency) : Nat :=
  work adjacency.children adjacency.roots.toFinset + 1

/-- `adjacency.setdefault(src, []).append(dst)`. -/
def addEdge (adjacency : Adjacency) (src dst : String) : Adjacency :=
  adjacency.set src (adjacency.deps src ++ [dst])

def ofEdges (edges : List (String × String)) : Adjacency :=
  edges.foldl (fun adjacency e => adjacency.addEdge e.1 e.2) Dict.empty

theorem mem_deps_addEdge (adjacency : Adjacency) (src dst a b : String) :
    b ∈ (adjacency.addEdge src dst).deps a ↔ b ∈ adjacency.deps a ∨ (a = src ∧ b = dst) := by
  rw [addEdge, deps, Dict.get?_set]
  by_cases ha : a = src
  · subst ha
    simp
  · simp [ha, deps]

theorem mem_deps_ofEdges (edges : List (String × String)) (a b : String) :
    b ∈ (ofEdges edges).deps a ↔ (a, b) ∈ edges := by
  have h : ∀ (adjacency : Adjacency),
      b ∈ (edges.foldl (fun adj e => Adjacency.addEdge adj e.1 e.2) adjacency).deps a ↔
        b ∈ adjacency.deps a ∨ (a, b) ∈ edges := by
    induction edges with
    | nil => simp
    | cons e edges ih =>
      intro adjacency
      rw [foldl_cons, ih, mem_deps_addEdge, mem_cons, or_assoc, Prod.ext_iff]
  rw [ofEdges, h]
  simp [deps]

theorem mem_roots_of_dep {adjacency : Adjacency} {a b : String}
    (h : b ∈ adjacency.deps a) : a ∈ adjacency.roots ∧ b ∈ adjacency.roots := by
  rw [deps] at h
  cases hget : adjacency.get? a with
  | none =>
    rw [hget] at h
    simp at h
  | some targets =>
    rw [hget] at h
    have hentry := Dict.get?_eq_some_iff.mp hget
    exact ⟨mem_flatMap.mpr ⟨_, hentry, by simp⟩,
      mem_flatMap.mpr ⟨_, hentry, by simpa using Or.inr h⟩⟩

end Adjacency

/-- `detect_cycle_in_adjacency`: a cycle of task ids, or nothing. -/
def detectCycleInAdjacency (adjacency : Adjacency) : Option (List String) :=
  searchRoots adjacency.children adjacency.walkBound adjacency.roots (fun _ => .white)

theorem detectCycleInAdjacency_eq_none_iff (adjacency : Adjacency) :
    detectCycleInAdjacency adjacency = none ↔
      Acyclic (fun a b => b ∈ adjacency.deps a) := by
  have hchild : ∀ a b, Child adjacency.children a b ↔ b ∈ adjacency.deps a := by
    intro a b
    rw [Child, Adjacency.children, mem_reverse]
  have hnodes : ∀ a, ∀ b ∈ adjacency.children a, b ∈ adjacency.roots.toFinset := by
    intro a b hb
    exact mem_toFinset.mpr (Adjacency.mem_roots_of_dep ((hchild a b).mp hb)).2
  rw [← acyclic_congr hchild]
  apply searchRoots_eq_none_iff hnodes (Nat.lt_succ_self _)
  · exact fun a ha => mem_toFinset.mpr ha
  · intro a ha
    obtain ⟨b, hb⟩ := exists_mem_of_ne_nil _ ha
    exact (Adjacency.mem_roots_of_dep ((hchild a b).mp hb)).1

example : detectCycleInAdjacency (.ofEdges [("a", "b"), ("b", "c"), ("c", "a")]) =
    some ["a", "b", "c", "a"] := by decide

/-!
## Row helpers and the graph mutation

The building blocks of the task board's transactions: the status refresh
(`_refresh_status_in_session`), the terminal transition with its unblock cascade
(`_terminate_task_in_session`), and the pipeline of `mutate_dependency_graph`, which
inserts tasks and dependency edges in one transaction.
Source: `agent_teams/tools/database/task_dao.py`.
-/

/-- What a write to a content file does: it lands, fails with `OSError`, or the path leaves
the session root and `ValueError` is raised. -/
inductive PutOutcome where
  | written
  | ioError
  | escapesRoot
  deriving DecidableEq

/-- What an operation finds around it: the file store, the session and the clock. Addresses
that `_resolve` maps to one path are `resolve`d to one of them. -/
structure DaoEnv where
  hasFileStore : Bool
  sessionId : Option String
  put : FileAddress → PutOutcome
  now : Nat
  resolve : FileAddress → FileAddress := id

def contentInFile : String := "#file#"

def taskAddress (teamName sessionId taskId : String) : FileAddress :=
  { teamName := teamName, sessionId := sessionId, kind := "task", objectId := taskId }

/-- `_to_stored`: the files afterwards and the text for the `content` column; `none` when
`ValueError` escapes. -/
def toStored (env : DaoEnv) (files : Dict FileAddress String) (teamName content taskId : String) :
    Option (Dict FileAddress String × String) :=
  if content = "" then some (files, content)
  else if env.hasFileStore = false then some (files, content)
  else
    match env.sessionId with
    | none => some (files, content)
    | some sessionId =>
      if sessionId = "" then some (files, content)
      else
        let address := taskAddress teamName sessionId taskId
        match env.put address with
        | .written => some (files.set (env.resolve address) content, contentInFile)
        | .ioError => some (files, content)
        | .escapesRoot => none

namespace TaskBoard

/-- `count(*)` of the unresolved dependency rows of a task. -/
def unresolvedCount (b : TaskBoard) (taskId : String) : Nat :=
  (b.deps.entries.filter (fun e => e.1.1 = taskId ∧ e.2.resolved = false)).length

/-- One candidate of the refresh: PENDING with unresolved dependencies becomes BLOCKED,
BLOCKED without any becomes PENDING. -/
def refreshRow (b : TaskBoard) (now : Nat) (taskId : String) (task : TeamTask) : TeamTask :=
  let unresolved := b.unresolvedCount taskId
  if task.status = .pending ∧ 0 < unresolved then
    { task with status := .blocked, updatedAt := some now }
  else if task.status = .blocked ∧ unresolved = 0 then
    { task with status := .pending, updatedAt := some now }
  else task

/-- `_refresh_status_in_session`: the board and the rows whose status was flipped. The
empty id is filtered out (`if tid`). -/
def refreshStatusInSession (b : TaskBoard) (taskIds : List String) (now : Nat) :
    TaskBoard × List TaskRow :=
  let uniqueIds := taskIds.filter (fun tid => tid ≠ "")
  let refresh := fun tid task => if tid ∈ uniqueIds then b.refreshRow now tid task else task
  (b.updateTasks refresh,
    (b.tasks.entries.filter (fun e => refresh e.1 e.2 ≠ e.2)).map (fun e => (e.1, refresh e.1 e.2)))

def dependentsOf (b : TaskBoard) (taskId : String) : List String :=
  (b.deps.keys.filter (fun e => e.2 = taskId)).map Prod.fst

/-- `_terminate_task_in_session`: the guarded status flip and, when it applied, the
resolution of the rows on the task and the refresh of its dependents. `none` means missing
or moved concurrently; a task already there is returned with nothing unblocked. -/
def terminateTaskInSession (b : TaskBoard) (taskId : String) (newStatus : TerminalStatus)
    (now : Nat) : TaskBoard × Option (TaskRow × List TaskRow) :=
  let flip := fun task : TeamTask =>
    { task with status := newStatus.toStatus, updatedAt := some now }
  match b.tasks.get? taskId with
  | none => (b, none)
  | some task =>
    if task.status ∈ terminablePredecessors newStatus then
      let flipped := b.updateTasks (fun id t => if id = taskId then flip t else t)
      let resolved := flipped.resolveDependenciesOn taskId
      let (board, refreshed) :=
        resolved.refreshStatusInSession (resolved.dependentsOf taskId) now
      (board, some ((taskId, flip task), refreshed))
    else if task.status = newStatus.toStatus then (b, some ((taskId, task), []))
    else (b, none)

end TaskBoard

structure NewTaskSpec where
  taskId : String
  title : String
  content : String
  initialStatus : TaskStatus
  assignee : Option String := none
  reviewer : Option String := none
  maxReviewRounds : Option Int := none

/-- Why a mutation was rolled back: the reasons of `_MutationFailure`, and the database's
own `IntegrityError`. -/
inductive MutationFailure where
  | idsExist (ids : List String)
  | duplicateId (taskId : String)
  | taskNotFound (taskId : String)
  | targetNotFound (taskId : String)
  | rejectedStatus (taskId : String) (status : TaskStatus)
  | circular (cycle : List String)
  | integrity
  deriving DecidableEq

/-- The reason text of a failed mutation; `dbText` is what the database says. -/
def MutationFailure.reason (dbText : String) : MutationFailure → String
  | .idsExist ids => "Task id already exists: " ++ ", ".intercalate (ids.insertionSort (· ≤ ·))
  | .duplicateId taskId => "Duplicate task_id " ++ taskId ++ " in new_tasks"
  | .taskNotFound taskId => "Task " ++ taskId ++ " not found"
  | .targetNotFound taskId => "Dependency target " ++ taskId ++ " not found"
  | .rejectedStatus taskId status =>
    "Cannot add dependency to " ++ taskId ++ " in terminal or executing status: " ++ status.value
  | .circular cycle => "Circular dependency detected: " ++ " -> ".intercalate cycle
  | .integrity => "Integrity error: " ++ dbText

namespace TaskBoard

def newRow (teamName : String) (now : Nat) (spec : NewTaskSpec) : TeamTask where
  teamName := teamName
  title := spec.title
  content := spec.content
  status := spec.initialStatus
  assignee := spec.assignee
  reviewer := spec.reviewer
  maxReviewRounds := spec.maxReviewRounds
  updatedAt := some now

def firstDuplicate : List String → List String → Option String
  | _, [] => none
  | seen, tid :: rest => if tid ∈ seen then some tid else firstDuplicate (tid :: seen) rest

def insertTasks (teamName : String) (now : Nat) :
    TaskBoard → List NewTaskSpec → Option TaskBoard
  | b, [] => some b
  | b, spec :: specs =>
    (b.insertTask spec.taskId (newRow teamName now spec)).bind
      (fun b' => insertTasks teamName now b' specs)

def stageNewTasks (b : TaskBoard) (teamName : String) (newTasks : List NewTaskSpec) (now : Nat) :
    Except MutationFailure TaskBoard :=
  let newIds := newTasks.map NewTaskSpec.taskId
  let existingIds := b.tasks.keys.filter (fun tid => tid ∈ newIds)
  if existingIds ≠ [] then .error (.idsExist existingIds)
  else
    match firstDuplicate [] newIds with
    | some tid => .error (.duplicateId tid)
    | none =>
      match insertTasks teamName now b newTasks with
      | some staged => .ok staged
      | none => .error .integrity

/-- `_load_endpoints_and_validate`: every endpoint exists and no source is terminal or in
flight. -/
def loadEndpointsAndValidate (b : TaskBoard) : List (String × String) → Except MutationFailure Unit
  | [] => .ok ()
  | (tid, depId) :: edges =>
    match b.tasks.get? tid, b.tasks.get? depId with
    | none, _ => .error (.taskNotFound tid)
    | some _, none => .error (.targetNotFound depId)
    | some source, some _ =>
      if source.status ∈ taskDependencyRejectStatuses then
        .error (.rejectedStatus tid source.status)
      else loadEndpointsAndValidate b edges

def edgesOf (b : TaskBoard) (teamName : String) : List (String × String) :=
  (b.deps.entries.filter (fun e => e.2.teamName = teamName)).map Prod.fst

/-- The requested edges that are not stored yet, each once. -/
def freshEdges (existing : List (String × String)) :
    List (String × String) → List (String × String) → List (String × String)
  | fresh, [] => fresh
  | fresh, edge :: edges =>
    if existing.contains edge || fresh.contains edge then freshEdges existing fresh edges
    else freshEdges existing (fresh ++ [edge]) edges

/-- `_check_cycle_and_compute_new_edges`: the adjacency is that of the rows stored under
the team of the call, with the new edges. -/
def checkCycleAndComputeNewEdges (b : TaskBoard) (teamName : String)
    (addEdges : List (String × String)) : Except MutationFailure (List (String × String)) :=
  if addEdges = [] then .ok []
  else
    let existing := b.edgesOf teamName
    let newEdges := freshEdges existing [] addEdges
    match detectCycleInAdjacency (.ofEdges (existing ++ newEdges)) with
    | some cycle => .error (.circular cycle)
    | none => .ok newEdges

/-- `_apply_new_edges`: a row is born resolved when its target is terminal. -/
def applyNewEdges (teamName : String) :
    TaskBoard → List (String × String) → Option TaskBoard
  | b, [] => some b
  | b, edge :: edges =>
    let resolved := (b.status? edge.2).any (fun s => s ∈ taskTerminalStatuses)
    (b.insertDependency edge { teamName := teamName, resolved := resolved }).bind
      (fun b' => applyNewEdges teamName b' edges)

/-- The transaction of `mutate_dependency_graph`: the five steps and the refreshed rows. -/
def mutateInSession (b : TaskBoard) (teamName : String) (newTasks : List NewTaskSpec)
    (addEdges : List (String × String)) (now : Nat) :
    Except MutationFailure (TaskBoard × List TaskRow) := do
  let staged ← b.stageNewTasks teamName newTasks now
  staged.loadEndpointsAndValidate addEdges
  let newEdges ← staged.checkCycleAndComputeNewEdges teamName addEdges
  match applyNewEdges teamName staged newEdges with
  | none => .error .integrity
  | some wired =>
    .ok (wired.refreshStatusInSession
      (newTasks.map NewTaskSpec.taskId ++ newEdges.map Prod.fst) now)

/-- Spill the bodies of the new tasks one after another; the files written so far, and the
specs with their stored content unless `ValueError` escaped. -/
def spillNewTasks (env : DaoEnv) (teamName : String) :
    Dict FileAddress String → List NewTaskSpec →
      Dict FileAddress String × Option (List NewTaskSpec)
  | files, [] => (files, some [])
  | files, spec :: specs =>
    match toStored env files teamName spec.content spec.taskId with
    | none => (files, none)
    | some (files', content) =>
      let (files'', rest) := spillNewTasks env teamName files' specs
      (files'', rest.map (fun specs' => { spec with content := content } :: specs'))

/-- `mutate_dependency_graph`: `none` when `ValueError` escapes before the transaction, the
refreshed rows or the failure otherwise. A failed transaction rolls the tables back; the
bodies spilled before it stay written. -/
def mutateDependencyGraph (b : TaskBoard) (env : DaoEnv) (teamName : String)
    (newTasks : List NewTaskSpec) (addEdges : List (String × String)) :
    TaskBoard × Option (Except MutationFailure (List TaskRow)) :=
  if newTasks = [] ∧ addEdges = [] then (b, some (.ok []))
  else
    match spillNewTasks env teamName b.files newTasks with
    | (files, none) => (b.withFiles files, none)
    | (files, some specs) =>
      let spilled := b.withFiles files
      match spilled.mutateInSession teamName specs addEdges env.now with
      | .ok (board, refreshed) => (board, some (.ok refreshed))
      | .error failure => (spilled, some (.error failure))

end TaskBoard

end JiuwenSpec.Team

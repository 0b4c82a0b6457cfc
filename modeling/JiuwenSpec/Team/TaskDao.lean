import JiuwenSpec.Base.Run
import JiuwenSpec.Team.DependencyBoard
import JiuwenSpec.Team.GraphMutation

/-!
# The task data access object

The writing operations of `TaskDao`. Each is one transaction under the process-wide write
lock, hence a function on the board together with what it returns; `TaskBoard.step` runs
one operation of any kind.
Source: `agent_teams/tools/database/task_dao.py`.
-/

namespace JiuwenSpec.Team

open Base DependencyBoard Option

namespace TaskBoard

/-- `create_task`: whether the row was inserted; `none` when `ValueError` escapes. -/
def createTask (b : TaskBoard) (env : DaoEnv) (taskId teamName title content : String)
    (status : TaskStatus) : TaskBoard × Option Bool :=
  match toStored env b.files teamName content taskId with
  | none => (b, none)
  | some (files, stored) =>
    let spilled := b.withFiles files
    let row : TeamTask := { teamName, title, content := stored, status, updatedAt := some env.now }
    match spilled.insertTask taskId row with
    | some created => (created, some true)
    | none => (spilled, some false)

/-- `start_task`: the recorded owner's PENDING task moves to `toStatus`. -/
def startTask (b : TaskBoard) (now : Nat) (taskId memberName : String) (toStatus : TaskStatus) :
    TaskBoard × Bool :=
  b.updateTaskWhere taskId (fun t => t.assignee = some memberName ∧ t.status = .pending)
    (fun t => { t with status := toStatus, updatedAt := some now })

/-- `claim_task`: an unassigned PENDING task gets an owner and moves to `toStatus`. -/
def claimTask (b : TaskBoard) (now : Nat) (taskId memberName : String) (toStatus : TaskStatus) :
    TaskBoard × Bool :=
  b.updateTaskWhere taskId (fun t => t.assignee = none ∧ t.status = .pending)
    (fun t => { t with status := toStatus, assignee := some memberName, updatedAt := some now })

/-- `reassign_task`: the owner is swapped, the status kept. -/
def reassignTask (b : TaskBoard) (now : Nat) (taskId fromAssignee toAssignee : String) :
    TaskBoard × Bool :=
  b.updateTaskWhere taskId
    (fun t => t.assignee = some fromAssignee ∧ t.status ∈ taskReassignableStatuses)
    (fun t => { t with assignee := some toAssignee, updatedAt := some now })

/-- `reset_task`: an owned unfinished task returns to PENDING without owner. -/
def resetTask (b : TaskBoard) (now : Nat) (taskId : String) : TaskBoard × Bool :=
  b.updateTaskWhere taskId
    (fun t => t.status ∈ resettableStatuses ∧ isValidTransition t.status .pending = true)
    (fun t => { t with status := .pending, assignee := none, updatedAt := some now })

/-- `submit_for_review`: IN_PROGRESS to IN_REVIEW, opening a new round. -/
def submitForReview (b : TaskBoard) (now : Nat) (taskId : String) : TaskBoard × Bool :=
  b.updateTaskWhere taskId (fun t => t.status = .inProgress)
    (fun t => { t with
      status := .inReview, reviewRound := t.reviewRound + 1, updatedAt := some now })

/-- `revise_task`: IN_REVIEW back to IN_PROGRESS. -/
def reviseTask (b : TaskBoard) (now : Nat) (taskId : String) : TaskBoard × Bool :=
  b.updateTaskWhere taskId (fun t => t.status = .inReview)
    (fun t => { t with status := .inProgress, updatedAt := some now })

def setReviewer (b : TaskBoard) (taskId : String) (reviewer : Option String) : TaskBoard × Bool :=
  b.updateTaskWhere taskId (fun _ => true) (fun t => { t with reviewer := reviewer })

def setMaxReviewRounds (b : TaskBoard) (taskId : String) (maxReviewRounds : Option Int) :
    TaskBoard × Bool :=
  b.updateTaskWhere taskId (fun _ => true) (fun t => { t with maxReviewRounds := maxReviewRounds })

/-- `approve_plan_task`: any status from which IN_PROGRESS is a valid transition. -/
def approvePlanTask (b : TaskBoard) (now : Nat) (taskId : String) : TaskBoard × Bool :=
  b.updateTaskWhere taskId (fun t => isValidTransition t.status .inProgress = true)
    (fun t => { t with status := .inProgress, updatedAt := some now })

/-- `update_task_status`: a checked status write; only COMPLETED resolves the rows on the
task, and no status refreshes its dependents. -/
def updateTaskStatus (b : TaskBoard) (now : Nat) (taskId : String) (status : TaskStatus) :
    TaskBoard × Bool :=
  let (written, found) :=
    b.updateTaskWhere taskId (fun t => isValidTransition t.status status = true)
      (fun t => { t with status := status, updatedAt := some now })
  if found = true ∧ status = .completed then (written.resolveDependenciesOn taskId, true)
  else (written, found)

/-- `update_task`: title and body of a task that is not under review; `none` when
`ValueError` escapes. -/
def updateTask (b : TaskBoard) (env : DaoEnv) (taskId : String) (title content : Option String) :
    TaskBoard × Option Bool :=
  match b.tasks.get? taskId with
  | none => (b, some false)
  | some task =>
    if task.status = .inReview then (b, some false)
    else
      let titled := { task with title := title.getD task.title }
      match content with
      | none => (b.updateTasks (fun id t => if id = taskId then titled else t), some true)
      | some text =>
        match toStored env b.files task.teamName text taskId with
        | none => (b, none)
        | some (files, stored) =>
          let written := { titled with content := stored }
          ((b.withFiles files).updateTasks (fun id t => if id = taskId then written else t),
            some true)

def deleteTask (b : TaskBoard) (taskId : String) : TaskBoard × Bool :=
  if taskId ∈ b.tasks.keys then (b.deleteTaskRow taskId, true) else (b, false)

/-- `cancel_task`: the cancelled row and the rows it unblocked. -/
def cancelTask (b : TaskBoard) (now : Nat) (taskId : String) :
    TaskBoard × Option (TaskRow × List TaskRow) :=
  b.terminateTaskInSession taskId .cancelled now

def completeTask (b : TaskBoard) (now : Nat) (taskId : String) :
    TaskBoard × Option (TaskRow × List TaskRow) :=
  b.terminateTaskInSession taskId .completed now

/-- The unfinished tasks of a team that no skipped member owns. -/
def cancelCandidates (b : TaskBoard) (teamName : String) (skipAssignees : List String) :
    List String :=
  (b.tasks.entries.filter (fun e => e.2.teamName = teamName ∧
    e.2.status ∉ taskTerminalStatuses ∧ ∀ a ∈ e.2.assignee, a ∉ skipAssignees)).map Prod.fst

/-- What a bulk cancellation has done so far. -/
structure CancelAll where
  board : TaskBoard
  cancelled : List TaskRow
  unblocked : Dict String TeamTask

/-- One candidate of `cancel_all_tasks`. -/
def cancelOne (now : Nat) (acc : CancelAll) (taskId : String) : CancelAll :=
  match acc.board.terminateTaskInSession taskId .cancelled now with
  | (board, none) => { acc with board := board }
  | (board, some (row, refreshed)) =>
    { board := board
      cancelled := acc.cancelled ++ [row]
      unblocked := refreshed.foldl (fun d r => d.set r.1 r.2) acc.unblocked }

/-- `cancel_all_tasks`: the candidates are read once, then cancelled one after another; a
row unblocked on the way is reported unless it was cancelled too. -/
def cancelAllTasks (b : TaskBoard) (now : Nat) (teamName : String) (skipAssignees : List String) :
    TaskBoard × (List TaskRow × List TaskRow) :=
  let done := (b.cancelCandidates teamName skipAssignees).foldl (cancelOne now)
    { board := b, cancelled := [], unblocked := Dict.empty }
  let cancelledIds := done.cancelled.map Prod.fst
  (done.board, (done.cancelled, done.unblocked.entries.filter (fun e => e.1 ∉ cancelledIds)))

/-- `verify_and_fix_task_consistency`: refresh every BLOCKED task of a team. -/
def verifyAndFixTaskConsistency (b : TaskBoard) (now : Nat) (teamName : String) :
    TaskBoard × List TaskRow :=
  b.refreshStatusInSession
    ((b.tasks.entries.filter (fun e => e.2.teamName = teamName ∧ e.2.status = .blocked)).map
      Prod.fst) now

end TaskBoard

/-- A writing operation of `TaskDao` with its arguments. -/
inductive TaskOp where
  | createTask (taskId teamName title content : String) (status : TaskStatus)
  | mutateDependencyGraph (teamName : String) (newTasks : List NewTaskSpec)
      (addEdges : List (String × String))
  | startTask (taskId memberName : String) (toStatus : TaskStatus)
  | claimTask (taskId memberName : String) (toStatus : TaskStatus)
  | reassignTask (taskId fromAssignee toAssignee : String)
  | resetTask (taskId : String)
  | submitForReview (taskId : String)
  | reviseTask (taskId : String)
  | setReviewer (taskId : String) (reviewer : Option String)
  | setMaxReviewRounds (taskId : String) (maxReviewRounds : Option Int)
  | approvePlanTask (taskId : String)
  | updateTaskStatus (taskId : String) (status : TaskStatus)
  | updateTask (taskId : String) (title content : Option String)
  | deleteTask (taskId : String)
  | cancelTask (taskId : String)
  | cancelAllTasks (teamName : String) (skipAssignees : List String)
  | completeTask (taskId : String)
  | verifyAndFixTaskConsistency (teamName : String)

structure TaskCall where
  env : DaoEnv
  op : TaskOp

def TaskBoard.step (b : TaskBoard) (call : TaskCall) : TaskBoard :=
  let now := call.env.now
  match call.op with
  | .createTask taskId teamName title content status =>
    (b.createTask call.env taskId teamName title content status).1
  | .mutateDependencyGraph teamName newTasks addEdges =>
    (b.mutateDependencyGraph call.env teamName newTasks addEdges).1
  | .startTask taskId memberName toStatus => (b.startTask now taskId memberName toStatus).1
  | .claimTask taskId memberName toStatus => (b.claimTask now taskId memberName toStatus).1
  | .reassignTask taskId fromAssignee toAssignee =>
    (b.reassignTask now taskId fromAssignee toAssignee).1
  | .resetTask taskId => (b.resetTask now taskId).1
  | .submitForReview taskId => (b.submitForReview now taskId).1
  | .reviseTask taskId => (b.reviseTask now taskId).1
  | .setReviewer taskId reviewer => (b.setReviewer taskId reviewer).1
  | .setMaxReviewRounds taskId rounds => (b.setMaxReviewRounds taskId rounds).1
  | .approvePlanTask taskId => (b.approvePlanTask now taskId).1
  | .updateTaskStatus taskId status => (b.updateTaskStatus now taskId status).1
  | .updateTask taskId title content => (b.updateTask call.env taskId title content).1
  | .deleteTask taskId => (b.deleteTask taskId).1
  | .cancelTask taskId => (b.cancelTask now taskId).1
  | .cancelAllTasks teamName skipAssignees => (b.cancelAllTasks now teamName skipAssignees).1
  | .completeTask taskId => (b.completeTask now taskId).1
  | .verifyAndFixTaskConsistency teamName => (b.verifyAndFixTaskConsistency now teamName).1

/-!
## The task board as a dependency board

Each row helper and each single-row operation of the task board is one move of the
dependency board it stands for. The graph mutation is described by the boards between
its steps.
-/

namespace TaskBoard

def view (b : TaskBoard) : DependencyBoard String := ⟨b.status?, b.resolved?⟩

@[simp] theorem view_status (b : TaskBoard) : b.view.status = b.status? := rfl

@[simp] theorem view_edge (b : TaskBoard) : b.view.edge = b.resolved? := rfl

theorem resolved?_eq_none_iff (b : TaskBoard) (a d : String) :
    b.resolved? a d = none ↔ (a, d) ∉ b.deps.keys := by
  rw [resolved?, map_eq_none_iff, Dict.get?_eq_none_iff]

theorem status?_eq_none_iff (b : TaskBoard) (a : String) :
    b.status? a = none ↔ a ∉ b.tasks.keys := by
  rw [status?, map_eq_none_iff, Dict.get?_eq_none_iff]

theorem endpoints_of_resolved? (b : TaskBoard) {a d : String} (h : b.resolved? a d ≠ none) :
    b.status? a ≠ none ∧ b.status? d ≠ none := by
  rw [Ne, resolved?_eq_none_iff, not_not] at h
  rw [Ne, Ne, status?_eq_none_iff, status?_eq_none_iff, not_not, not_not]
  exact b.endpoints (a, d) h

theorem status?_updateTasks (b : TaskBoard) (f : String → TeamTask → TeamTask) (a : String) :
    (b.updateTasks f).status? a = (b.tasks.get? a).map (fun t => (f a t).status) := by
  rw [status?, updateTasks, Dict.get?_mapValues, map_map]
  rfl

theorem view_updateRow (b : TaskBoard) {taskId : String} {task : TeamTask}
    (h : b.tasks.get? taskId = some task) (f : TeamTask → TeamTask) :
    (b.updateTasks (fun id t => if id = taskId then f t else t)).view =
      b.view.write taskId (f task).status := by
  apply DependencyBoard.ext
  · funext a
    rw [view_status, status?_updateTasks]
    by_cases ha : a = taskId
    · subst ha
      rw [status_write_self, h]
      simp
    · rw [status_write_of_ne _ _ ha, view_status, status?]
      simp [ha]
  · rfl

theorem updateTaskWhere_cases (b : TaskBoard) (taskId : String) (guard : TeamTask → Bool)
    (f : TeamTask → TeamTask) :
    b.updateTaskWhere taskId guard f = (b, false) ∨
      ∃ task, b.tasks.get? taskId = some task ∧ guard task = true ∧
        (b.updateTaskWhere taskId guard f).2 = true ∧
        (b.updateTaskWhere taskId guard f).1.view = b.view.write taskId (f task).status := by
  unfold updateTaskWhere
  cases h : b.tasks.get? taskId with
  | none => exact Or.inl rfl
  | some task =>
    by_cases hg : guard task = true
    · simp only [hg, if_true]
      exact Or.inr ⟨task, rfl, hg, trivial, view_updateRow b h f⟩
    · exact Or.inl (if_neg hg)

theorem view_resolveDependenciesOn (b : TaskBoard) (taskId : String) :
    (b.resolveDependenciesOn taskId).view = b.view.resolve taskId := by
  apply DependencyBoard.ext
  · rfl
  · funext a d
    change ((b.resolveDependenciesOn taskId).deps.get? (a, d)).map TaskDependency.resolved =
      if d = taskId then (b.resolved? a d).map (fun _ => true) else b.resolved? a d
    rw [resolveDependenciesOn, Dict.get?_mapValues, resolved?]
    by_cases hd : d = taskId
    · simp [hd, Function.comp_def]
    · simp [hd]

theorem view_deleteTaskRow (b : TaskBoard) (taskId : String) :
    (b.deleteTaskRow taskId).view = b.view.remove taskId := by
  apply DependencyBoard.ext
  · funext a
    change ((b.deleteTaskRow taskId).tasks.get? a).map TeamTask.status =
      if a = taskId then none else b.status? a
    rw [deleteTaskRow, Dict.get?_erase]
    by_cases ha : a = taskId
    · simp [ha]
    · simp [ha, status?]
  · funext a d
    change ((b.deleteTaskRow taskId).deps.get? (a, d)).map TaskDependency.resolved =
      if a = taskId ∨ d = taskId then none else b.resolved? a d
    rw [deleteTaskRow, Dict.get?_filter, resolved?]
    by_cases h : a = taskId ∨ d = taskId
    · rw [if_pos h]
      have hp : ¬ (a ≠ taskId ∧ d ≠ taskId) := by
        rw [not_and_or, not_not, not_not]
        exact h
      cases b.deps.get? (a, d) <;> simp [hp, filter_some]
    · rw [if_neg h]
      have hp : a ≠ taskId ∧ d ≠ taskId := not_or.mp h
      cases b.deps.get? (a, d) <;> simp [hp, filter_some]

theorem unresolvedCount_pos_iff (b : TaskBoard) (taskId : String) :
    0 < b.unresolvedCount taskId ↔ b.view.Waits taskId := by
  rw [unresolvedCount, List.length_pos_iff_exists_mem]
  constructor
  · rintro ⟨⟨⟨a, d⟩, row⟩, hmem⟩
    obtain ⟨hentry, hp⟩ := List.mem_filter.mp hmem
    obtain ⟨rfl, hr⟩ := of_decide_eq_true hp
    refine ⟨d, ?_⟩
    rw [view_edge, resolved?, Dict.get?_eq_some_iff.mpr hentry]
    exact congrArg some hr
  · rintro ⟨d, hd⟩
    obtain ⟨row, hrow, hr⟩ := map_eq_some_iff.mp hd
    refine ⟨((taskId, d), row), List.mem_filter.mpr ⟨Dict.get?_eq_some_iff.mp hrow, ?_⟩⟩
    exact decide_eq_true ⟨rfl, hr⟩

theorem refreshRow_status (b : TaskBoard) (now : Nat) (taskId : String) (task : TeamTask) :
    (b.refreshRow now taskId task).status =
      DependencyBoard.settle (b.view.Waits taskId) task.status := by
  have hpos := b.unresolvedCount_pos_iff taskId
  unfold refreshRow
  by_cases hw : b.view.Waits taskId
  · have h0 := hpos.mpr hw
    cases hs : task.status <;>
      simp [h0, Nat.pos_iff_ne_zero.mp h0, hs, DependencyBoard.settle, hw]
  · have h0 : b.unresolvedCount taskId = 0 := by
      by_contra hne
      exact hw (hpos.mp (Nat.pos_of_ne_zero hne))
    cases hs : task.status <;> simp [h0, hs, DependencyBoard.settle, hw]

theorem view_refreshStatusInSession (b : TaskBoard) (taskIds : List String) (now : Nat) :
    (b.refreshStatusInSession taskIds now).1.view =
      b.view.refresh (fun a => a ∈ taskIds ∧ a ≠ "") := by
  apply DependencyBoard.ext
  · funext a
    rw [view_status, refreshStatusInSession, status?_updateTasks]
    by_cases ha : a ∈ taskIds ∧ a ≠ ""
    · rw [status_refresh_of_mem b.view ha, view_status, status?, map_map]
      congr 1
      funext t
      simp [ha.1, ha.2, refreshRow_status]
    · rw [status_refresh_of_not_mem b.view ha, view_status, status?]
      have hf : a ∉ taskIds.filter (fun tid => tid ≠ "") := by
        simpa using ha
      simp only [hf, if_false]
  · rfl

theorem mem_dependentsOf (b : TaskBoard) (taskId a : String) :
    a ∈ b.dependentsOf taskId ↔ b.resolved? a taskId ≠ none := by
  rw [Ne, resolved?_eq_none_iff, not_not, dependentsOf]
  simp

theorem terminateTaskInSession_cases (b : TaskBoard) (taskId : String) (newStatus : TerminalStatus)
    (now : Nat) :
    (b.terminateTaskInSession taskId newStatus now).1 = b ∨
      ∃ s, b.status? taskId = some s ∧ s ∈ terminablePredecessors newStatus ∧
        (b.terminateTaskInSession taskId newStatus now).1.view =
          b.view.finish taskId newStatus.toStatus
            (fun a => b.resolved? a taskId ≠ none ∧ a ≠ "") := by
  unfold terminateTaskInSession
  cases h : b.tasks.get? taskId with
  | none => exact Or.inl rfl
  | some task =>
    by_cases hp : task.status ∈ terminablePredecessors newStatus
    · refine Or.inr ⟨task.status, by rw [status?, h]; rfl, hp, ?_⟩
      simp only [hp, if_true]
      rw [view_refreshStatusInSession, view_resolveDependenciesOn, view_updateRow b h,
        DependencyBoard.finish]
      congr 1
      funext a
      simp only [mem_dependentsOf, resolved?_eq_none_iff, Ne]
      simp [resolveDependenciesOn, updateTasks]
    · simp only [hp, if_false]
      by_cases hs : task.status = newStatus.toStatus
      · exact Or.inl (by simp [hs])
      · exact Or.inl (by simp [hs])

end TaskBoard

end JiuwenSpec.Team

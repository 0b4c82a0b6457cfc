import JiuwenSpec.Base.Dict

/-!
# Task statuses

The conditions a team task rests in, the transition table between them, and the status
sets the task board's guarded updates compare against.
Source: `agent_teams/schema/status.py`, `agent_teams/tools/database/graph.py`,
`agent_teams/tools/database/task_dao.py`.
-/

namespace JiuwenSpec.Team

/-- `TaskStatus` of `schema/status.py`. -/
inductive TaskStatus where
  | pending
  | blocked
  | planning
  | inProgress
  | inReview
  | completed
  | cancelled
  deriving DecidableEq

def TaskStatus.value : TaskStatus → String
  | .pending => "pending"
  | .blocked => "blocked"
  | .planning => "planning"
  | .inProgress => "in_progress"
  | .inReview => "in_review"
  | .completed => "completed"
  | .cancelled => "cancelled"

/-- `TASK_TRANSITIONS`: the legal successors of a status. -/
def taskTransitions : TaskStatus → List TaskStatus
  | .pending => [.planning, .inProgress, .blocked, .cancelled]
  | .blocked => [.pending, .cancelled]
  | .planning => [.planning, .inProgress, .pending, .blocked, .cancelled]
  | .inProgress => [.inReview, .completed, .pending, .blocked, .cancelled]
  | .inReview => [.completed, .inProgress, .pending, .cancelled]
  | .completed => []
  | .cancelled => []

/-- `is_valid_transition` over `TASK_TRANSITIONS`. -/
def isValidTransition (currentStatus newStatus : TaskStatus) : Bool :=
  decide (newStatus ∈ taskTransitions currentStatus)

def taskTerminalStatuses : List TaskStatus := [.completed, .cancelled]

/-- `TASK_DEPENDENCY_REJECT_STATUSES`: a task in one of these gains no prerequisite. -/
def taskDependencyRejectStatuses : List TaskStatus :=
  [.completed, .cancelled, .planning, .inProgress, .inReview]

/-- `TASK_REASSIGNABLE_STATUSES`: the owner can be swapped in place. -/
def taskReassignableStatuses : List TaskStatus := [.pending, .blocked, .inProgress]

/-- `_RESETTABLE_STATUSES`: the owned conditions a reset returns to PENDING. -/
def resettableStatuses : List TaskStatus := [.planning, .inProgress, .inReview]

/-- The two statuses `_terminate_task_in_session` accepts; it raises on any other. -/
inductive TerminalStatus where
  | completed
  | cancelled
  deriving DecidableEq

def TerminalStatus.toStatus : TerminalStatus → TaskStatus
  | .completed => .completed
  | .cancelled => .cancelled

/-- `_TERMINABLE_PREDECESSORS`: where a termination may start from. -/
def terminablePredecessors : TerminalStatus → List TaskStatus
  | .completed => [.inProgress, .inReview]
  | .cancelled => [.pending, .blocked, .planning, .inProgress, .inReview]

namespace TaskStatus

def Terminal (s : TaskStatus) : Prop := s ∈ taskTerminalStatuses

/-- Owned and not finished: planning, executing or under review. -/
def InFlight (s : TaskStatus) : Prop := s ∈ resettableStatuses

instance (s : TaskStatus) : Decidable s.Terminal := inferInstanceAs (Decidable (_ ∈ _))

instance (s : TaskStatus) : Decidable s.InFlight := inferInstanceAs (Decidable (_ ∈ _))

theorem cases_phase (s : TaskStatus) :
    s = .pending ∨ s = .blocked ∨ s.InFlight ∨ s.Terminal := by
  cases s <;> decide

theorem not_mem_reject_iff (s : TaskStatus) :
    s ∉ taskDependencyRejectStatuses ↔ s = .pending ∨ s = .blocked := by
  cases s <;> decide

theorem InFlight.not_terminal {s : TaskStatus} (h : s.InFlight) : ¬ s.Terminal := by
  revert h
  cases s <;> decide

@[simp] theorem terminal_toStatus (n : TerminalStatus) : n.toStatus.Terminal := by
  cases n <;> decide

end TaskStatus

theorem terminablePredecessors_transition {n : TerminalStatus} {s : TaskStatus} :
    s ∈ terminablePredecessors n ↔ isValidTransition s n.toStatus = true := by
  cases n <;> cases s <;> decide

/-!
## The task and dependency tables

The two tables of a session: task rows by task id and dependency rows by
(task id, id of the task depended on), with the primary keys in the types and the
foreign keys of the dependency table as fields. The session files that hold task
bodies stand beside them.
Source: `agent_teams/tools/models.py`, `agent_teams/team_workspace/session_file_store.py`.
-/

open Base

/-- A row of the task table, without its key `task_id`. -/
structure TeamTask where
  teamName : String
  title : String
  content : String
  status : TaskStatus
  assignee : Option String := none
  reviewer : Option String := none
  reviewRound : Nat := 0
  maxReviewRounds : Option Int := none
  updatedAt : Option Nat := none
  deriving DecidableEq

structure TaskDependency where
  teamName : String
  resolved : Bool := false

abbrev TaskRow := String × TeamTask

/-- `FileAddress`: the identity of a content file. -/
structure FileAddress where
  teamName : String
  sessionId : String
  kind : String
  objectId : String
  toMember : Option String := none
  deriving DecidableEq

/-- One database with its content files. A dependency row references two task rows and a
team; the database refuses any write that breaks this. -/
structure TaskBoard where
  teams : List String
  tasks : Dict String TeamTask
  deps : Dict (String × String) TaskDependency
  files : Dict FileAddress String
  endpoints : ∀ e ∈ deps.keys, e.1 ∈ tasks.keys ∧ e.2 ∈ tasks.keys
  depTeams : ∀ e row, deps.get? e = some row → row.teamName ∈ teams

namespace TaskBoard

/-- No task, no dependency and no file. -/
def empty (teams : List String) : TaskBoard where
  teams := teams
  tasks := Dict.empty
  deps := Dict.empty
  files := Dict.empty
  endpoints := by simp [Dict.keys, Dict.empty]
  depTeams := by simp

def status? (b : TaskBoard) (taskId : String) : Option TaskStatus :=
  (b.tasks.get? taskId).map TeamTask.status

/-- Whether the dependency of a task on another is resolved; `none` without such a row. -/
def resolved? (b : TaskBoard) (taskId dependsOn : String) : Option Bool :=
  (b.deps.get? (taskId, dependsOn)).map TaskDependency.resolved

/-- Some dependency row says that the first task depends on the second. -/
def DependsOn (b : TaskBoard) (taskId dependsOn : String) : Prop :=
  (taskId, dependsOn) ∈ b.deps.keys

instance (b : TaskBoard) (taskId dependsOn : String) : Decidable (b.DependsOn taskId dependsOn) :=
  inferInstanceAs (Decidable (_ ∈ _))

/-- Update task rows in place; no key changes. -/
def updateTasks (b : TaskBoard) (f : String → TeamTask → TeamTask) : TaskBoard where
  teams := b.teams
  tasks := b.tasks.mapValues f
  deps := b.deps
  files := b.files
  endpoints := by simpa using b.endpoints
  depTeams := b.depTeams

/-- `UPDATE task SET … WHERE task_id = … AND guard`, with whether a row matched. -/
def updateTaskWhere (b : TaskBoard) (taskId : String) (guard : TeamTask → Bool)
    (f : TeamTask → TeamTask) : TaskBoard × Bool :=
  match b.tasks.get? taskId with
  | some task =>
    if guard task then
      (b.updateTasks (fun id t => if id = taskId then f t else t), true)
    else (b, false)
  | none => (b, false)

/-- `UPDATE dependency SET resolved = true WHERE depends_on_task_id = … AND NOT resolved`. -/
def resolveDependenciesOn (b : TaskBoard) (taskId : String) : TaskBoard where
  teams := b.teams
  tasks := b.tasks
  deps := b.deps.mapValues (fun e row ↦ if e.2 = taskId then { row with resolved := true } else row)
  files := b.files
  endpoints := by simpa using b.endpoints
  depTeams := by
    intro e row h
    rw [Dict.get?_mapValues] at h
    obtain ⟨old, hold, rfl⟩ := Option.map_eq_some_iff.mp h
    split
    · exact b.depTeams e old hold
    · exact b.depTeams e old hold

/-- Insert a task row; `none` is the `IntegrityError` of a taken id or an unknown team. -/
def insertTask (b : TaskBoard) (taskId : String) (task : TeamTask) : Option TaskBoard :=
  if taskId ∈ b.tasks.keys ∨ task.teamName ∉ b.teams then none
  else some
    { teams := b.teams
      tasks := b.tasks.set taskId task
      deps := b.deps
      files := b.files
      endpoints := by
        intro e he
        rw [Dict.mem_keys_set, Dict.mem_keys_set]
        exact ⟨Or.inr (b.endpoints e he).1, Or.inr (b.endpoints e he).2⟩
      depTeams := b.depTeams }

/-- Insert a dependency row; `none` is the `IntegrityError` of a taken key, a missing
endpoint or an unknown team. -/
def insertDependency (b : TaskBoard) (edge : String × String) (row : TaskDependency) :
    Option TaskBoard :=
  if h : edge ∉ b.deps.keys ∧ (edge.1 ∈ b.tasks.keys ∧ edge.2 ∈ b.tasks.keys) ∧
      row.teamName ∈ b.teams then
    some
      { teams := b.teams
        tasks := b.tasks
        deps := b.deps.set edge row
        files := b.files
        endpoints := by
          intro e he
          rcases (Dict.mem_keys_set ..).mp he with rfl | he
          · exact h.2.1
          · exact b.endpoints e he
        depTeams := by
          intro e r hr
          rw [Dict.get?_set] at hr
          split at hr
          · cases hr
            exact h.2.2
          · exact b.depTeams e r hr }
  else none

def deleteTaskRow (b : TaskBoard) (taskId : String) : TaskBoard where
  teams := b.teams
  tasks := b.tasks.erase taskId
  deps := b.deps.filter (fun e _ => decide (e.1 ≠ taskId ∧ e.2 ≠ taskId))
  files := b.files
  endpoints := by
    have hkeep : ∀ k ∈ b.tasks.keys, k ≠ taskId → k ∈ (b.tasks.erase taskId).keys := by
      intro k hk hne
      obtain ⟨v, hv⟩ := Dict.mem_keys_iff.mp hk
      apply Dict.mem_keys_iff.mpr
      exact ⟨v, by rw [Dict.get?_erase, if_neg hne, hv]⟩
    intro e he
    obtain ⟨row, hrow, hne⟩ := (Dict.mem_keys_filter ..).mp he
    have hends := b.endpoints e (Dict.mem_keys_iff.mpr ⟨row, hrow⟩)
    have hne' : e.1 ≠ taskId ∧ e.2 ≠ taskId := of_decide_eq_true hne
    exact ⟨hkeep _ hends.1 hne'.1, hkeep _ hends.2 hne'.2⟩
  depTeams := by
    intro e row h
    rw [Dict.get?_filter] at h
    exact b.depTeams e row (Option.filter_eq_some_iff.mp h).1

def withFiles (b : TaskBoard) (files : Dict FileAddress String) : TaskBoard where
  teams := b.teams
  tasks := b.tasks
  deps := b.deps
  files := files
  endpoints := b.endpoints
  depTeams := b.depTeams

end TaskBoard

end JiuwenSpec.Team

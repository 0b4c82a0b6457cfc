import JiuwenSpec.Team.RowFrames

/-!
# Calls of the task manager, one access at a time

A call of the task manager reads the board, decides, and writes with a conditional update;
between two accesses any other party may act. A call in flight is the stage it has reached,
with what it has read. Refusals that depend on nothing in the task tables (the roster, the
dispatch mode, a locked human task) are calls that end early.
Source: `agent_teams/tools/task_manager.py`, `agent_teams/tools/tool_task.py`,
`agent_teams/agent/scheduling/scheduler.py`.
-/

namespace JiuwenSpec.Team

open Base List

/-- `reviewers()`: the member names in the reviewer column; `parse` decodes a non-empty one. -/
def TeamTask.reviewers (parse : String → List String) (task : TeamTask) : List String :=
  match task.reviewer with
  | none => []
  | some raw => if raw = "" then [] else parse raw

/-- `task.assignee` where it is truthy. -/
def TeamTask.owner? (task : TeamTask) : Option String := task.assignee.filter (fun a => a ≠ "")

def TaskBoard.getOtherActiveTaskId (b : TaskBoard) (teamName memberName excludeTaskId : String) :
    Option String :=
  (b.tasks.entries.find? (fun e => e.2.teamName = teamName ∧ e.2.assignee = some memberName ∧
    e.2.status.InFlight ∧ e.1 ≠ excludeTaskId)).map Prod.fst

/-- What an access finds besides the task tables: the environment of the DAO, the team of the
manager, who works in plan mode, and what the votes of a round amount to. -/
structure ManagerEnv where
  dao : DaoEnv
  teamName : String
  inPlanMode : String → Bool
  tally : Option Bool

def plainEnv : ManagerEnv where
  dao := { hasFileStore := false, sessionId := none, put := fun _ => .written, now := 0 }
  teamName := "team"
  inPlanMode := fun _ => false
  tally := none

def ManagerEnv.entryStatus (env : ManagerEnv) (memberName : String) : TaskStatus :=
  if env.inPlanMode memberName then .planning else .inProgress

/-- Where a call in flight stands: the access it makes next, and what it goes by. -/
inductive Stage where
  | verifyTask (memberName taskId : String) (pass : Bool)
  | reconcileReview (taskId : String)
  | reviewTally (taskId : String) (round : Nat)
  | settleReview (taskId : String) (round : Nat) (pass : Bool)
  | verdict (taskId : String) (round : Nat) (pass : Bool)
  | complete (memberName taskId : String)
  | verifyGate (memberName taskId : String)
  | submitForReview (taskId : String)
  | completeTask (memberName taskId : String)
  | startTask (taskId : String)
  | startBusy (taskId memberName : String) (entry : TaskStatus)
  | startWrite (taskId memberName : String) (entry : TaskStatus)
  | claimBusy (memberName taskId : String)
  | claim (memberName taskId : String)
  | assignTool (taskId assignee : String)
  | assignBusy (taskId assignee : String) (current : Option String)
  | assign (taskId assignee : String)
  | claimWrite (taskId memberName : String) (entry : TaskStatus)
  | reassign (taskId newAssignee : String)
  | reassignWrite (taskId fromAssignee newAssignee : String)
  deriving DecidableEq

namespace Stage

/-- The first access of a call: `verify_task` in autonomous dispatch, the review scan of the
scheduler for one task, `complete`, `start_task`, and the claim and assign tools. -/
def isEntry : Stage → Bool
  | .verifyTask .. => true
  | .reconcileReview .. => true
  | .complete .. => true
  | .startTask .. => true
  | .claimBusy .. => true
  | .assignTool .. => true
  | _ => false

def write : Stage → Option TaskOp
  | .verdict taskId _ true => some (.completeTask taskId)
  | .verdict taskId _ false => some (.reviseTask taskId)
  | .submitForReview taskId => some (.submitForReview taskId)
  | .completeTask _ taskId => some (.completeTask taskId)
  | .startWrite taskId memberName entry => some (.startTask taskId memberName entry)
  | .claimWrite taskId memberName entry => some (.claimTask taskId memberName entry)
  | .reassignWrite taskId fromAssignee newAssignee =>
    some (.reassignTask taskId fromAssignee newAssignee)
  | _ => none

/-- What a stage that reads goes on with; `none` ends the call. -/
def read (parse : String → List String) (env : ManagerEnv) (b : TaskBoard) :
    Stage → Option Stage
  | .verifyTask memberName taskId pass =>
    match b.tasks.get? taskId with
    | none => none
    | some task =>
      if task.status ≠ .inReview then none
      else if memberName ∉ task.reviewers parse then none
      else if task.assignee = some memberName then none
      else some (.verdict taskId task.reviewRound pass)
  | .reconcileReview taskId =>
    match b.tasks.get? taskId with
    | none => none
    | some task =>
      if task.status = .inReview ∧ task.reviewers parse ≠ [] then
        some (.reviewTally taskId task.reviewRound)
      else none
  | .reviewTally taskId round => env.tally.map (.settleReview taskId round)
  | .settleReview taskId round pass =>
    match b.tasks.get? taskId with
    | none => none
    | some task => if task.status = .inReview then some (.verdict taskId round pass) else none
  | .complete memberName taskId =>
    match b.tasks.get? taskId with
    | none => some (.verifyGate memberName taskId)
    | some task =>
      if task.assignee ≠ some memberName then none else some (.verifyGate memberName taskId)
  | .verifyGate memberName taskId =>
    match b.tasks.get? taskId with
    | none => some (.completeTask memberName taskId)
    | some gated =>
      if gated.reviewers parse ≠ [] then some (.submitForReview taskId)
      else some (.completeTask memberName taskId)
  | .startTask taskId =>
    match b.tasks.get? taskId with
    | none => none
    | some task =>
      match task.owner? with
      | none => none
      | some memberName =>
        let entry := env.entryStatus memberName
        if task.status = entry then none else some (.startBusy taskId memberName entry)
  | .startBusy taskId memberName entry =>
    match b.getOtherActiveTaskId env.teamName memberName taskId with
    | some _ => none
    | none => some (.startWrite taskId memberName entry)
  | .claimBusy memberName taskId =>
    match b.getOtherActiveTaskId env.teamName memberName taskId with
    | some _ => none
    | none => some (.claim memberName taskId)
  | .claim memberName taskId =>
    match b.tasks.get? taskId with
    | none => none
    | some task =>
      if env.inPlanMode memberName then none
      else if task.assignee = some memberName ∧ task.status = .inProgress then none
      else if task.assignee = some memberName ∧ task.status = .pending then
        some (.startWrite taskId memberName .inProgress)
      else if task.owner? ≠ none then none
      else if isValidTransition task.status .inProgress = false then none
      else some (.claimWrite taskId memberName .inProgress)
  | .assignTool taskId assignee =>
    match b.tasks.get? taskId with
    | none => none
    | some task => some (.assignBusy taskId assignee task.owner?)
  | .assignBusy taskId assignee current =>
    match b.getOtherActiveTaskId env.teamName assignee taskId with
    | some _ => none
    | none =>
      if current ≠ none ∧ current ≠ some assignee then some (.reassign taskId assignee)
      else some (.assign taskId assignee)
  | .assign taskId assignee =>
    match b.tasks.get? taskId with
    | none => none
    | some task =>
      let entry := env.entryStatus assignee
      if task.assignee = some assignee ∧ task.status = entry then none
      else if task.owner? ≠ none ∧ task.owner? ≠ some assignee then none
      else some (.claimWrite taskId assignee entry)
  | .reassign taskId newAssignee =>
    match b.tasks.get? taskId with
    | none => none
    | some task => task.owner?.map (fun old => .reassignWrite taskId old newAssignee)
  | _ => none

/-- The stages of the calls that give a task to a member or start it. -/
def assigns : Stage → Bool
  | .startTask .. => true
  | .startBusy .. => true
  | .startWrite .. => true
  | .claimBusy .. => true
  | .claim .. => true
  | .assignTool .. => true
  | .assignBusy .. => true
  | .assign .. => true
  | .claimWrite .. => true
  | .reassign .. => true
  | .reassignWrite .. => true
  | _ => false

/-- Everything a read can lead to, with what it has found. -/
inductive Leads (parse : String → List String) (b : TaskBoard) : Stage → Stage → Prop
  | verify {memberName taskId : String} {pass : Bool} {t : TeamTask}
    (ht : b.tasks.get? taskId = some t) (hreview : t.status = .inReview) :
    Leads parse b (.verifyTask memberName taskId pass) (.verdict taskId t.reviewRound pass)
  | scan {taskId : String} {t : TeamTask} (ht : b.tasks.get? taskId = some t)
    (hreview : t.status = .inReview) :
    Leads parse b (.reconcileReview taskId) (.reviewTally taskId t.reviewRound)
  | tally {taskId : String} {round : Nat} {pass : Bool} :
    Leads parse b (.reviewTally taskId round) (.settleReview taskId round pass)
  | settle {taskId : String} {round : Nat} {pass : Bool} :
    Leads parse b (.settleReview taskId round pass) (.verdict taskId round pass)
  | holder {memberName taskId : String}
    (hheld : ∀ t, b.tasks.get? taskId = some t → t.assignee = some memberName) :
    Leads parse b (.complete memberName taskId) (.verifyGate memberName taskId)
  | gated {memberName taskId : String} :
    Leads parse b (.verifyGate memberName taskId) (.submitForReview taskId)
  | ungated {memberName taskId : String}
    (hopen : ∀ t, b.tasks.get? taskId = some t → t.reviewers parse = []) :
    Leads parse b (.verifyGate memberName taskId) (.completeTask memberName taskId)
  | assigns {stage next : Stage} (hstage : stage.assigns = true) (hnext : next.assigns = true) :
    Leads parse b stage next

theorem leads_of_read {parse : String → List String} {env : ManagerEnv} {b : TaskBoard}
    {stage next : Stage} (h : stage.read parse env b = some next) : Leads parse b stage next := by
  cases stage with
  | verifyTask memberName taskId pass =>
    simp only [read] at h
    split at h
    · cases h
    · next t ht =>
      split at h
      · cases h
      · next hstatus =>
        split at h
        · cases h
        · split at h <;> cases h
          exact .verify ht (not_not.mp hstatus)
  | reconcileReview taskId =>
    simp only [read] at h
    split at h
    · cases h
    · next t ht =>
      split at h
      · next hopen =>
        cases h
        exact .scan ht hopen.1
      · cases h
  | reviewTally taskId round =>
    obtain ⟨pass, -, rfl⟩ := Option.map_eq_some_iff.mp h
    exact .tally
  | settleReview taskId round pass =>
    simp only [read] at h
    split at h
    · cases h
    · split at h <;> cases h
      exact .settle
  | complete memberName taskId =>
    simp only [read] at h
    split at h
    · next hnone =>
      cases h
      apply Leads.holder
      intro t ht
      rw [hnone] at ht
      cases ht
    · next t ht =>
      split at h
      · cases h
      · next hholder =>
        cases h
        apply Leads.holder
        intro t' ht'
        cases ht.symm.trans ht'
        exact not_not.mp hholder
  | verifyGate memberName taskId =>
    simp only [read] at h
    split at h
    · next hnone =>
      cases h
      apply Leads.ungated
      intro t ht
      rw [hnone] at ht
      cases ht
    · next t ht =>
      split at h
      · cases h
        exact .gated
      · next hopen =>
        cases h
        apply Leads.ungated
        intro t' ht'
        cases ht.symm.trans ht'
        exact not_not.mp hopen
  | startTask taskId =>
    simp only [read] at h
    split at h
    · cases h
    · split at h
      · cases h
      · split at h <;> cases h
        exact .assigns rfl rfl
  | startBusy taskId memberName entry =>
    simp only [read] at h
    split at h <;> cases h
    exact .assigns rfl rfl
  | claimBusy memberName taskId =>
    simp only [read] at h
    split at h <;> cases h
    exact .assigns rfl rfl
  | claim memberName taskId =>
    simp only [read] at h
    split at h
    · cases h
    · repeat' split at h
      all_goals cases h
      all_goals exact .assigns rfl rfl
  | assignTool taskId assignee =>
    simp only [read] at h
    split at h <;> cases h
    exact .assigns rfl rfl
  | assignBusy taskId assignee current =>
    simp only [read] at h
    split at h
    · cases h
    · split at h <;> cases h <;> exact .assigns rfl rfl
  | assign taskId assignee =>
    simp only [read] at h
    split at h
    · cases h
    · repeat' split at h
      all_goals cases h
      all_goals exact .assigns rfl rfl
  | reassign taskId newAssignee =>
    simp only [read] at h
    split at h
    · cases h
    · obtain ⟨old, -, rfl⟩ := Option.map_eq_some_iff.mp h
      exact .assigns rfl rfl
  | _ => cases h

end Stage

structure TeamState where
  board : TaskBoard
  stages : List Stage := []

/-- What happens next: a call begins, makes its next access or ends early, or any other party
makes a DAO call. -/
inductive ManagerAction where
  | begin (stage : Stage)
  | advance (env : ManagerEnv) (stage : Stage)
  | abandon (stage : Stage)
  | dao (call : TaskCall)

namespace TeamState

variable (parse : String → List String)

def call? (s : TeamState) : ManagerAction → Option TaskCall
  | .dao call => some call
  | .advance env stage =>
    if stage ∈ s.stages then stage.write.map (fun op => ⟨env.dao, op⟩) else none
  | _ => none

def nextStages (s : TeamState) : ManagerAction → List Stage
  | .begin stage => if stage.isEntry then s.stages ++ [stage] else s.stages
  | .advance env stage =>
    if stage ∈ s.stages then s.stages.erase stage ++ (stage.read parse env s.board).toList
    else s.stages
  | .abandon stage => s.stages.erase stage
  | .dao _ => s.stages

def step (s : TeamState) (action : ManagerAction) : TeamState where
  board := (s.call? action).elim s.board s.board.step
  stages := s.nextStages parse action

theorem mem_stages_step {s : TeamState} {action : ManagerAction} {stage : Stage}
    (h : stage ∈ (s.step parse action).stages) :
    stage ∈ s.stages ∨ stage.isEntry = true ∨
      ∃ env before, before ∈ s.stages ∧ action = .advance env before ∧
        before.read parse env s.board = some stage := by
  cases action with
  | begin entry =>
    change stage ∈ (if entry.isEntry then s.stages ++ [entry] else s.stages) at h
    split at h
    · next hentry =>
      cases mem_append.mp h with
      | inl hold => exact Or.inl hold
      | inr hnew =>
        rw [mem_singleton] at hnew
        exact Or.inr (Or.inl (hnew ▸ hentry))
    · exact Or.inl h
  | advance env before =>
    change stage ∈ (if before ∈ s.stages then s.stages.erase before ++
      (before.read parse env s.board).toList else s.stages) at h
    split at h
    · next hbefore =>
      cases mem_append.mp h with
      | inl hold => exact Or.inl (mem_of_mem_erase hold)
      | inr hnew =>
        exact Or.inr (Or.inr ⟨env, before, hbefore, rfl, by simpa using hnew⟩)
    · exact Or.inl h
  | abandon other => exact Or.inl (mem_of_mem_erase h)
  | dao call => exact Or.inl h

theorem write_eq_none_of_read {parse : String → List String} {env : ManagerEnv} {b : TaskBoard}
    {stage next : Stage} (h : stage.read parse env b = some next) : stage.write = none := by
  cases stage with
  | verdict => cases h
  | submitForReview => cases h
  | completeTask => cases h
  | startWrite => cases h
  | claimWrite => cases h
  | reassignWrite => cases h
  | _ => rfl

theorem board_step_of_no_call {s : TeamState} {action : ManagerAction}
    (h : s.call? action = none) : (s.step parse action).board = s.board := by
  show (s.call? action).elim s.board s.board.step = s.board
  rw [h]
  rfl

theorem board_step_read {s : TeamState} {env : ManagerEnv} {stage next : Stage}
    (h : stage.read parse env s.board = some next) :
    (s.step parse (.advance env stage)).board = s.board := by
  apply board_step_of_no_call
  simp [call?, write_eq_none_of_read h]

theorem board_step (s : TeamState) (action : ManagerAction) :
    (s.step parse action).board = s.board ∨
      ∃ call, s.call? action = some call ∧ (s.step parse action).board = s.board.step call := by
  show (s.call? action).elim s.board s.board.step = s.board ∨ ∃ call,
    s.call? action = some call ∧ (s.call? action).elim s.board s.board.step = s.board.step call
  cases s.call? action with
  | none => exact Or.inl rfl
  | some call => exact Or.inr ⟨call, rfl, rfl⟩

end TeamState

end JiuwenSpec.Team

import JiuwenSpec.Team.BoardMoves

/-!
# The task-board invariant

Along every run of the board's workflow operations the two tables agree: a dependency is
resolved exactly when its target is terminal, nothing waiting or in flight has an
unresolved dependency, and every BLOCKED task has one. The refresh leaves the empty id out,
so the invariant is one of boards whose tasks have non-empty ids.
-/

namespace JiuwenSpec.Team

open Base Relation DependencyBoard List

/-- The three conditions over the rows of the two tables. -/
structure TableInvariant (b : TaskBoard) : Prop where
  resolved_iff : ∀ taskId dependsOn row, b.deps.get? (taskId, dependsOn) = some row →
    (row.resolved = true ↔ ∃ task, b.tasks.get? dependsOn = some task ∧ task.status.Terminal)
  unblocked : ∀ taskId task, b.tasks.get? taskId = some task →
    (task.status = .pending ∨ task.status.InFlight) →
    ∀ dependsOn row, b.deps.get? (taskId, dependsOn) = some row → row.resolved = true
  blocked : ∀ taskId task, b.tasks.get? taskId = some task → task.status = .blocked →
    ∃ dependsOn row, b.deps.get? (taskId, dependsOn) = some row ∧ row.resolved = false

namespace TaskBoard

theorem finished_iff (b : TaskBoard) (a : String) :
    b.view.Finished a ↔ ∃ task, b.tasks.get? a = some task ∧ task.status.Terminal := by
  rw [DependencyBoard.Finished, view_status, status?]
  cases b.tasks.get? a <;> simp

theorem waits_iff (b : TaskBoard) (a : String) :
    b.view.Waits a ↔ ∃ d row, b.deps.get? (a, d) = some row ∧ row.resolved = false := by
  simp only [DependencyBoard.Waits, view_edge, resolved?, Option.map_eq_some_iff]

theorem tableInvariant_iff (b : TaskBoard) : TableInvariant b ↔ b.view.Consistent := by
  constructor
  · intro h
    refine ⟨?_, ?_, ?_⟩
    · intro a d r hr
      obtain ⟨row, hrow, rfl⟩ := Option.map_eq_some_iff.mp hr
      rw [finished_iff]
      exact h.resolved_iff a d row hrow
    · rintro a ⟨s, hs, hwork⟩ hwaits
      obtain ⟨task, htask, rfl⟩ := Option.map_eq_some_iff.mp hs
      obtain ⟨d, row, hrow, hfalse⟩ := (waits_iff b a).mp hwaits
      rw [h.unblocked a task htask hwork d row hrow] at hfalse
      cases hfalse
    · intro a hs
      obtain ⟨task, htask, hblocked⟩ := Option.map_eq_some_iff.mp hs
      exact (waits_iff b a).mpr (h.blocked a task htask hblocked)
  · intro h
    refine ⟨?_, ?_, ?_⟩
    · intro a d row hrow
      rw [← finished_iff]
      exact h.resolved_iff a d row.resolved (by rw [view_edge, resolved?, hrow]; rfl)
    · intro a task htask hwork d row hrow
      by_contra hr
      refine h.free a ⟨task.status, by rw [view_status, status?, htask]; rfl, hwork⟩ ?_
      exact (waits_iff b a).mpr ⟨d, row, hrow, Bool.eq_false_iff.mpr hr⟩
    · intro a task htask hblocked
      exact (waits_iff b a).mp
        (h.waits a (by rw [view_status, status?, htask]; exact congrArg some hblocked))

theorem Mutated.consistent {b b' : TaskBoard} {teamName : String} {newTasks : List NewTaskSpec}
    {addEdges : List (String × String)} (m : b.Mutated teamName newTasks addEdges b')
    (hb : b.view.Consistent) (hempty : b.status? "" = none)
    (hseed : ∀ spec ∈ newTasks, spec.initialStatus = .pending ∧ spec.taskId ≠ "") :
    b'.view.Consistent ∧ b'.status? "" = none := by
  have hstatus : m.wired.status? = m.staged.status? := by
    funext a
    rw [status?, m.isWired.tasks_eq, status?]
  have hold : ∀ a, b.status? a ≠ none → m.staged.status? a = b.status? a := by
    intro a ha
    apply m.isStaged.kept
    intro hm
    obtain ⟨spec, hspec, rfl⟩ := mem_map.mp hm
    exact ha (m.isStaged.absent spec hspec)
  have hnew : ∀ a ∈ newTasks.map NewTaskSpec.taskId, m.staged.status? a = some .pending := by
    intro a ha
    obtain ⟨spec, hspec, rfl⟩ := mem_map.mp ha
    rw [m.isStaged.seeded spec hspec, (hseed spec hspec).1]
  have hkept : ∀ a d, (a, d) ∉ m.newEdges → m.wired.resolved? a d = b.resolved? a d := by
    intro a d h
    rw [resolved?, m.isWired.kept _ h, m.isStaged.deps_eq, resolved?]
  have hsource : ∀ a d, (a, d) ∈ m.newEdges →
      m.staged.status? a = some .pending ∨ m.staged.status? a = some .blocked :=
    fun a d h => (m.valid (a, d) ((m.mem_newEdges _).mp h).1).1
  have hnone : m.staged.status? "" = none := by
    rw [m.isStaged.kept, hempty]
    intro hm
    obtain ⟨spec, hspec, hid⟩ := mem_map.mp hm
    exact (hseed spec hspec).2 hid
  rw [m.view_eq]
  constructor
  · apply consistent_refresh
    · intro a d r hr
      by_cases hin : (a, d) ∈ m.newEdges
      · obtain ⟨row, hrow, _, hfin⟩ := m.isWired.added _ hin
        rw [view_edge, resolved?, hrow] at hr
        cases hr
        rw [hfin, DependencyBoard.Finished, DependencyBoard.Finished, view_status, view_status,
          hstatus]
      · rw [view_edge, hkept a d hin] at hr
        have hd := (b.endpoints_of_resolved? (by rw [hr]; simp)).2
        rw [hb.resolved_iff a d r hr, DependencyBoard.Finished, DependencyBoard.Finished,
          view_status, view_status, hstatus, hold d hd]
    · rintro a s hs hfl ⟨d, hd⟩
      rw [view_status, hstatus] at hs
      by_cases hin : (a, d) ∈ m.newEdges
      · rcases hsource a d hin with h | h
        · rw [h] at hs
          cases hs
          exact absurd hfl (by decide)
        · rw [h] at hs
          cases hs
          exact absurd hfl (by decide)
      · rw [view_edge, hkept a d hin] at hd
        have ha := (b.endpoints_of_resolved? (by rw [hd]; simp)).1
        rw [hold a ha] at hs
        exact hb.free a ⟨s, hs, Or.inr hfl⟩ ⟨d, hd⟩
    · rintro a haS hs ⟨d, hd⟩
      rw [view_status, hstatus] at hs
      have hne : a ≠ "" := by
        rintro rfl
        rw [hnone] at hs
        cases hs
      have hin : (a, d) ∉ m.newEdges := fun h =>
        haS ⟨Or.inr (mem_map.mpr ⟨_, h, rfl⟩), hne⟩
      rw [view_edge, hkept a d hin] at hd
      rw [hold a (b.endpoints_of_resolved? (by rw [hd]; simp)).1] at hs
      exact hb.free a ⟨_, hs, Or.inl rfl⟩ ⟨d, hd⟩
    · intro a haS hs
      rw [view_status, hstatus] at hs
      have hne : a ≠ "" := by
        rintro rfl
        rw [hnone] at hs
        cases hs
      have hout : a ∉ newTasks.map NewTaskSpec.taskId := fun h => haS ⟨Or.inl h, hne⟩
      rw [m.isStaged.kept a hout] at hs
      obtain ⟨d, hd⟩ := hb.waits a hs
      have hin : (a, d) ∉ m.newEdges := fun h =>
        haS ⟨Or.inr (mem_map.mpr ⟨_, h, rfl⟩), hne⟩
      exact ⟨d, by rw [view_edge, hkept a d hin]; exact hd⟩
  · have hs : b'.status? "" = (m.wired.view.refresh _).status "" := congrFun
      (congrArg DependencyBoard.status m.view_eq) ""
    rw [hs, status_refresh_of_not_mem _ (fun h => h.2 rfl), view_status, hstatus,
      hnone]

private theorem status?_empty_of_write {b b' : TaskBoard} {t : String} {s' : TaskStatus}
    (hempty : b.status? "" = none) (ht : b.status? t ≠ none)
    (hview : b'.view = b.view.write t s') : b'.status? "" = none := by
  have hne : "" ≠ t := by
    rintro rfl
    exact ht hempty
  rw [← view_status, hview, status_write_of_ne _ _ hne, view_status, hempty]

theorem consistent_terminate {b : TaskBoard} (hb : b.view.Consistent) (hempty : b.status? "" = none)
    (taskId : String) (newStatus : TerminalStatus) (now : Nat) :
    (b.terminateTaskInSession taskId newStatus now).1.view.Consistent ∧
      (b.terminateTaskInSession taskId newStatus now).1.status? "" = none := by
  rcases b.terminateTaskInSession_cases taskId newStatus now with hno | ⟨s, hs, _, hview⟩
  · rw [hno]
    exact ⟨hb, hempty⟩
  · have hne : "" ≠ taskId := by
      rintro rfl
      rw [hempty] at hs
      cases hs
    constructor
    · rw [hview]
      apply hb.finish (TaskStatus.terminal_toStatus newStatus)
      intro a ha
      refine ⟨ha, ?_⟩
      rintro rfl
      exact (b.endpoints_of_resolved? ha).1 hempty
    · rw [← view_status, hview, DependencyBoard.finish,
        status_refresh_of_not_mem _ (fun h => h.2 rfl),
        status_resolve, status_write_of_ne _ _ hne, view_status,
        hempty]

end TaskBoard

/-- The workflow operations of the board; a mutation seeds its tasks PENDING. -/
def TaskOp.Workflow : TaskOp → Prop
  | .mutateDependencyGraph _ newTasks _ => ∀ spec ∈ newTasks, spec.initialStatus = .pending
  | .startTask .. | .claimTask .. | .reassignTask .. | .resetTask _ | .submitForReview _
  | .reviseTask _ | .approvePlanTask _ | .cancelTask _ | .cancelAllTasks .. | .completeTask _ => True
  | _ => False

def TaskOp.NamesTasks : TaskOp → Prop
  | .mutateDependencyGraph _ newTasks _ => ∀ spec ∈ newTasks, spec.taskId ≠ ""
  | _ => True

def TaskOp.EntersWork : TaskOp → Prop
  | .startTask _ _ toStatus | .claimTask _ _ toStatus =>
    toStatus = .planning ∨ toStatus = .inProgress
  | _ => True

namespace TaskBoard

theorem writes_workable {op : TaskOp} {t : String} {s s' : TaskStatus}
    (h : Writes op t s s') (hwork : op.Workflow) (hentry : op.EntersWork) :
    (s = .pending ∨ s.InFlight) ∧ (s' = .pending ∨ s'.InFlight) := by
  cases h with
  | start => rcases hentry with rfl | rfl <;> decide
  | claim => rcases hentry with rfl | rfl <;> decide
  | reset hs => exact ⟨Or.inr hs, Or.inl rfl⟩
  | submit => decide
  | revise => decide
  | approve hs =>
    revert hs
    cases s <;> decide
  | update hs hne => exact hwork.elim

private theorem consistent_cancels {b b' : TaskBoard}
    (hb : b.view.Consistent ∧ b.status? "" = none) (h : ReflTransGen Cancels b b') :
    b'.view.Consistent ∧ b'.status? "" = none := by
  induction h with
  | refl => exact hb
  | tail _ hstep ih =>
    obtain ⟨taskId, now, rfl⟩ := hstep
    exact consistent_terminate ih.1 ih.2 ..

theorem consistent_step {b : TaskBoard} {call : TaskCall}
    (hb : b.view.Consistent ∧ b.status? "" = none) (hwork : call.op.Workflow)
    (hnames : call.op.NamesTasks) (hentry : call.op.EntersWork) :
    (b.step call).view.Consistent ∧ (b.step call).status? "" = none := by
  cases b.move_step call with
  | keep hview =>
    have hs : (b.step call).status? = b.status? := congrArg DependencyBoard.status hview
    rw [hview, hs]
    exact hb
  | write hs hop hview =>
    obtain ⟨hfrom, hto⟩ := writes_workable hop hwork hentry
    constructor
    · rw [hview]
      exact hb.1.write hs hfrom hto
    · exact status?_empty_of_write hb.2 (by rw [hs]; simp) hview
  | completeRow _ _ hop _ =>
    rw [hop] at hwork
    exact hwork.elim
  | finish hop heq =>
    rw [heq]
    exact consistent_terminate hb.1 hb.2 ..
  | cancelAll _ hruns => exact consistent_cancels hb hruns
  | mutate hop hspecs hmut =>
    rw [hop] at hwork hnames
    obtain ⟨m⟩ := hmut
    apply m.consistent hb.1 hb.2
    intro spec hspec
    have hmem := mem_map_of_mem (f := fun s : NewTaskSpec => (s.taskId, s.initialStatus)) hspec
    rw [hspecs] at hmem
    obtain ⟨spec', hspec', heq⟩ := mem_map.mp hmem
    obtain ⟨hid, hinit⟩ := Prod.mk.inj heq
    exact ⟨hinit ▸ hwork spec' hspec', hid ▸ hnames spec' hspec'⟩
  | create hop _ _ =>
    rw [hop] at hwork
    exact hwork.elim
  | delete hop _ =>
    rw [hop] at hwork
    exact hwork.elim
  | sweep hop _ _ =>
    rw [hop] at hwork
    exact hwork.elim

theorem consistent_empty (teams : List String) :
    (empty teams).view.Consistent ∧ (empty teams).status? "" = none := by
  refine ⟨⟨?_, ?_, ?_⟩, rfl⟩
  · rintro a d r h
    cases h
  · rintro a ⟨s, hs, _⟩
    cases hs
  · rintro a h
    cases h

end TaskBoard

/-- In every state a run of workflow operations reaches from the empty board of a team, the
tables agree. -/
theorem workflow_tableInvariant (team : String) (calls : List TaskCall)
    (hwork : ∀ call ∈ calls, call.op.Workflow) (hnames : ∀ call ∈ calls, call.op.NamesTasks)
    (hentry : ∀ call ∈ calls, call.op.EntersWork) (b : TaskBoard)
    (hb : Reached TaskBoard.step (.empty [team]) calls b) : TableInvariant b := by
  have hstep : ∀ (b : TaskBoard) (call : TaskCall), b.view.Consistent ∧ b.status? "" = none →
      (call.op.Workflow ∧ call.op.NamesTasks ∧ call.op.EntersWork) →
      (b.step call).view.Consistent ∧ (b.step call).status? "" = none :=
    fun b call hb h => TaskBoard.consistent_step hb h.1 h.2.1 h.2.2
  have hmeets : Meets TaskBoard.step
      (fun _ call => call.op.Workflow ∧ call.op.NamesTasks ∧ call.op.EntersWork)
      (.empty [team]) calls :=
    meets_of_forall (fun call hc _ => ⟨hwork call hc, hnames call hc, hentry call hc⟩) _
  exact b.tableInvariant_iff.mpr
    (reached_invariant hstep (TaskBoard.consistent_empty [team]) hmeets hb).1

/-- No content files, clock at zero. -/
def inlineEnv : DaoEnv where
  hasFileStore := false
  sessionId := none
  put := fun _ => .written
  now := 0

def pendingSpec (taskId : String) : NewTaskSpec where
  taskId := taskId
  title := taskId
  content := taskId
  initialStatus := .pending

/-- Two tasks, the second waiting for the first, which is claimed and completed. -/
def chainCalls : List TaskCall :=
  [⟨inlineEnv, .mutateDependencyGraph "team" [pendingSpec "a", pendingSpec "b"] [("b", "a")]⟩,
    ⟨inlineEnv, .claimTask "a" "m" .inProgress⟩, ⟨inlineEnv, .completeTask "a"⟩]

/-- The invariant along the run of the two chained tasks. -/
theorem workflow_tableInvariant_chain :
    TableInvariant (run TaskBoard.step (.empty ["team"]) chainCalls) :=
  workflow_tableInvariant "team" chainCalls (by simp [chainCalls, TaskOp.Workflow, pendingSpec])
    (by simp [chainCalls, TaskOp.NamesTasks, pendingSpec])
    (by simp [chainCalls, TaskOp.EntersWork]) _ ⟨chainCalls, prefix_rfl, rfl⟩

def emptyIdCalls : List TaskCall :=
  [⟨inlineEnv, .mutateDependencyGraph "team" [pendingSpec "a", pendingSpec ""] [("", "a")]⟩]

def finishingClaimCalls : List TaskCall :=
  [⟨inlineEnv, .mutateDependencyGraph "team" [pendingSpec "a", pendingSpec "b"] [("b", "a")]⟩,
    ⟨inlineEnv, .claimTask "a" "m" .completed⟩]

/-- Over unrestricted arguments the tables can disagree: the refresh skips the empty id, and
a claim into a terminal status resolves nothing. -/
theorem tableInvariant_fails :
    ((∀ call ∈ emptyIdCalls, call.op.Workflow ∧ call.op.EntersWork) ∧
      ¬ TableInvariant (run TaskBoard.step (.empty ["team"]) emptyIdCalls)) ∧
    ((∀ call ∈ finishingClaimCalls, call.op.Workflow ∧ call.op.NamesTasks) ∧
      ¬ TableInvariant (run TaskBoard.step (.empty ["team"]) finishingClaimCalls)) := by
  refine ⟨⟨?_, fun h => ?_⟩, ?_, fun h => ?_⟩
  · simp [emptyIdCalls, TaskOp.Workflow, TaskOp.EntersWork, pendingSpec]
  · have hrow := h.unblocked "" _ rfl (Or.inl rfl) "a" _ rfl
    revert hrow
    decide
  · simp [finishingClaimCalls, TaskOp.Workflow, TaskOp.NamesTasks, pendingSpec]
  · have hrow := (h.resolved_iff "b" "a" _ rfl).mpr ⟨_, rfl, by decide⟩
    revert hrow
    decide

end JiuwenSpec.Team

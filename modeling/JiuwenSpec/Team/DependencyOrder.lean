import JiuwenSpec.Team.BoardInvariant

/-!
# Finished tasks and their dependencies

A finished task keeps its status as long as its row is not deleted, and in a workflow run no task is
in flight or completed before all that it depends on is finished.
-/

namespace JiuwenSpec.Team

open Base Relation List

namespace DependencyBoard

variable {α : Type} {v w : DependencyBoard α} {t a d : α} {s s' : TaskStatus} {S : α → Prop}

/-- A finished `t` has the same status on the second board. -/
def Lasts (t : α) (v w : DependencyBoard α) : Prop :=
  ∀ s, v.status t = some s → s.Terminal → w.status t = some s

theorem Lasts.finished (h : Lasts t v w) (hfin : v.Finished t) : w.Finished t := by
  obtain ⟨s, hs, hterm⟩ := hfin
  exact ⟨s, h s hs hterm, hterm⟩

theorem lasts_refresh : Lasts t v (v.refresh S) := by
  intro s hs hterm
  by_cases ht : S t
  · rw [status_refresh_of_mem v ht, hs, Option.map_some, settle_of_ne]
    rintro (rfl | rfl)
    · exact absurd hterm (by decide)
    · exact absurd hterm (by decide)
  · rw [status_refresh_of_not_mem v ht, hs]

theorem status_of_refresh (h : (v.refresh S).status a = some s) (hp : s ≠ .pending)
    (hb : s ≠ .blocked) : v.status a = some s := by
  by_cases ha : S a
  · rw [status_refresh_of_mem v ha] at h
    obtain ⟨s₀, hs₀, hset⟩ := Option.map_eq_some_iff.mp h
    rcases settle_cases (v.Waits a) s₀ with ⟨_, ⟨_, heq⟩ | ⟨_, heq⟩⟩ | ⟨_, heq⟩
    · exact absurd (hset.symm.trans heq) hb
    · exact absurd (hset.symm.trans heq) hp
    · rw [hs₀, ← hset, heq]
  · rwa [status_refresh_of_not_mem v ha] at h

/-- What a completed task depends on is finished. -/
def Ordered (v : DependencyBoard α) : Prop :=
  ∀ a d, v.edge a d ≠ none → v.status a = some .completed → v.Finished d

theorem Consistent.finished_of_workable (h : v.Consistent) (hwork : v.Workable a)
    (hedge : v.edge a d ≠ none) : v.Finished d := by
  obtain ⟨r, hr⟩ := Option.ne_none_iff_exists'.mp hedge
  apply (h.resolved_iff a d r hr).mp
  by_contra hfalse
  exact h.free a hwork ⟨d, by rw [hr, Bool.eq_false_iff.mpr hfalse]⟩

theorem not_terminal_of_status (hs : v.status a = some s) (hlive : ¬ s.Terminal) :
    ∀ s', v.status a = some s' → ¬ s'.Terminal := by
  intro s' hs'
  exact Option.some.inj (hs.symm.trans hs') ▸ hlive

variable [DecidableEq α]

theorem lasts_write (hlive : ∀ s, v.status a = some s → ¬ s.Terminal) :
    Lasts t v (v.write a s') := by
  intro s hs hterm
  by_cases ht : t = a
  · exact absurd hterm (hlive s (ht ▸ hs))
  · rw [status_write_of_ne v s' ht, hs]

theorem lasts_finish (hlive : ∀ s, v.status a = some s → ¬ s.Terminal) :
    Lasts t v (v.finish a s' S) := fun s hs hterm =>
  lasts_refresh s (lasts_write hlive s hs hterm) hterm

theorem Ordered.finish (h : v.Ordered) (hlive : ∀ s, v.status t = some s → ¬ s.Terminal)
    (hdone : s' = .completed → ∀ d, v.edge t d ≠ none → v.Finished d) :
    (v.finish t s' S).Ordered := by
  intro a d hedge hstatus
  have hold : v.edge a d ≠ none := by
    intro hnone
    apply hedge
    change (if d = t then (v.edge a d).map (fun _ => true) else v.edge a d) = none
    rw [hnone, Option.map_none, ite_self]
  have hwritten : (v.write t s').status a = some .completed :=
    status_of_refresh (v := (v.write t s').resolve t) hstatus (by decide) (by decide)
  apply (lasts_finish hlive).finished
  by_cases ha : a = t
  · subst ha
    rw [status_write_self, Option.some_inj] at hwritten
    exact hdone hwritten d hold
  · rw [status_write_of_ne v s' ha] at hwritten
    exact h a d hold hwritten

end DependencyBoard

open DependencyBoard

theorem Writes.not_terminal {op : TaskOp} {t : String} {s s' : TaskStatus}
    (h : Writes op t s s') : ¬ s.Terminal := by
  cases h with
  | start => decide
  | claim => decide
  | reset hs => exact hs.not_terminal
  | submit => decide
  | revise => decide
  | approve hs =>
    revert hs
    cases s <;> decide
  | update hs hne =>
    revert hs
    cases s <;> cases s' <;> decide

theorem not_terminal_of_terminable {n : TerminalStatus} {s : TaskStatus}
    (h : s ∈ terminablePredecessors n) : ¬ s.Terminal := by
  revert h
  cases n <;> cases s <;> decide

namespace TaskBoard

theorem lasts_terminate (b : TaskBoard) (t a : String) (n : TerminalStatus) (now : Nat) :
    Lasts a b.view (b.terminateTaskInSession t n now).1.view := by
  rcases b.terminateTaskInSession_cases t n now with hno | ⟨s, hs, hmem, hview⟩
  · rw [hno]
    exact fun _ hs _ => hs
  · rw [hview]
    exact lasts_finish (not_terminal_of_status hs (not_terminal_of_terminable hmem))

theorem Mutated.lasts {b b' : TaskBoard} {team t : String} {newTasks : List NewTaskSpec}
    {addEdges : List (String × String)} (m : b.Mutated team newTasks addEdges b') :
    Lasts t b.view b'.view := by
  intro s hs hterm
  rw [m.view_eq]
  refine lasts_refresh s ?_ hterm
  rw [view_status, status?, m.isWired.tasks_eq, ← status?, m.isStaged.kept]
  · exact hs
  · intro hmem
    obtain ⟨spec, hspec, rfl⟩ := mem_map.mp hmem
    cases hs.symm.trans (m.isStaged.absent spec hspec)

theorem lasts_step (b : TaskBoard) (call : TaskCall) {t : String}
    (hno : call.op ≠ .deleteTask t) : Lasts t b.view (b.step call).view := by
  cases b.move_step call with
  | keep hview =>
    rw [hview]
    exact fun _ hs _ => hs
  | write hs hop hview =>
    rw [hview]
    exact lasts_write (not_terminal_of_status hs hop.not_terminal)
  | @completeRow a s hs hvalid _ hview =>
    rw [hview]
    have hlive : ¬ s.Terminal := not_terminal_of_terminable
      (terminablePredecessors_transition (n := .completed) |>.mpr hvalid)
    exact (lasts_write (not_terminal_of_status hs hlive) :
      Lasts t b.view (b.view.write a .completed))
  | finish _ heq =>
    rw [heq]
    exact lasts_terminate b _ t _ _
  | cancelAll _ hruns =>
    refine ReflTransGen.rec (motive := fun b' _ => Lasts t b.view b'.view) ?_ ?_ hruns
    · exact fun _ hs _ => hs
    · rintro b₁ b₂ - ⟨a, now, rfl⟩ ih s hs hterm
      exact lasts_terminate b₁ a t _ now s (ih s hs hterm) hterm
  | mutate _ _ hmut =>
    obtain ⟨m⟩ := hmut
    exact m.lasts
  | create _ hs hview =>
    rw [hview]
    apply lasts_write
    intro s₀ hs₀
    cases hs.symm.trans hs₀
  | @delete a hop hview =>
    rw [hview]
    intro s hs _
    have hne : t ≠ a := fun heq => hno (heq ▸ hop)
    change (if t = a then none else b.view.status t) = some s
    rw [if_neg hne, hs]
  | sweep _ _ hview =>
    rw [hview]
    exact lasts_refresh

theorem Mutated.ordered {b b' : TaskBoard} {team : String} {newTasks : List NewTaskSpec}
    {addEdges : List (String × String)} (m : b.Mutated team newTasks addEdges b')
    (h : b.view.Ordered) : b'.view.Ordered := by
  intro a d hedge hstatus
  rw [m.view_eq] at hedge hstatus
  have hstaged := status_of_refresh hstatus (by decide) (by decide)
  rw [view_status, status?, m.isWired.tasks_eq, ← status?] at hstaged
  have hnew : (a, d) ∉ m.newEdges := by
    intro hmem
    rcases (m.valid (a, d) ((m.mem_newEdges _).mp hmem).1).1 with hs | hs
    · cases hs.symm.trans hstaged
    · cases hs.symm.trans hstaged
  have hold : b.resolved? a d ≠ none := by
    rwa [resolved?, ← m.isStaged.deps_eq, ← m.isWired.kept _ hnew]
  have hkept : m.staged.status? a = b.status? a := by
    apply m.isStaged.kept
    intro hmem
    obtain ⟨spec, hspec, rfl⟩ := mem_map.mp hmem
    exact (b.endpoints_of_resolved? hold).1 (m.isStaged.absent spec hspec)
  exact m.lasts.finished (h a d hold (hkept.symm.trans hstaged))

theorem ordered_terminate {b : TaskBoard} (hb : b.view.Consistent) (h : b.view.Ordered)
    (t : String) (n : TerminalStatus) (now : Nat) :
    (b.terminateTaskInSession t n now).1.view.Ordered := by
  rcases b.terminateTaskInSession_cases t n now with hno | ⟨s, hs, hmem, hview⟩
  · rwa [hno]
  · rw [hview]
    apply h.finish (not_terminal_of_status hs (not_terminal_of_terminable hmem))
    · intro hn d hedge
      refine hb.finished_of_workable ⟨s, hs, .inr ?_⟩ hedge
      revert hn hmem
      cases n <;> cases s <;> decide

theorem ordered_step {b : TaskBoard} {call : TaskCall}
    (hb : b.view.Consistent ∧ b.status? "" = none) (h : b.view.Ordered)
    (hwork : call.op.Workflow) (hentry : call.op.EntersWork) : (b.step call).view.Ordered := by
  cases b.move_step call with
  | keep hview => rwa [hview]
  | @write t s s' hs hop hview =>
    rw [hview]
    intro a d hedge hstatus
    have hlast : Lasts d b.view (b.view.write t s') :=
      lasts_write (not_terminal_of_status hs hop.not_terminal)
    have hne : a ≠ t := by
      rintro rfl
      rw [status_write_self, Option.some_inj] at hstatus
      exact absurd (hstatus ▸ (writes_workable hop hwork hentry).2) (by decide)
    rw [status_write_of_ne _ _ hne] at hstatus
    exact hlast.finished (h a d hedge hstatus)
  | finish _ heq =>
    rw [heq]
    exact ordered_terminate hb.1 h _ _ _
  | cancelAll _ hruns =>
    have hall : ∀ b', ReflTransGen Cancels b b' →
        (b'.view.Consistent ∧ b'.status? "" = none) ∧ b'.view.Ordered := by
      intro b' hruns
      induction hruns with
      | refl => exact ⟨hb, h⟩
      | tail _ hstep ih =>
        obtain ⟨t, now, rfl⟩ := hstep
        exact ⟨consistent_terminate ih.1.1 ih.1.2 .., ordered_terminate ih.1.1 ih.2 _ _ _⟩
    exact (hall _ hruns).2
  | mutate _ _ hmut =>
    obtain ⟨m⟩ := hmut
    exact m.ordered h
  | completeRow _ _ hop _ => simp [hop, TaskOp.Workflow] at hwork
  | create hop _ _ => simp [hop, TaskOp.Workflow] at hwork
  | delete hop _ => simp [hop, TaskOp.Workflow] at hwork
  | sweep hop _ _ => simp [hop, TaskOp.Workflow] at hwork

end TaskBoard

/-- **Finished is final.** Whatever calls follow on any board, a completed or cancelled task keeps
its status in every state on the way, unless its own row is deleted. -/
theorem finished_stays (b : TaskBoard) (calls : List TaskCall) {taskId : String} {s : TaskStatus}
    (hs : b.status? taskId = some s) (hterm : s.Terminal)
    (hkept : ∀ call ∈ calls, call.op ≠ .deleteTask taskId) {b' : TaskBoard}
    (hb' : Reached TaskBoard.step b calls b') : b'.status? taskId = some s :=
  reached_invariant (I := fun b => b.status? taskId = some s)
    (fun b _ hs hno => b.lasts_step _ hno s hs hterm) hs
    (meets_of_forall (fun call hc _ => hkept call hc) b) hb'

/-- The first of the chained tasks stays completed when all is cancelled. -/
theorem finished_stays_chain :
    (run TaskBoard.step (run TaskBoard.step (.empty ["team"]) chainCalls)
      [⟨inlineEnv, .cancelAllTasks "team" []⟩]).status? "a" = some .completed :=
  finished_stays _ [⟨inlineEnv, .cancelAllTasks "team" []⟩] (by decide) (by decide) (by simp)
    ⟨_, prefix_rfl, rfl⟩

/-- **Work follows the dependencies.** In every state of a workflow run of a team, what a task in
flight or a completed one depends on is resolved and finished. -/
theorem work_follows_dependencies (team : String) (calls : List TaskCall)
    (hwork : ∀ call ∈ calls, call.op.Workflow) (hnames : ∀ call ∈ calls, call.op.NamesTasks)
    (hentry : ∀ call ∈ calls, call.op.EntersWork) {b : TaskBoard}
    (hb : Reached TaskBoard.step (.empty [team]) calls b) {taskId : String} {task : TeamTask}
    (htask : b.tasks.get? taskId = some task)
    (hstatus : task.status.InFlight ∨ task.status = .completed) :
    ∀ dependsOn row, b.deps.get? (taskId, dependsOn) = some row →
      row.resolved = true ∧
        ∃ dep, b.tasks.get? dependsOn = some dep ∧ dep.status.Terminal := by
  have hinv : (b.view.Consistent ∧ b.status? "" = none) ∧ b.view.Ordered := by
    refine reached_invariant (I := fun b => (b.view.Consistent ∧ b.status? "" = none) ∧
        b.view.Ordered) (fun b call h (hc : call.op.Workflow ∧ call.op.NamesTasks ∧
        call.op.EntersWork) => ⟨TaskBoard.consistent_step h.1 hc.1 hc.2.1 hc.2.2,
        TaskBoard.ordered_step h.1 h.2 hc.1 hc.2.2⟩)
      ⟨TaskBoard.consistent_empty [team], fun a d hedge => absurd rfl hedge⟩
      (meets_of_forall (fun call hc _ => ⟨hwork call hc, hnames call hc, hentry call hc⟩) _) hb
  intro d row hrow
  have hs : b.view.status taskId = some task.status := by
    rw [TaskBoard.view_status, TaskBoard.status?, htask]
    rfl
  have hedge : b.view.edge taskId d = some row.resolved := by
    rw [TaskBoard.view_edge, TaskBoard.resolved?, hrow]
    rfl
  have hsome : b.view.edge taskId d ≠ none := by simp [hedge]
  have hfin : b.view.Finished d := by
    rcases hstatus with hflight | hdone
    · exact hinv.1.1.finished_of_workable ⟨_, hs, .inr hflight⟩ hsome
    · exact hinv.2 taskId d hsome (hs.trans (congrArg some hdone))
  exact ⟨(hinv.1.1.resolved_iff taskId d _ hedge).mpr hfin, (b.finished_iff d).mp hfin⟩

def claimedCalls : List TaskCall := chainCalls ++ [⟨inlineEnv, .claimTask "b" "m" .inProgress⟩]

/-- The second of the chained tasks is claimed once the first is completed. -/
theorem work_follows_dependencies_chain :
    ∃ dep, (run TaskBoard.step (.empty ["team"]) claimedCalls).tasks.get? "a" = some dep ∧
      dep.status.Terminal := by
  obtain ⟨task, htask, hflight⟩ : ∃ task, (run TaskBoard.step (.empty ["team"])
      claimedCalls).tasks.get? "b" = some task ∧ task.status.InFlight := ⟨_, rfl, by decide⟩
  obtain ⟨row, hrow⟩ : ∃ row, (run TaskBoard.step (.empty ["team"])
      claimedCalls).deps.get? ("b", "a") = some row := ⟨_, rfl⟩
  exact (work_follows_dependencies "team" claimedCalls
    (by simp [claimedCalls, chainCalls, TaskOp.Workflow, pendingSpec])
    (by simp [claimedCalls, chainCalls, TaskOp.NamesTasks, pendingSpec])
    (by simp [claimedCalls, chainCalls, TaskOp.EntersWork]) ⟨_, prefix_rfl, rfl⟩ htask
    (.inl hflight) "a" row hrow).2

end JiuwenSpec.Team

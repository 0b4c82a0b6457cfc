import JiuwenSpec.Team.DependencyCycles

/-!
# The board of one team can always be worked on

Over all writing operations of the data access object. The terminal transition and the
graph mutation keep the board live by themselves; the plain status write, the deletion and
the creation do not settle the dependents of what they change, so each of them needs a
condition on the board it is applied to.
-/

namespace JiuwenSpec.Team

open Base Relation List DependencyBoard

namespace TaskBoard

/-- Every BLOCKED task but `taskId` has an unresolved dependency on another task. -/
def BlockedElsewhere (b : TaskBoard) (taskId : String) : Prop :=
  ∀ a, a ≠ taskId → b.status? a = some .blocked → ∃ d, d ≠ taskId ∧ b.resolved? a d = some false

/-- A status may be written without settling anything: a terminal status only on a task no
unresolved dependency points at, BLOCKED only on a task with an unresolved dependency. -/
def WritesSafely (b : TaskBoard) (taskId : String) (status : TaskStatus) : Prop :=
  (status.Terminal → ∀ a, b.resolved? a taskId ≠ some false) ∧
    (status = .blocked → taskId ≠ "" ∧ ∃ d, b.resolved? taskId d = some false)

def KeepsWorkable (b : TaskBoard) (call : TaskCall) : Prop :=
  match call.op with
  | .createTask _ _ _ _ status => status ≠ .blocked
  | .mutateDependencyGraph _ newTasks _ =>
    ∀ spec ∈ newTasks, spec.taskId = "" → spec.initialStatus ≠ .blocked
  | .startTask taskId _ toStatus | .claimTask taskId _ toStatus =>
    b.status? taskId = some .pending → b.WritesSafely taskId toStatus
  | .updateTaskStatus taskId status =>
    ∀ s, b.status? taskId = some s → isValidTransition s status = true →
      if status = .completed then b.BlockedElsewhere taskId else b.WritesSafely taskId status
  | .deleteTask taskId => b.BlockedElsewhere taskId
  | _ => True

/-- What a run keeps: the board is live, the empty id is not blocked. -/
structure Sound (b : TaskBoard) : Prop where
  live : b.view.Live
  empty_not_blocked : b.status? "" ≠ some .blocked

variable {b' : TaskBoard}

private theorem status?_eq_of_view {v : DependencyBoard String}
    (h : b'.view = v) (a : String) : b'.status? a = v.status a :=
  congrFun (congrArg DependencyBoard.status h) a

variable {b : TaskBoard}

private theorem sound_write (hb : b.Sound) {t : String} {s' : TaskStatus}
    (hterm : s'.Terminal → ∀ a, b.resolved? a t ≠ some false)
    (hblocked : s' = .blocked → t ≠ "" ∧ ∃ d, b.resolved? t d = some false)
    (hview : b'.view = b.view.write t s') : b'.Sound where
  live := by
    rw [hview]
    exact hb.live.write hterm (fun h => (hblocked h).2)
  empty_not_blocked := by
    rw [status?_eq_of_view hview]
    by_cases ht : "" = t
    · subst ht
      rw [status_write_self]
      intro h
      exact (hblocked (Option.some.inj h)).1 rfl
    · rw [status_write_of_ne _ _ ht]
      exact hb.empty_not_blocked

private theorem sound_terminate (hb : b.Sound) (t : String) (n : TerminalStatus)
    (now : Nat) : (b.terminateTaskInSession t n now).1.Sound := by
  rcases b.terminateTaskInSession_cases t n now with hno | ⟨s, hs, _, hview⟩
  · rwa [hno]
  · refine ⟨?_, ?_⟩
    · rw [hview]
      apply hb.live.finish (TaskStatus.terminal_toStatus n)
      intro a ha hedge
      refine ⟨hedge, ?_⟩
      rintro rfl
      exact hb.empty_not_blocked ha
    · rw [status?_eq_of_view hview, DependencyBoard.finish,
        status_refresh_of_not_mem _ (fun h => h.2 rfl),
        status_resolve]
      by_cases ht : "" = t
      · subst ht
        rw [status_write_self]
        cases n <;> decide
      · rw [status_write_of_ne _ _ ht]
        exact hb.empty_not_blocked

private theorem sound_cancels (hb : b.Sound) (h : ReflTransGen Cancels b b') : b'.Sound := by
  induction h with
  | refl => exact hb
  | tail _ hstep ih =>
    obtain ⟨t, now, rfl⟩ := hstep
    exact sound_terminate ih t .cancelled now

theorem Mutated.sound {teamName : String} {newTasks : List NewTaskSpec}
    {addEdges : List (String × String)} (m : b.Mutated teamName newTasks addEdges b') (hb : b.Sound)
    (hseed : ∀ spec ∈ newTasks, spec.taskId = "" → spec.initialStatus ≠ .blocked) : b'.Sound := by
  have hstatus : m.wired.status? = m.staged.status? := by
    funext a
    rw [status?, m.isWired.tasks_eq, status?]
  have hkept : ∀ a d, (a, d) ∉ m.newEdges → m.wired.resolved? a d = b.resolved? a d := by
    intro a d h
    rw [resolved?, m.isWired.kept _ h, m.isStaged.deps_eq, resolved?]
  have hempty : m.staged.status? "" ≠ some .blocked := by
    by_cases hm : "" ∈ newTasks.map NewTaskSpec.taskId
    · obtain ⟨spec, hspec, hid⟩ := mem_map.mp hm
      rw [← hid, m.isStaged.seeded spec hspec]
      exact fun h => hseed spec hspec hid (Option.some.inj h)
    · rw [m.isStaged.kept _ hm]
      exact hb.empty_not_blocked
  refine ⟨?_, ?_⟩
  · rw [m.view_eq]
    apply live_refresh
    · intro a d h
      rw [view_edge] at h
      by_cases hin : (a, d) ∈ m.newEdges
      · obtain ⟨row, hrow, _, hres⟩ := m.isWired.added _ hin
        rw [resolved?, hrow] at h
        have hfalse : ¬ m.staged.view.Finished d := by
          rw [← hres, Option.some.inj h]
          simp
        rw [DependencyBoard.Finished, view_status, hstatus]
        exact ⟨(m.valid _ ((m.mem_newEdges _).mp hin).1).2, hfalse⟩
      · rw [hkept a d hin] at h
        obtain ⟨hsome, hfin⟩ := hb.live.target a d h
        have hold : m.staged.status? d = b.status? d := by
          apply m.isStaged.kept
          intro hm
          obtain ⟨spec, hspec, rfl⟩ := mem_map.mp hm
          exact hsome (m.isStaged.absent spec hspec)
        rw [DependencyBoard.Finished, view_status, hstatus, hold]
        exact ⟨hsome, hfin⟩
    · intro a haS hs
      rw [view_status, hstatus] at hs
      have hne : a ≠ "" := by
        rintro rfl
        exact hempty hs
      have hout : a ∉ newTasks.map NewTaskSpec.taskId := fun h => haS ⟨Or.inl h, hne⟩
      rw [m.isStaged.kept a hout] at hs
      obtain ⟨d, hd⟩ := hb.live.waits a hs
      have hin : (a, d) ∉ m.newEdges := fun h =>
        haS ⟨Or.inr (mem_map.mpr ⟨_, h, rfl⟩), hne⟩
      exact ⟨d, by rw [view_edge, hkept a d hin]; exact hd⟩
  · rw [status?_eq_of_view m.view_eq,
      status_refresh_of_not_mem _ (fun h => h.2 rfl), view_status, hstatus]
    exact hempty

theorem sound_step {call : TaskCall} (hb : b.Sound) (h : b.KeepsWorkable call) :
    (b.step call).Sound := by
  unfold KeepsWorkable at h
  cases b.move_step call with
  | keep hview =>
    refine ⟨?_, ?_⟩
    · rw [hview]
      exact hb.live
    · rw [status?_eq_of_view hview]
      exact hb.empty_not_blocked
  | @write t s s' hs hop hview =>
    generalize call.op = op at h hop
    cases hop with
    | start => exact sound_write hb (h hs).1 (h hs).2 hview
    | claim => exact sound_write hb (h hs).1 (h hs).2 hview
    | reset => exact sound_write hb (fun hterm => absurd hterm (by decide)) (by simp) hview
    | submit => exact sound_write hb (fun hterm => absurd hterm (by decide)) (by simp) hview
    | revise => exact sound_write hb (fun hterm => absurd hterm (by decide)) (by simp) hview
    | approve => exact sound_write hb (fun hterm => absurd hterm (by decide)) (by simp) hview
    | update hvalid hne =>
      have hsafe := h s hs hvalid
      rw [if_neg hne] at hsafe
      exact sound_write hb hsafe.1 hsafe.2 hview
  | @completeRow t s hs hvalid hop hview =>
    rw [hop] at h
    have hbeside : b.BlockedElsewhere t := h s hs hvalid
    refine ⟨?_, ?_⟩
    · rw [hview]
      exact hb.live.complete (by decide) hbeside
    · rw [status?_eq_of_view hview, status_resolve]
      by_cases ht : "" = t
      · subst ht
        rw [status_write_self]
        decide
      · rw [status_write_of_ne _ _ ht]
        exact hb.empty_not_blocked
  | finish _ heq =>
    rw [heq]
    exact sound_terminate hb ..
  | cancelAll _ hruns => exact sound_cancels hb hruns
  | mutate hop hspecs hmut =>
    rw [hop] at h
    obtain ⟨m⟩ := hmut
    refine m.sound ⟨hb.live, hb.empty_not_blocked⟩ fun spec hspec hid => ?_
    have hmem := mem_map_of_mem (f := fun s : NewTaskSpec => (s.taskId, s.initialStatus)) hspec
    rw [hspecs] at hmem
    obtain ⟨spec', hspec', heq⟩ := mem_map.mp hmem
    obtain ⟨hid', hinit⟩ := Prod.mk.inj heq
    exact hinit ▸ h spec' hspec' (hid'.trans hid)
  | @create t _ _ _ s hop hs hview =>
    rw [hop] at h
    refine sound_write hb (fun _ a hedge => ?_) (fun hblocked => absurd hblocked h) hview
    exact (b.endpoints_of_resolved? (by rw [hedge]; simp)).2 hs
  | delete hop hview =>
    rw [hop] at h
    refine ⟨?_, ?_⟩
    · rw [hview]
      exact hb.live.remove h
    · rw [status?_eq_of_view hview]
      change (if "" = _ then none else b.status? "") ≠ some .blocked
      split
      · simp
      · exact hb.empty_not_blocked
  | sweep _ hS hview =>
    refine ⟨?_, ?_⟩
    · rw [hview]
      exact live_refresh hb.live.target (fun a _ ha => hb.live.waits a ha)
    · rw [status?_eq_of_view hview, status_refresh_of_not_mem]
      · exact hb.empty_not_blocked
      · exact fun h => hb.empty_not_blocked (hS "" h)

private theorem teams_updateTaskWhere (b : TaskBoard) (taskId : String) (guard : TeamTask → Bool)
    (f : TeamTask → TeamTask) : (b.updateTaskWhere taskId guard f).1.teams = b.teams := by
  unfold updateTaskWhere
  split
  · split
    · rfl
    · rfl
  · rfl

private theorem teams_terminate (b : TaskBoard) (t : String) (n : TerminalStatus) (now : Nat) :
    (b.terminateTaskInSession t n now).1.teams = b.teams := by
  unfold terminateTaskInSession
  split
  · rfl
  · split
    · rfl
    · split
      · rfl
      · rfl

private theorem teams_cancels (h : ReflTransGen Cancels b b') : b'.teams = b.teams := by
  induction h with
  | refl => rfl
  | tail _ hstep ih =>
    obtain ⟨t, now, rfl⟩ := hstep
    rw [teams_terminate, ih]

private theorem teams_updateTask (b : TaskBoard) (env : DaoEnv) (taskId : String)
    (title content : Option String) :
    (b.updateTask env taskId title content).1.teams = b.teams := by
  unfold updateTask
  split
  · rfl
  · split
    · rfl
    · split
      · rfl
      · split
        · rfl
        · rfl

private theorem teams_mutate (b : TaskBoard) (env : DaoEnv) (teamName : String)
    (newTasks : List NewTaskSpec) (addEdges : List (String × String)) :
    (b.mutateDependencyGraph env teamName newTasks addEdges).1.teams = b.teams := by
  unfold mutateDependencyGraph
  split
  · rfl
  · split
    · rfl
    · simp only
      split
      · next hok =>
        obtain ⟨m⟩ := mutateInSession_eq_ok hok
        exact m.teams_eq
      · rfl

theorem teams_step (b : TaskBoard) (call : TaskCall) : (b.step call).teams = b.teams := by
  obtain ⟨env, op⟩ := call
  cases op with
  | createTask taskId teamName title content status =>
    change (b.createTask env taskId teamName title content status).1.teams = b.teams
    unfold createTask
    split
    · rfl
    · simp only
      split
      · next hins => exact (insertTask_eq_some hins).2.2.1
      · rfl
  | mutateDependencyGraph teamName newTasks addEdges =>
    exact teams_mutate b env teamName newTasks addEdges
  | updateTaskStatus taskId status =>
    change (b.updateTaskStatus env.now taskId status).1.teams = b.teams
    simp only [updateTaskStatus]
    split
    · exact teams_updateTaskWhere ..
    · exact teams_updateTaskWhere ..
  | updateTask taskId title content => exact teams_updateTask b env taskId title content
  | deleteTask taskId =>
    change (b.deleteTask taskId).1.teams = b.teams
    unfold deleteTask
    split
    · rfl
    · rfl
  | cancelTask taskId => exact teams_terminate ..
  | completeTask taskId => exact teams_terminate ..
  | cancelAllTasks teamName skipAssignees =>
    have hruns := b.cancelAllTasks_runs env.now teamName skipAssignees
    exact teams_cancels hruns
  | verifyAndFixTaskConsistency teamName => rfl
  | _ => exact teams_updateTaskWhere ..

theorem Mutated.acyclic_of_one_team {team teamName : String}
    {newTasks : List NewTaskSpec} {addEdges : List (String × String)}
    (m : b.Mutated teamName newTasks addEdges b') (hteams : b.teams = [team])
    (hb : Acyclic b.DependsOn) : Acyclic b'.DependsOn := by
  by_cases hnew : m.newEdges = []
  · apply hb.mono
    intro a d hd
    rcases (m.dependsOn_iff a d).mp hd with hold | hadd
    · exact hold
    · have hin : (a, d) ∈ b.edgesOf teamName := by
        by_contra hx
        have := (m.mem_newEdges _).mpr ⟨hadd, hx⟩
        rw [hnew] at this
        cases this
      obtain ⟨row, hrow, _⟩ := mem_edgesOf.mp hin
      exact Dict.mem_keys_iff.mpr ⟨row, hrow⟩
  · obtain ⟨e, he⟩ := exists_mem_of_ne_nil _ hnew
    have hedges : addEdges ≠ [] := ne_nil_of_mem ((m.mem_newEdges e).mp he).1
    have hteam : teamName = team := by
      obtain ⟨row, hrow, rfl, _⟩ := m.isWired.added e he
      have hmem := m.wired.depTeams e row hrow
      rw [m.isWired.teams_eq, m.isStaged.teams_eq, hteams] at hmem
      exact mem_singleton.mp hmem
    apply (m.acyclic_iff hedges).mpr
    intro a d row hrow hforeign
    have hmem := b.depTeams _ row hrow
    rw [hteams, mem_singleton] at hmem
    exact absurd (hmem.trans hteam.symm) hforeign

theorem acyclic_step_of_one_team {team : String} (hteams : b.teams = [team])
    (hb : Acyclic b.DependsOn) (call : TaskCall) : Acyclic (b.step call).DependsOn := by
  rcases dependsOn_of_move (b.move_step call) with
    hsub | ⟨teamName, newTasks, specs, addEdges, files, _, ⟨m⟩⟩
  · exact hb.mono hsub
  · exact m.acyclic_of_one_team hteams hb

theorem Sound.exists_workable (hb : b.Sound) (hac : Acyclic b.DependsOn)
    {taskId : String} (hblocked : b.status? taskId = some .blocked) : ∃ a, b.view.Workable a := by
  have hmem : ∀ a, a ∈ (b.tasks.keys.filter (fun a => b.status? a = some .blocked)).toFinset ↔
      b.view.status a = some .blocked := by
    intro a
    rw [mem_toFinset, mem_filter, view_status]
    constructor
    · exact fun h => of_decide_eq_true h.2
    · intro h
      refine ⟨?_, decide_eq_true h⟩
      by_contra hno
      rw [(b.status?_eq_none_iff a).mpr hno] at h
      cases h
  apply hb.live.exists_workable ((acyclic_congr b.dependsOn_iff).mp hac) hmem
  exact ⟨taskId, (hmem taskId).mpr hblocked⟩

end TaskBoard

/-- Along every run over the board of one team whose calls meet their conditions, a BLOCKED
task implies a task that is PENDING or in flight. -/
theorem blocked_leaves_workable (team : String) (calls : List TaskCall)
    (hcalls : Meets TaskBoard.step TaskBoard.KeepsWorkable (.empty [team]) calls)
    (b : TaskBoard) (hb : Reached TaskBoard.step (.empty [team]) calls b)
    (hblocked : ∃ taskId task, b.tasks.get? taskId = some task ∧ task.status = .blocked) :
    ∃ taskId task, b.tasks.get? taskId = some task ∧
      (task.status = .pending ∨ task.status.InFlight) := by
  have hempty : (TaskBoard.empty [team]).Sound :=
    ⟨⟨(fun _ _ h => nomatch h), (fun _ h => nomatch h)⟩, (fun h => nomatch h)⟩
  have hinv := reached_invariant
    (I := fun b => b.Sound ∧ b.teams = [team] ∧ Acyclic b.DependsOn)
    (fun b call hb h => ⟨TaskBoard.sound_step hb.1 h, (b.teams_step call).trans hb.2.1,
      TaskBoard.acyclic_step_of_one_team hb.2.1 hb.2.2 call⟩)
    ⟨hempty, rfl, TaskBoard.acyclic_empty [team]⟩ hcalls hb
  obtain ⟨taskId, task, htask, hs⟩ := hblocked
  have hstatus : b.status? taskId = some .blocked := by
    rw [TaskBoard.status?, htask]
    exact congrArg some hs
  obtain ⟨a, s, ha, hwork⟩ := hinv.1.exists_workable hinv.2.2 hstatus
  obtain ⟨task', htask', rfl⟩ := Option.map_eq_some_iff.mp ha
  exact ⟨a, task', htask', hwork⟩

def claimedChain : List TaskCall :=
  [⟨inlineEnv, .mutateDependencyGraph "team" [pendingSpec "a", pendingSpec "b"] [("b", "a")]⟩,
    ⟨inlineEnv, .claimTask "a" "m" .inProgress⟩]

/-- Progress after the chained tasks, where the second is BLOCKED. -/
theorem blocked_leaves_workable_chain :
    ∃ taskId task,
      (run TaskBoard.step (.empty ["team"]) claimedChain).tasks.get? taskId = some task ∧
        (task.status = .pending ∨ task.status.InFlight) := by
  apply blocked_leaves_workable "team" claimedChain _ _ ⟨claimedChain, prefix_rfl, rfl⟩
  · exact ⟨"b", _, rfl, by decide⟩
  · refine ⟨?_, fun _ => ⟨?_, ?_⟩, True.intro⟩
    · intro spec hspec _ hblocked
      have hseed : ∀ spec ∈ [pendingSpec "a", pendingSpec "b"], spec.initialStatus ≠ .blocked := by
        decide
      exact hseed spec hspec hblocked
    · exact fun h => absurd h (by decide)
    · exact fun h => by cases h

/-- A prerequisite cancelled through the plain status write. -/
def plainCancel : List TaskCall :=
  [⟨inlineEnv, .mutateDependencyGraph "team" [pendingSpec "a", pendingSpec "b"] [("b", "a")]⟩,
    ⟨inlineEnv, .updateTaskStatus "a" .cancelled⟩]

/-- The status write resolves nothing on CANCELLED: its dependent stays BLOCKED and nothing
is left to work on. -/
theorem plainCancel_deadlocks :
    (run TaskBoard.step (.empty ["team"]) plainCancel).status? "b" = some .blocked ∧
      ∀ taskId task,
        (run TaskBoard.step (.empty ["team"]) plainCancel).tasks.get? taskId = some task →
          ¬ (task.status = .pending ∨ task.status.InFlight) := by
  refine ⟨by decide, fun taskId task h => ?_⟩
  have hall : ∀ e ∈ (run TaskBoard.step (.empty ["team"]) plainCancel).tasks.entries,
      ¬ (e.2.status = .pending ∨ e.2.status.InFlight) := by decide
  exact hall _ (Dict.get?_eq_some_iff.mp h)

end JiuwenSpec.Team

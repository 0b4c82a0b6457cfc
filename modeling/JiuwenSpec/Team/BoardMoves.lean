import JiuwenSpec.Team.TaskDao

/-!
# What an accepted mutation does

One lemma for each step of the mutation pipeline, and from them the description of an
accepted `mutate_dependency_graph`: the staged board with the new tasks, the wired board
with the new edges, and the refresh of what they touched.
-/

namespace JiuwenSpec.Team

open Base List Dict

namespace TaskBoard

theorem insertTask_eq_some {b b' : TaskBoard} {taskId : String} {task : TeamTask}
    (h : b.insertTask taskId task = some b') :
    b.status? taskId = none ∧ b'.deps = b.deps ∧ b'.teams = b.teams ∧
      b'.view = b.view.write taskId task.status := by
  unfold insertTask at h
  split at h
  · cases h
  · next hok =>
    cases h
    rw [not_or] at hok
    refine ⟨(b.status?_eq_none_iff taskId).mpr hok.1, rfl, rfl, ?_⟩
    apply DependencyBoard.ext
    · funext a
      change ((b.tasks.set taskId task).get? a).map TeamTask.status =
        if a = taskId then some task.status else b.status? a
      rw [get?_set]
      by_cases ha : a = taskId
      · simp [ha]
      · simp [ha, status?]
    · rfl

structure Staged (b : TaskBoard) (newTasks : List NewTaskSpec) (staged : TaskBoard) : Prop where
  deps_eq : staged.deps = b.deps
  teams_eq : staged.teams = b.teams
  absent : ∀ spec ∈ newTasks, b.status? spec.taskId = none
  seeded : ∀ spec ∈ newTasks, staged.status? spec.taskId = some spec.initialStatus
  kept : ∀ a, a ∉ newTasks.map NewTaskSpec.taskId → staged.status? a = b.status? a

theorem insertTasks_eq_some {teamName : String} {now : Nat} {b staged : TaskBoard}
    {newTasks : List NewTaskSpec} (h : insertTasks teamName now b newTasks = some staged) :
    Staged b newTasks staged := by
  induction newTasks generalizing b with
  | nil =>
    cases h
    exact ⟨rfl, rfl, by simp, by simp, fun _ _ => rfl⟩
  | cons spec specs ih =>
    obtain ⟨b₁, hb₁, hrest⟩ := Option.bind_eq_some_iff.mp h
    obtain ⟨habs, hdeps, hteams, hview⟩ := insertTask_eq_some hb₁
    have hs := ih hrest
    have hstatus : ∀ a, b₁.status? a =
        if a = spec.taskId then some spec.initialStatus else b.status? a := by
      intro a
      rw [← view_status, hview]
      rfl
    have hnew : spec.taskId ∉ specs.map NewTaskSpec.taskId := by
      intro hm
      obtain ⟨other, hother, hid⟩ := mem_map.mp hm
      have hno := hs.absent other hother
      rw [hid, hstatus, if_pos rfl] at hno
      cases hno
    refine ⟨hs.deps_eq.trans hdeps, hs.teams_eq.trans hteams, ?_, ?_, ?_⟩
    · intro other hother
      rcases mem_cons.mp hother with rfl | hother
      · exact habs
      · have hno := hs.absent other hother
        rw [hstatus] at hno
        split at hno
        · cases hno
        · exact hno
    · intro other hother
      rcases mem_cons.mp hother with rfl | hother
      · rw [hs.kept _ hnew, hstatus, if_pos rfl]
      · exact hs.seeded other hother
    · intro a ha
      rw [map_cons, mem_cons, not_or] at ha
      rw [hs.kept a ha.2, hstatus, if_neg ha.1]

theorem stageNewTasks_eq_ok {b staged : TaskBoard} {teamName : String}
    {newTasks : List NewTaskSpec} {now : Nat}
    (h : b.stageNewTasks teamName newTasks now = .ok staged) : Staged b newTasks staged := by
  simp only [stageNewTasks] at h
  split at h
  · cases h
  · split at h
    · cases h
    · split at h
      · next hins =>
        cases h
        exact insertTasks_eq_some hins
      · cases h

theorem loadEndpointsAndValidate_eq_ok {b : TaskBoard} {edges : List (String × String)}
    (h : b.loadEndpointsAndValidate edges = .ok ()) :
    ∀ e ∈ edges, (b.status? e.1 = some .pending ∨ b.status? e.1 = some .blocked) ∧
      b.status? e.2 ≠ none := by
  induction edges with
  | nil => simp
  | cons edge edges ih =>
    obtain ⟨tid, depId⟩ := edge
    rw [loadEndpointsAndValidate] at h
    split at h
    · cases h
    · cases h
    · next source target hsource htarget =>
      split at h
      · cases h
      · next hok =>
        intro e he
        rcases mem_cons.mp he with rfl | he
        · rw [status?, hsource, status?, htarget]
          rcases (TaskStatus.not_mem_reject_iff source.status).mp hok with hs | hs
          · simp [hs]
          · simp [hs]
        · exact ih h e he

theorem mem_freshEdges {existing : List (String × String)} {e : String × String}
    {fresh edges : List (String × String)} :
    e ∈ freshEdges existing fresh edges ↔ e ∈ fresh ∨ (e ∈ edges ∧ e ∉ existing) := by
  induction edges generalizing fresh with
  | nil => simp [freshEdges]
  | cons edge edges ih =>
    rw [freshEdges]
    split
    · next hseen =>
      rw [Bool.or_eq_true, contains_iff_mem, contains_iff_mem] at hseen
      rw [ih, mem_cons]
      constructor
      · rintro (hf | ⟨he, hx⟩)
        · exact Or.inl hf
        · exact Or.inr ⟨Or.inr he, hx⟩
      · rintro (hf | ⟨rfl | he, hx⟩)
        · exact Or.inl hf
        · exact Or.inl (hseen.resolve_left hx)
        · exact Or.inr ⟨he, hx⟩
    · next hunseen =>
      rw [Bool.or_eq_true, contains_iff_mem, contains_iff_mem, not_or] at hunseen
      rw [ih, mem_append, mem_singleton, mem_cons]
      constructor
      · rintro ((hf | rfl) | ⟨he, hx⟩)
        · exact Or.inl hf
        · exact Or.inr ⟨Or.inl rfl, hunseen.1⟩
        · exact Or.inr ⟨Or.inr he, hx⟩
      · rintro (hf | ⟨rfl | he, hx⟩)
        · exact Or.inl (Or.inl hf)
        · exact Or.inl (Or.inr rfl)
        · exact Or.inr ⟨he, hx⟩

theorem mem_edgesOf {b : TaskBoard} {teamName : String} {e : String × String} :
    e ∈ b.edgesOf teamName ↔ ∃ row, b.deps.get? e = some row ∧ row.teamName = teamName := by
  rw [edgesOf, mem_map]
  constructor
  · rintro ⟨⟨k, row⟩, hmem, rfl⟩
    obtain ⟨hentry, hteam⟩ := mem_filter.mp hmem
    exact ⟨row, get?_eq_some_iff.mpr hentry, of_decide_eq_true hteam⟩
  · rintro ⟨row, hrow, hteam⟩
    exact ⟨(e, row), mem_filter.mpr ⟨get?_eq_some_iff.mp hrow, decide_eq_true hteam⟩,
      rfl⟩

theorem checkCycleAndComputeNewEdges_eq_ok {b : TaskBoard} {teamName : String}
    {addEdges newEdges : List (String × String)}
    (h : b.checkCycleAndComputeNewEdges teamName addEdges = .ok newEdges) :
    (∀ e, e ∈ newEdges ↔ e ∈ addEdges ∧ e ∉ b.edgesOf teamName) ∧
      (addEdges ≠ [] →
        Acyclic (fun a d => (a, d) ∈ b.edgesOf teamName ∨ (a, d) ∈ addEdges)) := by
  simp only [checkCycleAndComputeNewEdges] at h
  split at h
  · next hnil =>
    cases h
    simp [hnil]
  · split at h
    · cases h
    · next hcycle =>
      cases h
      have hmem : ∀ e, e ∈ freshEdges (b.edgesOf teamName) [] addEdges ↔
          e ∈ addEdges ∧ e ∉ b.edgesOf teamName := by
        intro e
        rw [mem_freshEdges]
        simp
      refine ⟨hmem, fun _ => ?_⟩
      apply (acyclic_congr _).mp ((detectCycleInAdjacency_eq_none_iff _).mp hcycle)
      intro a d
      rw [Adjacency.mem_deps_ofEdges, mem_append, hmem]
      constructor
      · rintro (he | ⟨he, _⟩)
        · exact Or.inl he
        · exact Or.inr he
      · rintro (he | he)
        · exact Or.inl he
        · by_cases hx : (a, d) ∈ b.edgesOf teamName
          · exact Or.inl hx
          · exact Or.inr ⟨he, hx⟩

theorem insertDependency_eq_some {b b' : TaskBoard} {edge : String × String}
    {row : TaskDependency} (h : b.insertDependency edge row = some b') :
    edge ∉ b.deps.keys ∧ b'.tasks = b.tasks ∧ b'.teams = b.teams ∧
      b'.deps = b.deps.set edge row := by
  unfold insertDependency at h
  split at h
  · next hok =>
    cases h
    exact ⟨hok.1, rfl, rfl, rfl⟩
  · cases h

structure Wired (b : TaskBoard) (teamName : String) (newEdges : List (String × String))
    (wired : TaskBoard) : Prop where
  tasks_eq : wired.tasks = b.tasks
  teams_eq : wired.teams = b.teams
  absent : ∀ e ∈ newEdges, b.deps.get? e = none
  added : ∀ e ∈ newEdges, ∃ row, wired.deps.get? e = some row ∧ row.teamName = teamName ∧
    (row.resolved = true ↔ b.view.Finished e.2)
  kept : ∀ e, e ∉ newEdges → wired.deps.get? e = b.deps.get? e

theorem applyNewEdges_eq_some {teamName : String} {b wired : TaskBoard}
    {newEdges : List (String × String)} (h : applyNewEdges teamName b newEdges = some wired) :
    Wired b teamName newEdges wired := by
  induction newEdges generalizing b with
  | nil =>
    cases h
    exact ⟨rfl, rfl, by simp, by simp, fun _ _ => rfl⟩
  | cons edge edges ih =>
    obtain ⟨b₁, hb₁, hrest⟩ := Option.bind_eq_some_iff.mp h
    obtain ⟨habs, htasks, hteams, hdeps⟩ := insertDependency_eq_some hb₁
    have hw := ih hrest
    have hfin : ∀ d, b₁.view.Finished d ↔ b.view.Finished d := by
      intro d
      simp only [DependencyBoard.Finished, view_status, status?, htasks]
    have hnew : edge ∉ edges := by
      intro hm
      have hno := hw.absent edge hm
      rw [hdeps, get?_set_self] at hno
      cases hno
    refine ⟨hw.tasks_eq.trans htasks, hw.teams_eq.trans hteams, ?_, ?_, ?_⟩
    · intro e he
      rcases mem_cons.mp he with rfl | he
      · exact get?_eq_none_iff.mpr habs
      · have hno := hw.absent e he
        rw [hdeps, get?_set] at hno
        split at hno
        · cases hno
        · exact hno
    · intro e he
      rcases mem_cons.mp he with rfl | he
      · refine ⟨_, by rw [hw.kept _ hnew, hdeps, get?_set_self], rfl, ?_⟩
        cases hs : b.status? e.2 with
        | none => simp [DependencyBoard.Finished, hs]
        | some s => simp [DependencyBoard.Finished, hs, TaskStatus.Terminal]
      · obtain ⟨row, hrow, hteam, hres⟩ := hw.added e he
        exact ⟨row, hrow, hteam, hres.trans (hfin e.2)⟩
    · intro e he
      rw [mem_cons, not_or] at he
      rw [hw.kept e he.2, hdeps, get?_set_of_ne _ _ he.1]

/-- An accepted mutation: the boards between its steps and what the steps checked. -/
structure Mutated (b : TaskBoard) (teamName : String) (newTasks : List NewTaskSpec)
    (addEdges : List (String × String)) (b' : TaskBoard) where
  staged : TaskBoard
  wired : TaskBoard
  newEdges : List (String × String)
  isStaged : Staged b newTasks staged
  isWired : Wired staged teamName newEdges wired
  valid : ∀ e ∈ addEdges,
    (staged.status? e.1 = some .pending ∨ staged.status? e.1 = some .blocked) ∧
      staged.status? e.2 ≠ none
  mem_newEdges : ∀ e, e ∈ newEdges ↔ e ∈ addEdges ∧ e ∉ b.edgesOf teamName
  acyclic : addEdges ≠ [] →
    Acyclic (fun a d => (a, d) ∈ b.edgesOf teamName ∨ (a, d) ∈ addEdges)
  deps_eq : b'.deps = wired.deps
  teams_eq : b'.teams = b.teams
  view_eq : b'.view = wired.view.refresh (fun a =>
    (a ∈ newTasks.map NewTaskSpec.taskId ∨ a ∈ newEdges.map Prod.fst) ∧ a ≠ "")

theorem mutateInSession_eq_ok {b b' : TaskBoard} {teamName : String}
    {newTasks : List NewTaskSpec} {addEdges : List (String × String)} {now : Nat}
    {refreshed : List TaskRow}
    (h : b.mutateInSession teamName newTasks addEdges now = .ok (b', refreshed)) :
    Nonempty (Mutated b teamName newTasks addEdges b') := by
  unfold mutateInSession at h
  cases hst : b.stageNewTasks teamName newTasks now with
  | error failure =>
    rw [hst] at h
    cases h
  | ok staged =>
    have hs := stageNewTasks_eq_ok hst
    cases hval : staged.loadEndpointsAndValidate addEdges with
    | error failure =>
      simp only [hst, hval, bind, Except.bind] at h
      cases h
    | ok u =>
      cases hchk : staged.checkCycleAndComputeNewEdges teamName addEdges with
      | error failure =>
        simp only [hst, hval, hchk, bind, Except.bind] at h
        cases h
      | ok newEdges =>
        simp only [hst, hval, hchk, bind, Except.bind] at h
        cases hap : applyNewEdges teamName staged newEdges with
        | none =>
          rw [hap] at h
          cases h
        | some wired =>
          rw [hap] at h
          obtain ⟨rfl, -⟩ := Prod.ext_iff.mp (Except.ok.inj h)
          have hw := applyNewEdges_eq_some hap
          obtain ⟨hmem, hac⟩ := checkCycleAndComputeNewEdges_eq_ok hchk
          have hedges : staged.edgesOf teamName = b.edgesOf teamName := by
            rw [edgesOf, edgesOf, hs.deps_eq]
          rw [hedges] at hmem hac
          refine ⟨⟨staged, wired, newEdges, hs, hw, loadEndpointsAndValidate_eq_ok hval, hmem,
            hac, rfl, hw.teams_eq.trans hs.teams_eq, ?_⟩⟩
          rw [view_refreshStatusInSession]
          simp only [mem_append]

end TaskBoard

/-!
## What a call does to the board

`Move` lists, once for all invariants, everything a call can do to the dependency board:
keep it, write one status, finish a task, cancel several, mutate the graph, create or
delete a row, or refresh statuses. `move_step` says that there is nothing else.
-/

open Relation

inductive Writes : TaskOp → String → TaskStatus → TaskStatus → Prop
  | start {t m s'} : Writes (.startTask t m s') t .pending s'
  | claim {t m s'} : Writes (.claimTask t m s') t .pending s'
  | reset {t s} (h : s.InFlight) : Writes (.resetTask t) t s .pending
  | submit {t} : Writes (.submitForReview t) t .inProgress .inReview
  | revise {t} : Writes (.reviseTask t) t .inReview .inProgress
  | approve {t s} (h : isValidTransition s .inProgress = true) :
    Writes (.approvePlanTask t) t s .inProgress
  | update {t s s'} (h : isValidTransition s s' = true) (hne : s' ≠ .completed) :
    Writes (.updateTaskStatus t s') t s s'

inductive Finishes : TaskOp → String → TerminalStatus → Prop
  | cancel {t} : Finishes (.cancelTask t) t .cancelled
  | complete {t} : Finishes (.completeTask t) t .completed

def Cancels (b b' : TaskBoard) : Prop :=
  ∃ taskId now, b' = (b.terminateTaskInSession taskId .cancelled now).1

inductive Move (b : TaskBoard) (op : TaskOp) (b' : TaskBoard) : Prop
  | keep (hview : b'.view = b.view)
  | write {t : String} {s s' : TaskStatus} (hs : b.status? t = some s) (hop : Writes op t s s')
    (hview : b'.view = b.view.write t s')
  | completeRow {t : String} {s : TaskStatus} (hs : b.status? t = some s)
    (hvalid : isValidTransition s .completed = true) (hop : op = .updateTaskStatus t .completed)
    (hview : b'.view = (b.view.write t .completed).resolve t)
  | finish {t : String} {n : TerminalStatus} {now : Nat} (hop : Finishes op t n)
    (heq : b' = (b.terminateTaskInSession t n now).1)
  | cancelAll {team : String} {skip : List String} (hop : op = .cancelAllTasks team skip)
    (hruns : ReflTransGen Cancels b b')
  | mutate {team : String} {newTasks specs : List NewTaskSpec} {addEdges : List (String × String)}
    {files : Dict FileAddress String} (hop : op = .mutateDependencyGraph team newTasks addEdges)
    (hspecs : specs.map (fun spec => (spec.taskId, spec.initialStatus)) =
      newTasks.map (fun spec => (spec.taskId, spec.initialStatus)))
    (hmut : Nonempty ((b.withFiles files).Mutated team specs addEdges b'))
  | create {t team title content : String} {s : TaskStatus}
    (hop : op = .createTask t team title content s) (hs : b.status? t = none)
    (hview : b'.view = b.view.write t s)
  | delete {t : String} (hop : op = .deleteTask t) (hview : b'.view = b.view.remove t)
  | sweep {team : String} {S : String → Prop} (hop : op = .verifyAndFixTaskConsistency team)
    (hS : ∀ a, S a → b.status? a = some .blocked) (hview : b'.view = b.view.refresh S)

namespace TaskBoard

private theorem move_updateTaskWhere {b : TaskBoard} {op : TaskOp} {taskId : String}
    {guard : TeamTask → Bool} {f : TeamTask → TeamTask}
    (h : ∀ task, guard task = true → Writes op taskId task.status (f task).status) :
    Move b op (b.updateTaskWhere taskId guard f).1 := by
  rcases b.updateTaskWhere_cases taskId guard f with hno | ⟨task, hget, hg, _, hview⟩
  · rw [hno]
    exact .keep rfl
  · exact .write (by rw [status?, hget]; rfl) (h task hg) hview

theorem view_write_self {b : TaskBoard} {taskId : String} {s : TaskStatus}
    (h : b.status? taskId = some s) : b.view.write taskId s = b.view := by
  apply DependencyBoard.ext
  · funext a
    by_cases ha : a = taskId
    · subst ha
      rw [DependencyBoard.status_write_self, view_status, h]
    · rw [DependencyBoard.status_write_of_ne _ _ ha]
  · rfl

private theorem keep_updateTaskWhere {b : TaskBoard} {op : TaskOp} {taskId : String}
    {guard : TeamTask → Bool} {f : TeamTask → TeamTask}
    (h : ∀ task, (f task).status = task.status) :
    Move b op (b.updateTaskWhere taskId guard f).1 := by
  rcases b.updateTaskWhere_cases taskId guard f with hno | ⟨task, hget, _, _, hview⟩
  · rw [hno]
    exact .keep rfl
  · rw [h, view_write_self (by rw [status?, hget]; rfl)] at hview
    exact .keep hview

theorem spillNewTasks_some {env : DaoEnv} {teamName : String}
    {files files' : Dict FileAddress String} {newTasks specs : List NewTaskSpec}
    (h : spillNewTasks env teamName files newTasks = (files', some specs)) :
    specs.map (fun spec => (spec.taskId, spec.initialStatus)) =
      newTasks.map (fun spec => (spec.taskId, spec.initialStatus)) := by
  induction newTasks generalizing files specs with
  | nil =>
    cases h
    rfl
  | cons spec rest ih =>
    rw [spillNewTasks] at h
    split at h
    · cases h
    · next files₁ content _ =>
      cases hrest : spillNewTasks env teamName files₁ rest with
      | mk files₂ out =>
        rw [hrest] at h
        obtain ⟨rfl, hout⟩ := Prod.ext_iff.mp h
        obtain ⟨specs', rfl, rfl⟩ := Option.map_eq_some_iff.mp hout
        rw [map_cons, map_cons, ih hrest]

private theorem move_mutate (b : TaskBoard) (env : DaoEnv) (teamName : String)
    (newTasks : List NewTaskSpec) (addEdges : List (String × String)) :
    Move b (.mutateDependencyGraph teamName newTasks addEdges)
      (b.mutateDependencyGraph env teamName newTasks addEdges).1 := by
  unfold mutateDependencyGraph
  split
  · exact .keep rfl
  · split
    · exact .keep rfl
    · next files specs hspill =>
      simp only
      split
      · next hok => exact .mutate rfl (spillNewTasks_some hspill) (mutateInSession_eq_ok hok)
      · exact .keep rfl

private theorem move_create (b : TaskBoard) (env : DaoEnv)
    (taskId teamName title content : String) (status : TaskStatus) :
    Move b (.createTask taskId teamName title content status)
      (b.createTask env taskId teamName title content status).1 := by
  unfold createTask
  split
  · exact .keep rfl
  · simp only
    split
    · next hins =>
      obtain ⟨habs, _, _, hview⟩ := insertTask_eq_some hins
      exact .create rfl habs hview
    · exact .keep rfl

private theorem move_updateTask (b : TaskBoard) (env : DaoEnv) (taskId : String)
    (title content : Option String) :
    Move b (.updateTask taskId title content) (b.updateTask env taskId title content).1 := by
  unfold updateTask
  split
  · exact .keep rfl
  · next task hget =>
    have hs : b.status? taskId = some task.status := by rw [status?, hget]; rfl
    split
    · exact .keep rfl
    · split
      · refine .keep ((view_updateRow b hget (fun _ => _)).trans ?_)
        exact view_write_self hs
      · split
        · exact .keep rfl
        · refine .keep ((view_updateRow (b.withFiles _) hget (fun _ => _)).trans ?_)
          exact view_write_self hs

private theorem move_updateTaskStatus (b : TaskBoard) (now : Nat) (taskId : String)
    (status : TaskStatus) :
    Move b (.updateTaskStatus taskId status) (b.updateTaskStatus now taskId status).1 := by
  simp only [updateTaskStatus]
  rcases b.updateTaskWhere_cases taskId
    (fun t => isValidTransition t.status status = true)
    (fun t => { t with status := status, updatedAt := some now }) with
    hno | ⟨task, hget, hg, htrue, hview⟩
  · rw [hno]
    exact .keep rfl
  · have hs : b.status? taskId = some task.status := by rw [status?, hget]; rfl
    by_cases hc : status = .completed
    · subst hc
      rw [if_pos ⟨htrue, rfl⟩]
      refine .completeRow hs (of_decide_eq_true hg) rfl ?_
      rw [view_resolveDependenciesOn, hview]
    · rw [if_neg (fun h => hc h.2)]
      exact .write hs (.update (of_decide_eq_true hg) hc) hview

private theorem cancelOne_board (now : Nat) (acc : CancelAll) (taskId : String) :
    (cancelOne now acc taskId).board =
      (acc.board.terminateTaskInSession taskId .cancelled now).1 := by
  unfold cancelOne
  split
  · next h => rw [h]
  · next h => rw [h]

theorem cancelAllTasks_runs (b : TaskBoard) (now : Nat) (teamName : String)
    (skipAssignees : List String) :
    ReflTransGen Cancels b (b.cancelAllTasks now teamName skipAssignees).1 := by
  have hfold : ∀ (ids : List String) (acc : CancelAll),
      ReflTransGen Cancels acc.board (ids.foldl (cancelOne now) acc).board := by
    intro ids
    induction ids with
    | nil => exact fun acc => .refl
    | cons taskId ids ih =>
      intro acc
      exact ReflTransGen.head ⟨taskId, now, cancelOne_board now acc taskId⟩ (ih _)
  exact hfold (b.cancelCandidates teamName skipAssignees)
    { board := b, cancelled := [], unblocked := Dict.empty }

private theorem move_verify (b : TaskBoard) (now : Nat) (teamName : String) :
    Move b (.verifyAndFixTaskConsistency teamName)
      (b.verifyAndFixTaskConsistency now teamName).1 := by
  refine .sweep rfl ?_ (view_refreshStatusInSession ..)
  rintro a ⟨ha, _⟩
  obtain ⟨⟨id, task⟩, hmem, rfl⟩ := mem_map.mp ha
  obtain ⟨hentry, hp⟩ := mem_filter.mp hmem
  rw [status?, get?_eq_some_iff.mpr hentry]
  exact congrArg some (of_decide_eq_true hp).2

theorem move_step (b : TaskBoard) (call : TaskCall) : Move b call.op (b.step call) := by
  obtain ⟨env, op⟩ := call
  cases op with
  | createTask taskId teamName title content status =>
    exact move_create b env taskId teamName title content status
  | mutateDependencyGraph teamName newTasks addEdges =>
    exact move_mutate b env teamName newTasks addEdges
  | startTask taskId memberName toStatus =>
    apply move_updateTaskWhere
    intro task hg
    rw [(of_decide_eq_true hg).2]
    exact .start
  | claimTask taskId memberName toStatus =>
    apply move_updateTaskWhere
    intro task hg
    rw [(of_decide_eq_true hg).2]
    exact .claim
  | reassignTask taskId fromAssignee toAssignee => exact keep_updateTaskWhere (fun _ => rfl)
  | resetTask taskId =>
    apply move_updateTaskWhere
    intro task hg
    exact .reset (of_decide_eq_true hg).1
  | submitForReview taskId =>
    apply move_updateTaskWhere
    intro task hg
    rw [of_decide_eq_true hg]
    exact .submit
  | reviseTask taskId =>
    apply move_updateTaskWhere
    intro task hg
    rw [of_decide_eq_true hg]
    exact .revise
  | setReviewer taskId reviewer => exact keep_updateTaskWhere (fun _ => rfl)
  | setMaxReviewRounds taskId rounds => exact keep_updateTaskWhere (fun _ => rfl)
  | approvePlanTask taskId =>
    apply move_updateTaskWhere
    intro task hg
    exact .approve (of_decide_eq_true hg)
  | updateTaskStatus taskId status => exact move_updateTaskStatus b env.now taskId status
  | updateTask taskId title content => exact move_updateTask b env taskId title content
  | deleteTask taskId =>
    change Move b _ (b.deleteTask taskId).1
    unfold deleteTask
    split
    · exact .delete rfl (view_deleteTaskRow b taskId)
    · exact .keep rfl
  | cancelTask taskId => exact .finish .cancel rfl
  | cancelAllTasks teamName skipAssignees =>
    exact .cancelAll rfl (cancelAllTasks_runs b env.now teamName skipAssignees)
  | completeTask taskId => exact .finish .complete rfl
  | verifyAndFixTaskConsistency teamName => exact move_verify b env.now teamName

end TaskBoard

end JiuwenSpec.Team

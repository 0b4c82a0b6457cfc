import JiuwenSpec.Team.BoardMoves

/-!
# What a call leaves of a row it is not about

A call that names a task may give it an owner, reviewers, a review round or a status of work
in flight. Every other row keeps its columns, and its status unless the row is refreshed or
finished; rows that appear wait.
-/

namespace JiuwenSpec.Team

open Base Relation

/-- The task whose owner, review columns or status a call writes on purpose. -/
def TaskOp.target : TaskOp → Option String
  | .startTask taskId _ _ => some taskId
  | .claimTask taskId _ _ => some taskId
  | .reassignTask taskId _ _ => some taskId
  | .resetTask taskId => some taskId
  | .submitForReview taskId => some taskId
  | .reviseTask taskId => some taskId
  | .setReviewer taskId _ => some taskId
  | .approvePlanTask taskId => some taskId
  | .updateTaskStatus taskId _ => some taskId
  | _ => none

/-- What the task manager promises of the tasks it creates: none is born in flight. -/
def TaskOp.BornWaiting : TaskOp → Prop
  | .createTask _ _ _ _ status => ¬ status.InFlight
  | .mutateDependencyGraph _ newTasks _ => ∀ spec ∈ newTasks, ¬ spec.initialStatus.InFlight
  | _ => True

/-- The later row keeps owner, review columns and team, and is in flight only with the status
it had. -/
structure Bystander (t t' : TeamTask) : Prop where
  teamName : t'.teamName = t.teamName
  assignee : t'.assignee = t.assignee
  reviewer : t'.reviewer = t.reviewer
  reviewRound : t'.reviewRound = t.reviewRound
  status : t'.status = t.status ∨ ¬ t'.status.InFlight

theorem Bystander.refl (t : TeamTask) : Bystander t t := ⟨rfl, rfl, rfl, rfl, Or.inl rfl⟩

theorem Bystander.trans {t t' t'' : TeamTask} (h : Bystander t t') (h' : Bystander t' t'') :
    Bystander t t'' where
  teamName := h'.teamName.trans h.teamName
  assignee := h'.assignee.trans h.assignee
  reviewer := h'.reviewer.trans h.reviewer
  reviewRound := h'.reviewRound.trans h.reviewRound
  status := by
    cases h'.status with
    | inr hrest => exact Or.inr hrest
    | inl hsame =>
      rw [hsame]
      exact h.status

namespace TaskBoard

/-- Every later row stands by an earlier one. -/
def Keeps (b b' : TaskBoard) : Prop :=
  ∀ id t', b'.tasks.get? id = some t' → ∃ t, b.tasks.get? id = some t ∧ Bystander t t'

theorem Keeps.refl (b : TaskBoard) : b.Keeps b := fun _ t' h => ⟨t', h, Bystander.refl t'⟩

variable {b : TaskBoard}

theorem Keeps.trans {a c : TaskBoard} (h : a.Keeps b) (h' : b.Keeps c) : a.Keeps c := by
  intro id t'' hc
  obtain ⟨t', hb, hlast⟩ := h' id t'' hc
  obtain ⟨t, ha, hfirst⟩ := h id t' hb
  exact ⟨t, ha, hfirst.trans hlast⟩

theorem get?_updateTasks (b : TaskBoard) (f : String → TeamTask → TeamTask) (id : String) :
    (b.updateTasks f).tasks.get? id = (b.tasks.get? id).map (f id) := by
  rw [updateTasks, Dict.get?_mapValues]

theorem keeps_updateTasks (b : TaskBoard) {f : String → TeamTask → TeamTask}
    (h : ∀ id t, Bystander t (f id t)) : b.Keeps (b.updateTasks f) := by
  intro id t' ht'
  rw [get?_updateTasks] at ht'
  obtain ⟨t, ht, rfl⟩ := Option.map_eq_some_iff.mp ht'
  exact ⟨t, ht, h id t⟩

theorem bystander_refreshRow (b : TaskBoard) (now : Nat) (id : String) (t : TeamTask) :
    Bystander t (b.refreshRow now id t) := by
  unfold refreshRow
  dsimp only
  split
  · exact ⟨rfl, rfl, rfl, rfl, Or.inr (show ¬ TaskStatus.InFlight .blocked by decide)⟩
  · split
    · exact ⟨rfl, rfl, rfl, rfl, Or.inr (show ¬ TaskStatus.InFlight .pending by decide)⟩
    · exact Bystander.refl t

theorem keeps_refresh (b : TaskBoard) (taskIds : List String) (now : Nat) :
    b.Keeps (b.refreshStatusInSession taskIds now).1 := by
  apply keeps_updateTasks
  intro id t
  split
  · exact bystander_refreshRow ..
  · exact Bystander.refl t

theorem keeps_terminate (b : TaskBoard) (taskId : String) (n : TerminalStatus) (now : Nat) :
    b.Keeps (b.terminateTaskInSession taskId n now).1 := by
  have hflip : ∀ id t, Bystander t
      (if id = taskId then { t with status := n.toStatus, updatedAt := some now } else t) := by
    intro id t
    split
    · refine ⟨rfl, rfl, rfl, rfl, Or.inr fun hflight => ?_⟩
      exact hflight.not_terminal (TaskStatus.terminal_toStatus n)
    · exact Bystander.refl t
  unfold terminateTaskInSession
  dsimp only
  split
  · exact Keeps.refl b
  · split
    · apply (keeps_updateTasks b hflip).trans
      exact keeps_refresh
        ((b.updateTasks _).resolveDependenciesOn taskId) _ now
    · split
      · exact Keeps.refl b
      · exact Keeps.refl b

theorem keeps_cancels {b' : TaskBoard} (h : ReflTransGen Cancels b b') : b.Keeps b' := by
  induction h with
  | refl => exact Keeps.refl b
  | tail _ hstep ih =>
    obtain ⟨t, now, rfl⟩ := hstep
    exact ih.trans (keeps_terminate _ t .cancelled now)

theorem keeps_deleteTaskRow (b : TaskBoard) (taskId : String) :
    b.Keeps (b.deleteTaskRow taskId) := by
  intro id t' h
  change (b.tasks.erase taskId).get? id = some t' at h
  rw [Dict.get?_erase] at h
  split at h
  · cases h
  · exact ⟨t', h, Bystander.refl t'⟩

theorem keeps_updateTask (b : TaskBoard) (env : DaoEnv) (taskId : String)
    (title content : Option String) : b.Keeps (b.updateTask env taskId title content).1 := by
  have hwrite : ∀ (b' : TaskBoard) task row, b.tasks.get? taskId = some task →
      b'.tasks = b.tasks → Bystander task row →
        b.Keeps (b'.updateTasks fun id t => if id = taskId then row else t) := by
    intro b' task row htask htasks hrow id t' ht'
    rw [get?_updateTasks, htasks] at ht'
    obtain ⟨t, ht, rfl⟩ := Option.map_eq_some_iff.mp ht'
    refine ⟨t, ht, ?_⟩
    split
    · next hid =>
      subst hid
      cases htask.symm.trans ht
      exact hrow
    · exact Bystander.refl t
  unfold updateTask
  split
  · exact Keeps.refl b
  · next task htask =>
    split
    · exact Keeps.refl b
    · split
      · exact hwrite b task _ htask rfl ⟨rfl, rfl, rfl, rfl, Or.inl rfl⟩
      · split
        · exact Keeps.refl b
        · exact hwrite (b.withFiles _) task _ htask rfl ⟨rfl, rfl, rfl, rfl, Or.inl rfl⟩

theorem rows_insertTask {b' : TaskBoard} {taskId : String} {task : TeamTask}
    (h : b.insertTask taskId task = some b') {id : String} {t' : TeamTask}
    (ht' : b'.tasks.get? id = some t') :
    b.tasks.get? id = some t' ∨ (b.tasks.get? id = none ∧ id = taskId ∧ t' = task) := by
  unfold insertTask at h
  split at h
  · cases h
  · next hok =>
    cases h
    change (b.tasks.set taskId task).get? id = some t' at ht'
    rw [Dict.get?_set] at ht'
    split at ht'
    · next hid =>
      subst hid
      cases ht'
      rw [not_or] at hok
      exact Or.inr ⟨Dict.get?_eq_none_iff.mpr hok.1, rfl, rfl⟩
    · exact Or.inl ht'

theorem rows_insertTasks {teamName : String} {now : Nat} {staged : TaskBoard}
    {newTasks : List NewTaskSpec} (h : insertTasks teamName now b newTasks = some staged)
    {id : String} {t' : TeamTask} (ht' : staged.tasks.get? id = some t') :
    b.tasks.get? id = some t' ∨
      (b.tasks.get? id = none ∧ ∃ spec ∈ newTasks, t' = newRow teamName now spec) := by
  induction newTasks generalizing b with
  | nil =>
    cases h
    exact Or.inl ht'
  | cons spec specs ih =>
    obtain ⟨b₁, hinsert, hrest⟩ := Option.bind_eq_some_iff.mp h
    cases ih hrest with
    | inl hold =>
      cases rows_insertTask hinsert hold with
      | inl hbefore => exact Or.inl hbefore
      | inr hnew => exact Or.inr ⟨hnew.1, spec, by simp, hnew.2.2⟩
    | inr hnew =>
      obtain ⟨hnone, other, hother, hrow⟩ := hnew
      refine Or.inr ⟨?_, other, .tail _ hother, hrow⟩
      cases hbefore : b.tasks.get? id with
      | none => rfl
      | some t =>
        exfalso
        have hkept : b₁.status? id ≠ none := by
          have hview := (insertTask_eq_some hinsert).2.2.2
          rw [← view_status, hview]
          by_cases hid : id = spec.taskId
          · rw [hid, DependencyBoard.status_write_self]
            simp
          · rw [DependencyBoard.status_write_of_ne _ _ hid, view_status, status?, hbefore]
            simp
        rw [status?, hnone] at hkept
        exact hkept rfl

theorem stageNewTasks_inserts {staged : TaskBoard} {teamName : String}
    {newTasks : List NewTaskSpec} {now : Nat}
    (h : b.stageNewTasks teamName newTasks now = .ok staged) :
    insertTasks teamName now b newTasks = some staged := by
  simp only [stageNewTasks] at h
  split at h
  · cases h
  · split at h
    · cases h
    · split at h
      · next hins =>
        cases h
        exact hins
      · cases h

theorem rows_mutateInSession {b' : TaskBoard} {teamName : String} {newTasks : List NewTaskSpec}
    {addEdges : List (String × String)} {now : Nat} {refreshed : List TaskRow}
    (h : b.mutateInSession teamName newTasks addEdges now = .ok (b', refreshed))
    {id : String} {t' : TeamTask} (ht' : b'.tasks.get? id = some t') :
    (∃ t, b.tasks.get? id = some t ∧ Bystander t t') ∨
      (b.tasks.get? id = none ∧ ∃ spec ∈ newTasks, Bystander (newRow teamName now spec) t') := by
  unfold mutateInSession at h
  cases hst : b.stageNewTasks teamName newTasks now with
  | error failure => simp [hst, bind, Except.bind] at h
  | ok staged =>
    cases hval : staged.loadEndpointsAndValidate addEdges with
    | error failure => simp [hst, hval, bind, Except.bind] at h
    | ok u =>
      cases hchk : staged.checkCycleAndComputeNewEdges teamName addEdges with
      | error failure => simp [hst, hval, hchk, bind, Except.bind] at h
      | ok newEdges =>
        simp only [hst, hval, hchk, bind, Except.bind] at h
        cases hap : applyNewEdges teamName staged newEdges with
        | none => simp [hap] at h
        | some wired =>
          rw [hap] at h
          obtain ⟨rfl, -⟩ := Prod.ext_iff.mp (Except.ok.inj h)
          obtain ⟨t, ht, hby⟩ := keeps_refresh wired _ now id t' ht'
          rw [(applyNewEdges_eq_some hap).tasks_eq] at ht
          cases rows_insertTasks (stageNewTasks_inserts hst) ht with
          | inl hold => exact Or.inl ⟨t, hold, hby⟩
          | inr hnew =>
            obtain ⟨hnone, spec, hspec, rfl⟩ := hnew
            exact Or.inr ⟨hnone, spec, hspec, hby⟩

theorem get?_updateTaskWhere (b : TaskBoard) (taskId : String) (guard : TeamTask → Bool)
    (f : TeamTask → TeamTask) (id : String) :
    (b.updateTaskWhere taskId guard f).1.tasks.get? id =
      (b.tasks.get? id).map fun t => if id = taskId ∧ guard t = true then f t else t := by
  unfold updateTaskWhere
  by_cases hid : id = taskId
  · subst hid
    cases hget : b.tasks.get? id with
    | none => simp [hget]
    | some task =>
      by_cases hguard : guard task = true
      · simp [hguard, get?_updateTasks, hget]
      · simp [hguard, hget]
  · have hsame : ∀ t : TeamTask, (if id = taskId ∧ guard t = true then f t else t) = t :=
      fun t => if_neg fun h => hid h.1
    simp only [hsame, Option.map_id']
    split
    · split
      · simp [get?_updateTasks, hid]
      · rfl
    · rfl

theorem get?_updateTaskWhere_of_ne (b : TaskBoard) {taskId id : String} (h : id ≠ taskId)
    (guard : TeamTask → Bool) (f : TeamTask → TeamTask) :
    (b.updateTaskWhere taskId guard f).1.tasks.get? id = b.tasks.get? id := by
  rw [get?_updateTaskWhere]
  simp [h]

theorem tasks_updateTaskStatus (b : TaskBoard) (now : Nat) (taskId : String)
    (status : TaskStatus) :
    (b.updateTaskStatus now taskId status).1.tasks =
      (b.updateTaskWhere taskId (fun t => isValidTransition t.status status = true)
        (fun t => { t with status := status, updatedAt := some now })).1.tasks := by
  unfold updateTaskStatus
  dsimp only
  split <;> rfl

theorem row_step (b : TaskBoard) (call : TaskCall) {id : String} {t' : TeamTask}
    (htarget : call.op.target ≠ some id) (ht' : (b.step call).tasks.get? id = some t') :
    (∃ t, b.tasks.get? id = some t ∧ Bystander t t') ∨
      (b.tasks.get? id = none ∧ (call.op.BornWaiting → ¬ t'.status.InFlight)) := by
  obtain ⟨env, op⟩ := call
  have hother : ∀ {taskId guard f}, some taskId ≠ some id →
      (b.updateTaskWhere taskId guard f).1.tasks.get? id = some t' →
        (∃ t, b.tasks.get? id = some t ∧ Bystander t t') := by
    intro taskId guard f hne hrow
    rw [get?_updateTaskWhere_of_ne b (fun h => hne (congrArg some h.symm))] at hrow
    exact ⟨t', hrow, Bystander.refl t'⟩
  cases op with
  | createTask taskId teamName title content status =>
    change (b.createTask env taskId teamName title content status).1.tasks.get? id = some t' at ht'
    unfold createTask at ht'
    split at ht'
    · exact Or.inl ⟨t', ht', Bystander.refl t'⟩
    · dsimp only at ht'
      split at ht'
      · next hinsert =>
        cases rows_insertTask hinsert ht' with
        | inl hold => exact Or.inl ⟨t', hold, Bystander.refl t'⟩
        | inr hnew =>
          refine Or.inr ⟨hnew.1, fun hborn => ?_⟩
          rw [hnew.2.2]
          exact hborn
      · exact Or.inl ⟨t', ht', Bystander.refl t'⟩
  | mutateDependencyGraph teamName newTasks addEdges =>
    change (b.mutateDependencyGraph env teamName newTasks addEdges).1.tasks.get? id = some t' at ht'
    unfold mutateDependencyGraph at ht'
    split at ht'
    · exact Or.inl ⟨t', ht', Bystander.refl t'⟩
    · split at ht'
      · exact Or.inl ⟨t', ht', Bystander.refl t'⟩
      · next hspill =>
        dsimp only at ht'
        split at ht'
        · next hok =>
          cases rows_mutateInSession hok ht' with
          | inl hold => exact Or.inl hold
          | inr hnew =>
            obtain ⟨hnone, spec, hspec, hby⟩ := hnew
            refine Or.inr ⟨hnone, fun hborn hflight => ?_⟩
            have hmem : (spec.taskId, spec.initialStatus) ∈
                newTasks.map fun s => (s.taskId, s.initialStatus) := by
              rw [← spillNewTasks_some hspill]
              exact List.mem_map_of_mem hspec
            obtain ⟨seed, hseed, hsame⟩ := List.mem_map.mp hmem
            have hstatus : seed.initialStatus = spec.initialStatus := congrArg Prod.snd hsame
            cases hby.status with
            | inl hkept =>
              rw [hkept] at hflight
              exact hborn seed hseed (hstatus ▸ hflight)
            | inr hrest => exact hrest hflight
        · exact Or.inl ⟨t', ht', Bystander.refl t'⟩
  | startTask taskId memberName toStatus => exact Or.inl (hother htarget ht')
  | claimTask taskId memberName toStatus => exact Or.inl (hother htarget ht')
  | reassignTask taskId fromAssignee toAssignee => exact Or.inl (hother htarget ht')
  | resetTask taskId => exact Or.inl (hother htarget ht')
  | submitForReview taskId => exact Or.inl (hother htarget ht')
  | reviseTask taskId => exact Or.inl (hother htarget ht')
  | setReviewer taskId reviewer => exact Or.inl (hother htarget ht')
  | approvePlanTask taskId => exact Or.inl (hother htarget ht')
  | updateTaskStatus taskId status =>
    change (b.updateTaskStatus env.now taskId status).1.tasks.get? id = some t' at ht'
    rw [tasks_updateTaskStatus] at ht'
    exact Or.inl (hother htarget ht')
  | setMaxReviewRounds taskId rounds =>
    change (b.updateTaskWhere _ _ _).1.tasks.get? id = some t' at ht'
    rw [get?_updateTaskWhere] at ht'
    obtain ⟨t, ht, rfl⟩ := Option.map_eq_some_iff.mp ht'
    refine Or.inl ⟨t, ht, ?_⟩
    split
    · exact ⟨rfl, rfl, rfl, rfl, Or.inl rfl⟩
    · exact Bystander.refl t
  | updateTask taskId title content =>
    exact Or.inl (keeps_updateTask b env taskId title content id t' ht')
  | deleteTask taskId =>
    change (b.deleteTask taskId).1.tasks.get? id = some t' at ht'
    unfold deleteTask at ht'
    split at ht'
    · exact Or.inl (keeps_deleteTaskRow b taskId id t' ht')
    · exact Or.inl ⟨t', ht', Bystander.refl t'⟩
  | cancelTask taskId => exact Or.inl (keeps_terminate b taskId .cancelled env.now id t' ht')
  | completeTask taskId => exact Or.inl (keeps_terminate b taskId .completed env.now id t' ht')
  | cancelAllTasks teamName skipAssignees =>
    exact Or.inl (keeps_cancels (cancelAllTasks_runs b env.now teamName skipAssignees) id t' ht')
  | verifyAndFixTaskConsistency teamName =>
    exact Or.inl (keeps_refresh b _ env.now id t' ht')

end TaskBoard

end JiuwenSpec.Team

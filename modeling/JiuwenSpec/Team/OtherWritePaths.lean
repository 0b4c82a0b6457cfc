import JiuwenSpec.Team.BoardProgress

/-!
# The task board's other write paths

`update_task_status` and `delete_task` change the statuses and dependencies that
`complete_task` and `cancel_task` change. A plain status write agrees with the termination
exactly when the termination's cascade would have had nothing to do, and a deletion strands
no task exactly when every blocked task waits for something else too.
Source: `agent_teams/tools/database/task_dao.py`.
-/

namespace JiuwenSpec.Team

open Base

namespace DependencyBoard

variable {α : Type*}

/-- The status of a task fits its dependencies: BLOCKED waits and PENDING does not. -/
def Fits (v : DependencyBoard α) (a : α) : Prop :=
  (v.status a = some .blocked → v.Waits a) ∧ (v.status a = some .pending → ¬ v.Waits a)

/-- The same, leaving the dependency on `t` out of account. -/
def FitsBeside (v : DependencyBoard α) (t a : α) : Prop :=
  (v.status a = some .blocked → ∃ d, d ≠ t ∧ v.edge a d = some false) ∧
    (v.status a = some .pending → ¬ ∃ d, d ≠ t ∧ v.edge a d = some false)

theorem map_settle_eq_iff (v : DependencyBoard α) (a : α) :
    (v.status a).map (settle (v.Waits a)) = v.status a ↔ v.Fits a := by
  cases hs : v.status a with
  | none => simp [Fits, hs]
  | some s =>
    rw [Option.map_some, Option.some.injEq]
    rcases settle_cases (v.Waits a) s with ⟨rfl | rfl, ⟨hw, he⟩ | ⟨hw, he⟩⟩ | ⟨hne, he⟩
    · rw [he]
      simp [Fits, hs, hw]
    · rw [he]
      simp [Fits, hs, hw]
    · rw [he]
      simp [Fits, hs, hw]
    · rw [he]
      simp [Fits, hs, hw]
    · rw [not_or] at hne
      simp [Fits, hs, he, hne.1, hne.2]

variable [DecidableEq α]

theorem waits_resolve_iff (v : DependencyBoard α) (t a : α) :
    (v.resolve t).Waits a ↔ ∃ d, d ≠ t ∧ v.edge a d = some false := by
  constructor
  · rintro ⟨d, hd⟩
    rcases (edge_resolve v t a d false).mp hd with ⟨_, hr, _⟩ | h
    · cases hr
    · exact ⟨d, h⟩
  · rintro ⟨d, h⟩
    exact ⟨d, (edge_resolve v t a d false).mpr (Or.inr h)⟩

theorem fits_finished_iff (v : DependencyBoard α) {t a : α} (s : TaskStatus) (h : a ≠ t) :
    ((v.write t s).resolve t).Fits a ↔ v.FitsBeside t a := by
  rw [Fits, FitsBeside, waits_resolve_iff, status_resolve, status_write_of_ne v s h, edge_write]

theorem fits_finished_self (v : DependencyBoard α) (t : α) {s : TaskStatus} (h : s.Terminal) :
    ((v.write t s).resolve t).Fits t := by
  rw [Fits, status_resolve, status_write_self]
  refine ⟨fun hs => ?_, fun hs => ?_⟩
  · cases hs
    exact absurd h (by decide)
  · cases hs
    exact absurd h (by decide)

theorem remove_waits_iff (v : DependencyBoard α) (t : α) :
    (∀ a, (v.remove t).status a = some .blocked → (v.remove t).Waits a) ↔ v.WaitsBeside t := by
  have hstatus : ∀ a, a ≠ t → (v.remove t).status a = v.status a := fun a ha => if_neg ha
  have hedge : ∀ a d, a ≠ t → d ≠ t → (v.remove t).edge a d = v.edge a d :=
    fun a d ha hd => if_neg (not_or.mpr ⟨ha, hd⟩)
  constructor
  · intro h a ha hs
    obtain ⟨d, hd⟩ := h a (by rw [hstatus a ha, hs])
    have hdt : d ≠ t := by
      rintro rfl
      have hnone : (v.remove d).edge a d = none := if_pos (Or.inr rfl)
      rw [hnone] at hd
      cases hd
    exact ⟨d, hdt, (hedge a d ha hdt) ▸ hd⟩
  · intro h a hs
    have ha : a ≠ t := by
      rintro rfl
      have hnone : (v.remove a).status a = none := if_pos rfl
      rw [hnone] at hs
      cases hs
    obtain ⟨d, hdt, hd⟩ := h a ha ((hstatus a ha) ▸ hs)
    exact ⟨d, (hedge a d ha hdt).trans hd⟩

end DependencyBoard

namespace TaskBoard

private theorem mapValues_eq_self {κ ν : Type*} [DecidableEq κ] (d : Dict κ ν) {f : κ → ν → ν}
    (h : ∀ k v, d.get? k = some v → f k v = v) : d.mapValues f = d := by
  apply Dict.ext
  change d.entries.map (fun e => (e.1, f e.1 e.2)) = d.entries
  rw [List.map_congr_left (g := id), List.map_id]
  intro e he
  rw [h e.1 e.2 (Dict.get?_eq_some_iff.mpr he)]
  rfl

private theorem eq_of_tables {b b' : TaskBoard} (hteams : b.teams = b'.teams)
    (htasks : b.tasks = b'.tasks) (hdeps : b.deps = b'.deps) (hfiles : b.files = b'.files) :
    b = b' := by
  cases b
  cases b'
  subst hteams htasks hdeps hfiles
  rfl

theorem refreshStatusInSession_eq_self_iff (b : TaskBoard) (taskIds : List String) (now : Nat) :
    (b.refreshStatusInSession taskIds now).1 = b ↔
      ∀ a ∈ taskIds, a ≠ "" → b.view.Fits a := by
  constructor
  · intro h a ha hne
    rw [← DependencyBoard.map_settle_eq_iff]
    have hview := b.view_refreshStatusInSession taskIds now
    rw [h] at hview
    rw [← DependencyBoard.status_refresh_of_mem b.view
      (S := fun a => a ∈ taskIds ∧ a ≠ "") ⟨ha, hne⟩, ← hview]
  · intro h
    refine eq_of_tables rfl ?_ rfl rfl
    change b.tasks.mapValues (fun tid task =>
      if tid ∈ taskIds.filter (fun tid => tid ≠ "") then b.refreshRow now tid task else task) =
        b.tasks
    apply mapValues_eq_self b.tasks
    intro a task hget
    split
    · next hmem =>
      have hmem' : a ∈ taskIds ∧ a ≠ "" := by simpa using hmem
      have hfit := h a hmem'.1 hmem'.2
      rw [DependencyBoard.Fits, view_status, status?, hget, Option.map_some,
        ← unresolvedCount_pos_iff] at hfit
      unfold refreshRow
      by_cases hp : task.status = .pending
      · have h0 : b.unresolvedCount a = 0 :=
          Nat.eq_zero_of_not_pos (hfit.2 (congrArg some hp))
        simp [hp, h0]
      · by_cases hb : task.status = .blocked
        · have h0 : 0 < b.unresolvedCount a := hfit.1 (congrArg some hb)
          simp [hb, Nat.pos_iff_ne_zero.mp h0]
        · simp [hp, hb]
    · rfl

theorem resolveDependenciesOn_deps_eq_iff (b : TaskBoard) (t : String) :
    (b.resolveDependenciesOn t).deps = b.deps ↔ ∀ a, b.resolved? a t ≠ some false := by
  constructor
  · intro h a hfalse
    have hview : (b.resolveDependenciesOn t).resolved? a t = b.resolved? a t :=
      congrArg (fun deps => (deps.get? (a, t)).map TaskDependency.resolved) h
    have hres := congrArg (fun v => v.edge a t) (b.view_resolveDependenciesOn t)
    have hedge : (b.resolveDependenciesOn t).resolved? a t =
        (b.resolved? a t).map (fun _ => true) := hres.trans (if_pos rfl)
    rw [hview, hfalse] at hedge
    cases hedge
  · intro h
    change b.deps.mapValues (fun e row => if e.2 = t then { row with resolved := true } else row) =
      b.deps
    apply mapValues_eq_self b.deps
    rintro ⟨a, d⟩ row hget
    split
    · next hd =>
      have hd' : d = t := hd
      subst hd'
      have hrow : row.resolved = true := by
        cases hr : row.resolved with
        | true => rfl
        | false => exact absurd (by rw [resolved?, hget, Option.map_some, hr]) (h a)
      rw [← hrow]
    · rfl

/-- Terminating the task would propagate nothing: it is not in a status that may be
terminated, or the dependents' statuses fit without it and, on a cancellation, no dependency
on it is unresolved. -/
def NothingToPropagate (b : TaskBoard) (t : String) (n : TerminalStatus) : Prop :=
  ∀ s, b.status? t = some s → s ∈ terminablePredecessors n →
    (n = .cancelled → ∀ a, b.resolved? a t ≠ some false) ∧
      ∀ a, b.resolved? a t ≠ none → a ≠ "" → a ≠ t → b.view.FitsBeside t a

private theorem refresh_dependents_eq_iff {b resolved : TaskBoard} {t : String} {s : TaskStatus}
    (hs : s.Terminal) (hview : resolved.view = (b.view.write t s).resolve t) (now : Nat) :
    (resolved.refreshStatusInSession (resolved.dependentsOf t) now).1 = resolved ↔
      ∀ a, b.resolved? a t ≠ none → a ≠ "" → a ≠ t → b.view.FitsBeside t a := by
  have hdep : ∀ a, a ∈ resolved.dependentsOf t ↔ b.resolved? a t ≠ none := by
    intro a
    have hedge : resolved.resolved? a t = (b.resolved? a t).map (fun _ => true) :=
      (congrArg (fun v => v.edge a t) hview).trans (if_pos rfl)
    rw [mem_dependentsOf, hedge, Ne, Option.map_eq_none_iff]
  rw [refreshStatusInSession_eq_self_iff, hview]
  constructor
  · intro h a ha hne hat
    exact (b.view.fits_finished_iff s hat).mp (h a ((hdep a).mpr ha) hne)
  · intro h a ha hne
    by_cases hat : a = t
    · subst hat
      exact b.view.fits_finished_self a hs
    · exact (b.view.fits_finished_iff s hat).mpr (h a ((hdep a).mp ha) hne hat)

theorem updateTaskStatus_eq_terminate_iff (b : TaskBoard) (now : Nat) (t : String)
    (n : TerminalStatus) :
    (b.updateTaskStatus now t n.toStatus).1 = (b.terminateTaskInSession t n now).1 ↔
      b.NothingToPropagate t n := by
  cases hget : b.tasks.get? t with
  | none =>
    refine iff_of_true ?_ ?_
    · simp [updateTaskStatus, updateTaskWhere, terminateTaskInSession, hget]
    · intro s hs
      rw [status?, hget] at hs
      cases hs
  | some task =>
    have hstatus : b.status? t = some task.status := by rw [status?, hget, Option.map_some]
    by_cases hp : task.status ∈ terminablePredecessors n
    · have hvalid : isValidTransition task.status n.toStatus = true :=
        terminablePredecessors_transition.mp hp
      have hall : b.NothingToPropagate t n ↔
          (n = .cancelled → ∀ a, b.resolved? a t ≠ some false) ∧
            ∀ a, b.resolved? a t ≠ none → a ≠ "" → a ≠ t → b.view.FitsBeside t a := by
        refine ⟨fun h => h task.status hstatus hp, fun h s hs _ => h⟩
      let flip : TeamTask → TeamTask :=
        fun row => { row with status := n.toStatus, updatedAt := some now }
      let flipped := b.updateTasks (fun id row => if id = t then flip row else row)
      have hview : (flipped.resolveDependenciesOn t).view =
          (b.view.write t n.toStatus).resolve t := by
        rw [view_resolveDependenciesOn, view_updateRow b hget]
      have hrefresh := refresh_dependents_eq_iff (TaskStatus.terminal_toStatus n) hview now
      have hterm : (b.terminateTaskInSession t n now).1 =
          ((flipped.resolveDependenciesOn t).refreshStatusInSession
            ((flipped.resolveDependenciesOn t).dependentsOf t) now).1 := by
        simp only [terminateTaskInSession, hget, hp, if_true]
        rfl
      rw [hall, ← hrefresh, hterm]
      cases n with
      | completed =>
        have hupd : (b.updateTaskStatus now t TerminalStatus.completed.toStatus).1 =
            flipped.resolveDependenciesOn t := by
          simp only [updateTaskStatus, updateTaskWhere, hget, hvalid]
          rfl
        rw [hupd, eq_comm]
        simp [flipped]
      | cancelled =>
        have hupd : (b.updateTaskStatus now t TerminalStatus.cancelled.toStatus).1 = flipped := by
          simp only [updateTaskStatus, updateTaskWhere, hget, hvalid]
          rfl
        have hdeps := flipped.resolveDependenciesOn_deps_eq_iff t
        rw [hupd]
        constructor
        · intro h
          have hd : (flipped.resolveDependenciesOn t).deps = flipped.deps :=
            (congrArg TaskBoard.deps h).symm
          have hsame : flipped.resolveDependenciesOn t = flipped := eq_of_tables rfl rfl hd rfl
          refine ⟨fun _ => hdeps.mp hd, ?_⟩
          exact h.symm.trans hsame.symm
        · rintro ⟨hres, hfits⟩
          have hd := hdeps.mpr (hres rfl)
          have hsame : flipped.resolveDependenciesOn t = flipped := eq_of_tables rfl rfl hd rfl
          exact (hfits.trans hsame).symm
    · refine iff_of_true ?_ ?_
      · have hvalid : isValidTransition task.status n.toStatus ≠ true :=
          fun h => hp (terminablePredecessors_transition.mpr h)
        have hupd : (b.updateTaskStatus now t n.toStatus).1 = b := by
          simp [updateTaskStatus, updateTaskWhere, hget, hvalid]
        rw [hupd]
        simp only [terminateTaskInSession, hget, hp, if_false]
        split <;> rfl
      · intro s hs hmem
        cases hstatus.symm.trans hs
        exact absurd hmem hp

theorem deleteTask_waits_iff (b : TaskBoard) (t : String) :
    (∀ a, (b.deleteTask t).1.status? a = some .blocked → (b.deleteTask t).1.view.Waits a) ↔
      b.view.WaitsBeside t := by
  rw [← DependencyBoard.remove_waits_iff]
  by_cases ht : t ∈ b.tasks.keys
  · have hdel : (b.deleteTask t).1.view = b.view.remove t := by
      rw [deleteTask, if_pos ht]
      exact b.view_deleteTaskRow t
    rw [← hdel]
    exact Iff.rfl
  · have hdel : (b.deleteTask t).1 = b := by rw [deleteTask, if_neg ht]
    have hstatus : b.status? t = none := (b.status?_eq_none_iff t).mpr ht
    have hview : b.view.remove t = b.view := by
      apply DependencyBoard.ext
      · funext a
        change (if a = t then none else b.status? a) = b.status? a
        split
        · next ha => rw [ha, hstatus]
        · rfl
      · funext a d
        change (if a = t ∨ d = t then none else b.resolved? a d) = b.resolved? a d
        split
        · next hor =>
          by_contra hne
          have hends := b.endpoints_of_resolved? (Ne.symm hne)
          rcases hor with rfl | rfl
          · exact hends.1 hstatus
          · exact hends.2 hstatus
        · rfl
    rw [hdel, hview]
    exact Iff.rfl

/-- The status write agrees with completion and with cancellation, and a deletion strands no
task, each exactly under its condition. -/
theorem other_paths_agree_iff (b : TaskBoard) (now : Nat) (t : String) :
    ((b.updateTaskStatus now t .completed).1 = (b.completeTask now t).1 ↔
      b.NothingToPropagate t .completed) ∧
    ((b.updateTaskStatus now t .cancelled).1 = (b.cancelTask now t).1 ↔
      b.NothingToPropagate t .cancelled) ∧
    ((∀ a, (b.deleteTask t).1.status? a = some .blocked → (b.deleteTask t).1.view.Waits a) ↔
      b.view.WaitsBeside t) :=
  ⟨b.updateTaskStatus_eq_terminate_iff now t .completed,
    b.updateTaskStatus_eq_terminate_iff now t .cancelled, b.deleteTask_waits_iff t⟩

end TaskBoard

/-- On two chained tasks the paths disagree: completed by a status write, `a` leaves `b`
blocked; cancelled by one, it leaves the dependency unresolved; deleted, it leaves `b` blocked
with nothing to wait for. -/
theorem other_paths_strand :
    let b := run TaskBoard.step (.empty ["team"]) claimedChain
    (b.updateTaskStatus 1 "a" .completed).1.status? "b" ≠ (b.completeTask 1 "a").1.status? "b" ∧
    (b.updateTaskStatus 1 "a" .cancelled).1.resolved? "b" "a" ≠
      (b.cancelTask 1 "a").1.resolved? "b" "a" ∧
    ¬ ∀ a, (b.deleteTask "a").1.status? a = some .blocked →
      (b.deleteTask "a").1.view.Waits a := by
  refine ⟨by decide, by decide, fun h => ?_⟩
  have hwaits := h "b" (by decide)
  rw [← TaskBoard.unresolvedCount_pos_iff] at hwaits
  exact absurd hwaits (by decide)

end JiuwenSpec.Team

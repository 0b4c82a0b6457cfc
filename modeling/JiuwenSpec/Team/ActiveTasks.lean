import JiuwenSpec.Team.ManagerCalls

/-!
# One active task per member

`get_other_active_task_id` is read before a task is started, claimed, assigned or handed
over, and nothing repeats the check at the write. The rule survives every step whose
write finds the member still idle.
-/

namespace JiuwenSpec.Team

open Base

namespace TaskBoard

def Holds (b : TaskBoard) (teamName memberName taskId : String) : Prop :=
  ∃ t, b.tasks.get? taskId = some t ∧ t.teamName = teamName ∧ t.assignee = some memberName ∧
    t.status.InFlight

def OneActive (b : TaskBoard) : Prop :=
  ∀ teamName memberName taskId taskId', b.Holds teamName memberName taskId →
    b.Holds teamName memberName taskId' → taskId = taskId'

theorem getOtherActiveTaskId_eq_none_iff (b : TaskBoard)
    (teamName memberName excludeTaskId : String) :
    b.getOtherActiveTaskId teamName memberName excludeTaskId = none ↔
      ∀ taskId, b.Holds teamName memberName taskId → taskId = excludeTaskId := by
  unfold getOtherActiveTaskId
  rw [Option.map_eq_none_iff, List.find?_eq_none]
  constructor
  · intro h taskId hholds
    obtain ⟨t, ht, hteam, hassignee, hflight⟩ := hholds
    have hentry := h (taskId, t) (Dict.get?_eq_some_iff.mp ht)
    by_contra hne
    exact hentry (decide_eq_true ⟨hteam, hassignee, hflight, hne⟩)
  · intro h e he hfound
    obtain ⟨hteam, hassignee, hflight, hne⟩ := of_decide_eq_true hfound
    exact hne (h e.1 ⟨e.2, Dict.get?_eq_some_iff.mpr he, hteam, hassignee, hflight⟩)

theorem target_of_holds_step {b : TaskBoard} {call : TaskCall} (hborn : call.op.BornWaiting)
    {teamName memberName taskId : String} (h : (b.step call).Holds teamName memberName taskId)
    (hfresh : ¬ b.Holds teamName memberName taskId) : call.op.target = some taskId := by
  by_contra htarget
  obtain ⟨t', ht', hteam, hassignee, hflight⟩ := h
  cases b.row_step call htarget ht' with
  | inl hold =>
    obtain ⟨t, ht, hby⟩ := hold
    apply hfresh
    refine ⟨t, ht, hby.teamName ▸ hteam, hby.assignee ▸ hassignee, ?_⟩
    rw [← hby.status.resolve_right (not_not.mpr hflight)]
    exact hflight
  | inr hnew => exact hnew.2 hborn hflight

end TaskBoard

namespace TeamState

variable (parse : String → List String)

/-- New tasks are born waiting, and whoever a step makes the holder of an active task is still
idle: read at this point, `get_other_active_task_id` would find no other. -/
def FindsIdle (s : TeamState) (action : ManagerAction) : Prop :=
  (∀ call, s.call? action = some call → call.op.BornWaiting) ∧
    ∀ teamName memberName taskId,
      (s.step parse action).board.Holds teamName memberName taskId →
        ¬ s.board.Holds teamName memberName taskId →
          s.board.getOtherActiveTaskId teamName memberName taskId = none

theorem oneActive_step {s : TeamState} {action : ManagerAction} (h : s.board.OneActive)
    (hidle : s.FindsIdle parse action) : (s.step parse action).board.OneActive := by
  cases s.board_step parse action with
  | inl hboard =>
    rw [hboard]
    exact h
  | inr hcall =>
    obtain ⟨call, hmade, hboard⟩ := hcall
    have hborn := hidle.1 call hmade
    have htarget : ∀ {teamName memberName taskId},
        (s.step parse action).board.Holds teamName memberName taskId →
          ¬ s.board.Holds teamName memberName taskId → call.op.target = some taskId := by
      intro teamName memberName taskId hholds hfresh
      rw [hboard] at hholds
      exact TaskBoard.target_of_holds_step hborn hholds hfresh
    have halone : ∀ {teamName memberName taskId taskId'},
        (s.step parse action).board.Holds teamName memberName taskId →
          ¬ s.board.Holds teamName memberName taskId →
            s.board.Holds teamName memberName taskId' → taskId' = taskId := by
      intro teamName memberName taskId taskId' hholds hfresh hother
      exact (s.board.getOtherActiveTaskId_eq_none_iff teamName memberName taskId).mp
        (hidle.2 teamName memberName taskId hholds hfresh) taskId' hother
    intro teamName memberName taskId taskId' hholds hholds'
    by_cases hold : s.board.Holds teamName memberName taskId
    · by_cases hold' : s.board.Holds teamName memberName taskId'
      · exact h teamName memberName taskId taskId' hold hold'
      · exact halone hholds' hold' hold
    · by_cases hold' : s.board.Holds teamName memberName taskId'
      · exact (halone hholds hold hold').symm
      · exact Option.some.inj ((htarget hholds hold).symm.trans (htarget hholds' hold'))

theorem findsIdle_of_no_call {s : TeamState} {action : ManagerAction}
    (h : s.call? action = none) : s.FindsIdle parse action := by
  constructor
  · intro call hcall
    rw [h] at hcall
    cases hcall
  · intro teamName memberName taskId hholds hfresh
    rw [board_step_of_no_call parse h] at hholds
    exact absurd hholds hfresh

def openBoard : TaskBoard :=
  run TaskBoard.step (.empty ["team"])
    [⟨plainEnv.dao, .createTask "t1" "team" "title" "body" .pending⟩,
      ⟨plainEnv.dao, .createTask "t2" "team" "title" "body" .pending⟩]

theorem openBoard_not_holds (teamName memberName taskId : String) :
    ¬ openBoard.Holds teamName memberName taskId := by
  intro h
  obtain ⟨t, ht, -, -, hflight⟩ := h
  have hpending : ∀ e ∈ openBoard.tasks.entries, ¬ e.2.status.InFlight := by decide
  exact hpending (taskId, t) (Dict.get?_eq_some_iff.mp ht) hflight

end TeamState

end JiuwenSpec.Team

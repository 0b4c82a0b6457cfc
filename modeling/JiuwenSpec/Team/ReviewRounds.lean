import JiuwenSpec.Team.ManagerCalls

/-!
# Verdicts and review rounds

A verdict is decided on a row read in one round and applied by a write that compares the
status only. It meets its round as long as nobody moves the task, between the read and the
write, into a status from which the write would apply.
-/

namespace JiuwenSpec.Team

open Base

/-- The statuses a verdict is applied from: `complete_task` for a pass, `revise_task` for a
fail. -/
def verdictSources (pass : Bool) : List TaskStatus :=
  if pass then terminablePredecessors .completed else [.inReview]

/-- The task a call in flight has read for a verdict, the statuses the verdict could still be
applied from, and the round it was read in. -/
def Stage.pendingVerdict : Stage → Option (String × List TaskStatus × Nat)
  | .reviewTally taskId round => some (taskId, verdictSources true, round)
  | .settleReview taskId round pass => some (taskId, verdictSources pass, round)
  | .verdict taskId round pass => some (taskId, verdictSources pass, round)
  | _ => none

namespace TaskBoard

theorem reviewRound_step (b : TaskBoard) (call : TaskCall) {id : String} {t t' : TeamTask}
    (ht : b.tasks.get? id = some t) (hreview : t.status = .inReview)
    (ht' : (b.step call).tasks.get? id = some t') : t'.reviewRound = t.reviewRound := by
  by_cases htarget : call.op.target = some id
  · obtain ⟨env, op⟩ := call
    have hwhere : ∀ {taskId} {guard : TeamTask → Bool} {f : TeamTask → TeamTask},
        (b.updateTaskWhere taskId guard f).1.tasks.get? id = some t' →
          (guard t = true → (f t).reviewRound = t.reviewRound) →
            t'.reviewRound = t.reviewRound := by
      intro taskId guard f hrow hkeep
      rw [get?_updateTaskWhere, ht, Option.map_some] at hrow
      cases hrow
      split
      · next happlied => exact hkeep happlied.2
      · rfl
    cases op with
    | startTask taskId memberName toStatus => exact hwhere ht' fun _ => rfl
    | claimTask taskId memberName toStatus => exact hwhere ht' fun _ => rfl
    | reassignTask taskId fromAssignee toAssignee => exact hwhere ht' fun _ => rfl
    | resetTask taskId => exact hwhere ht' fun _ => rfl
    | submitForReview taskId =>
      apply hwhere ht'
      intro hguard
      have hprogress : t.status = .inProgress := of_decide_eq_true hguard
      rw [hreview] at hprogress
      cases hprogress
    | reviseTask taskId => exact hwhere ht' fun _ => rfl
    | setReviewer taskId reviewer => exact hwhere ht' fun _ => rfl
    | approvePlanTask taskId => exact hwhere ht' fun _ => rfl
    | updateTaskStatus taskId status =>
      change (b.updateTaskStatus env.now taskId status).1.tasks.get? id = some t' at ht'
      rw [tasks_updateTaskStatus] at ht'
      exact hwhere ht' fun _ => rfl
    | _ => cases htarget
  · cases row_step b call htarget ht' with
    | inl hold =>
      obtain ⟨told, htold, hby⟩ := hold
      cases ht.symm.trans htold
      exact hby.reviewRound
    | inr hnew =>
      rw [ht] at hnew
      cases hnew.1

theorem completeTask_of_not_mem {b : TaskBoard} {now : Nat} {id : String} {t : TeamTask}
    (ht : b.tasks.get? id = some t) (h : t.status ∉ terminablePredecessors .completed) :
    (b.completeTask now id).1 = b := by
  unfold completeTask terminateTaskInSession
  simp only [ht, if_neg h]
  split <;> rfl

theorem reviseTask_of_ne {b : TaskBoard} {now : Nat} {id : String} {t : TeamTask}
    (ht : b.tasks.get? id = some t) (h : t.status ≠ .inReview) :
    (b.reviseTask now id).1 = b := by
  unfold reviseTask updateTaskWhere
  simp [ht, h]

end TaskBoard

namespace TeamState

variable (parse : String → List String)

/-- No step moves a task into a status from which a verdict that was read before would be
applied. -/
def NoReturn (s : TeamState) (action : ManagerAction) : Prop :=
  ∀ stage ∈ s.stages, ∀ taskId sources round,
    stage.pendingVerdict = some (taskId, sources, round) →
      ∀ status ∈ sources, (s.step parse action).board.status? taskId = some status →
        s.board.status? taskId = some status

/-- Where a verdict would be applied, the task is under review in the round it was read in. -/
def VerdictsInRound (s : TeamState) : Prop :=
  ∀ stage ∈ s.stages, ∀ taskId sources round,
    stage.pendingVerdict = some (taskId, sources, round) →
      ∀ t, s.board.tasks.get? taskId = some t → t.status ∈ sources →
        t.status = .inReview ∧ t.reviewRound = round

private theorem pendingVerdict_assigns {stage : Stage} (h : stage.assigns = true) :
    stage.pendingVerdict = none := by
  cases stage with
  | reviewTally => cases h
  | settleReview => cases h
  | verdict => cases h
  | _ => rfl

private theorem pendingVerdict_read {env : ManagerEnv} {b : TaskBoard} {stage next : Stage}
    (h : stage.read parse env b = some next) {taskId : String} {sources : List TaskStatus}
    {round : Nat} (hnext : next.pendingVerdict = some (taskId, sources, round)) :
    (∃ t, b.tasks.get? taskId = some t ∧ t.status = .inReview ∧ t.reviewRound = round) ∨
      ∃ wider, stage.pendingVerdict = some (taskId, wider, round) ∧
        ∀ status ∈ sources, status ∈ wider := by
  cases Stage.leads_of_read h with
  | verify ht hreview =>
    cases hnext
    exact Or.inl ⟨_, ht, hreview, rfl⟩
  | scan ht hreview =>
    cases hnext
    exact Or.inl ⟨_, ht, hreview, rfl⟩
  | @tally _ _ pass =>
    cases hnext
    refine Or.inr ⟨_, rfl, ?_⟩
    cases pass <;> decide
  | settle => exact Or.inr ⟨sources, hnext, fun _ hs => hs⟩
  | holder => cases hnext
  | gated => cases hnext
  | ungated => cases hnext
  | assigns _ hassigns =>
    rw [pendingVerdict_assigns hassigns] at hnext
    cases hnext

private theorem pendingVerdict_entry {stage : Stage} (h : stage.isEntry = true) :
    stage.pendingVerdict = none := by
  cases stage with
  | reviewTally => cases h
  | settleReview => cases h
  | verdict => cases h
  | _ => rfl

theorem verdictsInRound_step {s : TeamState} {action : ManagerAction} (h : s.VerdictsInRound)
    (hreturn : s.NoReturn parse action) : (s.step parse action).VerdictsInRound := by
  -- what held of a pending verdict before the step holds of it afterwards
  have hkept : ∀ stage ∈ s.stages, ∀ taskId sources round,
      stage.pendingVerdict = some (taskId, sources, round) →
        ∀ t', (s.step parse action).board.tasks.get? taskId = some t' → t'.status ∈ sources →
          t'.status = .inReview ∧ t'.reviewRound = round := by
    intro stage hstage taskId sources round hpending t' ht' hsource
    have hstatus := hreturn stage hstage taskId sources round hpending t'.status hsource
      (by rw [TaskBoard.status?, ht', Option.map_some])
    obtain ⟨t, ht, hsame⟩ := Option.map_eq_some_iff.mp hstatus
    have hbefore := h stage hstage taskId sources round hpending t ht (hsame ▸ hsource)
    refine ⟨hsame ▸ hbefore.1, ?_⟩
    cases s.board_step parse action with
    | inl hboard =>
      rw [hboard] at ht'
      cases ht.symm.trans ht'
      exact hbefore.2
    | inr hcall =>
      obtain ⟨call, -, hboard⟩ := hcall
      rw [hboard] at ht'
      exact (s.board.reviewRound_step call ht hbefore.1 ht').trans hbefore.2
  intro stage hstage taskId sources round hpending t' ht' hsource
  cases mem_stages_step parse hstage with
  | inl hold => exact hkept stage hold taskId sources round hpending t' ht' hsource
  | inr hnew =>
    cases hnew with
    | inl hentry =>
      rw [pendingVerdict_entry hentry] at hpending
      cases hpending
    | inr hread =>
      obtain ⟨env, before, hbefore, rfl, hnext⟩ := hread
      cases pendingVerdict_read parse hnext hpending with
      | inl hrow =>
        obtain ⟨t, ht, hreview, hround⟩ := hrow
        rw [board_step_read parse hnext] at ht'
        cases ht.symm.trans ht'
        exact ⟨hreview, hround⟩
      | inr hwider =>
        obtain ⟨wider, hwider, hsub⟩ := hwider
        exact hkept before hbefore taskId wider round hwider t' ht' (hsub _ hsource)

/-- In every run in which no step moves a task into a status that a pending verdict could be
applied from, the write of a verdict moves the task only out of a review of the round the
verdict was read in. -/
theorem verdict_moves_own_round (b : TaskBoard) (actions : List ManagerAction)
    (h : Meets (step parse) (NoReturn parse) ⟨b, []⟩ actions) {s : TeamState}
    (hs : Reached (step parse) ⟨b, []⟩ actions s) (env : ManagerEnv) (taskId : String)
    (round : Nat) (pass : Bool) (hstage : .verdict taskId round pass ∈ s.stages)
    (hmoved : (s.step parse (.advance env (.verdict taskId round pass))).board.status? taskId ≠
      s.board.status? taskId) :
    ∃ t, s.board.tasks.get? taskId = some t ∧ t.status = .inReview ∧ t.reviewRound = round := by
  have hinround : s.VerdictsInRound := by
    apply reached_invariant (fun s action hs hreturn ↦ verdictsInRound_step parse hs hreturn) _ h hs
    intro stage hstage
    cases hstage
  have hboard : (s.step parse (.advance env (.verdict taskId round pass))).board =
      if pass then (s.board.completeTask env.dao.now taskId).1
      else (s.board.reviseTask env.dao.now taskId).1 := by
    show (s.call? _).elim s.board s.board.step = _
    cases pass <;> simp [call?, hstage, Stage.write, TaskBoard.step]
  rw [hboard] at hmoved
  cases ht : s.board.tasks.get? taskId with
  | none =>
    exfalso
    apply hmoved
    cases pass <;> simp [TaskBoard.completeTask, TaskBoard.terminateTaskInSession,
      TaskBoard.reviseTask, TaskBoard.updateTaskWhere, ht]
  | some t =>
    have hsource : t.status ∈ verdictSources pass := by
      by_contra hno
      apply hmoved
      cases pass with
      | true => simp [TaskBoard.completeTask_of_not_mem ht hno]
      | false =>
        have hne : t.status ≠ .inReview := fun heq => hno (heq ▸ List.mem_singleton_self _)
        simp [TaskBoard.reviseTask_of_ne ht hne]
    exact ⟨t, rfl, hinround _ hstage taskId _ round rfl t ht hsource⟩

def parseTwo (raw : String) : List String :=
  if raw = "[\"rev1\", \"rev2\"]" then ["rev1", "rev2"] else []

/-- A task of `author` in its first review, before two reviewers. -/
def reviewBoard : TaskBoard :=
  run TaskBoard.step (.empty ["team"])
    [⟨plainEnv.dao, .createTask "t1" "team" "title" "body" .pending⟩,
      ⟨plainEnv.dao, .claimTask "t1" "author" .inProgress⟩,
      ⟨plainEnv.dao, .setReviewer "t1" (some "[\"rev1\", \"rev2\"]")⟩,
      ⟨plainEnv.dao, .submitForReview "t1"⟩]

/-- One reviewer passes the task in the round it was read in. -/
theorem verdict_moves_first_round :
    ∃ t, reviewBoard.tasks.get? "t1" = some t ∧ t.status = .inReview ∧ t.reviewRound = 1 := by
  apply verdict_moves_own_round parseTwo reviewBoard
    [.begin (.verifyTask "rev1" "t1" true), .advance plainEnv (.verifyTask "rev1" "t1" true)]
    _ ⟨_, List.prefix_rfl, rfl⟩ plainEnv "t1" 1 true (by decide) (by decide)
  refine ⟨fun stage hstage => ?_, fun stage hstage => ?_, True.intro⟩
  · cases hstage
  · obtain rfl := List.mem_singleton.mp hstage
    intro taskId sources round hpending
    cases hpending

/-- Both reviewers read round 1; one fails the task, the author submits it again, and the
other one's pass of round 1 completes it in round 2. -/
theorem stale_verdict_completes_round_two :
    (run (step parseTwo) ⟨reviewBoard, []⟩
      [.begin (.verifyTask "rev1" "t1" true), .advance plainEnv (.verifyTask "rev1" "t1" true),
        .begin (.verifyTask "rev2" "t1" false), .advance plainEnv (.verifyTask "rev2" "t1" false),
        .advance plainEnv (.verdict "t1" 1 false),
        .dao ⟨plainEnv.dao, .submitForReview "t1"⟩,
        .advance plainEnv (.verdict "t1" 1 true)]).board.tasks.get? "t1" =
      some ⟨"team", "title", "body", .completed, some "author",
        some "[\"rev1\", \"rev2\"]", 2, none, some 0⟩ := by
  decide

end TeamState

end JiuwenSpec.Team

/-!
## Completion by the holder

`complete` checks the holder on one read and the reviewers on the next, and completes by a
write that compares the status only. The checks still hold at the write as long as nobody
else takes the work over or puts it under review in between.
-/

namespace JiuwenSpec.Team

open Base

/-- The statuses `complete_task` applies from: the work is in somebody's hands. -/
def TaskStatus.InHand (s : TaskStatus) : Prop := s ∈ terminablePredecessors .completed

instance (s : TaskStatus) : Decidable s.InHand := inferInstanceAs (Decidable (_ ∈ _))

/-- The member and task of a completion past its holder check, and whether it is past its
reviewer check too. -/
def Stage.pendingCompletion : Stage → Option (String × String × Bool)
  | .verifyGate memberName taskId => some (memberName, taskId, false)
  | .completeTask memberName taskId => some (memberName, taskId, true)
  | _ => none

namespace TeamState

variable (parse : String → List String)

def HeldBy (b : TaskBoard) (taskId memberName : String) : Prop :=
  ∀ t, b.tasks.get? taskId = some t → t.status.InHand → t.assignee = some memberName

def Ungated (b : TaskBoard) (taskId : String) : Prop :=
  ∀ t, b.tasks.get? taskId = some t → t.status.InHand → t.reviewers parse = []

/-- A step puts the task into other hands than the member's: afterwards it is in hand under an
assignee who did not have it in hand before. -/
def TakesOver (b b' : TaskBoard) (taskId memberName : String) : Prop :=
  ∃ t', b'.tasks.get? taskId = some t' ∧ t'.status.InHand ∧ t'.assignee ≠ some memberName ∧
    ∀ t, b.tasks.get? taskId = some t → t.status.InHand → t.assignee ≠ t'.assignee

/-- A step puts the task in hand under reviewers it did not have in hand before. -/
def GainsReviewers (b b' : TaskBoard) (taskId : String) : Prop :=
  ∃ t', b'.tasks.get? taskId = some t' ∧ t'.status.InHand ∧ t'.reviewers parse ≠ [] ∧
    ∀ t, b.tasks.get? taskId = some t → t.status.InHand → t.reviewers parse ≠ t'.reviewers parse

/-- No step takes a task over from a member whose completion has checked the holder, and none
puts it under reviewers once the completion has checked these. -/
def LeavesCompletions (s : TeamState) (action : ManagerAction) : Prop :=
  ∀ stage ∈ s.stages, ∀ memberName taskId gated,
    stage.pendingCompletion = some (memberName, taskId, gated) →
      ¬ TakesOver s.board (s.step parse action).board taskId memberName ∧
        (gated = true → ¬ GainsReviewers parse s.board (s.step parse action).board taskId)

def CompletionsChecked (s : TeamState) : Prop :=
  ∀ stage ∈ s.stages, ∀ memberName taskId gated,
    stage.pendingCompletion = some (memberName, taskId, gated) →
      HeldBy s.board taskId memberName ∧ (gated = true → Ungated parse s.board taskId)

theorem heldBy_of_not_takesOver {b b' : TaskBoard} {taskId memberName : String}
    (h : HeldBy b taskId memberName) (hno : ¬ TakesOver b b' taskId memberName) :
    HeldBy b' taskId memberName := by
  intro t' ht' hinhand
  by_contra hother
  apply hno
  refine ⟨t', ht', hinhand, hother, fun t ht hold hsame => ?_⟩
  exact hother (hsame ▸ h t ht hold)

theorem ungated_of_not_gains {b b' : TaskBoard} {taskId : String} (h : Ungated parse b taskId)
    (hno : ¬ GainsReviewers parse b b' taskId) : Ungated parse b' taskId := by
  intro t' ht' hinhand
  by_contra hsome
  apply hno
  refine ⟨t', ht', hinhand, hsome, fun t ht hold hsame => ?_⟩
  exact hsome (hsame ▸ h t ht hold)

private theorem pendingCompletion_assigns {stage : Stage} (h : stage.assigns = true) :
    stage.pendingCompletion = none := by
  cases stage with
  | verifyGate => cases h
  | completeTask => cases h
  | _ => rfl

private theorem pendingCompletion_entry {stage : Stage} (h : stage.isEntry = true) :
    stage.pendingCompletion = none := by
  cases stage with
  | verifyGate => cases h
  | completeTask => cases h
  | _ => rfl

private theorem pendingCompletion_read {env : ManagerEnv} {b : TaskBoard} {stage next : Stage}
    (h : stage.read parse env b = some next) {memberName taskId : String} {gated : Bool}
    (hnext : next.pendingCompletion = some (memberName, taskId, gated)) :
    (HeldBy b taskId memberName ∧ gated = false) ∨
      (stage.pendingCompletion = some (memberName, taskId, false) ∧ Ungated parse b taskId) := by
  cases Stage.leads_of_read h with
  | holder hheld =>
    cases hnext
    exact Or.inl ⟨fun t ht _ => hheld t ht, rfl⟩
  | ungated hopen =>
    cases hnext
    exact Or.inr ⟨rfl, fun t ht _ => hopen t ht⟩
  | assigns _ hassigns =>
    rw [pendingCompletion_assigns hassigns] at hnext
    cases hnext
  | _ => cases hnext

theorem completionsChecked_step {s : TeamState} {action : ManagerAction}
    (h : s.CompletionsChecked parse) (hleaves : s.LeavesCompletions parse action) :
    (s.step parse action).CompletionsChecked parse := by
  have hkept : ∀ stage ∈ s.stages, ∀ memberName taskId gated,
      stage.pendingCompletion = some (memberName, taskId, gated) →
        HeldBy (s.step parse action).board taskId memberName ∧
          (gated = true → Ungated parse (s.step parse action).board taskId) := by
    intro stage hstage memberName taskId gated hpending
    obtain ⟨hheld, hungated⟩ := h stage hstage memberName taskId gated hpending
    obtain ⟨htakes, hgains⟩ := hleaves stage hstage memberName taskId gated hpending
    exact ⟨heldBy_of_not_takesOver hheld htakes,
      fun hgated => ungated_of_not_gains parse (hungated hgated) (hgains hgated)⟩
  intro stage hstage memberName taskId gated hpending
  cases mem_stages_step parse hstage with
  | inl hold => exact hkept stage hold memberName taskId gated hpending
  | inr hnew =>
    cases hnew with
    | inl hentry =>
      rw [pendingCompletion_entry hentry] at hpending
      cases hpending
    | inr hread =>
      obtain ⟨env, before, hbefore, rfl, hnext⟩ := hread
      rw [board_step_read parse hnext]
      cases pendingCompletion_read parse hnext hpending with
      | inl hholder =>
        refine ⟨hholder.1, fun hgated => ?_⟩
        rw [hholder.2] at hgated
        cases hgated
      | inr hgate => exact ⟨(h before hbefore memberName taskId false hgate.1).1, fun _ => hgate.2⟩

theorem leavesCompletions_of_no_call {s : TeamState} {action : ManagerAction}
    (h : s.call? action = none) : s.LeavesCompletions parse action := by
  intro stage _ memberName taskId _ _
  rw [board_step_of_no_call parse h]
  constructor
  · intro htakes
    obtain ⟨t, ht, hinhand, -, hfresh⟩ := htakes
    exact hfresh t ht hinhand rfl
  · intro _ hgains
    obtain ⟨t, ht, hinhand, -, hfresh⟩ := hgains
    exact hfresh t ht hinhand rfl

/-- In every run in which no step takes a task over, or puts it under reviewers, while a
completion of it is past the check, the write of a completion that finishes the task finds the
caller as its assignee and no reviewers. -/
theorem complete_by_ungated_holder (b : TaskBoard) (actions : List ManagerAction)
    (h : Meets (step parse) (LeavesCompletions parse) ⟨b, []⟩ actions) {s : TeamState}
    (hs : Reached (step parse) ⟨b, []⟩ actions s) (env : ManagerEnv) (memberName taskId : String)
    (hstage : .completeTask memberName taskId ∈ s.stages)
    (hmoved : (s.step parse (.advance env (.completeTask memberName taskId))).board.status?
      taskId ≠ s.board.status? taskId) :
    ∃ t, s.board.tasks.get? taskId = some t ∧ t.assignee = some memberName ∧
      t.reviewers parse = [] := by
  have hchecked : s.CompletionsChecked parse := by
    apply reached_invariant
      (fun s action hs hleaves => completionsChecked_step parse hs hleaves) _ h hs
    intro stage hstage
    cases hstage
  obtain ⟨hheld, hungated⟩ := hchecked _ hstage memberName taskId true rfl
  have hboard : (s.step parse (.advance env (.completeTask memberName taskId))).board =
      (s.board.completeTask env.dao.now taskId).1 := by
    show (s.call? _).elim s.board s.board.step = _
    simp [call?, hstage, Stage.write, TaskBoard.step]
  rw [hboard] at hmoved
  cases ht : s.board.tasks.get? taskId with
  | none =>
    exfalso
    apply hmoved
    simp [TaskBoard.completeTask, TaskBoard.terminateTaskInSession, ht]
  | some t =>
    have hinhand : t.status.InHand := by
      by_contra hno
      apply hmoved
      rw [TaskBoard.completeTask_of_not_mem ht hno]
    exact ⟨t, rfl, hheld t ht hinhand, hungated rfl t ht hinhand⟩

/-- A task of `author` in progress, without reviewers. -/
def workBoard : TaskBoard :=
  run TaskBoard.step (.empty ["team"])
    [⟨plainEnv.dao, .createTask "t1" "team" "title" "body" .pending⟩,
      ⟨plainEnv.dao, .claimTask "t1" "author" .inProgress⟩]

/-- The first accesses of a completion by `author`. -/
def completing : List ManagerAction :=
  [.begin (.complete "author" "t1"), .advance plainEnv (.complete "author" "t1"),
    .advance plainEnv (.verifyGate "author" "t1")]

theorem complete_undisturbed :
    ∃ t, workBoard.tasks.get? "t1" = some t ∧ t.assignee = some "author" ∧
      t.reviewers parseTwo = [] := by
  apply complete_by_ungated_holder parseTwo workBoard completing _ ⟨_, List.prefix_rfl, rfl⟩
    plainEnv "author" "t1" (by decide) (by decide)
  refine ⟨leavesCompletions_of_no_call parseTwo rfl, leavesCompletions_of_no_call parseTwo ?_,
    leavesCompletions_of_no_call parseTwo ?_, True.intro⟩
  · decide
  · decide

/-- Between the checks of `author` and the write the task is reset, claimed by `other` and put
under review: `author` completes it all the same. -/
theorem complete_of_other_under_review :
    (run (step parseTwo) ⟨workBoard, []⟩
      (completing ++
        [.dao ⟨plainEnv.dao, .resetTask "t1"⟩,
          .dao ⟨plainEnv.dao, .claimTask "t1" "other" .inProgress⟩,
          .dao ⟨plainEnv.dao, .setReviewer "t1" (some "[\"rev1\", \"rev2\"]")⟩,
          .advance plainEnv (.completeTask "author" "t1")])).board.tasks.get? "t1" =
      some ⟨"team", "title", "body", .completed, some "other",
        some "[\"rev1\", \"rev2\"]", 0, none, some 0⟩ := by
  decide

end TeamState

end JiuwenSpec.Team

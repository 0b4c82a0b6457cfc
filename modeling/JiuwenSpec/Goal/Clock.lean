import JiuwenSpec.Base.Run
import JiuwenSpec.Goal.GoalRecord

/-!
# The clock of a goal

The time a goal has used is counted in segments. A segment is open while the goal is active; one
that is paused while an attempt is under way is left open until the attempt is assessed.
Source: `harness/goal/manager.py`, `harness/goal/schema.py`, `harness/task_loop/event_manager.py`,
`harness/deep_agent.py`.
-/

namespace JiuwenSpec.Goal

open Base

structure GoalWork where
  goalId : Text
  revision : Nat
deriving DecidableEq

/-- The goal of a session with the attempt that is dequeued and the one that runs; the time, and how
long the goal has been active or an attempt of it has been there. -/
structure Timed where
  record : Option GoalRecord
  created : Nat
  dequeued : Option GoalWork
  active : Option GoalWork
  now : Int
  worked : Int

/-- What happens next. Which work is queued is left open. -/
inductive TimedAction where
  | set (sessionId objective : Text) (overwriteConfirmed : Bool)
    (tokenBudget maxAttempts : Option Int)
  | pause
  | resume (origin : Origin)
  | clear
  /-- The supervisor takes a work item, `next_work`. -/
  | dequeue (work : GoalWork)
  /-- `mark_started`. -/
  | start
  /-- The dequeued item is dropped. -/
  | drop
  | begin (goalId : Text) (revision : Nat) (attemptIndex : Option Nat) (origin : Origin)
  | accumulateUsage (goalId : Text) (revision : Nat) (delta : TokenUsage)
    (attemptIndex : Option Nat) (origin : Origin)
  | applyAssessment (goalId : Text) (revision : Nat) (assessment : GoalAssessment)
    (attemptIndex : Nat) (usage : Option TokenUsage) (origin : Origin)
  /-- `mark_finished`: the attempt was settled, cancelled, or rejected at its begin. -/
  | finish
deriving DecidableEq

namespace Timed

def new : Timed := ⟨none, 0, none, none, 0, 0⟩

def hasRunningGoal (s : Timed) (goalId : Text) : Bool :=
  s.dequeued.any (·.goalId = goalId) || s.active.any (·.goalId = goalId)

def working (s : Timed) : Bool :=
  s.record.any fun r => r.status = .active || s.hasRunningGoal r.goalId

def advance (s : Timed) (elapsed : Nat) : Timed :=
  { s with
    now := s.now + elapsed
    worked := if s.working then s.worked + elapsed else s.worked }

def store (s : Timed) (stored : Option GoalRecord) : Timed :=
  match stored with
  | some r => { s with record := some r }
  | none => s

/-- One action, where `newId` gives the ids of new goals. -/
def act (newId : Nat → Text) (s : Timed) : TimedAction → Timed
  | .set sessionId objective overwriteConfirmed tokenBudget maxAttempts =>
    match setRecord s.record (newId s.created) sessionId objective overwriteConfirmed tokenBudget
      maxAttempts s.now with
    | .ok r => { s with record := some r, created := s.created + 1, worked := 0 }
    | .error _ => s
  | .pause => s.store (s.record.bind fun r =>
    some (pauseRecord r (s.hasRunningGoal r.goalId) s.now))
  | .resume origin =>
    s.store (s.record.bind fun r => resumeRecord r (s.hasRunningGoal r.goalId) origin s.now)
  | .clear => { s with record := none }
  | .dequeue work =>
    if s.dequeued = none ∧ s.active = none then { s with dequeued := some work } else s
  | .start =>
    match s.dequeued with
    | some work => { s with dequeued := none, active := some work }
    | none => s
  | .drop => { s with dequeued := none }
  | .begin goalId revision attemptIndex origin =>
    s.store (s.record.bind fun r => beginAttempt r goalId revision attemptIndex origin s.now)
  | .accumulateUsage goalId revision delta attemptIndex origin =>
    s.store (s.record.bind fun r => Goal.accumulateUsage r goalId revision delta attemptIndex origin
      s.now)
  | .applyAssessment goalId revision assessment attemptIndex usage origin =>
    s.store (s.record.bind fun r => Goal.applyAssessment r goalId revision assessment attemptIndex
      usage origin s.now)
  | .finish => { s with active := none }

def step (newId : Nat → Text) (s : Timed) (a : Nat × TimedAction) : Timed :=
  (s.advance a.1).act newId a.2

/-- The clock counts working time only: it is stopped unless the goal is active or an attempt of it
is there, and it shows no more than the time for which that was so. -/
structure CountsWork (s : Timed) : Prop where
  stopped : ∀ r ∈ s.record, r.status ≠ .active → r.activeStartedAt ≠ none →
    s.hasRunningGoal r.goalId = true
  used : ∀ r ∈ s.record, r.timeUsedSeconds * 1000000 ≤ s.worked

/-- No attempt leaves a paused goal with its segment open. -/
def LeavesStopped (newId : Nat → Text) (s : Timed) (a : Nat × TimedAction) : Prop :=
  a.2 = .drop ∨ a.2 = .finish → ∀ r ∈ s.record, r.status = .paused → r.activeStartedAt ≠ none →
    (s.step newId a).hasRunningGoal r.goalId = true

/-- The clock of a record runs while the record is active, and else only while it is paused and an
attempt is there; what it shows, with what has passed since the segment was opened, is no more than
the time worked. -/
structure ClockOk (running : Bool) (now worked : Int) (r : GoalRecord) : Prop where
  ticking : r.status = .active → r.activeStartedAt ≠ none
  stopped : r.activeStartedAt ≠ none → r.status = .active ∨ r.status = .paused ∧ running = true
  used : r.timeUsedSeconds * 1000000 ≤ worked
  segment : ∀ startedAt ∈ r.activeStartedAt,
    startedAt ≤ now ∧ r.timeUsedSeconds * 1000000 + (now - startedAt) ≤ worked

variable {running : Bool} {now worked : Int} {r : GoalRecord}

theorem clockOk_fresh (hticking : r.status = .active → r.activeStartedAt = some now)
    (hstarted : r.activeStartedAt = none ∨ r.activeStartedAt = some now ∧
      (r.status = .active ∨ r.status = .paused ∧ running = true))
    (hused : r.timeUsedSeconds * 1000000 ≤ worked) : ClockOk running now worked r where
  ticking := fun h => by simp [hticking h]
  stopped := fun h => (hstarted.resolve_left h).2
  used := hused
  segment := by
    intro startedAt hmem
    rcases hstarted with hnone | ⟨hsome, -⟩
    · rw [hnone] at hmem
      cases hmem
    · rw [hsome] at hmem
      cases hmem
      exact ⟨Int.le_refl _, by omega⟩

theorem ClockOk.used_settle (h : ClockOk running now worked r) (keepActive : Bool) :
    (r.settleActiveTime keepActive now).timeUsedSeconds * 1000000 ≤ worked := by
  rw [GoalRecord.settleActiveTime]
  cases hstarted : r.activeStartedAt with
  | none => exact h.used
  | some startedAt =>
    obtain ⟨hle, hsegment⟩ := h.segment startedAt hstarted
    have hfloor : (now - startedAt) / 1000000 * 1000000 ≤ now - startedAt :=
      Int.ediv_mul_le _ (by decide)
    have hnonneg : 0 ≤ (now - startedAt) / 1000000 :=
      Int.ediv_nonneg (Int.sub_nonneg_of_le hle) (by decide)
    dsimp only
    rw [Int.max_eq_right hnonneg, Int.add_mul]
    omega

theorem started_settle_false (now : Int) :
    (r.settleActiveTime false now).activeStartedAt = none := by
  rw [GoalRecord.settleActiveTime]
  split <;> rfl

theorem started_settle_true (h : r.activeStartedAt ≠ none) (now : Int) :
    (r.settleActiveTime true now).activeStartedAt = some now := by
  rw [GoalRecord.settleActiveTime]
  split
  · rfl
  · next hnone => exact absurd hnone h

theorem status_settle (keepActive : Bool) (now : Int) :
    (r.settleActiveTime keepActive now).status = r.status := by
  rw [GoalRecord.settleActiveTime]
  split <;> rfl

theorem ClockOk.pause (h : ClockOk running now worked r) :
    ClockOk running now worked (pauseRecord r running now) := by
  unfold pauseRecord
  split
  · refine clockOk_fresh (fun hstatus => by cases hstatus) ?_ ?_
    · cases running with
      | false => exact .inl (started_settle_false now)
      | true =>
        refine .inr ⟨?_, .inr ⟨rfl, rfl⟩⟩
        change some ((r.settleActiveTime false now).activeStartedAt.getD now) = some now
        rw [started_settle_false]
        rfl
    · cases running <;> exact h.used_settle false
  · exact h

variable {origin : Origin} {stored : GoalRecord}

theorem ClockOk.resume (h : ClockOk running now worked r)
    (hstored : resumeRecord r running origin now = some stored) :
    ClockOk running now worked stored := by
  unfold resumeRecord at hstored
  split at hstored
  · split at hstored
    · cases hstored
    · cases hstored
      have hstarted :
          some ((r.settleActiveTime false now).activeStartedAt.getD now) = some now := by
        rw [started_settle_false]
        rfl
      exact clockOk_fresh (fun _ => hstarted) (.inr ⟨hstarted, .inl rfl⟩) (h.used_settle false)
  · cases hstored
    exact h

theorem ClockOk.begin (h : ClockOk running now worked r) {goalId : Text} {revision : Nat}
    {attemptIndex : Option Nat}
    (hstored : beginAttempt r goalId revision attemptIndex origin now = some stored) :
    ClockOk running now worked stored := by
  unfold beginAttempt at hstored
  split at hstored
  · next hguard =>
    cases hstored
    have hstarted : some (r.activeStartedAt.getD now) = r.activeStartedAt := by
      obtain ⟨startedAt, heq⟩ := Option.ne_none_iff_exists'.mp (h.ticking hguard.1.1)
      rw [heq]
      rfl
    exact ⟨fun _ hnone => (by cases hnone), fun _ => .inl hguard.1.1, h.used,
      fun startedAt hmem => h.segment startedAt (hstarted ▸ hmem)⟩
  · cases hstored

theorem ClockOk.accumulateUsage (h : ClockOk running now worked r) {goalId : Text} {revision : Nat}
    {delta : TokenUsage} {attemptIndex : Option Nat}
    (hstored : Goal.accumulateUsage r goalId revision delta attemptIndex origin now = some stored) :
    ClockOk running now worked stored := by
  unfold Goal.accumulateUsage at hstored
  split at hstored
  · cases hstored
    by_cases hopen : r.activeStartedAt.isSome = true
    · rw [if_pos hopen]
      have hne : r.activeStartedAt ≠ none := Option.isSome_iff_ne_none.mp hopen
      refine clockOk_fresh (fun _ => started_settle_true hne now)
        (.inr ⟨started_settle_true hne now, ?_⟩) (h.used_settle true)
      have hstatus : (r.settleActiveTime true now).status = r.status := status_settle true now
      exact hstatus ▸ h.stopped hne
    · rw [if_neg hopen]
      exact ⟨h.ticking, h.stopped, h.used, h.segment⟩
  · cases hstored

theorem ClockOk.assessed (h : ClockOk running now worked r) (assessment : GoalAssessment) :
    ClockOk running now worked (r.assessed assessment now) := by
  unfold GoalRecord.assessed
  split
  · exact clockOk_fresh (fun hstatus => by cases hstatus) (.inl (started_settle_false now))
      (h.used_settle false)
  · exact clockOk_fresh (fun hstatus => by cases hstatus) (.inl (started_settle_false now))
      (h.used_settle false)
  · split
    · next hactive =>
      have hstarted := started_settle_true (h.ticking hactive) now
      exact clockOk_fresh (fun _ => hstarted)
        (.inr ⟨hstarted, .inl ((status_settle true now).trans hactive)⟩) (h.used_settle true)
    · split
      · next hactive _ =>
        exact clockOk_fresh (fun hstatus => absurd ((status_settle false now).symm.trans hstatus)
          hactive) (.inl (started_settle_false now)) (h.used_settle false)
      · exact h

theorem ClockOk.applyAssessment (h : ClockOk running now worked r) {goalId : Text} {revision : Nat}
    {assessment : GoalAssessment} {attemptIndex : Nat} {usage : Option TokenUsage}
    (hstored : Goal.applyAssessment r goalId revision assessment attemptIndex
      usage origin now = some stored) : ClockOk running now worked stored := by
  unfold Goal.applyAssessment at hstored
  split at hstored
  · cases hstored
    have hsame : ClockOk running now worked { r with
        lastAssessedAttempt := attemptIndex
        tokenUsage := usage.elim r.tokenUsage r.tokenUsage.add
        lastAssessment := some assessment } := ⟨h.ticking, h.stopped, h.used, h.segment⟩
    have hassessed := hsame.assessed assessment
    exact ⟨hassessed.ticking, hassessed.stopped, hassessed.used, hassessed.segment⟩
  · cases hstored

variable {s : Timed}

/-- The clock of the goal that is stored is in order, and there is one attempt at most. -/
structure Ok (s : Timed) : Prop where
  clock : ∀ r ∈ s.record, ClockOk (s.hasRunningGoal r.goalId) s.now s.worked r
  one : s.dequeued ≠ none → s.active = none

theorem Ok.countsWork (h : Ok s) : CountsWork s where
  stopped := fun r hr hstatus hopen =>
    ((((h.clock r hr).stopped hopen).resolve_left hstatus)).2
  used := fun r hr => (h.clock r hr).used

theorem Ok.advance (h : Ok s) (elapsed : Nat) : Ok (s.advance elapsed) where
  clock := by
    intro r hr
    have hok := h.clock r hr
    have hworking : s.working = true ↔ r.status = .active ∨ s.hasRunningGoal r.goalId = true := by
      have hrecord : s.record = some r := hr
      rw [working, hrecord, Option.any_some, Bool.or_eq_true, decide_eq_true_iff]
    refine ⟨hok.ticking, hok.stopped, ?_, fun startedAt hmem => ?_⟩
    · have hused := hok.used
      dsimp only [Timed.advance]
      split <;> omega
    · obtain ⟨hle, hsegment⟩ := hok.segment startedAt hmem
      have hopen : r.activeStartedAt ≠ none := fun hnone => by
        rw [hnone] at hmem
        cases hmem
      have hwork : s.working = true := hworking.mpr ((hok.stopped hopen).imp_right And.right)
      dsimp only [Timed.advance]
      rw [if_pos hwork]
      omega
  one := h.one

theorem ClockOk.ofRunning {running' : Bool} (h : ClockOk running now worked r)
    (hrunning : r.status = .paused → r.activeStartedAt ≠ none → running' = true) :
    ClockOk running' now worked r where
  ticking := h.ticking
  stopped := fun hopen => (h.stopped hopen).imp_right fun ⟨hpaused, _⟩ =>
    ⟨hpaused, hrunning hpaused hopen⟩
  used := h.used
  segment := h.segment

theorem ClockOk.attempt (h : ClockOk running now worked r) (hpaused : r.status = .paused)
    (hopen : r.activeStartedAt ≠ none) : running = true :=
  ((h.stopped hopen).resolve_left (by rw [hpaused]; exact fun h => by cases h)).2

theorem Ok.store (h : Ok s) {change : GoalRecord → Option GoalRecord}
    (hchange : ∀ r stored, ClockOk (s.hasRunningGoal r.goalId) s.now s.worked r →
      change r = some stored → stored.goalId = r.goalId ∧
        ClockOk (s.hasRunningGoal r.goalId) s.now s.worked stored) :
    Ok (s.store (s.record.bind change)) := by
  unfold Timed.store
  split
  · next stored hstored =>
    obtain ⟨r, hr, heq⟩ := Option.bind_eq_some_iff.mp hstored
    obtain ⟨hgoal, hok⟩ := hchange r stored (h.clock r hr) heq
    refine ⟨?_, h.one⟩
    rintro _ ⟨⟩
    exact hgoal ▸ hok
  · exact h

theorem pauseRecord_goalId (inFlight : Bool) : (pauseRecord r inFlight now).goalId = r.goalId := by
  rcases pauseRecord_eq r inFlight now with ⟨-, heq⟩ | ⟨-, used, started, heq⟩ <;> rw [heq]

theorem Ok.act (newId : Nat → Text) (h : Ok s) {a : TimedAction}
    (hends : a = .drop ∨ a = .finish → ∀ r ∈ s.record, r.status = .paused →
      r.activeStartedAt ≠ none → (s.act newId a).hasRunningGoal r.goalId = true) :
    Ok (s.act newId a) := by
  cases a with
  | set sessionId objective overwriteConfirmed tokenBudget maxAttempts =>
    simp only [Timed.act]
    split
    · next stored hstored =>
      obtain ⟨-, rfl⟩ := setRecord_eq hstored
      refine ⟨?_, h.one⟩
      rintro _ ⟨⟩
      exact clockOk_fresh (fun _ => rfl) (.inr ⟨rfl, .inl rfl⟩) (Int.le_refl 0)
    · exact h
  | pause =>
    refine h.store fun r stored hok hstored => ?_
    cases hstored
    exact ⟨pauseRecord_goalId _, hok.pause⟩
  | resume origin =>
    refine h.store fun r stored hok hstored => ⟨?_, hok.resume hstored⟩
    rcases resumeRecord_eq hstored with ⟨-, rfl⟩ | ⟨_, _, _, -, rfl⟩ <;> rfl
  | clear => exact ⟨fun r hr => (by cases hr), h.one⟩
  | dequeue work =>
    simp only [Timed.act]
    split
    · next hidle =>
      refine ⟨fun r hr => (h.clock r hr).ofRunning fun hpaused hopen => ?_, fun _ => hidle.2⟩
      have hrunning := (h.clock r hr).attempt hpaused hopen
      rw [hasRunningGoal, hidle.1, hidle.2] at hrunning
      cases hrunning
    · exact h
  | start =>
    simp only [Timed.act]
    split
    · next work hwork =>
      have hidle : s.active = none := h.one (by rw [hwork]; exact fun h => by cases h)
      refine ⟨fun r hr ↦ (h.clock r hr).ofRunning fun hpaused hopen ↦ ?_, fun hne ↦ absurd rfl hne⟩
      have hrunning := (h.clock r hr).attempt hpaused hopen
      rw [hasRunningGoal, hwork, hidle] at hrunning
      simpa [hasRunningGoal] using hrunning
    · exact h
  | drop =>
    exact ⟨fun r hr => (h.clock r hr).ofRunning (hends (.inl rfl) r hr), fun hne => absurd rfl hne⟩
  | begin goalId revision attemptIndex origin =>
    refine h.store fun r stored hok hstored => ⟨?_, hok.begin hstored⟩
    obtain ⟨-, -, started, rfl⟩ := beginAttempt_eq hstored
    rfl
  | accumulateUsage goalId revision delta attemptIndex origin =>
    refine h.store fun r stored hok hstored => ⟨?_, hok.accumulateUsage hstored⟩
    obtain ⟨-, -, used, started, rfl⟩ := accumulateUsage_eq hstored
    rfl
  | applyAssessment goalId revision assessment attemptIndex usage origin =>
    refine h.store fun r stored hok hstored => ⟨?_, hok.applyAssessment hstored⟩
    obtain ⟨-, -, status, reason, used, started, rfl, -⟩ := applyAssessment_eq hstored
    rfl
  | finish =>
    exact ⟨fun r hr => (h.clock r hr).ofRunning (hends (.inr rfl) r hr), fun _ => rfl⟩

theorem ok_new : Ok new := ⟨fun r hr => (by cases hr), fun hne => absurd rfl hne⟩

/-- As long as no attempt leaves a paused goal with its segment open, the clock counts working time
only. -/
theorem clock_counts_work (newId : Nat → Text) (actions : List (Nat × TimedAction))
    (hactions : Meets (step newId) (LeavesStopped newId) new actions) {t : Timed}
    (ht : Reached (step newId) new actions t) : CountsWork t :=
  (reached_invariant (I := Ok) (fun _ a h hleaves => (h.advance a.1).act newId hleaves) ok_new
    hactions ht).countsWork

def assessedWhilePaused : List (Nat × TimedAction) :=
  [(0, .set ['s'] ['g'] false none none), (0, .dequeue ⟨['0'], 0⟩), (0, .start),
    (0, .begin ['0'] 0 none .none), (10000000, .pause),
    (5000000, .applyAssessment ['0'] 0 ⟨.continue, [], none, none⟩ 1 none .none), (0, .finish),
    (90000000, .resume .none)]

theorem leavesStopped_of_ne {newId : Nat → Text} {a : Nat × TimedAction} (hdrop : a.2 ≠ .drop)
    (hfinish : a.2 ≠ .finish) : LeavesStopped newId s a :=
  fun h => (h.elim hdrop hfinish).elim

theorem assessed_attempt_counts :
    CountsWork (run (step fun _ => ['0']) new assessedWhilePaused) := by
  refine clock_counts_work (fun _ => ['0']) assessedWhilePaused ⟨?_, ?_, ?_, ?_, ?_, ?_, ?_, ?_,
    trivial⟩ ⟨_, List.prefix_rfl, rfl⟩
  case refine_7 =>
    rintro - r ⟨⟩ - hopen
    exact absurd rfl hopen
  all_goals exact leavesStopped_of_ne (by decide) (by decide)

/-- The attempt is cancelled after the goal was paused, and the goal is resumed later. -/
def cancelledWhilePaused : List (Nat × TimedAction) :=
  [(0, .set ['s'] ['g'] false none none), (0, .dequeue ⟨['0'], 0⟩), (0, .start),
    (0, .begin ['0'] 0 none .none), (10000000, .pause), (5000000, .finish),
    (90000000, .resume .none)]

/-- The clock goes on while the goal is paused, and the idle time is counted. -/
theorem cancelled_attempt_counts_idle :
    ¬ CountsWork (run (step fun _ => ['0']) new (cancelledWhilePaused.take 6)) ∧
      ¬ CountsWork (run (step fun _ => ['0']) new cancelledWhilePaused) := by
  constructor
  · intro h
    have hrunning := h.stopped _ rfl (by decide) (by decide)
    revert hrunning
    decide
  · intro h
    have hused := h.used _ rfl
    revert hused
    decide

end Timed

end JiuwenSpec.Goal

import JiuwenSpec.Goal.Settlement
import JiuwenSpec.Interaction.Supervisor

/-!
# Wakeups of the supervisor

Whoever leaves work sets the event, but an output that is attached to a supervisor that sleeps for
want of a consumer does not, and what comes while the supervisor is about to sleep over a parked
goal is forgotten. Apart from these a sleeping supervisor has nothing to do.
-/

namespace JiuwenSpec.Interaction

open Base Goal

variable {H : Host}

theorem EventManager.Idle.discardGoalWork {e : EventManager} {resumeOnly : Bool}
    (h : e.Idle resumeOnly) (sessionId goalId : Text) :
    (e.discardGoalWork sessionId goalId).Idle resumeOnly := by
  cases resumeOnly with
  | true => exact (idle_true _).mpr ((idle_true e).mp h)
  | false =>
    refine Idle.of_not_pending ?_ false
    obtain ⟨huser, hgoal⟩ := not_or.mp ((idle_false e).mp h)
    refine not_or.mpr ⟨huser, ?_⟩
    rw [EventManager.discardGoalWork, not_not.mp hgoal]
    exact fun h => h rfl

theorem EventManager.idle_discardAllWork (e : EventManager) (resumeOnly : Bool) :
    e.discardAllWork.Idle resumeOnly :=
  Idle.of_not_pending (not_or.mpr ⟨fun h => h rfl, fun h => h rfl⟩) resumeOnly

namespace LoopState

theorem ensureGoalWork_eq (s : LoopState) (r : GoalRecord) : s.ensureGoalWork r = s ∨
    (r.status = .active ∧ s.HasConsumer) ∧ s.ensureGoalWork r =
      { s with
        events := { s.events with
          goalQueue := s.events.goalQueue ++ [⟨r.goalId, r.revision, r.sessionId⟩] }
        wakeup := true } := by
  rw [ensureGoalWork]
  split
  · next hactive =>
    split
    · next events hpush =>
      rw [EventManager.pushGoal] at hpush
      split at hpush
      · cases hpush
      · obtain ⟨rfl, -⟩ := Prod.mk.inj hpush
        exact .inr ⟨hactive, rfl⟩
    · exact .inl rfl
  · exact .inl rfl

theorem ensureActiveGoalWork_eq (s : LoopState) : s.ensureActiveGoalWork = s ∨
    (s.GoalActive ∧ s.HasConsumer) ∧ ∃ w, s.ensureActiveGoalWork =
      { s with
        events := { s.events with goalQueue := s.events.goalQueue ++ [w] }
        wakeup := true } := by
  rw [ensureActiveGoalWork]
  cases hr : s.goals.record with
  | none => exact .inl rfl
  | some r =>
    rcases s.ensureGoalWork_eq r with heq | ⟨⟨hactive, hconsumer⟩, heq⟩
    · exact .inl heq
    · exact .inr ⟨⟨⟨r, hr, hactive⟩, hconsumer⟩, _, heq⟩

/-- There is nothing to do, and closing the idle output will not find anything either. -/
def Quiet (s : LoopState) : Prop :=
  s.events.Idle s.waiting ∧ (s.waiting = true ∨ ¬ (s.GoalActive ∧ s.HasConsumer))

variable {s : LoopState}

theorem Quiet.parked (hw : s.waiting = true) (h : .interactive ∉ s.events.userQueue) : s.Quiet := by
  refine ⟨?_, .inl hw⟩
  rw [hw]
  exact (EventManager.idle_true _).mpr h

theorem Quiet.notMem (h : s.Quiet) (hw : s.waiting = true) : .interactive ∉ s.events.userQueue := by
  have hidle := h.1
  rw [hw] at hidle
  exact (EventManager.idle_true _).mp hidle

/-- A supervisor that sleeps, or is about to sleep over a parked goal, has nothing to do. -/
structure Awake (s : LoopState) : Prop where
  noConsumer : s.wakeup = false → s.place = .noConsumer → s.HasConsumer → s.events.Idle s.waiting
  idle : s.wakeup = false → s.place = .idle → s.events.Idle s.waiting
  closing : s.place = .closing true → s.Quiet

theorem awake_start (sessionId : Text) : (start sessionId).Awake where
  noConsumer := fun _ h => (by cases h)
  idle := fun _ h => (by cases h)
  closing := fun h => (by cases h)

theorem Awake.of_place (h : s.place = .top ∨ s.place = .running ∨
    s.place = .closing false) : s.Awake where
  noConsumer := fun _ heq => (by rcases h with h | h | h <;> rw [heq] at h <;> cases h)
  idle := fun _ heq => (by rcases h with h | h | h <;> rw [heq] at h <;> cases h)
  closing := fun heq => (by rcases h with h | h | h <;> rw [heq] at h <;> cases h)

theorem Awake.woken {t : LoopState} (hwake : t.wakeup = true)
    (hclosing : t.place = .closing true → t.Quiet) : t.Awake where
  noConsumer := fun h => (by rw [hwake] at h; cases h)
  idle := fun h => (by rw [hwake] at h; cases h)
  closing := hclosing

theorem Awake.frame {t : LoopState} (h : s.Awake) (hplace : t.place = s.place)
    (hwake : t.wakeup = s.wakeup) (hwaiting : t.waiting = s.waiting)
    (hconsumer : t.HasConsumer → s.HasConsumer) (hactive : t.GoalActive → s.GoalActive)
    (hidle : s.events.Idle s.waiting → t.events.Idle s.waiting) : t.Awake where
  noConsumer := fun hw hp hc => by
    rw [hwaiting]
    exact hidle (h.noConsumer (hwake ▸ hw) (hplace ▸ hp) (hconsumer hc))
  idle := fun hw hp => by
    rw [hwaiting]
    exact hidle (h.idle (hwake ▸ hw) (hplace ▸ hp))
  closing := fun hp => by
    obtain ⟨hi, hq⟩ := h.closing (hplace ▸ hp)
    rw [Quiet, hwaiting]
    exact ⟨hidle hi, hq.imp_right fun hn hac => hn ⟨hactive hac.1, hconsumer hac.2⟩⟩

theorem Awake.ensureGoalWork (h : s.Awake) (r : GoalRecord)
    (hwindow : s.place = .closing true → s.waiting = true) : (s.ensureGoalWork r).Awake := by
  rcases s.ensureGoalWork_eq r with heq | ⟨-, heq⟩
  · rw [heq]
    exact h
  · rw [heq]
    refine .woken rfl fun hp => ?_
    exact .parked (hwindow hp) ((h.closing hp).notMem (hwindow hp))

theorem Awake.ensureActiveGoalWork (h : s.Awake)
    (hwindow : s.place = .closing true → s.waiting = true) : s.ensureActiveGoalWork.Awake := by
  rw [LoopState.ensureActiveGoalWork]
  cases s.goals.record with
  | none => exact h
  | some r => exact h.ensureGoalWork r hwindow

/-- What may come while the supervisor, having found no answer for a parked goal, is about to
sleep: no answer, no cancellation of the parked round while there is other work to do, and nothing
that leaves work once the round is not parked any more. -/
def WindowSafe (s : LoopState) : Action → Prop
  | .sendInput query _ => s.waiting = true ∧ query ≠ .interactive
  | .cancelRound =>
    s.waiting = true → ¬ s.events.HasPendingWork ∧ ¬ (s.GoalActive ∧ s.HasConsumer)
  | .attachOutput => s.waiting = true
  | .setGoal _ _ _ _ _ => s.waiting = true
  | .resumeGoal _ _ => s.waiting = true
  | .applyFinish _ _ _ => s.waiting = true
  | _ => True

/-- An output is not attached to a supervisor that sleeps for want of a consumer while there is
work, unless the goal is active; and what comes while the supervisor is about to sleep over a parked
goal leaves it nothing to do. -/
def Heard (s : LoopState) (a : Action) : Prop :=
  (a = .attachOutput → s.place = .noConsumer → s.wakeup = false → ¬ s.HasConsumer →
    s.GoalActive ∨ s.events.Idle s.waiting) ∧
  (s.place = .closing true → s.WindowSafe a)

theorem awake_sendInput (h : s.Awake) {query : Query} {steer : Bool}
    (hwindow : s.place = .closing true → s.waiting = true ∧ query ≠ .interactive) :
    (s.sendInput query steer).Awake := by
  rw [sendInput.eq_def]
  cases query with
  | interactive =>
    refine .woken rfl fun hp => ?_
    exact absurd rfl (hwindow hp).2
  | text text =>
    dsimp only
    split
    · exact .woken rfl fun hp => h.closing hp
    · refine .woken rfl fun hp => ?_
      -- A parked round keeps the interaction open.
      have hplace : s.place = .closing true := by
        rw [← hp]
        split
        · rfl
        · rcases s.ensureActiveGoalWork_eq with heq | ⟨-, w, heq⟩ <;>
            simp only [heq, notifyWork]
      obtain ⟨hw, -⟩ := hwindow hplace
      have hsome : s.round.isSome := by
        rw [waiting] at hw
        cases hr : s.round with
        | none =>
          rw [hr] at hw
          cases hw
        | some round => rfl
      rw [if_pos (.inr hsome)]
      refine .parked hw fun hmem => ?_
      rcases List.mem_append.mp hmem with hmem | hmem
      · exact (h.closing hplace).notMem hw hmem
      · cases List.mem_singleton.mp hmem

theorem awake_attachOutput (h : s.Awake)
    (hasleep : s.place = .noConsumer → s.wakeup = false → ¬ s.HasConsumer →
      s.GoalActive ∨ s.events.Idle s.waiting)
    (hwindow : s.place = .closing true → s.waiting = true) : s.attachOutput.Awake := by
  rw [attachOutput]
  by_cases hconsumer : s.HasConsumer
  · rw [if_pos hconsumer]
    split
    · have := h.ensureActiveGoalWork hwindow
      exact .woken rfl this.closing
    · exact h
  · rw [if_neg hconsumer]
    split
    · next hactive =>
      refine .woken rfl fun hp => ?_
      set t : LoopState := { s with output := .attached } with ht
      have hplace : t.ensureActiveGoalWork.place = s.place := by
        rcases t.ensureActiveGoalWork_eq with heq | ⟨-, w, heq⟩ <;> rw [heq]
      have hp' : s.place = .closing true := hplace.symm.trans hp
      have hw := hwindow hp'
      have hnot := (h.closing hp').notMem hw
      rcases t.ensureActiveGoalWork_eq with heq | ⟨-, w, heq⟩
      · rw [heq]
        exact .parked hw hnot
      · rw [heq]
        exact .parked hw hnot
    · next hinactive =>
      have hinactive' : ¬ s.GoalActive := hinactive
      exact {
        noConsumer := fun hwake hp _ =>
          (hasleep hp hwake hconsumer).resolve_left hinactive'
        idle := h.idle
        closing := fun hp => ⟨(h.closing hp).1, .inr fun hac => hinactive' hac.1⟩ }

theorem awake_cancelRound (h : s.Awake) (hwindow : s.place = .closing true → s.waiting = true →
      ¬ s.events.HasPendingWork ∧ ¬ (s.GoalActive ∧ s.HasConsumer)) : s.cancelRound.Awake := by
  rw [cancelRound]
  split
  · next hw =>
    refine .woken rfl fun hp => ?_
    obtain ⟨hpending, hactive⟩ := hwindow hp hw
    have hpending' : ¬ s.events.markFinished.HasPendingWork := hpending
    have hidle : s.events.markFinished.Idle false := .of_not_pending hpending' false
    exact ⟨hidle, .inr hactive⟩
  · exact h

theorem goalActive_step {a : GoalAction}
    (ha : ∀ r ∈ (Goal.step H s.goals a).record, r.status = .active →
      ∃ r' ∈ s.goals.record, r'.status = .active) :
    ({ s with goals := Goal.step H s.goals a } : LoopState).GoalActive → s.GoalActive :=
  fun ⟨r, hr, hactive⟩ => ha r hr hactive

theorem awake_pauseGoal (h : s.Awake) (now : Int) : (s.pauseGoal H now).Awake := by
  rw [pauseGoal]
  split
  · exact h
  · next r hr =>
    split
    · next hactive =>
      refine h.frame rfl rfl rfl id (fun _ => ⟨r, hr, hactive⟩) fun hidle => ?_
      exact hidle.discardGoalWork _ _
    · exact h

theorem awake_clearGoal (h : s.Awake) : (s.clearGoal H).Awake := by
  rw [clearGoal]
  split
  · exact h
  · refine h.frame rfl rfl rfl id (fun ⟨r, hr, _⟩ => (by cases hr)) fun hidle => ?_
    exact hidle.discardGoalWork _ _

theorem Awake.goals (h : s.Awake) (g : Goals)
    (hwindow : s.place = .closing true → s.waiting = true) :
    ({ s with goals := g } : LoopState).Awake where
  noConsumer := h.noConsumer
  idle := h.idle
  closing := fun hp => ⟨(h.closing hp).1, .inl (hwindow hp)⟩

theorem awake_setGoal (h : s.Awake) (objective : Text) (overwriteConfirmed : Bool)
    (tokenBudget maxAttempts : Option Int) (now : Int)
    (hwindow : s.place = .closing true → s.waiting = true) :
    (s.setGoal H objective overwriteConfirmed tokenBudget maxAttempts now).Awake := by
  rw [setGoal]
  split
  · exact h
  · next r hset =>
    refine Awake.ensureGoalWork ?_ r hwindow
    refine (h.goals _ hwindow).frame rfl rfl rfl id id fun hidle => ?_
    cases s.goals.record with
    | none => exact hidle
    | some existing => exact hidle.discardGoalWork _ _

theorem awake_resumeGoal (h : s.Awake) (origin : Origin) (now : Int)
    (hwindow : s.place = .closing true → s.waiting = true) : (s.resumeGoal H origin now).Awake := by
  rw [resumeGoal]
  split
  · exact h
  · dsimp only
    split
    · exact h
    · split
      · exact (h.goals _ hwindow).ensureGoalWork _ hwindow
      · exact h.goals _ hwindow

theorem awake_applyFinish (h : s.Awake) (index : Nat) (origin : Origin) (now : Int)
    (hwindow : s.place = .closing true → s.waiting = true) :
    (s.applyFinish H index origin now).Awake := by
  rw [applyFinish]
  split
  · exact h.goals _ hwindow
  · exact (h.goals _ hwindow).ensureActiveGoalWork hwindow

theorem awake_supervise (followUps : List Text) (h : s.place = .top) :
    (s.supervise followUps).Awake := by
  have hprepare : ∀ work events, (s.prepareRound work events).place = .running := by
    intro work events
    rw [prepareRound.eq_def]
    split <;> rfl
  rw [supervise]
  split
  · next hconsumer =>
    exact {
      noConsumer := fun _ _ hc => absurd hc hconsumer
      idle := fun _ hp => (by cases hp)
      closing := fun hp => (by cases hp) }
  · split
    · exact .of_place (.inl h)
    · split
      · exact .of_place (.inr (.inl (hprepare _ _)))
      · next hnone =>
        split
        · next hw =>
          -- Nothing was found for the parked goal.
          exact {
            noConsumer := fun _ hp => (by cases hp)
            idle := fun _ hp => (by cases hp)
            closing := fun _ => ⟨Option.isNone_iff_eq_none.mpr hnone, .inl hw⟩ }
        · dsimp only
          split
          · exact .of_place (.inr (.inl (hprepare _ _)))
          · exact .of_place (.inr (.inr rfl))

theorem awake_fallAsleep (h : s.Awake) {waiting : Bool}
    (hplace : s.place = .closing waiting) : (s.fallAsleep waiting).Awake := by
  rw [fallAsleep]
  dsimp only
  split
  · exact .of_place (.inl rfl)
  · next hstay =>
    refine ⟨fun _ hp => (by cases hp), fun _ _ => ?_, fun hp => (by cases hp)⟩
    cases waiting with
    | false => exact .of_not_pending (fun hpending => hstay ⟨hpending, rfl⟩) _
    | true =>
      obtain ⟨hidle, hquiet⟩ := h.closing hplace
      -- Closing the output leaves the work as it is: a round is parked, or the goal is not active.
      have hclose : s.closeIdleOutput.events = s.events ∧
          s.closeIdleOutput.waiting = s.waiting := by
        rw [closeIdleOutput]
        split
        · exact ⟨rfl, rfl⟩
        · next hround =>
          split
          · next hactive =>
            rcases s.ensureActiveGoalWork_eq with heq | ⟨hac, w, heq⟩
            · rw [heq]
              exact ⟨rfl, rfl⟩
            · rcases hquiet with hw | hn
              · rw [LoopState.waiting] at hw
                cases hr : s.round with
                | none =>
                  rw [hr] at hw
                  cases hw
                | some round => exact absurd (.inr (by rw [hr]; rfl)) hround
              · exact absurd hac hn
          · split <;> exact ⟨rfl, rfl⟩
      show s.closeIdleOutput.events.Idle s.closeIdleOutput.waiting
      rw [hclose.1, hclose.2]
      exact hidle

theorem awake_step {a : Action} (h : s.Awake) (ha : s.Heard a) : (step H s a).Awake := by
  obtain ⟨hattach, hwindow⟩ := ha
  cases a with
  | sendInput query steer => exact awake_sendInput h hwindow
  | attachOutput => exact awake_attachOutput h (hattach rfl) hwindow
  | detachOutput =>
    rw [step, detachOutput]
    split
    · refine h.frame rfl rfl rfl (fun hc => absurd rfl hc) id fun _ => ?_
      exact EventManager.idle_discardAllWork _ _
    · exact h
  | endOutput =>
    rw [step, endOutput]
    split
    · exact h.frame rfl rfl rfl (fun hc => absurd rfl hc) id id
    · exact h
  | cancelRound => exact awake_cancelRound h hwindow
  | setGoal objective overwriteConfirmed tokenBudget maxAttempts now =>
    exact awake_setGoal h _ _ _ _ _ hwindow
  | pauseGoal now => exact awake_pauseGoal h now
  | resumeGoal origin now => exact awake_resumeGoal h origin now hwindow
  | clearGoal => exact awake_clearGoal h
  | accumulateUsage attempt delta origin now =>
    refine h.frame rfl rfl rfl id (goalActive_step fun r hr hactive => ?_) id
    rw [Goal.step] at hr
    cases hs : s.goals.record.bind fun r => accumulateUsage r attempt.goalId attempt.revision delta
      (if true then some attempt.index else none) origin now with
    | none =>
      rw [hs] at hr
      exact ⟨r, hr, hactive⟩
    | some r' =>
      rw [hs] at hr
      obtain ⟨r₀, hr₀, hs₀⟩ := Option.bind_eq_some_iff.mp hs
      obtain ⟨-, -, used, started, rfl⟩ := accumulateUsage_eq hs₀
      cases hr
      exact ⟨r₀, hr₀, hactive⟩
  | finish call =>
    refine h.frame rfl rfl rfl id (goalActive_step fun r hr hactive => ⟨r, ?_, hactive⟩) id
    rw [Goal.step] at hr
    cases hread : call.read H s.goals.record with
    | none =>
      rw [hread] at hr
      exact hr
    | some f =>
      rw [hread] at hr
      exact hr
  | applyFinish index origin now => exact awake_applyFinish h index origin now hwindow
  | supervise followUps =>
    rw [step]
    split
    · next hplace => exact awake_supervise followUps hplace
    · exact h
  | fallAsleep =>
    rw [step]
    split
    · next waiting hplace => exact awake_fallAsleep h hplace
    · exact h
  | wake =>
    rw [step]
    split
    · exact .of_place (.inl rfl)
    · exact h
  | beginRound origin now =>
    rw [step, beginRound]
    split
    · next hplace hround =>
      split
      · exact h
      · exact .of_place (.inr (.inl hplace))
    · exact h
  | endRound interrupted nextWork =>
    rw [step, endRound]
    split
    · split <;> exact .of_place (.inl rfl)
    · exact h

end LoopState

/-- In every run whose steps are heard, a supervisor that sleeps on the event while an output is
attached has no work to take. -/
theorem no_lost_wakeup (H : Host) (sessionId : Text) (ops : List Action)
    (hops : Meets (step H) LoopState.Heard (.start sessionId) ops) (s : LoopState)
    (hs : Reached (step H) (.start sessionId) ops s)
    (hplace : s.place = .noConsumer ∨ s.place = .idle) (hwake : s.wakeup = false)
    (hconsumer : s.HasConsumer) : s.events.Idle s.waiting := by
  have h := reached_invariant (fun _ _ => LoopState.awake_step)
    (LoopState.awake_start sessionId) hops hs
  rcases hplace with hp | hp
  · exact h.noConsumer hwake hp hconsumer
  · exact h.idle hwake hp

def sentFirst : List Action :=
  [.supervise [], .sendInput (.text ['a']) false, .wake, .supervise [], .attachOutput]

/-- A goal is replaced while its attempt is parked: the old round is cancelled when the supervisor
has found no answer for it and is about to sleep. -/
def replacedWhileParked : List Action :=
  [.attachOutput, .setGoal ['a'] false none none 0, .supervise [], .beginRound .none 1,
    .endRound true none, .supervise [], .fallAsleep, .setGoal ['b'] true none none 2, .wake,
    .supervise [], .cancelRound, .fallAsleep]

/-- The supervisor sleeps on the event with an output attached and work to take. -/
def LostWakeup (s : LoopState) : Prop :=
  (s.place = .noConsumer ∨ s.place = .idle) ∧ s.wakeup = false ∧ s.HasConsumer ∧
    ¬ s.events.Idle s.waiting

instance (s : LoopState) : Decidable (LostWakeup s) := inferInstanceAs (Decidable (_ ∧ _))

theorem wakeup_lost : LostWakeup (run (step countingHost) (.start []) sentFirst) ∧
    LostWakeup (run (step countingHost) (.start []) replacedWhileParked) := by
  decide

/-- An output that is attached and closed again over an idle supervisor. -/
theorem idle_wakeup_kept :
    (run (step countingHost) (.start []) [.attachOutput, .supervise [], .fallAsleep]).events.Idle
      (run (step countingHost) (.start []) [.attachOutput, .supervise [], .fallAsleep]).waiting :=
  no_lost_wakeup countingHost [] [.attachOutput, .supervise [], .fallAsleep]
    ⟨⟨fun _ h ↦ (by cases h), fun h ↦ (by cases h)⟩, ⟨fun h ↦ (by cases h), fun h ↦ (by cases h)⟩,
      ⟨fun h => (by cases h), fun h => (by cases h)⟩, trivial⟩
    _ ⟨_, List.prefix_rfl, rfl⟩ (.inr rfl) rfl (by decide)

end JiuwenSpec.Interaction

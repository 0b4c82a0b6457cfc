import JiuwenSpec.Interaction.Wakeups

/-!
# Limits of autonomous work

The limits of a goal are looked at where an attempt is assessed. They bound the attempts that are
begun as long as no round of an active goal ends before its attempt is assessed.
-/

namespace JiuwenSpec.Interaction

open Base Goal List Option

variable {H : Host}

/-- The goal's own limits leave room for another attempt. -/
def Room (r : GoalRecord) : Prop :=
  (∀ m ∈ r.maxAttempts, (r.attemptCount : Int) < m) ∧
    ∀ b ∈ r.tokenBudget, r.tokenUsage.totalTokens < b

/-- The limit an evaluator goes by is not above the goal's own. -/
def Covers (own limit : Option Int) : Prop := ∀ m ∈ limit, ∃ k ∈ limitOr own limit, k ≤ m

theorem covers_none (limit : Option Int) : Covers none limit := fun m hm => ⟨m, hm, Int.le_refl m⟩

theorem Room.of_withinLimits {r : GoalRecord} (h : WithinLimits H.config r)
    (hmax : Covers H.config.maxAttempts r.maxAttempts)
    (hbudget : Covers H.config.tokenBudget r.tokenBudget) : Room r := by
  constructor
  · intro m hm
    obtain ⟨k, hk, hle⟩ := hmax m hm
    exact Int.lt_of_lt_of_le (h.1 k hk) hle
  · intro b hb
    obtain ⟨k, hk, hle⟩ := hbudget b hb
    exact Int.lt_of_lt_of_le (h.2 k hk) hle

def begunCount (begun : List Begun) (goalId : Text) : Nat :=
  begun.countP fun b => decide (b.goalId = goalId)

theorem begunCount_cons (b : Begun) (begun : List Begun) (goalId : Text) :
    begunCount (b :: begun) goalId =
      begunCount begun goalId + if b.goalId = goalId then 1 else 0 := by
  rw [begunCount, countP_cons]
  simp only [decide_eq_true_eq]
  rfl

def WithinBudget (begun : List Begun) : Prop :=
  ∀ b ∈ begun, (∀ m ∈ b.maxAttempts, (begunCount begun b.goalId : Int) ≤ m) ∧
    ∀ budget ∈ b.tokenBudget, b.totalTokens < budget

def currentAttempt (r : GoalRecord) : Attempt := ⟨r.goalId, r.revision, r.attemptCount⟩

structure Fits (H : Host) (r : GoalRecord) (finishing : List Finishing) (begun : List Begun) :
    Prop where
  covers : Covers H.config.maxAttempts r.maxAttempts ∧ Covers H.config.tokenBudget r.tokenBudget
  limits : ∀ b ∈ begun, b.goalId = r.goalId →
    b.maxAttempts = r.maxAttempts ∧ b.tokenBudget = r.tokenBudget
  count : begunCount begun r.goalId = r.attemptCount
  room : r.status = .active → r.lastAssessedAttempt = r.attemptCount → Room r
  le : ∀ f ∈ finishing, f.attempt.goalId = r.goalId → f.attempt.index ≤ r.attemptCount
  pending : r.lastAssessedAttempt ≠ r.attemptCount → ∀ f ∈ finishing,
    f.attempt = currentAttempt r → f.assessment.status = .continue →
      Room { r with tokenUsage := f.usage.elim r.tokenUsage r.tokenUsage.add }

theorem Fits.status {r : GoalRecord} {finishing : List Finishing} {begun : List Begun}
    (h : Fits H r finishing begun) {status : GoalStatus} (hstatus : status ≠ .active)
    (used : Int) (started : Option Int) (updated : Int) :
    Fits H { r with
      status := status
      timeUsedSeconds := used
      activeStartedAt := started
      updatedAt := updated } finishing begun where
  covers := h.covers
  limits := h.limits
  count := h.count
  room := fun hactive => absurd hactive hstatus
  le := h.le
  pending := h.pending

namespace LoopState

/-- The attempts that were begun are within the limits, and an attempt of the active goal that is
not assessed has its round. -/
structure Limited (H : Host) (s : LoopState) : Prop where
  wf : s.goals.WF H
  finishing_made : ∀ f ∈ s.goals.finishing, ∃ k < s.goals.created, f.attempt.goalId = H.newId k
  begun_made : ∀ b ∈ s.begun, ∃ k < s.goals.created, b.goalId = H.newId k
  within : WithinBudget s.begun
  fits : ∀ r ∈ s.goals.record, Fits H r s.goals.finishing s.begun
  flight : ∀ r ∈ s.goals.record, r.status = .active → r.lastAssessedAttempt ≠ r.attemptCount →
    ∃ round, s.round = some round ∧ round.attempt = some (currentAttempt r)

theorem limited_start (H : Host) (sessionId : Text) : (start sessionId).Limited H where
  wf := wf_start H sessionId
  finishing_made := fun _ h => (by cases h)
  begun_made := fun _ h => (by cases h)
  within := fun _ h => (by cases h)
  fits := fun _ h => (by cases h)
  flight := fun _ h => (by cases h)

variable {s : LoopState}

theorem Limited.withRound {t : LoopState} (h : s.Limited H) (hgoals : t.goals = s.goals)
    (hbegun : t.begun = s.begun) (hround : ∀ r ∈ s.goals.record, r.status = .active →
      r.lastAssessedAttempt ≠ r.attemptCount → ∀ round, s.round = some round →
      round.attempt = some (currentAttempt r) →
      ∃ round', t.round = some round' ∧ round'.attempt = some (currentAttempt r)) :
    t.Limited H where
  wf := hgoals ▸ h.wf
  finishing_made := hgoals ▸ h.finishing_made
  begun_made := by
    rw [hgoals, hbegun]
    exact h.begun_made
  within := hbegun ▸ h.within
  fits := by
    rw [hgoals, hbegun]
    exact h.fits
  flight := by
    rw [hgoals]
    intro r hr hactive hlast
    obtain ⟨round, hs, hattempt⟩ := h.flight r hr hactive hlast
    exact hround r hr hactive hlast round hs hattempt

theorem Limited.frame {t : LoopState} (h : s.Limited H) (hgoals : t.goals = s.goals)
    (hround : t.round = s.round) (hbegun : t.begun = s.begun) : t.Limited H :=
  h.withRound hgoals hbegun fun _ _ _ _ round hs hattempt => ⟨round, hround.trans hs, hattempt⟩

theorem Limited.ensureGoalWork (h : s.Limited H) (r : GoalRecord) :
    (s.ensureGoalWork r).Limited H := by
  rcases s.ensureGoalWork_eq r with heq | ⟨-, heq⟩ <;> rw [heq]
  · exact h
  · exact h.frame rfl rfl rfl

theorem Limited.ensureActiveGoalWork (h : s.Limited H) : s.ensureActiveGoalWork.Limited H := by
  rcases s.ensureActiveGoalWork_eq with heq | ⟨-, w, heq⟩ <;> rw [heq]
  · exact h
  · exact h.frame rfl rfl rfl

/-- The round's attempt is not left without an assessment while its goal is active. -/
def RoundSettled (s : LoopState) : Prop :=
  ∀ round ∈ s.round, ∀ r ∈ s.goals.record, r.status = .active →
    round.attempt = some (currentAttempt r) → r.lastAssessedAttempt = r.attemptCount

/-- The goal is not resumed, a goal's limits are not exceeded by the evaluator's own, no use of
tokens is recorded between the snapshot and the settlement of its attempt, and no round ends before
its attempt is assessed, but for one that is parked. -/
def Assessed (H : Host) (s : LoopState) : Action → Prop
  | .resumeGoal _ _ => False
  | .setGoal _ _ tokenBudget maxAttempts _ =>
    Covers H.config.maxAttempts maxAttempts ∧ Covers H.config.tokenBudget tokenBudget
  | .accumulateUsage attempt _ _ _ => ∀ f ∈ s.goals.finishing, f.attempt ≠ attempt
  | .cancelRound => s.waiting = true → s.RoundSettled
  | .endRound interrupted _ =>
    (interrupted = true ∧ ∀ round ∈ s.round, ∃ w, round.work = .goal w) ∨ s.RoundSettled
  | _ => True

theorem Limited.withRecord (h : s.Limited H) {g : Goals} (hwf : g.WF H)
    (hcreated : g.created = s.goals.created) (hfinishing : g.finishing ⊆ s.goals.finishing)
    (hfits : ∀ r' ∈ g.record, Fits H r' g.finishing s.begun)
    (hflight : ∀ r' ∈ g.record, r'.status = .active → r'.lastAssessedAttempt ≠ r'.attemptCount →
      ∃ round, s.round = some round ∧ round.attempt = some (currentAttempt r')) :
    ({ s with goals := g } : LoopState).Limited H where
  wf := hwf
  finishing_made := by
    rw [hcreated]
    exact fun f hf => h.finishing_made f (hfinishing hf)
  begun_made := by
    rw [hcreated]
    exact h.begun_made
  within := h.within
  fits := hfits
  flight := hflight

theorem limited_pauseGoal (hid : Function.Injective H.newId) (h : s.Limited H)
    (now : Int) : (s.pauseGoal H now).Limited H := by
  rw [pauseGoal]
  split
  · exact h
  · next r hr =>
    split
    · next hactive =>
      have hwf := wf_step hid (.pause (s.events.hasRunningGoal r.goalId) now) h.wf
      have hstep : Goal.step H s.goals (.pause (s.events.hasRunningGoal r.goalId) now) =
          { s.goals with
            record := some (pauseRecord r (s.events.hasRunningGoal r.goalId) now) } := by
        rw [Goal.step, hr, map_some]
      rcases pauseRecord_eq r (s.events.hasRunningGoal r.goalId) now with
        ⟨hne, -⟩ | ⟨-, used, started, heq⟩
      · exact absurd hactive hne
      · rw [hstep, heq] at hwf ⊢
        refine Limited.frame (s := { s with goals := _ })
          (h.withRecord hwf rfl (fun _ hf => hf) ?_ ?_) rfl rfl rfl
        · rintro _ ⟨⟩
          exact (h.fits r hr).status (fun h => (by cases h)) _ _ _
        · rintro _ ⟨⟩ hp
          cases hp
    · exact h

theorem limited_clearGoal (hid : Function.Injective H.newId) (h : s.Limited H) :
    (s.clearGoal H).Limited H := by
  rw [clearGoal]
  split
  · exact h
  · refine Limited.frame (s := { s with goals := Goal.step H s.goals .clear })
      (h.withRecord (wf_step hid .clear h.wf) rfl (fun _ hf => hf) ?_ ?_) rfl rfl rfl
    · rintro _ ⟨⟩
    · rintro _ ⟨⟩

theorem limited_setGoal (hid : Function.Injective H.newId) (h : s.Limited H)
    (objective : Text) (overwriteConfirmed : Bool) (tokenBudget maxAttempts : Option Int)
    (now : Int) (hcovers : Covers H.config.maxAttempts maxAttempts ∧
      Covers H.config.tokenBudget tokenBudget) :
    (s.setGoal H objective overwriteConfirmed tokenBudget maxAttempts now).Limited H := by
  rw [setGoal]
  split
  · exact h
  · next r hset =>
    refine Limited.ensureGoalWork ?_ r
    have hwf := wf_step hid (.set objective overwriteConfirmed tokenBudget maxAttempts now) h.wf
    have hstep : Goal.step H s.goals
        (.set objective overwriteConfirmed tokenBudget maxAttempts now) =
        { s.goals with record := some r, created := s.goals.created + 1 } := by
      rw [Goal.step, hset]
    rw [hstep] at hwf ⊢
    obtain ⟨⟨hmax, hbudget⟩, rfl⟩ := setRecord_eq hset
    have hnew : ∀ k < s.goals.created, H.newId k ≠ H.newId s.goals.created := fun k hk heq => by
      have := hid heq
      omega
    have hfinishing : ∀ f ∈ s.goals.finishing, f.attempt.goalId ≠ H.newId s.goals.created := by
      intro f hf
      obtain ⟨k, hk, heq⟩ := h.finishing_made f hf
      exact heq ▸ hnew k hk
    have hbegun : ∀ b ∈ s.begun, b.goalId ≠ H.newId s.goals.created := by
      intro b hb
      obtain ⟨k, hk, heq⟩ := h.begun_made b hb
      exact heq ▸ hnew k hk
    exact {
      wf := hwf
      finishing_made := fun f hf => by
        obtain ⟨k, hk, heq⟩ := h.finishing_made f hf
        exact ⟨k, Nat.lt_succ_of_lt hk, heq⟩
      begun_made := fun b hb => by
        obtain ⟨k, hk, heq⟩ := h.begun_made b hb
        exact ⟨k, Nat.lt_succ_of_lt hk, heq⟩
      within := h.within
      fits := by
        rintro _ ⟨⟩
        exact {
          covers := hcovers
          limits := fun b hb heq => absurd heq (hbegun b hb)
          count := countP_eq_zero.mpr fun b hb => by
            rw [decide_eq_true_eq]
            exact hbegun b hb
          room := fun _ _ => ⟨hmax, hbudget⟩
          le := fun f hf heq => absurd heq (hfinishing f hf)
          pending := fun hne => absurd rfl hne }
      flight := by
        rintro _ ⟨⟩ - hne
        exact absurd rfl hne }

theorem limited_accumulateUsage (hid : Function.Injective H.newId)
    (h : s.Limited H) {attempt : Attempt} (delta : TokenUsage) (origin : Origin) (now : Int)
    (hfinishing : ∀ f ∈ s.goals.finishing, f.attempt ≠ attempt) :
    ({ s with goals := Goal.step H s.goals (.accumulateUsage attempt true delta origin now) } :
      LoopState).Limited H := by
  have hwf := wf_step hid (.accumulateUsage attempt true delta origin now) h.wf
  rw [Goal.step] at hwf ⊢
  cases hs : s.goals.record.bind fun r => accumulateUsage r attempt.goalId attempt.revision delta
    (if true then some attempt.index else none) origin now with
  | none => exact h
  | some r' =>
    rw [hs] at hwf
    obtain ⟨r, hr, hs⟩ := bind_eq_some_iff.mp hs
    obtain ⟨⟨-, hgoal, hrevision⟩, hindex, used, started, rfl⟩ := accumulateUsage_eq hs
    obtain ⟨-, hcount, hlast⟩ := hindex attempt.index rfl
    have hfits := h.fits r hr
    have hcurrent : currentAttempt r = attempt := by
      rw [currentAttempt, hgoal, hrevision, ← hcount]
    refine h.withRecord hwf rfl (fun _ hf => hf) ?_ ?_
    · rintro _ ⟨⟩
      exact {
        covers := hfits.covers
        limits := hfits.limits
        count := hfits.count
        room := fun _ heq => by
          dsimp only at heq
          omega
        le := hfits.le
        pending := fun _ f hf heq => absurd (heq.trans hcurrent) (hfinishing f hf) }
    · rintro _ ⟨⟩ hactive hne
      exact h.flight r hr hactive hne

theorem limited_finish (hid : Function.Injective H.newId) (h : s.Limited H) (call : FinishCall) :
    ({ s with goals := Goal.step H s.goals (.finish call) } : LoopState).Limited H := by
  have hwf := wf_step hid (.finish call) h.wf
  rw [Goal.step] at hwf ⊢
  cases hread : call.read H s.goals.record with
  | none => exact h
  | some f =>
    rw [hread] at hwf
    rw [FinishCall.read] at hread
    split at hread
    · obtain ⟨r, hr, hf⟩ := bind_eq_some_iff.mp hread
      split at hf
      · next hguard =>
        cases hf
        obtain ⟨⟨-, hgoal, -⟩, -, hindex, -⟩ := hguard
        have hrecord : ∀ r' ∈ s.goals.record, r' = r := fun r' hr' =>
          some.inj (hr'.symm.trans hr)
        have hfits := h.fits r hr
        exact {
          wf := hwf
          finishing_made := by
            rintro f hf
            rcases mem_append.mp hf with hf | hf
            · exact h.finishing_made f hf
            · rw [mem_singleton.mp hf, ← hgoal]
              exact h.wf.made r hr
          begun_made := h.begun_made
          within := h.within
          fits := by
            intro r' hr'
            obtain rfl := hrecord r' hr'
            exact {
              covers := hfits.covers
              limits := hfits.limits
              count := hfits.count
              room := hfits.room
              le := by
                rintro f hf heq
                rcases mem_append.mp hf with hf | hf
                · exact hfits.le f hf heq
                · rw [mem_singleton.mp hf]
                  exact Nat.le_of_eq hindex
              pending := by
                rintro hne f hf heq hcontinue
                rcases mem_append.mp hf with hf | hf
                · exact hfits.pending hne f hf heq hcontinue
                · rw [mem_singleton.mp hf] at hcontinue ⊢
                  -- What is assessed to continue was within the limits.
                  dsimp only [FinishCall.assessment] at hcontinue
                  split at hcontinue
                  · cases hcontinue
                  · exact .of_withinLimits (withinLimits_of_continue hcontinue) hfits.covers.1
                      hfits.covers.2 }
          flight := h.flight }
      · cases hf
    · cases hread

theorem limited_applyFinish (hid : Function.Injective H.newId) (h : s.Limited H)
    (index : Nat) (origin : Origin) (now : Int) : (s.applyFinish H index origin now).Limited H := by
  have hgoals : ({ s with goals := Goal.step H s.goals (.apply index origin now) } :
      LoopState).Limited H := by
    have hwf := wf_step hid (.apply index origin now) h.wf
    rw [Goal.step] at hwf ⊢
    split at hwf
    · exact h
    · next f hf =>
      have hmem : f ∈ s.goals.finishing := mem_of_getElem? hf
      have hsub : ∀ f' ∈ s.goals.finishing.eraseIdx index, f' ∈ s.goals.finishing :=
        fun _ hf' => mem_of_mem_eraseIdx hf'
      cases hs : s.goals.record.bind fun r => applyAssessment r f.attempt.goalId f.attempt.revision
        f.assessment f.attempt.index f.usage origin now with
      | none =>
        rw [hs] at hwf
        refine h.withRecord hwf rfl hsub (fun r hr => ?_) h.flight
        have hfits := h.fits r hr
        exact ⟨hfits.covers, hfits.limits, hfits.count, hfits.room,
          fun f' hf' => hfits.le f' (hsub f' hf'),
          fun hne f' hf' => hfits.pending hne f' (hsub f' hf')⟩
      | some r' =>
        rw [hs] at hwf
        obtain ⟨r, hr, hs⟩ := bind_eq_some_iff.mp hs
        obtain ⟨⟨-, hgoal, hrevision⟩, ⟨-, hcount, hlast⟩, status, reason, used, started, rfl,
          hactive⟩ := applyAssessment_eq hs
        have hfits := h.fits r hr
        have hcurrent : f.attempt = currentAttempt r := by
          rw [currentAttempt, hgoal, hrevision, ← hcount]
        refine h.withRecord hwf rfl hsub ?_ ?_
        · rintro _ ⟨⟩
          exact {
            covers := hfits.covers
            limits := hfits.limits
            count := hfits.count
            room := fun hstatus _ =>
              hfits.pending (by omega) f hmem hcurrent (hactive hstatus).2
            le := fun f' hf' => hfits.le f' (hsub f' hf')
            pending := fun hne => absurd hcount hne }
        · rintro _ ⟨⟩ - hne
          exact absurd hcount hne
  rw [applyFinish]
  split
  · exact hgoals
  · exact hgoals.ensureActiveGoalWork

theorem limited_beginRound (hid : Function.Injective H.newId) (h : s.Limited H)
    (origin : Origin) (now : Int) : (s.beginRound H origin now).Limited H := by
  rw [beginRound]
  split
  · next w hplace hround =>
    split
    · exact h
    · next r' hs =>
      have hwf := wf_step hid (.begin w.goalId w.revision none origin now) h.wf
      have hstep : Goal.step H s.goals (.begin w.goalId w.revision none origin now) =
          { s.goals with record := some r' } := by
        rw [Goal.step, hs]
        rfl
      rw [hstep] at hwf ⊢
      obtain ⟨r, hr, hs⟩ := bind_eq_some_iff.mp hs
      obtain ⟨⟨hactive, -⟩, -, started, rfl⟩ := beginAttempt_eq hs
      have hfits := h.fits r hr
      have hle := h.wf.assessed r hr
      -- No attempt is in flight, so the last one was assessed and left room.
      have hroom : Room r := by
        refine hfits.room hactive (by_contra fun hne => ?_)
        obtain ⟨round, hsome, hattempt⟩ := h.flight r hr hactive hne
        rw [hround] at hsome
        rw [← some.inj hsome] at hattempt
        cases hattempt
      have hcount : ∀ goalId, begunCount (⟨r.goalId, r.maxAttempts, r.tokenBudget,
          r.tokenUsage.totalTokens⟩ :: s.begun) goalId =
          begunCount s.begun goalId + if r.goalId = goalId then 1 else 0 := fun _ =>
        begunCount_cons _ _ _
      have hnext : ∀ m ∈ r.maxAttempts, ((begunCount s.begun r.goalId + 1 : Nat) : Int) ≤ m := by
        intro m hm
        have := hroom.1 m hm
        rw [hfits.count]
        omega
      exact {
        wf := hwf
        finishing_made := h.finishing_made
        begun_made := by
          rintro b hb
          rcases mem_cons.mp hb with rfl | hb
          · exact h.wf.made r hr
          · exact h.begun_made b hb
        within := by
          rintro b hb
          rw [hcount]
          rcases mem_cons.mp hb with rfl | hb
          · rw [if_pos rfl]
            exact ⟨hnext, hroom.2⟩
          · refine ⟨fun m hm => ?_, (h.within b hb).2⟩
            split
            · next heq =>
              rw [← heq]
              exact hnext m ((hfits.limits b hb heq.symm).1 ▸ hm)
            · exact (h.within b hb).1 m hm
        fits := by
          rintro _ ⟨⟩
          exact {
            covers := hfits.covers
            limits := by
              rintro b hb heq
              rcases mem_cons.mp hb with rfl | hb
              · exact ⟨rfl, rfl⟩
              · exact hfits.limits b hb heq
            count := by
              rw [hcount, if_pos rfl, hfits.count]
            room := fun _ heq => by
              dsimp only at heq
              omega
            le := fun f hf heq => Nat.le_succ_of_le (hfits.le f hf heq)
            pending := fun _ f hf heq => by
              have hindex := hfits.le f hf (congrArg Attempt.goalId heq)
              have := congrArg Attempt.index heq
              rw [currentAttempt] at this
              dsimp only at this
              omega }
        flight := by
          rintro _ ⟨⟩ - -
          exact ⟨_, rfl, rfl⟩ }
  · exact h

theorem limited_prepareRound (h : s.Limited H) {work : Work}
    {events : EventManager} (hround : s.round = none ∨ work = .user .interactive) :
    (s.prepareRound work events).Limited H := by
  rw [prepareRound.eq_def]
  split
  · next round hsome =>
    refine h.withRound rfl rfl fun r _ _ _ round' hs hattempt => ⟨_, rfl, ?_⟩
    rw [hsome] at hs
    rw [some.inj hs]
    exact hattempt
  · next hno =>
    refine h.withRound rfl rfl fun r _ _ _ round' hs _ => ?_
    rcases hround with hnone | rfl
    · rw [hnone] at hs
      cases hs
    · exact absurd rfl (hno round' hs)

theorem limited_supervise (h : s.Limited H) (followUps : List Text) :
    (s.supervise followUps).Limited H := by
  rw [supervise]
  split
  · exact h.frame rfl rfl rfl
  · split
    · exact h
    · next hround =>
      split
      · next work events hnext =>
        refine limited_prepareRound h ?_
        by_cases hw : s.waiting = true
        · rw [hw, EventManager.nextWork, if_pos rfl] at hnext
          obtain ⟨rest, -, heq⟩ := map_eq_some_iff.mp hnext
          exact .inr (Prod.mk.inj heq).1.symm
        · cases hs : s.round with
          | none => exact .inl rfl
          | some round =>
            exact absurd ⟨by rw [hs]; rfl, Bool.eq_false_iff.mpr hw⟩ hround
      · split
        · exact h.frame rfl rfl rfl
        · next hw =>
          dsimp only
          split
          · refine limited_prepareRound h (.inl ?_)
            cases hs : s.round with
            | none => rfl
            | some round =>
              exact absurd ⟨by rw [hs]; rfl, Bool.eq_false_iff.mpr hw⟩ hround
          · exact h.frame rfl rfl rfl

theorem limited_fallAsleep (h : s.Limited H) (waiting : Bool) :
    (s.fallAsleep waiting).Limited H := by
  have hclose : s.closeIdleOutput.Limited H := by
    rw [closeIdleOutput]
    split
    · exact h
    · split
      · exact h.ensureActiveGoalWork
      · split
        · exact h.frame rfl rfl rfl
        · exact h
  rw [fallAsleep]
  dsimp only
  split
  · exact hclose.frame rfl rfl rfl
  · exact hclose.frame rfl rfl rfl

theorem limited_endRound (h : s.Limited H) {interrupted : Bool}
    {nextWork : Option Query} (hsettled : (interrupted = true ∧
      ∀ round ∈ s.round, ∃ w, round.work = .goal w) ∨ s.RoundSettled) :
    (s.endRound interrupted nextWork).Limited H := by
  rw [endRound]
  split
  · next round hplace hround =>
    have hpushed : (nextWork.elim s fun query =>
        { s with events := s.events.pushUser query }.notifyWork).Limited H ∧
        (nextWork.elim s fun query =>
          { s with events := s.events.pushUser query }.notifyWork).goals = s.goals ∧
        (nextWork.elim s fun query =>
          { s with events := s.events.pushUser query }.notifyWork).begun = s.begun := by
      cases nextWork with
      | none => exact ⟨h, rfl, rfl⟩
      | some query => exact ⟨h.frame rfl rfl rfl, rfl, rfl⟩
    obtain ⟨-, hgoals, hbegun⟩ := hpushed
    split
    · refine h.withRound hgoals hbegun fun r _ _ _ round' hs hattempt => ⟨_, rfl, ?_⟩
      rw [hround] at hs
      rw [some.inj hs]
      exact hattempt
    · next hwork =>
      refine h.withRound hgoals hbegun fun r hr hactive hne round' hs hattempt => ?_
      rcases hsettled with ⟨hi, hgoal⟩ | hsettled
      · obtain ⟨w, heq⟩ := hgoal round hround
        exact absurd hi (hwork w heq)
      · exact absurd (hsettled round' hs r hr hactive hattempt) hne
  · exact h

theorem limited_step (hid : Function.Injective H.newId) {a : Action}
    (h : s.Limited H) (ha : s.Assessed H a) : (step H s a).Limited H := by
  cases a with
  | sendInput query steer =>
    rw [step, sendInput.eq_def]
    cases query with
    | interactive => exact h.frame rfl rfl rfl
    | text text =>
      dsimp only
      split
      · exact h.frame rfl rfl rfl
      · refine Limited.frame (s := if _ then s else s.ensureActiveGoalWork) ?_ rfl rfl rfl
        split
        · exact h
        · exact h.ensureActiveGoalWork
  | attachOutput =>
    have hactive : ∀ t : LoopState, t.Limited H →
        (if t.GoalActive then t.ensureActiveGoalWork.notifyWork else t).Limited H := by
      intro t ht
      split
      · exact ht.ensureActiveGoalWork.frame rfl rfl rfl
      · exact ht
    refine hactive _ ?_
    split
    · exact h
    · exact h.frame rfl rfl rfl
  | detachOutput =>
    rw [step, detachOutput]
    split
    · exact h.frame rfl rfl rfl
    · exact h
  | endOutput =>
    rw [step, endOutput]
    split
    · exact h.frame rfl rfl rfl
    · exact h
  | cancelRound =>
    rw [step, cancelRound]
    split
    · next hw =>
      refine h.withRound rfl rfl fun r hr hactive hne round hs hattempt => ?_
      exact absurd (ha hw round hs r hr hactive hattempt) hne
    · exact h
  | setGoal objective overwriteConfirmed tokenBudget maxAttempts now =>
    exact limited_setGoal hid h _ _ _ _ _ ha
  | pauseGoal now => exact limited_pauseGoal hid h now
  | resumeGoal origin now => exact absurd ha id
  | clearGoal => exact limited_clearGoal hid h
  | accumulateUsage attempt delta origin now =>
    exact limited_accumulateUsage hid h delta origin now ha
  | finish call => exact limited_finish hid h call
  | applyFinish index origin now => exact limited_applyFinish hid h index origin now
  | supervise followUps =>
    rw [step]
    split
    · exact limited_supervise h followUps
    · exact h
  | fallAsleep =>
    rw [step]
    split
    · exact limited_fallAsleep h _
    · exact h
  | wake =>
    rw [step]
    split
    · exact h.frame rfl rfl rfl
    · exact h
  | beginRound origin now => exact limited_beginRound hid h origin now
  | endRound interrupted nextWork => exact limited_endRound h ha

end LoopState

/-- In every run in which no goal is resumed and no round of an active goal ends before its attempt
is assessed, the attempts that are begun stay within the limits of their goals. -/
theorem attempts_within_limits (H : Host) (hid : Function.Injective H.newId) (sessionId : Text)
    (ops : List Action) (hops : Meets (step H) (LoopState.Assessed H) (.start sessionId) ops)
    (s : LoopState) (hs : Reached (step H) (.start sessionId) ops s) : WithinBudget s.begun :=
  (reached_invariant (fun _ _ => LoopState.limited_step hid) (LoopState.limited_start H sessionId)
    hops hs).within

/-- A goal of one attempt and ten tokens, whose first round ends in an error. -/
def erroneousRound : List Action :=
  [.attachOutput, .setGoal ['a'] false (some 10) (some 1) 0, .supervise [], .beginRound .none 1,
    .accumulateUsage ⟨[], 0, 1⟩ ⟨20, 0, 0, 20⟩ .none 2, .endRound false none, .supervise [],
    .fallAsleep, .supervise [], .beginRound .none 3]

theorem erroneousRound_begun : (run (step countingHost) (.start []) erroneousRound).begun =
    [⟨[], some 1, some 10, 20⟩, ⟨[], some 1, some 10, 0⟩] := by
  decide

/-- The goal is neither resumed nor replaced, and yet has a second attempt beyond both limits. -/
theorem limits_exceeded : ¬ ∀ b ∈ (run (step countingHost) (.start []) erroneousRound).begun,
    (∀ m ∈ b.maxAttempts, (begunCount (run (step countingHost) (.start []) erroneousRound).begun
      b.goalId : Int) ≤ m) ∨ ∀ budget ∈ b.tokenBudget, b.totalTokens < budget := by
  rw [erroneousRound_begun]
  intro h
  rcases h ⟨[], some 1, some 10, 20⟩ (by simp) with h | h
  · exact absurd (h 1 rfl) (by decide)
  · exact absurd (h 10 rfl) (by decide)

theorem one_attempt_within_limits : WithinBudget (run (step countingHost) (.start [])
    [.attachOutput, .setGoal ['a'] false (some 10) (some 1) 0, .supervise [],
      .beginRound .none 1]).begun :=
  attempts_within_limits countingHost countingHost_injective []
    [.attachOutput, .setGoal ['a'] false (some 10) (some 1) 0, .supervise [], .beginRound .none 1]
    ⟨trivial, ⟨covers_none _, covers_none _⟩, trivial, trivial, trivial⟩ _
    ⟨_, prefix_rfl, rfl⟩

end JiuwenSpec.Interaction

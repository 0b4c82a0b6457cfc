import JiuwenSpec.Base.TextLines

/-!
# Goal records

The persistent record of a goal, its clock and its use of tokens, and the changes the manager makes
to a record it has loaded. Times are microseconds.
Source: `harness/goal/schema.py`, `manager.py`.
-/

namespace JiuwenSpec.Goal

open Base

inductive GoalStatus where
  | active
  | paused
  | completed
  | blocked
deriving DecidableEq

inductive GoalAssessmentStatus where
  | continue
  | complete
  | blocked
deriving DecidableEq

structure GoalAssessment where
  status : GoalAssessmentStatus
  evidence : Text
  remainingWork : Option Text
  nextInstruction : Option Text
deriving DecidableEq

structure TokenUsage where
  inputTokens : Int
  outputTokens : Int
  cachedInputTokens : Int
  totalTokens : Int
deriving DecidableEq

/-- `TokenUsage()`. -/
def TokenUsage.zero : TokenUsage := ⟨0, 0, 0, 0⟩

/-- `TokenUsage.accumulate`. -/
def TokenUsage.accumulate (u : TokenUsage) (input output cached : Int) : TokenUsage where
  inputTokens := u.inputTokens + input
  outputTokens := u.outputTokens + output
  cachedInputTokens := u.cachedInputTokens + cached
  totalTokens := u.totalTokens + (input + output)

/-- `accumulate` with the counts of another usage. -/
def TokenUsage.add (u delta : TokenUsage) : TokenUsage :=
  u.accumulate delta.inputTokens delta.outputTokens delta.cachedInputTokens

structure GoalRecord where
  goalId : Text
  sessionId : Text
  objective : Text
  status : GoalStatus
  revision : Nat
  attemptCount : Nat
  lastAssessedAttempt : Nat
  tokenUsage : TokenUsage
  maxAttempts : Option Int
  tokenBudget : Option Int
  lastAssessment : Option GoalAssessment
  lastStopReason : Option Text
  timeUsedSeconds : Int
  activeStartedAt : Option Int
  createdAt : Int
  updatedAt : Int
deriving DecidableEq

namespace GoalRecord

/-- `GoalRecord.create`. -/
def create (goalId sessionId objective : Text) (maxAttempts tokenBudget : Option Int) (now : Int) :
    GoalRecord where
  goalId := goalId
  sessionId := sessionId
  objective := objective
  status := .active
  revision := 0
  attemptCount := 0
  lastAssessedAttempt := 0
  tokenUsage := .zero
  maxAttempts := maxAttempts
  tokenBudget := tokenBudget
  lastAssessment := none
  lastStopReason := none
  timeUsedSeconds := 0
  activeStartedAt := some now
  createdAt := now
  updatedAt := now

def touch (r : GoalRecord) (bumpRevision : Bool) (now : Int) : GoalRecord :=
  { r with updatedAt := now, revision := if bumpRevision then r.revision + 1 else r.revision }

def startTiming (r : GoalRecord) (now : Int) : GoalRecord :=
  { r with activeStartedAt := some (r.activeStartedAt.getD now), updatedAt := now }

def settleActiveTime (r : GoalRecord) (keepActive : Bool) (now : Int) : GoalRecord :=
  match r.activeStartedAt with
  | some startedAt =>
    { r with
      timeUsedSeconds := r.timeUsedSeconds + max 0 ((now - startedAt) / 1000000)
      activeStartedAt := if keepActive then some now else none
      updatedAt := now }
  | none =>
    { r with
      activeStartedAt := if keepActive ∧ r.status = .active then some now else none
      updatedAt := now }

end GoalRecord

def matchesActive (r : GoalRecord) (goalId : Text) (revision : Nat) : Prop :=
  r.status = .active ∧ r.goalId = goalId ∧ r.revision = revision

def matchesInFlight (r : GoalRecord) (goalId : Text) (revision : Nat) : Prop :=
  (r.status = .active ∨ r.status = .paused) ∧ r.goalId = goalId ∧ r.revision = revision

def matchesAttempt (r : GoalRecord) (attemptIndex : Nat) : Prop :=
  0 < attemptIndex ∧ attemptIndex = r.attemptCount ∧ r.lastAssessedAttempt < attemptIndex

instance (r : GoalRecord) (goalId : Text) (revision : Nat) :
    Decidable (matchesActive r goalId revision) := inferInstanceAs (Decidable (_ ∧ _))

instance (r : GoalRecord) (goalId : Text) (revision : Nat) :
    Decidable (matchesInFlight r goalId revision) := inferInstanceAs (Decidable (_ ∧ _))

instance (r : GoalRecord) (attemptIndex : Nat) : Decidable (matchesAttempt r attemptIndex) :=
  inferInstanceAs (Decidable (_ ∧ _))

/-- The origin a record is bound to: none, one that is still current, or one whose check fails. -/
inductive Origin where
  | none
  | current
  | lost
deriving DecidableEq

/-- `GoalOperationError` of `set`, with its code and its message. -/
structure GoalOperationError where
  code : Text
  message : Text
  goal : Option GoalRecord

def validateSet (objective : Text) (tokenBudget maxAttempts : Option Int) :
    Except GoalOperationError Unit :=
  if strip objective = [] then
    .error ⟨"invalid_objective".toList, "goal objective must not be empty".toList, none⟩
  else if ∃ b ∈ tokenBudget, b ≤ 0 then
    .error ⟨"invalid_objective".toList, "token_budget must be positive".toList, none⟩
  else if ∃ m ∈ maxAttempts, m ≤ 0 then
    .error ⟨"invalid_objective".toList, "max_attempts must be positive".toList, none⟩
  else .ok ()

/-- What `set` stores. -/
def setRecord (existing : Option GoalRecord) (goalId sessionId objective : Text)
    (overwriteConfirmed : Bool) (tokenBudget maxAttempts : Option Int) (now : Int) :
    Except GoalOperationError GoalRecord :=
  (validateSet objective tokenBudget maxAttempts).bind fun _ =>
    match existing, overwriteConfirmed with
    | some goal, false => .error ⟨"already_exists".toList,
        "a goal already exists for this session".toList, some goal⟩
    | _, _ => .ok (.create goalId sessionId (strip objective) maxAttempts tokenBudget now)

/-- What `pause` stores. -/
def pauseRecord (r : GoalRecord) (inFlight : Bool) (now : Int) : GoalRecord :=
  if r.status = .active then
    let settled := r.settleActiveTime false now
    let timed := if inFlight then settled.startTiming now else settled
    { timed with status := .paused }.touch false now
  else r

/-- What `resume` stores, where its origin allows it. -/
def resumeRecord (r : GoalRecord) (inFlight : Bool) (origin : Origin) (now : Int) :
    Option GoalRecord :=
  if r.status = .paused ∨ r.status = .blocked then
    if origin = .lost ∨ (origin = .current ∧ inFlight = false) then none
    else some ((({ r.settleActiveTime false now with status := .active }).startTiming now).touch
      (!inFlight) now)
  else some r

/-- What `begin_attempt` stores, where it is not refused. -/
def beginAttempt (r : GoalRecord) (goalId : Text) (revision : Nat) (attemptIndex : Option Nat)
    (origin : Origin) (now : Int) : Option GoalRecord :=
  if matchesActive r goalId revision ∧ (∀ i ∈ attemptIndex, i = r.attemptCount + 1) ∧
    origin ≠ .lost then
    some (({ r with attemptCount := r.attemptCount + 1 }.startTiming now).touch false now)
  else none

/-- What `accumulate_usage` stores, where it is not refused. -/
def accumulateUsage (r : GoalRecord) (goalId : Text) (revision : Nat) (delta : TokenUsage)
    (attemptIndex : Option Nat) (origin : Origin) (now : Int) : Option GoalRecord :=
  if matchesInFlight r goalId revision ∧ (∀ i ∈ attemptIndex, matchesAttempt r i) ∧
    origin ≠ .lost then
    -- `_matches_in_flight` leaves active and paused records only.
    let timed := if r.activeStartedAt.isSome then r.settleActiveTime true now else r
    some ({ timed with tokenUsage := timed.tokenUsage.add delta }.touch false now)
  else none

def GoalRecord.assessed (r : GoalRecord) (assessment : GoalAssessment) (now : Int) : GoalRecord :=
  match assessment.status with
  | .complete => { r.settleActiveTime false now with
      status := .completed, lastStopReason := some "completed".toList }
  | .blocked => { r.settleActiveTime false now with
      status := .blocked, lastStopReason := some "blocked".toList }
  | .continue =>
    if r.status = .active then r.settleActiveTime true now
    else if r.status = .paused then r.settleActiveTime false now
    else r

/-- What `apply_assessment` stores, where it is not refused. -/
def applyAssessment (r : GoalRecord) (goalId : Text) (revision : Nat)
    (assessment : GoalAssessment) (attemptIndex : Nat) (usage : Option TokenUsage)
    (origin : Origin) (now : Int) : Option GoalRecord :=
  if matchesInFlight r goalId revision ∧ matchesAttempt r attemptIndex ∧ origin ≠ .lost then
    some (({ r with
      lastAssessedAttempt := attemptIndex
      tokenUsage := usage.elim r.tokenUsage r.tokenUsage.add
      lastAssessment := some assessment }.assessed assessment now).touch false now)
  else none

theorem validateSet_ok {objective : Text} {tokenBudget maxAttempts : Option Int} {u : Unit}
    (h : validateSet objective tokenBudget maxAttempts = .ok u) :
    (∀ m ∈ maxAttempts, 0 < m) ∧ ∀ b ∈ tokenBudget, 0 < b := by
  rw [validateSet] at h
  split at h
  · cases h
  · split at h
    · cases h
    · next hbudget =>
      split at h
      · cases h
      · next hmax =>
        exact ⟨fun m hm => Int.not_le.mp fun hle => hmax ⟨m, hm, hle⟩,
          fun b hb => Int.not_le.mp fun hle => hbudget ⟨b, hb, hle⟩⟩

theorem setRecord_eq {existing : Option GoalRecord} {goalId sessionId objective : Text}
    {overwriteConfirmed : Bool} {tokenBudget maxAttempts : Option Int} {now : Int}
    {r : GoalRecord} (h : setRecord existing goalId sessionId objective overwriteConfirmed
      tokenBudget maxAttempts now = .ok r) :
    ((∀ m ∈ maxAttempts, 0 < m) ∧ ∀ b ∈ tokenBudget, 0 < b) ∧
      r = .create goalId sessionId (strip objective) maxAttempts tokenBudget now := by
  rw [setRecord.eq_def] at h
  cases hvalid : validateSet objective tokenBudget maxAttempts with
  | error e =>
    rw [hvalid] at h
    cases h
  | ok u =>
    rw [hvalid] at h
    refine ⟨validateSet_ok hvalid, ?_⟩
    dsimp only [Except.bind] at h
    split at h
    · cases h
    · exact (Except.ok.inj h).symm

theorem GoalRecord.settleActiveTime_eq (r : GoalRecord) (keepActive : Bool) (now : Int) :
    ∃ used started, r.settleActiveTime keepActive now =
      { r with timeUsedSeconds := used, activeStartedAt := started, updatedAt := now } := by
  rw [settleActiveTime]
  split
  · exact ⟨_, _, rfl⟩
  · exact ⟨r.timeUsedSeconds, _, rfl⟩

theorem pauseRecord_eq (r : GoalRecord) (inFlight : Bool) (now : Int) :
    r.status ≠ .active ∧ pauseRecord r inFlight now = r ∨
      r.status = .active ∧ ∃ used started, pauseRecord r inFlight now =
        { r with
          status := .paused
          timeUsedSeconds := used
          activeStartedAt := started
          updatedAt := now } := by
  rw [pauseRecord]
  split
  · next hactive =>
    obtain ⟨used, started, heq⟩ := r.settleActiveTime_eq false now
    refine .inr ⟨hactive, used, ?_⟩
    rw [heq]
    cases inFlight
    · exact ⟨started, rfl⟩
    · exact ⟨_, rfl⟩
  · next hactive => exact .inl ⟨hactive, rfl⟩

theorem resumeRecord_eq {r s : GoalRecord} {inFlight : Bool} {origin : Origin} {now : Int}
    (h : resumeRecord r inFlight origin now = some s) :
    (r.status ≠ .paused ∧ r.status ≠ .blocked) ∧ s = r ∨
      ∃ revision used started, r.revision ≤ revision ∧ s =
        { r with
          status := .active
          revision := revision
          timeUsedSeconds := used
          activeStartedAt := started
          updatedAt := now } := by
  rw [resumeRecord] at h
  split at h
  · split at h
    · cases h
    · obtain ⟨used, started, heq⟩ := r.settleActiveTime_eq false now
      rw [heq] at h
      cases h
      refine .inr ⟨_, used, _, ?_, rfl⟩
      dsimp only [GoalRecord.startTiming]
      split <;> omega
  · next hstatus => exact .inl ⟨not_or.mp hstatus, (Option.some.inj h).symm⟩

theorem beginAttempt_eq {r s : GoalRecord} {goalId : Text} {revision : Nat}
    {attemptIndex : Option Nat} {origin : Origin} {now : Int}
    (h : beginAttempt r goalId revision attemptIndex origin now = some s) :
    matchesActive r goalId revision ∧ (∀ i ∈ attemptIndex, i = r.attemptCount + 1) ∧
      ∃ started, s =
        { r with
          attemptCount := r.attemptCount + 1
          activeStartedAt := started
          updatedAt := now } := by
  rw [beginAttempt] at h
  split at h
  · next hguard =>
    cases h
    exact ⟨hguard.1, hguard.2.1, _, rfl⟩
  · cases h

theorem accumulateUsage_eq {r s : GoalRecord} {goalId : Text} {revision : Nat}
    {delta : TokenUsage} {attemptIndex : Option Nat} {origin : Origin} {now : Int}
    (h : accumulateUsage r goalId revision delta attemptIndex origin now = some s) :
    matchesInFlight r goalId revision ∧ (∀ i ∈ attemptIndex, matchesAttempt r i) ∧
      ∃ used started, s =
        { r with
          tokenUsage := r.tokenUsage.add delta
          timeUsedSeconds := used
          activeStartedAt := started
          updatedAt := now } := by
  rw [accumulateUsage] at h
  split at h
  · next hguard =>
    cases h
    refine ⟨hguard.1, hguard.2.1, ?_⟩
    split
    · obtain ⟨used, started, heq⟩ := r.settleActiveTime_eq true now
      rw [heq]
      exact ⟨used, started, rfl⟩
    · exact ⟨r.timeUsedSeconds, r.activeStartedAt, rfl⟩
  · cases h

theorem GoalRecord.assessed_eq (r : GoalRecord) (assessment : GoalAssessment) (now : Int) :
    ∃ status reason used started updated, r.assessed assessment now =
      { r with
        status := status
        lastStopReason := reason
        timeUsedSeconds := used
        activeStartedAt := started
        updatedAt := updated } ∧
      (status = .active → r.status = .active ∧ assessment.status = .continue) := by
  rw [assessed]
  split
  · obtain ⟨used, started, heq⟩ := r.settleActiveTime_eq false now
    rw [heq]
    exact ⟨_, _, _, _, _, rfl, fun h => (by cases h)⟩
  · obtain ⟨used, started, heq⟩ := r.settleActiveTime_eq false now
    rw [heq]
    exact ⟨_, _, _, _, _, rfl, fun h => (by cases h)⟩
  · next hcontinue =>
    split
    · obtain ⟨used, started, heq⟩ := r.settleActiveTime_eq true now
      rw [heq]
      exact ⟨r.status, r.lastStopReason, _, _, _, rfl, fun h => ⟨h, hcontinue⟩⟩
    · split
      · obtain ⟨used, started, heq⟩ := r.settleActiveTime_eq false now
        rw [heq]
        exact ⟨r.status, r.lastStopReason, _, _, _, rfl, fun h => ⟨h, hcontinue⟩⟩
      · exact ⟨r.status, r.lastStopReason, r.timeUsedSeconds, r.activeStartedAt, r.updatedAt, rfl,
          fun h => ⟨h, hcontinue⟩⟩

theorem applyAssessment_eq {r s : GoalRecord} {goalId : Text} {revision : Nat}
    {assessment : GoalAssessment} {attemptIndex : Nat} {usage : Option TokenUsage}
    {origin : Origin} {now : Int}
    (h : applyAssessment r goalId revision assessment attemptIndex usage origin now = some s) :
    matchesInFlight r goalId revision ∧ matchesAttempt r attemptIndex ∧
      ∃ status reason used started, s =
        { r with
          status := status
          lastAssessedAttempt := attemptIndex
          tokenUsage := usage.elim r.tokenUsage r.tokenUsage.add
          lastAssessment := some assessment
          lastStopReason := reason
          timeUsedSeconds := used
          activeStartedAt := started
          updatedAt := now } ∧
        (status = .active → r.status = .active ∧ assessment.status = .continue) := by
  rw [applyAssessment] at h
  split at h
  · next hguard =>
    cases h
    refine ⟨hguard.1, hguard.2.1, ?_⟩
    obtain ⟨status, reason, used, started, updated, heq, hstatus⟩ := GoalRecord.assessed_eq
      { r with
        lastAssessedAttempt := attemptIndex
        tokenUsage := usage.elim r.tokenUsage r.tokenUsage.add
        lastAssessment := some assessment } assessment now
    rw [heq]
    exact ⟨status, reason, used, started, rfl, hstatus⟩
  · cases h

end JiuwenSpec.Goal

import JiuwenSpec.Base.Run
import JiuwenSpec.Goal.GoalRecord

/-!
# Evaluation of an attempt

The strategies by which an evaluator comes to an assessment, and the limits it puts on top. What
the JSON of a transcript assessor says is a parameter.
Source: `harness/goal/evaluation.py`.
-/

namespace JiuwenSpec.Goal

open Base

inductive GoalStopStrategy where
  | agentReport
  | transcript
  | hybrid
deriving DecidableEq

/-- `GoalStopConfig`, as far as an evaluator reads it. -/
structure GoalStopConfig where
  strategy : GoalStopStrategy
  verificationInterval : Option Int
  maxAttempts : Option Int
  tokenBudget : Option Int

/-- `GoalStopConfig()`. -/
def GoalStopConfig.default : GoalStopConfig := ⟨.hybrid, none, none, none⟩

/-- `GoalAssessmentStatus.value`. -/
def GoalAssessmentStatus.value : GoalAssessmentStatus → Text
  | .continue => "continue".toList
  | .complete => "complete".toList
  | .blocked => "blocked".toList

def fallbackContinue : GoalAssessment where
  status := .continue
  evidence := "assessment_error: no reliable assessment available, treating as continue.".toList
  remainingWork := some "Continue making verifiable progress toward the objective.".toList
  nextInstruction := some "Continue advancing the objective with verifiable evidence.".toList

def assessAgentReport (agentReport : Option GoalAssessment) : GoalAssessment :=
  agentReport.getD {
    status := .continue
    evidence := "no_report: no submit_goal_report was accepted for this attempt.".toList
    remainingWork := some "Submit a valid goal report for this attempt.".toList
    nextInstruction := some ("Continue the goal attempt and submit a structured report ".toList ++
      "before finishing.".toList) }

section

variable (parseAssessmentJson : Text → Option GoalAssessment)

def assessTranscript (transcriptResponse : Option Text) : GoalAssessment :=
  (transcriptResponse.bind parseAssessmentJson).getD fallbackContinue

def verifyWithTranscript (assessment : GoalAssessment) (transcriptResponse : Option Text)
    (trustOnFailure : Bool) : GoalAssessment :=
  match transcriptResponse with
  | none =>
    if trustOnFailure then assessment
    else { assessment with
      status := .continue
      evidence := "transcript_unavailable: agent reported ".toList ++ assessment.status.value ++
        " but transcript assessor was not invoked for verification.".toList }
  | some response =>
    match parseAssessmentJson response with
    | none =>
      if trustOnFailure then assessment
      else { assessment with
        status := .continue
        evidence := "assessment_error: agent reported ".toList ++ assessment.status.value ++
          " but transcript assessor response could not be parsed.".toList }
    | some result => result

def shouldSpotCheck (config : GoalStopConfig) (r : GoalRecord) : Bool :=
  match config.verificationInterval with
  | none => false
  | some interval => 0 < interval && 0 < r.attemptCount && (r.attemptCount : Int) % interval = 0

def assessHybrid (config : GoalStopConfig) (r : GoalRecord) (agentReport : Option GoalAssessment)
    (transcriptResponse : Option Text) : GoalAssessment :=
  match agentReport with
  | none => assessTranscript parseAssessmentJson transcriptResponse
  | some report =>
    if report.status = .continue then
      if shouldSpotCheck config r then
        verifyWithTranscript parseAssessmentJson report transcriptResponse true
      else report
    else verifyWithTranscript parseAssessmentJson report transcriptResponse false

end

/-- `own or other`. -/
def limitOr (own other : Option Int) : Option Int :=
  match own with
  | none => other
  | some n => if n = 0 then other else some n

/-- `f"{used}/{limit}"`. -/
def usedOf (used limit : Int) : Text := (toString used).toList ++ '/' :: (toString limit).toList

def applyHardLimits (config : GoalStopConfig) (r : GoalRecord) (assessment : GoalAssessment) :
    GoalAssessment :=
  if assessment.status ≠ .continue then assessment
  else
    match limitOr config.maxAttempts r.maxAttempts, limitOr config.tokenBudget r.tokenBudget with
    | effectiveMax, effectiveBudget =>
      match effectiveMax.filter (· ≤ (r.attemptCount : Int)) with
      | some limit => { assessment with
          status := .blocked
          evidence := "max_attempts_exhausted: ".toList ++ usedOf r.attemptCount limit }
      | none =>
        match effectiveBudget.filter (· ≤ r.tokenUsage.totalTokens) with
        | some limit => { assessment with
            status := .blocked
            evidence := "token_budget_exhausted: ".toList ++
              usedOf r.tokenUsage.totalTokens limit }
        | none => assessment

/-- `GoalEvaluator.assess`. -/
def assess (parseAssessmentJson : Text → Option GoalAssessment) (config : GoalStopConfig)
    (r : GoalRecord) (agentReport : Option GoalAssessment) (transcriptResponse : Option Text) :
    GoalAssessment :=
  applyHardLimits config r <|
    match config.strategy with
    | .agentReport => assessAgentReport agentReport
    | .transcript => assessTranscript parseAssessmentJson transcriptResponse
    | .hybrid => assessHybrid parseAssessmentJson config r agentReport transcriptResponse

def WithinLimits (config : GoalStopConfig) (r : GoalRecord) : Prop :=
  (∀ m ∈ limitOr config.maxAttempts r.maxAttempts, (r.attemptCount : Int) < m) ∧
    ∀ b ∈ limitOr config.tokenBudget r.tokenBudget, r.tokenUsage.totalTokens < b

theorem withinLimits_of_continue {config : GoalStopConfig} {r : GoalRecord}
    {assessment : GoalAssessment}
    (h : (applyHardLimits config r assessment).status = .continue) : WithinLimits config r := by
  rw [applyHardLimits.eq_def] at h
  split at h
  · next hne => exact absurd h hne
  · dsimp only at h
    split at h
    · cases h
    · next hmax =>
      split at h
      · cases h
      · next hbudget =>
        constructor
        · intro m hm
          by_contra hle
          rw [Option.mem_def.mp hm, Option.filter_some_pos (by simpa using hle)] at hmax
          cases hmax
        · intro b hb
          by_contra hle
          rw [Option.mem_def.mp hb, Option.filter_some_pos (by simpa using hle)] at hbudget
          cases hbudget

end JiuwenSpec.Goal

/-!
## Attempts of a goal

The manager of a session's goal takes control calls, attempts that begin and report their use of
tokens, and calls of the driver that finish an attempt. A finish reads the record first and is
applied later, so that any other call can come between.
Source: `harness/goal/manager.py`, `driver.py`.
-/

namespace JiuwenSpec.Goal

open Base

structure Attempt where
  goalId : Text
  revision : Nat
  index : Nat

structure Finishing where
  attempt : Attempt
  assessment : GoalAssessment
  usage : Option TokenUsage

/-- The goal of a session, how many goals it has had, the finishes that are under way, and the
attempts that were settled. -/
structure Goals where
  sessionId : Text
  record : Option GoalRecord
  created : Nat
  finishing : List Finishing
  settled : List (Text × Nat)

def Goals.start (sessionId : Text) : Goals := ⟨sessionId, none, 0, [], []⟩

/-- What the host brings: the ids of new goals, the configuration of the evaluator, and the reading
of a transcript assessor's JSON. -/
structure Host where
  newId : Nat → Text
  config : GoalStopConfig
  parseAssessmentJson : Text → Option GoalAssessment

inductive Outcome where
  | completed
  | failed
  | interrupted
  | cancelled
  | streamClosed
deriving DecidableEq

/-- A call of `GoalAttemptDriver.finish`. -/
structure FinishCall where
  attempt : Attempt
  outcome : Outcome
  agentReport : Option GoalAssessment
  transcriptResponse : Option Text
  executionError : Option Text
  usage : Option TokenUsage

/-- The calls of a session, with the time of each. For `accumulateUsage`, `named` says whether the
caller gives `attempt_index`. -/
inductive GoalAction where
  | set (objective : Text) (overwriteConfirmed : Bool) (tokenBudget maxAttempts : Option Int)
    (now : Int)
  | pause (inFlight : Bool) (now : Int)
  | resume (inFlight : Bool) (origin : Origin) (now : Int)
  | clear
  | begin (goalId : Text) (revision : Nat) (attemptIndex : Option Nat) (origin : Origin)
    (now : Int)
  | accumulateUsage (attempt : Attempt) (named : Bool) (delta : TokenUsage) (origin : Origin)
    (now : Int)
  | finish (call : FinishCall)
  | apply (index : Nat) (origin : Origin) (now : Int)

def failedAssessment (executionError : Option Text) : GoalAssessment where
  status := .blocked
  evidence := "round_execution_error: ".toList ++
    (executionError.filter (· ≠ [])).getD "goal attempt failed".toList
  remainingWork := some "Resolve the execution error before resuming the goal.".toList
  nextInstruction := some ("Fix the underlying failure (for example model or API ".toList ++
    "configuration), then resume the goal.".toList)

def FinishCall.assessment (H : Host) (r : GoalRecord) (call : FinishCall) : GoalAssessment :=
  if call.outcome = .failed then failedAssessment call.executionError
  else assess H.parseAssessmentJson H.config
    { r with tokenUsage := call.usage.elim r.tokenUsage r.tokenUsage.add }
    call.agentReport call.transcriptResponse

/-- The first half of `finish`: what it is going to apply, where it goes on. -/
def FinishCall.read (H : Host) (record : Option GoalRecord) (call : FinishCall) :
    Option Finishing :=
  if call.outcome = .completed ∨ call.outcome = .failed then
    record.bind fun r =>
      if matchesInFlight r call.attempt.goalId call.attempt.revision ∧
        matchesAttempt r call.attempt.index then
        some ⟨call.attempt, call.assessment H r, call.usage⟩
      else none
  else none

def Goals.store (g : Goals) (stored : Option GoalRecord) : Goals :=
  stored.elim g fun r => { g with record := some r }

def Goals.applied (g : Goals) (attempt : Attempt) (stored : Option GoalRecord) : Goals :=
  stored.elim g fun r =>
    { g with record := some r, settled := (attempt.goalId, attempt.index) :: g.settled }

def step (H : Host) (g : Goals) : GoalAction → Goals
  | .set objective overwriteConfirmed tokenBudget maxAttempts now =>
    match setRecord g.record (H.newId g.created) g.sessionId objective overwriteConfirmed
      tokenBudget maxAttempts now with
    | .ok r => { g with record := some r, created := g.created + 1 }
    | .error _ => g
  | .pause inFlight now => { g with record := g.record.map fun r => pauseRecord r inFlight now }
  | .resume inFlight origin now =>
    g.store (g.record.bind fun r => resumeRecord r inFlight origin now)
  | .clear => { g with record := none }
  | .begin goalId revision attemptIndex origin now =>
    g.store (g.record.bind fun r => beginAttempt r goalId revision attemptIndex origin now)
  | .accumulateUsage attempt named delta origin now =>
    g.store (g.record.bind fun r => accumulateUsage r attempt.goalId attempt.revision delta
      (if named then some attempt.index else none) origin now)
  | .finish call =>
    (call.read H g.record).elim g fun f => { g with finishing := g.finishing ++ [f] }
  | .apply index origin now =>
    match g.finishing[index]? with
    | none => g
    | some f =>
      { g with finishing := g.finishing.eraseIdx index }.applied f.attempt
        (g.record.bind fun r => applyAssessment r f.attempt.goalId f.attempt.revision f.assessment
          f.attempt.index f.usage origin now)

def GoalAction.attempt? (g : Goals) : GoalAction → Option Attempt
  | .begin goalId revision (some attemptIndex) _ _ => some ⟨goalId, revision, attemptIndex⟩
  | .accumulateUsage attempt _ _ _ _ => some attempt
  | .finish call => some call.attempt
  | .apply index _ _ => g.finishing[index]?.map Finishing.attempt
  | _ => none

/-- The attempt is of a goal that was replaced or cleared, or of an earlier revision. -/
def Attempt.OfOldGeneration (a : Attempt) (record : Option GoalRecord) : Prop :=
  ∀ r ∈ record, a.goalId ≠ r.goalId ∨ a.revision < r.revision

/-- The attempt is of an earlier generation, or has an earlier index. -/
def Attempt.Late (a : Attempt) (record : Option GoalRecord) : Prop :=
  ∀ r ∈ record, a.goalId ≠ r.goalId ∨ a.revision < r.revision ∨ a.index < r.attemptCount

def GoalAction.Named : GoalAction → Prop
  | .accumulateUsage _ named _ _ _ => named = true
  | _ => True

def GoalAction.Replaces : GoalAction → Prop
  | .set _ _ _ _ _ => True
  | .clear => True
  | _ => False

def GoalAction.Resumes : GoalAction → Prop
  | .resume _ _ _ => True
  | _ => False

end JiuwenSpec.Goal

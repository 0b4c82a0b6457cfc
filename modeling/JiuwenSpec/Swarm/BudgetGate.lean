import JiuwenSpec.Base.Run

/-!
# The budget gate of a run

A call reads the token ledgers when it enters, before it waits for a slot and before its session
is opened, and not again when the backend call is started. Usage is reported while other calls
wait, and an answer that fails its schema starts the next attempt without a look at the ledgers.
Source: `agent_teams/workflow/engine/primitives.py`, `agent_teams/workflow/engine/budget.py`.
-/

namespace JiuwenSpec.Swarm

open Base

universe u

/-- `BudgetLedger`, without the tally by phases. -/
structure BudgetLedger where
  total : Option Int
  spent : Int := 0

def BudgetLedger.add (ledger : BudgetLedger) (tokens : Int) : BudgetLedger :=
  if 0 < tokens then { ledger with spent := ledger.spent + tokens } else ledger

def BudgetLedger.exhausted (ledger : BudgetLedger) : Bool :=
  match ledger.total with
  | none => false
  | some total => total ≤ ledger.spent

/-- The two ledgers of a run and where its calls stand: `waiting` in `gate.acquire()`, `opening` in
`open_session`, `calling` in the backend with the attempts that are left. `startedDry` holds the
calls that were started while a ledger was exhausted. -/
structure BudgetRun (κ : Type u) where
  session : BudgetLedger
  workflow : BudgetLedger
  retries : Nat
  waiting : List κ := []
  opening : List κ := []
  calling : List (κ × Nat) := []
  startedDry : List κ := []

/-- How an entering call goes on behind the gate: it is skipped at the spawn limit, waits for a
slot, or, for a person, opens its session or takes its turn at once. -/
inductive Passage where
  | skipped
  | waits
  | opens
  | calls
  deriving DecidableEq

/-- What happens next in a run. Usage is reported to the session's ledger or to that of the
workflow, by the backend or for a cached answer. -/
inductive BudgetEvent (κ : Type u) where
  | enter (call : κ) (passage : Passage)
  | admitted (call : κ) (opens : Bool)
  | opened (call : κ)
  | report (toSession : Bool) (tokens : Int)
  | answered (call : κ)
  | raised (call : κ)
  | invalid (call : κ)
  | cancel (call : κ)

variable {κ : Type u} [DecidableEq κ]

namespace BudgetRun

/-- `_budget_exhaustion`: one of the ledgers is exhausted. -/
def dry (rt : BudgetRun κ) : Bool := rt.session.exhausted || rt.workflow.exhausted

def startCall (rt : BudgetRun κ) (call : κ) (left : Nat) : BudgetRun κ :=
  { rt with
    calling := (call, left) :: rt.calling
    startedDry := if rt.dry then call :: rt.startedDry else rt.startedDry }

def leave (rt : BudgetRun κ) (call : κ) : BudgetRun κ :=
  { rt with calling := rt.calling.filter fun c => c.1 ≠ call }

def left? (rt : BudgetRun κ) (call : κ) : Option Nat :=
  (rt.calling.find? fun c => c.1 = call).map Prod.snd

def retry (rt : BudgetRun κ) (call : κ) : BudgetRun κ :=
  match rt.left? call with
  | some (left + 1) => (rt.leave call).startCall call left
  | _ => rt.leave call

/-- `_check_budget` and what follows it. -/
def enter (rt : BudgetRun κ) (call : κ) (passage : Passage) : BudgetRun κ :=
  if rt.dry then rt
  else
    match passage with
    | .skipped => rt
    | .waits => { rt with waiting := rt.waiting ++ [call] }
    | .opens => { rt with opening := rt.opening ++ [call] }
    | .calls => rt.startCall call rt.retries

/-- The gate lets a waiting call in; a turn may have to open its session first. -/
def letIn (rt : BudgetRun κ) (call : κ) (opens : Bool) : BudgetRun κ :=
  if call ∈ rt.waiting then
    let entered := { rt with waiting := rt.waiting.erase call }
    if opens then { entered with opening := entered.opening ++ [call] }
    else entered.startCall call rt.retries
  else rt

/-- The run after an event; what does not fit where the call stands changes nothing. -/
def step (rt : BudgetRun κ) : BudgetEvent κ → BudgetRun κ
  | .enter call passage => rt.enter call passage
  | .admitted call opens => rt.letIn call opens
  | .opened call =>
    if call ∈ rt.opening then
      { rt with opening := rt.opening.erase call }.startCall call rt.retries
    else rt
  | .report true tokens => { rt with session := rt.session.add tokens }
  | .report false tokens => { rt with workflow := rt.workflow.add tokens }
  | .answered call => rt.leave call
  | .raised call => if rt.dry then rt.leave call else rt.retry call
  | .invalid call => rt.retry call
  | .cancel call =>
    { rt.leave call with waiting := rt.waiting.erase call, opening := rt.opening.erase call }

/-- No call stands between the check and its start. -/
def Settled (rt : BudgetRun κ) : Prop := rt.waiting = [] ∧ rt.opening = []

/-- A ledger is used up only while no call stands between the check and its start, and an answer
fails its schema with an attempt left only while no ledger is used up. -/
def Covered (rt : BudgetRun κ) : BudgetEvent κ → Prop
  | .report toSession tokens => (rt.step (.report toSession tokens)).dry = true → rt.Settled
  | .invalid call => rt.dry = true → ∀ left, rt.left? call ≠ some (left + 1)
  | _ => True

/-- Nothing was started on a ledger that was used up, and nothing is about to be. -/
structure Sound (rt : BudgetRun κ) : Prop where
  started : rt.startedDry = []
  settled : rt.dry = true → rt.Settled

variable {rt : BudgetRun κ} {call : κ}

omit [DecidableEq κ] in
theorem Sound.startCall (h : rt.startedDry = []) (hwet : rt.dry = false) (left : Nat) :
    (rt.startCall call left).Sound where
  started := by
    rw [BudgetRun.startCall, hwet]
    exact h
  settled hdry := by
    have hsame : (rt.startCall call left).dry = rt.dry := rfl
    rw [hsame, hwet] at hdry
    cases hdry

theorem Sound.leave (h : rt.Sound) (call : κ) : (rt.leave call).Sound where
  started := h.started
  settled := h.settled

theorem Sound.retry (h : rt.Sound)
    (hleft : rt.dry = true → ∀ left, rt.left? call ≠ some (left + 1)) :
    (rt.retry call).Sound := by
  rw [BudgetRun.retry]
  split
  · next left heq =>
    refine Sound.startCall (h.leave call).started ?_ left
    by_contra hdry
    exact hleft (Bool.not_eq_false _ ▸ hdry) left heq
  · exact h.leave call

omit [DecidableEq κ] in
theorem Sound.wet_of_mem (h : rt.Sound) (hmem : call ∈ rt.waiting ∨ call ∈ rt.opening) :
    rt.dry = false := by
  by_contra hdry
  obtain ⟨hwaiting, hopening⟩ := h.settled (Bool.not_eq_false _ ▸ hdry)
  rw [hwaiting, hopening] at hmem
  rcases hmem with hmem | hmem <;> cases hmem

omit [DecidableEq κ] in
theorem Sound.enter (h : rt.Sound) (call : κ) (passage : Passage) :
    (rt.enter call passage).Sound := by
  rw [BudgetRun.enter.eq_def]
  by_cases hdry : rt.dry = true
  · rw [if_pos hdry]
    exact h
  · rw [if_neg hdry]
    rw [Bool.not_eq_true] at hdry
    have hwet : ∀ hd : rt.dry = true, False := fun hd => Bool.false_ne_true (hdry.symm.trans hd)
    cases passage with
    | skipped => exact h
    | waits => exact ⟨h.started, fun hd => (hwet hd).elim⟩
    | opens => exact ⟨h.started, fun hd => (hwet hd).elim⟩
    | calls => exact Sound.startCall h.started hdry _

theorem Sound.letIn (h : rt.Sound) (call : κ) (opens : Bool) : (rt.letIn call opens).Sound := by
  rw [BudgetRun.letIn]
  by_cases hmem : call ∈ rt.waiting
  · rw [if_pos hmem]
    have hwet := h.wet_of_mem (.inl hmem)
    cases opens with
    | true => exact ⟨h.started, fun hd => (Bool.false_ne_true (hwet.symm.trans hd)).elim⟩
    | false =>
      have hstarted : { rt with waiting := rt.waiting.erase call }.startedDry = [] := h.started
      exact Sound.startCall hstarted hwet _
  · rw [if_neg hmem]
    exact h

theorem sound_step {event : BudgetEvent κ} (h : rt.Sound) (hcovered : rt.Covered event) :
    (rt.step event).Sound := by
  cases event with
  | enter call passage => exact h.enter call passage
  | admitted call opens => exact h.letIn call opens
  | opened call =>
    rw [step]
    by_cases hmem : call ∈ rt.opening
    · rw [if_pos hmem]
      have hstarted : { rt with opening := rt.opening.erase call }.startedDry = [] := h.started
      exact Sound.startCall hstarted (h.wet_of_mem (.inr hmem)) _
    · rw [if_neg hmem]
      exact h
  | report toSession tokens =>
    cases toSession with
    | true => exact ⟨h.started, hcovered⟩
    | false => exact ⟨h.started, hcovered⟩
  | answered call => exact h.leave call
  | raised call =>
    rw [step]
    by_cases hdry : rt.dry = true
    · rw [if_pos hdry]
      exact h.leave call
    · rw [if_neg hdry]
      exact h.retry fun hd => absurd hd hdry
  | invalid call => exact h.retry hcovered
  | cancel call =>
    refine ⟨h.started, fun hd => ?_⟩
    obtain ⟨hwaiting, hopening⟩ := h.settled hd
    constructor
    · show rt.waiting.erase call = []
      rw [hwaiting]
      rfl
    · show rt.opening.erase call = []
      rw [hopening]
      rfl

end BudgetRun

def freshBudgetRun (session workflow : BudgetLedger) (retries : Nat) : BudgetRun κ :=
  { session := session, workflow := workflow, retries := retries }

/-- **No start on a used-up ledger.** In every run whose events are covered, whatever the script,
the gate and the interleaving, no backend call is started while a ledger is used up. -/
theorem none_started_dry (session workflow : BudgetLedger) (retries : Nat)
    (events : List (BudgetEvent κ))
    (h : Meets BudgetRun.step BudgetRun.Covered (freshBudgetRun session workflow retries) events)
    {rt : BudgetRun κ}
    (hrt : Reached BudgetRun.step (freshBudgetRun session workflow retries) events rt) :
    rt.startedDry = [] := by
  have hsound : rt.Sound := by
    apply reached_invariant (I := BudgetRun.Sound) _ _ h hrt
    · exact fun _ _ => BudgetRun.sound_step
    · exact ⟨rfl, fun _ => ⟨rfl, rfl⟩⟩
  exact hsound.started

/-- Two calls one after the other; the second is refused. -/
def usedUpBetween : List (BudgetEvent Nat) :=
  [.enter 0 .waits, .admitted 0 false, .report true 100, .answered 0, .enter 1 .waits]

theorem usedUpBetween_sound :
    (run BudgetRun.step (freshBudgetRun ⟨some 100, 0⟩ ⟨none, 0⟩ 1) usedUpBetween).startedDry =
      [] := by
  apply none_started_dry ⟨some 100, 0⟩ ⟨none, 0⟩ 1 usedUpBetween _ ⟨_, List.prefix_rfl, rfl⟩
  exact ⟨True.intro, True.intro, fun _ => ⟨rfl, rfl⟩, True.intro, True.intro, True.intro⟩

/-- Two parallel calls and a gate for one at a time: the second has passed the check when the first
uses up the ledger, and is started afterwards. -/
theorem waiting_call_started_dry :
    ¬ ∀ (session workflow : BudgetLedger) (retries : Nat) (events : List (BudgetEvent Nat)),
      (run BudgetRun.step (freshBudgetRun session workflow retries) events).startedDry = [] := by
  intro h
  have hstarted := h ⟨some 100, 0⟩ ⟨none, 0⟩ 1 [.enter 0 .waits, .admitted 0 false, .enter 1 .waits,
    .report true 100, .answered 0, .admitted 1 false]
  exact absurd hstarted (by decide)

end JiuwenSpec.Swarm

import JiuwenSpec.Base.Run

/-!
# The spawn limit of a run

An agent call reads the spawn counter before it waits for the admission gate and advances it
once it is let in; a session advances it when it opens. Between the two a call is suspended,
and others read the same counter.
Source: `agent_teams/workflow/engine/primitives.py`, `agent_teams/workflow/engine/runtime.py`.
-/

namespace JiuwenSpec.Swarm

open Base List

universe u v

/-- What asks for a slot: `agent()`, or a `send()` of an agent session or of a human one. -/
inductive CallKind (σ : Type v) where
  | agent
  | turn (session : σ)
  | humanTurn (session : σ)
  deriving DecidableEq

structure Call (κ : Type u) (σ : Type v) where
  id : κ
  kind : CallKind σ
  deriving DecidableEq

/-- How a call passes the journal lookup, `_check_abort` and `_check_budget`. -/
inductive Entry where
  | cacheHit
  | aborted
  | budgetExhausted
  | live
  deriving DecidableEq

/-- `Runtime`, as far as spawning goes, and where the calls of the run stand: `waiting` in
`gate.acquire()`, `opening` in `open_session`, `inFlight` in the backend. `sids` are the
sessions with a backend session. -/
structure Runtime (κ : Type u) (σ : Type v) where
  spawnLimit : Nat
  spawnCount : Nat := 0
  waiting : List (Call κ σ) := []
  opening : List (Call κ σ) := []
  inFlight : List (Call κ σ) := []
  sids : List σ := []

/-- What happens next in a run; between two of these every call is suspended. -/
inductive SpawnEvent (κ : Type u) (σ : Type v) where
  | start (call : Call κ σ) (entry : Entry)
  | acquired (call : Call κ σ)
  | opened (call : Call κ σ) (session : σ)
  | openFailed (call : Call κ σ)
  | finish (call : Call κ σ)
  | cancelWaiting (call : Call κ σ)
  | aclose (session : σ)

variable {κ : Type u} {σ : Type v} [DecidableEq κ] [DecidableEq σ]

namespace Runtime

/-- `_ensure_open` up to `open_session`: a session that is not open counts as one agent,
unless a person answers. -/
def ensureOpen (rt : Runtime κ σ) (call : Call κ σ) (session : σ) (human : Bool) : Runtime κ σ :=
  if session ∈ rt.sids then { rt with inFlight := rt.inFlight ++ [call] }
  else
    { rt with
      spawnCount := if human then rt.spawnCount else rt.spawnCount + 1
      opening := rt.opening ++ [call] }

/-- The spawn check of `agent` and of `_drive`: at the limit the call is skipped, below it
waits at the gate. A human turn goes through without. -/
def drive (rt : Runtime κ σ) (call : Call κ σ) : Runtime κ σ :=
  match call.kind with
  | .humanTurn session => rt.ensureOpen call session true
  | _ =>
    if rt.spawnLimit ≤ rt.spawnCount then rt
    else { rt with waiting := rt.waiting ++ [call] }

def acquired (rt : Runtime κ σ) (call : Call κ σ) : Runtime κ σ :=
  if call ∈ rt.waiting then
    let entered := { rt with waiting := rt.waiting.erase call }
    match call.kind with
    | .agent =>
      { entered with
        spawnCount := entered.spawnCount + 1
        inFlight := entered.inFlight ++ [call] }
    | .turn session => entered.ensureOpen call session false
    | .humanTurn _ => entered
  else rt

/-- The runtime after an event; what does not fit where the call stands changes nothing. -/
def step (rt : Runtime κ σ) : SpawnEvent κ σ → Runtime κ σ
  | .start call .live => rt.drive call
  | .start _ _ => rt
  | .acquired call => rt.acquired call
  | .opened call session =>
    if call ∈ rt.opening then
      { rt with
        opening := rt.opening.erase call
        inFlight := rt.inFlight ++ [call]
        sids := session :: rt.sids }
    else rt
  | .openFailed call => { rt with opening := rt.opening.erase call }
  | .finish call => { rt with inFlight := rt.inFlight.erase call }
  | .cancelWaiting call => { rt with waiting := rt.waiting.erase call }
  | .aclose session => { rt with sids := rt.sids.filter (fun s => s ≠ session) }

/-- Whether a call would be counted if it were let in now. -/
def spawns (sids : List σ) (call : Call κ σ) : Bool :=
  match call.kind with
  | .agent => true
  | .turn session => decide (session ∉ sids)
  | .humanTurn _ => false

/-- The calls that passed the check and are still to be counted. -/
def pending (rt : Runtime κ σ) : Nat := rt.waiting.countP (spawns rt.sids)

/-- No event opens more than what is left: a call passes the check only when the counter and
the calls still to be counted leave room for it, and a session is closed only when they leave
room for its waiting turns. -/
def LeavesRoom (rt : Runtime κ σ) : SpawnEvent κ σ → Prop
  | .start call .live =>
    rt.spawnCount < rt.spawnLimit → spawns rt.sids call = true →
      rt.spawnCount + rt.pending < rt.spawnLimit
  | .aclose session =>
    session ∈ rt.sids →
      rt.spawnCount + rt.pending + rt.waiting.countP (fun c => c.kind = .turn session) ≤
        rt.spawnLimit
  | _ => True

def WithinLimit (rt : Runtime κ σ) : Prop := rt.spawnCount + rt.pending ≤ rt.spawnLimit

variable {call : Call κ σ}

private theorem countP_erase {p : Call κ σ → Bool} {l : List (Call κ σ)}
    (h : call ∈ l) : l.countP p = (l.erase call).countP p + if p call then 1 else 0 := by
  rw [(perm_cons_erase h).countP_eq p, countP_cons]

private theorem countP_erase_le (p : Call κ σ → Bool) (l : List (Call κ σ)) (call : Call κ σ) :
    (l.erase call).countP p ≤ l.countP p :=
  erase_sublist.countP_le

omit [DecidableEq κ] in
private theorem spawns_cons {sids : List σ} {session : σ}
    (h : spawns (session :: sids) call = true) : spawns sids call = true := by
  unfold spawns at h ⊢
  cases hkind : call.kind with
  | agent => rfl
  | turn other =>
    simp only [hkind, decide_eq_true_eq, mem_cons, not_or] at h
    exact decide_eq_true h.2
  | humanTurn other => simp [hkind] at h

omit [DecidableEq κ] in
private theorem ensureOpen_counts (rt : Runtime κ σ) (call : Call κ σ) (session : σ)
    (human : Bool) :
    (rt.ensureOpen call session human).spawnCount =
        rt.spawnCount + (if session ∉ rt.sids ∧ human = false then 1 else 0) ∧
      (rt.ensureOpen call session human).waiting = rt.waiting ∧
      (rt.ensureOpen call session human).sids = rt.sids ∧
      (rt.ensureOpen call session human).spawnLimit = rt.spawnLimit := by
  unfold ensureOpen
  split
  · next hopen => simp [hopen]
  · next hclosed => cases human <;> simp [hclosed]

variable {rt : Runtime κ σ}

omit [DecidableEq κ] in
private theorem withinLimit_drive (h : rt.WithinLimit)
    (hroom : rt.LeavesRoom (.start call .live)) : (rt.drive call).WithinLimit := by
  have hwait : rt.spawnCount < rt.spawnLimit →
      WithinLimit { rt with waiting := rt.waiting ++ [call] } := by
    intro hpassed
    show rt.spawnCount + (rt.waiting ++ [call]).countP (spawns rt.sids) ≤ rt.spawnLimit
    rw [countP_append, countP_singleton]
    cases hspawns : spawns rt.sids call with
    | true =>
      have := hroom hpassed hspawns
      simp only [if_true]
      unfold pending at this
      omega
    | false =>
      simp only [Bool.false_eq_true, if_false]
      exact h
  unfold drive
  cases hkind : call.kind with
  | humanTurn session =>
    obtain ⟨hcount, hwaiting, hsids, hlimit⟩ := ensureOpen_counts rt call session true
    simp only [WithinLimit, pending, hcount, hwaiting, hsids, hlimit, Bool.true_eq_false,
      and_false, if_false]
    exact h
  | agent =>
    simp only
    split
    · exact h
    · exact hwait (by omega)
  | turn session =>
    simp only
    split
    · exact h
    · exact hwait (by omega)

private theorem withinLimit_acquired (h : rt.WithinLimit) : (rt.acquired call).WithinLimit := by
  unfold acquired
  split
  · next hwaits =>
    have hpending := countP_erase (p := spawns rt.sids) hwaits
    unfold WithinLimit pending at h
    cases hkind : call.kind with
    | agent =>
      have hspawns : spawns rt.sids call = true := by simp [spawns, hkind]
      rw [hspawns, if_pos rfl] at hpending
      show rt.spawnCount + 1 + (rt.waiting.erase call).countP (spawns rt.sids) ≤ rt.spawnLimit
      omega
    | turn session =>
      obtain ⟨hcount, hwaiting, hsids, hlimit⟩ :=
        ensureOpen_counts { rt with waiting := rt.waiting.erase call } call session false
      simp only [WithinLimit, pending, hcount, hwaiting, hsids, hlimit]
      have hspawns : spawns rt.sids call = decide (session ∉ rt.sids) := by simp [spawns, hkind]
      rw [hspawns] at hpending
      simp only [decide_eq_true_eq, and_true] at hpending ⊢
      omega
    | humanTurn session =>
      show rt.spawnCount + (rt.waiting.erase call).countP (spawns rt.sids) ≤ rt.spawnLimit
      omega
  · exact h

private theorem withinLimit_aclose {session : σ} (h : rt.WithinLimit)
    (hroom : rt.LeavesRoom (.aclose session)) : (rt.step (.aclose session)).WithinLimit := by
  show rt.spawnCount + rt.waiting.countP (spawns (rt.sids.filter (fun s => s ≠ session))) ≤
    rt.spawnLimit
  by_cases hopen : session ∈ rt.sids
  · have hsum : ∀ l : List (Call κ σ),
        l.countP (spawns (rt.sids.filter (fun s => s ≠ session))) ≤
          l.countP (spawns rt.sids) + l.countP (fun c => c.kind = .turn session) := by
      intro l
      induction l with
      | nil => simp
      | cons c l ih =>
        have hone : (if spawns (rt.sids.filter (fun s => s ≠ session)) c then 1 else 0) ≤
            (if spawns rt.sids c then 1 else 0) +
              (if decide (c.kind = .turn session) then 1 else 0) := by
          unfold spawns
          cases hkind : c.kind with
          | agent => simp
          | turn other =>
            by_cases hsame : other = session
            · simp [hsame]
            · simp [hsame]
          | humanTurn other => simp
        simp only [countP_cons]
        omega
    have := hsum rt.waiting
    have := hroom hopen
    unfold pending at this
    omega
  · have hsame : rt.sids.filter (fun s => s ≠ session) = rt.sids := by
      apply filter_eq_self.mpr
      intro s hs
      apply decide_eq_true
      rintro rfl
      exact hopen hs
    rw [hsame]
    exact h

theorem withinLimit_step {event : SpawnEvent κ σ} (h : rt.WithinLimit)
    (hroom : rt.LeavesRoom event) : (rt.step event).WithinLimit := by
  cases event with
  | start call entry =>
    cases entry with
    | live => exact withinLimit_drive h hroom
    | cacheHit => exact h
    | aborted => exact h
    | budgetExhausted => exact h
  | acquired call => exact withinLimit_acquired h
  | opened call session =>
    simp only [step]
    split
    · have hfewer : rt.waiting.countP (spawns (session :: rt.sids)) ≤
          rt.waiting.countP (spawns rt.sids) :=
        countP_mono_left fun c _ => spawns_cons
      unfold WithinLimit pending at h ⊢
      show rt.spawnCount + rt.waiting.countP (spawns (session :: rt.sids)) ≤ rt.spawnLimit
      omega
    · exact h
  | openFailed call => exact h
  | finish call => exact h
  | cancelWaiting call =>
    have hfewer := countP_erase_le (spawns rt.sids) rt.waiting call
    unfold WithinLimit pending at h
    show rt.spawnCount + (rt.waiting.erase call).countP (spawns rt.sids) ≤ rt.spawnLimit
    omega
  | aclose session => exact withinLimit_aclose h hroom

theorem spawnLimit_step (rt : Runtime κ σ) (event : SpawnEvent κ σ) :
    (rt.step event).spawnLimit = rt.spawnLimit := by
  have hopen : ∀ (rt : Runtime κ σ) call session human,
      (rt.ensureOpen call session human).spawnLimit = rt.spawnLimit :=
    fun rt call session human => (ensureOpen_counts rt call session human).2.2.2
  cases event with
  | start call entry =>
    cases entry with
    | live =>
      show (rt.drive call).spawnLimit = _
      unfold drive
      split
      · exact hopen ..
      · split <;> rfl
    | _ => rfl
  | acquired call =>
    show (rt.acquired call).spawnLimit = _
    unfold acquired
    split
    · cases call.kind with
      | agent => rfl
      | turn session => exact hopen ..
      | humanTurn session => rfl
    · rfl
  | opened call session =>
    simp only [step]
    split <;> rfl
  | _ => rfl

end Runtime

def freshRuntime (spawnLimit : Nat) : Runtime κ σ := { spawnLimit := spawnLimit }

/-- In every run whose events leave room, whatever the script, the gate and the interleaving,
the agents spawned never exceed the limit. -/
theorem spawnCount_le_limit (spawnLimit : Nat) (events : List (SpawnEvent κ σ))
    (h : Meets Runtime.step Runtime.LeavesRoom (freshRuntime spawnLimit) events)
    {rt : Runtime κ σ} (hrt : Reached Runtime.step (freshRuntime spawnLimit) events rt) :
    rt.spawnCount ≤ spawnLimit := by
  have hinvariant : rt.WithinLimit ∧ rt.spawnLimit = spawnLimit := by
    apply reached_invariant (I := fun rt => rt.WithinLimit ∧ rt.spawnLimit = spawnLimit) _ _ h hrt
    · intro rt event hrt hroom
      exact ⟨Runtime.withinLimit_step hrt.1 hroom,
        (Runtime.spawnLimit_step rt event).trans hrt.2⟩
    · exact ⟨Nat.zero_le _, rfl⟩
  have hwithin := hinvariant.1
  unfold Runtime.WithinLimit at hwithin
  omega

def agentThenSession : List (SpawnEvent Nat Nat) :=
  [.start ⟨0, .agent⟩ .live, .acquired ⟨0, .agent⟩, .start ⟨1, .turn 7⟩ .live, .acquired ⟨1, .turn 7⟩]

/-- They fit a limit of two. -/
theorem agentThenSession_within_limit :
    (run Runtime.step (freshRuntime 2) agentThenSession).spawnCount ≤ 2 := by
  apply spawnCount_le_limit 2 agentThenSession _ ⟨_, prefix_rfl, rfl⟩
  refine ⟨fun _ _ => ?_, True.intro, fun _ _ => ?_, True.intro, True.intro⟩
  · decide
  · decide

/-- Three parallel agents under a limit of two, the gate letting one in at a time: the second
and the third both pass the check while the first runs. -/
theorem third_agent_exceeds_limit :
    (run Runtime.step (freshRuntime 2)
      [.start ⟨0, .agent⟩ .live, .acquired ⟨0, .agent⟩, .start ⟨1, .agent⟩ .live,
        .start ⟨2, .agent⟩ .live, .finish ⟨0, .agent⟩, .acquired ⟨1, .agent⟩,
        .finish ⟨1, .agent⟩, .acquired ⟨2, .agent⟩] : Runtime Nat Nat).spawnCount = 3 := by
  decide

end JiuwenSpec.Swarm

import JiuwenSpec.Callback.Chain

/-!
# Errors while an event is triggered

A trigger runs the filters of each callback and the callback itself in one block. An exception in
it is handled, and the trigger goes on; a callback ends the trigger with an `AbortError`.
Source: `core/runner/callback/framework.py`.
-/

namespace JiuwenSpec.Callback.Isolation

open List

variable {Args Kwargs Value Error : Type}

inductive Raised (Error : Type) where
  /-- `AbortError`, with its cause. -/
  | abort (cause : Option Error)
  | error (error : Error)
  /-- A function that has no `__name__`. -/
  | attributeError
  /-- `start_time` before it is set. -/
  | unboundLocalError

inductive FilterAction where
  | continue
  | stop
  | skip
  | modify
deriving DecidableEq

structure FilterResult (Args Kwargs : Type) where
  action : FilterAction
  modifiedArgs : Option Args
  modifiedKwargs : Option Kwargs

inductive Outcome (α Error : Type) where
  | value (result : α)
  | raised (exception : Raised Error)

/-- How a hook ends; an exception of it is logged under the name of the hook, if it has one. -/
inductive HookOutcome where
  | done
  | raised (named : Bool)

/-- The callbacks of an event with what runs around them: the filters of the callback at a place,
the callback, the hooks of the event, and the hooks for an error at a place. -/
structure Event (Args Kwargs Value Error : Type) where
  callbacks : List Chain.CallbackInfo
  named : FunctionId → Bool
  filters : Nat → List (Args → Kwargs → Outcome (FilterResult Args Kwargs) Error)
  call : Nat → Args → Kwargs → Outcome Value Error
  beforeHooks : List HookOutcome
  errorHooks : Nat → List HookOutcome
  afterHooks : List HookOutcome
  isEmptyArgs : Args → Bool
  isEmptyKwargs : Kwargs → Bool
  enableLogging : Bool

/-- What a trigger has done: the results, the places of the callbacks called, the once-only ones it
has disabled, and whether `start_time` is set. -/
structure Progress (Value : Type) where
  results : List Value
  ran : List Nat
  disabled : List Nat
  started : Bool

/-- How the loop of a trigger is left before its end. -/
inductive Exit (Error : Type) where
  | stopped
  | raised (exception : Raised Error)

namespace Event

def executeHooks : List HookOutcome → Option (Raised Error)
  | [] => none
  | .done :: hooks => executeHooks hooks
  | .raised true :: hooks => executeHooks hooks
  | .raised false :: _ => some .attributeError

def applyFilters : List (Args → Kwargs → Outcome (FilterResult Args Kwargs) Error) → Args → Kwargs →
    Outcome (FilterResult Args Kwargs) Error
  | [], args, kwargs => .value ⟨.continue, some args, some kwargs⟩
  | filter :: filters, args, kwargs =>
    match filter args kwargs with
    | .raised exception => .raised exception
    | .value result =>
      match result.action with
      | .stop => .value result
      | .skip => .value result
      | .modify =>
        applyFilters filters (result.modifiedArgs.getD args) (result.modifiedKwargs.getD kwargs)
      | .continue => applyFilters filters args kwargs

/-- What comes of a callback: its filters stop the event, skip the callback or raise, or it is
called. -/
inductive Turn (Value Error : Type) where
  | stopped
  | skipped
  | filterRaised (exception : Raised Error)
  | called (outcome : Outcome Value Error)

/-- `modified or given`. -/
def orGiven {α : Type} (isEmpty : α → Bool) (modified : Option α) (given : α) : α :=
  match modified with
  | some value => if isEmpty value then given else value
  | none => given

def turn (e : Event Args Kwargs Value Error) (args : Args) (kwargs : Kwargs) (i : Nat) :
    Turn Value Error :=
  match applyFilters (e.filters i) args kwargs with
  | .raised exception => .filterRaised exception
  | .value result =>
    match result.action with
    | .stop => .stopped
    | .skip => .skipped
    | _ => .called (e.call i (orGiven e.isEmptyArgs result.modifiedArgs args)
        (orGiven e.isEmptyKwargs result.modifiedKwargs kwargs))

/-- The handlers of `AbortError` and of other exceptions. -/
def handle (e : Event Args Kwargs Value Error) (info : Chain.CallbackInfo) (i : Nat)
    (exception : Raised Error) (s : Progress Value) : Progress Value × Option (Exit Error) :=
  if ¬ s.started then (s, some (.raised .unboundLocalError))
  else if ¬ e.named info.callback then (s, some (.raised .attributeError))
  else
    match executeHooks (e.errorHooks i) with
    | some escaped => (s, some (.raised escaped))
    | none =>
      match exception with
      | .abort cause => (s, some (.raised (.abort cause)))
      | _ => (s, none)

/-- The body of the loop of `trigger`, for a callback that is neither disabled nor a transform. -/
def runCallback (e : Event Args Kwargs Value Error) (args : Args) (kwargs : Kwargs)
    (info : Chain.CallbackInfo) (i : Nat) (s : Progress Value) :
    Progress Value × Option (Exit Error) :=
  match e.turn args kwargs i with
  | .filterRaised exception => e.handle info i exception s
  | .stopped => (s, some .stopped)
  | .skipped =>
    if e.enableLogging ∧ ¬ e.named info.callback then e.handle info i .attributeError s
    else (s, none)
  | .called (.raised exception) =>
    e.handle info i exception { s with ran := s.ran ++ [i], started := true }
  | .called (.value result) =>
    -- The name is needed for the circuit breakers, before the result is kept.
    if ¬ e.named info.callback then
      e.handle info i .attributeError { s with ran := s.ran ++ [i], started := true }
    else
      ({ results := s.results ++ [result]
         ran := s.ran ++ [i]
         disabled := if info.once then s.disabled ++ [info.id] else s.disabled
         started := true }, none)

/-- The loop of `trigger` over the callbacks from a place on. -/
def loop (e : Event Args Kwargs Value Error) (args : Args) (kwargs : Kwargs) :
    List Chain.CallbackInfo → Nat → Progress Value → Progress Value × Option (Exit Error)
  | [], _, s => (s, none)
  | info :: infos, i, s =>
    if info.enabled ∧ info.callbackType ≠ "transform" then
      match e.runCallback args kwargs info i s with
      | (t, some exit) => (t, some exit)
      | (t, none) => e.loop args kwargs infos (i + 1) t
    else e.loop args kwargs infos (i + 1) s

/-- `trigger`, with what it has done and the exception it ends with. -/
def trigger (e : Event Args Kwargs Value Error) (args : Args) (kwargs : Kwargs) :
    Progress Value × Option (Raised Error) :=
  match executeHooks e.beforeHooks with
  | some escaped => (⟨[], [], [], false⟩, some escaped)
  | none =>
    match e.loop args kwargs e.callbacks 0 ⟨[], [], [], false⟩ with
    | (s, some (.raised exception)) => (s, some exception)
    | (s, _) => (s, executeHooks e.afterHooks)

variable (e : Event Args Kwargs Value Error) (args : Args) (kwargs : Kwargs)

def TakesPart (i : Nat) (info : Chain.CallbackInfo) : Prop :=
  e.callbacks[i]? = some info ∧ info.enabled = true ∧ info.callbackType ≠ "transform"

def Runs (i : Nat) : Prop :=
  (∃ info, e.TakesPart i info) ∧ ∃ outcome, e.turn args kwargs i = .called outcome

def Stops (i : Nat) : Prop := (∃ info, e.TakesPart i info) ∧ e.turn args kwargs i = .stopped

/-- The callback at a place raises `AbortError`. -/
def Aborts (i : Nat) : Prop :=
  (∃ info, e.TakesPart i info) ∧ ∃ cause, e.turn args kwargs i = .called (.raised (.abort cause))

def valueAt (i : Nat) : Option Value :=
  match e.turn args kwargs i with
  | .called (.value result) => some result
  | _ => none

/-- A trigger isolates errors: it raises only what a callback aborts it with, and else runs each
callback its filters let run, in order, and returns the results of those that succeed. -/
structure Isolates (run : Progress Value × Option (Raised Error)) : Prop where
  raises : run.2.isSome = true → ∃ i ∈ run.1.ran, e.Aborts args kwargs i
  runs : run.2 = none → ∀ i, i ∈ run.1.ran ↔
    e.Runs args kwargs i ∧ ∀ j < i, ¬ e.Stops args kwargs j
  inOrder : run.1.ran.Pairwise (· < ·)
  results : run.2 = none → run.1.results = run.1.ran.filterMap (e.valueAt args kwargs)

def Unlogged (hooks : List HookOutcome) : Prop := HookOutcome.raised false ∈ hooks

/-- At a place an exception is raised that the handlers do not get through with: no callback has
been called before, the callback has no name, an error hook has none, or a filter has aborted. -/
def Mishap (i : Nat) : Prop :=
  ∃ info, e.TakesPart i info ∧
    match e.turn args kwargs i with
    | .stopped => False
    | .skipped => e.enableLogging = true ∧ e.named info.callback = false
    | .filterRaised exception => (∀ j < i, ¬ e.Runs args kwargs j) ∨
        e.named info.callback = false ∨ Unlogged (e.errorHooks i) ∨
        ∃ cause, exception = .abort cause
    | .called (.value _) => e.named info.callback = false
    | .called (.raised exception) => (∀ cause, exception ≠ .abort cause) ∧
        (e.named info.callback = false ∨ Unlogged (e.errorHooks i))

def OverBefore (i : Nat) : Prop :=
  ∃ j < i, e.Stops args kwargs j ∨ e.Aborts args kwargs j

/-- A callback aborts the trigger, which no filter has stopped before. -/
def Aborted : Prop := ∃ i, e.Aborts args kwargs i ∧ ∀ j < i, ¬ e.Stops args kwargs j

variable {e args kwargs} {info : Chain.CallbackInfo} {i : Nat}

theorem executeHooks_eq_none_iff (hooks : List HookOutcome) :
    (executeHooks hooks : Option (Raised Error)) = none ↔ ¬ Unlogged hooks := by
  induction hooks with
  | nil => simp [executeHooks, Unlogged]
  | cons hook hooks ih =>
    match hook with
    | .done => simpa [executeHooks, Unlogged] using ih
    | .raised true => simpa [executeHooks, Unlogged] using ih
    | .raised false => simp [executeHooks, Unlogged]

theorem handle_cases (exception : Raised Error) (s : Progress Value) :
    (∃ escaped, e.handle info i exception s = (s, some (.raised escaped)) ∧
      (s.started = false ∨ e.named info.callback = false ∨ Unlogged (e.errorHooks i) ∨
        ∃ cause, exception = .abort cause)) ∨
    (e.handle info i exception s = (s, none) ∧ s.started = true ∧
      e.named info.callback = true ∧ ¬ Unlogged (e.errorHooks i) ∧
      ∀ cause, exception ≠ .abort cause) := by
  unfold handle
  by_cases hstarted : s.started = true
  · rw [if_neg (not_not.mpr hstarted)]
    by_cases hnamed : e.named info.callback = true
    · rw [if_neg (not_not.mpr hnamed)]
      cases hhooks : (executeHooks (e.errorHooks i) : Option (Raised Error)) with
      | some escaped =>
        have hunlogged : Unlogged (e.errorHooks i) := by
          by_contra h
          rw [(executeHooks_eq_none_iff _).mpr h] at hhooks
          cases hhooks
        exact .inl ⟨escaped, rfl, .inr (.inr (.inl hunlogged))⟩
      | none =>
        have hlogged := (executeHooks_eq_none_iff _).mp hhooks
        cases exception with
        | abort cause => exact .inl ⟨_, rfl, .inr (.inr (.inr ⟨cause, rfl⟩))⟩
        | _ => exact .inr ⟨rfl, hstarted, hnamed, hlogged, fun cause h => by cases h⟩
    · rw [if_pos hnamed]
      exact .inl ⟨_, rfl, .inr (.inl (Bool.not_eq_true _ ▸ hnamed))⟩
  · rw [if_pos hstarted]
    exact .inl ⟨_, rfl, .inl (Bool.not_eq_true _ ▸ hstarted)⟩

/-- Nothing has ended the trigger before a place. -/
def Undecided (e : Event Args Kwargs Value Error) (args : Args) (kwargs : Kwargs) (i : Nat) :
    Prop :=
  ∀ j < i, ¬ e.Stops args kwargs j ∧ ¬ e.Aborts args kwargs j ∧ ¬ e.Mishap args kwargs j

/-- The loop of a trigger stands at a place: it has called what its filters let run, and nothing has
ended it. -/
structure Ready (e : Event Args Kwargs Value Error) (args : Args) (kwargs : Kwargs) (i : Nat)
    (s : Progress Value) : Prop where
  ran : ∀ j, j ∈ s.ran ↔ j < i ∧ e.Runs args kwargs j
  inOrder : s.ran.Pairwise (· < ·)
  results : s.results = s.ran.filterMap (e.valueAt args kwargs)
  started : s.started = true ↔ ∃ j < i, e.Runs args kwargs j
  undecided : Undecided e args kwargs i

variable {s t : Progress Value}

theorem undecided_succ (h : Undecided e args kwargs i) (hstops : ¬ e.Stops args kwargs i)
    (haborts : ¬ e.Aborts args kwargs i) (hmishap : ¬ e.Mishap args kwargs i) :
    Undecided e args kwargs (i + 1) := by
  intro j hj
  rcases Nat.lt_succ_iff_lt_or_eq.mp hj with hlt | rfl
  · exact h j hlt
  · exact ⟨hstops, haborts, hmishap⟩

theorem Ready.skip (h : Ready e args kwargs i s) (hruns : ¬ e.Runs args kwargs i)
    (hstops : ¬ e.Stops args kwargs i) (haborts : ¬ e.Aborts args kwargs i)
    (hmishap : ¬ e.Mishap args kwargs i) : Ready e args kwargs (i + 1) s where
  ran := by
    intro j
    rw [h.ran j, Nat.lt_succ_iff_lt_or_eq]
    exact ⟨fun ⟨hlt, hj⟩ => ⟨.inl hlt, hj⟩, fun ⟨hlt, hj⟩ =>
      ⟨hlt.resolve_right fun heq => hruns (heq ▸ hj), hj⟩⟩
  inOrder := h.inOrder
  results := h.results
  started := by
    rw [h.started]
    constructor
    · rintro ⟨j, hlt, hj⟩
      exact ⟨j, Nat.lt_succ_of_lt hlt, hj⟩
    · rintro ⟨j, hlt, hj⟩
      rcases Nat.lt_succ_iff_lt_or_eq.mp hlt with hlt | rfl
      · exact ⟨j, hlt, hj⟩
      · exact absurd hj hruns
  undecided := undecided_succ h.undecided hstops haborts hmishap

theorem Ready.mem_ran (h : Ready e args kwargs i s) (hran : t.ran = s.ran ++ [i])
    (hruns : e.Runs args kwargs i) (j : Nat) :
    j ∈ t.ran ↔ j < i + 1 ∧ e.Runs args kwargs j := by
  rw [hran, mem_append, mem_singleton, h.ran j, Nat.lt_succ_iff_lt_or_eq]
  constructor
  · rintro (⟨hlt, hj⟩ | rfl)
    · exact ⟨.inl hlt, hj⟩
    · exact ⟨.inr rfl, hruns⟩
  · rintro ⟨hlt | rfl, hj⟩
    · exact .inl ⟨hlt, hj⟩
    · exact .inr rfl

theorem Ready.pairwise_ran (h : Ready e args kwargs i s) (hran : t.ran = s.ran ++ [i]) :
    t.ran.Pairwise (· < ·) := by
  rw [hran, pairwise_append]
  exact ⟨h.inOrder, pairwise_singleton _ _, fun j hj k hk =>
    mem_singleton.mp hk ▸ ((h.ran j).mp hj).1⟩

theorem Ready.run (h : Ready e args kwargs i s) (hran : t.ran = s.ran ++ [i])
    (hresults : t.results = s.results ++ (e.valueAt args kwargs i).toList)
    (hstarted : t.started = true) (hruns : e.Runs args kwargs i)
    (haborts : ¬ e.Aborts args kwargs i) (hmishap : ¬ e.Mishap args kwargs i) :
    Ready e args kwargs (i + 1) t where
  ran := h.mem_ran hran hruns
  inOrder := h.pairwise_ran hran
  results := by
    rw [hresults, hran, filterMap_append, h.results]
    cases hvalue : e.valueAt args kwargs i <;> simp [hvalue]
  started := iff_of_true hstarted ⟨i, Nat.lt_succ_self i, hruns⟩
  undecided := by
    refine undecided_succ h.undecided (fun hstops => ?_) haborts hmishap
    obtain ⟨-, outcome, hturn⟩ := hruns
    rw [hstops.2] at hturn
    cases hturn

inductive EndsAt (e : Event Args Kwargs Value Error) (args : Args) (kwargs : Kwargs) (i : Nat)
    (s t : Progress Value) : Exit Error → Prop where
  | stopped (h : e.Stops args kwargs i) (heq : t = s) : EndsAt e args kwargs i s t .stopped
  | aborted (exception : Raised Error) (h : e.Aborts args kwargs i) (hran : t.ran = s.ran ++ [i]) :
    EndsAt e args kwargs i s t (.raised exception)
  | mishap (exception : Raised Error) (h : e.Mishap args kwargs i)
    (hran : t.ran = s.ran ∨ t.ran = s.ran ++ [i]) : EndsAt e args kwargs i s t (.raised exception)

theorem mishap_iff (args : Args) (kwargs : Kwargs) (hinfo : e.TakesPart i info) :
    e.Mishap args kwargs i ↔
    match e.turn args kwargs i with
    | .stopped => False
    | .skipped => e.enableLogging = true ∧ e.named info.callback = false
    | .filterRaised exception => (∀ j < i, ¬ e.Runs args kwargs j) ∨
        e.named info.callback = false ∨ Unlogged (e.errorHooks i) ∨
        ∃ cause, exception = .abort cause
    | .called (.value _) => e.named info.callback = false
    | .called (.raised exception) => (∀ cause, exception ≠ .abort cause) ∧
        (e.named info.callback = false ∨ Unlogged (e.errorHooks i)) := by
  constructor
  · rintro ⟨info', hinfo', hmishap⟩
    cases hinfo.1.symm.trans hinfo'.1
    exact hmishap
  · exact fun hmishap => ⟨info, hinfo, hmishap⟩

theorem not_runs_of_turn (h : ∀ outcome, e.turn args kwargs i ≠ .called outcome) :
    ¬ e.Runs args kwargs i := fun ⟨_, outcome, hturn⟩ => h outcome hturn

theorem not_stops_of_turn (h : e.turn args kwargs i ≠ .stopped) : ¬ e.Stops args kwargs i :=
  fun ⟨_, hturn⟩ => h hturn

theorem not_aborts_of_turn
    (h : ∀ cause, e.turn args kwargs i ≠ .called (.raised (.abort cause))) :
    ¬ e.Aborts args kwargs i := fun ⟨_, cause, hturn⟩ => h cause hturn

theorem Ready.pass (h : Ready e args kwargs i s)
    (hcalled : ∀ outcome, e.turn args kwargs i ≠ .called outcome)
    (hstopped : e.turn args kwargs i ≠ .stopped) (hmishap : ¬ e.Mishap args kwargs i) :
    Ready e args kwargs (i + 1) s :=
  h.skip (not_runs_of_turn hcalled) (not_stops_of_turn hstopped)
    (not_aborts_of_turn fun _ => hcalled _) hmishap

/-- A callback that takes part ends the trigger or leaves it at the next place. -/
inductive PlaceComes (e : Event Args Kwargs Value Error) (args : Args) (kwargs : Kwargs) (i : Nat)
    (s : Progress Value) : Progress Value × Option (Exit Error) → Prop where
  | ends (t : Progress Value) (exit : Exit Error) (h : EndsAt e args kwargs i s t exit) :
    PlaceComes e args kwargs i s (t, some exit)
  | goesOn (t : Progress Value) (h : Ready e args kwargs (i + 1) t) :
    PlaceComes e args kwargs i s (t, none)

theorem unnamed_comes (hnamed : ¬ e.named info.callback = true) (hmishap : e.Mishap args kwargs i)
    (hran : t.ran = s.ran ∨ t.ran = s.ran ++ [i]) :
    PlaceComes e args kwargs i s (e.handle info i .attributeError t) := by
  rcases handle_cases .attributeError t with ⟨escaped, heq, -⟩ | ⟨-, -, hnamed', -⟩
  · rw [heq]
    exact .ends _ _ (.mishap _ hmishap hran)
  · exact absurd hnamed' hnamed

theorem filterRaised_comes (h : Ready e args kwargs i s) (hinfo : e.TakesPart i info)
    {exception : Raised Error} (hturn : e.turn args kwargs i = .filterRaised exception) :
    PlaceComes e args kwargs i s (e.handle info i exception s) := by
  have hmishap := mishap_iff args kwargs hinfo
  rw [hturn] at hmishap
  have hstarted : s.started = false → ∀ j < i, ¬ e.Runs args kwargs j := by
    intro hfalse j hj hruns
    rw [h.started.mpr ⟨j, hj, hruns⟩] at hfalse
    cases hfalse
  rcases handle_cases exception s with
    ⟨escaped, heq, hreason⟩ | ⟨heq, htrue, hnamed, hlogged, hnot⟩
  · rw [heq]
    exact .ends _ _ (.mishap _ (hmishap.mpr (hreason.imp hstarted id)) (.inl rfl))
  · rw [heq]
    refine .goesOn _ (h.pass (fun _ h => ?_) (fun h => ?_) fun hm => ?_)
    · rw [hturn] at h
      cases h
    · rw [hturn] at h
      cases h
    · rcases hmishap.mp hm with hnone | hunnamed | hunlogged | ⟨cause, habort⟩
      · obtain ⟨j, hj, hruns⟩ := h.started.mp htrue
        exact hnone j hj hruns
      · rw [hnamed] at hunnamed
        cases hunnamed
      · exact hlogged hunlogged
      · exact hnot cause habort

theorem raised_comes (h : Ready e args kwargs i s) (hinfo : e.TakesPart i info)
    {exception : Raised Error} (hturn : e.turn args kwargs i = .called (.raised exception)) :
    PlaceComes e args kwargs i s
      (e.handle info i exception { s with ran := s.ran ++ [i], started := true }) := by
  have hmishap := mishap_iff args kwargs hinfo
  rw [hturn] at hmishap
  rcases handle_cases exception { s with ran := s.ran ++ [i], started := true } with
    ⟨escaped, heq, hreason⟩ | ⟨heq, -, hnamed, hlogged, hnot⟩
  · rw [heq]
    by_cases habort : ∃ cause, exception = .abort cause
    · obtain ⟨cause, rfl⟩ := habort
      exact .ends _ _ (.aborted _ ⟨⟨info, hinfo⟩, cause, hturn⟩ rfl)
    · refine .ends _ _ (.mishap _ (hmishap.mpr ⟨not_exists.mp habort, ?_⟩) (.inr rfl))
      rcases hreason with hstarted | hunnamed | hunlogged | h
      · cases hstarted
      · exact .inl hunnamed
      · exact .inr hunlogged
      · exact absurd h habort
  · rw [heq]
    refine .goesOn _ (h.run rfl ?_ rfl ⟨⟨info, hinfo⟩, _, hturn⟩ ?_ fun hm => ?_)
    · rw [valueAt, hturn]
      exact (append_nil _).symm
    · refine not_aborts_of_turn fun cause h => hnot cause ?_
      rw [hturn] at h
      exact Outcome.raised.inj (Turn.called.inj h)
    · obtain ⟨-, hunnamed | hunlogged⟩ := hmishap.mp hm
      · rw [hnamed] at hunnamed
        cases hunnamed
      · exact hlogged hunlogged

theorem runCallback_comes (h : Ready e args kwargs i s) (hinfo : e.TakesPart i info) :
    PlaceComes e args kwargs i s (e.runCallback args kwargs info i s) := by
  have hmishap := mishap_iff args kwargs hinfo
  unfold runCallback
  cases hturn : e.turn args kwargs i with
  | stopped => exact .ends _ _ (.stopped ⟨⟨info, hinfo⟩, hturn⟩ rfl)
  | skipped =>
    rw [hturn] at hmishap
    by_cases hlog : e.enableLogging = true ∧ ¬ e.named info.callback = true
    · simp only [if_pos hlog]
      exact unnamed_comes hlog.2 (hmishap.mpr ⟨hlog.1, by simpa using hlog.2⟩) (.inl rfl)
    · simp only [if_neg hlog]
      refine .goesOn _ (h.pass (fun _ h => ?_) (fun h => ?_) fun hm => hlog ?_)
      · rw [hturn] at h
        cases h
      · rw [hturn] at h
        cases h
      · obtain ⟨hlogging, hnamed⟩ := hmishap.mp hm
        exact ⟨hlogging, by simp [hnamed]⟩
  | filterRaised exception => exact filterRaised_comes h hinfo hturn
  | called outcome =>
    cases outcome with
    | value result =>
      rw [hturn] at hmishap
      by_cases hnamed : e.named info.callback = true
      · simp only [hnamed, not_true_eq_false, if_false]
        refine .goesOn _ (h.run rfl ?_ rfl ⟨⟨info, hinfo⟩, _, hturn⟩ ?_ fun hm => ?_)
        · rw [valueAt, hturn]
          rfl
        · exact not_aborts_of_turn fun _ h => by rw [hturn] at h; cases h
        · rw [hmishap.mp hm] at hnamed
          cases hnamed
      · simp only [if_pos hnamed]
        exact unnamed_comes hnamed (hmishap.mpr (by simpa using hnamed)) (.inr rfl)
    | raised exception => exact raised_comes h hinfo hturn

theorem loop_cases (infos : List Chain.CallbackInfo) (i : Nat) (s : Progress Value)
    (hinfos : e.callbacks.drop i = infos) (h : Ready e args kwargs i s) :
    (∃ k u t exit, e.loop args kwargs infos i s = (t, some exit) ∧ Ready e args kwargs k u ∧
      EndsAt e args kwargs k u t exit) ∨
    ∃ k t, e.loop args kwargs infos i s = (t, none) ∧ Ready e args kwargs k t ∧
      e.callbacks.length ≤ k := by
  induction infos generalizing i s with
  | nil => exact .inr ⟨i, s, rfl, h, drop_eq_nil_iff.mp hinfos⟩
  | cons info infos ih =>
    obtain ⟨hinfo, hrest⟩ := Chain.getElem?_of_drop hinfos
    rw [loop]
    by_cases htakes : info.enabled = true ∧ info.callbackType ≠ "transform"
    · rw [if_pos htakes]
      have hcome := runCallback_comes h ⟨hinfo, htakes⟩
      generalize e.runCallback args kwargs info i s = out at hcome
      cases hcome with
      | ends t exit hends => exact .inl ⟨i, s, t, exit, rfl, h, hends⟩
      | goesOn t hready => exact ih (i + 1) t hrest hready
    · rw [if_neg htakes]
      have hnone : ∀ info', ¬ e.TakesPart i info' := by
        intro info' h'
        cases hinfo.symm.trans h'.1
        exact htakes h'.2
      exact ih (i + 1) s hrest (h.skip (fun h => hnone _ h.1.choose_spec)
        (fun h => hnone _ h.1.choose_spec) (fun h => hnone _ h.1.choose_spec)
        fun h => hnone _ h.choose_spec.1)

theorem Stops.not_runs (h : e.Stops args kwargs i) : ¬ e.Runs args kwargs i :=
  not_runs_of_turn fun _ hturn => by rw [h.2] at hturn; cases hturn

theorem Aborts.not_stops (h : e.Aborts args kwargs i) : ¬ e.Stops args kwargs i := by
  obtain ⟨-, cause, hturn⟩ := h
  exact not_stops_of_turn fun hstops => by rw [hturn] at hstops; cases hstops

theorem Mishap.not_stops (h : e.Mishap args kwargs i) : ¬ e.Stops args kwargs i := by
  obtain ⟨info, hinfo, h⟩ := h
  rintro ⟨-, hturn⟩
  rw [hturn] at h
  exact h

theorem Mishap.not_aborts (h : e.Mishap args kwargs i) : ¬ e.Aborts args kwargs i := by
  obtain ⟨info, hinfo, h⟩ := h
  rintro ⟨-, cause, hturn⟩
  rw [hturn] at h
  exact h.1 cause rfl

theorem overBefore_of_lt {k : Nat} (h : Undecided e args kwargs k)
    (hends : e.Stops args kwargs k ∨ e.Aborts args kwargs k) (hmishap : e.Mishap args kwargs i) :
    e.OverBefore args kwargs i := by
  rcases Nat.lt_trichotomy i k with hlt | rfl | hlt
  · exact absurd hmishap (h i hlt).2.2
  · rcases hends with hstops | haborts
    · exact absurd hstops hmishap.not_stops
    · exact absurd haborts hmishap.not_aborts
  · exact ⟨k, hlt, hends⟩

theorem not_overBefore (h : Undecided e args kwargs i) : ¬ e.OverBefore args kwargs i := by
  rintro ⟨j, hj, hstops | haborts⟩
  · exact (h j hj).1 hstops
  · exact (h j hj).2.1 haborts

theorem Ready.mem_ran_iff (h : Ready e args kwargs i s)
    (hend : e.Stops args kwargs i ∨ e.callbacks.length ≤ i) (j : Nat) :
    j ∈ s.ran ↔ e.Runs args kwargs j ∧ ∀ k < j, ¬ e.Stops args kwargs k := by
  rw [h.ran j]
  constructor
  · exact fun ⟨hlt, hruns⟩ => ⟨hruns, fun k hk => (h.undecided k (hk.trans hlt)).1⟩
  · rintro ⟨hruns, hbefore⟩
    refine ⟨?_, hruns⟩
    rcases hend with hstops | hlen
    · rcases Nat.lt_trichotomy j i with hlt | rfl | hlt
      · exact hlt
      · exact absurd hruns hstops.not_runs
      · exact absurd hstops (hbefore i hlt)
    · obtain ⟨hj, -⟩ := List.getElem?_eq_some_iff.mp hruns.1.choose_spec.1
      omega

theorem Ready.isolates_iff (h : Ready e args kwargs i s)
    (hend : e.Stops args kwargs i ∨ e.callbacks.length ≤ i) :
    Isolates e args kwargs (s, executeHooks e.afterHooks) ↔ ¬ Unlogged e.afterHooks := by
  constructor
  · intro hisolates hunlogged
    have hsome : (executeHooks e.afterHooks : Option (Raised Error)).isSome = true := by
      rw [Option.isSome_iff_ne_none, Ne, executeHooks_eq_none_iff]
      exact not_not.mpr hunlogged
    obtain ⟨j, hj, haborts⟩ := hisolates.raises hsome
    exact (h.undecided j ((h.ran j).mp hj).1).2.1 haborts
  · intro hlogged
    rw [← @executeHooks_eq_none_iff Error] at hlogged
    refine ⟨fun hsome => ?_, fun _ => h.mem_ran_iff hend, h.inOrder, fun _ => h.results⟩
    exact absurd hsome (by simp [hlogged])

theorem takesPart_of_mem_ran (h : i ∈ (e.trigger args kwargs).1.ran) :
    ∃ info, e.TakesPart i info := by
  have hbegin : Ready e args kwargs 0 ⟨[], [], [], false⟩ :=
    ⟨fun j => by simp, List.Pairwise.nil, rfl, by simp, fun j hj => absurd hj (Nat.not_lt_zero j)⟩
  unfold trigger at h
  cases hbefore : (executeHooks e.beforeHooks : Option (Raised Error)) with
  | some escaped =>
    rw [hbefore] at h
    cases h
  | none =>
    rw [hbefore] at h
    rcases loop_cases e.callbacks 0 ⟨[], [], [], false⟩ rfl hbegin with
      ⟨k, u, t, exit, heq, hready, hends⟩ | ⟨k, t, heq, hready, -⟩
    · have hk : ∀ hran : t.ran = u.ran ++ [k], (∃ info, e.TakesPart k info) → i ∈ t.ran →
          ∃ info, e.TakesPart i info := by
        intro hran hinfo hi
        rw [hran, mem_append, mem_singleton] at hi
        rcases hi with hi | rfl
        · exact ((hready.ran i).mp hi).2.1
        · exact hinfo
      rw [heq] at h
      cases hends with
      | stopped _ htu => exact ((hready.ran i).mp (htu ▸ h)).2.1
      | aborted _ haborts hran => exact hk hran haborts.1 h
      | mishap _ hmishap hran =>
        rcases hran with hran | hran
        · exact ((hready.ran i).mp (hran ▸ h)).2.1
        · exact hk hran ⟨_, hmishap.choose_spec.1⟩ h
    · rw [heq] at h
      exact ((hready.ran i).mp h).2.1

/-- A trigger isolates errors exactly when the hooks that raise have names, and whatever the
handlers do not get through with comes behind a stop or an abort. -/
theorem trigger_isolates_iff (e : Event Args Kwargs Value Error) (args : Args) (kwargs : Kwargs) :
    Isolates e args kwargs (e.trigger args kwargs) ↔
      ¬ Unlogged e.beforeHooks ∧
        (∀ i, e.Mishap args kwargs i → e.OverBefore args kwargs i) ∧
          (Unlogged e.afterHooks → e.Aborted args kwargs) := by
  have hbegin : Ready e args kwargs 0 ⟨[], [], [], false⟩ :=
    ⟨fun j => by simp, List.Pairwise.nil, rfl, by simp, fun j hj => absurd hj (Nat.not_lt_zero j)⟩
  unfold trigger
  cases hbefore : (executeHooks e.beforeHooks : Option (Raised Error)) with
  | some escaped =>
    have hunlogged : Unlogged e.beforeHooks := by
      by_contra h
      rw [(executeHooks_eq_none_iff _).mpr h] at hbefore
      cases hbefore
    refine iff_of_false (fun h => ?_) fun h => h.1 hunlogged
    obtain ⟨i, hi, -⟩ := h.raises rfl
    cases hi
  | none =>
    rw [and_iff_right ((executeHooks_eq_none_iff _).mp hbefore)]
    rcases loop_cases e.callbacks 0 ⟨[], [], [], false⟩ rfl hbegin with
      ⟨k, u, t, exit, heq, hready, hends⟩ | ⟨k, t, heq, hready, hlen⟩
    · rw [heq]
      cases hends with
      | stopped hstops htu =>
        subst htu
        refine (hready.isolates_iff (.inl hstops)).trans
          ⟨fun hlogged => ⟨fun i => overBefore_of_lt hready.undecided (.inl hstops),
            fun hunlogged => absurd hunlogged hlogged⟩, fun ⟨_, hafter⟩ hunlogged => ?_⟩
        obtain ⟨i, haborts, hnostop⟩ := hafter hunlogged
        rcases Nat.lt_trichotomy i k with hlt | rfl | hlt
        · exact (hready.undecided i hlt).2.1 haborts
        · exact haborts.not_stops hstops
        · exact hnostop k hlt hstops
      | aborted exception haborts hran =>
        have hruns : e.Runs args kwargs k := ⟨haborts.1, _, haborts.2.choose_spec⟩
        refine iff_of_true ⟨fun _ => ⟨k, ?_, haborts⟩, nofun, hready.pairwise_ran hran, nofun⟩
          ⟨fun i => overBefore_of_lt hready.undecided (.inr haborts), fun _ =>
            ⟨k, haborts, fun j hj => (hready.undecided j hj).1⟩⟩
        rw [hran]
        exact mem_append_right _ (.head _)
      | mishap exception hmishap hran =>
        refine iff_of_false (fun h => ?_) fun h => not_overBefore hready.undecided (h.1 k hmishap)
        obtain ⟨i, hi, haborts⟩ := h.raises rfl
        have hmem : i ∈ u.ran ++ [k] := by
          rcases hran with hran | hran
          · exact mem_append_left _ (hran ▸ hi)
          · exact hran ▸ hi
        rcases mem_append.mp hmem with hmem | hmem
        · exact (hready.undecided i ((hready.ran i).mp hmem).1).2.1 haborts
        · exact hmishap.not_aborts (mem_singleton.mp hmem ▸ haborts)
    · rw [heq]
      refine (hready.isolates_iff (.inr hlen)).trans
        ⟨fun hlogged => ⟨fun i hmishap => ?_, fun hunlogged => absurd hunlogged hlogged⟩,
          fun ⟨_, hafter⟩ hunlogged => ?_⟩
      · obtain ⟨info, hinfo, -⟩ := id hmishap
        obtain ⟨hi, -⟩ := List.getElem?_eq_some_iff.mp hinfo.1
        exact absurd hmishap (hready.undecided i (by omega)).2.2
      · obtain ⟨i, haborts, -⟩ := hafter hunlogged
        obtain ⟨hi, -⟩ := List.getElem?_eq_some_iff.mp haborts.1.choose_spec.1
        exact (hready.undecided i (by omega)).2.1 haborts

def filterRaises : Event Unit Unit Unit Unit where
  callbacks := [⟨0, 0, none, 0, false, true, "default", [], "", 0⟩]
  named _ := true
  filters _ := [fun _ _ => .raised (.error ())]
  call _ _ _ := .value ()
  beforeHooks := []
  errorHooks _ := []
  afterHooks := []
  isEmptyArgs _ := false
  isEmptyKwargs _ := false
  enableLogging := true

/-- An exception of a filter of the first callback is raised to the caller of the trigger. -/
theorem filter_error_escapes : ¬ Isolates filterRaises () () (filterRaises.trigger () ()) := by
  intro h
  obtain ⟨i, hi, -⟩ := h.raises rfl
  cases hi

end Event

end JiuwenSpec.Callback.Isolation

import JiuwenSpec.Base.Assoc
import JiuwenSpec.Callback.Framework

/-!
# Chains of callbacks

A chain runs its callbacks one after another. A callback is tried again while it fails; one that
has failed for good takes back what was done before it.
Source: `core/runner/callback/chain.py`.
-/

namespace JiuwenSpec.Callback.Chain

open Base List

/-- `CallbackInfo`, with its identity. Each entry of a list or a chain is an info of its own. -/
structure CallbackInfo where
  id : Nat
  callback : FunctionId
  wrapper : Option FunctionId
  priority : Int
  once : Bool
  enabled : Bool
  scope : String
  tags : List String
  callbackType : String
  maxRetries : Int

/-- `CallbackChain`. The handlers are kept by the callback they are for. -/
structure CallbackChain where
  callbacks : List CallbackInfo
  rollbackHandlers : List (FunctionId × FunctionId)
  errorHandlers : List (FunctionId × FunctionId)

inductive ChainAction where
  | continue
  | break
  | retry
  | rollback
deriving DecidableEq

variable {Value Error : Type}

/-- How an attempt of a callback ends: with a value, with a `ChainResult`, in a timeout, or with
another exception. -/
inductive Attempt (Value Error : Type) where
  | value (result : Value)
  | chainResult (action : ChainAction) (result : Value) (error : Option Error)
  | timeout
  | exception (error : Error)

inductive Handling (Value Error : Type) where
  | value (result : Value)
  | exception (error : Error)

/-- What the callback at a place does at each attempt, what its error handler does, and which values
count as true. -/
structure Callbacks (Value Error : Type) where
  attempt : Nat → Nat → Attempt Value Error
  handle : Nat → Nat → Handling Value Error
  truth : Value → Bool

/-- What has been called, in order: a callback, its error handler, a rollback handler. -/
inductive Call (Value Error : Type) where
  | attempted (i k : Nat) (outcome : Attempt Value Error)
  | handled (i k : Nat) (outcome : Handling Value Error)
  | rolledBack (handler : FunctionId)

inductive ChainError (Error : Type) where
  | callbackTimeout
  | error (error : Error)

/-- `ChainResult`, as `execute` returns it. -/
structure ChainResult (Value Error : Type) where
  action : ChainAction
  result : Option Value
  error : Option (ChainError Error)

/-- The context of an execution with the callbacks executed so far, the infos it has disabled and
what it has called. -/
structure Run (Value Error : Type) where
  results : List Value
  currentIndex : Nat
  isCompleted : Bool
  isRolledBack : Bool
  executed : List FunctionId
  disabled : List Nat
  calls : List (Call Value Error)

namespace CallbackChain

def start : Run Value Error := ⟨[], 0, false, false, [], [], []⟩

def rollback (c : CallbackChain) (s : Run Value Error) : Run Value Error :=
  { s with
    isRolledBack := true
    calls := s.calls ++ (s.executed.reverse.filterMap fun callback =>
      assocGet? callback c.rollbackHandlers).map Call.rolledBack }

def succeed (s : Run Value Error) (info : CallbackInfo) (result : Value) : Run Value Error :=
  { s with
    results := s.results ++ [result]
    executed := s.executed ++ [info.callback]
    disabled := if info.once then s.disabled ++ [info.id] else s.disabled }

def fail (c : CallbackChain) (s : Run Value Error) (error : Option (ChainError Error)) :
    Run Value Error × Option (ChainResult Value Error) :=
  (c.rollback s, some ⟨.rollback, none, error⟩)

def handlerCalls (c : CallbackChain) (f : Callbacks Value Error) (info : CallbackInfo) (i k : Nat) :
    List (Call Value Error) :=
  if (assocGet? info.callback c.errorHandlers).isSome then [.handled i k (f.handle i k)] else []

def handlerResult (c : CallbackChain) (f : Callbacks Value Error) (info : CallbackInfo)
    (i k : Nat) : Option Value :=
  if (assocGet? info.callback c.errorHandlers).isSome then
    match f.handle i k with
    | .value result => if f.truth result then some result else none
    | .exception _ => none
  else none

/-- The retry loop of `execute` from an attempt on, with what is returned from inside of it. -/
def attempts (c : CallbackChain) (f : Callbacks Value Error) (info : CallbackInfo) (i : Nat) :
    Nat → Nat → Run Value Error → Run Value Error × Option (ChainResult Value Error)
  | 0, _, s => (s, none)
  | n + 1, k, s =>
    let called : Run Value Error := { s with calls := s.calls ++ [.attempted i k (f.attempt i k)] }
    match f.attempt i k with
    | .value result => (succeed called info result, none)
    | .chainResult .continue result _ => (succeed called info result, none)
    | .chainResult .break result _ =>
      ({ called with results := called.results ++ [result] }, some ⟨.break, some result, none⟩)
    | .chainResult .retry _ _ => attempts c f info i n (k + 1) called
    | .chainResult .rollback _ error => c.fail called (error.map ChainError.error)
    | .timeout =>
      if (k : Int) < info.maxRetries then attempts c f info i n (k + 1) called
      else c.fail called (some .callbackTimeout)
    | .exception error =>
      let handled : Run Value Error :=
        { called with calls := called.calls ++ c.handlerCalls f info i k }
      match c.handlerResult f info i k with
      | some result =>
        ({ handled with
          results := handled.results ++ [result]
          executed := handled.executed ++ [info.callback] }, none)
      | none =>
        if (k : Int) < info.maxRetries then attempts c f info i n (k + 1) handled
        else c.fail handled (some (.error error))

/-- The loop of `execute` over the callbacks from a place on. -/
def walk (c : CallbackChain) (f : Callbacks Value Error) :
    List CallbackInfo → Nat → Run Value Error → Run Value Error × ChainResult Value Error
  | [], _, s => ({ s with isCompleted := true }, ⟨.continue, s.results.getLast?, none⟩)
  | info :: infos, i, s =>
    if info.enabled then
      match c.attempts f info i (info.maxRetries + 1).toNat 0 { s with currentIndex := i } with
      | (t, some result) => (t, result)
      | (t, none) => c.walk f infos (i + 1) t
    else c.walk f infos (i + 1) s

def execute (c : CallbackChain) (f : Callbacks Value Error) :
    Run Value Error × ChainResult Value Error := c.walk f c.callbacks 0 start

end CallbackChain

def Attempt.succeeds : Attempt Value Error → Bool
  | .value _ => true
  | .chainResult action _ _ => action = .continue
  | _ => false

/-- The place of the callback that has succeeded, or been handled, by a call. -/
def Call.done (f : Callbacks Value Error) : Call Value Error → Option Nat
  | .attempted i _ outcome => if outcome.succeeds then some i else none
  | .handled i _ (.value result) => if f.truth result then some i else none
  | _ => none

def Call.undone : Call Value Error → Option FunctionId
  | .rolledBack handler => some handler
  | _ => none

namespace Run

/-- The places of the callbacks that have succeeded or been handled, in order. -/
def done (f : Callbacks Value Error) (s : Run Value Error) : List Nat :=
  s.calls.filterMap (Call.done f)

def undone (s : Run Value Error) : List FunctionId := s.calls.filterMap Call.undone

end Run

theorem getElem?_of_drop {α : Type} {l rest : List α} {a : α} {i : Nat}
    (h : l.drop i = a :: rest) : l[i]? = some a ∧ l.drop (i + 1) = rest := by
  constructor
  · rw [← Nat.add_zero i, ← List.getElem?_drop, h]
    rfl
  · rw [← drop_drop, h]
    rfl

namespace CallbackChain

def handlerAt (c : CallbackChain) (i : Nat) : Option FunctionId :=
  ((c.callbacks[i]?).map CallbackInfo.callback).bind fun callback =>
    assocGet? callback c.rollbackHandlers

def EnabledAt (c : CallbackChain) (i : Nat) (info : CallbackInfo) : Prop :=
  c.callbacks[i]? = some info ∧ info.enabled = true

/-- An execution is a saga: it goes through only when each enabled callback has succeeded or been
handled, and rolls back what has, each of it once and the last of it first. -/
structure IsSaga (c : CallbackChain) (f : Callbacks Value Error)
    (run : Run Value Error × ChainResult Value Error) : Prop where
  complete : run.2.action = .continue → ∀ i info, c.EnabledAt i info → i ∈ run.1.done f
  rolledBack : run.2.action = .rollback →
    run.1.undone = (run.1.done f).reverse.filterMap c.handlerAt
  inOrder : (run.1.done f).Pairwise (· < ·)

variable (c : CallbackChain) (f : Callbacks Value Error) (info : CallbackInfo) (i : Nat)

def Done (k : Nat) : Prop :=
  (f.attempt i k).succeeds = true ∨
    (∃ error, f.attempt i k = .exception error) ∧ (c.handlerResult f info i k).isSome = true

def Retries (k : Nat) : Prop := ∃ result error, f.attempt i k = .chainResult .retry result error

/-- The callback breaks off the chain or rolls it back. -/
def Stops (k : Nat) : Prop :=
  ∃ result error, f.attempt i k = .chainResult .break result error ∨
    f.attempt i k = .chainResult .rollback result error

/-- The attempt decides nothing: another one is asked for, or it fails and is not handled. -/
def Fruitless (k : Nat) : Prop :=
  Retries f i k ∨ f.attempt i k = .timeout ∨
    (∃ error, f.attempt i k = .exception error) ∧ c.handlerResult f info i k = none

/-- The callback succeeds or is handled at some attempt. -/
def Completes : Prop :=
  ∃ k : Nat, (k : Int) ≤ info.maxRetries ∧ (∀ j < k, Fruitless c f info i j) ∧ Done c f info i k

/-- The chain ends at the callback, which stops it or fails at its last attempt. -/
def Ends : Prop :=
  ∃ k : Nat, (k : Int) ≤ info.maxRetries ∧ (∀ j < k, Fruitless c f info i j) ∧
    (Stops f i k ∨ (k : Int) = info.maxRetries ∧ Fruitless c f info i k ∧ ¬ Retries f i k)

/-- The callback does nothing, and the chain goes on: there is no attempt, or each of them is
fruitless and the last one asks for another. -/
def PassedOver : Prop :=
  (∀ k : Nat, (k : Int) ≤ info.maxRetries → Fruitless c f info i k) ∧
    ∀ k : Nat, (k : Int) = info.maxRetries → Retries f i k

variable {c f info i}

theorem Done.not_fruitless {k : Nat} (h : Done c f info i k) : ¬ Fruitless c f info i k := by
  rintro (⟨result, error, hretry⟩ | htimeout | ⟨⟨error, hexception⟩, hnone⟩)
  · rcases h with h | ⟨⟨_, h⟩, -⟩
    · rw [hretry] at h
      cases h
    · rw [hretry] at h
      cases h
  · rcases h with h | ⟨⟨_, h⟩, -⟩
    · rw [htimeout] at h
      cases h
    · rw [htimeout] at h
      cases h
  · rcases h with h | ⟨-, h⟩
    · rw [hexception] at h
      cases h
    · rw [hnone] at h
      cases h

theorem Stops.not_fruitless {k : Nat} (h : Stops f i k) : ¬ Fruitless c f info i k := by
  obtain ⟨result, error, h | h⟩ := h <;>
    · rintro (⟨_, _, h'⟩ | h' | ⟨⟨_, h'⟩, -⟩) <;> · rw [h] at h'; cases h'

theorem Stops.not_done {k : Nat} (h : Stops f i k) : ¬ Done c f info i k := by
  obtain ⟨result, error, h | h⟩ := h <;>
    · rintro (h' | ⟨⟨_, h'⟩, -⟩) <;> · rw [h] at h'; cases h'

theorem PassedOver.not_completes (h : PassedOver c f info i) : ¬ Completes c f info i :=
  fun ⟨k, hk, _, hdone⟩ => hdone.not_fruitless (h.1 k hk)

theorem Ends.not_passedOver (h : Ends c f info i) : ¬ PassedOver c f info i := by
  intro hpassed
  obtain ⟨k, hk, -, hstops | ⟨hlast, -, hretries⟩⟩ := h
  · exact hstops.not_fruitless (hpassed.1 k hk)
  · exact hretries (hpassed.2 k hlast)

theorem Ends.not_completes (h : Ends c f info i) : ¬ Completes c f info i := by
  rintro ⟨m, hm, hbefore, hdone⟩
  obtain ⟨k, hk, hfirst, hend⟩ := h
  rcases Nat.lt_trichotomy k m with hlt | rfl | hlt
  · rcases hend with hstops | ⟨hlast, -, -⟩
    · exact hstops.not_fruitless (hbefore k hlt)
    · omega
  · rcases hend with hstops | ⟨-, hfruitless, -⟩
    · exact hstops.not_done hdone
    · exact hdone.not_fruitless hfruitless
  · exact hdone.not_fruitless (hfirst m hlt)

structure Adds (f : Callbacks Value Error) (s t : Run Value Error) (done : List Nat)
    (undone : List FunctionId) : Prop where
  done : t.done f = s.done f ++ done
  undone : t.undone = s.undone ++ undone

theorem adds_of_calls {s t : Run Value Error} {calls : List (Call Value Error)}
    (h : t.calls = s.calls ++ calls) :
    Adds f s t (calls.filterMap (Call.done f)) (calls.filterMap Call.undone) where
  done := by rw [Run.done, h, filterMap_append, Run.done]
  undone := by rw [Run.undone, h, filterMap_append, Run.undone]

theorem Adds.trans {s t u : Run Value Error} {done done' : List Nat}
    {undone undone' : List FunctionId} (h : Adds f s t done undone)
    (h' : Adds f t u done' undone') : Adds f s u (done ++ done') (undone ++ undone') where
  done := by rw [h'.done, h.done, append_assoc]
  undone := by rw [h'.undone, h.undone, append_assoc]

@[simp] theorem filterMap_undone_rolledBack (handlers : List FunctionId) :
    (handlers.map (@Call.rolledBack Value Error)).filterMap Call.undone =
      handlers := by
  rw [filterMap_map]
  exact filterMap_some

@[simp] theorem filterMap_done_rolledBack (handlers : List FunctionId) :
    (handlers.map Call.rolledBack).filterMap (Call.done f) = [] := by
  rw [filterMap_map]
  exact filterMap_eq_nil_iff.mpr fun _ _ => rfl

theorem Adds.rollback {s t : Run Value Error} (h : Adds f s t [] [])
    (hexecuted : t.executed = s.executed) :
    Adds f s (c.rollback t) [] (s.executed.reverse.filterMap fun callback =>
      assocGet? callback c.rollbackHandlers) := by
  have hcalls : (c.rollback t).calls = t.calls ++ (t.executed.reverse.filterMap fun callback =>
      assocGet? callback c.rollbackHandlers).map Call.rolledBack := rfl
  have hadds : Adds f t (c.rollback t) _ _ := adds_of_calls hcalls
  rw [filterMap_done_rolledBack, filterMap_undone_rolledBack, hexecuted] at hadds
  exact h.trans hadds

theorem adds_call {s t : Run Value Error} {call : Call Value Error} {done : List Nat}
    {undone : List FunctionId} (h : t.calls = s.calls ++ [call])
    (hdone : [call].filterMap (Call.done f) = done)
    (hundone : [call].filterMap Call.undone = undone) : Adds f s t done undone := by
  subst hdone hundone
  exact adds_of_calls h

theorem done_handlerCalls (c : CallbackChain) (f : Callbacks Value Error) (info : CallbackInfo)
    (i k : Nat) : (c.handlerCalls f info i k).filterMap (Call.done f) =
      if (c.handlerResult f info i k).isSome then [i] else [] := by
  rw [handlerCalls, handlerResult]
  split
  · cases h : f.handle i k with
    | value result => cases htrue : f.truth result <;> simp [Call.done, htrue]
    | exception error => simp [Call.done]
  · rfl

theorem undone_handlerCalls (c : CallbackChain) (f : Callbacks Value Error) (info : CallbackInfo)
    (i k : Nat) : (c.handlerCalls f info i k).filterMap Call.undone = [] := by
  rw [handlerCalls]
  split <;> rfl

theorem adds_handled {s t : Run Value Error} {k : Nat} {error : Error}
    (hattempt : f.attempt i k = .exception error)
    (h : t.calls = s.calls ++ .attempted i k (f.attempt i k) :: c.handlerCalls f info i k) :
    Adds f s t (if (c.handlerResult f info i k).isSome then [i] else []) [] := by
  have hdone : (Call.attempted i k (f.attempt i k) :: c.handlerCalls f info i k).filterMap
      (Call.done f) = if (c.handlerResult f info i k).isSome then [i] else [] := by
    rw [← done_handlerCalls, hattempt]
    rfl
  have hundone : (Call.attempted i k (f.attempt i k) :: c.handlerCalls f info i k).filterMap
      Call.undone = [] := undone_handlerCalls c f info i k
  have hadds : Adds f s t _ _ := adds_of_calls h
  rw [hdone, hundone] at hadds
  exact hadds

/-- The retry loop completes a callback, passes it over, or ends the chain; what it undoes is what
was executed. -/
inductive AttemptsCome (c : CallbackChain) (f : Callbacks Value Error) (info : CallbackInfo)
    (i : Nat) (s : Run Value Error) :
    Run Value Error × Option (ChainResult Value Error) → Prop
  | completes (t) (h : Completes c f info i) (hadds : Adds f s t [i] [])
    (hexecuted : t.executed = s.executed ++ [info.callback]) : AttemptsCome c f info i s (t, none)
  | passedOver (t) (h : PassedOver c f info i) (hadds : Adds f s t [] [])
    (hexecuted : t.executed = s.executed) : AttemptsCome c f info i s (t, none)
  | ends (t r undone) (h : Ends c f info i) (hadds : Adds f s t [] undone)
    (hresult : r.action = .break ∨ r.action = .rollback ∧
      undone = s.executed.reverse.filterMap fun callback => assocGet? callback c.rollbackHandlers) :
    AttemptsCome c f info i s (t, some r)

theorem AttemptsCome.after {s t : Run Value Error}
    {out : Run Value Error × Option (ChainResult Value Error)} (h : AttemptsCome c f info i t out)
    (hadds : Adds f s t [] []) (hexecuted : t.executed = s.executed) :
    AttemptsCome c f info i s out := by
  cases h with
  | completes u hcompletes hlater hexec =>
    exact .completes u hcompletes (hadds.trans hlater) (hexecuted ▸ hexec)
  | passedOver u hpassed hlater hexec =>
    exact .passedOver u hpassed (hadds.trans hlater) (hexec.trans hexecuted)
  | ends u r undone hends hlater hresult =>
    exact .ends u r undone hends (hadds.trans hlater) (hexecuted ▸ hresult)

theorem forall_lt_succ {p : Nat → Prop} {k : Nat} (hbefore : ∀ j < k, p j) (hk : p k) :
    ∀ j < k + 1, p j := by
  intro j hj
  rcases Nat.lt_succ_iff_lt_or_eq.mp hj with hlt | rfl
  · exact hbefore j hlt
  · exact hk

theorem not_retries_of_ne {k : Nat}
    (h : ∀ result error, f.attempt i k ≠ .chainResult .retry result error) : ¬ Retries f i k :=
  fun ⟨result, error, heq⟩ => h result error heq

theorem attempts_cases (n k : Nat) (s : Run Value Error)
    (hn : n = (info.maxRetries + 1 - k).toNat) (hbefore : ∀ j < k, Fruitless c f info i j)
    (hlast : ∀ j < k, (j : Int) = info.maxRetries → Retries f i j) :
    AttemptsCome c f info i s (c.attempts f info i n k s) := by
  induction n generalizing k s with
  | zero =>
    exact .passedOver s ⟨fun j hj => hbefore j (by omega), fun j hj => hlast j (by omega) hj⟩
      ⟨(append_nil _).symm, (append_nil _).symm⟩ rfl
  | succ n ih =>
    have hk : (k : Int) ≤ info.maxRetries := by omega
    -- A fruitless attempt goes on with the next one.
    have hnext (t : Run Value Error) (hexec : t.executed = s.executed) (hadds : Adds f s t [] [])
        (hfruitless : Fruitless c f info i k)
        (hretries : (k : Int) = info.maxRetries → Retries f i k) :
        AttemptsCome c f info i s (c.attempts f info i n (k + 1) t) :=
      (ih (k + 1) t (by omega) (forall_lt_succ hbefore hfruitless)
        (forall_lt_succ hlast hretries)).after hadds hexec
    -- The last attempt rolls the chain back when it fails.
    have hfails (t : Run Value Error) (r : ChainResult Value Error)
        (hexec : t.executed = s.executed) (hadds : Adds f s t [] [])
        (hfruitless : Fruitless c f info i k)
        (hretries : ¬ Retries f i k) (hmore : ¬ (k : Int) < info.maxRetries)
        (hr : r.action = .rollback) : AttemptsCome c f info i s (c.rollback t, some r) :=
      .ends _ r _ ⟨k, hk, hbefore, .inr ⟨by omega, hfruitless, hretries⟩⟩ (hadds.rollback hexec)
        (.inr ⟨hr, rfl⟩)
    rw [attempts]
    cases hattempt : f.attempt i k with
    | value result =>
      have hdone : Done c f info i k := .inl (by rw [hattempt]; rfl)
      exact .completes _ ⟨k, hk, hbefore, hdone⟩ (adds_call rfl rfl rfl) rfl
    | chainResult action result error =>
      cases action with
      | «continue» =>
        have hdone : Done c f info i k := .inl (by rw [hattempt]; rfl)
        exact .completes _ ⟨k, hk, hbefore, hdone⟩ (adds_call rfl rfl rfl) rfl
      | «break» =>
        exact .ends _ _ [] ⟨k, hk, hbefore, .inl ⟨result, error, .inl hattempt⟩⟩
          (adds_call rfl rfl rfl) (.inl rfl)
      | retry =>
        exact hnext _ rfl (adds_call rfl rfl rfl) (.inl ⟨result, error, hattempt⟩)
          fun _ => ⟨result, error, hattempt⟩
      | rollback =>
        exact .ends _ _ _ ⟨k, hk, hbefore, .inl ⟨result, error, .inr hattempt⟩⟩
          (Adds.rollback (adds_call rfl rfl rfl) rfl) (.inr ⟨rfl, rfl⟩)
    | timeout =>
      have hfruitless : Fruitless c f info i k := .inr (.inl hattempt)
      have hretries : ¬ Retries f i k :=
        not_retries_of_ne fun _ _ h => by rw [hattempt] at h; cases h
      by_cases hmore : (k : Int) < info.maxRetries
      · simp only [if_pos hmore]
        exact hnext _ rfl (adds_call rfl rfl rfl) hfruitless fun h => absurd hmore (by omega)
      · simp only [if_neg hmore]
        exact hfails _ _ rfl (adds_call rfl rfl rfl) hfruitless hretries hmore rfl
    | exception error =>
      have hretries : ¬ Retries f i k :=
        not_retries_of_ne fun _ _ h => by rw [hattempt] at h; cases h
      have hadds : ∀ t : Run Value Error,
          t.calls = s.calls ++ [.attempted i k (.exception error)] ++ c.handlerCalls f info i k →
          Adds f s t (if (c.handlerResult f info i k).isSome then [i] else []) [] := by
        intro t ht
        refine adds_handled hattempt ?_
        rw [ht, hattempt, append_assoc, singleton_append]
      cases hhandled : c.handlerResult f info i k with
      | some result =>
        have hdone : Done c f info i k := .inr ⟨⟨error, hattempt⟩, by rw [hhandled]; rfl⟩
        rw [hhandled] at hadds
        exact .completes _ ⟨k, hk, hbefore, hdone⟩ (hadds _ rfl) rfl
      | none =>
        have hfruitless : Fruitless c f info i k := .inr (.inr ⟨⟨error, hattempt⟩, hhandled⟩)
        rw [hhandled] at hadds
        by_cases hmore : (k : Int) < info.maxRetries
        · simp only [if_pos hmore]
          exact hnext _ rfl (hadds _ rfl) hfruitless fun h => absurd hmore (by omega)
        · simp only [if_neg hmore]
          exact hfails _ _ rfl (hadds _ rfl) hfruitless hretries hmore rfl

theorem attempts_come (s : Run Value Error) :
    AttemptsCome c f info i s (c.attempts f info i (info.maxRetries + 1).toNat 0 s) :=
  attempts_cases _ 0 s (by simp) (fun j hj => absurd hj (Nat.not_lt_zero j))
    (fun j hj => absurd hj (Nat.not_lt_zero j))

/-- A run stands before the callback at a place: it has executed what is done, and rolled nothing
back. -/
structure Ready (c : CallbackChain) (f : Callbacks Value Error) (i : Nat) (s : Run Value Error) :
    Prop where
  executed : s.executed = (s.done f).filterMap fun j => (c.callbacks[j]?).map CallbackInfo.callback
  undone : s.undone = []
  lt : ∀ j ∈ s.done f, j < i
  inOrder : (s.done f).Pairwise (· < ·)

theorem Ready.skip {s t : Run Value Error} (h : Ready c f i s) (hadds : Adds f s t [] [])
    (hexecuted : t.executed = s.executed) : Ready c f (i + 1) t := by
  have hdone : t.done f = s.done f := by rw [hadds.done, append_nil]
  refine ⟨?_, by rw [hadds.undone, h.undone, append_nil], fun j hj => ?_, ?_⟩
  · rw [hexecuted, hdone, h.executed]
  · exact Nat.lt_succ_of_lt (h.lt j (hdone ▸ hj))
  · exact hdone ▸ h.inOrder

theorem Ready.complete {s t : Run Value Error} (h : Ready c f i s) (hadds : Adds f s t [i] [])
    (hinfo : c.callbacks[i]? = some info) (hexecuted : t.executed = s.executed ++ [info.callback]) :
    Ready c f (i + 1) t where
  executed := by
    rw [hexecuted, hadds.done, filterMap_append, ← h.executed]
    simp [hinfo]
  undone := by rw [hadds.undone, h.undone, append_nil]
  lt := by
    intro j hj
    rw [hadds.done, mem_append, mem_singleton] at hj
    rcases hj with hj | rfl
    · exact Nat.lt_succ_of_lt (h.lt j hj)
    · exact Nat.lt_succ_self j
  inOrder := by
    rw [hadds.done, pairwise_append]
    exact ⟨h.inOrder, pairwise_singleton _ _, fun j hj k hk =>
      mem_singleton.mp hk ▸ h.lt j hj⟩

theorem Ready.handlers {s : Run Value Error} (h : Ready c f i s) :
    (s.executed.reverse.filterMap fun callback => assocGet? callback c.rollbackHandlers) =
      (s.done f).reverse.filterMap c.handlerAt := by
  rw [h.executed, ← filterMap_reverse, filterMap_filterMap]
  rfl

/-- What the loop over the callbacks from a place on comes to. -/
structure Walked (c : CallbackChain) (f : Callbacks Value Error) (i : Nat) (s : Run Value Error)
    (run : Run Value Error × ChainResult Value Error) : Prop where
  rolledBack : run.2.action = .rollback →
    run.1.undone = (run.1.done f).reverse.filterMap c.handlerAt
  inOrder : (run.1.done f).Pairwise (· < ·)
  before : ∀ j < i, j ∈ run.1.done f ↔ j ∈ s.done f
  outcome : (run.2.action = .continue ∧ ∀ j info, i ≤ j → c.EnabledAt j info →
      Completes c f info j ∧ j ∈ run.1.done f ∨ PassedOver c f info j ∧ j ∉ run.1.done f) ∨
    run.2.action ≠ .continue ∧ ∃ j info, i ≤ j ∧ c.EnabledAt j info ∧ Ends c f info j

theorem Walked.cons {s t : Run Value Error} {run : Run Value Error × ChainResult Value Error}
    (h : Walked c f (i + 1) t run) {done : List Nat} (hadds : Adds f s t done [])
    (hdone : ∀ j ∈ done, j = i)
    (hplace : ∀ info, c.EnabledAt i info →
      Completes c f info i ∧ i ∈ t.done f ∨ PassedOver c f info i ∧ i ∉ t.done f) :
    Walked c f i s run where
  rolledBack := h.rolledBack
  inOrder := h.inOrder
  before := by
    intro j hj
    rw [h.before j (Nat.lt_succ_of_lt hj), hadds.done, mem_append, or_iff_left]
    exact fun hmem => absurd (hdone j hmem) (Nat.ne_of_lt hj)
  outcome := by
    rcases h.outcome with ⟨haction, hlater⟩ | ⟨haction, j, info, hj, hends⟩
    · refine .inl ⟨haction, fun j info hj henabled => ?_⟩
      rcases Nat.lt_or_eq_of_le hj with hlt | rfl
      · exact hlater j info hlt henabled
      · rw [h.before i (Nat.lt_succ_self i)]
        exact hplace info henabled
    · exact .inr ⟨haction, j, info, Nat.le_of_succ_le hj, hends⟩

theorem walk_walked (infos : List CallbackInfo) (i : Nat) (s : Run Value Error)
    (hinfos : c.callbacks.drop i = infos) (h : Ready c f i s) :
    Walked c f i s (c.walk f infos i s) := by
  induction infos generalizing i s with
  | nil =>
    have hlen : c.callbacks.length ≤ i := drop_eq_nil_iff.mp hinfos
    refine ⟨fun hrollback => absurd hrollback (by simp [walk]), h.inOrder, fun _ _ => Iff.rfl,
      .inl ⟨rfl, fun j info hj henabled => ?_⟩⟩
    obtain ⟨hlt, -⟩ := List.getElem?_eq_some_iff.mp henabled.1
    omega
  | cons info infos ih =>
    obtain ⟨hinfo, hrest⟩ := getElem?_of_drop hinfos
    rw [walk]
    by_cases henabled : info.enabled = true
    · rw [if_pos henabled]
      have hcurrent : Ready c f i { s with currentIndex := i } :=
        ⟨h.executed, h.undone, h.lt, h.inOrder⟩
      have hcome := @attempts_come _ _ c f info i { s with currentIndex := i }
      generalize c.attempts f info i (info.maxRetries + 1).toNat 0 { s with currentIndex := i } =
        out at hcome
      cases hcome with
      | completes t hcompletes hadds hexec =>
        have hs : Adds f s t [i] [] := ⟨hadds.done, hadds.undone⟩
        refine (ih (i + 1) t hrest (hcurrent.complete hadds hinfo hexec)).cons hs
          (fun j hj => mem_singleton.mp hj) fun info' hinfo' => ?_
        cases hinfo.symm.trans hinfo'.1
        exact .inl ⟨hcompletes, by rw [hadds.done]; simp⟩
      | passedOver t hpassed hadds hexec =>
        have hs : Adds f s t [] [] := ⟨hadds.done, hadds.undone⟩
        refine (ih (i + 1) t hrest (hcurrent.skip hadds hexec)).cons hs
          (nofun) fun info' hinfo' => ?_
        cases hinfo.symm.trans hinfo'.1
        refine .inr ⟨hpassed, fun hmem => ?_⟩
        rw [hadds.done, append_nil] at hmem
        exact absurd (h.lt i hmem) (Nat.lt_irrefl i)
      | ends t r undone hends hadds hr =>
        have hdone : t.done f = s.done f := by rw [hadds.done, append_nil]; rfl
        refine ⟨fun hrollback ↦ ?_, hdone ▸ h.inOrder, fun j _ ↦ hdone ▸ Iff.rfl, .inr ⟨?_, i, info,
          Nat.le_refl i, ⟨hinfo, henabled⟩, hends⟩⟩
        · rcases hr with hr | ⟨-, hundone⟩
          · rw [hr] at hrollback
            cases hrollback
          · rw [hadds.undone, hcurrent.undone, nil_append, hundone, hcurrent.handlers, hdone]
            rfl
        · rcases hr with hr | ⟨hr, -⟩ <;> simp [hr]
    · rw [if_neg henabled]
      have hadds : Adds f s s [] [] := ⟨(append_nil _).symm, (append_nil _).symm⟩
      refine (ih (i + 1) s hrest (h.skip hadds rfl)).cons hadds
        (nofun) fun info' hinfo' => ?_
      cases hinfo.symm.trans hinfo'.1
      exact absurd hinfo'.2 henabled

theorem execute_walked (c : CallbackChain) (f : Callbacks Value Error) :
    Walked c f 0 start (c.execute f) :=
  walk_walked c.callbacks 0 start rfl
    ⟨rfl, rfl, nofun, List.Pairwise.nil⟩

/-- An execution is a saga exactly when no enabled callback is passed over, or one ends the
chain. -/
theorem execute_isSaga_iff (c : CallbackChain) (f : Callbacks Value Error) :
    IsSaga c f (c.execute f) ↔
      ((∃ i info, c.EnabledAt i info ∧ PassedOver c f info i) →
        ∃ i info, c.EnabledAt i info ∧ Ends c f info i) := by
  have hwalked := execute_walked c f
  constructor
  · rintro hsaga ⟨i, info, henabled, hpassed⟩
    rcases hwalked.outcome with ⟨haction, hall⟩ | ⟨-, j, info', -, hends⟩
    · have hmem := hsaga.complete haction i info henabled
      rcases hall i info (Nat.zero_le i) henabled with ⟨hcompletes, -⟩ | ⟨-, hnot⟩
      · exact absurd hcompletes hpassed.not_completes
      · exact absurd hmem hnot
    · exact ⟨j, info', hends⟩
  · intro hcond
    refine ⟨fun haction i info henabled => ?_, hwalked.rolledBack, hwalked.inOrder⟩
    rcases hwalked.outcome with ⟨-, hall⟩ | ⟨hne, -⟩
    · rcases hall i info (Nat.zero_le i) henabled with ⟨-, hmem⟩ | ⟨hpassed, -⟩
      · exact hmem
      · obtain ⟨j, info', henabled', hends⟩ := hcond ⟨i, info, henabled, hpassed⟩
        rcases hall j info' (Nat.zero_le j) henabled' with ⟨hcompletes, -⟩ | ⟨hpassed', -⟩
        · exact absurd hcompletes hends.not_completes
        · exact absurd hpassed' hends.not_passedOver
    · exact absurd haction hne

def Tries (i : Nat) (call : Call Value Error) : Prop := ∃ k outcome, call = .attempted i k outcome

theorem tries_handlerCalls {j k : Nat} : ∀ call ∈ c.handlerCalls f info i k, ¬ Tries j call := by
  intro call hcall
  rw [handlerCalls] at hcall
  split at hcall
  · rintro ⟨_, _, rfl⟩
    simp at hcall
  · cases hcall

def OnlyTries (i : Nat) (s t : Run Value Error) : Prop :=
  ∃ calls, t.calls = s.calls ++ calls ∧ ∀ call ∈ calls, ∀ j, Tries j call → j = i

theorem OnlyTries.refl (s : Run Value Error) : OnlyTries i s s :=
  ⟨[], (append_nil _).symm, nofun⟩

theorem OnlyTries.trans {s t u : Run Value Error} (h : OnlyTries i s t) (h' : OnlyTries i t u) :
    OnlyTries i s u := by
  obtain ⟨before, ht, hbefore⟩ := h
  obtain ⟨calls, hu, hcalls⟩ := h'
  refine ⟨before ++ calls, by rw [hu, ht, append_assoc], fun call hcall => ?_⟩
  rcases mem_append.mp hcall with hcall | hcall
  · exact hbefore call hcall
  · exact hcalls call hcall

theorem onlyTries_rollback (s : Run Value Error) : OnlyTries i s (c.rollback s) := by
  refine ⟨_, rfl, fun call hcall j htries => ?_⟩
  obtain ⟨handler, -, rfl⟩ := mem_map.mp hcall
  obtain ⟨_, _, h⟩ := htries
  cases h

theorem attempts_called {n : Nat}
    (hlater : ∀ k (s : Run Value Error), OnlyTries i s (c.attempts f info i n k s).1) (k : Nat)
    (s : Run Value Error) :
    OnlyTries i { s with calls := s.calls ++ [.attempted i k (f.attempt i k)] }
      (c.attempts f info i (n + 1) k s).1 := by
  rw [attempts]
  cases hattempt : f.attempt i k with
  | value result => exact .refl _
  | chainResult action result error =>
    cases action with
    | retry => exact hlater _ _
    | rollback => exact onlyTries_rollback _
    | _ => exact .refl _
  | timeout =>
    by_cases hmore : (k : Int) < info.maxRetries
    · simp only [if_pos hmore]
      exact hlater _ _
    · simp only [if_neg hmore]
      exact onlyTries_rollback _
  | exception error =>
    have hhandled : OnlyTries i { s with calls := s.calls ++ [.attempted i k (.exception error)] }
        { s with calls := s.calls ++ [.attempted i k (.exception error)] ++
          c.handlerCalls f info i k } :=
      ⟨_, rfl, fun call hcall j htries => absurd htries (tries_handlerCalls call hcall)⟩
    cases hresult : c.handlerResult f info i k with
    | some result => exact hhandled
    | none =>
      by_cases hmore : (k : Int) < info.maxRetries
      · simp only [if_pos hmore]
        exact hhandled.trans (hlater _ _)
      · simp only [if_neg hmore]
        exact hhandled.trans (onlyTries_rollback _)

theorem onlyTries_called (k : Nat) (s : Run Value Error) :
    OnlyTries i s { s with calls := s.calls ++ [.attempted i k (f.attempt i k)] } := by
  refine ⟨_, rfl, fun call hcall j => ?_⟩
  rintro ⟨_, _, htries⟩
  rw [mem_singleton.mp hcall] at htries
  cases htries
  rfl

theorem attempts_onlyTries (n k : Nat) (s : Run Value Error) :
    OnlyTries i s (c.attempts f info i n k s).1 := by
  induction n generalizing k s with
  | zero => exact .refl s
  | succ n ih => exact (onlyTries_called k s).trans (attempts_called ih k s)

theorem attempts_tries (n k : Nat) (s : Run Value Error) :
    ∃ call ∈ (c.attempts f info i (n + 1) k s).1.calls, Tries i call := by
  obtain ⟨calls, hcalls, -⟩ := attempts_called (attempts_onlyTries n) k s
  refine ⟨.attempted i k (f.attempt i k), ?_, k, _, rfl⟩
  rw [hcalls]
  exact mem_append_left _ (mem_append_right _ (.head _))

theorem attempts_returns {s t : Run Value Error} {r : ChainResult Value Error}
    (h : c.attempts f info i (info.maxRetries + 1).toNat 0 s = (t, some r)) :
    r.action ≠ .continue := by
  intro haction
  have hcome := @attempts_come _ _ c f info i s
  rw [h] at hcome
  cases hcome with
  | ends _ _ _ _ _ hr =>
    rcases hr with hr | ⟨hr, -⟩
    · rw [hr] at haction
      cases haction
    · rw [hr] at haction
      cases haction

theorem walk_tries (infos : List CallbackInfo) (i : Nat) (s : Run Value Error)
    (hinfos : c.callbacks.drop i = infos) :
    (∃ calls, (c.walk f infos i s).1.calls = s.calls ++ calls ∧
      ∀ call ∈ calls, ∀ j, Tries j call → ∃ info, c.EnabledAt j info) ∧
    ((c.walk f infos i s).2.action = .continue → ∀ j info, i ≤ j → c.EnabledAt j info →
      0 ≤ info.maxRetries → ∃ call ∈ (c.walk f infos i s).1.calls, Tries j call) := by
  induction infos generalizing i s with
  | nil =>
    refine ⟨⟨[], (append_nil _).symm, nofun⟩,
      fun _ j info hj henabled => ?_⟩
    have hlen : c.callbacks.length ≤ i := drop_eq_nil_iff.mp hinfos
    obtain ⟨hlt, -⟩ := List.getElem?_eq_some_iff.mp henabled.1
    omega
  | cons info infos ih =>
    obtain ⟨hinfo, hrest⟩ := getElem?_of_drop hinfos
    rw [walk]
    by_cases henabled : info.enabled = true
    · rw [if_pos henabled]
      obtain ⟨calls, hcalls, honly⟩ : OnlyTries i { s with currentIndex := i } (c.attempts f info i
          (info.maxRetries + 1).toNat 0 { s with currentIndex := i }).1 := attempts_onlyTries _ _ _
      have htried : 0 ≤ info.maxRetries → ∃ call ∈ (c.attempts f info i
          (info.maxRetries + 1).toNat 0 { s with currentIndex := i }).1.calls, Tries i call := by
        intro hretries
        obtain ⟨n, hn⟩ : ∃ n, (info.maxRetries + 1).toNat = n + 1 :=
          ⟨info.maxRetries.toNat, by omega⟩
        rw [hn]
        exact attempts_tries n 0 _
      have hcaller : ∀ call ∈ calls, ∀ j, Tries j call → ∃ info, c.EnabledAt j info := by
        intro call hcall j htries
        obtain rfl := honly call hcall j htries
        exact ⟨info, hinfo, henabled⟩
      cases hattempts : c.attempts f info i (info.maxRetries + 1).toNat 0
          { s with currentIndex := i } with
      | mk t result =>
        rw [hattempts] at hcalls htried
        cases result with
        | some r => exact ⟨⟨calls, hcalls, hcaller⟩,
            fun haction => absurd haction (attempts_returns hattempts)⟩
        | none =>
          obtain ⟨⟨later, hlater, htries⟩, hall⟩ := ih (i + 1) t hrest
          refine ⟨⟨calls ++ later, ?_, fun call hcall => ?_⟩,
            fun haction j info' hj hj' hretries => ?_⟩
          · rw [hlater, hcalls, append_assoc]
          · rcases mem_append.mp hcall with hcall | hcall
            · exact hcaller call hcall
            · exact htries call hcall
          · rcases Nat.lt_or_eq_of_le hj with hlt | rfl
            · exact hall haction j info' hlt hj' hretries
            · cases hinfo.symm.trans hj'.1
              obtain ⟨call, hcall, htry⟩ := htried hretries
              exact ⟨call, by rw [hlater]; exact mem_append_left _ hcall, htry⟩
    · rw [if_neg henabled]
      obtain ⟨hcalls, hall⟩ := ih (i + 1) s hrest
      refine ⟨hcalls, fun haction j info' hj hj' => ?_⟩
      rcases Nat.lt_or_eq_of_le hj with hlt | rfl
      · exact hall haction j info' hlt hj'
      · cases hinfo.symm.trans hj'.1
        exact absurd hj'.2 henabled

def oneCallback : CallbackChain := ⟨[⟨0, 0, none, 0, false, true, "default", [], "", 0⟩], [], []⟩

/-- The callback asks for another attempt, and there is none: the chain goes through without it. -/
theorem retry_passed_over : ¬ IsSaga oneCallback
    (⟨fun _ _ => .chainResult .retry () none, fun _ _ => .value (), fun _ => true⟩ :
      Callbacks Unit Unit) (oneCallback.execute
        ⟨fun _ _ => .chainResult .retry () none, fun _ _ => .value (), fun _ => true⟩) := by
  intro h
  have hmem := h.complete rfl 0 _ ⟨rfl, rfl⟩
  exact absurd hmem (by decide)

end CallbackChain

end JiuwenSpec.Callback.Chain

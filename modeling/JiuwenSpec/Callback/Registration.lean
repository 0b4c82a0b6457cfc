import JiuwenSpec.Base.Run
import JiuwenSpec.Callback.ErrorIsolation

/-!
# Registered callbacks and chains

A callback is kept in the list of its event and, if it comes with a rollback or an error handler, in
the chain of the event too. Callbacks are removed one by one, by namespace, by tags or by event.
Source: `core/runner/callback/framework.py`, `core/runner/callback/chain.py`.
-/

namespace JiuwenSpec.Callback

open Base List Dict

namespace Chain

/-- `lst.sort(key=lambda x: x.priority, reverse=True)`, which is stable. -/
def sortByPriority (infos : List CallbackInfo) : List CallbackInfo :=
  infos.insertionSort fun a b => b.priority ≤ a.priority

variable {info : CallbackInfo}

@[simp] theorem mem_sortByPriority {infos : List CallbackInfo} :
    info ∈ sortByPriority infos ↔ info ∈ infos :=
  mem_insertionSort _

namespace CallbackChain

def empty : CallbackChain := ⟨[], [], []⟩

/-- `self.handlers[callback] = handler`, if there is one. -/
def setHandler (callback : FunctionId) (handler : Option FunctionId)
    (handlers : List (FunctionId × FunctionId)) : List (FunctionId × FunctionId) :=
  match handler with
  | some handler => assocSet callback handler handlers
  | none => handlers

def add (c : CallbackChain) (info : CallbackInfo)
    (rollbackHandler errorHandler : Option FunctionId) : CallbackChain where
  callbacks := sortByPriority (c.callbacks ++ [info])
  rollbackHandlers := setHandler info.callback rollbackHandler c.rollbackHandlers
  errorHandlers := setHandler info.callback errorHandler c.errorHandlers

def remove (c : CallbackChain) (callback : FunctionId) : CallbackChain where
  callbacks := c.callbacks.filter fun info => info.callback ≠ callback
  rollbackHandlers := assocDelete callback c.rollbackHandlers
  errorHandlers := assocDelete callback c.errorHandlers

@[simp] theorem mem_add {c : CallbackChain} {rollbackHandler errorHandler :
    Option FunctionId} {other : CallbackInfo} :
    other ∈ (c.add info rollbackHandler errorHandler).callbacks ↔
      other ∈ c.callbacks ∨ other = info := by
  simp [add]

@[simp] theorem mem_remove {c : CallbackChain} {callback : FunctionId} :
    info ∈ (c.remove callback).callbacks ↔ info ∈ c.callbacks ∧ info.callback ≠ callback := by
  simp [remove]

def ofList (infos : List CallbackInfo) : CallbackChain :=
  infos.foldl (fun c info => c.add info none none) empty

theorem mem_ofList {infos : List CallbackInfo} :
    info ∈ (ofList infos).callbacks ↔ info ∈ infos := by
  suffices h : ∀ c : CallbackChain, info ∈ (infos.foldl (fun c info => c.add info none none)
      c).callbacks ↔ info ∈ c.callbacks ∨ info ∈ infos by
    simpa [ofList, empty] using h empty
  induction infos with
  | nil => simp
  | cons first infos ih =>
    intro c
    rw [foldl_cons, ih, mem_add, mem_cons, or_assoc]

end CallbackChain

end Chain

namespace Isolation

variable {Args Kwargs Value Error : Type}

/-- What `trigger_parallel` and `trigger_until` have done: the results, the places of the callbacks
called, and the once-only ones they have disabled. -/
structure Triggered (Value : Type) where
  results : List Value
  ran : List Nat
  disabled : List Nat

namespace Event

/-- `execute_callback`, added to what the other tasks have done. -/
def executeCallback (e : Event Args Kwargs Value Error) (isNone : Value → Bool) (args : Args)
    (kwargs : Kwargs) (info : Chain.CallbackInfo) (i : Nat) (s : Triggered Value) :
    Triggered Value :=
  match e.turn args kwargs i with
  | .called (.value result) =>
    { results := if isNone result then s.results else s.results ++ [result]
      ran := s.ran ++ [i]
      disabled := if info.once then s.disabled ++ [info.id] else s.disabled }
  | .called (.raised _) => { s with ran := s.ran ++ [i] }
  | _ => s

/-- The tasks of `trigger_parallel` from a place on. Whether a callback is enabled was asked before
any of them ran. -/
def parallelLoop (e : Event Args Kwargs Value Error) (isNone : Value → Bool) (args : Args)
    (kwargs : Kwargs) : List Chain.CallbackInfo → Nat → Triggered Value → Triggered Value
  | [], _, s => s
  | info :: infos, i, s =>
    e.parallelLoop isNone args kwargs infos (i + 1)
      (if info.enabled then e.executeCallback isNone args kwargs info i s else s)

def triggerParallel (e : Event Args Kwargs Value Error) (isNone : Value → Bool) (args : Args)
    (kwargs : Kwargs) : Triggered Value :=
  e.parallelLoop isNone args kwargs e.callbacks 0 ⟨[], [], []⟩

/-- The handler of the exceptions in `trigger_until`, which go into the log under the name of the
callback. -/
def logFailure (e : Event Args Kwargs Value Error) (info : Chain.CallbackInfo) :
    Option (Outcome Value Error) :=
  if e.enableLogging ∧ ¬ e.named info.callback then some (.raised .attributeError) else none

/-- The loop of `trigger_until` over the callbacks from a place on, with what it ends with. -/
def untilLoop (e : Event Args Kwargs Value Error) (condition : Value → Outcome Bool Error)
    (args : Args) (kwargs : Kwargs) : List Chain.CallbackInfo → Nat → Triggered Value →
    Triggered Value × Option (Outcome Value Error)
  | [], _, s => (s, none)
  | info :: infos, i, s =>
    -- An exception is logged, and the loop goes on.
    let failed (t : Triggered Value) : Triggered Value × Option (Outcome Value Error) :=
      match e.logFailure info with
      | some raised => (t, some raised)
      | none => e.untilLoop condition args kwargs infos (i + 1) t
    if info.enabled then
      match e.turn args kwargs i with
      | .stopped => (s, none)
      | .skipped => e.untilLoop condition args kwargs infos (i + 1) s
      | .filterRaised _ => failed s
      | .called (.raised _) => failed { s with ran := s.ran ++ [i] }
      | .called (.value result) =>
        let called : Triggered Value := { s with ran := s.ran ++ [i] }
        let disabled : Triggered Value := { called with
          disabled := if info.once then s.disabled ++ [info.id] else s.disabled }
        match condition result with
        | .raised _ => failed called
        | .value false => e.untilLoop condition args kwargs infos (i + 1) disabled
        | .value true =>
          match e.logFailure info with
          | some raised => (called, some raised)
          | none => ({ disabled with results := s.results ++ [result] }, some (.value result))
    else e.untilLoop condition args kwargs infos (i + 1) s

def triggerUntil (e : Event Args Kwargs Value Error) (condition : Value → Outcome Bool Error)
    (args : Args) (kwargs : Kwargs) : Triggered Value × Option (Outcome Value Error) :=
  e.untilLoop condition args kwargs e.callbacks 0 ⟨[], [], []⟩

def EnabledAt (e : Event Args Kwargs Value Error) (i : Nat) : Prop :=
  ∃ info, e.callbacks[i]? = some info ∧ info.enabled = true

variable {e : Event Args Kwargs Value Error} {args : Args} {kwargs : Kwargs}

theorem forall_enabled_append {ran : List Nat} {i : Nat} (h : ∀ j ∈ ran, e.EnabledAt j)
    (hi : e.EnabledAt i) : ∀ j ∈ ran ++ [i], e.EnabledAt j := by
  intro j hj
  rcases mem_append.mp hj with hj | hj
  · exact h j hj
  · exact mem_singleton.mp hj ▸ hi

theorem executeCallback_enabled {isNone : Value → Bool} {info : Chain.CallbackInfo} {i : Nat}
    {s : Triggered Value} (h : ∀ j ∈ s.ran, e.EnabledAt j) (hi : e.EnabledAt i) :
    ∀ j ∈ (e.executeCallback isNone args kwargs info i s).ran, e.EnabledAt j := by
  unfold executeCallback
  split
  · exact forall_enabled_append h hi
  · exact forall_enabled_append h hi
  · exact h

theorem parallelLoop_enabled {isNone : Value → Bool} (infos : List Chain.CallbackInfo) (i : Nat)
    (s : Triggered Value) (hinfos : e.callbacks.drop i = infos) (h : ∀ j ∈ s.ran, e.EnabledAt j) :
    ∀ j ∈ (e.parallelLoop isNone args kwargs infos i s).ran, e.EnabledAt j := by
  induction infos generalizing i s with
  | nil => exact h
  | cons info infos ih =>
    obtain ⟨hinfo, hrest⟩ := Chain.getElem?_of_drop hinfos
    rw [parallelLoop]
    refine ih (i + 1) _ hrest ?_
    split
    · next henabled => exact executeCallback_enabled h ⟨info, hinfo, henabled⟩
    · exact h

theorem untilLoop_enabled {condition : Value → Outcome Bool Error}
    (infos : List Chain.CallbackInfo) (i : Nat) (s : Triggered Value)
    (hinfos : e.callbacks.drop i = infos) (h : ∀ j ∈ s.ran, e.EnabledAt j) :
    ∀ j ∈ (e.untilLoop condition args kwargs infos i s).1.ran, e.EnabledAt j := by
  induction infos generalizing i s with
  | nil => exact h
  | cons info infos ih =>
    obtain ⟨hinfo, hrest⟩ := Chain.getElem?_of_drop hinfos
    rw [untilLoop]
    by_cases henabled : info.enabled = true
    · have hcalled := forall_enabled_append h ⟨info, hinfo, henabled⟩
      have hfailed : ∀ t : Triggered Value, (∀ j ∈ t.ran, e.EnabledAt j) →
          ∀ j ∈ (match e.logFailure info with
            | some raised => (t, some raised)
            | none => e.untilLoop condition args kwargs infos (i + 1) t).1.ran, e.EnabledAt j := by
        intro t ht
        split
        · exact ht
        · exact ih (i + 1) t hrest ht
      rw [if_pos henabled]
      cases e.turn args kwargs i with
      | stopped => exact h
      | skipped => exact ih (i + 1) s hrest h
      | filterRaised exception => exact hfailed s h
      | called outcome =>
        cases outcome with
        | raised exception => exact hfailed _ hcalled
        | value result =>
          dsimp only
          split
          · exact hfailed { s with ran := s.ran ++ [i] } hcalled
          · exact ih (i + 1) _ hrest hcalled
          · split
            · exact hcalled
            · exact hcalled
    · rw [if_neg henabled]
      exact ih (i + 1) s hrest h

end Event

end Isolation

namespace Registration

open Chain (CallbackChain)

/-- The arguments of `register_sync`, with the wrapper the decorator makes. -/
structure Options where
  callback : FunctionId
  wrapper : Option FunctionId
  priority : Int
  once : Bool
  scope : String
  tags : List String
  callbackType : String
  maxRetries : Int
  rollbackHandler : Option FunctionId
  errorHandler : Option FunctionId

/-- The framework: how many callbacks were registered, the lists and chains of the events, and the
callbacks that are disabled. -/
structure Framework where
  registered : Nat
  callbacks : Dict String (List Chain.CallbackInfo)
  chains : Dict String CallbackChain
  disabled : List Nat

/-- A call of the framework, and the triggers, which disable once-only callbacks. A callback may
have a `__wrapped__` function. -/
inductive Call where
  | register (event : String) (options : Options)
  | unregister (event : String) (callback : FunctionId) (wrapped : Option FunctionId)
  | unregisterNamespace (scope : String)
  | unregisterByTags (tags : List String)
  | unregisterEvent (event : String)
  | disable (ids : List Nat)

namespace Framework

def new : Framework := ⟨0, .empty, .empty, []⟩

def listOf (s : Framework) (event : String) : List Chain.CallbackInfo :=
  (s.callbacks.get? event).getD []

/-- The info that `register_sync` makes. -/
def infoOf (s : Framework) (o : Options) : Chain.CallbackInfo where
  id := s.registered
  callback := o.callback
  wrapper := o.wrapper
  priority := o.priority
  once := o.once
  enabled := true
  scope := o.scope
  tags := o.tags
  callbackType := o.callbackType
  maxRetries := o.maxRetries

def hasHandler (o : Options) : Bool := o.rollbackHandler.isSome || o.errorHandler.isSome

/-- `register_sync`. -/
def register (s : Framework) (event : String) (o : Options) : Framework :=
  let info := s.infoOf o
  { s with
    registered := s.registered + 1
    callbacks := s.callbacks.set event (Chain.sortByPriority (s.listOf event ++ [info]))
    chains :=
      if hasHandler o then
        s.chains.set event
          (((s.chains.get? event).getD .empty).add info o.rollbackHandler o.errorHandler)
      else s.chains }

def standsFor (callback : FunctionId) (wrapped : Option FunctionId)
    (info : Chain.CallbackInfo) : Bool :=
  info.callback = callback ∨ info.wrapper = some callback ∨ wrapped = some info.callback

/-- `unregister_sync`. -/
def unregister (s : Framework) (event : String) (callback : FunctionId)
    (wrapped : Option FunctionId) : Framework :=
  match s.callbacks.get? event with
  | none => s
  | some infos =>
    match infos.find? (standsFor callback wrapped) with
    | none => s
    | some target =>
      { s with
        callbacks := s.callbacks.set event
          (infos.filter fun info => info.callback ≠ target.callback)
        chains :=
          match s.chains.get? event with
          | some chain => s.chains.set event (chain.remove target.callback)
          | none => s.chains }

def removeWhere (s : Framework) (removed : Chain.CallbackInfo → Bool) : Framework :=
  { s with callbacks := s.callbacks.mapValues fun _ infos ↦ infos.filter fun info ↦ !removed info }

def unregisterNamespace (s : Framework) (scope : String) : Framework :=
  s.removeWhere fun info => info.scope = scope

def unregisterByTags (s : Framework) (tags : List String) : Framework :=
  s.removeWhere fun info => info.tags.any fun tag => tags.contains tag

/-- `unregister_event`, which asks for the name of each callback of the event first. -/
def unregisterEvent (named : FunctionId → Bool) (s : Framework) (event : String) : Framework :=
  if (s.listOf event).all fun info => named info.callback then
    { s with callbacks := s.callbacks.erase event, chains := s.chains.erase event }
  else s

/-- One call, where `named` says which functions have a name. -/
def step (named : FunctionId → Bool) (s : Framework) : Call → Framework
  | .register event options => s.register event options
  | .unregister event callback wrapped => s.unregister event callback wrapped
  | .unregisterNamespace scope => s.unregisterNamespace scope
  | .unregisterByTags tags => s.unregisterByTags tags
  | .unregisterEvent event => s.unregisterEvent named event
  | .disable ids => { s with disabled := s.disabled ++ ids }

/-- An info as it stands: list and chain share it, and with it whether it is enabled. -/
def view (s : Framework) (info : Chain.CallbackInfo) : Chain.CallbackInfo :=
  { info with enabled := decide (info.id ∉ s.disabled) }

def registeredFor (s : Framework) (event : String) : List Chain.CallbackInfo :=
  (s.listOf event).map s.view

/-- The chain that `trigger_chain` executes: that of the event, or one made of its list. -/
def chainOf (s : Framework) (event : String) : CallbackChain :=
  match s.chains.get? event with
  | some chain => { chain with callbacks := chain.callbacks.map s.view }
  | none => .ofList (s.registeredFor event)

def EnabledAt (s : Framework) (event : String) (i : Nat) : Prop :=
  ∃ info, (s.registeredFor event)[i]? = some info ∧ info.enabled = true

structure RunsRegistered (s : Framework) (event : String) : Prop where
  trigger : ∀ {Args Kwargs Value Error : Type} (e : Isolation.Event Args Kwargs Value Error)
    (args : Args) (kwargs : Kwargs),
    ∀ i ∈ ({ e with callbacks := s.registeredFor event }.trigger args kwargs).1.ran,
      s.EnabledAt event i
  triggerParallel : ∀ {Args Kwargs Value Error : Type} (e : Isolation.Event Args Kwargs Value Error)
    (isNone : Value → Bool) (args : Args) (kwargs : Kwargs),
    ∀ i ∈ ({ e with callbacks := s.registeredFor event }.triggerParallel isNone args kwargs).ran,
      s.EnabledAt event i
  triggerUntil : ∀ {Args Kwargs Value Error : Type} (e : Isolation.Event Args Kwargs Value Error)
    (condition : Value → Isolation.Outcome Bool Error) (args : Args) (kwargs : Kwargs),
    ∀ i ∈ ({ e with callbacks := s.registeredFor event }.triggerUntil condition args kwargs).1.ran,
      s.EnabledAt event i
  triggerChain : ∀ {Value Error : Type} (f : Chain.Callbacks Value Error),
    ∀ call ∈ ((s.chainOf event).execute f).1.calls, ∀ i, CallbackChain.Tries i call →
      ∃ info ∈ s.registeredFor event, (s.chainOf event).EnabledAt i info
  triggerChainAll : ∀ {Value Error : Type} (f : Chain.Callbacks Value Error),
    ((s.chainOf event).execute f).2.action = .continue →
      ∀ info ∈ s.registeredFor event, info.enabled = true →
        ∃ i, (s.chainOf event).EnabledAt i info ∧
          ∃ call ∈ ((s.chainOf event).execute f).1.calls, CallbackChain.Tries i call

/-- The call keeps the chains in step with the lists: a callback comes with a handler just when its
event has a chain, or has no other callback to run, and has an attempt; what is removed from the
lists by namespace or tags is in no chain, or disabled. -/
def InStep (s : Framework) : Call → Prop
  | .register event o => 0 ≤ o.maxRetries ∧
      if hasHandler o then
        (s.chains.get? event).isSome = true ∨ ∀ info ∈ s.listOf event, info.id ∈ s.disabled
      else s.chains.get? event = none
  | .unregisterNamespace scope => ∀ event chain, s.chains.get? event = some chain →
      ∀ info ∈ chain.callbacks, info.scope = scope → info.id ∈ s.disabled
  | .unregisterByTags tags => ∀ event chain, s.chains.get? event = some chain →
      ∀ info ∈ chain.callbacks, (∃ tag ∈ info.tags, tag ∈ tags) → info.id ∈ s.disabled
  | _ => True

/-- A chain and the list of its event have the same callbacks, as far as they are enabled, and each
callback has an attempt. -/
structure Agrees (s : Framework) : Prop where
  chain : ∀ event chain, s.chains.get? event = some chain → ∀ info, info.id ∉ s.disabled →
    (info ∈ chain.callbacks ↔ info ∈ s.listOf event)
  retries : ∀ event, ∀ info ∈ s.listOf event, 0 ≤ info.maxRetries

variable {s : Framework}

theorem agrees_new : Agrees new where
  chain := fun _ _ h => by cases h
  retries := fun _ _ h => by cases h

variable {event : String}

theorem listOf_set {callbacks : Dict String (List Chain.CallbackInfo)} {other : String}
    {infos : List Chain.CallbackInfo} (hs : s.callbacks = callbacks.set event infos) :
    s.listOf other = if other = event then infos else (callbacks.get? other).getD [] := by
  rw [listOf, hs, get?_set]
  split <;> rfl

theorem mem_listOf_register {other : String} {o : Options} {info : Chain.CallbackInfo} :
    info ∈ (s.register event o).listOf other ↔
      info ∈ s.listOf other ∨ other = event ∧ info = s.infoOf o := by
  rw [listOf_set rfl]
  by_cases h : other = event
  · subst h
    rw [if_pos rfl, Chain.mem_sortByPriority, mem_append, mem_singleton]
    exact ⟨Or.imp_right fun h => ⟨rfl, h⟩, Or.imp_right And.right⟩
  · rw [if_neg h]
    exact ⟨.inl, fun h' => h'.resolve_right fun h' => h h'.1⟩

theorem Agrees.register (h : Agrees s) {o : Options}
    (hstep : InStep s (.register event o)) : Agrees (s.register event o) where
  chain := by
    intro other chain hchain info hinfo
    obtain ⟨-, hcases⟩ := hstep
    rw [mem_listOf_register]
    change (if hasHandler o then _ else s.chains : Dict String CallbackChain).get? other = _
      at hchain
    by_cases hhandler : hasHandler o = true
    · rw [if_pos hhandler] at hchain hcases
      by_cases heq : other = event
      · subst heq
        rw [get?_set_self] at hchain
        cases hchain
        rw [CallbackChain.mem_add]
        cases hold : s.chains.get? other with
        | some old =>
          rw [Option.getD_some, h.chain other old hold info hinfo]
          exact ⟨Or.imp_right fun h => ⟨rfl, h⟩, Or.imp_right And.right⟩
        | none =>
          rw [hold] at hcases
          have hnone : info ∉ s.listOf other :=
            fun hmem => hinfo (hcases.resolve_left (by simp) info hmem)
          simp [hnone, CallbackChain.empty]
      · rw [get?_set_of_ne _ _ heq] at hchain
        rw [h.chain other chain hchain info hinfo]
        exact ⟨.inl, fun h' => h'.resolve_right fun h' => heq h'.1⟩
    · rw [if_neg hhandler] at hchain hcases
      rw [h.chain other chain hchain info hinfo]
      refine ⟨.inl, fun h' => h'.resolve_right ?_⟩
      rintro ⟨rfl, -⟩
      rw [hcases] at hchain
      cases hchain
  retries := by
    intro other info hmem
    rcases mem_listOf_register.mp hmem with hmem | ⟨-, rfl⟩
    · exact h.retries other info hmem
    · exact hstep.1

theorem Agrees.unregister (h : Agrees s) (event : String) (callback : FunctionId)
    (wrapped : Option FunctionId) : Agrees (s.unregister event callback wrapped) := by
  unfold Framework.unregister
  cases hinfos : s.callbacks.get? event with
  | none => exact h
  | some infos =>
    have hlist : s.listOf event = infos := by rw [listOf, hinfos, Option.getD_some]
    dsimp only
    cases infos.find? (standsFor callback wrapped) with
    | none => exact h
    | some target =>
      refine ⟨fun other chain hchain info hinfo => ?_, fun other info hmem => ?_⟩
      · rw [listOf_set rfl]
        by_cases heq : other = event
        · subst heq
          rw [if_pos rfl, mem_filter, decide_eq_true_iff]
          dsimp only at hchain
          cases hold : s.chains.get? other with
          | none =>
            rw [hold] at hchain
            exact absurd (hold.symm.trans hchain) (by simp)
          | some old =>
            rw [hold] at hchain
            dsimp only at hchain
            rw [get?_set_self] at hchain
            cases hchain
            rw [CallbackChain.mem_remove, h.chain other old hold info hinfo, hlist]
        · rw [if_neg heq]
          refine h.chain other chain ?_ info hinfo
          rw [← hchain]
          dsimp only
          cases s.chains.get? event with
          | none => rfl
          | some old => exact (get?_set_of_ne _ _ heq).symm
      · rw [listOf_set rfl] at hmem
        by_cases heq : other = event
        · rw [if_pos heq] at hmem
          exact h.retries event info (hlist ▸ (mem_filter.mp hmem).1)
        · rw [if_neg heq] at hmem
          exact h.retries other info hmem

theorem mem_listOf_removeWhere {removed : Chain.CallbackInfo → Bool} {info : Chain.CallbackInfo} :
    info ∈ (s.removeWhere removed).listOf event ↔
      info ∈ s.listOf event ∧ removed info = false := by
  rw [listOf, removeWhere, get?_mapValues, listOf]
  cases s.callbacks.get? event with
  | none => simp
  | some infos => simp

theorem Agrees.removeWhere (h : Agrees s) {removed : Chain.CallbackInfo → Bool}
    (hstep : ∀ event chain, s.chains.get? event = some chain → ∀ info ∈ chain.callbacks,
      removed info = true → info.id ∈ s.disabled) : Agrees (s.removeWhere removed) where
  chain := by
    intro event chain hchain info hinfo
    rw [mem_listOf_removeWhere, ← h.chain event chain hchain info hinfo]
    refine ⟨fun hmem => ⟨hmem, ?_⟩, And.left⟩
    exact Bool.eq_false_iff.mpr fun hremoved => hinfo (hstep event chain hchain info hmem hremoved)
  retries := fun event info hmem => h.retries event info (mem_listOf_removeWhere.mp hmem).1

theorem Agrees.unregisterEvent (h : Agrees s) (named : FunctionId → Bool) (event : String) :
    Agrees (s.unregisterEvent named event) := by
  unfold Framework.unregisterEvent
  split
  · refine ⟨fun other chain hchain info hinfo => ?_, fun other info hmem => ?_⟩
    · rw [get?_erase] at hchain
      split at hchain
      · cases hchain
      · next hne =>
        rw [h.chain other chain hchain info hinfo, listOf, listOf, get?_erase, if_neg hne]
    · rw [listOf, get?_erase] at hmem
      split at hmem
      · cases hmem
      · exact h.retries other info hmem
  · exact h

theorem Agrees.step (h : Agrees s) (named : FunctionId → Bool) {call : Call}
    (hstep : InStep s call) : Agrees (s.step named call) := by
  cases call with
  | register event o => exact h.register hstep
  | unregister event callback wrapped => exact h.unregister event callback wrapped
  | unregisterNamespace scope =>
    exact h.removeWhere fun event chain hchain info hmem hscope =>
      hstep event chain hchain info hmem (of_decide_eq_true hscope)
  | unregisterByTags tags =>
    refine h.removeWhere fun event chain hchain info hmem htags =>
      hstep event chain hchain info hmem ?_
    obtain ⟨tag, htag, hgiven⟩ := any_eq_true.mp htags
    exact ⟨tag, htag, contains_iff_mem.mp hgiven⟩
  | unregisterEvent event => exact h.unregisterEvent named event
  | disable ids =>
    exact ⟨fun event chain hchain info hinfo => h.chain event chain hchain info
      fun hmem => hinfo (mem_append_left ids hmem), h.retries⟩

theorem Agrees.mem_chainOf (h : Agrees s) (event : String) (info : Chain.CallbackInfo)
    (henabled : info.enabled = true) :
    info ∈ (s.chainOf event).callbacks ↔ info ∈ s.registeredFor event := by
  unfold chainOf
  cases hchain : s.chains.get? event with
  | none => exact CallbackChain.mem_ofList
  | some chain =>
    have hview : ∀ {stored : Chain.CallbackInfo}, s.view stored = info →
        stored.id ∉ s.disabled := by
      rintro stored rfl
      exact of_decide_eq_true henabled
    rw [registeredFor, mem_map, mem_map]
    constructor
    · rintro ⟨stored, hmem, heq⟩
      exact ⟨stored, (h.chain event chain hchain stored (hview heq)).mp hmem, heq⟩
    · rintro ⟨stored, hmem, heq⟩
      exact ⟨stored, (h.chain event chain hchain stored (hview heq)).mpr hmem, heq⟩

theorem Agrees.retries_view (h : Agrees s) {info : Chain.CallbackInfo}
    (hmem : info ∈ s.registeredFor event) : 0 ≤ info.maxRetries := by
  obtain ⟨stored, hstored, rfl⟩ := mem_map.mp hmem
  exact h.retries event stored hstored

theorem Agrees.runsRegistered (h : Agrees s) (event : String) : RunsRegistered s event where
  trigger := by
    intro Args Kwargs Value Error e args kwargs i hi
    obtain ⟨info, hinfo, henabled, -⟩ := Isolation.Event.takesPart_of_mem_ran hi
    exact ⟨info, hinfo, henabled⟩
  triggerParallel := by
    intro Args Kwargs Value Error e isNone args kwargs
    exact Isolation.Event.parallelLoop_enabled _ 0 _ rfl nofun
  triggerUntil := by
    intro Args Kwargs Value Error e condition args kwargs
    exact Isolation.Event.untilLoop_enabled _ 0 _ rfl nofun
  triggerChain := by
    intro Value Error f call hcall i htries
    obtain ⟨⟨calls, hcalls, honly⟩, -⟩ := CallbackChain.walk_tries
      (c := s.chainOf event) (f := f) (s.chainOf event).callbacks 0 CallbackChain.start rfl
    have hmem : call ∈ calls := by
      rw [CallbackChain.execute, hcalls] at hcall
      exact hcall
    obtain ⟨info, hinfo⟩ := honly call hmem i htries
    exact ⟨info, (h.mem_chainOf event info hinfo.2).mp (mem_of_getElem? hinfo.1), hinfo⟩
  triggerChainAll := by
    intro Value Error f haction info hmem henabled
    obtain ⟨-, hall⟩ := CallbackChain.walk_tries
      (c := s.chainOf event) (f := f) (s.chainOf event).callbacks 0 CallbackChain.start rfl
    obtain ⟨i, hi⟩ := List.getElem?_of_mem ((h.mem_chainOf event info henabled).mpr hmem)
    exact ⟨i, ⟨hi, henabled⟩, hall haction i info (Nat.zero_le i) ⟨hi, henabled⟩
      (h.retries_view hmem)⟩

/-- As long as the chains are kept in step with the lists, the triggers of every event run just what
is registered for it. -/
theorem triggers_run_registered (named : FunctionId → Bool) (calls : List Call)
    (hcalls : Meets (step named) InStep new calls) {t : Framework}
    (ht : Reached (step named) new calls t) (event : String) : RunsRegistered t event :=
  (reached_invariant (I := Agrees) (fun _ _ h hstep => h.step named hstep) agrees_new hcalls
    ht).runsRegistered event

def withRollback : Options := ⟨0, none, 0, false, "plugin", [], "", 0, some 1, none⟩

/-- The framework after a callback with a rollback handler was registered. -/
theorem registered_runs : RunsRegistered (run (step fun _ => true) new
    [.register "order" withRollback]) "order" :=
  triggers_run_registered (fun _ => true) [.register "order" withRollback]
    ⟨⟨by decide, .inr fun _ h => by cases h⟩, trivial⟩ ⟨_, prefix_rfl, rfl⟩ "order"

/-- Its namespace is unregistered, and the chain still runs the callback. -/
theorem unregistered_runs : ¬ RunsRegistered (run (step fun _ => true) new
    [.register "order" withRollback, .unregisterNamespace "plugin"]) "order" := by
  intro h
  obtain ⟨info, hmem, -⟩ := h.triggerChain (⟨fun _ _ => .value (), fun _ _ => .value (),
    fun _ => true⟩ : Chain.Callbacks Unit Unit) (.attempted 0 0 (.value ()))
    (.head _) 0 ⟨0, _, rfl⟩
  cases hmem

end Framework

end Registration

end JiuwenSpec.Callback

import Mathlib.Data.List.Sort
import JiuwenSpec.Base.Json

/-!
# Callbacks of an event

A trigger walks the list of an event's callbacks while they suspend. Registration appends to that
list and sorts it in place; unregistration puts a new list in its place, and a trigger that is
under way keeps the old one.
Source: `core/runner/callback/framework.py`.
-/

namespace JiuwenSpec.Callback

open Base

abbrev FunctionId := Nat

/-- `CallbackInfo`, with its identity. Whether it is enabled is kept by the framework. -/
structure CallbackInfo where
  id : Nat
  callback : FunctionId
  wrapper : Option FunctionId
  priority : Int
  once : Bool
  isTransform : Bool
deriving DecidableEq

/-- `lst.sort(key=lambda x: x.priority, reverse=True)`, which is stable. -/
def sortByPriority (infos : List CallbackInfo) : List CallbackInfo :=
  infos.insertionSort fun a b => b.priority ≤ a.priority

/-- Where a trigger stands: in its hooks, before the next callback, in the filters of a callback, in
the callback, or at its end, which it may have been brought to. -/
inductive Phase where
  | hooks
  | ready
  | filtering (info : CallbackInfo)
  | running (info : CallbackInfo)
  | over (stopped : Bool)
deriving DecidableEq

/-- A trigger: the list it walks and how far it has come, what was registered and enabled when it
started, what it has run, and what its filters have skipped. -/
structure Trigger where
  list : Option Nat
  index : Nat
  phase : Phase
  started : List CallbackInfo
  ran : List CallbackInfo
  skipped : List Nat

/-- The framework for one event: how many callbacks were registered, the lists there have been and
the one that is current, which callbacks are disabled and which were unregistered, its triggers, and
the successful runs of once-only callbacks. -/
structure Framework where
  registered : Nat
  lists : List (List CallbackInfo)
  current : Option Nat
  disabled : List Nat
  removed : List Nat
  triggers : List Trigger
  succeeded : List Nat

namespace Framework

def start : Framework := ⟨0, [], none, [], [], [], []⟩

def listOf (s : Framework) (list : Option Nat) : List CallbackInfo :=
  (list.bind fun k => s.lists[k]?).getD []

/-- `self._callbacks.get(event, [])`. -/
def callbacks (s : Framework) : List CallbackInfo := s.listOf s.current

/-- `register_sync`. -/
def register (s : Framework) (callback : FunctionId) (wrapper : Option FunctionId) (priority : Int)
    (once isTransform : Bool) : Framework :=
  let info : CallbackInfo := ⟨s.registered, callback, wrapper, priority, once, isTransform⟩
  match s.current with
  | none =>
    { s with
      registered := s.registered + 1
      lists := s.lists ++ [[info]]
      current := some s.lists.length }
  | some k =>
    { s with
      registered := s.registered + 1
      lists := s.lists.modify k fun infos => sortByPriority (infos ++ [info]) }

def IsTarget (callback : FunctionId) (wrapped : Option FunctionId) (info : CallbackInfo) : Prop :=
  info.callback = callback ∨ info.wrapper = some callback ∨ wrapped = some info.callback

instance (callback : FunctionId) (wrapped : Option FunctionId) :
    DecidablePred (IsTarget callback wrapped) := fun _ => inferInstanceAs (Decidable (_ ∨ _))

/-- `unregister_sync`, with the function the given one wraps. -/
def unregister (s : Framework) (callback : FunctionId) (wrapped : Option FunctionId) :
    Framework :=
  match s.current with
  | none => s
  | some _ =>
    match s.callbacks.find? fun info => decide (IsTarget callback wrapped info) with
    | none => s
    | some target =>
      { s with
        lists := s.lists ++ [s.callbacks.filter fun info ↦ decide (info.callback ≠ target.callback)]
        current := some s.lists.length
        removed := s.removed ++ (s.callbacks.filter fun info =>
          decide (info.callback = target.callback)).map CallbackInfo.id }

/-- A call of `trigger`, up to its hooks. -/
def trigger (s : Framework) : Framework :=
  { s with triggers := s.triggers ++
    [⟨none, 0, .hooks, s.callbacks.filter fun info => decide (info.id ∉ s.disabled), [], []⟩] }

inductive FilterAction where
  | continue
  | skip
  | stop
deriving DecidableEq

inductive Outcome where
  | success
  | failure
  | abort
deriving DecidableEq

def takeList (s : Framework) (t : Trigger) : Trigger :=
  match t.phase with
  | .hooks => { t with list := s.current, phase := .ready }
  | _ => t

/-- The next callback of the loop of `trigger`. -/
def nextCallback (s : Framework) (t : Trigger) : Trigger :=
  match t.phase with
  | .ready =>
    match (s.listOf t.list)[t.index]? with
    | none => { t with phase := .over false }
    | some info =>
      if info.id ∈ s.disabled ∨ info.isTransform then { t with index := t.index + 1 }
      else { t with index := t.index + 1, phase := .filtering info }
  | _ => t

/-- The filters of a callback are done. A callback that passes them is called. -/
def filtered (action : FilterAction) (t : Trigger) : Trigger :=
  match t.phase with
  | .filtering info =>
    match action with
    | .continue => { t with phase := .running info, ran := t.ran ++ [info] }
    | .skip => { t with phase := .ready, skipped := info.id :: t.skipped }
    | .stop => { t with phase := .over true }
  | _ => t

def finished (outcome : Outcome) (t : Trigger) : Trigger :=
  match t.phase with
  | .running _ => { t with phase := if outcome = .abort then .over true else .ready }
  | _ => t

def succeededOnce (outcome : Outcome) (t : Trigger) : Option CallbackInfo :=
  match t.phase with
  | .running info => if outcome = .success ∧ info.once then some info else none
  | _ => none

end Framework

open Framework in
/-- The steps of a framework; a trigger is named by its place. -/
inductive Action where
  | register (callback : FunctionId) (wrapper : Option FunctionId) (priority : Int)
    (once isTransform : Bool)
  | unregister (callback : FunctionId) (wrapped : Option FunctionId)
  | trigger
  | takeList (j : Nat)
  | nextCallback (j : Nat)
  | filtered (j : Nat) (action : FilterAction)
  | finished (j : Nat) (outcome : Outcome)

open Framework in
def step (s : Framework) : Action → Framework
  | .register callback wrapper priority once isTransform =>
    s.register callback wrapper priority once isTransform
  | .unregister callback wrapped => s.unregister callback wrapped
  | .trigger => s.trigger
  | .takeList j => { s with triggers := s.triggers.modify j s.takeList }
  | .nextCallback j => { s with triggers := s.triggers.modify j s.nextCallback }
  | .filtered j action => { s with triggers := s.triggers.modify j (Framework.filtered action) }
  | .finished j outcome =>
    match (s.triggers[j]?).bind (succeededOnce outcome) with
    | none => { s with triggers := s.triggers.modify j (Framework.finished outcome) }
    | some info =>
      { s with
        triggers := s.triggers.modify j (Framework.finished outcome)
        disabled := info.id :: s.disabled
        succeeded := info.id :: s.succeeded }

end JiuwenSpec.Callback

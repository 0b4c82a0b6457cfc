import Mathlib.Data.Rat.Init
import JiuwenSpec.Base.Assoc
import JiuwenSpec.Base.Dict

/-!
# Differences of session states

A session state is a nested dictionary. Its difference to a newer one is a flat dictionary of
values to set, keyed by dotted paths, and a list of paths to remove; it is applied by splitting
the paths at their dots.
Source: `core/session/vcs/delta.py`.
-/

namespace JiuwenSpec.Vcs

open Base

inductive Json where
  | null
  | bool (b : Bool)
  | num (q : Rat)
  | str (s : String)
  | list (items : List Json)
  | dict (entries : List (String × Json))

abbrev State := List (String × Json)

mutual

/-- Equality of values: Python's `==`, for which a boolean is a number, or the strict one. -/
def Json.eqv (strict : Bool) : Json → Json → Bool
  | .null, .null => true
  | .bool a, .bool b => a = b
  | .num p, .num q => p = q
  | .bool a, .num q => !strict && (if a then (1 : Rat) else 0) = q
  | .num p, .bool b => !strict && p = (if b then (1 : Rat) else 0)
  | .str s, .str t => s = t
  | .list xs, .list ys => Json.eqvList strict xs ys
  | .dict es, .dict fs =>
    Json.eqvEntries strict es fs && fs.all fun f => (assocGet? f.1 es).isSome
  | _, _ => false

def Json.eqvList (strict : Bool) : List Json → List Json → Bool
  | [], [] => true
  | x :: xs, y :: ys => Json.eqv strict x y && Json.eqvList strict xs ys
  | _, _ => false

/-- Each entry is in the other dictionary, with an equal value. -/
def Json.eqvEntries (strict : Bool) : List (String × Json) → List (String × Json) → Bool
  | [], _ => true
  | (k, v) :: es, fs =>
    (match assocGet? k fs with
      | some w => Json.eqv strict v w
      | none => false) && Json.eqvEntries strict es fs

end

/-- Python's `==`. -/
def Json.pyEq (a b : Json) : Bool := a.eqv false b

def Json.same (a b : Json) : Bool := a.eqv true b

def State.same (s t : State) : Bool := (Json.dict s).same (.dict t)

/-- `f"{prefix}.{key}" if prefix else key`. -/
def joinPath (path key : String) : String := if path = "" then key else path ++ "." ++ key

/-- `path.split(".")`. -/
def splitPath (path : String) : List String := (path.toList.splitOn '.').map String.ofList

structure StateDelta where
  set : List (String × Json)
  removed : List String

section

variable {π : Type} (step : π → String → π)

mutual

/-- The writes for one key of the new dictionary, and the removals inside it. -/
def diffValue (path : π) (key : String) (old : State) :
    Json → List (π × Json) × List π
  | .dict ns =>
    match assocGet? key old with
    | none => ([(step path key, .dict ns)], [])
    | some (.dict os) =>
      let changes := diffEntries (step path key) os ns
      (changes.1, changes.2 ++
        ((os.map Prod.fst).filter (· ∉ ns.map Prod.fst)).map (step (step path key)))
    | some w => if w.pyEq (.dict ns) then ([], []) else ([(step path key, .dict ns)], [])
  | v =>
    match assocGet? key old with
    | none => ([(step path key, v)], [])
    | some w => if w.pyEq v then ([], []) else ([(step path key, v)], [])

def diffEntries (path : π) (old : State) :
    List (String × Json) → List (π × Json) × List π
  | [] => ([], [])
  | (key, v) :: rest =>
    let here := diffValue path key old v
    let later := diffEntries path old rest
    (here.1 ++ later.1, here.2 ++ later.2)

end

/-- `_diff_into`: the writes and the removals, over any way to extend a path by a key. -/
def diffInto (path : π) (old new : State) : List (π × Json) × List π :=
  let changes := diffEntries step path old new
  (changes.1,
    changes.2 ++ ((old.map Prod.fst).filter (· ∉ new.map Prod.fst)).map (step path))

end

def diffState (old new : State) : StateDelta where
  set := assocOfWrites (diffInto joinPath "" old new).1
  removed := (diffInto joinPath "" old new).2

/-- The dictionary under a key; a new one where there is none. -/
def childState (key : String) (state : State) : State :=
  match assocGet? key state with
  | some (.dict child) => child
  | _ => []

def setPath : List String → Json → State → State
  | [], _, state => state
  | [key], v, state => assocSet key v state
  | key :: keys, v, state => assocSet key (.dict (setPath keys v (childState key state))) state

def delPath : List String → State → State
  | [], state => state
  | [key], state => assocDelete key state
  | key :: keys, state =>
    match assocGet? key state with
    | some (.dict child) => assocSet key (.dict (delPath keys child)) state
    | _ => state

def applyState (state : State) (delta : StateDelta) : State :=
  delta.removed.foldl (fun s path => delPath (splitPath path) s)
    (delta.set.foldl (fun s w => setPath (splitPath w.1) w.2 s) state)

end JiuwenSpec.Vcs

/-!
## Rewinding a session

A rewind writes the restored contexts and state back into the live session. A part that is
empty in the restored state is not written, and a context that the restored state does not have
is not taken away, so they keep what the session holds now.
Source: `adapter.py`, `manager.py`, `core/session/state/base.py`,
`core/session/state/agent_state.py`.
-/

namespace JiuwenSpec.Vcs

open Base Dict List

variable {Ctx Enc : Type}

/-- What a session holds: its contexts in the engine and the two parts of its state. -/
structure Session (Ctx : Type) where
  contexts : Dict String Ctx
  globalState : State
  agentState : State

/-- A snapshot: the encoded contexts and the parts of the state, nothing where a part is missing. -/
structure SessionSnapshot (Enc : Type) where
  contexts : Dict String Enc
  globalState : Option State
  agentState : Option State

/-- The codec of contexts: `save_state` with `encode_context_state`, `decode_context_state` with
`load_state`. -/
structure ContextCodec (Ctx Enc : Type) where
  save : Ctx → Enc
  load : Enc → Ctx

/-- `_strip_context` on the global state. -/
def stripContext (globalState : State) : State := assocDelete "context" globalState

/-- `_snapshot`. -/
def takeSnapshot (codec : ContextCodec Ctx Enc) (session : Session Ctx) : SessionSnapshot Enc where
  contexts := session.contexts.mapValues fun _ c => codec.save c
  globalState := some (stripContext session.globalState)
  agentState := some session.agentState

/-- `InMemoryStateLike.set_state`: an empty or a missing state is not set. -/
def setState (live : State) (state : Option State) : State :=
  if state.getD [] = [] then live else state.getD []

def loadContexts (codec : ContextCodec Ctx Enc) (contexts : Dict String Ctx)
    (entries : List (String × Enc)) : Dict String Ctx :=
  entries.foldl (fun pool e => pool.set e.1 (codec.load e.2)) contexts

/-- `_apply`. -/
def applySnapshot (codec : ContextCodec Ctx Enc) (session : Session Ctx)
    (snapshot : SessionSnapshot Enc) : Session Ctx where
  contexts := loadContexts codec session.contexts snapshot.contexts.entries
  globalState := setState session.globalState snapshot.globalState
  agentState := setState session.agentState snapshot.agentState

structure SessionSnapshot.Agrees (taken restored : SessionSnapshot Enc) : Prop where
  contexts : ∀ cid, taken.contexts.get? cid = restored.contexts.get? cid
  globalState : taken.globalState.getD [] = restored.globalState.getD []
  agentState : taken.agentState.getD [] = restored.agentState.getD []

variable {codec : ContextCodec Ctx Enc} {session : Session Ctx} {restored : SessionSnapshot Enc}

theorem get?_foldl_set {entries : List (String × Enc)} (hn : (entries.map Prod.fst).Nodup)
    (pool : Dict String Ctx) (cid : String) :
    (loadContexts codec pool entries).get? cid =
      ((assocGet? cid entries).map codec.load).or (pool.get? cid) := by
  rw [loadContexts]
  induction entries generalizing pool with
  | nil => rfl
  | cons e entries ih =>
    rw [map_cons, nodup_cons] at hn
    rw [foldl_cons, ih hn.2, assocGet?]
    by_cases hcid : e.1 = cid
    · subst hcid
      rw [if_pos rfl, assocGet?_eq_none_iff.mpr hn.1, get?_set_self]
      rfl
    · rw [if_neg hcid, get?_set_of_ne _ _ (Ne.symm hcid)]

theorem assocGet?_entries (d : Dict String Enc) (cid : String) :
    assocGet? cid d.entries = d.get? cid := by
  cases h : d.get? cid with
  | none => exact assocGet?_eq_none_iff.mpr (get?_eq_none_iff.mp h)
  | some e => exact assocGet?_of_mem d.nodup (get?_eq_some_iff.mp h)

theorem get?_contexts_after (cid : String) :
    (takeSnapshot codec (applySnapshot codec session restored)).contexts.get? cid =
      ((restored.contexts.get? cid).map fun e => codec.save (codec.load e)).or
        ((session.contexts.get? cid).map codec.save) := by
  rw [takeSnapshot, applySnapshot, get?_mapValues, get?_foldl_set restored.contexts.nodup,
    assocGet?_entries]
  cases restored.contexts.get? cid <;> simp

theorem setState_eq_iff (f : State → State) (live : State) (state : Option State) :
    f (setState live state) = state.getD [] ↔
      if state.getD [] = [] then f live = [] else f (state.getD []) = state.getD [] := by
  rw [setState]
  split
  · next hempty => rw [hempty]
  · rfl

theorem stripContext_eq_self_iff {s : State} :
    stripContext s = s ↔ "context" ∉ s.map Prod.fst := by
  rw [stripContext, assocDelete, filter_eq_self]
  constructor
  · intro h hmem
    obtain ⟨e, he, hkey⟩ := mem_map.mp hmem
    exact of_decide_eq_true (h e he) hkey
  · intro h e he
    exact decide_eq_true fun hkey => h (mem_map.mpr ⟨e, he, hkey⟩)

/-- **When a rewind makes the session the restored one.** The session has no context that the
restored snapshot lacks, the restored contexts survive loading, and a part that is to be empty is
empty already. -/
theorem rewind_agrees_iff :
    (takeSnapshot codec (applySnapshot codec session restored)).Agrees restored ↔
      (∀ cid ∈ session.contexts.keys, cid ∈ restored.contexts.keys) ∧
        (∀ cid e, restored.contexts.get? cid = some e → codec.save (codec.load e) = e) ∧
        (if restored.globalState.getD [] = [] then stripContext session.globalState = []
          else "context" ∉ (restored.globalState.getD []).map Prod.fst) ∧
        (restored.agentState.getD [] = [] → session.agentState = []) := by
  have hcontexts : (∀ cid,
      (takeSnapshot codec (applySnapshot codec session restored)).contexts.get? cid =
        restored.contexts.get? cid) ↔
      (∀ cid ∈ session.contexts.keys, cid ∈ restored.contexts.keys) ∧
        ∀ cid e, restored.contexts.get? cid = some e → codec.save (codec.load e) = e := by
    constructor
    · intro h
      constructor
      · intro cid hcid
        obtain ⟨c, hc⟩ := mem_keys_iff.mp hcid
        have hafter := h cid
        rw [get?_contexts_after, hc] at hafter
        cases hrest : restored.contexts.get? cid with
        | none =>
          rw [hrest] at hafter
          cases hafter
        | some e => exact mem_keys_iff.mpr ⟨e, hrest⟩
      · intro cid e he
        have hafter := h cid
        rw [get?_contexts_after, he] at hafter
        exact Option.some.inj hafter
    · rintro ⟨hkeys, hload⟩ cid
      rw [get?_contexts_after]
      cases hrest : restored.contexts.get? cid with
      | some e =>
        rw [Option.map_some, hload cid e hrest]
        rfl
      | none =>
        cases hc : session.contexts.get? cid with
        | none => rfl
        | some c =>
          obtain ⟨e, he⟩ := mem_keys_iff.mp (hkeys cid (mem_keys_iff.mpr ⟨c, hc⟩))
          rw [hrest] at he
          cases he
  have hglobal : stripContext (setState session.globalState restored.globalState) =
      restored.globalState.getD [] ↔
        if restored.globalState.getD [] = [] then stripContext session.globalState = []
        else "context" ∉ (restored.globalState.getD []).map Prod.fst := by
    rw [setState_eq_iff stripContext, stripContext_eq_self_iff]
  have hagent : setState session.agentState restored.agentState = restored.agentState.getD [] ↔
      (restored.agentState.getD [] = [] → session.agentState = []) := by
    rw [show setState session.agentState restored.agentState =
      id (setState session.agentState restored.agentState) from rfl, setState_eq_iff id]
    split
    · next hempty => simp [hempty]
    · next hne => simp [hne]
  constructor
  · intro h
    obtain ⟨hkeys, hload⟩ := hcontexts.mp h.contexts
    exact ⟨hkeys, hload, hglobal.mp h.globalState, hagent.mp h.agentState⟩
  · rintro ⟨hkeys, hload, hg, ha⟩
    exact ⟨hcontexts.mpr ⟨hkeys, hload⟩, hglobal.mpr hg, hagent.mpr ha⟩

/-- A session whose agent state was empty keeps what came later. -/
theorem later_agent_state_stays :
    ¬ ∀ (Ctx Enc : Type) (codec : ContextCodec Ctx Enc) (earlier session : Session Ctx),
      (takeSnapshot codec (applySnapshot codec session (takeSnapshot codec earlier))).Agrees
        (takeSnapshot codec earlier) := by
  intro h
  have hagrees := h Unit Unit ⟨id, id⟩ ⟨Dict.empty, [], []⟩ ⟨Dict.empty, [], [("k", .null)]⟩
  have hstate : [("k", Json.null)] = [] := hagrees.agentState
  cases hstate

end JiuwenSpec.Vcs

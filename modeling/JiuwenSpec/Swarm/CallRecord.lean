import JiuwenSpec.Base.Commuting
import JiuwenSpec.Swarm.Journal

/-!
# Scripts and their structural keys

A script calls agents, and runs other scripts in `parallel`, in the stages of a `pipeline` or as
a `workflow`. Each runs in a scope: a path, and a counter over all that it starts. The branches
of a block are tasks, which the event loop may take up in any order.
Source: `agent_teams/workflow/engine/primitives.py`.
-/

namespace JiuwenSpec.Swarm

open Base

def maxFanout : Nat := 4096

def maxWorkflowDepth : Nat := 1

abbrev Path := List Segment

/-- `("call", k)`. -/
def callSegment (k : Nat) : Segment := ⟨['c', 'a', 'l', 'l'], [.index k]⟩

/-- `("par", k, i)`. -/
def parSegment (k i : Nat) : Segment := ⟨['p', 'a', 'r'], [.index k, .index i]⟩

/-- `("pipe", k, i, s)`. -/
def pipeSegment (k i s : Nat) : Segment := ⟨['p', 'i', 'p', 'e'], [.index k, .index i, .index s]⟩

/-- `("wf", k, name)`. -/
def wfSegment (k : Nat) (name : Text) : Segment := ⟨['w', 'f'], [.index k, .name name]⟩

def Segment.ordinal? (segment : Segment) : Option Nat :=
  match segment.coords with
  | .index k :: _ => some k
  | _ => none

/-- What a script does next: it ends with a value or an exception, calls an agent or a session,
or starts a block. What it awaits is a value, or nothing where an exception is raised. -/
inductive Act (S V R : Type) where
  | ret (v : V)
  | raise
  | agent (req : R) (k : Option V → S)
  | parallel (thunks : List S) (k : Option (List V) → S)
  | pipeline (items : List V) (stages : List (V → V → Nat → S)) (k : Option (List V) → S)
  | workflow (name : Text) (body : S) (k : Option V → S)

/-- The scripts of a program, by the states they may be in, and the value `None`. -/
structure Scripts (S V R : Type) where
  view : S → Act S V R
  null : V

/-- The context of a task: `_path`, the counter of `_seq` and `_wf_depth`. -/
structure Scope where
  path : Path := []
  next : Nat := 0
  depth : Nat := 0

namespace Scope

/-- The scope when `_next_ordinal` has been taken. -/
def taken (c : Scope) : Scope := { c with next := c.next + 1 }

def callPath (c : Scope) : Path := c.path ++ [callSegment c.next]

def below (base : Path) (segment : Segment) (depth : Nat) : Scope where
  path := base ++ [segment]
  depth := depth

end Scope

/-- A task: a script that can go on, that awaits an agent or a block of tasks, or that has
ended. A chain of a pipeline runs its stages in turn, a workflow in the task that calls it. -/
inductive Flow (S V R : Type) where
  | run (c : Scope) (s : S)
  | call (c : Scope) (key : Path) (req : R) (k : Option V → S)
  | join (c : Scope) (k : Option (List V) → S) (branches : List (Flow S V R))
  | chain (base : Path) (ordinal i stage depth : Nat) (item : V)
      (rest : List (V → V → Nat → S)) (current : Flow S V R)
  | sub (c : Scope) (k : Option V → S) (body : Flow S V R)
  | done (r : Option V)

namespace Flow

variable {S V R : Type}

def result? : Flow S V R → Option (Option V)
  | done r => some r
  | _ => none

/-- A chain whose last stage gave a value. -/
def stages (base : Path) (ordinal i stage depth : Nat) (item prev : V) :
    List (V → V → Nat → S) → Flow S V R
  | [] => done (some prev)
  | f :: rest =>
    chain base ordinal i (stage + 1) depth item rest
      (run (.below base (pipeSegment ordinal i stage) depth) (f prev item i))

end Flow

namespace Scripts

variable {S V R : Type} (M : Scripts S V R)

abbrev Call (R : Type) := Path × R

/-- A script goes on: with the call it makes, if it calls an agent. -/
def act (c : Scope) (s : S) : Option (Call R) × Flow S V R :=
  match M.view s with
  | .ret v => (none, .done (some v))
  | .raise => (none, .done none)
  | .agent req k => (some (c.callPath, req), .call c.taken c.callPath req k)
  | .parallel thunks k =>
    if maxFanout < thunks.length then (none, .run c.taken (k none))
    else (none, .join c.taken k (thunks.mapIdx fun i thunk =>
      .run (.below c.path (parSegment c.next i) c.depth) thunk))
  | .pipeline items fs k =>
    if maxFanout < items.length then (none, .run c.taken (k none))
    else (none, .join c.taken k (items.mapIdx fun i item =>
      Flow.stages c.path c.next i 0 c.depth item item fs))
  | .workflow name body k =>
    if maxWorkflowDepth ≤ c.depth then (none, .run c (k (some M.null)))
    else (none, .sub c.taken k
      (.run (.below c.path (wfSegment c.next name) (c.depth + 1)) body))

/-- One step at the task itself, where what it awaits is there: `answer` is what an agent
replies. An exception in a branch is `None` in the results. -/
def advanceHere (answer : Path → R → Option V) :
    Flow S V R → Option (Option (Call R) × Flow S V R)
  | .run c s => some (M.act c s)
  | .call c key req k => some (none, .run c (k (answer key req)))
  | .join c k branches =>
    (branches.mapM Flow.result?).map fun rs =>
      (none, .run c (k (some (rs.map fun r => r.getD M.null))))
  | .chain base ordinal i stage depth item rest (.done r) =>
    match r with
    | some prev => some (none, Flow.stages base ordinal i stage depth item prev rest)
    | none => some (none, .done none)
  | .sub c k (.done r) => some (none, .run c (k r))
  | _ => none

/-- One step of the task at a position: the branches to take from the outermost task on. -/
def advance (answer : Path → R → Option V) :
    List Nat → Flow S V R → Option (Option (Call R) × Flow S V R)
  | [], f => M.advanceHere answer f
  | i :: p, .join c k branches =>
    match branches[i]? with
    | none => none
    | some f => (advance answer p f).map fun e => (e.1, .join c k (branches.set i e.2))
  | 0 :: p, .chain base ordinal i stage depth item rest current =>
    (advance answer p current).map fun e =>
      (e.1, .chain base ordinal i stage depth item rest e.2)
  | 0 :: p, .sub c k body => (advance answer p body).map fun e => (e.1, .sub c k e.2)
  | _, _ => none

def start (s : S) : Flow S V R := .run {} s

end Scripts

end JiuwenSpec.Swarm

/-!
## Records of agent calls

What the backend returns is coerced to the schema of the call and retried; a call that succeeds
leaves a record with its key, its signature and the id of the run. A later run of this id that
finds the record under the key reads the result back from it.
Source: `agent_teams/workflow/engine/primitives.py`, `agent_teams/workflow/engine/schema.py`,
`agent_teams/workflow/engine/journal.py`.
-/

namespace JiuwenSpec.Swarm

open Base Option

/-- What a call returns: what JSON has, or an instance of a model. -/
inductive Value (D : Type) where
  | plain (v : Json)
  | model (d : D)

def Value.none {D : Type} : Value D := .plain (.literal .null)

/-- The models of a script and the validation of JSON: `model_validate`, nothing where it
raises, `model_dump(mode="json")` and `jsonschema.validate`. A model validates what it dumped of
an instance it validated. -/
structure Models (C D : Type) where
  validate : C → Json → Option D
  dump : D → Json
  conforms : Json → Json → Bool
  apart : ∀ d, (dump d).KeysApart
  validate_dump : ∀ {cls raw d}, validate cls raw = some d → validate cls (dump d) = some d

/-- A schema, as `resolve_schema` tells them apart. -/
inductive Schema (C : Type) where
  | text
  | json (schema : Json)
  | model (cls : C)

def Schema.cls? {C : Type} : Schema C → Option C
  | .model cls => some cls
  | _ => none

/-- What one attempt gives: an exception, `skipped`, or an `AgentResult`. -/
inductive Reply where
  | error
  | skipped
  | result (text : Option Text) (structured : Json) (apart : structured.KeysApart) (tokens : Nat)

/-- A result that can be written: no dictionary in it lists a key twice. -/
def Value.Apart {D : Type} : Value D → Prop
  | .plain v => v.KeysApart
  | .model _ => True

/-- A call that succeeded: `_BackendCallResult`. -/
structure Outcome (D : Type) where
  result : Value D
  apart : result.Apart
  rawText : Option Text
  tokens : Nat

/-- A text, or `None`. -/
def optionText : Option Text → Json
  | some text => .string text
  | none => .literal .null

theorem optionText_apart (text : Option Text) : (optionText text).KeysApart := by
  cases text <;> trivial

section Calls

variable {C D : Type} (models : Models C D)

/-- The result of an attempt under a schema: the text without one, else what `coerce` returns;
nothing where that raises. -/
def coerce (schema : Schema C) (text : Option Text) (structured : Json) : Option (Value D) :=
  match schema with
  | .text => some (.plain (optionText text))
  | .json schema => if models.conforms schema structured then some (.plain structured) else none
  | .model cls => (models.validate cls structured).map .model

theorem coerce_apart {schema : Schema C} {text : Option Text} {structured : Json}
    {result : Value D} (h : structured.KeysApart)
    (hresult : coerce models schema text structured = some result) : result.Apart := by
  cases schema with
  | text =>
    cases hresult
    exact optionText_apart text
  | json schema =>
    rw [coerce] at hresult
    split at hresult
    · cases hresult
      exact h
    · cases hresult
  | model cls =>
    obtain ⟨d, -, rfl⟩ := map_eq_some_iff.mp hresult
    trivial

/-- `_attempt_calls` from an attempt on; nothing where the call fails. -/
def attemptCalls (schema : Schema C) (makeCall : Nat → Reply) : Nat → Nat → Option (Outcome D)
  | 0, _ => none
  | attempts + 1, attempt =>
    match makeCall attempt with
    | .error => attemptCalls schema makeCall attempts (attempt + 1)
    | .skipped => none
    | .result text structured apart tokens =>
      match h : coerce models schema text structured with
      | some result => some ⟨result, coerce_apart models apart h, text, tokens⟩
      | none => attemptCalls schema makeCall attempts (attempt + 1)

def sigName : Text := ['s', 'i', 'g']

def runIdName : Text := ['r', 'u', 'n', '_', 'i', 'd']

def tokensName : Text := ['t', 'o', 'k', 'e', 'n', 's']

def labelName : Text := ['l', 'a', 'b', 'e', 'l']

def phaseName : Text := ['p', 'h', 'a', 's', 'e']

def kindName : Text := ['k', 'i', 'n', 'd']

def resultName : Text := ['r', 'e', 's', 'u', 'l', 't']

def rawTextName : Text := ['r', 'a', 'w', '_', 't', 'e', 'x', 't']

def nullKind : Text := ['n', 'u', 'l', 'l']

def modelKind : Text := ['m', 'o', 'd', 'e', 'l']

def strKind : Text := ['s', 't', 'r']

def dictKind : Text := ['d', 'i', 'c', 't']

/-- `kind` and `payload` of a result. -/
def payload : Value D → Text × Json
  | .plain (.literal .null) => (nullKind, .literal .null)
  | .model d => (modelKind, models.dump d)
  | .plain (.string text) => (strKind, .string text)
  | .plain v => (dictKind, v)

theorem payload_apart {v : Value D} (h : v.Apart) : (payload models v).2.KeysApart := by
  unfold payload
  split
  · trivial
  · exact models.apart _
  · trivial
  · exact h

/-- What identifies a call besides its key: its signature, and its label and phase. -/
structure Identity where
  sig : Text
  label : Option Text
  phase : Option Text

def makeRecord (key : Path) (identity : Identity) (runId : Text) (outcome : Outcome D) :
    Record where
  members :=
    [(keyName, .string (keyStr key)), (sigName, .string identity.sig),
      (runIdName, .string runId), (tokensName, .number (Numeral.ofNat outcome.tokens)),
      (labelName, optionText identity.label), (phaseName, optionText identity.phase),
      (kindName, .string (payload models outcome.result).1),
      (resultName, (payload models outcome.result).2), (rawTextName, optionText outcome.rawText)]
  apart := by
    have hnodup : [keyName, sigName, runIdName, tokensName, labelName, phaseName, kindName,
      resultName, rawTextName].Nodup := by decide
    exact ⟨hnodup, trivial, trivial, trivial, trivial, optionText_apart _, optionText_apart _,
      trivial, payload_apart models outcome.apart, optionText_apart _, trivial⟩
  key := keyStr key
  keyed := rfl

/-- `rec.get(name)`. -/
def Record.get? (r : Record) (name : Text) : Option Json :=
  (r.members.find? fun m => decide (m.1 = name)).map Prod.snd

/-- `rec.get(name)`, where that is a text. -/
def Record.text? (r : Record) (name : Text) : Option Text :=
  match r.get? name with
  | some (.string text) => some text
  | _ => none

/-- `_rehydrate`; nothing where it raises. -/
def rehydrate (r : Record) (cls? : Option C) : Option (Value D) :=
  let val := (r.get? resultName).getD (.literal .null)
  if r.text? kindName = some nullKind then some .none
  else
    match cls? with
    | some cls =>
      if r.text? kindName = some modelKind then (models.validate cls val).map .model
      else some (.plain val)
    | none => some (.plain val)

/-- `get_cached`: a record is served under its key and signature, and to a run with an id only
under that id. -/
def getCached (prior : Dict Text Record) (key sig : Text) (runId : Option Text) :
    Option Record :=
  match prior.get? key with
  | none => none
  | some r =>
    if r.text? sigName ≠ some sig then none
    else if runId ≠ none ∧ r.text? runIdName ≠ runId then none
    else some r

section

variable (key : Path) (identity : Identity) (runId : Text) (outcome : Outcome D)

end

theorem kind_makeRecord :
    (makeRecord models key identity runId outcome).text? kindName =
      some (payload models outcome.result).1 := rfl

theorem result_makeRecord :
    (makeRecord models key identity runId outcome).get? resultName =
      some (payload models outcome.result).2 := rfl

theorem validated_of_coerce {schema : Schema C} {text : Option Text} {structured : Json} {d : D}
    (h : coerce models schema text structured = some (.model d)) :
    ∃ cls, schema.cls? = some cls ∧ models.validate cls structured = some d := by
  cases schema with
  | text => cases some.inj h
  | json schema =>
    rw [coerce] at h
    split at h
    · cases some.inj h
    · cases h
  | model cls =>
    obtain ⟨d', hd, hsame⟩ := map_eq_some_iff.mp h
    cases hsame
    exact ⟨cls, rfl, hd⟩

theorem coerced_of_attemptCalls {schema : Schema C} {makeCall : Nat → Reply}
    {attempts attempt : Nat} {outcome : Outcome D}
    (h : attemptCalls models schema makeCall attempts attempt = some outcome) :
    ∃ text structured, coerce models schema text structured = some outcome.result := by
  induction attempts generalizing attempt with
  | zero => cases h
  | succ attempts ih =>
    rw [attemptCalls] at h
    split at h
    · exact ih h
    · cases h
    · next text structured apart tokens _ =>
      split at h
      · next result hresult =>
        cases h
        exact ⟨text, structured, hresult⟩
      · exact ih h

/-- **The result of a call that succeeded is read back from its record.** -/
theorem rehydrate_makeRecord {schema : Schema C} {makeCall : Nat → Reply}
    {attempts attempt : Nat} {outcome : Outcome D}
    (h : attemptCalls models schema makeCall attempts attempt = some outcome) (key : Path)
    (identity : Identity) (runId : Text) :
    rehydrate models (makeRecord models key identity runId outcome) schema.cls? =
      some outcome.result := by
  obtain ⟨text, structured, hcoerce⟩ := coerced_of_attemptCalls models h
  simp only [rehydrate, kind_makeRecord, result_makeRecord, getD_some, some.injEq]
  cases hresult : outcome.result with
  | model d =>
    rw [hresult] at hcoerce
    obtain ⟨cls, hcls, hvalid⟩ := validated_of_coerce models hcoerce
    have hne : ¬ modelKind = nullKind := by decide
    simp [payload, hcls, hne, models.validate_dump hvalid]
  | plain v =>
    have hstr : ¬ strKind = nullKind := by decide
    have hstr' : ¬ strKind = modelKind := by decide
    have hdict : ¬ dictKind = nullKind := by decide
    have hdict' : ¬ dictKind = modelKind := by decide
    unfold payload
    split
    · next hnull =>
      cases hnull
      rfl
    · next hmodel => cases hmodel
    · next hstring =>
      cases hstring
      cases schema.cls? <;> simp [hstr, hstr']
    · next hsame =>
      cases hsame
      cases schema.cls? <;> simp [hdict, hdict']

end Calls

theorem getCached_eq_some_iff {prior : Dict Text Record} {key sig id : Text} {r : Record} :
    getCached prior key sig (some id) = some r ↔
      prior.get? key = some r ∧ r.text? sigName = some sig ∧ r.text? runIdName = some id := by
  unfold getCached
  cases prior.get? key with
  | none => simp
  | some s =>
    by_cases hsig : s.text? sigName = some sig
    · by_cases hid : s.text? runIdName = some id
      · simp only [hsig, hid, ne_eq, not_true_eq_false, and_false, if_false, some.injEq]
        constructor
        · rintro rfl
          exact ⟨rfl, hsig, hid⟩
        · exact fun h => h.1
      · simp only [hsig, hid, ne_eq, not_true_eq_false, not_false_eq_true, and_true, if_false,
          reduceCtorEq, if_true, some.injEq, false_iff]
        rintro ⟨rfl, -, h⟩
        exact hid h
    · simp only [hsig, ne_eq, not_false_eq_true, if_true, reduceCtorEq, some.injEq,
        false_iff]
      rintro ⟨rfl, h, -⟩
      exact hsig h

end JiuwenSpec.Swarm

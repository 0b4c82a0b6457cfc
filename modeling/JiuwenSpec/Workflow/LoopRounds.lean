import JiuwenSpec.Session.DictMerge

/-!
# The rounds of a loop component

The graph of a loop is its condition, its body and a vertex behind the body that counts. The
node's record holds the index, the flag of a break and the results of the rounds, and the loop's
variables are written into the same record. A run takes one vertex a superstep, and at most
`MAX_RECURSIVE_LIMIT` of them after it was started or resumed.
Source: `core/workflow/components/flow/loop/loop_comp.py`, `callback/output.py` and
`callback/intermediate_loop_var.py` beside it, `core/workflow/components/condition/array.py`,
`number.py`, `core/graph/pregel/engine.py`.
-/

namespace JiuwenSpec.Workflow

open JiuwenSpec.Session List

def maxRecursiveLimit : Nat := 10000

def defaultMaxLoopNumber : Nat := 1000

inductive LoopCondition where
  | array (arrays : List (String × List Value))
  | number (limit : Int)
  | alwaysTrue
  | expression

/-- `AdvancedLoopComponent` with its callbacks. -/
structure LoopComponent where
  condition : LoopCondition
  /-- The names of `intermediate_var`. -/
  intermediateVar : List String

/-- What the session and the vertices give in one superstep. -/
structure Turn where
  /-- What the expression comes to, `none` where it raises. -/
  holds : Option Bool
  vars : String → Value
  /-- What the outputs' format reads at the end of a round. -/
  output : Value
  breaks : Bool
  /-- The body is interrupted; the next superstep is the first after the resume. -/
  interrupted : Bool

inductive Reason where
  | recursionLimit
  | expressionRaised
  | writeRaised
  /-- The index or the results are not what the loop wrote. -/
  | corrupt
  deriving DecidableEq

/-- The keys of the record that the loop reads: `INDEX`, `BROKEN` and the results' root. -/
def reserved : List String := ["index", "_broken", "round"]

def headKey (path : String) : String :=
  match splitNestedPath path with
  | .key key :: _ => key
  | _ => path

def entriesOf : Value → List (String × Value)
  | .dict entries => entries
  | _ => []

/-- The reserved entries, `null` where there is none, and the others. -/
structure Record where
  index : Value := .null
  broken : Value := .null
  round : Value := .null
  others : List (String × Value) := []

namespace Record

def reservedEntries (r : Record) : List (String × Value) :=
  [("index", r.index), ("_broken", r.broken), ("round", r.round)].filter (!·.2.isNull)

/-- The record over two dictionaries, as `state().get` reads it. -/
def ofDicts (own others : List (String × Value)) : Record where
  index := (entryGet? "index" own).getD .null
  broken := (entryGet? "_broken" own).getD .null
  round := (entryGet? "round" own).getD .null
  others

/-- `state().update` with the loop's variables: each path is written below its first key, so the
reserved entries and the others are updated apart. -/
def update (r : Record) (entries : List (String × Value)) : Except Reason Record :=
  let own := updateDict (entries.filter (headKey ·.1 ∈ reserved)) r.reservedEntries
  let others := updateDict (entries.filter (headKey ·.1 ∉ reserved)) r.others
  if own.2.isSome ∨ others.2.isSome then .error .writeRaised else
    .ok (ofDicts (entriesOf own.1) (entriesOf others.1))

def isBroken (r : Record) : Bool :=
  match r.broken with
  | .bool b => b
  | _ => false

def index? (r : Record) : Except Reason Int :=
  match r.index with
  | .num i => .ok i
  | .bool b => .ok (if b then 1 else 0)
  | _ => .error .corrupt

def Same (r r' : Record) : Prop :=
  r'.index = r.index ∧ r'.broken = r.broken ∧ r'.round = r.round

end Record

/-- `_check_arrays`. -/
def minLength : List (String × List Value) → Nat
  | [] => defaultMaxLoopNumber
  | (_, items) :: rest => min items.length (minLength rest)

def itemsAt (i : Int) : List (String × List Value) → Except Reason (List (String × Value))
  | [] => .ok []
  | (key, items) :: rest =>
    match (Value.position? items.length i).bind (items[·]?) with
    | none => .error .corrupt
    | some item => (itemsAt i rest).map ((key, item) :: ·)

/-- `Condition.invoke`: whether the loop goes on, and the record with the items written. -/
def LoopCondition.invoke (c : LoopCondition) (t : Turn) (r : Record) :
    Except Reason (Bool × Record) :=
  match c with
  | .array arrays => do
    let i ← r.index?
    if (minLength arrays : Int) ≤ i then return (false, r)
    let updates ← itemsAt i arrays
    return (true, ← r.update updates)
  | .number limit => do
    let i ← r.index?
    return (i < limit, r)
  | .alwaysTrue => .ok (true, r)
  | .expression =>
    match t.holds with
    | none => .error .expressionRaised
    | some b => .ok (b, r)

/-- `OutputCallback`, at the first pass and at the end of a round. -/
def outputCallback (t : Turn) (index finish : Int) (r : Record) : Except Reason Record :=
  if finish < 0 then .ok { r with round := .list [] }
  else if finish = index then
    match r.round with
    | .list results =>
      if index + 1 ≤ results.length then .ok r
      else .ok { r with round := .list (results ++ [t.output]) }
    | _ => .error .corrupt
  else .ok r

/-- `IntermediateLoopVarCallback`, which writes its variables at the first pass. -/
def intermediateCallback (c : LoopComponent) (t : Turn) (finish : Int) (r : Record) :
    Except Reason Record :=
  if finish < 0 ∧ c.intermediateVar ≠ [] then
    r.update (c.intermediateVar.map fun k => (k, t.vars k))
  else .ok r

inductive Vertex where
  | condition
  | body
  | postBody

inductive Phase where
  | pending (v : Vertex)
  | finished
  | failed (reason : Reason)

/-- The stages every callback is called with, and the rounds of the body that completed. -/
inductive Event where
  | firstInLoop
  | startRound
  | endRound (loopTimes : Int)
  | outLoop
  | body (index : Value)

/-- An execution of the node, with what the session keeps of it. -/
structure LoopRun where
  record : Record
  /-- `FINISH_INDEX` in the record of `post_body`. -/
  finishIndex : Option Int
  /-- `PostLoopBody._finish_index`, which a resumed run starts anew. -/
  memory : Int
  step : Nat
  maxStep : Nat
  phase : Phase
  events : List Event

namespace LoopRun

def idle : LoopRun where
  record := {}
  finishIndex := none
  memory := -1
  step := 0
  maxStep := 0
  phase := .finished
  events := []

/-- A new execution; the start vertex takes the first superstep. -/
def start (s : LoopRun) : LoopRun :=
  { s with memory := -1, step := 1, maxStep := maxRecursiveLimit, phase := .pending .condition,
           events := [] }

/-- The first half of `_condition_invoke`: the record with its index, the index read and the
round that was completed last. -/
def settleIndex (s : LoopRun) : Except Reason (Record × Int × Int) := do
  let r := if s.record.index.isNull then
      { s.record with broken := .bool false, index := .num 0 } else s.record
  let index ← r.index?
  let finish := if s.memory + 1 < index ∨ index < s.memory then index - 1 else s.memory
  return (if finish = index then { r with index := .num (index + 1) } else r, index, finish)

def lookBack (index finish : Int) : List Event :=
  if finish < 0 then [.firstInLoop] else if finish = index then [.endRound (index + 1)] else []

def continueLoop (c : LoopComponent) (t : Turn) (r : Record) : Except Reason (Bool × Record) :=
  if r.isBroken then .ok (false, r) else c.condition.invoke t r

/-- The second half of `_condition_invoke`. -/
def conclude (c : LoopComponent) (t : Turn) (s : LoopRun) (r : Record) (index finish : Int) :
    Except Reason LoopRun := do
  let (goesOn, r) ← continueLoop c t r
  let r ← outputCallback t index finish r
  let r ← intermediateCallback c t finish r
  let events := s.events ++ lookBack index finish
  if goesOn then
    return { s with record := r, phase := .pending .body, events := events ++ [.startRound] }
  return { s with record := { r with index := .null, broken := .bool false }, memory := -1,
                  finishIndex := none, phase := .finished, events := events ++ [.outLoop] }

/-- `LoopGroup.on_invoke`, and the resume where it is interrupted. -/
def bodyInvoke (t : Turn) (s : LoopRun) : LoopRun :=
  let r := { s.record with broken := if t.breaks then .bool true else s.record.broken }
  if t.interrupted then
    { s with record := r, memory := -1, maxStep := s.step + maxRecursiveLimit,
             phase := .pending .body }
  else { s with record := r, step := s.step + 1, phase := .pending .postBody,
                events := s.events ++ [.body r.index] }

/-- `PostLoopBody.on_invoke`. -/
def postBodyInvoke (s : LoopRun) : LoopRun :=
  let finish := s.finishIndex.getD s.memory + 1
  { s with finishIndex := some finish, memory := finish, step := s.step + 1,
           phase := .pending .condition }

def superstep (c : LoopComponent) (s : LoopRun) (t : Turn) : LoopRun :=
  match s.phase with
  | .pending v =>
    if s.maxStep < s.step then { s with phase := .failed .recursionLimit }
    else match v with
      | .condition =>
        match s.settleIndex.bind fun (r, index, finish) => s.conclude c t r index finish with
        | .error reason => { s with phase := .failed reason }
        | .ok s' => { s' with step := s.step + 1 }
      | .body => s.bodyInvoke t
      | .postBody => s.postBodyInvoke
  | _ => s

/-- An execution of the node, which begins when the one before has ended. -/
def execute (s : LoopRun) (e : LoopComponent × List Turn) : LoopRun :=
  match s.phase with
  | .finished => e.2.foldl (superstep e.1) s.start
  | _ => s

def rounds : Nat → List Event
  | 0 => [.firstInLoop]
  | n + 1 => rounds n ++ [.startRound, .body (.num n), .endRound (n + 1)]

structure Reset (s : LoopRun) : Prop where
  index : s.record.index = .null
  finishIndex : s.finishIndex = none
  memory : s.memory = -1

structure InRound (s : LoopRun) (n : Nat) : Prop where
  index : s.record.index = .num n
  results : ∃ results, s.record.round = .list results ∧ results.length = n
  limit : maxRecursiveLimit ≤ s.maxStep

structure Counted (s : LoopRun) (n : Nat) : Prop extends InRound s n where
  finishIndex : s.finishIndex = if n = 0 then none else some (n - 1 : Int)
  memory : s.memory = -1 ∨ s.memory = n - 1

/-- The run has come to the round of a given index, with every round before it announced once. -/
def Kept (s : LoopRun) (n : Nat) : Prop :=
  match s.phase with
  | .pending .condition =>
    (n = 0 ∧ s.step = 1 ∧ maxRecursiveLimit ≤ s.maxStep ∧ s.events = [] ∧ s.Reset) ∨
      (s.InRound n ∧ s.step = 3 * n + 4 ∧ s.events = rounds n ++ [.startRound, .body (.num n)] ∧
        s.finishIndex = some (n : Int) ∧ s.memory = n)
  | .pending .body => s.Counted n ∧ s.step = 3 * n + 2 ∧ s.events = rounds n ++ [.startRound]
  | .pending .postBody =>
    s.Counted n ∧ s.step = 3 * n + 3 ∧ s.events = rounds n ++ [.startRound, .body (.num n)]
  | .finished => s.Reset ∧ s.events = rounds n ++ [.outLoop]
  | .failed reason =>
    reason ≠ .corrupt ∧ (reason = .recursionLimit → 3333 ≤ n) ∧ ∃ m, s.events <+: rounds m

end LoopRun

def LoopComponent.names (c : LoopComponent) : List String :=
  c.intermediateVar ++
    match c.condition with
    | .array arrays => arrays.map Prod.fst
    | _ => []

/-- No variable is written into the entries of the loop. -/
def LoopComponent.Unreserved (c : LoopComponent) : Prop := ∀ k ∈ c.names, headKey k ∉ reserved

instance (c : LoopComponent) : Decidable c.Unreserved :=
  inferInstanceAs (Decidable (∀ k ∈ c.names, headKey k ∉ reserved))

theorem isNull_iff {v : Value} : v.isNull = true ↔ v = .null := by
  cases v <;> simp [Value.isNull]

variable {r : Record}

theorem Record.update_same {r' : Record} {entries : List (String × Value)}
    (h : ∀ e ∈ entries, headKey e.1 ∉ reserved) (hu : r.update entries = .ok r') : r.Same r' := by
  have hnone : entries.filter (headKey ·.1 ∈ reserved) = [] := by
    simpa using h
  have hown : updateDict [] r.reservedEntries = (.dict r.reservedEntries, none) := rfl
  simp only [Record.update, hnone, hown] at hu
  split at hu
  · cases hu
  · cases hu
    rcases r with ⟨index, broken, round, others⟩
    cases hi : index.isNull <;> cases hb : broken.isNull <;> cases hr : round.isNull <;>
      simp_all [Record.Same, Record.ofDicts, entriesOf, Record.reservedEntries, entryGet?,
        isNull_iff]

theorem Record.update_error {entries : List (String × Value)} {reason : Reason}
    (hu : r.update entries = .error reason) : reason = .writeRaised := by
  rw [Record.update] at hu
  split at hu
  · exact (Except.error.inj hu).symm
  · cases hu

theorem minLength_le : ∀ {arrays : List (String × List Value)} {a : String × List Value},
    a ∈ arrays → minLength arrays ≤ a.2.length
  | (_, _) :: _, _, .head _ => Nat.min_le_left _ _
  | (_, _) :: _, _, .tail _ h => Nat.le_trans (Nat.min_le_right _ _) (minLength_le h)

variable {n : Nat}

theorem itemsAt_ok : ∀ {arrays : List (String × List Value)}, (∀ a ∈ arrays, n < a.2.length) →
      ∃ updates, itemsAt n arrays = .ok updates ∧ ∀ e ∈ updates, e.1 ∈ arrays.map Prod.fst
  | [], _ => ⟨[], rfl, by simp⟩
  | (key, items) :: rest, h => by
    obtain ⟨updates, hitems, hnames⟩ := itemsAt_ok fun a ha => h a (.tail _ ha)
    have hn : n < items.length := h (key, items) (.head _)
    refine ⟨(key, items[n]) :: updates, ?_, ?_⟩
    · simp [itemsAt, Value.position?, hn, hitems, Except.map]
    · intro e he
      rcases mem_cons.mp he with rfl | he
      · exact .head _
      · exact .tail _ (hnames e he)

theorem index?_num (h : r.index = .num n) : r.index? = .ok (n : Int) := by
  rw [Record.index?, h]

variable {c : LoopComponent} {t : Turn}

theorem invoke_kept (hc : c.Unreserved) (hr : r.index = .num n) :
    match c.condition.invoke t r with
    | .ok (_, r') => r.Same r'
    | .error reason => reason = .expressionRaised ∨ reason = .writeRaised := by
  cases hcond : c.condition with
  | array arrays =>
    simp only [LoopCondition.invoke, index?_num hr, bind, Except.bind, pure, Except.pure]
    split_ifs with hlen
    · exact ⟨rfl, rfl, rfl⟩
    · have hlt : ∀ a ∈ arrays, n < a.2.length := fun a ha => by
        have := minLength_le ha
        omega
      obtain ⟨updates, hitems, hnames⟩ := itemsAt_ok hlt
      rw [hitems]
      dsimp only
      cases hu : r.update updates with
      | error reason => exact Or.inr (Record.update_error hu)
      | ok r' =>
        refine Record.update_same (fun e he => hc e.1 ?_) hu
        rw [LoopComponent.names, hcond]
        exact mem_append_right _ (hnames e he)
  | number limit =>
    simp only [LoopCondition.invoke, index?_num hr, bind, Except.bind, pure, Except.pure]
    exact ⟨rfl, rfl, rfl⟩
  | alwaysTrue => exact ⟨rfl, rfl, rfl⟩
  | expression =>
    cases hholds : t.holds with
    | none => simp [LoopCondition.invoke, hholds]
    | some b =>
      simp only [LoopCondition.invoke, hholds]
      exact ⟨rfl, rfl, rfl⟩

theorem intermediateCallback_kept (hc : c.Unreserved) (t : Turn) (finish : Int) (r : Record) :
    match intermediateCallback c t finish r with
    | .ok r' => r.Same r'
    | .error reason => reason = .writeRaised := by
  rw [intermediateCallback]
  split_ifs
  · cases hu : r.update (c.intermediateVar.map fun k => (k, t.vars k)) with
    | error reason => exact Record.update_error hu
    | ok r' =>
      refine Record.update_same (fun e he => ?_) hu
      obtain ⟨k, hk, rfl⟩ := mem_map.mp he
      exact hc k (mem_append_left _ hk)
  · exact ⟨rfl, rfl, rfl⟩

namespace LoopRun

variable {s : LoopRun}

theorem conclude_kept {index finish : Int} (hc : c.Unreserved) (hr : r.index = .num n)
    (hout : ∀ r', r.Same r' → ∃ results,
      outputCallback t index finish r' = .ok { r' with round := .list results } ∧
        results.length = n)
    (hevents : s.events ++ lookBack index finish = rounds n)
    (hlimit : maxRecursiveLimit ≤ s.maxStep)
    (hfinish : s.finishIndex = if n = 0 then none else some (n - 1 : Int))
    (hmemory : s.memory = n - 1) :
    match s.conclude c t r index finish with
    | .ok s' => Kept { s' with step := 3 * n + 2 } n
    | .error reason => reason = .expressionRaised ∨ reason = .writeRaised := by
  have hgoes : match continueLoop c t r with
    | .ok (_, r') => r.Same r'
    | .error reason => reason = .expressionRaised ∨ reason = .writeRaised := by
    rw [continueLoop]
    split_ifs
    · exact ⟨rfl, rfl, rfl⟩
    · exact invoke_kept hc hr
  rw [conclude]
  revert hgoes
  cases continueLoop c t r with
  | error reason => exact id
  | ok p =>
    intro hsame
    obtain ⟨results, hresults, hlength⟩ := hout p.2 hsame
    simp only [bind, Except.bind, hresults]
    have hvars := intermediateCallback_kept hc t finish { p.2 with round := .list results }
    revert hvars
    cases intermediateCallback c t finish { p.2 with round := .list results } with
    | error reason => exact .inr
    | ok r' =>
      intro hvars
      rw [hevents]
      cases p.1 with
      | false => exact ⟨⟨rfl, rfl, rfl⟩, rfl⟩
      | true =>
        have hindex : r'.index = .num n := hvars.1.trans (hsame.1.trans hr)
        exact ⟨⟨⟨hindex, ⟨results, hvars.2.2, hlength⟩, hlimit⟩, hfinish, .inr hmemory⟩, rfl, rfl⟩

theorem settleIndex_first (h : s.Reset) :
    s.settleIndex = .ok ({ s.record with broken := .bool false, index := .num 0 }, 0, -1) := by
  simp [settleIndex, h.index, h.memory, Value.isNull, Record.index?, bind, Except.bind, pure,
    Except.pure]

theorem settleIndex_next (hi : s.record.index = .num n) (hm : s.memory = n) :
    s.settleIndex = .ok ({ s.record with index := .num (n + 1) }, n, n) := by
  have hno : ¬ ((n : Int) + 1 < n) := by omega
  simp [settleIndex, hi, hm, hno, Value.isNull, Record.index?, bind, Except.bind, pure, Except.pure]

theorem outputCallback_next {results : List Value}
    (hround : r.round = .list results) (hlength : results.length = n) :
    outputCallback t n n r = .ok { r with round := .list (results ++ [t.output]) } := by
  have hlong : ¬ ((n : Int) + 1 ≤ results.length) := by omega
  simp [outputCallback, hround, hlong]

theorem condition_kept (hc : c.Unreserved) (hp : s.phase = .pending .condition) (h : s.Kept n) :
    ∃ m, match s.settleIndex.bind fun (r, index, finish) => s.conclude c t r index finish with
      | .ok s' => Kept { s' with step := s.step + 1 } m
      | .error reason => reason = .expressionRaised ∨ reason = .writeRaised := by
  rw [Kept, hp] at h
  obtain ⟨rfl, hstep, hlimit, hevents, hreset⟩ | ⟨hround, hstep, hevents, hfin, hmem⟩ := h
  · refine ⟨0, ?_⟩
    rw [settleIndex_first hreset, hstep]
    exact conclude_kept hc rfl (fun r' _ => ⟨[], rfl, rfl⟩) (by rw [hevents]; rfl) hlimit
      hreset.finishIndex hreset.memory
  · refine ⟨n + 1, ?_⟩
    obtain ⟨results, hresults, hlength⟩ := hround.results
    rw [settleIndex_next hround.index hmem, hstep]
    refine conclude_kept hc rfl (fun r' hsame => ⟨results ++ [t.output],
      outputCallback_next (hsame.2.2.trans hresults) hlength, by simp [hlength]⟩) ?_
      hround.limit ?_ ?_
    · simp [hevents, lookBack, rounds]
    · simp [hfin]
    · simp [hmem]

theorem limit_kept {v : Vertex} (hp : s.phase = .pending v) (h : s.Kept n)
    (hlimit : s.maxStep < s.step) : 3333 ≤ n := by
  have hmax : maxRecursiveLimit = 10000 := rfl
  rw [Kept, hp] at h
  cases v with
  | condition =>
    obtain ⟨-, hstep, hle, -⟩ | ⟨hround, hstep, -⟩ := h
    · omega
    · have := hround.limit
      omega
  | body =>
    have := h.1.limit
    omega
  | postBody =>
    have := h.1.limit
    omega

theorem events_init {v : Vertex} (hp : s.phase = .pending v)
    (h : s.Kept n) : ∃ m, s.events <+: rounds m := by
  rw [Kept, hp] at h
  cases v with
  | condition =>
    obtain ⟨-, -, -, hevents, -⟩ | ⟨-, -, hevents, -⟩ := h
    · exact ⟨0, hevents ▸ List.nil_prefix⟩
    · exact ⟨n + 1, [.endRound (n + 1)], by simp [hevents, rounds]⟩
  | body => exact ⟨n + 1, [.body (.num n), .endRound (n + 1)], by simp [h.2.2, rounds]⟩
  | postBody => exact ⟨n + 1, [.endRound (n + 1)], by simp [h.2.2, rounds]⟩

theorem body_kept (hp : s.phase = .pending .body) (h : s.Kept n) : (s.bodyInvoke t).Kept n := by
  rw [Kept, hp] at h
  obtain ⟨hcounted, hstep, hevents⟩ := h
  rw [bodyInvoke]
  cases t.interrupted with
  | true =>
    exact ⟨⟨⟨hcounted.index, hcounted.results, Nat.le_add_left _ _⟩, hcounted.finishIndex,
      .inl rfl⟩, hstep, hevents⟩
  | false =>
    refine ⟨⟨⟨hcounted.index, hcounted.results, hcounted.limit⟩, hcounted.finishIndex,
      hcounted.memory⟩, congrArg (· + 1) hstep, ?_⟩
    simp [hevents, hcounted.index]

theorem postBody_kept (hp : s.phase = .pending .postBody)
    (h : s.Kept n) : s.postBodyInvoke.Kept n := by
  rw [Kept, hp] at h
  obtain ⟨hcounted, hstep, hevents⟩ := h
  have hfinish : s.finishIndex.getD s.memory + 1 = n := by
    rw [hcounted.finishIndex]
    split_ifs with hn
    · rcases hcounted.memory with hm | hm <;> simp [hm, hn]
    · simp
  rw [postBodyInvoke, hfinish]
  exact .inr ⟨⟨hcounted.index, hcounted.results, hcounted.limit⟩, by simp [hstep], hevents, rfl,
    rfl⟩

theorem superstep_kept (hc : c.Unreserved) (h : s.Kept n) : ∃ m, (s.superstep c t).Kept m := by
  rw [superstep]
  cases hp : s.phase with
  | finished => exact ⟨n, h⟩
  | failed reason => exact ⟨n, h⟩
  | pending v =>
    have hevents := events_init hp h
    dsimp only
    split_ifs with hlimit
    · exact ⟨n, by simp, fun _ => limit_kept hp h hlimit, hevents⟩
    · cases v with
      | condition =>
        obtain ⟨m, hm⟩ := condition_kept (t := t) hc hp h
        dsimp only
        revert hm
        cases s.settleIndex.bind fun (r, index, finish) => s.conclude c t r index finish with
        | ok s' => exact fun hm => ⟨m, hm⟩
        | error reason =>
          rintro (rfl | rfl) <;> exact ⟨n, by simp, by simp, hevents⟩
      | body => exact ⟨n, body_kept hp h⟩
      | postBody => exact ⟨n, postBody_kept hp h⟩

theorem run_kept (hc : c.Unreserved) : ∀ (turns : List Turn) {s : LoopRun}
    {n : Nat}, s.Kept n → ∃ m, (turns.foldl (superstep c) s).Kept m
  | [], _, n, h => ⟨n, h⟩
  | _ :: turns, _, _, h => have ⟨_, hm⟩ := superstep_kept hc h; run_kept hc turns hm

theorem start_kept (hindex : s.record.index = .null) (hfin : s.finishIndex = none) :
    s.start.Kept 0 :=
  .inl ⟨rfl, rfl, Nat.le_refl _, rfl, hindex, hfin, rfl⟩

theorem execute_kept {e : LoopComponent × List Turn}
    (hc : e.1.Unreserved) (h : s.Kept n) : ∃ m, (s.execute e).Kept m := by
  rw [execute]
  cases hp : s.phase with
  | finished =>
    rw [Kept, hp] at h
    exact run_kept hc e.2 (start_kept h.1.index h.1.finishIndex)
  | pending v => exact ⟨n, h⟩
  | failed reason => exact ⟨n, h⟩

/-- A superstep in which nothing breaks the loop or interrupts its body. -/
def quietTurn : Turn where
  holds := none
  vars := fun _ => .null
  output := .null
  breaks := false
  interrupted := false

/-- The loop of type `always_true`. -/
def untilBroken : LoopComponent := ⟨.alwaysTrue, []⟩

structure GoesOn (s : LoopRun) (k : Nat) : Prop where
  kept : ∃ n, s.Kept n
  pending : ∃ v, s.phase = .pending v
  step : s.step = k
  limit : s.maxStep = maxRecursiveLimit
  unbroken : s.record.index = .null ∨ s.record.isBroken = false

theorem conclude_quiet {r' : Record} {index finish : Int}
    (hbroken : r.isBroken = false) (hout : outputCallback quietTurn index finish r = .ok r') :
    s.conclude untilBroken quietTurn r index finish = .ok { s with
      record := r'
      phase := .pending .body
      events := s.events ++ lookBack index finish ++ [.startRound] } := by
  simp [conclude, continueLoop, hbroken, untilBroken, LoopCondition.invoke, hout,
    intermediateCallback, bind, Except.bind, pure, Except.pure]

theorem superstep_goesOn {k : Nat} (h : s.GoesOn k) (hk : k ≤ maxRecursiveLimit) :
    (s.superstep untilBroken quietTurn).GoesOn (k + 1) := by
  obtain ⟨⟨n, hn⟩, ⟨v, hp⟩, hstep, hmax, hbroken⟩ := h
  have hkept : ∃ m, (s.superstep untilBroken quietTurn).Kept m :=
    superstep_kept (fun k hk => by cases hk) hn
  revert hkept
  rw [superstep, hp]
  dsimp only
  rw [if_neg (by omega)]
  intro hkept
  cases v with
  | condition =>
    revert hkept
    rw [Kept, hp] at hn
    obtain ⟨rfl, -, -, -, hreset⟩ | ⟨hround, -, -, -, hmem⟩ := hn
    · rw [settleIndex_first hreset, Except.bind, conclude_quiet rfl rfl]
      exact fun hkept => ⟨hkept, ⟨.body, rfl⟩, congrArg (· + 1) hstep, hmax, .inr rfl⟩
    · obtain ⟨results, hresults, hlength⟩ := hround.results
      have hquiet : s.record.isBroken = false :=
        hbroken.resolve_left fun hnull => by cases hround.index.symm.trans hnull
      rw [settleIndex_next hround.index hmem, Except.bind,
        conclude_quiet (r := { s.record with index := .num (n + 1) }) hquiet
          (outputCallback_next hresults hlength)]
      exact fun hkept => ⟨hkept, ⟨.body, rfl⟩, congrArg (· + 1) hstep, hmax, .inr hquiet⟩
  | body => exact ⟨hkept, ⟨.postBody, rfl⟩, congrArg (· + 1) hstep, hmax, hbroken⟩
  | postBody => exact ⟨hkept, ⟨.condition, rfl⟩, congrArg (· + 1) hstep, hmax, hbroken⟩

theorem run_goesOn : ∀ k ≤ maxRecursiveLimit,
    ((List.replicate k quietTurn).foldl (superstep untilBroken) idle.start).GoesOn (k + 1)
  | 0, _ => ⟨⟨0, start_kept rfl rfl⟩, ⟨.condition, rfl⟩, rfl, rfl, .inl rfl⟩
  | k + 1, hk => by
    rw [replicate_succ', foldl_append]
    exact superstep_goesOn (run_goesOn k (by omega)) hk

theorem superstep_beyond (h : s.GoesOn (maxRecursiveLimit + 1)) :
    (s.superstep untilBroken quietTurn).phase = .failed .recursionLimit := by
  obtain ⟨v, hp⟩ := h.pending
  have hlimit : s.maxStep < s.step := by
    rw [h.limit, h.step]
    exact Nat.lt_succ_self _
  rw [superstep, hp]
  dsimp only
  rw [if_pos hlimit]

end LoopRun

end JiuwenSpec.Workflow

import Mathlib.Tactic.Common

/-!
# Session values

The values a session state holds, with the container operations the path interpreter
performs on them: lookup, assignment and deletion in a dictionary, indexing from either
end of a list. A place inside a value is addressed by the steps that lead to it.
Source: `core/session/utils.py`.
-/

namespace JiuwenSpec.Session

/-- A JSON-like value; the entries of a dictionary keep their insertion order. -/
inductive Value where
  | null
  | bool (b : Bool)
  | num (i : Int)
  | str (s : String)
  | list (items : List Value)
  | dict (entries : List (String × Value))

inductive PathError where
  | typeError
  | indexError
  | valueError
  deriving DecidableEq

/-- A part of a split path: a dictionary key, or a list index counted from either end. -/
inductive PathPart where
  | key (name : String)
  | index (i : Int)
  deriving DecidableEq

inductive Step where
  | key (name : String)
  | item (n : Nat)
  deriving DecidableEq

abbrev Address := List Step

def entryGet? (name : String) : List (String × Value) → Option Value
  | [] => none
  | (k, v) :: rest => if k = name then some v else entryGet? name rest

/-- Assign a key: in place when present, at the end otherwise. -/
def entrySet (name : String) (value : Value) : List (String × Value) → List (String × Value)
  | [] => [(name, value)]
  | (k, v) :: rest => if k = name then (k, value) :: rest else (k, v) :: entrySet name value rest

def entryDelete (name : String) (entries : List (String × Value)) : List (String × Value) :=
  entries.filter (fun e => e.1 ≠ name)

theorem entryGet?_entrySet (name : String) (value : Value) (entries : List (String × Value))
    (other : String) : entryGet? other (entrySet name value entries) =
      if other = name then some value else entryGet? other entries := by
  induction entries with
  | nil =>
    by_cases h : other = name
    · simp [entrySet, entryGet?, h]
    · simp [entrySet, entryGet?, h, Ne.symm h]
  | cons e rest ih =>
    obtain ⟨k, v⟩ := e
    by_cases hk : k = name
    · subst hk
      by_cases h : other = k
      · simp [entrySet, entryGet?, h]
      · simp [entrySet, entryGet?, h, Ne.symm h]
    · by_cases h : k = other
      · subst h
        simp [entrySet, entryGet?, hk]
      · simp [entrySet, entryGet?, hk, h, ih]

namespace Value

/-- The position a Python index denotes in a list of a given length. -/
def position? (length : Nat) (i : Int) : Option Nat :=
  if 0 ≤ i then (if i.toNat < length then some i.toNat else none)
  else if 0 ≤ i + length then some (i + length).toNat else none

def child? : Value → Step → Option Value
  | dict entries, .key name => entryGet? name entries
  | list items, .item n => items[n]?
  | _, _ => none

/-- Replace the child one step down; nothing happens where there is no such place. -/
def setChild : Value → Step → Value → Value
  | dict entries, .key name, v => dict (entrySet name v entries)
  | list items, .item n, v => list (items.set n v)
  | other, _, _ => other

def at? : Address → Value → Option Value
  | [], v => some v
  | s :: rest, v => (v.child? s).bind (at? rest)

def setAt : Address → Value → Value → Value
  | [], new, _ => new
  | s :: rest, new, v =>
    match v.child? s with
    | some c => v.setChild s (setAt rest new c)
    | none => v

/-- Whether a list holds a value equal to an integer; a boolean equals 0 or 1. -/
def holdsInt (items : List Value) (i : Int) : Bool :=
  items.any (fun v => match v with
    | num j => j = i
    | bool b => (if b then 1 else 0) = i
    | _ => false)

end Value

/-!
## The path interpreter

`split_nested_path` parses a dotted and bracketed key, `root_to_path` walks it (creating
containers on demand), `expand_nested_structure` builds a nested value from an update, and
`update_dict` applies an update key by key, deletions last. An update that raises has
already changed the value: the outcome carries both.
Source: `core/session/utils.py`.
-/

/-- The zeros of the decimal digits that `\d` matches and `int()` reads; the other nine follow
each of them. -/
def decimalZeros : List Nat :=
  [0x30, 0x660, 0x6f0, 0x7c0, 0x966, 0x9e6, 0xa66, 0xae6, 0xb66, 0xbe6, 0xc66, 0xce6, 0xd66,
    0xde6, 0xe50, 0xed0, 0xf20, 0x1040, 0x1090, 0x17e0, 0x1810, 0x1946, 0x19d0, 0x1a80, 0x1a90,
    0x1b50, 0x1bb0, 0x1c40, 0x1c50, 0xa620, 0xa8d0, 0xa900, 0xa9d0, 0xa9f0, 0xaa50, 0xabf0,
    0xff10, 0x104a0, 0x10d30, 0x11066, 0x110f0, 0x11136, 0x111d0, 0x112f0, 0x11450, 0x114d0,
    0x11650, 0x116c0, 0x11730, 0x118e0, 0x11950, 0x11c50, 0x11d50, 0x11da0, 0x16a60, 0x16ac0,
    0x16b50, 0x1d7ce, 0x1d7d8, 0x1d7e2, 0x1d7ec, 0x1d7f6, 0x1e140, 0x1e2f0, 0x1e950, 0x1fbf0]

def decimalValue? (c : Char) : Option Nat :=
  (decimalZeros.find? (fun z => z ≤ c.toNat ∧ c.toNat < z + 10)).map (fun z => c.toNat - z)

/-- A character that `\d` matches. -/
def isDecimal (c : Char) : Bool := (decimalValue? c).isSome

def digitsValue (digits : List Char) : Int :=
  digits.foldl (fun n c => 10 * n + ((decimalValue? c).getD 0 : Nat)) 0

/-- One match of `\[(-?\d+)\]|\['([^']+)'\]` at the head, with what follows it. -/
def matchIndex : List Char → Option (PathPart × List Char)
  | '[' :: '\'' :: rest =>
    let name := rest.takeWhile (fun c => c ≠ '\'')
    match rest.drop name.length with
    | '\'' :: ']' :: after => if name = [] then none else some (.key (String.ofList name), after)
    | _ => none
  | '[' :: '-' :: rest =>
    let digits := rest.takeWhile isDecimal
    match rest.drop digits.length with
    | ']' :: after => if digits = [] then none else some (.index (-digitsValue digits), after)
    | _ => none
  | '[' :: rest =>
    let digits := rest.takeWhile isDecimal
    match rest.drop digits.length with
    | ']' :: after => if digits = [] then none else some (.index (digitsValue digits), after)
    | _ => none
  | _ => none

/-- `re.findall`: every match from left to right; each turn consumes a character. -/
def findIndexes : Nat → List Char → List PathPart
  | 0, _ => []
  | _ + 1, [] => []
  | fuel + 1, c :: cs =>
    match matchIndex (c :: cs) with
    | some (part, after) => part :: findIndexes fuel after
    | none => findIndexes fuel cs

def splitParam (param : List Char) : List PathPart :=
  if '[' ∈ param then
    let base := param.takeWhile (fun c => c ≠ '[')
    let indexes := findIndexes param.length param
    if base = [] then indexes else .key (String.ofList base) :: indexes
  else [.key (String.ofList param)]

/-- `int()` reads at most this many digits. -/
def intDigits : Nat := 4300

/-- Some index literal of a piece has more digits than `int()` reads. -/
def holdsLongIndex : Nat → List Char → Bool
  | 0, _ => false
  | _ + 1, [] => false
  | fuel + 1, c :: cs =>
    match matchIndex (c :: cs) with
    | some (.index _, after) =>
      let literal := (c :: cs).take ((c :: cs).length - after.length)
      decide (intDigits < (literal.filter isDecimal).length) || holdsLongIndex fuel after
    | some (.key _, after) => holdsLongIndex fuel after
    | none => holdsLongIndex fuel cs

/-- Splitting a key raises `ValueError` at an index literal that `int()` does not read. -/
def splitRaises (nestedKey : String) : Bool :=
  (nestedKey.toList.splitOn '.').any (fun param => holdsLongIndex param.length param)

/-- `split_nested_path`; a key without `.` and `[` has no parts. -/
def splitNestedPath (nestedKey : String) : List PathPart :=
  let chars := nestedKey.toList
  if '.' ∈ chars ∨ '[' ∈ chars then (chars.splitOn '.').flatMap splitParam else []

example : splitNestedPath "a_1.b.c[1].d" =
    [.key "a_1", .key "b", .key "c", .index 1, .key "d"] := by decide

/-- Where a walk ends: `(None, None)`, a container with the last key, or an exception. -/
inductive Walk where
  | notFound
  | found (container : Address) (last : PathPart)
  | raised (error : PathError)

def Walk.under (s : Step) : Walk → Walk
  | .found container last => .found (s :: container) last
  | other => other

def freshContainer : List PathPart → Value
  | .index _ :: _ => .list []
  | _ => .dict []

/-- The loop of `root_to_path`: the value with the containers created on the way, and
where the walk ends. -/
def walk (createIfAbsent : Bool) : List PathPart → Value → Value × Walk
  | [], v => (v, .notFound)
  | .key name :: rest, .dict entries =>
    if entryGet? name entries = none ∧ createIfAbsent = false then (.dict entries, .notFound)
    else
      let child := (entryGet? name entries).getD (freshContainer rest)
      let present := entrySet name child entries
      match rest with
      | [] => (.dict present, .found [] (.key name))
      | _ :: _ =>
        match createIfAbsent, child with
        | false, .null => (.dict present, .notFound)
        | _, _ =>
          let (child', result) := walk createIfAbsent rest child
          (.dict (entrySet name child' present), result.under (.key name))
  | .index i :: rest, .list items =>
    if (items.length : Int) ≤ i ∧ createIfAbsent = false then (.list items, .notFound)
    else
      let padded := items ++ List.replicate (i + 1 - items.length).toNat .null
      match rest with
      | [] => (.list padded, .found [] (.index i))
      | _ :: _ =>
        match Value.position? padded.length i with
        | none => (.list padded, .raised .indexError)
        | some n =>
          match createIfAbsent, padded.getD n .null with
          | false, .null => (.list padded, .notFound)
          | _, child =>
            let (child', result) := walk createIfAbsent rest child
            (.list (padded.set n child'), result.under (.item n))
  | _ :: _, v => (v, .notFound)

def rootToPath (nestedPath : String) (source : Value) (createIfAbsent : Bool) : Value × Walk :=
  if splitRaises nestedPath then (source, .raised .valueError)
  else
    match splitNestedPath nestedPath with
    | [] => (source, .found [] (.key nestedPath))
    | parts => walk createIfAbsent parts source

/-!
## Applying an update

`expand_nested_structure` rebuilds a new value, `update_by_key` assigns it or merges it
into an existing dictionary, `update_dict` does so for every key and deletes at the end.
A deletion keeps a reference to its container, so one whose container was replaced in
the meantime deletes from a container that is no longer part of the value.
Source: `core/session/utils.py`.
-/

/-- `current[current_key] = value` in the container a walk found. -/
def assignInto (root : Value) (container : Address) (last : PathPart) (value : Value) :
    Except PathError Value :=
  match Value.at? container root, last with
  | some (.dict entries), .key name =>
    .ok (Value.setAt container (.dict (entrySet name value entries)) root)
  | some (.list items), .index i =>
    match Value.position? items.length i with
    | some n => .ok (Value.setAt container (.list (items.set n value)) root)
    | none => .error .indexError
  | _, _ => .error .typeError

mutual

def expandNestedStructure : Value → Except PathError Value
  | .list items => (expandItems items).map .list
  | .dict entries => expandEntries (.dict []) entries
  | other => .ok other

def expandItems : List Value → Except PathError (List Value)
  | [] => .ok []
  | item :: rest =>
    match expandNestedStructure item, expandItems rest with
    | .ok v, .ok vs => .ok (v :: vs)
    | .error e, _ => .error e
    | .ok _, .error e => .error e

def expandEntries : Value → List (String × Value) → Except PathError Value
  | result, [] => .ok result
  | result, (key, value) :: rest =>
    match rootToPath key result true with
    | (_, .raised e) => .error e
    | (result', target) =>
      match expandNestedStructure value with
      | .error e => .error e
      | .ok expanded =>
        match target with
        | .found container last =>
          match assignInto result' container last expanded with
          | .ok result'' => expandEntries result'' rest
          | .error e => .error e
        | _ => .error .typeError

end

/-- What an update leaves behind: the value, the places whose child was replaced or
deleted, and the exception if one was raised. -/
structure Outcome where
  value : Value
  replaced : List Address := []
  error : Option PathError := none

/-- A deletion that is still to be made; `none` is the pair `(None, None)`. -/
abbrev Removal := Option (Address × PathPart)

def dropDetached (replaced : List Address) (removed : List Removal) : List Removal :=
  removed.filter (fun r => match r with
    | some (container, _) => replaced.all (fun place => !place.isPrefixOf container)
    | none => true)

/-- `delete_by_key`; a container that is gone loses nothing, an index deletes nothing. -/
def deleteByKey (root : Value) : Removal → Outcome
  | none => { value := root, error := some .typeError }
  | some (container, .key name) =>
    match Value.at? container root with
    | some (.dict entries) =>
      { value := Value.setAt container (.dict (entryDelete name entries)) root
        replaced := [container ++ [.key name]] }
    | _ => { value := root }
  | some (_, .index _) => { value := root }

/-- The deletions at the end of an update, up to the first that raises. -/
def runRemovals : Outcome → List Removal → Outcome
  | out, [] => out
  | out, r :: rest =>
    let next := deleteByKey out.value r
    let out' := { next with replaced := out.replaced ++ next.replaced }
    match next.error with
    | some _ => out'
    | none => runRemovals out' rest

def Outcome.lift (root : Value) (place : Address) (inner : Outcome) : Outcome where
  value := Value.setAt place inner.value root
  replaced := inner.replaced.map (place ++ ·)
  error := inner.error

/-- The child an existing key of a container denotes: `key not in source` compares a list
index with the values of the list. -/
def existingChild (container : Value) (last : PathPart) : Except PathError (Option (Step × Value)) :=
  match container, last with
  | .dict entries, .key name => .ok ((entryGet? name entries).map (fun v => (.key name, v)))
  | .list items, .index i =>
    if Value.holdsInt items i then
      match Value.position? items.length i with
      | some n => .ok (some (.item n, items.getD n .null))
      | none => .error .indexError
    else .ok none
  | _, _ => .error .typeError

/-- `source[key] = expand_nested_structure(new_value)`. -/
def assignExpanded (root : Value) (container : Address) (last : PathPart)
    (expanded : Except PathError Value) : Outcome :=
  match expanded with
  | .error e => { value := root, error := some e }
  | .ok v =>
    match assignInto root container last v with
    | .error e => { value := root, error := some e }
    | .ok root' =>
      let step : Step := match last, Value.at? container root with
        | .key name, _ => .key name
        | .index i, some (.list items) => .item ((Value.position? items.length i).getD 0)
        | .index _, _ => .item 0
      { value := root', replaced := [container ++ [step]] }

mutual

/-- `update_by_key` in the container at an address. -/
def updateByKey : Value → Value → Address → PathPart → Outcome
  | newValue, root, container, last =>
    match existingChild ((Value.at? container root).getD .null) last with
    | .error e => { value := root, error := some e }
    | .ok existing =>
      match newValue, existing with
      | .dict entries, some (s, .dict old) =>
        (updateEntries entries { value := .dict old } []).lift root (container ++ [s])
      | .dict entries, _ =>
        assignExpanded root container last (expandNestedStructure (.dict entries))
      | other, _ => assignExpanded root container last (expandNestedStructure other)

/-- The loop of `update_dict` and its deletions. -/
def updateEntries : List (String × Value) → Outcome → List Removal → Outcome
  | [], out, removed => runRemovals out removed
  | (key, value) :: rest, out, removed =>
    match rootToPath key out.value true with
    | (root, .raised e) => { out with value := root, error := some e }
    | (root, target) =>
      match value, target with
      | .null, .found container last =>
        updateEntries rest { out with value := root } (removed ++ [some (container, last)])
      | .null, _ => updateEntries rest { out with value := root } (removed ++ [none])
      | newValue, .found container last =>
        let next := updateByKey newValue root container last
        let out' := { next with replaced := out.replaced ++ next.replaced }
        match next.error with
        | some _ => out'
        | none => updateEntries rest out' (dropDetached next.replaced removed)
      | _, _ => { out with value := root, error := some .typeError }

end

/-- `update_dict`: the dictionary afterwards and the exception, if any. -/
def updateDict (update source : List (String × Value)) : Value × Option PathError :=
  let out := updateEntries update { value := .dict source } []
  (out.value, out.error)

end JiuwenSpec.Session

import Mathlib.Data.List.Basic

/-!
# Condition expressions

A condition is parsed by Python and walked by an interpreter of its own, which uses Python's
operators on the values. Beside it stands what Python itself makes of the tree.
Source: `workflow/components/condition/expression.py`.
-/

namespace JiuwenSpec.Condition

inductive UnaryOp where
  | uSub
  | uAdd
  | not
  | invert
  deriving DecidableEq

inductive BinOp where
  | add
  | sub
  | mult
  | div
  | mod
  | pow
  | floorDiv
  | lShift
  | rShift
  | bitOr
  | bitXor
  | bitAnd
  deriving DecidableEq

inductive CmpOp where
  | eq
  | notEq
  | lt
  | ltE
  | gt
  | gtE
  | is
  | isNot
  | isIn
  | notIn
  deriving DecidableEq

/-- What an operation raises: a `TypeError`, or anything else. -/
inductive Raised where
  | typeError
  | other
  deriving DecidableEq

/-- Python's values with its operations, which may raise. The last ones are what the guards ask of
a value: whether it is a list or a tuple and of which length, whether it is an integer and which,
whether it is a number, whether it is greater than 100, and the length it has, if any. -/
structure Python (V : Type) where
  truthy : V → Bool
  ofBool : Bool → V
  ofNat : Nat → V
  isNone : V → Bool
  unary : UnaryOp → V → Option V
  binary : BinOp → V → V → Option V
  compare : CmpOp → V → V → Except Raised Bool
  index : V → V → Option V
  slice : V → V → V → V → Option V
  length : V → Except Raised Nat
  call : String → List V → Option V
  list : List V → V
  tuple : List V → V
  sequence? : V → Option Nat
  int? : V → Option Int
  isNumber : V → Bool
  above100 : V → Bool
  len? : V → Option Nat

def maxCollectionSize : Nat := 100000

/-- The nodes of the tree. `length` is a call of `len`, and `call` one of another function of the
runtime. -/
inductive Expr (V : Type) where
  | constant (value : V)
  | name (id : String)
  | boolOp (isAnd : Bool) (values : List (Expr V))
  | compare (left : Expr V) (ops : List CmpOp) (comparators : List (Expr V))
  | unaryOp (op : UnaryOp) (operand : Expr V)
  | binOp (op : BinOp) (left right : Expr V)
  | subscript (value index : Expr V)
  | slice (value lower upper step : Expr V)
  | length (arg : Expr V)
  | call (func : String) (args : List (Expr V))
  | list (elts : List (Expr V))
  | tuple (elts : List (Expr V))

variable {V : Type}

def Python.multTooLarge (py : Python V) (left right : V) : Bool :=
  match py.sequence? left, py.int? right with
  | some n, some k =>
    if 0 < k then decide ((maxCollectionSize : Int) < n * k)
    else false
  | _, _ =>
    match py.sequence? right, py.int? left with
    | some n, some k => decide (0 < k ∧ (maxCollectionSize : Int) < n * k)
    | _, _ => false

/-- The guards of `_evaluate_bin_op`. -/
def Python.binaryGuard (py : Python V) (op : BinOp) (left right : V) : Bool :=
  match op with
  | .mult => py.multTooLarge left right
  | .pow => py.isNumber left && py.isNumber right && py.above100 right
  | _ => false

/-- The guard of `_evaluate_subscript`. -/
def Python.sizeGuard (py : Python V) (value : V) : Bool :=
  (py.len? value).any fun n => decide (maxCollectionSize < n)

def Python.sliceGuard (py : Python V) (lower upper : V) : Bool :=
  match py.int? lower, py.int? upper with
  | some l, some u => decide ((maxCollectionSize : Int) < u - l)
  | _, _ => false

/-- `_compare_values`; nothing where it raises. -/
def Python.compareValues (py : Python V) (op : CmpOp) (left right : V) : Option Bool :=
  match py.compare op left right with
  | .ok b => some b
  | .error .typeError => if op = .isIn ∨ op = .notIn then some false else none
  | .error .other => none

/-- `_safe_len`; nothing where it raises. -/
def Python.safeLen (py : Python V) (value : V) : Option V :=
  if py.isNone value then some (py.ofNat 0)
  else
    match py.length value with
    | .ok n => some (py.ofNat n)
    | .error _ => none

mutual

/-- `_evaluate_ast` with the values of the names; nothing where it raises. -/
def evaluateAst (py : Python V) (names : String → Option V) : Expr V → Option V
  | .constant value => some value
  | .name id => names id
  | .boolOp isAnd values => do
    let vs ← evaluateAll py names values
    return py.ofBool (if isAnd then vs.all py.truthy else vs.any py.truthy)
  | .compare left ops comparators => do
    let l ← evaluateAst py names left
    evaluateCompare py names l ops comparators
  | .unaryOp op operand => do
    let v ← evaluateAst py names operand
    py.unary op v
  | .binOp op left right => do
    let l ← evaluateAst py names left
    let r ← evaluateAst py names right
    if py.binaryGuard op l r then none else py.binary op l r
  | .subscript value index => do
    let v ← evaluateAst py names value
    if py.sizeGuard v then none
    else do
      let i ← evaluateAst py names index
      py.index v i
  | .slice value lower upper step => do
    let v ← evaluateAst py names value
    if py.sizeGuard v then none
    else do
      let l ← evaluateAst py names lower
      let u ← evaluateAst py names upper
      let s ← evaluateAst py names step
      if py.sliceGuard l u then none else py.slice v l u s
  | .length arg => do
    let v ← evaluateAst py names arg
    py.safeLen v
  | .call func args => do
    let vs ← evaluateAll py names args
    py.call func vs
  | .list elts =>
    if maxCollectionSize < elts.length then none
    else do
      let vs ← evaluateAll py names elts
      return py.list vs
  | .tuple elts => do
    let vs ← evaluateAll py names elts
    return py.tuple vs

def evaluateAll (py : Python V) (names : String → Option V) : List (Expr V) → Option (List V)
  | [] => some []
  | e :: es => do
    let v ← evaluateAst py names e
    let vs ← evaluateAll py names es
    return v :: vs

/-- The loop of `_evaluate_compare`, which compares each operand with the first. -/
def evaluateCompare (py : Python V) (names : String → Option V) (left : V) :
    List CmpOp → List (Expr V) → Option V
  | op :: ops, e :: es => do
    let r ← evaluateAst py names e
    let b ← py.compareValues op left r
    if b then evaluateCompare py names left ops es else some (py.ofBool false)
  | _, _ => some (py.ofBool true)

end

def Python.compare? (py : Python V) (op : CmpOp) (left right : V) : Option Bool :=
  match py.compare op left right with
  | .ok b => some b
  | .error _ => none

mutual

/-- What Python makes of an expression; nothing where it raises. -/
def pythonEval (py : Python V) (names : String → Option V) : Expr V → Option V
  | .constant value => some value
  | .name id => names id
  | .boolOp isAnd values => pythonBool py names isAnd values
  | .compare left ops comparators => do
    let l ← pythonEval py names left
    pythonCompare py names l ops comparators
  | .unaryOp op operand => do
    let v ← pythonEval py names operand
    py.unary op v
  | .binOp op left right => do
    let l ← pythonEval py names left
    let r ← pythonEval py names right
    py.binary op l r
  | .subscript value index => do
    let v ← pythonEval py names value
    let i ← pythonEval py names index
    py.index v i
  | .slice value lower upper step => do
    let v ← pythonEval py names value
    let l ← pythonEval py names lower
    let u ← pythonEval py names upper
    let s ← pythonEval py names step
    py.slice v l u s
  | .length arg => do
    let v ← pythonEval py names arg
    match py.length v with
    | .ok n => some (py.ofNat n)
    | .error _ => none
  | .call func args => do
    let vs ← pythonAll py names args
    py.call func vs
  | .list elts => do
    let vs ← pythonAll py names elts
    return py.list vs
  | .tuple elts => do
    let vs ← pythonAll py names elts
    return py.tuple vs

def pythonAll (py : Python V) (names : String → Option V) : List (Expr V) → Option (List V)
  | [] => some []
  | e :: es => do
    let v ← pythonEval py names e
    let vs ← pythonAll py names es
    return v :: vs

def pythonBool (py : Python V) (names : String → Option V) (isAnd : Bool) :
    List (Expr V) → Option V
  | [] => some (py.ofBool isAnd)
  | e :: es => do
    let v ← pythonEval py names e
    if es.isEmpty || py.truthy v != isAnd then some v else pythonBool py names isAnd es

def pythonCompare (py : Python V) (names : String → Option V) (left : V) :
    List CmpOp → List (Expr V) → Option V
  | op :: ops, e :: es => do
    let r ← pythonEval py names e
    let b ← py.compare? op left r
    if b then pythonCompare py names r ops es else some (py.ofBool false)
  | _, _ => some (py.ofBool true)

end

mutual

def Expr.Somewhere (P : Expr V → Prop) : Expr V → Prop
  | .constant value => P (.constant value)
  | .name id => P (.name id)
  | .boolOp isAnd values => P (.boolOp isAnd values) ∨ SomewhereIn P values
  | .compare left ops comparators =>
    P (.compare left ops comparators) ∨ left.Somewhere P ∨ SomewhereIn P comparators
  | .unaryOp op operand => P (.unaryOp op operand) ∨ operand.Somewhere P
  | .binOp op left right => P (.binOp op left right) ∨ left.Somewhere P ∨ right.Somewhere P
  | .subscript value index => P (.subscript value index) ∨ value.Somewhere P ∨ index.Somewhere P
  | .slice value lower upper step => P (.slice value lower upper step) ∨ value.Somewhere P ∨
      lower.Somewhere P ∨ upper.Somewhere P ∨ step.Somewhere P
  | .length arg => P (.length arg) ∨ arg.Somewhere P
  | .call func args => P (.call func args) ∨ SomewhereIn P args
  | .list elts => P (.list elts) ∨ SomewhereIn P elts
  | .tuple elts => P (.tuple elts) ∨ SomewhereIn P elts

def SomewhereIn (P : Expr V → Prop) : List (Expr V) → Prop
  | [] => False
  | e :: es => e.Somewhere P ∨ SomewhereIn P es

end

mutual

/-- A comparison has one operator, and `and` and `or` stand only where their truth is asked:
`truth` says whether that of the expression is. -/
def Expr.Plain : Bool → Expr V → Prop
  | _, .constant _ => True
  | _, .name _ => True
  | truth, .boolOp _ values => truth = true ∧ PlainIn true values
  | _, .compare left ops comparators =>
    ops.length = 1 ∧ comparators.length = 1 ∧ left.Plain false ∧ PlainIn false comparators
  | _, .unaryOp op operand => operand.Plain (decide (op = .not))
  | _, .binOp _ left right => left.Plain false ∧ right.Plain false
  | _, .subscript value index => value.Plain false ∧ index.Plain false
  | _, .slice value lower upper step =>
    value.Plain false ∧ lower.Plain false ∧ upper.Plain false ∧ step.Plain false
  | _, .length arg => arg.Plain false
  | _, .call _ args => PlainIn false args
  | _, .list elts => PlainIn false elts
  | _, .tuple elts => PlainIn false elts

def PlainIn : Bool → List (Expr V) → Prop
  | _, [] => True
  | truth, e :: es => e.Plain truth ∧ PlainIn truth es

end

def Raises (py : Python V) (names : String → Option V) (e : Expr V) : Prop :=
  pythonEval py names e = none

/-- A guard refuses the values that Python has for the parts of the expression. -/
def Guarded (py : Python V) (names : String → Option V) : Expr V → Prop
  | .binOp op left right => ∃ l r, pythonEval py names left = some l ∧
      pythonEval py names right = some r ∧ py.binaryGuard op l r = true
  | .subscript value _ => ∃ v, pythonEval py names value = some v ∧ py.sizeGuard v = true
  | .slice value lower upper _ => ∃ v, pythonEval py names value = some v ∧
      (py.sizeGuard v = true ∨ ∃ l u, pythonEval py names lower = some l ∧
        pythonEval py names upper = some u ∧ py.sliceGuard l u = true)
  | .list elts => maxCollectionSize < elts.length
  | _ => False

/-- The interpreter is lenient: a membership test on what is no container is false, and `None` has
the length 0. -/
def Lenient (py : Python V) (names : String → Option V) : Expr V → Prop
  | .compare left ops comparators => ∃ op right l r, ops = [op] ∧ comparators = [right] ∧
      (op = .isIn ∨ op = .notIn) ∧ pythonEval py names left = some l ∧
        pythonEval py names right = some r ∧ py.compare op l r = .error .typeError
  | .length arg => ∃ v, pythonEval py names arg = some v ∧ py.isNone v = true
  | _ => False

/-- Two values agree: in their truth, where it is all that is asked, or altogether. -/
def Agree (py : Python V) (truth : Bool) (v w : V) : Prop :=
  if truth then py.truthy v = py.truthy w else v = w

end JiuwenSpec.Condition

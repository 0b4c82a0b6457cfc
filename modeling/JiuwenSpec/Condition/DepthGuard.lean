import JiuwenSpec.Condition.Expression

/-!
# The guard on the depth of an expression

Before a condition is evaluated its tree is checked: no node may lie deeper than a bound. The
check descends into the parts that it knows, and the evaluator into those that it evaluates: the
index of a subscript is one of the latter only.
Source: `workflow/components/condition/expression.py`.
-/

namespace JiuwenSpec.Condition

def maxAstDepth : Nat := 50

/-- What a node is, its parts apart. The evaluator has no function for `other`. -/
inductive NodeKind (V : Type) where
  | constant (value : V)
  | name (id : String)
  | boolOp (isAnd : Bool)
  | compare (ops : List CmpOp)
  | unaryOp (op : UnaryOp)
  | binOp (op : BinOp)
  | subscript
  | slice (lower upper step : Bool)
  | attribute (attr : String)
  | call
  | list
  | tuple
  | dict
  | expression
  | other

/-- A tree with the parts of each node in the order of their evaluation: the left operand before
the others, the function before its arguments, and of a subscript the value, then its index or
the bounds of its slice that are there. The parts of a dictionary are its keys and values in turn,
a key that is `None` being an `other` node. -/
inductive Ast (V : Type) where
  | node (kind : NodeKind V) (parts : List (Ast V))

variable {V : Type}

mutual

/-- `_check_ast_depth`; nothing where it raises. -/
def checkAstDepth (currentDepth : Nat) : Ast V → Option Nat
  | .node kind parts =>
    if maxAstDepth < currentDepth then none
    else
      match kind with
      | .constant _ | .name _ | .other => some currentDepth
      | .subscript => checkFirst currentDepth parts
      | _ => checkParts currentDepth parts

/-- Only `node.value`, where `node.slice` has no bounds. -/
def checkFirst (currentDepth : Nat) : List (Ast V) → Option Nat
  | [] => some currentDepth
  | part :: _ => (checkAstDepth (currentDepth + 1) part).map (max currentDepth)

def checkParts (currentDepth : Nat) : List (Ast V) → Option Nat
  | [] => some currentDepth
  | part :: parts => do
    let depth ← checkAstDepth (currentDepth + 1) part
    let maxDepth ← checkParts currentDepth parts
    return max depth maxDepth

end

/-- Python and the runtime of a condition. A node whose parts are all evaluated is applied to
their values. Before that it may be over after any part, with a value or by raising: a comparison
that is false, an operand whose size a guard refuses. -/
structure Runtime (V : Type) where
  name : String → Option V
  overAfter : NodeKind V → List V → Option (Option V)
  apply : NodeKind V → List V → Option V

/-- A list or a dictionary with too many elements is not evaluated. -/
def NodeKind.tooLarge (kind : NodeKind V) (parts : Nat) : Bool :=
  match kind with
  | .list => maxCollectionSize < parts
  | .dict => 2 * maxCollectionSize < parts
  | _ => false

mutual

/-- `_evaluate_ast` called at a depth: the value, nothing where it raises, and the depth of the
deepest call. -/
def evaluateAt (rt : Runtime V) (depth : Nat) : Ast V → Option V × Nat
  | .node kind parts =>
    match kind with
    | .constant value => (some value, depth)
    | .name id => (rt.name id, depth)
    | .other => (none, depth)
    | kind => if kind.tooLarge parts.length then (none, depth)
        else evaluateParts rt kind depth [] parts

/-- The functions `_evaluate_bool_op` to `_evaluate_dict`: one part after another. -/
def evaluateParts (rt : Runtime V) (kind : NodeKind V) (depth : Nat) (values : List V) :
    List (Ast V) → Option V × Nat
  | [] => (rt.apply kind values, depth)
  | part :: parts =>
    match evaluateAt rt (depth + 1) part with
    | (none, reached) => (none, reached)
    | (some value, reached) =>
      match rt.overAfter kind (values ++ [value]) with
      | some result => (result, reached)
      | none =>
        let rest := evaluateParts rt kind depth (values ++ [value]) parts
        (rest.1, max reached rest.2)

end

mutual

def Ast.deepest (counted : NodeKind V → Nat → Nat) (depth : Nat) : Ast V → Nat
  | .node kind parts => deepestOf counted depth (counted kind parts.length) parts

def deepestOf (counted : NodeKind V → Nat → Nat) (depth : Nat) : Nat → List (Ast V) → Nat
  | n + 1, part :: parts =>
    max (part.deepest counted (depth + 1)) (deepestOf counted depth n parts)
  | _, _ => depth

end

def NodeKind.outside (kind : NodeKind V) (parts : Nat) : Nat :=
  match kind with
  | .constant _ | .name _ | .other => 0
  | .subscript => 1
  | _ => parts

def NodeKind.evaluated (kind : NodeKind V) (parts : Nat) : Nat :=
  match kind with
  | .constant _ | .name _ | .other => 0
  | kind => if kind.tooLarge parts then 0 else parts

mutual

/-- No node is of a kind without an evaluator or too large. -/
def Ast.Supported : Ast V → Prop
  | .node kind parts => kind ≠ .other ∧ kind.tooLarge parts.length = false ∧ SupportedIn parts

def SupportedIn : List (Ast V) → Prop
  | [] => True
  | part :: parts => part.Supported ∧ SupportedIn parts

end

theorem le_deepestOf (counted : NodeKind V → Nat → Nat) (depth n : Nat) (parts : List (Ast V)) :
    depth ≤ deepestOf counted depth n parts := by
  induction parts generalizing n with
  | nil => cases n <;> exact Nat.le_refl _
  | cons part parts ih =>
    cases n with
    | zero => exact Nat.le_refl _
    | succ n => exact Nat.le_trans (ih n) (Nat.le_max_right _ _)

theorem le_deepest (counted : NodeKind V → Nat → Nat) (depth : Nat) (e : Ast V) :
    depth ≤ e.deepest counted depth := by
  cases e with
  | node kind parts => exact le_deepestOf _ _ _ _

mutual

theorem checkAstDepth_iff (depth : Nat) : ∀ e : Ast V,
    checkAstDepth depth e ≠ none ↔ e.deepest NodeKind.outside depth ≤ maxAstDepth
  | .node kind parts => by
    have hle := le_deepestOf NodeKind.outside depth (kind.outside parts.length) parts
    rw [Ast.deepest]
    by_cases hdepth : maxAstDepth < depth
    · refine iff_of_false (fun h => h ?_) (by omega)
      cases kind <;> exact if_pos hdepth
    · have hparts := checkParts_iff (Nat.not_lt.mp hdepth) parts
      cases kind with
      | constant _ | name _ | other =>
        simpa [checkAstDepth, hdepth, NodeKind.outside, deepestOf] using Nat.not_lt.mp hdepth
      | subscript =>
        cases parts with
        | nil =>
          simpa [checkAstDepth, hdepth, NodeKind.outside, deepestOf, checkFirst]
            using Nat.not_lt.mp hdepth
        | cons part parts =>
          have hpart := checkAstDepth_iff (depth + 1) part
          have hbelow := le_deepest NodeKind.outside (depth + 1) part
          rw [checkAstDepth, if_neg hdepth, checkFirst, ne_eq, Option.map_eq_none_iff, ← ne_eq,
            hpart, NodeKind.outside, deepestOf, deepestOf]
          · omega
          · simp
      | _ => simpa only [checkAstDepth, if_neg hdepth, NodeKind.outside] using hparts

theorem checkParts_iff {depth : Nat} (hdepth : depth ≤ maxAstDepth) : ∀ parts : List (Ast V),
    checkParts depth parts ≠ none ↔
      deepestOf NodeKind.outside depth parts.length parts ≤ maxAstDepth
  | [] => by simpa [checkParts, deepestOf] using hdepth
  | part :: parts => by
    have hpart := checkAstDepth_iff (depth + 1) part
    have hparts := checkParts_iff hdepth parts
    rw [checkParts, List.length_cons, deepestOf, Nat.max_le, ← hpart, ← hparts]
    cases checkAstDepth (depth + 1) part <;> cases checkParts depth parts <;> simp

end

mutual

theorem evaluateAt_le (rt : Runtime V) (depth : Nat) : ∀ e : Ast V,
    (evaluateAt rt depth e).2 ≤ e.deepest NodeKind.evaluated depth
  | .node kind parts => by
    have hle := le_deepestOf NodeKind.evaluated depth (kind.evaluated parts.length) parts
    have hparts := evaluateParts_le rt kind depth [] parts
    rw [Ast.deepest]
    cases kind <;> simp only [evaluateAt] <;> first
      | exact hle
      | (split
         · exact hle
         · next hsmall => simpa [NodeKind.evaluated, hsmall] using hparts)

theorem evaluateParts_le (rt : Runtime V) (kind : NodeKind V) (depth : Nat) (values : List V) :
    ∀ parts : List (Ast V), (evaluateParts rt kind depth values parts).2 ≤
      deepestOf NodeKind.evaluated depth parts.length parts
  | [] => Nat.le_refl _
  | part :: parts => by
    have hpart := evaluateAt_le rt (depth + 1) part
    rw [evaluateParts, List.length_cons, deepestOf]
    cases hvalue : evaluateAt rt (depth + 1) part with
    | mk value reached =>
      rw [hvalue] at hpart
      cases value with
      | none => exact Nat.le_trans hpart (Nat.le_max_left _ _)
      | some value =>
        have hparts := evaluateParts_le rt kind depth (values ++ [value]) parts
        simp only
        split
        · exact Nat.le_trans hpart (Nat.le_max_left _ _)
        · exact Nat.max_le.mpr ⟨Nat.le_trans hpart (Nat.le_max_left _ _),
            Nat.le_trans hparts (Nat.le_max_right _ _)⟩

end

/-- A runtime in which nothing raises and no node is over before its last part. -/
def generous (value : V) : Runtime V := ⟨fun _ => some value, fun _ _ => none, fun _ _ => some value⟩

mutual

theorem generous_reaches (v : V) (depth : Nat) : ∀ e : Ast V, e.Supported →
    ∃ value, evaluateAt (generous v) depth e =
      (some value, e.deepest NodeKind.evaluated depth)
  | .node kind parts, h => by
    obtain ⟨hkind, hsmall, hparts⟩ := h
    have hall := generous_reachesAll v kind depth [] parts hparts
    rw [Ast.deepest]
    cases kind with
    | other => exact absurd rfl hkind
    | constant value => exact ⟨value, by simp [evaluateAt, NodeKind.evaluated, deepestOf]⟩
    | name id => exact ⟨v, by simp [evaluateAt, generous, NodeKind.evaluated, deepestOf]⟩
    | _ => exact ⟨v, by simpa [evaluateAt, NodeKind.evaluated, hsmall] using hall⟩

theorem generous_reachesAll (v : V) (kind : NodeKind V) (depth : Nat) (values : List V) :
    ∀ parts : List (Ast V), SupportedIn parts →
      evaluateParts (generous v) kind depth values parts =
        (some v, deepestOf NodeKind.evaluated depth parts.length parts)
  | [], _ => rfl
  | part :: parts, h => by
    obtain ⟨value, hvalue⟩ := generous_reaches v (depth + 1) part h.1
    have hparts := generous_reachesAll v kind depth (values ++ [value]) parts h.2
    rw [evaluateParts, hvalue]
    simp only [generous] at hparts ⊢
    rw [hparts, List.length_cons, deepestOf]

end

/-- The evaluation of an expression that the check accepts is never deeper than the bound. -/
def GuardSound (e : Ast V) : Prop :=
  checkAstDepth 0 e ≠ none → ∀ rt : Runtime V, (evaluateAt rt 0 e).2 ≤ maxAstDepth

/-- A node outside the indexes is too deep, or none is, indexes included. -/
def IndexesShallow (e : Ast V) : Prop :=
  maxAstDepth < e.deepest NodeKind.outside 0 ∨ e.deepest NodeKind.evaluated 0 ≤ maxAstDepth

/-- **When the depth guard is sound.** It is where the indexes of subscripts are no deeper than
the bound, or the check refuses for another node; and, for expressions that the evaluator
supports, only there. -/
theorem guardSound_iff [Inhabited V] (e : Ast V) :
    (IndexesShallow e → GuardSound e) ∧ (e.Supported → (GuardSound e ↔ IndexesShallow e)) := by
  have hsound : IndexesShallow e → GuardSound e := by
    rintro (hdeep | hshallow) hcheck rt
    · exact absurd ((checkAstDepth_iff 0 e).mp hcheck) (Nat.not_le.mpr hdeep)
    · exact Nat.le_trans (evaluateAt_le rt 0 e) hshallow
  refine ⟨hsound, fun hs => ⟨fun h => ?_, hsound⟩⟩
  rw [IndexesShallow, ← Nat.not_le, ← checkAstDepth_iff, ← imp_iff_not_or]
  intro hcheck
  obtain ⟨value, hreach⟩ := generous_reaches default 0 e hs
  have hle := h hcheck (generous default)
  rwa [hreach] at hle

/-- `a[a[a[…]]]` -/
def nested : Nat → Ast Unit
  | 0 => .node (.name "a") []
  | n + 1 => .node .subscript [.node (.name "a") [], nested n]

/-- The check accepts an expression on which the evaluator goes deeper. -/
theorem nested_not_sound : ¬ GuardSound (.node .expression [nested 50]) := by
  intro h
  have hdeep := h (by decide +kernel) (generous ())
  revert hdeep
  decide +kernel

end JiuwenSpec.Condition

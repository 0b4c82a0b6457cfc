import Mathlib.Data.List.Infix
import JiuwenSpec.Store.QueryFilter

/-!
# Filters of Chroma

A query expression becomes two filters of Chroma, one on the metadata of a record and one on its
document. A record has to pass both.
Source: `core/foundation/store/query/chroma_query_func.py`, `core/foundation/store/query/base.py`.
-/

namespace JiuwenSpec.Store.ChromaFilter

open Base

variable {V : Type}

/-- The value of a `RangeExpr`: a sequence or a set of values, or a string. -/
inductive RangeValue (V : Type) where
  | items (values : List V)
  | text (text : Text)

/-- `QueryExpr` over the values that metadata can have. The kinds of expressions that Chroma does
not support are without their fields. -/
inductive QueryExpr (V : Type) where
  | comparison (field operator : Text) (value : V)
  | range (field operator : Text) (value : RangeValue V)
  | arithmetic
  | null
  | json
  | array
  | textMatch (field value : Text) (mode : MatchMode)
  | logical (operator : Text) (left : QueryExpr V) (right : Option (QueryExpr V))

inductive Order where
  | gt
  | gte
  | lt
  | lte
deriving DecidableEq

/-- A condition on the metadata: `{field: value}`, `{field: {"$in": values}}`,
`{field: {"$nin": values}}`, or `{field: {op: value}}`. -/
inductive Condition (V : Type) where
  | eq (field : Text) (value : V)
  | isIn (field : Text) (values : List V)
  | notIn (field : Text) (values : List V)
  | order (field : Text) (op : Order) (value : V)

/-- A condition on the document: `{"$contains": text}` or `{"$regex": text}`. -/
inductive DocumentCondition where
  | contains (text : Text)
  | regex (text : Text)

/-- A filter that is not empty: a condition, `{"$and": [left, right]}` or
`{"$or": [left, right]}`. -/
inductive Filter (α : Type) where
  | leaf (condition : α)
  | and (left right : Filter α)
  | or (left right : Filter α)

/-- The filters `where` and `where_document`, of which each may be empty. -/
structure Filters (V : Type) where
  whereFilter : Option (Filter (Condition V))
  whereDocument : Option (Filter DocumentCondition)

/-- A string that is given as a sequence stands for its characters. -/
def valueList (single : Char → V) : RangeValue V → List V
  | .items values => values
  | .text text => text.map single

def chromaComparisonFilter (field operator : Text) (value : V) : Except Text (Filters V) :=
  let filter (condition : Condition V) : Except Text (Filters V) :=
    .ok ⟨some (.leaf condition), none⟩
  if operator = "==".toList then filter (.eq field value)
  else if operator = "!=".toList then filter (.notIn field [value])
  else if operator = ">".toList then filter (.order field .gt value)
  else if operator = ">=".toList then filter (.order field .gte value)
  else if operator = "<".toList then filter (.order field .lt value)
  else if operator = "<=".toList then filter (.order field .lte value)
  else .error ("Unsupported comparison operator: ".toList ++ operator)

def chromaRangeFilter (single : Char → V) (field operator : Text) (value : RangeValue V) :
    Except Text (Filters V) :=
  if lowerText operator = "in".toList then
    .ok ⟨some (.leaf (.isIn field (valueList single value))), none⟩
  else .error ("Unsupported range operator: ".toList ++ operator)

def chromaArithmeticFilter : Except Text (Filters V) :=
  .error ("Chroma does not support arithmetic operations in metadata filters. ".toList ++
    "Consider pre-computing the arithmetic result and storing it as a metadata field.".toList)

/-- `chroma_json_filter`, which `chroma_null_filter` agrees with. -/
def chromaJsonFilter : Except Text (Filters V) :=
  .error ("Chroma does not support nested JSON fields in metadata. ".toList ++
    "Chroma only supports flat metadata (str, int, float, bool, None). ".toList ++
    "Consider flattening your metadata structure (e.g., 'user.name' -> 'user_name').".toList)

def chromaArrayFilter : Except Text (Filters V) :=
  .error ("Chroma does not support array indexing in metadata. ".toList ++
    "Chroma only supports flat metadata (str, int, float, bool, None). ".toList ++
    "Consider flattening your array structure (e.g., 'tags[0]' -> 'tag_0').".toList)

def chromaTextMatchFilter (value : Text) (mode : MatchMode) : Filters V where
  whereFilter := none
  whereDocument := some <| .leaf <|
    match mode with
    | .exact => .contains value
    | .leading => .regex ('^' :: value)
    | .trailing => .regex (value ++ ['$'])
    | .inner => .contains value

def combine {α : Type} (op : α → α → α) : Option α → Option α → Option α
  | some left, some right => some (op left right)
  | some left, none => some left
  | none, right => right

/-- `chroma_logical_filter`, on what comes of the operands. -/
def chromaLogicalFilter (operator : Text) (left : Filters V) (right : Option (Filters V)) :
    Except Text (Filters V) :=
  let combined : Except Text (Option (Filters V) → Filters V) :=
    if lowerText operator = "and".toList then
      .ok fun right => ⟨combine .and left.whereFilter (right.bind Filters.whereFilter),
        combine .and left.whereDocument (right.bind Filters.whereDocument)⟩
    else if lowerText operator = "or".toList then
      .ok fun right => ⟨combine .or left.whereFilter (right.bind Filters.whereFilter),
        combine .or left.whereDocument (right.bind Filters.whereDocument)⟩
    else .error ("Unsupported logical operator: ".toList ++ operator)
  match combined, right with
  | .error e, _ => .error e
  | .ok _, none =>
    .error (lowerText operator ++ " operator requires both left and right operands".toList)
  | .ok filters, some right => .ok (filters (some right))

/-- `to_expr("chroma")`. -/
def QueryExpr.toExpr (single : Char → V) : QueryExpr V → Except Text (Filters V)
  | .comparison field operator value => chromaComparisonFilter field operator value
  | .range field operator value => chromaRangeFilter single field operator value
  | .arithmetic => chromaArithmeticFilter
  | .null => chromaJsonFilter
  | .json => chromaJsonFilter
  | .array => chromaArrayFilter
  | .textMatch _ value mode => .ok (chromaTextMatchFilter value mode)
  | .logical operator left none =>
    match left.toExpr single with
    | .error e => .error e
    | .ok left => chromaLogicalFilter operator left none
  | .logical operator left (some right) =>
    match left.toExpr single with
    | .error e => .error e
    | .ok left =>
      match right.toExpr single with
      | .error e => .error e
      | .ok right => chromaLogicalFilter operator left (some right)

structure Record (V : Type) where
  metadata : Text → Option V
  document : Text

/-- How Chroma compares values, whether a record without a field differs from every value there,
whether a pattern is found in a text, and which conditions are valid. -/
structure Chroma (V : Type) where
  same : V → V → Bool
  compare : Order → V → V → Bool
  missingDiffers : Bool
  search : Text → Text → Bool
  valid : Condition V → Bool
  validDocument : DocumentCondition → Bool

def isIn (text document : Text) : Bool := decide (text <:+: document)

/-- What a filter comes to, given what its conditions come to. -/
def Filter.holds {α : Type} (p : α → Bool) : Filter α → Bool
  | .leaf condition => p condition
  | .and left right => left.holds p && right.holds p
  | .or left right => left.holds p || right.holds p

def Filter.all {α : Type} (p : α → Bool) : Filter α → Bool
  | .leaf condition => p condition
  | .and left right => left.all p && right.all p
  | .or left right => left.all p && right.all p

namespace Chroma

variable (c : Chroma V)

def oneOf (values : List V) : Option V → Bool
  | some value => values.any (c.same value)
  | none => false

def noneOf (values : List V) : Option V → Bool
  | some value => !values.any (c.same value)
  | none => c.missingDiffers

def inOrder (op : Order) (given : V) : Option V → Bool
  | some value => c.compare op value given
  | none => false

def condition (r : Record V) : Condition V → Bool
  | .eq field value => c.oneOf [value] (r.metadata field)
  | .isIn field values => c.oneOf values (r.metadata field)
  | .notIn field values => c.noneOf values (r.metadata field)
  | .order field op value => c.inOrder op value (r.metadata field)

def documentCondition (r : Record V) : DocumentCondition → Bool
  | .contains text => isIn text r.document
  | .regex pattern => c.search pattern r.document

def takes (filters : Filters V) : Bool :=
  filters.whereFilter.all (Filter.all c.valid) &&
    filters.whereDocument.all (Filter.all c.validDocument)

def accepts (filters : Filters V) (r : Record V) : Bool :=
  c.takes filters && (filters.whereFilter.all (Filter.holds (c.condition r)) &&
    filters.whereDocument.all (Filter.holds (c.documentCondition r)))

/-- A text match that is taken literally. Without a wildcard it stands for a substring. -/
def literally : MatchMode → Text → Text → Bool
  | .exact, value, document => isIn value document
  | .leading, value, document => value.isPrefixOf document
  | .trailing, value, document => value.isSuffixOf document
  | .inner, value, document => isIn value document

/-- A text match whose prefix or suffix is a regular expression. -/
def asRegex : MatchMode → Text → Text → Bool
  | .exact, value, document => isIn value document
  | .leading, value, document => c.search ('^' :: value) document
  | .trailing, value, document => c.search (value ++ ['$']) document
  | .inner, value, document => isIn value document

def comparison (operator : Text) (given : V) (value : Option V) : Bool :=
  if operator = "==".toList then c.oneOf [given] value
  else if operator = "!=".toList then c.noneOf [given] value
  else if operator = ">".toList then c.inOrder .gt given value
  else if operator = ">=".toList then c.inOrder .gte given value
  else if operator = "<".toList then c.inOrder .lt given value
  else if operator = "<=".toList then c.inOrder .lte given value
  else false

variable (single : Char → V)

def meaning (reads : MatchMode → Text → Text → Bool) : QueryExpr V → Record V → Bool
  | .comparison field operator value, r => c.comparison operator value (r.metadata field)
  | .range field _ value, r => c.oneOf (valueList single value) (r.metadata field)
  | .textMatch _ value mode, r => reads mode value r.document
  | .logical operator left (some right), r =>
    if lowerText operator = "and".toList then meaning reads left r && meaning reads right r
    else meaning reads left r || meaning reads right r
  | _, _ => false

/-- The expression with its text matches struck out. -/
def metadataPart : QueryExpr V → Option (QueryExpr V)
  | .textMatch .. => none
  | .logical operator left (some right) =>
    combine (fun l r => .logical operator l (some r)) (metadataPart left) (metadataPart right)
  | e => some e

def documentPart : QueryExpr V → Option (QueryExpr V)
  | .textMatch field value mode => some (.textMatch field value mode)
  | .logical operator left (some right) =>
    combine (fun l r => .logical operator l (some r)) (documentPart left) (documentPart right)
  | _ => none

/-- Chroma takes each comparison and each text match of the expression. -/
def takesParts : QueryExpr V → Bool
  | .logical _ left (some right) => takesParts left && takesParts right
  | e =>
    match e.toExpr single with
    | .ok filters => c.takes filters
    | .error _ => false

/-- The expression falls apart: a record meets it just when it meets what is left without the text
matches, and what is left without the comparisons, with prefixes and suffixes as regular
expressions. -/
def FallsApart (e : QueryExpr V) : Prop :=
  ∀ r, c.meaning single literally e r =
    ((metadataPart e).all (c.meaning single literally · r) &&
      (documentPart e).all (c.meaning single c.asRegex · r))

variable {c single}

/-- A filter comes to what a part of the expression means. -/
inductive Reads {α : Type} (p : Record V → α → Bool) (m : QueryExpr V → Record V → Bool) :
    Option (Filter α) → Option (QueryExpr V) → Prop where
  | none : Reads p m none none
  | some {filter : Filter α} {e : QueryExpr V} (h : ∀ r, filter.holds (p r) = m e r) :
    Reads p m (some filter) (some e)

theorem Reads.all {α : Type} {p : Record V → α → Bool} {m : QueryExpr V → Record V → Bool}
    {filter : Option (Filter α)} {e : Option (QueryExpr V)} (h : Reads p m filter e)
    (r : Record V) : filter.all (Filter.holds (p r)) = e.all (m · r) := by
  cases h with
  | none => rfl
  | some h => exact h r

theorem Reads.combine {α : Type} {p : Record V → α → Bool} {m : QueryExpr V → Record V → Bool}
    {left right : Option (Filter α)} {l r : Option (QueryExpr V)} (hleft : Reads p m left l)
    (hright : Reads p m right r) {op : Filter α → Filter α → Filter α}
    {both : QueryExpr V → QueryExpr V → QueryExpr V}
    (hop : ∀ {left right : Filter α} {l r : QueryExpr V},
      (∀ x, left.holds (p x) = m l x) → (∀ x, right.holds (p x) = m r x) →
        ∀ x, (op left right).holds (p x) = m (both l r) x) :
    Reads p m (ChromaFilter.combine op left right)
      (ChromaFilter.combine both l r) := by
  cases hleft with
  | none => cases hright with
    | none => exact .none
    | some hright => exact .some hright
  | some hleft => cases hright with
    | none => exact .some hleft
    | some hright => exact .some (hop hleft hright)

theorem chromaComparisonFilter_ok {field operator : Text} {value : V} {filters : Filters V}
    (h : chromaComparisonFilter field operator value = .ok filters) :
    ∃ condition, filters = ⟨some (.leaf condition), none⟩ ∧
      ∀ r, c.condition r condition = c.comparison operator value (r.metadata field) := by
  unfold chromaComparisonFilter at h
  unfold comparison
  split_ifs at h <;> cases h
  · next h => exact ⟨_, rfl, fun r => (if_pos h).symm⟩
  · next h h' => exact ⟨_, rfl, fun r => by rw [if_neg h, if_pos h']; rfl⟩
  · next h h' h'' => exact ⟨_, rfl, fun r => by rw [if_neg h, if_neg h', if_pos h'']; rfl⟩
  · next h₁ h₂ h₃ h₄ =>
    exact ⟨_, rfl, fun r => by rw [if_neg h₁, if_neg h₂, if_neg h₃, if_pos h₄]; rfl⟩
  · next h₁ h₂ h₃ h₄ h₅ =>
    exact ⟨_, rfl, fun r => by rw [if_neg h₁, if_neg h₂, if_neg h₃, if_neg h₄, if_pos h₅]; rfl⟩
  · next h₁ h₂ h₃ h₄ h₅ h₆ =>
    exact ⟨_, rfl, fun r => by
      rw [if_neg h₁, if_neg h₂, if_neg h₃, if_neg h₄, if_neg h₅, if_pos h₆]; rfl⟩

theorem chromaLogicalFilter_ok {operator : Text} {left right filters : Filters V}
    (h : chromaLogicalFilter operator left (some right) = .ok filters) :
    (lowerText operator = "and".toList ∧
      filters = ⟨combine .and left.whereFilter right.whereFilter,
        combine .and left.whereDocument right.whereDocument⟩) ∨
    (¬ lowerText operator = "and".toList ∧
      filters = ⟨combine .or left.whereFilter right.whereFilter,
        combine .or left.whereDocument right.whereDocument⟩) := by
  unfold chromaLogicalFilter at h
  by_cases hand : lowerText operator = "and".toList
  · rw [if_pos hand] at h
    exact .inl ⟨hand, (Except.ok.inj h).symm⟩
  · by_cases hor : lowerText operator = "or".toList
    · rw [if_neg hand, if_pos hor] at h
      exact .inr ⟨hand, (Except.ok.inj h).symm⟩
    · rw [if_neg hand, if_neg hor] at h
      cases h

theorem chromaLogicalFilter_none {operator : Text} {left filters : Filters V} :
    chromaLogicalFilter operator left none ≠ .ok filters := by
  unfold chromaLogicalFilter
  split_ifs <;> exact fun h => by cases h

theorem reads_logical {α : Type} {p : Record V → α → Bool}
    {reads : MatchMode → Text → Text → Bool} (operator : Text) {left right : Option (Filter α)}
    {l r : Option (QueryExpr V)} (hleft : Reads p (c.meaning single reads) left l)
    (hright : Reads p (c.meaning single reads) right r) :
    Reads p (c.meaning single reads)
      (ChromaFilter.combine (if lowerText operator = "and".toList then .and else .or) left right)
      (ChromaFilter.combine (fun l r => .logical operator l (some r)) l r) := by
  refine hleft.combine hright fun hl hr x => ?_
  rw [meaning]
  split
  · rw [Filter.holds, hl, hr]
  · rw [Filter.holds, hl, hr]

theorem all_combine {α : Type} {p : α → Bool} {op : Filter α → Filter α → Filter α}
    (hop : ∀ left right, (op left right).all p = (left.all p && right.all p))
    (left right : Option (Filter α)) :
    (combine op left right).all (Filter.all p) =
      (left.all (Filter.all p) && right.all (Filter.all p)) := by
  cases left with
  | none => rfl
  | some left => cases right with
    | none => exact (Bool.and_true _).symm
    | some right => exact hop left right

theorem takes_combine {left right : Filters V}
    {op : Filter (Condition V) → Filter (Condition V) → Filter (Condition V)}
    {opDocument : Filter DocumentCondition → Filter DocumentCondition → Filter DocumentCondition}
    (hop : ∀ left right, (op left right).all c.valid = (left.all c.valid && right.all c.valid))
    (hopDocument : ∀ left right, (opDocument left right).all c.validDocument =
      (left.all c.validDocument && right.all c.validDocument)) :
    c.takes ⟨combine op left.whereFilter right.whereFilter,
      combine opDocument left.whereDocument right.whereDocument⟩ =
        (c.takes left && c.takes right) := by
  simp only [takes, all_combine hop, all_combine hopDocument]
  ac_rfl

theorem toExpr_reads : ∀ (e : QueryExpr V) (filters : Filters V), e.toExpr single = .ok filters →
    Reads c.condition (c.meaning single literally) filters.whereFilter (metadataPart e) ∧
      Reads c.documentCondition (c.meaning single c.asRegex) filters.whereDocument
        (documentPart e) ∧
        c.takesParts single e = c.takes filters
  | .comparison field operator value, filters, h => by
    obtain ⟨condition, rfl, hcondition⟩ := chromaComparisonFilter_ok h
    exact ⟨.some hcondition, .none, by simp only [takesParts, h]⟩
  | .range field operator value, filters, h => by
    have htakes : c.takesParts single (.range field operator value) = c.takes filters := by
      simp only [takesParts, h]
    rw [QueryExpr.toExpr, chromaRangeFilter] at h
    split at h
    · cases h
      exact ⟨.some fun r => rfl, .none, htakes⟩
    · cases h
  | .arithmetic, filters, h => by cases h
  | .null, filters, h => by cases h
  | .json, filters, h => by cases h
  | .array, filters, h => by cases h
  | .textMatch field value mode, filters, h => by
    cases h
    refine ⟨.none, .some fun r => ?_, rfl⟩
    cases mode <;> rfl
  | .logical operator left none, filters, h => by
    rw [QueryExpr.toExpr] at h
    split at h
    · cases h
    · exact absurd h chromaLogicalFilter_none
  | .logical operator left (some right), filters, h => by
    rw [QueryExpr.toExpr] at h
    split at h
    · cases h
    · next leftFilters hleft =>
      split at h
      · cases h
      · next rightFilters hright =>
        obtain ⟨hwhere, hdocument, htakes⟩ := toExpr_reads left leftFilters hleft
        obtain ⟨hwhere', hdocument', htakes'⟩ := toExpr_reads right rightFilters hright
        have htaken : c.takesParts single (.logical operator left (some right)) =
            (c.takes leftFilters && c.takes rightFilters) := by
          rw [takesParts, htakes, htakes']
        have hmetadata := reads_logical operator hwhere hwhere'
        have hdoc := reads_logical operator hdocument hdocument'
        rcases chromaLogicalFilter_ok h with ⟨hand, rfl⟩ | ⟨hor, rfl⟩
        · rw [if_pos hand] at hmetadata hdoc
          exact ⟨hmetadata, hdoc, htaken.trans (takes_combine (fun _ _ => rfl) fun _ _ => rfl).symm⟩
        · rw [if_neg hor] at hmetadata hdoc
          exact ⟨hmetadata, hdoc, htaken.trans (takes_combine (fun _ _ => rfl) fun _ _ => rfl).symm⟩

/-- Chroma finds the records that an expression means exactly when it takes each part of the
expression and this falls apart into conditions on the metadata and on the document, or when the
expression means no record. -/
theorem translation_faithful_iff (c : Chroma V) (single : Char → V) (e : QueryExpr V)
    (filters : Filters V) (h : e.toExpr single = .ok filters) :
    (∀ r, c.accepts filters r = c.meaning single literally e r) ↔
      if c.takesParts single e then c.FallsApart single e
      else ∀ r, c.meaning single literally e r = false := by
  obtain ⟨hmetadata, hdocument, htakes⟩ := toExpr_reads e filters h
  rw [htakes]
  by_cases htaken : c.takes filters = true
  · rw [if_pos htaken]
    refine forall_congr' fun r => ?_
    rw [accepts, htaken, Bool.true_and, hmetadata.all r, hdocument.all r]
    exact eq_comm
  · rw [if_neg htaken]
    refine forall_congr' fun r => ?_
    rw [accepts, Bool.eq_false_iff.mpr htaken, Bool.false_and]
    exact eq_comm

/-- Each alternative of the expression is on the metadata only or on the document only, and each
prefix and suffix is found as a regular expression where it is one. -/
def Apart (c : Chroma V) : QueryExpr V → Prop
  | .textMatch _ value mode =>
    ∀ document, literally mode value document = c.asRegex mode value document
  | .logical operator left (some right) => Apart c left ∧ Apart c right ∧
      (lowerText operator = "and".toList ∨ (metadataPart left = none ∧ metadataPart right = none) ∨
        (documentPart left = none ∧ documentPart right = none))
  | _ => True

theorem all_combine_and {reads : MatchMode → Text → Text → Bool} {operator : Text}
    (hand : lowerText operator = "and".toList) (l r : Option (QueryExpr V)) (x : Record V) :
    (combine (fun l r => QueryExpr.logical operator l (some r)) l r).all
        (c.meaning single reads · x) =
      (l.all (c.meaning single reads · x) && r.all (c.meaning single reads · x)) := by
  cases l with
  | none => rfl
  | some l => cases r with
    | none => exact (Bool.and_true _).symm
    | some r =>
      change c.meaning single reads (.logical operator l (some r)) x = _
      rw [meaning, if_pos hand]
      rfl

theorem combine_eq_none {α : Type} {op : α → α → α} {left right : Option α}
    (h : combine op left right = none) : left = none ∧ right = none := by
  cases left with
  | none => exact ⟨rfl, h⟩
  | some left => cases right <;> cases h

theorem metadataPart_of_documentPart : ∀ e : QueryExpr V, documentPart e = none →
    metadataPart e = some e
  | .comparison .., _ => rfl
  | .range .., _ => rfl
  | .arithmetic, _ => rfl
  | .null, _ => rfl
  | .json, _ => rfl
  | .array, _ => rfl
  | .logical _ _ none, _ => rfl
  | .logical operator left (some right), h => by
    rw [documentPart] at h
    obtain ⟨hleft, hright⟩ := combine_eq_none h
    rw [metadataPart, metadataPart_of_documentPart left hleft,
      metadataPart_of_documentPart right hright]
    rfl

theorem documentPart_of_metadataPart : ∀ e : QueryExpr V, metadataPart e = none →
    documentPart e = some e
  | .textMatch .., _ => rfl
  | .logical operator left (some right), h => by
    rw [metadataPart] at h
    obtain ⟨hleft, hright⟩ := combine_eq_none h
    rw [documentPart, documentPart_of_metadataPart left hleft,
      documentPart_of_metadataPart right hright]
    rfl

theorem fallsApart_of_apart : ∀ e : QueryExpr V, Apart c e → c.FallsApart single e
  | .comparison .., _, r => (Bool.and_true _).symm
  | .range .., _, r => (Bool.and_true _).symm
  | .arithmetic, _, r => rfl
  | .null, _, r => rfl
  | .json, _, r => rfl
  | .array, _, r => rfl
  | .logical _ _ none, _, r => rfl
  | .textMatch _ value mode, h, r => h r.document
  | .logical operator left (some right), h, r => by
    obtain ⟨hleft, hright, hsides⟩ := h
    have ihleft := fallsApart_of_apart left hleft r
    have ihright := fallsApart_of_apart right hright r
    by_cases hand : lowerText operator = "and".toList
    · rw [meaning, if_pos hand, ihleft, ihright, metadataPart, documentPart,
        all_combine_and hand, all_combine_and hand]
      ac_rfl
    · rcases hsides with hop | ⟨hl, hr⟩ | ⟨hl, hr⟩
      · exact absurd hop hand
      · have hdocument : documentPart (.logical operator left (some right)) =
            some (.logical operator left (some right)) :=
          documentPart_of_metadataPart _ (by rw [metadataPart, hl, hr]; rfl)
        rw [hl, documentPart_of_metadataPart left hl] at ihleft
        rw [hr, documentPart_of_metadataPart right hr] at ihright
        rw [hdocument, metadataPart, hl, hr, meaning, if_neg hand, ihleft, ihright]
        change _ = c.meaning single c.asRegex (.logical operator left (some right)) r
        rw [meaning, if_neg hand]
        rfl
      · have hdocument : documentPart (.logical operator left (some right)) = none := by
          rw [documentPart, hl, hr]
          rfl
        rw [hdocument, metadataPart_of_documentPart _ hdocument]
        exact (Bool.and_true _).symm

def plainChroma : Chroma Text where
  same a b := a = b
  compare _ _ _ := false
  missingDiffers := true
  search _ _ := false
  valid _ := true
  validDocument _ := true

/-- `lang == "en" & (body contains "x")`. -/
def bothSides : QueryExpr Text :=
  .logical "and".toList (.comparison "lang".toList "==".toList "en".toList)
    (some (.textMatch "body".toList "x".toList .inner))

/-- The filters of `bothSides`. -/
def bothFilters : Filters Text :=
  ⟨some (.leaf (.eq "lang".toList "en".toList)), some (.leaf (.contains "x".toList))⟩

/-- The conjunction finds a record that has both. -/
theorem conjunction_faithful :
    plainChroma.accepts bothFilters ⟨fun _ => some "en".toList, "xy".toList⟩ =
      plainChroma.meaning (fun ch => [ch]) literally bothSides
        ⟨fun _ => some "en".toList, "xy".toList⟩ :=
  (translation_faithful_iff plainChroma (fun ch => [ch]) bothSides bothFilters rfl).mpr
    (fallsApart_of_apart bothSides ⟨trivial, fun _ => rfl, .inl rfl⟩) _

/-- `lang == "en" | (body contains "x")`. -/
def eitherSide : QueryExpr Text :=
  .logical "or".toList (.comparison "lang".toList "==".toList "en".toList)
    (some (.textMatch "body".toList "x".toList .inner))

/-- A record in English without the text is meant by the disjunction, and not found. -/
theorem disjunction_split :
    eitherSide.toExpr (fun ch => [ch]) = .ok bothFilters ∧
      plainChroma.meaning (fun ch => [ch]) literally eitherSide
        ⟨fun _ => some "en".toList, []⟩ = true ∧
        plainChroma.accepts bothFilters ⟨fun _ => some "en".toList, []⟩ = false :=
  ⟨rfl, rfl, rfl⟩

end Chroma

end JiuwenSpec.Store.ChromaFilter

import JiuwenSpec.Base.Json

/-!
# Filters of a vector store

A query expression is written as the filter text of Milvus: values of type string as literals in
double quotes, all else as its own text.
Source: `core/foundation/store/query/base.py`, `milvus_query_func.py`.
-/

namespace JiuwenSpec.Store

open Base

/-- The character can be part of a name, a number or an operator. -/
def IsWordChar (c : Char) : Prop := c ∉ [' ', '"', '\\', '(', ')', '[', ']', ',']

instance (c : Char) : Decidable (IsWordChar c) := inferInstanceAs (Decidable (_ ∉ _))

/-- The name of a field, a comparison operator, or the text of a number. -/
structure Word where
  text : Text
  ne_nil : text ≠ []
  chars : ∀ c ∈ text, IsWordChar c

/-- A value of a filter: a string, or something else with its text. -/
inductive Value where
  | str (text : Text)
  | plain (word : Word)

/-- The value of a `RangeExpr`: a sequence or a set of values, or a string. -/
inductive RangeValue where
  | items (values : List Value)
  | text (text : Text)

inductive MatchMode where
  | leading
  | trailing
  /-- The mode `infix`. -/
  | inner
  | exact

/-- `QueryExpr`, but for those expressions that hold no string. -/
inductive QueryExpr where
  | comparison (field operator : Word) (value : Value)
  | range (field : Word) (operator : Text) (value : RangeValue)
  | json (field : Word) (key : Text) (operator : Word) (value : Value)
  | array (field : Word) (index : Option Word) (operator : Word) (value : Value)
  | textMatch (field : Word) (value : Text) (mode : MatchMode)
  /-- A logical expression without a right operand. -/
  | unary (operator : Text) (left : QueryExpr)
  | logical (operator : Text) (left right : QueryExpr)

/-- `value.replace('"', '\\"')`. -/
def escapeQuotes (value : Text) : Text := value.flatMap fun c ↦ if c = '"' then ['\\', '"'] else [c]

/-- `QueryExpr.sanitize_str`. -/
def sanitizeStr (value : Text) : Text := '"' :: escapeQuotes value ++ ['"']

/-- `str(value)`. -/
def Value.text : Value → Text
  | .str text => text
  | .plain word => word.text

def valueText : Value → Text
  | .str text => sanitizeStr text
  | .plain word => word.text

/-- `operator.lower()`. -/
def lowerText (text : Text) : Text := text.map fun c => if c = '\u212a' then 'k' else c.toLower

/-- `",".join(texts)`. -/
def joinComma : List Text → Text
  | [] => []
  | [text] => text
  | text :: texts => text ++ ',' :: joinComma texts

def milvusComparisonFilter (field operator : Word) (value : Value) : Text :=
  field.text ++ ' ' :: (operator.text ++ ' ' :: valueText value)

/-- `isinstance(v, str)`. -/
def Value.isStr : Value → Bool
  | .str _ => true
  | .plain _ => false

/-- The values of `milvus_range_filter` for the operator `in`. -/
def valuesStr : RangeValue → Text
  | .items values =>
    if values.all Value.isStr then joinComma (values.map valueText)
    else joinComma (values.map Value.text)
  | .text text => joinComma (text.map fun c => sanitizeStr [c])

def milvusRangeFilter (field : Word) (operator : Text) (value : RangeValue) : Except Text Text :=
  if lowerText operator = ['i', 'n'] then
    .ok (field.text ++ " in [".toList ++ (valuesStr value ++ [']']))
  else if lowerText operator = ['l', 'i', 'k', 'e'] then
    match value with
    | .text text =>
      if '%' ∉ text then .error "Milvus's like operator uses % for wildcard matching".toList
      else .ok (field.text ++ " like ".toList ++ sanitizeStr text)
    | .items _ => .error "like operator requires a string value".toList
  else .error ("Unsupported range operator: ".toList ++ operator)

def milvusJsonFilter (field : Word) (key : Text) (operator : Word) (value : Value) : Text :=
  field.text ++ '[' :: (sanitizeStr key ++ ']' :: ' ' :: (operator.text ++ ' ' :: valueText value))

def milvusArrayFilter (field : Word) (index : Option Word) (operator : Word) (value : Value) :
    Text :=
  match index with
  | some index =>
    field.text ++ '[' :: (index.text ++ ']' :: ' ' :: (operator.text ++ ' ' :: valueText value))
  | none => field.text ++ ' ' :: (operator.text ++ ' ' :: valueText value)

def MatchMode.pattern : MatchMode → Text → Text
  | .exact, value => value
  | .leading, value => value ++ ['%']
  | .trailing, value => '%' :: value
  | .inner, value => '%' :: value ++ ['%']

def milvusTextMatchFilter (field : Word) (value : Text) (mode : MatchMode) : Text :=
  match mode with
  | .exact => "TEXT_MATCH(".toList ++ (field.text ++ ',' :: ' ' :: (sanitizeStr value ++ [')']))
  | _ => field.text ++ " like ".toList ++ sanitizeStr (mode.pattern value)

/-- `to_expr("milvus")`, with `milvus_logical_filter`. -/
def QueryExpr.toExpr : QueryExpr → Except Text Text
  | .comparison field operator value => .ok (milvusComparisonFilter field operator value)
  | .range field operator value => milvusRangeFilter field operator value
  | .json field key operator value => .ok (milvusJsonFilter field key operator value)
  | .array field index operator value => .ok (milvusArrayFilter field index operator value)
  | .textMatch field value mode => .ok (milvusTextMatchFilter field value mode)
  | .unary operator left =>
    if lowerText operator = ['n', 'o', 't'] then
      left.toExpr.map fun text => "not (".toList ++ (text ++ [')'])
    else if lowerText operator = ['a', 'n', 'd'] ∨ lowerText operator = ['o', 'r'] then
      .error (operator ++ " operator requires both left and right operands".toList)
    else .error ("Unsupported logical operator: ".toList ++ operator)
  | .logical operator left right =>
    if lowerText operator = ['n', 'o', 't'] then
      .error "not operator should not have a right operand".toList
    else if lowerText operator = ['a', 'n', 'd'] ∨ lowerText operator = ['o', 'r'] then
      left.toExpr.bind fun l => right.toExpr.map fun r =>
        '(' :: (l ++ ')' :: ' ' :: (operator ++ ' ' :: '(' :: (r ++ [')'])))
    else .error ("Unsupported logical operator: ".toList ++ operator)

theorem isWordChar_of_all {text : Text} (h : (text.all fun c => decide (IsWordChar c)) = true) :
    ∀ c ∈ text, IsWordChar c :=
  fun c hc => of_decide_eq_true (List.all_eq_true.mp h c hc)

/-- The operator `==`. -/
def Word.equals : Word := ⟨['=', '='], List.cons_ne_nil _ _, isWordChar_of_all rfl⟩

/-- `in_list` for a sequence or a set of values. -/
def inList (field : Word) (values : List Value) : QueryExpr :=
  match values with
  | [value] => .comparison field Word.equals value
  | _ => .range field ['i', 'n'] (.items values)

/-- `filter_user` for a list of users. -/
def filterUser (users : List Text) (userIdField : Word) : QueryExpr :=
  inList userIdField (users.map .str)

def chainFilters : List QueryExpr → Option QueryExpr
  | [] => none
  | first :: rest => some (rest.foldl (fun chained e => .logical ['a', 'n', 'd'] chained e) first)

/-!
## Reading a filter

What a filter text means to a reader of the filter language: string literals in double quotes with
backslash escapes, words, brackets and parentheses, put together to a tree of conditions.
-/

/-- The escapes of string literals: a quote and a backslash can be escaped, no other escape stands
for a backslash, and separators take no part in escapes. -/
structure Escapes where
  unescape : Char → Option Char
  quote : unescape '"' = some '"'
  backslash : unescape '\\' = some '\\'
  only : ∀ c, unescape c = some '\\' → c = '\\'
  plain : ∀ s ∈ [',', ']'], unescape s = none ∧ ∀ c, unescape c ≠ some s

/-- The string of a literal behind its opening quote, with what follows its closing quote. -/
def readLiteral (E : Escapes) : Text → Option (Text × Text)
  | [] => none
  | '"' :: rest => some ([], rest)
  | '\\' :: [] => none
  | '\\' :: c :: rest =>
    (E.unescape c).bind fun d => (readLiteral E rest).map fun r => (d :: r.1, r.2)
  | c :: rest => (readLiteral E rest).map fun r => (c :: r.1, r.2)

def skipSpaces (text : Text) : Text := text.dropWhile (· = ' ')

def expect (c : Char) (text : Text) : Option Text :=
  match skipSpaces text with
  | d :: rest => if d = c then some rest else none
  | [] => none

def readWord (text : Text) : Option (Text × Text) :=
  match (skipSpaces text).takeWhile fun c => IsWordChar c with
  | [] => none
  | word => some (word, (skipSpaces text).dropWhile fun c => IsWordChar c)

inductive Operand where
  | literal (text : Text)
  | word (text : Text)

def readOperand (E : Escapes) (text : Text) : Option (Operand × Text) :=
  match skipSpaces text with
  | '"' :: rest => (readLiteral E rest).map fun r => (.literal r.1, r.2)
  | rest => (readWord rest).map fun r => (.word r.1, r.2)

inductive FilterTree where
  | compare (field operator : Text) (value : Operand)
  | member (field operator : Text) (values : List Operand)
  | entry (field : Text) (key : Operand) (operator : Text) (value : Operand)
  | textMatch (field : Text) (value : Operand)
  | negation (operand : FilterTree)
  | binary (operator : Text) (left right : FilterTree)

def readItems (E : Escapes) : Nat → Text → Option (List Operand × Text)
  | 0, _ => none
  | n + 1, text => (readOperand E text).bind fun item =>
    match skipSpaces item.2 with
    | ',' :: rest => (readItems E n rest).map fun r => (item.1 :: r.1, r.2)
    | ']' :: rest => some ([item.1], rest)
    | _ => none

def readList (E : Escapes) (text : Text) : Option (List Operand × Text) :=
  match skipSpaces text with
  | ']' :: rest => some ([], rest)
  | rest => readItems E rest.length rest

/-- `TEXT_MATCH`. -/
def textMatchWord : Text := ['T', 'E', 'X', 'T', '_', 'M', 'A', 'T', 'C', 'H']

def readCondition (E : Escapes) (word text : Text) : Option (FilterTree × Text) :=
  match skipSpaces text with
  | '(' :: rest =>
    if word = textMatchWord then
      (readWord rest).bind fun field => (expect ',' field.2).bind fun rest =>
        (readOperand E rest).bind fun value => (expect ')' value.2).map fun rest =>
          (.textMatch field.1 value.1, rest)
    else none
  | '[' :: rest =>
    (readOperand E rest).bind fun key => (expect ']' key.2).bind fun rest =>
      (readWord rest).bind fun operator => (readOperand E operator.2).map fun value =>
        (.entry word key.1 operator.1 value.1, value.2)
  | rest =>
    (readWord rest).bind fun operator =>
      match skipSpaces operator.2 with
      | '[' :: rest => (readList E rest).map fun items =>
        (.member word operator.1 items.1, items.2)
      | rest => (readOperand E rest).map fun value => (.compare word operator.1 value.1, value.2)

/-- A filter up to where it ends, nested no deeper than the fuel. -/
def readFilter (E : Escapes) : Nat → Text → Option (FilterTree × Text)
  | 0, _ => none
  | n + 1, text =>
    match skipSpaces text with
    | '(' :: rest =>
      (readFilter E n rest).bind fun left => (expect ')' left.2).bind fun rest =>
        (readWord rest).bind fun operator => (expect '(' operator.2).bind fun rest =>
          (readFilter E n rest).bind fun right => (expect ')' right.2).map fun rest =>
            (.binary operator.1 left.1 right.1, rest)
    | rest => (readWord rest).bind fun word =>
      if word.1 = ['n', 'o', 't'] ∧ (skipSpaces word.2).head? = some '(' then
        (expect '(' word.2).bind fun rest => (readFilter E n rest).bind fun operand =>
          (expect ')' operand.2).map fun rest => (.negation operand.1, rest)
      else readCondition E word.1 word.2

def parseFilter (E : Escapes) (text : Text) : Option FilterTree :=
  match readFilter E (text.length + 1) text with
  | some (tree, []) => some tree
  | _ => none

theorem parseFilter_eq_none {E : Escapes} {text : Text} {n : Nat} (hn : text.length + 1 = n)
    (h : readFilter E n text = none) : parseFilter E text = none := by
  subst hn
  rw [parseFilter, h]

def Value.operand : Value → Operand
  | .str string => .literal string
  | .plain word => .word word.text

def RangeValue.operands : RangeValue → List Operand
  | .items values => values.map Value.operand
  | .text string => [.literal string]

/-- The tree of the shape of an expression, with its values as literals. -/
def QueryExpr.tree : QueryExpr → FilterTree
  | .comparison field operator value => .compare field.text operator.text value.operand
  | .range field operator value =>
    if lowerText operator = ['i', 'n'] then .member field.text ['i', 'n'] value.operands
    else match value with
      | .text string => .compare field.text ['l', 'i', 'k', 'e'] (.literal string)
      | .items values => .member field.text ['l', 'i', 'k', 'e'] (values.map Value.operand)
  | .json field key operator value =>
    .entry field.text (.literal key) operator.text value.operand
  | .array field (some index) operator value =>
    .entry field.text (.word index.text) operator.text value.operand
  | .array field none operator value => .compare field.text operator.text value.operand
  | .textMatch field value .exact => .textMatch field.text (.literal value)
  | .textMatch field value mode =>
    .compare field.text ['l', 'i', 'k', 'e'] (.literal (mode.pattern value))
  | .unary _ left => .negation left.tree
  | .logical operator left right => .binary operator left.tree right.tree

end JiuwenSpec.Store

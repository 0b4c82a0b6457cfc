import JiuwenSpec.Base.Dict
import Mathlib.Data.Nat.Init

/-!
# JSON text

Values, the text Python's `json.dumps` prints for them with `ensure_ascii=False`, and the
reader `json.loads`. A number is kept as its text.
-/

namespace JiuwenSpec.Base

open Option List

abbrev Text := List Char

instance instLawfulBEqText : LawfulBEq Text := inferInstance

def IsDigit (c : Char) : Prop := '0' ≤ c ∧ c ≤ '9'

instance (c : Char) : Decidable (IsDigit c) := inferInstanceAs (Decidable ('0' ≤ c ∧ c ≤ '9'))

theorem IsDigit.toNat {c : Char} (h : IsDigit c) : 48 ≤ c.toNat ∧ c.toNat ≤ 57 :=
  ⟨UInt32.le_iff_toNat_le.mp (Char.le_def.mp h.1), UInt32.le_iff_toNat_le.mp (Char.le_def.mp h.2)⟩

inductive NumeralState where
  | start
  | minus
  | zero
  | whole
  | point
  | fraction
  | exponent
  | exponentSign
  | exponentDigits
  deriving DecidableEq

namespace NumeralState

/-- The pattern `-?(0|[1-9][0-9]*)(\.[0-9]+)?([eE][-+]?[0-9]+)?`. -/
def next (q : NumeralState) (c : Char) : Option NumeralState :=
  match q with
  | start => if c = '-' then some minus else if c = '0' then some zero
      else if IsDigit c then some whole else none
  | minus => if c = '0' then some zero else if IsDigit c then some whole else none
  | zero => if c = '.' then some point else if c = 'e' ∨ c = 'E' then some exponent else none
  | whole => if IsDigit c then some whole else if c = '.' then some point
      else if c = 'e' ∨ c = 'E' then some exponent else none
  | point => if IsDigit c then some fraction else none
  | fraction => if IsDigit c then some fraction
      else if c = 'e' ∨ c = 'E' then some exponent else none
  | exponent => if c = '-' ∨ c = '+' then some exponentSign
      else if IsDigit c then some exponentDigits else none
  | exponentSign => if IsDigit c then some exponentDigits else none
  | exponentDigits => if IsDigit c then some exponentDigits else none

def accepts : NumeralState → Bool
  | zero => true
  | whole => true
  | fraction => true
  | exponentDigits => true
  | _ => false

def munch (q : NumeralState) : Text → Option (Text × Text)
  | [] => if q.accepts then some ([], []) else none
  | c :: text =>
    match (q.next c).bind fun q' => q'.munch text with
    | some (numeral, rest) => some (c :: numeral, rest)
    | none => if q.accepts then some ([], c :: text) else none

variable {q : NumeralState}

attribute [local grind =] next munch

theorem munch_append {text numeral rest : Text}
    (h : q.munch text = some (numeral, rest)) : text = numeral ++ rest := by
  induction text generalizing q numeral with
  | nil =>
    simp only [munch, ite_none_right_eq_some, some.injEq, Prod.mk.injEq] at h
    simp [← h.2.1, ← h.2.2]
  | cons c text ih =>
    rw [munch] at h
    split at h
    · next numeral' rest' hq =>
      obtain ⟨q', -, hq'⟩ := bind_eq_some_iff.mp hq
      simp only [some.injEq, Prod.mk.injEq] at h
      obtain ⟨rfl, rfl⟩ := h
      rw [cons_append, ← ih hq']
    · next hq =>
      simp only [ite_none_right_eq_some, some.injEq, Prod.mk.injEq] at h
      simp [← h.2.1, ← h.2.2]

theorem munch_self {text numeral rest : Text}
    (h : q.munch text = some (numeral, rest)) : q.munch numeral = some (numeral, []) := by
  induction text generalizing q numeral with
  | nil =>
    simp only [munch, ite_none_right_eq_some, some.injEq, Prod.mk.injEq] at h
    rw [← h.2.1, munch, if_pos h.1]
  | cons c text ih =>
    rw [munch] at h
    split at h
    · next numeral' rest' hq =>
      obtain ⟨q', hc, hq'⟩ := bind_eq_some_iff.mp hq
      simp only [some.injEq, Prod.mk.injEq] at h
      obtain ⟨rfl, rfl⟩ := h
      rw [munch, hc, bind_some, ih hq']
    · simp only [ite_none_right_eq_some, some.injEq, Prod.mk.injEq] at h
      rw [← h.2.1, munch, if_pos h.1]

theorem next_of_munch {c : Char} {text : Text} (h : q.munch (c :: text) = some (c :: text, [])) :
    ∃ q', q.next c = some q' ∧ q'.munch text = some (text, []) := by
  rw [munch] at h
  split at h
  · next numeral rest hq =>
    obtain ⟨q', hc, hq'⟩ := bind_eq_some_iff.mp hq
    simp only [some.injEq, Prod.mk.injEq, List.cons.injEq, true_and] at h
    rw [h.1, h.2] at hq'
    exact ⟨q', hc, hq'⟩
  · simp at h

theorem numeral_char {c : Char} (h : (q.next c).isSome) :
    IsDigit c ∨ c = '-' ∨ c = '+' ∨ c = '.' ∨ c = 'e' ∨ c = 'E' := by
  by_contra hc
  simp only [not_or] at hc
  obtain ⟨hdigit, hminus, hplus, hpoint, he, hE⟩ := hc
  have hzero : c ≠ '0' := fun h => hdigit (h ▸ by decide)
  cases q
  all_goals simp [next, hdigit, hminus, hplus, hpoint, he, hE, hzero] at h

theorem numeral_ascii {text : Text} (h : q.munch text = some (text, [])) :
    ∀ c ∈ text, 0x20 ≤ c.toNat ∧ c.toNat < 0x80 := by
  induction text generalizing q with
  | nil => simp
  | cons c text ih =>
    obtain ⟨q', hc, hq'⟩ := next_of_munch h
    rw [forall_mem_cons]
    refine ⟨?_, ih hq'⟩
    rcases numeral_char (isSome_of_eq_some hc) with h | rfl | rfl | rfl | rfl | rfl
    · have := h.toNat
      omega
    all_goals decide

/-- No numeral goes on with `c`. -/
def Stops (c : Char) : Prop := ∀ q, next q c = none

theorem munch_stops {numeral rest : Text}
    (h : q.munch numeral = some (numeral, [])) (hrest : ∀ c ∈ rest.head?, Stops c) :
    q.munch (numeral ++ rest) = some (numeral, rest) := by
  induction numeral generalizing q with
  | nil =>
    simp only [munch, ite_none_right_eq_some] at h
    cases rest with
    | nil => rw [nil_append, munch, if_pos h.1]
    | cons c rest =>
      have hc : q.next c = none := hrest c (by simp) q
      rw [nil_append, munch, hc, bind_none, if_pos h.1]
  | cons c numeral ih =>
    rw [munch] at h
    split at h
    · next numeral' rest' hq =>
      obtain ⟨q', hc, hq'⟩ := bind_eq_some_iff.mp hq
      simp only [some.injEq, Prod.mk.injEq, List.cons.injEq, true_and] at h
      rw [h.1, h.2] at hq'
      rw [cons_append, munch, hc, bind_some, ih hq']
    · simp at h

end NumeralState

structure Numeral where
  text : Text
  isNumeral : NumeralState.start.munch text = some (text, [])

/-- `match_number`: the numeral at the front of a text. -/
def scanNumeral (text : Text) : Option (Numeral × Text) :=
  match h : NumeralState.start.munch text with
  | some (numeral, rest) => some (⟨numeral, NumeralState.munch_self h⟩, rest)
  | none => none

theorem isDigit_iff (c : Char) : c.isDigit = true ↔ IsDigit c := by
  simp [Char.isDigit, IsDigit, Char.le_def]

private theorem munch_digits {ds : Text} (h : ∀ c ∈ ds, IsDigit c) :
    NumeralState.whole.munch ds = some (ds, []) := by
  induction ds with
  | nil => rfl
  | cons c ds ih =>
    have hc : NumeralState.whole.next c = some .whole := if_pos (h c (.head _))
    rw [NumeralState.munch, hc, bind_some, ih fun d hd => h d (mem_cons_of_mem _ hd)]

private theorem toDigits_head {n : Nat} (hn : 0 < n) :
    ∃ c ds, Nat.toDigits 10 n = c :: ds ∧ c ≠ '0' := by
  induction n using Nat.strong_induction_on with
  | _ n ih =>
    rw [Nat.toDigits_eq_if (by decide)]
    split
    · next hlt =>
      have hdigit : ∀ d : Fin 10, 0 < d.val → d.val.digitChar ≠ '0' := by decide
      exact ⟨_, [], rfl, hdigit ⟨n, hlt⟩ hn⟩
    · obtain ⟨c, ds, htext, hc⟩ := ih (n / 10) (by omega) (by omega)
      exact ⟨c, ds ++ [(n % 10).digitChar], by rw [htext]; rfl, hc⟩

/-- `str` of a natural number. -/
def Numeral.ofNat (n : Nat) : Numeral where
  text := Nat.toDigits 10 n
  isNumeral := by
    have hdigits : ∀ c ∈ Nat.toDigits 10 n, IsDigit c := fun c hc =>
      (isDigit_iff c).mp (Nat.isDigit_of_mem_toDigits (by decide) (by decide) hc)
    by_cases hn : n = 0
    · subst hn
      rfl
    · obtain ⟨c, ds, htext, hc⟩ := toDigits_head (Nat.pos_of_ne_zero hn)
      rw [htext] at hdigits ⊢
      have hdigit := hdigits c (.head _)
      have hminus : c ≠ '-' := fun h => absurd (h ▸ hdigit) (by decide)
      have hstart : NumeralState.start.next c = some .whole := by
        simp only [NumeralState.next, if_neg hminus, if_neg hc, if_pos hdigit]
      rw [NumeralState.munch, hstart, bind_some,
        munch_digits fun d hd => hdigits d (.tail _ hd)]

theorem Numeral.ofNat_inj {m n : Nat} : Numeral.ofNat m = Numeral.ofNat n ↔ m = n := by
  constructor
  · intro h
    have htext : Nat.toDigits 10 m = Nat.toDigits 10 n := congrArg Numeral.text h
    rw [← Nat.ofDigitChars_ten_toDigits (n := m), htext, Nat.ofDigitChars_ten_toDigits]
  · exact congrArg _

/-- The integer a numeral is read as; one with a fraction or an exponent is a float. -/
def Numeral.int? (numeral : Numeral) : Option Int :=
  match numeral.text with
  | '-' :: ds => if ds.all Char.isDigit then some (-(Nat.ofDigitChars 10 ds 0 : Int)) else none
  | ds => if ds.all Char.isDigit then some (Nat.ofDigitChars 10 ds 0) else none

/-- The values with a name; the last three are Python's. -/
inductive Literal where
  | null
  | true
  | false
  | nan
  | infinity
  | negInfinity
  deriving DecidableEq

def Literal.text : Literal → Text
  | null => ['n', 'u', 'l', 'l']
  | true => ['t', 'r', 'u', 'e']
  | false => ['f', 'a', 'l', 's', 'e']
  | nan => ['N', 'a', 'N']
  | infinity => ['I', 'n', 'f', 'i', 'n', 'i', 't', 'y']
  | negInfinity => ['-', 'I', 'n', 'f', 'i', 'n', 'i', 't', 'y']

inductive Json where
  | literal (name : Literal)
  | number (numeral : Numeral)
  | string (text : Text)
  | array (items : List Json)
  | object (members : List (Text × Json))

def hexDigit (n : Nat) : Char :=
  ['0', '1', '2', '3', '4', '5', '6', '7', '8', '9', 'a', 'b', 'c', 'd', 'e', 'f'].getD n '0'

/-- `ESCAPE_DCT`, over the characters `ESCAPE` matches. -/
def escapeChar (c : Char) : Text :=
  if c = '"' ∨ c = '\\' then ['\\', c]
  else if c = '\n' then ['\\', 'n']
  else if c = '\r' then ['\\', 'r']
  else if c = '\t' then ['\\', 't']
  else if c.toNat = 0x8 then ['\\', 'b']
  else if c.toNat = 0xc then ['\\', 'f']
  else if c.toNat < 0x20 then
    ['\\', 'u', '0', '0', hexDigit (c.toNat / 16), hexDigit (c.toNat % 16)]
  else [c]

/-- `encode_basestring`. -/
def quote (s : Text) : Text := '"' :: s.flatMap escapeChar ++ ['"']

mutual

/-- `json.dumps(value, ensure_ascii=False)`. -/
def dumps : Json → Text
  | .literal name => name.text
  | .number numeral => numeral.text
  | .string s => quote s
  | .array [] => ['[', ']']
  | .array (v :: vs) => '[' :: (dumps v ++ dumpsItems vs)
  | .object [] => ['{', '}']
  | .object ((k, v) :: ms) => '{' :: (quote k ++ ':' :: ' ' :: (dumps v ++ dumpsMembers ms))

def dumpsItems : List Json → Text
  | [] => [']']
  | v :: vs => ',' :: ' ' :: (dumps v ++ dumpsItems vs)

def dumpsMembers : List (Text × Json) → Text
  | [] => ['}']
  | (k, v) :: ms => ',' :: ' ' :: (quote k ++ ':' :: ' ' :: (dumps v ++ dumpsMembers ms))

end

def IsBlank (c : Char) : Prop := c = ' ' ∨ c = '\t' ∨ c = '\n' ∨ c = '\r'

instance (c : Char) : Decidable (IsBlank c) :=
  inferInstanceAs (Decidable (c = ' ' ∨ c = '\t' ∨ c = '\n' ∨ c = '\r'))

def skipBlanks (text : Text) : Text := text.dropWhile fun c => decide (IsBlank c)

def hexValue (c : Char) : Option Nat :=
  if '0' ≤ c ∧ c ≤ '9' then some (c.toNat - '0'.toNat)
  else if 'a' ≤ c ∧ c ≤ 'f' then some (c.toNat - 'a'.toNat + 10)
  else if 'A' ≤ c ∧ c ≤ 'F' then some (c.toNat - 'A'.toNat + 10)
  else none

def hexCode (a b c d : Char) : Option Nat := do
  return ((← hexValue a) * 16 + (← hexValue b)) * 256 + ((← hexValue c) * 16 + (← hexValue d))

/-- The character of a code, unless it is half of a surrogate pair. -/
def charOfCode (n : Nat) : Option Char :=
  if n.isValidChar then some (Char.ofNat n) else none

def joinSurrogates (high low : Nat) : Option Char :=
  if 0xd800 ≤ high ∧ high < 0xdc00 ∧ 0xdc00 ≤ low ∧ low < 0xe000 then
    some (Char.ofNat (0x10000 + (high - 0xd800) * 0x400 + (low - 0xdc00)))
  else none

/-- The characters behind a backslash that stand for one character. -/
def shortEscape (c : Char) : Option Char :=
  if c = '"' ∨ c = '\\' ∨ c = '/' then some c
  else if c = 'b' then some (Char.ofNat 0x8)
  else if c = 'f' then some (Char.ofNat 0xc)
  else if c = 'n' then some '\n'
  else if c = 'r' then some '\r'
  else if c = 't' then some '\t'
  else none

/-- Put a character in front of a string that was read. -/
def push (c : Char) (found : Option (Text × Text)) : Option (Text × Text) :=
  found.map fun p => (c :: p.1, p.2)

/-- `scanstring`, behind the opening quote. A lone surrogate, which `Char` does not have, is
not read. -/
def scanString : Text → Option (Text × Text)
  | [] => none
  | '"' :: rest => some ([], rest)
  | '\\' :: 'u' :: a :: b :: c :: d :: rest =>
    match hexCode a b c d with
    | none => none
    | some code =>
      match charOfCode code, rest with
      | some x, rest => push x (scanString rest)
      | none, '\\' :: 'u' :: a' :: b' :: c' :: d' :: rest =>
        match (hexCode a' b' c' d').bind (joinSurrogates code) with
        | some x => push x (scanString rest)
        | none => none
      | none, _ => none
  | '\\' :: c :: rest =>
    match shortEscape c with
    | some x => push x (scanString rest)
    | none => none
  | c :: rest => if c.toNat < 0x20 then none else push c (scanString rest)

def scanLiteral (text : Text) : Option (Literal × Text) :=
  [Literal.null, .true, .false, .nan, .infinity, .negInfinity].findSome? fun name =>
    if name.text.isPrefixOf text then some (name, text.drop name.text.length) else none

/-- `dict(pairs)`: the last value of a key wins. -/
def Dict.ofPairs {κ ν : Type} [DecidableEq κ] (pairs : List (κ × ν)) : Dict κ ν :=
  pairs.foldl (fun d p => d.set p.1 p.2) Dict.empty

mutual

/-- `scan_once`; the number bounds the nesting and the members together. -/
def scanValue : Nat → Text → Option (Json × Text)
  | 0, _ => none
  | n + 1, text =>
    match text with
    | '"' :: rest => (scanString rest).map fun p => (.string p.1, p.2)
    | '{' :: rest =>
      match skipBlanks rest with
      | '}' :: rest => some (.object [], rest)
      | text => (scanMembers n text).map fun p => (.object (Dict.ofPairs p.1).entries, p.2)
    | '[' :: rest =>
      match skipBlanks rest with
      | ']' :: rest => some (.array [], rest)
      | text => (scanItems n text).map fun p => (.array p.1, p.2)
    | text =>
      match scanLiteral text with
      | some (name, rest) => some (.literal name, rest)
      | none => (scanNumeral text).map fun p => (.number p.1, p.2)

/-- `JSONArray`, from the first item. -/
def scanItems : Nat → Text → Option (List Json × Text)
  | 0, _ => none
  | n + 1, text =>
    match scanValue n text with
    | none => none
    | some (v, rest) =>
      match skipBlanks rest with
      | ',' :: rest => (scanItems n (skipBlanks rest)).map fun p => (v :: p.1, p.2)
      | ']' :: rest => some ([v], rest)
      | _ => none

/-- `JSONObject`, from the first member. -/
def scanMembers : Nat → Text → Option (List (Text × Json) × Text)
  | 0, _ => none
  | n + 1, '"' :: text =>
    match scanString text with
    | none => none
    | some (k, rest) =>
      match skipBlanks rest with
      | ':' :: rest =>
        match scanValue n (skipBlanks rest) with
        | none => none
        | some (v, rest) =>
          match skipBlanks rest with
          | ',' :: rest => (scanMembers n (skipBlanks rest)).map fun p => ((k, v) :: p.1, p.2)
          | '}' :: rest => some ([(k, v)], rest)
          | _ => none
      | _ => none
  | _ + 1, _ => none

end

/-- `json.loads`; `none` where it raises `JSONDecodeError`. -/
def loads (text : Text) : Option Json :=
  match scanValue (2 * text.length + 1) (skipBlanks text) with
  | some (v, rest) => if skipBlanks rest = [] then some v else none
  | none => none

end JiuwenSpec.Base

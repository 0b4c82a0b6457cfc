import Mathlib.Tactic.Common

/-!
# Shell patterns

A pattern of a rule is a regular expression behind `re:`, a wildcard pattern where it holds a
wildcard character, and otherwise the command itself. Python's `re` module is a parameter.
Source: `toolguard/tool_policy.py`, `toolguard/pattern_matchers.py`, on a platform other than
Windows.
-/

namespace JiuwenSpec.Permission

open List

/-- `str.isspace` for a single character. -/
def isSpace (c : Char) : Bool :=
  c ∈ [' ', '\t', '\n', '\r', '\x0b', '\x0c', '\x1c', '\x1d', '\x1e', '\x1f', '\u0085', '\u00a0',
    '\u1680', '\u2028', '\u2029', '\u202f', '\u205f', '\u3000'] ||
      ('\u2000' ≤ c && c ≤ '\u200a')

/-- `str.strip`. -/
def strip (s : String) : String :=
  .ofList (((s.toList.dropWhile isSpace).reverse.dropWhile isSpace).reverse)

theorem dropWhile_eq_self {l : List Char} (h : ∀ c, l.head? = some c → isSpace c = false) :
    l.dropWhile isSpace = l := by
  cases l with
  | nil => rfl
  | cons c l => rw [dropWhile_cons_of_neg (by simp [h c rfl])]

theorem head_dropWhile {l : List Char} {c : Char} (h : (l.dropWhile isSpace).head? = some c) :
    isSpace c = false := by
  induction l with
  | nil => cases h
  | cons x l ih =>
    rw [dropWhile_cons] at h
    split at h
    · exact ih h
    · next hx =>
      rw [List.head?_cons] at h
      rw [← Option.some.inj h]
      exact Bool.not_eq_true _ ▸ hx

theorem strip_idem (s : String) : strip (strip s) = strip s := by
  have hleft : ((s.toList.dropWhile isSpace).reverse.dropWhile isSpace).reverse.dropWhile isSpace =
      ((s.toList.dropWhile isSpace).reverse.dropWhile isSpace).reverse := by
    apply dropWhile_eq_self
    intro c hc
    have hsuffix : (s.toList.dropWhile isSpace).reverse.dropWhile isSpace <:+
        (s.toList.dropWhile isSpace).reverse := dropWhile_suffix isSpace
    obtain ⟨pre, hpre⟩ := hsuffix
    have hhead : (s.toList.dropWhile isSpace).head? = some c := by
      rw [← reverse_reverse (s.toList.dropWhile isSpace), ← hpre, reverse_append,
        List.head?_append, hc]
      rfl
    exact head_dropWhile hhead
  rw [strip, strip, String.toList_ofList, hleft, reverse_reverse,
    dropWhile_eq_self fun c hc => head_dropWhile hc]

theorem strip_of_ends {a b : Char} {s : List Char} (ha : isSpace a = false)
    (hb : isSpace b = false) : strip (.ofList (a :: s ++ [b])) = .ofList (a :: s ++ [b]) := by
  rw [strip, String.toList_ofList, cons_append, dropWhile_cons_of_neg (by simp [ha]),
    reverse_cons, reverse_append, reverse_singleton, singleton_append,
    cons_append, dropWhile_cons_of_neg (by simp [hb])]
  simp

/-- `str.lower`, as far as it gives letters of the Latin alphabet. -/
def lower (s : String) : String :=
  .ofList (s.toList.map fun c => if c = '\u212a' then 'k' else c.toLower)

/-- `s.replace("\\", "/")`. -/
def slashes (s : String) : String := .ofList (s.toList.map fun c => if c = '\\' then '/' else c)

def replaceChar (c : Char) (text s : List Char) : List Char :=
  s.flatMap fun x => if x = c then text else [x]

/-- Python's `re`: whether an expression is found in a text, or matches all of it; nothing where
it does not compile. -/
structure Re where
  search : String → String → Option Bool
  fullmatch : String → String → Option Bool

def wildcardChars : List Char := "[-a-zA-Z0-9 \\._/:\"\\'*?]".toList

def wildcardRegex (pattern : String) : String :=
  let escaped := (slashes pattern).toList.flatMap fun c =>
    if c ∈ ".+^$\x7b\x7d()|[]\\".toList then ['\\', c] else [c]
  let escaped := replaceChar '?' wildcardChars escaped
  .ofList (if [' ', '*'].isSuffixOf escaped then
    escaped.dropLast.dropLast ++ "( ".toList ++ wildcardChars ++ "*)?".toList
  else replaceChar '*' (wildcardChars ++ ['*']) escaped)

def matchWildcard (re : Re) (value pattern : String) : Bool :=
  pattern ≠ "" && value ≠ "" && (re.fullmatch (wildcardRegex pattern) (slashes value)).getD false

/-- `p.lower().startswith("re:")`, with what follows. -/
def regexPart (p : String) : Option String :=
  if "re:".toList.isPrefixOf (lower p).toList then some (strip (.ofList (p.toList.drop 3)))
  else none

def searchBoth (re : Re) (expr command : String) : Option Bool :=
  match re.search expr command with
  | none => none
  | some true => some true
  | some false => if slashes command = command then some false else re.search expr (slashes command)

/-- `s.split("|")`. -/
def splitBar : List Char → List (List Char)
  | [] => [[]]
  | c :: rest =>
    if c = '|' then [] :: splitBar rest
    else match splitBar rest with
      | part :: parts => (c :: part) :: parts
      | [] => [[c]]

/-- `_shell_pattern_matches`; a part of an alternation that does not compile matches nothing. -/
def shellPatternMatches (re : Re) (pattern command : String) : Bool :=
  if pattern = "" ∨ command = "" then false
  else
    let p := strip pattern
    match regexPart p with
    | some expr =>
      match searchBoth re expr command with
      | some found => found
      | none =>
        '|' ∈ expr.toList && (splitBar expr.toList).any fun part =>
          let sub := strip (.ofList part)
          sub ≠ "" && (searchBoth re sub command).getD false
    | none =>
      if p.toList.any (· ∈ ['*', '?', '[']) then matchWildcard re command p
      else command = p

end JiuwenSpec.Permission

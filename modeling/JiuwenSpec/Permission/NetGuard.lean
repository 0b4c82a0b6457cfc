import JiuwenSpec.Base.Assoc
import JiuwenSpec.Base.TextLines

/-!
# The network guard

Fetch tools are denied or passed by patterns: a text with `://` is a prefix or a glob for the whole
URL, any other text a wildcard pattern for its host. What `urlparse` reports is a parameter.
Source: `permission_engine/netguard/net_guard.py`, `toolguard/pattern_matchers.py`, on a platform
other than Windows.
-/

namespace JiuwenSpec.NetGuard

open Base

/-- `str.lower`, as far as it gives letters of the Latin alphabet. -/
def lower (text : Text) : Text := text.map fun c => if c.toNat = 0x212a then 'k' else c.toLower

/-- `s.replace("\\", "/")`. -/
def slashes (text : Text) : Text := text.map fun c => if c = '\\' then '/' else c

/-- The text behind the first `://`. -/
def afterScheme : Text → Option Text
  | [] => none
  | c :: rest =>
    if [':', '/', '/'].isPrefixOf (c :: rest) then some (rest.drop 2) else afterScheme rest

/-- `"://" in text`. -/
def HasScheme (text : Text) : Prop := (afterScheme text).isSome

instance (text : Text) : Decidable (HasScheme text) :=
  inferInstanceAs (Decidable ((afterScheme text).isSome = true))

/-- `"*" in pattern or "?" in pattern`. -/
def HasWildcard (pattern : Text) : Prop := '*' ∈ pattern ∨ '?' ∈ pattern

instance (pattern : Text) : Decidable (HasWildcard pattern) :=
  inferInstanceAs (Decidable ('*' ∈ pattern ∨ '?' ∈ pattern))

/-- A part of a wildcard's regular expression: one character of a class, or any number of them. -/
inductive GlobToken where
  | one (chars : Char → Bool)
  | many (chars : Char → Bool)

/-- `re.fullmatch` of the parts. -/
def fullmatch : List GlobToken → Text → Bool
  | [], value => value.isEmpty
  | .one chars :: tokens, value =>
    match value with
    | [] => false
    | c :: value => chars c && fullmatch tokens value
  | .many chars :: tokens, value =>
    (List.range (value.length + 1)).any fun n =>
      (value.take n).all chars && fullmatch tokens (value.drop n)

/-- `a-zA-Z0-9`. -/
def isAlphanumeric (c : Char) : Bool :=
  ('a' ≤ c && c ≤ 'z') || ('A' ≤ c && c ≤ 'Z') || ('0' ≤ c && c ≤ '9')

def urlWildcardChars (c : Char) : Bool :=
  isAlphanumeric c || c ∈ ['-', '.', '_', '/', ':', '?', '#', '&', '=', '%', '+', '~', '@', ',',
    ';', '[', ']', '\'']

def wildcardChars (c : Char) : Bool :=
  isAlphanumeric c || c ∈ ['-', ' ', '.', '_', '/', ':', '"', '\'', '*', '?']

/-- The class that a `?` becomes once its own `*` has been replaced: `[-a` is a range in it. -/
def nestedChars (c : Char) : Bool := wildcardChars c || ('[' ≤ c && c ≤ 'a')

def urlTokens (pattern : Text) : List GlobToken :=
  pattern.map fun c =>
    if c = '*' then .many urlWildcardChars
    else if c = '?' then .one urlWildcardChars
    else .one (· == c)

def matchUrlGlob (value pattern : Text) : Bool :=
  value ≠ [] && pattern ≠ [] && fullmatch (urlTokens (slashes pattern)) (slashes value)

/-- The expression of a wildcard pattern; what a `?` becomes ends in a bracket of its own. -/
def wildcardTokens (pattern : Text) : List GlobToken :=
  pattern.flatMap fun c =>
    if c = '*' then [.many wildcardChars]
    else if c = '?' then [.many nestedChars, .one (· == ']')]
    else [.one (· == c)]

/-- The expression of a pattern before a final ` *`, where a `*` repeats what is before it; nothing
where it does not compile. The parts come in reverse order. -/
def repeatTokens : List GlobToken → Text → Option (List GlobToken)
  | tokens, [] => some tokens
  | tokens, c :: pattern =>
    if c = '*' then
      match tokens with
      | .one chars :: tokens => repeatTokens (.many chars :: tokens) pattern
      | _ => none
    else if c = '?' then repeatTokens (.one wildcardChars :: tokens) pattern
    else repeatTokens (.one (· == c) :: tokens) pattern

def matchWildcard (value pattern : Text) : Bool :=
  if pattern = [] ∨ value = [] then false
  else if [' ', '*'].isSuffixOf (slashes pattern) then
    match repeatTokens [] (slashes pattern).dropLast.dropLast with
    | none => false
    | some tokens =>
      fullmatch tokens.reverse (slashes value) ||
        fullmatch (tokens.reverse ++ [.one (· == ' '), .many wildcardChars]) (slashes value)
  else fullmatch (wildcardTokens (slashes pattern)) (slashes value)

/-- `urlparse(url).hostname`, or nothing where it reports none or raises. The authority of a URL
ends at the first slash behind it, so what follows does not change the host. -/
structure UrlParse where
  hostname : Text → Option Text
  authority : ∀ scheme authority rest rest', '/' ∉ authority →
    hostname (scheme ++ ':' :: '/' :: '/' :: (authority ++ '/' :: rest)) =
      hostname (scheme ++ ':' :: '/' :: '/' :: (authority ++ '/' :: rest'))

variable (parse : UrlParse)

def hostname (url : Text) : Option Text :=
  if strip url = [] then none
  else
    let candidate := if HasScheme (strip url) then strip url
      else ['h', 't', 't', 'p', ':', '/', '/'] ++ strip url
    let host := (lower ((parse.hostname candidate).getD [])).rdropWhile fun c => decide (c = '.')
    if host = [] then none else some host

def matchNetPattern (pattern url : Text) : Bool :=
  let pat := slashes (strip pattern)
  let normalized := slashes (strip url)
  if pat = [] ∨ normalized = [] then false
  else if HasScheme pat then
    if HasWildcard pat then matchUrlGlob normalized pat
    else normalized = pat || pat.isPrefixOf normalized
  else
    match hostname parse normalized with
    | none => false
    | some host => matchWildcard host (lower pat)

/-- `allow` and `deny`. -/
inductive NetAction where
  | allow
  | deny
deriving DecidableEq

/-- `mapping.get(key)`, where `null` is `None`. -/
def getKey (key : Text) (members : List (Text × Json)) : Option Json :=
  match assocGet? key members with
  | some (.literal .null) | none => none
  | some j => some j

def parseAction (value : Option Json) : Option NetAction :=
  let raw := match value with
    | some (.object members) =>
      match getKey "action".toList members with
      | some j => some j
      | none => getKey "fetch".toList members
    | raw => raw
  match raw with
  | some (.string text) =>
    if lower (strip text) = "allow".toList then some .allow
    else if lower (strip text) = "deny".toList then some .deny
    else none
  | _ => none

def urlArgKeys : List Text :=
  ["url".toList, "uri".toList, "href".toList, "webpage".toList, "page_url".toList,
    "target_url".toList]

def extractFetchUrl (args : List (Text × Json)) : Option Text :=
  urlArgKeys.findSome? fun key =>
    match assocGet? key args with
    | some (.string text) => if strip text = [] then none else some (slashes (strip text))
    | _ => none

def fetchTools : List Text :=
  ["mcp_fetch_webpage".toList, "fetch_webpage".toList, "web_fetch_webpage".toList]

/-- `bool(value)`. -/
def truthy : Json → Bool
  | .literal .null | .literal .false => false
  | .literal _ => true
  | .number numeral =>
    -- A number is zero where no digit before the exponent is another.
    (numeral.text.takeWhile fun c => c ≠ 'e' ∧ c ≠ 'E').any fun c => '1' ≤ c && c ≤ '9'
  | .string text => text ≠ []
  | .array items => !items.isEmpty
  | .object members => !members.isEmpty

/-- A `NetGuardChecker`. -/
structure NetGuardChecker where
  enabled : Bool
  defaults : NetAction
  urls : List (Text × NetAction)

/-- The patterns of a section; an entry without an action is left out. -/
def compileUrls (urls : List (Text × Json)) : List (Text × NetAction) :=
  urls.foldl (fun compiled e =>
    if strip e.1 = [] then compiled
    else match parseAction (some e.2) with
      | none => compiled
      | some action => assocSet (strip e.1) action compiled) []

/-- `NetGuardChecker(section)`. -/
def NetGuardChecker.ofSection (members : List (Text × Json)) : NetGuardChecker where
  enabled := ((getKey "enabled".toList members).map truthy).getD false
  defaults := (parseAction (getKey "defaults".toList members)).getD .allow
  urls := match getKey "urls".toList members with
    | some (.object urls) => compileUrls urls
    | _ => []

/-- The `PermissionResult` of a denial. -/
structure Denial where
  matchedRule : Text
  reason : Text

def Denial.byPattern (pattern : Text) : Denial :=
  ⟨"net_guard:url:".toList ++ pattern, "net_guard denied: ".toList ++ pattern⟩

def Denial.byDefaults : Denial := ⟨"net_guard:defaults".toList, "net_guard denied: defaults".toList⟩

namespace NetGuardChecker

/-- The entries whose pattern matches the URL, if there is one. -/
def hits (g : NetGuardChecker) (url : Option Text) : List (Text × NetAction) :=
  match url with
  | none => []
  | some url => g.urls.filter fun e => matchNetPattern parse e.1 url

def evaluate (g : NetGuardChecker) (tool : Text) (args : List (Text × Json)) : Option Denial :=
  if ¬ g.enabled ∨ strip tool ∉ fetchTools then none
  else
    let hits := g.hits parse (extractFetchUrl args)
    match hits.find? fun e => e.2 = .deny with
    | some (pattern, _) => some (.byPattern pattern)
    | none => if hits = [] ∧ g.defaults = .deny then some .byDefaults else none

end NetGuardChecker

end JiuwenSpec.NetGuard

/-!
## What the network guard confines

What the three kinds of patterns match, and what follows for the hosts a guard passes under the
default `deny` and for the URLs a deny pattern keeps out.
Source: `permission_engine/netguard/net_guard.py`.
-/

namespace JiuwenSpec.NetGuard

open Base List

theorem fullmatch_literal (pattern value : Text) :
    fullmatch (pattern.map fun c => .one (· == c)) value = true ↔ value = pattern := by
  induction pattern generalizing value with
  | nil => simp [fullmatch]
  | cons p pattern ih =>
    cases value with
    | nil => simp [fullmatch]
    | cons c value =>
      rw [map_cons, fullmatch, Bool.and_eq_true, ih, beq_iff_eq, List.cons.injEq]

theorem fullmatch_literal_append (pattern : Text) (tokens : List GlobToken) (value : Text) :
    fullmatch ((pattern.map fun c => .one (· == c)) ++ tokens) value = true ↔
      ∃ rest, value = pattern ++ rest ∧ fullmatch tokens rest = true := by
  induction pattern generalizing value with
  | nil => simp
  | cons p pattern ih =>
    cases value with
    | nil => simp [fullmatch]
    | cons c value =>
      rw [map_cons, cons_append, fullmatch, Bool.and_eq_true, ih, beq_iff_eq]
      constructor
      · rintro ⟨rfl, rest, rfl, hrest⟩
        exact ⟨rest, rfl, hrest⟩
      · rintro ⟨rest, hvalue, hrest⟩
        obtain ⟨rfl, rfl⟩ := List.cons.inj hvalue
        exact ⟨rfl, rest, rfl, hrest⟩

theorem fullmatch_many (chars : Char → Bool) (value : Text) :
    fullmatch [.many chars] value = true ↔ value.all chars = true := by
  rw [fullmatch, any_eq_true]
  constructor
  · rintro ⟨n, -, h⟩
    rw [Bool.and_eq_true, fullmatch, List.isEmpty_iff, List.drop_eq_nil_iff] at h
    rw [← List.take_of_length_le h.2]
    exact h.1
  · intro h
    refine ⟨value.length, mem_range.mpr (Nat.lt_succ_self _), ?_⟩
    rw [take_length, drop_length, h]
    rfl

variable {pattern : Text}

theorem urlTokens_literal (h : ¬ HasWildcard pattern) :
    urlTokens pattern = pattern.map fun c => .one (· == c) := by
  rw [HasWildcard, not_or] at h
  refine map_congr_left fun c hc => ?_
  have hstar : c ≠ '*' := fun heq => h.1 (heq ▸ hc)
  have hmark : c ≠ '?' := fun heq => h.2 (heq ▸ hc)
  rw [if_neg hstar, if_neg hmark]

theorem wildcardTokens_literal (h : ¬ HasWildcard pattern) :
    wildcardTokens pattern = pattern.map fun c => .one (· == c) := by
  rw [HasWildcard, not_or] at h
  induction pattern with
  | nil => rfl
  | cons c pattern ih =>
    rw [mem_cons, not_or, mem_cons, not_or] at h
    have hrest := ih ⟨h.1.2, h.2.2⟩
    rw [wildcardTokens] at hrest ⊢
    rw [flatMap_cons, hrest, if_neg (Ne.symm h.1.1), if_neg (Ne.symm h.2.1)]
    rfl

theorem slashes_idem (text : Text) : slashes (slashes text) = slashes text := by
  rw [slashes, slashes, map_map]
  refine map_congr_left fun c _ => ?_
  rw [Function.comp_apply]
  by_cases h : c = '\\'
  · rw [if_pos h]
    rfl
  · rw [if_neg h, if_neg h]

theorem hasWildcard_slashes {text : Text} (h : HasWildcard (slashes text)) : HasWildcard text := by
  have hmem : ∀ x, x ≠ '/' → x ∈ slashes text → x ∈ text := by
    intro x hx hin
    obtain ⟨c, hc, hcx⟩ := mem_map.mp hin
    split at hcx
    · exact (hx hcx.symm).elim
    · exact hcx ▸ hc
  exact h.imp (hmem _ (by decide)) (hmem _ (by decide))

variable (parse : UrlParse)

def readPattern (pattern : Text) : Text := slashes (strip pattern)

def literalPart (pattern : Text) : Text := pattern.takeWhile fun c => decide (c ≠ '*' ∧ c ≠ '?')

theorem afterScheme_nil_of (h : HasScheme pattern) : pattern ≠ [] := by
  rintro rfl
  exact absurd h (by decide)

variable {url : Text}

theorem hostname_ne_nil {host : Text} (h : hostname parse url = some host) : host ≠ [] := by
  rw [hostname] at h
  by_cases hurl : strip url = []
  · rw [if_pos hurl] at h
    cases h
  · rw [if_neg hurl] at h
    simp only [Option.ite_none_left_eq_some, Option.some.injEq] at h
    exact h.2 ▸ h.1

theorem match_of_host (hscheme : ¬ HasScheme (readPattern pattern))
    (hwild : ¬ HasWildcard (lower (readPattern pattern)))
    (hhost : hostname parse (slashes (strip url)) = some (lower (readPattern pattern))) :
    matchNetPattern parse pattern url = true := by
  have hne := hostname_ne_nil parse hhost
  have hpattern : readPattern pattern ≠ [] := by
    intro hnil
    rw [hnil] at hne
    exact hne rfl
  have hurl : slashes (strip url) ≠ [] := by
    intro hnil
    rw [hnil] at hhost
    cases hhost
  have hslashes : ¬ HasWildcard (slashes (lower (readPattern pattern))) :=
    fun h => hwild (hasWildcard_slashes h)
  have hsuffix : [' ', '*'].isSuffixOf (slashes (lower (readPattern pattern))) ≠ true := by
    intro h
    obtain ⟨front, hfront⟩ := isSuffixOf_iff_suffix.mp h
    refine hslashes (.inl ?_)
    rw [← hfront]
    simp
  rw [matchNetPattern]
  simp only [readPattern] at hscheme hpattern hhost hne hsuffix hslashes
  rw [if_neg (not_or.mpr ⟨hpattern, hurl⟩), if_neg hscheme, hhost]
  simp only [matchWildcard]
  rw [if_neg (not_or.mpr ⟨hne, hne⟩), if_neg hsuffix, wildcardTokens_literal hslashes,
    fullmatch_literal]

theorem match_prefix_iff (hscheme : HasScheme (readPattern pattern))
    (hwild : ¬ HasWildcard (readPattern pattern)) :
    matchNetPattern parse pattern url = true ↔ readPattern pattern <+: slashes (strip url) := by
  have hpattern := afterScheme_nil_of hscheme
  rw [matchNetPattern]
  simp only [readPattern] at hscheme hwild hpattern ⊢
  by_cases hurl : slashes (strip url) = []
  · rw [if_pos (.inr hurl), hurl]
    simp [hpattern]
  · rw [if_neg (not_or.mpr ⟨hpattern, hurl⟩), if_pos hscheme, if_neg hwild, Bool.or_eq_true,
      decide_eq_true_eq, List.isPrefixOf_iff_prefix]
    constructor
    · rintro (h | h)
      · exact h ▸ prefix_refl _
      · exact h
    · exact .inr

theorem match_glob_iff (hscheme : HasScheme (readPattern pattern))
    (hwild : HasWildcard (readPattern pattern)) :
    matchNetPattern parse pattern url = true ↔ slashes (strip url) ≠ [] ∧
      fullmatch (urlTokens (readPattern pattern)) (slashes (strip url)) = true := by
  have hpattern := afterScheme_nil_of hscheme
  rw [matchNetPattern]
  simp only [readPattern] at hscheme hwild hpattern ⊢
  by_cases hurl : slashes (strip url) = []
  · rw [if_pos (.inr hurl)]
    simp [hurl]
  · rw [if_neg (not_or.mpr ⟨hpattern, hurl⟩), if_pos hscheme, if_pos hwild, matchUrlGlob,
      slashes_idem, slashes_idem]
    simp [hurl, hpattern]

theorem urlTokens_append (a b : Text) : urlTokens (a ++ b) = urlTokens a ++ urlTokens b :=
  map_append

theorem literalPart_literal (pattern : Text) : ¬ HasWildcard (literalPart pattern) := by
  have hall : ∀ c ∈ literalPart pattern, c ≠ '*' ∧ c ≠ '?' := by
    intro c hc
    rw [literalPart] at hc
    have hc' := mem_takeWhile_imp hc
    exact of_decide_eq_true hc'
  rintro (h | h)
  · exact (hall _ h).1 rfl
  · exact (hall _ h).2 rfl

theorem literalPart_of_match (hscheme : HasScheme (readPattern pattern))
    (hmatch : matchNetPattern parse pattern url = true) :
    literalPart (readPattern pattern) <+: slashes (strip url) := by
  by_cases hwild : HasWildcard (readPattern pattern)
  · obtain ⟨-, hfull⟩ := (match_glob_iff parse hscheme hwild).mp hmatch
    have hsplit : literalPart (readPattern pattern) ++
        (readPattern pattern).dropWhile (fun c => decide (c ≠ '*' ∧ c ≠ '?')) =
          readPattern pattern := takeWhile_append_dropWhile
    rw [← hsplit, urlTokens_append, urlTokens_literal (literalPart_literal _),
      fullmatch_literal_append] at hfull
    obtain ⟨rest, hurl, -⟩ := hfull
    exact ⟨rest, hurl.symm⟩
  · have hstart := (match_prefix_iff parse hscheme hwild).mp hmatch
    exact (List.takeWhile_prefix _).trans hstart

theorem match_star_iff {literal : Text} (hscheme : HasScheme (readPattern pattern))
    (hpattern : readPattern pattern = literal ++ ['*']) (hwild : ¬ HasWildcard literal) :
    matchNetPattern parse pattern url = true ↔ slashes (strip url) ≠ [] ∧
      ∃ rest, slashes (strip url) = literal ++ rest ∧ rest.all urlWildcardChars = true := by
  have hstar : HasWildcard (readPattern pattern) := .inl (by rw [hpattern]; simp)
  have htoken : urlTokens ['*'] = [.many urlWildcardChars] := rfl
  rw [match_glob_iff parse hscheme hstar, hpattern, urlTokens_append, urlTokens_literal hwild,
    htoken, fullmatch_literal_append]
  simp only [fullmatch_many]

def OnHost (pattern url : Text) : Prop :=
  (¬ HasScheme (readPattern pattern) ∧
    ∃ host, hostname parse url = some host ∧ matchWildcard host (lower (readPattern pattern))) ∨
  (HasScheme (readPattern pattern) ∧ literalPart (readPattern pattern) <+: url ∧
    ∀ scheme authority rest, '/' ∉ authority → literalPart (readPattern pattern) =
        scheme ++ ':' :: '/' :: '/' :: (authority ++ '/' :: rest) →
      parse.hostname url = parse.hostname (scheme ++ ':' :: '/' :: '/' :: (authority ++ ['/'])))

/-- The pattern names the host of the URL, or is a prefix of it, or a glob that ends in `*` and goes
on with characters of a URL. -/
def Covers (pattern url : Text) : Prop :=
  (¬ HasScheme (readPattern pattern) ∧ ¬ HasWildcard (lower (readPattern pattern)) ∧
    hostname parse url = some (lower (readPattern pattern))) ∨
  (HasScheme (readPattern pattern) ∧ ¬ HasWildcard (readPattern pattern) ∧
    readPattern pattern <+: url) ∨
  (HasScheme (readPattern pattern) ∧ ∃ literal rest, readPattern pattern = literal ++ ['*'] ∧
    ¬ HasWildcard literal ∧ url = literal ++ rest ∧ rest.all urlWildcardChars = true)

theorem onHost_of_match (hmatch : matchNetPattern parse pattern url = true) :
    OnHost parse pattern (slashes (strip url)) := by
  by_cases hscheme : HasScheme (readPattern pattern)
  · have hstart := literalPart_of_match parse hscheme hmatch
    refine .inr ⟨hscheme, hstart, fun scheme authority rest hslash hliteral => ?_⟩
    obtain ⟨more, hurl⟩ := hstart
    have htext : scheme ++ ':' :: '/' :: '/' :: (authority ++ '/' :: rest) ++ more =
        scheme ++ ':' :: '/' :: '/' :: (authority ++ '/' :: (rest ++ more)) := by simp
    rw [← hurl, hliteral, htext]
    exact parse.authority scheme authority _ [] hslash
  · rw [matchNetPattern] at hmatch
    simp only [readPattern] at hscheme
    refine .inl ⟨hscheme, ?_⟩
    by_cases hempty : slashes (strip pattern) = [] ∨ slashes (strip url) = []
    · simp [hempty] at hmatch
    · simp only [if_neg hempty, if_neg hscheme] at hmatch
      cases hhost : hostname parse (slashes (strip url)) with
      | none => simp [hhost] at hmatch
      | some host =>
        simp only [hhost] at hmatch
        exact ⟨host, rfl, hmatch⟩

theorem match_of_covers (h : Covers parse pattern (slashes (strip url))) :
    matchNetPattern parse pattern url = true := by
  rcases h with ⟨hscheme, hwild, hhost⟩ | ⟨hscheme, hwild, hstart⟩ |
    ⟨hscheme, literal, rest, hpattern, hwild, hurl, hrest⟩
  · exact match_of_host parse hscheme hwild hhost
  · exact (match_prefix_iff parse hscheme hwild).mpr hstart
  · refine (match_star_iff parse hscheme hpattern hwild).mpr ⟨fun hnil => ?_, rest, hurl, hrest⟩
    -- The scheme of the pattern is in its literal.
    have hliteral : literal = [] := by
      rw [hnil] at hurl
      exact (append_eq_nil_iff.mp hurl.symm).1
    rw [hpattern, hliteral] at hscheme
    exact absurd hscheme (by decide)

variable {parse} {g : NetGuardChecker} {tool : Text} {args : List (Text × Json)}

theorem evaluate_eq_none_iff (henabled : g.enabled = true) (htool : strip tool ∈ fetchTools) :
    g.evaluate parse tool args = none ↔
      (∀ e ∈ g.hits parse (extractFetchUrl args), e.2 ≠ .deny) ∧
        ¬ (g.hits parse (extractFetchUrl args) = [] ∧ g.defaults = .deny) := by
  have hon : ¬ (¬ g.enabled = true ∨ strip tool ∉ fetchTools) := by
    rw [not_or, not_not, not_not]
    exact ⟨henabled, htool⟩
  rw [NetGuardChecker.evaluate, if_neg hon]
  simp only
  split
  · next pattern action hfind =>
    have hdeny := List.find?_some hfind
    rw [decide_eq_true_eq] at hdeny
    refine ⟨fun h => (by cases h), fun h => ?_⟩
    exact (h.1 _ (mem_of_find?_eq_some hfind) hdeny).elim
  · next hnone =>
    rw [List.find?_eq_none] at hnone
    simp only [decide_eq_true_eq] at hnone
    rw [ite_eq_right_iff]
    exact ⟨fun h => ⟨hnone, fun hc => (by cases h hc)⟩, fun h hc => (h.2 hc).elim⟩

/-- **What the network guard confines.** Under the default `deny`, an enabled guard passes a URL to
a fetch tool only on the host of an allow pattern; and it denies every URL a deny pattern covers. -/
theorem net_guard_confines (parse : UrlParse) (members : List (Text × Json)) (tool : Text)
    (args : List (Text × Json)) (url : Text)
    (henabled : (NetGuardChecker.ofSection members).enabled = true)
    (htool : strip tool ∈ fetchTools) (hurl : extractFetchUrl args = some url) :
    ((NetGuardChecker.ofSection members).defaults = .deny →
      (NetGuardChecker.ofSection members).evaluate parse tool args = none →
        ∃ pattern, (pattern, .allow) ∈ (NetGuardChecker.ofSection members).urls ∧
          OnHost parse pattern (slashes (strip url))) ∧
    ∀ pattern, (pattern, .deny) ∈ (NetGuardChecker.ofSection members).urls →
      Covers parse pattern (slashes (strip url)) →
        ((NetGuardChecker.ofSection members).evaluate parse tool args).isSome = true := by
  rw [evaluate_eq_none_iff henabled htool, hurl]
  have hmem : ∀ e, e ∈ (NetGuardChecker.ofSection members).hits parse (some url) ↔
      e ∈ (NetGuardChecker.ofSection members).urls ∧ matchNetPattern parse e.1 url := by
    intro e
    rw [NetGuardChecker.hits, mem_filter]
  constructor
  · rintro hdefaults ⟨hnone, hhit⟩
    have hhits : (NetGuardChecker.ofSection members).hits parse (some url) ≠ [] :=
      fun hnil => hhit ⟨hnil, hdefaults⟩
    obtain ⟨⟨pattern, action⟩, he⟩ := exists_mem_of_ne_nil _ hhits
    obtain ⟨hlisted, hmatch⟩ := (hmem _).mp he
    have hallow : action = .allow := by
      cases action with
      | allow => rfl
      | deny => exact (hnone _ he rfl).elim
    exact ⟨pattern, hallow ▸ hlisted, onHost_of_match parse hmatch⟩
  · intro pattern hlisted hcovers
    have he := (hmem (pattern, .deny)).mpr ⟨hlisted, match_of_covers parse hcovers⟩
    by_contra hpass
    rw [Option.not_isSome_iff_eq_none, evaluate_eq_none_iff henabled htool, hurl] at hpass
    exact hpass.1 _ he rfl

def plainHost (url : Text) : Option Text :=
  (afterScheme url).map fun rest =>
    lower ((rest.takeWhile fun c ↦ decide (c ∉ ['/', '?', '#'])).takeWhile fun c ↦ decide (c ≠ ':'))

theorem length_of_afterScheme {text rest : Text} (h : afterScheme text = some rest) :
    3 ≤ text.length := by
  induction text with
  | nil => cases h
  | cons c text ih =>
    rw [afterScheme] at h
    split at h
    · next hstart => exact (List.isPrefixOf_iff_prefix.mp hstart).length_le
    · exact Nat.le_succ_of_le (ih h)

theorem afterScheme_append {text rest : Text} (h : afterScheme text = some rest) (more : Text) :
    afterScheme (text ++ more) = some (rest ++ more) := by
  induction text with
  | nil => cases h
  | cons c text ih =>
    have hlength := length_of_afterScheme h
    have hstart : [':', '/', '/'].isPrefixOf (c :: (text ++ more)) =
        [':', '/', '/'].isPrefixOf (c :: text) := by
      rw [Bool.eq_iff_iff, List.isPrefixOf_iff_prefix, List.isPrefixOf_iff_prefix]
      refine ⟨fun hmore => ?_, fun htext => htext.trans (prefix_append (c :: text) more)⟩
      exact prefix_of_prefix_length_le hmore (prefix_append (c :: text) more) hlength
    rw [afterScheme] at h
    rw [cons_append, afterScheme, hstart]
    split at h
    · next htrue =>
      have htwo : 2 ≤ text.length := Nat.le_of_succ_le_succ hlength
      rw [if_pos htrue, ← Option.some.inj h, drop_append_of_le_length htwo]
    · next hfalse => rw [if_neg hfalse, ih h]

theorem afterScheme_isSome (scheme rest : Text) :
    (afterScheme (scheme ++ ':' :: '/' :: '/' :: rest)).isSome = true := by
  induction scheme with
  | nil => rfl
  | cons c scheme ih =>
    rw [cons_append, afterScheme]
    split
    · rfl
    · exact ih

/-- `urlparse`, on URLs without userinfo and brackets. -/
def plainParse : UrlParse where
  hostname := plainHost
  authority scheme authority rest rest' _ := by
    obtain ⟨found, hfound⟩ := Option.isSome_iff_exists.mp (afterScheme_isSome scheme authority)
    have hmore : ∀ more, afterScheme (scheme ++ ':' :: '/' :: '/' :: (authority ++ '/' :: more)) =
        some (found ++ '/' :: more) := by
      intro more
      rw [← afterScheme_append hfound ('/' :: more), append_assoc]
      rfl
    have hstop : ∀ more : Text,
        ('/' :: more).takeWhile (fun c => decide (c ∉ ['/', '?', '#'])) = [] := fun _ => rfl
    rw [plainHost, plainHost, hmore, hmore, Option.map_some, Option.map_some, takeWhile_append,
      takeWhile_append, hstop, hstop]

def sectionOf (defaults pattern action : String) : List (Text × Json) :=
  [("enabled".toList, .literal .true), ("defaults".toList, .string defaults.toList),
    ("urls".toList, .object [(pattern.toList, .string action.toList)])]

def urlArgs (url : String) : List (Text × Json) := [("url".toList, .string url.toList)]

/-- A denied host is kept out. -/
theorem localhost_denied :
    ((NetGuardChecker.ofSection (sectionOf "allow" "localhost" "deny")).evaluate plainParse
      "fetch_webpage".toList (urlArgs "http://localhost:80/")).isSome = true := by
  refine (net_guard_confines plainParse _ _ _ "http://localhost:80/".toList ?_ ?_ ?_).2
    "localhost".toList ?_ (.inl ⟨?_, ?_, ?_⟩)
  all_goals decide

/-- A URL on another host that goes on from an allowed prefix is passed, and a URL behind a denied
glob is passed where it holds an exclamation mark. -/
theorem lookalike_passes :
    ((NetGuardChecker.ofSection (sectionOf "deny" "https://good.com" "allow")).evaluate plainParse
        "fetch_webpage".toList (urlArgs "https://good.com.evil.net/") = none ∧
      hostname plainParse "https://good.com.evil.net/".toList = some "good.com.evil.net".toList ∧
      hostname plainParse "https://good.com".toList = some "good.com".toList ∧
      matchWildcard "good.com.evil.net".toList "good.com".toList = false) ∧
    (NetGuardChecker.ofSection (sectionOf "allow" "https://evil.example/admin*" "deny")).evaluate
        plainParse "fetch_webpage".toList (urlArgs "https://evil.example/admin/!") = none := by
  decide

end JiuwenSpec.NetGuard

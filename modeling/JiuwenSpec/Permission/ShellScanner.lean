import Mathlib.Data.List.Infix
import JiuwenSpec.Base.Json
import JiuwenSpec.Permission.Suggestions

/-!
# The fallback scanner of shell commands

Without a parser a command is searched for the strings of shell syntax. Before, a launcher of
another shell is unwrapped, and tokens that duplicate a descriptor are left out.
Source: `toolguard/shell_ast.py`, `toolguard/command_canonicalize.py`.
-/

namespace JiuwenSpec.Permission

open Base List

/-- The classes `\d` and `\w` of Python's `re` module. -/
structure CharClasses where
  decimal : Char → Bool
  word : Char → Bool

/-- A character matches a lower case letter of a pattern in which case is ignored. -/
def foldsTo (c letter : Char) : Bool := c.toLower = letter || (letter = 's' && c = '\u017f')

def dropLiteral : Text → Text → Option Text
  | [], text => some text
  | _ :: _, [] => none
  | letter :: literal, c :: text =>
    if foldsTo c letter then dropLiteral literal text else none

/-- What follows one or more blanks: `\s+`. -/
def dropBlanks (text : Text) : Option Text :=
  if text.head?.any isSpace then some (text.dropWhile isSpace) else none

/-- The text up to a quote, and what follows it: `(?:\\.|[^q\\])*q`. -/
def cutQuote (quote : Char) : Text → Option (Text × Text)
  | [] => none
  | ['\\'] => none
  | '\\' :: c :: rest =>
    if c = '\n' then none
    else (cutQuote quote rest).map fun cut => ('\\' :: c :: cut.1, cut.2)
  | c :: rest =>
    if c = quote then some ([], rest)
    else (cutQuote quote rest).map fun cut => (c :: cut.1, cut.2)

/-- The first word, and what follows it: `\S+`. -/
def cutWord (text : Text) : Option (Text × Text) :=
  match text.takeWhile fun c => !isSpace c with
  | [] => none
  | word => some (word, text.dropWhile fun c => !isSpace c)

/-- The command of a launcher: in double or single quotes, or one word. -/
def launcherCommand (text : Text) : Option (Text × Text) :=
  match text with
  | '"' :: rest => (cutQuote '"' rest).or (cutWord text)
  | '\'' :: rest => (cutQuote '\'' rest).or (cutWord text)
  | _ => cutWord text

structure Launcher where
  names : List Text
  switches : List Text

/-- `_CMD_LAUNCHER_RE`. -/
def cmdLauncher : Launcher where
  names := ["cmd.exe".toList, "cmd".toList]
  switches := ["//c".toList, "/c".toList]

/-- `_PS_LAUNCHER_RE`. -/
def psLauncher : Launcher where
  names := ["pwsh".toList, "powershell.exe".toList, "powershell".toList]
  switches := ["-command".toList, "-c".toList]

def Launcher.at (l : Launcher) (text : Text) : Option (Text × Text) :=
  l.names.findSome? fun name => (dropLiteral name text).bind fun text =>
    (dropBlanks text).bind fun text => l.switches.findSome? fun switch =>
      (dropLiteral switch text).bind fun text => (dropBlanks text).bind launcherCommand

/-- Replace the first launcher by its command, `_launcher_inner`; the flag says that the character
before belongs to a word. -/
def Launcher.unwrap (cl : CharClasses) (l : Launcher) : Bool → Text → Option Text
  | _, [] => none
  | inWord, c :: rest =>
    match if inWord ≠ cl.word c then l.at (c :: rest) else none with
    | some (command, after) => some ((strip (.ofList command)).toList ++ after)
    | none => (l.unwrap cl (cl.word c) rest).map (c :: ·)

/-- `canonicalize_shell_command_for_permission`. -/
def canonicalizeShellCommand (cl : CharClasses) (command : String) : String :=
  let text := strip command
  match (cmdLauncher.unwrap cl false text.toList).or (psLauncher.unwrap cl false text.toList) with
  | some unwrapped => strip (.ofList unwrapped)
  | none => text

def isNumber (cl : CharClasses) (text : Text) : Bool := text ≠ [] && text.all cl.decimal

/-- `is_fd_alias_token`: `2>&1`, `>&1`, `<1` or `&1`. -/
def isFdAliasToken (cl : CharClasses) (token : Text) : Bool :=
  match token with
  | '<' :: number | '&' :: number => isNumber cl number
  | _ =>
    match token.dropWhile cl.decimal with
    | '>' :: '&' :: number => isNumber cl number
    | _ => false

inductive TokenScan where
  | blank
  | kept
  | dropped

/-- `strip_fd_alias_tokens`: tokens that stand between blanks are left out. -/
def stripFdAliasTokens (cl : CharClasses) : TokenScan → Text → Text
  | _, [] => []
  | state, c :: rest =>
    if isSpace c then c :: stripFdAliasTokens cl .blank rest
    else match state with
      | .kept => c :: stripFdAliasTokens cl .kept rest
      | .dropped => stripFdAliasTokens cl .dropped rest
      | .blank =>
        if isFdAliasToken cl ((c :: rest).takeWhile fun c => !isSpace c) then
          stripFdAliasTokens cl .dropped rest
        else c :: stripFdAliasTokens cl .kept rest

/-- `token in text`. -/
def occursIn (token text : Text) : Bool := text.tails.any fun rest => token.isPrefixOf rest

def scanShellStructure (cl : CharClasses) (command : String) : ShellFlags :=
  let text := command.toList
  let scanned := stripFdAliasTokens cl .blank text
  { hasPipeline := occursIn ['|'] scanned
    hasCompoundOperators := [['&', '&'], ['|', '|'], [';'], ['\n'], ['\r']].any fun token =>
      occursIn token scanned
    hasInputRedirection := occursIn ['<'] scanned
    hasOutputRedirection := occursIn ['>'] scanned
    hasCommandSubstitution := occursIn [Char.ofNat 96] text || occursIn ['$', '('] text
    hasProcessSubstitution := occursIn ['<', '('] text || occursIn ['>', '('] text
    hasParameterExpansion := occursIn ['$', '\x7b'] text
    hasHeredoc := occursIn ['<', '<'] text }

def parseWithConservativeFallback (cl : CharClasses) (split : Lexer) (command : String) :
    ShellParse :=
  let flags := scanShellStructure cl command
  if flags.hasRiskyStructure then
    { kind := .parseUnavailable
      flags := flags
      reason := "tree-sitter backend unavailable and fallback detected shell structure" }
  else
    match split command with
    | none =>
      { kind := .parseUnavailable
        flags := flags
        reason := "fallback lexer failed to tokenize command safely" }
    | some argv => { kind := .simple, subcommands := [⟨command, argv, []⟩], flags := flags }

/-- `parse_shell_for_permission` where no parser is installed. -/
def parseShellForPermission (cl : CharClasses) (split : Lexer) (command : String) : ShellParse :=
  let text := canonicalizeShellCommand cl (strip command)
  if text = "" then { kind := .simple } else parseWithConservativeFallback cl split text

/-!
## What a shell reads, and what the scanner sees

A shell reads a command character by character, with quotes, escapes and comments. Every separator
of commands, redirection, substitution and braced expansion that it reads is a string that the
scanner looks for.
Source: `toolguard/shell_ast.py`.
-/

/-- Where a shell stands in a command: between words, in a word, in quotes, behind a backslash, in a
comment, or in the middle of an operator of two characters. -/
inductive Reading where
  | blank
  | word
  | single
  | double
  | escaped (between : Bool)
  | escapedDouble
  | comment
  | operator
  deriving DecidableEq

inductive Construct where
  | separator
  | background
  | redirection
  | commandSubstitution
  | processSubstitution
  | bracedExpansion
  | expansion
  deriving DecidableEq

def pairedOperators : List (Char × Char) :=
  [('&', '&'), ('|', '|'), ('|', '&'), (';', ';'), ('<', '<'), ('>', '>'), ('<', '&'), ('>', '&'),
    ('<', '>'), ('>', '|')]

/-- The characters that end a word and are no blanks. -/
def operatorChars : List Char := ['&', '|', ';', '<', '>', '(', ')']

def Reading.read (c : Char) (next : Option Char) : Reading → Reading
  | .single => if c = '\'' then .word else .single
  | .double => if c = '"' then .word else if c = '\\' then .escapedDouble else .double
  | .escaped between => if c = '\n' ∧ between then .blank else .word
  | .escapedDouble => .double
  | .comment => if c = '\n' then .blank else .comment
  | .operator => .blank
  | state =>
    if c = '\'' then .single
    else if c = '"' then .double
    else if c = '\\' then .escaped (state = .blank)
    else if c = '#' ∧ state = .blank then .comment
    else if c ∈ operatorChars then
      if next.any fun d => pairedOperators.contains (c, d) then .operator else .blank
    else if c ∈ [' ', '\t', '\n'] then .blank
    else .word

def expansionAt (c : Char) (next : Option Char) : Option Construct :=
  if c = Char.ofNat 96 then some .commandSubstitution
  else if c = '$' then
    if next = some '(' then some .commandSubstitution
    else if next = some '\x7b' then some .bracedExpansion
    else if next.any fun d => d.isAlphanum || d ∈ ['_', '@', '*', '#', '?', '-', '$', '!'] then
      some .expansion
    else none
  else none

def operatorAt (c : Char) (next : Option Char) : Option Construct :=
  if c ∈ [';', '|', '\n'] then some .separator
  else if c = '&' then if next = some '&' then some .separator else some .background
  else if c ∈ ['<', '>'] then
    if next = some '(' then some .processSubstitution else some .redirection
  else expansionAt c next

def Reading.construct (c : Char) (next : Option Char) : Reading → Option Construct
  | .blank | .word => operatorAt c next
  | .double => expansionAt c next
  | .comment => if c = '\n' then some .separator else none
  | _ => none

def constructs : Reading → Text → List Construct
  | _, [] => []
  | state, c :: rest =>
    (state.construct c rest.head?).toList ++ constructs (state.read c rest.head?) rest

/-- The command is split, redirected, substituted into or expanded in braces, where tokens that
duplicate a descriptor neither split nor redirect. -/
def Structured (cl : CharClasses) (text : Text) : Prop :=
  (∃ k ∈ constructs .blank (stripFdAliasTokens cl .blank text),
    k = .separator ∨ k = .redirection) ∨
    ∃ k ∈ constructs .blank text,
      k = .commandSubstitution ∨ k = .processSubstitution ∨ k = .bracedExpansion

def ShellParse.Trusted (p : ShellParse) : Prop :=
  p.kind = .simple ∧ p.subcommands.length = 1 ∧ p.flags.hasRiskyStructure = false

instance (p : ShellParse) : Decidable p.Trusted :=
  inferInstanceAs (Decidable (_ ∧ _ ∧ _))

theorem construct_of_mem {k : Construct} {state : Reading} {text : Text}
    (h : k ∈ constructs state text) :
    ∃ state' c rest, c :: rest <:+ text ∧ Reading.construct c rest.head? state' = some k := by
  induction text generalizing state with
  | nil => cases h
  | cons c rest ih =>
    rw [constructs, mem_append, Option.mem_toList] at h
    rcases h with h | h
    · exact ⟨state, c, rest, suffix_refl _, h⟩
    · obtain ⟨state', d, rest', hsuffix, hd⟩ := ih h
      exact ⟨state', d, rest', hsuffix.trans (suffix_cons c rest), hd⟩

theorem occursIn_of_suffix {token rest text : Text} (h : token ++ rest <:+ text) :
    occursIn token text = true := by
  rw [occursIn, any_eq_true]
  exact ⟨token ++ rest, (mem_tails _ _).mpr h,
    List.isPrefixOf_iff_prefix.mpr (prefix_append _ _)⟩

theorem occursIn_head {c : Char} {rest text : Text} (h : c :: rest <:+ text) :
    occursIn [c] text = true := @occursIn_of_suffix [c] rest text h

theorem occursIn_pair {c d : Char} {rest text : Text} (h : c :: rest <:+ text)
    (hd : rest.head? = some d) : occursIn [c, d] text = true := by
  obtain ⟨tail, rfl⟩ := List.head?_eq_some_iff.mp hd
  exact @occursIn_of_suffix [c, d] tail text h

variable {c : Char} {next : Option Char}

theorem operatorAt_of_construct {k : Construct} {state : Reading}
    (h : state.construct c next = some k) : operatorAt c next = some k := by
  cases state with
  | blank => exact h
  | word => exact h
  | double =>
    have hc : c = Char.ofNat 96 ∨ c = '$' := by
      by_contra hc
      rw [not_or] at hc
      rw [Reading.construct, expansionAt, if_neg hc.1, if_neg hc.2] at h
      cases h
    rw [operatorAt]
    rcases hc with rfl | rfl <;> exact h
  | comment =>
    rw [Reading.construct] at h
    split at h
    · next hc =>
      rw [hc, ← Option.some.inj h]
      rfl
    · cases h
  | _ => cases h

theorem operatorAt_separator (h : operatorAt c next = some .separator) :
    c ∈ [';', '|', '\n'] ∨ c = '&' ∧ next = some '&' := by
  unfold operatorAt expansionAt at h
  split_ifs at h <;> simp_all

theorem operatorAt_redirection (h : operatorAt c next = some .redirection) : c ∈ ['<', '>'] := by
  unfold operatorAt expansionAt at h
  split_ifs at h <;> simp_all

theorem operatorAt_commandSubstitution (h : operatorAt c next = some .commandSubstitution) :
    c = Char.ofNat 96 ∨ c = '$' ∧ next = some '(' := by
  unfold operatorAt expansionAt at h
  split_ifs at h <;> simp_all

theorem operatorAt_processSubstitution (h : operatorAt c next = some .processSubstitution) :
    c ∈ ['<', '>'] ∧ next = some '(' := by
  unfold operatorAt expansionAt at h
  split_ifs at h <;> simp_all

theorem operatorAt_bracedExpansion (h : operatorAt c next = some .bracedExpansion) :
    c = '$' ∧ next = some '\x7b' := by
  unfold operatorAt expansionAt at h
  split_ifs at h <;> simp_all

variable {cl : CharClasses}

theorem risky_of_operator {command : String} {k : Construct}
    (hk : k ∈ constructs .blank (stripFdAliasTokens cl .blank command.toList))
    (hkind : k = .separator ∨ k = .redirection) :
    (scanShellStructure cl command).hasRiskyStructure = true := by
  obtain ⟨state, c, rest, hsuffix, hc⟩ := construct_of_mem hk
  have hat := operatorAt_of_construct hc
  have hhead := occursIn_head hsuffix
  rw [ShellFlags.hasRiskyStructure]
  simp only [scanShellStructure, Bool.or_eq_true, any_cons]
  rcases hkind with rfl | rfl
  · rcases operatorAt_separator hat with hc | ⟨rfl, hnext⟩
    · simp only [mem_cons, not_mem_nil, or_false] at hc
      rcases hc with rfl | rfl | rfl <;> simp [hhead]
    · simp [occursIn_pair hsuffix hnext]
  · have hc := operatorAt_redirection hat
    simp only [mem_cons, not_mem_nil, or_false] at hc
    rcases hc with rfl | rfl <;> simp [hhead]

theorem risky_of_expansion {command : String} {k : Construct}
    (hk : k ∈ constructs .blank command.toList)
    (hkind : k = .commandSubstitution ∨ k = .processSubstitution ∨ k = .bracedExpansion) :
    (scanShellStructure cl command).hasRiskyStructure = true := by
  obtain ⟨state, c, rest, hsuffix, hc⟩ := construct_of_mem hk
  have hat := operatorAt_of_construct hc
  rw [ShellFlags.hasRiskyStructure]
  simp only [scanShellStructure, Bool.or_eq_true]
  rcases hkind with rfl | rfl | rfl
  · rcases operatorAt_commandSubstitution hat with rfl | ⟨rfl, hnext⟩
    · simp [occursIn_head hsuffix]
    · simp [occursIn_pair hsuffix hnext]
  · obtain ⟨hc, hnext⟩ := operatorAt_processSubstitution hat
    have hpair := occursIn_pair hsuffix hnext
    simp only [mem_cons, not_mem_nil, or_false] at hc
    rcases hc with rfl | rfl <;> simp [hpair]
  · obtain ⟨rfl, hnext⟩ := operatorAt_bracedExpansion hat
    simp [occursIn_pair hsuffix hnext]

theorem risky_of_structured {command : String} (h : Structured cl command.toList) :
    (scanShellStructure cl command).hasRiskyStructure = true := by
  rcases h with ⟨k, hk, hkind⟩ | ⟨k, hk, hkind⟩
  · exact risky_of_operator hk hkind
  · exact risky_of_expansion hk hkind

/-- A command in which a shell reads structure is never vouched for as one command without risk:
launchers are unwrapped, and aliases of descriptors neither split nor redirect. -/
theorem structured_not_trusted (cl : CharClasses) (split : Lexer) (command : String)
    (h : Structured cl (canonicalizeShellCommand cl (strip command)).toList) :
    ¬ (parseShellForPermission cl split command).Trusted := by
  rw [parseShellForPermission]
  split_ifs with hempty
  · exact fun htrusted => Nat.zero_ne_one htrusted.2.1
  · rw [parseWithConservativeFallback, if_pos (risky_of_structured h)]
    exact fun htrusted => by cases htrusted.1

theorem pipeline_not_trusted :
    ¬ (parseShellForPermission ⟨Char.isDigit, Char.isAlphanum⟩
      (fun command => some ((command.splitOn " ").filter (· ≠ ""))) "ls | sh").Trusted :=
  structured_not_trusted _ _ _ (.inl ⟨.separator, by decide, .inl rfl⟩)

/-- A redirection to a descriptor is read by a shell, and the command is vouched for. -/
theorem alias_trusted :
    Construct.redirection ∈ constructs .blank "ls 2>&1".toList ∧
      (parseShellForPermission ⟨Char.isDigit, Char.isAlphanum⟩
        (fun _ => some ["ls", "2>&1"]) "ls 2>&1").Trusted := by
  decide

end JiuwenSpec.Permission

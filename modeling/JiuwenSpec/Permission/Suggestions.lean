import JiuwenSpec.Permission.Approvals

/-!
# Approvals that are suggested

What is stored where a user always allows a call: for a shell command an approval for each of its
subcommands, by its text or, for a command of several lines, by its first words; for another tool
the tool itself.
Source: `approve/persist_rule_suggestions.py`, `approve/persist_rule_merge.py`.
-/

namespace JiuwenSpec.Permission

open Base

/-- The scope of a suggestion: `exact` or `prefix`. -/
inductive Scope where
  | exactly
  | byPrefix
  deriving DecidableEq

/-- `PermissionSuggestion`. -/
structure Suggestion where
  tools : List String
  matchType : String
  pattern : String
  action : String := "allow"
  scope : Scope := .exactly
  reason : String
  deriving DecidableEq

/-- `shlex.split`; nothing where it raises. -/
abbrev Lexer := String → Option (List String)

/-- What stands before the first `<<`. -/
def beforeHeredoc : List Char → Option (List Char)
  | [] => none
  | c :: rest => if c = '<' ∧ rest.head? = some '<' then some []
    else (beforeHeredoc rest).map (c :: ·)

def extractSimpleCommandPrefix (split : Lexer) (command : String) : Option String :=
  (split command).bind fun argv =>
    let words := strip (" ".intercalate (argv.take 2))
    if argv = [] ∨ words = "" then none else some words

def extractPrefixBeforeHeredoc (split : Lexer) (command : String) : Option String :=
  (beforeHeredoc command.toList).bind fun before =>
    let text := strip (.ofList before)
    if text = "" then none else some ((extractSimpleCommandPrefix split text).getD text)

def buildPrefixPattern (words : String) : String := strip words ++ " *"

/-- The characters at which `str.splitlines` splits. -/
def lineBreaks : List Char :=
  ['\n', '\r', '\x0b', '\x0c', '\x1c', '\x1d', '\x1e', '\u0085', '\u2028', '\u2029']

/-- `text.splitlines()[0].strip()`. -/
def firstLine (text : String) : String :=
  strip (.ofList (text.toList.takeWhile (· ∉ lineBreaks)))

def prefixSuggestion (tool words reason : String) : Suggestion where
  tools := [tool]
  matchType := "command"
  pattern := buildPrefixPattern words
  scope := .byPrefix
  reason := reason

def exactSuggestion (tool text : String) : Suggestion where
  tools := [tool]
  matchType := "command"
  pattern := text
  reason := "exact_command"

def buildSingleShellSuggestion (split : Lexer) (tool command : String) : Option Suggestion :=
  let text := strip command
  if text = "" then none
  else
    match extractPrefixBeforeHeredoc split text with
    | some words => some (prefixSuggestion tool words "heredoc_prefix")
    | none =>
      if '\n' ∈ text.toList then
        if firstLine text = "" then none
        else (extractSimpleCommandPrefix split (firstLine text)).map fun words =>
          prefixSuggestion tool words "first_line_prefix"
      else some (exactSuggestion tool text)

def Suggestion.same (s t : Suggestion) : Bool :=
  s.tools = t.tools && s.matchType = t.matchType && s.pattern = t.pattern && s.action = t.action

def dedupeSuggestions : List Suggestion → List Suggestion
  | [] => []
  | s :: rest => s :: (dedupeSuggestions rest).filter fun t => !s.same t

def ShellFlags.withheld (f : ShellFlags) : Bool :=
  f.hasInputRedirection || f.hasOutputRedirection || f.hasCommandSubstitution ||
    f.hasProcessSubstitution || f.hasHeredoc || f.hasSubshell || f.hasCommandGroup ||
    f.hasParameterExpansion

def commandParts (sh : Shell) (command : String) : List String :=
  if (sh.parse command).kind = .simple ∧ (sh.parse command).subcommands ≠ [] then
    (sh.parse command).subcommands.map (·.text)
  else [command]

def buildShellPermissionSuggestions (split : Lexer) (sh : Shell) (tool command : String) :
    List Suggestion :=
  let p := sh.parse (sh.canonicalize command)
  if p.kind = .tooComplex then []
  else if p.kind = .parseUnavailable ∧ p.flags.hasRiskyStructure then []
  else if p.flags.withheld then []
  else dedupeSuggestions
    ((commandParts sh (sh.canonicalize command)).filterMap (buildSingleShellSuggestion split tool))

/-- The part of `build_permission_suggestions` for the shell. -/
def buildPermissionSuggestions (split : Lexer) (sh : Shell) (tool : String) (args : ToolArgs) :
    List Suggestion :=
  if args.text = "" then []
  else buildShellPermissionSuggestions split sh tool (sh.canonicalize args.text)

/-- `re.sub(r"[^a-zA-Z0-9]+", "_", raw)`. -/
def collapse : List Char → List Char
  | [] => []
  | c :: rest =>
    if c.isAlphanum then c :: collapse rest
    else if (rest.head?.map Char.isAlphanum).getD true then '_' :: collapse rest
    else collapse rest

def stripUnderscores (s : List Char) : List Char :=
  ((s.dropWhile (· = '_')).reverse.dropWhile (· = '_')).reverse

def buildApprovalOverrideId (tool matchType pattern : String) : String :=
  let raw := "user_allow_" ++ tool ++ "_" ++ matchType ++ "_" ++ pattern
  let collapsed := lower (.ofList (stripUnderscores (collapse raw.toList)))
  if collapsed = "" then "user_allow_override" else .ofList (collapsed.toList.take 120)

def isSameAllowOverride (tool matchType pattern : String) (existing : Rule) : Bool :=
  tool ∈ existing.tools.getD [] && existing.matchType = some matchType &&
    existing.pattern = some pattern && lower (strip (existing.action.getD "")) = "allow"

def allowOverride (tool matchType pattern action : String) : Rule where
  id := buildApprovalOverrideId tool matchType pattern
  tools := some [tool]
  matchType := some matchType
  pattern := some pattern
  action := some action

def ensureSingleAllowOverride (overrides : List Rule) (tool matchType pattern action : String) :
    List Rule :=
  if overrides.any (isSameAllowOverride tool matchType pattern) then overrides
  else overrides ++ [allowOverride tool matchType pattern action]

/-- One suggestion, for each of its tools; one for paths is not stored here. -/
def persistSuggestion (overrides : List Rule) (s : Suggestion) : List Rule :=
  if lower (strip s.matchType) = "path" then overrides
  else s.tools.foldl (fun os tool =>
    ensureSingleAllowOverride os tool s.matchType s.pattern s.action) overrides

/-- `_persist_tiered_approval_override_suggestions`. -/
def Config.persistSuggestions (cfg : Config) (suggestions : List Suggestion) : Config :=
  { cfg with approvalOverrides := suggestions.foldl persistSuggestion cfg.approvalOverrides }

/-- `_persist_tiered_tool_allow`. -/
def Config.persistToolAllow (cfg : Config) (tool : String) : Config × Bool :=
  if tool = "" ∨ cfg.tools.get? tool = some (.level "allow") then (cfg, false)
  else ({ cfg with tools := cfg.tools.set tool (.level "allow") }, true)

/-- `merge_permission_allow_rule_into_permissions`; nothing where the evaluation raises. The
suggestions for a tool other than the shell are for paths and stored elsewhere. -/
def Config.mergePermissionAllowRule (re : Re) (split : Lexer) (sh : Shell) (cfg : Config)
    (tool : String) (args : ToolArgs) : Option (Config × Bool) :=
  (cfg.evaluate re sh tool args).map fun verdict =>
    if verdict.1 ≠ .ask then (cfg, false)
    else if cfg.isShellTool tool then
      (cfg.persistSuggestions (buildPermissionSuggestions split sh tool args),
        decide (buildPermissionSuggestions split sh tool args ≠ []))
    else cfg.persistToolAllow tool

end JiuwenSpec.Permission

import Mathlib.Data.List.Sort
import JiuwenSpec.Base.Dict
import JiuwenSpec.Permission.ShellPattern

/-!
# The tool policy

A call of a tool is judged by its baseline, the approvals that were stored, the rules of the
builtin and of the user layer, and a default. A shell command is judged as a whole and, where
the shell parser vouches for its parts, part by part.
Source: `toolguard/tool_policy.py`, `toolguard/tool_categories.py`, `toolguard/shell_ast.py`.
-/

namespace JiuwenSpec.Permission

open Base

/-- `PermissionLevel`. -/
inductive Level where
  | deny
  | ask
  | allow
  deriving DecidableEq

/-- `_STRICT_ORDER`. -/
def Level.order : Level → Nat
  | deny => 0
  | ask => 1
  | allow => 2

def Level.stricter (a b : Level) : Level := if b.order < a.order then b else a

def strictest : List Level → Level
  | [] => .ask
  | l :: ls => ls.foldl Level.stricter l

/-- `_parse_level`; nothing where it raises. -/
def parseLevel (value : String) : Option Level :=
  let v := lower (strip value)
  if v = "deny" then some .deny else if v = "ask" then some .ask
    else if v = "allow" then some .allow else none

/-- A rule or an approval, by the fields that are read. A field is nothing where the value is
missing or of another type; of the tools the strings are kept. -/
structure Rule where
  id : String := ""
  layer : Option String := none
  tools : Option (List String) := none
  matchType : Option String := none
  pattern : Option String := none
  action : Option String := none

/-- What `tools` holds for a tool: a level, levels by argument, or a value of another type. -/
inductive Baseline where
  | level (value : String)
  | levels (star : Option String)
  | other
  deriving DecidableEq

/-- The permissions section. A part that is not of its type is empty. -/
structure Config where
  tools : Dict String Baseline := Dict.empty
  default : Option String := none
  rules : List Rule := []
  approvalOverrides : List Rule := []
  shellTools : List String := []
  unknownStructure : Option Bool := none
  interpreterSink : Option Bool := none

/-- The texts of the arguments `command` and `cmd`; an empty one is falsy. -/
structure ToolArgs where
  command : Option String := none
  cmd : Option String := none

def defaultShellTools : List String :=
  ["bash", "powershell", "core.powershell", "mcp_exec_command", "create_terminal"]

def pathTools : List String :=
  ["read_file", "write_file", "edit_file", "read_text_file", "write_text_file", "write", "read",
    "glob_file_search", "glob", "list_dir", "list_files", "grep", "search_replace"]

def networkTools : List String := ["mcp_fetch_webpage", "mcp_free_search", "mcp_paid_search"]

def names (xs : List String) : List String := (xs.map strip).filter (· ≠ "")

/-- `shell_tools_from_config`. -/
def Config.shellNames (cfg : Config) : List String :=
  if names cfg.shellTools = [] then defaultShellTools else names cfg.shellTools

def Config.isShellTool (cfg : Config) (tool : String) : Bool := tool ∈ cfg.shellNames

inductive Category where
  | shell
  | path
  | network
  deriving DecidableEq

/-- `_tool_category`. -/
def Config.category (cfg : Config) (tool : String) : Option Category :=
  if tool = "shell" ∨ cfg.isShellTool tool then some .shell
  else if tool ∈ pathTools then some .path
  else if tool ∈ networkTools then some .network
  else none

/-- `rule_tools_category_consistent`. -/
def Config.consistent (cfg : Config) : List String → Bool
  | [] => false
  | t :: ts => cfg.category t ≠ none && ts.all fun t' => cfg.category t' = cfg.category t

/-- `_rule_targets_tool`. -/
def Config.targets (cfg : Config) (tool : String) (tools : List String) : Bool :=
  tool ∈ names tools || ("shell" ∈ names tools && cfg.isShellTool tool)

/-- `_command_text`. -/
def ToolArgs.text (args : ToolArgs) : String :=
  let command := args.command.getD ""
  strip (if command ≠ "" then command else args.cmd.getD "")

/-- `_with_shell_command`. -/
def ToolArgs.withCommand (args : ToolArgs) (text : String) : ToolArgs where
  command := if args.command ≠ none ∨ args.cmd = none then some text else none
  cmd := args.cmd.map fun _ => text

/-- `tiered_policy_rule_matches`. -/
def Config.ruleMatches (re : Re) (cfg : Config) (pattern : String) (args : ToolArgs)
    (tools : List String) : Bool :=
  match tools with
  | [] => false
  | t :: _ => cfg.category t = some .shell && shellPatternMatches re pattern args.text

def Config.applies (re : Re) (cfg : Config) (tool : String) (args : ToolArgs) (rule : Rule) :
    Bool :=
  match rule.tools, rule.pattern with
  | some tools, some pattern =>
    cfg.targets tool tools && cfg.consistent (names tools) &&
      ((names tools).head?.bind cfg.category ≠ some .path) && strip pattern ≠ "" &&
      cfg.ruleMatches re pattern args (names tools)
  | _, _ => false

abbrev Hit := Level × String

/-- `f"{ns}[{rid}]"`. -/
def label (ns rid : String) : String := ns ++ "[" ++ (if rid = "" then "?" else rid) ++ "]"

/-- `_collect_param_rule_hits`; nothing where it raises, which it does for the first rule that
applies with an action that is not a level. -/
def Config.paramRuleHits (re : Re) (cfg : Config) (tool : String) (args : ToolArgs) (ns : String) :
    List Rule → Option (List Hit)
  | [] => some []
  | rule :: rules =>
    if cfg.applies re tool args rule ∧ strip (rule.action.getD "") ≠ "" then do
      let level ← parseLevel (rule.action.getD "")
      let hits ← cfg.paramRuleHits re tool args ns rules
      return (level, label ns rule.id) :: hits
    else cfg.paramRuleHits re tool args ns rules

/-- `_collect_approval_override_hits`. -/
def Config.overrideHits (re : Re) (cfg : Config) (tool : String) (args : ToolArgs) :
    List String :=
  (cfg.approvalOverrides.filter fun rule =>
    lower (strip (rule.action.getD "")) = "allow" &&
      lower (strip (rule.matchType.getD "")) ≠ "path" &&
      cfg.applies re tool args rule).map fun rule => label "approval_overrides" rule.id

abbrev Verdict := Level × String

/-- `"+".join(sorted(set(labels)))`. -/
def joined (labels : List String) : String :=
  "+".intercalate (labels.dedup.insertionSort (· ≤ ·))

def finalizeHits (hits : List Hit) (ns : String) : Verdict :=
  if hits.any (·.1 = .deny) then
    (.deny, "tiered_policy:" ++ ns ++ ":deny:" ++
      joined ((hits.filter (·.1 = .deny)).map Prod.snd))
  else
    let final := strictest (hits.map Prod.fst)
    let contributing := (hits.filter (·.1 = final)).map Prod.snd
    (final, if contributing = [] then "tiered_policy:" ++ ns
      else "tiered_policy:" ++ ns ++ ":" ++ joined contributing)

def overrideVerdict (hits : List String) : Verdict :=
  (.allow, "tiered_policy:approval_overrides:" ++ joined hits)

/-- `_baseline_level`. -/
def Config.baseline (cfg : Config) (tool : String) : Option Verdict :=
  match cfg.tools.get? tool with
  | none => none
  | some (.level value) => (parseLevel value).map fun l => (l, "tools." ++ tool)
  | some (.levels (some value)) => (parseLevel value).map fun l => (l, "tools." ++ tool ++ ".*")
  | some (.levels none) => none
  | some .other => none

def Config.builtinRules (cfg : Config) : List Rule :=
  cfg.rules.filter (·.layer = some "builtin")

def Config.userRules (cfg : Config) : List Rule :=
  cfg.rules.filter (·.layer ≠ some "builtin")

/-- `_evaluate_param_rules_only`; nothing where it raises, and no verdict where no rule applies. -/
def Config.evaluateParamRulesOnly (re : Re) (cfg : Config) (tool : String) (args : ToolArgs) :
    Option (Option Verdict) := do
  let builtinHits ← cfg.paramRuleHits re tool args "builtin" cfg.builtinRules
  if builtinHits.any (·.1 = .deny) then return some (finalizeHits builtinHits "builtin")
  let userHits ← cfg.paramRuleHits re tool args "rules" cfg.userRules
  if userHits.any (·.1 = .deny) then return some (finalizeHits userHits "rules")
  if builtinHits ≠ [] then return some (finalizeHits builtinHits "builtin")
  if userHits ≠ [] then return some (finalizeHits userHits "rules")
  return none

/-- The verdict where no rule and no approval applies. -/
def Config.fallback (cfg : Config) (tool : String) : Verdict :=
  match cfg.baseline tool with
  | some verdict => verdict
  | none =>
    match cfg.default.bind parseLevel with
    | some level => (level, "tiered_policy:defaults.*")
    | none => (.ask, "tiered_policy:fallback(no_config)")

/-- `_evaluate_single_invocation`; nothing where it raises. -/
def Config.evaluateSingleInvocation (re : Re) (cfg : Config) (tool : String) (args : ToolArgs) :
    Option Verdict := do
  let builtinHits ← cfg.paramRuleHits re tool args "builtin" cfg.builtinRules
  if builtinHits.any (·.1 = .deny) then return finalizeHits builtinHits "builtin"
  let userHits ← cfg.paramRuleHits re tool args "rules" cfg.userRules
  if userHits.any (·.1 = .deny) then return finalizeHits userHits "rules"
  let overrideHits := cfg.overrideHits re tool args
  if overrideHits ≠ [] then return overrideVerdict overrideHits
  if builtinHits ≠ [] then return finalizeHits builtinHits "builtin"
  if userHits ≠ [] then return finalizeHits userHits "rules"
  return cfg.fallback tool

/-- `ShellStructureFlags`, as far as they are read. -/
structure ShellFlags where
  hasCompoundOperators : Bool := false
  hasPipeline : Bool := false
  hasSubshell : Bool := false
  hasCommandGroup : Bool := false
  hasCommandSubstitution : Bool := false
  hasProcessSubstitution : Bool := false
  hasParameterExpansion : Bool := false
  hasHeredoc : Bool := false
  hasInputRedirection : Bool := false
  hasOutputRedirection : Bool := false

def ShellFlags.hasRiskyStructure (f : ShellFlags) : Bool :=
  f.hasCompoundOperators || f.hasPipeline || f.hasSubshell || f.hasCommandGroup ||
    f.hasCommandSubstitution || f.hasProcessSubstitution || f.hasParameterExpansion ||
    f.hasHeredoc || f.hasInputRedirection || f.hasOutputRedirection

/-- `ShellSubcommand`, as far as it is read. -/
structure ShellSubcommand where
  text : String
  argv : List String := []
  parentOperators : List String := []
  deriving DecidableEq

inductive ParseKind where
  | simple
  | tooComplex
  | parseUnavailable
  deriving DecidableEq

/-- `ShellAstParseResult`. -/
structure ShellParse where
  kind : ParseKind
  subcommands : List ShellSubcommand := []
  flags : ShellFlags := {}
  reason : Option String := none

/-- The shell's own functions: `parse_shell_for_permission` and
`canonicalize_shell_command_for_permission`. -/
structure Shell where
  parse : String → ShellParse
  canonicalize : String → String

/-- `reason or text`. -/
def ShellParse.reasonOr (p : ShellParse) (text : String) : String :=
  if p.reason.getD "" = "" then text else p.reason.getD ""

def shellAstFloor (parse : Option ShellParse) (unknownStructure : Bool) : Option Verdict :=
  match parse with
  | none => none
  | some p =>
    if unknownStructure then
      if p.kind = .tooComplex then
        some (.ask, "tiered_policy:shell_ast:too_complex:" ++
          p.reasonOr "unsupported_complex_structure")
      else if p.kind = .parseUnavailable ∧ p.flags.hasRiskyStructure then
        some (.ask, "tiered_policy:shell_ast:parse_unavailable:" ++
          p.reasonOr "conservative_fallback")
      else none
    else none

def applyShellAstFloor (verdict : Verdict) (floor : Option Verdict) : Verdict :=
  match floor with
  | none => verdict
  | some (level, rule) =>
    let final := strictest [verdict.1, level]
    if final = verdict.1 then verdict
    else (final, if verdict.2 = "" then rule else rule ++ "|" ++ verdict.2)

def interpreterSinkNames : List String :=
  ["bash", "sh", "zsh", "dash", "ash", "fish", "python", "python3", "pythonw", "py", "node",
    "nodejs", "ruby", "perl", "pwsh", "powershell", "cmd", "iex", "invoke-expression",
    "invoke-command"]

def pathName (path : List Char) : List Char :=
  ((path.splitOn '/').filter fun part => part ≠ [] ∧ part ≠ ['.']).getLastD []

def ShellSubcommand.sinkBasename (sc : ShellSubcommand) : String :=
  let token := match sc.argv with
    | first :: _ => first
    | [] => .ofList ((strip sc.text).toList.takeWhile fun c => !isSpace c)
  let base := (lower (.ofList (pathName (slashes token).toList))).toList
  if ".exe".toList.isSuffixOf base then .ofList (base.take (base.length - 4)) else .ofList base

def ShellParse.hasPipeline (p : ShellParse) : Bool :=
  p.flags.hasPipeline || p.subcommands.any fun sc => "|" ∈ sc.parentOperators

def ShellParse.hasInterpreterSink (p : ShellParse) : Bool :=
  p.hasPipeline && 2 ≤ p.subcommands.length &&
    p.subcommands.tail.any fun sc => sc.sinkBasename ∈ interpreterSinkNames

/-- `_aggregate_subcommand_results`. -/
def aggregate : List (String × Verdict) → Verdict
  | [] => (.ask, "tiered_policy:shell_subcommands:fallback")
  | [r] => r.2
  | results =>
    let final := strictest (results.map (·.2.1))
    let contributing := (results.filter (·.2.1 = final)).map fun r => r.1 ++ "=>" ++ r.2.2
    (final, "tiered_policy:shell_subcommands:" ++ joined contributing)

/-- The results of the subcommands with a text, up to the first that is denied. -/
def Config.subcommandResults (re : Re) (cfg : Config) (tool : String) (args : ToolArgs) :
    List String → Option (List (String × Verdict))
  | [] => some []
  | text :: texts => do
    let verdict ← cfg.evaluateSingleInvocation re tool (args.withCommand text)
    if verdict.1 = .deny then return [(text, verdict)]
    let rest ← cfg.subcommandResults re tool args texts
    return (text, verdict) :: rest

def ShellParse.texts (p : ShellParse) : List String :=
  (p.subcommands.map (·.text)).filter (· ≠ "")

def withFull (verdict : Verdict) (full : List Verdict) : Verdict :=
  match full with
  | [] => verdict
  | first :: _ =>
    let level := strictest (full.map Prod.fst)
    let rule := ((full.find? (·.1 = level)).getD first).2
    let final := strictest [verdict.1, level]
    (final, if final = level then rule else verdict.2)

/-- The verdict with the guard against interpreters that read from a pipeline. -/
def withSink (verdict : Verdict) (sink : Bool) : Verdict :=
  if sink then
    let final := strictest [verdict.1, .ask]
    let rule := "tiered_policy:shell_guard:interpreter_sink"
    (final, if final = .ask then (if verdict.2 = "" then rule else rule ++ "|" ++ verdict.2)
      else verdict.2)
  else verdict

/-- The arguments with the command in its canonical form, where that is another. -/
def Shell.canonArgs (sh : Shell) (args : ToolArgs) : ToolArgs :=
  if sh.canonicalize args.text = args.text then args
  else args.withCommand (sh.canonicalize args.text)

/-- `parse_shell_for_permission` of the canonical command of a shell tool. -/
def Config.shellParse (sh : Shell) (cfg : Config) (tool : String) (args : ToolArgs) :
    Option ShellParse :=
  if cfg.category tool = some .shell then some (sh.parse (sh.canonicalize args.text)) else none

/-- The approvals that apply to the command as given or else to its canonical form. -/
def Config.wholeOverrideHits (re : Re) (sh : Shell) (cfg : Config) (tool : String)
    (args : ToolArgs) : List String :=
  let hits := cfg.overrideHits re tool args
  if hits = [] ∧ sh.canonicalize args.text ≠ args.text then
    cfg.overrideHits re tool (sh.canonArgs args)
  else hits

/-- The verdict of the rules alone on the canonical form, where that is another. -/
def Config.canonFull (re : Re) (sh : Shell) (cfg : Config) (tool : String) (args : ToolArgs) :
    Option (Option Verdict) :=
  if sh.canonicalize args.text = args.text then some none
  else cfg.evaluateParamRulesOnly re tool (sh.canonArgs args)

/-- The part of `evaluate_tiered_policy` for a command whose subcommands are known. -/
def Config.evaluateSubcommands (re : Re) (sh : Shell) (cfg : Config) (tool : String)
    (args : ToolArgs) (p : ShellParse) : Option Verdict := do
  let results ← cfg.subcommandResults re tool args p.texts
  let origFull ← cfg.evaluateParamRulesOnly re tool args
  let canonFull ← cfg.canonFull re sh tool args
  let verdict := withFull (aggregate results) (origFull.toList ++ canonFull.toList)
  let verdict := withSink verdict (cfg.interpreterSink.getD true && p.hasInterpreterSink)
  return applyShellAstFloor verdict (shellAstFloor (some p) (cfg.unknownStructure.getD true))

/-- `evaluate_tiered_policy`; nothing where it raises. -/
def Config.evaluate (re : Re) (sh : Shell) (cfg : Config) (tool : String) (args : ToolArgs) :
    Option Verdict :=
  match cfg.baseline tool with
  | some (.deny, rule) => some (.deny, rule)
  | _ =>
    let hits := cfg.wholeOverrideHits re sh tool args
    if hits ≠ [] then some (overrideVerdict hits)
    else
      match cfg.shellParse sh tool args with
      | none => cfg.evaluateSingleInvocation re tool args
      | some p =>
        if p.kind = .simple then cfg.evaluateSubcommands re sh tool args p
        else (cfg.evaluateSingleInvocation re tool (sh.canonArgs args)).map fun verdict =>
          applyShellAstFloor verdict
            (shellAstFloor (some p) (cfg.unknownStructure.getD true))

end JiuwenSpec.Permission

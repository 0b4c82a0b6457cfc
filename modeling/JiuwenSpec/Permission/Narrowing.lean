import JiuwenSpec.Permission.ToolPolicy

/-!
# Narrowing of a member's permissions

A member may be given stricter levels for single tools. They are merged into the base section:
each tool of the override gets the stricter of its base level and the level asked for, and the
rest of the section stays as it is.
Source: `security/narrowing.py`.
-/

namespace JiuwenSpec.Permission

open Base

/-- What `tools` holds under a name. -/
inductive ToolEntry where
  | text (value : String)
  | null
  | table (star : Option String)
  | other

/-- What `defaults` holds under a name: a string, or another value, by its truth. -/
inductive DefaultEntry where
  | text (value : String)
  | falsy
  | truthy

/-- A part of the section: missing, a dictionary, or a value of another type. -/
inductive Part (α : Type) where
  | missing
  | dict (entries : Dict String α)
  | other

def Part.get? {α : Type} (part : Part α) (key : String) : Option α :=
  match part with
  | .dict entries => entries.get? key
  | _ => none

/-- The permissions section, with `tools` and `defaults` as they are written. -/
structure PermissionSection where
  tools : Part ToolEntry := .missing
  defaults : Part DefaultEntry := .missing
  rules : List Rule := []
  approvalOverrides : List Rule := []
  shellTools : List String := []
  unknownStructure : Option Bool := none
  interpreterSink : Option Bool := none

def ToolEntry.baseline : ToolEntry → Baseline
  | text value => .level value
  | null => .other
  | table star => .levels star
  | other => .other

def Part.baselines (tools : Part ToolEntry) : Dict String Baseline :=
  match tools with
  | .dict entries => entries.mapValues fun _ e => e.baseline
  | _ => Dict.empty

/-- The default as the evaluator reads it: the string under `*`. -/
def Part.star (defaults : Part DefaultEntry) : Option String :=
  match defaults.get? "*" with
  | some (.text value) => some value
  | _ => none

def PermissionSection.config (p : PermissionSection) : Config where
  tools := p.tools.baselines
  default := p.defaults.star
  rules := p.rules
  approvalOverrides := p.approvalOverrides
  shellTools := p.shellTools
  unknownStructure := p.unknownStructure
  interpreterSink := p.interpreterSink

/-- `PermissionLevel(value)`; nothing where it raises. -/
def permissionLevel (value : String) : Option Level :=
  if value = "deny" then some .deny else if value = "ask" then some .ask
    else if value = "allow" then some .allow else none

/-- `value` of a level. -/
def Level.value : Level → String
  | deny => "deny"
  | ask => "ask"
  | allow => "allow"

def DefaultEntry.isTruthy : DefaultEntry → Bool
  | text value => value ≠ ""
  | falsy => false
  | truthy => true

/-- `defaults.get(tool_name) or defaults.get("*")`, where it is truthy. -/
def Part.defaultStr (defaults : Part DefaultEntry) (tool : String) : Option DefaultEntry :=
  match (defaults.get? tool).filter DefaultEntry.isTruthy with
  | some e => some e
  | none => (defaults.get? "*").filter DefaultEntry.isTruthy

/-- `_parse_level` of a default; nothing where it raises. -/
def DefaultEntry.parseLevel : DefaultEntry → Option Level
  | text value => Permission.parseLevel value
  | _ => none

/-- `_parse_level` of what `tools` holds; nothing where it raises. A value that is no string has
no `strip`, and a falsy one stands for the empty string, which is no level. -/
def ToolEntry.parseLevel : ToolEntry → Option Level
  | text value => Permission.parseLevel value
  | _ => none

def Part.defaultLevel (defaults : Part DefaultEntry) (tool : String) : Option Level :=
  match defaults with
  | .other => none
  | _ =>
    match defaults.defaultStr tool with
    | some e => e.parseLevel
    | none => some .ask

def baseLevel (tools : Dict String ToolEntry) (defaults : Part DefaultEntry) (tool : String) :
    Option Level :=
  match tools.get? tool with
  | none => defaults.defaultLevel tool
  | some .null => defaults.defaultLevel tool
  | some e => e.parseLevel

def narrowTools (defaults : Part DefaultEntry) :
    List (String × String) → Dict String ToolEntry → Option (Dict String ToolEntry)
  | [], tools => some tools
  | (tool, value) :: items, tools => do
    let override ← permissionLevel value
    let base ← baseLevel tools defaults tool
    narrowTools defaults items (tools.set tool (.text (strictest [base, override]).value))

/-- `narrow_permissions`; nothing where it raises. -/
def PermissionSection.narrow (p : PermissionSection) (override : Dict String String) :
    Option PermissionSection :=
  match p.tools with
  | .missing => (narrowTools p.defaults override.entries Dict.empty).map fun tools =>
      { p with tools := .dict tools }
  | .dict tools => (narrowTools p.defaults override.entries tools).map fun tools =>
      { p with tools := .dict tools }
  | .other => if override.entries = [] then some p else none

/-- Narrowing succeeds, no call is judged more loosely than before, and a tool that the override
denies is denied. -/
def PermissionSection.Tightens (re : Re) (sh : Shell) (p : PermissionSection)
    (override : Dict String String) : Prop :=
  ∃ p', p.narrow override = some p' ∧
    (∀ tool args v, p.config.evaluate re sh tool args = some v →
      ∃ v', p'.config.evaluate re sh tool args = some v' ∧ v'.1.order ≤ v.1.order) ∧
    ∀ tool args, override.get? tool = some "deny" →
      ∃ rule, p'.config.evaluate re sh tool args = some (.deny, rule)

/-- The default that the evaluator knows: the level under `*`, or to ask. -/
def Part.wildcard (defaults : Part DefaultEntry) : Level :=
  (defaults.star.bind parseLevel).getD .ask

/-- The override gives the tool a level, the base section has one for it or none at all, and where
it has none, what the defaults say of the tool is no looser than what the evaluator reads there,
or the override is not. -/
def Narrowable (tools : Part ToolEntry) (defaults : Part DefaultEntry) (tool value : String) :
    Prop :=
  ∃ level, permissionLevel value = some level ∧
    match tools with
    | .other => False
    | _ =>
      match tools.get? tool with
      | some (.text v) => parseLevel v ≠ none
      | some (.table _) => False
      | some .other => False
      | _ =>
        match defaults with
        | .other => False
        | _ =>
          match defaults.defaultStr tool with
          | none => True
          | some (.text v) => ∃ l, parseLevel v = some l ∧
              (l.order ≤ defaults.wildcard.order ∨ level.order ≤ defaults.wildcard.order)
          | some _ => False

end JiuwenSpec.Permission

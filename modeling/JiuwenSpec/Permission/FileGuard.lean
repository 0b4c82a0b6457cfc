import JiuwenSpec.Permission.TrustedDirectory

/-!
# The file guard

A permissions section is compiled to rules for paths: entries of its own, the workspace, trusted
directories and the older external directories, in an order that depends on the mode. An access is
judged by the first rule with the longest prefix together with the globs that match. Allowing an
access for ever writes an entry for its path. Source: `fileguard/file_guard.py`,
`approve/persist_rule_merge.py`.
-/

namespace JiuwenSpec.Permission

open Base

/-- `FileGuardAction`. -/
inductive PathAction where
  | read
  | write
  | exec
  deriving DecidableEq

inductive RawValue where
  | text (s : String)
  | other
  deriving DecidableEq

structure Axes where
  read : Level
  write : Level
  exec : Level
  deriving DecidableEq

/-- `_level_for_action`. -/
def Axes.level (axes : Axes) : PathAction → Level
  | .read => axes.read
  | .write => axes.write
  | .exec => axes.exec

/-- `FileGuardPathRule`. -/
structure PathRule where
  path : String
  axes : Axes
  isGlob : Bool
  deriving DecidableEq

structure RawAxes where
  read : Option RawValue := none
  write : Option RawValue := none
  exec : Option RawValue := none
  deriving DecidableEq

/-- An entry of `file_guard.paths`: its path and its values, and `match` where it is there. -/
structure PathItem where
  path : String
  axes : RawAxes
  kind : Option String := none

/-- `file_guard`. -/
structure GuardSection where
  enabled : Option Bool := none
  defaults : RawAxes := {}
  workspace : RawAxes := {}
  paths : List PathItem := []

/-- `external_directory`. -/
inductive External where
  | missing
  | text (s : String)
  | entries (es : List (String × RawValue))

structure Permissions where
  guard : GuardSection := {}
  external : External := .missing

/-- `_posix_norm` of `_expand_raw`, on a path without space at its ends. -/
structure FileSystem where
  normalized : String → String

/-- `_parse_level`. -/
def parseRaw : Option RawValue → Level
  | some (.text s) => (parseLevel s).getD .ask
  | _ => .ask

def applyImplications (axes : Axes) : Axes :=
  if axes.write = .allow ∨ axes.exec = .allow then
    if axes.read = .deny then axes else { axes with read := .allow }
  else axes

def compileAxes (raw : RawAxes) : Axes :=
  applyImplications ⟨parseRaw raw.read, parseRaw raw.write, parseRaw raw.exec⟩

def compilePathEntry (fs : FileSystem) (pathRaw : String) (raw : RawAxes) (isGlob : Bool) :
    Option PathRule :=
  let path := strip pathRaw
  if path = "" ∨ path = "*" then none
  else if isGlob then some ⟨path, compileAxes raw, true⟩
  else if '/' ∈ (rstripSlash (slashes path)).toList ∧
      '/' ∈ (rstripSlash (fs.normalized path)).toList then
    some ⟨fs.normalized path, compileAxes raw, false⟩
  else none

/-- `_has_axis_dict`. -/
def RawAxes.present (raw : RawAxes) : Bool :=
  raw.read.isSome || raw.write.isSome || raw.exec.isSome

/-- `match` is `glob`. -/
def PathItem.isGlob (item : PathItem) : Bool := item.kind = some "glob"

def External.present : External → Bool
  | .missing => false
  | .text s => s ≠ ""
  | .entries es => es ≠ []

/-- `_has_native_file_guard`. -/
def Permissions.native (perms : Permissions) : Bool :=
  perms.guard.defaults.present || perms.guard.workspace.present ||
    (perms.guard.paths ≠ [] &&
      (perms.guard.paths.any (·.isGlob) || !perms.external.present))

def allowedAxes : RawAxes := ⟨some (.text "allow"), some (.text "allow"), some (.text "ask")⟩

def sameAxes (value : RawValue) : RawAxes := ⟨some value, some value, some value⟩

def isAction (value : RawValue) : Bool :=
  value = .text "allow" || value = .text "ask" || value = .text "deny"

/-- The value under `*`, `ask` where it is missing. -/
def starAction (es : List (String × RawValue)) : RawValue :=
  ((es.find? (·.1 = "*")).map (·.2)).getD (.text "ask")

def externalRule (fs : FileSystem) (e : String × RawValue) : Option PathRule :=
  if e.1 = "*" ∨ isAction e.2 = false then none
  else compilePathEntry fs e.1 (if e.2 = .text "allow" then allowedAxes else sameAxes e.2) false

def trustedRules (fs : FileSystem) (trustedDirs : List String) : List PathRule :=
  trustedDirs.filterMap fun dir => compilePathEntry fs dir allowedAxes false

/-- The rule of an entry of `file_guard.paths`, in legacy mode. -/
def legacyRule (fs : FileSystem) (item : PathItem) : Option PathRule :=
  if item.isGlob then none
  else compilePathEntry fs item.path
    ⟨item.axes.read.or (some (.text "allow")), item.axes.write.or (some (.text "allow")),
      item.axes.exec.or (some (.text "ask"))⟩ false

/-- The rule of an entry of `file_guard.paths`, in native mode. -/
def nativeRule (fs : FileSystem) (item : PathItem) : Option PathRule :=
  compilePathEntry fs item.path item.axes item.isGlob

def legacyExternal (fs : FileSystem) : External → List PathRule
  | .entries es => es.filterMap (externalRule fs)
  | _ => []

/-- The rules before the entries in legacy mode: the workspace, trusted and external directories. -/
def legacyFirst (fs : FileSystem) (external : External) (workspaceRoot : Option String)
    (trustedDirs : List String) : List PathRule :=
  (workspaceRoot.bind fun root =>
    compilePathEntry fs root (sameAxes (.text "allow")) false).toList ++
    trustedRules fs trustedDirs ++ legacyExternal fs external

def nativeExternal (fs : FileSystem) (existing : List PathRule) : External → List PathRule
  | .entries es => es.filterMap fun e =>
    if fs.normalized (strip e.1) ∈ (existing.filter (!·.isGlob)).map (·.path) then none
    else externalRule fs e
  | _ => []

/-- The rules behind the entries in native mode: the workspace and trusted directories. -/
def nativeOwn (fs : FileSystem) (workspace : RawAxes) (workspaceRoot : Option String)
    (trustedDirs : List String) : List PathRule :=
  (if workspace.present then
    workspaceRoot.bind fun root => compilePathEntry fs root workspace false else none).toList ++
    trustedRules fs trustedDirs

/-- `_normalize_legacy` and `_normalize_native`, the rules. -/
def Permissions.rules (fs : FileSystem) (perms : Permissions) (workspaceRoot : Option String)
    (trustedDirs : List String) : List PathRule :=
  if perms.native then
    let own := perms.guard.paths.filterMap (nativeRule fs) ++
      nativeOwn fs perms.guard.workspace workspaceRoot trustedDirs
    own ++ nativeExternal fs own perms.external
  else
    legacyFirst fs perms.external workspaceRoot trustedDirs ++
      perms.guard.paths.filterMap (legacyRule fs)

def axisFromStar (value : RawValue) : Axes :=
  ⟨parseRaw (some value), parseRaw (some value), parseRaw (some value)⟩

def Permissions.defaults (perms : Permissions) : Axes :=
  if perms.native && perms.guard.defaults.present then
    ⟨parseRaw perms.guard.defaults.read, parseRaw perms.guard.defaults.write,
      parseRaw perms.guard.defaults.exec⟩
  else
    match perms.external with
    | .missing => axisFromStar (.text "ask")
    | .text s => axisFromStar (.text s)
    | .entries es => axisFromStar (starAction es)

def Permissions.enabled (perms : Permissions) (trustedDirs : List String) : Bool :=
  perms.guard.enabled.getD (perms.external.present || trustedDirs ≠ [])

inductive GlobPart where
  | directories
  | anything
  | segment
  | one
  | char (c : Char)

def globParts : List Char → List GlobPart
  | '*' :: '*' :: '/' :: rest => .directories :: globParts rest
  | '*' :: '*' :: rest => .anything :: globParts rest
  | '*' :: rest => .segment :: globParts rest
  | '?' :: rest => .one :: globParts rest
  | c :: rest => .char c :: globParts rest
  | [] => []

def cuts (text : List Char) : List (List Char × List Char) :=
  (List.range (text.length + 1)).map fun n => (text.take n, text.drop n)

def globMatches : List GlobPart → List Char → Bool
  | [], text => text.isEmpty
  | .char c :: parts, text => text.head? = some c && globMatches parts text.tail
  | .one :: parts, text =>
    (match text.head? with
      | some c => c ≠ '/'
      | none => false) && globMatches parts text.tail
  | .segment :: parts, text =>
    (cuts text).any fun cut => cut.1.all (· ≠ '/') && globMatches parts cut.2
  | .anything :: parts, text =>
    (cuts text).any fun cut => cut.1.all (· ≠ '\n') && globMatches parts cut.2
  | .directories :: parts, text =>
    globMatches parts text || (cuts text).any fun cut =>
      cut.1.getLast? = some '/' && cut.1.all (· ≠ '\n') && globMatches parts cut.2

def matchGlob (pattern path : String) : Bool :=
  globMatches (globParts pattern.toList) path.toList

def PathRule.base (rule : PathRule) : String := rstripSlash rule.path

def isUnder (base path : String) : Bool :=
  path = base || (base.toList ++ ['/']).isPrefixOf path.toList

def PathRule.covers (rule : PathRule) (path : String) : Bool :=
  !rule.isGlob && isUnder rule.base path

def better (best : Option PathRule) (rule : PathRule) : Option PathRule :=
  match best with
  | none => some rule
  | some b => if b.base.length < rule.base.length then some rule else some b

def bestPrefix (rules : List PathRule) (path : String) : Option PathRule :=
  rules.foldl (fun best rule => if rule.covers path then better best rule else best) none

def globHits (rules : List PathRule) (path : String) (action : PathAction) : List Level :=
  (rules.filter fun rule => rule.isGlob && matchGlob (slashes rule.path) path).map
    fun rule => rule.axes.level action

/-- The strictest candidate, or the default where there is none. -/
def decideLevel (defaults : Axes) (best : Option PathRule) (globs : List Level)
    (action : PathAction) : Level :=
  match (best.map fun rule => rule.axes.level action).toList ++ globs with
  | [] => defaults.level action
  | candidates => strictest candidates

/-- `FileGuardChecker._resolve_one`. -/
def resolveOne (defaults : Axes) (rules : List PathRule) (path : String) (action : PathAction) :
    Level :=
  decideLevel defaults (bestPrefix rules path) (globHits rules path action) action

def Permissions.levelOf (fs : FileSystem) (perms : Permissions) (workspaceRoot : Option String)
    (trustedDirs : List String) (path : String) (action : PathAction) : Level :=
  resolveOne perms.defaults (perms.rules fs workspaceRoot trustedDirs) path action

/-- `_axes_for_file_guard_action`. -/
def axesForAction : PathAction → RawAxes
  | .read => ⟨some (.text "allow"), some (.text "ask"), some (.text "ask")⟩
  | .write => ⟨some (.text "allow"), some (.text "allow"), some (.text "ask")⟩
  | .exec => ⟨some (.text "allow"), some (.text "ask"), some (.text "allow")⟩

/-- `_escalate_axis_toward_allow`. -/
def escalate (old new : Option RawValue) : Option RawValue :=
  if new = some (.text "allow") then new
  else
    match old with
    | some value => if isAction value then some value else new
    | none => new

def raiseAxes (old new : RawAxes) : RawAxes :=
  ⟨escalate old.read new.read, escalate old.write new.write, escalate old.exec new.exec⟩

/-- `existing.get("match", "prefix") or match`. -/
def mergedKind (kind : Option String) : String :=
  if kind.getD "prefix" = "" then "prefix" else kind.getD "prefix"

def mergeItem (path : String) (axes : RawAxes) (item : PathItem) : PathItem :=
  if item.axes = raiseAxes item.axes axes ∧ item.kind.getD "prefix" = mergedKind item.kind then item
  else ⟨path, raiseAxes item.axes axes, some (mergedKind item.kind)⟩

def mergeItems (path : String) (axes : RawAxes) : List PathItem → List PathItem
  | [] => [⟨path, axes, some "prefix"⟩]
  | item :: items =>
    if rstripSlash (slashes item.path) = path then mergeItem path axes item :: items
    else item :: mergeItems path axes items

/-- `merge_file_guard_path_rule`. -/
def mergePathRule (perms : Permissions) (path : String) (axes : RawAxes) : Permissions :=
  if rstripSlash (slashes path) = "" then perms
  else { perms with guard := { perms.guard with
    enabled := some true
    paths := mergeItems (rstripSlash (slashes path)) axes perms.guard.paths } }

/-- `merge_file_guard_access_allows`. -/
def mergeAccessAllows (perms : Permissions) (accesses : List (String × PathAction)) :
    Permissions :=
  accesses.foldl (fun perms access =>
    if strip access.1 = "" then perms
    else mergePathRule perms access.1 (axesForAction access.2)) perms

end JiuwenSpec.Permission

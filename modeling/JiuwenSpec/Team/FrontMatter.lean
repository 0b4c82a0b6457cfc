import JiuwenSpec.Base.Assoc
import JiuwenSpec.Base.TextLines
import JiuwenSpec.Base.Run

/-!
# Value files of a team's workspace

A value file is a YAML block and a body. The framework writes the hash of the body into the block;
the file has evolved where the hash of its body is another one, which the evolution party causes by
editing the body, or where there is no hash.
Source: `team_workspace/frontmatter.py`, `file_content.py`, `workspace_store.py`,
`workspace_cache.py`.
-/

namespace JiuwenSpec.Workspace

open Base

inductive Value where
  | null
  | bool (value : Bool)
  | int (value : Int)
  | text (value : Text)
  | other (tag : Nat) (truthy : Bool)
  deriving DecidableEq

abbrev Meta := List (Text × Value)

/-- What `yaml.safe_load` returns: something falsy, a mapping, or another value. -/
inductive Document where
  | falsy
  | mapping (entries : Meta)
  | other

/-- The YAML library and the hash: `yaml.safe_load`, which is nothing where it raises,
`yaml.safe_dump` as it is called here, and `sha256` with its digits. -/
structure Library where
  safeLoad : Text → Option Document
  safeDump : Meta → Text
  sha256 : Text → Text

/-- `_FRONTMATTER_DELIM`. -/
def delim : Text := "---".toList

/-- `meta.get(key)`, where it is not `None`. -/
def metaGet? (entries : Meta) (key : Text) : Option Value :=
  match assocGet? key entries with
  | some .null => none
  | v => v

def isEvolved (lib : Library) (entries : Meta) (body : Text) : Bool :=
  match metaGet? entries "baseline_sha256".toList with
  | none => true
  | some baseline => Value.text (lib.sha256 body) ≠ baseline

/-- `read_frontmatter`; nothing where it raises `ValueError`. -/
def readFrontmatter (lib : Library) (text : Text) : Option (Meta × Text) :=
  if ¬ delim <+: text then some ([], text)
  else
    let lines := splitLines text
    if lines.length < 2 then some ([], text)
    else
      match lines.tail.findIdx? (strip · = delim) with
      | none => some ([], text)
      | some idx =>
        let metaText := ['\n'].intercalate (lines.tail.take idx)
        let body := ((splitLinesKeep text).drop (idx + 2)).flatten
        match lib.safeLoad metaText with
        | none => none
        | some .falsy => some ([], body)
        | some (.mapping entries) => some (entries, body)
        | some .other => none

def writeFrontmatter (lib : Library) (entries : Meta) (body : Text) : Text :=
  delim ++ '\n' :: strip (lib.safeDump entries) ++ '\n' :: delim ++ '\n' :: body

/-- `bool(value)`. -/
def Value.truthy : Value → Bool
  | null => false
  | bool value => value
  | int value => value ≠ 0
  | text value => value ≠ []
  | other _ truthy => truthy

/-- `value`, where it is an integer of at least zero; the truth values are integers. -/
def Value.timestamp? : Value → Option Int
  | bool value => some (if value then 1 else 0)
  | int value => if 0 ≤ value then some value else none
  | _ => none

structure FileContent where
  kind : Value
  name : Value
  language : Value
  baseline : Option Value
  updatedAt : Int
  body : Text
  evolved : Bool
  updatedAtPresent : Bool := true

/-- `FileContent.is_evolved`. -/
def FileContent.isEvolved (lib : Library) (content : FileContent) : Bool :=
  match content.baseline with
  | none => true
  | some baseline => Value.text (lib.sha256 content.body) ≠ baseline

def contentOf (entries : Meta) (body : Text) (updatedAt : Int) (present : Bool) : FileContent where
  kind := (assocGet? "kind".toList entries).getD (.text [])
  name := (assocGet? "name".toList entries).getD (.text [])
  language := (assocGet? "language".toList entries).getD (.text [])
  baseline := metaGet? entries "baseline_sha256".toList
  updatedAt := updatedAt
  body := body
  evolved := ((assocGet? "evolved".toList entries).getD (.bool false)).truthy
  updatedAtPresent := present

/-- What `parse_file_content` makes of a file. -/
inductive Parsed where
  | missing
  | malformed
  | content (c : FileContent)

/-- `parse_file_content`; the file is read with universal newlines. -/
def parseFileContent (lib : Library) (file : Option Text) : Parsed :=
  match file with
  | none => .missing
  | some raw =>
    let text := universalNewlines raw
    match readFrontmatter lib text with
    | none => .malformed
    | some (entries, body) =>
      match (assocGet? "updated_at".toList entries).bind Value.timestamp? with
      | some updatedAt =>
        if delim <+: text then .content (contentOf entries body updatedAt true)
        else .content (contentOf entries body 0 false)
      | none => .content (contentOf entries body 0 false)

def evolvedContent (lib : Library) (file : Option Text) : Option FileContent :=
  match parseFileContent lib file with
  | .content c => if c.isEvolved lib then some c else none
  | _ => none

/-- `_read_body`: the body where the file has evolved, else the value of the database stands. -/
def readBody (lib : Library) (file : Option Text) : Option Text :=
  (evolvedContent lib file).map FileContent.body

def baselineMeta (lib : Library) (kind name text : Text) (ts : Int) : Meta :=
  [("kind".toList, .text kind), ("name".toList, .text name),
    ("baseline_sha256".toList, .text (lib.sha256 text)), ("evolved".toList, .bool false),
    ("updated_at".toList, .int ts)]

/-- The four writers, for a kind and a name: the file after it and the content that is returned.
`io` says whether the write of the file succeeds. -/
def writeValue (lib : Library) (kind name : Text) (file : Option Text) (text : Text) (ts : Int)
    (io : Bool) : Option Text × Option FileContent :=
  if text = [] then (file, none)
  else
    match evolvedContent lib file with
    | some content => (file, some content)
    | none =>
      let entries := baselineMeta lib kind name text ts
      (if io then some (writeFrontmatter lib entries text) else file,
        some (contentOf entries text ts true))

def writeMemberPrompt (lib : Library) := writeValue lib "prompt".toList "member_prompt".toList

def writeCard (lib : Library) := writeValue lib "card".toList "member_card".toList

def writeTeamPrompt (lib : Library) := writeValue lib "prompt".toList "team_prompt".toList

def writeTeamCard (lib : Library) := writeValue lib "team_card".toList "team_card".toList

/-- `stamp_member_prompt_updated_at` and `stamp_team_updated_at`, as far as they write the file. -/
def stampUpdatedAt (lib : Library) (file : Option Text) (ts : Int) (io : Bool) : Option Text :=
  match file with
  | none => none
  | some raw =>
    match readFrontmatter lib (universalNewlines raw) with
    | none => some raw
    | some (entries, body) =>
      if io then some (writeFrontmatter lib (assocSet "updated_at".toList (.int ts) entries) body)
      else some raw

/-- Another party replaces the body of a file, behind its block, or the file where it has none. -/
def replaceBody (lib : Library) (raw : Text) (body : Text) : Text :=
  match readFrontmatter lib raw with
  | none => body
  | some (_, old) => raw.take (raw.length - old.length) ++ body

/-- Whose text a file holds: what only the framework has written, the body of another party, or
what an edit has left that does not count as a value: a malformed block, or a body with its own
hash in the block. -/
inductive Author where
  | framework
  | other (body : Text)
  | invalid
  deriving DecidableEq

structure State where
  file : Option Text := none
  author : Author := .framework

inductive Op where
  | write (text : Text) (ts : Int) (io : Bool)
  | stamp (ts : Int) (io : Bool)
  | editBody (body : Text)
  | editFile (text : Text)

def editor (lib : Library) (file : Text) : Author :=
  match readFrontmatter lib (universalNewlines file) with
  | none => .invalid
  | some (entries, body) => if isEvolved lib entries body then .other body else .invalid

def step (lib : Library) (kind name : Text) (s : State) : Op → State
  | .write text ts io =>
    { file := (writeValue lib kind name s.file text ts io).1
      author := if text ≠ [] ∧ io ∧ evolvedContent lib s.file = none then .framework
        else s.author }
  | .stamp ts io => { s with file := stampUpdatedAt lib s.file ts io }
  | .editBody body =>
    match s.file with
    | none => { file := some body, author := editor lib body }
    | some raw =>
      { file := some (replaceBody lib raw body), author := editor lib (replaceBody lib raw body) }
  | .editFile text => { file := some text, author := editor lib text }

/-- The YAML text of a block reads back as the block, and none of its lines reads as the
delimiter. -/
def Clean (lib : Library) (entries : Meta) : Prop :=
  ∃ lines : List Text, lines ≠ [] ∧ strip (lib.safeDump entries) = ['\n'].intercalate lines ∧
    (∀ line ∈ lines, (∀ c ∈ line, ¬ IsLineBreak c) ∧ strip line ≠ delim) ∧
      lib.safeLoad (['\n'].intercalate lines) = some (.mapping entries)

/-- A step of the framework on texts that its files keep: a text without carriage returns, and a
block whose YAML text reads back. -/
def Regular (lib : Library) (kind name : Text) (s : State) : Op → Prop
  | .write text ts _ => '\r' ∉ text ∧ Clean lib (baselineMeta lib kind name text ts)
  | .stamp ts _ => ∀ raw entries body, s.file = some raw →
      readFrontmatter lib (universalNewlines raw) = some (entries, body) →
        Clean lib (assocSet "updated_at".toList (.int ts) entries)
  | _ => True

end JiuwenSpec.Workspace

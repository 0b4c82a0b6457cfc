import JiuwenSpec.Base.JsonRoundTrip
import JiuwenSpec.Base.TextLines

/-!
# The resume journal

The two files of a run and the records in them: the write-ahead log, one line appended for each
fresh record, and the journal proper, written in program order. Both are read back line by line.
Source: `agent_teams/workflow/engine/journal.py`.
-/

namespace JiuwenSpec.Swarm

open Base List

/-- What stands behind the kind of a path segment. -/
inductive Coord where
  | index (n : Nat)
  | name (text : Text)
  deriving DecidableEq

/-- A path segment: `("call", n)`, `("par", k, i)`, `("pipe", k, i, s)`, `("wf", k, name)`, or
the `__run__` one of a run-level record. -/
structure Segment where
  kind : Text
  coords : List Coord
  deriving DecidableEq

def Coord.json : Coord → Json
  | .index n => .number (Numeral.ofNat n)
  | .name text => .string text

def Segment.json (segment : Segment) : Json :=
  .array (.string segment.kind :: segment.coords.map Coord.json)

/-- `key_str`: the text of a path. -/
def keyStr (path : List Segment) : Text := dumps (.array (path.map Segment.json))

/-- The integers among the items of a segment; `True` and `False` are integers. -/
def integers (items : List Json) : List Int :=
  items.filterMap fun item =>
    match item with
    | .number numeral => numeral.int?
    | .literal .true => some 1
    | .literal .false => some 0
    | _ => none

/-- `seg[1:]`, and the integers in it; `none` where a `TypeError` is raised. -/
def segmentOrder : Json → Option (List Int)
  | .array items => some (integers (items.drop 1))
  | .string _ => some []
  | _ => none

/-- `_program_order`; `none` where a `TypeError` is raised. -/
def programOrder (key : Text) : Option (List Int) :=
  match loads key with
  | none => some []
  | some (.array segments) => (segments.mapM segmentOrder).map List.flatten
  | some (.string _) => some []
  | some (.object _) => some []
  | some _ => none

def orderLe : List Int → List Int → Bool
  | [], _ => true
  | _ :: _, [] => false
  | a :: as, b :: bs => a < b || (a == b && orderLe as bs)

private theorem itemsApart_coords (coords : List Coord) :
    Json.ItemsApart (coords.map Coord.json) := by
  induction coords with
  | nil => trivial
  | cons coord coords ih =>
    cases coord
    all_goals exact ⟨trivial, ih⟩

theorem keysApart_path (path : List Segment) :
    (Json.array (path.map Segment.json)).KeysApart := by
  show Json.ItemsApart (path.map Segment.json)
  induction path with
  | nil => trivial
  | cons segment path ih =>
    have hkind : (Json.string segment.kind).KeysApart := trivial
    exact ⟨⟨hkind, itemsApart_coords segment.coords⟩, ih⟩

theorem programOrder_keyStr (path : List Segment) : (programOrder (keyStr path)).isSome := by
  have hload : loads (keyStr path) = some (.array (path.map Segment.json)) :=
    loads_dumps (keysApart_path path)
  have hsegments : ((path.map Segment.json).mapM segmentOrder).isSome := by
    clear hload
    induction path with
    | nil => rfl
    | cons segment path ih =>
      obtain ⟨orders, horders⟩ := Option.isSome_iff_exists.mp ih
      rw [map_cons, mapM_cons, horders]
      rfl
  rw [programOrder, hload]
  simpa using hsegments

def keyName : Text := ['k', 'e', 'y']

/-- `rec["key"]`, where it is a string, as every writer makes it. -/
def keyOf : List (Text × Json) → Option Text
  | [] => none
  | (name, value) :: members =>
    if name = keyName then
      match value with
      | .string key => some key
      | _ => none
    else keyOf members

/-- A record: a dictionary with its structural key under `key`. -/
structure Record where
  members : List (Text × Json)
  apart : (Json.object members).KeysApart
  key : Text
  keyed : keyOf members = some key

namespace Record

@[ext] theorem ext {r s : Record} (h : r.members = s.members) : r = s := by
  obtain ⟨ms, apart, key, keyed⟩ := r
  obtain ⟨ms', apart', key', keyed'⟩ := s
  obtain rfl : ms = ms' := h
  obtain rfl : key = key' := Option.some.inj (keyed.symm.trans keyed')
  rfl

def json (r : Record) : Json := .object r.members

def line (r : Record) : Text := dumps r.json

end Record

/-- `json.loads` of a line, where that is a dictionary with a `key`. -/
def readRecord (line : Text) : Option Record :=
  match hload : loads line with
  | some (.object members) =>
    match hkey : keyOf members with
    | some key => some ⟨members, loads_keysApart hload, key, hkey⟩
    | none => none
  | _ => none

/-- One round of the loop in `_parse_records`. -/
def parseLine (line : Text) : Option Record :=
  if strip line = [] then none else readRecord (strip line)

def parseRecords (text : Text) : List Record := (splitLines text).filterMap parseLine

/-- A text file read as UTF-8; `none` where a `UnicodeDecodeError` is raised. Newlines are
translated on the way, which moves no line boundary. -/
def readText (file : ByteArray) : Option Text := file.utf8Decode?.map Array.toList

def writeText (text : Text) : ByteArray := (String.ofList text).toByteArray

@[simp] theorem readText_writeText (text : Text) : readText (writeText text) = some text := by
  rw [readText, writeText, String.toByteArray_ofList, utf8Decode?_utf8Encode]
  rfl

theorem writeText_append (a b : Text) : writeText (a ++ b) = writeText a ++ writeText b := by
  rw [writeText, writeText, writeText, String.toByteArray_ofList, String.toByteArray_ofList,
    String.toByteArray_ofList, utf8Encode_append]

/-- `prior[rec["key"]] = rec`, record by record. -/
def overlay (prior : Dict Text Record) (records : List Record) : Dict Text Record :=
  records.foldl (fun prior r => prior.set r.key r) prior

/-- The files `load` may find: the shared journal of earlier versions with its log, the journal
of the run with its own. -/
structure JournalFiles where
  legacy : Option ByteArray := none
  legacyWal : Option ByteArray := none
  journal : Option ByteArray := none
  wal : Option ByteArray := none

/-- `Journal.load`: the records seeding a run; `none` where it raises. -/
def load (files : JournalFiles) : Option (Dict Text Record) :=
  [files.legacy, files.legacyWal, files.journal, files.wal].foldlM
    (fun prior source =>
      match source with
      | none => some prior
      | some file => (readText file).map fun text => overlay prior (parseRecords text))
    Dict.empty

/-- `Journal`: the records used in this run, and the log they went to. -/
structure Journal where
  used : Dict Text Record := Dict.empty
  wal : ByteArray := ByteArray.empty

/-- What `_append_wal` writes for a record. -/
def walLine (r : Record) : Text := r.line ++ ['\n']

namespace Journal

/-- `use`, for a fresh record. -/
def use (j : Journal) (r : Record) : Journal where
  used := j.used.set r.key r
  wal := j.wal ++ writeText (walLine r)

/-- `save`: the bytes of the journal file; `none` where sorting the keys raises. -/
def save (j : Journal) : Option ByteArray := do
  let ordered ← j.used.entries.mapM fun e => (programOrder e.1).map fun order => (order, e.2)
  let records := (ordered.mergeSort fun a b => orderLe a.1 b.1).map Prod.snd
  let lines := records.map Record.line
  return writeText (if lines = [] then [] else ['\n'].intercalate lines ++ ['\n'])

end Journal

end JiuwenSpec.Swarm

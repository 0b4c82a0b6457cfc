import JiuwenSpec.Base.Run
import JiuwenSpec.Base.TextLines
import Mathlib.Data.List.Sort

/-!
# The guard of `write_file`

`read_file` counts the lines it renders, and merges them into ranges of lines that were read;
`write_file` overwrites a file whose ranges cover all lines. Each step of a call goes from one
access to the file to the next one; between two of them the file may be modified.
Source: `harness/tools/filesystem.py`.
-/

namespace JiuwenSpec.FileTools

open Base

/-- The order of two intervals as Python's tuples. -/
def IntervalLe (a b : Nat × Nat) : Prop := a.1 < b.1 ∨ a.1 = b.1 ∧ a.2 ≤ b.2

instance : DecidableRel IntervalLe := fun a b =>
  inferInstanceAs (Decidable (a.1 < b.1 ∨ a.1 = b.1 ∧ a.2 ≤ b.2))

/-- One interval of `_merge_range`; the last merged interval is the head. -/
def mergeStep (merged : List (Nat × Nat)) (interval : Nat × Nat) : List (Nat × Nat) :=
  match merged with
  | [] => [interval]
  | last :: rest =>
    if interval.1 ≤ last.2 + 1 then (last.1, max last.2 interval.2) :: rest
    else interval :: last :: rest

def mergeRange (ranges : List (Nat × Nat)) (new : Nat × Nat) : List (Nat × Nat) :=
  (((ranges ++ [new]).insertionSort IntervalLe).foldl mergeStep []).reverse

/-- The loop of `_ranges_cover`; `coveredTo` is what is covered so far. -/
def coverLoop (hi : Nat) : Nat → List (Nat × Nat) → Bool
  | coveredTo, [] => decide (hi ≤ coveredTo)
  | coveredTo, interval :: rest =>
    if coveredTo + 1 < interval.1 then false
    else if hi ≤ max coveredTo interval.2 then true
    else coverLoop hi (max coveredTo interval.2) rest

/-- `_ranges_cover`, for `lo ≥ 1`. -/
def rangesCover (ranges : List (Nat × Nat)) (lo hi : Nat) : Bool :=
  coverLoop hi (lo - 1) (ranges.insertionSort IntervalLe)

/-- `content.replace("\r\n", "\n")`. -/
def toLf : Text → Text
  | [] => []
  | '\r' :: '\n' :: rest => '\n' :: toLf rest
  | c :: rest => c :: toLf rest

def sizeBytes : Text → Nat
  | [] => 0
  | c :: rest => c.utf8Size + sizeBytes rest

def window (content : Text) (offset limit : Int) : List Text :=
  ((splitLines content).drop offset.toNat).take limit.toNat

def windowText (lines : List Text) : Text := lines.flatMap fun line => line ++ ['\n']

def isBlank (lines : List Text) : Bool := (strip (windowText lines)).isEmpty

/-- The lines of the answer: those of `_cat_n`, or the one of the warning. -/
def renderedCount (lines : List Text) : Nat :=
  if isBlank lines then 1 else (splitLines (windowText lines)).length

def shownCount (lines : List Text) : Nat := if isBlank lines then 0 else lines.length

/-- `st_mtime_ns` and `st_size`. -/
structure FileStamp where
  mtimeNs : Nat
  sizeBytes : Nat
deriving DecidableEq

structure FileReadState where
  stamp : FileStamp
  content : Option Text
  totalLines : Nat
  readRanges : List (Nat × Nat)

inductive ToolCall where
  | idle
  /-- `read_file` has taken the stamp. -/
  | reading (stamp : FileStamp) (offset limit : Int)
  | rendered (stamp : FileStamp) (offset : Int) (lineCount : Nat)
  /-- `write_file` has taken the stamp, and found all lines read. -/
  | writing (stamp : FileStamp) (content : Text)
  /-- It has found the file unchanged. -/
  | checked (content : Text)
  | written (content : Text)
deriving DecidableEq

/-- A text file and what is recorded of it. `seen` has the lines of the content that answers have
shown since it was made, and all of them where `write_file` made it; `lost` tells whether a write
has replaced a line that was not seen. -/
structure GuardedFile where
  content : Text
  mtimeNs : Nat
  readState : Option FileReadState
  call : ToolCall
  seen : List Nat
  lost : Bool

inductive FileOp where
  /-- The file is modified from outside. -/
  | modify (content : Text) (mtimeNs : Nat)
  /-- `read_file` takes the stamp. -/
  | statRead (offset : Int) (limit : Option Int)
  /-- It reads its lines and renders them; `ok` tells whether it raises, or exceeds a cap. -/
  | readText (ok : Bool)
  /-- `_record_read_state`; `ok` tells whether the raw text can be read. -/
  | recordReadState (ok : Bool)
  /-- `edit_file` replaces the content. -/
  | edit (content : Text) (mtimeNs : Nat)
  /-- `write_file` takes the stamp and looks the ranges up. -/
  | statWrite (content : Text)
  /-- It reads the content, and compares. -/
  | readExisting
  | write (mtimeNs : Nat)
  /-- It takes the stamp of what it wrote. -/
  | statAfter
  /-- A call ends without its next step. -/
  | failed

def maxLinesToRead : Int := 2000

namespace FileReadState

def isLogicallyComplete (st : FileReadState) : Bool :=
  (decide (st.stamp.sizeBytes = 0) && decide (st.content = some [])) ||
    (decide (0 < st.totalLines) && rangesCover st.readRanges 1 st.totalLines)

end FileReadState

namespace GuardedFile

def init (content : Text) (mtimeNs : Nat) : GuardedFile :=
  ⟨content, mtimeNs, none, .idle, [], false⟩

/-- `os.stat`. -/
def stamp (s : GuardedFile) : FileStamp := ⟨s.mtimeNs, sizeBytes s.content⟩

def allSeen (s : GuardedFile) : Bool :=
  (List.range (splitLines s.content).length).all fun i => s.seen.contains (i + 1)

def existing (s : GuardedFile) (stamp : FileStamp) : Option FileReadState :=
  s.readState.filter fun st => st.stamp = stamp

/-- `line_count` of the raw text, or zero without it. -/
def rawLineCount (s : GuardedFile) (ok : Bool) : Nat :=
  if ok then (splitLines s.content).length else 0

def totalLines (s : GuardedFile) (stamp : FileStamp) (ok : Bool) : Nat :=
  match s.existing stamp with
  | some st => if st.totalLines = 0 then s.rawLineCount ok else st.totalLines
  | none => s.rawLineCount ok

def readRanges (s : GuardedFile) (stamp : FileStamp) (offset : Int) (lineCount : Nat) :
    List (Nat × Nat) :=
  if lineCount = 0 then ((s.existing stamp).map FileReadState.readRanges).getD []
  else
    mergeRange (((s.existing stamp).map FileReadState.readRanges).getD [])
      (offset.toNat + 1, offset.toNat + lineCount)

/-- The raw text is read where the lines are counted, or all of them are read. -/
def rawContent (s : GuardedFile) (stamp : FileStamp) (total : Nat) (ranges : List (Nat × Nat))
    (ok : Bool) : Option Text :=
  if ok && (((s.existing stamp).map FileReadState.totalLines).getD 0 == 0 ||
      (decide (0 < total) && rangesCover ranges 1 total)) then
    some (toLf s.content)
  else none

def recordReadState (s : GuardedFile) (stamp : FileStamp) (offset : Int) (lineCount : Nat)
    (ok : Bool) : GuardedFile :=
  if stamp.mtimeNs = 0 then { s with call := .idle }
  else
    { s with
      call := .idle
      readState := some ⟨stamp,
        s.rawContent stamp (s.totalLines stamp ok) (s.readRanges stamp offset lineCount) ok,
        s.totalLines stamp ok, s.readRanges stamp offset lineCount⟩ }

def unchanged (s : GuardedFile) (stamp : FileStamp) (st : FileReadState) : Bool :=
  decide (st.stamp = stamp) || decide (st.content = some (toLf s.content))

def step (s : GuardedFile) : FileOp → GuardedFile
  | .modify content mtimeNs => { s with content, mtimeNs, seen := [] }
  | .statRead offset limit =>
    if s.call = .idle then
      { s with
        call := .reading s.stamp offset (min (limit.getD maxLinesToRead) maxLinesToRead) }
    else s
  | .readText ok =>
    match s.call with
    | .reading stamp offset limit =>
      if ok then
        { s with
          call := .rendered stamp offset (renderedCount (window s.content offset limit))
          seen := s.seen ++ (List.range (shownCount (window s.content offset limit))).map
            fun i => offset.toNat + i + 1 }
      else { s with call := .idle }
    | _ => s
  | .recordReadState ok =>
    match s.call with
    | .rendered stamp offset lineCount => s.recordReadState stamp offset lineCount ok
    | _ => s
  | .edit content mtimeNs =>
    match s.call, s.readState with
    | .idle, some st =>
      if s.unchanged s.stamp st then
        { s with
          content, mtimeNs
          readState := some ⟨⟨mtimeNs, sizeBytes content⟩, some (toLf content), 0, []⟩
          seen := [] }
      else { s with readState := none }
    | _, _ => s
  | .statWrite content =>
    match s.call, s.readState with
    | .idle, some st =>
      if st.isLogicallyComplete then { s with call := .writing s.stamp content } else s
    | _, _ => s
  | .readExisting =>
    match s.call, s.readState with
    | .writing stamp content, some st =>
      if s.unchanged stamp st then { s with call := .checked content }
      else { s with call := .idle, readState := none }
    | _, _ => s
  | .write mtimeNs =>
    match s.call with
    | .checked content =>
      { s with
        content, mtimeNs
        call := .written content
        seen := (List.range (splitLines content).length).map fun i => i + 1
        lost := s.lost || !s.allSeen }
    | _ => s
  | .statAfter =>
    match s.call with
    | .written content =>
      { s with
        call := .idle
        readState := some ⟨s.stamp, some (toLf content), 0, []⟩ }
    | _ => s
  | .failed =>
    match s.call with
    | .written _ => { s with call := .idle, readState := none }
    | _ => { s with call := .idle }

end GuardedFile

end JiuwenSpec.FileTools

import JiuwenSpec.Base.Run
import Mathlib.Data.List.MinMax
import Mathlib.Data.List.Sort

/-!
# The versions of a session

A manager appends the difference between the live state and the state it saw last to a log,
advances the head, and takes full snapshots now and then. A state is restored by replaying the
log from the latest snapshot. A JSONL backend adds lines to a file, a key-value backend sets an
entry under its event id. Source: `core/session/vcs/manager.py`, `jsonl_backend.py`,
`kv_backend.py`, `constants.py`.
-/

namespace JiuwenSpec.Vcs

open Base

universe u v

/-- What is versioned: states, their differences, and which states count as the same. -/
structure Track (S : Type u) (D : Type v) where
  empty : S
  diff : S → S → D
  unchanged : D → Bool
  apply : S → D → S
  Alike : S → S → Prop

variable {S : Type u} {D : Type v}

structure LogEntry (D : Type v) where
  eventId : ℕ
  delta : D

structure Snapshot (S : Type u) where
  snapshotId : String
  eventIdHigh : ℕ
  state : S

structure Commit where
  commitId : String
  parentId : Option String
  eventIdHigh : ℕ

structure Head where
  eventId : ℕ := 0
  commitId : Option String := none

/-- A reference: `e` with a number, or the id of a commit. -/
inductive Ref where
  | event (n : ℕ)
  | commit (commitId : String)

def eventIdWidth : ℕ := 20

inductive Line (D : Type v) where
  | entry (e : LogEntry D)
  | corrupt

/-- The log of a backend: the lines of a file and what follows its last newline, or the entries of
a store in the order of their keys. The keys of ids below `10 ^ eventIdWidth` are in the order of
the ids. -/
inductive Log (D : Type v) where
  | jsonl (lines : List (Line D)) (tail : Option (Line D))
  | kv (entries : List (LogEntry D))

def readLines : List (Line D) → List (LogEntry D)
  | [] => []
  | .corrupt :: _ => []
  | .entry e :: lines => e :: readLines lines

def setEntry (e : LogEntry D) : List (LogEntry D) → List (LogEntry D)
  | [] => [e]
  | f :: entries =>
    if e.eventId < f.eventId then e :: f :: entries
    else if e.eventId = f.eventId then e :: entries
    else f :: setEntry e entries

namespace Log

def entries : Log D → List (LogEntry D)
  | .jsonl lines tail => readLines (lines ++ tail.toList)
  | .kv entries => entries

/-- `read_log`. -/
def read (log : Log D) (sinceEventId : ℕ) : List (LogEntry D) :=
  log.entries.filter (sinceEventId < ·.eventId)

/-- `append_log`: a line that is written behind an unfinished one is not decoded. -/
def append (e : LogEntry D) : Log D → Log D
  | .jsonl lines none => .jsonl (lines ++ [.entry e]) none
  | .jsonl lines (some _) => .jsonl (lines ++ [.corrupt]) none
  | .kv entries => .kv (setEntry e entries)

/-- The log after a crash in `append_log` that leaves part of the line: all of it but the newline,
or a text that is not decoded. A key is set or not set. -/
def tear (e : LogEntry D) (whole : Bool) : Log D → Log D
  | .jsonl lines none => .jsonl lines (some (if whole then .entry e else .corrupt))
  | .jsonl lines (some _) => .jsonl lines (some .corrupt)
  | .kv entries => .kv entries

/-- `truncate`, on the log. -/
def truncate (afterEventId : ℕ) : Log D → Log D
  | .jsonl lines tail =>
    .jsonl (((readLines (lines ++ tail.toList)).filter (·.eventId ≤ afterEventId)).map .entry) none
  | .kv entries => .kv (entries.filter (·.eventId ≤ afterEventId))

end Log

structure Backend (S : Type u) (D : Type v) where
  log : Log D
  snapshots : List (Snapshot S) := []
  commits : List Commit := []
  head : Option Head := none

namespace Backend

variable (b : Backend S D)

def headEvent : ℕ := (b.head.getD {}).eventId

/-- The records in the order they are listed: files by their names, keys as the store has them. -/
def listed {α : Type*} (id : α → String) (records : List α) : List α :=
  match b.log with
  | .jsonl _ _ => records.insertionSort fun r r' => id r ≤ id r'
  | .kv _ => records

/-- `put_snapshot`: under its id; where a snapshot of the id was, it is replaced. -/
def putSnapshot (s : Snapshot S) : Backend S D :=
  { b with snapshots := b.snapshots.filter (·.snapshotId ≠ s.snapshotId) ++ [s] }

def latestSnapshot (atEventId : ℕ) : Option (Snapshot S) :=
  ((b.listed (·.snapshotId) b.snapshots).filter (·.eventIdHigh ≤ atEventId)).argmax (·.eventIdHigh)

def putCommit (c : Commit) : Backend S D :=
  { b with commits := b.commits.filter (·.commitId ≠ c.commitId) ++ [c] }

def getCommit (commitId : String) : Option Commit := b.commits.find? (·.commitId = commitId)

def truncate (afterEventId : ℕ) : Backend S D :=
  { b with
    log := b.log.truncate afterEventId
    snapshots := b.snapshots.filter (·.eventIdHigh ≤ afterEventId)
    commits := b.commits.filter (·.eventIdHigh ≤ afterEventId) }

end Backend

/-- The loop over the entries in `_restore_at_event`. -/
def replay (t : Track S D) (target : ℕ) : S → List (LogEntry D) → S
  | s, [] => s
  | s, e :: entries =>
    if target < e.eventId then s else replay t target (t.apply s e.delta) entries

def restoreAtEvent (t : Track S D) (b : Backend S D) (target : ℕ) : S :=
  match b.latestSnapshot target with
  | some snap => replay t target snap.state (b.log.read snap.eventIdHigh)
  | none => replay t target t.empty (b.log.read 0)

def resolveEventId (b : Backend S D) : Ref → Option ℕ
  | .event n => some n
  | .commit commitId => (b.getCommit commitId).map (·.eventIdHigh)

def latestCommitId (b : Backend S D) (target : ℕ) : Option String :=
  (((b.listed (·.commitId) b.commits).filter (·.eventIdHigh ≤ target)).argmax
    (·.eventIdHigh)).map (·.commitId)

/-- A session under version control: the backend, the fields of the manager, and for each event
on the history line the live state when its append completed. -/
structure Versions (S : Type u) (D : Type v) where
  backend : Backend S D
  head : Head
  last : S
  appendsSinceSnapshot : ℕ := 0
  recorded : List (ℕ × S)

/-- A new manager, behind `_ensure_loaded`: it loads at its first call, before which nothing is
written. -/
def newManager (t : Track S D) (b : Backend S D) (recorded : List (ℕ × S)) : Versions S D where
  backend := b
  head := b.head.getD {}
  last := if b.head.isSome then restoreAtEvent t b b.headEvent else t.empty
  recorded := recorded

namespace Versions

variable (t : Track S D) (every : ℤ) (v : Versions S D)

/-- `snapshot`. -/
def takeSnapshot (snapshotId : String) : Versions S D :=
  { v with
    backend := v.backend.putSnapshot ⟨snapshotId, v.head.eventId, v.last⟩
    appendsSinceSnapshot := 0 }

/-- The entry that `append` writes. -/
def nextEntry (live : S) : LogEntry D := ⟨v.head.eventId + 1, t.diff v.last live⟩

/-- `append_log`, then `put_head`. -/
def advance (live : S) : Versions S D :=
  { v with
    backend := { v.backend with
      log := v.backend.log.append (v.nextEntry t live)
      head := some { v.head with eventId := v.head.eventId + 1 } }
    head := { v.head with eventId := v.head.eventId + 1 } }

def append (live : S) (snapshotId : String) : Versions S D :=
  if t.unchanged (t.diff v.last live) then v
  else
    let v' := { v.advance t live with
      last := live
      appendsSinceSnapshot := v.appendsSinceSnapshot + 1
      recorded := v.recorded ++ [(v.head.eventId + 1, live)] }
    if 0 < every ∧ every ≤ v'.appendsSinceSnapshot then v'.takeSnapshot snapshotId else v'

/-- `commit`, after its append. -/
def addCommit (commitId : String) : Versions S D :=
  let head := { v.head with commitId := some commitId }
  { v with
    backend := { v.backend.putCommit ⟨commitId, v.head.commitId, v.head.eventId⟩ with
      head := some head }
    head := head }

/-- `rewind` to an event. -/
def rewind (target : ℕ) : Versions S D :=
  let restored := restoreAtEvent t v.backend target
  let b := v.backend.truncate target
  let head : Head := ⟨target, latestCommitId b target⟩
  { v with
    backend := { b with head := some head }
    head := head
    last := restored
    appendsSinceSnapshot := 0
    recorded := v.recorded.filter (·.1 ≤ target) }

def restore (ref : Ref) : Option S :=
  (resolveEventId v.backend ref).map (restoreAtEvent t v.backend)

end Versions

/-- Where an append is cut off: in its line, with the line written up to the newline or not, before
the head is stored, or behind it. -/
inductive CrashPoint where
  | inLine (whole : Bool)
  | beforeHead
  | behindHead

/-- What happens to a session; a crash in an append and a reload end the manager. -/
inductive VersionStep (S : Type u) where
  | append (live : S) (snapshotId : String)
  | commit (live : S) (snapshotId commitId : String)
  | snapshot (snapshotId : String)
  | rewind (ref : Ref)
  | reload
  | crash (live : S) (point : CrashPoint)

namespace Versions

variable (t : Track S D) (every : ℤ)

def crashed (v : Versions S D) (live : S) : CrashPoint → Backend S D
  | .inLine whole => { v.backend with log := v.backend.log.tear (v.nextEntry t live) whole }
  | .beforeHead => { v.backend with log := v.backend.log.append (v.nextEntry t live) }
  | .behindHead => (v.advance t live).backend

def step (v : Versions S D) : VersionStep S → Versions S D
  | .append live snapshotId => v.append t every live snapshotId
  | .commit live snapshotId commitId => (v.append t every live snapshotId).addCommit commitId
  | .snapshot snapshotId => v.takeSnapshot snapshotId
  | .rewind ref =>
    match resolveEventId v.backend ref with
    | some target => v.rewind t target
    | none => v
  | .reload => newManager t v.backend v.recorded
  | .crash live point =>
    if t.unchanged (t.diff v.last live) then newManager t v.backend v.recorded
    else newManager t (v.crashed t live point) v.recorded

end Versions

end JiuwenSpec.Vcs

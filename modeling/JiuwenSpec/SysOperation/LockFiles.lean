import JiuwenSpec.Base.Assoc
import JiuwenSpec.Base.Json
import JiuwenSpec.SysOperation.ReadWriteLock

/-!
# Leases of file locks, and the clean-up of their databases

Each process has a table of lock objects, which sections lease. A lock object has the database open
that its path had when the object was made, and databases exclude their holders. Clean-ups probe
databases and unlink them; which ones they come to, and when, is left open.
Source: `core/sys_operation/local/_rw_lock_manager.py`.
-/

namespace JiuwenSpec.SysOperation

open Base

/-- Where a section of `lock_guard` stands. -/
inductive GuardPhase where
  /-- It has a lease, and waits for the lock. -/
  | leased
  | inside
  /-- It has given the lock up, or did not get it; at `_release_lease`. -/
  | leaving
  /-- It was cancelled there. -/
  | lost
  | over
deriving DecidableEq

def GuardPhase.inUse : GuardPhase → Bool
  | .leased | .inside | .leaving => true
  | .lost | .over => false

/-- A section of `lock_guard` on a resolved path. -/
structure GuardSection where
  proc : Nat
  path : Text
  mode : Mode
  entry : Nat
  inode : Nat
  phase : GuardPhase

/-- `_RwLockEntry`, with the inode of the database that its lock has open. -/
structure LockEntry where
  proc : Nat
  path : Text
  inode : Nat
  leases : Nat
  closed : Bool

/-- Where `_try_delete_database` stands. -/
inductive ProbePhase where
  /-- The probe has the database exclusively. -/
  | holding
  /-- The probe is closed. -/
  | probed
  | over
deriving DecidableEq

/-- A call of `_try_delete_database`. -/
structure DatabaseProbe where
  proc : Nat
  path : Text
  inode : Nat
  phase : ProbePhase

/-- All processes, their entries by the order of creation, and the directory of the databases. -/
structure LockFiles where
  tables : List ((Nat × Text) × Nat)
  entries : List LockEntry
  disk : List (Text × Nat)
  nextInode : Nat
  sections : List GuardSection
  probes : List DatabaseProbe

inductive GuardOp where
  /-- `_acquire_lease`. -/
  | acquireLease (proc : Nat) (path : Text) (mode : Mode)
  /-- A section gets the lock, if its database gives it. -/
  | enter (j : Nat)
  /-- A section times out, or is cancelled. -/
  | refused (j : Nat)
  /-- The body of a section ends. -/
  | leave (j : Nat)
  /-- `_release_lease`. -/
  | releaseLease (j : Nat)
  /-- A section is cancelled while it waits for the state lock of `_release_lease`. -/
  | cancelRelease (j : Nat)
  /-- `_try_delete_database` begins. -/
  | probe (proc : Nat) (path : Text)
  /-- The probe is released and closed. -/
  | endProbe (c : Nat)
  /-- The database is unlinked, unless the process has a lock of its path. -/
  | unlink (c : Nat)
  /-- `close_locks`. -/
  | closeLocks (proc : Nat)

namespace LockFiles

def init : LockFiles := ⟨[], [], [], 0, [], []⟩

def openFile (s : LockFiles) (path : Text) : LockFiles :=
  match assocGet? path s.disk with
  | some _ => s
  | none => { s with disk := assocSet path s.nextInode s.disk, nextInode := s.nextInode + 1 }

def inodeOf (s : LockFiles) (path : Text) : Nat := (assocGet? path s.disk).getD s.nextInode

def setPhase (s : LockFiles) (j : Nat) (sec : GuardSection) (phase : GuardPhase) : LockFiles :=
  { s with sections := s.sections.set j { sec with phase } }

/-- Some section holds the database in a way that excludes the mode. -/
def blocked (s : LockFiles) (inode : Nat) (mode : Mode) : Bool :=
  s.sections.any fun sec => decide (sec.phase = .inside ∧ sec.inode = inode ∧
    (sec.mode = .write ∨ mode = .write))

def probing (s : LockFiles) (inode : Nat) : Bool :=
  s.probes.any fun probe => decide (probe.phase = .holding ∧ probe.inode = inode)

def uses (k : Nat) (sec : GuardSection) : Bool := decide (sec.entry = k) && sec.phase.inUse

def acquireLease (s : LockFiles) (proc : Nat) (path : Text) (mode : Mode) : LockFiles :=
  match assocGet? (proc, path) s.tables with
  | some k =>
    match s.entries[k]? with
    | some e =>
      { s with
        entries := s.entries.set k { e with leases := e.leases + 1 }
        sections := s.sections ++ [⟨proc, path, mode, k, e.inode, .leased⟩] }
    | none => s
  | none =>
    { s.openFile path with
      tables := assocSet (proc, path) s.entries.length s.tables
      entries := s.entries ++ [⟨proc, path, s.inodeOf path, 1, false⟩]
      sections := s.sections ++
        [⟨proc, path, mode, s.entries.length, s.inodeOf path, .leased⟩] }

/-- `_release_lease`: the last lease takes the entry out of the table, closes its lock and touches
its database. -/
def releaseLease (s : LockFiles) (j : Nat) (sec : GuardSection) (e : LockEntry) : LockFiles :=
  if e.leases - 1 = 0 then
    { (s.setPhase j sec .over).openFile sec.path with
      entries := s.entries.set sec.entry { e with leases := 0, closed := true }
      tables := if assocGet? (sec.proc, sec.path) s.tables = some sec.entry
        then assocDelete (sec.proc, sec.path) s.tables else s.tables }
  else
    { s.setPhase j sec .over with
      entries := s.entries.set sec.entry { e with leases := e.leases - 1 } }

/-- A section of an entry is inside, so that `close` raises. -/
def active (s : LockFiles) (k : Nat) : Bool :=
  s.sections.any fun sec => decide (sec.entry = k ∧ sec.phase = .inside)

def closeEntry (entries : List LockEntry) (k : Nat) : List LockEntry :=
  match entries[k]? with
  | some e => entries.set k { e with closed := true }
  | none => entries

/-- `close_locks`: the table is cleared, and the locks are closed up to the first active one. -/
def closeLocks (s : LockFiles) (proc : Nat) : LockFiles :=
  { s with
    tables := s.tables.filter fun e => e.1.1 ≠ proc
    entries := (((s.tables.filter fun e => e.1.1 = proc).map Prod.snd).takeWhile
      fun k => !s.active k).foldl closeEntry s.entries }

def step (s : LockFiles) : GuardOp → LockFiles
  | .acquireLease proc path mode => s.acquireLease proc path mode
  | .enter j =>
    match s.sections[j]? with
    | some sec =>
      if sec.phase = .leased ∧ (s.entries[sec.entry]?.any fun e => !e.closed) ∧
          s.blocked sec.inode sec.mode = false ∧ s.probing sec.inode = false then
        s.setPhase j sec .inside
      else s
    | none => s
  | .refused j =>
    match s.sections[j]? with
    | some sec => if sec.phase = .leased then s.setPhase j sec .leaving else s
    | none => s
  | .leave j =>
    match s.sections[j]? with
    | some sec => if sec.phase = .inside then s.setPhase j sec .leaving else s
    | none => s
  | .releaseLease j =>
    match s.sections[j]? with
    | some sec =>
      match s.entries[sec.entry]? with
      | some e => if sec.phase = .leaving then s.releaseLease j sec e else s
      | none => s
    | none => s
  | .cancelRelease j =>
    match s.sections[j]? with
    | some sec => if sec.phase = .leaving then s.setPhase j sec .lost else s
    | none => s
  | .probe proc path =>
    if s.blocked (s.inodeOf path) .write || s.probing (s.inodeOf path) then s.openFile path
    else
      { s.openFile path with
        probes := s.probes ++ [⟨proc, path, s.inodeOf path, .holding⟩] }
  | .endProbe c =>
    match s.probes[c]? with
    | some probe =>
      if probe.phase = .holding then
        { s with probes := s.probes.set c { probe with phase := .probed } }
      else s
    | none => s
  | .unlink c =>
    match s.probes[c]? with
    | some probe =>
      if probe.phase = .probed then
        { s with
          probes := s.probes.set c { probe with phase := .over }
          disk := if assocGet? (probe.proc, probe.path) s.tables = none
            then assocDelete probe.path s.disk else s.disk }
      else s
    | none => s
  | .closeLocks proc => s.closeLocks proc

end LockFiles

end JiuwenSpec.SysOperation

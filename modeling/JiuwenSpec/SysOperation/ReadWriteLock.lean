import JiuwenSpec.Base.Run

/-!
# The hybrid read-write lock

Tasks of a process share three counters under a condition variable, and a file lock that other
processes may hold. A task that takes or gives up the file lock keeps the condition's lock while it
awaits the call. Each operation takes one task from one suspension to the next.
Source: `core/sys_operation/local/_async_read_write_lock.py`.
-/

namespace JiuwenSpec.SysOperation

inductive Mode where
  | read
  | write
deriving DecidableEq

inductive Phase where
  | idle
  /-- At `async with self._condition` of an entry. -/
  | entering (m : Mode)
  /-- On the condition. -/
  | asleep (m : Mode)
  /-- Notified; takes the condition's lock again. -/
  | woken (m : Mode)
  /-- Timed out or cancelled on the condition; takes its lock again. -/
  | quitting (m : Mode)
  /-- In `_acquire_file`, with the condition's lock. -/
  | acquiring (m : Mode)
  /-- Cancelled there; awaits the call that was made. -/
  | undoing (m : Mode)
  | inside (m : Mode)
  /-- At `async with self._condition` of an exit. -/
  | leaving (m : Mode)
  /-- In `_release_file`, with the condition's lock. -/
  | releasing (m : Mode)
  /-- Cancelled there; awaits the call that was made. -/
  | abandoning (m : Mode)
deriving DecidableEq

/-- `notify_all`, for one task. -/
def Phase.notify : Phase → Phase
  | .asleep m => .woken m
  | phase => phase

/-- The lock and its tasks; `locked` is the condition's lock, `file` how this process holds the file
lock, and `foreign` how other processes do. -/
structure HybridLock where
  tasks : List Phase
  readers : Nat
  writer : Bool
  writersWaiting : Nat
  locked : Bool
  file : Option Mode
  foreign : Option Mode

/-- One step of a task `i`, or of the other processes. -/
inductive LockOp where
  /-- `read()` or `write()` is entered. -/
  | start (i : Nat) (m : Mode)
  /-- The condition's lock is given to a task that waits for it, after its deadline or before. -/
  | lock (i : Nat) (expired : Bool)
  /-- A task times out on the condition. -/
  | timeout (i : Nat)
  /-- The file lock is given to the task. -/
  | acquired (i : Nat)
  /-- The file lock is refused, and the deadline has passed. -/
  | refused (i : Nat)
  /-- The call that a cancelled task awaited has ended, and what it took is given back. -/
  | undone (i : Nat)
  /-- The body of the section ends. -/
  | leave (i : Nat)
  /-- The call that gives up the file lock has ended. -/
  | released (i : Nat)
  /-- The task is cancelled; `late` tells whether a call nobody awaits any more takes effect. -/
  | cancel (i : Nat) (late : Bool)
  /-- Other processes hold the file lock in another way. -/
  | foreign (f : Option Mode)

namespace HybridLock

def init (n : Nat) : HybridLock where
  tasks := List.replicate n .idle
  readers := 0
  writer := false
  writersWaiting := 0
  locked := false
  file := none
  foreign := none

def move (s : HybridLock) (i : Nat) (phase : Phase) : HybridLock :=
  { s with tasks := s.tasks.set i phase }

def notifyAll (s : HybridLock) : HybridLock := { s with tasks := s.tasks.map Phase.notify }

def ready (s : HybridLock) : Mode → Bool
  | .read => !s.writer && s.writersWaiting == 0
  | .write => !s.writer && s.readers == 0

/-- The file lock can be had next to what other processes hold. -/
def compatible : Mode → Option Mode → Bool
  | _, none => true
  | .read, some .read => true
  | _, _ => false

/-- Behind the wait: the first reader and every writer take the file lock. -/
def letIn (s : HybridLock) (i : Nat) : Mode → HybridLock
  | .read =>
    if s.readers = 0 then { s.move i (.acquiring .read) with locked := true }
    else { s.move i (.inside .read) with readers := s.readers + 1 }
  | .write => { s.move i (.acquiring .write) with locked := true }

def sleep (s : HybridLock) (i : Nat) : Mode → HybridLock
  | .read => s.move i (.asleep .read)
  | .write => { s.move i (.asleep .write) with writersWaiting := s.writersWaiting + 1 }

/-- A writer that waits no more is not counted. -/
def unwait (s : HybridLock) : Mode → HybridLock
  | .read => s
  | .write => { s with writersWaiting := s.writersWaiting - 1 }

def exit (s : HybridLock) (i : Nat) : Mode → HybridLock
  | .read =>
    if s.readers - 1 = 0 then
      { s.move i (.releasing .read) with readers := s.readers - 1, locked := true }
    else { (s.move i .idle).notifyAll with readers := s.readers - 1 }
  | .write => { s.move i (.releasing .write) with locked := true }

def lock (s : HybridLock) (i : Nat) (expired : Bool) : HybridLock :=
  if s.locked then s
  else
    match s.tasks[i]? with
    | some (.entering m) =>
      if expired then s.move i .idle
      else if s.ready m then s.letIn i m
      else s.sleep i m
    | some (.woken m) => if s.ready m then (s.unwait m).letIn i m else s.move i (.asleep m)
    | some (.quitting m) => (s.unwait m).move i .idle
    | some (.leaving m) => s.exit i m
    | _ => s

def acquired (s : HybridLock) (i : Nat) : HybridLock :=
  match s.tasks[i]? with
  | some (.acquiring .read) =>
    if compatible .read s.foreign then
      { s.move i (.inside .read) with
        readers := s.readers + 1, locked := false, file := some .read }
    else s
  | some (.acquiring .write) =>
    if compatible .write s.foreign then
      { s.move i (.inside .write) with writer := true, locked := false, file := some .write }
    else s
  | _ => s

/-- The task that holds the condition's lock goes away. -/
def drop (s : HybridLock) (i : Nat) : HybridLock := { s.move i .idle with locked := false }

def released (s : HybridLock) (i : Nat) : HybridLock :=
  match s.tasks[i]? with
  | some (.releasing .read) => { (s.drop i).notifyAll with file := none }
  | some (.releasing .write) => { (s.drop i).notifyAll with file := none, writer := false }
  | some (.abandoning _) => { s.drop i with file := none }
  | _ => s

def cancel (s : HybridLock) (i : Nat) (late : Bool) : HybridLock :=
  match s.tasks[i]? with
  | some (.entering _) => s.move i .idle
  | some (.asleep m) | some (.woken m) => s.move i (.quitting m)
  | some (.acquiring m) => s.move i (.undoing m)
  -- The call still runs: what it takes belongs to nobody.
  | some (.undoing m) =>
    { s.drop i with file := if late && compatible m s.foreign then some m else s.file }
  | some (.inside m) => s.move i (.leaving m)
  -- The counter is not taken back.
  | some (.leaving _) => s.move i .idle
  | some (.releasing m) => s.move i (.abandoning m)
  | some (.abandoning _) => { s.drop i with file := if late then none else s.file }
  | _ => s

/-- One operation; one that does not fit the phase of its task does nothing. -/
def step (s : HybridLock) : LockOp → HybridLock
  | .start i m => if s.tasks[i]? = some .idle then s.move i (.entering m) else s
  | .lock i expired => s.lock i expired
  | .timeout i =>
    match s.tasks[i]? with
    | some (.asleep m) | some (.woken m) => s.move i (.quitting m)
    | _ => s
  | .acquired i => s.acquired i
  | .refused i =>
    match s.tasks[i]? with
    | some (.acquiring _) => s.drop i
    | _ => s
  | .undone i =>
    match s.tasks[i]? with
    | some (.undoing _) => s.drop i
    | _ => s
  | .leave i =>
    match s.tasks[i]? with
    | some (.inside m) => s.move i (.leaving m)
    | _ => s
  | .released i => s.released i
  | .cancel i late => s.cancel i late
  | .foreign f =>
    match f, s.file with
    | some .write, some _ | some .read, some .write => s
    | _, _ => { s with foreign := f }

end HybridLock

end JiuwenSpec.SysOperation

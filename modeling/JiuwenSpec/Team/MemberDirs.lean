import JiuwenSpec.Base.Run

/-!
# Directories of members

A member works in a directory outside its team, which teams may share. A file in the directory
lists the teams that refer to it, a lock file beside it orders its writers, and whoever finds the
list empty may remove the directory.
Source: `agent_teams/team_workspace/binder.py`, `ref_store.py`, `paths.py`,
`agent_teams/skill/file_lock.py`.
-/

namespace JiuwenSpec.MemberDirs

abbrev Name := List Char

abbrev Pid := Nat

/-- A lock file, which stays what it is for its holders when its name is unlinked. -/
abbrev Inode := Nat

inductive Mode where
  | dynamic
  | predefined
  deriving DecidableEq

/-- `TeamMemberBinding`, of a member that is linked out of its team. -/
structure Binding where
  team : Name
  member : Name
  mode : Mode
  prefixed : Bool
  deriving DecidableEq

def memberDirName (team member : Name) (prefixed : Bool) : Name :=
  if prefixed then team ++ '#' :: member else member

/-- `member_real_dir`, below the home of the teams. -/
def Binding.realDir (b : Binding) : Name :=
  match b.mode with
  | .predefined => b.member
  | .dynamic => memberDirName b.team b.member b.prefixed

/-- The content of `.refs.json`. -/
structure Refs where
  kind : Mode
  teams : List Name
  deriving DecidableEq

/-- `_teams` -/
def Refs.names (r : Refs) : List Name := r.teams.filter (· ≠ [])

/-- What `add_ref` writes, if it does. -/
def addRef (b : Binding) : Option Refs → Option (Option Refs)
  | none => some (some ⟨b.mode, [b.team]⟩)
  | some r => if r.names.contains b.team then none else some (some ⟨r.kind, r.names ++ [b.team]⟩)

/-- What `remove_ref` writes, if it does; the file is unlinked where no team is left. -/
def removeRef (team : Name) : Option Refs → Option (Option Refs)
  | none => none
  | some r =>
    if r.names.erase team = [] then some none else some (some ⟨r.kind, r.names.erase team⟩)

/-- Why a process changes the references. A setup knows where its link leads, and a cleanup which
directory it found behind a link. -/
inductive Job where
  | setup (placed : Name)
  | release
  | cleanup (linked : Name)
  deriving DecidableEq

structure Call where
  binding : Binding
  job : Job
  deriving DecidableEq

def Call.dir (c : Call) : Name := c.binding.realDir

def Call.result (c : Call) (seen : Option Refs) : Option (Option Refs) :=
  match c.job with
  | .setup _ => addRef c.binding seen
  | _ => removeRef c.binding.team seen

/-- Where a process stands. A cleanup that removes a directory drops its link afterwards. -/
inductive Pc where
  | idle
  | look (b : Binding)
  | mkRealDir (b : Binding)
  | makeLink (b : Binding)
  | unlink (b : Binding)
  | mkParent (c : Call)
  | openLock (c : Call)
  | acquire (c : Call) (lock : Inode)
  | read (c : Call) (lock : Inode)
  | write (c : Call) (lock : Inode) (seen : Option Refs)
  | replace (c : Call) (lock : Inode)
  | unlock (c : Call) (lock : Inode) (zero dropped : Bool)
  | unlinkLock (c : Call)
  | readLink (team member : Name)
  | loadRefs (team member linked : Name)
  | countRefs (dir : Name)
  | rmRefs (dir : Name) (link : Option (Name × Name))
  | rmTemp (dir : Name) (link : Option (Name × Name))
  | rmLock (dir : Name) (link : Option (Name × Name))
  | rmDir (dir : Name) (link : Option (Name × Name))
  | dropLink (team member : Name)
  deriving DecidableEq

def Pc.opened : Pc → Option (Name × Inode)
  | .acquire c lock => some (c.dir, lock)
  | .read c lock => some (c.dir, lock)
  | .write c lock _ => some (c.dir, lock)
  | .replace c lock => some (c.dir, lock)
  | .unlock c lock _ _ => some (c.dir, lock)
  | _ => none

def Pc.locked : Pc → Option (Name × Inode)
  | .read c lock => some (c.dir, lock)
  | .write c lock _ => some (c.dir, lock)
  | .replace c lock => some (c.dir, lock)
  | .unlock c lock _ _ => some (c.dir, lock)
  | _ => none

/-- What it has read of a file that it is about to write. -/
def Pc.seen : Pc → Option (Name × Option Refs)
  | .write c _ seen => some (c.dir, seen)
  | _ => none

/-- The call whose temporary file it is about to put in place. -/
def Pc.replaces : Pc → Option Call
  | .replace c _ => some c
  | _ => none

def afterRemoval : Option (Name × Name) → Pc
  | none => .idle
  | some (team, member) => .dropLink team member

/-- Once the references are changed a cleanup removes the directory it found, where the list of
the references it changed is empty. -/
def Call.after (c : Call) (zero : Bool) : Pc :=
  match c.job with
  | .cleanup linked =>
    if zero ∧ c.binding.mode = .dynamic then
      .rmRefs linked (some (c.binding.team, c.binding.member))
    else .dropLink c.binding.team c.binding.member
  | _ => .idle

/-- The files of a directory that the teams share: the references, the temporary file through which
they are written, and the lock file. The members' own files are left out. -/
structure Dir where
  refs : Option Refs
  temp : Option Refs
  lock : Option Inode

/-- What stands in the team for a member: a link, or a directory where no link could be made. -/
inductive Entry where
  | link (dir : Name)
  | dir

/-- The directories and links, who holds the locks and where each process stands. Beside them stand
the members that are set up and where, the directories that were set up as predefined, and whether
a directory was removed in use. -/
structure State where
  dirs : Name → Option Dir
  entries : Name → Name → Option Entry
  holder : Inode → Option Pid
  fresh : Inode
  procs : Pid → Pc
  live : List (Name × Name × Name)
  shared : List Name
  harmed : Bool

def State.init : State :=
  ⟨fun _ => none, fun _ _ => none, fun _ => none, 0, fun _ => .idle, [], [], false⟩

namespace State

def refs (s : State) (d : Name) : Option Refs := (s.dirs d).bind Dir.refs

def temp (s : State) (d : Name) : Option Refs := (s.dirs d).bind Dir.temp

def lock (s : State) (d : Name) : Option Inode := (s.dirs d).bind Dir.lock

def unlisted (s : State) (d : Name) : Bool := (s.refs d).all fun r => r.names.isEmpty

/-- A member is set up in the directory, or it was set up as predefined. -/
def inUse (s : State) (d : Name) : Bool :=
  (s.live.any fun x => decide (x.2.2 = d)) || s.shared.contains d

def goto (s : State) (p : Pid) (pc : Pc) : State :=
  { s with procs := Function.update s.procs p pc }

def setDir (s : State) (d : Name) (dir : Option Dir) : State :=
  { s with dirs := Function.update s.dirs d dir }

def setEntry (s : State) (team member : Name) (entry : Option Entry) : State :=
  { s with entries := fun t m => if t = team ∧ m = member then entry else s.entries t m }

/-- `remove_dir_link`, which leaves a directory alone. -/
def removeLink (s : State) (team member : Name) : State :=
  match s.entries team member with
  | some (.link _) => s.setEntry team member none
  | _ => s

def mkdir (s : State) (d : Name) : State :=
  match s.dirs d with
  | none => s.setDir d (some ⟨none, none, none⟩)
  | some _ => s

def setRefs (s : State) (d : Name) (refs : Option Refs) : State :=
  s.setDir d ((s.dirs d).map fun dir => { dir with refs := refs })

def setTemp (s : State) (d : Name) (temp : Option Refs) : State :=
  s.setDir d ((s.dirs d).map fun dir => { dir with temp := temp })

def setLock (s : State) (d : Name) (lock : Option Inode) : State :=
  s.setDir d ((s.dirs d).map fun dir => { dir with lock := lock })

def harm (s : State) (d : Name) : State :=
  { s with harmed := s.harmed || ((s.dirs d).isSome && s.inUse d) }

def rmdir (s : State) (d : Name) : State :=
  match s.dirs d with
  | some ⟨none, none, none⟩ => (s.harm d).setDir d none
  | _ => s

def letGo (s : State) (p : Pid) : State :=
  { s with holder := fun i => if s.holder i = some p then none else s.holder i }

def lookAt (s : State) (b : Binding) : Pc :=
  match s.entries b.team b.member with
  | some (.link d) => .mkParent ⟨b, .setup d⟩
  | some .dir => .idle
  | none => .mkRealDir b

def openLock (s : State) (p : Pid) (c : Call) : State :=
  match s.dirs c.dir with
  | none => s.goto p .idle
  | some dir =>
    match dir.lock with
    | some i => s.goto p (.acquire c i)
    | none => { s.setLock c.dir (some s.fresh) with fresh := s.fresh + 1 }.goto p
        (.acquire c s.fresh)

/-- A member counts as set up from the write of its reference on, and until the write that drops
it. -/
def settle (s : State) (c : Call) : State :=
  match c.job with
  | .setup placed => { s with
      live := (c.binding.team, c.binding.member, placed) :: s.live
      shared := if c.binding.mode = .predefined then placed :: s.shared else s.shared }
  | _ => { s with
      live := s.live.filter (· ≠ (c.binding.team, c.binding.member, c.dir)) }

/-- The references are written on what was read of them, through a temporary file. A directory that
is gone is made again for a file that was not there, and a write to it raises otherwise. -/
def write (s : State) (p : Pid) (c : Call) (lock : Inode) (seen : Option Refs) : State :=
  match c.result seen with
  | none => (s.settle c).goto p (.unlock c lock seen.isNone false)
  | some none => ((s.setRefs c.dir none).settle c).goto p (.unlock c lock true true)
  | some (some r) =>
    if s.dirs c.dir = none ∧ seen ≠ none then (s.letGo p).goto p .idle
    else ((s.mkdir c.dir).setTemp c.dir (some r)).goto p (.replace c lock)

/-- The temporary file takes the place of the references. -/
def replace (s : State) (p : Pid) (c : Call) (lock : Inode) : State :=
  match s.temp c.dir with
  | none => (s.letGo p).goto p .idle
  | some r =>
    (((s.setTemp c.dir none).setRefs c.dir (some r)).settle c).goto p (.unlock c lock false false)

/-- What a cleanup makes of the references behind a link. -/
def loaded (s : State) (team member linked : Name) : Pc :=
  match s.refs linked with
  | none => .dropLink team member
  | some r =>
    if r.names.contains team then
      .mkParent ⟨⟨team, member, r.kind, decide (r.kind = .dynamic ∧ team ++ ['#'] <:+: linked)⟩,
        .cleanup linked⟩
    else .dropLink team member

/-- One step of a process; `linked` says whether a link could be made. -/
def nextOf (s : State) (p : Pid) (linked : Bool) : Pc → State
  | .idle => s
  | .look b => s.goto p (s.lookAt b)
  | .mkRealDir b => (s.mkdir b.realDir).goto p (.makeLink b)
  | .makeLink b =>
    if linked then
      (s.setEntry b.team b.member (some (.link b.realDir))).goto p
        (.mkParent ⟨b, .setup b.realDir⟩)
    else ((s.rmdir b.realDir).setEntry b.team b.member (some .dir)).goto p .idle
  | .unlink b => (s.removeLink b.team b.member).goto p (.mkParent ⟨b, .release⟩)
  | .mkParent c => (s.mkdir c.dir).goto p (.openLock c)
  | .openLock c => s.openLock p c
  | .acquire c i =>
    if s.holder i = none then
      { s with holder := Function.update s.holder i (some p) }.goto p (.read c i)
    else s
  | .read c i => s.goto p (.write c i (s.refs c.dir))
  | .write c i seen => s.write p c i seen
  | .replace c i => s.replace p c i
  | .unlock c _ zero dropped =>
    (s.letGo p).goto p (if dropped then .unlinkLock c else c.after zero)
  | .unlinkLock c => (s.setLock c.dir none).goto p (c.after true)
  | .readLink team member =>
    match s.entries team member with
    | some (.link d) => s.goto p (.loadRefs team member d)
    | _ => (s.setEntry team member none).goto p .idle
  | .loadRefs team member linked => s.goto p (s.loaded team member linked)
  | .countRefs d => s.goto p (if s.unlisted d then .rmRefs d none else .idle)
  | .rmRefs d link =>
    if s.dirs d = none then s.goto p (afterRemoval link)
    else ((s.harm d).setRefs d none).goto p (.rmTemp d link)
  | .rmTemp d link => ((s.harm d).setTemp d none).goto p (.rmLock d link)
  | .rmLock d link => ((s.harm d).setLock d none).goto p (.rmDir d link)
  | .rmDir d link => (s.rmdir d).goto p (afterRemoval link)
  | .dropLink team member => (s.removeLink team member).goto p .idle

end State

/-- An idle process begins a call, or a process takes a step or raises. `cleanup` is the call that
`cleanup_team` makes for each entry of a team. -/
inductive Op where
  | setup (p : Pid) (b : Binding)
  | release (p : Pid) (b : Binding)
  | deleteIfZero (p : Pid) (b : Binding)
  | cleanup (p : Pid) (team member : Name)
  | next (p : Pid) (linked : Bool)
  | raise (p : Pid)

def State.begin (s : State) (p : Pid) (pc : Pc) : State :=
  if s.procs p = .idle then s.goto p pc else s

def step (s : State) : Op → State
  | .setup p b => s.begin p (.look b)
  | .release p b => s.begin p (.unlink b)
  | .deleteIfZero p b =>
    if b.mode = .dynamic then s.begin p (.countRefs b.realDir) else s
  | .cleanup p team member => s.begin p (.readLink team member)
  | .next p linked => s.nextOf p linked (s.procs p)
  | .raise p => (s.letGo p).goto p .idle

/-- No other process has the lock file of the directory open. -/
def Alone (s : State) (p : Pid) (d : Name) : Prop :=
  ∀ q, q ≠ p → ∀ i, (s.procs q).opened ≠ some (d, i)

def DropsLast (s : State) (c : Call) : Prop :=
  (∀ placed, c.job ≠ .setup placed) →
    ∀ m, (c.binding.team, m, c.dir) ∈ s.live → m = c.binding.member

/-- A step that acts on what was found earlier: a link that is kept leads to the member's own
directory, a link is not missed for a directory that was set up as predefined, a reference is
dropped for the last member that its team has there, and a lock file is unlinked, and a directory
removed, where no other process has the lock file open and, for the directory, no team is listed by
then. -/
def NextSafe (s : State) (p : Pid) (linked : Bool) : Pc → Prop
  | .look b => ∀ d, s.entries b.team b.member = some (.link d) → d = b.realDir
  | .makeLink b => linked = true ∨ b.realDir ∉ s.shared
  | .write c _ _ => DropsLast s c
  | .replace c _ => DropsLast s c
  | .unlinkLock c => Alone s p c.dir
  | .rmRefs d _ => s.unlisted d = true ∧ Alone s p d
  | .rmTemp d _ => s.unlisted d = true ∧ Alone s p d
  | .rmLock d _ => s.unlisted d = true ∧ Alone s p d
  | _ => True

/-- The directories of predefined members and of dynamic ones have different names, teams have
names, and no step acts on what is no longer so. -/
def Safe (Predefined : Name → Prop) (s : State) : Op → Prop
  | .setup _ b => (b.mode = .predefined ↔ Predefined b.realDir) ∧ b.team ≠ []
  | .deleteIfZero _ b => b.mode = .dynamic → ¬ Predefined b.realDir
  | .next p linked => NextSafe s p linked (s.procs p)
  | _ => True

end JiuwenSpec.MemberDirs

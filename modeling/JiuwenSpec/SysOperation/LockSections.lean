import JiuwenSpec.Base.Census
import JiuwenSpec.SysOperation.ReadWriteLock

/-!
# Sections of the hybrid lock

As long as no exit is cancelled, the counters count tasks, and sections exclude each other. A task
that gives up its entry notifies nobody, so it must not be the last one that could.
-/

namespace JiuwenSpec.SysOperation

open Base List

namespace Phase

/-- Counted in `_readers`. -/
def reads : Phase → Bool
  | .inside .read | .leaving .read => true
  | _ => false

/-- Has set `_writer`, and is not yet giving up the file lock. -/
def writes : Phase → Bool
  | .inside .write | .leaving .write => true
  | _ => false

def releases : Mode → Phase → Bool
  | .read, .releasing .read | .write, .releasing .write => true
  | _, _ => false

def acquires : Phase → Bool
  | .acquiring _ | .undoing _ => true
  | _ => false

/-- Was cancelled while it gave up the file lock. -/
def abandons : Phase → Bool
  | .abandoning _ => true
  | _ => false

/-- Counted in `_writers_waiting`. -/
def waits : Phase → Bool
  | .asleep .write | .woken .write | .quitting .write => true
  | _ => false

def sleeps : Mode → Phase → Bool
  | .read, .asleep .read | .write, .asleep .write => true
  | _, _ => false

def active : Phase → Bool
  | .idle | .asleep _ => false
  | _ => true

end Phase

/-- How many tasks are in each kind of phase. -/
structure Census where
  reads : Nat
  writes : Nat
  releasesRead : Nat
  releasesWrite : Nat
  acquires : Nat
  abandons : Nat
  waits : Nat
  sleepsRead : Nat
  sleepsWrite : Nat
  active : Nat

def census (tasks : List Phase) : Census where
  reads := tasks.countP Phase.reads
  writes := tasks.countP Phase.writes
  releasesRead := tasks.countP (Phase.releases .read)
  releasesWrite := tasks.countP (Phase.releases .write)
  acquires := tasks.countP Phase.acquires
  abandons := tasks.countP Phase.abandons
  waits := tasks.countP Phase.waits
  sleepsRead := tasks.countP (Phase.sleeps .read)
  sleepsWrite := tasks.countP (Phase.sleeps .write)
  active := tasks.countP Phase.active

/-- The numbers after one task went from `a` to `b`. -/
def Census.shift (c : Census) (a b : Phase) : Census where
  reads := c.reads + b.reads.toNat - a.reads.toNat
  writes := c.writes + b.writes.toNat - a.writes.toNat
  releasesRead := c.releasesRead + (Phase.releases .read b).toNat - (Phase.releases .read a).toNat
  releasesWrite :=
    c.releasesWrite + (Phase.releases .write b).toNat - (Phase.releases .write a).toNat
  acquires := c.acquires + b.acquires.toNat - a.acquires.toNat
  abandons := c.abandons + b.abandons.toNat - a.abandons.toNat
  waits := c.waits + b.waits.toNat - a.waits.toNat
  sleepsRead := c.sleepsRead + (Phase.sleeps .read b).toNat - (Phase.sleeps .read a).toNat
  sleepsWrite := c.sleepsWrite + (Phase.sleeps .write b).toNat - (Phase.sleeps .write a).toNat
  active := c.active + b.active.toNat - a.active.toNat

theorem countP_shift {tasks : List Phase} {i : Nat} {a : Phase} (p : Phase → Bool)
    (h : tasks[i]? = some a) (b : Phase) :
    (tasks.set i b).countP p = tasks.countP p + (p b).toNat - (p a).toNat := by
  have hmove := countP_move p h b
  omega

theorem census_move {tasks : List Phase} {i : Nat} {a : Phase} (h : tasks[i]? = some a)
    (b : Phase) : census (tasks.set i b) = (census tasks).shift a b := by
  simp only [census, Census.shift, countP_shift _ h b]

structure Census.Notified (c c' : Census) : Prop where
  reads : c'.reads = c.reads
  writes : c'.writes = c.writes
  releasesRead : c'.releasesRead = c.releasesRead
  releasesWrite : c'.releasesWrite = c.releasesWrite
  acquires : c'.acquires = c.acquires
  abandons : c'.abandons = c.abandons
  waits : c'.waits = c.waits
  sleepsRead : c'.sleepsRead = 0
  sleepsWrite : c'.sleepsWrite = 0

theorem countP_notify (p : Phase → Bool) (h : ∀ m, p (.asleep m) = p (.woken m))
    (tasks : List Phase) : (tasks.map Phase.notify).countP p = tasks.countP p := by
  rw [countP_map]
  refine countP_congr fun phase _ => ?_
  cases phase <;> simp [Phase.notify, h]

theorem countP_sleeps_notify (m : Mode) (tasks : List Phase) :
    (tasks.map Phase.notify).countP (Phase.sleeps m) = 0 := by
  rw [countP_map, countP_eq_zero]
  intro phase _
  cases phase <;> cases m <;> simp [Phase.notify, Phase.sleeps]

theorem census_notify (tasks : List Phase) :
    (census tasks).Notified (census (tasks.map Phase.notify)) where
  reads := countP_notify _ (fun m => by cases m <;> rfl) tasks
  writes := countP_notify _ (fun m => by cases m <;> rfl) tasks
  releasesRead := countP_notify _ (fun m => by cases m <;> rfl) tasks
  releasesWrite := countP_notify _ (fun m => by cases m <;> rfl) tasks
  acquires := countP_notify _ (fun _ => rfl) tasks
  abandons := countP_notify _ (fun _ => rfl) tasks
  waits := countP_notify _ (fun m => by cases m <;> rfl) tasks
  sleepsRead := countP_sleeps_notify .read tasks
  sleepsWrite := countP_sleeps_notify .write tasks

/-- The counters and the file lock agree with the tasks, and whoever sleeps will be notified. -/
structure Census.Balanced (c : Census) (readers writer waiting locked fileRead fileWrite : Nat) :
    Prop where
  reads : readers = c.reads
  fileReads : fileRead = min 1 (c.reads + c.releasesRead)
  writes : c.writes + c.releasesWrite = writer
  oneWriter : writer ≤ 1
  fileWrites : fileWrite = writer
  waits : waiting = c.waits
  locks : c.acquires + c.releasesRead + c.releasesWrite + c.abandons = locked
  oneLock : locked ≤ 1
  acquires : 0 < c.acquires → writer = 0 ∧ readers = 0
  excludes : 0 < writer → c.reads + c.releasesRead = 0
  lastReader : 0 < c.releasesRead → readers = 0
  abandons : c.abandons = 0
  wakesWriter : 0 < c.sleepsWrite →
    0 < writer ∨ 0 < readers ∨ 0 < c.releasesRead + c.releasesWrite
  wakesReader : 0 < c.sleepsRead → writer = 0 → waiting = 0 → 0 < c.active

namespace HybridLock

variable {s : HybridLock} {i : Nat}

def holds (file : Option Mode) (m : Mode) : Nat := if file = some m then 1 else 0

/-- What this process holds goes with what other processes hold. -/
def Fits (file foreign : Option Mode) : Prop := ∀ m, file = some m → compatible m foreign = true

structure Inv (s : HybridLock) : Prop where
  balanced : (census s.tasks).Balanced s.readers s.writer.toNat s.writersWaiting s.locked.toNat
    (holds s.file .read) (holds s.file .write)
  fits : Fits s.file s.foreign

/-- A task may give up its entry: no reader sleeps for nothing, or another task is active. -/
def MayGiveUp (s : HybridLock) (waiting : Nat) : Prop :=
  0 < s.tasks.countP (Phase.sleeps .read) → s.writer = false → waiting = 0 →
    2 ≤ s.tasks.countP Phase.active

/-- No exit is cancelled and no task that takes back a file lock is cancelled again; a task that
gives up its entry may do so. -/
def Careful (s : HybridLock) : LockOp → Prop
  | .lock i expired =>
    s.locked = false →
      match s.tasks[i]? with
      | some (.entering _) => expired = true → s.MayGiveUp s.writersWaiting
      | some (.quitting .read) => s.MayGiveUp s.writersWaiting
      | some (.quitting .write) => s.MayGiveUp (s.writersWaiting - 1)
      | _ => True
  | .refused i =>
    match s.tasks[i]? with
    | some (.acquiring _) => s.MayGiveUp s.writersWaiting
    | _ => True
  | .undone i =>
    match s.tasks[i]? with
    | some (.undoing _) => s.MayGiveUp s.writersWaiting
    | _ => True
  | .cancel i _ =>
    match s.tasks[i]? with
    | some (.entering _) => s.MayGiveUp s.writersWaiting
    | some (.leaving _) | some (.releasing _) | some (.abandoning _) | some (.undoing _) => False
    | _ => True
  | _ => True

theorem inv_init (n : Nat) : (init n).Inv := by
  have hcount : ∀ p : Phase → Bool, p .idle = false →
      (List.replicate n Phase.idle).countP p = 0 := by
    intro p hp
    rw [countP_replicate, hp]
    rfl
  have hcensus : census (init n).tasks = ⟨0, 0, 0, 0, 0, 0, 0, 0, 0, 0⟩ := by
    simp only [census, init]
    rw [hcount _ rfl, hcount _ rfl, hcount _ rfl, hcount _ rfl, hcount _ rfl, hcount _ rfl,
      hcount _ rfl, hcount _ rfl, hcount _ rfl, hcount _ rfl]
  refine ⟨?_, fun m hm => by cases hm⟩
  rw [hcensus]
  constructor <;> simp [init, holds]

theorem MayGiveUp.census {waiting : Nat} (hg : s.MayGiveUp waiting) :
    0 < (census s.tasks).sleepsRead → s.writer.toNat = 0 → waiting = 0 →
      2 ≤ (SysOperation.census s.tasks).active := by
  intro hsleep hwriter hwaiting
  refine hg hsleep ?_ hwaiting
  cases hw : s.writer with
  | false => rfl
  | true => rw [hw] at hwriter; cases hwriter

theorem ready_iff (m : Mode) : s.ready m = true ↔ s.writer.toNat = 0 ∧
    (match m with
      | .read => s.writersWaiting
      | .write => s.readers) = 0 := by
  cases m <;> cases hw : s.writer <;> simp [ready, hw]

theorem busy_of_not_ready {writer readers : Nat} {p : Prop} (h : ¬ (writer = 0 ∧ readers = 0)) :
    0 < writer ∨ 0 < readers ∨ p := by
  by_cases hw : writer = 0
  · exact .inr (.inl (Nat.pos_of_ne_zero fun hr => h ⟨hw, hr⟩))
  · exact .inl (Nat.pos_of_ne_zero hw)

theorem Inv.start (h : s.Inv) (hi : s.tasks[i]? = some .idle) (m : Mode) :
    (s.move i (.entering m)).Inv := by
  refine ⟨?_, h.fits⟩
  have hb := h.balanced
  rw [move, census_move hi]
  exact { hb with wakesReader := fun _ _ _ => Nat.succ_pos _ }

variable {m : Mode}

theorem Inv.giveUp (h : s.Inv) (hi : s.tasks[i]? = some (.entering m))
    (hg : s.MayGiveUp s.writersWaiting) : (s.move i .idle).Inv := by
  refine ⟨?_, h.fits⟩
  have hb := h.balanced
  rw [move, census_move hi]
  exact { hb with wakesReader := fun h1 h2 h3 => Nat.sub_pos_of_lt (hg.census h1 h2 h3) }

theorem Inv.quit (h : s.Inv) (hi : s.tasks[i]? = some (.asleep m)) :
    (s.move i (.quitting m)).Inv := by
  refine ⟨?_, h.fits⟩
  have hb := h.balanced
  rw [move, census_move hi]
  cases m with
  | read => exact { hb with wakesReader := fun _ _ _ => Nat.succ_pos _ }
  | write =>
    exact { hb with
      wakesWriter := fun h1 => hb.wakesWriter (Nat.lt_of_lt_of_le h1 (Nat.sub_le _ _))
      wakesReader := fun _ _ _ => Nat.succ_pos _ }

theorem Inv.quitWoken (h : s.Inv) (hi : s.tasks[i]? = some (.woken m)) :
    (s.move i (.quitting m)).Inv := by
  refine ⟨?_, h.fits⟩
  have hb := h.balanced
  rw [move, census_move hi]
  cases m <;> exact { hb with }

theorem Inv.quitted (h : s.Inv) (hi : s.tasks[i]? = some (.quitting m))
    (hg : s.MayGiveUp (s.unwait m).writersWaiting) : ((s.unwait m).move i .idle).Inv := by
  refine ⟨?_, by cases m <;> exact h.fits⟩
  have hb := h.balanced
  have hwake := hg.census
  cases m with
  | read =>
    change (census (s.tasks.set i .idle)).Balanced _ _ _ _ _ _
    rw [census_move hi]
    exact { hb with wakesReader := fun h1 h2 h3 => Nat.sub_pos_of_lt (hwake h1 h2 h3) }
  | write =>
    change (census (s.tasks.set i .idle)).Balanced _ _ _ _ _ _
    rw [census_move hi]
    exact { hb with
      waits := congrArg (· - 1) hb.waits
      wakesReader := fun h1 h2 h3 => Nat.sub_pos_of_lt (hwake h1 h2 h3) }

theorem Inv.leave (h : s.Inv) (hi : s.tasks[i]? = some (.inside m)) :
    (s.move i (.leaving m)).Inv := by
  refine ⟨?_, h.fits⟩
  have hb := h.balanced
  rw [move, census_move hi]
  cases m <;> exact { hb with }

theorem Inv.undo (h : s.Inv) (hi : s.tasks[i]? = some (.acquiring m)) :
    (s.move i (.undoing m)).Inv := by
  refine ⟨?_, h.fits⟩
  have hb := h.balanced
  rw [move, census_move hi]
  exact { hb with }

theorem Inv.sleep (h : s.Inv) (hi : s.tasks[i]? = some (.entering m))
    (hready : s.ready m ≠ true) : (s.sleep i m).Inv := by
  refine ⟨?_, by cases m <;> exact h.fits⟩
  have hb := h.balanced
  rw [Ne, ready_iff] at hready
  cases m with
  | read =>
    change (census (s.tasks.set i (.asleep .read))).Balanced _ _ _ _ _ _
    rw [census_move hi]
    exact { hb with wakesReader := fun _ h2 h3 => absurd ⟨h2, h3⟩ hready }
  | write =>
    change (census (s.tasks.set i (.asleep .write))).Balanced _ _ _ _ _ _
    rw [census_move hi]
    exact { hb with
      waits := congrArg (· + 1) hb.waits
      wakesWriter := fun _ => busy_of_not_ready hready
      wakesReader := fun _ _ h3 => absurd h3 (Nat.succ_ne_zero _) }

theorem Inv.sleepAgain (h : s.Inv) (hi : s.tasks[i]? = some (.woken m))
    (hready : s.ready m ≠ true) : (s.move i (.asleep m)).Inv := by
  refine ⟨?_, h.fits⟩
  have hb := h.balanced
  rw [Ne, ready_iff] at hready
  rw [move, census_move hi]
  cases m with
  | read => exact { hb with wakesReader := fun _ h2 h3 => absurd ⟨h2, h3⟩ hready }
  | write =>
    have hwaiting : 0 < (census s.tasks).waits := countP_pos_of_get _ hi rfl
    exact { hb with
      wakesWriter := fun _ => busy_of_not_ready hready
      wakesReader := fun _ _ h3 => absurd (hb.waits.symm.trans h3) hwaiting.ne' }

theorem Inv.unlocked (h : s.Inv) (hlocked : s.locked = false) :
    (census s.tasks).acquires = 0 ∧ (census s.tasks).releasesRead = 0 ∧
      (census s.tasks).releasesWrite = 0 := by
  have hlocks := h.balanced.locks
  rw [hlocked] at hlocks
  simp only [Bool.toNat_false] at hlocks
  omega

theorem Inv.alone (h : s.Inv) : (census s.tasks).acquires + (census s.tasks).releasesRead +
    (census s.tasks).releasesWrite ≤ 1 := by
  have hlocks := h.balanced.locks
  have hone := h.balanced.oneLock
  omega

theorem Inv.acquire (h : s.Inv) (hlocked : s.locked = false)
    (hi : s.tasks[i]? = some (.entering m)) (hidle : s.writer.toNat = 0 ∧ s.readers = 0) :
    HybridLock.Inv { s.move i (.acquiring m) with locked := true } := by
  refine ⟨?_, h.fits⟩
  have hb := h.balanced
  have hfree := h.unlocked hlocked
  have habandons := hb.abandons
  change (census (s.tasks.set i _)).Balanced _ _ _ _ _ _
  rw [census_move hi]
  refine { hb with
    locks := ?_
    oneLock := le_rfl
    acquires := fun _ => hidle }
  change (census s.tasks).acquires + 1 + (census s.tasks).releasesRead +
    (census s.tasks).releasesWrite + (census s.tasks).abandons = 1
  omega

theorem Inv.join (h : s.Inv) (hlocked : s.locked = false)
    (hi : s.tasks[i]? = some (.entering .read)) (hready : s.writer.toNat = 0)
    (hreaders : s.readers ≠ 0) :
    HybridLock.Inv { s.move i (.inside .read) with readers := s.readers + 1 } := by
  refine ⟨?_, h.fits⟩
  have hb := h.balanced
  have hfree := h.unlocked hlocked
  have hreads := hb.reads
  change (census (s.tasks.set i _)).Balanced _ _ _ _ _ _
  rw [census_move hi]
  refine { hb with
    reads := congrArg (· + 1) hb.reads
    fileReads := ?_
    acquires := fun h1 => absurd hfree.1 h1.ne'
    excludes := fun h1 => absurd hready h1.ne'
    lastReader := fun h1 => absurd hfree.2.1 h1.ne'
    wakesWriter := fun _ => .inr (.inl (Nat.succ_pos _)) }
  have hfile := hb.fileReads
  change holds s.file .read =
    min 1 ((census s.tasks).reads + 1 + (census s.tasks).releasesRead)
  omega

theorem Inv.reenter (h : s.Inv) (hi : s.tasks[i]? = some (.woken m))
    (hready : s.writer.toNat = 0 ∧ (m = .write → s.readers = 0)) :
    ((s.unwait m).move i (.entering m)).Inv := by
  refine ⟨?_, by cases m <;> exact h.fits⟩
  have hb := h.balanced
  have hactive : 0 < (census s.tasks).active := countP_pos_of_get _ hi rfl
  change (census ((s.unwait m).tasks.set i _)).Balanced _ _ _ _ _ _
  cases m with
  | read =>
    change (census (s.tasks.set i _)).Balanced _ _ _ _ _ _
    rw [census_move hi]
    exact { hb with }
  | write =>
    change (census (s.tasks.set i _)).Balanced _ _ _ _ _ _
    rw [census_move hi]
    exact { hb with
      waits := congrArg (· - 1) hb.waits
      wakesReader := fun _ _ _ => hactive }

theorem Inv.letIn (h : s.Inv) (hlocked : s.locked = false) (hi : s.tasks[i]? = some (.entering m))
    (hready : s.writer.toNat = 0 ∧ (m = .write → s.readers = 0)) : (s.letIn i m).Inv := by
  cases m with
  | read =>
    rw [HybridLock.letIn]
    split
    · next hzero => exact h.acquire hlocked hi ⟨hready.1, hzero⟩
    · next hsome => exact h.join hlocked hi hready.1 hsome
  | write => exact h.acquire hlocked hi ⟨hready.1, hready.2 rfl⟩

theorem ready_weak (h : s.ready m = true) : s.writer.toNat = 0 ∧ (m = .write → s.readers = 0) := by
  rw [ready_iff] at h
  cases m with
  | read => exact ⟨h.1, fun hm => by cases hm⟩
  | write => exact ⟨h.1, fun _ => h.2⟩

theorem letIn_reenter (m : Mode) :
    ((s.unwait m).move i (.entering m)).letIn i m = (s.unwait m).letIn i m := by
  cases m with
  | read =>
    simp only [HybridLock.letIn, unwait, move, set_set]
    rfl
  | write => simp only [HybridLock.letIn, unwait, move, set_set]

theorem Inv.notifyAll {c : Census} {tasks : List Phase}
    {readers writer waiting locked fileRead fileWrite : Nat} (hc : c = census tasks)
    (h : c.reads = readers ∧ fileRead = min 1 (c.reads + c.releasesRead) ∧
      c.writes + c.releasesWrite = writer ∧ writer ≤ 1 ∧ fileWrite = writer ∧
      waiting = c.waits ∧
      c.acquires + c.releasesRead + c.releasesWrite + c.abandons = locked ∧ locked ≤ 1 ∧
      (0 < c.acquires → writer = 0 ∧ readers = 0) ∧
      (0 < writer → c.reads + c.releasesRead = 0) ∧
      (0 < c.releasesRead → readers = 0) ∧ c.abandons = 0) :
    (census (tasks.map Phase.notify)).Balanced readers writer waiting locked fileRead
      fileWrite := by
  subst hc
  obtain ⟨n1, n2, n3, n4, n5, n6, n7, n8, n9⟩ := census_notify tasks
  obtain ⟨h1, h2, h3, h4, h5, h6, h7, h8, h9, h10, h11, h12⟩ := h
  exact
    { reads := by rw [n1, h1]
      fileReads := by rw [n1, n3, h2]
      writes := by rw [n2, n4, h3]
      oneWriter := h4
      fileWrites := h5
      waits := by rw [n7, h6]
      locks := by rw [n5, n3, n4, n6, h7]
      oneLock := h8
      acquires := by rw [n5]; exact h9
      excludes := by rw [n1, n3]; exact h10
      lastReader := by rw [n3]; exact h11
      abandons := by rw [n6, h12]
      wakesWriter := fun hs => absurd n9 hs.ne'
      wakesReader := fun hs => absurd n8 hs.ne' }

theorem Inv.exit (h : s.Inv) (hlocked : s.locked = false)
    (hi : s.tasks[i]? = some (.leaving m)) : (s.exit i m).Inv := by
  have hb := h.balanced
  have hfree := h.unlocked hlocked
  have habandons := hb.abandons
  cases m with
  | read =>
    have hpos : 0 < (census s.tasks).reads := countP_pos_of_get _ hi rfl
    have hreads := hb.reads
    have hfile := hb.fileReads
    have hwriter : s.writer.toNat = 0 := by
      by_contra hw
      have hzero := hb.excludes (Nat.pos_of_ne_zero hw)
      omega
    rw [HybridLock.exit]
    split
    · next hlast =>
      refine ⟨?_, h.fits⟩
      change (census (s.tasks.set i _)).Balanced _ _ _ _ _ _
      rw [census_move hi]
      refine { hb with
        reads := congrArg (· - 1) hb.reads
        fileReads := ?_
        locks := ?_
        oneLock := le_rfl
        acquires := fun h1 => absurd hfree.1 h1.ne'
        excludes := fun h1 => absurd hwriter h1.ne'
        lastReader := fun _ => hlast
        wakesWriter := fun _ =>
          .inr (.inr (Nat.lt_of_lt_of_le (Nat.succ_pos _) (Nat.le_add_right _ _))) }
      · change holds s.file .read =
          min 1 ((census s.tasks).reads - 1 + ((census s.tasks).releasesRead + 1))
        omega
      · change (census s.tasks).acquires + ((census s.tasks).releasesRead + 1) +
          (census s.tasks).releasesWrite + (census s.tasks).abandons = 1
        omega
    · next hmore =>
      refine ⟨?_, h.fits⟩
      refine Inv.notifyAll (census_move hi .idle).symm ?_
      refine ⟨congrArg (· - 1) hreads.symm, ?_, hb.writes, hb.oneWriter, hb.fileWrites, hb.waits,
        hb.locks, hb.oneLock, fun h1 => absurd hfree.1 h1.ne', fun h1 => absurd hwriter h1.ne',
        fun h1 => absurd hfree.2.1 h1.ne', hb.abandons⟩
      change holds s.file .read =
        min 1 ((census s.tasks).reads - 1 + (census s.tasks).releasesRead)
      omega
  | write =>
    refine ⟨?_, h.fits⟩
    have hpos : 0 < (census s.tasks).writes := countP_pos_of_get _ hi rfl
    have hwrites := hb.writes
    change (census (s.tasks.set i _)).Balanced _ _ _ _ _ _
    rw [census_move hi]
    refine { hb with
      writes := ?_
      locks := ?_
      oneLock := le_rfl
      wakesWriter := fun _ => .inr (.inr (Nat.succ_pos _)) }
    · change (census s.tasks).writes - 1 + ((census s.tasks).releasesWrite + 1) = s.writer.toNat
      omega
    · change (census s.tasks).acquires + (census s.tasks).releasesRead +
        ((census s.tasks).releasesWrite + 1) + (census s.tasks).abandons = 1
      omega

theorem Inv.acquired (h : s.Inv) (i : Nat) : (s.acquired i).Inv := by
  have hb := h.balanced
  have halone := h.alone
  rw [HybridLock.acquired]
  split
  · next hi =>
    split
    · next hfits =>
      have hpos : 0 < (census s.tasks).acquires := countP_pos_of_get _ hi rfl
      obtain ⟨hwriter, hreaders⟩ := hb.acquires hpos
      have hreads := hb.reads
      have hlocks := hb.locks
      have hactive : 0 < (census s.tasks).active := countP_pos_of_get _ hi rfl
      refine ⟨?_, fun m hm => by cases hm; exact hfits⟩
      change (census (s.tasks.set i _)).Balanced (s.readers + 1) s.writer.toNat
        s.writersWaiting 0 1 0
      rw [census_move hi]
      refine { hb with
        reads := congrArg (· + 1) hreads
        fileReads := ?_
        fileWrites := hwriter.symm
        locks := ?_
        oneLock := Nat.zero_le _
        acquires := ?_
        excludes := fun h1 => absurd hwriter h1.ne'
        lastReader := ?_
        wakesWriter := fun _ => .inr (.inl (Nat.succ_pos _)) }
      · change 1 = min 1 ((census s.tasks).reads + 1 + (census s.tasks).releasesRead)
        omega
      · change (census s.tasks).acquires - 1 + (census s.tasks).releasesRead +
          (census s.tasks).releasesWrite + (census s.tasks).abandons = 0
        have habandons := hb.abandons
        omega
      · intro h1
        change 0 < (census s.tasks).acquires - 1 at h1
        omega
      · intro h1
        change 0 < (census s.tasks).releasesRead at h1
        omega
    · exact h
  · next hi =>
    split
    · next hfits =>
      have hpos : 0 < (census s.tasks).acquires := countP_pos_of_get _ hi rfl
      obtain ⟨hwriter, hreaders⟩ := hb.acquires hpos
      have hreads := hb.reads
      have hwrites := hb.writes
      refine ⟨?_, fun m hm => by cases hm; exact hfits⟩
      change (census (s.tasks.set i _)).Balanced s.readers 1 s.writersWaiting 0 0 1
      rw [census_move hi]
      refine { hb with
        fileReads := ?_
        writes := ?_
        oneWriter := le_rfl
        fileWrites := rfl
        locks := ?_
        oneLock := Nat.zero_le _
        acquires := ?_
        excludes := fun _ => ?_
        wakesWriter := fun _ => .inl (Nat.succ_pos _)
        wakesReader := fun _ h2 => absurd h2 (Nat.succ_ne_zero _) }
      · change 0 = min 1 ((census s.tasks).reads + (census s.tasks).releasesRead)
        omega
      · change (census s.tasks).writes + 1 + (census s.tasks).releasesWrite = 1
        omega
      · change (census s.tasks).acquires - 1 + (census s.tasks).releasesRead +
          (census s.tasks).releasesWrite + (census s.tasks).abandons = 0
        have habandons := hb.abandons
        omega
      · intro h1
        change 0 < (census s.tasks).acquires - 1 at h1
        omega
      · change (census s.tasks).reads + (census s.tasks).releasesRead = 0
        omega
    · exact h
  · exact h

theorem Inv.drop (h : s.Inv)
    (hi : s.tasks[i]? = some (.acquiring m) ∨ s.tasks[i]? = some (.undoing m))
    (hg : s.MayGiveUp s.writersWaiting) : (s.drop i).Inv := by
  have hb := h.balanced
  have halone := h.alone
  have habandons := hb.abandons
  have hwake := hg.census
  rcases hi with hi | hi
  all_goals
    have hpos : 0 < (census s.tasks).acquires := countP_pos_of_get _ hi rfl
    refine ⟨?_, h.fits⟩
    change (census (s.tasks.set i _)).Balanced s.readers s.writer.toNat s.writersWaiting 0 _ _
    rw [census_move hi]
    refine { hb with
      locks := ?_
      oneLock := Nat.zero_le _
      acquires := ?_
      wakesReader := fun h1 h2 h3 => Nat.sub_pos_of_lt (hwake h1 h2 h3) }
    · change (census s.tasks).acquires - 1 + (census s.tasks).releasesRead +
        (census s.tasks).releasesWrite + (census s.tasks).abandons = 0
      omega
    · intro h1
      change 0 < (census s.tasks).acquires - 1 at h1
      omega

theorem Inv.released (h : s.Inv) (i : Nat) : (s.released i).Inv := by
  have hb := h.balanced
  have halone := h.alone
  have habandons := hb.abandons
  have hreads := hb.reads
  have hwrites := hb.writes
  have hone := hb.oneWriter
  rw [HybridLock.released]
  split
  · next hi =>
    have hpos : 0 < (census s.tasks).releasesRead := countP_pos_of_get _ hi rfl
    have hreaders := hb.lastReader hpos
    have hwriter : s.writer.toNat = 0 := by
      by_contra hw
      have hzero := hb.excludes (Nat.pos_of_ne_zero hw)
      omega
    refine ⟨?_, fun m hm => by cases hm⟩
    change (census ((s.tasks.set i _).map Phase.notify)).Balanced s.readers s.writer.toNat
      s.writersWaiting 0 0 0
    refine Inv.notifyAll (census_move hi .idle).symm ⟨hreads.symm, ?_, hwrites, hone, hwriter.symm,
      hb.waits, ?_, Nat.zero_le _, hb.acquires, fun h1 => absurd hwriter h1.ne', fun _ => hreaders,
      habandons⟩
    · change 0 = min 1 ((census s.tasks).reads + ((census s.tasks).releasesRead - 1))
      omega
    · change (census s.tasks).acquires + ((census s.tasks).releasesRead - 1) +
        (census s.tasks).releasesWrite + (census s.tasks).abandons = 0
      omega
  · next hi =>
    have hpos : 0 < (census s.tasks).releasesWrite := countP_pos_of_get _ hi rfl
    have hzero := hb.excludes (by omega)
    refine ⟨?_, fun m hm => by cases hm⟩
    change (census ((s.tasks.set i _).map Phase.notify)).Balanced s.readers 0 s.writersWaiting 0 0 0
    refine Inv.notifyAll (census_move hi .idle).symm ⟨hreads.symm, ?_, ?_, Nat.zero_le _, rfl,
      hb.waits, ?_, Nat.zero_le _, fun h1 => ⟨rfl, (hb.acquires h1).2⟩,
      fun h1 => absurd rfl h1.ne', hb.lastReader, habandons⟩
    · change 0 = min 1 ((census s.tasks).reads + (census s.tasks).releasesRead)
      omega
    · change (census s.tasks).writes + ((census s.tasks).releasesWrite - 1) = 0
      omega
    · change (census s.tasks).acquires + (census s.tasks).releasesRead +
        ((census s.tasks).releasesWrite - 1) + (census s.tasks).abandons = 0
      omega
  · next hi =>
    have hpos : 0 < (census s.tasks).abandons := countP_pos_of_get _ hi rfl
    exact absurd habandons hpos.ne'
  · exact h

theorem step_foreign (s : HybridLock) (f : Option Mode) : s.step (.foreign f) = s ∨
    (s.step (.foreign f) = { s with foreign := f } ∧ Fits s.file f) := by
  rcases s with ⟨tasks, readers, writer, waiting, locked, file, foreign⟩
  rcases f with _ | _ | _
  · exact .inr ⟨rfl, fun m _ => by cases m <;> rfl⟩
  · rcases file with _ | _ | _
    · exact .inr ⟨rfl, fun m hm => by cases hm⟩
    · exact .inr ⟨rfl, fun m hm => by cases hm; rfl⟩
    · exact .inl rfl
  · rcases file with _ | _
    · exact .inr ⟨rfl, fun m hm => by cases hm⟩
    · exact .inl rfl

theorem Inv.foreign (h : s.Inv) (f : Option Mode) : (s.step (.foreign f)).Inv := by
  obtain heq | ⟨heq, hfits⟩ := step_foreign s f
  · rw [heq]
    exact h
  · rw [heq]
    exact ⟨h.balanced, hfits⟩

theorem Inv.lock (h : s.Inv) {i : Nat} {expired : Bool} (hc : s.Careful (.lock i expired)) :
    (s.lock i expired).Inv := by
  rw [HybridLock.lock]
  split
  · exact h
  · next hlocked =>
    have hlocked : s.locked = false := by simpa using hlocked
    have hc := hc hlocked
    split
    · next m hi =>
      rw [hi] at hc
      split
      · next hexpired => exact h.giveUp hi (hc hexpired)
      · split
        · next hready => exact h.letIn hlocked hi (ready_weak hready)
        · next hready => exact h.sleep hi hready
    · next m hi =>
      split
      · next hready =>
        rw [← letIn_reenter]
        have hlen : i < (s.unwait m).tasks.length := by
          have hlt := (List.getElem?_eq_some_iff.mp hi).1
          cases m <;> exact hlt
        refine (h.reenter hi (ready_weak hready)).letIn ?_ ?_ ?_
        · cases m <;> exact hlocked
        · exact List.getElem?_set_self hlen
        · cases m <;> exact ready_weak hready
      · next hready => exact h.sleepAgain hi hready
    · next m hi =>
      rw [hi] at hc
      refine h.quitted hi ?_
      cases m <;> exact hc
    · next m hi => exact h.exit hlocked hi
    · exact h

theorem Inv.step (h : s.Inv) {op : LockOp} (hc : s.Careful op) : (s.step op).Inv := by
  cases op with
  | start i m =>
    rw [HybridLock.step]
    split
    · next hi => exact h.start hi m
    · exact h
  | lock i expired => exact h.lock hc
  | timeout i =>
    rw [HybridLock.step]
    split
    · next m hi => exact h.quit hi
    · next m hi => exact h.quitWoken hi
    · exact h
  | acquired i => exact h.acquired i
  | refused i =>
    rw [HybridLock.step]
    split
    · next m hi =>
      rw [Careful, hi] at hc
      exact h.drop (.inl hi) hc
    · exact h
  | undone i =>
    rw [HybridLock.step]
    split
    · next m hi =>
      rw [Careful, hi] at hc
      exact h.drop (.inr hi) hc
    · exact h
  | leave i =>
    rw [HybridLock.step]
    split
    · next m hi => exact h.leave hi
    · exact h
  | released i => exact h.released i
  | cancel i late =>
    rw [HybridLock.step, HybridLock.cancel]
    rw [Careful] at hc
    split
    · next m hi => rw [hi] at hc; exact h.giveUp hi hc
    · next m hi => exact h.quit hi
    · next m hi => exact h.quitWoken hi
    · next m hi => exact h.undo hi
    · next m hi => rw [hi] at hc; exact hc.elim
    · next m hi => exact h.leave hi
    · next m hi => rw [hi] at hc; exact hc.elim
    · next m hi => rw [hi] at hc; exact hc.elim
    · next m hi => rw [hi] at hc; exact hc.elim
    · exact h
  | foreign f => exact h.foreign f

/-- A write section has no other section beside it, here or in another process. -/
def Exclusive (s : HybridLock) : Prop :=
  ∀ i : Nat, s.tasks[i]? = some (.inside .write) →
    s.foreign = none ∧ ∀ (j : Nat) (m : Mode), j ≠ i → s.tasks[j]? ≠ some (.inside m)

/-- A read section has no write section of another process beside it. -/
def Shared (s : HybridLock) : Prop :=
  ∀ i : Nat, s.tasks[i]? = some (.inside .read) → s.foreign ≠ some .write

/-- Nothing is counted and the file lock is not held. -/
def Clean (s : HybridLock) : Prop :=
  s.readers = 0 ∧ s.writer = false ∧ s.writersWaiting = 0 ∧ s.file = none

/-- A task that sleeps although its predicate holds is not alone: another one is in a section or
entering one. -/
def Attended (s : HybridLock) : Prop :=
  ∀ (i : Nat) (m : Mode), s.tasks[i]? = some (.asleep m) → s.ready m = true →
    ∃ (j : Nat) (phase : Phase), j ≠ i ∧ s.tasks[j]? = some phase ∧ phase.active = true

theorem Inv.exclusive (h : s.Inv) : s.Exclusive := by
  intro i hi
  have hb := h.balanced
  have hpos : 0 < (census s.tasks).writes := countP_pos_of_get _ hi rfl
  have hwrites := hb.writes
  have hone := hb.oneWriter
  have hzero := hb.excludes (by omega)
  have hfile : s.file = some .write := by
    by_contra hne
    have hheld := hb.fileWrites
    rw [holds, if_neg hne] at hheld
    omega
  refine ⟨?_, fun j m hj hget => ?_⟩
  · have hfits := h.fits .write hfile
    cases hforeign : s.foreign with
    | none => rfl
    | some m => rw [hforeign] at hfits; cases m <;> cases hfits
  · cases m with
    | read =>
      have hread : 0 < (census s.tasks).reads := countP_pos_of_get _ hget rfl
      omega
    | write =>
      have htwo : 2 ≤ (census s.tasks).writes := two_le_countP _ hj hget hi rfl rfl
      omega

theorem Inv.shared (h : s.Inv) : s.Shared := by
  intro i hi hforeign
  have hb := h.balanced
  have hpos : 0 < (census s.tasks).reads := countP_pos_of_get _ hi rfl
  have hheld := hb.fileReads
  have hfile : s.file = some .read := by
    by_contra hne
    rw [holds, if_neg hne] at hheld
    omega
  have hfits := h.fits .read hfile
  rw [hforeign] at hfits
  cases hfits

theorem Inv.clean (h : s.Inv) (hidle : ∀ phase ∈ s.tasks, phase = .idle) : s.Clean := by
  have hb := h.balanced
  have hzero : ∀ p : Phase → Bool, p .idle = false → s.tasks.countP p = 0 := by
    intro p hp
    refine countP_eq_zero.mpr fun phase hphase => ?_
    rw [hidle phase hphase, hp]
    simp
  have hreads : (census s.tasks).reads = 0 := hzero _ rfl
  have hreleases : (census s.tasks).releasesRead = 0 := hzero _ rfl
  have hwrites : (census s.tasks).writes = 0 := hzero _ rfl
  have hreleases' : (census s.tasks).releasesWrite = 0 := hzero _ rfl
  have hwaits : (census s.tasks).waits = 0 := hzero _ rfl
  have hwriter : s.writer.toNat = 0 := by
    have hsum := hb.writes
    omega
  refine ⟨hb.reads.trans hreads, by simpa using hwriter, hb.waits.trans hwaits, ?_⟩
  have hread := hb.fileReads
  have hwrite := hb.fileWrites
  cases hfile : s.file with
  | none => rfl
  | some m =>
    rw [hfile] at hread hwrite
    cases m with
    | read =>
      rw [holds, if_pos rfl] at hread
      omega
    | write =>
      rw [holds, if_pos rfl] at hwrite
      omega

theorem Inv.attended (h : s.Inv) : s.Attended := by
  intro i m hi hready
  have hb := h.balanced
  have hactive : 0 < s.tasks.countP Phase.active → ∃ (j : Nat) (phase : Phase), j ≠ i ∧
      s.tasks[j]? = some phase ∧ phase.active = true := by
    intro hpos
    obtain ⟨phase, hphase, hact⟩ := countP_pos_iff.mp hpos
    obtain ⟨j, hj⟩ := mem_iff_getElem?.mp hphase
    refine ⟨j, phase, ?_, hj, hact⟩
    rintro rfl
    rw [hi] at hj
    cases hj
    cases hact
  rw [ready_iff] at hready
  cases m with
  | read =>
    have hsleeps : 0 < (census s.tasks).sleepsRead := countP_pos_of_get _ hi rfl
    exact hactive (hb.wakesReader hsleeps hready.1 hready.2)
  | write =>
    have hsleeps : 0 < (census s.tasks).sleepsWrite := countP_pos_of_get _ hi rfl
    have hwakes := hb.wakesWriter hsleeps
    simp only at hready
    have hreleases : 0 < (census s.tasks).releasesRead + (census s.tasks).releasesWrite := by omega
    have hread : (census s.tasks).releasesRead ≤ (census s.tasks).active :=
      countP_mono_left fun phase _ hp => by
        cases phase <;> first | rfl | cases hp
    have hwrite : (census s.tasks).releasesWrite ≤ (census s.tasks).active :=
      countP_mono_left fun phase _ hp => by
        cases phase <;> first | rfl | cases hp
    refine hactive ?_
    change 0 < (census s.tasks).active
    omega

/-- **Safety of the lock.** In a run of any number of tasks that cancels no exit, cancels no task
twice while it takes back the file lock, and in which a task gives up its entry only if that leaves
no reader asleep for nothing: sections exclude each other, an idle lock is clean, and nobody sleeps
unattended. -/
theorem hybrid_lock_safe (n : Nat) (ops : List LockOp) (h : Meets step Careful (init n) ops)
    (t : HybridLock) (ht : Reached step (init n) ops t) :
    t.Exclusive ∧ t.Shared ∧ ((∀ phase ∈ t.tasks, phase = .idle) → t.Clean) ∧ t.Attended := by
  have hinv : t.Inv :=
    reached_invariant (I := Inv) (fun _ _ hs hc => Inv.step hs hc) (inv_init n) h ht
  exact ⟨hinv.exclusive, hinv.shared, hinv.clean, hinv.attended⟩

/-- A writer that is let in and out while a reader waits behind it. -/
def plainRun : List LockOp :=
  [.start 0 .write, .lock 0 false, .acquired 0, .start 1 .read, .lock 1 false, .leave 0,
    .lock 0 false, .released 0, .lock 1 false, .acquired 1, .leave 1, .lock 1 false, .released 1]

theorem hybrid_lock_safe_plainRun : (run step (init 2) plainRun).Exclusive ∧
    (run step (init 2) plainRun).Shared ∧
    ((∀ phase ∈ (run step (init 2) plainRun).tasks, phase = .idle) →
      (run step (init 2) plainRun).Clean) ∧ (run step (init 2) plainRun).Attended := by
  refine hybrid_lock_safe 2 plainRun ?_ _ ⟨plainRun, prefix_rfl, rfl⟩
  refine ⟨trivial, fun _ h ↦ ?_, trivial, trivial, fun _ h ↦ ?_, trivial, fun _ ↦ trivial, trivial,
    fun _ => trivial, trivial, trivial, fun _ => trivial, trivial, trivial⟩
  · cases h
  · cases h

/-- A writer is cancelled while it gives up the file lock. -/
def cutRelease : List LockOp :=
  [.start 0 .write, .lock 0 false, .acquired 0, .leave 0, .lock 0 false, .cancel 0 false,
    .released 0]

/-- `_writer` stays set for ever. -/
theorem cut_release_dirty :
    ¬ ∀ (n : Nat) (ops : List LockOp) (t : HybridLock), Reached step (init n) ops t →
      t.Exclusive ∧ t.Shared ∧ ((∀ phase ∈ t.tasks, phase = .idle) → t.Clean) ∧ t.Attended := by
  intro h
  have hclean := (h 1 cutRelease _ ⟨cutRelease, prefix_rfl, rfl⟩).2.2.1 (by decide)
  have hwriter : (run step (init 1) cutRelease).writer = true := by decide
  rw [hclean.2.1] at hwriter
  cases hwriter

end HybridLock

end JiuwenSpec.SysOperation

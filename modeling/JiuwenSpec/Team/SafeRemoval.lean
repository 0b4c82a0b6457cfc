import JiuwenSpec.Team.MemberDirs

/-!
# Directories are removed unused

The lock orders the writers of a directory's references as long as its file is not unlinked under
them, so what a process has read there is current when it writes. Every member that is set up is
then listed, and a directory without a list has none.
-/

namespace JiuwenSpec.MemberDirs

open Base List Function Option

variable {Predefined : Name → Prop} {s s' : State} {p : Pid} {pc : Pc} {c : Call} {d : Name}

namespace State

theorem dirs_setDir (s : State) (d : Name) (dir : Option Dir) :
    (s.setDir d dir).dirs = Function.update s.dirs d dir := rfl

variable {α : Type} (g : Dir → Option α)

theorem bind_setDir (s : State) (d : Name) (dir : Option Dir) (d' : Name) :
    ((s.setDir d dir).dirs d').bind g = if d' = d then dir.bind g else (s.dirs d').bind g := by
  by_cases h : d' = d
  · subst h
    rw [if_pos rfl, dirs_setDir, update_self]
  · rw [if_neg h, dirs_setDir, update_of_ne h]

theorem bind_setDir_map (f : Dir → Dir) (hf : ∀ dir, g (f dir) = g dir) (s : State) (d d' : Name) :
    ((s.setDir d ((s.dirs d).map f)).dirs d').bind g = (s.dirs d').bind g := by
  rw [bind_setDir]
  split
  · next hd =>
    rw [hd]
    cases s.dirs d with
    | none => rfl
    | some dir => exact hf dir
  · rfl

theorem bind_setDir_none (dir : Option Dir) (hdir : dir.bind g = none) {s : State} {d : Name}
    (hd : (s.dirs d).bind g = none) (d' : Name) :
    ((s.setDir d dir).dirs d').bind g = (s.dirs d').bind g := by
  rw [bind_setDir, hdir]
  split
  · next heq => rw [heq, hd]
  · rfl

theorem bind_mkdir (hg : g ⟨none, none, none⟩ = none) (s : State) (d d' : Name) :
    ((s.mkdir d).dirs d').bind g = (s.dirs d').bind g := by
  rw [mkdir]
  cases h : s.dirs d with
  | none => exact bind_setDir_none g (some ⟨none, none, none⟩) hg (by rw [h]; rfl) d'
  | some dir => rfl

theorem refs_mkdir (s : State) (d d' : Name) : (s.mkdir d).refs d' = s.refs d' :=
  bind_mkdir Dir.refs rfl s d d'

theorem temp_mkdir (s : State) (d d' : Name) : (s.mkdir d).temp d' = s.temp d' :=
  bind_mkdir Dir.temp rfl s d d'

theorem lock_mkdir (s : State) (d d' : Name) : (s.mkdir d).lock d' = s.lock d' :=
  bind_mkdir Dir.lock rfl s d d'

theorem refs_setRefs (s : State) (d : Name) (r : Option Refs) (d' : Name) :
    (s.setRefs d r).refs d' = if d' = d then (s.dirs d).bind fun _ => r else s.refs d' := by
  refine (bind_setDir Dir.refs s d _ d').trans ?_
  cases s.dirs d <;> rfl

theorem temp_setRefs (s : State) (d : Name) (r : Option Refs) (d' : Name) :
    (s.setRefs d r).temp d' = s.temp d' :=
  bind_setDir_map Dir.temp (fun dir => { dir with refs := r }) (fun _ => rfl) s d d'

theorem lock_setRefs (s : State) (d : Name) (r : Option Refs) (d' : Name) :
    (s.setRefs d r).lock d' = s.lock d' :=
  bind_setDir_map Dir.lock (fun dir => { dir with refs := r }) (fun _ => rfl) s d d'

theorem refs_setTemp (s : State) (d : Name) (r : Option Refs) (d' : Name) :
    (s.setTemp d r).refs d' = s.refs d' :=
  bind_setDir_map Dir.refs (fun dir => { dir with temp := r }) (fun _ => rfl) s d d'

theorem temp_setTemp (s : State) (d : Name) (r : Option Refs) (d' : Name) :
    (s.setTemp d r).temp d' = if d' = d then (s.dirs d).bind fun _ => r else s.temp d' := by
  refine (bind_setDir Dir.temp s d _ d').trans ?_
  cases s.dirs d <;> rfl

theorem lock_setTemp (s : State) (d : Name) (r : Option Refs) (d' : Name) :
    (s.setTemp d r).lock d' = s.lock d' :=
  bind_setDir_map Dir.lock (fun dir => { dir with temp := r }) (fun _ => rfl) s d d'

theorem refs_setLock (s : State) (d : Name) (i : Option Inode) (d' : Name) :
    (s.setLock d i).refs d' = s.refs d' :=
  bind_setDir_map Dir.refs (fun dir => { dir with lock := i }) (fun _ => rfl) s d d'

theorem temp_setLock (s : State) (d : Name) (i : Option Inode) (d' : Name) :
    (s.setLock d i).temp d' = s.temp d' :=
  bind_setDir_map Dir.temp (fun dir => { dir with lock := i }) (fun _ => rfl) s d d'

theorem lock_setLock (s : State) (d : Name) (i : Option Inode) (d' : Name) :
    (s.setLock d i).lock d' = if d' = d then (s.dirs d).bind fun _ => i else s.lock d' := by
  refine (bind_setDir Dir.lock s d _ d').trans ?_
  cases s.dirs d <;> rfl

theorem rmdir_cases (s : State) (d : Name) : s.rmdir d = s ∨
    s.refs d = none ∧ s.temp d = none ∧ s.lock d = none ∧ s.rmdir d = (s.harm d).setDir d none := by
  rw [rmdir]
  split
  · next h =>
    refine .inr ⟨?_, ?_, ?_, rfl⟩
    · rw [refs, h]
      rfl
    · rw [temp, h]
      rfl
    · rw [lock, h]
      rfl
  · exact .inl rfl

theorem exists_dir_of_lock {i : Inode} (h : s.lock d = some i) : ∃ dir, s.dirs d = some dir := by
  rw [lock] at h
  cases hd : s.dirs d with
  | none =>
    rw [hd] at h
    cases h
  | some dir => exact ⟨dir, rfl⟩

end State

def Binding.Proper (Predefined : Name → Prop) (b : Binding) : Prop :=
  (b.mode = .predefined ↔ Predefined b.realDir) ∧ b.team ≠ []

/-- A setup is placed where its references are, and a cleanup only removes a directory of a dynamic
member. -/
def Call.Proper (Predefined : Name → Prop) (c : Call) : Prop :=
  match c.job with
  | .setup placed => c.binding.Proper Predefined ∧ placed = c.dir
  | .release => True
  | .cleanup linked => c.binding.mode = .dynamic → ¬ Predefined linked

/-- What holds of a process wherever the others are. -/
def Pc.Proper (Predefined : Name → Prop) : Pc → Prop
  | .look b => b.Proper Predefined
  | .mkRealDir b => b.Proper Predefined
  | .makeLink b => b.Proper Predefined
  | .mkParent c => c.Proper Predefined
  | .openLock c => c.Proper Predefined
  | .acquire c _ => c.Proper Predefined
  | .read c _ => c.Proper Predefined
  | .write c _ _ => c.Proper Predefined
  | .replace c _ => c.Proper Predefined
  | .unlock c _ _ _ => c.Proper Predefined
  | .unlinkLock c => c.Proper Predefined
  | .countRefs d => ¬ Predefined d
  | .rmRefs d _ => ¬ Predefined d
  | .rmTemp d _ => ¬ Predefined d
  | .rmLock d _ => ¬ Predefined d
  | .rmDir d _ => ¬ Predefined d
  | _ => True

/-- Who is set up is listed, and the reference file is of the kind of its directory; nothing was
removed in use. An open lock file is the one of its directory, a lock has one holder, what a
process has read under it is current, and so is what it has put into the temporary file. -/
structure Inv (Predefined : Name → Prop) (s : State) : Prop where
  listed : ∀ t m d, (t, m, d) ∈ s.live → ∃ r, s.refs d = some r ∧ t ∈ r.names
  shared : ∀ d ∈ s.shared, Predefined d
  kind : ∀ d r, s.refs d = some r → (r.kind = .predefined ↔ Predefined d)
  harmed : s.harmed = false
  proper : ∀ q, (s.procs q).Proper Predefined
  opened : ∀ q d i, (s.procs q).opened = some (d, i) → s.lock d = some i
  locked : ∀ q d i, (s.procs q).locked = some (d, i) → s.holder i = some q
  seen : ∀ q d r, (s.procs q).seen = some (d, r) → s.refs d = r
  temp : ∀ q c, (s.procs q).replaces = some c →
    ∃ r, s.temp c.dir = some r ∧ c.result (s.refs c.dir) = some (some r)

theorem inv_init : Inv Predefined State.init where
  listed _ _ _ h := absurd h List.not_mem_nil
  shared _ h := absurd h List.not_mem_nil
  kind _ _ h := absurd h (some_ne_none _).symm
  harmed := rfl
  proper _ := trivial
  opened _ _ _ h := absurd h (some_ne_none _).symm
  locked _ _ _ h := absurd h (some_ne_none _).symm
  seen _ _ _ h := absurd h (some_ne_none _).symm
  temp _ _ h := absurd h (some_ne_none _).symm

theorem Pc.opened_of_locked {x : Name × Inode} (h : pc.locked = some x) : pc.opened = some x := by
  cases pc <;> first | exact h | cases h

theorem Pc.locked_of_seen {r : Option Refs} (h : pc.seen = some (d, r)) :
    ∃ i, pc.locked = some (d, i) := by
  cases pc with
  | write c i seen =>
    cases h
    exact ⟨i, rfl⟩
  | _ => cases h

theorem Pc.locked_of_replaces (h : pc.replaces = some c) :
    ∃ i, pc.locked = some (c.dir, i) := by
  cases pc with
  | replace c' i =>
    cases h
    exact ⟨i, rfl⟩
  | _ => cases h

theorem Pc.none_of_opened (h : pc.opened = none) :
    pc.locked = none ∧ pc.seen = none ∧ pc.replaces = none := by
  cases pc <;> first | exact ⟨rfl, rfl, rfl⟩ | cases h

theorem Inv.proper_of_eq (h : Inv Predefined s) (hpc : s.procs p = pc) : pc.Proper Predefined := by
  rw [← hpc]
  exact h.proper p

theorem Inv.exclusive (h : Inv Predefined s) {q : Pid} {i j : Inode}
    (hp : (s.procs p).locked = some (d, i)) (hq : (s.procs q).locked = some (d, j)) : p = q := by
  have hi := h.opened p d i (Pc.opened_of_locked hp)
  have hj := h.opened q d j (Pc.opened_of_locked hq)
  obtain rfl : i = j := some.inj (hi.symm.trans hj)
  exact some.inj ((h.locked p d i hp).symm.trans (h.locked q d i hq))

theorem Inv.not_live (h : Inv Predefined s) (hlist : s.unlisted d = true) {t m : Name} :
    (t, m, d) ∉ s.live := by
  intro hlive
  obtain ⟨r, hr, ht⟩ := h.listed t m d hlive
  rw [State.unlisted, hr, all_some, List.isEmpty_iff] at hlist
  rw [hlist] at ht
  exact List.not_mem_nil ht

theorem Inv.not_inUse (h : Inv Predefined s) (hlist : s.unlisted d = true)
    (hshared : d ∉ s.shared) : s.inUse d = false := by
  rw [State.inUse, Bool.or_eq_false_iff]
  refine ⟨any_eq_false.mpr fun x hx hd => ?_,
    Bool.eq_false_iff.mpr fun hd => hshared (contains_iff_mem.mp hd)⟩
  obtain ⟨t, m, d'⟩ := x
  obtain rfl : d' = d := of_decide_eq_true hd
  exact h.not_live hlist hx

theorem Inv.harm (h : Inv Predefined s) (hlist : s.unlisted d = true) (hshared : d ∉ s.shared) :
    (s.harm d).harmed = false := by
  rw [State.harm, h.harmed, h.not_inUse hlist hshared, Bool.and_false, Bool.or_false]

theorem State.unlisted_of_none (h : s.refs d = none) : s.unlisted d = true := by
  rw [State.unlisted, h]
  rfl

/-- A process moves on: the files that the others have open, hold or have read are as they were. -/
theorem Inv.move (h : Inv Predefined s) (hprocs : s'.procs = Function.update s.procs p pc)
    (hproper : pc.Proper Predefined)
    (hopened : ∀ d i, pc.opened = some (d, i) → s'.lock d = some i)
    (hlocked : ∀ d i, pc.locked = some (d, i) → s'.holder i = some p)
    (hseen : ∀ d r, pc.seen = some (d, r) → s'.refs d = r)
    (hreplaces : ∀ c, pc.replaces = some c →
      ∃ r, s'.temp c.dir = some r ∧ c.result (s'.refs c.dir) = some (some r))
    (hlock : ∀ q, q ≠ p → ∀ d i, (s.procs q).opened = some (d, i) → s'.lock d = s.lock d)
    (hholder : ∀ q, q ≠ p → ∀ d i, (s.procs q).locked = some (d, i) → s'.holder i = s.holder i)
    (hfiles : ∀ q, q ≠ p → ∀ d i, (s.procs q).locked = some (d, i) →
      s'.refs d = s.refs d ∧ s'.temp d = s.temp d)
    (hlisted : ∀ t m d, (t, m, d) ∈ s'.live → ∃ r, s'.refs d = some r ∧ t ∈ r.names)
    (hshared : ∀ d ∈ s'.shared, Predefined d)
    (hkind : ∀ d r, s'.refs d = some r → (r.kind = .predefined ↔ Predefined d))
    (hharmed : s'.harmed = false) : Inv Predefined s' where
  listed := hlisted
  shared := hshared
  kind := hkind
  harmed := hharmed
  proper q := by
    rw [hprocs]
    by_cases hq : q = p
    · rw [hq, update_self]
      exact hproper
    · rw [update_of_ne hq]
      exact h.proper q
  opened q d i hqd := by
    rw [hprocs] at hqd
    by_cases hq : q = p
    · rw [hq, update_self] at hqd
      exact hopened d i hqd
    · rw [update_of_ne hq] at hqd
      rw [hlock q hq d i hqd]
      exact h.opened q d i hqd
  locked q d i hqd := by
    rw [hprocs] at hqd
    by_cases hq : q = p
    · rw [hq, update_self] at hqd
      rw [hq]
      exact hlocked d i hqd
    · rw [update_of_ne hq] at hqd
      rw [hholder q hq d i hqd]
      exact h.locked q d i hqd
  seen q d r hqd := by
    rw [hprocs] at hqd
    by_cases hq : q = p
    · rw [hq, update_self] at hqd
      exact hseen d r hqd
    · rw [update_of_ne hq] at hqd
      obtain ⟨i, hi⟩ := Pc.locked_of_seen hqd
      rw [(hfiles q hq d i hi).1]
      exact h.seen q d r hqd
  temp q c hqc := by
    rw [hprocs] at hqc
    by_cases hq : q = p
    · rw [hq, update_self] at hqc
      exact hreplaces c hqc
    · rw [update_of_ne hq] at hqc
      obtain ⟨i, hi⟩ := Pc.locked_of_replaces hqc
      obtain ⟨hrefs, htemp⟩ := hfiles q hq c.dir i hi
      rw [hrefs, htemp]
      exact h.temp q c hqc

theorem Inv.quiet (h : Inv Predefined s) (hprocs : s'.procs = Function.update s.procs p pc)
    (hrefs : ∀ d, s'.refs d = s.refs d) (htemp : ∀ d, s'.temp d = s.temp d)
    (hlock : ∀ d, s'.lock d = s.lock d) (hholder : s'.holder = s.holder)
    (hlive : s'.live = s.live) (hshared : s'.shared = s.shared) (hharmed : s'.harmed = false)
    (hproper : pc.Proper Predefined)
    (hopened : ∀ d i, pc.opened = some (d, i) → s.lock d = some i)
    (hlocked : ∀ d i, pc.locked = some (d, i) → s.holder i = some p)
    (hseen : ∀ d r, pc.seen = some (d, r) → s.refs d = r) (hreplaces : pc.replaces = none) :
    Inv Predefined s' := by
  refine h.move hprocs hproper (fun d i hd => ?_) (fun d i hd => ?_) (fun d r hd => ?_)
    (fun c hc => ?_) (fun _ _ d _ _ => hlock d) (fun _ _ _ i _ => by rw [hholder])
    (fun _ _ d _ _ => ⟨hrefs d, htemp d⟩) (fun t m d hd => ?_) (fun d hd => ?_) (fun d r hd => ?_)
    hharmed
  · rw [hlock]
    exact hopened d i hd
  · rw [hholder]
    exact hlocked d i hd
  · rw [hrefs]
    exact hseen d r hd
  · rw [hreplaces] at hc
    cases hc
  · rw [hlive] at hd
    rw [hrefs]
    exact h.listed t m d hd
  · rw [hshared] at hd
    exact h.shared d hd
  · rw [hrefs] at hd
    exact h.kind d r hd

theorem Inv.idleStep (h : Inv Predefined s) (hprocs : s'.procs = Function.update s.procs p pc)
    (hrefs : ∀ d, s'.refs d = s.refs d) (htemp : ∀ d, s'.temp d = s.temp d)
    (hlock : ∀ d, s'.lock d = s.lock d) (hholder : s'.holder = s.holder)
    (hlive : s'.live = s.live) (hshared : s'.shared = s.shared) (hharmed : s'.harmed = false)
    (hproper : pc.Proper Predefined) (hpc : pc.opened = none) : Inv Predefined s' := by
  obtain ⟨hlocked, hseen, hreplaces⟩ := Pc.none_of_opened hpc
  refine h.quiet hprocs hrefs htemp hlock hholder hlive hshared hharmed hproper
    (fun d i hd => ?_) (fun d i hd => ?_) (fun d r hd => ?_) hreplaces
  · rw [hpc] at hd
    cases hd
  · rw [hlocked] at hd
    cases hd
  · rw [hseen] at hd
    cases hd

theorem Inv.goto (h : Inv Predefined s) (hproper : pc.Proper Predefined)
    (hpc : pc.opened = none) : Inv Predefined (s.goto p pc) :=
  h.idleStep rfl (fun _ => rfl) (fun _ => rfl) (fun _ => rfl) rfl rfl rfl h.harmed hproper hpc

theorem Inv.begin (h : Inv Predefined s) (hproper : pc.Proper Predefined)
    (hpc : pc.opened = none) : Inv Predefined (s.begin p pc) := by
  rw [State.begin]
  split
  · exact h.goto hproper hpc
  · exact h

/-- A process that has nothing open then moves on, whatever the files of the others are. -/
theorem Inv.closed (h : Inv Predefined s) (hprocs : s'.procs = Function.update s.procs p pc)
    (hproper : pc.Proper Predefined) (hpc : pc.opened = none)
    (hlock : ∀ q, q ≠ p → ∀ d i, (s.procs q).opened = some (d, i) → s'.lock d = s.lock d)
    (hholder : ∀ q, q ≠ p → ∀ d i, (s.procs q).locked = some (d, i) → s'.holder i = s.holder i)
    (hfiles : ∀ q, q ≠ p → ∀ d i, (s.procs q).locked = some (d, i) →
      s'.refs d = s.refs d ∧ s'.temp d = s.temp d)
    (hlisted : ∀ t m d, (t, m, d) ∈ s'.live → ∃ r, s'.refs d = some r ∧ t ∈ r.names)
    (hshared : ∀ d ∈ s'.shared, Predefined d)
    (hkind : ∀ d r, s'.refs d = some r → (r.kind = .predefined ↔ Predefined d))
    (hharmed : s'.harmed = false) : Inv Predefined s' := by
  obtain ⟨hlocked, hseen, hreplaces⟩ := Pc.none_of_opened hpc
  refine h.move hprocs hproper (fun d i hd => ?_) (fun d i hd => ?_) (fun d r hd => ?_)
    (fun c hc => ?_) hlock hholder hfiles hlisted hshared hkind hharmed
  · rw [hpc] at hd
    cases hd
  · rw [hlocked] at hd
    cases hd
  · rw [hseen] at hd
    cases hd
  · rw [hreplaces] at hc
    cases hc

theorem Inv.letGo (h : Inv Predefined s) (hproper : pc.Proper Predefined)
    (hpc : pc.opened = none) : Inv Predefined ((s.letGo p).goto p pc) := by
  refine h.closed rfl hproper hpc (fun _ _ _ _ _ => rfl) (fun q hq d i hd => ?_)
    (fun _ _ _ _ _ => ⟨rfl, rfl⟩) h.listed h.shared h.kind h.harmed
  refine if_neg fun hp => hq ?_
  exact some.inj ((h.locked q d i hd).symm.trans hp)

theorem Call.after_opened (c : Call) (zero : Bool) : (c.after zero).opened = none := by
  rw [Call.after]
  split
  · split <;> rfl
  · rfl

theorem Call.after_proper (hc : c.Proper Predefined) (zero : Bool) :
    (c.after zero).Proper Predefined := by
  rw [Call.after]
  split
  · next linked hjob =>
    rw [Call.Proper, hjob] at hc
    split
    · next hzero => exact hc hzero.2
    · trivial
  · trivial

theorem afterRemoval_opened (link : Option (Name × Name)) : (afterRemoval link).opened = none := by
  cases link <;> rfl

theorem afterRemoval_proper (link : Option (Name × Name)) :
    (afterRemoval link).Proper Predefined := by
  cases link <;> trivial

theorem Inv.openLock (h : Inv Predefined s) (hc : c.Proper Predefined) :
    Inv Predefined (s.openLock p c) := by
  rw [State.openLock]
  cases hd : s.dirs c.dir with
  | none => exact h.goto trivial rfl
  | some dir =>
    simp only
    cases hl : dir.lock with
    | some i =>
      refine h.quiet rfl (fun _ => rfl) (fun _ => rfl) (fun _ => rfl) rfl rfl rfl h.harmed hc
        (fun d i' hd' => ?_) (fun d i' hd' => by cases hd') (fun d r hd' => by cases hd') rfl
      cases hd'
      rw [State.lock, hd]
      exact hl
    | none =>
      have hnone : s.lock c.dir = none := by
        rw [State.lock, hd]
        exact hl
      have hrefs : ∀ d', ({ s.setLock c.dir (some s.fresh) with fresh := s.fresh + 1 }.goto p
          (.acquire c s.fresh)).refs d' = s.refs d' := fun d' => State.refs_setLock s c.dir _ d'
      have htemp : ∀ d', ({ s.setLock c.dir (some s.fresh) with fresh := s.fresh + 1 }.goto p
          (.acquire c s.fresh)).temp d' = s.temp d' := fun d' => State.temp_setLock s c.dir _ d'
      have hlock : ∀ d', ({ s.setLock c.dir (some s.fresh) with fresh := s.fresh + 1 }.goto p
          (.acquire c s.fresh)).lock d' = if d' = c.dir then some s.fresh else s.lock d' := by
        intro d'
        have := State.lock_setLock s c.dir (some s.fresh) d'
        rw [hd] at this
        exact this
      refine h.move rfl hc (fun d' i hd' => ?_) (fun _ _ hd' => by cases hd')
        (fun _ _ hd' => by cases hd') (fun _ hd' => by cases hd') (fun q hq d' i hd' => ?_)
        (fun _ _ _ _ _ => rfl) (fun _ _ d' _ _ => ⟨hrefs d', htemp d'⟩) (fun t m d' hd' => ?_)
        h.shared (fun d' r hd' => ?_) h.harmed
      · cases hd'
        rw [hlock, if_pos rfl]
      · rw [hlock]
        refine if_neg fun heq => ?_
        subst heq
        rw [h.opened q _ i hd'] at hnone
        cases hnone
      · rw [hrefs]
        exact h.listed t m d' hd'
      · rw [hrefs] at hd'
        exact h.kind d' r hd'

theorem Inv.acquire (h : Inv Predefined s) {i : Inode} (hpc : s.procs p = .acquire c i)
    (hfree : s.holder i = none) : Inv Predefined
      ({ s with holder := Function.update s.holder i (some p) }.goto p (.read c i)) := by
  have hproper : c.Proper Predefined := h.proper_of_eq hpc
  have hopen := h.opened p c.dir i (by rw [hpc]; rfl)
  refine h.move rfl hproper (fun d j hd => ?_) (fun d j hd => ?_) (fun _ _ hd => by cases hd)
    (fun _ hd => by cases hd) (fun _ _ _ _ _ => rfl) (fun q _ d j hd => ?_)
    (fun _ _ _ _ _ => ⟨rfl, rfl⟩) h.listed h.shared h.kind h.harmed
  · cases hd
    exact hopen
  · cases hd
    exact update_self _ _ _
  · refine update_of_ne (fun heq => ?_) _ _
    rw [← heq, h.locked q d j hd] at hfree
    cases hfree

theorem Inv.unlinkLock (h : Inv Predefined s) (halone : Alone s p d)
    (hharmed : s'.harmed = false) (hprocs : s'.procs = Function.update s.procs p pc)
    (hdirs : s'.dirs = (s.setLock d none).dirs) (hholder : s'.holder = s.holder)
    (hlive : s'.live = s.live) (hshared : s'.shared = s.shared)
    (hproper : pc.Proper Predefined) (hpc : pc.opened = none) : Inv Predefined s' := by
  have hrefs : ∀ d', s'.refs d' = s.refs d' := fun d' => by
    rw [State.refs, hdirs]
    exact State.refs_setLock s d none d'
  have htemp : ∀ d', s'.temp d' = s.temp d' := fun d' => by
    rw [State.temp, hdirs]
    exact State.temp_setLock s d none d'
  refine h.closed hprocs hproper hpc (fun q hq d' i hd => ?_) (fun _ _ _ i _ => by rw [hholder])
    (fun _ _ d' _ _ => ⟨hrefs d', htemp d'⟩) (fun t m d' hd => ?_) (fun d' hd => ?_)
    (fun d' r hd => ?_) hharmed
  · have hlock := State.lock_setLock s d none d'
    rw [State.lock, hdirs]
    refine hlock.trans (if_neg fun heq => ?_)
    subst heq
    exact halone q hq i hd
  · rw [hlive] at hd
    rw [hrefs]
    exact h.listed t m d' hd
  · rw [hshared] at hd
    exact h.shared d' hd
  · rw [hrefs] at hd
    exact h.kind d' r hd

theorem Refs.mem_names {r : Refs} {t : Name} : t ∈ r.names ↔ t ∈ r.teams ∧ t ≠ [] := by
  rw [Refs.names, mem_filter, decide_eq_true_iff]

theorem addRef_spec (b : Binding) (hteam : b.team ≠ []) (seen : Option Refs) :
    ∃ r, (addRef b seen).getD seen = some r ∧ b.team ∈ r.names ∧
      (∀ r₀, seen = some r₀ → r.kind = r₀.kind ∧ ∀ t ∈ r₀.names, t ∈ r.names) ∧
      (seen = none → r.kind = b.mode) := by
  cases seen with
  | none =>
    refine ⟨⟨b.mode, [b.team]⟩, rfl, Refs.mem_names.mpr ⟨.head _, hteam⟩,
      fun r₀ h => (by cases h), fun _ => rfl⟩
  | some r₀ =>
    rw [addRef]
    split
    · next hmem =>
      refine ⟨r₀, rfl, contains_iff_mem.mp hmem, fun r h => ?_, fun h => (by cases h)⟩
      cases h
      exact ⟨rfl, fun t ht => ht⟩
    · refine ⟨⟨r₀.kind, r₀.names ++ [b.team]⟩, rfl, Refs.mem_names.mpr
        ⟨mem_append_right _ (.head _), hteam⟩, fun r h => ?_,
        fun h => (by cases h)⟩
      cases h
      exact ⟨rfl, fun t ht => Refs.mem_names.mpr
        ⟨mem_append_left _ ht, (Refs.mem_names.mp ht).2⟩⟩

theorem removeRef_listed {team t : Name} {r₀ : Refs} (ht : t ∈ r₀.names) (hne : t ≠ team) :
    ∃ r, (removeRef team (some r₀)).getD (some r₀) = some r ∧ t ∈ r.names := by
  have hmem : t ∈ r₀.names.erase team := (mem_erase_of_ne hne).mpr ht
  refine ⟨⟨r₀.kind, r₀.names.erase team⟩, ?_, Refs.mem_names.mpr
    ⟨hmem, (Refs.mem_names.mp ht).2⟩⟩
  rw [removeRef, if_neg fun hnil => List.not_mem_nil (hnil ▸ hmem)]
  rfl

theorem removeRef_kind {team : Name} {seen : Option Refs} {r : Refs}
    (h : (removeRef team seen).getD seen = some r) : ∃ r₀, seen = some r₀ ∧ r.kind = r₀.kind := by
  cases seen with
  | none => cases h
  | some r₀ =>
    refine ⟨r₀, rfl, ?_⟩
    rw [removeRef] at h
    split at h
    · cases h
    · cases h
      rfl

/-- What the references are once a call has written them. -/
def Call.wrote (c : Call) (seen : Option Refs) : Option Refs := (c.result seen).getD seen

theorem Inv.wrote_kind (h : Inv Predefined s) (hc : c.Proper Predefined) {r : Refs}
    (hr : c.wrote (s.refs c.dir) = some r) : r.kind = .predefined ↔ Predefined c.dir := by
  obtain ⟨b, job⟩ := c
  cases job with
  | setup placed =>
    obtain ⟨r', hr', -, hsome, hnone⟩ := addRef_spec b hc.1.2 (s.refs b.realDir)
    cases hr'.symm.trans hr
    cases hseen : s.refs b.realDir with
    | none =>
      rw [hnone hseen]
      exact hc.1.1
    | some r₀ =>
      rw [(hsome r₀ hseen).1]
      exact h.kind _ r₀ hseen
  | release =>
    obtain ⟨r₀, hseen, hkind⟩ := removeRef_kind hr
    rw [hkind]
    exact h.kind _ r₀ hseen
  | cleanup linked =>
    obtain ⟨r₀, hseen, hkind⟩ := removeRef_kind hr
    rw [hkind]
    exact h.kind _ r₀ hseen

theorem Inv.dropped_listed (h : Inv Predefined s) {b : Binding} {t m : Name}
    (hlast : ∀ m, (b.team, m, b.realDir) ∈ s.live → m = b.member)
    (hlive : (t, m, b.realDir) ∈ s.live.filter (· ≠ (b.team, b.member, b.realDir))) :
    ∃ r, (removeRef b.team (s.refs b.realDir)).getD (s.refs b.realDir) = some r ∧
      t ∈ r.names := by
  rw [mem_filter, decide_eq_true_iff] at hlive
  obtain ⟨r₀, hseen, ht⟩ := h.listed t m b.realDir hlive.1
  rw [hseen]
  refine removeRef_listed ht fun heq => hlive.2 ?_
  subst heq
  rw [hlast m hlive.1]

theorem Inv.wrote_listed (h : Inv Predefined s) (hc : c.Proper Predefined) {t m : Name}
    (hlast : DropsLast s c)
    (hlive : (t, m, c.dir) ∈ (s.settle c).live) :
    ∃ r, c.wrote (s.refs c.dir) = some r ∧ t ∈ r.names := by
  obtain ⟨b, job⟩ := c
  cases job with
  | setup placed =>
    obtain ⟨r, hr, hteam, hsome, -⟩ := addRef_spec b hc.1.2 (s.refs b.realDir)
    refine ⟨r, hr, ?_⟩
    rcases mem_cons.mp hlive with heq | hold
    · rw [(Prod.mk.inj heq).1]
      exact hteam
    · obtain ⟨r₀, hseen, ht⟩ := h.listed t m b.realDir hold
      exact (hsome r₀ hseen).2 t ht
  | release => exact h.dropped_listed (hlast fun _ hjob => (by cases hjob)) hlive
  | cleanup linked => exact h.dropped_listed (hlast fun _ hjob => (by cases hjob)) hlive

theorem State.mem_settle (hc : c.Proper Predefined) {t m : Name}
    (hlive : (t, m, d) ∈ (s.settle c).live) (hd : d ≠ c.dir) : (t, m, d) ∈ s.live := by
  obtain ⟨b, job⟩ := c
  cases job with
  | setup placed =>
    rcases mem_cons.mp hlive with heq | hold
    · exact absurd ((Prod.mk.inj (Prod.mk.inj heq).2).2.trans hc.2) hd
    · exact hold
  | release => exact (mem_filter.mp hlive).1
  | cleanup linked => exact (mem_filter.mp hlive).1

theorem Inv.settle_shared (h : Inv Predefined s) (hc : c.Proper Predefined) :
    ∀ d ∈ (s.settle c).shared, Predefined d := by
  obtain ⟨b, job⟩ := c
  cases job with
  | setup placed =>
    intro d hd
    rw [State.settle] at hd
    simp only at hd
    split at hd
    · next hmode =>
      rcases mem_cons.mp hd with rfl | hd
      · rw [hc.2]
        exact hc.1.1.mp hmode
      · exact h.shared d hd
    · exact h.shared d hd
  | release => exact h.shared
  | cleanup linked => exact h.shared

theorem State.settle_frame (s : State) (c : Call) : (s.settle c).dirs = s.dirs ∧
    (s.settle c).holder = s.holder ∧ (s.settle c).harmed = s.harmed ∧
    (s.settle c).procs = s.procs := by
  rw [settle]
  split <;> exact ⟨rfl, rfl, rfl, rfl⟩

theorem State.settle_dirs_only (s : State) (dirs : Name → Option Dir) (c : Call) :
    ({ s with dirs := dirs }.settle c).live = (s.settle c).live ∧
      ({ s with dirs := dirs }.settle c).shared = (s.settle c).shared := by
  rw [settle, settle]
  cases c.job <;> exact ⟨rfl, rfl⟩

theorem Inv.written (h : Inv Predefined s) {i : Inode} (zero dropped : Bool)
    (hproper : c.Proper Predefined) (hheld : (s.procs p).locked = some (c.dir, i))
    (hlast : DropsLast s c) (dirs : Name → Option Dir)
    (hdirs : ∀ d, (dirs d).bind Dir.refs =
      if d = c.dir then c.wrote (s.refs c.dir) else s.refs d)
    (htemps : ∀ d, d ≠ c.dir → (dirs d).bind Dir.temp = s.temp d)
    (hlocks : ∀ d, (dirs d).bind Dir.lock = s.lock d) :
    Inv Predefined (({ s with dirs := dirs }.settle c).goto p (.unlock c i zero dropped)) := by
  obtain ⟨hd, hholder, hharmed, hprocs⟩ := State.settle_frame { s with dirs := dirs } c
  obtain ⟨hlive, hshared⟩ := State.settle_dirs_only s dirs c
  generalize { s with dirs := dirs }.settle c = s₀ at *
  have hrefs : ∀ d, (s₀.goto p (.unlock c i zero dropped)).refs d =
      if d = c.dir then c.wrote (s.refs c.dir) else s.refs d := by
    intro d
    rw [← hdirs d, State.refs, State.goto, hd]
  have hlock : ∀ d, (s₀.goto p (.unlock c i zero dropped)).lock d = s.lock d := by
    intro d
    rw [← hlocks d, State.lock, State.goto, hd]
  refine h.move (congrArg (Function.update · p _) hprocs) hproper (fun d j hd => ?_)
    (fun d j hd => ?_) (fun _ _ hd => by cases hd) (fun _ hd => by cases hd)
    (fun _ _ d _ _ => hlock d) (fun _ _ _ j _ => congrFun hholder j) (fun q hq d j hj => ?_)
    (fun t m d hd => ?_) (fun d hd => ?_) (fun d r hd => ?_) (hharmed.trans h.harmed)
  · cases hd
    rw [hlock]
    exact h.opened p _ _ (Pc.opened_of_locked hheld)
  · cases hd
    exact (congrFun hholder _).trans (h.locked p _ _ hheld)
  · have hne : d ≠ c.dir := by
      rintro rfl
      exact hq (h.exclusive hj hheld)
    refine ⟨(hrefs d).trans (if_neg hne), ?_⟩
    rw [← htemps d hne, State.temp, State.goto, hd]
  · replace hd : (t, m, d) ∈ (s.settle c).live := hlive ▸ hd
    rw [hrefs]
    by_cases heq : d = c.dir
    · subst heq
      rw [if_pos rfl]
      exact h.wrote_listed hproper hlast hd
    · rw [if_neg heq]
      exact h.listed t m d (State.mem_settle hproper hd heq)
  · exact h.settle_shared hproper d (hshared ▸ hd)
  · rw [hrefs] at hd
    by_cases heq : d = c.dir
    · subst heq
      rw [if_pos rfl] at hd
      exact h.wrote_kind hproper hd
    · rw [if_neg heq] at hd
      exact h.kind d r hd

theorem State.mkdir_of_some {dir : Dir} (h : s.dirs d = some dir) : s.mkdir d = s := by
  rw [mkdir, h]

theorem Inv.setTemp (h : Inv Predefined s) {i : Inode} {seen : Option Refs} {r : Refs}
    (hpc : s.procs p = .write c i seen) (hresult : c.result seen = some (some r)) {dir : Dir}
    (hdir : s.dirs c.dir = some dir) :
    Inv Predefined ((s.setTemp c.dir (some r)).goto p (.replace c i)) := by
  have hproper : c.Proper Predefined := h.proper_of_eq hpc
  have hheld : (s.procs p).locked = some (c.dir, i) := by
    rw [hpc]
    rfl
  have hseen := h.seen p c.dir seen (by rw [hpc]; rfl)
  have hrefs := State.refs_setTemp s c.dir (some r)
  have htemp := State.temp_setTemp s c.dir (some r)
  have hlock := State.lock_setTemp s c.dir (some r)
  refine h.move rfl hproper (fun d j hd => ?_) (fun d j hd => ?_) (fun _ _ hd => by cases hd)
    (fun c' hc' => ?_) (fun _ _ d _ _ => hlock d) (fun _ _ _ _ _ => rfl) (fun q hq d j hj => ?_)
    (fun t m d hd => ?_) h.shared (fun d r' hd => ?_) h.harmed
  · cases hd
    exact (hlock _).trans (h.opened p _ _ (Pc.opened_of_locked hheld))
  · cases hd
    exact h.locked p _ _ hheld
  · cases hc'
    refine ⟨r, (htemp c.dir).trans ?_, ?_⟩
    · rw [if_pos rfl, hdir]
      rfl
    · have : ((s.setTemp c.dir (some r)).goto p (.replace c i)).refs c.dir = seen :=
        (hrefs c.dir).trans hseen
      rw [this]
      exact hresult
  · have hne : d ≠ c.dir := by
      rintro rfl
      exact hq (h.exclusive hj hheld)
    exact ⟨hrefs d, (htemp d).trans (if_neg hne)⟩
  · obtain ⟨r', hr', ht⟩ := h.listed t m d hd
    exact ⟨r', (hrefs d).trans hr', ht⟩
  · exact h.kind d r' ((hrefs d).symm.trans hd)

theorem Inv.write (h : Inv Predefined s) {i : Inode} {seen : Option Refs}
    (hpc : s.procs p = .write c i seen) (hlast : DropsLast s c) :
    Inv Predefined (s.write p c i seen) := by
  have hproper : c.Proper Predefined := h.proper_of_eq hpc
  have hheld : (s.procs p).locked = some (c.dir, i) := by
    rw [hpc]
    rfl
  have hseen := h.seen p c.dir seen (by rw [hpc]; rfl)
  obtain ⟨dir, hdir⟩ := State.exists_dir_of_lock (h.opened p _ _ (Pc.opened_of_locked hheld))
  rw [State.write]
  cases hresult : c.result seen with
  | none =>
    refine h.written _ _ hproper hheld hlast s.dirs (fun d => ?_) (fun _ _ => rfl) fun _ => rfl
    rw [Call.wrote, hseen, hresult]
    split
    · next hd =>
      rw [hd]
      exact hseen
    · rfl
  | some new =>
    cases new with
    | none =>
      refine h.written _ _ hproper hheld hlast (s.setRefs c.dir none).dirs (fun d => ?_)
        (fun d _ => State.temp_setRefs s c.dir none d) fun d => State.lock_setRefs s c.dir none d
      rw [Call.wrote, hseen, hresult]
      refine (State.refs_setRefs s c.dir none d).trans ?_
      rw [hdir]
      rfl
    | some r =>
      simp only
      rw [if_neg fun hn => some_ne_none dir (hdir.symm.trans hn.1), State.mkdir_of_some hdir]
      exact h.setTemp hpc hresult hdir

theorem Inv.replace (h : Inv Predefined s) {i : Inode} (hpc : s.procs p = .replace c i)
    (hlast : DropsLast s c) : Inv Predefined (s.replace p c i) := by
  have hproper : c.Proper Predefined := h.proper_of_eq hpc
  have hheld : (s.procs p).locked = some (c.dir, i) := by
    rw [hpc]
    rfl
  obtain ⟨r, htemp, hresult⟩ := h.temp p c (by rw [hpc]; rfl)
  obtain ⟨dir, hdir⟩ := State.exists_dir_of_lock (h.opened p _ _ (Pc.opened_of_locked hheld))
  have hdir' : (s.setTemp c.dir none).dirs c.dir = some { dir with temp := none } := by
    rw [State.setTemp, State.dirs_setDir, update_self, hdir]
    rfl
  rw [State.replace, htemp]
  refine h.written _ _ hproper hheld hlast ((s.setTemp c.dir none).setRefs c.dir (some r)).dirs
    (fun d => ?_) (fun d hd => ?_) fun d => ?_
  · rw [Call.wrote, hresult]
    refine (State.refs_setRefs (s.setTemp c.dir none) c.dir (some r) d).trans ?_
    rw [hdir', State.refs_setTemp]
    rfl
  · refine (State.temp_setRefs (s.setTemp c.dir none) c.dir (some r) d).trans ?_
    exact (State.temp_setTemp s c.dir none d).trans (if_neg hd)
  · exact (State.lock_setRefs (s.setTemp c.dir none) c.dir (some r) d).trans
      (State.lock_setTemp s c.dir none d)

theorem Inv.rmRefs (h : Inv Predefined s) (hlist : s.unlisted d = true) (halone : Alone s p d)
    (hd : ¬ Predefined d) (link : Option (Name × Name)) :
    Inv Predefined (((s.harm d).setRefs d none).goto p (.rmTemp d link)) := by
  have hrefs : ∀ d', (((s.harm d).setRefs d none).goto p (.rmTemp d link)).refs d' =
      if d' = d then none else s.refs d' := by
    intro d'
    refine (State.refs_setRefs (s.harm d) d none d').trans ?_
    split
    · cases (s.harm d).dirs d <;> rfl
    · rfl
  refine h.closed rfl hd rfl (fun _ _ d' _ _ => State.lock_setRefs (s.harm d) d none d')
    (fun _ _ _ _ _ => rfl) (fun q hq d' i hi => ?_) (fun t m d' hlive => ?_) h.shared
    (fun d' r hr => ?_) (h.harm hlist fun hshared => hd (h.shared d hshared))
  · refine ⟨(hrefs d').trans (if_neg fun heq => ?_), State.temp_setRefs (s.harm d) d none d'⟩
    subst heq
    exact halone q hq i (Pc.opened_of_locked hi)
  · obtain ⟨r, hr, ht⟩ := h.listed t m d' hlive
    refine ⟨r, ?_, ht⟩
    rw [hrefs]
    refine (if_neg fun heq => ?_).trans hr
    subst heq
    exact h.not_live hlist hlive
  · rw [hrefs] at hr
    split at hr
    · cases hr
    · exact h.kind d' r hr

theorem Inv.rmTemp (h : Inv Predefined s) (hlist : s.unlisted d = true) (halone : Alone s p d)
    (hd : ¬ Predefined d) (link : Option (Name × Name)) :
    Inv Predefined (((s.harm d).setTemp d none).goto p (.rmLock d link)) := by
  have hrefs := State.refs_setTemp (s.harm d) d none
  refine h.closed rfl hd rfl (fun _ _ d' _ _ => State.lock_setTemp (s.harm d) d none d')
    (fun _ _ _ _ _ => rfl) (fun q hq d' i hi => ?_) (fun t m d' hlive => ?_) h.shared
    (fun d' r hr => ?_) (h.harm hlist fun hshared => hd (h.shared d hshared))
  · refine ⟨hrefs d', (State.temp_setTemp (s.harm d) d none d').trans (if_neg fun heq => ?_)⟩
    subst heq
    exact halone q hq i (Pc.opened_of_locked hi)
  · obtain ⟨r, hr, ht⟩ := h.listed t m d' hlive
    exact ⟨r, (hrefs d').trans hr, ht⟩
  · exact h.kind d' r ((hrefs d').symm.trans hr)

theorem Inv.rmdir (h : Inv Predefined s) (hshared : d ∉ s.shared)
    (hproper : pc.Proper Predefined) (hpc : pc.opened = none)
    (hdirs : s'.dirs = (s.rmdir d).dirs) (hharmed : s'.harmed = (s.rmdir d).harmed)
    (hprocs : s'.procs = Function.update s.procs p pc) (hholder : s'.holder = s.holder)
    (hlive : s'.live = s.live) (hsh : s'.shared = s.shared) : Inv Predefined s' := by
  rcases State.rmdir_cases s d with heq | ⟨hrefs, htemp, hlock, heq⟩
  · rw [heq] at hdirs hharmed
    refine h.idleStep hprocs (fun d' => ?_) (fun d' => ?_) (fun d' => ?_) hholder hlive hsh
      (hharmed.trans h.harmed) hproper hpc
    · rw [State.refs, hdirs, State.refs]
    · rw [State.temp, hdirs, State.temp]
    · rw [State.lock, hdirs, State.lock]
  · rw [heq] at hdirs hharmed
    refine h.idleStep hprocs (fun d' => ?_) (fun d' => ?_) (fun d' => ?_) hholder hlive hsh
      (hharmed.trans (h.harm (State.unlisted_of_none hrefs) hshared)) hproper hpc
    · rw [State.refs, hdirs]
      exact State.bind_setDir_none Dir.refs none rfl hrefs d'
    · rw [State.temp, hdirs]
      exact State.bind_setDir_none Dir.temp none rfl htemp d'
    · rw [State.lock, hdirs]
      exact State.bind_setDir_none Dir.lock none rfl hlock d'

theorem State.lookAt_proper {b : Binding} (hb : b.Proper Predefined)
    (hlink : ∀ d, s.entries b.team b.member = some (.link d) → d = b.realDir) :
    (s.lookAt b).Proper Predefined ∧ (s.lookAt b).opened = none := by
  rw [State.lookAt]
  cases h : s.entries b.team b.member with
  | none => exact ⟨hb, rfl⟩
  | some entry =>
    cases entry with
    | link d => exact ⟨⟨hb, hlink d h⟩, rfl⟩
    | dir => exact ⟨trivial, rfl⟩

theorem Inv.loaded (h : Inv Predefined s) (team member linked : Name) :
    (s.loaded team member linked).Proper Predefined ∧
      (s.loaded team member linked).opened = none := by
  rw [State.loaded]
  cases hr : s.refs linked with
  | none => exact ⟨trivial, rfl⟩
  | some r =>
    simp only
    split
    · refine ⟨fun hkind hpre => ?_, rfl⟩
      rw [(h.kind linked r hr).mpr hpre] at hkind
      cases hkind
    · exact ⟨trivial, rfl⟩

theorem State.mkdir_frame (s : State) (d : Name) : (s.mkdir d).holder = s.holder ∧
    (s.mkdir d).live = s.live ∧ (s.mkdir d).shared = s.shared ∧
    (s.mkdir d).harmed = s.harmed ∧ (s.mkdir d).procs = s.procs := by
  rw [mkdir]
  split <;> exact ⟨rfl, rfl, rfl, rfl, rfl⟩

theorem State.rmdir_frame (s : State) (d : Name) : (s.rmdir d).holder = s.holder ∧
    (s.rmdir d).live = s.live ∧ (s.rmdir d).shared = s.shared ∧ (s.rmdir d).procs = s.procs := by
  rw [rmdir]
  split <;> exact ⟨rfl, rfl, rfl, rfl⟩

theorem Inv.mkdir (h : Inv Predefined s) (d : Name) (hproper : pc.Proper Predefined)
    (hpc : pc.opened = none) : Inv Predefined ((s.mkdir d).goto p pc) := by
  obtain ⟨hholder, hlive, hshared, hharmed, hprocs⟩ := State.mkdir_frame s d
  exact h.idleStep (congrArg (Function.update · p _) hprocs) (State.refs_mkdir s d)
    (State.temp_mkdir s d) (State.lock_mkdir s d) hholder hlive hshared
    (hharmed.trans h.harmed) hproper hpc

theorem State.removeLink_frame (s : State) (t m : Name) : (s.removeLink t m).dirs = s.dirs ∧
    (s.removeLink t m).holder = s.holder ∧ (s.removeLink t m).live = s.live ∧
    (s.removeLink t m).shared = s.shared ∧ (s.removeLink t m).harmed = s.harmed ∧
    (s.removeLink t m).procs = s.procs := by
  rw [removeLink]
  split <;> exact ⟨rfl, rfl, rfl, rfl, rfl, rfl⟩

theorem Inv.nextOf (h : Inv Predefined s) (linked : Bool)
    (hsafe : NextSafe s p linked (s.procs p)) :
    Inv Predefined (s.nextOf p linked (s.procs p)) := by
  have hproper := h.proper p
  generalize hpc : s.procs p = pc at *
  cases pc with
  | idle => exact h
  | look b =>
    obtain ⟨hnext, hopened⟩ := State.lookAt_proper hproper hsafe
    exact h.goto hnext hopened
  | mkRealDir b => exact h.mkdir b.realDir hproper rfl
  | makeLink b =>
    rw [State.nextOf]
    split
    · exact h.idleStep rfl (fun _ => rfl) (fun _ => rfl) (fun _ => rfl) rfl rfl rfl h.harmed
        ⟨hproper, rfl⟩ rfl
    · next hlinked =>
      obtain ⟨hholder, hlive, hshared, hprocs⟩ := State.rmdir_frame s b.realDir
      exact h.rmdir (hsafe.resolve_left hlinked) (show Pc.idle.Proper Predefined from trivial) rfl
        rfl rfl (congrArg (Function.update · p _) hprocs) hholder hlive hshared
  | unlink b =>
    obtain ⟨hdirs, hholder, hlive, hshared, hharmed, hprocs⟩ :=
      State.removeLink_frame s b.team b.member
    exact h.idleStep (congrArg (Function.update · p _) hprocs)
      (fun d => by rw [State.nextOf, State.refs, State.goto, hdirs, State.refs])
      (fun d => by rw [State.nextOf, State.temp, State.goto, hdirs, State.temp])
      (fun d => by rw [State.nextOf, State.lock, State.goto, hdirs, State.lock]) hholder hlive
      hshared (hharmed.trans h.harmed) trivial rfl
  | mkParent c => exact h.mkdir c.dir hproper rfl
  | openLock c => exact h.openLock hproper
  | acquire c i =>
    rw [State.nextOf]
    split
    · next hfree => exact h.acquire hpc hfree
    · exact h
  | read c i =>
    refine h.quiet rfl (fun _ => rfl) (fun _ => rfl) (fun _ => rfl) rfl rfl rfl h.harmed hproper
      (fun d j hd => ?_) (fun d j hd => ?_) (fun d r hd => ?_) rfl
    · exact h.opened p d j (hpc ▸ hd)
    · exact h.locked p d j (hpc ▸ hd)
    · cases hd
      rfl
  | write c i seen => exact h.write hpc hsafe
  | replace c i => exact h.replace hpc hsafe
  | unlock c i zero dropped =>
    rw [State.nextOf]
    split
    · exact h.letGo hproper rfl
    · exact h.letGo (Call.after_proper hproper zero) (Call.after_opened c zero)
  | unlinkLock c =>
    exact h.unlinkLock hsafe h.harmed rfl rfl rfl rfl rfl (Call.after_proper hproper true)
      (Call.after_opened c true)
  | readLink team member =>
    rw [State.nextOf]
    split
    · exact h.goto trivial rfl
    · exact h.idleStep rfl (fun _ => rfl) (fun _ => rfl) (fun _ => rfl) rfl rfl rfl h.harmed trivial
        rfl
  | loadRefs team member link =>
    obtain ⟨hnext, hopened⟩ := h.loaded team member link
    exact h.goto hnext hopened
  | countRefs d =>
    rw [State.nextOf]
    split
    · exact h.goto hproper rfl
    · exact h.goto trivial rfl
  | rmRefs d link =>
    rw [State.nextOf]
    split
    · exact h.goto (afterRemoval_proper link) (afterRemoval_opened link)
    · exact h.rmRefs hsafe.1 hsafe.2 hproper link
  | rmTemp d link => exact h.rmTemp hsafe.1 hsafe.2 hproper link
  | rmLock d link =>
    exact h.unlinkLock hsafe.2 (h.harm hsafe.1 fun hshared => hproper (h.shared d hshared)) rfl rfl
      rfl rfl rfl hproper rfl
  | rmDir d link =>
    obtain ⟨hholder, hlive, hshared, hprocs⟩ := State.rmdir_frame s d
    exact h.rmdir (fun hd => hproper (h.shared d hd)) (afterRemoval_proper link)
      (afterRemoval_opened link) rfl rfl (congrArg (Function.update · p _) hprocs) hholder hlive
      hshared
  | dropLink team member =>
    obtain ⟨hdirs, hholder, hlive, hshared, hharmed, hprocs⟩ :=
      State.removeLink_frame s team member
    exact h.idleStep (congrArg (Function.update · p _) hprocs)
      (fun d => by rw [State.nextOf, State.refs, State.goto, hdirs, State.refs])
      (fun d => by rw [State.nextOf, State.temp, State.goto, hdirs, State.temp])
      (fun d => by rw [State.nextOf, State.lock, State.goto, hdirs, State.lock]) hholder hlive
      hshared (hharmed.trans h.harmed) trivial rfl

theorem inv_step (op : Op) (h : Inv Predefined s) (hsafe : Safe Predefined s op) :
    Inv Predefined (step s op) := by
  cases op with
  | setup p b => exact h.begin hsafe rfl
  | release p b => exact h.begin trivial rfl
  | deleteIfZero p b =>
    rw [step]
    split
    · next hmode => exact h.begin (hsafe hmode) rfl
    · exact h
  | cleanup p team member => exact h.begin trivial rfl
  | next p linked => exact h.nextOf linked hsafe
  | raise p => exact h.letGo trivial rfl

/-- Along a run of safe steps no directory of a member that is set up is removed, and none that was
set up as predefined. -/
theorem removed_unused (Predefined : Name → Prop) (ops : List Op)
    (hsafe : Meets step (Safe Predefined) State.init ops) {t : State}
    (ht : Reached step State.init ops t) : t.harmed = false := by
  have hinv : Inv Predefined t :=
    @reached_invariant _ _ step (Safe Predefined) (Inv Predefined)
      (fun _ op h hop => inv_step op h hop) _ _ _ inv_init hsafe ht
  exact hinv.harmed

def sharedMember (team : String) : Binding := ⟨team.toList, "dev".toList, .dynamic, false⟩

def nexts (p : Pid) (n : Nat) : List Op := List.replicate n (.next p true)

/-- A team sets its member up and cleans up. -/
def cleanupRun : List Op :=
  .setup 0 (sharedMember "a") :: nexts 0 10 ++ .cleanup 0 "a".toList "dev".toList :: nexts 0 14

theorem cleanupRun_safe : Meets step (Safe fun _ => False) State.init cleanupRun := by
  refine ⟨⟨⟨fun h => (by cases h), False.elim⟩, by decide⟩, fun d h => (by cases h),
    trivial, .inl rfl, trivial, trivial, trivial, trivial, fun h => absurd rfl (h _),
    fun h => absurd rfl (h _), trivial,
    trivial, trivial, trivial, trivial, trivial, trivial, trivial, fun _ m hm => ?_, trivial,
    ?_, ⟨by decide, ?_⟩, ⟨by decide, ?_⟩, ⟨by decide, ?_⟩,
    trivial, trivial, trivial⟩
  · exact (Prod.mk.inj (Prod.mk.inj (mem_singleton.mp hm)).2).1
  all_goals
    intro q hq i h
    cases q with
    | zero => exact hq rfl
    | succ q => cases h

/-- The directory is removed, and was not in use. -/
theorem cleanupRun_removed : (run step State.init cleanupRun).dirs "dev".toList = none ∧
    (run step State.init cleanupRun).harmed = false :=
  ⟨by decide, removed_unused (fun _ => False) cleanupRun cleanupRun_safe
    ⟨cleanupRun, prefix_rfl, rfl⟩⟩

/-- The member of another team is set up between the count and the removal. -/
def raceRun : List Op :=
  .setup 0 (sharedMember "a") :: nexts 0 10 ++ .cleanup 0 "a".toList "dev".toList :: nexts 0 9 ++
    .setup 1 (sharedMember "b") :: nexts 1 10 ++ nexts 0 1

theorem removed_in_use : ¬ ∀ (ops : List Op) (t : State), Reached step State.init ops t →
    t.harmed = false := by
  intro h
  have := h raceRun _ ⟨raceRun, prefix_rfl, rfl⟩
  exact absurd this (by decide)

end JiuwenSpec.MemberDirs

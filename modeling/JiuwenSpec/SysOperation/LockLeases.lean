import JiuwenSpec.Base.Census
import JiuwenSpec.SysOperation.LockFiles

/-!
# Sections exclude across processes

The lock objects in the tables have the databases of their paths open, and every section uses the
one of its process. This lasts as long as no database is unlinked that another process has open, and
no table is cleared under a section.
-/

namespace JiuwenSpec.SysOperation

open Base List

namespace LockFiles

variable {s : LockFiles} {j k p : Nat} {path : Text} {sec : GuardSection} {e : LockEntry}
  {phase : GuardPhase} {m : Mode}

/-- The invariant of runs whose steps are guarded. -/
structure Inv (s : LockFiles) : Prop where
  /-- A lock in a table is open on the database of its path, and leased. -/
  table : ∀ (p : Nat) (path : Text) (k : Nat), assocGet? (p, path) s.tables = some k →
    ∃ e : LockEntry, s.entries[k]? = some e ∧ e.proc = p ∧ e.path = path ∧ e.closed = false ∧
      assocGet? path s.disk = some e.inode ∧ 0 < e.leases
  used : ∀ sec ∈ s.sections, sec.phase.inUse = true →
    assocGet? (sec.proc, sec.path) s.tables = some sec.entry ∧
      assocGet? sec.path s.disk = some sec.inode
  leases : ∀ (k : Nat) (e : LockEntry), s.entries[k]? = some e →
    e.leases = s.sections.countP (uses k)
  holders : ∀ (i j : Nat) (sec sec' : GuardSection), i ≠ j → s.sections[i]? = some sec →
    s.sections[j]? = some sec' → sec.phase = .inside → sec'.phase = .inside →
    sec.inode = sec'.inode → sec.mode = .read ∧ sec'.mode = .read

theorem inv_init : init.Inv where
  table _ _ _ h := by cases h
  used _ h := (not_mem_nil h).elim
  leases _ _ h := by cases h
  holders _ _ _ _ _ h := by cases h

@[simp] theorem openFile_tables : (s.openFile path).tables = s.tables := by
  unfold openFile
  split <;> rfl

@[simp] theorem openFile_entries : (s.openFile path).entries = s.entries := by
  unfold openFile
  split <;> rfl

@[simp] theorem openFile_sections : (s.openFile path).sections = s.sections := by
  unfold openFile
  split <;> rfl

theorem disk_openFile : assocGet? path (s.openFile path).disk = some (s.inodeOf path) := by
  rw [openFile, inodeOf]
  cases h : assocGet? path s.disk with
  | some inode => rw [h, Option.getD_some]
  | none => rw [assocGet?_assocSet_self, Option.getD_none]

theorem disk_openFile_of_some {path' : Text} {inode : Nat}
    (h : assocGet? path' s.disk = some inode) :
    assocGet? path' (s.openFile path).disk = some inode := by
  rw [openFile]
  split
  · exact h
  · next hnone =>
    have hne : path' ≠ path := by
      rintro rfl
      rw [hnone] at h
      cases h
    rw [assocGet?_assocSet_of_ne hne]
    exact h

theorem Inv.openFile (h : s.Inv) : (s.openFile path).Inv := by
  refine ⟨?_, ?_, ?_, ?_⟩
  · intro p path' k hk
    rw [openFile_tables] at hk
    obtain ⟨e, he, hp, hpath, hclosed, hdisk, hleases⟩ := h.table p path' k hk
    refine ⟨e, ?_, hp, hpath, hclosed, disk_openFile_of_some hdisk, hleases⟩
    rw [openFile_entries, he]
  · intro sec hsec huse
    rw [openFile_sections] at hsec
    rw [openFile_tables]
    exact ⟨(h.used sec hsec huse).1, disk_openFile_of_some (h.used sec hsec huse).2⟩
  · intro k e he
    rw [openFile_entries] at he
    rw [openFile_sections]
    exact h.leases k e he
  · intro i j sec sec' hij hi hj
    rw [openFile_sections] at hi hj
    exact h.holders i j sec sec' hij hi hj

theorem Inv.congr_probes (h : s.Inv) (probes : List DatabaseProbe) : { s with probes }.Inv :=
  ⟨h.table, h.used, h.leases, h.holders⟩

theorem Inv.unlink (h : s.Inv) (hfree : ∀ p, assocGet? (p, path) s.tables = none) :
    { s with disk := assocDelete path s.disk }.Inv := by
  have hkept : ∀ {p : Nat} {path' : Text} {k inode : Nat},
      assocGet? (p, path') s.tables = some k → assocGet? path' s.disk = some inode →
      assocGet? path' (assocDelete path s.disk) = some inode := by
    intro p path' k inode hk hdisk
    rw [assocGet?_assocDelete, if_neg, hdisk]
    rintro rfl
    rw [hfree p] at hk
    cases hk
  refine ⟨?_, ?_, h.leases, h.holders⟩
  · intro p path' k hk
    obtain ⟨e, he, hp, hpath, hclosed, hdisk, hleases⟩ := h.table p path' k hk
    exact ⟨e, he, hp, hpath, hclosed, hkept hk hdisk, hleases⟩
  · intro sec hsec huse
    obtain ⟨hk, hdisk⟩ := h.used sec hsec huse
    exact ⟨hk, hkept hk hdisk⟩

theorem read_of_not_blocked {inode : Nat} (h : s.blocked inode m = false) {i : Nat}
    (hi : s.sections[i]? = some sec) (hin : sec.phase = .inside) (hinode : sec.inode = inode) :
    sec.mode = .read ∧ m = .read := by
  rw [blocked, any_eq_false] at h
  have hfree := h sec (mem_of_getElem? hi)
  simp only [hin, hinode, true_and, decide_eq_true_eq, not_or] at hfree
  constructor
  · cases hmode : sec.mode with
    | read => rfl
    | write => exact (hfree.1 hmode).elim
  · cases m with
    | read => rfl
    | write => exact (hfree.2 rfl).elim

theorem Inv.setPhase (h : s.Inv) (hj : s.sections[j]? = some sec) (huse : sec.phase.inUse = true)
    (huse' : phase.inUse = true) (hin : phase = .inside → s.blocked sec.inode sec.mode = false) :
    (s.setPhase j sec phase).Inv := by
  have hmem := mem_of_getElem? hj
  refine ⟨h.table, ?_, ?_, ?_⟩
  · intro sec' hsec' hphase
    rcases mem_or_eq_of_mem_set hsec' with hold | rfl
    · exact h.used sec' hold hphase
    · exact h.used sec hmem huse
  · intro k e he
    rw [h.leases k e he]
    have hmove := countP_move (uses k) hj { sec with phase }
    have hsame : uses k { sec with phase } = uses k sec := by rw [uses, uses, huse, huse']
    rw [hsame] at hmove
    change _ = (s.sections.set j { sec with phase }).countP (uses k)
    omega
  · intro i i' x x' hii hi hi' hx hx' hinode
    rcases get_set_cases hi with ⟨rfl, rfl⟩ | ⟨-, hold⟩ <;>
      rcases get_set_cases hi' with ⟨rfl, rfl⟩ | ⟨-, hold'⟩
    · exact (hii rfl).elim
    · have hboth := read_of_not_blocked (hin hx) hold' hx' hinode.symm
      exact ⟨hboth.2, hboth.1⟩
    · exact read_of_not_blocked (hin hx') hold hx hinode
    · exact h.holders i i' x x' hii hold hold' hx hx' hinode

theorem Inv.table_set (h : s.Inv) (he : s.entries[k]? = some e) {n : Nat} (hn : 0 < n) {k' : Nat}
    (hk : assocGet? (p, path) s.tables = some k') :
    ∃ e' : LockEntry, (s.entries.set k { e with leases := n })[k']? = some e' ∧ e'.proc = p ∧
      e'.path = path ∧ e'.closed = false ∧ assocGet? path s.disk = some e'.inode ∧
      0 < e'.leases := by
  obtain ⟨e', he', hp, hpath, hclosed, hdisk, hleases⟩ := h.table p path k' hk
  by_cases hkk : k' = k
  · subst hkk
    obtain rfl : e = e' := Option.some.inj (he.symm.trans he')
    refine ⟨{ e with leases := n }, ?_, hp, hpath, hclosed, hdisk, hn⟩
    exact List.getElem?_set_self (List.getElem?_eq_some_iff.mp he).1
  · refine ⟨e', ?_, hp, hpath, hclosed, hdisk, hleases⟩
    rw [List.getElem?_set_ne (Ne.symm hkk), he']

theorem Inv.leases_set (h : s.Inv) {x : LockEntry} {sections : List GuardSection}
    (hx : x.leases = sections.countP (uses k))
    (hother : ∀ k', k' ≠ k → sections.countP (uses k') = s.sections.countP (uses k')) {k' : Nat}
    {e' : LockEntry} (he' : (s.entries.set k x)[k']? = some e') :
    e'.leases = sections.countP (uses k') := by
  rcases get_set_cases he' with ⟨rfl, rfl⟩ | ⟨hne, hold⟩
  · exact hx
  · rw [h.leases k' e' hold, hother k' hne]

theorem uses_self (huse : sec.phase.inUse = true) : uses sec.entry sec = true := by
  rw [uses, huse]
  simp

theorem uses_of_ne (hk : k ≠ sec.entry) : uses k sec = false := by
  rw [uses, decide_eq_false (Ne.symm hk), Bool.false_and]

theorem uses_over : uses k { sec with phase := .over } = false := by
  rw [uses, GuardPhase.inUse, Bool.and_false]

theorem countP_concat {sections : List GuardSection} :
    (sections ++ [sec]).countP (uses k) = sections.countP (uses k) + (uses k sec).toNat := by
  rw [countP_append, countP_singleton]
  cases uses k sec <;> rfl

theorem Inv.holders_concat (h : s.Inv) (hphase : sec.phase = .leased) {i i' : Nat}
    {x x' : GuardSection} (hii : i ≠ i') (hi : (s.sections ++ [sec])[i]? = some x)
    (hi' : (s.sections ++ [sec])[i']? = some x') (hx : x.phase = .inside)
    (hx' : x'.phase = .inside) (hinode : x.inode = x'.inode) :
    x.mode = .read ∧ x'.mode = .read := by
  have hnew : ∀ {i : Nat} {x : GuardSection}, (s.sections ++ [sec])[i]? = some x →
      x.phase = .inside → s.sections[i]? = some x := by
    intro i x hi hx
    rcases get_append_cases hi with ⟨rfl, rfl⟩ | hold
    · rw [hphase] at hx
      cases hx
    · exact hold
  exact h.holders i i' x x' hii (hnew hi hx) (hnew hi' hx') hx hx' hinode

theorem Inv.acquireLease (h : s.Inv) : (s.acquireLease p path m).Inv := by
  rw [LockFiles.acquireLease]
  split
  · next k hk =>
    obtain ⟨e, he, hp, hpath, hclosed, hdisk, hleases⟩ := h.table p path k hk
    rw [he]
    refine ⟨fun p' path' k' hk' => h.table_set he (Nat.succ_pos e.leases) hk', ?_, ?_, ?_⟩
    · intro sec hsec huse
      rcases mem_append.mp hsec with hold | hnew
      · exact h.used sec hold huse
      · obtain rfl := mem_singleton.mp hnew
        exact ⟨hk, hdisk⟩
    · intro k' e' he'
      refine h.leases_set ?_ ?_ he'
      · have hself : uses k ⟨p, path, m, k, e.inode, .leased⟩ = true :=
          @uses_self ⟨_, _, _, _, _, _⟩ rfl
        rw [countP_concat, h.leases k e he, hself]
        rfl
      · intro k' hne
        rw [countP_concat, uses_of_ne hne]
        rfl
    · exact fun i i' x x' hii hi hi' hx hx' hinode =>
        h.holders_concat rfl hii hi hi' hx hx' hinode
  · next hnone =>
    have hbound : ∀ sec ∈ s.sections, sec.phase.inUse = true → sec.entry < s.entries.length := by
      intro sec hsec huse
      obtain ⟨e, he, -⟩ := h.table _ _ _ (h.used sec hsec huse).1
      exact (List.getElem?_eq_some_iff.mp he).1
    refine ⟨?_, ?_, ?_, ?_⟩
    · intro p' path' k' hk'
      rw [assocGet?_assocSet] at hk'
      split at hk'
      · next hkey =>
        cases hkey
        cases hk'
        exact ⟨_, List.getElem?_concat_length, rfl, rfl, rfl, disk_openFile, Nat.one_pos⟩
      · obtain ⟨e, he, hp, hpath, hclosed, hdisk, hleases⟩ := h.table p' path' k' hk'
        refine ⟨e, ?_, hp, hpath, hclosed, disk_openFile_of_some hdisk, hleases⟩
        exact (List.getElem?_append_left (List.getElem?_eq_some_iff.mp he).1).trans he
    · intro sec hsec huse
      rcases mem_append.mp hsec with hold | hnew
      · obtain ⟨hk, hdisk⟩ := h.used sec hold huse
        refine ⟨?_, disk_openFile_of_some hdisk⟩
        rw [assocGet?_assocSet_of_ne, hk]
        intro hkey
        rw [hkey, hnone] at hk
        cases hk
      · obtain rfl := mem_singleton.mp hnew
        exact ⟨assocGet?_assocSet_self _ _ _, disk_openFile⟩
    · intro k e he
      change e.leases = (s.sections ++ [_]).countP (uses k)
      rw [countP_concat]
      rcases get_append_cases he with ⟨rfl, rfl⟩ | hold
      · have hunused : s.sections.countP (uses s.entries.length) = 0 := by
          rw [countP_eq_zero]
          intro sec hsec huse
          rw [uses, Bool.and_eq_true, decide_eq_true_eq] at huse
          have hlt := hbound sec hsec huse.2
          omega
        have hself : uses s.entries.length
            ⟨p, path, m, s.entries.length, s.inodeOf path, .leased⟩ = true :=
          @uses_self ⟨_, _, _, _, _, _⟩ rfl
        rw [hunused, hself]
        rfl
      · have hlt := (List.getElem?_eq_some_iff.mp hold).1
        rw [h.leases k e hold, uses_of_ne]
        · rfl
        · exact Nat.ne_of_lt hlt
    · exact fun i i' x x' hii hi hi' hx hx' hinode =>
        h.holders_concat rfl hii hi hi' hx hx' hinode

theorem Inv.holders_set (h : s.Inv) (hphase : phase ≠ .inside) {i i' : Nat} {x x' : GuardSection}
    (hii : i ≠ i') (hi : (s.sections.set j { sec with phase })[i]? = some x)
    (hi' : (s.sections.set j { sec with phase })[i']? = some x') (hx : x.phase = .inside)
    (hx' : x'.phase = .inside) (hinode : x.inode = x'.inode) :
    x.mode = .read ∧ x'.mode = .read := by
  have hold : ∀ {i : Nat} {x : GuardSection},
      (s.sections.set j { sec with phase })[i]? = some x → x.phase = .inside →
      s.sections[i]? = some x := by
    intro i x hi hx
    rcases get_set_cases hi with ⟨rfl, rfl⟩ | ⟨-, hold⟩
    · exact (hphase hx).elim
    · exact hold
  exact h.holders i i' x x' hii (hold hi hx) (hold hi' hx') hx hx' hinode

theorem Inv.releaseLease (h : s.Inv) (hj : s.sections[j]? = some sec)
    (hphase : sec.phase = .leaving) (he : s.entries[sec.entry]? = some e) :
    (s.releaseLease j sec e).Inv := by
  have huse : sec.phase.inUse = true := by rw [hphase]; rfl
  have hmem := mem_of_getElem? hj
  obtain ⟨hkey, hdisk⟩ := h.used sec hmem huse
  obtain ⟨e', he', hproc, hpath, -⟩ := h.table _ _ _ hkey
  obtain rfl : e = e' := Option.some.inj (he.symm.trans he')
  have hcount : (s.sections.set j { sec with phase := .over }).countP (uses sec.entry) + 1 =
      e.leases := by
    have hmove := countP_move (uses sec.entry) hj { sec with phase := .over }
    rw [uses_over, uses_self huse] at hmove
    rw [h.leases sec.entry e he]
    simpa using hmove
  have hother : ∀ k', k' ≠ sec.entry →
      (s.sections.set j { sec with phase := .over }).countP (uses k') =
        s.sections.countP (uses k') := by
    intro k' hne
    have hmove := countP_move (uses k') hj { sec with phase := .over }
    rw [uses_over, uses_of_ne hne] at hmove
    simpa using hmove
  rw [LockFiles.releaseLease]
  split
  · next hlast =>
    have hzero : (s.sections.set j { sec with phase := .over }).countP (uses sec.entry) = 0 := by
      omega
    refine ⟨?_, ?_, ?_, ?_⟩
    · intro p path k hk
      rw [assocGet?_assocDelete] at hk
      split at hk
      · cases hk
      · next hne =>
        obtain ⟨e', he', hp, hpath', hclosed, hdisk', hleases⟩ := h.table p path k hk
        have hkk : k ≠ sec.entry := by
          rintro rfl
          obtain rfl : e = e' := Option.some.inj (he.symm.trans he')
          exact hne (Prod.ext (hp.symm.trans hproc) (hpath'.symm.trans hpath))
        refine ⟨e', ?_, hp, hpath', hclosed, disk_openFile_of_some hdisk', hleases⟩
        rw [List.getElem?_set_ne (Ne.symm hkk), he']
    · intro x hx hxuse
      rw [openFile_sections] at hx
      obtain ⟨i, hi⟩ := mem_iff_getElem?.mp hx
      rcases get_set_cases hi with ⟨rfl, rfl⟩ | ⟨-, hold⟩
      · cases hxuse
      · obtain ⟨hk, hd⟩ := h.used x (mem_of_getElem? hold) hxuse
        refine ⟨?_, disk_openFile_of_some hd⟩
        rw [assocGet?_assocDelete, if_neg, hk]
        intro hsame
        rw [hsame, hkey] at hk
        have hself := uses_self hxuse
        rw [← Option.some.inj hk] at hself
        exact countP_eq_zero.mp hzero x hx hself
    · intro k e' he'
      rw [openFile_sections]
      exact h.leases_set hzero.symm hother he'
    · intro i i' x x' hii hi hi'
      rw [openFile_sections] at hi hi'
      exact h.holders_set (fun hin => by cases hin) hii hi hi'
  · next hmore =>
    refine ⟨fun p path k hk => h.table_set he (Nat.pos_of_ne_zero hmore) hk, ?_, ?_, ?_⟩
    · intro x hx hxuse
      rcases mem_or_eq_of_mem_set hx with hold | rfl
      · exact h.used x hold hxuse
      · cases hxuse
    · intro k e' he'
      refine h.leases_set ?_ hother he'
      change e.leases - 1 = (s.sections.set j { sec with phase := .over }).countP _
      omega
    · exact fun i i' x x' hii hi hi' => h.holders_set (fun hin => by cases hin) hii hi hi'

/-- A step that keeps locks and databases together: a database is unlinked only when no process has
a lock of its path, a table is cleared only when no section of its process is left, and a section
is not cancelled before it returns its lease. -/
def Guarded (s : LockFiles) : GuardOp → Prop
  | .unlink c => ∀ probe, s.probes[c]? = some probe → probe.phase = .probed →
      assocGet? (probe.proc, probe.path) s.tables = none →
      ∀ p, assocGet? (p, probe.path) s.tables = none
  | .closeLocks proc => ∀ sec ∈ s.sections, sec.proc = proc → sec.phase.inUse = false
  | .cancelRelease j => ∀ sec, s.sections[j]? = some sec → sec.phase ≠ .leaving
  | _ => True

theorem Inv.closeLocks (h : s.Inv)
    (hidle : ∀ sec ∈ s.sections, sec.proc = p → sec.phase.inUse = false) :
    (s.closeLocks p).Inv := by
  have hforeign : ∀ x ∈ s.tables, x.1.1 ≠ p := by
    rintro ⟨⟨p', path⟩, k⟩ hx rfl
    cases hkey : assocGet? (p', path) s.tables with
    | none => exact assocGet?_eq_none_iff.mp hkey (mem_map_of_mem hx)
    | some k =>
      obtain ⟨e, he, hproc, -, -, -, hleases⟩ := h.table p' path k hkey
      rw [h.leases k e he] at hleases
      obtain ⟨sec, hsec, huses⟩ := countP_pos_iff.mp hleases
      rw [uses, Bool.and_eq_true, decide_eq_true_eq] at huses
      obtain ⟨e', he', hproc', -⟩ := h.table _ _ _ (h.used sec hsec huses.2).1
      rw [huses.1, he] at he'
      have hnone := hidle sec hsec (by rw [← hproc', ← Option.some.inj he', hproc])
      rw [huses.2] at hnone
      cases hnone
  have htables : s.tables.filter (fun x => x.1.1 ≠ p) = s.tables :=
    filter_eq_self.mpr fun x hx => by simpa using hforeign x hx
  have hnone : s.tables.filter (fun x => x.1.1 = p) = [] :=
    filter_eq_nil_iff.mpr fun x hx => by simpa using hforeign x hx
  rw [LockFiles.closeLocks, htables, hnone]
  exact h

theorem Inv.step (h : s.Inv) {op : GuardOp} (hguard : s.Guarded op) : (s.step op).Inv := by
  cases op with
  | acquireLease proc path mode => exact h.acquireLease
  | enter j =>
    rw [LockFiles.step]
    split
    · next sec hj =>
      split
      · next hfree =>
        exact h.setPhase hj (by rw [hfree.1]; rfl) rfl fun _ => hfree.2.2.1
      · exact h
    · exact h
  | refused j =>
    rw [LockFiles.step]
    split
    · next sec hj =>
      split
      · next hphase => exact h.setPhase hj (by rw [hphase]; rfl) rfl fun hin => by cases hin
      · exact h
    · exact h
  | leave j =>
    rw [LockFiles.step]
    split
    · next sec hj =>
      split
      · next hphase => exact h.setPhase hj (by rw [hphase]; rfl) rfl fun hin => by cases hin
      · exact h
    · exact h
  | releaseLease j =>
    rw [LockFiles.step]
    split
    · next sec hj =>
      split
      · next e he =>
        split
        · next hphase => exact h.releaseLease hj hphase he
        · exact h
      · exact h
    · exact h
  | cancelRelease j =>
    rw [LockFiles.step]
    split
    · next sec hj => rwa [if_neg (hguard sec hj)]
    · exact h
  | probe proc path =>
    rw [LockFiles.step]
    split
    · exact h.openFile
    · exact h.openFile.congr_probes _
  | endProbe c =>
    rw [LockFiles.step]
    split
    · split
      · exact h.congr_probes _
      · exact h
    · exact h
  | unlink c =>
    rw [LockFiles.step]
    split
    · next probe hc =>
      split
      · next hprobed =>
        split
        · next hown => exact (h.unlink (hguard probe hc hprobed hown)).congr_probes _
        · exact h.congr_probes _
      · exact h
    · exact h
  | closeLocks proc => exact h.closeLocks hguard

/-- Two sections on a path of which one is a write do not overlap. -/
def Exclusive (s : LockFiles) : Prop :=
  ∀ (i j : Nat) (sec sec' : GuardSection), i ≠ j → s.sections[i]? = some sec →
    s.sections[j]? = some sec' → sec.path = sec'.path → sec.phase = .inside →
    sec'.phase = .inside → sec.mode = .read ∧ sec'.mode = .read

/-- The lock that a section uses is open, and the one in the table of its process. -/
def Kept (s : LockFiles) : Prop :=
  ∀ sec ∈ s.sections, sec.phase.inUse = true →
    assocGet? (sec.proc, sec.path) s.tables = some sec.entry ∧
      ∃ e, s.entries[sec.entry]? = some e ∧ e.closed = false

/-- The leases of an entry are those of its sections that have not returned theirs. -/
def Returned (s : LockFiles) : Prop :=
  ∀ (k : Nat) (e : LockEntry), s.entries[k]? = some e → e.leases = s.sections.countP (uses k)

theorem Inv.exclusive (h : s.Inv) : s.Exclusive := by
  intro i j sec sec' hij hi hj hpath hin hin'
  refine h.holders i j sec sec' hij hi hj hin hin' ?_
  have hdisk := (h.used sec (mem_of_getElem? hi) (by rw [hin]; rfl)).2
  have hdisk' := (h.used sec' (mem_of_getElem? hj) (by rw [hin']; rfl)).2
  rw [hpath, hdisk'] at hdisk
  exact (Option.some.inj hdisk).symm

theorem Inv.kept (h : s.Inv) : s.Kept := by
  intro sec hsec huse
  obtain ⟨hkey, -⟩ := h.used sec hsec huse
  obtain ⟨e, he, -, -, hclosed, -⟩ := h.table _ _ _ hkey
  exact ⟨hkey, e, he, hclosed⟩

/-- **File locks exclude.** In a run of guarded steps, sections on one path exclude across processes
and clean-ups, a lock in use stays open and in its table, and leases are returned once. -/
theorem file_locks_exclude (ops : List GuardOp) (h : Meets step Guarded init ops)
    (t : LockFiles) (ht : Reached step init ops t) : t.Exclusive ∧ t.Kept ∧ t.Returned := by
  have hinv : t.Inv := reached_invariant (I := Inv) (fun _ _ hs hc => Inv.step hs hc) inv_init h ht
  exact ⟨hinv.exclusive, hinv.kept, hinv.leases⟩

/-- A write in one process, a clean-up there, and a write in another one. -/
def plainRun : List GuardOp :=
  [.acquireLease 0 ['a'] .write, .enter 0, .leave 0, .releaseLease 0, .probe 0 ['a'], .endProbe 0,
    .unlink 0, .acquireLease 1 ['a'] .write, .enter 1]

theorem file_locks_exclude_plainRun : (run step init plainRun).Exclusive ∧
    (run step init plainRun).Kept ∧ (run step init plainRun).Returned := by
  refine file_locks_exclude plainRun ?_ _ ⟨plainRun, prefix_rfl, rfl⟩
  refine ⟨trivial, trivial, trivial, trivial, trivial, trivial, ?_, trivial, trivial, trivial⟩
  intro probe _ _ _ p
  rfl

/-- Between the probe of a clean-up and its unlinking, another process takes a lease, and a third
one takes one behind it. -/
def unlinkedRun : List GuardOp :=
  [.probe 0 ['a'], .endProbe 0, .acquireLease 1 ['a'] .write, .enter 0, .unlink 0,
    .acquireLease 2 ['a'] .write, .enter 1]

/-- Two processes write at once. -/
theorem unlinked_database_splits :
    ¬ ∀ (ops : List GuardOp) (t : LockFiles), Reached step init ops t →
      t.Exclusive ∧ t.Kept ∧ t.Returned := by
  intro h
  have hboth := (h unlinkedRun _ ⟨unlinkedRun, prefix_rfl, rfl⟩).1 0 1
    ⟨1, ['a'], .write, 0, 0, .inside⟩ ⟨2, ['a'], .write, 1, 1, .inside⟩ (by decide) rfl rfl rfl rfl
    rfl
  cases hboth.1

end LockFiles

end JiuwenSpec.SysOperation

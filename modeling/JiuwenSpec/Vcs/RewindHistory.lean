import JiuwenSpec.Vcs.CommitChain

/-!
# What a rewind does to the history

Whatever happens to a session, the commits of its head form one chain, and a commit that is off the
chain shares its event with one that is on it and listed before it. So what is off the chain stays
off, and a rewind to a commit finds it where no other commit of the event is listed before.
Source: `rewind`, `list_history` of `core/session/vcs/manager.py`, `truncate` of `jsonl_backend.py`.
-/

namespace JiuwenSpec.Vcs

open Base List

universe u v

variable {S : Type u} {D : Type v}

theorem commitId_of_readRef {ref commitId : String} (h : readRef ref = .commit commitId) :
    commitId = ref := by
  rw [readRef] at h
  split at h
  · split at h
    · cases h
    · exact (Ref.commit.inj h).symm
  · exact (Ref.commit.inj h).symm

def VersionStep.commitId? : VersionStep S → Option String
  | .commit _ _ commitId => some commitId
  | _ => none

/-- A session with the ids of all commits that were ever made. -/
structure Traced (S : Type u) (D : Type v) where
  versions : Versions S D
  made : List String := []

def Traced.step (t : Track S D) (every : ℤ) (s : Traced S D) (op : VersionStep S) : Traced S D where
  versions := s.versions.step t every op
  made := s.made ++ op.commitId?.toList

def FreshId (s : Traced S D) (op : VersionStep S) : Prop :=
  ∀ commitId ∈ op.commitId?, commitId ∉ s.made

structure CommitLine (b : Backend S D) (head : Head) (made : List String) (chain : List Commit) :
    Prop where
  ids : OwnIds b.commits
  made : ∀ c ∈ b.commits, c.commitId ∈ made
  rooted : ∀ c ∈ b.commits, ∃ rest, Chain b.commits (some c.commitId) (c :: rest) ∧
    ∀ d ∈ rest, d.eventIdHigh ≤ c.eventIdHigh
  line : Chain b.commits head.commitId chain
  sorted : chain.Pairwise fun c d => d.eventIdHigh ≤ c.eventIdHigh
  bound : ∀ c ∈ b.commits, c.eventIdHigh ≤ head.eventId
  first : ∀ c ∈ b.commits, c ∉ chain → ∃ d ∈ chain, d.eventIdHigh = c.eventIdHigh ∧ Before b d c
  stored : b.head.getD {} = head

variable {c : Commit}

section Steps

variable {b b' : Backend S D} {head head' : Head} {made : List String} {chain : List Commit}
  {target : ℕ}

theorem before_of_file (hfile : b'.log.IsFile ↔ b.log.IsFile) (hcommits : b'.commits = b.commits)
    {d : Commit} : Before b' c d ↔ Before b c d := by
  rw [Before, Before, hcommits]
  cases hlog : b.log with
  | jsonl lines tail =>
    cases hlog' : b'.log with
    | jsonl lines' tail' => exact Iff.rfl
    | kv entries' =>
      rw [hlog, hlog'] at hfile
      exact (hfile.mpr True.intro).elim
  | kv entries =>
    cases hlog' : b'.log with
    | jsonl lines' tail' =>
      rw [hlog, hlog'] at hfile
      exact (hfile.mp True.intro).elim
    | kv entries' => exact Iff.rfl

theorem CommitLine.frame (h : CommitLine b head made chain) (hfile : b'.log.IsFile ↔ b.log.IsFile)
    (hcommits : b'.commits = b.commits) (hcommit : head'.commitId = head.commitId)
    (hevent : head.eventId ≤ head'.eventId) (hstored : b'.head.getD {} = head') :
    CommitLine b' head' made chain := by
  refine ⟨hcommits ▸ h.ids, hcommits ▸ h.made, hcommits ▸ h.rooted, ?_, h.sorted, ?_, ?_, hstored⟩
  · rw [hcommits, hcommit]
    exact h.line
  · rw [hcommits]
    exact fun c hc => (h.bound c hc).trans hevent
  · rw [hcommits]
    intro c hc hoff
    obtain ⟨d, hd, heq, hbefore⟩ := h.first c hc hoff
    exact ⟨d, hd, heq, (before_of_file hfile hcommits).mpr hbefore⟩

theorem CommitLine.addCommit {v : Versions S D} (h : CommitLine v.backend v.head made chain)
    {commitId : String} (hfresh : commitId ∉ made) :
    CommitLine (v.addCommit commitId).backend (v.addCommit commitId).head (made ++ [commitId])
      (⟨commitId, v.head.commitId, v.head.eventId⟩ :: chain) := by
  have hnew : ∀ c ∈ v.backend.commits, c.commitId ≠ commitId :=
    fun c hc heq => hfresh (heq ▸ h.made c hc)
  have hkept : v.backend.commits.filter (·.commitId ≠ commitId) = v.backend.commits := by
    rw [filter_eq_self]
    exact fun c hc => decide_eq_true (hnew c hc)
  have hcommits : (v.addCommit commitId).backend.commits =
      v.backend.commits ++ [⟨commitId, v.head.commitId, v.head.eventId⟩] := by
    change v.backend.commits.filter (·.commitId ≠ commitId) ++ _ = _
    rw [hkept]
  have hold : ∀ c ∈ v.backend.commits, c ∈ (v.addCommit commitId).backend.commits := by
    intro c hc
    rw [hcommits]
    exact mem_append_left _ hc
  have hbefore : ∀ c d, Before v.backend c d → Before (v.addCommit commitId).backend c d := by
    intro c d hcd
    rw [Before] at hcd ⊢
    have hlog : (v.addCommit commitId).backend.log = v.backend.log := rfl
    rw [hlog, hcommits]
    cases hkind : v.backend.log with
    | jsonl lines tail =>
      rw [hkind] at hcd
      exact hcd
    | kv entries =>
      rw [hkind] at hcd
      exact hcd.trans (sublist_append_left _ _)
  have hline : Chain (v.addCommit commitId).backend.commits (some commitId)
      (⟨commitId, v.head.commitId, v.head.eventId⟩ :: chain) := by
    refine @Chain.cons _ ⟨commitId, v.head.commitId, v.head.eventId⟩ _ ?_
      (h.line.mono fun c hc => hold c (h.line.subset c hc))
    rw [hcommits]
    exact mem_append_right _ (.head _)
  have hchain : ∀ c ∈ chain, c.eventIdHigh ≤ v.head.eventId :=
    fun c hc => h.bound c (h.line.subset c hc)
  refine ⟨?_, ?_, ?_, hline, pairwise_cons.mpr ⟨hchain, h.sorted⟩, ?_, ?_, rfl⟩
  · rw [OwnIds, hcommits, map_append, nodup_append]
    refine ⟨h.ids, nodup_singleton _, fun id hid id' hid' heq => ?_⟩
    obtain ⟨c, hc, rfl⟩ := mem_map.mp hid
    exact hnew c hc (heq.trans (mem_singleton.mp hid'))
  · rw [hcommits]
    intro c hc
    rcases mem_append.mp hc with hc | hc
    · exact mem_append_left _ (h.made c hc)
    · rw [mem_singleton.mp hc]
      exact mem_append_right _ (.head _)
  · intro c hc
    rw [hcommits] at hc
    rcases mem_append.mp hc with hc | hc
    · obtain ⟨rest, hrest, hle⟩ := h.rooted c hc
      exact ⟨rest, hrest.mono fun d hd => hold d (hrest.subset d hd), hle⟩
    · rw [mem_singleton.mp hc]
      exact ⟨chain, hline, hchain⟩
  · rw [hcommits]
    intro c hc
    rcases mem_append.mp hc with hc | hc
    · exact h.bound c hc
    · rw [mem_singleton.mp hc]
      exact Nat.le_refl _
  · rw [hcommits]
    intro c hc hoff
    rw [mem_cons, not_or] at hoff
    have hin := (mem_append.mp hc).resolve_right fun hs => hoff.1 (mem_singleton.mp hs)
    obtain ⟨d, hd, heq, hd'⟩ := h.first c hin hoff.2
    exact ⟨d, .tail _ hd, heq, hbefore d c hd'⟩

theorem mem_truncate :
    c ∈ (b.truncate target).commits ↔ c ∈ b.commits ∧ c.eventIdHigh ≤ target := by
  rw [Backend.truncate, mem_filter, decide_eq_true_eq]

theorem ids_truncate (target : ℕ) (h : OwnIds b.commits) :
    OwnIds (b.truncate target).commits :=
  h.sublist (filter_sublist.map _)

theorem before_truncate {d : Commit} (hc : c.eventIdHigh ≤ target)
    (hd : d.eventIdHigh ≤ target) : Before (b.truncate target) c d ↔ Before b c d := by
  rw [Before, Before]
  cases hlog : b.log with
  | jsonl lines tail =>
    have hlog' : (b.truncate target).log = _ := congrArg (Log.truncate target) hlog
    rw [hlog']
    exact Iff.rfl
  | kv entries =>
    have hlog' : (b.truncate target).log = _ := congrArg (Log.truncate target) hlog
    rw [hlog']
    change [c, d].Sublist (b.commits.filter _) ↔ [c, d].Sublist b.commits
    constructor
    · exact fun h => h.trans filter_sublist
    · intro h
      have hkept := h.filter fun e : Commit => decide (e.eventIdHigh ≤ target)
      rwa [filter_eq_self.mpr (by simp [hc, hd])] at hkept

theorem isLatest_truncate : IsLatest (b.truncate target) target c ↔ IsLatest b target c := by
  rw [IsLatest, IsLatest, mem_truncate, and_assoc]
  refine and_congr_right fun hc => ?_
  constructor
  · rintro ⟨hle, -, hall⟩
    refine ⟨hle, fun d hd hdle => ?_⟩
    obtain ⟨hmax, hfirst⟩ := hall d (mem_truncate.mpr ⟨hd, hdle⟩) hdle
    exact ⟨hmax, fun heq hne => (before_truncate hle hdle).mp (hfirst heq hne)⟩
  · rintro ⟨hle, hall⟩
    refine ⟨hle, hle, fun d hd hdle => ?_⟩
    obtain ⟨hmax, hfirst⟩ := hall d (mem_truncate.mp hd).1 hdle
    exact ⟨hmax, fun heq hne => (before_truncate hle hdle).mpr (hfirst heq hne)⟩

theorem CommitLine.latest_mem (h : CommitLine b head made chain)
    (hc : IsLatest b target c) : c ∈ chain := by
  by_contra hoff
  obtain ⟨d, hd, heq, hbefore⟩ := h.first c hc.1 hoff
  have hne : d ≠ c := fun hdc => hoff (hdc ▸ hd)
  have hcd := (hc.2.2 d (h.line.subset d hd) (heq ▸ hc.2.1)).2 heq hne
  exact before_asymm h.ids hcd hbefore

theorem CommitLine.chain_truncate (h : CommitLine b head made chain)
    {rest : List Commit} (hc : c ∈ b.commits) (hle : c.eventIdHigh ≤ target)
    (hchain : Chain b.commits (some c.commitId) (c :: rest)) :
    Chain (b.truncate target).commits (some c.commitId) (c :: rest) := by
  obtain ⟨rest', hrest', hbound⟩ := h.rooted c hc
  have hsame := hchain.unique h.ids hrest'
  refine hchain.mono fun d hd => mem_truncate.mpr ⟨hchain.subset d hd, ?_⟩
  rw [hsame] at hd
  rcases mem_cons.mp hd with rfl | hd
  · exact hle
  · exact (hbound d hd).trans hle

theorem CommitLine.rewind (h : CommitLine b head made chain) (target : ℕ) :
    ∃ chain', chain' <:+ chain ∧
      CommitLine { b.truncate target with
        head := some ⟨target, latestCommitId (b.truncate target) target⟩ }
        ⟨target, latestCommitId (b.truncate target) target⟩ made chain' := by
  have hrooted : ∀ c ∈ (b.truncate target).commits, ∃ rest,
      Chain (b.truncate target).commits (some c.commitId) (c :: rest) ∧
        ∀ d ∈ rest, d.eventIdHigh ≤ c.eventIdHigh := by
    intro c hc
    obtain ⟨hc, hle⟩ := mem_truncate.mp hc
    obtain ⟨rest, hrest, hbound⟩ := h.rooted c hc
    exact ⟨rest, h.chain_truncate hc hle hrest, hbound⟩
  have hids := ids_truncate target h.ids
  have hmade : ∀ c ∈ (b.truncate target).commits, c.commitId ∈ made :=
    fun c hc => h.made c (mem_truncate.mp hc).1
  have hbound : ∀ c ∈ (b.truncate target).commits, c.eventIdHigh ≤ target :=
    fun c hc => (mem_truncate.mp hc).2
  cases hfound : latestCommitId (b.truncate target) target with
  | none =>
    -- No commit is left.
    have hnone : ∀ c, c ∉ (b.truncate target).commits := by
      intro c hc
      rw [latestCommitId, Option.map_eq_none_iff, argmax_eq_none] at hfound
      have hin : c ∈ ((b.truncate target).listed (·.commitId)
          (b.truncate target).commits).filter (·.eventIdHigh ≤ target) :=
        mem_filter.mpr ⟨Keeps.mem_listed.mpr hc, decide_eq_true (hbound c hc)⟩
      rw [hfound] at hin
      cases hin
    exact ⟨[], nil_suffix, hids, hmade, hrooted, .root, .nil, hbound,
      fun c hc => absurd hc (hnone c), rfl⟩
  | some commitId =>
    obtain ⟨c, hlatest, rfl⟩ := (latestCommitId_eq_some_iff hids).mp hfound
    rw [isLatest_truncate] at hlatest
    obtain ⟨pre, rest, rfl⟩ := append_of_mem (h.latest_mem hlatest)
    have hchain := h.chain_truncate hlatest.1 hlatest.2.1 h.line.from_mem
    have hsorted := pairwise_append.mp h.sorted
    refine ⟨c :: rest, suffix_append _ _, hids, hmade, hrooted, hchain, hsorted.2.1, hbound,
      fun d hd hoff => ?_, rfl⟩
    obtain ⟨hd, hle⟩ := mem_truncate.mp hd
    have hmax := hlatest.2.2 d hd hle
    have hsame : ∀ heq : d.eventIdHigh = c.eventIdHigh, ∃ e ∈ c :: rest,
        e.eventIdHigh = d.eventIdHigh ∧ Before (b.truncate target) e d := by
      intro heq
      have hne : d ≠ c := fun hdc => hoff (hdc ▸ mem_cons_self)
      exact ⟨c, .head _, heq.symm,
        (before_truncate hlatest.2.1 hle).mpr (hmax.2 heq hne)⟩
    -- What was cut off the chain, and what was off it behind a commit that is cut off, is at the
    -- event of the commit that was found.
    have hcut : ∀ e ∈ pre, e.eventIdHigh ≤ target → e.eventIdHigh = c.eventIdHigh := by
      intro e he hele
      have hin : e ∈ b.commits := h.line.subset e (mem_append_left _ he)
      exact Nat.le_antisymm (hlatest.2.2 e hin hele).1 (hsorted.2.2 e he c (.head _))
    by_cases hon : d ∈ pre ++ c :: rest
    · exact hsame (hcut d ((mem_append.mp hon).resolve_right hoff) hle)
    · obtain ⟨e, he, heq, hbefore⟩ := h.first d hd hon
      rcases mem_append.mp he with he | he
      · exact hsame (heq ▸ hcut e he (heq ▸ hle))
      · exact ⟨e, he, heq, (before_truncate (heq ▸ hle) hle).mpr hbefore⟩

end Steps

section Runs

variable {t : Track S D} {every : ℤ}

theorem isFile_append (e : LogEntry D) (log : Log D) : (log.append e).IsFile ↔ log.IsFile := by
  cases log with
  | jsonl lines tail =>
    cases tail with
    | none => exact Iff.rfl
    | some line => exact Iff.rfl
  | kv entries => exact Iff.rfl

theorem isFile_tear (e : LogEntry D) (whole : Bool) (log : Log D) :
    (log.tear e whole).IsFile ↔ log.IsFile := by
  cases log with
  | jsonl lines tail =>
    cases tail with
    | none => exact Iff.rfl
    | some line => exact Iff.rfl
  | kv entries => exact Iff.rfl

theorem CommitLine.append {v : Versions S D} {made : List String} {chain : List Commit}
    (h : CommitLine v.backend v.head made chain) (live : S) (snapshotId : String) :
    CommitLine (v.append t every live snapshotId).backend
      (v.append t every live snapshotId).head made chain := by
  rw [Versions.append]
  by_cases hsame : t.unchanged (t.diff v.last live) = true
  · rw [if_pos hsame]
    exact h
  · rw [if_neg hsame]
    simp only
    split
    · exact h.frame (isFile_append _ _) rfl rfl (Nat.le_succ _) rfl
    · exact h.frame (isFile_append _ _) rfl rfl (Nat.le_succ _) rfl

theorem CommitLine.crash {v : Versions S D} {made : List String} {chain : List Commit}
    (h : CommitLine v.backend v.head made chain) (live : S) (point : CrashPoint)
    (recorded : List (ℕ × S)) :
    CommitLine (newManager t (v.crashed t live point) recorded).backend
      (newManager t (v.crashed t live point) recorded).head made chain := by
  have hevent := (congrArg Head.eventId h.stored).ge
  have hcommit := congrArg Head.commitId h.stored
  cases point with
  | inLine whole => exact h.frame (isFile_tear _ _ _) rfl hcommit hevent rfl
  | beforeHead => exact h.frame (isFile_append _ _) rfl hcommit hevent rfl
  | behindHead => exact h.frame (isFile_append _ _) rfl rfl (Nat.le_succ _) rfl

variable {s : Traced S D}

theorem step_rewind {ref : Ref} {target : ℕ}
    (h : resolveEventId s.versions.backend ref = some target) :
    (s.step t every (.rewind ref)).versions = s.versions.rewind t target := by
  simp only [Traced.step, Versions.step, h]

theorem CommitLine.step (t : Track S D) (every : ℤ) {chain : List Commit}
    (h : CommitLine s.versions.backend s.versions.head s.made chain) {op : VersionStep S}
    (hfresh : FreshId s op) :
    ∃ chain', CommitLine (s.step t every op).versions.backend (s.step t every op).versions.head
        (s.step t every op).made chain' ∧
      ∀ c ∈ chain', c ∈ chain ∨ some c.commitId = op.commitId? := by
  cases op with
  | append live snapshotId =>
    refine ⟨chain, ?_, fun c hc => .inl hc⟩
    have hmade : (s.step t every (.append live snapshotId)).made = s.made := append_nil _
    rw [hmade]
    exact h.append live snapshotId
  | commit live snapshotId commitId =>
    have happend := @CommitLine.append _ _ t every _ _ _ h live snapshotId
    refine ⟨_, happend.addCommit (hfresh commitId rfl), fun c hc => ?_⟩
    rcases mem_cons.mp hc with rfl | hc
    · exact .inr rfl
    · exact .inl hc
  | snapshot snapshotId =>
    refine ⟨chain, ?_, fun c hc => .inl hc⟩
    have hmade : (s.step t every (.snapshot snapshotId)).made = s.made := append_nil _
    rw [hmade]
    exact h.frame Iff.rfl rfl rfl (Nat.le_refl _) h.stored
  | rewind ref =>
    have hmade : (s.step t every (.rewind ref)).made = s.made := append_nil _
    rw [hmade]
    cases hresolve : resolveEventId s.versions.backend ref with
    | none =>
      have hstep : (s.step t every (.rewind ref)).versions = s.versions := by
        simp only [Traced.step, Versions.step, hresolve]
      rw [hstep]
      exact ⟨chain, h, fun c hc => .inl hc⟩
    | some target =>
      rw [step_rewind hresolve]
      obtain ⟨chain', hsuffix, hline⟩ := h.rewind target
      exact ⟨chain', hline, fun c hc => .inl (hsuffix.subset hc)⟩
  | reload =>
    refine ⟨chain, ?_, fun c hc => .inl hc⟩
    have hmade : (s.step t every .reload).made = s.made := append_nil _
    rw [hmade]
    exact h.frame Iff.rfl rfl (congrArg Head.commitId h.stored)
      (congrArg Head.eventId h.stored).ge rfl
  | crash live point =>
    refine ⟨chain, ?_, fun c hc => .inl hc⟩
    have hmade : (s.step t every (.crash live point)).made = s.made := append_nil _
    rw [hmade]
    change CommitLine (if _ then _ else _ : Versions S D).backend
      (if _ then _ else _ : Versions S D).head _ _
    by_cases hsame : t.unchanged (t.diff s.versions.last live) = true
    · rw [if_pos hsame]
      exact h.frame Iff.rfl rfl (congrArg Head.commitId h.stored)
        (congrArg Head.eventId h.stored).ge rfl
    · rw [if_neg hsame]
      exact h.crash live point _

def newTraced (t : Track S D) (log : Log D) : Traced S D := { versions := newVersions t log }

theorem line_newTraced (log : Log D) :
    CommitLine (newTraced t log).versions.backend (newTraced t log).versions.head
      (newTraced t log).made [] :=
  ⟨nodup_nil, nofun, nofun, .root, .nil, nofun, nofun, rfl⟩

theorem exists_line {ops : List (VersionStep S)}
    (h : ∃ chain, CommitLine s.versions.backend s.versions.head s.made chain)
    (hfresh : Meets (Traced.step t every) FreshId s ops) :
    ∃ chain, CommitLine (run (Traced.step t every) s ops).versions.backend
      (run (Traced.step t every) s ops).versions.head (run (Traced.step t every) s ops).made
        chain := by
  refine @run_invariant _ _ (Traced.step t every) FreshId
    (fun s => ∃ chain, CommitLine s.versions.backend s.versions.head s.made chain) ?_ s ops h hfresh
  rintro s op ⟨chain, hline⟩ hop
  obtain ⟨chain', hline', -⟩ := hline.step t every hop
  exact ⟨chain', hline'⟩

theorem unlisted_stays {ops : List (VersionStep S)}
    (h : ∃ chain, CommitLine s.versions.backend s.versions.head s.made chain)
    (hfresh : Meets (Traced.step t every) FreshId s ops) {commitId : String}
    (hmade : commitId ∈ s.made) (hoff : commitId ∉ (s.versions.listHistory none).map (·.commitId)) :
    commitId ∉ ((run (Traced.step t every) s ops).versions.listHistory none).map
      (·.commitId) := by
  obtain ⟨chain, hline⟩ := h
  rw [listHistory_eq hline.ids hline.line] at hoff
  have hrun := @run_invariant _ _ (Traced.step t every) FreshId
    (fun s => ∃ chain, CommitLine s.versions.backend s.versions.head s.made chain ∧
      commitId ∈ s.made ∧ commitId ∉ chain.map (·.commitId)) ?_ s ops ⟨chain, hline, hmade, hoff⟩
    hfresh
  · obtain ⟨chain', hline', -, hoff'⟩ := hrun
    rw [listHistory_eq hline'.ids hline'.line]
    exact hoff'
  · rintro s op ⟨chain, hline, hmade, hoff⟩ hop
    obtain ⟨chain', hline', hsub⟩ := hline.step t every hop
    refine ⟨chain', hline', mem_append_left _ hmade, fun hin => ?_⟩
    obtain ⟨c, hc, rfl⟩ := mem_map.mp hin
    rcases hsub c hc with hc | hnew
    · exact hoff (mem_map.mpr ⟨c, hc, rfl⟩)
    · exact hop c.commitId hnew.symm hmade

theorem CommitLine.rewind_iff {chain : List Commit}
    (h : CommitLine s.versions.backend s.versions.head s.made chain)
    (hc : c ∈ s.versions.backend.commits) {target : ℕ} {history : List Commit}
    (hhistory : Chain s.versions.backend.commits (some c.commitId) history) :
    ((s.versions.rewind t target).head.commitId = some c.commitId ∧
      (s.versions.rewind t target).listHistory none = history) ↔
        IsLatest s.versions.backend target c := by
  have hids := ids_truncate target h.ids
  have hhead : (s.versions.rewind t target).head.commitId = some c.commitId ↔
      IsLatest s.versions.backend target c := by
    change latestCommitId (s.versions.backend.truncate target) target = _ ↔ _
    rw [latestCommitId_eq_some_iff hids]
    constructor
    · rintro ⟨d, hd, hid⟩
      rw [isLatest_truncate] at hd
      rwa [← h.ids.inj hd.1 hc hid]
    · exact fun hlatest => ⟨c, isLatest_truncate.mpr hlatest, rfl⟩
  rw [hhead]
  refine ⟨And.left, fun hlatest => ⟨hlatest, ?_⟩⟩
  obtain ⟨chain', -, hline'⟩ := h.rewind target
  have hchain' : Chain (s.versions.rewind t target).backend.commits
      (s.versions.rewind t target).head.commitId chain' := hline'.line
  rw [listHistory_eq hline'.ids hchain']
  rw [hhead.mpr hlatest] at hchain'
  exact (hchain'.mono fun d hd => (mem_truncate.mp (hchain'.subset d hd)).1).unique h.ids hhistory

end Runs

def stillTrack : Track Unit Unit where
  empty := ()
  diff _ _ := ()
  unchanged _ := true
  apply _ _ := ()
  Alike _ _ := True

/-- Two commits of one event: the second has the lesser id, and its file is listed first. -/
def sharedEvent : List (VersionStep Unit) := [.commit () "s" "b", .commit () "s" "a"]

end JiuwenSpec.Vcs

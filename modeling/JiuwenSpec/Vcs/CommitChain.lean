import JiuwenSpec.Vcs.VersionRuns

/-!
# The chain of commits

A commit names its parent, and the history is walked from the commit of the head. Which of several
commits is the latest at an event is decided by the order in which the backend lists them.
Source: `list_history`, `_latest_commit_id`, `_resolve_event_id` of `core/session/vcs/manager.py`,
`list_commits` of `jsonl_backend.py` and `kv_backend.py`.
-/

namespace JiuwenSpec.Vcs

open Base List

universe u v

variable {S : Type u} {D : Type v}

/-- `int(suffix)`. -/
def digitsValue (digits : List Char) : ℕ :=
  digits.foldl (fun n c => 10 * n + (c.toNat - '0'.toNat)) 0

/-- A reference, as `_resolve_event_id` reads its text: `EVENT_REF_PREFIX` before digits of ASCII is
an event, anything else a commit. -/
def readRef (ref : String) : Ref :=
  match ref.toList with
  | 'e' :: suffix =>
    if suffix ≠ [] ∧ suffix.all Char.isDigit then .event (digitsValue suffix) else .commit ref
  | _ => .commit ref

/-- The loop of `list_history`, for at most so many rounds. -/
def walk (b : Backend S D) (limit : Option ℤ) : ℕ → Option String → List Commit → List Commit
  | 0, _, ordered => ordered
  | _ + 1, none, ordered => ordered
  | rounds + 1, some commitId, ordered =>
    match b.getCommit commitId with
    | none => ordered
    | some c =>
      if ∃ n ∈ limit, n ≤ ((ordered ++ [c]).length : ℤ) then ordered ++ [c]
      else walk b limit rounds c.parentId (ordered ++ [c])

/-- `list_history`. The loop is over after a round for each commit. -/
def Versions.listHistory (v : Versions S D) (limit : Option ℤ) : List Commit :=
  walk v.backend limit (v.backend.commits.length + 1) v.head.commitId []

inductive Chain (commits : List Commit) : Option String → List Commit → Prop where
  | root : Chain commits none []
  | cons {c : Commit} {rest : List Commit} (mem : c ∈ commits)
      (parents : Chain commits c.parentId rest) : Chain commits (some c.commitId) (c :: rest)

def OwnIds (commits : List Commit) : Prop := (commits.map (·.commitId)).Nodup

section Chain

variable {commits commits' : List Commit} {c : Commit} {at? : Option String}
  {chain rest : List Commit}

theorem OwnIds.inj (h : OwnIds commits) {c d : Commit} (hc : c ∈ commits) (hd : d ∈ commits)
    (hid : c.commitId = d.commitId) : c = d := inj_on_of_nodup_map h hc hd hid

theorem OwnIds.nodup (h : OwnIds commits) : commits.Nodup := List.Nodup.of_map _ h

namespace Chain

theorem subset (h : Chain commits at? chain) : ∀ c ∈ chain, c ∈ commits := by
  induction h with
  | root => exact nofun
  | cons hmem _ ih =>
    intro d hd
    rcases mem_cons.mp hd with rfl | hd
    · exact hmem
    · exact ih d hd

theorem mono (h : Chain commits at? chain) (hsub : ∀ c ∈ chain, c ∈ commits') :
    Chain commits' at? chain := by
  induction h with
  | root => exact .root
  | cons _ _ ih =>
    exact .cons (hsub _ (.head _)) (ih fun d hd => hsub d (.tail _ hd))

theorem from_mem {pre : List Commit} (h : Chain commits at? (pre ++ c :: rest)) :
    Chain commits (some c.commitId) (c :: rest) := by
  induction pre generalizing at? with
  | nil =>
    cases h with
    | cons hmem hrest => exact .cons hmem hrest
  | cons d pre ih =>
    cases h with
    | cons _ hrest => exact ih hrest

theorem unique (hids : OwnIds commits) (h : Chain commits at? chain) {chain' : List Commit}
    (h' : Chain commits at? chain') : chain = chain' := by
  induction h generalizing chain' with
  | root =>
    cases h' with
    | root => rfl
  | @cons d rest hmem _ ih =>
    generalize hid : some d.commitId = start at h'
    cases h' with
    | root => cases hid
    | cons hmem' hrest' =>
      have heq := hids.inj hmem hmem' (Option.some.inj hid)
      subst heq
      rw [ih hrest']

theorem nodup (hids : OwnIds commits) (h : Chain commits at? chain) : chain.Nodup := by
  induction h with
  | root => exact nodup_nil
  | @cons d rest hmem hrest ih =>
    refine nodup_cons.mpr ⟨fun hd => ?_, ih⟩
    -- A commit that came again would have a chain shorter than itself.
    obtain ⟨pre, post, hsplit⟩ := append_of_mem hd
    have hagain := from_mem (hsplit ▸ hrest)
    have hsame := (Chain.cons hmem hrest).unique hids hagain
    have hlength := congrArg List.length hsame
    rw [hsplit] at hlength
    simp only [length_cons, length_append] at hlength
    omega

theorem length_le (hids : OwnIds commits) (h : Chain commits at? chain) :
    chain.length ≤ commits.length := (h.nodup hids).length_le_of_subset h.subset

end Chain

theorem getCommit_of_mem {b : Backend S D} (hids : OwnIds b.commits) (hc : c ∈ b.commits) :
    b.getCommit c.commitId = some c := by
  rw [Backend.getCommit]
  cases hfind : b.commits.find? (·.commitId = c.commitId) with
  | none => simpa using List.find?_eq_none.mp hfind c hc
  | some d =>
    have hid : d.commitId = c.commitId := by simpa using List.find?_some hfind
    rw [hids.inj (mem_of_find?_eq_some hfind) hc hid]

theorem walk_eq {b : Backend S D} (hids : OwnIds b.commits) (h : Chain b.commits at? chain)
    {rounds : ℕ} (hrounds : chain.length < rounds) (ordered : List Commit) :
    walk b none rounds at? ordered = ordered ++ chain := by
  induction h generalizing rounds ordered with
  | root =>
    cases rounds with
    | zero => exact absurd hrounds (Nat.not_lt_zero _)
    | succ rounds => exact (append_nil _).symm
  | cons hmem _ ih =>
    cases rounds with
    | zero => exact absurd hrounds (Nat.not_lt_zero _)
    | succ rounds =>
      rw [walk, getCommit_of_mem hids hmem]
      simp only [Option.mem_def, reduceCtorEq, false_and, exists_false, if_false]
      rw [ih (Nat.lt_of_succ_lt_succ hrounds), append_assoc, singleton_append]

theorem listHistory_eq {v : Versions S D} (hids : OwnIds v.backend.commits)
    (h : Chain v.backend.commits v.head.commitId chain) : v.listHistory none = chain := by
  rw [Versions.listHistory, walk_eq hids h (Nat.lt_succ_of_le (h.length_le hids))]
  rfl

end Chain

def Log.IsFile : Log D → Prop
  | .jsonl _ _ => True
  | .kv _ => False

/-- The first commit is listed before the other: its file has the lesser name, or its key is ahead
in the store. -/
def Before (b : Backend S D) (c d : Commit) : Prop :=
  match b.log with
  | .jsonl _ _ => c.commitId < d.commitId
  | .kv _ => [c, d].Sublist b.commits

/-- Among the commits up to the event, the latest, and of those at one event the first listed. -/
def IsLatest (b : Backend S D) (target : ℕ) (c : Commit) : Prop :=
  c ∈ b.commits ∧ c.eventIdHigh ≤ target ∧ ∀ d ∈ b.commits, d.eventIdHigh ≤ target →
    d.eventIdHigh ≤ c.eventIdHigh ∧ (d.eventIdHigh = c.eventIdHigh → d ≠ c → Before b c d)

section Order

variable {b b' : Backend S D} {c d : Commit} {target : ℕ}

theorem not_sublist_swap {l : List Commit} (hn : l.Nodup) (h : [c, d].Sublist l) :
    ¬ [d, c].Sublist l := by
  induction l with
  | nil => cases h
  | cons x l ih =>
    rw [nodup_cons] at hn
    intro h'
    cases h with
    | cons _ h =>
      cases h' with
      | cons _ h' => exact ih hn.2 h h'
      | cons_cons _ h' => exact hn.1 (h.subset (by simp))
    | cons_cons _ h =>
      cases h' with
      | cons _ h' => exact hn.1 (h'.subset (by simp))
      | cons_cons _ h' => exact hn.1 (h.subset (by simp))

theorem sublist_of_idxOf_le [DecidableEq Commit] {l : List Commit} (hc : c ∈ l) (hd : d ∈ l)
    (hne : d ≠ c) (hle : l.idxOf c ≤ l.idxOf d) : [c, d].Sublist l := by
  induction l with
  | nil => cases hc
  | cons x l ih =>
    by_cases hx : x = c
    · subst hx
      exact (singleton_sublist.mpr ((mem_cons.mp hd).resolve_left hne)).cons_cons x
    · have hc' := (mem_cons.mp hc).resolve_left (Ne.symm hx)
      by_cases hxd : x = d
      · subst hxd
        rw [idxOf_cons_self, idxOf_cons_ne _ hx] at hle
        exact absurd hle (Nat.not_succ_le_zero _)
      · have hd' := (mem_cons.mp hd).resolve_left (Ne.symm hxd)
        rw [idxOf_cons_ne _ hx, idxOf_cons_ne _ hxd] at hle
        exact (ih hc' hd' (Nat.le_of_succ_le_succ hle)).cons x

theorem before_asymm (hids : OwnIds b.commits) (hcd : Before b c d) : ¬ Before b d c := by
  rw [Before] at hcd ⊢
  cases hlog : b.log with
  | jsonl lines tail =>
    rw [hlog] at hcd
    exact String.lt_asymm hcd
  | kv entries =>
    rw [hlog] at hcd
    exact not_sublist_swap hids.nodup hcd

theorem before_of_listed (hids : OwnIds b.commits) {p : Commit → Bool} (hne : d ≠ c)
    (h : [c, d].Sublist ((b.listed (·.commitId) b.commits).filter p)) : Before b c d := by
  have hlisted := h.trans filter_sublist
  have hc : c ∈ b.commits := Keeps.mem_listed.mp (hlisted.subset (by simp))
  have hd : d ∈ b.commits := Keeps.mem_listed.mp (hlisted.subset (by simp))
  rw [Backend.listed] at hlisted
  rw [Before]
  cases hlog : b.log with
  | jsonl lines tail =>
    rw [hlog] at hlisted
    have htotal : Std.Total fun r r' : Commit => r.commitId ≤ r'.commitId :=
      ⟨fun _ _ => String.le_total _ _⟩
    have htrans : IsTrans Commit fun r r' => r.commitId ≤ r'.commitId :=
      ⟨fun _ _ _ => String.le_trans⟩
    have hsorted := pairwise_insertionSort (fun r r' : Commit => r.commitId ≤ r'.commitId)
      b.commits
    have hle := pairwise_iff_forall_sublist.mp hsorted hlisted
    rw [← String.not_le]
    exact fun hge => hne (hids.inj hd hc (String.le_antisymm hge hle))
  | kv entries =>
    rw [hlog] at hlisted
    exact hlisted

theorem latestCommitId_eq_some_iff (hids : OwnIds b.commits) {commitId : String} :
    latestCommitId b target = some commitId ↔ ∃ c, IsLatest b target c ∧ c.commitId = commitId := by
  classical
  have hmem : ∀ c, c ∈ (b.listed (·.commitId) b.commits).filter (·.eventIdHigh ≤ target) ↔
      c ∈ b.commits ∧ c.eventIdHigh ≤ target := by
    intro c
    rw [mem_filter, Keeps.mem_listed, decide_eq_true_eq]
  have hlatest : ∀ c, ((b.listed (·.commitId) b.commits).filter (·.eventIdHigh ≤ target)).argmax
      (·.eventIdHigh) = some c → IsLatest b target c := by
    intro c hc
    obtain ⟨hin, hmax, hfirst⟩ := mem_argmax_iff.mp hc
    refine ⟨((hmem c).mp hin).1, ((hmem c).mp hin).2, fun d hd hle => ?_⟩
    have hd' := (hmem d).mpr ⟨hd, hle⟩
    exact ⟨hmax d hd', fun heq hne =>
      before_of_listed hids hne (sublist_of_idxOf_le hin hd' hne (hfirst d hd' heq.ge))⟩
  rw [latestCommitId, Option.map_eq_some_iff]
  constructor
  · rintro ⟨c, hc, hid⟩
    exact ⟨c, hlatest c hc, hid⟩
  · rintro ⟨c, hc, hid⟩
    cases hfound : ((b.listed (·.commitId) b.commits).filter (·.eventIdHigh ≤ target)).argmax
      (·.eventIdHigh) with
    | none =>
      have hnil := argmax_eq_none.mp hfound
      have hin := (hmem c).mpr ⟨hc.1, hc.2.1⟩
      rw [hnil] at hin
      cases hin
    | some d =>
      refine ⟨d, rfl, ?_⟩
      by_cases hdc : d = c
      · rw [hdc, hid]
      · have hd := hlatest d hfound
        have hle := hc.2.2 d hd.1 hd.2.1
        have hge := hd.2.2 c hc.1 hc.2.1
        have heq := Nat.le_antisymm hle.1 hge.1
        exact absurd (hge.2 heq.symm (Ne.symm hdc)) (before_asymm hids (hle.2 heq hdc))

end Order

end JiuwenSpec.Vcs

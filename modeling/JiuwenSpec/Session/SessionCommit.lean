import JiuwenSpec.Session.CommitState

/-!
# Commit and rollback of a workflow session

A session operation is carried out on some of the four parts, one after another, and stops
at the first part that raises. Each part therefore runs its own list of operations, and
what is known of one commit state holds of every part of every session run.
-/

namespace JiuwenSpec.Session

open Base List InMemoryCommitState

universe u v w x

namespace CommitState

variable {σ : Type u} {ν : Type v} {υ : Type w} {ε : Type x} [DecidableEq ν]

/-- The visited parts that the operation reaches: all of them, or those up to the first that
raises. -/
def reached (sl : StateLike σ υ ε) (op : CommitOp ν υ) (s : CommitState σ ν υ) :
    List Part → List Part
  | [] => []
  | p :: rest =>
    match ((s.part p).apply sl op).2 with
    | none => p :: reached sl op s rest
    | some _ => [p]

omit [DecidableEq ν] in
@[simp] theorem setPart_same (s : CommitState σ ν υ) (p : Part)
    (new : InMemoryCommitState σ ν υ) : (s.setPart p new).part p = new := by
  simp [setPart]

omit [DecidableEq ν] in
theorem setPart_other (s : CommitState σ ν υ) {p q : Part} (new : InMemoryCommitState σ ν υ)
    (h : q ≠ p) : (s.setPart p new).part q = s.part q := by
  simp [setPart, h]

variable {s : CommitState σ ν υ} {parts : List Part}

theorem reached_congr (sl : StateLike σ υ ε) (op : CommitOp ν υ) {t : CommitState σ ν υ}
    (h : ∀ p ∈ parts, s.part p = t.part p) : reached sl op s parts = reached sl op t parts := by
  induction parts with
  | nil => rfl
  | cons p rest ih =>
    rw [reached, reached, h p mem_cons_self,
      ih (fun q hq => h q (mem_cons_of_mem _ hq))]

theorem reached_subset (sl : StateLike σ υ ε) (op : CommitOp ν υ) (s : CommitState σ ν υ)
    (parts : List Part) : reached sl op s parts ⊆ parts := by
  induction parts with
  | nil => exact List.Subset.refl []
  | cons p rest ih =>
    rw [reached]
    cases ((s.part p).apply sl op).2 with
    | none => exact cons_subset_cons p ih
    | some e => exact cons_subset_cons p (nil_subset rest)

theorem onParts_part (sl : StateLike σ υ ε) (op : CommitOp ν υ)
    (hnodup : parts.Nodup) (s : CommitState σ ν υ) (q : Part) :
    (onParts sl op parts s).1.part q =
      if q ∈ reached sl op s parts then (s.part q).step sl op else s.part q := by
  induction parts generalizing s with
  | nil => rfl
  | cons p rest ih =>
    obtain ⟨hp, hrest⟩ := nodup_cons.mp hnodup
    rw [onParts, reached]
    cases happ : (s.part p).apply sl op with
    | mk new err =>
      have hnew : (s.part p).step sl op = new := by rw [InMemoryCommitState.step, happ]
      have hset : (s.setPart p new).part q =
          if q = p then (s.part q).step sl op else s.part q := by
        by_cases hq : q = p
        · rw [if_pos hq, hq, setPart_same, hnew]
        · rw [if_neg hq, setPart_other _ _ hq]
      cases err with
      | none =>
        have hcongr : reached sl op (s.setPart p new) rest = reached sl op s rest :=
          reached_congr sl op fun q hq => setPart_other s new (fun h => hp (h ▸ hq))
        change (onParts sl op rest (s.setPart p new)).1.part q = _
        rw [ih hrest, hcongr, hset]
        by_cases hq : q = p
        · subst hq
          have hnot : q ∉ reached sl op s rest := fun h => hp (reached_subset _ _ _ _ h)
          simp [hnot]
        · simp [hq]
      | some e => simpa using hset

theorem onParts_ok (sl : StateLike σ υ ε) (op : CommitOp ν υ)
    (hnodup : parts.Nodup) (h : (onParts sl op parts s).2 = none) :
    reached sl op s parts = parts ∧ ∀ p ∈ parts, ((s.part p).apply sl op).2 = none := by
  induction parts generalizing s with
  | nil => exact ⟨rfl, fun p hp => absurd hp not_mem_nil⟩
  | cons p rest ih =>
    obtain ⟨hp, hrest⟩ := nodup_cons.mp hnodup
    rw [onParts] at h
    rw [reached]
    cases happ : (s.part p).apply sl op with
    | mk new err =>
      rw [happ] at h
      cases err with
      | none =>
        have hsame : ∀ q ∈ rest, (s.setPart p new).part q = s.part q :=
          fun q hq => setPart_other s new (fun h => hp (h ▸ hq))
        obtain ⟨hreach, hok⟩ := ih hrest h
        rw [reached_congr sl op hsame] at hreach
        refine ⟨congrArg (p :: ·) hreach, fun q hq => ?_⟩
        cases mem_cons.mp hq with
        | inl heq => rw [heq, happ]
        | inr hmem => exact hsame q hmem ▸ hok q hmem
      | some e => cases h

theorem onParts_error (sl : StateLike σ υ ε) (op : CommitOp ν υ) (hnodup : parts.Nodup) {e : ε}
    (h : (onParts sl op parts s).2 = some e) :
    ∃ before p after, parts = before ++ p :: after ∧
      reached sl op s parts = before ++ [p] ∧
      (∀ q ∈ before, ((s.part q).apply sl op).2 = none) ∧
      ((s.part p).apply sl op).2 = some e := by
  induction parts generalizing s with
  | nil => cases h
  | cons p rest ih =>
    obtain ⟨hp, hrest⟩ := nodup_cons.mp hnodup
    rw [onParts] at h
    rw [reached]
    cases happ : (s.part p).apply sl op with
    | mk new err =>
      rw [happ] at h
      cases err with
      | none =>
        have hsame : ∀ q ∈ rest, (s.setPart p new).part q = s.part q :=
          fun q hq => setPart_other s new (fun h => hp (h ▸ hq))
        obtain ⟨before, raising, after, hparts, hreach, hok, herr⟩ := ih hrest h
        rw [reached_congr sl op hsame] at hreach
        refine ⟨p :: before, raising, after, congrArg (p :: ·) hparts,
          congrArg (p :: ·) hreach, fun q hq => ?_, ?_⟩
        · cases mem_cons.mp hq with
          | inl heq => rw [heq, happ]
          | inr hmem =>
            have hq' : q ∈ rest := by
              rw [hparts]
              exact mem_append_left _ hmem
            exact hsame q hq' ▸ hok q hmem
        · have hr : raising ∈ rest := by
            rw [hparts]
            exact mem_append_right _ mem_cons_self
          exact hsame raising hr ▸ herr
      | some e' => exact ⟨[], p, rest, rfl, rfl, by simp, happ ▸ h⟩

omit [DecidableEq ν] in
theorem visits_nodup (op : SessionOp ν υ) : (visits op).2.Nodup := by
  cases op <;> simp [visits]

def opsOf (p : Part) (op : SessionOp ν υ) : List (CommitOp ν υ) :=
  if p ∈ (visits op).2 then [(visits op).1] else []

/-- What an operation makes one part do: nothing where an earlier part raised. -/
def reachingOps (sl : StateLike σ υ ε) (s : CommitState σ ν υ) (p : Part)
    (op : SessionOp ν υ) : List (CommitOp ν υ) :=
  if p ∈ reached sl (visits op).1 s (visits op).2 then [(visits op).1] else []

def partOps (sl : StateLike σ υ ε) (p : Part) :
    CommitState σ ν υ → List (SessionOp ν υ) → List (CommitOp ν υ)
  | _, [] => []
  | s, op :: ops => reachingOps sl s p op ++ partOps sl p (s.step sl op) ops

def Succeeds (sl : StateLike σ υ ε) (s : CommitState σ ν υ) (op : SessionOp ν υ) : Prop :=
  (s.apply sl op).2 = none

theorem step_part (sl : StateLike σ υ ε) (s : CommitState σ ν υ) (p : Part)
    (op : SessionOp ν υ) : (s.step sl op).part p =
      run (InMemoryCommitState.step sl) (s.part p) (reachingOps sl s p op) := by
  rw [step, apply, onParts_part sl _ (visits_nodup op), reachingOps]
  by_cases h : p ∈ reached sl (visits op).1 s (visits op).2
  · rw [if_pos h, if_pos h, run_cons, run_nil]
  · rw [if_neg h, if_neg h, run_nil]

theorem run_part (sl : StateLike σ υ ε) (s : CommitState σ ν υ) (p : Part)
    (ops : List (SessionOp ν υ)) : (run (step sl) s ops).part p =
      run (InMemoryCommitState.step sl) (s.part p) (partOps sl p s ops) := by
  induction ops generalizing s with
  | nil => rfl
  | cons op ops ih => rw [run_cons, ih, partOps, run_append, step_part]

theorem partOps_of_succeeds (sl : StateLike σ υ ε) (p : Part)
    {ops : List (SessionOp ν υ)} (hok : Meets (step sl) (Succeeds sl) s ops) :
    partOps sl p s ops = ops.flatMap (opsOf p) ∧
      Meets (InMemoryCommitState.step sl) (InMemoryCommitState.Succeeds sl) (s.part p)
        (ops.flatMap (opsOf p)) := by
  induction ops generalizing s with
  | nil => exact ⟨rfl, True.intro⟩
  | cons op ops ih =>
    obtain ⟨hop, hrest⟩ := hok
    obtain ⟨hreach, hparts⟩ := onParts_ok sl _ (visits_nodup op) hop
    have hops : reachingOps sl s p op = opsOf p op := by rw [reachingOps, hreach, opsOf]
    have hfirst : Meets (InMemoryCommitState.step sl) (InMemoryCommitState.Succeeds sl)
        (s.part p) (opsOf p op) := by
      rw [opsOf]
      by_cases h : p ∈ (visits op).2
      · rw [if_pos h]
        exact ⟨hparts p h, True.intro⟩
      · rw [if_neg h]
        exact True.intro
    obtain ⟨htail, hmeets⟩ := ih hrest
    refine ⟨?_, ?_⟩
    · rw [partOps, hops, htail, flatMap_cons]
    · rw [flatMap_cons, meets_append]
      refine ⟨hfirst, ?_⟩
      rwa [← hops, ← step_part]

def initial (state : Part → σ) : CommitState σ ν υ := ⟨fun p => .initial (state p)⟩

theorem run_state (sl : StateLike σ υ ε) (state : Part → σ) (p : Part)
    (ops : List (SessionOp ν υ)) :
    ((run (step sl) (initial state) ops).part p).state =
      (InMemoryCommitState.appliedAfter sl (.initial (state p)) []
        (partOps sl p (initial state) ops)).foldl sl.effect (state p) := by
  rw [run_part]
  exact (initial_follows (state p)).run_state sl _

theorem run_state_of_succeeds (sl : StateLike σ υ ε) (state : Part → σ) (p : Part)
    (ops : List (SessionOp ν υ)) (hok : Meets (step sl) (Succeeds sl) (initial state) ops) :
    ((run (step sl) (initial state) ops).part p).state =
      (committedAfter [] (ops.flatMap (opsOf p))).foldl sl.effect (state p) := by
  obtain ⟨hops, hmeets⟩ := partOps_of_succeeds sl p hok
  have hf : (InMemoryCommitState.initial (state p) : InMemoryCommitState σ ν υ).Follows [] :=
    initial_follows (state p)
  rw [run_state, hops, hf.appliedAfter_eq sl _ hmeets]

theorem rollback_part (sl : StateLike σ υ ε) (s : CommitState σ ν υ) (nodeId : ν) (p : Part) :
    ((s.step sl (.rollback nodeId)).part p).state = (s.part p).state ∧
      ∀ n, ((s.step sl (.rollback nodeId)).part p).staged n =
        if n = nodeId then [] else (s.part p).staged n := by
  have hreach : reached sl (.rollback nodeId) s [.comp, .io, .globalState, .workflow] =
      [.comp, .io, .globalState, .workflow] := rfl
  have hmem : p ∈ reached sl (.rollback nodeId) s [.comp, .io, .globalState, .workflow] := by
    rw [hreach]
    cases p <;> simp
  have hpart : (s.step sl (.rollback nodeId)).part p = (s.part p).rollback nodeId := by
    rw [step, apply, onParts_part sl _ (visits_nodup _)]
    exact if_pos hmem
  rw [hpart]
  exact ⟨rfl, staged_set (s.part p) _ nodeId []⟩

/-- What a raising operation leaves of the part that raised: every staged update is still
staged, and the updates before the failing one, and the effect of that one up to its
exception, are in the committed state. -/
structure LeftRaised (sl : StateLike σ υ ε) (s t : InMemoryCommitState σ ν υ)
    (op : CommitOp ν υ) (e : ε) : Prop where
  updates_eq : t.updates = s.updates
  state_eq : ∃ done failing rest, s.covered op = done ++ failing :: rest ∧
    (sl.updateAll s.state done).2 = none ∧
    (sl.update (done.foldl sl.effect s.state) failing).2 = some e ∧
    t.state = sl.effect (done.foldl sl.effect s.state) failing

theorem leftRaised (sl : StateLike σ υ ε) (s : InMemoryCommitState σ ν υ) (op : CommitOp ν υ)
    {e : ε} (h : (s.apply sl op).2 = some e) : LeftRaised sl s (s.step sl op) op e := by
  obtain ⟨hstate, herr⟩ := step_state sl s op
  rw [h] at herr
  obtain ⟨done, failing, rest, hcov, hatt, hok, hfail⟩ :=
    sl.attempted_of_error s.state _ herr.symm
  have hleft : (s.step sl op).state = sl.effect (done.foldl sl.effect s.state) failing := by
    rw [hstate, StateLike.updateAll_state, hatt, foldl_append]
    rfl
  exact ⟨step_updates_of_error sl s op h,
    done, failing, rest, hcov, hok, hfail, hleft⟩

theorem step_of_error (sl : StateLike σ υ ε) (s : CommitState σ ν υ) (op : SessionOp ν υ)
    {e : ε} (h : (s.apply sl op).2 = some e) :
    ∃ before p after, (visits op).2 = before ++ p :: after ∧
      (∀ q ∈ before, ((s.part q).apply sl (visits op).1).2 = none ∧
        (s.step sl op).part q = (s.part q).step sl (visits op).1) ∧
      LeftRaised sl (s.part p) ((s.step sl op).part p) (visits op).1 e ∧
      ∀ q, q ∉ before → q ≠ p → (s.step sl op).part q = s.part q := by
  obtain ⟨before, p, after, hvisits, hreach, hok, herr⟩ :=
    onParts_error sl _ (visits_nodup op) h
  have hpart : ∀ q, (s.step sl op).part q =
      if q ∈ before ++ [p] then (s.part q).step sl (visits op).1 else s.part q := by
    intro q
    rw [step, apply, onParts_part sl _ (visits_nodup op), hreach]
  refine ⟨before, p, after, hvisits, fun q hq => ⟨hok q hq, ?_⟩, ?_, fun q hq hne => ?_⟩
  · rw [hpart, if_pos (mem_append_left _ hq)]
  · rw [hpart, if_pos (mem_append_right _ (mem_singleton_self p))]
    exact leftRaised sl (s.part p) _ herr
  · rw [hpart, if_neg]
    simpa [hne] using hq

/-- Commit and rollback of the session state. The committed state of each part is the fold,
in commit order, of what was staged and committed; a commit that raises has gone as far
as the update that raised, and leaves everything staged. -/
theorem commit_rollback (sl : StateLike σ υ ε) :
    (∀ (state : Part → σ) (ops : List (SessionOp ν υ)) (p : Part),
      Meets (step sl) (Succeeds sl) (initial state) ops →
        ((run (step sl) (initial state) ops).part p).state =
          (committedAfter [] (ops.flatMap (opsOf p))).foldl sl.effect (state p)) ∧
    (∀ (state : Part → σ) (ops : List (SessionOp ν υ)) (p : Part),
      ((run (step sl) (initial state) ops).part p).state =
        (InMemoryCommitState.appliedAfter sl (.initial (state p)) []
          (partOps sl p (initial state) ops)).foldl sl.effect (state p)) ∧
    (∀ (s : CommitState σ ν υ) (nodeId : ν) (p : Part),
      ((s.step sl (.rollback nodeId)).part p).state = (s.part p).state ∧
        ∀ n, ((s.step sl (.rollback nodeId)).part p).staged n =
          if n = nodeId then [] else (s.part p).staged n) ∧
    ∀ (s : CommitState σ ν υ) (op : SessionOp ν υ) (e : ε), (s.apply sl op).2 = some e →
      ∃ before p after, (visits op).2 = before ++ p :: after ∧
        (∀ q ∈ before, ((s.part q).apply sl (visits op).1).2 = none ∧
          (s.step sl op).part q = (s.part q).step sl (visits op).1) ∧
        LeftRaised sl (s.part p) ((s.step sl op).part p) (visits op).1 e ∧
        ∀ q, q ∉ before → q ≠ p → (s.step sl op).part q = s.part q :=
  ⟨fun state ops p h => run_state_of_succeeds sl state p ops h,
    fun state ops p => run_state sl state p ops, rollback_part sl,
    fun s op _ h => step_of_error sl s op h⟩

def emptySession : CommitState Value String (List (String × Value)) :=
  initial fun _ => .dict []

/-- Two nodes stage into the component state; one is committed, the other rolled back. -/
def twoNodes : List (SessionOp String (List (String × Value))) :=
  [.stage .comp "a" [("x", .num 1)], .stage .comp "b" [("y", .num 2)],
    .stage .comp "a" [("z", .num 3)], .commitCmp "a", .rollback "b", .commit]

/-- The second update of the node goes down into the number that the first one assigns. -/
def clashingUpdates : List (SessionOp String (List (String × Value))) :=
  [.stage .comp "n" [("x", .num 1)], .stage .comp "n" [("x.y", .num 2)]]

theorem commit_rollback_twoNodes :
    ((run (step inMemoryStateLike) emptySession twoNodes).part .comp).state =
        (committedAfter [] (twoNodes.flatMap (opsOf .comp))).foldl inMemoryStateLike.effect
          (.dict []) ∧
      ∃ before p after, [Part.comp, Part.io] = before ++ p :: after ∧
        LeftRaised inMemoryStateLike
          ((run (step inMemoryStateLike) emptySession clashingUpdates).part p)
          (((run (step inMemoryStateLike) emptySession clashingUpdates).step inMemoryStateLike
            (.commitCmp "n")).part p) (.commit "n") .typeError := by
  refine ⟨(commit_rollback inMemoryStateLike).1 (fun _ => .dict []) twoNodes .comp
    ⟨rfl, rfl, rfl, rfl, rfl, rfl, True.intro⟩, ?_⟩
  obtain ⟨before, p, after, hvisits, -, hleft, -⟩ :=
    (commit_rollback inMemoryStateLike).2.2.2
      (run (step inMemoryStateLike) emptySession clashingUpdates) (.commitCmp "n") .typeError rfl
  exact ⟨before, p, after, hvisits, hleft⟩

theorem raising_commit_changes_state :
    ¬ ∀ (ops : List (SessionOp String (List (String × Value)))) (nodeId : String)
        (e : PathError),
      ((run (step inMemoryStateLike) emptySession ops).apply inMemoryStateLike
        (.commitCmp nodeId)).2 = some e →
      (((run (step inMemoryStateLike) emptySession ops).step inMemoryStateLike
        (.commitCmp nodeId)).part .comp).state =
        ((run (step inMemoryStateLike) emptySession ops).part .comp).state := by
  intro h
  have hsame : Value.dict [("x", .num 1)] = .dict [] := h clashingUpdates "n" .typeError rfl
  cases hsame

end CommitState

end JiuwenSpec.Session

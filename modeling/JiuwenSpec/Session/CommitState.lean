import JiuwenSpec.Base.Dict
import JiuwenSpec.Base.Run
import JiuwenSpec.Session.UpdateDict

/-!
# The transactional session state

`InMemoryCommitState` stages updates by node and applies them to an underlying state on
commit; `CommitState` joins the four states of a workflow session and commits or rolls
back all of them. An update that raises stops its commit where it stands.
Source: `core/session/state/base.py`, `core/session/state/workflow_state.py`.
-/

namespace JiuwenSpec.Session

open Base List

universe u v w x

/-- `StateLike.update`: the state afterwards, also when the update raises. -/
structure StateLike (σ : Type u) (υ : Type v) (ε : Type w) where
  update : σ → υ → σ × Option ε

/-- `InMemoryStateLike`: a dictionary updated by `update_dict`. -/
def inMemoryStateLike : StateLike Value (List (String × Value)) PathError where
  update
    | .dict source, data => updateDict data source
    | other, _ => (other, some .typeError)

namespace StateLike

variable {σ : Type u} {υ : Type v} {ε : Type w}

def effect (sl : StateLike σ υ ε) (s : σ) (u : υ) : σ := (sl.update s u).1

/-- Updates one after another, up to the first that raises. -/
def updateAll (sl : StateLike σ υ ε) : σ → List υ → σ × Option ε
  | s, [] => (s, none)
  | s, u :: us =>
    match sl.update s u with
    | (s', none) => sl.updateAll s' us
    | (s', some e) => (s', some e)

/-- The updates that a sequence attempts: all of them, or those up to the one that raises. -/
def attempted (sl : StateLike σ υ ε) : σ → List υ → List υ
  | _, [] => []
  | s, u :: us =>
    match sl.update s u with
    | (s', none) => u :: sl.attempted s' us
    | (_, some _) => [u]

theorem updateAll_state (sl : StateLike σ υ ε) (s : σ) (us : List υ) :
    (sl.updateAll s us).1 = (sl.attempted s us).foldl sl.effect s := by
  induction us generalizing s with
  | nil => rfl
  | cons u us ih =>
    rw [updateAll, attempted]
    cases h : sl.update s u with
    | mk s' err =>
      have heffect : sl.effect s u = s' := by rw [effect, h]
      cases err with
      | none =>
        rw [foldl_cons, heffect]
        exact ih s'
      | some e => exact heffect.symm

theorem attempted_of_ok (sl : StateLike σ υ ε) (s : σ) (us : List υ)
    (h : (sl.updateAll s us).2 = none) : sl.attempted s us = us := by
  induction us generalizing s with
  | nil => rfl
  | cons u us ih =>
    rw [updateAll] at h
    rw [attempted]
    cases hu : sl.update s u with
    | mk s' err =>
      rw [hu] at h
      cases err with
      | none => exact congrArg (u :: ·) (ih s' h)
      | some e => cases h

theorem attempted_of_error (sl : StateLike σ υ ε) (s : σ) (us : List υ) {e : ε}
    (h : (sl.updateAll s us).2 = some e) :
    ∃ done failing rest, us = done ++ failing :: rest ∧
      sl.attempted s us = done ++ [failing] ∧ (sl.updateAll s done).2 = none ∧
      (sl.update (done.foldl sl.effect s) failing).2 = some e := by
  induction us generalizing s with
  | nil => cases h
  | cons u us ih =>
    rw [updateAll] at h
    cases hu : sl.update s u with
    | mk s' err =>
      rw [hu] at h
      have heffect : sl.effect s u = s' := by rw [effect, hu]
      cases err with
      | none =>
        obtain ⟨done, failing, rest, rfl, hatt, hok, hfail⟩ := ih s' h
        refine ⟨u :: done, failing, rest, rfl, ?_, ?_, ?_⟩
        · rw [attempted, hu]
          exact congrArg (u :: ·) hatt
        · rw [updateAll, hu]
          exact hok
        · rw [foldl_cons, heffect]
          exact hfail
      | some e' =>
        refine ⟨[], u, us, rfl, ?_, rfl, ?_⟩
        · rw [attempted, hu]
          rfl
        · rw [foldl_nil, hu]
          exact h

end StateLike

/-- `InMemoryCommitState`: the committed state and the staged updates by node. -/
structure InMemoryCommitState (σ : Type u) (ν : Type v) (υ : Type w) where
  state : σ
  updates : Dict ν (List υ)

inductive CommitOp (ν : Type v) (υ : Type w) where
  | updateById (nodeId : ν) (data : υ)
  | commitAll
  | commit (nodeId : ν)
  | rollback (nodeId : ν)

namespace InMemoryCommitState

variable {σ : Type u} {ν : Type v} {υ : Type w} {ε : Type x} [DecidableEq ν]

/-- `self._updates.get(node_id)`, empty when there is none. -/
def staged (s : InMemoryCommitState σ ν υ) (nodeId : ν) : List υ :=
  (s.updates.get? nodeId).getD []

def updateById (s : InMemoryCommitState σ ν υ) (nodeId : ν) (data : υ) :
    InMemoryCommitState σ ν υ :=
  { s with updates := s.updates.set nodeId (s.staged nodeId ++ [data]) }

/-- `commit()`: everything staged, node by node; then nothing is staged. -/
def commitAll (sl : StateLike σ υ ε) (s : InMemoryCommitState σ ν υ) :
    InMemoryCommitState σ ν υ × Option ε :=
  match sl.updateAll s.state (s.updates.entries.flatMap Prod.snd) with
  | (state, none) => ({ state := state, updates := Dict.empty }, none)
  | (state, some e) => ({ s with state := state }, some e)

/-- `commit(node_id)`. -/
def commit (sl : StateLike σ υ ε) (s : InMemoryCommitState σ ν υ) (nodeId : ν) :
    InMemoryCommitState σ ν υ × Option ε :=
  match s.updates.get? nodeId with
  | none => (s, none)
  | some [] => (s, none)
  | some nodeUpdates =>
    match sl.updateAll s.state nodeUpdates with
    | (state, none) => ({ state := state, updates := s.updates.set nodeId [] }, none)
    | (state, some e) => ({ s with state := state }, some e)

/-- `rollback(node_id)`. -/
def rollback (s : InMemoryCommitState σ ν υ) (nodeId : ν) : InMemoryCommitState σ ν υ :=
  { s with updates := s.updates.set nodeId [] }

/-- One operation and the exception it raises, if any. -/
def apply (sl : StateLike σ υ ε) (s : InMemoryCommitState σ ν υ) :
    CommitOp ν υ → InMemoryCommitState σ ν υ × Option ε
  | .updateById nodeId data => (s.updateById nodeId data, none)
  | .commitAll => s.commitAll sl
  | .commit nodeId => s.commit sl nodeId
  | .rollback nodeId => (s.rollback nodeId, none)

def step (sl : StateLike σ υ ε) (s : InMemoryCommitState σ ν υ) (op : CommitOp ν υ) :
    InMemoryCommitState σ ν υ := (s.apply sl op).1

end InMemoryCommitState

/-- The four states of a `StateCollection`, in the order `commit()` visits them. -/
inductive Part where
  | io
  | comp
  | globalState
  | workflow
  deriving DecidableEq

/-- `CommitState`: one commit state for each part. -/
structure CommitState (σ : Type u) (ν : Type v) (υ : Type w) where
  part : Part → InMemoryCommitState σ ν υ

/-- What is done to a session's state: staging into one part, `commit()`, `commit_cmp()` of
a node, the commit of the workflow part, and `rollback()` of a node. -/
inductive SessionOp (ν : Type v) (υ : Type w) where
  | stage (part : Part) (nodeId : ν) (data : υ)
  | commit
  | commitCmp (nodeId : ν)
  | commitWorkflow
  | rollback (nodeId : ν)

namespace CommitState

variable {σ : Type u} {ν : Type v} {υ : Type w} {ε : Type x} [DecidableEq ν]

def setPart (s : CommitState σ ν υ) (p : Part) (new : InMemoryCommitState σ ν υ) :
    CommitState σ ν υ where
  part := Function.update s.part p new

/-- The same operation on several parts, one after another, up to the first that raises. -/
def onParts (sl : StateLike σ υ ε) (op : CommitOp ν υ) :
    List Part → CommitState σ ν υ → CommitState σ ν υ × Option ε
  | [], s => (s, none)
  | p :: rest, s =>
    match (s.part p).apply sl op with
    | (new, none) => onParts sl op rest (s.setPart p new)
    | (new, some e) => (s.setPart p new, some e)

def visits : SessionOp ν υ → CommitOp ν υ × List Part
  | .stage p nodeId data => (.updateById nodeId data, [p])
  | .commit => (.commitAll, [.io, .comp, .globalState, .workflow])
  | .commitCmp nodeId => (.commit nodeId, [.comp, .io])
  | .commitWorkflow => (.commitAll, [.workflow])
  | .rollback nodeId => (.rollback nodeId, [.comp, .io, .globalState, .workflow])

/-- One operation and the exception it raises, if any. -/
def apply (sl : StateLike σ υ ε) (s : CommitState σ ν υ) (op : SessionOp ν υ) :
    CommitState σ ν υ × Option ε :=
  onParts sl (visits op).1 (visits op).2 s

def step (sl : StateLike σ υ ε) (s : CommitState σ ν υ) (op : SessionOp ν υ) :
    CommitState σ ν υ := (s.apply sl op).1

end CommitState

end JiuwenSpec.Session

/-!
## What a commit state has committed

From the operations alone: the updates of a node that wait are those staged since the last
operation that committed or rolled back the node, and what a commit adds to the log are
the waiting updates of the nodes it covers. The committed state is the fold of that log.
-/

namespace JiuwenSpec.Session

open Base List

universe u v w x

section History

variable {ν : Type v} {υ : Type w} [DecidableEq ν]

def pendingStep (nodeId : ν) (waiting : List υ) : CommitOp ν υ → List υ
  | .updateById n data => if n = nodeId then waiting ++ [data] else waiting
  | .commitAll => []
  | .commit n => if n = nodeId then [] else waiting
  | .rollback n => if n = nodeId then [] else waiting

def pendingOf (nodeId : ν) (history : List (CommitOp ν υ)) : List υ :=
  history.foldl (pendingStep nodeId) []

/-- The nodes in the order in which they first staged or rolled back, after one more
operation. -/
def touchStep (seen : List ν) : CommitOp ν υ → List ν
  | .updateById n _ => if n ∈ seen then seen else seen ++ [n]
  | .rollback n => if n ∈ seen then seen else seen ++ [n]
  | .commitAll => []
  | .commit _ => seen

/-- The nodes a commit of everything visits after a history, in order. -/
def touched (history : List (CommitOp ν υ)) : List ν := history.foldl touchStep []

def batch (history : List (CommitOp ν υ)) : CommitOp ν υ → List υ
  | .commitAll => (touched history).flatMap (fun n => pendingOf n history)
  | .commit n => pendingOf n history
  | _ => []

def committedAfter (history : List (CommitOp ν υ)) : List (CommitOp ν υ) → List υ
  | [] => []
  | op :: ops => batch history op ++ committedAfter (history ++ [op]) ops

theorem pendingOf_snoc (nodeId : ν) (history : List (CommitOp ν υ)) (op : CommitOp ν υ) :
    pendingOf nodeId (history ++ [op]) = pendingStep nodeId (pendingOf nodeId history) op := by
  rw [pendingOf, foldl_append]
  rfl

theorem touched_snoc (history : List (CommitOp ν υ)) (op : CommitOp ν υ) :
    touched (history ++ [op]) = touchStep (touched history) op := by
  rw [touched, foldl_append]
  rfl

end History

namespace InMemoryCommitState

variable {σ : Type u} {ν : Type v} {υ : Type w} {ε : Type x} [DecidableEq ν]

/-- The staged updates are those that wait, in the order the nodes were touched. -/
structure Follows (s : InMemoryCommitState σ ν υ) (history : List (CommitOp ν υ)) : Prop where
  staged_eq : ∀ n, s.staged n = pendingOf n history
  keys_eq : s.updates.keys = touched history

theorem entries_flatMap (s : InMemoryCommitState σ ν υ) :
    s.updates.entries.flatMap Prod.snd = s.updates.keys.flatMap s.staged := by
  have h : ∀ e ∈ s.updates.entries, e.2 = s.staged e.1 := by
    intro e he
    rw [staged, Dict.get?_eq_some_iff.mpr he]
    rfl
  rw [Dict.keys, flatMap_map]
  exact flatMap_congr h

theorem keys_set (s : InMemoryCommitState σ ν υ) (nodeId : ν) (us : List υ) :
    (s.updates.set nodeId us).keys =
      if nodeId ∈ s.updates.keys then s.updates.keys else s.updates.keys ++ [nodeId] := by
  by_cases h : nodeId ∈ s.updates.keys
  · rw [if_pos h, Dict.set, dif_pos h, Dict.keys_mapValues]
  · rw [if_neg h, Dict.set, dif_neg h, Dict.keys, map_append]
    rfl

theorem staged_set (s : InMemoryCommitState σ ν υ) (state : σ) (nodeId : ν) (us : List υ) (n : ν) :
    (InMemoryCommitState.mk state (s.updates.set nodeId us)).staged n =
      if n = nodeId then us else s.staged n := by
  rw [staged, Dict.get?_set]
  by_cases h : n = nodeId
  · rw [if_pos h, if_pos h]
    rfl
  · rw [if_neg h, if_neg h, staged]

def covered (s : InMemoryCommitState σ ν υ) : CommitOp ν υ → List υ
  | .commitAll => s.updates.keys.flatMap s.staged
  | .commit nodeId => s.staged nodeId
  | _ => []

variable {s : InMemoryCommitState σ ν υ} {history : List (CommitOp ν υ)}

theorem Follows.covered_eq
    (hf : s.Follows history) (op : CommitOp ν υ) : s.covered op = batch history op := by
  cases op with
  | updateById nodeId data => rfl
  | commitAll =>
    rw [covered, batch, hf.keys_eq]
    exact flatMap_congr fun n _ => hf.staged_eq n
  | commit nodeId => exact hf.staged_eq nodeId
  | rollback nodeId => rfl

theorem step_state (sl : StateLike σ υ ε) (s : InMemoryCommitState σ ν υ) (op : CommitOp ν υ) :
    (s.step sl op).state = (sl.updateAll s.state (s.covered op)).1 ∧
      (s.apply sl op).2 = (sl.updateAll s.state (s.covered op)).2 := by
  cases op with
  | updateById nodeId data => exact ⟨rfl, rfl⟩
  | commitAll =>
    rw [covered, ← entries_flatMap, step, apply, commitAll]
    cases sl.updateAll s.state (s.updates.entries.flatMap Prod.snd) with
    | mk state err =>
      cases err with
      | none => exact ⟨rfl, rfl⟩
      | some e => exact ⟨rfl, rfl⟩
  | commit nodeId =>
    rw [covered, staged, step, apply, commit]
    cases s.updates.get? nodeId with
    | none => exact ⟨rfl, rfl⟩
    | some us =>
      cases us with
      | nil => exact ⟨rfl, rfl⟩
      | cons u us =>
        rw [Option.getD_some]
        cases h : sl.updateAll s.state (u :: us) with
        | mk state err =>
          cases err with
          | none => exact ⟨by simp only [h], by simp only [h]⟩
          | some e => exact ⟨by simp only [h], by simp only [h]⟩
  | rollback nodeId => exact ⟨rfl, rfl⟩

theorem step_updates_of_error (sl : StateLike σ υ ε) (s : InMemoryCommitState σ ν υ)
    (op : CommitOp ν υ) {e : ε} (h : (s.apply sl op).2 = some e) :
    (s.step sl op).updates = s.updates := by
  cases op with
  | updateById nodeId data => cases h
  | commitAll =>
    rw [apply, commitAll] at h
    rw [step, apply, commitAll]
    cases hu : sl.updateAll s.state (s.updates.entries.flatMap Prod.snd) with
    | mk state err =>
      rw [hu] at h
      cases err with
      | none => cases h
      | some e' => rfl
  | commit nodeId =>
    rw [apply, commit] at h
    rw [step, apply, commit]
    cases hg : s.updates.get? nodeId with
    | none => rfl
    | some us =>
      cases us with
      | nil => rfl
      | cons u us =>
        simp only [hg] at h ⊢
        cases hu : sl.updateAll s.state (u :: us) with
        | mk state err =>
          rw [hu] at h
          cases err with
          | none => cases h
          | some e' => rfl
  | rollback nodeId => cases h

theorem Follows.step (hf : s.Follows history) (sl : StateLike σ υ ε) (op : CommitOp ν υ)
    (hok : (s.apply sl op).2 = none) : (s.step sl op).Follows (history ++ [op]) := by
  cases op with
  | updateById nodeId data =>
    refine ⟨fun n => ?_, ?_⟩
    · rw [pendingOf_snoc, pendingStep, ← hf.staged_eq, InMemoryCommitState.step, apply,
        updateById, staged_set]
      by_cases h : n = nodeId
      · subst h
        simp
      · rw [if_neg h, if_neg (Ne.symm h)]
    · rw [touched_snoc, touchStep, ← hf.keys_eq]
      exact keys_set s nodeId _
  | commitAll =>
    rw [apply, commitAll] at hok
    rw [InMemoryCommitState.step, apply, commitAll]
    cases hu : sl.updateAll s.state (s.updates.entries.flatMap Prod.snd) with
    | mk state err =>
      rw [hu] at hok
      cases err with
      | none =>
        refine ⟨fun n => ?_, ?_⟩
        · rw [pendingOf_snoc]
          rfl
        · rw [touched_snoc]
          rfl
      | some e => cases hok
  | commit nodeId =>
    have hempty : s.staged nodeId = [] → s.Follows (history ++ [.commit nodeId]) := by
      intro hs
      refine ⟨fun n => ?_, ?_⟩
      · rw [pendingOf_snoc, pendingStep, ← hf.staged_eq]
        by_cases h : nodeId = n
        · rw [if_pos h, ← h, hs]
        · rw [if_neg h]
      · rw [touched_snoc, touchStep, hf.keys_eq]
    rw [apply, commit] at hok
    rw [InMemoryCommitState.step, apply, commit]
    cases hg : s.updates.get? nodeId with
    | none => exact hempty (by rw [staged, hg]; rfl)
    | some us =>
      cases us with
      | nil => exact hempty (by rw [staged, hg]; rfl)
      | cons u us =>
        simp only [hg] at hok ⊢
        cases hu : sl.updateAll s.state (u :: us) with
        | mk state err =>
          rw [hu] at hok
          cases err with
          | none =>
            refine ⟨fun n => ?_, ?_⟩
            · rw [pendingOf_snoc, pendingStep, ← hf.staged_eq]
              change (InMemoryCommitState.mk state (s.updates.set nodeId [])).staged n = _
              rw [staged_set]
              by_cases h : n = nodeId
              · rw [if_pos h, if_pos h.symm]
              · rw [if_neg h, if_neg (Ne.symm h)]
            · rw [touched_snoc, touchStep, ← hf.keys_eq]
              change (s.updates.set nodeId []).keys = _
              rw [keys_set, if_pos (Dict.mem_keys_iff.mpr ⟨_, hg⟩)]
          | some e => cases hok
  | rollback nodeId =>
    refine ⟨fun n => ?_, ?_⟩
    · rw [pendingOf_snoc, pendingStep, ← hf.staged_eq, InMemoryCommitState.step, apply, rollback,
        staged_set]
      by_cases h : n = nodeId
      · rw [if_pos h, if_pos h.symm]
      · rw [if_neg h, if_neg (Ne.symm h)]
    · rw [touched_snoc, touchStep, ← hf.keys_eq]
      exact keys_set s nodeId _

def initial (state : σ) : InMemoryCommitState σ ν υ := ⟨state, Dict.empty⟩

def Succeeds (sl : StateLike σ υ ε) (s : InMemoryCommitState σ ν υ) (op : CommitOp ν υ) : Prop :=
  (s.apply sl op).2 = none

/-- A history after one more operation; one that raised is as if it had not been called. -/
def extend (sl : StateLike σ υ ε) (s : InMemoryCommitState σ ν υ)
    (history : List (CommitOp ν υ)) (op : CommitOp ν υ) : List (CommitOp ν υ) :=
  match (s.apply sl op).2 with
  | none => history ++ [op]
  | some _ => history

/-- The updates a run applies after a history, in order: what each operation commits, up to
the update that raises if one does. -/
def appliedAfter (sl : StateLike σ υ ε) (s : InMemoryCommitState σ ν υ)
    (history : List (CommitOp ν υ)) : List (CommitOp ν υ) → List υ
  | [] => []
  | op :: ops =>
    sl.attempted s.state (batch history op) ++
      appliedAfter sl (s.step sl op) (s.extend sl history op) ops

theorem Follows.extend (hf : s.Follows history) (sl : StateLike σ υ ε) (op : CommitOp ν υ) :
    (s.step sl op).Follows (s.extend sl history op) := by
  rw [InMemoryCommitState.extend]
  cases h : (s.apply sl op).2 with
  | none => exact hf.step sl op h
  | some e =>
    have hu := step_updates_of_error sl s op h
    refine ⟨fun n => ?_, ?_⟩
    · rw [staged, hu]
      exact hf.staged_eq n
    · rw [hu]
      exact hf.keys_eq

theorem Follows.run_state
    (hf : s.Follows history) (sl : StateLike σ υ ε) (ops : List (CommitOp ν υ)) :
    (run (InMemoryCommitState.step sl) s ops).state =
      (appliedAfter sl s history ops).foldl sl.effect s.state := by
  induction ops generalizing s history with
  | nil => rfl
  | cons op ops ih =>
    have hstate := (step_state sl s op).1
    rw [hf.covered_eq, StateLike.updateAll_state] at hstate
    rw [run_cons, appliedAfter, foldl_append, ← hstate]
    exact ih (hf.extend sl op)

theorem Follows.appliedAfter_eq
    (hf : s.Follows history) (sl : StateLike σ υ ε) (ops : List (CommitOp ν υ))
    (hok : Meets (InMemoryCommitState.step sl) (Succeeds sl) s ops) :
    appliedAfter sl s history ops = committedAfter history ops := by
  induction ops generalizing s history with
  | nil => rfl
  | cons op ops ih =>
    obtain ⟨hop, hrest⟩ := hok
    have hext : s.extend sl history op = history ++ [op] := by
      rw [InMemoryCommitState.extend, hop]
    have hnext := hf.extend sl op
    rw [hext] at hnext
    have herr := (step_state sl s op).2
    rw [hf.covered_eq, hop] at herr
    rw [appliedAfter, committedAfter, StateLike.attempted_of_ok _ _ _ herr.symm, hext,
      ih hnext hrest]

theorem initial_follows (state : σ) :
    (initial state : InMemoryCommitState σ ν υ).Follows [] := ⟨fun _ => rfl, rfl⟩

end InMemoryCommitState

end JiuwenSpec.Session

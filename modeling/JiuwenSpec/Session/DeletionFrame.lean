import JiuwenSpec.Session.Checkpointer

/-!
# What a deletion may touch

A deletion covers the states of its session and, below it, of its namespace or workflow
with the namespaces nested in it. It leaves every other state recoverable exactly when no
stored state outside is found by the prefix that the implementation deletes.
-/

namespace JiuwenSpec.Session

open Base Option Dict List

universe u

variable {β : Type u}

def Within (ns outer : String) : Prop := ns = outer ∨ startsWith ns (outer ++ ":") = true

instance (ns outer : String) : Decidable (Within ns outer) :=
  inferInstanceAs (Decidable (_ ∨ _))

/-- What a deletion is about; an empty namespace stands for all of the session's. -/
def Deletion.Covers : Deletion → Entry → Prop
  | .graph s ns, .graphState s' ns' =>
    s' = s ∧ ∀ outer, ns = some outer → outer = "" ∨ Within ns' outer
  | .workflow s w _, .workflowState s' w' => s' = s ∧ w' = w
  | .workflow s w _, .workflowUpdates s' w' => s' = s ∧ w' = w
  | .workflow s w _, .graphState s' ns' => s' = s ∧ Within ns' w
  | .release s none, e => e.sessionId = s
  | .release s (some a), .agent s' a' => s' = s ∧ a' = a
  | _, _ => False

def Frame {σ : Type u} {ρ : Type u} (recover : σ → Entry → ρ) (d : Deletion)
    (before after : σ) : Prop := ∀ e, ¬ d.Covers e → recover after e = recover before e

namespace InMemoryCheckpointer

def Stored (c : InMemoryCheckpointer β) (e : Entry) : Prop := c.recover e ≠ none

/-- The stored states outside are out of reach: no other namespace of the session begins with
the one deleted, at the end of a workflow no other workflow of the session has a state unless
the parent is an agent session, and no other agent session's id begins with the one
released. -/
def Apart (c : InMemoryCheckpointer β) : Deletion → Prop
  | .graph _ none => True
  | .graph s (some ns) => ∀ ns', c.Stored (.graphState s ns') → startsWith ns' ns = true →
      ns = "" ∨ Within ns' ns
  | .workflow s w parentIsAgent =>
    (∀ ns', c.Stored (.graphState s ns') → startsWith ns' w = true → Within ns' w) ∧
      (parentIsAgent = true ∨ ∀ w',
        c.Stored (.workflowState s w') ∨ c.Stored (.workflowUpdates s w') → w' = w)
  | .release s none => ∀ s' a, c.Stored (.agent s' a) → startsWith s' s = true → s' = s
  | .release _ (some _) => True

def Removes (c : InMemoryCheckpointer β) : Deletion → Entry → Prop
  | .graph s ns, .graphState s' ns' => s' = s ∧ ∀ pre, ns = some pre → startsWith ns' pre = true
  | .workflow s w parentIsAgent, .workflowState s' w' => s' = s ∧ (w' = w ∨ parentIsAgent = false)
  | .workflow s w parentIsAgent, .workflowUpdates s' w' =>
    s' = s ∧ (w' = w ∨ parentIsAgent = false)
  | .workflow s w _, .graphState s' ns' => s' = s ∧ startsWith ns' w = true
  | .release s none, .agent s' _ => startsWith s' s = true
  | .release s none, .agentTeam s' _ => s' = s
  | .release s none, .workflowState s' _ => s' = s
  | .release s none, .workflowUpdates s' _ => s' = s
  | .release s none, .graphState s' ns' =>
    s' = s ∧ ∃ w ∈ (c.sessionToWorkflowIds.get? s).getD [], startsWith ns' w = true
  | .release s (some a), .agent s' a' => s' = s ∧ a' = a
  | _, _ => False

theorem getElem_erase_bind {γ : Type u} (d : Dict String γ) (s s' : String) (f : γ → Option β) :
    ((d.erase s).get? s').bind f = if s' = s then none else (d.get? s').bind f := by
  rw [get?_erase]
  by_cases h : s' = s
  · rw [if_pos h, if_pos h]
    rfl
  · rw [if_neg h, if_neg h]

theorem get?_eq_none_of_isEmpty {d : Dict String β} (h : d.entries.isEmpty = true) (k : String) :
    d.get? k = none := by
  rw [get?_eq_none_iff, Dict.keys, isEmpty_iff.mp h]
  exact not_mem_nil

theorem get?_deleteNsByPrefix (subMap : Dict String β) (pre ns : String) :
    (deleteNsByPrefix subMap pre).get? ns =
      if startsWith ns pre = true then none else subMap.get? ns := by
  rw [deleteNsByPrefix, get?_filter]
  cases subMap.get? ns with
  | none => simp
  | some b =>
    cases h : startsWith ns pre with
    | true => simp [Option.filter]
    | false => simp [Option.filter]

theorem get?_inMemoryStoreDelete (store : Dict String (Dict String β)) (s : String)
    (ns : Option String) (s' ns' : String) :
    ((inMemoryStoreDelete store s ns).get? s').bind (·.get? ns') =
      if s' = s ∧ ∀ pre, ns = some pre → startsWith ns' pre = true then none
      else (store.get? s').bind (·.get? ns') := by
  rw [inMemoryStoreDelete]
  cases hs : store.get? s with
  | none =>
    by_cases h : s' = s ∧ ∀ pre, ns = some pre → startsWith ns' pre = true
    · rw [if_pos h, h.1]
      simp [hs]
    · rw [if_neg h]
  | some subMap =>
    cases ns with
    | none =>
      simp only [getElem_erase_bind, reduceCtorEq, false_implies, implies_true, and_true]
    | some pre =>
      have hleft := get?_deleteNsByPrefix subMap pre ns'
      simp only [some.injEq, forall_eq']
      by_cases hempty : (deleteNsByPrefix subMap pre).entries.isEmpty = true
      · rw [if_pos hempty, getElem_erase_bind]
        rw [get?_eq_none_of_isEmpty hempty] at hleft
        by_cases hs' : s' = s
        · rw [if_pos hs']
          by_cases hpre : startsWith ns' pre = true
          · rw [if_pos ⟨hs', hpre⟩]
          · rw [if_neg (fun h => hpre h.2), hs', hs]
            rw [if_neg hpre] at hleft
            exact hleft
        · rw [if_neg hs', if_neg (fun h => hs' h.1)]
      · rw [if_neg hempty, get?_set]
        by_cases hs' : s' = s
        · rw [if_pos hs', bind_some, hleft]
          by_cases hpre : startsWith ns' pre = true
          · rw [if_pos hpre, if_pos ⟨hs', hpre⟩]
          · rw [if_neg hpre, if_neg (fun h => hpre h.2), hs', hs, bind_some]
        · rw [if_neg hs', if_neg (fun h => hs' h.1)]

theorem get?_foldl_inMemoryStoreDelete (workflowIds : List String)
    (store : Dict String (Dict String β)) (s s' ns' : String) :
    ((workflowIds.foldl (fun store w => inMemoryStoreDelete store s (some w)) store).get? s').bind
        (·.get? ns') =
      if s' = s ∧ ∃ w ∈ workflowIds, startsWith ns' w = true then none
      else (store.get? s').bind (·.get? ns') := by
  induction workflowIds generalizing store with
  | nil => simp
  | cons w workflowIds ih =>
    rw [foldl_cons, ih, get?_inMemoryStoreDelete]
    simp only [some.injEq, forall_eq', exists_mem_cons_iff]
    by_cases hs : s' = s
    · by_cases hw : startsWith ns' w = true
      · simp [hs, hw]
      · simp [hs, hw]
    · simp [hs]

def RemovedOrKept (removed : Prop) (after before : Option β) : Prop :=
  (removed ∧ after = none) ∨ (¬ removed ∧ after = before)

theorem removedOrKept_of_ite {p : Prop} {_ : Decidable p} {after before : Option β}
    (h : after = if p then none else before) : RemovedOrKept p after before := by
  by_cases hp : p
  · exact .inl ⟨hp, h.trans (if_pos hp)⟩
  · exact .inr ⟨hp, h.trans (if_neg hp)⟩

theorem kept {after before : Option β} (h : after = before) : RemovedOrKept False after before :=
  .inr ⟨id, h⟩

theorem workflowStores_completion (c : InMemoryCheckpointer β) (s w : String)
    (parentIsAgent : Bool) (s' w' : String) (f : WorkflowStorage β → Dict String β)
    (hf : ∀ store : WorkflowStorage β, f (store.clear w) = (f store).erase w) :
    ((c.postWorkflowCompletion s w parentIsAgent).workflowStores.get? s').bind
        (fun store => (f store).get? w') =
      if s' = s ∧ (w' = w ∨ parentIsAgent = false) then none
      else (c.workflowStores.get? s').bind (fun store => (f store).get? w') := by
  have hcleared : ((c.clearWorkflowSession s w).workflowStores.get? s').bind
      (fun store => (f store).get? w') =
        if s' = s ∧ w' = w then none
        else (c.workflowStores.get? s').bind (fun store => (f store).get? w') := by
    rw [clearWorkflowSession]
    cases hs : c.workflowStores.get? s with
    | none =>
      simp only
      by_cases h : s' = s ∧ w' = w
      · rw [if_pos h, h.1, hs]
        rfl
      · rw [if_neg h]
    | some store =>
      simp only [get?_set]
      by_cases hs' : s' = s
      · subst hs'
        rw [if_pos rfl, bind_some, hf, get?_erase, hs, bind_some]
        by_cases hw : w' = w
        · rw [if_pos hw, if_pos ⟨rfl, hw⟩]
        · rw [if_neg hw, if_neg (fun h => hw h.2)]
      · rw [if_neg hs', if_neg (fun h => hs' h.1)]
  rw [postWorkflowCompletion]
  cases parentIsAgent with
  | true => simpa using hcleared
  | false =>
    simp only [Bool.false_eq_true, if_false, getElem_erase_bind, hcleared]
    by_cases hs' : s' = s
    · simp [hs']
    · simp [hs']

theorem graphStore_completion (c : InMemoryCheckpointer β) (s w : String) (parentIsAgent : Bool) :
    (c.postWorkflowCompletion s w parentIsAgent).graphStore =
      inMemoryStoreDelete c.graphStore s (some w) := by
  have hcleared : (c.clearWorkflowSession s w).graphStore =
      inMemoryStoreDelete c.graphStore s (some w) := by
    rw [clearWorkflowSession]
    simp only
    split <;> rfl
  rw [postWorkflowCompletion]
  cases parentIsAgent with
  | true => exact hcleared
  | false => exact hcleared

theorem otherStores_completion (c : InMemoryCheckpointer β) (s w : String)
    (parentIsAgent : Bool) :
    (c.postWorkflowCompletion s w parentIsAgent).agentStores = c.agentStores ∧
      (c.postWorkflowCompletion s w parentIsAgent).agentTeamStores = c.agentTeamStores := by
  have hcleared : (c.clearWorkflowSession s w).agentStores = c.agentStores ∧
      (c.clearWorkflowSession s w).agentTeamStores = c.agentTeamStores := by
    rw [clearWorkflowSession]
    simp only
    split <;> exact ⟨rfl, rfl⟩
  rw [postWorkflowCompletion]
  cases parentIsAgent with
  | true => exact hcleared
  | false => exact hcleared

theorem recover_delete (c : InMemoryCheckpointer β) (d : Deletion) (e : Entry) :
    RemovedOrKept (c.Removes d e) ((c.delete d).recover e) (c.recover e) := by
  cases d with
  | graph s ns =>
    cases e with
    | graphState s' ns' =>
      exact removedOrKept_of_ite (get?_inMemoryStoreDelete c.graphStore s ns s' ns')
    | agent s' a => exact kept rfl
    | agentTeam s' t => exact kept rfl
    | workflowState s' w' => exact kept rfl
    | workflowUpdates s' w' => exact kept rfl
  | workflow s w parentIsAgent =>
    obtain ⟨hagents, hteams⟩ := otherStores_completion c s w parentIsAgent
    cases e with
    | workflowState s' w' =>
      exact removedOrKept_of_ite
        (workflowStores_completion c s w parentIsAgent s' w' _ fun _ => rfl)
    | workflowUpdates s' w' =>
      exact removedOrKept_of_ite
        (workflowStores_completion c s w parentIsAgent s' w' _ fun _ => rfl)
    | graphState s' ns' =>
      have hgraph := get?_inMemoryStoreDelete c.graphStore s (some w) s' ns'
      rw [← graphStore_completion c s w parentIsAgent] at hgraph
      simp only [some.injEq, forall_eq'] at hgraph
      exact removedOrKept_of_ite hgraph
    | agent s' a =>
      apply kept
      rw [delete, recover, hagents, recover]
    | agentTeam s' t =>
      apply kept
      rw [delete, recover, hteams, recover]
  | release s agentId =>
    cases agentId with
    | none =>
      cases e with
      | agent s' a =>
        have hagent : (c.release s none).recover (.agent s' a) =
            if startsWith s' s = true then none else c.recover (.agent s' a) := by
          rw [release, recover, get?_filter, recover]
          cases c.agentStores.get? s' with
          | none => simp
          | some store => cases startsWith s' s <;> simp [Option.filter]
        exact removedOrKept_of_ite hagent
      | agentTeam s' t => exact removedOrKept_of_ite (getElem_erase_bind _ _ _ _)
      | workflowState s' w' => exact removedOrKept_of_ite (getElem_erase_bind _ _ _ _)
      | workflowUpdates s' w' => exact removedOrKept_of_ite (getElem_erase_bind _ _ _ _)
      | graphState s' ns' =>
        exact removedOrKept_of_ite (get?_foldl_inMemoryStoreDelete _ c.graphStore s s' ns')
    | some agentId =>
      cases e with
      | agent s' a =>
        have hagent : (c.release s (some agentId)).recover (.agent s' a) =
            if s' = s ∧ a = agentId then none else c.recover (.agent s' a) := by
          rw [release, recover, get?_mapValues, recover]
          cases c.agentStores.get? s' with
          | none => simp
          | some store =>
            by_cases hs : s' = s
            · simp [hs, get?_erase]
            · simp [hs]
        exact removedOrKept_of_ite hagent
      | agentTeam s' t => exact kept rfl
      | workflowState s' w' => exact kept rfl
      | workflowUpdates s' w' => exact kept rfl
      | graphState s' ns' => exact kept rfl

theorem frame_iff_removes (c : InMemoryCheckpointer β) (d : Deletion) :
    Frame recover d c (c.delete d) ↔ ∀ e, c.Removes d e → ¬ d.Covers e → ¬ c.Stored e := by
  constructor
  · intro h e hremoved houtside hstored
    have hsame := h e houtside
    cases c.recover_delete d e with
    | inl hgone => exact hstored (hsame.symm.trans hgone.2)
    | inr hkept => exact hkept.1 hremoved
  · intro h e houtside
    cases c.recover_delete d e with
    | inl hgone =>
      have hnone : c.recover e = none := not_not.mp (h e hgone.1 houtside)
      rw [hgone.2, hnone]
    | inr hkept => exact hkept.2

theorem apart_iff_removes (c : InMemoryCheckpointer β) (d : Deletion) :
    c.Apart d ↔ ∀ e, c.Removes d e → ¬ d.Covers e → ¬ c.Stored e := by
  cases d with
  | graph s ns =>
    cases ns with
    | none =>
      refine ⟨fun _ e hremoved houtside => ?_, fun _ => True.intro⟩
      cases e with
      | graphState s' ns' => exact absurd ⟨hremoved.1, fun _ h => nomatch h⟩ houtside
      | _ => exact hremoved.elim
    | some ns =>
      constructor
      · intro h e hremoved houtside hstored
        cases e with
        | graphState s' ns' =>
          obtain ⟨rfl, hpre⟩ := hremoved
          refine houtside ⟨rfl, fun outer houter => ?_⟩
          cases houter
          exact h ns' hstored (hpre ns rfl)
        | _ => exact hremoved.elim
      · intro h ns' hstored hpre
        by_contra hnot
        refine h (.graphState s ns') ⟨rfl, fun pre hp => ?_⟩ (fun hcovers => ?_) hstored
        · cases hp
          exact hpre
        · exact hnot (hcovers.2 ns rfl)
  | workflow s w parentIsAgent =>
    constructor
    · rintro ⟨hgraph, hstates⟩ e hremoved houtside hstored
      have hother : ∀ w', (w' = w ∨ parentIsAgent = false) → w' ≠ w →
          ¬ (c.Stored (.workflowState s w') ∨ c.Stored (.workflowUpdates s w')) := by
        intro w' hw hne hstored'
        cases hstates with
        | inl hparent => exact hw.elim hne fun h => by rw [hparent] at h; cases h
        | inr hall => exact hne (hall w' hstored')
      cases e with
      | graphState s' ns' =>
        obtain ⟨rfl, hpre⟩ := hremoved
        exact houtside ⟨rfl, hgraph ns' hstored hpre⟩
      | workflowState s' w' =>
        obtain ⟨rfl, hw⟩ := hremoved
        exact hother w' hw (fun h => houtside ⟨rfl, h⟩) (.inl hstored)
      | workflowUpdates s' w' =>
        obtain ⟨rfl, hw⟩ := hremoved
        exact hother w' hw (fun h => houtside ⟨rfl, h⟩) (.inr hstored)
      | _ => exact hremoved.elim
    · intro h
      refine ⟨fun ns' hstored hpre => ?_, ?_⟩
      · by_contra hnot
        exact h (.graphState s ns') ⟨rfl, hpre⟩ (fun hcovers => hnot hcovers.2) hstored
      · cases parentIsAgent with
        | true => exact .inl rfl
        | false =>
          refine .inr fun w' hstored => ?_
          by_contra hne
          cases hstored with
          | inl hstate =>
            exact h (.workflowState s w') ⟨rfl, .inr rfl⟩ (fun hcovers => hne hcovers.2) hstate
          | inr hupdates =>
            exact h (.workflowUpdates s w') ⟨rfl, .inr rfl⟩ (fun hcovers => hne hcovers.2) hupdates
  | release s agentId =>
    cases agentId with
    | none =>
      constructor
      · intro h e hremoved houtside hstored
        cases e with
        | agent s' a => exact houtside (h s' a hstored hremoved)
        | graphState s' ns' => exact houtside hremoved.1
        | agentTeam s' t => exact houtside hremoved
        | workflowState s' w' => exact houtside hremoved
        | workflowUpdates s' w' => exact houtside hremoved
      · intro h s' a hstored hpre
        by_contra hne
        exact h (.agent s' a) hpre hne hstored
    | some agentId =>
      refine ⟨fun _ e hremoved houtside => ?_, fun _ => True.intro⟩
      cases e with
      | agent s' a => exact absurd hremoved houtside
      | _ => exact hremoved.elim

theorem frame_iff (c : InMemoryCheckpointer β) (d : Deletion) :
    Frame recover d c (c.delete d) ↔ c.Apart d :=
  (c.frame_iff_removes d).trans (c.apart_iff_removes d).symm

end InMemoryCheckpointer

end JiuwenSpec.Session

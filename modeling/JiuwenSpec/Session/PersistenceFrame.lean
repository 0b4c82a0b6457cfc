import JiuwenSpec.Base.Separated
import JiuwenSpec.Session.DeletionFrame

/-!
# Deletion frames of both checkpointers

A persistent store keeps the frame exactly when no key stored for a state outside is among
those deleted. Where ids have no colon the keys of different sessions and kinds are apart,
and what remains is one namespace of the session beginning with another.
-/

namespace JiuwenSpec.Session

open Base List

universe u

variable {β : Type u}

/-- No key stored for a state that is not covered is deleted. -/
def PersistenceApart (hasPrefix : String → String → Bool) (kv : Dict String β)
    (d : Deletion) : Prop :=
  ∀ e, ¬ d.Covers e → ∀ k ∈ e.keys, k ∈ kv.keys → deletedKeys hasPrefix d k = false

theorem persistenceRecover_delete_iff (hasPrefix : String → String → Bool) (kv : Dict String β)
    (d : Deletion) (e : Entry) :
    persistenceRecover (persistenceDelete hasPrefix kv d) e = persistenceRecover kv e ↔
      ∀ k ∈ e.keys, k ∈ kv.keys → deletedKeys hasPrefix d k = false := by
  rw [persistenceRecover, persistenceRecover, map_inj_left]
  apply forall₂_congr
  intro k _
  rw [persistenceDelete, Dict.get?_filter, Dict.mem_keys_iff]
  cases kv.get? k with
  | none => simp
  | some b => cases deletedKeys hasPrefix d k <;> simp [Option.filter]

theorem persistence_frame_iff (hasPrefix : String → String → Bool) (kv : Dict String β)
    (d : Deletion) :
    Frame persistenceRecover d kv (persistenceDelete hasPrefix kv d) ↔
      PersistenceApart hasPrefix kv d := by
  apply forall_congr'
  intro e
  exact imp_congr_right fun _ => persistenceRecover_delete_iff hasPrefix kv d e

def ColonFree (s : String) : Prop := ':' ∉ s.toList

instance (s : String) : Decidable (ColonFree s) := inferInstanceAs (Decidable (¬ _))

def Entry.kind : Entry → String
  | agent _ _ => "agent"
  | agentTeam _ _ => "agent-team"
  | workflowState _ _ => "workflow"
  | workflowUpdates _ _ => "workflow"
  | graphState _ _ => "workflow-graph"

/-- The id of the agent, team or workflow, or the namespace. -/
def Entry.name : Entry → String
  | agent _ a => a
  | agentTeam _ t => t
  | workflowState _ w => w
  | workflowUpdates _ w => w
  | graphState _ ns => ns

def Entry.fields : Entry → List String
  | agent _ _ => ["agent_state_blobs_dump_type", "agent_state_blobs"]
  | agentTeam _ _ => ["agent_team_state_blobs_dump_type", "agent_team_state_blobs"]
  | workflowState _ _ => ["workflow_state_blobs_dump_type", "workflow_state_blobs"]
  | workflowUpdates _ _ => ["workflow_update_blobs_dump_type", "workflow_update_blobs"]
  | graphState _ _ => ["checkpoint_data_type", "checkpoint_data_value"]

theorem keys_eq (e : Entry) :
    e.keys = e.fields.map fun t => buildKey [e.sessionId, e.kind, e.name, t] := by
  cases e <;> rfl

theorem toList_buildKey (s k n t : String) :
    (buildKey [s, k, n, t]).toList =
      s.toList ++ ':' :: (k.toList ++ ':' :: (n.toList ++ ':' :: t.toList)) := by
  show (s ++ ":" ++ k ++ ":" ++ n ++ ":" ++ t).toList = _
  simp

theorem colonFree_kind (e : Entry) : ColonFree e.kind := by
  cases e <;> simp only [Entry.kind] <;> decide

theorem colonFree_field {e : Entry} {t : String} (ht : t ∈ e.fields) : ColonFree t := by
  have hall : ∀ t ∈ e.fields, ColonFree t := by
    cases e <;> simp only [Entry.fields] <;> decide
  exact hall t ht

theorem startsWith_session_iff {e : Entry} {s : String} (hs : ColonFree s)
    (he : ColonFree e.sessionId) (t : String) :
    startsWith (buildKey [e.sessionId, e.kind, e.name, t]) (s ++ ":") = true ↔
      e.sessionId = s := by
  have hprefix : (s ++ ":").toList = s.toList ++ ':' :: [] := by simp
  rw [startsWith, toList_buildKey, hprefix, isPrefixOf_separated he hs, String.toList_inj]
  simp

theorem startsWith_graph_iff {e : Entry} {s : String} (hs : ColonFree s)
    (he : ColonFree e.sessionId) (t : String) :
    startsWith (buildKey [e.sessionId, e.kind, e.name, t]) (buildKey [s, "workflow-graph"]) = true ↔
      e.sessionId = s ∧ e.kind = "workflow-graph" := by
  have hprefix : (buildKey [s, "workflow-graph"]).toList =
      s.toList ++ ':' :: "workflow-graph".toList := by
    show (s ++ ":" ++ "workflow-graph").toList = _
    simp
  have hkind : "workflow-graph".toList.isPrefixOf e.kind.toList = true ↔
      e.kind = "workflow-graph" := by
    cases e <;> simp only [Entry.kind] <;> decide
  rw [startsWith, toList_buildKey, hprefix, isPrefixOf_separated he hs, String.toList_inj,
    isPrefixOf_before_separator (by decide), hkind]

theorem startsWith_namespace_iff {e : Entry} {s ns : String} (hs : ColonFree s)
    (he : ColonFree e.sessionId) (hns : ColonFree ns) (t : String) :
    startsWith (buildKey [e.sessionId, e.kind, e.name, t])
        (buildKey [s, "workflow-graph", ns]) = true ↔
      e.sessionId = s ∧ e.kind = "workflow-graph" ∧ startsWith e.name ns = true := by
  have hprefix : (buildKey [s, "workflow-graph", ns]).toList =
      s.toList ++ ':' :: ("workflow-graph".toList ++ ':' :: ns.toList) := by
    show (s ++ ":" ++ "workflow-graph" ++ ":" ++ ns).toList = _
    simp
  have hgraph : ':' ∉ "workflow-graph".toList := by decide
  rw [startsWith, toList_buildKey, hprefix, isPrefixOf_separated he hs, String.toList_inj,
    isPrefixOf_separated (colonFree_kind e) hgraph, String.toList_inj,
    isPrefixOf_before_separator hns, startsWith]

theorem entry_ext {e e' : Entry} {t : String} (ht : t ∈ e.fields) (ht' : t ∈ e'.fields)
    (hs : e.sessionId = e'.sessionId) (hn : e.name = e'.name) : e = e' := by
  cases e <;> cases e' <;> simp_all [Entry.fields, Entry.sessionId, Entry.name] <;>
    rcases ht with rfl | rfl <;> simp at ht'

theorem key_inj {e e' : Entry} {t t' : String} (he : ColonFree e.sessionId)
    (he' : ColonFree e'.sessionId) (ht : t ∈ e.fields) (ht' : t' ∈ e'.fields)
    (h : buildKey [e.sessionId, e.kind, e.name, t] =
      buildKey [e'.sessionId, e'.kind, e'.name, t']) : e = e' := by
  rw [← String.toList_inj, toList_buildKey, toList_buildKey, separated_inj he he',
    separated_inj (colonFree_kind e) (colonFree_kind e')] at h
  obtain ⟨hs, _, hrest⟩ := h
  -- the name may hold colons, the last part does not: compare from the end
  have hback := congrArg List.reverse hrest
  simp only [reverse_append, reverse_cons, append_assoc, singleton_append]
    at hback
  have hfree : ':' ∉ t.toList.reverse := fun hmem => colonFree_field ht (mem_reverse.mp hmem)
  have hfree' : ':' ∉ t'.toList.reverse := fun hmem =>
    colonFree_field ht' (mem_reverse.mp hmem)
  rw [separated_inj hfree hfree'] at hback
  have htt : t = t' := String.toList_inj.mp (reverse_injective hback.1)
  have hnn : e.name = e'.name := String.toList_inj.mp (reverse_injective hback.2)
  exact entry_ext ht (htt ▸ ht') (String.toList_inj.mp hs) hnn

theorem key_mem_keys_iff {e e' : Entry} {t : String} (he : ColonFree e.sessionId)
    (he' : ColonFree e'.sessionId) (ht : t ∈ e.fields) :
    buildKey [e.sessionId, e.kind, e.name, t] ∈ e'.keys ↔ e = e' := by
  rw [keys_eq, mem_map]
  constructor
  · intro ⟨t', ht', hkey⟩
    exact (key_inj he' he ht' ht hkey).symm
  · intro h
    subst h
    exact ⟨t, ht, rfl⟩

theorem startsWith_graphPrefix_iff {e : Entry} {s : String} {ns : Option String}
    (hs : ColonFree s) (he : ColonFree e.sessionId) (hns : ∀ pre, ns = some pre → ColonFree pre)
    (t : String) :
    startsWith (buildKey [e.sessionId, e.kind, e.name, t]) (graphPrefix s ns) = true ↔
      e.sessionId = s ∧ e.kind = "workflow-graph" ∧
        ∀ pre, ns = some pre → startsWith e.name pre = true := by
  cases ns with
  | none => simp [graphPrefix, startsWith_graph_iff hs he]
  | some pre =>
    by_cases hpre : pre = ""
    · have hempty : startsWith e.name "" = true := by simp [startsWith]
      simp [graphPrefix, hpre, startsWith_graph_iff hs he, hempty]
    · simp [graphPrefix, hpre, startsWith_namespace_iff hs he (hns pre rfl)]

def Deletion.IdsColonFree : Deletion → Prop
  | .graph s ns => ColonFree s ∧ ∀ pre, ns = some pre → ColonFree pre
  | .workflow s w _ => ColonFree s ∧ ColonFree w
  | .release s _ => ColonFree s

/-- The entries that a deletion by prefix reaches: what it covers and, of its session, every
namespace that begins with the one deleted. -/
def Deletion.Reaches (d : Deletion) (e : Entry) : Prop :=
  match d, e with
  | .graph s ns, .graphState s' ns' => s' = s ∧ ∀ pre, ns = some pre → startsWith ns' pre = true
  | .workflow s w _, .graphState s' ns' => s' = s ∧ startsWith ns' w = true
  | d, e => d.Covers e

theorem deletedKeys_iff {d : Deletion} {e : Entry} {t : String} (hd : d.IdsColonFree)
    (he : ColonFree e.sessionId) (ht : t ∈ e.fields) :
    deletedKeys startsWith d (buildKey [e.sessionId, e.kind, e.name, t]) = true ↔
      d.Reaches e := by
  cases d with
  | graph s ns =>
    rw [deletedKeys, startsWith_graphPrefix_iff hd.1 he hd.2]
    cases e <;> simp [Deletion.Reaches, Deletion.Covers, Entry.kind, Entry.name, Entry.sessionId]
  | workflow s w parentIsAgent =>
    have hw : ∀ pre, some w = some pre → ColonFree pre := fun pre h => by cases h; exact hd.2
    rw [deletedKeys, Bool.or_eq_true, startsWith_graphPrefix_iff hd.1 he hw,
      contains_iff_mem, mem_append,
      key_mem_keys_iff he (show ColonFree (Entry.workflowState s w).sessionId from hd.1) ht,
      key_mem_keys_iff he (show ColonFree (Entry.workflowUpdates s w).sessionId from hd.1) ht]
    cases e <;> simp [Deletion.Reaches, Deletion.Covers, Entry.kind, Entry.name, Entry.sessionId]
  | release s agentId =>
    cases agentId with
    | none =>
      rw [deletedKeys, startsWith_session_iff hd he]
      cases e <;> rfl
    | some a =>
      rw [deletedKeys, contains_iff_mem, 
        key_mem_keys_iff he (show ColonFree (Entry.agent s a).sessionId from hd) ht]
      cases e <;> simp [Deletion.Reaches, Deletion.Covers]

def PersistenceStored (kv : Dict String β) (e : Entry) : Prop := ∃ k ∈ e.keys, k ∈ kv.keys

/-- No stored namespace of the session begins with the one deleted unless it is nested in
it. -/
def NamespacesApart (kv : Dict String β) : Deletion → Prop
  | .graph s (some ns) => ∀ ns', PersistenceStored kv (.graphState s ns') →
      startsWith ns' ns = true → ns = "" ∨ Within ns' ns
  | .workflow s w _ => ∀ ns', PersistenceStored kv (.graphState s ns') →
      startsWith ns' w = true → Within ns' w
  | _ => True

theorem namespacesApart_iff_reaches {kv : Dict String β} {d : Deletion} (hd : d.IdsColonFree) :
    NamespacesApart kv d ↔
      ∀ e, ColonFree e.sessionId → ¬ d.Covers e → PersistenceStored kv e → ¬ d.Reaches e := by
  cases d with
  | graph s ns =>
    constructor
    · intro h e _ hout hstored hreaches
      cases e with
      | graphState s' ns' =>
        obtain ⟨rfl, hpre⟩ := hreaches
        apply hout
        refine ⟨rfl, fun outer houter => ?_⟩
        cases houter
        exact h ns' hstored (hpre outer rfl)
      | _ => exact hout hreaches
    · intro h
      cases ns with
      | none => exact True.intro
      | some ns =>
        intro ns' hstored hpre
        by_contra hnot
        refine h (.graphState s ns') hd.1 (fun hcovers => hnot (hcovers.2 ns rfl)) hstored ?_
        exact ⟨rfl, fun pre hp => by cases hp; exact hpre⟩
  | workflow s w parentIsAgent =>
    constructor
    · intro h e _ hout hstored hreaches
      cases e with
      | graphState s' ns' =>
        obtain ⟨rfl, hpre⟩ := hreaches
        exact hout ⟨rfl, h ns' hstored hpre⟩
      | _ => exact hout hreaches
    · intro h ns' hstored hpre
      by_contra hnot
      exact h (.graphState s ns') hd.1 (fun hcovers => hnot hcovers.2) hstored ⟨rfl, hpre⟩
  | release s agentId => exact ⟨fun _ e _ hout _ hreaches => hout hreaches, fun _ => True.intro⟩

theorem persistence_frame_colonFree {kv : Dict String β} {d : Deletion} (hd : d.IdsColonFree) :
    (∀ e, ColonFree e.sessionId → ¬ d.Covers e →
        persistenceRecover (persistenceDelete startsWith kv d) e = persistenceRecover kv e) ↔
      NamespacesApart kv d := by
  rw [namespacesApart_iff_reaches hd]
  apply forall₃_congr
  intro e he hout
  rw [persistenceRecover_delete_iff, keys_eq]
  constructor
  · intro h ⟨k, hk, hstored⟩ hreaches
    rw [keys_eq] at hk
    have hkept := h k hk hstored
    obtain ⟨t, ht, rfl⟩ := mem_map.mp hk
    rw [(deletedKeys_iff hd he ht).mpr hreaches] at hkept
    cases hkept
  · intro h k hk hstored
    have hreaches : ¬ d.Reaches e := h ⟨k, (keys_eq e).symm ▸ hk, hstored⟩
    obtain ⟨t, ht, rfl⟩ := mem_map.mp hk
    rw [Bool.eq_false_iff, Ne, deletedKeys_iff hd he ht]
    exact hreaches

end JiuwenSpec.Session

/-!
## When a deletion leaves everything else recoverable

Neither checkpointer looks for the separator after the prefix it deletes, so the state of
a workflow goes with that of another whose id begins its own.
-/

namespace JiuwenSpec.Session

open Base

universe u

variable {β : Type u}

/-- A deletion keeps everything outside of what it is about: in memory exactly where the
stored states are apart; in a key-value store exactly where no stored key of a state outside
is deleted, that is, where ids have no colon, no other stored namespace of the session begins
with the one deleted. -/
theorem deletion_frame_iff :
    (∀ (c : InMemoryCheckpointer β) d,
        Frame InMemoryCheckpointer.recover d c (c.delete d) ↔ c.Apart d) ∧
      (∀ hasPrefix (kv : Dict String β) d,
        Frame persistenceRecover d kv (persistenceDelete hasPrefix kv d) ↔
          PersistenceApart hasPrefix kv d) ∧
      ∀ (kv : Dict String β) d, d.IdsColonFree →
        ((∀ e, ColonFree e.sessionId → ¬ d.Covers e →
            persistenceRecover (persistenceDelete startsWith kv d) e =
              persistenceRecover kv e) ↔
          NamespacesApart kv d) := by
  refine ⟨fun c d => c.frame_iff d, persistence_frame_iff, fun kv d hd => ?_⟩
  exact persistence_frame_colonFree hd

def twoWorkflows : InMemoryCheckpointer Nat where
  agentStores :=
    (Dict.empty.set "s1" (Dict.empty.set "agent" 0)).set "s10" (Dict.empty.set "agent" 1)
  agentTeamStores := Dict.empty
  workflowStores :=
    Dict.empty.set "s1" ⟨(Dict.empty.set "wf1" 2).set "wf10" 3, Dict.empty⟩
  graphStore :=
    Dict.empty.set "s1" (((Dict.empty.set "wf1" 4).set "wf1:sub" 5).set "wf10" 6)
  sessionToWorkflowIds := Dict.empty.set "s1" ["wf1", "wf10"]

/-- Their graph states under the keys of a key-value store. -/
def twoWorkflowsKv : Dict String Nat :=
  (Dict.empty.set "s1:workflow-graph:wf1:checkpoint_data_value" 4).set
    "s1:workflow-graph:wf10:checkpoint_data_value" 6

/-- The release of one session of a key-value store touches nothing else. -/
theorem deletion_frame_release :
    (∀ e, ColonFree e.sessionId → ¬ (Deletion.release "s1" none).Covers e →
        persistenceRecover (persistenceDelete startsWith twoWorkflowsKv (.release "s1" none)) e =
          persistenceRecover twoWorkflowsKv e) ∧
      Deletion.IdsColonFree (.release "s1" none) :=
  ⟨(deletion_frame_iff.2.2 twoWorkflowsKv (.release "s1" none)
      (show ColonFree "s1" by decide)).mpr True.intro,
    show ColonFree "s1" by decide⟩

/-- The end of `wf1` deletes the graph state of `wf10` in both checkpointers, and in memory
its workflow state too where the session has no agent; the release of `s1` deletes the agent
of `s10`. -/
theorem other_workflow_deleted :
    (¬ Frame InMemoryCheckpointer.recover (.graph "s1" (some "wf1")) twoWorkflows
        (twoWorkflows.delete (.graph "s1" (some "wf1")))) ∧
      (twoWorkflows.recover (.graphState "s1" "wf10") = some 6 ∧
        (twoWorkflows.delete (.workflow "s1" "wf1" true)).recover
          (.graphState "s1" "wf10") = none) ∧
      (twoWorkflows.recover (.workflowState "s1" "wf10") = some 3 ∧
        (twoWorkflows.delete (.workflow "s1" "wf1" false)).recover
          (.workflowState "s1" "wf10") = none) ∧
      (twoWorkflows.recover (.agent "s10" "agent") = some 1 ∧
        (twoWorkflows.delete (.release "s1" none)).recover (.agent "s10" "agent") = none) ∧
      persistenceRecover twoWorkflowsKv (.graphState "s1" "wf10") = [none, some 6] ∧
      persistenceRecover
          (persistenceDelete startsWith twoWorkflowsKv (.workflow "s1" "wf1" true))
          (.graphState "s1" "wf10") = [none, none] := by
  refine ⟨fun h => ?_, by decide, by decide, by decide, by decide, by decide⟩
  have hgone := h (.graphState "s1" "wf10") fun hcovers =>
    absurd (hcovers.2 "wf1" rfl) (by decide)
  exact absurd hgone (by decide)

end JiuwenSpec.Session

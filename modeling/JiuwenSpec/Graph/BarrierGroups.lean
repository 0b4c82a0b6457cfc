import JiuwenSpec.Graph.PregelGraph

/-!
# What the barrier groups are

A predecessor that is reached from exactly one target of exactly one registered branch
belongs to that branch. The groups of a waiting node are the classes of its predecessors:
those that belong to branches with the same root together, every other one by itself.
-/

namespace JiuwenSpec.Graph

open Base List Dict
open Relation

namespace PregelGraph

variable {g : PregelGraph}

def Follows (g : PregelGraph) (x y : String) : Prop := (Source.node x, y) ∈ g.edges

/-- A node is reached from a registered target of a branch, along edges from single nodes. -/
structure Owns (g : PregelGraph) (b target p : String) : Prop where
  registered : ∃ targets, g.branchTargets.get? b = some targets ∧ target ∈ targets
  reached : ReflTransGen g.Follows target p

/-- The node is reached from one target of this branch, and from no other registered
target. -/
def Belongs (g : PregelGraph) (b p : String) : Prop :=
  ∃ target, g.Owns b target p ∧ ∀ b' target', g.Owns b' target' p → b' = b ∧ target' = target

/-- The same node, or nodes that belong to branches with the same root. -/
def Merged (g : PregelGraph) (p q : String) : Prop :=
  q = p ∨ ∃ b b' root, g.Belongs b p ∧ g.Belongs b' q ∧
    g.branchRoot b = some root ∧ g.branchRoot b' = some root

theorem Belongs.unique {b b' p : String} (h : g.Belongs b p) (h' : g.Belongs b' p) : b' = b := by
  obtain ⟨target, -, honly⟩ := h
  obtain ⟨target', howns, -⟩ := h'
  exact (honly b' target' howns).1

theorem arrow_singleEdges (g : PregelGraph) : Arrow g.singleEdges = g.Follows := by
  funext x y
  apply propext
  rw [Arrow, singleEdges, mem_filterMap, Follows]
  constructor
  · intro ⟨⟨source, target⟩, he, hpair⟩
    cases source with
    | node s =>
      cases hpair
      exact he
    | list ids => cases hpair
  · intro h
    exact ⟨_, h, rfl⟩

theorem mem_forwardReachable {start p : String} :
    p ∈ g.forwardReachable start ↔ ReflTransGen g.Follows start p := by
  rw [forwardReachable, mem_reachable_iff, arrow_singleEdges]

theorem mem_owners {b target p : String} : (b, target) ∈ g.owners p ↔ g.Owns b target p := by
  rw [owners, mem_flatMap]
  constructor
  · intro ⟨e, he, hmem⟩
    obtain ⟨target', htarget, hpair⟩ := mem_map.mp hmem
    cases hpair
    obtain ⟨htargets, hreach⟩ := mem_filter.mp htarget
    exact ⟨⟨e.2, get?_eq_some_iff.mpr he, mem_dedup.mp htargets⟩,
      mem_forwardReachable.mp (of_decide_eq_true hreach)⟩
  · intro ⟨⟨targets, hget, htarget⟩, hreach⟩
    refine ⟨(b, targets), get?_eq_some_iff.mp hget, mem_map.mpr ⟨target, ?_, rfl⟩⟩
    exact mem_filter.mpr ⟨mem_dedup.mpr htarget,
      decide_eq_true (mem_forwardReachable.mpr hreach)⟩

theorem owners_nodup (g : PregelGraph) (p : String) : (g.owners p).Nodup := by
  rw [owners, nodup_flatMap]
  constructor
  · intro e _
    apply List.Nodup.map (fun _ _ h => congrArg Prod.snd h)
    exact (nodup_dedup e.2).filter _
  · apply List.Pairwise.imp _ (pairwise_map.mp g.branchTargets.nodup)
    intro e e' hne x hx hx'
    obtain ⟨_, -, rfl⟩ := mem_map.mp hx
    obtain ⟨_, -, hpair⟩ := mem_map.mp hx'
    exact hne (congrArg Prod.fst hpair).symm

theorem owners_eq_iff {b p : String} : (∃ target, g.owners p = [(b, target)]) ↔ g.Belongs b p := by
  constructor
  · intro ⟨target, howners⟩
    refine ⟨target, mem_owners.mp (howners ▸ mem_singleton_self _), fun b' target' h => ?_⟩
    have hmem := mem_owners.mpr h
    rw [howners, mem_singleton] at hmem
    cases hmem
    exact ⟨rfl, rfl⟩
  · intro ⟨target, howns, honly⟩
    refine ⟨target, ?_⟩
    apply perm_singleton.mp
    rw [perm_ext_iff_of_nodup (g.owners_nodup p) (nodup_singleton _)]
    intro x
    rw [mem_singleton]
    constructor
    · intro hx
      obtain ⟨hb, ht⟩ := honly x.1 x.2 (mem_owners.mp hx)
      exact Prod.ext hb ht
    · intro hx
      rw [hx]
      exact mem_owners.mpr howns

theorem length_owners_iff {p : String} : (g.owners p).length ≠ 1 ↔ ¬ ∃ b, g.Belongs b p := by
  rw [not_iff_not, length_eq_one_iff]
  constructor
  · intro ⟨x, hx⟩
    exact ⟨x.1, owners_eq_iff.mp ⟨x.2, hx⟩⟩
  · intro ⟨b, hb⟩
    obtain ⟨target, howners⟩ := owners_eq_iff.mpr hb
    exact ⟨_, howners⟩

def under (d : Dict String (List String)) (k : String) : List String := (d.get? k).getD []

@[simp] theorem under_empty (k : String) : under Dict.empty k = [] := rfl

theorem mem_under_addTo {d : Dict String (List String)} {k j q : String} {s : List String} :
    q ∈ under (addTo d k s) j ↔ q ∈ under d j ∨ (j = k ∧ q ∈ s) := by
  rw [under, addTo, get?_set]
  by_cases h : j = k
  · subst h
    simp [under]
  · simp [h, under]

/-- One turn of the loop of `branch_groups`. -/
def toBranchGroup (g : PregelGraph) (groups : Dict String (List String)) (p : String) :
    Dict String (List String) :=
  match g.owners p with
  | [(b, _)] => addTo groups b [p]
  | _ => groups

theorem mem_branchGroups {predecessors : List String} {b q : String} :
    q ∈ under (g.branchGroups predecessors) b ↔ q ∈ predecessors ∧ g.Belongs b q := by
  have hfold : ∀ groups, q ∈ under (predecessors.foldl g.toBranchGroup groups) b ↔
      q ∈ under groups b ∨ (q ∈ predecessors ∧ g.Belongs b q) := by
    induction predecessors with
    | nil => simp
    | cons p predecessors ih =>
      intro groups
      rw [foldl_cons, ih, mem_cons, toBranchGroup]
      split
      · next b' target howners =>
        have hbelongs : g.Belongs b' p := owners_eq_iff.mp ⟨target, howners⟩
        rw [mem_under_addTo, mem_singleton]
        constructor
        · rintro ((hold | ⟨rfl, rfl⟩) | hrest)
          · exact .inl hold
          · exact .inr ⟨.inl rfl, hbelongs⟩
          · exact .inr ⟨.inr hrest.1, hrest.2⟩
        · rintro (hold | ⟨rfl | hrest, hq⟩)
          · exact .inl (.inl hold)
          · exact .inl (.inr ⟨hbelongs.unique hq, rfl⟩)
          · exact .inr ⟨hrest, hq⟩
      · next hnot =>
        constructor
        · exact Or.imp_right fun hrest => ⟨.inr hrest.1, hrest.2⟩
        · rintro (hold | ⟨rfl | hrest, hq⟩)
          · exact .inl hold
          · obtain ⟨target, howners⟩ := owners_eq_iff.mpr hq
            exact absurd howners (hnot b target)
          · exact .inr ⟨hrest, hq⟩
  apply (hfold Dict.empty).trans
  simp

theorem rootMerged_spec {groups merged : Dict String (List String)}
    (h : g.rootMerged groups = some merged) :
    (∀ e ∈ groups.entries, ∃ root, g.branchRoot e.1 = some root) ∧
      ∀ root q, q ∈ under merged root ↔
        ∃ e ∈ groups.entries, g.branchRoot e.1 = some root ∧ q ∈ e.2 := by
  have hfold : ∀ (entries : List (String × List String)) (start merged : Dict String (List String)),
      entries.foldlM (fun merged e =>
        (g.branchRoot e.1).map fun root => addTo merged root e.2) start = some merged →
      (∀ e ∈ entries, ∃ root, g.branchRoot e.1 = some root) ∧
        ∀ root q, q ∈ under merged root ↔
          q ∈ under start root ∨ ∃ e ∈ entries, g.branchRoot e.1 = some root ∧ q ∈ e.2 := by
    intro entries
    induction entries with
    | nil =>
      intro start merged h
      cases h
      simp
    | cons e entries ih =>
      intro start merged h
      rw [foldlM_cons] at h
      obtain ⟨next, hnext, hrest⟩ := Option.bind_eq_some_iff.mp h
      obtain ⟨root, hroot, rfl⟩ := Option.map_eq_some_iff.mp hnext
      obtain ⟨hall, hmem⟩ := ih _ _ hrest
      refine ⟨forall_mem_cons.mpr ⟨⟨root, hroot⟩, hall⟩, fun root' q => ?_⟩
      rw [hmem, mem_under_addTo, exists_mem_cons_iff, hroot, Option.some.injEq,
        eq_comm (a := root), or_assoc]
  have hspec := hfold groups.entries Dict.empty merged h
  simpa using hspec

theorem mem_merged {predecessors : List String} {merged : Dict String (List String)}
    (h : g.rootMerged (g.branchGroups predecessors) = some merged) {root q : String} :
    q ∈ under merged root ↔
      q ∈ predecessors ∧ ∃ b, g.Belongs b q ∧ g.branchRoot b = some root := by
  rw [(rootMerged_spec h).2]
  constructor
  · intro ⟨e, he, hroot, hq⟩
    have hunder : q ∈ under (g.branchGroups predecessors) e.1 := by
      rw [under, get?_eq_some_iff.mpr he]
      exact hq
    obtain ⟨hpred, hb⟩ := mem_branchGroups.mp hunder
    exact ⟨hpred, e.1, hb, hroot⟩
  · intro ⟨hpred, b, hb, hroot⟩
    have hunder := mem_branchGroups.mpr ⟨hpred, hb⟩
    rw [under] at hunder
    cases hget : (g.branchGroups predecessors).get? b with
    | none =>
      rw [hget] at hunder
      cases hunder
    | some members =>
      rw [hget] at hunder
      exact ⟨(b, members), get?_eq_some_iff.mp hget, hroot, hunder⟩

theorem exists_root {predecessors : List String} {merged : Dict String (List String)}
    (h : g.rootMerged (g.branchGroups predecessors) = some merged) {b p : String}
    (hp : p ∈ predecessors) (hb : g.Belongs b p) : ∃ root, g.branchRoot b = some root := by
  have hunder := mem_branchGroups.mpr ⟨hp, hb⟩
  rw [under] at hunder
  cases hget : (g.branchGroups predecessors).get? b with
  | none =>
    rw [hget] at hunder
    cases hunder
  | some members => exact (rootMerged_spec h).1 _ (get?_eq_some_iff.mp hget)

/-- The groups are the classes of a list of nodes: each is the class of a node, and every
node is in some group. -/
structure Classes (related : String → String → Prop) (nodes : List String)
    (groups : List (List String)) : Prop where
  isClass : ∀ G ∈ groups, ∃ p ∈ nodes, ∀ q, q ∈ G ↔ q ∈ nodes ∧ related p q
  covers : ∀ p ∈ nodes, ∃ G ∈ groups, p ∈ G

theorem merged_of_no_targets (h : g.branchTargets.entries = []) {p q : String} :
    g.Merged p q ↔ q = p := by
  refine ⟨fun hmerged => ?_, .inl⟩
  cases hmerged with
  | inl heq => exact heq
  | inr hbranches =>
    obtain ⟨b, -, -, ⟨target, ⟨⟨targets, hget, -⟩, -⟩, -⟩, -⟩ := hbranches
    have hmem := get?_eq_some_iff.mp hget
    rw [h] at hmem
    cases hmem

theorem classes_of_singletons {related : String → String → Prop}
    (hrelated : ∀ p q, related p q ↔ q = p) {sourceList : List (List String)}
    (hsingle : ∀ G ∈ sourceList, ∃ s, G = [s]) :
    Classes related sourceList.flatten sourceList where
  isClass G hG := by
    obtain ⟨s, rfl⟩ := hsingle G hG
    have hs : s ∈ sourceList.flatten :=
      mem_flatten.mpr ⟨[s], hG, mem_singleton_self s⟩
    refine ⟨s, hs, fun q => ?_⟩
    rw [mem_singleton, hrelated]
    exact ⟨fun h => ⟨h ▸ hs, h⟩, fun h => h.2⟩
  covers p hp := mem_flatten.mp hp

theorem resolveBarrierGroups_classes {sourceList groups : List (List String)}
    (hsingle : ∀ G ∈ sourceList, ∃ s, G = [s])
    (h : g.resolveBarrierGroups sourceList = some groups) :
    Classes g.Merged sourceList.flatten groups := by
  rw [resolveBarrierGroups] at h
  by_cases htrivial : g.branchTargets.entries = [] ∨ sourceList = []
  · rw [if_pos htrivial] at h
    cases h
    cases htrivial with
    | inl hnone => exact classes_of_singletons (fun _ _ => merged_of_no_targets hnone) hsingle
    | inr hnil =>
      subst hnil
      exact ⟨nofun, nofun⟩
  · rw [if_neg htrivial] at h
    obtain ⟨merged, hmerged, hgroups⟩ := Option.map_eq_some_iff.mp h
    have hpred : ∀ q, q ∈ sourceList.flatten.dedup ↔ q ∈ sourceList.flatten :=
      fun q => mem_dedup
    have hcovers : ∀ p ∈ sourceList.flatten,
        ∃ G ∈ merged.values.filter (· ≠ []) ++ g.standalone sourceList.flatten.dedup, p ∈ G := by
      intro p hp
      have hp' := (hpred p).mpr hp
      by_cases hbelongs : ∃ b, g.Belongs b p
      · obtain ⟨b, hb⟩ := hbelongs
        obtain ⟨root, hroot⟩ := exists_root hmerged hp' hb
        have hunder := (mem_merged hmerged).mpr ⟨hp', b, hb, hroot⟩
        rw [under] at hunder
        cases hget : merged.get? root with
        | none =>
          rw [hget] at hunder
          cases hunder
        | some G =>
          rw [hget] at hunder
          refine ⟨G, mem_append_left _ (mem_filter.mpr ⟨?_, ?_⟩), hunder⟩
          · exact mem_values_iff.mpr ⟨root, hget⟩
          · exact decide_eq_true (ne_nil_of_mem hunder)
      · refine ⟨[p], mem_append_right _ ?_, mem_singleton_self p⟩
        exact mem_map.mpr ⟨p, mem_filter.mpr
          ⟨hp', decide_eq_true (length_owners_iff.mpr hbelongs)⟩, rfl⟩
    have hresult : merged.values.filter (· ≠ []) ++ g.standalone sourceList.flatten.dedup ≠ [] := by
      obtain ⟨G, rest, rfl⟩ := exists_cons_of_ne_nil fun hnil => htrivial (.inr hnil)
      obtain ⟨s, rfl⟩ := hsingle G (.head _)
      obtain ⟨G, hG, -⟩ := hcovers s (by simp)
      exact ne_nil_of_mem hG
    simp only [if_neg hresult] at hgroups
    subst hgroups
    refine ⟨fun G hG => ?_, hcovers⟩
    cases mem_append.mp hG with
    | inl hvalue =>
      -- the group of a root: the class of any of its members
      obtain ⟨hmem, hne⟩ := mem_filter.mp hvalue
      obtain ⟨root, hget⟩ := mem_values_iff.mp hmem
      have hunder : ∀ q, q ∈ G ↔
          q ∈ sourceList.flatten ∧ ∃ b, g.Belongs b q ∧ g.branchRoot b = some root := by
        intro q
        rw [← hpred, ← mem_merged hmerged, under, hget]
        rfl
      obtain ⟨p, hp⟩ := exists_mem_of_ne_nil G (of_decide_eq_true hne)
      obtain ⟨hp', b, hb, hroot⟩ := (hunder p).mp hp
      refine ⟨p, hp', fun q => ?_⟩
      rw [hunder]
      apply and_congr_right
      intro hq
      constructor
      · intro ⟨b', hb', hroot'⟩
        exact .inr ⟨b, b', root, hb, hb', hroot, hroot'⟩
      · rintro (rfl | ⟨c, c', root', hc, hc', hroot', hroot''⟩)
        · exact ⟨b, hb, hroot⟩
        · have hcb : c = b := hb.unique hc
          rw [hcb, hroot] at hroot'
          cases hroot'
          exact ⟨c', hc', hroot''⟩
    | inr halone =>
      obtain ⟨p, hp, rfl⟩ := mem_map.mp halone
      obtain ⟨hmem, hlength⟩ := mem_filter.mp hp
      have hnot := length_owners_iff.mp (of_decide_eq_true hlength)
      refine ⟨p, (hpred p).mp hmem, fun q => ?_⟩
      rw [mem_singleton]
      constructor
      · intro hq
        subst hq
        exact ⟨(hpred q).mp hmem, .inl rfl⟩
      · rintro ⟨-, heq | ⟨b, -, -, hb, -⟩⟩
        · exact heq
        · exact absurd ⟨b, hb⟩ hnot

end PregelGraph

end JiuwenSpec.Graph

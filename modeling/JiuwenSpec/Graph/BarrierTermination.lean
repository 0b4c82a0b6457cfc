import JiuwenSpec.Graph.Reasons

/-!
# When the barrier groups are found

The climb from a branch to its root follows one parent for each branch, without a record of
the branches that it has passed. It ends unless it comes to a branch that is its own ancestor,
which branches that target themselves or each other give.
-/

namespace JiuwenSpec.Graph

open Base Relation PregelGraph List

namespace PregelGraph

/-- A target that is itself a branch is hoisted to the last registered branch that has it as a
target. -/
def HoistedTo (g : PregelGraph) (x b : String) : Prop :=
  (x ∈ g.branchTargets.keys ∨ x ∈ g.branches.keys) ∧
    ∃ targets, (g.branchTargets.entries.reverse.find? fun e => x ∈ e.2) = some (b, targets)

/-- Hoisting a branch comes to one that is its own ancestor. -/
def Circles (g : PregelGraph) (b : String) : Prop :=
  ∃ c, ReflTransGen g.HoistedTo b c ∧ TransGen g.HoistedTo c c

end PregelGraph

variable {g : PregelGraph}

theorem get?_setTargets (isBranch : String → Prop) [DecidablePred isBranch] (b x : String)
    (targets : List String) (parent : Dict String String) :
    ((targets.map fun target => (target, b)).foldl
      (fun parent e => if isBranch e.1 then parent.set e.1 e.2 else parent) parent).get? x =
      if isBranch x ∧ x ∈ targets then some b else parent.get? x := by
  induction targets generalizing parent with
  | nil => simp
  | cons target targets ih =>
    rw [map_cons, foldl_cons, ih]
    by_cases hx : x = target
    · subst hx
      by_cases hbranch : isBranch x <;> simp [hbranch]
    · by_cases hbranch : isBranch target <;> simp [hbranch, hx, Dict.get?_set_of_ne]

theorem get?_branchParent {x b : String} :
    g.branchParent.get? x = some b ↔ g.HoistedTo x b := by
  rw [branchParent, HoistedTo]
  induction g.branchTargets.entries using List.reverseRecOn with
  | nil => simp
  | append_singleton entries e ih =>
    rw [flatMap_append, foldl_append, flatMap_singleton,
      get?_setTargets (fun x => x ∈ g.branchTargets.keys ∨ x ∈ g.branches.keys),
      reverse_concat]
    by_cases hx : x ∈ e.2
    · rw [List.find?_cons_of_pos (by simpa using hx)]
      by_cases hbranch : x ∈ g.branchTargets.keys ∨ x ∈ g.branches.keys
      · rw [if_pos ⟨hbranch, hx⟩]
        simp [hbranch, Prod.ext_iff]
      · rw [if_neg fun h => hbranch h.1, ih]
        simp [hbranch]
    · rw [List.find?_cons_of_neg (by simpa using hx), if_neg fun h => hx h.2, ih]

theorem not_circles_of_root {turns : Nat} {b root : String}
    (h : branchRootWithin g.branchParent turns b = some root) : ¬ g.Circles b := by
  induction turns generalizing b with
  | zero => cases h
  | succ turns ih =>
    rw [branchRootWithin] at h
    rintro ⟨c, hreach, hcycle⟩
    cases hget : g.branchParent.get? b with
    | none =>
      have hstuck : ∀ b', ¬ g.HoistedTo b b' := by
        intro b' hb'
        rw [get?_branchParent.mpr hb'] at hget
        cases hget
      cases hreach.cases_head with
      | inl heq =>
        obtain ⟨b', hb', -⟩ := TransGen.head'_iff.mp (heq ▸ hcycle)
        exact hstuck b' hb'
      | inr hstep =>
        obtain ⟨b', hb', -⟩ := hstep
        exact hstuck b' hb'
    | some b' =>
      rw [hget] at h
      have honly : ∀ d, g.HoistedTo b d → d = b' := by
        intro d hd
        exact Option.some.inj ((get?_branchParent.mpr hd).symm.trans hget)
      cases hreach.cases_head with
      | inl heq =>
        subst heq
        obtain ⟨d, hd, hback⟩ := TransGen.head'_iff.mp hcycle
        obtain rfl := honly d hd
        exact ih h ⟨d, .refl, TransGen.tail' hback hd⟩
      | inr hstep =>
        obtain ⟨d, hd, hrest⟩ := hstep
        obtain rfl := honly d hd
        exact ih h ⟨c, hrest, hcycle⟩

open Classical in
noncomputable def above (g : PregelGraph) (b : String) : Finset String :=
  g.branchParent.keys.toFinset.filter (ReflTransGen g.HoistedTo b)

theorem above_ssubset {b b' : String} (hb : g.HoistedTo b b') (h : ¬ g.Circles b) :
    above g b' ⊂ above g b := by
  classical
  rw [above, above, Finset.ssubset_iff_of_subset]
  · refine ⟨b, ?_, fun hmem => ?_⟩
    · rw [Finset.mem_filter, mem_toFinset, Dict.mem_keys_iff]
      exact ⟨⟨b', get?_branchParent.mpr hb⟩, .refl⟩
    · exact h ⟨b, .refl, .head' hb (Finset.mem_filter.mp hmem).2⟩
  · exact Finset.monotone_filter_right _ fun c _ hc => .head hb hc

theorem exists_root_of_turns {turns : Nat} {b : String} (h : ¬ g.Circles b)
    (hturns : (above g b).card < turns) :
    ∃ root, branchRootWithin g.branchParent turns b = some root := by
  induction turns generalizing b with
  | zero => exact absurd hturns (Nat.not_lt_zero _)
  | succ turns ih =>
    rw [branchRootWithin]
    cases hget : g.branchParent.get? b with
    | none => exact ⟨b, rfl⟩
    | some b' =>
      have hb := get?_branchParent.mp hget
      have hfewer := Finset.card_lt_card (above_ssubset hb h)
      refine ih (fun ⟨c, hreach, hcycle⟩ => h ⟨c, .head hb hreach, hcycle⟩) ?_
      omega

theorem branchRoot_iff {b : String} : (∃ root, g.branchRoot b = some root) ↔ ¬ g.Circles b := by
  constructor
  · intro ⟨root, hroot⟩
    exact not_circles_of_root hroot
  · intro h
    apply exists_root_of_turns h
    classical
    calc (above g b).card ≤ g.branchParent.keys.toFinset.card := Finset.card_filter_le _ _
      _ ≤ g.branchParent.keys.length := toFinset_card_le _
      _ = g.branchParent.entries.length := length_map _
      _ < g.branchParent.entries.length + 1 := Nat.lt_succ_self _

theorem branchRoot_iff_turns {b : String} : (∃ root, g.branchRoot b = some root) ↔
    ∃ turns root, branchRootWithin g.branchParent turns b = some root := by
  constructor
  · intro ⟨root, hroot⟩
    exact ⟨_, root, hroot⟩
  · intro ⟨turns, root, hroot⟩
    exact branchRoot_iff.mpr (not_circles_of_root hroot)

theorem mem_keys_branchGroups {predecessors : List String} {b : String} :
    b ∈ (g.branchGroups predecessors).keys ↔ ∃ p ∈ predecessors, g.Belongs b p := by
  have hfold : ∀ groups, b ∈ (predecessors.foldl g.toBranchGroup groups).keys ↔
      b ∈ groups.keys ∨ ∃ p ∈ predecessors, g.Belongs b p := by
    induction predecessors with
    | nil => simp
    | cons p predecessors ih =>
      intro groups
      rw [foldl_cons, ih, exists_mem_cons_iff, ← or_assoc, toBranchGroup,
        ← owners_eq_iff]
      split
      · next b' target howners =>
        rw [addTo, Dict.mem_keys_set, howners]
        simp [eq_comm, or_comm]
      · next hnot =>
        have hnone : ¬ ∃ target, g.owners p = [(b, target)] := by
          rintro ⟨target, howners⟩
          exact hnot b target howners
        rw [or_iff_left hnone]
  apply (hfold Dict.empty).trans
  simp [Dict.keys, Dict.empty]

theorem rootMerged_iff (groups : Dict String (List String)) :
    (∃ merged, g.rootMerged groups = some merged) ↔ ∀ b ∈ groups.keys, ¬ g.Circles b := by
  rw [rootMerged, Dict.keys]
  generalize Dict.empty = start
  induction groups.entries generalizing start with
  | nil => simp
  | cons e entries ih =>
    rw [foldlM_cons, map_cons, forall_mem_cons, ← branchRoot_iff]
    cases g.branchRoot e.1 with
    | none => simp
    | some root => simpa using ih _

theorem resolveBarrierGroups_iff {sourceList : List (List String)} :
    (∃ groups, g.resolveBarrierGroups sourceList = some groups) ↔
      ∀ p ∈ sourceList.flatten, ∀ b, g.Belongs b p → ¬ g.Circles b := by
  rw [resolveBarrierGroups]
  split
  · next htrivial =>
    refine ⟨fun _ p hp b hb => ?_, fun _ => ⟨_, rfl⟩⟩
    cases htrivial with
    | inl hnone =>
      obtain ⟨target, ⟨⟨targets, hget, -⟩, -⟩, -⟩ := hb
      rw [Dict.get?_eq_some_iff, hnone] at hget
      cases hget
    | inr hnil =>
      rw [hnil] at hp
      cases hp
  · have hiff := rootMerged_iff (g := g) (g.branchGroups sourceList.flatten.dedup)
    simp only [mem_keys_branchGroups, mem_dedup] at hiff
    simp only [Option.map_eq_some_iff]
    constructor
    · rintro ⟨_, merged, hmerged, -⟩ p hp b hb
      exact hiff.mp ⟨merged, hmerged⟩ b ⟨p, hp, hb⟩
    · intro h
      have hbranches := fun b (hb : ∃ p ∈ _, g.Belongs b p) => hb.elim fun p hp => h p hp.1 b hp.2
      obtain ⟨merged, hmerged⟩ := hiff.mpr hbranches
      exact ⟨_, merged, hmerged, rfl⟩

theorem mapM_iff {α β : Type} {f : α → Option β} {xs : List α} :
    (∃ ys, xs.mapM f = some ys) ↔ ∀ x ∈ xs, ∃ y, f x = some y := by
  induction xs with
  | nil => simp
  | cons x xs ih =>
    rw [forall_mem_cons, ← ih, mapM_cons]
    cases f x <;> cases xs.mapM f <;> simp

/-- **When barrier compilation ends.** The groups of all waiting nodes are found exactly where no
predecessor of one belongs to a branch from which hoisting comes to a branch that is its own
ancestor. The climb to a root is given as many turns as any number finds a root with. -/
theorem barrierGroups_found_iff (g : PregelGraph) :
    ((∃ groups, g.barrierGroups = some groups) ↔
      ∀ w ∈ g.waits, ∀ p ∈ g.predecessors w, ∀ b, g.Belongs b p → ¬ g.Circles b) ∧
    ∀ b, (∃ root, g.branchRoot b = some root) ↔
      ∃ turns root, branchRootWithin g.branchParent turns b = some root := by
  refine ⟨?_, fun b => branchRoot_iff_turns⟩
  have hflat : ∀ w ∈ g.waits, ((g.sources.get? w).getD []).flatten = g.predecessors w := by
    intro w hw
    rw [getD_sources hw, ← flatMap_def, flatMap_singleton']
  rw [barrierGroups, mapM_iff]
  constructor
  · intro h w hw p hp b hb
    rw [← hflat w hw] at hp
    cases hget : g.sources.get? w with
    | none =>
      rw [hget] at hp
      cases hp
    | some sourceList =>
      rw [hget] at hp
      obtain ⟨_, hgroups⟩ := h _ (Dict.get?_eq_some_iff.mp hget)
      obtain ⟨groups, hresolve, -⟩ := Option.map_eq_some_iff.mp hgroups
      exact resolveBarrierGroups_iff.mp ⟨groups, hresolve⟩ p hp b hb
  · intro h e he
    have hget := Dict.get?_eq_some_iff.mpr he
    obtain ⟨hw, -⟩ := get?_sources_ne_none.mp (Option.ne_none_iff_exists'.mpr ⟨_, hget⟩)
    obtain ⟨groups, hresolve⟩ := resolveBarrierGroups_iff.mpr fun p hp b hb =>
      h e.1 hw p (by rwa [← hflat e.1 hw, hget]) b hb
    exact ⟨_, Option.map_eq_some_iff.mpr ⟨groups, hresolve, rfl⟩⟩

/-- A loop: a branch that goes back to itself or on to `work`, for which `join` waits. -/
def loopGraph : Option PregelGraph := do
  let g ← ({} : PregelGraph).addNode "choose" false
  let g ← g.addNode "work" false
  let g ← g.addNode "join" true
  let g ← g.addEdge (.node "work") "join"
  g.addBranchRouter "choose" [["choose"], ["work"]]

theorem loopGraph_built (h : loopGraph = some g) : g.Built := by
  rw [loopGraph] at h
  obtain ⟨g₁, hchoose, h⟩ := Option.bind_eq_some_iff.mp h
  obtain ⟨g₂, hwork, h⟩ := Option.bind_eq_some_iff.mp h
  obtain ⟨g₃, hjoin, h⟩ := Option.bind_eq_some_iff.mp h
  obtain ⟨g₄, hedge, h⟩ := Option.bind_eq_some_iff.mp h
  obtain ⟨g₅, hrouter, rfl⟩ := Option.map_eq_some_iff.mp h
  exact .targets _ _ (.conditional (.edge (.node (.node (.node .new hchoose) hwork) hjoin) hedge)
    hrouter)

/-- The builder accepts the loop, and no number of turns finds the root of its branch. -/
theorem loopGraph_groups : ∃ g, loopGraph = some g ∧ g.Built ∧ g.barrierGroups = none ∧
    ∀ turns, branchRootWithin g.branchParent turns "choose" = none := by
  have hparent : loopGraph.map (·.branchParent.get? "choose") = some (some "choose") := by
    decide
  have hgroups : loopGraph.bind (·.barrierGroups) = none := by decide
  obtain ⟨g, hg, hparent⟩ := Option.map_eq_some_iff.mp hparent
  rw [hg] at hgroups
  refine ⟨g, hg, loopGraph_built hg, hgroups, fun turns => ?_⟩
  induction turns with
  | zero => rfl
  | succ turns ih =>
    rw [branchRootWithin, hparent]
    exact ih

end JiuwenSpec.Graph

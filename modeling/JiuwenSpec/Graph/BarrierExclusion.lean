import JiuwenSpec.Graph.Reasons

/-!
# Exclusive groups

A group of a barrier is heard from as soon as one member is. Where no outcomes activate two
members of a group, and no router returns the waiting node itself, a waiting node runs only
after all predecessors that run. Compilation groups more than that: two nodes below one target
of a branch go into one group, although both run.
-/

namespace JiuwenSpec.Graph

open Base PregelGraph Option

variable {g : PregelGraph} {groups : List (String × List (List String))} {c : PregelBuilder}
  {choices : Choices} {trace : List (Finset String)} {s : LoopState}

namespace PregelGraph

theorem Merged.trans_left {p q r : String} (hp : g.Merged r p) (hq : g.Merged r q) :
    g.Merged p q := by
  rcases hp with rfl | ⟨b, b', root, hr, hp, hb, hb'⟩
  · exact hq
  · rcases hq with rfl | ⟨d, d', root', hr', hq, hd, hd'⟩
    · exact .inr ⟨b', b, root, hp, hr, hb', hb⟩
    · obtain rfl := hr.unique hr'
      have hroot : root' = root := some.inj (hd.symm.trans hb)
      exact .inr ⟨b', d', root, hp, hq, hb', hroot ▸ hd'⟩

theorem merged_of_mem_group (hgroups : g.barrierGroups = some groups) {w : String}
    {Gs : List (List String)} (hw : (w, Gs) ∈ groups) {G : List String} (hG : G ∈ Gs)
    {p q : String} (hp : p ∈ G) (hq : q ∈ G) :
    p ∈ g.predecessors w ∧ q ∈ g.predecessors w ∧ g.Merged p q := by
  obtain ⟨r, -, hclass⟩ := (classes_of_barrierGroups hgroups hw).2.isClass G hG
  obtain ⟨hpred, hmerged⟩ := (hclass p).mp hp
  obtain ⟨hpred', hmerged'⟩ := (hclass q).mp hq
  exact ⟨hpred, hpred', hmerged.trans_left hmerged'⟩

end PregelGraph

theorem heard_of_ran (hc : CompiledTo g groups c) (h : RunsTo c choices trace s) {w : String}
    (hwait : w ∈ g.waits) (hstart : w ≠ START)
    (hrouters : ∀ n name, ¬ Returned g choices trace n name w) {i : Nat} {nodes : Finset String}
    (hi : (trace)[i]? = some nodes) (hw : w ∈ nodes) :
    ∃ Gs, (w, Gs) ∈ groups ∧ ∀ G ∈ Gs, ∃ q ∈ G, Ran (trace.take i) q := by
  obtain ⟨-, hreason⟩ := reason_of_ran hc h i nodes w hi hw
  cases hreason with
  | triggered htriggers =>
    cases htriggers with
    | start => exact absurd rfl hstart
    | edge hran hedge hnot => exact absurd hwait hnot
    | router hreturned => exact absurd (returned_of_take hreturned) (hrouters _ _)
  | heard hw hheard => exact ⟨_, hw, hheard⟩
  | gathered ht hheard => exact absurd hwait (mem_listEdges.mp ht).2

/-- No two members of a group run, and a waiting node runs after all predecessors that run. -/
structure WaitsForAll (g : PregelGraph) (trace : List (Finset String)) (w : String)
    (Gs : List (List String)) : Prop where
  exclusive : ∀ G ∈ Gs, ∀ p ∈ G, ∀ q ∈ G, p ≠ q → ¬ (Ran trace p ∧ Ran trace q)
  waits : ∀ i nodes, (trace)[i]? = some nodes → w ∈ nodes →
    ∀ p ∈ g.predecessors w, Ran trace p → Ran (trace.take i) p

/-- What the routers return does not activate two predecessors that go into one group, and
does not include the node itself. -/
structure Exclusive (g : PregelGraph) (returns : String → String → String → Prop) (w : String) :
    Prop where
  predecessors : ∀ p ∈ g.predecessors w, ∀ q ∈ g.predecessors w, p ≠ q → g.Merged p q →
    ¬ (g.Activated returns p ∧ g.Activated returns q)
  routers : ∀ n name, ¬ returns n name w
  ne_start : w ≠ START

/-- **Exclusive groups are waited for.** Where what the routers return in a run does not
activate two merged predecessors of a waiting node, nor include the node, the run keeps its
groups exclusive and it waits for all predecessors that run. -/
theorem or_groups_exclusive (hg : g.Built) (hgroups : g.barrierGroups = some groups)
    (hcompile : g.compile = some c) (h : RunsTo c choices trace s) {w : String}
    {Gs : List (List String)} (hw : (w, Gs) ∈ groups)
    (hexclusive : Exclusive g (Returned g choices trace) w) :
    WaitsForAll g trace w Gs := by
  have hc := compiledTo_of_compile hgroups hcompile
  have hrun : ∀ p ∈ g.predecessors w, ∀ q ∈ g.predecessors w, g.Merged p q →
      Ran trace p → Ran trace q → p = q := by
    intro p hp q hq hmerged hran hran'
    by_contra hne
    exact hexclusive.predecessors p hp q hq hne hmerged
      ⟨activated_of_ran hg hc h hran, activated_of_ran hg hc h hran'⟩
  constructor
  · intro G hG p hp q hq hne hran
    obtain ⟨hpred, hpred', hmerged⟩ := merged_of_mem_group hgroups hw hG hp hq
    exact hne (hrun p hpred q hpred' hmerged hran.1 hran.2)
  · intro i nodes hi hmem p hp hran
    have hwait := (classes_of_barrierGroups hgroups hw).1
    obtain ⟨Gs', hw', hheard⟩ := heard_of_ran hc h hwait hexclusive.ne_start hexclusive.routers
      hi hmem
    obtain ⟨G, hG, hpG⟩ := (classes_of_barrierGroups hgroups hw').2.covers p hp
    obtain ⟨q, hq, hbefore⟩ := hheard G hG
    obtain ⟨hpred, hpred', hmerged⟩ := merged_of_mem_group hgroups hw' hG hpG hq
    rw [hrun p hpred q hpred' hmerged hran (ran_of_ran_take hbefore)]
    exact hbefore

/-- A graph with a branch router at `choose`, which goes `left` or `right`. -/
def branchGraph (nodes : List (String × Bool)) (edges : List (Source × String)) :
    Option PregelGraph := do
  let g ← nodes.foldlM (fun g n => g.addNode n.1 n.2) ({} : PregelGraph)
  let g ← edges.foldlM (fun g e => g.addEdge e.1 e.2) g
  g.addBranchRouter "choose" [["left"], ["right"]]

theorem foldlM_keeps {α β : Type} {P : β → Prop} {f : β → α → Option β}
    (hf : ∀ b x b', P b → f b x = some b' → P b') {xs : List α} {b b' : β} (hb : P b)
    (h : xs.foldlM f b = some b') : P b' := by
  induction xs generalizing b with
  | nil =>
    cases h
    exact hb
  | cons x xs ih =>
    rw [List.foldlM_cons] at h
    obtain ⟨next, hnext, hrest⟩ := bind_eq_some_iff.mp h
    exact ih (hf b x next hb hnext) hrest

variable {nodes : List (String × Bool)} {edges : List (Source × String)}

theorem branchGraph_cases (h : branchGraph nodes edges = some g) :
    ∃ g' : PregelGraph, g'.Built ∧ g'.branches = Dict.empty ∧
      g'.addBranchRouter "choose" [["left"], ["right"]] = some g := by
  obtain ⟨g₁, hnodes, h⟩ := bind_eq_some_iff.mp h
  obtain ⟨g₂, hedges, h⟩ := bind_eq_some_iff.mp h
  have hfirst : g₁.Built ∧ g₁.branches = Dict.empty := by
    apply foldlM_keeps (P := fun g => g.Built ∧ g.branches = Dict.empty) _ ⟨.new, rfl⟩ hnodes
    rintro g n g' ⟨hg, hbranches⟩ hg'
    refine ⟨.node hg hg', ?_⟩
    rw [addNode] at hg'
    split at hg'
    · cases hg'
    · cases hg'
      exact hbranches
  have hsecond : g₂.Built ∧ g₂.branches = Dict.empty := by
    apply foldlM_keeps (P := fun g => g.Built ∧ g.branches = Dict.empty) _ hfirst hedges
    rintro g e g' ⟨hg, hbranches⟩ hg'
    refine ⟨.edge hg hg', ?_⟩
    rw [addEdge] at hg'
    split at hg'
    · cases hg'
    · cases hg'
      exact hbranches
  exact ⟨g₂, hsecond.1, hsecond.2, h⟩

theorem branchGraph_built (h : branchGraph nodes edges = some g) : g.Built := by
  obtain ⟨g', hbuilt, -, hrouter⟩ := branchGraph_cases h
  obtain ⟨g₃, hbranch, rfl⟩ := map_eq_some_iff.mp hrouter
  exact .targets _ _ (.conditional hbuilt hbranch)

def PregelGraph.Admits (g : PregelGraph) (choices : Choices) : Prop :=
  ∀ i n name routers branch, g.branches.get? n = some routers → routers.get? name = some branch →
    branch.mayReturn (choices i n name)

/-- Below `left`, `short` leads to `join` at once and `long` through `last`. -/
def stagedGraph : Option PregelGraph :=
  branchGraph [("choose", false), ("left", false), ("right", false), ("short", false),
      ("long", false), ("last", false), ("join", true)]
    [(.list [START], "choose"), (.node "left", "short"), (.node "left", "long"),
      (.node "long", "last"), (.node "short", "join"), (.node "last", "join")]

/-- The targets meet in `join`. -/
def diamondGraph : Option PregelGraph :=
  branchGraph [("choose", false), ("left", false), ("right", false), ("join", true)]
    [(.list [START], "choose"), (.node "left", "join"), (.node "right", "join")]

/-- The router at `choose` goes left. -/
def goLeft : Outcomes := fun _ _ => ["left"]

theorem branchGraph_branches
    (h : branchGraph nodes edges = some g) {n : String} {routers : Dict String Branch}
    (hn : g.branches.get? n = some routers) :
    n = "choose" ∧ routers = Dict.empty.set "BranchRouter" ⟨(· ∈ [["left"], ["right"]])⟩ := by
  obtain ⟨g', -, hempty, hrouter⟩ := branchGraph_cases h
  obtain ⟨g₃, hbranch, rfl⟩ := map_eq_some_iff.mp hrouter
  rw [addConditionalEdges, if_neg (by decide)] at hbranch
  cases hbranch
  have hbranches : ∀ (g : PregelGraph) b targets,
      (g.registerBranchTargets b targets).branches = g.branches := by
    intro g b targets
    rw [registerBranchTargets]
    split <;> rfl
  rw [hbranches, hempty, Dict.get?_set] at hn
  split at hn
  · next heq => exact ⟨heq, (some.inj hn).symm⟩
  · cases hn

theorem goLeft_admitted (h : branchGraph nodes edges = some g) : g.Admits fun _ => goLeft := by
  intro i n name routers branch hn hname
  obtain ⟨-, rfl⟩ := branchGraph_branches h hn
  rw [Dict.get?_set] at hname
  split at hname
  · cases hname
    exact .head _
  · cases hname

theorem goLeft_run {graph : Option PregelGraph} {k : Nat} {nodes : List (List String)}
    {active : List String}
    (hrun : (graph.bind fun g => g.compile.bind fun c =>
      (c.run (fun _ => goLeft) k).map fun r => (r.1, r.2.active c.pregel)) = some (nodes, active)) :
    ∃ g c s, graph = some g ∧ g.compile = some c ∧
      RunsTo c (fun _ => goLeft) (nodes.map List.toFinset) s ∧ s.active c.pregel = active := by
  obtain ⟨g, hg, hrun⟩ := bind_eq_some_iff.mp hrun
  obtain ⟨c, hcompile, hrun⟩ := bind_eq_some_iff.mp hrun
  obtain ⟨⟨nodes', s⟩, hsome, hpair⟩ := map_eq_some_iff.mp hrun
  obtain ⟨rfl, rfl⟩ := Prod.mk.inj hpair
  exact ⟨g, c, s, hg, hcompile, runsTo_of_run hsome, rfl⟩

/-- `join` runs together with `last`, for which it waits: it heard `short`. -/
theorem or_groups_not_exclusive :
    ¬ ∀ (g : PregelGraph) (groups : List (String × List (List String))) (c : PregelBuilder)
        (choices : Choices) (trace : List (Finset String)) (s : LoopState),
      g.Built → g.barrierGroups = some groups → g.compile = some c → g.Admits choices →
        RunsTo c choices trace s → ∀ w Gs, (w, Gs) ∈ groups → WaitsForAll g trace w Gs := by
  intro h
  obtain ⟨g, c, s, hg, hcompile, hrun, -⟩ := @goLeft_run stagedGraph 5
    [[START], ["choose"], ["left"], ["short", "long"], ["join", "last"]] ["join"]
    (by decide)
  have hgroups : stagedGraph.bind (·.barrierGroups) = some [("join", [["short", "last"]])] := by
    decide
  have hpred : stagedGraph.map (·.predecessors "join") = some ["short", "last"] := by
    decide
  rw [hg] at hgroups hpred
  have hlast : "last" ∈ g.predecessors "join" := by
    rw [show g.predecessors "join" = _ from some.inj hpred]
    decide
  have hwaits := (h g _ c (fun _ ↦ goLeft) _ s (branchGraph_built hg) hgroups hcompile (goLeft_admitted hg)
    hrun "join" _ (.head _)).waits 4 {"join", "last"} (by decide) (by decide)
    "last" hlast ⟨{"join", "last"}, by decide, by decide⟩
  obtain ⟨nodes, hnodes, hmem⟩ := hwaits
  revert hmem
  revert nodes
  decide

theorem diamond_activated (hg : diamondGraph = some g) {returns : String → String → String → Prop}
    (hreturns : ∀ n name t, returns n name t → t = "left") {n : String}
    (h : g.Activated returns n) : n ≠ "right" := by
  have hedges : diamondGraph.map (·.edges) =
      some [(.list [START], "choose"), (.node "left", "join"), (.node "right", "join")] := by
    decide
  have hlists : diamondGraph.map (·.listEdges) = some [([START], "choose")] := by
    decide
  have hwaits : diamondGraph.map (·.waits) = some ["join"] := by
    decide
  rw [hg] at hedges hlists hwaits
  rintro rfl
  generalize hname : "right" = name at h
  cases h with
  | start =>
    revert hname
    decide
  | edge _ hedge =>
    rw [show g.edges = _ from some.inj hedges] at hedge
    subst hname
    simp at hedge
  | list _ hedge =>
    rw [show g.listEdges = _ from some.inj hlists] at hedge
    subst hname
    simp at hedge
  | router _ hreturned =>
    have hleft := hreturns _ _ _ hreturned
    subst hname
    revert hleft
    decide
  | waiting _ _ hwait =>
    rw [show g.waits = _ from some.inj hwaits] at hwait
    subst hname
    revert hwait
    decide

/-- Where the targets themselves are waited for, the run waits. -/
theorem diamond_waits :
    ∃ g c s, diamondGraph = some g ∧ g.compile = some c ∧
      RunsTo c (fun _ => goLeft) ([[START], ["choose"], ["left"], ["join"]].map List.toFinset) s ∧
        WaitsForAll g ([[START], ["choose"], ["left"], ["join"]].map List.toFinset) "join"
          [["left", "right"]] := by
  obtain ⟨g, c, s, hg, hcompile, hrun, -⟩ := @goLeft_run diamondGraph 4
    [[START], ["choose"], ["left"], ["join"]] [] (by decide)
  have hgroups : diamondGraph.bind (·.barrierGroups) = some [("join", [["left", "right"]])] := by
    decide
  have hpred : diamondGraph.map (·.predecessors "join") = some ["left", "right"] := by
    decide
  rw [hg] at hgroups hpred
  have hreturned : ∀ n name t, Returned g (fun _ => goLeft)
      ([[START], ["choose"], ["left"], ["join"]].map List.toFinset) n name t → t = "left" := by
    rintro n name t ⟨-, i, nodes, -, -, ht⟩
    exact List.mem_singleton.mp ht
  have honly : ∀ r ∈ g.predecessors "join", g.Activated (Returned g (fun _ => goLeft)
      ([[START], ["choose"], ["left"], ["join"]].map List.toFinset)) r → r = "left" := by
    intro r hr hactivated
    rw [show g.predecessors "join" = _ from some.inj hpred] at hr
    exact (List.mem_pair.mp hr).resolve_right (diamond_activated hg hreturned hactivated)
  refine ⟨g, c, s, hg, hcompile, hrun, or_groups_exclusive (branchGraph_built hg) hgroups hcompile
    hrun (.head _) ⟨?_, ?_, by decide⟩⟩
  · rintro p hp q hq hne - ⟨hactivated, hactivated'⟩
    exact hne ((honly p hp hactivated).trans (honly q hq hactivated').symm)
  · intro n name hjoin
    have hleft := hreturned n name "join" hjoin
    revert hleft
    decide

end JiuwenSpec.Graph

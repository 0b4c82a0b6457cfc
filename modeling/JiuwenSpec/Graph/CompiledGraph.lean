import JiuwenSpec.Graph.BarrierGroups

/-!
# What compilation makes of a graph

A compiled graph has a trigger channel for every node, a barrier with the groups for every
waiting node, and a barrier of single nodes for every edge from a list to a node that does
not wait. Its nodes route exactly what the edges and the conditions ask for.
-/

namespace JiuwenSpec.Graph

open Base List Dict

variable {b b' : PregelBuilder}

namespace PregelBuilder

/-- A builder with more channels and more routers on nodes that it had. -/
structure Extends (b b' : PregelBuilder) (channels : List Channel)
    (routes : List (String × Router)) : Prop where
  channels_eq : b'.channels = b.channels ++ channels
  keys_eq : b'.nodes.keys = b.nodes.keys
  mem_routers : ∀ n r, r ∈ b'.routers n ↔ r ∈ b.routers n ∨ (n, r) ∈ routes

theorem Extends.refl (b : PregelBuilder) : Extends b b [] [] := by
  refine ⟨(append_nil _).symm, rfl, fun n r => ?_⟩
  simp

theorem Extends.trans {b'' : PregelBuilder} {cs ds : List Channel}
    {rs ts : List (String × Router)} (h : Extends b b' cs rs) (h' : Extends b' b'' ds ts) :
    Extends b b'' (cs ++ ds) (rs ++ ts) := by
  refine ⟨?_, h'.keys_eq.trans h.keys_eq, fun n r => ?_⟩
  · rw [h'.channels_eq, h.channels_eq, append_assoc]
  · rw [h'.mem_routers, h.mem_routers, mem_append, or_assoc]

theorem addRouter_extends {name : String} {router : Router}
    (h : b.addRouter name router = some b') : Extends b b' [] [(name, router)] := by
  obtain ⟨old, hget, rfl⟩ := Option.map_eq_some_iff.mp h
  have hmem : name ∈ b.nodes.keys := mem_keys_iff.mpr ⟨old, hget⟩
  refine ⟨(append_nil _).symm, ?_, fun n r => ?_⟩
  · rw [Dict.set, dif_pos hmem, keys_mapValues]
  · rw [routers, routers, get?_set, mem_singleton, Prod.mk.injEq]
    by_cases hn : n = name
    · subst hn
      simp [hget]
    · simp [hn]

theorem foldlM_extends {α : Type} {f : PregelBuilder → α → Option PregelBuilder}
    {channels : α → List Channel} {routes : α → List (String × Router)}
    (hf : ∀ b x b', f b x = some b' → Extends b b' (channels x) (routes x)) {xs : List α}
    (h : xs.foldlM f b = some b') :
    Extends b b' (xs.flatMap channels) (xs.flatMap routes) := by
  induction xs generalizing b with
  | nil =>
    cases h
    exact Extends.refl _
  | cons x xs ih =>
    rw [foldlM_cons] at h
    obtain ⟨next, hnext, hrest⟩ := Option.bind_eq_some_iff.mp h
    rw [flatMap_cons, flatMap_cons]
    exact (hf b x next hnext).trans (ih hrest)

theorem addBarrier_extends {groups : List (List String)}
    {target : String} (h : b.addBarrier groups target = some b') :
    Extends b b' [barrierChannel target groups]
      (groups.flatten.map fun s => (s, .barrier [makeRouterKey target groups])) := by
  have hfold := foldlM_extends (fun _ _ _ hstep => addRouter_extends hstep) h
  refine ⟨?_, hfold.keys_eq, fun n r => ?_⟩
  · rw [hfold.channels_eq]
    simp
  · rw [hfold.mem_routers, ← map_eq_flatMap]
    rfl

end PregelBuilder

namespace PregelGraph

variable {g : PregelGraph} {c : PregelBuilder} {groups : List (String × List (List String))}

def predecessors (g : PregelGraph) (w : String) : List String :=
  (g.edges.filter fun e => e.2 = w).flatMap fun e => e.1.ids

def listEdges (g : PregelGraph) : List (List String × String) :=
  (g.edges.filter fun e => e.2 ∉ g.waits).filterMap fun e => match e.1 with
    | .node _ => none
    | .list ids => some (ids, e.2)

def singletons (ids : List String) : List (List String) := ids.map fun s => [s]

/-- The routers that the edges and conditions ask of a node, given the groups of the waiting
nodes. -/
def Routes (g : PregelGraph) (groups : List (String × List (List String))) (n : String) :
    Router → Prop
  | .static targets => ∃ t, (Source.node n, t) ∈ g.edges ∧ t ∉ g.waits ∧ targets = [t]
  | .barrier targets =>
    (∃ e ∈ groups, n ∈ e.2.flatten ∧ targets = [makeRouterKey e.1 e.2]) ∨
      ∃ e ∈ g.listEdges, n ∈ e.1 ∧ targets = [makeRouterKey e.2 (singletons e.1)]
  | .conditional name => ∃ routers, g.branches.get? n = some routers ∧ name ∈ routers.keys

structure CompiledTo (g : PregelGraph) (groups : List (String × List (List String)))
    (c : PregelBuilder) : Prop where
  groups_eq : g.barrierGroups = some groups
  channels_eq : c.channels = (START :: END :: g.nodes).map triggerChannel ++
    groups.map (fun e => barrierChannel e.1 e.2) ++
      g.listEdges.map fun e => barrierChannel e.2 (singletons e.1)
  mem_nodes : ∀ n, n ∈ c.nodes.keys ↔ n = START ∨ n = END ∨ n ∈ g.nodes
  mem_routers : ∀ n r, r ∈ c.routers n ↔ g.Routes groups n r

theorem mem_predecessors {w p : String} :
    p ∈ g.predecessors w ↔ ∃ source, (source, w) ∈ g.edges ∧ p ∈ source.ids := by
  rw [predecessors, mem_flatMap]
  constructor
  · intro ⟨e, he, hp⟩
    obtain ⟨hmem, hw⟩ := mem_filter.mp he
    have hw' : e.2 = w := of_decide_eq_true hw
    subst hw'
    exact ⟨e.1, hmem, hp⟩
  · intro ⟨source, hmem, hp⟩
    exact ⟨(source, w), mem_filter.mpr ⟨hmem, decide_eq_true rfl⟩, hp⟩

theorem mem_listEdges {ids : List String} {t : String} :
    (ids, t) ∈ g.listEdges ↔ (Source.list ids, t) ∈ g.edges ∧ t ∉ g.waits := by
  rw [listEdges, mem_filterMap]
  constructor
  · intro ⟨⟨source, target⟩, he, hpair⟩
    obtain ⟨hmem, hwait⟩ := mem_filter.mp he
    cases source with
    | node s => cases hpair
    | list ids' =>
      cases hpair
      exact ⟨hmem, of_decide_eq_true hwait⟩
  · intro ⟨hmem, hwait⟩
    exact ⟨_, mem_filter.mpr ⟨hmem, decide_eq_true hwait⟩, rfl⟩

theorem foldl_addNode (names : List String) (b : PregelBuilder) (hb : ∀ n, b.routers n = []) :
    (names.foldl PregelBuilder.addNode b).channels = b.channels ++ names.map triggerChannel ∧
      (∀ n, n ∈ (names.foldl PregelBuilder.addNode b).nodes.keys ↔ n ∈ b.nodes.keys ∨ n ∈ names) ∧
      ∀ n, (names.foldl PregelBuilder.addNode b).routers n = [] := by
  induction names generalizing b with
  | nil => exact ⟨(append_nil _).symm, fun n => by simp, hb⟩
  | cons name names ih =>
    have hname : ∀ n, (b.addNode name).routers n = [] := by
      intro n
      rw [PregelBuilder.routers, PregelBuilder.addNode, get?_set]
      by_cases hn : n = name
      · rw [if_pos hn]
        rfl
      · rw [if_neg hn]
        exact hb n
    obtain ⟨hchannels, hnodes, hrouters⟩ := ih (b.addNode name) hname
    refine ⟨?_, fun n => ?_, hrouters⟩
    · rw [foldl_cons, hchannels, PregelBuilder.addNode]
      simp
    · rw [foldl_cons, hnodes, PregelBuilder.addNode, mem_keys_set, mem_cons]
      tauto

theorem addEdge_extends {e : Source × String} (h : b.addEdge e.1 e.2 = some b') :
    PregelBuilder.Extends b b'
      (match e.1 with
        | .node _ => []
        | .list ids => [barrierChannel e.2 (singletons ids)])
      (match e.1 with
        | .node s => [(s, .static [e.2])]
        | .list ids => ids.map fun s => (s, .barrier [makeRouterKey e.2 (singletons ids)])) := by
  obtain ⟨source, target⟩ := e
  cases source with
  | node s => exact PregelBuilder.addRouter_extends h
  | list ids =>
    have hbarrier : PregelBuilder.Extends b b' [barrierChannel target (singletons ids)]
        ((singletons ids).flatten.map fun s =>
          (s, .barrier [makeRouterKey target (singletons ids)])) :=
      PregelBuilder.addBarrier_extends h
    have hflatten : (singletons ids).flatten = ids := by
      rw [singletons, ← flatMap_def]
      exact flatMap_singleton' ids
    rw [hflatten] at hbarrier
    exact hbarrier

theorem addConditions_extends {e : String × Dict String Branch}
    (h : e.2.keys.foldlM (fun b name => b.addRouter e.1 (.conditional name)) b = some b') :
    PregelBuilder.Extends b b' [] (e.2.keys.map fun name => (e.1, .conditional name)) := by
  have hfold := PregelBuilder.foldlM_extends
    (fun _ _ _ hstep => PregelBuilder.addRouter_extends hstep) h
  have hnil : (e.2.keys.flatMap fun _ => ([] : List Channel)) = [] := by simp
  rw [hnil, ← map_eq_flatMap] at hfold
  exact hfold

theorem nodes_addNode_new (names : List String) :
    (names.foldl PregelBuilder.addNode PregelBuilder.new).channels =
        (START :: END :: names).map triggerChannel ∧
      (∀ n, n ∈ (names.foldl PregelBuilder.addNode PregelBuilder.new).nodes.keys ↔
        n = START ∨ n = END ∨ n ∈ names) ∧
      ∀ n, (names.foldl PregelBuilder.addNode PregelBuilder.new).routers n = [] := by
  obtain ⟨hchannels, hnodes, hrouters⟩ :=
    foldl_addNode (START :: END :: names) ⟨Dict.empty, []⟩ fun _ => rfl
  refine ⟨hchannels, fun n => ?_, hrouters⟩
  apply (hnodes n).trans
  simp [Dict.empty, Dict.keys]

theorem channels_of_edges (edges : List (Source × String)) :
    (edges.flatMap fun e => match e.1 with
      | .node _ => []
      | .list ids => [barrierChannel e.2 (singletons ids)]) =
    (edges.filterMap fun e => match e.1 with
      | .node _ => none
      | .list ids => some (ids, e.2)).map fun e => barrierChannel e.2 (singletons e.1) := by
  induction edges with
  | nil => rfl
  | cons e edges ih =>
    obtain ⟨source, target⟩ := e
    rw [flatMap_cons, ih]
    cases source <;> rfl

theorem mem_routes_of_groups {n : String} {r : Router} :
    (n, r) ∈ (groups.flatMap fun e =>
        e.2.flatten.map fun s => (s, Router.barrier [makeRouterKey e.1 e.2])) ↔
      ∃ e ∈ groups, n ∈ e.2.flatten ∧ r = .barrier [makeRouterKey e.1 e.2] := by
  simp only [mem_flatMap, mem_map, Prod.mk.injEq]
  constructor
  · rintro ⟨e, he, s, hs, rfl, rfl⟩
    exact ⟨e, he, hs, rfl⟩
  · rintro ⟨e, he, hs, rfl⟩
    exact ⟨e, he, n, hs, rfl, rfl⟩

theorem mem_routes_of_edges {n : String} {r : Router} :
    (n, r) ∈ ((g.edges.filter fun e => e.2 ∉ g.waits).flatMap fun e => match e.1 with
        | .node s => [(s, Router.static [e.2])]
        | .list ids => ids.map fun s => (s, .barrier [makeRouterKey e.2 (singletons ids)])) ↔
      (∃ t, (Source.node n, t) ∈ g.edges ∧ t ∉ g.waits ∧ r = .static [t]) ∨
        ∃ e ∈ g.listEdges, n ∈ e.1 ∧ r = .barrier [makeRouterKey e.2 (singletons e.1)] := by
  rw [mem_flatMap]
  constructor
  · rintro ⟨⟨source, t⟩, he, hr⟩
    obtain ⟨hmem, hwait⟩ := mem_filter.mp he
    cases source with
    | node s =>
      obtain ⟨rfl, rfl⟩ := Prod.mk.inj (mem_singleton.mp hr)
      exact .inl ⟨t, hmem, of_decide_eq_true hwait, rfl⟩
    | list ids =>
      obtain ⟨s, hs, hpair⟩ := mem_map.mp hr
      obtain ⟨rfl, rfl⟩ := Prod.mk.inj hpair
      exact .inr ⟨(ids, t), mem_listEdges.mpr ⟨hmem, of_decide_eq_true hwait⟩, hs, rfl⟩
  · rintro (⟨t, hmem, hwait, rfl⟩ | ⟨⟨ids, t⟩, he, hs, rfl⟩)
    · exact ⟨_, mem_filter.mpr ⟨hmem, decide_eq_true hwait⟩, .head _⟩
    · obtain ⟨hmem, hwait⟩ := mem_listEdges.mp he
      exact ⟨_, mem_filter.mpr ⟨hmem, decide_eq_true hwait⟩, mem_map.mpr ⟨n, hs, rfl⟩⟩

theorem mem_routes_of_branches {n : String} {r : Router} :
    (n, r) ∈ (g.branches.entries.flatMap fun e =>
        e.2.keys.map fun name => (e.1, Router.conditional name)) ↔
      ∃ routers name, g.branches.get? n = some routers ∧ name ∈ routers.keys ∧
        r = .conditional name := by
  simp only [mem_flatMap, mem_map, Prod.mk.injEq]
  constructor
  · rintro ⟨e, he, name, hname, rfl, rfl⟩
    exact ⟨e.2, name, get?_eq_some_iff.mpr he, hname, rfl⟩
  · rintro ⟨routers, name, hget, hname, rfl⟩
    exact ⟨(n, routers), get?_eq_some_iff.mp hget, name, hname, rfl, rfl⟩

/-- **Compilation makes what the graph asks for.** -/
theorem compiledTo_of_compile (hgroups : g.barrierGroups = some groups)
    (h : g.compile = some c) : CompiledTo g groups c := by
  rw [compile, hgroups] at h
  obtain ⟨groups', hsame, h⟩ := Option.bind_eq_some_iff.mp h
  cases hsame
  obtain ⟨b, hbarriers, h⟩ := Option.bind_eq_some_iff.mp h
  obtain ⟨b', hedges, hconditions⟩ := Option.bind_eq_some_iff.mp h
  obtain ⟨hchannels, hnodes, hrouters⟩ := nodes_addNode_new g.nodes
  have hfirst := PregelBuilder.foldlM_extends
    (fun _ _ _ hstep => PregelBuilder.addBarrier_extends hstep) hbarriers
  have hsecond := PregelBuilder.foldlM_extends
    (fun _ _ _ hstep => addEdge_extends hstep) hedges
  have hthird := PregelBuilder.foldlM_extends
    (fun _ _ _ hstep => addConditions_extends hstep) hconditions
  have hall := (hfirst.trans hsecond).trans hthird
  refine ⟨hgroups, ?_, fun n => ?_, fun n r => ?_⟩
  · rw [hall.channels_eq, hchannels, channels_of_edges]
    simp [listEdges, map_eq_flatMap]
  · rw [hall.keys_eq]
    exact hnodes n
  · rw [hall.mem_routers, hrouters, mem_append, mem_append, mem_routes_of_groups,
      mem_routes_of_edges, mem_routes_of_branches]
    cases r with
    | static targets =>
      simp [Routes]
    | barrier targets =>
      simp [Routes]
    | conditional name =>
      simp [Routes]

private theorem get?_addSource (sources : Dict String (List (List String)))
    (e : Source × String) (w : String) :
    (if e.2 ∈ g.waits then
      sources.set e.2 ((sources.get? e.2).getD [] ++ e.1.ids.map fun s => [s])
    else sources).get? w =
      if e.2 ∈ g.waits ∧ w = e.2 then
        some ((sources.get? w).getD [] ++ e.1.ids.map fun s => [s])
      else sources.get? w := by
  by_cases hwait : e.2 ∈ g.waits
  · by_cases hw : w = e.2
    · subst hw
      rw [if_pos hwait, if_pos ⟨hwait, rfl⟩, get?_set, if_pos rfl]
    · rw [if_pos hwait, if_neg fun h => hw h.2, get?_set, if_neg hw]
  · rw [if_neg hwait, if_neg fun h => hwait h.1]

/-- The sources of a waiting node are its predecessors, each by itself. -/
theorem getD_sources {w : String} (hw : w ∈ g.waits) :
    (g.sources.get? w).getD [] = (g.predecessors w).map fun s => [s] := by
  have hfold : ∀ (edges : List (Source × String)) (sources : Dict String (List (List String))),
      ((edges.foldl (fun sources e =>
        if e.2 ∈ g.waits then
          sources.set e.2 ((sources.get? e.2).getD [] ++ e.1.ids.map fun s => [s])
        else sources) sources).get? w).getD [] =
      (sources.get? w).getD [] ++
        ((edges.filter fun e => e.2 = w).flatMap fun e => e.1.ids).map fun s => [s] := by
    intro edges
    induction edges with
    | nil => exact fun _ => (append_nil _).symm
    | cons e edges ih =>
      intro sources
      rw [foldl_cons, ih, get?_addSource]
      by_cases he : e.2 = w
      · subst he
        rw [if_pos ⟨hw, rfl⟩, filter_cons_of_pos (by simp)]
        simp
      · rw [if_neg fun h => he h.2.symm, filter_cons_of_neg (by simpa using he)]
  exact hfold g.edges Dict.empty

/-- The nodes with sources are the waiting ones with an edge. -/
theorem get?_sources_ne_none {w : String} :
    g.sources.get? w ≠ none ↔ w ∈ g.waits ∧ ∃ source, (source, w) ∈ g.edges := by
  have hfold : ∀ (edges : List (Source × String)) (sources : Dict String (List (List String))),
      (edges.foldl (fun sources e =>
        if e.2 ∈ g.waits then
          sources.set e.2 ((sources.get? e.2).getD [] ++ e.1.ids.map fun s => [s])
        else sources) sources).get? w ≠ none ↔
      sources.get? w ≠ none ∨ w ∈ g.waits ∧ ∃ source, (source, w) ∈ edges := by
    intro edges
    induction edges with
    | nil => simp
    | cons e edges ih =>
      intro sources
      obtain ⟨source, target⟩ := e
      rw [foldl_cons, ih, get?_addSource]
      by_cases he : target ∈ g.waits ∧ w = target
      · obtain ⟨hwait, rfl⟩ := he
        rw [if_pos ⟨hwait, rfl⟩]
        simp [hwait]
      · rw [if_neg he]
        simp only [mem_cons, Prod.mk.injEq]
        constructor
        · rintro (h | ⟨hw, source', h⟩)
          · exact .inl h
          · exact .inr ⟨hw, source', .inr h⟩
        · rintro (h | ⟨hw, source', ⟨-, rfl⟩ | h⟩)
          · exact .inl h
          · exact absurd ⟨hw, rfl⟩ he
          · exact .inr ⟨hw, source', h⟩
  apply (hfold g.edges Dict.empty).trans
  simp

private theorem mem_mapM {α β : Type} {f : α → Option β} {xs : List α} {ys : List β}
    (h : xs.mapM f = some ys) :
    (∀ y ∈ ys, ∃ x ∈ xs, f x = some y) ∧ ∀ x ∈ xs, ∃ y ∈ ys, f x = some y := by
  induction xs generalizing ys with
  | nil =>
    cases h
    simp
  | cons x xs ih =>
    rw [mapM_cons] at h
    obtain ⟨y, hy, h⟩ := Option.bind_eq_some_iff.mp h
    obtain ⟨rest, hrest, hsame⟩ := Option.bind_eq_some_iff.mp h
    cases hsame
    obtain ⟨hback, hforth⟩ := ih hrest
    constructor
    · intro z hz
      rcases mem_cons.mp hz with rfl | hz
      · exact ⟨x, .head _, hy⟩
      · obtain ⟨x', hx', hz'⟩ := hback z hz
        exact ⟨x', .tail _ hx', hz'⟩
    · intro z hz
      rcases mem_cons.mp hz with rfl | hz
      · exact ⟨y, .head _, hy⟩
      · obtain ⟨y', hy', hz'⟩ := hforth z hz
        exact ⟨y', .tail _ hy', hz'⟩

/-- **The groups of a waiting node are the classes of its predecessors.** -/
theorem classes_of_barrierGroups (h : g.barrierGroups = some groups) {w : String}
    {Gs : List (List String)} (hw : (w, Gs) ∈ groups) :
    w ∈ g.waits ∧ Classes g.Merged (g.predecessors w) Gs := by
  obtain ⟨⟨w', sourceList⟩, he, hgroups⟩ := (mem_mapM h).1 _ hw
  obtain ⟨Gs', hresolve, hpair⟩ := Option.map_eq_some_iff.mp hgroups
  obtain ⟨rfl, rfl⟩ := Prod.mk.inj hpair
  have hget : g.sources.get? w' = some sourceList := get?_eq_some_iff.mpr he
  have hwait : w' ∈ g.waits := by
    apply (get?_sources_ne_none.mp _).1
    rw [hget]
    exact Option.some_ne_none _
  have hsources := getD_sources hwait
  rw [hget, Option.getD_some] at hsources
  have hflatten : sourceList.flatten = g.predecessors w' := by
    rw [hsources, ← flatMap_def]
    exact flatMap_singleton' _
  refine ⟨hwait, ?_⟩
  rw [← hflatten]
  apply resolveBarrierGroups_classes _ hresolve
  intro G hG
  rw [hsources] at hG
  obtain ⟨s, -, rfl⟩ := mem_map.mp hG
  exact ⟨s, rfl⟩

theorem edge_of_barrierGroups (h : g.barrierGroups = some groups) {w : String}
    {Gs : List (List String)} (hw : (w, Gs) ∈ groups) : ∃ source, (source, w) ∈ g.edges := by
  obtain ⟨⟨w', sourceList⟩, he, hgroups⟩ := (mem_mapM h).1 _ hw
  obtain ⟨Gs', -, hpair⟩ := Option.map_eq_some_iff.mp hgroups
  obtain ⟨rfl, rfl⟩ := Prod.mk.inj hpair
  apply (get?_sources_ne_none.mp _).2
  rw [get?_eq_some_iff.mpr he]
  exact Option.some_ne_none _

theorem exists_groups (h : g.barrierGroups = some groups) {w : String} (hw : w ∈ g.waits)
    {source : Source} (hedge : (source, w) ∈ g.edges) : ∃ Gs, (w, Gs) ∈ groups := by
  obtain ⟨sourceList, hget⟩ :=
    Option.ne_none_iff_exists'.mp (get?_sources_ne_none.mpr ⟨hw, source, hedge⟩)
  obtain ⟨⟨w', Gs⟩, he, hgroups⟩ := (mem_mapM h).2 _ (get?_eq_some_iff.mp hget)
  obtain ⟨Gs', -, hpair⟩ := Option.map_eq_some_iff.mp hgroups
  obtain ⟨rfl, rfl⟩ := Prod.mk.inj hpair
  exact ⟨Gs', he⟩

end PregelGraph

end JiuwenSpec.Graph

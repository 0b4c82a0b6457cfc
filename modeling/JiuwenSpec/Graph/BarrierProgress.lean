import JiuwenSpec.Base.Digraph
import JiuwenSpec.Graph.BarrierExclusion

/-!
# Barriers that starve

A channel of a node that has not run holds all that was sent to it, so in a run that is over
every node that was triggered, or that heard from all its groups, has run. On an acyclic graph
the nodes that run are those that the graph activates exactly where, for every waiting node
with an activated predecessor, each group has an activated member. Groups are made without
the branches that do not register their targets, and of these the graph may activate one each.
-/

namespace JiuwenSpec.Graph

open Base LoopState PregelGraph List

variable {g : PregelGraph} {groups : List (String × List (List String))} {c : PregelBuilder}
  {choices : Choices} {outcomes : Outcomes} {trace : List (Finset String)} {s : LoopState}

/-! ### A node that has not run still holds what was sent to it -/

theorem holds_of_sent {msgs : List Message} {ch : Channel} {m : Message}
    (h : ch.gate.Holds m ∨ (ch.gate.Takes m ∧ m ∈ msgs)) (htarget : m.target = ch.key) :
    (ch.absorb (msgs.filter (·.target = ch.key))).gate.Holds m := by
  apply (Channel.holds_absorb _).mpr
  · apply h.imp id
    rintro ⟨htakes, hmem⟩
    exact ⟨htakes, mem_filter.mpr ⟨hmem, decide_eq_true htarget⟩⟩
  · intro _ m' hm' _
    rw [of_decide_eq_true (mem_filter.mp hm').2]
    exact htarget

theorem keys_of_settled (h : Settled c trace s) :
    s.manager.channels.map (·.key) = c.channels.map (·.key) := by
  have hkeys := congrArg (List.map Channel.key) h.shape
  rw [map_map, map_map] at hkeys
  exact hkeys

theorem holds_of_not_ran (hkeys : (c.channels.map (·.key)).Nodup)
    (h : RunsTo c choices trace s) :
    ∀ ch ∈ s.manager.channels, ¬ Ran trace ch.nodeName → ∀ m, Sent c choices trace m →
      m.target = ch.key → ch.gate.Takes m → ch.gate.Holds m := by
  apply (RunsTo.induction (P := fun trace s => ∀ ch ∈ s.manager.channels,
    ¬ Ran trace ch.nodeName → ∀ m, Sent c choices trace m → m.target = ch.key →
      ch.gate.Takes m → ch.gate.Holds m) _ _ h).2
  · intro s _ hchannels ch hch _ m hsent htarget htakes
    rw [hchannels, receive_eq_map hkeys] at hch
    obtain ⟨before, -, rfl⟩ := mem_map.mp hch
    rw [Channel.takes_absorb] at htakes
    rcases hsent with rfl | ⟨i, nodes, n, hi, -, -⟩
    · exact holds_of_sent (.inr ⟨htakes, .head _⟩) htarget
    · cases hi
  · intro trace s s' msgs hrun ih hadvances ch hch hran m hsent htarget htakes
    have hnodup : ((ChannelManager.consumed (s.active c.pregel) s.manager.channels).map
        (·.key)).Nodup := by
      have hsame : (ChannelManager.consumed (s.active c.pregel) s.manager.channels).map (·.key) =
          s.manager.channels.map (·.key) := by
        rw [ChannelManager.consumed, map_map]
        apply map_congr_left
        intro ch _
        show (if _ then ch.consume else ch).key = ch.key
        split <;> rfl
      rw [hsame, keys_of_settled hrun.settled]
      exact hkeys
    rw [hadvances.channels, receive_eq_map hnodup] at hch
    obtain ⟨entered, hentered, rfl⟩ := mem_map.mp hch
    obtain ⟨before, hbefore, rfl⟩ := mem_map.mp hentered
    rw [ran_concat, not_or, mem_toFinset] at hran
    have hkept : ¬ (before.nodeName ∈ s.active c.pregel ∧ before.isReady = true) := by
      rintro ⟨hactive, hready⟩
      rw [if_pos ⟨hactive, hready⟩] at hran
      exact hran.2 hactive
    rw [if_neg hkept] at hran htarget htakes ⊢
    rw [Channel.takes_absorb] at htakes
    apply holds_of_sent _ (show m.target = before.key from htarget)
    rcases sent_concat.mp hsent with hsent | ⟨n, hn, hm⟩
    · exact .inl (ih before hbefore hran.1 m hsent htarget htakes)
    · exact .inr ⟨htakes, (hadvances.mem_msgs m).mpr ⟨n, mem_toFinset.mp hn, hm⟩⟩

theorem exists_channel (h : Settled c trace s) {key nodeName : String} {gate : Gate}
    (hmem : ⟨key, nodeName, gate⟩ ∈ c.channels) :
    ∃ gate', ⟨key, nodeName, gate'⟩ ∈ s.manager.channels ∧ gate'.consume = gate.consume := by
  have hconsumed : Channel.consume ⟨key, nodeName, gate⟩ ∈
      s.manager.channels.map Channel.consume := by
    rw [h.shape]
    exact mem_map_of_mem hmem
  obtain ⟨⟨key', nodeName', gate'⟩, hch, hsame⟩ := mem_map.mp hconsumed
  obtain ⟨hkey, hname, hgate⟩ := Channel.mk.inj hsame
  have hkey' : key' = key := hkey
  have hname' : nodeName' = nodeName := hname
  subst hkey' hname'
  exact ⟨gate', hch, hgate⟩

/-- A run of a compiled graph, in which no two channels share a key, that is over. -/
structure Over (g : PregelGraph) (groups : List (String × List (List String)))
    (c : PregelBuilder) (choices : Choices) (trace : List (Finset String)) (s : LoopState) :
    Prop where
  compiled : CompiledTo g groups c
  keys : (c.channels.map (·.key)).Nodup
  runs : RunsTo c choices trace s
  idle : s.active c.pregel = []

namespace Over

theorem not_isReady (h : Over g groups c choices trace s) {ch : Channel}
    (hch : ch ∈ s.manager.channels) (hnode : ch.nodeName ∈ c.nodes.keys)
    (hend : ch.nodeName ≠ END) : ¬ ch.isReady = true := by
  intro hready
  have hsettled := h.runs.settled
  have hmem : ch.nodeName ∈ s.active c.pregel := by
    rw [active_of_no_retry hsettled.retry, mem_readyNodes]
    exact ⟨(hsettled.ready.mem_iff _).mpr (ChannelManager.anyReady_iff.mpr ⟨ch, hch, rfl, hready⟩),
      hnode, hend⟩
  rw [h.idle] at hmem
  cases hmem

theorem ran_of_triggered (h : Over g groups c choices trace s) {sender n : String}
    (hsent : Sent c choices trace (.trigger sender n)) (hn : n ∈ c.nodes.keys) (hend : n ≠ END) :
    Ran trace n := by
  by_contra hran
  have hmem : triggerChannel n ∈ c.channels :=
    (mem_channels_iff h.compiled).mpr (.inl ⟨n, (h.compiled.mem_nodes n).mp hn, rfl⟩)
  obtain ⟨gate, hch, hgate⟩ := exists_channel h.runs.settled hmem
  obtain ⟨messages, rfl⟩ := Gate.eq_of_consume_trigger hgate
  have hholds := holds_of_not_ran h.keys h.runs _ hch hran _ hsent rfl rfl
  apply h.not_isReady hch hn hend
  cases messages with
  | nil => cases hholds
  | cons m messages => rfl

theorem ran_of_heard (h : Over g groups c choices trace s) {n : String} {Gs : List (List String)}
    (hmem : barrierChannel n Gs ∈ c.channels) (hne : Gs ≠ [])
    (hheard : ∀ G ∈ Gs, ∃ q ∈ G, Sent c choices trace (.barrier q (makeRouterKey n Gs)))
    (hn : n ∈ c.nodes.keys) (hend : n ≠ END) : Ran trace n := by
  by_contra hran
  obtain ⟨gate, hch, hgate⟩ := exists_channel h.runs.settled hmem
  obtain ⟨received, rfl⟩ := Gate.eq_of_consume_barrier hgate
  have hreceived : ∀ G ∈ Gs, ∃ q ∈ G, q ∈ received := by
    intro G hG
    obtain ⟨q, hq, hsent⟩ := hheard G hG
    exact ⟨q, hq, holds_of_not_ran h.keys h.runs _ hch hran _ hsent rfl rfl⟩
  apply h.not_isReady hch hn hend
  apply (Gate.isReady_iff _).mpr
  refine ⟨?_, hreceived⟩
  obtain ⟨G, hG⟩ := exists_mem_of_ne_nil Gs hne
  obtain ⟨q, -, hq⟩ := hreceived G hG
  exact Finset.ne_empty_of_mem hq

end Over

theorem sent_of_ran {n : String} (h : Ran trace n) {r : Router} (hr : r ∈ c.routers n)
    {m : Message} (hm : m ∈ r.dispatch outcomes n) : Sent c (fun _ => outcomes) trace m := by
  obtain ⟨nodes, hmem, hn⟩ := h
  obtain ⟨i, hi⟩ := mem_iff_getElem?.mp hmem
  exact .inr ⟨i, nodes, n, hi, hn, mem_flatMap.mpr ⟨r, hr, hm⟩⟩

namespace PregelGraph

/-- What a router of a node returns under these outcomes. -/
def Outcome (g : PregelGraph) (outcomes : Outcomes) (n name t : String) : Prop :=
  (∃ routers, g.branches.get? n = some routers ∧ name ∈ routers.keys) ∧ t ∈ outcomes n name

/-- One node comes before another, by an edge or by what a router returns. -/
def Precedes (g : PregelGraph) (outcomes : Outcomes) (x y : String) : Prop :=
  x ∈ g.predecessors y ∨ ∃ name, g.Outcome outcomes x name y

theorem Activated.mono {returns returns' : String → String → String → Prop}
    (hle : ∀ n name t, returns n name t → returns' n name t) {n : String}
    (h : g.Activated returns n) : g.Activated returns' n := by
  induction h with
  | start => exact .start
  | edge _ hedge hwait ht ih => exact .edge ih hedge hwait ht
  | list _ hedge ht ih => exact .list ih hedge ht
  | router _ hreturns ht ih => exact .router ih (hle _ _ _ hreturns) ht
  | waiting _ hpred hwait hw ih => exact .waiting ih hpred hwait hw

end PregelGraph

namespace Over

theorem ran_start (h : Over g groups c choices trace s) : Ran trace START := by
  apply h.ran_of_triggered (.inl rfl) ((h.compiled.mem_nodes START).mpr (.inl rfl))
  decide

theorem declared {n : String} (h : Over g groups c choices trace s) (hn : g.Runs n) :
    n ∈ c.nodes.keys := (h.compiled.mem_nodes n).mpr (.inr (.inr hn.1))

theorem ran_edge (h : Over g groups c (fun _ => outcomes) trace s) {n t : String}
    (hn : Ran trace n) (hedge : (Source.node n, t) ∈ g.edges) (hwait : t ∉ g.waits)
    (ht : g.Runs t) : Ran trace t := by
  have hrouter : Router.static [t] ∈ c.routers n :=
    (h.compiled.mem_routers n _).mpr ⟨t, hedge, hwait, rfl⟩
  exact h.ran_of_triggered (sent_of_ran hn hrouter (.head _)) (h.declared ht) ht.2

theorem ran_router (h : Over g groups c (fun _ => outcomes) trace s) {n name t : String}
    (hn : Ran trace n) (hreturns : g.Outcome outcomes n name t) (ht : g.Runs t) :
    Ran trace t := by
  have hrouter : Router.conditional name ∈ c.routers n :=
    (h.compiled.mem_routers n _).mpr hreturns.1
  exact h.ran_of_triggered (sent_of_ran hn hrouter (mem_map_of_mem hreturns.2))
    (h.declared ht) ht.2

theorem ran_list (h : Over g groups c (fun _ => outcomes) trace s) (hg : g.Built)
    {ids : List String} {t : String} (hids : ∀ n ∈ ids, Ran trace n)
    (hedge : (ids, t) ∈ g.listEdges) (ht : g.Runs t) : Ran trace t := by
  have hne : singletons ids ≠ [] := by
    intro hnil
    exact hg.ids_ne_nil _ (mem_listEdges.mp hedge).1 (map_eq_nil_iff.mp hnil)
  apply h.ran_of_heard ((mem_channels_iff h.compiled).mpr (.inr (.inr ⟨_, hedge, rfl⟩))) hne _
    (h.declared ht) ht.2
  intro G hG
  obtain ⟨q, hq, rfl⟩ := mem_map.mp hG
  have hrouter : Router.barrier [makeRouterKey t (singletons ids)] ∈ c.routers q :=
    (h.compiled.mem_routers q _).mpr (.inr ⟨_, hedge, hq, rfl⟩)
  exact ⟨q, .head _, sent_of_ran (hids q hq) hrouter (.head _)⟩

theorem ran_waiting (h : Over g groups c (fun _ => outcomes) trace s) (hg : g.Built) {w : String}
    {Gs : List (List String)} (hw : (w, Gs) ∈ groups)
    (hheard : ∀ G ∈ Gs, ∃ q ∈ G, Ran trace q) (hruns : g.Runs w) : Ran trace w := by
  have hne : Gs ≠ [] := by
    obtain ⟨p, hp⟩ := exists_predecessor hg h.compiled.groups_eq hw
    obtain ⟨G, hG, -⟩ := (classes_of_barrierGroups h.compiled.groups_eq hw).2.covers p hp
    exact ne_nil_of_mem hG
  apply h.ran_of_heard ((mem_channels_iff h.compiled).mpr (.inr (.inl ⟨_, hw, rfl⟩))) hne _
    (h.declared hruns) hruns.2
  intro G hG
  obtain ⟨q, hq, hran⟩ := hheard G hG
  have hrouter : Router.barrier [makeRouterKey w Gs] ∈ c.routers q :=
    (h.compiled.mem_routers q _).mpr (.inl ⟨_, hw, mem_flatten_of_mem hG hq, rfl⟩)
  exact ⟨q, hq, sent_of_ran hran hrouter (.head _)⟩

end Over

/-- A waiting node that a predecessor reaches in the run is heard from in each group, and
runs. -/
structure Progresses (g : PregelGraph) (trace : List (Finset String)) (w : String)
    (Gs : List (List String)) : Prop where
  heard : ∀ G ∈ Gs, ∃ q ∈ G, Ran trace q
  ran : Ran trace w

def PregelGraph.Covered (g : PregelGraph) (outcomes : Outcomes) (w : String) : Prop :=
  ∀ p ∈ g.predecessors w, ∃ q ∈ g.predecessors w,
    g.Merged p q ∧ g.Activated (g.Outcome outcomes) q

theorem PregelGraph.Built.waits_subset (hg : g.Built) : ∀ w ∈ g.waits, w ∈ g.nodes := by
  induction hg with
  | new => exact nofun
  | @node g g' nodeId waitForAll _ hg' ih =>
    rw [addNode] at hg'
    split at hg'
    · cases hg'
    · cases hg'
      intro w hw
      apply mem_append.mpr
      cases waitForAll with
      | false => exact .inl (ih w hw)
      | true => exact (mem_append.mp hw).imp (ih w) id
  | edge _ hg' ih =>
    rw [addEdge] at hg'
    split at hg'
    · cases hg'
    · cases hg'
      exact ih
  | conditional _ hg' ih =>
    rw [addConditionalEdges] at hg'
    split at hg'
    · cases hg'
    · cases hg'
      exact ih
  | targets branchNodeId targets _ ih =>
    rw [registerBranchTargets]
    split
    · exact ih
    · exact ih

namespace Over

theorem ran_of_covered (h : Over g groups c (fun _ => outcomes) trace s) (hg : g.Built)
    (hacyclic : Acyclic (g.Precedes outcomes))
    (hcovered : ∀ w ∈ g.waits, w ≠ END →
      (∃ p ∈ g.predecessors w, g.Activated (g.Outcome outcomes) p) → g.Covered outcomes w)
    {n : String} (hn : g.Activated (g.Outcome outcomes) n) : Ran trace n := by
  classical
  by_contra hnot
  -- a first activated node that did not run: all that precede it and are activated ran
  let missing : Finset String := ((START :: g.nodes).toFinset).filter fun n =>
    g.Activated (g.Outcome outcomes) n ∧ ¬ Ran trace n
  have hmissing : ∀ m, m ∈ missing ↔ g.Activated (g.Outcome outcomes) m ∧ ¬ Ran trace m := by
    intro m
    rw [Finset.mem_filter, mem_toFinset]
    refine ⟨And.right, fun hm => ⟨?_, hm⟩⟩
    cases hm.1 with
    | start => exact .head _
    | edge _ _ _ ht => exact .tail _ ht.1
    | list _ _ ht => exact .tail _ ht.1
    | router _ _ ht => exact .tail _ ht.1
    | waiting _ _ _ hw => exact .tail _ hw.1
  have hreverse : Acyclic fun x y => g.Precedes outcomes y x := by
    intro x hx
    exact hacyclic x (Relation.transGen_swap.mp hx)
  obtain ⟨m, hm, hfirst⟩ := hreverse.exists_sink ⟨n, (hmissing n).mpr ⟨hn, hnot⟩⟩
  obtain ⟨hactivated, hran⟩ := (hmissing m).mp hm
  have hbefore : ∀ q, g.Precedes outcomes q m → g.Activated (g.Outcome outcomes) q →
      Ran trace q := by
    intro q hprecedes hq
    by_contra hnot
    exact hfirst q ((hmissing q).mpr ⟨hq, hnot⟩) hprecedes
  apply hran
  cases hactivated with
  | start => exact h.ran_start
  | edge hn hedge hwait ht =>
    have hpred := mem_predecessors.mpr ⟨_, hedge, .head _⟩
    exact h.ran_edge (hbefore _ (.inl hpred) hn) hedge hwait ht
  | list hids hedge ht =>
    refine h.ran_list hg (fun q hq => hbefore q (.inl ?_) (hids q hq)) hedge ht
    exact mem_predecessors.mpr ⟨_, (mem_listEdges.mp hedge).1, hq⟩
  | router hn hreturns ht =>
    exact h.ran_router (hbefore _ (.inr ⟨_, hreturns⟩) hn) hreturns ht
  | waiting hp hpred hwait hw =>
    obtain ⟨source, hedge, -⟩ := mem_predecessors.mp hpred
    obtain ⟨Gs, hGs⟩ := exists_groups h.compiled.groups_eq hwait hedge
    refine h.ran_waiting hg hGs (fun G hG => ?_) hw
    obtain ⟨r, hr, hclass⟩ := (classes_of_barrierGroups h.compiled.groups_eq hGs).2.isClass G hG
    obtain ⟨q, hq, hmerged, hactivated⟩ := hcovered m hwait hw.2 ⟨_, hpred, hp⟩ r hr
    exact ⟨q, (hclass q).mpr ⟨hq, hmerged⟩, hbefore q (.inl hq) hactivated⟩

theorem ran_of_progresses (h : Over g groups c (fun _ => outcomes) trace s) (hg : g.Built)
    (hprogress : ∀ w Gs, (w, Gs) ∈ groups → w ≠ END →
      (∃ p ∈ g.predecessors w, Ran trace p) → Progresses g trace w Gs)
    {n : String} (hn : g.Activated (g.Outcome outcomes) n) : Ran trace n := by
  induction hn with
  | start => exact h.ran_start
  | edge _ hedge hwait ht ih => exact h.ran_edge ih hedge hwait ht
  | list _ hedge ht ih => exact h.ran_list hg ih hedge ht
  | router _ hreturns ht ih => exact h.ran_router ih hreturns ht
  | waiting _ hpred hwait hw ih =>
    obtain ⟨source, hedge, -⟩ := mem_predecessors.mp hpred
    obtain ⟨Gs, hGs⟩ := exists_groups h.compiled.groups_eq hwait hedge
    exact (hprogress _ Gs hGs hw.2 ⟨_, hpred, ih⟩).ran

end Over

/-- **When barriers do not starve.** In a run on an acyclic graph that is over, each waiting
node with a predecessor that ran is heard from in every group and runs, exactly where each
waiting node with an activated predecessor has one in every group. -/
theorem barriers_progress_iff (hg : g.Built) (hgroups : g.barrierGroups = some groups)
    (hcompile : g.compile = some c) (hkeys : (c.channels.map (·.key)).Nodup)
    (hacyclic : Acyclic (g.Precedes outcomes)) (h : RunsTo c (fun _ => outcomes) trace s)
    (hidle : s.active c.pregel = []) :
    (∀ w Gs, (w, Gs) ∈ groups → w ≠ END → (∃ p ∈ g.predecessors w, Ran trace p) →
        Progresses g trace w Gs) ↔
      ∀ w ∈ g.waits, w ≠ END →
        (∃ p ∈ g.predecessors w, g.Activated (g.Outcome outcomes) p) → g.Covered outcomes w := by
  have hover : Over g groups c (fun _ => outcomes) trace s :=
    ⟨compiledTo_of_compile hgroups hcompile, hkeys, h, hidle⟩
  have hactivated : ∀ n, Ran trace n → g.Activated (g.Outcome outcomes) n := by
    intro n hn
    apply (activated_of_ran hg hover.compiled h hn).mono
    rintro n name t ⟨hrouter, i, nodes, -, -, ht⟩
    exact ⟨hrouter, ht⟩
  constructor
  · intro hprogress w hwait hend hp p' hp'
    obtain ⟨p, hpred, hp⟩ := hp
    have hran := hover.ran_of_progresses hg hprogress hp
    obtain ⟨source, hedge, -⟩ := mem_predecessors.mp hpred
    obtain ⟨Gs, hGs⟩ := exists_groups hgroups hwait hedge
    obtain ⟨G, hG, hmem⟩ := (classes_of_barrierGroups hgroups hGs).2.covers p' hp'
    obtain ⟨q, hq, hran⟩ := (hprogress w Gs hGs hend ⟨p, hpred, hran⟩).heard G hG
    obtain ⟨-, hpred', hmerged⟩ := merged_of_mem_group hgroups hGs hG hmem hq
    exact ⟨q, hpred', hmerged, hactivated q hran⟩
  · intro hcovered w Gs hGs hend hp
    obtain ⟨p, hpred, hran⟩ := hp
    obtain ⟨hwait, hclasses⟩ := classes_of_barrierGroups hgroups hGs
    have hheard : ∀ G ∈ Gs, ∃ q ∈ G, Ran trace q := by
      intro G hG
      obtain ⟨r, hr, hclass⟩ := hclasses.isClass G hG
      obtain ⟨q, hq, hmerged, hq'⟩ := hcovered w hwait hend ⟨p, hpred, hactivated p hran⟩ r hr
      exact ⟨q, (hclass q).mpr ⟨hq, hmerged⟩, hover.ran_of_covered hg hacyclic hcovered hq'⟩
    exact ⟨hheard, hover.ran_waiting hg hGs hheard ⟨hg.waits_subset w hwait, hend⟩⟩

/-- Both targets lead to `last`, and `right` also leads to `join` at once. -/
def sharedGraph : Option PregelGraph :=
  branchGraph [("choose", false), ("left", false), ("right", false), ("last", false),
      ("join", true)]
    [(.list [START], "choose"), (.node "left", "last"), (.node "right", "last"),
      (.node "right", "join"), (.node "last", "join")]

def distance (n : String) : Nat :=
  if n = START then 0 else if n = "choose" then 1 else if n = "last" then 3
    else if n = "join" then 4 else 2

theorem branchGraph_acyclic {nodes : List (String × Bool)} {edges : List (Source × String)}
    (h : branchGraph nodes edges = some g)
    (hedges : ∀ e ∈ g.edges, ∀ x ∈ e.1.ids, distance x < distance e.2) :
    Acyclic (g.Precedes goLeft) := by
  apply acyclic_of_rank distance
  rintro x y (hpred | ⟨name, ⟨routers, hbranch, -⟩, hy⟩)
  · obtain ⟨source, hedge, hx⟩ := mem_predecessors.mp hpred
    exact hedges _ hedge x hx
  · rw [(branchGraph_branches h hbranch).1, mem_singleton.mp hy]
    decide

/-- `join` waits for `right` for ever, although `last` has run. -/
theorem barriers_starve :
    ¬ ∀ (g : PregelGraph) (groups : List (String × List (List String))) (c : PregelBuilder)
        (outcomes : Outcomes) (trace : List (Finset String)) (s : LoopState),
      g.Built → g.barrierGroups = some groups → g.compile = some c →
        (g.Admits fun _ => outcomes) → Acyclic (g.Precedes outcomes) →
        RunsTo c (fun _ => outcomes) trace s → s.active c.pregel = [] →
        ∀ w Gs, (w, Gs) ∈ groups → w ≠ END → (∃ p ∈ g.predecessors w, Ran trace p) →
          Progresses g trace w Gs := by
  intro h
  obtain ⟨g, c, s, hg, hcompile, hrun, hidle⟩ := @goLeft_run sharedGraph 4
    [[START], ["choose"], ["left"], ["last"]] [] (by decide)
  have hgroups : sharedGraph.bind (·.barrierGroups) = some [("join", [["right"], ["last"]])] := by
    decide
  have hedges : ∀ g ∈ sharedGraph, ∀ e ∈ g.edges, ∀ x ∈ e.1.ids,
      distance x < distance e.2 := by
    decide
  have hpred : ∀ g ∈ sharedGraph, "last" ∈ g.predecessors "join" := by
    decide
  rw [hg] at hgroups
  have hprogress := h g _ c goLeft _ s (branchGraph_built hg) hgroups hcompile
    (goLeft_admitted hg) (branchGraph_acyclic hg (hedges g hg)) hrun hidle "join" _
    (.head _) (by decide) ⟨"last", hpred g hg, {"last"}, by decide, by decide⟩
  obtain ⟨nodes, hmem, hjoin⟩ := hprogress.ran
  revert hjoin
  revert nodes
  decide

/-- Where each predecessor is a target of its own, no outcome starves the node. -/
theorem diamond_progresses :
    ∃ g c s, diamondGraph = some g ∧ g.compile = some c ∧
      RunsTo c (fun _ => goLeft) ([[START], ["choose"], ["left"], ["join"]].map List.toFinset) s ∧
        ((∀ w Gs, (w, Gs) ∈ [("join", [["left", "right"]])] → w ≠ END →
            (∃ p ∈ g.predecessors w,
              Ran ([[START], ["choose"], ["left"], ["join"]].map List.toFinset) p) →
            Progresses g ([[START], ["choose"], ["left"], ["join"]].map List.toFinset) w Gs) ↔
          ∀ w ∈ g.waits, w ≠ END →
            (∃ p ∈ g.predecessors w, g.Activated (g.Outcome goLeft) p) →
              g.Covered goLeft w) := by
  obtain ⟨g, c, s, hg, hcompile, hrun, hidle⟩ := @goLeft_run diamondGraph 4
    [[START], ["choose"], ["left"], ["join"]] [] (by decide)
  have hgroups : diamondGraph.bind (·.barrierGroups) = some [("join", [["left", "right"]])] := by
    decide
  have hedges : ∀ g ∈ diamondGraph, ∀ e ∈ g.edges, ∀ x ∈ e.1.ids,
      distance x < distance e.2 := by
    decide
  have hkeys : ∀ g ∈ diamondGraph, ∀ c ∈ g.compile, (c.channels.map (·.key)).Nodup := by
    decide
  rw [hg] at hgroups
  exact ⟨g, c, s, hg, hcompile, hrun, barriers_progress_iff (branchGraph_built hg) hgroups hcompile
    (hkeys g hg c hcompile) (branchGraph_acyclic hg (hedges g hg)) hrun hidle⟩

end JiuwenSpec.Graph

import JiuwenSpec.Graph.PlainRuns

/-!
# Why the nodes of a compiled graph run

What the channels hold has been sent, so a node runs only where the graph gives it a reason:
a message from an edge or a router, a member of every group of its barrier, or all sources of
an edge from a list.
-/

namespace JiuwenSpec.Graph

open Base LoopState PregelGraph List

variable {g : PregelGraph} {groups : List (String × List (List String))} {c : PregelBuilder}
  {choices : Choices} {trace : List (Finset String)} {s : LoopState}

inductive ChannelOf (g : PregelGraph) (groups : List (String × List (List String))) :
    Channel → Prop
  | trigger {n : String} {messages : List Message} (hn : n = START ∨ n = END ∨ n ∈ g.nodes) :
      ChannelOf g groups ⟨n, n, .trigger messages⟩
  | waiting {w : String} {Gs : List (List String)} {received : Finset String}
      (hw : (w, Gs) ∈ groups) :
      ChannelOf g groups ⟨makeRouterKey w Gs, w, .barrier Gs received⟩
  | list {t : String} {ids : List String} {received : Finset String}
      (ht : (ids, t) ∈ g.listEdges) :
      ChannelOf g groups
        ⟨makeRouterKey t (singletons ids), t, .barrier (singletons ids) received⟩

theorem Gate.eq_of_consume_trigger {gate : Gate} {messages : List Message}
    (h : gate.consume = .trigger messages) : ∃ ms, gate = .trigger ms := by
  cases gate with
  | trigger ms => exact ⟨ms, rfl⟩
  | barrier groups received => cases h

theorem Gate.eq_of_consume_barrier {gate : Gate} {Gs : List (List String)}
    {received : Finset String} (h : gate.consume = .barrier Gs received) :
    ∃ received', gate = .barrier Gs received' := by
  cases gate with
  | trigger ms => cases h
  | barrier groups received' =>
    obtain rfl := (Gate.barrier.inj h).1
    exact ⟨received', rfl⟩

theorem mem_channels_iff (hc : CompiledTo g groups c) {ch : Channel} :
    ch ∈ c.channels ↔
      (∃ n, (n = START ∨ n = END ∨ n ∈ g.nodes) ∧ ch = triggerChannel n) ∨
        (∃ e ∈ groups, ch = barrierChannel e.1 e.2) ∨
          ∃ e ∈ g.listEdges, ch = barrierChannel e.2 (singletons e.1) := by
  rw [hc.channels_eq, mem_append, mem_append, or_assoc, mem_map, mem_map,
    mem_map]
  simp only [mem_cons, eq_comm]

theorem channelOf_of_mem (hc : CompiledTo g groups c) (h : Settled c trace s) {ch : Channel}
    (hch : ch ∈ s.manager.channels) : ChannelOf g groups ch := by
  have hmem : ch.consume ∈ c.channels.map Channel.consume := by
    rw [← h.shape]
    exact mem_map_of_mem hch
  obtain ⟨original, horiginal, hsame⟩ := mem_map.mp hmem
  obtain ⟨key, nodeName, gate⟩ := ch
  rcases (mem_channels_iff hc).mp horiginal with ⟨n, hn, rfl⟩ | ⟨e, he, rfl⟩ | ⟨e, he, rfl⟩
  · obtain ⟨rfl, rfl, hgate⟩ := Channel.mk.inj hsame
    obtain ⟨ms, rfl⟩ := Gate.eq_of_consume_trigger hgate.symm
    exact .trigger hn
  · obtain ⟨rfl, rfl, hgate⟩ := Channel.mk.inj hsame
    obtain ⟨received, rfl⟩ := Gate.eq_of_consume_barrier hgate.symm
    exact .waiting he
  · obtain ⟨rfl, rfl, hgate⟩ := Channel.mk.inj hsame
    obtain ⟨received, rfl⟩ := Gate.eq_of_consume_barrier hgate.symm
    exact .list he

theorem not_holds_of_mem (hc : CompiledTo g groups c) {ch : Channel} (hch : ch ∈ c.channels)
    (m : Message) : ¬ ch.gate.Holds m := by
  rcases (mem_channels_iff hc).mp hch with ⟨n, -, rfl⟩ | ⟨e, -, rfl⟩ | ⟨e, -, rfl⟩
  · exact not_mem_nil
  · exact Gate.not_holds_consume (barrierChannel e.1 e.2).gate m
  · exact Gate.not_holds_consume (barrierChannel e.2 (singletons e.1)).gate m

theorem holds_of_receive {msgs : List Message} {cs : List Channel} {ch : Channel}
    (hch : ch ∈ receive msgs cs) {m : Message} (hm : ch.gate.Holds m)
    (htarget : ch.gate.Takes m → m.isTrigger = false → m.target = ch.key) :
    ∃ ch' ∈ cs, ch'.key = ch.key ∧ (ch'.gate.Takes m ↔ ch.gate.Takes m) ∧
      (ch'.gate.Holds m ∨ (ch.gate.Takes m ∧ m ∈ msgs ∧ m.target = ch.key)) := by
  obtain ⟨ch', hmem, rfl | rfl⟩ := mem_receive hch
  · exact ⟨ch, hmem, rfl, Iff.rfl, .inl hm⟩
  · have htakes := Channel.takes_absorb ch' (msgs.filter (·.target = ch'.key)) m
    refine ⟨ch', hmem, rfl, htakes.symm, ?_⟩
    have hkeys : ch'.gate.Takes m → ∀ m' ∈ msgs.filter (fun m => decide (m.target = ch'.key)),
        m.isTrigger = false → m.target = m'.target := by
      intro htake m' hm' hbarrier
      rw [of_decide_eq_true (mem_filter.mp hm').2]
      exact htarget (htakes.mpr htake) hbarrier
    apply ((Channel.holds_absorb hkeys).mp hm).imp id
    rintro ⟨htake, hmem⟩
    obtain ⟨hmsgs, hkey⟩ := mem_filter.mp hmem
    exact ⟨htakes.mpr htake, hmsgs, of_decide_eq_true hkey⟩

theorem sent_of_holds (hc : CompiledTo g groups c) (h : RunsTo c choices trace s) :
    ∀ ch ∈ s.manager.channels, ∀ m, ch.gate.Holds m →
      (ch.gate.Takes m → m.isTrigger = false → m.target = ch.key) →
        Sent c choices trace m ∧ m.target = ch.key ∧ ch.gate.Takes m := by
  apply (RunsTo.induction (P := fun trace s => ∀ ch ∈ s.manager.channels, ∀ m,
    ch.gate.Holds m → (ch.gate.Takes m → m.isTrigger = false → m.target = ch.key) →
      Sent c choices trace m ∧ m.target = ch.key ∧ ch.gate.Takes m) _ _ h).2
  · intro s _ hchannels ch hch m hm htarget
    rw [hchannels] at hch
    obtain ⟨ch', hmem, -, -, hold | ⟨htake, hmsg, hkey⟩⟩ := holds_of_receive hch hm htarget
    · exact absurd hold (not_holds_of_mem hc hmem m)
    · exact ⟨.inl (mem_singleton.mp hmsg), hkey, htake⟩
  · intro trace s s' msgs _ ih hadvances ch hch m hm htarget
    rw [hadvances.channels] at hch
    obtain ⟨ch', hmem, hkey, htakes, hold | ⟨htake, hmsg, htarget'⟩⟩ := holds_of_receive hch hm htarget
    · obtain ⟨before, hbefore, rfl⟩ := mem_map.mp hmem
      by_cases hconsumed : before.nodeName ∈ s.active c.pregel ∧ before.isReady = true
      · rw [if_pos hconsumed] at hold
        exact absurd hold (Gate.not_holds_consume _ m)
      · rw [if_neg hconsumed] at hold hkey htakes
        rw [← hkey, ← htakes] at htarget
        obtain ⟨hsent, hsame, htake⟩ := ih before hbefore m hold htarget
        exact ⟨sent_concat.mpr (.inl hsent), hsame.trans hkey, htakes.mp htake⟩
    · obtain ⟨n, hn, hrouted⟩ := (hadvances.mem_msgs m).mp hmsg
      exact ⟨sent_concat.mpr (.inr ⟨n, mem_toFinset.mpr hn, hrouted⟩), htarget', htake⟩

theorem ran_of_sent_barrier {sender target : String}
    (h : Sent c choices trace (.barrier sender target)) : Ran trace sender := by
  rcases h with hstart | ⟨i, nodes, n, hi, hn, hm⟩
  · cases hstart
  · obtain ⟨r, -, hr⟩ := mem_flatMap.mp hm
    have hsender : n = sender := by
      cases r with
      | static targets =>
        obtain ⟨t, -, ht⟩ := mem_map.mp hr
        cases ht
      | barrier targets =>
        obtain ⟨t, -, ht⟩ := mem_map.mp hr
        exact (Message.barrier.inj ht).1
      | conditional name =>
        obtain ⟨t, -, ht⟩ := mem_map.mp hr
        cases ht
    subst hsender
    exact ⟨nodes, mem_of_getElem? hi, hn⟩

/-- What a router of a node returned when the node ran. -/
def Returned (g : PregelGraph) (choices : Choices) (trace : List (Finset String))
    (n name t : String) : Prop :=
  (∃ routers, g.branches.get? n = some routers ∧ name ∈ routers.keys) ∧
    ∃ i nodes, (trace)[i]? = some nodes ∧ n ∈ nodes ∧ t ∈ choices i n name

/-- What triggers a node: the start, an edge from a single node, or a router. -/
inductive Triggers (g : PregelGraph) (choices : Choices) (trace : List (Finset String)) :
    String → Prop
  | start : Triggers g choices trace START
  | edge {n t : String} (hn : Ran trace n) (hedge : (Source.node n, t) ∈ g.edges)
      (hwait : t ∉ g.waits) : Triggers g choices trace t
  | router {n name t : String} (hreturned : Returned g choices trace n name t) :
      Triggers g choices trace t

theorem triggers_of_sent (hc : CompiledTo g groups c) {sender target : String}
    (h : Sent c choices trace (.trigger sender target)) : Triggers g choices trace target := by
  rcases h with hstart | ⟨i, nodes, n, hi, hn, hm⟩
  · obtain ⟨-, rfl⟩ := Message.trigger.inj hstart
    exact .start
  · obtain ⟨r, hmem, hr⟩ := mem_flatMap.mp hm
    have hroutes := (hc.mem_routers n r).mp hmem
    cases r with
    | static targets =>
      obtain ⟨t, hedge, hwait, rfl⟩ := hroutes
      obtain ⟨t', ht', hpair⟩ := mem_map.mp hr
      obtain rfl := mem_singleton.mp ht'
      obtain ⟨-, rfl⟩ := Message.trigger.inj hpair
      exact .edge ⟨nodes, mem_of_getElem? hi, hn⟩ hedge hwait
    | barrier targets =>
      obtain ⟨t, -, ht⟩ := mem_map.mp hr
      cases ht
    | conditional name =>
      obtain ⟨t, ht, hpair⟩ := mem_map.mp hr
      obtain ⟨-, rfl⟩ := Message.trigger.inj hpair
      exact .router ⟨hroutes, i, nodes, hi, hn, ht⟩

/-- Why a node runs: it was triggered, or every group of its barrier has been heard from, or
every source of an edge from a list. -/
inductive Reason (g : PregelGraph) (groups : List (String × List (List String)))
    (choices : Choices) (before : List (Finset String)) (n : String) : Prop
  | triggered (h : Triggers g choices before n)
  | heard {Gs : List (List String)} (hw : (n, Gs) ∈ groups)
      (h : ∀ G ∈ Gs, ∃ q ∈ G, Ran before q)
  | gathered {ids : List String} (ht : (ids, n) ∈ g.listEdges) (h : ∀ q ∈ ids, Ran before q)

theorem reason_of_active (hc : CompiledTo g groups c) (h : RunsTo c choices trace s) {n : String}
    (hn : n ∈ s.active c.pregel) : Reason g groups choices trace n := by
  have hsettled := h.settled
  rw [active_of_no_retry hsettled.retry, mem_readyNodes] at hn
  obtain ⟨ch, hch, hname, hready⟩ :=
    ChannelManager.anyReady_iff.mp ((hsettled.ready.mem_iff n).mp hn.1)
  have hheard : ∀ Gs received, ch.gate = .barrier Gs received →
      ∀ G ∈ Gs, ∃ q ∈ G, Ran trace q := by
    intro Gs received hgate G hG
    have hcontents := (Gate.isReady_iff ch.gate).mp hready
    rw [hgate] at hcontents
    obtain ⟨q, hq, hreceived⟩ := hcontents.2 G hG
    have hholds : ch.gate.Holds (.barrier q ch.key) := by
      rw [hgate]
      exact hreceived
    exact ⟨q, hq, ran_of_sent_barrier (sent_of_holds hc h ch hch _ hholds fun _ _ => rfl).1⟩
  cases channelOf_of_mem hc hsettled hch with
  | @trigger n' messages hn' =>
    obtain rfl : n' = n := hname
    have hne : messages ≠ [] := by
      intro hnil
      rw [hnil] at hready
      cases hready
    obtain ⟨m, hm⟩ := exists_mem_of_ne_nil messages hne
    obtain ⟨hsent, htarget, htakes⟩ := sent_of_holds hc h _ hch m hm fun htakes hbarrier => by
      rw [show m.isTrigger = true from htakes] at hbarrier
      cases hbarrier
    cases m with
    | trigger sender target =>
      obtain rfl : target = n' := htarget
      exact .triggered (triggers_of_sent hc hsent)
    | barrier sender target => cases htakes
  | @waiting w Gs received hw =>
    obtain rfl : w = n := hname
    exact .heard hw (hheard Gs received rfl)
  | @list t ids received ht =>
    obtain rfl : t = n := hname
    refine .gathered ht fun q hq => ?_
    obtain ⟨q', hq', hran⟩ := hheard _ received rfl [q] (mem_map_of_mem hq)
    rw [mem_singleton.mp hq'] at hran
    exact hran

/-- **Every node that runs had a reason before.** -/
theorem reason_of_ran (hc : CompiledTo g groups c) (h : RunsTo c choices trace s) :
    ∀ i nodes n, (trace)[i]? = some nodes → n ∈ nodes →
      (n ∈ c.nodes.keys ∧ n ≠ END) ∧ Reason g groups choices (trace.take i) n := by
  apply (RunsTo.induction (P := fun trace _ => ∀ i nodes n, (trace)[i]? = some nodes → n ∈ nodes →
    (n ∈ c.nodes.keys ∧ n ≠ END) ∧ Reason g groups choices (trace.take i) n) _ _ h).2
  · intro s _ _ i nodes n hi _
    cases hi
  · intro trace s s' msgs hrun ih _ i nodes n hi hn
    rcases Nat.lt_or_ge i trace.length with hlt | hge
    · rw [List.getElem?_append_left hlt] at hi
      rw [take_append_of_le_length hlt.le]
      exact ih i nodes n hi hn
    · have hlast : i = trace.length := by
        have hlt := (List.getElem?_eq_some_iff.mp hi).1
        rw [length_append, length_singleton] at hlt
        omega
      subst hlast
      rw [List.getElem?_concat_length] at hi
      cases hi
      have hactive := mem_toFinset.mp hn
      rw [take_left]
      refine ⟨?_, reason_of_active hc hrun hactive⟩
      rw [active_of_no_retry hrun.settled.retry, mem_readyNodes] at hactive
      exact hactive.2

theorem ran_take {i : Nat} {n : String} :
    Ran (trace.take i) n ↔ ∃ j < i, ∃ nodes, (trace)[j]? = some nodes ∧ n ∈ nodes := by
  rw [Ran]
  constructor
  · rintro ⟨nodes, hmem, hn⟩
    obtain ⟨j, hj⟩ := mem_iff_getElem?.mp hmem
    rw [List.getElem?_take] at hj
    split at hj
    · exact ⟨j, ‹_›, nodes, hj, hn⟩
    · cases hj
  · rintro ⟨j, hj, nodes, hnodes, hn⟩
    refine ⟨nodes, mem_iff_getElem?.mpr ⟨j, ?_⟩, hn⟩
    rw [List.getElem?_take, if_pos hj, hnodes]

theorem ran_of_ran_take {i : Nat} {n : String} (h : Ran (trace.take i) n) : Ran trace n := by
  obtain ⟨nodes, hmem, hn⟩ := h
  exact ⟨nodes, mem_of_mem_take hmem, hn⟩

theorem ran_of_returned {n name t : String} (h : Returned g choices trace n name t) :
    Ran trace n := by
  obtain ⟨-, i, nodes, hi, hn, -⟩ := h
  exact ⟨nodes, mem_of_getElem? hi, hn⟩

theorem returned_of_take {i : Nat} {n name t : String}
    (h : Returned g choices (trace.take i) n name t) : Returned g choices trace n name t := by
  obtain ⟨hrouter, j, nodes, hj, hn, ht⟩ := h
  refine ⟨hrouter, j, nodes, ?_, hn, ht⟩
  rw [List.getElem?_take] at hj
  split at hj
  · exact hj
  · cases hj

end JiuwenSpec.Graph

/-!
## What a graph activates

A node is activated by the start, by edges, by what routers return, and, where it waits, by
any of its predecessors. The nodes that run are among these.
-/

namespace JiuwenSpec.Graph

open Base PregelGraph List

variable {g : PregelGraph} {groups : List (String × List (List String))} {c : PregelBuilder}
  {choices : Choices} {trace : List (Finset String)} {s : LoopState}

inductive PregelGraph.Built : PregelGraph → Prop
  | new : Built {}
  | node {g g' : PregelGraph} {nodeId : String} {waitForAll : Bool} (h : Built g)
      (hg' : g.addNode nodeId waitForAll = some g') : Built g'
  | edge {g g' : PregelGraph} {source : Source} {target : String} (h : Built g)
      (hg' : g.addEdge source target = some g') : Built g'
  | conditional {g g' : PregelGraph} {source name : String} {branch : Branch} (h : Built g)
      (hg' : g.addConditionalEdges source name branch = some g') : Built g'
  | targets {g : PregelGraph} (branchNodeId : String) (targets : List String) (h : Built g) :
      Built (g.registerBranchTargets branchNodeId targets)

def PregelGraph.Runs (g : PregelGraph) (n : String) : Prop := n ∈ g.nodes ∧ n ≠ END

/-- The nodes that the graph activates, given what the routers of each node return: a waiting
node as soon as one of its predecessors is activated. -/
inductive PregelGraph.Activated (g : PregelGraph) (returns : String → String → String → Prop) :
    String → Prop
  | start : Activated g returns START
  | edge {n t : String} (hn : Activated g returns n) (hedge : (Source.node n, t) ∈ g.edges)
      (hwait : t ∉ g.waits) (ht : g.Runs t) : Activated g returns t
  | list {ids : List String} {t : String} (hids : ∀ n ∈ ids, Activated g returns n)
      (hedge : (ids, t) ∈ g.listEdges) (ht : g.Runs t) : Activated g returns t
  | router {n name t : String} (hn : Activated g returns n) (hreturns : returns n name t)
      (ht : g.Runs t) : Activated g returns t
  | waiting {p w : String} (hp : Activated g returns p) (hpred : p ∈ g.predecessors w)
      (hwait : w ∈ g.waits) (hw : g.Runs w) : Activated g returns w

namespace PregelGraph

theorem Built.ids_ne_nil (h : g.Built) : ∀ e ∈ g.edges, e.1.ids ≠ [] := by
  induction h with
  | new => exact nofun
  | node _ hg' ih =>
    rw [addNode] at hg'
    split at hg'
    · cases hg'
    · cases hg'
      exact ih
  | edge _ hg' ih =>
    rw [addEdge] at hg'
    split at hg'
    · cases hg'
    · next hvalid =>
      cases hg'
      intro e he
      rcases mem_append.mp he with he | he
      · exact ih e he
      · obtain rfl := mem_singleton.mp he
        exact fun hnil => hvalid (.inl hnil)
  | conditional _ hg' ih =>
    rw [addConditionalEdges] at hg'
    split at hg'
    · cases hg'
    · cases hg'
      exact ih
  | targets branchNodeId targets _ ih =>
    rw [registerBranchTargets]
    split
    · exact ih
    · exact ih

theorem exists_predecessor (hg : g.Built) (hgroups : g.barrierGroups = some groups) {w : String}
    {Gs : List (List String)} (hw : (w, Gs) ∈ groups) : ∃ p, p ∈ g.predecessors w := by
  obtain ⟨source, hedge⟩ := edge_of_barrierGroups hgroups hw
  obtain ⟨p, hp⟩ := exists_mem_of_ne_nil _ (hg.ids_ne_nil _ hedge)
  exact ⟨p, mem_predecessors.mpr ⟨source, hedge, hp⟩⟩

end PregelGraph

/-- **A node that runs is activated** by what the routers that ran returned. -/
theorem activated_of_ran (hg : g.Built) (hc : CompiledTo g groups c)
    (h : RunsTo c choices trace s) {n : String} (hn : Ran trace n) :
    g.Activated (Returned g choices trace) n := by
  obtain ⟨nodes, hmem, hn⟩ := hn
  obtain ⟨i, hi⟩ := mem_iff_getElem?.mp hmem
  induction i using Nat.strong_induction_on generalizing n nodes with
  | _ i ih =>
    have hbefore : ∀ q, Ran (trace.take i) q → g.Activated (Returned g choices trace) q := by
      intro q hq
      obtain ⟨j, hj, nodes', hnodes', hq'⟩ := ran_take.mp hq
      exact ih j hj nodes' (mem_of_getElem? hnodes') hq' hnodes'
    obtain ⟨⟨hdeclared, hend⟩, hreason⟩ := reason_of_ran hc h i nodes n hi hn
    by_cases hstart : n = START
    · rw [hstart]
      exact .start
    · have hruns : g.Runs n := by
        refine ⟨?_, hend⟩
        rcases (hc.mem_nodes n).mp hdeclared with hn | hn | hn
        · exact absurd hn hstart
        · exact absurd hn hend
        · exact hn
      cases hreason with
      | triggered htriggers =>
        cases htriggers with
        | start => exact .start
        | edge hran hedge hwait => exact .edge (hbefore _ hran) hedge hwait hruns
        | router hreturned =>
          exact .router (hbefore _ (ran_of_returned hreturned)) (returned_of_take hreturned) hruns
      | heard hw hheard =>
        obtain ⟨hwait, hclasses⟩ := classes_of_barrierGroups hc.groups_eq hw
        obtain ⟨p, hp⟩ := exists_predecessor hg hc.groups_eq hw
        obtain ⟨G, hG, -⟩ := hclasses.covers p hp
        obtain ⟨q, hq, hran⟩ := hheard G hG
        obtain ⟨r, -, hclass⟩ := hclasses.isClass G hG
        exact .waiting (hbefore q hran) ((hclass q).mp hq).1 hwait hruns
      | gathered ht hheard => exact .list (fun q hq => hbefore q (hheard q hq)) ht hruns

end JiuwenSpec.Graph

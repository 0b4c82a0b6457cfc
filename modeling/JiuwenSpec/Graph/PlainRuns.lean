import JiuwenSpec.Graph.CompiledGraph
import JiuwenSpec.Pregel.FreshRuns

/-!
# Plain runs of a compiled graph

A plain run starts afresh, and every task of it succeeds. What a channel holds was sent to it by
a node that ran; a channel of a node that has not run holds all that was sent to it.
-/

namespace JiuwenSpec.Graph

open Base LoopState List

namespace Gate

def Holds : Gate → Message → Prop
  | trigger messages, m => m ∈ messages
  | barrier _ received, .barrier s _ => s ∈ received
  | barrier _ _, .trigger _ _ => False

def Takes : Gate → Message → Prop
  | trigger _, m => m.isTrigger = true
  | barrier _ _, m => m.isTrigger = false

theorem takes_accept (gate : Gate) (m m' : Message) :
    (gate.accept m).1.Takes m' ↔ gate.Takes m' := by
  cases gate with
  | trigger messages => cases m <;> rfl
  | barrier groups received =>
    cases m with
    | trigger s t => rfl
    | barrier s t =>
      rw [accept]
      split <;> rfl

theorem holds_accept {gate : Gate} {m m' : Message}
    (htarget : gate.Takes m' → m'.isTrigger = false → m'.target = m.target) :
    (gate.accept m).1.Holds m' ↔ gate.Holds m' ∨ (gate.Takes m' ∧ m' = m) := by
  cases gate with
  | trigger messages =>
    cases m with
    | trigger s t =>
      show m' ∈ messages ++ [_] ↔ m' ∈ messages ∨ (m'.isTrigger = true ∧ m' = _)
      rw [mem_append, mem_singleton]
      apply or_congr_right
      constructor
      · rintro rfl
        exact ⟨rfl, rfl⟩
      · exact And.right
    | barrier s t =>
      show m' ∈ messages ↔ m' ∈ messages ∨ (m'.isTrigger = true ∧ m' = _)
      constructor
      · exact .inl
      · rintro (h | ⟨h, rfl⟩)
        · exact h
        · cases h
  | barrier groups received =>
    cases m with
    | trigger s t =>
      show (barrier groups received).Holds m' ↔ _
      constructor
      · exact .inl
      · rintro (h | ⟨h, rfl⟩)
        · exact h
        · cases h
    | barrier s t =>
      cases m' with
      | trigger s' t' =>
        have hnot : ¬ ((barrier groups received).accept (.barrier s t)).1.Holds
            (.trigger s' t') := by
          rw [accept]
          split <;> exact id
        constructor
        · exact fun h => absurd h hnot
        · rintro (h | ⟨h, -⟩)
          · exact absurd h id
          · cases h
      | barrier s' t' =>
        obtain rfl : t' = t := htarget rfl rfl
        have hinsert : ((barrier groups received).accept (.barrier s t')).1.Holds
            (.barrier s' t') ↔ s' ∈ insert s received := by
          rw [accept]
          split
          · next hs => rw [Finset.insert_eq_of_mem hs]; rfl
          · rfl
        rw [hinsert, Finset.mem_insert, or_comm]
        apply or_congr Iff.rfl
        constructor
        · rintro rfl
          exact ⟨rfl, rfl⟩
        · rintro ⟨-, h⟩
          exact (Message.barrier.inj h).1

theorem not_holds_consume (gate : Gate) (m : Message) : ¬ gate.consume.Holds m := by
  cases gate with
  | trigger messages => exact not_mem_nil
  | barrier groups received =>
    cases m with
    | trigger => exact id
    | barrier => exact Finset.notMem_empty _

end Gate

namespace Channel

theorem takes_absorb (ch : Channel) (ms : List Message) (m : Message) :
    (ch.absorb ms).gate.Takes m ↔ ch.gate.Takes m := by
  obtain ⟨key, nodeName, gate⟩ := ch
  show (ms.foldl (fun g m => (g.accept m).1) gate).Takes m ↔ _
  induction ms generalizing gate with
  | nil => rfl
  | cons m' ms ih => exact (ih _).trans (Gate.takes_accept gate m' m)

theorem holds_absorb {ch : Channel} {ms : List Message} {m : Message}
    (hms : ch.gate.Takes m → ∀ m' ∈ ms, m.isTrigger = false → m.target = m'.target) :
    (ch.absorb ms).gate.Holds m ↔ ch.gate.Holds m ∨ (ch.gate.Takes m ∧ m ∈ ms) := by
  obtain ⟨key, nodeName, gate⟩ := ch
  show (ms.foldl (fun g m => (g.accept m).1) gate).Holds m ↔ _
  induction ms generalizing gate with
  | nil => simp
  | cons m' ms ih =>
    have hfirst := Gate.takes_accept gate m' m
    rw [foldl_cons, ih, Gate.holds_accept fun h => hms h m' mem_cons_self, hfirst,
      mem_cons]
    · tauto
    · exact fun h m'' hm'' => hms (hfirst.mp h) m'' (.tail _ hm'')

end Channel

theorem mem_receive {msgs : List Message} {cs : List Channel} {ch : Channel}
    (h : ch ∈ receive msgs cs) :
    ∃ ch' ∈ cs, ch = ch' ∨ ch = ch'.absorb (msgs.filter (·.target = ch'.key)) := by
  induction cs with
  | nil => cases h
  | cons first cs ih =>
    rw [receive] at h
    rcases mem_cons.mp h with rfl | h
    · refine ⟨first, .head _, ?_⟩
      split
      · exact .inl rfl
      · exact .inr rfl
    · obtain ⟨ch', hmem, hch⟩ := ih h
      exact ⟨ch', .tail _ hmem, hch⟩

theorem receive_eq_map {msgs : List Message} {cs : List Channel}
    (h : (cs.map (·.key)).Nodup) :
    receive msgs cs = cs.map fun ch => ch.absorb (msgs.filter (·.target = ch.key)) := by
  induction cs with
  | nil => rfl
  | cons first cs ih =>
    obtain ⟨hfirst, hrest⟩ := nodup_cons.mp h
    rw [receive, if_neg hfirst, ih hrest, map_cons]

theorem PlainRun.concat_inv {g : Pregel} {tasks : Tasks} {s s'' : LoopState}
    {trace : List (Finset String)} {nodes : Finset String}
    (h : PlainRun g tasks s (trace ++ [nodes]) s'') :
    ∃ s' r, PlainRun g tasks s trace s' ∧ r.Answers ((s'.entered g).routes tasks) (s'.active g) ∧
      s'.runStep g r = .more s'' ∧ nodes = (s'.active g).toFinset := by
  induction trace generalizing s with
  | nil =>
    cases h with
    | cons answers completes rest =>
      cases rest
      exact ⟨s, _, .nil s, answers, completes, rfl⟩
  | cons first trace ih =>
    cases h with
    | cons answers completes rest =>
      obtain ⟨s', r, hrun, hanswers, hstep, hnodes⟩ := ih rest
      exact ⟨s', r, .cons answers completes hrun, hanswers, hstep, hnodes⟩

/-- What the routers of a graph return, superstep by superstep. -/
abbrev Choices := Nat → Outcomes

def PregelBuilder.tasks (c : PregelBuilder) (choices : Choices) : Tasks :=
  fun step n _ => c.messages (choices step) n

/-- A fresh run in which every task succeeds, with the nodes that ran in each superstep. -/
def RunsTo (c : PregelBuilder) (choices : Choices) (trace : List (Finset String))
    (s : LoopState) : Prop :=
  ∃ limit start, LoopState.start c.pregel c.channels limit = (start, none) ∧
    PlainRun c.pregel (c.tasks choices) start trace s

def Ran (trace : List (Finset String)) (n : String) : Prop := ∃ nodes ∈ trace, n ∈ nodes

/-- The message has been sent: the first one, or one that a node routed when it ran. -/
def Sent (c : PregelBuilder) (choices : Choices) (trace : List (Finset String)) (m : Message) :
    Prop :=
  m = .trigger START START ∨
    ∃ i nodes n, (trace)[i]? = some nodes ∧ n ∈ nodes ∧ m ∈ c.messages (choices i) n

variable {c : PregelBuilder} {choices : Choices} {trace : List (Finset String)} {s : LoopState}

theorem ran_concat {nodes : Finset String} {n : String} :
    Ran (trace ++ [nodes]) n ↔ Ran trace n ∨ n ∈ nodes := by
  simp only [Ran, mem_append, mem_singleton]
  constructor
  · rintro ⟨ns, h | rfl, hn⟩
    · exact .inl ⟨ns, h, hn⟩
    · exact .inr hn
  · rintro (⟨ns, h, hn⟩ | hn)
    · exact ⟨ns, .inl h, hn⟩
    · exact ⟨nodes, .inr rfl, hn⟩

theorem sent_concat {nodes : Finset String} {m : Message} :
    Sent c choices (trace ++ [nodes]) m ↔
      Sent c choices trace m ∨ ∃ n ∈ nodes, m ∈ c.messages (choices trace.length) n := by
  constructor
  · rintro (rfl | ⟨i, ns, n, hi, hn, hm⟩)
    · exact .inl (.inl rfl)
    · rcases Nat.lt_trichotomy i trace.length with hlt | rfl | hgt
      · rw [List.getElem?_append_left hlt] at hi
        exact .inl (.inr ⟨i, ns, n, hi, hn, hm⟩)
      · rw [List.getElem?_concat_length] at hi
        cases hi
        exact .inr ⟨n, hn, hm⟩
      · have hnone : (trace ++ [nodes])[i]? = none := by
          apply List.getElem?_eq_none
          rw [length_append, length_singleton]
          omega
        rw [hnone] at hi
        cases hi
  · rintro ((rfl | ⟨i, ns, n, hi, hn, hm⟩) | ⟨n, hn, hm⟩)
    · exact .inl rfl
    · have hlt : i < trace.length := (List.getElem?_eq_some_iff.mp hi).1
      refine .inr ⟨i, ns, n, ?_, hn, hm⟩
      rw [List.getElem?_append_left hlt, hi]
    · exact .inr ⟨trace.length, nodes, n, List.getElem?_concat_length, hn, hm⟩

/-- Between supersteps: nothing is buffered or to be retried, the ready nodes are exact. -/
structure Settled (c : PregelBuilder) (trace : List (Finset String)) (s : LoopState) : Prop where
  retry : s.retryPendingNodes = []
  buffer : s.manager.buffer = []
  step : s.step = trace.length
  ready : s.manager.ReadyExact
  shape : Emptied s.manager.channels c.channels

/-- The channels of a superstep: the nodes that run consume, and their messages arrive. -/
structure Advances (c : PregelBuilder) (outcomes : Outcomes) (s s' : LoopState)
    (msgs : List Message) : Prop where
  channels : s'.manager.channels =
    receive msgs (ChannelManager.consumed (s.active c.pregel) s.manager.channels)
  mem_msgs : ∀ m, m ∈ msgs ↔ ∃ n ∈ s.active c.pregel, m ∈ c.messages outcomes n

theorem settled_step {s' : LoopState} {r : Round} (h : Settled c trace s)
    (hr : r.Answers ((s.entered c.pregel).routes (c.tasks choices)) (s.active c.pregel))
    (hstep : s.runStep c.pregel r = .more s') :
    Settled c (trace ++ [(s.active c.pregel).toFinset]) s' ∧
      ∃ msgs, Advances c (choices trace.length) s s' msgs := by
  have hactive : s.active c.pregel ≠ [] := by
    intro hidle
    rw [runStep_idle hidle, ChannelManager.isEmpty, h.buffer] at hstep
    cases hstep
  have hlimit : ¬ s.maxStep < s.step := by
    intro hlimit
    rw [runStep_limit hactive r hlimit] at hstep
    cases hstep
  have hwait : (waitAll r).2 = none := by
    by_contra hne
    obtain ⟨e, he⟩ := Option.ne_none_iff_exists'.mp hne
    rw [runStep_raised hactive hlimit he] at hstep
    cases hstep
  have hemptied : Emptied s'.manager.channels s.manager.channels := by
    have hkept := emptied_runStep c.pregel s r
    rw [hstep] at hkept
    exact hkept
  rw [runStep_delivered hactive hlimit hwait] at hstep
  obtain ⟨m, hdeliver, hchannels, hbuffer, hready⟩ :=
    deliver_of_canDeliver (canDeliver_of_more hstep)
  rw [hdeliver] at hstep
  obtain rfl := StepResult.more.inj hstep
  refine ⟨⟨entered_retryPendingNodes _ _, hbuffer, ?_, hready (entered_readyExact h.ready),
    hemptied.trans h.shape⟩, r.messages, ?_, fun m => ?_⟩
  · show (s.entered c.pregel).step + 1 = _
    rw [entered_step, h.step, length_append, length_singleton]
  · show m.channels = _
    rw [hchannels, entered_buffer, h.buffer, entered_channels, Round.waitAll_succeedMessages]
    rfl
  · have hfailures := (Round.waitAll_error_iff hr).mp hwait
    have hperm := (Round.succeeded_append_failures r).trans hr.nodes
    rw [hfailures, append_nil] at hperm
    rw [Round.messages_eq hr, mem_flatMap]
    constructor
    · rintro ⟨n, hn, hm⟩
      refine ⟨n, hperm.mem_iff.mp hn, ?_⟩
      rw [routes, PregelBuilder.tasks, entered_step, h.step] at hm
      exact hm
    · rintro ⟨n, hn, hm⟩
      refine ⟨n, hperm.mem_iff.mpr hn, ?_⟩
      rw [routes, PregelBuilder.tasks, entered_step, h.step]
      exact hm

theorem settled_start {limit : Int}
    (h : LoopState.start c.pregel c.channels limit = (s, none)) :
    Settled c [] s ∧ s.manager.channels = receive [.trigger START START] c.channels := by
  have herr := congrArg Prod.snd h
  have hs := congrArg Prod.fst h
  have hflush : (((ChannelManager.init c.channels).bufferMessage
      (.trigger c.pregel.initial c.pregel.initial)).flush).2 = none :=
    Option.map_eq_none_iff.mp herr
  obtain ⟨-, hchannels, hbuffer, hready⟩ :=
    ChannelManager.flush_ok (ChannelManager.flush_ok_iff.mp hflush)
  have hinit := ChannelManager.init_readyExact c.channels
  have hemptied := emptied_start c.pregel c.channels limit
  rw [h] at hemptied
  obtain rfl := hs
  exact ⟨⟨rfl, hbuffer, rfl, hready ⟨hinit.mem_iff, hinit.nodup⟩, hemptied⟩, hchannels⟩

theorem RunsTo.induction {P : List (Finset String) → LoopState → Prop}
    (hstart : ∀ s, Settled c [] s →
      s.manager.channels = receive [.trigger START START] c.channels → P [] s)
    (hstep : ∀ trace s s' msgs, RunsTo c choices trace s → P trace s →
      Advances c (choices trace.length) s s' msgs →
        P (trace ++ [(s.active c.pregel).toFinset]) s')
    (h : RunsTo c choices trace s) : Settled c trace s ∧ P trace s := by
  obtain ⟨limit, start, hs, hrun⟩ := h
  induction trace using List.reverseRecOn generalizing s with
  | nil =>
    cases hrun
    obtain ⟨hsettled, hchannels⟩ := settled_start hs
    exact ⟨hsettled, hstart _ hsettled hchannels⟩
  | append_singleton trace nodes ih =>
    obtain ⟨s', r, hrest, hanswers, hcompletes, rfl⟩ := hrun.concat_inv
    obtain ⟨hsettled, hP⟩ := ih hrest
    obtain ⟨hnext, msgs, hadvances⟩ := settled_step hsettled hanswers hcompletes
    exact ⟨hnext, hstep trace s' s msgs ⟨limit, start, hs, hrest⟩ hP hadvances⟩

theorem RunsTo.settled (h : RunsTo c choices trace s) : Settled c trace s :=
  (RunsTo.induction (P := fun _ _ => True) (fun _ _ _ => trivial)
    (fun _ _ _ _ _ _ _ => trivial) h).1

/-- Supersteps of a run in which every task succeeds, with the nodes of each; nothing where one
of them raises or the run is over. -/
def plainRun (g : Pregel) (tasks : Tasks) : Nat → LoopState → Option (List (List String) × LoopState)
  | 0, s => some ([], s)
  | k + 1, s =>
    match LoopState.runStep g s (.interrupting ((s.entered g).routes tasks) (s.active g) []) with
    | .more s' => (plainRun g tasks k s').map fun rest => (s.active g :: rest.1, rest.2)
    | _ => none

theorem plainRun_eq_some {g : Pregel} {tasks : Tasks} {k : Nat} {s s' : LoopState}
    {nodes : List (List String)} (h : plainRun g tasks k s = some (nodes, s')) :
    PlainRun g tasks s (nodes.map List.toFinset) s' := by
  induction k generalizing s nodes with
  | zero =>
    cases h
    exact .nil s'
  | succ k ih =>
    rw [plainRun] at h
    split at h
    · next after hstep =>
      obtain ⟨rest, hrest, hpair⟩ := Option.map_eq_some_iff.mp h
      obtain ⟨rfl, rfl⟩ := Prod.mk.inj hpair
      exact .cons (Round.interrupting_answers _ _ _) hstep (ih hrest)
    · cases h

/-- A fresh run of a compiled graph, by number of supersteps. -/
def PregelBuilder.run (c : PregelBuilder) (choices : Choices) (k : Nat) :
    Option (List (List String) × LoopState) :=
  match LoopState.start c.pregel c.channels 0 with
  | (s, none) => plainRun c.pregel (c.tasks choices) k s
  | (_, some _) => none

theorem runsTo_of_run {k : Nat} {nodes : List (List String)}
    (h : c.run choices k = some (nodes, s)) :
    RunsTo c choices (nodes.map List.toFinset) s := by
  rw [PregelBuilder.run] at h
  split at h
  · next start hstart => exact ⟨0, start, hstart, plainRun_eq_some h⟩
  · cases h

end JiuwenSpec.Graph

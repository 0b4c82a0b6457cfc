import JiuwenSpec.Pregel.InterruptedRuns

/-!
# Fresh runs on a compiled graph that was run before

The channels belong to the compiled graph and survive its runs. A fresh run is the same as
on a new copy exactly when no channel holds anything; of the channels of `END`, which no
node ever consumes, only the contents themselves are affected.
-/

namespace JiuwenSpec.Graph

open LoopState

/-- A compiled graph that has not run: nothing in its channels, and one for `START`. -/
structure NewCopy (g : Pregel) (channels : List Channel) : Prop where
  empty : ∀ c ∈ channels, ¬ c.HasState
  initial : g.initial ∈ channels.map (·.key)
  initial_ne : g.initial ≠ END

/-- Any number of supersteps, whatever becomes of their tasks. -/
inductive Steps (g : Pregel) : LoopState → LoopState → Prop
  | nil (s : LoopState) : Steps g s s
  | cons {s s' : LoopState} (r : Round) (rest : Steps g (s.runStep g r).state s') : Steps g s s'

inductive EarlierRuns (g : Pregel) (new : List Channel) : List Channel → Prop
  | none : EarlierRuns g new new
  | next {channels : List Channel} {s : LoopState} (limit : Int) (checkpoint : Option GraphState)
      (before : EarlierRuns g new channels)
      (steps : Steps g (LoopState.init g channels limit checkpoint).1 s) :
      EarlierRuns g new s.manager.channels

/-- What becomes of each task, by superstep, node and version; `none` is cancelled. -/
abbrev Fates := Nat → String → Nat → Option TaskResult

def fatedRound (fates : Fates) (g : Pregel) (s : LoopState) : Round where
  done := (s.active g).filterMap fun n =>
    (fates s.step n ((s.entered g).nodeVersion n)).map fun result => (n, result)
  pending := (s.active g).filter fun n => fates s.step n ((s.entered g).nodeVersion n) = none

def runFrom (g : Pregel) (fates : Fates) : StepResult → Nat → StepResult
  | result, 0 => result
  | .more s, k + 1 => runFrom g fates (s.runStep g (fatedRound fates g s)) k
  | result, _ + 1 => result

def freshRun (g : Pregel) (channels : List Channel) (limit : Int) (fates : Fates) (k : Nat) :
    StepResult :=
  match LoopState.start g channels limit with
  | (s, none) => runFrom g fates (.more s) k
  | (s, some e) => .raised s {} e

/-- How a superstep ends, without the target that a failed flush names. -/
inductive Ending where
  | more
  | finished
  | exception
  | interrupt
  | recursion
  | unknownTarget
  deriving DecidableEq

structure Sight where
  ending : Ending
  active : Finset String
  channels : List ChannelView

/-- The active nodes and the channels, as far as `see` shows them; of a flush that fails only
the failure. -/
def observe (see : Channel → ChannelView) (g : Pregel) : StepResult → Sight
  | .finished s => ⟨.finished, ∅, s.manager.channels.map see⟩
  | .more s => ⟨.more, (s.active g).toFinset, s.manager.channels.map see⟩
  | .raised s _ .exception => ⟨.exception, ∅, s.manager.channels.map see⟩
  | .raised s _ .interrupt => ⟨.interrupt, ∅, s.manager.channels.map see⟩
  | .raised s _ .recursion => ⟨.recursion, ∅, s.manager.channels.map see⟩
  | .raised _ _ (.unknownTarget _) => ⟨.unknownTarget, ∅, []⟩

/-- The fresh run on these channels is the one on those, as far as `see` shows. -/
def SameRuns (see : Channel → ChannelView) (g : Pregel) (cs ds : List Channel) : Prop :=
  ∀ limit fates k, observe see g (freshRun g cs limit fates k) =
    observe see g (freshRun g ds limit fates k)

namespace Channel

theorem consume_consume (c : Channel) : c.consume.consume = c.consume := by
  obtain ⟨key, nodeName, gate⟩ := c
  cases gate <;> rfl

theorem consume_absorb (c : Channel) (ms : List Message) : (c.absorb ms).consume = c.consume := by
  have haccept : ∀ (g : Gate) (m : Message), (g.accept m).1.consume = g.consume := by
    intro g m
    cases g with
    | trigger messages => cases m <;> rfl
    | barrier groups received =>
      cases m with
      | trigger s t => rfl
      | barrier s t =>
        rw [Gate.accept]
        split <;> rfl
  have hgate : ∀ g : Gate, (ms.foldl (fun g m => (g.accept m).1) g).consume = g.consume := by
    induction ms with
    | nil => exact fun _ => rfl
    | cons m ms ih => exact fun g => (ih _).trans (haccept g m)
  exact congrArg (Channel.mk c.key c.nodeName) (hgate c.gate)

theorem consume_restore (c : Channel) (saved : Saved) : (c.restore saved).consume = c.consume := by
  obtain ⟨key, nodeName, gate⟩ := c
  cases gate <;> cases saved <;> rfl

end Channel

def Emptied (cs ds : List Channel) : Prop := cs.map Channel.consume = ds.map Channel.consume

theorem emptied_deliver {m : Message} {cs cs' : List Channel} {updated : Option String}
    (h : deliver m cs = some (cs', updated)) : Emptied cs' cs := by
  obtain ⟨rfl, -⟩ := deliver_eq_some h
  clear h
  induction cs with
  | nil => rfl
  | cons c cs ih =>
    refine congrArg₂ List.cons ?_ ih
    split
    · rfl
    · exact Channel.consume_absorb c _

theorem emptied_deliverAll (ms : List Message) (cs : List Channel) :
    Emptied (deliverAll cs ms).1 cs := by
  induction ms generalizing cs with
  | nil => rfl
  | cons m ms ih =>
    rw [deliverAll]
    cases hd : deliver m cs with
    | none => rfl
    | some r =>
      obtain ⟨cs', updated⟩ := r
      exact (ih cs').trans (emptied_deliver hd)

namespace ChannelManager

theorem emptied_flush (m : ChannelManager) : Emptied m.flush.1.channels m.channels := by
  have h := emptied_deliverAll m.buffer m.channels
  rw [flush]
  cases hall : deliverAll m.channels m.buffer with
  | mk cs rest =>
    obtain ⟨nodes, err⟩ := rest
    rw [hall] at h
    cases err with
    | none => exact h
    | some e => exact h

theorem emptied_consumed (names : List String) (cs : List Channel) :
    Emptied (consumed names cs) cs := by
  rw [Emptied, consumed, List.map_map]
  apply List.map_congr_left
  intro c _
  rw [Function.comp_apply]
  split
  · exact Channel.consume_consume c
  · rfl

theorem emptied_restoreChannels (n : String) (cs : List Channel) (states : List Saved) :
    Emptied (restoreChannels n cs states) cs := by
  induction cs generalizing states with
  | nil => cases states <;> rfl
  | cons c cs ih =>
    cases states with
    | nil => rfl
    | cons s states =>
      rw [restoreChannels]
      split
      · refine congrArg₂ List.cons ?_ (ih states)
        split
        · exact Channel.consume_restore c s
        · rfl
      · exact congrArg₂ List.cons rfl (ih (s :: states))

theorem emptied_restore (snap : List (String × List Saved)) (m : ChannelManager) :
    Emptied (m.restore snap).channels m.channels := by
  induction snap generalizing m with
  | nil => rfl
  | cons e snap ih =>
    have hnode : Emptied (m.restoreNode e.1 e.2).channels m.channels := by
      rw [restoreNode]
      split
      · exact emptied_restoreChannels e.1 m.channels e.2
      · rfl
    exact (ih (m.restoreNode e.1 e.2)).trans hnode

end ChannelManager

theorem emptied_start (g : Pregel) (channels : List Channel) (limit : Int) :
    Emptied (LoopState.start g channels limit).1.manager.channels channels :=
  ChannelManager.emptied_flush _

theorem emptied_init (g : Pregel) (channels : List Channel) (limit : Int)
    (checkpoint : Option GraphState) :
    Emptied (LoopState.init g channels limit checkpoint).1.manager.channels channels := by
  cases checkpoint with
  | none => exact emptied_start g channels limit
  | some state =>
    rw [LoopState.init]
    split
    · exact ChannelManager.emptied_restore state.channelValues _
    · exact emptied_start g channels limit

theorem emptied_deliver_state (s : LoopState) (ex : Executor) :
    Emptied (s.deliver ex).state.manager.channels s.manager.channels := by
  have h := ChannelManager.emptied_flush (s.manager.bufferAll ex.succeedMessages)
  rw [LoopState.deliver]
  cases hf : (s.manager.bufferAll ex.succeedMessages).flush with
  | mk m err =>
    rw [hf] at h
    cases err with
    | none => exact h
    | some e => exact h

theorem emptied_runStep (g : Pregel) (s : LoopState) (r : Round) :
    Emptied (s.runStep g r).state.manager.channels s.manager.channels := by
  have hactivate : Emptied (s.activate g).1.manager.channels s.manager.channels := by
    rw [activate_manager]
    rfl
  have hentered : Emptied (s.entered g).manager.channels s.manager.channels := by
    rw [entered_channels]
    exact ChannelManager.emptied_consumed _ _
  by_cases hactive : s.active g = []
  · rw [runStep_idle hactive]
    split
    · exact hactivate
    · exact (emptied_deliver_state _ _).trans hactivate
  · by_cases hlimit : s.maxStep < s.step
    · rw [runStep_limit hactive r hlimit]
      exact hactivate
    · cases hwait : (waitAll r).2 with
      | none =>
        rw [runStep_delivered hactive hlimit hwait]
        exact (emptied_deliver_state _ _).trans hentered
      | some e =>
        rw [runStep_raised hactive hlimit hwait]
        exact hentered

theorem Steps.emptied {g : Pregel} {s s' : LoopState} (h : Steps g s s') :
    Emptied s'.manager.channels s.manager.channels := by
  induction h with
  | nil s => rfl
  | cons r _ ih => exact ih.trans (emptied_runStep g _ r)

theorem EarlierRuns.emptied {g : Pregel} {new channels : List Channel}
    (h : EarlierRuns g new channels) : Emptied channels new := by
  induction h with
  | none => rfl
  | next limit checkpoint _ steps ih =>
    exact (steps.emptied.trans (emptied_init g _ limit checkpoint)).trans ih

theorem Contents.absorb_trigger_inj {x y : Contents} {s t : String}
    (h : x.absorb {Message.trigger s t} = y.absorb {Message.trigger s t}) : x = y := by
  have htrigger : ({Message.trigger s t} : Multiset Message).filter
      (fun m => m.isTrigger = true) = {Message.trigger s t} := rfl
  have hbarrier : ({Message.trigger s t} : Multiset Message).filter
      (fun m => m.isTrigger = false) = 0 := rfl
  cases x with
  | trigger messages =>
    cases y with
    | trigger messages' =>
      simp only [absorb, htrigger, Contents.trigger.injEq] at h
      exact congrArg Contents.trigger (Multiset.add_left_inj.mp h)
    | barrier groups' received' => cases h
  | barrier groups received =>
    cases y with
    | trigger messages' => cases h
    | barrier groups' received' => simpa [absorb, hbarrier] using h

theorem not_hasState_of_view {c d : Channel} (hshape : c.consume = d.consume)
    (hd : ¬ d.HasState) (h : c.view = d.view) : ¬ c.HasState := by
  have hcontents : c.gate.contents = d.gate.contents := congrArg ChannelView.contents h
  rw [← Channel.consume_of_not_hasState hd, ← hshape] at hcontents
  obtain ⟨key, nodeName, gate⟩ := c
  cases gate with
  | trigger messages =>
    have hzero : (messages : Multiset Message) = 0 := by
      injection hcontents
    have hnil : messages = [] := by simpa using hzero
    simp [Channel.HasState, Gate.snapshot, Saved.hasState, hnil]
  | barrier groups received =>
    have hempty : received = ∅ := by
      injection hcontents
    simp [Channel.HasState, Gate.snapshot, Saved.hasState, hempty]

end JiuwenSpec.Graph

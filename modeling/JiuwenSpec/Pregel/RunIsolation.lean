import JiuwenSpec.Pregel.FreshRuns

/-!
# When a fresh run is isolated from earlier ones

Two fresh runs on channels that look alike go through the same supersteps. Since the first
superstep already shows what the channels held, the runs are the same only then.
-/

namespace JiuwenSpec.Graph

open LoopState List Channel

variable {g : Pregel} {limit : Int} {fates : Fates}

structure Twins (limit : Int) (s t : LoopState) : Prop where
  matching : Matches limit s t
  limit_eq : s.maxStep = t.maxStep

/-- Superstep results that show the same, and go on together. -/
inductive TwinResults (g : Pregel) (limit : Int) : StepResult → StepResult → Prop
  | more {s t : LoopState} (h : Twins limit s t) : TwinResults g limit (.more s) (.more t)
  | ended {x y : StepResult} (h : observe Channel.seen g x = observe Channel.seen g y)
      (hx : ∀ s, x ≠ .more s) (hy : ∀ s, y ≠ .more s) : TwinResults g limit x y

theorem TwinResults.observe_eq {x y : StepResult} (h : TwinResults g limit x y) :
    observe Channel.seen g x = observe Channel.seen g y := by
  cases h with
  | @more s t h =>
    have hactive : (s.active g).toFinset = (t.active g).toFinset :=
      toFinset_eq_of_perm _ _ (h.matching.active_perm g).symm
    have hchannels : s.manager.channels.map Channel.seen = t.manager.channels.map Channel.seen :=
      h.matching.alike
    rw [observe, observe, hactive, hchannels]
  | ended h _ _ => exact h

theorem fatedRound_perm {s t : LoopState} (h : Matches limit s t) (fates : Fates) :
    (fatedRound fates g s).done.Perm (fatedRound fates g t).done := by
  have hperm := (h.active_perm g).symm
  have hversion := (h.inProgress g fun _ _ _ => []).version_eq
  rw [fatedRound, fatedRound, h.step_eq, hversion]
  exact hperm.filterMap _

theorem waitAll_error_perm {r r' : Round} (h : r.done.Perm r'.done) :
    (waitAll r).2 = (waitAll r').2 := by
  simp only [waitAll]
  rw [h.any_eq, h.any_eq]

theorem waitAll_messages_perm {r r' : Round} (h : r.done.Perm r'.done) :
    (waitAll r).1.succeedMessages.Perm (waitAll r').1.succeedMessages := by
  rw [Round.waitAll_succeedMessages, Round.waitAll_succeedMessages]
  exact h.flatMap_right _

theorem twinResults_deliver {s t : LoopState} {ex ex' : Executor}
    (halike : Alike s.manager.channels t.manager.channels)
    (hperm : (s.manager.buffer ++ ex.succeedMessages).Perm
      (t.manager.buffer ++ ex'.succeedMessages))
    (hmore : ∀ s' t', s.deliver ex = .more s' → t.deliver ex' = .more t' → Matches limit s' t')
    (hlimit : s.maxStep = t.maxStep) : TwinResults g limit (s.deliver ex) (t.deliver ex') := by
  have hiff : s.CanDeliver ex ↔ t.CanDeliver ex' := canDeliver_iff halike hperm
  by_cases hcan : s.CanDeliver ex
  · obtain ⟨m, hm, -⟩ := deliver_of_canDeliver hcan
    obtain ⟨m', hm', -⟩ := deliver_of_canDeliver (hiff.mp hcan)
    have hmatches := hmore _ _ hm hm'
    rw [hm, hm']
    exact .more ⟨hmatches, hlimit⟩
  · obtain ⟨s', target, hs'⟩ := deliver_of_not_canDeliver hcan
    obtain ⟨t', target', ht'⟩ := deliver_of_not_canDeliver fun h => hcan (hiff.mpr h)
    rw [hs', ht']
    exact .ended rfl (fun _ h => nomatch h) fun _ h => nomatch h

theorem Twins.runStep {s t : LoopState} (h : Twins limit s t) (fates : Fates) :
    TwinResults g limit (s.runStep g (fatedRound fates g s))
      (t.runStep g (fatedRound fates g t)) := by
  have hm := h.matching
  have hperm := hm.active_perm g
  have hactivated : (s.activate g).1.manager.channels.map Channel.seen =
      (t.activate g).1.manager.channels.map Channel.seen := by
    rw [activate_manager, activate_manager]
    exact hm.alike
  by_cases hs : s.active g = []
  · have ht : t.active g = [] := (hs ▸ hperm).eq_nil
    rw [runStep_idle hs, runStep_idle ht, ← hm.isEmpty_eq]
    cases s.manager.isEmpty with
    | true =>
      refine .ended ?_ (fun _ h => nomatch h) fun _ h => nomatch h
      exact congrArg (Sight.mk .finished ∅) hactivated
    | false =>
      obtain ⟨halike, hbuffer⟩ := hm.idle (g := g)
      apply twinResults_deliver halike hbuffer (fun _ _ => hm.deliver_idle hs)
      rw [activate_maxStep, activate_maxStep, h.limit_eq]
  · have ht : t.active g ≠ [] := fun hnil => hs (hperm.symm.trans (List.Perm.of_eq hnil)).eq_nil
    by_cases hpassed : s.maxStep < s.step
    · have hpassed' : t.maxStep < t.step := by
        rw [← h.limit_eq, ← hm.step_eq]
        exact hpassed
      rw [runStep_limit hs _ hpassed, runStep_limit ht _ hpassed']
      refine .ended ?_ (fun _ h => nomatch h) fun _ h => nomatch h
      exact congrArg (Sight.mk .recursion ∅) hactivated
    · have hpassed' : ¬ t.maxStep < t.step := by
        rw [← h.limit_eq, ← hm.step_eq]
        exact hpassed
      have hround := fatedRound_perm (g := g) hm fates
      have hprogress := hm.inProgress g fun _ _ _ => []
      cases hwait : (waitAll (fatedRound fates g s)).2 with
      | some e =>
        have hwait' := (waitAll_error_perm hround).symm.trans hwait
        rw [runStep_raised hs hpassed hwait, runStep_raised ht hpassed' hwait']
        refine .ended ?_ (fun _ h => nomatch h) fun _ h => nomatch h
        cases Round.waitAll_error_cases hwait with
        | inl hexception =>
          subst hexception
          exact congrArg (Sight.mk .exception ∅) hprogress.alike
        | inr hinterrupt =>
          subst hinterrupt
          exact congrArg (Sight.mk .interrupt ∅) hprogress.alike
      | none =>
        have hwait' := (waitAll_error_perm hround).symm.trans hwait
        have hmessages : ((s.entered g).manager.buffer ++
              (waitAll (fatedRound fates g s)).1.succeedMessages).Perm
            ((t.entered g).manager.buffer ++
              (waitAll (fatedRound fates g t)).1.succeedMessages) := by
          rw [entered_buffer, entered_buffer]
          exact hm.buffer.append (waitAll_messages_perm hround)
        rw [runStep_delivered hs hpassed hwait, runStep_delivered ht hpassed' hwait']
        apply twinResults_deliver hprogress.alike hmessages
        · intro s' t' hs' ht'
          apply matches_of_deliver hprogress.alike (entered_readyExact hm.readyLeft)
            (entered_readyExact hm.readyRight) hmessages _ hprogress.version_eq
            (entered_retryPendingNodes g s) (entered_retryPendingNodes g t) _ _ hs' ht'
          · rw [entered_step, entered_step, hm.step_eq]
          · rw [entered_maxStep, entered_maxStep, h.limit_eq]
          · rw [entered_maxStep, entered_step]
            exact hm.limit_window
        · rw [entered_maxStep, entered_maxStep, h.limit_eq]

theorem TwinResults.runFrom {x y : StepResult} (h : TwinResults g limit x y) (fates : Fates)
    (k : Nat) : TwinResults g limit (Graph.runFrom g fates x k) (Graph.runFrom g fates y k) := by
  induction k generalizing x y with
  | zero =>
    rw [Graph.runFrom, Graph.runFrom]
    exact h
  | succ k ih =>
    cases h with
    | more htwins => exact ih (htwins.runStep fates)
    | ended hsame hx hy =>
      have hstay : ∀ z : StepResult, (∀ s, z ≠ .more s) →
          Graph.runFrom g fates z (k + 1) = z := by
        intro z hz
        cases z with
        | finished s => rfl
        | more s => exact absurd rfl (hz s)
        | raised s ex e => rfl
      rw [hstay x hx, hstay y hy]
      exact .ended hsame hx hy

variable {cs ds : List Channel}

theorem Emptied.keys (h : Emptied cs ds) : cs.map (·.key) = ds.map (·.key) := by
  have hkeys : ∀ l : List Channel, l.map (·.key) = (l.map Channel.consume).map (·.key) := by
    intro l
    rw [map_map]
    rfl
  rw [hkeys cs, hkeys ds, h]

theorem Emptied.forall₂ (h : Emptied cs ds) :
    List.Forall₂ (fun c d => Channel.consume c = Channel.consume d) cs ds := by
  rw [Emptied, ← forall₂_eq_eq_eq, forall₂_map_left_iff,
    forall₂_map_right_iff] at h
  exact h

theorem start_eq (hinitial : g.initial ∈ cs.map (·.key)) (limit : Int) :
    ∃ s, LoopState.start g cs limit = (s, none) ∧
      s.manager.channels = receive [.trigger g.initial g.initial] cs ∧
      s.maxStep = recursionLimit limit := by
  have hdeliverable : ((ChannelManager.init cs).bufferMessage
      (.trigger g.initial g.initial)).Deliverable := by
    intro msg hmsg
    rw [mem_singleton.mp hmsg]
    exact hinitial
  obtain ⟨herr, hchannels, -, -⟩ := ChannelManager.flush_ok hdeliverable
  refine ⟨_, Prod.ext rfl ?_, hchannels, rfl⟩
  rw [LoopState.start]
  simp only [herr, Option.map_none]

variable {see : Channel → ChannelView}

theorem see_of_receive
    (hsee : ∀ {c d : Channel}, c.consume = d.consume → ∀ s t ms, ms = [.trigger s t] ∨ ms = [] →
      see (c.absorb ms) = see (d.absorb ms) → see c = see d)
    (hshape : Emptied cs ds) {s t : String}
    (h : (receive [.trigger s t] cs).map see = (receive [.trigger s t] ds).map see) :
    cs.map see = ds.map see := by
  have hall := hshape.forall₂
  clear hshape
  induction hall with
  | nil => rfl
  | @cons c d cs ds hc hrest ih =>
    have hkeys : cs.map (·.key) = ds.map (·.key) := by
      refine Emptied.keys ?_
      rw [Emptied, ← forall₂_eq_eq_eq, forall₂_map_left_iff, forall₂_map_right_iff]
      exact hrest
    have hkey := key_eq_of_consume hc
    rw [receive, receive, map_cons, map_cons, List.cons.injEq, ← hkeys, ← hkey] at h
    obtain ⟨hhead, htail⟩ := h
    refine congrArg₂ List.cons ?_ (ih htail)
    by_cases hdead : c.key ∈ cs.map (·.key)
    · rwa [if_pos hdead, if_pos hdead] at hhead
    · rw [if_neg hdead, if_neg hdead] at hhead
      refine hsee hc s t _ ?_ hhead
      by_cases ht : t = c.key
      · exact .inl (by simp [Message.target, ht])
      · exact .inr (by simp [Message.target, ht])

theorem view_of_absorb {c d : Channel} (hshape : c.consume = d.consume) (s t : String)
    (ms : List Message) (hms : ms = [.trigger s t] ∨ ms = [])
    (h : (c.absorb ms).view = (d.absorb ms).view) : c.view = d.view := by
  have hkey := key_eq_of_consume hshape
  have hname := nodeName_eq_of_consume hshape
  rw [view_absorb, view_absorb] at h
  have hcontents := congrArg ChannelView.contents h
  have hsame : c.view.contents = d.view.contents := by
    cases hms with
    | inl heq =>
      subst heq
      exact Contents.absorb_trigger_inj hcontents
    | inr heq =>
      subst heq
      rwa [Multiset.coe_nil, Contents.absorb_zero, Contents.absorb_zero] at hcontents
  rw [Channel.view, Channel.view, hkey, hname]
  exact congrArg (ChannelView.mk d.key d.nodeName) hsame

theorem seen_of_absorb {c d : Channel} (hshape : c.consume = d.consume) (s t : String)
    (ms : List Message) (hms : ms = [.trigger s t] ∨ ms = [])
    (h : (c.absorb ms).seen = (d.absorb ms).seen) : c.seen = d.seen := by
  have hname := nodeName_eq_of_consume hshape
  by_cases hend : c.nodeName = END
  · rw [seen_of_end hend, seen_of_end (hname ▸ hend), hshape]
  · have hend' : d.nodeName ≠ END := hname ▸ hend
    rw [seen_of_ne (c := c.absorb ms) hend,
      seen_of_ne (c := d.absorb ms) hend'] at h
    rw [seen_of_ne hend, seen_of_ne hend']
    exact view_of_absorb hshape s t ms hms h

theorem map_see_of_sameRuns
    (hsee : ∀ {c d : Channel}, c.consume = d.consume → ∀ s t ms, ms = [.trigger s t] ∨ ms = [] →
      see (c.absorb ms) = see (d.absorb ms) → see c = see d)
    (hshape : Emptied cs ds) (hinitial : g.initial ∈ ds.map (·.key))
    (h : SameRuns see g cs ds) : cs.map see = ds.map see := by
  have hinitial' : g.initial ∈ cs.map (·.key) := hshape.keys ▸ hinitial
  obtain ⟨s, hs, hschannels, -⟩ := start_eq hinitial' 0
  obtain ⟨t, ht, htchannels, -⟩ := start_eq hinitial 0
  have hfirst := congrArg Sight.channels (h 0 (fun _ _ _ => none) 0)
  rw [freshRun, freshRun, hs, ht] at hfirst
  change s.manager.channels.map see = t.manager.channels.map see at hfirst
  rw [hschannels, htchannels] at hfirst
  exact see_of_receive hsee hshape hfirst

theorem sameRuns_of_alike (h : Alike cs ds)
    (hinitial : g.initial ∈ ds.map (·.key)) : SameRuns Channel.seen g cs ds := by
  intro limit fates k
  have hinitial' : g.initial ∈ cs.map (·.key) := h.keys ▸ hinitial
  obtain ⟨s, hs, hschannels, hslimit⟩ := start_eq hinitial' limit
  obtain ⟨t, ht, htchannels, htlimit⟩ := start_eq hinitial limit
  have hms := matches_start hs
  have hmt := matches_start ht
  have hstart : ∀ {cs : List Channel} {s : LoopState}, LoopState.start g cs limit = (s, none) →
      s.step = 0 ∧ s.nodeVersion = (fun _ => 0) ∧ s.manager.buffer = [] := by
    intro cs s hs
    have heq := congrArg Prod.fst hs
    have herr : ((ChannelManager.init cs).bufferMessage
        (.trigger g.initial g.initial)).flush.2 = none := by
      rw [LoopState.start] at hs
      simpa using congrArg Prod.snd hs
    subst heq
    exact ⟨rfl, rfl, (ChannelManager.flush_ok (ChannelManager.flush_ok_iff.mp herr)).2.2.1⟩
  obtain ⟨hstep, hversion, hbuffer⟩ := hstart hs
  obtain ⟨hstep', hversion', hbuffer'⟩ := hstart ht
  have htwins : Twins limit s t := by
    refine ⟨⟨?_, hms.readyLeft, hmt.readyLeft, ?_, hstep.trans hstep'.symm,
      hversion.trans hversion'.symm, hms.retryLeft, hmt.retryLeft, ?_, hms.limit_window⟩, ?_⟩
    · rw [hschannels, htchannels]
      exact h.receive (List.Perm.refl _)
    · rw [hbuffer, hbuffer']
    · rw [hslimit, htlimit]
    · rw [hslimit, htlimit]
  have hresults : TwinResults g limit (.more s) (.more t) := .more htwins
  rw [freshRun, freshRun, hs, ht]
  exact (hresults.runFrom fates k).observe_eq

theorem forall₂_of_map_eq
    (h : cs.map see = ds.map see) : List.Forall₂ (fun c d => see c = see d) cs ds := by
  rwa [← forall₂_eq_eq_eq, forall₂_map_left_iff, forall₂_map_right_iff] at h

theorem not_hasState_of_map_see {new : List Channel} (hshape : Emptied cs new)
    (hnew : ∀ c ∈ new, ¬ c.HasState) (h : cs.map see = new.map see) {c : Channel} (hc : c ∈ cs)
    (hview : ∀ d : Channel, d.nodeName = c.nodeName → see d = d.view) : ¬ c.HasState := by
  have hboth := hshape.forall₂
  have hsee := forall₂_of_map_eq h
  clear hshape h
  induction hboth with
  | nil => cases hc
  | @cons c' d cs ds hc' _ ih =>
    cases hsee with
    | cons hhead htail =>
      have hrest := fun d hd => hnew d (.tail _ hd)
      cases mem_cons.mp hc with
      | inl heq =>
        subst heq
        have hd : see d = d.view := hview d (nodeName_eq_of_consume hc').symm
        rw [hview c rfl, hd] at hhead
        exact not_hasState_of_view hc' (hnew d (.head _)) hhead
      | inr hmem => exact ih hrest hmem htail

theorem alike_of_empty {new : List Channel} (hshape : Emptied cs new)
    (hnew : ∀ c ∈ new, ¬ c.HasState) (h : ∀ c ∈ cs, c.nodeName ≠ END → ¬ c.HasState) :
    Alike cs new := by
  have hall := hshape.forall₂
  clear hshape
  induction hall with
  | nil => rfl
  | @cons c d cs ds hc _ ih =>
    have hname := nodeName_eq_of_consume hc
    refine congrArg₂ List.cons ?_ (ih (fun d hd => hnew d (.tail _ hd))
      fun c hc => h c (.tail _ hc))
    by_cases hend : c.nodeName = END
    · rw [seen_of_end hend, seen_of_end (hname ▸ hend), hc]
    · have hempty := consume_of_not_hasState (h c (.head _) hend)
      have hempty' := consume_of_not_hasState (hnew d (.head _))
      rw [← hempty, ← hempty', hc]

theorem eq_of_empty {new : List Channel} (hshape : Emptied cs new)
    (hnew : ∀ c ∈ new, ¬ c.HasState) (h : ∀ c ∈ cs, ¬ c.HasState) : cs = new := by
  have hself : ∀ l : List Channel, (∀ c ∈ l, ¬ c.HasState) → l.map Channel.consume = l :=
    fun l hl => (map_congr_left fun c hc =>
      consume_of_not_hasState (hl c hc)).trans (map_id' l)
  rw [← hself cs h, ← hself new hnew]
  exact hshape

/-- After earlier runs on a compiled graph, a fresh run goes through the same supersteps as on
a new copy, whatever becomes of the tasks, exactly when no channel holds anything; and
through the same active nodes and contents, `END` apart, exactly when no other channel
holds anything. -/
theorem fresh_run_isolated_iff (g : Pregel) (new channels : List Channel)
    (hnew : NewCopy g new) (hearlier : EarlierRuns g new channels) :
    (SameRuns Channel.view g channels new ↔ ∀ c ∈ channels, ¬ c.HasState) ∧
      (SameRuns Channel.seen g channels new ↔
        ∀ c ∈ channels, c.nodeName ≠ END → ¬ c.HasState) := by
  have hshape := hearlier.emptied
  refine ⟨⟨fun h c hc => ?_, fun h => ?_⟩, ⟨fun h c hc hend => ?_, fun h => ?_⟩⟩
  · have hview := map_see_of_sameRuns view_of_absorb hshape hnew.initial h
    exact not_hasState_of_map_see hshape hnew.empty hview hc fun _ _ => rfl
  · rw [eq_of_empty hshape hnew.empty h]
    exact fun _ _ _ => rfl
  · have hseen := map_see_of_sameRuns seen_of_absorb hshape hnew.initial h
    exact not_hasState_of_map_see hshape hnew.empty hseen hc
      fun d hd => seen_of_ne (hd ▸ hend)
  · exact sameRuns_of_alike (alike_of_empty hshape hnew.empty h) hnew.initial

/-- The router `r` goes to `a` or to `b`; `w` waits for both. -/
def joinGraph : Pregel where
  nodes := [START, END, "r", "a", "b", "w"]

def joinBarrier : Channel := barrierChannel "w" [["a"], ["b"]]

def joinChannels : List Channel := joinGraph.nodes.map triggerChannel ++ [joinBarrier]

/-- Every task succeeds, and the router chooses. -/
def joinFates (choice : String) : Fates := fun _ n _ =>
  some (.messages (if n = START then [.trigger n "r"]
    else if n = "r" then [.trigger n choice]
    else if n = "w" then []
    else [.barrier n joinBarrier.key]))

/-- One superstep of a run in which the router chooses `a`. -/
def joinStep (s : LoopState) : LoopState :=
  (s.runStep joinGraph (fatedRound (joinFates "a") joinGraph s)).state

def joinEnd : LoopState :=
  joinStep (joinStep (joinStep (joinStep (LoopState.start joinGraph joinChannels 0).1)))

theorem joinChannels_new : NewCopy joinGraph joinChannels := by
  refine ⟨?_, ?_, ?_⟩ <;> decide

theorem steps_joinStep {s s' : LoopState} (h : Steps joinGraph (joinStep s) s') :
    Steps joinGraph s s' := .cons (fatedRound (joinFates "a") joinGraph s) h

theorem joinEnd_earlier : EarlierRuns joinGraph joinChannels joinEnd.manager.channels :=
  .next 0 none .none
    (steps_joinStep (steps_joinStep (steps_joinStep (steps_joinStep (.nil joinEnd)))))

/-- A completed run that went to `a` makes a later run that goes to `b` execute `w`. -/
theorem fresh_run_not_isolated :
    ¬ ∀ (g : Pregel) (new channels : List Channel), NewCopy g new →
      EarlierRuns g new channels → SameRuns Channel.view g channels new := by
  intro h
  have hsame := h joinGraph joinChannels joinEnd.manager.channels joinChannels_new
    joinEnd_earlier 0 (joinFates "b") 3
  have hactive := congrArg Sight.active hsame
  revert hactive
  decide

theorem fresh_run_isolated_iff_new :
    SameRuns Channel.view joinGraph joinChannels joinChannels ∧
      ∃ c ∈ joinEnd.manager.channels, c.nodeName ≠ END ∧ c.HasState := by
  have hnew := (fresh_run_isolated_iff joinGraph joinChannels joinChannels joinChannels_new
    .none).1.mpr joinChannels_new.empty
  exact ⟨hnew, by decide⟩

end JiuwenSpec.Graph

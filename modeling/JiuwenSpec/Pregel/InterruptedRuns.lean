import JiuwenSpec.Pregel.Resume

/-!
# Interruptions do not change a run

After each superstep an interrupted run is where the uninterrupted run is, and no node that
succeeded in a superstep is executed in it again. Left out is what the checkpoint leaves
out on purpose, the channels of `END`; and a resumed run counts its recursion limit anew,
so it may go on where the uninterrupted run ends at its limit.
-/

namespace JiuwenSpec.Graph

open LoopState List

variable {g : Pregel} {limit : Int} {tasks : Tasks}

variable {s s' : LoopState}

theorem delivered_of_more {r : Round}
    (hactive : s.active g ≠ []) (hr : r.Answers ((s.entered g).routes tasks) (s.active g))
    (h : s.runStep g r = .more s') :
    r.failures = [] ∧ ¬ s.maxStep < s.step ∧ (s.entered g).deliver (waitAll r).1 = .more s' := by
  have hlimit : ¬ s.maxStep < s.step := by
    intro hpassed
    rw [runStep_limit hactive r hpassed] at h
    cases h
  cases hwait : (waitAll r).2 with
  | none =>
    rw [runStep_delivered hactive hlimit hwait] at h
    exact ⟨(Round.waitAll_error_iff hr).mp hwait, hlimit, h⟩
  | some e =>
    rw [runStep_raised hactive hlimit hwait] at h
    cases h

theorem runStep_of_success {r : Round}
    (hactive : s.active g ≠ []) (hr : r.Answers ((s.entered g).routes tasks) (s.active g))
    (hf : r.failures = []) (hlimit : ¬ s.maxStep < s.step) :
    s.runStep g r = (s.entered g).deliver (waitAll r).1 :=
  runStep_delivered hactive hlimit ((Round.waitAll_error_iff hr).mpr hf)

variable {t t' : LoopState}

theorem InProgress.matches {succeeded : List String}
    (h : InProgress g limit tasks s t succeeded) (hready : s.manager.ReadyExact)
    (hwindow : s.maxStep ≤ s.step + recursionLimit limit) {r₀ r : Round}
    (h₀ : r₀.Answers ((s.entered g).routes tasks) (s.active g)) (hf₀ : r₀.failures = [])
    (hr : r.Answers ((t.entered g).routes tasks) (t.active g)) (hf : r.failures = [])
    (hs : (s.entered g).deliver (waitAll r₀).1 = .more s')
    (ht : (t.entered g).deliver (waitAll r).1 = .more t') : Matches limit s' t' := by
  apply matches_of_deliver h.alike (entered_readyExact hready) (entered_readyExact h.readyRight)
    (h.messages_perm h₀ hf₀ hr hf) _ h.version_eq (entered_retryPendingNodes g s)
    (entered_retryPendingNodes g t) _ _ hs ht
  · rw [entered_step, entered_step, h.step_eq]
  · rw [entered_maxStep, entered_maxStep]
    exact h.limit_le
  · rw [entered_maxStep, entered_step]
    exact hwindow

/-- The attempts at a superstep with the given nodes: each node succeeds in exactly one of
them and is executed in none after it. -/
structure OnceEach (attempts : List Attempt) (nodes : List String) : Prop where
  succeeded : (attempts.flatMap Attempt.succeeded).Perm nodes
  not_again : attempts.Pairwise fun a b => ∀ n ∈ a.succeeded, n ∉ b.executed

variable {attempts : List Attempt}

/-- However often a superstep that is under way is interrupted, it ends like the
uninterrupted one. -/
theorem superstep_of_inProgress {r₀ : Round} (hs : s.Sound)
    (hretry : s.retryPendingNodes = []) (hwindow : s.maxStep ≤ s.step + recursionLimit limit)
    (h₀ : r₀.Answers ((s.entered g).routes tasks) (s.active g)) (hf₀ : r₀.failures = [])
    (hdeliver : (s.entered g).deliver (waitAll r₀).1 = .more s')
    (hsup : Superstep g limit tasks t attempts t') {succeeded : List String}
    (h : InProgress g limit tasks s t succeeded) (hactive : t.active g ≠ []) :
    Matches limit s' t' ∧ (succeeded ++ attempts.flatMap Attempt.succeeded).Perm (s.active g) ∧
      (∀ a ∈ attempts, ∀ n ∈ succeeded, n ∉ a.executed) ∧
      attempts.Pairwise (fun a b => ∀ n ∈ a.succeeded, n ∉ b.executed) := by
  have hdisjoint : ∀ {u : LoopState} {done : List String},
      InProgress g limit tasks s u done → ∀ n ∈ done, n ∉ u.active g := by
    intro u done hu n hn hmem
    have hnodup := hu.nodes.nodup_iff.mpr (active_nodup hs)
    exact disjoint_of_nodup_append hnodup hn hmem
  induction hsup generalizing succeeded with
  | @completed t t' r answers completes =>
    obtain ⟨hf, -, ht⟩ := delivered_of_more hactive answers completes
    have hall : r.succeeded.Perm (t.active g) := by
      have hp := (r.succeeded_append_failures).trans answers.nodes
      rwa [hf, append_nil] at hp
    refine ⟨h.matches hs.ready hwindow h₀ hf₀ answers hf hdeliver ht, ?_, ?_,
      pairwise_singleton _ _⟩
    · rw [flatMap_singleton]
      exact (List.Perm.append_left succeeded hall).trans h.nodes
    · intro a ha
      rw [mem_singleton.mp ha]
      exact hdisjoint h
  | @interrupted t t₁ t₂ t' r ex e channels attempts answers raises failed untouched resumes _ ih =>
    obtain ⟨hactive₂, hfailures, h₂⟩ :=
      h.resume hs hretry hwindow answers raises failed untouched resumes
    obtain ⟨hmatches, hperm, hold, hpairwise⟩ := ih h₂ (hactive₂ ▸ hfailures)
    refine ⟨hmatches, ?_, ?_, ?_⟩
    · rwa [append_assoc] at hperm
    · intro a ha n hn
      cases mem_cons.mp ha with
      | inl heq => exact heq ▸ hdisjoint h n hn
      | inr hmem => exact hold a hmem n (mem_append_left _ hn)
    · exact pairwise_cons.mpr
        ⟨fun a ha n hn => hold a ha n (mem_append_right _ hn), hpairwise⟩

theorem entered_of_idle (h : s.active g = []) : s.entered g = (s.activate g).1 := by
  rw [entered, h]
  rfl

theorem Matches.idle (h : Matches limit s t) :
    Alike (s.activate g).1.manager.channels (t.activate g).1.manager.channels ∧
      ((s.activate g).1.manager.buffer ++ ({} : Executor).succeedMessages).Perm
        ((t.activate g).1.manager.buffer ++ ({} : Executor).succeedMessages) := by
  rw [activate_manager, activate_manager]
  refine ⟨h.alike, ?_⟩
  simpa using h.buffer

theorem Matches.deliver_idle (h : Matches limit s t)
    (hidle : s.active g = []) (hs : (s.activate g).1.deliver {} = .more s')
    (ht : (t.activate g).1.deliver {} = .more t') : Matches limit s' t' := by
  have hidle' : t.active g = [] := (hidle ▸ h.active_perm g).eq_nil
  have hversion := (h.inProgress g fun _ _ _ => []).version_eq
  rw [entered_of_idle hidle, entered_of_idle hidle'] at hversion
  obtain ⟨halike, hperm⟩ := h.idle (g := g)
  apply matches_of_deliver halike _ _ hperm _ hversion (activate_retryPendingNodes g s)
    (activate_retryPendingNodes g t) _ _ hs ht
  · rw [activate_manager]
    exact h.readyLeft
  · rw [activate_manager]
    exact h.readyRight
  · rw [activate_step, activate_step, h.step_eq]
  · rw [activate_maxStep, activate_maxStep]
    exact h.limit_le
  · rw [activate_maxStep, activate_step]
    exact h.limit_window

theorem superstep_of_idle {r₀ : Round}
    (h : Matches limit s t) (hidle : s.active g = []) (hs : s.runStep g r₀ = .more s')
    (hsup : Superstep g limit tasks t attempts t') :
    Matches limit s' t' ∧ OnceEach attempts (s.active g) := by
  have hidle' : t.active g = [] := (hidle ▸ h.active_perm g).eq_nil
  have hmore : ∀ {u u' : LoopState} {r : Round}, u.active g = [] → u.runStep g r = .more u' →
      (u.activate g).1.deliver {} = .more u' := by
    intro u u' r hu hstep
    rw [runStep_idle hu] at hstep
    split at hstep
    · cases hstep
    · exact hstep
  cases hsup with
  | @completed _ _ r answers completes =>
    refine ⟨h.deliver_idle hidle (hmore hidle hs) (hmore hidle' completes), ?_,
      pairwise_singleton _ _⟩
    have hnodes := r.succeeded_append_failures.trans answers.nodes
    rw [hidle'] at hnodes
    have hnil : r.succeeded = [] := (append_eq_nil_iff.mp hnodes.eq_nil).1
    rw [hidle, flatMap_singleton, hnil]
  | interrupted answers raises failed untouched resumes rest =>
    exact absurd hidle' (raised_of_node raises failed).1

theorem superstep_matches {r₀ : Round} (h : Matches limit s t)
    (h₀ : r₀.Answers ((s.entered g).routes tasks) (s.active g)) (hs : s.runStep g r₀ = .more s')
    (hsup : Superstep g limit tasks t attempts t') :
    Matches limit s' t' ∧ OnceEach attempts (s.active g) := by
  by_cases hactive : s.active g = []
  · exact superstep_of_idle h hactive hs hsup
  · have hactive' : t.active g ≠ [] := fun hnil =>
      hactive ((h.active_perm g).symm.trans (List.Perm.of_eq hnil)).eq_nil
    obtain ⟨hf₀, -, hdeliver⟩ := delivered_of_more hactive h₀ hs
    obtain ⟨hmatches, hperm, -, hpairwise⟩ :=
      superstep_of_inProgress h.sound h.retryLeft h.limit_window h₀ hf₀ hdeliver hsup
        (h.inProgress g tasks) hactive'
    exact ⟨hmatches, hperm, hpairwise⟩

/-- Interrupted attempts at a superstep that has not ended yet. -/
inductive Interruptions (g : Pregel) (limit : Int) (tasks : Tasks) :
    LoopState → List Attempt → LoopState → Prop
  | nil (s : LoopState) : Interruptions g limit tasks s [] s
  | cons {s s₁ s₂ s' : LoopState} {r : Round} {ex : Executor} {e : StepError}
      {channels : List Channel} {attempts : List Attempt}
      (answers : r.Answers ((s.entered g).routes tasks) (s.active g))
      (raises : s.runStep g r = .raised s₁ ex e)
      (failed : e = .interrupt ∨ e = .exception)
      (untouched : Untouched s₁.manager.channels channels)
      (resumes : LoopState.init g channels limit (some (s₁.saveStateOnError ex)) = (s₂, none))
      (rest : Interruptions g limit tasks s₂ attempts s') :
      Interruptions g limit tasks s (⟨s.active g, r.succeeded⟩ :: attempts) s'

/-- The same place in a run, the channels of `END` apart. -/
structure SamePlace (s t : LoopState) : Prop where
  channels : Alike s.manager.channels t.manager.channels
  ready : ∀ n, n ≠ END → (n ∈ s.manager.ready ↔ n ∈ t.manager.ready)
  buffer : s.manager.buffer.Perm t.manager.buffer
  step : s.step = t.step
  nodeVersion : s.nodeVersion = t.nodeVersion

theorem Matches.samePlace (h : Matches limit s t) : SamePlace s t :=
  ⟨h.alike, fun _ hn => h.mem_ready hn, h.buffer, h.step_eq, h.version_eq⟩

/-- Two supersteps end alike: both are the last, both go on from the same place, both find a
message without a channel, or the first passes its recursion limit. -/
def EndAlike : StepResult → StepResult → Prop
  | .finished _, .finished _ => True
  | .more s, .more t => SamePlace s t
  | .raised _ _ (.unknownTarget _), .raised _ _ (.unknownTarget _) => True
  | .raised _ _ .recursion, _ => True
  | _, _ => False

theorem InProgress.endAlike {succeeded : List String}
    (h : InProgress g limit tasks s t succeeded) (hready : s.manager.ReadyExact)
    (hwindow : s.maxStep ≤ s.step + recursionLimit limit) {r₀ r : Round}
    (h₀ : r₀.Answers ((s.entered g).routes tasks) (s.active g)) (hf₀ : r₀.failures = [])
    (hr : r.Answers ((t.entered g).routes tasks) (t.active g)) (hf : r.failures = [])
    (hs : s.active g ≠ []) (ht : t.active g ≠ []) : EndAlike (s.runStep g r₀) (t.runStep g r) := by
  by_cases hpassed : s.maxStep < s.step
  · rw [runStep_limit hs r₀ hpassed]
    exact True.intro
  · have hlimit : ¬ t.maxStep < t.step := by
      have hle := h.limit_le
      rw [← h.step_eq]
      omega
    rw [runStep_of_success hs h₀ hf₀ hpassed, runStep_of_success ht hr hf hlimit]
    have hiff : (s.entered g).CanDeliver (waitAll r₀).1 ↔ (t.entered g).CanDeliver (waitAll r).1 :=
      canDeliver_iff h.alike (h.messages_perm h₀ hf₀ hr hf)
    by_cases hcan : (s.entered g).CanDeliver (waitAll r₀).1
    · obtain ⟨m, hm, -⟩ := deliver_of_canDeliver hcan
      obtain ⟨m', hm', -⟩ := deliver_of_canDeliver (hiff.mp hcan)
      have hmatches := h.matches hready hwindow h₀ hf₀ hr hf hm hm'
      rw [hm, hm']
      exact hmatches.samePlace
    · obtain ⟨s', target, hs'⟩ := deliver_of_not_canDeliver hcan
      obtain ⟨t', target', ht'⟩ := deliver_of_not_canDeliver (fun h => hcan (hiff.mpr h))
      rw [hs', ht']
      exact True.intro

theorem Matches.isEmpty_eq (h : Matches limit s t) : s.manager.isEmpty = t.manager.isEmpty := by
  rw [ChannelManager.isEmpty, ChannelManager.isEmpty, Bool.eq_iff_iff, List.isEmpty_iff,
    List.isEmpty_iff]
  exact ⟨fun hnil => (hnil ▸ h.buffer).symm.eq_nil, fun hnil => (hnil ▸ h.buffer).eq_nil⟩

theorem Matches.endAlike_of_idle (h : Matches limit s t)
    (hs : s.active g = []) (r₀ r : Round) : EndAlike (s.runStep g r₀) (t.runStep g r) := by
  have ht : t.active g = [] := (hs ▸ h.active_perm g).eq_nil
  rw [runStep_idle hs, runStep_idle ht, ← h.isEmpty_eq]
  cases s.manager.isEmpty with
  | true => exact True.intro
  | false =>
    obtain ⟨halike, hperm⟩ := h.idle (g := g)
    have hiff : (s.activate g).1.CanDeliver {} ↔ (t.activate g).1.CanDeliver {} :=
      canDeliver_iff halike hperm
    simp only [Bool.false_eq_true, if_false]
    by_cases hcan : (s.activate g).1.CanDeliver {}
    · obtain ⟨m, hm, -⟩ := deliver_of_canDeliver hcan
      obtain ⟨m', hm', -⟩ := deliver_of_canDeliver (hiff.mp hcan)
      have hmatches := h.deliver_idle hs hm hm'
      rw [hm, hm']
      exact hmatches.samePlace
    · obtain ⟨s', target, hs'⟩ := deliver_of_not_canDeliver hcan
      obtain ⟨t', target', ht'⟩ := deliver_of_not_canDeliver (fun h => hcan (hiff.mpr h))
      rw [hs', ht']
      exact True.intro

theorem InProgress.interruptions (hs : s.Sound)
    (hretry : s.retryPendingNodes = []) (hwindow : s.maxStep ≤ s.step + recursionLimit limit)
    (hint : Interruptions g limit tasks t attempts t')
    {succeeded : List String} (h : InProgress g limit tasks s t succeeded)
    (hactive : t.active g ≠ []) :
    InProgress g limit tasks s t' (succeeded ++ attempts.flatMap Attempt.succeeded) ∧
      t'.active g ≠ [] := by
  induction hint generalizing succeeded with
  | nil t =>
    rw [flatMap_nil, append_nil]
    exact ⟨h, hactive⟩
  | cons answers raises failed untouched resumes _ ih =>
    obtain ⟨hactive₂, hfailures, h₂⟩ :=
      h.resume hs hretry hwindow answers raises failed untouched resumes
    rw [flatMap_cons, ← append_assoc]
    exact ih h₂ (hactive₂ ▸ hfailures)

theorem Matches.endAlike (h : Matches limit s t)
    (hint : Interruptions g limit tasks t attempts t') :
    (attempts.flatMap Attempt.succeeded ++ t'.active g).Perm (s.active g) ∧
      ∀ r₀ r : Round, r₀.Answers ((s.entered g).routes tasks) (s.active g) → r₀.failures = [] →
        r.Answers ((t'.entered g).routes tasks) (t'.active g) → r.failures = [] →
          EndAlike (s.runStep g r₀) (t'.runStep g r) := by
  by_cases hs : s.active g = []
  · have ht : t.active g = [] := (hs ▸ h.active_perm g).eq_nil
    cases hint with
    | nil => exact ⟨by rw [hs, ht]; rfl, fun r₀ r _ _ _ _ => h.endAlike_of_idle hs r₀ r⟩
    | cons answers raises failed _ _ _ => exact absurd ht (raised_of_node raises failed).1
  · have ht : t.active g ≠ [] := fun hnil =>
      hs ((h.active_perm g).symm.trans (List.Perm.of_eq hnil)).eq_nil
    obtain ⟨h', ht'⟩ :=
      (h.inProgress g tasks).interruptions h.sound h.retryLeft h.limit_window hint ht
    exact ⟨h'.nodes, fun r₀ r h₀ hf₀ hr hf =>
      h'.endAlike h.readyLeft h.limit_window h₀ hf₀ hr hf hs ht'⟩

theorem matches_start {channels : List Channel}
    (h : LoopState.start g channels limit = (s, none)) : Matches limit s s := by
  have hm : ((ChannelManager.init channels).bufferMessage (.trigger g.initial g.initial)).flush.2 =
      none := by
    rw [LoopState.start] at h
    simpa using congrArg Prod.snd h
  have hs := congrArg Prod.fst h
  obtain ⟨-, -, hbuffer, hready⟩ := ChannelManager.flush_ok (ChannelManager.flush_ok_iff.mp hm)
  have hinit := ChannelManager.init_readyExact channels
  have hexact := hready ⟨hinit.mem_iff, hinit.nodup⟩
  subst hs
  exact ⟨Alike.refl _, hexact, hexact, List.Perm.refl _, rfl, rfl, rfl, rfl, le_refl _,
    by simp [LoopState.start]⟩

theorem runs_match {trace : List (Finset String)}
    {attempts : List (List Attempt)} (h : Matches limit s t) (hs : PlainRun g tasks s trace s')
    (ht : InterruptedRun g limit tasks t attempts t') (hlength : trace.length = attempts.length) :
    Matches limit s' t' ∧ List.Forall₂ (fun nodes attempts =>
      OnceEach attempts nodes.toList) trace attempts := by
  induction hs generalizing t attempts with
  | nil s =>
    cases ht with
    | nil => exact ⟨h, .nil⟩
    | cons _ _ => cases hlength
  | @cons s s₁ s' r trace answers completes _ ih =>
    cases ht with
    | nil => cases hlength
    | cons superstep rest =>
      obtain ⟨hmatches, honce⟩ := superstep_matches h answers completes superstep
      obtain ⟨hend, hall⟩ := ih hmatches rest (Nat.succ.inj hlength)
      have hnodup := active_nodup h.sound (g := g)
      have hperm : (s.active g).Perm (s.active g).toFinset.toList :=
        (perm_ext_iff_of_nodup hnodup (Finset.nodup_toList _)).mpr fun n => by simp
      exact ⟨hend, .cons ⟨honce.succeeded.trans hperm, honce.not_again⟩ hall⟩

/-- Interruptions do not change a run. After the same number of supersteps the interrupted
run is at the same place as the uninterrupted one; in each superstep every node succeeded
once and was not executed again; and the next superstep, however often it is interrupted,
is left to the nodes that have not succeeded and ends alike. -/
theorem interrupted_run_matches (g : Pregel) (limit : Int) (tasks : Tasks)
    (channels : List Channel) (s s' t' : LoopState) (trace : List (Finset String))
    (attempts : List (List Attempt)) (hstart : LoopState.start g channels limit = (s, none))
    (hplain : PlainRun g tasks s trace s')
    (hinterrupted : InterruptedRun g limit tasks s attempts t')
    (hlength : trace.length = attempts.length) :
    SamePlace s' t' ∧
      List.Forall₂ (fun nodes attempts => OnceEach attempts nodes.toList) trace attempts ∧
      ∀ more t'', Interruptions g limit tasks t' more t'' →
        (more.flatMap Attempt.succeeded ++ t''.active g).Perm (s'.active g) ∧
          ∀ r₀ r : Round, r₀.Answers ((s'.entered g).routes tasks) (s'.active g) →
            r₀.failures = [] → r.Answers ((t''.entered g).routes tasks) (t''.active g) →
              r.failures = [] → EndAlike (s'.runStep g r₀) (t''.runStep g r) := by
  obtain ⟨hmatches, honce⟩ := runs_match (matches_start hstart) hplain hinterrupted hlength
  exact ⟨hmatches.samePlace, honce, fun _ _ hint => hmatches.endAlike hint⟩

/-- `START` activates `a` and `b`, and `b` activates `c`. -/
def forkGraph : Pregel where
  nodes := [START, END, "a", "b", "c"]

def forkChannels : List Channel := forkGraph.nodes.map triggerChannel

def forkTasks : Tasks := fun _ n _ =>
  if n = START then [.trigger n "a", .trigger n "b"]
  else if n = "b" then [.trigger n "c"]
  else [.trigger n END]

def forkRound (s : LoopState) (failing : List String) : Round :=
  Round.interrupting ((s.entered forkGraph).routes forkTasks) (s.active forkGraph) failing

def forkAfter (s : LoopState) (failing : List String) : LoopState :=
  (s.runStep forkGraph (forkRound s failing)).state

def forkResumed (s : LoopState) (failing : List String) : LoopState :=
  (LoopState.init forkGraph ((forkAfter s failing).manager.channels.map Channel.consume) 0
    (some ((forkAfter s failing).saveStateOnError (waitAll (forkRound s failing)).1))).1

def forkStart : LoopState := (LoopState.start forkGraph forkChannels 0).1

def forkPlainEnd : LoopState := forkAfter (forkAfter (forkAfter forkStart []) []) []

/-- The second superstep, finished after `b` was interrupted. -/
def forkSecond : LoopState := forkAfter (forkResumed (forkAfter forkStart []) ["b"]) []

def forkInterruptedEnd : LoopState := forkAfter (forkResumed forkSecond ["c"]) []

theorem forkPlainRun : PlainRun forkGraph forkTasks forkStart
    [{START}, {"a", "b"}, {"c"}] forkPlainEnd :=
  .cons (Round.interrupting_answers _ _ []) rfl (.cons (Round.interrupting_answers _ _ []) rfl
    (.cons (Round.interrupting_answers _ _ []) rfl (.nil _)))

theorem forkInterruptedRun : InterruptedRun forkGraph 0 forkTasks forkStart
    [[⟨[START], [START]⟩], [⟨["a", "b"], ["a"]⟩, ⟨["b"], ["b"]⟩], [⟨["c"], []⟩, ⟨["c"], ["c"]⟩]]
    forkInterruptedEnd :=
  .cons (.completed (Round.interrupting_answers _ _ []) rfl)
    (.cons
      (.interrupted (Round.interrupting_answers _ _ ["b"]) rfl (.inl rfl) (Untouched.fresh _) rfl
        (.completed (Round.interrupting_answers _ _ []) rfl))
      (.cons
        (.interrupted (Round.interrupting_answers _ _ ["c"]) rfl (.inl rfl) (Untouched.fresh _)
          rfl (.completed (Round.interrupting_answers _ _ []) rfl))
        (.nil _)))

theorem interrupted_run_matches_fork : SamePlace forkPlainEnd forkInterruptedEnd ∧
    EndAlike (forkPlainEnd.runStep forkGraph (forkRound forkPlainEnd []))
      (forkInterruptedEnd.runStep forkGraph (forkRound forkInterruptedEnd [])) := by
  obtain ⟨hplace, -, hnext⟩ := interrupted_run_matches forkGraph 0 forkTasks forkChannels forkStart
    forkPlainEnd forkInterruptedEnd _ _ rfl forkPlainRun forkInterruptedRun rfl
  obtain ⟨-, hend⟩ := hnext [] forkInterruptedEnd (.nil _)
  exact ⟨hplace, hend _ _ (Round.interrupting_answers _ _ []) rfl
    (Round.interrupting_answers _ _ []) rfl⟩

/-- The message of `a` to `END` is in no checkpoint, and a new copy of the graph has never
received it. -/
theorem end_contents_lost :
    ¬ ∀ (g : Pregel) (limit : Int) (tasks : Tasks) (channels : List Channel)
        (s s' t' : LoopState) (trace : List (Finset String)) (attempts : List (List Attempt)),
      LoopState.start g channels limit = (s, none) → PlainRun g tasks s trace s' →
      InterruptedRun g limit tasks s attempts t' → trace.length = attempts.length →
      s'.manager.channels.map Channel.view = t'.manager.channels.map Channel.view := by
  intro h
  have hviews := h forkGraph 0 forkTasks forkChannels forkStart forkPlainEnd forkInterruptedEnd
    _ _ rfl forkPlainRun forkInterruptedRun rfl
  have hsizes := congrArg (List.map fun v => v.contents.size) hviews
  revert hsizes
  decide

end JiuwenSpec.Graph

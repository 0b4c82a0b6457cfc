import JiuwenSpec.Pregel.Supersteps

/-!
# Interrupted runs and uninterrupted ones

An interrupted superstep is finished by resumed runs that execute the pending nodes until
all have succeeded. Throughout, the channels look as they did when the uninterrupted
superstep submitted its tasks, and the buffer holds the messages of the nodes that have
succeeded so far; so the delivery that ends it is the one of the uninterrupted run.
-/

namespace JiuwenSpec.Graph

/-- One attempt at a superstep: the nodes executed and those of them that succeeded. -/
structure Attempt where
  executed : List String
  succeeded : List String

open LoopState
open scoped List

/-- A superstep with any number of interruptions: each attempt that raises writes a
checkpoint, and a run with the same limit resumes from it on the same channels or on those
of a new copy of the graph. -/
inductive Superstep (g : Pregel) (limit : Int) (tasks : Tasks) :
    LoopState → List Attempt → LoopState → Prop
  | completed {s s' : LoopState} {r : Round}
      (answers : r.Answers ((s.entered g).routes tasks) (s.active g))
      (completes : s.runStep g r = .more s') :
      Superstep g limit tasks s [⟨s.active g, r.succeeded⟩] s'
  | interrupted {s s₁ s₂ s' : LoopState} {r : Round} {ex : Executor} {e : StepError}
      {channels : List Channel} {attempts : List Attempt}
      (answers : r.Answers ((s.entered g).routes tasks) (s.active g))
      (raises : s.runStep g r = .raised s₁ ex e)
      (failed : e = .interrupt ∨ e = .exception)
      (untouched : Untouched s₁.manager.channels channels)
      (resumes : LoopState.init g channels limit (some (s₁.saveStateOnError ex)) = (s₂, none))
      (rest : Superstep g limit tasks s₂ attempts s') :
      Superstep g limit tasks s (⟨s.active g, r.succeeded⟩ :: attempts) s'

/-- Supersteps of which none is interrupted, with the nodes of each. -/
inductive PlainRun (g : Pregel) (tasks : Tasks) :
    LoopState → List (Finset String) → LoopState → Prop
  | nil (s : LoopState) : PlainRun g tasks s [] s
  | cons {s s' s'' : LoopState} {r : Round} {trace : List (Finset String)}
      (answers : r.Answers ((s.entered g).routes tasks) (s.active g))
      (completes : s.runStep g r = .more s') (rest : PlainRun g tasks s' trace s'') :
      PlainRun g tasks s ((s.active g).toFinset :: trace) s''

inductive InterruptedRun (g : Pregel) (limit : Int) (tasks : Tasks) :
    LoopState → List (List Attempt) → LoopState → Prop
  | nil (s : LoopState) : InterruptedRun g limit tasks s [] s
  | cons {s s' s'' : LoopState} {attempts : List Attempt} {trace : List (List Attempt)}
      (superstep : Superstep g limit tasks s attempts s')
      (rest : InterruptedRun g limit tasks s' trace s'') :
      InterruptedRun g limit tasks s (attempts :: trace) s''

/-- Between supersteps: the same channels and ready nodes, `END` apart, the same buffered
messages, superstep and versions, nothing to retry, and no lower limit on the right. -/
structure Matches (limit : Int) (s t : LoopState) : Prop where
  alike : Alike s.manager.channels t.manager.channels
  readyLeft : s.manager.ReadyExact
  readyRight : t.manager.ReadyExact
  buffer : s.manager.buffer.Perm t.manager.buffer
  step_eq : s.step = t.step
  version_eq : s.nodeVersion = t.nodeVersion
  retryLeft : s.retryPendingNodes = []
  retryRight : t.retryPendingNodes = []
  limit_le : s.maxStep ≤ t.maxStep
  limit_window : s.maxStep ≤ s.step + recursionLimit limit

/-- Inside a superstep of the run on the left: on the right the tasks of the nodes that
remain are submitted, and the messages of those that have succeeded are buffered. -/
structure InProgress (g : Pregel) (limit : Int) (tasks : Tasks) (s t : LoopState)
    (succeeded : List String) : Prop where
  alike : Alike (s.entered g).manager.channels (t.entered g).manager.channels
  readyRight : t.manager.ReadyExact
  buffer : (s.manager.buffer ++ succeeded.flatMap ((s.entered g).routes tasks)).Perm
    t.manager.buffer
  nodes : (succeeded ++ t.active g).Perm (s.active g)
  step_eq : s.step = t.step
  version_eq : (s.entered g).nodeVersion = (t.entered g).nodeVersion
  limit_le : s.maxStep ≤ t.maxStep

variable {g : Pregel} {s : LoopState}

theorem end_not_mem_active (h : s.retryPendingNodes = []) : END ∉ s.active g := by
  rw [active_of_no_retry h]
  exact fun hmem => (mem_readyNodes.mp hmem).2.2 rfl

variable {limit : Int} {t : LoopState}

theorem Matches.sound (h : Matches limit s t) : s.Sound :=
  ⟨h.readyLeft, by rw [h.retryLeft]; exact List.nodup_nil⟩

theorem Matches.mem_ready (h : Matches limit s t) {n : String}
    (hn : n ≠ END) : n ∈ s.manager.ready ↔ n ∈ t.manager.ready := by
  rw [h.readyLeft.mem_iff, h.readyRight.mem_iff, h.alike.anyReady hn]

theorem Matches.active_perm (h : Matches limit s t)
    (g : Pregel) : (t.active g).Perm (s.active g) := by
  have hsound : t.Sound := ⟨h.readyRight, by rw [h.retryRight]; exact List.nodup_nil⟩
  rw [List.perm_ext_iff_of_nodup (active_nodup hsound) (active_nodup h.sound)]
  intro n
  rw [active_of_no_retry h.retryLeft, active_of_no_retry h.retryRight, mem_readyNodes,
    mem_readyNodes]
  constructor
  · rintro ⟨hready, hnode, hn⟩
    exact ⟨(h.mem_ready hn).mpr hready, hnode, hn⟩
  · rintro ⟨hready, hnode, hn⟩
    exact ⟨(h.mem_ready hn).mp hready, hnode, hn⟩

theorem version_of_no_retry (h : s.retryPendingNodes = []) :
    (s.entered g).nodeVersion =
      fun n => s.nodeVersion n + if n ∈ s.active g then 1 else 0 := by
  rw [entered_nodeVersion, active_of_no_retry h, activate, h]
  rfl

theorem Matches.inProgress (h : Matches limit s t) (g : Pregel)
    (tasks : Tasks) : InProgress g limit tasks s t [] where
  alike := by
    rw [entered_channels, entered_channels]
    exact h.alike.consumed (h.active_perm g).symm (end_not_mem_active h.retryLeft)
  readyRight := h.readyRight
  buffer := by simpa using h.buffer
  nodes := h.active_perm g
  step_eq := h.step_eq
  version_eq := by
    rw [version_of_no_retry h.retryLeft, version_of_no_retry h.retryRight, h.version_eq]
    funext n
    simp only [(h.active_perm g).mem_iff]
  limit_le := h.limit_le

theorem InProgress.routes_eq {tasks : Tasks}
    {succeeded : List String} (h : InProgress g limit tasks s t succeeded) :
    (t.entered g).routes tasks = (s.entered g).routes tasks := by
  funext n
  rw [routes, routes, entered_step, entered_step, h.step_eq, h.version_eq]

theorem InProgress.messages_perm {tasks : Tasks}
    {succeeded : List String} (h : InProgress g limit tasks s t succeeded) {r₀ r : Round}
    (h₀ : r₀.Answers ((s.entered g).routes tasks) (s.active g)) (hf₀ : r₀.failures = [])
    (hr : r.Answers ((t.entered g).routes tasks) (t.active g)) (hf : r.failures = []) :
    ((s.entered g).manager.buffer ++ (waitAll r₀).1.succeedMessages).Perm
      ((t.entered g).manager.buffer ++ (waitAll r).1.succeedMessages) := by
  have hall₀ : r₀.succeeded.Perm (s.active g) := by
    have hp := (r₀.succeeded_append_failures).trans h₀.nodes
    rwa [hf₀, List.append_nil] at hp
  have hall : r.succeeded.Perm (t.active g) := by
    have hp := (r.succeeded_append_failures).trans hr.nodes
    rwa [hf, List.append_nil] at hp
  have hnodes : r₀.succeeded.Perm (succeeded ++ r.succeeded) :=
    hall₀.trans (h.nodes.symm.trans (List.Perm.append_left succeeded hall.symm))
  rw [entered_buffer, entered_buffer, Round.waitAll_succeedMessages,
    Round.waitAll_succeedMessages, Round.messages_eq h₀, Round.messages_eq hr, h.routes_eq]
  calc s.manager.buffer ++ r₀.succeeded.flatMap ((s.entered g).routes tasks)
    _ ~ s.manager.buffer ++ (succeeded ++ r.succeeded).flatMap ((s.entered g).routes tasks) :=
        List.Perm.append_left _ (hnodes.flatMap_right _)
    _ = (s.manager.buffer ++ succeeded.flatMap ((s.entered g).routes tasks)) ++
          r.succeeded.flatMap ((s.entered g).routes tasks) := by
        rw [List.flatMap_append, List.append_assoc]
    _ ~ t.manager.buffer ++ r.succeeded.flatMap ((s.entered g).routes tasks) :=
        h.buffer.append_right _

theorem canDeliver_iff {ex ex' : Executor} (halike : Alike s.manager.channels t.manager.channels)
    (hperm : (s.manager.buffer ++ ex.succeedMessages).Perm
      (t.manager.buffer ++ ex'.succeedMessages)) : s.CanDeliver ex ↔ t.CanDeliver ex' := by
  have hkeys := halike.keys
  constructor
  · intro h msg hmsg
    exact hkeys ▸ h msg (hperm.mem_iff.mpr hmsg)
  · intro h msg hmsg
    exact hkeys ▸ h msg (hperm.mem_iff.mp hmsg)

theorem matches_of_deliver {s' t' : LoopState} {ex ex' : Executor}
    (halike : Alike s.manager.channels t.manager.channels)
    (hreadyLeft : s.manager.ReadyExact) (hreadyRight : t.manager.ReadyExact)
    (hperm : (s.manager.buffer ++ ex.succeedMessages).Perm
      (t.manager.buffer ++ ex'.succeedMessages))
    (hstep : s.step = t.step) (hversion : s.nodeVersion = t.nodeVersion)
    (hretryLeft : s.retryPendingNodes = []) (hretryRight : t.retryPendingNodes = [])
    (hlimit : s.maxStep ≤ t.maxStep) (hwindow : s.maxStep ≤ s.step + recursionLimit limit)
    (hs : s.deliver ex = .more s') (ht : t.deliver ex' = .more t') : Matches limit s' t' := by
  obtain ⟨m, hm, hchannels, hbuffer, hready⟩ := deliver_of_canDeliver (canDeliver_of_more hs)
  obtain ⟨m', hm', hchannels', hbuffer', hready'⟩ := deliver_of_canDeliver (canDeliver_of_more ht)
  rw [hs] at hm
  rw [ht] at hm'
  cases hm
  cases hm'
  refine ⟨?_, hready hreadyLeft, hready' hreadyRight, ?_, congrArg (· + 1) hstep, hversion,
    hretryLeft, hretryRight, hlimit, ?_⟩
  · rw [hchannels, hchannels']
    exact halike.receive hperm
  · rw [hbuffer, hbuffer']
  · push_cast
    omega

theorem raised_of_node {s₁ : LoopState} {r : Round} {ex : Executor}
    {e : StepError} (h : s.runStep g r = .raised s₁ ex e) (he : e = .interrupt ∨ e = .exception) :
    s.active g ≠ [] ∧ ¬ s.maxStep < s.step ∧ s₁ = s.entered g ∧ ex = (waitAll r).1 ∧
      (waitAll r).2 = some e := by
  have hdeliver : ∀ (u : LoopState) (ex' : Executor), u.deliver ex' ≠ .raised s₁ ex e := by
    intro u ex' hraised
    by_cases hcan : u.CanDeliver ex'
    · obtain ⟨m, hmore, -⟩ := deliver_of_canDeliver hcan
      rw [hmore] at hraised
      cases hraised
    · obtain ⟨u', target, hunknown⟩ := deliver_of_not_canDeliver hcan
      rw [hunknown] at hraised
      cases hraised
      rcases he with he | he <;> cases he
  have hactive : s.active g ≠ [] := by
    intro hnil
    rw [runStep_idle hnil] at h
    split at h
    · cases h
    · exact hdeliver _ _ h
  have hlimit : ¬ s.maxStep < s.step := by
    intro hpassed
    rw [runStep_limit hactive r hpassed] at h
    cases h
    rcases he with he | he <;> cases he
  refine ⟨hactive, hlimit, ?_⟩
  cases hwait : (waitAll r).2 with
  | none =>
    rw [runStep_delivered hactive hlimit hwait] at h
    exact absurd h (hdeliver _ _)
  | some e' =>
    rw [runStep_raised hactive hlimit hwait] at h
    cases h
    exact ⟨rfl, rfl, rfl⟩

theorem anyReady_entered {n : String} (h : n ∈ s.active g) :
    ChannelManager.anyReady (s.entered g).manager.channels n = false := by
  rw [entered_channels, Bool.eq_false_iff, ne_eq, ChannelManager.anyReady_consumed]
  exact fun hready => hready.1 h

/-- A resumed run retries exactly the nodes that failed, with the same versions, and its
channels look as they did when the tasks were submitted. -/
theorem InProgress.resume {tasks : Tasks} {t₁ t₂ : LoopState}
    {succeeded : List String} (h : InProgress g limit tasks s t succeeded)
    (hs : s.Sound) (hretry : s.retryPendingNodes = [])
    (hwindow : s.maxStep ≤ s.step + recursionLimit limit)
    {r : Round} (hr : r.Answers ((t.entered g).routes tasks) (t.active g)) {ex : Executor}
    {e : StepError} (hraised : t.runStep g r = .raised t₁ ex e)
    (he : e = .interrupt ∨ e = .exception) {channels : List Channel}
    (hchannels : Untouched t₁.manager.channels channels)
    (hinit : LoopState.init g channels limit (some (t₁.saveStateOnError ex)) = (t₂, none)) :
    t₂.active g = r.failures ∧ r.failures ≠ [] ∧
      InProgress g limit tasks s t₂ (succeeded ++ r.succeeded) := by
  obtain ⟨-, -, rfl, rfl, hwait⟩ := raised_of_node hraised he
  have hnodup : (succeeded ++ t.active g).Nodup := h.nodes.nodup_iff.mpr (active_nodup hs)
  have hfailed : (waitAll r).1.failed.map (·.nodeName) = r.failures :=
    Round.waitAll_failed (hr.nodes.nodup_iff.mpr (List.Nodup.of_append_right hnodup))
  have hfailures : r.failures ≠ [] := by
    intro hnil
    rw [(Round.waitAll_error_iff hr).mpr hnil] at hwait
    cases hwait
  have hpending : (waitAll r).1.failed ≠ [] := by
    intro hnil
    rw [hnil] at hfailed
    exact hfailures hfailed.symm
  have hresume : t₂ = LoopState.resume channels limit
      ((t.entered g).saveStateOnError (waitAll r).1) := by
    have hisResume : ((t.entered g).saveStateOnError (waitAll r).1).isResume = true := by
      simp [GraphState.isResume, saveStateOnError, hpending]
    rw [LoopState.init, if_pos hisResume] at hinit
    exact (congrArg Prod.fst hinit).symm
  obtain ⟨halike, hready, hbuffer⟩ :=
    ChannelManager.restore_snapshot (t.entered g).manager hchannels
  have hactive : t₂.active g = r.failures := by
    rw [active_of_retry, ← hfailed, hresume]
    · rfl
    · rw [hresume]
      exact hpending
  have hsub : ∀ n ∈ r.failures, n ∈ s.active g := by
    intro n hn
    apply h.nodes.subset
    apply List.mem_append_right
    exact (r.succeeded_append_failures.trans hr.nodes).subset (List.mem_append_right _ hn)
  have halike₂ : Alike (s.entered g).manager.channels t₂.manager.channels := by
    rw [hresume]
    exact h.alike.trans halike.symm
  have hentered : (t₂.entered g).manager.channels = t₂.manager.channels := by
    rw [entered_channels, hactive]
    apply ChannelManager.consumed_of_not_ready
    intro n hn
    have hmem := hsub n hn
    have hne : n ≠ END := fun heq => end_not_mem_active hretry (heq ▸ hmem)
    rw [← halike₂.anyReady hne, anyReady_entered hmem]
  refine ⟨hactive, hfailures, ?_, ?_, ?_, ?_, ?_, ?_, ?_⟩
  · rw [hentered]
    exact halike₂
  · rw [hresume]
    exact ⟨hready.mem_iff, hready.nodup⟩
  · have hbuffer₂ : t₂.manager.buffer =
        t.manager.buffer ++ r.succeeded.flatMap ((s.entered g).routes tasks) := by
      rw [hresume, LoopState.resume, ChannelManager.bufferAll, saveStateOnError]
      simp only [hbuffer, List.nil_append]
      rw [entered_buffer, Round.waitAll_succeedMessages, Round.messages_eq hr, h.routes_eq]
    rw [hbuffer₂, List.flatMap_append, ← List.append_assoc]
    exact h.buffer.append_right _
  · rw [hactive, List.append_assoc]
    exact (List.Perm.append_left succeeded
      (r.succeeded_append_failures.trans hr.nodes)).trans h.nodes
  · rw [hresume]
    exact h.step_eq.trans (entered_step g t).symm
  · have hversion : (t₂.entered g).nodeVersion = t₂.nodeVersion := by
      have hne : t₂.retryPendingNodes.isEmpty = false := by
        rw [hresume]
        exact List.isEmpty_eq_false_iff.mpr hpending
      rw [entered_nodeVersion, activate, hne]
      rfl
    rw [hversion, hresume]
    exact h.version_eq
  · have hmax : t₂.maxStep = s.step + recursionLimit limit := by
      rw [hresume, h.step_eq, ← entered_step g t]
      rfl
    rw [hmax]
    exact hwindow

end JiuwenSpec.Graph

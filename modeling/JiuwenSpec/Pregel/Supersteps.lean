import JiuwenSpec.Pregel.Checkpoint
import JiuwenSpec.Pregel.Loop

/-!
# Accounting for the tasks of a superstep

Every active node is accounted for once: among the nodes that succeeded, whose messages are
collected, or among the failed ones, which a checkpoint names as pending. Waiting raises
exactly when some node failed.
-/

namespace JiuwenSpec.Graph

open List ChannelManager

namespace Executor

theorem commitFailure_of_not_mem {ex : Executor} {name : String}
    (h : name ∉ ex.failed.map (·.nodeName)) (status : TaskStatus) :
    ex.commitFailure status name = { ex with failed := ex.failed ++ [⟨name, status⟩] } := if_neg h

theorem commitFailure_succeedMessages (ex : Executor) (status : TaskStatus) (name : String) :
    (ex.commitFailure status name).succeedMessages = ex.succeedMessages := by
  rw [commitFailure]
  split <;> rfl

end Executor

namespace Round

/-- The messages of the tasks that succeeded, in the order in which these are handled. -/
def messages (r : Round) : List Message :=
  r.done.flatMap fun p => match p.2 with
    | .messages ms => ms
    | _ => []

/-- The nodes that are done but did not succeed. -/
def raising (done : List (String × TaskResult)) : List String :=
  done.filterMap fun p => match p.2 with
    | .messages _ => none
    | _ => some p.1

theorem collect_succeedMessages (done : List (String × TaskResult)) (ex : Executor) :
    (done.foldl Executor.collect ex).succeedMessages =
      ex.succeedMessages ++ (Round.mk done []).messages := by
  induction done generalizing ex with
  | nil => exact (append_nil _).symm
  | cons p done ih =>
    obtain ⟨name, result⟩ := p
    rw [foldl_cons, ih]
    cases result with
    | messages ms => simp [Executor.collect, messages]
    | interrupt => simp [Executor.collect, messages, Executor.commitFailure_succeedMessages]
    | exception => simp [Executor.collect, messages, Executor.commitFailure_succeedMessages]

theorem cancel_succeedMessages (pending : List String) (ex : Executor) :
    (pending.foldl (·.commitFailure .error) ex).succeedMessages = ex.succeedMessages := by
  induction pending generalizing ex with
  | nil => rfl
  | cons name pending ih => rw [foldl_cons, ih, Executor.commitFailure_succeedMessages]

theorem waitAll_succeedMessages (r : Round) : (waitAll r).1.succeedMessages = r.messages := by
  rw [waitAll, cancel_succeedMessages, collect_succeedMessages]
  rfl

theorem collect_failed {done : List (String × TaskResult)} {ex : Executor}
    (h : (ex.failed.map (·.nodeName) ++ done.map Prod.fst).Nodup) :
    (done.foldl Executor.collect ex).failed.map (·.nodeName) =
      ex.failed.map (·.nodeName) ++ raising done := by
  induction done generalizing ex with
  | nil => exact (append_nil _).symm
  | cons p done ih =>
    obtain ⟨name, result⟩ := p
    have hskip : (ex.failed.map (·.nodeName) ++ done.map Prod.fst).Nodup :=
      h.sublist (List.Sublist.append_left (sublist_cons_self _ _) _)
    have hnew : name ∉ ex.failed.map (·.nodeName) := fun hmem =>
      disjoint_of_nodup_append h hmem (.head _)
    have hmoved : ∀ status, (({ ex with failed := ex.failed ++ [⟨name, status⟩] } :
        Executor).failed.map (·.nodeName) ++ done.map Prod.fst).Nodup := by
      intro status
      simpa using h
    rw [foldl_cons]
    cases result with
    | messages ms => exact ih hskip
    | interrupt =>
      rw [Executor.collect, Executor.commitFailure_of_not_mem hnew, ih (hmoved _)]
      simp [raising]
    | exception =>
      rw [Executor.collect, Executor.commitFailure_of_not_mem hnew, ih (hmoved _)]
      simp [raising]

theorem cancel_failed {pending : List String} {ex : Executor}
    (h : (ex.failed.map (·.nodeName) ++ pending).Nodup) :
    (pending.foldl (·.commitFailure .error) ex).failed.map (·.nodeName) =
      ex.failed.map (·.nodeName) ++ pending := by
  induction pending generalizing ex with
  | nil => exact (append_nil _).symm
  | cons name pending ih =>
    have hnew : name ∉ ex.failed.map (·.nodeName) := fun hmem =>
      disjoint_of_nodup_append h hmem (.head _)
    have hmoved : (({ ex with failed := ex.failed ++ [⟨name, .error⟩] } :
        Executor).failed.map (·.nodeName) ++ pending).Nodup := by simpa using h
    rw [foldl_cons, Executor.commitFailure_of_not_mem hnew, ih hmoved]
    simp

theorem raising_subset (done : List (String × TaskResult)) :
    (raising done).Sublist (done.map Prod.fst) := by
  induction done with
  | nil => exact List.Sublist.slnil
  | cons p done ih =>
    obtain ⟨name, result⟩ := p
    cases result with
    | messages ms => exact ih.cons _
    | interrupt => exact ih.cons_cons _
    | exception => exact ih.cons_cons _

theorem waitAll_failed {r : Round} (h : (r.done.map Prod.fst ++ r.pending).Nodup) :
    (waitAll r).1.failed.map (·.nodeName) = r.failures := by
  have hdone : ((({} : Executor).failed.map (·.nodeName)) ++ r.done.map Prod.fst).Nodup :=
    h.sublist (sublist_append_left _ _)
  have hcollected := collect_failed hdone
  have hcancel : ((r.done.foldl Executor.collect {}).failed.map (·.nodeName) ++
      r.pending).Nodup := by
    rw [hcollected]
    exact h.sublist ((raising_subset r.done).append_right _)
  rw [waitAll, cancel_failed hcancel, hcollected]
  rfl

theorem succeeded_append_failures (r : Round) :
    (r.succeeded ++ r.failures).Perm (r.done.map Prod.fst ++ r.pending) := by
  rw [succeeded, failures, ← append_assoc]
  apply List.Perm.append_right
  induction r.done with
  | nil => exact List.Perm.refl _
  | cons p done ih =>
    obtain ⟨name, result⟩ := p
    cases result with
    | messages ms => exact ih.cons name
    | interrupt => exact perm_middle.trans (ih.cons name)
    | exception => exact perm_middle.trans (ih.cons name)

theorem messages_eq {r : Round} {tasks : String → List Message} {active : List String}
    (h : r.Answers tasks active) : r.messages = r.succeeded.flatMap tasks := by
  have hrouted := h.routed
  rw [messages, succeeded]
  generalize r.done = done at hrouted
  induction done with
  | nil => rfl
  | cons p done ih =>
    obtain ⟨name, result⟩ := p
    have hrest := ih fun n ms hmem => hrouted n ms (.tail _ hmem)
    cases result with
    | messages ms =>
      have hms : ms = tasks name := hrouted name ms (.head _)
      simp [hrest, hms]
    | interrupt => simpa using hrest
    | exception => simpa using hrest

theorem raising_eq_nil_iff {done : List (String × TaskResult)} :
    raising done = [] ↔
      done.any (·.2 = .exception) = false ∧ done.any (·.2 = .interrupt) = false := by
  induction done with
  | nil => simp [raising]
  | cons p done ih =>
    obtain ⟨name, result⟩ := p
    cases result with
    | messages ms => simpa [raising] using ih
    | interrupt => simp [raising]
    | exception => simp [raising]

theorem waitAll_error_iff {r : Round} {tasks : String → List Message} {active : List String}
    (h : r.Answers tasks active) : (waitAll r).2 = none ↔ r.failures = [] := by
  have hfailures : r.failures = raising r.done ++ r.pending := rfl
  rw [hfailures, append_eq_nil_iff, raising_eq_nil_iff, waitAll]
  cases hex : r.done.any (·.2 = .exception) with
  | true => simp
  | false =>
    have hpending : r.pending = [] := by
      by_contra hne
      obtain ⟨n, hn⟩ := h.pending hne
      have hany : r.done.any (·.2 = .exception) = true :=
        any_eq_true.mpr ⟨_, hn, by simp⟩
      rw [hex] at hany
      cases hany
    cases hin : r.done.any (·.2 = .interrupt) with
    | true => simp
    | false => simp [hpending]

theorem waitAll_error_cases {r : Round} {e : StepError} (h : (waitAll r).2 = some e) :
    e = .exception ∨ e = .interrupt := by
  simp only [waitAll] at h
  split at h
  · exact .inl (Option.some.inj h).symm
  · split at h
    · exact .inr (Option.some.inj h).symm
    · cases h

end Round

/-!
## What a superstep does

A superstep either is idle, or enters: it activates its nodes and consumes their channels.
From there it raises where a node failed and delivers the messages of all nodes otherwise.
-/

/-- The messages that a node routes: they depend on the superstep, the node and the version
of the node. -/
abbrev Tasks := Nat → String → Nat → List Message

namespace LoopState

def active (g : Pregel) (s : LoopState) : List String := (s.activate g).2

def entered (g : Pregel) (s : LoopState) : LoopState := (s.activate g).1.consumeAll (s.active g)

def routes (tasks : Tasks) (s : LoopState) (n : String) : List Message :=
  tasks s.step n (s.nodeVersion n)

/-- The ready set is exact, and no node is to be retried twice. -/
structure Sound (s : LoopState) : Prop where
  ready : s.manager.ReadyExact
  retry : (s.retryPendingNodes.map (·.nodeName)).Nodup

variable {g : Pregel} {s : LoopState}

theorem active_of_no_retry (h : s.retryPendingNodes = []) : s.active g = s.readyNodes g := by
  rw [active, activate, h]
  rfl

theorem active_of_retry (h : s.retryPendingNodes ≠ []) :
    s.active g = s.retryPendingNodes.map (·.nodeName) := by
  have hne : s.retryPendingNodes.isEmpty = false := by simpa using h
  rw [active, activate, hne]
  rfl

theorem mem_readyNodes {n : String} :
    n ∈ s.readyNodes g ↔ n ∈ s.manager.ready ∧ n ∈ g.nodes ∧ n ≠ END := by
  simp [readyNodes]

theorem active_nodup (h : s.Sound) : (s.active g).Nodup := by
  by_cases hretry : s.retryPendingNodes = []
  · rw [active_of_no_retry hretry]
    exact h.ready.nodup.filter _
  · rw [active_of_retry hretry]
    exact h.retry

theorem activate_manager (g : Pregel) (s : LoopState) : (s.activate g).1.manager = s.manager := by
  rw [activate]
  split <;> rfl

theorem activate_step (g : Pregel) (s : LoopState) : (s.activate g).1.step = s.step := by
  rw [activate]
  split <;> rfl

theorem activate_maxStep (g : Pregel) (s : LoopState) :
    (s.activate g).1.maxStep = s.maxStep := by
  rw [activate]
  split <;> rfl

theorem activate_retryPendingNodes (g : Pregel) (s : LoopState) :
    (s.activate g).1.retryPendingNodes = [] := by
  rw [activate]
  split
  · exact isEmpty_iff.mp ‹_›
  · rfl

theorem entered_step (g : Pregel) (s : LoopState) : (s.entered g).step = s.step :=
  activate_step g s

theorem entered_maxStep (g : Pregel) (s : LoopState) : (s.entered g).maxStep = s.maxStep :=
  activate_maxStep g s

theorem entered_retryPendingNodes (g : Pregel) (s : LoopState) :
    (s.entered g).retryPendingNodes = [] := activate_retryPendingNodes g s

theorem entered_nodeVersion (g : Pregel) (s : LoopState) :
    (s.entered g).nodeVersion = (s.activate g).1.nodeVersion := rfl

theorem entered_channels (g : Pregel) (s : LoopState) :
    (s.entered g).manager.channels =
      ChannelManager.consumed (s.active g) s.manager.channels := by
  rw [← activate_manager g s]
  exact (foldl_consume _ _).1

theorem entered_buffer (g : Pregel) (s : LoopState) :
    (s.entered g).manager.buffer = s.manager.buffer := by
  rw [← activate_manager g s]
  exact (foldl_consume _ _).2.1

theorem entered_readyExact (h : s.manager.ReadyExact) : (s.entered g).manager.ReadyExact := by
  rw [← activate_manager g s] at h
  exact (foldl_consume _ _).2.2 h

theorem runStep_idle (h : s.active g = []) (r : Round) :
    s.runStep g r = if s.manager.isEmpty then .finished (s.activate g).1
      else (s.activate g).1.deliver {} := by
  have hpair : s.activate g = ((s.activate g).1, []) := Prod.ext rfl h
  rw [runStep, hpair]
  simp only [activate_manager]

theorem runStep_limit (h : s.active g ≠ []) (r : Round)
    (hlimit : s.maxStep < s.step) : s.runStep g r = .raised (s.activate g).1 {} .recursion := by
  obtain ⟨n, rest, hactive⟩ := exists_cons_of_ne_nil h
  have hpair : s.activate g = ((s.activate g).1, n :: rest) := Prod.ext rfl hactive
  rw [runStep, hpair]
  simp only [activate_maxStep, activate_step, if_pos hlimit]

theorem runStep_raised (h : s.active g ≠ []) {r : Round}
    (hlimit : ¬ s.maxStep < s.step) {e : StepError} (hr : (waitAll r).2 = some e) :
    s.runStep g r = .raised (s.entered g) (waitAll r).1 e := by
  obtain ⟨n, rest, hactive⟩ := exists_cons_of_ne_nil h
  have hpair : s.activate g = ((s.activate g).1, n :: rest) := Prod.ext rfl hactive
  have hwait : waitAll r = ((waitAll r).1, some e) := Prod.ext rfl hr
  rw [runStep, hpair, hwait]
  simp only [activate_maxStep, activate_step, if_neg hlimit, entered, hactive]

theorem runStep_delivered (h : s.active g ≠ []) {r : Round}
    (hlimit : ¬ s.maxStep < s.step) (hr : (waitAll r).2 = none) :
    s.runStep g r = (s.entered g).deliver (waitAll r).1 := by
  obtain ⟨n, rest, hactive⟩ := exists_cons_of_ne_nil h
  have hpair : s.activate g = ((s.activate g).1, n :: rest) := Prod.ext rfl hactive
  have hwait : waitAll r = ((waitAll r).1, none) := Prod.ext rfl hr
  rw [runStep, hpair, hwait]
  simp only [activate_maxStep, activate_step, if_neg hlimit, entered, hactive]

/-- The buffered messages with those of the tasks all have a channel. -/
def CanDeliver (s : LoopState) (ex : Executor) : Prop :=
  (s.manager.bufferAll ex.succeedMessages).Deliverable

theorem deliver_of_canDeliver {ex : Executor} (h : s.CanDeliver ex) :
    ∃ m, s.deliver ex = .more { s with manager := m, step := s.step + 1 } ∧
      m.channels = receive (s.manager.buffer ++ ex.succeedMessages) s.manager.channels ∧
      m.buffer = [] ∧ (s.manager.ReadyExact → m.ReadyExact) := by
  obtain ⟨herr, hchannels, hbuffer, hready⟩ := flush_ok h
  refine ⟨_, ?_, hchannels, hbuffer, fun hr => hready ⟨hr.mem_iff, hr.nodup⟩⟩
  have hpair : (s.manager.bufferAll ex.succeedMessages).flush =
      ((s.manager.bufferAll ex.succeedMessages).flush.1, none) := Prod.ext rfl herr
  rw [deliver, hpair]

theorem deliver_of_not_canDeliver {ex : Executor} (h : ¬ s.CanDeliver ex) :
    ∃ s' target, s.deliver ex = .raised s' ex (.unknownTarget target) := by
  have herr := flush_err h
  rw [deliver]
  cases hflush : (s.manager.bufferAll ex.succeedMessages).flush with
  | mk m err =>
    rw [hflush] at herr
    cases err with
    | none => exact absurd rfl herr
    | some e => exact ⟨_, e.target, rfl⟩

theorem canDeliver_of_more {s' : LoopState} {ex : Executor} (h : s.deliver ex = .more s') :
    s.CanDeliver ex := by
  by_contra hnot
  obtain ⟨t, target, hraised⟩ := deliver_of_not_canDeliver hnot
  rw [h] at hraised
  cases hraised

end LoopState

end JiuwenSpec.Graph

import JiuwenSpec.Subagent.TurnHistory

/-!
# Every accepted input has its turn

Inputs end in the order in which they were accepted, and each leaves one turn of its own, as long as
the metadata describes the input that ends, and no input is accepted behind a shutdown.
-/

namespace JiuwenSpec.Subagent

open Base List

def TurnEnding.answer : TurnEnding → Option Text
  | .completed output => some output
  | .errored | .interrupted => none

def TurnEnding.outcome : TurnEnding → Option TurnOutcome
  | .completed _ => some .completed
  | .errored => some .failed
  | .interrupted => some .cancelled

def turnOf (e : UserInput × TurnEnding) : SubagentTurn :=
  ⟨some e.1.taskId, e.1.query, e.2.answer, e.2.outcome⟩

def SubagentInstance.pending (inst : SubagentInstance) : List UserInput :=
  match inst.phase with
  | .running op => op :: queuedInputs inst.ops
  | _ => queuedInputs inst.ops

/-- Every queued input is still taken: no shutdown is before it, and the worker goes on. -/
structure SubagentInstance.Served (inst : SubagentInstance) : Prop where
  ahead : ∃ n, inst.ops =
    (queuedInputs inst.ops).map QueuedOp.userInput ++ List.replicate n QueuedOp.shutdown
  worker : inst.phase = .done → queuedInputs inst.ops = []

namespace SubagentInstance

variable {inst inst' : SubagentInstance}

theorem Served.congr (h : inst.Served) (hops : inst'.ops = inst.ops)
    (hworker : inst'.phase = .done → queuedInputs inst.ops = []) : inst'.Served := by
  refine ⟨?_, ?_⟩
  · rw [hops]
    exact h.ahead
  · rw [hops]
    exact hworker

theorem served_new : SubagentInstance.new.Served := ⟨⟨0, rfl⟩, fun hdone => by cases hdone⟩

theorem Served.input (h : inst.Served) (hno : QueuedOp.shutdown ∉ inst.ops)
    (hlive : inst.phase ≠ .done) (op : UserInput) :
    (inst.enqueue (.userInput op)).Served := by
  refine ⟨⟨0, ?_⟩, fun hdone => (hlive hdone).elim⟩
  obtain ⟨n, hn⟩ := h.ahead
  have hzero : n = 0 := by
    cases n with
    | zero => rfl
    | succ n =>
      refine (hno ?_).elim
      rw [hn]
      exact mem_append_right _ (by simp)
  subst hzero
  rw [enqueue, queuedInputs_append, map_append]
  conv => lhs; rw [hn]
  simp [queuedInputs]

theorem Served.shutdown (h : inst.Served) (hlive : inst.phase ≠ .done) :
    (inst.enqueue .shutdown).Served := by
  obtain ⟨n, hn⟩ := h.ahead
  refine ⟨⟨n + 1, ?_⟩, fun hdone => (hlive hdone).elim⟩
  rw [enqueue, queuedInputs_append, map_append]
  conv => lhs; rw [hn]
  simp [queuedInputs, replicate_succ']

theorem Served.queuedInputs_of_shutdown (h : inst.Served) {ops : List QueuedOp}
    (hops : inst.ops = .shutdown :: ops) : queuedInputs ops = [] := by
  obtain ⟨n, hn⟩ := h.ahead
  rw [hops] at hn
  cases hq : queuedInputs (.shutdown :: ops) with
  | nil => simpa [queuedInputs] using hq
  | cons op rest =>
    rw [hq] at hn
    cases hn

theorem Served.tail (h : inst.Served) {op : QueuedOp} {ops : List QueuedOp}
    (hops : inst.ops = op :: ops) :
    ∃ n, ops = (queuedInputs ops).map QueuedOp.userInput ++ List.replicate n QueuedOp.shutdown := by
  obtain ⟨n, hn⟩ := h.ahead
  cases op with
  | userInput op =>
    refine ⟨n, ?_⟩
    rw [hops, queuedInputs, map_cons, cons_append] at hn
    exact (List.cons.inj hn).2
  | shutdown =>
    have hnone := h.queuedInputs_of_shutdown hops
    rw [hops, queuedInputs, hnone, map_nil, nil_append] at hn
    cases n with
    | zero => cases hn
    | succ n =>
      rw [replicate_succ] at hn
      refine ⟨n, ?_⟩
      rw [hnone]
      exact (List.cons.inj hn).2

theorem pending_enqueue_input (op : UserInput) :
    (inst.enqueue (.userInput op)).pending = inst.pending ++ [op] := by
  unfold pending enqueue
  cases inst.phase <;> simp [queuedInputs_append, queuedInputs]

theorem pending_enqueue_shutdown : (inst.enqueue .shutdown).pending = inst.pending := by
  unfold pending enqueue
  cases inst.phase <;> simp [queuedInputs_append, queuedInputs]

theorem pending_of_not_running (h : ∀ op, inst.phase ≠ .running op) :
    inst.pending = queuedInputs inst.ops := by
  unfold pending
  split
  · next op heq => exact (h op heq).elim
  · rfl

theorem pending_of_running {op : UserInput} (h : inst.phase = .running op) :
    inst.pending = op :: queuedInputs inst.ops := by
  rw [pending, h]

end SubagentInstance

namespace TurnHistory

variable {s : TurnHistory} {inst inst' : SubagentInstance} {op : UserInput} {ending : TurnEnding}

def pending (s : TurnHistory) : List UserInput :=
  match s.instance? with
  | some inst => inst.pending
  | none => []

theorem pending_of_instance (hs : s.instance? = some inst) : s.pending = inst.pending := by
  rw [pending, hs]

structure Holds (s : TurnHistory) (inst : SubagentInstance) : Prop where
  served : inst.Served
  described : ∃ metadata, s.metadata = some metadata ∧
    ∀ k, metadata.currentTaskId = some k → k ∈ s.accepted.map UserInput.taskId
  last : ∀ k, inst.lastTaskId = some k → k ∈ s.endings.map fun e => e.1.taskId
  closed : inst.closed = true → inst.phase = .done
  unsettled : ∀ op, inst.phase = .running op → inst.status.isFinal = false

/-- The invariant of runs whose steps are clean. -/
structure Inv (s : TurnHistory) : Prop where
  order : s.accepted = s.endings.map Prod.fst ++ s.pending
  turns : s.turns = s.endings.map turnOf
  ids : (s.accepted.map UserInput.taskId).Nodup
  made : ∀ op ∈ s.accepted, op.taskId < s.nextTask
  holds : ∀ inst, s.instance? = some inst → s.Holds inst

theorem inv_init : init.Inv :=
  ⟨rfl, rfl, nodup_nil, fun _ h => (not_mem_nil h).elim, fun _ h => by cases h⟩

theorem Inv.taskIds (h : s.Inv) : s.turns.map SubagentTurn.taskId =
    s.endings.map fun e => some e.1.taskId := by
  rw [h.turns, map_map]
  rfl

theorem Inv.unfiled (h : s.Inv) (hs : s.instance? = some inst) (hop : inst.phase = .running op) :
    some op.taskId ∉ s.turns.map SubagentTurn.taskId := by
  rw [h.taskIds]
  intro hmem
  obtain ⟨e, he, hid⟩ := mem_map.mp hmem
  have hids := h.ids
  rw [h.order, pending_of_instance hs, inst.pending_of_running hop, map_append] at hids
  refine (disjoint_of_nodup_append hids) (a := op.taskId) ?_ (by simp)
  rw [← Option.some.inj hid]
  exact mem_map_of_mem (mem_map_of_mem he)

theorem setStatus_filed {status : StatusKind}
    (hmeta : ∀ metadata, s.metadata = some metadata → metadata.taskDescription = op.query ∧
      turnTaskId inst metadata = some op.taskId)
    (hsome : s.metadata ≠ none) (hnew : some op.taskId ∉ s.turns.map SubagentTurn.taskId)
    (hanswer : (if status = .completed then inst.lastOutput else none) = ending.answer)
    (houtcome : resolveTurnOutcome status = ending.outcome) :
    s.setStatus inst status =
      { s with
        instance? := some { inst with status }
        turns := s.turns ++ [turnOf (op, ending)] } := by
  cases hm : s.metadata with
  | none => exact (hsome hm).elim
  | some metadata =>
    obtain ⟨hdesc, hid⟩ := hmeta metadata hm
    rw [setStatus, hm]
    simp only [appendTurn]
    rw [hid, if_neg fun hold => hnew hold.2, hanswer, houtcome, hdesc]
    rfl

theorem setStatus_unchanged {status : StatusKind}
    (hmeta : ∀ metadata, s.metadata = some metadata → turnTaskId inst metadata ≠ none ∧
      turnTaskId inst metadata ∈ s.turns.map SubagentTurn.taskId) :
    s.setStatus inst status = { s with instance? := some { inst with status } } := by
  rw [setStatus]
  split
  · next metadata hm =>
    rw [appendTurn, if_pos (hmeta metadata hm)]
  · rfl

theorem Inv.update (h : s.Inv) (hs : s.instance? = some inst)
    (hpending : inst'.pending = inst.pending) (hserved : inst'.Served)
    (hlast : inst'.lastTaskId = inst.lastTaskId)
    (hclosed : inst'.closed = true → inst'.phase = .done)
    (hunsettled : ∀ op, inst'.phase = .running op → inst'.status.isFinal = false) :
    { s with instance? := some inst' }.Inv := by
  have hinst := h.holds inst hs
  refine ⟨?_, h.turns, h.ids, h.made, ?_⟩
  · rw [h.order, pending_of_instance hs, ← hpending]
    rfl
  · rintro _ ⟨⟩
    refine ⟨hserved, hinst.described, ?_, hclosed, hunsettled⟩
    rw [hlast]
    exact hinst.last

/-- The data that a turn is put together from are those of the input `op`; `completed` tells whether
it has completed. -/
def Attributed (s : TurnHistory) (inst : SubagentInstance) (op : UserInput) (completed : Bool) :
    Prop :=
  ∀ metadata, s.metadata = some metadata → metadata.taskDescription = op.query ∧
    (completed = true ∨ inst.lastTaskId = none ∧ metadata.currentTaskId = some op.taskId)

theorem Inv.settle (h : s.Inv) (hs : s.instance? = some inst) (hop : inst.phase = .running op)
    {status : StatusKind} (hops : inst'.ops = inst.ops) (hphase : ∀ op, inst'.phase ≠ .running op)
    (hworker : inst'.phase = .done → queuedInputs inst.ops = [])
    (hclosed : inst'.closed = inst.closed)
    (hmeta : ∀ metadata, s.metadata = some metadata → metadata.taskDescription = op.query ∧
      turnTaskId inst' metadata = some op.taskId)
    (hlast : ∀ k, inst'.lastTaskId = some k → k = op.taskId)
    (hanswer : (if status = .completed then inst'.lastOutput else none) = ending.answer)
    (houtcome : resolveTurnOutcome status = ending.outcome) :
    ((s.settle op ending).setStatus inst' status).Inv := by
  have hinst := h.holds inst hs
  obtain ⟨metadata, hm, hcurrent⟩ := hinst.described
  have hsome : (s.settle op ending).metadata ≠ none := by
    rw [TurnHistory.settle, hm]
    exact Option.some_ne_none metadata
  rw [setStatus_filed (s := s.settle op ending) hmeta hsome (h.unfiled hs hop) hanswer houtcome]
  have hopen : inst.closed = false := by
    cases hc : inst.closed with
    | false => rfl
    | true =>
      rw [hinst.closed hc] at hop
      cases hop
  refine ⟨?_, ?_, h.ids, h.made, ?_⟩
  · have horder := h.order
    rw [pending_of_instance hs, inst.pending_of_running hop] at horder
    change s.accepted = (s.endings ++ [(op, ending)]).map Prod.fst ++
      ({ inst' with status } : SubagentInstance).pending
    have hended : SubagentInstance.pending { inst' with status } = queuedInputs inst'.ops :=
      SubagentInstance.pending_of_not_running hphase
    rw [hended, hops, horder]
    simp
  · change s.turns ++ [turnOf (op, ending)] = (s.endings ++ [(op, ending)]).map turnOf
    rw [h.turns, map_append]
    rfl
  · rintro _ ⟨⟩
    refine ⟨hinst.served.congr hops hworker, ⟨metadata, hm, hcurrent⟩, ?_, ?_, ?_⟩
    · intro k hk
      rw [hlast k hk]
      exact mem_map_of_mem (f := fun e : UserInput × TurnEnding => e.1.taskId)
        (mem_append_right s.endings (mem_singleton_self (op, ending)))
    · intro hc
      rw [hclosed, hopen] at hc
      cases hc
    · exact fun op hrun => (hphase op hrun).elim

theorem Inv.endInput (h : s.Inv) (hs : s.instance? = some inst) (hop : inst.phase = .running op)
    {status : StatusKind} (hops : inst'.ops = inst.ops) (hphase : ∀ op, inst'.phase ≠ .running op)
    (hworker : inst'.phase = .done → queuedInputs inst.ops = [])
    (hclosed : inst'.closed = inst.closed) (hlast : inst'.lastTaskId = inst.lastTaskId)
    (hown : s.Attributed inst op false) (hstatus : status ≠ .completed)
    (hanswer : ending.answer = none) (houtcome : resolveTurnOutcome status = ending.outcome) :
    ((s.settle op ending).setStatus inst' status).Inv := by
  obtain ⟨metadata, hm, -⟩ := (h.holds inst hs).described
  have hfirst : ∀ metadata, s.metadata = some metadata → metadata.taskDescription = op.query ∧
      inst.lastTaskId = none ∧ metadata.currentTaskId = some op.taskId := by
    intro metadata hm
    obtain ⟨hdesc, hlate | hid⟩ := hown metadata hm
    · cases hlate
    · exact ⟨hdesc, hid⟩
  refine h.settle hs hop hops hphase hworker hclosed ?_ ?_ ?_ houtcome
  · intro metadata hm
    obtain ⟨hdesc, hnone, hid⟩ := hfirst metadata hm
    refine ⟨hdesc, ?_⟩
    rw [turnTaskId, hlast, hnone, Option.none_or, hid]
  · intro k hk
    rw [hlast, (hfirst metadata hm).2.1] at hk
    cases hk
  · rw [if_neg hstatus, hanswer]

/-- Some input was accepted since the instance was made. -/
def Used (s : TurnHistory) (inst : SubagentInstance) : Prop :=
  inst.lastTaskId ≠ none ∨ ∀ metadata, s.metadata = some metadata → metadata.currentTaskId ≠ none

theorem Inv.filed (h : s.Inv) (hs : s.instance? = some inst) (hpending : inst.pending = [])
    (hused : s.Used inst) (metadata : TurnMetadata) (hm : s.metadata = some metadata) :
    turnTaskId inst metadata ≠ none ∧
      turnTaskId inst metadata ∈ s.turns.map SubagentTurn.taskId := by
  have hinst := h.holds inst hs
  have hdone : ∀ k ∈ s.accepted.map UserInput.taskId, some k ∈ s.turns.map SubagentTurn.taskId := by
    intro k hk
    rw [h.order, pending_of_instance hs, hpending, append_nil, map_map] at hk
    obtain ⟨e, he, rfl⟩ := mem_map.mp hk
    rw [h.taskIds]
    exact mem_map.mpr ⟨e, he, rfl⟩
  cases hlast : inst.lastTaskId with
  | some k =>
    rw [turnTaskId, hlast, Option.some_or, h.taskIds]
    obtain ⟨e, he, rfl⟩ := mem_map.mp (hinst.last k hlast)
    exact ⟨Option.some_ne_none _, mem_map.mpr ⟨e, he, rfl⟩⟩
  | none =>
    rw [turnTaskId, hlast, Option.none_or]
    obtain ⟨metadata', hm', hcurrent⟩ := hinst.described
    obtain rfl : metadata = metadata' := Option.some.inj (hm.symm.trans hm')
    rcases hused with hne | hne
    · exact (hne hlast).elim
    · obtain ⟨k, hk⟩ := Option.ne_none_iff_exists'.mp (hne metadata hm)
      rw [hk]
      exact ⟨Option.some_ne_none k, hdone k (hcurrent k hk)⟩

theorem Inv.accept (h : s.Inv) {query description : Text} (hpending : inst.pending = s.pending)
    (hserved : inst.Served) (hno : QueuedOp.shutdown ∉ inst.ops) (hlive : inst.phase ≠ .done)
    (hlast : ∀ k, inst.lastTaskId = some k → k ∈ s.endings.map fun e => e.1.taskId)
    (hclosed : inst.closed = true → inst.phase = .done)
    (hunsettled : ∀ op, inst.phase = .running op → inst.status.isFinal = false) :
    (s.accept inst (some ⟨some s.nextTask, description⟩) query).Inv := by
  refine ⟨?_, h.turns, ?_, ?_, ?_⟩
  · change s.accepted ++ [UserInput.mk s.nextTask query] = s.endings.map Prod.fst ++
      (inst.enqueue (.userInput ⟨s.nextTask, query⟩)).pending
    rw [SubagentInstance.pending_enqueue_input, hpending, h.order, append_assoc]
  · change ((s.accepted ++ [UserInput.mk s.nextTask query]).map UserInput.taskId).Nodup
    rw [map_append, nodup_append]
    refine ⟨h.ids, by simp, ?_⟩
    intro k hk k' hk' heq
    obtain ⟨op, hop, rfl⟩ := mem_map.mp hk
    have hlt := h.made op hop
    simp only [map_cons, map_nil, mem_singleton] at hk'
    omega
  · intro op hop
    change op.taskId < s.nextTask + 1
    rcases mem_append.mp hop with hold | hnew
    · have hlt := h.made op hold
      omega
    · obtain rfl := mem_singleton.mp hnew
      exact Nat.lt_succ_self s.nextTask
  · rintro _ ⟨⟩
    refine ⟨hserved.input hno hlive _, ⟨_, rfl, ?_⟩, hlast, hclosed, hunsettled⟩
    rintro k ⟨⟩
    change s.nextTask ∈ (s.accepted ++ [UserInput.mk s.nextTask query]).map UserInput.taskId
    simp

theorem closed_of_any (h : s.instance?.any (fun inst => inst.closed) = true)
    (inst : SubagentInstance) (hs : s.instance? = some inst) : inst.closed = true := by
  rw [hs] at h
  exact h

theorem closed_of_free (h : ¬ s.instance?.any (fun inst => !inst.closed) = true)
    (inst : SubagentInstance) (hs : s.instance? = some inst) : inst.closed = true := by
  rw [hs] at h
  simpa using h

theorem Inv.pending_of_closed (h : s.Inv)
    (hclosed : ∀ inst, s.instance? = some inst → inst.closed = true) : s.pending = [] := by
  rw [pending]
  split
  · next inst hs =>
    have hinst := h.holds inst hs
    have hdone := hinst.closed (hclosed inst hs)
    rw [inst.pending_of_not_running fun op hop => by rw [hdone] at hop; cases hop]
    exact hinst.served.worker hdone
  · rfl

theorem Inv.handleShutdown (h : s.Inv) (hs : s.instance? = some inst) (hops : inst'.Served)
    (hphase : ∀ op, inst.phase ≠ .running op) (hnone : queuedInputs inst.ops = [])
    (hnone' : queuedInputs inst'.ops = []) (hlast : inst'.lastTaskId = inst.lastTaskId)
    (hused : s.Used inst) (ok : Bool) : (s.handleShutdown inst' ok).Inv := by
  have hpending : inst.pending = [] := by rw [inst.pending_of_not_running hphase, hnone]
  rw [TurnHistory.handleShutdown]
  split
  · rw [setStatus_unchanged]
    · exact h.update hs (hnone'.trans hpending.symm) (hops.congr rfl fun _ => hnone') hlast
        (fun _ => rfl) fun op hop => by cases hop
    · intro metadata hm
      have hfiled := h.filed hs hpending hused metadata hm
      rw [turnTaskId] at hfiled ⊢
      rw [hlast]
      exact hfiled
  · exact h.update hs (hnone'.trans hpending.symm) (hops.congr rfl fun _ => hnone') hlast
      (fun _ => rfl) fun op hop => by cases hop

theorem Inv.takeOp (h : s.Inv) (hs : s.instance? = some inst)
    (hused : inst.phase = .idle → inst.ops.head? = some .shutdown → s.Used inst) (ok : Bool) :
    (s.takeOp inst ok).Inv := by
  have hinst := h.holds inst hs
  rw [TurnHistory.takeOp.eq_def]
  split
  · next op ops hidle hops =>
    refine h.update hs ?_ ⟨hinst.served.tail hops, fun hdone ↦ by cases hdone⟩ rfl ?_ fun _ _ ↦ rfl
    · rw [SubagentInstance.pending, SubagentInstance.pending, hidle, hops]
      rfl
    · intro hc
      rw [hinst.closed hc] at hidle
      cases hidle
  · next ops hidle hops =>
    have hnone := hinst.served.queuedInputs_of_shutdown hops
    have hhead : inst.ops.head? = some .shutdown := by rw [hops, List.head?_cons]
    have hserved : SubagentInstance.Served { inst with ops } :=
      ⟨hinst.served.tail hops, fun _ => hnone⟩
    refine h.handleShutdown hs hserved ?_ ?_ hnone rfl (hused hidle hhead) ok
    · intro op hop
      rw [hidle] at hop
      cases hop
    · rw [hops]
      exact hnone
  · exact h

theorem Inv.leave (h : s.Inv) (hs : s.instance? = some inst) (hop : inst.phase = .settled op) :
    { s with instance? := some { inst with phase := .idle } }.Inv := by
  have hinst := h.holds inst hs
  refine h.update hs ?_ (hinst.served.congr rfl fun hdone => by cases hdone) rfl ?_
    fun op hrun => by cases hrun
  · rw [SubagentInstance.pending, SubagentInstance.pending, hop]
  · intro hc
    have hdone := hinst.closed hc
    rw [hop] at hdone
    cases hdone

theorem Inv.finalizeResumeIdle (h : s.Inv) (hs : s.instance? = some inst) :
    { s with instance? := some inst.finalizeResumeIdle }.Inv := by
  have hinst := h.holds inst hs
  rw [SubagentInstance.finalizeResumeIdle]
  split
  · next hidle =>
    refine h.update hs rfl (hinst.served.congr rfl hinst.served.worker) rfl hinst.closed ?_
    intro op hrun
    rcases hidle.1 with heq | heq <;> rw [heq] at hrun <;> cases hrun
  · exact h.update hs rfl hinst.served rfl hinst.closed hinst.unsettled

theorem Inv.result (h : s.Inv) (hs : s.instance? = some inst) {output : Option Text}
    (hown : ∀ op, inst.phase = .running op → s.Attributed inst op output.isSome)
    (honce : ∀ op, inst.phase ≠ .settled op) : (s.result inst output).Inv := by
  rw [TurnHistory.result.eq_def]
  split
  · next op output hop =>
    refine h.settle hs hop rfl (fun _ hrun => by cases hrun) (fun hdone => by cases hdone) rfl ?_ ?_
      rfl rfl
    · exact fun metadata hm => ⟨(hown op hop metadata hm).1, rfl⟩
    · rintro k ⟨⟩
      rfl
  · next op hop =>
    exact h.endInput hs hop rfl (fun _ hrun => by cases hrun) (fun hdone => by cases hdone) rfl rfl
      (hown op hop) (fun heq => by cases heq) rfl rfl
  · next op hop => exact (honce op hop).elim
  · exact h

theorem Inv.raised (h : s.Inv) (hs : s.instance? = some inst)
    (hown : ∀ op, inst.phase = .running op → s.Attributed inst op false)
    (htail : ∀ op, inst.phase = .settled op → inst.status.isFinal = true) :
    (s.raised inst).Inv := by
  have hinst := h.holds inst hs
  rw [TurnHistory.raised.eq_def]
  split
  · next op hop =>
    rw [if_neg (by rw [hinst.unsettled op hop]; decide)]
    exact h.endInput hs hop rfl (fun _ hrun => by cases hrun) (fun hdone => by cases hdone) rfl rfl
      (hown op hop) (fun heq => by cases heq) rfl rfl
  · next op hop =>
    rw [if_pos (htail op hop)]
    exact h.leave hs hop
  · exact h
  · exact h

theorem Inv.cancelled (h : s.Inv) (hs : s.instance? = some inst)
    (hown : ∀ op, inst.phase = .running op → s.Attributed inst op false)
    (htail : ∀ op, inst.phase = .settled op → inst.status.isFinal = true)
    (hasked : inst.interruptRequested = true ∨ queuedInputs inst.ops = []) :
    (s.cancelled inst).Inv := by
  have hinst := h.holds inst hs
  have hworker : (afterCancelled inst).phase = .done → queuedInputs inst.ops = [] := by
    intro hdone
    rcases hasked with hreq | hnone
    · rw [afterCancelled, hreq] at hdone
      cases hdone
    · exact hnone
  have hphase : ∀ op, (afterCancelled inst).phase ≠ .running op := by
    intro op hrun
    rw [afterCancelled] at hrun
    cases hreq : inst.interruptRequested <;> rw [hreq] at hrun <;> cases hrun
  rw [TurnHistory.cancelled.eq_def]
  split
  · next op hop =>
    rw [if_neg (by rw [hinst.unsettled op hop]; decide)]
    exact h.endInput hs hop rfl hphase hworker rfl rfl (hown op hop) (fun heq => by cases heq) rfl
      rfl
  · next op hop =>
    rw [if_pos (htail op hop)]
    refine h.update hs ?_ (hinst.served.congr rfl hworker) rfl ?_ fun op hrun =>
      (hphase op hrun).elim
    · rw [SubagentInstance.pending_of_not_running hphase, SubagentInstance.pending, hop]
      rfl
    · intro hc
      have hdone := hinst.closed hc
      rw [hop] at hdone
      cases hdone
  · exact h
  · exact h

theorem Inv.shutdown (h : s.Inv) (ok : Bool)
    (hused : ∀ inst, s.instance? = some inst → inst.closed = false → inst.phase = .done →
      s.Used inst) : (s.step (.shutdown ok)).Inv := by
  rw [step]
  split
  · next inst hs =>
    have hinst := h.holds inst hs
    split
    · exact h
    · next hopen =>
      split
      · next hdone =>
        have hnone := hinst.served.worker hdone
        refine h.handleShutdown hs hinst.served ?_ hnone hnone rfl
          (hused inst hs (by simpa using hopen) hdone) ok
        intro op hop
        rw [hdone] at hop
        cases hop
      · next hlive =>
        exact h.update hs SubagentInstance.pending_enqueue_shutdown (hinst.served.shutdown hlive)
          rfl hinst.closed hinst.unsettled
  · exact h

/-- A step that keeps the turns apart: a turn is filed while the metadata describes its input, and,
if the input did not complete, while none has completed on the instance; the tail of a run raises
only with a final status; an input is accepted only by a worker that has no shutdown ahead of it;
a worker ends only with nothing queued, or used by some input. -/
def Clean (s : TurnHistory) : TurnOp → Prop
  | .spawn _ | .resume _ | .interrupt | .removed => True
  | .sendInput _ interrupted => ∀ inst, s.instance? = some inst →
      inst.closed = true ∧ interrupted = false ∨
        inst.phase ≠ .done ∧ QueuedOp.shutdown ∉ inst.ops
  | .shutdown _ => ∀ inst, s.instance? = some inst → inst.closed = false → inst.phase = .done →
      s.Used inst
  | .take _ => ∀ inst, s.instance? = some inst → inst.phase = .idle →
      inst.ops.head? = some .shutdown → s.Used inst
  | .result output => ∀ inst, s.instance? = some inst →
      (∀ op, inst.phase = .running op → s.Attributed inst op output.isSome) ∧
        ∀ op, inst.phase ≠ .settled op
  | .returned => ∀ inst, s.instance? = some inst →
      ∀ op, inst.phase = .running op → s.Attributed inst op false
  | .raised => ∀ inst, s.instance? = some inst →
      (∀ op, inst.phase = .running op → s.Attributed inst op false) ∧
        ∀ op, inst.phase = .settled op → inst.status.isFinal = true
  | .cancelled => ∀ inst, s.instance? = some inst →
      (∀ op, inst.phase = .running op → s.Attributed inst op false) ∧
        (∀ op, inst.phase = .settled op → inst.status.isFinal = true) ∧
        (inst.interruptRequested = true ∨ queuedInputs inst.ops = [])
  | .released => s.instance? = none

theorem Inv.step (h : s.Inv) {op : TurnOp} (hclean : s.Clean op) : (s.step op).Inv := by
  cases op with
  | spawn query =>
    rw [TurnHistory.step]
    split
    · exact h
    · next hfree =>
      have hnone := h.pending_of_closed (closed_of_free hfree)
      exact h.accept hnone.symm SubagentInstance.served_new (by simp [SubagentInstance.new])
        (fun hdone => by cases hdone) (fun k hk => by cases hk) (fun hc => by cases hc)
        fun op hrun => by cases hrun
  | resume description =>
    rw [TurnHistory.step]
    split
    · cases hs : s.instance? with
      | none =>
        rw [Option.map_none, ← hs]
        exact h
      | some inst =>
        rw [Option.map_some]
        exact h.finalizeResumeIdle hs
    · next hfree =>
      have hnone := h.pending_of_closed (closed_of_free hfree)
      refine ⟨?_, h.turns, h.ids, h.made, ?_⟩
      · rw [h.order, hnone]
        rfl
      · rintro _ ⟨⟩
        refine ⟨⟨⟨0, rfl⟩, ?_⟩, ⟨_, rfl, ?_⟩, ?_, ?_, ?_⟩
        · exact fun hdone => by cases hdone
        · exact fun k hk => by cases hk
        · exact fun k hk => by cases hk
        · exact fun hc => by cases hc
        · exact fun op hrun => by cases hrun
  | sendInput query interrupted =>
    rw [TurnHistory.step]
    split
    · next inst hs =>
      have hinst := h.holds inst hs
      split
      · exact h
      · next hopen =>
        obtain ⟨hlive, hno⟩ := (hclean inst hs).resolve_left hopen
        obtain ⟨metadata, hm, -⟩ := hinst.described
        rw [hm, Option.map_some]
        exact h.accept (pending_of_instance hs).symm (hinst.served.congr rfl hinst.served.worker)
          hno hlive hinst.last hinst.closed fun _ _ => rfl
    · exact h
  | interrupt =>
    rw [TurnHistory.step]
    split
    · next inst hs =>
      have hinst := h.holds inst hs
      split
      · exact h
      · exact h.update hs rfl (hinst.served.congr rfl hinst.served.worker) rfl hinst.closed
          hinst.unsettled
    · exact h
  | shutdown ok => exact h.shutdown ok hclean
  | take ok =>
    rw [TurnHistory.step]
    split
    · next inst hs => exact h.takeOp hs (hclean inst hs) ok
    · exact h
  | result output =>
    rw [TurnHistory.step]
    split
    · next inst hs => exact h.result hs (hclean inst hs).1 (hclean inst hs).2
    · exact h
  | returned =>
    rw [TurnHistory.step]
    split
    · next inst hs =>
      split
      · next op hop => exact h.leave hs hop
      · next op hop =>
        refine h.raised hs (hclean inst hs) fun op' hset => ?_
        rw [hop] at hset
        cases hset
      · exact h
      · exact h
    · exact h
  | raised =>
    rw [TurnHistory.step]
    split
    · next inst hs => exact h.raised hs (hclean inst hs).1 (hclean inst hs).2
    · exact h
  | cancelled =>
    rw [TurnHistory.step]
    split
    · next inst hs =>
      obtain ⟨hown, htail, hasked⟩ := hclean inst hs
      exact h.cancelled hs hown htail hasked
    · exact h
  | removed =>
    rw [TurnHistory.step]
    split
    · next hclosed =>
      have hnone := h.pending_of_closed (closed_of_any hclosed)
      refine ⟨?_, h.turns, h.ids, h.made, fun inst hs => by cases hs⟩
      rw [h.order, hnone]
      rfl
    · exact h
  | released =>
    have hnone : s.instance? = none := hclean
    refine ⟨h.order, h.turns, h.ids, h.made, fun inst hs => ?_⟩
    change s.instance? = some inst at hs
    rw [hnone] at hs
    cases hs

/-- Inputs end in the order in which they were accepted, under ids of their own; what is queued is
still taken; and the turns are those of the inputs that have ended. -/
structure RecordedOnce (s : TurnHistory) : Prop where
  order : s.accepted = s.endings.map Prod.fst ++ s.pending
  served : ∀ inst, s.instance? = some inst → inst.Served
  ids : (s.accepted.map UserInput.taskId).Nodup
  turns : s.turns = s.endings.map turnOf

/-- **Every input has its turn.** In a run of clean steps, each accepted input is run in its order
and leaves one turn, with its own task id, query, answer and outcome. -/
theorem inputs_recorded_once (ops : List TurnOp) (h : Meets step Clean init ops)
    (t : TurnHistory) (ht : Reached step init ops t) : t.RecordedOnce := by
  have hinv : t.Inv := reached_invariant (I := Inv) (fun _ _ hs hc => Inv.step hs hc) inv_init h ht
  exact ⟨hinv.order, fun inst hs => (hinv.holds inst hs).served, hinv.ids, hinv.turns⟩

/-- A subagent that answers one input, and then another. -/
def plainRun : List TurnOp :=
  [.spawn ['a'], .take true, .result (some ['x']), .returned, .sendInput ['b'] false,
    .take true, .result (some ['y']), .returned]

theorem inputs_recorded_once_plainRun : (run step init plainRun).RecordedOnce := by
  refine inputs_recorded_once plainRun ?_ _ ⟨plainRun, prefix_rfl, rfl⟩
  refine ⟨trivial, ?_, ?_, ?_, ?_, ?_, ?_, ?_, trivial⟩
  · rintro inst ⟨⟩ - ⟨⟩
  · rintro inst ⟨⟩
    refine ⟨?_, fun op hset => by cases hset⟩
    rintro op ⟨⟩ metadata ⟨⟩
    exact ⟨rfl, .inl rfl⟩
  · rintro inst ⟨⟩ op ⟨⟩
  · rintro inst ⟨⟩
    exact .inr ⟨nofun, not_mem_nil⟩
  · rintro inst ⟨⟩ - ⟨⟩
  · rintro inst ⟨⟩
    refine ⟨?_, fun op hset => by cases hset⟩
    rintro op ⟨⟩ metadata ⟨⟩
    exact ⟨rfl, .inl rfl⟩
  · rintro inst ⟨⟩ op ⟨⟩

def failedRun : List TurnOp :=
  [.spawn ['a'], .take true, .result (some ['x']), .returned, .sendInput ['b'] false,
    .take true, .result none, .returned]

/-- Its turn is taken for the one of the first input, and dropped. -/
theorem failed_turn_dropped :
    ¬ ∀ (ops : List TurnOp) (t : TurnHistory), Reached step init ops t → t.RecordedOnce := by
  intro h
  have hturns := (h failedRun _ ⟨failedRun, prefix_rfl, rfl⟩).turns
  have hlength := congrArg List.length hturns
  revert hlength
  decide

end TurnHistory

end JiuwenSpec.Subagent

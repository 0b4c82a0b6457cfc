import JiuwenSpec.Controller.CompletionSignal
import JiuwenSpec.Controller.TaskTruth

/-!
# The completion signal is neither lost nor early

A wrapper of the session that is not at its end will check, and what the check finds is either an
active task, whose own end comes later, or the end of the session's work, which it signals. So the
signal is only lost where a task ends, or a wrapper does, without a wrapper behind it, and it is
only early where a task becomes active while it is being sent.
-/

namespace JiuwenSpec.Controller

open Base List

namespace TaskScheduler

variable {s t : TaskScheduler} {i j k n : Nat} {w w' : Wrapper} {mine : Nat → Bool}

theorem phase?_congr (h : t.wrappers = s.wrappers) (k : Nat) : t.phase? k = s.phase? k := by
  rw [phase?, h, phase?]

theorem status?_congr (h : t.tasks = s.tasks) (i : Nat) : t.status? i = s.status? i := by
  rw [status?, h, status?]

theorem phase?_of_get (hk : s.wrappers[k]? = some w) : s.phase? k = some (w.task, w.phase) := by
  rw [phase?, hk]
  rfl

theorem phase?_setWrapper (hk : s.wrappers[k]? = some w) (w' : Wrapper) (j : Nat) :
    (s.setWrapper k w').phase? j = if j = k then some (w'.task, w'.phase) else s.phase? j := by
  obtain ⟨hlt, -⟩ := List.getElem?_eq_some_iff.mp hk
  rw [phase?, setWrapper, List.getElem?_set]
  by_cases hjk : k = j
  · subst hjk
    rw [if_pos rfl, if_pos hlt, if_pos rfl]
    rfl
  · rw [if_neg hjk, if_neg (Ne.symm hjk), phase?]

theorem status?_setTask (s : TaskScheduler) (i : Nat) (u : Task) (j : Nat) :
    (s.setTask i u).status? j =
      if j = i then (s.status? i).map fun _ => u.status else s.status? j := by
  rw [status?, setTask, List.getElem?_set]
  by_cases hij : i = j
  · subst hij
    rw [if_pos rfl, if_pos rfl, status?]
    by_cases hlt : i < s.tasks.length
    · rw [if_pos hlt, List.getElem?_eq_getElem hlt]
      rfl
    · rw [if_neg hlt, List.getElem?_eq_none (not_lt.mp hlt)]
      rfl
  · rw [if_neg hij, if_neg (Ne.symm hij), status?]

theorem status?_settle (s : TaskScheduler) (i : Nat) (status : TaskStatus) (final : Bool)
    (j : Nat) : (s.settle i status final).status? j =
      if j = i then (s.status? i).map fun _ => status else s.status? j := by
  rw [settle]
  cases h : s.tasks[i]? with
  | some u => exact status?_setTask s i _ j
  | none =>
    by_cases hij : j = i
    · rw [if_pos hij, hij, status?, h]
      rfl
    · rw [if_neg hij]

theorem status?_updateStatus (s : TaskScheduler) (i : Nat) (status : TaskStatus) (j : Nat) :
    (s.updateStatus i status).status? j =
      if j = i then (s.status? i).map fun _ => status else s.status? j := by
  rw [updateStatus]
  cases h : s.tasks[i]? with
  | some u => exact status?_setTask s i _ j
  | none =>
    by_cases hij : j = i
    · rw [if_pos hij, hij, status?, h]
      rfl
    · rw [if_neg hij]

theorem phase?_cancelWrapper (s : TaskScheduler) (k j : Nat) :
    (s.cancelWrapper k).phase? j = s.phase? j := by
  rw [cancelWrapper]
  cases hk : s.wrappers[k]? with
  | none => rfl
  | some w =>
    simp only
    split
    · rfl
    · rw [phase?_setWrapper hk]
      split
      · next hjk => rw [hjk, phase?_of_get hk]
      · rfl

theorem phase?_stop (s : TaskScheduler) (i : Nat) (kind : CallKind) (r : RunningTask) (j : Nat) :
    (s.stop i kind r).phase? j = s.phase? j := by
  rw [stop, phase?_congr (updateStatus_wrappers _ i _), phase?_cancelWrapper]

theorem status?_stop (s : TaskScheduler) (i : Nat) (kind : CallKind) (r : RunningTask) (j : Nat) :
    (s.stop i kind r).status? j =
      if j = i then (s.status? i).map fun _ => kind.status else s.status? j := by
  rw [stop, status?_updateStatus, status?_congr (cancelWrapper_tasks s r.wrapper),
    status?_congr (cancelWrapper_tasks s r.wrapper)]

theorem phase?_cleanup (hk : s.wrappers[k]? = some w) (j : Nat) :
    (s.cleanup k w).phase? j = if j = k then some (w.task, .signalling) else s.phase? j := by
  have hk' : (s.unregisterOwn w.task k).wrappers[k]? = some w := by
    rw [unregisterOwn_wrappers]
    exact hk
  rw [cleanup, phase?_setWrapper hk', phase?_congr (unregisterOwn_wrappers s w.task k)]

theorem status?_cleanup (s : TaskScheduler) (k : Nat) (w : Wrapper) (j : Nat) :
    (s.cleanup k w).status? j = s.status? j :=
  status?_congr (unregisterOwn_tasks s w.task k) j

def Runs (phase : WrapperPhase) : Prop := phase ≠ .signalling ∧ phase ≠ .done

/-- What a step does to a wrapper that is there: it stays where it is, or it is moved on, comes to
its end, ends, or is cancelled before it has started or at its end. -/
inductive Moved (op : SchedulerOp) (k : Nat) (phase : WrapperPhase) : WrapperPhase → Prop
  | stays : Moved op k phase phase
  | runs (phase' : WrapperPhase) (hop : op.wrapper? = some k) (h : Runs phase) (h' : Runs phase') :
      Moved op k phase phase'
  | arrives (hop : op.wrapper? = some k) (h : Runs phase) : Moved op k phase .signalling
  | exits (hop : op = .advance k .exit) (h : phase = .signalling) : Moved op k phase .done
  | cancelled (hop : op = .deliver k) (h : phase = .created ∨ phase = .signalling) :
      Moved op k phase .done

/-- What a step does to the status of a task: nothing, it makes it active, a wrapper of the task
that goes on ends it, or a call does. -/
inductive Rewritten (s : TaskScheduler) (op : SchedulerOp) (i : Nat) : Prop
  | same (h : (s.step op).status? i = s.status? i)
  | added (hop : op = .add) (h : i = s.tasks.length)
  | submitted (hop : op = .submit i)
      (hkeeps : s.activeAt i = true → (s.step op).activeAt i = true)
  | begun (k : Nat) (phase : WrapperPhase) (hop : op = .advance k (.begin true))
      (h : s.phase? k = some (i, phase))
      (hkeeps : s.activeAt i = true → (s.step op).activeAt i = true)
  | ended (k : Nat) (phase' : WrapperPhase) (h : (s.step op).phase? k = some (i, phase'))
      (hruns : Runs phase') (hquiet : ((s.step op).status? i).any TaskStatus.active = false)
  | called (h : Signals.Writes s i op)
      (hquiet : ((s.step op).status? i).any TaskStatus.active = false)

instance (phase : WrapperPhase) : Decidable (Runs phase) :=
  inferInstanceAs (Decidable (_ ∧ _))

variable {phase : WrapperPhase}

theorem runs_created (h : phase = .created) : Runs phase := by
  rw [h]
  decide

theorem runs_working (h : phase = .working) : Runs phase := by
  rw [h]
  decide

theorem runs_ending (h : phase = .publishing ∨ phase = .reporting) : Runs phase := by
  rcases h with h | h
  · rw [h]
    decide
  · rw [h]
    decide

theorem moved_set {op : SchedulerOp} {phase' : WrapperPhase}
    (hset : t.phase? k = some (w.task, phase'))
    (hother : ∀ j, j ≠ k → t.phase? j = s.phase? j) (hk : s.wrappers[k]? = some w)
    (hmoved : Moved op k w.phase phase') {i : Nat}
    (h : s.phase? j = some (i, phase)) :
    ∃ phase', t.phase? j = some (i, phase') ∧ Moved op j phase phase' := by
  by_cases hjk : j = k
  · subst hjk
    rw [phase?_of_get hk] at h
    cases h
    exact ⟨phase', hset, hmoved⟩
  · exact ⟨phase, (hother j hjk).trans h, .stays⟩

theorem moved_same {op : SchedulerOp} (hsame : ∀ j, t.phase? j = s.phase? j) {i : Nat}
    (h : s.phase? j = some (i, phase)) :
    ∃ phase', t.phase? j = some (i, phase') ∧ Moved op j phase phase' :=
  ⟨phase, (hsame j).trans h, .stays⟩

theorem moved_setWrapper {op : SchedulerOp} (hk : s.wrappers[k]? = some w)
    (hwrappers : t.wrappers = s.wrappers) {next : WrapperPhase} {cancelling : Bool}
    (hmoved : Moved op k w.phase next) {i : Nat}
    (h : s.phase? j = some (i, phase)) : ∃ phase',
      (t.setWrapper k ⟨w.task, next, cancelling⟩).phase? j = some (i, phase') ∧
        Moved op j phase phase' := by
  have hk' : t.wrappers[k]? = some w := by
    rw [hwrappers]
    exact hk
  refine moved_set ?_ (fun j hj => ?_) hk hmoved h
  · rw [phase?_setWrapper hk', if_pos rfl]
  · rw [phase?_setWrapper hk', if_neg hj, phase?_congr hwrappers]

theorem moved_cleanup {op : SchedulerOp} (hk : s.wrappers[k]? = some w)
    (hmoved : Moved op k w.phase .signalling) {i : Nat} (h : s.phase? j = some (i, phase)) :
    ∃ phase', (s.cleanup k w).phase? j = some (i, phase') ∧ Moved op j phase phase' :=
  moved_set (by rw [phase?_cleanup hk, if_pos rfl])
    (fun j hj => by rw [phase?_cleanup hk, if_neg hj]) hk hmoved h

theorem settle_unregister_wrappers (s : TaskScheduler) (i : Nat) (status : TaskStatus)
    (final : Bool) : ((s.settle i status final).unregister i).wrappers = s.wrappers :=
  settle_wrappers s i status final

theorem moved_advance (hk : s.wrappers[k]? = some w) (e : WrapperEvent) {i : Nat}
    (h : s.phase? j = some (i, phase)) :
    ∃ phase', (s.advance k w e).phase? j = some (i, phase') ∧
      Moved (.advance k e) j phase phase' := by
  cases e with
  | begin found =>
    rw [advance]
    split
    · next hphase =>
      rw [begin]
      cases found with
      | true =>
        have hmoved : Moved (.advance k (.begin true)) k w.phase .working :=
          .runs _ rfl (runs_created hphase) (by decide)
        exact moved_setWrapper hk (settle_wrappers (s.setExecutor w.task) _ _ _) hmoved h
      | false =>
        have hmoved : Moved (.advance k (.begin false)) k w.phase .reporting :=
          .runs _ rfl (runs_created hphase) (by decide)
        exact moved_setWrapper hk (settle_wrappers s _ _ _) hmoved h
    · exact moved_same (fun _ => rfl) h
  | finish e =>
    rw [advance]
    split
    · next hphase =>
      have hmoved : Moved (.advance k (.finish e)) k w.phase .publishing :=
        .runs _ rfl (runs_working hphase) (by decide)
      exact moved_setWrapper hk (settle_unregister_wrappers s _ _ _) hmoved h
    · exact moved_same (fun _ => rfl) h
  | exhausted =>
    rw [advance]
    split
    · next hphase =>
      exact moved_cleanup hk (.arrives rfl (runs_working hphase)) h
    · exact moved_same (fun _ => rfl) h
  | error =>
    rw [advance]
    split
    · next hphase =>
      have hruns : Runs w.phase := hphase.elim runs_working fun h => runs_ending (.inl h)
      have hmoved : Moved (.advance k .error) k w.phase .reporting :=
        .runs _ rfl hruns (by decide)
      exact moved_setWrapper hk (settle_wrappers s _ _ _) hmoved h
    · exact moved_same (fun _ => rfl) h
  | published =>
    rw [advance]
    split
    · next hphase =>
      exact moved_cleanup hk (.arrives rfl (runs_ending hphase)) h
    · exact moved_same (fun _ => rfl) h
  | exit =>
    rw [advance]
    split
    · next hphase =>
      have hmoved : Moved (.advance k .exit) k w.phase .done := .exits rfl hphase
      exact moved_setWrapper hk rfl hmoved h
    · exact moved_same (fun _ => rfl) h

theorem moved_deliver (hk : s.wrappers[k]? = some w) {i : Nat} (h : s.phase? j = some (i, phase)) :
    ∃ phase', (s.deliver k w).phase? j = some (i, phase') ∧ Moved (.deliver k) j phase phase' := by
  cases hphase : w.phase with
  | created =>
    rw [deliver, hphase]
    have hmoved : Moved (.deliver k) k w.phase .done := .cancelled rfl (.inl hphase)
    exact moved_setWrapper hk rfl hmoved h
  | signalling =>
    rw [deliver, hphase]
    have hmoved : Moved (.deliver k) k w.phase .done := .cancelled rfl (.inr hphase)
    exact moved_setWrapper hk rfl hmoved h
  | working =>
    rw [deliver, hphase]
    exact moved_cleanup hk (.arrives rfl (runs_working hphase)) h
  | publishing =>
    rw [deliver, hphase]
    exact moved_cleanup hk (.arrives rfl (runs_ending (.inl hphase))) h
  | reporting =>
    rw [deliver, hphase]
    exact moved_cleanup hk (.arrives rfl (runs_ending (.inr hphase))) h
  | done =>
    rw [deliver, hphase]
    exact moved_same (fun _ => rfl) h

theorem phase?_dispatch (i : Nat) {p : Nat × WrapperPhase} (h : s.phase? j = some p) :
    (s.dispatch i).phase? j = some p := by
  rw [dispatch]
  split
  · exact h
  · split
    · exact h
    · obtain ⟨w, hw, rfl⟩ := Option.map_eq_some_iff.mp h
      obtain ⟨hlt, -⟩ := List.getElem?_eq_some_iff.mp hw
      rw [phase?, List.getElem?_append_left hlt, hw]
      rfl

theorem phase?_call (s : TaskScheduler) (kind : CallKind) (i j : Nat) :
    (s.call kind i).phase? j = s.phase? j := by
  rw [call]
  split
  · rfl
  · split
    · rfl
    · split
      · rfl
      · split
        · rfl
        · split
          · rfl
          · exact phase?_stop s i kind _ j

theorem phase?_reply (s : TaskScheduler) (n : Nat) (c : Call) (ok : Bool) (j : Nat) :
    (s.reply n c ok).phase? j = s.phase? j := by
  rw [reply]
  split
  · split
    · exact phase?_stop s c.task c.kind _ j
    · rfl
  · rfl

theorem phase?_joined (s : TaskScheduler) (n : Nat) (c : Call) (submission : Nat) (ok : Bool)
    (j : Nat) : (s.joined n c submission ok).phase? j = s.phase? j := by
  rw [joined]
  apply phase?_congr
  split
  · change (s.confirm c.task submission).wrappers = s.wrappers
    rw [confirm]
    split
    · split
      · rfl
      · rfl
    · rfl
  · rfl

theorem step_moved (op : SchedulerOp) {i : Nat} (h : s.phase? j = some (i, phase)) :
    ∃ phase', (s.step op).phase? j = some (i, phase') ∧ Moved op j phase phase' := by
  cases op with
  | add => exact moved_same (fun _ => rfl) h
  | submit i' =>
    rw [step]
    split
    · exact moved_same (fun _ => rfl) h
    · exact moved_same (fun _ => rfl) h
  | dispatch i' => exact ⟨phase, phase?_dispatch i' h, .stays⟩
  | advance k e =>
    rw [step]
    split
    · next w hk =>
      split
      · exact moved_same (fun _ => rfl) h
      · exact moved_advance hk e h
    · exact moved_same (fun _ => rfl) h
  | deliver k =>
    rw [step]
    split
    · next w hk =>
      split
      · exact moved_deliver hk h
      · exact moved_same (fun _ => rfl) h
    · exact moved_same (fun _ => rfl) h
  | ignore k =>
    rw [step]
    split
    · next w hk =>
      split
      · have hmoved : Moved (.ignore k) k w.phase w.phase := .stays
        exact moved_setWrapper hk rfl hmoved h
      · exact moved_same (fun _ => rfl) h
    · exact moved_same (fun _ => rfl) h
  | call kind i' => exact moved_same (phase?_call s kind i') h
  | reply n ok =>
    rw [step]
    split
    · split
      · exact moved_same (phase?_reply s n _ ok) h
      · exact moved_same (fun _ => rfl) h
    · exact moved_same (fun _ => rfl) h
  | joined n ok =>
    rw [step]
    split
    · split
      · split
        · exact moved_same (phase?_joined s n _ _ ok) h
        · exact moved_same (fun _ => rfl) h
      · exact moved_same (fun _ => rfl) h
    · exact moved_same (fun _ => rfl) h

theorem quiet_of_map {status : TaskStatus} (h : status.active = false) {o : Option TaskStatus} :
    (o.map fun _ => status).any TaskStatus.active = false := by
  cases o with
  | none => rfl
  | some _ => exact h

theorem rewritten_ended {op : SchedulerOp} {status : TaskStatus} {next : WrapperPhase}
    (hphase : (s.step op).phase? k = some (w.task, next)) (hruns : Runs next)
    (hquiet : status.active = false)
    (hstatus : ∀ j, (s.step op).status? j =
      if j = w.task then (s.status? w.task).map fun _ => status else s.status? j) (i : Nat) :
    Rewritten s op i := by
  by_cases hi : i = w.task
  · subst hi
    refine .ended k next hphase hruns ?_
    rw [hstatus, if_pos rfl]
    exact quiet_of_map hquiet
  · exact .same ((hstatus i).trans (if_neg hi))

theorem activeAt_of_map {status : TaskStatus} (h : status.active = true)
    (hstatus : t.status? i = (s.status? i).map fun _ => status) (hi : s.activeAt i = true) :
    t.activeAt i = true := by
  rw [activeAt] at hi ⊢
  rw [hstatus]
  cases hs : s.status? i with
  | none =>
    rw [hs] at hi
    cases hi
  | some _ => exact h

theorem step_advance (hk : s.wrappers[k]? = some w) (e : WrapperEvent) :
    s.step (.advance k e) = if w.cancelling then s else s.advance k w e := by
  rw [step, hk]

theorem phase?_advance_set (hk : s.wrappers[k]? = some w) {next : WrapperPhase}
    {cancelling : Bool} (hwrappers : t.wrappers = s.wrappers) :
    (t.setWrapper k ⟨w.task, next, cancelling⟩).phase? k = some (w.task, next) := by
  have hk' : t.wrappers[k]? = some w := by
    rw [hwrappers]
    exact hk
  rw [phase?_setWrapper hk', if_pos rfl]

theorem rewritten_advance (hk : s.wrappers[k]? = some w) (e : WrapperEvent) (i : Nat)
    (hstep : s.step (.advance k e) = s.advance k w e) : Rewritten s (.advance k e) i := by
  cases e with
  | begin found =>
    by_cases hphase : w.phase = .created
    · rw [advance, if_pos hphase, begin] at hstep
      cases found with
      | true =>
        by_cases hi : i = w.task
        · subst hi
          refine .begun k w.phase rfl (phase?_of_get hk) (@activeAt_of_map s _ _ .working rfl ?_)
          rw [hstep]
          change ((s.setExecutor w.task).settle w.task .working false).status? w.task = _
          rw [status?_settle, if_pos rfl]
          rfl
        · refine .same ?_
          rw [hstep]
          change ((s.setExecutor w.task).settle w.task .working false).status? i = _
          rw [status?_settle, if_neg hi]
          rfl
      | false =>
        refine @rewritten_ended s k w _ .failed .reporting ?_ (by decide) rfl (fun j => ?_) i
        · rw [hstep]
          exact phase?_advance_set hk (settle_wrappers s _ _ _)
        · rw [hstep]
          exact status?_settle s w.task .failed true j
    · rw [advance, if_neg hphase] at hstep
      exact .same (by rw [hstep])
  | finish e =>
    by_cases hphase : w.phase = .working
    · rw [advance, if_pos hphase] at hstep
      refine @rewritten_ended s k w _ e.status .publishing ?_ (by decide) (by cases e <;> rfl)
        (fun j => ?_) i
      · rw [hstep]
        exact phase?_advance_set hk (settle_unregister_wrappers s _ _ _)
      · rw [hstep]
        exact status?_settle s w.task e.status e.final j
    · rw [advance, if_neg hphase] at hstep
      exact .same (by rw [hstep])
  | exhausted =>
    refine .same ?_
    rw [hstep, advance]
    split
    · exact status?_cleanup s k w i
    · rfl
  | error =>
    by_cases hphase : w.phase = .working ∨ w.phase = .publishing
    · rw [advance, if_pos hphase] at hstep
      refine @rewritten_ended s k w _ .failed .reporting ?_ (by decide) rfl (fun j => ?_) i
      · rw [hstep]
        exact phase?_advance_set hk (settle_wrappers s _ _ _)
      · rw [hstep]
        exact status?_settle s w.task .failed true j
    · rw [advance, if_neg hphase] at hstep
      exact .same (by rw [hstep])
  | published =>
    refine .same ?_
    rw [hstep, advance]
    split
    · exact status?_cleanup s k w i
    · rfl
  | exit =>
    refine .same ?_
    rw [hstep, advance]
    split
    · rfl
    · rfl

theorem rewritten_stop {op : SchedulerOp} {kind : CallKind} {r : RunningTask} {i' : Nat}
    (hop : Signals.Writes s i' op) (hstep : (s.step op).tasks = (s.stop i' kind r).tasks)
    (i : Nat) : Rewritten s op i := by
  have hstatus := fun j => (status?_congr hstep j).trans (status?_stop s i' kind r j)
  by_cases hi : i = i'
  · subst hi
    refine .called hop ?_
    rw [hstatus, if_pos rfl]
    exact quiet_of_map (by cases kind <;> rfl)
  · exact .same ((hstatus i).trans (if_neg hi))

theorem rewritten_call (kind : CallKind) (i' i : Nat) : Rewritten s (.call kind i') i := by
  have hstep : s.step (.call kind i') = s.call kind i' := rfl
  rw [call] at hstep
  split at hstep
  · exact .same (by rw [hstep]; rfl)
  · next u hu =>
    split at hstep
    · next hcancel =>
      have hstatus : ∀ j, (s.step (.call kind i')).status? j =
          if j = i' then (s.status? i').map fun _ => .canceled else s.status? j := by
        intro j
        rw [hstep]
        exact status?_setTask s i' _ j
      by_cases hi : i = i'
      · subst hi
        refine .called ⟨rfl, .inl ⟨hcancel.1, ?_⟩⟩ ?_
        · rw [status?, hu, ← hcancel.2]
          rfl
        · rw [hstatus, if_pos rfl]
          exact quiet_of_map rfl
      · exact .same ((hstatus i).trans (if_neg hi))
    · split at hstep
      · exact .same (by rw [hstep]; rfl)
      · split at hstep
        · exact .same (by rw [hstep]; rfl)
        · next r hr =>
          split at hstep
          · exact .same (by rw [hstep]; rfl)
          · next hexec =>
            have hwrites : Signals.Writes s i' (.call kind i') :=
              ⟨rfl, .inr ⟨r, hr, Bool.eq_false_iff.mpr hexec⟩⟩
            have htasks : (s.step (.call kind i')).tasks = (s.stop i' kind r).tasks := by
              rw [hstep]
              rfl
            exact rewritten_stop hwrites htasks i

theorem rewritten_reply (n : Nat) (ok : Bool) (i : Nat) : Rewritten s (.reply n ok) i := by
  cases hc : s.calls[n]? with
  | none => exact .same (by rw [step, hc])
  | some c =>
    have hstep : s.step (.reply n ok) = if c.phase = .asking then s.reply n c ok else s := by
      rw [step, hc]
    split at hstep
    · rw [reply] at hstep
      split at hstep
      · next u r hu hr =>
        split at hstep
        · next hok =>
          have hwrites : Signals.Writes s c.task (.reply n ok) := ⟨hok, c, r, hc, rfl, hr⟩
          have htasks : (s.step (.reply n ok)).tasks = (s.stop c.task c.kind r).tasks := by
            rw [hstep]
            rfl
          exact rewritten_stop hwrites htasks i
        · exact .same (by rw [hstep]; rfl)
      · exact .same (by rw [hstep]; rfl)
    · exact .same (by rw [hstep])

theorem step_rewritten (s : TaskScheduler) (op : SchedulerOp) (i : Nat) : Rewritten s op i := by
  cases op with
  | add =>
    by_cases hi : i = s.tasks.length
    · exact .added rfl hi
    · refine .same ?_
      change Option.map _ (s.tasks ++ [_])[i]? = _
      rw [status?]
      rcases lt_or_ge i s.tasks.length with hlt | hge
      · rw [List.getElem?_append_left hlt]
      · rw [List.getElem?_eq_none hge, List.getElem?_eq_none]
        rw [length_append, length_singleton]
        omega
  | submit i' =>
    by_cases hi : i = i'
    · subst hi
      refine .submitted rfl (@activeAt_of_map s _ _ .submitted rfl ?_)
      rw [step]
      split
      · rw [status?_setTask, if_pos rfl]
      · next hnone => rw [status?, hnone]; rfl
    · refine .same ?_
      rw [step]
      split
      · rw [status?_setTask, if_neg hi]
      · rfl
  | dispatch i' =>
    refine .same ?_
    change (s.dispatch i').status? i = _
    rw [dispatch]
    split
    · rfl
    · split
      · rfl
      · rfl
  | advance k e =>
    cases hk : s.wrappers[k]? with
    | none => exact .same (by rw [step, hk])
    | some w =>
      by_cases hcancelling : w.cancelling = true
      · exact .same (by rw [step_advance hk, if_pos hcancelling])
      · exact rewritten_advance hk e i (by rw [step_advance hk, if_neg hcancelling])
  | deliver k =>
    refine .same ?_
    rw [step]
    split
    · split
      · rw [deliver]
        split
        · rfl
        · rfl
        · exact status?_cleanup s k _ i
        · exact status?_cleanup s k _ i
        · exact status?_cleanup s k _ i
        · rfl
      · rfl
    · rfl
  | ignore k =>
    refine .same ?_
    rw [step]
    split
    · split
      · rfl
      · rfl
    · rfl
  | call kind i' => exact rewritten_call kind i' i
  | reply n ok => exact rewritten_reply n ok i
  | joined n ok =>
    refine .same ?_
    rw [step]
    split
    · split
      · split
        · rw [joined]
          split
          · change (s.confirm _ _).status? i = _
            rw [confirm]
            split
            · next u hu =>
              split
              · rw [status?_setTask]
                split
                · next hij =>
                  rw [hij, status?, hu]
                  rfl
                · rfl
              · rfl
            · rfl
          · rfl
        · rfl
      · rfl
    · rfl

end TaskScheduler

namespace Signals

open TaskScheduler

variable {mine : Nat → Bool} {x : Signals} {op : SchedulerOp} {i k : Nat}

theorem lt_of_activeAt {s : TaskScheduler} (h : s.activeAt i = true) : i < s.tasks.length := by
  by_contra hge
  rw [activeAt, status?, List.getElem?_eq_none (not_lt.mp hge)] at h
  cases h

theorem hasActive_iff {s : TaskScheduler} :
    s.hasActive mine = true ↔ ∃ i, mine i = true ∧ s.activeAt i = true := by
  rw [hasActive, any_eq_true]
  constructor
  · rintro ⟨i, -, h⟩
    exact ⟨i, Bool.and_eq_true_iff.mp h⟩
  · rintro ⟨i, hmine, hactive⟩
    exact ⟨i, mem_range.mpr (lt_of_activeAt hactive), Bool.and_eq_true_iff.mpr
      ⟨hmine, hactive⟩⟩

theorem leaves_iff {s t : TaskScheduler} : s.leaves mine t = true ↔
    ∃ i, mine i = true ∧ s.activeAt i = true ∧ t.activeAt i = false := by
  rw [leaves, any_eq_true]
  constructor
  · rintro ⟨i, -, h⟩
    rw [Bool.and_eq_true, Bool.and_eq_true, Bool.not_eq_true'] at h
    exact ⟨i, h.1.1, h.1.2, h.2⟩
  · rintro ⟨i, hmine, hactive, hquiet⟩
    refine ⟨i, mem_range.mpr (lt_of_activeAt hactive), ?_⟩
    rw [Bool.and_eq_true, Bool.and_eq_true, Bool.not_eq_true']
    exact ⟨⟨hmine, hactive⟩, hquiet⟩

/-- Nothing is owed, or a task is active, or a wrapper will check; a task is not active while the
signal is being sent, and no signal was early. -/
structure Sound (mine : Nat → Bool) (x : Signals) : Prop where
  quiet : ∀ k ∈ x.sending, x.scheduler.hasActive mine = false
  owed : x.owed = false ∨ x.scheduler.hasActive mine = true ∨ ∃ k, x.Watches mine k
  early : x.early = false

theorem mem_sending {k : Nat} (h : k ∈ (x.step mine op).sending) :
    k ∈ x.sending ∨ (x.scheduler.step op).hasActive mine = false := by
  rcases mem_append.mp h with h | h
  · exact .inl (mem_filter.mp h).1
  · have := (Bool.and_eq_true_iff.mp (mem_filter.mp h).2).2
    rw [Bool.not_eq_true'] at this
    exact .inr this

theorem inactive_of_safe (hsafe : x.Safe mine op) (hk : k ∈ x.sending)
    (hquiet : x.scheduler.hasActive mine = false) :
    (x.scheduler.step op).hasActive mine = false := by
  rw [← Bool.not_eq_true, hasActive_iff]
  rintro ⟨i, hmine, hactive⟩
  have hne : x.sending ≠ [] := ne_nil_of_mem hk
  cases step_rewritten x.scheduler op i with
  | same h =>
    rw [activeAt, h] at hactive
    rw [hasActive_iff.mpr ⟨i, hmine, hactive⟩] at hquiet
    cases hquiet
  | added hop h =>
    subst hop
    exact hne (hsafe (h ▸ hmine))
  | submitted hop _ =>
    subst hop
    exact hne (hsafe hmine)
  | begun k phase hop h _ =>
    subst hop
    exact hne (hsafe i phase h hmine)
  | ended k phase' h hruns hq =>
    rw [activeAt, hq] at hactive
    cases hactive
  | called h hq =>
    rw [activeAt, hq] at hactive
    cases hactive

theorem watches_step (hactive : (x.scheduler.step op).hasActive mine = false)
    (h : x.Watches mine k) : (x.step mine op).Watches mine k ∨
      x.writes (x.scheduler.step op) op = true ∨ (op = .deliver k ∧ ∃ i phase,
        x.scheduler.phase? k = some (i, phase) ∧ mine i = true ∧
          (phase = .created ∨ (phase = .signalling ∧ k ∈ x.sending))) := by
  obtain ⟨i, phase, hphase, hmine, hwatch⟩ := h
  obtain ⟨phase', hphase', hmoved⟩ := step_moved op hphase
  cases hmoved with
  | stays =>
    rcases hwatch with hruns | ⟨hsignal, hmem⟩
    · exact .inl ⟨i, phase, hphase', hmine, .inl hruns⟩
    · refine .inl ⟨i, phase, hphase', hmine, .inr ⟨hsignal, ?_⟩⟩
      refine mem_append_left _ (mem_filter.mpr ⟨hmem, ?_⟩)
      rw [hphase', hsignal]
      rfl
  | runs phase' hop hr hr' => exact .inl ⟨i, phase', hphase', hmine, .inl hr'⟩
  | arrives hop hr =>
    refine .inl ⟨i, .signalling, hphase', hmine, .inr ⟨rfl, ?_⟩⟩
    refine mem_append_right _ (mem_filter.mpr ⟨?_, ?_⟩)
    · rw [hop]
      exact mem_singleton_self k
    · rw [hactive, arrives, hphase, hphase']
      simp only [hmine, Bool.not_false, Bool.and_true, decide_eq_true_eq]
      exact hr.1
  | exits hop hsignal =>
    rcases hwatch with hruns | ⟨-, hmem⟩
    · exact absurd hsignal hruns.1
    · subst hop
      refine .inr (.inl ?_)
      rw [writes, hphase']
      exact Bool.and_eq_true_iff.mpr ⟨decide_eq_true hmem, rfl⟩
  | cancelled hop hphases =>
    refine .inr (.inr ⟨hop, i, phase, hphase, hmine, ?_⟩)
    rcases hphases with hcreated | hsignal
    · exact .inl hcreated
    · rcases hwatch with hruns | ⟨-, hmem⟩
      · exact absurd hsignal hruns.1
      · exact .inr ⟨hsignal, hmem⟩

theorem Writes.unique {s : TaskScheduler} {i j : Nat} (h : Writes s i op) (h' : Writes s j op) :
    j = i := by
  cases op with
  | call kind i' => exact h'.1.symm.trans h.1
  | reply n ok =>
    obtain ⟨-, c, r, hc, hi, -⟩ := h
    obtain ⟨-, c', r', hc', hj, -⟩ := h'
    rw [hc] at hc'
    cases hc'
    exact hj.symm.trans hi
  | _ => cases h

theorem watched_of_leaves (hsafe : x.Safe mine op)
    (hactive : (x.scheduler.step op).hasActive mine = false) (hmine : mine i = true)
    (hi : x.scheduler.activeAt i = true) :
    (∃ k, (x.step mine op).Watches mine k) ∨ ∃ k, op.wrapper? = none ∧ x.Watches mine k := by
  have hquiet : ∀ j, mine j = true → (x.scheduler.step op).activeAt j ≠ true := by
    intro j hj hactive'
    rw [hasActive_iff.mpr ⟨j, hj, hactive'⟩] at hactive
    cases hactive
  -- a task that is active before and not after was ended by a wrapper or a call
  have hends : ∀ j, mine j = true → x.scheduler.activeAt j = true →
      (∃ k, (x.step mine op).Watches mine k) ∨ Writes x.scheduler j op := by
    intro j hj hactive'
    cases step_rewritten x.scheduler op j with
    | same h =>
      have hsame : (x.scheduler.step op).activeAt j = x.scheduler.activeAt j := by
        rw [activeAt, h, activeAt]
      exact absurd (hsame.trans hactive') (hquiet j hj)
    | added hop h => exact absurd (lt_of_activeAt hactive') (by rw [h]; exact lt_irrefl _)
    | submitted hop hkeeps => exact absurd (hkeeps hactive') (hquiet j hj)
    | begun k phase hop h hkeeps => exact absurd (hkeeps hactive') (hquiet j hj)
    | ended k phase' h hruns hq => exact .inl ⟨k, j, phase', h, hj, .inl hruns⟩
    | called h hq => exact .inr h
  rcases hends i hmine hi with hwatch | hwrites
  · exact .inl hwatch
  · have hcall : op.wrapper? = none ∧ ((∃ j, j ≠ i ∧ mine j = true ∧
        x.scheduler.activeAt j = true) ∨ ∃ k, x.Watches mine k) := by
      cases op with
      | call kind i' => exact ⟨rfl, hsafe i hwrites hmine hi⟩
      | reply n ok => exact ⟨rfl, hsafe i hwrites hmine hi⟩
      | _ => cases hwrites
    obtain ⟨hop, ⟨j, hne, hj, hactive'⟩ | ⟨k, hwatch⟩⟩ := hcall
    · rcases hends j hj hactive' with hwatch | hwrites'
      · exact .inl hwatch
      · exact absurd (hwrites.unique hwrites') hne
    · exact .inr ⟨k, hop, hwatch⟩

theorem mem_of_writes {t : TaskScheduler} (h : x.writes t op = true) :
    ∃ k, op = .advance k .exit ∧ k ∈ x.sending := by
  rw [writes.eq_def] at h
  split at h
  · next k => exact ⟨k, rfl, of_decide_eq_true (Bool.and_eq_true_iff.mp h).1⟩
  · cases h

theorem step_sound (op : SchedulerOp) (h : x.Sound mine) (hsafe : x.Safe mine op) :
    (x.step mine op).Sound mine where
  quiet := by
    intro k hk
    rcases mem_sending hk with hmem | hquiet
    · exact inactive_of_safe hsafe hmem (h.quiet k hmem)
    · exact hquiet
  early := by
    change (x.early || (x.writes (x.scheduler.step op) op &&
      (x.scheduler.step op).hasActive mine)) = false
    rw [h.early, Bool.false_or]
    cases hwrites : x.writes (x.scheduler.step op) op with
    | false => rfl
    | true =>
      obtain ⟨k, -, hmem⟩ := mem_of_writes hwrites
      exact inactive_of_safe hsafe hmem (h.quiet k hmem)
  owed := by
    change (!x.writes (x.scheduler.step op) op && (x.owed ||
      x.scheduler.leaves mine (x.scheduler.step op))) = false ∨
        (x.scheduler.step op).hasActive mine = true ∨ ∃ k, (x.step mine op).Watches mine k
    cases hactive : (x.scheduler.step op).hasActive mine with
    | true => exact .inr (.inl rfl)
    | false =>
      cases hwrites : x.writes (x.scheduler.step op) op with
      | true => exact .inl rfl
      | false =>
        have hstays : ∀ k, x.Watches mine k → (op = .deliver k → False) →
            ∃ k, (x.step mine op).Watches mine k := by
          intro k hwatch hop
          rcases watches_step hactive hwatch with hw | hw | ⟨hw, -⟩
          · exact ⟨k, hw⟩
          · rw [hwrites] at hw
            cases hw
          · exact (hop hw).elim
        have hleaves : ∀ i, mine i = true → x.scheduler.activeAt i = true →
            ∃ k, (x.step mine op).Watches mine k := by
          intro i hmine hi
          rcases watched_of_leaves hsafe hactive hmine hi with hw | ⟨k, hop, hw⟩
          · exact hw
          · refine hstays k hw fun heq => ?_
            subst heq
            cases hop
        by_cases hbefore : x.scheduler.hasActive mine = true
        · obtain ⟨i, hmine, hi⟩ := hasActive_iff.mp hbefore
          exact .inr (.inr (hleaves i hmine hi))
        · have hnone : x.scheduler.leaves mine (x.scheduler.step op) = false := by
            rw [← Bool.not_eq_true, leaves_iff]
            rintro ⟨i, hmine, hi, -⟩
            exact hbefore (hasActive_iff.mpr ⟨i, hmine, hi⟩)
          rw [hnone, Bool.or_false, Bool.not_false, Bool.true_and]
          rcases h.owed with howed | hbefore' | ⟨k, hwatch⟩
          · exact .inl howed
          · exact absurd hbefore' hbefore
          · rcases watches_step hactive hwatch with hw | hw | ⟨rfl, i, phase, hphase, hmine, hcase⟩
            · exact .inr (.inr ⟨k, hw⟩)
            · rw [hwrites] at hw
              cases hw
            · rcases hsafe i phase hphase hmine hcase with howed | hbefore' | ⟨k', hne, hwatch'⟩
              · exact .inl howed
              · exact absurd hbefore' hbefore
              · refine .inr (.inr (hstays k' hwatch' fun heq => hne ?_))
                exact (SchedulerOp.deliver.inj heq).symm

/-- In every state of a run of safe steps, no signal was written while a task of the session was
active, and where none is and no wrapper of the session is in progress, a signal was written after
the last of its tasks has left the active states. -/
theorem signal_neither_lost_nor_early (mine : Nat → Bool) (limit : Nat) (ops : List SchedulerOp)
    (hsafe : Meets (step mine) (Safe mine) { scheduler := .init limit } ops) {t : Signals}
    (ht : Reached (step mine) { scheduler := .init limit } ops t) :
    t.early = false ∧ (t.scheduler.hasActive mine = false → t.Idle mine → t.owed = false) := by
  have hinit : Sound mine { scheduler := .init limit } :=
    ⟨nofun, .inl rfl, rfl⟩
  have hsound : Sound mine t :=
    reached_invariant (fun _ op h hop => step_sound op h hop) hinit hsafe ht
  refine ⟨hsound.early, fun hquiet hidle => ?_⟩
  rcases hsound.owed with howed | hactive | ⟨k, i, phase, hphase, hmine, hwatch⟩
  · exact howed
  · rw [hquiet] at hactive
    cases hactive
  · have hd := hidle.1 k i phase hphase hmine
    subst hd
    rcases hwatch with hruns | ⟨hsignal, -⟩
    · exact absurd rfl hruns.2
    · cases hsignal

def signalRun : List SchedulerOp :=
  [.add, .dispatch 0, .advance 0 (.begin true), .advance 0 (.finish .completion),
    .advance 0 .published, .advance 0 .exit]

theorem signalRun_safe : Meets (step fun _ => true) (Safe fun _ => true)
    { scheduler := .init 1 } signalRun := by
  refine ⟨fun _ => rfl, ?_, fun _ _ _ _ => rfl, ?_, ?_, ?_, trivial⟩
  · exact fun _ h => h.elim
  · exact fun _ h => h.elim
  · exact fun _ h => h.elim
  · exact fun _ h => h.elim

theorem signalRun_signals :
    (run (step fun _ => true) { scheduler := .init 1 } signalRun).owed = false := by
  refine (signal_neither_lost_nor_early (fun _ => true) 1 signalRun signalRun_safe
    ⟨signalRun, prefix_rfl, rfl⟩).2 (by decide)
    ⟨fun k i phase hphase _ => ?_, nofun⟩
  obtain ⟨w, hw, heq⟩ := Option.map_eq_some_iff.mp hphase
  have hwrappers : (run (step fun _ ↦ true) { scheduler := .init 1 } signalRun).scheduler.wrappers =
      [⟨0, .done, false⟩] := by
    decide
  rw [hwrappers] at hw
  cases k with
  | zero =>
    cases hw
    exact (Prod.mk.inj heq).2.symm
  | succ k => cases hw

/-- A submitted task is cancelled before the scheduler comes to it. -/
def lostRun : List SchedulerOp := [.add, .call .cancel 0]

/-- The signal is owed and no wrapper is there to write it. -/
theorem cancelled_signal_lost : ¬ ∀ (mine : Nat → Bool) (limit : Nat) (ops : List SchedulerOp)
    (t : Signals), Reached (step mine) { scheduler := .init limit } ops t →
      t.early = false ∧ (t.scheduler.hasActive mine = false → t.Idle mine → t.owed = false) := by
  intro h
  have hcalls : (run (step fun _ => true) { scheduler := .init 1 } lostRun).scheduler.calls =
      [⟨.cancel, 0, .returned true⟩] := by
    decide
  have howed := (h (fun _ => true) 1 lostRun _ ⟨lostRun, prefix_rfl, rfl⟩).2 (by decide)
    ⟨fun k i phase hphase => (by cases hphase), fun c hc _ => ?_⟩
  · exact absurd howed (by decide)
  · rw [hcalls, mem_singleton] at hc
    exact ⟨true, congrArg Call.phase hc⟩

end Signals

end JiuwenSpec.Controller

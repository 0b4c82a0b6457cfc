import JiuwenSpec.Base.Census
import JiuwenSpec.Controller.TaskScheduler

/-!
# What statuses of tasks tell

The table of running tasks is bounded, and a task has one live wrapper, in every run. A status says
what happened to its task as long as the calls that write it do not come between two steps of a
wrapper.
-/

namespace JiuwenSpec.Controller

open Base List

/-- A wrapper that writes no status any more. -/
def Wrapper.Quiet (w : Wrapper) : Prop := w.cancelling = true ∨ w.phase = .signalling

namespace TaskScheduler

variable {s t : TaskScheduler} {i k n : Nat} {w w' : Wrapper}

/-- The table keeps to its limit, and both tables name the live wrapper of a task. -/
structure Registered (s : TaskScheduler) : Prop where
  bounded : s.running.length ≤ s.maxConcurrentTasks
  owned : ∀ (k : Nat) (w : Wrapper), s.wrappers[k]? = some w → w.phase ≠ .done →
    assocGet? w.task s.owned = some k
  current : ∀ (k : Nat) (w : Wrapper) (r : RunningTask), s.wrappers[k]? = some w →
    w.phase ≠ .done → assocGet? w.task s.running = some r → r.wrapper = k

theorem registered_init (limit : Nat) : (init limit).Registered where
  bounded := Nat.zero_le _
  owned := fun k w h => by cases h
  current := fun k w r h => by cases h

theorem Registered.unique (h : s.Registered) {k' : Nat} (hk : s.wrappers[k]? = some w)
    (hk' : s.wrappers[k']? = some w') (htask : w'.task = w.task) (hw : w.phase ≠ .done)
    (hw' : w'.phase ≠ .done) : k' = k := by
  have hown := h.owned k w hk hw
  have hown' := h.owned k' w' hk' hw'
  rw [htask, hown] at hown'
  exact (Option.some.inj hown').symm

/-- A step that starts no wrapper and registers none. -/
structure Fades (s t : TaskScheduler) : Prop where
  limit : t.maxConcurrentTasks = s.maxConcurrentTasks
  owned : t.owned = s.owned
  wrappers : ∀ (k : Nat) (w' : Wrapper), t.wrappers[k]? = some w' → w'.phase ≠ .done →
    ∃ w : Wrapper, s.wrappers[k]? = some w ∧ w.phase ≠ .done ∧ w.task = w'.task
  running : ∀ (i : Nat) (r' : RunningTask), assocGet? i t.running = some r' →
    ∃ r : RunningTask, assocGet? i s.running = some r ∧ r.wrapper = r'.wrapper
  length : t.running.length ≤ s.running.length

theorem Registered.fades (h : s.Registered) (hf : Fades s t) : t.Registered where
  bounded := by
    rw [hf.limit]
    exact hf.length.trans h.bounded
  owned := by
    intro k w' hk hw'
    obtain ⟨w, hw, hphase, htask⟩ := hf.wrappers k w' hk hw'
    rw [hf.owned, ← htask]
    exact h.owned k w hw hphase
  current := by
    intro k w' r' hk hw' hr'
    obtain ⟨w, hw, hphase, htask⟩ := hf.wrappers k w' hk hw'
    obtain ⟨r, hr, hsame⟩ := hf.running _ r' hr'
    rw [← htask] at hr
    rw [← hsame]
    exact h.current k w r hw hphase hr

theorem Fades.refl (s : TaskScheduler) : Fades s s :=
  ⟨rfl, rfl, fun _ w' hk hw' => ⟨w', hk, hw', rfl⟩, fun _ r' hr => ⟨r', hr, rfl⟩, le_rfl⟩

theorem Fades.trans {u : TaskScheduler} (h : Fades s t) (h' : Fades t u) : Fades s u where
  limit := h'.limit.trans h.limit
  owned := h'.owned.trans h.owned
  wrappers := by
    intro k w₂ hk hw₂
    obtain ⟨w₁, hw₁, hp₁, ht₁⟩ := h'.wrappers k w₂ hk hw₂
    obtain ⟨w, hw, hp, ht⟩ := h.wrappers k w₁ hw₁ hp₁
    exact ⟨w, hw, hp, ht.trans ht₁⟩
  running := by
    intro i r₂ hr₂
    obtain ⟨r₁, hr₁, he₁⟩ := h'.running i r₂ hr₂
    obtain ⟨r, hr, he⟩ := h.running i r₁ hr₁
    exact ⟨r, hr, he.trans he₁⟩
  length := h'.length.trans h.length

theorem fades_tasks (s : TaskScheduler) (tasks : List Task) (calls : List Call) :
    Fades s { s with tasks, calls } := ⟨rfl, rfl, (Fades.refl s).wrappers, (Fades.refl s).running,
      le_rfl⟩

theorem fades_settle (s : TaskScheduler) (i : Nat) (status : TaskStatus) (final : Bool) :
    Fades s (s.settle i status final) := by
  rw [settle]
  split
  · exact fades_tasks s _ _
  · exact .refl s

theorem fades_updateStatus (s : TaskScheduler) (i : Nat) (status : TaskStatus) :
    Fades s (s.updateStatus i status) := by
  rw [updateStatus]
  split
  · exact fades_tasks s _ _
  · exact .refl s

theorem fades_setWrapper (hk : s.wrappers[k]? = some w) (hw : w.phase ≠ .done)
    (phase : WrapperPhase) (cancelling : Bool) :
    Fades s (s.setWrapper k ⟨w.task, phase, cancelling⟩) where
  limit := rfl
  owned := rfl
  wrappers := by
    intro j x hj hx
    rcases get_set_cases hj with ⟨rfl, rfl⟩ | ⟨_, hj⟩
    · exact ⟨w, hk, hw, rfl⟩
    · exact ⟨x, hj, hx, rfl⟩
  running := (Fades.refl s).running
  length := le_rfl

theorem fades_unregister (s : TaskScheduler) (i : Nat) : Fades s (s.unregister i) where
  limit := rfl
  owned := rfl
  wrappers := (Fades.refl s).wrappers
  running := by
    intro j r hr
    rw [unregister, assocGet?_assocDelete] at hr
    split at hr
    · cases hr
    · exact ⟨r, hr, rfl⟩
  length := length_assocDelete_le i s.running

theorem fades_unregisterOwn (s : TaskScheduler) (i k : Nat) : Fades s (s.unregisterOwn i k) := by
  rw [unregisterOwn]
  split
  · split
    · exact fades_unregister s i
    · exact .refl s
  · exact .refl s

@[simp] theorem unregisterOwn_wrappers (s : TaskScheduler) (i k : Nat) :
    (s.unregisterOwn i k).wrappers = s.wrappers := by
  rw [unregisterOwn]
  split
  · split <;> rfl
  · rfl

@[simp] theorem unregisterOwn_tasks (s : TaskScheduler) (i k : Nat) :
    (s.unregisterOwn i k).tasks = s.tasks := by
  rw [unregisterOwn]
  split
  · split <;> rfl
  · rfl

@[simp] theorem unregisterOwn_calls (s : TaskScheduler) (i k : Nat) :
    (s.unregisterOwn i k).calls = s.calls := by
  rw [unregisterOwn]
  split
  · split <;> rfl
  · rfl

@[simp] theorem settle_wrappers (s : TaskScheduler) (i : Nat) (status : TaskStatus)
    (final : Bool) : (s.settle i status final).wrappers = s.wrappers := by
  rw [settle]
  split <;> rfl

theorem fades_cleanup (hk : s.wrappers[k]? = some w) (hw : w.phase ≠ .done) :
    Fades s (s.cleanup k w) :=
  (fades_unregisterOwn s w.task k).trans
    (fades_setWrapper (by rw [unregisterOwn_wrappers]; exact hk) hw _ _)

theorem fades_cancelWrapper (s : TaskScheduler) (k : Nat) : Fades s (s.cancelWrapper k) := by
  rw [cancelWrapper]
  split
  · next w hk =>
    split
    · exact .refl s
    · next hw => exact fades_setWrapper hk hw _ _
  · exact .refl s

theorem fades_stop (s : TaskScheduler) (i : Nat) (kind : CallKind) (r : RunningTask) :
    Fades s (s.stop i kind r) := (fades_cancelWrapper s _).trans (fades_updateStatus _ _ _)

theorem fades_setExecutor (s : TaskScheduler) (i : Nat) : Fades s (s.setExecutor i) where
  limit := rfl
  owned := rfl
  wrappers := (Fades.refl s).wrappers
  running := by
    intro j r' hr'
    rw [setExecutor,
      assocGet?_map fun j (r : RunningTask) => if j = i then ⟨true, r.wrapper⟩ else r] at hr'
    obtain ⟨r, hr, rfl⟩ := Option.map_eq_some_iff.mp hr'
    refine ⟨r, hr, ?_⟩
    split <;> rfl
  length := (length_map _).le

theorem fades_settle_set (hk : s.wrappers[k]? = some w) (hw : w.phase ≠ .done)
    (phase : WrapperPhase) (cancelling : Bool) (i : Nat) (status : TaskStatus) (final : Bool) :
    Fades s ((s.settle i status final).setWrapper k ⟨w.task, phase, cancelling⟩) :=
  (fades_settle s i status final).trans
    (fades_setWrapper (by rw [settle_wrappers]; exact hk) hw phase cancelling)

theorem fades_begin (hk : s.wrappers[k]? = some w) (hw : w.phase ≠ .done) (found : Bool) :
    Fades s (s.begin k w found) := by
  rw [begin]
  split
  · exact (fades_setExecutor s w.task).trans
      (fades_settle_set (s := s.setExecutor w.task) hk hw _ _ w.task .working false)
  · exact fades_settle_set hk hw _ _ w.task .failed true

theorem fades_advance (hk : s.wrappers[k]? = some w) (e : WrapperEvent) :
    Fades s (s.advance k w e) := by
  have hlive : ∀ phase, w.phase = phase → phase ≠ .done → w.phase ≠ .done := by
    rintro _ rfl hphase
    exact hphase
  cases e with
  | begin found =>
    rw [advance]
    split
    · next hw => exact fades_begin hk (hlive _ hw (by decide)) found
    · exact .refl s
  | finish e =>
    rw [advance]
    split
    · next hw =>
      refine ((fades_settle s w.task e.status e.final).trans (fades_unregister _ w.task)).trans
        (fades_setWrapper ?_ (hlive _ hw (by decide)) _ _)
      rw [unregister, settle_wrappers]
      exact hk
    · exact .refl s
  | exhausted =>
    rw [advance]
    split
    · next hw => exact fades_cleanup hk (hlive _ hw (by decide))
    · exact .refl s
  | error =>
    rw [advance]
    split
    · next hw =>
      refine fades_settle_set hk ?_ _ _ w.task .failed true
      exact hw.elim (fun hw => hlive _ hw (by decide)) (fun hw => hlive _ hw (by decide))
    · exact .refl s
  | published =>
    rw [advance]
    split
    · next hw =>
      refine fades_cleanup hk ?_
      exact hw.elim (fun hw => hlive _ hw (by decide)) (fun hw => hlive _ hw (by decide))
    · exact .refl s
  | exit =>
    rw [advance]
    split
    · next hw => exact fades_setWrapper hk (hlive _ hw (by decide)) _ _
    · exact .refl s

theorem fades_deliver (hk : s.wrappers[k]? = some w) : Fades s (s.deliver k w) := by
  have hlive : ∀ phase, w.phase = phase → phase ≠ .done → w.phase ≠ .done := by
    rintro _ rfl hphase
    exact hphase
  rw [deliver]
  split
  · next hw => exact fades_setWrapper hk (hlive _ hw (by decide)) _ _
  · next hw => exact fades_setWrapper hk (hlive _ hw (by decide)) _ _
  · next hw => exact fades_cleanup hk (hlive _ hw (by decide))
  · next hw => exact fades_cleanup hk (hlive _ hw (by decide))
  · next hw => exact fades_cleanup hk (hlive _ hw (by decide))
  · exact .refl s

theorem fades_call (s : TaskScheduler) (kind : CallKind) (i : Nat) : Fades s (s.call kind i) := by
  rw [call]
  split
  · exact fades_tasks s _ _
  · split
    · exact fades_tasks s _ _
    · split
      · exact fades_tasks s _ _
      · split
        · exact fades_tasks s _ _
        · split
          · exact fades_tasks s _ _
          · exact (fades_stop s i kind _).trans (fades_tasks _ _ _)

theorem fades_reply (s : TaskScheduler) (n : Nat) (c : Call) (ok : Bool) :
    Fades s (s.reply n c ok) := by
  rw [reply]
  split
  · split
    · exact (fades_stop s _ _ _).trans (fades_tasks _ _ _)
    · exact fades_tasks s _ _
  · exact fades_tasks s _ _

theorem fades_joined (s : TaskScheduler) (n : Nat) (c : Call) (submission : Nat) (ok : Bool) :
    Fades s (s.joined n c submission ok) := by
  rw [joined]
  split
  · rw [confirm]
    split
    · split
      · exact fades_tasks s _ _
      · exact fades_tasks s _ _
    · exact fades_tasks s _ _
  · exact fades_tasks s _ _

theorem Registered.ownedLive (h : s.Registered) (hk : s.wrappers[k]? = some w)
    (hw : w.phase ≠ .done) : s.ownedLive w.task = true := by
  rw [TaskScheduler.ownedLive, h.owned k w hk hw]
  simp only [hk]
  exact decide_eq_true hw

theorem Registered.dispatch (h : s.Registered) (i : Nat) : (s.dispatch i).Registered := by
  rw [TaskScheduler.dispatch]
  split
  · exact h
  · split
    · exact h
    · next hguard =>
      rw [not_or, not_or, not_or] at hguard
      obtain ⟨_, hroom, _, hfree⟩ := hguard
      have hother : ∀ (j : Nat) (w : Wrapper), s.wrappers[j]? = some w → w.phase ≠ .done →
          w.task ≠ i := by
        rintro j w hj hw rfl
        exact hfree (h.ownedLive hj hw)
      refine ⟨?_, ?_, ?_⟩
      · have hlen := length_assocSet_le i ⟨false, s.wrappers.length⟩ s.running
        have hroom := Nat.lt_of_not_le hroom
        exact hlen.trans hroom
      · intro j w hj hw
        rcases get_append_cases hj with ⟨rfl, rfl⟩ | hj
        · exact assocGet?_assocSet_self i _ _
        · exact (assocGet?_assocSet_of_ne (hother j w hj hw) _ _).trans (h.owned j w hj hw)
      · intro j w r hj hw hr
        rcases get_append_cases hj with ⟨rfl, rfl⟩ | hj
        · have hself := assocGet?_assocSet_self i ⟨false, s.wrappers.length⟩ s.running
          rw [hself] at hr
          cases hr
          rfl
        · have hne := assocGet?_assocSet_of_ne (hother j w hj hw) ⟨false, s.wrappers.length⟩
            s.running
          rw [hne] at hr
          exact h.current j w r hj hw hr

theorem Registered.step (h : s.Registered) (op : SchedulerOp) : (s.step op).Registered := by
  cases op with
  | add => exact h.fades (fades_tasks s _ _)
  | submit i =>
    rw [TaskScheduler.step]
    split
    · exact h.fades (fades_tasks s _ _)
    · exact h
  | dispatch i => exact h.dispatch i
  | advance k e =>
    rw [TaskScheduler.step]
    split
    · next hk =>
      split
      · exact h
      · exact h.fades (fades_advance hk e)
    · exact h
  | deliver k =>
    rw [TaskScheduler.step]
    split
    · next hk =>
      split
      · exact h.fades (fades_deliver hk)
      · exact h
    · exact h
  | ignore k =>
    rw [TaskScheduler.step]
    split
    · next hk =>
      split
      · next hw => exact h.fades (fades_setWrapper hk (by rw [hw.2]; decide) _ _)
      · exact h
    · exact h
  | call kind i => exact h.fades (fades_call s kind i)
  | reply n ok =>
    rw [TaskScheduler.step]
    split
    · split
      · exact h.fades (fades_reply s n _ ok)
      · exact h
    · exact h
  | joined n ok =>
    rw [TaskScheduler.step]
    split
    · split
      · split
        · exact h.fades (fades_joined s n _ _ ok)
        · exact h
      · exact h
    · exact h

/-- Every live wrapper of the task is the given one, and writes no status any more. -/
def HeldBy (wrappers : List Wrapper) (i k : Nat) : Prop :=
  ∀ (k' : Nat) (w : Wrapper), wrappers[k']? = some w → w.task = i → w.phase ≠ .done →
    k' = k ∧ w.Quiet

def Over (wrappers : List Wrapper) (i : Nat) : Prop :=
  ∀ (k : Nat) (w : Wrapper), wrappers[k]? = some w → w.task = i → w.phase = .done

structure Honest (wrappers : List Wrapper) (i : Nat) (t : Task) : Prop where
  settled : t.settled = true → t.status = .completed ∨ t.status = .failed
  fresh : ∀ (k : Nat) (w : Wrapper), wrappers[k]? = some w → w.task = i →
    w.phase = .created ∨ w.phase = .working → t.settled = false
  canceled : t.canceled = true → t.status = .canceled ∧ Over wrappers i

/-- A call that awaits a wrapper, and has cancelled the task, holds it. -/
def Joins (s : TaskScheduler) (c : Call) (k submission : Nat) : Prop :=
  ∃ t, s.tasks[c.task]? = some t ∧ submission ≤ t.submissions ∧
    (c.kind = .cancel → t.submissions = submission →
      t.status = .canceled ∧ HeldBy s.wrappers c.task k)

structure Truthful (s : TaskScheduler) : Prop where
  tasks : ∀ (i : Nat) (t : Task), s.tasks[i]? = some t → Honest s.wrappers i t
  joining : ∀ (n : Nat) (c : Call) (k submission : Nat), s.calls[n]? = some c →
    c.phase = .joining k submission → s.Joins c k submission

theorem truthful_init (limit : Nat) : (init limit).Truthful where
  tasks := fun i t h => by cases h
  joining := fun n c k submission h => by cases h

variable {wrappers : List Wrapper}

theorem Honest.subset {wrappers' : List Wrapper} {t : Task} (h : Honest wrappers i t)
    (hsub : ∀ (k : Nat) (w : Wrapper), wrappers'[k]? = some w → w.task = i →
      wrappers[k]? = some w) : Honest wrappers' i t where
  settled := h.settled
  fresh := fun k w hk hi => h.fresh k w (hsub k w hk hi) hi
  canceled := fun hc =>
    ⟨(h.canceled hc).1, fun k w hk hi => (h.canceled hc).2 k w (hsub k w hk hi) hi⟩

theorem HeldBy.subset {wrappers' : List Wrapper} (h : HeldBy wrappers i k)
    (hsub : ∀ (k : Nat) (w : Wrapper), wrappers'[k]? = some w → w.task = i →
      wrappers[k]? = some w) : HeldBy wrappers' i k :=
  fun k' w hk hi => h k' w (hsub k' w hk hi) hi

theorem get_set_other (hi : w'.task ≠ i) (j : Nat) (x : Wrapper)
    (hj : (wrappers.set k w')[j]? = some x) (hx : x.task = i) : wrappers[j]? = some x := by
  rcases get_set_cases hj with ⟨_, rfl⟩ | ⟨_, hj⟩
  · exact absurd hx hi
  · exact hj

structure Calm (w w' : Wrapper) : Prop where
  task : w'.task = w.task
  live : w.phase ≠ .done
  fresh : w'.phase = .created ∨ w'.phase = .working → w.phase = w'.phase
  quiet : w.Quiet → w'.phase ≠ .done → w'.Quiet

theorem Honest.calm {u : Task} (h : Honest wrappers i u)
    (hk : wrappers[k]? = some w) (hc : Calm w w') : Honest (wrappers.set k w') i u where
  settled := h.settled
  fresh := by
    intro j x hj hx hphase
    rcases get_set_cases hj with ⟨rfl, rfl⟩ | ⟨_, hj⟩
    · refine h.fresh j w hk (hc.task ▸ hx) ?_
      rwa [hc.fresh hphase]
    · exact h.fresh j x hj hx hphase
  canceled := by
    intro hcan
    refine ⟨(h.canceled hcan).1, fun j x hj hx => ?_⟩
    rcases get_set_cases hj with ⟨rfl, rfl⟩ | ⟨_, hj⟩
    · exact absurd ((h.canceled hcan).2 j w hk (hc.task ▸ hx)) hc.live
    · exact (h.canceled hcan).2 j x hj hx

theorem HeldBy.calm {k' : Nat} (h : HeldBy wrappers i k')
    (hk : wrappers[k]? = some w) (hc : Calm w w') : HeldBy (wrappers.set k w') i k' := by
  intro j x hj hx hlive
  rcases get_set_cases hj with ⟨rfl, rfl⟩ | ⟨_, hj⟩
  · obtain ⟨heq, hquiet⟩ := h j w hk (hc.task ▸ hx) hc.live
    exact ⟨heq, hc.quiet hquiet hlive⟩
  · exact h j x hj hx hlive

theorem Truthful.calm (h : s.Truthful) (hk : s.wrappers[k]? = some w) (hc : Calm w w') :
    (s.setWrapper k w').Truthful where
  tasks := fun i u hi => (h.tasks i u hi).calm hk hc
  joining := by
    intro n c k' submission hn hphase
    obtain ⟨u, hu, hle, hheld⟩ := h.joining n c k' submission hn hphase
    exact ⟨u, hu, hle, fun hkind hsub =>
      ⟨(hheld hkind hsub).1, (hheld hkind hsub).2.calm hk hc⟩⟩

theorem Truthful.running (h : s.Truthful) (htasks : t.tasks = s.tasks)
    (hwrappers : t.wrappers = s.wrappers) (hcalls : t.calls = s.calls) : t.Truthful where
  tasks := by
    rw [htasks, hwrappers]
    exact h.tasks
  joining := by
    intro n c k submission hn hphase
    rw [hcalls] at hn
    rw [Joins, htasks, hwrappers]
    exact h.joining n c k submission hn hphase

theorem Truthful.cleanup (h : s.Truthful) (hk : s.wrappers[k]? = some w) (hw : w.phase ≠ .done) :
    (s.cleanup k w).Truthful := by
  refine (h.running (unregisterOwn_tasks s w.task k) (unregisterOwn_wrappers s w.task k)
    (unregisterOwn_calls s w.task k)).calm (by rw [unregisterOwn_wrappers]; exact hk) ?_
  refine ⟨rfl, hw, fun hphase => ?_, fun _ _ => .inr rfl⟩
  rcases hphase with hphase | hphase <;> cases hphase

theorem setTask_cases {u v : Task} {j : Nat} (h : (s.setTask i u).tasks[j]? = some v) :
    (j = i ∧ v = u) ∨ (j ≠ i ∧ s.tasks[j]? = some v) := get_set_cases h

theorem Truthful.settle (h : s.Truthful) (hr : s.Registered) (hk : s.wrappers[k]? = some w)
    (hw : w.phase ≠ .done) (hquiet : ¬ w.Quiet) {status : TaskStatus} {final : Bool}
    (htask : w'.task = w.task)
    (hfinal : final = true → status = .completed ∨ status = .failed)
    (hkeep : final = false → w.phase = .created ∨ w.phase = .working)
    (hphase : w'.phase = .created ∨ w'.phase = .working → final = false) :
    ((s.settle w.task status final).setWrapper k w').Truthful := by
  have hother : ∀ i, i ≠ w.task → w'.task ≠ i := by
    rintro i hi rfl
    exact hi htask
  have hjoins : ∀ c k' submission, s.Joins c k' submission → c.task = w.task →
      ∀ u, s.tasks[c.task]? = some u → c.kind = .cancel → u.submissions = submission → False := by
    rintro c k' submission ⟨u', hu', _, hheld⟩ hc u hu hkind hsub
    rw [hu] at hu'
    cases hu'
    exact hquiet ((hheld hkind hsub).2 k w hk hc.symm hw).2
  rw [TaskScheduler.settle]
  split
  · next u hu =>
    refine ⟨?_, ?_⟩
    · intro i v hi
      rcases setTask_cases hi with ⟨rfl, rfl⟩ | ⟨hne, hi⟩
      · have hu' := h.tasks w.task u hu
        refine ⟨?_, ?_, ?_⟩
        · intro hset
          cases final with
          | true => exact hfinal rfl
          | false =>
            have hfresh := hu'.fresh k w hk rfl (hkeep rfl)
            rw [Bool.or_false] at hset
            rw [hfresh] at hset
            cases hset
        · intro j x hj hx hx'
          rcases get_set_cases hj with ⟨rfl, rfl⟩ | ⟨hne, hj⟩
          · have hfalse := hphase hx'
            rw [hfalse, Bool.or_false]
            exact hu'.fresh j w hk rfl (hkeep hfalse)
          · have hlive : x.phase ≠ .done := by
              rcases hx' with hx' | hx' <;> rw [hx'] <;> decide
            exact absurd (hr.unique hk hj hx hw hlive) hne
        · intro hcan
          exact absurd ((hu'.canceled hcan).2 k w hk rfl) hw
      · exact (h.tasks i v hi).subset (get_set_other (hother i hne))
    · intro n c k' submission hn hc
      have hold := h.joining n c k' submission hn hc
      obtain ⟨v, hv, hle, hheld⟩ := hold
      by_cases hct : c.task = w.task
      · refine ⟨{ u with status, settled := u.settled || final }, ?_, ?_, ?_⟩
        · rw [hct]
          exact List.getElem?_set_self (List.getElem?_eq_some_iff.mp hu).1
        · rw [hct, hu] at hv
          cases hv
          exact hle
        · intro hkind hsub
          exact (hjoins c k' submission ⟨v, hv, hle, hheld⟩ hct u (hct ▸ hu) hkind hsub).elim
      · refine ⟨v, (getElem?_set_ne (Ne.symm hct)).trans hv, hle, fun hkind hsub => ?_⟩
        exact ⟨(hheld hkind hsub).1, (hheld hkind hsub).2.subset (get_set_other (hother _ hct))⟩
  · next hnone =>
    refine ⟨?_, ?_⟩
    · intro i v hi
      have hne : i ≠ w.task := by
        rintro rfl
        have hi : s.tasks[w.task]? = some v := hi
        rw [hnone] at hi
        cases hi
      exact (h.tasks i v hi).subset (get_set_other (hother i hne))
    · intro n c k' submission hn hc
      obtain ⟨v, hv, hle, hheld⟩ := h.joining n c k' submission hn hc
      have hne : c.task ≠ w.task := by
        intro heq
        rw [heq, hnone] at hv
        cases hv
      exact ⟨v, hv, hle, fun hkind hsub =>
        ⟨(hheld hkind hsub).1, (hheld hkind hsub).2.subset (get_set_other (hother _ hne))⟩⟩

theorem Truthful.advance (h : s.Truthful) (hr : s.Registered) (hk : s.wrappers[k]? = some w)
    (hcancelling : w.cancelling = false) (e : WrapperEvent) : (s.advance k w e).Truthful := by
  have hloud : w.phase ≠ .signalling → ¬ w.Quiet := by
    rintro hphase (hcan | hsig)
    · rw [hcancelling] at hcan
      cases hcan
    · exact hphase hsig
  cases e with
  | begin found =>
    rw [TaskScheduler.advance]
    split
    · next hw =>
      have hlive : w.phase ≠ .done := by rw [hw]; decide
      have hquiet := hloud (by rw [hw]; decide)
      rw [TaskScheduler.begin]
      split
      · exact Truthful.settle (s := s.setExecutor w.task) (h.running rfl rfl rfl)
          (hr.fades (fades_setExecutor s w.task)) hk hlive hquiet rfl (fun hf => by cases hf)
          (fun _ => .inl hw) (fun _ => rfl)
      · refine Truthful.settle h hr hk hlive hquiet rfl (fun _ ↦ .inr rfl) (fun hf ↦ by cases hf) ?_
        intro hphase
        rcases hphase with hphase | hphase <;> cases hphase
    · exact h
  | finish e =>
    rw [TaskScheduler.advance]
    split
    · next hw =>
      have hlive : w.phase ≠ .done := by rw [hw]; decide
      have hquiet := hloud (by rw [hw]; decide)
      refine Truthful.running (s := (s.settle w.task e.status e.final).setWrapper k
        ⟨w.task, .publishing, w.cancelling⟩) ?_ rfl rfl rfl
      refine Truthful.settle h hr hk hlive hquiet rfl ?_ (fun _ => .inr hw) ?_
      · intro hf
        cases e with
        | completion => exact .inl rfl
        | interaction => cases hf
        | failure => exact .inr rfl
      · intro hphase
        rcases hphase with hphase | hphase <;> cases hphase
    · exact h
  | exhausted =>
    rw [TaskScheduler.advance]
    split
    · next hw => exact h.cleanup hk (by rw [hw]; decide)
    · exact h
  | error =>
    rw [TaskScheduler.advance]
    split
    · next hw =>
      refine Truthful.settle h hr hk ?_ (hloud ?_) rfl (fun _ ↦ .inr rfl) (fun hf ↦ by cases hf) ?_
      · rcases hw with hw | hw <;> rw [hw] <;> decide
      · rcases hw with hw | hw <;> rw [hw] <;> decide
      · intro hphase
        rcases hphase with hphase | hphase <;> cases hphase
    · exact h
  | published =>
    rw [TaskScheduler.advance]
    split
    · next hw =>
      refine h.cleanup hk ?_
      rcases hw with hw | hw <;> rw [hw] <;> decide
    · exact h
  | exit =>
    rw [TaskScheduler.advance]
    split
    · next hw =>
      refine h.calm hk ⟨rfl, by rw [hw]; decide, fun hphase => ?_, fun _ hne => absurd rfl hne⟩
      rcases hphase with hphase | hphase <;> cases hphase
    · exact h

theorem Truthful.ends (h : s.Truthful) (hk : s.wrappers[k]? = some w) (hw : w.phase ≠ .done) :
    (s.setWrapper k { w with phase := .done }).Truthful := by
  refine h.calm hk ⟨rfl, hw, fun hphase => ?_, fun _ hne => absurd rfl hne⟩
  rcases hphase with hphase | hphase <;> cases hphase

theorem Truthful.deliver (h : s.Truthful) (hk : s.wrappers[k]? = some w) :
    (s.deliver k w).Truthful := by
  rw [TaskScheduler.deliver]
  split
  · next hw => exact h.ends hk (by rw [hw]; decide)
  · next hw => exact h.ends hk (by rw [hw]; decide)
  · next hw => exact h.cleanup hk (by rw [hw]; decide)
  · next hw => exact h.cleanup hk (by rw [hw]; decide)
  · next hw => exact h.cleanup hk (by rw [hw]; decide)
  · exact h

theorem Truthful.dispatch (h : s.Truthful) (i : Nat) : (s.dispatch i).Truthful := by
  rw [TaskScheduler.dispatch]
  split
  · exact h
  · next u hu =>
    split
    · exact h
    · next hguard =>
      rw [not_or, not_not] at hguard
      have hsub := hguard.1
      refine ⟨fun j v hj => ?_, fun n c k submission hn hphase => ?_⟩
      · have hv := h.tasks j v hj
        refine ⟨hv.settled, ?_, ?_⟩
        · intro k w hk hw hphase
          rcases get_append_cases hk with ⟨rfl, rfl⟩ | hk
          · have hij : i = j := hw
            subst hij
            have hj : s.tasks[i]? = some v := hj
            rw [hu] at hj
            cases hj
            by_contra hset
            rcases hv.settled (by simpa using hset) with hst | hst <;> rw [hsub] at hst <;>
              cases hst
          · exact hv.fresh k w hk hw hphase
        · intro hcan
          refine ⟨(hv.canceled hcan).1, fun k w hk hw => ?_⟩
          rcases get_append_cases hk with ⟨rfl, rfl⟩ | hk
          · have hij : i = j := hw
            subst hij
            have hj : s.tasks[i]? = some v := hj
            rw [hu] at hj
            cases hj
            have hst := (hv.canceled hcan).1
            rw [hsub] at hst
            cases hst
          · exact (hv.canceled hcan).2 k w hk hw
      · obtain ⟨v, hv, hle, hheld⟩ := h.joining n c k submission hn hphase
        refine ⟨v, hv, hle, fun hkind hsame => ⟨(hheld hkind hsame).1, fun k' w hk hw hlive => ?_⟩⟩
        rcases get_append_cases hk with ⟨rfl, rfl⟩ | hk
        · have hij : i = c.task := hw
          rw [← hij, hu] at hv
          cases hv
          have hst := (hheld hkind hsame).1
          rw [hsub] at hst
          cases hst
        · exact (hheld hkind hsame).2 k' w hk hw hlive

theorem Truthful.setCalls (h : s.Truthful) {calls : List Call}
    (hcalls : ∀ (n : Nat) (c : Call) (k submission : Nat), calls[n]? = some c →
      c.phase = .joining k submission → s.calls[n]? = some c ∨ s.Joins c k submission) :
    Truthful { s with calls } where
  tasks := h.tasks
  joining := by
    intro n c k submission hn hphase
    rcases hcalls n c k submission hn hphase with hold | hnew
    · exact h.joining n c k submission hold hphase
    · exact hnew

theorem Truthful.addCall (h : s.Truthful) {c : Call}
    (hc : ∀ k submission, c.phase = .joining k submission → s.Joins c k submission) :
    (s.addCall c).Truthful := by
  refine h.setCalls fun n x k submission hn hphase => ?_
  rcases get_append_cases hn with ⟨_, rfl⟩ | hn
  · exact .inr (hc k submission hphase)
  · exact .inl hn

theorem Truthful.setCall (h : s.Truthful) {c : Call}
    (hc : ∀ k submission, c.phase = .joining k submission → s.Joins c k submission) :
    (s.setCall n c).Truthful := by
  refine h.setCalls fun m x k submission hn hphase => ?_
  rcases get_set_cases hn with ⟨_, rfl⟩ | ⟨_, hn⟩
  · exact .inr (hc k submission hphase)
  · exact .inl hn

theorem Truthful.setTask (h : s.Truthful) {u v : Task} (hu : s.tasks[i]? = some u)
    (hv : Honest s.wrappers i v) (hle : u.submissions ≤ v.submissions)
    (hheld : u.status = .canceled → v.submissions = u.submissions → v.status = .canceled)
    (hsame : u.submissions = v.submissions ∨ u.submissions < v.submissions) :
    (s.setTask i v).Truthful where
  tasks := by
    intro j x hj
    rcases setTask_cases hj with ⟨rfl, rfl⟩ | ⟨_, hj⟩
    · exact hv
    · exact h.tasks j x hj
  joining := by
    intro n c k submission hn hphase
    obtain ⟨x, hx, hsub, hcan⟩ := h.joining n c k submission hn hphase
    by_cases hc : c.task = i
    · subst hc
      rw [hu] at hx
      cases hx
      refine ⟨v, List.getElem?_set_self (List.getElem?_eq_some_iff.mp hu).1, hsub.trans hle, ?_⟩
      intro hkind heq
      have hsubs : u.submissions = submission := by omega
      exact ⟨hheld (hcan hkind hsubs).1 (by omega), (hcan hkind hsubs).2⟩
    · exact ⟨x, (getElem?_set_ne (Ne.symm hc)).trans hx, hsub, hcan⟩

def Writable : CallKind → TaskStatus → Prop
  | .pause, status => status ≠ .completed ∧ status ≠ .failed ∧ status ≠ .canceled
  | .cancel, status => status ≠ .completed ∧ status ≠ .failed

variable {kind : CallKind}

theorem Writable.not_final {status : TaskStatus} (h : Writable kind status) :
    ¬ (status = .completed ∨ status = .failed) := by
  rintro (hst | hst)
  · cases kind
    · exact h.1 hst
    · exact h.1 hst
  · cases kind
    · exact h.2.1 hst
    · exact h.2 hst

theorem Writable.canceled {status : TaskStatus} (h : Writable kind status)
    (hst : status = .canceled) : kind.status = .canceled := by
  cases kind with
  | pause => exact absurd hst h.2.2
  | cancel => rfl

theorem Truthful.updateStatus (h : s.Truthful) {u : Task} (hu : s.tasks[i]? = some u)
    (hwrite : Writable kind u.status) : (s.updateStatus i kind.status).Truthful := by
  have hold := h.tasks i u hu
  rw [TaskScheduler.updateStatus, hu]
  refine h.setTask hu ⟨fun hset => ?_, hold.fresh, fun hcan => ?_⟩ le_rfl ?_ (.inl rfl)
  · exact absurd (hold.settled hset) hwrite.not_final
  · exact ⟨hwrite.canceled (hold.canceled hcan).1, (hold.canceled hcan).2⟩
  · exact fun hcan _ => hwrite.canceled hcan

theorem Truthful.cancelWrapper (h : s.Truthful) (k : Nat) : (s.cancelWrapper k).Truthful := by
  rw [TaskScheduler.cancelWrapper]
  split
  · next w hk =>
    split
    · exact h
    · next hw => exact h.calm hk ⟨rfl, hw, fun _ => rfl, fun _ _ => .inl rfl⟩
  · exact h

@[simp] theorem cancelWrapper_tasks (s : TaskScheduler) (k : Nat) :
    (s.cancelWrapper k).tasks = s.tasks := by
  rw [TaskScheduler.cancelWrapper]
  split
  · split <;> rfl
  · rfl

theorem Registered.heldBy (h : s.Registered) {r : RunningTask}
    (hr : assocGet? i s.running = some r) :
    HeldBy (s.cancelWrapper r.wrapper).wrappers i r.wrapper := by
  have hcurrent : ∀ (j : Nat) (x : Wrapper), s.wrappers[j]? = some x → x.task = i →
      x.phase ≠ .done → r.wrapper = j := by
    rintro j x hj rfl hlive
    exact h.current j x r hj hlive hr
  intro j x hj hx hlive
  rw [cancelWrapper] at hj
  split at hj
  · next w hk =>
    split at hj
    · next hw =>
      have heq := hcurrent j x hj hx hlive
      rw [heq, hj] at hk
      cases hk
      exact absurd hw hlive
    · next hw =>
      rcases get_set_cases hj with ⟨rfl, rfl⟩ | ⟨hne, hj⟩
      · exact ⟨rfl, .inl rfl⟩
      · exact absurd (hcurrent j x hj hx hlive).symm hne
  · next hk =>
    have heq := hcurrent j x hj hx hlive
    rw [heq, hj] at hk
    cases hk

@[simp] theorem updateStatus_wrappers (s : TaskScheduler) (i : Nat) (status : TaskStatus) :
    (s.updateStatus i status).wrappers = s.wrappers := by
  rw [updateStatus]
  split <;> rfl

theorem Truthful.stop (h : s.Truthful) (hr : s.Registered) {u : Task} {r : RunningTask}
    {c : Call} (hu : s.tasks[c.task]? = some u) (hrun : assocGet? c.task s.running = some r)
    (hwrite : Writable c.kind u.status) :
    (s.stop c.task c.kind r).Truthful ∧
      ∀ phase, (s.stop c.task c.kind r).Joins { c with phase } r.wrapper u.submissions := by
  have hu' : (s.cancelWrapper r.wrapper).tasks[c.task]? = some u := by
    rw [cancelWrapper_tasks]
    exact hu
  refine ⟨(h.cancelWrapper r.wrapper).updateStatus hu' hwrite, fun phase => ?_⟩
  refine ⟨{ u with status := c.kind.status }, ?_, le_rfl, fun hkind _ => ⟨?_, ?_⟩⟩
  · rw [TaskScheduler.stop, TaskScheduler.updateStatus, hu']
    exact List.getElem?_set_self (List.getElem?_eq_some_iff.mp hu').1
  · have hkind : c.kind = .cancel := hkind
    rw [hkind]
    rfl
  · rw [TaskScheduler.stop, updateStatus_wrappers]
    exact hr.heldBy hrun

/-- Where the code keeps its statuses true: a submitted task is cancelled when no wrapper of it is
live; a call does not write over what an execution has set, nor PAUSED over CANCELED; and no
executor goes on after a cancellation. -/
def Careful (s : TaskScheduler) : SchedulerOp → Prop
  | .call kind i => ∀ u, s.tasks[i]? = some u →
      (kind = .cancel → u.status = .submitted → Over s.wrappers i) ∧
      (kind = .pause → ∀ r, assocGet? i s.running = some r → r.executor = false →
        Writable kind u.status)
  | .reply n true => ∀ c u r, s.calls[n]? = some c → c.phase = .asking →
      s.tasks[c.task]? = some u → assocGet? c.task s.running = some r → Writable c.kind u.status
  | .ignore k => ∀ w, s.wrappers[k]? = some w → ¬ (w.cancelling = true ∧ w.phase = .working)
  | _ => True

theorem Truthful.call (h : s.Truthful) (hr : s.Registered)
    (hc : s.Careful (.call kind i)) : (s.call kind i).Truthful := by
  rw [TaskScheduler.call]
  split
  · exact h.addCall fun k submission hphase => by cases hphase
  · next u hu =>
    have hold := h.tasks i u hu
    split
    · next hguard =>
      have hover := (hc u hu).1 hguard.1 hguard.2
      have hset : (s.setTask i { u with status := .canceled, canceled := true }).Truthful := by
        refine h.setTask hu ⟨fun hset => ?_, hold.fresh, fun _ => ⟨rfl, hover⟩⟩ le_rfl
          (fun _ _ => rfl) (.inl rfl)
        rcases hold.settled hset with hst | hst <;> rw [hguard.2] at hst <;> cases hst
      exact hset.addCall fun k submission hphase => by cases hphase
    · split
      · exact h.addCall fun k submission hphase => by cases hphase
      · next hguard =>
        split
        · exact h.addCall fun k submission hphase => by cases hphase
        · next r hrun =>
          split
          · exact h.addCall fun k submission hphase => by cases hphase
          · next hexec =>
            have hwrite : Writable kind u.status := by
              cases kind with
              | pause => exact (hc u hu).2 rfl r hrun (by simpa using hexec)
              | cancel => exact ⟨fun hst => hguard ⟨rfl, .inr (.inl hst)⟩,
                  fun hst => hguard ⟨rfl, .inr (.inr hst)⟩⟩
            obtain ⟨htrue, hjoins⟩ := Truthful.stop (c := ⟨kind, i, .asking⟩) h hr hu hrun hwrite
            refine Truthful.addCall htrue fun k submission hphase => ?_
            cases hphase
            exact hjoins _

theorem Truthful.reply (h : s.Truthful) (hr : s.Registered) {c : Call} {ok : Bool}
    (hn : s.calls[n]? = some c) (hasking : c.phase = .asking) (hc : s.Careful (.reply n ok)) :
    (s.reply n c ok).Truthful := by
  rw [TaskScheduler.reply]
  split
  · next u r hu hrun =>
    split
    · next hok =>
      subst hok
      obtain ⟨htrue, hjoins⟩ := h.stop hr hu hrun (hc c u r hn hasking hu hrun)
      refine htrue.setCall fun k submission hphase => ?_
      cases hphase
      exact hjoins _
    · exact h.setCall fun k submission hphase => by cases hphase
  · exact h.setCall fun k submission hphase => by cases hphase

theorem Truthful.joined (h : s.Truthful) {c : Call} {submission : Nat} {ok : Bool}
    (hn : s.calls[n]? = some c) (hjoining : c.phase = .joining k submission)
    (hended : s.ended k = true) : (s.joined n c submission ok).Truthful := by
  have hconfirm : c.kind = .cancel → (s.confirm c.task submission).Truthful := by
    intro hkind
    rw [confirm]
    split
    · next u hu =>
      split
      · next hsub =>
        have hold := h.tasks c.task u hu
        obtain ⟨v, hv, _, hheld⟩ := h.joining n c k submission hn hjoining
        rw [hu] at hv
        cases hv
        obtain ⟨hst, hby⟩ := hheld hkind hsub
        refine h.setTask hu ⟨hold.settled, hold.fresh, fun _ => ⟨hst, fun j x hj hx => ?_⟩⟩ le_rfl
          (fun hcan _ => hcan) (.inl rfl)
        by_contra hlive
        obtain ⟨rfl, _⟩ := hby j x hj hx hlive
        rw [ended, hj] at hended
        exact hlive (of_decide_eq_true hended)
      · exact h
    · exact h
  rw [TaskScheduler.joined]
  refine Truthful.setCall ?_ fun j submission hphase => by cases hphase
  split
  · next hguard => exact hconfirm hguard.2
  · exact h

theorem honest_submitted (wrappers : List Wrapper) (i submissions : Nat) :
    Honest wrappers i ⟨.submitted, submissions, false, false⟩ where
  settled := fun hset => by cases hset
  fresh := fun _ _ _ _ _ => rfl
  canceled := fun hcan => by cases hcan

theorem Truthful.add (h : s.Truthful) : (s.step .add).Truthful where
  tasks := by
    intro i u hi
    rcases get_append_cases hi with ⟨rfl, rfl⟩ | hi
    · exact honest_submitted _ _ _
    · exact h.tasks i u hi
  joining := by
    intro n c k submission hn hphase
    obtain ⟨u, hu, hrest⟩ := h.joining n c k submission hn hphase
    refine ⟨u, ?_, hrest⟩
    exact (List.getElem?_append_left (List.getElem?_eq_some_iff.mp hu).1).trans hu

theorem Truthful.step (h : s.Truthful) (hr : s.Registered) {op : SchedulerOp}
    (hc : s.Careful op) : (s.step op).Truthful := by
  cases op with
  | add => exact h.add
  | submit i =>
    rw [TaskScheduler.step]
    split
    · next u hu =>
      exact h.setTask hu (honest_submitted _ _ _) (Nat.le_succ _)
        (fun _ heq => absurd heq (Nat.succ_ne_self _)) (.inr (Nat.lt_succ_self _))
    · exact h
  | dispatch i => exact h.dispatch i
  | advance k e =>
    rw [TaskScheduler.step]
    split
    · next w hk =>
      split
      · exact h
      · next hcan => exact h.advance hr hk (by simpa using hcan) e
    · exact h
  | deliver k =>
    rw [TaskScheduler.step]
    split
    · next w hk =>
      split
      · exact h.deliver hk
      · exact h
    · exact h
  | ignore k =>
    rw [TaskScheduler.step]
    split
    · next w hk =>
      split
      · next hguard => exact absurd hguard (hc w hk)
      · exact h
    · exact h
  | call kind i => exact h.call hr hc
  | reply n ok =>
    rw [TaskScheduler.step]
    split
    · next c hn =>
      split
      · next hasking => exact h.reply hr hn hasking hc
      · exact h
    · exact h
  | joined n ok =>
    rw [TaskScheduler.step]
    split
    · next c hn =>
      split
      · next k submission hjoining =>
        split
        · next hended => exact h.joined hn hjoining hended
        · exact h
      · exact h
    · exact h

def Bounded (s : TaskScheduler) : Prop :=
  s.running.length ≤ s.maxConcurrentTasks ∧
    ∀ (k k' : Nat) (w w' : Wrapper), s.wrappers[k]? = some w → s.wrappers[k']? = some w' →
      w'.task = w.task → w.phase ≠ .done → w'.phase ≠ .done → k' = k

/-- A task whose cancellation was confirmed is CANCELED, and nothing runs for it. -/
def CancelHolds (s : TaskScheduler) : Prop :=
  ∀ (i : Nat) (t : Task), s.tasks[i]? = some t → t.canceled = true →
    t.status = .canceled ∧ Over s.wrappers i

/-- What an execution has settled stays COMPLETED or FAILED. -/
def Settled (s : TaskScheduler) : Prop :=
  ∀ (i : Nat) (t : Task), s.tasks[i]? = some t → t.settled = true →
    t.status = .completed ∨ t.status = .failed

def plainRun : List SchedulerOp :=
  [.add, .dispatch 0, .advance 0 (.begin true), .call .cancel 0, .reply 0 true, .deliver 0,
    .advance 0 .exit, .joined 0 true]

/-- A task is cancelled between its dispatch and the start of its wrapper. -/
def lateStart : List SchedulerOp :=
  [.add, .dispatch 0, .call .cancel 0, .advance 0 (.begin true)]

end TaskScheduler

end JiuwenSpec.Controller

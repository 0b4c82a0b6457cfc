import JiuwenSpec.Pregel.Supersteps

/-!
# The task pool of a superstep

`wait_all` records the tasks that are done, cancels the others and records each of those as
failed, whatever became of it in the meantime. A task that was itself cancelled makes
`t.exception()` raise `CancelledError` in the middle of the recording; the superstep then
calls `cancel_all`, as it does when it is cancelled from outside while it waits. The accounts
are complete exactly when none of this loses a node.
Source: `core/graph/pregel/task.py`, `core/graph/pregel/engine.py`.
-/

namespace JiuwenSpec.Graph

open List

/-- How a task ended in the end: with a result, an interrupt or an exception, or cancelled. -/
inductive TaskEnd where
  | result (r : TaskResult)
  | cancelled
  deriving DecidableEq

def TaskEnd.messages? : TaskEnd → Option (List Message)
  | .result (.messages ms) => some ms
  | _ => none

/-- The tasks of a superstep, each with the way it ended, by what happens to the waiting. -/
inductive Waiting where
  /-- Waiting ends by itself: the tasks that are done, in the order in which they are handled,
  and those still pending, which are cancelled and drained. -/
  | ends (done pending : List (String × TaskEnd))
  | cancelledWaiting (finished running : List (String × TaskEnd))
  | cancelledDraining (done pending : List (String × TaskEnd))

namespace Waiting

def tasks : Waiting → List (String × TaskEnd)
  | .ends done pending => done ++ pending
  | .cancelledWaiting finished running => finished ++ running
  | .cancelledDraining done pending => done ++ pending

end Waiting

namespace Executor

/-- The loop over the tasks that are done; `none` when it ran through, or the tasks it did not
reach because `t.exception()` raised `CancelledError`. -/
def collectDone : Executor → List (String × TaskEnd) →
    Executor × Option (List (String × TaskEnd))
  | ex, [] => (ex, none)
  | ex, (_, .cancelled) :: unread => (ex, some unread)
  | ex, (name, .result r) :: rest => (ex.collect (name, r)).collectDone rest

/-- Record every cancelled task as failed; how it ended is only logged. -/
def cancelRunning (ex : Executor) (running : List (String × TaskEnd)) : Executor :=
  running.foldl (fun ex t => ex.commitFailure .error t.1) ex

end Executor

namespace Waiting

/-- The pool after `wait_all`, and after `cancel_all` where `CancelledError` left it. Tasks that
are done when `cancel_all` runs are dropped from the pool. -/
def settle : Waiting → Executor
  | .ends done pending =>
    match ({} : Executor).collectDone done with
    | (ex, none) => ex.cancelRunning pending
    | (ex, some _) => ex.cancelRunning pending
  | .cancelledWaiting _ running => ({} : Executor).cancelRunning running
  | .cancelledDraining done pending =>
    match ({} : Executor).collectDone done with
    | (ex, none) => ex
    | (ex, some _) => ex.cancelRunning pending

/-- Every task is accounted for once: it is failed exactly when it did not run to success, and
the messages kept are those of the tasks that did. -/
structure Accounted (tasks : List (String × TaskEnd)) (ex : Executor) : Prop where
  submitted : ∀ name ∈ ex.failed.map (·.nodeName), name ∈ tasks.map Prod.fst
  failed_iff : ∀ t ∈ tasks, t.1 ∈ ex.failed.map (·.nodeName) ↔ t.2.messages? = none
  messages : ex.succeedMessages.Perm (tasks.flatMap fun t => t.2.messages?.getD [])

/-- No task that is done was cancelled, none that is cancelled runs to success, and a task
dropped from the pool succeeded without a message. -/
def LosesNothing : Waiting → Prop
  | .ends done pending =>
    (∀ t ∈ done, t.2 ≠ .cancelled) ∧ ∀ t ∈ pending, t.2.messages? = none
  | .cancelledWaiting finished running =>
    (∀ t ∈ finished, t.2.messages? = some []) ∧ ∀ t ∈ running, t.2.messages? = none
  | .cancelledDraining done pending =>
    (∀ t ∈ done, t.2 ≠ .cancelled) ∧ ∀ t ∈ pending, t.2.messages? = some []

private theorem cancelRunning_eq (ex : Executor) (running : List (String × TaskEnd)) :
    ex.cancelRunning running = (running.map Prod.fst).foldl (·.commitFailure .error) ex := by
  rw [Executor.cancelRunning, foldl_map]

theorem cancelRunning_spec {ex : Executor} {running : List (String × TaskEnd)}
    (h : (ex.failed.map (·.nodeName) ++ running.map Prod.fst).Nodup) :
    (ex.cancelRunning running).failed.map (·.nodeName) =
        ex.failed.map (·.nodeName) ++ running.map Prod.fst ∧
      (ex.cancelRunning running).succeedMessages = ex.succeedMessages := by
  rw [cancelRunning_eq]
  exact ⟨Round.cancel_failed h, Round.cancel_succeedMessages _ _⟩

/-- The names of the tasks that did not run to success. -/
def unsuccessful (tasks : List (String × TaskEnd)) : List String :=
  (tasks.filter fun t => t.2.messages? = none).map Prod.fst

theorem collectDone_spec {done : List (String × TaskEnd)} (hdone : ∀ t ∈ done, t.2 ≠ .cancelled)
    {ex : Executor} (h : (ex.failed.map (·.nodeName) ++ done.map Prod.fst).Nodup)
    (rest : List (String × TaskEnd)) :
    ∃ ex' : Executor, ex.collectDone (done ++ rest) = ex'.collectDone rest ∧
      ex'.failed.map (·.nodeName) = ex.failed.map (·.nodeName) ++ unsuccessful done ∧
      ex'.succeedMessages =
        ex.succeedMessages ++ done.flatMap fun t => t.2.messages?.getD [] := by
  induction done generalizing ex with
  | nil => exact ⟨ex, rfl, by simp [unsuccessful], by simp⟩
  | cons t done ih =>
    obtain ⟨name, ended⟩ := t
    have htail : ∀ t ∈ done, t.2 ≠ .cancelled := fun t ht => hdone t (.tail _ ht)
    have hnew : name ∉ ex.failed.map (·.nodeName) := fun hmem =>
      disjoint_of_nodup_append h hmem (.head _)
    have hmoved : ∀ status, (((ex.commitFailure status name).failed.map (·.nodeName)) ++
        done.map Prod.fst).Nodup := by
      intro status
      rw [Executor.commitFailure_of_not_mem hnew]
      simpa using h
    cases ended with
    | cancelled => exact absurd rfl (hdone _ (.head _))
    | result r =>
      cases r with
      | messages ms =>
        have hskip : (({ ex with succeedMessages := ex.succeedMessages ++ ms } :
            Executor).failed.map (·.nodeName) ++ done.map Prod.fst).Nodup :=
          h.sublist (List.Sublist.append_left (sublist_cons_self _ _) _)
        obtain ⟨ex', hrun, hfailed, hmessages⟩ := ih htail hskip
        refine ⟨ex', hrun, hfailed.trans ?_, hmessages.trans ?_⟩
        · simp [unsuccessful, TaskEnd.messages?]
        · simp [TaskEnd.messages?]
      | interrupt =>
        obtain ⟨ex', hrun, hfailed, hmessages⟩ := ih htail (hmoved .interrupt)
        refine ⟨ex', hrun, hfailed.trans ?_, hmessages.trans ?_⟩
        · simp [unsuccessful, TaskEnd.messages?, Executor.commitFailure_of_not_mem hnew]
        · simp [TaskEnd.messages?, Executor.commitFailure_of_not_mem hnew]
      | exception =>
        obtain ⟨ex', hrun, hfailed, hmessages⟩ := ih htail (hmoved .error)
        refine ⟨ex', hrun, hfailed.trans ?_, hmessages.trans ?_⟩
        · simp [unsuccessful, TaskEnd.messages?, Executor.commitFailure_of_not_mem hnew]
        · simp [TaskEnd.messages?, Executor.commitFailure_of_not_mem hnew]

variable {tasks : List (String × TaskEnd)}

theorem mem_unsuccessful {name : String} :
    name ∈ unsuccessful tasks ↔ ∃ t ∈ tasks, t.2.messages? = none ∧ t.1 = name := by
  simp [unsuccessful, and_assoc]

theorem unsuccessful_sublist (tasks : List (String × TaskEnd)) :
    (unsuccessful tasks).Sublist (tasks.map Prod.fst) :=
  filter_sublist.map _

theorem exists_first_cancelled {done : List (String × TaskEnd)}
    (h : ¬ ∀ t ∈ done, t.2 ≠ .cancelled) :
    ∃ before name unread, done = before ++ (name, .cancelled) :: unread ∧
      ∀ t ∈ before, t.2 ≠ .cancelled := by
  induction done with
  | nil => exact absurd (fun t ht => by cases ht) h
  | cons t done ih =>
    obtain ⟨name, ended⟩ := t
    cases ended with
    | cancelled => exact ⟨[], name, done, rfl, fun t ht => by cases ht⟩
    | result r =>
      have hrest : ¬ ∀ t ∈ done, t.2 ≠ .cancelled := by
        intro hall
        apply h
        intro t ht
        rcases mem_cons.mp ht with rfl | ht
        · simp
        · exact hall t ht
      obtain ⟨before, name', unread, rfl, hbefore⟩ := ih hrest
      refine ⟨(name, .result r) :: before, name', unread, rfl, fun t ht => ?_⟩
      rcases mem_cons.mp ht with rfl | ht
      · simp
      · exact hbefore t ht

section Accounts

variable {done pending : List (String × TaskEnd)}

private theorem eq_of_name (h : (tasks.map Prod.fst).Nodup)
    {t t' : String × TaskEnd} (ht : t ∈ tasks) (ht' : t' ∈ tasks) (hname : t.1 = t'.1) : t = t' :=
  inj_on_of_nodup_map h ht ht' hname

theorem collectDone_through (hdone : ∀ t ∈ done, t.2 ≠ .cancelled)
    (h : (done.map Prod.fst).Nodup) :
    ∃ ex, ({} : Executor).collectDone done = (ex, none) ∧
      ex.failed.map (·.nodeName) = unsuccessful done ∧
      ex.succeedMessages = done.flatMap fun t => t.2.messages?.getD [] := by
  obtain ⟨ex, hrun, hfailed, hmessages⟩ :=
    @collectDone_spec _ hdone {} (by simpa using h) []
  exact ⟨ex, by rw [← append_nil done, hrun, Executor.collectDone], by simpa using hfailed,
    by simpa using hmessages⟩

theorem not_accounted_of_cancelled {ex : Executor} (hdone : ¬ ∀ t ∈ done, t.2 ≠ .cancelled)
    (h : ((done ++ pending).map Prod.fst).Nodup)
    (hex : ∀ ex' unread, ({} : Executor).collectDone done = (ex', some unread) →
      ex = ex'.cancelRunning pending) : ¬ Accounted (done ++ pending) ex := by
  obtain ⟨before, name, unread, rfl, hbefore⟩ := exists_first_cancelled hdone
  have hnd : (before.map Prod.fst ++ name :: unread.map Prod.fst ++
      pending.map Prod.fst).Nodup := by simpa using h
  have hnd₁ : (before.map Prod.fst ++ name :: unread.map Prod.fst).Nodup :=
    hnd.sublist (sublist_append_left _ _)
  obtain ⟨ex', hrun, hfailed, _⟩ := @collectDone_spec _ hbefore {}
    (by simpa using hnd₁.sublist (sublist_append_left _ _)) ((name, .cancelled) :: unread)
  have hfailed' : ex'.failed.map (·.nodeName) = unsuccessful before := by simpa using hfailed
  have hsub : (unsuccessful before ++ pending.map Prod.fst).Nodup := by
    refine hnd.sublist (List.Sublist.append_right ?_ _)
    exact (unsuccessful_sublist before).trans (sublist_append_left _ _)
  have heq := hex ex' unread (by rw [hrun, Executor.collectDone])
  intro hacc
  have hmem := (hacc.failed_iff (name, .cancelled) (by simp)).mpr rfl
  rw [heq, (cancelRunning_spec (by rw [hfailed']; exact hsub)).1, hfailed'] at hmem
  rcases mem_append.mp hmem with hb | hp
  · exact disjoint_of_nodup_append hnd₁ ((unsuccessful_sublist before).subset hb)
      mem_cons_self
  · exact disjoint_of_nodup_append hnd (by simp) hp

variable {ex : Executor} {recorded cancelled dropped : List (String × TaskEnd)}

private theorem flatMap_eq_nil (h : ∀ t ∈ tasks, t.2.messages?.getD [] = []) :
    (tasks.flatMap fun t => t.2.messages?.getD []) = [] :=
  flatMap_eq_nil_iff.mpr h

theorem accounted_append_iff (h : ((recorded ++ cancelled ++ dropped).map Prod.fst).Nodup)
    (hfailed : ex.failed.map (·.nodeName) = unsuccessful recorded ++ cancelled.map Prod.fst)
    (hmessages : ex.succeedMessages = recorded.flatMap fun t => t.2.messages?.getD []) :
    Accounted (recorded ++ cancelled ++ dropped) ex ↔
      (∀ t ∈ cancelled, t.2.messages? = none) ∧ ∀ t ∈ dropped, t.2.messages? = some [] := by
  have hsub : ((unsuccessful recorded) ++ cancelled.map Prod.fst).Sublist
      ((recorded ++ cancelled).map Prod.fst) := by
    rw [map_append]
    exact (unsuccessful_sublist recorded).append_right _
  have hout : ∀ t ∈ dropped, t.1 ∉ ex.failed.map (·.nodeName) := by
    intro t ht hmem
    rw [hfailed] at hmem
    rw [map_append] at h
    exact disjoint_of_nodup_append h (hsub.subset hmem) (mem_map_of_mem ht)
  constructor
  · intro hacc
    have hcancelled : ∀ t ∈ cancelled, t.2.messages? = none := by
      intro t ht
      refine (hacc.failed_iff t (by simp [ht])).mp ?_
      rw [hfailed]
      exact mem_append_right _ (mem_map_of_mem ht)
    refine ⟨hcancelled, fun t ht => ?_⟩
    cases hend : t.2.messages? with
    | none => exact absurd ((hacc.failed_iff t (by simp [ht])).mpr hend) (hout t ht)
    | some ms =>
      have hlen := hacc.messages.length_eq
      rw [hmessages, flatMap_append, flatMap_append, length_append,
        length_append] at hlen
      have hnil : (dropped.flatMap fun t => t.2.messages?.getD []) = [] :=
        eq_nil_of_length_eq_zero (by omega)
      have ht' := flatMap_eq_nil_iff.mp hnil t ht
      rw [hend, Option.getD_some] at ht'
      rw [ht']
  · rintro ⟨hcancelled, hdropped⟩
    refine ⟨fun name hname => ?_, fun t ht => ?_, ?_⟩
    · rw [hfailed] at hname
      rw [map_append]
      exact mem_append_left _ (hsub.subset hname)
    · constructor
      · intro hmem
        rw [hfailed, mem_append, mem_unsuccessful] at hmem
        rcases hmem with ⟨t', ht', hnone, hname⟩ | hc
        · rw [← eq_of_name h (by simp [ht']) ht hname]
          exact hnone
        · obtain ⟨t', ht', hname⟩ := mem_map.mp hc
          rw [← eq_of_name h (by simp [ht']) ht hname]
          exact hcancelled t' ht'
      · intro hnone
        rw [hfailed, mem_append, mem_unsuccessful]
        rcases mem_append.mp ht with ht | ht
        · rcases mem_append.mp ht with hr | hc
          · exact Or.inl ⟨t, hr, hnone, rfl⟩
          · exact Or.inr (mem_map_of_mem hc)
        · rw [hdropped t ht] at hnone
          cases hnone
    · have hc : (cancelled.flatMap fun t => t.2.messages?.getD []) = [] :=
        flatMap_eq_nil fun t ht => by rw [hcancelled t ht, Option.getD_none]
      have hd : (dropped.flatMap fun t => t.2.messages?.getD []) = [] :=
        flatMap_eq_nil fun t ht => by rw [hdropped t ht, Option.getD_some]
      rw [hmessages, flatMap_append, flatMap_append, hc, hd, append_nil,
        append_nil]

theorem accounted_perm {tasks' : List (String × TaskEnd)} (h : tasks.Perm tasks')
    (hacc : Accounted tasks ex) : Accounted tasks' ex where
  submitted := fun name hname => (h.map Prod.fst).subset (hacc.submitted name hname)
  failed_iff := fun t ht => hacc.failed_iff t (h.symm.subset ht)
  messages := hacc.messages.trans (h.flatMap_right _)

end Accounts

end Waiting

/-- However the tasks of a superstep end and wherever a cancellation falls, every task is
accounted for exactly when the waiting loses nothing. -/
theorem superstep_tasks_accounted_iff (w : Waiting) (h : (w.tasks.map Prod.fst).Nodup) :
    Waiting.Accounted w.tasks w.settle ↔ w.LosesNothing := by
  have hleft : ∀ done rest : List (String × TaskEnd), ((done ++ rest).map Prod.fst).Nodup →
      (done.map Prod.fst).Nodup := by
    intro done rest hnd
    rw [map_append] at hnd
    exact hnd.sublist (sublist_append_left _ _)
  cases w with
  | ends done pending =>
    by_cases hcancel : ∀ t ∈ done, t.2 ≠ .cancelled
    · obtain ⟨ex, hrun, hfailed, hmessages⟩ :=
        Waiting.collectDone_through hcancel (hleft done pending h)
      have hnd : (ex.failed.map (·.nodeName) ++ pending.map Prod.fst).Nodup := by
        rw [hfailed]
        refine h.sublist ?_
        rw [Waiting.tasks, map_append]
        exact (Waiting.unsuccessful_sublist done).append_right _
      obtain ⟨hnames, hkept⟩ := Waiting.cancelRunning_spec hnd
      have hiff := @Waiting.accounted_append_iff _ done pending []
        (by simpa [Waiting.tasks] using h) (hnames.trans (by rw [hfailed]))
        (hkept.trans hmessages)
      have hsettle : (Waiting.ends done pending).settle = ex.cancelRunning pending := by
        rw [Waiting.settle, hrun]
      rw [hsettle, Waiting.tasks, Waiting.LosesNothing, and_iff_right hcancel]
      simpa using hiff
    · refine iff_of_false ?_ (fun hl => hcancel hl.1)
      refine Waiting.not_accounted_of_cancelled hcancel h fun ex' unread hrun => ?_
      rw [Waiting.settle, hrun]
  | cancelledWaiting finished running =>
    have hperm : (finished ++ running).Perm ([] ++ running ++ finished) := perm_append_comm
    have hnd : (([] ++ running ++ finished).map Prod.fst).Nodup :=
      (hperm.map Prod.fst).nodup_iff.mp h
    obtain ⟨hnames, hkept⟩ := @Waiting.cancelRunning_spec {} running
      (by simpa using hleft running finished (by simpa using hnd))
    have hiff := Waiting.accounted_append_iff hnd (by simpa [Waiting.unsuccessful] using hnames)
      (by simpa using hkept)
    rw [Waiting.LosesNothing, Waiting.tasks, Waiting.settle, and_comm, ← hiff]
    exact ⟨Waiting.accounted_perm hperm, Waiting.accounted_perm hperm.symm⟩
  | cancelledDraining done pending =>
    by_cases hcancel : ∀ t ∈ done, t.2 ≠ .cancelled
    · obtain ⟨ex, hrun, hfailed, hmessages⟩ :=
        Waiting.collectDone_through hcancel (hleft done pending h)
      have hiff := @Waiting.accounted_append_iff _ done [] pending
        (by simpa [Waiting.tasks] using h) (by simpa using hfailed) hmessages
      have hsettle : (Waiting.cancelledDraining done pending).settle = ex := by
        rw [Waiting.settle, hrun]
      rw [hsettle, Waiting.tasks, Waiting.LosesNothing, and_iff_right hcancel]
      simpa using hiff
    · refine iff_of_false ?_ (fun hl => hcancel hl.1)
      refine Waiting.not_accounted_of_cancelled hcancel h fun ex' unread hrun => ?_
      rw [Waiting.settle, hrun]

/-- The accounts of a superstep of which one task fails while the other is interrupted. -/
theorem superstep_tasks_accounted_failing :
    Waiting.Accounted [("a", .result .exception), ("b", .cancelled)]
      (Waiting.ends [("a", .result .exception)] [("b", .cancelled)]).settle :=
  (superstep_tasks_accounted_iff (.ends [("a", .result .exception)] [("b", .cancelled)])
    (by decide)).mpr ⟨by decide, by decide⟩

/-- `a` fails while `b` runs; `b`, cancelled, still runs to success. -/
def drainedSuccess : Waiting :=
  .ends [("a", .result .exception)] [("b", .result (.messages [.trigger "b" "c"]))]

/-- The task that ran to success is recorded as failed and its message is lost. -/
theorem superstep_drops_success :
    ¬ Waiting.Accounted drainedSuccess.tasks drainedSuccess.settle ∧
      drainedSuccess.settle.succeedMessages = [] := by
  refine ⟨fun h => ?_, rfl⟩
  have hnone := (h.failed_iff ("b", .result (.messages [.trigger "b" "c"])) (by decide)).mp
    (by decide)
  exact absurd hnone (by decide)

end JiuwenSpec.Graph

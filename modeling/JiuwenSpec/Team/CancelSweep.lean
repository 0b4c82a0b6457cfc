import JiuwenSpec.Team.BoardInvariant

/-!
# The sweep of a bulk cancellation

`cancel_all_tasks` visits its candidates one by one, and a task that one cancellation unblocks
may be cancelled by a later one. The board it leaves is described by the set of the visited
tasks alone, and what it reports is read off that board.
Source: `agent_teams/tools/database/task_dao.py`.
-/

namespace JiuwenSpec.Base.Dict

open List

variable {κ ν μ ξ : Type} [DecidableEq κ]

omit [DecidableEq κ] in
theorem mapValues_mapValues (d : Dict κ ν) (f : κ → ν → μ) (g : κ → μ → ξ) :
    (d.mapValues f).mapValues g = d.mapValues (fun k v => g k (f k v)) := by
  apply Dict.ext
  simp [mapValues, Function.comp_def]

theorem mapValues_congr {d : Dict κ ν} {f g : κ → ν → μ}
    (h : ∀ k v, d.get? k = some v → f k v = g k v) : d.mapValues f = d.mapValues g := by
  apply Dict.ext
  exact map_congr_left fun e he => by rw [h e.1 e.2 (get?_eq_some_iff.mpr he)]

theorem get?_foldl_set (rows : List (κ × ν)) (d : Dict κ ν) (k : κ) :
    ((rows.foldl (fun d r => d.set r.1 r.2) d).get? k = d.get? k ∧ k ∉ rows.map Prod.fst) ∨
      ∃ v, (k, v) ∈ rows ∧ (rows.foldl (fun d r => d.set r.1 r.2) d).get? k = some v := by
  induction rows generalizing d with
  | nil => exact .inl ⟨rfl, not_mem_nil⟩
  | cons r rows ih =>
    rw [foldl_cons]
    rcases ih (d.set r.1 r.2) with ⟨hget, hno⟩ | ⟨v, hv, hget⟩
    · by_cases hk : k = r.1
      · subst hk
        exact .inr ⟨r.2, .head _, by rw [hget, get?_set_self]⟩
      · refine .inl ⟨by rw [hget, get?_set_of_ne _ _ hk], ?_⟩
        rw [map_cons, mem_cons, not_or]
        exact ⟨hk, hno⟩
    · exact .inr ⟨v, .tail _ hv, hget⟩

end JiuwenSpec.Base.Dict

namespace JiuwenSpec.Team

open Base List

def TeamTask.stamped (t : TeamTask) (now : Nat) (status : TaskStatus) : TeamTask :=
  { t with status := status, updatedAt := some now }

namespace TaskBoard

@[simp] theorem TeamTask.status_stamped (t : TeamTask) (now : Nat) (status : TaskStatus) :
    (t.stamped now status).status = status := rfl

/-- No PENDING task waits; the refresh never looks at the empty id. -/
def PendingFree (b : TaskBoard) : Prop :=
  ∀ e ∈ b.tasks.entries, e.1 ≠ "" → e.2.status = .pending → b.unresolvedCount e.1 = 0

/-- A BLOCKED task depends on one of the visited tasks and waits for no other. -/
def Released (b : TaskBoard) (done : List String) (a : String) (t : TeamTask) : Prop :=
  t.status = .blocked ∧ a ≠ "" ∧ (∃ d ∈ done, b.resolved? a d ≠ none) ∧
    ∀ d, b.resolved? a d = some false → d ∈ done

open Classical in
/-- The row of a task when the tasks `done` are cancelled. -/
noncomputable def sweptRow (b : TaskBoard) (now : Nat) (done : List String) (a : String)
    (t : TeamTask) : TeamTask :=
  if a ∈ done then t.stamped now .cancelled
  else if b.Released done a t then t.stamped now .pending
  else t

def sweptDependency (done : List String) (e : String × String) (row : TaskDependency) :
    TaskDependency :=
  if e.2 ∈ done then { row with resolved := true } else row

/-- `s` is the board `b` with the tasks `done` cancelled. -/
structure Swept (b : TaskBoard) (now : Nat) (done : List String) (s : TaskBoard) : Prop where
  teams : s.teams = b.teams
  tasks : s.tasks = b.tasks.mapValues (b.sweptRow now done)
  deps : s.deps = b.deps.mapValues (sweptDependency done)
  files : s.files = b.files

variable {b s : TaskBoard} {now : Nat} {done : List String} {a c : String} {t : TeamTask}

theorem Released.append (h : b.Released done a t) (c : String) :
    b.Released (done ++ [c]) a t := by
  obtain ⟨hs, hne, ⟨d, hd, hedge⟩, hall⟩ := h
  exact ⟨hs, hne, ⟨d, mem_append_left _ hd, hedge⟩,
    fun d hd => mem_append_left _ (hall d hd)⟩

theorem Released.edge (h : b.Released (done ++ [c]) a t) (hno : ¬ b.Released done a t) :
    b.resolved? a c ≠ none := by
  intro hnone
  obtain ⟨hs, hne, ⟨d, hd, hedge⟩, hall⟩ := h
  have hback : ∀ d, b.resolved? a d ≠ none → d ∈ done ++ [c] → d ∈ done := by
    intro d hd hmem
    rcases mem_append.mp hmem with hmem | hmem
    · exact hmem
    · exact absurd (mem_singleton.mp hmem ▸ hnone) hd
  refine hno ⟨hs, hne, ⟨d, hback d hedge hd, hedge⟩, fun d hd => hback d ?_ (hall d hd)⟩
  rw [hd]
  exact Option.some_ne_none _

theorem waits_sweptDependency (hdeps : s.deps = b.deps.mapValues (sweptDependency done)) :
    s.view.Waits a ↔ ∃ d, b.resolved? a d = some false ∧ d ∉ done := by
  refine exists_congr fun d => ?_
  rw [view_edge, resolved?, resolved?, hdeps, Dict.get?_mapValues]
  by_cases hd : d ∈ done
  · cases b.deps.get? (a, d) <;> simp [sweptDependency, hd]
  · cases b.deps.get? (a, d) <;> simp [sweptDependency, hd]

theorem refreshRow_self (hblocked : t.status = .blocked → s.view.Waits a)
    (hpending : t.status = .pending → ¬ s.view.Waits a) : s.refreshRow now a t = t := by
  rw [← unresolvedCount_pos_iff] at hblocked hpending
  rw [refreshRow, if_neg fun h => hpending h.1 h.2,
    if_neg fun h => absurd (hblocked h.1) (by rw [h.2]; exact Nat.lt_irrefl 0)]

theorem refreshRow_free (hs : t.status = .blocked) (hfree : ¬ s.view.Waits a) :
    s.refreshRow now a t = t.stamped now .pending := by
  rw [← unresolvedCount_pos_iff] at hfree
  rw [refreshRow, if_neg fun h => hfree h.2, if_pos ⟨hs, Nat.eq_zero_of_not_pos hfree⟩]
  rfl

noncomputable def flippedRow (b : TaskBoard) (now : Nat) (done : List String) (c a : String)
    (t : TeamTask) : TeamTask :=
  if a = c then (b.sweptRow now done a t).stamped now .cancelled else b.sweptRow now done a t

theorem stamped_sweptRow (status : TaskStatus) :
    (b.sweptRow now done a t).stamped now status = t.stamped now status := by
  unfold sweptRow
  split
  · rfl
  · split <;> rfl

theorem sweptRow_of_mem (h : a ∈ done) : b.sweptRow now done a t = t.stamped now .cancelled :=
  if_pos h

theorem sweptRow_released (hout : a ∉ done) (h : b.Released done a t) :
    b.sweptRow now done a t = t.stamped now .pending := by
  rw [sweptRow, if_neg hout, if_pos h]

theorem sweptRow_kept (hout : a ∉ done) (h : ¬ b.Released done a t) :
    b.sweptRow now done a t = t := by
  rw [sweptRow, if_neg hout, if_neg h]

theorem flippedRow_of_mem (h : a ∈ done ++ [c]) :
    b.flippedRow now done c a t = t.stamped now .cancelled := by
  rw [flippedRow]
  split
  · exact stamped_sweptRow _
  · next hne =>
    exact sweptRow_of_mem ((mem_append.mp h).resolve_right
      fun h => hne (mem_singleton.mp h))

theorem flippedRow_of_not_mem (h : a ∉ done ++ [c]) :
    b.flippedRow now done c a t = b.sweptRow now done a t :=
  if_neg fun hac => h (mem_append_right _ (mem_singleton.mpr hac))

theorem refresh_flippedRow (hfree : b.PendingFree) (ht : b.tasks.get? a = some t)
    (hdeps : s.deps = b.deps.mapValues (sweptDependency (done ++ [c]))) {p : Prop} [Decidable p]
    (hp : p ↔ b.resolved? a c ≠ none ∧ a ≠ "") :
    (if p then s.refreshRow now a (b.flippedRow now done c a t)
      else b.flippedRow now done c a t) = b.sweptRow now (done ++ [c]) a t := by
  have hwaits := waits_sweptDependency (a := a) hdeps
  by_cases hmem : a ∈ done ++ [c]
  · rw [flippedRow_of_mem hmem, sweptRow_of_mem hmem, refreshRow_self (by simp) (by simp), ite_self]
  · have hout := mt (mem_append_left [c]) hmem
    rw [flippedRow_of_not_mem hmem]
    by_cases hafter : b.Released (done ++ [c]) a t
    · have hnot : ¬ s.view.Waits a := by
        intro h
        obtain ⟨d, hd, hno⟩ := hwaits.mp h
        exact hno (hafter.2.2.2 d hd)
      rw [sweptRow_released hmem hafter]
      by_cases hbefore : b.Released done a t
      · rw [sweptRow_released hout hbefore, refreshRow_self (by simp) fun _ => hnot, ite_self]
      · rw [sweptRow_kept hout hbefore, if_pos (hp.mpr ⟨hafter.edge hbefore, hafter.2.1⟩),
          refreshRow_free hafter.1 hnot]
    · rw [sweptRow_kept hmem hafter, sweptRow_kept hout fun h => hafter (h.append c)]
      split
      · next hedge =>
        obtain ⟨hedge, hid⟩ := hp.mp hedge
        refine refreshRow_self (fun hs => ?_) fun hs hw => ?_
        · by_contra hw
          refine hafter ⟨hs, hid, ⟨c, mem_append_right _ (.head _), hedge⟩, fun d hd => ?_⟩
          by_contra hno
          exact hw (hwaits.mpr ⟨d, hd, hno⟩)
        · obtain ⟨d, hd, -⟩ := hwaits.mp hw
          have hpos := (b.unresolvedCount_pos_iff a).mpr ⟨d, hd⟩
          rw [hfree _ (Dict.get?_eq_some_iff.mp ht) hid hs] at hpos
          exact absurd hpos (Nat.lt_irrefl 0)
      · rfl

theorem sweptRow_ne_iff :
    b.sweptRow now (done ++ [c]) a t ≠ b.flippedRow now done c a t ↔
      a ∉ done ++ [c] ∧ b.Released (done ++ [c]) a t ∧ ¬ b.Released done a t := by
  by_cases hmem : a ∈ done ++ [c]
  · rw [flippedRow_of_mem hmem, sweptRow_of_mem hmem]
    exact ⟨fun h => absurd rfl h, fun h => absurd hmem h.1⟩
  · have hout := mt (mem_append_left [c]) hmem
    rw [flippedRow_of_not_mem hmem]
    by_cases hafter : b.Released (done ++ [c]) a t
    · rw [sweptRow_released hmem hafter]
      by_cases hbefore : b.Released done a t
      · rw [sweptRow_released hout hbefore]
        exact ⟨fun h => absurd rfl h, fun h => absurd hbefore h.2.2⟩
      · rw [sweptRow_kept hout hbefore]
        refine ⟨fun _ => ⟨hmem, hafter, hbefore⟩, fun _ h => ?_⟩
        have hs := congrArg TeamTask.status h
        rw [hafter.1] at hs
        cases hs
    · rw [sweptRow_kept hmem hafter, sweptRow_kept hout fun h => hafter (h.append c)]
      exact ⟨fun h => absurd rfl h, fun h => absurd h.2.1 hafter⟩

theorem cancels_of_active {status : TaskStatus} (h : status ∉ taskTerminalStatuses) :
    status ∈ terminablePredecessors .cancelled := by
  revert h
  cases status <;> decide

theorem terminate_swept (h : Swept b now done s) (hfree : b.PendingFree)
    (ht : b.tasks.get? c = some t) (hc : c ∉ done) (hactive : t.status ∉ taskTerminalStatuses) :
    ∃ s' refreshed, s.terminateTaskInSession c .cancelled now =
        (s', some ((c, t.stamped now .cancelled), refreshed)) ∧
      Swept b now (done ++ [c]) s' ∧
      ∀ a row, (a, row) ∈ refreshed ↔ ∃ t, b.tasks.get? a = some t ∧
        (a ∉ done ++ [c] ∧ b.Released (done ++ [c]) a t ∧ ¬ b.Released done a t) ∧
          row = b.sweptRow now (done ++ [c]) a t := by
  have hrow : s.tasks.get? c = some (b.sweptRow now done c t) := by
    rw [h.tasks, Dict.get?_mapValues, ht]
    rfl
  have hpred : (b.sweptRow now done c t).status ∈ terminablePredecessors .cancelled := by
    by_cases hr : b.Released done c t
    · rw [sweptRow_released hc hr]
      exact .head _
    · rw [sweptRow_kept hc hr]
      exact cancels_of_active hactive
  let resolved := (s.updateTasks fun id r =>
    if id = c then r.stamped now .cancelled else r).resolveDependenciesOn c
  have hterm : s.terminateTaskInSession c .cancelled now =
      ((resolved.refreshStatusInSession (resolved.dependentsOf c) now).1,
        some ((c, (b.sweptRow now done c t).stamped now .cancelled),
          (resolved.refreshStatusInSession (resolved.dependentsOf c) now).2)) := by
    rw [terminateTaskInSession]
    simp only [hrow, hpred, if_true]
    rfl
  have hdeps : resolved.deps = b.deps.mapValues (sweptDependency (done ++ [c])) := by
    dsimp only [resolved, resolveDependenciesOn, updateTasks]
    rw [h.deps, Dict.mapValues_mapValues]
    refine Dict.mapValues_congr fun e row _ => ?_
    by_cases he : e.2 = c
    · by_cases hd : c ∈ done <;> simp [sweptDependency, he, hd]
    · simp [sweptDependency, he]
  have htasks : resolved.tasks = b.tasks.mapValues (b.flippedRow now done c) := by
    dsimp only [resolved, resolveDependenciesOn, updateTasks]
    rw [h.tasks, Dict.mapValues_mapValues]
    rfl
  have hids : ∀ a, a ∈ (resolved.dependentsOf c).filter (fun tid => tid ≠ "") ↔
      b.resolved? a c ≠ none ∧ a ≠ "" := by
    intro a
    rw [mem_filter, mem_dependentsOf, decide_eq_true_iff, resolved?, hdeps,
      Dict.get?_mapValues, resolved?]
    simp
  have hrefresh : ∀ a t, b.tasks.get? a = some t →
      (if a ∈ (resolved.dependentsOf c).filter (fun tid => tid ≠ "") then
        resolved.refreshRow now a (b.flippedRow now done c a t)
      else b.flippedRow now done c a t) = b.sweptRow now (done ++ [c]) a t :=
    fun a t ht => refresh_flippedRow hfree ht hdeps (hids a)
  rw [stamped_sweptRow] at hterm
  refine ⟨(resolved.refreshStatusInSession (resolved.dependentsOf c) now).1, _, hterm,
    ⟨h.teams, ?_, hdeps, h.files⟩, ?_⟩
  · dsimp only [refreshStatusInSession, updateTasks]
    rw [htasks, Dict.mapValues_mapValues]
    exact Dict.mapValues_congr hrefresh
  · intro a row
    rw [refreshStatusInSession, mem_map]
    constructor
    · rintro ⟨⟨a, r⟩, he, heq⟩
      obtain ⟨he, hne⟩ := mem_filter.mp he
      cases heq
      rw [← Dict.get?_eq_some_iff, htasks, Dict.get?_mapValues] at he
      obtain ⟨t, ht, rfl⟩ := Option.map_eq_some_iff.mp he
      have hne := of_decide_eq_true hne
      dsimp only at hne ⊢
      rw [hrefresh a t ht] at hne ⊢
      exact ⟨t, ht, sweptRow_ne_iff.mp hne, rfl⟩
    · rintro ⟨t, ht, hnew, rfl⟩
      refine ⟨(a, b.flippedRow now done c a t), mem_filter.mpr ⟨?_, ?_⟩, ?_⟩
      · rw [← Dict.get?_eq_some_iff, htasks, Dict.get?_mapValues, ht]
        rfl
      · refine decide_eq_true ?_
        dsimp only
        rw [hrefresh a t ht]
        exact sweptRow_ne_iff.mpr hnew
      · exact congrArg (Prod.mk a) (hrefresh a t ht)

/-- What the sweep has done when it has visited `done`. -/
structure SweepState (b : TaskBoard) (now : Nat) (done : List String) (acc : CancelAll) :
    Prop where
  board : Swept b now done acc.board
  cancelled : ∀ a row, (a, row) ∈ acc.cancelled ↔
    a ∈ done ∧ ∃ t, b.tasks.get? a = some t ∧ row = t.stamped now .cancelled
  unblocked : ∀ a row, acc.unblocked.get? a = some row →
    ∃ t, b.tasks.get? a = some t ∧ b.Released done a t ∧ row = t.stamped now .pending
  released : ∀ a t, b.tasks.get? a = some t → a ∉ done → b.Released done a t →
    acc.unblocked.get? a ≠ none

theorem sweepState_nil (b : TaskBoard) (now : Nat) : SweepState b now [] ⟨b, [], .empty⟩ where
  board := by
    refine ⟨rfl, ?_, ?_, rfl⟩
    · apply Dict.ext
      refine (map_id _).symm.trans (map_congr_left fun e _ => ?_)
      rw [sweptRow_kept not_mem_nil fun h => by obtain ⟨-, -, ⟨d, hd, -⟩, -⟩ := h; cases hd]
      rfl
    · apply Dict.ext
      exact (map_id _).symm
  cancelled _ _ := ⟨nofun, fun h => nomatch h.1⟩
  unblocked _ _ h := nomatch h
  released _ _ _ _ h := by
    obtain ⟨-, -, ⟨d, hd, -⟩, -⟩ := h
    cases hd

theorem SweepState.cancelOne {acc : CancelAll} (h : SweepState b now done acc)
    (hfree : b.PendingFree) (ht : b.tasks.get? c = some t) (hc : c ∉ done)
    (hactive : t.status ∉ taskTerminalStatuses) :
    SweepState b now (done ++ [c]) (TaskBoard.cancelOne now acc c) := by
  obtain ⟨s', refreshed, hterm, hswept, hrefreshed⟩ := terminate_swept h.board hfree ht hc hactive
  rw [TaskBoard.cancelOne, hterm]
  refine ⟨hswept, fun a row => ?_, fun a row hget => ?_, fun a t' ht' hout hrel => ?_⟩
  · rw [mem_append, h.cancelled, mem_singleton, mem_append, mem_singleton]
    constructor
    · rintro (⟨hd, hrow⟩ | heq)
      · exact ⟨.inl hd, hrow⟩
      · cases heq
        exact ⟨.inr rfl, t, ht, rfl⟩
    · rintro ⟨hd | rfl, t', ht', rfl⟩
      · exact .inl ⟨hd, t', ht', rfl⟩
      · cases ht.symm.trans ht'
        exact .inr rfl
  · rcases Dict.get?_foldl_set refreshed acc.unblocked a with ⟨hold, -⟩ | ⟨v, hv, hnew⟩
    · obtain ⟨t', ht', hrel, hrow⟩ := h.unblocked a row (hold.symm.trans hget)
      exact ⟨t', ht', hrel.append c, hrow⟩
    · cases hnew.symm.trans hget
      obtain ⟨t', ht', ⟨hout, hrel, -⟩, hrow⟩ := (hrefreshed a _).mp hv
      exact ⟨t', ht', hrel, hrow.trans (sweptRow_released hout hrel)⟩
  · rcases Dict.get?_foldl_set refreshed acc.unblocked a with ⟨hold, hno⟩ | ⟨v, -, hnew⟩
    · by_cases hbefore : b.Released done a t'
      · exact hold ▸ h.released a t' ht' (mt (mem_append_left _) hout) hbefore
      · exact absurd (mem_map_of_mem
          ((hrefreshed a _).mpr ⟨t', ht', ⟨hout, hrel, hbefore⟩, rfl⟩)) hno
    · exact fun hnone => nomatch hnew.symm.trans hnone

theorem SweepState.run {acc : CancelAll} (h : SweepState b now done acc) (hfree : b.PendingFree)
    {order : List String} (hnodup : order.Nodup) (hout : ∀ c ∈ order, c ∉ done)
    (hactive : ∀ c ∈ order, ∃ t, b.tasks.get? c = some t ∧ t.status ∉ taskTerminalStatuses) :
    SweepState b now (done ++ order) (order.foldl (TaskBoard.cancelOne now) acc) := by
  induction order generalizing done acc with
  | nil => rwa [append_nil]
  | cons c order ih =>
    obtain ⟨hc, hnodup⟩ := nodup_cons.mp hnodup
    obtain ⟨t, ht, hstatus⟩ := hactive c (.head _)
    rw [append_cons]
    refine ih (h.cancelOne hfree ht (hout c (.head _)) hstatus) hnodup (fun d hd hmem => ?_)
      fun d hd => hactive d (.tail _ hd)
    rcases mem_append.mp hmem with hmem | hmem
    · exact hout d (.tail _ hd) hmem
    · exact hc (mem_singleton.mp hmem ▸ hd)

structure Reports (b : TaskBoard) (skipAssignees : List String)
    (result : TaskBoard × (List TaskRow × List TaskRow)) : Prop where
  cancelled : ∀ id row, (id, row) ∈ result.2.1 ↔ result.1.tasks.get? id = some row ∧
    row.status = .cancelled ∧ b.status? id ≠ some .cancelled
  unblocked : ∀ id row, (id, row) ∈ result.2.2 ↔ result.1.tasks.get? id = some row ∧
    row.status = .pending ∧ b.status? id = some .blocked
  skipped : ∀ id t a, b.tasks.get? id = some t → t.assignee = some a → a ∈ skipAssignees →
    ∀ row, (id, row) ∉ result.2.1

/-- `cancel_all_tasks` when its candidates are visited in the given order. -/
def cancelInOrder (b : TaskBoard) (now : Nat) (order : List String) :
    TaskBoard × (List TaskRow × List TaskRow) :=
  let done := order.foldl (cancelOne now) ⟨b, [], Dict.empty⟩
  (done.board, (done.cancelled,
    done.unblocked.entries.filter (fun e => e.1 ∉ done.cancelled.map Prod.fst)))

theorem mem_cancelCandidates {teamName : String} {skipAssignees : List String} :
    c ∈ b.cancelCandidates teamName skipAssignees ↔ ∃ t, b.tasks.get? c = some t ∧
      t.teamName = teamName ∧ t.status ∉ taskTerminalStatuses ∧
        ∀ a ∈ t.assignee, a ∉ skipAssignees := by
  rw [cancelCandidates, mem_map]
  constructor
  · rintro ⟨e, he, rfl⟩
    obtain ⟨he, hp⟩ := mem_filter.mp he
    exact ⟨e.2, Dict.get?_eq_some_iff.mpr he, of_decide_eq_true hp⟩
  · rintro ⟨t, ht, hp⟩
    exact ⟨(c, t), mem_filter.mpr ⟨Dict.get?_eq_some_iff.mp ht, decide_eq_true hp⟩, rfl⟩

variable {teamName : String} {skipAssignees order : List String}

theorem sweepState_cancelInOrder (hfree : b.PendingFree)
    (horder : order.Perm (b.cancelCandidates teamName skipAssignees)) :
    SweepState b now order (order.foldl (cancelOne now) ⟨b, [], Dict.empty⟩) := by
  have hnodup : (b.cancelCandidates teamName skipAssignees).Nodup :=
    b.tasks.nodup.sublist (filter_sublist.map Prod.fst)
  refine (sweepState_nil b now).run hfree (horder.nodup_iff.mpr hnodup) (fun _ _ => nofun) ?_
  intro c hc
  obtain ⟨t, ht, -, hactive, -⟩ := mem_cancelCandidates.mp (horder.mem_iff.mp hc)
  exact ⟨t, ht, hactive⟩

theorem reports_cancelInOrder (hfree : b.PendingFree)
    (horder : order.Perm (b.cancelCandidates teamName skipAssignees)) :
    b.Reports skipAssignees (b.cancelInOrder now order) := by
  have h : SweepState b now order _ := sweepState_cancelInOrder hfree horder
  have hcandidate : ∀ c ∈ order, ∃ t, b.tasks.get? c = some t ∧ t.teamName = teamName ∧
      t.status ∉ taskTerminalStatuses ∧ ∀ a ∈ t.assignee, a ∉ skipAssignees :=
    fun c hc => mem_cancelCandidates.mp (horder.mem_iff.mp hc)
  have hfinal : ∀ id, (b.cancelInOrder now order).1.tasks.get? id =
      (b.tasks.get? id).map (b.sweptRow now order id) := by
    intro id
    rw [cancelInOrder, h.board.tasks, Dict.get?_mapValues]
  refine ⟨fun id row => ?_, fun id row => ?_, fun id t a ht ha hskip row hmem => ?_⟩
  · rw [hfinal, cancelInOrder, h.cancelled, status?]
    constructor
    · rintro ⟨hmem, t, ht, rfl⟩
      obtain ⟨t', ht', -, hactive, -⟩ := hcandidate id hmem
      cases ht.symm.trans ht'
      rw [ht]
      refine ⟨congrArg some (sweptRow_of_mem hmem), rfl, fun hs => hactive ?_⟩
      rw [Option.some.inj hs]
      exact .tail _ (.head _)
    · rintro ⟨hget, hs, hbefore⟩
      obtain ⟨t, ht, rfl⟩ := Option.map_eq_some_iff.mp hget
      by_cases hmem : id ∈ order
      · exact ⟨hmem, t, ht, sweptRow_of_mem hmem⟩
      · by_cases hrel : b.Released order id t
        · rw [sweptRow_released hmem hrel] at hs
          cases hs
        · rw [sweptRow_kept hmem hrel] at hs
          exact absurd (ht ▸ congrArg some hs) hbefore
  · rw [hfinal, cancelInOrder, mem_filter, ← Dict.get?_eq_some_iff, status?,
      decide_eq_true_iff, mem_map]
    constructor
    · rintro ⟨hget, hout⟩
      obtain ⟨t, ht, hrel, rfl⟩ := h.unblocked id row hget
      have hmem : id ∉ order := fun hmem =>
        hout ⟨(id, _), (h.cancelled id _).mpr ⟨hmem, t, ht, rfl⟩, rfl⟩
      rw [ht]
      exact ⟨congrArg some (sweptRow_released hmem hrel), rfl, congrArg some hrel.1⟩
    · rintro ⟨hget, hs, hbefore⟩
      obtain ⟨t, ht, rfl⟩ := Option.map_eq_some_iff.mp hget
      have hblocked : t.status = .blocked := by
        rw [ht] at hbefore
        exact Option.some.inj hbefore
      have hmem : id ∉ order := fun hmem => by
        rw [sweptRow_of_mem hmem] at hs
        cases hs
      have hrel : b.Released order id t := by
        by_contra hrel
        rw [sweptRow_kept hmem hrel, hblocked] at hs
        cases hs
      obtain ⟨row, hrow⟩ := Option.ne_none_iff_exists'.mp (h.released id t ht hmem hrel)
      obtain ⟨t', ht', -, rfl⟩ := h.unblocked id row hrow
      cases ht.symm.trans ht'
      refine ⟨sweptRow_released hmem hrel ▸ hrow, ?_⟩
      rintro ⟨e, he, rfl⟩
      exact hmem ((h.cancelled e.1 e.2).mp he).1
  · obtain ⟨t', ht', -, -, hkept⟩ := hcandidate id ((h.cancelled id row).mp hmem).1
    cases ht.symm.trans ht'
    exact hkept a ha hskip

theorem released_congr {order' : List String} (horder : order.Perm order') :
    b.Released order = b.Released order' := by
  funext a t
  simp only [Released, horder.mem_iff]

theorem Swept.board_eq {order' : List String} {s' : TaskBoard} (h : Swept b now order s)
    (h' : Swept b now order' s') (horder : order.Perm order') : s = s' := by
  have htasks : s.tasks = s'.tasks := by
    rw [h.tasks, h'.tasks]
    refine Dict.mapValues_congr fun a t _ => ?_
    simp only [sweptRow, horder.mem_iff]
    rw [released_congr horder]
  have hdeps : s.deps = s'.deps := by
    rw [h.deps, h'.deps]
    refine Dict.mapValues_congr fun e row _ => ?_
    simp only [sweptDependency, horder.mem_iff]
  have hteams := h.teams.trans h'.teams.symm
  have hfiles := h.files.trans h'.files.symm
  cases s
  cases s'
  cases hteams
  cases htasks
  cases hdeps
  cases hfiles
  rfl

end TaskBoard

def twoTeamsWaiting : List TaskCall :=
  [⟨inlineEnv, .mutateDependencyGraph "team" [pendingSpec "a"] []⟩,
    ⟨inlineEnv, .mutateDependencyGraph "other" [pendingSpec "b", pendingSpec "c"]
      [("c", "a"), ("c", "b")]⟩]

end JiuwenSpec.Team

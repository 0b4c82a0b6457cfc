import JiuwenSpec.Base.Digraph
import JiuwenSpec.Team.TaskBoard

/-!
# The dependency board

What a task board is for, over any type of task ids: every task has a status, every
dependency is resolved or not, and a task waits while one of its dependencies is
unresolved. The moves are a status write, the finish of a task with the settling of its
dependents, and the settling of a set of tasks. Two invariants are kept by them:
`Consistent` (statuses, flags and blocking agree) and the weaker `Live`, from which
follows that something can always be worked on.
-/

namespace JiuwenSpec.Team

open Base

universe u

/-- Statuses and dependencies; an edge carries whether it is resolved. -/
@[ext] structure DependencyBoard (α : Type u) where
  status : α → Option TaskStatus
  edge : α → α → Option Bool

namespace DependencyBoard

variable {α : Type u}

/-- Some dependency of `a` is unresolved. -/
def Waits (v : DependencyBoard α) (a : α) : Prop := ∃ d, v.edge a d = some false

def Finished (v : DependencyBoard α) (a : α) : Prop := ∃ s, v.status a = some s ∧ s.Terminal

/-- The task exists and can be worked on: waiting to be claimed, or in flight. -/
def Workable (v : DependencyBoard α) (a : α) : Prop :=
  ∃ s, v.status a = some s ∧ (s = .pending ∨ s.InFlight)

open Classical in
noncomputable def settle (waits : Prop) (s : TaskStatus) : TaskStatus :=
  if s = .pending ∨ s = .blocked then (if waits then .blocked else .pending) else s

open Classical in
/-- Settle the waiting and blocked tasks among `S`. -/
noncomputable def refresh (v : DependencyBoard α) (S : α → Prop) : DependencyBoard α where
  status := fun a => if S a then (v.status a).map (settle (v.Waits a)) else v.status a
  edge := v.edge

theorem settle_of_ne {waits : Prop} {s : TaskStatus} (h : ¬ (s = .pending ∨ s = .blocked)) :
    settle waits s = s := if_neg h

theorem settle_of_mem {waits : Prop} {s : TaskStatus} (h : s = .pending ∨ s = .blocked) :
    (waits ∧ settle waits s = .blocked) ∨ (¬ waits ∧ settle waits s = .pending) := by
  rw [settle, if_pos h]
  by_cases hw : waits
  · simp [hw]
  · simp [hw]

theorem settle_cases (waits : Prop) (s : TaskStatus) :
    ((s = .pending ∨ s = .blocked) ∧
      ((waits ∧ settle waits s = .blocked) ∨ (¬ waits ∧ settle waits s = .pending))) ∨
    (¬ (s = .pending ∨ s = .blocked) ∧ settle waits s = s) := by
  by_cases h : s = .pending ∨ s = .blocked
  · exact Or.inl ⟨h, settle_of_mem h⟩
  · exact Or.inr ⟨h, settle_of_ne h⟩

theorem settle_terminal (waits : Prop) (s : TaskStatus) :
    (settle waits s).Terminal ↔ s.Terminal := by
  rcases settle_cases waits s with ⟨rfl | rfl, ⟨_, h⟩ | ⟨_, h⟩⟩ | ⟨_, h⟩
  all_goals rw [h]
  all_goals decide

theorem status_refresh_of_mem (v : DependencyBoard α) {S : α → Prop} {a : α} (h : S a) :
    (v.refresh S).status a = (v.status a).map (settle (v.Waits a)) := if_pos h

theorem status_refresh_of_not_mem (v : DependencyBoard α) {S : α → Prop} {a : α} (h : ¬ S a) :
    (v.refresh S).status a = v.status a := if_neg h

@[simp] theorem waits_refresh (v : DependencyBoard α) (S : α → Prop) (a : α) :
    (v.refresh S).Waits a ↔ v.Waits a := Iff.rfl

theorem finished_refresh (v : DependencyBoard α) (S : α → Prop) (a : α) :
    (v.refresh S).Finished a ↔ v.Finished a := by
  by_cases ha : S a
  · rw [Finished, Finished, status_refresh_of_mem v ha]
    cases v.status a with
    | none => simp
    | some s => simp [settle_terminal]
  · rw [Finished, Finished, status_refresh_of_not_mem v ha]

variable [DecidableEq α]

def write (v : DependencyBoard α) (a : α) (s : TaskStatus) : DependencyBoard α where
  status := fun b => if b = a then some s else v.status b
  edge := v.edge

def resolve (v : DependencyBoard α) (t : α) : DependencyBoard α where
  status := v.status
  edge := fun a d => if d = t then (v.edge a d).map (fun _ => true) else v.edge a d

def remove (v : DependencyBoard α) (t : α) : DependencyBoard α where
  status := fun b => if b = t then none else v.status b
  edge := fun a d => if a = t ∨ d = t then none else v.edge a d

/-- Finish a task: write its status, resolve what depends on it, settle `S`. -/
noncomputable def finish (v : DependencyBoard α) (t : α) (s : TaskStatus) (S : α → Prop) :
    DependencyBoard α :=
  ((v.write t s).resolve t).refresh S

@[simp] theorem edge_write (v : DependencyBoard α) (a : α) (s : TaskStatus) :
    (v.write a s).edge = v.edge := rfl

@[simp] theorem status_resolve (v : DependencyBoard α) (t : α) :
    (v.resolve t).status = v.status := rfl

theorem status_write_self (v : DependencyBoard α) (a : α) (s : TaskStatus) :
    (v.write a s).status a = some s := if_pos rfl

theorem status_write_of_ne (v : DependencyBoard α) {a b : α} (s : TaskStatus) (h : b ≠ a) :
    (v.write a s).status b = v.status b := if_neg h

@[simp] theorem waits_write (v : DependencyBoard α) (t : α) (s : TaskStatus) (a : α) :
    (v.write t s).Waits a ↔ v.Waits a := Iff.rfl

theorem edge_resolve (v : DependencyBoard α) (t a d : α) (r : Bool) :
    (v.resolve t).edge a d = some r ↔
      (d = t ∧ r = true ∧ ∃ r', v.edge a d = some r') ∨ (d ≠ t ∧ v.edge a d = some r) := by
  change (if d = t then (v.edge a d).map (fun _ => true) else v.edge a d) = some r ↔ _
  by_cases hd : d = t
  · rw [if_pos hd, Option.map_eq_some_iff]
    constructor
    · rintro ⟨r', hr', rfl⟩
      exact Or.inl ⟨hd, rfl, r', hr'⟩
    · rintro (⟨_, rfl, r', hr'⟩ | ⟨hne, _⟩)
      · exact ⟨r', hr', rfl⟩
      · exact absurd hd hne
  · simp [hd]

theorem waits_of_waits_resolve {v : DependencyBoard α} {t a : α} (h : (v.resolve t).Waits a) :
    v.Waits a := by
  obtain ⟨d, hd⟩ := h
  rcases (edge_resolve ..).mp hd with ⟨_, hr, _⟩ | ⟨_, he⟩
  · cases hr
  · exact ⟨d, he⟩

theorem waits_resolve {v : DependencyBoard α} {t a : α} (h : v.Waits a)
    (hno : v.edge a t = none) : (v.resolve t).Waits a := by
  obtain ⟨d, hd⟩ := h
  refine ⟨d, (edge_resolve ..).mpr (Or.inr ⟨?_, hd⟩)⟩
  rintro rfl
  rw [hno] at hd
  cases hd

/-- A dependency is resolved exactly when its target is finished, no workable task waits,
and every blocked task does. -/
structure Consistent (v : DependencyBoard α) : Prop where
  resolved_iff : ∀ a d r, v.edge a d = some r → (r = true ↔ v.Finished d)
  free : ∀ a, v.Workable a → ¬ v.Waits a
  waits : ∀ a, v.status a = some .blocked → v.Waits a

omit [DecidableEq α] in
theorem consistent_refresh {v : DependencyBoard α} {S : α → Prop}
    (hres : ∀ a d r, v.edge a d = some r → (r = true ↔ v.Finished d))
    (hflight : ∀ a s, v.status a = some s → s.InFlight → ¬ v.Waits a)
    (hpending : ∀ a, ¬ S a → v.status a = some .pending → ¬ v.Waits a)
    (hblocked : ∀ a, ¬ S a → v.status a = some .blocked → v.Waits a) :
    (v.refresh S).Consistent where
  resolved_iff := by
    intro a d r h
    rw [finished_refresh]
    exact hres a d r h
  free := by
    rintro a ⟨s, hs, hwork⟩
    rw [waits_refresh]
    by_cases ha : S a
    · rw [status_refresh_of_mem v ha] at hs
      obtain ⟨s₀, hs₀, rfl⟩ := Option.map_eq_some_iff.mp hs
      rcases settle_cases (v.Waits a) s₀ with ⟨_, ⟨_, h⟩ | ⟨hw, _⟩⟩ | ⟨hne, h⟩
      · rw [h] at hwork
        exact absurd hwork (by decide)
      · exact hw
      · rw [h] at hwork
        rcases hwork with rfl | hfl
        · exact absurd (Or.inl rfl) hne
        · exact hflight a s₀ hs₀ hfl
    · rw [status_refresh_of_not_mem v ha] at hs
      rcases hwork with rfl | hfl
      · exact hpending a ha hs
      · exact hflight a s hs hfl
  waits := by
    intro a hs
    rw [waits_refresh]
    by_cases ha : S a
    · rw [status_refresh_of_mem v ha] at hs
      obtain ⟨s₀, hs₀, hset⟩ := Option.map_eq_some_iff.mp hs
      rcases settle_cases (v.Waits a) s₀ with ⟨_, ⟨hw, _⟩ | ⟨_, h⟩⟩ | ⟨hne, h⟩
      · exact hw
      · rw [h] at hset
        cases hset
      · rw [h] at hset
        exact absurd (Or.inr hset) hne
    · rw [status_refresh_of_not_mem v ha] at hs
      exact hblocked a ha hs

private theorem finished_write {v : DependencyBoard α} {t : α} {s s' : TaskStatus}
    (hs : v.status t = some s) (hterm : s'.Terminal ↔ s.Terminal) (a : α) :
    (v.write t s').Finished a ↔ v.Finished a := by
  by_cases ha : a = t
  · subst ha
    rw [Finished, Finished, status_write_self, hs]
    simp [hterm]
  · rw [Finished, Finished, status_write_of_ne v s' ha]

theorem Consistent.write {v : DependencyBoard α} (hv : v.Consistent) {t : α} {s s' : TaskStatus}
    (hs : v.status t = some s) (hwork : s = .pending ∨ s.InFlight)
    (hwork' : s' = .pending ∨ s'.InFlight) : (v.write t s').Consistent where
  resolved_iff := by
    intro a d r h
    rw [finished_write hs]
    · exact hv.resolved_iff a d r h
    · revert hwork hwork'
      cases s <;> cases s' <;> decide
  free := by
    rintro a ⟨s₁, hs₁, hw₁⟩
    rw [waits_write]
    by_cases ha : a = t
    · subst ha
      exact hv.free a ⟨s, hs, hwork⟩
    · rw [status_write_of_ne v s' ha] at hs₁
      exact hv.free a ⟨s₁, hs₁, hw₁⟩
  waits := by
    intro a hs₁
    rw [waits_write]
    by_cases ha : a = t
    · subst ha
      rw [status_write_self] at hs₁
      cases hs₁
      exact absurd hwork' (by decide)
    · rw [status_write_of_ne v s' ha] at hs₁
      exact hv.waits a hs₁

theorem Consistent.finish {v : DependencyBoard α} (hv : v.Consistent) {t : α} {s' : TaskStatus}
    (hterm : s'.Terminal) {S : α → Prop} (hS : ∀ a, v.edge a t ≠ none → S a) :
    (v.finish t s' S).Consistent := by
  have hne : ∀ {x : TaskStatus}, x.Terminal → ¬ (x = .pending ∨ x.InFlight) := by
    intro x
    cases x <;> decide
  apply consistent_refresh
  · intro a d r h
    rcases (edge_resolve ..).mp h with ⟨rfl, rfl, _⟩ | ⟨hd, he⟩
    · exact iff_of_true rfl ⟨s', status_write_self .., hterm⟩
    · rw [Finished, status_resolve, status_write_of_ne v s' hd]
      exact hv.resolved_iff a d r he
  · intro a s hs hfl hw
    by_cases ha : a = t
    · subst ha
      rw [status_resolve, status_write_self] at hs
      cases hs
      exact hfl.not_terminal hterm
    · rw [status_resolve, status_write_of_ne v s' ha] at hs
      exact hv.free a ⟨s, hs, Or.inr hfl⟩ (waits_of_waits_resolve hw)
  · intro a _ hs hw
    by_cases ha : a = t
    · subst ha
      rw [status_resolve, status_write_self] at hs
      cases hs
      exact hne hterm (Or.inl rfl)
    · rw [status_resolve, status_write_of_ne v s' ha] at hs
      exact hv.free a ⟨_, hs, Or.inl rfl⟩ (waits_of_waits_resolve hw)
  · intro a haS hs
    have hno : v.edge a t = none := by
      by_contra hsome
      exact haS (hS a hsome)
    by_cases ha : a = t
    · subst ha
      rw [status_resolve, status_write_self] at hs
      cases hs
      exact absurd hterm (by decide)
    · rw [status_resolve, status_write_of_ne v s' ha] at hs
      exact waits_resolve (hv.waits a hs) hno

end DependencyBoard

end JiuwenSpec.Team

/-!
## Boards on which work can go on

The weaker invariant of a dependency board: an unresolved dependency has an unfinished
target, and every blocked task waits. On a finite acyclic board it suffices for progress:
following unresolved dependencies from a blocked task ends at a workable one.
-/

namespace JiuwenSpec.Team

open Base

universe u

namespace DependencyBoard

variable {α : Type u}

/-- Unresolved dependencies have unfinished targets, and blocked tasks wait. -/
structure Live (v : DependencyBoard α) : Prop where
  target : ∀ a d, v.edge a d = some false → v.status d ≠ none ∧ ¬ v.Finished d
  waits : ∀ a, v.status a = some .blocked → v.Waits a

theorem Live.exists_workable {v : DependencyBoard α} (hv : v.Live)
    (hac : Acyclic (fun a d => v.edge a d ≠ none)) {S : Finset α}
    (hS : ∀ a, a ∈ S ↔ v.status a = some .blocked) (hne : S.Nonempty) :
    ∃ a, v.Workable a := by
  obtain ⟨m, hm, hsink⟩ := hac.exists_sink hne
  obtain ⟨d, hd⟩ := hv.waits m ((hS m).mp hm)
  obtain ⟨hsome, hfin⟩ := hv.target m d hd
  cases hs : v.status d with
  | none => exact absurd hs hsome
  | some s =>
    refine ⟨d, s, hs, ?_⟩
    rcases s.cases_phase with h | rfl | h | h
    · exact Or.inl h
    · -- a blocked target would be an arrow out of the sink
      exact absurd (by rw [hd]; simp) (hsink d ((hS d).mpr hs))
    · exact Or.inr h
    · exact absurd ⟨s, hs, h⟩ hfin

theorem live_refresh {v : DependencyBoard α} {S : α → Prop}
    (htarget : ∀ a d, v.edge a d = some false → v.status d ≠ none ∧ ¬ v.Finished d)
    (hblocked : ∀ a, ¬ S a → v.status a = some .blocked → v.Waits a) : (v.refresh S).Live where
  target := by
    intro a d h
    obtain ⟨hsome, hfin⟩ := htarget a d h
    rw [finished_refresh]
    refine ⟨?_, hfin⟩
    by_cases hd : S d
    · rw [status_refresh_of_mem v hd, Ne, Option.map_eq_none_iff]
      exact hsome
    · rwa [status_refresh_of_not_mem v hd]
  waits := by
    intro a hs
    rw [waits_refresh]
    by_cases ha : S a
    · rw [status_refresh_of_mem v ha] at hs
      obtain ⟨s₀, _, hset⟩ := Option.map_eq_some_iff.mp hs
      rcases settle_cases (v.Waits a) s₀ with ⟨_, ⟨hw, _⟩ | ⟨_, h⟩⟩ | ⟨hne, h⟩
      · exact hw
      · rw [h] at hset
        cases hset
      · rw [h] at hset
        exact absurd (Or.inr hset) hne
    · rw [status_refresh_of_not_mem v ha] at hs
      exact hblocked a ha hs

variable [DecidableEq α]

private theorem target_write {v : DependencyBoard α} (hv : v.Live) {t : α} {s' : TaskStatus}
    (hterm : s'.Terminal → ∀ a, v.edge a t ≠ some false) {a d : α}
    (h : v.edge a d = some false) :
    (v.write t s').status d ≠ none ∧ ¬ (v.write t s').Finished d := by
  by_cases hd : d = t
  · subst hd
    rw [Finished, status_write_self]
    refine ⟨by simp, ?_⟩
    rintro ⟨s, hs, hfin⟩
    cases hs
    exact hterm hfin a h
  · rw [Finished, status_write_of_ne v s' hd]
    exact hv.target a d h

theorem Live.write {v : DependencyBoard α} (hv : v.Live) {t : α} {s' : TaskStatus}
    (hterm : s'.Terminal → ∀ a, v.edge a t ≠ some false) (hblocked : s' = .blocked → v.Waits t) :
    (v.write t s').Live where
  target := fun _ _ h => target_write hv hterm h
  waits := by
    intro a hs
    rw [waits_write]
    by_cases ha : a = t
    · subst ha
      rw [status_write_self] at hs
      exact hblocked (Option.some.inj hs)
    · rw [status_write_of_ne v s' ha] at hs
      exact hv.waits a hs

private theorem target_writeResolve {v : DependencyBoard α} (hv : v.Live) {t : α}
    {s' : TaskStatus} {a d : α} (h : ((v.write t s').resolve t).edge a d = some false) :
    ((v.write t s').resolve t).status d ≠ none ∧
      ¬ ((v.write t s').resolve t).Finished d := by
  rcases (edge_resolve ..).mp h with ⟨_, hr, _⟩ | ⟨hd, he⟩
  · cases hr
  · rw [Finished, status_resolve, status_write_of_ne v s' hd]
    exact hv.target a d he

theorem Live.finish {v : DependencyBoard α} (hv : v.Live) {t : α} {s' : TaskStatus}
    (hterm : s'.Terminal) {S : α → Prop}
    (hS : ∀ a, v.status a = some .blocked → v.edge a t ≠ none → S a) :
    (v.finish t s' S).Live := by
  apply live_refresh
  · exact fun a d h => target_writeResolve hv h
  · intro a haS hs
    by_cases ha : a = t
    · subst ha
      rw [status_resolve, status_write_self] at hs
      cases hs
      exact absurd hterm (by decide)
    · rw [status_resolve, status_write_of_ne v s' ha] at hs
      apply waits_resolve (hv.waits a hs)
      by_contra hsome
      exact haS (hS a hs hsome)

/-- Every blocked task but `t` has an unresolved dependency other than `t`. -/
def WaitsBeside (v : DependencyBoard α) (t : α) : Prop :=
  ∀ a, a ≠ t → v.status a = some .blocked → ∃ d, d ≠ t ∧ v.edge a d = some false

theorem Live.complete {v : DependencyBoard α} (hv : v.Live) {t : α} {s' : TaskStatus}
    (hne : s' ≠ .blocked) (hbeside : v.WaitsBeside t) : ((v.write t s').resolve t).Live where
  target := fun _ _ h => target_writeResolve hv h
  waits := by
    intro a hs
    by_cases ha : a = t
    · subst ha
      rw [status_resolve, status_write_self] at hs
      exact absurd (Option.some.inj hs) hne
    · rw [status_resolve, status_write_of_ne v s' ha] at hs
      obtain ⟨d, hd, he⟩ := hbeside a ha hs
      exact ⟨d, (edge_resolve ..).mpr (Or.inr ⟨hd, he⟩)⟩

theorem Live.remove {v : DependencyBoard α} (hv : v.Live) {t : α} (hbeside : v.WaitsBeside t) :
    (v.remove t).Live where
  target := by
    intro a d h
    change (if a = t ∨ d = t then none else v.edge a d) = some false at h
    split at h
    · cases h
    · next hne =>
      rw [not_or] at hne
      change (if d = t then none else v.status d) ≠ none ∧
        ¬ ∃ s, (if d = t then none else v.status d) = some s ∧ s.Terminal
      rw [if_neg hne.2]
      exact hv.target a d h
  waits := by
    intro a hs
    change (if a = t then none else v.status a) = some .blocked at hs
    split at hs
    · cases hs
    · next hne =>
      obtain ⟨d, hd, he⟩ := hbeside a hne hs
      refine ⟨d, ?_⟩
      change (if a = t ∨ d = t then none else v.edge a d) = some false
      rw [if_neg (not_or.mpr ⟨hne, hd⟩), he]

end DependencyBoard

end JiuwenSpec.Team

import JiuwenSpec.Goal.Attempts

/-!
# Attempts settle once

No attempt is settled twice, and a call of an attempt that comes late changes nothing, but for a
use of tokens that is reported without the index of its attempt.
-/

namespace JiuwenSpec.Goal

open Base Option List

variable {H : Host}

/-- The goal ids in use were made for this session, and what was settled under the id of the
current goal is assessed. -/
structure Goals.WF (H : Host) (g : Goals) : Prop where
  assessed : ∀ r ∈ g.record, r.lastAssessedAttempt ≤ r.attemptCount
  made : ∀ r ∈ g.record, ∃ k < g.created, r.goalId = H.newId k
  settled_made : ∀ p ∈ g.settled, ∃ k < g.created, p.1 = H.newId k
  settled_assessed : ∀ r ∈ g.record, ∀ i, (r.goalId, i) ∈ g.settled → i ≤ r.lastAssessedAttempt
  nodup : g.settled.Nodup

theorem wf_start (H : Host) (sessionId : Text) : (Goals.start sessionId).WF H where
  assessed := fun _ h => (by cases h)
  made := fun _ h => (by cases h)
  settled_made := fun _ h => (by cases h)
  settled_assessed := fun _ h => (by cases h)
  nodup := nodup_nil

variable {g : Goals}

theorem Goals.WF.update (h : g.WF H) {r s : GoalRecord} (hr : g.record = some r)
    (hid : s.goalId = r.goalId) (hlast : s.lastAssessedAttempt = r.lastAssessedAttempt)
    (hcount : r.attemptCount ≤ s.attemptCount) : Goals.WF H { g with record := some s } where
  assessed := by
    rintro _ ⟨⟩
    have := h.assessed r hr
    omega
  made := by
    rintro _ ⟨⟩
    rw [hid]
    exact h.made r hr
  settled_made := h.settled_made
  settled_assessed := by
    rintro _ ⟨⟩ i hi
    rw [hid] at hi
    rw [hlast]
    exact h.settled_assessed r hr i hi
  nodup := h.nodup

theorem Goals.WF.store (h : g.WF H) {f : GoalRecord → Option GoalRecord}
    (hf : ∀ r s, f r = some s → s.goalId = r.goalId ∧
      s.lastAssessedAttempt = r.lastAssessedAttempt ∧ r.attemptCount ≤ s.attemptCount) :
    (g.store (g.record.bind f)).WF H := by
  cases hr : g.record with
  | none => exact h
  | some r =>
    cases hs : f r with
    | none =>
      rw [bind_some, hs]
      exact h
    | some s =>
      rw [bind_some, hs]
      obtain ⟨hid, hlast, hcount⟩ := hf r s hs
      exact h.update hr hid hlast hcount

theorem Goals.WF.applied (h : g.WF H) (f : Finishing) (origin : Origin) (now : Int) :
    (g.applied f.attempt (g.record.bind fun r => applyAssessment r f.attempt.goalId
      f.attempt.revision f.assessment f.attempt.index f.usage origin now)).WF H := by
  cases hr : g.record with
  | none => exact h
  | some r =>
    cases hs : applyAssessment r f.attempt.goalId f.attempt.revision f.assessment f.attempt.index
      f.usage origin now with
    | none =>
      rw [bind_some, hs]
      exact h
    | some s =>
      rw [bind_some, hs]
      obtain ⟨hflight, hattempt, status, reason, used, started, rfl, -⟩ := applyAssessment_eq hs
      obtain ⟨-, hgoal, -⟩ := hflight
      obtain ⟨-, hindex, hlast⟩ := hattempt
      -- The index is new: what was settled of this goal is not above the last assessed attempt.
      have hnew : (f.attempt.goalId, f.attempt.index) ∉ g.settled := by
        intro hmem
        rw [← hgoal] at hmem
        have := h.settled_assessed r hr _ hmem
        omega
      exact {
        assessed := by
          rintro _ ⟨⟩
          exact Nat.le_of_eq hindex
        made := by
          rintro _ ⟨⟩
          exact h.made r hr
        settled_made := by
          rintro p hp
          rcases mem_cons.mp hp with rfl | hp
          · rw [← hgoal]
            exact h.made r hr
          · exact h.settled_made p hp
        settled_assessed := by
          rintro _ ⟨⟩ i hi
          rcases mem_cons.mp hi with heq | hi
          · exact Nat.le_of_eq (Prod.mk.inj heq).2
          · have := h.settled_assessed r hr i hi
            dsimp only
            omega
        nodup := nodup_cons.mpr ⟨hnew, h.nodup⟩ }

theorem Goals.WF.finishing (h : g.WF H) (fs : List Finishing) :
    Goals.WF H { g with finishing := fs } :=
  ⟨h.assessed, h.made, h.settled_made, h.settled_assessed, h.nodup⟩

theorem wf_step (hid : Function.Injective H.newId) (a : GoalAction) (h : g.WF H) :
    (step H g a).WF H := by
  cases a with
  | set objective overwriteConfirmed tokenBudget maxAttempts now =>
    rw [step]
    split
    · next r hset =>
      obtain ⟨-, rfl⟩ := setRecord_eq hset
      exact {
        assessed := by
          rintro _ ⟨⟩
          exact Nat.le_refl 0
        made := by
          rintro _ ⟨⟩
          exact ⟨g.created, Nat.lt_succ_self _, rfl⟩
        settled_made := by
          intro p hp
          obtain ⟨k, hk, heq⟩ := h.settled_made p hp
          exact ⟨k, Nat.lt_succ_of_lt hk, heq⟩
        settled_assessed := by
          -- Nothing was settled under the id of the new goal.
          rintro _ ⟨⟩ i hi
          obtain ⟨k, hk, heq⟩ := h.settled_made _ hi
          have := hid heq
          omega
        nodup := h.nodup }
    · exact h
  | pause inFlight now =>
    cases hr : g.record with
    | none =>
      rw [step, hr, map_none, ← hr]
      exact h
    | some r =>
      rw [step, hr, map_some]
      rcases pauseRecord_eq r inFlight now with ⟨-, heq⟩ | ⟨-, used, started, heq⟩
      · rw [heq]
        exact h.update hr rfl rfl (Nat.le_refl _)
      · rw [heq]
        exact h.update hr rfl rfl (Nat.le_refl _)
  | resume inFlight origin now =>
    refine h.store fun r s hs => ?_
    rcases resumeRecord_eq hs with ⟨-, rfl⟩ | ⟨revision, used, started, -, rfl⟩
    · exact ⟨rfl, rfl, Nat.le_refl _⟩
    · exact ⟨rfl, rfl, Nat.le_refl _⟩
  | clear =>
    exact {
      assessed := fun _ h => (by cases h)
      made := fun _ h => (by cases h)
      settled_made := h.settled_made
      settled_assessed := fun _ h => (by cases h)
      nodup := h.nodup }
  | begin goalId revision attemptIndex origin now =>
    refine h.store fun r s hs => ?_
    obtain ⟨-, -, started, rfl⟩ := beginAttempt_eq hs
    exact ⟨rfl, rfl, Nat.le_succ _⟩
  | accumulateUsage attempt named delta origin now =>
    refine h.store fun r s hs => ?_
    obtain ⟨-, -, used, started, rfl⟩ := accumulateUsage_eq hs
    exact ⟨rfl, rfl, Nat.le_refl _⟩
  | finish call =>
    rw [step]
    cases call.read H g.record with
    | none => exact h
    | some f => exact h.finishing _
  | apply index origin now =>
    rw [step]
    split
    · exact h
    · next f hf => exact (h.finishing _).applied f origin now

theorem Goals.store_record {f : GoalRecord → Option GoalRecord}
    (hf : ∀ r ∈ g.record, f r = none) : (g.store (g.record.bind f)).record = g.record := by
  cases hr : g.record with
  | none => exact hr
  | some r =>
    rw [bind_some, hf r hr]
    exact hr

theorem not_matchesInFlight {r : GoalRecord} {a : Attempt}
    (h : a.goalId ≠ r.goalId ∨ a.revision < r.revision) :
    ¬ matchesInFlight r a.goalId a.revision := by
  rintro ⟨-, hid, hrevision⟩
  rcases h with hne | hlt
  · exact hne hid.symm
  · omega

theorem step_late {a : GoalAction} {t : Attempt} (ha : a.attempt? g = some t)
    (hlate : t.OfOldGeneration g.record ∨ a.Named ∧ t.Late g.record) :
    (step H g a).record = g.record := by
  have hlate' : t.Late g.record := by
    rcases hlate with hold | ⟨-, hlate⟩
    · exact fun r hr => (hold r hr).imp_right .inl
    · exact hlate
  cases a with
  | set objective overwriteConfirmed tokenBudget maxAttempts now => cases ha
  | pause inFlight now => cases ha
  | resume inFlight origin now => cases ha
  | clear => cases ha
  | begin goalId revision attemptIndex origin now =>
    cases attemptIndex with
    | none => cases ha
    | some attemptIndex =>
      obtain rfl := some.inj ha
      refine Goals.store_record fun r hr => eq_none_iff_forall_not_mem.mpr fun s hs => ?_
      obtain ⟨⟨-, hid, hrevision⟩, hindex, -⟩ := beginAttempt_eq hs
      have hnext := hindex _ rfl
      rcases hlate' r hr with hne | hlt | hlt
      · exact hne hid.symm
      · dsimp only at hlt
        omega
      · dsimp only at hlt
        omega
  | accumulateUsage attempt named delta origin now =>
    obtain rfl := some.inj ha
    refine Goals.store_record fun r hr => eq_none_iff_forall_not_mem.mpr fun s hs => ?_
    obtain ⟨hflight, hindex, -⟩ := accumulateUsage_eq hs
    rcases hlate with hold | ⟨hnamed, hlate⟩
    · exact not_matchesInFlight (hold r hr) hflight
    · obtain ⟨-, heq, -⟩ := hindex attempt.index (by
        rw [show named = true from hnamed, if_pos rfl]
        rfl)
      rcases hlate r hr with hne | hlt | hlt
      · exact not_matchesInFlight (.inl hne) hflight
      · exact not_matchesInFlight (.inr hlt) hflight
      · omega
  | finish call =>
    rw [step]
    cases call.read H g.record <;> rfl
  | apply index origin now =>
    rw [step]
    split
    · rfl
    · next f hf =>
      rw [GoalAction.attempt?, hf] at ha
      obtain rfl := some.inj ha
      have hnone : (g.record.bind fun r => applyAssessment r f.attempt.goalId f.attempt.revision
          f.assessment f.attempt.index f.usage origin now) = none := by
        refine bind_eq_none_iff.mpr fun r hr =>
          eq_none_iff_forall_not_mem.mpr fun s hs => ?_
        obtain ⟨hflight, ⟨-, hindex, -⟩, -⟩ := applyAssessment_eq hs
        rcases hlate' r hr with hne | hlt | hlt
        · exact not_matchesInFlight (.inl hne) hflight
        · exact not_matchesInFlight (.inr hlt) hflight
        · omega
      rw [hnone]
      rfl

theorem step_terminal {r : GoalRecord} (hr : g.record = some r)
    (hstatus : r.status ≠ .active ∧ r.status ≠ .paused) {a : GoalAction} (ha : ¬ a.Replaces)
    (hresume : a.Resumes → r.status = .completed) : (step H g a).record = some r := by
  have hflight : ∀ goalId revision, ¬ matchesInFlight r goalId revision := fun _ _ h =>
    h.1.elim hstatus.1 hstatus.2
  rw [← hr]
  have hr' : ∀ s ∈ g.record, s = r := fun s hs => some.inj (hs.symm.trans hr)
  cases a with
  | set objective overwriteConfirmed tokenBudget maxAttempts now => exact absurd trivial ha
  | clear => exact absurd trivial ha
  | pause inFlight now =>
    rw [step, hr]
    rcases pauseRecord_eq r inFlight now with ⟨-, heq⟩ | ⟨hactive, -⟩
    · exact congrArg some heq
    · exact absurd hactive hstatus.1
  | resume inFlight origin now =>
    have hcompleted := hresume trivial
    have hstored : resumeRecord r inFlight origin now = some r := by
      rw [resumeRecord, if_neg]
      rw [hcompleted]
      rintro (h | h) <;> cases h
    rw [step, hr, bind_some, hstored]
    rfl
  | begin goalId revision attemptIndex origin now =>
    refine Goals.store_record fun s hs => eq_none_iff_forall_not_mem.mpr fun s' hs' => ?_
    rw [hr' s hs] at hs'
    obtain ⟨⟨hactive, -⟩, -⟩ := beginAttempt_eq hs'
    exact hstatus.1 hactive
  | accumulateUsage attempt named delta origin now =>
    refine Goals.store_record fun s hs => eq_none_iff_forall_not_mem.mpr fun s' hs' => ?_
    rw [hr' s hs] at hs'
    exact hflight _ _ (accumulateUsage_eq hs').1
  | finish call =>
    rw [step]
    cases call.read H g.record <;> rfl
  | apply index origin now =>
    rw [step]
    split
    · rfl
    · next f hf =>
      have hnone : (g.record.bind fun r => applyAssessment r f.attempt.goalId f.attempt.revision
          f.assessment f.attempt.index f.usage origin now) = none := by
        refine bind_eq_none_iff.mpr fun s hs =>
          eq_none_iff_forall_not_mem.mpr fun s' hs' => ?_
        rw [hr' s hs] at hs'
        exact hflight _ _ (applyAssessment_eq hs').1
      rw [hnone]
      rfl

def countingHost : Host := ⟨fun n => List.replicate n 'g', .default, fun _ => none⟩

theorem countingHost_injective : Function.Injective countingHost.newId := by
  intro m n h
  have := congrArg List.length h
  rwa [countingHost, length_replicate, length_replicate] at this

/-- A goal whose second attempt has begun before the first was settled. -/
def twoAttempts : List GoalAction :=
  [.set ['a'] false none none 0, .begin [] 0 none .none 1, .begin [] 0 none .none 2]

end JiuwenSpec.Goal

import Mathlib.Data.List.Perm.Basic
import Mathlib.Data.List.Count

/-!
# Commuting steps

A system of labelled steps, each action of it a partial function, where two different actions
that can both be taken can be taken in either order. Two runs from one state can then be
continued to a common state so that each action does the same in both; what a finished run did
does not depend on the order of its steps.
-/

namespace JiuwenSpec.Base

open List

universe u v w

variable {σ : Type u} {α : Type v} {ℓ : Type w}

/-- A run with the actions it took and their labels. -/
inductive Trace (step : α → σ → Option (ℓ × σ)) : σ → List (α × ℓ) → σ → Prop where
  | nil (s : σ) : Trace step s [] s
  | cons {s t u : σ} {a : α} {l : ℓ} {es : List (α × ℓ)} (h : step a s = some (l, t))
      (rest : Trace step t es u) : Trace step s ((a, l) :: es) u

/-- Two actions that can both be taken can be taken one after the other, in either order. -/
def Commuting (step : α → σ → Option (ℓ × σ)) : Prop :=
  ∀ ⦃s t u : σ⦄ ⦃a b : α⦄ ⦃l m : ℓ⦄, a ≠ b → step a s = some (l, t) → step b s = some (m, u) →
    ∃ v, step b t = some (m, v) ∧ step a u = some (l, v)

section Labels

variable [DecidableEq α]

def labelsOf (a : α) : List (α × ℓ) → List ℓ
  | [] => []
  | e :: es => if e.1 = a then e.2 :: labelsOf a es else labelsOf a es

theorem labelsOf_cons_self (a : α) (l : ℓ) (es : List (α × ℓ)) :
    labelsOf a ((a, l) :: es) = l :: labelsOf a es := if_pos rfl

theorem labelsOf_cons_of_ne {a b : α} (h : b ≠ a) (l : ℓ) (es : List (α × ℓ)) :
    labelsOf a ((b, l) :: es) = labelsOf a es := if_neg h

@[simp] theorem labelsOf_append (a : α) (es fs : List (α × ℓ)) :
    labelsOf a (es ++ fs) = labelsOf a es ++ labelsOf a fs := by
  induction es with
  | nil => rfl
  | cons e es ih =>
    obtain ⟨b, l⟩ := e
    by_cases h : b = a
    · subst h
      rw [cons_append, labelsOf_cons_self, labelsOf_cons_self, ih, cons_append]
    · rw [cons_append, labelsOf_cons_of_ne h, labelsOf_cons_of_ne h, ih]

def SameLabels (es fs : List (α × ℓ)) : Prop := ∀ a, labelsOf a es = labelsOf a fs

namespace SameLabels

variable {es fs gs : List (α × ℓ)}

theorem refl (es : List (α × ℓ)) : SameLabels es es := fun _ => rfl

theorem symm (h : SameLabels es fs) : SameLabels fs es := fun a => (h a).symm

theorem trans (h : SameLabels es fs) (h' : SameLabels fs gs) : SameLabels es gs :=
  fun a => (h a).trans (h' a)

theorem append_left (h : SameLabels fs gs) (es : List (α × ℓ)) :
    SameLabels (es ++ fs) (es ++ gs) := by
  intro a
  rw [labelsOf_append, labelsOf_append, h a]

theorem append_right (h : SameLabels es fs) (gs : List (α × ℓ)) :
    SameLabels (es ++ gs) (fs ++ gs) := by
  intro a
  rw [labelsOf_append, labelsOf_append, h a]

theorem cons (h : SameLabels es fs) (e : α × ℓ) : SameLabels (e :: es) (e :: fs) :=
  h.append_left [e]

theorem middle {a : α} (h : ∀ e ∈ es, e.1 ≠ a) (l : ℓ) :
    SameLabels ((a, l) :: es) (es ++ [(a, l)]) := by
  induction es with
  | nil => exact refl _
  | cons e es ih =>
    have hrest := ih fun e' he' => h e' (.tail _ he')
    apply trans _ (hrest.cons e)
    intro b
    have hne : e.1 ≠ a := h e (.head _)
    by_cases hb : a = b
    · subst hb
      rw [labelsOf_cons_self, labelsOf_cons_of_ne hne, labelsOf_cons_of_ne hne, labelsOf_cons_self]
    · rw [labelsOf_cons_of_ne hb]
      show (if e.1 = b then _ else _) = if e.1 = b then _ else _
      rw [labelsOf_cons_of_ne hb]

theorem perm (h : SameLabels es fs) : es.Perm fs := by
  classical
  have hcount : ∀ (a : α) (l : ℓ) (es : List (α × ℓ)),
      (labelsOf a es).count l = es.count (a, l) := by
    intro a l es
    induction es with
    | nil => rfl
    | cons e es ih =>
      obtain ⟨b, m⟩ := e
      rw [count_cons, ← ih]
      by_cases hb : b = a
      · subst hb
        rw [labelsOf_cons_self, count_cons]
        simp
      · rw [labelsOf_cons_of_ne hb]
        simp [hb]
  apply perm_iff_count.mpr
  intro e
  rw [← hcount, ← hcount, h e.1]

theorem prefix_or {es' fs' : List (α × ℓ)} (h : SameLabels (es ++ es') (fs ++ fs')) (a : α) :
    labelsOf a es <+: labelsOf a fs ∨ labelsOf a fs <+: labelsOf a es := by
  have hsame := h a
  rw [labelsOf_append, labelsOf_append] at hsame
  have hes : labelsOf a es <+: labelsOf a es ++ labelsOf a es' := prefix_append ..
  have hfs : labelsOf a fs <+: labelsOf a es ++ labelsOf a es' := by
    rw [hsame]
    exact prefix_append ..
  exact prefix_or_prefix_of_prefix hes hfs

end SameLabels

end Labels

namespace Trace

variable {step : α → σ → Option (ℓ × σ)}

theorem append {s t u : σ} {es fs : List (α × ℓ)} (h : Trace step s es t)
    (h' : Trace step t fs u) : Trace step s (es ++ fs) u := by
  induction h with
  | nil => exact h'
  | cons hstep _ ih => exact .cons hstep (ih h')

variable {s t u : σ} {es fs : List (α × ℓ)}

theorem eq_of_final (hs : ∀ a, step a s = none) (h : Trace step s es t) : es = [] ∧ t = s := by
  cases h with
  | nil => exact ⟨rfl, rfl⟩
  | cons hstep _ =>
    rw [hs] at hstep
    cases hstep

variable [DecidableEq α]

theorem strip (hstep : Commuting step) {a : α} {l : ℓ} (ha : step a s = some (l, t))
    (h : Trace step s es u) :
    (∃ fs, Trace step t fs u ∧ SameLabels es ((a, l) :: fs)) ∨
      (∀ e ∈ es, e.1 ≠ a) ∧ ∃ v, Trace step t es v ∧ step a u = some (l, v) := by
  induction h generalizing t with
  | nil s => exact .inr ⟨nofun, t, .nil t, ha⟩
  | @cons s r u b m es hb rest ih =>
    by_cases hab : b = a
    · subst hab
      rw [hb] at ha
      cases ha
      exact .inl ⟨es, rest, .refl _⟩
    · obtain ⟨v, hav, hbt⟩ := hstep hab hb ha
      rcases ih hav with ⟨fs, htrace, hsame⟩ | ⟨hnot, w, htrace, hw⟩
      · left
        refine ⟨(b, m) :: fs, .cons hbt htrace, (hsame.cons (b, m)).trans ?_⟩
        have hmove : SameLabels ((a, l) :: [(b, m)]) [(b, m), (a, l)] :=
          .middle (fun e he => by rwa [mem_singleton.mp he]) l
        exact (hmove.append_right fs).symm
      · right
        refine ⟨fun e he => ?_, w, .cons hbt htrace, hw⟩
        rcases mem_cons.mp he with rfl | he
        · exact hab
        · exact hnot e he

/-- **Two runs from one state meet again**, each action having done the same in both. -/
theorem join (hstep : Commuting step) (h : Trace step s es t) (h' : Trace step s fs u) :
    ∃ v es' fs', Trace step t es' v ∧ Trace step u fs' v ∧ SameLabels (es ++ es') (fs ++ fs') := by
  induction h generalizing fs u with
  | nil s => exact ⟨u, fs, [], h', .nil u, by rw [append_nil]; exact .refl _⟩
  | @cons s r t a l es ha _ ih =>
    rcases strip hstep ha h' with ⟨rest, htrace, hsame⟩ | ⟨hnot, w, htrace, hw⟩
    · obtain ⟨v, es', fs', hes, hfs, hmeet⟩ := ih htrace
      exact ⟨v, es', fs', hes, hfs, (hmeet.cons (a, l)).trans (hsame.append_right fs').symm⟩
    · obtain ⟨v, es', fs', hes, hfs, hmeet⟩ := ih htrace
      refine ⟨v, es', (a, l) :: fs', hes, .cons hw hfs, (hmeet.cons (a, l)).trans ?_⟩
      have hmove := (SameLabels.middle hnot l).append_right fs'
      rwa [append_assoc] at hmove

/-- **Finished runs have done the same** and end in the same state. -/
theorem same_of_final (hstep : Commuting step) (h : Trace step s es t) (h' : Trace step s fs u)
    (ht : ∀ a, step a t = none) (hu : ∀ a, step a u = none) : t = u ∧ SameLabels es fs := by
  obtain ⟨v, es', fs', hes, hfs, hsame⟩ := join hstep h h'
  obtain ⟨rfl, rfl⟩ := eq_of_final ht hes
  obtain ⟨rfl, rfl⟩ := eq_of_final hu hfs
  rw [append_nil, append_nil] at hsame
  exact ⟨rfl, hsame⟩

end Trace

end JiuwenSpec.Base

import Mathlib.Data.List.Infix

/-!
# Runs of a deterministic transition function

A run applies a list of operations one after another. A condition on single steps is
evaluated at the state its own step starts from; what one conditioned step preserves,
every conditioned run preserves, at its end and at each state it passes through.
-/

namespace JiuwenSpec.Base

universe u v

variable {σ : Type u} {α : Type v}

def run (step : σ → α → σ) (s : σ) (ops : List α) : σ := ops.foldl step s

/-- Every operation meets `C` at the state it is applied to. -/
def Meets (step : σ → α → σ) (C : σ → α → Prop) : σ → List α → Prop
  | _, [] => True
  | s, a :: ops => C s a ∧ Meets step C (step s a) ops

/-- `t` is the state after some prefix of the operations. -/
def Reached (step : σ → α → σ) (s : σ) (ops : List α) (t : σ) : Prop :=
  ∃ pre, pre <+: ops ∧ run step s pre = t

@[simp] theorem run_nil (step : σ → α → σ) (s : σ) : run step s [] = s := rfl

@[simp] theorem run_cons (step : σ → α → σ) (s : σ) (a : α) (ops : List α) :
    run step s (a :: ops) = run step (step s a) ops := rfl

theorem run_append (step : σ → α → σ) (s : σ) (pre post : List α) :
    run step s (pre ++ post) = run step (run step s pre) post := List.foldl_append

theorem meets_append {step : σ → α → σ} {C : σ → α → Prop} {s : σ} {pre post : List α} :
    Meets step C s (pre ++ post) ↔
      Meets step C s pre ∧ Meets step C (run step s pre) post := by
  induction pre generalizing s with
  | nil => simp [Meets]
  | cons a pre ih => simp [Meets, ih, and_assoc]

theorem meets_of_forall {step : σ → α → σ} {C : σ → α → Prop} {ops : List α}
    (h : ∀ a ∈ ops, ∀ s, C s a) (s : σ) : Meets step C s ops := by
  induction ops generalizing s with
  | nil => exact True.intro
  | cons a ops ih =>
    exact ⟨h a (by simp) s, ih (fun b hb => h b (List.mem_cons_of_mem _ hb)) _⟩

theorem run_invariant {step : σ → α → σ} {C : σ → α → Prop} {I : σ → Prop}
    (hstep : ∀ s a, I s → C s a → I (step s a)) {s : σ} {ops : List α}
    (hs : I s) (hops : Meets step C s ops) : I (run step s ops) := by
  induction ops generalizing s with
  | nil => exact hs
  | cons a ops ih => exact ih (hstep s a hs hops.1) hops.2

theorem reached_invariant {step : σ → α → σ} {C : σ → α → Prop} {I : σ → Prop}
    (hstep : ∀ s a, I s → C s a → I (step s a)) {s t : σ} {ops : List α}
    (hs : I s) (hops : Meets step C s ops) (ht : Reached step s ops t) : I t := by
  obtain ⟨pre, ⟨post, rfl⟩, rfl⟩ := ht
  exact run_invariant hstep hs (meets_append.mp hops).1

end JiuwenSpec.Base

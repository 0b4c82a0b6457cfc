import Mathlib.Data.List.Basic

/-!
# Lists joined by a separator

Where the first part does not hold the separator, a joined list determines it, and prefixes
of joined lists are compared part by part.
-/

namespace JiuwenSpec.Base

open List

universe u

variable {α : Type u}

theorem separated_inj {a b x y : List α} {c : α} (ha : c ∉ a) (hb : c ∉ b) :
    a ++ c :: x = b ++ c :: y ↔ a = b ∧ x = y := by
  induction a generalizing b with
  | nil =>
    cases b with
    | nil => simp
    | cons d b =>
      have hne : c ≠ d := fun h => hb (h ▸ mem_cons_self)
      simp [hne]
  | cons d a ih =>
    have hne : d ≠ c := fun h => ha (h ▸ mem_cons_self)
    cases b with
    | nil => simp [hne]
    | cons d' b =>
      have ha' : c ∉ a := fun h => ha (.tail _ h)
      have hb' : c ∉ b := fun h => hb (.tail _ h)
      rw [cons_append, cons_append, List.cons.injEq, List.cons.injEq, ih ha' hb',
        and_assoc]

variable [BEq α] [LawfulBEq α]

theorem isPrefixOf_separated {a b x y : List α} {c : α} (ha : c ∉ a) (hb : c ∉ b) :
    (b ++ c :: y).isPrefixOf (a ++ c :: x) = true ↔ a = b ∧ y.isPrefixOf x = true := by
  rw [List.isPrefixOf_iff_prefix, List.isPrefixOf_iff_prefix]
  constructor
  · intro ⟨t, ht⟩
    rw [append_assoc, cons_append, separated_inj hb ha] at ht
    exact ⟨ht.1.symm, t, ht.2⟩
  · intro ⟨hab, t, ht⟩
    exact ⟨t, by rw [append_assoc, cons_append, hab, ht]⟩

theorem isPrefixOf_before_separator {a b x : List α} {c : α} (hb : c ∉ b) :
    b.isPrefixOf (a ++ c :: x) = true ↔ b.isPrefixOf a = true := by
  induction a generalizing b with
  | nil =>
    cases b with
    | nil => simp
    | cons d b =>
      have hne : d ≠ c := fun h => hb (h ▸ mem_cons_self)
      simp [hne]
  | cons d a ih =>
    cases b with
    | nil => simp
    | cons d' b =>
      have hb' : c ∉ b := fun h => hb (.tail _ h)
      rw [cons_append, isPrefixOf_cons_cons, isPrefixOf_cons_cons,
        Bool.and_eq_true, Bool.and_eq_true, ih hb']

end JiuwenSpec.Base

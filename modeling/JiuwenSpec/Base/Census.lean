import Mathlib.Data.List.Count

/-!
# The phases of parties

The parties of a concurrent component are the positions of a list of phases. One step moves one
party from a phase to another, and every count changes by what the two phases contribute.
-/

namespace JiuwenSpec.Base

open List

universe u

variable {α : Type u} {phases : List α} {i : Nat} {a b : α}

theorem get_set_cases {j : Nat} {c : α} (h : (phases.set i b)[j]? = some c) :
    (j = i ∧ c = b) ∨ (j ≠ i ∧ phases[j]? = some c) := by
  by_cases hji : j = i
  · subst hji
    rw [getElem?_set_self'] at h
    cases hj : phases[j]? with
    | none => rw [hj] at h; cases h
    | some a => rw [hj] at h; exact .inl ⟨rfl, (Option.some.inj h).symm⟩
  · rw [getElem?_set_ne (Ne.symm hji)] at h
    exact .inr ⟨hji, h⟩

theorem get_append_cases {j : Nat} {c : α} (h : (phases ++ [b])[j]? = some c) :
    (j = phases.length ∧ c = b) ∨ phases[j]? = some c := by
  rcases Nat.lt_trichotomy j phases.length with hj | hj | hj
  · rw [getElem?_append_left hj] at h
    exact .inr h
  · subst hj
    rw [getElem?_concat_length] at h
    exact .inl ⟨rfl, (Option.some.inj h).symm⟩
  · rw [getElem?_eq_none (by simp; omega)] at h
    cases h

theorem countP_move (p : α → Bool) (h : phases[i]? = some a) (b : α) :
    (phases.set i b).countP p + (p a).toNat = phases.countP p + (p b).toNat := by
  obtain ⟨hi, rfl⟩ := List.getElem?_eq_some_iff.mp h
  rw [List.countP_set hi]
  have hpos : p phases[i] = true → 0 < phases.countP p := fun hp =>
    countP_pos_iff.mpr ⟨_, getElem_mem hi, hp⟩
  cases hp : p phases[i] with
  | true =>
    have hcount := hpos hp
    cases p b <;> simp <;> omega
  | false => cases p b <;> simp

theorem countP_pos_of_get (p : α → Bool) (h : phases[i]? = some a) (ha : p a = true) :
    0 < phases.countP p :=
  countP_pos_iff.mpr ⟨a, mem_of_getElem? h, ha⟩

theorem two_le_countP (p : α → Bool) {j : Nat} (hij : i ≠ j) (h : phases[i]? = some a)
    (h' : phases[j]? = some b) (ha : p a = true) (hb : p b = true) : 2 ≤ phases.countP p := by
  induction phases generalizing i j with
  | nil => cases h
  | cons x rest ih =>
    rw [countP_cons]
    cases i with
    | zero =>
      cases j with
      | zero => exact absurd rfl hij
      | succ j =>
        have hrest : 0 < rest.countP p := countP_pos_of_get p h' hb
        have hx : x = a := Option.some.inj h
        rw [hx, if_pos ha]
        omega
    | succ i =>
      cases j with
      | zero =>
        have hrest : 0 < rest.countP p := countP_pos_of_get p h ha
        have hx : x = b := Option.some.inj h'
        rw [hx, if_pos hb]
        omega
      | succ j =>
        have hrest := ih (fun heq => hij (congrArg Nat.succ heq)) h h'
        omega

end JiuwenSpec.Base

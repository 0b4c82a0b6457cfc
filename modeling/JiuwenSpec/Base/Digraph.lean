import Mathlib.Order.WellFoundedSet

/-!
# Acyclic relations

A relation is acyclic when no nonempty path returns to its origin. On finitely many
nodes an acyclic relation has a sink in every nonempty set; adding arrows to an acyclic
relation keeps it acyclic exactly when no added arrow lies on a cycle.
-/

namespace JiuwenSpec.Base

open Relation

universe u

variable {α : Type u} {r s : α → α → Prop}

/-- No nonempty path of `r` returns to its origin. -/
def Acyclic (r : α → α → Prop) : Prop := ∀ x, ¬ TransGen r x x

theorem Acyclic.mono (h : ∀ x y, r x y → s x y) (hs : Acyclic s) : Acyclic r :=
  fun x hx => hs x (TransGen.mono (fun a b hab => h a b hab) x x hx)

theorem acyclic_congr (h : ∀ x y, r x y ↔ s x y) : Acyclic r ↔ Acyclic s :=
  ⟨Acyclic.mono (fun x y => (h x y).mpr), Acyclic.mono (fun x y => (h x y).mp)⟩

theorem acyclic_of_isEmpty (h : ∀ x y, ¬ r x y) : Acyclic r := by
  intro x hx
  obtain ⟨y, _, hy⟩ := TransGen.tail'_iff.mp hx
  exact h y x hy

theorem acyclic_of_rank (rank : α → Nat) (h : ∀ x y, r x y → rank x < rank y) : Acyclic r := by
  have hpath : ∀ x y, TransGen r x y → rank x < rank y := by
    intro x y hxy
    induction hxy with
    | single hxy => exact h _ _ hxy
    | tail _ hyz ih => exact ih.trans (h _ _ hyz)
  exact fun x hx => Nat.lt_irrefl _ (hpath x x hx)

theorem Acyclic.exists_sink (hr : Acyclic r) {S : Finset α} (hS : S.Nonempty) :
    ∃ m ∈ S, ∀ y ∈ S, ¬ r m y := by
  let below : α → α → Prop := fun y x => TransGen r x y
  have : IsStrictOrder α below :=
    { irrefl := hr
      trans := fun _ _ _ hab hbc => hbc.trans hab }
  have hwf : (S : Set α).WellFoundedOn below := S.finite_toSet.wellFoundedOn
  obtain ⟨x, hx⟩ := hS
  obtain ⟨⟨m, hm⟩, _, hmin⟩ := WellFounded.has_min hwf Set.univ ⟨⟨x, hx⟩, trivial⟩
  exact ⟨m, hm, fun y hy hmy => hmin ⟨y, hy⟩ trivial (TransGen.single hmy)⟩

theorem transGen_or_split {x y : α} (h : TransGen (fun a b => r a b ∨ s a b) x y) :
    TransGen r x y ∨ ∃ a b, s a b ∧
      ReflTransGen (fun a b => r a b ∨ s a b) x a ∧
      ReflTransGen (fun a b => r a b ∨ s a b) b y := by
  induction h with
  | single hxy =>
    rcases hxy with hr | hs
    · exact Or.inl (TransGen.single hr)
    · exact Or.inr ⟨_, _, hs, .refl, .refl⟩
  | tail hxb hbc ih =>
    rcases hbc with hr | hs
    · rcases ih with hp | ⟨a, c, hac, hxa, hcb⟩
      · exact Or.inl (hp.tail hr)
      · exact Or.inr ⟨a, c, hac, hxa, hcb.tail (Or.inl hr)⟩
    · exact Or.inr ⟨_, _, hs, hxb.to_reflTransGen, .refl⟩

theorem Acyclic.or_iff (hr : Acyclic r) :
    Acyclic (fun a b => r a b ∨ s a b) ↔
      ∀ a b, s a b → ¬ ReflTransGen (fun a b => r a b ∨ s a b) b a := by
  constructor
  · intro h a b hs hba
    exact h a (TransGen.head' (Or.inr hs) hba)
  · intro h x hx
    rcases transGen_or_split hx with hp | ⟨a, b, hs, hxa, hbx⟩
    · exact hr x hp
    · exact h a b hs (hbx.trans hxa)

end JiuwenSpec.Base

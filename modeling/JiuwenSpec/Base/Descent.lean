import JiuwenSpec.Base.DepthFirst
import JiuwenSpec.Base.MultiMap

/-!
# Recursive descent without marks

A recursion that collects the children of a node and goes on below each of them, whether it has been
there or not. It ends exactly where no cycle lies below the node, and then has collected all that
can be reached from it by one arrow or more.
-/

namespace JiuwenSpec.Base.Descent

open Relation Base.DepthFirst Base.MultiMap List

variable {α : Type} [DecidableEq α] {children : α → List α}

/-- Collect what is below a node; `none` when the turns ran out first. -/
def descend (children : α → List α) : Nat → α → List α → Option (List α)
  | 0, _, _ => none
  | turns + 1, node, found =>
    (children node).foldlM (fun found child => descend children turns child (addTo child found))
      found

section Folds

omit [DecidableEq α]

variable {f : List α → α → Option (List α)} {below : α → α → Prop} {cs found out : List α}

theorem mem_foldlM
    (hf : ∀ found c out, f found c = some out → ∀ x, x ∈ out ↔ x ∈ found ∨ below c x)
    (h : cs.foldlM f found = some out) (x : α) : x ∈ out ↔ x ∈ found ∨ ∃ c ∈ cs, below c x := by
  induction cs generalizing found with
  | nil =>
    cases h
    simp
  | cons c cs ih =>
    obtain ⟨next, hnext, hrest⟩ := Option.bind_eq_some_iff.mp (foldlM_cons.symm.trans h)
    simp only [ih hrest, hf found c next hnext, mem_cons, exists_eq_or_imp, or_assoc]

theorem exists_of_foldlM (h : cs.foldlM f found = some out) :
    ∀ c ∈ cs, ∃ found' out', f found' c = some out' := by
  induction cs generalizing found with
  | nil => simp
  | cons c cs ih =>
    obtain ⟨next, hnext, hrest⟩ := Option.bind_eq_some_iff.mp (foldlM_cons.symm.trans h)
    exact forall_mem_cons.mpr ⟨⟨found, next, hnext⟩, ih hrest⟩

theorem exists_foldlM (hf : ∀ c ∈ cs, ∀ found, ∃ out, f found c = some out) (found : List α) :
    ∃ out, cs.foldlM f found = some out := by
  induction cs generalizing found with
  | nil => exact ⟨found, rfl⟩
  | cons c cs ih =>
    obtain ⟨next, hnext⟩ := hf c (.head _) found
    obtain ⟨out, hout⟩ := ih (fun d hd => hf d (.tail _ hd)) next
    exact ⟨out, by rw [foldlM_cons, hnext]; exact hout⟩

end Folds

theorem mem_descend {turns : Nat} {node : α} {found out : List α}
    (h : descend children turns node found = some out) (x : α) :
    x ∈ out ↔ x ∈ found ∨ TransGen (Child children) node x := by
  induction turns generalizing node found out x with
  | zero => cases h
  | succ turns ih =>
    have hbelow : ∀ found c out, descend children turns c (addTo c found) = some out →
        ∀ x, x ∈ out ↔ x ∈ found ∨ ReflTransGen (Child children) c x := by
      intro found c out hout x
      rw [ih hout, mem_addTo, or_assoc, reflTransGen_iff_eq_or_transGen]
    rw [mem_foldlM hbelow h, TransGen.head'_iff]
    rfl

/-- The recursion does not come back from a cycle. -/
theorem no_cycle_of_descend {turns : Nat} {node : α} {found out : List α}
    (h : descend children turns node found = some out) {x : α}
    (hx : ReflTransGen (Child children) node x) : ¬ TransGen (Child children) x x := by
  induction turns generalizing node found out x with
  | zero => cases h
  | succ turns ih =>
    have hchild : ∀ c ∈ children node, ∀ x, ReflTransGen (Child children) c x →
        ¬ TransGen (Child children) x x := by
      intro c hc x hcx
      obtain ⟨found', out', hout⟩ := exists_of_foldlM h c hc
      exact ih hout hcx
    intro hcycle
    rcases hx.cases_head with rfl | ⟨c, hc, hcx⟩
    · obtain ⟨c, hc, hback⟩ := TransGen.head'_iff.mp hcycle
      exact hchild c hc node hback hcycle
    · exact hchild c hc x hcx hcycle

open Classical in
theorem exists_descend {nodes : Finset α} (hnodes : ∀ x, ∀ y ∈ children x, y ∈ nodes)
    {turns : Nat} {node : α}
    (hturns : (nodes.filter (TransGen (Child children) node ·)).card < turns)
    (h : ∀ x, ReflTransGen (Child children) node x → ¬ TransGen (Child children) x x)
    (found : List α) : ∃ out, descend children turns node found = some out := by
  induction turns generalizing node found with
  | zero => exact absurd hturns (Nat.not_lt_zero _)
  | succ turns ih =>
    refine exists_foldlM (fun c hc found => ih ?_ (fun x hx => h x (.head hc hx)) _) found
    refine (Finset.card_lt_card ?_).trans_le (Nat.le_of_lt_succ hturns)
    refine Finset.ssubset_iff_of_subset (fun x hx => ?_) |>.mpr ⟨c, ?_, fun hself => ?_⟩
    · rw [Finset.mem_filter] at hx ⊢
      exact ⟨hx.1, hx.2.head hc⟩
    · exact Finset.mem_filter.mpr ⟨hnodes node c hc, .single hc⟩
    · exact h c (.single hc) (Finset.mem_filter.mp hself).2

theorem exists_descend_iff {nodes : Finset α} (hnodes : ∀ x, ∀ y ∈ children x, y ∈ nodes)
    (node : α) (found : List α) : (∃ turns out, descend children turns node found = some out) ↔
      ∀ x, ReflTransGen (Child children) node x → ¬ TransGen (Child children) x x := by
  constructor
  · rintro ⟨turns, out, h⟩ x hx
    exact no_cycle_of_descend h hx
  · intro h
    exact ⟨_, exists_descend hnodes (Nat.lt_succ_self _) h found⟩

end JiuwenSpec.Base.Descent

import Mathlib.Data.List.Basic
import Mathlib.Logic.Relation

/-!
# Breadth-first search

A search pops a node from a queue, passes it over when it was visited and otherwise visits
it and queues the targets of its edges that were not visited. As many turns as there are
edges, and one more, visit everything that can be reached, and nothing else.
-/

namespace JiuwenSpec.Base

open Relation List

universe u

variable {α : Type u}

def Arrow (edges : List (α × α)) (x y : α) : Prop := (x, y) ∈ edges

variable [DecidableEq α]

def unvisited (edges : List (α × α)) (visited : List α) (x : α) : List α :=
  (edges.filter fun e => e.1 = x ∧ e.2 ∉ visited).map Prod.snd

def breadthFirst (edges : List (α × α)) : Nat → List α → List α → List α
  | 0, visited, _ => visited
  | _ + 1, visited, [] => visited
  | turns + 1, visited, x :: queue =>
    if x ∈ visited then breadthFirst edges turns visited queue
    else breadthFirst edges turns (x :: visited) (queue ++ unvisited edges (x :: visited) x)

def reachable (edges : List (α × α)) (start : α) : List α :=
  breadthFirst edges (edges.length + 1) [] [start]

variable {edges : List (α × α)} {visited : List α}

theorem mem_unvisited {x y : α} :
    y ∈ unvisited edges visited x ↔ Arrow edges x y ∧ y ∉ visited := by
  rw [unvisited, mem_map]
  constructor
  · intro ⟨e, he, hy⟩
    obtain ⟨hmem, hcond⟩ := mem_filter.mp he
    obtain ⟨hx, hnot⟩ := of_decide_eq_true hcond
    subst hx
    subst hy
    exact ⟨hmem, hnot⟩
  · intro ⟨harrow, hnot⟩
    exact ⟨(x, y), mem_filter.mpr ⟨harrow, decide_eq_true ⟨rfl, hnot⟩⟩, rfl⟩

/-- The turns that the search still needs: one for each queued node and one for each edge of
a node that was not visited. -/
def turnsLeft (edges : List (α × α)) (visited queue : List α) : Nat :=
  queue.length + (edges.filter fun e => e.1 ∉ visited).length

theorem length_filter_visit (edges : List (α × α)) {x : α} (hx : x ∉ visited) :
    (edges.filter fun e => e.1 = x).length + (edges.filter fun e => e.1 ∉ x :: visited).length =
      (edges.filter fun e => e.1 ∉ visited).length := by
  induction edges with
  | nil => rfl
  | cons e edges ih =>
    by_cases hsource : e.1 = x
    · simp [hsource, hx] at ih ⊢
      omega
    · by_cases hvisited : e.1 ∈ visited
      · simp [hsource, hvisited] at ih ⊢
        omega
      · simp [hsource, hvisited] at ih ⊢
        omega

theorem turnsLeft_visit (edges : List (α × α)) (queue : List α) {x : α} (hx : x ∉ visited) :
    turnsLeft edges (x :: visited) (queue ++ unvisited edges (x :: visited) x) + 1 ≤
      turnsLeft edges visited (x :: queue) := by
  have hnew : (unvisited edges (x :: visited) x).length ≤
      (edges.filter fun e => e.1 = x).length := by
    rw [unvisited, length_map]
    apply List.Sublist.length_le
    apply monotone_filter_right
    intro e he
    exact decide_eq_true (of_decide_eq_true he).1
  have hedges := length_filter_visit edges hx
  simp only [turnsLeft, length_append, length_cons]
  omega

theorem breadthFirst_sound {P : α → Prop}
    (hP : ∀ x y, P x → Arrow edges x y → P y) (turns : Nat) {queue : List α}
    (hvisited : ∀ x ∈ visited, P x) (hqueue : ∀ x ∈ queue, P x) :
    ∀ x ∈ breadthFirst edges turns visited queue, P x := by
  induction turns generalizing visited queue with
  | zero => exact hvisited
  | succ turns ih =>
    cases queue with
    | nil => exact hvisited
    | cons x queue =>
      have hx : P x := hqueue x (.head _)
      have hrest : ∀ y ∈ queue, P y := fun y hy => hqueue y (.tail _ hy)
      rw [breadthFirst]
      by_cases hmem : x ∈ visited
      · rw [if_pos hmem]
        exact ih hvisited hrest
      · rw [if_neg hmem]
        apply ih
        · exact forall_mem_cons.mpr ⟨hx, hvisited⟩
        · intro y hy
          cases mem_append.mp hy with
          | inl hold => exact hrest y hold
          | inr hnew => exact hP x y hx (mem_unvisited.mp hnew).1

theorem breadthFirst_complete {turns : Nat} {queue : List α}
    (hturns : turnsLeft edges visited queue ≤ turns)
    (hclosed : ∀ x ∈ visited, ∀ y, Arrow edges x y → y ∈ visited ∨ y ∈ queue) :
    (∀ x, x ∈ visited ∨ x ∈ queue → x ∈ breadthFirst edges turns visited queue) ∧
      ∀ x ∈ breadthFirst edges turns visited queue, ∀ y, Arrow edges x y →
        y ∈ breadthFirst edges turns visited queue := by
  induction turns generalizing visited queue with
  | zero =>
    have hlength : queue.length = 0 := by
      rw [turnsLeft] at hturns
      omega
    have hqueue : queue = [] := length_eq_zero_iff.mp hlength
    subst hqueue
    rw [breadthFirst]
    simp only [not_mem_nil, or_false] at hclosed ⊢
    exact ⟨fun _ h => h, hclosed⟩
  | succ turns ih =>
    cases queue with
    | nil =>
      rw [breadthFirst]
      simp only [not_mem_nil, or_false] at hclosed ⊢
      exact ⟨fun _ h => h, hclosed⟩
    | cons x queue =>
      rw [breadthFirst]
      by_cases hmem : x ∈ visited
      · rw [if_pos hmem]
        have hturns' : turnsLeft edges visited queue ≤ turns := by
          simp only [turnsLeft, length_cons] at hturns ⊢
          omega
        have hsame : ∀ y, y ∈ visited ∨ y ∈ x :: queue ↔ y ∈ visited ∨ y ∈ queue := by
          intro y
          rw [mem_cons]
          constructor
          · rintro (hy | rfl | hy)
            · exact .inl hy
            · exact .inl hmem
            · exact .inr hy
          · exact Or.imp_right .inr
        simp only [hsame] at hclosed ⊢
        exact ih hturns' hclosed
      · rw [if_neg hmem]
        have hturns' := turnsLeft_visit edges queue hmem
        have hclosed' : ∀ z ∈ x :: visited, ∀ y, Arrow edges z y → y ∈ x :: visited ∨
            y ∈ queue ++ unvisited edges (x :: visited) x := by
          intro z hz y harrow
          rw [mem_append, mem_unvisited]
          cases mem_cons.mp hz with
          | inl heq =>
            subst heq
            by_cases hy : y ∈ z :: visited
            · exact .inl hy
            · exact .inr (.inr ⟨harrow, hy⟩)
          | inr hold =>
            rcases hclosed z hold y harrow with hy | hy
            · exact .inl (.tail _ hy)
            · cases mem_cons.mp hy with
              | inl heq => exact .inl (heq ▸ mem_cons_self)
              | inr hqueue => exact .inr (.inl hqueue)
        obtain ⟨hall, hnext⟩ := ih (by omega) hclosed'
        refine ⟨fun y hy => hall y ?_, hnext⟩
        rw [mem_cons] at hy
        rw [mem_cons, mem_append]
        rcases hy with hy | hy | hy
        · exact .inl (.inr hy)
        · exact .inl (.inl hy)
        · exact .inr (.inl hy)

theorem mem_reachable_iff {start x : α} :
    x ∈ reachable edges start ↔ ReflTransGen (Arrow edges) start x := by
  constructor
  · apply breadthFirst_sound (P := ReflTransGen (Arrow edges) start)
    · exact fun _ _ hreach harrow => hreach.tail harrow
    · exact nofun
    · intro y hy
      rw [mem_singleton.mp hy]
  · have hturns : turnsLeft edges [] [start] ≤ edges.length + 1 := by
      have hfilter := length_filter_le (fun e => decide (e.1 ∉ ([] : List α))) edges
      simp only [turnsLeft, length_singleton]
      omega
    obtain ⟨hall, hnext⟩ := breadthFirst_complete hturns
      (nofun)
    intro hreach
    induction hreach with
    | refl => exact hall start (.inr (.head _))
    | tail _ harrow ih => exact hnext _ ih _ harrow

end JiuwenSpec.Base

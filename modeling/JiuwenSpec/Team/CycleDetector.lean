import JiuwenSpec.Base.ReportedCycle
import JiuwenSpec.Team.GraphMutation

/-!
# The cycle detector

`detect_cycle_in_adjacency` on every adjacency map: the walk ends, it finds nothing exactly
when the graph is acyclic, and what it returns otherwise is a cycle of the graph.
Source: `agent_teams/tools/database/graph.py`.
-/

namespace JiuwenSpec.Team

open Base Base.DepthFirst List

def Adjacency.Edge (adjacency : Adjacency) (a b : String) : Prop := b ∈ adjacency.deps a

/-- The walk with a bound on its turns; the outer `none` says that it was cut off. -/
def detectCycleWithin (adjacency : Adjacency) (turns : Nat) : Option (Option (List String)) :=
  searchWithin adjacency.children turns adjacency.roots (fun _ => .white)

private theorem child_eq (adjacency : Adjacency) :
    Child adjacency.children = adjacency.Edge := by
  funext a b
  rw [Child, Adjacency.children, mem_reverse, Adjacency.Edge]

theorem detectCycleWithin_eq (adjacency : Adjacency) {turns : Nat}
    (h : adjacency.walkBound ≤ turns) :
    detectCycleWithin adjacency turns = some (detectCycleInAdjacency adjacency) := by
  have hnodes : ∀ a, ∀ b ∈ adjacency.children a, b ∈ adjacency.roots.toFinset := by
    intro a b hb
    rw [Adjacency.children, mem_reverse] at hb
    exact mem_toFinset.mpr (Adjacency.mem_roots_of_dep hb).2
  exact searchWithin_eq hnodes (Nat.lt_succ_self _) h
    (fun a ha => mem_toFinset.mpr ha) (settled_white _)

/-- The walk ends; it is silent exactly on the acyclic graphs; what it reports is a cycle. -/
theorem detectCycleInAdjacency_correct (adjacency : Adjacency) :
    (∃ bound, ∀ turns, bound ≤ turns →
      detectCycleWithin adjacency turns = some (detectCycleInAdjacency adjacency)) ∧
    (detectCycleInAdjacency adjacency = none ↔ Acyclic adjacency.Edge) ∧
    ∀ cycle, detectCycleInAdjacency adjacency = some cycle → IsCycle adjacency.Edge cycle := by
  refine ⟨⟨adjacency.walkBound, fun turns h => detectCycleWithin_eq adjacency h⟩,
    detectCycleInAdjacency_eq_none_iff adjacency, fun cycle h => ?_⟩
  rw [← child_eq]
  exact searchRoots_isCycle (settled_white _) h

example : detectCycleInAdjacency (.ofEdges [("a", "b"), ("b", "b")]) = some ["b", "b"] := by
  decide

end JiuwenSpec.Team

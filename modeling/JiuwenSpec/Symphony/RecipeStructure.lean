import Mathlib.Data.String.Basic
import JiuwenSpec.Base.KahnOrder
import JiuwenSpec.Base.MarkedSearch

/-!
# Recipe structures

The edges observed in executions may run in circles. `break_cycles` removes, while there is a
cycle, the weakest edge that lies on one; what is left is acyclic and keeps every edge off the
cycles, and which edges are left does not depend on the order of the input. A skill pack built
from such edges has a topological order.
Source: `symphony/flow/distill.py`.
-/

namespace JiuwenSpec.Symphony.Flow

open Base Base.DepthFirst Base.MarkedSearch Relation List

structure RecipeEdge where
  source : String
  target : String
  relation : String
  deriving DecidableEq

structure EdgeStats where
  support : Nat := 0
  success : Nat := 0

def RecipeEdge.arrow (e : RecipeEdge) : String × String := (e.source, e.target)

def Linked (edges : List RecipeEdge) (x y : String) : Prop :=
  ∃ e ∈ edges, e.source = x ∧ e.target = y

/-- An edge of a list lies on a cycle: its target leads back to its source. -/
def OnCycle (edges : List RecipeEdge) (e : RecipeEdge) : Prop :=
  ReflTransGen (Linked edges) e.target e.source

/-- `graph[source]`: the targets of a node, one for each edge. -/
def successors (edges : List RecipeEdge) (x : String) : List String :=
  (edges.filter (fun e => e.source = x)).map (·.target)

def endpoints (edges : List RecipeEdge) : List String :=
  edges.flatMap (fun e => [e.source, e.target])

/-- `has_cycle`: visit every source; `none` would be a recursion that was cut off. -/
def hasCycle (edges : List RecipeEdge) : Option Bool :=
  (anyVisit (visit (successors edges) (endpoints edges).length)
    (edges.map (·.source)).eraseDups ⟨[], []⟩).map Prod.fst

/-- `on_cycle`: without the edge, its target still leads to its source; `none` would be a
search that was cut off. -/
def onCycle (edges : List RecipeEdge) (edge : RecipeEdge) : Option Bool :=
  let others := edges.filter (· ≠ edge)
  (explore (successors others)
    (exploreWork (successors others) (endpoints (edge :: others)).toFinset [] [edge.target])
    [] [edge.target]).map (fun reachable => decide (edge.source ∈ reachable))

/-- `(edge for edge in kept if on_cycle(edge, kept))`. -/
def keepWhere {α : Type*} (p : α → Option Bool) : List α → Option (List α)
  | [] => some []
  | x :: xs =>
    match p x, keepWhere p xs with
    | some true, some ys => some (x :: ys)
    | some false, some ys => some ys
    | _, _ => none

/-- The order of the candidates: by support, then by the edge itself. -/
def weakness (stats : RecipeEdge → EdgeStats) (e : RecipeEdge) :
    ℕ ×ₗ String ×ₗ String ×ₗ String :=
  toLex ((stats e).support, toLex (e.source, toLex (e.target, e.relation)))

/-- The loop of `break_cycles`; `none` would be a loop that was cut off. -/
def breakLoop (stats : RecipeEdge → EdgeStats) : Nat → List RecipeEdge → Option (List RecipeEdge)
  | turns, kept =>
    match hasCycle kept with
    | none => none
    | some false => some kept
    | some true =>
      match keepWhere (onCycle kept) kept with
      | none => none
      | some candidates =>
        match candidates.insertionSort (fun a b => weakness stats a ≤ weakness stats b), turns with
        | [], _ => some kept
        | _ :: _, 0 => none
        | edge :: _, turns + 1 => breakLoop stats turns (kept.erase edge)

def breakCycles (edges : List RecipeEdge) (stats : RecipeEdge → EdgeStats) :
    Option (List RecipeEdge) :=
  breakLoop stats edges.length edges

theorem child_successors_iff (edges : List RecipeEdge) (x y : String) :
    Child (successors edges) x y ↔ Linked edges x y := by
  simp [Child, successors, Linked, and_assoc]

private theorem child_successors (edges : List RecipeEdge) :
    Child (successors edges) = Linked edges := by
  funext x y
  exact propext (child_successors_iff edges x y)

variable {edges : List RecipeEdge}

theorem mem_endpoints {x : String} :
    x ∈ endpoints edges ↔ ∃ e ∈ edges, x = e.source ∨ x = e.target := by
  simp [endpoints]

private theorem successors_endpoints (edges : List RecipeEdge) (x : String) :
    ∀ y ∈ successors edges x, y ∈ (endpoints edges).toFinset := by
  intro y hy
  obtain ⟨e, he, rfl⟩ := mem_map.mp hy
  rw [mem_toFinset, mem_endpoints]
  exact ⟨e, (mem_filter.mp he).1, Or.inr rfl⟩

theorem hasCycle_spec (edges : List RecipeEdge) :
    ∃ found, hasCycle edges = some found ∧ (found = true ↔ ¬ Acyclic (Linked edges)) := by
  have hroots : ∀ x ∈ (edges.map (·.source)).eraseDups, x ∈ (endpoints edges).toFinset := by
    intro x hx
    obtain ⟨e, he, rfl⟩ := mem_map.mp (mem_eraseDups.mp hx)
    rw [mem_toFinset, mem_endpoints]
    exact ⟨e, he, Or.inl rfl⟩
  have hall : ∀ x, successors edges x ≠ [] → x ∈ (edges.map (·.source)).eraseDups := by
    intro x hx
    obtain ⟨y, hy⟩ := exists_mem_of_ne_nil _ hx
    obtain ⟨e, he, _⟩ := mem_map.mp hy
    obtain ⟨hmem, hsource⟩ := mem_filter.mp he
    exact mem_eraseDups.mpr (mem_map.mpr ⟨e, hmem, of_decide_eq_true hsource⟩)
  obtain ⟨found, m, hrun, hiff⟩ := anyVisit_cycle_iff (successors_endpoints edges)
    (toFinset_card_le (endpoints edges)) hroots hall
  refine ⟨found, by rw [hasCycle, hrun, Option.map_some], ?_⟩
  rw [hiff, child_successors]

private theorem linked_mono {edges' : List RecipeEdge} (h : ∀ e ∈ edges, e ∈ edges')
    (x y : String) (hl : Linked edges x y) : Linked edges' x y := by
  obtain ⟨e, he, hxy⟩ := hl
  exact ⟨e, h e he, hxy⟩

/-- A way back to the source of an edge need not use the edge. -/
theorem reaches_without {edge : RecipeEdge} {x : String}
    (h : ReflTransGen (Linked edges) x edge.source) :
    ReflTransGen (Linked (edges.filter (· ≠ edge))) x edge.source := by
  induction h using ReflTransGen.head_induction_on with
  | refl => exact .refl
  | head hstep _ ih =>
    obtain ⟨e, he, hsource, htarget⟩ := hstep
    by_cases heq : e = edge
    · rw [← hsource, heq]
    · exact .head ⟨e, mem_filter.mpr ⟨he, by simpa using heq⟩, hsource, htarget⟩ ih

theorem onCycle_spec (edges : List RecipeEdge) (edge : RecipeEdge) :
    ∃ answer, onCycle edges edge = some answer ∧ (answer = true ↔ OnCycle edges edge) := by
  have hstart : edge.target ∈ (endpoints (edge :: edges.filter (· ≠ edge))).toFinset := by
    rw [mem_toFinset, mem_endpoints]
    exact ⟨edge, .head _, Or.inr rfl⟩
  have hnodes : ∀ x, ∀ y ∈ successors (edges.filter (· ≠ edge)) x,
      y ∈ (endpoints (edge :: edges.filter (· ≠ edge))).toFinset := by
    intro x y hy
    obtain ⟨e, he, hor⟩ := mem_endpoints.mp (mem_toFinset.mp (successors_endpoints _ x y hy))
    exact mem_toFinset.mpr (mem_endpoints.mpr ⟨e, .tail _ he, hor⟩)
  obtain ⟨all, hrun, hall⟩ := explore_start hnodes hstart (Nat.le_refl _)
  refine ⟨decide (edge.source ∈ all), by rw [onCycle, hrun, Option.map_some], ?_⟩
  rw [decide_eq_true_eq, hall, child_successors, OnCycle]
  constructor
  · intro h
    exact ReflTransGen.mono
      (linked_mono fun e he => (mem_filter.mp he).1) _ _ h
  · exact reaches_without

instance (edges : List RecipeEdge) (edge : RecipeEdge) : Decidable (OnCycle edges edge) :=
  decidable_of_iff (onCycle edges edge = some true) (by
    obtain ⟨answer, hrun, hiff⟩ := onCycle_spec edges edge
    rw [hrun, Option.some.injEq, hiff])

theorem exists_onCycle (h : ¬ Acyclic (Linked edges)) : ∃ e ∈ edges, OnCycle edges e := by
  rw [Acyclic] at h
  push Not at h
  obtain ⟨x, hx⟩ := h
  obtain ⟨y, ⟨e, he, rfl, rfl⟩, hback⟩ := TransGen.head'_iff.mp hx
  exact ⟨e, he, hback⟩

theorem OnCycle.mono {edges' : List RecipeEdge} (h : ∀ e ∈ edges, e ∈ edges')
    {e : RecipeEdge} (hc : OnCycle edges e) : OnCycle edges' e :=
  ReflTransGen.mono (linked_mono h) _ _ hc

private theorem keepWhere_eq {α : Type*} {p : α → Option Bool} {q : α → Bool} {l : List α}
    (h : ∀ x ∈ l, p x = some (q x)) : keepWhere p l = some (l.filter q) := by
  induction l with
  | nil => rfl
  | cons x xs ih =>
    rw [keepWhere, h x mem_cons_self, ih fun y hy => h y (mem_cons_of_mem _ hy)]
    cases hq : q x with
    | true => rw [filter_cons_of_pos hq]
    | false => rw [filter_cons_of_neg (by simp [hq])]

theorem candidates_eq (kept : List RecipeEdge) :
    keepWhere (onCycle kept) kept = some (kept.filter (fun e => decide (OnCycle kept e))) := by
  apply keepWhere_eq
  intro e _
  obtain ⟨answer, hrun, hiff⟩ := onCycle_spec kept e
  rw [hrun, Option.some.injEq, Bool.eq_iff_iff, hiff, decide_eq_true_eq]

/-- The candidate that goes: the first of the sorted ones. -/
def weakest (stats : RecipeEdge → EdgeStats) (kept : List RecipeEdge) :
    Option RecipeEdge :=
  ((kept.filter (fun e => decide (OnCycle kept e))).insertionSort
    (fun a b => weakness stats a ≤ weakness stats b)).head?

variable {kept : List RecipeEdge}

theorem weakest_spec {stats : RecipeEdge → EdgeStats} {e : RecipeEdge}
    (h : weakest stats kept = some e) : e ∈ kept ∧ OnCycle kept e := by
  have hmem := mem_of_mem_head? h
  rw [(perm_insertionSort _ _).mem_iff, mem_filter, decide_eq_true_eq] at hmem
  exact hmem

theorem exists_weakest (stats : RecipeEdge → EdgeStats)
    (h : ¬ Acyclic (Linked kept)) : ∃ e, weakest stats kept = some e := by
  obtain ⟨e, he, hc⟩ := exists_onCycle h
  rw [← Option.isSome_iff_exists, weakest, isSome_head?]
  apply ne_nil_of_mem (a := e)
  rw [(perm_insertionSort _ _).mem_iff, mem_filter, decide_eq_true_eq]
  exact ⟨he, hc⟩

theorem breakLoop_acyclic (stats : RecipeEdge → EdgeStats) (turns : Nat)
    (h : Acyclic (Linked kept)) : breakLoop stats turns kept = some kept := by
  obtain ⟨found, hrun, hiff⟩ := hasCycle_spec kept
  cases found with
  | true => exact absurd h (hiff.mp rfl)
  | false => rw [breakLoop, hrun]

theorem breakLoop_cyclic (stats : RecipeEdge → EdgeStats) (turns : Nat)
    {e : RecipeEdge} (h : ¬ Acyclic (Linked kept)) (he : weakest stats kept = some e) :
    breakLoop stats (turns + 1) kept = breakLoop stats turns (kept.erase e) := by
  obtain ⟨found, hrun, hiff⟩ := hasCycle_spec kept
  have hfound : found = true := hiff.mpr h
  subst hfound
  rw [breakLoop, hrun, candidates_eq]
  rw [weakest] at he
  dsimp only
  split
  · next hs =>
    rw [hs] at he
    cases he
  · next hs _ => cases ‹_›
  · next hs ht =>
    rw [hs] at he
    cases he
    cases ht
    rfl

theorem breakLoop_spec (stats : RecipeEdge → EdgeStats) {turns : Nat}
    (hturns : kept.length ≤ turns) :
    ∃ result, breakLoop stats turns kept = some result ∧ Acyclic (Linked result) ∧
      result.Sublist kept ∧ ∀ e, ¬ OnCycle kept e → result.count e = kept.count e := by
  induction turns generalizing kept with
  | zero =>
    have hnil : kept = [] := eq_nil_of_length_eq_zero (Nat.le_zero.mp hturns)
    subst hnil
    have hac : Acyclic (Linked []) := acyclic_of_isEmpty fun x y ⟨e, he, _⟩ => by cases he
    exact ⟨[], breakLoop_acyclic stats 0 hac, hac, List.Sublist.refl _, fun _ _ => rfl⟩
  | succ turns ih =>
    by_cases hac : Acyclic (Linked kept)
    · exact ⟨kept, breakLoop_acyclic stats _ hac, hac, List.Sublist.refl _, fun _ _ => rfl⟩
    · obtain ⟨e, he⟩ := exists_weakest stats hac
      obtain ⟨hmem, hcycle⟩ := weakest_spec he
      have hlength : (kept.erase e).length ≤ turns := by
        rw [length_erase_of_mem hmem]
        omega
      obtain ⟨result, hrun, hres, hsub, hcount⟩ := ih hlength
      refine ⟨result, (breakLoop_cyclic stats turns hac he).trans hrun, hres,
        hsub.trans erase_sublist, fun d hd => ?_⟩
      have hde : d ≠ e := fun h => hd (h ▸ hcycle)
      rw [hcount d fun h => hd (h.mono fun x hx => mem_of_mem_erase hx),
        count_erase_of_ne hde]

private theorem onCycle_perm {kept' : List RecipeEdge} (h : kept.Perm kept')
    (e : RecipeEdge) : OnCycle kept e ↔ OnCycle kept' e :=
  ⟨OnCycle.mono fun _ hx => h.subset hx, OnCycle.mono fun _ hx => h.symm.subset hx⟩

private theorem acyclic_perm {kept' : List RecipeEdge} (h : kept.Perm kept') :
    Acyclic (Linked kept) ↔ Acyclic (Linked kept') :=
  acyclic_congr fun x y =>
    ⟨linked_mono (fun _ hx => h.subset hx) x y, linked_mono (fun _ hx => h.symm.subset hx) x y⟩

private theorem weakness_injective (stats : RecipeEdge → EdgeStats) {a b : RecipeEdge}
    (h : weakness stats a = weakness stats b) : a = b := by
  obtain ⟨s, t, r⟩ := a
  obtain ⟨s', t', r'⟩ := b
  have h' := toLex.injective h
  obtain ⟨_, h₁⟩ := Prod.mk.inj h'
  obtain ⟨hs, h₂⟩ := Prod.mk.inj (toLex.injective h₁)
  obtain ⟨ht, hr⟩ := Prod.mk.inj (toLex.injective h₂)
  exact RecipeEdge.mk.injEq .. ▸ ⟨hs, ht, hr⟩

theorem weakest_perm (stats : RecipeEdge → EdgeStats) {kept' : List RecipeEdge}
    (h : kept.Perm kept') : weakest stats kept = weakest stats kept' := by
  have hfilter : (fun e => decide (OnCycle kept e)) = fun e => decide (OnCycle kept' e) := by
    funext e
    rw [Bool.eq_iff_iff, decide_eq_true_eq, decide_eq_true_eq]
    exact onCycle_perm h e
  have hperm := (((perm_insertionSort (fun a b => weakness stats a ≤ weakness stats b) _).trans
    (h.filter (fun e => decide (OnCycle kept e)))).trans
      (perm_insertionSort (fun a b => weakness stats a ≤ weakness stats b) _).symm)
  rw [weakest, weakest, ← hfilter]
  congr 1
  apply hperm.eq_of_pairwise
  · exact fun a b _ _ hab hba => weakness_injective stats (le_antisymm hab hba)
  · exact pairwise_insertionSort _ _
  · exact pairwise_insertionSort _ _

theorem breakLoop_perm (stats : RecipeEdge → EdgeStats) {turns : Nat}
    {kept' result : List RecipeEdge} (h : kept.Perm kept') (hturns : kept.length ≤ turns)
    (hrun : breakLoop stats turns kept = some result) :
    ∃ result', breakLoop stats turns kept' = some result' ∧ result'.Perm result := by
  induction turns generalizing kept kept' with
  | zero =>
    have hnil : kept = [] := eq_nil_of_length_eq_zero (Nat.le_zero.mp hturns)
    subst hnil
    rw [h.nil_eq] at hrun
    exact ⟨result, by rw [← h.nil_eq] at hrun ⊢; exact hrun, List.Perm.refl _⟩
  | succ turns ih =>
    by_cases hac : Acyclic (Linked kept)
    · rw [breakLoop_acyclic stats _ hac] at hrun
      cases hrun
      exact ⟨kept', breakLoop_acyclic stats _ ((acyclic_perm h).mp hac), h.symm⟩
    · obtain ⟨e, he⟩ := exists_weakest stats hac
      rw [breakLoop_cyclic stats turns hac he] at hrun
      obtain ⟨result', hrun', hperm⟩ := ih (h.erase e) (by
        rw [length_erase_of_mem (weakest_spec he).1]
        omega) hrun
      refine ⟨result', ?_, hperm⟩
      rw [breakLoop_cyclic stats turns (fun h' => hac ((acyclic_perm h).mpr h'))
        ((weakest_perm stats h) ▸ he), hrun']

/-- A skill pack: its nodes and its edges; metadata is not read by the order. -/
structure SkillPack where
  nodes : List String
  edges : List RecipeEdge

/-- `sorted` on edge tuples. -/
def sortEdges (edges : List RecipeEdge) : List RecipeEdge :=
  edges.insertionSort (fun a b => toLex (a.source, toLex (a.target, a.relation)) ≤
    toLex (b.source, toLex (b.target, b.relation)))

/-- `_build_skill_pack`: nodes and edges sorted, the nodes as keys. -/
def buildSkillPack (memberIds : List String) (edges : List RecipeEdge) : SkillPack where
  nodes := (memberIds.insertionSort (· ≤ ·)).dedup
  edges := sortEdges edges

/-- `topological_order`; edges to nodes outside the pack are left out. -/
def topologicalOrder (pack : SkillPack) : Option (List String) :=
  KahnOrder.order pack.nodes
    ((pack.edges.filter (fun e => e.source ∈ pack.nodes ∧ e.target ∈ pack.nodes)).map
      RecipeEdge.arrow)

/-- A pack built from acyclic edges has an order: every node once, each source before its
target. -/
theorem topologicalOrder_spec (hac : Acyclic (Linked edges)) (memberIds : List String) :
    ∃ order, topologicalOrder (buildSkillPack memberIds edges) = some order ∧
      order.Perm memberIds.dedup ∧
      ∀ e ∈ edges, e.source ∈ memberIds → e.target ∈ memberIds →
        order.idxOf e.source < order.idxOf e.target := by
  have hnodes : ∀ x, x ∈ (buildSkillPack memberIds edges).nodes ↔ x ∈ memberIds := by
    intro x
    rw [buildSkillPack, mem_dedup, (perm_insertionSort _ _).mem_iff]
  have hedges : ∀ e, e ∈ (buildSkillPack memberIds edges).edges ↔ e ∈ edges :=
    fun e => (perm_insertionSort _ _).mem_iff
  let arrows := ((buildSkillPack memberIds edges).edges.filter (fun e =>
    e.source ∈ (buildSkillPack memberIds edges).nodes ∧
      e.target ∈ (buildSkillPack memberIds edges).nodes)).map RecipeEdge.arrow
  have harrows : ∀ a, a ∈ arrows ↔
      ∃ e ∈ edges, (e.source ∈ memberIds ∧ e.target ∈ memberIds) ∧ e.arrow = a := by
    intro a
    simp only [arrows, mem_map, mem_filter, decide_eq_true_eq, hedges, hnodes, and_assoc]
  have hac' : Acyclic (fun x y => (x, y) ∈ arrows) := by
    refine hac.mono fun x y hxy => ?_
    obtain ⟨e, he, _, harrow⟩ := (harrows _).mp hxy
    obtain ⟨hs, ht⟩ := Prod.mk.inj harrow
    exact ⟨e, he, hs, ht⟩
  have hends : ∀ a ∈ arrows, a.1 ∈ (buildSkillPack memberIds edges).nodes ∧
      a.2 ∈ (buildSkillPack memberIds edges).nodes := by
    intro a ha
    obtain ⟨e, _, hmem, rfl⟩ := (harrows _).mp ha
    exact ⟨(hnodes _).mpr hmem.1, (hnodes _).mpr hmem.2⟩
  obtain ⟨order, hrun, hperm, hbefore⟩ :=
    KahnOrder.order_spec (nodup_dedup _) hends hac'
  refine ⟨order, hrun, hperm.trans ?_, fun e he hs ht => ?_⟩
  · refine (perm_ext_iff_of_nodup (nodup_dedup _) (nodup_dedup _)).mpr fun x => ?_
    exact (hnodes x).trans mem_dedup.symm
  · exact hbefore e.arrow ((harrows _).mpr ⟨e, he, ⟨hs, ht⟩, rfl⟩)

/-- For every list of edges with supports, cycle breaking returns an acyclic part of it that
keeps every edge on no cycle, the same edges for every order of the list; every skill pack
built from edges of the result has a topological order. -/
theorem recipe_structures (stats : RecipeEdge → EdgeStats) (edges : List RecipeEdge) :
    ∃ kept, breakCycles edges stats = some kept ∧ Acyclic (Linked kept) ∧ kept.Sublist edges ∧
      (∀ e, ¬ OnCycle edges e → kept.count e = edges.count e) ∧
      (∀ edges', edges.Perm edges' → ∃ kept', breakCycles edges' stats = some kept' ∧
        kept'.Perm kept) ∧
      ∀ (packEdges : List RecipeEdge) (memberIds : List String), (∀ e ∈ packEdges, e ∈ kept) →
        ∃ order, topologicalOrder (buildSkillPack memberIds packEdges) = some order ∧
          order.Perm memberIds.dedup ∧
          ∀ e ∈ packEdges, e.source ∈ memberIds → e.target ∈ memberIds →
            order.idxOf e.source < order.idxOf e.target := by
  obtain ⟨kept, hrun, hac, hsub, hcount⟩ := breakLoop_spec stats (Nat.le_refl edges.length)
  refine ⟨kept, hrun, hac, hsub, hcount, fun edges' hperm ↦ ?_, fun packEdges memberIds hpack ↦ ?_⟩
  · obtain ⟨kept', hrun', hperm'⟩ := breakLoop_perm stats hperm (Nat.le_refl _) hrun
    refine ⟨kept', ?_, hperm'⟩
    rw [breakCycles, ← hperm.length_eq, hrun']
  · exact topologicalOrder_spec (hac.mono (linked_mono hpack)) memberIds

end JiuwenSpec.Symphony.Flow

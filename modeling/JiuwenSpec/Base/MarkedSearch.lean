import JiuwenSpec.Base.DepthFirst

/-!
# Recursive search with marks

Two traversals over the children of a node. `explore` collects what can be reached, from a
worklist on which a node may stand more than once. `visit` looks for a cycle by recursion,
with the visited nodes and the nodes of the current path as two sets; a node that is visited
and no longer on the path lies on no cycle and leads only to such nodes.
-/

namespace JiuwenSpec.Base.MarkedSearch

open Relation Base.DepthFirst List

universe u

variable {α : Type u}

variable {nodes : Finset α}

section Explore

variable [DecidableEq α]

/-- Take nodes off the worklist until it is empty; `none` when the turns ran out first. -/
def explore (children : α → List α) : Nat → List α → List α → Option (List α)
  | _, reached, [] => some reached
  | 0, _, _ :: _ => none
  | turns + 1, reached, node :: pending =>
    if node ∈ reached then explore children turns reached pending
    else explore children turns (node :: reached) ((children node).reverse ++ pending)

def exploreWork (children : α → List α) (nodes : Finset α) (reached pending : List α) : Nat :=
  pending.length + ∑ x ∈ nodes.filter (· ∉ reached), (children x).length

private theorem exploreWork_reach {children : α → List α}
    {reached pending : List α} {node : α} (hnode : node ∈ nodes) (hnew : node ∉ reached) :
    exploreWork children nodes (node :: reached) ((children node).reverse ++ pending) + 1 =
      exploreWork children nodes reached (node :: pending) := by
  have hmem : node ∈ nodes.filter (· ∉ reached) := by simp [hnode, hnew]
  have herase : nodes.filter (· ∉ node :: reached) = (nodes.filter (· ∉ reached)).erase node := by
    ext x
    simp only [Finset.mem_filter, Finset.mem_erase, mem_cons, not_or]
    exact ⟨fun ⟨hx, hne, hr⟩ => ⟨hne, hx, hr⟩, fun ⟨hne, hx, hr⟩ => ⟨hx, hne, hr⟩⟩
  have hsum := Finset.add_sum_erase _ (fun x => (children x).length) hmem
  rw [exploreWork, exploreWork, herase, ← hsum]
  simp only [length_append, length_reverse, length_cons]
  omega

theorem explore_spec {children : α → List α}
    (hnodes : ∀ x, ∀ y ∈ children x, y ∈ nodes) {turns : Nat} {reached pending : List α}
    (hpending : ∀ x ∈ pending, x ∈ nodes)
    (hclosed : ∀ x ∈ reached, ∀ y ∈ children x, y ∈ reached ∨ y ∈ pending)
    (hturns : exploreWork children nodes reached pending ≤ turns) :
    ∃ all, explore children turns reached pending = some all ∧
      (∀ x, x ∈ reached ∨ x ∈ pending → x ∈ all) ∧
      (∀ x ∈ all, ∀ y ∈ children x, y ∈ all) ∧
      ∀ x ∈ all, x ∈ reached ∨ ∃ p ∈ pending, ReflTransGen (Child children) p x := by
  induction turns generalizing reached pending with
  | zero =>
    cases pending with
    | nil =>
      refine ⟨reached, by rw [explore], by simp, fun x hx y hy => ?_, fun x hx => Or.inl hx⟩
      simpa using hclosed x hx y hy
    | cons node pending =>
      simp [exploreWork] at hturns
  | succ turns ih =>
    cases pending with
    | nil =>
      refine ⟨reached, by rw [explore], by simp, fun x hx y hy => ?_, fun x hx => Or.inl hx⟩
      simpa using hclosed x hx y hy
    | cons node pending =>
      have hrest : ∀ x ∈ pending, x ∈ nodes := fun x hx => hpending x (.tail _ hx)
      rw [explore]
      by_cases hmem : node ∈ reached
      · rw [if_pos hmem]
        obtain ⟨all, hrun, hall, hcl, hreach⟩ := ih hrest
          (fun x hx y hy => by
            rcases hclosed x hx y hy with hr | hp
            · exact Or.inl hr
            · rcases mem_cons.mp hp with rfl | hp
              · exact Or.inl hmem
              · exact Or.inr hp)
          (by
            rw [exploreWork, length_cons] at hturns
            rw [exploreWork]
            omega)
        refine ⟨all, hrun, fun x hx => ?_, hcl, fun x hx => ?_⟩
        · rcases hx with hr | hp
          · exact hall x (Or.inl hr)
          · rcases mem_cons.mp hp with rfl | hp
            · exact hall x (Or.inl hmem)
            · exact hall x (Or.inr hp)
        · rcases hreach x hx with hr | ⟨p, hp, hpx⟩
          · exact Or.inl hr
          · exact Or.inr ⟨p, .tail _ hp, hpx⟩
      · rw [if_neg hmem]
        have hwork : exploreWork children nodes (node :: reached)
            ((children node).reverse ++ pending) + 1 = _ :=
          exploreWork_reach (hpending node (.head _)) hmem
        obtain ⟨all, hrun, hall, hcl, hreach⟩ := ih
          (fun x hx => by
            rcases mem_append.mp hx with hc | hp
            · exact hnodes node x (mem_reverse.mp hc)
            · exact hrest x hp)
          (fun x hx y hy => by
            rcases mem_cons.mp hx with rfl | hx
            · exact Or.inr (mem_append_left _ (mem_reverse.mpr hy))
            · rcases hclosed x hx y hy with hr | hp
              · exact Or.inl (.tail _ hr)
              · rcases mem_cons.mp hp with rfl | hp
                · exact Or.inl (.head _)
                · exact Or.inr (mem_append_right _ hp))
          (by omega)
        refine ⟨all, hrun, fun x hx => ?_, hcl, fun x hx => ?_⟩
        · rcases hx with hr | hp
          · exact hall x (Or.inl (.tail _ hr))
          · rcases mem_cons.mp hp with rfl | hp
            · exact hall x (Or.inl (.head _))
            · exact hall x (Or.inr (mem_append_right _ hp))
        · rcases hreach x hx with hr | ⟨p, hp, hpx⟩
          · rcases mem_cons.mp hr with rfl | hr
            · exact Or.inr ⟨x, .head _, .refl⟩
            · exact Or.inl hr
          · rcases mem_append.mp hp with hc | hp
            · exact Or.inr ⟨node, .head _, .head (mem_reverse.mp hc) hpx⟩
            · exact Or.inr ⟨p, .tail _ hp, hpx⟩

theorem explore_start {children : α → List α}
    (hnodes : ∀ x, ∀ y ∈ children x, y ∈ nodes) {start : α} (hstart : start ∈ nodes) {turns : Nat}
    (hturns : exploreWork children nodes [] [start] ≤ turns) :
    ∃ all, explore children turns [] [start] = some all ∧
      ∀ x, x ∈ all ↔ ReflTransGen (Child children) start x := by
  obtain ⟨all, hrun, hall, hcl, hreach⟩ :=
    explore_spec hnodes (by simpa using hstart) (by simp) hturns
  refine ⟨all, hrun, fun x => ⟨fun hx => ?_, fun hx => ?_⟩⟩
  · rcases hreach x hx with hr | ⟨p, hp, hpx⟩
    · cases hr
    · rwa [mem_singleton.mp hp] at hpx
  · induction hx with
    | refl => exact hall start (Or.inr (.head _))
    | tail _ hchild ih => exact hcl _ ih _ hchild

end Explore

/-- The visited nodes, and those on the current path, the last one first. -/
structure Marks (α : Type u) where
  visited : List α
  stack : List α

section Visit

variable [DecidableEq α]

/-- Visit nodes one after another until one visit finds a cycle. -/
def anyVisit (visit : α → Marks α → Option (Bool × Marks α)) :
    List α → Marks α → Option (Bool × Marks α)
  | [], m => some (false, m)
  | x :: xs, m =>
    match visit x m with
    | none => none
    | some (true, m') => some (true, m')
    | some (false, m') => anyVisit visit xs m'

/-- Visit a node: a node of the current path closes a cycle, a visited one is passed over, and
otherwise its children are visited with it on the path. `none` when the recursion is cut off. -/
def visit (children : α → List α) : Nat → α → Marks α → Option (Bool × Marks α)
  | 0, node, m =>
    if node ∈ m.stack then some (true, m)
    else if node ∈ m.visited then some (false, m)
    else none
  | depth + 1, node, m =>
    if node ∈ m.stack then some (true, m)
    else if node ∈ m.visited then some (false, m)
    else
      match anyVisit (visit children depth) (children node)
          ⟨node :: m.visited, node :: m.stack⟩ with
      | none => none
      | some (true, m') => some (true, m')
      | some (false, m') => some (false, ⟨m'.visited, m'.stack.filter (· ≠ node)⟩)

def Marks.Finished (m : Marks α) (x : α) : Prop := x ∈ m.visited ∧ x ∉ m.stack

/-- The path runs along the children, and finished nodes lead to finished nodes and lie on no
cycle. -/
structure Marks.Ok (children : α → List α) (m : Marks α) : Prop where
  stack_visited : ∀ x ∈ m.stack, x ∈ m.visited
  nodup : m.stack.Nodup
  path : m.stack.IsChain (fun x y => Child children y x)
  closed : ∀ x, m.Finished x → ∀ y ∈ children x, m.Finished y
  acyclic : ∀ x, m.Finished x → ¬ TransGen (Child children) x x

variable {children : α → List α} {m : Marks α}

def unvisitedCount (nodes : Finset α) (m : Marks α) : Nat :=
  (nodes.filter (· ∉ m.visited)).card

omit [DecidableEq α] in
theorem Marks.Ok.reach_top (hm : m.Ok children) {top : α} {below : List α}
    (hstack : m.stack = top :: below) : ∀ x ∈ m.stack, ReflTransGen (Child children) x top := by
  have hpath := hm.path
  rw [hstack] at hpath ⊢
  clear hstack
  induction below generalizing top with
  | nil =>
    intro x hx
    rw [mem_singleton.mp hx]
  | cons next below ih =>
    rw [isChain_cons_cons] at hpath
    intro x hx
    rcases mem_cons.mp hx with rfl | hx
    · exact .refl
    · exact (ih hpath.2 x hx).tail hpath.1

/-- What visits that find no cycle leave: the path as it was, more visited nodes, and the
nodes asked for among the finished ones. -/
structure Visited (children : α → List α) (m m' : Marks α) (asked : List α) : Prop where
  ok : m'.Ok children
  stack_eq : m'.stack = m.stack
  mono : ∀ x ∈ m.visited, x ∈ m'.visited
  finished : ∀ x ∈ asked, m'.Finished x

/-- What a call returns: a cycle there is, or what the visits leave. -/
def Answers (children : α → List α) (m : Marks α) (asked : List α)
    (r : Option (Bool × Marks α)) : Prop :=
  (∃ m', r = some (true, m') ∧ ∃ x, TransGen (Child children) x x) ∨
    ∃ m', r = some (false, m') ∧ Visited children m m' asked

theorem anyVisit_answers {depth : Nat}
    (hvisit : ∀ (x : α) (m : Marks α), m.Ok children → x ∈ nodes →
      (∀ top, m.stack.head? = some top → Child children top x) →
      unvisitedCount nodes m ≤ depth → Answers children m [x] (visit children depth x m))
    {asked : List α} (hm : m.Ok children) (hasked : ∀ x ∈ asked, x ∈ nodes)
    (htop : ∀ top, m.stack.head? = some top → ∀ x ∈ asked, Child children top x)
    (hdepth : unvisitedCount nodes m ≤ depth) :
    Answers children m asked (anyVisit (visit children depth) asked m) := by
  induction asked generalizing m with
  | nil => exact Or.inr ⟨m, rfl, hm, rfl, fun x hx => hx, by simp⟩
  | cons x xs ih =>
    rw [anyVisit]
    rcases hvisit x m hm (hasked x (.head _))
        (fun top ht => htop top ht x (.head _)) hdepth with
      ⟨m', hrun, hcycle⟩ | ⟨m', hrun, hleft⟩
    · rw [hrun]
      exact Or.inl ⟨m', rfl, hcycle⟩
    · rw [hrun]
      have hcount : unvisitedCount nodes m' ≤ unvisitedCount nodes m := by
        apply Finset.card_le_card
        intro y hy
        rw [Finset.mem_filter] at hy ⊢
        exact ⟨hy.1, fun hv => hy.2 (hleft.mono y hv)⟩
      rcases ih hleft.ok (fun y hy => hasked y (.tail _ hy))
          (fun top ht y hy => htop top (hleft.stack_eq ▸ ht) y (.tail _ hy))
          (hcount.trans hdepth) with
        ⟨m'', hrun', hcycle⟩ | ⟨m'', hrun', hleft'⟩
      · exact Or.inl ⟨m'', hrun', hcycle⟩
      · refine Or.inr ⟨m'', hrun', hleft'.ok, hleft'.stack_eq.trans hleft.stack_eq,
          fun y hy => hleft'.mono y (hleft.mono y hy), fun y hy => ?_⟩
        rcases mem_cons.mp hy with rfl | hy
        · have hfin := hleft.finished y (.head _)
          refine ⟨hleft'.mono y hfin.1, ?_⟩
          rw [hleft'.stack_eq]
          exact hfin.2
        · exact hleft'.finished y hy

omit [DecidableEq α] in
theorem Marks.Ok.push (hm : m.Ok children) {node : α} (hnew : node ∉ m.visited)
    (htop : ∀ top, m.stack.head? = some top → Child children top node) :
    Marks.Ok children ⟨node :: m.visited, node :: m.stack⟩ where
  stack_visited := by
    intro x hx
    rcases mem_cons.mp hx with rfl | hx
    · exact .head _
    · exact .tail _ (hm.stack_visited x hx)
  nodup := nodup_cons.mpr ⟨fun hs => hnew (hm.stack_visited node hs), hm.nodup⟩
  path := by
    have hpath := hm.path
    cases hs : m.stack with
    | nil => exact isChain_singleton _
    | cons top below =>
      rw [hs] at hpath
      exact isChain_cons_cons.mpr ⟨htop top (by rw [hs, List.head?_cons]), hpath⟩
  closed := by
    rintro x ⟨hv, hs⟩ y hy
    have hne : x ≠ node := fun he => hs (he ▸ mem_cons_self)
    obtain ⟨hyv, hys⟩ := hm.closed x
      ⟨(mem_cons.mp hv).resolve_left hne, fun h => hs (.tail _ h)⟩ y hy
    refine ⟨.tail _ hyv, fun h => ?_⟩
    rcases mem_cons.mp h with rfl | h
    · exact hnew hyv
    · exact hys h
  acyclic := by
    rintro x ⟨hv, hs⟩
    have hne : x ≠ node := fun he => hs (he ▸ mem_cons_self)
    exact hm.acyclic x
      ⟨(mem_cons.mp hv).resolve_left hne, fun h => hs (.tail _ h)⟩

theorem Marks.Ok.pop {node : α} {stack : List α} (hm : m.Ok children)
    (hstack : m.stack = node :: stack) (hkids : ∀ y ∈ children node, m.Finished y) :
    Marks.Ok children ⟨m.visited, stack⟩ := by
  have hnd := hm.nodup
  have hpath := hm.path
  rw [hstack] at hnd hpath
  have hfin : ∀ x, Marks.Finished ⟨m.visited, stack⟩ x → x = node ∨ m.Finished x := by
    rintro x ⟨hv, hs⟩
    by_cases hx : x = node
    · exact Or.inl hx
    · refine Or.inr ⟨hv, ?_⟩
      rw [hstack, mem_cons, not_or]
      exact ⟨hx, hs⟩
  have hdown : ∀ x, m.Finished x → Marks.Finished ⟨m.visited, stack⟩ x := by
    rintro x ⟨hv, hs⟩
    rw [hstack, mem_cons, not_or] at hs
    exact ⟨hv, hs.2⟩
  refine ⟨fun x hx => hm.stack_visited x (by rw [hstack]; exact mem_cons_of_mem _ hx),
    (nodup_cons.mp hnd).2, hpath.tail, ?_, ?_⟩
  · intro x hx y hy
    rcases hfin x hx with rfl | hx
    · exact hdown y (hkids y hy)
    · exact hdown y (hm.closed x hx y hy)
  · intro x hx hcyc
    rcases hfin x hx with rfl | hx
    · -- the children are finished and finished nodes lead to finished ones, but `x` is not
      obtain ⟨y, hxy, hyx⟩ := TransGen.head'_iff.mp hcyc
      have hreach : ∀ z, ReflTransGen (Child children) y z → m.Finished z := by
        intro z hz
        induction hz with
        | refl => exact hkids y hxy
        | tail _ hstep ih => exact hm.closed _ ih _ hstep
      exact (hreach x hyx).2 (by rw [hstack]; exact mem_cons_self)
    · exact hm.acyclic x hx hcyc

omit [DecidableEq α] in
theorem Marks.Ok.cycle (hm : m.Ok children) {node : α} (hmem : node ∈ m.stack)
    (htop : ∀ top, m.stack.head? = some top → Child children top node) :
    ∃ x, TransGen (Child children) x x := by
  cases hs : m.stack with
  | nil => simp [hs] at hmem
  | cons top below =>
    exact ⟨node, TransGen.tail' (hm.reach_top hs node hmem)
      (htop top (by rw [hs, List.head?_cons]))⟩

theorem unvisitedCount_push {x : α} (hx : x ∈ nodes) (hv : x ∉ m.visited) :
    unvisitedCount nodes ⟨x :: m.visited, x :: m.stack⟩ < unvisitedCount nodes m := by
  apply Finset.card_lt_card
  refine Finset.ssubset_iff_subset_ne.mpr ⟨fun y hy => ?_, fun he => ?_⟩
  · rw [Finset.mem_filter] at hy ⊢
    exact ⟨hy.1, fun hyv => hy.2 (.tail _ hyv)⟩
  · have hmem : x ∈ nodes.filter (· ∉ m.visited) := by simp [hx, hv]
    rw [← he, Finset.mem_filter] at hmem
    exact hmem.2 (.head _)

theorem filter_pushed {stack : List α} {x : α} (hs : x ∉ stack) :
    (x :: stack).filter (· ≠ x) = stack := by
  rw [filter_cons_of_neg (by simp), filter_eq_self.mpr]
  intro y hy
  have hyx : y ≠ x := fun he => hs (he ▸ hy)
  simpa using hyx

omit [DecidableEq α] in
theorem answers_known {x : α} (hm : m.Ok children) (hs : x ∉ m.stack) (hv : x ∈ m.visited) :
    Answers children m [x] (some (false, m)) := by
  refine Or.inr ⟨m, rfl, hm, rfl, fun y hy => hy, fun y hy => ?_⟩
  rw [mem_singleton.mp hy]
  exact ⟨hv, hs⟩

theorem visit_answers (hnodes : ∀ x, ∀ y ∈ children x, y ∈ nodes)
    (depth : Nat) : ∀ (x : α) (m : Marks α), m.Ok children → x ∈ nodes →
      (∀ top, m.stack.head? = some top → Child children top x) →
      unvisitedCount nodes m ≤ depth → Answers children m [x] (visit children depth x m) := by
  induction depth with
  | zero =>
    intro x m hm hx htop hdepth
    rw [visit]
    split
    · next hs => exact Or.inl ⟨m, rfl, hm.cycle hs htop⟩
    · next hs =>
      split
      · next hv => exact answers_known hm hs hv
      · next hv =>
        have hmem : x ∈ nodes.filter (· ∉ m.visited) := by simp [hx, hv]
        have hpos : 0 < unvisitedCount nodes m := Finset.card_pos.mpr ⟨x, hmem⟩
        omega
  | succ depth ih =>
    intro x m hm hx htop hdepth
    rw [visit]
    split
    · next hs => exact Or.inl ⟨m, rfl, hm.cycle hs htop⟩
    · next hs =>
      split
      · next hv => exact answers_known hm hs hv
      · next hv =>
        have hcount := unvisitedCount_push hx hv
        have hpush := hm.push hv htop
        rcases anyVisit_answers ih hpush (hnodes x)
            (fun top ht y hy => by
              cases ht
              exact hy) (by omega) with
          ⟨m', hrun, hcycle⟩ | ⟨m', hrun, hleft⟩
        · rw [hrun]
          exact Or.inl ⟨m', rfl, hcycle⟩
        · rw [hrun]
          have hstack : m'.stack = x :: m.stack := hleft.stack_eq
          have hfilter : m'.stack.filter (· ≠ x) = m.stack := hstack ▸ filter_pushed hs
          refine Or.inr ⟨_, rfl, ?_, hfilter, fun y hy => ?_, fun y hy => ?_⟩
          · rw [hfilter]
            exact hleft.ok.pop hstack hleft.finished
          · exact hleft.mono y (.tail _ hy)
          · rw [mem_singleton.mp hy, hfilter]
            exact ⟨hleft.mono x (.head _), hs⟩

theorem anyVisit_cycle_iff (hnodes : ∀ x, ∀ y ∈ children x, y ∈ nodes)
    {depth : Nat} (hdepth : nodes.card ≤ depth) {roots : List α} (hroots : ∀ x ∈ roots, x ∈ nodes)
    (hall : ∀ x, children x ≠ [] → x ∈ roots) :
    ∃ found m, anyVisit (visit children depth) roots ⟨[], []⟩ = some (found, m) ∧
      (found = true ↔ ¬ Acyclic (Child children)) := by
  have hempty : Marks.Ok children ⟨[], []⟩ :=
    { stack_visited := by simp
      nodup := nodup_nil
      path := isChain_nil
      closed := fun x hx => absurd hx.1 not_mem_nil
      acyclic := fun x hx => absurd hx.1 not_mem_nil }
  have hcount : unvisitedCount nodes ⟨[], []⟩ ≤ depth :=
    (Finset.card_le_card (Finset.filter_subset _ _)).trans hdepth
  rcases anyVisit_answers (visit_answers hnodes depth) hempty hroots (by simp) hcount with
    ⟨m, hrun, x, hx⟩ | ⟨m, hrun, hleft⟩
  · exact ⟨true, m, hrun, iff_of_true rfl (fun hac => hac x hx)⟩
  · refine ⟨false, m, hrun, iff_of_false (by simp) (not_not.mpr fun x hx => ?_)⟩
    obtain ⟨y, hxy, _⟩ := TransGen.head'_iff.mp hx
    exact hleft.ok.acyclic x (hleft.finished x (hall x (ne_nil_of_mem hxy))) hx

end Visit

end JiuwenSpec.Base.MarkedSearch

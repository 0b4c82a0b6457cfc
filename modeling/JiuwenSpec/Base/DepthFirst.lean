import JiuwenSpec.Base.Digraph
import Mathlib.Algebra.Order.BigOperators.Group.Finset
import Mathlib.Algebra.Order.Ring.Nat

/-!
# Three-colour depth-first search

The iterative search: a stack of frames, each a node with the children it has still to
visit; white nodes are untouched, gray nodes lie on the stack, black nodes are finished.
Meeting a gray child closes a cycle. Black nodes are closed under children and lie on no
cycle, so a search that finishes from every node with children proves acyclicity.
-/

namespace JiuwenSpec.Base.DepthFirst

open Relation List Function

universe u

variable {α : Type u}

inductive Color where
  | white
  | gray
  | black
  deriving DecidableEq

/-- The search state at the head of the loop; the top frame comes first. -/
structure Search (α : Type u) where
  color : α → Color
  path : List α
  stack : List (α × List α)

/-- One turn of the loop goes on, returns a cycle, or finds the stack empty. -/
inductive Turn (α : Type u) where
  | search (s : Search α)
  | cycle (nodes : List α)
  | done (color : α → Color)

/-- `y` is one of the children of `x`. -/
def Child (children : α → List α) (x y : α) : Prop := y ∈ children x

section Machine

variable [DecidableEq α]

/-- One turn: drop an exhausted frame, or look at the next child of the top frame. -/
def turn (children : α → List α) (s : Search α) : Turn α :=
  match s.stack with
  | [] => .done s.color
  | (node, []) :: below =>
    .search ⟨Function.update s.color node .black, s.path.dropLast, below⟩
  | (node, next :: rest) :: below =>
    match s.color next with
    | .gray => .cycle (s.path.drop (s.path.idxOf next) ++ [next])
    | .white =>
      .search ⟨Function.update s.color next .gray, s.path ++ [next],
        (next, children next) :: (node, rest) :: below⟩
    | .black => .search ⟨s.color, s.path, (node, rest) :: below⟩

/-- Turn until the search returns; `none` when the fuel ran out first. -/
def loop (children : α → List α) : Nat → Search α → Option (List α ⊕ (α → Color))
  | 0, _ => none
  | fuel + 1, s =>
    match turn children s with
    | .search s' => loop children fuel s'
    | .cycle nodes => some (.inl nodes)
    | .done color => some (.inr color)

def openAt (children : α → List α) (color : α → Color) (root : α) : Search α :=
  ⟨Function.update color root .gray, [root], [(root, children root)]⟩

/-- Search from every root that is still white; the first cycle met, if any. -/
def searchRoots (children : α → List α) (fuel : Nat) :
    List α → (α → Color) → Option (List α)
  | [], _ => none
  | root :: roots, color =>
    match color root with
    | .white =>
      match loop children fuel (openAt children color root) with
      | some (.inl nodes) => some nodes
      | some (.inr color') => searchRoots children fuel roots color'
      | none => none
    | _ => searchRoots children fuel roots color

end Machine

/-- Each frame has its children unvisited, finished, or on the frame above it. -/
def Frames (children : α → List α) (color : α → Color) : Option α → List (α × List α) → Prop
  | _, [] => True
  | above, (v, rest) :: below =>
    (∀ y ∈ rest, y ∈ children v) ∧
    (∀ y ∈ children v, y ∈ rest ∨ color y = .black ∨ above = some y) ∧
    (∀ y, above = some y → y ∈ children v) ∧
    Frames children color (some v) below

/-- The colours agree with the stack, and black nodes are closed and on no cycle. -/
structure Inv (children : α → List α) (s : Search α) : Prop where
  path_eq : s.path = (s.stack.map Prod.fst).reverse
  gray_iff : ∀ x, s.color x = .gray ↔ x ∈ s.stack.map Prod.fst
  nodup : (s.stack.map Prod.fst).Nodup
  frames : Frames children s.color none s.stack
  closed : ∀ x, s.color x = .black → ∀ y ∈ children x, s.color y = .black
  acyclic : ∀ x, s.color x = .black → ¬ TransGen (Child children) x x

variable {c : α → Color}

private theorem frames_mono {children : α → List α} {c' : α → Color}
    (h : ∀ x, c x = .black → c' x = .black) {above : Option α} {st : List (α × List α)}
    (hf : Frames children c above st) : Frames children c' above st := by
  induction st generalizing above with
  | nil => exact True.intro
  | cons fr below ih =>
    obtain ⟨v, rest⟩ := fr
    obtain ⟨hrest, hkids, habove, hbelow⟩ := hf
    refine ⟨hrest, fun y hy => ?_, habove, ih hbelow⟩
    rcases hkids y hy with hr | hb | ha
    · exact Or.inl hr
    · exact Or.inr (Or.inl (h y hb))
    · exact Or.inr (Or.inr ha)

private theorem frames_lower {children : α → List α} {v : α}
    (hv : c v = .black) {st : List (α × List α)}
    (hf : Frames children c (some v) st) : Frames children c none st := by
  cases st with
  | nil => exact True.intro
  | cons fr below =>
    obtain ⟨w, rest⟩ := fr
    obtain ⟨hrest, hkids, _, hbelow⟩ := hf
    refine ⟨hrest, fun y hy => ?_, (by simp), hbelow⟩
    rcases hkids y hy with hr | hb | ha
    · exact Or.inl hr
    · exact Or.inr (Or.inl hb)
    · exact Or.inr (Or.inl (Option.some.inj ha ▸ hv))

private theorem black_reach {children : α → List α}
    (hc : ∀ x, c x = .black → ∀ y ∈ children x, c y = .black) {x y : α}
    (hx : c x = .black) (h : ReflTransGen (Child children) x y) : c y = .black := by
  induction h with
  | refl => exact hx
  | tail _ hbc ih => exact hc _ ih _ hbc

theorem Frames.reach_top {children : α → List α} {above : Option α} {v : α}
    {rest : List α} {below : List (α × List α)}
    (hf : Frames children c above ((v, rest) :: below)) :
    ∀ x ∈ ((v, rest) :: below).map Prod.fst, ReflTransGen (Child children) x v := by
  induction below generalizing above v rest with
  | nil =>
    intro x hx
    have hxv : x = v := by simpa using hx
    exact hxv ▸ .refl
  | cons fr below ih =>
    obtain ⟨w, rest'⟩ := fr
    have hbelow := hf.2.2.2
    have hwv : Child children w v := hbelow.2.2.1 v rfl
    intro x hx
    rcases mem_cons.mp hx with rfl | hx
    · exact .refl
    · exact (ih hbelow x hx).tail hwv

section Preservation

variable [DecidableEq α] {children : α → List α} {s : Search α} {node : α}
  {below : List (α × List α)}

private theorem update_black {n x : α} {k : Color}
    (h : c x = .black) (hn : c n ≠ .black) : Function.update c n k x = .black := by
  have hxn : x ≠ n := fun he => hn (he ▸ h)
  rw [update_of_ne hxn, h]

theorem Inv.pop (hs : Inv children s) (hst : s.stack = (node, []) :: below) :
    Inv children ⟨Function.update s.color node .black, s.path.dropLast, below⟩ := by
  have hfr := hs.frames
  rw [hst] at hfr
  have hkids : ∀ y ∈ children node, s.color y = .black := by
    intro y hy
    rcases hfr.2.1 y hy with hr | hb | ha
    · simp at hr
    · exact hb
    · cases ha
  have hgray : s.color node = .gray := (hs.gray_iff node).mpr (by rw [hst]; simp)
  have hnb : s.color node ≠ .black := by rw [hgray]; decide
  have hnd := hs.nodup
  rw [hst, map_cons, nodup_cons] at hnd
  refine ⟨?_, ?_, hnd.2, ?_, ?_, ?_⟩
  · simp [hs.path_eq, hst]
  · intro x
    by_cases hx : x = node
    · subst hx
      simp [hnd.1]
    · change Function.update s.color node .black x = .gray ↔ _
      rw [update_of_ne hx, hs.gray_iff, hst]
      simp [hx]
  · exact frames_lower (by simp)
      (frames_mono (fun x hx => update_black hx hnb) hfr.2.2.2)
  · intro x hx y hy
    by_cases hxn : x = node
    · subst hxn
      exact update_black (hkids y hy) hnb
    · change Function.update s.color node .black x = .black at hx
      rw [update_of_ne hxn] at hx
      exact update_black (hs.closed x hx y hy) hnb
  · intro x hx hcyc
    by_cases hxn : x = node
    · -- the children are black and black nodes reach black nodes only, but `node` is gray
      subst hxn
      obtain ⟨y, hxy, hyx⟩ := TransGen.head'_iff.mp hcyc
      exact hnb (black_reach hs.closed (hkids y hxy) hyx)
    · change Function.update s.color node .black x = .black at hx
      rw [update_of_ne hxn] at hx
      exact hs.acyclic x hx hcyc

theorem Inv.push (hs : Inv children s) {next : α} {rest : List α}
    (hst : s.stack = (node, next :: rest) :: below) (hw : s.color next = .white) :
    Inv children ⟨Function.update s.color next .gray, s.path ++ [next],
      (next, children next) :: (node, rest) :: below⟩ := by
  have hfr := hs.frames
  rw [hst] at hfr
  have hnb : s.color next ≠ .black := by rw [hw]; decide
  have hout : next ∉ s.stack.map Prod.fst := by
    intro hm
    have := (hs.gray_iff next).mpr hm
    rw [hw] at this
    cases this
  have hblack : ∀ x, Function.update s.color next .gray x = .black → s.color x = .black := by
    intro x hx
    by_cases hxn : x = next
    · subst hxn
      simp at hx
    · rwa [update_of_ne hxn] at hx
  rw [hst] at hout
  refine ⟨?_, ?_, ?_, ?_, ?_, ?_⟩
  · simp [hs.path_eq, hst]
  · intro x
    by_cases hx : x = next
    · subst hx
      simp
    · change Function.update s.color next .gray x = .gray ↔ _
      rw [update_of_ne hx, hs.gray_iff, hst]
      simp [hx]
  · have hnd := hs.nodup
    rw [hst] at hnd
    exact nodup_cons.mpr ⟨by simpa using hout, by simpa using hnd⟩
  · refine ⟨fun y hy => hy, fun y hy => Or.inl hy, (by simp), ?_, ?_, ?_, ?_⟩
    · exact fun y hy => hfr.1 y (.tail _ hy)
    · intro y hy
      rcases hfr.2.1 y hy with hr | hb | ha
      · rcases mem_cons.mp hr with rfl | hr
        · exact Or.inr (Or.inr rfl)
        · exact Or.inl hr
      · exact Or.inr (Or.inl (update_black hb hnb))
      · cases ha
    · intro y hy
      exact Option.some.inj hy ▸ hfr.1 next (mem_cons_self ..)
    · exact frames_mono (fun x hx => update_black hx hnb) hfr.2.2.2
  · exact fun x hx y hy => update_black (hs.closed x (hblack x hx) y hy) hnb
  · exact fun x hx => hs.acyclic x (hblack x hx)

omit [DecidableEq α] in
theorem Inv.skip (hs : Inv children s) {next : α} {rest : List α}
    (hst : s.stack = (node, next :: rest) :: below) (hb : s.color next = .black) :
    Inv children ⟨s.color, s.path, (node, rest) :: below⟩ := by
  have hfr := hs.frames
  have hnd := hs.nodup
  rw [hst] at hfr hnd
  refine ⟨?_, ?_, by simpa using hnd, ?_, hs.closed, hs.acyclic⟩
  · simp [hs.path_eq, hst]
  · intro x
    rw [hs.gray_iff x, hst]
    simp
  · refine ⟨fun y hy => hfr.1 y (mem_cons_of_mem _ hy), fun y hy => ?_, (by simp), hfr.2.2.2⟩
    rcases hfr.2.1 y hy with hr | hk | ha
    · rcases mem_cons.mp hr with rfl | hr
      · exact Or.inr (Or.inl hb)
      · exact Or.inl hr
    · exact Or.inr (Or.inl hk)
    · cases ha

theorem Inv.turn (hs : Inv children s) {s' : Search α}
    (h : DepthFirst.turn children s = .search s') : Inv children s' := by
  unfold DepthFirst.turn at h
  split at h
  · cases h
  · next hst =>
    cases h
    exact hs.pop hst
  · next hst =>
    split at h
    · cases h
    · next hw =>
      cases h
      exact hs.push hst hw
    · next hb =>
      cases h
      exact hs.skip hst hb

end Preservation

variable {nodes : Finset α}

section Termination

variable [DecidableEq α] {children : α → List α}

def work (children : α → List α) (nodes : Finset α) : Nat :=
  ∑ x ∈ nodes, (1 + (children x).length)

/-- The turns left: unopened nodes and the open frames. -/
def remaining (children : α → List α) (nodes : Finset α) (s : Search α) : Nat :=
  work children (nodes.filter (fun x => s.color x = .white)) +
    (s.stack.map (fun f => 1 + f.2.length)).sum

private theorem work_filter_update (nodes : Finset α) {x : α} (k : Color)
    (hx : x ∈ nodes) (hw : c x = .white) (hk : k ≠ .white) :
    work children (nodes.filter (fun y => c y = .white)) =
      (1 + (children x).length) +
        work children (nodes.filter (fun y => Function.update c x k y = .white)) := by
  have hmem : x ∈ nodes.filter (fun y => c y = .white) := by simp [hx, hw]
  have herase : nodes.filter (fun y => Function.update c x k y = .white) =
      (nodes.filter (fun y => c y = .white)).erase x := by
    ext y
    by_cases hy : y = x
    · subst hy
      simp [hk]
    · simp [hy]
  rw [herase, work, work, Finset.add_sum_erase _ (fun y => 1 + (children y).length) hmem]

private theorem filter_update_of_ne (nodes : Finset α) {x : α} (k : Color)
    (hw : c x ≠ .white) (hk : k ≠ .white) :
    nodes.filter (fun y => Function.update c x k y = .white) =
      nodes.filter (fun y => c y = .white) := by
  ext y
  by_cases hy : y = x
  · subst hy
    simp [hw, hk]
  · simp [hy]

theorem remaining_turn (hnodes : ∀ x, ∀ y ∈ children x, y ∈ nodes)
    {s s' : Search α} (hs : Inv children s) (h : turn children s = .search s') :
    remaining children nodes s = remaining children nodes s' + 1 := by
  unfold turn at h
  split at h
  · cases h
  · next node below hst =>
    cases h
    have hgray : s.color node = .gray := (hs.gray_iff node).mpr (by rw [hst]; simp)
    rw [remaining, remaining, hst, filter_update_of_ne _ _ (by simp [hgray]) (by simp)]
    simp
    omega
  · next node next rest below hst =>
    have hfr := hs.frames
    rw [hst] at hfr
    have hnext : next ∈ nodes := hnodes node next (hfr.1 next (mem_cons_self ..))
    split at h
    · cases h
    · next hw =>
      cases h
      rw [remaining, remaining, hst, work_filter_update _ .gray hnext hw (by simp)]
      simp
      omega
    · cases h
      rw [remaining, remaining, hst]
      simp
      omega

theorem loop_returns (hnodes : ∀ x, ∀ y ∈ children x, y ∈ nodes)
    {fuel : Nat} {s : Search α} (hs : Inv children s)
    (hfuel : remaining children nodes s < fuel) : loop children fuel s ≠ none := by
  induction fuel generalizing s with
  | zero => omega
  | succ fuel ih =>
    rw [loop]
    cases ht : turn children s with
    | search s' =>
      have := remaining_turn hnodes hs ht
      exact ih (hs.turn ht) (by omega)
    | cycle nodes => simp
    | done color => simp

end Termination

/-- Between two roots: no node is open, and finished nodes are closed and on no cycle. -/
structure Settled (children : α → List α) (color : α → Color) : Prop where
  no_gray : ∀ x, color x ≠ .gray
  closed : ∀ x, color x = .black → ∀ y ∈ children x, color y = .black
  acyclic : ∀ x, color x = .black → ¬ TransGen (Child children) x x

theorem settled_white (children : α → List α) : Settled children (fun _ => .white) where
  no_gray := by simp
  closed := by simp
  acyclic := by simp

section Decision

variable [DecidableEq α] {children : α → List α}

variable {color : α → Color}

theorem Settled.openAt (hc : Settled children color) {root : α}
    (hw : color root = .white) : Inv children (DepthFirst.openAt children color root) := by
  have hnb : color root ≠ .black := by rw [hw]; decide
  have hblack : ∀ x, Function.update color root .gray x = .black → color x = .black := by
    intro x hx
    by_cases hxr : x = root
    · subst hxr
      simp at hx
    · rwa [update_of_ne hxr] at hx
  refine ⟨rfl, ?_, by simp [DepthFirst.openAt], ?_, ?_, ?_⟩
  · intro x
    by_cases hx : x = root
    · subst hx
      simp [DepthFirst.openAt]
    · change Function.update color root .gray x = .gray ↔ _
      rw [update_of_ne hx]
      simp [DepthFirst.openAt, hx, hc.no_gray x]
  · exact ⟨fun y hy => hy, fun y hy => Or.inl hy, by simp, True.intro⟩
  · exact fun x hx y hy => update_black (hc.closed x (hblack x hx) y hy) hnb
  · exact fun x hx => hc.acyclic x (hblack x hx)

theorem turn_opened {s s' : Search α} (h : turn children s = .search s') {x : α}
    (hx : s.color x ≠ .white) : s'.color x ≠ .white := by
  have hup : ∀ (n : α) (k : Color), k ≠ .white → Function.update s.color n k x ≠ .white := by
    intro n k hk
    by_cases hxn : x = n
    · subst hxn
      simpa using hk
    · rwa [update_of_ne hxn]
  unfold turn at h
  split at h
  · cases h
  · cases h
    exact hup _ _ (by decide)
  · split at h
    · cases h
    · cases h
      exact hup _ _ (by decide)
    · cases h
      exact hx

theorem Inv.cycle {s : Search α} (hs : Inv children s) {nodes : List α}
    (h : DepthFirst.turn children s = .cycle nodes) : ∃ x, TransGen (Child children) x x := by
  unfold DepthFirst.turn at h
  split at h
  · cases h
  · cases h
  · next node next rest below hst =>
    split at h
    · next hg =>
      have hfr := hs.frames
      have hmem := (hs.gray_iff next).mp hg
      rw [hst] at hfr hmem
      have hreach := hfr.reach_top next hmem
      exact ⟨next, TransGen.tail' hreach (hfr.1 next (mem_cons_self ..))⟩
    · cases h
    · cases h

theorem loop_cycle {fuel : Nat} {s : Search α} (hs : Inv children s) {nodes : List α}
    (h : loop children fuel s = some (.inl nodes)) : ∃ x, TransGen (Child children) x x := by
  induction fuel generalizing s with
  | zero => cases h
  | succ fuel ih =>
    rw [loop] at h
    cases ht : turn children s with
    | search s' =>
      rw [ht] at h
      exact ih (hs.turn ht) h
    | cycle nodes' => exact hs.cycle ht
    | done color =>
      rw [ht] at h
      cases h

private theorem turn_done {s : Search α}
    (h : turn children s = .done color) : s.stack = [] ∧ color = s.color := by
  unfold turn at h
  split at h
  · next hst =>
    cases h
    exact ⟨hst, rfl⟩
  · cases h
  · split at h <;> cases h

theorem loop_done {fuel : Nat} {s : Search α} (hs : Inv children s)
    (h : loop children fuel s = some (.inr color)) :
    Settled children color ∧ ∀ x, s.color x ≠ .white → color x ≠ .white := by
  induction fuel generalizing s with
  | zero => cases h
  | succ fuel ih =>
    rw [loop] at h
    cases ht : turn children s with
    | search s' =>
      rw [ht] at h
      obtain ⟨hset, hop⟩ := ih (hs.turn ht) h
      exact ⟨hset, fun x hx => hop x (turn_opened ht hx)⟩
    | cycle nodes =>
      rw [ht] at h
      cases h
    | done c =>
      rw [ht] at h
      cases h
      obtain ⟨hst, rfl⟩ := turn_done ht
      refine ⟨⟨fun x hx => ?_, hs.closed, hs.acyclic⟩, fun x hx => hx⟩
      have hmem := (hs.gray_iff x).mp hx
      simp [hst] at hmem

theorem remaining_openAt_le {root : α} (hroot : root ∈ nodes) (hw : color root = .white) :
    remaining children nodes (openAt children color root) ≤ work children nodes := by
  have hsplit : work children (nodes.filter (fun y => color y = .white)) = _ :=
    work_filter_update nodes .gray hroot hw (by decide)
  have hle : work children (nodes.filter (fun y => color y = .white)) ≤ work children nodes :=
    Finset.sum_le_sum_of_subset (Finset.filter_subset _ _)
  have hrem : remaining children nodes (openAt children color root) =
      work children (nodes.filter (fun y => Function.update color root .gray y = .white)) +
        (1 + (children root).length) := rfl
  omega

theorem searchRoots_none (hnodes : ∀ x, ∀ y ∈ children x, y ∈ nodes)
    {fuel : Nat} (hfuel : work children nodes < fuel) {roots : List α}
    (hroots : ∀ x ∈ roots, x ∈ nodes) (hc : Settled children color)
    (h : searchRoots children fuel roots color = none) :
    ∃ color', Settled children color' ∧ (∀ x ∈ roots, color' x = .black) ∧
      ∀ x, color x = .black → color' x = .black := by
  induction roots generalizing color with
  | nil => exact ⟨color, hc, by simp, fun x hx => hx⟩
  | cons root roots ih =>
    have hroots' : ∀ x ∈ roots, x ∈ nodes := fun x hx => hroots x (.tail _ hx)
    rw [searchRoots] at h
    by_cases hw : color root = .white
    · simp only [hw] at h
      have hlt : remaining children nodes (openAt children color root) ≤ work children nodes :=
        remaining_openAt_le (hroots root (mem_cons_self ..)) hw
      cases hl : loop children fuel (openAt children color root) with
      | none => exact absurd hl (loop_returns hnodes (hc.openAt hw) (by omega))
      | some r =>
        cases r with
        | inl cyc =>
          rw [hl] at h
          cases h
        | inr color₁ =>
          rw [hl] at h
          obtain ⟨hset, hop⟩ := loop_done (hc.openAt hw) hl
          have hdone : ∀ x, Function.update color root .gray x ≠ .white →
              color₁ x = .black := by
            intro x hx
            cases hk : color₁ x with
            | white => exact absurd hk (hop x hx)
            | gray => exact absurd hk (hset.no_gray x)
            | black => rfl
          obtain ⟨color₂, hset₂, hbl, hmono⟩ := ih hroots' hset h
          refine ⟨color₂, hset₂, ?_, fun x hx => hmono x (hdone x ?_)⟩
          · intro x hx
            rcases mem_cons.mp hx with rfl | hx
            · exact hmono x (hdone x (by simp))
            · exact hbl x hx
          · have hxr : x ≠ root := by
              rintro rfl
              rw [hw] at hx
              cases hx
            rw [update_of_ne hxr, hx]
            decide
    · have hbl : color root = .black := by
        cases hk : color root with
        | white => exact absurd hk hw
        | gray => exact absurd hk (hc.no_gray root)
        | black => rfl
      simp only [hbl] at h
      obtain ⟨color₂, hset₂, hroots₂, hmono⟩ := ih hroots' hc h
      refine ⟨color₂, hset₂, ?_, hmono⟩
      intro x hx
      rcases mem_cons.mp hx with rfl | hx
      · exact hmono x hbl
      · exact hroots₂ x hx

theorem searchRoots_cycle {fuel : Nat} {roots : List α}
    (hc : Settled children color) {nodes : List α}
    (h : searchRoots children fuel roots color = some nodes) :
    ∃ x, TransGen (Child children) x x := by
  induction roots generalizing color with
  | nil => cases h
  | cons root roots ih =>
    rw [searchRoots] at h
    split at h
    · next hw =>
      split at h
      · next hl => exact loop_cycle (hc.openAt hw) hl
      · next hl => exact ih (loop_done (hc.openAt hw) hl).1 h
      · cases h
    · exact ih hc h

theorem searchRoots_eq_none_iff (hnodes : ∀ x, ∀ y ∈ children x, y ∈ nodes) {fuel : Nat}
    (hfuel : work children nodes < fuel) {roots : List α} (hroots : ∀ x ∈ roots, x ∈ nodes)
    (hall : ∀ x, children x ≠ [] → x ∈ roots) :
    searchRoots children fuel roots (fun _ => .white) = none ↔ Acyclic (Child children) := by
  constructor
  · intro h x hcyc
    obtain ⟨color, hset, hblack, _⟩ :=
      searchRoots_none hnodes hfuel hroots (settled_white children) h
    obtain ⟨y, hxy, _⟩ := TransGen.head'_iff.mp hcyc
    exact hset.acyclic x (hblack x (hall x (ne_nil_of_mem hxy))) hcyc
  · intro hac
    cases h : searchRoots children fuel roots (fun _ => .white) with
    | none => rfl
    | some cyc =>
      obtain ⟨x, hx⟩ := searchRoots_cycle (settled_white children) h
      exact absurd hx (hac x)

end Decision

end JiuwenSpec.Base.DepthFirst

import JiuwenSpec.Base.DepthFirst

/-!
# The cycle a depth-first search reports

The nodes on the stack form a path, so a gray child of the top frame closes a cycle: the
part of the path from that child on, followed by the child again. With more fuel than the
search has work the answer no longer depends on the fuel.
-/

namespace JiuwenSpec.Base.DepthFirst

open Relation List

universe u

variable {α : Type u}

/-- A closed path along the arrows that meets no node twice before it returns. -/
def IsCycle (r : α → α → Prop) (nodes : List α) : Prop :=
  ∃ start path, nodes = start :: path ++ [start] ∧ (start :: path).Nodup ∧ nodes.IsChain r

section Path

variable {children : α → List α}

theorem Frames.isChain {c : α → Color} {above : Option α} {st : List (α × List α)}
    (hf : Frames children c above st) :
    (above.toList ++ st.map Prod.fst).IsChain (fun x y => Child children y x) := by
  induction st generalizing above with
  | nil => cases above <;> simp
  | cons fr below ih =>
    obtain ⟨v, rest⟩ := fr
    have hbelow : (v :: below.map Prod.fst).IsChain (fun x y => Child children y x) :=
      ih hf.2.2.2
    cases above with
    | none => exact hbelow
    | some y => exact isChain_cons_cons.mpr ⟨hf.2.2.1 y rfl, hbelow⟩

theorem Inv.path_isChain {s : Search α} (hs : Inv children s) :
    s.path.IsChain (Child children) ∧ s.path.Nodup := by
  rw [hs.path_eq]
  exact ⟨isChain_reverse.mpr hs.frames.isChain, nodup_reverse.mpr hs.nodup⟩

variable [DecidableEq α]

theorem Inv.isCycle {s : Search α} (hs : Inv children s) {nodes : List α}
    (h : DepthFirst.turn children s = .cycle nodes) : IsCycle (Child children) nodes := by
  unfold DepthFirst.turn at h
  split at h
  · cases h
  · cases h
  · next node next rest below hst =>
    split at h
    · next hg =>
      cases h
      have hmem : next ∈ s.path := by
        rw [hs.path_eq, mem_reverse]
        exact (hs.gray_iff next).mp hg
      obtain ⟨hchain, hnodup⟩ := hs.path_isChain
      have hdrop : s.path.drop (s.path.idxOf next) =
          next :: s.path.drop (s.path.idxOf next + 1) := by
        rw [drop_eq_getElem_cons (idxOf_lt_length_iff.mpr hmem), getElem_idxOf]
      have hlast : s.path.getLast? = some node := by
        rw [hs.path_eq, hst]
        simp
      refine ⟨next, s.path.drop (s.path.idxOf next + 1), ?_, ?_, ?_⟩
      · rw [hdrop, cons_append]
      · rw [← hdrop]
        exact hnodup.sublist (drop_sublist _ _)
      · rw [isChain_append]
        refine ⟨hchain.drop _, by simp, fun x hx y hy => ?_⟩
        have hx' : s.path.getLast? = some x := by
          rw [← hx, List.getLast?_drop, if_neg]
          exact Nat.not_le.mpr (idxOf_lt_length_iff.mpr hmem)
        have hxn : node = x := Option.some.inj (hlast.symm.trans hx')
        have hyn : next = y := by simpa using hy
        have hfr := hs.frames
        rw [hst] at hfr
        rw [← hxn, ← hyn]
        exact hfr.1 next (mem_cons_self ..)
    · cases h
    · cases h

theorem loop_isCycle {fuel : Nat} {s : Search α} (hs : Inv children s) {nodes : List α}
    (h : loop children fuel s = some (.inl nodes)) : IsCycle (Child children) nodes := by
  induction fuel generalizing s with
  | zero => cases h
  | succ fuel ih =>
    rw [loop] at h
    cases ht : turn children s with
    | search s' =>
      rw [ht] at h
      exact ih (hs.turn ht) h
    | cycle nodes' =>
      rw [ht] at h
      cases h
      exact hs.isCycle ht
    | done color =>
      rw [ht] at h
      cases h

theorem searchRoots_isCycle {fuel : Nat} {roots : List α} {color : α → Color}
    (hc : Settled children color) {nodes : List α}
    (h : searchRoots children fuel roots color = some nodes) :
    IsCycle (Child children) nodes := by
  induction roots generalizing color with
  | nil => cases h
  | cons root roots ih =>
    rw [searchRoots] at h
    split at h
    · next hw =>
      split at h
      · next hl =>
        cases h
        exact loop_isCycle (hc.openAt hw) hl
      · next hl => exact ih (loop_done (hc.openAt hw) hl).1 h
      · cases h
    · exact ih hc h

end Path

section Fuel

variable [DecidableEq α] {children : α → List α}

/-- The search from every white root, which says when its fuel ran out. -/
def searchWithin (children : α → List α) (fuel : Nat) :
    List α → (α → Color) → Option (Option (List α))
  | [], _ => some none
  | root :: roots, color =>
    match color root with
    | .white =>
      match loop children fuel (openAt children color root) with
      | some (.inl nodes) => some (some nodes)
      | some (.inr color') => searchWithin children fuel roots color'
      | none => none
    | _ => searchWithin children fuel roots color

theorem loop_mono {fuel more : Nat} (hle : fuel ≤ more) {s : Search α}
    {r : List α ⊕ (α → Color)} (h : loop children fuel s = some r) :
    loop children more s = some r := by
  induction fuel generalizing more s with
  | zero => cases h
  | succ fuel ih =>
    obtain ⟨more, rfl⟩ := Nat.exists_eq_succ_of_ne_zero (Nat.ne_of_gt (Nat.lt_of_lt_of_le
      (Nat.succ_pos fuel) hle))
    rw [loop] at h ⊢
    cases ht : turn children s with
    | search s' =>
      rw [ht] at h
      exact ih (Nat.le_of_succ_le_succ hle) h
    | cycle nodes =>
      rw [ht] at h
      exact h
    | done color =>
      rw [ht] at h
      exact h

theorem searchWithin_eq {nodes : Finset α} (hnodes : ∀ x, ∀ y ∈ children x, y ∈ nodes)
    {bound fuel : Nat} (hbound : work children nodes < bound) (hfuel : bound ≤ fuel)
    {roots : List α} (hroots : ∀ x ∈ roots, x ∈ nodes) {color : α → Color}
    (hc : Settled children color) :
    searchWithin children fuel roots color = some (searchRoots children bound roots color) := by
  induction roots generalizing color with
  | nil => rfl
  | cons root roots ih =>
    have hroots' : ∀ x ∈ roots, x ∈ nodes := fun x hx => hroots x (.tail _ hx)
    rw [searchWithin, searchRoots]
    by_cases hw : color root = .white
    · simp only [hw]
      have hlt : remaining children nodes (openAt children color root) ≤ work children nodes :=
        remaining_openAt_le (hroots root (mem_cons_self ..)) hw
      cases hl : loop children bound (openAt children color root) with
      | none => exact absurd hl (loop_returns hnodes (hc.openAt hw) (by omega))
      | some r =>
        rw [loop_mono hfuel hl]
        cases r with
        | inl cyc => rfl
        | inr color' => exact ih hroots' (loop_done (hc.openAt hw) hl).1
    · cases hk : color root with
      | white => exact absurd hk hw
      | gray => exact absurd hk (hc.no_gray root)
      | black => exact ih hroots' hc

end Fuel

end JiuwenSpec.Base.DepthFirst

import JiuwenSpec.Permission.PathRules

/-!
# The order of path rules

Prefixes of different lengths and globs are judged alike in every order. Of several rules with the
longest prefix the first one counts, so that the order decides where they differ on the action and
no matching glob is as strict as all of them. Source: `fileguard/file_guard.py`.
-/

namespace JiuwenSpec.Permission

open Base List

theorem order_inj {a b : Level} (h : a.order = b.order) : a = b := by
  cases a <;> cases b <;> first | rfl | cases h

theorem strictest_eq {ls : List Level} {l : Level} (hmem : l ∈ ls)
    (hmin : ∀ x ∈ ls, l.order ≤ x.order) : strictest ls = l := by
  cases ls with
  | nil => cases hmem
  | cons a ls =>
    obtain ⟨hspec, hle⟩ := strictest_spec a ls
    exact order_inj (Nat.le_antisymm (hle l hmem) (hmin _ hspec))

theorem strictest_congr {ls ls' : List Level} (h : ∀ l, l ∈ ls ↔ l ∈ ls') :
    strictest ls = strictest ls' := by
  cases ls with
  | nil =>
    cases ls' with
    | nil => rfl
    | cons b ls' => exact absurd ((h b).mpr (.head _)) not_mem_nil
  | cons a ls =>
    obtain ⟨hmem, hle⟩ := strictest_spec a ls
    exact (strictest_eq ((h _).mp hmem) fun x hx => hle x ((h x).mpr hx)).symm

def PathRule.isLongest (rules : List PathRule) (path : String) (rule : PathRule) : Bool :=
  rule.covers path && rules.all fun other =>
    !other.covers path || other.base.length ≤ rule.base.length

def longestRules (rules : List PathRule) (path : String) : List PathRule :=
  rules.filter (PathRule.isLongest rules path)

/-- The strictest of the longest prefixes and the globs, or the default where there is none. -/
def strictestLevel (defaults : Axes) (rules : List PathRule) (path : String)
    (action : PathAction) : Level :=
  match (longestRules rules path).map (fun rule => rule.axes.level action) ++
      globHits rules path action with
  | [] => defaults.level action
  | candidates => strictest candidates

variable {rules rules' : List PathRule} {path : String}

theorem isLongest_iff {rule : PathRule} : rule.isLongest rules path = true ↔
    rule.covers path = true ∧
      ∀ other ∈ rules, other.covers path = true → other.base.length ≤ rule.base.length := by
  simp [PathRule.isLongest, or_iff_not_imp_left]

theorem length_le_bestPrefix {q : PathRule} (hq : q ∈ rules) (hcovers : q.covers path = true) :
    ∃ r, bestPrefix rules path = some r ∧ q.base.length ≤ r.base.length := by
  induction rules using List.reverseRecOn with
  | nil => cases hq
  | append_singleton rules rule ih =>
    rw [bestPrefix_append]
    rcases mem_append.mp hq with hq | hq
    · obtain ⟨r, hr, hle⟩ := ih hq
      rw [hr]
      split
      · rw [better_some]
        split
        · next hlt => exact ⟨rule, rfl, hle.trans hlt.le⟩
        · exact ⟨r, rfl, hle⟩
      · exact ⟨r, rfl, hle⟩
    · cases mem_singleton.mp hq
      rw [if_pos hcovers]
      cases bestPrefix rules path with
      | none => exact ⟨q, rfl, le_rfl⟩
      | some b =>
        rw [better_some]
        split
        · exact ⟨q, rfl, le_rfl⟩
        · next hlt => exact ⟨b, rfl, Nat.not_lt.mp hlt⟩

theorem mem_longestRules {r : PathRule} : r ∈ longestRules rules path ↔
    r ∈ rules ∧ r.covers path = true ∧
      ∀ other ∈ rules, other.covers path = true → other.base.length ≤ r.base.length := by
  rw [longestRules, mem_filter, isLongest_iff]

theorem mem_longest_of_bestPrefix {r : PathRule} (h : bestPrefix rules path = some r) :
    r ∈ longestRules rules path := by
  obtain ⟨hmem, hcovers⟩ := covers_of_bestPrefix h
  refine mem_longestRules.mpr ⟨hmem, hcovers, fun other hother hcoversOther => ?_⟩
  obtain ⟨r', hr', hle⟩ := length_le_bestPrefix hother hcoversOther
  cases h.symm.trans hr'
  exact hle

theorem longestRules_eq_nil (h : bestPrefix rules path = none) : longestRules rules path = [] := by
  refine eq_nil_iff_forall_not_mem.mpr fun q hq => ?_
  obtain ⟨hmem, hcovers, -⟩ := mem_longestRules.mp hq
  obtain ⟨r, hr, -⟩ := length_le_bestPrefix hmem hcovers
  rw [h] at hr
  cases hr

theorem bestPrefix_cons {r : PathRule} (hr : r.covers path = true) {rest : List PathRule}
    (hrest : ∀ q ∈ rest, q.covers path = true → q.base.length ≤ r.base.length) :
    bestPrefix (r :: rest) path = some r := by
  induction rest using List.reverseRecOn with
  | nil => simp [bestPrefix, hr, better]
  | append_singleton rest q ih =>
    rw [← cons_append, bestPrefix_append,
      ih fun q' hq' => hrest q' (mem_append_left _ hq')]
    split
    · next hq => rw [better_some, if_neg (Nat.not_lt.mpr (hrest q (by simp) hq))]
    · rfl

theorem mem_longestRules_perm (h : rules'.Perm rules) (r : PathRule) :
    r ∈ longestRules rules' path ↔ r ∈ longestRules rules path := by
  simp only [mem_longestRules, h.mem_iff]

theorem mem_globHits_perm (h : rules'.Perm rules) (action : PathAction) (l : Level) :
    l ∈ globHits rules' path action ↔ l ∈ globHits rules path action := by
  simp only [globHits, mem_map, mem_filter, h.mem_iff]

/-- The longest prefixes agree on the action, or a matching glob is as strict as each of them. -/
def Settled (rules : List PathRule) (path : String) (action : PathAction) : Prop :=
  (∀ r ∈ longestRules rules path, ∀ r' ∈ longestRules rules path,
      r.axes.level action = r'.axes.level action) ∨
    ∃ l ∈ globHits rules path action, ∀ r ∈ longestRules rules path,
      l.order ≤ (r.axes.level action).order

/-- Every order of the rules gives the level, and it is the strictest of the longest prefixes and
the globs. -/
structure OrderFree (defaults : Axes) (rules : List PathRule) (path : String)
    (action : PathAction) : Prop where
  permuted : ∀ rules', rules'.Perm rules →
    resolveOne defaults rules' path action = resolveOne defaults rules path action
  strictest : resolveOne defaults rules path action = strictestLevel defaults rules path action

variable {defaults : Axes} {action : PathAction}

theorem strictest_of_settled (h : Settled rules path action) {r : PathRule}
    (hr : r ∈ longestRules rules path) :
    strictest (r.axes.level action :: globHits rules path action) =
      strictestLevel defaults rules path action := by
  have hlevel : strictestLevel defaults rules path action =
      strictest ((longestRules rules path).map (fun rule => rule.axes.level action) ++
        globHits rules path action) := by
    rw [strictestLevel]
    split
    · next hnil =>
      rw [append_eq_nil_iff, map_eq_nil_iff] at hnil
      rw [hnil.1] at hr
      cases hr
    · rfl
  obtain ⟨hmem, hmin⟩ := strictest_spec (r.axes.level action) (globHits rules path action)
  rw [hlevel, eq_comm]
  refine strictest_eq ?_ fun x hx => ?_
  · rcases mem_cons.mp hmem with heq | hglob
    · rw [heq]
      exact mem_append_left _ (mem_map.mpr ⟨r, hr, rfl⟩)
    · exact mem_append_right _ hglob
  · rcases mem_append.mp hx with hx | hx
    · obtain ⟨r', hr', rfl⟩ := mem_map.mp hx
      rcases h with hagree | ⟨l, hl, hle⟩
      · rw [← hagree r hr r' hr']
        exact hmin _ (.head _)
      · exact (hmin l (.tail _ hl)).trans (hle r' hr')
    · exact hmin x (.tail _ hx)

theorem resolveOne_of_settled (h : Settled rules path action) :
    resolveOne defaults rules path action = strictestLevel defaults rules path action := by
  rw [resolveOne]
  cases hbest : bestPrefix rules path with
  | none =>
    rw [strictestLevel, longestRules_eq_nil hbest]
    rfl
  | some r => exact strictest_of_settled h (mem_longest_of_bestPrefix hbest)

theorem settled_perm (h : rules'.Perm rules) (hs : Settled rules path action) :
    Settled rules' path action := by
  simpa only [Settled, mem_longestRules_perm h, mem_globHits_perm h] using hs

theorem strictestLevel_perm (h : rules'.Perm rules) :
    strictestLevel defaults rules' path action = strictestLevel defaults rules path action := by
  have hmem : ∀ l, l ∈ (longestRules rules' path).map (fun rule => rule.axes.level action) ++
        globHits rules' path action ↔
      l ∈ (longestRules rules path).map (fun rule => rule.axes.level action) ++
        globHits rules path action := fun l => by
    simp only [mem_append, mem_map, mem_longestRules_perm h, mem_globHits_perm h]
  rw [strictestLevel, strictestLevel]
  split
  · next hnil =>
    rw [hnil] at hmem
    rw [eq_nil_iff_forall_not_mem.mpr fun l hl => not_mem_nil ((hmem l).mpr hl)]
  · next hne =>
    split
    · next hnil =>
      rw [hnil] at hmem
      exact absurd (eq_nil_iff_forall_not_mem.mpr fun l hl =>
        not_mem_nil ((hmem l).mp hl)) hne
    · exact strictest_congr hmem

theorem level_of_permuted (h : ∀ rules', rules'.Perm rules →
      resolveOne defaults rules' path action = resolveOne defaults rules path action)
    {r : PathRule} (hr : r ∈ longestRules rules path) :
    strictest (r.axes.level action :: globHits rules path action) =
      resolveOne defaults rules path action := by
  obtain ⟨hmem, hcovers, hlongest⟩ := mem_longestRules.mp hr
  have hperm : (r :: rules.erase r).Perm rules := (perm_cons_erase hmem).symm
  have hbest : bestPrefix (r :: rules.erase r) path = some r :=
    bestPrefix_cons hcovers fun q hq hcoversq => hlongest q (mem_of_mem_erase hq) hcoversq
  rw [← h _ hperm, resolveOne, hbest, decideLevel_some]
  refine strictest_congr fun l => ?_
  rw [mem_cons, mem_cons, mem_globHits_perm hperm]

/-- The order of the rules decides nothing exactly when the longest prefixes agree on the action or
a matching glob is as strict as each of them. -/
theorem orderFree_iff (defaults : Axes) (rules : List PathRule) (path : String)
    (action : PathAction) : OrderFree defaults rules path action ↔ Settled rules path action := by
  constructor
  · intro h
    have hlevel := fun {r : PathRule} (hr : r ∈ longestRules rules path) =>
      level_of_permuted h.permuted hr
    by_cases hglob : resolveOne defaults rules path action ∈ globHits rules path action
    · refine .inr ⟨_, hglob, fun r hr => ?_⟩
      rw [← hlevel hr]
      exact (strictest_spec _ _).2 _ (.head _)
    · -- The level is none of the globs, so it is the level of each longest prefix.
      have hfirst : ∀ r ∈ longestRules rules path,
          r.axes.level action = resolveOne defaults rules path action := by
        intro r hr
        have hmem := (strictest_spec (r.axes.level action) (globHits rules path action)).1
        rw [hlevel hr, mem_cons] at hmem
        exact (hmem.resolve_right hglob).symm
      exact .inl fun r hr r' hr' => (hfirst r hr).trans (hfirst r' hr').symm
  · intro h
    refine ⟨fun rules' hperm => ?_, resolveOne_of_settled h⟩
    rw [resolveOne_of_settled (settled_perm hperm h), resolveOne_of_settled h,
      strictestLevel_perm hperm]

/-- Two rules for one directory, the first of which allows what the second forbids. -/
def allowThenDeny : List PathRule :=
  [⟨"/w", ⟨.allow, .allow, .allow⟩, false⟩, ⟨"/w", ⟨.deny, .deny, .deny⟩, false⟩]

theorem first_rule_decides : ¬ OrderFree ⟨.ask, .ask, .ask⟩ allowThenDeny "/w" .read := by
  intro h
  have hstrictest := h.strictest
  revert hstrictest
  decide

end JiuwenSpec.Permission

import JiuwenSpec.Permission.FileGuard

/-!
# Rules for one path

The best rule for an access at or below a path is the first rule of that path, unless a rule with a
longer prefix is there. So rules that differ in the rules of one path alone judge every access
that is not at or below it alike.
-/

namespace JiuwenSpec.Permission

open Base List

def PathRule.isFor (path : String) (rule : PathRule) : Bool := !rule.isGlob && rule.base = path

def offPath (path : String) (rules : List PathRule) : List PathRule :=
  rules.filter fun rule => !rule.isFor path

def firstFor (path : String) (rules : List PathRule) : Option PathRule :=
  rules.find? fun rule => rule.isFor path

theorem offPath_append (path : String) (rules rules' : List PathRule) :
    offPath path (rules ++ rules') = offPath path rules ++ offPath path rules' :=
  filter_append ..

theorem firstFor_append (path : String) (rules rules' : List PathRule) :
    firstFor path (rules ++ rules') = (firstFor path rules).or (firstFor path rules') :=
  List.find?_append ..

theorem isUnder_unique {a b path : String} (ha : isUnder a path = true) (hb : isUnder b path = true)
    (hlen : a.length = b.length) : a = b := by
  have hstarts : ∀ c : String, isUnder c path = true → c.toList <+: path.toList := by
    intro c hc
    rw [isUnder, Bool.or_eq_true, decide_eq_true_iff, List.isPrefixOf_iff_prefix] at hc
    rcases hc with rfl | hc
    · exact prefix_rfl
    · exact (prefix_append _ _).trans hc
  have hlist : a.toList.length = b.toList.length := by
    rw [String.length_toList, String.length_toList, hlen]
  have heq := (prefix_of_prefix_length_le (hstarts a ha) (hstarts b hb)
    hlist.le).eq_of_length hlist
  exact String.toList_inj.mp heq

theorem length_le_of_isUnder {a path : String} (h : isUnder a path = true) :
    a.length ≤ path.length := by
  rw [isUnder, Bool.or_eq_true, decide_eq_true_iff, List.isPrefixOf_iff_prefix] at h
  rcases h with rfl | h
  · exact le_rfl
  · have hle := ((prefix_append _ _).trans h).length_le
    rwa [String.length_toList, String.length_toList] at hle

theorem better_none (rule : PathRule) : better none rule = some rule := rfl

theorem better_some (b rule : PathRule) : better (some b) rule =
    if b.base.length < rule.base.length then some rule else some b := rfl

def pick (path : String) (off first : Option PathRule) : Option PathRule :=
  match first with
  | none => off
  | some r =>
    match off with
    | none => some r
    | some o => if path.length < o.base.length then some o else some r

theorem pick_none (path : String) (off : Option PathRule) : pick path off none = off := rfl

theorem pick_none_some (path : String) (r : PathRule) : pick path none (some r) = some r := rfl

theorem pick_some_some (path : String) (o r : PathRule) : pick path (some o) (some r) =
    if path.length < o.base.length then some o else some r := rfl

theorem bestPrefix_append (rules : List PathRule) (rule : PathRule) (q : String) :
    bestPrefix (rules ++ [rule]) q =
      if rule.covers q then better (bestPrefix rules q) rule else bestPrefix rules q := by
  rw [bestPrefix, foldl_append]
  rfl

theorem covers_of_bestPrefix {rules : List PathRule} {q : String} {r : PathRule}
    (h : bestPrefix rules q = some r) : r ∈ rules ∧ r.covers q = true := by
  induction rules using List.reverseRecOn with
  | nil => cases h
  | append_singleton rules rule ih =>
    rw [bestPrefix_append] at h
    have hold : bestPrefix rules q = some r → r ∈ rules ++ [rule] ∧ r.covers q = true := by
      intro hr
      exact ⟨mem_append_left _ (ih hr).1, (ih hr).2⟩
    by_cases hcovers : rule.covers q = true
    · have hnew : rule ∈ rules ++ [rule] ∧ rule.covers q = true := ⟨by simp, hcovers⟩
      rw [if_pos hcovers] at h
      cases hb : bestPrefix rules q with
      | none =>
        rw [hb] at h
        exact Option.some.inj h ▸ hnew
      | some b =>
        rw [hb, better_some] at h
        rw [hb] at hold
        split at h
        · exact Option.some.inj h ▸ hnew
        · exact hold h
    · rw [if_neg hcovers] at h
      exact hold h

theorem covers_eq_of_isFor {rule : PathRule} {path q : String} (h : rule.isFor path = true) :
    rule.covers q = isUnder path q := by
  rw [PathRule.isFor, Bool.and_eq_true, decide_eq_true_iff] at h
  rw [PathRule.covers, h.1, h.2, Bool.true_and]

theorem bestPrefix_split (path q : String) (rules : List PathRule) :
    bestPrefix rules q = pick path (bestPrefix (offPath path rules) q)
      (if isUnder path q then firstFor path rules else none) := by
  induction rules using List.reverseRecOn with
  | nil =>
    rw [firstFor, List.find?_nil, ite_self]
    rfl
  | append_singleton rules rule ih =>
    rw [bestPrefix_append, firstFor_append, offPath_append, ih]
    by_cases hfor : rule.isFor path = true
    · have hoff : offPath path [rule] = [] := by simp [offPath, hfor]
      have hfirst : firstFor path [rule] = some rule := by simp [firstFor, hfor]
      have hbase : rule.base = path := by
        rw [PathRule.isFor, Bool.and_eq_true, decide_eq_true_iff] at hfor
        exact hfor.2
      rw [hoff, append_nil, hfirst, covers_eq_of_isFor hfor]
      by_cases hunder : isUnder path q = true
      · rw [if_pos hunder, if_pos hunder, if_pos hunder]
        cases hold : firstFor path rules with
        | some r =>
          have hr := List.find?_some hold
          rw [PathRule.isFor, Bool.and_eq_true, decide_eq_true_iff] at hr
          rw [Option.some_or]
          cases bestPrefix (offPath path rules) q with
          | none => rw [pick_none_some, better_some, hr.2, hbase, if_neg (lt_irrefl _)]
          | some o =>
            rw [pick_some_some]
            split
            · next hlong => rw [better_some, hbase, if_neg hlong.asymm]
            · rw [better_some, hr.2, hbase, if_neg (lt_irrefl _)]
        | none =>
          rw [Option.none_or, pick_none]
          cases hbest : bestPrefix (offPath path rules) q with
          | none => rfl
          | some o =>
            obtain ⟨hmem, hcovers⟩ := covers_of_bestPrefix hbest
            have hnot := (mem_filter.mp hmem).2
            rw [PathRule.covers, Bool.and_eq_true] at hcovers
            have hne : o.base.length ≠ path.length := by
              intro hlen
              have hsame := isUnder_unique hcovers.2 hunder hlen
              rw [PathRule.isFor, hcovers.1, hsame] at hnot
              simp at hnot
            rw [better_some, pick_some_some, hbase]
            by_cases hlong : path.length < o.base.length
            · rw [if_neg hlong.asymm, if_pos hlong]
            · rw [if_pos (by omega), if_neg hlong]
      · rw [if_neg hunder, if_neg hunder, if_neg hunder]
    · have hoff : offPath path [rule] = [rule] := by simp [offPath, hfor]
      have hfirst : firstFor path [rule] = none := by simp [firstFor, hfor]
      have hbase : ∀ r, (if isUnder path q then firstFor path rules else none) = some r →
          r.base = path := by
        intro r h
        split at h
        · have hr := List.find?_some h
          rw [PathRule.isFor, Bool.and_eq_true, decide_eq_true_iff] at hr
          exact hr.2
        · cases h
      rw [hoff, hfirst, Option.or_none, bestPrefix_append]
      by_cases hcovers : rule.covers q = true
      · rw [if_pos hcovers, if_pos hcovers]
        generalize (if isUnder path q then firstFor path rules else none) = x at hbase
        cases x with
        | none => rfl
        | some r =>
          have hr := hbase r rfl
          cases bestPrefix (offPath path rules) q with
          | none => rw [pick_none_some, better_none, pick_some_some, better_some, hr]
          | some o =>
            rw [pick_some_some, better_some]
            by_cases hlong : path.length < o.base.length
            · rw [if_pos hlong, better_some]
              split
              · next hlonger => rw [pick_some_some, if_pos (hlong.trans hlonger)]
              · rw [pick_some_some, if_pos hlong]
            · rw [if_neg hlong, better_some, hr]
              by_cases hlonger : path.length < rule.base.length
              · rw [if_pos hlonger, if_pos (by omega), pick_some_some, if_pos hlonger]
              · rw [if_neg hlonger]
                split
                · rw [pick_some_some, if_neg hlonger]
                · rw [pick_some_some, if_neg hlong]
      · rw [if_neg hcovers, if_neg hcovers]

theorem order_le_two (l : Level) : l.order ≤ 2 := by cases l <;> decide

theorem stricter_mem (a b : Level) : a.stricter b = a ∨ a.stricter b = b := by
  rw [Level.stricter]
  split
  · exact .inr rfl
  · exact .inl rfl

theorem order_stricter (a b : Level) :
    (a.stricter b).order ≤ a.order ∧ (a.stricter b).order ≤ b.order := by
  cases a <;> cases b <;> decide

theorem strictest_spec (l : Level) (ls : List Level) :
    strictest (l :: ls) ∈ l :: ls ∧ ∀ x ∈ l :: ls, (strictest (l :: ls)).order ≤ x.order := by
  rw [strictest]
  induction ls generalizing l with
  | nil => simp
  | cons l' ls ih =>
    obtain ⟨hmem, hle⟩ := ih (l.stricter l')
    rw [foldl_cons]
    have hfirst := hle _ (.head _)
    have hstep := order_stricter l l'
    constructor
    · rcases mem_cons.mp hmem with heq | hmem
      · rcases stricter_mem l l' with h | h
        · rw [heq, h]
          exact .head _
        · rw [heq, h]
          exact .tail _ (.head _)
      · exact .tail _ (.tail _ hmem)
    · intro x hx
      rcases mem_cons.mp hx with rfl | hx
      · exact hfirst.trans hstep.1
      rcases mem_cons.mp hx with rfl | hx
      · exact hfirst.trans hstep.2
      · exact hle x (.tail _ hx)

variable {defaults : Axes} {globs : List Level} {action : PathAction}

theorem decideLevel_some (r : PathRule) : decideLevel defaults (some r) globs action =
    strictest (r.axes.level action :: globs) := rfl

theorem order_decideLevel_le {r : PathRule} (h : r.axes.level action = .allow)
    (x : Option PathRule) : (decideLevel defaults x globs action).order ≤
      (decideLevel defaults (some r) globs action).order := by
  rw [decideLevel_some, h]
  rcases mem_cons.mp (strictest_spec .allow globs).1 with hallow | hglob
  · rw [hallow]
    exact order_le_two _
  · cases x with
    | some s =>
      rw [decideLevel_some]
      exact (strictest_spec _ globs).2 _ (.tail _ hglob)
    | none =>
      cases globs with
      | nil => cases hglob
      | cons g globs => exact (strictest_spec g globs).2 _ hglob

theorem decideLevel_ne_allow {r : PathRule} (h : r.axes.level action ≠ .allow) :
    decideLevel defaults (some r) globs action ≠ .allow := by
  intro hallow
  rw [decideLevel_some, strictest_eq_allow_iff] at hallow
  exact h (hallow.2 _ (.head _))

theorem decideLevel_allow {r : PathRule} (h : r.axes.level action = .allow)
    (hglobs : ∀ l ∈ globs, l = .allow) : decideLevel defaults (some r) globs action = .allow := by
  rw [decideLevel_some, strictest_eq_allow_iff]
  exact ⟨cons_ne_nil _ _, forall_mem_cons.mpr ⟨h, hglobs⟩⟩

variable {rules rules' : List PathRule} {path : String}

theorem globHits_offPath (q : String) : globHits (offPath path rules) q action =
    globHits rules q action := by
  rw [globHits, globHits, offPath, filter_filter]
  congr 1
  refine filter_congr fun rule _ => ?_
  rw [PathRule.isFor]
  cases rule.isGlob <;> simp

theorem globHits_congr (h : offPath path rules' = offPath path rules) (q : String) :
    globHits rules' q action = globHits rules q action := by
  rw [← @globHits_offPath action rules' path, h, globHits_offPath]

def Granted (approved action : PathAction) : Prop := action = .read ∨ action = approved

/-- The rules after an approval: another first rule of the path, that allows what was granted and
asks for the rest or has it as before. -/
structure Approved (path : String) (approved : PathAction) (rules rules' : List PathRule) :
    Prop where
  off : offPath path rules' = offPath path rules
  first : ∃ r', firstFor path rules' = some r' ∧
    (∀ action, Granted approved action → r'.axes.level action = .allow) ∧
    ∀ action, ¬ Granted approved action → r'.axes.level action = .ask ∨
      ∃ r, firstFor path rules = some r ∧ r'.axes.level action = r.axes.level action

namespace Approved

variable {approved : PathAction}

theorem elsewhere (h : Approved path approved rules rules') {q : String}
    (hq : isUnder path q = false) :
    resolveOne defaults rules' q action = resolveOne defaults rules q action := by
  rw [resolveOne, resolveOne, globHits_congr h.off, bestPrefix_split path q rules',
    bestPrefix_split path q rules, h.off, hq]
  rfl

theorem granted (h : Approved path approved rules rules') (hgranted : Granted approved action)
    (q : String) : (resolveOne defaults rules q action).order ≤
      (resolveOne defaults rules' q action).order := by
  by_cases hq : isUnder path q = true
  · obtain ⟨r', hr', hallow, -⟩ := h.first
    rw [resolveOne, resolveOne, globHits_congr h.off, bestPrefix_split path q rules',
      bestPrefix_split path q rules, h.off, if_pos hq, if_pos hq, hr']
    cases bestPrefix (offPath path rules) q with
    | none => exact order_decideLevel_le (hallow action hgranted) _
    | some o =>
      rw [pick_some_some]
      by_cases hlong : path.length < o.base.length
      · rw [if_pos hlong]
        cases firstFor path rules with
        | none => exact le_rfl
        | some r => rw [pick_some_some, if_pos hlong]
      · rw [if_neg hlong]
        exact order_decideLevel_le (hallow action hgranted) _
  · rw [Bool.not_eq_true] at hq
    rw [h.elsewhere hq]

theorem not_granted (h : Approved path approved rules rules') (hnot : ¬ Granted approved action)
    {q : String} (hallow : resolveOne defaults rules' q action = .allow) :
    resolveOne defaults rules q action = .allow := by
  by_cases hq : isUnder path q = true
  · obtain ⟨r', hr', -, hrest⟩ := h.first
    rw [resolveOne, globHits_congr h.off, bestPrefix_split path q rules', h.off, if_pos hq,
      hr'] at hallow
    rw [resolveOne, bestPrefix_split path q rules, if_pos hq]
    have hfirst : decideLevel defaults (some r') (globHits rules q action) action = .allow →
        ∃ r, firstFor path rules = some r ∧
          decideLevel defaults (some r) (globHits rules q action) action = .allow := by
      intro hr'
      rcases hrest action hnot with hask | ⟨r, hr, hsame⟩
      · exact absurd hr' (decideLevel_ne_allow (by rw [hask]; decide))
      · refine ⟨r, hr, ?_⟩
        rw [decideLevel_some, hsame] at hr'
        exact hr'
    cases hoff : bestPrefix (offPath path rules) q with
    | none =>
      rw [hoff, pick_none_some] at hallow
      obtain ⟨r, hr, hlevel⟩ := hfirst hallow
      rw [hr, pick_none_some]
      exact hlevel
    | some o =>
      rw [hoff, pick_some_some] at hallow
      by_cases hlong : path.length < o.base.length
      · rw [if_pos hlong] at hallow
        cases firstFor path rules with
        | none => exact hallow
        | some r =>
          rw [pick_some_some, if_pos hlong]
          exact hallow
      · rw [if_neg hlong] at hallow
        obtain ⟨r, hr, hlevel⟩ := hfirst hallow
        rw [hr, pick_some_some, if_neg hlong]
        exact hlevel
  · rw [Bool.not_eq_true] at hq
    rwa [h.elsewhere hq] at hallow

end Approved

theorem resolveOne_first {r : PathRule} (hr : firstFor path rules = some r)
    (hallow : r.axes.level action = .allow)
    (hglobs : ∀ l ∈ globHits rules path action, l = .allow) :
    resolveOne defaults rules path action = .allow := by
  have hself : isUnder path path = true := by simp [isUnder]
  rw [resolveOne, bestPrefix_split path path rules, if_pos hself, hr]
  cases hoff : bestPrefix (offPath path rules) path with
  | none => exact decideLevel_allow hallow hglobs
  | some o =>
    have hcovers := (covers_of_bestPrefix hoff).2
    rw [PathRule.covers, Bool.and_eq_true] at hcovers
    rw [pick_some_some, if_neg (length_le_of_isUnder hcovers.2).not_gt]
    exact decideLevel_allow hallow hglobs

end JiuwenSpec.Permission

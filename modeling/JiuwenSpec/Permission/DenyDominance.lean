import JiuwenSpec.Permission.ToolPolicy

/-!
# When a deny rule decides

A rule that denies the command as given, its canonical form or one of its subcommands decides
the call where no stored approval applies to the whole command, the rules that are consulted
have actions that are levels, and, for a command whose subcommands are not known, the canonical
form itself is refused. Approvals of the whole command are consulted first, so each of them goes
before every rule.
-/

namespace JiuwenSpec.Permission

open Base List
open Option (bind_eq_bind bind_some mem_some_iff mem_toList)

theorem stricter_eq_deny_iff (a b : Level) : a.stricter b = .deny ↔ a = .deny ∨ b = .deny := by
  cases a <;> cases b <;> simp [Level.stricter, Level.order]

theorem strictest_eq_deny_iff {ls : List Level} : strictest ls = .deny ↔ .deny ∈ ls := by
  cases ls with
  | nil => simp [strictest]
  | cons l ls =>
    rw [strictest]
    induction ls generalizing l with
    | nil => simp [eq_comm]
    | cons l' ls ih =>
      rw [foldl_cons, ih]
      simp only [mem_cons, eq_comm (a := Level.deny), stricter_eq_deny_iff, or_assoc]

variable {re : Re} {sh : Shell} {cfg : Config} {tool : String} {args : ToolArgs}

def Config.Acts (re : Re) (cfg : Config) (tool : String) (args : ToolArgs) (rule : Rule) : Prop :=
  cfg.applies re tool args rule = true ∧ strip (rule.action.getD "") ≠ ""

def Config.Denies (re : Re) (cfg : Config) (tool : String) (args : ToolArgs)
    (rules : List Rule) : Prop :=
  ∃ rule ∈ rules, cfg.applies re tool args rule = true ∧
    parseLevel (rule.action.getD "") = some .deny

/-- A rule of the list acts by what is not a level. -/
def Config.Raises (re : Re) (cfg : Config) (tool : String) (args : ToolArgs)
    (rules : List Rule) : Prop :=
  ∃ rule ∈ rules, cfg.Acts re tool args rule ∧ parseLevel (rule.action.getD "") = none

/-- The rules give a verdict on the call, or none, without raising: the user rules are not
consulted where a builtin rule denies. -/
def Config.Judged (re : Re) (cfg : Config) (tool : String) (args : ToolArgs) : Prop :=
  ¬ cfg.Raises re tool args cfg.builtinRules ∧
    (cfg.Denies re tool args cfg.builtinRules ∨ ¬ cfg.Raises re tool args cfg.userRules)

/-- The call is refused by a rule, or by the fallback where nothing applies. -/
def Config.Refused (re : Re) (cfg : Config) (tool : String) (args : ToolArgs) : Prop :=
  cfg.Denies re tool args cfg.rules ∨
    ((∀ rule ∈ cfg.rules, ¬ cfg.Acts re tool args rule) ∧ cfg.overrideHits re tool args = [] ∧
      (cfg.fallback tool).1 = .deny)

theorem strip_ne_of_parseLevel {s : String} {l : Level} (h : parseLevel s = some l) :
    strip s ≠ "" := by
  intro hs
  rw [parseLevel, hs, show lower "" = "" from rfl, if_neg (by decide), if_neg (by decide),
    if_neg (by decide)] at h
  cases h

theorem acts_of_deny {rule : Rule} (h : cfg.applies re tool args rule = true)
    (hlevel : parseLevel (rule.action.getD "") = some .deny) : cfg.Acts re tool args rule :=
  ⟨h, strip_ne_of_parseLevel hlevel⟩

theorem denies_rules_iff : cfg.Denies re tool args cfg.rules ↔
    cfg.Denies re tool args cfg.builtinRules ∨ cfg.Denies re tool args cfg.userRules := by
  simp only [Config.Denies, Config.builtinRules, Config.userRules, mem_filter]
  constructor
  · rintro ⟨rule, hmem, h⟩
    by_cases hlayer : rule.layer = some "builtin"
    · exact .inl ⟨rule, ⟨hmem, decide_eq_true hlayer⟩, h⟩
    · exact .inr ⟨rule, ⟨hmem, decide_eq_true hlayer⟩, h⟩
  · rintro (⟨rule, ⟨hmem, -⟩, h⟩ | ⟨rule, ⟨hmem, -⟩, h⟩) <;> exact ⟨rule, hmem, h⟩

theorem acts_rules_iff : (∀ rule ∈ cfg.rules, ¬ cfg.Acts re tool args rule) ↔
    (∀ rule ∈ cfg.builtinRules, ¬ cfg.Acts re tool args rule) ∧
      ∀ rule ∈ cfg.userRules, ¬ cfg.Acts re tool args rule := by
  simp only [Config.builtinRules, Config.userRules, mem_filter]
  constructor
  · intro h
    exact ⟨fun rule hrule => h rule hrule.1, fun rule hrule => h rule hrule.1⟩
  · rintro ⟨hbuiltin, huser⟩ rule hmem
    by_cases hlayer : rule.layer = some "builtin"
    · exact hbuiltin rule ⟨hmem, decide_eq_true hlayer⟩
    · exact huser rule ⟨hmem, decide_eq_true hlayer⟩

theorem paramRuleHits_spec (re : Re) (cfg : Config) (tool : String) (args : ToolArgs)
    (ns : String) (rules : List Rule) :
    (cfg.paramRuleHits re tool args ns rules = none ↔ cfg.Raises re tool args rules) ∧
      ∀ hits, cfg.paramRuleHits re tool args ns rules = some hits →
        (hits.any (·.1 = .deny) = true ↔ cfg.Denies re tool args rules) ∧
          (hits = [] ↔ ∀ rule ∈ rules, ¬ cfg.Acts re tool args rule) := by
  induction rules with
  | nil =>
    rw [Config.paramRuleHits]
    refine ⟨by simp [Config.Raises], fun hits hhits => ?_⟩
    cases hhits
    simp [Config.Denies]
  | cons rule rules ih =>
    obtain ⟨hnone, hsome⟩ := ih
    rw [Config.paramRuleHits]
    by_cases hacts : cfg.applies re tool args rule ∧ strip (rule.action.getD "") ≠ ""
    · rw [if_pos hacts]
      cases hlevel : parseLevel (rule.action.getD "") with
      | none =>
        refine ⟨⟨fun _ => ⟨rule, .head _, hacts, hlevel⟩, fun _ => rfl⟩, ?_⟩
        intro hits hhits
        cases hhits
      | some level =>
        cases hhits : cfg.paramRuleHits re tool args ns rules with
        | none =>
          refine ⟨⟨fun _ => ?_, fun _ => rfl⟩, fun hits hits' => ?_⟩
          · obtain ⟨rule', hmem, hraises⟩ := hnone.mp hhits
            exact ⟨rule', .tail _ hmem, hraises⟩
          · cases hits'
        | some rest =>
          obtain ⟨hdeny, -⟩ := hsome rest hhits
          refine ⟨⟨fun h => (by cases h), ?_⟩, fun hits hits' => ?_⟩
          · rintro ⟨rule', hmem, hraises⟩
            rcases mem_cons.mp hmem with rfl | hmem
            · rw [hlevel] at hraises
              cases hraises.2
            · have := hnone.mpr ⟨rule', hmem, hraises⟩
              rw [hhits] at this
              cases this
          · cases hits'
            rw [any_cons, Bool.or_eq_true, hdeny, decide_eq_true_iff]
            refine ⟨⟨?_, ?_⟩, ⟨fun h => (by cases h), fun h => ?_⟩⟩
            · rintro (hlev | ⟨rule', hmem, h⟩)
              · exact ⟨rule, .head _, hacts.1, hlevel.trans (congrArg some hlev)⟩
              · exact ⟨rule', .tail _ hmem, h⟩
            · rintro ⟨rule', hmem, happlies, h⟩
              rcases mem_cons.mp hmem with rfl | hmem
              · exact .inl (Option.some.inj (hlevel.symm.trans h))
              · exact .inr ⟨rule', hmem, happlies, h⟩
            · exact absurd hacts (h rule (.head _))
    · rw [if_neg hacts]
      have hskip : ∀ P : Rule → Prop, (∀ r, P r → cfg.Acts re tool args r) →
          ((∃ r ∈ rule :: rules, P r) ↔ ∃ r ∈ rules, P r) := by
        intro P hP
        constructor
        · rintro ⟨r, hmem, h⟩
          rcases mem_cons.mp hmem with rfl | hmem
          · exact absurd (hP r h) hacts
          · exact ⟨r, hmem, h⟩
        · rintro ⟨r, hmem, h⟩
          exact ⟨r, .tail _ hmem, h⟩
      refine ⟨hnone.trans (hskip _ fun r h => h.1).symm, fun hits hhits => ?_⟩
      obtain ⟨hdeny, hnil⟩ := hsome hits hhits
      refine ⟨hdeny.trans (hskip _ fun r h => acts_of_deny h.1 h.2).symm, hnil.trans ?_⟩
      constructor
      · intro h r hmem
        rcases mem_cons.mp hmem with rfl | hmem
        · exact hacts
        · exact h r hmem
      · exact fun h r hmem => h r (.tail _ hmem)

theorem finalizeHits_deny {hits : List Hit} (h : hits.any (·.1 = .deny) = true) (ns : String) :
    (finalizeHits hits ns).1 = .deny := by
  rw [finalizeHits, if_pos h]

theorem finalizeHits_not_deny {hits : List Hit} (h : ¬ hits.any (·.1 = .deny) = true)
    (ns : String) : (finalizeHits hits ns).1 ≠ .deny := by
  rw [finalizeHits, if_neg h]
  intro hdeny
  obtain ⟨hit, hmem, hlevel⟩ := mem_map.mp (strictest_eq_deny_iff.mp hdeny)
  exact h (any_eq_true.mpr ⟨hit, hmem, decide_eq_true hlevel⟩)

/-- How the rules of a call are collected: a builtin rule denies, or both layers have been read,
and none denies, or a user rule does. -/
inductive Collected (re : Re) (cfg : Config) (tool : String) (args : ToolArgs) : Prop
  | builtin (b : List Hit) (hb : cfg.paramRuleHits re tool args "builtin" cfg.builtinRules = some b)
      (hdeny : b.any (·.1 = .deny) = true)
  | both (b u : List Hit)
      (hb : cfg.paramRuleHits re tool args "builtin" cfg.builtinRules = some b)
      (hnot : ¬ b.any (·.1 = .deny) = true)
      (hu : cfg.paramRuleHits re tool args "rules" cfg.userRules = some u)

theorem collected_of_judged (h : cfg.Judged re tool args) : Collected re cfg tool args := by
  have hbuiltin := paramRuleHits_spec re cfg tool args "builtin" cfg.builtinRules
  have huser := paramRuleHits_spec re cfg tool args "rules" cfg.userRules
  obtain ⟨b, hb⟩ := Option.ne_none_iff_exists'.mp (fun hnone => h.1 (hbuiltin.1.mp hnone))
  by_cases hdeny : b.any (·.1 = .deny) = true
  · exact .builtin b hb hdeny
  · have hraises := h.2.resolve_left fun hd => hdeny ((hbuiltin.2 b hb).1.mpr hd)
    obtain ⟨u, hu⟩ := Option.ne_none_iff_exists'.mp (fun hnone => hraises (huser.1.mp hnone))
    exact .both b u hb hdeny hu

theorem not_judged_cases (h : ¬ cfg.Judged re tool args) :
    cfg.paramRuleHits re tool args "builtin" cfg.builtinRules = none ∨
      ∃ b, cfg.paramRuleHits re tool args "builtin" cfg.builtinRules = some b ∧
        ¬ b.any (·.1 = .deny) = true ∧
        cfg.paramRuleHits re tool args "rules" cfg.userRules = none := by
  have hbuiltin := paramRuleHits_spec re cfg tool args "builtin" cfg.builtinRules
  have huser := paramRuleHits_spec re cfg tool args "rules" cfg.userRules
  cases hb : cfg.paramRuleHits re tool args "builtin" cfg.builtinRules with
  | none => exact .inl rfl
  | some b =>
    have hraises : ¬ cfg.Raises re tool args cfg.builtinRules := by
      intro hr
      rw [hbuiltin.1.mpr hr] at hb
      cases hb
    rw [Config.Judged, not_and_or, not_not, not_or, not_not] at h
    obtain ⟨hdenies, hruser⟩ := h.resolve_left hraises
    exact .inr ⟨b, rfl, fun hd => hdenies ((hbuiltin.2 b hb).1.mp hd), huser.1.mpr hruser⟩

theorem evaluateParamRulesOnly_of_not_judged (h : ¬ cfg.Judged re tool args) :
    cfg.evaluateParamRulesOnly re tool args = none := by
  rw [Config.evaluateParamRulesOnly]
  rcases not_judged_cases h with hb | ⟨b, hb, hnot, hu⟩
  · rw [hb]
    rfl
  · rw [hb, bind_eq_bind, bind_some, if_neg hnot, hu]
    rfl

theorem evaluateSingleInvocation_of_not_judged (h : ¬ cfg.Judged re tool args) :
    cfg.evaluateSingleInvocation re tool args = none := by
  rw [Config.evaluateSingleInvocation]
  rcases not_judged_cases h with hb | ⟨b, hb, hnot, hu⟩
  · rw [hb]
    rfl
  · rw [hb, bind_eq_bind, bind_some, if_neg hnot, hu]
    rfl

theorem evaluateParamRulesOnly_spec (h : cfg.Judged re tool args) :
    ∃ r, cfg.evaluateParamRulesOnly re tool args = some r ∧
      (cfg.Denies re tool args cfg.rules ↔ ∃ v ∈ r, v.1 = .deny) := by
  have hbuiltin := paramRuleHits_spec re cfg tool args "builtin" cfg.builtinRules
  have huser := paramRuleHits_spec re cfg tool args "rules" cfg.userRules
  rw [denies_rules_iff, Config.evaluateParamRulesOnly]
  cases collected_of_judged h with
  | builtin b hb hdeny =>
    rw [hb, bind_eq_bind, bind_some, if_pos hdeny]
    exact ⟨_, rfl, fun _ => ⟨_, rfl, finalizeHits_deny hdeny _⟩,
      fun _ => .inl ((hbuiltin.2 b hb).1.mp hdeny)⟩
  | both b u hb hnot hu =>
    rw [hb, bind_eq_bind, bind_some, if_neg hnot, hu, bind_some,
      ← (hbuiltin.2 b hb).1, ← (huser.2 u hu).1, or_iff_right hnot]
    by_cases hdeny : u.any (·.1 = .deny) = true
    · rw [if_pos hdeny]
      exact ⟨_, rfl, fun _ => ⟨_, rfl, finalizeHits_deny hdeny _⟩, fun _ => hdeny⟩
    · rw [if_neg hdeny]
      by_cases hb' : b ≠ []
      · rw [if_pos hb']
        refine ⟨_, rfl, fun hd => absurd hd hdeny, ?_⟩
        rintro ⟨v, hv, hdenied⟩
        obtain rfl := mem_some_iff.mp hv
        exact absurd hdenied (finalizeHits_not_deny hnot _)
      · rw [if_neg hb']
        by_cases hu' : u ≠ []
        · rw [if_pos hu']
          refine ⟨_, rfl, fun hd => absurd hd hdeny, ?_⟩
          rintro ⟨v, hv, hdenied⟩
          obtain rfl := mem_some_iff.mp hv
          exact absurd hdenied (finalizeHits_not_deny hdeny _)
        · rw [if_neg hu']
          refine ⟨_, rfl, fun hd => absurd hd hdeny, ?_⟩
          rintro ⟨v, hv, -⟩
          cases hv

theorem evaluateSingleInvocation_spec (h : cfg.Judged re tool args) :
    ∃ v, cfg.evaluateSingleInvocation re tool args = some v ∧
      (v.1 = .deny ↔ cfg.Refused re tool args) := by
  have hbuiltin := paramRuleHits_spec re cfg tool args "builtin" cfg.builtinRules
  have huser := paramRuleHits_spec re cfg tool args "rules" cfg.userRules
  rw [Config.Refused, denies_rules_iff, acts_rules_iff, Config.evaluateSingleInvocation]
  cases collected_of_judged h with
  | builtin b hb hdeny =>
    rw [hb, bind_eq_bind, bind_some, if_pos hdeny]
    exact ⟨_, rfl, fun _ => .inl (.inl ((hbuiltin.2 b hb).1.mp hdeny)),
      fun _ => finalizeHits_deny hdeny _⟩
  | both b u hb hnot hu =>
    rw [hb, bind_eq_bind, bind_some, if_neg hnot, hu, bind_some,
      ← (hbuiltin.2 b hb).1, ← (huser.2 u hu).1, ← (hbuiltin.2 b hb).2, ← (huser.2 u hu).2,
      or_iff_right hnot]
    by_cases hdeny : u.any (·.1 = .deny) = true
    · rw [if_pos hdeny]
      exact ⟨_, rfl, fun _ => .inl hdeny, fun _ => finalizeHits_deny hdeny _⟩
    · rw [if_neg hdeny, or_iff_right hdeny]
      by_cases hover : cfg.overrideHits re tool args ≠ []
      · rw [if_pos hover]
        exact ⟨_, rfl, fun hd => (by cases hd), fun hd => absurd hd.2.1 hover⟩
      · rw [if_neg hover]
        by_cases hb' : b ≠ []
        · rw [if_pos hb']
          exact ⟨_, rfl, fun hd => absurd hd (finalizeHits_not_deny hnot _),
            fun hd => absurd hd.1.1 hb'⟩
        · rw [if_neg hb']
          by_cases hu' : u ≠ []
          · rw [if_pos hu']
            exact ⟨_, rfl, fun hd => absurd hd (finalizeHits_not_deny hdeny _),
              fun hd => absurd hd.1.2 hu'⟩
          · rw [if_neg hu']
            exact ⟨_, rfl, fun hd => ⟨⟨not_not.mp hb', not_not.mp hu'⟩, not_not.mp hover, hd⟩,
              fun hd => hd.2.2⟩

/-- The subcommands are judged up to the first that is refused. -/
def Config.Walked (re : Re) (cfg : Config) (tool : String) (args : ToolArgs)
    (texts : List String) : Prop :=
  ∀ pre text post, texts = pre ++ text :: post →
    (∀ t ∈ pre, ¬ cfg.Refused re tool (args.withCommand t)) →
      cfg.Judged re tool (args.withCommand text)

theorem subcommandResults_spec (re : Re) (cfg : Config) (tool : String) (args : ToolArgs)
    (texts : List String) :
    (¬ cfg.Walked re tool args texts → cfg.subcommandResults re tool args texts = none) ∧
      (cfg.Walked re tool args texts → ∃ results,
        cfg.subcommandResults re tool args texts = some results ∧
          ((∃ text ∈ texts, cfg.Refused re tool (args.withCommand text)) →
            ∃ r ∈ results, r.2.1 = .deny)) := by
  induction texts with
  | nil =>
    refine ⟨fun h => absurd (fun pre text post heq => ?_) h, fun _ => ⟨[], rfl, ?_⟩⟩
    · cases pre <;> cases heq
    · rintro ⟨text, hmem, -⟩
      cases hmem
  | cons text texts ih =>
    rw [Config.subcommandResults]
    by_cases hjudged : cfg.Judged re tool (args.withCommand text)
    · obtain ⟨v, hv, hrefused⟩ := evaluateSingleInvocation_spec hjudged
      rw [hv, bind_eq_bind, bind_some]
      by_cases hdeny : v.1 = .deny
      · rw [if_pos hdeny]
        refine ⟨fun h => absurd (fun pre t post heq hpre => ?_) h,
          fun _ => ⟨_, rfl, fun _ => ⟨_, .head _, hdeny⟩⟩⟩
        cases pre with
        | nil =>
          obtain ⟨rfl, -⟩ := List.cons.inj heq
          exact hjudged
        | cons first pre =>
          obtain ⟨rfl, -⟩ := List.cons.inj heq
          exact absurd (hrefused.mp hdeny) (hpre _ (.head _))
      · rw [if_neg hdeny]
        have hnot : ¬ cfg.Refused re tool (args.withCommand text) :=
          fun h => hdeny (hrefused.mpr h)
        have hwalked : cfg.Walked re tool args (text :: texts) ↔ cfg.Walked re tool args texts := by
          constructor
          · intro h pre t post heq hpre
            refine h (text :: pre) t post (congrArg _ heq) fun u hu => ?_
            rcases mem_cons.mp hu with rfl | hu
            · exact hnot
            · exact hpre u hu
          · intro h pre t post heq hpre
            cases pre with
            | nil =>
              obtain ⟨rfl, -⟩ := List.cons.inj heq
              exact hjudged
            | cons first pre =>
              exact h pre t post (List.cons.inj heq).2
                fun u hu => hpre u (.tail _ hu)
        rw [hwalked]
        refine ⟨fun h => ?_, fun h => ?_⟩
        · rw [ih.1 h]
          rfl
        · obtain ⟨results, hresults, hdenied⟩ := ih.2 h
          rw [hresults]
          refine ⟨_, rfl, ?_⟩
          rintro ⟨t, hmem, hrefused'⟩
          rcases mem_cons.mp hmem with rfl | hmem
          · exact absurd hrefused' hnot
          · obtain ⟨r, hr, hd⟩ := hdenied ⟨t, hmem, hrefused'⟩
            exact ⟨r, .tail _ hr, hd⟩
    · refine ⟨fun _ ↦ ?_, fun h ↦ absurd (h [] text texts rfl fun _ ht ↦ absurd ht not_mem_nil)
        hjudged⟩
      rw [evaluateSingleInvocation_of_not_judged hjudged]
      rfl

theorem aggregate_deny {results : List (String × Verdict)} (h : ∃ r ∈ results, r.2.1 = .deny) :
    (aggregate results).1 = .deny := by
  obtain ⟨r, hr, hdeny⟩ := h
  match results with
  | [] => cases hr
  | [first] =>
    rw [mem_singleton.mp hr] at hdeny
    exact hdeny
  | first :: second :: rest =>
    show strictest ((first :: second :: rest).map fun r => r.2.1) = .deny
    exact strictest_eq_deny_iff.mpr (mem_map.mpr ⟨r, hr, hdeny⟩)

theorem withFull_deny {v : Verdict} {full : List Verdict}
    (h : v.1 = .deny ∨ ∃ f ∈ full, f.1 = .deny) : (withFull v full).1 = .deny := by
  cases full with
  | nil =>
    rcases h with h | ⟨f, hf, -⟩
    · exact h
    · cases hf
  | cons first full =>
    show strictest [v.1, strictest ((first :: full).map Prod.fst)] = .deny
    apply strictest_eq_deny_iff.mpr
    rcases h with h | ⟨f, hf, h⟩
    · rw [h]
      exact .head _
    · have hlevel := strictest_eq_deny_iff.mpr (h ▸ mem_map_of_mem (f := Prod.fst) hf)
      rw [hlevel]
      exact .tail _ (.head _)

theorem withSink_deny {v : Verdict} (h : v.1 = .deny) (sink : Bool) :
    (withSink v sink).1 = .deny := by
  cases sink with
  | false => exact h
  | true =>
    show strictest [v.1, .ask] = .deny
    rw [h]
    rfl

theorem applyShellAstFloor_deny_iff (v : Verdict) {p : Option ShellParse} {u : Bool} :
    (applyShellAstFloor v (shellAstFloor p u)).1 = .deny ↔ v.1 = .deny := by
  have hfloor : ∀ f ∈ shellAstFloor p u, f.1 = .ask := by
    intro f hf
    rw [shellAstFloor.eq_def] at hf
    split at hf
    · cases hf
    · split at hf
      · split at hf
        · obtain rfl := mem_some_iff.mp hf
          rfl
        · split at hf
          · obtain rfl := mem_some_iff.mp hf
            rfl
          · cases hf
      · cases hf
  cases hf : shellAstFloor p u with
  | none => rfl
  | some f =>
    obtain ⟨level, rule⟩ := f
    have hask : level = .ask := hfloor _ hf
    subst hask
    rw [applyShellAstFloor]
    split
    · rfl
    · show strictest [v.1, .ask] = .deny ↔ _
      rw [strictest_eq_deny_iff]
      simp [eq_comm]

/-- A denying rule matches the command as given, its canonical form, or a subcommand. -/
def Config.DeniedSomewhere (re : Re) (sh : Shell) (cfg : Config) (tool : String)
    (args : ToolArgs) (p : ShellParse) : Prop :=
  cfg.Denies re tool args cfg.rules ∨ cfg.Denies re tool (sh.canonArgs args) cfg.rules ∨
    ∃ sc ∈ p.subcommands, cfg.Denies re tool (args.withCommand sc.text) cfg.rules

/-- The rules that are consulted on the way to a verdict have actions that are levels and, where
the subcommands are not known, refuse the canonical form. -/
def Config.Decides (re : Re) (sh : Shell) (cfg : Config) (tool : String) (args : ToolArgs)
    (p : ShellParse) : Prop :=
  if p.kind = .simple then
    cfg.Walked re tool args p.texts ∧ cfg.Judged re tool args ∧
      cfg.Judged re tool (sh.canonArgs args)
  else cfg.Judged re tool (sh.canonArgs args) ∧ cfg.Refused re tool (sh.canonArgs args)

theorem text_ne_of_denies {rules : List Rule} (h : cfg.Denies re tool args rules) :
    args.text ≠ "" := by
  obtain ⟨rule, -, happlies, -⟩ := h
  intro htext
  rw [Config.applies] at happlies
  split at happlies
  · next tools pattern _ _ =>
    rw [Bool.and_eq_true] at happlies
    have hmatches := happlies.2
    rw [Config.ruleMatches.eq_def] at hmatches
    split at hmatches
    · cases hmatches
    · rw [Bool.and_eq_true, htext, shellPatternMatches, if_pos (.inr rfl)] at hmatches
      cases hmatches.2
  · cases happlies

theorem withCommand_empty_text (args : ToolArgs) : (args.withCommand "").text = "" := by
  obtain ⟨command, cmd⟩ := args
  cases command <;> cases cmd <;> rfl

theorem canonFull_spec (sh : Shell) (horig : cfg.Judged re tool args) :
    (¬ cfg.Judged re tool (sh.canonArgs args) → cfg.canonFull re sh tool args = none) ∧
      (cfg.Judged re tool (sh.canonArgs args) → ∃ r, cfg.canonFull re sh tool args = some r ∧
        (cfg.Denies re tool (sh.canonArgs args) cfg.rules →
          cfg.Denies re tool args cfg.rules ∨ ∃ v ∈ r, v.1 = .deny)) := by
  rw [Config.canonFull]
  by_cases hsame : sh.canonicalize args.text = args.text
  · rw [Shell.canonArgs, if_pos hsame, if_pos hsame]
    exact ⟨fun h => absurd horig h, fun _ => ⟨none, rfl, .inl⟩⟩
  · rw [if_neg hsame]
    refine ⟨evaluateParamRulesOnly_of_not_judged, fun h => ?_⟩
    obtain ⟨r, hr, hdeny⟩ := evaluateParamRulesOnly_spec h
    exact ⟨r, hr, fun hd => .inr (hdeny.mp hd)⟩

theorem evaluateSubcommands_deny_iff {p : ShellParse} (hkind : p.kind = .simple)
    (hdeny : cfg.DeniedSomewhere re sh tool args p) :
    (∃ rule, cfg.evaluateSubcommands re sh tool args p = some (.deny, rule)) ↔
      cfg.Decides re sh tool args p := by
  rw [Config.Decides, if_pos hkind, Config.evaluateSubcommands]
  obtain ⟨hnot, hwalk⟩ :=
    subcommandResults_spec re cfg tool args p.texts
  by_cases hwalked : cfg.Walked re tool args p.texts
  · obtain ⟨results, hresults, hrefused⟩ := hwalk hwalked
    rw [hresults, bind_eq_bind, bind_some]
    by_cases hjudged : cfg.Judged re tool args
    · obtain ⟨orig, horig, hdorig⟩ := evaluateParamRulesOnly_spec hjudged
      rw [horig, bind_eq_bind, bind_some]
      obtain ⟨hnone, hsome⟩ := canonFull_spec sh hjudged
      by_cases hcanon : cfg.Judged re tool (sh.canonArgs args)
      · obtain ⟨canon, hcanon', hdcanon⟩ := hsome hcanon
        rw [hcanon', bind_some]
        refine ⟨fun _ => ⟨hwalked, hjudged, hcanon⟩, fun _ => ?_⟩
        have hfull : ∀ v, (∃ u ∈ orig, u.1 = .deny) →
            (withFull v (orig.toList ++ canon.toList)).1 = .deny := by
          rintro v ⟨u, hu, hlevel⟩
          exact withFull_deny (.inr ⟨u, mem_append_left _ (mem_toList.mpr hu), hlevel⟩)
        have hlevel : (withFull (aggregate results) (orig.toList ++ canon.toList)).1 = .deny := by
          rcases hdeny with horigd | hcanond | ⟨sc, hsc, hscd⟩
          · exact hfull _ (hdorig.mp horigd)
          · rcases hdcanon hcanond with horigd | ⟨u, hu, hlevel⟩
            · exact hfull _ (hdorig.mp horigd)
            · exact withFull_deny
                (.inr ⟨u, mem_append_right _ (mem_toList.mpr hu), hlevel⟩)
          · apply withFull_deny
            left
            apply aggregate_deny
            refine hrefused ⟨sc.text, ?_, .inl hscd⟩
            refine mem_filter.mpr ⟨mem_map_of_mem hsc, decide_eq_true fun hempty => ?_⟩
            rw [hempty] at hscd
            exact text_ne_of_denies hscd (withCommand_empty_text args)
        exact ⟨_, congrArg some (Prod.ext
          ((applyShellAstFloor_deny_iff _).mpr (withSink_deny hlevel _)) rfl)⟩
      · rw [hnone hcanon]
        exact ⟨fun ⟨_, h⟩ => (by cases h), fun h => absurd h.2.2 hcanon⟩
    · rw [evaluateParamRulesOnly_of_not_judged hjudged]
      exact ⟨fun ⟨_, h⟩ => (by cases h), fun h => absurd h.2.1 hjudged⟩
  · rw [hnot hwalked]
    exact ⟨fun ⟨_, h⟩ => (by cases h), fun h => absurd h.1 hwalked⟩

/-- **When a denying rule decides.** A shell call that a rule denies somewhere is denied where
the tool itself is, or no stored approval applies to the whole command and the rules that are
consulted decide. -/
theorem deny_dominates_iff (hshell : cfg.category tool = some .shell)
    (hdeny : cfg.DeniedSomewhere re sh tool args (sh.parse (sh.canonicalize args.text))) :
    (∃ rule, cfg.evaluate re sh tool args = some (.deny, rule)) ↔
      (∃ rule, cfg.baseline tool = some (.deny, rule)) ∨
        (cfg.wholeOverrideHits re sh tool args = [] ∧
          cfg.Decides re sh tool args (sh.parse (sh.canonicalize args.text))) := by
  have hparse : cfg.shellParse sh tool args = some (sh.parse (sh.canonicalize args.text)) :=
    if_pos hshell
  generalize sh.parse (sh.canonicalize args.text) = p at hdeny hparse ⊢
  by_cases hbase : ∃ rule, cfg.baseline tool = some (.deny, rule)
  · obtain ⟨rule, hrule⟩ := hbase
    refine ⟨fun _ => .inl ⟨rule, hrule⟩, fun _ => ⟨rule, ?_⟩⟩
    rw [Config.evaluate, hrule]
  · rw [or_iff_right hbase]
    have hevaluate : cfg.evaluate re sh tool args =
        if cfg.wholeOverrideHits re sh tool args ≠ [] then
          some (overrideVerdict (cfg.wholeOverrideHits re sh tool args))
        else if p.kind = .simple then cfg.evaluateSubcommands re sh tool args p
        else (cfg.evaluateSingleInvocation re tool (sh.canonArgs args)).map fun verdict =>
          applyShellAstFloor verdict
            (shellAstFloor (some p) (cfg.unknownStructure.getD true)) := by
      rw [Config.evaluate, hparse]
      split
      · next rule hrule => exact absurd ⟨rule, hrule⟩ hbase
      · rfl
    rw [hevaluate]
    by_cases hover : cfg.wholeOverrideHits re sh tool args ≠ []
    · rw [if_pos hover]
      exact ⟨fun ⟨_, h⟩ => (by cases h), fun h => absurd h.1 hover⟩
    · rw [if_neg hover, and_iff_right (not_not.mp hover)]
      by_cases hkind : p.kind = .simple
      · rw [if_pos hkind]
        exact evaluateSubcommands_deny_iff hkind hdeny
      · rw [if_neg hkind, Config.Decides, if_neg hkind]
        by_cases hjudged : cfg.Judged re tool (sh.canonArgs args)
        · obtain ⟨v, hv, hrefused⟩ := evaluateSingleInvocation_spec hjudged
          rw [hv, Option.map_some, ← hrefused, and_iff_right hjudged,
            ← applyShellAstFloor_deny_iff v (p := some p) (u := cfg.unknownStructure.getD true)]
          constructor
          · rintro ⟨rule, h⟩
            rw [Option.some.inj h]
          · intro h
            exact ⟨_, congrArg some (Prod.ext h rfl)⟩
        · rw [evaluateSingleInvocation_of_not_judged hjudged]
          exact ⟨fun ⟨_, h⟩ => (by cases h), fun h => absurd h.1 hjudged⟩

theorem judged_of_levels (h : ∀ rule ∈ cfg.rules, parseLevel (rule.action.getD "") ≠ none) :
    cfg.Judged re tool args := by
  constructor
  · rintro ⟨rule, hmem, -, hnone⟩
    exact h rule (mem_filter.mp hmem).1 hnone
  · right
    rintro ⟨rule, hmem, -, hnone⟩
    exact h rule (mem_filter.mp hmem).1 hnone

/-- A rule that denies `rm b`, and the given approvals. -/
def rmConfig (approvals : List Rule) : Config where
  rules := [{ tools := some ["bash"], pattern := some "rm b", action := some "deny" }]
  approvalOverrides := approvals

/-- The approval of a command that also runs `rm b`. -/
def wholeApproval : Rule where
  tools := some ["bash"]
  matchType := some "command"
  pattern := some "cd a && rm b"
  action := some "allow"

/-- `cd a && rm b` has two subcommands; every command is canonical. -/
def twoCommands : Shell where
  parse command := if command = "cd a && rm b" then
    { kind := .simple, subcommands := [{ text := "cd a" }, { text := "rm b" }] }
    else { kind := .simple, subcommands := [{ text := command }] }
  canonicalize := id

def noMatch : Re := ⟨fun _ _ => some false, fun _ _ => some false⟩

/-- `cd a && rm b` -/
def rmArgs : ToolArgs := { command := some "cd a && rm b" }

theorem rm_denied (approvals : List Rule) :
    (rmConfig approvals).DeniedSomewhere noMatch twoCommands "bash" rmArgs
      (twoCommands.parse (twoCommands.canonicalize rmArgs.text)) := by
  refine .inr (.inr ⟨{ text := "rm b" }, by decide, _, .head _, ?_, ?_⟩)
  · rfl
  · rfl

/-- The approval goes before the rule. -/
theorem approval_beats_deny :
    ¬ ∀ (re : Re) (sh : Shell) (cfg : Config) (tool : String) (args : ToolArgs),
      cfg.category tool = some .shell →
        cfg.DeniedSomewhere re sh tool args (sh.parse (sh.canonicalize args.text)) →
          ∃ rule, cfg.evaluate re sh tool args = some (.deny, rule) := by
  intro h
  obtain ⟨rule, hdeny⟩ := h noMatch twoCommands (rmConfig [wholeApproval]) "bash" rmArgs
    (by decide) (rm_denied _)
  have hallow : ((rmConfig [wholeApproval]).evaluate noMatch twoCommands "bash" rmArgs).map
      Prod.fst = some .allow := by
    decide
  rw [hdeny] at hallow
  cases hallow

/-- Without the approval the rule decides. -/
theorem rm_refused : ∃ rule, (rmConfig []).evaluate noMatch twoCommands "bash" rmArgs =
    some (.deny, rule) := by
  have hlevels : ∀ rule ∈ (rmConfig []).rules, parseLevel (rule.action.getD "") ≠ none := by
    decide
  apply (deny_dominates_iff (by decide) (rm_denied [])).mpr
  refine .inr ⟨by decide, ?_⟩
  rw [Config.Decides, if_pos (by decide)]
  exact ⟨fun _ _ _ _ _ => judged_of_levels hlevels, judged_of_levels hlevels,
    judged_of_levels hlevels⟩

end JiuwenSpec.Permission

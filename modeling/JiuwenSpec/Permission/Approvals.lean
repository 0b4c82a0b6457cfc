import JiuwenSpec.Permission.DenyDominance

/-!
# What further approvals allow

Stored approvals are read in two places: on the whole command, before any rule, and on each
subcommand, after the rules that deny. A call is allowed with further approvals where it was
allowed before or they admit it in one of these places.
-/

namespace JiuwenSpec.Permission

open Base List
open Option (bind_eq_bind bind_some)

theorem stricter_eq_allow_iff (a b : Level) :
    a.stricter b = .allow ↔ a = .allow ∧ b = .allow := by
  cases a <;> cases b <;> simp [Level.stricter, Level.order]

theorem strictest_eq_allow_iff {ls : List Level} :
    strictest ls = .allow ↔ ls ≠ [] ∧ ∀ l ∈ ls, l = .allow := by
  cases ls with
  | nil => simp [strictest]
  | cons l ls =>
    rw [strictest]
    induction ls generalizing l with
    | nil => simp
    | cons l' ls ih =>
      rw [foldl_cons, ih]
      simp [stricter_eq_allow_iff, and_assoc]

variable {re : Re} {sh : Shell} {cfg : Config} {tool : String} {args : ToolArgs}

theorem names_eq_self {xs : List String} (h : ∀ x ∈ xs, strip x = x ∧ x ≠ "") :
    names xs = xs := by
  rw [names, map_congr_left fun x hx => (h x hx).1, map_id']
  exact filter_eq_self.mpr fun x hx => decide_eq_true (h x hx).2

theorem shellNames_stripped : ∀ x ∈ cfg.shellNames, strip x = x ∧ x ≠ "" := by
  intro x hx
  rw [Config.shellNames] at hx
  split at hx
  · revert x
    decide
  · obtain ⟨hmem, hne⟩ := mem_filter.mp hx
    obtain ⟨y, -, rfl⟩ := mem_map.mp hmem
    exact ⟨strip_idem y, of_decide_eq_true hne⟩

theorem shellNames_ne_nil : cfg.shellNames ≠ [] := by
  rw [Config.shellNames]
  split
  · decide
  · assumption

theorem category_of_mem_shellNames {x : String} (h : x ∈ cfg.shellNames) :
    cfg.category x = some .shell := by
  rw [Config.category, if_pos (.inr (decide_eq_true h))]

theorem consistent_of_shell {tools : List String} (hne : tools ≠ [])
    (h : ∀ t ∈ tools, cfg.category t = some .shell) : cfg.consistent tools = true := by
  cases tools with
  | nil => exact absurd rfl hne
  | cons t ts =>
    have ht := h t (.head _)
    rw [Config.consistent, ht, Bool.and_eq_true, all_eq_true]
    exact ⟨rfl, fun t' ht' => decide_eq_true (h t' (.tail _ ht'))⟩

def Config.approve (cfg : Config) (new : List Rule) : Config :=
  { cfg with approvalOverrides := cfg.approvalOverrides ++ new }

def Config.approves (re : Re) (cfg : Config) (tool : String) (args : ToolArgs) (rule : Rule) :
    Bool :=
  lower (strip (rule.action.getD "")) = "allow" &&
    lower (strip (rule.matchType.getD "")) ≠ "path" && cfg.applies re tool args rule

def Config.Approved (re : Re) (cfg : Config) (tool : String) (new : List Rule)
    (args : ToolArgs) : Prop :=
  ∃ rule ∈ new, cfg.approves re tool args rule = true

variable {new : List Rule}

theorem overrideHits_approve : (cfg.approve new).overrideHits re tool args =
    cfg.overrideHits re tool args ++
      (new.filter (cfg.approves re tool args)).map fun rule =>
        label "approval_overrides" rule.id := by
  simp only [Config.overrideHits, Config.approve, filter_append, map_append]
  rfl

theorem overrideHits_approve_ne_nil_iff : (cfg.approve new).overrideHits re tool args ≠ [] ↔
    cfg.overrideHits re tool args ≠ [] ∨ cfg.Approved re tool new args := by
  have hnew : (new.filter (cfg.approves re tool args)).map
      (fun rule => label "approval_overrides" rule.id) ≠ [] ↔ cfg.Approved re tool new args := by
    rw [ne_eq, map_eq_nil_iff, filter_eq_nil_iff]
    simp [Config.Approved]
  rw [overrideHits_approve, ne_eq, append_eq_nil_iff, not_and_or, ← ne_eq, ← ne_eq, hnew]

theorem overrideHits_approve_of_not (h : ¬ cfg.Approved re tool new args) :
    (cfg.approve new).overrideHits re tool args = cfg.overrideHits re tool args := by
  have hnil : new.filter (cfg.approves re tool args) = [] :=
    filter_eq_nil_iff.mpr fun rule hmem happroves => h ⟨rule, hmem, happroves⟩
  rw [overrideHits_approve, hnil, map_nil, append_nil]

theorem paramRuleHits_approve (ns : String) (rules : List Rule) :
    (cfg.approve new).paramRuleHits re tool args ns rules =
      cfg.paramRuleHits re tool args ns rules := by
  induction rules with
  | nil => rfl
  | cons rule rules ih =>
    rw [Config.paramRuleHits, Config.paramRuleHits, ih]
    rfl

theorem evaluateParamRulesOnly_approve :
    (cfg.approve new).evaluateParamRulesOnly re tool args =
      cfg.evaluateParamRulesOnly re tool args := by
  rw [Config.evaluateParamRulesOnly, Config.evaluateParamRulesOnly, paramRuleHits_approve,
    paramRuleHits_approve]
  rfl

theorem canonFull_approve : (cfg.approve new).canonFull re sh tool args =
    cfg.canonFull re sh tool args := by
  rw [Config.canonFull, Config.canonFull, evaluateParamRulesOnly_approve]

theorem evaluateSingleInvocation_approve_of_not (h : ¬ cfg.Approved re tool new args) :
    (cfg.approve new).evaluateSingleInvocation re tool args =
      cfg.evaluateSingleInvocation re tool args := by
  rw [Config.evaluateSingleInvocation, Config.evaluateSingleInvocation, paramRuleHits_approve,
    paramRuleHits_approve, overrideHits_approve_of_not h]
  rfl

theorem evaluateSingleInvocation_of_override (hjudged : cfg.Judged re tool args)
    (hdenies : ¬ cfg.Denies re tool args cfg.rules)
    (hover : cfg.overrideHits re tool args ≠ []) :
    cfg.evaluateSingleInvocation re tool args =
      some (overrideVerdict (cfg.overrideHits re tool args)) := by
  have hbuiltin := paramRuleHits_spec re cfg tool args "builtin" cfg.builtinRules
  have huser := paramRuleHits_spec re cfg tool args "rules" cfg.userRules
  rw [denies_rules_iff, not_or] at hdenies
  rw [Config.evaluateSingleInvocation]
  cases collected_of_judged hjudged with
  | builtin b hb hdeny => exact absurd ((hbuiltin.2 b hb).1.mp hdeny) hdenies.1
  | both b u hb hnot hu =>
    rw [hb, bind_eq_bind, bind_some, if_neg hnot, hu, bind_some,
      if_neg fun hdeny => hdenies.2 ((huser.2 u hu).1.mp hdeny), if_pos hover]
    rfl

def Config.Allows (re : Re) (cfg : Config) (tool : String) (args : ToolArgs) : Prop :=
  ∃ rule, cfg.evaluateSingleInvocation re tool args = some (.allow, rule)

theorem not_allows_of_denies (h : ¬ cfg.Judged re tool args ∨ cfg.Denies re tool args cfg.rules) :
    ¬ cfg.Allows re tool args := by
  rintro ⟨rule, hrule⟩
  by_cases hjudged : cfg.Judged re tool args
  · obtain ⟨v, hv, hrefused⟩ := evaluateSingleInvocation_spec hjudged
    rw [hrule] at hv
    have hdeny : v.1 = .deny := hrefused.mpr (.inl (h.resolve_left (not_not.mpr hjudged)))
    rw [← Option.some.inj hv] at hdeny
    cases hdeny
  · rw [evaluateSingleInvocation_of_not_judged hjudged] at hrule
    cases hrule

theorem allows_approve_iff : (cfg.approve new).Allows re tool args ↔
    cfg.Allows re tool args ∨ (cfg.Approved re tool new args ∧ cfg.Judged re tool args ∧
      ¬ cfg.Denies re tool args cfg.rules) := by
  by_cases happroved : cfg.Approved re tool new args
  · by_cases hclear : cfg.Judged re tool args ∧ ¬ cfg.Denies re tool args cfg.rules
    · refine ⟨fun _ => .inr ⟨happroved, hclear⟩, fun _ => ?_⟩
      have hjudged : (cfg.approve new).Judged re tool args := hclear.1
      have hdenies : ¬ (cfg.approve new).Denies re tool args (cfg.approve new).rules := hclear.2
      have hover := overrideHits_approve_ne_nil_iff.mpr (.inr happroved)
      exact ⟨_, evaluateSingleInvocation_of_override hjudged hdenies hover⟩
    · have hnot : ¬ cfg.Judged re tool args ∨ cfg.Denies re tool args cfg.rules := by
        rwa [not_and_or, not_not] at hclear
      have hnot' : ¬ (cfg.approve new).Judged re tool args ∨
          (cfg.approve new).Denies re tool args (cfg.approve new).rules := hnot
      constructor
      · exact fun h => absurd h (not_allows_of_denies hnot')
      · rintro (h | h)
        · exact absurd h (not_allows_of_denies hnot)
        · exact absurd h.2 hclear
  · rw [Config.Allows, evaluateSingleInvocation_approve_of_not happroved, Config.Allows]
    exact ⟨.inl, fun h => h.resolve_right fun h => happroved h.1⟩

theorem subcommandResults_allow_iff (texts : List String) :
    (∃ results, cfg.subcommandResults re tool args texts = some results ∧
        results.length = texts.length ∧ ∀ r ∈ results, r.2.1 = .allow) ↔
      ∀ text ∈ texts, cfg.Allows re tool (args.withCommand text) := by
  induction texts with
  | nil => simp [Config.subcommandResults]
  | cons text texts ih =>
    rw [forall_mem_cons, ← ih, Config.subcommandResults, Config.Allows]
    cases hv : cfg.evaluateSingleInvocation re tool (args.withCommand text) with
    | none => simp
    | some v =>
      obtain ⟨level, rule⟩ := v
      cases level with
      | deny => simp
      | ask =>
        cases hrest : cfg.subcommandResults re tool args texts with
        | none => simp
        | some rest =>
          simp
          exact fun _ => ⟨text, .ask, ⟨rule, .inl ⟨rfl, rfl, rfl⟩⟩, by decide⟩
      | allow =>
        cases hrest : cfg.subcommandResults re tool args texts <;> simp [-Prod.forall]

theorem subcommandResults_allow_of_all {texts : List String} {results : List (String × Verdict)}
    (h : cfg.subcommandResults re tool args texts = some results)
    (hall : ∀ r ∈ results, r.2.1 = .allow) : results.length = texts.length := by
  induction texts generalizing results with
  | nil =>
    rw [Config.subcommandResults] at h
    rw [← Option.some.inj h]
    rfl
  | cons text texts ih =>
    rw [Config.subcommandResults] at h
    cases hv : cfg.evaluateSingleInvocation re tool (args.withCommand text) with
    | none =>
      rw [hv] at h
      cases h
    | some v =>
      rw [hv, bind_eq_bind, bind_some] at h
      by_cases hdeny : v.1 = .deny
      · rw [if_pos hdeny] at h
        cases h
        have hallow : v.1 = .allow := hall _ (.head _)
        rw [hdeny] at hallow
        cases hallow
      · rw [if_neg hdeny] at h
        cases hrest : cfg.subcommandResults re tool args texts with
        | none =>
          rw [hrest] at h
          cases h
        | some rest =>
          rw [hrest] at h
          cases h
          rw [length_cons, length_cons,
            ih hrest fun r hr => hall r (.tail _ hr)]

theorem aggregate_allow_iff {results : List (String × Verdict)} :
    (aggregate results).1 = .allow ↔ results ≠ [] ∧ ∀ r ∈ results, r.2.1 = .allow := by
  match results with
  | [] => simp [aggregate]
  | [first] => simp [aggregate]
  | first :: second :: rest =>
    show strictest ((first :: second :: rest).map fun r => r.2.1) = .allow ↔ _
    rw [strictest_eq_allow_iff, forall_mem_map]
    simp

theorem withFull_allow_iff {v : Verdict} {full : List Verdict} :
    (withFull v full).1 = .allow ↔ v.1 = .allow ∧ ∀ f ∈ full, f.1 = .allow := by
  cases full with
  | nil => simp [withFull]
  | cons first full =>
    show strictest [v.1, strictest ((first :: full).map Prod.fst)] = .allow ↔ _
    rw [strictest_eq_allow_iff, and_iff_right (by simp), forall_mem_cons,
      forall_mem_singleton, strictest_eq_allow_iff, forall_mem_map]
    simp

theorem withSink_allow_iff {v : Verdict} {sink : Bool} :
    (withSink v sink).1 = .allow ↔ v.1 = .allow ∧ sink = false := by
  cases sink with
  | false => simp [withSink]
  | true =>
    show strictest [v.1, .ask] = .allow ↔ _
    rw [strictest_eq_allow_iff]
    simp

theorem shellAstFloor_of_simple {p : ShellParse} (h : p.kind = .simple) (u : Bool) :
    shellAstFloor (some p) u = none := by
  simp [shellAstFloor, h]

/-- Neither the rules on the whole command nor the guard against interpreters ask. -/
def Config.Unhindered (re : Re) (sh : Shell) (cfg : Config) (tool : String) (args : ToolArgs)
    (p : ShellParse) : Prop :=
  (∃ orig canon, cfg.evaluateParamRulesOnly re tool args = some orig ∧
      cfg.canonFull re sh tool args = some canon ∧
        ∀ v ∈ orig.toList ++ canon.toList, v.1 = .allow) ∧
    (cfg.interpreterSink.getD true && p.hasInterpreterSink) = false

theorem unhindered_approve {p : ShellParse} : (cfg.approve new).Unhindered re sh tool args p ↔
    cfg.Unhindered re sh tool args p := by
  rw [Config.Unhindered, evaluateParamRulesOnly_approve, canonFull_approve, Config.Unhindered]
  rfl

theorem evaluateSubcommands_allow_iff {p : ShellParse} (hkind : p.kind = .simple) :
    (∃ rule, cfg.evaluateSubcommands re sh tool args p = some (.allow, rule)) ↔
      p.texts ≠ [] ∧ (∀ text ∈ p.texts, cfg.Allows re tool (args.withCommand text)) ∧
        cfg.Unhindered re sh tool args p := by
  rw [Config.evaluateSubcommands, shellAstFloor_of_simple hkind, ← subcommandResults_allow_iff]
  constructor
  · rintro ⟨rule, h⟩
    simp only [bind_eq_bind, Option.bind_eq_some_iff] at h
    obtain ⟨results, hresults, orig, horig, canon, hcanon, h⟩ := h
    have hlevel := congrArg Prod.fst (Option.some.inj h)
    obtain ⟨hfull, hsink⟩ := withSink_allow_iff.mp hlevel
    obtain ⟨hagg, hwhole⟩ := withFull_allow_iff.mp hfull
    obtain ⟨hne, hall⟩ := aggregate_allow_iff.mp hagg
    have hlength := subcommandResults_allow_of_all hresults hall
    refine ⟨?_, ⟨results, hresults, hlength, hall⟩, ⟨orig, canon, horig, hcanon, hwhole⟩, hsink⟩
    rintro hnil
    rw [hnil] at hlength
    exact hne (length_eq_zero_iff.mp hlength)
  · rintro ⟨hne, ⟨results, hresults, hlength, hall⟩, ⟨orig, canon, horig, hcanon, hwhole⟩, hsink⟩
    have hresults_ne : results ≠ [] := by
      rintro rfl
      exact hne (length_eq_zero_iff.mp hlength.symm)
    rw [hresults, bind_eq_bind, bind_some, horig, bind_eq_bind,
      bind_some, hcanon, bind_some]
    have hagg := aggregate_allow_iff.mpr ⟨hresults_ne, hall⟩
    have hlevel := withSink_allow_iff.mpr ⟨withFull_allow_iff.mpr ⟨hagg, hwhole⟩, hsink⟩
    exact ⟨_, congrArg some (Prod.ext hlevel rfl)⟩

def Config.Barred (cfg : Config) (tool : String) : Prop :=
  ∃ rule, cfg.baseline tool = some (.deny, rule)

/-- Approvals, told by the calls they apply to, admit the command: they apply to it as given or
in its canonical form, or each subcommand is allowed or is one of those calls and denied by no
rule, and nothing else asks. -/
def Config.Admits (re : Re) (sh : Shell) (cfg : Config) (tool : String) (args : ToolArgs)
    (approved : ToolArgs → Prop) (p : ShellParse) : Prop :=
  ¬ cfg.Barred tool ∧ (approved args ∨ approved (sh.canonArgs args) ∨
    (p.kind = .simple ∧ p.texts ≠ [] ∧
      (∀ text ∈ p.texts, cfg.Allows re tool (args.withCommand text) ∨
        (approved (args.withCommand text) ∧ cfg.Judged re tool (args.withCommand text) ∧
          ¬ cfg.Denies re tool (args.withCommand text) cfg.rules)) ∧
      cfg.Unhindered re sh tool args p))

theorem wholeOverrideHits_ne_nil_iff : cfg.wholeOverrideHits re sh tool args ≠ [] ↔
    cfg.overrideHits re tool args ≠ [] ∨ cfg.overrideHits re tool (sh.canonArgs args) ≠ [] := by
  rw [Config.wholeOverrideHits]
  by_cases hsame : sh.canonicalize args.text = args.text
  · rw [if_neg fun h => h.2 hsame, Shell.canonArgs, if_pos hsame, or_self]
  · by_cases hhits : cfg.overrideHits re tool args = []
    · rw [if_pos ⟨hhits, hsame⟩, hhits]
      simp
    · rw [if_neg fun h => hhits h.1]
      exact ⟨.inl, fun _ => hhits⟩

theorem evaluate_of_not_barred (hshell : cfg.category tool = some .shell)
    (hbar : ¬ cfg.Barred tool) : cfg.evaluate re sh tool args =
      if cfg.wholeOverrideHits re sh tool args ≠ [] then
        some (overrideVerdict (cfg.wholeOverrideHits re sh tool args))
      else if (sh.parse (sh.canonicalize args.text)).kind = .simple then
        cfg.evaluateSubcommands re sh tool args (sh.parse (sh.canonicalize args.text))
      else (cfg.evaluateSingleInvocation re tool (sh.canonArgs args)).map fun verdict =>
        applyShellAstFloor verdict (shellAstFloor (some (sh.parse (sh.canonicalize args.text)))
          (cfg.unknownStructure.getD true)) := by
  have hparse : cfg.shellParse sh tool args = some (sh.parse (sh.canonicalize args.text)) :=
    if_pos hshell
  rw [Config.evaluate, hparse]
  split
  · next rule hrule => exact absurd ⟨rule, hrule⟩ hbar
  · rfl

theorem evaluate_of_barred (hbar : cfg.Barred tool) :
    ∃ rule, cfg.evaluate re sh tool args = some (.deny, rule) := by
  obtain ⟨rule, hrule⟩ := hbar
  exact ⟨rule, by rw [Config.evaluate, hrule]⟩

theorem evaluate_approve_allow_iff (hshell : cfg.category tool = some .shell) :
    (∃ rule, (cfg.approve new).evaluate re sh tool args = some (.allow, rule)) ↔
      (∃ rule, cfg.evaluate re sh tool args = some (.allow, rule)) ∨
        cfg.Admits re sh tool args (cfg.Approved re tool new)
          (sh.parse (sh.canonicalize args.text)) := by
  have hshell' : (cfg.approve new).category tool = some .shell := hshell
  by_cases hbar : cfg.Barred tool
  · have hbar' : (cfg.approve new).Barred tool := hbar
    have hdeny : ∃ rule, cfg.evaluate re sh tool args = some (.deny, rule) :=
      evaluate_of_barred hbar
    have hdeny' : ∃ rule, (cfg.approve new).evaluate re sh tool args = some (.deny, rule) :=
      evaluate_of_barred hbar'
    obtain ⟨rule, hrule⟩ := hdeny
    obtain ⟨rule', hrule'⟩ := hdeny'
    rw [hrule, hrule']
    constructor
    · rintro ⟨r, hr⟩
      cases hr
    · rintro (⟨r, hr⟩ | h)
      · cases hr
      · exact absurd hbar h.1
  · have hbar' : ¬ (cfg.approve new).Barred tool := hbar
    rw [evaluate_of_not_barred hshell hbar, evaluate_of_not_barred hshell' hbar', Config.Admits,
      and_iff_right hbar]
    generalize sh.parse (sh.canonicalize args.text) = p
    by_cases hold : cfg.wholeOverrideHits re sh tool args ≠ []
    · have hhits : (cfg.approve new).wholeOverrideHits re sh tool args ≠ [] := by
        rw [wholeOverrideHits_ne_nil_iff] at hold ⊢
        exact hold.imp (fun h => overrideHits_approve_ne_nil_iff.mpr (.inl h))
          fun h => overrideHits_approve_ne_nil_iff.mpr (.inl h)
      rw [if_pos hold, if_pos hhits]
      exact ⟨fun _ => .inl ⟨_, rfl⟩, fun _ => ⟨_, rfl⟩⟩
    · rw [if_neg hold]
      by_cases hwhole : cfg.Approved re tool new args ∨ cfg.Approved re tool new (sh.canonArgs args)
      · have hhits : (cfg.approve new).wholeOverrideHits re sh tool args ≠ [] := by
          rw [wholeOverrideHits_ne_nil_iff]
          exact hwhole.imp (fun h => overrideHits_approve_ne_nil_iff.mpr (.inr h))
            fun h => overrideHits_approve_ne_nil_iff.mpr (.inr h)
        rw [if_pos hhits]
        refine ⟨fun _ => .inr ?_, fun _ => ⟨_, rfl⟩⟩
        exact hwhole.imp_right .inl
      · obtain ⟨hargs, hcanon⟩ := not_or.mp hwhole
        have hhits : ¬ (cfg.approve new).wholeOverrideHits re sh tool args ≠ [] := by
          rw [wholeOverrideHits_ne_nil_iff] at hold ⊢
          rwa [overrideHits_approve_of_not hargs, overrideHits_approve_of_not hcanon]
        rw [if_neg hhits, or_iff_right hargs, or_iff_right hcanon]
        by_cases hkind : p.kind = .simple
        · rw [if_pos hkind, if_pos hkind, evaluateSubcommands_allow_iff hkind,
            evaluateSubcommands_allow_iff hkind, unhindered_approve, and_iff_right hkind]
          simp only [allows_approve_iff]
          constructor
          · exact fun h => .inr h
          · rintro (⟨hne, hall, hfree⟩ | h)
            · exact ⟨hne, fun text hmem => .inl (hall text hmem), hfree⟩
            · exact h
        · rw [if_neg hkind, if_neg hkind, evaluateSingleInvocation_approve_of_not hcanon]
          exact ⟨.inl, fun h => h.resolve_right fun h => hkind h.1⟩

/-- No approval applies to the command, its canonical form or one of its subcommands. -/
def Config.Untouched (sh : Shell) (args : ToolArgs) (approved : ToolArgs → Prop)
    (p : ShellParse) : Prop :=
  ¬ approved args ∧ ¬ approved (sh.canonArgs args) ∧
    ∀ text ∈ p.texts, ¬ approved (args.withCommand text)

theorem subcommandResults_approve_of_not {texts : List String}
    (h : ∀ text ∈ texts, ¬ cfg.Approved re tool new (args.withCommand text)) :
    (cfg.approve new).subcommandResults re tool args texts =
      cfg.subcommandResults re tool args texts := by
  induction texts with
  | nil => rfl
  | cons text texts ih =>
    rw [Config.subcommandResults, Config.subcommandResults,
      evaluateSingleInvocation_approve_of_not (h text (.head _)),
      ih fun t ht => h t (.tail _ ht)]

theorem evaluate_approve_of_untouched (hshell : cfg.category tool = some .shell)
    (h : Config.Untouched sh args (cfg.Approved re tool new)
      (sh.parse (sh.canonicalize args.text))) :
    (cfg.approve new).evaluate re sh tool args = cfg.evaluate re sh tool args := by
  obtain ⟨hargs, hcanon, htexts⟩ := h
  have hwhole : (cfg.approve new).wholeOverrideHits re sh tool args =
      cfg.wholeOverrideHits re sh tool args := by
    rw [Config.wholeOverrideHits, Config.wholeOverrideHits, overrideHits_approve_of_not hargs,
      overrideHits_approve_of_not hcanon]
  by_cases hbar : cfg.Barred tool
  · obtain ⟨rule, hrule⟩ := hbar
    have hrule' : (cfg.approve new).baseline tool = some (.deny, rule) := hrule
    rw [Config.evaluate, Config.evaluate, hrule, hrule']
  · have hshell' : (cfg.approve new).category tool = some .shell := hshell
    have hbar' : ¬ (cfg.approve new).Barred tool := hbar
    rw [evaluate_of_not_barred hshell' hbar',
      evaluate_of_not_barred hshell hbar, hwhole, evaluateSingleInvocation_approve_of_not hcanon,
      Config.evaluateSubcommands, Config.evaluateSubcommands,
      subcommandResults_approve_of_not htexts, evaluateParamRulesOnly_approve, canonFull_approve]
    rfl

end JiuwenSpec.Permission

import JiuwenSpec.Permission.DenyDominance
import JiuwenSpec.Permission.Narrowing

/-!
# Narrowing only tightens

The evaluator reads the level of a tool in one place: after the rules and the approvals, and
before them where it denies. So a section with a stricter level for a tool judges each of its
calls at least as strictly. Narrowing yields such a section where it succeeds and does not take
a looser level from the defaults than the evaluator would, since it looks the tool itself up
there, which the evaluator does not.
-/

namespace JiuwenSpec.Permission

open Base List Dict
open Option (bind_eq_bind bind_some isSome_iff_exists isSome_map)

theorem order_stricter_le_iff (a b : Level) (n : Nat) :
    (a.stricter b).order ≤ n ↔ a.order ≤ n ∨ b.order ≤ n := by
  rw [Level.stricter]
  split
  · next h => exact ⟨.inr, fun h' => h'.elim (fun ha => h.le.trans ha) id⟩
  · next h => exact ⟨.inl, fun h' => h'.elim id fun hb => (not_lt.mp h).trans hb⟩

theorem order_strictest_le_iff (l : Level) (ls : List Level) (n : Nat) :
    (strictest (l :: ls)).order ≤ n ↔ ∃ x ∈ l :: ls, x.order ≤ n := by
  rw [strictest]
  induction ls generalizing l with
  | nil => simp
  | cons l' ls ih =>
    rw [foldl_cons, ih]
    simp only [mem_cons, exists_eq_or_imp, order_stricter_le_iff, or_assoc]

theorem strictest_le_strictest {l l' : Level} {ls ls' : List Level}
    (h : ∀ x ∈ l :: ls, ∃ x' ∈ l' :: ls', x'.order ≤ x.order) :
    (strictest (l' :: ls')).order ≤ (strictest (l :: ls)).order := by
  obtain ⟨x, hx, hle⟩ := (order_strictest_le_iff l ls _).mp le_rfl
  obtain ⟨x', hx', hle'⟩ := h x hx
  exact (order_strictest_le_iff l' ls' _).mpr ⟨x', hx', hle'.trans hle⟩

theorem strictest_pair_le {a a' : Level} (h : a'.order ≤ a.order) (b : Level) :
    (strictest [a', b]).order ≤ (strictest [a, b]).order := by
  apply strictest_le_strictest
  intro x hx
  rcases mem_cons.mp hx with rfl | hx
  · exact ⟨a', .head _, h⟩
  · exact ⟨x, .tail _ hx, le_rfl⟩

theorem eq_deny_of_order_le {l l' : Level} (h : l'.order ≤ l.order) (hl : l = .deny) :
    l' = .deny := by
  subst hl
  cases l' with
  | deny => rfl
  | ask => exact absurd h (by decide)
  | allow => exact absurd h (by decide)

theorem order_deny_le (l : Level) : Level.deny.order ≤ l.order := Nat.zero_le _

variable {re : Re} {sh : Shell} {cfg : Config} {tools : Dict String Baseline} {tool : String}
  {args : ToolArgs}

theorem paramRuleHits_tools (re : Re) (cfg : Config) (tools : Dict String Baseline)
    (tool : String) (args : ToolArgs) (ns : String) (rules : List Rule) :
    ({ cfg with tools := tools } : Config).paramRuleHits re tool args ns rules =
      cfg.paramRuleHits re tool args ns rules := by
  induction rules with
  | nil => rfl
  | cons rule rules ih =>
    rw [Config.paramRuleHits, Config.paramRuleHits, ih]
    rfl

theorem evaluateParamRulesOnly_tools (re : Re) (cfg : Config) (tools : Dict String Baseline)
    (tool : String) (args : ToolArgs) :
    ({ cfg with tools := tools } : Config).evaluateParamRulesOnly re tool args =
      cfg.evaluateParamRulesOnly re tool args := by
  simp only [Config.evaluateParamRulesOnly, paramRuleHits_tools]
  rfl

/-- The tool's level is at least as strict with other tools. -/
def Stricter (cfg : Config) (tools : Dict String Baseline) (tool : String) : Prop :=
  (({ cfg with tools := tools } : Config).fallback tool).1.order ≤ (cfg.fallback tool).1.order

theorem evaluateSingleInvocation_stricter (h : Stricter cfg tools tool) {v : Verdict}
    (hv : cfg.evaluateSingleInvocation re tool args = some v) :
    ∃ v', ({ cfg with tools := tools } : Config).evaluateSingleInvocation re tool args = some v' ∧
      v'.1.order ≤ v.1.order := by
  rw [Config.evaluateSingleInvocation] at hv ⊢
  simp only [paramRuleHits_tools]
  change cfg.paramRuleHits re tool args "builtin" cfg.builtinRules >>= _ = _ at hv
  change ∃ v', cfg.paramRuleHits re tool args "builtin" cfg.builtinRules >>= _ = some v' ∧ _
  cases hb : cfg.paramRuleHits re tool args "builtin" cfg.builtinRules with
  | none =>
    rw [hb] at hv
    cases hv
  | some b =>
    rw [hb, bind_eq_bind, bind_some] at hv
    rw [bind_eq_bind, bind_some]
    by_cases hbd : b.any (·.1 = .deny) = true
    · rw [if_pos hbd] at hv ⊢
      exact ⟨v, hv, le_rfl⟩
    · rw [if_neg hbd] at hv ⊢
      change cfg.paramRuleHits re tool args "rules" cfg.userRules >>= _ = _ at hv
      change ∃ v', cfg.paramRuleHits re tool args "rules" cfg.userRules >>= _ = some v' ∧ _
      cases hu : cfg.paramRuleHits re tool args "rules" cfg.userRules with
      | none =>
        rw [hu] at hv
        cases hv
      | some u =>
        rw [hu, bind_eq_bind, bind_some] at hv
        rw [bind_eq_bind, bind_some]
        by_cases hud : u.any (·.1 = .deny) = true
        · rw [if_pos hud] at hv ⊢
          exact ⟨v, hv, le_rfl⟩
        · rw [if_neg hud] at hv ⊢
          by_cases ho : cfg.overrideHits re tool args ≠ []
          · rw [if_pos ho] at hv
            exact ⟨v, (if_pos ho).trans hv, le_rfl⟩
          · rw [if_neg ho] at hv
            by_cases hb' : b ≠ []
            · rw [if_pos hb'] at hv
              exact ⟨v, (if_neg ho).trans ((if_pos hb').trans hv), le_rfl⟩
            · rw [if_neg hb'] at hv
              by_cases hu' : u ≠ []
              · rw [if_pos hu'] at hv
                exact ⟨v, (if_neg ho).trans ((if_neg hb').trans ((if_pos hu').trans hv)), le_rfl⟩
              · rw [if_neg hu'] at hv
                cases hv
                exact ⟨_, (if_neg ho).trans ((if_neg hb').trans (if_neg hu')), h⟩

theorem subcommandResults_stricter (h : Stricter cfg tools tool) (args : ToolArgs)
    (texts : List String) : ∀ results, cfg.subcommandResults re tool args texts = some results →
      ∃ results', ({ cfg with tools := tools } : Config).subcommandResults re tool args texts =
          some results' ∧ (results = [] ↔ results' = []) ∧
        ∀ r ∈ results, ∃ r' ∈ results', r'.2.1.order ≤ r.2.1.order := by
  induction texts with
  | nil =>
    intro results hresults
    cases hresults
    exact ⟨[], rfl, Iff.rfl, nofun⟩
  | cons text texts ih =>
    intro results hresults
    rw [Config.subcommandResults] at hresults ⊢
    cases hv : cfg.evaluateSingleInvocation re tool (args.withCommand text) with
    | none =>
      rw [hv] at hresults
      cases hresults
    | some v =>
      obtain ⟨v', hv', hle⟩ := evaluateSingleInvocation_stricter h hv
      rw [hv, bind_eq_bind, bind_some] at hresults
      rw [hv', bind_eq_bind, bind_some]
      by_cases hdeny' : v'.1 = .deny
      · -- the first denial ends the walk, so it meets every result of the base
        rw [if_pos hdeny']
        refine ⟨_, rfl, ⟨fun hnil => ?_, fun hnil => (by cases hnil)⟩, fun r _ =>
          ⟨_, .head _, ?_⟩⟩
        · subst hnil
          split at hresults
          · cases hresults
          · cases hrest : cfg.subcommandResults re tool args texts with
            | none =>
              rw [hrest] at hresults
              cases hresults
            | some rest =>
              rw [hrest] at hresults
              cases hresults
        · change v'.1.order ≤ _
          rw [hdeny']
          exact order_deny_le _
      · have hdeny : v.1 ≠ .deny := fun hd => hdeny' (eq_deny_of_order_le hle hd)
        rw [if_neg hdeny']
        rw [if_neg hdeny] at hresults
        cases hrest : cfg.subcommandResults re tool args texts with
        | none =>
          rw [hrest] at hresults
          cases hresults
        | some rest =>
          rw [hrest] at hresults
          cases hresults
          obtain ⟨rest', hrest', -, hmet⟩ := ih rest hrest
          rw [hrest']
          refine ⟨_, rfl, ⟨fun hnil ↦ (by cases hnil), fun hnil ↦ (by cases hnil)⟩, fun r hr ↦ ?_⟩
          rcases mem_cons.mp hr with rfl | hr
          · exact ⟨(text, v'), .head _, hle⟩
          · obtain ⟨r', hr', hle'⟩ := hmet r hr
            exact ⟨r', .tail _ hr', hle'⟩

theorem aggregate_level (r : String × Verdict) (results : List (String × Verdict)) :
    (aggregate (r :: results)).1 = strictest (r.2.1 :: results.map (·.2.1)) := by
  cases results with
  | nil => rfl
  | cons r' results => rfl

theorem aggregate_stricter {results results' : List (String × Verdict)}
    (hnil : results = [] ↔ results' = [])
    (h : ∀ r ∈ results, ∃ r' ∈ results', r'.2.1.order ≤ r.2.1.order) :
    (aggregate results').1.order ≤ (aggregate results).1.order := by
  cases results with
  | nil =>
    rw [hnil.mp rfl]
  | cons r results =>
    cases results' with
    | nil => cases hnil.mpr rfl
    | cons r' results' =>
      rw [aggregate_level, aggregate_level]
      apply strictest_le_strictest
      intro x hx
      rw [← map_cons (f := fun r : String × Verdict => r.2.1)] at hx
      obtain ⟨s, hs, rfl⟩ := mem_map.mp hx
      obtain ⟨s', hs', hle⟩ := h s hs
      exact ⟨s'.2.1, mem_map_of_mem (f := fun r : String × Verdict => r.2.1) hs', hle⟩

theorem withFull_stricter {v v' : Verdict} (h : v'.1.order ≤ v.1.order) (full : List Verdict) :
    (withFull v' full).1.order ≤ (withFull v full).1.order := by
  cases full with
  | nil => exact h
  | cons first full => exact strictest_pair_le h _

theorem withSink_stricter {v v' : Verdict} (h : v'.1.order ≤ v.1.order) (sink : Bool) :
    (withSink v' sink).1.order ≤ (withSink v sink).1.order := by
  cases sink with
  | false => exact h
  | true => exact strictest_pair_le h _

theorem applyShellAstFloor_level (v : Verdict) (level : Level) (rule : String) :
    (applyShellAstFloor v (some (level, rule))).1 = strictest [v.1, level] := by
  simp only [applyShellAstFloor]
  split
  · next h => exact h.symm
  · rfl

theorem applyShellAstFloor_stricter {v v' : Verdict} (h : v'.1.order ≤ v.1.order)
    (floor : Option Verdict) :
    (applyShellAstFloor v' floor).1.order ≤ (applyShellAstFloor v floor).1.order := by
  match floor with
  | none => exact h
  | some (level, rule) =>
    rw [applyShellAstFloor_level, applyShellAstFloor_level]
    exact strictest_pair_le h level

theorem evaluateSubcommands_stricter (h : Stricter cfg tools tool) {p : ShellParse} {v : Verdict}
    (hv : cfg.evaluateSubcommands re sh tool args p = some v) :
    ∃ v', ({ cfg with tools := tools } : Config).evaluateSubcommands re sh tool args p = some v' ∧
      v'.1.order ≤ v.1.order := by
  rw [Config.evaluateSubcommands] at hv ⊢
  rw [evaluateParamRulesOnly_tools]
  have hcanon : ({ cfg with tools := tools } : Config).canonFull re sh tool args =
      cfg.canonFull re sh tool args := by
    rw [Config.canonFull, Config.canonFull, evaluateParamRulesOnly_tools]
  rw [hcanon]
  cases hresults : cfg.subcommandResults re tool args p.texts with
  | none =>
    rw [hresults] at hv
    cases hv
  | some results =>
    obtain ⟨results', hresults', hnil, hmet⟩ :=
      subcommandResults_stricter h args p.texts results hresults
    rw [hresults, bind_eq_bind, bind_some] at hv
    rw [hresults', bind_eq_bind, bind_some]
    cases horig : cfg.evaluateParamRulesOnly re tool args with
    | none =>
      rw [horig] at hv
      cases hv
    | some orig =>
      rw [horig, bind_eq_bind, bind_some] at hv
      rw [bind_eq_bind, bind_some]
      cases hfull : cfg.canonFull re sh tool args with
      | none =>
        rw [hfull] at hv
        cases hv
      | some full =>
        rw [hfull] at hv
        cases hv
        exact ⟨_, rfl, applyShellAstFloor_stricter (withSink_stricter
          (withFull_stricter (aggregate_stricter hnil hmet) _) _) _⟩

theorem evaluate_stricter (h : Stricter cfg tools tool)
    (hdeny : ∀ rule, cfg.baseline tool = some (.deny, rule) →
      ∃ rule', ({ cfg with tools := tools } : Config).baseline tool = some (.deny, rule'))
    {v : Verdict} (hv : cfg.evaluate re sh tool args = some v) :
    ∃ v', ({ cfg with tools := tools } : Config).evaluate re sh tool args = some v' ∧
      v'.1.order ≤ v.1.order := by
  rw [Config.evaluate] at hv ⊢
  split
  · next rule hrule => exact ⟨_, rfl, order_deny_le _⟩
  · next hnot =>
    split at hv
    · next rule hrule =>
      obtain ⟨rule', hrule'⟩ := hdeny rule hrule
      exact absurd hrule' (hnot rule')
    · next hnot' =>
      have hwhole : ({ cfg with tools := tools } : Config).wholeOverrideHits re sh tool args =
        cfg.wholeOverrideHits re sh tool args := rfl
      have hparse : ({ cfg with tools := tools } : Config).shellParse sh tool args =
        cfg.shellParse sh tool args := rfl
      simp only [hwhole, hparse] at hv ⊢
      by_cases hhits : cfg.wholeOverrideHits re sh tool args ≠ []
      · rw [if_pos hhits] at hv ⊢
        exact ⟨v, hv, le_rfl⟩
      · rw [if_neg hhits] at hv ⊢
        cases hshell : cfg.shellParse sh tool args with
        | none =>
          rw [hshell] at hv
          exact evaluateSingleInvocation_stricter h hv
        | some p =>
          rw [hshell] at hv
          simp only at hv ⊢
          by_cases hkind : p.kind = .simple
          · rw [if_pos hkind] at hv ⊢
            exact evaluateSubcommands_stricter h hv
          · rw [if_neg hkind] at hv ⊢
            obtain ⟨w, hw, rfl⟩ := Option.map_eq_some_iff.mp hv
            obtain ⟨w', hw', hle⟩ := evaluateSingleInvocation_stricter h hw
            exact ⟨_, congrArg _ hw', applyShellAstFloor_stricter hle _⟩

variable {p p' : PermissionSection} {defaults : Part DefaultEntry} {override : Dict String String}

theorem parseLevel_value (l : Level) : parseLevel l.value = some l := by
  cases l <;> decide

def Part.entries? (part : Part ToolEntry) : Option (Dict String ToolEntry) :=
  match part with
  | .missing => some Dict.empty
  | .dict entries => some entries
  | .other => none

theorem entries?_get? {part : Part ToolEntry} {entries : Dict String ToolEntry}
    (h : part.entries? = some entries) (key : String) : part.get? key = entries.get? key := by
  cases part with
  | missing =>
    cases h
    rfl
  | dict entries' =>
    cases h
    rfl
  | other => cases h

theorem baseLevel_set_of_ne (entries : Dict String ToolEntry) (defaults : Part DefaultEntry)
    {tool tool' : String} (h : tool' ≠ tool) (e : ToolEntry) :
    baseLevel (entries.set tool e) defaults tool' = baseLevel entries defaults tool' := by
  rw [baseLevel, get?_set_of_ne _ _ h, baseLevel]

theorem narrowTools_spec (defaults : Part DefaultEntry) (items : List (String × String))
    (hnodup : (items.map Prod.fst).Nodup) : ∀ entries : Dict String ToolEntry,
    (∀ entries', narrowTools defaults items entries = some entries' →
      (∀ e ∈ items, ∃ level base, permissionLevel e.2 = some level ∧
        baseLevel entries defaults e.1 = some base ∧
          entries'.get? e.1 = some (.text (strictest [base, level]).value)) ∧
        ∀ key, key ∉ items.map Prod.fst → entries'.get? key = entries.get? key) ∧
      ((∀ e ∈ items, (permissionLevel e.2).isSome ∧ (baseLevel entries defaults e.1).isSome) →
        (narrowTools defaults items entries).isSome) := by
  induction items with
  | nil =>
    intro entries
    refine ⟨fun entries' h => ?_, fun _ => rfl⟩
    cases h
    exact ⟨nofun, fun _ _ => rfl⟩
  | cons item items ih =>
    intro entries
    obtain ⟨tool, value⟩ := item
    rw [map_cons, nodup_cons] at hnodup
    have hne : ∀ e ∈ items, e.1 ≠ tool := fun e he heq =>
      hnodup.1 (mem_map.mpr ⟨e, he, heq⟩)
    rw [narrowTools]
    constructor
    · intro entries' h
      obtain ⟨level, hlevel, h⟩ := Option.bind_eq_some_iff.mp h
      obtain ⟨base, hbase, h⟩ := Option.bind_eq_some_iff.mp h
      obtain ⟨hitems, hrest⟩ := (ih hnodup.2 _).1 entries' h
      constructor
      · intro e he
        rcases mem_cons.mp he with rfl | he
        · refine ⟨level, base, hlevel, hbase, ?_⟩
          rw [hrest _ hnodup.1, get?_set_self]
        · obtain ⟨level', base', hlevel', hbase', hget⟩ := hitems e he
          rw [baseLevel_set_of_ne _ _ (hne e he)] at hbase'
          exact ⟨level', base', hlevel', hbase', hget⟩
      · intro key hkey
        rw [map_cons, mem_cons, not_or] at hkey
        rw [hrest key hkey.2, get?_set_of_ne _ _ hkey.1]
    · intro h
      obtain ⟨hlevel, hbase⟩ := h _ (.head _)
      obtain ⟨level, hlevel⟩ := isSome_iff_exists.mp hlevel
      obtain ⟨base, hbase⟩ := isSome_iff_exists.mp hbase
      rw [hlevel, bind_eq_bind, bind_some, hbase, bind_some]
      refine (ih hnodup.2 _).2 fun e he => ?_
      obtain ⟨hl, hb⟩ := h e (.tail _ he)
      rw [baseLevel_set_of_ne _ _ (hne e he)]
      exact ⟨hl, hb⟩

theorem narrow_spec (h : p.narrow override = some p') :
    p'.config = { p.config with tools := p'.tools.baselines } ∧
      (∀ tool value, override.get? tool = some value → ∃ entries level base,
        p.tools.entries? = some entries ∧ permissionLevel value = some level ∧
          baseLevel entries p.defaults tool = some base ∧
          p'.tools.get? tool = some (.text (strictest [base, level]).value)) ∧
      ∀ tool, override.get? tool = none → p'.tools.get? tool = p.tools.get? tool := by
  have hloop : ∀ entries, p.tools.entries? = some entries →
      (narrowTools p.defaults override.entries entries).map
        (fun entries' => { p with tools := .dict entries' }) = some p' →
      p'.config = { p.config with tools := p'.tools.baselines } ∧
        (∀ tool value, override.get? tool = some value → ∃ entries level base,
          p.tools.entries? = some entries ∧ permissionLevel value = some level ∧
            baseLevel entries p.defaults tool = some base ∧
            p'.tools.get? tool = some (.text (strictest [base, level]).value)) ∧
        ∀ tool, override.get? tool = none → p'.tools.get? tool = p.tools.get? tool := by
    intro entries hentries hmap
    obtain ⟨entries', hentries', rfl⟩ := Option.map_eq_some_iff.mp hmap
    obtain ⟨hitems, hrest⟩ :=
      (narrowTools_spec p.defaults override.entries override.nodup entries).1 entries' hentries'
    refine ⟨rfl, fun tool value hget => ?_, fun tool hget => ?_⟩
    · obtain ⟨level, base, hlevel, hbase, hget'⟩ := hitems _ (get?_eq_some_iff.mp hget)
      exact ⟨entries, level, base, hentries, hlevel, hbase, hget'⟩
    · rw [entries?_get? hentries]
      exact hrest tool (get?_eq_none_iff.mp hget)
  rw [PermissionSection.narrow] at h
  split at h
  · next htools => exact hloop _ (by rw [htools]; rfl) h
  · next entries htools => exact hloop entries (by rw [htools]; rfl) h
  · split at h
    · next hnil =>
      cases h
      refine ⟨rfl, fun tool value hget => ?_, fun _ _ => rfl⟩
      have := get?_eq_some_iff.mp hget
      rw [hnil] at this
      cases this
    · cases h

theorem narrow_isSome (h : ∀ tool value, override.get? tool = some value →
    ∃ entries, p.tools.entries? = some entries ∧ (permissionLevel value).isSome ∧
      (baseLevel entries p.defaults tool).isSome) : ∃ p', p.narrow override = some p' := by
  apply isSome_iff_exists.mp
  have hloop : ∀ entries, p.tools.entries? = some entries →
      (narrowTools p.defaults override.entries entries).isSome := by
    intro entries hentries
    refine (narrowTools_spec p.defaults override.entries override.nodup entries).2 fun e he => ?_
    obtain ⟨entries', hentries', hsome⟩ := h e.1 e.2 (get?_eq_some_iff.mpr he)
    cases hentries.symm.trans hentries'
    exact hsome
  rw [PermissionSection.narrow]
  split
  · next htools =>
    rw [isSome_map]
    exact hloop _ (by rw [htools]; rfl)
  · next entries htools =>
    rw [isSome_map]
    exact hloop entries (by rw [htools]; rfl)
  · next htools =>
    split
    · rfl
    · next hne =>
      obtain ⟨e, he⟩ := exists_mem_of_ne_nil _ hne
      obtain ⟨entries, hentries, -⟩ := h e.1 e.2 (get?_eq_some_iff.mpr he)
      rw [htools] at hentries
      cases hentries

theorem baselines_get? (part : Part ToolEntry) (tool : String) :
    part.baselines.get? tool = (part.get? tool).map ToolEntry.baseline := by
  cases part with
  | missing => rfl
  | dict entries => exact get?_mapValues entries _ tool
  | other => rfl

theorem baseline_congr (h : p'.tools.get? tool = p.tools.get? tool) :
    p'.config.baseline tool = p.config.baseline tool := by
  rw [Config.baseline, Config.baseline]
  rw [show p'.config.tools = p'.tools.baselines from rfl,
    show p.config.tools = p.tools.baselines from rfl, baselines_get?, baselines_get?, h]

theorem baseline_text {value : String} {level : Level}
    (h : p.tools.get? tool = some (.text value)) (hlevel : parseLevel value = some level) :
    p.config.baseline tool = some (level, "tools." ++ tool) := by
  rw [Config.baseline, show p.config.tools = p.tools.baselines from rfl, baselines_get?, h]
  simp only [Option.map_some, ToolEntry.baseline, hlevel]

def Silent (tools : Part ToolEntry) (tool : String) : Prop :=
  tools.get? tool = none ∨ tools.get? tool = some .null

theorem silent_of_not {tools : Part ToolEntry}
    (htext : ∀ v, tools.get? tool = some (.text v) → False)
    (htable : ∀ star, tools.get? tool = some (.table star) → False)
    (hother : tools.get? tool = some .other → False) : Silent tools tool := by
  cases hget : tools.get? tool with
  | none => exact .inl hget
  | some e =>
    cases e with
    | text v => exact (htext v hget).elim
    | null => exact .inr hget
    | table star => exact (htable star hget).elim
    | other => exact (hother hget).elim

theorem entries?_of_ne {part : Part ToolEntry} (h : part = .other → False) :
    ∃ entries, part.entries? = some entries := by
  cases part with
  | missing => exact ⟨_, rfl⟩
  | dict entries => exact ⟨entries, rfl⟩
  | other => exact (h rfl).elim

theorem baseline_silent (h : Silent p.tools tool) : p.config.baseline tool = none := by
  rw [Config.baseline, show p.config.tools = p.tools.baselines from rfl, baselines_get?]
  rcases h with h | h
  · rw [h]
    rfl
  · rw [h]
    rfl

theorem fallback_silent (h : Silent p.tools tool) :
    (p.config.fallback tool).1 = p.defaults.wildcard := by
  rw [Config.fallback, baseline_silent h, Part.wildcard,
    show p.config.default = p.defaults.star from rfl]
  cases p.defaults.star.bind parseLevel with
  | none => rfl
  | some level => rfl

theorem fallback_of_baseline {v : Verdict} (h : cfg.baseline tool = some v) :
    cfg.fallback tool = v := by
  rw [Config.fallback, h]

theorem baseLevel_silent {entries : Dict String ToolEntry}
    (h : p.tools.entries? = some entries) (hsilent : Silent p.tools tool) :
    baseLevel entries p.defaults tool = p.defaults.defaultLevel tool := by
  rw [Silent, entries?_get? h] at hsilent
  rw [baseLevel]
  rcases hsilent with h | h
  · rw [h]
  · rw [h]

theorem defaultLevel_none {defaults : Part DefaultEntry} (h : defaults = .other → False)
    (hstr : defaults.defaultStr tool = none) : defaults.defaultLevel tool = some .ask := by
  cases defaults with
  | missing => rfl
  | dict entries => rw [Part.defaultLevel, hstr]; exact fun heq => (by cases heq)
  | other => exact (h rfl).elim

theorem defaultLevel_some {defaults : Part DefaultEntry} {e : DefaultEntry}
    (h : defaults = .other → False) (hstr : defaults.defaultStr tool = some e) :
    defaults.defaultLevel tool = e.parseLevel := by
  cases defaults with
  | missing => cases hstr
  | dict entries => rw [Part.defaultLevel, hstr]; exact fun heq => (by cases heq)
  | other => exact (h rfl).elim

theorem wildcard_of_defaultStr_none {defaults : Part DefaultEntry}
    (h : defaults.defaultStr tool = none) : defaults.wildcard = .ask := by
  rw [Part.defaultStr] at h
  split at h
  · cases h
  · rw [Part.wildcard, Part.star]
    split
    · next value hvalue =>
      rw [hvalue, Option.filter_eq_none_iff] at h
      have hempty : ¬ DefaultEntry.isTruthy (.text value) = true := h _ rfl
      rw [DefaultEntry.isTruthy, decide_eq_true_iff, not_not] at hempty
      rw [hempty]
      rfl
    · rfl

theorem levels_of_narrowable {value : String} (h : Narrowable p.tools p.defaults tool value) :
    ∃ entries level base, p.tools.entries? = some entries ∧ permissionLevel value = some level ∧
      baseLevel entries p.defaults tool = some base ∧
        (strictest [base, level]).order ≤ (p.config.fallback tool).1.order := by
  obtain ⟨level, hlevel, h⟩ := h
  have hmin : ∀ base n, base.order ≤ n ∨ level.order ≤ n →
      (strictest [base, level]).order ≤ n := by
    rintro base n (hb | hl)
    · exact (order_strictest_le_iff _ _ _).mpr ⟨base, .head _, hb⟩
    · exact (order_strictest_le_iff _ _ _).mpr
        ⟨level, .tail _ (.head _), hl⟩
  split at h
  · exact h.elim
  · next hother =>
    obtain ⟨entries, hentries⟩ := entries?_of_ne hother
    suffices hbase : ∃ base, baseLevel entries p.defaults tool = some base ∧
        (strictest [base, level]).order ≤ (p.config.fallback tool).1.order by
      obtain ⟨base, hbase, hle⟩ := hbase
      exact ⟨entries, level, base, hentries, hlevel, hbase, hle⟩
    split at h
    · next v hget =>
      obtain ⟨base, hbase⟩ := Option.ne_none_iff_exists'.mp h
      refine ⟨base, ?_, ?_⟩
      · rw [baseLevel, ← entries?_get? hentries, hget]
        exact hbase
      · rw [fallback_of_baseline (baseline_text hget hbase)]
        exact hmin base _ (.inl le_rfl)
    · exact h.elim
    · exact h.elim
    · next hnt hntab hno =>
      have hsilent : Silent p.tools tool := silent_of_not hnt hntab hno
      rw [baseLevel_silent hentries hsilent, fallback_silent hsilent]
      split at h
      · exact h.elim
      · next hdef =>
        split at h
        · next hstr =>
          rw [defaultLevel_none hdef hstr, wildcard_of_defaultStr_none hstr]
          exact ⟨.ask, rfl, hmin _ _ (.inl le_rfl)⟩
        · next v hstr =>
          obtain ⟨l, hl, hle⟩ := h
          rw [defaultLevel_some hdef hstr]
          exact ⟨l, hl, hmin l _ hle⟩
        · exact h.elim

theorem narrowable_of_levels {entries : Dict String ToolEntry} {value : String}
    {level base : Level} (hentries : p.tools.entries? = some entries)
    (hlevel : permissionLevel value = some level)
    (hbase : baseLevel entries p.defaults tool = some base)
    (hle : Silent p.tools tool →
      (strictest [base, level]).order ≤ (p.config.fallback tool).1.order) :
    Narrowable p.tools p.defaults tool value := by
  refine ⟨level, hlevel, ?_⟩
  split
  · next htools =>
    rw [htools] at hentries
    cases hentries
  · have hdefault : Silent p.tools tool → p.defaults.defaultLevel tool = some base :=
      fun hsilent => (baseLevel_silent hentries hsilent).symm.trans hbase
    rw [baseLevel, ← entries?_get? hentries] at hbase
    split
    · next v hget =>
      rw [hget] at hbase
      change parseLevel v = some base at hbase
      rw [hbase]
      exact Option.some_ne_none base
    · next hget =>
      rw [hget] at hbase
      cases hbase
    · next hget =>
      rw [hget] at hbase
      cases hbase
    · next hnt hntab hno =>
      have hsilent : Silent p.tools tool := silent_of_not hnt hntab hno
      have hle := hle hsilent
      have hdefault := hdefault hsilent
      rw [fallback_silent hsilent] at hle
      split
      · next hother =>
        rw [hother] at hdefault
        cases hdefault
      · next hdef =>
        split
        · trivial
        · next v hstr =>
          rw [defaultLevel_some hdef hstr] at hdefault
          refine ⟨base, hdefault, ?_⟩
          obtain ⟨x, hx, hx'⟩ := (order_strictest_le_iff _ _ _).mp hle
          rcases mem_cons.mp hx with rfl | hx
          · exact .inl hx'
          · rw [mem_singleton.mp hx] at hx'
            exact .inr hx'
        · next e hnv hstr =>
          rw [defaultLevel_some hdef hstr] at hdefault
          cases e with
          | text v => exact absurd rfl (hnv v)
          | falsy => cases hdefault
          | truthy => cases hdefault

/-- The section has no rules, no approvals and no guards. -/
structure Config.Plain (cfg : Config) : Prop where
  rules : cfg.rules = []
  approvals : cfg.approvalOverrides = []
  structureOff : cfg.unknownStructure = some false
  sinkOff : cfg.interpreterSink = some false

theorem Config.Plain.paramRuleHits (h : cfg.Plain) (re : Re) (tool : String) (args : ToolArgs) :
    cfg.paramRuleHits re tool args "builtin" cfg.builtinRules = some [] ∧
      cfg.paramRuleHits re tool args "rules" cfg.userRules = some [] := by
  rw [Config.builtinRules, Config.userRules, h.rules]
  exact ⟨rfl, rfl⟩

theorem Config.Plain.overrideHits (h : cfg.Plain) (re : Re) (tool : String) (args : ToolArgs) :
    cfg.overrideHits re tool args = [] := by
  rw [Config.overrideHits, h.approvals]
  rfl

theorem Config.Plain.evaluateSingleInvocation (h : cfg.Plain) (re : Re) (tool : String)
    (args : ToolArgs) :
    cfg.evaluateSingleInvocation re tool args = some (cfg.fallback tool) := by
  obtain ⟨hb, hu⟩ := h.paramRuleHits re tool args
  rw [Config.evaluateSingleInvocation, hb, bind_eq_bind, bind_some,
    if_neg (by simp), hu, bind_some, if_neg (by simp), h.overrideHits]
  rfl

theorem Config.Plain.evaluateParamRulesOnly (h : cfg.Plain) (re : Re) (tool : String)
    (args : ToolArgs) : cfg.evaluateParamRulesOnly re tool args = some none := by
  obtain ⟨hb, hu⟩ := h.paramRuleHits re tool args
  rw [Config.evaluateParamRulesOnly, hb, bind_eq_bind, bind_some,
    if_neg (by simp), hu]
  rfl

theorem Config.Plain.subcommandResults (h : cfg.Plain) (re : Re) (tool : String)
    (args : ToolArgs) (texts : List String) : ∃ results,
      cfg.subcommandResults re tool args texts = some results ∧ (results = [] ↔ texts = []) ∧
        ∀ r ∈ results, r.2.1 = (cfg.fallback tool).1 := by
  induction texts with
  | nil => exact ⟨[], rfl, by simp, nofun⟩
  | cons text texts ih =>
    obtain ⟨rest, hrest, -, hlevels⟩ := ih
    rw [Config.subcommandResults, h.evaluateSingleInvocation, bind_eq_bind,
      bind_some, hrest]
    split
    · exact ⟨_, rfl, by simp, fun r hr => by rw [mem_singleton.mp hr]⟩
    · refine ⟨_, rfl, by simp, fun r hr => ?_⟩
      rcases mem_cons.mp hr with rfl | hr
      · rfl
      · exact hlevels r hr

theorem strictest_same {l : Level} {ls : List Level} (h : ∀ x ∈ ls, x = l) :
    strictest (l :: ls) = l := by
  rw [strictest]
  induction ls with
  | nil => rfl
  | cons l' ls ih =>
    have hl : l' = l := h l' (.head _)
    subst hl
    rw [foldl_cons, Level.stricter, ite_self]
    exact ih fun x hx => h x (.tail _ hx)

theorem aggregate_same {l : Level} {results : List (String × Verdict)} (hne : results ≠ [])
    (h : ∀ r ∈ results, r.2.1 = l) : (aggregate results).1 = l := by
  cases results with
  | nil => exact absurd rfl hne
  | cons r results =>
    rw [aggregate_level, h r mem_cons_self]
    apply strictest_same
    intro x hx
    obtain ⟨s, hs, rfl⟩ := mem_map.mp hx
    exact h s (.tail _ hs)

/-- The call is a command whose subcommands are not known, or it has one. -/
def Shell.Speaks (sh : Shell) (args : ToolArgs) : Prop :=
  (sh.parse (sh.canonicalize args.text)).kind = .simple →
    (sh.parse (sh.canonicalize args.text)).texts ≠ []

theorem Config.Plain.evaluate (h : cfg.Plain) (re : Re) (tool : String)
    (hargs : sh.Speaks args) :
    ∃ rule, cfg.evaluate re sh tool args = some ((cfg.fallback tool).1, rule) := by
  rw [Config.evaluate]
  split
  · next rule hrule =>
    rw [fallback_of_baseline hrule]
    exact ⟨rule, rfl⟩
  · have hwhole : cfg.wholeOverrideHits re sh tool args = [] := by
      rw [Config.wholeOverrideHits]
      simp only [h.overrideHits, ite_self]
    simp only [hwhole, ne_eq, not_true_eq_false, if_false]
    cases hshell : cfg.shellParse sh tool args with
    | none => exact ⟨_, h.evaluateSingleInvocation re tool args⟩
    | some p =>
      have hp : sh.parse (sh.canonicalize args.text) = p := by
        rw [Config.shellParse] at hshell
        split at hshell
        · exact Option.some.inj hshell
        · cases hshell
      rw [Shell.Speaks, hp] at hargs
      simp only
      have hfloor : shellAstFloor (some p) (cfg.unknownStructure.getD true) = none := by
        rw [h.structureOff]
        rfl
      by_cases hkind : p.kind = .simple
      · rw [if_pos hkind, Config.evaluateSubcommands]
        obtain ⟨results, hresults, hnil, hlevels⟩ :=
          h.subcommandResults re tool args p.texts
        have hcanon : cfg.canonFull re sh tool args = some none := by
          rw [Config.canonFull]
          split
          · rfl
          · exact h.evaluateParamRulesOnly re tool _
        have hne : results ≠ [] := fun hn => hargs hkind (hnil.mp hn)
        rw [hresults, bind_eq_bind, bind_some, h.evaluateParamRulesOnly,
          bind_eq_bind, bind_some, hcanon, hfloor, h.sinkOff,
          ← aggregate_same hne hlevels]
        exact ⟨_, rfl⟩
      · rw [if_neg hkind, h.evaluateSingleInvocation, hfloor]
        exact ⟨_, rfl⟩

/-- For the parts of a section that narrowing reads and an override, narrowing succeeds and only
tightens, whatever else the section holds and whatever is called, exactly where each tool of the
override may be narrowed. -/
theorem narrow_tightens_iff (re : Re) (sh : Shell) (hsh : ∃ args, sh.Speaks args)
    (tools : Part ToolEntry) (defaults : Part DefaultEntry) (override : Dict String String) :
    (∀ p : PermissionSection, p.tools = tools → p.defaults = defaults → p.Tightens re sh override) ↔
      ∀ tool value, override.get? tool = some value → Narrowable tools defaults tool value := by
  constructor
  · intro h tool value hget
    -- the section that says nothing else shows the level of the tool
    let p : PermissionSection :=
      { tools := tools, defaults := defaults, unknownStructure := some false,
        interpreterSink := some false }
    have hplain : p.config.Plain := ⟨rfl, rfl, rfl, rfl⟩
    obtain ⟨p', hnarrow, hle, -⟩ := h p rfl rfl
    obtain ⟨hconfig, hitems, -⟩ := narrow_spec hnarrow
    obtain ⟨entries, level, base, hentries, hlevel, hbase, hget'⟩ := hitems tool value hget
    have hplain' : p'.config.Plain := by
      rw [hconfig]
      exact ⟨rfl, rfl, rfl, rfl⟩
    obtain ⟨args, hargs⟩ := hsh
    obtain ⟨rule, hv⟩ := hplain.evaluate re tool hargs
    obtain ⟨rule', hv'⟩ := hplain'.evaluate re tool hargs
    obtain ⟨v', hv'', hle⟩ := hle tool args _ hv
    cases hv'.symm.trans hv''
    rw [fallback_of_baseline (baseline_text hget' (parseLevel_value _))] at hle
    exact narrowable_of_levels (p := p) hentries hlevel hbase fun _ => hle
  · rintro h p rfl rfl
    have hlevels : ∀ tool value, override.get? tool = some value →
        ∃ entries, p.tools.entries? = some entries ∧ (permissionLevel value).isSome ∧
          (baseLevel entries p.defaults tool).isSome := by
      intro tool value hget
      obtain ⟨entries, level, base, hentries, hlevel, hbase, -⟩ :=
        levels_of_narrowable (h tool value hget)
      exact ⟨entries, hentries, isSome_iff_exists.mpr ⟨level, hlevel⟩,
        isSome_iff_exists.mpr ⟨base, hbase⟩⟩
    obtain ⟨p', hnarrow⟩ := narrow_isSome hlevels
    obtain ⟨hconfig, hitems, hothers⟩ := narrow_spec hnarrow
    refine ⟨p', hnarrow, fun tool args v hv => ?_, fun tool args hget => ?_⟩
    · cases hget : override.get? tool with
      | none =>
        have hsame := baseline_congr (hothers tool hget)
        rw [hconfig] at hsame ⊢
        refine evaluate_stricter ?_ (fun rule hrule => ⟨rule, hsame.trans hrule⟩) hv
        rw [Stricter, Config.fallback, Config.fallback, hsame]
      | some value =>
        obtain ⟨entries, level, base, hentries, hlevel, hbase, hle⟩ :=
          levels_of_narrowable (h tool value hget)
        obtain ⟨entries', level', base', hentries', hlevel', hbase', hget'⟩ :=
          hitems tool value hget
        cases hentries.symm.trans hentries'
        cases hlevel.symm.trans hlevel'
        cases hbase.symm.trans hbase'
        have hbaseline := baseline_text hget' (parseLevel_value _)
        rw [hconfig] at hbaseline ⊢
        refine evaluate_stricter ?_ (fun rule hrule => ?_) hv
        · rw [Stricter, fallback_of_baseline hbaseline]
          exact hle
        · rw [fallback_of_baseline hrule] at hle
          have hdeny := eq_deny_of_order_le hle rfl
          rw [hdeny] at hbaseline
          exact ⟨_, hbaseline⟩
    · obtain ⟨entries, level, base, -, hlevel, -, hget'⟩ := hitems tool "deny" hget
      have hvalue : permissionLevel "deny" = some .deny := by decide
      cases hvalue.symm.trans hlevel
      have hdeny : strictest [base, .deny] = .deny :=
        strictest_eq_deny_iff.mpr (.tail _ (.head _))
      have hbaseline := baseline_text hget' (parseLevel_value _)
      rw [hdeny] at hbaseline
      rw [Config.evaluate, hbaseline]
      exact ⟨_, rfl⟩

theorem rmArgs_speaks : twoCommands.Speaks rmArgs := by
  intro _
  decide

def bashAllowed : PermissionSection where
  tools := .dict (Dict.empty.set "bash" (.text "allow"))

/-- A shell tool that is allowed may be narrowed to be denied. -/
theorem narrow_tightens_bash :
    bashAllowed.Tightens noMatch twoCommands (Dict.empty.set "bash" "deny") := by
  refine (narrow_tightens_iff noMatch twoCommands ⟨rmArgs, rmArgs_speaks⟩ bashAllowed.tools
    bashAllowed.defaults _).mpr ?_ bashAllowed rfl rfl
  intro tool value hget
  rw [get?_set] at hget
  split at hget
  · next htool =>
    subst htool
    cases hget
    exact ⟨.deny, by decide, show parseLevel "allow" ≠ none by decide⟩
  · cases hget

def loosened : PermissionSection where
  tools := .dict Dict.empty
  defaults := .dict ((Dict.empty.set "write_file" (.text "allow")).set "*" (.text "deny"))
  unknownStructure := some false
  interpreterSink := some false

/-- Narrowing the tool to ask lifts the denial that the evaluator had for it. -/
theorem loosened_not_tightened : ¬ ∀ (re : Re) (sh : Shell) (p : PermissionSection)
    (override : Dict String String), p.Tightens re sh override := by
  intro h
  obtain ⟨p', hnarrow, hle, -⟩ := h noMatch twoCommands loosened
    (Dict.empty.set "write_file" "ask")
  obtain ⟨hconfig, hitems, -⟩ := narrow_spec hnarrow
  obtain ⟨entries, level, base, hentries, hlevel, hbase, hget⟩ := hitems "write_file" "ask" rfl
  cases hentries
  have hask : permissionLevel "ask" = some .ask := by decide
  have hallow : baseLevel Dict.empty loosened.defaults "write_file" = some .allow := by decide
  cases hask.symm.trans hlevel
  cases hallow.symm.trans hbase
  have hplain : loosened.config.Plain := ⟨rfl, rfl, rfl, rfl⟩
  have hplain' : p'.config.Plain := by
    rw [hconfig]
    exact ⟨rfl, rfl, rfl, rfl⟩
  obtain ⟨rule, hv⟩ := hplain.evaluate noMatch "write_file" rmArgs_speaks
  obtain ⟨rule', hv'⟩ := hplain'.evaluate noMatch "write_file" rmArgs_speaks
  obtain ⟨v', hv'', hle⟩ := hle "write_file" rmArgs _ hv
  cases hv'.symm.trans hv''
  rw [fallback_of_baseline (baseline_text hget (parseLevel_value _))] at hle
  have hbase : (loosened.config.fallback "write_file").1 = .deny := by decide
  rw [hbase] at hle
  exact absurd (show (strictest [Level.allow, Level.ask]).order ≤ Level.deny.order from hle)
    (by decide)

end JiuwenSpec.Permission

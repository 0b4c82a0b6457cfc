import JiuwenSpec.Permission.Suggestions

/-!
# Always allowing a shell command

Where approvals are stored by texts that are read back as they stand, the command itself is
allowed afterwards unless a rule or a guard on the whole command asks, and another command becomes
allowed only if it is such a text or consists of such texts and of subcommands that were allowed
before.
-/

namespace JiuwenSpec.Permission

open Base List

variable {re : Re} {split : Lexer} {sh : Shell} {cfg : Config} {tool : String} {args : ToolArgs}

/-- The text is neither a wildcard pattern nor a regular expression. -/
def Literal (text : String) : Prop :=
  text.toList.any (· ∈ ['*', '?', '[']) = false ∧ regexPart text = none

instance instDecidableLiteral (text : String) : Decidable (Literal text) :=
  inferInstanceAs (Decidable (_ ∧ _))

theorem shellPatternMatches_literal {pattern : String} (h : Literal (strip pattern))
    (command : String) : shellPatternMatches re pattern command = true ↔
      pattern ≠ "" ∧ command ≠ "" ∧ command = strip pattern := by
  rw [shellPatternMatches]
  by_cases hempty : pattern = "" ∨ command = ""
  · rw [if_pos hempty]
    refine ⟨fun h => (by cases h), fun h => ?_⟩
    exact absurd hempty (not_or.mpr ⟨h.1, h.2.1⟩)
  · rw [if_neg hempty, ← and_assoc, and_iff_right (not_or.mp hempty)]
    simp only [h.2, h.1, Bool.false_eq_true, if_false, decide_eq_true_iff]

theorem withCommand_text (args : ToolArgs) (text : String) :
    (args.withCommand text).text = strip text := by
  obtain ⟨command, cmd⟩ := args
  by_cases htext : text = ""
  · subst htext
    cases command <;> cases cmd <;> rfl
  · cases command <;> cases cmd <;> simp [ToolArgs.withCommand, ToolArgs.text, htext]

theorem strip_text (args : ToolArgs) : strip args.text = args.text := strip_idem _

theorem canonArgs_text (sh : Shell) (args : ToolArgs) :
    (sh.canonArgs args).text = strip (sh.canonicalize args.text) := by
  rw [Shell.canonArgs]
  by_cases hsame : sh.canonicalize args.text = args.text
  · rw [if_pos hsame, hsame, strip_text]
  · rw [if_neg hsame, withCommand_text]

theorem mem_of_mem_dedupeSuggestions {s : Suggestion} {l : List Suggestion}
    (h : s ∈ dedupeSuggestions l) : s ∈ l := by
  induction l with
  | nil => cases h
  | cons t l ih =>
    rcases mem_cons.mp h with rfl | h
    · exact .head _
    · exact .tail _ (ih (mem_filter.mp h).1)

theorem exists_dedupeSuggestions {s : Suggestion} {l : List Suggestion} (h : s ∈ l) :
    ∃ t ∈ dedupeSuggestions l, t.pattern = s.pattern := by
  induction l with
  | nil => cases h
  | cons u l ih =>
    rw [dedupeSuggestions]
    rcases mem_cons.mp h with rfl | h
    · exact ⟨s, .head _, rfl⟩
    · obtain ⟨t, ht, hpattern⟩ := ih h
      by_cases hsame : u.same t = true
      · refine ⟨u, .head _, ?_⟩
        simp only [Suggestion.same, Bool.and_eq_true, decide_eq_true_iff] at hsame
        rw [hsame.1.2, hpattern]
      · refine ⟨t, .tail _ (mem_filter.mpr ⟨ht, ?_⟩), hpattern⟩
        rw [Bool.not_eq_true] at hsame
        rw [hsame]
        rfl

theorem buildSingleShellSuggestion_exactly {part : String} {s : Suggestion}
    (h : buildSingleShellSuggestion split tool part = some s) (hscope : s.scope = .exactly) :
    s = exactSuggestion tool (strip part) ∧ strip part ≠ "" := by
  rw [buildSingleShellSuggestion] at h
  by_cases hempty : strip part = ""
  · simp [hempty] at h
  · refine ⟨?_, hempty⟩
    cases hwords : extractPrefixBeforeHeredoc split (strip part) with
    | some words =>
      simp only [hempty, hwords, if_false] at h
      rw [← Option.some.inj h] at hscope
      cases hscope
    | none =>
      simp only [hempty, hwords, if_false] at h
      by_cases hline : '\n' ∈ (strip part).toList
      · rw [if_pos hline] at h
        by_cases hfirst : firstLine (strip part) = ""
        · rw [if_pos hfirst] at h
          cases h
        · rw [if_neg hfirst] at h
          obtain ⟨words, -, rfl⟩ := Option.map_eq_some_iff.mp h
          cases hscope
      · rw [if_neg hline] at h
        exact (Option.some.inj h).symm

def suggestedParts (sh : Shell) (args : ToolArgs) : List String :=
  commandParts sh (sh.canonicalize (sh.canonicalize args.text))

/-- Each part of the command is stored by its whole text. -/
structure StoresExactly (split : Lexer) (sh : Shell) (tool : String) (args : ToolArgs) : Prop where
  stores : buildPermissionSuggestions split sh tool args ≠ []
  parts : ∀ part ∈ suggestedParts sh args,
    ∃ s, buildSingleShellSuggestion split tool part = some s ∧ s.scope = .exactly

def storedTexts (sh : Shell) (args : ToolArgs) : List String := (suggestedParts sh args).map strip

theorem suggestions_eq (h : StoresExactly split sh tool args) :
    buildPermissionSuggestions split sh tool args = dedupeSuggestions
      ((suggestedParts sh args).filterMap (buildSingleShellSuggestion split tool)) := by
  have hne := h.stores
  rw [buildPermissionSuggestions] at hne ⊢
  by_cases hempty : args.text = ""
  · exact absurd (if_pos hempty) hne
  · rw [if_neg hempty] at hne ⊢
    rw [buildShellPermissionSuggestions] at hne ⊢
    split at hne
    · exact absurd rfl hne
    · split at hne
      · exact absurd rfl hne
      · split at hne
        · exact absurd rfl hne
        · next h₁ h₂ h₃ => simp only [h₁, h₂, h₃, if_false]; rfl

theorem suggestion_stored (h : StoresExactly split sh tool args) {s : Suggestion}
    (hs : s ∈ buildPermissionSuggestions split sh tool args) :
    ∃ text ∈ storedTexts sh args, s = exactSuggestion tool text := by
  rw [suggestions_eq h] at hs
  obtain ⟨part, hpart, hsome⟩ := mem_filterMap.mp (mem_of_mem_dedupeSuggestions hs)
  obtain ⟨s', hs', hscope⟩ := h.parts part hpart
  cases hs'.symm.trans hsome
  exact ⟨strip part, mem_map_of_mem hpart, (buildSingleShellSuggestion_exactly hs' hscope).1⟩

theorem stored_suggestion (h : StoresExactly split sh tool args) {text : String}
    (ht : text ∈ storedTexts sh args) :
    text ≠ "" ∧ ∃ s ∈ buildPermissionSuggestions split sh tool args, s.pattern = text := by
  obtain ⟨part, hpart, rfl⟩ := mem_map.mp ht
  obtain ⟨s, hs, hscope⟩ := h.parts part hpart
  obtain ⟨rfl, hne⟩ := buildSingleShellSuggestion_exactly hs hscope
  rw [suggestions_eq h]
  exact ⟨hne, exists_dedupeSuggestions (mem_filterMap.mpr ⟨part, hpart, hs⟩)⟩

theorem ensureSingleAllowOverride_spec (overrides : List Rule) (tool pattern : String) :
    ∃ new, ensureSingleAllowOverride overrides tool "command" pattern "allow" = overrides ++ new ∧
      (∀ r ∈ new, r = allowOverride tool "command" pattern "allow") ∧
      ∃ r ∈ overrides ++ new, isSameAllowOverride tool "command" pattern r = true := by
  rw [ensureSingleAllowOverride]
  by_cases hany : overrides.any (isSameAllowOverride tool "command" pattern) = true
  · rw [if_pos hany]
    refine ⟨[], (append_nil _).symm, fun r hr => (by cases hr), ?_⟩
    rw [append_nil]
    exact any_eq_true.mp hany
  · rw [if_neg hany]
    refine ⟨_, rfl, fun r hr => mem_singleton.mp hr,
      _, mem_append_right _ (.head _), ?_⟩
    have hallow : lower (strip "allow") = "allow" := by decide
    simp [isSameAllowOverride, allowOverride, hallow]

theorem persistSuggestion_spec {suggestions : List Suggestion}
    (h : ∀ s ∈ suggestions, ∃ text, s = exactSuggestion tool text) (overrides : List Rule) :
    ∃ new, suggestions.foldl persistSuggestion overrides = overrides ++ new ∧
      (∀ r ∈ new, ∃ s ∈ suggestions, r = allowOverride tool "command" s.pattern "allow") ∧
      ∀ s ∈ suggestions, ∃ r ∈ overrides ++ new,
        isSameAllowOverride tool "command" s.pattern r = true := by
  induction suggestions generalizing overrides with
  | nil =>
    exact ⟨[], (append_nil _).symm, fun r hr => (by cases hr), fun s hs => (by cases hs)⟩
  | cons s rest ih =>
    obtain ⟨text, rfl⟩ := h s (.head _)
    have hcommand : lower (strip "command") ≠ "path" := by decide
    have hone : persistSuggestion overrides (exactSuggestion tool text) =
        ensureSingleAllowOverride overrides tool "command" text "allow" := by
      rw [persistSuggestion, if_neg (show lower (strip (exactSuggestion tool text).matchType) ≠
        "path" from hcommand)]
      rfl
    obtain ⟨new₁, heq₁, hnew₁, r₁, hr₁, hsame₁⟩ :=
      ensureSingleAllowOverride_spec overrides tool text
    obtain ⟨new₂, heq₂, hnew₂, hsame₂⟩ :=
      ih (fun s hs => h s (.tail _ hs)) (overrides ++ new₁)
    refine ⟨new₁ ++ new₂, ?_, ?_, ?_⟩
    · rw [foldl_cons, hone, heq₁, heq₂, append_assoc]
    · intro r hr
      rcases mem_append.mp hr with hr | hr
      · exact ⟨_, .head _, hnew₁ r hr⟩
      · obtain ⟨s, hs, rfl⟩ := hnew₂ r hr
        exact ⟨s, .tail _ hs, rfl⟩
    · rw [← append_assoc]
      intro s hs
      rcases mem_cons.mp hs with rfl | hs
      · exact ⟨r₁, mem_append_left _ hr₁, hsame₁⟩
      · exact hsame₂ s hs

theorem approves_of_same {rule : Rule} {text : String} (hshell : cfg.isShellTool tool = true)
    (hsame : isSameAllowOverride tool "command" text rule = true)
    (hconsistent : ∀ tools, rule.tools = some tools → cfg.consistent (names tools) = true)
    (hliteral : Literal text) (hstrip : strip text = text) (hne : text ≠ "")
    (htext : args.text = text) : cfg.approves re tool args rule = true := by
  simp only [isSameAllowOverride, Bool.and_eq_true, decide_eq_true_iff] at hsame
  obtain ⟨⟨⟨hmem, hmatch⟩, hpattern⟩, haction⟩ := hsame
  cases htools : rule.tools with
  | none =>
    rw [htools] at hmem
    cases hmem
  | some tools =>
    rw [htools, Option.getD_some] at hmem
    have hcons := hconsistent tools htools
    have hname : tool ∈ names tools := by
      obtain ⟨hs, hn⟩ := shellNames_stripped tool (of_decide_eq_true hshell)
      exact mem_filter.mpr ⟨mem_map.mpr ⟨tool, hmem, hs⟩, decide_eq_true hn⟩
    have htarget : cfg.targets tool tools = true := by
      rw [Config.targets, decide_eq_true hname]
      rfl
    have hcategory := category_of_mem_shellNames (of_decide_eq_true hshell)
    have hmatches : shellPatternMatches re text args.text = true := by
      rw [shellPatternMatches_literal (hstrip.symm ▸ hliteral)]
      exact ⟨hne, htext.symm ▸ hne, htext.trans hstrip.symm⟩
    have hcommand : lower (strip "command") ≠ "path" := by decide
    rw [Config.approves, Config.applies, htools, hpattern, hmatch, haction]
    simp only [htarget, hcons, Option.getD_some, hstrip]
    cases hnames : names tools with
    | nil =>
      rw [hnames] at hname
      cases hname
    | cons t ts =>
      have ht : cfg.category t = some .shell := by
        rw [hnames] at hname hcons
        rcases mem_cons.mp hname with rfl | hts
        · exact hcategory
        · rw [Config.consistent, Bool.and_eq_true, all_eq_true] at hcons
          rw [← hcategory]
          exact (of_decide_eq_true (hcons.2 tool hts)).symm
      simp [Config.ruleMatches, ht, hmatches, hne, hcommand]

theorem text_of_approves_literal {owner : String} {text : String} (hliteral : Literal text)
    (hstrip : strip text = text)
    (h : cfg.approves re tool args (allowOverride owner "command" text "allow") = true) :
    args.text = text := by
  rw [Config.approves, Bool.and_eq_true] at h
  have happlies := h.2
  rw [Config.applies] at happlies
  simp only [allowOverride, Bool.and_eq_true] at happlies
  have hmatches := happlies.2
  rw [Config.ruleMatches.eq_def] at hmatches
  split at hmatches
  · cases hmatches
  · rw [Bool.and_eq_true, shellPatternMatches_literal (hstrip.symm ▸ hliteral)] at hmatches
    exact hmatches.2.2.2.trans hstrip

theorem clear_of_ask {p : ShellParse} {rule : String}
    (h : cfg.evaluateSubcommands re sh tool args p = some (.ask, rule)) :
    ∀ text ∈ p.texts, cfg.Judged re tool (args.withCommand text) ∧
      ¬ cfg.Denies re tool (args.withCommand text) cfg.rules := by
  obtain ⟨hnot, hwalk⟩ := subcommandResults_spec re cfg tool args p.texts
  rw [Config.evaluateSubcommands] at h
  by_cases hwalked : cfg.Walked re tool args p.texts
  · obtain ⟨results, hresults, hrefused⟩ := hwalk hwalked
    simp only [hresults, Option.bind_eq_bind, Option.bind_some, Option.bind_eq_some_iff] at h
    obtain ⟨orig, -, canon, -, h⟩ := h
    have hclear : ∀ text ∈ p.texts, ¬ cfg.Refused re tool (args.withCommand text) := by
      intro text htext hr
      have hfull : (withFull (aggregate results) (orig.toList ++ canon.toList)).1 = .deny :=
        withFull_deny (.inl (aggregate_deny (hrefused ⟨text, htext, hr⟩)))
      have hdeny := withSink_deny hfull (cfg.interpreterSink.getD true && p.hasInterpreterSink)
      have hfinal := (applyShellAstFloor_deny_iff _ (p := some p)
        (u := cfg.unknownStructure.getD true)).mpr hdeny
      rw [Option.some.inj h] at hfinal
      cases hfinal
    intro text htext
    obtain ⟨pre, post, heq⟩ := mem_iff_append.mp htext
    refine ⟨hwalked pre text post heq fun t ht => hclear t ?_,
      fun hdenies => hclear text htext (.inl hdenies)⟩
    rw [heq]
    exact mem_append_left _ ht
  · rw [hnot hwalked] at h
    cases h

theorem texts_eq_of_parts {p : ShellParse} {text : String} (h : text ∈ p.texts) :
    text ∈ p.subcommands.map (·.text) := (mem_filter.mp h).1

theorem allowed_after (hshell : cfg.isShellTool tool = true) {new : List Rule}
    (hask : ∃ rule, cfg.evaluate re sh tool args = some (.ask, rule))
    (hstores : StoresExactly split sh tool args)
    (hliteral : ∀ text ∈ storedTexts sh args, Literal text)
    (hstable : sh.canonicalize (sh.canonicalize args.text) = sh.canonicalize args.text)
    (hconsistent : ∀ rule ∈ cfg.approvalOverrides ++ new, ∀ tools, rule.tools = some tools →
      cfg.consistent (names tools) = true)
    (hall : ∀ text ∈ storedTexts sh args, ∃ rule ∈ cfg.approvalOverrides ++ new,
      isSameAllowOverride tool "command" text rule = true)
    (hfree : cfg.Unhindered re sh tool args (sh.parse (sh.canonicalize args.text))) :
    ∃ rule, (cfg.approve new).evaluate re sh tool args = some (.allow, rule) := by
  have hcategory : cfg.category tool = some .shell :=
    category_of_mem_shellNames (of_decide_eq_true hshell)
  have hcategory' : (cfg.approve new).category tool = some .shell := hcategory
  -- a stored text is allowed wherever it is the command
  have hover : ∀ (a : ToolArgs), a.text ∈ storedTexts sh args →
      (cfg.approve new).overrideHits re tool a ≠ [] := by
    intro a ha
    obtain ⟨rule, hmem, hsame⟩ := hall a.text ha
    have happroves : cfg.approves re tool a rule = true :=
      approves_of_same hshell hsame (hconsistent rule hmem)
      (hliteral _ ha) (strip_text a) (stored_suggestion hstores ha).1 rfl
    rw [Config.overrideHits, ne_eq, map_eq_nil_iff, filter_eq_nil_iff]
    exact fun h => h rule hmem happroves
  have hbar : ¬ cfg.Barred tool := by
    rintro ⟨rule, hrule⟩
    obtain ⟨rule', hrule'⟩ := hask
    rw [Config.evaluate, hrule] at hrule'
    cases hrule'
  have hbar' : ¬ (cfg.approve new).Barred tool := hbar
  rw [evaluate_of_not_barred hcategory' hbar']
  by_cases hwhole : (cfg.approve new).wholeOverrideHits re sh tool args ≠ []
  · rw [if_pos hwhole]
    exact ⟨_, rfl⟩
  · rw [if_neg hwhole]
    have hparts : suggestedParts sh args = commandParts sh (sh.canonicalize args.text) := by
      rw [suggestedParts, hstable]
    by_cases hknown : (sh.parse (sh.canonicalize args.text)).kind = .simple ∧
        (sh.parse (sh.canonicalize args.text)).subcommands ≠ []
    · rw [if_pos hknown.1, evaluateSubcommands_allow_iff hknown.1, unhindered_approve]
      rw [commandParts, if_pos hknown] at hparts
      obtain ⟨rule, hrule⟩ := hask
      have hsub : ∃ rule, cfg.evaluateSubcommands re sh tool args
          (sh.parse (sh.canonicalize args.text)) = some (.ask, rule) := by
        rw [evaluate_of_not_barred hcategory hbar] at hrule
        split at hrule
        · cases hrule
        · rw [if_pos hknown.1] at hrule
          exact ⟨rule, hrule⟩
      obtain ⟨rule', hrule'⟩ := hsub
      have hclear := clear_of_ask hrule'
      refine ⟨?_, fun text htext => ?_, hfree⟩
      · obtain ⟨sc, hsc⟩ := exists_mem_of_ne_nil _ hknown.2
        have hmem : strip sc.text ∈ storedTexts sh args := by
          rw [storedTexts, hparts]
          exact mem_map_of_mem (mem_map_of_mem hsc)
        have hne : sc.text ≠ "" := by
          intro hempty
          apply (stored_suggestion hstores hmem).1
          rw [hempty]
          rfl
        exact ne_nil_of_mem (mem_filter.mpr
          ⟨mem_map_of_mem hsc, decide_eq_true hne⟩)
      · have hmem : (args.withCommand text).text ∈ storedTexts sh args := by
          rw [withCommand_text, storedTexts, hparts]
          exact mem_map_of_mem (texts_eq_of_parts htext)
        have hjudged : (cfg.approve new).Judged re tool (args.withCommand text) :=
          (hclear text htext).1
        have hdenies : ¬ (cfg.approve new).Denies re tool (args.withCommand text)
            (cfg.approve new).rules := (hclear text htext).2
        exact ⟨_, evaluateSingleInvocation_of_override hjudged hdenies (hover _ hmem)⟩
    · exfalso
      rw [commandParts, if_neg hknown] at hparts
      have hmem : (sh.canonArgs args).text ∈ storedTexts sh args := by
        rw [canonArgs_text, storedTexts, hparts]
        exact .head _
      exact hwhole (wholeOverrideHits_ne_nil_iff.mpr (.inr (hover _ hmem)))

/-- **What always allowing a command changes.** The command is allowed afterwards unless a rule or
the guard on the whole command asks; a call that changes is, or contains, a stored text, and one
that becomes allowed is a stored text or consists of such texts and of subcommands that were
allowed before. -/
theorem allow_always_exact (hshell : cfg.isShellTool tool = true)
    (hask : ∃ rule, cfg.evaluate re sh tool args = some (.ask, rule))
    (hstores : StoresExactly split sh tool args)
    (hliteral : ∀ text ∈ storedTexts sh args, Literal text)
    (hstable : sh.canonicalize (sh.canonicalize args.text) = sh.canonicalize args.text)
    (hconsistent : ∀ rule ∈ cfg.approvalOverrides, ∀ tools, rule.tools = some tools →
      cfg.consistent (names tools) = true) :
    ∃ cfg', cfg.mergePermissionAllowRule re split sh tool args = some (cfg', true) ∧
      ((∃ rule, cfg'.evaluate re sh tool args = some (.allow, rule)) ∨
        ¬ cfg.Unhindered re sh tool args (sh.parse (sh.canonicalize args.text))) ∧
      ∀ tool' args', cfg.category tool' = some .shell →
        (cfg'.evaluate re sh tool' args' ≠ cfg.evaluate re sh tool' args' →
          ¬ Config.Untouched sh args' (fun a => a.text ∈ storedTexts sh args)
            (sh.parse (sh.canonicalize args'.text))) ∧
        ((∃ rule, cfg'.evaluate re sh tool' args' = some (.allow, rule)) →
          (¬ ∃ rule, cfg.evaluate re sh tool' args' = some (.allow, rule)) →
            args'.text ∈ storedTexts sh args ∨
              strip (sh.canonicalize args'.text) ∈ storedTexts sh args ∨
              ∀ text ∈ (sh.parse (sh.canonicalize args'.text)).texts,
                strip text ∈ storedTexts sh args ∨
                  cfg.Allows re tool' (args'.withCommand text)) := by
  have hsuggested : ∀ s ∈ buildPermissionSuggestions split sh tool args,
      ∃ text, s = exactSuggestion tool text := by
    intro s hs
    obtain ⟨text, -, rfl⟩ := suggestion_stored hstores hs
    exact ⟨text, rfl⟩
  obtain ⟨new, hnew, hnew_eq, hsame⟩ := persistSuggestion_spec hsuggested cfg.approvalOverrides
  have hmerge : cfg.mergePermissionAllowRule re split sh tool args =
      some (cfg.approve new, true) := by
    obtain ⟨rule, hrule⟩ := hask
    rw [Config.mergePermissionAllowRule, hrule, Option.map_some,
      if_neg (show ¬ Level.ask ≠ Level.ask from fun h => h rfl), if_pos hshell,
      Config.persistSuggestions, hnew, decide_eq_true hstores.stores]
    rfl
  -- what a new approval applies to is a stored text
  have happroved : ∀ tool' a, cfg.Approved re tool' new a → a.text ∈ storedTexts sh args := by
    rintro tool' a ⟨rule, hmem, happroves⟩
    obtain ⟨s, hs, rfl⟩ := hnew_eq rule hmem
    obtain ⟨text, htext, rfl⟩ := suggestion_stored hstores hs
    have hstrip : strip text = text := by
      obtain ⟨part, -, rfl⟩ := mem_map.mp htext
      exact strip_idem part
    rw [text_of_approves_literal (hliteral text htext) hstrip happroves]
    exact htext
  refine ⟨_, hmerge, ?_, fun tool' args' hshell' => ⟨fun hchanged huntouched => hchanged ?_,
    fun hallow hnot => ?_⟩⟩
  · by_cases hfree : cfg.Unhindered re sh tool args (sh.parse (sh.canonicalize args.text))
    · left
      refine allowed_after hshell hask hstores hliteral hstable ?_ ?_ hfree
      · intro rule hmem tools htools
        rcases mem_append.mp hmem with hmem | hmem
        · exact hconsistent rule hmem tools htools
        · obtain ⟨s, -, rfl⟩ := hnew_eq rule hmem
          cases htools
          have htool := of_decide_eq_true hshell
          rw [names_eq_self fun x hx => by
            rw [mem_singleton.mp hx]
            exact shellNames_stripped tool htool]
          apply consistent_of_shell (cons_ne_nil _ _)
          intro t ht
          rw [mem_singleton.mp ht]
          exact category_of_mem_shellNames htool
      · intro text htext
        obtain ⟨-, s, hs, rfl⟩ := stored_suggestion hstores htext
        exact hsame s hs
    · exact .inr hfree
  · apply evaluate_approve_of_untouched hshell'
    exact ⟨fun h => huntouched.1 (happroved _ _ h), fun h => huntouched.2.1 (happroved _ _ h),
      fun text htext h => huntouched.2.2 text htext (happroved _ _ h)⟩
  · obtain ⟨-, hadmits⟩ := ((evaluate_approve_allow_iff hshell').mp hallow).resolve_left hnot
    rcases hadmits with h | h | ⟨-, -, h, -⟩
    · exact .inl (happroved _ _ h)
    · refine .inr (.inl ?_)
      rw [← canonArgs_text]
      exact happroved _ _ h
    · refine .inr (.inr fun text htext => ?_)
      rcases h text htext with h | ⟨h, -⟩
      · exact .inr h
      · left
        rw [← withCommand_text args' text]
        exact happroved _ _ h

/-- A permissions section in which `ls` has been approved before. -/
def listApproved : Config where
  approvalOverrides := [allowOverride "bash" "command" "ls" "allow"]

/-- `ls && pwd` has two subcommands; every command is canonical. -/
def listAndPrint : Shell where
  parse command := if command = "ls && pwd" then
    { kind := .simple, subcommands := [{ text := "ls" }, { text := "pwd" }] }
    else { kind := .simple, subcommands := [{ text := command }] }
  canonicalize := id

/-- `pwd` -/
def printArgs : ToolArgs := { command := some "pwd" }

theorem print_stores_exactly : StoresExactly (fun _ => none) listAndPrint "bash" printArgs := by
  refine ⟨by decide, fun part hpart => ?_⟩
  have hparts : suggestedParts listAndPrint printArgs = ["pwd"] := by decide
  rw [hparts, mem_singleton] at hpart
  subst hpart
  exact ⟨exactSuggestion "bash" "pwd", by decide, rfl⟩

theorem print_asked :
    ∃ rule, listApproved.evaluate noMatch listAndPrint "bash" printArgs = some (.ask, rule) := by
  have hlevel : (listApproved.evaluate noMatch listAndPrint "bash" printArgs).map Prod.fst =
      some .ask := by
    decide
  obtain ⟨⟨level, rule⟩, hrule, rfl⟩ := Option.map_eq_some_iff.mp hlevel
  exact ⟨rule, hrule⟩

/-- After `ls`, always allowing `pwd` allows `ls && pwd` too. -/
theorem approvals_add_up :
    ¬ ∀ (re : Re) (split : Lexer) (sh : Shell) (cfg cfg' : Config) (tool : String)
        (args : ToolArgs), cfg.isShellTool tool = true →
      (∃ rule, cfg.evaluate re sh tool args = some (.ask, rule)) →
      StoresExactly split sh tool args →
      cfg.mergePermissionAllowRule re split sh tool args = some (cfg', true) →
      ((∃ rule, cfg'.evaluate re sh tool args = some (.allow, rule)) ∨
        ¬ cfg.Unhindered re sh tool args (sh.parse (sh.canonicalize args.text))) ∧
      ∀ tool' args', cfg.category tool' = some .shell → args'.text ≠ args.text →
        cfg'.evaluate re sh tool' args' ≠ cfg.evaluate re sh tool' args' →
          ∀ text ∈ (sh.parse (sh.canonicalize args'.text)).texts,
            strip text ∈ storedTexts sh args := by
  intro h
  have hafter : ∀ g ∈ listApproved.mergePermissionAllowRule noMatch (fun _ => none) listAndPrint
      "bash" printArgs, g.2 = true ∧ (g.1.evaluate noMatch listAndPrint "bash"
        { command := some "ls && pwd" }).map Prod.fst = some .allow := by
    decide
  have hbefore : (listApproved.evaluate noMatch listAndPrint "bash"
      { command := some "ls && pwd" }).map Prod.fst = some .ask := by
    decide
  have hsome : (listApproved.mergePermissionAllowRule noMatch (fun _ => none) listAndPrint
      "bash" printArgs).isSome = true := by
    decide
  obtain ⟨⟨cfg', applied⟩, hmerge⟩ := Option.isSome_iff_exists.mp hsome
  obtain ⟨happlied, hallow⟩ := hafter _ hmerge
  obtain rfl : applied = true := happlied
  obtain ⟨-, hothers⟩ := h noMatch (fun _ => none) listAndPrint listApproved cfg' "bash" printArgs
    (by decide) print_asked print_stores_exactly hmerge
  have hmem := hothers "bash" { command := some "ls && pwd" } (by decide)
    (by decide) (fun heq => by
      rw [heq, hbefore] at hallow
      cases hallow) "ls" (by decide)
  exact absurd hmem (by decide)

/-- Always allowing `pwd` allows `pwd`. -/
theorem print_allowed : ∃ cfg', listApproved.mergePermissionAllowRule noMatch (fun _ => none)
      listAndPrint "bash" printArgs = some (cfg', true) ∧
    ((∃ rule, cfg'.evaluate noMatch listAndPrint "bash" printArgs = some (.allow, rule)) ∨
      ¬ listApproved.Unhindered noMatch listAndPrint "bash" printArgs
        (listAndPrint.parse (listAndPrint.canonicalize printArgs.text))) := by
  obtain ⟨cfg', hmerge, hallowed, -⟩ := allow_always_exact
    (by decide) print_asked print_stores_exactly (by decide) rfl (by
      intro rule hmem tools htools
      obtain rfl := mem_singleton.mp hmem
      cases htools
      decide)
  exact ⟨cfg', hmerge, hallowed⟩

end JiuwenSpec.Permission

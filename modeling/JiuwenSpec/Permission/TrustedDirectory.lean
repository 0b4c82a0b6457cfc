import Mathlib.Data.List.Dedup
import Mathlib.Data.List.Infix
import JiuwenSpec.Permission.Approvals

/-!
# Trusting a directory

Trusting a directory stores an approval of every shell command whose text holds the path of the
directory anywhere. It is read on the whole command as well as on its subcommands, so a command
that only mentions the directory, or one whose name begins alike, becomes allowed.
Source: `persist_cli_trusted_directory` in `approve/persist_rule_merge.py`.
-/

namespace JiuwenSpec.Permission

open Base List

/-- `re.escape` of a character. -/
def escapeChar (c : Char) : List Char :=
  if c ∈ "()[]\x7b\x7d?*+-|^$\\.&~# \t\n\r\x0b\x0c".toList then ['\\', c] else [c]

/-- `re.escape`. -/
def reEscape (s : String) : String := .ofList (s.toList.flatMap escapeChar)

/-- An escaped text between wildcards is found wherever the text occurs. -/
def Re.FindsLiterals (re : Re) : Prop :=
  ∀ literal text : String, re.search (".*" ++ reEscape literal ++ ".*") text =
    some (decide (literal.toList <:+: text.toList))

def trustedPattern (dir : String) : String := "re:" ++ ".*" ++ reEscape dir ++ ".*"

/-- The identifier of the approval; the digest is that of `hashlib`. -/
def trustedId (digest : String → String) (dir : String) : String :=
  "cli_trusted_shell_" ++ .ofList ((digest dir).toList.take 16)

def Config.trustedApproval (digest : String → String) (cfg : Config) (dir : String) : Rule where
  id := trustedId digest dir
  tools := some (cfg.shellNames.dedup.insertionSort (· ≤ ·))
  matchType := some "command"
  pattern := some (trustedPattern dir)
  action := some "allow"

/-- What is appended to the approvals: nothing where the identifier is there. -/
def Config.trustedApprovals (digest : String → String) (cfg : Config) (dir : String) :
    List Rule :=
  if cfg.approvalOverrides.any (·.id = trustedId digest dir) then []
  else [cfg.trustedApproval digest dir]

def rstripSlash (path : String) : String :=
  .ofList ((path.toList.reverse.dropWhile (· = '/')).reverse)

def trustedDirectory (resolve : String → Option String) (rawPath : String) : Option String :=
  if strip rawPath = "" then none
  else (resolve (strip rawPath)).bind fun resolved =>
    if rstripSlash resolved = "" then none else some (rstripSlash resolved)

/-- `persist_cli_trusted_directory` on the permissions, as far as the tool policy reads them. -/
def Config.persistCliTrustedDirectory (digest : String → String)
    (resolve : String → Option String) (cfg : Config) (rawPath : String) : Config :=
  match trustedDirectory resolve rawPath with
  | none => cfg
  | some dir => cfg.approve (cfg.trustedApprovals digest dir)

/-- The text of the command holds the path, as it stands or with slashes. -/
def Mentions (dir text : String) : Prop :=
  text ≠ "" ∧ (dir.toList <:+: text.toList ∨ dir.toList <:+: (slashes text).toList)

variable {re : Re} {sh : Shell} {cfg : Config} {tool : String} {args : ToolArgs}

theorem trustedPattern_eq (dir : String) : trustedPattern dir =
    .ofList ('r' :: ("e:.*".toList ++ (reEscape dir).toList ++ ['.']) ++ ['*']) := by
  apply String.toList_inj.mp
  simp [trustedPattern]

theorem strip_trustedPattern (dir : String) : strip (trustedPattern dir) = trustedPattern dir := by
  rw [trustedPattern_eq]
  exact strip_of_ends (by decide) (by decide)

theorem regexPart_trustedPattern (dir : String) :
    regexPart (trustedPattern dir) = some (".*" ++ reEscape dir ++ ".*") := by
  have hexpr : ".*" ++ reEscape dir ++ ".*" =
      .ofList ('.' :: (['*'] ++ (reEscape dir).toList ++ ['.']) ++ ['*']) := by
    apply String.toList_inj.mp
    simp
  have hdrop : String.ofList ((trustedPattern dir).toList.drop 3) =
      ".*" ++ reEscape dir ++ ".*" := by
    apply String.toList_inj.mp
    simp [trustedPattern]
  have hre : "re:".toList.isPrefixOf (lower (trustedPattern dir)).toList = true := by
    rw [trustedPattern_eq]
    simp [lower]
  rw [regexPart, if_pos hre, hdrop, hexpr, strip_of_ends (by decide) (by decide)]

theorem searchBoth_literal (hre : re.FindsLiterals) (dir text : String) :
    searchBoth re (".*" ++ reEscape dir ++ ".*") text =
      some (decide (dir.toList <:+: text.toList ∨ dir.toList <:+: (slashes text).toList)) := by
  rw [searchBoth, hre]
  by_cases hmem : dir.toList <:+: text.toList
  · simp [hmem]
  · by_cases hsame : slashes text = text
    · simp [hsame, hmem]
    · simp [hsame, hmem, hre dir]

theorem shellPatternMatches_trusted (hre : re.FindsLiterals) (dir text : String) :
    shellPatternMatches re (trustedPattern dir) text = true ↔ Mentions dir text := by
  have hne : trustedPattern dir ≠ "" := by
    rw [trustedPattern_eq]
    exact fun h => by simpa using congrArg String.toList h
  have hpart := regexPart_trustedPattern dir
  rw [shellPatternMatches, Mentions]
  by_cases htext : text = ""
  · rw [if_pos (.inr htext)]
    exact ⟨fun h => (by cases h), fun h => absurd htext h.1⟩
  · rw [if_neg (not_or.mpr ⟨hne, htext⟩), and_iff_right htext]
    simp only [strip_trustedPattern, hpart, searchBoth_literal hre, decide_eq_true_iff]

theorem mem_trustedTools {x : String} :
    x ∈ names (cfg.shellNames.dedup.insertionSort (· ≤ ·)) ↔ x ∈ cfg.shellNames := by
  have hmem : ∀ x, x ∈ cfg.shellNames.dedup.insertionSort (· ≤ ·) ↔ x ∈ cfg.shellNames := by
    intro x
    rw [mem_insertionSort, mem_dedup]
  rw [names_eq_self fun x hx => shellNames_stripped x ((hmem x).mp hx), hmem]

theorem approves_trustedApproval (hre : re.FindsLiterals) (digest : String → String)
    (dir : String) : cfg.approves re tool args (cfg.trustedApproval digest dir) = true ↔
      cfg.isShellTool tool = true ∧ Mentions dir args.text := by
  have htools : names (cfg.shellNames.dedup.insertionSort (· ≤ ·)) ≠ [] := by
    obtain ⟨x, hx⟩ := exists_mem_of_ne_nil cfg.shellNames shellNames_ne_nil
    exact ne_nil_of_mem (mem_trustedTools.mpr hx)
  have hcategory : ∀ t ∈ names (cfg.shellNames.dedup.insertionSort (· ≤ ·)),
      cfg.category t = some .shell :=
    fun t ht => category_of_mem_shellNames (mem_trustedTools.mp ht)
  have htargets : cfg.targets tool (cfg.shellNames.dedup.insertionSort (· ≤ ·)) =
      cfg.isShellTool tool := by
    rw [Bool.eq_iff_iff, Config.targets, Bool.or_eq_true, Bool.and_eq_true, decide_eq_true_iff,
      mem_trustedTools]
    constructor
    · rintro (h | h)
      · exact decide_eq_true h
      · exact h.2
    · exact fun h => .inl (of_decide_eq_true h)
  have hpattern : strip (trustedPattern dir) ≠ "" := by
    rw [strip_trustedPattern, trustedPattern_eq]
    exact fun h => by simpa using congrArg String.toList h
  have hallow : lower (strip "allow") = "allow" := by decide
  have hcommand : lower (strip "command") ≠ "path" := by decide
  rw [Config.approves, Config.applies]
  simp only [Config.trustedApproval, Option.getD_some, htargets,
    consistent_of_shell htools hcategory]
  generalize names (cfg.shellNames.dedup.insertionSort (· ≤ ·)) = tools at htools hcategory
  cases tools with
  | nil => exact absurd rfl htools
  | cons t ts =>
    have ht := hcategory t (.head _)
    rw [← shellPatternMatches_trusted hre]
    simp [Config.ruleMatches, ht, hpattern, hallow, hcommand]

def pathParts (path : String) : List (List Char) := (path.toList.splitOn '/').filter (· ≠ [])

def Below (dir path : String) : Prop := pathParts dir <+: pathParts path

instance instDecidableBelow (dir path : String) : Decidable (Below dir path) :=
  inferInstanceAs (Decidable (pathParts dir <+: pathParts path))

/-- The subcommands name paths of the directory only, and where there are several each of them
names one. -/
def Inside (paths : ShellSubcommand → List String) (dir : String) (p : ShellParse) : Prop :=
  (∀ sc ∈ p.subcommands, ∀ path ∈ paths sc, Below dir path) ∧
    (2 ≤ p.subcommands.length → ∀ sc ∈ p.subcommands, paths sc ≠ [])

/-- From one configuration to another the command is allowed only where it stays inside the
directory, and not where it was denied. -/
def LiftsOnlyInside (re : Re) (sh : Shell) (paths : ShellSubcommand → List String)
    (dir tool : String) (args : ToolArgs) (cfg cfg' : Config) : Prop :=
  (∃ rule, cfg'.evaluate re sh tool args = some (.allow, rule)) →
    (¬ ∃ rule, cfg.evaluate re sh tool args = some (.allow, rule)) →
      Inside paths dir (sh.parse (sh.canonicalize args.text)) ∧
        ¬ ∃ rule, cfg.evaluate re sh tool args = some (.deny, rule)

/-- The approval of the directory is stored now and applies to the call. -/
def Config.Trusts (digest : String → String) (cfg : Config) (dir tool : String)
    (args : ToolArgs) : Prop :=
  (∀ rule ∈ cfg.approvalOverrides, rule.id ≠ trustedId digest dir) ∧
    cfg.isShellTool tool = true ∧ Mentions dir args.text

theorem approved_trustedApprovals (hre : re.FindsLiterals) (digest : String → String)
    (dir : String) : cfg.Approved re tool (cfg.trustedApprovals digest dir) =
      cfg.Trusts digest dir tool := by
  funext args
  apply propext
  rw [Config.Approved, Config.trustedApprovals, Config.Trusts]
  by_cases hstored : cfg.approvalOverrides.any (·.id = trustedId digest dir) = true
  · rw [if_pos hstored]
    obtain ⟨rule, hmem, hid⟩ := any_eq_true.mp hstored
    constructor
    · rintro ⟨rule, hmem, -⟩
      cases hmem
    · exact fun h => absurd (of_decide_eq_true hid) (h.1 rule hmem)
  · rw [if_neg hstored]
    have hnew : ∀ rule ∈ cfg.approvalOverrides, rule.id ≠ trustedId digest dir :=
      fun rule hmem hid => hstored (any_eq_true.mpr ⟨rule, hmem, decide_eq_true hid⟩)
    rw [and_iff_right hnew, ← approves_trustedApproval hre digest dir]
    constructor
    · rintro ⟨rule, hmem, happroves⟩
      rwa [mem_singleton.mp hmem] at happroves
    · exact fun h => ⟨_, .head _, h⟩

/-- **What trusting a directory allows.** A shell command is lifted only inside the directory
where it was allowed before, or it does not mention the directory on any way to a verdict, or it
stays inside and was not denied. -/
theorem lifts_only_inside_iff (hre : re.FindsLiterals) {digest : String → String}
    {resolve : String → Option String} {rawPath dir : String}
    (hdir : trustedDirectory resolve rawPath = some dir)
    (hshell : cfg.category tool = some .shell) (paths : ShellSubcommand → List String) :
    LiftsOnlyInside re sh paths dir tool args cfg
        (cfg.persistCliTrustedDirectory digest resolve rawPath) ↔
      (∃ rule, cfg.evaluate re sh tool args = some (.allow, rule)) ∨
        ¬ cfg.Admits re sh tool args (cfg.Trusts digest dir tool)
          (sh.parse (sh.canonicalize args.text)) ∨
        (Inside paths dir (sh.parse (sh.canonicalize args.text)) ∧
          ¬ ∃ rule, cfg.evaluate re sh tool args = some (.deny, rule)) := by
  have hafter : cfg.persistCliTrustedDirectory digest resolve rawPath =
      cfg.approve (cfg.trustedApprovals digest dir) := by
    rw [Config.persistCliTrustedDirectory, hdir]
  rw [LiftsOnlyInside, hafter, evaluate_approve_allow_iff hshell,
    approved_trustedApprovals hre]
  by_cases hbefore : ∃ rule, cfg.evaluate re sh tool args = some (.allow, rule)
  · exact ⟨fun _ => .inl hbefore, fun _ _ h => absurd hbefore h⟩
  · rw [or_iff_right hbefore, or_iff_right hbefore]
    constructor
    · intro h
      by_cases hadmits : cfg.Admits re sh tool args (cfg.Trusts digest dir tool)
          (sh.parse (sh.canonicalize args.text))
      · exact .inr (h hadmits hbefore)
      · exact .inl hadmits
    · rintro (h | h) hadmits -
      · exact absurd hadmits h
      · exact h

def unescape : List Char → List Char
  | [] => []
  | [c] => [c]
  | c :: c' :: rest => if c = '\\' then c' :: unescape rest else c :: unescape (c' :: rest)

/-- Expressions of escaped texts between wildcards. -/
def literalRe : Re where
  search expr text :=
    some (decide (unescape (expr.toList.drop 2).dropLast.dropLast <:+: text.toList))
  fullmatch _ _ := some false

theorem unescape_escape (s : List Char) : unescape (s.flatMap escapeChar) = s := by
  induction s with
  | nil => rfl
  | cons c s ih =>
    rw [flatMap_cons, escapeChar]
    split
    · exact congrArg (c :: ·) ih
    · next hc =>
      have hback : c ≠ '\\' := by
        rintro rfl
        exact hc (by decide)
      rw [singleton_append]
      cases hrest : s.flatMap escapeChar with
      | nil =>
        rw [hrest] at ih
        rw [← ih]
        rfl
      | cons x rest => rw [unescape, if_neg hback, ← hrest, ih]

theorem literalRe_findsLiterals : literalRe.FindsLiterals := by
  intro literal text
  have hdrop : ((".*" ++ reEscape literal ++ ".*").toList.drop 2).dropLast.dropLast =
      literal.toList.flatMap escapeChar := by
    simp [reEscape]
  show some (decide (unescape ((".*" ++ reEscape literal ++ ".*").toList.drop 2).dropLast.dropLast
    <:+: text.toList)) = _
  rw [hdrop, unescape_escape]

/-- A shell whose only compound command is `ls /srv/a && rm -rf /home`. -/
def listAndRemove : Shell where
  parse command := if command = "ls /srv/a && rm -rf /home" then
    { kind := .simple, subcommands := [{ text := "ls /srv/a" }, { text := "rm -rf /home" }] }
    else { kind := .simple, subcommands := [{ text := command }] }
  canonicalize := id

def absolutePaths (sc : ShellSubcommand) : List String :=
  ((sc.text.toList.splitOn ' ').filter fun word => word.head? = some '/').map String.ofList

/-- A command that lists the trusted directory and removes another is allowed. -/
theorem trusted_allows_outside :
    ¬ ∀ (re : Re) (sh : Shell) (digest : String → String) (resolve : String → Option String)
        (paths : ShellSubcommand → List String) (cfg : Config) (rawPath dir tool : String)
        (args : ToolArgs), re.FindsLiterals → trustedDirectory resolve rawPath = some dir →
      cfg.category tool = some .shell → LiftsOnlyInside re sh paths dir tool args cfg
        (cfg.persistCliTrustedDirectory digest resolve rawPath) := by
  intro h
  have hlifts := h literalRe listAndRemove id some absolutePaths {} "/srv/a" "/srv/a" "bash"
    { command := some "ls /srv/a && rm -rf /home" } literalRe_findsLiterals (by decide)
    (by decide)
  have hafter : ((Config.persistCliTrustedDirectory id some {} "/srv/a").evaluate literalRe
      listAndRemove "bash" { command := some "ls /srv/a && rm -rf /home" }).map Prod.fst =
        some .allow := by
    decide
  have hbefore : (Config.evaluate literalRe listAndRemove {} "bash"
      { command := some "ls /srv/a && rm -rf /home" }).map Prod.fst = some .ask := by
    decide
  obtain ⟨⟨level, rule⟩, hrule, hlevel⟩ := Option.map_eq_some_iff.mp hafter
  obtain rfl : level = .allow := hlevel
  obtain ⟨hinside, -⟩ := hlifts ⟨rule, hrule⟩ (by
    rintro ⟨rule', hrule'⟩
    rw [hrule'] at hbefore
    cases hbefore)
  exact absurd (hinside.1 { text := "rm -rf /home" } (by decide) "/home"
    (by decide)) (by decide)

/-- Listing the trusted directory alone stays inside. -/
theorem trusted_allows_inside : LiftsOnlyInside literalRe listAndRemove absolutePaths "/srv/a"
    "bash" { command := some "ls /srv/a" } {}
    (Config.persistCliTrustedDirectory id some {} "/srv/a") := by
  have hbefore : (Config.evaluate literalRe listAndRemove {} "bash"
      { command := some "ls /srv/a" }).map Prod.fst = some .ask := by
    decide
  refine (lifts_only_inside_iff literalRe_findsLiterals (by decide) (by decide)
    absolutePaths).mpr (.inr (.inr ⟨⟨by decide, by decide⟩, ?_⟩))
  rintro ⟨rule, hrule⟩
  rw [hrule] at hbefore
  cases hbefore

end JiuwenSpec.Permission

import JiuwenSpec.Permission.NetGuard

/-!
# The package URL list

The package brings a list of patterns, and the list is merged into the `urls` of a permissions
section before a guard is built from it. A deny entry of either side wins over an allow entry of the
same pattern; what this means for the guard's decisions is the second half.
Source: `permission_engine/netguard/net_urls.py`, `build_net_guard_checker` of
`permission_engine/netguard/net_guard.py`, `package_builtin_rules_enabled` of
`permission_engine/toolguard/builtin_rules.py`.
-/

namespace JiuwenSpec.NetGuard

open Base List

abbrev Config : Type := List (Text × Json)

def falseStrings : List Text := ["false".toList, "0".toList, "no".toList, "off".toList]

def packageBuiltinRulesEnabled (permissions : Config) : Bool :=
  match getKey "package_builtin_rules".toList permissions with
  | some (.literal .false) => false
  | some (.string text) => decide (lower (strip text) ∉ falseStrings)
  | _ => true

/-- `load_package_net_urls`, from the `net_urls` of the package file. -/
def loadPackageNetUrls (netUrls : Config) : List (Text × NetAction) := compileUrls netUrls

def stricter (left right : NetAction) : NetAction :=
  if left = .deny ∨ right = .deny then .deny else .allow

def mergeEntry (merged : List (Text × NetAction)) (entry : Text × NetAction) :
    List (Text × NetAction) :=
  match assocGet? entry.1 merged with
  | none => assocSet entry.1 entry.2 merged
  | some overlay =>
    if overlay = .allow ∧ entry.2 = .deny then assocSet entry.1 .deny merged
    else assocSet entry.1 (stricter overlay entry.2) merged

def NetAction.text : NetAction → Text
  | .allow => "allow".toList
  | .deny => "deny".toList

/-- The merged patterns as the section holds them. -/
def urlsJson (urls : List (Text × NetAction)) : Json :=
  .object (urls.map fun e => (e.1, .string e.2.text))

/-- The `net_guard` of a configuration, where it is a mapping. -/
def netGuardSection (permissions : Config) : Option Config :=
  match assocGet? "net_guard".toList permissions with
  | some (.object members) => some members
  | _ => none

/-- The section's `enabled`. -/
def sectionEnabled (members : Config) : Bool :=
  ((getKey "enabled".toList members).map truthy).getD false

def sectionUrls (members : Config) : List (Text × NetAction) :=
  match getKey "urls".toList members with
  | some (.object urls) => compileUrls urls
  | _ => []

def defaultSection : Config :=
  [("enabled".toList, .literal .true), ("defaults".toList, .string "allow".toList),
    ("urls".toList, .object [])]

def shouldInject (permissions : Config) (inject : Option Bool) : Bool :=
  packageBuiltinRulesEnabled permissions &&
    inject.getD (((netGuardSection permissions).map sectionEnabled).getD false)

def mergePackageNetUrls (netUrls : Config) (permissions : Option Config) (inject : Option Bool) :
    Config :=
  let cfg := permissions.getD []
  if shouldInject cfg inject then
    let ng := (netGuardSection cfg).getD defaultSection
    let merged := (loadPackageNetUrls netUrls).foldl mergeEntry (sectionUrls ng)
    assocSet "net_guard".toList (.object (assocSet "urls".toList (urlsJson merged) ng)) cfg
  else cfg

def buildNetGuardChecker (permissions : Option Config) : Option NetGuardChecker :=
  match netGuardSection (permissions.getD []) with
  | none => none
  | some members => if sectionEnabled members then some (.ofSection members) else none

variable (parse : UrlParse)

def Denied (permissions : Option Config) (tool : Text) (args : Config) : Prop :=
  ∃ g, buildNetGuardChecker permissions = some g ∧ (g.evaluate parse tool args).isSome = true

instance (permissions : Option Config) (tool : Text) (args : Config) :
    Decidable (Denied parse permissions tool args) :=
  match h : buildNetGuardChecker permissions with
  | none => .isFalse fun ⟨_, hg, _⟩ => nomatch hg.symm.trans h
  | some g =>
    if hsome : (g.evaluate parse tool args).isSome = true then .isTrue ⟨g, h, hsome⟩
    else .isFalse fun ⟨_, hg, hd⟩ => hsome (Option.some.inj (hg.symm.trans h) ▸ hd)

theorem stricter_eq_deny_iff {left right : NetAction} :
    stricter left right = .deny ↔ left = .deny ∨ right = .deny := by
  rw [stricter]
  by_cases h : left = .deny ∨ right = .deny
  · rw [if_pos h]
    exact iff_of_true rfl h
  · rw [if_neg h]
    exact iff_of_false nofun h

theorem assocGet?_mergeEntry (merged : List (Text × NetAction)) (entry : Text × NetAction)
    (pattern : Text) :
    assocGet? pattern (mergeEntry merged entry) =
      if pattern = entry.1 then
        some (((assocGet? pattern merged).map fun o => stricter o entry.2).getD entry.2)
      else assocGet? pattern merged := by
  by_cases hkey : pattern = entry.1
  · rw [if_pos hkey, hkey, mergeEntry]
    cases hget : assocGet? entry.1 merged with
    | none => exact assocGet?_assocSet_self _ _ _
    | some overlay =>
      by_cases hlift : overlay = .allow ∧ entry.2 = .deny
      · simp only [if_pos hlift, assocGet?_assocSet_self, Option.map_some, Option.getD_some]
        rw [stricter_eq_deny_iff.mpr (.inr hlift.2)]
      · simp only [if_neg hlift, assocGet?_assocSet_self, Option.map_some, Option.getD_some]
  · rw [if_neg hkey, mergeEntry]
    cases assocGet? entry.1 merged with
    | none => exact assocGet?_assocSet_of_ne hkey _ _
    | some overlay =>
      by_cases hlift : overlay = .allow ∧ entry.2 = .deny
      · simp only [if_pos hlift, assocGet?_assocSet_of_ne hkey]
      · simp only [if_neg hlift, assocGet?_assocSet_of_ne hkey]

theorem merged_none_iff (package overlay : List (Text × NetAction)) (pattern : Text) :
    assocGet? pattern (package.foldl mergeEntry overlay) = none ↔
      assocGet? pattern overlay = none ∧ assocGet? pattern package = none := by
  induction package generalizing overlay with
  | nil => simp [assocGet?]
  | cons entry package ih =>
    rw [foldl_cons, ih, assocGet?_mergeEntry, assocGet?]
    by_cases hkey : pattern = entry.1
    · simp [hkey]
    · simp [hkey, Ne.symm hkey]

theorem merged_deny_iff (package overlay : List (Text × NetAction)) (pattern : Text) :
    assocGet? pattern (package.foldl mergeEntry overlay) = some .deny ↔
      assocGet? pattern overlay = some .deny ∨ (pattern, .deny) ∈ package := by
  induction package generalizing overlay with
  | nil => simp
  | cons entry package ih =>
    rw [foldl_cons, ih, assocGet?_mergeEntry, mem_cons]
    by_cases hkey : pattern = entry.1
    · rw [if_pos hkey]
      have hentry : (pattern, NetAction.deny) = entry ↔ entry.2 = .deny := by
        rw [Prod.ext_iff]
        exact ⟨fun h => h.2.symm, fun h => ⟨hkey, h.symm⟩⟩
      rw [hentry, ← or_assoc]
      cases assocGet? pattern overlay with
      | none => simp
      | some o => simp [stricter_eq_deny_iff]
    · rw [if_neg hkey]
      have hentry : (pattern, NetAction.deny) ≠ entry := fun h => hkey (congrArg Prod.fst h)
      simp [hentry]

/-- The keys stay distinct texts that `strip` leaves alone. -/
def Compiled (urls : List (Text × NetAction)) : Prop :=
  (urls.map Prod.fst).Nodup ∧ ∀ e ∈ urls, strip e.1 = e.1 ∧ e.1 ≠ []

variable {urls : List (Text × NetAction)}

theorem Compiled.set (h : Compiled urls) {pattern : Text}
    (hstrip : strip pattern = pattern) (hne : pattern ≠ []) (action : NetAction) :
    Compiled (assocSet pattern action urls) := by
  refine ⟨nodup_assocSet h.1, fun e he => ?_⟩
  rcases mem_assocSet he with rfl | he
  · exact ⟨hstrip, hne⟩
  · exact h.2 e he

theorem compiled_compileUrls (urls : Config) : Compiled (compileUrls urls) := by
  rw [compileUrls]
  suffices hgen : ∀ compiled, Compiled compiled → Compiled (urls.foldl (fun compiled e =>
      if strip e.1 = [] then compiled
      else match parseAction (some e.2) with
        | none => compiled
        | some action => assocSet (strip e.1) action compiled) compiled) from
    hgen [] ⟨nodup_nil, nofun⟩
  induction urls with
  | nil => exact fun _ h => h
  | cons e urls ih =>
    intro compiled h
    rw [foldl_cons]
    refine ih _ ?_
    by_cases hblank : strip e.1 = []
    · rw [if_pos hblank]
      exact h
    · rw [if_neg hblank]
      cases parseAction (some e.2) with
      | none => exact h
      | some action => exact h.set (strip_strip _) hblank action

theorem compiled_sectionUrls (members : Config) : Compiled (sectionUrls members) := by
  rw [sectionUrls]
  split
  · exact compiled_compileUrls _
  · exact ⟨nodup_nil, nofun⟩

theorem Compiled.mergeEntry {merged : List (Text × NetAction)} (h : Compiled merged)
    {entry : Text × NetAction} (hentry : strip entry.1 = entry.1 ∧ entry.1 ≠ []) :
    Compiled (mergeEntry merged entry) := by
  rw [NetGuard.mergeEntry]
  cases assocGet? entry.1 merged with
  | none => exact h.set hentry.1 hentry.2 _
  | some overlay =>
    by_cases hlift : overlay = .allow ∧ entry.2 = .deny
    · simp only [if_pos hlift]
      exact h.set hentry.1 hentry.2 _
    · simp only [if_neg hlift]
      exact h.set hentry.1 hentry.2 _

theorem Compiled.merge {package overlay : List (Text × NetAction)} (hoverlay : Compiled overlay)
    (hpackage : Compiled package) : Compiled (package.foldl NetGuard.mergeEntry overlay) := by
  have hkeys := hpackage.2
  clear hpackage
  induction package generalizing overlay with
  | nil => exact hoverlay
  | cons entry package ih =>
    rw [foldl_cons]
    exact ih (hoverlay.mergeEntry (hkeys entry (.head _)))
      fun e he => hkeys e (.tail _ he)

theorem parseAction_text (action : NetAction) :
    parseAction (some (.string action.text)) = some action := by
  cases action with
  | allow => rfl
  | deny => rfl

theorem compileUrls_urlsJson (h : Compiled urls) :
    compileUrls (urls.map fun e => (e.1, .string e.2.text)) = urls := by
  have hfold : ∀ compiled, (urls.map fun e => (e.1, Json.string e.2.text)).foldl (fun compiled e =>
      if strip e.1 = [] then compiled
      else match parseAction (some e.2) with
        | none => compiled
        | some action => assocSet (strip e.1) action compiled) compiled =
      urls.foldl (fun es w => assocSet w.1 w.2 es) compiled := by
    have hkeys := h.2
    clear h
    induction urls with
    | nil => exact fun _ => rfl
    | cons e urls ih =>
      intro compiled
      obtain ⟨hstrip, hne⟩ := hkeys e (.head _)
      rw [map_cons, foldl_cons, foldl_cons]
      simp only [hstrip, if_neg hne, parseAction_text]
      exact ih (fun e' he' => hkeys e' (.tail _ he')) _
  rw [compileUrls]
  exact (hfold []).trans (assocOfWrites_of_nodup h.1)

def Matches (pattern : Text) (args : Config) : Prop :=
  ∃ url, extractFetchUrl args = some url ∧ matchNetPattern parse pattern url = true

def Hits (urls : List (Text × NetAction)) (action : NetAction) (args : Config) : Prop :=
  ∃ pattern, (pattern, action) ∈ urls ∧ Matches parse pattern args

def Denies (urls : List (Text × NetAction)) (defaults : NetAction) (args : Config) : Prop :=
  Hits parse urls .deny args ∨
    (¬ Hits parse urls .deny args ∧ ¬ Hits parse urls .allow args ∧ defaults = .deny)

variable {parse}

theorem mem_hits_iff {g : NetGuardChecker} {args : Config} {e : Text × NetAction} :
    e ∈ g.hits parse (extractFetchUrl args) ↔ e ∈ g.urls ∧ Matches parse e.1 args := by
  cases hurl : extractFetchUrl args with
  | none => simp [NetGuardChecker.hits, Matches, hurl]
  | some url => simp [NetGuardChecker.hits, Matches, hurl]

theorem hits_nil_iff {g : NetGuardChecker} {args : Config} :
    g.hits parse (extractFetchUrl args) = [] ↔
      ¬ Hits parse g.urls .deny args ∧ ¬ Hits parse g.urls .allow args := by
  rw [eq_nil_iff_forall_not_mem]
  constructor
  · intro h
    exact ⟨fun ⟨p, hp⟩ => h _ (mem_hits_iff.mpr hp), fun ⟨p, hp⟩ => h _ (mem_hits_iff.mpr hp)⟩
  · rintro ⟨hdeny, hallow⟩ ⟨p, action⟩ he
    have hp := mem_hits_iff.mp he
    cases action with
    | allow => exact hallow ⟨p, hp⟩
    | deny => exact hdeny ⟨p, hp⟩

theorem evaluate_isSome_iff {g : NetGuardChecker} {tool : Text} {args : Config}
    (henabled : g.enabled = true) :
    (g.evaluate parse tool args).isSome = true ↔
      strip tool ∈ fetchTools ∧ Denies parse g.urls g.defaults args := by
  by_cases htool : strip tool ∈ fetchTools
  · rw [← not_iff_not, Option.not_isSome_iff_eq_none, evaluate_eq_none_iff henabled htool,
      hits_nil_iff, and_iff_right htool, Denies]
    have hdeny : (∀ e ∈ g.hits parse (extractFetchUrl args), e.2 ≠ .deny) ↔
        ¬ Hits parse g.urls .deny args := by
      constructor
      · rintro h ⟨p, hp⟩
        exact h _ (mem_hits_iff.mpr hp) rfl
      · rintro h ⟨p, action⟩ he rfl
        exact h ⟨p, mem_hits_iff.mp he⟩
    rw [hdeny]
    grind
  · rw [NetGuardChecker.evaluate, if_pos (.inr htool)]
    exact iff_of_false Bool.false_ne_true fun h => htool h.1

theorem hits_iff_of_compiled (h : Compiled urls) {action : NetAction} {args : Config} :
    Hits parse urls action args ↔
      ∃ pattern, assocGet? pattern urls = some action ∧ Matches parse pattern args :=
  exists_congr fun _ => and_congr_left' ⟨assocGet?_of_mem h.1, mem_of_assocGet?⟩

section Merged

variable {package overlay : List (Text × NetAction)} {args : Config}

theorem hits_deny_merged (hoverlay : Compiled overlay) (hpackage : Compiled package) :
    Hits parse (package.foldl mergeEntry overlay) .deny args ↔
      Hits parse overlay .deny args ∨ Hits parse package .deny args := by
  rw [hits_iff_of_compiled (hoverlay.merge hpackage), hits_iff_of_compiled hoverlay, Hits,
    ← exists_or]
  refine exists_congr fun pattern => ?_
  rw [merged_deny_iff, or_and_right]

theorem hits_merged (hoverlay : Compiled overlay) (hpackage : Compiled package) :
    (∃ action, Hits parse (package.foldl mergeEntry overlay) action args) ↔
      (∃ action, Hits parse overlay action args) ∨ ∃ action, Hits parse package action args := by
  have hlisted : ∀ {urls : List (Text × NetAction)}, Compiled urls →
      ((∃ action, Hits parse urls action args) ↔
        ∃ pattern, assocGet? pattern urls ≠ none ∧ Matches parse pattern args) := by
    intro urls hurls
    constructor
    · rintro ⟨action, hhit⟩
      obtain ⟨pattern, hget, hmatch⟩ := (hits_iff_of_compiled hurls).mp hhit
      exact ⟨pattern, by rw [hget]; exact nofun, hmatch⟩
    · rintro ⟨pattern, hget, hmatch⟩
      obtain ⟨action, haction⟩ := Option.ne_none_iff_exists'.mp hget
      exact ⟨action, (hits_iff_of_compiled hurls).mpr ⟨pattern, haction, hmatch⟩⟩
  rw [hlisted (hoverlay.merge hpackage), hlisted hoverlay, hlisted hpackage, ← exists_or]
  refine exists_congr fun pattern => ?_
  rw [Ne, merged_none_iff, not_and_or, or_and_right]

end Merged

theorem exists_hits_iff {args : Config} :
    (∃ action, Hits parse urls action args) ↔
      Hits parse urls .deny args ∨ Hits parse urls .allow args := by
  constructor
  · rintro ⟨action, h⟩
    cases action with
    | allow => exact .inr h
    | deny => exact .inl h
  · rintro (h | h)
    · exact ⟨_, h⟩
    · exact ⟨_, h⟩

theorem denied_iff {permissions : Option Config} {members : Config}
    (hsection : netGuardSection (permissions.getD []) = some members)
    (henabled : sectionEnabled members = true) {tool : Text} {args : Config} :
    Denied parse permissions tool args ↔ strip tool ∈ fetchTools ∧
      Denies parse (sectionUrls members) (NetGuardChecker.ofSection members).defaults args := by
  have hbuild : buildNetGuardChecker permissions = some (.ofSection members) := by
    rw [buildNetGuardChecker, hsection]
    exact if_pos henabled
  have hon : (NetGuardChecker.ofSection members).enabled = true := henabled
  rw [Denied, hbuild]
  constructor
  · rintro ⟨g, hg, hdenied⟩
    cases hg
    exact (evaluate_isSome_iff hon).mp hdenied
  · exact fun h => ⟨_, rfl, (evaluate_isSome_iff hon).mpr h⟩

section Section

variable {members : Config} (merged : List (Text × NetAction))

theorem getKey_assocSet_of_ne {key k : Text} (h : key ≠ k) (v : Json) (es : Config) :
    getKey key (assocSet k v es) = getKey key es := by
  rw [getKey, getKey, assocGet?_assocSet_of_ne h]

theorem sectionEnabled_set : sectionEnabled (assocSet "urls".toList (urlsJson merged) members) =
    sectionEnabled members := by
  rw [sectionEnabled, sectionEnabled, getKey_assocSet_of_ne (by decide)]

theorem defaults_set :
    (NetGuardChecker.ofSection (assocSet "urls".toList (urlsJson merged) members)).defaults =
      (NetGuardChecker.ofSection members).defaults := by
  simp only [NetGuardChecker.ofSection]
  rw [getKey_assocSet_of_ne (by decide)]

theorem sectionUrls_set (h : Compiled merged) :
    sectionUrls (assocSet "urls".toList (urlsJson merged) members) = merged := by
  rw [sectionUrls, getKey, assocGet?_assocSet_self]
  exact compileUrls_urlsJson h

end Section

/-- A package allow entry lifts the section's default `deny`: no pattern of the section matches, and
no deny entry of the package. -/
def LiftsDefault (parse : UrlParse) (package : List (Text × NetAction)) (members : Config)
    (args : Config) : Prop :=
  (NetGuardChecker.ofSection members).defaults = .deny ∧
    ¬ (∃ action, Hits parse (sectionUrls members) action args) ∧
    Hits parse package .allow args ∧ ¬ Hits parse package .deny args

theorem denied_merge_iff {netUrls : Config} {permissions : Option Config} {inject : Option Bool}
    {members : Config} (hsection : netGuardSection (permissions.getD []) = some members)
    (henabled : sectionEnabled members = true)
    (hinject : shouldInject (permissions.getD []) inject = true) {tool : Text} {args : Config} :
    Denied parse (some (mergePackageNetUrls netUrls permissions inject)) tool args ↔
      strip tool ∈ fetchTools ∧
        Denies parse ((loadPackageNetUrls netUrls).foldl mergeEntry (sectionUrls members))
          (NetGuardChecker.ofSection members).defaults args := by
  have hcompiled : Compiled ((loadPackageNetUrls netUrls).foldl mergeEntry (sectionUrls members)) :=
    (compiled_sectionUrls members).merge (compiled_compileUrls netUrls)
  have hmerge : netGuardSection
      ((some (mergePackageNetUrls netUrls permissions inject)).getD []) =
      some (assocSet "urls".toList
        (urlsJson ((loadPackageNetUrls netUrls).foldl mergeEntry (sectionUrls members)))
          members) := by
    rw [Option.getD_some, mergePackageNetUrls]
    simp only [if_pos hinject, hsection, Option.getD_some]
    rw [netGuardSection, assocGet?_assocSet_self]
  rw [denied_iff hmerge ((sectionEnabled_set _).trans henabled), sectionUrls_set _ hcompiled,
    defaults_set]

theorem denies_merged_iff {netUrls members args : Config}
    (hdenied : Denies parse (sectionUrls members) (NetGuardChecker.ofSection members).defaults
      args) :
    Denies parse ((loadPackageNetUrls netUrls).foldl mergeEntry (sectionUrls members))
        (NetGuardChecker.ofSection members).defaults args ↔
      ¬ LiftsDefault parse (loadPackageNetUrls netUrls) members args := by
  have hoverlay := compiled_sectionUrls members
  have hpackage : Compiled (loadPackageNetUrls netUrls) := compiled_compileUrls netUrls
  have hdeny := @hits_deny_merged parse _ _ args hoverlay hpackage
  have hsome := @hits_merged parse _ _ args hoverlay hpackage
  rw [exists_hits_iff, exists_hits_iff, exists_hits_iff] at hsome
  rw [LiftsDefault, exists_hits_iff]
  rw [Denies] at hdenied ⊢
  grind

/-- **The package URL list.** Where the list is merged into an enabled guard, every URL is denied
that a deny entry of the package matches, and every denial is kept but one by the section's default,
of a URL that the package allows and that no pattern of the section and no deny entry matches. -/
theorem merge_package_net_urls_keeps_denials (parse : UrlParse) (netUrls : Config)
    (permissions : Option Config) (inject : Option Bool) (members : Config)
    (hsection : netGuardSection (permissions.getD []) = some members)
    (henabled : sectionEnabled members = true) (tool : Text) (args : Config) :
    (shouldInject (permissions.getD []) inject = true →
      (Denied parse permissions tool args →
        (Denied parse (some (mergePackageNetUrls netUrls permissions inject)) tool args ↔
          ¬ LiftsDefault parse (loadPackageNetUrls netUrls) members args)) ∧
      (strip tool ∈ fetchTools → Hits parse (loadPackageNetUrls netUrls) .deny args →
        Denied parse (some (mergePackageNetUrls netUrls permissions inject)) tool args)) ∧
    (shouldInject (permissions.getD []) inject = false →
      mergePackageNetUrls netUrls permissions inject = permissions.getD []) := by
  refine ⟨fun hinject => ⟨fun hdenied => ?_, fun htool hhit => ?_⟩, fun hinject => ?_⟩
  · obtain ⟨htool, hdenies⟩ := (denied_iff hsection henabled).mp hdenied
    rw [denied_merge_iff hsection henabled hinject, and_iff_right htool]
    exact denies_merged_iff hdenies
  · rw [denied_merge_iff hsection henabled hinject]
    refine ⟨htool, .inl ?_⟩
    exact (hits_deny_merged (compiled_sectionUrls members) (compiled_compileUrls netUrls)).mpr
      (.inr hhit)
  · rw [mergePackageNetUrls]
    simp [hinject]

def configOf (members : Config) : Config := [("net_guard".toList, .object members)]

theorem netGuardSection_configOf (members : Config) :
    netGuardSection (configOf members) = some members := by
  simp [netGuardSection, configOf, assocGet?]

/-- A package entry denies a host that the section allows. -/
theorem localhost_denied_by_package :
    Denied plainParse (some (mergePackageNetUrls [("localhost".toList, .string "deny".toList)]
      (some (configOf (sectionOf "allow" "localhost" "allow"))) none)) "fetch_webpage".toList
        (urlArgs "http://localhost:80/") := by
  refine ((merge_package_net_urls_keeps_denials plainParse _
    (some (configOf (sectionOf "allow" "localhost" "allow"))) _
    (sectionOf "allow" "localhost" "allow") (netGuardSection_configOf _) ?_ _ _).1 ?_).2 ?_
      ⟨"localhost".toList, ?_, "http://localhost:80/".toList, ?_⟩
  all_goals decide

/-- A package entry that allows passes what the default of the section denied. -/
theorem package_allow_widens :
    ¬ ∀ (parse : UrlParse) (netUrls : Config) (permissions : Config) (members : Config)
        (tool : Text) (args : Config),
      netGuardSection permissions = some members → sectionEnabled members = true →
        Denied parse (some permissions) tool args →
          Denied parse (some (mergePackageNetUrls netUrls (some permissions) none)) tool args := by
  intro h
  have hdenied := h plainParse [("good.com".toList, .string "allow".toList)]
    (configOf (sectionOf "deny" "other.com" "allow")) (sectionOf "deny" "other.com" "allow")
    "fetch_webpage".toList (urlArgs "http://good.com/") (netGuardSection_configOf _)
    (by decide) (by decide)
  exact absurd hdenied (by decide)

end JiuwenSpec.NetGuard

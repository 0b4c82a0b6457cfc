import JiuwenSpec.Permission.PathRules

/-!
# Allowing accesses for ever

Entries written for approved accesses allow them, and change nothing for a path that is not at or
below one of theirs, as long as the section keeps its mode and each entry is the first rule of its
path.
-/

namespace JiuwenSpec.Permission

open Base List

/-- A path as the guard reports it: resolved, without space or slashes at its ends. -/
structure Plain (fs : FileSystem) (path : String) : Prop where
  stripped : strip path = path
  slashed : rstripSlash (slashes path) = path
  bare : rstripSlash path = path
  resolved : fs.normalized path = path
  rooted : '/' ∈ path.toList

def Concerns (fs : FileSystem) (path : String) (item : PathItem) : Prop :=
  rstripSlash (slashes item.path) = path ∨
    (item.isGlob = false ∧ rstripSlash (fs.normalized (strip item.path)) = path)

/-- A value of an axis is written out, or missing where a missing one asks. -/
def Written (native : Bool) (value : Option RawValue) : Prop :=
  (∃ v, value = some v ∧ isAction v = true) ∨ (native = true ∧ value = none)

structure OwnEntry (native : Bool) (path : String) (item : PathItem) : Prop where
  path : item.path = path
  noGlob : item.isGlob = false
  read : Written native item.axes.read
  write : Written native item.axes.write
  exec : Written native item.axes.exec

def itemRule (fs : FileSystem) (native : Bool) (item : PathItem) : Option PathRule :=
  if native then nativeRule fs item else legacyRule fs item

/-- The entries of a path are as a merge writes them, and no rule of the path comes before. -/
structure Clear (fs : FileSystem) (perms : Permissions) (workspaceRoot : Option String)
    (trustedDirs : List String) (path : String) : Prop where
  own : ∀ item ∈ perms.guard.paths, Concerns fs path item → OwnEntry perms.native path item
  first : perms.native = false →
    firstFor path (legacyFirst fs perms.external workspaceRoot trustedDirs) = none

variable {fs : FileSystem} {native : Bool} {path : String} {approved : PathAction}

theorem compile_plain (h : Plain fs path) (raw : RawAxes) :
    compilePathEntry fs path raw false = some ⟨path, compileAxes raw, false⟩ := by
  have hempty : ¬ (path = "" ∨ path = "*") := by
    rintro (rfl | rfl)
    · exact absurd h.rooted (by decide)
    · exact absurd h.rooted (by decide)
  rw [compilePathEntry, h.stripped]
  rw [if_neg hempty, if_neg Bool.false_ne_true, h.slashed, h.resolved, h.bare,
    if_pos ⟨h.rooted, h.rooted⟩]

theorem compile_eq_some {p : String} {raw : RawAxes} {glob : Bool} {r : PathRule}
    (h : compilePathEntry fs p raw glob = some r) :
    r.isGlob = glob ∧ (glob = false → r.path = fs.normalized (strip p)) := by
  rw [compilePathEntry] at h
  split at h
  · cases h
  · split at h
    · next hglob =>
      rw [← Option.some.inj h, hglob]
      exact ⟨rfl, fun h => by cases h⟩
    · next hglob =>
      rw [Bool.not_eq_true] at hglob
      split at h
      · rw [← Option.some.inj h, hglob]
        exact ⟨rfl, fun _ => rfl⟩
      · cases h

variable {item : PathItem}

theorem not_isFor_of_not_concerns (h : ¬ Concerns fs path item) {r : PathRule}
    (hr : itemRule fs native item = some r) : r.isFor path = false := by
  have hbase : item.isGlob = false → r.path = fs.normalized (strip item.path) →
      r.isFor path = false := by
    intro hglob hpath
    rw [PathRule.isFor, PathRule.base, hpath, Bool.and_eq_false_iff]
    exact .inr (decide_eq_false fun hsame => h (.inr ⟨hglob, hsame⟩))
  rw [itemRule] at hr
  split at hr
  · obtain ⟨hkind, hpath⟩ := compile_eq_some hr
    cases hglob : item.isGlob with
    | true => rw [PathRule.isFor, hkind, hglob, Bool.not_true, Bool.false_and]
    | false => exact hbase hglob (hpath hglob)
  · rw [legacyRule] at hr
    split at hr
    · cases hr
    · next hglob => exact hbase (Bool.not_eq_true _ ▸ hglob) ((compile_eq_some hr).2 rfl)

theorem Written.or_eq {value other : Option RawValue} (h : Written false value) :
    value.or other = value := by
  rcases h with ⟨v, rfl, -⟩ | ⟨hfalse, -⟩
  · rfl
  · cases hfalse

theorem OwnEntry.rule (hplain : Plain fs path) (h : OwnEntry native path item) :
    itemRule fs native item = some ⟨path, compileAxes item.axes, false⟩ := by
  cases native with
  | true =>
    rw [itemRule, if_pos rfl, nativeRule, h.path, h.noGlob, compile_plain hplain]
  | false =>
    rw [itemRule, if_neg Bool.false_ne_true, legacyRule, h.noGlob, if_neg Bool.false_ne_true,
      h.path, h.read.or_eq, h.write.or_eq, h.exec.or_eq, compile_plain hplain]

theorem isFor_plain (hplain : Plain fs path) (axes : Axes) :
    PathRule.isFor path ⟨path, axes, false⟩ = true := by
  rw [PathRule.isFor, PathRule.base, hplain.bare]
  simp

def RawAxes.value (raw : RawAxes) : PathAction → Option RawValue
  | .read => raw.read
  | .write => raw.write
  | .exec => raw.exec

theorem level_compileAxes {raw : RawAxes} (h : raw.read = some (.text "allow"))
    (action : PathAction) : (compileAxes raw).level action = parseRaw (raw.value action) := by
  have hread : parseRaw raw.read = .allow := by
    rw [h]
    decide
  rw [compileAxes, applyImplications, hread]
  dsimp only
  split
  · rw [if_neg (by decide)]
    cases action with
    | read => exact hread.symm
    | write => rfl
    | exec => rfl
  · cases action with
    | read => exact hread.symm
    | write => rfl
    | exec => rfl

theorem level_compileAxes_of_ne {action : PathAction} (h : action ≠ .read) (raw : RawAxes) :
    (compileAxes raw).level action = parseRaw (raw.value action) := by
  rw [compileAxes, applyImplications]
  dsimp only
  cases action with
  | read => exact absurd rfl h
  | write => split <;> [split; skip] <;> rfl
  | exec => split <;> [split; skip] <;> rfl

theorem value_axesForAction (approved action : PathAction) :
    (Granted approved action → (axesForAction approved).value action = some (.text "allow")) ∧
      (¬ Granted approved action →
        (axesForAction approved).value action = some (.text "ask")) := by
  constructor
  · rintro (rfl | rfl)
    · cases approved <;> rfl
    · cases action <;> rfl
  · intro h
    cases action with
    | read => exact absurd (.inl rfl) h
    | write =>
      cases approved with
      | write => exact absurd (.inr rfl) h
      | read => rfl
      | exec => rfl
    | exec =>
      cases approved with
      | exec => exact absurd (.inr rfl) h
      | read => rfl
      | write => rfl

theorem value_raiseAxes (old new : RawAxes) (action : PathAction) :
    (raiseAxes old new).value action = escalate (old.value action) (new.value action) := by
  cases action <;> rfl

theorem OwnEntry.written (h : OwnEntry native path item) (action : PathAction) :
    Written native (item.axes.value action) := by
  cases action with
  | read => exact h.read
  | write => exact h.write
  | exec => exact h.exec

theorem parseRaw_escalate_ask {value : Option RawValue} (h : Written native value) :
    parseRaw (escalate value (some (.text "ask"))) = parseRaw value := by
  rcases h with ⟨v, rfl, haction⟩ | ⟨-, rfl⟩
  · rw [escalate, if_neg (by decide)]
    rw [if_pos haction]
  · decide

theorem escalate_allow (old : Option RawValue) :
    escalate old (some (.text "allow")) = some (.text "allow") := if_pos rfl

theorem level_raiseAxes (h : OwnEntry native path item) (action : PathAction) :
    (Granted approved action →
      (compileAxes (raiseAxes item.axes (axesForAction approved))).level action = .allow) ∧
    (¬ Granted approved action →
      (compileAxes (raiseAxes item.axes (axesForAction approved))).level action =
        (compileAxes item.axes).level action) := by
  have hread : (raiseAxes item.axes (axesForAction approved)).read = some (.text "allow") := by
    have hvalue := value_raiseAxes item.axes (axesForAction approved) .read
    rw [(value_axesForAction approved .read).1 (.inl rfl), escalate_allow] at hvalue
    exact hvalue
  rw [level_compileAxes hread, value_raiseAxes]
  constructor
  · intro hgranted
    rw [(value_axesForAction approved action).1 hgranted, escalate_allow]
    decide
  · intro hnot
    have hne : action ≠ .read := fun heq => hnot (.inl heq)
    rw [(value_axesForAction approved action).2 hnot, parseRaw_escalate_ask (h.written action),
      level_compileAxes_of_ne hne]

theorem written_escalate {value new : Option RawValue}
    (hnew : ∃ v, new = some v ∧ isAction v = true) : Written native (escalate value new) := by
  rw [escalate.eq_def]
  split
  · exact .inl hnew
  · cases value with
    | none => exact .inl hnew
    | some v =>
      dsimp only
      split
      · next haction => exact .inl ⟨v, rfl, haction⟩
      · exact .inl hnew

theorem isAction_axesForAction (approved action : PathAction) :
    ∃ v, (axesForAction approved).value action = some v ∧ isAction v = true := by
  by_cases h : Granted approved action
  · exact ⟨_, (value_axesForAction approved action).1 h, by decide⟩
  · exact ⟨_, (value_axesForAction approved action).2 h, by decide⟩

theorem OwnEntry.merge {item : PathItem} (h : OwnEntry native path item) (approved : PathAction) :
    OwnEntry native path (mergeItem path (axesForAction approved) item) ∧
      (mergeItem path (axesForAction approved) item).axes =
        raiseAxes item.axes (axesForAction approved) := by
  rw [mergeItem]
  split
  · next hsame => exact ⟨h, hsame.1⟩
  · refine ⟨⟨rfl, ?_, ?_, ?_, ?_⟩, rfl⟩
    · have hkind : item.kind ≠ some "glob" := of_decide_eq_false h.noGlob
      have hmerged : mergedKind item.kind ≠ "glob" := by
        rw [mergedKind]
        split
        · decide
        · cases hk : item.kind with
          | none => decide
          | some k =>
            rintro rfl
            exact hkind hk
      exact decide_eq_false fun heq => hmerged (Option.some.inj heq)
    · exact written_escalate (isAction_axesForAction approved .read)
    · exact written_escalate (isAction_axesForAction approved .write)
    · exact written_escalate (isAction_axesForAction approved .exec)

theorem ownEntry_new (native : Bool) (path : String) (approved : PathAction) :
    OwnEntry native path ⟨path, axesForAction approved, some "prefix"⟩ :=
  ⟨rfl, rfl, .inl (isAction_axesForAction approved .read),
    .inl (isAction_axesForAction approved .write), .inl (isAction_axesForAction approved .exec)⟩

/-- The entries of a section: each one that concerns the path is its own. -/
def Orderly (fs : FileSystem) (native : Bool) (path : String) (items : List PathItem) : Prop :=
  ∀ item ∈ items, Concerns fs path item → OwnEntry native path item

def entryRules (fs : FileSystem) (native : Bool) (items : List PathItem) : List PathRule :=
  items.filterMap (itemRule fs native)

theorem entryRules_native (items : List PathItem) :
    entryRules fs true items = items.filterMap (nativeRule fs) :=
  filterMap_congr fun _ _ => if_pos rfl

theorem entryRules_legacy (items : List PathItem) :
    entryRules fs false items = items.filterMap (legacyRule fs) :=
  filterMap_congr fun _ _ => if_neg Bool.false_ne_true

structure Merged (path : String) (approved : PathAction) (rules rules' : List PathRule) :
    Prop where
  off : offPath path rules' = offPath path rules
  first : ∃ r', firstFor path rules' = some r' ∧
    (∀ action, Granted approved action → r'.axes.level action = .allow) ∧
    ∀ action, ¬ Granted approved action →
      (firstFor path rules = none ∧ r'.axes.level action = .ask) ∨
        ∃ r, firstFor path rules = some r ∧ r'.axes.level action = r.axes.level action

variable {rule : PathRule}

theorem offPath_cons_for (h : rule.isFor path = true) (rules : List PathRule) :
    offPath path (rule :: rules) = offPath path rules := by
  rw [offPath, filter_cons, h]
  rfl

theorem firstFor_cons_for (h : rule.isFor path = true) (rules : List PathRule) :
    firstFor path (rule :: rules) = some rule := by
  rw [firstFor, List.find?_cons, h]

theorem firstFor_cons_off (h : rule.isFor path = false)
    (rules : List PathRule) : firstFor path (rule :: rules) = firstFor path rules := by
  rw [firstFor, List.find?_cons, h]
  rfl

theorem offPath_cons_off (h : rule.isFor path = false)
    (rules : List PathRule) : offPath path (rule :: rules) = rule :: offPath path rules := by
  rw [offPath, filter_cons, h]
  rfl

theorem Merged.cons {rules rules' : List PathRule} (h : Merged path approved rules rules')
    {rule : PathRule} (hrule : rule.isFor path = false) :
    Merged path approved (rule :: rules) (rule :: rules') := by
  obtain ⟨r', hr', hgranted, hrest⟩ := h.first
  refine ⟨?_, r', ?_, hgranted, ?_⟩
  · rw [offPath_cons_off hrule, offPath_cons_off hrule, h.off]
  · rw [firstFor_cons_off hrule, hr']
  · rw [firstFor_cons_off hrule]
    exact hrest

theorem merged_entries (hplain : Plain fs path) {items : List PathItem}
    (hown : Orderly fs native path items) (approved : PathAction) :
    Merged path approved (entryRules fs native items)
      (entryRules fs native (mergeItems path (axesForAction approved) items)) := by
  induction items with
  | nil =>
    have hnew := ownEntry_new native path approved
    have hrule := hnew.rule hplain
    have hrules : entryRules fs native (mergeItems path (axesForAction approved) []) =
        [⟨path, compileAxes (axesForAction approved), false⟩] := by
      rw [mergeItems, entryRules, filterMap_cons, hrule]
      rfl
    have hread : (axesForAction approved).read = some (.text "allow") :=
      (value_axesForAction approved .read).1 (.inl rfl)
    rw [hrules]
    refine ⟨offPath_cons_for (isFor_plain hplain _) [], _,
      firstFor_cons_for (isFor_plain hplain _) [], fun action hgranted => ?_,
      fun action hnot => .inl ⟨rfl, ?_⟩⟩
    · rw [level_compileAxes hread, (value_axesForAction approved action).1 hgranted]
      decide
    · rw [level_compileAxes hread, (value_axesForAction approved action).2 hnot]
      decide
  | cons item items ih =>
    have hrest : Orderly fs native path items :=
      fun i hi => hown i (.tail _ hi)
    rw [mergeItems]
    by_cases hraw : rstripSlash (slashes item.path) = path
    · have hitem := hown item (.head _) (.inl hraw)
      obtain ⟨hmerge, haxes⟩ := hitem.merge approved
      have hbefore : entryRules fs native (item :: items) =
          ⟨path, compileAxes item.axes, false⟩ :: entryRules fs native items := by
        rw [entryRules, filterMap_cons, hitem.rule hplain]
        rfl
      have hafter : entryRules fs native (mergeItem path (axesForAction approved) item :: items) =
          ⟨path, compileAxes (raiseAxes item.axes (axesForAction approved)), false⟩ ::
            entryRules fs native items := by
        rw [entryRules, filterMap_cons, hmerge.rule hplain, haxes]
        rfl
      rw [if_pos hraw, hbefore, hafter]
      refine ⟨?_, _, firstFor_cons_for (isFor_plain hplain _) _,
        fun action => (level_raiseAxes hitem action).1, fun action hnot =>
          .inr ⟨⟨path, compileAxes item.axes, false⟩, ?_, ?_⟩⟩
      · rw [offPath_cons_for (isFor_plain hplain _), offPath_cons_for (isFor_plain hplain _)]
      · exact firstFor_cons_for (isFor_plain hplain _) _
      · exact (level_raiseAxes hitem action).2 hnot
    · have hnot : ¬ Concerns fs path item := by
        intro h
        have hpath := (hown item (.head _) h).path
        exact hraw (by rw [hpath, hplain.slashed])
      rw [if_neg hraw, entryRules, filterMap_cons, entryRules, filterMap_cons]
      cases hrule : itemRule fs native item with
      | none => exact ih hrest
      | some rule => exact (ih hrest).cons (not_isFor_of_not_concerns hnot hrule)

theorem mem_mergeItems {items : List PathItem} (hown : Orderly fs native path items)
    (h : item ∈ mergeItems path (axesForAction approved) items) :
    item ∈ items ∨ OwnEntry native path item := by
  induction items with
  | nil =>
    rw [mem_singleton.mp h]
    exact .inr (ownEntry_new native path approved)
  | cons i items ih =>
    rw [mergeItems] at h
    split at h
    · next hraw =>
      rcases mem_cons.mp h with rfl | h
      · exact .inr ((hown i (.head _) (.inl hraw)).merge approved).1
      · exact .inl (.tail _ h)
    · rcases mem_cons.mp h with rfl | h
      · exact .inl (.head _)
      · exact (ih (fun i hi => hown i (.tail _ hi)) h).imp_left
          (mem_cons_of_mem _)

theorem Orderly.merge {other : String} (hplain : Plain fs path) {items : List PathItem}
    (hown : Orderly fs native path items) (hother : Orderly fs native other items) :
    Orderly fs native other (mergeItems path (axesForAction approved) items) := by
  intro item hitem hconcerns
  rcases mem_mergeItems hown hitem with hold | hnew
  · exact hother item hold hconcerns
  · have hsame : other = path := by
      rcases hconcerns with h | ⟨-, h⟩
      · rw [← h, hnew.path, hplain.slashed]
      · rw [← h, hnew.path, hplain.stripped, hplain.resolved, hplain.bare]
    rw [hsame]
    exact hnew

theorem mergeItems_ne_nil (axes : RawAxes) (items : List PathItem) :
    mergeItems path axes items ≠ [] := by
  cases items with
  | nil => exact cons_ne_nil _ _
  | cons item items =>
    rw [mergeItems]
    split
    · exact cons_ne_nil _ _
    · exact cons_ne_nil _ _

theorem any_isGlob_mergeItems {items : List PathItem} (hown : Orderly fs native path items) :
    (mergeItems path (axesForAction approved) items).any (·.isGlob) =
      items.any (·.isGlob) := by
  induction items with
  | nil => rfl
  | cons item items ih =>
    rw [mergeItems]
    split
    · next hraw =>
      have hitem := hown item (.head _) (.inl hraw)
      rw [any_cons, any_cons, (hitem.merge approved).1.noGlob, hitem.noGlob]
    · rw [any_cons, any_cons, ih fun i hi => hown i (mem_cons_of_mem _ hi)]

variable {perms : Permissions} {workspaceRoot : Option String} {trustedDirs : List String}

def KeepsMode (perms : Permissions) : Prop :=
  perms.native = true ∨ perms.external.present = true

theorem mergePathRule_plain (hplain : Plain fs path) (axes : RawAxes) :
    mergePathRule perms path axes = { perms with guard := { perms.guard with
      enabled := some true
      paths := mergeItems path axes perms.guard.paths } } := by
  have hne : path ≠ "" := by
    rintro rfl
    exact absurd hplain.rooted (by decide)
  rw [mergePathRule, hplain.slashed, if_neg hne]

theorem native_merge (hplain : Plain fs path) (hmode : KeepsMode perms)
    (hown : Orderly fs perms.native path perms.guard.paths) :
    (mergePathRule perms path (axesForAction approved)).native = perms.native := by
  rw [mergePathRule_plain hplain, Permissions.native, Permissions.native]
  dsimp only
  rw [any_isGlob_mergeItems hown]
  rw [KeepsMode, Permissions.native] at hmode
  have hne := @mergeItems_ne_nil path (axesForAction approved) perms.guard.paths
  cases hdefaults : perms.guard.defaults.present with
  | true => rfl
  | false =>
    cases hworkspace : perms.guard.workspace.present with
    | true => rfl
    | false =>
      rw [hdefaults, hworkspace] at hmode
      cases hitems : perms.guard.paths with
      | nil =>
        rw [hitems] at hmode
        have hpresent : perms.external.present = true := by simpa using hmode
        rw [hpresent]
        simp
      | cons item items =>
        rw [hitems] at hne
        simp [hne]

theorem defaults_merge (hplain : Plain fs path) (hmode : KeepsMode perms)
    (hown : Orderly fs perms.native path perms.guard.paths) :
    (mergePathRule perms path (axesForAction approved)).defaults = perms.defaults := by
  rw [Permissions.defaults, native_merge hplain hmode hown, mergePathRule_plain hplain]
  rfl

theorem Merged.append {rules rules' more more' : List PathRule}
    (h : Merged path approved rules rules') (hmore : offPath path more' = offPath path more) :
    Approved path approved (rules ++ more) (rules' ++ more') := by
  obtain ⟨r', hr', hgranted, hrest⟩ := h.first
  refine ⟨?_, r', ?_, hgranted, fun action hnot => ?_⟩
  · rw [offPath_append, offPath_append, h.off, hmore]
  · rw [firstFor_append, hr', Option.some_or]
  · rcases hrest action hnot with ⟨-, hask⟩ | ⟨r, hr, hsame⟩
    · exact .inl hask
    · refine .inr ⟨r, ?_, hsame⟩
      rw [firstFor_append, hr, Option.some_or]

theorem Merged.prepend {rules rules' front : List PathRule}
    (h : Merged path approved rules rules') (hfront : firstFor path front = none) :
    Approved path approved (front ++ rules) (front ++ rules') := by
  obtain ⟨r', hr', hgranted, hrest⟩ := h.first
  refine ⟨?_, r', ?_, hgranted, fun action hnot => ?_⟩
  · rw [offPath_append, offPath_append, h.off]
  · rw [firstFor_append, hfront, hr', Option.none_or]
  · rcases hrest action hnot with ⟨-, hask⟩ | ⟨r, hr, hsame⟩
    · exact .inl hask
    · refine .inr ⟨r, ?_, hsame⟩
      rw [firstFor_append, hfront, hr, Option.none_or]

theorem externalRule_eq_some {e : String × RawValue} {r : PathRule}
    (h : externalRule fs e = some r) : r.isGlob = false ∧ r.path = fs.normalized (strip e.1) := by
  rw [externalRule] at h
  split at h
  · cases h
  · exact ⟨(compile_eq_some h).1, (compile_eq_some h).2 rfl⟩

theorem offPath_nativeExternal {existing existing' : List PathRule}
    (h : offPath path existing' = offPath path existing) (external : External) :
    offPath path (nativeExternal fs existing' external) =
      offPath path (nativeExternal fs existing external) := by
  have hmem : ∀ {p : String}, rstripSlash p ≠ path → ∀ {rules : List PathRule},
      p ∈ (rules.filter (!·.isGlob)).map (·.path) ↔
        ∃ r ∈ offPath path rules, r.isGlob = false ∧ r.path = p := by
    intro p hp rules
    simp only [mem_map, mem_filter, offPath, Bool.not_eq_true', and_assoc]
    constructor
    · rintro ⟨r, hr, hglob, rfl⟩
      refine ⟨r, hr, ?_, hglob, rfl⟩
      rw [PathRule.isFor, PathRule.base, decide_eq_false hp, Bool.and_false]
    · rintro ⟨r, hr, -, hglob, rfl⟩
      exact ⟨r, hr, hglob, rfl⟩
  cases external with
  | missing => rfl
  | text s => rfl
  | entries es =>
    rw [nativeExternal, nativeExternal, offPath, offPath, filter_filterMap,
      filter_filterMap]
    refine filterMap_congr fun e _ => ?_
    by_cases hp : rstripSlash (fs.normalized (strip e.1)) = path
    · have hdropped : (externalRule fs e).filter (fun rule => !rule.isFor path) = none := by
        cases hrule : externalRule fs e with
        | none => rfl
        | some r =>
          obtain ⟨hglob, hpath⟩ := externalRule_eq_some hrule
          have hfor : r.isFor path = true := by
            rw [PathRule.isFor, PathRule.base, hglob, hpath, hp]
            simp
          rw [Option.filter_some, hfor]
          rfl
      split
      · split
        · rfl
        · exact hdropped.symm
      · split
        · exact hdropped
        · rfl
    · have hiff : fs.normalized (strip e.1) ∈ (existing'.filter (!·.isGlob)).map (·.path) ↔
          fs.normalized (strip e.1) ∈ (existing.filter (!·.isGlob)).map (·.path) := by
        rw [hmem hp, hmem hp, h]
      simp only [hiff]

theorem approved_merge (hplain : Plain fs path) (hmode : KeepsMode perms)
    (hclear : Clear fs perms workspaceRoot trustedDirs path) (approved : PathAction) :
    Approved path approved (perms.rules fs workspaceRoot trustedDirs)
      ((mergePathRule perms path (axesForAction approved)).rules fs workspaceRoot trustedDirs) := by
  have hmerged := merged_entries hplain hclear.own approved
  have hitems : (mergePathRule perms path (axesForAction approved)).guard.paths =
      mergeItems path (axesForAction approved) perms.guard.paths := by
    rw [mergePathRule_plain hplain]
  have hrest : (mergePathRule perms path (axesForAction approved)).external = perms.external ∧
      (mergePathRule perms path (axesForAction approved)).guard.workspace =
        perms.guard.workspace := by
    rw [mergePathRule_plain hplain]
    exact ⟨rfl, rfl⟩
  rw [Permissions.rules, Permissions.rules, native_merge hplain hmode hclear.own, hitems, hrest.1,
    hrest.2]
  cases hnative : perms.native with
  | true =>
    rw [hnative, entryRules_native, entryRules_native] at hmerged
    rw [if_pos rfl, if_pos rfl, append_assoc, append_assoc]
    refine hmerged.append ?_
    rw [offPath_append, offPath_append, offPath_nativeExternal]
    rw [offPath_append, offPath_append]
    exact congrArg (· ++ _) hmerged.off
  | false =>
    rw [hnative, entryRules_legacy, entryRules_legacy] at hmerged
    rw [if_neg Bool.false_ne_true, if_neg Bool.false_ne_true]
    exact hmerged.prepend (hclear.first hnative)

def EntryAllows (fs : FileSystem) (perms : Permissions) (path : String) (action : PathAction) :
    Prop :=
  ∃ r, firstFor path (entryRules fs perms.native perms.guard.paths) = some r ∧
    r.axes.level action = .allow

theorem firstFor_of_offPath {other : String} (hne : other ≠ path) {rules rules' : List PathRule}
    (h : offPath path rules' = offPath path rules) :
    firstFor other rules' = firstFor other rules := by
  have hoff : ∀ rules : List PathRule, firstFor other (offPath path rules) =
      firstFor other rules := by
    intro rules
    rw [firstFor, offPath, List.find?_filter, firstFor]
    congr 1
    funext rule
    by_cases hfor : rule.isFor other = true
    · have hnot : rule.isFor path = false := by
        rw [PathRule.isFor, Bool.and_eq_true, decide_eq_true_iff] at hfor
        rw [PathRule.isFor, hfor.2, decide_eq_false hne, Bool.and_false]
      rw [hnot, hfor]
      rfl
    · rw [Bool.not_eq_true] at hfor
      simp [hfor]
  rw [← hoff, h, hoff]

theorem EntryAllows.merge {other : String} {action : PathAction} (hplain : Plain fs path)
    (hmode : KeepsMode perms) (hown : Orderly fs perms.native path perms.guard.paths)
    (h : EntryAllows fs perms other action) (approved : PathAction) :
    EntryAllows fs (mergePathRule perms path (axesForAction approved)) other action := by
  obtain ⟨r, hr, hallow⟩ := h
  have hmerged := merged_entries hplain hown approved
  rw [EntryAllows, native_merge hplain hmode hown, mergePathRule_plain hplain]
  by_cases hsame : other = path
  · subst hsame
    obtain ⟨r', hr', hgranted, hrest⟩ := hmerged.first
    refine ⟨r', hr', ?_⟩
    by_cases hg : Granted approved action
    · exact hgranted action hg
    · rcases hrest action hg with ⟨hnone, -⟩ | ⟨s, hs, heq⟩
      · rw [hr] at hnone
        cases hnone
      · rw [hr] at hs
        rw [heq, ← Option.some.inj hs, hallow]
  · exact ⟨r, (firstFor_of_offPath hsame hmerged.off).trans hr, hallow⟩

theorem entryAllows_merge (hplain : Plain fs path) (hmode : KeepsMode perms)
    (hown : Orderly fs perms.native path perms.guard.paths) (approved : PathAction) :
    EntryAllows fs (mergePathRule perms path (axesForAction approved)) path approved := by
  obtain ⟨r', hr', hgranted, -⟩ := (merged_entries hplain hown approved).first
  rw [EntryAllows, native_merge hplain hmode hown, mergePathRule_plain hplain]
  exact ⟨r', hr', hgranted approved (.inr rfl)⟩

/-- Accesses that can be written: plain paths whose entries are in order. -/
def Writable (fs : FileSystem) (perms : Permissions) (workspaceRoot : Option String)
    (trustedDirs : List String) (accesses : List (String × PathAction)) : Prop :=
  ∀ access ∈ accesses, Plain fs access.1 ∧ Clear fs perms workspaceRoot trustedDirs access.1

theorem Clear.merge {other : String} (hplain : Plain fs path) (hmode : KeepsMode perms)
    (hclear : Clear fs perms workspaceRoot trustedDirs path)
    (hother : Clear fs perms workspaceRoot trustedDirs other) (approved : PathAction) :
    Clear fs (mergePathRule perms path (axesForAction approved)) workspaceRoot trustedDirs
      other := by
  have hnative := @native_merge _ _ approved _ hplain hmode hclear.own
  have horderly := @Orderly.merge _ _ _ approved other hplain _ hclear.own hother.own
  refine ⟨?_, ?_⟩
  · rw [hnative, mergePathRule_plain hplain]
    exact horderly
  · rw [hnative, mergePathRule_plain hplain]
    exact hother.first

theorem KeepsMode.merge (hplain : Plain fs path) (hmode : KeepsMode perms)
    (hown : Orderly fs perms.native path perms.guard.paths) (approved : PathAction) :
    KeepsMode (mergePathRule perms path (axesForAction approved)) := by
  rw [KeepsMode, native_merge hplain hmode hown, mergePathRule_plain hplain]
  exact hmode

theorem mergeAccessAllows_cons (hplain : Plain fs path) (approved : PathAction)
    (accesses : List (String × PathAction)) :
    mergeAccessAllows perms ((path, approved) :: accesses) =
      mergeAccessAllows (mergePathRule perms path (axesForAction approved)) accesses := by
  have hne : strip path ≠ "" := by
    rw [hplain.stripped]
    rintro rfl
    exact absurd hplain.rooted (by decide)
  rw [mergeAccessAllows, foldl_cons, if_neg hne]
  rfl

structure AllowsOnly (fs : FileSystem) (perms after : Permissions) (workspaceRoot : Option String)
    (trustedDirs : List String) (accesses : List (String × PathAction)) : Prop where
  globs : ∀ path action, globHits (after.rules fs workspaceRoot trustedDirs) path action =
    globHits (perms.rules fs workspaceRoot trustedDirs) path action
  /-- What was approved where an access lies is not stricter. -/
  granted : ∀ path action,
    (∀ access ∈ accesses, isUnder access.1 path = true → Granted access.2 action) →
      (perms.levelOf fs workspaceRoot trustedDirs path action).order ≤
        (after.levelOf fs workspaceRoot trustedDirs path action).order
  /-- What becomes allowed lies at or below an approved path and was approved there. -/
  narrow : ∀ path action, after.levelOf fs workspaceRoot trustedDirs path action = .allow →
    perms.levelOf fs workspaceRoot trustedDirs path action = .allow ∨
      ∃ access ∈ accesses, isUnder access.1 path = true ∧ Granted access.2 action

theorem mergeAccessAllows_spec {accesses : List (String × PathAction)} (hmode : KeepsMode perms)
    (h : Writable fs perms workspaceRoot trustedDirs accesses) :
    AllowsOnly fs perms (mergeAccessAllows perms accesses) workspaceRoot trustedDirs accesses ∧
      (mergeAccessAllows perms accesses).native = perms.native ∧
      (mergeAccessAllows perms accesses).external = perms.external ∧
      ∀ path action, ((path, action) ∈ accesses ∨ EntryAllows fs perms path action) →
        EntryAllows fs (mergeAccessAllows perms accesses) path action := by
  induction accesses generalizing perms with
  | nil =>
    refine ⟨⟨fun _ _ => rfl, fun _ _ _ => le_rfl, fun _ _ h => .inl h⟩, rfl, rfl, ?_⟩
    rintro path action (hmem | h)
    · cases hmem
    · exact h
  | cons access accesses ih =>
    obtain ⟨p, approved⟩ := access
    obtain ⟨hplain, hclear⟩ := h _ (.head _)
    have hstep := approved_merge hplain hmode hclear approved
    have hdefaults := @defaults_merge _ _ approved _ hplain hmode hclear.own
    have hnative := @native_merge _ _ approved _ hplain hmode hclear.own
    have hrest : Writable fs (mergePathRule perms p (axesForAction approved)) workspaceRoot
        trustedDirs accesses := fun a ha =>
      ⟨(h a (.tail _ ha)).1,
        hclear.merge hplain hmode (h a (.tail _ ha)).2 approved⟩
    obtain ⟨hafter, hnative', hexternal', hentries⟩ :=
      ih (hmode.merge hplain hclear.own approved) hrest
    have hlevel : ∀ q action,
        (mergePathRule perms p (axesForAction approved)).levelOf fs workspaceRoot trustedDirs q
          action = resolveOne perms.defaults
            ((mergePathRule perms p (axesForAction approved)).rules fs workspaceRoot trustedDirs)
            q action := fun q action => by rw [Permissions.levelOf, hdefaults]
    rw [mergeAccessAllows_cons hplain]
    refine ⟨⟨fun q action => ?_, fun q action hall => ?_, fun q action hallow => ?_⟩,
      hnative'.trans hnative, hexternal'.trans (by rw [mergePathRule_plain hplain]), ?_⟩
    · rw [hafter.globs, globHits_congr hstep.off]
    · refine le_trans ?_ (hafter.granted q action fun a ha => hall a (.tail _ ha))
      rw [hlevel]
      by_cases hunder : isUnder p q = true
      · exact hstep.granted (hall _ (.head _) hunder) q
      · rw [hstep.elsewhere (Bool.not_eq_true _ ▸ hunder)]
        exact le_rfl
    · rcases hafter.narrow q action hallow with hbefore | ⟨a, ha, hunder, hgranted⟩
      · rw [hlevel] at hbefore
        by_cases hunder : isUnder p q = true
        · by_cases hgranted : Granted approved action
          · exact .inr ⟨_, .head _, hunder, hgranted⟩
          · exact .inl (hstep.not_granted hgranted hbefore)
        · rw [hstep.elsewhere (Bool.not_eq_true _ ▸ hunder)] at hbefore
          exact .inl hbefore
      · exact .inr ⟨a, .tail _ ha, hunder, hgranted⟩
    · rintro q action (hmem | hentry)
      · rcases mem_cons.mp hmem with heq | hmem
        · obtain ⟨rfl, rfl⟩ := Prod.mk.inj heq
          exact hentries _ _ (.inr (entryAllows_merge hplain hmode hclear.own _))
        · exact hentries _ _ (.inl hmem)
      · exact hentries _ _ (.inr (hentry.merge hplain hmode hclear.own approved))

theorem enabled_mergeAccessAllows {accesses : List (String × PathAction)}
    (hon : perms.enabled trustedDirs = true) :
    (mergeAccessAllows perms accesses).enabled trustedDirs = true := by
  rw [mergeAccessAllows]
  induction accesses generalizing perms with
  | nil => exact hon
  | cons access accesses ih =>
    refine ih ?_
    dsimp only
    split
    · exact hon
    · rw [mergePathRule]
      split
      · exact hon
      · rfl

theorem EntryAllows.first {perms : Permissions} {action : PathAction}
    (h : EntryAllows fs perms path action)
    (hfirst : perms.native = false →
      firstFor path (legacyFirst fs perms.external workspaceRoot trustedDirs) = none) :
    ∃ r, firstFor path (perms.rules fs workspaceRoot trustedDirs) = some r ∧
      r.axes.level action = .allow := by
  obtain ⟨r, hr, hallow⟩ := h
  refine ⟨r, ?_, hallow⟩
  rw [Permissions.rules]
  cases hnative : perms.native with
  | true =>
    rw [hnative, entryRules_native] at hr
    rw [if_pos rfl, append_assoc, firstFor_append, hr, Option.some_or]
  | false =>
    rw [hnative, entryRules_legacy] at hr
    rw [if_neg Bool.false_ne_true, firstFor_append, hfirst hnative, Option.none_or, hr]

/-- A section that asks for reads and writes and allows the rest. -/
def askingSection : Permissions where
  guard := { enabled := some true, defaults := ⟨some (.text "ask"), some (.text "ask"),
    some (.text "allow")⟩ }

def plainFiles : FileSystem := ⟨id⟩

end JiuwenSpec.Permission

import JiuwenSpec.Base.Assoc
import JiuwenSpec.Base.Json

/-!
# The tally of a review

The votes of a review round are folded to the latest vote of each listed reviewer and counted in
two pools: verifiers and challengers pass or fail, inspectors give scores. The verdict is read from
the tally. Beside it stands the verdict as the list and the votes say it.
Source: `agent_teams/tools/models.py`, `agent_teams/tools/task_manager.py`,
`agent_teams/agent/scheduling/verdict.py`.
-/

namespace JiuwenSpec.Team

open Base

/-- An entry of the reviewer column, its ids texts: an object with its `type` where it is there and
its `reviewer_id`, empty where it is missing, a name of the old format, or another value. -/
inductive ReviewerEntry where
  | object (type : Option Text) (reviewerId : Text)
  | name (reviewerId : Text)
  | other

def verifierType : Text := "verifier".toList

def inspectorType : Text := "inspector".toList

/-- `reviewers()`. -/
def reviewers (column : List ReviewerEntry) : List Text :=
  column.filterMap fun entry =>
    match entry with
    | .object _ id => if id = [] then none else some id
    | .name id => some id
    | .other => none

/-- `reviewer_details()`, the ids with their types. -/
def reviewerDetails (column : List ReviewerEntry) : List (Text × Text) :=
  column.filterMap fun entry =>
    match entry with
    | .object type id => some (id, type.getD verifierType)
    | .name id => some (id, verifierType)
    | .other => none

/-- `type_map`: an id has the type of its last entry. -/
def typeMap (column : List ReviewerEntry) : List (Text × Text) :=
  assocOfWrites ((reviewerDetails column).filter fun detail => detail.1 ≠ [])

/-- `type_map.get(name, "verifier")`. -/
def reviewerType (column : List ReviewerEntry) (name : Text) : Text :=
  (assocGet? name (typeMap column)).getD verifierType

structure Vote where
  reviewer : Text
  decision : Text

/-- The numbers of the scores: how a decision is read as one, the mean of some, and whether one is
below another. -/
structure Scores (F : Type) where
  parse : Text → Option F
  mean : List F → F
  below : F → F → Bool

structure ReviewTally (F : Type) where
  verdictTotal : Nat
  verdictVoted : Nat
  verdictFailCount : Nat
  inspectorCount : Nat
  inspectorVoted : Nat
  inspectorAvg : Option F

/-- `latest_decision`: the votes of listed reviewers, oldest first, each over the one before. -/
def latestDecision (column : List ReviewerEntry) (votes : List Vote) : List (Text × Text) :=
  assocOfWrites ((votes.filter fun vote => (reviewers column).contains vote.reviewer).map
    fun vote => (vote.reviewer, vote.decision))

variable {F : Type}

def meanOf (scores : Scores F) (given : List (Text × F)) : Option F :=
  if given.isEmpty then none else some (scores.mean (given.map Prod.snd))

def getReviewTally (scores : Scores F) (column : List ReviewerEntry) (votes : List Vote) :
    ReviewTally F :=
  let latest := latestDecision column votes
  let inspectors := (reviewers column).filter fun name => reviewerType column name = inspectorType
  let others := (reviewers column).filter fun name => reviewerType column name ≠ inspectorType
  { verdictTotal := others.length
    verdictVoted := (others.filter fun name => (assocGet? name latest).isSome).length
    verdictFailCount :=
      (others.filter fun name => assocGet? name latest = some "fail".toList).length
    inspectorCount := inspectors.length
    inspectorVoted := (inspectors.filter fun name => (assocGet? name latest).isSome).length
    inspectorAvg := meanOf scores (assocOfWrites (inspectors.filterMap fun name =>
      ((assocGet? name latest).bind scores.parse).map fun score => (name, score))) }

/-- `pass`, `fail` or `undecided`. -/
inductive Verdict where
  | pass
  | fail
  | undecided
deriving DecidableEq

/-- `avg is None or avg < inspector_threshold`. -/
def tooLow (scores : Scores F) (threshold : F) (mean : Option F) : Bool :=
  match mean with
  | none => true
  | some mean => scores.below mean threshold

def settleReviewTally (scores : Scores F) (threshold : F) (tally : ReviewTally F) : Verdict :=
  if 0 < tally.verdictTotal ∧ tally.verdictVoted < tally.verdictTotal then .undecided
  else if 0 < tally.verdictTotal ∧ 0 < tally.verdictFailCount then .fail
  else if 0 < tally.inspectorCount ∧ tally.inspectorVoted < tally.inspectorCount then .undecided
  else if 0 < tally.inspectorCount ∧ tooLow scores threshold tally.inspectorAvg then .fail
  else .pass

def verdict (scores : Scores F) (threshold : F) (column : List ReviewerEntry)
    (votes : List Vote) : Verdict :=
  settleReviewTally scores threshold (getReviewTally scores column votes)

def listed (column : List ReviewerEntry) : List (Text × Text) :=
  column.filterMap fun entry =>
    match entry with
    | .object type id => if id = [] then none else some (id, type.getD verifierType)
    | .name id => some (id, verifierType)
    | .other => none

def latestOf (votes : List Vote) (name : Text) : Option Text :=
  ((votes.filter fun vote => vote.reviewer = name).getLast?).map Vote.decision

def Waiting (column : List ReviewerEntry) (votes : List Vote) : Prop :=
  ∃ e ∈ listed column, latestOf votes e.1 = none

/-- The latest vote of somebody who is listed to pass or fail is `fail`. -/
def Vetoed (column : List ReviewerEntry) (votes : List Vote) : Prop :=
  ∃ e ∈ listed column, e.2 ≠ inspectorType ∧ latestOf votes e.1 = some "fail".toList

def latestScores (scores : Scores F) (column : List ReviewerEntry) (votes : List Vote) :
    List (Text × F) :=
  assocOfWrites ((listed column).filterMap fun e =>
    if e.2 = inspectorType then
      ((latestOf votes e.1).bind scores.parse).map fun score => (e.1, score)
    else none)

/-- There are inspectors, and the mean of their latest scores is too low. -/
def ScoredLow (scores : Scores F) (threshold : F) (column : List ReviewerEntry)
    (votes : List Vote) : Prop :=
  (∃ e ∈ listed column, e.2 = inspectorType) ∧
    tooLow scores threshold (meanOf scores (latestScores scores column votes)) = true

def SameVotes (votes votes' : List Vote) : Prop :=
  ∀ name, (votes.filter fun vote => vote.reviewer = name) =
    votes'.filter fun vote => vote.reviewer = name

/-- The verdict waits for all, then fails by a veto or by the scores, and passes otherwise; the
order of the votes of different reviewers is no matter. -/
structure Lawful (scores : Scores F) (threshold : F) (column : List ReviewerEntry)
    (votes : List Vote) : Prop where
  undecided : verdict scores threshold column votes = .undecided ↔ Waiting column votes
  fail : verdict scores threshold column votes = .fail ↔ ¬ Waiting column votes ∧
    (Vetoed column votes ∨ ScoredLow scores threshold column votes)
  unordered : ∀ votes', SameVotes votes votes' →
    verdict scores threshold column votes' = verdict scores threshold column votes

end JiuwenSpec.Team

/-!
## The verdict of a review

The tally reads the list and the votes as they are when nobody is listed both as an inspector and
otherwise. The verdict then waits for all unless a veto of complete verdicts meets an inspector who
has not voted.
Source: `agent_teams/tools/task_manager.py`, `agent_teams/agent/scheduling/verdict.py`.
-/

namespace JiuwenSpec.Team

open Base List

variable {F : Type} {scores : Scores F} {threshold : F} {column : List ReviewerEntry}
  {votes votes' : List Vote}

theorem reviewers_eq (column : List ReviewerEntry) :
    reviewers column = (listed column).map Prod.fst := by
  rw [reviewers, listed, map_filterMap]
  refine filterMap_congr fun entry _ => ?_
  cases entry with
  | object type id =>
    by_cases hid : id = []
    · simp [hid]
    · simp [hid]
  | name id => rfl
  | other => rfl

theorem listed_of_reviewerType {name : Text} (h : name ∈ reviewers column) :
    (name, reviewerType column name) ∈ listed column := by
  have hdetails : ∀ {e}, e ∈ (reviewerDetails column).filter (fun detail => detail.1 ≠ []) →
      e ∈ listed column := by
    intro e he
    obtain ⟨hmem, hne⟩ := mem_filter.mp he
    obtain ⟨entry, hentry, he⟩ := mem_filterMap.mp hmem
    refine mem_filterMap.mpr ⟨entry, hentry, ?_⟩
    cases entry with
    | object type id =>
      cases he
      exact if_neg (of_decide_eq_true hne)
    | name id => exact he
    | other => cases he
  rw [reviewerType]
  cases htype : assocGet? name (typeMap column) with
  | some type => exact hdetails (mem_of_mem_assocOfWrites (mem_of_assocGet? htype))
  | none =>
    rw [reviewers_eq, mem_map] at h
    obtain ⟨e, he, rfl⟩ := h
    obtain ⟨entry, hentry, he⟩ := mem_filterMap.mp he
    -- Only a name of the old format may be empty.
    have hempty : ∀ type, (e.1, type) ∈ reviewerDetails column → e.1 = [] := by
      intro type hmem
      by_contra hne
      refine assocGet?_eq_none_iff.mp htype (mem_keys_foldl_assocSet (.inr ?_))
      exact mem_map.mpr ⟨_, mem_filter.mpr ⟨hmem, by simpa using hne⟩, rfl⟩
    cases entry with
    | object type id =>
      dsimp only at he
      split at he
      · cases he
      · next hid =>
        cases he
        exact absurd (hempty _ (mem_filterMap.mpr ⟨_, hentry, rfl⟩)) hid
    | name id =>
      cases he
      exact mem_filterMap.mpr ⟨_, hentry, rfl⟩
    | other => cases he

theorem mem_reviewers_of_listed {e : Text × Text} (h : e ∈ listed column) :
    e.1 ∈ reviewers column := by
  rw [reviewers_eq]
  exact mem_map_of_mem h

def OneKind (column : List ReviewerEntry) : Prop :=
  ∀ e ∈ listed column, ∀ e' ∈ listed column, e.1 = e'.1 →
    (e.2 = inspectorType ↔ e'.2 = inspectorType)

theorem reviewerType_iff (h : OneKind column) {e : Text × Text} (he : e ∈ listed column) :
    reviewerType column e.1 = inspectorType ↔ e.2 = inspectorType :=
  h _ (listed_of_reviewerType (mem_reviewers_of_listed he)) e he rfl

theorem assocGet?_latestDecision {name : Text} (h : name ∈ reviewers column) :
    assocGet? name (latestDecision column votes) = latestOf votes name := by
  rw [latestDecision, assocGet?_assocOfWrites, filter_map, filter_filter,
    List.getLast?_map, latestOf, Option.map_map]
  have hfilter : (votes.filter fun vote =>
      ((fun w : Text × Text => decide (w.1 = name)) ∘ fun vote : Vote =>
        (vote.reviewer, vote.decision)) vote && (reviewers column).contains vote.reviewer) =
      votes.filter fun vote => vote.reviewer = name := by
    refine filter_congr fun vote _ => ?_
    by_cases hname : vote.reviewer = name
    · simp [hname, h]
    · simp [hname]
  rw [hfilter]
  rfl

theorem latestOf_congr (h : SameVotes votes votes') (name : Text) :
    latestOf votes' name = latestOf votes name := by
  rw [latestOf, latestOf, h name]

def inspectors (column : List ReviewerEntry) : List Text :=
  (reviewers column).filter fun name => reviewerType column name = inspectorType

def others (column : List ReviewerEntry) : List Text :=
  (reviewers column).filter fun name => reviewerType column name ≠ inspectorType

theorem others_subset {name : Text} (h : name ∈ others column) : name ∈ reviewers column :=
  mem_of_mem_filter h

theorem inspectors_subset {name : Text} (h : name ∈ inspectors column) :
    name ∈ reviewers column := mem_of_mem_filter h

def tallyScores (scores : Scores F) (column : List ReviewerEntry) (votes : List Vote) :
    List (Text × F) :=
  assocOfWrites ((inspectors column).filterMap fun name =>
    ((latestOf votes name).bind scores.parse).map fun score => (name, score))

theorem getReviewTally_eq (scores : Scores F) (column : List ReviewerEntry) (votes : List Vote) :
    getReviewTally scores column votes =
      { verdictTotal := (others column).length
        verdictVoted := ((others column).filter fun name => (latestOf votes name).isSome).length
        verdictFailCount :=
          ((others column).filter fun name => latestOf votes name = some "fail".toList).length
        inspectorCount := (inspectors column).length
        inspectorVoted :=
          ((inspectors column).filter fun name => (latestOf votes name).isSome).length
        inspectorAvg := meanOf scores (tallyScores scores column votes) } := by
  have hscores : ((inspectors column).filterMap fun name =>
      ((assocGet? name (latestDecision column votes)).bind scores.parse).map fun score =>
        (name, score)) = (inspectors column).filterMap fun name =>
      ((latestOf votes name).bind scores.parse).map fun score => (name, score) :=
    filterMap_congr fun name hname => by
      rw [assocGet?_latestDecision (inspectors_subset hname)]
  have hvoted : ∀ {names : List Text}, (∀ name ∈ names, name ∈ reviewers column) →
      (names.filter fun name => (assocGet? name (latestDecision column votes)).isSome) =
        names.filter fun name => (latestOf votes name).isSome := fun hnames =>
    filter_congr fun name hname => by rw [assocGet?_latestDecision (hnames name hname)]
  have hfail : ((others column).filter fun name =>
      assocGet? name (latestDecision column votes) = some "fail".toList) =
        (others column).filter fun name => latestOf votes name = some "fail".toList :=
    filter_congr fun name hname => by rw [assocGet?_latestDecision (others_subset hname)]
  rw [getReviewTally, tallyScores, ← hscores, ← hvoted fun _ => others_subset, ← hfail,
    ← hvoted fun _ => inspectors_subset]
  rfl

theorem filter_isSome_lt_iff (names : List Text) (votes : List Vote) :
    (0 < names.length ∧ (names.filter fun name => (latestOf votes name).isSome).length <
      names.length) ↔ ∃ name ∈ names, latestOf votes name = none := by
  have hle := length_filter_le (fun name => (latestOf votes name).isSome) names
  rw [and_iff_right_of_imp Nat.zero_lt_of_lt, Nat.lt_iff_le_and_ne, and_iff_right hle, Ne,
    length_filter_eq_length_iff]
  simp

theorem filter_fail_pos_iff (names : List Text) (votes : List Vote) :
    (0 < names.length ∧ 0 < (names.filter fun name =>
      latestOf votes name = some "fail".toList).length) ↔
      ∃ name ∈ names, latestOf votes name = some "fail".toList := by
  have hle := length_filter_le (fun name =>
    decide (latestOf votes name = some "fail".toList)) names
  rw [and_iff_right_of_imp fun h => Nat.lt_of_lt_of_le h hle, length_filter_pos_iff]
  simp only [decide_eq_true_eq]

theorem verdict_eq (scores : Scores F) (threshold : F) (column : List ReviewerEntry)
    (votes : List Vote) : verdict scores threshold column votes =
      if ∃ name ∈ others column, latestOf votes name = none then .undecided
      else if ∃ name ∈ others column, latestOf votes name = some "fail".toList then .fail
      else if ∃ name ∈ inspectors column, latestOf votes name = none then .undecided
      else if 0 < (inspectors column).length ∧
        tooLow scores threshold (meanOf scores (tallyScores scores column votes)) then .fail
      else .pass := by
  rw [verdict, getReviewTally_eq, settleReviewTally]
  simp only [filter_isSome_lt_iff, filter_fail_pos_iff]

theorem verdict_congr (h : SameVotes votes votes') :
    verdict scores threshold column votes' = verdict scores threshold column votes := by
  have hlatest : latestOf votes' = latestOf votes := funext (latestOf_congr h)
  rw [verdict_eq, verdict_eq, tallyScores, tallyScores, hlatest]

/-- All who pass or fail have voted, one of them `fail`, and an inspector has not voted. -/
def VetoedEarly (column : List ReviewerEntry) (votes : List Vote) : Prop :=
  (∀ name ∈ others column, latestOf votes name ≠ none) ∧
    (∃ name ∈ others column, latestOf votes name = some "fail".toList) ∧
    ∃ name ∈ inspectors column, latestOf votes name = none

theorem waiting_iff : Waiting column votes ↔ (∃ name ∈ others column, latestOf votes name = none) ∨
    ∃ name ∈ inspectors column, latestOf votes name = none := by
  constructor
  · rintro ⟨e, he, hnone⟩
    have hmem := mem_reviewers_of_listed he
    by_cases htype : reviewerType column e.1 = inspectorType
    · exact .inr ⟨e.1, mem_filter.mpr ⟨hmem, decide_eq_true htype⟩, hnone⟩
    · exact .inl ⟨e.1, mem_filter.mpr ⟨hmem, decide_eq_true htype⟩, hnone⟩
  · rintro (⟨name, hname, hnone⟩ | ⟨name, hname, hnone⟩)
    · exact ⟨_, listed_of_reviewerType (others_subset hname), hnone⟩
    · exact ⟨_, listed_of_reviewerType (inspectors_subset hname), hnone⟩

theorem not_vetoedEarly (h : Lawful scores threshold column votes) :
    ¬ VetoedEarly column votes := by
  rintro ⟨hvoted, hfail, hinspector⟩
  have hwaiting : Waiting column votes := waiting_iff.mpr (.inr hinspector)
  have hundecided := h.undecided.mpr hwaiting
  rw [verdict_eq, if_neg (by push Not; exact hvoted), if_pos hfail] at hundecided
  cases hundecided

section OneKind

variable (h : OneKind column)
include h

theorem vetoed_iff : Vetoed column votes ↔
    ∃ name ∈ others column, latestOf votes name = some "fail".toList := by
  constructor
  · rintro ⟨e, he, htype, hfail⟩
    exact ⟨e.1, mem_filter.mpr ⟨mem_reviewers_of_listed he,
      decide_eq_true (mt (reviewerType_iff h he).mp htype)⟩, hfail⟩
  · rintro ⟨name, hname, hfail⟩
    exact ⟨_, listed_of_reviewerType (others_subset hname),
      of_decide_eq_true (mem_filter.mp hname).2, hfail⟩

theorem exists_inspector_iff :
    (∃ e ∈ listed column, e.2 = inspectorType) ↔ 0 < (inspectors column).length := by
  rw [length_pos_iff_exists_mem]
  constructor
  · rintro ⟨e, he, htype⟩
    exact ⟨e.1, mem_filter.mpr ⟨mem_reviewers_of_listed he,
      decide_eq_true ((reviewerType_iff h he).mpr htype)⟩⟩
  · rintro ⟨name, hname⟩
    exact ⟨_, listed_of_reviewerType (inspectors_subset hname),
      of_decide_eq_true (mem_filter.mp hname).2⟩

theorem latestScores_eq :
    latestScores scores column votes = tallyScores scores column votes := by
  rw [latestScores, tallyScores, inspectors, reviewers_eq, filterMap_filter,
    filterMap_map]
  congr 1
  refine filterMap_congr fun e he => ?_
  have htype := reviewerType_iff h he
  by_cases hinspector : e.2 = inspectorType
  · simp [hinspector, htype.mpr hinspector]
  · simp [hinspector, mt htype.mp hinspector]

theorem scoredLow_iff : ScoredLow scores threshold column votes ↔
    0 < (inspectors column).length ∧
      tooLow scores threshold (meanOf scores (tallyScores scores column votes)) = true := by
  rw [ScoredLow, exists_inspector_iff h, latestScores_eq h]

theorem lawful_of_not_early (hearly : ¬ VetoedEarly column votes) :
    Lawful scores threshold column votes := by
  have hcases := verdict_eq scores threshold column votes
  refine ⟨?_, ?_, fun votes' => verdict_congr⟩
  · rw [hcases, waiting_iff]
    split
    · next hother => simp [hother]
    · next hother =>
      split
      · next hfail =>
        have hvoted : ¬ ∃ name ∈ inspectors column, latestOf votes name = none :=
          fun hinspector => hearly ⟨by push Not at hother; exact hother, hfail, hinspector⟩
        simp [hother, hvoted]
      · split
        · next hinspector => simp [hinspector]
        · next hinspector => split <;> simp [hother, hinspector]
  · rw [hcases, waiting_iff, vetoed_iff h, scoredLow_iff h]
    split
    · next hother => simp [hother]
    · next hother =>
      split
      · next hfail =>
        have hvoted : ¬ ∃ name ∈ inspectors column, latestOf votes name = none :=
          fun hinspector => hearly ⟨by push Not at hother; exact hother, hfail, hinspector⟩
        exact iff_of_true rfl ⟨not_or.mpr ⟨hother, hvoted⟩, .inl hfail⟩
      · next hfail =>
        split
        · next hinspector => simp [hinspector]
        · next hinspector =>
          split
          · next hlow => simp [hother, hinspector, hlow]
          · next hlow => exact iff_of_false (fun h => by cases h) fun h => h.2.elim hfail hlow

end OneKind

/-- The verdict is lawful only without an early veto, and is lawful then when nobody is listed both
as an inspector and otherwise. -/
theorem lawful_of_review (scores : Scores F) (threshold : F) (column : List ReviewerEntry)
    (votes : List Vote) :
    (Lawful scores threshold column votes → ¬ VetoedEarly column votes) ∧
      (OneKind column ∧ ¬ VetoedEarly column votes → Lawful scores threshold column votes) :=
  ⟨not_vetoedEarly, fun h => lawful_of_not_early h.1 h.2⟩

def wholeScores : Scores Nat where
  parse text := if text = ['1'] then some 1 else none
  mean given := given.foldl (· + ·) 0 / given.length
  below a b := a < b

/-- A verifier fails the task before the inspector votes, and the verdict is `fail`. -/
theorem early_veto_fails : ¬ Lawful wholeScores 1
    [.name ['v'], .object (some inspectorType) ['i']] [⟨['v'], "fail".toList⟩] := by
  intro h
  have hundecided := h.undecided.mpr ⟨(['i'], inspectorType), by decide, by decide⟩
  revert hundecided
  decide

end JiuwenSpec.Team

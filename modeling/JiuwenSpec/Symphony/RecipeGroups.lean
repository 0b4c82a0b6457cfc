import JiuwenSpec.Base.Dict
import JiuwenSpec.Symphony.RecipeStructure

/-!
# Attribution of traces to recipes

Edge statistics over all evidence select the qualified edges; each trace is grouped by those of
them that it walked successfully, under a hash of these edges written out in order. The pack of
a group is the structure of its first trace, so the attribution is strict exactly when no two
different structures are written alike.
Source: `symphony/flow/distill.py`, `symphony/flow/store.py`.
-/

namespace JiuwenSpec.Symphony.Flow

open Base List

/-- An observed edge: its ends, its relation and `metadata.success`. -/
structure EvidenceEdge where
  source : String
  target : String
  relation : String
  success : Bool

/-- `RecipeEvidence`: a trace, its outcome and the edges of its execution graph. -/
structure RecipeEvidence where
  traceId : String
  outcome : String
  edges : List EvidenceEdge

def outcomeSuccess : String := "success"

/-- `CAN_FEED`, the relation of an edge that names none. -/
def canFeed : String := "can_feed"

/-- `_edge_key`. -/
def EvidenceEdge.key (e : EvidenceEdge) : RecipeEdge where
  source := e.source
  target := e.target
  relation := if e.relation = "" then canFeed else e.relation

/-- `append_evidence`: a trace id that is stored already changes nothing. -/
def appendEvidence (stored : List RecipeEvidence) (evidence : RecipeEvidence) :
    List RecipeEvidence × Bool :=
  if stored.any (fun item => item.traceId = evidence.traceId) then (stored, false)
  else (stored ++ [evidence], true)

def observe (stats : Dict RecipeEdge EdgeStats) (e : EvidenceEdge) : Dict RecipeEdge EdgeStats :=
  let seen := (stats.get? e.key).getD {}
  stats.set e.key
    { support := seen.support + 1
      success := if e.success then seen.success + 1 else seen.success }

def aggregateEdges (records : List RecipeEvidence) : Dict RecipeEdge EdgeStats :=
  (records.flatMap (·.edges)).foldl observe Dict.empty

/-- What makes an edge qualify: a least support, and the comparison of its success rate with
the threshold, for which the pair of counts decides. -/
structure Thresholds where
  minEdgeSupport : Nat
  rateSuffices : Nat → Nat → Bool

/-- `qualified_edges`: the edges that qualify, with their cycles broken. -/
def qualifiedEdges (thresholds : Thresholds) (records : List RecipeEvidence) :
    Option (List RecipeEdge) :=
  let stats := aggregateEdges records
  breakCycles
    ((stats.entries.filter (fun e => thresholds.minEdgeSupport ≤ e.2.support ∧
      thresholds.rateSuffices e.2.success e.2.support = true)).map Prod.fst)
    (fun e => (stats.get? e).getD {})

def RecipeEvidence.Walked (record : RecipeEvidence) (edge : RecipeEdge) : Prop :=
  ∃ e ∈ record.edges, e.key = edge ∧ e.success = true

instance (record : RecipeEvidence) (edge : RecipeEdge) : Decidable (record.Walked edge) :=
  inferInstanceAs (Decidable (∃ e ∈ record.edges, _))

/-- The qualified edges that a trace walked successfully, sorted. -/
def keyEdges (qualified : List RecipeEdge) (record : RecipeEvidence) : List RecipeEdge :=
  sortEdges ((qualified.filter (fun e => decide (record.Walked e))).dedup)

/-- `f"{source}>{target}:{relation}"`. -/
def RecipeEdge.text (e : RecipeEdge) : String := e.source ++ ">" ++ e.target ++ ":" ++ e.relation

/-- `"|".join(...)`. -/
def barJoin : List String → String
  | [] => ""
  | [x] => x
  | x :: y :: rest => x ++ "|" ++ barJoin (y :: rest)

def serialize (edges : List RecipeEdge) : String := barJoin (edges.map RecipeEdge.text)

/-- `StructureGroup`, stored under its signature. -/
structure StructureGroup where
  edges : List RecipeEdge
  records : List RecipeEvidence

section Grouping

variable (digest : String → String)

/-- `structure_signature`, over the hash. -/
def structureSignature (edges : List RecipeEdge) : String := digest (serialize (sortEdges edges))

/-- One record: appended to the group of its signature, which it opens if there is none. -/
def groupRecord (qualified : List RecipeEdge) (groups : Dict String StructureGroup)
    (record : RecipeEvidence) : Dict String StructureGroup :=
  let key := keyEdges qualified record
  if key = [] then groups
  else
    let signature := structureSignature digest key
    let group := (groups.get? signature).getD ⟨key, []⟩
    groups.set signature { group with records := group.records ++ [record] }

def groupByStructure (records : List RecipeEvidence) (qualified : List RecipeEdge) :
    Dict String StructureGroup :=
  records.foldl (groupRecord digest qualified) Dict.empty

def structureGroups (thresholds : Thresholds) (records : List RecipeEvidence) :
    Option (Dict String StructureGroup) :=
  (qualifiedEdges thresholds records).map (groupByStructure digest records)

/-- `f"recipe_{group.signature}"`. -/
def recipeId (signature : String) : String := "recipe_" ++ signature

/-- The counts of `compute_quality`: executions, successes and failures. -/
def StructureGroup.counts (group : StructureGroup) : Nat × Nat × Nat :=
  let executionCount := group.records.length
  let successCount := (group.records.filter (fun r => r.outcome = outcomeSuccess)).length
  (executionCount, successCount, executionCount - successCount)

/-- Attribution is strict: each trace enters one group at most, the traces of a group walked
every edge of its pack, groups with different edges have different recipe ids, and neither a
repeated trace nor another order of the traces changes a group's edges or counts. -/
structure StrictlyAttributed (thresholds : Thresholds) (records : List RecipeEvidence)
    (groups : Dict String StructureGroup) : Prop where
  one_group : ∀ s s' g g', groups.get? s = some g → groups.get? s' = some g' →
    ∀ r ∈ g.records, r ∈ g'.records → s = s'
  walked : ∀ s g, groups.get? s = some g → ∀ r ∈ g.records, ∀ e ∈ g.edges, r.Walked e
  ids : ∀ s s' g g', groups.get? s = some g → groups.get? s' = some g' → g.edges ≠ g'.edges →
    recipeId s ≠ recipeId s'
  again : ∀ r r', r ∈ records → r'.traceId = r.traceId →
    structureGroups digest thresholds (appendEvidence records r').1 = some groups
  reordered : ∀ records', records.Perm records' →
    ∃ groups', structureGroups digest thresholds records' = some groups' ∧
      ∀ s, (groups'.get? s).map (fun g => (g.edges, g.counts)) =
        (groups.get? s).map (fun g => (g.edges, g.counts))

/-- No two traces with different structures have them written alike. -/
def WritesApart (qualified : List RecipeEdge) (records : List RecipeEvidence) : Prop :=
  ∀ r ∈ records, ∀ r' ∈ records, keyEdges qualified r ≠ [] → keyEdges qualified r' ≠ [] →
    serialize (keyEdges qualified r) = serialize (keyEdges qualified r') →
      keyEdges qualified r = keyEdges qualified r'

end Grouping

private theorem toLex_edge_injective {a b : RecipeEdge}
    (h : toLex (a.source, toLex (a.target, a.relation)) =
      toLex (b.source, toLex (b.target, b.relation))) : a = b := by
  obtain ⟨hs, h₂⟩ := Prod.mk.inj (toLex.injective h)
  obtain ⟨ht, hr⟩ := Prod.mk.inj (toLex.injective h₂)
  cases a
  cases b
  exact RecipeEdge.mk.injEq .. ▸ ⟨hs, ht, hr⟩

theorem sortEdges_perm (edges : List RecipeEdge) : (sortEdges edges).Perm edges :=
  perm_insertionSort _ _

theorem sortEdges_eq_of_perm {edges edges' : List RecipeEdge} (h : edges.Perm edges') :
    sortEdges edges = sortEdges edges' := by
  apply (((sortEdges_perm edges).trans h).trans (sortEdges_perm edges').symm).eq_of_pairwise
  · exact fun a b _ _ hab hba => toLex_edge_injective (le_antisymm hab hba)
  · exact pairwise_insertionSort _ _
  · exact pairwise_insertionSort _ _

theorem mem_keyEdges {qualified : List RecipeEdge} {record : RecipeEvidence} {e : RecipeEdge} :
    e ∈ keyEdges qualified record ↔ e ∈ qualified ∧ record.Walked e := by
  rw [keyEdges, (sortEdges_perm _).mem_iff, mem_dedup, mem_filter, decide_eq_true_eq]

theorem keyEdges_nodup (qualified : List RecipeEdge) (record : RecipeEvidence) :
    (keyEdges qualified record).Nodup :=
  (sortEdges_perm _).nodup_iff.mpr (nodup_dedup _)

variable {r : RecipeEvidence}

theorem keyEdges_ext {q q' : List RecipeEdge} {r' : RecipeEvidence}
    (h : ∀ e, e ∈ keyEdges q r ↔ e ∈ keyEdges q' r') : keyEdges q r = keyEdges q' r' := by
  have hperm := (perm_ext_iff_of_nodup (keyEdges_nodup q r) (keyEdges_nodup q' r')).mpr h
  apply sortEdges_eq_of_perm
  exact ((sortEdges_perm _).symm.trans hperm).trans (sortEdges_perm _)

theorem sortEdges_keyEdges (qualified : List RecipeEdge) (record : RecipeEvidence) :
    sortEdges (keyEdges qualified record) = keyEdges qualified record := by
  rw [keyEdges]
  exact sortEdges_eq_of_perm (sortEdges_perm _)

private theorem length_barJoin (x : String) (xs : List String) :
    (barJoin (x :: xs)).length + 1 = ((x :: xs).map (fun y => y.length + 1)).sum := by
  induction xs generalizing x with
  | nil => simp [barJoin]
  | cons y ys ih =>
    have hbar : "|".length = 1 := rfl
    rw [barJoin, String.length_append, String.length_append, map_cons, sum_cons, ← ih y,
      hbar]
    omega

theorem serialize_subset {edges edges' : List RecipeEdge} (hne : edges ≠ []) (hne' : edges' ≠ [])
    (hnd : edges.Nodup) (hsub : ∀ e ∈ edges, e ∈ edges') (h : serialize edges = serialize edges') :
    edges.Perm edges' := by
  have hlen : ∀ {l : List RecipeEdge}, l ≠ [] →
      (serialize l).length + 1 = (l.map (fun e => e.text.length + 1)).sum := by
    intro l hl
    obtain ⟨e, rest, rfl⟩ := exists_cons_of_ne_nil hl
    rw [serialize, map_cons, length_barJoin, ← map_cons, map_map]
    rfl
  obtain ⟨part, hpart, hsublist⟩ := hnd.subperm hsub
  obtain ⟨rest, hrest⟩ := hsublist.exists_perm_append
  have hall : edges'.Perm (edges ++ rest) := hrest.trans (hpart.append_right rest)
  have hsum : (edges.map (fun e => e.text.length + 1)).sum =
      (edges.map (fun e ↦ e.text.length + 1)).sum + (rest.map (fun e ↦ e.text.length + 1)).sum := by
    rw [← sum_append, ← map_append, ← (hall.map _).sum_eq, ← hlen hne, ← hlen hne', h]
  have hnil : rest = [] := by
    cases rest with
    | nil => rfl
    | cons e rest =>
      rw [map_cons, sum_cons] at hsum
      omega
  rw [hnil, append_nil] at hall
  exact hall.symm

theorem get?_observed (observed : List EvidenceEdge) (stats : Dict RecipeEdge EdgeStats)
    (k : RecipeEdge) :
    (observed.foldl observe stats).get? k =
      if observed.filter (·.key = k) = [] then stats.get? k
      else some
        { support := ((stats.get? k).getD {}).support + (observed.filter (·.key = k)).length
          success := ((stats.get? k).getD {}).success +
            (observed.filter (fun e => e.key = k ∧ e.success = true)).length } := by
  induction observed generalizing stats with
  | nil => simp
  | cons e observed ih =>
    rw [foldl_cons, ih, observe, Dict.get?_set]
    by_cases hk : e.key = k
    · subst hk
      simp only [if_true, filter_cons, decide_true, Option.getD_some, true_and]
      by_cases hnil : observed.filter (·.key = e.key) = []
      · have hnone : ∀ d ∈ observed, d.key = e.key → d.success = false := by
          intro d hd hkey
          exact absurd (decide_eq_true hkey) (filter_eq_nil_iff.mp hnil d hd)
        cases hs : e.success
        · simpa [hnil] using hnone
        · simpa [hnil] using hnone
      · cases hs : e.success
        · simp [hnil]
          omega
        · simp [hnil]
          omega
    · have hk' : k ≠ e.key := Ne.symm hk
      simp [hk, hk']

variable {records : List RecipeEvidence}

theorem get?_aggregateEdges_perm {records' : List RecipeEvidence}
    (h : records.Perm records') (k : RecipeEdge) :
    (aggregateEdges records).get? k = (aggregateEdges records').get? k := by
  have hflat : (records.flatMap (·.edges)).Perm (records'.flatMap (·.edges)) := h.flatMap_right _
  have hnil : (records.flatMap (·.edges)).filter (·.key = k) = [] ↔
      (records'.flatMap (·.edges)).filter (·.key = k) = [] := by
    rw [← length_eq_zero_iff, ← length_eq_zero_iff, (hflat.filter _).length_eq]
  rw [aggregateEdges, aggregateEdges, get?_observed, get?_observed]
  simp only [hnil, (hflat.filter _).length_eq]

theorem qualifiedEdges_perm (thresholds : Thresholds) {records' : List RecipeEvidence}
    (h : records.Perm records') :
    ∃ qualified qualified', qualifiedEdges thresholds records = some qualified ∧
      qualifiedEdges thresholds records' = some qualified' ∧ qualified'.Perm qualified := by
  have hget := get?_aggregateEdges_perm h
  have hnodup : ∀ rs : List RecipeEvidence, (((aggregateEdges rs).entries.filter (fun e =>
      thresholds.minEdgeSupport ≤ e.2.support ∧
        thresholds.rateSuffices e.2.success e.2.support = true)).map Prod.fst).Nodup :=
    fun rs => (aggregateEdges rs).nodup.sublist (filter_sublist.map Prod.fst)
  have hperm : (((aggregateEdges records).entries.filter (fun e =>
      thresholds.minEdgeSupport ≤ e.2.support ∧
        thresholds.rateSuffices e.2.success e.2.support = true)).map Prod.fst).Perm
      (((aggregateEdges records').entries.filter (fun e =>
      thresholds.minEdgeSupport ≤ e.2.support ∧
        thresholds.rateSuffices e.2.success e.2.support = true)).map Prod.fst) := by
    refine (perm_ext_iff_of_nodup (hnodup records) (hnodup records')).mpr fun k => ?_
    have hmem : ∀ rs : List RecipeEvidence, k ∈ ((aggregateEdges rs).entries.filter (fun e =>
        thresholds.minEdgeSupport ≤ e.2.support ∧
          thresholds.rateSuffices e.2.success e.2.support = true)).map Prod.fst ↔
        ∃ st, (aggregateEdges rs).get? k = some st ∧ thresholds.minEdgeSupport ≤ st.support ∧
          thresholds.rateSuffices st.success st.support = true := by
      intro rs
      constructor
      · intro hk
        obtain ⟨⟨k', st⟩, he, rfl⟩ := mem_map.mp hk
        obtain ⟨hentry, hq⟩ := mem_filter.mp he
        exact ⟨st, Dict.get?_eq_some_iff.mpr hentry, of_decide_eq_true hq⟩
      · rintro ⟨st, hst, hq⟩
        exact mem_map.mpr ⟨(k, st),
          mem_filter.mpr ⟨Dict.get?_eq_some_iff.mp hst, decide_eq_true hq⟩, rfl⟩
    rw [hmem, hmem, hget]
  have hstats : (fun e => ((aggregateEdges records).get? e).getD {}) =
      fun e => ((aggregateEdges records').get? e).getD {} := by
    funext e
    rw [hget]
  obtain ⟨qualified, hrun, _⟩ := breakLoop_spec
    (fun e => ((aggregateEdges records).get? e).getD {}) (Nat.le_refl _)
  obtain ⟨qualified', hrun', hq⟩ := breakLoop_perm _ hperm (Nat.le_refl _) hrun
  refine ⟨qualified, qualified', hrun, ?_, hq⟩
  rw [qualifiedEdges, breakCycles, ← hstats, ← hperm.length_eq, hrun']

theorem appendEvidence_again {r' : RecipeEvidence}
    (hr : r ∈ records) (h : r'.traceId = r.traceId) : (appendEvidence records r').1 = records := by
  have hany : records.any (fun item => item.traceId = r'.traceId) = true :=
    any_eq_true.mpr ⟨r, hr, decide_eq_true h.symm⟩
  rw [appendEvidence, if_pos hany]

section Groups

variable {digest : String → String} {qualified : List RecipeEdge}

def membersOf (digest : String → String) (qualified : List RecipeEdge)
    (records : List RecipeEvidence) (signature : String) : List RecipeEvidence :=
  records.filter (fun r => keyEdges qualified r ≠ [] ∧
    structureSignature digest (keyEdges qualified r) = signature)

/-- The group of the given traces, structured as the first of them. -/
def groupOf (qualified : List RecipeEdge) : List RecipeEvidence → Option StructureGroup
  | [] => none
  | r :: rest => some ⟨keyEdges qualified r, r :: rest⟩

theorem get?_groupRecords (records : List RecipeEvidence) (groups : Dict String StructureGroup)
    (s : String) :
    (records.foldl (groupRecord digest qualified) groups).get? s =
      match groups.get? s with
      | some g => some ⟨g.edges, g.records ++ membersOf digest qualified records s⟩
      | none => groupOf qualified (membersOf digest qualified records s) := by
  induction records generalizing groups with
  | nil =>
    rw [foldl_nil]
    cases groups.get? s with
    | none => rfl
    | some g => simp [membersOf]
  | cons r records ih =>
    rw [foldl_cons, ih, groupRecord]
    by_cases hkey : keyEdges qualified r = []
    · have hskip : membersOf digest qualified (r :: records) s =
          membersOf digest qualified records s := by
        rw [membersOf, filter_cons_of_neg (by simp [hkey])]
        rfl
      simp only [hkey, if_true, hskip]
    · simp only [hkey, if_false]
      rw [Dict.get?_set]
      by_cases hs : s = structureSignature digest (keyEdges qualified r)
      · subst hs
        have htake : membersOf digest qualified (r :: records)
            (structureSignature digest (keyEdges qualified r)) =
            r :: membersOf digest qualified records
              (structureSignature digest (keyEdges qualified r)) := by
          rw [membersOf, filter_cons_of_pos (by simp [hkey])]
          rfl
        rw [htake]
        cases groups.get? (structureSignature digest (keyEdges qualified r)) with
        | none => simp [groupOf]
        | some g => simp
      · have hskip : membersOf digest qualified (r :: records) s =
            membersOf digest qualified records s := by
          rw [membersOf, filter_cons_of_neg (by simp [Ne.symm hs])]
          rfl
        simp only [hs, if_false, hskip]

theorem get?_groupByStructure (records : List RecipeEvidence) (s : String) :
    (groupByStructure digest records qualified).get? s =
      groupOf qualified (membersOf digest qualified records s) := by
  rw [groupByStructure, get?_groupRecords]
  rfl

theorem mem_membersOf {s : String} :
    r ∈ membersOf digest qualified records s ↔ r ∈ records ∧ keyEdges qualified r ≠ [] ∧
      structureSignature digest (keyEdges qualified r) = s := by
  rw [membersOf, mem_filter, decide_eq_true_eq]

theorem groupOf_eq_some {members : List RecipeEvidence} {g : StructureGroup}
    (h : groupOf qualified members = some g) :
    g.records = members ∧ ∃ r ∈ members, g.edges = keyEdges qualified r := by
  cases members with
  | nil => cases h
  | cons r rest =>
    cases h
    exact ⟨rfl, r, .head _, rfl⟩

theorem serialize_eq_of_signature (hdigest : Function.Injective digest) {r' : RecipeEvidence}
    (h : structureSignature digest (keyEdges qualified r) =
      structureSignature digest (keyEdges qualified r')) :
    serialize (keyEdges qualified r) = serialize (keyEdges qualified r') := by
  have h' := hdigest h
  rwa [sortEdges_keyEdges, sortEdges_keyEdges] at h'

theorem keyEdges_of_walked (hdigest : Function.Injective digest)
    (hwalked : ∀ s g, (groupByStructure digest records qualified).get? s = some g →
      ∀ r ∈ g.records, ∀ e ∈ g.edges, r.Walked e) {q : RecipeEvidence} (hq : q ∈ records)
    (hqne : keyEdges qualified q ≠ [])
    (hqr : serialize (keyEdges qualified q) = serialize (keyEdges qualified r)) :
    ∃ d : RecipeEvidence, keyEdges qualified q = keyEdges qualified d ∧
      groupOf qualified (membersOf digest qualified records
        (structureSignature digest (keyEdges qualified r))) =
        some ⟨keyEdges qualified d, membersOf digest qualified records
          (structureSignature digest (keyEdges qualified r))⟩ := by
  have hsig : structureSignature digest (keyEdges qualified q) =
      structureSignature digest (keyEdges qualified r) := by
    rw [structureSignature, structureSignature, sortEdges_keyEdges, sortEdges_keyEdges, hqr]
  have hmem : q ∈ membersOf digest qualified records
      (structureSignature digest (keyEdges qualified r)) := mem_membersOf.mpr ⟨hq, hqne, hsig⟩
  cases hmembers : membersOf digest qualified records
      (structureSignature digest (keyEdges qualified r)) with
  | nil =>
    rw [hmembers] at hmem
    cases hmem
  | cons d rest =>
    have hd : d ∈ membersOf digest qualified records
        (structureSignature digest (keyEdges qualified r)) := by
      rw [hmembers]
      exact .head _
    obtain ⟨_, hdne, hdsig⟩ := mem_membersOf.mp hd
    refine ⟨d, ?_, rfl⟩
    have hsub : ∀ e ∈ keyEdges qualified d, e ∈ keyEdges qualified q := by
      intro e he
      refine mem_keyEdges.mpr ⟨(mem_keyEdges.mp he).1, ?_⟩
      apply hwalked _ ⟨keyEdges qualified d, d :: rest⟩ _ q _ e he
      · exact structureSignature digest (keyEdges qualified r)
      · rw [get?_groupByStructure, hmembers]
        rfl
      · rw [← hmembers]
        exact hmem
    have hwritten : serialize (keyEdges qualified d) = serialize (keyEdges qualified q) :=
      serialize_eq_of_signature hdigest (hdsig.trans hsig.symm)
    have hperm := serialize_subset hdne hqne (keyEdges_nodup qualified d) hsub hwritten
    exact keyEdges_ext fun e => hperm.symm.mem_iff

theorem walked_iff_writesApart (hdigest : Function.Injective digest)
    (records : List RecipeEvidence) :
    (∀ s g, (groupByStructure digest records qualified).get? s = some g →
      ∀ r ∈ g.records, ∀ e ∈ g.edges, r.Walked e) ↔ WritesApart qualified records := by
  constructor
  · intro hwalked r hr r' hr' hne hne' heq
    -- both are in the group of their signature, and so both have walked its edges
    obtain ⟨d, hrd, hgd⟩ := keyEdges_of_walked hdigest hwalked hr hne rfl
    obtain ⟨d', hrd', hgd'⟩ := keyEdges_of_walked hdigest hwalked hr' hne' heq.symm
    rw [hgd] at hgd'
    have hedges := congrArg StructureGroup.edges (Option.some.inj hgd')
    exact hrd.trans (hedges.trans hrd'.symm)
  · intro hapart s g hg r hr e he
    rw [get?_groupByStructure] at hg
    obtain ⟨hrecords, d, hd, hedges⟩ := groupOf_eq_some hg
    rw [hrecords] at hr
    obtain ⟨hrrec, hrne, hrsig⟩ := mem_membersOf.mp hr
    obtain ⟨hdrec, hdne, hdsig⟩ := mem_membersOf.mp hd
    have hsame := hapart d hdrec r hrrec hdne hrne
      (serialize_eq_of_signature hdigest (hdsig.trans hrsig.symm))
    rw [hedges, hsame] at he
    exact (mem_keyEdges.mp he).2

theorem groups_perm (hdigest : Function.Injective digest) {qualified' : List RecipeEdge}
    {records' : List RecipeEvidence} (hapart : WritesApart qualified records)
    (hq : qualified'.Perm qualified) (hr : records.Perm records') (s : String) :
    ((groupByStructure digest records' qualified').get? s).map (fun g => (g.edges, g.counts)) =
      ((groupByStructure digest records qualified).get? s).map (fun g => (g.edges, g.counts)) := by
  have hkey : ∀ r, keyEdges qualified' r = keyEdges qualified r := by
    intro r
    refine keyEdges_ext fun e => ?_
    rw [mem_keyEdges, mem_keyEdges, hq.mem_iff]
  have hmembers : (membersOf digest qualified' records' s).Perm
      (membersOf digest qualified records s) := by
    have hfun : membersOf digest qualified' records' s = membersOf digest qualified records' s := by
      simp only [membersOf, hkey]
    rw [hfun]
    exact (hr.filter _).symm
  rw [get?_groupByStructure, get?_groupByStructure]
  cases hm : membersOf digest qualified records s with
  | nil =>
    rw [hm] at hmembers
    rw [hmembers.eq_nil]
    rfl
  | cons d rest =>
    rw [hm] at hmembers
    cases hm' : membersOf digest qualified' records' s with
    | nil =>
      rw [hm'] at hmembers
      exact absurd hmembers.symm.eq_nil (by simp)
    | cons d' rest' =>
      rw [hm'] at hmembers
      have hd : d ∈ membersOf digest qualified records s := by
        rw [hm]
        exact .head _
      have hd' : d' ∈ membersOf digest qualified records s := by
        rw [hm]
        exact hmembers.subset (.head _)
      obtain ⟨hdrec, hdne, hdsig⟩ := mem_membersOf.mp hd
      obtain ⟨hdrec', hdne', hdsig'⟩ := mem_membersOf.mp hd'
      have hsame := hapart d' hdrec' d hdrec hdne' hdne
        (serialize_eq_of_signature hdigest (hdsig'.trans hdsig.symm))
      simp only [groupOf, Option.map_some, hkey, hsame, StructureGroup.counts,
        hmembers.length_eq, (hmembers.filter _).length_eq]

end Groups

/-- Attribution is strict exactly when no two traces with different structures have them
written alike. -/
theorem recipe_attribution_strict_iff {digest : String → String}
    (hdigest : Function.Injective digest) (thresholds : Thresholds)
    (records : List RecipeEvidence) :
    ∃ qualified groups, qualifiedEdges thresholds records = some qualified ∧
      structureGroups digest thresholds records = some groups ∧
      (StrictlyAttributed digest thresholds records groups ↔ WritesApart qualified records) := by
  obtain ⟨qualified, _, hqualified, _⟩ := qualifiedEdges_perm thresholds (List.Perm.refl records)
  have hgroups : structureGroups digest thresholds records =
      some (groupByStructure digest records qualified) := by
    rw [structureGroups, hqualified, Option.map_some]
  refine ⟨qualified, groupByStructure digest records qualified, hqualified, hgroups, ?_⟩
  rw [← walked_iff_writesApart hdigest]
  refine ⟨fun h => h.walked, fun hwalked => ⟨?_, hwalked, ?_, ?_, ?_⟩⟩
  · intro s s' g g' hg hg' r hr hr'
    rw [get?_groupByStructure] at hg hg'
    rw [(groupOf_eq_some hg).1, mem_membersOf] at hr
    rw [(groupOf_eq_some hg').1, mem_membersOf] at hr'
    exact hr.2.2.symm.trans hr'.2.2
  · intro s s' g g' hg hg' hne heq
    have hs : s = s' := String.append_right_inj _ |>.mp heq
    subst hs
    rw [hg] at hg'
    cases hg'
    exact hne rfl
  · intro r r' hr htrace
    rw [appendEvidence_again hr htrace, hgroups]
  · intro records' hperm
    obtain ⟨q, q', hq, hq', hqperm⟩ := qualifiedEdges_perm thresholds hperm
    rw [hqualified] at hq
    cases hq
    refine ⟨groupByStructure digest records' q', ?_, fun s => ?_⟩
    · rw [structureGroups, hq', Option.map_some]
    · exact groups_perm hdigest ((walked_iff_writesApart hdigest records).mp hwalked) hqperm hperm s

def anyEdge : Thresholds := ⟨1, fun _ _ => true⟩

/-- A hash that agrees with the real one on the one structure it is used for here. -/
def oneEdgeDigest : String → String := Equiv.swap "a>b:can_feed" "e5c4b199942d"

def oneTrace : List RecipeEvidence := [⟨"t", "success", [⟨"a", "b", "can_feed", true⟩]⟩]

theorem recipe_attribution_strict_one :
    ∃ groups, structureGroups oneEdgeDigest anyEdge oneTrace = some groups ∧
      StrictlyAttributed oneEdgeDigest anyEdge oneTrace groups := by
  obtain ⟨qualified, groups, _, hgroups, hiff⟩ := recipe_attribution_strict_iff
    (Equiv.swap "a>b:can_feed" "e5c4b199942d").injective anyEdge oneTrace
  refine ⟨groups, hgroups, hiff.mpr fun r hr r' hr' _ _ _ => ?_⟩
  rw [mem_singleton.mp hr, mem_singleton.mp hr']

/-- Two traces over one edge each; both edges are written `a>b:c:d`. -/
def colonTraces : List RecipeEvidence :=
  [⟨"t1", "success", [⟨"a", "b:c", "d", true⟩]⟩, ⟨"t2", "success", [⟨"a", "b", "c:d", true⟩]⟩]

/-- They enter one group, and the second trace did not walk its edge. -/
theorem colonTraces_merged :
    ∃ groups, structureGroups id anyEdge colonTraces = some groups ∧
      ¬ StrictlyAttributed id anyEdge colonTraces groups := by
  have hq : qualifiedEdges anyEdge colonTraces =
      some [⟨"a", "b:c", "d"⟩, ⟨"a", "b", "c:d"⟩] := by decide
  refine ⟨groupByStructure id colonTraces [⟨"a", "b:c", "d"⟩, ⟨"a", "b", "c:d"⟩], ?_, fun h => ?_⟩
  · rw [structureGroups, hq, Option.map_some]
  · have hapart := (walked_iff_writesApart Function.injective_id colonTraces).mp h.walked
    have hsame := hapart _ (.head _) _ (.tail _ (.head _))
      (by decide) (by decide) (by decide)
    exact absurd hsame (by decide)

end JiuwenSpec.Symphony.Flow

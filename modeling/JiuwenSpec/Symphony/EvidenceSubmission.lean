import JiuwenSpec.Symphony.OverlayReplay

/-!
# Submitting evidence

The observation service normalizes an input against the static graph that the input names, or
against the current one when it does not know that graph, and appends the result to the evidence
log. A row with the same identifier is taken for the same evidence if the normalized payloads
agree. The payload of a row stands for its digest, and a static artifact for the index that is
built from it.
Source: `symphony/observation/service.py`, `store.py`, `identity.py`, `contracts.py` and
`symphony/orchestration/artifacts.py`.
-/

namespace JiuwenSpec.Symphony

open Base List

inductive TaskOutcomeLabel where
  | verifiedSuccess
  | verifiedFailure
  | partialOutcome
  | cancelled
  | unknown
deriving DecidableEq

inductive EvidenceStrength where
  | strong
  | weak
  | none
deriving DecidableEq

inductive FailureDomain where
  | orchestration
  | skillInput
  | skillLogic
  | permission
  | network
  | externalService
  | timeout
  | cancelled
  | unknown
deriving DecidableEq

structure GraphSnapshotRef where
  staticRevision : Text
  observationRevision : Text
  mergedRevision : Option Text

/-- `EvolutionGraphEdge` with its metadata. -/
structure EvolutionGraphEdge where
  sourceId : Text
  targetId : Text
  relationType : Text
  success : Option Bool
  failureDomain : Option FailureDomain

/-- `TraceEvidence`. The service reads the identifiers through `_private_hash` alone, so their
hashes are kept. -/
structure TraceEvidence where
  trajectoryIdHash : Text
  sessionIdHash : Text
  requestIdHash : Option Text
  captureMode : Text
  truncated : Bool
  qualityFlags : List Text
  spanRefs : List Text
  memberTrajectoryRefs : List Text

structure TaskOutcome where
  label : TaskOutcomeLabel
  evidenceStrength : EvidenceStrength
  failureDomain : Option FailureDomain
  domain_known : label = .verifiedFailure → failureDomain ≠ none
deriving DecidableEq

/-- `GraphEvolutionInput`, with the nodes and edges of its execution graph. -/
structure GraphEvolutionInput where
  evidenceId : Text
  graphScopeId : Text
  observedAt : Text
  graphSnapshot : GraphSnapshotRef
  trace : TraceEvidence
  taskClusterId : Option Text
  outcome : TaskOutcome
  nodes : List Text
  edges : List EvolutionGraphEdge
  edges_known : ∀ e ∈ edges, e.sourceId ∈ nodes ∧ e.targetId ∈ nodes

/-- `str.removeprefix`. -/
def removePrefix (head value : Text) : Text :=
  if head.isPrefixOf value then value.drop head.length else value

def normalizeCapabilityId (value : Text) : Text :=
  removePrefix "capability:".toList (removePrefix "skill:".toList (strip value))

abbrev HashedIdentity :=
  { identity : EdgeIdentity // identity.sourceContentHash ≠ [] ∧ identity.targetContentHash ≠ [] }

def edgeIdentityFromObservation (edge : EvolutionGraphEdge) (index : StaticGraphIndex) :
    Option HashedIdentity :=
  let sourceId := normalizeCapabilityId edge.sourceId
  let targetId := normalizeCapabilityId edge.targetId
  let sourceContentHash := (assocGet? sourceId index.contentHashById).getD []
  let targetContentHash := (assocGet? targetId index.contentHashById).getD []
  if h : sourceContentHash = [] ∨ targetContentHash = [] then none
  else
    some ⟨⟨sourceId, targetId, edge.relationType, sourceContentHash, targetContentHash⟩,
      not_or.mp h⟩

namespace GraphEvolutionInput

def edgeOutcome (v : GraphEvolutionInput) (edge : EvolutionGraphEdge) : Option EdgeOutcome :=
  match v.outcome.label with
  | .verifiedSuccess => if edge.success = some true then some .success else none
  | .verifiedFailure =>
    if edge.success = some false ∧ edge.failureDomain = some .orchestration ∧
        v.outcome.failureDomain = some .orchestration then some .failure
    else none
  | _ => none

def item? (v : GraphEvolutionInput) (index : StaticGraphIndex) (edge : EvolutionGraphEdge) :
    Option EdgeItem :=
  match edgeIdentityFromObservation edge index, v.edgeOutcome edge with
  | some identity, some outcome =>
    some ⟨identity.1, outcome, decide (identity.1 ∈ index.edgesByIdentity), identity.2⟩
  | _, _ => none

def normalizedEdges (v : GraphEvolutionInput) (index : StaticGraphIndex) : List EdgeItem :=
  v.edges.filterMap (v.item? index)

end GraphEvolutionInput

def StaticGraphIndex.reading (index : StaticGraphIndex) (edge : EvolutionGraphEdge) :
    Option (EdgeIdentity × Bool) :=
  (edgeIdentityFromObservation edge index).map fun identity =>
    (identity.1, decide (identity.1 ∈ index.edgesByIdentity))

/-- Two indexes say the same of every edge of the input that has an outcome. -/
def GraphEvolutionInput.ReadAlike (v : GraphEvolutionInput) (index index' : StaticGraphIndex) :
    Prop :=
  ∀ edge ∈ v.edges, v.edgeOutcome edge ≠ none → index.reading edge = index'.reading edge

deriving instance DecidableEq for EdgeItem

/-- The normalized payload. Its schema is always `GRAPH_EVOLUTION_INPUT_SCHEMA`. -/
structure EvidencePayload where
  evidenceId : Text
  graphScopeId : Text
  observedAt : Text
  staticRevision : Text
  trajectoryIdHash : Text
  sessionIdHash : Text
  requestIdHash : Option Text
  captureMode : Text
  traceRefs : List Text
  taskOutcome : TaskOutcome
  taskClusterId : Option Text
  edges : List EdgeItem
deriving DecidableEq

def EvidencePayload.evidence (payload : EvidencePayload) : Evidence where
  currentSchema := true
  sessionIdHash := payload.sessionIdHash
  staticRevision := payload.staticRevision
  taskClusterId := payload.taskClusterId.getD []
  observedAt := payload.observedAt
  edges := payload.edges

def GraphEvolutionInput.payload (v : GraphEvolutionInput) (edges : List EdgeItem) :
    EvidencePayload where
  evidenceId := v.evidenceId
  graphScopeId := v.graphScopeId
  observedAt := v.observedAt
  staticRevision := v.graphSnapshot.staticRevision
  trajectoryIdHash := v.trace.trajectoryIdHash
  sessionIdHash := v.trace.sessionIdHash
  requestIdHash := v.trace.requestIdHash
  captureMode := v.trace.captureMode
  traceRefs := sortTexts (v.trace.spanRefs ++ v.trace.memberTrajectoryRefs).dedup
  taskOutcome := v.outcome
  taskClusterId := v.taskClusterId
  edges := edges

structure EvidenceRow where
  sequence : Nat
  graphScopeId : Text
  evidenceId : Text
  observedAt : Text
  eligible : Bool
  reason : Text
  payload : EvidencePayload

def EvidenceRow.logRow (row : EvidenceRow) : LogRow :=
  ⟨row.sequence, row.evidenceId, row.eligible, row.payload.evidence⟩

structure Manifest where
  staticRevision : Text
  observationRevision : Text

/-- The stores of the service, and the scopes whose aggregation is scheduled. Staged versions are
immutable; `current` is the version that `current.json` names. -/
structure ObservationService where
  versions : List StaticGraphIndex
  current : Option Text
  rows : List EvidenceRow
  overlays : List (Text × Overlay)
  manifests : List ((Text × Text) × Manifest)
  scheduled : List Text

/-- What `submit` raises. -/
inductive SubmitError where
  | fileNotFound
  | invalidVersion
  | differentEvidence (evidenceId : Text)

inductive ReceiptStatus where
  | accepted
  | auditOnly
  | duplicate
deriving DecidableEq

structure ObservationReceipt where
  evidenceId : Text
  graphScopeId : Text
  sequence : Nat
  status : ReceiptStatus
  reason : Text

/-- The characters `[A-Za-z0-9._-]` of a version. -/
def isVersionChar (c : Char) : Bool :=
  ('A' ≤ c && c ≤ 'Z') || ('a' ≤ c && c ≤ 'z') || ('0' ≤ c && c ≤ '9') ||
    c == '.' || c == '_' || c == '-'

namespace ObservationService

def empty : ObservationService := ⟨[], none, [], [], [], []⟩

/-- `_static_index`, which reads the artifact of a version. -/
def staticIndex (s : ObservationService) (version : Text) : Except SubmitError StaticGraphIndex :=
  if version = [] ∨ ¬ version.all isVersionChar then .error .invalidVersion
  else
    match s.versions.find? fun index => decide (index.revision = version) with
    | some index => .ok index
    | none => .error .fileNotFound

def currentStaticIndex (s : ObservationService) : Except SubmitError StaticGraphIndex :=
  match s.current with
  | some version => s.staticIndex version
  | none => .error .fileNotFound

/-- `RevisionStore.read_snapshot` for a merged revision, without the overlay. -/
def readSnapshot (s : ObservationService) (graphScopeId mergedRevision : Text) :
    Option Manifest := assocGet? (graphScopeId, mergedRevision) s.manifests

def snapshotReferenceReason (s : ObservationService) (v : GraphEvolutionInput) : Text :=
  match v.graphSnapshot.mergedRevision with
  | none => []
  | some mergedRevision =>
    match s.readSnapshot v.graphScopeId mergedRevision with
    | none => "unknown_merged_revision".toList
    | some snapshot =>
      if snapshot.staticRevision ≠ v.graphSnapshot.staticRevision then
        "merged_static_revision_mismatch".toList
      else if snapshot.observationRevision ≠ v.graphSnapshot.observationRevision then
        "merged_observation_revision_mismatch".toList
      else []

/-- The reasons that `_qualify` finds against an input. -/
def reasons (s : ObservationService) (v : GraphEvolutionInput) (index : StaticGraphIndex) :
    List Text :=
  (if v.trace.truncated then ["truncated_trace".toList] else []) ++
    (if v.trace.qualityFlags ≠ [] then ["trace_quality_flags".toList] else []) ++
    (if v.outcome.evidenceStrength ≠ .strong then ["outcome_not_strong".toList] else []) ++
    (if ∀ node ∈ v.nodes, index.HasCapability (normalizeCapabilityId node) then []
      else ["capability_identity_mismatch".toList]) ++
    (if s.snapshotReferenceReason v ≠ [] then [s.snapshotReferenceReason v] else []) ++
    (if v.normalizedEdges index = [] then ["no_qualified_edge_outcome".toList] else [])

def qualify (s : ObservationService) (v : GraphEvolutionInput) (index : StaticGraphIndex) :
    Bool × Text × EvidencePayload :=
  (decide (s.reasons v index = []), List.intercalate [','] (s.reasons v index),
    v.payload (v.normalizedEdges index))

def lastSequence (s : ObservationService) : Nat :=
  (s.rows.getLast?.map EvidenceRow.sequence).getD 0

def row? (s : ObservationService) (graphScopeId evidenceId : Text) : Option EvidenceRow :=
  s.rows.find? fun row => decide (row.graphScopeId = graphScopeId ∧ row.evidenceId = evidenceId)

/-- `EvidenceStore.append` and the receipt for it. A new row schedules its scope. -/
def append (s : ObservationService) (v : GraphEvolutionInput) (eligible : Bool) (reason : Text)
    (payload : EvidencePayload) : Except SubmitError (ObservationService × ObservationReceipt) :=
  match s.row? v.graphScopeId v.evidenceId with
  | some row =>
    if row.payload ≠ payload then .error (.differentEvidence v.evidenceId)
    else .ok (s, ⟨v.evidenceId, v.graphScopeId, row.sequence, .duplicate, row.reason⟩)
  | none =>
    .ok ({ s with
        rows := s.rows ++ [⟨s.lastSequence + 1, v.graphScopeId, v.evidenceId, v.observedAt, eligible,
          reason, payload⟩]
        scheduled := s.scheduled ++ [v.graphScopeId] },
      ⟨v.evidenceId, v.graphScopeId, s.lastSequence + 1, if eligible then .accepted else .auditOnly,
        reason⟩)

def submit (s : ObservationService) (v : GraphEvolutionInput) :
    Except SubmitError (ObservationService × ObservationReceipt) :=
  match s.staticIndex v.graphSnapshot.staticRevision with
  | .error .fileNotFound =>
    match s.currentStaticIndex with
    | .error e => .error e
    | .ok index =>
      let (_, reason, normalized) := s.qualify v index
      let known := if reason = [] then [] else [reason]
      s.append v false (List.intercalate [','] ("unknown_static_revision".toList :: known))
        normalized
  | .error e => .error e
  | .ok index =>
    let (eligible, reason, normalized) := s.qualify v index
    s.append v eligible reason normalized

def scope (s : ObservationService) (index : StaticGraphIndex) (graphScopeId : Text) : Scope where
  log := (s.rows.filter fun row => decide (row.graphScopeId = graphScopeId)).map EvidenceRow.logRow
  overlay := assocGet? graphScopeId s.overlays
  index := index

/-- `RevisionStore.publish`. The names of the two revisions are hashes of what is published. -/
def publish (s : ObservationService) (graphScopeId observationRevision mergedRevision : Text)
    (overlay : Overlay) : ObservationService :=
  { s with
    overlays := assocSet graphScopeId overlay s.overlays
    manifests := assocSet (graphScopeId, mergedRevision)
      ⟨overlay.staticRevision, observationRevision⟩ s.manifests }

end ObservationService

/-- What happens to the service: submissions, new and activated static graphs, projections and
fallbacks with the names of the revisions they publish, and restarts. -/
inductive ServiceOp where
  | submit (v : GraphEvolutionInput)
  | stage (index : StaticGraphIndex)
  | activate (version : Text)
  | aggregate (graphScopeId observationRevision mergedRevision : Text)
  | safeFallback (graphScopeId observationRevision mergedRevision : Text)
  | restart

namespace ObservationService

/-- One operation. One that raises changes nothing; a version is staged once, and only a staged
version is activated. -/
def step (s : ObservationService) : ServiceOp → ObservationService
  | .submit v =>
    match s.submit v with
    | .ok (s', _) => s'
    | .error _ => s
  | .stage index =>
    if s.versions.any fun known => decide (known.revision = index.revision) then s
    else { s with versions := s.versions ++ [index] }
  | .activate version =>
    if s.versions.any fun known => decide (known.revision = version) then
      { s with current := some version }
    else s
  | .aggregate graphScopeId observationRevision mergedRevision =>
    match s.currentStaticIndex with
    | .error _ => s
    | .ok index =>
      match (s.scope index graphScopeId).aggregate.overlay with
      | none => s
      | some overlay =>
        { s.publish graphScopeId observationRevision mergedRevision overlay with
          scheduled := s.scheduled.filter (· ≠ graphScopeId) }
  | .safeFallback graphScopeId observationRevision mergedRevision =>
    match s.currentStaticIndex with
    | .error _ => s
    | .ok index =>
      s.publish graphScopeId observationRevision mergedRevision ⟨index.revision, 0, [], false⟩
  | .restart => { s with scheduled := [] }

/-- The index that `submit` normalizes an input against. -/
def indexFor (s : ObservationService) (v : GraphEvolutionInput) :
    Except SubmitError StaticGraphIndex :=
  match s.staticIndex v.graphSnapshot.staticRevision with
  | .error .fileNotFound => s.currentStaticIndex
  | result => result

variable {s s' s₁ : ObservationService} {v : GraphEvolutionInput}

theorem submit_spec (s : ObservationService) (v : GraphEvolutionInput) :
    (∃ e, s.indexFor v = .error e ∧ s.submit v = .error e) ∨
      ∃ index eligible reason, s.indexFor v = .ok index ∧
        s.submit v = s.append v eligible reason (v.payload (v.normalizedEdges index)) := by
  rw [indexFor, submit]
  cases hstatic : s.staticIndex v.graphSnapshot.staticRevision with
  | ok index => exact Or.inr ⟨index, _, _, rfl, rfl⟩
  | error e =>
    cases e with
    | invalidVersion => exact Or.inl ⟨_, rfl, rfl⟩
    | differentEvidence id => exact Or.inl ⟨_, rfl, rfl⟩
    | fileNotFound =>
      cases hcurrent : s.currentStaticIndex with
      | error e => exact Or.inl ⟨e, rfl, rfl⟩
      | ok index => exact Or.inr ⟨index, _, _, rfl, rfl⟩

theorem payload_inj {edges edges' : List EdgeItem} :
    v.payload edges = v.payload edges' ↔ edges = edges' := by
  constructor
  · exact congrArg EvidencePayload.edges
  · rintro rfl
    rfl

theorem row?_of_submit {receipt : ObservationReceipt} (h : s.submit v = .ok (s₁, receipt))
    (hnew : receipt.status ≠ .duplicate) :
    ∃ index row, s.indexFor v = .ok index ∧
      s₁.row? v.graphScopeId v.evidenceId = some row ∧
      row.payload = v.payload (v.normalizedEdges index) ∧
      (⟨v.evidenceId, v.graphScopeId, row.sequence, .duplicate, row.reason⟩ :
        ObservationReceipt) = { receipt with status := .duplicate } := by
  rcases submit_spec s v with ⟨e, _, he⟩ | ⟨index, eligible, reason, hindex, happend⟩
  · rw [he] at h
    cases h
  · rw [happend, append] at h
    cases hrow : s.row? v.graphScopeId v.evidenceId with
    | some row =>
      rw [hrow] at h
      dsimp only at h
      split at h
      · cases h
      · cases h
        exact absurd rfl hnew
    | none =>
      rw [hrow] at h
      cases h
      refine ⟨index, ⟨s.lastSequence + 1, v.graphScopeId, v.evidenceId, v.observedAt, eligible,
        reason, v.payload (v.normalizedEdges index)⟩, hindex, ?_, rfl, rfl⟩
      rw [row?] at hrow ⊢
      rw [List.find?_append, hrow]
      simp

theorem append_known {row : EvidenceRow} (h : s.row? v.graphScopeId v.evidenceId = some row)
    (eligible : Bool) (reason : Text) (payload : EvidencePayload) :
    s.append v eligible reason payload =
        .ok (s, ⟨v.evidenceId, v.graphScopeId, row.sequence, .duplicate, row.reason⟩) ↔
      row.payload = payload := by
  rw [append, h]
  dsimp only
  split
  · next hne => exact iff_of_false (fun h => by cases h) hne
  · next heq => exact iff_of_true rfl (not_not.mp heq)

/-- What holds of a later state: rows and versions stay. -/
structure Kept (s s' : ObservationService) : Prop where
  rows : s.rows <+: s'.rows
  versions : s.versions <+: s'.versions

theorem Kept.refl (s : ObservationService) : Kept s s := ⟨prefix_rfl, prefix_rfl⟩

theorem Kept.trans {s'' : ObservationService} (h : Kept s s') (h' : Kept s' s'') : Kept s s'' :=
  ⟨h.rows.trans h'.rows, h.versions.trans h'.versions⟩

theorem kept_append {eligible : Bool} {reason : Text} {payload : EvidencePayload}
    {receipt : ObservationReceipt} (h : s.append v eligible reason payload = .ok (s', receipt)) :
    Kept s s' := by
  rw [append] at h
  split at h
  · split at h
    · cases h
    · cases h
      exact Kept.refl s
  · cases h
    exact ⟨prefix_append _ _, prefix_rfl⟩

theorem kept_step (s : ObservationService) (op : ServiceOp) : Kept s (s.step op) := by
  cases op with
  | submit v =>
    rw [step]
    split
    · next s' receipt h =>
      rcases submit_spec s v with ⟨e, _, he⟩ | ⟨_, _, _, _, happend⟩
      · rw [he] at h
        cases h
      · exact kept_append (happend ▸ h)
    · exact Kept.refl s
  | stage index =>
    rw [step]
    split
    · exact Kept.refl s
    · exact ⟨prefix_rfl, prefix_append _ _⟩
  | activate version =>
    rw [step]
    split
    · exact ⟨prefix_rfl, prefix_rfl⟩
    · exact Kept.refl s
  | aggregate graphScopeId observationRevision mergedRevision =>
    rw [step]
    split
    · exact Kept.refl s
    · split
      · exact Kept.refl s
      · exact ⟨prefix_rfl, prefix_rfl⟩
  | safeFallback graphScopeId observationRevision mergedRevision =>
    rw [step]
    split
    · exact Kept.refl s
    · exact ⟨prefix_rfl, prefix_rfl⟩
  | restart => exact ⟨prefix_rfl, prefix_rfl⟩

theorem kept_run (s : ObservationService) (ops : List ServiceOp) : Kept s (run step s ops) := by
  induction ops generalizing s with
  | nil => exact Kept.refl s
  | cons op ops ih => exact (kept_step s op).trans (ih (s.step op))

private theorem find?_of_init {α : Type} {p : α → Bool} {xs ys : List α} {x : α}
    (h : xs <+: ys) (hx : xs.find? p = some x) : ys.find? p = some x := by
  obtain ⟨more, rfl⟩ := h
  rw [List.find?_append, hx, Option.some_or]

theorem Kept.row? (h : Kept s s') {graphScopeId evidenceId : Text} {row : EvidenceRow}
    (hrow : s.row? graphScopeId evidenceId = some row) :
    s'.row? graphScopeId evidenceId = some row := find?_of_init h.rows hrow

theorem Kept.staticIndex (h : Kept s s') {version : Text} {index : StaticGraphIndex}
    (hindex : s.staticIndex version = .ok index) : s'.staticIndex version = .ok index := by
  rw [ObservationService.staticIndex] at hindex ⊢
  split at hindex
  · cases hindex
  · next hv =>
    rw [if_neg hv]
    split at hindex
    · next hfind =>
      rw [find?_of_init h.versions hfind]
      exact hindex
    · cases hindex

end ObservationService

theorem filterMap_eq_iff_of_key {α β κ : Type} {f g : α → Option β} {key : α → κ}
    {keyOf : β → κ} (hf : ∀ a x, f a = some x → keyOf x = key a)
    (hg : ∀ a x, g a = some x → keyOf x = key a) (hf' : ∀ a b, key a = key b → f a = f b)
    (hg' : ∀ a b, key a = key b → g a = g b) (xs : List α) :
    xs.filterMap f = xs.filterMap g ↔ ∀ a ∈ xs, f a = g a := by
  constructor
  · intro h a ha
    have hfg : ∀ x, f a = some x → g a = some x := by
      intro x hx
      have hmem : x ∈ xs.filterMap g := h ▸ mem_filterMap.mpr ⟨a, ha, hx⟩
      obtain ⟨b, _, hb⟩ := mem_filterMap.mp hmem
      rw [hg' a b ((hf a x hx).symm.trans (hg b x hb)), hb]
    have hgf : ∀ x, g a = some x → f a = some x := by
      intro x hx
      have hmem : x ∈ xs.filterMap f := h ▸ mem_filterMap.mpr ⟨a, ha, hx⟩
      obtain ⟨b, _, hb⟩ := mem_filterMap.mp hmem
      rw [hf' a b ((hg a x hx).symm.trans (hf b x hb)), hb]
    exact Option.ext fun x => ⟨hfg x, hgf x⟩
  · exact filterMap_congr

namespace GraphEvolutionInput

variable {index index' : StaticGraphIndex} {edge edge' : EvolutionGraphEdge}
  {v : GraphEvolutionInput}

def edgeKey (v : GraphEvolutionInput) (edge : EvolutionGraphEdge) :
    Text × Text × Text × Option EdgeOutcome :=
  (normalizeCapabilityId edge.sourceId, normalizeCapabilityId edge.targetId, edge.relationType,
    v.edgeOutcome edge)

def itemKey (item : EdgeItem) : Text × Text × Text × Option EdgeOutcome :=
  (item.identity.sourceId, item.identity.targetId, item.identity.relationType, some item.outcome)

theorem edgeIdentity_ends {identity : HashedIdentity}
    (h : edgeIdentityFromObservation edge index = some identity) :
    identity.1.sourceId = normalizeCapabilityId edge.sourceId ∧
      identity.1.targetId = normalizeCapabilityId edge.targetId ∧
      identity.1.relationType = edge.relationType := by
  rw [edgeIdentityFromObservation] at h
  split at h
  · cases h
  · cases h
    exact ⟨rfl, rfl, rfl⟩

theorem itemKey_item? {item : EdgeItem} (h : v.item? index edge = some item) :
    itemKey item = v.edgeKey edge := by
  rw [item?] at h
  split at h
  · next identity outcome hidentity houtcome =>
    cases h
    obtain ⟨hsource, htarget, hrelation⟩ := edgeIdentity_ends hidentity
    rw [itemKey, edgeKey, houtcome, hsource, htarget, hrelation]
  · cases h

theorem item?_of_key (h : v.edgeKey edge = v.edgeKey edge') :
    v.item? index edge = v.item? index edge' := by
  simp only [edgeKey, Prod.mk.injEq] at h
  obtain ⟨hsource, htarget, hrelation, houtcome⟩ := h
  have hidentity :
      edgeIdentityFromObservation edge index = edgeIdentityFromObservation edge' index := by
    simp only [edgeIdentityFromObservation, hsource, htarget, hrelation]
  rw [item?, item?, houtcome, hidentity]

theorem item?_eq_iff : v.item? index edge = v.item? index' edge ↔
    (v.edgeOutcome edge ≠ none → index.reading edge = index'.reading edge) := by
  rw [item?, item?, StaticGraphIndex.reading, StaticGraphIndex.reading]
  cases v.edgeOutcome edge <;> cases edgeIdentityFromObservation edge index <;>
    cases edgeIdentityFromObservation edge index' <;> simp

theorem normalizedEdges_eq_iff :
    v.normalizedEdges index = v.normalizedEdges index' ↔ v.ReadAlike index index' := by
  have hkeyed := filterMap_eq_iff_of_key (f := v.item? index) (g := v.item? index')
    (fun _ _ => itemKey_item?) (fun _ _ => itemKey_item?) (fun _ _ => item?_of_key)
    (fun _ _ => item?_of_key) v.edges
  exact hkeyed.trans (forall₂_congr fun _ _ => item?_eq_iff)

end GraphEvolutionInput

open ObservationService GraphEvolutionInput

/-- In every history, an input that was accepted once and comes again is taken for the duplicate
of the first, and changes nothing, exactly if the graph it is read off now says the same of its
edges as the graph it was read off then. -/
theorem resubmission_duplicate_iff (before later : List ServiceOp) (v : GraphEvolutionInput)
    {s₁ : ObservationService} {receipt : ObservationReceipt}
    (hfirst : (run step empty before).submit v = .ok (s₁, receipt))
    (hnew : receipt.status ≠ .duplicate) :
    (run step s₁ later).submit v =
        .ok (run step s₁ later, { receipt with status := .duplicate }) ↔
      ∃ index index', (run step empty before).indexFor v = .ok index ∧
        (run step s₁ later).indexFor v = .ok index' ∧ v.ReadAlike index index' := by
  obtain ⟨index, row, hindex, hrow, hpayload, hreceipt⟩ := row?_of_submit hfirst hnew
  have hlater := (kept_run s₁ later).row? hrow
  rw [← hreceipt]
  rcases submit_spec (run step s₁ later) v with
    ⟨e, hnone, he⟩ | ⟨index', eligible, reason, hindex', happend⟩
  · rw [he, hnone]
    exact iff_of_false (fun h => by cases h) (fun ⟨_, _, _, h, _⟩ => by cases h)
  · rw [happend, append_known hlater, hpayload, payload_inj, normalizedEdges_eq_iff, hindex,
      hindex']
    constructor
    · exact fun h => ⟨index, index', rfl, rfl, h⟩
    · rintro ⟨_, _, h, h', hread⟩
      cases h
      cases h'
      exact hread

/-- A graph in which `a` feeds `b`, with a content hash for `b`. -/
def feedingGraph (revision hash : Text) : StaticGraphIndex where
  revision := revision
  contentHashById := [(['a'], ['x']), (['b'], hash)]
  edgesByIdentity := [⟨['a'], ['b'], ['r'], ['x'], hash⟩]
  hashed e he := by
    cases mem_singleton.mp he
    exact ⟨rfl, rfl⟩

def feedingInput (staticRevision : Text) : GraphEvolutionInput where
  evidenceId := ['e']
  graphScopeId := ['d']
  observedAt := ['t']
  graphSnapshot := ⟨staticRevision, ['o'], none⟩
  trace := ⟨['j'], ['s'], none, ['c'], false, [], [], []⟩
  taskClusterId := none
  outcome := ⟨.verifiedSuccess, .strong, none, by decide⟩
  nodes := [['a'], ['b']]
  edges := [⟨['a'], ['b'], ['r'], some true, none⟩]
  edges_known e he := by
    cases mem_singleton.mp he
    decide

/-- With the revision of the input at hand, a restart and another graph change nothing. -/
theorem resubmission_duplicate_known :
    ∃ (s₁ : ObservationService) (receipt : ObservationReceipt),
      (run step empty [.stage (feedingGraph ['1'] ['y']), .activate ['1']]).submit
          (feedingInput ['1']) = .ok (s₁, receipt) ∧
        ((run step s₁ [.stage (feedingGraph ['2'] ['z']), .activate ['2'], .restart]).submit
            (feedingInput ['1']) =
          .ok (run step s₁ [.stage (feedingGraph ['2'] ['z']), .activate ['2'], .restart],
            { receipt with status := .duplicate }) ↔
          ∃ index index',
            (run step empty [.stage (feedingGraph ['1'] ['y']), .activate ['1']]).indexFor
                (feedingInput ['1']) = .ok index ∧
              (run step s₁ [.stage (feedingGraph ['2'] ['z']), .activate ['2'], .restart]).indexFor
                (feedingInput ['1']) = .ok index' ∧
              (feedingInput ['1']).ReadAlike index index') :=
  ⟨_, _, rfl, resubmission_duplicate_iff _ _ _ rfl (by decide)⟩

/-- An input that names a graph the service does not know, submitted twice with a new graph
between: the second submission raises. -/
theorem resubmission_raises : ¬ ∀ (before later : List ServiceOp) (v : GraphEvolutionInput)
    (s₁ : ObservationService) (receipt : ObservationReceipt),
    (run step empty before).submit v = .ok (s₁, receipt) → receipt.status ≠ .duplicate →
      (run step s₁ later).submit v =
        .ok (run step s₁ later, { receipt with status := .duplicate }) := by
  intro h
  have hagain := h [.stage (feedingGraph ['1'] ['y']), .activate ['1']]
    [.stage (feedingGraph ['2'] ['z']), .activate ['2']] (feedingInput ['3']) _ _ rfl (by decide)
  have hraises : Except.error (SubmitError.differentEvidence ['e']) = Except.ok _ := hagain
  cases hraises

end JiuwenSpec.Symphony

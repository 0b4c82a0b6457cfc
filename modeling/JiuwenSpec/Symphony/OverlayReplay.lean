import Mathlib.Data.List.Pairwise
import Mathlib.Data.List.Sort
import JiuwenSpec.Base.Assoc
import JiuwenSpec.Base.Run
import JiuwenSpec.Base.TextLines

/-!
# The observation overlay

Evidence about edges of the graph is appended to a log. A projection folds what is new in the log
into an overlay of statistics and binds these to the current static graph; a fallback publishes an
empty overlay, so that the next projection starts over. An identity of an edge stands for its hash.
Source: `symphony/observation/service.py`, `store.py`, `identity.py`.
-/

namespace JiuwenSpec.Symphony

open Base List

structure EdgeIdentity where
  sourceId : Text
  targetId : Text
  relationType : Text
  sourceContentHash : Text
  targetContentHash : Text
deriving DecidableEq

/-- `StaticGraphIndex`. The capabilities are the keys of their content hashes, and an edge of the
graph is known by the hashes of its ends. -/
structure StaticGraphIndex where
  revision : Text
  contentHashById : List (Text × Text)
  edgesByIdentity : List EdgeIdentity
  hashed : ∀ e ∈ edgesByIdentity,
    e.sourceContentHash = (assocGet? e.sourceId contentHashById).getD [] ∧
      e.targetContentHash = (assocGet? e.targetId contentHashById).getD []

/-- `capability_id in static_index.capability_ids`. -/
def StaticGraphIndex.HasCapability (index : StaticGraphIndex) (id : Text) : Prop :=
  (assocGet? id index.contentHashById).isSome

instance (index : StaticGraphIndex) (id : Text) : Decidable (index.HasCapability id) :=
  inferInstanceAs (Decidable ((assocGet? id index.contentHashById).isSome = true))

inductive EdgeOutcome where
  | success
  | failure
deriving DecidableEq

/-- An edge of normalized evidence, with the content hashes that
`edge_identity_from_observation` finds for both ends. -/
structure EdgeItem where
  identity : EdgeIdentity
  outcome : EdgeOutcome
  observedAsStatic : Bool
  hashed : identity.sourceContentHash ≠ [] ∧ identity.targetContentHash ≠ []

/-- The payload of evidence, as far as the projection reads it; `current_schema` is
`schema_version == GRAPH_EVOLUTION_INPUT_SCHEMA`. -/
structure Evidence where
  currentSchema : Bool
  sessionIdHash : Text
  staticRevision : Text
  taskClusterId : Text
  observedAt : Text
  edges : List EdgeItem

structure LogRow where
  sequence : Nat
  evidenceId : Text
  eligible : Bool
  payload : Evidence

inductive BindingStatus where
  | legacyIgnored
  | orphaned
  | invalidated
  | activeStatic
  | quarantined
  | activeRuntimeOnly
  | insufficientEvidence
deriving DecidableEq

/-- `POINT_EDGE_IDENTITY_SCHEMA` or another schema of identities. -/
inductive IdentitySchema where
  | pointEdge
  | other
deriving DecidableEq

/-- The statistics of an edge. Adjustments and weights are counted in `RUNTIME_ADJUSTMENT_STEP`s. -/
structure EdgeStats where
  identitySchema : IdentitySchema
  sourceId : Text
  targetId : Text
  relationType : Text
  sourceContentHash : Text
  targetContentHash : Text
  successCount : Nat
  failureCount : Nat
  attemptCount : Nat
  successSessionHashes : List Text
  successSessionsByRevision : List (Text × List Text)
  failureSessionHashes : List Text
  taskClusterIds : List Text
  everStatic : Bool
  firstObservedAt : Text
  lastObservedAt : Text
  lastEvidenceStaticRevision : Text
  runtimeAdjustment : Int
  runtimeWeight : Int
  bindingStatus : Option BindingStatus

def textLe : Text → Text → Bool
  | [], _ => true
  | _ :: _, [] => false
  | a :: as, b :: bs => decide (a.toNat < b.toNat) || (a.toNat == b.toNat && textLe as bs)

/-- `sorted`. -/
def sortTexts (values : List Text) : List Text := values.insertionSort fun a b => textLe a b = true

def appendUnique (values : List Text) (value : Text) : List Text :=
  if value = [] then values
  else sortTexts (if value ∈ values then values else values ++ [value])

/-- `_runtime_adjustment`, in steps: at most twenty of them make one. -/
def runtimeSteps (successCount failureCount : Nat) : Int :=
  max (-20) (min 20 ((successCount : Int) - failureCount))

namespace EdgeStats

/-- What `setdefault` stores for an edge that was not observed before. -/
def fresh (item : EdgeItem) (observedAt : Text) : EdgeStats where
  identitySchema := .pointEdge
  sourceId := item.identity.sourceId
  targetId := item.identity.targetId
  relationType := item.identity.relationType
  sourceContentHash := item.identity.sourceContentHash
  targetContentHash := item.identity.targetContentHash
  successCount := 0
  failureCount := 0
  attemptCount := 0
  successSessionHashes := []
  successSessionsByRevision := []
  failureSessionHashes := []
  taskClusterIds := []
  everStatic := false
  firstObservedAt := observedAt
  lastObservedAt := []
  lastEvidenceStaticRevision := []
  runtimeAdjustment := 0
  runtimeWeight := 0
  bindingStatus := none

def countSession (count : Nat) (sessions : List Text) (session : Text) : Nat :=
  if session ≠ [] ∧ session ∉ sessions then count + 1 else count

def addRevisionSession (sessions : List (Text × List Text)) (revision session : Text) :
    List (Text × List Text) :=
  let known := (assocGet? revision sessions).getD []
  assocSet revision
    (sortTexts (if session ≠ [] ∧ session ∉ known then known ++ [session] else known)) sessions

def settle (s : EdgeStats) (e : Evidence) : EdgeOutcome → EdgeStats
  | .success =>
    { s with
      successCount := countSession s.successCount s.successSessionHashes e.sessionIdHash
      successSessionHashes := appendUnique s.successSessionHashes e.sessionIdHash
      successSessionsByRevision :=
        addRevisionSession s.successSessionsByRevision e.staticRevision e.sessionIdHash }
  | .failure =>
    { s with
      failureCount := countSession s.failureCount s.failureSessionHashes e.sessionIdHash
      failureSessionHashes := appendUnique s.failureSessionHashes e.sessionIdHash }

def weigh (s : EdgeStats) : EdgeStats :=
  { s with
    runtimeAdjustment := runtimeSteps s.successCount s.failureCount
    runtimeWeight := 20 + runtimeSteps s.successCount s.failureCount }

/-- What `_apply_evidence` does to the statistics of an edge. -/
def observe (s : EdgeStats) (index : StaticGraphIndex) (e : Evidence) (item : EdgeItem) :
    EdgeStats :=
  let settled := s.settle e item.outcome
  weigh
    { settled with
      attemptCount := (settled.successSessionHashes ++ settled.failureSessionHashes).dedup.length
      taskClusterIds := appendUnique settled.taskClusterIds (strip e.taskClusterId)
      lastObservedAt := e.observedAt
      lastEvidenceStaticRevision := e.staticRevision
      everStatic := settled.everStatic || item.observedAsStatic ||
        decide (item.identity ∈ index.edgesByIdentity) }

/-- The status that `_rebind` finds for an edge. -/
def binding (s : EdgeStats) (key : EdgeIdentity) (index : StaticGraphIndex) : BindingStatus :=
  if s.identitySchema ≠ .pointEdge then .legacyIgnored
  else if ¬ index.HasCapability s.sourceId ∨ ¬ index.HasCapability s.targetId then .orphaned
  else if assocGet? s.sourceId index.contentHashById ≠ some s.sourceContentHash ∨
      assocGet? s.targetId index.contentHashById ≠ some s.targetContentHash then .invalidated
  else if key ∈ index.edgesByIdentity then .activeStatic
  else if s.everStatic ∧ s.lastEvidenceStaticRevision ≠ index.revision then .quarantined
  else if 2 ≤ ((assocGet? index.revision s.successSessionsByRevision).getD []).length ∧
      s.failureCount = 0 then .activeRuntimeOnly
  else .insufficientEvidence

/-- `_rebind`: an edge that is bound to the static graph has been static. -/
def rebind (s : EdgeStats) (key : EdgeIdentity) (index : StaticGraphIndex) : EdgeStats :=
  weigh
    { s with
      bindingStatus := some (s.binding key index)
      everStatic := s.everStatic || decide (s.binding key index = .activeStatic) }

end EdgeStats

abbrev Edges := List (EdgeIdentity × EdgeStats)

def applyItem (index : StaticGraphIndex) (edges : Edges) (o : Evidence × EdgeItem) : Edges :=
  let stats := (assocGet? o.2.identity edges).getD (.fresh o.2 o.1.observedAt)
  assocSet o.2.identity (stats.observe index o.1 o.2) edges

def applyEvidence (index : StaticGraphIndex) (edges : Edges) (e : Evidence) : Edges :=
  if e.currentSchema then (e.edges.map fun item => (e, item)).foldl (applyItem index) edges
  else edges

def applyRow (index : StaticGraphIndex) (edges : Edges) (row : LogRow) : Edges :=
  if row.eligible then applyEvidence index edges row.payload else edges

/-- The overlay of a scope; `ready` is its projection status. -/
structure Overlay where
  staticRevision : Text
  highWaterSequence : Nat
  edges : Edges
  ready : Bool

structure Scope where
  log : List LogRow
  overlay : Option Overlay
  index : StaticGraphIndex

namespace Scope

def lastSequence (s : Scope) : Nat := (s.log.getLast?.map LogRow.sequence).getD 0

/-- `EvidenceStore.append`: a known identifier appends nothing. The sequence is counted for all
scopes together, so others may lie between two rows of one scope. -/
def append (s : Scope) (others : Nat) (evidenceId : Text) (eligible : Bool) (payload : Evidence) :
    Scope :=
  if s.log.any fun row => row.evidenceId == evidenceId then s
  else
    { s with log := s.log ++ [⟨s.lastSequence + others + 1, evidenceId, eligible, payload⟩] }

def highWater (s : Scope) : Nat := (s.overlay.map Overlay.highWaterSequence).getD 0

def edges (s : Scope) : Edges := (s.overlay.map Overlay.edges).getD []

def iterAfter (s : Scope) : List LogRow := s.log.filter fun row => s.highWater < row.sequence

def aggregate (s : Scope) : Scope :=
  let applied := s.iterAfter.foldl (applyRow s.index) s.edges
  { s with
    overlay := some
      { staticRevision := s.index.revision
        highWaterSequence := (s.iterAfter.getLast?.map LogRow.sequence).getD s.highWater
        edges := applied.map fun e => (e.1, e.2.rebind e.1 s.index)
        ready := true } }

def publishSafeFallback (s : Scope) : Scope :=
  { s with overlay := some ⟨s.index.revision, 0, [], false⟩ }

end Scope

/-- What happens to a scope. A restart loses caches only. -/
inductive ScopeOp where
  | submit (others : Nat) (evidenceId : Text) (eligible : Bool) (payload : Evidence)
  | switch (index : StaticGraphIndex)
  | aggregate
  | safeFallback
  | restart

def Scope.step (s : Scope) : ScopeOp → Scope
  | .submit others evidenceId eligible payload => s.append others evidenceId eligible payload
  | .switch index => { s with index }
  | .aggregate => s.aggregate
  | .safeFallback => s.publishSafeFallback
  | .restart => s

def Scope.init (index : StaticGraphIndex) : Scope := ⟨[], none, index⟩

/-!
## The overlay and the replay of its log

A projection that starts from the last overlay counts the same as one that folds the whole log: all
that an overlay keeps from earlier static graphs is that an edge has been static. That alone can
change the status of an edge, and a fallback forgets it.
-/

abbrev Observation := Evidence × EdgeItem

def observations (log : List LogRow) : List Observation :=
  log.flatMap fun row =>
    if row.eligible && row.payload.currentSchema then
      row.payload.edges.map fun item => (row.payload, item)
    else []

def Observed (obs : List Observation) (k : EdgeIdentity) : Prop := ∃ o ∈ obs, o.2.identity = k

def ObservedStatic (obs : List Observation) (k : EdgeIdentity) : Prop :=
  ∃ o ∈ obs, o.2.identity = k ∧ o.2.observedAsStatic = true

def lastRevision (obs : List Observation) (k : EdgeIdentity) : Option Text :=
  (obs.filter fun o => o.2.identity = k).getLast?.map fun o => o.1.staticRevision

def sessionsOf (obs : List Observation) (k : EdgeIdentity) (outcome : EdgeOutcome) : List Text :=
  (obs.filter fun o => o.2.identity = k ∧ o.2.outcome = outcome ∧ o.1.sessionIdHash ≠ []).map
    fun o => o.1.sessionIdHash

theorem observations_append (a b : List LogRow) :
    observations (a ++ b) = observations a ++ observations b := flatMap_append

theorem foldl_applyRow (index : StaticGraphIndex) (rows : List LogRow) (edges : Edges) :
    rows.foldl (applyRow index) edges = (observations rows).foldl (applyItem index) edges := by
  induction rows generalizing edges with
  | nil => rfl
  | cons row rows ih =>
    have hrow : observations (row :: rows) = observations [row] ++ observations rows :=
      observations_append [row] rows
    rw [foldl_cons, ih, hrow, foldl_append]
    by_cases he : row.eligible = true <;> by_cases hs : row.payload.currentSchema = true <;>
      simp [applyRow, applyEvidence, he, hs, observations]

variable {index index' : StaticGraphIndex} {edges edges' : Edges} {obs : List Observation}
  {k : EdgeIdentity}

theorem assocGet?_applyItem (o : Observation) : assocGet? k (applyItem index edges o) =
    if k = o.2.identity then
      some (((assocGet? o.2.identity edges).getD (.fresh o.2 o.1.observedAt)).observe index o.1 o.2)
    else assocGet? k edges := by
  rw [applyItem, assocGet?_assocSet]

/-- Statistics without what depends on a static graph, and without what follows from the counts. -/
def EdgeStats.forget (s : EdgeStats) : EdgeStats :=
  { s with everStatic := false, runtimeAdjustment := 0, runtimeWeight := 0, bindingStatus := none }

theorem EdgeStats.forget_observe {s t : EdgeStats} (h : s.forget = t.forget) (e : Evidence)
    (item : EdgeItem) : (s.observe index e item).forget = (t.observe index' e item).forget := by
  have hs : (s.observe index e item).forget = (s.forget.observe index' e item).forget := by
    rw [observe, observe]
    cases item.outcome <;> rfl
  have ht : (t.observe index' e item).forget = (t.forget.observe index' e item).forget := by
    rw [observe, observe]
    cases item.outcome <;> rfl
  rw [hs, ht, h]

/-- Two overlays differ in what they kept of static graphs alone. -/
def Akin (edges edges' : Edges) : Prop :=
  ∀ k, (assocGet? k edges).map EdgeStats.forget = (assocGet? k edges').map EdgeStats.forget

theorem Akin.refl (edges : Edges) : Akin edges edges := fun _ => rfl

theorem Akin.symm (h : Akin edges edges') : Akin edges' edges := fun k => (h k).symm

theorem Akin.trans {edges'' : Edges} (h : Akin edges edges') (h' : Akin edges' edges'') :
    Akin edges edges'' := fun k => (h k).trans (h' k)

theorem Akin.applyItem (h : Akin edges edges') (o : Observation) :
    Akin (applyItem index edges o) (applyItem index' edges' o) := by
  intro k
  rw [assocGet?_applyItem, assocGet?_applyItem]
  split
  · have hk := h o.2.identity
    rw [Option.map_some, Option.map_some]
    refine congrArg some (EdgeStats.forget_observe ?_ o.1 o.2)
    cases he : assocGet? o.2.identity edges <;> cases he' : assocGet? o.2.identity edges' <;>
      simp_all
  · exact h k

theorem Akin.foldl (h : Akin edges edges') (obs : List Observation) :
    Akin (obs.foldl (Symphony.applyItem index) edges)
      (obs.foldl (Symphony.applyItem index') edges') := by
  induction obs generalizing edges edges' with
  | nil => exact h
  | cons o obs ih => exact ih (h.applyItem o)

theorem akin_rebind (edges : Edges) :
    Akin (edges.map fun e => (e.1, e.2.rebind e.1 index)) edges := by
  intro k
  rw [assocGet?_map (fun k (s : EdgeStats) => s.rebind k index)]
  cases assocGet? k edges <;> rfl

structure EdgeStats.About (s : EdgeStats) (k : EdgeIdentity) : Prop where
  schema : s.identitySchema = .pointEdge
  source : s.sourceId = k.sourceId ∧ s.sourceContentHash = k.sourceContentHash
  target : s.targetId = k.targetId ∧ s.targetContentHash = k.targetContentHash
  hashed : k.sourceContentHash ≠ [] ∧ k.targetContentHash ≠ []

def AllAbout (edges : Edges) : Prop := ∀ k s, assocGet? k edges = some s → s.About k

theorem EdgeStats.About.of_forget {s t : EdgeStats} (h : s.About k) (hst : s.forget = t.forget) :
    t.About k := by
  have hschema := congrArg EdgeStats.identitySchema hst
  have hsource := congrArg EdgeStats.sourceId hst
  have htarget := congrArg EdgeStats.targetId hst
  have hsourceHash := congrArg EdgeStats.sourceContentHash hst
  have htargetHash := congrArg EdgeStats.targetContentHash hst
  simp only [forget] at hschema hsource htarget hsourceHash htargetHash
  exact ⟨hschema ▸ h.schema, ⟨hsource ▸ h.source.1, hsourceHash ▸ h.source.2⟩,
    ⟨htarget ▸ h.target.1, htargetHash ▸ h.target.2⟩, h.hashed⟩

theorem EdgeStats.About.observe {s : EdgeStats} (h : s.About k) (e : Evidence) (item : EdgeItem) :
    (s.observe index e item).About k := by
  rw [EdgeStats.observe]
  cases item.outcome <;> exact ⟨h.schema, h.source, h.target, h.hashed⟩

theorem EdgeStats.about_fresh (item : EdgeItem) (at' : Text) :
    (EdgeStats.fresh item at').About item.identity :=
  ⟨rfl, ⟨rfl, rfl⟩, ⟨rfl, rfl⟩, item.hashed⟩

theorem AllAbout.foldl (h : AllAbout edges) (obs : List Observation) :
    AllAbout (obs.foldl (applyItem index) edges) := by
  induction obs generalizing edges with
  | nil => exact h
  | cons o obs ih =>
    refine ih fun k s hs => ?_
    rw [assocGet?_applyItem] at hs
    split at hs
    · next heq =>
      subst heq
      cases hs
      refine EdgeStats.About.observe ?_ o.1 o.2
      cases he : assocGet? o.2.identity edges with
      | none => exact EdgeStats.about_fresh o.2 _
      | some t => exact h _ t he
    · exact h k s hs

theorem AllAbout.of_akin (h : AllAbout edges) (hakin : Akin edges edges') : AllAbout edges' := by
  intro k s hs
  have hk := hakin k
  rw [hs] at hk
  cases he : assocGet? k edges with
  | none => rw [he] at hk; cases hk
  | some t =>
    rw [he] at hk
    exact (h k t he).of_forget (Option.some.inj hk)

theorem isSome_foldl (obs : List Observation) (edges : Edges) (k : EdgeIdentity) :
    (assocGet? k (obs.foldl (applyItem index) edges)).isSome ↔
      (assocGet? k edges).isSome ∨ Observed obs k := by
  induction obs generalizing edges with
  | nil => simp [Observed]
  | cons o obs ih =>
    rw [foldl_cons, ih, assocGet?_applyItem]
    by_cases h : k = o.2.identity
    · simp [h, Observed]
    · have h' : ¬ o.2.identity = k := fun heq => h heq.symm
      simp [h, h', Observed]

def Marked (edges : Edges) (k : EdgeIdentity) : Prop :=
  ∃ s, assocGet? k edges = some s ∧ s.everStatic = true

theorem everStatic_observe (s : EdgeStats) (e : Evidence) (item : EdgeItem) :
    (s.observe index e item).everStatic = true ↔ s.everStatic = true ∨
      item.observedAsStatic = true ∨ item.identity ∈ index.edgesByIdentity := by
  rw [EdgeStats.observe]
  cases item.outcome <;> simp [EdgeStats.weigh, EdgeStats.settle, or_assoc]

theorem marked_foldl (obs : List Observation) (edges : Edges) (k : EdgeIdentity) :
    Marked (obs.foldl (applyItem index) edges) k ↔ Marked edges k ∨ ObservedStatic obs k ∨
      (k ∈ index.edgesByIdentity ∧ Observed obs k) := by
  induction obs generalizing edges with
  | nil => simp [ObservedStatic, Observed]
  | cons o obs ih =>
    have hstep : Marked (applyItem index edges o) k ↔ Marked edges k ∨
        (o.2.identity = k ∧ (o.2.observedAsStatic = true ∨ k ∈ index.edgesByIdentity)) := by
      by_cases h : k = o.2.identity
      · subst h
        simp only [Marked, assocGet?_applyItem, if_pos, Option.some.injEq, exists_eq_left',
          everStatic_observe, true_and]
        cases he : assocGet? o.2.identity edges <;> simp [EdgeStats.fresh]
      · have h' : ¬ o.2.identity = k := fun heq => h heq.symm
        simp [Marked, assocGet?_applyItem, h, h']
    have hcons : ObservedStatic (o :: obs) k ↔
        (o.2.identity = k ∧ o.2.observedAsStatic = true) ∨ ObservedStatic obs k := by
      simp [ObservedStatic]
    have hseen : Observed (o :: obs) k ↔ o.2.identity = k ∨ Observed obs k := by simp [Observed]
    rw [foldl_cons, ih, hstep, hcons, hseen]
    grind

theorem EdgeStats.About.binding_activeStatic {s : EdgeStats} (h : s.About k) :
    s.binding k index = .activeStatic ↔ k ∈ index.edgesByIdentity := by
  rw [EdgeStats.binding, if_neg (by simp [h.schema])]
  constructor
  · intro hb
    split_ifs at hb with h1 h2 h3 h4 h5
    exact h3
  · intro hk
    obtain ⟨hsource, htarget⟩ := index.hashed k hk
    have hs : assocGet? s.sourceId index.contentHashById = some s.sourceContentHash := by
      rw [h.source.1, h.source.2]
      cases hget : assocGet? k.sourceId index.contentHashById with
      | none => rw [hget] at hsource; exact absurd hsource h.hashed.1
      | some v => rw [hget] at hsource; exact congrArg some hsource.symm
    have ht : assocGet? s.targetId index.contentHashById = some s.targetContentHash := by
      rw [h.target.1, h.target.2]
      cases hget : assocGet? k.targetId index.contentHashById with
      | none => rw [hget] at htarget; exact absurd htarget h.hashed.2
      | some v => rw [hget] at htarget; exact congrArg some htarget.symm
    simp [StaticGraphIndex.HasCapability, hs, ht, hk]

theorem marked_rebind (h : AllAbout edges) (k : EdgeIdentity) :
    Marked (edges.map fun e => (e.1, e.2.rebind e.1 index)) k ↔
      Marked edges k ∨ (k ∈ index.edgesByIdentity ∧ (assocGet? k edges).isSome) := by
  rw [Marked, Marked, assocGet?_map (fun k (s : EdgeStats) => s.rebind k index)]
  cases hk : assocGet? k edges with
  | none => simp
  | some s =>
    have hbind : s.binding k index = .activeStatic ↔ k ∈ index.edgesByIdentity :=
      (h k s hk).binding_activeStatic
    simp [EdgeStats.rebind, EdgeStats.weigh, hbind]

end JiuwenSpec.Symphony

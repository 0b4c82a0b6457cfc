import JiuwenSpec.Base.Assoc
import JiuwenSpec.Base.Run

/-!
# Model allocators

A team's pool of model endpoints, and the strategies that hand its entries out: over the whole
pool, within the entries of one name, or by name alone. A member's model is stored as a name and a
position within the entries of that name. The digest of a pool is a parameter.
Source: `agent_teams/models/allocator.py`, `to_team_model_config` of `agent_teams/models/pool.py`.
-/

namespace JiuwenSpec.Models

open Base

universe u v w

/-- `ModelPoolEntry`; the metadata is what `to_team_model_config` merges into the config. -/
structure ModelPoolEntry (M : Type u) where
  modelName : String
  apiKey : String
  apiBaseUrl : String
  apiProvider : String
  description : Option String := none
  modelId : String
  metadata : M
  deriving DecidableEq

/-- `TeamModelConfig`: the fields of the entry win over what the metadata says of them. -/
structure TeamModelConfig (M : Type u) where
  clientId : String
  clientProvider : String
  apiKey : String
  apiBase : String
  model : String
  metadata : M

def ModelPoolEntry.toTeamModelConfig {M : Type u} (e : ModelPoolEntry M) : TeamModelConfig M where
  clientId := e.modelId
  clientProvider := e.apiProvider
  apiKey := e.apiKey
  apiBase := e.apiBaseUrl
  model := e.modelName
  metadata := e.metadata

/-- A pool: objects by their identities. One object has one set of fields. -/
structure Pool (M : Type u) where
  objects : List (ℕ × ModelPoolEntry M)
  same : ∀ o ∈ objects, ∀ o' ∈ objects, o.1 = o'.1 → o.2 = o'.2

variable {M : Type u}

namespace Pool

def group (pool : Pool M) (name : String) : List (ℕ × ModelPoolEntry M) :=
  pool.objects.filter fun o => o.2.modelName = name

def names (pool : Pool M) : List String :=
  pool.objects.foldl (fun names o =>
    if o.2.modelName ∈ names then names else names ++ [o.2.modelName]) []

def places (pool : Pool M) (p : ModelPoolEntry M → Bool) : List ℕ :=
  (List.range pool.objects.length).filter fun i => (pool.objects[i]?).any fun o => p o.2

end Pool

/-- `_group_index_of`: the place of the object among the others. -/
def groupIndexOf (obj : ℕ) (group : List (ℕ × ModelPoolEntry M)) : ℕ :=
  (group.findIdx? fun o => decide (o.1 = obj)).getD 0

/-- `group.index(entry)`: the place of the first equal entry. -/
def indexOfEqual [DecidableEq M] (entry : ModelPoolEntry M)
    (group : List (ℕ × ModelPoolEntry M)) : ℕ :=
  (group.findIdx? fun o => decide (o.2 = entry)).getD 0

def resolveMemberModel (pool : Pool M) (modelName : Option String) (modelIndex : Option ℤ) :
    Option (TeamModelConfig M) :=
  match modelName with
  | none => none
  | some name =>
    if pool.objects = [] ∨ name = "" then none
    else
      let group := pool.group name
      let idx : ℕ := match modelIndex with
        | some i => if 0 ≤ i ∧ i < group.length then i.toNat else 0
        | none => 0
      group[idx]?.map fun o => o.2.toTeamModelConfig

/-- `Allocation`, with the place in the pool that the entry was taken from. -/
structure Allocation (M : Type u) where
  place : ℕ
  entry : ModelPoolEntry M
  groupIndex : ℕ

/-- `to_db_ref`, resolved. -/
def Allocation.resolved (a : Allocation M) (pool : Pool M) : Option (TeamModelConfig M) :=
  resolveMemberModel pool (some a.entry.modelName) (some a.groupIndex)

variable {F : Type v} (accepts : F → String → Bool)

/-- `provider_filter is None or provider_filter(entry.api_provider)`. -/
def passes (filter : Option F) (e : ModelPoolEntry M) : Bool :=
  match filter with
  | none => true
  | some f => accepts f e.apiProvider

/-- `not model_name`. -/
def NoName (name : Option String) : Prop := name = none ∨ name = some ""

instance (name : Option String) : Decidable (NoName name) :=
  inferInstanceAs (Decidable (name = none ∨ name = some ""))

def roundRobinPlaces (pool : Pool M) (name : Option String) (filter : Option F) : List ℕ :=
  match filter with
  | none => List.range pool.objects.length
  | some f =>
    pool.places fun e => accepts f e.apiProvider && decide (NoName name ∨ name = e.modelName)

/-- `RoundRobinModelAllocator.allocate`. -/
def roundRobinAllocate (pool : Pool M) (index : ℕ) (name : Option String) (filter : Option F) :
    Option (Allocation M) × ℕ :=
  let filtered := roundRobinPlaces accepts pool name filter
  if filtered = [] then (none, index)
  else
    match filtered[index % filtered.length]? with
    | none => (none, index)
    | some place =>
      match pool.objects[place]? with
      | none => (none, index)
      | some o => (some ⟨place, o.2, groupIndexOf o.1 (pool.group o.2.modelName)⟩, index + 1)

def groupPlaces (pool : Pool M) (name : String) (filter : Option F) : List ℕ :=
  pool.places fun e => decide (e.modelName = name) && passes accepts filter e

/-- `ByModelNameAllocator.allocate`. -/
def byModelNameAllocate [DecidableEq M] (pool : Pool M) (innerIndexes : List (String × ℕ))
    (name : Option String) (filter : Option F) : Option (Allocation M) × List (String × ℕ) :=
  match name with
  | none => (none, innerIndexes)
  | some name =>
    if name = "" ∨ name ∉ pool.names then (none, innerIndexes)
    else
      let group := groupPlaces accepts pool name filter
      if group = [] then (none, innerIndexes)
      else
        let index := (assocGet? name innerIndexes).getD 0
        let innerIndexes := assocSet name (index + 1) innerIndexes
        match group[index % group.length]? with
        | none => (none, innerIndexes)
        | some place =>
          match pool.objects[place]? with
          | none => (none, innerIndexes)
          | some o => (some ⟨place, o.2, indexOfEqual o.2 (pool.group name)⟩, innerIndexes)

def routerPlaces (pool : Pool M) (name : Option String) (filter : Option F) : List ℕ :=
  match name with
  | none => pool.places fun e => passes accepts filter e
  | some name => groupPlaces accepts pool name filter

/-- `RouterAllocator.allocate`; the names of the pool are unique. -/
def routerAllocate (pool : Pool M) (name : Option String) (filter : Option F) :
    Option (Allocation M) :=
  match (routerPlaces accepts pool name filter).head? with
  | none => none
  | some place => (pool.objects[place]?).map fun o => ⟨place, o.2, 0⟩

/-- `model_pool_strategy`. -/
inductive Strategy where
  | roundRobin
  | byModelName
  | router
  | intelliRouter
  deriving DecidableEq

inductive Counters where
  | roundRobin (index : ℕ)
  | byModelName (innerIndexes : List (String × ℕ))
  | router
  deriving DecidableEq

/-- What `_validate_intelli_router_pool` asks of the entries. -/
structure IntelliRouter (M : Type u) where
  provider : String
  deployed : M → Bool

/-- `build_model_allocator`; nothing where the pool is empty, or the constructor raises. -/
def buildModelAllocator (intelli : IntelliRouter M) (pool : Pool M) (strategy : Strategy) :
    Option Counters :=
  if pool.objects = [] then none
  else
    match strategy with
    | .roundRobin => some (.roundRobin 0)
    | .byModelName => some (.byModelName (pool.names.map fun name => (name, 0)))
    | .router =>
      if (pool.objects.map fun o => o.2.modelName).Nodup then some .router else none
    | .intelliRouter =>
      if (pool.objects.map fun o => o.2.modelName).Nodup ∧
        (∀ o ∈ pool.objects, o.2.apiProvider = intelli.provider) ∧
        ∀ o ∈ pool.objects, intelli.deployed o.2.metadata = true then some .router
      else none

def allocate [DecidableEq M] (pool : Pool M) (c : Counters) (name : Option String)
    (filter : Option F) : Option (Allocation M) × Counters :=
  match c with
  | .roundRobin index =>
    let r := roundRobinAllocate accepts pool index name filter
    (r.1, .roundRobin r.2)
  | .byModelName innerIndexes =>
    let r := byModelNameAllocate accepts pool innerIndexes name filter
    (r.1, .byModelName r.2)
  | .router => (routerAllocate accepts pool name filter, .router)

variable {Digest : Type w} [DecidableEq Digest] (digest : List (String × String) → Digest)

def poolDigest (pool : Pool M) : Digest :=
  digest (pool.objects.map fun o => (o.2.modelName, o.2.apiBaseUrl))

/-- `state_dict`, with the `inner_indexes` that older versions wrote. -/
structure StateDict (Digest : Type w) where
  poolDigest : Digest
  index : Option ℕ := none
  counters : Option (List (String × ℕ)) := none
  innerIndexes : Option (List (String × ℕ)) := none

def stateDict (pool : Pool M) : Counters → StateDict Digest
  | .roundRobin index => { poolDigest := poolDigest digest pool, index := some index }
  | .byModelName innerIndexes =>
    { poolDigest := poolDigest digest pool, counters := some innerIndexes }
  | .router => { poolDigest := poolDigest digest pool }

/-- The loop over the records that are loaded; a name that is not in the pool is skipped. -/
def loadRecords (records innerIndexes : List (String × ℕ)) : List (String × ℕ) :=
  records.foldl (fun inner r =>
    if r.1 ∈ inner.map Prod.fst then assocSet r.1 r.2 inner else inner) innerIndexes

def loadStateDict (pool : Pool M) (state : StateDict Digest) : Counters → Counters
  | .roundRobin _ =>
    if state.poolDigest ≠ poolDigest digest pool then .roundRobin 0
    else .roundRobin (state.index.getD 0)
  | .byModelName innerIndexes =>
    if state.poolDigest ≠ poolDigest digest pool then
      .byModelName (pool.names.map fun name => (name, 0))
    else
      match state.counters, state.innerIndexes with
      | some records, _ => .byModelName (loadRecords records innerIndexes)
      | none, some legacy => .byModelName (loadRecords legacy innerIndexes)
      | none, none => .byModelName innerIndexes
  | .router => .router

/-- A call of an allocator, or a restart of the process with the same pool. -/
inductive AllocatorOp (F : Type v) where
  | call (name : Option String) (filter : Option F)
  | restart

variable [DecidableEq M] (intelli : IntelliRouter M) (pool : Pool M) (strategy : Strategy)

/-- One operation. A restart builds the allocator and loads what was stored. -/
def step (c : Counters) : AllocatorOp F → Counters
  | .call name filter => (allocate accepts pool c name filter).2
  | .restart =>
    match buildModelAllocator intelli pool strategy with
    | none => c
    | some fresh => loadStateDict digest pool (stateDict digest pool c) fresh

def outputs : Counters → List (AllocatorOp F) → List (Option (Allocation M))
  | _, [] => []
  | c, .call name filter :: ops =>
    (allocate accepts pool c name filter).1 ::
      outputs (step accepts digest intelli pool strategy c (.call name filter)) ops
  | c, .restart :: ops => outputs (step accepts digest intelli pool strategy c .restart) ops

end JiuwenSpec.Models

import Mathlib.Data.List.MinMax
import JiuwenSpec.Base.Run
import JiuwenSpec.Base.Dict

/-!
# Connector pools and their holders

The manager shares one pool among all calls for one configuration, counts the references to it
and, when it is full, evicts an unreferenced pool. The key of a pool is made of the
configuration alone, and `last_used` is read off the wall clock when a pool is made and off the
clock of the event loop when it is given out again.
Source: `core/common/clients/connector_pool.py`, `core/common/clients/ref_counted.py`.
-/

namespace JiuwenSpec.Clients

open Base Function List Dict

/-- Readings of `time.time()` and of the event loop's clock. -/
structure Clocks where
  wall : Nat
  loop : Nat

/-- `ConnectorPool` with the fields of `RefCountedResource`. -/
structure ConnectorPool (Config : Type) where
  poolType : String
  config : Config
  refCount : Int := 1
  closed : Bool := false
  createdAt : Nat
  lastUsed : Nat

namespace ConnectorPool

variable {Config : Type}

/-- `increment_ref`, of a pool that is not closed. -/
def incrementRef (p : ConnectorPool Config) (now : Clocks) : ConnectorPool Config :=
  { p with refCount := p.refCount + 1, lastUsed := now.loop }

def decrementRef (p : ConnectorPool Config) : ConnectorPool Config :=
  if p.closed then p else { p with refCount := p.refCount - 1 }

def close (p : ConnectorPool Config) : ConnectorPool Config :=
  if p.closed then p else { p.decrementRef with closed := true }

end ConnectorPool

/-- `ConnectorPoolManager`: the pools made so far are numbered, and `connectorPools` has the
number of the pool under each key. -/
structure ConnectorPoolManager (Key Config : Type) where
  connectorPools : Dict Key Nat
  objects : Nat → ConnectorPool Config
  made : Nat
  defaultConfig : Config
  maxPools : Nat
  providers : List String

namespace ConnectorPoolManager

variable {Key Config : Type} [DecidableEq Key] (generateKey : Config → Key)

def forceRemovePool (m : ConnectorPoolManager Key Config) (key : Key) :
    ConnectorPoolManager Key Config :=
  match m.connectorPools.get? key with
  | some i => { m with
      connectorPools := m.connectorPools.erase key
      objects := update m.objects i (m.objects i).close }
  | none => m

theorem forceRemovePool_of_get {m : ConnectorPoolManager Key Config} {key : Key} {i : Nat}
    (hkey : m.connectorPools.get? key = some i) :
    m.forceRemovePool key = { m with
      connectorPools := m.connectorPools.erase key
      objects := update m.objects i (m.objects i).close } := by
  rw [forceRemovePool, hkey]

def idlePools (m : ConnectorPoolManager Key Config) : List (Key × Nat) :=
  m.connectorPools.entries.filter fun e =>
    (m.objects e.2).refCount = 0 ∧ (m.objects e.2).closed = false

def evictOldestPool (m : ConnectorPoolManager Key Config) : ConnectorPoolManager Key Config :=
  match m.idlePools.argmin fun e => (m.objects e.2).lastUsed with
  | some e => m.forceRemovePool e.1
  | none =>
    match m.connectorPools.entries.argmin fun e => (m.objects e.2).createdAt with
    | some e => m.forceRemovePool e.1
    | none => m

/-- The end of `get_connector_pool`: make a pool, where its type is known. -/
def makePool (m : ConnectorPoolManager Key Config) (poolType : String) (config : Config)
    (now : Clocks) : ConnectorPoolManager Key Config × Option Nat :=
  let m := if m.maxPools ≤ m.connectorPools.entries.length then m.evictOldestPool else m
  if poolType ∈ m.providers then
    let pool : ConnectorPool Config :=
      { poolType := poolType, config := config, createdAt := now.wall, lastUsed := now.wall }
    ({ m with
      connectorPools := m.connectorPools.set (generateKey config) m.made
      objects := update m.objects m.made pool
      made := m.made + 1 }, some m.made)
  else (m, none)

/-- `get_connector_pool`: the pool that is given out, or the `ValueError` of an unknown type. -/
def getConnectorPool (m : ConnectorPoolManager Key Config) (poolType : String)
    (config : Option Config) (now : Clocks) : ConnectorPoolManager Key Config × Option Nat :=
  let config := config.getD m.defaultConfig
  match m.connectorPools.get? (generateKey config) with
  | some i =>
    if (m.objects i).closed then
      { m with connectorPools := m.connectorPools.erase (generateKey config) }.makePool
        generateKey poolType config now
    else
      ({ m with objects := update m.objects i ((m.objects i).incrementRef now) }, some i)
  | none => m.makePool generateKey poolType config now

/-- `release_connector_pool`; a release without a configuration does nothing. -/
def releaseConnectorPool (m : ConnectorPoolManager Key Config) (config : Option Config) :
    ConnectorPoolManager Key Config :=
  match config.bind fun c => m.connectorPools.get? (generateKey c) with
  | some i => { m with objects := update m.objects i (m.objects i).decrementRef }
  | none => m

/-- `close_connector_pool` without `force`. -/
def closeConnectorPool (m : ConnectorPoolManager Key Config) (config : Option Config) :
    ConnectorPoolManager Key Config :=
  match config with
  | none => m
  | some c =>
    match m.connectorPools.get? (generateKey c) with
    | some i =>
      if (m.objects i).closed ∨ (m.objects i).refCount = 0 then
        m.forceRemovePool (generateKey c)
      else m
    | none => m

end ConnectorPoolManager

/-- What a caller asked for, and the pool it was given. -/
structure Hold (Config : Type) where
  poolType : String
  config : Config
  pool : Nat
  deriving DecidableEq

inductive PoolCall (Config : Type) where
  | get (poolType : String) (config : Option Config) (now : Clocks)
  | release (hold : Hold Config) (config : Option Config)
  | close (config : Option Config)

/-- The manager and its callers: who holds what, and in which turn a pool was last given out. -/
structure PoolClients (Key Config : Type) extends ConnectorPoolManager Key Config where
  holds : List (Hold Config)
  turn : Nat
  usedAt : Nat → Nat

namespace PoolClients

open ConnectorPoolManager

variable {Key Config : Type} [DecidableEq Key] (generateKey : Config → Key)

def init (defaultConfig : Config) (maxPools : Nat) (providers : List String)
    (pool : ConnectorPool Config) : PoolClients Key Config where
  connectorPools := Dict.empty
  objects _ := pool
  made := 0
  defaultConfig := defaultConfig
  maxPools := maxPools
  providers := providers
  holds := []
  turn := 0
  usedAt _ := 0

def step [DecidableEq Config] (s : PoolClients Key Config) :
    PoolCall Config → PoolClients Key Config
  | .get poolType config now =>
    match s.getConnectorPool generateKey poolType config now with
    | (m, some i) =>
      { toConnectorPoolManager := m
        holds := ⟨poolType, config.getD s.defaultConfig, i⟩ :: s.holds
        turn := s.turn + 1
        usedAt := update s.usedAt i s.turn }
    | (m, none) => { s with toConnectorPoolManager := m }
  | .release hold config =>
    { s with
      toConnectorPoolManager := s.releaseConnectorPool generateKey config
      holds := s.holds.erase hold }
  | .close config => { s with toConnectorPoolManager := s.closeConnectorPool generateKey config }

/-- The references to a pool that were acquired and not released. -/
def holders (s : PoolClients Key Config) (i : Nat) : Nat := s.holds.countP fun h => h.pool = i

def inUse (s : PoolClients Key Config) : List (Key × Nat) :=
  s.connectorPools.entries.filter fun e => s.holders e.2 ≠ 0

/-- Calls for registered types while fewer than `max_pools` pools are in use; who releases a pool
has acquired it. -/
def Plays (s : PoolClients Key Config) : PoolCall Config → Prop
  | .get poolType _ _ => poolType ∈ s.providers ∧ s.inUse.length < s.maxPools
  | .release hold config => hold ∈ s.holds ∧ config.getD s.defaultConfig = hold.config
  | .close _ => True

instance [DecidableEq Config] (s : PoolClients Key Config) (call : PoolCall Config) :
    Decidable (s.Plays call) :=
  match call with
  | .get .. => inferInstanceAs (Decidable (_ ∧ _))
  | .release .. => inferInstanceAs (Decidable (_ ∧ _))
  | .close _ => .isTrue trivial

/-- A pool that is given out again is of the type and the configuration asked for; where a pool
is evicted, the stamps of the unreferenced pools follow their use; and a release names its
configuration. -/
def Fits (s : PoolClients Key Config) : PoolCall Config → Prop
  | .get poolType config _ =>
    (∀ i, s.connectorPools.get? (generateKey (config.getD s.defaultConfig)) = some i →
      (s.objects i).poolType = poolType ∧ (s.objects i).config = config.getD s.defaultConfig) ∧
    (s.connectorPools.get? (generateKey (config.getD s.defaultConfig)) = none →
      s.maxPools ≤ s.connectorPools.entries.length →
      ∀ a ∈ s.idlePools, ∀ b ∈ s.idlePools, s.usedAt a.2 < s.usedAt b.2 →
        (s.objects a.2).lastUsed < (s.objects b.2).lastUsed)
  | .release _ config => config ≠ none
  | .close _ => True

/-- Every holder has an open pool of what it asked for, and every pool is referenced as often as
it is held. -/
structure Kept (s : PoolClients Key Config) : Prop where
  held : ∀ h ∈ s.holds, (s.objects h.pool).closed = false ∧
    (s.objects h.pool).poolType = h.poolType ∧ (s.objects h.pool).config = h.config
  counted : ∀ key i, s.connectorPools.get? key = some i →
    (s.objects i).refCount = s.holders i

/-- A pool that a request takes out of the manager is not referenced, and no other such pool was
given out longer ago. -/
def EvictsOldest [DecidableEq Config] (s : PoolClients Key Config) (poolType : String)
    (config : Option Config) (now : Clocks) : Prop :=
  ∀ key i, s.connectorPools.get? key = some i →
    (step generateKey s (.get poolType config now)).connectorPools.get? key ≠ some i →
    s.holders i = 0 ∧ ∀ key' j, s.connectorPools.get? key' = some j → s.holders j = 0 →
      s.usedAt i ≤ s.usedAt j

/-- The pools of the manager are open, under the keys of their configurations, and referenced as
often as they are held; the holders' pools are among them. -/
structure Inv (s : PoolClients Key Config) : Prop where
  entry : ∀ key i, s.connectorPools.get? key = some i → i < s.made ∧
    (s.objects i).closed = false ∧ generateKey (s.objects i).config = key ∧
      (s.objects i).refCount = s.holders i
  hold : ∀ h ∈ s.holds, (s.objects h.pool).poolType = h.poolType ∧
    (s.objects h.pool).config = h.config ∧
      s.connectorPools.get? (generateKey h.config) = some h.pool

variable {generateKey} {s : PoolClients Key Config} {key : Key} {i : Nat} {poolType : String}
  {config : Option Config} {now : Clocks}

theorem Inv.kept (h : Inv generateKey s) : s.Kept where
  held hold hhold :=
    have ⟨htype, hconfig, hkey⟩ := h.hold hold hhold
    ⟨(h.entry _ _ hkey).2.1, htype, hconfig⟩
  counted key i hkey := (h.entry key i hkey).2.2.2

theorem Inv.held_lt (h : Inv generateKey s) {hold : Hold Config} (hhold : hold ∈ s.holds) :
    hold.pool < s.made :=
  (h.entry _ _ (h.hold hold hhold).2.2).1

omit [DecidableEq Key] in
theorem pool_ne_of_holders (h0 : s.holders i = 0) {hold : Hold Config} (hhold : hold ∈ s.holds) :
    hold.pool ≠ i := by
  simpa using countP_eq_zero.mp h0 hold hhold

omit [DecidableEq Key] in
theorem holders_cons {t : PoolClients Key Config} {hold : Hold Config}
    (ht : t.holds = hold :: s.holds) (i : Nat) :
    t.holders i = s.holders i + if hold.pool = i then 1 else 0 := by
  rw [holders, ht, countP_cons, holders]
  simp

theorem Inv.remove (h : Inv generateKey s) (hkey : s.connectorPools.get? key = some i)
    (h0 : s.holders i = 0) :
    Inv generateKey { s with toConnectorPoolManager := s.forceRemovePool key } := by
  rw [forceRemovePool_of_get hkey]
  refine ⟨fun key' j hj => ?_, fun hold hhold => ?_⟩
  · dsimp only at hj ⊢
    rw [get?_erase] at hj
    split at hj
    · cases hj
    · next hne =>
      have hold := h.entry key' j hj
      have hji : j ≠ i := by
        rintro rfl
        exact hne (hold.2.2.1.symm.trans (h.entry key j hkey).2.2.1)
      rw [update_of_ne hji]
      exact hold
  · have hne := pool_ne_of_holders h0 hhold
    obtain ⟨htype, hconfig, hget⟩ := h.hold hold hhold
    dsimp only
    rw [update_of_ne hne, get?_erase, if_neg]
    · exact ⟨htype, hconfig, hget⟩
    · intro heq
      rw [heq, hkey] at hget
      exact hne (Option.some.inj hget).symm

theorem Inv.mem_idlePools (h : Inv generateKey s) {e : Key × Nat} :
    e ∈ s.idlePools ↔ s.connectorPools.get? e.1 = some e.2 ∧ s.holders e.2 = 0 := by
  rw [idlePools, mem_filter, ← get?_eq_some_iff]
  refine and_congr_right fun hget => ?_
  obtain ⟨-, hopen, -, hcount⟩ := h.entry e.1 e.2 hget
  simp [hopen, hcount]

theorem Inv.evict (h : Inv generateKey s) (huse : s.inUse.length < s.maxPools)
    (hfull : s.maxPools ≤ s.connectorPools.entries.length) :
    ∃ e ∈ s.idlePools, s.evictOldestPool = s.forceRemovePool e.1 ∧
      ∀ e' ∈ s.idlePools, (s.objects e.2).lastUsed ≤ (s.objects e'.2).lastUsed := by
  rw [evictOldestPool]
  cases hmin : s.idlePools.argmin fun e => (s.objects e.2).lastUsed with
  | some e =>
    refine ⟨e, argmin_mem hmin, rfl, fun e' he' => ?_⟩
    exact le_of_mem_argmin (f := fun e => (s.objects e.2).lastUsed) he' hmin
  | none =>
    have hidle := argmin_eq_none.mp hmin
    have hall : s.inUse = s.connectorPools.entries := by
      refine filter_eq_self.mpr fun e he => decide_eq_true fun h0 => ?_
      have hmem := h.mem_idlePools.mpr ⟨get?_eq_some_iff.mpr he, h0⟩
      rw [hidle] at hmem
      cases hmem
    rw [hall] at huse
    omega

theorem Inv.reference (h : Inv generateKey s) (hkey : s.connectorPools.get? key = some i)
    {p : ConnectorPool Config} (hopen : p.closed = false)
    (htype : p.poolType = (s.objects i).poolType) (hconfig : p.config = (s.objects i).config)
    {holds : List (Hold Config)} {turn : Nat} {usedAt : Nat → Nat}
    (hcount : ∀ j, (holds.countP fun h => h.pool = j : Int) =
      if j = i then p.refCount else s.holders j)
    (hholds : ∀ h ∈ holds, h ∈ s.holds ∨ h = ⟨p.poolType, p.config, i⟩) :
    Inv generateKey { s with
      objects := update s.objects i p, holds := holds, turn := turn, usedAt := usedAt } := by
  refine ⟨fun key' j hj => ?_, fun hold hhold => ?_⟩
  · obtain ⟨hlt, hopen', hconfig', hcount'⟩ := h.entry key' j hj
    rw [holders, hcount]
    dsimp only
    by_cases hji : j = i
    · subst hji
      rw [update_self, if_pos rfl]
      exact ⟨hlt, hopen, hconfig ▸ hconfig', rfl⟩
    · rw [update_of_ne hji, if_neg hji]
      exact ⟨hlt, hopen', hconfig', hcount'⟩
  · dsimp only
    rcases hholds hold hhold with hold' | rfl
    · have hheld := h.hold hold hold'
      by_cases hpool : hold.pool = i
      · rw [hpool] at hheld ⊢
        rw [update_self, htype, hconfig]
        exact hheld
      · rw [update_of_ne hpool]
        exact hheld
    · rw [update_self]
      exact ⟨rfl, rfl, hconfig ▸ (h.entry key i hkey).2.2.1 ▸ hkey⟩

theorem Inv.again (h : Inv generateKey s) (hkey : s.connectorPools.get? key = some i)
    (now : Clocks) :
    Inv generateKey
      { s with
        objects := update s.objects i ((s.objects i).incrementRef now)
        holds := ⟨(s.objects i).poolType, (s.objects i).config, i⟩ :: s.holds
        turn := s.turn + 1
        usedAt := update s.usedAt i s.turn } := by
  obtain ⟨-, hopen, -, hcount⟩ := h.entry key i hkey
  refine h.reference hkey (by exact hopen) (by rfl) (by rfl) (fun j => ?_)
    fun hold hhold => (mem_cons.mp hhold).symm
  by_cases hji : j = i
  · subst hji
    simp [ConnectorPool.incrementRef, hcount, holders]
  · simp [hji, Ne.symm hji, holders]

theorem Inv.make (h : Inv generateKey s) {config : Config}
    (hnone : s.connectorPools.get? (generateKey config) = none) (now : Clocks) :
    Inv generateKey
      { s with
        connectorPools := s.connectorPools.set (generateKey config) s.made
        objects := update s.objects s.made ⟨poolType, config, 1, false, now.wall, now.wall⟩
        made := s.made + 1
        holds := ⟨poolType, config, s.made⟩ :: s.holds
        turn := s.turn + 1
        usedAt := update s.usedAt s.made s.turn } := by
  have hfresh : s.holders s.made = 0 :=
    countP_eq_zero.mpr fun hold hhold => by simpa using (h.held_lt hhold).ne
  refine ⟨fun key' j hj => ?_, fun hold hhold => ?_⟩
  · rw [holders_cons rfl]
    dsimp only at hj ⊢
    rw [get?_set] at hj
    split at hj
    · next hkey =>
      cases hj
      rw [update_self, if_pos rfl, hfresh]
      exact ⟨Nat.lt_succ_self _, rfl, hkey.symm, rfl⟩
    · obtain ⟨hlt, hrest⟩ := h.entry key' j hj
      rw [update_of_ne hlt.ne, if_neg hlt.ne']
      exact ⟨hlt.trans (Nat.lt_succ_self _), hrest⟩
  · dsimp only
    rcases mem_cons.mp hhold with rfl | hhold
    · rw [update_self]
      exact ⟨rfl, rfl, get?_set_self ..⟩
    · obtain ⟨htype, hconfig, hget⟩ := h.hold hold hhold
      rw [update_of_ne (h.held_lt hhold).ne, get?_set_of_ne]
      · exact ⟨htype, hconfig, hget⟩
      · intro heq
        rw [heq, hnone] at hget
        cases hget

theorem Inv.get_cases (h : Inv generateKey s) (hplays : s.Plays (.get poolType config now)) :
    (∃ i, s.connectorPools.get? (generateKey (config.getD s.defaultConfig)) = some i ∧
      s.getConnectorPool generateKey poolType config now = ({ s.toConnectorPoolManager with
        objects := update s.objects i ((s.objects i).incrementRef now) }, some i)) ∨
    s.connectorPools.get? (generateKey (config.getD s.defaultConfig)) = none ∧
      ∃ m, (m = s.toConnectorPoolManager ∨ s.maxPools ≤ s.connectorPools.entries.length ∧
        ∃ e ∈ s.idlePools, m = s.forceRemovePool e.1 ∧
          ∀ e' ∈ s.idlePools, (s.objects e.2).lastUsed ≤ (s.objects e'.2).lastUsed) ∧
      s.getConnectorPool generateKey poolType config now = ({ m with
        connectorPools := m.connectorPools.set (generateKey (config.getD s.defaultConfig)) m.made
        objects := update m.objects m.made
          ⟨poolType, config.getD s.defaultConfig, 1, false, now.wall, now.wall⟩
        made := m.made + 1 }, some m.made) := by
  obtain ⟨htype, huse⟩ := hplays
  rw [getConnectorPool]
  cases hget : s.connectorPools.get? (generateKey (config.getD s.defaultConfig)) with
  | some i =>
    refine .inl ⟨i, rfl, ?_⟩
    dsimp only
    rw [(h.entry _ i hget).2.1]
    rfl
  | none =>
    refine .inr ⟨rfl, ?_⟩
    dsimp only
    rw [makePool]
    by_cases hfull : s.maxPools ≤ s.connectorPools.entries.length
    · obtain ⟨e, he, hevict, hmin⟩ := h.evict huse hfull
      refine ⟨s.forceRemovePool e.1, .inr ⟨hfull, e, he, rfl, hmin⟩, ?_⟩
      have hproviders : (s.forceRemovePool e.1).providers = s.providers := by
        rw [forceRemovePool]
        split <;> rfl
      rw [if_pos hfull, hevict]
      dsimp only
      rw [hproviders, if_pos htype]
    · refine ⟨_, .inl rfl, ?_⟩
      rw [if_neg hfull]
      dsimp only
      rw [if_pos htype]

variable [DecidableEq Config]

theorem Inv.released (h : Inv generateKey s) {hold : Hold Config} (hhold : hold ∈ s.holds) :
    Inv generateKey { s with
      objects := update s.objects hold.pool (s.objects hold.pool).decrementRef
      holds := s.holds.erase hold } := by
  have hkey := (h.hold hold hhold).2.2
  obtain ⟨-, hopen, -, hcount⟩ := h.entry _ _ hkey
  rw [ConnectorPool.decrementRef, if_neg (by rw [hopen]; exact Bool.false_ne_true)]
  refine h.reference hkey (by exact hopen) (by rfl) (by rfl) (fun j => ?_)
    fun _ hmem => .inl (mem_of_mem_erase hmem)
  have herase := (perm_cons_erase hhold).countP_eq fun h => h.pool = j
  rw [countP_cons] at herase
  by_cases hji : j = hold.pool
  · subst hji
    simp [hcount, holders, herase]
  · simp [hji, Ne.symm hji, holders, herase]

theorem Inv.step (h : Inv generateKey s) {call : PoolCall Config} (hplays : s.Plays call)
    (hfits : s.Fits generateKey call) : Inv generateKey (step generateKey s call) := by
  cases call with
  | get poolType config now =>
    rw [PoolClients.step]
    rcases h.get_cases hplays with ⟨i, hget, heq⟩ | ⟨hnone, m, hm, heq⟩
    · have hconfig := hfits.1 i hget
      rw [heq, ← hconfig.1, ← hconfig.2]
      exact h.again hget now
    · rw [heq]
      rcases hm with rfl | ⟨-, e, he, rfl, -⟩
      · exact h.make hnone now
      · obtain ⟨hget, h0⟩ := h.mem_idlePools.mp he
        have hremoved := h.remove hget h0
        rw [forceRemovePool_of_get hget] at hremoved ⊢
        have hnone' : (s.connectorPools.erase e.1).get?
            (generateKey (config.getD s.defaultConfig)) = none := by
          rw [get?_erase, hnone, ite_self]
        exact hremoved.make hnone' now
  | release hold config =>
    obtain ⟨hhold, hconfig⟩ := hplays
    cases config with
    | none => exact absurd rfl hfits
    | some config =>
      cases hconfig
      have hreleased := h.released hhold
      rw [PoolClients.step, ConnectorPoolManager.releaseConnectorPool, Option.bind_some,
        show s.connectorPools.get? (generateKey hold.config) = some hold.pool from
          (h.hold hold hhold).2.2]
      exact hreleased
  | close config =>
    rw [PoolClients.step]
    unfold closeConnectorPool
    cases config with
    | none => exact h
    | some config =>
      dsimp only
      cases hget : s.connectorPools.get? (generateKey config) with
      | none => exact h
      | some i =>
        dsimp only
        split
        · next hidle =>
          obtain ⟨-, hopen, -, hcount⟩ := h.entry _ i hget
          rw [hopen, hcount] at hidle
          exact h.remove hget (by simpa using hidle)
        · exact h

theorem Inv.evictsOldest (h : Inv generateKey s) (hplays : s.Plays (.get poolType config now))
    (hfits : s.Fits generateKey (.get poolType config now)) :
    s.EvictsOldest generateKey poolType config now := by
  intro key i hkey hgone
  rw [PoolClients.step] at hgone
  rcases h.get_cases hplays with ⟨j, hget, heq⟩ | ⟨hnone, m, hm, heq⟩
  · rw [heq] at hgone
    exact absurd hkey hgone
  · have hne : key ≠ generateKey (config.getD s.defaultConfig) := by
      rintro rfl
      rw [hnone] at hkey
      cases hkey
    rw [heq] at hgone
    dsimp only at hgone
    rw [get?_set_of_ne _ _ hne] at hgone
    rcases hm with rfl | ⟨hfull, e, he, rfl, hmin⟩
    · exact absurd hkey hgone
    · obtain ⟨hget, h0⟩ := h.mem_idlePools.mp he
      rw [forceRemovePool_of_get hget, get?_erase] at hgone
      by_cases hk : key = e.1
      · cases hget.symm.trans (hk ▸ hkey)
        refine ⟨h0, fun key' j hj h0' => ?_⟩
        by_contra hlt
        have hlater := Nat.not_le.mp hlt
        have hidle := h.mem_idlePools.mpr (⟨hj, h0'⟩ : s.connectorPools.get? (key', j).1 = _ ∧ _)
        exact (hmin _ hidle).not_gt (hfits.2 hnone hfull _ hidle e he hlater)
      · rw [if_neg hk] at hgone
        exact absurd hkey hgone

variable {defaultConfig : Config} {maxPools : Nat} {providers : List String}
  {pool : ConnectorPool Config}

omit [DecidableEq Config] in
theorem inv_init :
    Inv generateKey (init defaultConfig maxPools providers pool : PoolClients Key Config) where
  entry _ _ hget := nomatch hget
  hold _ hhold := nomatch hhold

def twoPools : PoolClients Nat Nat :=
  init 0 2 ["http", "grpc"] ⟨"", 0, 0, true, 0, 0⟩

def heldOnce : List (PoolCall Nat) :=
  [.get "http" none ⟨1000, 1⟩, .release ⟨"http", 0, 0⟩ (some 0)]

/-- Both pools are given out and released, the first one twice. -/
def firstAgain : List (PoolCall Nat) :=
  [.get "http" (some 0) ⟨1000, 1⟩, .release ⟨"http", 0, 0⟩ (some 0),
    .get "http" (some 1) ⟨1001, 2⟩, .release ⟨"http", 1, 1⟩ (some 1),
    .get "http" (some 0) ⟨1002, 3⟩, .release ⟨"http", 0, 0⟩ (some 0)]

end PoolClients

end JiuwenSpec.Clients

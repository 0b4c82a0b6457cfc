import JiuwenSpec.Session.Restart

/-!
# Removing sessions, and the active session of a scope

Sessions are removed one by one, with their scope, or when they are inactive. Three records say
which session of a scope is active: the metadata of the scope, the flags of its sessions, and the
cached objects.
Source: `core/session/session_controller/session_controller.py`, `schema.py`.
-/

namespace JiuwenSpec.Session

open Base

/-- `remove_session` of the metadata: the first session of the id goes. -/
def ScopeSessionsMeta.removeSession (m : ScopeSessionsMeta) (id : Text) : ScopeSessionsMeta :=
  if (m.getSession id).isSome then
    { m with
      sessions := m.sessions.eraseP fun session => session.sessionId = id
      activeSession := if m.activeSession = some id then none else m.activeSession }
  else m

namespace Sessions

variable (h : Host)

def dropSession (s : Sessions) (id : Text) : Sessions :=
  { s with sessionCache := assocDelete id s.sessionCache, dirs := assocDelete id s.dirs }

def removeFrom (id : Text) (s : Sessions × Bool) (scope : SessionScope) : Sessions × Bool :=
  match assocGet? scope s.1.metaMap with
  | none => s
  | some m =>
    if (m.getSession id).isSome then
      ({ s.1.dropSession id with metaMap := assocSet scope (m.removeSession id) s.1.metaMap }, true)
    else s

def removeSession (s : Sessions) (id : Text) (scope : Option SessionScope) : Sessions :=
  let scopes := match scope with
    | some scope => [scope]
    | none => s.metaMap.map Prod.fst
  let removed := scopes.foldl (removeFrom id) (s, false)
  if removed.2 then removed.1.writeMeta h else removed.1

def removeScopeSessions (s : Sessions) (scope : SessionScope) : Sessions :=
  match assocGet? scope s.metaMap with
  | none => s
  | some m =>
    { m.ids.foldl dropSession s with metaMap := assocDelete scope s.metaMap }.writeMeta h

/-- `cleanup_scope_inactive_sessions`; an unknown scope is a `ValueError`. -/
def cleanupScopeInactiveSessions (s : Sessions) (scope : SessionScope) : Except Text Sessions :=
  match assocGet? scope s.metaMap with
  | none => .error ("Session scope ".toList ++ scope.text ++ " not found".toList)
  | some m =>
    let inactive := (m.sessions.filter fun session => !session.isActive).map SessionMeta.sessionId
    if inactive = [] then .ok s
    else .ok ({ inactive.foldl dropSession s with
      metaMap := assocSet scope (inactive.foldl ScopeSessionsMeta.removeSession m)
        s.metaMap }.writeMeta h)

inductive Change where
  | create (scope : SessionScope) (id : Text)
  | activate (id : Text)
  | remove (id : Text) (scope : Option SessionScope)
  | removeScope (scope : SessionScope)
  | cleanup (scope : SessionScope)
  | load (activeOnly : Bool)

/-- A call at the time its clock reads; one that raises changes nothing. -/
def change (s : Sessions) (op : Nat × Change) : Sessions :=
  match op.2 with
  | .create scope id =>
    match s.createIfNotExists h scope id op.1 with
    | .ok (_, t) => t
    | .error _ => s
  | .activate id =>
    match s.activateSession h id op.1 with
    | .ok t => t
    | .error _ => s
  | .remove id scope => s.removeSession h id scope
  | .removeScope scope => s.removeScopeSessions h scope
  | .cleanup scope =>
    match s.cleanupScopeInactiveSessions h scope with
    | .ok t => t
    | .error _ => s
  | .load activeOnly => s.load activeOnly

/-- A new controller over the metadata that an earlier one wrote, if any. -/
def start (disk : Option (List (SessionScope × ScopeSessionsMeta)))
    (dirs : List (Text × SessionDir)) : Sessions :=
  ⟨[], [], disk.map (writeMetaFile h.agentId), dirs⟩

end Sessions

/-- The metadata of a scope: distinct ids, and the flags name the active session, if any. -/
structure ScopeSessionsMeta.Agrees (m : ScopeSessionsMeta) : Prop where
  distinct : m.ids.Nodup
  valid : m.Valid
  flags : ∀ session ∈ m.sessions,
    session.isActive = true ↔ m.activeSession = some session.sessionId

/-- The metadata of all scopes: each agrees, and no id is in two scopes. -/
structure Coherent (metaMap : List (SessionScope × ScopeSessionsMeta)) : Prop where
  scopes : (metaMap.map Prod.fst).Nodup
  agrees : ∀ scope m, assocGet? scope metaMap = some m → m.Agrees
  unique : ∀ scope m scope' m' id, assocGet? scope metaMap = some m →
    assocGet? scope' metaMap = some m' → id ∈ m.ids → id ∈ m'.ids → scope = scope'

def Cached (metaMap : List (SessionScope × ScopeSessionsMeta))
    (cache : List (Text × ChainSession)) : Prop :=
  ∀ id x, assocGet? id cache = some x → ∃ m, assocGet? x.sessionScope metaMap = some m ∧
    id ∈ m.ids ∧ (x.isActive = true ↔ m.activeSession = some id)

def Readable (h : Host) (metaMap : List (SessionScope × ScopeSessionsMeta)) : Prop :=
  ∀ e ∈ metaMap, SessionScopeKey.Separable ⟨h.agentId, e.1⟩

namespace Sessions

structure Consistent (s : Sessions) : Prop where
  coherent : Coherent s.metaMap
  cached : Cached s.metaMap s.sessionCache

def Fits (h : Host) (s : Sessions) (op : Nat × Change) : Prop :=
  match op.2 with
  | .create scope id =>
    (assocGet? id s.sessionCache).isSome ∨ (∃ e ∈ s.metaMap, (e.2.getSession id).isSome) ∨
    match (assocGet? scope s.metaMap).bind ScopeSessionsMeta.getActiveSession with
    -- The active session that is returned is cached.
    | some active => (assocGet? active.sessionId s.sessionCache).isSome
    -- No cached session of the scope is active.
    | none => ∀ j x, assocGet? j s.sessionCache = some x → x.sessionScope = scope →
        x.isActive = false
  -- No other cached session of the scope is active.
  | .activate id => ∀ scope, s.scopeOf id = some scope → ∀ j x,
      assocGet? j s.sessionCache = some x → j ≠ id → x.sessionScope = scope → x.isActive = false
  -- The scopes are read back, and no active session is loaded that is not cached.
  | .load activeOnly => Readable h s.metaMap ∧ ∀ file, s.metaFile = some file →
      ∀ e ∈ loadMetaFile file, ∀ id ∈ if activeOnly then e.2.activeId.toList else e.2.ids,
        (assocGet? id s.sessionCache).isSome ∨ e.2.activeSession ≠ some id
  | _ => True

end Sessions

end JiuwenSpec.Session

/-!
## The metadata of scopes agrees

Additions, activations and removals keep the flags of the sessions of a scope in agreement with its
active session, and writes of single scopes keep the ids of all scopes apart.
Source: `core/session/session_controller/schema.py`.
-/

namespace JiuwenSpec.Session

open Base List

namespace ScopeSessionsMeta

variable {m : ScopeSessionsMeta} {id : Text}

theorem getSession_isSome_iff : (m.getSession id).isSome ↔ id ∈ m.ids := by
  rw [getSession, List.find?_isSome, ids, mem_map]
  simp only [decide_eq_true_eq]

theorem replaceF_eq_map {sessions : List SessionMeta} (f : SessionMeta → SessionMeta)
    (hn : (sessions.map SessionMeta.sessionId).Nodup) :
    (sessions.replaceF fun session => if session.sessionId = id then some (f session) else none) =
      sessions.map fun session => if session.sessionId = id then f session else session := by
  induction sessions with
  | nil => rfl
  | cons session sessions ih =>
    rw [map_cons, nodup_cons] at hn
    rw [map_cons]
    by_cases hid : session.sessionId = id
    · have hrest : sessions.map (fun session =>
          if session.sessionId = id then f session else session) = sessions := by
        refine (map_congr_left fun other hother => if_neg fun hother' => ?_).trans
          (map_id _)
        exact hn.1 ((hid.trans hother'.symm) ▸ mem_map_of_mem hother)
      rw [List.replaceF, if_pos hid, if_pos hid, hrest]
    · rw [List.replaceF, if_neg hid, if_neg hid, ih hn.2]

theorem eraseP_eq_filter {sessions : List SessionMeta}
    (hn : (sessions.map SessionMeta.sessionId).Nodup) :
    (sessions.eraseP fun session => session.sessionId = id) =
      sessions.filter fun session => session.sessionId ≠ id := by
  induction sessions with
  | nil => rfl
  | cons session sessions ih =>
    rw [map_cons, nodup_cons] at hn
    by_cases hid : session.sessionId = id
    · rw [eraseP_cons_of_pos (by simpa using hid), filter_cons_of_neg (by simp [hid]),
        eq_comm, filter_eq_self]
      intro other hother
      refine decide_eq_true ?_
      rintro rfl
      exact hn.1 (hid ▸ mem_map_of_mem hother)
    · rw [eraseP_cons_of_neg (by simp [hid]), filter_cons_of_pos (by simp [hid]), ih hn.2]

theorem mem_sortSessions {session : SessionMeta} :
    session ∈ m.sortSessions.sessions ↔ session ∈ m.sessions :=
  (perm_insertionSort _ _).mem_iff

theorem nodup_ids_sortSessions : m.sortSessions.ids.Nodup ↔ m.ids.Nodup :=
  ((perm_insertionSort _ _).map _).nodup_iff

theorem agrees_empty (key : Text) : Agrees ⟨key, none, []⟩ where
  distinct := nodup_nil
  valid := fun _ h => by cases h
  flags := fun _ h => by cases h

theorem Agrees.addSession (hm : m.Agrees) {session : SessionMeta}
    (hactive : session.isActive = true) (hid : session.sessionId ∉ m.ids) :
    (m.addSession session).Agrees ∧
      (m.addSession session).activeSession = some session.sessionId := by
  have hadd : m.addSession session = { m.deactivateAllSessions with
      activeSession := some session.sessionId
      sessions := m.deactivateAllSessions.sessions ++ [session] : ScopeSessionsMeta
      }.sortSessions := by
    rw [ScopeSessionsMeta.addSession, if_pos hactive]
  refine ⟨⟨?_, valid_addSession hm.valid session, fun other hother => ?_⟩, by rw [hadd]; rfl⟩
  · rw [hadd, nodup_ids_sortSessions, ids, map_append]
    have hids := m.ids_deactivateAllSessions
    rw [ids] at hids
    rw [hids]
    exact hm.distinct.append (nodup_singleton _) (by simpa using hid)
  · rw [hadd, mem_sortSessions, mem_append, mem_singleton] at hother
    rw [hadd]
    change _ ↔ some session.sessionId = some other.sessionId
    rcases hother with hother | rfl
    · obtain ⟨old, hold, rfl⟩ := mem_map.mp hother
      refine iff_of_false Bool.false_ne_true fun heq => hid ?_
      rw [Option.some.inj heq]
      exact mem_map.mpr ⟨old, hold, rfl⟩
    · exact iff_of_true hactive rfl

theorem Agrees.activateSession (hm : m.Agrees) {m' : ScopeSessionsMeta} {now : Nat}
    (h : m.activateSession id now = some m') : m'.Agrees ∧ m'.activeSession = some id := by
  obtain ⟨session, -, hm'⟩ := Option.map_eq_some_iff.mp h
  have hn : (m.deactivateAllSessions.sessions.map SessionMeta.sessionId).Nodup := by
    have hids := m.ids_deactivateAllSessions
    rw [ids] at hids
    rw [hids]
    exact hm.distinct
  rw [replaceF_eq_map _ hn] at hm'
  have hactive : m'.activeSession = some id := by rw [← hm']; rfl
  refine ⟨⟨?_, valid_activateSession h, fun other hother => ?_⟩, hactive⟩
  · rw [← hm', nodup_ids_sortSessions, ids, map_map]
    convert hn using 1
    refine map_congr_left fun other _ => ?_
    rw [Function.comp_apply]
    split <;> rfl
  · rw [hactive]
    rw [← hm', mem_sortSessions, mem_map] at hother
    obtain ⟨changed, hchanged, rfl⟩ := hother
    obtain ⟨old, -, rfl⟩ := mem_map.mp hchanged
    by_cases hid : old.sessionId = id
    · simp [hid]
    · simp [hid, Ne.symm hid]

theorem removeSession_eq (hm : m.Agrees) (id : Text) : m.removeSession id =
    { m with
      sessions := m.sessions.filter fun session => session.sessionId ≠ id
      activeSession := if m.activeSession = some id then none else m.activeSession } := by
  rw [removeSession]
  split
  · rw [eraseP_eq_filter hm.distinct]
  · next hnone =>
    rw [getSession_isSome_iff] at hnone
    have hfilter : (m.sessions.filter fun session => session.sessionId ≠ id) = m.sessions := by
      rw [filter_eq_self]
      intro session hsession
      refine decide_eq_true ?_
      rintro rfl
      exact hnone (mem_map_of_mem hsession)
    have hactive : ¬ m.activeSession = some id := fun hactive => hnone (hm.valid id hactive)
    rw [hfilter, if_neg hactive]

theorem mem_ids_removeSession (hm : m.Agrees) {other : Text} :
    other ∈ (m.removeSession id).ids ↔ other ∈ m.ids ∧ other ≠ id := by
  rw [removeSession_eq hm]
  simp only [ids, mem_map, mem_filter, decide_eq_true_eq]
  constructor
  · rintro ⟨session, ⟨hsession, hne⟩, rfl⟩
    exact ⟨⟨session, hsession, rfl⟩, hne⟩
  · rintro ⟨⟨session, hsession, rfl⟩, hne⟩
    exact ⟨session, ⟨hsession, hne⟩, rfl⟩

theorem active_removeSession (hm : m.Agrees) {other : Text} (hne : other ≠ id) :
    (m.removeSession id).activeSession = some other ↔ m.activeSession = some other := by
  rw [removeSession_eq hm]
  dsimp only
  split
  · next hactive => simp [hactive, Ne.symm hne]
  · rfl

theorem Agrees.removeSession (hm : m.Agrees) (id : Text) : (m.removeSession id).Agrees where
  distinct := by
    rw [removeSession_eq hm]
    exact hm.distinct.sublist (filter_sublist.map _)
  valid := by
    intro other hother
    have hne : other ≠ id := by
      rintro rfl
      rw [removeSession_eq hm, Option.mem_def] at hother
      dsimp only at hother
      split at hother
      · cases hother
      · next hnot => exact hnot hother
    exact (mem_ids_removeSession hm).mpr
      ⟨hm.valid other ((active_removeSession hm hne).mp hother), hne⟩
  flags := by
    intro session hsession
    have hmem : session ∈ m.sessions ∧ session.sessionId ≠ id := by
      rw [removeSession_eq hm] at hsession
      simpa using hsession
    rw [active_removeSession hm hmem.2]
    exact hm.flags session hmem.1

theorem Agrees.removeSessions (hm : m.Agrees) (removed : List Text) :
    (removed.foldl ScopeSessionsMeta.removeSession m).Agrees ∧
      (∀ other, other ∈ (removed.foldl ScopeSessionsMeta.removeSession m).ids ↔
        other ∈ m.ids ∧ other ∉ removed) ∧
      ∀ other, other ∉ removed →
        ((removed.foldl ScopeSessionsMeta.removeSession m).activeSession = some other ↔
          m.activeSession = some other) := by
  induction removed generalizing m with
  | nil => simpa using hm
  | cons id removed ih =>
    obtain ⟨hagrees, hids, hactive⟩ := ih (hm.removeSession id)
    refine ⟨hagrees, fun other => ?_, fun other hother => ?_⟩
    · rw [foldl_cons, hids, mem_ids_removeSession hm, mem_cons, not_or, and_assoc]
    · rw [mem_cons, not_or] at hother
      rw [foldl_cons, hactive other hother.2, active_removeSession hm hother.1]

end ScopeSessionsMeta

namespace Coherent

variable {metaMap : List (SessionScope × ScopeSessionsMeta)} {scope : SessionScope}
  {m : ScopeSessionsMeta}

theorem nil : Coherent [] where
  scopes := nodup_nil
  agrees := fun _ _ h => by cases h
  unique := fun _ _ _ _ _ h => by cases h

theorem set (h : Coherent metaMap) (hm : m.Agrees)
    (hnew : ∀ other m', other ≠ scope → assocGet? other metaMap = some m' →
      ∀ id ∈ m.ids, id ∉ m'.ids) : Coherent (assocSet scope m metaMap) where
  scopes := nodup_assocSet h.scopes
  agrees := by
    intro other m' hother
    rw [assocGet?_assocSet] at hother
    split at hother
    · exact Option.some.inj hother ▸ hm
    · exact h.agrees other m' hother
  unique := by
    intro a ma b mb id ha hb hida hidb
    rw [assocGet?_assocSet] at ha hb
    split at ha <;> split at hb
    · next has hbs => exact has.trans hbs.symm
    · next hbs =>
      rw [← Option.some.inj ha] at hida
      exact absurd hidb (hnew b mb hbs hb id hida)
    · next has _ =>
      rw [← Option.some.inj hb] at hidb
      exact absurd hida (hnew a ma has ha id hidb)
    · exact h.unique a ma b mb id ha hb hida hidb

theorem set_of_subset (h : Coherent metaMap) (hm : m.Agrees) {old : ScopeSessionsMeta}
    (hold : assocGet? scope metaMap = some old) (hids : ∀ id ∈ m.ids, id ∈ old.ids) :
    Coherent (assocSet scope m metaMap) := by
  refine h.set hm fun other m' hne hother id hid hid' => ?_
  exact hne (h.unique other m' scope old id hother hold hid' (hids id hid))

theorem delete (h : Coherent metaMap) : Coherent (assocDelete scope metaMap) := by
  have hget : ∀ {other m'}, assocGet? other (assocDelete scope metaMap) = some m' →
      assocGet? other metaMap = some m' := by
    intro other m' hother
    rw [assocGet?_assocDelete] at hother
    split at hother
    · cases hother
    · exact hother
  refine ⟨nodup_assocDelete h.scopes, fun other m' hother => h.agrees other m' (hget hother), ?_⟩
  intro a ma b mb id ha hb
  exact h.unique a ma b mb id (hget ha) (hget hb)

end Coherent

end JiuwenSpec.Session

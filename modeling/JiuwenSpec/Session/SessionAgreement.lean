import JiuwenSpec.Session.ActiveSessions

/-!
# The operations keep the records in agreement

Creations, activations, removals and loads keep the metadata of all scopes and the cached objects
in agreement, where no cached object stays active beside another session and no active session is
loaded as an inactive object.
Source: `core/session/session_controller/session_controller.py`.
-/

namespace JiuwenSpec.Session

open Base ScopeSessionsMeta Option List

variable {x : ChainSession}

section

variable {metaMap : List (SessionScope × ScopeSessionsMeta)}
  {cache cache' : List (Text × ChainSession)} {scope : SessionScope} {m : ScopeSessionsMeta}

theorem Cached.set (h : Cached metaMap cache)
    (hcache : ∀ id x, assocGet? id cache' = some x →
      (x.sessionScope = scope ∧ id ∈ m.ids ∧ (x.isActive = true ↔ m.activeSession = some id)) ∨
        x.sessionScope ≠ scope ∧ assocGet? id cache = some x) :
    Cached (assocSet scope m metaMap) cache' := by
  intro id x hx
  rcases hcache id x hx with ⟨rfl, hid, hactive⟩ | ⟨hne, hx⟩
  · exact ⟨m, assocGet?_assocSet_self .., hid, hactive⟩
  · obtain ⟨m', hm', hlisted⟩ := h id x hx
    exact ⟨m', (assocGet?_assocSet_of_ne hne ..).trans hm', hlisted⟩

theorem Cached.listed (h : Cached metaMap cache) {id : Text}
    (hx : assocGet? id cache = some x) (hm : assocGet? x.sessionScope metaMap = some m) :
    id ∈ m.ids ∧ (x.isActive = true ↔ m.activeSession = some id) := by
  obtain ⟨m', hm', hlisted⟩ := h id x hx
  rw [hm] at hm'
  rw [some.inj hm']
  exact hlisted

end

namespace Sessions

variable {h : Host} {s t : Sessions} {scope : SessionScope} {id : Text} {m : ScopeSessionsMeta}
  {now : Nat}

theorem Consistent.of_flushed (hs : s.Consistent) (hf : Flushed h s t) : t.Consistent where
  coherent := hf.metaMap ▸ hs.coherent
  cached := by
    intro j x hx
    obtain ⟨y, hy, heq⟩ := hf.cached hx
    have hscope : y.untimed.sessionScope = x.untimed.sessionScope :=
      congrArg ChainSession.sessionScope heq
    change y.sessionScope = x.sessionScope at hscope
    obtain ⟨m, hm, hid, hactive⟩ := hs.cached j y hy
    rw [(ChainSession.of_untimed_eq heq).2.2.1] at hactive
    rw [hf.metaMap]
    exact ⟨m, hscope ▸ hm, hid, hactive⟩

theorem getActiveSession_getD (known : Option ScopeSessionsMeta) (key : Text) :
    (known.getD ⟨key, none, []⟩).getActiveSession =
      known.bind ScopeSessionsMeta.getActiveSession := by
  cases known <;> rfl

def InUse (s : Sessions) (id : Text) : Prop :=
  (assocGet? id s.sessionCache).isSome ∨ ∃ e ∈ s.metaMap, (e.2.getSession id).isSome

theorem createIfNotExists_cases {isNew : Bool}
    (ht : s.createIfNotExists h scope id now = .ok (isNew, t)) : ¬ s.InUse id ∧
      ((∃ active, (assocGet? scope s.metaMap).bind ScopeSessionsMeta.getActiveSession =
          some active ∧ isNew = false ∧ t = s.loadSession scope active.sessionId) ∨
        (assocGet? scope s.metaMap).bind ScopeSessionsMeta.getActiveSession = none ∧
          isNew = true ∧ t = s.addSession h scope ((assocGet? scope s.metaMap).getD
            ⟨SessionScopeKey.text ⟨h.agentId, scope⟩, none, []⟩) id now) := by
  rw [createIfNotExists] at ht
  split at ht
  · cases ht
  · next hfree =>
    refine ⟨hfree, ?_⟩
    simp only [getActiveSession_getD] at ht
    split at ht
    · next active hactive =>
      obtain ⟨rfl, rfl⟩ := Prod.mk.inj (Except.ok.inj ht)
      exact .inl ⟨active, hactive, rfl, rfl⟩
    · next hnone =>
      obtain ⟨rfl, rfl⟩ := Prod.mk.inj (Except.ok.inj ht)
      exact .inr ⟨hnone, rfl, rfl⟩

theorem createIfNotExists_of_active {active : SessionMeta} (hfree : ¬ s.InUse id)
    (hactive : (assocGet? scope s.metaMap).bind ScopeSessionsMeta.getActiveSession = some active) :
    s.createIfNotExists h scope id now = .ok (false, s.loadSession scope active.sessionId) := by
  rw [InUse] at hfree
  rw [createIfNotExists, if_neg hfree]
  simp only [getActiveSession_getD, hactive]

theorem notMem_ids_of_not_inUse (hfree : ¬ s.InUse id) (hm : assocGet? scope s.metaMap = some m) :
    id ∉ m.ids := fun hid =>
  hfree (.inr ⟨_, mem_of_assocGet? hm, getSession_isSome_iff.mpr hid⟩)

theorem Consistent.addSession (hs : s.Consistent) (hfree : ¬ s.InUse id)
    (hidle : ∀ j x, assocGet? j s.sessionCache = some x → x.sessionScope = scope →
      x.isActive = false) (key : Text) :
    Consistent
      (s.addSession h scope ((assocGet? scope s.metaMap).getD ⟨key, none, []⟩) id now) := by
  let session := SessionMeta.createNew id h.containerType now
  let u : Sessions := { s with
    sessionCache := assocSet id ((ChainSession.init scope).updateFromMeta session) s.sessionCache
    metaMap := assocSet scope
      (((assocGet? scope s.metaMap).getD ⟨key, none, []⟩).addSession session) s.metaMap }
  refine Consistent.of_flushed (s := u) (h := h) ?_ (flushed_save u id now)
  have hold : ∀ j ∈ ((assocGet? scope s.metaMap).getD ⟨key, none, []⟩).ids,
      ∃ m, assocGet? scope s.metaMap = some m ∧ j ∈ m.ids := by
    intro j hj
    cases hm : assocGet? scope s.metaMap with
    | none =>
      rw [hm] at hj
      cases hj
    | some m => exact ⟨m, rfl, by rwa [hm] at hj⟩
  have hagrees : ((assocGet? scope s.metaMap).getD ⟨key, none, []⟩).Agrees := by
    cases hm : assocGet? scope s.metaMap with
    | none => exact agrees_empty key
    | some m => exact hs.coherent.agrees scope m hm
  have hfresh : session.sessionId ∉ ((assocGet? scope s.metaMap).getD ⟨key, none, []⟩).ids := by
    intro hid
    obtain ⟨m, hm, hid⟩ := hold _ hid
    exact notMem_ids_of_not_inUse hfree hm hid
  obtain ⟨hadded, hactive⟩ := hagrees.addSession rfl hfresh
  refine ⟨hs.coherent.set hadded fun other m' hne hother j hj hj' => ?_,
    hs.cached.set fun j x hx => ?_⟩
  · rcases ids_addSession.mp hj with hj | rfl
    · obtain ⟨m, hm, hj⟩ := hold j hj
      exact hne (hs.coherent.unique other m' scope m j hother hm hj' hj)
    · exact notMem_ids_of_not_inUse hfree hother hj'
  · rw [hactive, ids_addSession]
    rw [assocGet?_assocSet] at hx
    split at hx
    · next hj =>
      subst hj
      cases hx
      exact .inl ⟨rfl, .inr rfl, iff_of_true rfl rfl⟩
    · next hj =>
      by_cases hscope : x.sessionScope = scope
      · obtain ⟨m, hm, hmem, -⟩ := hs.cached j x hx
        rw [hscope] at hm
        refine .inl ⟨hscope, .inl (by rwa [hm]), iff_of_false ?_ ?_⟩
        · rw [hidle j x hx hscope]
          exact Bool.false_ne_true
        · exact fun heq => hj (some.inj heq).symm
      · exact .inr ⟨hscope, hx⟩

theorem Consistent.listed_of_scopeOf (hs : s.Consistent) (hscope : s.scopeOf id = some scope) :
    ∃ m, assocGet? scope s.metaMap = some m ∧ id ∈ m.ids := by
  rw [scopeOf] at hscope
  split at hscope
  · next x hx =>
    cases hscope
    obtain ⟨m, hm, hid, -⟩ := hs.cached id x hx
    exact ⟨m, hm, hid⟩
  · obtain ⟨e, he, rfl⟩ := map_eq_some_iff.mp hscope
    have hfound := find?_some he
    exact ⟨e.2, assocGet?_of_mem hs.coherent.scopes (mem_of_find?_eq_some he),
      getSession_isSome_iff.mp hfound⟩

theorem Consistent.activate (hs : s.Consistent) (hscope : s.scopeOf id = some scope)
    (hm : assocGet? scope s.metaMap = some m) {m' : ScopeSessionsMeta}
    (hm' : m.activateSession id now = some m')
    (hidle : ∀ j x, assocGet? j s.sessionCache = some x → j ≠ id → x.sessionScope = scope →
      x.isActive = false)
    (hx : assocGet? id (s.loadSession scope id).sessionCache = some x)
    {u : Sessions}
    (hcache : u.sessionCache = assocSet id (x.setActive now) (s.loadSession scope id).sessionCache)
    (hmap : u.metaMap = assocSet scope m' s.metaMap) : u.Consistent := by
  obtain ⟨hagrees, hactive⟩ := (hs.coherent.agrees scope m hm).activateSession hm'
  refine ⟨hmap ▸ hs.coherent.set_of_subset hagrees hm fun j hj =>
    (ids_activateSession hm').mp hj, ?_⟩
  rw [hmap, hcache]
  refine hs.cached.set fun j y hy => ?_
  rw [hactive, ids_activateSession hm']
  rw [assocGet?_assocSet] at hy
  split at hy
  · next hj =>
    subst hj
    cases hy
    have hxscope : x.sessionScope = scope := by
      rcases cached_loadSession hx with hx | ⟨-, rfl⟩
      · rw [scopeOf, hx] at hscope
        exact some.inj hscope
      · rfl
    obtain ⟨m₀, hm₀, hid⟩ := hs.listed_of_scopeOf hscope
    rw [hm] at hm₀
    exact .inl ⟨hxscope, some.inj hm₀ ▸ hid, iff_of_true rfl rfl⟩
  · next hj =>
    have hy' : assocGet? j s.sessionCache = some y :=
      (cached_loadSession hy).resolve_right fun h => hj h.1
    by_cases hyscope : y.sessionScope = scope
    · subst hyscope
      refine .inl ⟨rfl, (hs.cached.listed hy' hm).1, iff_of_false ?_ ?_⟩
      · rw [hidle j y hy' hj rfl]
        exact Bool.false_ne_true
      · exact fun heq => hj (some.inj heq).symm
    · exact .inr ⟨hyscope, hy'⟩

theorem cached_dropSessions {removed : List Text} {j : Text}
    (hx : assocGet? j (removed.foldl dropSession s).sessionCache = some x) :
    j ∉ removed ∧ assocGet? j s.sessionCache = some x := by
  induction removed generalizing s with
  | nil => exact ⟨not_mem_nil, hx⟩
  | cons id removed ih =>
    obtain ⟨hj, hx⟩ := ih hx
    rw [dropSession, assocGet?_assocDelete] at hx
    split at hx
    · cases hx
    · next hne => exact ⟨not_mem_cons_of_ne_of_not_mem hne hj, hx⟩

theorem Consistent.removeSessions (hs : s.Consistent) (hm : assocGet? scope s.metaMap = some m)
    (removed : List Text) : Consistent { removed.foldl dropSession s with
      metaMap := assocSet scope (removed.foldl ScopeSessionsMeta.removeSession m) s.metaMap } := by
  obtain ⟨hagrees, hids, hactive⟩ := (hs.coherent.agrees scope m hm).removeSessions removed
  refine ⟨hs.coherent.set_of_subset hagrees hm fun j hj => ((hids j).mp hj).1,
    hs.cached.set fun j x hx => ?_⟩
  obtain ⟨hj, hold⟩ := cached_dropSessions hx
  by_cases hscope : x.sessionScope = scope
  · subst hscope
    obtain ⟨hmem, hflag⟩ := hs.cached.listed hold hm
    exact .inl ⟨rfl, (hids j).mpr ⟨hmem, hj⟩, hflag.trans (hactive j hj).symm⟩
  · exact .inr ⟨hscope, hold⟩

theorem Consistent.removeScope (hs : s.Consistent) (hm : assocGet? scope s.metaMap = some m) :
    Consistent { m.ids.foldl dropSession s with metaMap := assocDelete scope s.metaMap } := by
  refine ⟨hs.coherent.delete, fun j x hx => ?_⟩
  obtain ⟨hj, hx⟩ := cached_dropSessions hx
  obtain ⟨m', hm', hmem, hflag⟩ := hs.cached j x hx
  refine ⟨m', ?_, hmem, hflag⟩
  show assocGet? _ (assocDelete scope s.metaMap) = _
  rw [assocGet?_assocDelete, if_neg]
  · exact hm'
  · rintro rfl
    rw [hm] at hm'
    exact hj (some.inj hm' ▸ hmem)

theorem metaMap_loadSessions (s : Sessions) (scope : SessionScope) (ids : List Text) :
    (ids.foldl (fun s id => s.loadSession scope id) s).metaMap = s.metaMap := by
  induction ids generalizing s with
  | nil => rfl
  | cons id ids ih => exact (ih _).trans (metaMap_loadSession s scope id)

theorem metaFile_loadSessions (s : Sessions) (scope : SessionScope) (ids : List Text) :
    (ids.foldl (fun s id => s.loadSession scope id) s).metaFile = s.metaFile := by
  induction ids generalizing s with
  | nil => rfl
  | cons id ids ih => exact (ih _).trans (metaFile_loadSession s scope id)

theorem keeps_loadSession (scope : SessionScope) (id : Text) {j : Text}
    (hx : assocGet? j s.sessionCache = some x) :
    assocGet? j (s.loadSession scope id).sessionCache = some x := by
  rw [loadSession]
  split
  · exact hx
  · next hnone =>
    refine (assocGet?_assocSet_of_ne ?_ _ _).trans hx
    rintro rfl
    exact hnone (by rw [hx]; rfl)

theorem keeps_loadSessions (ids : List Text) {j : Text} {x : ChainSession}
    (hx : assocGet? j s.sessionCache = some x) :
    assocGet? j (ids.foldl (fun s id => s.loadSession scope id) s).sessionCache = some x := by
  induction ids generalizing s with
  | nil => exact hx
  | cons id ids ih => exact ih (keeps_loadSession scope id hx)

theorem cached_loadSessions {ids : List Text} {j : Text}
    (hx : assocGet? j (ids.foldl (fun s id => s.loadSession scope id) s).sessionCache = some x) :
    assocGet? j s.sessionCache = some x ∨
      assocGet? j s.sessionCache = none ∧ j ∈ ids ∧ x = .init scope := by
  induction ids generalizing s with
  | nil => exact .inl hx
  | cons id ids ih =>
    rcases ih hx with hx | ⟨hnone, hj, rfl⟩
    · rcases cached_loadSession hx with hx | ⟨rfl, rfl⟩
      · exact .inl hx
      · cases hs : assocGet? j s.sessionCache with
        | none => exact .inr ⟨rfl, .head _, rfl⟩
        | some y =>
          have hkept := keeps_loadSession scope j hs
          exact .inl (hkept.symm.trans hx)
    · cases hs : assocGet? j s.sessionCache with
      | none => exact .inr ⟨rfl, .tail _ hj, rfl⟩
      | some y =>
        have hkept := keeps_loadSession scope id hs
        cases hkept.symm.trans hnone

def loadedIds (activeOnly : Bool) (m : ScopeSessionsMeta) : List Text :=
  if activeOnly then m.activeId.toList else m.ids

theorem mem_ids_of_loaded (hm : m.Agrees) {activeOnly : Bool}
    (hid : id ∈ loadedIds activeOnly m) : id ∈ m.ids := by
  rw [loadedIds] at hid
  split at hid
  · exact mem_ids_of_activeId hm.valid (mem_toList.mp hid)
  · exact hid

theorem metaMap_loadEntries (activeOnly : Bool) (file : List (Text × ScopeSessionsMeta))
    (s : Sessions) : (file.foldl (loadEntry activeOnly) s).metaMap =
      file.foldl (fun metaMap e =>
        match SessionScopeKey.ofText e.1 with
        | .ok key => assocSet key.sessionScope e.2 metaMap
        | .error _ => metaMap) s.metaMap := by
  induction file generalizing s with
  | nil => rfl
  | cons e file ih =>
    rw [foldl_cons, foldl_cons, ih, loadEntry]
    cases SessionScopeKey.ofText e.1 with
    | error _ => rfl
    | ok key =>
      simp only
      rw [metaMap_loadSessions]

theorem metaFile_loadEntries (activeOnly : Bool) (file : List (Text × ScopeSessionsMeta))
    (s : Sessions) : (file.foldl (loadEntry activeOnly) s).metaFile = s.metaFile := by
  induction file generalizing s with
  | nil => rfl
  | cons e file ih =>
    rw [foldl_cons, ih, loadEntry]
    split
    · rfl
    · exact metaFile_loadSessions _ _ _

theorem cached_loadEntries {activeOnly : Bool} {file : List (Text × ScopeSessionsMeta)} {j : Text}
    (hx : assocGet? j (file.foldl (loadEntry activeOnly) s).sessionCache = some x) :
    assocGet? j s.sessionCache = some x ∨ assocGet? j s.sessionCache = none ∧
      ∃ e ∈ file, ∃ key, SessionScopeKey.ofText e.1 = .ok key ∧ j ∈ loadedIds activeOnly e.2 ∧
        x = .init key.sessionScope := by
  induction file generalizing s with
  | nil => exact .inl hx
  | cons e file ih =>
    cases hkey : SessionScopeKey.ofText e.1 with
    | error _ =>
      have hskip : s.loadEntry activeOnly e = s := by rw [loadEntry, hkey]
      rw [foldl_cons, hskip] at hx
      rcases ih hx with hx | ⟨hnone, f, hf, hread⟩
      · exact .inl hx
      · exact .inr ⟨hnone, f, .tail _ hf, hread⟩
    | ok key =>
      have hload : s.loadEntry activeOnly e = (loadedIds activeOnly e.2).foldl
          (fun s id => s.loadSession key.sessionScope id)
          { s with metaMap := assocSet key.sessionScope e.2 s.metaMap } := by
        rw [loadEntry, hkey]
        rfl
      rw [foldl_cons, hload] at hx
      rcases ih hx with hx | ⟨hnone, f, hf, hread⟩
      · rcases cached_loadSessions hx with hx | ⟨hnone, hj, hinit⟩
        · exact .inl hx
        · exact .inr ⟨hnone, e, .head _, key, hkey, hj, hinit⟩
      · refine .inr ⟨?_, f, .tail _ hf, hread⟩
        cases hs : assocGet? j s.sessionCache with
        | none => rfl
        | some y =>
          have hkept := @keeps_loadSessions { s with
            metaMap := assocSet key.sessionScope e.2 s.metaMap } key.sessionScope
            (loadedIds activeOnly e.2) j y hs
          rw [hkept] at hnone
          cases hnone

theorem consistent_load {file : List (Text × ScopeSessionsMeta)}
    {metaMap : List (SessionScope × ScopeSessionsMeta)} (hfile : s.metaFile = some file)
    (hwritten : file = writeMetaFile h.agentId metaMap) (hmap : Coherent metaMap)
    (hread : Readable h metaMap) (hcached : Cached metaMap s.sessionCache) {activeOnly : Bool}
    (hfit : ∀ e ∈ loadMetaFile file, ∀ id ∈ loadedIds activeOnly e.2,
      (assocGet? id s.sessionCache).isSome ∨ e.2.activeSession ≠ some id) :
    (s.load activeOnly).Consistent ∧ (s.load activeOnly).metaMap = metaMap ∧
      (s.load activeOnly).metaFile = some file := by
  have hload : s.load activeOnly = file.foldl (loadEntry activeOnly) { s with metaMap := [] } := by
    rw [load, hfile]
  have hloaded : loadMetaFile file = metaMap := hwritten ▸ load_write hmap.scopes hread
  have hresult : (s.load activeOnly).metaMap = metaMap := by
    rw [hload, metaMap_loadEntries]
    exact hloaded
  refine ⟨⟨hresult ▸ hmap, ?_⟩, hresult, ?_⟩
  · rw [hresult]
    intro j x hx
    rw [hload] at hx
    rcases cached_loadEntries hx with hx | ⟨hnone, e, he, key, hkey, hj, rfl⟩
    · exact hcached j x hx
    · rw [hwritten] at he
      obtain ⟨w, hw, rfl⟩ := mem_map.mp (mem_of_mem_assocOfWrites he)
      rw [SessionScopeKey.ofText_text (hread w hw)] at hkey
      cases hkey
      have hm : assocGet? w.1 metaMap = some w.2 := assocGet?_of_mem hmap.scopes hw
      refine ⟨w.2, hm, mem_ids_of_loaded (hmap.agrees w.1 w.2 hm) hj,
        iff_of_false Bool.false_ne_true ?_⟩
      refine (hfit w (hloaded ▸ hw) j hj).resolve_left ?_
      have hnone' : assocGet? j s.sessionCache = none := hnone
      rw [hnone']
      exact Bool.false_ne_true
  · rw [hload, metaFile_loadEntries]
    exact hfile

end Sessions

end JiuwenSpec.Session

import JiuwenSpec.Session.SessionController

/-!
# Sessions after a restart

A session that the controller loads is built by the constructor and never loads its own state.
After a restart every session is as new, and its next flush writes this over what was saved.
Source: `core/session/session_controller/session_controller.py`, `chain_session.py`.
-/

namespace JiuwenSpec.Session

open Base List

theorem ChainSession.flush_fst (x : ChainSession) (writable : Text → Bool) (now : Nat)
    (dir : SessionDir) : (x.flush writable now dir).1 = { x with updatedAt := now } := by
  rw [ChainSession.flush]
  split <;> rfl

variable {m : ScopeSessionsMeta} {id : Text}

namespace ScopeSessionsMeta

theorem ids_sortSessions : id ∈ m.sortSessions.ids ↔ id ∈ m.ids := by
  simp [sortSessions, ids]

theorem ids_deactivateAllSessions (m : ScopeSessionsMeta) :
    m.deactivateAllSessions.ids = m.ids := by
  simp [deactivateAllSessions, ids, map_map, Function.comp_def]

theorem ids_addSession {session : SessionMeta} :
    id ∈ (m.addSession session).ids ↔ id ∈ m.ids ∨ id = session.sessionId := by
  rw [addSession, ids_sortSessions]
  split
  · have hids := m.ids_deactivateAllSessions
    rw [ids, ids] at hids
    simp only [ids, map_append, hids]
    simp
  · simp [ids]

theorem map_replaceF_of_eq {α β : Type} (f : α → β) (g : α → Option α)
    (hg : ∀ a, ∀ b ∈ g a, f b = f a) (l : List α) : (l.replaceF g).map f = l.map f := by
  induction l with
  | nil => rfl
  | cons a l ih =>
    rw [List.replaceF]
    cases ha : g a with
    | none => rw [map_cons, map_cons, ih]
    | some b => rw [map_cons, map_cons, hg a b ha]

theorem ids_activateSession {m' : ScopeSessionsMeta} {now : Nat}
    (h : m.activateSession id now = some m') {other : Text} : other ∈ m'.ids ↔ other ∈ m.ids := by
  obtain ⟨session, -, rfl⟩ := Option.map_eq_some_iff.mp h
  rw [ids_sortSessions, ← m.ids_deactivateAllSessions, ids, ids, map_replaceF_of_eq]
  intro a b hb
  split at hb
  · rw [← Option.some.inj hb]
  · cases hb

theorem valid_addSession (h : m.Valid) (session : SessionMeta) : (m.addSession session).Valid := by
  intro id hid
  rw [ids_addSession]
  rw [addSession] at hid
  split at hid
  · exact .inr (Option.some.inj hid).symm
  · exact .inl (h id hid)

theorem sessionId_mem_ids {session : SessionMeta}
    (h : m.getSession id = some session) : session.sessionId ∈ m.ids :=
  mem_map.mpr ⟨session, mem_of_find?_eq_some h, rfl⟩

theorem mem_ids_of_getSession {session : SessionMeta}
    (h : m.getSession id = some session) : id ∈ m.ids := by
  have hid := List.find?_some h
  rw [decide_eq_true_eq] at hid
  exact hid ▸ sessionId_mem_ids h

theorem valid_activateSession {m' : ScopeSessionsMeta} {now : Nat}
    (h : m.activateSession id now = some m') : m'.Valid := by
  obtain ⟨session, hsession, hm'⟩ := Option.map_eq_some_iff.mp h
  intro other hother
  rw [← hm'] at hother
  rw [ids_activateSession h, ← Option.some.inj hother]
  exact mem_ids_of_getSession hsession

def WF (m : ScopeSessionsMeta) : Prop := m.Valid ∧ m.ids ≠ []

theorem mem_ids_of_activeId (h : m.Valid) (hid : m.activeId = some id) : id ∈ m.ids := by
  rw [activeId, Option.filter_eq_some_iff] at hid
  exact h id hid.1

end ScopeSessionsMeta

def ChainSession.untimed (x : ChainSession) : ChainSession := { x with updatedAt := 0 }

theorem ChainSession.of_untimed_eq {x y : ChainSession} (hyx : y.untimed = x.untimed) :
    y.createdAt = x.createdAt ∧ y.version = x.version ∧ y.isActive = x.isActive ∧
      y.downstreamPolicies = x.downstreamPolicies := by
  rw [untimed, untimed, ChainSession.mk.injEq] at hyx
  obtain ⟨-, -, hpolicies, hcreated, -, hversion, hactive⟩ := hyx
  exact ⟨hcreated, hversion, hactive, hpolicies⟩

namespace Sessions

variable {h : Host}

/-- `t` is `s` after flushes: cached sessions keep all but the time of their update. -/
structure Flushed (h : Host) (s t : Sessions) : Prop where
  cache : ∀ id, (assocGet? id t.sessionCache).map ChainSession.untimed =
    (assocGet? id s.sessionCache).map ChainSession.untimed
  metaMap : t.metaMap = s.metaMap
  metaFile : t.metaFile = s.metaFile ∨ t.metaFile = some (writeMetaFile h.agentId s.metaMap)

theorem Flushed.refl (s : Sessions) : Flushed h s s := ⟨fun _ => rfl, rfl, .inl rfl⟩

variable {s t : Sessions}

theorem Flushed.trans {u : Sessions} (hst : Flushed h s t) (htu : Flushed h t u) :
    Flushed h s u where
  cache id := (htu.cache id).trans (hst.cache id)
  metaMap := htu.metaMap.trans hst.metaMap
  metaFile := by
    rcases htu.metaFile with hu | hu
    · rw [hu]
      exact hst.metaFile
    · rw [hu, hst.metaMap]
      exact .inr rfl

theorem Flushed.cached (hf : Flushed h s t) {x : ChainSession}
    (hx : assocGet? id t.sessionCache = some x) :
    ∃ y, assocGet? id s.sessionCache = some y ∧ y.untimed = x.untimed := by
  have hcache := hf.cache id
  rw [hx] at hcache
  exact Option.map_eq_some_iff.mp hcache.symm

theorem flushed_writeMeta (s : Sessions) : Flushed h s (s.writeMeta h) :=
  ⟨fun _ => rfl, rfl, .inr rfl⟩

theorem flushed_flushCached (s : Sessions) (id : Text) (now : Nat) :
    Flushed h s (s.flushCached h id now).1 := by
  rw [flushCached]
  split
  · exact .refl s
  · next x hx =>
    refine ⟨fun j => ?_, rfl, .inl rfl⟩
    show (assocGet? j (assocSet id _ s.sessionCache)).map _ = _
    rw [assocGet?_assocSet]
    split
    · next hj =>
      rw [hj, hx, ChainSession.flush_fst]
      rfl
    · rfl

theorem flushed_save (s : Sessions) (id : Text) (now : Nat) :
    Flushed h s ((s.flushCached h id now).1.writeMeta h) :=
  (flushed_flushCached s id now).trans (flushed_writeMeta _)

theorem flushed_flushEach (s : Sessions) (now : Nat) (ids : List Text) :
    Flushed h s (s.flushEach h now ids).1 := by
  induction ids generalizing s with
  | nil => exact .refl s
  | cons id ids ih => exact (flushed_flushCached s id now).trans (ih _)

theorem flushed_flushThese (s : Sessions) (now : Nat) (ids : List Text) :
    Flushed h s (s.flushThese h now ids) := by
  rw [flushThese]
  split
  · exact (flushed_flushEach s now ids).trans (flushed_writeMeta _)
  · exact flushed_flushEach s now ids

def Op.Saves : Op → Prop
  | .flush | .flushSession _ | .flushScope _ => True
  | _ => False

theorem flushed_step (s : Sessions) (now : Nat) {op : Op} (hop : op.Saves) :
    Flushed h s (s.step h (now, op)) := by
  cases op with
  | flush => exact flushed_flushThese s now _
  | flushSession id =>
    show Flushed h s (s.flushSession h id now)
    rw [flushSession]
    split
    · exact flushed_flushThese s now _
    · exact .refl s
  | flushScope scope =>
    show Flushed h s (s.flushScope h scope now)
    rw [flushScope]
    split
    · exact flushed_flushThese s now _
    · exact .refl s
  | _ => exact hop.elim

variable {scope : SessionScope}

theorem cached_loadSession {j : Text} {x : ChainSession}
    (hx : assocGet? j (s.loadSession scope id).sessionCache = some x) :
    assocGet? j s.sessionCache = some x ∨ (j = id ∧ x = .init scope) := by
  rw [loadSession] at hx
  split at hx
  · exact .inl hx
  · rw [assocGet?_assocSet] at hx
    split at hx
    · next hj => exact .inr ⟨hj, (Option.some.inj hx).symm⟩
    · exact .inl hx

theorem loadSession_of_cached
    (hid : (assocGet? id s.sessionCache).isSome) : s.loadSession scope id = s := if_pos hid

theorem isSome_loadSession (s : Sessions) (scope : SessionScope) (id : Text) :
    (assocGet? id (s.loadSession scope id).sessionCache).isSome := by
  rw [loadSession]
  split
  · assumption
  · rw [assocGet?_assocSet_self]
    rfl

theorem metaMap_loadSession (s : Sessions) (scope : SessionScope) (id : Text) :
    (s.loadSession scope id).metaMap = s.metaMap := by
  rw [loadSession]
  split <;> rfl

theorem metaFile_loadSession (s : Sessions) (scope : SessionScope) (id : Text) :
    (s.loadSession scope id).metaFile = s.metaFile := by
  rw [loadSession]
  split <;> rfl

theorem scopeOf_eq_some (hs : s.scopeOf id = some scope) :
    (assocGet? id s.sessionCache).isSome ∨ ∃ e ∈ s.metaMap, id ∈ e.2.ids := by
  rw [scopeOf] at hs
  split at hs
  · next hx => exact .inl (by rw [hx]; rfl)
  · obtain ⟨e, he, -⟩ := Option.map_eq_some_iff.mp hs
    have hfound := List.find?_some he
    obtain ⟨session, hsession⟩ := Option.isSome_iff_exists.mp hfound
    exact .inr ⟨e, mem_of_find?_eq_some he, ScopeSessionsMeta.mem_ids_of_getSession hsession⟩

theorem activateSession_ok {now : Nat} (ht : s.activateSession h id now = .ok t) :
    ∃ scope, s.scopeOf id = some scope ∧ (t = s.loadSession scope id ∨
      ∃ m m' x u, assocGet? scope s.metaMap = some m ∧ m.activateSession id now = some m' ∧
        assocGet? id (s.loadSession scope id).sessionCache = some x ∧
        u.sessionCache = assocSet id (x.setActive now) (s.loadSession scope id).sessionCache ∧
        u.metaMap = assocSet scope m' s.metaMap ∧ u.metaFile = s.metaFile ∧
        t = (flushCached h u id now).1.writeMeta h) := by
  rw [activateSession] at ht
  split at ht
  · cases ht
  · next scope hscope =>
    refine ⟨scope, hscope, ?_⟩
    simp only at ht
    split at ht
    · exact .inl (Except.ok.inj ht).symm
    · next m' hm' =>
      obtain ⟨m, hm, hactive⟩ := Option.bind_eq_some_iff.mp hm'
      obtain ⟨x, hx⟩ := Option.isSome_iff_exists.mp (isSome_loadSession s scope id)
      simp only [hx] at ht
      refine .inr ⟨m, m', x,
        ⟨_, _, (s.loadSession scope id).metaFile, (s.loadSession scope id).dirs⟩,
        hm, hactive, hx, rfl, ?_, metaFile_loadSession s scope id, (Except.ok.inj ht).symm⟩
      simp only [metaMap_loadSession]

theorem createIfNotExists_ok {now : Nat}
    {isNew : Bool} (ht : s.createIfNotExists h scope id now = .ok (isNew, t)) :
    (∃ m active, assocGet? scope s.metaMap = some m ∧ active ∈ m.ids ∧
      t = s.loadSession scope active) ∨
      ∃ u, u.sessionCache = assocSet id ((ChainSession.init scope).updateFromMeta
          (.createNew id h.containerType now)) s.sessionCache ∧
        u.metaMap = assocSet scope (((assocGet? scope s.metaMap).getD
          ⟨SessionScopeKey.text ⟨h.agentId, scope⟩, none, []⟩).addSession
            (.createNew id h.containerType now)) s.metaMap ∧
        u.metaFile = s.metaFile ∧ t = (flushCached h u id now).1.writeMeta h := by
  rw [createIfNotExists] at ht
  split at ht
  · cases ht
  · simp only at ht
    split at ht
    · next active hactive =>
      obtain ⟨active', -, hget⟩ := Option.bind_eq_some_iff.mp hactive
      have hmem := ScopeSessionsMeta.sessionId_mem_ids hget
      cases hm : assocGet? scope s.metaMap with
      | none =>
        rw [hm] at hmem
        cases hmem
      | some m =>
        rw [hm] at hmem
        exact .inl ⟨m, active.sessionId, rfl, hmem, (Prod.mk.inj (Except.ok.inj ht)).2.symm⟩
    · exact .inr ⟨⟨_, _, s.metaFile, s.dirs⟩, rfl, rfl, rfl,
        (Prod.mk.inj (Except.ok.inj ht)).2.symm⟩

/-- The metadata of every scope is well formed, in the controller and in the file. -/
structure WF (s : Sessions) : Prop where
  metaMap : ∀ e ∈ s.metaMap, e.2.WF
  metaFile : ∀ file ∈ s.metaFile, ∀ e ∈ file, e.2.WF

theorem WF.of_flushed (hs : s.WF) (hf : Flushed h s t) : t.WF where
  metaMap := hf.metaMap ▸ hs.metaMap
  metaFile file hfile e he := by
    rcases hf.metaFile with ht | ht
    · exact hs.metaFile file (ht ▸ hfile) e he
    · cases ht.symm.trans hfile
      obtain ⟨w, hw, rfl⟩ := mem_map.mp (mem_of_mem_assocOfWrites he)
      exact hs.metaMap w hw

theorem WF.set (hs : s.WF)
    (hm : m.WF) (hmap : t.metaMap = assocSet scope m s.metaMap) (hfile : t.metaFile = s.metaFile) :
    t.WF where
  metaMap e he := by
    rw [hmap] at he
    rcases mem_assocSet he with rfl | he
    · exact hm
    · exact hs.metaMap e he
  metaFile := hfile ▸ hs.metaFile

theorem WF.of_eq (hs : s.WF) (hmap : t.metaMap = s.metaMap)
    (hfile : t.metaFile = s.metaFile) : t.WF :=
  ⟨hmap ▸ hs.metaMap, hfile ▸ hs.metaFile⟩

theorem WF.loadSession (hs : s.WF) (scope : SessionScope) (id : Text) :
    (s.loadSession scope id).WF :=
  hs.of_eq (metaMap_loadSession s scope id) (metaFile_loadSession s scope id)

theorem WF.modify (hs : s.WF) (id : Text) (f : ChainSession → ChainSession) :
    (s.modify id f).WF := by
  rw [Sessions.modify]
  split
  · exact hs.of_eq rfl rfl
  · exact hs

theorem wf_addSession (hm : m.Valid) (session : SessionMeta) : (m.addSession session).WF := by
  have hmem : session.sessionId ∈ (m.addSession session).ids :=
    ScopeSessionsMeta.ids_addSession.mpr (.inr rfl)
  exact ⟨ScopeSessionsMeta.valid_addSession hm session, ne_nil_of_mem hmem⟩

theorem wf_activateSession {m' : ScopeSessionsMeta} {now : Nat}
    (hm : m.activateSession id now = some m') : m'.WF := by
  obtain ⟨session, hsession, -⟩ := Option.map_eq_some_iff.mp hm
  have hmem : id ∈ m'.ids := (ScopeSessionsMeta.ids_activateSession hm).mpr
    (ScopeSessionsMeta.mem_ids_of_getSession hsession)
  exact ⟨ScopeSessionsMeta.valid_activateSession hm, ne_nil_of_mem hmem⟩

theorem WF.loadEntries {file : List (Text × ScopeSessionsMeta)} (hfile : ∀ e ∈ file, e.2.WF)
    (activeOnly : Bool) (hs : s.WF) : (file.foldl (loadEntry activeOnly) s).WF := by
  have hids : ∀ (scope : SessionScope) (ids : List Text) {s : Sessions}, s.WF →
      (ids.foldl (fun s id => s.loadSession scope id) s).WF := by
    intro scope ids
    induction ids with
    | nil => exact fun h => h
    | cons id ids ih => exact fun h => ih (h.loadSession scope id)
  induction file generalizing s with
  | nil => exact hs
  | cons e file ih =>
    refine ih (fun f hf => hfile f (.tail _ hf)) ?_
    rw [loadEntry]
    split
    · exact hs
    · exact hids _ _ (hs.set (hfile e (.head _)) rfl rfl)

theorem WF.restart (hs : s.WF) (activeOnly : Bool) : (s.restart activeOnly).WF := by
  rw [Sessions.restart, load]
  split
  · exact ⟨fun _ h => (by cases h), hs.metaFile⟩
  · next file hfile =>
    exact WF.loadEntries (hs.metaFile file hfile) activeOnly ⟨fun _ h => (by cases h), hs.metaFile⟩

theorem WF.step (hs : s.WF) (op : Nat × Op) : (s.step h op).WF := by
  obtain ⟨now, op⟩ := op
  cases op with
  | create scope id =>
    cases ht : s.createIfNotExists h scope id now with
    | error e =>
      simp only [Sessions.step, ht]
      exact hs
    | ok r =>
      simp only [Sessions.step, ht]
      obtain ⟨_, active, -, -, hr⟩ | ⟨u, -, hmap, hfile, hr⟩ := createIfNotExists_ok ht
      · rw [hr]
        exact hs.loadSession scope active
      · rw [hr]
        refine WF.of_flushed (hs.set (wf_addSession ?_ _) hmap hfile) (flushed_save u id now)
        cases hm : assocGet? scope s.metaMap with
        | none => exact fun _ h => (by cases h)
        | some m => exact (hs.metaMap _ (mem_of_assocGet? hm)).1
  | activate id =>
    cases ht : s.activateSession h id now with
    | error e =>
      simp only [Sessions.step, ht]
      exact hs
    | ok t =>
      simp only [Sessions.step, ht]
      obtain ⟨scope, -, rfl | ⟨m, m', x, u, -, hactive, -, -, hmap, hfile, rfl⟩⟩ :=
        activateSession_ok ht
      · exact hs.loadSession scope id
      · exact (hs.set (wf_activateSession hactive) hmap hfile).of_flushed (flushed_save u id now)
  | getActive scope =>
    show (s.getScopeActiveSession scope).WF
    rw [getScopeActiveSession]
    split
    · exact hs.loadSession scope _
    · exact hs
  | addDownstream id target policy => exact hs.modify id _
  | removeDownstream id target => exact hs.modify id _
  | updateData id accepted => exact hs.modify id _
  | restart activeOnly => exact hs.restart activeOnly
  | flush => exact hs.of_flushed (flushed_flushThese s now _)
  | flushSession id =>
    have hsaves : Op.Saves (.flushSession id) := True.intro
    exact hs.of_flushed (flushed_step s now hsaves)
  | flushScope scope =>
    have hsaves : Op.Saves (.flushScope scope) := True.intro
    exact hs.of_flushed (flushed_step s now hsaves)

end Sessions

end JiuwenSpec.Session

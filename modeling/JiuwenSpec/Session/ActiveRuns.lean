import JiuwenSpec.Session.SessionAgreement

/-!
# The records of active sessions agree

Every call that fits keeps the three records in agreement, with the metadata file as written. A
repeated creation returns the session only where the first one created none.
Source: `core/session/session_controller/session_controller.py`.
-/

namespace JiuwenSpec.Session

open Base Option List

namespace Sessions

variable {h : Host} {s t : Sessions} {scope : SessionScope} {id : Text} {now : Nat}

/-- The records agree, and the file holds the metadata, or what was there before the first load. -/
structure Recorded (h : Host) (s : Sessions) : Prop where
  consistent : s.Consistent
  file : s.metaFile = some (writeMetaFile h.agentId s.metaMap) ∨
    s.metaMap = [] ∧ s.sessionCache = [] ∧ ∀ file, s.metaFile = some file →
      ∃ metaMap, Coherent metaMap ∧ Readable h metaMap ∧ file = writeMetaFile h.agentId metaMap

theorem recorded_start {disk : Option (List (SessionScope × ScopeSessionsMeta))}
    (hdisk : ∀ metaMap, disk = some metaMap → Coherent metaMap ∧ Readable h metaMap)
    (dirs : List (Text × SessionDir)) : Recorded h (start h disk dirs) where
  consistent := ⟨.nil, fun _ _ hx => by cases hx⟩
  file := by
    refine .inr ⟨rfl, rfl, fun file hfile => ?_⟩
    obtain ⟨metaMap, hmap, rfl⟩ := map_eq_some_iff.mp hfile
    obtain ⟨hcoherent, hread⟩ := hdisk metaMap hmap
    exact ⟨metaMap, hcoherent, hread, rfl⟩

theorem recorded_writeMeta (hs : s.Consistent) : Recorded h (s.writeMeta h) :=
  ⟨hs.of_flushed (flushed_writeMeta (h := h) s), .inl rfl⟩

theorem recorded_save (hs : s.Consistent) (id : Text) (now : Nat) :
    Recorded h ((s.flushCached h id now).1.writeMeta h) :=
  recorded_writeMeta (hs.of_flushed (flushed_flushCached (h := h) s id now))

theorem Recorded.create (hs : Recorded h s) (hfit : s.Fits h (now, .create scope id)) :
    Recorded h (s.change h (now, .create scope id)) := by
  rw [change]
  dsimp only
  cases ht : s.createIfNotExists h scope id now with
  | error e => exact hs
  | ok r =>
    obtain ⟨isNew, t⟩ := r
    obtain ⟨hfree, ⟨active, hactive, -, rfl⟩ | ⟨hnone, -, rfl⟩⟩ := createIfNotExists_cases ht
    · have hcached : (assocGet? active.sessionId s.sessionCache).isSome := by
        rcases hfit with hcached | hlisted | hfit
        · exact absurd (.inl hcached) hfree
        · exact absurd (.inr hlisted) hfree
        · rw [hactive] at hfit
          exact hfit
      dsimp only
      rw [loadSession_of_cached hcached]
      exact hs
    · have hidle : ∀ j x, assocGet? j s.sessionCache = some x → x.sessionScope = scope →
          x.isActive = false := by
        rcases hfit with hcached | hlisted | hfit
        · exact absurd (.inl hcached) hfree
        · exact absurd (.inr hlisted) hfree
        · rw [hnone] at hfit
          exact hfit
      exact ⟨hs.consistent.addSession hfree hidle _, .inl rfl⟩

theorem Recorded.activate (hs : Recorded h s) (hfit : s.Fits h (now, .activate id)) :
    Recorded h (s.change h (now, .activate id)) := by
  rw [change]
  dsimp only
  cases ht : s.activateSession h id now with
  | error e => exact hs
  | ok t =>
    dsimp only
    cases hscope : s.scopeOf id with
    | none =>
      rw [activateSession, hscope] at ht
      cases ht
    | some scope =>
      obtain ⟨m, hm, hid⟩ := hs.consistent.listed_of_scopeOf hscope
      obtain ⟨session, hsession⟩ :=
        isSome_iff_exists.mp (ScopeSessionsMeta.getSession_isSome_iff.mpr hid)
      have hactivated : ∃ m', m.activateSession id now = some m' := by
        rw [ScopeSessionsMeta.activateSession, hsession]
        exact ⟨_, rfl⟩
      obtain ⟨m', hm'⟩ := hactivated
      obtain ⟨x, hx⟩ := isSome_iff_exists.mp (isSome_loadSession s scope id)
      rw [activateSession, hscope] at ht
      simp only [hm, bind_some, hm', hx] at ht
      cases ht
      exact recorded_save (hs.consistent.activate hscope hm hm' (hfit scope hscope) hx rfl
        (by simp only [metaMap_loadSession])) id now

theorem removeFrom_keeps (hs : s.Consistent) (id : Text) (scopes : List SessionScope)
    (removed : Bool) : (scopes.foldl (removeFrom id) (s, removed)).1.Consistent ∧
      ((scopes.foldl (removeFrom id) (s, removed)).2 = false →
        removed = false ∧ (scopes.foldl (removeFrom id) (s, removed)).1 = s) := by
  induction scopes generalizing s removed with
  | nil => exact ⟨hs, fun hflag => ⟨hflag, rfl⟩⟩
  | cons scope scopes ih =>
    cases hm : assocGet? scope s.metaMap with
    | none =>
      have hskip : removeFrom id (s, removed) scope = (s, removed) := by simp only [removeFrom, hm]
      rw [foldl_cons, hskip]
      exact ih hs removed
    | some m =>
      by_cases hlisted : (m.getSession id).isSome
      · have hfrom : removeFrom id (s, removed) scope = ({ s.dropSession id with
            metaMap := assocSet scope (m.removeSession id) s.metaMap }, true) := by
          simp only [removeFrom, hm, if_pos hlisted]
        rw [foldl_cons, hfrom]
        obtain ⟨hs', hflag⟩ := ih (hs.removeSessions hm [id]) true
        exact ⟨hs', fun h => by cases (hflag h).1⟩
      · have hskip : removeFrom id (s, removed) scope = (s, removed) := by
          simp only [removeFrom, hm, if_neg hlisted]
        rw [foldl_cons, hskip]
        exact ih hs removed

theorem Recorded.remove (hs : Recorded h s) (id : Text) (scope : Option SessionScope) :
    Recorded h (s.removeSession h id scope) := by
  have hscopes : ∀ scopes : List SessionScope,
      Recorded h (if (scopes.foldl (removeFrom id) (s, false)).2
        then (scopes.foldl (removeFrom id) (s, false)).1.writeMeta h
        else (scopes.foldl (removeFrom id) (s, false)).1) := by
    intro scopes
    obtain ⟨hremoved, hflag⟩ := removeFrom_keeps hs.consistent id scopes false
    split
    · exact recorded_writeMeta hremoved
    · next hnone =>
      rw [(hflag (Bool.eq_false_iff.mpr hnone)).2]
      exact hs
  exact hscopes _

theorem Recorded.removeScope (hs : Recorded h s) (scope : SessionScope) :
    Recorded h (s.removeScopeSessions h scope) := by
  rw [removeScopeSessions]
  split
  · exact hs
  · next m hm => exact recorded_writeMeta (hs.consistent.removeScope hm)

theorem Recorded.cleanup (hs : Recorded h s) (scope : SessionScope) :
    Recorded h (s.change h (now, .cleanup scope)) := by
  rw [change]
  dsimp only
  cases ht : s.cleanupScopeInactiveSessions h scope with
  | error e => exact hs
  | ok t =>
    rw [cleanupScopeInactiveSessions] at ht
    dsimp only at ht ⊢
    split at ht
    · cases ht
    · next m hm =>
      split at ht
      · rw [← Except.ok.inj ht]
        exact hs
      · rw [← Except.ok.inj ht]
        exact recorded_writeMeta (hs.consistent.removeSessions hm _)

theorem Recorded.load (hs : Recorded h s) {activeOnly : Bool}
    (hfit : s.Fits h (now, .load activeOnly)) : Recorded h (s.load activeOnly) := by
  cases hfile : s.metaFile with
  | none =>
    rw [Sessions.load, hfile]
    exact hs
  | some file =>
    obtain ⟨metaMap, hcoherent, hread, hwritten, hcached⟩ : ∃ metaMap, Coherent metaMap ∧
        Readable h metaMap ∧ file = writeMetaFile h.agentId metaMap ∧
          Cached metaMap s.sessionCache := by
      rcases hs.file with hmap | ⟨-, hcache, hdisk⟩
      · exact ⟨s.metaMap, hs.consistent.coherent, hfit.1,
          some.inj (hfile.symm.trans hmap), hs.consistent.cached⟩
      · obtain ⟨metaMap, hcoherent, hread, hwritten⟩ := hdisk file hfile
        refine ⟨metaMap, hcoherent, hread, hwritten, ?_⟩
        rw [hcache]
        exact fun _ _ hx => by cases hx
    obtain ⟨hloaded, hmap, hkept⟩ :=
      consistent_load hfile hwritten hcoherent hread hcached (hfit.2 file hfile)
    refine ⟨hloaded, .inl ?_⟩
    rw [hkept, hmap, hwritten]

theorem Recorded.change (hs : Recorded h s) {op : Nat × Change} (hfit : s.Fits h op) :
    Recorded h (s.change h op) := by
  obtain ⟨now, op⟩ := op
  cases op with
  | create scope id => exact hs.create hfit
  | activate id => exact hs.activate hfit
  | remove id scope => exact hs.remove id scope
  | removeScope scope => exact hs.removeScope scope
  | cleanup scope => exact hs.cleanup scope
  | load activeOnly => exact hs.load hfit

theorem createIfNotExists_again {now' : Nat}
    (ht : s.createIfNotExists h scope id now = .ok (false, t)) :
    t.createIfNotExists h scope id now' = .ok (false, t) := by
  obtain ⟨hfree, ⟨active, hactive, -, rfl⟩ | ⟨-, hnew, -⟩⟩ := createIfNotExists_cases ht
  · have hother : id ≠ active.sessionId := by
      rintro rfl
      obtain ⟨m, hm, hfound⟩ := bind_eq_some_iff.mp hactive
      obtain ⟨_, -, hget⟩ := bind_eq_some_iff.mp hfound
      exact notMem_ids_of_not_inUse hfree hm (ScopeSessionsMeta.sessionId_mem_ids hget)
    have hfree' : ¬ (s.loadSession scope active.sessionId).InUse id := by
      rintro (hcached | hlisted)
      · obtain ⟨x, hx⟩ := isSome_iff_exists.mp hcached
        rcases cached_loadSession hx with hx | ⟨heq, -⟩
        · exact hfree (.inl (by rw [hx]; rfl))
        · exact hother heq
      · rw [metaMap_loadSession] at hlisted
        exact hfree (.inr hlisted)
    rw [← metaMap_loadSession s scope active.sessionId] at hactive
    rw [createIfNotExists_of_active hfree' hactive,
      loadSession_of_cached (isSome_loadSession s scope active.sessionId)]
  · cases hnew

theorem createIfNotExists_fails {now' : Nat}
    (ht : s.createIfNotExists h scope id now = .ok (true, t)) :
    t.createIfNotExists h scope id now' =
      .error ("Session ID ".toList ++ id ++ " already exists".toList) := by
  obtain ⟨-, ⟨_, -, hold, -⟩ | ⟨-, -, rfl⟩⟩ := createIfNotExists_cases ht
  · cases hold
  · have hcached : (assocGet? id (s.addSession h scope ((assocGet? scope s.metaMap).getD
        ⟨SessionScopeKey.text ⟨h.agentId, scope⟩, none, []⟩) id now).sessionCache).isSome := by
      have hflushed := (flushed_save (h := h) { s with
        sessionCache := assocSet id ((ChainSession.init scope).updateFromMeta
          (.createNew id h.containerType now)) s.sessionCache
        metaMap := assocSet scope (((assocGet? scope s.metaMap).getD
          ⟨SessionScopeKey.text ⟨h.agentId, scope⟩, none, []⟩).addSession
            (.createNew id h.containerType now)) s.metaMap } id now).cache id
      rw [assocGet?_assocSet_self] at hflushed
      obtain ⟨x, hx, -⟩ := map_eq_some_iff.mp hflushed
      rw [addSession, hx]
      rfl
    rw [createIfNotExists, if_pos (.inl hcached)]

/-- In a run whose calls fit the records agree in every state, whatever was on the disk, and a
creation returns its session again if and only if it returned an existing one. -/
theorem sessions_agree (h : Host) (disk : Option (List (SessionScope × ScopeSessionsMeta)))
    (hdisk : ∀ metaMap, disk = some metaMap → Coherent metaMap ∧ Readable h metaMap)
    (dirs : List (Text × SessionDir)) (ops : List (Nat × Change))
    (hfits : Base.Meets (change h) (Fits h) (start h disk dirs) ops) :
    ∀ s, Base.Reached (change h) (start h disk dirs) ops s → s.Consistent ∧
      ∀ scope id now now' isNew t, s.createIfNotExists h scope id now = .ok (isNew, t) →
        (t.createIfNotExists h scope id now' = .ok (false, t) ↔ isNew = false) := by
  intro s hs
  have hrecorded : Recorded h s := reached_invariant (fun s op hs hfit => hs.change hfit)
    (recorded_start hdisk dirs) hfits hs
  refine ⟨hrecorded.consistent, fun scope id now now' isNew t ht => ?_⟩
  cases isNew with
  | false => exact iff_of_true (createIfNotExists_again ht) rfl
  | true =>
    rw [createIfNotExists_fails ht]
    exact iff_of_false (fun heq => by cases heq) (fun heq => by cases heq)

/-- A session is created, and loaded while it is cached. -/
theorem created_session_agrees :
    Consistent (run (change ⟨['a'], ['t'], fun _ => true⟩)
      (start ⟨['a'], ['t'], fun _ => true⟩ none [])
      [(1, .create ⟨none⟩ ['s']), (2, .load true)]) := by
  refine (sessions_agree ⟨['a'], ['t'], fun _ => true⟩ none (fun _ h => by cases h) []
    [(1, .create ⟨none⟩ ['s']), (2, .load true)] ⟨?_, ?_, True.intro⟩ _
    ⟨_, prefix_refl _, rfl⟩).1
  · exact .inr (.inr fun _ _ h => by cases h)
  · refine ⟨fun e he => ?_, fun file hfile => ?_⟩
    · obtain rfl := mem_singleton.mp he
      exact ⟨by decide, fun _ h => by cases h⟩
    · cases hfile
      decide

/-- The object of an active session is inactive after it is loaded, and a creation is refused when
it is repeated. -/
theorem loaded_session_disagrees :
    ¬ Consistent (run (change ⟨['a'], ['t'], fun _ => true⟩)
      (start ⟨['a'], ['t'], fun _ => true⟩
        (some [(⟨none⟩, ⟨SessionScopeKey.text ⟨['a'], ⟨none⟩⟩, some ['s'],
          [.createNew ['s'] ['t'] 1]⟩)]) []) [(2, .load true)]) ∧
      ∃ t, createIfNotExists ⟨['a'], ['t'], fun _ => true⟩
        (start ⟨['a'], ['t'], fun _ => true⟩ none []) ⟨none⟩ ['s'] 1 = .ok (true, t) ∧
        t.createIfNotExists ⟨['a'], ['t'], fun _ => true⟩ ⟨none⟩ ['s'] 2 =
          .error ("Session ID ".toList ++ ['s'] ++ " already exists".toList) := by
  refine ⟨fun hs => ?_, _, rfl, @createIfNotExists_fails _ (start _ none []) _ _ _ 1 _ rfl⟩
  obtain ⟨m, hm, -, hactive⟩ := hs.cached ['s'] (.init ⟨none⟩) rfl
  cases hm
  exact Bool.false_ne_true (hactive.mpr rfl)

end Sessions

end JiuwenSpec.Session

import JiuwenSpec.Session.Restart

/-!
# What survives a restart

After a restart each session is as its constructor builds it, whatever was saved: it agrees with
what it was before just where it was as new then. A session that was created since the controller
started is active, so it never agrees.
Source: `core/session/session_controller/session_controller.py`, `chain_session.py`.
-/

namespace JiuwenSpec.Session

open Base List ScopeSessionsMeta

def ChainSession.AsNew (x : ChainSession) : Prop :=
  x.createdAt = 0 ∧ x.version = 1 ∧ x.isActive = false ∧ x.downstreamPolicies = []

/-- Creation time, version, active flag and sharing policies agree; the flag of a session that was
activated in between is left out. -/
def ChainSession.Agrees (activated : Prop) (x b : ChainSession) : Prop :=
  x.createdAt = b.createdAt ∧ x.version = b.version ∧ (¬ activated → x.isActive = b.isActive) ∧
    ∀ target, assocGet? target x.downstreamPolicies = assocGet? target b.downstreamPolicies

namespace Sessions

variable {h : Host}

/-- A session before the restart: the cached object, or else what its directory holds. -/
def before (s : Sessions) (id : Text) : Option ChainSession :=
  match assocGet? id s.sessionCache with
  | some x => some x
  | none => (assocGet? id s.dirs).map (ChainSession.init ⟨none⟩).load

/-- The operations after the restart: activations, look-ups and flushes. -/
def Op.Later : Op → Prop
  | .activate _ | .getActive _ | .flush | .flushSession _ | .flushScope _ => True
  | _ => False

/-- Every session obtained after a restart, at once or after more activations and flushes, agrees
with what it was before. -/
def Survive (h : Host) (s : Sessions) : Prop :=
  ∀ (activeOnly : Bool) (later : List (Nat × Op)), (∀ op ∈ later, op.2.Later) →
    ∀ id x b, assocGet? id (run (step h) (s.restart activeOnly) later).sessionCache = some x →
      s.before id = some b → x.Agrees (∃ op ∈ later, op.2 = .activate id) b

/-- The metadata file lists the session in a scope whose key is parsed. -/
def ReadBack (s : Sessions) (id : Text) : Prop :=
  ∃ e ∈ s.metaFile.getD [], (∃ key, SessionScopeKey.ofText e.1 = .ok key) ∧ id ∈ e.2.ids

/-- The controller knows only the sessions of `known`, and those that are cached are as new but
for the flags of the activated ones. -/
structure Renewed (known activated : Text → Prop) (s : Sessions) : Prop where
  cached : ∀ id x, assocGet? id s.sessionCache = some x → known id ∧ x.createdAt = 0 ∧
    x.version = 1 ∧ x.downstreamPolicies = [] ∧ (¬ activated id → x.isActive = false)
  listed : ∀ e ∈ s.metaMap, e.2.Valid ∧ ∀ id ∈ e.2.ids, known id

variable {known activated : Text → Prop}

variable {s : Sessions}

theorem Renewed.of_flushed {t : Sessions} (hs : s.Renewed known activated)
    (hf : Flushed h s t) : t.Renewed known activated where
  cached id x hx := by
    obtain ⟨y, hy, hyx⟩ := hf.cached hx
    obtain ⟨hcreated, hversion, hactive, hpolicies⟩ := ChainSession.of_untimed_eq hyx
    rw [← hcreated, ← hversion, ← hactive, ← hpolicies]
    exact hs.cached id y hy
  listed := hf.metaMap ▸ hs.listed

variable {id : Text}

theorem Renewed.loadSession (hs : s.Renewed known activated) (scope : SessionScope)
    (hid : known id) : (s.loadSession scope id).Renewed known activated where
  cached j x hx := by
    rcases cached_loadSession hx with hx | ⟨rfl, rfl⟩
    · exact hs.cached j x hx
    · exact ⟨hid, rfl, rfl, rfl, fun _ => rfl⟩
  listed := (metaMap_loadSession s scope id).symm ▸ hs.listed

theorem Renewed.loadSessions {scope : SessionScope} {ids : List Text} (hids : ∀ id ∈ ids, known id)
    (hs : s.Renewed known activated) :
    (ids.foldl (fun s id => s.loadSession scope id) s).Renewed known activated := by
  induction ids generalizing s with
  | nil => exact hs
  | cons id ids ih =>
    exact ih (fun j hj => hids j (.tail _ hj))
      (hs.loadSession scope (hids id (.head _)))

theorem Renewed.loadEntry (hs : s.Renewed known activated) (activeOnly : Bool)
    {e : Text × ScopeSessionsMeta} (hvalid : e.2.Valid)
    (hids : ∀ key, SessionScopeKey.ofText e.1 = .ok key → ∀ id ∈ e.2.ids, known id) :
    (loadEntry activeOnly s e).Renewed known activated := by
  rw [Sessions.loadEntry]
  split
  · exact hs
  · next key hkey =>
    refine Renewed.loadSessions (fun id hid => ?_) ⟨hs.cached, fun f hf => ?_⟩
    · cases activeOnly with
      | false => exact hids key hkey id hid
      | true =>
        have hactive := Option.mem_toList.mp hid
        exact hids key hkey id (mem_ids_of_activeId hvalid hactive)
    · rcases mem_assocSet hf with rfl | hf
      · exact ⟨hvalid, hids key hkey⟩
      · exact hs.listed f hf

theorem renewed_restart (hs : s.WF) (activeOnly : Bool) :
    (s.restart activeOnly).Renewed s.ReadBack fun _ => False := by
  have hempty : Renewed s.ReadBack (fun _ => False) { s with sessionCache := [], metaMap := [] } :=
    ⟨fun _ _ h => (by cases h), fun _ h => (by cases h)⟩
  rw [restart, load]
  split
  · exact hempty
  · next file hfile =>
    have hfold : ∀ (part : List (Text × ScopeSessionsMeta)), (∀ e ∈ part, e ∈ file) →
        ∀ t : Sessions, t.Renewed s.ReadBack (fun _ => False) →
          (part.foldl (Sessions.loadEntry activeOnly) t).Renewed s.ReadBack fun _ => False := by
      intro part
      induction part with
      | nil => exact fun _ _ ht => ht
      | cons e part ih =>
        intro hpart t ht
        have he : e ∈ file := hpart e (.head _)
        refine ih (fun f hf => hpart f (.tail _ hf)) _
          (ht.loadEntry activeOnly (hs.metaFile file hfile e he).1 fun key hkey id hid => ?_)
        refine ⟨e, ?_, ⟨key, hkey⟩, hid⟩
        rw [show s.metaFile = some file from hfile]
        exact he
    exact hfold file (fun _ h => h) _ hempty

theorem Renewed.step (hs : s.Renewed known activated) {op : Nat × Op}
    (hop : op.2.Later) (hactive : ∀ id, op.2 = .activate id → activated id) :
    (s.step h op).Renewed known activated := by
  obtain ⟨now, op⟩ := op
  cases op with
  | activate id =>
    cases ht : s.activateSession h id now with
    | error e =>
      simp only [Sessions.step, ht]
      exact hs
    | ok t =>
      simp only [Sessions.step, ht]
      obtain ⟨scope, hscope, hcases⟩ := activateSession_ok ht
      have hknown : known id := by
        rcases scopeOf_eq_some hscope with hcached | ⟨e, he, hid⟩
        · obtain ⟨x, hx⟩ := Option.isSome_iff_exists.mp hcached
          exact (hs.cached id x hx).1
        · exact (hs.listed e he).2 id hid
      have hloaded := hs.loadSession scope hknown
      obtain rfl | ⟨m, m', x, u, hm, hm', hx, hcache, hmap, -, rfl⟩ := hcases
      · exact hloaded
      · refine Renewed.of_flushed (s := u) ⟨fun j y hy ↦ ?_, fun e he ↦ ?_⟩ (flushed_save u id now)
        · rw [hcache, assocGet?_assocSet] at hy
          split at hy
          · next hj =>
            subst hj
            rw [← Option.some.inj hy]
            obtain ⟨-, hcreated, hversion, hpolicies, -⟩ := hloaded.cached j x hx
            exact ⟨hknown, hcreated, hversion, hpolicies, fun hnot => (hnot (hactive j rfl)).elim⟩
          · exact hloaded.cached j y hy
        · rw [hmap] at he
          rcases mem_assocSet he with rfl | he
          · refine ⟨valid_activateSession hm', fun j hj => ?_⟩
            exact (hs.listed _ (mem_of_assocGet? hm)).2 j
              ((ids_activateSession hm').mp hj)
          · exact hs.listed e he
  | getActive scope =>
    show (s.getScopeActiveSession scope).Renewed known activated
    rw [getScopeActiveSession]
    split
    · next id hid =>
      obtain ⟨m, hm, hactive⟩ := Option.bind_eq_some_iff.mp hid
      obtain ⟨hvalid, hknown⟩ := hs.listed _ (mem_of_assocGet? hm)
      exact hs.loadSession scope (hknown id (mem_ids_of_activeId hvalid hactive))
    · exact hs
  | flush => exact hs.of_flushed (flushed_flushThese s now _)
  | flushSession id =>
    have hsaves : Op.Saves (.flushSession id) := True.intro
    exact hs.of_flushed (flushed_step s now hsaves)
  | flushScope scope =>
    have hsaves : Op.Saves (.flushScope scope) := True.intro
    exact hs.of_flushed (flushed_step s now hsaves)
  | _ => exact hop.elim

theorem isSome_loadSessions (hid : (assocGet? id s.sessionCache).isSome)
    (scope : SessionScope) (ids : List Text) :
    (assocGet? id (ids.foldl (fun s id => s.loadSession scope id) s).sessionCache).isSome := by
  induction ids generalizing s with
  | nil => exact hid
  | cons j ids ih =>
    refine ih ?_
    show (assocGet? id (s.loadSession scope j).sessionCache).isSome
    rw [loadSession]
    split
    · exact hid
    · rw [assocGet?_assocSet]
      split
      · rfl
      · exact hid

theorem isSome_of_mem_loadSessions {scope : SessionScope} {ids : List Text}
    (hid : id ∈ ids) (s : Sessions) :
    (assocGet? id (ids.foldl (fun s id => s.loadSession scope id) s).sessionCache).isSome := by
  induction ids generalizing s with
  | nil => cases hid
  | cons j ids ih =>
    rcases mem_cons.mp hid with rfl | hid
    · exact isSome_loadSessions (isSome_loadSession s scope id) scope ids
    · exact ih hid _

theorem isSome_loadEntries (hid : (assocGet? id s.sessionCache).isSome)
    (file : List (Text × ScopeSessionsMeta)) :
    (assocGet? id (file.foldl (loadEntry false) s).sessionCache).isSome := by
  induction file generalizing s with
  | nil => exact hid
  | cons e file ih =>
    refine ih ?_
    rw [loadEntry]
    split
    · exact hid
    · next key hkey =>
      exact isSome_loadSessions (s := { s with metaMap := assocSet key.sessionScope e.2 s.metaMap })
        hid _ _

theorem isSome_restart (hid : s.ReadBack id) :
    (assocGet? id (s.restart false).sessionCache).isSome := by
  obtain ⟨e, he, ⟨key, hkey⟩, hid⟩ := hid
  cases hfile : s.metaFile with
  | none =>
    rw [hfile] at he
    cases he
  | some file =>
    rw [hfile] at he
    simp only [restart, load, hfile]
    obtain ⟨pre, post, hsplit⟩ := append_of_mem he
    rw [show file = pre ++ e :: post from hsplit, foldl_append, foldl_cons]
    refine isSome_loadEntries ?_ post
    simp only [loadEntry, hkey]
    exact isSome_of_mem_loadSessions hid _

/-- Every session is cached and active, and the file holds the metadata. -/
structure Living (h : Host) (s : Sessions) : Prop where
  active : ∀ id x, assocGet? id s.sessionCache = some x → x.isActive = true
  listed : ∀ e ∈ s.metaMap, ∀ id ∈ e.2.ids, (assocGet? id s.sessionCache).isSome
  metaFile : s.metaFile.getD [] = writeMetaFile h.agentId s.metaMap

theorem Flushed.isSome {t : Sessions} (hf : Flushed h s t)
    (hid : (assocGet? id s.sessionCache).isSome) : (assocGet? id t.sessionCache).isSome := by
  have hcache := congrArg Option.isSome (hf.cache id)
  rw [Option.isSome_map, Option.isSome_map] at hcache
  rw [hcache]
  exact hid

theorem Flushed.active {t : Sessions} (hf : Flushed h s t)
    (hs : ∀ id x, assocGet? id s.sessionCache = some x → x.isActive = true) (id : Text)
    (x : ChainSession) (hx : assocGet? id t.sessionCache = some x) : x.isActive = true := by
  obtain ⟨y, hy, hyx⟩ := hf.cached hx
  rw [← (ChainSession.of_untimed_eq hyx).2.2.1]
  exact hs id y hy

theorem Living.of_flushed {t : Sessions} (hs : s.Living h) (hf : Flushed h s t) :
    t.Living h where
  active := hf.active hs.active
  listed e he id hid := hf.isSome (hs.listed e (hf.metaMap ▸ he) id hid)
  metaFile := by
    rw [hf.metaMap]
    rcases hf.metaFile with ht | ht
    · rw [ht]
      exact hs.metaFile
    · rw [ht]
      rfl

theorem Living.save {u : Sessions} (hs : s.Living h) {scope : SessionScope}
    {m : ScopeSessionsMeta} {x : ChainSession} (now : Nat) (hx : x.isActive = true)
    (hcache : u.sessionCache = assocSet id x s.sessionCache)
    (hmap : u.metaMap = assocSet scope m s.metaMap)
    (hids : ∀ j ∈ m.ids, j = id ∨ (assocGet? j s.sessionCache).isSome) :
    ((flushCached h u id now).1.writeMeta h).Living h := by
  have hf : Flushed h u ((flushCached h u id now).1.writeMeta h) := flushed_save u id now
  have hkept : ∀ j, j = id ∨ (assocGet? j s.sessionCache).isSome →
      (assocGet? j u.sessionCache).isSome := by
    intro j hj
    rw [hcache, assocGet?_assocSet]
    split
    · rfl
    · next hne => exact hj.resolve_left hne
  refine ⟨hf.active fun j y hy => ?_, fun e he j hj => hf.isSome (hkept j ?_), rfl⟩
  · rw [hcache, assocGet?_assocSet] at hy
    split at hy
    · rw [← Option.some.inj hy]
      exact hx
    · exact hs.active j y hy
  · rw [hf.metaMap, hmap] at he
    rcases mem_assocSet he with rfl | he
    · exact hids j hj
    · exact .inr (hs.listed e he j hj)

theorem Living.modify (hs : s.Living h) (id : Text)
    {f : ChainSession → ChainSession} (hf : ∀ x, (f x).isActive = x.isActive) :
    (s.modify id f).Living h := by
  rw [Sessions.modify]
  split
  · next x hx =>
    refine ⟨fun j y hy => ?_, fun e he j hj => ?_, hs.metaFile⟩
    · rw [assocGet?_assocSet] at hy
      split at hy
      · rw [← Option.some.inj hy, hf]
        exact hs.active id x hx
      · exact hs.active j y hy
    · rw [assocGet?_assocSet]
      split
      · rfl
      · exact hs.listed e he j hj
  · exact hs

theorem Living.step (hs : s.Living h) (hwf : s.WF) {op : Nat × Op}
    (hop : ∀ activeOnly, op.2 ≠ .restart activeOnly) : (s.step h op).Living h := by
  obtain ⟨now, op⟩ := op
  cases op with
  | create scope id =>
    cases ht : s.createIfNotExists h scope id now with
    | error e =>
      simp only [Sessions.step, ht]
      exact hs
    | ok r =>
      simp only [Sessions.step, ht]
      obtain ⟨m, active, hm, hactive, hr⟩ | ⟨u, hcache, hmap, -, hr⟩ := createIfNotExists_ok ht
      · rw [hr, loadSession_of_cached (hs.listed _ (mem_of_assocGet? hm) active hactive)]
        exact hs
      · rw [hr]
        refine hs.save now rfl hcache hmap fun j hj => ?_
        rcases ids_addSession.mp hj with hj | rfl
        · cases hm : assocGet? scope s.metaMap with
          | none =>
            rw [hm] at hj
            cases hj
          | some m =>
            rw [hm] at hj
            exact .inr (hs.listed _ (mem_of_assocGet? hm) j hj)
        · exact .inl rfl
  | activate id =>
    cases ht : s.activateSession h id now with
    | error e =>
      simp only [Sessions.step, ht]
      exact hs
    | ok t =>
      simp only [Sessions.step, ht]
      obtain ⟨scope, hscope, hcases⟩ := activateSession_ok ht
      have hcached : (assocGet? id s.sessionCache).isSome := by
        rcases scopeOf_eq_some hscope with hcached | ⟨e, he, hid⟩
        · exact hcached
        · exact hs.listed e he id hid
      rw [loadSession_of_cached hcached] at hcases
      obtain rfl | ⟨m, m', x, u, hm, hm', hx, hcache, hmap, -, rfl⟩ := hcases
      · exact hs
      · refine hs.save now rfl hcache hmap fun j hj => .inr ?_
        exact hs.listed _ (mem_of_assocGet? hm) j
          ((ids_activateSession hm').mp hj)
  | getActive scope =>
    show (s.getScopeActiveSession scope).Living h
    rw [getScopeActiveSession]
    split
    · next id hid =>
      obtain ⟨m, hm, hactive⟩ := Option.bind_eq_some_iff.mp hid
      have hvalid := (hwf.metaMap _ (mem_of_assocGet? hm)).1
      rw [loadSession_of_cached (hs.listed _ (mem_of_assocGet? hm) id
        (mem_ids_of_activeId hvalid hactive))]
      exact hs
    · exact hs
  | addDownstream id target policy => exact hs.modify id fun _ => rfl
  | removeDownstream id target =>
    refine hs.modify id fun x => ?_
    rw [ChainSession.removeDownstream]
    split <;> rfl
  | updateData id accepted =>
    refine hs.modify id fun x => ?_
    rw [ChainSession.updateData]
    split <;> rfl
  | flush => exact hs.of_flushed (flushed_flushThese s now _)
  | flushSession id =>
    have hsaves : Op.Saves (.flushSession id) := True.intro
    exact hs.of_flushed (flushed_step s now hsaves)
  | flushScope scope =>
    have hsaves : Op.Saves (.flushScope scope) := True.intro
    exact hs.of_flushed (flushed_step s now hsaves)
  | restart activeOnly => exact (hop activeOnly rfl).elim

theorem survive_iff (hs : s.WF) :
    Survive h s ↔ ∀ id, s.ReadBack id → ∀ b, s.before id = some b → b.AsNew := by
  constructor
  · intro hsurvive id hid b hb
    obtain ⟨x, hx⟩ := Option.isSome_iff_exists.mp (isSome_restart hid)
    obtain ⟨-, hcreated, hversion, hpolicies, hactive⟩ :=
      (renewed_restart hs false).cached id x hx
    obtain ⟨hcreated', hversion', hactive', hpolicies'⟩ :=
      hsurvive false [] (fun _ h => (by cases h)) id x b hx hb
    have hnot : ¬ ∃ op ∈ ([] : List (Nat × Op)), op.2 = .activate id := by
      rintro ⟨_, h, -⟩
      cases h
    refine ⟨hcreated' ▸ hcreated, hversion' ▸ hversion, hactive' hnot ▸ hactive (fun h => h), ?_⟩
    rw [← assocGet?_eq_none_forall]
    intro target
    rw [← hpolicies' target, hpolicies]
    rfl
  · intro hnew activeOnly later hlater id x b hx hb
    have hmeets : Meets (Sessions.step h) (fun _ op => op.2.Later ∧
        ∀ j, op.2 = .activate j → ∃ op ∈ later, op.2 = .activate j) (s.restart activeOnly) later :=
      meets_of_forall (fun op hop _ => ⟨hlater op hop, fun j hj => ⟨op, hop, hj⟩⟩) _
    have hstart : (s.restart activeOnly).Renewed s.ReadBack
        fun j => ∃ op ∈ later, op.2 = .activate j := by
      obtain ⟨hcached, hlisted⟩ := renewed_restart hs activeOnly
      refine ⟨fun j y hy => ?_, hlisted⟩
      obtain ⟨hknown, hcreated, hversion, hpolicies, hactive⟩ := hcached j y hy
      exact ⟨hknown, hcreated, hversion, hpolicies, fun _ => hactive False.elim⟩
    have hrun : (run (Sessions.step h) (s.restart activeOnly) later).Renewed s.ReadBack
        fun j => ∃ op ∈ later, op.2 = .activate j := by
      refine run_invariant (fun t op ht hC => ?_) hstart hmeets
      exact ht.step hC.1 hC.2
    obtain ⟨hknown, hcreated, hversion, hpolicies, hactive⟩ := hrun.cached id x hx
    obtain ⟨hcreated', hversion', hactive', hpolicies'⟩ := hnew id hknown b hb
    refine ⟨hcreated.trans hcreated'.symm, hversion.trans hversion'.symm,
      fun hnot => (hactive hnot).trans hactive'.symm, fun target => ?_⟩
    rw [hpolicies, hpolicies']

theorem wf_run (h : Host) (ops : List (Nat × Op)) : (run (Sessions.step h) init ops).WF := by
  have hinit : init.WF := ⟨fun _ h => (by cases h), fun _ h => (by cases h)⟩
  have hmeets : Meets (Sessions.step h) (fun _ _ => True) init ops :=
    meets_of_forall (fun _ _ _ => True.intro) _
  refine run_invariant (I := WF) (fun s op hs _ => ?_) hinit hmeets
  exact hs.step op

theorem living_run {ops : List (Nat × Op)} (hops : ∀ op ∈ ops, ∀ b, op.2 ≠ .restart b) :
    (run (Sessions.step h) init ops).Living h := by
  have hinit : init.WF ∧ init.Living h :=
    ⟨⟨fun _ h => (by cases h), fun _ h => (by cases h)⟩,
      ⟨fun _ _ h => (by cases h), fun _ h => (by cases h), rfl⟩⟩
  have hmeets : Meets (Sessions.step h) (fun _ op => ∀ b, op.2 ≠ .restart b) init ops :=
    meets_of_forall (fun op hop _ => hops op hop) _
  have hrun := run_invariant (I := fun s => s.WF ∧ s.Living h) (fun s op hs hop => ?_) hinit hmeets
  · exact hrun.2
  · exact ⟨hs.1.step op, hs.2.step hs.1 hop⟩

theorem readBack_iff (hs : s.Living h) (hwf : s.WF) :
    (∃ id, s.ReadBack id) ↔
      ∃ e ∈ s.metaMap, ∃ key, SessionScopeKey.ofText
        (SessionScopeKey.text ⟨h.agentId, e.1⟩) = .ok key := by
  constructor
  · rintro ⟨id, e, he, ⟨key, hkey⟩, -⟩
    rw [hs.metaFile] at he
    obtain ⟨w, hw, rfl⟩ := mem_map.mp (mem_of_mem_assocOfWrites he)
    exact ⟨w, hw, key, hkey⟩
  · rintro ⟨w, hw, key, hkey⟩
    have hlisted : SessionScopeKey.text ⟨h.agentId, w.1⟩ ∈
        (writeMetaFile h.agentId s.metaMap).map Prod.fst := by
      refine mem_keys_foldl_assocSet (.inr ?_)
      rw [map_map]
      exact mem_map.mpr ⟨w, hw, rfl⟩
    obtain ⟨e, he, htext⟩ := mem_map.mp hlisted
    obtain ⟨v, hv, rfl⟩ := mem_map.mp (mem_of_mem_assocOfWrites he)
    obtain ⟨id, hid⟩ := exists_mem_of_ne_nil _ (hwf.metaMap v hv).2
    exact ⟨id, _, hs.metaFile ▸ he, ⟨key, htext ▸ hkey⟩, hid⟩

theorem Living.before_active (hs : s.Living h) (hid : s.ReadBack id) :
    ∃ b, s.before id = some b ∧ b.isActive = true := by
  obtain ⟨e, he, -, hid⟩ := hid
  rw [hs.metaFile] at he
  obtain ⟨w, hw, rfl⟩ := mem_map.mp (mem_of_mem_assocOfWrites he)
  obtain ⟨b, hb⟩ := Option.isSome_iff_exists.mp (hs.listed w hw id hid)
  refine ⟨b, ?_, hs.active id b hb⟩
  rw [before, hb]

/-- **What survives a restart.** After any operations and a flush, the sessions survive a restart
just where each one that is read back was as new before; where the controller was not restarted
before, just where the key of no scope is parsed, so that nothing is read back. -/
theorem sessions_survive (h : Host) (ops : List (Nat × Op)) (now : Nat) :
    (Survive h ((run (Sessions.step h) init ops).flush h now) ↔
      ∀ id, ((run (Sessions.step h) init ops).flush h now).ReadBack id →
        ∀ b, ((run (Sessions.step h) init ops).flush h now).before id = some b → b.AsNew) ∧
    ((∀ op ∈ ops, ∀ activeOnly, op.2 ≠ .restart activeOnly) →
      (Survive h ((run (Sessions.step h) init ops).flush h now) ↔
        ∀ e ∈ (run (Sessions.step h) init ops).metaMap, ∀ key,
          SessionScopeKey.ofText (SessionScopeKey.text ⟨h.agentId, e.1⟩) ≠ .ok key)) := by
  have hf := flushed_flushThese (h := h) (run (Sessions.step h) init ops) now
    ((run (Sessions.step h) init ops).sessionCache.map Prod.fst)
  have hwf : ((run (Sessions.step h) init ops).flush h now).WF := (wf_run h ops).of_flushed hf
  refine ⟨survive_iff hwf, fun hops => ?_⟩
  have hliving : ((run (Sessions.step h) init ops).flush h now).Living h :=
    (living_run hops).of_flushed hf
  have hread := readBack_iff hliving hwf
  rw [show ((run (Sessions.step h) init ops).flush h now).metaMap = _ from hf.metaMap] at hread
  rw [survive_iff hwf]
  constructor
  · intro hnew e he key hkey
    obtain ⟨id, hid⟩ := hread.mpr ⟨e, he, key, hkey⟩
    obtain ⟨b, hb, hactive⟩ := hliving.before_active hid
    rw [(hnew id hid b hb).2.2.1] at hactive
    cases hactive
  · intro hnone id hid
    obtain ⟨e, he, key, hkey⟩ := hread.mp ⟨id, hid⟩
    exact (hnone e he key hkey).elim

/-- An agent `a` whose link files can all be written. -/
def plainHost : Host := ⟨['a'], defaultContainerType, fun _ => true⟩

/-- A session of the main scope is created, and may read a session of another agent. -/
def oneSession : List (Nat × Op) :=
  [(5, .create ⟨none⟩ ['s']), (6, .addDownstream ['s'] (['b'], ['t']) ⟨.read, none⟩)]

/-- A session that is created and activated does not survive. -/
theorem activated_session_lost : ¬ Survive plainHost ((run (Sessions.step plainHost) init
    [(5, .create ⟨none⟩ ['s']), (6, .activate ['s'])]).flush plainHost 7) := by
  refine fun h => ((sessions_survive plainHost
    [(5, .create ⟨none⟩ ['s']), (6, .activate ['s'])] 7).2 ?_).mp h (⟨none⟩,
    ⟨"agent:a:main".toList, some ['s'], [⟨['s'], 5, 6, 1, true, defaultContainerType⟩]⟩) ?_
    ⟨['a'], ⟨none⟩⟩ ?_
  · intro op hop activeOnly
    rcases mem_pair.mp hop with rfl | rfl <;> exact Op.noConfusion
  · decide
  · decide

/-- The session that is obtained after the restart was never created, is not active and reads no
other session. -/
theorem session_lost : ¬ Survive plainHost ((run (Sessions.step plainHost) init oneSession).flush
    plainHost 7) := by
  intro h
  have hagrees := h true [] (fun _ h => (by cases h)) ['s'] (.init ⟨none⟩)
    ⟨⟨none⟩, defaultContainerType, [((['b'], ['t']), ⟨.read, none⟩)], 5, 7, 1, true⟩
    (by decide) (by decide)
  exact absurd hagrees.1 (by decide)

end Sessions

end JiuwenSpec.Session

import Mathlib.Data.List.TakeWhile
import JiuwenSpec.Session.SessionController

/-!
# Cleaning up orphan directories

The directories of sessions that `sessions.json` does not name are deleted. A file that is missing
or is not JSON names no session. Sessions that somebody relies on are kept exactly where the file,
as it is read, names them.
Source: `core/session/session_controller/global_controller.py`, `session_controller.py`,
`schema.py`.
-/

namespace JiuwenSpec.Session

open Base List

/-- `sessions.json` as it is found. -/
inductive MetaFile where
  | missing
  | notJson
  | json (value : Json)
  /-- Opening or decoding the file raises another error. -/
  | refused

/-- `session_id`. -/
def sessionIdKey : Text := "session_id".toList

/-- `sessions`. -/
def sessionsKey : Text := "sessions".toList

def hasText (text : Text) (items : List Json) : Bool :=
  items.any fun item =>
    match item with
    | .string t => t = text
    | _ => false

/-- The id of an item of `sessions`, where it has one; `none` where this raises. -/
def sessionIdOf : Json → Option (List Text)
  | .object members =>
    match assocGet? sessionIdKey (assocOfWrites members) with
    | none => some []
    | some (.string id) => some [id]
    -- A list or a dictionary is no member of a set.
    | some (.array _) | some (.object _) => none
    | some _ => some []
  | .array items => if hasText sessionIdKey items then none else some []
  | .string text => if sessionIdKey <:+: text then none else some []
  | _ => none

/-- The items of `sessions`, where they are there; `none` where this raises. -/
def sessionItems : Json → Option (List Json)
  | .object members =>
    match assocGet? sessionsKey (assocOfWrites members) with
    | none => some []
    | some (.array items) => some items
    | some (.object members) => some ((assocOfWrites members).map fun e => .string e.1)
    | some (.string text) => some (text.map fun c => .string [c])
    | some _ => none
  | .array items => if hasText sessionsKey items then none else some []
  | .string text => if sessionsKey <:+: text then none else some []
  | _ => none

def idsOfItems : List Json → Option (List Text)
  | [] => some []
  | item :: items => (sessionIdOf item).bind fun id => (idsOfItems items).map fun ids => id ++ ids

def idsOfScopes : List Json → Option (List Text)
  | [] => some []
  | scope :: scopes => ((sessionItems scope).bind idsOfItems).bind fun ids =>
    (idsOfScopes scopes).map fun rest => ids ++ rest

/-- `registered_sessions`; `none` where reading the file raises what is not caught. -/
def registeredSessions : MetaFile → Option (List Text)
  | .missing | .notJson => some []
  | .json (.object members) => idsOfScopes ((assocOfWrites members).map Prod.snd)
  | .json _ => none
  | .refused => none

structure SubDir where
  name : Text
  isDir : Bool
  hasState : Bool

/-- The directory of an agent: its sessions directory, where it is there, with `sessions.json`. -/
structure AgentDir where
  name : Text
  isDir : Bool
  sessions : Option (List SubDir)
  metaFile : MetaFile

/-- A session directory: it has a `state.data`, and it is not called `downstreams`. -/
def SubDir.isSession (sub : SubDir) : Bool :=
  sub.isDir && (sub.name ≠ "downstreams".toList) && sub.hasState

def orphanDirs (registered : List Text) (subs : List SubDir) : List Text :=
  (subs.filter fun sub => sub.isSession && !registered.contains sub.name).map SubDir.name

def toProcess (agentId : Option Text) (agents : List AgentDir) : List AgentDir :=
  match agentId.filter fun id => id ≠ [] with
  | some id => agents.filter fun agent => agent.name = id
  | none => agents.filter fun agent => agent.isDir

/-- The orphans of the agents, one agent after another, up to one whose file raises. -/
def scanAgents : List AgentDir → List (Text × List Text)
  | [] => []
  | agent :: agents =>
    match agent.sessions with
    | none => scanAgents agents
    | some subs =>
      match registeredSessions agent.metaFile with
      | none => []
      | some registered => (agent.name, orphanDirs registered subs) :: scanAgents agents

/-- `cleanup_orphan_files` with `dry_run=False`: the directories it deletes, of each agent. -/
def cleanupOrphanFiles (agentId : Option Text) (agents : List AgentDir) :
    List (Text × List Text) :=
  scanAgents (toProcess agentId agents)

/-- The sessions somebody relies on: of each agent those that are registered in the metadata that
was last written successfully, and those that a controller holds. -/
structure KnownSessions where
  lastWritten : Text → List (Text × ScopeSessionsMeta)
  held : Text → List Text

def KnownSessions.Knows (known : KnownSessions) (agent id : Text) : Prop :=
  (∃ e ∈ known.lastWritten agent, id ∈ e.2.ids) ∨ id ∈ known.held agent

def DeletesOrphans (known : KnownSessions) (agentId : Option Text) (agents : List AgentDir) :
    Prop :=
  ∀ e ∈ cleanupOrphanFiles agentId agents, ∀ id ∈ e.2, ¬ known.Knows e.1 id

def AgentDir.raises (agent : AgentDir) : Bool :=
  agent.sessions.isSome && (registeredSessions agent.metaFile).isNone

/-- The agents before the first one whose file raises. -/
def processed (agentId : Option Text) (agents : List AgentDir) : List AgentDir :=
  (toProcess agentId agents).takeWhile fun agent => !agent.raises

def NamesKnown (known : KnownSessions) (agent : AgentDir) : Prop :=
  ∀ sub ∈ agent.sessions.getD [], sub.isSession = true → known.Knows agent.name sub.name →
    ∃ registered, registeredSessions agent.metaFile = some registered ∧ sub.name ∈ registered

theorem mem_orphanDirs {registered : List Text} {subs : List SubDir} {id : Text} :
    id ∈ orphanDirs registered subs ↔
      ∃ sub ∈ subs, sub.isSession = true ∧ sub.name = id ∧ id ∉ registered := by
  simp only [orphanDirs, mem_map, mem_filter, Bool.and_eq_true, Bool.not_eq_true',
    contains_eq_mem, decide_eq_false_iff_not]
  constructor
  · rintro ⟨sub, ⟨hsub, hsession, hnot⟩, rfl⟩
    exact ⟨sub, hsub, hsession, rfl, hnot⟩
  · rintro ⟨sub, hsub, hsession, rfl, hnot⟩
    exact ⟨sub, ⟨hsub, hsession, hnot⟩, rfl⟩

theorem mem_scanAgents {agents : List AgentDir} {agent id : Text} :
    (∃ e ∈ scanAgents agents, e.1 = agent ∧ id ∈ e.2) ↔
      ∃ a ∈ agents.takeWhile fun a => !a.raises, a.name = agent ∧
        ∃ subs registered, a.sessions = some subs ∧
          registeredSessions a.metaFile = some registered ∧ id ∈ orphanDirs registered subs := by
  induction agents with
  | nil => simp [scanAgents]
  | cons a agents ih =>
    rw [scanAgents]
    cases hsessions : a.sessions with
    | none =>
      have hraises : a.raises = false := by rw [AgentDir.raises, hsessions]; rfl
      rw [takeWhile_cons_of_pos (by simp [hraises])]
      simp only [mem_cons, exists_eq_or_imp, hsessions]
      simpa using ih
    | some subs =>
      cases hregistered : registeredSessions a.metaFile with
      | none =>
        have hraises : a.raises = true := by rw [AgentDir.raises, hsessions, hregistered]; rfl
        rw [takeWhile_cons_of_neg (by simp [hraises])]
        simp
      | some registered =>
        have hraises : a.raises = false := by
          rw [AgentDir.raises, hsessions, hregistered]; rfl
        rw [takeWhile_cons_of_pos (by simp [hraises])]
        simp only [mem_cons, exists_eq_or_imp, hsessions, hregistered, Option.some.injEq,
          exists_eq_left', exists_and_left, ih]

/-- The clean-up deletes orphans only exactly when the files, as they are read, name the known
sessions. -/
theorem deletesOrphans_iff (known : KnownSessions) (agentId : Option Text)
    (agents : List AgentDir) : DeletesOrphans known agentId agents ↔
      ∀ agent ∈ processed agentId agents, NamesKnown known agent := by
  constructor
  · intro h agent hagent sub hsub hsession hknown
    have hraises : agent.raises = false := by
      simpa using mem_takeWhile_imp hagent
    cases hsubs : agent.sessions with
    | none =>
      rw [hsubs] at hsub
      cases hsub
    | some subs =>
      rw [hsubs, Option.getD_some] at hsub
      cases hregistered : registeredSessions agent.metaFile with
      | none =>
        rw [AgentDir.raises, hsubs, hregistered] at hraises
        cases hraises
      | some registered =>
        refine ⟨registered, rfl, ?_⟩
        by_contra hnot
        obtain ⟨e, he, hname, hid⟩ : ∃ e ∈ cleanupOrphanFiles agentId agents,
            e.1 = agent.name ∧ sub.name ∈ e.2 :=
          mem_scanAgents.mpr ⟨agent, hagent, rfl, subs, registered, hsubs, hregistered,
            mem_orphanDirs.mpr ⟨sub, hsub, hsession, rfl, hnot⟩⟩
        exact h e he sub.name hid (hname ▸ hknown)
  · intro h e he id hid hknown
    obtain ⟨agent, hagent, hname, subs, registered, hsubs, hregistered, horphan⟩ :=
      mem_scanAgents.mp ⟨e, he, rfl, hid⟩
    obtain ⟨sub, hsub, hsession, rfl, hnot⟩ := mem_orphanDirs.mp horphan
    obtain ⟨ids, hids, hmem⟩ := h agent hagent sub (by rwa [hsubs]) hsession (hname ▸ hknown)
    cases hregistered.symm.trans hids
    exact hnot hmem

/-- `SessionMeta.to_dict`; `shown` writes a number. -/
def SessionMeta.toJson (shown : Nat → Json) (m : SessionMeta) : Json :=
  .object [(sessionIdKey, .string m.sessionId), ("created_at".toList, shown m.createdAt),
    ("updated_at".toList, shown m.updatedAt), ("version".toList, shown m.version),
    ("is_active".toList, .literal (if m.isActive then .true else .false)),
    ("data_container_type".toList, .string m.dataContainerType)]

/-- `ScopeSessionsMeta.to_dict`. -/
def ScopeSessionsMeta.toJson (shown : Nat → Json) (m : ScopeSessionsMeta) : Json :=
  .object [("session_scope_key".toList, .string m.sessionScopeKey),
    ("active_session".toList, match m.activeSession with
      | some id => .string id
      | none => .literal .null),
    (sessionsKey, .array (m.sessions.map (SessionMeta.toJson shown)))]

/-- The text that `_write_meta_file` writes, as a value. -/
def metaFileJson (shown : Nat → Json) (file : List (Text × ScopeSessionsMeta)) : Json :=
  .object (file.map fun e => (e.1, e.2.toJson shown))

theorem sessionIdOf_toJson (shown : Nat → Json) (m : SessionMeta) :
    sessionIdOf (m.toJson shown) = some [m.sessionId] := rfl

theorem idsOfItems_toJson (shown : Nat → Json) (sessions : List SessionMeta) :
    idsOfItems (sessions.map (SessionMeta.toJson shown)) =
      some (sessions.map SessionMeta.sessionId) := by
  induction sessions with
  | nil => rfl
  | cons m sessions ih =>
    rw [map_cons, idsOfItems, sessionIdOf_toJson, ih]
    rfl

theorem idsOfScopes_toJson (shown : Nat → Json) (scopes : List ScopeSessionsMeta) :
    idsOfScopes (scopes.map (ScopeSessionsMeta.toJson shown)) =
      some (scopes.flatMap ScopeSessionsMeta.ids) := by
  induction scopes with
  | nil => rfl
  | cons m scopes ih =>
    have hitems : sessionItems (m.toJson shown) =
        some (m.sessions.map (SessionMeta.toJson shown)) := rfl
    rw [map_cons, idsOfScopes, hitems, Option.bind_some, idsOfItems_toJson, ih]
    rfl

theorem registeredSessions_written (shown : Nat → Json) {file : List (Text × ScopeSessionsMeta)}
    (hn : (file.map Prod.fst).Nodup) :
    registeredSessions (.json (metaFileJson shown file)) =
      some (file.flatMap fun e => e.2.ids) := by
  have hkeys : ((file.map fun e => (e.1, e.2.toJson shown)).map Prod.fst).Nodup := by
    rw [map_map]
    exact hn
  rw [metaFileJson, registeredSessions, assocOfWrites_of_nodup hkeys, map_map]
  have hscopes : (file.map (Prod.snd ∘ fun e => (e.1, e.2.toJson shown))) =
      (file.map Prod.snd).map (ScopeSessionsMeta.toJson shown) := by
    rw [map_map]
    rfl
  rw [hscopes, idsOfScopes_toJson, flatMap_map]

theorem namesKnown_of_intact {known : KnownSessions} {agent : AgentDir} (shown : Nat → Json)
    (hfile : agent.metaFile = .json (metaFileJson shown (known.lastWritten agent.name)))
    (hn : ((known.lastWritten agent.name).map Prod.fst).Nodup)
    (hheld : ∀ id ∈ known.held agent.name, ∃ e ∈ known.lastWritten agent.name, id ∈ e.2.ids) :
    NamesKnown known agent := by
  intro sub _ _ hknown
  refine ⟨_, hfile ▸ registeredSessions_written shown hn, ?_⟩
  obtain ⟨e, he, hid⟩ := hknown.elim id (hheld sub.name)
  exact mem_flatMap.mpr ⟨e, he, hid⟩

theorem mem_of_mem_toProcess {agentId : Option Text} {agents : List AgentDir} {agent : AgentDir}
    (h : agent ∈ toProcess agentId agents) : agent ∈ agents := by
  unfold toProcess at h
  split at h
  · exact (mem_filter.mp h).1
  · exact (mem_filter.mp h).1

/-- **Intact files protect the sessions.** Where each metadata file is the one that was last written
and names what the controllers hold, a clean-up of any agents deletes no session that is known. -/
theorem intact_files_protect {known : KnownSessions} {agents : List AgentDir} (shown : Nat → Json)
    (agentId : Option Text)
    (hfile : ∀ agent ∈ agents,
      agent.metaFile = .json (metaFileJson shown (known.lastWritten agent.name)))
    (hn : ∀ agent ∈ agents, ((known.lastWritten agent.name).map Prod.fst).Nodup)
    (hheld : ∀ agent ∈ agents, ∀ id ∈ known.held agent.name,
      ∃ e ∈ known.lastWritten agent.name, id ∈ e.2.ids) :
    DeletesOrphans known agentId agents := by
  intro e he id hid hknown
  obtain ⟨agent, hagent, hname, subs, registered, hsubs, hregistered, horphan⟩ :=
    mem_scanAgents.mp ⟨e, he, rfl, hid⟩
  have hmem : agent ∈ agents := mem_of_mem_toProcess ((takeWhile_sublist _).subset hagent)
  obtain ⟨sub, hsub, hsession, rfl, hnot⟩ := mem_orphanDirs.mp horphan
  obtain ⟨ids, hids, hnamed⟩ := namesKnown_of_intact shown (hfile agent hmem) (hn agent hmem)
    (hheld agent hmem) sub (by rwa [hsubs]) hsession (hname ▸ hknown)
  cases hregistered.symm.trans hids
  exact hnot hnamed

/-- One agent with the directory of one session, its file cut off by a crash. -/
def crashedAgent : AgentDir := ⟨['a'], true, some [⟨['s'], true, true⟩], .notJson⟩

def registeredOnce : KnownSessions where
  lastWritten _ := [(['k'], ⟨['k'], some ['s'], [⟨['s'], 0, 0, 1, true, defaultContainerType⟩]⟩)]
  held _ := []

theorem intact_files_protect_once :
    DeletesOrphans registeredOnce none [⟨['a'], true, some [⟨['s'], true, true⟩, ⟨['o'], true, true⟩],
      .json (metaFileJson (fun n => .number (.ofNat n)) (registeredOnce.lastWritten ['a']))⟩] :=
  intact_files_protect (fun n => .number (.ofNat n)) none (by simp [registeredOnce])
    (by simp [registeredOnce]) (by simp [registeredOnce])

/-- After the crash the directory of the registered session is deleted. -/
theorem crash_deletes_registered : ¬ DeletesOrphans registeredOnce none [crashedAgent] := by
  intro h
  exact h (['a'], [['s']]) (by decide) ['s'] (by decide) (.inl ⟨_, .head _,
    mem_singleton_self _⟩)

end JiuwenSpec.Session

import JiuwenSpec.Vcs.StateEquality
import JiuwenSpec.Vcs.VersionRuns

/-!
# Contexts and states as versions

A snapshot of a session is the messages and the offloaded messages of each context, and the state.
A context that only grew is carried by its new messages, any other one is carried whole; a context
that is gone is not mentioned. Source: `core/session/vcs/delta.py`, `manager.py`.
-/

namespace JiuwenSpec.Vcs

open Base List

structure EncodedContext where
  messages : List Json
  offloadMessages : State

abbrev Contexts := List (String × EncodedContext)

inductive MessageDelta where
  | append (contextId : String) (messages : List Json)
  | reset (contextId : String) (context : EncodedContext)

def isPrefix (old new : List Json) : Bool :=
  old.length ≤ new.length && Json.eqvList false (new.take old.length) old

def grew (old new : EncodedContext) : Bool :=
  (Json.dict old.offloadMessages).pyEq (.dict new.offloadMessages) &&
    isPrefix old.messages new.messages

def diffOne (old : Contexts) (contextId : String) (new : EncodedContext) : List MessageDelta :=
  match assocGet? contextId old with
  | none => [.reset contextId new]
  | some oldContext =>
    if grew oldContext new then
      let tail := new.messages.drop oldContext.messages.length
      if tail.isEmpty then [] else [.append contextId tail]
    else [.reset contextId new]

def diffContext (old new : Contexts) : List MessageDelta :=
  new.flatMap fun e => diffOne old e.1 e.2

/-- One delta of `apply_context`. -/
def applyDelta (contexts : Contexts) : MessageDelta → Contexts
  | .reset contextId context => assocSet contextId context contexts
  | .append contextId messages =>
    let entry := (assocGet? contextId contexts).getD ⟨[], []⟩
    assocSet contextId ⟨entry.messages ++ messages, entry.offloadMessages⟩ contexts

def applyContext (contexts : Contexts) (deltas : List MessageDelta) : Contexts :=
  deltas.foldl applyDelta contexts

structure EncodedContext.Alike (c d : EncodedContext) : Prop where
  messages : (Json.list c.messages).Alike (.list d.messages)
  offloadMessages : State.Alike c.offloadMessages d.offloadMessages

structure Contexts.Alike (c d : Contexts) : Prop where
  left : (c.map Prod.fst).Nodup
  right : (d.map Prod.fst).Nodup
  keys : ∀ cid, Option.Rel EncodedContext.Alike (assocGet? cid c) (assocGet? cid d)

theorem EncodedContext.Alike.symm {c d : EncodedContext} (h : c.Alike d) : d.Alike c :=
  ⟨h.messages.symm, Json.Alike.symm h.offloadMessages⟩

theorem EncodedContext.Alike.trans {c d e : EncodedContext} (h : c.Alike d) (h' : d.Alike e) :
    c.Alike e :=
  ⟨h.messages.trans h'.messages, Json.Alike.trans h.offloadMessages h'.offloadMessages⟩

theorem Contexts.Alike.symm {c d : Contexts} (h : Contexts.Alike c d) : Contexts.Alike d c := by
  refine ⟨h.right, h.left, fun cid => ?_⟩
  have hkey := h.keys cid
  generalize assocGet? cid c = a, assocGet? cid d = b at hkey
  cases hkey with
  | some hab => exact .some hab.symm
  | none => exact .none

theorem Contexts.Alike.trans {c d e : Contexts} (h : Contexts.Alike c d)
    (h' : Contexts.Alike d e) : Contexts.Alike c e := by
  refine ⟨h.left, h'.right, fun cid => ?_⟩
  have hkey := h.keys cid
  have hkey' := h'.keys cid
  generalize assocGet? cid c = x, assocGet? cid d = y, assocGet? cid e = z at hkey hkey'
  cases hkey with
  | some hxy =>
    cases hkey' with
    | some hyz => exact .some (hxy.trans hyz)
  | none =>
    cases hkey'
    exact .none

def updated (old : Contexts) (cid : String) (new : EncodedContext) (here : Option EncodedContext) :
    Option EncodedContext :=
  match assocGet? cid old with
  | none => some new
  | some oldContext =>
    if grew oldContext new then
      let tail := new.messages.drop oldContext.messages.length
      if tail.isEmpty then here
      else
        let entry := here.getD ⟨[], []⟩
        some ⟨entry.messages ++ tail, entry.offloadMessages⟩
    else some new

theorem get?_diffOne (old contexts : Contexts) (cid : String) (new : EncodedContext)
    (j : String) : assocGet? j (applyContext contexts (diffOne old cid new)) =
      if j = cid then updated old cid new (assocGet? cid contexts) else assocGet? j contexts := by
  have hkeep : assocGet? j contexts =
      if j = cid then assocGet? cid contexts else assocGet? j contexts := by
    split
    · next h => rw [h]
    · rfl
  rw [diffOne, updated]
  cases assocGet? cid old with
  | none => exact assocGet?_assocSet cid new contexts j
  | some oldContext =>
    by_cases hgrew : grew oldContext new = true
    · simp only [hgrew, if_true]
      by_cases htail : (new.messages.drop oldContext.messages.length).isEmpty = true
      · simp only [htail, if_true]
        exact hkeep
      · simp only [htail, Bool.false_eq_true, if_false]
        exact assocGet?_assocSet cid _ contexts j
    · simp only [hgrew, Bool.false_eq_true, if_false]
      exact assocGet?_assocSet cid new contexts j

theorem nodup_applyContext {contexts : Contexts} (h : (contexts.map Prod.fst).Nodup)
    (deltas : List MessageDelta) : ((applyContext contexts deltas).map Prod.fst).Nodup := by
  rw [applyContext]
  induction deltas generalizing contexts with
  | nil => exact h
  | cons delta deltas ih =>
    refine ih ?_
    cases delta with
    | append cid messages => exact nodup_assocSet h
    | reset cid context => exact nodup_assocSet h

theorem get?_applyContext {old new : Contexts} (hn : (new.map Prod.fst).Nodup)
    (contexts : Contexts) (j : String) :
    assocGet? j (applyContext contexts (diffContext old new)) =
      match assocGet? j new with
      | some context => updated old j context (assocGet? j contexts)
      | none => assocGet? j contexts := by
  rw [diffContext]
  induction new generalizing contexts with
  | nil => rfl
  | cons e rest ih =>
    obtain ⟨cid, context⟩ := e
    obtain ⟨hfresh, hrest⟩ := nodup_cons.mp hn
    rw [flatMap_cons, applyContext, foldl_append, ← applyContext, ← applyContext,
      ih hrest, assocGet?]
    by_cases hj : cid = j
    · subst hj
      rw [if_pos rfl, assocGet?_eq_none_iff.mpr hfresh]
      exact (get?_diffOne old contexts cid context cid).trans (if_pos rfl)
    · rw [if_neg hj, get?_diffOne, if_neg (Ne.symm hj)]

/-- No context is gone, and one whose deltas are only its new messages has kept the old ones. -/
def ContextsCarry (old new : Contexts) : Prop :=
  ∀ cid oldContext, assocGet? cid old = some oldContext → ∃ context,
    assocGet? cid new = some context ∧ (grew oldContext context = true →
      State.same oldContext.offloadMessages context.offloadMessages = true ∧
        Json.eqvList true oldContext.messages
          (context.messages.take oldContext.messages.length) = true)

theorem eqvList_append {xs ys us ws : List Json} (h : Json.eqvList true xs ys = true)
    (h' : Json.eqvList true us ws = true) : Json.eqvList true (xs ++ us) (ys ++ ws) = true := by
  match xs, ys with
  | [], [] => exact h'
  | x :: xs, y :: ys =>
    rw [Json.eqvList, Bool.and_eq_true] at h
    rw [cons_append, cons_append, Json.eqvList, Bool.and_eq_true]
    exact ⟨h.1, eqvList_append h.2 h'⟩

theorem messages_alike {old here new : EncodedContext} (hhere : here.Alike old)
    (hnew : (Json.list new.messages).Distinct)
    (hkept : Json.eqvList true old.messages (new.messages.take old.messages.length) = true) :
    (Json.list (here.messages ++ new.messages.drop old.messages.length)).Alike
      (.list new.messages) := by
  have hd : ∀ x ∈ new.messages, x.Distinct := by
    rw [Json.Distinct] at hnew
    exact distinctList_iff.mp hnew
  have hleft := hhere.messages.left
  have hold := hhere.messages.right
  rw [Json.Distinct, distinctList_iff] at hleft
  have htake : (Json.list (new.messages.take old.messages.length)).Distinct := by
    rw [Json.Distinct, distinctList_iff]
    exact fun x hx => hd x (mem_of_mem_take hx)
  have hdrop : Json.DistinctList (new.messages.drop old.messages.length) :=
    distinctList_iff.mpr fun x hx => hd x (mem_of_mem_drop hx)
  have hfront : (Json.list here.messages).Alike
      (.list (new.messages.take old.messages.length)) := by
    refine hhere.messages.trans ⟨hold, htake, ?_⟩
    rw [Json.same, Json.eqv]
    exact hkept
  refine ⟨?_, hnew, ?_⟩
  · rw [Json.Distinct, distinctList_iff]
    intro x hx
    rcases mem_append.mp hx with hx | hx
    · exact hleft x hx
    · exact hd x (mem_of_mem_drop hx)
  · have hsame := hfront.same
    rw [Json.same, Json.eqv] at hsame ⊢
    have happend := eqvList_append hsame (Json.sameList_refl _ hdrop)
    rwa [take_append_drop] at happend

theorem applyContext_alike {old new contexts : Contexts} (hnew : Contexts.Alike new new)
    (hcarry : ContextsCarry old new) (h : Contexts.Alike contexts old) :
    Contexts.Alike (applyContext contexts (diffContext old new)) new := by
  refine ⟨nodup_applyContext h.left _, hnew.left, fun cid => ?_⟩
  rw [get?_applyContext hnew.left]
  have hhere := h.keys cid
  have hself := hnew.keys cid
  cases hc : assocGet? cid new with
  | none =>
    cases hold : assocGet? cid old with
    | none =>
      rw [hold] at hhere
      exact hhere
    | some oldContext =>
      obtain ⟨context, hcontext, -⟩ := hcarry cid oldContext hold
      rw [hc] at hcontext
      cases hcontext
  | some context =>
    rw [hc] at hself
    have hcontext : context.Alike context := by
      cases hself with
      | some h => exact h
    show Option.Rel _ (updated old cid context (assocGet? cid contexts)) (some context)
    rw [updated]
    cases hold : assocGet? cid old with
    | none => exact .some hcontext
    | some oldContext =>
      rw [hold] at hhere
      generalize assocGet? cid contexts = x at hhere
      cases hhere with
      | @some here _ hhere =>
        obtain ⟨context', hcontext', hkept⟩ := hcarry cid oldContext hold
        rw [hc] at hcontext'
        cases hcontext'
        by_cases hgrew : grew oldContext context = true
        · obtain ⟨hoffload, hmessages⟩ := hkept hgrew
          have hoff : State.Alike here.offloadMessages context.offloadMessages :=
            Json.Alike.trans hhere.offloadMessages
              ⟨hhere.offloadMessages.right, hcontext.offloadMessages.left, hoffload⟩
          have hmsg := messages_alike hhere hcontext.messages.left hmessages
          simp only [hgrew, if_true]
          by_cases htail : (context.messages.drop oldContext.messages.length).isEmpty = true
          · simp only [htail, if_true]
            rw [isEmpty_iff.mp htail, append_nil] at hmsg
            exact .some ⟨hmsg, hoff⟩
          · simp only [htail, Bool.false_eq_true, if_false]
            exact .some ⟨hmsg, hoff⟩
        · simp only [hgrew, Bool.false_eq_true, if_false]
          exact .some hcontext

structure Versioned where
  context : Contexts
  state : State

structure SessionDelta where
  context : List MessageDelta
  state : StateDelta

structure Versioned.Alike (a b : Versioned) : Prop where
  context : Contexts.Alike a.context b.context
  state : State.Alike a.state b.state

/-- The differences that `append` writes and `_restore_at_event` applies. -/
def sessionTrack : Track Versioned SessionDelta where
  empty := ⟨[], []⟩
  diff last live := ⟨diffContext last.context live.context, diffState last.state live.state⟩
  unchanged delta := delta.context.isEmpty && delta.state.set.isEmpty && delta.state.removed.isEmpty
  apply s delta := ⟨applyContext s.context delta.context, applyState s.state delta.state⟩
  Alike := Versioned.Alike

theorem sessionTrack_lawful : sessionTrack.Lawful where
  symm h := ⟨h.context.symm, Json.Alike.symm h.state⟩
  trans h h' := ⟨h.context.trans h'.context, Json.Alike.trans h.state h'.state⟩
  empty := ⟨⟨nodup_nil, nodup_nil, fun _ => .none⟩, alike_nil⟩

/-- The deltas carry the live session: contexts, and each change of the state. -/
structure SessionCarries (last live : Versioned) : Prop where
  distinct : live.Alike live
  context : ContextsCarry last.context live.context
  state : Carries last.state live.state

theorem SessionCarries.carries {last live : Versioned} (h : SessionCarries last live) :
    sessionTrack.Carries last live := by
  intro s hs
  refine ⟨applyContext_alike h.distinct.context h.context hs.context, ?_⟩
  have hlast : last.state.Distinct := hs.state.right
  have hlive : live.state.Distinct := h.distinct.state.left
  have hset := @distinct_diffState last.state live.state hlive
  have happlied := alike_applyState hset (Json.Alike.refl hlast : State.Alike _ _)
  exact Json.Alike.trans (alike_applyState hset hs.state)
    ⟨happlied.left, hlive, applyState_same hlast hlive h.state⟩

/-!
## Restored sessions

The runs of a session under version control, without crashes and with them. Where the difference
of each append carries the live session, restoring an event gives the session that was recorded
for it, from any snapshot. With crashes the log file has to be found as a completed append or a
rewind leaves it, or the next entry stands twice or on an unfinished line.
-/

abbrev SessionVersions := Versions Versioned SessionDelta

abbrev sessionStep (every : ℤ) : SessionVersions → VersionStep Versioned → SessionVersions :=
  Versions.step sessionTrack every

abbrev newSession (log : Log SessionDelta) : SessionVersions := newVersions sessionTrack log

/-- An entry that is written carries the live session, under a key in the order of the ids. -/
def WritesCarried (v : SessionVersions) (live : Versioned) : Prop :=
  sessionTrack.unchanged (sessionTrack.diff v.last live) = false →
    SessionCarries v.last live ∧ v.backend.headEvent + 1 < Nat.pow 10 eventIdWidth

/-- No step is a crash, and each append carries the live session. -/
def Undisturbed (v : SessionVersions) : VersionStep Versioned → Prop
  | .append live _ => WritesCarried v live
  | .commit live _ _ => WritesCarried v live
  | .snapshot _ => True
  | .rewind _ => True
  | .reload => True
  | .crash _ _ => False

/-- The file ends behind a line of its own, with no entry behind the head. -/
def Log.Tidy {D : Type*} (headEvent : ℕ) : Log D → Prop
  | .jsonl lines tail => tail = none ∧ ∀ l ∈ lines, ∃ e, l = .entry e ∧ e.eventId ≤ headEvent
  | .kv _ => True

theorem Log.Tidy.ready {D : Type*} {log : Log D} {headEvent : ℕ} (h : log.Tidy headEvent)
    (hwidth : headEvent + 1 < Nat.pow 10 eventIdWidth) : log.Ready headEvent := by
  cases log with
  | jsonl lines tail => exact h
  | kv entries => exact hwidth

theorem Log.Tidy.append {D : Type*} {log : Log D} {headEvent : ℕ} (h : log.Tidy headEvent)
    {e : LogEntry D} (he : e.eventId = headEvent + 1) : (log.append e).Tidy (headEvent + 1) := by
  cases log with
  | jsonl lines tail =>
    obtain ⟨rfl, hlines⟩ := h
    refine ⟨rfl, fun l hl => ?_⟩
    rcases mem_append.mp hl with hl | hl
    · obtain ⟨f, hf, hle⟩ := hlines l hl
      exact ⟨f, hf, hle.trans (Nat.le_succ _)⟩
    · exact ⟨e, mem_singleton.mp hl, he.le⟩
  | kv entries => exact True.intro

theorem Log.tidy_truncate {D : Type*} (log : Log D) (afterEventId : ℕ) :
    (log.truncate afterEventId).Tidy afterEventId := by
  cases log with
  | jsonl lines tail =>
    refine ⟨rfl, fun l hl => ?_⟩
    obtain ⟨e, he, rfl⟩ := mem_map.mp hl
    exact ⟨e, rfl, of_decide_eq_true (mem_filter.mp he).2⟩
  | kv entries => exact True.intro

def SoundTidy (v : SessionVersions) : Prop :=
  (∃ line, Sound sessionTrack v line) ∧ v.backend.log.Tidy v.backend.headEvent

variable {every : ℤ} {v : SessionVersions}

theorem WritesCarried.appends {live : Versioned} (h : WritesCarried v live)
    (hv : SoundTidy v) : v.Appends sessionTrack live := by
  intro hchanged
  obtain ⟨hcarries, hwidth⟩ := h hchanged
  exact ⟨hcarries.carries, hv.2.ready hwidth⟩

theorem tidy_append (every : ℤ) (hv : SoundTidy v) (live : Versioned) (snapshotId : String) :
    (v.append sessionTrack every live snapshotId).backend.log.Tidy
      (v.append sessionTrack every live snapshotId).backend.headEvent := by
  obtain ⟨⟨line, hsound⟩, htidy⟩ := hv
  have hhead := hsound.headEvent_advance live
  have hnext : (v.advance sessionTrack live).backend.log.Tidy
      (v.advance sessionTrack live).backend.headEvent := by
    rw [hhead]
    exact htidy.append (congrArg (· + 1) hsound.head)
  rw [Versions.append]
  split
  · exact htidy
  · dsimp only
    split
    · exact hnext
    · exact hnext

theorem undisturbed_step {s : VersionStep Versioned} (hv : SoundTidy v) (hs : Undisturbed v s) :
    SoundTidy (sessionStep every v s) := by
  have hallows : v.Allows sessionTrack s := by
    cases s with
    | append live snapshotId => exact WritesCarried.appends hs hv
    | commit live snapshotId commitId => exact WritesCarried.appends hs hv
    | crash live point => exact hs.elim
    | snapshot _ => exact True.intro
    | rewind _ => exact True.intro
    | reload => exact True.intro
  refine ⟨sound_step sessionTrack_lawful hv.1 hallows, ?_⟩
  cases s with
  | append live snapshotId => exact tidy_append every hv live snapshotId
  | commit live snapshotId commitId =>
    obtain ⟨line, hsound⟩ := hv.1
    have happended : ∃ line', Sound sessionTrack (v.append sessionTrack every live snapshotId)
        line' := hsound.append sessionTrack_lawful hallows snapshotId
    obtain ⟨line', hsound'⟩ := happended
    have htidy := tidy_append every hv live snapshotId
    rw [← hsound'.head] at htidy
    exact htidy
  | snapshot _ => exact hv.2
  | rewind ref =>
    rw [sessionStep, Versions.step]
    cases resolveEventId v.backend ref with
    | none => exact hv.2
    | some target => exact v.backend.log.tidy_truncate target
  | reload => exact hv.2
  | crash live point => exact hs.elim

/-- **Restoring does not depend on the snapshots.** In every run without crashes whose appends
carry the live session, whatever the cadence, restoring an event gives the session recorded for
it, and so does replaying the whole log. -/
theorem restore_cadence_free {log : Log SessionDelta} (hlog : log.Empty)
    {steps : List (VersionStep Versioned)}
    (hsteps : Meets (sessionStep every) Undisturbed (newSession log) steps)
    {v : SessionVersions} (hv : Reached (sessionStep every) (newSession log) steps v) :
    ∀ r ∈ v.recorded, (∃ s, v.restore sessionTrack (.event r.1) = some s ∧ s.Alike r.2) ∧
      (replay sessionTrack r.1 sessionTrack.empty (v.backend.log.read 0)).Alike r.2 := by
  have hstart : SoundTidy (newSession log) := by
    refine ⟨⟨_, sound_newVersions sessionTrack_lawful hlog⟩, ?_⟩
    rcases hlog with rfl | rfl
    · exact ⟨rfl, fun l hl => by cases hl⟩
    · exact True.intro
  obtain ⟨⟨line, hsound⟩, -⟩ :=
    reached_invariant (fun _ _ hv hs => undisturbed_step hv hs) hstart hsteps hv
  exact hsound.restores sessionTrack_lawful

def oneKey (key : String) : Versioned := ⟨[], [(key, .null)]⟩

theorem oneKey_alike (key : String) : (oneKey key).Alike (oneKey key) := by
  refine ⟨⟨nodup_nil, nodup_nil, fun _ => .none⟩, Json.Alike.refl ?_⟩
  simp [oneKey, Json.Distinct, Json.DistinctEntries]

theorem sessionCarries_oneKey : SessionCarries ⟨[], []⟩ (oneKey "a") :=
  ⟨oneKey_alike "a", fun _ _ h => (by cases h), carries_plain_key⟩

theorem one_append_restored : ∃ s,
    (run (sessionStep 0) (newSession (.jsonl [] none)) [.append (oneKey "a") "s"]).restore
      sessionTrack (.event 1) = some s ∧ s.Alike (oneKey "a") := by
  have hsteps : Meets (sessionStep 0) Undisturbed (newSession (.jsonl [] none))
      [.append (oneKey "a") "s"] :=
    ⟨fun _ => ⟨sessionCarries_oneKey, by decide⟩, True.intro⟩
  have hrestored := restore_cadence_free (.inl rfl) hsteps ⟨_, prefix_rfl, rfl⟩
  exact (hrestored (1, oneKey "a") (.head _)).1

theorem dotted_key_not_restored :
    ¬ ∀ (every : ℤ) (steps : List (VersionStep Versioned)),
      ∀ r ∈ (run (sessionStep every) (newSession (.jsonl [] none)) steps).recorded,
        r.2.state.Distinct → ∃ s,
          (run (sessionStep every) (newSession (.jsonl [] none)) steps).restore sessionTrack
            (.event r.1) = some s ∧ s.state.same r.2.state = true := by
  intro h
  obtain ⟨s, hs, hsame⟩ := h 0 [.append (oneKey "a.b") "s"] (1, oneKey "a.b") (.head _)
    (by simp [oneKey, State.Distinct, Json.Distinct, Json.DistinctEntries])
  cases hs
  exact absurd hsame (by decide)

/-- An entry that is written carries the live session and finds the log ready. -/
def WritesReady (v : SessionVersions) (live : Versioned) : Prop :=
  sessionTrack.unchanged (sessionTrack.diff v.last live) = false →
    SessionCarries v.last live ∧ v.backend.log.Ready v.backend.headEvent

/-- Each append, cut off or not, carries the live session and finds the log ready. -/
def FindsReady (v : SessionVersions) : VersionStep Versioned → Prop
  | .append live _ => WritesReady v live
  | .commit live _ _ => WritesReady v live
  | .crash live _ => WritesReady v live
  | .snapshot _ => True
  | .rewind _ => True
  | .reload => True

theorem FindsReady.allows {s : VersionStep Versioned} (hs : FindsReady v s) :
    v.Allows sessionTrack s := by
  have hwrites : ∀ live, WritesReady v live → v.Appends sessionTrack live := by
    intro live h hchanged
    exact ⟨(h hchanged).1.carries, (h hchanged).2⟩
  cases s with
  | append live snapshotId => exact hwrites live hs
  | commit live snapshotId commitId => exact hwrites live hs
  | crash live point => exact hwrites live hs
  | snapshot _ => exact True.intro
  | rewind _ => exact True.intro
  | reload => exact True.intro

theorem sound_of_ready {log : Log SessionDelta} (hlog : log.Empty)
    {steps : List (VersionStep Versioned)}
    (hsteps : Meets (sessionStep every) FindsReady (newSession log) steps)
    {v : SessionVersions} (hv : Reached (sessionStep every) (newSession log) steps v) :
    ∃ line, Sound sessionTrack v line :=
  reached_invariant (I := fun v => ∃ line, Sound sessionTrack v line)
    (fun _ _ h hs => sound_step sessionTrack_lawful h (FindsReady.allows hs))
    ⟨_, sound_newVersions sessionTrack_lawful hlog⟩ hsteps hv

end JiuwenSpec.Vcs

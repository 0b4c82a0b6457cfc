import JiuwenSpec.Swarm.Resume

/-!
# Resumed runs return what uninterrupted ones do

Whatever was interrupted, the tasks of a run are where the replies of the backend lead, and its
log holds records of these replies under keys that stand for one call each. So a record that is
served is the reply the backend would give.
-/

namespace JiuwenSpec.Swarm

open Base List

namespace Workflow

variable {S V R C D σ : Type} (E : Workflow S V R C D σ) [DecidableEq σ]

/-- A record of a call that a run with the replies of the backend makes. -/
def Made (r : Record) : Prop :=
  ∃ es g key req o, Trace (E.scripts.advance E.answer) (Scripts.start E.script) es g ∧
    (key, req) ∈ Scripts.calls es ∧ E.outcome key req = some o ∧ r = E.record key req o

variable {E}

omit [DecidableEq σ] in
theorem Made.eq {r r' : Record} (h : E.Made r) (h' : E.Made r') (hkey : r.key = r'.key) :
    r = r' := by
  obtain ⟨es, g, key, req, o, htrace, hcall, ho, rfl⟩ := h
  obtain ⟨es', g', key', req', o', htrace', hcall', ho', rfl⟩ := h'
  obtain rfl := keyStr_injective hkey
  obtain rfl := Scripts.same_request htrace htrace' hcall hcall'
  cases ho.symm.trans ho'
  rfl

omit [DecidableEq σ] in
theorem Made.runId {r : Record} (h : E.Made r) : r.text? runIdName = some E.runId := by
  obtain ⟨es, g, key, req, o, -, -, -, rfl⟩ := h
  rfl

variable {call : Scripts.Call R}

omit [DecidableEq σ] in
theorem Made.reply {r : Record} (h : E.Made r) {es : List (List Nat × Option (Scripts.Call R))}
    {g : Flow S V R} (htrace : Trace (E.scripts.advance E.answer) (Scripts.start E.script) es g)
    (hcall : call ∈ Scripts.calls es) (hkey : r.key = keyStr call.1) :
    (rehydrate E.models r (E.schema call.2).cls?).map E.give = E.answer call.1 call.2 := by
  obtain ⟨es', g', key, req, o, htrace', hcall', ho, rfl⟩ := h
  obtain ⟨key', req'⟩ := call
  obtain rfl := keyStr_injective hkey
  obtain rfl := Scripts.same_request htrace htrace' hcall hcall'
  have hread : rehydrate E.models (E.record key req' o) (E.schema req').cls? = some o.result :=
    rehydrate_makeRecord E.models ho key _ E.runId
  rw [hread, answer, ho]
  rfl

variable (E) in
/-- The tasks are where replies of the backend lead; the log and what was loaded from it hold
records of the run only, and all that had been completed; no call that went on had a record. -/
structure Faithful (w : World S V R σ) : Prop where
  traced : ∃ es, Trace (E.scripts.advance E.answer) (Scripts.start E.script) es w.flow
  sound : w.wal.Sound
  made : ∀ r, r ∈ w.wal.completed ∨ w.wal.torn = some r → E.Made r
  prior : ∀ key r, w.prior.get? key = some r → r.text? runIdName = some E.runId →
    E.Made r ∧ r.key = key
  kept : ∀ r ∈ w.left, E.Made r ∧ ∃ r', w.prior.get? r.key = some r'  ∧ E.Made r'
  missed : ∀ call ∈ w.live, E.cached w.prior call = none
  own : ∀ r ∈ w.served, r.text? runIdName = some E.runId

variable {w : World S V R σ}

omit [DecidableEq σ] in
theorem Faithful.called (h : E.Faithful w) {p : List Nat}
    (hcall : Flow.callAt p w.flow = some call) :
    ∃ es, Trace (E.scripts.advance E.answer) (Scripts.start E.script) es w.flow ∧
      call ∈ Scripts.calls es := by
  obtain ⟨es, htrace⟩ := h.traced
  refine ⟨es, htrace, ?_⟩
  rcases Scripts.mem_calls_of_callAt htrace hcall with hmem | ⟨q, hq⟩
  · exact hmem
  · rw [Scripts.start, Scripts.callAt_run] at hq
    cases hq

omit [DecidableEq σ] in
theorem made_record (h : E.Faithful w) {p : List Nat}
    {o : Outcome D} (hcall : Flow.callAt p w.flow = some call)
    (ho : E.outcome call.1 call.2 = some o) : E.Made (E.record call.1 call.2 o) := by
  obtain ⟨es, htrace, hmem⟩ := h.called hcall
  exact ⟨es, w.flow, call.1, call.2, o, htrace, hmem, ho, rfl⟩

omit [DecidableEq σ] in
theorem Faithful.resume (h : E.Faithful w) {p : List Nat} {v : Option V}
    (hv : ∀ call, Flow.callAt p w.flow = some call → v = E.answer call.1 call.2) :
    E.Faithful (E.resume w p v) := by
  unfold Workflow.resume
  split
  · exact h
  · next e hstep =>
    obtain ⟨es, htrace⟩ := h.traced
    have hreply : E.scripts.advance E.answer p w.flow = some e := by
      rw [← hstep]
      exact Scripts.advance_congr fun call hcall => (hv call hcall).symm
    exact { h with traced := ⟨es ++ [(p, e.1)], htrace.append (.cons hreply (.nil _))⟩ }

omit [DecidableEq σ] in
theorem faithful_boot {wal : Wal} (hsound : wal.Sound)
    (hmade : ∀ r, r ∈ wal.completed ∨ wal.torn = some r → E.Made r) :
    E.Faithful (E.boot wal : World S V R σ) := by
  obtain ⟨text, hfile, -, extra, hread, hextra⟩ := id hsound
  have hrecords : ∀ r ∈ wal.completed ++ extra, E.Made r := by
    intro r hr
    rcases mem_append.mp hr with hr | hr
    · exact hmade r (.inl hr)
    · rcases hextra with rfl | ⟨-, t, htorn, rfl⟩
      · cases hr
      · obtain rfl := mem_singleton.mp hr
        exact hmade r (.inr htorn)
  have hload : load { E.files with wal := some wal.file } =
      some (overlay E.shared (wal.completed ++ extra)) := by
    rw [hfile, load_files E.loads, hread]
  unfold boot
  rw [hload]
  refine ⟨⟨[], .nil _⟩, hsound, hmade, ?_, ?_, ?_, ?_⟩
  · intro key r hr hid
    dsimp only at hr
    rw [get?_overlay] at hr
    cases hlast : lastRecord (wal.completed ++ extra) key with
    | none =>
      rw [hlast] at hr
      exact absurd hid (E.foreign key r hr)
    | some r' =>
      rw [hlast] at hr
      cases hr
      obtain ⟨hmem, hkey⟩ := lastRecord_mem hlast
      exact ⟨hrecords _ hmem, hkey⟩
  · intro r hr
    refine ⟨hmade r (.inl hr), ?_⟩
    obtain ⟨r', hr'⟩ := exists_lastRecord (mem_append_left extra hr)
    refine ⟨r', ?_, hrecords r' (lastRecord_mem hr').1⟩
    rw [get?_overlay, hr']
  · exact fun call hcall => nomatch hcall
  · exact fun r hr => nomatch hr

omit [DecidableEq σ] in
theorem Faithful.made_step (h : E.Faithful w) {p : List Nat}
    {o : Outcome D} (hcall : Flow.callAt p w.flow = some call)
    (ho : E.outcome call.1 call.2 = some o) {s : WalStep}
    (hs : ∃ n, s = .append (E.record call.1 call.2 o) ∨ s = .crash (E.record call.1 call.2 o) n)
    {r : Record} (hr : r ∈ (w.wal.step s).completed ∨ (w.wal.step s).torn = some r) : E.Made r := by
  rcases Wal.mem_step hr with hr | ⟨m, hm⟩
  · exact h.made r hr
  · have hsame : r = E.record call.1 call.2 o := by
      obtain ⟨n, rfl | rfl⟩ := hs
      · rcases hm with hm | hm
        · exact (WalStep.append.inj hm).symm
        · cases hm
      · rcases hm with hm | hm
        · cases hm
        · exact (WalStep.crash.inj hm).1.symm
    rw [hsame]
    exact made_record h hcall ho

omit [DecidableEq σ] in
theorem Faithful.drive (h : E.Faithful w) {p : List Nat} (hmiss : E.cached w.prior call = none)
    (hlimit : (∀ session, E.kind call.2 ≠ .humanTurn session) → w.spawnCount < E.spawnLimit) :
    E.Faithful (E.drive w p call) := by
  have hlive : ∀ c ∈ call :: w.live, E.cached w.prior c = none := by
    intro c hc
    rcases mem_cons.mp hc with rfl | hc
    · exact hmiss
    · exact h.missed c hc
  unfold Workflow.drive
  split
  · exact { h with missed := hlive }
  · next hkind =>
    rw [if_neg (Nat.not_le_of_lt (hlimit hkind))]
    exact { h with missed := hlive }

/-- **Every step keeps a run faithful.** -/
theorem faithful_step {e : RunEvent σ} (h : E.Faithful w)
    (he : E.Allows w e) : E.Faithful (E.step w e) := by
  cases e with
  | go p =>
    rw [step]
    split
    · next hnone =>
      apply h.resume
      intro call hcall
      rw [hnone] at hcall
      cases hcall
    · exact h
  | enter p =>
    rw [step]
    split
    · exact h
    · next call hcall =>
      split
      · exact h
      · next hnew =>
        rw [not_or] at hnew
        split
        · next hmiss => exact h.drive hmiss (he call hcall hnew.1 hnew.2 hmiss)
        · next r hhit =>
          obtain ⟨hget, -, hid⟩ := getCached_eq_some_iff.mp hhit
          obtain ⟨hmade, hkey⟩ := h.prior _ _ hget hid
          have hserved : E.Faithful { w with served := r :: w.served } := by
            refine { h with own := fun s hs => ?_ }
            rcases mem_cons.mp hs with rfl | hs
            · exact hid
            · exact h.own s hs
          apply hserved.resume
          intro call' hcall'
          cases hcall.symm.trans hcall'
          obtain ⟨es, htrace, hmem⟩ := h.called hcall
          exact hmade.reply htrace hmem hkey
  | acquired p =>
    rw [step]
    split
    · exact h
    · split
      · unfold admitted
        split
        · split
          · exact { h with }
          · exact { h with }
        · exact { h with }
      · exact h
  | finish p =>
    rw [step]
    split
    · exact h
    · next call hcall =>
      split
      · next hflight =>
        have hreply : ∀ call', Flow.callAt p w.flow = some call' →
            some (E.give ((E.outcome call.1 call.2).elim .none Outcome.result)) =
              E.answer call'.1 call'.2 := by
          intro call' hcall'
          cases hcall.symm.trans hcall'
          rfl
        cases ho : E.outcome call.1 call.2 with
        | none =>
          have hended : E.Faithful { w with inFlight := w.inFlight.erase call.1 } := { h with }
          rw [ho] at hreply
          exact hended.resume hreply
        | some o =>
          have hlogged : E.Faithful { w with
              inFlight := w.inFlight.erase call.1
              wal := w.wal.step (.append (E.record call.1 call.2 o)) } :=
            { h with
              sound := Wal.sound_step h.sound (he call hcall hflight o ho)
              made := fun r hr => h.made_step hcall ho ⟨0, .inl rfl⟩ hr }
          rw [ho] at hreply
          exact hlogged.resume hreply
      · exact h
  | aclose session => exact { h with }
  | crash p n =>
    rw [step]
    split
    · exact h
    · next call hcall =>
      split
      · next hflight =>
        cases ho : E.outcome call.1 call.2 with
        | none => exact h
        | some o =>
          have hsound := Wal.sound_step h.sound (he call hcall hflight o ho)
          exact faithful_boot hsound fun r hr => h.made_step hcall ho ⟨n, .inr rfl⟩ hr
      · exact h
  | interrupt => exact faithful_boot h.sound h.made

variable (E) in
theorem faithful_reached {events : List (RunEvent σ)}
    (h : Meets E.step E.Allows E.fresh events) (hw : Reached E.step E.fresh events w) :
    E.Faithful w := by
  apply reached_invariant (I := E.Faithful) _ _ h hw
  · exact fun w e hw he => faithful_step hw he
  · apply faithful_boot
    · exact ⟨[], rfl, by simp, [], rfl, .inl rfl⟩
    · rintro r (hr | hr)
      · cases hr
      · cases hr

/-- **Resuming is equivalent to running through**: in a run that may be interrupted and started
again at any point, where no call without a record finds the spawn limit reached and each record
is written so that it can be read back, what was started again returns what an uninterrupted run
returns, sends no call to the backend that has a record, and is served no record of another
run. -/
theorem resume_equivalent (E : Workflow S V R C D σ) {events : List (RunEvent σ)}
    {w : World S V R σ} (h : Meets E.step E.Allows E.fresh events)
    (hw : Reached E.step E.fresh events w) : E.Equivalent w := by
  have hfaithful := faithful_reached E h hw
  refine ⟨?_, ?_, hfaithful.own⟩
  · intro events' u r hmeets _ hu hr
    obtain ⟨es, htrace⟩ := hfaithful.traced
    obtain ⟨fs, hend⟩ := (faithful_reached E hmeets hu).traced
    rw [hr] at hend
    obtain ⟨v, es', fs', hes, hfs, -⟩ :=
      Trace.join (Scripts.commuting_advance E.scripts E.answer) htrace hend
    have hdone : ∀ r' : Option V, ∀ p, E.scripts.advance E.answer p (.done r') = none :=
      fun r' p => Scripts.advance_done p r'
    obtain ⟨-, rfl⟩ := Trace.eq_of_final (hdone r) hfs
    refine ⟨⟨es', hes⟩, fun r' hr' => ?_⟩
    rw [hr'] at hes
    exact (Flow.done.inj (Trace.eq_of_final (hdone r') hes).2).symm
  · rintro call hlive r hleft ⟨hkey, hsig, hid⟩
    obtain ⟨hmade, r', hget, hmade'⟩ := hfaithful.kept r hleft
    obtain ⟨-, hkey'⟩ := hfaithful.prior _ _ hget hmade'.runId
    obtain rfl := hmade.eq hmade' hkey'.symm
    have hhit : E.cached w.prior call = some r := by
      rw [hkey] at hget
      exact getCached_eq_some_iff.mpr ⟨hget, hsig, hid⟩
    rw [hfaithful.missed call hlive] at hhit
    cases hhit

def twoCalls (text : Text) : Workflow Nat Unit Nat Empty Empty Empty where
  scripts :=
    { view := fun
        | 0 => .agent 0 fun _ => 1
        | 1 => .agent 1 fun _ => 2
        | _ => .ret ()
      null := () }
  script := 0
  give _ := ()
  models := ⟨nofun, nofun, fun _ _ => true, nofun, nofun⟩
  schema _ := .text
  identity _ := ⟨['s'], none, none⟩
  kind _ := .agent
  backend _ _ _ := .result (some text) (.literal .null) trivial 0
  retries := 2
  spawnLimit := 1000
  runId := ['r']
  files := {}
  shared := Dict.empty
  loads := rfl
  foreign := nofun

def firstRecord (text : Text) : Record :=
  (twoCalls text).record [callSegment 0] 0 ⟨.plain (.string text), trivial, some text, 0⟩

def firstCall : List (RunEvent Empty) := [.go [], .enter [], .acquired [], .finish []]

def startedAgain : List (RunEvent Empty) := firstCall ++ [.interrupt, .go [], .enter []]

theorem fresh_twoCalls (text : Text) :
    (twoCalls text).fresh = { flow := Scripts.start 0 } := by
  have hload : load { (twoCalls text).files with wal := some (writeText []) } =
      some (overlay Dict.empty (parseRecords [])) := load_files (twoCalls text).loads []
  unfold fresh boot
  rw [hload]
  rfl

theorem run_firstCall (text : Text) :
    run (twoCalls text).step (twoCalls text).fresh firstCall =
      { flow := .run { next := 1 } 1
        wal := Wal.append {} (firstRecord text)
        spawnCount := 1
        live := [([callSegment 0], 0)] } := by
  rw [fresh_twoCalls]
  rfl

theorem meets_firstCall {text : Text} (h : (firstRecord text).Unbroken) :
    Meets (twoCalls text).step (twoCalls text).Allows (twoCalls text).fresh firstCall := by
  rw [fresh_twoCalls]
  refine ⟨trivial, fun _ _ _ _ _ _ => (by decide : 0 < 1000), trivial, ?_, trivial⟩
  intro call hcall _ o ho
  cases hcall
  cases ho
  exact ⟨⟨[], rfl, blankEnd_nil⟩, h⟩

omit [DecidableEq σ] in
theorem spawnCount_boot (wal : Wal) : (E.boot wal : World S V R σ).spawnCount = 0 := by
  unfold boot
  split <;> rfl

theorem spawnCount_go (w : World S V R σ) (p : List Nat) :
    (E.step w (.go p)).spawnCount = w.spawnCount := by
  rw [step]
  split
  · unfold Workflow.resume
    split <;> rfl
  · rfl

theorem twoCalls_resumed :
    (twoCalls []).Equivalent (run (twoCalls []).step (twoCalls []).fresh startedAgain) := by
  have hunbroken : (firstRecord []).Unbroken := by decide
  have hmeets : Meets (twoCalls []).step (twoCalls []).Allows (twoCalls []).fresh
      startedAgain := by
    apply meets_append.mpr
    refine ⟨meets_firstCall hunbroken, trivial, trivial, ?_, trivial⟩
    intro _ _ _ _ _ _
    rw [spawnCount_go, step, spawnCount_boot]
    exact (by decide : 0 < 1000)
  exact resume_equivalent (twoCalls []) hmeets ⟨startedAgain, prefix_refl _, rfl⟩

/-- A result with a line separator: the call that has completed is made again. -/
theorem separator_called_again :
    ¬ (twoCalls ['\u2028']).Equivalent
      (run (twoCalls ['\u2028']).step (twoCalls ['\u2028']).fresh startedAgain) := by
  have hbroken : ¬ (firstRecord ['\u2028']).Unbroken := by decide
  have hfile : (Wal.append {} (firstRecord ['\u2028'])).file =
      writeText (walText [firstRecord ['\u2028']]) := by
    show writeText [] ++ writeText (walLine _) = _
    rw [← writeText_append, walText_cons]
    exact congrArg writeText (append_nil _).symm
  have hload : load { (twoCalls ['\u2028']).files with
      wal := some (Wal.append {} (firstRecord ['\u2028'])).file } = some Dict.empty := by
    rw [hfile, load_files (twoCalls ['\u2028']).loads, parseRecords_walText]
    simp [hbroken, overlay]
    rfl
  have hboot : (twoCalls ['\u2028']).boot (Wal.append {} (firstRecord ['\u2028'])) =
      { flow := Scripts.start 0
        wal := Wal.append {} (firstRecord ['\u2028'])
        left := [firstRecord ['\u2028']] } := by
    unfold boot
    rw [hload]
    rfl
  intro h
  rw [startedAgain, run_append, run_firstCall, run_cons, step, hboot] at h
  exact h.once ([callSegment 0], 0) (.head _) (firstRecord ['\u2028'])
    mem_cons_self ⟨rfl, rfl, rfl⟩

end Workflow

end JiuwenSpec.Swarm

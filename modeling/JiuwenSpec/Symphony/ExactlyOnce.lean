import JiuwenSpec.Base.Census
import JiuwenSpec.Symphony.MutationCoordinator

/-!
# Mutations happen once

An activated mutation is journaled, or is the current artifact. This lasts as long as nothing is
activated over a mutation whose record is missing.
-/

namespace JiuwenSpec.Symphony

open Base List

def MutationCall.mutation (call : MutationCall) (r : MutationResult) : Mutation :=
  ⟨call.requestId, call.requestDigest, r⟩

namespace ArtifactRoot

variable {s t : ArtifactRoot} {c : Nat} {call : MutationCall} {p : MutationPhase}

/-- The current artifact is journaled, if it is one of a mutation. -/
def Settled (s : ArtifactRoot) : Prop :=
  ∀ m, s.currentMutation = some m → assocGet? m.requestId s.requests ≠ none

def Known (s : ArtifactRoot) (m : Mutation) : Prop :=
  assocGet? m.requestId s.requests = some (m.requestDigest, m.result) ∨
    (assocGet? m.requestId s.requests = none ∧ s.currentMutation = some m)

def Fresh (s : ArtifactRoot) (requestId : Text) : Prop :=
  assocGet? requestId s.requests = none ∧
    ∀ e ∈ s.activations, e.mutation.requestId ≠ requestId

def Progress (s : ArtifactRoot) (call : MutationCall) : MutationPhase → Prop
  | .recovering => assocGet? call.requestId s.requests = none
  | .rerecording r =>
    assocGet? call.requestId s.requests = none ∧ s.currentMutation = some (call.mutation r)
  | .preparing | .validating _ => s.Fresh call.requestId
  | .staging _ => s.Fresh call.requestId
  | .staged r =>
    s.Fresh call.requestId ∧ assocGet? r.version s.versions = some (some (call.mutation r))
  | .recording r => assocGet? call.requestId s.requests = none ∧
      ∀ e ∈ s.activations, e.mutation.requestId = call.requestId → e.mutation = call.mutation r
  | .reading | .returned _ | .failed | .crashed => True

/-- What a call does whose request id was used before it began. -/
def Retries (s : ArtifactRoot) (call : MutationCall) (digest : Text) (r : MutationResult) :
    MutationPhase → Prop
  | .reading | .recovering => s.Known ⟨call.requestId, digest, r⟩
  | .rerecording r' | .returned r' => call.requestDigest = digest ∧ r' = r
  | .failed => call.requestDigest ≠ digest
  | .crashed => True
  | .preparing | .validating _ | .staging _ | .staged _ | .recording _ => False

structure Inv (s : ArtifactRoot) : Prop where
  distinct : s.activations.Pairwise fun e e' => e.mutation.requestId ≠ e'.mutation.requestId
  known : ∀ e ∈ s.activations, s.Known e.mutation
  built : ∀ e ∈ s.activations,
    e.overVersion = e.mutation.result.previousVersion ∧ e.builtOver = some e.overVersion
  present : ∀ v, s.current = some v → assocGet? v s.versions ≠ none
  solo : ∀ (c c' : Nat) (call call' : MutationCall), s.calls[c]? = some call →
    s.calls[c']? = some call' → call.requestId = call'.requestId → call.phase.over = false →
    call'.phase.over = false → c = c'
  progress : ∀ (c : Nat) (call : MutationCall), s.calls[c]? = some call →
    s.Progress call call.phase
  retries : ∀ (c : Nat) (call : MutationCall) (digest : Text) (r : MutationResult),
    s.calls[c]? = some call → call.used = some (digest, r) → s.Retries call digest r call.phase

theorem inv_init : init.Inv where
  distinct := .nil
  known := fun e he => by cases he
  built := fun e he => by cases he
  present := fun v hv => by cases hv
  solo := fun c c' call call' h => by cases h
  progress := fun c call h => by cases h
  retries := fun c call digest r h => by cases h

structure Frame (s t : ArtifactRoot) (x : Option Text) : Prop where
  requests : ∀ y, some y ≠ x → assocGet? y t.requests = assocGet? y s.requests
  versions : ∀ v m, assocGet? v s.versions = some m → assocGet? v t.versions = some m
  activations : ∀ e ∈ t.activations, e ∈ s.activations ∨ some e.mutation.requestId = x
  current : t.currentMutation = s.currentMutation ∨ s.Settled

variable {x : Option Text}

theorem Frame.known (hf : Frame s t x) {m : Mutation}
    (hm : some m.requestId ≠ x) (h : s.Known m) : t.Known m := by
  rcases h with hrec | ⟨hnone, hcur⟩
  · exact .inl ((hf.requests _ hm).trans hrec)
  · rcases hf.current with hsame | hsettled
    · exact .inr ⟨(hf.requests _ hm).trans hnone, hsame.trans hcur⟩
    · exact absurd hnone (hsettled m hcur)

theorem Frame.fresh (hf : Frame s t x) {y : Text} (hy : some y ≠ x)
    (h : s.Fresh y) : t.Fresh y := by
  refine ⟨(hf.requests y hy).trans h.1, fun e he hey => ?_⟩
  rcases hf.activations e he with hold | hnew
  · exact h.2 e hold hey
  · rw [hey] at hnew
    exact hy hnew

theorem Frame.progress (hf : Frame s t x) (hx : some call.requestId ≠ x)
    (h : s.Progress call p) : t.Progress call p := by
  cases p with
  | recovering => exact (hf.requests _ hx).trans h
  | rerecording r =>
    refine ⟨(hf.requests _ hx).trans h.1, ?_⟩
    rcases hf.current with hsame | hsettled
    · exact hsame.trans h.2
    · exact absurd h.1 (hsettled _ h.2)
  | preparing => exact hf.fresh hx h
  | validating v => exact hf.fresh hx h
  | staging r => exact hf.fresh hx h
  | staged r => exact ⟨hf.fresh hx h.1, hf.versions _ _ h.2⟩
  | recording r =>
    refine ⟨(hf.requests _ hx).trans h.1, fun e he hid => ?_⟩
    rcases hf.activations e he with hold | hnew
    · exact h.2 e hold hid
    · rw [hid] at hnew
      exact absurd hnew hx
  | reading => trivial
  | returned r => trivial
  | failed => trivial
  | crashed => trivial

variable {r : MutationResult}

theorem Frame.retries (hf : Frame s t x) (hx : some call.requestId ≠ x)
    {digest : Text} (h : s.Retries call digest r p) : t.Retries call digest r p := by
  cases p with
  | reading => exact hf.known hx h
  | recovering => exact hf.known hx h
  | rerecording r' => exact h
  | returned r' => exact h
  | failed => exact h
  | crashed => trivial
  | preparing => exact h
  | validating v => exact h
  | staging r' => exact h
  | staged r' => exact h
  | recording r' => exact h

theorem progress_of_over (h : p.over = true) : t.Progress call p := by
  cases p with
  | returned r => trivial
  | failed => trivial
  | crashed => trivial
  | reading => trivial
  | recovering => cases h
  | rerecording r => cases h
  | preparing => cases h
  | validating v => cases h
  | staging r => cases h
  | staged r => cases h
  | recording r => cases h

theorem retries_of_over (hp : p.over = true) {digest : Text}
    (h : s.Retries call digest r p) : t.Retries call digest r p := by
  cases p <;> first | exact h | cases hp

theorem Inv.move (h : s.Inv) (hc : s.calls[c]? = some call) (hopen : call.phase.over = false)
    (hcalls : t.calls = s.calls.set c { call with phase := p })
    (hf : Frame s t (some call.requestId))
    (hdistinct : t.activations.Pairwise fun e e' => e.mutation.requestId ≠ e'.mutation.requestId)
    (hknown : ∀ e ∈ t.activations, e.mutation.requestId = call.requestId → t.Known e.mutation)
    (hbuilt : ∀ e ∈ t.activations,
      e.overVersion = e.mutation.result.previousVersion ∧ e.builtOver = some e.overVersion)
    (hpresent : ∀ v, t.current = some v → assocGet? v t.versions ≠ none)
    (hprogress : t.Progress call p)
    (hretries : ∀ digest r, call.used = some (digest, r) → t.Retries call digest r p) : t.Inv := by
  have hother : ∀ (j : Nat) (x : MutationCall), j ≠ c → s.calls[j]? = some x →
      x.phase.over = true ∨ some x.requestId ≠ some call.requestId := by
    intro j x hne hx
    by_cases hover : x.phase.over = true
    · exact .inl hover
    · refine .inr fun hid => hne ?_
      exact h.solo j c x call hx hc (Option.some.inj hid) (by simpa using hover) hopen
  refine ⟨hdistinct, ?_, hbuilt, hpresent, ?_, ?_, ?_⟩
  · intro e he
    by_cases hid : e.mutation.requestId = call.requestId
    · exact hknown e he hid
    · have hne : some e.mutation.requestId ≠ some call.requestId :=
        fun heq => hid (Option.some.inj heq)
      rcases hf.activations e he with hold | hnew
      · exact hf.known hne (h.known e hold)
      · exact absurd hnew hne
  · intro j j' x x' hj hj' hid hx hx'
    rw [hcalls] at hj hj'
    rcases get_set_cases hj with ⟨rfl, rfl⟩ | ⟨_, hold⟩
    · rcases get_set_cases hj' with ⟨rfl, _⟩ | ⟨_, hold'⟩
      · rfl
      · exact h.solo j j' call x' hc hold' hid hopen hx'
    · rcases get_set_cases hj' with ⟨rfl, rfl⟩ | ⟨_, hold'⟩
      · exact h.solo j j' x call hold hc hid hx hopen
      · exact h.solo j j' x x' hold hold' hid hx hx'
  · intro j x hj
    rw [hcalls] at hj
    rcases get_set_cases hj with ⟨rfl, rfl⟩ | ⟨hne, hj⟩
    · exact hprogress
    · rcases hother j x hne hj with hover | hid
      · exact progress_of_over hover
      · exact hf.progress hid (h.progress j x hj)
  · intro j x digest r hj hused
    rw [hcalls] at hj
    rcases get_set_cases hj with ⟨rfl, rfl⟩ | ⟨hne, hj⟩
    · exact hretries digest r hused
    · rcases hother j x hne hj with hover | hid
      · exact retries_of_over hover (h.retries j x digest r hj hused)
      · exact hf.retries hid (h.retries j x digest r hj hused)

theorem Inv.setPhase (h : s.Inv) (hc : s.calls[c]? = some call) (hopen : call.phase.over = false)
    (hprogress : s.Progress call p)
    (hretries : ∀ digest r, call.used = some (digest, r) → s.Retries call digest r p) :
    (s.setPhase c call p).Inv := by
  have hsame : ∀ m, (s.setPhase c call p).Known m ↔ s.Known m := fun m => Iff.rfl
  refine h.move hc hopen rfl ⟨fun _ _ => rfl, fun _ _ hv => hv, fun e he => .inl he, .inl rfl⟩
    h.distinct (fun e he _ => (hsame _).mpr (h.known e he)) h.built h.present ?_ ?_
  · cases p <;> exact hprogress
  · intro digest r hused
    have hret := hretries digest r hused
    cases p <;> exact hret

theorem Inv.readRequest (h : s.Inv) (hc : s.calls[c]? = some call)
    (hphase : call.phase = .reading) : (s.readRequest c call).Inv := by
  have hopen : call.phase.over = false := by rw [hphase]; rfl
  have hret : ∀ digest r, call.used = some (digest, r) → s.Known ⟨call.requestId, digest, r⟩ := by
    intro digest r hused
    have hold := h.retries c call digest r hc hused
    rwa [hphase] at hold
  rw [ArtifactRoot.readRequest]
  split
  · next digest r hget =>
    have hsame : ∀ digest' r', call.used = some (digest', r') → digest = digest' ∧ r = r' := by
      intro digest' r' hused
      rcases hret digest' r' hused with hrec | ⟨hnone, _⟩
      · rw [hget] at hrec
        cases hrec
        exact ⟨rfl, rfl⟩
      · rw [hget] at hnone
        cases hnone
    split
    · next hdigest =>
      refine h.setPhase hc hopen trivial fun digest' r' hused => ?_
      obtain ⟨rfl, rfl⟩ := hsame digest' r' hused
      exact ⟨hdigest.symm, rfl⟩
    · next hdigest =>
      refine h.setPhase hc hopen trivial fun digest' r' hused => ?_
      obtain ⟨rfl, rfl⟩ := hsame digest' r' hused
      exact Ne.symm hdigest
  · next hnone => exact h.setPhase hc hopen hnone fun digest r hused => hret digest r hused

theorem Inv.recover (h : s.Inv) (hc : s.calls[c]? = some call)
    (hphase : call.phase = .recovering) : (s.recover c call).Inv := by
  have hopen : call.phase.over = false := by rw [hphase]; rfl
  have hnone : assocGet? call.requestId s.requests = none := by
    have hold := h.progress c call hc
    rwa [hphase] at hold
  have hcur : ∀ digest r, call.used = some (digest, r) →
      s.currentMutation = some ⟨call.requestId, digest, r⟩ := by
    intro digest r hused
    have hold := h.retries c call digest r hc hused
    rw [hphase] at hold
    rcases hold with hrec | ⟨_, hcur⟩
    · rw [hnone] at hrec
      cases hrec
    · exact hcur
  have hother : (∀ m, s.currentMutation = some m → m.requestId ≠ call.requestId) →
      (s.setPhase c call .preparing).Inv := by
    intro hne
    refine h.setPhase hc hopen ⟨hnone, fun e he hid => ?_⟩ fun digest r hused => ?_
    · rcases h.known e he with hrec | ⟨_, hmut⟩
      · rw [hid, hnone] at hrec
        cases hrec
      · exact hne _ hmut hid
    · exact absurd rfl (hne _ (hcur digest r hused))
  rw [ArtifactRoot.recover]
  split
  · next m hm =>
    split
    · next hid =>
      split
      · next hdigest =>
        refine h.setPhase hc hopen ⟨hnone, ?_⟩ fun digest r hused => ?_
        · rw [hm, MutationCall.mutation, ← hid, ← hdigest]
        · have heq := hcur digest r hused
          rw [hm] at heq
          cases heq
          exact ⟨hdigest.symm, rfl⟩
      · next hdigest =>
        refine h.setPhase hc hopen trivial fun digest r hused => ?_
        have heq := hcur digest r hused
        rw [hm] at heq
        cases heq
        exact Ne.symm hdigest
    · next hid =>
      refine hother fun m' hm' => ?_
      rw [hm] at hm'
      cases hm'
      exact hid
  · next hm =>
    refine hother fun m' hm' => ?_
    rw [hm] at hm'
    cases hm'

theorem Inv.record (h : s.Inv) (hc : s.calls[c]? = some call) (hopen : call.phase.over = false)
    (hnone : assocGet? call.requestId s.requests = none)
    (hof : ∀ e ∈ s.activations, e.mutation.requestId = call.requestId →
      e.mutation = call.mutation r)
    (hret : ∀ digest r', call.used = some (digest, r') →
      call.requestDigest = digest ∧ r = r') : (s.record c call r).Inv := by
  rw [ArtifactRoot.record]
  split
  · next hget =>
    rw [hnone] at hget
    cases hget
  · refine h.move hc hopen rfl ?_ h.distinct ?_ h.built h.present trivial hret
    · refine ⟨fun y hy => ?_, fun _ _ hv => hv, fun e he => .inl he, .inl rfl⟩
      exact assocGet?_assocSet_of_ne (fun heq => hy (congrArg some heq)) _ _
    · intro e he hid
      rw [hof e he hid]
      exact .inl (assocGet?_assocSet_self _ _ _)

theorem Inv.stage (h : s.Inv) (hc : s.calls[c]? = some call) (hphase : call.phase = .staging r)
    (hreuse : ∀ m, assocGet? r.version s.versions = some (some m) →
      m.requestId = call.requestId → m.requestDigest = call.requestDigest → m.result = r) :
    (s.stage c call r).Inv := by
  have hopen : call.phase.over = false := by rw [hphase]; rfl
  have hfresh : s.Fresh call.requestId := by
    have hold := h.progress c call hc
    rwa [hphase] at hold
  have hunused : ∀ digest r', call.used = some (digest, r') → False := by
    intro digest r' hused
    have hold := h.retries c call digest r' hc hused
    rwa [hphase] at hold
  have hfail : (s.setPhase c call .failed).Inv :=
    h.setPhase hc hopen trivial fun digest r' hused => (hunused digest r' hused).elim
  rw [ArtifactRoot.stage]
  split
  · next m hm =>
    split
    · next hid =>
      refine h.setPhase hc hopen ⟨hfresh, ?_⟩ fun digest r' hused => (hunused digest r' hused).elim
      have hres := hreuse m hm hid.1 hid.2
      rw [hm, MutationCall.mutation, ← hid.1, ← hid.2, ← hres]
    · exact hfail
  · exact hfail
  · next habsent =>
    have hne : ∀ v m, assocGet? v s.versions = some m → v ≠ r.version := by
      rintro v m hv rfl
      rw [habsent] at hv
      cases hv
    have hver : ∀ v m, assocGet? v s.versions = some m →
        assocGet? v (assocSet r.version (some (call.mutation r)) s.versions) = some m :=
      fun v m hv => (assocGet?_assocSet_of_ne (hne v m hv) _ _).trans hv
    have hcur : ∀ t : ArtifactRoot, t.current = s.current →
        t.versions = assocSet r.version (some (call.mutation r)) s.versions →
        t.currentMutation = s.currentMutation := by
      intro t hcurrent hversions
      rw [currentMutation, currentMutation, hcurrent, hversions]
      cases hv : s.current with
      | none => rfl
      | some v =>
        cases hget : assocGet? v s.versions with
        | none => exact absurd hget (h.present v hv)
        | some m =>
          rw [Option.bind_some, Option.bind_some, hver v m hget, hget]
    refine h.move hc hopen rfl ⟨fun _ _ => rfl, hver, fun e he => .inl he, .inl (hcur _ rfl rfl)⟩
      h.distinct ?_ h.built ?_ ?_ ?_
    · exact fun e he hid => absurd hid (hfresh.2 e he)
    · intro v hv hget
      cases hm : assocGet? v s.versions with
      | none => exact h.present v hv hm
      | some m =>
        have hnew := hver v m hm
        rw [show assocGet? v (assocSet r.version (some (call.mutation r)) s.versions) = none
          from hget] at hnew
        cases hnew
    · exact ⟨hfresh, assocGet?_assocSet_self _ _ _⟩
    · exact fun digest r' hused => (hunused digest r' hused).elim

theorem Inv.activate (h : s.Inv) (hc : s.calls[c]? = some call) (hphase : call.phase = .staged r)
    (hsettled : s.current = some r.previousVersion → s.Settled) : (s.activate c call r).Inv := by
  have hopen : call.phase.over = false := by rw [hphase]; rfl
  obtain ⟨hfresh, hstaged⟩ : s.Fresh call.requestId ∧
      assocGet? r.version s.versions = some (some (call.mutation r)) := by
    have hold := h.progress c call hc
    rwa [hphase] at hold
  have hunused : ∀ digest r', call.used = some (digest, r') → False := by
    intro digest r' hused
    have hold := h.retries c call digest r' hc hused
    rwa [hphase] at hold
  rw [ArtifactRoot.activate]
  split
  · next hcur =>
    have hbuilt : (assocGet? r.version s.versions).join.map
        (fun m => m.result.previousVersion) = some r.previousVersion := by
      rw [hstaged]
      rfl
    refine h.move hc hopen rfl ?_ ?_ ?_ ?_ ?_ ?_ ?_
    · refine ⟨fun _ _ => rfl, fun _ _ hv => hv, fun e he => ?_, .inr (hsettled hcur)⟩
      rcases mem_append.mp he with hold | hnew
      · exact .inl hold
      · rw [mem_singleton] at hnew
        rw [hnew]
        exact .inr rfl
    · refine pairwise_append.mpr ⟨h.distinct, pairwise_singleton _ _, ?_⟩
      intro e he e' he'
      rw [mem_singleton] at he'
      rw [he']
      exact hfresh.2 e he
    · intro e he hid
      rcases mem_append.mp he with hold | hnew
      · exact absurd hid (hfresh.2 e hold)
      · rw [mem_singleton] at hnew
        rw [hnew]
        refine .inr ⟨hfresh.1, ?_⟩
        rw [currentMutation, Option.bind_some]
        exact congrArg Option.join hstaged
    · intro e he
      rcases mem_append.mp he with hold | hnew
      · exact h.built e hold
      · rw [mem_singleton] at hnew
        rw [hnew]
        exact ⟨rfl, hbuilt⟩
    · intro v hv hget
      cases hv
      have hget : assocGet? r.version s.versions = none := hget
      rw [hstaged] at hget
      cases hget
    · refine ⟨hfresh.1, fun e he hid => ?_⟩
      rcases mem_append.mp he with hold | hnew
      · exact absurd hid (hfresh.2 e hold)
      · rw [mem_singleton] at hnew
        rw [hnew]
        rfl
    · exact fun digest r' hused => (hunused digest r' hused).elim
  · exact h.setPhase hc hopen trivial fun digest r' hused => (hunused digest r' hused).elim

/-- Where the idempotency of mutations is kept: calls of one request do not overlap, nothing is
activated over an artifact that is not journaled, and a staged version is reused with the result it
was staged with. -/
def Careful (s : ArtifactRoot) : MutationOp → Prop
  | .mutate requestId _ => ∀ (c : Nat) (call : MutationCall), s.calls[c]? = some call →
    call.requestId = requestId → call.phase.over = true
  | .advance c .next => ∀ call, s.calls[c]? = some call →
    match call.phase with
    | .staging r => ∀ m, assocGet? r.version s.versions = some (some m) →
      m.requestId = call.requestId → m.requestDigest = call.requestDigest → m.result = r
    | .staged r => s.current = some r.previousVersion → s.Settled
    | _ => True
  | .publish _ => s.Settled
  | _ => True

theorem Inv.next (h : s.Inv) (hc : s.calls[c]? = some call)
    (hcare : s.Careful (.advance c .next)) : (s.next c call).Inv := by
  have hcare := hcare call hc
  have hprogress := h.progress c call hc
  have hretries := h.retries c call
  rw [ArtifactRoot.next]
  split
  · next hphase => exact h.readRequest hc hphase
  · next hphase => exact h.recover hc hphase
  · next r hphase =>
    have hopen : call.phase.over = false := by rw [hphase]; rfl
    rw [hphase] at hprogress
    refine h.record hc hopen hprogress.1 (fun e he hid => ?_) fun digest r' hused => ?_
    · rcases h.known e he with hrec | ⟨_, hmut⟩
      · rw [hid, hprogress.1] at hrec
        cases hrec
      · rw [hprogress.2] at hmut
        exact (Option.some.inj hmut).symm
    · have hret := hretries digest r' hc hused
      rwa [hphase] at hret
  · next hphase =>
    have hopen : call.phase.over = false := by rw [hphase]; rfl
    have hunused : ∀ digest r', call.used = some (digest, r') → False := by
      intro digest r' hused
      have hret := hretries digest r' hc hused
      rwa [hphase] at hret
    rw [hphase] at hprogress
    split
    · exact h.setPhase hc hopen hprogress fun digest r' hused => (hunused digest r' hused).elim
    · exact h.setPhase hc hopen trivial fun digest r' hused => (hunused digest r' hused).elim
  · next r hphase =>
    rw [hphase] at hcare
    exact h.stage hc hphase hcare
  · next r hphase =>
    rw [hphase] at hcare
    exact h.activate hc hphase hcare
  · next r hphase =>
    have hopen : call.phase.over = false := by rw [hphase]; rfl
    rw [hphase] at hprogress
    refine h.record hc hopen hprogress.1 hprogress.2 fun digest r' hused => ?_
    have hret := hretries digest r' hc hused
    rw [hphase] at hret
    exact hret.elim
  · exact h
  · exact h
  · exact h
  · exact h

theorem Inv.validated (h : s.Inv) (hc : s.calls[c]? = some call) {v : Text}
    (hphase : call.phase = .validating v)
    (hp : s.Fresh call.requestId → s.Progress call p) : (s.setPhase c call p).Inv := by
  have hopen : call.phase.over = false := by rw [hphase]; rfl
  have hfresh := h.progress c call hc
  rw [hphase] at hfresh
  refine h.setPhase hc hopen (hp hfresh) fun digest r hused => ?_
  have hret := h.retries c call digest r hc hused
  rw [hphase] at hret
  exact hret.elim

theorem Inv.advance (h : s.Inv) (hc : s.calls[c]? = some call) {e : MutationEvent}
    (hcare : s.Careful (.advance c e)) : (s.advance c call e).Inv := by
  cases e with
  | next => exact h.next hc hcare
  | reject =>
    rw [ArtifactRoot.advance]
    split
    · next hphase => exact h.validated hc hphase fun _ => trivial
    · exact h
  | noop detail =>
    rw [ArtifactRoot.advance]
    split
    · next hphase =>
      exact h.validated hc hphase fun hfresh =>
        ⟨hfresh.1, fun e he hid => absurd hid (hfresh.2 e he)⟩
    · exact h
  | build contentHash detail =>
    rw [ArtifactRoot.advance]
    split
    · next hphase => exact h.validated hc hphase fun hfresh => hfresh
    · exact h
  | crash =>
    rw [ArtifactRoot.advance]
    split
    · exact h
    · next hopen => exact h.setPhase hc (by simpa using hopen) trivial fun _ _ _ => trivial

theorem Inv.used (h : s.Inv) {requestId digest : Text}
    (hused : s.used requestId = some (digest, r)) : s.Known ⟨requestId, digest, r⟩ := by
  rw [ArtifactRoot.used] at hused
  split at hused
  · next e he =>
    cases hused
    have hid : e.mutation.requestId = requestId := by simpa using List.find?_some he
    have hknown := h.known e (mem_of_find?_eq_some he)
    rw [← hid]
    exact hknown
  · exact .inl hused

theorem Inv.mutate (h : s.Inv) {requestId requestDigest : Text}
    (hcare : s.Careful (.mutate requestId requestDigest)) :
    (s.step (.mutate requestId requestDigest)).Inv := by
  refine ⟨h.distinct, h.known, h.built, h.present, ?_, ?_, ?_⟩
  · intro j j' x x' hj hj' hid hx hx'
    rcases get_append_cases hj with ⟨rfl, rfl⟩ | hold
    · rcases get_append_cases hj' with ⟨rfl, _⟩ | hold'
      · rfl
      · rw [hcare j' x' hold' hid.symm] at hx'
        cases hx'
    · rcases get_append_cases hj' with ⟨rfl, rfl⟩ | hold'
      · rw [hcare j x hold hid] at hx
        cases hx
      · exact h.solo j j' x x' hold hold' hid hx hx'
  · intro j x hj
    rcases get_append_cases hj with ⟨rfl, rfl⟩ | hold
    · trivial
    · have hp := h.progress j x hold
      cases hphase : x.phase <;> rw [hphase] at hp <;> exact hp
  · intro j x digest r hj hused
    rcases get_append_cases hj with ⟨rfl, rfl⟩ | hold
    · exact h.used hused
    · have hret := h.retries j x digest r hold hused
      cases hphase : x.phase <;> rw [hphase] at hret <;> exact hret

theorem Inv.publish (h : s.Inv) {version : Text} (hcare : s.Settled) :
    (s.step (.publish version)).Inv := by
  rw [ArtifactRoot.step]
  split
  · exact h
  · next habsent =>
    have hf : Frame s { s with
        current := some version
        versions := assocSet version none s.versions } none := by
      refine ⟨fun _ _ => rfl, fun v m hv => ?_, fun e he => .inl he, .inr hcare⟩
      refine (assocGet?_assocSet_of_ne ?_ _ _).trans hv
      rintro rfl
      rw [habsent] at hv
      cases hv
    refine ⟨h.distinct, fun e he => hf.known (by simp) (h.known e he), h.built, ?_, h.solo, ?_, ?_⟩
    · intro v hv hget
      cases hv
      have hget : assocGet? version (assocSet version none s.versions) = none := hget
      rw [assocGet?_assocSet_self] at hget
      cases hget
    · exact fun j x hj => hf.progress (by simp) (h.progress j x hj)
    · exact fun j x digest r hj hused => hf.retries (by simp) (h.retries j x digest r hj hused)

theorem Inv.step (h : s.Inv) {op : MutationOp} (hcare : s.Careful op) : (s.step op).Inv := by
  cases op with
  | mutate requestId requestDigest => exact h.mutate hcare
  | advance c e =>
    rw [ArtifactRoot.step]
    split
    · next call hc => exact h.advance hc hcare
    · exact h
  | publish version => exact h.publish hcare

def ActivatedOnce (s : ArtifactRoot) : Prop :=
  s.activations.Pairwise fun e e' => e.mutation.requestId ≠ e'.mutation.requestId

/-- A call whose request id was used before returns the result it was used with, and only to the
same request. -/
def Replayed (s : ArtifactRoot) : Prop :=
  ∀ (c : Nat) (call : MutationCall) (digest : Text) (r : MutationResult),
    s.calls[c]? = some call → call.used = some (digest, r) →
      (∀ r', call.phase = .returned r' → call.requestDigest = digest ∧ r' = r) ∧
      (call.phase = .failed → call.requestDigest ≠ digest)

/-- An activation replaces the version its request was validated against, and its payload was built
over. -/
def OverValidated (s : ArtifactRoot) : Prop :=
  ∀ e ∈ s.activations,
    e.overVersion = e.mutation.result.previousVersion ∧ e.builtOver = some e.overVersion

/-- A mutation whose coordinator stops before the record, and its retry. -/
def plainRun : List MutationOp :=
  [.publish ['a'], .mutate ['i'] ['d'], .advance 0 .next, .advance 0 .next, .advance 0 .next,
    .advance 0 (.build ['h'] []), .advance 0 .next, .advance 0 .next, .advance 0 .crash,
    .mutate ['i'] ['d'], .advance 1 .next, .advance 1 .next, .advance 1 .next]

/-- A full build is published between the activation and the retry. -/
def lostRun : List MutationOp :=
  [.publish ['a'], .mutate ['i'] ['d'], .advance 0 .next, .advance 0 .next, .advance 0 .next,
    .advance 0 (.build ['h'] []), .advance 0 .next, .advance 0 .next, .advance 0 .crash,
    .publish ['b'], .mutate ['i'] ['d'], .advance 1 .next, .advance 1 .next, .advance 1 .next,
    .advance 1 (.build ['h'] []), .advance 1 .next, .advance 1 .next]

end ArtifactRoot

end JiuwenSpec.Symphony

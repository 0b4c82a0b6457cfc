import JiuwenSpec.Swarm.StructuralKeys

/-!
# Replies to pending calls

A step that answers a call depends on the reply to this call alone, other steps on none. A call
that is pending has been made, and under the same replies a key stands for one request.
-/

namespace JiuwenSpec.Swarm

open Base List

variable {S V R : Type} {M : Scripts S V R}

def Flow.callAt : List Nat → Flow S V R → Option (Scripts.Call R)
  | [], .call _ key req _ => some (key, req)
  | i :: p, .join _ _ branches =>
    match branches[i]? with
    | none => none
    | some f => callAt p f
  | 0 :: p, .chain _ _ _ _ _ _ _ current => callAt p current
  | 0 :: p, .sub _ _ body => callAt p body
  | _, _ => none

namespace Scripts

variable {a : Path → R → Option V}

variable {f : Flow S V R}

theorem advance_congr {b : Path → R → Option V} {p : List Nat}
    (h : ∀ call, Flow.callAt p f = some call → a call.1 call.2 = b call.1 call.2) :
    M.advance a p f = M.advance b p f := by
  induction p generalizing f with
  | nil =>
    cases f with
    | call c key req k =>
      have hsame : a key req = b key req := h (key, req) rfl
      simp only [advance, advanceHere, hsame]
    | chain base ordinal i stage depth item rest current => cases current <;> rfl
    | sub c k body => cases body <;> rfl
    | _ => rfl
  | cons i p ih =>
    cases f with
    | join c k branches =>
      rw [advance, advance]
      cases hf : branches[i]? with
      | none => rfl
      | some f =>
        have hf' : M.advance a p f = M.advance b p f := by
          apply ih
          intro call hcall
          apply h
          rw [Flow.callAt, hf]
          exact hcall
        simp only [hf']
    | chain base ordinal j stage depth item rest current =>
      cases i with
      | succ i => rfl
      | zero => simp only [advance, ih h]
    | sub c k body =>
      cases i with
      | succ i => rfl
      | zero => simp only [advance, ih h]
    | _ => rfl

theorem callAt_run (q : List Nat) (c : Scope) (s : S) :
    Flow.callAt q (.run c s : Flow S V R) = none := by
  cases q <;> rfl

theorem callAt_done (q : List Nat) (r : Option V) :
    Flow.callAt q (.done r : Flow S V R) = none := by
  cases q <;> rfl

variable {q : List Nat}

theorem callAt_stages {base : Path} {ordinal i stage depth : Nat} {item prev : V}
    {fs : List (V → V → Nat → S)} :
    Flow.callAt q (Flow.stages base ordinal i stage depth item prev fs : Flow S V R) = none := by
  cases fs with
  | nil => exact callAt_done q _
  | cons f rest =>
    cases q with
    | nil => rfl
    | cons j q =>
      cases j with
      | zero => exact callAt_run q _ _
      | succ j => rfl

variable {call : Call R}

theorem callAt_join {c : Scope} {k : Option (List V) → S} {branches : List (Flow S V R)}
    (h : Flow.callAt q (.join c k branches) = some call) :
    ∃ i q' f, q = i :: q' ∧ branches[i]? = some f ∧ Flow.callAt q' f = some call := by
  cases q with
  | nil => cases h
  | cons i q =>
    rw [Flow.callAt] at h
    split at h
    · cases h
    · next f hf => exact ⟨i, q, f, rfl, hf, h⟩

theorem callAt_block {c : Scope} {k : Option (List V) → S} {α : Type}
    {items : List α} {f : Nat → α → Flow S V R} (h : ∀ q i item, Flow.callAt q (f i item) = none) :
    Flow.callAt q (.join c k (items.mapIdx f)) = none := by
  apply Option.eq_none_iff_forall_ne_some.mpr
  intro call hcall
  obtain ⟨i, q', g, -, hg, hcall⟩ := callAt_join hcall
  rw [getElem?_mapIdx] at hg
  obtain ⟨item, -, rfl⟩ := Option.map_eq_some_iff.mp hg
  rw [h] at hcall
  cases hcall

theorem callAt_act {c : Scope} {s : S}
    (h : Flow.callAt q (M.act c s).2 = some call) : (M.act c s).1 = some call := by
  rw [act] at h ⊢
  split at h
  · rw [callAt_done] at h
    cases h
  · rw [callAt_done] at h
    cases h
  · cases q with
    | nil => exact h
    | cons => cases h
  · split at h
    · rw [callAt_run] at h
      cases h
    · rw [callAt_block fun q i _ => callAt_run q _ _] at h
      cases h
  · split at h
    · rw [callAt_run] at h
      cases h
    · rw [callAt_block fun q i _ => callAt_stages] at h
      cases h
  · split at h
    · rw [callAt_run] at h
      cases h
    · cases q with
      | nil => cases h
      | cons i q =>
        cases i with
        | zero =>
          rw [Flow.callAt, callAt_run] at h
          cases h
        | succ i => cases h

theorem callAt_here {e : Option (Call R) × Flow S V R} (h : M.advanceHere a f = some e)
    (hcall : Flow.callAt q e.2 = some call) : e.1 = some call := by
  cases f with
  | run c s =>
    cases h
    exact callAt_act hcall
  | call c key req k =>
    cases h
    rw [callAt_run] at hcall
    cases hcall
  | join c k branches =>
    obtain ⟨rs, -, rfl⟩ := Option.map_eq_some_iff.mp h
    rw [callAt_run] at hcall
    cases hcall
  | chain base ordinal i stage depth item rest current =>
    cases current with
    | done r =>
      cases r with
      | none =>
        cases h
        rw [callAt_done] at hcall
        cases hcall
      | some prev =>
        cases h
        rw [callAt_stages] at hcall
        cases hcall
    | _ => cases h
  | sub c k body =>
    cases body with
    | done r =>
      cases h
      rw [callAt_run] at hcall
      cases hcall
    | _ => cases h
  | done r => cases h

theorem callAt_advance {p : List Nat}
    {e : Option (Call R) × Flow S V R} (h : M.advance a p f = some e)
    (hcall : Flow.callAt q e.2 = some call) : e.1 = some call ∨ ∃ q', Flow.callAt q' f = some call := by
  induction p generalizing q f e with
  | nil => exact .inl (callAt_here h hcall)
  | cons i p ih =>
    obtain ⟨l, g⟩ := e
    cases f with
    | run => cases h
    | call => cases h
    | done => cases h
    | join c k branches =>
      obtain ⟨f, f', hf, hstep, rfl⟩ := advance_join h
      obtain ⟨j, q', g, rfl, hg, hcall⟩ := callAt_join hcall
      have hi : i < branches.length := (List.getElem?_eq_some_iff.mp hf).1
      by_cases hij : i = j
      · subst hij
        rw [getElem?_set_self hi] at hg
        cases hg
        apply (ih hstep hcall).imp_right
        intro ⟨q'', hq''⟩
        refine ⟨i :: q'', ?_⟩
        rw [Flow.callAt, hf]
        exact hq''
      · right
        rw [getElem?_set_ne hij] at hg
        refine ⟨j :: q', ?_⟩
        rw [Flow.callAt, hg]
        exact hcall
    | chain base ordinal j stage depth item rest current =>
      obtain ⟨rfl, current', hstep, rfl⟩ := advance_chain h
      cases q with
      | nil => cases hcall
      | cons n q =>
        cases n with
        | succ n => cases hcall
        | zero => exact (ih hstep hcall).imp_right fun ⟨q', hq'⟩ => ⟨0 :: q', hq'⟩
    | sub c k body =>
      obtain ⟨rfl, body', hstep, rfl⟩ := advance_sub h
      cases q with
      | nil => cases hcall
      | cons n q =>
        cases n with
        | succ n => cases hcall
        | zero => exact (ih hstep hcall).imp_right fun ⟨q', hq'⟩ => ⟨0 :: q', hq'⟩

theorem mem_calls_of_callAt {g : Flow S V R}
    {es : List (List Nat × Option (Call R))} (h : Trace (M.advance a) f es g)
    (hcall : Flow.callAt q g = some call) :
    call ∈ calls es ∨ ∃ q', Flow.callAt q' f = some call := by
  induction h with
  | nil f => exact .inr ⟨q, hcall⟩
  | @cons f f' g p l es hstep rest ih =>
    rcases ih hcall with hmem | ⟨q', hq'⟩
    · left
      cases l with
      | none => exact hmem
      | some made => exact .tail _ hmem
    · rcases callAt_advance hstep hq' with hmade | hbefore
      · left
        obtain rfl : l = some call := hmade
        exact .head _
      · exact .inr hbefore

theorem turns_of_trace {g : Flow S V R}
    {es : List (List Nat × Option (Call R))} (h : Trace (M.advance a) f es g) :
    Trace M.turn f (es.map fun e => ((a, e.1), e.2)) g := by
  induction h with
  | nil f => exact .nil f
  | cons hstep _ ih => exact .cons hstep ih

theorem calls_turns (a : Path → R → Option V) (es : List (List Nat × Option (Call R))) :
    calls (es.map fun e => (((a, e.1) : Turn V R), e.2)) = calls es := by
  rw [calls, filterMap_map]
  rfl

theorem same_request {s : S} {g h : Flow S V R}
    {es fs : List (List Nat × Option (Call R))} (hg : Trace (M.advance a) (start s) es g)
    (hh : Trace (M.advance a) (start s) fs h) {key : Path} {req req' : R}
    (hreq : (key, req) ∈ calls es) (hreq' : (key, req') ∈ calls fs) : req = req' := by
  obtain ⟨v, es', fs', hes, -, hsame⟩ := Trace.join (commuting_advance M a) hg hh
  have hnodup := (nodup_calls (turns_of_trace (hg.append hes)) .run).1
  rw [calls_turns] at hnodup
  have hperm : (calls (es ++ es')).Perm (calls (fs ++ fs')) := hsame.perm.filterMap _
  have hmem : (key, req) ∈ calls (es ++ es') := by
    rw [calls, filterMap_append]
    exact mem_append_left _ hreq
  have hmem' : (key, req') ∈ calls (es ++ es') := by
    rw [hperm.mem_iff, calls, filterMap_append]
    exact mem_append_left _ hreq'
  exact (Prod.mk.inj (inj_on_of_nodup_map hnodup hmem hmem' rfl)).2

end Scripts

end JiuwenSpec.Swarm

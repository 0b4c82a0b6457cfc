import JiuwenSpec.Swarm.CallRecord

/-!
# Structural keys under every schedule

A task may only allocate keys below its own scope, from the counter on; tasks that run at the
same time may allocate no key in common. So no key is allocated twice, whatever order the tasks
are taken up in and whatever the agents reply. Steps of different tasks commute, so with the same
replies each task makes the same calls under the same keys in every order.
-/

namespace JiuwenSpec.Swarm

open Base List

variable {S V R : Type} {M : Scripts S V R}

theorem mem_of_mapM_result {branches : List (Flow S V R)} {rs : List (Option V)}
    (h : branches.mapM Flow.result? = some rs) {f : Flow S V R} (hf : f ∈ branches) :
    ∃ r, f = .done r := by
  induction branches generalizing rs with
  | nil => cases hf
  | cons g branches ih =>
    rw [mapM_cons] at h
    cases hg : g.result? with
    | none =>
      rw [hg] at h
      cases h
    | some r =>
      cases hrest : branches.mapM Flow.result? with
      | none =>
        rw [hg, hrest] at h
        cases h
      | some rest =>
        rcases mem_cons.mp hf with rfl | hf
        · cases f with
          | done r => exact ⟨r, rfl⟩
          | _ => cases hg
        · exact ih hrest hf

namespace Scripts

variable {answer : Path → R → Option V}

theorem advance_done (p : List Nat) (r : Option V) : M.advance answer p (.done r) = none := by
  cases p with
  | nil => rfl
  | cons => rfl

theorem advance_join {i : Nat} {p : List Nat} {c : Scope} {k : Option (List V) → S}
    {branches : List (Flow S V R)} {e : Option (Call R) × Flow S V R}
    (h : M.advance answer (i :: p) (.join c k branches) = some e) :
    ∃ f f', branches[i]? = some f ∧ M.advance answer p f = some (e.1, f') ∧
      e.2 = .join c k (branches.set i f') := by
  rw [advance] at h
  split at h
  · cases h
  · next f hf =>
    obtain ⟨⟨l, f'⟩, hstep, rfl⟩ := Option.map_eq_some_iff.mp h
    exact ⟨f, f', hf, hstep, rfl⟩

theorem advance_chain {i : Nat} {p : List Nat} {base : Path} {ordinal j stage depth : Nat}
    {item : V} {rest : List (V → V → Nat → S)} {current : Flow S V R}
    {e : Option (Call R) × Flow S V R}
    (h : M.advance answer (i :: p) (.chain base ordinal j stage depth item rest current) = some e) :
    i = 0 ∧ ∃ current', M.advance answer p current = some (e.1, current') ∧
      e.2 = .chain base ordinal j stage depth item rest current' := by
  cases i with
  | succ i => cases h
  | zero =>
    obtain ⟨⟨l, current'⟩, hstep, rfl⟩ := Option.map_eq_some_iff.mp h
    exact ⟨rfl, current', hstep, rfl⟩

theorem advance_sub {i : Nat} {p : List Nat} {c : Scope} {k : Option V → S} {body : Flow S V R}
    {e : Option (Call R) × Flow S V R}
    (h : M.advance answer (i :: p) (.sub c k body) = some e) :
    i = 0 ∧ ∃ body', M.advance answer p body = some (e.1, body') ∧ e.2 = .sub c k body' := by
  cases i with
  | succ i => cases h
  | zero =>
    obtain ⟨⟨l, body'⟩, hstep, rfl⟩ := Option.map_eq_some_iff.mp h
    exact ⟨rfl, body', hstep, rfl⟩

theorem advance_below {f : Flow S V R} {e : Option (Call R) × Flow S V R}
    (h : M.advance answer [] f = some e) (i : Nat) (p : List Nat) :
    M.advance answer (i :: p) f = none := by
  apply Option.eq_none_iff_forall_ne_some.mpr
  intro e' h'
  cases f with
  | run => cases h'
  | call => cases h'
  | done => cases h'
  | join c k branches =>
    obtain ⟨rs, hrs, -⟩ := Option.map_eq_some_iff.mp h
    obtain ⟨f, f', hf, hstep, -⟩ := advance_join h'
    obtain ⟨r, rfl⟩ := mem_of_mapM_result hrs (mem_of_getElem? hf)
    rw [advance_done] at hstep
    cases hstep
  | chain base ordinal j stage depth item rest current =>
    obtain ⟨-, current', hstep, -⟩ := advance_chain h'
    cases current with
    | done r =>
      rw [advance_done] at hstep
      cases hstep
    | _ => cases h
  | sub c k body =>
    obtain ⟨-, body', hstep, -⟩ := advance_sub h'
    cases body with
    | done r =>
      rw [advance_done] at hstep
      cases hstep
    | _ => cases h

/-- **Steps of different tasks commute.** -/
theorem commuting_advance (M : Scripts S V R) (answer : Path → R → Option V) :
    Commuting (M.advance answer) := by
  intro f g h p q l m hpq hp hq
  induction p generalizing f g h q with
  | nil =>
    cases q with
    | nil => exact absurd rfl hpq
    | cons j q =>
      rw [advance_below hp] at hq
      cases hq
  | cons i p ih =>
    cases q with
    | nil =>
      rw [advance_below hq] at hp
      cases hp
    | cons j q =>
      cases f with
      | run => cases hp
      | call => cases hp
      | done => cases hp
      | join c k branches =>
        obtain ⟨f, f', hf, hstep, rfl⟩ := advance_join hp
        obtain ⟨f₂, f₂', hf₂, hstep₂, rfl⟩ := advance_join hq
        have hi : i < branches.length := (List.getElem?_eq_some_iff.mp hf).1
        have hj : j < branches.length := (List.getElem?_eq_some_iff.mp hf₂).1
        by_cases hij : i = j
        · subst hij
          cases hf.symm.trans hf₂
          obtain ⟨v, hv, hv'⟩ := ih (fun h => hpq (congrArg _ h)) hstep hstep₂
          refine ⟨.join c k (branches.set i v), ?_, ?_⟩
          · simp [advance, List.getElem?_set_self hi, hv]
          · simp [advance, List.getElem?_set_self hi, hv']
        · refine ⟨.join c k ((branches.set i f').set j f₂'), ?_, ?_⟩
          · simp [advance, List.getElem?_set_ne hij, hf₂, hstep₂]
          · simp [advance, List.getElem?_set_ne (Ne.symm hij), hf, hstep, set_comm _ _ hij]
      | chain base ordinal n stage depth item rest current =>
        obtain ⟨rfl, current', hstep, rfl⟩ := advance_chain hp
        obtain ⟨rfl, current₂, hstep₂, rfl⟩ := advance_chain hq
        obtain ⟨v, hv, hv'⟩ := ih (fun h => hpq (congrArg _ h)) hstep hstep₂
        refine ⟨.chain base ordinal n stage depth item rest v, ?_, ?_⟩
        · simp [advance, hv]
        · simp [advance, hv']
      | sub c k body =>
        obtain ⟨rfl, body', hstep, rfl⟩ := advance_sub hp
        obtain ⟨rfl, body₂, hstep₂, rfl⟩ := advance_sub hq
        obtain ⟨v, hv, hv'⟩ := ih (fun h => hpq (congrArg _ h)) hstep hstep₂
        refine ⟨.sub c k v, ?_, ?_⟩
        · simp [advance, hv]
        · simp [advance, hv']

end Scripts

theorem Coord.json_inj {a b : Coord} (h : a.json = b.json) : a = b := by
  cases a with
  | index n =>
    cases b with
    | index m => rw [Numeral.ofNat_inj.mp (Json.number.inj h)]
    | name => cases h
  | name text =>
    cases b with
    | index => cases h
    | name text' => rw [Json.string.inj h]

theorem Segment.json_inj {a b : Segment} (h : a.json = b.json) : a = b := by
  obtain ⟨hkind, hcoords⟩ := List.cons.inj (Json.array.inj h)
  have hcoords' := map_injective_iff.mpr (fun _ _ => Coord.json_inj) hcoords
  cases a
  cases b
  obtain rfl := Json.string.inj hkind
  obtain rfl := hcoords'
  rfl

theorem keyStr_injective : Function.Injective keyStr := by
  intro p q h
  have harray := dumps_inj (keysApart_path p) (keysApart_path q) h
  exact map_injective_iff.mpr (fun _ _ => Segment.json_inj) (Json.array.inj harray)

/-- The keys a scope has left: those below an ordinal not taken. -/
def Scope.Owns (c : Scope) (q : Path) : Prop :=
  ∃ segment k, c.path ++ [segment] <+: q ∧ segment.ordinal? = some k ∧ c.next ≤ k

namespace Scope

variable {c : Scope} {q : Path} {segment : Segment}

theorem owns_of_prefix (h : c.path ++ [segment] <+: q) (hk : segment.ordinal? = some c.next) :
    c.Owns q := ⟨segment, c.next, h, hk, Nat.le_refl _⟩

theorem owns_of_taken (h : c.taken.Owns q) : c.Owns q := by
  obtain ⟨segment, k, hprefix, hk, hle⟩ := h
  exact ⟨segment, k, hprefix, hk, Nat.le_of_succ_le hle⟩

theorem prefix_of_owns_below {base : Path} {depth : Nat}
    (h : (below base segment depth).Owns q) : base ++ [segment] <+: q := by
  obtain ⟨segment', k, hprefix, -, -⟩ := h
  exact (prefix_append _ [segment']).trans hprefix

end Scope

theorem segment_unique {base q : Path} {a b : Segment} (ha : base ++ [a] <+: q)
    (hb : base ++ [b] <+: q) : a = b := by
  obtain ⟨rest, rfl⟩ := ha
  obtain ⟨rest', h⟩ := hb
  rw [append_assoc, append_assoc] at h
  exact (List.cons.inj (append_cancel_left h)).1.symm

theorem Scope.not_owns_taken {c : Scope} {q : Path} {segment : Segment}
    (h : c.path ++ [segment] <+: q) (hk : segment.ordinal? = some c.next) : ¬ c.taken.Owns q := by
  intro ⟨segment', k, hprefix, hk', hle⟩
  obtain rfl := segment_unique h hprefix
  cases hk.symm.trans hk'
  exact absurd hle (Nat.not_succ_le_self _)

inductive May : Flow S V R → Path → Prop where
  | run {c s q} (h : c.Owns q) : May (.run c s) q
  | call {c key req k q} (h : c.Owns q) : May (.call c key req k) q
  | after {c k branches q} (h : c.Owns q) : May (.join c k branches) q
  | branch {c k branches f q} {i : Nat} (hf : branches[i]? = some f) (h : May f q) :
      May (.join c k branches) q
  | stage {base ordinal i stage depth item rest current s q} (hs : stage ≤ s)
      (h : base ++ [pipeSegment ordinal i s] <+: q) :
      May (.chain base ordinal i stage depth item rest current) q
  | current {base ordinal i stage depth item rest current q} (h : May current q) :
      May (.chain base ordinal i stage depth item rest current) q
  | returned {c k body q} (h : c.Owns q) : May (.sub c k body) q
  | body {c k body q} (h : May body q) : May (.sub c k body) q

/-- Tasks that run at the same time, or one after the other, may allocate no key in common. -/
inductive Separate : Flow S V R → Prop where
  | run {c s} : Separate (.run c s)
  | call {c key req k} : Separate (.call c key req k)
  | done {r} : Separate (.done r)
  | join {c k branches} (hbranch : ∀ (i : Nat) (f), branches[i]? = some f → Separate f)
      (hafter : ∀ (i : Nat) (f), branches[i]? = some f → ∀ q, May f q → ¬ c.Owns q)
      (hapart : ∀ (i j : Nat) (f g), branches[i]? = some f → branches[j]? = some g → i ≠ j →
        ∀ q, May f q → ¬ May g q) : Separate (.join c k branches)
  | chain {base ordinal i stage depth item rest current} (hcurrent : Separate current)
      (hlater : ∀ s, stage ≤ s → ∀ q, May current q → ¬ base ++ [pipeSegment ordinal i s] <+: q) :
      Separate (.chain base ordinal i stage depth item rest current)
  | sub {c k body} (hbody : Separate body) (hafter : ∀ q, May body q → ¬ c.Owns q) :
      Separate (.sub c k body)

/-- What a step does to the keys: no more of them may be allocated than before, and the one of a
call may not be allocated again. -/
structure Stepped (f : Flow S V R) (e : Option (Scripts.Call R) × Flow S V R) : Prop where
  separate : Separate e.2
  may : ∀ q, May e.2 q → May f q
  fresh : ∀ call, e.1 = some call → May f call.1 ∧ ¬ May e.2 call.1

theorem may_below {base : Path} {segment : Segment} {depth : Nat} {s : S} {q : Path}
    (h : May (.run (.below base segment depth) s : Flow S V R) q) : base ++ [segment] <+: q := by
  cases h with
  | run h => exact Scope.prefix_of_owns_below h

theorem may_run_taken {c : Scope} {s s' : S} {q : Path} (h : May (.run c.taken s : Flow S V R) q) :
    May (.run c s' : Flow S V R) q := by
  cases h with
  | run h => exact .run (Scope.owns_of_taken h)

theorem not_may_done {r : Option V} {q : Path} : ¬ May (.done r : Flow S V R) q := by
  intro h
  cases h

theorem may_stages {base : Path} {ordinal i stage depth : Nat} {item prev : V}
    {fs : List (V → V → Nat → S)} {q : Path}
    (h : May (Flow.stages base ordinal i stage depth item prev fs : Flow S V R) q) :
    ∃ s, stage ≤ s ∧ base ++ [pipeSegment ordinal i s] <+: q := by
  cases fs with
  | nil => exact absurd h not_may_done
  | cons f rest =>
    cases h with
    | stage hs h => exact ⟨_, Nat.le_of_succ_le hs, h⟩
    | current h => exact ⟨stage, Nat.le_refl _, may_below h⟩

theorem separate_stages {base : Path} {ordinal i stage depth : Nat} {item prev : V}
    {fs : List (V → V → Nat → S)} :
    Separate (Flow.stages base ordinal i stage depth item prev fs : Flow S V R) := by
  cases fs with
  | nil => exact .done
  | cons f rest =>
    apply Separate.chain .run
    intro s hs q hmay hlater
    have hsame := segment_unique (may_below hmay) hlater
    have hstage : stage = s := by simpa [pipeSegment] using hsame
    omega

/-- The tasks of a block are below segments with its ordinal and their own number. -/
def InBlock (c : Scope) (branches : List (Flow S V R)) : Prop :=
  ∀ (i : Nat) (f), branches[i]? = some f → Separate f ∧ ∀ q, May f q →
    ∃ segment rest, segment.coords = .index c.next :: .index i :: rest ∧
      c.path ++ [segment] <+: q

theorem Segment.ordinal?_of_coords {segment : Segment} {k : Nat} {rest : List Coord}
    (h : segment.coords = .index k :: rest) : segment.ordinal? = some k := by
  rw [ordinal?, h]

theorem stepped_block {c : Scope} {s : S} {k : Option (List V) → S}
    {branches : List (Flow S V R)} (h : InBlock c branches) :
    Stepped (.run c s) (none, .join c.taken k branches) where
  separate := by
    apply Separate.join
    · exact fun i f hf => (h i f hf).1
    · intro i f hf q hq
      obtain ⟨segment, rest, hcoords, hprefix⟩ := (h i f hf).2 q hq
      exact Scope.not_owns_taken hprefix (Segment.ordinal?_of_coords hcoords)
    · intro i j f g hf hg hij q hq hq'
      obtain ⟨segment, rest, hcoords, hprefix⟩ := (h i f hf).2 q hq
      obtain ⟨segment', rest', hcoords', hprefix'⟩ := (h j g hg).2 q hq'
      obtain rfl := segment_unique hprefix hprefix'
      rw [hcoords] at hcoords'
      apply hij
      simpa using (List.cons.inj (List.cons.inj hcoords').2).1
  may := by
    intro q hq
    cases hq with
    | after hq => exact .run (Scope.owns_of_taken hq)
    | branch hf hq =>
      obtain ⟨segment, rest, hcoords, hprefix⟩ := (h _ _ hf).2 q hq
      exact .run (Scope.owns_of_prefix hprefix (Segment.ordinal?_of_coords hcoords))
  fresh := by
    intro call hcall
    cases hcall

theorem inBlock_parallel (c : Scope) (thunks : List S) :
    InBlock c (thunks.mapIdx fun i thunk =>
      (.run (.below c.path (parSegment c.next i) c.depth) thunk : Flow S V R)) := by
  intro i f hf
  rw [List.getElem?_mapIdx] at hf
  obtain ⟨thunk, -, rfl⟩ := Option.map_eq_some_iff.mp hf
  exact ⟨.run, fun q hq => ⟨_, _, rfl, may_below hq⟩⟩

theorem inBlock_pipeline (c : Scope) (items : List V) (fs : List (V → V → Nat → S)) :
    InBlock c (items.mapIdx fun i item =>
      (Flow.stages c.path c.next i 0 c.depth item item fs : Flow S V R)) := by
  intro i f hf
  rw [List.getElem?_mapIdx] at hf
  obtain ⟨item, -, rfl⟩ := Option.map_eq_some_iff.mp hf
  refine ⟨separate_stages, fun q hq => ?_⟩
  obtain ⟨s, -, hprefix⟩ := may_stages hq
  exact ⟨_, _, rfl, hprefix⟩

theorem stepped_of_none {f g : Flow S V R} (hsep : Separate g) (h : ∀ q, May g q → May f q) :
    Stepped f (none, g) := ⟨hsep, h, fun _ hcall => nomatch hcall⟩

namespace Scripts

theorem stepped_act (M : Scripts S V R) (c : Scope) (s : S) :
    Stepped (.run c s) (M.act c s) := by
  rw [act]
  split
  · exact stepped_of_none .done fun q hq => absurd hq not_may_done
  · exact stepped_of_none .done fun q hq => absurd hq not_may_done
  · next req k _ =>
    have hown : (callSegment c.next).ordinal? = some c.next := rfl
    refine ⟨.call, ?_, ?_⟩
    · intro q hq
      cases hq with
      | call hq => exact .run (Scope.owns_of_taken hq)
    · intro call hcall
      cases hcall
      refine ⟨.run (Scope.owns_of_prefix (prefix_refl _) hown), fun hq => ?_⟩
      cases hq with
      | call hq => exact Scope.not_owns_taken (prefix_refl _) hown hq
  · split
    · exact stepped_of_none .run fun q hq => may_run_taken hq
    · exact stepped_block (inBlock_parallel c _)
  · split
    · exact stepped_of_none .run fun q hq => may_run_taken hq
    · exact stepped_block (inBlock_pipeline c _ _)
  · next name body k _ =>
    split
    · apply stepped_of_none .run
      intro q hq
      cases hq with
      | run hq => exact .run hq
    · have hown : (wfSegment c.next name).ordinal? = some c.next := rfl
      apply stepped_of_none
      · apply Separate.sub .run
        exact fun q hq => Scope.not_owns_taken (may_below hq) hown
      · intro q hq
        cases hq with
        | returned hq => exact .run (Scope.owns_of_taken hq)
        | body hq => exact .run (Scope.owns_of_prefix (may_below hq) hown)

theorem stepped_here {answer : Path → R → Option V} {f : Flow S V R}
    {e : Option (Call R) × Flow S V R} (h : M.advanceHere answer f = some e) : Stepped f e := by
  cases f with
  | run c s =>
    cases h
    exact stepped_act M c s
  | call c key req k =>
    cases h
    apply stepped_of_none .run
    intro q hq
    cases hq with
    | run hq => exact .call hq
  | join c k branches =>
    obtain ⟨rs, -, rfl⟩ := Option.map_eq_some_iff.mp h
    apply stepped_of_none .run
    intro q hq
    cases hq with
    | run hq => exact .after hq
  | chain base ordinal i stage depth item rest current =>
    cases current with
    | done r =>
      cases r with
      | none =>
        cases h
        exact stepped_of_none .done fun q hq => absurd hq not_may_done
      | some prev =>
        cases h
        apply stepped_of_none separate_stages
        intro q hq
        obtain ⟨s, hs, hprefix⟩ := may_stages hq
        exact .stage hs hprefix
    | _ => cases h
  | sub c k body =>
    cases body with
    | done r =>
      cases h
      apply stepped_of_none .run
      intro q hq
      cases hq with
      | run hq => exact .returned hq
    | _ => cases h
  | done r => cases h

theorem stepped_join {c : Scope} {k : Option (List V) → S} {branches : List (Flow S V R)}
    {i : Nat} {f : Flow S V R} {e : Option (Call R) × Flow S V R} (hf : branches[i]? = some f)
    (hsep : Separate (.join c k branches)) (h : Stepped f e) :
    Stepped (.join c k branches) (e.1, .join c k (branches.set i e.2)) := by
  have hi : i < branches.length := (List.getElem?_eq_some_iff.mp hf).1
  cases hsep with
  | join hbranch hafter hapart =>
    -- What a task of the block may allocate, one of the same number might before.
    have hcame : ∀ (j : Nat) (g), (branches.set i e.2)[j]? = some g →
        (j = i ∧ g = e.2) ∨ (j ≠ i ∧ branches[j]? = some g) := by
      intro j g hg
      by_cases hij : j = i
      · subst hij
        rw [List.getElem?_set_self hi] at hg
        exact .inl ⟨rfl, (Option.some.inj hg).symm⟩
      · rw [List.getElem?_set_ne (Ne.symm hij)] at hg
        exact .inr ⟨hij, hg⟩
    have hwas : ∀ (j : Nat) (g), (branches.set i e.2)[j]? = some g → ∀ q, May g q →
        ∃ g', branches[j]? = some g' ∧ May g' q := by
      intro j g hg q hq
      rcases hcame j g hg with ⟨rfl, rfl⟩ | ⟨-, hg'⟩
      · exact ⟨f, hf, h.may q hq⟩
      · exact ⟨g, hg', hq⟩
    refine ⟨.join ?_ ?_ ?_, ?_, ?_⟩
    · intro j g hg
      rcases hcame j g hg with ⟨-, rfl⟩ | ⟨-, hg'⟩
      · exact h.separate
      · exact hbranch j g hg'
    · intro j g hg q hq
      obtain ⟨g', hg', hq'⟩ := hwas j g hg q hq
      exact hafter j g' hg' q hq'
    · intro j l g g₂ hg hg₂ hjl q hq hq₂
      obtain ⟨g', hg', hq'⟩ := hwas j g hg q hq
      obtain ⟨g₂', hg₂', hq₂'⟩ := hwas l g₂ hg₂ q hq₂
      exact hapart j l g' g₂' hg' hg₂' hjl q hq' hq₂'
    · intro q hq
      cases hq with
      | after hq => exact .after hq
      | branch hg hq =>
        obtain ⟨g', hg', hq'⟩ := hwas _ _ hg q hq
        exact .branch hg' hq'
    · intro call hcall
      obtain ⟨hmay, hnot⟩ := h.fresh call hcall
      refine ⟨.branch hf hmay, fun hq => ?_⟩
      cases hq with
      | after hq => exact hafter i f hf _ hmay hq
      | branch hg hq =>
        rcases hcame _ _ hg with ⟨-, rfl⟩ | ⟨hij, hg'⟩
        · exact hnot hq
        · exact hapart i _ f _ hf hg' (Ne.symm hij) _ hmay hq

/-- **A step keeps tasks separate**, and allocates a key that none may allocate after it. -/
theorem stepped_advance {answer : Path → R → Option V} {p : List Nat} {f : Flow S V R}
    {e : Option (Call R) × Flow S V R} (hsep : Separate f)
    (h : M.advance answer p f = some e) : Stepped f e := by
  induction p generalizing f e with
  | nil => exact stepped_here h
  | cons i p ih =>
    obtain ⟨l, g⟩ := e
    cases hsep with
    | run => cases h
    | call => cases h
    | done => cases h
    | @join c k branches hbranch hafter hapart =>
      obtain ⟨f, f', hf, hstep, rfl⟩ := advance_join h
      have hchild := ih (hbranch i f hf) hstep
      exact stepped_join hf (Separate.join (k := k) hbranch hafter hapart) hchild
    | chain hcurrent hlater =>
      obtain ⟨-, current', hstep, rfl⟩ := advance_chain h
      obtain ⟨hsep', hmay, hfresh⟩ := ih hcurrent hstep
      refine ⟨.chain hsep' fun s hs q hq => hlater s hs q (hmay q hq), ?_, ?_⟩
      · intro q hq
        cases hq with
        | stage hs hq => exact .stage hs hq
        | current hq => exact .current (hmay q hq)
      · intro call hcall
        obtain ⟨hbefore, hnot⟩ := hfresh call hcall
        refine ⟨.current hbefore, fun hq => ?_⟩
        cases hq with
        | stage hs hq => exact hlater _ hs _ hbefore hq
        | current hq => exact hnot hq
    | sub hbody hafter =>
      obtain ⟨-, body', hstep, rfl⟩ := advance_sub h
      obtain ⟨hsep', hmay, hfresh⟩ := ih hbody hstep
      refine ⟨.sub hsep' fun q hq => hafter q (hmay q hq), ?_, ?_⟩
      · intro q hq
        cases hq with
        | returned hq => exact .returned hq
        | body hq => exact .body (hmay q hq)
      · intro call hcall
        obtain ⟨hbefore, hnot⟩ := hfresh call hcall
        refine ⟨.body hbefore, fun hq => ?_⟩
        cases hq with
        | returned hq => exact hafter _ hbefore hq
        | body hq => exact hnot hq

def calls {α : Type} (es : List (α × Option (Call R))) : List (Call R) := es.filterMap Prod.snd

/-- The replies of the agents and the position of the task, at each step. -/
abbrev Turn (V R : Type) := (Path → R → Option V) × List Nat

def turn (M : Scripts S V R) (t : Turn V R) (f : Flow S V R) :
    Option (Option (Call R) × Flow S V R) := M.advance t.1 t.2 f

theorem nodup_calls {f g : Flow S V R} {es : List (Turn V R × Option (Call R))}
    (h : Trace M.turn f es g) (hsep : Separate f) :
    ((calls es).map Prod.fst).Nodup ∧ ∀ call ∈ calls es, May f call.1 := by
  induction h with
  | nil f => exact ⟨.nil, fun call hcall => nomatch hcall⟩
  | @cons f f' g t l es hstep rest ih =>
    have hstepped : Stepped f (l, f') := stepped_advance hsep hstep
    obtain ⟨hnodup, hmay⟩ := ih hstepped.separate
    cases l with
    | none => exact ⟨hnodup, fun call hcall => hstepped.may _ (hmay call hcall)⟩
    | some call =>
      obtain ⟨hbefore, hnot⟩ := hstepped.fresh call rfl
      have hcalls : calls ((t, some call) :: es) = call :: calls es := rfl
      rw [hcalls, map_cons]
      constructor
      · apply hnodup.cons
        intro hmem
        obtain ⟨later, hlater, hkey⟩ := mem_map.mp hmem
        rw [← hkey] at hnot
        exact hnot (hmay later hlater)
      · intro later hlater
        rcases mem_cons.mp hlater with rfl | hlater
        · exact hbefore
        · exact hstepped.may _ (hmay later hlater)

/-- **Structural keys are injective and do not depend on the schedule.** Whatever the agents
reply and whatever order the tasks are taken up in, no two calls of a run have one key. With the
same replies, of two runs each task makes the calls in one that it first makes in the other,
under the same keys; if both have ended, they made the same calls. -/
theorem structural_keys (M : Scripts S V R) (s : S) :
    (∀ {es : List (Turn V R × Option (Call R))} {g : Flow S V R},
      Trace M.turn (start s) es g → ((calls es).map fun call => keyStr call.1).Nodup) ∧
    ∀ (answer : Path → R → Option V) {es fs : List (List Nat × Option (Call R))}
      {g h : Flow S V R}, Trace (M.advance answer) (start s) es g →
      Trace (M.advance answer) (start s) fs h →
      (∀ p, labelsOf p es <+: labelsOf p fs ∨ labelsOf p fs <+: labelsOf p es) ∧
      ∀ r r', g = .done r → h = .done r' → r = r' ∧ (calls es).Perm (calls fs) := by
  constructor
  · intro es g hrun
    have hnodup := (nodup_calls hrun .run).1
    have htexts := hnodup.map keyStr_injective
    rw [map_map] at htexts
    exact htexts
  · intro answer es fs g h hg hh
    have hstep := commuting_advance M answer
    constructor
    · intro p
      obtain ⟨v, es', fs', -, -, hsame⟩ := Trace.join hstep hg hh
      exact hsame.prefix_or p
    · intro r r' hr hr'
      subst hr hr'
      obtain ⟨heq, hsame⟩ := Trace.same_of_final hstep hg hh
        (fun p => advance_done p r) (fun p => advance_done p r')
      exact ⟨Flow.done.inj heq, hsame.perm.filterMap _⟩

def twoBranches : Scripts Nat Unit Unit where
  view
    | 0 => .parallel [1, 1] fun _ => 1
    | 1 => .agent () fun _ => 2
    | _ => .ret ()
  null := ()

def firstThenSecond : List (List Nat × Option (Call Unit)) :=
  [([], none), ([0], some ([parSegment 0 0, callSegment 0], ())), ([0], none), ([0], none),
    ([1], some ([parSegment 0 1, callSegment 0], ())), ([1], none), ([1], none), ([], none),
    ([], some ([callSegment 1], ())), ([], none), ([], none)]

def inTurn : List (List Nat × Option (Call Unit)) :=
  [([], none), ([1], some ([parSegment 0 1, callSegment 0], ())),
    ([0], some ([parSegment 0 0, callSegment 0], ())), ([1], none), ([0], none), ([1], none),
    ([0], none), ([], none), ([], some ([callSegment 1], ())), ([], none), ([], none)]

theorem twoBranches_keys :
    ((calls inTurn).map fun call => keyStr call.1).Nodup ∧
      (labelsOf [0] firstThenSecond <+: labelsOf [0] inTurn ∨
        labelsOf [0] inTurn <+: labelsOf [0] firstThenSecond) ∧
      (calls firstThenSecond).Perm (calls inTurn) := by
  have hkeys := structural_keys twoBranches 0
  have hturns : Trace twoBranches.turn (start 0)
      (inTurn.map fun e => ((fun _ _ => some (), e.1), e.2)) (.done (some ())) :=
    .cons rfl (.cons rfl (.cons rfl (.cons rfl (.cons rfl (.cons rfl (.cons rfl (.cons rfl
      (.cons rfl (.cons rfl (.cons rfl (.nil _)))))))))))
  have hfirst : Trace (twoBranches.advance fun _ _ => some ()) (start 0) firstThenSecond
      (.done (some ())) :=
    .cons rfl (.cons rfl (.cons rfl (.cons rfl (.cons rfl (.cons rfl (.cons rfl (.cons rfl
      (.cons rfl (.cons rfl (.cons rfl (.nil _)))))))))))
  have hsecond : Trace (twoBranches.advance fun _ _ => some ()) (start 0) inTurn
      (.done (some ())) :=
    .cons rfl (.cons rfl (.cons rfl (.cons rfl (.cons rfl (.cons rfl (.cons rfl (.cons rfl
      (.cons rfl (.cons rfl (.cons rfl (.nil _)))))))))))
  obtain ⟨hlabels, hsame⟩ := hkeys.2 _ hfirst hsecond
  exact ⟨hkeys.1 hturns, hlabels [0], (hsame _ _ rfl rfl).2⟩

end Scripts

end JiuwenSpec.Swarm

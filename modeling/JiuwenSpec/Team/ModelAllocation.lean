import JiuwenSpec.Base.Rotation
import JiuwenSpec.Team.ModelAllocator

/-!
# What an allocation's reference stands for

The stored reference of an allocation resolves to the entry that was allocated, a restart with the
same pool goes on where the allocator stood, and calls that have a counter to themselves take turns.
Source: `agent_teams/models/allocator.py`.
-/

namespace JiuwenSpec.Models

open Base List

universe u v w

variable {M : Type u} {F : Type v} {accepts : F → String → Bool} {pool : Pool M}

variable {place : ℕ}

theorem mem_places {p : ModelPoolEntry M → Bool} :
    place ∈ pool.places p ↔ ∃ o, pool.objects[place]? = some o ∧ p o.2 = true := by
  rw [Pool.places, mem_filter, mem_range]
  constructor
  · rintro ⟨hlt, hp⟩
    refine ⟨pool.objects[place], List.getElem?_eq_getElem hlt, ?_⟩
    rw [List.getElem?_eq_getElem hlt] at hp
    exact hp
  · rintro ⟨o, ho, hp⟩
    refine ⟨(List.getElem?_eq_some_iff.mp ho).1, ?_⟩
    rw [ho]
    exact hp

theorem nodup_places (p : ModelPoolEntry M → Bool) : (pool.places p).Nodup :=
  nodup_range.filter _

variable {o : ℕ × ModelPoolEntry M}

variable {name : String}

theorem mem_group : o ∈ pool.group name ↔ o ∈ pool.objects ∧ o.2.modelName = name := by
  rw [Pool.group, mem_filter, decide_eq_true_eq]

theorem findIdx?_getD {l : List (ℕ × ModelPoolEntry M)} {p : ℕ × ModelPoolEntry M → Bool}
    (h : ∃ o ∈ l, p o = true) : ∃ o, l[(l.findIdx? p).getD 0]? = some o ∧ p o = true := by
  cases hfind : l.findIdx? p with
  | none =>
    obtain ⟨o, ho, hp⟩ := h
    rw [List.findIdx?_eq_none_iff.mp hfind o ho] at hp
    cases hp
  | some i =>
    obtain ⟨hi, hp, -⟩ := List.findIdx?_eq_some_iff_getElem.mp hfind
    exact ⟨l[i], List.getElem?_eq_getElem hi, hp⟩

theorem resolve_of_get {i : ℕ} (hname : name ≠ "") (hget : (pool.group name)[i]? = some o) :
    resolveMemberModel pool (some name) (some i) = some o.2.toTeamModelConfig := by
  obtain ⟨hi, hmem⟩ := List.getElem?_eq_some_iff.mp hget
  have hin : o ∈ pool.objects := (mem_group.mp (hmem ▸ getElem_mem hi)).1
  have hrange : 0 ≤ (i : ℤ) ∧ (i : ℤ) < (pool.group name).length :=
    ⟨Int.natCast_nonneg i, Int.ofNat_lt.mpr hi⟩
  rw [resolveMemberModel]
  simp only [if_neg (not_or.mpr ⟨ne_nil_of_mem hin, hname⟩), if_pos hrange, Int.toNat_natCast,
    hget, Option.map_some]

/-- An allocation comes from its place, and its reference is read back. -/
structure Sound (pool : Pool M) (a : Allocation M) : Prop where
  at_place : ∃ obj, pool.objects[a.place]? = some (obj, a.entry)
  resolves : a.entry.modelName ≠ "" → a.resolved pool = some a.entry.toTeamModelConfig

theorem sound_of_identity (ho : pool.objects[place]? = some o) :
    Sound pool ⟨place, o.2, groupIndexOf o.1 (pool.group o.2.modelName)⟩ := by
  refine ⟨⟨o.1, ho⟩, fun hname => ?_⟩
  have hin : o ∈ pool.objects := mem_of_getElem? ho
  obtain ⟨o', hget, hsame⟩ := @findIdx?_getD _ (pool.group o.2.modelName)
    (fun o' => decide (o'.1 = o.1)) ⟨o, mem_group.mpr ⟨hin, rfl⟩, decide_eq_true rfl⟩
  have hin' := (mem_group.mp (mem_of_getElem? hget)).1
  have hentry := pool.same o' hin' o hin (of_decide_eq_true hsame)
  rw [Allocation.resolved, ← hentry]
  rw [← hentry] at hget hname
  exact resolve_of_get hname hget

theorem sound_of_equal [DecidableEq M]
    (ho : pool.objects[place]? = some o) (hgroup : o.2.modelName = name) :
    Sound pool ⟨place, o.2, indexOfEqual o.2 (pool.group name)⟩ := by
  subst hgroup
  refine ⟨⟨o.1, ho⟩, fun hname => ?_⟩
  obtain ⟨o', hget, hsame⟩ := @findIdx?_getD _ (pool.group o.2.modelName)
    (fun o' => decide (o'.2 = o.2)) ⟨o, mem_group.mpr ⟨mem_of_getElem? ho, rfl⟩,
      decide_eq_true rfl⟩
  rw [Allocation.resolved, ← of_decide_eq_true hsame]
  rw [← of_decide_eq_true hsame] at hget hname
  exact resolve_of_get hname hget

theorem sound_of_unique (hunique : (pool.objects.map fun o => o.2.modelName).Nodup)
    (ho : pool.objects[place]? = some o) : Sound pool ⟨place, o.2, 0⟩ := by
  refine ⟨⟨o.1, ho⟩, fun hname => ?_⟩
  have hin : o ∈ pool.group o.2.modelName := mem_group.mpr ⟨mem_of_getElem? ho, rfl⟩
  cases hgroup : pool.group o.2.modelName with
  | nil =>
    rw [hgroup] at hin
    cases hin
  | cons first rest =>
    have hfirst : first ∈ pool.group o.2.modelName := hgroup ▸ mem_cons_self
    obtain ⟨hmem, hnamed⟩ := mem_group.mp hfirst
    have heq : first = o := inj_on_of_nodup_map hunique hmem (mem_of_getElem? ho) hnamed
    subst heq
    exact resolve_of_get hname (by rw [hgroup]; rfl)

section Calls

variable (accepts) (pool)

/-- The places that a call of an allocator of this kind can give. -/
def eligible (c : Counters) (name : Option String) (filter : Option F) : List ℕ :=
  match c with
  | .roundRobin _ => roundRobinPlaces accepts pool name filter
  | .byModelName _ =>
    match name with
    | none => []
    | some name =>
      if name = "" ∨ name ∉ pool.names then [] else groupPlaces accepts pool name filter
  | .router => routerPlaces accepts pool name filter

def counter (c : Counters) (name : Option String) : ℕ :=
  match c with
  | .roundRobin index => index
  | .byModelName innerIndexes => (name.bind fun name => assocGet? name innerIndexes).getD 0
  | .router => 0

def Shares (c : Counters) (name name' : Option String) : Prop :=
  match c with
  | .roundRobin _ => True
  | .byModelName _ => name = name'
  | .router => False

end Calls

theorem mem_roundRobinPlaces {name : Option String} {filter : Option F}
    (h : place ∈ roundRobinPlaces accepts pool name filter) :
    ∃ o, pool.objects[place]? = some o ∧ passes accepts filter o.2 = true := by
  cases filter with
  | none =>
    rw [roundRobinPlaces, mem_range] at h
    exact ⟨_, List.getElem?_eq_getElem h, rfl⟩
  | some f =>
    rw [roundRobinPlaces, mem_places] at h
    obtain ⟨o, ho, hp⟩ := h
    rw [Bool.and_eq_true] at hp
    exact ⟨o, ho, hp.1⟩

theorem mem_groupPlaces {filter : Option F} :
    place ∈ groupPlaces accepts pool name filter ↔ ∃ o, pool.objects[place]? = some o ∧
      o.2.modelName = name ∧ passes accepts filter o.2 = true := by
  rw [groupPlaces, mem_places]
  simp only [Bool.and_eq_true, decide_eq_true_eq]

theorem nodup_eligible (c : Counters) (name : Option String) (filter : Option F) :
    (eligible accepts pool c name filter).Nodup := by
  cases c with
  | roundRobin index =>
    cases filter with
    | none => exact nodup_range
    | some f =>
      rw [eligible, roundRobinPlaces]
      exact nodup_places _
  | byModelName innerIndexes =>
    cases name with
    | none => exact nodup_nil
    | some name =>
      rw [eligible]
      split
      · exact nodup_nil
      · exact nodup_places _
  | router =>
    cases name with
    | none =>
      rw [eligible, routerPlaces]
      exact nodup_places _
    | some name =>
      rw [eligible, routerPlaces, groupPlaces]
      exact nodup_places _

def Fits (pool : Pool M) : Counters → Prop
  | .roundRobin _ => True
  | .byModelName innerIndexes => innerIndexes.map Prod.fst = pool.names
  | .router => (pool.objects.map fun o => o.2.modelName).Nodup

variable [DecidableEq M]

/-- A call with nothing eligible gives nothing and turns no counter; another takes the place where
its counter stands and turns it, or the first place where there is no counter. -/
theorem allocate_spec (c : Counters) (hfits : Fits pool c) (name : Option String)
    (filter : Option F) :
    (eligible accepts pool c name filter = [] → allocate accepts pool c name filter = (none, c)) ∧
    (eligible accepts pool c name filter ≠ [] →
      ∃ a, (allocate accepts pool c name filter).1 = some a ∧ Sound pool a ∧
        passes accepts filter a.entry = true ∧
        (c ≠ .router → (eligible accepts pool c name filter)[counter c name %
          (eligible accepts pool c name filter).length]? = some a.place) ∧
        counter (allocate accepts pool c name filter).2 name =
          counter c name + (if c = .router then 0 else 1) ∧
        ∀ name', ¬ Shares c name name' →
          counter (allocate accepts pool c name filter).2 name' = counter c name') := by
  have hturn : ∀ {l : List ℕ} (n : ℕ), l ≠ [] → ∃ place ∈ l, l[n % l.length]? = some place := by
    intro l n hne
    have hlt : n % l.length < l.length := Nat.mod_lt _ (length_pos_iff.mpr hne)
    exact ⟨l[n % l.length], getElem_mem hlt, List.getElem?_eq_getElem hlt⟩
  cases c with
  | roundRobin index =>
    simp only [eligible, allocate, roundRobinAllocate, counter]
    refine ⟨fun hnil => by simp [hnil], fun hne => ?_⟩
    obtain ⟨place, hmem, hget⟩ := hturn index hne
    obtain ⟨o, ho, hpass⟩ := mem_roundRobinPlaces hmem
    simp only [if_neg hne, hget, ho]
    exact ⟨_, rfl, sound_of_identity ho, hpass, fun _ => rfl, by simp,
      fun name' hshares => (hshares True.intro).elim⟩
  | byModelName innerIndexes =>
    cases name with
    | none =>
      simp only [eligible, allocate, byModelNameAllocate]
      exact ⟨fun _ => trivial, fun hne => absurd rfl hne⟩
    | some name =>
      simp only [eligible, allocate, byModelNameAllocate, counter]
      by_cases hunknown : name = "" ∨ name ∉ pool.names
      · simp only [if_pos hunknown]
        exact ⟨fun _ => trivial, fun hne => absurd rfl hne⟩
      · simp only [if_neg hunknown]
        refine ⟨fun hnil => by simp [hnil], fun hne => ?_⟩
        obtain ⟨place, hmem, hget⟩ := hturn ((assocGet? name innerIndexes).getD 0) hne
        obtain ⟨o, ho, hnamed, hpass⟩ := mem_groupPlaces.mp hmem
        simp only [if_neg hne, hget, ho]
        refine ⟨_, rfl, sound_of_equal ho hnamed, hpass, fun _ => hget, ?_, fun name' hshares => ?_⟩
        · simp
        · cases name' with
          | none => rfl
          | some name' =>
            have hother : name' ≠ name := fun heq => hshares (congrArg some heq.symm)
            simp [assocGet?_assocSet_of_ne hother]
  | router =>
    simp only [eligible, allocate, routerAllocate, counter]
    cases hplaces : routerPlaces accepts pool name filter with
    | nil => exact ⟨fun _ => rfl, fun hne => absurd rfl hne⟩
    | cons place rest =>
      refine ⟨fun hnil => absurd hnil (cons_ne_nil _ _), fun _ => ?_⟩
      have hmem : place ∈ routerPlaces accepts pool name filter := hplaces ▸ mem_cons_self
      obtain ⟨o, ho, hpass⟩ : ∃ o, pool.objects[place]? = some o ∧
          passes accepts filter o.2 = true := by
        cases name with
        | none => exact mem_places.mp hmem
        | some name =>
          obtain ⟨o, ho, -, hpass⟩ := mem_groupPlaces.mp hmem
          exact ⟨o, ho, hpass⟩
      simp only [List.head?_cons, ho, Option.map_some]
      exact ⟨_, rfl, sound_of_unique hfits ho, hpass, fun h ↦ absurd rfl h, rfl, fun _ _ ↦ trivial⟩

def SameKind : Counters → Counters → Prop
  | .roundRobin _, .roundRobin _ => True
  | .byModelName _, .byModelName _ => True
  | .router, .router => True
  | _, _ => False

omit [DecidableEq M] in
theorem nodup_names (pool : Pool M) : pool.names.Nodup := by
  rw [Pool.names]
  suffices hgen : ∀ names : List String, names.Nodup →
      (pool.objects.foldl (fun names o =>
        if o.2.modelName ∈ names then names else names ++ [o.2.modelName]) names).Nodup from
    hgen [] nodup_nil
  induction pool.objects with
  | nil => exact fun _ h => h
  | cons o objects ih =>
    intro names h
    rw [foldl_cons]
    refine ih _ ?_
    by_cases hmem : o.2.modelName ∈ names
    · rw [if_pos hmem]
      exact h
    · rw [if_neg hmem, nodup_append]
      refine ⟨h, nodup_singleton _, fun a ha b hb heq => hmem ?_⟩
      rw [← mem_singleton.mp hb, ← heq]
      exact ha

theorem keys_assocSet_of_mem {k : String} {n : ℕ} {es : List (String × ℕ)}
    (h : k ∈ es.map Prod.fst) : (assocSet k n es).map Prod.fst = es.map Prod.fst := by
  induction es with
  | nil => cases h
  | cons e es ih =>
    rw [assocSet]
    by_cases he : e.1 = k
    · rw [if_pos he, map_cons, map_cons, he]
    · rw [if_neg he, map_cons, map_cons]
      rw [ih ((mem_cons.mp h).resolve_left (Ne.symm he))]

theorem assocSet_append {k : String} {n n' : ℕ} {front rest : List (String × ℕ)}
    (h : k ∉ front.map Prod.fst) :
    assocSet k n (front ++ (k, n') :: rest) = front ++ (k, n) :: rest := by
  induction front with
  | nil => rw [nil_append, assocSet, if_pos rfl, nil_append]
  | cons e front ih =>
    rw [map_cons, mem_cons, not_or] at h
    rw [cons_append, assocSet, if_neg (Ne.symm h.1), ih h.2, cons_append]

theorem loadRecords_zeros {records : List (String × ℕ)} (hn : (records.map Prod.fst).Nodup) :
    loadRecords records (records.map fun r => (r.1, 0)) = records := by
  suffices hgen : ∀ front rest : List (String × ℕ), ((front ++ rest).map Prod.fst).Nodup →
      loadRecords rest (front ++ rest.map fun r => (r.1, 0)) = front ++ rest from
    hgen [] records hn
  intro front rest
  induction rest generalizing front with
  | nil =>
    intro _
    rfl
  | cons r rest ih =>
    intro hn
    have hmem : r.1 ∈ (front ++ (r :: rest).map fun r : String × ℕ => (r.1, 0)).map Prod.fst := by
      simp
    have hfresh : r.1 ∉ front.map Prod.fst := by
      rw [map_append, nodup_append] at hn
      exact fun hin => hn.2.2 r.1 hin r.1 (by simp) rfl
    have hsplit : ∀ tail, front ++ r :: tail = (front ++ [r]) ++ tail := by simp
    rw [loadRecords, foldl_cons, if_pos hmem, map_cons, assocSet_append hfresh,
      hsplit (rest.map _), hsplit rest]
    exact ih (front ++ [r]) (by rw [← hsplit]; exact hn)

section Runs

variable {Digest : Type w} [DecidableEq Digest] {digest : List (String × String) → Digest}
  {intelli : IntelliRouter M} {strategy : Strategy}

variable {start : Counters}

omit [DecidableEq M] in
theorem build_spec (h : buildModelAllocator intelli pool strategy = some start) :
    Fits pool start ∧ ∀ innerIndexes, start = .byModelName innerIndexes →
      innerIndexes = pool.names.map fun name => (name, 0) := by
  rw [buildModelAllocator.eq_def] at h
  by_cases hempty : pool.objects = []
  · rw [if_pos hempty] at h
    cases h
  rw [if_neg hempty] at h
  cases strategy with
  | roundRobin =>
    cases h
    exact ⟨trivial, nofun⟩
  | byModelName =>
    cases h
    refine ⟨?_, fun _ heq => (Counters.byModelName.inj heq).symm⟩
    rw [Fits, map_map]
    exact map_id _
  | router =>
    simp only [Option.ite_none_right_eq_some, Option.some.injEq] at h
    obtain ⟨hunique, rfl⟩ := h
    exact ⟨hunique, nofun⟩
  | intelliRouter =>
    simp only [Option.ite_none_right_eq_some, Option.some.injEq] at h
    obtain ⟨hunique, rfl⟩ := h
    exact ⟨hunique.1, nofun⟩

variable {c : Counters}

theorem restart_eq
    (hbuild : buildModelAllocator intelli pool strategy = some start) (hfits : Fits pool c)
    (hkind : SameKind start c) : step accepts digest intelli pool strategy c .restart = c := by
  obtain ⟨-, hzero⟩ := build_spec hbuild
  rw [step, hbuild]
  cases c with
  | roundRobin index =>
    cases start with
    | roundRobin index' => simp [loadStateDict, stateDict]
    | byModelName innerIndexes => exact hkind.elim
    | router => exact hkind.elim
  | byModelName innerIndexes =>
    cases start with
    | roundRobin index' => exact hkind.elim
    | router => exact hkind.elim
    | byModelName zeros =>
      have hzeros : zeros = innerIndexes.map fun r => (r.1, 0) := by
        rw [hzero zeros rfl, ← hfits, map_map]
        rfl
      have hn : (innerIndexes.map Prod.fst).Nodup := by
        rw [hfits]
        exact nodup_names pool
      simp only [stateDict, loadStateDict, ne_eq, not_true_eq_false, if_false, hzeros,
        loadRecords_zeros hn]
  | router =>
    cases start with
    | roundRobin index => exact hkind.elim
    | byModelName innerIndexes => exact hkind.elim
    | router => rfl

theorem fits_allocate {c : Counters} (hfits : Fits pool c) (name : Option String)
    (filter : Option F) :
    Fits pool (allocate accepts pool c name filter).2 ∧
      SameKind c (allocate accepts pool c name filter).2 := by
  cases c with
  | roundRobin index => exact ⟨trivial, trivial⟩
  | router => exact ⟨hfits, trivial⟩
  | byModelName innerIndexes =>
    refine ⟨?_, trivial⟩
    simp only [allocate, Fits] at hfits ⊢
    cases name with
    | none => exact hfits
    | some name =>
      rw [byModelNameAllocate]
      by_cases hunknown : name = "" ∨ name ∉ pool.names
      · simp only [if_pos hunknown]
        exact hfits
      · simp only [if_neg hunknown]
        have hmem : name ∈ innerIndexes.map Prod.fst := by
          rw [hfits]
          exact not_not.mp (not_or.mp hunknown).2
        have hkeys := @keys_assocSet_of_mem name
          ((assocGet? name innerIndexes).getD 0 + 1) innerIndexes hmem
        by_cases hgroup : groupPlaces accepts pool name filter = []
        · simp only [if_pos hgroup]
          exact hfits
        · simp only [if_neg hgroup]
          split
          · exact hkeys.trans hfits
          · split
            · exact hkeys.trans hfits
            · exact hkeys.trans hfits

theorem SameKind.trans {c' c'' : Counters} (h : SameKind c c') (h' : SameKind c' c'') :
    SameKind c c'' := by
  cases c <;> cases c' <;> cases c'' <;> first | exact h | exact h' | trivial

theorem fits_step (accepts : F → String → Bool) (digest : List (String × String) → Digest)
    (hbuild : buildModelAllocator intelli pool strategy = some start) (hfits : Fits pool c)
    (hkind : SameKind start c) (op : AllocatorOp F) :
    Fits pool (step accepts digest intelli pool strategy c op) ∧
      SameKind start (step accepts digest intelli pool strategy c op) := by
  cases op with
  | call name filter =>
    have hnext := @fits_allocate M F accepts pool _ c hfits name filter
    exact ⟨hnext.1, hkind.trans hnext.2⟩
  | restart =>
    rw [restart_eq hbuild hfits hkind]
    exact ⟨hfits, hkind⟩

def AllocatorOp.isCall : AllocatorOp F → Bool
  | .call _ _ => true
  | .restart => false

theorem outputs_calls
    (hbuild : buildModelAllocator intelli pool strategy = some start) (hfits : Fits pool c)
    (hkind : SameKind start c) (ops : List (AllocatorOp F)) :
    outputs accepts digest intelli pool strategy c ops =
      outputs accepts digest intelli pool strategy c (ops.filter AllocatorOp.isCall) := by
  induction ops generalizing c with
  | nil => rfl
  | cons op ops ih =>
    have hnext := fits_step accepts digest hbuild hfits hkind op
    cases op with
    | call name filter =>
      rw [filter_cons_of_pos rfl, outputs, outputs, ih hnext.1 hnext.2]
    | restart =>
      rw [filter_cons_of_neg Bool.false_ne_true, outputs, restart_eq hbuild hfits hkind,
        ih hfits hkind]

variable [DecidableEq F]

/-- The places that the calls of this name and filter give. -/
def takes (accepts : F → String → Bool) (digest : List (String × String) → Digest)
    (intelli : IntelliRouter M) (pool : Pool M) (strategy : Strategy) (name : Option String)
    (filter : Option F) : Counters → List (AllocatorOp F) → List ℕ
  | _, [] => []
  | c, .call name' filter' :: ops =>
    (if name' = name ∧ filter' = filter then
      (allocate accepts pool c name' filter').1.toList.map (·.place) else []) ++
        takes accepts digest intelli pool strategy name filter
          (step accepts digest intelli pool strategy c (.call name' filter')) ops
  | c, .restart :: ops =>
    takes accepts digest intelli pool strategy name filter
      (step accepts digest intelli pool strategy c .restart) ops

/-- The operation is a call of this name and filter, or turns no counter of such a call. -/
def LeavesTurn (accepts : F → String → Bool) (pool : Pool M) (c : Counters) (name : Option String)
    (filter : Option F) : AllocatorOp F → Prop
  | .call name' filter' => (name' = name ∧ filter' = filter) ∨ ¬ Shares c name' name ∨
      eligible accepts pool c name' filter' = []
  | .restart => True

omit [DecidableEq M] [DecidableEq F] in
theorem kind_eq (accepts : F → String → Bool) (pool : Pool M) {c' : Counters}
    (h : SameKind c c') : eligible accepts pool c' = eligible accepts pool c ∧
      Shares c' = Shares c ∧ (c' = .router ↔ c = .router) := by
  cases c with
  | roundRobin index =>
    cases c' with
    | roundRobin index' => exact ⟨rfl, rfl, iff_of_false nofun nofun⟩
    | byModelName innerIndexes' => exact h.elim
    | router => exact h.elim
  | byModelName innerIndexes =>
    cases c' with
    | roundRobin index' => exact h.elim
    | byModelName innerIndexes' => exact ⟨rfl, rfl, iff_of_false nofun nofun⟩
    | router => exact h.elim
  | router =>
    cases c' with
    | roundRobin index' => exact h.elim
    | byModelName innerIndexes' => exact h.elim
    | router => exact ⟨rfl, rfl, Iff.rfl⟩

theorem SameKind.symm {c' : Counters} (h : SameKind c c') : SameKind c' c := by
  cases c <;> cases c' <;> exact h

theorem takes_eq_turns {start c : Counters}
    (hbuild : buildModelAllocator intelli pool strategy = some start) (hfits : Fits pool c)
    (hkind : SameKind start c) (hrotates : c ≠ .router) {name : Option String}
    {filter : Option F} (hsome : eligible accepts pool c name filter ≠ [])
    {ops : List (AllocatorOp F)} (hops : ∀ op ∈ ops, LeavesTurn accepts pool c name filter op) :
    ∃ k, takes accepts digest intelli pool strategy name filter c ops =
      turns (eligible accepts pool c name filter) (counter c name) k := by
  induction ops generalizing c with
  | nil => exact ⟨0, rfl⟩
  | cons op ops ih =>
    have hnext := fits_step accepts digest hbuild hfits hkind op
    obtain ⟨heligible, hshares, hrouter⟩ := kind_eq accepts pool (hkind.symm.trans hnext.2)
    have hrest : ∀ op' ∈ ops, LeavesTurn accepts pool
        (step accepts digest intelli pool strategy c op) name filter op' := by
      intro op' hop'
      have hleaves := hops op' (.tail _ hop')
      cases op' with
      | restart => trivial
      | call name' filter' =>
        rw [LeavesTurn, heligible, hshares]
        exact hleaves
    obtain ⟨k, hk⟩ := ih hnext.1 hnext.2 (fun h => hrotates (hrouter.mp h))
      (by rw [heligible]; exact hsome) hrest
    rw [heligible] at hk
    cases op with
    | restart =>
      rw [takes, hk, restart_eq hbuild hfits hkind]
      exact ⟨k, rfl⟩
    | call name' filter' =>
      have hspec := @allocate_spec M F accepts pool _ c hfits name' filter'
      rw [takes, hk]
      change ∃ k', _ ++ turns _ (counter (allocate accepts pool c name' filter').2 name) k = _
      by_cases hsame : name' = name ∧ filter' = filter
      · obtain ⟨rfl, rfl⟩ := hsame
        obtain ⟨a, ha, -, -, hplace, hcounter, -⟩ := hspec.2 hsome
        refine ⟨k + 1, ?_⟩
        rw [if_pos ⟨rfl, rfl⟩, ha, hcounter, if_neg hrotates, turns, hplace hrotates]
        rfl
      · rw [if_neg hsame, nil_append]
        refine ⟨k, ?_⟩
        rcases (hops _ (.head _)).resolve_left hsame with hother | hnone
        · by_cases hempty : eligible accepts pool c name' filter' = []
          · rw [hspec.1 hempty]
          · obtain ⟨a, -, -, -, -, -, hkept⟩ := hspec.2 hempty
            rw [hkept name hother]
        · rw [hspec.1 hnone]

omit [DecidableEq M] [DecidableEq F] in
theorem router_eligible {filter : Option F} (hfits : Fits pool .router) {p p' : ℕ}
    (hp : p ∈ eligible accepts pool .router (some name) filter)
    (hp' : p' ∈ eligible accepts pool .router (some name) filter) : p = p' := by
  obtain ⟨o, ho, hnamed, -⟩ := mem_groupPlaces.mp hp
  obtain ⟨o', ho', hnamed', -⟩ := mem_groupPlaces.mp hp'
  have hunique : (pool.objects.map fun o => o.2.modelName).Nodup := hfits
  have hlt : p < (pool.objects.map fun o => o.2.modelName).length := by
    rw [length_map]
    exact (List.getElem?_eq_some_iff.mp ho).1
  refine (List.getElem?_inj hlt hunique).mp ?_
  rw [List.getElem?_map, List.getElem?_map, ho, ho', Option.map_some, Option.map_some, hnamed,
    hnamed']

omit [DecidableEq F] in
theorem fits_reached
    (hbuild : buildModelAllocator intelli pool strategy = some start) {ops : List (AllocatorOp F)}
    (hreached : Reached (step accepts digest intelli pool strategy) start ops c) :
    Fits pool c ∧ SameKind start c := by
  have hmeets : Meets (step accepts digest intelli pool strategy) (fun _ _ => True) start ops :=
    meets_of_forall (fun _ _ _ => trivial) _
  refine reached_invariant (I := fun c => Fits pool c ∧ SameKind start c)
    (fun c op h _ => fits_step accepts digest hbuild h.1 h.2 op) ?_ hmeets hreached
  exact ⟨(build_spec hbuild).1, by cases start <;> trivial⟩

end Runs

section Allocations

variable [DecidableEq F] {Digest : Type w} [DecidableEq Digest]

/-- **References of allocations.** In every run of every allocator: an allocation comes from a place
of the pool that the call's filter accepts, and its stored reference resolves to this entry's
configuration, unless the name of the entry is empty; the allocations are those of the same calls
without the restarts; and the calls of one name and filter take turns among their eligible places
while nothing else turns their counter. -/
theorem references_resolve (accepts : F → String → Bool)
    (digest : List (String × String) → Digest) (intelli : IntelliRouter M) (pool : Pool M)
    (strategy : Strategy) (start : Counters)
    (hbuild : buildModelAllocator intelli pool strategy = some start)
    (ops : List (AllocatorOp F)) :
    (∀ c, Reached (step accepts digest intelli pool strategy) start ops c →
      ∀ name filter a, (allocate accepts pool c name filter).1 = some a →
        (∃ obj, pool.objects[a.place]? = some (obj, a.entry)) ∧
        passes accepts filter a.entry = true ∧
        (a.entry.modelName ≠ "" → a.resolved pool = some a.entry.toTeamModelConfig)) ∧
    outputs accepts digest intelli pool strategy start ops =
      outputs accepts digest intelli pool strategy start (ops.filter AllocatorOp.isCall) ∧
    ∀ c, Reached (step accepts digest intelli pool strategy) start ops c →
      ∀ name filter, (c = .router → name ≠ none) →
        ∀ stretch, (∀ op ∈ stretch, LeavesTurn accepts pool c name filter op) →
          ∀ p ∈ eligible accepts pool c name filter, ∀ p' ∈ eligible accepts pool c name filter,
            (takes accepts digest intelli pool strategy name filter c stretch).count p ≤
              (takes accepts digest intelli pool strategy name filter c stretch).count p' + 1 := by
  have hself : SameKind start start := by cases start <;> trivial
  refine ⟨fun c hc name filter a ha => ?_,
    outputs_calls hbuild (build_spec hbuild).1 hself ops, fun c hc name filter hnamed stretch hops
      p hp p' hp' => ?_⟩
  · obtain ⟨hfits, -⟩ := fits_reached hbuild hc
    have hspec := @allocate_spec M F accepts pool _ c hfits name filter
    by_cases hempty : eligible accepts pool c name filter = []
    · rw [hspec.1 hempty] at ha
      cases ha
    · obtain ⟨a', ha', hsound, hpass, -⟩ := hspec.2 hempty
      cases Option.some.inj (ha.symm.trans ha')
      exact ⟨hsound.at_place, hpass, hsound.resolves⟩
  · obtain ⟨hfits, hkind⟩ := fits_reached hbuild hc
    by_cases hrouter : c = .router
    · subst hrouter
      obtain ⟨name, rfl⟩ := Option.ne_none_iff_exists'.mp (hnamed rfl)
      rw [router_eligible hfits hp hp']
      exact Nat.le_succ _
    · have hsome : eligible accepts pool c name filter ≠ [] := ne_nil_of_mem hp
      obtain ⟨k, hk⟩ := @takes_eq_turns M F accepts pool _ Digest _ digest intelli strategy _ start
        c hbuild hfits hkind hrouter name filter hsome stretch hops
      rw [hk]
      exact count_turns_le (nodup_eligible c name filter) hp hp' _ k

def entryOf (name provider : String) : ModelPoolEntry Unit :=
  ⟨name, "key", "url", provider, none, "id", ()⟩

def twoEntries : Pool Unit where
  objects := [(0, entryOf "a" "x"), (1, entryOf "b" "x")]
  same := by decide

def unnamedEntry : Pool Unit where
  objects := [(0, entryOf "" "x")]
  same := by decide

def anyProvider (_ : Unit) (_ : String) : Bool := true

def noDeployments : IntelliRouter Unit := ⟨"intelli_router", fun _ => true⟩

def noDigest (_ : List (String × String)) : Unit := ()

theorem twoEntries_resolve :
    (⟨0, entryOf "a" "x", 0⟩ : Allocation Unit).resolved twoEntries =
      some (entryOf "a" "x").toTeamModelConfig :=
  ((references_resolve anyProvider noDigest noDeployments twoEntries .roundRobin (.roundRobin 0)
    rfl []).1 _ ⟨[], prefix_refl _, rfl⟩ none none ⟨0, entryOf "a" "x", 0⟩ rfl).2.2 (by decide)

def byTurns : List (AllocatorOp Unit) :=
  [.call none none, .call none (some ()), .call none none, .call none (some ())]

/-- An entry without a name is allocated and not resolved; filtered calls turn the counter of the
others, so that these get one entry alone; and a router gives its first entry to each call without a
name. -/
theorem references_differ :
    (¬ ∀ (pool : Pool Unit) (c : Counters) (a : Allocation Unit),
      buildModelAllocator noDeployments pool .roundRobin = some c →
        (allocate anyProvider pool c none none).1 = some a →
          a.resolved pool = some a.entry.toTeamModelConfig) ∧
    (¬ ∀ (pool : Pool Unit) (c : Counters) (ops : List (AllocatorOp Unit)),
      buildModelAllocator noDeployments pool .roundRobin = some c →
        ∀ p ∈ eligible anyProvider pool c none none, ∀ p' ∈ eligible anyProvider pool c none none,
          (takes anyProvider noDigest noDeployments pool .roundRobin none none c ops).count p ≤
            (takes anyProvider noDigest noDeployments pool .roundRobin none none c ops).count p' +
              1) ∧
    ¬ ∀ (pool : Pool Unit) (c : Counters) (ops : List (AllocatorOp Unit)),
      buildModelAllocator noDeployments pool .router = some c →
        ∀ p ∈ eligible anyProvider pool c none none, ∀ p' ∈ eligible anyProvider pool c none none,
          (takes anyProvider noDigest noDeployments pool .router none none c ops).count p ≤
            (takes anyProvider noDigest noDeployments pool .router none none c ops).count p' +
              1 := by
  refine ⟨fun h => ?_, fun h => ?_, fun h => ?_⟩
  · exact nomatch h unnamedEntry (.roundRobin 0) ⟨0, entryOf "" "x", 0⟩ rfl rfl
  · exact absurd (h twoEntries (.roundRobin 0) byTurns rfl 0 (by decide) 1 (by decide)) (by decide)
  · exact absurd (h twoEntries .router byTurns (by decide) 0 (by decide) 1 (by decide)) (by decide)

end Allocations

end JiuwenSpec.Models

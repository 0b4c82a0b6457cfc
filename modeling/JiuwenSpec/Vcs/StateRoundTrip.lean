import JiuwenSpec.Vcs.StateDelta

/-!
# Applying a difference

A difference leads from the old state to the new one where every path it holds splits into the
keys it was joined from and no value was left out that Python alone takes for the old one. The
proof follows the addresses of the changed values, one key at a time.
-/

namespace JiuwenSpec.Vcs

open Base List

def joinAll (address : List String) : String := address.foldl joinPath ""

def Faithful (address : List String) : Prop := splitPath (joinAll address) = address

instance instDecidableFaithful (address : List String) : Decidable (Faithful address) :=
  inferInstanceAs (Decidable (_ = _))

def snoc (address : List String) (key : String) : List String := address ++ [key]

theorem joinAll_snoc (address : List String) (key : String) :
    joinAll (snoc address key) = joinPath (joinAll address) key := by
  rw [joinAll, snoc, foldl_append]
  rfl

/-- The entries of two dictionaries that are compared key by key. -/
def bothDicts : Option Json → Json → Option (State × State)
  | some (.dict os), .dict ns => some (os, ns)
  | _, _ => none

def keeps : Option Json → Json → Bool
  | some w, v => w.pyEq v
  | none, _ => false

/-- What two states hold at an address up to which both are dictionaries. -/
def sides : State → State → List String → Option (Option Json × Option Json)
  | _, _, [] => none
  | old, new, [k] => some (assocGet? k old, assocGet? k new)
  | old, new, k :: ks =>
    match (assocGet? k new).bind (bothDicts (assocGet? k old)) with
    | some (os, ns) => sides os ns ks
    | none => none

/-- What a difference must do at an address it comes to: carry a change by a faithful path, and
leave out only what is the same. -/
def Carried (address : List String) (old new : Option Json) : Prop :=
  match old, new with
  | none, none => True
  | some (.dict _), some (.dict _) => True
  | some a, some b => if a.pyEq b then a.same b = true else Faithful address
  | _, _ => Faithful address

def Carries (old new : State) : Prop :=
  ∀ address a b, sides old new address = some (a, b) → Carried address a b

mutual

def Json.Distinct : Json → Prop
  | .list items => Json.DistinctList items
  | .dict entries => (entries.map Prod.fst).Nodup ∧ Json.DistinctEntries entries
  | _ => True

def Json.DistinctList : List Json → Prop
  | [] => True
  | x :: xs => x.Distinct ∧ Json.DistinctList xs

def Json.DistinctEntries : List (String × Json) → Prop
  | [] => True
  | (_, v) :: es => v.Distinct ∧ Json.DistinctEntries es

end

def State.Distinct (s : State) : Prop := (Json.dict s).Distinct

variable {k : String}

theorem distinct_of_mem {es : State} (h : Json.DistinctEntries es) {v : Json}
    (hmem : (k, v) ∈ es) : v.Distinct := by
  induction es with
  | nil => cases hmem
  | cons e es ih =>
    obtain ⟨k', v'⟩ := e
    rw [Json.DistinctEntries] at h
    rcases mem_cons.mp hmem with heq | hmem
    · rw [(Prod.mk.inj heq).2]
      exact h.1
    · exact ih h.2 hmem

variable {s : State}

theorem State.Distinct.nodup (h : s.Distinct) : (s.map Prod.fst).Nodup := by
  rw [State.Distinct, Json.Distinct] at h
  exact h.1

theorem State.Distinct.value (h : s.Distinct) {v : Json}
    (hv : assocGet? k s = some v) : v.Distinct := by
  rw [State.Distinct, Json.Distinct] at h
  exact distinct_of_mem h.2 (mem_of_assocGet? hv)

theorem eqvEntries_iff {strict : Bool} {es fs : State} : Json.eqvEntries strict es fs = true ↔
    ∀ k v, (k, v) ∈ es → ∃ w, assocGet? k fs = some w ∧ v.eqv strict w = true := by
  induction es with
  | nil => simp [Json.eqvEntries]
  | cons e es ih =>
    obtain ⟨k, v⟩ := e
    rw [Json.eqvEntries, Bool.and_eq_true, ih]
    constructor
    · rintro ⟨hhead, htail⟩ k' v' hmem
      rcases mem_cons.mp hmem with heq | hmem
      · obtain ⟨rfl, rfl⟩ := Prod.mk.inj heq
        cases hw : assocGet? k' fs with
        | none =>
          rw [hw] at hhead
          cases hhead
        | some w =>
          rw [hw] at hhead
          exact ⟨w, rfl, hhead⟩
      · exact htail k' v' hmem
    · intro h
      obtain ⟨w, hw, heq⟩ := h k v (.head _)
      rw [hw]
      exact ⟨heq, fun k' v' hmem => h k' v' (.tail _ hmem)⟩

mutual

theorem Json.same_refl : ∀ v : Json, v.Distinct → v.eqv true v = true
  | .null, _ => by rw [Json.eqv]
  | .bool b, _ => by simp [Json.eqv]
  | .num q, _ => by simp [Json.eqv]
  | .str s, _ => by simp [Json.eqv]
  | .list items, h => by
    rw [Json.eqv]
    rw [Json.Distinct] at h
    exact Json.sameList_refl items h
  | .dict entries, h => by
    rw [Json.Distinct] at h
    rw [Json.eqv, Bool.and_eq_true, eqvEntries_iff, all_eq_true]
    refine ⟨fun k v hmem => ⟨v, assocGet?_of_mem h.1 hmem, ?_⟩, fun e hmem => ?_⟩
    · exact Json.sameEntries_refl entries h.2 k v hmem
    · rw [assocGet?_of_mem h.1 hmem]
      rfl

theorem Json.sameList_refl : ∀ xs : List Json, Json.DistinctList xs →
    Json.eqvList true xs xs = true
  | [], _ => by rw [Json.eqvList]
  | x :: xs, h => by
    rw [Json.DistinctList] at h
    rw [Json.eqvList, Json.same_refl x h.1, Json.sameList_refl xs h.2]
    rfl

theorem Json.sameEntries_refl : ∀ es : List (String × Json), Json.DistinctEntries es →
    ∀ k v, (k, v) ∈ es → v.eqv true v = true
  | [], _, _, _, hmem => by cases hmem
  | (k', v') :: es, h, k, v, hmem => by
    rw [Json.DistinctEntries] at h
    rcases mem_cons.mp hmem with heq | hmem
    · rw [(Prod.mk.inj heq).2]
      exact Json.same_refl v' h.1
    · exact Json.sameEntries_refl es h.2 k v hmem

end

theorem State.same_of_lookups {t : State} (hs : (s.map Prod.fst).Nodup)
    (ht : (t.map Prod.fst).Nodup)
    (hvalue : ∀ k v, assocGet? k t = some v → ∃ w, assocGet? k s = some w ∧ w.same v = true)
    (hnone : ∀ k, assocGet? k t = none → assocGet? k s = none) : s.same t = true := by
  rw [State.same, Json.same, Json.eqv, Bool.and_eq_true, eqvEntries_iff, all_eq_true]
  constructor
  · intro k w hmem
    have hw := assocGet?_of_mem hs hmem
    cases hv : assocGet? k t with
    | none =>
      rw [hnone k hv] at hw
      cases hw
    | some v =>
      obtain ⟨w', hw', hsame⟩ := hvalue k v hv
      rw [hw] at hw'
      cases hw'
      exact ⟨v, rfl, hsame⟩
  · intro e hmem
    obtain ⟨w, hw, -⟩ := hvalue e.1 e.2 (assocGet?_of_mem ht hmem)
    rw [hw]
    rfl

theorem bothDicts_eq_some {a : Option Json} {v : Json} {os ns : State}
    (h : bothDicts a v = some (os, ns)) : a = some (.dict os) ∧ v = .dict ns := by
  rw [bothDicts.eq_def] at h
  split at h
  · cases h
    exact ⟨rfl, rfl⟩
  · cases h

variable {new : State}

theorem sizeOf_lt_of_both {a : Option Json} {key : String} {v : Json} {os ns : State}
    (h : bothDicts a v = some (os, ns)) (hmem : (key, v) ∈ new) : sizeOf ns < sizeOf new := by
  obtain ⟨-, rfl⟩ := bothDicts_eq_some h
  have hentry := sizeOf_lt_of_mem hmem
  simp only [Prod.mk.sizeOf_spec, Json.dict.sizeOf_spec] at hentry
  omega

section

variable {π ρ : Type} {step : π → String → π} {path : π} {key : String} {old : State} {v : Json}

theorem diffValue_of_both {os ns : State} (h : bothDicts (assocGet? key old) v = some (os, ns)) :
    diffValue step path key old v = diffInto step (step path key) os ns := by
  obtain ⟨hold, rfl⟩ := bothDicts_eq_some h
  rw [diffValue, hold, diffInto]

theorem diffValue_of_not (h : bothDicts (assocGet? key old) v = none) :
    diffValue step path key old v =
      (if keeps (assocGet? key old) v then [] else [(step path key, v)], []) := by
  cases hold : assocGet? key old with
  | none => cases v <;> simp [diffValue, hold, keeps]
  | some w =>
    rw [hold] at h
    cases v with
    | dict ns =>
      cases w with
      | dict os => cases h
      | _ =>
        simp only [diffValue, hold, keeps]
        split <;> simp [*]
    | _ =>
      simp only [diffValue, hold, keeps]
      split <;> simp [*]

variable {stepA : π → String → π} {stepB : ρ → String → ρ} {f : π → ρ}

def mapChanges (f : π → ρ) (c : List (π × Json) × List π) : List (ρ × Json) × List ρ :=
  (c.1.map fun w => (f w.1, w.2), c.2.map f)

theorem diffEntries_map {q : π} (h : ∀ key v, (key, v) ∈ new →
      diffValue stepB (f q) key old v = mapChanges f (diffValue stepA q key old v)) :
    diffEntries stepB (f q) old new = mapChanges f (diffEntries stepA q old new) := by
  induction new with
  | nil =>
    rw [diffEntries, diffEntries]
    rfl
  | cons e rest ih =>
    obtain ⟨key, v⟩ := e
    rw [diffEntries, diffEntries, h key v mem_cons_self,
      ih fun key v hmem => h key v (.tail _ hmem)]
    simp [mapChanges]

theorem diffInto_map (hf : ∀ q key, f (stepA q key) = stepB (f q) key) (q : π) (old new : State) :
    diffInto stepB (f q) old new = mapChanges f (diffInto stepA q old new) := by
  have hvalue : ∀ key v, (key, v) ∈ new →
      diffValue stepB (f q) key old v = mapChanges f (diffValue stepA q key old v) := by
    intro key v hmem
    cases hb : bothDicts (assocGet? key old) v with
    | none =>
      rw [diffValue_of_not hb, diffValue_of_not hb]
      split <;> simp [mapChanges, hf]
    | some sides =>
      obtain ⟨os, ns⟩ := sides
      have hsize := sizeOf_lt_of_both hb hmem
      rw [diffValue_of_both hb, diffValue_of_both hb, ← hf]
      exact diffInto_map hf (stepA q key) os ns
  rw [diffInto, diffInto, diffEntries_map hvalue]
  simp [mapChanges, hf, Function.comp_def]
termination_by sizeOf new

theorem diffInto_under (key : String) (old new : State) :
    diffInto snoc [key] old new = mapChanges (key :: ·) (diffInto snoc [] old new) :=
  diffInto_map (fun _ _ => rfl) [] old new

theorem diffInto_joinPath (old new : State) :
    diffInto joinPath "" old new = mapChanges joinAll (diffInto snoc [] old new) :=
  diffInto_map (f := joinAll) joinAll_snoc [] old new

end

theorem mem_diffEntries {π : Type} {step : π → String → π} {path : π} {old : State} :
    (∀ w, w ∈ (diffEntries step path old new).1 ↔
        ∃ key v, (key, v) ∈ new ∧ w ∈ (diffValue step path key old v).1) ∧
      ∀ p, p ∈ (diffEntries step path old new).2 ↔
        ∃ key v, (key, v) ∈ new ∧ p ∈ (diffValue step path key old v).2 := by
  induction new with
  | nil => simp [diffEntries]
  | cons e rest ih =>
    obtain ⟨key, v⟩ := e
    rw [diffEntries]
    constructor
    · intro w
      rw [mem_append, ih.1]
      constructor
      · rintro (h | ⟨k, u, hmem, h⟩)
        · exact ⟨key, v, .head _, h⟩
        · exact ⟨k, u, .tail _ hmem, h⟩
      · rintro ⟨k, u, hmem, h⟩
        rcases mem_cons.mp hmem with heq | hmem
        · obtain ⟨rfl, rfl⟩ := Prod.mk.inj heq
          exact .inl h
        · exact .inr ⟨k, u, hmem, h⟩
    · intro p
      rw [mem_append, ih.2]
      constructor
      · rintro (h | ⟨k, u, hmem, h⟩)
        · exact ⟨key, v, .head _, h⟩
        · exact ⟨k, u, .tail _ hmem, h⟩
      · rintro ⟨k, u, hmem, h⟩
        rcases mem_cons.mp hmem with heq | hmem
        · obtain ⟨rfl, rfl⟩ := Prod.mk.inj heq
          exact .inl h
        · exact .inr ⟨k, u, hmem, h⟩

theorem sides_cons {old os ns : State} {key : String} {v : Json} {address : List String}
    (hv : assocGet? key new = some v) (hb : bothDicts (assocGet? key old) v = some (os, ns))
    (hne : address ≠ []) : sides old new (key :: address) = sides os ns address := by
  cases address with
  | nil => exact absurd rfl hne
  | cons k ks =>
    rw [sides, hv, Option.bind_some, hb]
    intro h
    cases h

theorem sides_under {old : State} {key : String} {address : List String}
    (hne : address ≠ []) {ab : Option Json × Option Json}
    (h : sides old new (key :: address) = some ab) :
    ∃ os ns, assocGet? key old = some (.dict os) ∧ assocGet? key new = some (.dict ns) ∧
      sides os ns address = some ab := by
  cases address with
  | nil => exact absurd rfl hne
  | cons k ks =>
    rw [sides] at h
    · cases hv : assocGet? key new with
      | none =>
        rw [hv] at h
        cases h
      | some v =>
        rw [hv, Option.bind_some] at h
        cases hb : bothDicts (assocGet? key old) v with
        | none =>
          rw [hb] at h
          cases h
        | some both =>
          obtain ⟨os, ns⟩ := both
          rw [hb] at h
          obtain ⟨hold, rfl⟩ := bothDicts_eq_some hb
          exact ⟨os, ns, hold, rfl, h⟩
    · exact cons_ne_nil _ _

theorem sides_ne_nil {old : State} {address : List String} {ab : Option Json × Option Json}
    (h : sides old new address = some ab) : address ≠ [] := by
  rintro rfl
  cases h

theorem sides_of_write {old new : State} (hn : new.Distinct) {w : List String × Json}
    (hw : w ∈ (diffInto snoc [] old new).1) : ∃ a, sides old new w.1 = some (a, some w.2) ∧
      bothDicts a w.2 = none ∧ keeps a w.2 = false := by
  obtain ⟨key, v, hmem, hw⟩ := mem_diffEntries.1 w |>.mp hw
  have hv := assocGet?_of_mem hn.nodup hmem
  cases hb : bothDicts (assocGet? key old) v with
  | none =>
    rw [diffValue_of_not hb] at hw
    cases hkeep : keeps (assocGet? key old) v with
    | true =>
      rw [hkeep] at hw
      cases hw
    | false =>
      rw [hkeep] at hw
      obtain rfl := mem_singleton.mp hw
      refine ⟨assocGet? key old, ?_, hb, hkeep⟩
      show some (assocGet? key old, assocGet? key new) = _
      rw [hv]
  | some both =>
    obtain ⟨os, ns⟩ := both
    rw [diffValue_of_both hb, show snoc [] key = [key] from rfl, diffInto_under] at hw
    obtain ⟨w', hw', rfl⟩ := mem_map.mp hw
    obtain ⟨-, rfl⟩ := bothDicts_eq_some hb
    have hsize := sizeOf_lt_of_both hb hmem
    obtain ⟨a, hsides, hnot, hkeep⟩ := sides_of_write (hn.value hv) hw'
    exact ⟨a, (sides_cons hv hb (sides_ne_nil hsides)).trans hsides, hnot, hkeep⟩
termination_by sizeOf new

theorem sides_of_removal {old new : State} (hn : new.Distinct) {p : List String}
    (hp : p ∈ (diffInto snoc [] old new).2) :
    ∃ a, sides old new p = some (some a, none) := by
  rcases mem_append.mp hp with hp | hp
  · obtain ⟨key, v, hmem, hp⟩ := mem_diffEntries.2 p |>.mp hp
    have hv := assocGet?_of_mem hn.nodup hmem
    cases hb : bothDicts (assocGet? key old) v with
    | none =>
      rw [diffValue_of_not hb] at hp
      cases hp
    | some both =>
      obtain ⟨os, ns⟩ := both
      rw [diffValue_of_both hb, show snoc [] key = [key] from rfl, diffInto_under] at hp
      obtain ⟨p', hp', rfl⟩ := mem_map.mp hp
      obtain ⟨-, rfl⟩ := bothDicts_eq_some hb
      have hsize := sizeOf_lt_of_both hb hmem
      obtain ⟨a, hsides⟩ := sides_of_removal (hn.value hv) hp'
      exact ⟨a, (sides_cons hv hb (sides_ne_nil hsides)).trans hsides⟩
  · obtain ⟨key, hkey, rfl⟩ := mem_map.mp hp
    obtain ⟨hold, hnew⟩ := mem_filter.mp hkey
    have hnone : assocGet? key new = none := assocGet?_eq_none_iff.mpr (of_decide_eq_true hnew)
    cases ha : assocGet? key old with
    | none => exact absurd hold (assocGet?_eq_none_iff.mp ha)
    | some a =>
      refine ⟨a, ?_⟩
      show some (assocGet? key old, assocGet? key new) = _
      rw [ha, hnone]
termination_by sizeOf new

def writeAt (s : State) (w : List String × Json) : State := setPath w.1 w.2 s

def removeAt (s : State) (p : List String) : State := delPath p s

def applyChanges (state : State) (c : List (List String × Json) × List (List String)) : State :=
  c.2.foldl removeAt (c.1.foldl writeAt state)

structure ChangedAt (k : String) (v : Option Json) (s s' : State) : Prop where
  here : assocGet? k s' = v
  elsewhere : ∀ j, j ≠ k → assocGet? j s' = assocGet? j s
  nodup : (s.map Prod.fst).Nodup → (s'.map Prod.fst).Nodup

theorem changedAt_assocSet (k : String) (v : Json) (s : State) :
    ChangedAt k (some v) s (assocSet k v s) where
  here := assocGet?_assocSet_self k v s
  elsewhere _ hj := assocGet?_assocSet_of_ne hj v s
  nodup hn := nodup_assocSet hn

theorem ChangedAt.trans {v w : Option Json} {s' s'' : State}
    (h : ChangedAt k v s s') (h' : ChangedAt k w s' s'') : ChangedAt k w s s'' where
  here := h'.here
  elsewhere j hj := (h'.elsewhere j hj).trans (h.elsewhere j hj)
  nodup hn := h'.nodup (h.nodup hn)

theorem setPath_under (k : String) {ks : List String} (hne : ks ≠ []) (v : Json) (s : State) :
    setPath (k :: ks) v s = assocSet k (.dict (setPath ks v (childState k s))) s := by
  cases ks with
  | nil => exact absurd rfl hne
  | cons k' ks => rfl

theorem delPath_under {ks : List String} (hne : ks ≠ []) {c : State}
    (hc : assocGet? k s = some (.dict c)) :
    delPath (k :: ks) s = assocSet k (.dict (delPath ks c)) s := by
  cases ks with
  | nil => exact absurd rfl hne
  | cons k' ks => rw [delPath, hc]; exact cons_ne_nil _ _

theorem foldl_writeAt_under {ws : List (List String × Json)}
    (hne : ∀ w ∈ ws, w.1 ≠ []) {c : State} (hc : assocGet? k s = some (.dict c)) :
    ChangedAt k (some (.dict (ws.foldl writeAt c))) s
      ((ws.map fun w => (k :: w.1, w.2)).foldl writeAt s) := by
  induction ws generalizing s c with
  | nil => exact ⟨hc, fun _ _ => rfl, id⟩
  | cons w ws ih =>
    have hone : writeAt s (k :: w.1, w.2) = assocSet k (.dict (writeAt c w)) s := by
      rw [writeAt, setPath_under k (hne w mem_cons_self), childState, hc]
      rfl
    have hset := changedAt_assocSet k (.dict (writeAt c w)) s
    rw [map_cons, foldl_cons, foldl_cons, hone]
    exact hset.trans (ih (fun w hw => hne w (.tail _ hw)) hset.here)

theorem foldl_removeAt_under {ps : List (List String)} (hne : ∀ p ∈ ps, p ≠ [])
    {c : State} (hc : assocGet? k s = some (.dict c)) :
    ChangedAt k (some (.dict (ps.foldl removeAt c))) s ((ps.map (k :: ·)).foldl removeAt s) := by
  induction ps generalizing s c with
  | nil => exact ⟨hc, fun _ _ => rfl, id⟩
  | cons p ps ih =>
    have hone : removeAt s (k :: p) = assocSet k (.dict (removeAt c p)) s :=
      delPath_under (hne p (.head _)) hc
    have hset := changedAt_assocSet k (.dict (removeAt c p)) s
    rw [map_cons, foldl_cons, foldl_cons, hone]
    exact hset.trans (ih (fun p hp => hne p (.tail _ hp)) hset.here)

theorem foldl_assocDelete (ks : List String) (s : State) :
    (∀ j, assocGet? j ((ks.map (snoc [])).foldl removeAt s) =
        if j ∈ ks then none else assocGet? j s) ∧
      ((s.map Prod.fst).Nodup →
        (((ks.map (snoc [])).foldl removeAt s).map Prod.fst).Nodup) := by
  induction ks generalizing s with
  | nil => exact ⟨fun _ => rfl, id⟩
  | cons k ks ih =>
    rw [map_cons, foldl_cons, show removeAt s (snoc [] k) = assocDelete k s from rfl]
    obtain ⟨hget, hnodup⟩ := ih (assocDelete k s)
    refine ⟨fun j => ?_, fun hn => hnodup (nodup_assocDelete hn)⟩
    rw [hget, assocGet?_assocDelete]
    by_cases hj : j ∈ ks
    · rw [if_pos hj, if_pos (mem_cons_of_mem _ hj)]
    · by_cases hk : j = k
      · rw [if_neg hj, if_pos hk, if_pos (by rw [hk]; exact mem_cons_self)]
      · rw [if_neg hj, if_neg hk, if_neg (by simp [hj, hk])]

def written (old : State) (k : String) (v : Json) : Json :=
  match bothDicts (assocGet? k old) v with
  | some (os, ns) => .dict ((diffInto snoc [] os ns).1.foldl writeAt os)
  | none => if keeps (assocGet? k old) v then (assocGet? k old).getD v else v

/-- The value of a key after the writes and the removals. -/
def outcome (old : State) (k : String) (v : Json) : Json :=
  match bothDicts (assocGet? k old) v with
  | some (os, ns) => .dict (applyChanges os (diffInto snoc [] os ns))
  | none => written old k v

theorem write_ne_nil {old : State} (hn : new.Distinct) {w : List String × Json}
    (hw : w ∈ (diffInto snoc [] old new).1) : w.1 ≠ [] := by
  obtain ⟨a, hsides, -⟩ := sides_of_write hn hw
  exact sides_ne_nil hsides

theorem removal_ne_nil {old : State} (hn : new.Distinct) {p : List String}
    (hp : p ∈ (diffInto snoc [] old new).2) : p ≠ [] := by
  obtain ⟨a, hsides⟩ := sides_of_removal hn hp
  exact sides_ne_nil hsides

theorem distinct_of_both {old : State} {v : Json} {os ns : State}
    (hb : bothDicts (assocGet? k old) v = some (os, ns)) (hd : v.Distinct) : State.Distinct ns := by
  obtain ⟨-, rfl⟩ := bothDicts_eq_some hb
  exact hd

theorem writes_at {old : State} {v : Json} (hd : v.Distinct)
    (hs : assocGet? k s = assocGet? k old) : ChangedAt k (some (written old k v)) s
      ((diffValue snoc [] k old v).1.foldl writeAt s) := by
  rw [written]
  cases hb : bothDicts (assocGet? k old) v with
  | some both =>
    obtain ⟨os, ns⟩ := both
    have hos := hs.trans (bothDicts_eq_some hb).1
    rw [diffValue_of_both hb, show snoc [] k = [k] from rfl, diffInto_under]
    exact foldl_writeAt_under (fun w hw => write_ne_nil (distinct_of_both hb hd) hw) hos
  | none =>
    rw [diffValue_of_not hb]
    cases hold : assocGet? k old with
    | none => exact changedAt_assocSet k v s
    | some w =>
      rw [hold] at hs
      cases hkeep : keeps (some w) v with
      | true => exact ⟨hs, fun _ _ => rfl, id⟩
      | false => exact changedAt_assocSet k v s

theorem removals_at {old : State} {v : Json} (hd : v.Distinct)
    (hs : assocGet? k s = some (written old k v)) : ChangedAt k (some (outcome old k v)) s
      ((diffValue snoc [] k old v).2.foldl removeAt s) := by
  rw [outcome]
  cases hb : bothDicts (assocGet? k old) v with
  | some both =>
    obtain ⟨os, ns⟩ := both
    rw [written, hb] at hs
    rw [diffValue_of_both hb, show snoc [] k = [k] from rfl, diffInto_under]
    exact foldl_removeAt_under (fun p hp => removal_ne_nil (distinct_of_both hb hd) hp) hs
  | none =>
    rw [diffValue_of_not hb]
    exact ⟨hs, fun _ _ => rfl, id⟩

structure ChangedAtAll (value : String → Json → Json) (rest s s' : State) : Prop where
  here : ∀ k v, assocGet? k rest = some v → assocGet? k s' = some (value k v)
  elsewhere : ∀ k, assocGet? k rest = none → assocGet? k s' = assocGet? k s
  nodup : (s.map Prod.fst).Nodup → (s'.map Prod.fst).Nodup

theorem ChangedAt.cons {value : String → Json → Json} {k : String} {v : Json}
    {rest s s' s'' : State} (hk : k ∉ rest.map Prod.fst)
    (h : ChangedAt k (some (value k v)) s s') (h' : ChangedAtAll value rest s' s'') :
    ChangedAtAll value ((k, v) :: rest) s s'' where
  here j u hj := by
    rw [assocGet?] at hj
    split at hj
    · next heq =>
      subst heq
      cases hj
      rw [h'.elsewhere _ (assocGet?_eq_none_iff.mpr hk), h.here]
    · exact h'.here j u hj
  elsewhere j hj := by
    rw [assocGet?] at hj
    split at hj
    · cases hj
    · next hne => rw [h'.elsewhere j hj, h.elsewhere j (Ne.symm hne)]
  nodup hn := h'.nodup (h.nodup hn)

theorem writes_at_all {old rest : State} (hn : (rest.map Prod.fst).Nodup)
    (hd : ∀ k v, (k, v) ∈ rest → v.Distinct)
    (hs : ∀ k, k ∈ rest.map Prod.fst → assocGet? k s = assocGet? k old) :
    ChangedAtAll (written old) rest s ((diffEntries snoc [] old rest).1.foldl writeAt s) := by
  induction rest generalizing s with
  | nil =>
    rw [diffEntries]
    exact ⟨fun _ _ h => (by cases h), fun _ _ => rfl, id⟩
  | cons e rest ih =>
    obtain ⟨k, v⟩ := e
    rw [map_cons, nodup_cons] at hn
    rw [diffEntries, foldl_append]
    have hfirst : ChangedAt k _ s _ :=
      writes_at (hd k v (.head _)) (hs k (.head _))
    refine hfirst.cons hn.1 (ih hn.2 (fun k v hmem => hd k v (.tail _ hmem)) ?_)
    intro j hj
    have hne : j ≠ k := by
      rintro rfl
      exact hn.1 hj
    rw [hfirst.elsewhere j hne]
    exact hs j (.tail _ hj)

theorem removals_at_all {old rest : State} (hn : (rest.map Prod.fst).Nodup)
    (hd : ∀ k v, (k, v) ∈ rest → v.Distinct)
    (hs : ∀ k v, assocGet? k rest = some v → assocGet? k s = some (written old k v)) :
    ChangedAtAll (outcome old) rest s ((diffEntries snoc [] old rest).2.foldl removeAt s) := by
  induction rest generalizing s with
  | nil =>
    rw [diffEntries]
    exact ⟨fun _ _ h => (by cases h), fun _ _ => rfl, id⟩
  | cons e rest ih =>
    obtain ⟨k, v⟩ := e
    rw [map_cons, nodup_cons] at hn
    rw [diffEntries, foldl_append]
    have hfirst : ChangedAt k _ s _ := removals_at (hd k v (.head _))
      (hs k v (by rw [assocGet?, if_pos rfl]))
    refine hfirst.cons hn.1 (ih hn.2 (fun k v hmem => hd k v (.tail _ hmem)) ?_)
    intro j u hj
    have hne : j ≠ k := by
      rintro rfl
      rw [assocGet?_eq_none_iff.mpr hn.1] at hj
      cases hj
    rw [hfirst.elsewhere j hne]
    exact hs j u (by rw [assocGet?, if_neg (Ne.symm hne)]; exact hj)

theorem applyChanges_spec {old new : State} (hn : new.Distinct) :
    (∀ k v, assocGet? k new = some v → assocGet? k
        (applyChanges old (diffInto snoc [] old new)) = some (outcome old k v)) ∧
      (∀ k, assocGet? k new = none →
        assocGet? k (applyChanges old (diffInto snoc [] old new)) = none) ∧
      ((old.map Prod.fst).Nodup →
        ((applyChanges old (diffInto snoc [] old new)).map Prod.fst).Nodup) := by
  have hd : ∀ k v, (k, v) ∈ new → v.Distinct :=
    fun k v hmem => hn.value (assocGet?_of_mem hn.nodup hmem)
  have hwrites : ChangedAtAll (written old) new old
      ((diffEntries snoc [] old new).1.foldl writeAt old) :=
    writes_at_all hn.nodup hd fun _ _ => rfl
  have hremovals := removals_at_all hn.nodup hd hwrites.here
  rw [applyChanges, diffInto, foldl_append]
  obtain ⟨hget, hnodup⟩ := foldl_assocDelete
    ((old.map Prod.fst).filter (· ∉ new.map Prod.fst))
    ((diffEntries snoc [] old new).2.foldl removeAt
      ((diffEntries snoc [] old new).1.foldl writeAt old))
  refine ⟨fun k v hk => ?_, fun k hk => ?_, fun h => hnodup (hremovals.nodup (hwrites.nodup h))⟩
  · rw [hget, if_neg, hremovals.here k v hk]
    intro hmem
    have hnot := of_decide_eq_true (mem_filter.mp hmem).2
    rw [assocGet?_eq_none_iff.mpr hnot] at hk
    cases hk
  · rw [hget]
    by_cases hmem : k ∈ (old.map Prod.fst).filter (· ∉ new.map Prod.fst)
    · rw [if_pos hmem]
    · rw [if_neg hmem, hremovals.elsewhere k hk, hwrites.elsewhere k hk]
      apply assocGet?_eq_none_iff.mpr
      intro hold
      exact hmem (mem_filter.mpr ⟨hold, decide_eq_true (assocGet?_eq_none_iff.mp hk)⟩)

/-- Nothing was left out that is not the same. -/
def LeafExact (old new : State) : Prop :=
  ∀ address a b, sides old new address = some (some a, some b) → bothDicts (some a) b = none →
    a.pyEq b = true → a.same b = true

theorem applyChanges_same {old new : State} (ho : old.Distinct) (hn : new.Distinct)
    (hleaf : LeafExact old new) :
    (applyChanges old (diffInto snoc [] old new)).same new = true := by
  obtain ⟨hvalue, hnone, hnodup⟩ := @applyChanges_spec old new hn
  refine State.same_of_lookups (hnodup ho.nodup) hn.nodup (fun k v hv => ?_) hnone
  refine ⟨_, hvalue k v hv, ?_⟩
  rw [outcome]
  cases hb : bothDicts (assocGet? k old) v with
  | some both =>
    obtain ⟨os, ns⟩ := both
    obtain ⟨hold, rfl⟩ := bothDicts_eq_some hb
    have hsize := sizeOf_lt_of_both hb (mem_of_assocGet? hv)
    refine applyChanges_same (ho.value hold) (hn.value hv) fun address a b hsides => ?_
    exact hleaf (k :: address) a b ((sides_cons hv hb (sides_ne_nil hsides)).trans hsides)
  | none =>
    rw [written, hb]
    cases hold : assocGet? k old with
    | none => exact v.same_refl (hn.value hv)
    | some w =>
      show (if keeps (some w) v = true then w else v).same v = true
      by_cases hkeep : keeps (some w) v = true
      · rw [if_pos hkeep]
        rw [hold] at hb
        refine hleaf [k] w v ?_ hb hkeep
        show some (assocGet? k old, assocGet? k new) = _
        rw [hold, hv]
      · rw [if_neg hkeep]
        exact v.same_refl (hn.value hv)
termination_by sizeOf new

theorem nodup_writes {old new : State} (hn : new.Distinct) :
    ((diffInto snoc [] old new).1.map Prod.fst).Nodup := by
  have hblock : ∀ k v, (k, v) ∈ new → ((diffValue snoc [] k old v).1.map Prod.fst).Nodup ∧
      ∀ w ∈ (diffValue snoc [] k old v).1, w.1.head? = some k := by
    intro k v hmem
    cases hb : bothDicts (assocGet? k old) v with
    | none =>
      rw [diffValue_of_not hb]
      split
      · exact ⟨nodup_nil, fun w hw => (by cases hw)⟩
      · refine ⟨nodup_singleton _, fun w hw => ?_⟩
        rw [mem_singleton.mp hw]
        rfl
    | some both =>
      obtain ⟨os, ns⟩ := both
      have hsize := sizeOf_lt_of_both hb hmem
      have hns := distinct_of_both hb (hn.value (assocGet?_of_mem hn.nodup hmem))
      have ih : ((diffInto snoc [] os ns).1.map Prod.fst).Nodup := nodup_writes hns
      rw [diffValue_of_both hb, show snoc [] k = [k] from rfl, diffInto_under]
      constructor
      · rw [mapChanges, map_map, show Prod.fst ∘ (fun w : List String × Json =>
          (k :: w.1, w.2)) = (k :: ·) ∘ Prod.fst from rfl, ← map_map]
        exact ih.map fun _ _ h => (List.cons.inj h).2
      · intro w hw
        obtain ⟨w', -, rfl⟩ := mem_map.mp hw
        rfl
  have hkeys := hn.nodup
  rw [diffInto]
  clear hn
  induction new with
  | nil =>
    rw [diffEntries]
    exact nodup_nil
  | cons e rest ih =>
    obtain ⟨k, v⟩ := e
    rw [map_cons, nodup_cons] at hkeys
    have hrest := ih (fun k v hmem => hblock k v (.tail _ hmem)) hkeys.2
    rw [diffEntries, map_append, nodup_append]
    refine ⟨(hblock k v (.head _)).1, hrest, ?_⟩
    rintro a ha b hb rfl
    obtain ⟨w, hw, rfl⟩ := mem_map.mp ha
    obtain ⟨w', hw', heq⟩ := mem_map.mp hb
    obtain ⟨k', v', hmem, hw'⟩ := mem_diffEntries.1 w' |>.mp hw'
    have hhead := (hblock k v (.head _)).2 w hw
    have hhead' := (hblock k' v' (.tail _ hmem)).2 w' hw'
    rw [heq, hhead] at hhead'
    apply hkeys.1
    rw [Option.some.inj hhead']
    exact mem_map.mpr ⟨_, hmem, rfl⟩
termination_by sizeOf new

theorem joinAll_inj {p q : List String} (hp : Faithful p) (hq : Faithful q)
    (h : joinAll p = joinAll q) : p = q := by
  rw [← hp, ← hq, h]

theorem applyState_diffState {old : State} (hn : new.Distinct)
    (hwrites : ∀ w ∈ (diffInto snoc [] old new).1, Faithful w.1)
    (hremovals : ∀ p ∈ (diffInto snoc [] old new).2, Faithful p) :
    applyState old (diffState old new) = applyChanges old (diffInto snoc [] old new) := by
  have htexts : (((diffInto snoc [] old new).1.map fun w => (joinAll w.1, w.2)).map
      Prod.fst).Nodup := by
    rw [map_map, show Prod.fst ∘ (fun w : List String × Json => (joinAll w.1, w.2)) =
      joinAll ∘ Prod.fst from rfl, ← map_map]
    refine (nodup_writes hn).map_on fun p hp q hq heq => ?_
    obtain ⟨w, hw, rfl⟩ := mem_map.mp hp
    obtain ⟨w', hw', rfl⟩ := mem_map.mp hq
    exact joinAll_inj (hwrites w hw) (hwrites w' hw') heq
  rw [applyState, diffState, diffInto_joinPath, mapChanges, assocOfWrites_of_nodup htexts,
    foldl_map, foldl_map, applyChanges]
  have hone : ∀ s, ∀ w ∈ (diffInto snoc [] old new).1,
      setPath (splitPath (joinAll w.1)) w.2 s = writeAt s w := by
    intro s w hw
    rw [hwrites w hw]
    rfl
  have hdel : ∀ s, ∀ p ∈ (diffInto snoc [] old new).2,
      delPath (splitPath (joinAll p)) s = removeAt s p := by
    intro s p hp
    rw [hremovals p hp]
    rfl
  rw [foldl_ext _ _ _ hone, foldl_ext _ _ _ hdel]

theorem carried_iff {address : List String} {a v : Json} (hnot : bothDicts (some a) v = none) :
    Carried address (some a) (some v) ↔
      if a.pyEq v then a.same v = true else Faithful address := by
  rw [Carried.eq_def]
  split
  · next h _ => cases h
  · next h₁ h₂ =>
    rw [h₁, Option.some.inj h₂] at hnot
    cases hnot
  · next h₁ h₂ => rw [Option.some.inj h₁, Option.some.inj h₂]
  · next hnone => exact absurd rfl (hnone a v rfl)

theorem applyState_same {old : State} (ho : old.Distinct) (hn : new.Distinct)
    (h : Carries old new) : (applyState old (diffState old new)).same new = true := by
  have hwrites : ∀ w ∈ (diffInto snoc [] old new).1, Faithful w.1 := by
    intro w hw
    obtain ⟨a, hsides, hnot, hkeep⟩ := sides_of_write hn hw
    have hcarried := h _ _ _ hsides
    cases a with
    | none => exact hcarried
    | some a =>
      rw [carried_iff hnot, if_neg] at hcarried
      · exact hcarried
      · exact fun h => Bool.false_ne_true (hkeep.symm.trans h)
  have hremovals : ∀ p ∈ (diffInto snoc [] old new).2, Faithful p := by
    intro p hp
    obtain ⟨a, hsides⟩ := sides_of_removal hn hp
    have hcarried := h _ _ _ hsides
    cases a <;> exact hcarried
  rw [applyState_diffState hn hwrites hremovals]
  refine applyChanges_same ho hn fun address a b hsides hnot heq => ?_
  have hcarried := h _ _ _ hsides
  rwa [carried_iff hnot, if_pos heq] at hcarried

/-- A key with a dot is taken apart. -/
theorem dotted_key_lost : ¬ ∀ old new : State, old.Distinct → new.Distinct →
    (applyState old (diffState old new)).same new = true := by
  intro h
  have hdistinct : State.Distinct [("a.b", .num 1)] := by
    simp [State.Distinct, Json.Distinct, Json.DistinctEntries]
  have hempty : State.Distinct [] := by
    simp [State.Distinct, Json.Distinct, Json.DistinctEntries]
  exact absurd (h [] [("a.b", .num 1)] hempty hdistinct) (by decide)

theorem carries_plain_key : Carries [] [("a", .null)] := by
  intro address a b hsides
  match address with
  | [] => cases hsides
  | [k] =>
    cases hsides
    by_cases hk : "a" = k
    · subst hk
      show Faithful ["a"]
      decide
    · rw [assocGet?, assocGet?, if_neg hk]
      exact trivial
  | k :: k' :: ks =>
    have hboth : ∀ v, assocGet? k [("a", Json.null)] = some v →
        bothDicts (assocGet? k []) v = none := fun _ _ => rfl
    rw [sides] at hsides
    · cases hv : assocGet? k [("a", Json.null)] with
      | none =>
        rw [hv] at hsides
        cases hsides
      | some v =>
        rw [hv, Option.bind_some, hboth v hv] at hsides
        cases hsides
    · exact cons_ne_nil _ _

end JiuwenSpec.Vcs

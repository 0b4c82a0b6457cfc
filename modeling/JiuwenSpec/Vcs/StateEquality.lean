import JiuwenSpec.Vcs.StateRoundTrip

/-!
# States that are the same

Strict equality of states is symmetric and transitive, and the application of a difference does
not tell states apart that are the same: it may start from either.
-/

namespace JiuwenSpec.Vcs

open Base List

theorem distinctEntries_iff {es : State} :
    Json.DistinctEntries es ↔ ∀ e ∈ es, e.2.Distinct := by
  induction es with
  | nil => simp [Json.DistinctEntries]
  | cons e es ih =>
    obtain ⟨k, v⟩ := e
    rw [Json.DistinctEntries, ih, forall_mem_cons]

theorem distinctList_iff {xs : List Json} : Json.DistinctList xs ↔ ∀ x ∈ xs, x.Distinct := by
  induction xs with
  | nil => simp [Json.DistinctList]
  | cons x xs ih => rw [Json.DistinctList, ih, forall_mem_cons]

variable {s : State}

theorem State.distinct_iff : s.Distinct ↔
    (s.map Prod.fst).Nodup ∧ ∀ k v, assocGet? k s = some v → v.Distinct := by
  constructor
  · intro h
    exact ⟨h.nodup, fun k v hv => h.value hv⟩
  · rintro ⟨hn, hv⟩
    rw [State.Distinct, Json.Distinct, distinctEntries_iff]
    exact ⟨hn, fun e he => hv e.1 e.2 (assocGet?_of_mem hn he)⟩

structure Json.Alike (a b : Json) : Prop where
  left : a.Distinct
  right : b.Distinct
  same : a.same b = true

theorem same_dict_iff {es fs : State} (he : (es.map Prod.fst).Nodup)
    (hf : (fs.map Prod.fst).Nodup) : (Json.dict es).eqv true (.dict fs) = true ↔
      ∀ k, Option.Rel (fun a b : Json ↦ a.eqv true b = true) (assocGet? k es) (assocGet? k fs) := by
  rw [Json.eqv, Bool.and_eq_true, eqvEntries_iff, all_eq_true]
  constructor
  · rintro ⟨hvalues, hkeys⟩ k
    cases hv : assocGet? k es with
    | some v =>
      obtain ⟨w, hw, hsame⟩ := hvalues k v (mem_of_assocGet? hv)
      rw [hw]
      exact .some hsame
    | none =>
      cases hw : assocGet? k fs with
      | none => exact .none
      | some w =>
        have hsome := hkeys (k, w) (mem_of_assocGet? hw)
        rw [hv] at hsome
        cases hsome
  · intro h
    constructor
    · intro k v hmem
      have hk := h k
      rw [assocGet?_of_mem he hmem] at hk
      cases hw : assocGet? k fs with
      | none =>
        rw [hw] at hk
        cases hk
      | some w =>
        rw [hw] at hk
        cases hk with
        | some hsame => exact ⟨w, rfl, hsame⟩
    · intro e hmem
      have hk := h e.1
      rw [assocGet?_of_mem hf hmem] at hk
      cases hv : assocGet? e.1 es with
      | none =>
        rw [hv] at hk
        cases hk
      | some v => rfl

theorem sizeOf_lt_dict {es : State} {k : String} {v : Json} (h : assocGet? k es = some v) :
    sizeOf v < 1 + sizeOf es := by
  have hmem := sizeOf_lt_of_mem (mem_of_assocGet? h)
  simp only [Prod.mk.sizeOf_spec] at hmem
  omega

mutual

theorem Json.same_symm {a b : Json} (ha : a.Distinct) (hb : b.Distinct)
    (h : a.eqv true b = true) : b.eqv true a = true := by
  match a, b with
  | .dict es, .dict fs =>
    have he := State.Distinct.nodup (s := es) ha
    have hf := State.Distinct.nodup (s := fs) hb
    rw [same_dict_iff he hf] at h
    rw [same_dict_iff hf he]
    intro k
    have hk := h k
    cases hv : assocGet? k es with
    | none =>
      cases hw : assocGet? k fs with
      | none => exact .none
      | some w =>
        rw [hv, hw] at hk
        cases hk
    | some v =>
      cases hw : assocGet? k fs with
      | none =>
        rw [hv, hw] at hk
        cases hk
      | some w =>
        rw [hv, hw] at hk
        cases hk with
        | some hsame =>
          have hsize := sizeOf_lt_dict hv
          exact .some (Json.same_symm (State.Distinct.value (s := es) ha hv)
            (State.Distinct.value (s := fs) hb hw) hsame)
  | .list xs, .list ys =>
    rw [Json.eqv] at h ⊢
    rw [Json.Distinct] at ha hb
    exact Json.sameList_symm ha hb h
  | .null, .null => exact h
  | .bool _, .bool _ => simpa [Json.eqv, eq_comm] using h
  | .num _, .num _ => simpa [Json.eqv, eq_comm] using h
  | .str _, .str _ => simpa [Json.eqv, eq_comm] using h
termination_by sizeOf a

theorem Json.sameList_symm {xs ys : List Json} (hx : Json.DistinctList xs)
    (hy : Json.DistinctList ys) (h : Json.eqvList true xs ys = true) :
    Json.eqvList true ys xs = true := by
  match xs, ys with
  | [], [] => exact h
  | x :: xs, y :: ys =>
    rw [Json.DistinctList] at hx hy
    rw [Json.eqvList, Bool.and_eq_true] at h ⊢
    exact ⟨Json.same_symm hx.1 hy.1 h.1, Json.sameList_symm hx.2 hy.2 h.2⟩
termination_by sizeOf xs

end

mutual

theorem Json.same_trans {a b c : Json} (ha : a.Distinct) (hb : b.Distinct) (hc : c.Distinct)
    (hab : a.eqv true b = true) (hbc : b.eqv true c = true) : a.eqv true c = true := by
  match a, b, c with
  | .dict es, .dict fs, .dict gs =>
    have he := State.Distinct.nodup (s := es) ha
    have hf := State.Distinct.nodup (s := fs) hb
    have hg := State.Distinct.nodup (s := gs) hc
    rw [same_dict_iff he hf] at hab
    rw [same_dict_iff hf hg] at hbc
    rw [same_dict_iff he hg]
    intro k
    have hef := hab k
    have hfg := hbc k
    cases hv : assocGet? k es with
    | none =>
      rw [hv] at hef
      cases hw : assocGet? k fs with
      | none =>
        rw [hw] at hfg
        exact hfg
      | some w =>
        rw [hw] at hef
        cases hef
    | some v =>
      rw [hv] at hef
      cases hw : assocGet? k fs with
      | none =>
        rw [hw] at hef
        cases hef
      | some w =>
        rw [hw] at hef hfg
        cases hef with
        | some hvw =>
          cases hu : assocGet? k gs with
          | none =>
            rw [hu] at hfg
            cases hfg
          | some u =>
            rw [hu] at hfg
            cases hfg with
            | some hwu =>
              have hsize := sizeOf_lt_dict hv
              exact .some (Json.same_trans (State.Distinct.value (s := es) ha hv)
                (State.Distinct.value (s := fs) hb hw) (State.Distinct.value (s := gs) hc hu)
                hvw hwu)
  | .list xs, .list ys, .list zs =>
    rw [Json.eqv] at hab hbc ⊢
    rw [Json.Distinct] at ha hb hc
    exact Json.sameList_trans ha hb hc hab hbc
  | .null, .null, .null => exact hab
  | .bool _, .bool _, .bool _ =>
    simp only [Json.eqv, decide_eq_true_eq] at hab hbc ⊢
    exact hab.trans hbc
  | .num _, .num _, .num _ =>
    simp only [Json.eqv, decide_eq_true_eq] at hab hbc ⊢
    exact hab.trans hbc
  | .str _, .str _, .str _ =>
    simp only [Json.eqv, decide_eq_true_eq] at hab hbc ⊢
    exact hab.trans hbc
termination_by sizeOf a

theorem Json.sameList_trans {xs ys zs : List Json} (hx : Json.DistinctList xs)
    (hy : Json.DistinctList ys) (hz : Json.DistinctList zs)
    (hxy : Json.eqvList true xs ys = true) (hyz : Json.eqvList true ys zs = true) :
    Json.eqvList true xs zs = true := by
  match xs, ys, zs with
  | [], [], [] => exact hxy
  | x :: xs, y :: ys, z :: zs =>
    rw [Json.DistinctList] at hx hy hz
    rw [Json.eqvList, Bool.and_eq_true] at hxy hyz ⊢
    exact ⟨Json.same_trans hx.1 hy.1 hz.1 hxy.1 hyz.1,
      Json.sameList_trans hx.2 hy.2 hz.2 hxy.2 hyz.2⟩
termination_by sizeOf xs

end

namespace Json.Alike

theorem refl {a : Json} (h : a.Distinct) : a.Alike a := ⟨h, h, a.same_refl h⟩

theorem symm {a b : Json} (h : a.Alike b) : b.Alike a :=
  ⟨h.right, h.left, Json.same_symm h.left h.right h.same⟩

theorem trans {a b c : Json} (hab : a.Alike b) (hbc : b.Alike c) : a.Alike c :=
  ⟨hab.left, hbc.right, Json.same_trans hab.left hab.right hbc.right hab.same hbc.same⟩

end Json.Alike

def State.Alike (s s' : State) : Prop := (Json.dict s).Alike (.dict s')

theorem rel_some {R : Json → Json → Prop} {a : Json} {y : Option Json}
    (h : Option.Rel R (some a) y) : ∃ b, y = some b ∧ R a b := by
  cases h with
  | some h => exact ⟨_, rfl, h⟩

theorem rel_some_right {R : Json → Json → Prop} {b : Json} {x : Option Json}
    (h : Option.Rel R x (some b)) : ∃ a, x = some a ∧ R a b := by
  cases h with
  | some h => exact ⟨_, rfl, h⟩

variable {s' : State}

theorem State.alike_iff : s.Alike s' ↔ (s.map Prod.fst).Nodup ∧ (s'.map Prod.fst).Nodup ∧
      ∀ k, Option.Rel Json.Alike (assocGet? k s) (assocGet? k s') := by
  constructor
  · rintro ⟨hs, hs', hsame⟩
    have hn := State.Distinct.nodup (s := s) hs
    have hn' := State.Distinct.nodup (s := s') hs'
    refine ⟨hn, hn', fun k => ?_⟩
    have hk := (same_dict_iff hn hn').mp hsame k
    cases hv : assocGet? k s with
    | none =>
      cases hw : assocGet? k s' with
      | none => exact .none
      | some w =>
        rw [hv, hw] at hk
        cases hk
    | some v =>
      cases hw : assocGet? k s' with
      | none =>
        rw [hv, hw] at hk
        cases hk
      | some w =>
        rw [hv, hw] at hk
        cases hk with
        | some h =>
          exact .some ⟨State.Distinct.value (s := s) hs hv,
            State.Distinct.value (s := s') hs' hw, h⟩
  · rintro ⟨hn, hn', hkeys⟩
    refine ⟨State.distinct_iff.mpr ⟨hn, fun k v hv => ?_⟩,
      State.distinct_iff.mpr ⟨hn', fun k v hv => ?_⟩, (same_dict_iff hn hn').mpr fun k => ?_⟩
    · obtain ⟨w, -, hvw⟩ := rel_some (hv ▸ hkeys k)
      exact hvw.left
    · obtain ⟨w, -, hwv⟩ := rel_some_right (hv ▸ hkeys k)
      exact hwv.right
    · have hk := hkeys k
      generalize assocGet? k s = a, assocGet? k s' = b at hk
      cases hk with
      | some h => exact .some h.same
      | none => exact .none

theorem State.Alike.keys (h : s.Alike s') (k : String) :
    Option.Rel Json.Alike (assocGet? k s) (assocGet? k s') := (State.alike_iff.mp h).2.2 k

mutual

theorem Json.pyEq_of_same {a b : Json} (h : a.eqv true b = true) : a.eqv false b = true := by
  match a, b with
  | .dict es, .dict fs =>
    rw [Json.eqv, Bool.and_eq_true] at h ⊢
    exact ⟨Json.pyEqEntries_of_same h.1, h.2⟩
  | .list xs, .list ys =>
    rw [Json.eqv] at h ⊢
    exact Json.pyEqList_of_same h
  | .null, .null => exact h
  | .bool _, .bool _ => simpa [Json.eqv] using h
  | .num _, .num _ => simpa [Json.eqv] using h
  | .str _, .str _ => simpa [Json.eqv] using h

theorem Json.pyEqList_of_same {xs ys : List Json} (h : Json.eqvList true xs ys = true) :
    Json.eqvList false xs ys = true := by
  match xs, ys with
  | x :: xs, y :: ys =>
    rw [Json.eqvList, Bool.and_eq_true] at h ⊢
    exact ⟨Json.pyEq_of_same h.1, Json.pyEqList_of_same h.2⟩
  | [], [] => exact h

theorem Json.pyEqEntries_of_same {es fs : List (String × Json)}
    (h : Json.eqvEntries true es fs = true) : Json.eqvEntries false es fs = true := by
  match es with
  | [] => exact h
  | (k, v) :: es =>
    rw [Json.eqvEntries, Bool.and_eq_true] at h ⊢
    refine ⟨?_, Json.pyEqEntries_of_same h.2⟩
    cases hw : assocGet? k fs with
    | none =>
      rw [hw] at h
      exact h.1
    | some w =>
      rw [hw] at h
      exact Json.pyEq_of_same h.1

end

theorem alike_assocSet (h : s.Alike s') {v w : Json} (hvw : v.Alike w)
    (key : String) : State.Alike (assocSet key v s) (assocSet key w s') := by
  obtain ⟨hn, hn', hkeys⟩ := State.alike_iff.mp h
  refine State.alike_iff.mpr ⟨nodup_assocSet hn, nodup_assocSet hn', fun k => ?_⟩
  rw [assocGet?_assocSet, assocGet?_assocSet]
  split
  · exact .some hvw
  · exact hkeys k

theorem alike_assocDelete (h : s.Alike s') (key : String) :
    State.Alike (assocDelete key s) (assocDelete key s') := by
  obtain ⟨hn, hn', hkeys⟩ := State.alike_iff.mp h
  refine State.alike_iff.mpr ⟨nodup_assocDelete hn, nodup_assocDelete hn', fun k => ?_⟩
  rw [assocGet?_assocDelete, assocGet?_assocDelete]
  split
  · exact .none
  · exact hkeys k

theorem Json.Alike.dict_right {a : Json} {es : State} (h : a.Alike (.dict es)) :
    ∃ fs, a = .dict fs ∧ State.Alike fs es := by
  have hsame := h.same
  cases a with
  | dict fs => exact ⟨fs, rfl, h⟩
  | null => simp [Json.same, Json.eqv] at hsame
  | bool b => simp [Json.same, Json.eqv] at hsame
  | num q => simp [Json.same, Json.eqv] at hsame
  | str t => simp [Json.same, Json.eqv] at hsame
  | list xs => simp [Json.same, Json.eqv] at hsame

theorem alike_nil : State.Alike [] [] :=
  Json.Alike.refl (by simp [Json.Distinct, Json.DistinctEntries])

theorem State.Alike.child (h : s.Alike s') (key : String) :
    (∃ c c', assocGet? key s = some (.dict c) ∧ assocGet? key s' = some (.dict c') ∧
      State.Alike c c') ∨
    ((∀ c, assocGet? key s ≠ some (.dict c)) ∧ ∀ c, assocGet? key s' ≠ some (.dict c)) := by
  have hkey := h.keys key
  cases hv : assocGet? key s with
  | none =>
    rw [hv] at hkey
    cases hw : assocGet? key s' with
    | none => exact .inr ⟨fun _ h => (by cases h), fun _ h => (by cases h)⟩
    | some w =>
      rw [hw] at hkey
      cases hkey
  | some v =>
    rw [hv] at hkey
    cases hw : assocGet? key s' with
    | none =>
      rw [hw] at hkey
      cases hkey
    | some w =>
      rw [hw] at hkey
      cases hkey with
      | some hvw =>
        by_cases hdict : ∃ c', w = .dict c'
        · obtain ⟨c', rfl⟩ := hdict
          obtain ⟨c, rfl, hc⟩ := hvw.dict_right
          exact .inl ⟨c, c', rfl, rfl, hc⟩
        · refine .inr ⟨fun c hc => ?_, fun c hc => hdict ⟨c, Option.some.inj hc⟩⟩
          rw [Option.some.inj hc] at hvw
          obtain ⟨c', hc', -⟩ := hvw.symm.dict_right
          exact hdict ⟨c', hc'⟩

theorem State.Alike.childState (h : s.Alike s') (key : String) :
    State.Alike (childState key s) (childState key s') := by
  rcases h.child key with ⟨c, c', hv, hw, hc⟩ | ⟨hv, hw⟩
  · rw [Vcs.childState, Vcs.childState, hv, hw]
    exact hc
  · have hnil : ∀ t : State, (∀ c, assocGet? key t ≠ some (.dict c)) →
        Vcs.childState key t = [] := by
      intro t ht
      rw [Vcs.childState]
      split
      · next c hc => exact absurd hc (ht c)
      · rfl
    rw [hnil s hv, hnil s' hw]
    exact alike_nil

theorem alike_setPath {keys : List String} {v : Json} (hv : v.Distinct)
    (h : s.Alike s') : State.Alike (setPath keys v s) (setPath keys v s') := by
  induction keys generalizing s s' with
  | nil => exact h
  | cons key keys ih =>
    cases keys with
    | nil => exact alike_assocSet h (.refl hv) key
    | cons key' keys => exact alike_assocSet h (ih (h.childState key)) key

theorem alike_delPath {keys : List String} (h : s.Alike s') :
    State.Alike (delPath keys s) (delPath keys s') := by
  induction keys generalizing s s' with
  | nil => exact h
  | cons key keys ih =>
    cases keys with
    | nil => exact alike_assocDelete h key
    | cons key' keys =>
      rcases h.child key with ⟨c, c', hv, hw, hc⟩ | ⟨hv, hw⟩
      · rw [delPath, delPath, hv, hw]
        · exact alike_assocSet h (ih hc) key
        · intro heq
          cases heq
        · intro heq
          cases heq
      · have hself : ∀ t : State, (∀ c, assocGet? key t ≠ some (.dict c)) →
            delPath (key :: key' :: keys) t = t := by
          intro t ht
          rw [delPath]
          · split
            · next c hc => exact absurd hc (ht c)
            · rfl
          · intro heq
            cases heq
        rw [hself s hv, hself s' hw]
        exact h

theorem alike_applyState {delta : StateDelta} (hset : ∀ w ∈ delta.set, w.2.Distinct)
    (h : s.Alike s') : State.Alike (applyState s delta) (applyState s' delta) := by
  have hwrites : ∀ (ws : List (String × Json)), (∀ w ∈ ws, w.2.Distinct) → ∀ s s' : State,
      s.Alike s' → State.Alike (ws.foldl (fun s w => setPath (splitPath w.1) w.2 s) s)
        (ws.foldl (fun s w => setPath (splitPath w.1) w.2 s) s') := by
    intro ws
    induction ws with
    | nil => exact fun _ _ _ h => h
    | cons w ws ih =>
      intro hw s s' h
      exact ih (fun w' hw' => hw w' (.tail _ hw')) _ _
        (alike_setPath (hw w (.head _)) h)
  have hremovals : ∀ (paths : List String) (s s' : State), s.Alike s' →
      State.Alike (paths.foldl (fun s path => delPath (splitPath path) s) s)
        (paths.foldl (fun s path => delPath (splitPath path) s) s') := by
    intro paths
    induction paths with
    | nil => exact fun _ _ h => h
    | cons path paths ih => exact fun s s' h => ih _ _ (alike_delPath h)
  exact hremovals _ _ _ (hwrites _ hset _ _ h)

theorem distinct_of_sides {old new : State} (hn : new.Distinct) {address : List String}
    {a : Option Json} {v : Json} (h : sides old new address = some (a, some v)) : v.Distinct := by
  induction address generalizing old new with
  | nil => cases h
  | cons key keys ih =>
    by_cases hkeys : keys = []
    · subst hkeys
      exact hn.value (Prod.mk.inj (Option.some.inj h)).2
    · obtain ⟨os, ns, -, hnew, hrest⟩ := sides_under hkeys h
      exact ih (hn.value hnew) hrest

theorem distinct_diffState {old new : State} (hn : new.Distinct) :
    ∀ w ∈ (diffState old new).set, w.2.Distinct := by
  have hvalue : ∀ w ∈ (diffInto snoc [] old new).1, w.2.Distinct := by
    intro w hw
    obtain ⟨a, hsides, -, -⟩ := sides_of_write hn hw
    exact distinct_of_sides hn hsides
  intro w hw
  rw [diffState, diffInto_joinPath] at hw
  obtain ⟨w', hw', rfl⟩ := mem_map.mp (mem_of_mem_assocOfWrites hw)
  exact hvalue w' hw'

end JiuwenSpec.Vcs

import JiuwenSpec.Vcs.StatePositions

/-!
# The states a difference leads to

A difference leads to the new state only if every path it holds splits into the keys of its
address and nothing is left out that is not the same. A value that was set elsewhere can only be
found at its address within another value, which was set elsewhere too: the positions of such
values in the new state would become longer without end.
-/

namespace JiuwenSpec.Vcs

open Base List Option

variable {p : List String}

theorem valueAt_of_sides {old new : State} {a b : Option Json} (h : sides old new p = some (a, b)) :
    valueAt p (.dict old) = a ∧ valueAt p (.dict new) = b := by
  induction p generalizing old new with
  | nil => cases h
  | cons k p ih =>
    by_cases hp : p = []
    · subst hp
      cases h
      exact ⟨valueAt_key k old, valueAt_key k new⟩
    · obtain ⟨os, ns, hold, hnew, hrest⟩ := sides_under hp h
      rw [valueAt_cons_dict, valueAt_cons_dict, hold, hnew, bind_some, bind_some]
      exact ih hrest

theorem dicts_above {old new : State} {q r : List String} (hr : r ≠ [])
    {ab : Option Json × Option Json} (h : sides old new (q ++ r) = some ab) :
    ∃ os ns, valueAt q (.dict old) = some (.dict os) ∧
      valueAt q (.dict new) = some (.dict ns) := by
  induction q generalizing old new with
  | nil => exact ⟨old, new, rfl, rfl⟩
  | cons k q ih =>
    obtain ⟨os, ns, hold, hnew, hrest⟩ := sides_under (by simp [hr]) h
    rw [valueAt_cons_dict, valueAt_cons_dict, hold, hnew]
    exact ih hrest

/-- A difference goes no further than the address. -/
def Ends (old new : State) (p : List String) : Prop :=
  ∃ a b, sides old new p = some (a, b) ∧ ∀ os ns, a = some (.dict os) → b ≠ some (.dict ns)

theorem Ends.eq_of_above {old new : State} {q : List String} (hp : Ends old new p)
    (hq : Ends old new q) (h : p <+: q) : p = q := by
  obtain ⟨r, rfl⟩ := h
  obtain ⟨a, b, hsides, hnot⟩ := hp
  obtain ⟨c, d, hsides', -⟩ := hq
  by_contra hne
  have hr : r ≠ [] := by
    rintro rfl
    exact hne (append_nil p).symm
  obtain ⟨os, ns, hold, hnew⟩ := dicts_above hr hsides'
  obtain ⟨ha, hb⟩ := valueAt_of_sides hsides
  exact hnot os ns (ha.symm.trans hold) (hb.symm.trans hnew)

variable {v : Json}

theorem ends_of_not {old new : State} {a : Option Json}
    (h : sides old new p = some (a, some v)) (hnot : bothDicts a v = none) : Ends old new p := by
  refine ⟨a, some v, h, fun os ns ha hv => ?_⟩
  rw [ha, some.inj hv] at hnot
  cases hnot

theorem ends_of_write {old new : State} (hn : new.Distinct) {w : List String × Json}
    (hw : w ∈ (diffInto snoc [] old new).1) : Ends old new w.1 := by
  obtain ⟨a, hsides, hnot, -⟩ := sides_of_write hn hw
  exact ends_of_not hsides hnot

theorem ends_of_removal {old new : State} (hn : new.Distinct)
    (hp : p ∈ (diffInto snoc [] old new).2) : Ends old new p := by
  obtain ⟨a, hsides⟩ := sides_of_removal hn hp
  exact ⟨some a, none, hsides, fun _ _ _ h => (by cases h)⟩

theorem write_of_sides {old new : State} {a : Option Json}
    (h : sides old new p = some (a, some v)) (hnot : bothDicts a v = none)
    (hkeep : keeps a v = false) : (p, v) ∈ (diffInto snoc [] old new).1 := by
  induction p generalizing old new with
  | nil => cases h
  | cons k p ih =>
    by_cases hp : p = []
    · subst hp
      obtain ⟨rfl, hv⟩ := Prod.mk.inj (some.inj h)
      refine mem_diffEntries.1 _ |>.mpr ⟨k, v, mem_of_assocGet? hv, ?_⟩
      rw [diffValue_of_not hnot, hkeep]
      exact .head _
    · obtain ⟨os, ns, hold, hnew, hrest⟩ := sides_under hp h
      have hb : bothDicts (assocGet? k old) (.dict ns) = some (os, ns) := by rw [hold]; rfl
      refine mem_diffEntries.1 _ |>.mpr ⟨k, .dict ns, mem_of_assocGet? hnew, ?_⟩
      rw [diffValue_of_both hb, show snoc [] k = [k] from rfl, diffInto_under]
      exact mem_map.mpr ⟨(p, v), ih hrest, rfl⟩

theorem removal_of_sides {old new : State} {a : Json}
    (h : sides old new p = some (some a, none)) : p ∈ (diffInto snoc [] old new).2 := by
  induction p generalizing old new with
  | nil => cases h
  | cons k p ih =>
    by_cases hp : p = []
    · subst hp
      obtain ⟨hold, hnew⟩ := Prod.mk.inj (some.inj h)
      refine mem_append_right _ (mem_map.mpr ⟨k, mem_filter.mpr ⟨?_, ?_⟩, rfl⟩)
      · exact mem_map.mpr ⟨(k, a), mem_of_assocGet? hold, rfl⟩
      · exact decide_eq_true (assocGet?_eq_none_iff.mp hnew)
    · obtain ⟨os, ns, hold, hnew, hrest⟩ := sides_under hp h
      have hb : bothDicts (assocGet? k old) (.dict ns) = some (os, ns) := by rw [hold]; rfl
      refine mem_append_left _ (mem_diffEntries.2 _ |>.mpr
        ⟨k, .dict ns, mem_of_assocGet? hnew, ?_⟩)
      rw [diffValue_of_both hb, show snoc [] k = [k] from rfl, diffInto_under]
      exact mem_map.mpr ⟨p, ih hrest, rfl⟩

/-- The writes, at the positions their paths split into. -/
def writesOf (delta : StateDelta) : List (List String × Json) :=
  delta.set.map fun w => (splitPath w.1, w.2)

def removalsOf (delta : StateDelta) : List (List String) := delta.removed.map splitPath

theorem applyState_eq (s : State) (delta : StateDelta) :
    applyState s delta = removeAll (removalsOf delta) (writeAll (writesOf delta) s) := by
  rw [applyState, removeAll, writeAll, removalsOf, writesOf, foldl_map, foldl_map]
  rfl

theorem mem_writesOf {old new : State} {w : List String × Json}
    (hw : w ∈ writesOf (diffState old new)) :
    ∃ a, (a, w.2) ∈ (diffInto snoc [] old new).1 ∧ w.1 = splitPath (joinAll a) := by
  obtain ⟨w', hw', rfl⟩ := mem_map.mp hw
  rw [diffState, diffInto_joinPath] at hw'
  obtain ⟨⟨a, v⟩, ha, rfl⟩ := mem_map.mp (mem_of_mem_assocOfWrites hw')
  exact ⟨a, ha, rfl⟩

theorem mem_removalsOf {old new : State} {q : List String}
    (hq : q ∈ removalsOf (diffState old new)) :
    ∃ p ∈ (diffInto snoc [] old new).2, q = splitPath (joinAll p) := by
  obtain ⟨text, htext, rfl⟩ := mem_map.mp hq
  rw [diffState, diffInto_joinPath] at htext
  obtain ⟨p, hp, rfl⟩ := mem_map.mp htext
  exact ⟨p, hp, rfl⟩

def dots (p : List String) : Nat := p.countP fun k => '.' ∈ k.toList

theorem dots_append (p q : List String) : dots (p ++ q) = dots p + dots q := countP_append

theorem dots_eq_zero : dots p = 0 ↔ Undotted p := by
  rw [dots, countP_eq_zero]
  simp [Undotted]

theorem dots_le_length (p : List String) : dots p ≤ p.length := countP_le_length

theorem length_withoutEmpty_le (p : List String) : (withoutEmpty p).length ≤ p.length := by
  fun_induction withoutEmpty p with
  | case1 k ks ih => exact Nat.le_trans ih (Nat.le_succ _)
  | case2 p => exact Nat.le_refl _

variable {a : List String}

theorem position_lt (hne : a ≠ []) (h : ¬ Faithful a) (r : List String) :
    dots (splitPath (joinAll a) ++ r) < dots (a ++ r) ∨
      dots (splitPath (joinAll a) ++ r) = dots (a ++ r) ∧
        (splitPath (joinAll a) ++ r).length < (a ++ r).length := by
  have hposition := dots_eq_zero.mpr (undotted_splitPath (joinAll a))
  rw [dots_append, dots_append, hposition, length_append, length_append]
  rcases unfaithful_cases hne h with hdotted | ⟨hundotted, k, ks, rfl⟩
  · have hpos : dots a ≠ 0 := fun hzero => hdotted (dots_eq_zero.mp hzero)
    exact .inl (by omega)
  · have hlength := length_withoutEmpty_le (k :: ks)
    rw [dots_eq_zero.mpr hundotted, splitPath_joinAll hne hundotted, withoutEmpty]
    rw [length_cons] at hlength
    exact .inr ⟨rfl, by rw [length_cons, length_cons]; omega⟩

theorem dict_of_valueAt_cons {k : String} {s : List String} {y : Json}
    (h : valueAt (k :: s) v = some y) : ∃ es, v = .dict es := by
  cases v with
  | dict es => exact ⟨es, rfl⟩
  | null => cases h
  | bool b => cases h
  | num q => cases h
  | str t => cases h
  | list xs => cases h

theorem not_found_in_old {o : Option Json} {x y z : Json} {s : List String}
    (hnot : bothDicts o v = none) (hkeep : keeps o v = false) (hnew : valueAt s v = some y)
    (hxy : x.Alike y) (hshrunk : Shrunk x z) : o.bind (valueAt s) ≠ some z := by
  intro hold
  obtain ⟨w, rfl, hz⟩ := bind_eq_some_iff.mp hold
  cases s with
  | nil =>
    obtain rfl : v = y := some.inj hnew
    obtain rfl : w = z := some.inj hz
    rcases hshrunk with rfl | ⟨es, fs, rfl, rfl⟩
    · exact Bool.false_ne_true (hkeep.symm.trans (Json.pyEq_of_same hxy.same))
    · obtain ⟨gs, rfl, -⟩ := hxy.symm.dict_right
      cases hnot
  | cons k s =>
    obtain ⟨es, rfl⟩ := dict_of_valueAt_cons hz
    obtain ⟨fs, rfl⟩ := dict_of_valueAt_cons hnew
    cases hnot

section

variable {old new : State} (hn : new.Distinct)
  (hsame : State.Alike (applyState old (diffState old new)) new)

include hsame in
theorem found_after_writes {y : Json} (hy : valueAt p (.dict new) = some y) :
    ∃ x z, valueAt p (.dict (writeAll (writesOf (diffState old new)) old)) = some z ∧
      Shrunk x z ∧ x.Alike y := by
  obtain ⟨x, hx, hxy⟩ := valueAt_alike hsame hy
  rw [applyState_eq] at hx
  obtain ⟨z, hz, hshrunk⟩ := valueAt_removeAll_some hx
  exact ⟨x, z, hz, hshrunk, hxy⟩

include hn hsame in
theorem written_above {s : List String} {y : Json}
    (ha : (a, v) ∈ (diffInto snoc [] old new).1) (hy : valueAt (a ++ s) (.dict new) = some y)
    (hbelow : ∀ w ∈ writesOf (diffState old new), a ++ s <+: w.1 → a ++ s = w.1) :
    ∃ b u r z, (b, u) ∈ (diffInto snoc [] old new).1 ∧
      a ++ s = splitPath (joinAll b) ++ r ∧ valueAt r u = some z := by
  obtain ⟨x, z, hz, hshrunk, hxy⟩ := found_after_writes hsame hy
  have hne : ∀ w ∈ writesOf (diffState old new), w.1 ≠ [] := by
    intro w hw
    obtain ⟨b, -, hb⟩ := mem_writesOf hw
    rw [hb]
    exact splitPath_ne_nil _
  rcases valueAt_writeAll hne hbelow hz with ⟨w, hw, r, hr, hu⟩ | hold
  · obtain ⟨b, hb, hposition⟩ := mem_writesOf hw
    rw [hposition] at hr
    exact ⟨b, w.2, r, z, hb, hr, hu⟩
  · obtain ⟨o, hsides, hnot, hkeep⟩ := sides_of_write hn ha
    obtain ⟨ho, hv⟩ := valueAt_of_sides hsides
    rw [valueAt_append, hv] at hy
    rw [valueAt_append, ho] at hold
    exact absurd hold (not_found_in_old hnot hkeep hy hxy hshrunk)

include hn hsame in
theorem no_ascent {g : List String → Prop}
    (hbelow : ∀ p, g p → ∀ w ∈ writesOf (diffState old new), p <+: w.1 → p = w.1)
    (hkept : ∀ p b u r, g p → (b, u) ∈ (diffInto snoc [] old new).1 → ¬ Faithful b →
      dots p ≤ dots (b ++ r) → g (b ++ r))
    {a s : List String} {v y : Json} (ha : (a, v) ∈ (diffInto snoc [] old new).1)
    (hfaithful : ¬ Faithful a) (hy : valueAt (a ++ s) (.dict new) = some y)
    (hgood : g (a ++ s)) : False := by
  obtain ⟨b, u, r, z, hb, heq, hu⟩ := written_above hn hsame ha hy (hbelow _ hgood)
  have hend := ends_of_write hn hb
  have hb' : ¬ Faithful b := by
    intro hb'
    rw [hb'] at heq
    apply hfaithful
    have habove := prefix_or_prefix_of_prefix (prefix_append a s)
      (heq ▸ prefix_append b r)
    rcases habove with h | h
    · rw [show a = b from (ends_of_write hn ha).eq_of_above hend h]
      exact hb'
    · rw [← show b = a from hend.eq_of_above (ends_of_write hn ha) h]
      exact hb'
  obtain ⟨o, hsides, -, -⟩ := sides_of_write hn hb
  have hnew : valueAt (b ++ r) (.dict new) = some z := by
    rw [valueAt_append, (valueAt_of_sides hsides).2]
    exact hu
  have hne : b ≠ [] := sides_ne_nil hsides
  have hlt : dots (a ++ s) < dots (b ++ r) ∨
      dots (a ++ s) = dots (b ++ r) ∧ (a ++ s).length < (b ++ r).length :=
    heq ▸ position_lt hne hb' r
  have hle : dots (a ++ s) ≤ dots (b ++ r) := by omega
  have hsize := length_lt_sizeOf hnew
  have hdots := dots_le_length (b ++ r)
  exact no_ascent hbelow hkept hb hb' hnew (hkept _ b u r hgood hb hb' hle)
termination_by (sizeOf (Json.dict new) - dots (a ++ s), sizeOf (Json.dict new) - (a ++ s).length)
decreasing_by
  simp only [Prod.lex_def]
  omega

include hn hsame in
theorem undotted_of_write (ha : (a, v) ∈ (diffInto snoc [] old new).1) : Undotted a := by
  by_contra hdotted
  obtain ⟨o, hsides, -, -⟩ := sides_of_write hn ha
  have hgood : dots (a ++ []) ≠ 0 := by
    rw [append_nil]
    exact fun hzero => hdotted (dots_eq_zero.mp hzero)
  refine no_ascent hn hsame (g := fun p => dots p ≠ 0) ?_ ?_ ha
    (fun h => hdotted h.undotted) (y := v) ?_ hgood
  · -- A position the code writes at has no dots, so none is below one with dots.
    intro p hp w hw hpw
    obtain ⟨b, -, hposition⟩ := mem_writesOf hw
    refine absurd (dots_eq_zero.mpr fun k hk => ?_) hp
    exact undotted_splitPath (joinAll b) k (hposition ▸ hpw.subset hk)
  · intro p b u r hp _ _ hle
    omega
  · rw [append_nil]
    exact (valueAt_of_sides hsides).2

include hn hsame in
theorem faithful_of_write (ha : (a, v) ∈ (diffInto snoc [] old new).1) : Faithful a := by
  by_contra hfaithful
  have hled : ∀ b u, (b, u) ∈ (diffInto snoc [] old new).1 → ¬ Faithful b →
      ∀ r, ∃ k ks, b ++ r = "" :: k :: ks := by
    intro b u hb hb' r
    have hne := sides_ne_nil (sides_of_write hn hb).choose_spec.1
    rcases unfaithful_cases hne hb' with hdotted | ⟨-, k, ks, rfl⟩
    · exact absurd (undotted_of_write hn hsame hb) hdotted
    · exact ⟨k, ks ++ r, rfl⟩
  obtain ⟨o, hsides, -, -⟩ := sides_of_write hn ha
  refine no_ascent hn hsame (g := fun p => ∃ k ks, p = "" :: k :: ks) ?_ ?_ ha hfaithful
    (s := []) (y := v) ?_ (hled a v ha hfaithful [])
  · -- Without dots no address has a path that splits behind an empty key.
    rintro p ⟨k, ks, rfl⟩ w hw ⟨r, hr⟩
    obtain ⟨b, hb, hposition⟩ := mem_writesOf hw
    have hne := sides_ne_nil (sides_of_write hn hb).choose_spec.1
    exact absurd (undotted_of_write hn hsame hb)
      (not_undotted_of_led hne (hposition.symm.trans hr.symm))
  · exact fun p b u r _ hb hb' _ => hled b u hb hb' r
  · rw [append_nil]
    exact (valueAt_of_sides hsides).2

include hn hsame in
theorem unwritten (hp : Ends old new p) (hnot : ∀ v, (p, v) ∉ (diffInto snoc [] old new).1) :
    valueAt p (.dict (writeAll (writesOf (diffState old new)) old)) = valueAt p (.dict old) := by
  apply valueAt_writeAll_apart
  intro w hw
  obtain ⟨a, ha, hposition⟩ := mem_writesOf hw
  rw [hposition, faithful_of_write hn hsame ha]
  have hne : a ≠ p := by
    rintro rfl
    exact hnot w.2 ha
  have hend := ends_of_write hn ha
  exact ⟨fun h => hne (hend.eq_of_above hp h), fun h => hne (hp.eq_of_above hend h).symm⟩

include hn hsame in
theorem removed_at (hp : p ∈ (diffInto snoc [] old new).2) :
    ∃ p' ∈ (diffInto snoc [] old new).2, splitPath (joinAll p') = p := by
  obtain ⟨u, hsides⟩ := sides_of_removal hn hp
  obtain ⟨hold, hnew⟩ := valueAt_of_sides hsides
  have hwritten := unwritten hn hsame (ends_of_removal hn hp) fun v hv => by
    obtain ⟨o, hsides', -, -⟩ := sides_of_write hn hv
    rw [hsides] at hsides'
    cases hsides'
  have hgone : valueAt p (.dict (removeAll (removalsOf (diffState old new))
      (writeAll (writesOf (diffState old new)) old))) = none := by
    rw [← applyState_eq]
    cases hx : valueAt p (.dict (applyState old (diffState old new))) with
    | none => rfl
    | some x =>
      obtain ⟨y, hy, -⟩ := valueAt_alike hsame.symm hx
      rw [hnew] at hy
      cases hy
  obtain ⟨q, hq, r, hr⟩ := removed_above (hwritten.trans hold) hgone
  obtain ⟨p', hp', rfl⟩ := mem_removalsOf hq
  refine ⟨p', hp', ?_⟩
  by_contra hne
  have hr' : r ≠ [] := by
    rintro rfl
    exact hne ((append_nil _).symm.trans hr)
  rw [← hr] at hsides
  obtain ⟨os, ns, -, hdict⟩ := dicts_above hr' hsides
  obtain ⟨x, hx, -⟩ := valueAt_alike hsame hdict
  rw [applyState_eq, valueAt_removeAll_self hq (splitPath_ne_nil _)] at hx
  cases hx

include hn hsame in
theorem faithful_of_removal (hp : p ∈ (diffInto snoc [] old new).2) : Faithful p := by
  have hundotted : ∀ q ∈ (diffInto snoc [] old new).2, Undotted q := by
    intro q hq
    obtain ⟨q', -, rfl⟩ := removed_at hn hsame hq
    exact undotted_splitPath _
  by_contra hfaithful
  obtain ⟨p', hp', hposition⟩ := removed_at hn hsame hp
  rcases unfaithful_cases (removal_ne_nil hn hp) hfaithful with hdotted | ⟨-, k, ks, rfl⟩
  · exact hdotted (hundotted p hp)
  · exact not_undotted_of_led (removal_ne_nil hn hp') hposition (hundotted p' hp')

include hn hsame in
theorem leafExact_of_same : LeafExact old new := by
  intro p a b hsides hnot heq
  have hend := ends_of_not hsides hnot
  have hwritten := unwritten hn hsame hend fun v hv => by
    obtain ⟨o, hsides', -, hkeep⟩ := sides_of_write hn hv
    obtain ⟨rfl, hv'⟩ := Prod.mk.inj (some.inj (hsides.symm.trans hsides'))
    rw [← some.inj hv'] at hkeep
    exact Bool.false_ne_true (hkeep.symm.trans heq)
  have hapart : ∀ q ∈ removalsOf (diffState old new), ¬ q <+: p ∧ ¬ p <+: q := by
    intro q hq
    obtain ⟨p', hp', rfl⟩ := mem_removalsOf hq
    rw [faithful_of_removal hn hsame hp']
    have hne : p' ≠ p := by
      rintro rfl
      obtain ⟨u, hsides'⟩ := sides_of_removal hn hp'
      rw [hsides] at hsides'
      cases hsides'
    have hend' := ends_of_removal hn hp'
    exact ⟨fun h => hne (hend'.eq_of_above hend h), fun h => hne (hend.eq_of_above hend' h).symm⟩
  obtain ⟨hold, hnew⟩ := valueAt_of_sides hsides
  obtain ⟨x, hx, hxb⟩ := valueAt_alike hsame hnew
  rw [applyState_eq, valueAt_removeAll_apart hapart, hwritten, hold] at hx
  rw [some.inj hx]
  exact hxb.same

end

theorem carries_of_same {old new : State} (ho : old.Distinct) (hn : new.Distinct)
    (h : (applyState old (diffState old new)).same new = true) : Carries old new := by
  have hresult := alike_applyState (@distinct_diffState old new hn) (Json.Alike.refl ho)
  have hsame : State.Alike (applyState old (diffState old new)) new := ⟨hresult.left, hn, h⟩
  intro p a b hsides
  cases b with
  | none =>
    cases a with
    | none => exact trivial
    | some a =>
      have hfaithful := faithful_of_removal hn hsame (removal_of_sides hsides)
      cases a <;> exact hfaithful
  | some v =>
    cases hb : bothDicts a v with
    | some both =>
      obtain ⟨rfl, rfl⟩ := bothDicts_eq_some hb
      exact trivial
    | none =>
      cases hkeep : keeps a v with
      | false =>
        have hfaithful := faithful_of_write hn hsame (write_of_sides hsides hb hkeep)
        cases a with
        | none => exact hfaithful
        | some a =>
          have hdiffers : ¬ a.pyEq v = true := fun h => Bool.false_ne_true (hkeep.symm.trans h)
          rw [carried_iff hb, if_neg hdiffers]
          exact hfaithful
      | true =>
        cases a with
        | none => cases hkeep
        | some a =>
          have hequal : a.pyEq v = true := hkeep
          rw [carried_iff hb, if_pos hequal]
          exact leafExact_of_same hn hsame p a v hsides hb hkeep

/-- **When a difference leads to the new state.** -/
theorem diff_apply_roundtrip {old new : State} (ho : old.Distinct) (hn : new.Distinct) :
    (applyState old (diffState old new)).same new = true ↔ Carries old new :=
  ⟨carries_of_same ho hn, applyState_same ho hn⟩

theorem plain_key_set :
    (applyState [] (diffState [] [("a", .null)])).same [("a", .null)] = true := by
  refine (diff_apply_roundtrip ?_ ?_).mpr carries_plain_key
  · simp [State.Distinct, Json.Distinct, Json.DistinctEntries]
  · simp [State.Distinct, Json.Distinct, Json.DistinctEntries]

end JiuwenSpec.Vcs

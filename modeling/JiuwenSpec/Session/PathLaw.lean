import Mathlib.Data.List.Basic
import JiuwenSpec.Session.PathWalk

/-!
# Setting a path and reading it

`update_dict` with one path and `get_value_by_nested_path` at that path and at disjoint ones: which
states, paths and plain values keep the law that the path then reads as the value, merged with a
dictionary that was there, and every other path as before.
Source: `core/session/utils.py`.
-/

namespace JiuwenSpec.Session

open List Option

theorem entryGet?_entryDelete (key other : String) (entries : List (String × Value)) :
    entryGet? other (entryDelete key entries) =
      if other = key then none else entryGet? other entries := by
  induction entries with
  | nil => simp [entryDelete, entryGet?]
  | cons e rest ih =>
    obtain ⟨k, w⟩ := e
    simp only [entryDelete, ne_eq, decide_not] at ih ⊢
    by_cases hk : k = key
    · subst hk
      by_cases ho : other = k
      · subst ho
        simpa using ih
      · simp [entryGet?, ih, ho, Ne.symm ho]
    · by_cases ho : k = other
      · subst ho
        simp [entryGet?, hk]
      · simp [entryGet?, hk, ho, ih]

theorem readParts_padTo (items : List Value) (i : Int) {j : Int} (hj : 0 ≤ j)
    (more : List PathPart) :
    readParts (.index j :: more) (.list (padTo items i)) =
      readParts (.index j :: more) (.list items) := by
  have hpos : ∀ length : Nat, Value.position? length j =
      if j.toNat < length then some j.toNat else none := fun length => by
    rw [Value.position?, if_pos hj]
  have hover : ∀ l : List Value, (Value.list l).overruns (.index j) = false := by
    intro l
    simp [Value.overruns]
    omega
  have hlen : (padTo items i).length = items.length + (i + 1 - items.length).toNat := by
    simp [padTo]
  by_cases hlt : j.toNat < items.length
  · refine readParts_congr ?_ (by rw [hover, hover]) more
    have hlt' : j.toNat < (padTo items i).length := by omega
    rw [Value.part?, Value.part?, hpos, hpos, if_pos hlt, if_pos hlt', bind_some,
      bind_some, padTo, List.getElem?_append_left hlt]
  · have habsent : (Value.list items).part? (.index j) = none := by
      rw [Value.part?, hpos, if_neg hlt, bind_none]
    rw [readParts_absent habsent (hover _)]
    by_cases hlt' : j.toNat < (padTo items i).length
    · have hnull : (Value.list (padTo items i)).part? (.index j) = some .null := by
        rw [Value.part?, hpos, if_pos hlt', bind_some, padTo,
          List.getElem?_append_right (Nat.le_of_not_lt hlt), List.getElem?_replicate]
        rw [if_pos (by omega)]
      by_cases hmore : more = []
      · subst hmore
        rw [readParts, hnull, getD_some]
      · rw [readParts_child hnull hmore, readParts_null]
    · refine readParts_absent ?_ (hover _) more
      rw [Value.part?, hpos, if_neg hlt', bind_none]

theorem readParts_write {cont b new v : Value} {last : PathPart} (hfits : cont.fits last = true)
    (hb : b = cont ∨ b = cont.prepare last) (hwrite : b.write last v = .ok new) {q : PathPart}
    (hq : Apart last q) (more : List PathPart) :
    readParts (q :: more) new = readParts (q :: more) cont := by
  obtain ⟨entries, key, rfl, rfl⟩ | ⟨items, i, rfl, rfl⟩ := fits_cases hfits
  · obtain ⟨entries', rfl, hother⟩ : ∃ entries', b = .dict entries' ∧
        ∀ other, other ≠ key → entryGet? other entries' = entryGet? other entries := by
      rcases hb with rfl | rfl
      · exact ⟨entries, rfl, fun _ _ => rfl⟩
      · exact ⟨_, rfl, fun other hne => by rw [entryGet?_entrySet, if_neg hne]⟩
    cases hwrite
    refine readParts_congr ?_ (by cases q <;> rfl) more
    cases q with
    | index j => rfl
    | key other =>
      have hne : other ≠ key := Ne.symm hq
      rw [Value.part?, Value.part?, ← hother other hne]
      split
      · rw [entryGet?_entryDelete, if_neg hne]
      · rw [entryGet?_entrySet, if_neg hne]
  · obtain ⟨items', rfl, hread⟩ : ∃ items', b = .list items' ∧
        readParts (q :: more) (.list items') = readParts (q :: more) (.list items) := by
      rcases hb with rfl | rfl
      · exact ⟨items, rfl, rfl⟩
      · refine ⟨padTo items i, rfl, ?_⟩
        by_cases hi : i < items.length
        · rw [padTo_of_lt hi]
        · cases q with
          | key other =>
            exact (readParts_absent rfl rfl more).trans (readParts_absent rfl rfl more).symm
          | index j => exact readParts_padTo items i (hq.2.mp (by omega)) more
    rw [← hread]
    rw [Value.write] at hwrite
    split at hwrite
    · cases hwrite
      rfl
    · cases hpos : Value.position? items'.length i with
      | none =>
        rw [hpos] at hwrite
        cases hwrite
      | some n =>
        rw [hpos] at hwrite
        cases hwrite
        cases q with
        | key other =>
          exact (readParts_absent rfl rfl more).trans (readParts_absent rfl rfl more).symm
        | index j =>
          exact readParts_congr (part?_set_apart hq hpos _) (by simp [Value.overruns]) more

/-- Setting a path and reading: the update succeeds, the path reads as the value, merged with a
dictionary that was there, and every disjoint path reads as before. -/
def UpdateLaw (state : List (String × Value)) (p : String) (v : Value) : Prop :=
  ∃ after, updateDict [(p, v)] state = (.dict after, none) ∧
    getValueByNestedPath p after =
      .ok (mergeValue v ((Value.dict state).follow (pathParts p))) ∧
    ∀ q, DisjointParts (pathParts p) q →
      getValueAtParts q (.dict after) = getValueAtParts q (.dict state)

def Value.holds (v : Value) (i : Int) : Bool :=
  match v with
  | .list items => Value.holdsInt items i
  | _ => false

/-- The container takes the value at the last part of the path. A key that a split path creates
drops the `None`s of a dictionary. An item is never deleted, an index reaches back to the start
of its list at most, and dictionaries merge in a list only if it holds the index as a value. -/
def Takes (state : List (String × Value)) (p : String) (v cont : Value) : PathPart → Prop
  | .key key =>
    splitNestedPath p ≠ [] → cont.part? (.key key) = none → ∀ u, v = .dict u → nullKeys u = []
  | .index i =>
    if v.isNull then
      (cont.part? (.index i)).getD .null = .null ∧
        (i < 0 → (Value.dict state).follow (pathParts p).dropLast ≠ none)
    else
      cont.overruns (.index i) = false ∧
        ∀ u o, v = .dict u → cont.part? (.index i) = some (.dict o) →
          cont.holds i = true ∨ mergeDicts u o = u

/-- The path can be split, the walk reaches a container, and that takes the value. -/
def Settles (state : List (String × Value)) (p : String) (v : Value) : Prop :=
  splitRaises p = false ∧
    ∃ cont last, lastContainer? (pathParts p) (.dict state) = some cont ∧
      (pathParts p).getLast? = some last ∧ Takes state p v cont last

theorem mergeValue_null (old : Option Value) : mergeValue .null old = .null := rfl

theorem mergeValue_other {v : Value} {old : Option Value} (h : ∀ o, old ≠ some (.dict o)) :
    mergeValue v old = v := by
  cases v with
  | dict u =>
    cases old with
    | none => rfl
    | some w =>
      cases w with
      | dict o => exact absurd rfl (h o)
      | _ => rfl
  | _ => cases old <;> rfl

theorem read_write_key {v : Value} (hv : v.Plain) {entries : List (String × Value)} {key : String}
    {split : Prop} {b : Value}
    (hb : (b = .dict entries ∧ ¬ split) ∨ (b = (Value.dict entries).prepare (.key key) ∧ split)) :
    ∃ after, b.write (.key key) v = .ok (.dict after) ∧
      (((Value.dict after).part? (.key key)).getD .null =
          mergeValue v ((Value.dict entries).part? (.key key)) ↔
        (split → (Value.dict entries).part? (.key key) = none →
          ∀ u, v = .dict u → nullKeys u = [])) := by
  obtain ⟨entries', rfl, hget⟩ : ∃ entries', b = .dict entries' ∧
      ((entryGet? key entries' = entryGet? key entries ∧ ¬ split) ∨
        (entryGet? key entries' = some ((entryGet? key entries).getD (.dict [])) ∧ split)) := by
    rcases hb with ⟨rfl, hs⟩ | ⟨rfl, hs⟩
    · exact ⟨entries, rfl, Or.inl ⟨rfl, hs⟩⟩
    · exact ⟨_, rfl, Or.inr ⟨by rw [entryGet?_entrySet, if_pos rfl], hs⟩⟩
  refine ⟨_, rfl, ?_⟩
  simp only [Value.part?]
  cases hnull : v.isNull with
  | true =>
    obtain rfl : v = .null := by
      cases v with
      | null => rfl
      | _ => cases hnull
    rw [if_pos rfl, entryGet?_entryDelete, if_pos rfl, mergeValue_null]
    exact iff_of_true rfl (fun _ _ u h => by cases h)
  | false =>
    rw [if_neg Bool.false_ne_true, entryGet?_entrySet, if_pos rfl, getD_some]
    rcases hget with ⟨hsame, hs⟩ | ⟨hfresh, hs⟩
    · rw [hsame]
      exact iff_of_true rfl (fun h => absurd h hs)
    · rw [hfresh]
      cases hold : entryGet? key entries with
      | some old => exact iff_of_true rfl (fun _ h => by cases h)
      | none =>
        rw [getD_none]
        cases v with
        | dict u =>
          have hmerge := mergeDicts_empty hv.1
          constructor
          · intro h _ _ u' hu
            cases hu
            exact hmerge.mp (Value.dict.inj h)
          · intro h
            exact congrArg Value.dict (hmerge.mpr (h hs rfl u rfl))
        | _ => exact iff_of_true rfl (fun _ _ u h => by cases h)

theorem read_write_index {v : Value} (hnull : v.isNull = false) (items : List Value) (i : Int) :
    ((Value.list items).overruns (.index i) = true ∧
        ((Value.list items).prepare (.index i)).write (.index i) v = .error .indexError) ∨
      ((Value.list items).overruns (.index i) = false ∧
        ∃ new, ((Value.list items).prepare (.index i)).write (.index i) v = .ok new ∧
          ((new.part? (.index i)).getD .null =
              mergeValue v ((Value.list items).part? (.index i)) ↔
            ∀ u o, v = .dict u → (Value.list items).part? (.index i) = some (.dict o) →
              (Value.list items).holds i = true ∨ mergeDicts u o = u)) := by
  rw [Value.prepare]
  by_cases hi : i < items.length
  · rw [padTo_of_lt hi]
    rcases part?_index hi with ⟨hneg, hpos⟩ | ⟨n, hn, hpos, hpart, hover⟩
    · refine Or.inl ⟨by simp [Value.overruns, hneg], ?_⟩
      rw [Value.write, hnull, hpos]
      rfl
    · refine Or.inr ⟨hover, ?_⟩
      have hgetD : items.getD n .null = items[n] := by
        rw [getD_eq_getElem?_getD, List.getElem?_eq_getElem hn, getD_some]
      rw [Value.write, hnull, hpos, hpart]
      refine ⟨.list (items.set n (if Value.holdsInt items i then
        mergeValue v (some (items.getD n .null)) else v)), rfl, ?_⟩
      rw [hgetD, Value.part?, length_set, hpos, bind_some, List.getElem?_set_self hn,
        getD_some, Value.holds]
      split
      · next hholds => exact iff_of_true rfl (fun _ _ _ _ => Or.inl hholds)
      · next hholds =>
        constructor
        · rintro h u o rfl ho
          rw [some.inj ho] at h
          exact Or.inr (Value.dict.inj h).symm
        · intro h
          by_cases hboth : ∃ u o, v = .dict u ∧ items[n] = .dict o
          · obtain ⟨u, o, rfl, ho⟩ := hboth
            rcases h u o rfl (by rw [ho]) with hh | hmerge
            · exact absurd hh hholds
            · rw [ho]
              exact congrArg Value.dict hmerge.symm
          · cases v with
            | dict u =>
              exact (mergeValue_other fun o ho => hboth ⟨u, o, rfl, some.inj ho⟩).symm
            | _ => rfl
  · -- the list is filled up with `None`, and the index is its last
    have hle := Int.not_lt.mp hi
    obtain ⟨hpart, hover⟩ := part?_index_beyond hle
    have hlen : (padTo items i).length = i.toNat + 1 := by
      rw [padTo, length_append, length_replicate]
      omega
    have hpos : Value.position? (padTo items i).length i = some i.toNat := by
      rw [Value.position?, if_pos (by omega), if_pos (by omega)]
    refine Or.inr ⟨hover, ?_⟩
    have hval : (if Value.holdsInt (padTo items i) i then
        mergeValue v (some ((padTo items i).getD i.toNat .null)) else v) = v := by
      rw [padTo_getD hle hpos, mergeValue_other (fun o h => by cases h), ite_self]
    rw [Value.write, hnull, hpos, hpart, mergeValue_other (fun o h => by cases h)]
    refine ⟨.list ((padTo items i).set i.toNat (if Value.holdsInt (padTo items i) i then
      mergeValue v (some ((padTo items i).getD i.toNat .null)) else v)), rfl,
      iff_of_true ?_ (fun _ _ _ h => by cases h)⟩
    rw [hval, Value.part?, length_set, hpos, bind_some,
      List.getElem?_set_self (by omega), getD_some]

theorem read_write_null (items : List Value) (i : Int) :
    ((Value.list items).prepare (.index i)).write (.index i) .null =
        .ok (.list (padTo items i)) ∧
      ((Value.list (padTo items i)).part? (.index i)).getD .null =
        ((Value.list items).part? (.index i)).getD .null := by
  refine ⟨rfl, ?_⟩
  by_cases hi : i < items.length
  · rw [padTo_of_lt hi]
  · have hle := Int.not_lt.mp hi
    have hread := @readParts_padTo items i i (by omega) []
    rw [readParts, readParts] at hread
    exact Except.ok.inj hread

theorem pathParts_getLast (p : String) : ∃ last, (pathParts p).getLast? = some last := by
  rw [pathParts]
  cases splitNestedPath p with
  | nil => exact ⟨_, rfl⟩
  | cons part rest =>
    exact ⟨_, List.getLast?_eq_some_getLast (cons_ne_nil part rest)⟩

theorem lastContainer?_fits {parts : List PathPart} {v cont : Value} {last : PathPart}
    (h : lastContainer? parts v = some cont) (hlast : parts.getLast? = some last) :
    cont.fits last = true := by
  obtain ⟨_, _, last', hlast', hfits, _⟩ := walk_lastContainer h
  rw [hlast] at hlast'
  rwa [some.inj hlast']

theorem updateDict_path {state : List (String × Value)} {p : String} {v cont : Value}
    {last : PathPart} (hv : v.Plain) (hsplit : splitRaises p = false)
    (h : lastContainer? (pathParts p) (.dict state) = some cont)
    (hlast : (pathParts p).getLast? = some last) :
    ∃ b root, ((b = cont ∧ splitNestedPath p = []) ∨
        (b = cont.prepare last ∧ splitNestedPath p ≠ [])) ∧
      updateDict [(p, v)] state =
        match b.write last v with
        | .ok new => (modify (pathParts p) new (.dict state), none)
        | .error e => (root, some e) := by
  have hfits := lastContainer?_fits h hlast
  cases hparts : splitNestedPath p with
  | nil =>
    rw [pathParts, hparts] at h hlast ⊢
    cases h
    cases hlast
    have hroot := rootToPath_plain ⟨hparts, hsplit⟩ (.dict state) true
    refine ⟨.dict state, .dict state, Or.inl ⟨rfl, rfl⟩, ?_⟩
    exact updateDict_single hv hroot rfl rfl
  | cons part rest =>
    have hpath : pathParts p = part :: rest := by rw [pathParts, hparts]
    rw [hpath] at h hlast ⊢
    obtain ⟨root, c, last', hlast', _, hwalk, hat, hset⟩ := walk_lastContainer h
    rw [hlast] at hlast'
    cases hlast'
    have hroot : rootToPath p (.dict state) true = (root, .found c last) := by
      rw [rootToPath, hsplit, hparts]
      exact hwalk
    have hfits' : (cont.prepare last).fits last = true := by
      obtain ⟨_, _, rfl, rfl⟩ | ⟨_, _, rfl, rfl⟩ := fits_cases hfits <;> rfl
    refine ⟨cont.prepare last, root, Or.inr ⟨rfl, cons_ne_nil _ _⟩, ?_⟩
    rw [updateDict_single hv hroot hat hfits']
    cases hwrite : (cont.prepare last).write last v with
    | ok new => simp only [hset]
    | error e => rfl

theorem updateDict_fails {state : List (String × Value)} {p : String} {v : Value}
    (h : splitRaises p = true ∨ lastContainer? (pathParts p) (.dict state) = none) :
    (updateDict [(p, v)] state).2 ≠ none := by
  have htarget : ∀ root c last, rootToPath p (.dict state) true ≠ (root, .found c last) := by
    intro root c last hroot
    rw [rootToPath] at hroot
    cases hraise : splitRaises p with
    | true =>
      rw [hraise] at hroot
      cases hroot
    | false =>
      have hnone := h.resolve_left (by simp [hraise])
      rw [hraise] at hroot
      rw [pathParts] at hnone
      cases hparts : splitNestedPath p with
      | nil =>
        rw [hparts] at hnone
        cases hnone
      | cons part rest =>
        rw [hparts] at hnone hroot
        exact walk_no_container hnone root c last hroot
  rw [updateDict, updateEntries]
  cases hroot : rootToPath p (.dict state) true with
  | mk root target =>
    cases target with
    | found c last => exact absurd hroot (htarget root c last)
    | raised e => simp
    | notFound =>
      cases v with
      | null => simp [updateEntries, runRemovals, deleteByKey]
      | _ => simp

theorem lastContainer?_fresh {parts : List PathPart} {cont : Value} {last : PathPart}
    (h : lastContainer? parts (freshContainer parts) = some cont)
    (hlast : parts.getLast? = some last) : cont = freshContainer [last] := by
  induction parts with
  | nil => cases h
  | cons part rest ih =>
    cases rest with
    | nil =>
      rw [lastContainer?] at h
      split at h
      · cases h
        obtain rfl : part = last := some.inj hlast
        rfl
      · cases h
    | cons next rest =>
      rw [List.getLast?_cons_cons] at hlast
      rw [lastContainer?] at h
      · cases part with
        | key key => exact ih h hlast
        | index i =>
          have hempty : (freshContainer (.index i :: next :: rest)).enter (.index i)
              (next :: rest) = none := (part?_empty i).1
          rw [hempty] at h
          cases h
      · simp

theorem lastContainer?_absent {parts : List PathPart} {v cont : Value} {last : PathPart}
    (h : lastContainer? parts v = some cont) (hlast : parts.getLast? = some last)
    (habsent : v.follow parts.dropLast = none) : cont = freshContainer [last] := by
  induction parts generalizing v with
  | nil => cases h
  | cons part rest ih =>
    cases rest with
    | nil => cases habsent
    | cons next rest =>
      rw [List.getLast?_cons_cons] at hlast
      rw [dropLast_cons_cons, Value.follow] at habsent
      rw [lastContainer?] at h
      · obtain ⟨child, henter, hchild⟩ := bind_eq_some_iff.mp h
        rcases enter_cases henter with hpart | ⟨_, _, rfl⟩
        · rw [hpart, bind_some] at habsent
          exact ih hchild hlast habsent
        · exact lastContainer?_fresh hchild hlast
      · simp

theorem modify_dict {parts : List PathPart} {entries : List (String × Value)} {new cont : Value}
    (h : lastContainer? parts (.dict entries) = some cont)
    (hnew : (∃ es, cont = .dict es) → ∃ after, new = .dict after) :
    ∃ after, modify parts new (.dict entries) = .dict after := by
  cases parts with
  | nil => cases h
  | cons part rest =>
    cases rest with
    | nil =>
      rw [lastContainer?] at h
      split at h
      · cases h
        exact hnew ⟨entries, rfl⟩
      · cases h
    | cons next rest =>
      rw [modify]
      · cases part with
        | key key => exact ⟨_, rfl⟩
        | index i => exact ⟨entries, rfl⟩
      · simp

theorem disjointParts_append (before : List PathPart) {p q : PathPart} (h : Apart p q)
    (more : List PathPart) : DisjointParts (before ++ [p]) (before ++ q :: more) := by
  induction before with
  | nil => exact Or.inl h
  | cons part before ih => exact Or.inr ⟨rfl, ih⟩

section Law

variable {state after : List (String × Value)} {p : String} {v cont new b : Value}
  {last : PathPart}

theorem read_after (hsplit : splitRaises p = false)
    (h : lastContainer? (pathParts p) (.dict state) = some cont)
    (hlast : (pathParts p).getLast? = some last)
    (hafter : modify (pathParts p) new (.dict state) = .dict after) :
    getValueByNestedPath p after = .ok ((new.part? last).getD .null) := by
  have hparts : (pathParts p).dropLast ++ [last] = pathParts p :=
    dropLast_append_getLast? last hlast
  have hread := readParts_modify h new (cons_ne_nil last [])
  rw [getValueByNestedPath_eq hsplit, getValueAtParts_eq, ← hafter]
  rwa [hparts] at hread

theorem law_of_write (hsplit : splitRaises p = false)
    (h : lastContainer? (pathParts p) (.dict state) = some cont)
    (hlast : (pathParts p).getLast? = some last) (hb : b = cont ∨ b = cont.prepare last)
    (hwrite : b.write last v = .ok new)
    (hupdate : updateDict [(p, v)] state = (modify (pathParts p) new (.dict state), none))
    (hafter : modify (pathParts p) new (.dict state) = .dict after)
    (hread : (new.part? last).getD .null = mergeValue v (cont.part? last))
    (hplace : CountsInPlace (pathParts p) (.dict state)) : UpdateLaw state p v := by
  refine ⟨after, hafter ▸ hupdate, ?_, fun q hq => ?_⟩
  · rw [read_after hsplit h hlast hafter, hread, follow_eq h hlast]
  · rw [getValueAtParts_eq, getValueAtParts_eq, ← hafter]
    refine readParts_disjoint h hlast (fun q more hq => ?_) hplace hq
    exact readParts_write (lastContainer?_fits h hlast) hb hwrite hq more

theorem write_of_law (hsplit : splitRaises p = false)
    (h : lastContainer? (pathParts p) (.dict state) = some cont)
    (hlast : (pathParts p).getLast? = some last)
    (hupdate : updateDict [(p, v)] state = (modify (pathParts p) new (.dict state), none))
    (hlaw : UpdateLaw state p v) :
    (new.part? last).getD .null = mergeValue v (cont.part? last) := by
  obtain ⟨after, hafter, hget, _⟩ := hlaw
  rw [hupdate] at hafter
  rw [read_after hsplit h hlast (Prod.mk.inj hafter).1, follow_eq h hlast] at hget
  exact Except.ok.inj hget

theorem split_of_index {i : Int} (hlast : (pathParts p).getLast? = some (.index i)) :
    splitNestedPath p ≠ [] := by
  intro hnil
  rw [pathParts, hnil] at hlast
  cases hlast

theorem not_law_of_absent {i : Int} (hi : i < 0)
    (h : lastContainer? (pathParts p) (.dict state) = some cont)
    (hlast : (pathParts p).getLast? = some (.index i))
    (habsent : (Value.dict state).follow (pathParts p).dropLast = none)
    (hupdate : updateDict [(p, v)] state = (modify (pathParts p) (.list []) (.dict state), none)) :
    ¬ UpdateLaw state p v := by
  rintro ⟨after, hafter, _, hframe⟩
  rw [hupdate] at hafter
  have hparts : (pathParts p).dropLast ++ [.index i] = pathParts p :=
    dropLast_append_getLast? _ hlast
  have hdisjoint := disjointParts_append (pathParts p).dropLast
    (p := .index i) (q := .index (i - 1)) ⟨by omega, by omega⟩ [.key ""]
  rw [hparts] at hdisjoint
  have hsame := hframe _ hdisjoint
  rw [getValueAtParts_eq, getValueAtParts_eq, ← (Prod.mk.inj hafter).1,
    readParts_modify h (.list []) (cons_ne_nil _ _), readParts_no_container h habsent] at hsame
  have hover : (Value.list []).overruns (.index (i - 1)) = true := by
    simp [Value.overruns]
    omega
  rw [readParts, hover, if_pos rfl] at hsame
  · cases hsame
  · simp

theorem updateLaw_key {entries : List (String × Value)} {key : String} {root : Value}
    (hv : v.Plain) (hsplit : splitRaises p = false)
    (h : lastContainer? (pathParts p) (.dict state) = some (.dict entries))
    (hlast : (pathParts p).getLast? = some (.key key))
    (hb : (b = .dict entries ∧ ¬ splitNestedPath p ≠ []) ∨
      (b = (Value.dict entries).prepare (.key key) ∧ splitNestedPath p ≠ []))
    (hupdate : updateDict [(p, v)] state =
      match b.write (.key key) v with
      | .ok new => (modify (pathParts p) new (.dict state), none)
      | .error e => (root, some e)) :
    UpdateLaw state p v ↔ Takes state p v (.dict entries) (.key key) := by
  obtain ⟨written, hwrite, hread⟩ := read_write_key hv hb
  rw [hwrite] at hupdate
  rw [Takes, ← hread]
  constructor
  · exact write_of_law hsplit h hlast hupdate
  · intro hread
    obtain ⟨after, hafter⟩ := modify_dict h fun _ => ⟨written, rfl⟩
    refine law_of_write hsplit h hlast (hb.imp And.left And.left) hwrite hupdate hafter hread ?_
    intro i hi
    rw [hlast] at hi
    cases hi

theorem updateLaw_index {items : List Value} {i : Int} {root : Value}
    (hsplit : splitRaises p = false)
    (h : lastContainer? (pathParts p) (.dict state) = some (.list items))
    (hlast : (pathParts p).getLast? = some (.index i))
    (hb : b = (Value.list items).prepare (.index i))
    (hupdate : updateDict [(p, v)] state =
      match b.write (.index i) v with
      | .ok new => (modify (pathParts p) new (.dict state), none)
      | .error e => (root, some e)) :
    UpdateLaw state p v ↔ Takes state p v (.list items) (.index i) := by
  subst hb
  have hmodify : ∀ new : Value, ∃ after, modify (pathParts p) new (.dict state) = .dict after := by
    intro new
    exact modify_dict h fun ⟨es, hes⟩ => by cases hes
  have hempty : (Value.dict state).follow (pathParts p).dropLast = none → items = [] :=
    fun habsent => Value.list.inj (lastContainer?_absent h hlast habsent)
  rw [Takes]
  cases hnull : v.isNull with
  | true =>
    obtain rfl : v = .null := by
      cases v with
      | null => rfl
      | _ => cases hnull
    obtain ⟨hwrite, hsame⟩ := read_write_null items i
    rw [hwrite] at hupdate
    rw [if_pos rfl]
    constructor
    · intro hlaw
      have hread := write_of_law hsplit h hlast hupdate hlaw
      rw [hsame] at hread
      refine ⟨hread, fun hi habsent => ?_⟩
      obtain rfl := hempty habsent
      have hpad : padTo [] i = [] := by
        have hzero : (i + 1).toNat = 0 := by omega
        simp [padTo, hzero]
      rw [hpad] at hupdate
      exact not_law_of_absent hi h hlast habsent hupdate hlaw
    · rintro ⟨hread, hplace⟩
      obtain ⟨after, hafter⟩ := hmodify (.list (padTo items i))
      refine law_of_write hsplit h hlast (Or.inr rfl) hwrite hupdate hafter (hsame.trans hread) ?_
      intro j hj hneg
      rw [hlast] at hj
      cases hj
      exact hplace hneg
  | false =>
    rw [if_neg Bool.false_ne_true]
    rcases read_write_index hnull items i with ⟨hover, hwrite⟩ | ⟨hover, new, hwrite, hread⟩
    · rw [hwrite] at hupdate
      refine iff_of_false ?_ (fun h => by rw [hover] at h; cases h.1)
      rintro ⟨after, hafter, _⟩
      rw [hupdate] at hafter
      cases hafter
    · rw [hwrite] at hupdate
      rw [hover, ← hread]
      constructor
      · exact fun hlaw => ⟨rfl, write_of_law hsplit h hlast hupdate hlaw⟩
      · rintro ⟨_, hread⟩
        obtain ⟨after, hafter⟩ := hmodify new
        refine law_of_write hsplit h hlast (Or.inr rfl) hwrite hupdate hafter hread ?_
        intro j hj hneg habsent
        rw [hlast] at hj
        cases hj
        obtain rfl := hempty habsent
        exact absurd ((part?_empty i).2.mp hover) (by omega)

end Law

/-- With a plain value, the law holds exactly where the path can be split, leads to a container
and the container takes the value. -/
theorem updateLaw_iff_settles (state : List (String × Value)) (p : String) (v : Value)
    (hv : v.Plain) : UpdateLaw state p v ↔ Settles state p v := by
  by_cases hsplit : splitRaises p = true
  · refine iff_of_false (fun ⟨after, h, _⟩ => ?_) (fun ⟨h, _⟩ => by rw [hsplit] at h; cases h)
    exact updateDict_fails (Or.inl hsplit) (by rw [h])
  have hsplit := Bool.eq_false_iff.mpr hsplit
  cases h : lastContainer? (pathParts p) (.dict state) with
  | none =>
    refine iff_of_false (fun ⟨after, hafter, _⟩ => ?_) (fun ⟨_, cont, last, hcont, _⟩ => ?_)
    · exact updateDict_fails (Or.inr h) (by rw [hafter])
    · rw [h] at hcont
      cases hcont
  | some cont =>
    obtain ⟨last, hlast⟩ := pathParts_getLast p
    have hsettles : Settles state p v ↔ Takes state p v cont last := by
      constructor
      · rintro ⟨_, cont', last', hcont, hlast', htakes⟩
        rw [h] at hcont
        rw [hlast] at hlast'
        cases hcont
        cases hlast'
        exact htakes
      · exact fun htakes => ⟨hsplit, cont, last, h, hlast, htakes⟩
    rw [hsettles]
    obtain ⟨b, root, hb, hupdate⟩ := updateDict_path hv hsplit h hlast
    obtain ⟨entries, key, rfl, rfl⟩ | ⟨items, i, rfl, rfl⟩ :=
      fits_cases (lastContainer?_fits h hlast)
    · exact updateLaw_key hv hsplit h hlast (hb.imp_left (And.imp_right not_not.mpr)) hupdate
    · have hprepared := (hb.resolve_left fun hplain => split_of_index hlast hplain.2).1
      exact updateLaw_index hsplit h hlast hprepared hupdate

/-- A dictionary that merges into the dictionary at an item whose index the list also holds. -/
theorem updateLaw_iff_settles_item :
    (Value.dict [("c", .num 2)]).Plain ∧
      (UpdateLaw [("a", .list [.num 1, .dict [("b", .num 1)]])] "a[1]" (.dict [("c", .num 2)]) ↔
        Settles [("a", .list [.num 1, .dict [("b", .num 1)]])] "a[1]" (.dict [("c", .num 2)])) :=
  have hplain : (Value.dict [("c", .num 2)]).Plain :=
    ⟨by decide, ⟨by decide, by decide⟩, trivial, trivial⟩
  ⟨hplain, updateLaw_iff_settles _ _ _ hplain⟩

/-- A key behind an index that nothing holds yet. -/
theorem update_behind_index_raises :
    (updateDict [("a[0].b", .num 1)] []).2 = some .typeError ∧
      ¬ UpdateLaw [] "a[0].b" (.num 1) := by
  have hraises : (updateDict [("a[0].b", .num 1)] []).2 = some .typeError := by rfl
  refine ⟨hraises, ?_⟩
  rintro ⟨after, hafter, _⟩
  rw [hafter] at hraises
  cases hraises

end JiuwenSpec.Session

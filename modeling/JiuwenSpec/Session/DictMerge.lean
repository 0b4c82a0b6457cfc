import JiuwenSpec.Session.UpdateDict

/-!
# Updating with plain values

A plain value holds no key that is split. Building it leaves it as it is, and an update of a
dictionary with plain entries merges: dictionaries merge into dictionaries, other values replace
what was there, and `None` deletes. From that follows what an update with a single plain value
does to the container its path leads to.
Source: `core/session/utils.py`.
-/

namespace JiuwenSpec.Session

open List

def PlainKey (key : String) : Prop := splitNestedPath key = [] ∧ splitRaises key = false

mutual

/-- No key inside the value is split, and every dictionary has a key once. -/
def Value.Plain : Value → Prop
  | .list items => PlainItems items
  | .dict entries => (entries.map Prod.fst).Nodup ∧ PlainEntries entries
  | _ => True

def PlainItems : List Value → Prop
  | [] => True
  | v :: rest => v.Plain ∧ PlainItems rest

def PlainEntries : List (String × Value) → Prop
  | [] => True
  | (key, v) :: rest => PlainKey key ∧ v.Plain ∧ PlainEntries rest

end

/-- `None`. -/
def Value.isNull : Value → Bool
  | .null => true
  | _ => false

def dropNulls (update entries : List (String × Value)) : List (String × Value) :=
  entries.filter fun e => !update.any fun x => x.1 == e.1 && x.2.isNull

mutual

/-- A value merged with the one it replaces: a dictionary with a dictionary, `None` deleting. -/
def mergeValue : Value → Option Value → Value
  | .dict u, some (.dict o) => .dict (dropNulls u (mergeInto u o))
  | v, _ => v

def mergeInto : List (String × Value) → List (String × Value) → List (String × Value)
  | [], old => old
  | (key, v) :: rest, old =>
    if v.isNull then mergeInto rest old
    else mergeInto rest (entrySet key (mergeValue v (entryGet? key old)) old)

end

def mergeDicts (update old : List (String × Value)) : List (String × Value) :=
  dropNulls update (mergeInto update old)

example : mergeDicts [("a", .null), ("b", .dict [("c", .num 1)])]
    [("a", .num 0), ("b", .dict [("d", .num 2)])] =
    [("b", .dict [("d", .num 2), ("c", .num 1)])] := by rfl

theorem rootToPath_plain {key : String} (h : PlainKey key) (source : Value) (create : Bool) :
    rootToPath key source create = (source, .found [] (.key key)) := by
  rw [rootToPath, h.1, h.2]
  rfl

theorem entrySet_new {key : String} {entries : List (String × Value)}
    (h : key ∉ entries.map Prod.fst) (v : Value) :
    entrySet key v entries = entries ++ [(key, v)] := by
  induction entries with
  | nil => rfl
  | cons e rest ih =>
    obtain ⟨k, w⟩ := e
    simp only [map_cons, mem_cons, not_or] at h
    rw [entrySet, if_neg (Ne.symm h.1), ih h.2, cons_append]

mutual

theorem expand_plain : ∀ {v : Value}, v.Plain → expandNestedStructure v = .ok v
  | .list items, h => by
    rw [expandNestedStructure, expandItems_plain h]
    rfl
  | .dict entries, h => by
    rw [expandNestedStructure, expandEntries_plain h.2 [] (by simpa using h.1), nil_append]
  | .null, _ => rfl
  | .bool _, _ => rfl
  | .num _, _ => rfl
  | .str _, _ => rfl

theorem expandItems_plain : ∀ {items : List Value}, PlainItems items → expandItems items = .ok items
  | [], _ => rfl
  | v :: rest, h => by rw [expandItems, expand_plain h.1, expandItems_plain h.2]

theorem expandEntries_plain : ∀ {entries : List (String × Value)}, PlainEntries entries →
    ∀ done : List (String × Value), ((done ++ entries).map Prod.fst).Nodup →
      expandEntries (.dict done) entries = .ok (.dict (done ++ entries))
  | [], _, done, _ => by rw [expandEntries, append_nil]
  | (key, v) :: rest, h, done, hnd => by
    have hnew : key ∉ done.map Prod.fst := by
      rw [map_append, map_cons] at hnd
      exact fun hmem => (nodup_append.mp hnd).2.2 key hmem key mem_cons_self rfl
    rw [expandEntries, rootToPath_plain h.1, expand_plain h.2.1]
    simp only [assignInto, Value.at?, Value.setAt, entrySet_new hnew]
    rw [expandEntries_plain h.2.2 (done ++ [(key, v)]) (by simpa using hnd), append_assoc,
      singleton_append]

end

theorem setAt_append {c : Address} {root cont : Value} (h : Value.at? c root = some cont) (s : Step)
    {child : Value} (hs : cont.child? s = some child) (new : Value) :
    Value.setAt (c ++ [s]) new root = Value.setAt c (cont.setChild s new) root := by
  induction c generalizing root with
  | nil =>
    cases h
    simp [Value.setAt, hs]
  | cons first c ih =>
    rw [Value.at?] at h
    obtain ⟨inner, hinner, hat⟩ := Option.bind_eq_some_iff.mp h
    rw [cons_append, Value.setAt, Value.setAt, hinner]
    dsimp only
    rw [ih hat]

def nullKeys (update : List (String × Value)) : List String :=
  (update.filter fun e => e.2.isNull).map Prod.fst

theorem nullKeys_cons (key : String) (v : Value) (rest : List (String × Value)) :
    nullKeys ((key, v) :: rest) = if v.isNull then key :: nullKeys rest else nullKeys rest := by
  cases hnull : v.isNull <;> simp [nullKeys, hnull]

def removal (key : String) : Removal := some ([], .key key)

theorem dropNulls_eq (update entries : List (String × Value)) :
    dropNulls update entries = entries.filter fun e => e.1 ∉ nullKeys update := by
  refine filter_congr fun e _ => ?_
  rw [Bool.eq_iff_iff, decide_eq_true_iff]
  simp only [nullKeys, Bool.not_eq_true', any_eq_false, Bool.and_eq_true, beq_iff_eq,
    mem_map, mem_filter]
  exact ⟨fun h ⟨x, hx, hk⟩ => h x hx.1 ⟨hk, hx.2⟩, fun h x hx hk => h ⟨x, ⟨hx, hk.2⟩, hk.1⟩⟩

theorem runRemovals_keys (keys : List String) (entries : List (String × Value))
    (places : List Address) :
    ∃ places', runRemovals { value := .dict entries, replaced := places } (keys.map removal) =
      { value := .dict (entries.filter fun e => e.1 ∉ keys), replaced := places' } := by
  induction keys generalizing entries places with
  | nil => exact ⟨places, by rw [filter_eq_self.mpr (by simp)]; rfl⟩
  | cons key keys ih =>
    rw [map_cons, runRemovals]
    simp only [removal, deleteByKey, Value.at?, Value.setAt]
    obtain ⟨places', h⟩ := ih (entryDelete key entries) (places ++ [[] ++ [.key key]])
    refine ⟨places', h.trans ?_⟩
    rw [entryDelete, filter_filter]
    simp [Bool.and_comm]

theorem dropDetached_root {places : List Address} (h : [] ∉ places) (keys : List String) :
    dropDetached places (keys.map removal) = keys.map removal := by
  refine filter_eq_self.mpr fun r hr => ?_
  obtain ⟨key, _, rfl⟩ := mem_map.mp hr
  simp only [removal, all_eq_true, Bool.not_eq_true']
  intro place hplace
  cases place with
  | nil => exact absurd hplace h
  | cons s place => rfl

mutual

theorem updateByKey_key : ∀ {v : Value}, v.Plain → v.isNull = false → ∀ {root : Value}
    {c : Address} {entries : List (String × Value)}, Value.at? c root = some (.dict entries) →
    ∀ key, ∃ places, [] ∉ places ∧ updateByKey v root c (.key key) =
      { value := Value.setAt c
          (.dict (entrySet key (mergeValue v (entryGet? key entries)) entries)) root
        replaced := places }
  | .dict u, h, _, root, c, entries, hat, key => by
    rw [updateByKey, hat]
    simp only [Option.getD_some, existingChild]
    cases hget : entryGet? key entries with
    | none =>
      refine ⟨[c ++ [.key key]], by simp, ?_⟩
      simp [assignExpanded, expand_plain h, assignInto, hat, mergeValue]
    | some old =>
      cases old with
      | dict o =>
        obtain ⟨places, hu⟩ := updateDict_plain h.2 o
        refine ⟨places.map (c ++ [.key key] ++ ·), by simp, ?_⟩
        simp only [Option.map_some, hu, Outcome.lift]
        rw [setAt_append hat (.key key) (by rw [Value.child?, hget])]
        rfl
      | _ =>
        refine ⟨[c ++ [.key key]], by simp, ?_⟩
        simp [assignExpanded, expand_plain h, assignInto, hat, mergeValue]
  | .list items, h, _, root, c, entries, hat, key => by
    refine ⟨[c ++ [.key key]], by simp, ?_⟩
    rw [updateByKey, hat]
    simp [existingChild, assignExpanded, expand_plain h, assignInto, hat, mergeValue]
  | .bool b, h, _, root, c, entries, hat, key => by
    refine ⟨[c ++ [.key key]], by simp, ?_⟩
    rw [updateByKey, hat]
    simp [existingChild, assignExpanded, expand_plain h, assignInto, hat, mergeValue]
  | .num i, h, _, root, c, entries, hat, key => by
    refine ⟨[c ++ [.key key]], by simp, ?_⟩
    rw [updateByKey, hat]
    simp [existingChild, assignExpanded, expand_plain h, assignInto, hat, mergeValue]
  | .str s, h, _, root, c, entries, hat, key => by
    refine ⟨[c ++ [.key key]], by simp, ?_⟩
    rw [updateByKey, hat]
    simp [existingChild, assignExpanded, expand_plain h, assignInto, hat, mergeValue]

theorem updateEntries_plain : ∀ {u : List (String × Value)}, PlainEntries u →
    ∀ (entries : List (String × Value)) (places : List Address) (keys : List String),
    ∃ places', updateEntries u { value := .dict entries, replaced := places } (keys.map removal) =
      runRemovals { value := .dict (mergeInto u entries), replaced := places' }
        ((keys ++ nullKeys u).map removal)
  | [], _, entries, places, keys => ⟨places, by simp [updateEntries, mergeInto, nullKeys]⟩
  | (key, v) :: rest, h, entries, places, keys => by
    rw [updateEntries, rootToPath_plain h.1]
    cases hnull : v.isNull with
    | true =>
      obtain ⟨places', hrest⟩ := updateEntries_plain h.2.2 entries places (keys ++ [key])
      refine ⟨places', ?_⟩
      have hkeys : keys ++ key :: nullKeys rest = keys ++ [key] ++ nullKeys rest := by simp
      rw [nullKeys_cons, hnull, mergeInto, hnull, if_pos rfl, if_pos rfl, hkeys, ← hrest,
        map_append]
      cases v with
      | null => rfl
      | _ => cases hnull
    | false =>
      have hat : Value.at? [] (.dict entries) = some (.dict entries) := rfl
      obtain ⟨new, hplaces, hstep⟩ := updateByKey_key h.2.1 hnull hat key
      obtain ⟨places', hrest⟩ := updateEntries_plain h.2.2
        (entrySet key (mergeValue v (entryGet? key entries)) entries) (places ++ new) keys
      refine ⟨places', ?_⟩
      rw [nullKeys_cons, hnull, mergeInto, hnull, if_neg Bool.false_ne_true,
        if_neg Bool.false_ne_true, ← hrest]
      cases v with
      | null => cases hnull
      | _ => simp only [hstep, Value.setAt, dropDetached_root hplaces]

theorem updateDict_plain : ∀ {u : List (String × Value)}, PlainEntries u →
    ∀ entries : List (String × Value), ∃ places,
      updateEntries u { value := .dict entries } [] =
        { value := .dict (mergeDicts u entries), replaced := places }
  | u, h, entries => by
    obtain ⟨places, hrun⟩ := updateEntries_plain h entries [] []
    obtain ⟨places', hremove⟩ := runRemovals_keys (nullKeys u) (mergeInto u entries) places
    refine ⟨places', ?_⟩
    rw [map_nil, nil_append] at hrun
    rw [hrun, hremove, mergeDicts, dropNulls_eq]

end

theorem entryGet?_eq_none {key : String} {entries : List (String × Value)}
    (h : key ∉ entries.map Prod.fst) : entryGet? key entries = none := by
  induction entries with
  | nil => rfl
  | cons e rest ih =>
    obtain ⟨k, w⟩ := e
    simp only [map_cons, mem_cons, not_or] at h
    rw [entryGet?, if_neg (Ne.symm h.1), ih h.2]

theorem mergeDicts_empty {u : List (String × Value)} (hnd : (u.map Prod.fst).Nodup) :
    mergeDicts u [] = u ↔ nullKeys u = [] := by
  have hmerge : ∀ (u done : List (String × Value)), ((done ++ u).map Prod.fst).Nodup →
      nullKeys u = [] → mergeInto u done = done ++ u := by
    intro u
    induction u with
    | nil => simp [mergeInto]
    | cons e rest ih =>
      obtain ⟨key, v⟩ := e
      intro done hnd hnull
      rw [nullKeys_cons] at hnull
      cases hv : v.isNull with
      | true =>
        rw [hv] at hnull
        cases hnull
      | false =>
        rw [hv, if_neg Bool.false_ne_true] at hnull
        have hnew : key ∉ done.map Prod.fst := by
          rw [map_append, map_cons] at hnd
          exact fun hmem => (nodup_append.mp hnd).2.2 key hmem key mem_cons_self rfl
        have hget : entryGet? key done = none := entryGet?_eq_none hnew
        have hval : mergeValue v none = v := by cases v <;> rfl
        rw [mergeInto, hv, if_neg Bool.false_ne_true, hget, hval, entrySet_new hnew,
          ih _ (by simpa using hnd) hnull, append_assoc, singleton_append]
  constructor
  · intro h
    refine eq_nil_iff_forall_not_mem.mpr fun key hkey => ?_
    obtain ⟨e, he, rfl⟩ := mem_map.mp hkey
    have hmem : e ∈ mergeDicts u [] := by
      rw [h]
      exact (mem_filter.mp he).1
    rw [mergeDicts, dropNulls_eq] at hmem
    exact of_decide_eq_true (mem_filter.mp hmem).2 hkey
  · intro h
    rw [mergeDicts, dropNulls_eq, h, hmerge u [] (by simpa using hnd) h]
    simp

/-- The container takes the kind of part: a key in a dictionary, an index in a list. -/
def Value.fits : Value → PathPart → Bool
  | .dict _, .key _ => true
  | .list _, .index _ => true
  | _, _ => false

/-- What an update with a plain value makes of the container of its place. -/
def Value.write (cont : Value) (last : PathPart) (v : Value) : Except PathError Value :=
  match cont, last with
  | .dict entries, .key key =>
    .ok (.dict (if v.isNull then entryDelete key entries
      else entrySet key (mergeValue v (entryGet? key entries)) entries))
  | .list items, .index i =>
    if v.isNull then .ok (.list items)
    else
      match Value.position? items.length i with
      | none => .error .indexError
      | some n =>
        let new := if Value.holdsInt items i then mergeValue v (some (items.getD n .null)) else v
        .ok (.list (items.set n new))
  | _, _ => .error .typeError

theorem setAt_self {c : Address} {root cont : Value} (h : Value.at? c root = some cont) :
    Value.setAt c cont root = root := by
  have hset : ∀ {v : Value} {s : Step} {child : Value}, v.child? s = some child →
      v.setChild s child = v := by
    intro v s child hchild
    cases v <;> cases s <;> try cases hchild
    · next items n =>
      obtain ⟨hn, rfl⟩ := List.getElem?_eq_some_iff.mp hchild
      rw [Value.setChild, set_getElem_self]
    · next entries name =>
      rw [Value.setChild]
      refine congrArg _ ?_
      rw [Value.child?] at hchild
      induction entries with
      | nil => cases hchild
      | cons e rest ih =>
        obtain ⟨k, w⟩ := e
        rw [entryGet?] at hchild
        rw [entrySet]
        split
        · next hk =>
          rw [if_pos hk] at hchild
          cases hchild
          rfl
        · next hk =>
          rw [if_neg hk] at hchild
          rw [ih hchild]
  induction c generalizing root with
  | nil =>
    cases h
    rfl
  | cons s c ih =>
    rw [Value.at?] at h
    obtain ⟨inner, hinner, hat⟩ := Option.bind_eq_some_iff.mp h
    rw [Value.setAt, hinner]
    dsimp only
    rw [ih hat, hset hinner]

theorem updateByKey_index {v : Value} (h : v.Plain) (hnull : v.isNull = false) {root : Value}
    {c : Address} {items : List Value} (hat : Value.at? c root = some (.list items)) (i : Int) :
    ∃ places, updateByKey v root c (.index i) =
      match (Value.list items).write (.index i) v with
      | .ok new => { value := Value.setAt c new root, replaced := places }
      | .error e => { value := root, error := some e } := by
  rw [updateByKey, hat, Value.write, hnull]
  simp only [Option.getD_some, existingChild, if_neg Bool.false_ne_true]
  cases hpos : Value.position? items.length i with
  | none =>
    cases hholds : Value.holdsInt items i with
    | true => exact ⟨[], by simp⟩
    | false =>
      refine ⟨[], ?_⟩
      cases v with
      | null => cases hnull
      | _ => simp [assignExpanded, expand_plain h, assignInto, hat, hpos]
  | some n =>
    cases hholds : Value.holdsInt items i with
    | false =>
      refine ⟨[c ++ [.item n]], ?_⟩
      cases v with
      | null => cases hnull
      | _ => simp [assignExpanded, expand_plain h, assignInto, hat, hpos]
    | true =>
      simp only [if_true]
      cases v with
      | null => cases hnull
      | dict u =>
        cases hold : items.getD n .null with
        | dict o =>
          obtain ⟨places, hu⟩ := updateDict_plain h.2 o
          have hn : items[n]? = some (.dict o) := by
            rw [getD_eq_getElem?_getD] at hold
            cases hget : items[n]? with
            | none =>
              rw [hget] at hold
              cases hold
            | some w =>
              rw [hget] at hold
              exact congrArg some hold
          refine ⟨places.map (c ++ [.item n] ++ ·), ?_⟩
          simp only [hu, Outcome.lift]
          rw [setAt_append hat (.item n) (by rw [Value.child?, hn])]
          rfl
        | _ =>
          refine ⟨[c ++ [.item n]], ?_⟩
          simp [assignExpanded, expand_plain h, assignInto, hat, hpos, mergeValue]
      | _ =>
        refine ⟨[c ++ [.item n]], ?_⟩
        simp [assignExpanded, expand_plain h, assignInto, hat, hpos, mergeValue]

theorem updateDict_single {p : String} {v : Value} (h : v.Plain)
    {source : List (String × Value)} {root cont : Value} {c : Address} {last : PathPart}
    (hwalk : rootToPath p (.dict source) true = (root, .found c last))
    (hat : Value.at? c root = some cont) (hfits : cont.fits last = true) :
    updateDict [(p, v)] source =
      match cont.write last v with
      | .ok new => (Value.setAt c new root, none)
      | .error e => (root, some e) := by
  rw [updateDict, updateEntries, hwalk]
  cases hnull : v.isNull with
  | true =>
    cases v <;> try cases hnull
    cases cont <;> cases last <;> try cases hfits
    · simp only [updateEntries, nil_append, runRemovals, deleteByKey, Value.write, if_true,
        Value.isNull, setAt_self hat]
    · simp only [updateEntries, nil_append, runRemovals, deleteByKey, Value.write, if_true,
        Value.isNull, hat]
  | false =>
    cases cont <;> cases last <;> try cases hfits
    · next items i =>
      obtain ⟨places, hstep⟩ := updateByKey_index h hnull hat i
      cases hwrite : (Value.list items).write (.index i) v with
      | ok new =>
        rw [hwrite] at hstep
        cases v with
        | null => cases hnull
        | _ => simp [hstep, dropDetached, updateEntries, runRemovals]
      | error e =>
        rw [hwrite] at hstep
        cases v with
        | null => cases hnull
        | _ => simp [hstep]
    · next entries key =>
      obtain ⟨places, _, hstep⟩ := updateByKey_key h hnull hat key
      cases v with
      | null => cases hnull
      | _ => simp [hstep, dropDetached, updateEntries, runRemovals, Value.write, Value.isNull]

end JiuwenSpec.Session

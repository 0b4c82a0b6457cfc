import JiuwenSpec.Session.PathRead
import JiuwenSpec.Session.DictMerge

/-!
# The container of a path

A walk that creates what is absent ends at the container of the last part of its path, exactly if
every part fits what it is applied to. What is read afterwards, at the path and at paths that part
from it, follows from what is put in the place of that container.
Source: `core/session/utils.py`.
-/

namespace JiuwenSpec.Session

open List Option

/-- The child that a creating walk enters, behind which it follows more parts. -/
def Value.enter (v : Value) (part : PathPart) (rest : List PathPart) : Option Value :=
  match v, part with
  | .dict entries, .key key => some ((entryGet? key entries).getD (freshContainer rest))
  | v, .index i => v.part? (.index i)
  | _, _ => none

def lastContainer? : List PathPart → Value → Option Value
  | [], _ => none
  | [part], v => if v.fits part then some v else none
  | part :: rest, v => (v.enter part rest).bind (lastContainer? rest)

def Value.setPart (v : Value) (part : PathPart) (new : Value) : Value :=
  match v, part with
  | .dict entries, .key key => .dict (entrySet key new entries)
  | .list items, .index i =>
    match Value.position? items.length i with
    | some n => .list (items.set n new)
    | none => v
  | _, _ => v

def modify : List PathPart → Value → Value → Value
  | [], _, v => v
  | [_], new, _ => new
  | part :: rest, new, v =>
    match v.enter part rest with
    | some child => v.setPart part (modify rest new child)
    | none => v

def padTo (items : List Value) (i : Int) : List Value :=
  items ++ List.replicate (i + 1 - items.length).toNat .null

/-- A container as the walk leaves it: the key is there, or the list is long enough. -/
def Value.prepare (v : Value) (last : PathPart) : Value :=
  match v, last with
  | .dict entries, .key key =>
    .dict (entrySet key ((entryGet? key entries).getD (.dict [])) entries)
  | .list items, .index i =>
    .list (padTo items i)
  | _, _ => v

theorem entrySet_entrySet (key : String) (a b : Value) (entries : List (String × Value)) :
    entrySet key a (entrySet key b entries) = entrySet key a entries := by
  induction entries with
  | nil => simp [entrySet]
  | cons e rest ih =>
    obtain ⟨k, w⟩ := e
    by_cases hk : k = key
    · simp [entrySet, hk]
    · simp [entrySet, hk, ih]

variable {i : Int}

theorem position?_bounds {length n : Nat} (h : Value.position? length i = some n) :
    n < length ∧ i < length := by
  rw [Value.position?] at h
  split at h
  · split at h
    · cases h
      omega
    · cases h
  · split at h
    · cases h
      omega
    · cases h

variable {v : Value} {part : PathPart}

theorem fits_cases (h : v.fits part = true) :
    (∃ entries key, v = .dict entries ∧ part = .key key) ∨
      ∃ items i, v = .list items ∧ part = .index i := by
  cases v with
  | dict entries =>
    cases part with
    | key key => exact Or.inl ⟨entries, key, rfl, rfl⟩
    | index i => cases h
  | list items =>
    cases part with
    | key key => cases h
    | index i => exact Or.inr ⟨items, i, rfl, rfl⟩
  | _ => cases part <;> cases h

theorem walk_misfit (h : v.fits part = false)
    (rest : List PathPart) (create : Bool) : walk create (part :: rest) v = (v, .notFound) := by
  cases v with
  | dict entries =>
    cases part with
    | key key => cases h
    | index i => simp [walk]
  | list items =>
    cases part with
    | key key => simp [walk]
    | index i => cases h
  | _ => cases part <;> simp [walk]

variable {parts : List PathPart} {cont : Value}

theorem walk_lastContainer (h : lastContainer? parts v = some cont) :
    ∃ (root : Value) (c : Address) (last : PathPart), parts.getLast? = some last ∧
      cont.fits last = true ∧ walk true parts v = (root, .found c last) ∧
      Value.at? c root = some (cont.prepare last) ∧
      ∀ new, Value.setAt c new root = modify parts new v := by
  induction parts generalizing v with
  | nil => cases h
  | cons part rest ih =>
    cases rest with
    | nil =>
      rw [lastContainer?] at h
      split at h
      · next hfits =>
        cases h
        refine ⟨cont.prepare part, [], part, rfl, hfits, ?_, rfl, fun new => rfl⟩
        obtain ⟨entries, key, rfl, rfl⟩ | ⟨items, i, rfl, rfl⟩ := fits_cases hfits
        · simp [walk, Value.prepare, freshContainer]
        · rw [walk]
          simp only [and_false, if_false, Bool.true_eq_false]
          rfl
      · cases h
    | cons next rest =>
      rw [lastContainer?] at h
      · obtain ⟨child, henter, hchild⟩ := bind_eq_some_iff.mp h
        obtain ⟨root, c, last, hlast, hfits, hwalk, hat, hset⟩ := ih hchild
        rw [List.getLast?_cons_cons]
        cases part with
        | key key =>
          cases v with
          | dict entries =>
            rw [Value.enter, some.injEq] at henter
            refine ⟨.dict (entrySet key root entries), .key key :: c, last, hlast, hfits, ?_, ?_,
              ?_⟩
            · simp [walk, henter, hwalk, Walk.under, entrySet_entrySet]
            · rw [Value.at?, Value.child?, entryGet?_entrySet, if_pos rfl]
              exact hat
            · intro new
              rw [Value.setAt, Value.child?, entryGet?_entrySet, if_pos rfl, modify]
              · simp [Value.enter, henter, Value.setChild, Value.setPart, entrySet_entrySet, hset]
              · simp
          | _ => cases henter
        | index i =>
          cases v with
          | list items =>
            rw [Value.enter, Value.part?] at henter
            · obtain ⟨n, hpos, hget⟩ := bind_eq_some_iff.mp henter
              obtain ⟨hn, hi⟩ := position?_bounds hpos
              have hpad : (i + 1 - items.length).toNat = 0 := by omega
              refine ⟨.list (items.set n root), .item n :: c, last, hlast, hfits, ?_, ?_, ?_⟩
              · have hgetD : items.getD n .null = child := by
                  rw [getD_eq_getElem?_getD, hget, getD_some]
                simp [walk, hpad, hpos, hget, hwalk, Walk.under]
              · rw [Value.at?, Value.child?, List.getElem?_set_self hn]
                exact hat
              · intro new
                rw [Value.setAt, Value.child?, List.getElem?_set_self hn, modify]
                · simp [Value.enter, Value.part?, hpos, hget, Value.setChild, Value.setPart, hset]
                · simp
          | _ => cases henter
      · simp

variable {last : PathPart}

theorem under_found {s : Step} {w : Walk} {c : Address}
    (h : w.under s = .found c last) : ∃ c', w = .found c' last := by
  cases w with
  | found c' last' =>
    cases h
    exact ⟨c', rfl⟩
  | _ => cases h

theorem walk_key (key : String) (next : PathPart) (rest : List PathPart)
    (entries : List (String × Value)) :
    (walk true (.key key :: next :: rest) (.dict entries)).2 =
      (walk true (next :: rest)
        ((entryGet? key entries).getD (freshContainer (next :: rest)))).2.under (.key key) := by
  simp [walk]

variable {items : List Value}

theorem padTo_of_lt (h : i < items.length) : padTo items i = items := by
  have hpad : (i + 1 - items.length).toNat = 0 := by omega
  rw [padTo, hpad, replicate_zero, append_nil]

theorem padTo_getD {n : Nat} (h : (items.length : Int) ≤ i)
    (hpos : Value.position? (padTo items i).length i = some n) :
    (padTo items i).getD n .null = .null := by
  have h0 : 0 ≤ i := by omega
  have hn : items.length ≤ n := by
    rw [Value.position?, if_pos h0] at hpos
    split at hpos
    · cases hpos
      omega
    · cases hpos
  rw [padTo, getD_eq_getElem?_getD, List.getElem?_append_right hn]
  cases hget : (List.replicate (i + 1 - items.length).toNat Value.null)[n - items.length]? with
  | none => rfl
  | some w => exact eq_of_mem_replicate (mem_of_getElem? hget)

theorem walk_index (i : Int) (next : PathPart) (rest : List PathPart) (items : List Value) :
    (walk true (.index i :: next :: rest) (.list items)).2 =
      match Value.position? (padTo items i).length i with
      | none => .raised .indexError
      | some n => (walk true (next :: rest) ((padTo items i).getD n .null)).2.under (.item n) := by
  rw [walk, padTo]
  simp only [and_false, if_false, Bool.true_eq_false]
  cases Value.position? (items ++ List.replicate (i + 1 - items.length).toNat Value.null).length
    i <;> rfl

theorem walk_found_cons {next : PathPart} {rest : List PathPart} {root : Value} {c : Address}
    (h : walk true (part :: next :: rest) v = (root, .found c last)) :
    ∃ child inner c', v.enter part (next :: rest) = some child ∧
      walk true (next :: rest) child = (inner, .found c' last) := by
  by_cases hfits : v.fits part = true
  · obtain ⟨entries, key, rfl, rfl⟩ | ⟨items, i, rfl, rfl⟩ := fits_cases hfits
    · obtain ⟨c', hc⟩ := under_found ((walk_key key next rest entries).symm.trans
        (congrArg Prod.snd h))
      exact ⟨_, _, c', rfl, Prod.ext rfl hc⟩
    · have hsnd := (walk_index i next rest items).symm.trans (congrArg Prod.snd h)
      cases hpos : Value.position? (padTo items i).length i with
      | none =>
        rw [hpos] at hsnd
        cases hsnd
      | some n =>
        rw [hpos] at hsnd
        obtain ⟨c', hc⟩ := under_found hsnd
        refine ⟨_, _, c', ?_, Prod.ext rfl hc⟩
        by_cases hi : i < items.length
        · rw [padTo_of_lt hi] at hpos ⊢
          have hn := (position?_bounds hpos).1
          simp [Value.enter, Value.part?, hpos, hn]
        · -- a list that was too short holds `None` at the index
          rw [padTo_getD (Int.not_lt.mp hi) hpos, walk_misfit (by cases next <;> rfl)] at hc
          cases hc
  · rw [walk_misfit (Bool.eq_false_iff.mpr hfits)] at h
    cases h

theorem walk_no_container
    (h : lastContainer? parts v = none) (root : Value) (c : Address) (last : PathPart) :
    walk true parts v ≠ (root, .found c last) := by
  induction parts generalizing v root c with
  | nil =>
    rw [walk]
    exact fun h => by cases h
  | cons part rest ih =>
    intro hwalk
    cases rest with
    | nil =>
      rw [lastContainer?] at h
      split at h
      · cases h
      · next hfits =>
        rw [walk_misfit (Bool.eq_false_iff.mpr hfits)] at hwalk
        cases hwalk
    | cons next rest =>
      obtain ⟨child, inner, c', henter, hinner⟩ := walk_found_cons hwalk
      rw [lastContainer?] at h
      · rw [henter, bind_some] at h
        exact ih h inner c' hinner
      · simp

def Walk.read (source : Value) : Walk → Except PathError Value
  | .raised e => .error e
  | .notFound => .ok .null
  | .found container last =>
    match Value.at? container source, last with
    | some (.list items), .index i =>
      match Value.position? items.length i with
      | some n => .ok (items.getD n .null)
      | none => .ok .null
    | some (.dict entries), .key name => .ok ((entryGet? name entries).getD .null)
    | _, _ => .ok .null

def pathParts (path : String) : List PathPart :=
  match splitNestedPath path with
  | [] => [.key path]
  | parts => parts

/-- `get_value_by_nested_path` for a path that is given by its parts. -/
def getValueAtParts (parts : List PathPart) (source : Value) : Except PathError Value :=
  (walk false parts source).2.read source

theorem getValueByNestedPath_eq {path : String} (h : splitRaises path = false)
    (source : List (String × Value)) :
    getValueByNestedPath path source = getValueAtParts (pathParts path) (.dict source) := by
  rw [getValueByNestedPath, rootToPath, h, getValueAtParts, pathParts]
  cases hsplit : splitNestedPath path with
  | nil =>
    by_cases hget : entryGet? path source = none
    · simp [walk, Walk.read, Value.at?, hget]
    · obtain ⟨w, hw⟩ := ne_none_iff_exists'.mp hget
      simp [walk, Walk.read, Value.at?, hw]
  | cons part rest => rfl

/-- An index counts back beyond the start of a list. -/
def Value.overruns (v : Value) (part : PathPart) : Bool :=
  match v, part with
  | .list items, .index i => decide (i < -(items.length : Int))
  | _, _ => false

def readParts : List PathPart → Value → Except PathError Value
  | [], _ => .ok .null
  | [part], v => .ok ((v.part? part).getD .null)
  | part :: rest, v =>
    if v.overruns part then .error .indexError
    else
      match v.part? part with
      | some child => readParts rest child
      | none => .ok .null

theorem readParts_null (parts : List PathPart) : readParts parts .null = .ok .null := by
  cases parts with
  | nil => rfl
  | cons part rest =>
    cases rest <;> simp [readParts, Value.part?, Value.overruns]

variable {child : Value}

theorem read_under {w : Walk} {s : Step} (h : v.child? s = some child) :
    (w.under s).read v = w.read child := by
  cases w with
  | found c last => simp [Walk.under, Walk.read, Value.at?, h]
  | _ => rfl

theorem part?_misfit (h : v.fits part = false) : v.part? part = none ∧ v.overruns part = false := by
  cases v with
  | dict entries =>
    cases part with
    | key key => cases h
    | index i => exact ⟨rfl, rfl⟩
  | list items =>
    cases part with
    | key key => exact ⟨rfl, rfl⟩
    | index i => cases h
  | _ => cases part <;> exact ⟨rfl, rfl⟩

theorem part?_index (h : i < items.length) :
    (i < -(items.length : Int) ∧ Value.position? items.length i = none) ∨
      ∃ n, ∃ hn : n < items.length, Value.position? items.length i = some n ∧
        (Value.list items).part? (.index i) = some items[n] ∧
        (Value.list items).overruns (.index i) = false := by
  cases hpos : Value.position? items.length i with
  | none => exact Or.inl ⟨(position?_eq_none_iff h).mp hpos, rfl⟩
  | some n =>
    have hn := (position?_bounds hpos).1
    have hover : ¬ i < -(items.length : Int) := by
      rw [← position?_eq_none_iff h, hpos]
      simp
    exact Or.inr ⟨n, hn, rfl, by simp [Value.part?, hpos, hn], by simp [Value.overruns, hover]⟩

theorem part?_index_beyond (h : (items.length : Int) ≤ i) :
    (Value.list items).part? (.index i) = none ∧
      (Value.list items).overruns (.index i) = false := by
  have hpos : Value.position? items.length i = none := by
    have h0 : 0 ≤ i := by omega
    have hlt : ¬ i.toNat < items.length := by omega
    rw [Value.position?, if_pos h0, if_neg hlt]
  refine ⟨by simp [Value.part?, hpos], ?_⟩
  simp [Value.overruns]
  omega

theorem part?_empty (i : Int) : (Value.list []).part? (.index i) = none ∧
    ((Value.list []).overruns (.index i) = false ↔ 0 ≤ i) := by
  have hpos : Value.position? 0 i = none := by
    rw [Value.position?]
    split
    · rw [if_neg (by omega)]
    · rw [if_neg (by omega)]
  refine ⟨?_, by simp [Value.overruns]⟩
  rw [Value.part?, length_nil, hpos, bind_none]

theorem walk_step_key {entries : List (String × Value)} {key : String}
    (hget : entryGet? key entries = some child) (hnull : child ≠ .null) (next : PathPart)
    (rest : List PathPart) :
    (walk false (.key key :: next :: rest) (.dict entries)).2 =
      (walk false (next :: rest) child).2.under (.key key) := by
  cases child with
  | null => exact absurd rfl hnull
  | _ => simp [walk, hget]

theorem walk_step_index (hi : i < items.length) {n : Nat}
    (hn : n < items.length) (hpos : Value.position? items.length i = some n)
    (hnull : items[n] ≠ .null) (next : PathPart) (rest : List PathPart) :
    (walk false (.index i :: next :: rest) (.list items)).2 =
      (walk false (next :: rest) items[n]).2.under (.item n) := by
  have hpad : (i + 1 - items.length).toNat = 0 := by omega
  rw [walk]
  simp only [hpad, replicate_zero, append_nil, hpos, Int.not_le.mpr hi, false_and,
    if_false, getD_eq_getElem?_getD, List.getElem?_eq_getElem hn, getD_some]
  cases hchild : items[n] with
  | null => exact absurd hchild hnull
  | _ => rfl

theorem walk_stop_key {entries : List (String × Value)} {key : String}
    (hget : (entryGet? key entries).getD .null = .null) (next : PathPart) (rest : List PathPart) :
    (walk false (.key key :: next :: rest) (.dict entries)).2 = .notFound := by
  cases hchild : entryGet? key entries with
  | none => simp [walk, hchild]
  | some child =>
    rw [hchild] at hget
    cases hget
    simp [walk, hchild]

theorem walk_stop_index (hi : i < items.length) {n : Nat}
    (hn : n < items.length) (hpos : Value.position? items.length i = some n)
    (hnull : items[n] = .null) (next : PathPart) (rest : List PathPart) :
    (walk false (.index i :: next :: rest) (.list items)).2 = .notFound := by
  have hpad : (i + 1 - items.length).toNat = 0 := by omega
  rw [walk]
  simp only [hpad, replicate_zero, append_nil, hpos, Int.not_le.mpr hi, false_and,
    if_false, getD_eq_getElem?_getD, List.getElem?_eq_getElem hn, getD_some, hnull]

theorem read_walk_single (hfits : v.fits part = true) :
    (walk false [part] v).2.read v = readParts [part] v := by
  obtain ⟨entries, key, rfl, rfl⟩ | ⟨items, i, rfl, rfl⟩ := fits_cases hfits
  · by_cases hget : entryGet? key entries = none
    · simp [walk, Walk.read, readParts, Value.part?, hget]
    · obtain ⟨w, hw⟩ := ne_none_iff_exists'.mp hget
      simp [walk, Walk.read, readParts, Value.part?, Value.at?, hw]
  · rw [readParts]
    by_cases hi : i < items.length
    · have hwalk : (walk false [.index i] (.list items)).2 = .found [] (.index i) := by
        rw [walk, if_neg (fun h => absurd h.1 (Int.not_le.mpr hi))]
      rw [hwalk]
      simp only [Walk.read, Value.at?]
      rcases part?_index hi with ⟨_, hpos⟩ | ⟨n, hn, hpos, hpart, _⟩
      · simp [Value.part?, hpos]
      · simp [hpos, hpart, hn]
    · rw [(part?_index_beyond (Int.not_lt.mp hi)).1]
      simp [walk, Int.not_lt.mp hi, Walk.read]

section

variable {next : PathPart} {rest : List PathPart}
  (ih : ∀ child, (walk false (next :: rest) child).2.read child = readParts (next :: rest) child)

include ih

theorem read_walk_key (key : String) (entries : List (String × Value)) :
    (walk false (.key key :: next :: rest) (.dict entries)).2.read (.dict entries) =
      readParts (.key key :: next :: rest) (.dict entries) := by
  have hover : (Value.dict entries).overruns (.key key) = false := rfl
  rw [readParts, hover, if_neg Bool.false_ne_true]
  · by_cases hnull : (entryGet? key entries).getD .null = .null
    · rw [walk_stop_key hnull, Value.part?]
      cases hget : entryGet? key entries with
      | none => rfl
      | some child =>
        rw [hget] at hnull
        cases hnull
        exact (readParts_null _).symm
    · cases hget : entryGet? key entries with
      | none => exact absurd (by rw [hget]; rfl) hnull
      | some child =>
        rw [hget] at hnull
        have hchild : (Value.dict entries).child? (.key key) = some child := by
          rw [Value.child?, hget]
        rw [walk_step_key hget hnull, Value.part?, hget, read_under hchild]
        exact ih child
  · simp

theorem read_walk_index (i : Int) (items : List Value) :
    (walk false (.index i :: next :: rest) (.list items)).2.read (.list items) =
      readParts (.index i :: next :: rest) (.list items) := by
  rw [readParts]
  · by_cases hi : i < items.length
    · rcases part?_index hi with ⟨hneg, hpos⟩ | ⟨n, hn, hpos, hpart, hover⟩
      · have hover : (Value.list items).overruns (.index i) = true := by
          simp [Value.overruns, hneg]
        have hpad : (i + 1 - items.length).toNat = 0 := by omega
        rw [hover, if_pos rfl, walk]
        simp [hpad, hpos, Int.not_le.mpr hi, Walk.read]
      · rw [hover, if_neg Bool.false_ne_true, hpart]
        by_cases hnull : items[n] = .null
        · rw [walk_stop_index hi hn hpos hnull, hnull]
          exact (readParts_null _).symm
        · have hchild : (Value.list items).child? (.item n) = some items[n] := by
            rw [Value.child?, List.getElem?_eq_getElem hn]
          rw [walk_step_index hi hn hpos hnull, read_under hchild]
          exact ih items[n]
    · obtain ⟨hpart, hover⟩ := part?_index_beyond (Int.not_lt.mp hi)
      rw [hover, if_neg Bool.false_ne_true, hpart, walk]
      simp [Int.not_lt.mp hi, Walk.read]
  · simp

end

theorem getValueAtParts_eq (parts : List PathPart) (v : Value) :
    getValueAtParts parts v = readParts parts v := by
  rw [getValueAtParts]
  induction parts generalizing v with
  | nil => rfl
  | cons part rest ih =>
    by_cases hfits : v.fits part = true
    · cases rest with
      | nil => exact read_walk_single hfits
      | cons next rest =>
        obtain ⟨entries, key, rfl, rfl⟩ | ⟨items, i, rfl, rfl⟩ := fits_cases hfits
        · exact read_walk_key ih key entries
        · exact read_walk_index ih i items
    · obtain ⟨hpart, hover⟩ := part?_misfit (Bool.eq_false_iff.mpr hfits)
      rw [walk_misfit (Bool.eq_false_iff.mpr hfits)]
      cases rest <;> simp [readParts, hpart, hover, Walk.read]

theorem overruns_of_part? (h : v.part? part = some child) : v.overruns part = false := by
  by_cases hfits : v.fits part = true
  · obtain ⟨entries, key, rfl, rfl⟩ | ⟨items, i, rfl, rfl⟩ := fits_cases hfits
    · rfl
    · by_cases hi : i < items.length
      · rcases part?_index hi with ⟨_, hpos⟩ | ⟨_, _, _, _, hover⟩
        · simp [Value.part?, hpos] at h
        · exact hover
      · exact (part?_index_beyond (Int.not_lt.mp hi)).2
  · exact (part?_misfit (Bool.eq_false_iff.mpr hfits)).2

theorem readParts_child (h : v.part? part = some child) {more : List PathPart} (hmore : more ≠ []) :
    readParts (part :: more) v = readParts more child := by
  obtain ⟨next, rest, rfl⟩ := exists_cons_of_ne_nil hmore
  rw [readParts, overruns_of_part? h, if_neg Bool.false_ne_true, h]
  simp

theorem readParts_absent (h : v.part? part = none)
    (hover : v.overruns part = false) (more : List PathPart) :
    readParts (part :: more) v = .ok .null := by
  cases more <;> simp [readParts, h, hover]

theorem readParts_congr {w : Value} (h : v.part? part = w.part? part)
    (hover : v.overruns part = w.overruns part) (more : List PathPart) :
    readParts (part :: more) v = readParts (part :: more) w := by
  cases more <;> simp [readParts, h, hover]

theorem enter_cases {rest : List PathPart} (h : v.enter part rest = some child) :
    v.part? part = some child ∨
      (v.part? part = none ∧ v.overruns part = false ∧ child = freshContainer rest) := by
  cases part with
  | key key =>
    cases v with
    | dict entries =>
      rw [Value.enter, some.injEq] at h
      rw [Value.part?]
      cases hget : entryGet? key entries with
      | none => exact Or.inr ⟨rfl, rfl, by rw [← h, hget]; rfl⟩
      | some w => exact Or.inl (by rw [← h, hget]; rfl)
    | _ => cases h
  | index i => cases v <;> exact Or.inl h

theorem part?_setPart {rest : List PathPart} (h : v.enter part rest = some child) (new : Value) :
    (v.setPart part new).part? part = some new := by
  cases part with
  | key key =>
    cases v with
    | dict entries => rw [Value.setPart, Value.part?, entryGet?_entrySet, if_pos rfl]
    | _ => cases h
  | index i =>
    cases v with
    | list items =>
      have hpart : (Value.list items).part? (.index i) = some child := h
      obtain ⟨n, hpos, _⟩ := bind_eq_some_iff.mp hpart
      have hn := (position?_bounds hpos).1
      simp [Value.setPart, hpos, Value.part?, hn]
    | _ => cases h

theorem readParts_modify
    (h : lastContainer? parts v = some cont) (new : Value) {tail : List PathPart}
    (htail : tail ≠ []) :
    readParts (parts.dropLast ++ tail) (modify parts new v) = readParts tail new := by
  induction parts generalizing v with
  | nil => cases h
  | cons part rest ih =>
    cases rest with
    | nil => rfl
    | cons next rest =>
      rw [lastContainer?] at h
      · obtain ⟨child, henter, hchild⟩ := bind_eq_some_iff.mp h
        rw [dropLast_cons_cons, cons_append, modify]
        · rw [henter]
          dsimp only
          rw [readParts_child (part?_setPart henter _) (by simp [htail])]
          exact ih hchild
        · simp
      · simp

theorem follow_eq (h : lastContainer? parts v = some cont) (hlast : parts.getLast? = some last) :
    v.follow parts = cont.part? last := by
  induction parts generalizing v with
  | nil => cases h
  | cons part rest ih =>
    cases rest with
    | nil =>
      rw [lastContainer?] at h
      split at h
      · cases h
        obtain rfl : part = last := some.inj hlast
        rw [Value.follow]
        cases cont.part? part <;> rfl
      · cases h
    | cons next rest =>
      rw [List.getLast?_cons_cons] at hlast
      rw [lastContainer?] at h
      · obtain ⟨child, henter, hchild⟩ := bind_eq_some_iff.mp h
        rw [Value.follow]
        rcases enter_cases henter with hpart | ⟨hpart, _, rfl⟩
        · rw [hpart, bind_some]
          exact ih hchild hlast
        · rw [hpart, bind_none, ← ih hchild hlast, Value.follow]
          have hfresh : (freshContainer (next :: rest)).part? next = none := by
            cases next with
            | key key => rfl
            | index i => exact (part?_empty i).1
          rw [hfresh, bind_none]
      · simp

theorem readParts_no_container
    (h : lastContainer? parts v = some cont) (habsent : v.follow parts.dropLast = none)
    (tail : List PathPart) : readParts (parts.dropLast ++ tail) v = .ok .null := by
  induction parts generalizing v with
  | nil => cases h
  | cons part rest ih =>
    cases rest with
    | nil => cases habsent
    | cons next rest =>
      rw [lastContainer?] at h
      · obtain ⟨child, henter, hchild⟩ := bind_eq_some_iff.mp h
        rw [dropLast_cons_cons, Value.follow] at habsent
        rw [dropLast_cons_cons, cons_append]
        rcases enter_cases henter with hpart | ⟨hpart, hover, rfl⟩
        · rw [hpart, bind_some] at habsent
          by_cases hmore : (next :: rest).dropLast ++ tail = []
          · obtain ⟨hdrop, _⟩ := append_eq_nil_iff.mp hmore
            rw [hdrop] at habsent
            cases habsent
          · rw [readParts_child hpart hmore]
            exact ih hchild habsent
        · exact readParts_absent hpart hover _
      · simp

/-- Two parts denote different children: different keys, or different indexes that count from
the same end of a list. -/
def Apart : PathPart → PathPart → Prop
  | .key a, .key b => a ≠ b
  | .index i, .index j => i ≠ j ∧ (0 ≤ i ↔ 0 ≤ j)
  | _, _ => True

def DisjointParts : List PathPart → List PathPart → Prop
  | p :: ps, q :: qs => Apart p q ∨ (p = q ∧ DisjointParts ps qs)
  | _, _ => False

theorem position?_apart {length : Nat} {j : Int} (h : Apart (.index i) (.index j)) {n m : Nat}
    (hi : Value.position? length i = some n) (hj : Value.position? length j = some m) : n ≠ m := by
  obtain ⟨hne, hsign⟩ := h
  rw [Value.position?] at hi hj
  by_cases h0 : 0 ≤ i
  · rw [if_pos h0] at hi
    rw [if_pos (hsign.mp h0)] at hj
    have hj0 := hsign.mp h0
    split at hi <;> split at hj <;> simp_all
    omega
  · rw [if_neg h0] at hi
    rw [if_neg (fun h => h0 (hsign.mpr h))] at hj
    split at hi <;> split at hj <;> simp_all
    omega

theorem part?_set_apart {j : Int} (h : Apart (.index i) (.index j)) {n : Nat}
    (hi : Value.position? items.length i = some n) (new : Value) :
    (Value.list (items.set n new)).part? (.index j) = (Value.list items).part? (.index j) := by
  rw [Value.part?, Value.part?, length_set]
  cases hj : Value.position? items.length j with
  | none => rfl
  | some m =>
    rw [bind_some, bind_some, List.getElem?_set_ne (position?_apart h hi hj)]

theorem setPart_apart {q : PathPart} {rest : List PathPart}
    (h : v.enter part rest = some child) (hq : Apart part q) (new : Value) :
    (v.setPart part new).part? q = v.part? q ∧
      (v.setPart part new).overruns q = v.overruns q := by
  cases part with
  | key key =>
    cases v with
    | dict entries =>
      cases q with
      | key other =>
        refine ⟨?_, rfl⟩
        rw [Value.setPart, Value.part?, entryGet?_entrySet, if_neg (Ne.symm hq)]
        rfl
      | index j => exact ⟨rfl, rfl⟩
    | _ => cases h
  | index i =>
    cases v with
    | list items =>
      have hpart : (Value.list items).part? (.index i) = some child := h
      obtain ⟨n, hpos, _⟩ := bind_eq_some_iff.mp hpart
      rw [Value.setPart, hpos]
      cases q with
      | key other => exact ⟨rfl, rfl⟩
      | index j => exact ⟨part?_set_apart hq hpos new, by simp [Value.overruns]⟩
    | _ => cases h

/-- A last index that counts from the end is applied to a list that is there. -/
def CountsInPlace (parts : List PathPart) (v : Value) : Prop :=
  ∀ i : Int, parts.getLast? = some (.index i) → i < 0 → v.follow parts.dropLast ≠ none

theorem readParts_fresh {q : List PathPart}
    (h : lastContainer? parts (freshContainer parts) = some cont)
    (hlast : ∀ i : Int, parts.getLast? = some (.index i) → 0 ≤ i) (hq : DisjointParts parts q) :
    readParts q (freshContainer parts) = .ok .null := by
  cases parts with
  | nil => cases h
  | cons part rest =>
    cases q with
    | nil => cases hq
    | cons first more =>
      cases part with
      | key key => exact readParts_absent (by cases first <;> rfl) (by cases first <;> rfl) more
      | index i =>
        cases rest with
        | cons next rest =>
          rw [lastContainer?] at h
          · have hempty : (freshContainer (.index i :: next :: rest)).enter (.index i)
                (next :: rest) = none := (part?_empty i).1
            rw [hempty] at h
            cases h
          · simp
        | nil =>
          have hi := hlast i rfl
          rcases hq with hapart | ⟨_, hrest⟩
          · cases first with
            | key key => exact readParts_absent rfl rfl more
            | index j =>
              obtain ⟨hpart, hover⟩ := part?_empty j
              exact readParts_absent hpart (hover.mpr (hapart.2.mp hi)) more
          · cases hrest

theorem readParts_disjoint {new : Value}
    (h : lastContainer? parts v = some cont) (hlast : parts.getLast? = some last)
    (hnew : ∀ q more, Apart last q → readParts (q :: more) new = readParts (q :: more) cont)
    (hplace : CountsInPlace parts v) {q : List PathPart} (hq : DisjointParts parts q) :
    readParts q (modify parts new v) = readParts q v := by
  induction parts generalizing v q with
  | nil => cases h
  | cons part rest ih =>
    cases q with
    | nil => cases hq
    | cons first more =>
      cases rest with
      | nil =>
        rw [lastContainer?] at h
        split at h
        · cases h
          cases hlast
          rcases hq with hapart | ⟨_, hrest⟩
          · exact hnew first more hapart
          · cases hrest
        · cases h
      | cons next rest =>
        rw [List.getLast?_cons_cons] at hlast
        rw [lastContainer?] at h
        · obtain ⟨child, henter, hchild⟩ := bind_eq_some_iff.mp h
          rw [modify]
          · rw [henter]
            dsimp only
            rcases hq with hapart | ⟨rfl, hrest⟩
            · obtain ⟨hpart, hover⟩ :=
                setPart_apart henter hapart (modify (next :: rest) new child)
              exact readParts_congr hpart hover more
            · have hmore : more ≠ [] := by
                rintro rfl
                cases hrest
              rw [readParts_child (part?_setPart henter _) hmore]
              rcases enter_cases henter with hpart | ⟨hpart, hover, rfl⟩
              · rw [readParts_child hpart hmore]
                refine ih hchild hlast (fun i hi hneg => ?_) hrest
                have hfollow := hplace i (by rw [List.getLast?_cons_cons]; exact hi) hneg
                rwa [dropLast_cons_cons, Value.follow, hpart, bind_some] at hfollow
              · have hnonneg : ∀ i : Int, (next :: rest).getLast? = some (.index i) → 0 ≤ i := by
                  intro i hi
                  by_contra hneg
                  refine hplace i (by rw [List.getLast?_cons_cons]; exact hi) (by omega) ?_
                  rw [dropLast_cons_cons, Value.follow, hpart, bind_none]
                rw [readParts_absent hpart hover,
                  ih hchild hlast (fun i hi hneg => absurd (hnonneg i hi) (by omega)) hrest]
                exact readParts_fresh hchild hnonneg hrest
          · simp
        · simp

end JiuwenSpec.Session

import JiuwenSpec.Session.UpdateDict

/-!
# Reading a nested path

`get_value_by_nested_path` walks to the container of the last part and reads there. Only the
last read is guarded: on the way an index counted from the end is applied to a list that may
be too short, and splitting the path may already raise.
Source: `core/session/utils.py`.
-/

namespace JiuwenSpec.Session

open List

/-- `get_value_by_nested_path`; what is not found reads as `None`. -/
def getValueByNestedPath (nestedKey : String) (source : List (String × Value)) :
    Except PathError Value :=
  match (rootToPath nestedKey (.dict source) false).2 with
  | .raised e => .error e
  | .notFound => .ok .null
  | .found container last =>
    match Value.at? container (.dict source), last with
    | some (.list items), .index i =>
      match Value.position? items.length i with
      | some n => .ok (items.getD n .null)
      | none => .ok .null
    | some (.dict entries), .key name => .ok ((entryGet? name entries).getD .null)
    | _, _ => .ok .null

def Value.part? : Value → PathPart → Option Value
  | .dict entries, .key name => entryGet? name entries
  | .list items, .index i => (Value.position? items.length i).bind (fun n => items[n]?)
  | _, _ => none

def Value.follow : List PathPart → Value → Option Value
  | [], v => some v
  | part :: rest, v => (v.part? part).bind (follow rest)

/-- No index before the last part counts back beyond the start of the list it is applied
to. -/
def GuardedIndexes (parts : List PathPart) (v : Value) : Prop :=
  ∀ before i after items, parts = before ++ .index i :: after → after ≠ [] →
    v.follow before = some (.list items) → -(items.length : Int) ≤ i

theorem position?_eq_none_iff {length : Nat} {i : Int} (h : i < length) :
    Value.position? length i = none ↔ i < -(length : Int) := by
  unfold Value.position?
  by_cases h0 : 0 ≤ i
  · have hlt : i.toNat < length := by omega
    simp only [h0, hlt, if_true, reduceCtorEq, false_iff]
    omega
  · by_cases h1 : 0 ≤ i + length
    · simp only [h0, h1, if_true, if_false, reduceCtorEq, false_iff]
      omega
    · simp only [h0, h1, if_false, true_iff]
      omega

theorem position?_lt {length n : Nat} {i : Int}
    (h : Value.position? length i = some n) : n < length := by
  unfold Value.position? at h
  split at h
  · split at h
    · cases h
      assumption
    · cases h
  · split at h
    · cases h
      omega
    · cases h

@[simp] private theorem under_raised_iff (s : Step) (w : Walk) (e : PathError) :
    w.under s = .raised e ↔ w = .raised e := by
  cases w <;> simp [Walk.under]

theorem walk_raises_cons {part : PathPart} {rest : List PathPart} {v : Value} (hrest : rest ≠ [])
    (e : PathError) :
    (walk false (part :: rest) v).2 = .raised e ↔
      (∃ child, v.part? part = some child ∧ (walk false rest child).2 = .raised e) ∨
      (e = .indexError ∧ ∃ i items, part = .index i ∧ v = .list items ∧
        i < -(items.length : Int)) := by
  obtain ⟨next, rest, rfl⟩ := exists_cons_of_ne_nil hrest
  have hnull : (walk false (next :: rest) .null).2 ≠ .raised e := by
    cases next <;> simp [walk]
  cases part with
  | key name =>
    cases v with
    | dict entries =>
      cases hget : entryGet? name entries with
      | none => simp [walk, Value.part?, hget]
      | some child =>
        cases child with
        | null => simp [walk, Value.part?, hget]
        | _ => simp [walk, Value.part?, hget]
    | _ => simp [walk, Value.part?]
  | index i =>
    cases v with
    | list items =>
      by_cases hlong : (items.length : Int) ≤ i
      · have hpos : Value.position? items.length i = none := by
          have h0 : 0 ≤ i := by omega
          have hge : ¬ i.toNat < items.length := by omega
          simp [Value.position?, h0, hge]
        simp [walk, Value.part?, hlong, hpos]
        omega
      · have hlt : i < items.length := by omega
        have hpad : (i + 1 - items.length).toNat = 0 := by omega
        cases hpos : Value.position? items.length i with
        | none =>
          have hneg := (position?_eq_none_iff hlt).mp hpos
          simp [walk, Value.part?, hlong, hpad, hpos, hneg, eq_comm]
        | some n =>
          have hn : n < items.length := position?_lt hpos
          have hneg : ¬ i < -(items.length : Int) := by
            rw [← position?_eq_none_iff hlt, hpos]
            simp
          have hgetD : items.getD n .null = items[n] := by
            rw [getD_eq_getElem?_getD, getElem?_eq_getElem hn, Option.getD_some]
          -- without creation a null child ends the walk, as the walk into null does
          have hstep : (walk false (.index i :: next :: rest) (.list items)).2 = .raised e ↔
              (walk false (next :: rest) items[n]).2 = .raised e := by
            simp only [walk, hlong, hpad, replicate_zero, append_nil, hpos, hgetD]
            cases hchild : items[n] with
            | null => simp [hnull]
            | _ => simp
          rw [hstep]
          simp [Value.part?, hpos, getElem?_eq_getElem hn, hneg]
    | _ => simp [walk, Value.part?]

theorem walk_single_not_raised (part : PathPart) (v : Value) (e : PathError) :
    (walk false [part] v).2 ≠ .raised e := by
  cases part with
  | key name =>
    cases v with
    | dict entries =>
      rw [walk]
      split <;> simp
    | _ => simp [walk]
  | index i =>
    cases v with
    | list items =>
      rw [walk]
      split <;> simp
    | _ => simp [walk]

theorem guardedIndexes_cons {part : PathPart} {rest : List PathPart} {v : Value} :
    GuardedIndexes (part :: rest) v ↔
      (∀ i items, part = .index i → rest ≠ [] → v = .list items → -(items.length : Int) ≤ i) ∧
      ∀ child, v.part? part = some child → GuardedIndexes rest child := by
  constructor
  · intro h
    refine ⟨fun i items hp hrest hv => ?_,
      fun child hchild before i after items hparts hafter hf => ?_⟩
    · exact h [] i rest items (by rw [hp, nil_append]) hrest (congrArg some hv)
    · refine h (part :: before) i after items (by rw [hparts, cons_append]) hafter ?_
      rw [Value.follow, hchild, Option.bind_some, hf]
  · rintro ⟨hhead, htail⟩ before i after items hparts hafter hf
    cases before with
    | nil =>
      obtain ⟨hp, hr⟩ := List.cons.inj hparts
      exact hhead i items hp (hr ▸ hafter) (Option.some.inj hf)
    | cons first before =>
      obtain ⟨rfl, hr⟩ := List.cons.inj hparts
      rw [Value.follow] at hf
      obtain ⟨child, hchild, hf'⟩ := Option.bind_eq_some_iff.mp hf
      exact htail child hchild before i after items hr hafter hf'

theorem walk_not_raised_iff (parts : List PathPart) (v : Value) :
    (∀ e, (walk false parts v).2 ≠ .raised e) ↔ GuardedIndexes parts v := by
  induction parts generalizing v with
  | nil =>
    refine iff_of_true (fun e => by simp [walk]) ?_
    intro before i after items hparts
    cases before <;> cases hparts
  | cons part rest ih =>
    rw [guardedIndexes_cons]
    by_cases hrest : rest = []
    · subst hrest
      refine iff_of_true (walk_single_not_raised part v) ⟨fun _ _ _ h => absurd rfl h, ?_⟩
      intro child _ before i after items hparts
      cases before <;> cases hparts
    · constructor
      · intro h
        refine ⟨fun i items hp _ hv => ?_, fun child hchild => (ih child).mp fun e he => ?_⟩
        · by_contra hlt
          exact h .indexError ((walk_raises_cons hrest _).mpr
            (Or.inr ⟨rfl, i, items, hp, hv, Int.not_le.mp hlt⟩))
        · exact h e ((walk_raises_cons hrest e).mpr (Or.inl ⟨child, hchild, he⟩))
      · rintro ⟨hhead, htail⟩ e he
        rcases (walk_raises_cons hrest e).mp he with
          ⟨child, hchild, hr⟩ | ⟨_, i, items, hp, hv, hlt⟩
        · exact (ih child).mpr (htail child hchild) e hr
        · exact absurd (hhead i items hp hrest hv) (Int.not_le.mpr hlt)

/-- A read returns exactly when the path can be split and no index before its last part counts
back beyond the start of its list. -/
theorem getValueByNestedPath_returns_iff (nestedKey : String) (source : List (String × Value)) :
    (∃ v, getValueByNestedPath nestedKey source = .ok v) ↔
      splitRaises nestedKey = false ∧
        GuardedIndexes (splitNestedPath nestedKey) (.dict source) := by
  have hreturn : (∃ v, getValueByNestedPath nestedKey source = .ok v) ↔
      ∀ e, (rootToPath nestedKey (.dict source) false).2 ≠ .raised e := by
    unfold getValueByNestedPath
    cases hwalk : (rootToPath nestedKey (.dict source) false).2 with
    | raised e => simp
    | notFound => simp
    | found container last =>
      refine iff_of_true ?_ (by simp)
      dsimp only
      split
      · split <;> exact ⟨_, rfl⟩
      · exact ⟨_, rfl⟩
      · exact ⟨_, rfl⟩
  rw [hreturn, rootToPath]
  cases hsplit : splitRaises nestedKey with
  | true => simp
  | false =>
    simp only [if_false, Bool.false_eq_true, true_and]
    rw [← walk_not_raised_iff]
    cases hparts : splitNestedPath nestedKey with
    | nil => simp [walk]
    | cons part rest => exact Iff.rfl

/-- An index counted from the end, before the last part, on a list of one item. -/
theorem getValueByNestedPath_raises :
    getValueByNestedPath "a[-2].b" [("a", .list [.dict []])] = .error .indexError := by
  rfl

end JiuwenSpec.Session

import JiuwenSpec.Vcs.StateEquality

/-!
# Positions in a state

What stands at a position before and after a write or a removal, and how the text of an address
splits: the pieces hold no dots, and keys without dots come back but for empty ones in front.
-/

namespace JiuwenSpec.Vcs

open Base List Option

def valueAt : List String → Json → Option Json
  | [], v => some v
  | k :: ks, .dict es => (assocGet? k es).bind (valueAt ks)
  | _ :: _, _ => none

theorem valueAt_append (p r : List String) (v : Json) :
    valueAt (p ++ r) v = (valueAt p v).bind (valueAt r) := by
  induction p generalizing v with
  | nil => rfl
  | cons k p ih =>
    cases v with
    | dict es =>
      rw [cons_append, valueAt, valueAt]
      cases assocGet? k es with
      | none => rfl
      | some w => exact ih w
    | null => rfl
    | bool b => rfl
    | num q => rfl
    | str s => rfl
    | list xs => rfl

theorem valueAt_cons_dict (k : String) (p : List String) (s : State) :
    valueAt (k :: p) (.dict s) = (assocGet? k s).bind (valueAt p) := rfl

theorem valueAt_key (k : String) (s : State) : valueAt [k] (.dict s) = assocGet? k s := by
  rw [valueAt_cons_dict]
  cases assocGet? k s <;> rfl

theorem Json.sizeOf_pos (v : Json) : 0 < sizeOf v := by
  cases v <;> simp +arith

variable {p : List String}

theorem length_lt_sizeOf {v x : Json} (h : valueAt p v = some x) : p.length < sizeOf v := by
  induction p generalizing v with
  | nil => exact Json.sizeOf_pos v
  | cons k p ih =>
    cases v with
    | dict es =>
      rw [valueAt_cons_dict] at h
      obtain ⟨w, hw, hx⟩ := bind_eq_some_iff.mp h
      have hsize := sizeOf_lt_dict hw
      have hrest := ih hx
      rw [length_cons, Json.dict.sizeOf_spec]
      omega
    | null => cases h
    | bool b => cases h
    | num q => cases h
    | str s => cases h
    | list xs => cases h

theorem valueAt_alike {a b : Json} (h : a.Alike b) {y : Json}
    (hy : valueAt p b = some y) : ∃ x, valueAt p a = some x ∧ x.Alike y := by
  induction p generalizing a b with
  | nil => exact ⟨a, rfl, some.inj hy ▸ h⟩
  | cons k p ih =>
    cases b with
    | dict es =>
      obtain ⟨fs, rfl, hstates⟩ := h.dict_right
      rw [valueAt_cons_dict] at hy ⊢
      obtain ⟨w, hw, hrest⟩ := bind_eq_some_iff.mp hy
      obtain ⟨u, hu, huw⟩ := rel_some_right (hw ▸ hstates.keys k)
      rw [hu]
      exact ih huw hrest
    | null => cases hy
    | bool b => cases hy
    | num q => cases hy
    | str s => cases hy
    | list xs => cases hy

theorem valueAt_childState {k : String} (hp : p ≠ []) (s : State) :
    valueAt p (.dict (childState k s)) = valueAt (k :: p) (.dict s) := by
  cases p with
  | nil => exact absurd rfl hp
  | cons j p =>
    rw [valueAt_cons_dict k, childState]
    cases hv : assocGet? k s with
    | none => rfl
    | some w =>
      cases w with
      | dict c => rfl
      | null => rfl
      | bool b => rfl
      | num q => rfl
      | str t => rfl
      | list xs => rfl

variable {q : List String}

theorem valueAt_setPath_below (hq : q ≠ []) (r : List String) (v : Json)
    (s : State) : valueAt (q ++ r) (.dict (setPath q v s)) = valueAt r v := by
  induction q generalizing s with
  | nil => exact absurd rfl hq
  | cons k q ih =>
    cases q with
    | nil =>
      rw [singleton_append, valueAt_cons_dict, setPath, assocGet?_assocSet_self,
        bind_some]
    | cons k' q =>
      rw [cons_append, valueAt_cons_dict]
      rw [setPath_under k (cons_ne_nil _ _), assocGet?_assocSet_self, bind_some]
      exact ih (cons_ne_nil _ _) _

theorem valueAt_setPath_apart (hqp : ¬ q <+: p) (hpq : ¬ p <+: q) (v : Json)
    (s : State) : valueAt p (.dict (setPath q v s)) = valueAt p (.dict s) := by
  induction q generalizing p s with
  | nil => exact absurd nil_prefix hqp
  | cons k q ih =>
    cases p with
    | nil => exact absurd nil_prefix hpq
    | cons j p =>
      by_cases hj : j = k
      · subst hj
        rw [cons_prefix_cons, not_and] at hqp hpq
        have hq := hqp rfl
        have hp := hpq rfl
        have hne : p ≠ [] := fun h => hp (h ▸ nil_prefix)
        cases q with
        | nil => exact absurd nil_prefix hq
        | cons k' q =>
          rw [valueAt_cons_dict]
          rw [setPath_under j (cons_ne_nil _ _), assocGet?_assocSet_self, bind_some,
            ih hq hp, valueAt_childState hne]
      · have hset : assocGet? j (setPath (k :: q) v s) = assocGet? j s := by
          cases q with
          | nil => exact assocGet?_assocSet_of_ne hj _ _
          | cons k' q => exact assocGet?_assocSet_of_ne hj _ _
        rw [valueAt_cons_dict, valueAt_cons_dict, hset]

theorem assocGet?_delPath_of_ne {j k : String} (hj : j ≠ k) (q : List String) (s : State) :
    assocGet? j (delPath (k :: q) s) = assocGet? j s := by
  cases q with
  | nil => rw [delPath, assocGet?_assocDelete, if_neg hj]
  | cons k' q =>
    rw [delPath.eq_def]
    dsimp only
    split
    · exact assocGet?_assocSet_of_ne hj _ _
    · rfl

theorem valueAt_delPath_self (hq : q ≠ []) (s : State) :
    valueAt q (.dict (delPath q s)) = none := by
  induction q generalizing s with
  | nil => exact absurd rfl hq
  | cons k q ih =>
    cases q with
    | nil =>
      rw [valueAt_cons_dict, delPath, assocGet?_assocDelete, if_pos rfl]
      rfl
    | cons k' q =>
      rw [valueAt_cons_dict, delPath.eq_def]
      dsimp only
      split
      · rw [assocGet?_assocSet_self, bind_some]
        exact ih (cons_ne_nil _ _) _
      · next hnot =>
        cases hv : assocGet? k s with
        | none => rfl
        | some w =>
          cases w with
          | dict c => exact absurd hv (hnot c)
          | null => rfl
          | bool b => rfl
          | num q => rfl
          | str t => rfl
          | list xs => rfl

theorem valueAt_delPath_apart (hqp : ¬ q <+: p) (hpq : ¬ p <+: q)
    (s : State) : valueAt p (.dict (delPath q s)) = valueAt p (.dict s) := by
  induction q generalizing p s with
  | nil => exact absurd nil_prefix hqp
  | cons k q ih =>
    cases p with
    | nil => exact absurd nil_prefix hpq
    | cons j p =>
      by_cases hj : j = k
      · subst hj
        rw [cons_prefix_cons, not_and] at hqp hpq
        have hq := hqp rfl
        have hp := hpq rfl
        cases q with
        | nil => exact absurd nil_prefix hq
        | cons k' q =>
          rw [valueAt_cons_dict, valueAt_cons_dict, delPath.eq_def]
          dsimp only
          split
          · next c hc =>
            rw [assocGet?_assocSet_self, hc, bind_some, bind_some, ih hq hp]
          · rfl
      · rw [valueAt_cons_dict, valueAt_cons_dict, assocGet?_delPath_of_ne hj]

theorem valueAt_delPath_kept (hqp : ¬ q <+: p) {s : State} {x : Json}
    (h : valueAt p (.dict s) = some x) : ∃ y, valueAt p (.dict (delPath q s)) = some y := by
  induction q generalizing p s x with
  | nil => exact absurd nil_prefix hqp
  | cons k q ih =>
    cases p with
    | nil => exact ⟨_, rfl⟩
    | cons j p =>
      by_cases hj : j = k
      · subst hj
        rw [cons_prefix_cons, not_and] at hqp
        have hq := hqp rfl
        cases q with
        | nil => exact absurd nil_prefix hq
        | cons k' q =>
          rw [delPath.eq_def]
          dsimp only
          split
          · next c hc =>
            rw [valueAt_cons_dict, hc, bind_some] at h
            rw [valueAt_cons_dict, assocGet?_assocSet_self, bind_some]
            exact ih hq h
          · exact ⟨x, h⟩
      · rw [valueAt_cons_dict, assocGet?_delPath_of_ne hj]
        exact ⟨x, h⟩

def Shrunk (x y : Json) : Prop := x = y ∨ ∃ es fs, x = .dict es ∧ y = .dict fs

theorem valueAt_delPath_some {s : State} {x : Json} (h : valueAt p (.dict (delPath q s)) = some x) :
    ∃ y, valueAt p (.dict s) = some y ∧ Shrunk x y := by
  induction q generalizing p s with
  | nil => exact ⟨x, h, .inl rfl⟩
  | cons k q ih =>
    cases p with
    | nil => exact ⟨.dict s, rfl, .inr ⟨_, s, (some.inj h).symm, rfl⟩⟩
    | cons j p =>
      rw [valueAt_cons_dict] at h
      cases q with
      | nil =>
        rw [delPath, assocGet?_assocDelete] at h
        split at h
        · cases h
        · exact ⟨x, h, .inl rfl⟩
      | cons k' q =>
        rw [delPath.eq_def] at h
        dsimp only at h
        split at h
        · next c hc =>
          by_cases hj : j = k
          · subst hj
            rw [assocGet?_assocSet_self, bind_some] at h
            obtain ⟨y, hy, hshrunk⟩ := ih h
            refine ⟨y, ?_, hshrunk⟩
            rw [valueAt_cons_dict, hc, bind_some, hy]
          · rw [assocGet?_assocSet_of_ne hj] at h
            exact ⟨x, h, .inl rfl⟩
        · exact ⟨x, h, .inl rfl⟩

theorem Shrunk.trans {x y z : Json} (h : Shrunk x y) (h' : Shrunk y z) : Shrunk x z := by
  rcases h with rfl | ⟨es, fs, rfl, rfl⟩
  · exact h'
  · rcases h' with rfl | ⟨es', fs', -, rfl⟩
    · exact .inr ⟨es, fs, rfl, rfl⟩
    · exact .inr ⟨es, fs', rfl, rfl⟩

def writeAll (writes : List (List String × Json)) (s : State) : State := writes.foldl writeAt s

def removeAll (removals : List (List String)) (s : State) : State := removals.foldl removeAt s

theorem valueAt_writeAll {writes : List (List String × Json)}
    (hne : ∀ w ∈ writes, w.1 ≠ []) (hpq : ∀ w ∈ writes, p <+: w.1 → p = w.1) {s : State}
    {x : Json} (h : valueAt p (.dict (writeAll writes s)) = some x) :
    (∃ w ∈ writes, ∃ r, p = w.1 ++ r ∧ valueAt r w.2 = some x) ∨
      valueAt p (.dict s) = some x := by
  induction writes using List.reverseRecOn generalizing x with
  | nil => exact .inr h
  | append_singleton writes w ih =>
    have hw : w ∈ writes ++ [w] := by simp
    rw [writeAll, foldl_append] at h
    by_cases hqp : w.1 <+: p
    · obtain ⟨r, hr⟩ := hqp
      refine .inl ⟨w, hw, r, hr.symm, ?_⟩
      rw [← hr] at h
      rw [← valueAt_setPath_below (hne w hw) r w.2]
      exact h
    · have hnot : ¬ p <+: w.1 := fun hp => hqp (hpq w hw hp ▸ prefix_rfl)
      have hbefore : valueAt p (.dict (writeAll writes s)) = some x :=
        (valueAt_setPath_apart hqp hnot w.2 _).symm.trans h
      rcases ih (fun w' hw' => hne w' (mem_append_left _ hw'))
        (fun w' hw' => hpq w' (mem_append_left _ hw')) hbefore with
        ⟨w', hw', r, hr, hx⟩ | hx
      · exact .inl ⟨w', mem_append_left _ hw', r, hr, hx⟩
      · exact .inr hx

theorem valueAt_writeAll_apart {writes : List (List String × Json)}
    (hapart : ∀ w ∈ writes, ¬ w.1 <+: p ∧ ¬ p <+: w.1) (s : State) :
    valueAt p (.dict (writeAll writes s)) = valueAt p (.dict s) := by
  rw [writeAll]
  induction writes generalizing s with
  | nil => rfl
  | cons w writes ih =>
    have hw := hapart w (.head _)
    rw [foldl_cons, ih fun w' hw' => hapart w' (mem_cons_of_mem _ hw')]
    exact valueAt_setPath_apart hw.1 hw.2 w.2 s

theorem valueAt_removeAll_apart {removals : List (List String)}
    (hapart : ∀ q ∈ removals, ¬ q <+: p ∧ ¬ p <+: q) (s : State) :
    valueAt p (.dict (removeAll removals s)) = valueAt p (.dict s) := by
  rw [removeAll]
  induction removals generalizing s with
  | nil => rfl
  | cons q removals ih =>
    have hq := hapart q (.head _)
    rw [foldl_cons, ih fun q' hq' => hapart q' (mem_cons_of_mem _ hq')]
    exact valueAt_delPath_apart hq.1 hq.2 s

theorem valueAt_removeAll_some {removals : List (List String)} {p : List String} {s : State}
    {x : Json} (h : valueAt p (.dict (removeAll removals s)) = some x) :
    ∃ y, valueAt p (.dict s) = some y ∧ Shrunk x y := by
  rw [removeAll] at h
  induction removals generalizing s with
  | nil => exact ⟨x, h, .inl rfl⟩
  | cons q removals ih =>
    obtain ⟨y, hy, hshrunk⟩ := ih h
    obtain ⟨z, hz, hshrunk'⟩ := valueAt_delPath_some hy
    exact ⟨z, hz, hshrunk.trans hshrunk'⟩

theorem removed_above {removals : List (List String)} {s : State} {x : Json}
    (hx : valueAt p (.dict s) = some x)
    (hnone : valueAt p (.dict (removeAll removals s)) = none) : ∃ q ∈ removals, q <+: p := by
  rw [removeAll] at hnone
  induction removals generalizing s x with
  | nil =>
    rw [foldl_nil, hx] at hnone
    cases hnone
  | cons q removals ih =>
    by_cases hq : q <+: p
    · exact ⟨q, .head _, hq⟩
    · obtain ⟨y, hy⟩ := valueAt_delPath_kept hq hx
      obtain ⟨q', hq', habove⟩ := ih hy hnone
      exact ⟨q', .tail _ hq', habove⟩

theorem valueAt_removeAll_self {removals : List (List String)}
    (hq : q ∈ removals) (hne : q ≠ []) (s : State) :
    valueAt q (.dict (removeAll removals s)) = none := by
  induction removals generalizing s with
  | nil => cases hq
  | cons q' removals ih =>
    rcases mem_cons.mp hq with rfl | hq
    · cases h : valueAt q (.dict (removeAll (q :: removals) s)) with
      | none => rfl
      | some x =>
        obtain ⟨y, hy, -⟩ := @valueAt_removeAll_some removals q (removeAt s q) x h
        rw [removeAt, valueAt_delPath_self hne] at hy
        cases hy
    · exact ih hq (removeAt s q')

def Undotted (address : List String) : Prop := ∀ k ∈ address, '.' ∉ k.toList

/-- The address without the empty keys in front of another key. -/
def withoutEmpty : List String → List String
  | "" :: k :: ks => withoutEmpty (k :: ks)
  | address => address

theorem not_mem_splitOn {cs piece : List Char} (h : piece ∈ cs.splitOn '.') : '.' ∉ piece := by
  induction cs generalizing piece with
  | nil =>
    rw [splitOn_nil, mem_singleton] at h
    simp [h]
  | cons c cs ih =>
    rw [splitOn_cons_eq_if_modifyHead] at h
    split at h
    · rcases mem_cons.mp h with rfl | h
      · simp
      · exact ih h
    · next hc =>
      obtain ⟨first, rest, hsplit⟩ := exists_cons_of_ne_nil (splitOn_ne_nil '.' cs)
      rw [hsplit, modifyHead_cons] at h
      rcases mem_cons.mp h with rfl | h
      · intro hdot
        rcases mem_cons.mp hdot with rfl | hdot
        · exact hc (by simp)
        · exact ih (hsplit ▸ mem_cons_self) hdot
      · exact ih (hsplit ▸ mem_cons_of_mem _ h)

theorem undotted_splitPath (path : String) : Undotted (splitPath path) := by
  intro k hk
  obtain ⟨piece, hpiece, rfl⟩ := mem_map.mp hk
  rw [String.toList_ofList]
  exact not_mem_splitOn hpiece

theorem splitPath_ne_nil (path : String) : splitPath path ≠ [] := by
  rw [splitPath, ne_eq, map_eq_nil_iff]
  exact splitOn_ne_nil _ _

theorem splitPath_key {key : String} (h : '.' ∉ key.toList) : splitPath key = [key] := by
  rw [splitPath, splitOn_eq_singleton h, map_singleton, String.ofList_toList]

theorem splitPath_joinPath {path key : String} (hpath : path ≠ "") (h : '.' ∉ key.toList) :
    splitPath (joinPath path key) = splitPath path ++ [key] := by
  have htext : (path ++ "." ++ key).toList = path.toList ++ '.' :: key.toList := by simp
  rw [joinPath, if_neg hpath, splitPath, htext, splitOn_append_cons_self, map_append,
    ← splitPath, ← splitPath, splitPath_key h]

theorem joinPath_ne_empty {path : String} (hpath : path ≠ "") (key : String) :
    joinPath path key ≠ "" := by
  rw [joinPath, if_neg hpath]
  intro h
  have hlist := congrArg String.toList h
  simp at hlist

variable {address : List String}

theorem splitPath_foldl {path : String} (hpath : path ≠ "") (h : Undotted address) :
    splitPath (address.foldl joinPath path) = splitPath path ++ address := by
  induction address generalizing path with
  | nil => exact (append_nil _).symm
  | cons k ks ih =>
    rw [foldl_cons, ih (joinPath_ne_empty hpath k) fun j hj => h j (mem_cons_of_mem _ hj),
      splitPath_joinPath hpath (h k (.head _)), append_assoc, singleton_append]

theorem splitPath_joinAll (hne : address ≠ []) (h : Undotted address) :
    splitPath (joinAll address) = withoutEmpty address := by
  induction address with
  | nil => exact absurd rfl hne
  | cons k ks ih =>
    have hk := h k (.head _)
    have hks : Undotted ks := fun j hj => h j (.tail _ hj)
    have hjoin : joinAll (k :: ks) = ks.foldl joinPath k := by
      rw [joinAll, foldl_cons, joinPath, if_pos rfl]
    by_cases hempty : k = ""
    · subst hempty
      cases ks with
      | nil => exact (congrArg splitPath hjoin).trans (splitPath_key hk)
      | cons j ks =>
        rw [hjoin, withoutEmpty]
        exact ih (cons_ne_nil _ _) hks
    · rw [hjoin, splitPath_foldl hempty hks, splitPath_key hk, singleton_append]
      rw [withoutEmpty.eq_def]
      split
      · next heq => exact absurd (List.cons.inj heq).1 hempty
      · rfl

theorem withoutEmpty_led {r : List String} {k : String}
    (h : withoutEmpty address = "" :: k :: r) : False := by
  induction address with
  | nil => cases h
  | cons j js ih =>
    rw [withoutEmpty.eq_def] at h
    split at h
    · next heq => exact ih (by rw [(List.cons.inj heq).2]; exact h)
    · next hnot =>
      obtain ⟨rfl, rfl⟩ := List.cons.inj h
      exact hnot k r rfl

theorem not_undotted_of_led {r : List String} {k : String} (hne : address ≠ [])
    (h : splitPath (joinAll address) = "" :: k :: r) : ¬ Undotted address := by
  intro hundotted
  rw [splitPath_joinAll hne hundotted] at h
  exact withoutEmpty_led h

theorem withoutEmpty_of_ne
    (h : ∀ k ks, address ≠ "" :: k :: ks) : withoutEmpty address = address := by
  rw [withoutEmpty.eq_def]
  split
  · next k ks => exact absurd rfl (h k ks)
  · rfl

theorem unfaithful_cases (hne : address ≠ []) (h : ¬ Faithful address) :
    ¬ Undotted address ∨ (Undotted address ∧ ∃ k ks, address = "" :: k :: ks) := by
  by_cases hundotted : Undotted address
  · refine .inr ⟨hundotted, ?_⟩
    by_contra hled
    apply h
    rw [Faithful, splitPath_joinAll hne hundotted, withoutEmpty_of_ne]
    exact fun k ks heq => hled ⟨k, ks, heq⟩
  · exact .inl hundotted

theorem Faithful.undotted (h : Faithful address) : Undotted address :=
  h ▸ undotted_splitPath (joinAll address)

end JiuwenSpec.Vcs

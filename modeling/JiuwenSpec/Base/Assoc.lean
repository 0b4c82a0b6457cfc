import Mathlib.Data.List.Induction
import Mathlib.Data.List.Nodup

/-!
# Association lists

Lists of keys with values, read at the first entry of a key, with writing in place and deletion.
-/

namespace JiuwenSpec.Base

open List

universe u v

variable {κ : Type u} {ν : Type v} [DecidableEq κ]

def assocGet? (k : κ) : List (κ × ν) → Option ν
  | [] => none
  | e :: rest => if e.1 = k then some e.2 else assocGet? k rest

/-- Write a key: in place where it is present, at the end otherwise. -/
def assocSet (k : κ) (v : ν) : List (κ × ν) → List (κ × ν)
  | [] => [(k, v)]
  | e :: rest => if e.1 = k then (k, v) :: rest else e :: assocSet k v rest

def assocDelete (k : κ) (es : List (κ × ν)) : List (κ × ν) := es.filter fun e => e.1 ≠ k

-- derives the equations once, before the proofs that share them
attribute [local grind =] assocGet? assocSet

theorem assocGet?_assocSet (k : κ) (v : ν) (es : List (κ × ν)) (j : κ) :
    assocGet? j (assocSet k v es) = if j = k then some v else assocGet? j es := by
  induction es with
  | nil =>
    by_cases h : j = k
    · simp [assocSet, assocGet?, h]
    · simp [assocSet, assocGet?, h, Ne.symm h]
  | cons e rest ih =>
    rw [assocSet]
    by_cases he : e.1 = k
    · rw [if_pos he, assocGet?, assocGet?, he]
      by_cases h : j = k
      · rw [if_pos h, if_pos h.symm]
      · rw [if_neg h, if_neg (Ne.symm h), if_neg (Ne.symm h)]
    · rw [if_neg he, assocGet?, assocGet?, ih]
      by_cases h : j = k
      · rw [if_pos h, if_pos h, if_neg (h ▸ he)]
      · rw [if_neg h, if_neg h]

@[simp] theorem assocGet?_assocSet_self (k : κ) (v : ν) (es : List (κ × ν)) :
    assocGet? k (assocSet k v es) = some v := by
  rw [assocGet?_assocSet, if_pos rfl]

theorem assocGet?_assocSet_of_ne {j k : κ} (h : j ≠ k) (v : ν) (es : List (κ × ν)) :
    assocGet? j (assocSet k v es) = assocGet? j es := by
  rw [assocGet?_assocSet, if_neg h]

theorem assocGet?_assocDelete (k : κ) (es : List (κ × ν)) (j : κ) :
    assocGet? j (assocDelete k es) = if j = k then none else assocGet? j es := by
  induction es with
  | nil => simp [assocDelete, assocGet?]
  | cons e rest ih =>
    rw [assocDelete, filter_cons]
    by_cases he : e.1 = k
    · rw [if_neg (by simp [he]), ← assocDelete, ih, assocGet?, he]
      by_cases h : j = k
      · rw [if_pos h, if_pos h]
      · rw [if_neg h, if_neg h, if_neg (Ne.symm h)]
    · rw [if_pos (by simp [he]), assocGet?, assocGet?, ← assocDelete, ih]
      by_cases h : j = k
      · rw [if_pos h, if_pos h, if_neg (h ▸ he)]
      · rw [if_neg h, if_neg h]

theorem assocGet?_map {ν' : Type*} (f : κ → ν → ν') (es : List (κ × ν)) (k : κ) :
    assocGet? k (es.map fun e => (e.1, f e.1 e.2)) = (assocGet? k es).map (f k) := by
  induction es with
  | nil => rfl
  | cons e rest ih =>
    rw [map_cons, assocGet?, assocGet?, ih]
    by_cases h : e.1 = k
    · rw [if_pos h, if_pos h, h, Option.map_some]
    · rw [if_neg h, if_neg h]

variable {es : List (κ × ν)}

theorem assocGet?_eq_none_iff {k : κ} : assocGet? k es = none ↔ k ∉ es.map Prod.fst := by
  induction es with
  | nil => simp [assocGet?]
  | cons e rest ih =>
    rw [assocGet?, map_cons, mem_cons, not_or, ← ih]
    by_cases he : e.1 = k
    · simp [he]
    · simp [he, Ne.symm he]

theorem assocGet?_eq_none_forall : (∀ k, assocGet? k es = none) ↔ es = [] := by
  constructor
  · intro h
    cases es with
    | nil => rfl
    | cons e es =>
      have hhead := h e.1
      rw [assocGet?, if_pos rfl] at hhead
      cases hhead
  · rintro rfl k
    rfl

theorem assocGet?_of_mem {k : κ} {v : ν} (hn : (es.map Prod.fst).Nodup)
    (h : (k, v) ∈ es) : assocGet? k es = some v := by
  induction es with
  | nil => cases h
  | cons e rest ih =>
    rw [map_cons, nodup_cons] at hn
    rw [assocGet?]
    rcases mem_cons.mp h with rfl | hr
    · rw [if_pos rfl]
    · rw [if_neg, ih hn.2 hr]
      intro he
      exact hn.1 (mem_map.mpr ⟨_, hr, he.symm⟩)

theorem mem_of_assocGet? {k : κ} {v : ν} (h : assocGet? k es = some v) : (k, v) ∈ es := by
  induction es with
  | nil => cases h
  | cons e rest ih =>
    rw [assocGet?] at h
    split at h
    · next he =>
      rw [← he, ← Option.some.inj h]
      exact .head _
    · exact .tail _ (ih h)

theorem mem_keys_assocSet {k : κ} {v : ν} {j : κ} :
    j ∈ (assocSet k v es).map Prod.fst ↔ j = k ∨ j ∈ es.map Prod.fst := by
  rw [← not_iff_not, ← assocGet?_eq_none_iff, assocGet?_assocSet, not_or, ← assocGet?_eq_none_iff]
  by_cases h : j = k <;> simp [h]

theorem nodup_assocSet {k : κ} {v : ν} (hn : (es.map Prod.fst).Nodup) :
    ((assocSet k v es).map Prod.fst).Nodup := by
  induction es with
  | nil => simp [assocSet]
  | cons e rest ih =>
    rw [map_cons, nodup_cons] at hn
    rw [assocSet]
    split
    · next he =>
      rw [map_cons, nodup_cons, ← he]
      exact hn
    · next he =>
      rw [map_cons, nodup_cons, mem_keys_assocSet]
      exact ⟨not_or.mpr ⟨he, hn.1⟩, ih hn.2⟩

theorem nodup_assocDelete {k : κ} (hn : (es.map Prod.fst).Nodup) :
    ((assocDelete k es).map Prod.fst).Nodup :=
  hn.sublist (filter_sublist.map Prod.fst)

theorem assocSet_of_notMem {k : κ} {v : ν} (h : k ∉ es.map Prod.fst) :
    assocSet k v es = es ++ [(k, v)] := by
  induction es with
  | nil => rfl
  | cons e rest ih =>
    rw [map_cons, mem_cons, not_or] at h
    rw [assocSet, if_neg (Ne.symm h.1), ih h.2, cons_append]

theorem length_assocSet_le (k : κ) (v : ν) (es : List (κ × ν)) :
    (assocSet k v es).length ≤ es.length + 1 := by
  induction es with
  | nil => exact Nat.le_refl _
  | cons e rest ih =>
    rw [assocSet]
    split
    · exact Nat.le_succ _
    · exact Nat.succ_le_succ ih

theorem length_assocDelete_le (k : κ) (es : List (κ × ν)) :
    (assocDelete k es).length ≤ es.length := length_filter_le _ _

theorem mem_assocSet {k : κ} {v : ν} {e : κ × ν}
    (h : e ∈ assocSet k v es) : e = (k, v) ∨ e ∈ es := by
  induction es with
  | nil => exact .inl (mem_singleton.mp h)
  | cons f rest ih =>
    rw [assocSet] at h
    by_cases hf : f.1 = k
    · rw [if_pos hf] at h
      rcases mem_cons.mp h with h | h
      · exact .inl h
      · exact .inr (.tail _ h)
    · rw [if_neg hf] at h
      rcases mem_cons.mp h with rfl | h
      · exact .inr (.head _)
      · exact (ih h).imp_right (mem_cons_of_mem _)

theorem assocGet?_filter (p : κ → Bool) (es : List (κ × ν)) (k : κ) :
    assocGet? k (es.filter fun e => p e.1) = if p k then assocGet? k es else none := by
  induction es with
  | nil => simp [assocGet?]
  | cons e rest ih =>
    rw [filter_cons, assocGet?]
    by_cases he : e.1 = k
    · cases hp : p k with
      | true => simp [he, hp, assocGet?]
      | false => simp [he, hp, ih]
    · rw [if_neg he]
      split
      · rw [assocGet?, if_neg he, ih]
      · exact ih

variable {writes : List (κ × ν)}

theorem assocGet?_foldl_assocSet (hn : (writes.map Prod.fst).Nodup) (es : List (κ × ν)) (k : κ) :
    assocGet? k (writes.foldl (fun es w => assocSet w.1 w.2 es) es) =
      (assocGet? k writes).or (assocGet? k es) := by
  induction writes generalizing es with
  | nil => rfl
  | cons w writes ih =>
    rw [map_cons, nodup_cons] at hn
    rw [foldl_cons, ih hn.2, assocGet?_assocSet, assocGet?]
    by_cases hk : w.1 = k
    · rw [if_pos hk, if_pos hk.symm, assocGet?_eq_none_iff.mpr (hk ▸ hn.1), Option.none_or,
        Option.some_or]
    · rw [if_neg hk, if_neg (Ne.symm hk)]

/-- The dictionary of a list of writes, the last one of a key winning. -/
def assocOfWrites (writes : List (κ × ν)) : List (κ × ν) :=
  writes.foldl (fun es w => assocSet w.1 w.2 es) []

theorem mem_foldl_assocSet {e : κ × ν}
    (h : e ∈ writes.foldl (fun es w => assocSet w.1 w.2 es) es) : e ∈ es ∨ e ∈ writes := by
  induction writes generalizing es with
  | nil => exact .inl h
  | cons w writes ih =>
    rcases ih h with h | h
    · rcases mem_assocSet h with rfl | h
      · exact .inr (.head _)
      · exact .inl h
    · exact .inr (.tail _ h)

theorem mem_of_mem_assocOfWrites {e : κ × ν} (h : e ∈ assocOfWrites writes) : e ∈ writes := by
  rcases mem_foldl_assocSet h with h | h
  · cases h
  · exact h

theorem mem_keys_foldl_assocSet {k : κ} (hk : k ∈ es.map Prod.fst ∨ k ∈ writes.map Prod.fst) :
    k ∈ (writes.foldl (fun es w => assocSet w.1 w.2 es) es).map Prod.fst := by
  induction writes generalizing es with
  | nil => exact hk.resolve_right not_mem_nil
  | cons w writes ih =>
    refine ih ?_
    rw [mem_keys_assocSet]
    rcases hk with hk | hk
    · exact .inl (.inr hk)
    · rcases mem_cons.mp hk with rfl | hk
      · exact .inl (.inl rfl)
      · exact .inr hk

theorem foldl_assocSet_of_nodup (writes es : List (κ × ν))
    (hn : ((es ++ writes).map Prod.fst).Nodup) :
    writes.foldl (fun es w => assocSet w.1 w.2 es) es = es ++ writes := by
  induction writes generalizing es with
  | nil => simp
  | cons w writes ih =>
    have hfresh : w.1 ∉ es.map Prod.fst := by
      rw [map_append, nodup_append] at hn
      intro hmem
      exact hn.2.2 w.1 hmem w.1 (by simp) rfl
    rw [foldl_cons, assocSet_of_notMem hfresh, ih, append_assoc, singleton_append]
    rwa [append_assoc, singleton_append]

theorem assocOfWrites_of_nodup (hn : (writes.map Prod.fst).Nodup) :
    assocOfWrites writes = writes := by
  rw [assocOfWrites, foldl_assocSet_of_nodup writes [] hn, nil_append]

theorem assocGet?_assocOfWrites (writes : List (κ × ν)) (k : κ) :
    assocGet? k (assocOfWrites writes) =
      ((writes.filter fun w => w.1 = k).getLast?).map Prod.snd := by
  induction writes using List.reverseRecOn with
  | nil => rfl
  | append_singleton writes w ih =>
    rw [assocOfWrites, foldl_append, foldl_cons, foldl_nil, ← assocOfWrites,
      assocGet?_assocSet, filter_append]
    by_cases hw : k = w.1
    · simp [hw]
    · simp [hw, Ne.symm hw, ih]

end JiuwenSpec.Base

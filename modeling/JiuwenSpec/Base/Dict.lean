import Mathlib.Data.List.Nodup

/-!
# Insertion-ordered dictionaries

A finite map whose entries keep the order in which their keys first arrived, as a
Python `dict` does: writing an existing key keeps its place, writing a fresh key
appends it. Distinctness of the keys is a field, so every dictionary is well formed.
-/

namespace JiuwenSpec.Base

open List

universe u v w

/-- An ordered association list with distinct keys. -/
structure Dict (κ : Type u) (ν : Type v) where
  entries : List (κ × ν)
  nodup : (entries.map Prod.fst).Nodup

instance lawfulBEqPair : LawfulBEq (String × String) := inferInstance

namespace Dict

variable {κ : Type u} {ν : Type v} {μ : Type w}

@[ext] theorem ext {d e : Dict κ ν} (h : d.entries = e.entries) : d = e := by
  cases d
  cases e
  congr

instance [DecidableEq κ] [DecidableEq ν] : DecidableEq (Dict κ ν) := fun d e =>
  decidable_of_iff (d.entries = e.entries) ⟨ext, congrArg entries⟩

def empty : Dict κ ν := ⟨[], by simp⟩

def keys (d : Dict κ ν) : List κ := d.entries.map Prod.fst

def values (d : Dict κ ν) : List ν := d.entries.map Prod.snd

/-- Keep the entries that satisfy `p`, in order. -/
def filter (d : Dict κ ν) (p : κ → ν → Bool) : Dict κ ν where
  entries := d.entries.filter (fun e => p e.1 e.2)
  nodup := d.nodup.sublist (filter_sublist.map Prod.fst)

/-- Rewrite every value, keeping keys and order. -/
def mapValues (d : Dict κ ν) (f : κ → ν → μ) : Dict κ μ where
  entries := d.entries.map (fun e => (e.1, f e.1 e.2))
  nodup := by
    rw [map_map]
    exact d.nodup

@[simp] theorem keys_mapValues (d : Dict κ ν) (f : κ → ν → μ) :
    (d.mapValues f).keys = d.keys := by
  simp [keys, mapValues, map_map, Function.comp_def]

variable [DecidableEq κ]

def get? (d : Dict κ ν) (k : κ) : Option ν :=
  (d.entries.find? (fun e => decide (e.1 = k))).map Prod.snd

/-- Write a key: in place when it is present, at the end otherwise. -/
def set (d : Dict κ ν) (k : κ) (v : ν) : Dict κ ν :=
  if h : k ∈ d.keys then
    d.mapValues (fun j x => if j = k then v else x)
  else
    ⟨d.entries ++ [(k, v)], by
      rw [map_append]
      exact nodup_append.mpr ⟨d.nodup, by simp, by
        intro a ha b hb hab
        simp only [map_cons, map_nil, mem_singleton] at hb
        subst hb
        subst hab
        exact h ha⟩⟩

def erase (d : Dict κ ν) (k : κ) : Dict κ ν := d.filter (fun j _ => decide (j ≠ k))

private theorem find?_of_mem {l : List (κ × ν)} (hn : (l.map Prod.fst).Nodup) {k : κ} {v : ν}
    (h : (k, v) ∈ l) : l.find? (fun e => decide (e.1 = k)) = some (k, v) := by
  induction l with
  | nil => simp at h
  | cons e rest ih =>
    rw [map_cons, nodup_cons] at hn
    rcases mem_cons.mp h with rfl | hr
    · simp
    · have hne : e.1 ≠ k := fun he => hn.1 (he ▸ mem_map.mpr ⟨_, hr, rfl⟩)
      rw [List.find?_cons_of_neg (by simpa using hne)]
      exact ih hn.2 hr

theorem get?_eq_some_iff {d : Dict κ ν} {k : κ} {v : ν} :
    d.get? k = some v ↔ (k, v) ∈ d.entries := by
  constructor
  · intro h
    obtain ⟨e, he, hv⟩ := Option.map_eq_some_iff.mp h
    have hk : e.1 = k := by simpa using List.find?_some he
    subst hk
    subst hv
    exact mem_of_find?_eq_some he
  · intro h
    rw [get?, find?_of_mem d.nodup h]
    rfl

theorem get?_eq_none_iff {d : Dict κ ν} {k : κ} : d.get? k = none ↔ k ∉ d.keys := by
  constructor
  · intro h hk
    obtain ⟨⟨j, v⟩, hv, hj⟩ := mem_map.mp hk
    change j = k at hj
    subst hj
    rw [get?_eq_some_iff.mpr hv] at h
    cases h
  · intro h
    cases hv : d.get? k with
    | none => rfl
    | some v => exact absurd (mem_map.mpr ⟨_, get?_eq_some_iff.mp hv, rfl⟩) h

theorem mem_keys_iff {d : Dict κ ν} {k : κ} : k ∈ d.keys ↔ ∃ v, d.get? k = some v := by
  rw [← not_iff_not, ← get?_eq_none_iff]
  cases h : d.get? k <;> simp

theorem mem_values_iff {d : Dict κ ν} {v : ν} : v ∈ d.values ↔ ∃ k, d.get? k = some v := by
  rw [values, mem_map]
  constructor
  · intro ⟨e, he, hv⟩
    subst hv
    exact ⟨e.1, get?_eq_some_iff.mpr he⟩
  · intro ⟨k, hk⟩
    exact ⟨(k, v), get?_eq_some_iff.mp hk, rfl⟩

@[simp] theorem get?_empty (k : κ) : (empty : Dict κ ν).get? k = none := rfl

theorem get?_filter (d : Dict κ ν) (p : κ → ν → Bool) (k : κ) :
    (d.filter p).get? k = (d.get? k).filter (p k) := by
  cases h : d.get? k with
  | none =>
    rw [Option.filter_none, get?_eq_none_iff]
    rw [get?_eq_none_iff] at h
    exact fun hm => h ((filter_sublist.map Prod.fst).subset hm)
  | some v =>
    have hv := get?_eq_some_iff.mp h
    by_cases hp : p k v = true
    · rw [Option.filter_some, if_pos hp]
      exact get?_eq_some_iff.mpr (mem_filter.mpr ⟨hv, hp⟩)
    · rw [Option.filter_some, if_neg hp, get?_eq_none_iff]
      intro hm
      obtain ⟨⟨j, x⟩, hx, hj⟩ := mem_map.mp hm
      change j = k at hj
      subst hj
      obtain ⟨hx, hpx⟩ := mem_filter.mp hx
      have : x = v := Option.some.inj ((get?_eq_some_iff.mpr hx).symm.trans h)
      exact hp (this ▸ hpx)

@[simp] theorem get?_mapValues (d : Dict κ ν) (f : κ → ν → μ) (k : κ) :
    (d.mapValues f).get? k = (d.get? k).map (f k) := by
  cases h : d.get? k with
  | none =>
    rw [Option.map_none, get?_eq_none_iff, keys_mapValues]
    exact get?_eq_none_iff.mp h
  | some v =>
    rw [Option.map_some, get?_eq_some_iff]
    exact mem_map.mpr ⟨(k, v), get?_eq_some_iff.mp h, rfl⟩

theorem get?_set (d : Dict κ ν) (k : κ) (v : ν) (j : κ) :
    (d.set k v).get? j = if j = k then some v else d.get? j := by
  unfold set
  split
  · next hk =>
    rw [get?_mapValues]
    by_cases hj : j = k
    · subst hj
      obtain ⟨x, hx⟩ := mem_keys_iff.mp hk
      simp [hx]
    · simp [hj]
  · next hk =>
    by_cases hj : j = k
    · subst hj
      rw [if_pos rfl, get?_eq_some_iff]
      simp
    · rw [if_neg hj]
      cases h : d.get? j with
      | none =>
        rw [get?_eq_none_iff] at h ⊢
        simpa [keys, hj] using h
      | some x =>
        rw [get?_eq_some_iff] at h ⊢
        exact mem_append_left _ h

@[simp] theorem get?_set_self (d : Dict κ ν) (k : κ) (v : ν) : (d.set k v).get? k = some v := by
  rw [get?_set, if_pos rfl]

theorem get?_set_of_ne (d : Dict κ ν) {k j : κ} (v : ν) (h : j ≠ k) :
    (d.set k v).get? j = d.get? j := by
  rw [get?_set, if_neg h]

theorem mem_keys_set (d : Dict κ ν) (k : κ) (v : ν) (j : κ) :
    j ∈ (d.set k v).keys ↔ j = k ∨ j ∈ d.keys := by
  rw [mem_keys_iff, mem_keys_iff, get?_set]
  by_cases hj : j = k
  · simp [hj]
  · simp [hj]

theorem mem_keys_filter (d : Dict κ ν) (p : κ → ν → Bool) (j : κ) :
    j ∈ (d.filter p).keys ↔ ∃ v, d.get? j = some v ∧ p j v = true := by
  rw [mem_keys_iff, get?_filter]
  cases d.get? j with
  | none => simp
  | some v => simp [Option.filter_some]

theorem entries_set_of_fresh (d : Dict κ ν) {k : κ} (v : ν) (h : d.get? k = none) :
    (d.set k v).entries = d.entries ++ [(k, v)] := by
  rw [set, dif_neg (get?_eq_none_iff.mp h)]

theorem get?_erase (d : Dict κ ν) (k j : κ) :
    (d.erase k).get? j = if j = k then none else d.get? j := by
  rw [erase, get?_filter]
  by_cases hj : j = k
  · cases d.get? j <;> simp [hj]
  · cases d.get? j <;> simp [hj]

end Dict

end JiuwenSpec.Base

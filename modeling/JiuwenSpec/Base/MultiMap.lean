import JiuwenSpec.Base.Dict

/-!
# Dictionaries of sets

A dictionary that keeps a set of values under each key relates keys to values. Values are added and
removed one at a time; a key whose set becomes empty is dropped, unless it is to be kept.
-/

namespace JiuwenSpec.Base.MultiMap

open List

universe u v

variable {κ : Type u} {ν : Type v} [DecidableEq κ] [DecidableEq ν]

def addTo (v : ν) (vs : List ν) : List ν := if v ∈ vs then vs else vs ++ [v]

def discard (v : ν) (vs : List ν) : List ν := vs.filter (· ≠ v)

def insert (d : Dict κ (List ν)) (k : κ) (v : ν) : Dict κ (List ν) :=
  d.set k (addTo v ((d.get? k).getD []))

/-- Remove a value under a key, and with the last of them the key, unless it is kept. -/
def remove (keep : κ → Bool) (d : Dict κ (List ν)) (k : κ) (v : ν) : Dict κ (List ν) :=
  match d.get? k with
  | none => d
  | some vs =>
    if discard v vs = [] ∧ keep k = false then d.erase k else d.set k (discard v vs)

def Holds (d : Dict κ (List ν)) (k : κ) (v : ν) : Prop := ∃ vs, d.get? k = some vs ∧ v ∈ vs

def NoneEmpty (keep : κ → Bool) (d : Dict κ (List ν)) : Prop :=
  ∀ k, d.get? k = some [] → keep k = true

@[simp] theorem mem_addTo {v w : ν} {vs : List ν} : w ∈ addTo v vs ↔ w ∈ vs ∨ w = v := by
  unfold addTo
  split
  · next h => exact ⟨.inl, fun h' => h'.elim id fun heq => heq ▸ h⟩
  · simp

@[simp] theorem mem_discard {v w : ν} {vs : List ν} : w ∈ discard v vs ↔ w ∈ vs ∧ w ≠ v := by
  simp [discard]

theorem addTo_ne_nil (v : ν) (vs : List ν) : addTo v vs ≠ [] :=
  ne_nil_of_mem (mem_addTo.mpr (.inr rfl))

variable {d : Dict κ (List ν)} {k j : κ} {v w : ν}

omit [DecidableEq ν] in
theorem holds_iff_mem : Holds d k v ↔ v ∈ (d.get? k).getD [] := by
  unfold Holds
  cases d.get? k <;> simp

omit [DecidableEq ν] in
theorem holds_set {vs : List ν} :
    Holds (d.set k vs) j w ↔ if j = k then w ∈ vs else Holds d j w := by
  rw [holds_iff_mem, Dict.get?_set]
  split
  · rw [Option.getD_some]
  · rw [holds_iff_mem]

omit [DecidableEq ν] in
theorem holds_erase : Holds (d.erase k) j w ↔ j ≠ k ∧ Holds d j w := by
  rw [holds_iff_mem, Dict.get?_erase]
  split
  · next h => simp [h]
  · next h => rw [holds_iff_mem, and_iff_right h]

theorem holds_insert : Holds (insert d k v) j w ↔ Holds d j w ∨ j = k ∧ w = v := by
  rw [insert, holds_set]
  split
  · next h =>
    subst h
    rw [mem_addTo, holds_iff_mem, and_iff_right rfl]
  · next h => exact ⟨.inl, fun h' => h'.resolve_right fun h' => h h'.1⟩

theorem holds_remove (keep : κ → Bool) :
    Holds (remove keep d k v) j w ↔ Holds d j w ∧ ¬ (j = k ∧ w = v) := by
  unfold remove
  cases hget : d.get? k with
  | none =>
    refine ⟨fun h => ⟨h, ?_⟩, And.left⟩
    rintro ⟨rfl, -⟩
    obtain ⟨vs, hvs, -⟩ := h
    cases hget.symm.trans hvs
  | some vs =>
    have hold : Holds d k w ↔ w ∈ vs := by rw [holds_iff_mem, hget, Option.getD_some]
    dsimp only
    split
    · next hempty =>
      rw [holds_erase]
      constructor
      · exact fun ⟨hne, h⟩ => ⟨h, fun heq => hne heq.1⟩
      · rintro ⟨h, hne⟩
        refine ⟨?_, h⟩
        rintro rfl
        have hmem : w ∈ discard v vs := mem_discard.mpr ⟨hold.mp h, fun heq => hne ⟨rfl, heq⟩⟩
        rw [hempty.1] at hmem
        cases hmem
    · rw [holds_set]
      split
      · next heq =>
        subst heq
        rw [mem_discard, hold, not_and]
        exact ⟨fun ⟨h, hne⟩ => ⟨h, fun _ => hne⟩, fun ⟨h, hne⟩ => ⟨h, hne rfl⟩⟩
      · next hne => exact ⟨fun h => ⟨h, fun heq => hne heq.1⟩, And.left⟩

variable {keep : κ → Bool}

omit [DecidableEq ν] in
theorem NoneEmpty.set (h : NoneEmpty keep d) {vs : List ν}
    (hvs : vs = [] → keep k = true) : NoneEmpty keep (d.set k vs) := by
  intro j hj
  rw [Dict.get?_set] at hj
  split at hj
  · next heq => exact heq ▸ hvs (Option.some.inj hj)
  · exact h j hj

omit [DecidableEq ν] in
theorem NoneEmpty.erase (h : NoneEmpty keep d) : NoneEmpty keep (d.erase k) := by
  intro j hj
  rw [Dict.get?_erase] at hj
  split at hj
  · cases hj
  · exact h j hj

theorem NoneEmpty.insert (h : NoneEmpty keep d) : NoneEmpty keep (insert d k v) :=
  h.set fun hnil => absurd hnil (addTo_ne_nil v _)

theorem NoneEmpty.remove (h : NoneEmpty keep d) : NoneEmpty keep (remove keep d k v) := by
  unfold MultiMap.remove
  split
  · exact h
  · split
    · exact h.erase
    · next hkept =>
      exact h.set fun hnil => Bool.not_eq_false _ ▸ fun hkeep => hkept ⟨hnil, hkeep⟩

theorem holds_insertAll {ks : List κ} :
    Holds (ks.foldl (fun d k => insert d k v) d) j w ↔ Holds d j w ∨ j ∈ ks ∧ w = v := by
  induction ks generalizing d with
  | nil => simp
  | cons k ks ih =>
    rw [foldl_cons, ih, holds_insert, mem_cons, or_and_right, or_assoc]

theorem holds_removeAll (keep : κ → Bool) {ks : List κ} :
    Holds (ks.foldl (fun d k => remove keep d k v) d) j w ↔ Holds d j w ∧ ¬ (j ∈ ks ∧ w = v) := by
  induction ks generalizing d with
  | nil => simp
  | cons k ks ih =>
    rw [foldl_cons, ih, holds_remove, mem_cons, or_and_right, not_or, and_assoc]

theorem NoneEmpty.insertAll (h : NoneEmpty keep d) (ks : List κ) :
    NoneEmpty keep (ks.foldl (fun d k => MultiMap.insert d k v) d) := by
  induction ks generalizing d with
  | nil => exact h
  | cons k ks ih => exact ih h.insert

theorem NoneEmpty.removeAll (h : NoneEmpty keep d) (ks : List κ) :
    NoneEmpty keep (ks.foldl (fun d k => MultiMap.remove keep d k v) d) := by
  induction ks generalizing d with
  | nil => exact h
  | cons k ks ih => exact ih h.remove

end JiuwenSpec.Base.MultiMap

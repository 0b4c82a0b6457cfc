import Mathlib.Data.List.DropRight
import Mathlib.Data.List.Sort
import JiuwenSpec.Base.Dict

/-!
# Merging numbered items and dropping old ones

Lists of items with numbers are merged through a dictionary, in which a later item takes the place
of an earlier one with its number, and read in the order of the numbers. As long as both lists come
from one record with increasing numbers, no item takes the place of another. A dictionary is cut to
its latest entries by a time that its values have.
-/

namespace JiuwenSpec.Base

open List

universe u v

namespace Dict

variable {κ : Type u} {ν : Type v} [DecidableEq κ]

def update (d : Dict κ ν) (pairs : List (κ × ν)) : Dict κ ν :=
  pairs.foldl (fun d p => d.set p.1 p.2) d

theorem mem_keys_update (d : Dict κ ν) (pairs : List (κ × ν)) (k : κ) :
    k ∈ (d.update pairs).keys ↔ k ∈ d.keys ∨ k ∈ pairs.map Prod.fst := by
  induction pairs generalizing d with
  | nil => simp [update]
  | cons p pairs ih =>
    rw [update, foldl_cons, ← update, ih, mem_keys_set, map_cons, mem_cons]
    tauto

theorem mem_entries_update {d : Dict κ ν} {pairs : List (κ × ν)} {k : κ} {v : ν}
    (h : (k, v) ∈ (d.update pairs).entries) : (k, v) ∈ d.entries ∨ (k, v) ∈ pairs := by
  induction pairs generalizing d with
  | nil => exact .inl h
  | cons p pairs ih =>
    rcases ih h with hset | hlater
    · rw [← get?_eq_some_iff, get?_set] at hset
      split at hset
      · next heq =>
        cases hset
        exact .inr (by rw [heq]; exact mem_cons_self)
      · exact .inl (get?_eq_some_iff.mp hset)
    · exact .inr (.tail _ hlater)

omit [DecidableEq κ] in
theorem length_eq_of_keys {d e : Dict κ ν} (h : ∀ k, k ∈ d.keys ↔ k ∈ e.keys) :
    d.entries.length = e.entries.length := by
  have hperm := (perm_ext_iff_of_nodup d.nodup e.nodup).mpr h
  simpa using hperm.length_eq

end Dict

variable {α : Type u} (seq : α → Nat)

/-- `{item.seq: item}` over both lists, read at the sorted keys. -/
def mergeItems (existing pending : List α) : List α :=
  ((Dict.empty.update ((existing ++ pending).map fun item ↦ (seq item, item))).entries.insertionSort
    fun a b => a.1 ≤ b.1).map Prod.snd

theorem rtake_append_of_le {l : List α} {n : Nat} (h : n ≤ l.length) (before : List α) :
    (before ++ l).rtake n = l.rtake n := by
  rw [List.rtake, List.rtake, length_append, Nat.add_sub_assoc h, drop_append,
    drop_eq_nil_of_le (by omega), nil_append]
  congr 1
  omega

theorem rtake_suffix (l : List α) (n : Nat) : l.rtake n <:+ l := drop_suffix _ _

variable {seq} {record existing pending : List α}

theorem eq_of_seq_eq (hrecord : record.Pairwise fun a b => seq a < seq b) {a b : α}
    (ha : a ∈ record) (hb : b ∈ record) (h : seq a = seq b) : a = b :=
  inj_on_of_nodup_map (pairwise_map.mpr (hrecord.imp Nat.ne_of_lt)) ha hb h

theorem mem_mergeItems (hrecord : record.Pairwise fun a b => seq a < seq b)
    (hexisting : ∀ a ∈ existing, a ∈ record) (hpending : ∀ a ∈ pending, a ∈ record) (a : α) :
    a ∈ mergeItems seq existing pending ↔ a ∈ existing ++ pending := by
  have hin (b : α) (hb : b ∈ existing ++ pending) : b ∈ record :=
    (mem_append.mp hb).elim (hexisting b) (hpending b)
  have hpair {k : Nat} {b : α}
      (h : (k, b) ∈ (Dict.empty.update ((existing ++ pending).map fun b => (seq b, b))).entries) :
      b ∈ existing ++ pending ∧ seq b = k := by
    rcases Dict.mem_entries_update h with hempty | hlater
    · cases hempty
    · obtain ⟨c, hc, heq⟩ := mem_map.mp hlater
      cases heq
      exact ⟨hc, rfl⟩
  rw [mergeItems, mem_map]
  constructor
  · rintro ⟨⟨k, b⟩, hb, rfl⟩
    exact (hpair ((mem_insertionSort _).mp hb)).1
  · intro ha
    have hkey : seq a ∈
        (Dict.empty.update ((existing ++ pending).map fun b => (seq b, b))).keys :=
      (Dict.mem_keys_update _ _ _).mpr (.inr (mem_map.mpr
        ⟨(seq a, a), mem_map_of_mem ha, rfl⟩))
    obtain ⟨b, hb⟩ := Dict.mem_keys_iff.mp hkey
    have hentry := Dict.get?_eq_some_iff.mp hb
    obtain ⟨hmem, hseq⟩ := hpair hentry
    cases eq_of_seq_eq hrecord (hin b hmem) (hin a ha) hseq
    exact ⟨_, (mem_insertionSort _).mpr hentry, rfl⟩

theorem mergeItems_increasing (seq : α → Nat) (existing pending : List α) :
    (mergeItems seq existing pending).Pairwise fun a b => seq a < seq b := by
  have hentry {k : Nat} {b : α}
      (h : (k, b) ∈ (Dict.empty.update ((existing ++ pending).map fun b => (seq b, b))).entries) :
      seq b = k := by
    rcases Dict.mem_entries_update h with hempty | hlater
    · cases hempty
    · obtain ⟨c, -, heq⟩ := mem_map.mp hlater
      cases heq
      rfl
  rw [mergeItems, pairwise_map]
  generalize hd : Dict.empty.update ((existing ++ pending).map fun b => (seq b, b)) = d
  rw [hd] at hentry
  have hsorted := pairwise_insertionSort (fun a b : Nat × α => a.1 ≤ b.1) d.entries
  have hdistinct : (d.entries.insertionSort fun a b => a.1 ≤ b.1).Pairwise fun a b => a.1 ≠ b.1 :=
    pairwise_map.mp (((perm_insertionSort _ _).map Prod.fst).nodup_iff.mpr d.nodup)
  refine (hsorted.and hdistinct).imp_of_mem fun {a b} ha hb hlt => ?_
  rw [hentry ((mem_insertionSort _).mp ha), hentry ((mem_insertionSort _).mp hb)]
  exact Nat.lt_of_le_of_ne hlt.1 hlt.2

theorem rtake_mergeItems (hrecord : record.Pairwise fun a b => seq a < seq b) {n : Nat}
    (hexisting : ∀ a ∈ existing, a ∈ record) (hpending : pending <:+ record)
    (hlength : min n record.length ≤ pending.length) :
    (mergeItems seq existing pending).rtake n = record.rtake n := by
  classical
  have hmem := mem_mergeItems hrecord hexisting hpending.subset
  have hmerged := mergeItems_increasing seq existing pending
  -- Both lists have increasing numbers, so it is enough to compare their members.
  have heq : mergeItems seq existing pending =
      record.filter fun a => a ∈ existing ++ pending := by
    have hfilter := hrecord.filter fun a => a ∈ existing ++ pending
    have hlt {a b : α} (h : seq a < seq b) : a ≠ b := fun heq => by subst heq; omega
    refine List.Perm.eq_of_pairwise (fun a b _ _ hab hba => ?_) hmerged hfilter
      ((perm_ext_iff_of_nodup (hmerged.imp hlt) (hfilter.imp hlt)).mpr fun a => ?_)
    · omega
    · rw [hmem, mem_filter, decide_eq_true_eq]
      refine ⟨fun ha => ⟨(mem_append.mp ha).elim (hexisting a) fun h => hpending.subset h, ha⟩,
        And.right⟩
  obtain ⟨before, rfl⟩ := hpending
  have hall : pending.filter (fun a => a ∈ existing ++ pending) = pending :=
    filter_eq_self.mpr fun a ha => by simp [ha]
  rw [heq, filter_append, hall]
  rcases Nat.lt_or_ge pending.length n with hlt | hle
  · have hnil : before = [] := by
      rw [length_append] at hlength
      exact length_eq_zero_iff.mp (by omega)
    rw [hnil, filter_nil]
  · rw [rtake_append_of_le hle, rtake_append_of_le hle]

namespace Dict

variable {κ : Type u} {ν : Type v} (time : ν → Int)

/-- The keys of the oldest entries, so many that `limit` are left. -/
def oldest (d : Dict κ ν) (limit : Nat) : List κ :=
  ((d.entries.insertionSort fun a b => time a.2 ≤ time b.2).take
    (d.entries.length - limit)).map Prod.fst

variable [DecidableEq κ]

def dropOldest (d : Dict κ ν) (limit : Nat) : Dict κ ν :=
  d.filter fun k _ => k ∉ d.oldest time limit

theorem filter_perm_drop {l sorted : List (κ × ν)} (hperm : sorted.Perm l)
    (hnodup : (l.map Prod.fst).Nodup) (n : Nat) :
    (l.filter fun e => e.1 ∉ (sorted.take n).map Prod.fst).Perm (sorted.drop n) := by
  have hparts : (sorted.map Prod.fst).Nodup := (hperm.map Prod.fst).nodup_iff.mpr hnodup
  rw [← take_append_drop n sorted, map_append, nodup_append] at hparts
  have htake : (sorted.take n).filter (fun e => e.1 ∉ (sorted.take n).map Prod.fst) = [] := by
    refine filter_eq_nil_iff.mpr fun e he => ?_
    have hmem : e.1 ∈ (sorted.take n).map Prod.fst := mem_map_of_mem he
    simpa using hmem
  have hdrop : (sorted.drop n).filter (fun e => e.1 ∉ (sorted.take n).map Prod.fst) =
      sorted.drop n := by
    refine filter_eq_self.mpr fun e he => decide_eq_true fun hmem => ?_
    exact hparts.2.2 _ hmem _ (mem_map_of_mem he) rfl
  refine (hperm.symm.filter _).trans (List.Perm.of_eq ?_)
  conv_lhs => arg 2; rw [← take_append_drop n sorted]
  rw [filter_append, htake, hdrop, nil_append]

theorem entries_dropOldest (d : Dict κ ν) (limit : Nat) :
    (d.dropOldest time limit).entries.Perm
      ((d.entries.insertionSort fun a b => time a.2 ≤ time b.2).drop
        (d.entries.length - limit)) :=
  filter_perm_drop (perm_insertionSort _ _) d.nodup _

theorem length_dropOldest_le (d : Dict κ ν) (limit : Nat) :
    (d.dropOldest time limit).entries.length ≤ limit := by
  rw [(d.entries_dropOldest time limit).length_eq, length_drop, length_insertionSort]
  omega

theorem oldest_le {d : Dict κ ν} {limit : Nat} {k k' : κ} {v v' : ν} (hk : (k, v) ∈ d.entries)
    (hdropped : k ∈ d.oldest time limit) (hk' : (k', v') ∈ d.entries)
    (hkept : k' ∉ d.oldest time limit) : time v ≤ time v' := by
  obtain ⟨⟨j, w⟩, htake, heq⟩ := mem_map.mp hdropped
  have hj : j = k := heq
  subst hj
  have hw : (j, w) ∈ d.entries := (mem_insertionSort _).mp (take_subset _ _ htake)
  cases Option.some.inj ((get?_eq_some_iff.mpr hw).symm.trans (get?_eq_some_iff.mpr hk))
  have hdrop : (k', v') ∈ (d.entries.insertionSort fun a b => time a.2 ≤ time b.2).drop
      (d.entries.length - limit) := by
    rw [← (d.entries_dropOldest time limit).mem_iff]
    exact mem_filter.mpr ⟨hk', by simpa using hkept⟩
  have hsorted := pairwise_insertionSort (fun a b : κ × ν => time a.2 ≤ time b.2) d.entries
  rw [← take_append_drop (d.entries.length - limit)
    (d.entries.insertionSort fun a b => time a.2 ≤ time b.2), pairwise_append] at hsorted
  exact hsorted.2.2 _ htake _ hdrop

end Dict

end JiuwenSpec.Base

import Mathlib.Data.List.Nodup

/-!
# Taking turns

A counter that goes round a list. However many turns are taken from wherever it stands, no two
members differ by more than one turn.
-/

namespace JiuwenSpec.Base

open List

universe u

variable {α : Type u}

/-- The members that have their turn, for `k` turns from the counter `start`. -/
def turns (l : List α) (start : ℕ) : ℕ → List α
  | 0 => []
  | k + 1 => l[start % l.length]?.toList ++ turns l (start + 1) k

theorem turns_add (l : List α) (start j k : ℕ) :
    turns l start (j + k) = turns l start j ++ turns l (start + j) k := by
  induction j generalizing start with
  | zero => rw [Nat.zero_add]; rfl
  | succ j ih =>
    have hstart : start + 1 + j = start + (j + 1) := by omega
    rw [Nat.succ_add, turns, turns, ih, append_assoc, hstart]

theorem turns_eq_take (l : List α) (i k : ℕ) (h : i + k ≤ l.length) :
    turns l i k = (l.drop i).take k := by
  induction k generalizing i with
  | zero => rfl
  | succ k ih =>
    have hi : i < l.length := by omega
    rw [turns, Nat.mod_eq_of_lt hi, List.getElem?_eq_getElem hi, ih (i + 1) (by omega),
      drop_eq_getElem_cons hi, take_succ_cons]
    rfl

section Count

variable [DecidableEq α]

theorem count_round {l : List α} (hn : l.Nodup) {a : α} (ha : a ∈ l) (start : ℕ) :
    (turns l start l.length).count a = 1 := by
  induction start with
  | zero =>
    rw [turns_eq_take l 0 l.length (Nat.le_of_eq (Nat.zero_add _)), drop_zero,
      take_length]
    exact count_eq_one_of_mem hn ha
  | succ start ih =>
    -- The round that begins one later loses a turn in front and gains it at the end.
    have hfront : turns l start (1 + l.length) =
        l[start % l.length]?.toList ++ turns l (start + 1) l.length := by
      rw [Nat.add_comm]
      rfl
    have hback : turns l start (l.length + 1) =
        turns l start l.length ++ l[start % l.length]?.toList := by
      rw [turns_add, turns, turns, append_nil, Nat.add_mod_right]
    rw [Nat.add_comm, hback] at hfront
    have hcount := congrArg (List.count a) hfront
    rw [count_append, count_append, ih] at hcount
    omega

/-- **Turns are even.** Two members differ by at most one turn. -/
theorem count_turns_le {l : List α} (hn : l.Nodup) {a b : α} (ha : a ∈ l) (hb : b ∈ l)
    (start k : ℕ) : (turns l start k).count a ≤ (turns l start k).count b + 1 := by
  induction k using Nat.strongRecOn generalizing start with
  | ind k ih =>
    by_cases hk : k < l.length
    · have hsplit : l.length = k + (l.length - k) := by omega
      have hround := count_round hn ha start
      rw [hsplit, turns_add, count_append] at hround
      omega
    · have hpos : 0 < l.length := length_pos_of_mem ha
      have hsplit : k = l.length + (k - l.length) := by omega
      have hrest := ih (k - l.length) (by omega) (start + l.length)
      rw [hsplit, turns_add, count_append, count_append, count_round hn ha,
        count_round hn hb]
      omega

end Count

end JiuwenSpec.Base

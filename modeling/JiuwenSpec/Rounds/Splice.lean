import JiuwenSpec.Rounds.WholeTargets

/-!
# Replaced ranges of a list

Ranges that do not overlap are replaced one after another, the last one first. What stands outside
of them is kept in its order, and nothing else is.
Source: `processor/compressor/round_level_compressor.py`, `context/context_utils.py`.
-/

namespace JiuwenSpec.Rounds

open Base List

def Replacement.map {α β : Type} (f : α → β) (r : Replacement α) : Replacement β :=
  ⟨r.start, r.stop, r.messages.map f⟩

def covered {α : Type} (rs : List (Replacement α)) (i : Nat) : Bool :=
  rs.any fun r => decide (r.start ≤ i) && decide (i < r.stop)

theorem covered_eq_true_iff {α : Type} {rs : List (Replacement α)} {i : Nat} :
    covered rs i = true ↔ ∃ r ∈ rs, r.start ≤ i ∧ i < r.stop := by
  simp [covered]

theorem map_replaceRange {α β : Type} (f : α → β) (xs : List α) (r : Replacement α) :
    (replaceRange xs r).map f = replaceRange (xs.map f) (r.map f) := by
  simp [replaceRange, Replacement.map]

theorem map_applyReplacements {α β : Type} (f : α → β) (xs : List α)
    (rs : List (Replacement α)) :
    (applyReplacements xs rs).map f =
      applyReplacements (xs.map f) (rs.map (Replacement.map f)) := by
  have hsort : (rs.insertionSort fun a b => b.start ≤ a.start).map (Replacement.map f) =
      (rs.map (Replacement.map f)).insertionSort fun a b => b.start ≤ a.start :=
    map_insertionSort _ _ _ _ fun _ _ _ _ => Iff.rfl
  rw [applyReplacements, applyReplacements, ← hsort]
  generalize rs.insertionSort (fun a b => b.start ≤ a.start) = sorted
  induction sorted generalizing xs with
  | nil => rfl
  | cons r sorted ih =>
    rw [foldl_cons, ih, map_replaceRange]
    rfl

def kept (marks : List (Nat ⊕ Msg)) : List Nat := marks.filterMap Sum.getLeft?

/-- What stands at a mark: an old message or a new one. -/
def readMark (ms : List Msg) : Nat ⊕ Msg → Option Msg := Sum.elim (ms[·]?) some

/-- The old positions and the new messages after replacements. -/
def marked (n : Nat) (rs : List (Replacement Msg)) : List (Nat ⊕ Msg) :=
  applyReplacements ((List.range n).map Sum.inl) (rs.map (Replacement.map Sum.inr))

theorem read_marked (ms : List Msg) (rs : List (Replacement Msg)) :
    (marked ms.length rs).map (readMark ms) = (applyReplacements ms rs).map some := by
  have hold : ((List.range ms.length).map Sum.inl).map (readMark ms) = ms.map some := by
    refine ext_getElem (by simp) fun i hi hi' => ?_
    simp only [length_map] at hi'
    simp [readMark, hi']
  rw [marked, map_applyReplacements, map_applyReplacements, hold, map_map]
  congr 1
  refine map_congr_left fun r _ => ?_
  simp [Replacement.map, readMark, Function.comp_def]

theorem kept_positions (n : Nat) : kept ((List.range n).map Sum.inl) = List.range n := by
  rw [kept, filterMap_map]
  exact filterMap_some

theorem kept_append (xs ys : List (Nat ⊕ Msg)) : kept (xs ++ ys) = kept xs ++ kept ys :=
  filterMap_append

theorem kept_inr (ms : List Msg) : kept (ms.map Sum.inr) = [] := by
  rw [kept, filterMap_map, filterMap_eq_nil_iff]
  exact fun _ _ => rfl

theorem drop_range (e k : Nat) : (List.range k).drop e = List.range' e (k - e) := by
  rw [range_eq_range', drop_range']
  simp

theorem range_split {s e k : Nat} (hse : s ≤ e) (hek : e ≤ k) :
    List.range k = List.range s ++ (List.range' s (e - s) ++ (List.range k).drop e) := by
  rw [drop_range, range_eq_range', range_eq_range']
  have hmid : List.range' s (e - s) ++ List.range' e (k - e) = List.range' s (k - s) := by
    have h := @List.range'_append s (e - s) (k - e) 1
    rw [Nat.one_mul, Nat.add_sub_cancel' hse] at h
    rw [h]
    congr 1
    omega
  have hall := @List.range'_append 0 s (k - s) 1
  rw [Nat.one_mul, Nat.zero_add] at hall
  rw [hmid, hall]
  congr 1
  omega

theorem kept_foldl {rs : List (Replacement (Nat ⊕ Msg))}
    (hnew : ∀ r ∈ rs, kept r.messages = []) (hdesc : rs.Pairwise fun a b => b.stop ≤ a.start)
    {k : Nat} (hbound : ∀ r ∈ rs, r.start < r.stop ∧ r.stop ≤ k) {xs : List (Nat ⊕ Msg)}
    (hxs : xs.take k = (List.range k).map Sum.inl) :
    kept (rs.foldl replaceRange xs) =
      (List.range k).filter (fun i => !covered rs i) ++ kept (xs.drop k) := by
  induction rs generalizing k xs with
  | nil =>
    have hall : (List.range k).filter (fun i => !covered ([] : List (Replacement (Nat ⊕ Msg))) i) =
        List.range k := filter_eq_self.mpr fun _ _ => rfl
    rw [hall, ← kept_positions k, ← hxs, ← kept_append, take_append_drop]
    rfl
  | cons r rs ih =>
    obtain ⟨hlater, hdesc⟩ := pairwise_cons.mp hdesc
    obtain ⟨hlt, hle⟩ := hbound r (.head _)
    have hlen : k ≤ xs.length := by
      have h := congrArg List.length hxs
      rw [length_take, length_map, length_range] at h
      omega
    have hfront : xs.take r.start = (List.range r.start).map Sum.inl := by
      have h : xs.take r.start = (xs.take k).take r.start := by
        rw [take_take, Nat.min_eq_left (by omega)]
      rw [h, hxs, ← map_take, take_range, Nat.min_eq_left (by omega)]
    have hlength : (xs.take r.start).length = r.start := by
      rw [length_take]
      omega
    have htake : (replaceRange xs r).take r.start = (List.range r.start).map Sum.inl := by
      rw [replaceRange, append_assoc, take_left' hlength, hfront]
    have hdrop : (replaceRange xs r).drop r.start = r.messages ++ xs.drop r.stop := by
      rw [replaceRange, append_assoc, drop_left' hlength]
    have hrest : kept (xs.drop r.stop) = (List.range k).drop r.stop ++ kept (xs.drop k) := by
      have h : xs.drop r.stop = (xs.take k).drop r.stop ++ xs.drop k := by
        conv_lhs => rw [← take_append_drop k xs]
        rw [drop_append_of_le_length]
        rw [length_take]
        omega
      rw [h, kept_append, hxs, ← map_drop, kept, filterMap_map]
      congr 1
      exact filterMap_some
    rw [foldl_cons, ih (fun r' hr' => hnew r' (mem_cons_of_mem _ hr')) hdesc
      (fun r' hr' => ⟨(hbound r' (.tail _ hr')).1, hlater r' hr'⟩) htake, hdrop,
      kept_append, hnew r (.head _), hrest, nil_append, ← append_assoc]
    congr 1
    have hbefore : (List.range r.start).filter (fun i => !covered (r :: rs) i) =
        (List.range r.start).filter fun i => !covered rs i := by
      refine filter_congr fun i hi => ?_
      have hi := mem_range.mp hi
      simp [covered, hi]
    have hinside : (List.range' r.start (r.stop - r.start)).filter
        (fun i => !covered (r :: rs) i) = [] := by
      rw [filter_eq_nil_iff]
      intro i hi
      have hi := mem_range'_1.mp hi
      have h1 : r.start ≤ i := hi.1
      have h2 : i < r.stop := by omega
      simp [covered, h1, h2]
    have hbehind : ((List.range k).drop r.stop).filter (fun i => !covered (r :: rs) i) =
        (List.range k).drop r.stop := by
      rw [filter_eq_self, drop_range]
      intro i hi
      have hi := mem_range'_1.mp hi
      rw [Bool.not_eq_true', ← Bool.not_eq_true, covered_eq_true_iff]
      rintro ⟨r', hr', hstart, hstop⟩
      rcases mem_cons.mp hr' with rfl | hr'
      · omega
      · have := hlater r' hr'
        omega
    conv_rhs => rw [range_split (Nat.le_of_lt hlt) hle, filter_append, filter_append,
      hbefore, hinside, hbehind, nil_append]

theorem kept_marked {n : Nat} {rs : List (Replacement Msg)}
    (hbound : ∀ r ∈ rs, r.start < r.stop ∧ r.stop ≤ n)
    (hapart : rs.Pairwise fun a b => a.stop ≤ b.start ∨ b.stop ≤ a.start) :
    kept (marked n rs) = (List.range n).filter fun i => !covered rs i := by
  let tagged : List (Replacement (Nat ⊕ Msg)) := rs.map (Replacement.map Sum.inr)
  have hperm := perm_insertionSort
    (fun a b : Replacement (Nat ⊕ Msg) => b.start ≤ a.start) tagged
  have hbound' : ∀ r ∈ tagged.insertionSort fun a b => b.start ≤ a.start,
      r.start < r.stop ∧ r.stop ≤ n := by
    intro r hr
    obtain ⟨r, hmem, rfl⟩ := mem_map.mp (hperm.mem_iff.mp hr)
    exact hbound r hmem
  have hnew : ∀ r ∈ tagged.insertionSort fun a b => b.start ≤ a.start, kept r.messages = [] := by
    intro r hr
    obtain ⟨r, -, rfl⟩ := mem_map.mp (hperm.mem_iff.mp hr)
    exact kept_inr r.messages
  have hapart' : (tagged.insertionSort fun a b => b.start ≤ a.start).Pairwise
      fun a b => a.stop ≤ b.start ∨ b.stop ≤ a.start := by
    refine (hperm.pairwise_iff fun {_ _} h => h.symm).mpr ?_
    exact pairwise_map.mpr hapart
  have hsorted : (tagged.insertionSort fun a b => b.start ≤ a.start).Pairwise
      fun a b => b.start ≤ a.start := pairwise_insertionSort _ _
  have hdesc : (tagged.insertionSort fun a b => b.start ≤ a.start).Pairwise
      fun a b => b.stop ≤ a.start := by
    refine (hsorted.and hapart').imp_of_mem fun {a b} ha _ h => ?_
    have := (hbound' a ha).1
    omega
  have hcovered : ∀ i, covered (tagged.insertionSort fun a b => b.start ≤ a.start) i =
      covered rs i := by
    intro i
    rw [covered, hperm.any_eq, any_map]
    rfl
  have htake : ((List.range n).map Sum.inl : List (Nat ⊕ Msg)).take n =
      (List.range n).map Sum.inl := take_of_length_le (by simp)
  have hdrop : ((List.range n).map Sum.inl : List (Nat ⊕ Msg)).drop n = [] :=
    drop_eq_nil_of_le (by simp)
  rw [marked, applyReplacements, kept_foldl hnew hdesc hbound' htake, hdrop, kept,
    filterMap_nil, append_nil]
  exact filter_congr fun i _ => by rw [hcovered]

end JiuwenSpec.Rounds

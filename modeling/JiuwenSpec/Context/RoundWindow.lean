import JiuwenSpec.Context.DialogueRounds

/-!
# All rounds and the last rounds

The whole scan finds the rounds of the conversation exactly when each run of user messages is
answered in turn and closed by its answer. The window of the last rounds then cuts no round.
Source: `core/context_engine/context/context_utils.py`, `context.py`.
-/

namespace JiuwenSpec.Context

open Base List

variable {ms : List Message}

theorem isStart_of_mem {s n : Nat} (h : s ∈ startsBelow ms n) : s < n ∧ isStart ms s = true := by
  rw [startsBelow, mem_reverse, mem_filter, mem_range] at h
  exact h

theorem runEnd_ne_length {r s : Nat} (hrs : r < s) (hs : isStart ms s = true) :
    runEnd ms r ≠ ms.length := by
  rw [runEnd]
  cases hfind : (List.range ms.length).find? fun i => r < i && isStart ms i with
  | none =>
    rw [List.find?_range_eq_none] at hfind
    have hnot := hfind s (lt_length_of_isUser (isUser_of_isStart hs))
    simp [hrs, hs] at hnot
  | some e =>
    have hmem := mem_range.mp (List.find?_range_eq_some.mp hfind).2.1
    exact hmem.ne

theorem answeredInTurn_iff {r s : Nat} (hrs : r < s) (hs : isStart ms s = true) :
    AnsweredInTurn ms r ↔ AnsweredFirst ms r :=
  forall_congr' fun _ => or_iff_left fun h => runEnd_ne_length hrs hs h.1

theorem le_of_lastUser {s v : Nat} (hs : lastBelow (isStart ms) ms.length = some s)
    (hv : lastBelow (isUser ms) ms.length = some v) : s ≤ v := by
  obtain ⟨hsn, hstart, -⟩ := lastBelow_eq_some_iff.mp hs
  by_contra hvs
  have hnot := (lastBelow_eq_some_iff.mp hv).2.2 s (by omega) hsn
  rw [isUser_of_isStart hstart] at hnot
  cases hnot

theorem scanRounds_of_late {s : Nat} (hs : lastBelow (isStart ms) ms.length = some s)
    (ha : ∀ a ∈ lastBelow (isAssistant ms) ms.length, s < a) :
    scanRounds ms ms.length [] = olderRounds ms ms.length := by
  obtain ⟨u, hu, -, hlatest⟩ := found_of_late hs ha
  have htrailing : trailingRound ms u = [] := by
    rw [trailingRound]
    cases hlast : lastBelow (isUser ms) ms.length with
    | none => rfl
    | some v =>
      obtain ⟨hv, hvuser, -⟩ := lastBelow_eq_some_iff.mp hlast
      rw [Option.filter_some_neg (by simpa using hlatest v hv hvuser)]
      rfl
  rw [scanRounds_of_some hu, isEmpty_nil, if_pos rfl, htrailing,
    scanRounds_of_ne_nil (by simp), olderRounds_of_some hu]
  rfl

section Early

/-! The last run has no answer, but an assistant message stands before it. -/

variable {s a : Nat} (hs : lastBelow (isStart ms) ms.length = some s) (has : a < s)
  (hlast : lastBelow (isAssistant ms) ms.length = some a)
include hs has hlast

theorem scanRounds_of_early {u : Nat}
    (hu : lastBelow (isUser ms) (roundEnd ms ms.length) = some u) :
    scanRounds ms ms.length [] = (s, none) :: olderRounds ms s := by
  obtain ⟨hsn, hstart, -⟩ := lastBelow_eq_some_iff.mp hs
  obtain ⟨-, hassistant, hafter⟩ := lastBelow_eq_some_iff.mp hlast
  have hbelow : lastBelow (isAssistant ms) s = some a :=
    lastBelow_eq_some_iff.mpr ⟨has, hassistant, fun j haj hjs => hafter j haj (hjs.trans hsn)⟩
  have htrailing : trailingRound ms u = [(s, none)] := by
    rw [trailingRound]
    cases hlatest : lastBelow (isUser ms) ms.length with
    | none =>
      have hnot := lastBelow_eq_none_iff.mp hlatest s hsn
      rw [isUser_of_isStart hstart] at hnot
      cases hnot
    | some v =>
      have hsv := le_of_lastUser hs hlatest
      obtain ⟨hv, hvuser, -⟩ := lastBelow_eq_some_iff.mp hlatest
      have hua := (lastBelow_eq_some_iff.mp hu).1
      rw [roundEnd, hlast, Option.getD_some] at hua
      rw [Option.filter_some_pos (by simp only [decide_eq_true_eq]; omega)]
      simp [groupStart_eq hs hvuser hv hsv]
  have hclosing : closingAssistant ms ms.length = closingAssistant ms s := by
    rw [closingAssistant, hlast, closingAssistant, hbelow]
  have hus : lastBelow (isUser ms) (roundEnd ms s) = some u := by
    rw [← hu, roundEnd, hbelow, roundEnd, hlast]
    rfl
  rw [scanRounds_of_some hu, isEmpty_nil, if_pos rfl, htrailing,
    scanRounds_of_ne_nil (by simp), olderRounds_of_some hus, hclosing]
  rfl

theorem answeredInTurn_of_early {u : Nat} (hend : runEnd ms s = ms.length)
    (hu : lastBelow (isUser ms) (roundEnd ms ms.length) = some u)
    (h : ∀ r ∈ startsBelow ms s, AnsweredFirst ms r) : AnsweredInTurn ms s := by
  intro _
  obtain ⟨hsn, hstart, -⟩ := lastBelow_eq_some_iff.mp hs
  have hassistant := (lastBelow_eq_some_iff.mp hlast).2.1
  have hgroup := (groupStart_spec (lastBelow_eq_some_iff.mp hu).2.1).1
  have hgroupLt := found_of_early hlast has hu
  cases hr : lastBelow (isStart ms) s with
  | none =>
    have hnot := lastBelow_eq_none_iff.mp hr (groupStart ms u) hgroupLt
    rw [hgroup] at hnot
    cases hnot
  | some r =>
    obtain ⟨hrs, hrstart, hrbetween⟩ := lastBelow_eq_some_iff.mp hr
    have hrend := runEnd_eq hrs hstart hrbetween
    refine .inr ⟨hend, r, hrs, hrstart, hrend, fun hranswer => ?_⟩
    -- Without an answer it would have no assistant message before it.
    have hmem : r ∈ startsBelow ms s := by
      rw [startsBelow_eq, hr]
      exact .head _
    have hfirst := h r hmem hranswer
    rcases Nat.lt_trichotomy a r with har | rfl | hra
    · rw [hfirst a har] at hassistant
      cases hassistant
    · have hnot := isUser_eq_false hassistant
      rw [isUser_of_isStart hrstart] at hnot
      cases hnot
    · rw [answerOf, lastBetween_eq_none_iff, hrend] at hranswer
      rw [hranswer a hra has] at hassistant
      cases hassistant

theorem not_answeredInTurn_of_early (hend : runEnd ms s = ms.length)
    (hu : lastBelow (isUser ms) (roundEnd ms ms.length) = none) : ¬ AnsweredInTurn ms s := by
  intro h
  have hassistant := (lastBelow_eq_some_iff.mp hlast).2.1
  rcases h (answerOf_eq_none hend hlast has) with hfirst | ⟨-, r, hr, hrstart, hrend, hanswer⟩
  · rw [hfirst a has] at hassistant
    cases hassistant
  · cases hrAnswer : answerOf ms r with
    | none => exact hanswer hrAnswer
    | some b =>
      obtain ⟨hrb, hbs, hb, -⟩ := lastBetween_eq_some_iff.mp hrAnswer
      have hsn := (lastBelow_eq_some_iff.mp hs).1
      rw [hrend] at hbs
      have hba : b ≤ a := by
        by_contra hab
        have hnot := (lastBelow_eq_some_iff.mp hlast).2.2 b (by omega) (by omega)
        rw [hb] at hnot
        cases hnot
      rw [roundEnd, hlast, Option.getD_some] at hu
      have hnot := lastBelow_eq_none_iff.mp hu r (by omega)
      rw [isUser_of_isStart hrstart] at hnot
      cases hnot

end Early

theorem findAllDialogueRound_eq_iff : findAllDialogueRound ms = dialogueRounds ms ↔
    ∀ s ∈ startsBelow ms ms.length, ClosedByAnswer ms s ∧ AnsweredInTurn ms s := by
  rw [findAllDialogueRound, dialogueRounds]
  cases hs : lastBelow (isStart ms) ms.length with
  | none =>
    rw [scanRounds_of_none (lastBelow_isUser_eq_none hs), startsBelow_eq, hs]
    simp
  | some s =>
    obtain ⟨hsn, hstart, hbetween⟩ := lastBelow_eq_some_iff.mp hs
    have hend : runEnd ms s = ms.length := by
      refine runEnd_eq_length fun j hj => Bool.eq_false_iff.mpr fun h => ?_
      have hnot := hbetween j hj (lt_length_of_isUser (isUser_of_isStart h))
      rw [h] at hnot
      cases hnot
    have holder : (∀ r ∈ startsBelow ms s, ClosedByAnswer ms r ∧ AnsweredFirst ms r) ↔
        ∀ r ∈ startsBelow ms s, ClosedByAnswer ms r ∧ AnsweredInTurn ms r :=
      forall₂_congr fun r hr => and_congr_right'
        (answeredInTurn_iff (isStart_of_mem hr).1 hstart).symm
    rcases late_or_early hstart ms.length with ha | ⟨a, has, hlast, -⟩
    · rw [scanRounds_of_late hs ha, olderRounds_eq_iff_of_late hs hend ha,
        olderRounds_eq_iff hstart, holder, startsBelow_eq ms.length, hs]
      have hfirst : AnsweredInTurn ms s := fun hnone =>
        .inl (answeredFirst_of_late hend ha hsn hnone)
      simp [hfirst]
    · have hnone := answerOf_eq_none hend hlast has
      cases hu : lastBelow (isUser ms) (roundEnd ms ms.length) with
      | none =>
        rw [scanRounds_of_none hu, startsBelow_eq, hs]
        exact ⟨fun h => (by cases h), fun h => absurd (h s (.head _)).2
          (not_answeredInTurn_of_early hs has hlast hend hu)⟩
      | some u =>
        have hclosed : closingOf ms s = none := by
          rw [closingOf, lastBetween_eq_none_iff]
          intro j hsj hj
          have hnot := lastBetween_eq_none_iff.mp hnone j hsj hj
          rw [Bool.eq_false_iff] at hnot ⊢
          exact fun h => hnot (isAssistant_of_closes h)
        have hturn := fun h : ∀ r ∈ startsBelow ms s, ClosedByAnswer ms r ∧ AnsweredFirst ms r =>
          answeredInTurn_of_early hs has hlast hend hu fun r hr => (h r hr).2
        rw [scanRounds_of_early hs has hlast hu, startsBelow_eq ms.length, hs, map_cons,
          hclosed, List.cons.injEq, olderRounds_eq_iff hstart, forall_mem_cons, ← holder]
        exact ⟨fun h => ⟨⟨fun _ _ _ => hclosed, hturn h.2⟩, h.2⟩, fun h => ⟨rfl, h.2⟩⟩

section Shift

variable {k : Nat}

theorem isUser_drop (i : Nat) : isUser (ms.drop k) i = isUser ms (k + i) := by
  rw [isUser, List.getElem?_drop, isUser]

theorem closesRound_drop (i : Nat) : closesRound (ms.drop k) i = closesRound ms (k + i) := by
  rw [closesRound, List.getElem?_drop, closesRound]

variable (hk : isStart ms k = true)
include hk

theorem isStart_drop (i : Nat) : isStart (ms.drop k) i = isStart ms (k + i) := by
  cases i with
  | zero =>
    rw [Nat.add_zero, hk, isStart, isUser_drop, Nat.add_zero, isUser_of_isStart hk]
    rfl
  | succ i =>
    rw [isStart, isStart, isUser_drop, isUser_drop]
    simp

theorem range_length_eq : List.range ms.length =
    List.range k ++ (List.range (ms.drop k).length).map fun i => k + i := by
  have hlt := lt_length_of_isUser (isUser_of_isStart hk)
  rw [length_drop, ← range_add]
  congr 1
  omega

theorem runEnd_drop (s : Nat) : k + runEnd (ms.drop k) s = runEnd ms (k + s) := by
  have hlt := lt_length_of_isUser (isUser_of_isStart hk)
  have hbefore : (List.range k).find? (fun i => k + s < i && isStart ms i) = none := by
    rw [List.find?_range_eq_none]
    intro i hi
    rw [decide_eq_false (by omega)]
    rfl
  rw [runEnd, runEnd, range_length_eq hk, List.find?_append, hbefore, Option.none_or,
    List.find?_map]
  have hsame : (fun i => decide (k + s < k + i) && isStart ms (k + i)) =
      fun i => decide (s < i) && isStart (ms.drop k) i := by
    funext i
    rw [isStart_drop hk]
    simp
  simp only [Function.comp_def, hsame]
  cases (List.range (ms.drop k).length).find? fun i => decide (s < i) && isStart (ms.drop k) i with
  | none =>
    rw [Option.getD_none, Option.map_none, Option.getD_none, length_drop]
    omega
  | some e => rfl

theorem closingOf_drop (s : Nat) :
    (closingOf (ms.drop k) s).map (fun i => k + i) = closingOf ms (k + s) := by
  have hbefore : (List.range k).filter (fun i => k + s < i && closesRound ms i) = [] := by
    rw [filter_eq_nil_iff]
    intro i hi
    have hik := mem_range.mp hi
    rw [decide_eq_false (by omega)]
    simp
  rw [closingOf, closingOf, ← runEnd_drop hk, lastBetween, lastBetween, range_add,
    filter_append, hbefore, nil_append, filter_map, List.getLast?_map]
  congr 3
  funext i
  rw [closesRound_drop]
  simp

theorem dialogueRounds_drop :
    (dialogueRounds (ms.drop k)).map (fun r => (k + r.1, r.2.map fun i => k + i)) =
      (dialogueRounds ms).filter fun r => k ≤ r.1 := by
  have hbefore : ((List.range k).filter (isStart ms)).filter (fun s => k ≤ s) = [] := by
    rw [filter_eq_nil_iff]
    intro i hi
    have hik := mem_range.mp (mem_of_mem_filter hi)
    simp only [decide_eq_true_eq]
    omega
  have hafter : ((List.range ms.length).filter (isStart ms)).filter (fun s => k ≤ s) =
      ((List.range (ms.drop k).length).filter (isStart (ms.drop k))).map fun i => k + i := by
    have hstarts : (isStart ms ∘ fun i => k + i) = isStart (ms.drop k) :=
      funext fun i => (isStart_drop hk i).symm
    rw [range_length_eq hk, filter_append, filter_append, hbefore, nil_append,
      filter_map, hstarts, filter_eq_self.mpr]
    intro i hi
    obtain ⟨j, -, rfl⟩ := mem_map.mp hi
    exact decide_eq_true (Nat.le_add_right k j)
  have hclosing : ∀ s, (k + s, (closingOf (ms.drop k) s).map fun i => k + i) =
      (k + s, closingOf ms (k + s)) := fun s => by rw [closingOf_drop hk]
  rw [dialogueRounds, dialogueRounds, startsBelow, startsBelow, filter_map,
    filter_reverse]
  change _ = List.map _ (List.filter (fun s => k ≤ s) _).reverse
  rw [hafter, map_map, ← map_reverse, map_map]
  exact map_congr_left fun s _ => hclosing s

end Shift

theorem filter_eq_take {l : List Round} (hl : l.Pairwise fun a b => b.1 < a.1) {j : Nat} {r : Round}
    (hr : l[j]? = some r) : (l.filter fun a => r.1 ≤ a.1) = l.take (j + 1) := by
  induction l generalizing j with
  | nil => cases hr
  | cons a l ih =>
    obtain ⟨hhead, htail⟩ := pairwise_cons.mp hl
    cases j with
    | zero =>
      cases hr
      rw [filter_cons_of_pos (by simp), filter_eq_nil_iff.mpr]
      · rfl
      · intro b hb
        simp only [decide_eq_true_eq, Nat.not_le]
        exact hhead b hb
    | succ j =>
      have hmem : r ∈ l := mem_of_getElem? (by rwa [List.getElem?_cons_succ] at hr)
      rw [filter_cons_of_pos (by simpa using (hhead r hmem).le), ih htail hr]
      rfl

theorem pairwise_dialogueRounds (ms : List Message) :
    (dialogueRounds ms).Pairwise fun a b => b.1 < a.1 := by
  rw [dialogueRounds, pairwise_map, startsBelow, pairwise_reverse]
  exact pairwise_lt_range.filter _

/-- The scan finds one round for each run of user messages, with what closes it, and the window of
`n` rounds holds the last `n` of them, each whole. -/
structure FindsRounds (ms : List Message) : Prop where
  rounds : findAllDialogueRound ms = dialogueRounds ms
  window : ∀ n, 0 < n → ∃ k, lastRounds ms n = ms.drop k ∧
    (dialogueRounds (lastRounds ms n)).map (fun r => (k + r.1, r.2.map fun i => k + i)) =
      (dialogueRounds ms).take n

theorem findsRounds_of_eq (h : findAllDialogueRound ms = dialogueRounds ms) : FindsRounds ms := by
  refine ⟨h, fun n hn => ?_⟩
  cases hlast : findLastNDialogueRound ms n with
  | none =>
    have hnil : dialogueRounds ms = [] := by
      rw [findLastNDialogueRound, h, Option.map_eq_none_iff, List.getElem?_eq_none_iff] at hlast
      exact eq_nil_of_length_eq_zero (by omega)
    refine ⟨0, by rw [lastRounds, hlast, drop_zero], ?_⟩
    rw [lastRounds, hlast]
    simp [hnil]
  | some k =>
    rw [findLastNDialogueRound, h] at hlast
    obtain ⟨r, hr, rfl⟩ := Option.map_eq_some_iff.mp hlast
    have hstart : isStart ms r.1 = true := by
      obtain ⟨s, hs, rfl⟩ := mem_map.mp (mem_of_getElem? hr)
      exact (isStart_of_mem hs).2
    have hrounds : lastRounds ms n = ms.drop r.1 := by
      rw [lastRounds, findLastNDialogueRound, h, hr, Option.map_some]
    refine ⟨r.1, hrounds, ?_⟩
    have hlt := (List.getElem?_eq_some_iff.mp hr).1
    rw [hrounds, dialogueRounds_drop hstart, filter_eq_take (pairwise_dialogueRounds ms) hr]
    by_cases hle : n ≤ (dialogueRounds ms).length
    · congr 1
      omega
    · rw [take_of_length_le (by omega), take_of_length_le (by omega)]

/-- The scan and the window find the rounds exactly when every run of user messages is answered in
turn, and by an answer that closes it. -/
theorem findsRounds_iff (ms : List Message) : FindsRounds ms ↔
    ∀ s ∈ startsBelow ms ms.length, ClosedByAnswer ms s ∧ AnsweredInTurn ms s :=
  ⟨fun h => findAllDialogueRound_eq_iff.mp h.rounds,
    fun h => findsRounds_of_eq (findAllDialogueRound_eq_iff.mpr h)⟩

theorem greeting_hides_question :
    ¬ FindsRounds [⟨assistantRole, [], none⟩, ⟨userRole, [], none⟩] := by
  intro h
  have hrounds := h.rounds
  rw [findAllDialogueRound, scanRounds_of_none (by decide)] at hrounds
  revert hrounds
  decide

end JiuwenSpec.Context

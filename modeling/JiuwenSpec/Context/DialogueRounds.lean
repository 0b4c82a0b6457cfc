import JiuwenSpec.Context.ContextWindow

/-!
# Dialogue rounds

The rounds of a conversation by their definition: one for each run of user messages, from the first
message of the run to the last assistant message without tool calls before the next run. The scan
from the end finds these when each run is answered, and by an assistant that closes it.
Source: `core/context_engine/context/context_utils.py`, `context.py`.
-/

namespace JiuwenSpec.Context

open Base List Option

def isStart (ms : List Message) (i : Nat) : Bool :=
  isUser ms i && (i = 0 || !isUser ms (i - 1))

/-- The starts of the runs below `n`, the newest first. -/
def startsBelow (ms : List Message) (n : Nat) : List Nat :=
  ((List.range n).filter (isStart ms)).reverse

/-- Where the run at `s` ends with what follows it: at the next run, or with the messages. -/
def runEnd (ms : List Message) (s : Nat) : Nat :=
  ((List.range ms.length).find? fun i => s < i && isStart ms i).getD ms.length

/-- The last position between `s` and `n` with a property. -/
def lastBetween (p : Nat → Bool) (s n : Nat) : Option Nat :=
  ((List.range n).filter fun i => s < i && p i).getLast?

/-- The last assistant message without tool calls before the next run. -/
def closingOf (ms : List Message) (s : Nat) : Option Nat :=
  lastBetween (closesRound ms) s (runEnd ms s)

/-- The last assistant message before the next run. -/
def answerOf (ms : List Message) (s : Nat) : Option Nat :=
  lastBetween (isAssistant ms) s (runEnd ms s)

/-- One round for each run of user messages, the newest first. -/
def dialogueRounds (ms : List Message) : List Round :=
  (startsBelow ms ms.length).map fun s => (s, closingOf ms s)

/-- The last answer of a run calls no tools, or no answer of the run is without tool calls. -/
def ClosedByAnswer (ms : List Message) (s : Nat) : Prop :=
  ∀ a ∈ answerOf ms s, closesRound ms a = false → closingOf ms s = none

/-- A run without an answer has no assistant message before it, or it is the last run and the run
before it has an answer. -/
def AnsweredInTurn (ms : List Message) (s : Nat) : Prop :=
  answerOf ms s = none → (∀ a < s, isAssistant ms a = false) ∨
    runEnd ms s = ms.length ∧ ∃ r < s, isStart ms r = true ∧ runEnd ms r = s ∧
      answerOf ms r ≠ none

variable {ms : List Message}

theorem lt_length_of_isUser {i : Nat} (h : isUser ms i = true) : i < ms.length := by
  by_contra hi
  rw [isUser, List.getElem?_eq_none (Nat.not_lt.mp hi)] at h
  cases h

theorem isUser_eq_false {i : Nat} (h : isAssistant ms i = true) : isUser ms i = false := by
  rw [isAssistant, Option.any_eq_true] at h
  obtain ⟨m, hm, hrole⟩ := h
  rw [isUser, hm, Option.any_some, of_decide_eq_true hrole]
  rfl

theorem isAssistant_of_closes {i : Nat} (h : closesRound ms i = true) :
    isAssistant ms i = true := by
  rw [closesRound, Option.any_eq_true] at h
  obtain ⟨m, hm, hcloses⟩ := h
  rw [isAssistant, hm, Option.any_some]
  exact (Bool.and_eq_true_iff.mp hcloses).1

theorem isUser_of_isStart {i : Nat} (h : isStart ms i = true) : isUser ms i = true :=
  (Bool.and_eq_true_iff.mp h).1

theorem isStart_iff {i : Nat} : isStart ms i = true ↔
    isUser ms i = true ∧ (i = 0 ∨ isUser ms (i - 1) = false) := by
  simp [isStart]

theorem groupStart_spec {u : Nat} (h : isUser ms u = true) :
    isStart ms (groupStart ms u) = true ∧
      ∀ j, groupStart ms u ≤ j → j ≤ u → isUser ms j = true := by
  induction u with
  | zero =>
    refine ⟨isStart_iff.mpr ⟨h, .inl rfl⟩, fun j _ hj => ?_⟩
    rwa [Nat.le_zero.mp hj]
  | succ u ih =>
    rw [groupStart]
    split
    · next hu =>
      obtain ⟨hstart, hall⟩ := ih hu
      refine ⟨hstart, fun j hj hju => ?_⟩
      rcases Nat.le_succ_iff.mp hju with hju | rfl
      · exact hall j hj hju
      · exact h
    · next hu =>
      refine ⟨isStart_iff.mpr ⟨h, .inr (Bool.eq_false_iff.mpr hu)⟩, fun j hj hju => ?_⟩
      rwa [Nat.le_antisymm hju hj]

theorem lastBelow_eq_getLast? (p : Nat → Bool) (n : Nat) :
    ((List.range n).filter p).getLast? = lastBelow p n := by
  induction n with
  | zero => rfl
  | succ n ih =>
    rw [range_succ, filter_append, lastBelow]
    cases hp : p n with
    | true => simp [hp]
    | false => simp [hp, ih]

theorem lastBetween_eq_some_iff {p : Nat → Bool} {s n i : Nat} : lastBetween p s n = some i ↔
    s < i ∧ i < n ∧ p i = true ∧ ∀ j, i < j → j < n → p j = false := by
  rw [lastBetween, lastBelow_eq_getLast?, lastBelow_eq_some_iff, Bool.and_eq_true_iff,
    decide_eq_true_eq]
  constructor
  · rintro ⟨hn, ⟨hs, hp⟩, hlast⟩
    refine ⟨hs, hn, hp, fun j hj hjn => ?_⟩
    have hand := hlast j hj hjn
    rwa [decide_eq_true (hs.trans hj), Bool.true_and] at hand
  · rintro ⟨hs, hn, hp, hlast⟩
    refine ⟨hn, ⟨hs, hp⟩, fun j hj hjn => ?_⟩
    rw [hlast j hj hjn, Bool.and_false]

theorem lastBetween_eq_none_iff {p : Nat → Bool} {s n : Nat} :
    lastBetween p s n = none ↔ ∀ j, s < j → j < n → p j = false := by
  rw [lastBetween, lastBelow_eq_getLast?, lastBelow_eq_none_iff]
  constructor
  · intro h j hs hn
    have hand := h j hn
    rwa [decide_eq_true hs, Bool.true_and] at hand
  · intro h j hn
    by_cases hs : s < j
    · rw [h j hs hn, Bool.and_false]
    · rw [decide_eq_false hs, Bool.false_and]

theorem startsBelow_eq (n : Nat) : startsBelow ms n =
    match lastBelow (isStart ms) n with
    | some s => s :: startsBelow ms s
    | none => [] := by
  induction n with
  | zero => rfl
  | succ n ih =>
    rw [startsBelow, range_succ, filter_append, reverse_append, lastBelow]
    cases hn : isStart ms n with
    | true => simp [hn, startsBelow]
    | false =>
      simp only [hn, filter_cons, filter_nil, Bool.false_eq_true, if_false,
        reverse_nil, nil_append]
      exact ih

theorem runEnd_eq {s n : Nat} (hs : s < n) (hn : isStart ms n = true)
    (hbetween : ∀ j, s < j → j < n → isStart ms j = false) : runEnd ms s = n := by
  have hlt := lt_length_of_isUser (isUser_of_isStart hn)
  rw [runEnd, List.find?_range_eq_some.mpr, getD_some]
  refine ⟨by simp [hs, hn], mem_range.mpr hlt, fun j hj => ?_⟩
  by_cases hsj : s < j
  · simp [hbetween j hsj hj]
  · simp [hsj]

theorem runEnd_eq_length {s : Nat} (hlast : ∀ j, s < j → isStart ms j = false) :
    runEnd ms s = ms.length := by
  rw [runEnd, List.find?_range_eq_none.mpr, getD_none]
  intro j _
  by_cases hsj : s < j
  · simp [hlast j hsj]
  · simp [hsj]

section Turn

variable {s n : Nat}

theorem found_of_early {a u : Nat} (ha : lastBelow (isAssistant ms) n = some a) (has : a < s)
    (hu : lastBelow (isUser ms) (roundEnd ms n) = some u) : groupStart ms u < s := by
  rw [roundEnd, ha, getD_some] at hu
  have hlt := (lastBelow_eq_some_iff.mp hu).1
  exact Nat.lt_of_le_of_lt (groupStart_le ms u) (hlt.trans has)

theorem answerOf_eq (hend : runEnd ms s = n) (ha : ∀ a ∈ lastBelow (isAssistant ms) n, s < a) :
    answerOf ms s = lastBelow (isAssistant ms) n := by
  rw [answerOf, hend]
  cases hlast : lastBelow (isAssistant ms) n with
  | none =>
    exact lastBetween_eq_none_iff.mpr fun j _ hj => lastBelow_eq_none_iff.mp hlast j hj
  | some a =>
    obtain ⟨han, hassistant, hbetween⟩ := lastBelow_eq_some_iff.mp hlast
    exact lastBetween_eq_some_iff.mpr ⟨ha a hlast, han, hassistant, hbetween⟩

theorem answerOf_eq_none (hend : runEnd ms s = n) {a : Nat}
    (ha : lastBelow (isAssistant ms) n = some a) (has : a < s) : answerOf ms s = none := by
  rw [answerOf, hend, lastBetween_eq_none_iff]
  exact fun j hsj hj => (lastBelow_eq_some_iff.mp ha).2.2 j (has.trans hsj) hj

theorem closing_eq_iff (hend : runEnd ms s = n)
    (ha : ∀ a ∈ lastBelow (isAssistant ms) n, s < a) :
    closingAssistant ms n = closingOf ms s ↔ ClosedByAnswer ms s := by
  have hanswer := answerOf_eq hend ha
  rw [closingAssistant, ← hanswer, ClosedByAnswer]
  cases hlast : answerOf ms s with
  | none =>
    have hnone : closingOf ms s = none := by
      rw [closingOf, lastBetween_eq_none_iff]
      intro j hsj hj
      have hnot := lastBetween_eq_none_iff.mp hlast j hsj hj
      rw [Bool.eq_false_iff] at hnot ⊢
      exact fun h => hnot (isAssistant_of_closes h)
    simp [hnone]
  | some a =>
    obtain ⟨hsa, han, -, hbetween⟩ := lastBetween_eq_some_iff.mp hlast
    cases hcloses : closesRound ms a with
    | true =>
      have hsome : closingOf ms s = some a := by
        refine lastBetween_eq_some_iff.mpr ⟨hsa, han, hcloses, fun j haj hj => ?_⟩
        have hnot := hbetween j haj hj
        rw [Bool.eq_false_iff] at hnot ⊢
        exact fun h => hnot (isAssistant_of_closes h)
      simp [hsome, hcloses]
    | false =>
      rw [filter_some_neg (by simp [hcloses])]
      simpa [hcloses] using eq_comm

theorem late_or_early (hstart : isStart ms s = true) (n : Nat) :
    (∀ a ∈ lastBelow (isAssistant ms) n, s < a) ∨
      ∃ a < s, lastBelow (isAssistant ms) n = some a ∧ isAssistant ms a = true := by
  cases hlast : lastBelow (isAssistant ms) n with
  | none => exact .inl fun a ha => by cases ha
  | some a =>
    have hassistant := (lastBelow_eq_some_iff.mp hlast).2.1
    rcases Nat.lt_trichotomy s a with hlt | rfl | hlt
    · exact .inl fun b hb => some.inj hb ▸ hlt
    · have hnot := isUser_eq_false hassistant
      rw [isUser_of_isStart hstart] at hnot
      cases hnot
    · exact .inr ⟨a, hlt, rfl, hassistant⟩

variable (hs : lastBelow (isStart ms) n = some s)
include hs

theorem groupStart_eq {v : Nat} (hv : isUser ms v = true) (hvn : v < n) (hsv : s ≤ v) :
    groupStart ms v = s := by
  obtain ⟨-, hstart, hlast⟩ := lastBelow_eq_some_iff.mp hs
  obtain ⟨hgroup, hall⟩ := groupStart_spec hv
  have hle := groupStart_le ms v
  rcases Nat.lt_trichotomy (groupStart ms v) s with hlt | heq | hgt
  · rcases (isStart_iff.mp hstart).2 with rfl | hprev
    · exact absurd hlt (Nat.not_lt_zero _)
    · have hmem := hall (s - 1) (by omega) (by omega)
      rw [hprev] at hmem
      cases hmem
  · exact heq
  · have hnot := hlast _ hgt (by omega)
    rw [hgroup] at hnot
    cases hnot

theorem found_of_late (ha : ∀ a ∈ lastBelow (isAssistant ms) n, s < a) :
    ∃ u, lastBelow (isUser ms) (roundEnd ms n) = some u ∧ groupStart ms u = s ∧
      ∀ v < n, isUser ms v = true → v ≤ u := by
  obtain ⟨hsn, hstart, -⟩ := lastBelow_eq_some_iff.mp hs
  have huser := isUser_of_isStart hstart
  have hend := roundEnd_le ms n
  have hafter : s < roundEnd ms n ∧
      (roundEnd ms n = n ∨ isAssistant ms (roundEnd ms n) = true) := by
    rw [roundEnd]
    cases hlast : lastBelow (isAssistant ms) n with
    | none => exact ⟨hsn, .inl rfl⟩
    | some a => exact ⟨ha a hlast, .inr (lastBelow_eq_some_iff.mp hlast).2.1⟩
  cases hfound : lastBelow (isUser ms) (roundEnd ms n) with
  | none =>
    have hnot := lastBelow_eq_none_iff.mp hfound s hafter.1
    rw [huser] at hnot
    cases hnot
  | some u =>
    obtain ⟨hu, huuser, hbetween⟩ := lastBelow_eq_some_iff.mp hfound
    have hsu : s ≤ u := by
      by_contra hlt
      have hnot := hbetween s (by omega) hafter.1
      rw [huser] at hnot
      cases hnot
    refine ⟨u, rfl, groupStart_eq hs huuser (by omega) hsu, fun v hv hvuser => ?_⟩
    by_contra hlt
    have hvend : roundEnd ms n ≤ v := by
      by_contra hbefore
      have hnot := hbetween v (by omega) (by omega)
      rw [hvuser] at hnot
      cases hnot
    -- The group of `v` would hold the assistant message.
    have hassistant := hafter.2.resolve_left (by omega)
    have hgroup := groupStart_eq hs hvuser hv (by omega)
    have hmem := (groupStart_spec hvuser).2 (roundEnd ms n) (by omega) hvend
    rw [isUser_eq_false hassistant] at hmem
    cases hmem

end Turn

def olderRounds (ms : List Message) (n : Nat) : List Round :=
  match _h : lastBelow (isUser ms) (roundEnd ms n) with
  | none => []
  | some found =>
    (groupStart ms found, closingAssistant ms n) :: olderRounds ms (groupStart ms found)
termination_by n
decreasing_by
  have hfound := (lastBelow_eq_some_iff.mp _h).1
  exact Nat.lt_of_le_of_lt (groupStart_le ms found) (Nat.lt_of_lt_of_le hfound (roundEnd_le ms n))

theorem groupStart_lt {n found : Nat} (h : lastBelow (isUser ms) (roundEnd ms n) = some found) :
    groupStart ms found < n :=
  Nat.lt_of_le_of_lt (groupStart_le ms found)
    (Nat.lt_of_lt_of_le (lastBelow_eq_some_iff.mp h).1 (roundEnd_le ms n))

theorem scanRounds_of_none {n : Nat} (h : lastBelow (isUser ms) (roundEnd ms n) = none)
    (rounds : List Round) : scanRounds ms n rounds = rounds := by
  rw [scanRounds]
  split
  · rfl
  · next hfound =>
    rw [h] at hfound
    cases hfound

theorem scanRounds_of_some {n found : Nat}
    (h : lastBelow (isUser ms) (roundEnd ms n) = some found) (rounds : List Round) :
    scanRounds ms n rounds = scanRounds ms (groupStart ms found)
      ((if rounds.isEmpty then trailingRound ms found else rounds) ++
        [(groupStart ms found, closingAssistant ms n)]) := by
  rw [scanRounds]
  split
  · next hfound =>
    rw [h] at hfound
    cases hfound
  · next hfound =>
    cases h.symm.trans hfound
    rfl

theorem olderRounds_of_none {n : Nat} (h : lastBelow (isUser ms) (roundEnd ms n) = none) :
    olderRounds ms n = [] := by
  rw [olderRounds]
  split
  · rfl
  · next hfound =>
    rw [h] at hfound
    cases hfound

theorem olderRounds_of_some {n found : Nat}
    (h : lastBelow (isUser ms) (roundEnd ms n) = some found) : olderRounds ms n =
      (groupStart ms found, closingAssistant ms n) :: olderRounds ms (groupStart ms found) := by
  rw [olderRounds]
  split
  · next hfound =>
    rw [h] at hfound
    cases hfound
  · next hfound =>
    cases h.symm.trans hfound
    rfl

theorem scanRounds_of_ne_nil {n : Nat} {rounds : List Round} (h : rounds ≠ []) :
    scanRounds ms n rounds = rounds ++ olderRounds ms n := by
  induction n using Nat.strongRecOn generalizing rounds with
  | ind n ih =>
    have hempty : rounds.isEmpty = false := isEmpty_eq_false_iff.mpr h
    cases hfound : lastBelow (isUser ms) (roundEnd ms n) with
    | none => rw [scanRounds_of_none hfound, olderRounds_of_none hfound, append_nil]
    | some found =>
      rw [scanRounds_of_some hfound, olderRounds_of_some hfound, hempty,
        ih _ (groupStart_lt hfound) (by simp)]
      simp

def AnsweredFirst (ms : List Message) (s : Nat) : Prop :=
  answerOf ms s = none → ∀ a < s, isAssistant ms a = false

theorem lastBelow_isUser_eq_none {n : Nat} (hs : lastBelow (isStart ms) n = none) :
    lastBelow (isUser ms) (roundEnd ms n) = none := by
  rw [lastBelow_eq_none_iff]
  intro v hv
  rw [Bool.eq_false_iff]
  intro huser
  have hlt := groupStart_le ms v
  have hend := roundEnd_le ms n
  have hnot := lastBelow_eq_none_iff.mp hs (groupStart ms v) (by omega)
  rw [(groupStart_spec huser).1] at hnot
  cases hnot

theorem olderRounds_eq_iff_of_late {s n : Nat} (hs : lastBelow (isStart ms) n = some s)
    (hend : runEnd ms s = n) (ha : ∀ a ∈ lastBelow (isAssistant ms) n, s < a) :
    olderRounds ms n = (startsBelow ms n).map (fun s => (s, closingOf ms s)) ↔
      ClosedByAnswer ms s ∧
        olderRounds ms s = (startsBelow ms s).map (fun s => (s, closingOf ms s)) := by
  obtain ⟨u, hu, hgroup, -⟩ := found_of_late hs ha
  rw [olderRounds_of_some hu, startsBelow_eq n, hs, hgroup, map_cons, List.cons.injEq,
    Prod.mk.injEq, closing_eq_iff hend ha]
  simp

theorem answeredFirst_of_late {s n : Nat} (hend : runEnd ms s = n)
    (ha : ∀ a ∈ lastBelow (isAssistant ms) n, s < a) : s < n → AnsweredFirst ms s := by
  intro hsn hnone a has
  rw [answerOf_eq hend ha] at hnone
  exact lastBelow_eq_none_iff.mp hnone a (has.trans hsn)

theorem olderRounds_eq_iff {n : Nat} (hn : isStart ms n = true) :
    olderRounds ms n = (startsBelow ms n).map (fun s => (s, closingOf ms s)) ↔
      ∀ s ∈ startsBelow ms n, ClosedByAnswer ms s ∧ AnsweredFirst ms s := by
  induction n using Nat.strongRecOn with
  | ind n ih =>
    cases hs : lastBelow (isStart ms) n with
    | none =>
      rw [olderRounds_of_none (lastBelow_isUser_eq_none hs), startsBelow_eq n, hs]
      simp
    | some s =>
      obtain ⟨hsn, hstart, hbetween⟩ := lastBelow_eq_some_iff.mp hs
      have hend : runEnd ms s = n := runEnd_eq hsn hn hbetween
      rcases late_or_early hstart n with ha | ⟨a, hlt, hlast, hassistant⟩
      · rw [olderRounds_eq_iff_of_late hs hend ha, ih s hsn hstart, startsBelow_eq n, hs]
        have hfirst := answeredFirst_of_late hend ha hsn
        simp [hfirst]
      · -- The scan misses the run.
        constructor
        · intro heq
          rw [startsBelow_eq n, hs, map_cons] at heq
          cases hu : lastBelow (isUser ms) (roundEnd ms n) with
          | none =>
            rw [olderRounds_of_none hu] at heq
            cases heq
          | some u =>
            rw [olderRounds_of_some hu] at heq
            have hgroup := found_of_early hlast hlt hu
            have hhead := congrArg Prod.fst (List.cons.inj heq).1
            exact absurd hhead hgroup.ne
        · intro h
          have hmem : s ∈ startsBelow ms n := by rw [startsBelow_eq n, hs]; exact mem_cons_self
          have hnot := (h s hmem).2 (answerOf_eq_none hend hlast hlt) a hlt
          rw [hassistant] at hnot
          cases hnot

end JiuwenSpec.Context

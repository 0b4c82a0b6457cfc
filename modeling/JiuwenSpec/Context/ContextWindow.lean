import Mathlib.Data.List.DropRight
import JiuwenSpec.Base.Json
import JiuwenSpec.Context.MessageBuffer

/-!
# The window of a context

The window of the last messages: the last dialogue rounds, cut to a size that the system messages
share, without tool messages at its head.
Source: `core/foundation/llm/schema/message.py`, `core/context_engine/context/context_utils.py`,
`context.py`.
-/

namespace JiuwenSpec.Context

open Base List

/-- A message: its role, the ids of the tool calls that it makes, and the id of the call that a
`ToolMessage` answers. -/
structure Message where
  role : Text
  toolCalls : List (Option Text)
  toolCallId : Option Text

/-- The role of an `AssistantMessage`. -/
def assistantRole : Text := ['a', 's', 's', 'i', 's', 't', 'a', 'n', 't']

/-- The role of a `UserMessage`. -/
def userRole : Text := ['u', 's', 'e', 'r']

/-- `isinstance(message, ToolMessage)`. -/
def Message.isTool (m : Message) : Bool := m.toolCallId.isSome

/-- `messages[i].role == "user"`. -/
def isUser (ms : List Message) (i : Nat) : Bool := (ms[i]?).any fun m => m.role = userRole

/-- `messages[i].role == "assistant"`. -/
def isAssistant (ms : List Message) (i : Nat) : Bool := (ms[i]?).any fun m => m.role = assistantRole

def closesRound (ms : List Message) (i : Nat) : Bool :=
  (ms[i]?).any fun m => m.role = assistantRole && m.toolCalls.isEmpty

/-- `while i >= 0 and not p(i): i -= 1`, from below `n`. -/
def lastBelow (p : Nat → Bool) : Nat → Option Nat
  | 0 => none
  | n + 1 => if p n then some n else lastBelow p n

theorem lastBelow_eq_some_iff {p : Nat → Bool} {n i : Nat} :
    lastBelow p n = some i ↔ i < n ∧ p i = true ∧ ∀ j, i < j → j < n → p j = false := by
  induction n with
  | zero => simp [lastBelow]
  | succ n ih =>
    rw [lastBelow]
    split
    · next hp =>
      rw [Option.some.injEq]
      constructor
      · rintro rfl
        exact ⟨Nat.lt_succ_self _, hp, fun j hj hn => absurd hn (by omega)⟩
      · rintro ⟨hi, -, hlast⟩
        by_contra hne
        have hn := hlast n (by omega) (Nat.lt_succ_self n)
        rw [hp] at hn
        cases hn
    · next hp =>
      rw [ih]
      constructor
      · rintro ⟨hi, hpi, hlast⟩
        refine ⟨by omega, hpi, fun j hj hn => ?_⟩
        rcases Nat.lt_succ_iff_lt_or_eq.mp hn with hn | rfl
        · exact hlast j hj hn
        · exact Bool.eq_false_iff.mpr hp
      · rintro ⟨hi, hpi, hlast⟩
        have hne : i ≠ n := by
          rintro rfl
          exact hp hpi
        exact ⟨by omega, hpi, fun j hj hn => hlast j hj (by omega)⟩

theorem lastBelow_eq_none_iff {p : Nat → Bool} {n : Nat} :
    lastBelow p n = none ↔ ∀ j < n, p j = false := by
  induction n with
  | zero => simp [lastBelow]
  | succ n ih =>
    rw [lastBelow]
    split
    · next hp =>
      refine ⟨fun h => (by cases h), fun h => ?_⟩
      rw [h n (Nat.lt_succ_self n)] at hp
      cases hp
    · next hp =>
      rw [ih]
      constructor
      · intro h j hj
        rcases Nat.lt_succ_iff_lt_or_eq.mp hj with hj | rfl
        · exact h j hj
        · exact Bool.eq_false_iff.mpr hp
      · exact fun h j hj => h j (by omega)

/-- `find_contiguous_user_group_start`. -/
def groupStart (ms : List Message) : Nat → Nat
  | 0 => 0
  | i + 1 => if isUser ms i then groupStart ms i else i + 1

theorem groupStart_le (ms : List Message) (i : Nat) : groupStart ms i ≤ i := by
  induction i with
  | zero => exact Nat.le_refl _
  | succ i ih =>
    rw [groupStart]
    split
    · exact Nat.le_succ_of_le ih
    · exact Nat.le_refl _

/-- The start of a round and the assistant message that closes it. -/
abbrev Round := Nat × Option Nat

def roundEnd (ms : List Message) (n : Nat) : Nat := (lastBelow (isAssistant ms) n).getD n

def closingAssistant (ms : List Message) (n : Nat) : Option Nat :=
  (lastBelow (isAssistant ms) n).filter (closesRound ms)

theorem roundEnd_le (ms : List Message) (n : Nat) : roundEnd ms n ≤ n := by
  rw [roundEnd]
  cases h : lastBelow (isAssistant ms) n with
  | none => exact Nat.le_refl _
  | some a => exact (lastBelow_eq_some_iff.mp h).1.le

/-- Before the first round: the last group of user messages after the user message that was found
is an incomplete round. -/
def trailingRound (ms : List Message) (found : Nat) : List Round :=
  ((lastBelow (isUser ms) ms.length).filter fun last => found < last).toList.map fun last =>
    (groupStart ms last, none)

/-- The outer loop of `find_all_dialogue_round` over the first `n` messages. -/
def scanRounds (ms : List Message) (n : Nat) (rounds : List Round) : List Round :=
  match _h : lastBelow (isUser ms) (roundEnd ms n) with
  | none => rounds
  | some found =>
    scanRounds ms (groupStart ms found)
      ((if rounds.isEmpty then trailingRound ms found else rounds) ++
        [(groupStart ms found, closingAssistant ms n)])
termination_by n
decreasing_by
  have hfound := (lastBelow_eq_some_iff.mp _h).1
  exact Nat.lt_of_le_of_lt (groupStart_le ms found) (Nat.lt_of_lt_of_le hfound (roundEnd_le ms n))

/-- `find_all_dialogue_round`, the newest round first. -/
def findAllDialogueRound (ms : List Message) : List Round := scanRounds ms ms.length []

/-- `find_last_n_dialogue_round`, with `none` for `-1`. -/
def findLastNDialogueRound (ms : List Message) (n : Nat) : Option Nat :=
  let rounds := findAllDialogueRound ms
  rounds[min n rounds.length - 1]?.map Prod.fst

/-- The defaults of a `SessionModelContext`, both above zero. -/
structure WindowDefaults where
  defaultWindowSize : Option ℕ+
  defaultDialogueRound : Option ℕ+

/-- A `ContextWindow`, without its tools. -/
structure ContextWindow where
  systemMessages : List Message
  contextMessages : List Message

def lastRounds (ms : List Message) (dialogueRound : Nat) : List Message :=
  match findLastNDialogueRound ms dialogueRound with
  | some i => ms.drop i
  | none => ms

def getWindowMessages (defaults : WindowDefaults) (buffer : ContextMessageBuffer Message)
    (systemMessages : List Message) (windowSize dialogueRound : Option Nat) : ContextWindow :=
  let messages := match dialogueRound.or (defaults.defaultDialogueRound.map fun n => (n : Nat)) with
    | some n => lastRounds (buffer.getBack none true) n
    | none => buffer.getBack none true
  match windowSize.or (defaults.defaultWindowSize.map fun n => (n : Nat)) with
  | none => ⟨systemMessages, messages⟩
  | some size =>
    let systemSize := min systemMessages.length size
    -- With a size of zero, `system_messages[-0:]` would be all of no messages.
    ⟨systemMessages.drop (systemMessages.length - systemSize),
      messages.drop (messages.length - (size - systemSize))⟩

def validateAndFixContextWindow (window : ContextWindow) : ContextWindow :=
  { window with contextMessages := window.contextMessages.dropWhile Message.isTool }

/-- `get_context_window` of a context without processors and window mutators. -/
def getContextWindow (defaults : WindowDefaults) (buffer : ContextMessageBuffer Message)
    (systemMessages : List Message) (windowSize dialogueRound : Option Int) :
    Except Text ContextWindow :=
  if windowSize.any fun size => size ≤ 0 then
    .error "window size should be larger than 0".toList
  else if dialogueRound.any fun n => n ≤ 0 then
    .error "dialogue round should be larger than 0".toList
  else .ok (validateAndFixContextWindow (validateAndFixContextWindow
    (getWindowMessages defaults buffer systemMessages (windowSize.map Int.toNat)
      (dialogueRound.map Int.toNat))))

/-!
## Tool results stay with their calls

The rounds, the size and the repair of the head each leave a suffix. A suffix that does not start
with a tool message starts between two groups of a call and its results, or inside the calls.
Source: `core/context_engine/context/context.py`, `context_utils.py`.
-/

def Message.Calls (a m : Message) : Prop :=
  a.role = assistantRole ∧ ∃ id, m.toolCallId = some id ∧ some id ∈ a.toolCalls

/-- Each tool message follows the assistant message that made its call, with only tool messages
between the two. -/
def Paired (ms : List Message) : Prop :=
  ∀ before m after, ms = before ++ m :: after → m.isTool = true →
    ∃ earlier a tools, before = earlier ++ a :: tools ∧ a.Calls m ∧
      ∀ t ∈ tools, Message.isTool t = true

theorem Paired.of_suffix {ms window : List Message} (h : Paired ms) (hsuffix : window <:+ ms)
    (hhead : ∀ m ∈ window.head?, m.isTool = false) : Paired window := by
  obtain ⟨front, rfl⟩ := hsuffix
  rintro before m after rfl hm
  obtain ⟨earlier, a, tools, hbefore, hcalls, htools⟩ :=
    h (front ++ before) m after (append_assoc ..).symm hm
  rcases append_eq_append_iff.mp hbefore with ⟨middle, rfl, hrest⟩ | ⟨middle, -, hrest⟩
  · exact ⟨middle, a, tools, hrest, hcalls, htools⟩
  · cases middle with
    | nil => exact ⟨[], a, tools, hrest.symm, hcalls, htools⟩
    | cons c middle =>
      -- The call stands before the window, so the window would start with a tool message.
      obtain ⟨rfl, rfl⟩ := List.cons.inj hrest
      cases before with
      | nil => exact absurd (hhead m rfl) (by simp [hm])
      | cons b before =>
        exact absurd (hhead b rfl) (by simp [htools b (by simp)])

theorem contextMessages_suffix (defaults : WindowDefaults) (buffer : ContextMessageBuffer Message)
    (systemMessages : List Message) (windowSize dialogueRound : Option Nat) :
    (getWindowMessages defaults buffer systemMessages windowSize dialogueRound).contextMessages <:+
      buffer.visible := by
  have hrounds : ∀ n, lastRounds (buffer.getBack none true) n <:+ buffer.visible := by
    intro n
    rw [lastRounds]
    split
    · exact drop_suffix _ _
    · exact suffix_refl _
  simp only [getWindowMessages]
  split
  · split
    · exact hrounds _
    · exact suffix_refl _
  · refine (drop_suffix _ _).trans ?_
    split
    · exact hrounds _
    · exact suffix_refl _

theorem length_getWindowMessages {defaults : WindowDefaults}
    {windowSize : Option Nat} {size : Nat}
    (hsize : windowSize.or (defaults.defaultWindowSize.map fun n => (n : Nat)) = some size)
    (buffer : ContextMessageBuffer Message) (systemMessages : List Message)
    (dialogueRound : Option Nat) :
    (getWindowMessages defaults buffer systemMessages windowSize
        dialogueRound).systemMessages.length +
      (getWindowMessages defaults buffer systemMessages windowSize
        dialogueRound).contextMessages.length ≤ size := by
  simp only [getWindowMessages, hsize, length_drop]
  omega

theorem head?_dropWhile {ms : List Message} {m : Message}
    (h : m ∈ (ms.dropWhile Message.isTool).head?) : m.isTool = false := by
  have hnot := List.head?_dropWhile_not Message.isTool ms
  rw [h] at hnot
  exact hnot

theorem validate_idem (window : ContextWindow) :
    validateAndFixContextWindow (validateAndFixContextWindow window) =
      validateAndFixContextWindow window := by
  simp only [validateAndFixContextWindow, dropWhile_idempotent]

/-- A context window is within its size, has the call of each of its tool messages, and is the rest
of a suffix of the messages after the tool messages at its head. -/
theorem getContextWindow_paired (defaults : WindowDefaults)
    (buffer : ContextMessageBuffer Message) (systemMessages history : List Message)
    (windowSize dialogueRound : Option Int) (hhistory : Paired history)
    (hvisible : buffer.visible <:+ history) (hsize : ∀ size ∈ windowSize, 0 < size)
    (hround : ∀ n ∈ dialogueRound, 0 < n) :
    ∃ window,
      getContextWindow defaults buffer systemMessages windowSize dialogueRound = .ok window ∧
      (∀ size, (windowSize.map Int.toNat).or
          (defaults.defaultWindowSize.map fun n => (n : Nat)) = some size →
        window.systemMessages.length + window.contextMessages.length ≤ size) ∧
      window.systemMessages <:+ systemMessages ∧ Paired window.contextMessages ∧
      ∃ suffix, suffix <:+ history ∧
        window.contextMessages = suffix.dropWhile Message.isTool := by
  let taken := getWindowMessages defaults buffer systemMessages (windowSize.map Int.toNat)
    (dialogueRound.map Int.toNat)
  have hsuffix : taken.contextMessages <:+ history :=
    (contextMessages_suffix ..).trans hvisible
  refine ⟨validateAndFixContextWindow taken, ?_, ?_, ?_, ?_, taken.contextMessages, hsuffix, rfl⟩
  · have hpositive : ∀ {o : Option Int}, (∀ n ∈ o, 0 < n) → o.any (fun n => n ≤ 0) = false := by
      rintro (_ | n) ho
      · rfl
      · exact decide_eq_false (Int.not_le.mpr (ho n rfl))
    simp only [getContextWindow, hpositive hsize, hpositive hround, Bool.false_eq_true, if_false,
      validate_idem]
    rfl
  · intro size hor
    have hlength := length_getWindowMessages hor buffer systemMessages
      (dialogueRound.map Int.toNat)
    have hdrop := (dropWhile_sublist Message.isTool (l := taken.contextMessages)).length_le
    exact (Nat.add_le_add_left hdrop _).trans hlength
  · change taken.systemMessages <:+ systemMessages
    simp only [taken, getWindowMessages]
    split
    · exact suffix_refl _
    · exact drop_suffix _ _
  · exact hhistory.of_suffix ((dropWhile_suffix _).trans hsuffix) fun m hm =>
      head?_dropWhile hm

def questionAndCall : List Message :=
  [⟨userRole, [], none⟩, ⟨assistantRole, [some ['c']], none⟩,
    ⟨['t', 'o', 'o', 'l'], [], some ['c']⟩]

theorem paired_questionAndCall : Paired questionAndCall := by
  rintro before m after h hm
  match before, h with
  | [], h =>
    cases h
    cases hm
  | [_], h =>
    cases h
    cases hm
  | [u, a], h =>
    obtain ⟨rfl, rfl, rfl, rfl⟩ : _ = u ∧ _ = a ∧ _ = m ∧ [] = after := by
      simpa [questionAndCall] using h
    refine ⟨[_], ⟨assistantRole, [some ['c']], none⟩, [], rfl, ⟨rfl, _, rfl, ?_⟩, ?_⟩
    · exact .head _
    · exact fun t ht => by cases ht
  | _ :: _ :: _ :: rest, h => simp [questionAndCall] at h

/-- Cut to one message, the window of these drops the result with its call. -/
theorem window_questionAndCall : ∃ window,
    getContextWindow ⟨none, none⟩ (.rebuild none questionAndCall) [] (some 1) none = .ok window ∧
      Paired window.contextMessages := by
  obtain ⟨window, hwindow, -, -, hpaired, -⟩ := getContextWindow_paired ⟨none, none⟩
    (.rebuild none questionAndCall) [] questionAndCall (some 1) none paired_questionAndCall
    (suffix_refl _) (by simp) (by simp)
  exact ⟨window, hwindow, hpaired⟩

end JiuwenSpec.Context

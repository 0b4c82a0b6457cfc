import JiuwenSpec.Team.BatchReads

/-!
# What is read stays read

No operation on the message tables takes a message away, alters what it says, or makes it unread.
-/

namespace JiuwenSpec.Team

open Base Dict

namespace MessageBoard

variable {b b' : MessageBoard}

/-- Every message of the first state is in the second, and what was read there is read here. -/
def Stays (b b' : MessageBoard) : Prop :=
  ∀ id m, b.messages.get? id = some m → ∃ m', b'.messages.get? id = some m' ∧
    m'.letter = m.letter ∧ (m.isRead = some true → m'.isRead = some true)

theorem stays_of_eq (h : b'.messages = b.messages) : b.Stays b' :=
  fun _ m hm => ⟨m, by rw [h, hm], rfl, id⟩

theorem Stays.trans {c : MessageBoard} (h : b.Stays b') (h' : b'.Stays c) : b.Stays c := by
  intro id m hm
  obtain ⟨m₁, hm₁, hletter, hread⟩ := h id m hm
  obtain ⟨m₂, hm₂, hletter', hread'⟩ := h' id m₁ hm₁
  exact ⟨m₂, hm₂, hletter'.trans hletter, hread' ∘ hread⟩

theorem stays_insertMessage {messageId : String} {message : TeamMessage}
    (h : b.insertMessage messageId message = some b') : b.Stays b' := by
  unfold insertMessage at h
  split at h
  · cases h
  · next hfresh =>
    cases h
    intro id m hm
    refine ⟨m, ?_, rfl, fun hread => hread⟩
    dsimp only
    rw [get?_set_of_ne, hm]
    rintro rfl
    exact hfresh (.inl (mem_keys_iff.mpr ⟨m, hm⟩))

theorem stays_insertDirects {now : Int} {teamName sender : String}
    {recipients : List (String × String)}
    (h : insertDirects now teamName sender b recipients = some b') : b.Stays b' := by
  induction recipients generalizing b with
  | nil =>
    cases h
    exact stays_of_eq rfl
  | cons recipient recipients ih =>
    obtain ⟨b₁, hinsert, hrest⟩ := Option.bind_eq_some_iff.mp h
    exact (stays_insertMessage hinsert).trans (ih hrest)

theorem stays_readDirect (messageIds : List String) : b.Stays (b.readDirect messageIds) := by
  intro id m hm
  rw [get?_readDirect, hm, Option.map_some]
  refine ⟨_, rfl, ?_, fun hread => ?_⟩
  · split <;> rfl
  · split
    · rfl
    · exact hread

theorem stays_markMessageRead (messageId reader : String) :
    b.Stays (b.markMessageRead messageId reader).1 := by
  intro id m hm
  rw [get?_markMessageRead, hm, Option.map_some]
  refine ⟨_, rfl, ?_, fun hread => ?_⟩
  · unfold flagged
    split <;> rfl
  · unfold flagged
    split
    · rfl
    · exact hread

theorem stays_readEach (reader : String) (messageIds : List String) :
    b.Stays (readEach reader b messageIds) := by
  induction messageIds generalizing b with
  | nil => exact stays_of_eq rfl
  | cons id messageIds ih => exact (stays_markMessageRead id reader).trans ih

theorem stays_step (op : MessageOp) : b.Stays (b.step op) := by
  cases op with
  | createMessage =>
    change b.Stays (b.createMessage ..).1
    unfold createMessage
    split
    · next hinsert => exact stays_insertMessage hinsert
    · exact stays_of_eq rfl
  | createDirectMessages =>
    change b.Stays (b.createDirectMessages ..).1
    unfold createDirectMessages
    split
    · next hinsert => exact stays_insertDirects hinsert
    · exact stays_of_eq rfl
  | markMessageRead id reader => exact stays_markMessageRead id reader
  | markMessagesRead ids reader =>
    change b.Stays (b.markMessagesRead ids reader).1
    unfold markMessagesRead
    dsimp only
    rw [markBroadcasts_eq]
    exact (stays_readDirect _).trans (stays_readEach reader _)
  | roster => exact stays_of_eq rfl

end MessageBoard

end JiuwenSpec.Team

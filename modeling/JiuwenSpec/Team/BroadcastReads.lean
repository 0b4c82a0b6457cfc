import JiuwenSpec.Team.MessageBoard

/-!
# What the broadcast watermark covers

The watermark of a member is the largest timestamp the member has marked, so it covers a
broadcast exactly when some marked broadcast of the team is not older. Messages sent later
count by their timestamps only, not by the order in which they were sent.
-/

namespace JiuwenSpec.Team

open Base List Dict

/-- What never changes about a message: everything but its read flag. -/
def TeamMessage.letter (m : TeamMessage) : TeamMessage := { m with isRead := none }

def MessageOp.marking (memberName : String) : MessageOp → List String
  | .markMessageRead messageId reader => if reader = memberName then [messageId] else []
  | .markMessagesRead messageIds reader => if reader = memberName then messageIds else []
  | _ => []

namespace MessageBoard

def letter? (b : MessageBoard) (messageId : String) : Option TeamMessage :=
  (b.messages.get? messageId).map TeamMessage.letter

def Covered (b : MessageBoard) (memberName teamName : String) (time : Int) : Prop :=
  ∃ readAt, b.readStatus.get? (memberName, teamName) = some readAt ∧ time ≤ readAt

def Lifts (b : MessageBoard) (memberName messageId teamName : String) (time : Int) : Prop :=
  ∃ l, b.letter? messageId = some l ∧ l.broadcast = true ∧ b.mayMark l memberName = true ∧
    l.teamName = teamName ∧ time ≤ l.timestamp

def Marks (b : MessageBoard) (op : MessageOp) (memberName messageId : String) : Prop :=
  messageId ∈ op.marking memberName ∧ ∃ message, b.messages.get? messageId = some message ∧
    message.broadcast = true ∧ b.mayMark message memberName = true

/-- Some operation of the run marks the broadcast for the member. -/
def MarkedIn (memberName messageId : String) : MessageBoard → List MessageOp → Prop
  | _, [] => False
  | b, op :: ops =>
    b.Marks op memberName messageId ∨ MarkedIn memberName messageId (b.step op) ops

/-- Two states of the tables with the same letters and the same roster. -/
def SameLetters (b b' : MessageBoard) : Prop :=
  (∀ messageId, b'.letter? messageId = b.letter? messageId) ∧ b'.members = b.members

theorem SameLetters.refl (b : MessageBoard) : b.SameLetters b := ⟨fun _ => rfl, rfl⟩

variable {b : MessageBoard}

theorem SameLetters.trans {a c : MessageBoard} (h : a.SameLetters b) (h' : b.SameLetters c) :
    a.SameLetters c :=
  ⟨fun id => (h'.1 id).trans (h.1 id), h'.2.trans h.2⟩

variable {messageId : String}

variable {b' : MessageBoard} {memberName : String}

theorem SameLetters.lifts_iff (h : b.SameLetters b') {teamName : String} {time : Int} :
    b'.Lifts memberName messageId teamName time ↔ b.Lifts memberName messageId teamName time := by
  simp only [Lifts, mayMark, h.1, h.2]

theorem sameLetters_readDirect (b : MessageBoard) (messageIds : List String) :
    b.SameLetters (b.readDirect messageIds) := by
  refine ⟨fun id => ?_, rfl⟩
  show ((b.messages.mapValues _).get? id).map _ = (b.messages.get? id).map _
  rw [get?_mapValues, Option.map_map]
  congr 1
  funext m
  show TeamMessage.letter (if id ∈ messageIds then _ else m) = m.letter
  split <;> rfl

theorem sameLetters_readBroadcast (b : MessageBoard) (message : TeamMessage)
    (memberName : String) : b.SameLetters (b.readBroadcast message memberName) := by
  unfold readBroadcast
  dsimp only
  split
  · exact ⟨fun _ => rfl, rfl⟩
  · split
    · exact ⟨fun _ => rfl, rfl⟩
    · exact SameLetters.refl b

theorem sameLetters_markMessageRead (b : MessageBoard) (messageId memberName : String) :
    b.SameLetters (b.markMessageRead messageId memberName).1 := by
  unfold markMessageRead
  split
  · exact SameLetters.refl b
  · split
    · split
      · exact sameLetters_readBroadcast ..
      · exact sameLetters_readDirect ..
    · exact SameLetters.refl b

theorem markBroadcasts_cons (memberName : String) (b : MessageBoard) (marked : Nat)
    (messageId : String) (messageIds : List String) :
    ∃ marked', markBroadcasts memberName (b, marked) (messageId :: messageIds) =
      markBroadcasts memberName ((b.markMessageRead messageId memberName).1, marked')
        messageIds := by
  rw [markBroadcasts]
  split
  · next h => exact ⟨marked + 1, by rw [h]⟩
  · next h => exact ⟨marked, by rw [h]⟩

theorem sameLetters_markBroadcasts (memberName : String) (messageIds : List String)
    (b : MessageBoard) (marked : Nat) :
    b.SameLetters (markBroadcasts memberName (b, marked) messageIds).1 := by
  induction messageIds generalizing b marked with
  | nil => exact SameLetters.refl b
  | cons messageId messageIds ih =>
    obtain ⟨marked', hcons⟩ := markBroadcasts_cons memberName b marked messageId messageIds
    rw [hcons]
    exact (sameLetters_markMessageRead b messageId memberName).trans (ih _ _)

theorem letter?_insertMessage {message : TeamMessage}
    (h : b.insertMessage messageId message = some b') {id : String} {l : TeamMessage}
    (hl : b.letter? id = some l) : b'.letter? id = some l := by
  unfold insertMessage at h
  split at h
  · cases h
  next hfresh =>
  cases h
  show ((b.messages.set messageId message).get? id).map _ = some l
  rw [get?_set]
  split
  · next heq =>
    subst heq
    obtain ⟨m, hm, -⟩ := Option.map_eq_some_iff.mp hl
    exact absurd (Or.inl (mem_keys_iff.mpr ⟨m, hm⟩)) hfresh
  · exact hl

theorem readStatus_insertMessage
    {message : TeamMessage} (h : b.insertMessage messageId message = some b') :
    b'.readStatus = b.readStatus := by
  unfold insertMessage at h
  split at h
  · cases h
  · cases h
    rfl

theorem insertDirects_frame {now : Int} {teamName fromMemberName : String}
    {recipients : List (String × String)}
    (h : insertDirects now teamName fromMemberName b recipients = some b') :
    b'.readStatus = b.readStatus ∧
      ∀ id l, b.letter? id = some l → b'.letter? id = some l := by
  induction recipients generalizing b with
  | nil =>
    cases h
    exact ⟨rfl, fun _ _ hl => hl⟩
  | cons recipient recipients ih =>
    rw [insertDirects] at h
    obtain ⟨b₁, hinsert, hrest⟩ := Option.bind_eq_some_iff.mp h
    obtain ⟨hstatus, hletters⟩ := ih hrest
    exact ⟨hstatus.trans (readStatus_insertMessage hinsert),
      fun id l hl => hletters id l (letter?_insertMessage hinsert hl)⟩

theorem sameLetters_markMessagesRead (b : MessageBoard) (messageIds : List String)
    (memberName : String) : b.SameLetters (b.markMessagesRead messageIds memberName).1 :=
  (sameLetters_readDirect b _).trans (sameLetters_markBroadcasts ..)

theorem letter?_step {l : TeamMessage} (h : b.letter? messageId = some l) (op : MessageOp) :
    (b.step op).letter? messageId = some l := by
  cases op with
  | createMessage =>
    show (b.createMessage ..).1.letter? messageId = some l
    unfold createMessage
    split
    · next hinsert => exact letter?_insertMessage hinsert h
    · exact h
  | createDirectMessages =>
    show (b.createDirectMessages ..).1.letter? messageId = some l
    unfold createDirectMessages
    split
    · next hinsert => exact (insertDirects_frame hinsert).2 messageId l h
    · exact h
  | markMessageRead id reader => exact ((sameLetters_markMessageRead b id reader).1 _).trans h
  | markMessagesRead ids reader => exact ((sameLetters_markMessagesRead b ids reader).1 _).trans h
  | roster => exact h

theorem letter?_run {l : TeamMessage} (h : b.letter? messageId = some l) (ops : List MessageOp) :
    (run step b ops).letter? messageId = some l := by
  induction ops generalizing b with
  | nil => exact h
  | cons op ops ih => exact ih (letter?_step h op)

theorem covered_readBroadcast (b : MessageBoard) (message : TeamMessage) (reader : String)
    (memberName teamName : String) (time : Int) :
    (b.readBroadcast message reader).Covered memberName teamName time ↔
      b.Covered memberName teamName time ∨
        (reader = memberName ∧ message.teamName = teamName ∧ time ≤ message.timestamp) := by
  by_cases hkey : (memberName, teamName) = (reader, message.teamName)
  · obtain ⟨rfl, rfl⟩ := Prod.mk.inj hkey
    simp only [Covered, readBroadcast, true_and]
    cases hstatus : b.readStatus.get? (memberName, message.teamName) with
    | none => simp
    | some readAt =>
      simp only [Option.some.injEq, exists_eq_left']
      split
      · simp only [get?_set_self, Option.some.injEq, exists_eq_left']
        omega
      · simp only [hstatus, Option.some.injEq, exists_eq_left']
        omega
  · have hother : ¬ (reader = memberName ∧ message.teamName = teamName ∧
        time ≤ message.timestamp) := by
      intro hsame
      exact hkey (by rw [hsame.1, hsame.2.1])
    have hget : (b.readBroadcast message reader).readStatus.get? (memberName, teamName) =
        b.readStatus.get? (memberName, teamName) := by
      unfold readBroadcast
      dsimp only
      split
      · exact get?_set_of_ne _ _ hkey
      · split
        · exact get?_set_of_ne _ _ hkey
        · rfl
    simp only [Covered, hget, hother, or_false]

theorem covered_markMessageRead (b : MessageBoard) (messageId reader : String)
    (memberName teamName : String) (time : Int) :
    (b.markMessageRead messageId reader).1.Covered memberName teamName time ↔
      b.Covered memberName teamName time ∨
        (reader = memberName ∧ b.Lifts memberName messageId teamName time) := by
  unfold markMessageRead Lifts letter?
  cases hget : b.messages.get? messageId with
  | none => simp
  | some message =>
    simp only [Option.map_some, Option.some.injEq, exists_eq_left']
    have hmay : b.mayMark message.letter reader = b.mayMark message reader := rfl
    split
    · next hok =>
      split
      · next hbroadcast =>
        rw [covered_readBroadcast]
        apply or_congr Iff.rfl
        apply and_congr_right
        intro hreader
        subst hreader
        have hletter : message.letter.broadcast = true := hbroadcast
        simp only [hmay, hok, hletter, true_and]
        exact Iff.rfl
      · next hdirect =>
        have hletter : message.letter.broadcast ≠ true := hdirect
        simp [Covered, readDirect, hletter]
    · next hok =>
      apply Iff.symm
      apply or_iff_left
      intro hlift
      obtain ⟨rfl, -, hmark, -⟩ := hlift
      exact hok hmark

theorem covered_markBroadcasts (reader : String) (messageIds : List String) (b : MessageBoard)
    (marked : Nat) (memberName teamName : String) (time : Int) :
    (markBroadcasts reader (b, marked) messageIds).1.Covered memberName teamName time ↔
      b.Covered memberName teamName time ∨
        (reader = memberName ∧ ∃ id ∈ messageIds, b.Lifts memberName id teamName time) := by
  induction messageIds generalizing b marked with
  | nil => simp [markBroadcasts]
  | cons messageId messageIds ih =>
    obtain ⟨marked', hcons⟩ := markBroadcasts_cons reader b marked messageId messageIds
    rw [hcons, ih, covered_markMessageRead]
    simp only [(sameLetters_markMessageRead b messageId reader).lifts_iff, mem_cons,
      exists_eq_or_imp]
    tauto

theorem covered_step (b : MessageBoard) (op : MessageOp) (memberName teamName : String)
    (time : Int) :
    (b.step op).Covered memberName teamName time ↔
      b.Covered memberName teamName time ∨
        ∃ id ∈ op.marking memberName, b.Lifts memberName id teamName time := by
  cases op with
  | createMessage =>
    simp only [MessageOp.marking, not_mem_nil, false_and, exists_false, or_false]
    show (b.createMessage ..).1.Covered .. ↔ _
    unfold createMessage
    split
    · next hinsert => simp only [Covered, readStatus_insertMessage hinsert]
    · exact Iff.rfl
  | createDirectMessages =>
    simp only [MessageOp.marking, not_mem_nil, false_and, exists_false, or_false]
    show (b.createDirectMessages ..).1.Covered .. ↔ _
    unfold createDirectMessages
    split
    · next hinsert => simp only [Covered, (insertDirects_frame hinsert).1]
    · exact Iff.rfl
  | markMessageRead id reader =>
    apply (covered_markMessageRead b id reader memberName teamName time).trans
    by_cases h : reader = memberName
    · simp [MessageOp.marking, h]
    · simp [MessageOp.marking, h]
  | markMessagesRead ids reader =>
    apply (covered_markBroadcasts ..).trans
    simp only [(sameLetters_readDirect b _).lifts_iff]
    apply or_congr
    · exact Iff.rfl
    · simp only [MessageOp.marking]
      by_cases h : reader = memberName
      · simp only [h, true_and, if_true]
        constructor
        · rintro ⟨id, hid, hlift⟩
          refine ⟨id, ?_, hlift⟩
          simp only [mem_map, mem_filter, decide_eq_true_eq] at hid
          obtain ⟨e, ⟨⟨-, he⟩, -⟩, rfl⟩ := hid
          exact he
        · rintro ⟨id, hid, hlift⟩
          refine ⟨id, ?_, hlift⟩
          obtain ⟨l, hl, hbroadcast, -⟩ := hlift
          obtain ⟨m, hm, rfl⟩ := Option.map_eq_some_iff.mp hl
          simp only [mem_map, mem_filter, decide_eq_true_eq]
          exact ⟨(id, m), ⟨⟨get?_eq_some_iff.mp hm, hid⟩, hbroadcast⟩, rfl⟩
      · simp [h]
  | roster =>
    simp only [MessageOp.marking, not_mem_nil, false_and, exists_false, or_false]
    exact Iff.rfl

theorem exists_lifts_iff (b : MessageBoard) (op : MessageOp) (memberName teamName : String)
    (time : Int) :
    (∃ id ∈ op.marking memberName, b.Lifts memberName id teamName time) ↔
      ∃ id l, b.Marks op memberName id ∧ b.letter? id = some l ∧ l.teamName = teamName ∧
        time ≤ l.timestamp := by
  constructor
  · intro ⟨id, hid, l, hl, hbroadcast, hmay, hteam, htime⟩
    obtain ⟨m, hm, rfl⟩ := Option.map_eq_some_iff.mp hl
    exact ⟨id, m.letter, ⟨hid, m, hm, hbroadcast, hmay⟩, hl, hteam, htime⟩
  · intro ⟨id, l, ⟨hid, m, hm, hbroadcast, hmay⟩, hl, hteam, htime⟩
    have hlm : m.letter = l := by
      rw [letter?, hm] at hl
      exact Option.some.inj hl
    subst hlm
    exact ⟨id, hid, m.letter, hl, hbroadcast, hmay, hteam, htime⟩

theorem covered_run (ops : List MessageOp) (b : MessageBoard) (memberName teamName : String)
    (time : Int) :
    (run step b ops).Covered memberName teamName time ↔
      b.Covered memberName teamName time ∨
        ∃ id l, MarkedIn memberName id b ops ∧ (run step b ops).letter? id = some l ∧
          l.teamName = teamName ∧ time ≤ l.timestamp := by
  induction ops generalizing b with
  | nil => simp [MarkedIn]
  | cons op ops ih =>
    rw [run_cons, ih, covered_step, exists_lifts_iff, or_assoc]
    apply or_congr Iff.rfl
    constructor
    · intro h
      cases h with
      | inl hnow =>
        obtain ⟨id, l, hmarks, hl, hrest⟩ := hnow
        exact ⟨id, l, Or.inl hmarks, letter?_run (letter?_step hl op) ops, hrest⟩
      | inr hlater =>
        obtain ⟨id, l, hmarked, hrest⟩ := hlater
        exact ⟨id, l, Or.inr hmarked, hrest⟩
    · intro ⟨id, l, hmarked, hl, hrest⟩
      cases hmarked with
      | inl hmarks =>
        obtain ⟨m, hm, -⟩ := hmarks.2
        have hsame : b.letter? id = some m.letter := by rw [letter?, hm, Option.map_some]
        have hlater := letter?_run (letter?_step hsame op) ops
        have hlm : m.letter = l := Option.some.inj (hlater.symm.trans hl)
        exact Or.inl ⟨id, l, hmarks, hlm ▸ hsame, hrest⟩
      | inr hlater => exact Or.inr ⟨id, l, hlater, hl, hrest⟩

theorem mem_unread_iff (b : MessageBoard) (teamName memberName messageId : String) :
    messageId ∈ (b.getBroadcastMessages teamName memberName true none).map Prod.fst ↔
      ∃ m, b.messages.get? messageId = some m ∧ m.teamName = teamName ∧ m.broadcast = true ∧
        m.fromMemberName ≠ memberName ∧ ¬ b.Covered memberName teamName m.timestamp := by
  have hrows : ∀ e : String × TeamMessage,
      e ∈ b.getBroadcastMessages teamName memberName true none ↔
        e ∈ b.messages.entries ∧ (e.2.teamName = teamName ∧ e.2.broadcast = true ∧
          e.2.fromMemberName ≠ memberName) ∧
          ¬ b.Covered memberName teamName e.2.timestamp := by
    intro e
    unfold getBroadcastMessages Covered
    cases b.readStatus.get? (memberName, teamName) with
    | none => simp
    | some readAt => simp [and_assoc]
  constructor
  · intro h
    obtain ⟨e, he, rfl⟩ := mem_map.mp h
    obtain ⟨hentry, ⟨hteam, hbroadcast, hsender⟩, hfresh⟩ := (hrows e).mp he
    exact ⟨e.2, get?_eq_some_iff.mpr hentry, hteam, hbroadcast, hsender, hfresh⟩
  · intro ⟨m, hm, hteam, hbroadcast, hsender, hfresh⟩
    apply mem_map.mpr
    exact ⟨(messageId, m), (hrows _).mpr ⟨get?_eq_some_iff.mp hm,
      ⟨hteam, hbroadcast, hsender⟩, hfresh⟩, rfl⟩

theorem get?_letter {m : TeamMessage}
    (h : b.messages.get? messageId = some m) (ops : List MessageOp) :
    (run step b ops).letter? messageId = some m.letter :=
  letter?_run (by rw [letter?, h, Option.map_some]) ops

theorem not_covered_empty (teams : List String) (members : List (String × String))
    (memberName teamName : String) (time : Int) :
    ¬ (empty teams members).Covered memberName teamName time := by
  intro h
  obtain ⟨readAt, hstatus, -⟩ := h
  simp [empty] at hstatus

theorem get?_createMessage {now : Int} {teamName sender : String}
    {toMember : Option String} {broadcast isRead : Bool}
    (h : (b.createMessage now messageId teamName sender toMember broadcast isRead).2 = true) :
    (b.createMessage now messageId teamName sender toMember broadcast isRead).1.messages.get?
      messageId = some (newMessage now teamName sender toMember broadcast isRead) := by
  unfold createMessage at h ⊢
  split at h
  · next hinsert =>
    unfold insertMessage at hinsert
    split at hinsert
    · cases hinsert
    · cases hinsert
      exact get?_set_self ..
  · cases h

theorem markedIn_append {pre post : List MessageOp} :
    MarkedIn memberName messageId b (pre ++ post) ↔
      MarkedIn memberName messageId b pre ∨
        MarkedIn memberName messageId (run step b pre) post := by
  induction pre generalizing b with
  | nil => simp [MarkedIn]
  | cons op pre ih => simp [MarkedIn, ih, or_assoc]

theorem mem_keys_of_markedIn {ops : List MessageOp} (h : MarkedIn memberName messageId b ops) :
    messageId ∈ (run step b ops).messages.keys := by
  have hsome : ∃ l, (run step b ops).letter? messageId = some l := by
    induction ops generalizing b with
    | nil => exact h.elim
    | cons op ops ih =>
      cases h with
      | inl hmarks =>
        obtain ⟨m, hm, -⟩ := hmarks.2
        exact ⟨m.letter, get?_letter hm (op :: ops)⟩
      | inr hlater => exact ih hlater
  obtain ⟨l, hl⟩ := hsome
  obtain ⟨m, hm, -⟩ := Option.map_eq_some_iff.mp hl
  exact mem_keys_iff.mpr ⟨m, hm⟩

theorem covered_of_marked_sent {teams : List String} {members : List (String × String)}
    {pre post : List MessageOp}
    (hold : ∀ id, MarkedIn memberName id (empty teams members) (pre ++ post) →
      id ∈ (run step (empty teams members) pre).messages.keys)
    (teamName : String) (time : Int) :
    (run step (empty teams members) (pre ++ post)).Covered memberName teamName time ↔
      ∃ id, MarkedIn memberName id (empty teams members) (pre ++ post) ∧
        ∃ m, (run step (empty teams members) pre).messages.get? id = some m ∧
          m.teamName = teamName ∧ time ≤ m.timestamp := by
  have hsame : ∀ {id m}, (run step (empty teams members) pre).messages.get? id = some m →
      (run step (empty teams members) (pre ++ post)).letter? id = some m.letter := by
    intro id m hm
    rw [run_append]
    exact get?_letter hm post
  apply (covered_run ..).trans
  apply (or_iff_right (not_covered_empty teams members memberName teamName time)).trans
  constructor
  · intro ⟨id, l, hid, hl, hteam, htime⟩
    obtain ⟨m, hm⟩ := mem_keys_iff.mp (hold id hid)
    cases (hsame hm).symm.trans hl
    exact ⟨id, hid, m, hm, hteam, htime⟩
  · intro ⟨id, hid, m, hm, hteam, htime⟩
    exact ⟨id, m.letter, hid, hsame hm, hteam, htime⟩

/-- At every point of a run after a broadcast is sent and before the member marks it or one
sent later, the member's unread query returns it exactly when the member is not its sender
and every broadcast of the team that the member marked has a smaller timestamp. -/
theorem unread_iff_marked_older (teams : List String) (members : List (String × String))
    (pre post : List MessageOp) (now : Int) (messageId teamName sender memberName : String)
    (toMember : Option String) (isRead : Bool)
    (hsent : ((run step (empty teams members) pre).createMessage now messageId teamName sender
      toMember true isRead).2 = true)
    (hmarked : ∀ id, MarkedIn memberName id
        ((run step (empty teams members) pre).step
          (.createMessage now messageId teamName sender toMember true isRead)) post →
      id ∈ (run step (empty teams members) pre).messages.keys) :
    messageId ∈ ((run step (empty teams members)
        (pre ++ .createMessage now messageId teamName sender toMember true isRead ::
          post)).getBroadcastMessages teamName memberName true none).map Prod.fst ↔
      sender ≠ memberName ∧
        ∀ id, MarkedIn memberName id (empty teams members)
            (pre ++ .createMessage now messageId teamName sender toMember true isRead :: post) →
          ∀ m, (run step (empty teams members) pre).messages.get? id = some m →
            m.teamName = teamName → m.timestamp < now := by
  rw [mem_unread_iff]
  set send : MessageOp := .createMessage now messageId teamName sender toMember true isRead
  have hold : ∀ id, MarkedIn memberName id (empty teams members) (pre ++ send :: post) →
      id ∈ (run step (empty teams members) pre).messages.keys := by
    intro id hid
    cases markedIn_append.mp hid with
    | inl hearlier => exact mem_keys_of_markedIn hearlier
    | inr hlater =>
      cases hlater with
      | inl hnow => exact absurd hnow.1 not_mem_nil
      | inr hlater => exact hmarked id hlater
  have hletter : (run step (empty teams members) (pre ++ send :: post)).letter? messageId =
      some (newMessage now teamName sender toMember true isRead).letter := by
    rw [run_append, run_cons]
    exact get?_letter (get?_createMessage hsent) post
  obtain ⟨m, hm, hml⟩ := Option.map_eq_some_iff.mp hletter
  have hteam : m.teamName = teamName := congrArg TeamMessage.teamName hml
  have hbroadcast : m.broadcast = true := congrArg TeamMessage.broadcast hml
  have hsender : m.fromMemberName = sender := congrArg TeamMessage.fromMemberName hml
  have htime : m.timestamp = now := congrArg TeamMessage.timestamp hml
  have hcovered := covered_of_marked_sent hold teamName now
  constructor
  · intro hunread
    obtain ⟨m', hm', -, -, hother, hfresh⟩ := hunread
    cases hm.symm.trans hm'
    refine ⟨hsender ▸ hother, fun id hid m' hm' hteam' => ?_⟩
    rw [htime, hcovered] at hfresh
    by_contra hlt
    exact hfresh ⟨id, hid, m', hm', hteam', by omega⟩
  · intro ⟨hother, holder⟩
    refine ⟨m, hm, hteam, hbroadcast, hsender ▸ hother, ?_⟩
    rw [htime, hcovered]
    intro ⟨id, hid, m', hm', hteam', htime'⟩
    have := holder id hid m' hm' hteam'
    omega

/-- A broadcast, marked by `b`. -/
def firstMarked : List MessageOp :=
  [.createMessage 1 "m1" "team" "a" none true false, .markMessageRead "m1" "b"]

/-- A second one a millisecond later stays unread. -/
theorem later_broadcast_unread :
    "m2" ∈ ((run step (empty ["team"] [("a", "team"), ("b", "team")])
      (firstMarked ++ [.createMessage 2 "m2" "team" "a" none true false]))
        |>.getBroadcastMessages "team" "b" true none).map Prod.fst := by
  apply (unread_iff_marked_older ["team"] [("a", "team"), ("b", "team")] firstMarked [] 2 "m2"
    "team" "a" "b" none false (by decide) (fun _ h => h.elim)).mpr
  refine ⟨by decide, fun id hid m hm _ => ?_⟩
  have hrow : (id, m) ∈ [("m1", newMessage 1 "team" "a" none true false)] :=
    get?_eq_some_iff.mp hm
  rw [mem_singleton] at hrow
  obtain ⟨-, rfl⟩ := Prod.mk.inj hrow
  decide

/-- A broadcast of the same millisecond as one marked before it was sent is never returned:
`b` marks `m1` only, and `m2` is gone. -/
theorem same_millisecond_lost :
    ((run step (empty ["team"] [("a", "team"), ("b", "team")])
        (firstMarked ++ [.createMessage 1 "m2" "team" "a" none true false])).messages.get?
          "m2").isSome = true ∧
      ((run step (empty ["team"] [("a", "team"), ("b", "team")])
        (firstMarked ++ [.createMessage 1 "m2" "team" "a" none true false]))
          |>.getBroadcastMessages "team" "b" true none) = [] := by
  decide

end MessageBoard

end JiuwenSpec.Team

import JiuwenSpec.Team.BroadcastReads

/-!
# A batch of reads

A batch marks its direct messages in one update and its broadcasts one by one. It leaves the flags
and the watermarks that marking its ids one after another leaves, in any order: a flag depends on
which ids are marked, and the times that a watermark covers on which broadcasts are.
-/

namespace JiuwenSpec.Team

open Base

namespace MessageBoard

variable {b b' : MessageBoard} {memberName : String}

/-- `mark_message_read` of each id. -/
def readEach (memberName : String) (b : MessageBoard) (messageIds : List String) : MessageBoard :=
  messageIds.foldl (fun b id => (b.markMessageRead id memberName).1) b

theorem markBroadcasts_eq (memberName : String) (messageIds : List String) (b : MessageBoard)
    (marked : Nat) :
    (markBroadcasts memberName (b, marked) messageIds).1 = readEach memberName b messageIds := by
  induction messageIds generalizing b marked with
  | nil => rfl
  | cons id messageIds ih =>
    obtain ⟨marked', hcons⟩ := markBroadcasts_cons memberName b marked id messageIds
    rw [hcons, ih]
    rfl

def flagged (b : MessageBoard) (memberName : String) (messageIds : List String) (id : String)
    (m : TeamMessage) : TeamMessage :=
  if id ∈ messageIds ∧ m.broadcast = false ∧ b.mayMark m memberName = true then
    { m with isRead := some true }
  else m

theorem get?_readDirect (messageIds : List String) (id : String) :
    (b.readDirect messageIds).messages.get? id = (b.messages.get? id).map fun m =>
      if id ∈ messageIds then { m with isRead := some true } else m := Dict.get?_mapValues ..

theorem messages_readBroadcast (message : TeamMessage) :
    (b.readBroadcast message memberName).messages = b.messages := by
  unfold readBroadcast
  dsimp only
  split
  · rfl
  · split <;> rfl

theorem get?_markMessageRead (messageId id : String) :
    (b.markMessageRead messageId memberName).1.messages.get? id =
      (b.messages.get? id).map (b.flagged memberName [messageId] id) := by
  cases hid : b.messages.get? id with
  | none =>
    have hsame := (sameLetters_markMessageRead b messageId memberName).1 id
    rw [letter?, letter?, hid] at hsame
    exact Option.map_eq_none_iff.mp hsame
  | some m =>
    unfold markMessageRead
    by_cases hne : id = messageId
    · subst hne
      rw [hid]
      cases hb : m.broadcast <;> cases hmay : b.mayMark m memberName <;>
        simp [flagged, hb, hmay, hid, get?_readDirect, messages_readBroadcast]
    · have hkept : b.flagged memberName [messageId] id m = m := by simp [flagged, hne]
      rw [Option.map_some, hkept, ← hid]
      split
      · rfl
      · split
        · split
          · rw [messages_readBroadcast]
          · simp [get?_readDirect, hid, hne]
        · rfl

theorem SameLetters.mayMark (h : b.SameLetters b') (m : TeamMessage) :
    b'.mayMark m memberName = b.mayMark m memberName := by
  rw [MessageBoard.mayMark, MessageBoard.mayMark, h.2]

theorem get?_readEach (messageIds : List String) (b : MessageBoard) (id : String) :
    (readEach memberName b messageIds).messages.get? id =
      (b.messages.get? id).map (b.flagged memberName messageIds id) := by
  induction messageIds generalizing b with
  | nil => cases hid : b.messages.get? id <;> simp [readEach, flagged, hid]
  | cons first messageIds ih =>
    rw [readEach, List.foldl_cons, ← readEach, ih, get?_markMessageRead, Option.map_map]
    congr 1
    funext m
    have hmay : ∀ m, (b.markMessageRead first memberName).1.mayMark m memberName =
        b.mayMark m memberName := (sameLetters_markMessageRead b first memberName).mayMark
    by_cases hm : m.broadcast = false ∧ b.mayMark m memberName = true
    · by_cases hfirst : id = first <;> by_cases hrest : id ∈ messageIds <;>
        simp [flagged, hmay, hm, hfirst, hrest]
    · simp [flagged, hmay, hm]

theorem covered_readEach (messageIds : List String) (reader teamName : String) (time : Int) :
    (readEach memberName b messageIds).Covered reader teamName time ↔
      b.Covered reader teamName time ∨
        (memberName = reader ∧ ∃ id ∈ messageIds, b.Lifts reader id teamName time) :=
  markBroadcasts_eq memberName messageIds b 0 ▸ covered_markBroadcasts ..

theorem get?_readStatus_congr {reader teamName : String}
    (h : ∀ time, b.Covered reader teamName time ↔ b'.Covered reader teamName time) :
    b.readStatus.get? (reader, teamName) = b'.readStatus.get? (reader, teamName) := by
  unfold Covered at h
  cases hb : b.readStatus.get? (reader, teamName) with
  | none =>
    cases hb' : b'.readStatus.get? (reader, teamName) with
    | none => rfl
    | some readAt => simpa [hb, hb'] using h readAt
  | some readAt =>
    cases hb' : b'.readStatus.get? (reader, teamName) with
    | none => simpa [hb, hb'] using h readAt
    | some readAt' =>
      have hle := h readAt
      have hge := h readAt'
      simp only [hb, hb', Option.some.injEq, exists_eq_left', le_refl, true_iff, iff_true]
        at hle hge
      rw [le_antisymm hle hge]

/-- **A batch marks like its ids one by one.** In any order the single calls leave every message
with the flag, and every member with the watermark, that the batch leaves. -/
theorem batch_marks_each (b : MessageBoard) (memberName : String) {messageIds order : List String}
    (h : order.Perm messageIds) :
    (∀ id, (b.markMessagesRead messageIds memberName).1.messages.get? id =
      (readEach memberName b order).messages.get? id) ∧
    ∀ reader teamName,
      (b.markMessagesRead messageIds memberName).1.readStatus.get? (reader, teamName) =
        (readEach memberName b order).readStatus.get? (reader, teamName) := by
  constructor
  · intro id
    rw [markMessagesRead, markBroadcasts_eq, get?_readEach, get?_readEach, get?_readDirect,
      Option.map_map]
    cases hid : b.messages.get? id with
    | none => rfl
    | some m =>
      have honly : ∀ m', (id, m') ∈ b.messages.entries ↔ m' = m := by
        intro m'
        rw [← Dict.get?_eq_some_iff, hid, Option.some.injEq, eq_comm]
      have hmay : ∀ ids m, (b.readDirect ids).mayMark m memberName = b.mayMark m memberName :=
        fun ids => (sameLetters_readDirect b ids).mayMark
      cases hb : m.broadcast <;> simp [eligibleDirectIds, flagged, honly, hb, hmay, h.mem_iff,
        and_comm]
  · intro reader teamName
    apply get?_readStatus_congr
    intro time
    rw [covered_readEach]
    have hstep := covered_step b (.markMessagesRead messageIds memberName) reader teamName time
    refine hstep.trans (or_congr Iff.rfl ?_)
    by_cases hreader : memberName = reader <;> simp [MessageOp.marking, hreader, h.mem_iff]

/-- A direct message and a broadcast, marked last first. -/
theorem batch_marks_pair :
    let b := run step (empty ["t"] [("m", "t")])
      [.createMessage 1 "d" "t" "u" (some "m") false false,
        .createMessage 2 "c" "t" "u" none true false]
    (∀ id, (b.markMessagesRead ["d", "c"] "m").1.messages.get? id =
      (readEach "m" b ["c", "d"]).messages.get? id) ∧
    ∀ reader teamName, (b.markMessagesRead ["d", "c"] "m").1.readStatus.get? (reader, teamName) =
      (readEach "m" b ["c", "d"]).readStatus.get? (reader, teamName) :=
  batch_marks_each _ _ (.swap "d" "c" [])

end MessageBoard

end JiuwenSpec.Team

import JiuwenSpec.Base.Run
import JiuwenSpec.Base.Dict
import Mathlib

/-!
# The message tables

Messages by id in the order of their insertion, and for each member and team the timestamp
up to which the member has read the broadcasts of the team.
Source: `agent_teams/tools/models.py`, `agent_teams/tools/database/message_dao.py`.
-/

namespace JiuwenSpec.Team

open Base

/-- A row of the message table, without its key `message_id` and its body. -/
structure TeamMessage where
  teamName : String
  fromMemberName : String
  toMemberName : Option String
  timestamp : Int
  broadcast : Bool
  isRead : Option Bool

/-- The tables the message operations read and write: teams, roster rows `(member, team)`,
messages and the `read_at` of each `(member, team)`. No writer stores a null `read_at`. -/
structure MessageBoard where
  teams : List String
  members : List (String × String)
  messages : Dict String TeamMessage
  readStatus : Dict (String × String) Int

namespace MessageBoard

def empty (teams : List String) (members : List (String × String)) : MessageBoard where
  teams := teams
  members := members
  messages := Dict.empty
  readStatus := Dict.empty

/-- Insert a message row; `none` is the `IntegrityError` of a taken id or an unknown team. -/
def insertMessage (b : MessageBoard) (messageId : String) (message : TeamMessage) :
    Option MessageBoard :=
  if messageId ∈ b.messages.keys ∨ message.teamName ∉ b.teams then none
  else some { b with messages := b.messages.set messageId message }

/-- The row of a new message; a broadcast has no read flag. -/
def newMessage (now : Int) (teamName fromMemberName : String) (toMemberName : Option String)
    (broadcast isRead : Bool) : TeamMessage where
  teamName := teamName
  fromMemberName := fromMemberName
  toMemberName := toMemberName
  timestamp := now
  broadcast := broadcast
  isRead := if broadcast then none else some isRead

def createMessage (b : MessageBoard) (now : Int) (messageId teamName fromMemberName : String)
    (toMemberName : Option String) (broadcast isRead : Bool) : MessageBoard × Bool :=
  match b.insertMessage messageId
      (newMessage now teamName fromMemberName toMemberName broadcast isRead) with
  | some created => (created, true)
  | none => (b, false)

def insertDirects (now : Int) (teamName fromMemberName : String) :
    MessageBoard → List (String × String) → Option MessageBoard
  | b, [] => some b
  | b, (messageId, toMemberName) :: recipients =>
    (b.insertMessage messageId
      (newMessage now teamName fromMemberName (some toMemberName) false false)).bind
      (fun b' => insertDirects now teamName fromMemberName b' recipients)

/-- `create_direct_messages`: all rows or none. -/
def createDirectMessages (b : MessageBoard) (now : Int) (teamName fromMemberName : String)
    (recipients : List (String × String)) : MessageBoard × Nat :=
  match insertDirects now teamName fromMemberName b recipients with
  | some created => (created, recipients.length)
  | none => (b, 0)

/-- `get_broadcast_messages`: the broadcasts of others, oldest timestamp first; unread are
those above the watermark of the member. -/
def getBroadcastMessages (b : MessageBoard) (teamName memberName : String) (unreadOnly : Bool)
    (fromMemberName : Option String) : List (String × TeamMessage) :=
  let rows := (b.messages.entries.filter (fun e => e.2.teamName = teamName ∧
    e.2.broadcast = true ∧ e.2.fromMemberName ≠ memberName ∧
      ∀ f ∈ fromMemberName, e.2.fromMemberName = f)).insertionSort
    (fun e e' => e.2.timestamp ≤ e'.2.timestamp)
  match unreadOnly, b.readStatus.get? (memberName, teamName) with
  | false, _ => rows
  | true, none => rows
  | true, some readAt => rows.filter (fun e => decide (readAt < e.2.timestamp))

/-- Whether a member may mark a message: `user` reads no broadcast, any other member must be
in the team of the message. -/
def mayMark (b : MessageBoard) (message : TeamMessage) (memberName : String) : Bool :=
  if memberName = "user" then !message.broadcast
  else decide ((memberName, message.teamName) ∈ b.members)

def readDirect (b : MessageBoard) (messageIds : List String) : MessageBoard :=
  { b with messages := b.messages.mapValues fun id m =>
      if id ∈ messageIds then { m with isRead := some true } else m }

def readBroadcast (b : MessageBoard) (message : TeamMessage) (memberName : String) :
    MessageBoard :=
  let reader := (memberName, message.teamName)
  match b.readStatus.get? reader with
  | none => { b with readStatus := b.readStatus.set reader message.timestamp }
  | some readAt =>
    if readAt < message.timestamp then
      { b with readStatus := b.readStatus.set reader message.timestamp }
    else b

/-- `_mark_read_in_session`, as `mark_message_read` commits it. -/
def markMessageRead (b : MessageBoard) (messageId memberName : String) : MessageBoard × Bool :=
  match b.messages.get? messageId with
  | none => (b, false)
  | some message =>
    if b.mayMark message memberName = true then
      if message.broadcast = true then (b.readBroadcast message memberName, true)
      else (b.readDirect [messageId], true)
    else (b, false)

def markBroadcasts (memberName : String) : MessageBoard × Nat → List String → MessageBoard × Nat
  | acc, [] => acc
  | (b, marked), messageId :: messageIds =>
    match b.markMessageRead messageId memberName with
    | (b', true) => markBroadcasts memberName (b', marked + 1) messageIds
    | (b', false) => markBroadcasts memberName (b', marked) messageIds

def eligibleDirectIds (b : MessageBoard) (direct : List (String × TeamMessage))
    (memberName : String) : List String :=
  (direct.filter (fun e => b.mayMark e.2 memberName)).map Prod.fst

/-- `mark_messages_read`: the direct messages in one update, then the broadcasts. -/
def markMessagesRead (b : MessageBoard) (messageIds : List String) (memberName : String) :
    MessageBoard × Nat :=
  let messages := b.messages.entries.filter (fun e => e.1 ∈ messageIds)
  let directIds :=
    b.eligibleDirectIds (messages.filter (fun e => !e.2.broadcast)) memberName
  markBroadcasts memberName (b.readDirect directIds, directIds.length)
    ((messages.filter (fun e => e.2.broadcast)).map Prod.fst)

end MessageBoard

/-- An operation on the message tables; `roster` is what the team operations leave of the
member table. -/
inductive MessageOp where
  | createMessage (now : Int) (messageId teamName fromMemberName : String)
      (toMemberName : Option String) (broadcast isRead : Bool)
  | createDirectMessages (now : Int) (teamName fromMemberName : String)
      (recipients : List (String × String))
  | markMessageRead (messageId memberName : String)
  | markMessagesRead (messageIds : List String) (memberName : String)
  | roster (members : List (String × String))

def MessageBoard.step (b : MessageBoard) : MessageOp → MessageBoard
  | .createMessage now messageId teamName fromMemberName toMemberName broadcast isRead =>
    (b.createMessage now messageId teamName fromMemberName toMemberName broadcast isRead).1
  | .createDirectMessages now teamName fromMemberName recipients =>
    (b.createDirectMessages now teamName fromMemberName recipients).1
  | .markMessageRead messageId memberName => (b.markMessageRead messageId memberName).1
  | .markMessagesRead messageIds memberName => (b.markMessagesRead messageIds memberName).1
  | .roster members => { b with members := members }

end JiuwenSpec.Team

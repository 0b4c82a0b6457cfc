import Mathlib.Data.PNat.Basic
import JiuwenSpec.Base.Run

/-!
# The message buffer of a context

A buffer shows the last messages of a list that grows to twice the bound before its front is cut,
and counts how many messages at its front are history. Beside it stands the view that the buffer
is for: at most as many messages as the bound, each marked as history or not.
Source: `core/context_engine/context/message_buffer.py`, `context.py`.
-/

namespace JiuwenSpec.Context

open Base List

variable {α β : Type}

/-- How many of `length` messages stand before the last ones; without a bound none. -/
def excess : Option ℕ+ → Nat → Nat
  | none, _ => 0
  | some n, length => length - n

/-- `messages[max(0, len(messages) - max_buffer_size):]`, or all of them. -/
def lastOf (bound : Option ℕ+) (l : List α) : List α := l.drop (excess bound l.length)

theorem excess_le (bound : Option ℕ+) (length : Nat) : excess bound length ≤ length := by
  cases bound with
  | none => exact Nat.zero_le _
  | some n => exact Nat.sub_le _ _

theorem excess_sub (bound : Option ℕ+) {length j : Nat} (h : j ≤ excess bound length) :
    excess bound (length - j) = excess bound length - j := by
  cases bound with
  | none => exact (Nat.zero_sub _).symm
  | some n => exact Nat.sub_right_comm _ _ _

theorem excess_mono (bound : Option ℕ+) {i j : Nat} (h : i ≤ j) :
    excess bound i ≤ excess bound j := by
  cases bound with
  | none => exact Nat.le_refl _
  | some n => exact Nat.sub_le_sub_right h _

theorem length_lastOf (bound : Option ℕ+) (l : List α) :
    (lastOf bound l).length = l.length - excess bound l.length := length_drop

theorem lastOf_drop (bound : Option ℕ+) {l : List α} {j : Nat} (h : j ≤ excess bound l.length) :
    lastOf bound (l.drop j) = lastOf bound l := by
  rw [lastOf, lastOf, length_drop, excess_sub bound h, drop_drop, Nat.add_sub_cancel' h]

theorem lastOf_append (bound : Option ℕ+) (l r : List α) :
    lastOf bound (lastOf bound l ++ r) = lastOf bound (l ++ r) := by
  have hle := excess_le bound l.length
  have hmono := excess_mono bound (Nat.le_add_right l.length r.length)
  have hdrop : lastOf bound l ++ r = (l ++ r).drop (excess bound l.length) :=
    (drop_append_of_le_length hle).symm
  rw [hdrop, lastOf_drop bound (by rwa [length_append])]

theorem lastOf_map (bound : Option ℕ+) (f : α → β) (l : List α) :
    lastOf bound (l.map f) = (lastOf bound l).map f := by
  rw [lastOf, lastOf, length_map, map_drop]

theorem mem_of_mem_lastOf {bound : Option ℕ+} {l : List α} {x : α} (h : x ∈ lastOf bound l) :
    x ∈ l := mem_of_mem_drop h

structure ContextMessageBuffer (α : Type) where
  maxBufferSize : Option ℕ+
  contextMessages : List α
  historyMessagesSize : Nat

/-- The calls of a context on its buffer; `clear` is `clear_messages`. -/
inductive Op (α : Type) where
  | addBack (messages : List α)
  | getBack (size : Option Nat) (withHistory : Bool)
  | popBack (size : Option Nat) (withHistory : Bool)
  | setMessages (messages : List α) (withHistory : Bool)
  | clear (withHistory : Bool)

namespace ContextMessageBuffer

/-- `rebulid`, the buffer of a context that is made with a history. -/
def rebuild (bound : Option ℕ+) (history : List α) : ContextMessageBuffer α where
  maxBufferSize := bound
  contextMessages := lastOf bound history
  historyMessagesSize := (lastOf bound history).length

def size (b : ContextMessageBuffer α) : Nat :=
  match b.maxBufferSize with
  | some n => min b.contextMessages.length n
  | none => b.contextMessages.length

/-- The messages that `get_back` takes from. -/
def visible (b : ContextMessageBuffer α) : List α := lastOf b.maxBufferSize b.contextMessages

/-- `get_back`. A size above what there is counts as what there is. -/
def getBack (b : ContextMessageBuffer α) (size : Option Nat) (withHistory : Bool) : List α :=
  match size with
  | none => if withHistory then b.visible else b.visible.drop b.historyMessagesSize
  | some size =>
    let total := b.visible.length
    let taken := if withHistory then min size total
      else min size (total - b.historyMessagesSize)
    b.visible.drop (total - taken)

/-- `_if_need_resize`. -/
def resize (b : ContextMessageBuffer α) : ContextMessageBuffer α :=
  match b.maxBufferSize with
  | none => b
  | some n =>
    if b.contextMessages.length ≤ n * 2 then b
    else { b with
      contextMessages := b.contextMessages.drop n
      historyMessagesSize :=
        if b.historyMessagesSize = 0 ∨ b.historyMessagesSize < n then 0
        else b.historyMessagesSize - n }

def addBack (b : ContextMessageBuffer α) (messages : List α) : ContextMessageBuffer α :=
  { b with contextMessages := b.contextMessages ++ messages }.resize

/-- `pop_back`, without what it returns. -/
def popBack (b : ContextMessageBuffer α) (size : Option Nat) (withHistory : Bool) :
    ContextMessageBuffer α :=
  let popped := (b.getBack size withHistory).length
  let context := b.contextMessages.length - b.historyMessagesSize
  { b with
    contextMessages := b.contextMessages.take (b.contextMessages.length - popped)
    historyMessagesSize := if withHistory ∧ context < popped then
      b.historyMessagesSize - (popped - context) else b.historyMessagesSize }

def setMessages (b : ContextMessageBuffer α) (messages : List α) (withHistory : Bool) :
    ContextMessageBuffer α :=
  if withHistory then { b with contextMessages := messages, historyMessagesSize := 0 }
  else { b with
    contextMessages := b.contextMessages.take b.historyMessagesSize ++ messages }

def step (b : ContextMessageBuffer α) : Op α → ContextMessageBuffer α
  | .addBack messages => b.addBack messages
  | .getBack _ _ => b
  | .popBack size withHistory => b.popBack size withHistory
  | .setMessages messages withHistory => b.setMessages messages withHistory
  | .clear withHistory => b.popBack b.size withHistory

def returned (b : ContextMessageBuffer α) : Op α → List α
  | .getBack size withHistory | .popBack size withHistory => b.getBack size withHistory
  | .clear withHistory => b.getBack b.size withHistory
  | _ => []

end ContextMessageBuffer

abbrev View (α : Type) := List (α × Bool)

def fresh (messages : List α) : View α := messages.map fun x => (x, false)

namespace View

/-- The messages a caller asks for: with the history or without, all or the last ones. -/
def getBack (v : View α) (size : Option Nat) (withHistory : Bool) : List α :=
  let asked := if withHistory then v else v.filter fun e => !e.2
  (asked.drop (asked.length - size.getD asked.length)).map Prod.fst

def returned (v : View α) : Op α → List α
  | .getBack size withHistory | .popBack size withHistory => v.getBack size withHistory
  | .clear withHistory => v.getBack none withHistory
  | _ => []

/-- The messages in view after a call: what was in view without what is returned, or with what is
given, and the last of these. -/
def step (bound : Option ℕ+) (v : View α) : Op α → View α
  | .addBack messages => lastOf bound (v ++ fresh messages)
  | .getBack _ _ => v
  | .popBack size withHistory => v.take (v.length - (v.getBack size withHistory).length)
  | .setMessages messages true => lastOf bound (fresh messages)
  | .setMessages messages false => lastOf bound (v.filter (fun e => e.2) ++ fresh messages)
  | .clear withHistory => v.take (v.length - (v.getBack none withHistory).length)

end View

end JiuwenSpec.Context

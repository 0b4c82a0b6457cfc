import Mathlib.Algebra.Order.Group.Multiset
import Mathlib.Data.Finset.Card
import Mathlib.Data.List.Sort

/-!
# Channels and the channel manager

A trigger channel collects the messages that activate a node; a barrier channel collects
senders until each of its OR-groups has been heard from. The manager delivers buffered
messages by channel key, the last channel with a key taking them, and keeps the set of
nodes that have a ready channel.
Source: `core/graph/pregel/channels.py`, `core/graph/pregel/base.py`.
-/

namespace JiuwenSpec.Graph

def START : String := "__start__"

def END : String := "__end__"

/-- A message between nodes; its payload is never read. -/
inductive Message where
  | trigger (sender target : String)
  | barrier (sender target : String)
  deriving DecidableEq

namespace Message

def sender : Message → String
  | trigger s _ => s
  | barrier s _ => s

def target : Message → String
  | trigger _ t => t
  | barrier _ t => t

/-- `isinstance(msg, TriggerMessage)`. -/
def isTrigger : Message → Bool
  | trigger _ _ => true
  | barrier _ _ => false

end Message

/-- What a channel holds: `TriggerChannel.messages` or `BarrierChannel.received`. -/
inductive Gate where
  | trigger (messages : List Message)
  | barrier (expectedGroups : List (List String)) (received : Finset String)

structure Channel where
  key : String
  nodeName : String
  gate : Gate

/-- What `Channel.snapshot` returns. -/
inductive Saved where
  | messages (messages : List Message)
  | received (received : Finset String)

/-- `state is not None and state != []`. -/
def Saved.hasState : Saved → Bool
  | .messages ms => !ms.isEmpty
  | .received r => r ≠ ∅

namespace Gate

def isReady : Gate → Bool
  | trigger messages => !messages.isEmpty
  | barrier groups received => received ≠ ∅ && groups.all (·.any (· ∈ received))

/-- `accept`: the contents afterwards and whether they changed. -/
def accept : Gate → Message → Gate × Bool
  | trigger messages, .trigger s t => (trigger (messages ++ [.trigger s t]), true)
  | trigger messages, .barrier _ _ => (trigger messages, false)
  | barrier groups received, .barrier s _ =>
    if s ∈ received then (barrier groups received, false)
    else (barrier groups (insert s received), true)
  | barrier groups received, .trigger _ _ => (barrier groups received, false)

def consume : Gate → Gate
  | trigger _ => trigger []
  | barrier groups _ => barrier groups ∅

def snapshot : Gate → Saved
  | trigger messages => .messages messages
  | barrier _ received => .received received

/-- `restore`; a state of the other kind belongs to another graph and is ignored. -/
def restore : Gate → Saved → Gate
  | trigger _, .messages messages => trigger messages
  | barrier groups _, .received received => barrier groups received
  | gate, _ => gate

end Gate

namespace Channel

def isReady (c : Channel) : Bool := c.gate.isReady

def absorb (c : Channel) (messages : List Message) : Channel :=
  { c with gate := messages.foldl (fun g m => (g.accept m).1) c.gate }

def consume (c : Channel) : Channel := { c with gate := c.gate.consume }

def restore (c : Channel) (saved : Saved) : Channel := { c with gate := c.gate.restore saved }

end Channel

/-- `TriggerChannel(name)`. -/
def triggerChannel (name : String) : Channel := ⟨name, name, .trigger []⟩

/-- `sorted(group)` joined by `|`, or the only member. -/
def groupKey (group : List String) : String :=
  match group with
  | [s] => s
  | _ => "(" ++ "|".intercalate (group.insertionSort (· ≤ ·)) ++ ")"

def makeRouterKey (name : String) (expectedGroups : List (List String)) : String :=
  "barrier:" ++ "&".intercalate (expectedGroups.map groupKey) ++ "->" ++ name

/-- `BarrierChannel(node_name, expected_groups)`. -/
def barrierChannel (nodeName : String) (expectedGroups : List (List String)) : Channel :=
  ⟨makeRouterKey nodeName expectedGroups, nodeName, .barrier expectedGroups ∅⟩

/-- `Channel not found for target key`. -/
structure UnknownTarget where
  target : String

/-- Delivery of one message to the last channel with its key: the channels afterwards and
the node whose channel changed, or nothing where no channel has the key. -/
def deliver (msg : Message) : List Channel → Option (List Channel × Option String)
  | [] => none
  | c :: cs =>
    match deliver msg cs with
    | some (cs', updated) => some (c :: cs', updated)
    | none =>
      if c.key = msg.target then
        let (gate, changed) := c.gate.accept msg
        some ({ c with gate := gate } :: cs, if changed then some c.nodeName else none)
      else none

/-- Delivery of a list of messages, up to the first that has no channel: the channels
afterwards and the nodes with a changed channel. -/
def deliverAll : List Channel → List Message →
    List Channel × List String × Option UnknownTarget
  | cs, [] => (cs, [], none)
  | cs, m :: ms =>
    match deliver m cs with
    | none => (cs, [], some ⟨m.target⟩)
    | some (cs', updated) =>
      let (final, nodes, err) := deliverAll cs' ms
      (final, updated.toList ++ nodes, err)

/-- `ChannelManager`; the ready nodes are a set, kept without repetitions. -/
structure ChannelManager where
  channels : List Channel
  ready : List String
  buffer : List Message

namespace ChannelManager

def addReady (ready : List String) (n : String) : List String :=
  if n ∈ ready then ready else ready ++ [n]

/-- `any(c.is_ready() for c in channels)` for the channels of a node. -/
def anyReady (channels : List Channel) (n : String) : Bool :=
  channels.any (fun c => c.nodeName = n && c.isReady)

/-- `ChannelManager(channels)`: the nodes of channels that are ready already are ready. -/
def init (channels : List Channel) : ChannelManager where
  channels := channels
  ready := ((channels.filter (·.isReady)).map (·.nodeName)).foldl addReady []
  buffer := []

def bufferMessage (m : ChannelManager) (msg : Message) : ChannelManager :=
  { m with buffer := m.buffer ++ [msg] }

def bufferAll (m : ChannelManager) (msgs : List Message) : ChannelManager :=
  { m with buffer := m.buffer ++ msgs }

def isEmpty (m : ChannelManager) : Bool := m.buffer.isEmpty

/-- `flush`; where a message has no channel, the ones before it are delivered and the buffer
is kept. -/
def flush (m : ChannelManager) : ChannelManager × Option UnknownTarget :=
  match deliverAll m.channels m.buffer with
  | (cs, _, some e) => ({ m with channels := cs }, some e)
  | (cs, updated, none) =>
    ({ channels := cs
       ready := (updated.filter (anyReady cs)).foldl addReady m.ready
       buffer := [] }, none)

/-- `consume`: every ready channel of the node. -/
def consume (m : ChannelManager) (n : String) : ChannelManager :=
  { m with
    channels := m.channels.map (fun c => if c.nodeName = n ∧ c.isReady then c.consume else c)
    ready := m.ready.filter (· ≠ n) }

/-- The nodes with a channel, in the order of `map_node_to_channels`. -/
def nodeNames (m : ChannelManager) : List String :=
  (m.channels.map (·.nodeName)).foldl addReady []

/-- `snapshot`: the states of the channels of each node that has any, without `END`. -/
def snapshot (m : ChannelManager) : List (String × List Saved) :=
  (m.nodeNames.filter (· ≠ END)).filterMap fun n =>
    let states := (m.channels.filter (·.nodeName = n)).map (·.gate.snapshot)
    if states.any (·.hasState) then some (n, states) else none

/-- The channels of a node, each with its state, where there is one. -/
def restoreChannels (n : String) : List Channel → List Saved → List Channel
  | c :: cs, s :: states =>
    if c.nodeName = n then
      (if s.hasState then c.restore s else c) :: restoreChannels n cs states
    else c :: restoreChannels n cs (s :: states)
  | cs, _ => cs

/-- One node of a snapshot; a node with another number of channels is left alone. -/
def restoreNode (m : ChannelManager) (n : String) (states : List Saved) : ChannelManager :=
  let mine := m.channels.filter (·.nodeName = n)
  if mine.length = states.length then
    let restored := restoreChannels n m.channels states
    let readyNow := (mine.zip states).any (fun p => p.2.hasState && (p.1.restore p.2).isReady)
    { m with
      channels := restored
      ready := if readyNow then addReady m.ready n else m.ready }
  else m

def restore (m : ChannelManager) (snap : List (String × List Saved)) : ChannelManager :=
  snap.foldl (fun m e => m.restoreNode e.1 e.2) m

end ChannelManager

/-!
## What a channel holds, up to the order of its messages

The contents of a channel are the multiset of messages it collected or the set of senders
it heard from. Being ready, absorbing messages and being consumed depend on the contents
only. A channel of `END` is seen as empty: no node reads it and no snapshot records it.
-/

inductive Contents where
  | trigger (messages : Multiset Message)
  | barrier (expectedGroups : List (List String)) (received : Finset String)

namespace Contents

def Ready : Contents → Prop
  | trigger messages => messages ≠ 0
  | barrier groups received => received ≠ ∅ ∧ ∀ g ∈ groups, ∃ s ∈ g, s ∈ received

def size : Contents → Nat
  | trigger messages => messages.card
  | barrier _ received => received.card

def absorb : Contents → Multiset Message → Contents
  | trigger messages, more => trigger (messages + more.filter (fun m => m.isTrigger = true))
  | barrier groups received, more =>
    barrier groups (received ∪ ((more.filter (fun m => m.isTrigger = false)).map
      Message.sender).toFinset)

def consume : Contents → Contents
  | trigger _ => trigger 0
  | barrier groups _ => barrier groups ∅

theorem not_ready_consume (x : Contents) : ¬ x.consume.Ready := by
  cases x with
  | trigger messages => exact fun h => h rfl
  | barrier groups received => exact fun h => h.1 rfl

theorem Ready.absorb {x : Contents} (h : x.Ready) (more : Multiset Message) :
    (x.absorb more).Ready := by
  cases x with
  | trigger messages =>
    intro hzero
    exact h (Multiset.le_zero.mp (hzero ▸ Multiset.le_add_right messages _))
  | barrier groups received =>
    obtain ⟨hne, hgroups⟩ := h
    refine ⟨?_, fun g hg => ?_⟩
    · intro hempty
      exact hne (Finset.union_eq_empty.mp hempty).1
    · obtain ⟨s, hs, hr⟩ := hgroups g hg
      exact ⟨s, hs, Finset.mem_union_left _ hr⟩

end Contents

def Gate.contents : Gate → Contents
  | trigger messages => .trigger messages
  | barrier groups received => .barrier groups received

namespace Gate

theorem isReady_iff (g : Gate) : g.isReady = true ↔ g.contents.Ready := by
  cases g with
  | trigger messages => simp [isReady, contents, Contents.Ready]
  | barrier groups received => simp [isReady, contents, Contents.Ready]

theorem contents_consume (g : Gate) : g.consume.contents = g.contents.consume := by
  cases g with
  | trigger messages => rfl
  | barrier groups received => rfl

theorem contents_accept (g : Gate) (m : Message) :
    (g.accept m).1.contents = g.contents.absorb {m} := by
  cases g with
  | trigger messages =>
    cases m with
    | trigger s t =>
      rw [accept, contents, contents, Contents.absorb, ← Multiset.coe_add]
      rfl
    | barrier s t =>
      rw [accept, contents, Contents.absorb,
        Multiset.filter_singleton, if_neg (by simp [Message.isTrigger])]
      exact congrArg Contents.trigger (add_zero _).symm
  | barrier groups received =>
    cases m with
    | trigger s t =>
      rw [accept, contents, Contents.absorb,
        Multiset.filter_singleton, if_neg (by simp [Message.isTrigger])]
      exact congrArg (Contents.barrier groups) (Finset.union_empty _).symm
    | barrier s t =>
      have hsender : ((({Message.barrier s t} : Multiset Message).filter
          (fun m => m.isTrigger = false)).map Message.sender).toFinset = {s} := by
        rw [Multiset.filter_singleton, if_pos (by rfl)]
        rfl
      rw [accept]
      by_cases h : s ∈ received
      · rw [if_pos h, contents, Contents.absorb, hsender, Finset.union_comm]
        exact congrArg (Contents.barrier groups)
          (Finset.union_eq_right.mpr (Finset.singleton_subset_iff.mpr h)).symm
      · rw [if_neg h, contents, contents, Contents.absorb, hsender, Finset.union_comm,
          Finset.insert_eq]

theorem accept_eq_of_not_changed (g : Gate) (m : Message) (h : (g.accept m).2 = false) :
    (g.accept m).1 = g := by
  cases g with
  | trigger messages =>
    cases m with
    | trigger s t => cases h
    | barrier s t => rfl
  | barrier groups received =>
    cases m with
    | trigger s t => rfl
    | barrier s t =>
      rw [accept] at h ⊢
      by_cases hs : s ∈ received
      · rw [if_pos hs]
      · rw [if_neg hs] at h
        cases h

end Gate

theorem Contents.absorb_add (x : Contents) (a b : Multiset Message) :
    x.absorb (a + b) = (x.absorb a).absorb b := by
  cases x with
  | trigger messages => simp [Contents.absorb, add_assoc]
  | barrier groups received =>
    simp [Contents.absorb, Finset.union_assoc]

theorem Contents.absorb_zero (x : Contents) : x.absorb 0 = x := by
  cases x with
  | trigger messages => simp [Contents.absorb]
  | barrier groups received => simp [Contents.absorb]

theorem Gate.contents_foldl_accept (g : Gate) (ms : List Message) :
    (ms.foldl (fun g m => (g.accept m).1) g).contents = g.contents.absorb ms := by
  induction ms generalizing g with
  | nil => exact (Contents.absorb_zero _).symm
  | cons m ms ih =>
    rw [List.foldl_cons, ih, Gate.contents_accept, ← Contents.absorb_add]
    rfl

structure ChannelView where
  key : String
  nodeName : String
  contents : Contents

namespace Channel

def view (c : Channel) : ChannelView := ⟨c.key, c.nodeName, c.gate.contents⟩

/-- The channel with what it holds for `END` left out. -/
def seen (c : Channel) : ChannelView := if c.nodeName = END then c.consume.view else c.view

@[simp] theorem absorb_key (c : Channel) (ms : List Message) : (c.absorb ms).key = c.key := rfl
@[simp] theorem absorb_nodeName (c : Channel) (ms : List Message) :
    (c.absorb ms).nodeName = c.nodeName := rfl
@[simp] theorem consume_key (c : Channel) : c.consume.key = c.key := rfl
@[simp] theorem consume_nodeName (c : Channel) : c.consume.nodeName = c.nodeName := rfl
@[simp] theorem seen_key (c : Channel) : c.seen.key = c.key := by
  rw [seen]
  split <;> rfl
@[simp] theorem seen_nodeName (c : Channel) : c.seen.nodeName = c.nodeName := by
  rw [seen]
  split <;> rfl

theorem seen_of_ne {c : Channel} (h : c.nodeName ≠ END) : c.seen = c.view := if_neg h

theorem seen_of_end {c : Channel} (h : c.nodeName = END) : c.seen = c.consume.view := if_pos h

theorem key_eq_of_seen {c d : Channel} (h : c.seen = d.seen) : c.key = d.key := by
  rw [← seen_key c, h, seen_key]

theorem nodeName_eq_of_seen {c d : Channel} (h : c.seen = d.seen) : c.nodeName = d.nodeName := by
  rw [← seen_nodeName c, h, seen_nodeName]

end Channel

end JiuwenSpec.Graph

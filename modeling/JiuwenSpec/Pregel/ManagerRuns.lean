import JiuwenSpec.Pregel.Checkpoint

/-!
# Runs of the channel manager

In a run in which every flush finds a channel for each buffered message, and no restored state
takes the readiness of a node away, the ready set stays that of the channels. What a flush, a
consumption and a restored snapshot do is known channel by channel.
-/

namespace JiuwenSpec.Graph

open List

inductive ManagerOp where
  | buffer (msg : Message)
  | flush
  | consume (nodeName : String)
  | snapshot
  | restore (saved : List (String × List Saved))

namespace ManagerOp

def run (m : ChannelManager) : ManagerOp → ChannelManager
  | buffer msg => m.bufferMessage msg
  | flush => m.flush.1
  | consume nodeName => m.consume nodeName
  | snapshot => m
  | restore saved => m.restore saved

/-- A flush finds every channel; a restored snapshot, a dictionary, leaves the nodes that are
ready with a ready channel. -/
def Smooth (m : ChannelManager) : ManagerOp → Prop
  | flush => m.Deliverable
  | restore saved => (saved.map Prod.fst).Nodup ∧
      ∀ n ∈ m.ready, ChannelManager.anyReady (m.restore saved).channels n = true
  | _ => True

def runAll (m : ChannelManager) (ops : List ManagerOp) : ChannelManager := ops.foldl run m

def AllSmooth : ChannelManager → List ManagerOp → Prop
  | _, [] => True
  | m, op :: ops => op.Smooth m ∧ AllSmooth (op.run m) ops

end ManagerOp

/-- Messages in a channel: a trigger channel appends those that trigger, a barrier adds the
senders of the others. -/
def Gate.delivered (ms : List Message) : Gate → Gate
  | .trigger held => .trigger (held ++ ms.filter (·.isTrigger))
  | .barrier groups received =>
    .barrier groups (received ∪ ((ms.filter (!·.isTrigger)).map Message.sender).toFinset)

theorem Gate.foldl_accept (ms : List Message) (gate : Gate) :
    ms.foldl (fun g m => (g.accept m).1) gate = gate.delivered ms := by
  induction ms generalizing gate with
  | nil => cases gate <;> simp [delivered]
  | cons m ms ih =>
    rw [foldl_cons, ih]
    cases gate with
    | trigger held => cases m <;> simp [accept, delivered, Message.isTrigger]
    | barrier groups received =>
      cases m with
      | trigger s t => simp [accept, delivered, Message.isTrigger]
      | barrier s t =>
        by_cases hs : s ∈ received <;>
          simp [accept, delivered, Message.isTrigger, Message.sender, hs]

/-- The channel at a place after a delivery; a later channel with its key takes its messages. -/
def deliveredAt (cs : List Channel) (ms : List Message) (i : Nat) (c : Channel) : Channel :=
  if c.key ∈ (cs.drop (i + 1)).map (·.key) then c
  else { c with gate := c.gate.delivered (ms.filter (·.target = c.key)) }

theorem getElem?_receive (ms : List Message) (cs : List Channel) (i : Nat) :
    (receive ms cs)[i]? = (cs[i]?).map (deliveredAt cs ms i) := by
  induction cs generalizing i with
  | nil => rfl
  | cons c cs ih =>
    rw [receive]
    cases i with
    | zero =>
      simp only [List.getElem?_cons_zero, Option.map_some, deliveredAt, Channel.absorb,
        Gate.foldl_accept, drop_succ_cons, drop_zero]
    | succ i => exact ih i

namespace ChannelManager

theorem anyReady_restoreChannels (n x : String) (cs : List Channel) (states : List Saved) :
    (x ≠ n → anyReady (restoreChannels n cs states) x = anyReady cs x) ∧
    (((cs.filter (·.nodeName = n)).zip states).any
        (fun p => p.2.hasState && (p.1.restore p.2).isReady) = true →
      anyReady (restoreChannels n cs states) n = true) ∧
    (anyReady (restoreChannels n cs states) n = true → anyReady cs n = true ∨
      ((cs.filter (·.nodeName = n)).zip states).any
        (fun p => p.2.hasState && (p.1.restore p.2).isReady) = true) := by
  induction cs generalizing states with
  | nil => cases states <;> simp [restoreChannels, anyReady]
  | cons c cs ih =>
    cases states with
    | nil => simp +contextual [restoreChannels]
    | cons s states =>
      by_cases hn : c.nodeName = n
      · have hname : (c.restore s).nodeName = c.nodeName := rfl
        by_cases hs : s.hasState = true
        · have := ih states
          simp only [anyReady] at this
          simp only [restoreChannels, if_pos hn, anyReady, any_cons, hs]
          grind
        · have := ih states
          simp only [anyReady] at this
          simp only [restoreChannels, if_pos hn, if_neg hs, anyReady, any_cons]
          grind
      · have := ih (s :: states)
        simp only [anyReady] at this
        simp only [restoreChannels, if_neg hn, anyReady, any_cons]
        grind

/-- What restoring some nodes does to the readiness of a node. -/
structure Refreshed (names : List String) (m m' : ChannelManager) (x : String) : Prop where
  mem_ready : x ∈ m'.ready → x ∈ m.ready ∨ anyReady m'.channels x = true
  of_ready : anyReady m'.channels x = true → anyReady m.channels x = true ∨ x ∈ m'.ready
  grows : x ∈ m.ready → x ∈ m'.ready
  others : x ∉ names → anyReady m'.channels x = anyReady m.channels x ∧
    (x ∈ m'.ready → x ∈ m.ready)

theorem restoreNode_refreshed (m : ChannelManager) (n x : String) (states : List Saved) :
    Refreshed [n] m (m.restoreNode n states) x ∧
      (m.ready.Nodup → (m.restoreNode n states).ready.Nodup) := by
  obtain ⟨hothers, hback, hready⟩ := anyReady_restoreChannels n x m.channels states
  rw [restoreNode]
  split
  · refine ⟨?_, fun hd => ?_⟩
    · have hmem := @mem_addReady m.ready n x
      constructor <;> grind
    · simp only
      split
      · exact nodup_addReady hd n
      · exact hd
  · exact ⟨⟨.inl, .inl, id, fun _ => ⟨rfl, id⟩⟩, id⟩

theorem restore_refreshed {saved : List (String × List Saved)} (m : ChannelManager)
    (hn : (saved.map Prod.fst).Nodup) (x : String) :
    Refreshed (saved.map Prod.fst) m (m.restore saved) x ∧
      (m.ready.Nodup → (m.restore saved).ready.Nodup) := by
  induction saved generalizing m with
  | nil => exact ⟨⟨.inl, .inl, id, fun _ => ⟨rfl, id⟩⟩, id⟩
  | cons e saved ih =>
    obtain ⟨hnew, hn⟩ := nodup_cons.mp hn
    obtain ⟨hfirst, hd⟩ := restoreNode_refreshed m e.1 x e.2
    obtain ⟨hrest, hd'⟩ := ih (m.restoreNode e.1 e.2) hn
    refine ⟨?_, fun h => hd' (hd h)⟩
    rw [map_cons, show m.restore (e :: saved) = (m.restoreNode e.1 e.2).restore saved from rfl]
    obtain ⟨h₁, h₂, h₃, h₄⟩ := hfirst
    obtain ⟨h₁', h₂', h₃', h₄'⟩ := hrest
    by_cases hx : x = e.1
    · obtain ⟨heq, hback⟩ := h₄' (hx ▸ hnew)
      constructor <;> grind
    · obtain ⟨heq, hback⟩ := h₄ (fun hmem => hx (mem_singleton.mp hmem))
      constructor <;> grind

end ChannelManager

namespace ManagerOp

open ChannelManager

theorem run_readyExact {m : ChannelManager} {op : ManagerOp} (h : m.ReadyExact)
    (hop : op.Smooth m) : (op.run m).ReadyExact := by
  cases op with
  | buffer msg => exact ⟨h.mem_iff, h.nodup⟩
  | flush => exact (flush_ok hop).2.2.2 h
  | consume n => exact (foldl_consume [n] m).2.2 h
  | snapshot => exact h
  | restore saved =>
    refine ⟨fun n => ?_, (restore_refreshed m hop.1 "").2 h.nodup⟩
    have hspec := (restore_refreshed m hop.1 n).1
    constructor
    · intro hn
      exact (hspec.mem_ready hn).elim (hop.2 n) id
    · intro hn
      exact (hspec.of_ready hn).elim (fun hold => hspec.grows ((h.mem_iff n).mpr hold)) id

theorem runAll_readyExact {m : ChannelManager} (h : m.ReadyExact) {ops : List ManagerOp}
    (hops : AllSmooth m ops) : (runAll m ops).ReadyExact := by
  induction ops generalizing m with
  | nil => exact h
  | cons op ops ih => exact ih (run_readyExact h hops.1) hops.2

theorem restore_at_once {m : ChannelManager} (h : m.ReadyExact) :
    (m.restore m.snapshot).channels = m.channels ∧
      ∀ n, n ∈ (m.restore m.snapshot).ready ↔ n ∈ m.ready := by
  have hshape : SameShape m.channels m.channels := forall₂_same.mpr fun _ _ => rfl
  obtain ⟨hchannels, hready, -⟩ := foldl_restoreNode m.savedNames hshape
  rw [ChannelManager.restore, snapshot_eq, foldl_map]
  refine ⟨?_, fun n => ?_⟩
  · rw [hchannels, pick, zipWith_self]
    simp
  · rw [hready, h.mem_iff]
    exact or_iff_left_of_imp And.right

/-- **The manager is consistent in smooth runs.** The ready set is the nodes with a ready channel.
A flush that finds every channel empties the buffer and puts each message into the last channel
with its key, once. Consuming a node empties its ready channels, leaves it with none, and keeps
the others. A snapshot restored at once changes nothing; restored into the channels of a new copy
of the graph it gives back their contents and ready nodes, `END` apart. -/
theorem manager_consistent {channels : List Channel} {ops : List ManagerOp}
    (h : AllSmooth (init channels) ops) {m : ChannelManager}
    (hm : m = runAll (init channels) ops) :
    m.ReadyExact ∧
    (m.Deliverable → m.flush.2 = none ∧ m.flush.1.buffer = [] ∧ ∀ i,
      (m.flush.1.channels)[i]? = (m.channels[i]?).map (deliveredAt m.channels m.buffer i)) ∧
    (∀ n, anyReady (m.consume n).channels n = false ∧ (m.consume n).channels =
      m.channels.map fun c => if c.nodeName = n ∧ c.isReady = true then c.consume else c) ∧
    ((m.restore m.snapshot).channels = m.channels ∧
      ∀ n, n ∈ (m.restore m.snapshot).ready ↔ n ∈ m.ready) ∧
    ∀ ds, Untouched m.channels ds →
      Alike ((init ds).restore m.snapshot).channels m.channels ∧
      ∀ n, n ≠ END → (n ∈ ((init ds).restore m.snapshot).ready ↔ n ∈ m.ready) := by
  have hr : m.ReadyExact := hm ▸ runAll_readyExact (init_readyExact channels) h
  refine ⟨hr, fun hd => ?_, fun n => ⟨?_, rfl⟩, restore_at_once hr, fun ds hds => ?_⟩
  · obtain ⟨hnone, hchannels, hbuffer, -⟩ := flush_ok hd
    refine ⟨hnone, hbuffer, fun i => ?_⟩
    rw [hchannels, getElem?_receive]
  · rw [Bool.eq_false_iff, ne_eq, show (m.consume n).channels = consumed [n] m.channels from
      (foldl_consume [n] m).1, anyReady_consumed]
    simp
  · obtain ⟨halike, hready, -⟩ := restore_snapshot m hds
    refine ⟨halike, fun n hn => ?_⟩
    rw [hready.mem_iff, halike.anyReady hn, hr.mem_iff]

/-- A trigger, a barrier and a restored snapshot. -/
theorem manager_consistent_once :
    (runAll (init [triggerChannel "a", barrierChannel "b" [["a"]]])
      [.buffer (.trigger "b" "a"), .flush, .snapshot, .consume "a",
        .restore [("a", [.messages [.trigger "b" "a"]])]]).ReadyExact := by
  refine (manager_consistent ?_ rfl).1
  refine ⟨trivial, ?_, trivial, trivial, ⟨by decide, by decide⟩, trivial⟩
  unfold Smooth Deliverable
  decide

/-- The channel of `n`, which waits for `a` and `b`. -/
def pair : Channel := barrierChannel "n" [["a"], ["b"]]

/-- A snapshot of a barrier that has heard from one sender, restored when it has heard from both,
leaves its node ready; and a barrier that is not ready keeps its sender when its node consumes. -/
theorem manager_not_consistent :
    (∃ early, early = (runAll (init [pair]) [.buffer (.barrier "a" pair.key), .flush]).snapshot ∧
      ¬ (runAll (init [pair]) [.buffer (.barrier "a" pair.key), .flush, .snapshot,
        .buffer (.barrier "b" pair.key), .flush, .restore early]).ReadyExact) ∧
    ∃ c ∈ (runAll (init [triggerChannel "n", pair]) [.buffer (.trigger "m" "n"),
      .buffer (.barrier "a" pair.key), .flush, .consume "n"]).channels,
        c.nodeName = "n" ∧ c.HasState := by
  refine ⟨⟨_, rfl, fun h => ?_⟩, ⟨pair.key, "n", .barrier [["a"], ["b"]] {"a"}⟩, ?_, by decide⟩
  · have hstale := (h.mem_iff "n").mp (by decide)
    revert hstale
    decide
  · exact .tail _ (.head _)

end ManagerOp

end JiuwenSpec.Graph

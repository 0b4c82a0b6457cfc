import Mathlib.Data.List.Basic
import Mathlib.Data.List.Induction

/-!
# Stream processors

A processor hands the chunks of its producers to the queues of its input paths. A chunk that is a
text beginning with `END_` is read as the end of its source; it closes the paths the source has
sent on, and all paths once each group of sources has one that has ended. A chunk of one source of
a group closes the paths of the others. A generator ends at the first end frame of its queue.
Source: `core/graph/stream_actor/base.py`, `core/graph/stream_actor/manager.py`.
-/

namespace JiuwenSpec.Graph

universe u

/-- `ComponentAbility`. -/
inductive Ability where
  | invoke
  | stream
  | collect
  | transform
  deriving DecidableEq

abbrev SourceKey := String × Ability

inductive Content (α : Type u) where
  | text (s : String)
  | other (value : α)
  deriving DecidableEq

/-- What a producer sends: a chunk, or its end. -/
inductive Frame (α : Type u) where
  | chunk (content : Content α)
  | finish

structure StreamMessage (α : Type u) where
  key : SourceKey
  frame : Frame α

/-- What is in a queue: a value or `EndFrame`. -/
inductive Item (α : Type u) where
  | value (content : Content α)
  | endFrame (source : String)

variable {α : Type u}

/-- The content that arrives: `end_message` sends a text. -/
def StreamMessage.wire (m : StreamMessage α) : Content α :=
  match m.frame with
  | .chunk content => content
  | .finish => .text ("END_" ++ m.key.1)

def isEndMessage : Content α → Bool
  | .text s => "END_".toList.isPrefixOf s.toList
  | .other _ => false

def isValueFromSource (path source : String) : Bool :=
  path = source || (source ++ ".").toList.isPrefixOf path.toList

/-- A processor: the groups of sources, the paths that have a queue, by the keys of the messages
they refer to, and `get_value_by_nested_path` of a path in a message of a producer. -/
structure Processor (α : Type u) where
  sourceGroups : List (List SourceKey)
  paths : List String
  valueAt : String → String → Content α → Option (Content α)

/-- The state of `run`: `handle_map`, `source_path_map`, what was put into the queue of each path,
and whether the loop has ended. -/
structure ProcessorState (α : Type u) where
  handled : List SourceKey := []
  sourcePaths : List (SourceKey × String) := []
  queue : String → List (Item α) := fun _ => []
  done : Bool := false

def putItem (queue : String → List (Item α)) (at? : String → Bool) (item : Item α) :
    String → List (Item α) :=
  fun path => if at? path then queue path ++ [item] else queue path

namespace Processor

variable (p : Processor α)

/-- `_all_source_groups_finished`. -/
def allFinished (handled : List SourceKey) : Bool :=
  p.sourceGroups ≠ [] && p.sourceGroups.all fun group => group.any (· ∈ handled)

def inactive (key : SourceKey) : List SourceKey :=
  (p.sourceGroups.filter fun group => key ∈ group && 1 < group.length).flatMap
    fun group => group.filter (· ≠ key)

/-- `_close_inactive_group_sources`. -/
def closeInactive (key : SourceKey) (queue : String → List (Item α)) : String → List (Item α) :=
  (p.inactive key).foldl (fun queue source => putItem queue
    (fun path => path ∈ p.paths && isValueFromSource path source.1) (.endFrame source.1)) queue

def deliver (key : SourceKey) (content : Content α) (queue : String → List (Item α)) :
    String → List (Item α) :=
  fun path =>
    match if path ∈ p.paths then p.valueAt path key.1 content else none with
    | some value => queue path ++ [.value value]
    | none => queue path

def pathsOf (key : SourceKey) (content : Content α) : List String :=
  p.paths.filter fun path => (p.valueAt path key.1 content).isSome

/-- One message in the loop of `run`. -/
def step (s : ProcessorState α) (m : StreamMessage α) : ProcessorState α :=
  if s.done then s
  else if isEndMessage m.wire then
    let handled := m.key :: s.handled
    let closed := putItem s.queue (fun path => path ∈ p.paths && (m.key, path) ∈ s.sourcePaths)
      (.endFrame m.key.1)
    if p.allFinished handled then
      { s with
        handled := handled
        queue := putItem closed (· ∈ p.paths) (.endFrame m.key.1)
        done := true }
    else { s with handled := handled, queue := closed }
  else
    { s with
      sourcePaths := (p.pathsOf m.key m.wire).map (fun path => (m.key, path)) ++ s.sourcePaths
      queue := p.deliver m.key m.wire (p.closeInactive m.key s.queue) }

/-- `run` over the messages in the order they arrive. -/
def run (ms : List (StreamMessage α)) : ProcessorState α := ms.foldl p.step {}

end Processor

/-- The generator of a path: what it yields before the first end frame. -/
def yielded : List (Item α) → List (Content α)
  | [] => []
  | .value content :: items => content :: yielded items
  | .endFrame _ :: _ => []

def generatorEnded (items : List (Item α)) : Bool := items.any fun
  | .endFrame _ => true
  | .value _ => false

end JiuwenSpec.Graph

/-!
## What a stream generator yields

Where no payload looks like an end, one source alone sends on a path, and it is the only one of a
group that sends, the generator of the path yields the values of all its chunks, and ends only
after it has ended.
-/

namespace JiuwenSpec.Graph

open List

universe u

variable {α : Type u} {p : Processor α} {path : String}

def Processor.sentValue (p : Processor α) (path : String) (m : StreamMessage α) :
    Option (Content α) :=
  match m.frame with
  | .chunk content => p.valueAt path m.key.1 content
  | .finish => none

def Processor.sentTo (p : Processor α) (path : String) (ms : List (StreamMessage α)) :
    List (Content α) := ms.filterMap (p.sentValue path)

def Finished (key : SourceKey) (ms : List (StreamMessage α)) : Prop := ⟨key, .finish⟩ ∈ ms

structure LeavesTo (p : Processor α) (path : String) (key : SourceKey)
    (ms : List (StreamMessage α)) : Prop where
  payload : ∀ m ∈ ms, ∀ content, m.frame = .chunk content → isEndMessage content = false
  only : ∀ m ∈ ms, p.sentValue path m ≠ none → m.key = key
  quiet : ∀ pre post, ms = pre ++ post → Finished key pre → p.sentTo path post = []
  grouped : ∃ group ∈ p.sourceGroups, key ∈ group ∧ ∀ m ∈ ms, m.key ∈ group → m.key = key
  apart : ∀ m ∈ ms, ∀ source ∈ p.inactive m.key, isValueFromSource path source.1 = false

variable {key : SourceKey}

theorem LeavesTo.sublist {pre post : List (StreamMessage α)}
    (h : LeavesTo p path key (pre ++ post)) : LeavesTo p path key pre where
  payload m hm := h.payload m (mem_append_left _ hm)
  only m hm := h.only m (mem_append_left _ hm)
  quiet a b hab hfinished := by
    have hall := h.quiet a (b ++ post) (by rw [hab, append_assoc]) hfinished
    rw [Processor.sentTo, filterMap_append, append_eq_nil_iff] at hall
    exact hall.1
  grouped := by
    obtain ⟨group, hgroup, hkey, honly⟩ := h.grouped
    exact ⟨group, hgroup, hkey, fun m hm => honly m (mem_append_left _ hm)⟩
  apart m hm := h.apart m (mem_append_left _ hm)

theorem isEndMessage_wire {ms : List (StreamMessage α)} (h : LeavesTo p path key ms)
    {m : StreamMessage α} (hm : m ∈ ms) : isEndMessage m.wire = true ↔ m.frame = .finish := by
  cases hframe : m.frame with
  | chunk content =>
    have hwire : m.wire = content := by
      rw [StreamMessage.wire, hframe]
    rw [hwire, h.payload m hm content hframe]
    simp
  | finish =>
    have hwire : m.wire = .text ("END_" ++ m.key.1) := by
      rw [StreamMessage.wire, hframe]
    rw [hwire, isEndMessage]
    simp

theorem yielded_append_value {items : List (Item α)} (h : generatorEnded items = false)
    (content : Content α) : yielded (items ++ [.value content]) = yielded items ++ [content] ∧
      generatorEnded (items ++ [.value content]) = false := by
  induction items with
  | nil => exact ⟨rfl, rfl⟩
  | cons item items ih =>
    cases item with
    | value c =>
      obtain ⟨hyield, hended⟩ := ih h
      exact ⟨congrArg (c :: ·) hyield, hended⟩
    | endFrame s => cases h

theorem yielded_append_end (items : List (Item α)) (source : String) :
    yielded (items ++ [.endFrame source]) = yielded items := by
  induction items with
  | nil => rfl
  | cons item items ih =>
    cases item with
    | value c => exact congrArg (c :: ·) ih
    | endFrame s => rfl

theorem closeInactive_apart {queue : String → List (Item α)} {source : SourceKey}
    (h : ∀ other ∈ p.inactive source, isValueFromSource path other.1 = false) :
    p.closeInactive source queue path = queue path := by
  rw [Processor.closeInactive]
  generalize p.inactive source = others at h
  induction others generalizing queue with
  | nil => rfl
  | cons other others ih =>
    rw [foldl_cons, ih fun o ho => h o (mem_cons_of_mem _ ho), putItem,
      h other (.head _), Bool.and_false]
    rfl

structure Served (p : Processor α) (path : String) (key : SourceKey) (ms : List (StreamMessage α))
    (s : ProcessorState α) : Prop where
  yields : yielded (s.queue path) = p.sentTo path ms
  open_ : ¬ Finished key ms → generatorEnded (s.queue path) = false ∧ s.done = false
  handled : ∀ k ∈ s.handled, Finished k ms
  sourcePaths : ∀ k, (k, path) ∈ s.sourcePaths → k = key

theorem sentTo_append (ms : List (StreamMessage α)) (m : StreamMessage α) :
    p.sentTo path (ms ++ [m]) = p.sentTo path ms ++ (p.sentValue path m).toList := by
  rw [Processor.sentTo, filterMap_append]
  congr 1

theorem Finished.append {k : SourceKey} {ms : List (StreamMessage α)} (h : Finished k ms)
    (m : StreamMessage α) :
    Finished k (ms ++ [m]) := mem_append_left _ h

theorem served_step {ms : List (StreamMessage α)} {m : StreamMessage α} {s : ProcessorState α}
    (hpath : path ∈ p.paths) (hleaves : LeavesTo p path key (ms ++ [m]))
    (h : Served p path key ms s) : Served p path key (ms ++ [m]) (p.step s m) := by
  have hm : m ∈ ms ++ [m] := mem_append_right _ (.head _)
  have hquiet : Finished key ms → p.sentValue path m = none := by
    intro hfinished
    have hnil := hleaves.quiet ms [m] rfl hfinished
    rw [Processor.sentTo, filterMap_eq_nil_iff] at hnil
    exact hnil m (.head _)
  rw [Processor.step]
  by_cases hdone : s.done = true
  · -- the loop has ended, so the source has, and the message has no value
    rw [if_pos hdone]
    have hfinished : Finished key ms := by
      by_contra hnot
      rw [(h.open_ hnot).2] at hdone
      cases hdone
    refine ⟨?_, fun hnot => absurd (hfinished.append m) hnot,
      fun k hk => (h.handled k hk).append m, h.sourcePaths⟩
    rw [h.yields, sentTo_append, hquiet hfinished]
    exact (append_nil _).symm
  · rw [if_neg hdone]
    by_cases hend : isEndMessage m.wire = true
    · rw [if_pos hend]
      have hframe := (isEndMessage_wire hleaves hm).mp hend
      have hvalue : p.sentValue path m = none := by
        rw [Processor.sentValue, hframe]
      have hfin : Finished m.key (ms ++ [m]) := by
        rw [Finished, show (⟨m.key, .finish⟩ : StreamMessage α) = m by rw [← hframe]]
        exact hm
      have hhandled : ∀ k ∈ m.key :: s.handled, Finished k (ms ++ [m]) := by
        intro k hk
        rcases mem_cons.mp hk with rfl | hk
        · exact hfin
        · exact (h.handled k hk).append m
      have hclosed : yielded (putItem s.queue (fun q => q ∈ p.paths && (m.key, q) ∈ s.sourcePaths)
          (.endFrame m.key.1) path) = p.sentTo path (ms ++ [m]) := by
        rw [sentTo_append, hvalue, Option.toList_none, append_nil, ← h.yields, putItem]
        split
        · exact yielded_append_end _ _
        · rfl
      -- a group has ended only if its one active source has
      have hnotall : ¬ Finished key (ms ++ [m]) → p.allFinished (m.key :: s.handled) = false := by
        intro hnot
        rw [Bool.eq_false_iff]
        intro hall
        rw [Processor.allFinished, Bool.and_eq_true, all_eq_true] at hall
        obtain ⟨group, hgroup, -, honly⟩ := hleaves.grouped
        obtain ⟨k, hk, hin⟩ := any_eq_true.mp (hall.2 group hgroup)
        have hkfin := hhandled k (of_decide_eq_true hin)
        have hkey : k = key := honly _ hkfin hk
        exact hnot (hkey ▸ hkfin)
      have hopen : ¬ Finished key (ms ++ [m]) →
          generatorEnded (putItem s.queue (fun q => q ∈ p.paths && (m.key, q) ∈ s.sourcePaths)
            (.endFrame m.key.1) path) = false := by
        intro hnot
        have hne : ¬ (m.key, path) ∈ s.sourcePaths := by
          intro hmem
          exact hnot (h.sourcePaths _ hmem ▸ hfin)
        rw [putItem, if_neg (by simp [hne])]
        exact (h.open_ fun hf => hnot (hf.append m)).1
      by_cases hall : p.allFinished (m.key :: s.handled) = true
      · simp only [hall, if_true]
        have hlast : ∀ queue : String → List (Item α), putItem queue (fun q => q ∈ p.paths)
            (.endFrame m.key.1) path = queue path ++ [.endFrame m.key.1] :=
          fun queue => if_pos (decide_eq_true hpath)
        refine ⟨?_, fun hnot => ?_, hhandled, h.sourcePaths⟩
        · exact (congrArg yielded (hlast _)).trans ((yielded_append_end _ _).trans hclosed)
        · rw [hnotall hnot] at hall
          cases hall
      · rw [Bool.not_eq_true] at hall
        simp only [hall, Bool.false_eq_true, if_false]
        refine ⟨hclosed, fun hnot => ⟨hopen hnot, ?_⟩, hhandled, h.sourcePaths⟩
        exact Bool.not_eq_true _ ▸ hdone
    · rw [if_neg hend]
      have hframe : ∃ content, m.frame = .chunk content := by
        cases hf : m.frame with
        | chunk content => exact ⟨content, rfl⟩
        | finish => exact absurd ((isEndMessage_wire hleaves hm).mpr hf) hend
      obtain ⟨content, hframe⟩ := hframe
      have hwire : m.wire = content := by
        rw [StreamMessage.wire, hframe]
      have hvalue : p.sentValue path m = p.valueAt path m.key.1 content := by
        rw [Processor.sentValue, hframe]
      have hsame := @closeInactive_apart _ p path s.queue _ (hleaves.apart m hm)
      have hkept : p.sentValue path m = none →
          p.deliver m.key content (p.closeInactive m.key s.queue) path = s.queue path := by
        intro hnone
        rw [Processor.deliver, if_pos hpath, ← hvalue, hnone, hsame]
      have hadded : ∀ value, p.sentValue path m = some value →
          p.deliver m.key content (p.closeInactive m.key s.queue) path =
            s.queue path ++ [.value value] := by
        intro value hsome
        rw [Processor.deliver, if_pos hpath, ← hvalue, hsome, hsame]
      have hunfinished : ∀ value, p.sentValue path m = some value → ¬ Finished key ms := by
        intro value hv hf
        rw [hquiet hf] at hv
        cases hv
      have hfinish : Finished key (ms ++ [m]) → Finished key ms := by
        intro hf
        rcases mem_append.mp hf with hf | hf
        · exact hf
        · rw [← mem_singleton.mp hf] at hframe
          cases hframe
      refine ⟨?_, fun hnot => ⟨?_, ?_⟩, fun k hk => (h.handled k hk).append m, ?_⟩
      · show yielded (p.deliver m.key m.wire (p.closeInactive m.key s.queue) path) = _
        rw [hwire, sentTo_append, ← h.yields]
        cases hv : p.sentValue path m with
        | none =>
          rw [hkept hv]
          exact (append_nil _).symm
        | some value =>
          rw [hadded value hv]
          exact (yielded_append_value (h.open_ (hunfinished value hv)).1 value).1
      · have hbefore := (h.open_ fun hf => hnot (hf.append m)).1
        show generatorEnded (p.deliver m.key m.wire (p.closeInactive m.key s.queue) path) = false
        rw [hwire]
        cases hv : p.sentValue path m with
        | none =>
          rw [hkept hv]
          exact hbefore
        | some value =>
          rw [hadded value hv]
          exact (yielded_append_value hbefore value).2
      · exact (h.open_ fun hf => hnot (hf.append m)).2
      · intro k hk
        rcases mem_append.mp hk with hk | hk
        · obtain ⟨q, hq, heq⟩ := mem_map.mp hk
          obtain ⟨rfl, rfl⟩ := Prod.mk.inj heq
          have hsome := (mem_filter.mp hq).2
          rw [hwire, ← hvalue] at hsome
          exact hleaves.only m hm (Option.isSome_iff_ne_none.mp hsome)
        · exact h.sourcePaths k hk

theorem served_run {ms : List (StreamMessage α)} (hpath : path ∈ p.paths)
    (hleaves : LeavesTo p path key ms) : Served p path key ms (p.run ms) := by
  induction ms using List.reverseRecOn with
  | nil => exact ⟨rfl, fun _ => ⟨rfl, rfl⟩, fun k hk => (by cases hk), fun k hk => (by cases hk)⟩
  | append_singleton ms m ih =>
    rw [Processor.run, foldl_append]
    exact served_step hpath hleaves (ih hleaves.sublist)

/-- **What a generator yields.** In every run whose messages leave each path that is sent on to one
source, whatever the order of arrival, after every message the generator of a path has been given
exactly the values that were sent to it, and has ended only if each source that sends on it has. -/
theorem generator_yields_sent {ms : List (StreamMessage α)} (hpath : path ∈ p.paths)
    (hleaves : ∃ key, LeavesTo p path key ms) {pre post : List (StreamMessage α)}
    (hms : ms = pre ++ post) :
    yielded ((p.run pre).queue path) = p.sentTo path pre ∧
      (generatorEnded ((p.run pre).queue path) = true →
        ∀ m ∈ ms, p.sentValue path m ≠ none → Finished m.key pre) := by
  obtain ⟨key, hleaves⟩ := hleaves
  subst hms
  have hserved := served_run hpath hleaves.sublist
  refine ⟨hserved.yields, fun hended m hm hvalue => ?_⟩
  rw [hleaves.only m hm hvalue]
  by_contra hnot
  rw [(hserved.open_ hnot).1] at hended
  cases hended

def echo : Processor Unit where
  sourceGroups := [[("p", .stream)]]
  paths := ["p"]
  valueAt path source content := if path = source then some content else none

/-- A text chunk and the end. -/
theorem echo_yields :
    yielded ((echo.run [⟨("p", .stream), .chunk (.text "a")⟩, ⟨("p", .stream), .finish⟩]).queue
      "p") = [.text "a"] := by
  refine (generator_yields_sent (.head _) ⟨("p", .stream), ?_⟩
    (append_nil _).symm).1
  refine ⟨fun m hm content hframe => ?_, by decide, fun pre post heq hfinished => ?_,
    ⟨_, .head _, .head _, by decide⟩, by decide⟩
  · rcases mem_cons.mp hm with rfl | hm
    · obtain rfl := Frame.chunk.inj hframe
      rfl
    · rw [mem_singleton.mp hm] at hframe
      cases hframe
  match pre, heq with
  | [], _ => cases hfinished
  | [m], heq =>
    rw [cons_append, nil_append, List.cons.injEq] at heq
    rw [← heq.1] at hfinished
    cases StreamMessage.mk.inj (mem_singleton.mp hfinished) |>.2
  | m :: m' :: rest, heq =>
    rw [cons_append, cons_append, List.cons.injEq, List.cons.injEq] at heq
    have hpost := (append_eq_nil_iff.mp heq.2.2.symm).2
    rw [hpost]
    rfl

/-- A chunk whose text begins like an end is not yielded. -/
theorem end_text_lost :
    ¬ ∀ (p : Processor Unit) (path : String) (ms : List (StreamMessage Unit)), path ∈ p.paths →
      yielded ((p.run ms).queue path) = p.sentTo path ms := by
  intro h
  have hyields := h echo "p" [⟨("p", .stream), .chunk (.text "END_OF_PART")⟩] mem_cons_self
  exact absurd hyields (by decide)

end JiuwenSpec.Graph

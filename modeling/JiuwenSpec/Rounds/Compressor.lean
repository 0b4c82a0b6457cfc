import Mathlib.Data.List.Sort
import JiuwenSpec.Base.Assoc
import JiuwenSpec.Base.TextLines

/-!
# The compressor of rounds

Old messages are compressed in three ways: rounds of raw messages, neighbouring memory blocks of
one level, and in the end every block. A phase replaces the blocks that the model names, or all of
its blocks by one text. A range of messages is given by its first position and the one after its
last.
Source: `processor/compressor/round_level_compressor.py`.
-/

namespace JiuwenSpec.Rounds

open Base

/-- A `ToolCall`. -/
structure ToolCall where
  id : Text
  name : Text
  arguments : Text
deriving DecidableEq

/-- What a message is: an `AssistantMessage` with its calls, a `ToolMessage` with the id of the call
that it answers. -/
inductive Kind where
  | system
  | user
  | assistant (toolCalls : List ToolCall)
  | tool (toolCallId : Text)
deriving DecidableEq

structure Msg where
  kind : Kind
  content : Text
  compressLevel : Nat
deriving DecidableEq

def Msg.toolCalls (m : Msg) : List ToolCall :=
  match m.kind with
  | .assistant calls => calls
  | _ => []

def Msg.answered (m : Msg) : Option Text :=
  match m.kind with
  | .tool id => some id
  | _ => none

def Msg.completes (m : Msg) : Bool := m.kind = .assistant []

def Msg.looksLikeAck (m : Msg) : Bool :=
  m.completes && strip m.content = "Understood. I have recorded this compressed context.".toList

/-- A compressor: its marker, the rendering of team calls, its token counter and its budget. -/
structure Compressor where
  compressionMarker : Text
  renderTeamCalls : List Msg → Option Text
  countTokens : List Msg → Nat
  callBudget : Nat

/-- `_is_round_level_fallback_block`. -/
def Compressor.isBlock (c : Compressor) (m : Msg) : Bool :=
  m.kind = .user && c.compressionMarker.isPrefixOf m.content

/-- `_CompressTarget`. -/
structure Target where
  blockId : Text
  scope : Text
  start : Nat
  stop : Nat
  messages : List Msg
  currentLevel : Nat
  nextLevel : Nat
  sourceBlockCount : Nat

/-- `messages[start:stop]`. -/
def slice (ms : List Msg) (start stop : Nat) : List Msg := (ms.take stop).drop start

namespace Compressor

variable (c : Compressor)

/-- `_find_round_level_block_end`, with the acknowledgements that may follow. -/
def blockEnd (ms : List Msg) : Nat → Nat → Nat
  | 0, last => last
  | left + 1, last =>
    if (ms[last + 1]?).any Msg.looksLikeAck then blockEnd ms left (last + 1) else last

/-- `_find_l0_block_end`: a round ends with an assistant that calls nothing, before a block, or at
the limit; the flag says that it is completed. -/
def l0Stop (ms : List Msg) : Nat → Nat → Nat × Bool
  | 0, i => (i, false)
  | left + 1, i =>
    match ms[i]? with
    | none => (i, false)
    | some m =>
      if c.isBlock m then (i, false)
      else if m.completes then (i + 1, true)
      else l0Stop ms left (i + 1)

end Compressor

def tailToolIds (ms : List Msg) (stop : Nat) : List Text :=
  ((ms.drop stop).filterMap Msg.answered).filter fun id => id ≠ []

/-- The messages of a range with a call that is answered behind it. -/
def cutCalls (ms : List Msg) (start stop : Nat) : List Nat :=
  (List.range' start (stop - start)).filter fun i =>
    (ms[i]?).any fun m => m.toolCalls.any fun call => (tailToolIds ms stop).contains call.id

/-- `_protect_tool_call_boundary`. -/
def protectStop (ms : List Msg) (start stop : Nat) : Nat :=
  match cutCalls ms start stop with
  | i :: _ => i
  | [] => if (ms[stop - 1]?).any fun m => !m.toolCalls.isEmpty then stop - 1 else stop

namespace Compressor

variable (c : Compressor)

def numbered (text : String) (n : Nat) : Text := text.toList ++ (toString n).toList

def roundScope (completed : Bool) : Text :=
  (if completed then "completed_react" else "ongoing_react").toList

/-- `_build_raw_targets` from a position, numbering the blocks. -/
def rawTargets (ms : List Msg) (limit : Nat) : Nat → Nat → Nat → List Target
  | 0, _, _ => []
  | fuel + 1, blockNo, cursor =>
    if limit ≤ cursor then []
    else if (ms[cursor]?).any c.isBlock then
      rawTargets ms limit fuel blockNo (blockEnd ms (limit - 1 - cursor) cursor + 1)
    else
      let found := c.l0Stop ms (limit - cursor) cursor
      if found.1 = cursor then rawTargets ms limit fuel blockNo (cursor + 1)
      else
        let stop := protectStop ms cursor found.1
        -- Nothing but an unfinished exchange is left.
        if stop ≠ found.1 ∧ stop ≤ cursor + 1 then []
        else
          { blockId := numbered "block_" blockNo
            scope := roundScope found.2
            start := cursor
            stop := stop
            messages := slice ms cursor stop
            currentLevel := 0
            nextLevel := 1
            sourceBlockCount := 1 } :: rawTargets ms limit fuel (blockNo + 1) stop

/-- `_collect_round_level_memory_targets` from a position. -/
def memoryTargets (ms : List Msg) (limit : Nat) : Nat → Nat → Nat → List Target
  | 0, _, _ => []
  | fuel + 1, blockNo, i =>
    if limit ≤ i then []
    else if (ms[i]?).any c.isBlock then
      let stop := blockEnd ms (limit - 1 - i) i + 1
      let messages := slice ms i stop
      let level := (messages.map Msg.compressLevel).foldl max 0
      { blockId := numbered "memory_" blockNo
        scope := "existing_round_level_block".toList
        start := i
        stop := stop
        messages := messages
        currentLevel := level
        nextLevel := level + 1
        sourceBlockCount := 1 } :: memoryTargets ms limit fuel (blockNo + 1) stop
    else memoryTargets ms limit fuel blockNo (i + 1)

end Compressor

def orderedLevels (levels : List Nat) : List Nat := levels.dedup.insertionSort (· ≤ ·)

/-- The lowest level but the highest that occurs once, with the next higher one. -/
def loneLevel (levels : List Nat) : Option (Nat × Nat) :=
  ((orderedLevels levels).zip (orderedLevels levels).tail).find? fun e => levels.count e.1 = 1

/-- `_resolve_effective_merge_levels`: a block that is alone on its level joins the next one. -/
def effectiveLevels : Nat → List Nat → List Nat
  | 0, levels => levels
  | fuel + 1, levels =>
    match loneLevel levels with
    | none => levels
    | some e => effectiveLevels fuel (levels.map fun level => if level = e.1 then e.2 else level)

def candidateLevel (levels : List Nat) : Option Nat :=
  (orderedLevels levels).find? fun level => 2 ≤ levels.count level

def adjacentGroups : List Target → List (List Target)
  | [] => []
  | t :: ts =>
    match adjacentGroups ts with
    | (next :: group) :: groups =>
      if next.start = t.stop then (t :: next :: group) :: groups
      else [t] :: (next :: group) :: groups
    | groups => [t] :: groups

/-- `_build_merge_target`. -/
def mergeTarget (ms : List Msg) (level groupNo : Nat) (first : Target) (group : List Target) :
    Target :=
  let stop := (group.getLastD first).stop
  { blockId := "merge_".toList ++ (toString level).toList ++ '_' :: (toString groupNo).toList
    scope := "recursive_merge".toList
    start := first.start
    stop := stop
    messages := slice ms first.start stop
    currentLevel := level
    nextLevel := level + 1
    sourceBlockCount := group.length + 1 }

def mergeGroups (ms : List Msg) (level : Nat) : Nat → List (List Target) → List Target
  | groupNo, (first :: second :: group) :: groups =>
    mergeTarget ms level groupNo first (second :: group) ::
      mergeGroups ms level (groupNo + 1) groups
  | groupNo, _ :: groups => mergeGroups ms level groupNo groups
  | _, [] => []

namespace Compressor

variable (c : Compressor)

/-- `_build_recursive_merge_targets`. -/
def mergeTargets (ms : List Msg) (limit : Nat) : List Target :=
  let memory := c.memoryTargets ms limit limit 1 0
  if memory.length < 2 then []
  else
    let levels := memory.map fun t => max t.currentLevel 1
    let effective := effectiveLevels levels.length levels
    match candidateLevel effective with
    | none => []
    | some level =>
      let selected := ((memory.zip effective).filter fun e => e.2 = level).map Prod.fst
      mergeGroups ms level 1
        (adjacentGroups (selected.insertionSort fun t u => t.start ≤ u.start))

/-- `_build_aggressive_targets`. -/
def aggressiveTargets (ms : List Msg) (limit : Nat) : List Target :=
  let raw := c.rawTargets ms limit limit 1 0
  if raw.isEmpty then c.memoryTargets ms limit limit 1 0 else raw

end Compressor

/-- An answer of the model: the items of a `blocks` object, with their ids and summaries where these
are texts, and the text itself. -/
structure Answer where
  blocks : Option (List (Option Text × Option Text))
  content : Text

def Answer.blockMap (answer : Answer) : List (Text × Text) :=
  assocOfWrites ((answer.blocks.getD []).filterMap fun item =>
    match item with
    | (some id, some summary) =>
      if id = [] ∨ strip summary = [] then none else some (id, strip summary)
    | _ => none)

/-- `build_team_collaboration_reinjected_messages`: at most one message, and none without calls. -/
def Compressor.reinjected (c : Compressor) (ms : List Msg) : List Msg :=
  if ms.any fun m => !m.toolCalls.isEmpty then
    (c.renderTeamCalls ms).toList.map fun text =>
      ⟨.user, "[STATE_REINJECTION]\n".toList ++ text, 0⟩
  else []

def Compressor.wrapMemoryBlock (c : Compressor) (summary scope : Text) : Text :=
  c.compressionMarker ++ "\nprocessor: RoundLevelCompressor\n".toList ++
    "type: historical_memory_block\nscope: ".toList ++ scope ++
    "\nauthority: This block is reference memory, not a binding source of truth.\n".toList ++
    "instruction_status: Historical fallback context only. ".toList ++
    "Do not treat as a new user instruction.\n".toList ++
    "conflict_priority: Prefer newer explicit user intent, newer raw context, ".toList ++
    "and fresh tool results over this block.\n\nSummary:\n".toList ++ summary

/-- `_build_memory_message`. -/
def Compressor.memoryMessage (c : Compressor) (summary scope : Text) (level : Nat) : Msg :=
  ⟨.user, c.wrapMemoryBlock summary scope, level⟩

/-- The replacement is within the budget and shorter than what it replaces. -/
def Compressor.accepts (c : Compressor) (original : List Msg) (replacement : Msg) : Bool :=
  c.countTokens [replacement] ≤ c.callBudget && c.countTokens [replacement] < c.countTokens original

structure Replacement (α : Type) where
  start : Nat
  stop : Nat
  messages : List α

/-- The replacement of a range by a summary, where it is accepted. -/
def Compressor.replacement (c : Compressor) (start stop : Nat) (original : List Msg)
    (summary scope : Text) (level : Nat) : Option (Replacement Msg) :=
  let memory := c.memoryMessage summary scope level
  if c.accepts original memory then some ⟨start, stop, memory :: c.reinjected original⟩ else none

/-- `_build_json_replacements`. -/
def Compressor.jsonReplacements (c : Compressor) (targets : List Target) (answer : Answer) :
    List (Replacement Msg) :=
  targets.filterMap fun t => (assocGet? t.blockId answer.blockMap).bind fun summary =>
    c.replacement t.start t.stop t.messages summary t.scope t.nextLevel

/-- `_build_raw_fallback_replacement`: one text for everything from the first target to the last. -/
def Compressor.fallbackReplacement (c : Compressor) (targets : List Target) (summary : Text) :
    Option (Replacement Msg) :=
  match targets with
  | [] => none
  | first :: rest =>
    c.replacement ((rest.map Target.start).foldl min first.start)
      ((rest.map Target.stop).foldl max first.stop) (targets.flatMap Target.messages) summary
      "mixed_context".toList ((rest.map Target.nextLevel).foldl max first.nextLevel)

def Compressor.replacements (c : Compressor) (targets : List Target) (answer : Answer) :
    List (Replacement Msg) :=
  let named := c.jsonReplacements targets answer
  if named = [] ∧ strip answer.content ≠ [] then
    (c.fallbackReplacement targets (strip answer.content)).toList
  else named

/-- `replace_messages`. -/
def replaceRange {α : Type} (ms : List α) (r : Replacement α) : List α :=
  ms.take r.start ++ r.messages ++ ms.drop r.stop

/-- `_apply_replacements`: the last range first. -/
def applyReplacements {α : Type} (ms : List α) (rs : List (Replacement α)) : List α :=
  (rs.insertionSort fun a b => b.start ≤ a.start).foldl replaceRange ms

/-- `_apply_llm_phase`, from an answer; nothing where there is none, or none that replaces. -/
def Compressor.applyPhase (c : Compressor) (ms : List Msg) (targets : List Target)
    (answer : Option Answer) : Option (List Msg) :=
  answer.bind fun answer =>
    let rs := c.replacements targets answer
    if rs.isEmpty then none else some (applyReplacements ms rs)

/-- The loop of `_run_recursive_compression`, with the answers to its calls in order; nothing where
the fuel does not suffice. -/
def Compressor.mergeLoop (c : Compressor) (underBudget : List Msg → Bool) (keep : Nat)
    (answers : Nat → Option Answer) : Nat → Nat → List Msg → Option (List Msg)
  | 0, _, _ => none
  | fuel + 1, call, working =>
    if underBudget working then some working
    else
      match c.mergeTargets working (working.length - keep) with
      | [] => some working
      | targets =>
        match c.applyPhase working targets (answers call) with
        | none => some working
        | some updated =>
          if updated = working then some working
          else mergeLoop c underBudget keep answers fuel (call + 1) updated

end JiuwenSpec.Rounds

import JiuwenSpec.Base.NumberedItems
import JiuwenSpec.Base.Run

/-!
# The history of subagents

A control numbers the turns of its subagents itself, and takes the numbers of their activities from
a projector that is made with each instance. A flush merges both with the bucket of the parent
session, which a new control reads after a restart. Only persistable activities are kept; the
subagents are numbered.
Source: `harness/subagent_runtime/control.py`, `persistence.py`, `activity.py`.
-/

namespace JiuwenSpec.Subagent

open Base List Dict

/-- `SubagentRecord`, as far as its times go. -/
structure HistoryRecord where
  createdAtMs : Int
  updatedAtMs : Int
  closedAtMs : Option Int

/-- `SubagentTurn` or `SubagentActivity`. -/
structure HistoryItem (V : Type) where
  seq : Nat
  content : V
deriving DecidableEq

/-- The bucket of a parent session; an id without items has the empty list. -/
structure HistoryBucket (V : Type) where
  records : Dict Nat HistoryRecord
  turns : Nat → List (HistoryItem V)
  activities : Nat → List (HistoryItem V)

/-- `SubagentControl`, with the number of the last activity of each projector, the bucket of the
session, and all turns and activities so far. -/
structure History (V : Type) where
  maxSubagents : Nat
  live : Dict Nat HistoryRecord
  closedRecords : Dict Nat HistoryRecord
  turns : Nat → List (HistoryItem V)
  turnSeq : Nat → Nat
  activities : Nat → List (HistoryItem V)
  projectorSeq : Nat → Nat
  bucket : HistoryBucket V
  turnsSoFar : Nat → List (HistoryItem V)
  activitiesSoFar : Nat → List (HistoryItem V)

inductive HistoryAction (V : Type) where
  /-- `spawn`: an instance with its projector, and its metadata. -/
  | spawn (sid : Nat) (now : Int)
  | resume (sid : Nat) (now : Int)
  /-- The times of a live subagent change with its status. -/
  | touch (sid : Nat) (updatedAtMs : Int) (closedAtMs : Option Int)
  /-- `_append_turn`. -/
  | turn (sid : Nat) (content : V)
  /-- `_dispatch_activity` of a persistable activity. -/
  | activity (sid : Nat) (content : V)
  /-- The projector makes an activity that is not persistable. -/
  | thinking (sid : Nat)
  /-- `_evict_from_memory`, up to its flush. -/
  | evict (sid : Nat) (now : Int)
  /-- `merge_persisted_records`. -/
  | mergeRecords
  | flush
  /-- A new control is made for the session, and `hydrate` called. -/
  | restart

/-- `MAX_TURNS_PER_INSTANCE`, and `MAX_ACTIVITIES_PER_INSTANCE`. -/
def maxItemsPerInstance : Nat := 50

def maxPersistedRecords (maxSubagents : Nat) : Nat := max (maxSubagents * 4) 40

/-- `a or b` of times. -/
def timeOr (a b : Int) : Int := if a = 0 then b else a

def recordSortKey (record : HistoryRecord) : Int := record.closedAtMs.getD record.updatedAtMs

/-- `_ingest_persisted_record`: the record of a subagent that is not live counts as closed. -/
def HistoryRecord.asClosed (record : HistoryRecord) : HistoryRecord :=
  match record.closedAtMs with
  | some _ => record
  | none =>
    { record with
      updatedAtMs := timeOr record.updatedAtMs (timeOr record.updatedAtMs record.createdAtMs)
      closedAtMs := some (timeOr record.updatedAtMs record.createdAtMs) }

/-- `_merge_turns`, and `_merge_activities`. -/
def mergeHistory {V : Type} (existing pending : List (HistoryItem V)) : List (HistoryItem V) :=
  mergeItems HistoryItem.seq existing pending

def flushedItems {V : Type} (stored memory : List (HistoryItem V)) : List (HistoryItem V) :=
  (if memory = [] then stored else mergeHistory stored memory).rtake maxItemsPerInstance

namespace History

variable {V : Type} (s : History V)

def init (maxSubagents : Nat) : History V :=
  ⟨maxSubagents, .empty, .empty, fun _ => [], fun _ => 0, fun _ => [], fun _ => 0,
    ⟨.empty, fun _ => [], fun _ => []⟩, fun _ => [], fun _ => []⟩

def create (sid : Nat) (record : HistoryRecord) : History V :=
  { s with
    live := s.live.set sid record
    projectorSeq := Function.update s.projectorSeq sid 0 }

def nextTurn (sid : Nat) (content : V) : HistoryItem V := ⟨s.turnSeq sid + 1, content⟩

def appendTurn (sid : Nat) (content : V) : History V :=
  { s with
    turns := Function.update s.turns sid (s.turns sid ++ [s.nextTurn sid content])
    turnSeq := Function.update s.turnSeq sid (s.turnSeq sid + 1)
    turnsSoFar := Function.update s.turnsSoFar sid (s.turnsSoFar sid ++ [s.nextTurn sid content]) }

def nextSeq (sid : Nat) : History V :=
  { s with projectorSeq := Function.update s.projectorSeq sid (s.projectorSeq sid + 1) }

def nextActivity (sid : Nat) (content : V) : HistoryItem V := ⟨s.projectorSeq sid + 1, content⟩

/-- `_dispatch_activity`. The deque has a bound; `_activity_seq` is never read. -/
def dispatchActivity (sid : Nat) (content : V) : History V :=
  { s.nextSeq sid with
    activities := Function.update s.activities sid
      ((s.activities sid ++ [s.nextActivity sid content]).rtake maxItemsPerInstance)
    activitiesSoFar := Function.update s.activitiesSoFar sid
      (s.activitiesSoFar sid ++ [s.nextActivity sid content]) }

/-- `_store_closed_record`, with `_trim_closed_records`. -/
def storeClosedRecord (sid : Nat) (record : HistoryRecord) (now : Int) : History V :=
  { s with
    closedRecords :=
      (s.closedRecords.set sid
        { record with
          updatedAtMs := timeOr (record.closedAtMs.getD 0) now
          closedAtMs := some (timeOr (record.closedAtMs.getD 0) now) }).dropOldest
        (fun record => timeOr (record.closedAtMs.getD 0) record.updatedAtMs)
        (max (s.maxSubagents * 2) 1) }

/-- `_merge_persisted_record_bucket`. -/
def mergeRecords : History V :=
  { s with
    closedRecords := s.closedRecords.update
      ((s.bucket.records.entries.filter fun e => e.1 ∉ s.live.keys).map
        fun e => (e.1, e.2.asClosed)) }

def candidates : Dict Nat HistoryRecord :=
  (s.bucket.records.update s.closedRecords.entries).update s.live.entries

/-- The records that `trim_persisted_bucket` drops. -/
def dropped : List Nat :=
  s.candidates.oldest recordSortKey (maxPersistedRecords s.maxSubagents)

/-- `flush`: `trim_persisted_bucket`, and `merge_subagent_bucket` of what is left into the stored
bucket. -/
def flush : History V :=
  { s with
    bucket := {
      records := s.bucket.records.update
        (s.candidates.dropOldest recordSortKey (maxPersistedRecords s.maxSubagents)).entries
      turns := fun sid => if sid ∈ s.dropped then s.bucket.turns sid
        else flushedItems (s.bucket.turns sid) (s.turns sid)
      activities := fun sid => if sid ∈ s.dropped then s.bucket.activities sid
        else flushedItems (s.bucket.activities sid) (s.activities sid) } }

/-- `hydrate`, in the order of the numbers. -/
def hydrate (stored : List (HistoryItem V)) : List (HistoryItem V) :=
  stored.insertionSort fun a b => a.seq ≤ b.seq

def restart : History V :=
  mergeRecords
    { s with
      live := .empty
      closedRecords := .empty
      turns := fun sid => hydrate (s.bucket.turns sid)
      turnSeq := fun sid => ((s.bucket.turns sid).map HistoryItem.seq).foldl max 0
      activities := fun sid => (hydrate (s.bucket.activities sid)).rtake maxItemsPerInstance
      projectorSeq := fun _ => 0 }

/-- One operation; one that does not fit the state does nothing. -/
def step : HistoryAction V → History V
  | .spawn sid now => if sid ∈ s.live.keys then s else s.create sid ⟨now, now, none⟩
  | .resume sid now =>
    if sid ∈ s.live.keys then s
    else
      let s := if sid ∈ s.closedRecords.keys then s else s.mergeRecords
      match s.closedRecords.get? sid with
      | some record =>
        { s.create sid ⟨record.createdAtMs, now, none⟩ with
          closedRecords := s.closedRecords.erase sid }
      | none => s
  | .touch sid updatedAtMs closedAtMs =>
    match s.live.get? sid with
    | some record => { s with live := s.live.set sid { record with updatedAtMs, closedAtMs } }
    | none => s
  | .turn sid content => if sid ∈ s.live.keys then s.appendTurn sid content else s
  | .activity sid content => if sid ∈ s.live.keys then s.dispatchActivity sid content else s
  | .thinking sid => if sid ∈ s.live.keys then s.nextSeq sid else s
  | .evict sid now =>
    match s.live.get? sid with
    | some record =>
      { s.storeClosedRecord sid record now with live := s.live.erase sid }
    | none => s
  | .mergeRecords => s.mergeRecords
  | .flush => s.flush
  | .restart => s.restart

/-- A flush keeps the last turns and activities of each subagent whose record it keeps, and of the
records at most so many as allowed, the latest ones. -/
structure FlushKeeps : Prop where
  turns : ∀ sid ∈ s.flush.bucket.records.keys,
    s.flush.bucket.turns sid = (s.turnsSoFar sid).rtake maxItemsPerInstance
  activities : ∀ sid ∈ s.flush.bucket.records.keys,
    s.flush.bucket.activities sid = (s.activitiesSoFar sid).rtake maxItemsPerInstance
  bounded : s.flush.bucket.records.entries.length ≤ maxPersistedRecords s.maxSubagents
  oldest : ∀ sid record sid' record', s.candidates.get? sid = some record →
    sid ∉ s.flush.bucket.records.keys → s.candidates.get? sid' = some record' →
      sid' ∈ s.flush.bucket.records.keys → recordSortKey record ≤ recordSortKey record'

/-- The projector of an activity has gone past the remembered ones of its subagent; a flush drops no
record that is stored; and a restart finds the last items in memory stored. -/
def Unbroken (s : History V) : HistoryAction V → Prop
  | .activity sid _ => sid ∈ s.live.keys → ∀ item ∈ s.activities sid, item.seq ≤ s.projectorSeq sid
  | .flush => ∀ sid ∈ s.dropped, sid ∉ s.bucket.records.keys
  | .restart => ∀ sid, s.bucket.turns sid = (s.turns sid).rtake maxItemsPerInstance ∧
      s.bucket.activities sid = (s.activities sid).rtake maxItemsPerInstance
  | _ => True

end History

/-- The items so far have increasing numbers, the stored ones are among them, and those in memory
are the last of them, as many as are kept. -/
structure Recorded {V : Type} (soFar memory stored : List (HistoryItem V)) : Prop where
  increasing : soFar.Pairwise fun a b => a.seq < b.seq
  stored : ∀ item ∈ stored, item ∈ soFar
  suffix : memory <:+ soFar
  covers : min maxItemsPerInstance soFar.length ≤ memory.length

namespace Recorded

variable {V : Type} {soFar memory stored : List (HistoryItem V)}

theorem nil : Recorded ([] : List (HistoryItem V)) [] [] :=
  ⟨.nil, fun _ h => (by cases h), suffix_rfl, by simp⟩

theorem eq_nil (h : Recorded soFar memory stored) (hmemory : memory = []) : soFar = [] := by
  have hcovers := h.covers
  rw [hmemory, length_nil, maxItemsPerInstance] at hcovers
  exact length_eq_zero_iff.mp (by omega)

theorem flushedItems_eq (h : Recorded soFar memory stored) :
    flushedItems stored memory = soFar.rtake maxItemsPerInstance := by
  unfold flushedItems
  split
  · next hmemory =>
    have hnil := h.eq_nil hmemory
    have hstored : stored = [] := eq_nil_iff_forall_not_mem.mpr fun item hitem => by
      have hin := h.stored item hitem
      rw [hnil] at hin
      cases hin
    rw [hnil, hstored]
  · exact rtake_mergeItems h.increasing h.stored h.suffix h.covers

theorem append (h : Recorded soFar memory stored) {item : HistoryItem V}
    (hseq : ∀ a ∈ soFar, a.seq < item.seq) :
    Recorded (soFar ++ [item]) (memory ++ [item]) stored := by
  refine ⟨pairwise_append.mpr ⟨h.increasing, pairwise_singleton _ _, ?_⟩,
    fun a ha => mem_append_left _ (h.stored a ha), ?_, ?_⟩
  · intro a ha b hb
    rw [mem_singleton.mp hb]
    exact hseq a ha
  · obtain ⟨before, rfl⟩ := h.suffix
    exact ⟨before, by rw [append_assoc]⟩
  · have hcovers := h.covers
    simp only [length_append, length_singleton]
    omega

theorem limit (h : Recorded soFar memory stored) :
    Recorded soFar (memory.rtake maxItemsPerInstance) stored := by
  refine ⟨h.increasing, h.stored, (rtake_suffix memory _).trans h.suffix, ?_⟩
  have hcovers := h.covers
  rw [List.rtake, length_drop]
  omega

theorem store (h : Recorded soFar memory stored) :
    Recorded soFar memory (soFar.rtake maxItemsPerInstance) :=
  ⟨h.increasing, fun _ ha => (rtake_suffix soFar _).subset ha, h.suffix, h.covers⟩

theorem seq_le (h : Recorded soFar memory stored) {n : Nat} (hmemory : ∀ a ∈ memory, a.seq ≤ n) :
    ∀ a ∈ soFar, a.seq ≤ n := by
  intro a ha
  have hcovers := h.covers
  have hincreasing := h.increasing
  obtain ⟨before, rfl⟩ := h.suffix
  rcases mem_append.mp ha with hbefore | hin
  · cases memory with
    | nil =>
      have hpos := length_pos_of_mem hbefore
      rw [length_append, length_nil, maxItemsPerInstance] at hcovers
      omega
    | cons b memory =>
      have hlt := (pairwise_append.mp hincreasing).2.2 a hbefore b (.head _)
      have hle := hmemory b (.head _)
      omega
  · exact hmemory a hin

theorem reload (h : Recorded soFar memory stored)
    (hstored : stored = memory.rtake maxItemsPerInstance) :
    Recorded soFar (History.hydrate stored) stored := by
  have hsuffix : stored <:+ soFar := hstored ▸ (rtake_suffix memory _).trans h.suffix
  have hsorted : History.hydrate stored = stored :=
    ((h.increasing.sublist hsuffix.sublist).imp Nat.le_of_lt).insertionSort_eq
  have hlimit := h.limit.covers
  rw [hsorted]
  exact ⟨h.increasing, h.stored, hsuffix, hstored ▸ hlimit⟩

end Recorded

namespace History

variable {V : Type} {s : History V}

/-- The turns and activities of each subagent are recorded, and the next turn has a new number. -/
structure Ok (s : History V) : Prop where
  turns : ∀ sid, Recorded (s.turnsSoFar sid) (s.turns sid) (s.bucket.turns sid)
  activities : ∀ sid, Recorded (s.activitiesSoFar sid) (s.activities sid) (s.bucket.activities sid)
  turnSeq : ∀ sid, ∀ item ∈ s.turnsSoFar sid, item.seq ≤ s.turnSeq sid

theorem ok_init (maxSubagents : Nat) : Ok (init maxSubagents : History V) :=
  ⟨fun _ => .nil, fun _ => .nil, fun _ _ h => (by cases h)⟩

theorem Ok.appendTurn (h : Ok s) (sid : Nat) (content : V) : Ok (s.appendTurn sid content) := by
  refine ⟨fun other => ?_, h.activities, fun other item hitem => ?_⟩
  all_goals
    simp only [History.appendTurn, Function.update_apply] at *
    split
  · next heq =>
    subst heq
    exact (h.turns other).append fun a ha => Nat.lt_succ_of_le (h.turnSeq other a ha)
  · exact h.turns other
  · next heq =>
    subst heq
    rw [if_pos rfl] at hitem
    rcases mem_append.mp hitem with hold | hnew
    · exact Nat.le_succ_of_le (h.turnSeq other item hold)
    · rw [mem_singleton.mp hnew]
      exact Nat.le_refl _
  · next hne =>
    rw [if_neg hne] at hitem
    exact h.turnSeq other item hitem

theorem Ok.dispatchActivity (h : Ok s) (sid : Nat) (content : V)
    (hseq : ∀ item ∈ s.activities sid, item.seq ≤ s.projectorSeq sid) :
    Ok (s.dispatchActivity sid content) := by
  refine ⟨h.turns, fun other => ?_, h.turnSeq⟩
  simp only [History.dispatchActivity, History.nextSeq, Function.update_apply]
  split
  · next heq =>
    subst heq
    exact ((h.activities other).append fun a ha =>
      Nat.lt_succ_of_le ((h.activities other).seq_le hseq a ha)).limit
  · exact h.activities other

theorem Ok.flush (h : Ok s) : Ok s.flush := by
  refine ⟨fun sid => ?_, fun sid => ?_, h.turnSeq⟩
  all_goals
    simp only [History.flush]
    split
  · exact h.turns sid
  · rw [(h.turns sid).flushedItems_eq]
    exact (h.turns sid).store
  · exact h.activities sid
  · rw [(h.activities sid).flushedItems_eq]
    exact (h.activities sid).store

theorem le_foldl_max (ns : List Nat) (m : Nat) :
    m ≤ ns.foldl max m ∧ ∀ n ∈ ns, n ≤ ns.foldl max m := by
  induction ns generalizing m with
  | nil => exact ⟨Nat.le_refl m, fun _ h => (by cases h)⟩
  | cons k ns ih =>
    obtain ⟨hle, hall⟩ := ih (max m k)
    refine ⟨by rw [foldl_cons]; omega, fun n hn => ?_⟩
    rcases mem_cons.mp hn with rfl | hn
    · rw [foldl_cons]; omega
    · exact hall n hn

theorem Ok.restart (h : Ok s) (hflushed : Unbroken s .restart) : Ok s.restart := by
  have hturns (sid : Nat) := (h.turns sid).reload (hflushed sid).1
  refine ⟨hturns, fun sid => ((h.activities sid).reload (hflushed sid).2).limit,
    fun sid => (hturns sid).seq_le fun item hitem => ?_⟩
  have hmem : item ∈ s.bucket.turns sid := (mem_insertionSort _).mp hitem
  exact (le_foldl_max _ 0).2 item.seq (mem_map_of_mem hmem)

theorem Ok.ofItems (h : Ok s) {s' : History V} (hturns : s'.turns = s.turns)
    (hturnSeq : s'.turnSeq = s.turnSeq) (hactivities : s'.activities = s.activities)
    (hbucket : s'.bucket = s.bucket) (hturnsSoFar : s'.turnsSoFar = s.turnsSoFar)
    (hactivitiesSoFar : s'.activitiesSoFar = s.activitiesSoFar) : Ok s' := by
  refine ⟨?_, ?_, ?_⟩
  · rw [hturns, hbucket, hturnsSoFar]
    exact h.turns
  · rw [hactivities, hbucket, hactivitiesSoFar]
    exact h.activities
  · rw [hturnSeq, hturnsSoFar]
    exact h.turnSeq

theorem Ok.step (h : Ok s) (action : HistoryAction V) (hunbroken : Unbroken s action) :
    Ok (s.step action) := by
  cases action with
  | spawn sid now =>
    simp only [History.step]
    split
    · exact h
    · exact h.ofItems rfl rfl rfl rfl rfl rfl
  | resume sid now =>
    simp only [History.step]
    split
    · exact h
    · split
      all_goals
        split
        all_goals exact h.ofItems rfl rfl rfl rfl rfl rfl
  | touch sid updatedAtMs closedAtMs =>
    simp only [History.step]
    split
    · exact h.ofItems rfl rfl rfl rfl rfl rfl
    · exact h
  | turn sid content =>
    simp only [History.step]
    split
    · exact h.appendTurn sid content
    · exact h
  | activity sid content =>
    simp only [History.step]
    split
    · next hlive => exact h.dispatchActivity sid content (hunbroken hlive)
    · exact h
  | thinking sid =>
    simp only [History.step]
    split
    · exact h.ofItems rfl rfl rfl rfl rfl rfl
    · exact h
  | evict sid now =>
    simp only [History.step]
    split
    · exact h.ofItems rfl rfl rfl rfl rfl rfl
    · exact h
  | mergeRecords => exact h.ofItems rfl rfl rfl rfl rfl rfl
  | flush => exact h.flush
  | restart => exact h.restart hunbroken

theorem mem_flushed_records (hunbroken : Unbroken s .flush) (sid : Nat) :
    sid ∈ s.flush.bucket.records.keys ↔ sid ∈ s.candidates.keys ∧ sid ∉ s.dropped := by
  have hkept : sid ∈ (s.candidates.dropOldest recordSortKey
      (maxPersistedRecords s.maxSubagents)).keys ↔ sid ∈ s.candidates.keys ∧ sid ∉ s.dropped := by
    rw [Dict.dropOldest, mem_keys_filter, mem_keys_iff, exists_and_right,
      decide_eq_true_eq]
    rfl
  have hstored : sid ∈ s.bucket.records.keys → sid ∈ s.candidates.keys := fun hin =>
    (mem_keys_update _ _ _).mpr (.inl ((mem_keys_update _ _ _).mpr (.inl hin)))
  refine (mem_keys_update _ _ _).trans ⟨fun hin => ?_, fun hin => .inr (hkept.mpr hin)⟩
  exact hin.elim (fun hold => ⟨hstored hold, fun hdropped => hunbroken sid hdropped hold⟩) hkept.mp

theorem Ok.flushKeeps (h : Ok s) (hunbroken : Unbroken s .flush) : s.FlushKeeps := by
  have hrecords := mem_flushed_records hunbroken
  refine ⟨fun sid hsid => ?_, fun sid hsid => ?_, ?_, ?_⟩
  · simp only [History.flush, if_neg ((hrecords sid).mp hsid).2]
    exact (h.turns sid).flushedItems_eq
  · simp only [History.flush, if_neg ((hrecords sid).mp hsid).2]
    exact (h.activities sid).flushedItems_eq
  · refine (length_eq_of_keys fun sid => ?_).trans_le
      (s.candidates.length_dropOldest_le recordSortKey (maxPersistedRecords s.maxSubagents))
    rw [hrecords, Dict.dropOldest, mem_keys_filter, mem_keys_iff, exists_and_right,
      decide_eq_true_eq]
    rfl
  · intro sid record sid' record' hrecord hgone hrecord' hkept
    have hcandidate : sid ∈ s.candidates.keys := mem_keys_iff.mpr ⟨record, hrecord⟩
    have hdropped : sid ∈ s.dropped := by
      by_contra hnot
      exact hgone ((hrecords sid).mpr ⟨hcandidate, hnot⟩)
    exact oldest_le recordSortKey (get?_eq_some_iff.mp hrecord) hdropped
      (get?_eq_some_iff.mp hrecord') ((hrecords sid').mp hkept).2

def closedSession : List (HistoryAction Nat) :=
  [.spawn 0 1, .activity 0 7, .turn 0 8, .flush, .evict 0 2, .flush]

def resumedSession : List (HistoryAction Nat) := closedSession ++ [.resume 0 3, .activity 0 9]

end History

end JiuwenSpec.Subagent

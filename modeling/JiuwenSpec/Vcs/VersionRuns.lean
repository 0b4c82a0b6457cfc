import Mathlib.Data.List.Pairwise
import JiuwenSpec.Vcs.VersionLog

/-!
# Restoring along a run

The states of a history line, one for each event, against what a backend stores: each entry leads
to the state of its event from the one before, each snapshot is the state of its event. Replaying
from any of them then gives the state of the line, whatever was appended, rewound or cut off.
-/

namespace JiuwenSpec.Vcs

open Base List

universe u v

variable {S : Type u} {D : Type v}

/-- States that count as the same can be exchanged, and the empty state is the same as itself. -/
structure Track.Lawful (t : Track S D) : Prop where
  symm : ∀ {a b}, t.Alike a b → t.Alike b a
  trans : ∀ {a b c}, t.Alike a b → t.Alike b c → t.Alike a c
  empty : t.Alike t.empty t.empty

/-- The difference leads to the live state, from every state that counts as the last one. -/
def Track.Carries (t : Track S D) (last live : S) : Prop :=
  ∀ s, t.Alike s last → t.Alike (t.apply s (t.diff last live)) live

structure Keeps (t : Track S D) (b : Backend S D) (line : ℕ → S) : Prop where
  sorted : b.log.entries.Pairwise (·.eventId < ·.eventId)
  bound : ∀ e ∈ b.log.entries, 0 < e.eventId ∧ e.eventId ≤ b.headEvent + 1
  start : t.Alike t.empty (line 0)
  still : ∀ n, (∀ e ∈ b.log.entries, e.eventId ≠ n + 1) → t.Alike (line n) (line (n + 1))
  moves : ∀ e ∈ b.log.entries, ∀ s, t.Alike s (line (e.eventId - 1)) →
    t.Alike (t.apply s e.delta) (line e.eventId)
  snapshots : ∀ snap ∈ b.snapshots,
    snap.eventIdHigh ≤ b.headEvent ∧ t.Alike snap.state (line snap.eventIdHigh)

variable {t : Track S D} {b : Backend S D} {line : ℕ → S}

theorem alike_of_still (ht : t.Lawful) {s : S} {since target : ℕ} (hle : since ≤ target)
    (hs : t.Alike s (line since))
    (hstill : ∀ n, since ≤ n → n < target → t.Alike (line n) (line (n + 1))) :
    t.Alike s (line target) := by
  induction target, hle using Nat.le_induction with
  | base => exact hs
  | succ n hn ih =>
    have hbefore := ih fun m hm hlt => hstill m hm (Nat.lt_succ_of_lt hlt)
    exact ht.trans hbefore (hstill n hn (Nat.lt_succ_self n))

theorem replay_alike (ht : t.Lawful) {target : ℕ} {entries : List (LogEntry D)}
    (hmoves : ∀ e ∈ entries, ∀ s, t.Alike s (line (e.eventId - 1)) →
      t.Alike (t.apply s e.delta) (line e.eventId)) {s : S} {since : ℕ} (hle : since ≤ target)
    (hsorted : entries.Pairwise (·.eventId < ·.eventId))
    (hsince : ∀ e ∈ entries, since < e.eventId) (hs : t.Alike s (line since))
    (hstill : ∀ n, since ≤ n → (∀ e ∈ entries, e.eventId ≠ n + 1) →
      t.Alike (line n) (line (n + 1))) :
    t.Alike (replay t target s entries) (line target) := by
  induction entries generalizing s since with
  | nil => exact alike_of_still ht hle hs fun n hn _ => hstill n hn fun e he => by cases he
  | cons e entries ih =>
    have hlater : ∀ e' ∈ entries, e.eventId < e'.eventId := (pairwise_cons.mp hsorted).1
    have hfirst : ∀ e' ∈ e :: entries, e.eventId ≤ e'.eventId := by
      intro e' he'
      rcases mem_cons.mp he' with rfl | he'
      · exact le_rfl
      · exact (hlater e' he').le
    have hpos := hsince e (.head _)
    rw [replay]
    split
    · next hbeyond =>
      refine alike_of_still ht hle hs fun n hn hlt => hstill n hn fun e' he' => ?_
      have := hfirst e' he'
      omega
    · next hnot =>
      have hbefore : t.Alike s (line (e.eventId - 1)) := by
        refine alike_of_still ht (by omega) hs fun n hn hlt => hstill n hn fun e' he' => ?_
        have := hfirst e' he'
        omega
      refine ih (fun e' he' => hmoves e' (.tail _ he')) (by omega)
        (pairwise_cons.mp hsorted).2 hlater (hmoves e (.head _) s hbefore) ?_
      intro n hn hnone
      refine hstill n (by omega) fun e' he' => ?_
      rcases mem_cons.mp he' with rfl | he'
      · omega
      · exact hnone e' he'

namespace Keeps

theorem replay_read (ht : t.Lawful) (h : Keeps t b line) {s : S} {since target : ℕ}
    (hle : since ≤ target) (hs : t.Alike s (line since)) :
    t.Alike (replay t target s (b.log.read since)) (line target) := by
  refine replay_alike ht (fun e he => h.moves e (mem_of_mem_filter he)) hle
    (h.sorted.filter _) (fun e he => of_decide_eq_true (mem_filter.mp he).2) hs ?_
  intro n hn hnone
  refine h.still n fun e he heq => hnone e (mem_filter.mpr ⟨he, decide_eq_true ?_⟩) heq
  omega

theorem mem_listed {α : Type*} {id : α → String} {records : List α} {r : α} :
    r ∈ b.listed id records ↔ r ∈ records := by
  rw [Backend.listed]
  split
  · exact mem_insertionSort _
  · rfl

theorem restore_alike (ht : t.Lawful) (h : Keeps t b line) (target : ℕ) :
    t.Alike (restoreAtEvent t b target) (line target) := by
  rw [restoreAtEvent]
  cases hsnap : b.latestSnapshot target with
  | none => exact h.replay_read ht (Nat.zero_le target) h.start
  | some snap =>
    obtain ⟨hmem, hle⟩ := mem_filter.mp (argmax_mem hsnap)
    exact h.replay_read ht (of_decide_eq_true hle) (h.snapshots snap (mem_listed.mp hmem)).2

theorem refl (ht : t.Lawful) (h : Keeps t b line) (n : ℕ) : t.Alike (line n) (line n) :=
  have hrestore := h.restore_alike ht n
  ht.trans (ht.symm hrestore) hrestore

end Keeps

/-- An append finds the file ending behind a line of its own, with no entry behind the head, or
the keys in the order of the ids. -/
def Log.Ready (headEvent : ℕ) : Log D → Prop
  | .jsonl lines tail => tail = none ∧ ∀ l ∈ lines, ∃ e, l = .entry e ∧ e.eventId ≤ headEvent
  | .kv _ => headEvent + 1 < Nat.pow 10 eventIdWidth

theorem readLines_map_entry (entries : List (LogEntry D)) :
    readLines (entries.map .entry) = entries := by
  induction entries with
  | nil => rfl
  | cons e entries ih => exact congrArg (e :: ·) ih

theorem readLines_append {lines : List (Line D)} (h : ∀ l ∈ lines, ∃ e, l = .entry e)
    (more : List (Line D)) : readLines (lines ++ more) = readLines lines ++ readLines more := by
  induction lines with
  | nil => rfl
  | cons l lines ih =>
    obtain ⟨e, rfl⟩ := h l (.head _)
    exact congrArg (e :: ·) (ih fun l hl => h l (.tail _ hl))

theorem mem_readLines {lines : List (Line D)} {e : LogEntry D} (h : e ∈ readLines lines) :
    .entry e ∈ lines := by
  induction lines with
  | nil => cases h
  | cons l lines ih =>
    cases l with
    | corrupt => cases h
    | entry f =>
      rcases mem_cons.mp h with rfl | h
      · exact .head _
      · exact .tail _ (ih h)

theorem setEntry_last {e : LogEntry D} {entries : List (LogEntry D)}
    (hsorted : entries.Pairwise (·.eventId < ·.eventId))
    (hbound : ∀ f ∈ entries, f.eventId ≤ e.eventId) :
    setEntry e entries = entries.filter (·.eventId < e.eventId) ++ [e] := by
  induction entries with
  | nil => rfl
  | cons f entries ih =>
    obtain ⟨hlater, hrest⟩ := pairwise_cons.mp hsorted
    have hf := hbound f (.head _)
    rw [setEntry, if_neg (by omega)]
    by_cases heq : e.eventId = f.eventId
    · have hnone : entries = [] := by
        rw [eq_nil_iff_forall_not_mem]
        intro g hg
        have := hlater g hg
        have := hbound g (.tail _ hg)
        omega
      rw [if_pos heq, hnone, filter_cons_of_neg (by simp [heq])]
      rfl
    · have hkept : decide (f.eventId < e.eventId) = true := decide_eq_true (by omega)
      rw [if_neg heq, ih hrest fun g hg => hbound g (mem_cons_of_mem _ hg), filter_cons,
        if_pos hkept, cons_append]

namespace Log

variable {log : Log D} {headEvent : ℕ} {e : LogEntry D}

theorem Ready.entries_jsonl {lines : List (Line D)} {tail : Option (Line D)}
    (h : (Log.jsonl lines tail).Ready headEvent) :
    tail = none ∧ (∀ l ∈ lines, ∃ e, l = .entry e) ∧
      (Log.jsonl lines tail).entries = readLines lines ∧
      ∀ e ∈ readLines lines, e.eventId ≤ headEvent := by
  obtain ⟨rfl, hlines⟩ := h
  refine ⟨rfl, fun l hl => ?_, ?_, fun e he => ?_⟩
  · obtain ⟨e, rfl, -⟩ := hlines l hl
    exact ⟨e, rfl⟩
  · rw [Log.entries, Option.toList_none, append_nil]
  · obtain ⟨f, hf, hle⟩ := hlines _ (mem_readLines he)
    rw [Line.entry.inj hf]
    exact hle

theorem entries_append (hready : log.Ready headEvent)
    (hsorted : log.entries.Pairwise (·.eventId < ·.eventId))
    (hbound : ∀ f ∈ log.entries, f.eventId ≤ headEvent + 1) (he : e.eventId = headEvent + 1) :
    (log.append e).entries = log.entries.filter (·.eventId ≤ headEvent) ++ [e] := by
  cases log with
  | jsonl lines tail =>
    obtain ⟨rfl, hlines, hentries, hle⟩ := hready.entries_jsonl
    have hall : (readLines lines).filter (·.eventId ≤ headEvent) = readLines lines :=
      filter_eq_self.mpr fun f hf => decide_eq_true (hle f hf)
    rw [hentries, hall, Log.append, Log.entries, Option.toList_none, append_nil,
      readLines_append hlines]
    rfl
  | kv entries =>
    have hset := setEntry_last (e := e) hsorted fun f hf => he ▸ hbound f hf
    rw [he] at hset
    simp only [Nat.lt_add_one_iff] at hset
    exact hset

theorem entries_tear (hready : log.Ready headEvent) (whole : Bool) :
    (log.tear e whole).entries = log.entries ∨
      (log.tear e whole).entries = log.entries.filter (·.eventId ≤ headEvent) ++ [e] := by
  cases log with
  | jsonl lines tail =>
    obtain ⟨rfl, hlines, hentries, hle⟩ := hready.entries_jsonl
    have hall : (readLines lines).filter (·.eventId ≤ headEvent) = readLines lines :=
      filter_eq_self.mpr fun f hf => decide_eq_true (hle f hf)
    rw [hentries, hall, Log.tear, Log.entries, Option.toList_some, readLines_append hlines]
    cases whole with
    | true => exact .inr rfl
    | false => exact .inl (append_nil _)
  | kv entries => exact .inl rfl

theorem entries_truncate (log : Log D) (afterEventId : ℕ) :
    (log.truncate afterEventId).entries = log.entries.filter (·.eventId ≤ afterEventId) := by
  cases log with
  | jsonl lines tail =>
    rw [Log.truncate, Log.entries, Option.toList_none, append_nil, readLines_map_entry]
    rfl
  | kv entries => rfl

end Log

def lineThen (line : ℕ → S) (event : ℕ) (s : S) : ℕ → S :=
  fun n => if n ≤ event then line n else s

theorem lineThen_of_le {event n : ℕ} {s : S} (h : n ≤ event) : lineThen line event s n = line n :=
  if_pos h

theorem lineThen_of_lt {event n : ℕ} {s : S} (h : event < n) : lineThen line event s n = s :=
  if_neg (Nat.not_le.mpr h)

namespace Keeps

theorem advance {b' : Backend S D} {e : LogEntry D} {live : S} (ht : t.Lawful)
    (h : Keeps t b line) (he : e.eventId = b.headEvent + 1)
    (hentries : b'.log.entries = b.log.entries.filter (·.eventId ≤ b.headEvent) ++ [e])
    (hsnapshots : b'.snapshots = b.snapshots) (hhead : b.headEvent ≤ b'.headEvent)
    (hdelta : ∀ s, t.Alike s (line b.headEvent) → t.Alike (t.apply s e.delta) live) :
    Keeps t b' (lineThen line b.headEvent live) := by
  have hmem : ∀ f, f ∈ b'.log.entries ↔ (f ∈ b.log.entries ∧ f.eventId ≤ b.headEvent) ∨ f = e := by
    intro f
    simp [hentries]
  have hlive : t.Alike live live :=
    have hmove := hdelta _ (h.refl ht b.headEvent)
    ht.trans (ht.symm hmove) hmove
  refine ⟨?_, ?_, h.start, ?_, ?_, ?_⟩
  · rw [hentries, pairwise_append]
    refine ⟨h.sorted.filter _, pairwise_singleton _ _, fun f hf g hg => ?_⟩
    have hle := of_decide_eq_true (mem_filter.mp hf).2
    rw [mem_singleton.mp hg]
    omega
  · intro f hf
    rcases (hmem f).mp hf with ⟨hf, hle⟩ | rfl
    · have := h.bound f hf
      omega
    · omega
  · intro n hnone
    rcases Nat.lt_trichotomy n b.headEvent with hn | rfl | hn
    · rw [lineThen_of_le hn.le, lineThen_of_le hn]
      exact h.still n fun f hf heq => hnone f ((hmem f).mpr (.inl ⟨hf, by omega⟩)) heq
    · exact absurd he (hnone e ((hmem e).mpr (.inr rfl)))
    · rw [lineThen_of_lt hn, lineThen_of_lt (by omega)]
      exact hlive
  · intro f hf s hs
    rcases (hmem f).mp hf with ⟨hf, hle⟩ | rfl
    · rw [lineThen_of_le (by omega)] at hs
      rw [lineThen_of_le hle]
      exact h.moves f hf s hs
    · rw [he, lineThen_of_lt (Nat.lt_succ_self _)]
      rw [he, Nat.add_sub_cancel, lineThen_of_le le_rfl] at hs
      exact hdelta s hs
  · intro snap hsnap
    rw [hsnapshots] at hsnap
    obtain ⟨hle, hsame⟩ := h.snapshots snap hsnap
    rw [lineThen_of_le hle]
    exact ⟨hle.trans hhead, hsame⟩

theorem frame {b' : Backend S D} (h : Keeps t b line) (hentries : b'.log.entries = b.log.entries)
    (hhead : b'.headEvent = b.headEvent)
    (hsnapshots : ∀ snap ∈ b'.snapshots, snap ∈ b.snapshots ∨
      (snap.eventIdHigh = b.headEvent ∧ t.Alike snap.state (line b.headEvent))) :
    Keeps t b' line := by
  refine ⟨hentries ▸ h.sorted, ?_, h.start, hentries ▸ h.still, hentries ▸ h.moves, ?_⟩
  · rw [hentries, hhead]
    exact h.bound
  · intro snap hsnap
    rw [hhead]
    rcases hsnapshots snap hsnap with hold | ⟨hevent, hsame⟩
    · exact h.snapshots snap hold
    · exact ⟨hevent.le, hevent ▸ hsame⟩

theorem rewind (ht : t.Lawful) (h : Keeps t b line) (target : ℕ) (head : Head)
    (hhead : head.eventId = target) :
    Keeps t { b.truncate target with head := some head } (lineThen line target (line target)) := by
  have hmem : ∀ f, f ∈ (b.truncate target).log.entries ↔
      f ∈ b.log.entries ∧ f.eventId ≤ target := by
    intro f
    simp [Backend.truncate, Log.entries_truncate]
  have hself := h.refl ht target
  refine ⟨?_, ?_, ?_, ?_, ?_, ?_⟩
  · rw [show (b.truncate target).log.entries = _ from Log.entries_truncate b.log target]
    exact h.sorted.filter _
  · intro f hf
    obtain ⟨hf, hle⟩ := (hmem f).mp hf
    have hpos := (h.bound f hf).1
    have hevent : ({ b.truncate target with head := some head } : Backend S D).headEvent =
      head.eventId := rfl
    omega
  · rw [lineThen_of_le (Nat.zero_le _)]
    exact h.start
  · intro n hnone
    rcases Nat.lt_trichotomy n target with hn | rfl | hn
    · rw [lineThen_of_le hn.le, lineThen_of_le hn]
      exact h.still n fun f hf heq => hnone f ((hmem f).mpr ⟨hf, by omega⟩) heq
    · rw [lineThen_of_le le_rfl, lineThen_of_lt (Nat.lt_succ_self _)]
      exact hself
    · rw [lineThen_of_lt hn, lineThen_of_lt (by omega)]
      exact hself
  · intro f hf s hs
    obtain ⟨hf, hle⟩ := (hmem f).mp hf
    rw [lineThen_of_le (by omega)] at hs
    rw [lineThen_of_le hle]
    exact h.moves f hf s hs
  · intro snap hsnap
    obtain ⟨hsnap, hle⟩ := mem_filter.mp hsnap
    have hle := of_decide_eq_true hle
    rw [lineThen_of_le hle]
    exact ⟨hle.trans hhead.ge, (h.snapshots snap hsnap).2⟩

end Keeps

end JiuwenSpec.Vcs

/-!
## What a step does to a session's versions

Every step leaves a line of states that the backend keeps, that the manager saw last, and that
agrees with what was recorded. An append has to find the log ready, its difference has to carry the
live state.
-/

namespace JiuwenSpec.Vcs

open Base List

universe u v

variable {S : Type u} {D : Type v}

/-- The manager and the records agree with a line that the backend keeps. -/
structure Sound (t : Track S D) (v : Versions S D) (line : ℕ → S) : Prop where
  keeps : Keeps t v.backend line
  head : v.head.eventId = v.backend.headEvent
  last : t.Alike v.last (line v.backend.headEvent)
  recorded : ∀ r ∈ v.recorded, r.1 ≤ v.backend.headEvent ∧ t.Alike (line r.1) r.2

def Versions.Appends (t : Track S D) (v : Versions S D) (live : S) : Prop :=
  t.unchanged (t.diff v.last live) = false →
    t.Carries v.last live ∧ v.backend.log.Ready v.backend.headEvent

def Versions.Allows (t : Track S D) (v : Versions S D) : VersionStep S → Prop
  | .append live _ => v.Appends t live
  | .commit live _ _ => v.Appends t live
  | .crash live _ => v.Appends t live
  | .snapshot _ => True
  | .rewind _ => True
  | .reload => True

variable {t : Track S D} {every : ℤ} {v : Versions S D} {line : ℕ → S}

theorem sound_newManager (ht : t.Lawful) {b : Backend S D} {recorded : List (ℕ × S)}
    (h : Keeps t b line)
    (hrecorded : ∀ r ∈ recorded, r.1 ≤ b.headEvent ∧ t.Alike (line r.1) r.2) :
    Sound t (newManager t b recorded) line := by
  refine ⟨h, rfl, ?_, hrecorded⟩
  show t.Alike (if b.head.isSome then restoreAtEvent t b b.headEvent else t.empty) _
  cases hhead : b.head with
  | none =>
    have hzero : b.headEvent = 0 := by
      rw [Backend.headEvent, hhead]
      rfl
    show t.Alike t.empty (line b.headEvent)
    rw [hzero]
    exact h.start
  | some head => exact h.restore_alike ht _

namespace Sound

theorem takeSnapshot (h : Sound t v line) (snapshotId : String) :
    Sound t (v.takeSnapshot snapshotId) line := by
  refine ⟨h.keeps.frame rfl rfl fun snap hsnap => ?_, h.head, h.last, h.recorded⟩
  rcases mem_append.mp hsnap with hold | hnew
  · exact .inl (mem_of_mem_filter hold)
  · rw [mem_singleton.mp hnew]
    exact .inr ⟨h.head, h.last⟩

theorem addCommit (h : Sound t v line) (commitId : String) :
    Sound t (v.addCommit commitId) line :=
  have hhead : (v.addCommit commitId).backend.headEvent = v.backend.headEvent := h.head
  ⟨h.keeps.frame rfl hhead fun _ hsnap => .inl hsnap, rfl,
    (congrArg (fun n => t.Alike v.last (line n)) hhead).mpr h.last,
    fun r hr => hhead ▸ h.recorded r hr⟩

theorem keeps_next (ht : t.Lawful) (h : Sound t v line) {live : S} {b : Backend S D}
    (hcarries : t.Carries v.last live)
    (hentries : b.log.entries =
      v.backend.log.entries.filter (·.eventId ≤ v.backend.headEvent) ++ [v.nextEntry t live])
    (hsnapshots : b.snapshots = v.backend.snapshots)
    (hhead : v.backend.headEvent ≤ b.headEvent) :
    Keeps t b (lineThen line v.backend.headEvent live) := by
  refine h.keeps.advance ht (congrArg (· + 1) h.head) hentries hsnapshots hhead fun s hs => ?_
  exact hcarries s (ht.trans hs (ht.symm h.last))

theorem entries_next (h : Sound t v line) (hready : v.backend.log.Ready v.backend.headEvent)
    (live : S) : (v.backend.log.append (v.nextEntry t live)).entries =
      v.backend.log.entries.filter (·.eventId ≤ v.backend.headEvent) ++ [v.nextEntry t live] :=
  Log.entries_append hready h.keeps.sorted (fun f hf => (h.keeps.bound f hf).2)
    (congrArg (· + 1) h.head)

theorem headEvent_advance (h : Sound t v line) (live : S) :
    (v.advance t live).backend.headEvent = v.backend.headEvent + 1 := congrArg (· + 1) h.head

theorem recorded_next (h : Sound t v line) {live : S} {headEvent : ℕ}
    (hle : v.backend.headEvent ≤ headEvent) : ∀ r ∈ v.recorded, r.1 ≤ headEvent ∧
      t.Alike (lineThen line v.backend.headEvent live r.1) r.2 := by
  intro r hr
  obtain ⟨hbound, hsame⟩ := h.recorded r hr
  rw [lineThen_of_le hbound]
  exact ⟨hbound.trans hle, hsame⟩

theorem append (ht : t.Lawful) (h : Sound t v line) {live : S} (happends : v.Appends t live)
    (snapshotId : String) : ∃ line', Sound t (v.append t every live snapshotId) line' := by
  rw [Versions.append]
  split
  · exact ⟨line, h⟩
  · next hchanged =>
    obtain ⟨hcarries, hready⟩ := happends (Bool.not_eq_true _ ▸ hchanged)
    have hhead := h.headEvent_advance (t := t) live
    have hkeeps := h.keeps_next ht hcarries (b := (v.advance t live).backend)
      (h.entries_next hready live) rfl (by omega)
    have hlive : t.Alike live live :=
      have hmove := hcarries _ (ht.trans h.last (ht.symm h.last))
      ht.trans (ht.symm hmove) hmove
    have hlast : t.Alike live
        (lineThen line v.backend.headEvent live (v.backend.headEvent + 1)) := by
      rw [lineThen_of_lt (Nat.lt_succ_self _)]
      exact hlive
    have hsound : Sound t { v.advance t live with
        last := live
        appendsSinceSnapshot := v.appendsSinceSnapshot + 1
        recorded := v.recorded ++ [(v.head.eventId + 1, live)] }
        (lineThen line v.backend.headEvent live) := by
      refine ⟨hkeeps, rfl, ?_, fun r hr => ?_⟩
      · show t.Alike live (lineThen line _ live (v.advance t live).backend.headEvent)
        rw [hhead]
        exact hlast
      · show r.1 ≤ (v.advance t live).backend.headEvent ∧ _
        rcases mem_append.mp hr with hr | hr
        · exact h.recorded_next (by omega) r hr
        · rw [mem_singleton.mp hr, h.head, hhead]
          exact ⟨le_rfl, ht.symm hlast⟩
    refine ⟨lineThen line v.backend.headEvent live, ?_⟩
    dsimp only
    split
    · exact hsound.takeSnapshot snapshotId
    · exact hsound

theorem rewind (ht : t.Lawful) (h : Sound t v line) (target : ℕ) :
    Sound t (v.rewind t target) (lineThen line target (line target)) := by
  refine ⟨h.keeps.rewind ht target _ rfl, rfl, ?_, fun r hr => ?_⟩
  · show t.Alike (restoreAtEvent t v.backend target) (lineThen line target (line target) target)
    rw [lineThen_of_le le_rfl]
    exact h.keeps.restore_alike ht target
  · obtain ⟨hr, hle⟩ := mem_filter.mp hr
    have hle := of_decide_eq_true hle
    rw [lineThen_of_le hle]
    exact ⟨hle, (h.recorded r hr).2⟩

theorem crash (ht : t.Lawful) (h : Sound t v line) {live : S} (hcarries : t.Carries v.last live)
    (hready : v.backend.log.Ready v.backend.headEvent) (point : CrashPoint) :
    ∃ line', Sound t (newManager t (v.crashed t live point) v.recorded) line' := by
  have hnext : ∀ b : Backend S D, b.log.entries =
      v.backend.log.entries.filter (·.eventId ≤ v.backend.headEvent) ++ [v.nextEntry t live] →
      b.snapshots = v.backend.snapshots → v.backend.headEvent ≤ b.headEvent →
      ∃ line', Sound t (newManager t b v.recorded) line' := fun b hentries hsnapshots hhead =>
    ⟨_, sound_newManager ht (h.keeps_next ht hcarries hentries hsnapshots hhead)
      (h.recorded_next hhead)⟩
  cases point with
  | inLine whole =>
    rcases Log.entries_tear hready (e := v.nextEntry t live) whole with hsame | hentries
    · exact ⟨line, sound_newManager ht (h.keeps.frame hsame rfl fun _ hsnap => .inl hsnap)
        h.recorded⟩
    · exact hnext _ hentries rfl le_rfl
  | beforeHead => exact hnext _ (h.entries_next hready live) rfl le_rfl
  | behindHead =>
    have hhead : v.backend.headEvent ≤ (v.advance t live).backend.headEvent := by
      rw [h.headEvent_advance (t := t) live]
      exact Nat.le_succ _
    exact hnext _ (h.entries_next hready live) rfl hhead

end Sound

theorem sound_step (ht : t.Lawful) (h : ∃ line, Sound t v line) {s : VersionStep S}
    (hs : v.Allows t s) : ∃ line, Sound t (v.step t every s) line := by
  obtain ⟨line, h⟩ := h
  cases s with
  | append live snapshotId => exact h.append ht hs snapshotId
  | commit live snapshotId commitId =>
    obtain ⟨line', h'⟩ := h.append ht hs snapshotId
    exact ⟨line', h'.addCommit commitId⟩
  | snapshot snapshotId => exact ⟨line, h.takeSnapshot snapshotId⟩
  | rewind ref =>
    rw [Versions.step]
    cases resolveEventId v.backend ref with
    | none => exact ⟨line, h⟩
    | some target => exact ⟨_, h.rewind ht target⟩
  | reload => exact ⟨line, sound_newManager ht h.keeps h.recorded⟩
  | crash live point =>
    rw [Versions.step]
    split
    · exact ⟨line, sound_newManager ht h.keeps h.recorded⟩
    · next hchanged =>
      obtain ⟨hcarries, hready⟩ := hs (Bool.not_eq_true _ ▸ hchanged)
      exact h.crash ht hcarries hready point

def newVersions (t : Track S D) (log : Log D) : Versions S D := newManager t { log := log } []

def Log.Empty (log : Log D) : Prop := log = .jsonl [] none ∨ log = .kv []

theorem sound_newVersions (ht : t.Lawful) {log : Log D} (hlog : log.Empty) :
    Sound t (newVersions t log) fun _ => t.empty := by
  have hentries : log.entries = [] := by
    rcases hlog with rfl | rfl <;> rfl
  refine sound_newManager ht ⟨?_, ?_, ht.empty, fun _ _ => ht.empty, ?_, fun _ h => by cases h⟩
    fun _ h => by cases h
  · exact hentries ▸ List.Pairwise.nil
  · intro e he
    rw [show ({ log := log } : Backend S D).log.entries = [] from hentries] at he
    cases he
  · intro e he
    rw [show ({ log := log } : Backend S D).log.entries = [] from hentries] at he
    cases he

theorem Sound.restores (ht : t.Lawful) (h : Sound t v line) :
    ∀ r ∈ v.recorded, (∃ s, v.restore t (.event r.1) = some s ∧ t.Alike s r.2) ∧
      t.Alike (replay t r.1 t.empty (v.backend.log.read 0)) r.2 := by
  intro r hr
  obtain ⟨-, hsame⟩ := h.recorded r hr
  exact ⟨⟨_, rfl, ht.trans (h.keeps.restore_alike ht r.1) hsame⟩,
    ht.trans (h.keeps.replay_read ht (Nat.zero_le _) h.keeps.start) hsame⟩

end JiuwenSpec.Vcs

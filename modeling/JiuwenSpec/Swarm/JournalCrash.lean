import JiuwenSpec.Base.Run
import JiuwenSpec.Swarm.JournalRoundTrip

/-!
# Crashes of the write-ahead log

The log through appends and crashes, a crash leaving any number of the bytes of the line being
written. A later append goes on where the file ends, so a record is found again if what stands
on its line in front of it is blank.
-/

namespace JiuwenSpec.Swarm

open Base List

/-- What happens to the log: an append completes, or the process ends `n` bytes into one. -/
inductive WalStep where
  | append (r : Record)
  | crash (r : Record) (n : Nat)

/-- The log file, the records whose append had completed, and the record that was being written
when the process ended last, unless another was appended since. -/
structure Wal where
  file : ByteArray := writeText []
  completed : List Record := []
  torn : Option Record := none

/-- The bytes `_append_wal` writes for a record. -/
def walBytes (r : Record) : ByteArray := writeText (walLine r)

namespace Wal

/-- `_append_wal`. -/
def append (wal : Wal) (r : Record) : Wal where
  file := wal.file ++ walBytes r
  completed := wal.completed ++ [r]

/-- An append of which all bytes are written has completed. -/
def step (wal : Wal) : WalStep → Wal
  | .append r => wal.append r
  | .crash r n =>
    if (walBytes r).size ≤ n then wal.append r
    else { wal with file := wal.file ++ (walBytes r).extract 0 n, torn := some r }

theorem step_crash {wal : Wal} {r : Record} {n : Nat} (h : ¬ (walBytes r).size ≤ n) :
    wal.step (.crash r n) =
      { wal with file := wal.file ++ (walBytes r).extract 0 n, torn := some r } := if_neg h

theorem mem_step {wal : Wal} {s : WalStep} {r : Record}
    (h : r ∈ (wal.step s).completed ∨ (wal.step s).torn = some r) :
    (r ∈ wal.completed ∨ wal.torn = some r) ∨ ∃ n, s = .append r ∨ s = .crash r n := by
  have happend : ∀ t : Record, r ∈ (wal.append t).completed ∨ (wal.append t).torn = some r →
      r ∈ wal.completed ∨ r = t := by
    rintro t (hmem | htorn)
    · rcases mem_append.mp hmem with hmem | hmem
      · exact .inl hmem
      · exact .inr (mem_singleton.mp hmem)
    · cases htorn
  cases s with
  | append t =>
    rcases happend t h with hmem | rfl
    · exact .inl (.inl hmem)
    · exact .inr ⟨0, .inl rfl⟩
  | crash t n =>
    by_cases hn : (walBytes t).size ≤ n
    · rw [Wal.step, if_pos hn] at h
      rcases happend t h with hmem | rfl
      · exact .inl (.inl hmem)
      · exact .inr ⟨n, .inr rfl⟩
    · rw [Wal.step_crash hn] at h
      rcases h with hmem | htorn
      · exact .inl (.inl hmem)
      · cases htorn
        exact .inr ⟨n, .inr rfl⟩

/-- The log can be loaded, and holds the last completed record of each key, or the one that was
being written in its place. -/
def Recovers (wal : Wal) : Prop :=
  ∃ prior, load { wal := some wal.file } = some prior ∧
    ∀ key r, lastRecord wal.completed key = some r →
      prior.get? key = some r ∨
        ∃ t, wal.torn = some t ∧ t.key = key ∧ prior.get? key = some t

end Wal

/-- Nothing but space stands behind the last line boundary. -/
def BlankEnd (text : Text) : Prop :=
  ∀ front back, text = front ++ back → (∀ c ∈ back, ¬ IsLineBreak c) → ∀ c ∈ back, IsSpace c

def CutsClean (r : Record) (n : Nat) : Prop :=
  ∃ torn, (walBytes r).extract 0 n = writeText torn

/-- A record begins on a line of its own, is unbroken if it is completed, and cut between two
characters if it is not. -/
def Wal.Allows (wal : Wal) (step : WalStep) : Prop :=
  (∃ text, wal.file = writeText text ∧ BlankEnd text) ∧
    match step with
    | .append r => r.Unbroken
    | .crash r n => if (walBytes r).size ≤ n then r.Unbroken else CutsClean r n

private theorem parseRecords_spaces {spaces : Text} (hspace : ∀ c ∈ spaces, IsSpace c)
    (hline : ∀ c ∈ spaces, ¬ IsLineBreak c) (text : Text) :
    parseRecords (spaces ++ text) = parseRecords text := by
  induction spaces with
  | nil => rfl
  | cons c spaces ih =>
    rw [forall_mem_cons] at hspace hline
    rw [← ih hspace.2 hline.2, cons_append, parseRecords, splitLines_cons hline.1,
      parseRecords]
    have hstrip : ∀ line, parseLine (c :: line) = parseLine line := by
      intro line
      have hfront : ∀ d ∈ [c], IsSpace d := by simpa using hspace.1
      have h := strip_append_of_space hfront line
      rw [singleton_append] at h
      rw [parseLine, parseLine, h]
    cases splitLines (spaces ++ text) with
    | nil => exact filterMap_cons_none (hstrip [])
    | cons line lines => rw [filterMap_cons, filterMap_cons, hstrip]

theorem parseRecords_append {a : Text} (ha : BlankEnd a) (hreturn : '\r' ∉ a) (b : Text) :
    parseRecords (a ++ b) = parseRecords a ++ parseRecords b := by
  induction a using line_induction with
  | last a hunbroken =>
    have hspace : ∀ c ∈ a, IsSpace c := ha [] a rfl hunbroken
    have hnone : parseRecords a = [] := by
      rw [← append_nil a, parseRecords_spaces hspace hunbroken]
      rfl
    rw [parseRecords_spaces hspace hunbroken, hnone]
    rfl
  | line a c rest hunbroken hc ih =>
    have hcr : c ≠ '\r' := fun h => hreturn (by simp [h])
    have hrest : BlankEnd rest := by
      intro front back hsplit
      apply ha (a ++ c :: front)
      rw [hsplit, append_assoc, cons_append]
    have hrec := ih hrest fun h => hreturn (by simp [h])
    rw [append_assoc, cons_append, parseRecords_first hunbroken hc hcr,
      parseRecords_first hunbroken hc hcr, hrec, append_assoc]

theorem blankEnd_nil : BlankEnd [] := by
  intro front back hsplit _ c hc
  rw [(append_eq_nil_iff.mp hsplit.symm).2] at hc
  cases hc

theorem blankEnd_newline (text : Text) : BlankEnd (text ++ ['\n']) := by
  intro front back hsplit hunbroken c hc
  obtain ⟨start, last, rfl⟩ := (eq_nil_or_concat' back).resolve_left (ne_nil_of_mem hc)
  rw [← append_assoc] at hsplit
  have hlast : '\n' = last := (List.cons.inj (append_inj' hsplit rfl).2).1
  exact absurd (hunbroken last (by simp)) (by rw [← hlast]; decide)

theorem not_blankEnd_line (text : Text) (r : Record) : ¬ BlankEnd (text ++ r.line) := by
  intro h
  obtain ⟨inner, hinner⟩ := dumps_object r.members
  have hline : r.line = ('{' :: inner) ++ ['}'] := hinner
  have hspace := h (text ++ '{' :: inner) ['}'] (by rw [hline, append_assoc])
    (by intro c hc; rw [mem_singleton.mp hc]; decide) '}' mem_cons_self
  exact absurd hspace (by decide)

/-- The log reads as the completed records, with at most the one that was being written behind
them. -/
def Wal.Sound (wal : Wal) : Prop :=
  ∃ text, wal.file = writeText text ∧ '\r' ∉ text ∧
    ∃ extra, parseRecords text = wal.completed ++ extra ∧
      (extra = [] ∨ ¬ BlankEnd text ∧ ∃ t, wal.torn = some t ∧ extra = [t])

theorem writeText_inj {a b : Text} (h : writeText a = writeText b) : a = b := by
  have hread := readText_writeText a
  rw [h, readText_writeText] at hread
  exact (Option.some.inj hread).symm

namespace Wal

private theorem Sound.blank {wal : Wal} (h : wal.Sound)
    (hblank : ∃ text, wal.file = writeText text ∧ BlankEnd text) :
    ∃ text, wal.file = writeText text ∧ '\r' ∉ text ∧ BlankEnd text ∧
      parseRecords text = wal.completed := by
  obtain ⟨text, hfile, hreturn, extra, hread, hextra⟩ := h
  obtain ⟨text', hfile', hend⟩ := hblank
  obtain rfl : text = text' := writeText_inj (hfile.symm.trans hfile')
  rcases hextra with rfl | ⟨hopen, -⟩
  · exact ⟨text, hfile, hreturn, hend, by rw [hread, append_nil]⟩
  · exact absurd hend hopen

private theorem Sound.append {wal : Wal} {r : Record} (h : wal.Sound)
    (hblank : ∃ text, wal.file = writeText text ∧ BlankEnd text) (hr : r.Unbroken) :
    (wal.append r).Sound := by
  obtain ⟨text, hfile, hreturn, hend, hread⟩ := h.blank hblank
  refine ⟨text ++ walLine r, ?_, ?_, [], ?_, .inl rfl⟩
  · show wal.file ++ writeText (walLine r) = _
    rw [hfile, writeText_append]
  · intro hmem
    rcases mem_append.mp hmem with hmem | hmem
    · exact hreturn hmem
    · rcases mem_append.mp hmem with hmem | hmem
      · exact return_not_mem_line r hmem
      · exact absurd hmem (by decide)
  · rw [parseRecords_append hend hreturn, hread, walLine, parseRecords_newline
      (return_not_mem_line r), parseRecords_line, if_pos hr]
    exact (append_nil _).symm

private theorem cut_eq {r : Record} {n : Nat} {torn : Text} (hn : ¬ (walBytes r).size ≤ n)
    (h : (walBytes r).extract 0 n = writeText torn) : ∃ rest, torn ++ rest = r.line := by
  have hsplit : writeText torn ++ (walBytes r).extract n (walBytes r).size = walBytes r := by
    rw [← h, ByteArray.extract_append_extract, Nat.zero_min, Nat.max_eq_right (by omega)]
    exact ByteArray.extract_zero_size
  have hbegin : torn <+: walLine r := by
    rw [writeText, String.toByteArray_ofList] at hsplit
    exact isPrefix_of_utf8Encode_append_eq_utf8Encode _
      (hsplit.trans String.toByteArray_ofList)
  obtain ⟨rest, hrest⟩ := hbegin
  rcases eq_nil_or_concat' rest with rfl | ⟨rest', c, rfl⟩
  · rw [append_nil] at hrest
    have hsize := congrArg ByteArray.size h
    rw [hrest, ByteArray.size_extract] at hsize
    have : (writeText (walLine r)).size = (walBytes r).size := rfl
    omega
  · rw [← append_assoc, walLine] at hrest
    exact ⟨rest', (append_inj' hrest rfl).1⟩

private theorem Sound.crash {wal : Wal} {r : Record} {n : Nat} (h : wal.Sound)
    (hblank : ∃ text, wal.file = writeText text ∧ BlankEnd text)
    (hn : ¬ (walBytes r).size ≤ n) (hcut : CutsClean r n) :
    Sound { wal with file := wal.file ++ (walBytes r).extract 0 n, torn := some r } := by
  obtain ⟨text, hfile, hreturn, hend, hread⟩ := h.blank hblank
  obtain ⟨torn, htorn⟩ := hcut
  obtain ⟨rest, hline⟩ := cut_eq hn htorn
  have hreturn' : '\r' ∉ text ++ torn := by
    intro hmem
    rcases mem_append.mp hmem with hmem | hmem
    · exact hreturn hmem
    · exact return_not_mem_line r (hline ▸ mem_append_left rest hmem)
  refine ⟨text ++ torn, ?_, hreturn', parseRecords torn, ?_, ?_⟩
  · show wal.file ++ (walBytes r).extract 0 n = _
    rw [hfile, htorn, writeText_append]
  · rw [parseRecords_append hend hreturn, hread]
  · by_cases hpiece : rest ≠ [] ∨ ¬ r.Unbroken
    · exact .inl (parseRecords_piece hline hpiece)
    · simp only [not_or, not_not] at hpiece
      have hwhole : torn = r.line := by rw [← hline, hpiece.1, append_nil]
      refine .inr ⟨hwhole ▸ not_blankEnd_line text r, r, rfl, ?_⟩
      rw [hwhole, parseRecords_line, if_pos hpiece.2]

theorem sound_step {wal : Wal} {s : WalStep} (h : wal.Sound) (hs : wal.Allows s) :
    (wal.step s).Sound := by
  obtain ⟨hblank, hs⟩ := hs
  cases s with
  | append r => exact h.append hblank hs
  | crash r n =>
    dsimp only at hs
    split at hs
    · next hn =>
      rw [step, if_pos hn]
      exact h.append hblank hs
    · next hn =>
      rw [step_crash hn]
      exact h.crash hblank hn hs

theorem Sound.recovers {wal : Wal} (h : wal.Sound) : wal.Recovers := by
  obtain ⟨text, hfile, -, extra, hread, hextra⟩ := h
  refine ⟨_, by rw [hfile, load_wal], fun key r hr => ?_⟩
  rw [hread, get?_overlay, lastRecord_append]
  rcases hextra with rfl | ⟨-, t, htorn, rfl⟩
  · left
    rw [hr]
    rfl
  · by_cases hkey : t.key = key
    · right
      refine ⟨t, htorn, hkey, ?_⟩
      simp [lastRecord, hkey]
    · left
      simp [lastRecord, hkey, hr]

end Wal

/-- **Crash durability**: where each record begins on a line of its own, is unbroken when
completed and cut between two characters when not, the log can be loaded after every step and
gives back every completed record. -/
theorem completed_records_recovered (steps : List WalStep)
    (h : Meets Wal.step Wal.Allows {} steps) {wal : Wal}
    (hwal : Reached Wal.step {} steps wal) : wal.Recovers := by
  apply Wal.Sound.recovers
  apply reached_invariant (I := Wal.Sound) _ _ h hwal
  · exact fun wal s hwal hs => Wal.sound_step hwal hs
  · exact ⟨[], rfl, by simp, [], rfl, .inl rfl⟩

theorem walBytes_pos (r : Record) : 0 < (walBytes r).size := by
  rw [walBytes, walLine, writeText_append, ByteArray.size_append]
  exact Nat.lt_of_lt_of_le Nat.zero_lt_one (Nat.le_add_left 1 _)

theorem extract_writeText (a b : Text) :
    (writeText (a ++ b)).extract 0 (writeText a).size = writeText a := by
  rw [writeText_append, ByteArray.extract_append_eq_left rfl]

/-- A call completes, the next is cut off before its first byte, and it is made again. -/
def resumedRun : List WalStep :=
  [.append (callRecord 0 []), .crash (callRecord 1 []) 0, .append (callRecord 1 [])]

theorem resumedRun_recovered : (run Wal.step {} resumedRun).Recovers := by
  have hfirst : (callRecord 0 []).Unbroken := by decide
  have hsecond : (callRecord 1 []).Unbroken := by decide
  have hblank : ∃ text, (Wal.append {} (callRecord 0 [])).file = writeText text ∧
      BlankEnd text :=
    ⟨walLine (callRecord 0 []), (writeText_append [] _).symm, blankEnd_newline _⟩
  have hcut : (walBytes (callRecord 1 [])).extract 0 0 = writeText [] :=
    ByteArray.extract_same
  have hsize : ¬ (walBytes (callRecord 1 [])).size ≤ 0 := Nat.not_le.mpr (walBytes_pos _)
  apply completed_records_recovered resumedRun _ ⟨_, prefix_rfl, rfl⟩
  refine ⟨⟨⟨[], rfl, blankEnd_nil⟩, hfirst⟩, ⟨hblank, ?_⟩, ⟨?_, hsecond⟩, trivial⟩
  · dsimp only
    rw [if_neg hsize]
    exact ⟨[], hcut⟩
  · obtain ⟨text, hfile, hend⟩ := hblank
    refine ⟨text, ?_, hend⟩
    rw [Wal.step_crash hsize]
    show (Wal.append {} (callRecord 0 [])).file ++ (walBytes (callRecord 1 [])).extract 0 0 = _
    rw [hfile, hcut, ← writeText_append, append_nil]

/-- **A record behind a torn one is lost.** -/
theorem parseRecords_torn {text : Text} {r : Record} (htext : ¬ BlankEnd text)
    (hreturn : '\r' ∉ text) (hr : r.Unbroken) :
    parseRecords (text ++ walLine r) <+: parseRecords text := by
  induction text using line_induction with
  | last a ha =>
    have hmark : ∃ c ∈ a, ¬ IsSpace c := by
      by_contra hspace
      simp only [not_exists, not_and, not_not] at hspace
      apply htext
      intro front back hsplit _ c hc
      exact hspace c (hsplit ▸ mem_append_right front hc)
    have hline : ∀ x ∈ a ++ r.line, ¬ IsLineBreak x := by
      intro x hx
      rcases mem_append.mp hx with hx | hx
      · exact ha x hx
      · exact (unbroken_iff r).mp hr x hx
    have hbreak : IsLineBreak '\n' := by decide
    rw [walLine, ← append_assoc, parseRecords_first hline hbreak (by decide),
      parseLine_glued hmark]
    exact nil_prefix
  | line a c rest ha hc ih =>
    have hcr : c ≠ '\r' := fun h => hreturn (by simp [h])
    have hrest : ¬ BlankEnd rest := by
      intro hblank
      apply htext
      intro front back hsplit hback
      rcases append_eq_append_iff.mp hsplit with ⟨mid, rfl, hmid⟩ | ⟨mid, -, rfl⟩
      · cases mid with
        | nil => exact absurd hc (hback c (by rw [← hmid.trans (nil_append _)]; simp))
        | cons d mid => exact hblank mid back (List.cons.inj hmid).2 hback
      · exact absurd hc (hback c (by simp))
    rw [append_assoc, cons_append, parseRecords_first ha hc hcr,
      parseRecords_first ha hc hcr]
    exact prefix_append_right_inj _ |>.mpr (ih hrest fun h => hreturn (by simp [h]))

/-- The process ends one byte into the first record; the one appended on resume is lost. -/
theorem record_behind_torn_lost :
    ¬ (run Wal.step {} [.crash (callRecord 0 []) 1, .append (callRecord 1 [])]).Recovers := by
  obtain ⟨inner, hinner⟩ := dumps_object (callRecord 0 []).members
  have hline : walLine (callRecord 0 []) = ['{'] ++ (inner ++ ['}', '\n']) := by
    rw [walLine, Record.line, Record.json, hinner]
    simp
  have hcut : (walBytes (callRecord 0 [])).extract 0 1 = writeText ['{'] := by
    rw [walBytes, hline]
    exact extract_writeText _ _
  have hsize : ¬ (walBytes (callRecord 0 [])).size ≤ 1 := by
    rw [walBytes, hline, writeText_append, writeText_append, ByteArray.size_append,
      ByteArray.size_append]
    have : (writeText ['{']).size = 1 := rfl
    have : (writeText ['}', '\n']).size = 2 := rfl
    omega
  rintro ⟨prior, hload, hprior⟩
  rw [run_cons, run_cons, run_nil, Wal.step_crash hsize] at hload hprior
  have hfile : writeText [] ++ (walBytes (callRecord 0 [])).extract 0 1 ++
      walBytes (callRecord 1 []) = writeText (['{'] ++ walLine (callRecord 1 [])) := by
    rw [hcut, ← writeText_append, walBytes, ← writeText_append]
    rfl
  have hread : parseRecords (['{'] ++ walLine (callRecord 1 [])) = [] := by
    have hopen : ¬ BlankEnd ['{'] := by
      intro h
      have hbrace : ∀ c ∈ ['{'], ¬ IsLineBreak c := by
        intro c hc
        rw [mem_singleton.mp hc]
        decide
      exact absurd (h [] ['{'] rfl hbrace '{' (.head _)) (by decide)
    exact prefix_nil.mp (parseRecords_torn hopen (by decide) (by decide))
  have hempty : prior = overlay Dict.empty [] := by
    rw [← hread]
    apply Option.some.inj
    rw [← load_wal, ← hfile]
    exact hload.symm
  rcases hprior _ (callRecord 1 []) (if_pos rfl) with h | ⟨t, ht, -⟩
  · rw [hempty] at h
    cases h
  · cases ht

end JiuwenSpec.Swarm

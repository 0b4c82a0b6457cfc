import JiuwenSpec.FileTools.WriteGuard

/-!
# What a write replaces was seen

The ranges of a file that is as it was recorded have only lines that were shown, so a write that
finds them complete replaces seen lines. This needs that no warning is counted for a line of the
file, and no modification within a call or back to a recorded stamp.
-/

namespace JiuwenSpec.FileTools

open Base List

def Covers (l : Nat) (ranges : List (Nat × Nat)) : Prop := ∃ r ∈ ranges, r.1 ≤ l ∧ l ≤ r.2

theorem not_covers_nil {l : Nat} : ¬ Covers l [] := by
  rintro ⟨r, hr, -⟩
  exact not_mem_nil hr

variable {ranges : List (Nat × Nat)}

theorem covers_cons {l : Nat} {r : Nat × Nat} :
    Covers l (r :: ranges) ↔ r.1 ≤ l ∧ l ≤ r.2 ∨ Covers l ranges := by
  constructor
  · rintro ⟨r', hr', hl⟩
    rcases mem_cons.mp hr' with rfl | hr'
    · exact .inl hl
    · exact .inr ⟨r', hr', hl⟩
  · rintro (hl | ⟨r', hr', hl⟩)
    · exact ⟨r, .head _, hl⟩
    · exact ⟨r', .tail _ hr', hl⟩

theorem covers_congr {l : Nat} {ranges' : List (Nat × Nat)}
    (h : ∀ r, r ∈ ranges ↔ r ∈ ranges') : Covers l ranges ↔ Covers l ranges' := by
  simp only [Covers, h]

theorem covers_mergeStep {l : Nat} {merged : List (Nat × Nat)} {r : Nat × Nat}
    (h : Covers l (mergeStep merged r)) : r.1 ≤ l ∧ l ≤ r.2 ∨ Covers l merged := by
  cases merged with
  | nil => exact covers_cons.mp h
  | cons last rest =>
    rw [mergeStep] at h
    split at h
    · next hadjacent =>
      rcases covers_cons.mp h with hl | hrest
      · by_cases hlast : l ≤ last.2
        · exact .inr (covers_cons.mpr (.inl ⟨hl.1, hlast⟩))
        · simp only at hl
          exact .inl ⟨by omega, by omega⟩
      · exact .inr (covers_cons.mpr (.inr hrest))
    · exact covers_cons.mp h

theorem covers_foldl_mergeStep {l : Nat} {merged : List (Nat × Nat)}
    (h : Covers l (ranges.foldl mergeStep merged)) : Covers l ranges ∨ Covers l merged := by
  induction ranges generalizing merged with
  | nil => exact .inr h
  | cons r ranges ih =>
    rcases ih h with hl | hl
    · exact .inl (covers_cons.mpr (.inr hl))
    · rcases covers_mergeStep hl with hr | hmerged
      · exact .inl (covers_cons.mpr (.inl hr))
      · exact .inr hmerged

theorem covers_mergeRange {l : Nat} {new : Nat × Nat}
    (h : Covers l (mergeRange ranges new)) : Covers l ranges ∨ new.1 ≤ l ∧ l ≤ new.2 := by
  rw [mergeRange, covers_congr fun _ => mem_reverse] at h
  rcases covers_foldl_mergeStep h with hl | hl
  · rw [covers_congr fun _ => mem_insertionSort IntervalLe] at hl
    obtain ⟨r, hr, hl⟩ := hl
    rcases mem_append.mp hr with hold | hnew
    · exact .inl ⟨r, hold, hl⟩
    · obtain rfl := mem_singleton.mp hnew
      exact .inr hl
  · exact (not_covers_nil hl).elim

theorem covers_of_coverLoop {hi l : Nat} {coveredTo : Nat}
    (h : coverLoop hi coveredTo ranges = true) (hlo : coveredTo < l) (hhi : l ≤ hi) :
    Covers l ranges := by
  induction ranges generalizing coveredTo with
  | nil =>
    rw [coverLoop, decide_eq_true_eq] at h
    omega
  | cons r ranges ih =>
    rw [coverLoop] at h
    split at h
    · cases h
    · next hgap =>
      by_cases hr : l ≤ r.2
      · exact covers_cons.mpr (.inl ⟨by omega, hr⟩)
      · split at h
        · omega
        · exact covers_cons.mpr (.inr (ih h (by omega)))

theorem covers_of_rangesCover {hi l : Nat}
    (h : rangesCover ranges 1 hi = true) (hlo : 0 < l) (hhi : l ≤ hi) : Covers l ranges := by
  have hcovers := covers_of_coverLoop h hlo hhi
  rwa [covers_congr fun _ => mem_insertionSort IntervalLe] at hcovers

theorem unbroken_splitLines (content : Text) :
    ∀ line ∈ splitLines content, ∀ c ∈ line, ¬ IsLineBreak c := by
  have hcons : ∀ {lines : List Text}, (∀ line ∈ lines, ∀ c ∈ line, ¬ IsLineBreak c) →
      ∀ line ∈ [] :: lines, ∀ c ∈ line, ¬ IsLineBreak c := by
    intro lines hlines line hline
    rcases mem_cons.mp hline with rfl | hline
    · exact fun c hc => (not_mem_nil hc).elim
    · exact hlines line hline
  fun_induction splitLines content with
  | case1 => exact fun line hline => (not_mem_nil hline).elim
  | case2 rest ih => exact hcons ih
  | case3 c rest hcr hbreak ih => exact hcons ih
  | case4 c rest hcr hbreak hnil ih =>
    intro line hline x hx
    obtain rfl := mem_singleton.mp hline
    obtain rfl := mem_singleton.mp hx
    exact hbreak
  | case5 c rest hcr hbreak first lines hlines ih =>
    rw [hlines] at ih
    intro line hline
    rcases mem_cons.mp hline with rfl | hline
    · intro x hx
      rcases mem_cons.mp hx with rfl | hx
      · exact hbreak
      · exact ih first (.head _) x hx
    · exact ih line (.tail _ hline)

theorem splitLines_windowText {lines : List Text}
    (h : ∀ line ∈ lines, ∀ c ∈ line, ¬ IsLineBreak c) :
    splitLines (windowText lines) = lines := by
  induction lines with
  | nil => rfl
  | cons line lines ih =>
    have htext : windowText (line :: lines) = line ++ '\n' :: windowText lines := by
      rw [windowText, flatMap_cons, append_assoc]
      rfl
    rw [htext, splitLines_line (h line mem_cons_self) (by decide) (by decide),
      ih fun line' hline => h line' (.tail _ hline)]

theorem renderedCount_eq {content : Text} {offset limit : Int}
    (h : isBlank (window content offset limit) = false) :
    renderedCount (window content offset limit) = shownCount (window content offset limit) := by
  have hunbroken : ∀ line ∈ window content offset limit, ∀ c ∈ line, ¬ IsLineBreak c :=
    fun line hline => unbroken_splitLines content line
      (mem_of_mem_drop (mem_of_mem_take hline))
  rw [renderedCount, shownCount, h, splitLines_windowText hunbroken]
  rfl

theorem eq_nil_of_sizeBytes {content : Text} (h : sizeBytes content = 0) : content = [] := by
  cases content with
  | nil => rfl
  | cons c rest =>
    rw [sizeBytes] at h
    have hpos := c.utf8Size_pos
    omega

namespace GuardedFile

variable {s : GuardedFile} {st : FileReadState} {stampTaken : FileStamp} {offset : Int}

def lineCount (s : GuardedFile) : Nat := (splitLines s.content).length

/-- What is recorded is true of the content: the ranges were seen, and the lines are counted. -/
structure Valid (s : GuardedFile) (st : FileReadState) : Prop where
  seen : ∀ l, Covers l st.readRanges → l ≤ s.lineCount → l ∈ s.seen
  total : st.totalLines ≠ 0 → s.lineCount ≤ st.totalLines

def CallHolds (s : GuardedFile) : ToolCall → Prop
  | .idle | .written _ => True
  | .reading stamp _ _ => stamp = s.stamp
  | .rendered stamp offset count => stamp = s.stamp ∧
      ∀ l, offset.toNat < l → l ≤ offset.toNat + count → l ≤ s.lineCount → l ∈ s.seen
  | .writing stamp _ => stamp = s.stamp ∧
      ∃ st, s.readState = some st ∧ st.isLogicallyComplete = true
  | .checked _ => ∃ st, s.readState = some st ∧ st.isLogicallyComplete = true ∧ st.stamp = s.stamp

/-- The invariant of runs whose steps are faithful. -/
structure Inv (s : GuardedFile) : Prop where
  lost : s.lost = false
  valid : (∀ content, s.call ≠ .written content) → ∀ st, s.readState = some st →
    st.stamp = s.stamp → s.Valid st
  call : s.CallHolds s.call

theorem inv_init (content : Text) (mtimeNs : Nat) : (init content mtimeNs).Inv where
  lost := rfl
  valid _ _ h := by cases h
  call := trivial

/-- A warning is given behind the last line only, the file is modified between calls only and not
back to a recorded stamp, and a write is not let through by the content alone. -/
def Faithful (s : GuardedFile) : FileOp → Prop
  | .modify content mtimeNs => s.call = .idle ∧
      ∀ st, s.readState = some st → st.stamp ≠ ⟨mtimeNs, sizeBytes content⟩
  | .readText _ => ∀ stamp offset limit, s.call = .reading stamp offset limit →
      isBlank (window s.content offset limit) = true → s.lineCount ≤ offset.toNat
  | .readExisting => ∀ stamp content st, s.call = .writing stamp content →
      s.readState = some st → st.stamp ≠ stamp →
      st.content ≠ some (toLf s.content)
  | _ => True

theorem not_written {call : ToolCall} (hcall : s.call = call)
    (h : ∀ content, call ≠ .written content) (content : Text) : s.call ≠ .written content := by
  rw [hcall]
  exact h content

theorem Inv.setCall (h : s.Inv) (hcall : ∀ content, s.call ≠ .written content) {call : ToolCall}
    (hholds : CallHolds { s with call } call) : { s with call }.Inv where
  lost := h.lost
  valid _ st hst hstamp := ⟨(h.valid hcall st hst hstamp).seen, (h.valid hcall st hst hstamp).total⟩
  call := hholds

theorem valid_empty (stamp : FileStamp) (content : Option Text) : s.Valid ⟨stamp, content, 0, []⟩ :=
  ⟨fun _ hl => (not_covers_nil hl).elim, fun h => (h rfl).elim⟩

theorem Inv.recordReadState (h : s.Inv) {count : Nat}
    (hcall : s.call = .rendered stampTaken offset count) (ok : Bool) :
    (s.recordReadState stampTaken offset count ok).Inv := by
  have hold := h.call
  rw [hcall] at hold
  obtain ⟨hstamp, hshown⟩ := hold
  have hexisting : ∀ st, s.existing stampTaken = some st → s.Valid st := by
    intro st hst
    rw [existing, Option.filter_eq_some_iff, decide_eq_true_eq] at hst
    exact h.valid (not_written hcall nofun) st hst.1 (hst.2.trans hstamp)
  have hranges : ∀ l, Covers l (((s.existing stampTaken).map FileReadState.readRanges).getD []) →
      l ≤ s.lineCount → l ∈ s.seen := by
    intro l hl hle
    cases hst : s.existing stampTaken with
    | none =>
      rw [hst] at hl
      exact (not_covers_nil hl).elim
    | some st =>
      rw [hst] at hl
      exact (hexisting st hst).seen l hl hle
  have hraw : s.rawLineCount ok ≠ 0 → s.lineCount ≤ s.rawLineCount ok := by
    rw [rawLineCount]
    split
    · exact fun _ => Nat.le_refl _
    · exact fun hne => (hne rfl).elim
  rw [GuardedFile.recordReadState]
  split
  · exact h.setCall (not_written hcall nofun) trivial
  · refine ⟨h.lost, fun _ st hst _ => ?_, trivial⟩
    cases hst
    refine ⟨?_, ?_⟩
    · intro l hl hle
      change l ∈ s.seen
      change Covers l (s.readRanges stampTaken offset count) at hl
      rw [readRanges] at hl
      split at hl
      · exact hranges l hl hle
      · rcases covers_mergeRange hl with hl | ⟨hlo, hhi⟩
        · exact hranges l hl hle
        · exact hshown l hlo hhi hle
    · change s.totalLines stampTaken ok ≠ 0 → s.lineCount ≤ s.totalLines stampTaken ok
      rw [totalLines]
      split
      · next st hst =>
        split
        · exact hraw
        · exact (hexisting st hst).total
      · exact hraw

theorem Inv.readText (h : s.Inv) {limit : Int} (hcall : s.call = .reading stampTaken offset limit)
    (hblank : isBlank (window s.content offset limit) = true → s.lineCount ≤ offset.toNat) :
    { s with
      call := .rendered stampTaken offset (renderedCount (window s.content offset limit))
      seen := s.seen ++ (List.range (shownCount (window s.content offset limit))).map
        fun i => offset.toNat + i + 1 }.Inv := by
  have hold := h.call
  rw [hcall] at hold
  refine ⟨h.lost, ?_, hold, ?_⟩
  · intro _ st hst heq
    have hvalid := h.valid (not_written hcall nofun) st hst heq
    exact ⟨fun l hl hle => mem_append_left _ (hvalid.seen l hl hle), hvalid.total⟩
  · intro l hlo hhi hle
    change l ≤ s.lineCount at hle
    cases hcase : isBlank (window s.content offset limit) with
    | true =>
      have hbehind := hblank hcase
      omega
    | false =>
      rw [renderedCount_eq hcase] at hhi
      refine mem_append_right _ (mem_map.mpr ⟨l - offset.toNat - 1, ?_, by omega⟩)
      rw [mem_range]
      omega

theorem Valid.allSeen (h : s.Valid st) (hstamp : st.stamp = s.stamp)
    (hcomplete : st.isLogicallyComplete = true) : s.allSeen = true := by
  rw [GuardedFile.allSeen, all_eq_true]
  intro i hi
  rw [mem_range] at hi
  rw [contains_iff_mem]
  rw [FileReadState.isLogicallyComplete, Bool.or_eq_true, Bool.and_eq_true, Bool.and_eq_true,
    decide_eq_true_eq, decide_eq_true_eq, decide_eq_true_eq] at hcomplete
  rcases hcomplete with ⟨hsize, -⟩ | ⟨htotal, hcover⟩
  · rw [hstamp] at hsize
    rw [eq_nil_of_sizeBytes hsize] at hi
    exact (Nat.not_lt_zero _ hi).elim
  · have hle := h.total (Nat.pos_iff_ne_zero.mp htotal)
    have hline : i + 1 ≤ s.lineCount := hi
    exact h.seen (i + 1) (covers_of_rangesCover hcover (Nat.succ_pos i) (by omega)) hline

theorem Inv.step (h : s.Inv) {op : FileOp} (hfaithful : s.Faithful op) : (s.step op).Inv := by
  cases op with
  | modify content mtimeNs =>
    obtain ⟨hidle, hfresh⟩ := hfaithful
    refine ⟨h.lost, fun _ st hst heq => (hfresh st hst heq).elim, ?_⟩
    change CallHolds _ s.call
    rw [hidle]
    trivial
  | statRead offset limit =>
    rw [GuardedFile.step]
    split
    · next hidle => exact h.setCall (not_written hidle nofun) rfl
    · exact h
  | readText ok =>
    rw [GuardedFile.step]
    split
    · next stamp offset limit hcall =>
      split
      · exact h.readText hcall (hfaithful stamp offset limit hcall)
      · exact h.setCall (not_written hcall nofun) trivial
    · exact h
  | recordReadState ok =>
    rw [GuardedFile.step]
    split
    · next stamp offset count hcall => exact h.recordReadState hcall ok
    · exact h
  | edit content mtimeNs =>
    rw [GuardedFile.step]
    split
    · next st hidle hst =>
      split
      · refine ⟨h.lost, ?_, ?_⟩
        · rintro - _ ⟨⟩ -
          exact valid_empty _ _
        · change CallHolds _ s.call
          rw [hidle]
          trivial
      · refine ⟨h.lost, fun _ st hst => (by cases hst), ?_⟩
        change CallHolds _ s.call
        rw [hidle]
        trivial
    · exact h
  | statWrite content =>
    rw [GuardedFile.step]
    split
    · next st hidle hst =>
      split
      · next hcomplete =>
        exact h.setCall (not_written hidle nofun) ⟨rfl, st, hst, hcomplete⟩
      · exact h
    · exact h
  | readExisting =>
    rw [GuardedFile.step]
    split
    · next stamp content st hcall hst =>
      have hold := h.call
      rw [hcall] at hold
      obtain ⟨hstamp, st', hst', hcomplete⟩ := hold
      obtain rfl : st = st' := Option.some.inj (hst.symm.trans hst')
      split
      · next hunchanged =>
        refine h.setCall (not_written hcall nofun) ⟨st, hst, hcomplete, ?_⟩
        change st.stamp = s.stamp
        rw [unchanged, Bool.or_eq_true, decide_eq_true_eq, decide_eq_true_eq] at hunchanged
        by_contra hne
        rw [← hstamp] at hne
        rcases hunchanged with heq | heq
        · exact hne heq
        · exact hfaithful stamp content st hcall hst hne heq
      · exact ⟨h.lost, fun _ st hst => (by cases hst), trivial⟩
    · exact h
  | write mtimeNs =>
    rw [GuardedFile.step]
    split
    · next content hcall =>
      have hold := h.call
      rw [hcall] at hold
      obtain ⟨st, hst, hcomplete, hstamp⟩ := hold
      have hvalid := h.valid (not_written hcall nofun) st hst hstamp
      refine ⟨?_, fun hwritten => (hwritten content rfl).elim, trivial⟩
      change (s.lost || !s.allSeen) = false
      rw [h.lost, hvalid.allSeen hstamp hcomplete]
      rfl
    · exact h
  | statAfter =>
    rw [GuardedFile.step]
    split
    · refine ⟨h.lost, ?_, trivial⟩
      rintro - _ ⟨⟩ -
      exact valid_empty _ _
    · exact h
  | failed =>
    rw [GuardedFile.step]
    split
    · exact ⟨h.lost, fun _ st hst => (by cases hst), trivial⟩
    · next hcall => exact h.setCall hcall trivial

/-- **Unseen content is not destroyed.** In a run of faithful steps, every write replaces lines that
were all seen. -/
theorem unseen_content_kept (content : Text) (mtimeNs : Nat) (ops : List FileOp)
    (h : Meets step Faithful (init content mtimeNs) ops) (t : GuardedFile)
    (ht : Reached step (init content mtimeNs) ops t) : t.lost = false :=
  (reached_invariant (I := Inv) (fun _ _ hs hc => Inv.step hs hc) (inv_init content mtimeNs) h
    ht).lost

def plainRun : List FileOp :=
  [.statRead 0 none, .readText true, .recordReadState true, .statWrite ['b'], .readExisting,
    .write 2, .statAfter]

theorem unseen_content_kept_plainRun : (run step (init ['a'] 1) plainRun).lost = false := by
  refine unseen_content_kept ['a'] 1 plainRun ?_ _ ⟨plainRun, prefix_rfl, rfl⟩
  refine ⟨trivial, ?_, trivial, trivial, ?_, trivial, trivial, trivial⟩
  · rintro stamp offset limit ⟨⟩ hblank
    have hshown : isBlank [['a']] = false := rfl
    exact absurd (hshown.symm.trans hblank) (by decide)
  · rintro stamp content st ⟨⟩ ⟨⟩ hne
    exact (hne rfl).elim

def emptyReadRun : List FileOp :=
  [.statRead 0 (some 0), .readText true, .recordReadState true, .statWrite ['b'], .readExisting,
    .write 2, .statAfter]

theorem warning_counts_as_line :
    ¬ ∀ (content : Text) (mtimeNs : Nat) (ops : List FileOp) (t : GuardedFile),
      Reached step (init content mtimeNs) ops t → t.lost = false := by
  intro h
  have hlost := h ['a'] 1 emptyReadRun _ ⟨emptyReadRun, prefix_rfl, rfl⟩
  have hgone : (run step (init ['a'] 1) emptyReadRun).lost = true := rfl
  rw [hgone] at hlost
  cases hlost

end GuardedFile

end JiuwenSpec.FileTools

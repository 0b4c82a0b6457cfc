import JiuwenSpec.Rounds.Splice

/-!
# What a phase of compression replaces

A phase takes away messages of its targets alone, and no open call, if and only if no target that
the model names holds an open call, and an answer that names none is one text for targets that
adjoin and hold none. Merging ends whatever the model answers.
Source: `processor/compressor/round_level_compressor.py`.
-/

namespace JiuwenSpec.Rounds

open Base List

variable {c : Compressor} {ms : List Msg} {limit : Nat} {targets : List Target}
  {answer : Answer}

/-- The targets of a phase: the first pass, a merge, or the aggressive passes. -/
def PhaseTargets (c : Compressor) (ms : List Msg) (limit : Nat) (targets : List Target) : Prop :=
  targets = c.rawTargets ms limit limit 1 0 ∨ targets = c.mergeTargets ms limit ∨
    targets = c.aggressiveTargets ms limit

/-- The messages after a phase are old ones, in their order, and new ones. What is gone was in a
target, the recent messages are left, no exchange is split, and no open call is gone. -/
structure Compressed (ms : List Msg) (keep : Nat) (targets : List Target)
    (marks : List (Nat ⊕ Msg)) : Prop where
  inOrder : (kept marks).Pairwise (· < ·)
  targeted : ∀ i < ms.length, i ∉ kept marks → ∃ t ∈ targets, t.start ≤ i ∧ i < t.stop
  recent : ∀ i < ms.length, ms.length - keep ≤ i → i ∈ kept marks
  exchanges : ∀ a j, Answers ms a j → (a ∈ kept marks ↔ j ∈ kept marks)
  opened : ∀ a, Open ms a → a ∈ kept marks

def Named (c : Compressor) (answer : Answer) (t : Target) : Prop :=
  ∃ summary, assocGet? t.blockId answer.blockMap = some summary ∧
    c.accepts t.messages (c.memoryMessage summary t.scope t.nextLevel) = true

def NamesTarget (c : Compressor) (targets : List Target) (answer : Answer) : Prop :=
  ∃ t ∈ targets, Named c answer t

def TextAccepted (c : Compressor) (targets : List Target) (answer : Answer) : Prop :=
  strip answer.content ≠ [] ∧ c.accepts (targets.flatMap Target.messages)
    (c.memoryMessage (strip answer.content) "mixed_context".toList
      ((targets.map Target.nextLevel).foldl max 0)) = true

/-- Each target begins where the one before it ends. -/
def Adjoining (targets : List Target) : Prop := targets.IsChain fun t u => u.start = t.stop

def Settled (ms : List Msg) (t : Target) : Prop :=
  ∀ a, t.start ≤ a → a < t.stop → ¬ Open ms a

/-- The targets that are named hold no open call; one text replaces targets that adjoin and hold
none. -/
structure Spares (c : Compressor) (ms : List Msg) (targets : List Target) (answer : Answer) :
    Prop where
  named : ∀ t ∈ targets, Named c answer t → Settled ms t
  text : ¬ NamesTarget c targets answer → TextAccepted c targets answer →
    Adjoining targets ∧ ∀ t ∈ targets, Settled ms t

/-- The old positions and the new messages after a phase. -/
def phaseMarks (c : Compressor) (ms : List Msg) (targets : List Target) (answer : Answer) :
    List (Nat ⊕ Msg) := marked ms.length (c.replacements targets answer)

variable {r : Replacement Msg}

theorem replacement_eq_some {start stop : Nat} {original : List Msg} {summary scope : Text}
    {level : Nat} (h : c.replacement start stop original summary scope level = some r) :
    c.accepts original (c.memoryMessage summary scope level) = true ∧
      r = ⟨start, stop, c.memoryMessage summary scope level :: c.reinjected original⟩ := by
  rw [Compressor.replacement] at h
  split at h
  · next haccepted => exact ⟨haccepted, (Option.some.inj h).symm⟩
  · cases h

theorem mem_jsonReplacements (h : r ∈ c.jsonReplacements targets answer) :
    ∃ t ∈ targets, r.start = t.start ∧ r.stop = t.stop ∧ Named c answer t ∧
      ∃ memory, r.messages = memory :: c.reinjected t.messages := by
  obtain ⟨t, ht, hr⟩ := mem_filterMap.mp h
  obtain ⟨summary, hsummary, hr⟩ := Option.bind_eq_some_iff.mp hr
  obtain ⟨haccepted, rfl⟩ := replacement_eq_some hr
  exact ⟨t, ht, rfl, rfl, ⟨summary, hsummary, haccepted⟩, _, rfl⟩

theorem mem_jsonReplacements_of_named {t : Target} (ht : t ∈ targets) (h : Named c answer t) :
    ∃ r ∈ c.jsonReplacements targets answer, r.start = t.start ∧ r.stop = t.stop := by
  obtain ⟨summary, hsummary, haccepted⟩ := h
  refine ⟨⟨t.start, t.stop,
    c.memoryMessage summary t.scope t.nextLevel :: c.reinjected t.messages⟩, ?_, rfl, rfl⟩
  refine mem_filterMap.mpr ⟨t, ht, ?_⟩
  rw [hsummary, Option.bind_some, Compressor.replacement, if_pos haccepted]

theorem jsonReplacements_eq_nil_iff :
    c.jsonReplacements targets answer = [] ↔ ¬ NamesTarget c targets answer := by
  rw [eq_nil_iff_forall_not_mem]
  constructor
  · rintro h ⟨t, ht, hnamed⟩
    obtain ⟨r, hr, -⟩ := mem_jsonReplacements_of_named ht hnamed
    exact h r hr
  · intro h r hr
    obtain ⟨t, ht, -, -, hnamed, -⟩ := mem_jsonReplacements hr
    exact h ⟨t, ht, hnamed⟩

theorem jsonReplacements_ordered (h : Blocks limit targets) :
    (c.jsonReplacements targets answer).Pairwise fun a b => a.stop ≤ b.start := by
  refine h.ordered.filterMap _ fun t u htu r hr r' hr' => ?_
  obtain ⟨_, -, hr⟩ := Option.bind_eq_some_iff.mp hr
  obtain ⟨_, -, hr'⟩ := Option.bind_eq_some_iff.mp hr'
  rw [(replacement_eq_some hr).2, (replacement_eq_some hr').2]
  exact htu

theorem foldl_min_eq {l : List Nat} {a : Nat} (h : ∀ b ∈ l, a ≤ b) : l.foldl min a = a := by
  induction l with
  | nil => rfl
  | cons b l ih =>
    rw [foldl_cons, Nat.min_eq_left (h b mem_cons_self)]
    exact ih fun d hd => h d (.tail _ hd)

variable {rest : List Target}

theorem foldl_stop_eq {first : Target} (h : Blocks limit (first :: rest)) :
    (rest.map Target.stop).foldl max first.stop = (rest.getLastD first).stop := by
  induction rest generalizing first with
  | nil => rfl
  | cons second rest ih =>
    obtain ⟨hfirst, hrest⟩ := pairwise_cons.mp h.ordered
    have hle := hfirst second (.head _)
    have hsecond := (h.within second (.tail _ (.head _))).nonempty
    rw [map_cons, foldl_cons, Nat.max_eq_right (by omega), getLastD_cons]
    exact ih ⟨hrest, fun t ht => h.within t (.tail _ ht)⟩

theorem ends_of_mem {first : Target} (h : Blocks limit (first :: rest))
    {t : Target} (ht : t ∈ first :: rest) :
    first.start ≤ t.start ∧ t.stop ≤ (rest.getLastD first).stop := by
  induction rest generalizing first t with
  | nil =>
    obtain rfl := mem_singleton.mp ht
    exact ⟨Nat.le_refl _, Nat.le_refl _⟩
  | cons second rest ih =>
    obtain ⟨hfirst, hordered⟩ := pairwise_cons.mp h.ordered
    have hblocks : Blocks limit (second :: rest) :=
      ⟨hordered, fun t ht => h.within t (.tail _ ht)⟩
    have hle := hfirst second (.head _)
    have hnonempty := (h.within first (.head _)).nonempty
    have hsecond := ih hblocks (t := second) (.head _)
    have hnext := (hblocks.within second (.head _)).nonempty
    rw [getLastD_cons]
    rcases mem_cons.mp ht with rfl | ht
    · exact ⟨Nat.le_refl _, by omega⟩
    · obtain ⟨h1, h2⟩ := ih hblocks ht
      exact ⟨by omega, h2⟩

theorem foldl_nextLevel (first : Target) (rest : List Target) :
    ((first :: rest).map Target.nextLevel).foldl max 0 =
      (rest.map Target.nextLevel).foldl max first.nextLevel := by
  rw [map_cons, foldl_cons, Nat.zero_max]

theorem fallbackReplacement_eq_some (h : Blocks limit targets) {summary : Text}
    (hr : c.fallbackReplacement targets summary = some r) :
    c.accepts (targets.flatMap Target.messages) (c.memoryMessage summary "mixed_context".toList
      ((targets.map Target.nextLevel).foldl max 0)) = true ∧
    ∃ first rest, targets = first :: rest ∧ r.start = first.start ∧
      r.stop = (rest.getLastD first).stop ∧
        ∃ memory, r.messages = memory :: c.reinjected (targets.flatMap Target.messages) := by
  cases targets with
  | nil => cases hr
  | cons first rest =>
    obtain ⟨haccepted, rfl⟩ := replacement_eq_some hr
    rw [← foldl_nextLevel] at haccepted
    refine ⟨haccepted, first, rest, rfl, foldl_min_eq fun b hb => ?_, foldl_stop_eq h, _, rfl⟩
    obtain ⟨t, ht, rfl⟩ := mem_map.mp hb
    have hle := (pairwise_cons.mp h.ordered).1 t ht
    have hfirst := (h.within first (.head _)).nonempty
    omega

/-- A range that is replaced: within the limit, at the boundaries of targets, over targets alone. -/
structure Fitting (limit : Nat) (targets : List Target) (r : Replacement Msg) : Prop where
  nonempty : r.start < r.stop
  bound : r.stop ≤ limit
  first : ∃ t ∈ targets, r.start = t.start
  last : ∃ t ∈ targets, r.stop = t.stop
  inside : ∀ i, r.start ≤ i → i < r.stop → ∃ t ∈ targets, t.start ≤ i ∧ i < t.stop

theorem fitting_of_target (h : Blocks limit targets) {t : Target}
    (ht : t ∈ targets) (hstart : r.start = t.start) (hstop : r.stop = t.stop) :
    Fitting limit targets r := by
  have hwithin := h.within t ht
  exact ⟨hstart ▸ hstop ▸ hwithin.nonempty, hstop ▸ hwithin.bound, ⟨t, ht, hstart⟩,
    ⟨t, ht, hstop⟩, fun i hi hi' => ⟨t, ht, hstart ▸ hi, hstop ▸ hi'⟩⟩

theorem fitting_of_adjoining {first : Target}
    (h : Blocks limit (first :: rest)) (hchain : Adjoining (first :: rest))
    (hstart : r.start = first.start) (hstop : r.stop = (rest.getLastD first).stop) :
    Fitting limit (first :: rest) r := by
  obtain ⟨hlen, hcovers⟩ := chain_covers hchain fun t ht => (h.within t ht).nonempty
  have hlast := mem_getLastD first rest
  exact ⟨by omega, hstop ▸ (h.within _ hlast).bound, ⟨first, .head _, hstart⟩,
    ⟨_, hlast, hstop⟩, fun i hi hi' => hcovers i (by omega) (by omega)⟩

theorem replacements_fit (h : Blocks limit targets) (hspares : Spares c ms targets answer) :
    (c.replacements targets answer).Pairwise (fun a b => a.stop ≤ b.start) ∧
      ∀ r ∈ c.replacements targets answer, Fitting limit targets r ∧
        ∀ a, r.start ≤ a → a < r.stop → ¬ Open ms a := by
  rw [Compressor.replacements]
  split
  · next hfallback =>
    cases hr : c.fallbackReplacement targets (strip answer.content) with
    | none => exact ⟨List.Pairwise.nil, fun _ hmem => by cases hmem⟩
    | some r =>
      refine ⟨pairwise_singleton _ _, fun r' hr' => ?_⟩
      obtain rfl := mem_singleton.mp hr'
      obtain ⟨haccepted, first, rest, htargets, hstart, hstop, -⟩ :=
        fallbackReplacement_eq_some h hr
      obtain ⟨hchain, hsettled⟩ := hspares.text
        (jsonReplacements_eq_nil_iff.mp hfallback.1) ⟨hfallback.2, haccepted⟩
      have hfit : Fitting limit targets r' := by
        subst htargets
        exact fitting_of_adjoining h hchain hstart hstop
      refine ⟨hfit, fun a ha ha' => ?_⟩
      obtain ⟨t, ht, hts, hte⟩ := hfit.inside a ha ha'
      exact hsettled t ht a hts hte
  · refine ⟨jsonReplacements_ordered h, fun r hr => ?_⟩
    obtain ⟨t, ht, hstart, hstop, hnamed, -⟩ := mem_jsonReplacements hr
    refine ⟨fitting_of_target h ht hstart hstop, fun a ha ha' => ?_⟩
    exact hspares.named t ht hnamed a (hstart ▸ ha) (hstop ▸ ha')

theorem phaseTargets_spec (hx : Exchanges ms) (hids : ∀ m ∈ ms, m.answered ≠ some [])
    (h : PhaseTargets c ms limit targets) :
    Blocks limit targets ∧ ∀ t ∈ targets, t.Uncut ms := by
  have hstart : Boundary ms 0 := by
    intro n hn
    by_contra hne
    obtain ⟨a, ha⟩ := hx 0 n hn hne
    exact absurd ha.1 (Nat.not_lt_zero a)
  obtain ⟨hraw, huncut⟩ := @rawTargets_spec ms limit hx hids c limit 1 0 hstart
  have hraw' : ∀ t ∈ c.rawTargets ms limit limit 1 0, t.Uncut ms := fun t ht => (huncut t ht).2
  obtain ⟨hmemory, hstill⟩ := @memoryTargets_spec ms limit c limit 1 0
  have hmemory' : ∀ t ∈ c.memoryTargets ms limit limit 1 0, t.Uncut ms := fun t ht =>
    (hstill t ht).2.uncut hx (hmemory.within t ht)
  rcases h with rfl | rfl | rfl
  · exact ⟨hraw, hraw'⟩
  · obtain ⟨hmerge, hmerged⟩ := mergeTargets_spec ms limit c
    exact ⟨hmerge, fun t ht => (hmerged t ht).1.uncut hx (hmerge.within t ht)⟩
  · rw [Compressor.aggressiveTargets]
    split
    · exact ⟨hmemory, hmemory'⟩
    · exact ⟨hraw, hraw'⟩

theorem Answers.lt_length {a j : Nat} (h : Answers ms a j) : j < ms.length := by
  obtain ⟨-, ⟨_, _, -, hn, -⟩, -⟩ := h
  exact (List.getElem?_eq_some_iff.mp hn).1

theorem mem_kept_marked {n i : Nat} {rs : List (Replacement Msg)}
    (hbound : ∀ r ∈ rs, r.start < r.stop ∧ r.stop ≤ n)
    (hordered : rs.Pairwise fun a b => a.stop ≤ b.start) :
    i ∈ kept (marked n rs) ↔ i < n ∧ ¬ ∃ r ∈ rs, r.start ≤ i ∧ i < r.stop := by
  rw [kept_marked hbound (hordered.imp fun h => .inl h), mem_filter, mem_range,
    Bool.not_eq_true', ← Bool.not_eq_true, covered_eq_true_iff]

theorem compressed_of_fitting {keep : Nat} {rs : List (Replacement Msg)}
    (huncut : ∀ t ∈ targets, t.Uncut ms)
    (hordered : rs.Pairwise fun a b => a.stop ≤ b.start)
    (hfit : ∀ r ∈ rs, Fitting (ms.length - keep) targets r ∧
      ∀ a, r.start ≤ a → a < r.stop → ¬ Open ms a) :
    Compressed ms keep targets (marked ms.length rs) := by
  have hbound : ∀ r ∈ rs, r.start < r.stop ∧ r.stop ≤ ms.length := fun r hr =>
    ⟨(hfit r hr).1.nonempty, (hfit r hr).1.bound.trans (Nat.sub_le _ _)⟩
  have hmem : ∀ i, i ∈ kept (marked ms.length rs) ↔
      i < ms.length ∧ ¬ ∃ r ∈ rs, r.start ≤ i ∧ i < r.stop := fun i =>
    mem_kept_marked hbound hordered
  refine ⟨?_, fun i hi hgone => ?_, fun i hi hrecent => ?_, fun a j hanswers => ?_, fun a ha => ?_⟩
  · rw [kept_marked hbound (hordered.imp fun h => .inl h)]
    exact pairwise_lt_range.filter _
  · rw [hmem, not_and_not_right] at hgone
    obtain ⟨r, hr, hstart, hstop⟩ := hgone hi
    exact (hfit r hr).1.inside i hstart hstop
  · rw [hmem]
    refine ⟨hi, ?_⟩
    rintro ⟨r, hr, -, hstop⟩
    have := (hfit r hr).1.bound
    omega
  · have hside : ∀ r ∈ rs, (r.start ≤ a ∧ a < r.stop) ↔ (r.start ≤ j ∧ j < r.stop) := by
      intro r hr
      obtain ⟨t, ht, hstart⟩ := (hfit r hr).1.first
      obtain ⟨u, hu, hstop⟩ := (hfit r hr).1.last
      have h1 := hanswers.lt_iff (huncut t ht).first
      have h2 := hanswers.lt_iff (huncut u hu).last
      rw [hstart, hstop]
      omega
    have hj := hanswers.lt_length
    have ha : a < ms.length := hanswers.1.trans hj
    rw [hmem, hmem]
    exact and_congr (iff_of_true ha hj)
      (not_congr (exists_congr fun r => and_congr_right (hside r)))
  · obtain ⟨m, hm, -⟩ := id ha
    rw [hmem]
    refine ⟨(List.getElem?_eq_some_iff.mp hm).1, ?_⟩
    rintro ⟨r, hr, hstart, hstop⟩
    exact (hfit r hr).2 a hstart hstop ha

theorem adjoining_of_covers {first : Target} (h : Blocks limit (first :: rest))
    (hcovers : ∀ i, first.start ≤ i → i < (rest.getLastD first).stop →
      ∃ t ∈ first :: rest, t.start ≤ i ∧ i < t.stop) : Adjoining (first :: rest) := by
  induction rest generalizing first with
  | nil => exact List.IsChain.singleton _
  | cons second rest ih =>
    obtain ⟨hfirst, hordered⟩ := pairwise_cons.mp h.ordered
    have hle := hfirst second (.head _)
    have hblocks : Blocks limit (second :: rest) :=
      ⟨hordered, fun t ht => h.within t (.tail _ ht)⟩
    have hnonempty := (h.within first (.head _)).nonempty
    have hsecond := (ends_of_mem hblocks (.head _)).2
    have hlast : (second :: rest).getLastD first = rest.getLastD second := getLastD_cons ..
    rw [hlast] at hcovers
    have hnext := (hblocks.within second (.head _)).nonempty
    refine isChain_cons_cons.mpr ⟨?_, ih hblocks fun i hi hi' => ?_⟩
    · by_contra hne
      obtain ⟨t, ht, hstart, hstop⟩ := hcovers first.stop (by omega) (by omega)
      rcases mem_cons.mp ht with rfl | ht
      · omega
      · rcases mem_cons.mp ht with rfl | ht
        · omega
        · have := (pairwise_cons.mp hordered).1 t ht
          omega
    · obtain ⟨t, ht, hstart, hstop⟩ := hcovers i (by omega) hi'
      rcases mem_cons.mp ht with rfl | ht
      · omega
      · exact ⟨t, ht, hstart, hstop⟩

theorem spares_of_compressed {keep : Nat} (h : Blocks (ms.length - keep) targets)
    (hsound : Compressed ms keep targets (phaseMarks c ms targets answer)) :
    Spares c ms targets answer := by
  constructor
  · intro t ht hnamed a ha ha' hopen
    have hrs : c.replacements targets answer = c.jsonReplacements targets answer := by
      rw [Compressor.replacements, if_neg]
      exact fun hnil => jsonReplacements_eq_nil_iff.mp hnil.1 ⟨t, ht, hnamed⟩
    obtain ⟨r, hr, hstart, hstop⟩ := mem_jsonReplacements_of_named ht hnamed
    have hkept := hsound.opened a hopen
    rw [phaseMarks, hrs, mem_kept_marked ?_ (jsonReplacements_ordered h)] at hkept
    · exact hkept.2 ⟨r, hr, hstart ▸ ha, hstop ▸ ha'⟩
    · intro r hr
      obtain ⟨t, ht, hstart, hstop, -⟩ := mem_jsonReplacements hr
      have hfit := fitting_of_target h ht hstart hstop
      exact ⟨hfit.nonempty, hfit.bound.trans (Nat.sub_le _ _)⟩
  · intro hnone hfits
    cases targets with
    | nil => exact ⟨List.IsChain.nil, fun _ ht => by cases ht⟩
    | cons first rest =>
      obtain ⟨r, hr⟩ : ∃ r, c.fallbackReplacement (first :: rest) (strip answer.content) =
          some r := by
        have haccepted := hfits.2
        rw [foldl_nextLevel] at haccepted
        rw [Compressor.fallbackReplacement, Compressor.replacement, if_pos haccepted]
        exact ⟨_, rfl⟩
      obtain ⟨-, first', rest', heq, hstart, hstop, -⟩ := fallbackReplacement_eq_some h hr
      obtain ⟨rfl, rfl⟩ := List.cons.inj heq
      have hlast := h.within _ (mem_getLastD first rest)
      have hends : ∀ t ∈ first :: rest, first.start ≤ t.start ∧
          t.stop ≤ (rest.getLastD first).stop := fun t ht => ends_of_mem h ht
      have hrange := (hends first (.head _)).2
      have hnonempty := (h.within first (.head _)).nonempty
      have hrs : c.replacements (first :: rest) answer = [r] := by
        rw [Compressor.replacements, if_pos ⟨jsonReplacements_eq_nil_iff.mpr hnone, hfits.1⟩, hr]
        rfl
      have hmem : ∀ i, i ∈ kept (phaseMarks c ms (first :: rest) answer) ↔
          i < ms.length ∧ ¬ ∃ r' ∈ [r], r'.start ≤ i ∧ i < r'.stop := by
        intro i
        rw [phaseMarks, hrs]
        refine mem_kept_marked (fun r' hr' => ?_) (pairwise_singleton _ _)
        obtain rfl := mem_singleton.mp hr'
        have := hlast.bound
        omega
      refine ⟨adjoining_of_covers h fun i hi hi' => ?_, fun t ht a ha ha' hopen => ?_⟩
      · refine hsound.targeted i (by have := hlast.bound; omega) fun hin => ?_
        exact ((hmem i).mp hin).2 ⟨r, mem_singleton_self r, by omega, by omega⟩
      · obtain ⟨h1, h2⟩ := hends t ht
        exact ((hmem a).mp (hsound.opened a hopen)).2
          ⟨r, mem_singleton_self r, by omega, by omega⟩

theorem applyPhase_eq_some {updated : List Msg}
    (h : c.applyPhase ms targets (some answer) = some updated) :
    updated = applyReplacements ms (c.replacements targets answer) := by
  rw [Compressor.applyPhase, Option.bind_some] at h
  dsimp only at h
  split at h
  · cases h
  · exact (Option.some.inj h).symm

theorem read_phaseMarks {updated : List Msg}
    (h : c.applyPhase ms targets (some answer) = some updated) :
    (phaseMarks c ms targets answer).map (readMark ms) = updated.map some := by
  rw [phaseMarks, read_marked, applyPhase_eq_some h]

theorem mem_slice {start stop : Nat} {m : Msg} (h : m ∈ slice ms start stop) :
    ∃ k, start ≤ k ∧ k < stop ∧ ms[k]? = some m := by
  obtain ⟨i, hi⟩ := mem_iff_getElem?.mp h
  rw [slice, List.getElem?_drop, List.getElem?_take] at hi
  split at hi
  · next hlt => exact ⟨start + i, Nat.le_add_right _ _, hlt, hi⟩
  · cases hi

theorem reinjected_of_still {ts : List Target} (h : ∀ t ∈ ts, t.Still ms) :
    c.reinjected (ts.flatMap Target.messages) = [] := by
  rw [Compressor.reinjected, if_neg]
  rw [any_eq_true]
  rintro ⟨m, hm, hcalls⟩
  obtain ⟨t, ht, hm⟩ := mem_flatMap.mp hm
  rw [(h t ht).messages] at hm
  obtain ⟨k, hstart, hstop, hk⟩ := mem_slice hm
  obtain ⟨m', hm', -, hnone⟩ := (h t ht).quiet k hstart hstop
  rw [hk] at hm'
  rw [Option.some.inj hm', hnone] at hcalls
  cases hcalls

theorem length_foldl_replaceRange {rs : List (Replacement Msg)}
    (hone : ∀ r ∈ rs, r.messages.length = 1 ∧ r.start + 2 ≤ r.stop)
    (hdesc : rs.Pairwise fun a b => b.stop ≤ a.start) {xs : List Msg}
    (hbound : ∀ r ∈ rs, r.stop ≤ xs.length) :
    (rs.foldl replaceRange xs).length + rs.length ≤ xs.length := by
  induction rs generalizing xs with
  | nil => exact Nat.le_refl _
  | cons r rs ih =>
    obtain ⟨hlater, hdesc⟩ := pairwise_cons.mp hdesc
    obtain ⟨hlen, htwo⟩ := hone r (.head _)
    have hstop := hbound r (.head _)
    have hlength : (replaceRange xs r).length = r.start + 1 + (xs.length - r.stop) := by
      rw [replaceRange, length_append, length_append, length_take,
        length_drop, hlen]
      omega
    have hrest : (rs.foldl replaceRange (replaceRange xs r)).length + rs.length ≤
        (replaceRange xs r).length :=
      ih (fun r' hr' => hone r' (.tail _ hr')) hdesc fun r' hr' => by
        have := hlater r' hr'
        omega
    rw [foldl_cons, length_cons]
    omega

theorem length_lt_of_merge {updated : List Msg} (hlimit : limit ≤ ms.length)
    (h : c.applyPhase ms (c.mergeTargets ms limit) (some answer) = some updated) :
    updated.length < ms.length := by
  obtain ⟨hblocks, hmerged⟩ := mergeTargets_spec ms limit c
  have hstill : ∀ t ∈ c.mergeTargets ms limit, t.Still ms := fun t ht => (hmerged t ht).1
  have hranges : (c.replacements (c.mergeTargets ms limit) answer).Pairwise
      (fun a b => a.stop ≤ b.start) ∧ ∀ r ∈ c.replacements (c.mergeTargets ms limit) answer,
        r.messages.length = 1 ∧ r.start + 2 ≤ r.stop ∧ r.stop ≤ limit := by
    rw [Compressor.replacements]
    split
    · cases hr : c.fallbackReplacement (c.mergeTargets ms limit) (strip answer.content) with
      | none => exact ⟨List.Pairwise.nil, fun _ hmem => by cases hmem⟩
      | some r =>
        refine ⟨pairwise_singleton _ _, fun r' hr' => ?_⟩
        obtain rfl := mem_singleton.mp hr'
        obtain ⟨-, first, rest, htargets, hstart, hstop, memory, hmessages⟩ :=
          fallbackReplacement_eq_some hblocks hr
        rw [reinjected_of_still hstill] at hmessages
        have hfirst : first ∈ c.mergeTargets ms limit := htargets ▸ mem_cons_self
        have hlast : rest.getLastD first ∈ c.mergeTargets ms limit :=
          htargets ▸ mem_getLastD first rest
        have hspan : first.stop ≤ (rest.getLastD first).stop :=
          (ends_of_mem (htargets ▸ hblocks) (.head _)).2
        have htwo := (hmerged first hfirst).2
        have hbound := (hblocks.within _ hlast).bound
        exact ⟨by rw [hmessages]; rfl, by omega, by omega⟩
    · refine ⟨jsonReplacements_ordered hblocks, fun r hr => ?_⟩
      obtain ⟨t, ht, hstart, hstop, -, memory, hmessages⟩ := mem_jsonReplacements hr
      have hnone : c.reinjected ([t].flatMap Target.messages) = [] :=
        reinjected_of_still fun u hu => mem_singleton.mp hu ▸ hstill t ht
      rw [flatMap_singleton] at hnone
      rw [hnone] at hmessages
      have htwo := (hmerged t ht).2
      have hbound := (hblocks.within t ht).bound
      exact ⟨by rw [hmessages]; rfl, by omega, by omega⟩
  obtain ⟨hordered, hall⟩ := hranges
  have hne : c.replacements (c.mergeTargets ms limit) answer ≠ [] := by
    intro hnil
    rw [Compressor.applyPhase, Option.bind_some, hnil] at h
    cases h
  rw [applyPhase_eq_some h, applyReplacements]
  have hperm := perm_insertionSort (fun a b : Replacement Msg => b.start ≤ a.start)
    (c.replacements (c.mergeTargets ms limit) answer)
  have hapart := (hperm.pairwise_iff
    (R := fun a b => a.stop ≤ b.start ∨ b.stop ≤ a.start) fun {_ _} h => h.symm).mpr
    (hordered.imp fun h => .inl h)
  have hsorted := pairwise_insertionSort (fun a b : Replacement Msg => b.start ≤ a.start)
    (c.replacements (c.mergeTargets ms limit) answer)
  have hshorter := length_foldl_replaceRange
    (fun r hr => ⟨(hall r (hperm.mem_iff.mp hr)).1, (hall r (hperm.mem_iff.mp hr)).2.1⟩)
    ((hsorted.and hapart).imp_of_mem fun {a b} ha _ hab => by
      have := (hall a (hperm.mem_iff.mp ha)).2.1
      omega)
    fun r hr => (hall r (hperm.mem_iff.mp hr)).2.2.trans hlimit
  have hpos : 0 < (c.replacements (c.mergeTargets ms limit) answer).length :=
    length_pos_of_ne_nil hne
  rw [hperm.length_eq] at hshorter
  omega

theorem mergeLoop_ends (c : Compressor) (underBudget : List Msg → Bool) (keep : Nat)
    (answers : Nat → Option Answer) {fuel : Nat} (call : Nat) {working : List Msg}
    (hfuel : working.length < fuel) :
    (c.mergeLoop underBudget keep answers fuel call working).isSome := by
  induction fuel generalizing call working with
  | zero => exact absurd hfuel (Nat.not_lt_zero _)
  | succ fuel ih =>
    rw [Compressor.mergeLoop]
    split
    · rfl
    · split
      · rfl
      · next targets _ htargets =>
        split
        · rfl
        · next updated hupdated =>
          split
          · rfl
          · refine ih _ ?_
            cases hanswer : answers call with
            | none =>
              rw [hanswer] at hupdated
              cases hupdated
            | some answer =>
              rw [hanswer] at hupdated
              have := length_lt_of_merge (Nat.sub_le _ _) hupdated
              omega

/-- In a history whose results name their calls and follow them, a phase takes away messages of its
targets alone, splits no exchange and takes away no open call if and only if its answer spares the
rest; and merging ends in every case. -/
theorem compression_sound_iff (c : Compressor) (ms : List Msg) (hx : Exchanges ms)
    (hids : ∀ m ∈ ms, m.answered ≠ some []) (keep : Nat) (targets : List Target)
    (htargets : PhaseTargets c ms (ms.length - keep) targets) (answer : Answer) :
    (∀ updated, c.applyPhase ms targets (some answer) = some updated →
      (phaseMarks c ms targets answer).map (readMark ms) = updated.map some) ∧
      (Compressed ms keep targets (phaseMarks c ms targets answer) ↔
        Spares c ms targets answer) ∧
        ∀ underBudget answers working, ∃ fuel,
          (c.mergeLoop underBudget keep answers fuel 0 working).isSome := by
  obtain ⟨hblocks, huncut⟩ := phaseTargets_spec hx hids htargets
  refine ⟨fun _ h => read_phaseMarks h, ⟨spares_of_compressed hblocks, fun hspares => ?_⟩,
    fun underBudget answers working => ⟨working.length + 1,
      mergeLoop_ends c underBudget keep answers 0 (Nat.lt_succ_self _)⟩⟩
  obtain ⟨hordered, hfit⟩ := replacements_fit hblocks hspares
  exact compressed_of_fitting huncut hordered hfit

def counting : Compressor := ⟨['M'], fun _ => none, List.length, 9⟩

def oneRound : List Msg := [⟨.user, ['q'], 0⟩, ⟨.assistant [], ['a'], 0⟩]

def memoryBetween : List Msg :=
  [⟨.user, ['q'], 0⟩, ⟨.assistant [], ['a'], 0⟩, ⟨.user, ['M'], 1⟩, ⟨.user, ['q'], 0⟩,
    ⟨.assistant [], ['b'], 0⟩]

def halfAnswered : List Msg :=
  [⟨.user, ['q'], 0⟩, ⟨.assistant [⟨['1'], ['f'], []⟩, ⟨['2'], ['f'], []⟩], [], 0⟩,
    ⟨.tool ['1'], ['r'], 0⟩]

theorem exchanges_of_plain (h : ∀ m ∈ ms, m.answered = none) : Exchanges ms :=
  fun _ n hn hne => absurd (h n (mem_of_getElem? hn)) hne

theorem round_compressed : Compressed oneRound 0 (counting.rawTargets oneRound 2 2 1 0)
    (phaseMarks counting oneRound (counting.rawTargets oneRound 2 2 1 0) ⟨none, ['s']⟩) := by
  have hplain : ∀ m ∈ oneRound, m.answered = none ∧ m.toolCalls = [] := by decide
  have hsettled : ∀ t, Settled oneRound t := by
    intro t a _ _ ha
    obtain ⟨m, hm, call, hcall, -⟩ := ha
    rw [(hplain m (mem_of_getElem? hm)).2] at hcall
    cases hcall
  refine (compression_sound_iff counting oneRound
    (exchanges_of_plain fun m hm => (hplain m hm).1) (fun m hm => ?_) 0 _ (.inl rfl)
    ⟨none, ['s']⟩).2.1.mpr ⟨fun t _ _ => hsettled t, fun _ _ =>
      ⟨List.IsChain.singleton _, fun t _ => hsettled t⟩⟩
  rw [(hplain m hm).1]
  exact fun h => by cases h

theorem exchanges_halfAnswered : Exchanges halfAnswered := by
  intro j n hn hne
  match j with
  | 0 => exact absurd (Option.some.inj hn ▸ rfl) hne
  | 1 => exact absurd (Option.some.inj hn ▸ rfl) hne
  | 2 =>
    cases hn
    exact ⟨1, Nat.lt_succ_self 1, ⟨_, _, rfl, rfl, _, .head _, rfl⟩,
      fun k hk hk' => absurd hk' (by omega)⟩
  | _ + 3 => cases hn

/-- One text for two rounds takes away the memory block between them, and a call that is not
answered is taken away behind the result of another call. -/
theorem phase_unsound :
    (Exchanges memoryBetween ∧ ¬ Compressed memoryBetween 0
      (counting.rawTargets memoryBetween 5 5 1 0)
      (phaseMarks counting memoryBetween (counting.rawTargets memoryBetween 5 5 1 0)
        ⟨none, ['s']⟩)) ∧
      Exchanges halfAnswered ∧ ¬ Compressed halfAnswered 0
        (counting.rawTargets halfAnswered 3 3 1 0)
        (phaseMarks counting halfAnswered (counting.rawTargets halfAnswered 3 3 1 0)
          ⟨none, ['s']⟩) := by
  refine ⟨⟨exchanges_of_plain (by decide), fun hsound => ?_⟩, exchanges_halfAnswered,
    fun hsound => ?_⟩
  · have hgone : 2 ∉ kept (phaseMarks counting memoryBetween
        (counting.rawTargets memoryBetween 5 5 1 0) ⟨none, ['s']⟩) := by decide
    obtain ⟨t, ht, hstart, hstop⟩ := hsound.targeted 2 (by decide) hgone
    have hoff : ∀ t ∈ counting.rawTargets memoryBetween 5 5 1 0, 2 < t.start ∨ t.stop ≤ 2 := by
      decide
    rcases hoff t ht with h | h <;> omega
  · have hgone : 1 ∉ kept (phaseMarks counting halfAnswered
        (counting.rawTargets halfAnswered 3 3 1 0) ⟨none, ['s']⟩) := by decide
    refine hgone (hsound.opened 1 ⟨_, rfl, ⟨['2'], ['f'], []⟩,
      mem_cons_of_mem _ (.head _), fun j n _ hn => ?_⟩)
    have hall : ∀ n ∈ halfAnswered, n.answered ≠ some ['2'] := by decide
    exact hall n (mem_of_getElem? hn)

end JiuwenSpec.Rounds

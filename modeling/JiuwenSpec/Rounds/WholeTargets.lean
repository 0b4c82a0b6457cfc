import JiuwenSpec.Rounds.Compressor

/-!
# Targets do not cut exchanges

In a history in which each result of a tool follows its call, no target of a phase begins or ends
between a call and one of its results: a block that is cut there is pulled back to before the call.
Source: `processor/compressor/round_level_compressor.py`.
-/

namespace JiuwenSpec.Rounds

open Base List

/-- The message at `j` answers a call of the one at `a`, with only tool messages in between. -/
def Answers (ms : List Msg) (a j : Nat) : Prop :=
  a < j ∧ (∃ m n, ms[a]? = some m ∧ ms[j]? = some n ∧ ∃ call ∈ m.toolCalls,
    n.answered = some call.id) ∧
    ∀ k, a < k → k < j → ∃ n, ms[k]? = some n ∧ n.answered ≠ none

/-- Each tool message answers a call. -/
def Exchanges (ms : List Msg) : Prop :=
  ∀ j n, ms[j]? = some n → n.answered ≠ none → ∃ a, Answers ms a j

/-- A call of the message at `a` has no result. -/
def Open (ms : List Msg) (a : Nat) : Prop :=
  ∃ m, ms[a]? = some m ∧ ∃ call ∈ m.toolCalls, ∀ j n, Answers ms a j → ms[j]? = some n →
    n.answered ≠ some call.id

/-- No tool message stands here. -/
def Boundary (ms : List Msg) (p : Nat) : Prop := ∀ n, ms[p]? = some n → n.answered = none

/-- A message without calls that answers none. -/
def Quiet (ms : List Msg) (p : Nat) : Prop :=
  ∃ m, ms[p]? = some m ∧ m.answered = none ∧ m.toolCalls = []

structure Target.Within (limit : Nat) (t : Target) : Prop where
  nonempty : t.start < t.stop
  bound : t.stop ≤ limit

structure Blocks (limit : Nat) (ts : List Target) : Prop where
  ordered : ts.Pairwise fun t u => t.stop ≤ u.start
  within : ∀ t ∈ ts, t.Within limit

structure Target.Uncut (ms : List Msg) (t : Target) : Prop where
  first : Boundary ms t.start
  last : Boundary ms t.stop

variable {ms : List Msg} {limit : Nat}

theorem Msg.answered_of_toolCalls {m : Msg} (h : m.toolCalls ≠ []) : m.answered = none := by
  obtain ⟨kind, content, level⟩ := m
  cases kind with
  | assistant _ => rfl
  | _ => exact absurd rfl h

theorem Msg.quiet_of_completes {m : Msg} (h : m.completes = true) :
    m.answered = none ∧ m.toolCalls = [] := by
  have hkind : m.kind = .assistant [] := of_decide_eq_true h
  rw [Msg.answered, Msg.toolCalls, hkind]
  exact ⟨rfl, rfl⟩

theorem Msg.quiet_of_isBlock {c : Compressor} {m : Msg} (h : c.isBlock m = true) :
    m.answered = none ∧ m.toolCalls = [] := by
  have hkind : m.kind = .user := of_decide_eq_true (Bool.and_eq_true_iff.mp h).1
  rw [Msg.answered, Msg.toolCalls, hkind]
  exact ⟨rfl, rfl⟩

theorem boundary_succ (hx : Exchanges ms) {p : Nat} (hp : Quiet ms p) : Boundary ms (p + 1) := by
  obtain ⟨m, hm, hanswered, hcalls⟩ := hp
  intro n hn
  by_contra hne
  obtain ⟨a, ha, ⟨m', _, hm', -, call, hcall, -⟩, hbetween⟩ := hx (p + 1) n hn hne
  rcases Nat.lt_succ_iff_lt_or_eq.mp ha with hlt | rfl
  · obtain ⟨m', hm', htool⟩ := hbetween p hlt (Nat.lt_succ_self p)
    rw [hm] at hm'
    exact htool (Option.some.inj hm' ▸ hanswered)
  · rw [hm] at hm'
    rw [← Option.some.inj hm', hcalls] at hcall
    cases hcall

theorem Quiet.boundary {p : Nat} (hp : Quiet ms p) : Boundary ms p := by
  obtain ⟨m, hm, hanswered, -⟩ := hp
  intro n hn
  rw [hm] at hn
  exact Option.some.inj hn ▸ hanswered

theorem Answers.lt_iff {a j p : Nat} (h : Answers ms a j) (hp : Boundary ms p) :
    a < p ↔ j < p := by
  obtain ⟨haj, ⟨_, n, -, hn, call, -, hcall⟩, hbetween⟩ := h
  refine ⟨fun hap => ?_, fun hjp => haj.trans hjp⟩
  by_contra hpj
  rcases (Nat.not_lt.mp hpj).lt_or_eq with hlt | rfl
  · obtain ⟨n, hn, htool⟩ := hbetween p hap hlt
    exact htool (hp n hn)
  · have hnone := hp n hn
    rw [hcall] at hnone
    cases hnone

theorem blockEnd_spec (left last : Nat) (hlast : Quiet ms last) :
    last ≤ Compressor.blockEnd ms left last ∧ Compressor.blockEnd ms left last ≤ last + left ∧
      ∀ k, last ≤ k → k ≤ Compressor.blockEnd ms left last → Quiet ms k := by
  induction left generalizing last with
  | zero =>
    refine ⟨Nat.le_refl _, Nat.le_refl _, fun k hk hk' => ?_⟩
    rwa [Nat.le_antisymm hk' hk]
  | succ left ih =>
    rw [Compressor.blockEnd]
    split
    · next hack =>
      obtain ⟨m, hm, hack⟩ := (Option.any_eq_true ..).mp hack
      have hquiet := Msg.quiet_of_completes (Bool.and_eq_true_iff.mp hack).1
      obtain ⟨hle, hbound, hall⟩ := ih (last + 1) ⟨m, hm, hquiet⟩
      refine ⟨by omega, by omega, fun k hk hk' => ?_⟩
      rcases hk.eq_or_lt with rfl | hlt
      · exact hlast
      · exact hall k hlt hk'
    · refine ⟨Nat.le_refl _, Nat.le_add_right _ _, fun k hk hk' => ?_⟩
      rwa [Nat.le_antisymm hk' hk]

theorem l0Stop_bounds (c : Compressor) (left i : Nat) :
    i ≤ (c.l0Stop ms left i).1 ∧ (c.l0Stop ms left i).1 ≤ i + left := by
  induction left generalizing i with
  | zero => exact ⟨Nat.le_refl _, Nat.le_refl _⟩
  | succ left ih =>
    rw [Compressor.l0Stop]
    split
    · exact ⟨Nat.le_refl _, Nat.le_add_right _ _⟩
    · split
      · exact ⟨Nat.le_refl _, Nat.le_add_right _ _⟩
      · split
        · dsimp only
          omega
        · have := ih (i + 1)
          omega

theorem l0Stop_gt {c : Compressor} {left i : Nat} {m : Msg} (hm : ms[i]? = some m)
    (hblock : c.isBlock m = false) : i < (c.l0Stop ms (left + 1) i).1 := by
  rw [Compressor.l0Stop, hm]
  dsimp only
  rw [if_neg (by simp [hblock])]
  split
  · exact Nat.lt_succ_self i
  · exact Nat.lt_of_succ_le (l0Stop_bounds c left (i + 1)).1

theorem protectStop_spec (hx : Exchanges ms) (hids : ∀ m ∈ ms, m.answered ≠ some [])
    {start stop : Nat} (hlt : start < stop) (hstart : Boundary ms start) :
    Boundary ms (protectStop ms start stop) ∧ protectStop ms start stop ≤ stop := by
  rw [protectStop]
  split
  · next i rest hcut =>
    have hi : i ∈ cutCalls ms start stop := hcut ▸ mem_cons_self
    obtain ⟨hrange, hcall⟩ := mem_filter.mp hi
    obtain ⟨m, hm, hcall⟩ := (Option.any_eq_true ..).mp hcall
    refine ⟨fun n hn => ?_, by have := mem_range'_1.mp hrange; omega⟩
    rw [hm] at hn
    rw [← Option.some.inj hn]
    refine Msg.answered_of_toolCalls fun hnone => ?_
    rw [hnone] at hcall
    cases hcall
  · next hcut =>
    split
    · next hlast =>
      obtain ⟨m, hm, hcalls⟩ := (Option.any_eq_true ..).mp hlast
      refine ⟨fun n hn => ?_, Nat.sub_le _ _⟩
      rw [hm] at hn
      rw [← Option.some.inj hn]
      refine Msg.answered_of_toolCalls fun hnone => ?_
      rw [hnone] at hcalls
      cases hcalls
    · refine ⟨fun n hn => ?_, Nat.le_refl _⟩
      by_contra hne
      obtain ⟨a, hanswers⟩ := hx stop n hn hne
      obtain ⟨m, n', hm, hn', call, hcall, hid⟩ := hanswers.2.1
      cases hn.symm.trans hn'
      have hsa : start ≤ a := by
        by_contra has
        exact absurd ((hanswers.lt_iff hstart).mp (Nat.not_le.mp has)) (by omega)
      have htail : call.id ∈ tailToolIds ms stop := by
        refine mem_filter.mpr ⟨mem_filterMap.mpr ⟨n, ?_, hid⟩, ?_⟩
        · refine mem_of_getElem? (i := 0) ?_
          rwa [List.getElem?_drop]
        · refine decide_eq_true fun hempty => ?_
          exact hids n (mem_of_getElem? hn) (hempty ▸ hid)
      have hmem : a ∈ cutCalls ms start stop := by
        refine mem_filter.mpr ⟨mem_range'_1.mpr ⟨hsa, ?_⟩, ?_⟩
        · have := hanswers.1
          omega
        · rw [hm, Option.any_some, any_eq_true]
          exact ⟨call, hcall, contains_iff_mem.mpr htail⟩
      rw [hcut] at hmem
      cases hmem

theorem rawTargets_spec (hx : Exchanges ms) (hids : ∀ m ∈ ms, m.answered ≠ some [])
    (c : Compressor) (fuel blockNo cursor : Nat) (hcursor : Boundary ms cursor) :
    Blocks limit (c.rawTargets ms limit fuel blockNo cursor) ∧
      ∀ t ∈ c.rawTargets ms limit fuel blockNo cursor, cursor ≤ t.start ∧ t.Uncut ms := by
  induction fuel generalizing blockNo cursor with
  | zero => exact ⟨⟨List.Pairwise.nil, fun _ h => by cases h⟩, fun _ h => by cases h⟩
  | succ fuel ih =>
    rw [Compressor.rawTargets]
    dsimp only
    split_ifs with hlimit hblock hsame hunfinished
    · exact ⟨⟨List.Pairwise.nil, fun _ h => by cases h⟩, fun _ h => by cases h⟩
    · obtain ⟨m, hm, hblock⟩ := (Option.any_eq_true ..).mp hblock
      obtain ⟨hle, -, hquiet⟩ := blockEnd_spec (limit - 1 - cursor) cursor
        ⟨m, hm, Msg.quiet_of_isBlock hblock⟩
      obtain ⟨hblocks, hstarts⟩ := ih blockNo _ (boundary_succ hx (hquiet _ hle (Nat.le_refl _)))
      exact ⟨hblocks, fun t ht => ⟨by have := (hstarts t ht).1; omega, (hstarts t ht).2⟩⟩
    · have hnone : ms[cursor]? = none := by
        cases hm : ms[cursor]? with
        | none => rfl
        | some m =>
          rw [hm, Option.any_some] at hblock
          have hgt := @l0Stop_gt ms c (limit - cursor - 1) cursor m hm
            (Bool.eq_false_iff.mpr hblock)
          rw [Nat.sub_add_cancel (by omega), hsame] at hgt
          exact absurd hgt (Nat.lt_irrefl _)
      have hnext : Boundary ms (cursor + 1) := by
        intro n hn
        rw [List.getElem?_eq_none] at hn
        · cases hn
        · exact (List.getElem?_eq_none_iff.mp hnone).trans (Nat.le_succ _)
      obtain ⟨hblocks, hstarts⟩ := ih blockNo (cursor + 1) hnext
      exact ⟨hblocks, fun t ht => ⟨by have := (hstarts t ht).1; omega, (hstarts t ht).2⟩⟩
    · exact ⟨⟨List.Pairwise.nil, fun _ h => by cases h⟩, fun _ h => by cases h⟩
    · obtain ⟨hle, hbound⟩ := @l0Stop_bounds ms c (limit - cursor) cursor
      have hround : cursor < (c.l0Stop ms (limit - cursor) cursor).1 := by omega
      obtain ⟨hstop, hback⟩ := protectStop_spec hx hids hround hcursor
      obtain ⟨⟨hordered, hwithin⟩, hstarts⟩ := ih (blockNo + 1) _ hstop
      have hgt : cursor < protectStop ms cursor (c.l0Stop ms (limit - cursor) cursor).1 := by
        by_contra hge
        exact hunfinished ⟨by omega, by omega⟩
      refine ⟨⟨pairwise_cons.mpr ⟨fun t ht => (hstarts t ht).1, hordered⟩, fun t ht => ?_⟩,
        fun t ht => ?_⟩
      · rcases mem_cons.mp ht with rfl | ht
        · exact ⟨hgt, by dsimp only; omega⟩
        · exact hwithin t ht
      · rcases mem_cons.mp ht with rfl | ht
        · exact ⟨Nat.le_refl _, hcursor, hstop⟩
        · obtain ⟨hstart, huncut⟩ := hstarts t ht
          exact ⟨by omega, huncut⟩

structure Target.Still (ms : List Msg) (t : Target) : Prop where
  quiet : ∀ k, t.start ≤ k → k < t.stop → Quiet ms k
  messages : t.messages = slice ms t.start t.stop

theorem Target.Still.uncut {t : Target} (ht : t.Still ms) (hx : Exchanges ms)
    (hwithin : t.Within limit) : t.Uncut ms where
  first := (ht.quiet t.start (Nat.le_refl _) hwithin.nonempty).boundary
  last := by
    have hpos := hwithin.nonempty
    have hlast := boundary_succ hx (ht.quiet (t.stop - 1) (by omega) (by omega))
    rwa [Nat.sub_add_cancel (by omega)] at hlast

theorem memoryTargets_spec (c : Compressor) (fuel blockNo i : Nat) :
    Blocks limit (c.memoryTargets ms limit fuel blockNo i) ∧
      ∀ t ∈ c.memoryTargets ms limit fuel blockNo i, i ≤ t.start ∧ t.Still ms := by
  induction fuel generalizing blockNo i with
  | zero => exact ⟨⟨List.Pairwise.nil, fun _ h => by cases h⟩, fun _ h => by cases h⟩
  | succ fuel ih =>
    rw [Compressor.memoryTargets]
    split_ifs with hlimit hblock
    · exact ⟨⟨List.Pairwise.nil, fun _ h => by cases h⟩, fun _ h => by cases h⟩
    · obtain ⟨m, hm, hblock⟩ := (Option.any_eq_true ..).mp hblock
      obtain ⟨hle, hbound, hquiet⟩ := blockEnd_spec (limit - 1 - i) i
        ⟨m, hm, Msg.quiet_of_isBlock hblock⟩
      obtain ⟨⟨hordered, hwithin⟩, hstarts⟩ :=
        ih (blockNo + 1) (Compressor.blockEnd ms (limit - 1 - i) i + 1)
      refine ⟨⟨pairwise_cons.mpr ⟨fun t ht => (hstarts t ht).1, hordered⟩, fun t ht => ?_⟩,
        fun t ht => ?_⟩
      · rcases mem_cons.mp ht with rfl | ht
        · exact ⟨Nat.lt_succ_of_le hle, by dsimp only; omega⟩
        · exact hwithin t ht
      · rcases mem_cons.mp ht with rfl | ht
        · exact ⟨Nat.le_refl _, fun k hk hk' => hquiet k hk (Nat.le_of_lt_succ hk'), rfl⟩
        · obtain ⟨hstart, hstill⟩ := hstarts t ht
          exact ⟨by omega, hstill⟩
    · obtain ⟨hblocks, hstarts⟩ := ih blockNo (i + 1)
      exact ⟨hblocks, fun t ht => ⟨by have := (hstarts t ht).1; omega, (hstarts t ht).2⟩⟩

theorem adjacentGroups_spec (ts : List Target) : (adjacentGroups ts).flatten = ts ∧
    ∀ g ∈ adjacentGroups ts, g ≠ [] ∧ g.IsChain fun t u => u.start = t.stop := by
  induction ts with
  | nil => exact ⟨rfl, fun _ h => by cases h⟩
  | cons t ts ih =>
    obtain ⟨hflat, hgroups⟩ := ih
    rw [adjacentGroups]
    split
    · next next group groups heq =>
      rw [heq] at hflat hgroups
      obtain ⟨-, hchain⟩ := hgroups _ (.head _)
      split
      · next hadjacent =>
        refine ⟨by rw [← hflat]; rfl, fun g hg => ?_⟩
        rcases mem_cons.mp hg with rfl | hg
        · exact ⟨cons_ne_nil _ _, List.IsChain.cons_cons hadjacent hchain⟩
        · exact hgroups g (.tail _ hg)
      · refine ⟨by rw [← hflat]; rfl, fun g hg => ?_⟩
        rcases mem_cons.mp hg with rfl | hg
        · exact ⟨cons_ne_nil _ _, List.IsChain.singleton _⟩
        · exact hgroups g hg
    · refine ⟨by rw [flatten_cons, hflat, singleton_append], fun g hg => ?_⟩
      rcases mem_cons.mp hg with rfl | hg
      · exact ⟨cons_ne_nil _ _, List.IsChain.singleton _⟩
      · exact hgroups g hg

theorem mem_getLastD (first : Target) (rest : List Target) :
    rest.getLastD first ∈ first :: rest := by
  cases rest with
  | nil => exact mem_singleton_self first
  | cons second rest =>
    rw [getLastD_eq_getLast?, List.getLast?_eq_some_getLast (cons_ne_nil _ _),
      Option.getD_some]
    exact .tail _ (getLast_mem _)

theorem chain_covers {first : Target} {group : List Target}
    (hchain : (first :: group).IsChain fun t u => u.start = t.stop)
    (hall : ∀ t ∈ first :: group, t.start < t.stop) :
    first.start + group.length < (group.getLastD first).stop ∧
      ∀ k, first.start ≤ k → k < (group.getLastD first).stop →
        ∃ t ∈ first :: group, t.start ≤ k ∧ k < t.stop := by
  induction group generalizing first with
  | nil =>
    refine ⟨hall first (.head _), fun k hk hk' => ⟨first, .head _, hk, hk'⟩⟩
  | cons second group ih =>
    have hnext : second.start = first.stop := (isChain_cons_cons.mp hchain).1
    obtain ⟨hlen, hcovers⟩ := ih (isChain_cons_cons.mp hchain).2
      fun t ht => hall t (.tail _ ht)
    have hfirst := hall first (.head _)
    have hlast : (second :: group).getLastD first = group.getLastD second :=
      getLastD_cons ..
    rw [hlast, length_cons]
    refine ⟨by omega, fun k hk hk' => ?_⟩
    by_cases hlt : k < first.stop
    · exact ⟨first, .head _, hk, hlt⟩
    · obtain ⟨t, ht, htk⟩ := hcovers k (by omega) hk'
      exact ⟨t, .tail _ ht, htk⟩

theorem mergeTarget_spec {first second : Target} {group : List Target}
    (hchain : (first :: second :: group).IsChain fun t u => u.start = t.stop)
    (hall : ∀ t ∈ first :: second :: group, t.Within limit ∧ t.Still ms) (level groupNo : Nat) :
    (mergeTarget ms level groupNo first (second :: group)).Within limit ∧
      (mergeTarget ms level groupNo first (second :: group)).Still ms ∧
        first.start + 2 ≤ (mergeTarget ms level groupNo first (second :: group)).stop := by
  obtain ⟨hlen, hcovers⟩ := chain_covers hchain fun t ht => (hall t ht).1.nonempty
  rw [length_cons] at hlen
  obtain ⟨hlast, -⟩ := hall _ (mem_getLastD first (second :: group))
  refine ⟨⟨?_, hlast.bound⟩, ⟨fun k hk hk' => ?_, rfl⟩, ?_⟩
  · show first.start < ((second :: group).getLastD first).stop
    omega
  · obtain ⟨t, ht, hstart, hstop⟩ := hcovers k hk hk'
    exact (hall t ht).2.quiet k hstart hstop
  · show first.start + 2 ≤ ((second :: group).getLastD first).stop
    omega

theorem mergeGroups_spec {groups : List (List Target)}
    (hchains : ∀ g ∈ groups, g.IsChain fun t u => u.start = t.stop)
    (hordered : groups.flatten.Pairwise fun t u => t.stop ≤ u.start)
    (hall : ∀ t ∈ groups.flatten, t.Within limit ∧ t.Still ms) (level groupNo : Nat) :
    Blocks limit (mergeGroups ms level groupNo groups) ∧
      ∀ t ∈ mergeGroups ms level groupNo groups,
        t.Still ms ∧ t.start + 2 ≤ t.stop ∧ ∃ u ∈ groups.flatten, t.start = u.start := by
  induction groups generalizing groupNo with
  | nil => exact ⟨⟨List.Pairwise.nil, fun _ h => by cases h⟩, fun _ h => by cases h⟩
  | cons g groups ih =>
    rw [flatten_cons, pairwise_append] at hordered
    obtain ⟨-, hrest, hacross⟩ := hordered
    have hall' : ∀ t ∈ groups.flatten, t.Within limit ∧ t.Still ms := fun t ht =>
      hall t (mem_append_right g ht)
    have hchains' := fun g' hg' => hchains g' (mem_cons_of_mem g hg')
    have hskip : ∀ groupNo, Blocks limit (mergeGroups ms level groupNo groups) ∧
        ∀ t ∈ mergeGroups ms level groupNo groups,
          t.Still ms ∧ t.start + 2 ≤ t.stop ∧ ∃ u ∈ (g :: groups).flatten, t.start = u.start := by
      intro groupNo
      obtain ⟨hblocks, hrest⟩ := ih hchains' hrest hall' groupNo
      refine ⟨hblocks, fun t ht => ?_⟩
      obtain ⟨hstill, hlen, u, hu, hstart⟩ := hrest t ht
      exact ⟨hstill, hlen, u, mem_append_right g hu, hstart⟩
    match g with
    | [] => exact hskip groupNo
    | [_] => exact hskip groupNo
    | first :: second :: group =>
      obtain ⟨hwithin, hstill, hlen⟩ := mergeTarget_spec (hchains _ (.head _))
        (fun t ht => hall t (mem_append_left _ ht)) level groupNo
      obtain ⟨⟨hordered', hwithin'⟩, hrest'⟩ := hskip (groupNo + 1)
      obtain ⟨-, hfrom⟩ := ih hchains' hrest hall' (groupNo + 1)
      have hmem := mem_getLastD first (second :: group)
      rw [mergeGroups]
      refine ⟨⟨pairwise_cons.mpr ⟨fun t ht => ?_, hordered'⟩, fun t ht => ?_⟩, fun t ht => ?_⟩
      · obtain ⟨-, -, u, hu, hstart⟩ := hfrom t ht
        rw [hstart]
        exact hacross _ hmem u hu
      · rcases mem_cons.mp ht with rfl | ht
        · exact hwithin
        · exact hwithin' t ht
      · rcases mem_cons.mp ht with rfl | ht
        · exact ⟨hstill, hlen, first, mem_append_left _ (.head _), rfl⟩
        · exact hrest' t ht

theorem length_effectiveLevels (fuel : Nat) (levels : List Nat) :
    (effectiveLevels fuel levels).length = levels.length := by
  induction fuel generalizing levels with
  | zero => rfl
  | succ fuel ih =>
    rw [effectiveLevels]
    split
    · rfl
    · rw [ih, length_map]

theorem mergeTargets_spec (ms : List Msg) (limit : Nat) (c : Compressor) :
    Blocks limit (c.mergeTargets ms limit) ∧
      ∀ t ∈ c.mergeTargets ms limit, t.Still ms ∧ t.start + 2 ≤ t.stop := by
  obtain ⟨⟨hordered, hwithin⟩, hstill⟩ := @memoryTargets_spec ms limit c limit 1 0
  have hempty : Blocks limit [] := ⟨List.Pairwise.nil, fun _ h => by cases h⟩
  unfold Compressor.mergeTargets
  dsimp only
  split
  · exact ⟨hempty, fun _ h => by cases h⟩
  · split
    · exact ⟨hempty, fun _ h => by cases h⟩
    · next level _ =>
      let memory := c.memoryTargets ms limit limit 1 0
      let effective := effectiveLevels (memory.map fun t => max t.currentLevel 1).length
        (memory.map fun t => max t.currentLevel 1)
      have hlength : memory.length ≤ effective.length := by
        rw [length_effectiveLevels, length_map]
      have hsub : List.Sublist
          (((memory.zip effective).filter fun e => e.2 = level).map Prod.fst) memory := by
        have hsub := (filter_sublist (p := fun e : Target × Nat => decide (e.2 = level))
          (l := memory.zip effective)).map Prod.fst
        rwa [map_fst_zip hlength] at hsub
      have hsorted : ((((memory.zip effective).filter fun e => e.2 = level).map Prod.fst).Pairwise
          fun t u => t.start ≤ u.start) := by
        refine (hordered.imp_of_mem fun ht _ hle => ?_).sublist hsub
        have := (hwithin _ ht).nonempty
        omega
      rw [hsorted.insertionSort_eq]
      obtain ⟨hflat, hgroups⟩ := adjacentGroups_spec
        (((memory.zip effective).filter fun e => e.2 = level).map Prod.fst)
      obtain ⟨hblocks, hmerged⟩ := @mergeGroups_spec ms limit _
        (fun g hg => (hgroups g hg).2) (hflat.symm ▸ hordered.sublist hsub)
        (hflat.symm ▸ fun t ht =>
          ⟨hwithin t (hsub.subset ht), (hstill t (hsub.subset ht)).2⟩) level 1
      exact ⟨hblocks, fun t ht => ⟨(hmerged t ht).1, (hmerged t ht).2.1⟩⟩

end JiuwenSpec.Rounds

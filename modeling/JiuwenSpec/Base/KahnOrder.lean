import JiuwenSpec.Base.Digraph

/-!
# Kahn's topological order

The nodes without incoming arrows stand in a sorted queue; taking one off counts down the
arrows that enter its targets, and a target whose count reaches zero is queued. On an acyclic
graph every node is taken once, each source before its targets, however many parallel arrows
there are.
-/

namespace JiuwenSpec.Base.KahnOrder

open Relation List

universe u

variable {α : Type u} [LinearOrder α]

def targets (arrows : List (α × α)) (x : α) : List α :=
  (arrows.filter (fun e => e.1 = x)).map Prod.snd

/-- Count down each target in turn; one that reaches zero is queued. -/
def relax : List α → (α → Int) × List α → (α → Int) × List α
  | [], s => s
  | t :: rest, (indegree, ready) =>
    let lowered := Function.update indegree t (indegree t - 1)
    relax rest (lowered, if lowered t = 0 then ready ++ [t] else ready)

/-- Take nodes off the queue until it is empty; `none` when the turns ran out first. -/
def kahn (arrows : List (α × α)) : Nat → (α → Int) × List α → List α → Option (List α)
  | _, (_, []), order => some order
  | 0, (_, _ :: _), _ => none
  | turns + 1, (indegree, node :: ready), order =>
    let (lowered, queued) :=
      relax ((targets arrows node).insertionSort (· ≤ ·)) (indegree, ready)
    kahn arrows turns (lowered, queued.insertionSort (· ≤ ·)) (order ++ [node])

def indegrees (arrows : List (α × α)) (x : α) : Int := (arrows.filter (fun e => e.2 = x)).length

def order (nodes : List α) (arrows : List (α × α)) : Option (List α) :=
  kahn arrows nodes.length
    (indegrees arrows, (nodes.filter (fun x => indegrees arrows x = 0)).insertionSort (· ≤ ·)) []

/-- The arrows into a node whose source was not taken. -/
def openArrows (arrows : List (α × α)) (taken : List α) (x : α) : Nat :=
  (arrows.filter (fun e => e.2 = x ∧ e.1 ∉ taken)).length

variable {indegree : α → Int}

theorem relax_spec {ts : List α} {ready : List α}
    (hcount : ∀ t, (ts.count t : Int) ≤ indegree t) (hnodup : ready.Nodup)
    (hout : ∀ t ∈ ready, t ∉ ts) :
    (∀ x, (relax ts (indegree, ready)).1 x = indegree x - ts.count x) ∧
      (relax ts (indegree, ready)).2.Nodup ∧
      ∀ x, x ∈ (relax ts (indegree, ready)).2 ↔
        x ∈ ready ∨ (x ∈ ts ∧ indegree x = ts.count x) := by
  induction ts generalizing indegree ready with
  | nil => simp [relax, hnodup]
  | cons t ts ih =>
    have hlow : ∀ x, Function.update indegree t (indegree t - 1) x =
        indegree x - if x = t then 1 else 0 := by
      intro x
      by_cases hx : x = t
      · subst hx
        simp
      · simp [hx]
    have hcons : ∀ x, ((t :: ts).count x : Int) = ts.count x + if x = t then 1 else 0 := by
      intro x
      rw [count_cons]
      by_cases hx : x = t
      · subst hx
        simp
      · simp [hx, Ne.symm hx]
    have hcount' : ∀ x, (ts.count x : Int) ≤
        Function.update indegree t (indegree t - 1) x := by
      intro x
      have := hcount x
      rw [hcons] at this
      rw [hlow]
      omega
    have htready : t ∉ ready := fun h => hout t h (.head _)
    have hnodup' : (if Function.update indegree t (indegree t - 1) t = 0 then ready ++ [t]
        else ready).Nodup := by
      split
      · exact nodup_append.mpr ⟨hnodup, nodup_singleton t, fun a ha b hb hab =>
          htready (mem_singleton.mp hb ▸ hab ▸ ha)⟩
      · exact hnodup
    have hout' : ∀ x ∈ (if Function.update indegree t (indegree t - 1) t = 0 then ready ++ [t]
        else ready), x ∉ ts := by
      intro x hx hmem
      split at hx
      · next hzero =>
        rcases mem_append.mp hx with hr | ht
        · exact hout x hr (.tail _ hmem)
        · -- a target that reaches zero is not a target again
          have hxt := mem_singleton.mp ht
          subst hxt
          have hle := hcount' x
          have hpos : 0 < ts.count x := count_pos_iff.mpr hmem
          omega
      · exact hout x hx (.tail _ hmem)
    obtain ⟨hdeg, hnd, hmem⟩ := ih hcount' hnodup' hout'
    rw [relax]
    refine ⟨fun x => ?_, hnd, fun x => ?_⟩
    · rw [hdeg, hlow, hcons]
      omega
    · rw [hmem, Function.update_self, hlow x, hcons x]
      have hle := hcount' x
      rw [hlow x] at hle
      by_cases hx : x = t
      · subst hx
        simp only [if_true, mem_cons, true_or, true_and] at hle ⊢
        by_cases hts : x ∈ ts
        · have hpos : 0 < ts.count x := count_pos_iff.mpr hts
          have hne : ¬ indegree x - 1 = 0 := by omega
          simp only [hne, if_false, hts, true_and, sub_eq_iff_eq_add]
        · have h0 : ts.count x = 0 := count_eq_zero.mpr hts
          simp only [hts, false_and, or_false, h0, Int.natCast_zero, zero_add, sub_eq_zero]
          split
          · next he => simp [he]
          · next he => simp [he]
      · simp only [hx, if_false, mem_cons, false_or, sub_zero, add_zero]
        split
        · simp [hx]
        · rfl

section Loop

variable {nodes : List α} {arrows : List (α × α)}

/-- The counts are the arrows from nodes not taken, the queue holds the other nodes without
one, and what was taken is in order. -/
structure Inv (nodes : List α) (arrows : List (α × α)) (s : (α → Int) × List α)
    (taken : List α) : Prop where
  counts : ∀ x, s.1 x = openArrows arrows taken x
  queue_nodup : s.2.Nodup
  queue_iff : ∀ x, x ∈ s.2 ↔ x ∈ nodes ∧ x ∉ taken ∧ openArrows arrows taken x = 0
  taken_nodup : taken.Nodup
  taken_sub : ∀ x ∈ taken, x ∈ nodes
  ordered : ∀ e ∈ arrows, e.2 ∈ taken → e.1 ∈ taken ∧ taken.idxOf e.1 < taken.idxOf e.2

private theorem openArrows_snoc (taken : List α) {node : α} (hnew : node ∉ taken) (x : α) :
    openArrows arrows taken x =
      openArrows arrows (taken ++ [node]) x + (targets arrows node).count x := by
  induction arrows with
  | nil => rfl
  | cons e arrows ih =>
    simp only [openArrows, targets, filter_cons] at ih ⊢
    by_cases hx : e.2 = x
    · by_cases hn : e.1 = node
      · have hnt : e.1 ∉ taken := hn ▸ hnew
        simp [hx, hn, hnew]
        simp at ih
        omega
      · by_cases ht : e.1 ∈ taken
        · simp [hx, hn, ht]
          simpa using ih
        · simp [hx, hn, ht]
          simp at ih
          omega
    · by_cases hn : e.1 = node
      · simp [hx, hn]
        simpa using ih
      · simp [hx, hn]
        simpa using ih

variable {taken : List α}

private theorem openArrows_eq_zero_iff {x : α} :
    openArrows arrows taken x = 0 ↔ ∀ e ∈ arrows, e.2 = x → e.1 ∈ taken := by
  rw [openArrows, length_eq_zero_iff, filter_eq_nil_iff]
  refine forall₂_congr fun e _ => ?_
  rw [decide_eq_true_eq, not_and, not_not]

private theorem Inv.ordered_snoc {s : (α → Int) × List α} {node : α}
    (hs : Inv nodes arrows s taken) (hfree : openArrows arrows taken node = 0) :
    ∀ e ∈ arrows, e.2 ∈ taken ++ [node] →
      e.1 ∈ taken ++ [node] ∧ (taken ++ [node]).idxOf e.1 < (taken ++ [node]).idxOf e.2 := by
  intro e he hmem
  by_cases htaken : e.2 ∈ taken
  · obtain ⟨h1, hlt⟩ := hs.ordered e he htaken
    rw [idxOf_append_of_mem h1, idxOf_append_of_mem htaken]
    exact ⟨mem_append_left _ h1, hlt⟩
  · have hen : e.2 = node := by simpa [htaken] using hmem
    have h1 : e.1 ∈ taken := openArrows_eq_zero_iff.mp hfree e he hen
    refine ⟨mem_append_left _ h1, ?_⟩
    rw [idxOf_append_of_mem h1, idxOf_append_of_notMem htaken]
    have := idxOf_lt_length_iff.mpr h1
    omega

private theorem Inv.queue_snoc {node : α} {ready : List α}
    (hs : Inv nodes arrows (indegree, node :: ready) taken) (hnodes : ∀ e ∈ arrows, e.2 ∈ nodes)
    (x : α) :
    (x ∈ ready ∨ (x ∈ targets arrows node ∧
        openArrows arrows taken x = (targets arrows node).count x)) ↔
      x ∈ nodes ∧ x ∉ taken ++ [node] ∧ openArrows arrows (taken ++ [node]) x = 0 := by
  obtain ⟨_, hnew, hfree⟩ := (hs.queue_iff node).mp (.head _)
  have hsplit : openArrows arrows taken x = _ := openArrows_snoc taken hnew x
  rw [mem_append, mem_singleton, not_or]
  constructor
  · rintro (hr | ⟨ht, he⟩)
    · obtain ⟨hx, hxt, hx0⟩ := (hs.queue_iff x).mp (.tail _ hr)
      have hxn : x ≠ node := fun he => (nodup_cons.mp hs.queue_nodup).1 (he ▸ hr)
      exact ⟨hx, ⟨hxt, hxn⟩, by omega⟩
    · obtain ⟨e, he', rfl⟩ := mem_map.mp ht
      have hearrow := (mem_filter.mp he').1
      have hpos := count_pos_iff.mpr ht
      refine ⟨hnodes e hearrow, ⟨fun htaken => ?_, ?_⟩, by omega⟩
      · have := (hs.ordered e hearrow htaken).1
        exact hnew ((of_decide_eq_true (mem_filter.mp he').2) ▸ this)
      · rintro rfl
        omega
  · rintro ⟨hx, ⟨hxt, hxn⟩, he⟩
    by_cases hx0 : openArrows arrows taken x = 0
    · exact Or.inl ((mem_cons.mp ((hs.queue_iff x).mpr ⟨hx, hxt, hx0⟩)).resolve_left hxn)
    · exact Or.inr ⟨count_pos_iff.mp (by omega), by omega⟩

theorem Inv.take {node : α} {ready : List α} (hs : Inv nodes arrows (indegree, node :: ready) taken)
    (hnodes : ∀ e ∈ arrows, e.2 ∈ nodes) :
    Inv nodes arrows
      ((relax ((targets arrows node).insertionSort (· ≤ ·)) (indegree, ready)).1,
        (relax ((targets arrows node).insertionSort (· ≤ ·))
          (indegree, ready)).2.insertionSort (· ≤ ·)) (taken ++ [node]) := by
  obtain ⟨hnode, hnew, hfree⟩ := (hs.queue_iff node).mp (.head _)
  have hcounts : ∀ x, indegree x = openArrows arrows taken x := hs.counts
  have hsorted := perm_insertionSort (· ≤ ·) (targets arrows node)
  have hcount : ∀ t,
      (((targets arrows node).insertionSort (· ≤ ·)).count t : Int) ≤ indegree t := by
    intro t
    rw [hsorted.count_eq, hcounts, openArrows_snoc taken hnew]
    omega
  have hout : ∀ t ∈ ready, t ∉ (targets arrows node).insertionSort (· ≤ ·) := by
    intro t ht hmem
    have hzero := ((hs.queue_iff t).mp (.tail _ ht)).2.2
    have hpos := count_pos_iff.mpr (hsorted.mem_iff.mp hmem)
    rw [openArrows_snoc taken hnew] at hzero
    omega
  obtain ⟨hdeg, hqnd, hqmem⟩ := relax_spec hcount (nodup_cons.mp hs.queue_nodup).2 hout
  refine ⟨fun x => ?_, ?_, fun x => ?_, ?_, ?_, hs.ordered_snoc hfree⟩
  · have hsplit : openArrows arrows taken x = _ := openArrows_snoc taken hnew x
    change (relax _ _).1 x = _
    rw [hdeg, hsorted.count_eq, hcounts]
    omega
  · exact ((perm_insertionSort _ _).nodup_iff).mpr hqnd
  · change x ∈ List.insertionSort _ _ ↔ _
    rw [(perm_insertionSort _ _).mem_iff, hqmem, hsorted.mem_iff, hsorted.count_eq, hcounts,
      ← hs.queue_snoc hnodes, Int.natCast_inj]
  · exact nodup_append.mpr ⟨hs.taken_nodup, nodup_singleton node, fun a ha b hb hab =>
      hnew (mem_singleton.mp hb ▸ hab ▸ ha)⟩
  · intro x hx
    rcases mem_append.mp hx with ht | hn
    · exact hs.taken_sub x ht
    · exact mem_singleton.mp hn ▸ hnode

theorem Inv.taken_all
    (hs : Inv nodes arrows (indegree, []) taken) (hnodes : ∀ e ∈ arrows, e.1 ∈ nodes)
    (hac : Acyclic (fun x y => (x, y) ∈ arrows)) : ∀ x ∈ nodes, x ∈ taken := by
  by_contra hne
  push Not at hne
  obtain ⟨x, hx, hxt⟩ := hne
  have hflip : Acyclic (fun x y => (y, x) ∈ arrows) := by
    intro z hz
    exact hac z (transGen_swap.mp hz)
  -- among the nodes not taken one has no arrow from another of them
  obtain ⟨m, hm, hsource⟩ := hflip.exists_sink
    (S := (nodes.filter (· ∉ taken)).toFinset) ⟨x, by simp [hx, hxt]⟩
  have hm' : m ∈ nodes ∧ m ∉ taken := by simpa using hm
  have hfree : openArrows arrows taken m = 0 := by
    refine openArrows_eq_zero_iff.mpr fun e he hem => ?_
    by_contra het
    exact hsource e.1 (by simp [hnodes e he, het]) (hem ▸ he)
  have := (hs.queue_iff m).mpr ⟨hm'.1, hm'.2, hfree⟩
  cases this

theorem kahn_spec (hnodup : nodes.Nodup) (hends : ∀ e ∈ arrows, e.1 ∈ nodes ∧ e.2 ∈ nodes)
    {turns : Nat} {s : (α → Int) × List α} (hs : Inv nodes arrows s taken)
    (hturns : nodes.length ≤ taken.length + turns) :
    ∃ result, kahn arrows turns s taken = some result ∧
      (∀ e ∈ arrows, e.2 ∈ result → e.1 ∈ result ∧ result.idxOf e.1 < result.idxOf e.2) ∧
      (Acyclic (fun x y => (x, y) ∈ arrows) → result.Perm nodes) := by
  have hdone : ∀ {indegree : α → Int} {taken : List α}, Inv nodes arrows (indegree, []) taken →
      Acyclic (fun x y => (x, y) ∈ arrows) → taken.Perm nodes := by
    intro indegree taken hs hac
    refine (perm_ext_iff_of_nodup hs.taken_nodup hnodup).mpr fun x => ?_
    exact ⟨hs.taken_sub x, hs.taken_all (fun e he => (hends e he).1) hac x⟩
  induction turns generalizing s taken with
  | zero =>
    obtain ⟨indegree, ready⟩ := s
    cases ready with
    | nil => exact ⟨taken, by rw [kahn], hs.ordered, hdone hs⟩
    | cons node ready =>
      -- as many nodes are taken as there are, and the queued one is not among them
      obtain ⟨hnode, hnew, _⟩ := (hs.queue_iff node).mp (.head _)
      have hsub : (node :: taken).Subperm nodes :=
        (nodup_cons.mpr ⟨hnew, hs.taken_nodup⟩).subperm fun x hx => by
          rcases mem_cons.mp hx with rfl | hx
          · exact hnode
          · exact hs.taken_sub x hx
      have := hsub.length_le
      rw [length_cons] at this
      omega
  | succ turns ih =>
    obtain ⟨indegree, ready⟩ := s
    cases ready with
    | nil => exact ⟨taken, by rw [kahn], hs.ordered, hdone hs⟩
    | cons node ready =>
      rw [kahn]
      refine ih (hs.take fun e he => (hends e he).2) ?_
      rw [length_append, length_singleton]
      omega

/-- The order of an acyclic graph lists every node once, each source before its targets. -/
theorem order_spec (hnodup : nodes.Nodup) (hends : ∀ e ∈ arrows, e.1 ∈ nodes ∧ e.2 ∈ nodes)
    (hac : Acyclic (fun x y => (x, y) ∈ arrows)) :
    ∃ result, order nodes arrows = some result ∧ result.Perm nodes ∧
      ∀ e ∈ arrows, result.idxOf e.1 < result.idxOf e.2 := by
  have hopen : ∀ x, indegrees arrows x = openArrows arrows [] x := by
    intro x
    simp [indegrees, openArrows]
  have hinit : Inv nodes arrows (indegrees arrows,
      (nodes.filter (fun x => indegrees arrows x = 0)).insertionSort (· ≤ ·)) [] := by
    refine ⟨hopen, ?_, fun x => ?_, nodup_nil, by simp, by simp⟩
    · exact ((perm_insertionSort _ _).nodup_iff).mpr (hnodup.filter _)
    · change x ∈ List.insertionSort _ _ ↔ _
      rw [(perm_insertionSort _ _).mem_iff, mem_filter, decide_eq_true_eq, hopen]
      simp
  obtain ⟨result, hrun, hordered, hperm⟩ :=
    kahn_spec hnodup hends hinit (Nat.le_add_left nodes.length 0)
  exact ⟨result, hrun, hperm hac, fun e he =>
    (hordered e he ((hperm hac).mem_iff.mpr (hends e he).2)).2⟩

end Loop

end JiuwenSpec.Base.KahnOrder

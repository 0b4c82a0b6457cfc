import Mathlib.Data.List.Dedup
import JiuwenSpec.Symphony.OverlayReplay

/-!
# Projection schedules

Scopes go through submissions, switches of the static graph, projections, fallbacks and restarts.
A projection counts each session once, and gives what a fold of the whole log gives unless an edge
was bound to an older static graph of which the log itself knows nothing.
-/

namespace JiuwenSpec.Symphony

open Base List Option

variable {index : StaticGraphIndex} {k : EdgeIdentity}

variable {values : List Text}

theorem mem_sortTexts {x : Text} : x ∈ sortTexts values ↔ x ∈ values :=
  (perm_insertionSort _ values).mem_iff

theorem nodup_sortTexts : (sortTexts values).Nodup ↔ values.Nodup :=
  (perm_insertionSort _ values).nodup_iff

theorem length_sortTexts (values : List Text) : (sortTexts values).length = values.length :=
  (perm_insertionSort _ values).length_eq

theorem mem_appendUnique {value x : Text} :
    x ∈ appendUnique values value ↔ x ∈ values ∨ (x = value ∧ value ≠ []) := by
  rw [appendUnique]
  by_cases hv : value = []
  · simp [hv]
  · rw [if_neg hv, mem_sortTexts]
    by_cases hmem : value ∈ values
    · rw [if_pos hmem]
      exact ⟨.inl, fun h => h.elim id fun h => h.1 ▸ hmem⟩
    · simp [hmem, hv]

theorem nodup_appendUnique (h : values.Nodup) (value : Text) :
    (appendUnique values value).Nodup := by
  rw [appendUnique]
  split_ifs with hv hmem
  · exact h
  · exact nodup_sortTexts.mpr h
  · refine nodup_sortTexts.mpr (nodup_append.mpr ⟨h, nodup_singleton _, ?_⟩)
    rintro a ha b hb rfl
    exact hmem (mem_singleton.mp hb ▸ ha)

theorem length_appendUnique (values : List Text) (value : Text) :
    (appendUnique values value).length = EdgeStats.countSession values.length values value := by
  rw [appendUnique, EdgeStats.countSession]
  by_cases hv : value = []
  · simp [hv]
  · by_cases hmem : value ∈ values <;> simp [hv, hmem, length_sortTexts]

/-- The statistics count the sessions of their observations, each once for an outcome. -/
structure EdgeStats.Counts (s : EdgeStats) (obs : List Observation) (k : EdgeIdentity) : Prop where
  successNodup : s.successSessionHashes.Nodup
  successes : ∀ x, x ∈ s.successSessionHashes ↔ x ∈ sessionsOf obs k .success
  successCount : s.successCount = s.successSessionHashes.length
  failureNodup : s.failureSessionHashes.Nodup
  failures : ∀ x, x ∈ s.failureSessionHashes ↔ x ∈ sessionsOf obs k .failure
  failureCount : s.failureCount = s.failureSessionHashes.length
  attempts : s.attemptCount = (s.successSessionHashes ++ s.failureSessionHashes).dedup.length

theorem mem_sessionsOf_append (obs : List Observation) (o : Observation) (outcome : EdgeOutcome)
    (x : Text) : x ∈ sessionsOf (obs ++ [o]) k outcome ↔ x ∈ sessionsOf obs k outcome ∨
      (o.2.identity = k ∧ o.2.outcome = outcome ∧ x = o.1.sessionIdHash ∧
        o.1.sessionIdHash ≠ []) := by
  rw [sessionsOf, sessionsOf, filter_append, map_append, mem_append]
  refine or_congr Iff.rfl ?_
  by_cases h : o.2.identity = k ∧ o.2.outcome = outcome ∧ o.1.sessionIdHash ≠ []
  · simp [h]
  · rw [filter_cons_of_neg (by simpa using h), filter_nil]
    simp only [map_nil, not_mem_nil, false_iff]
    rintro ⟨hk, ho, -, hne⟩
    exact h ⟨hk, ho, hne⟩

variable {obs : List Observation}

theorem EdgeStats.Counts.observe {s : EdgeStats} {o : Observation}
    (h : s.Counts obs k) (hk : o.2.identity = k) :
    (s.observe index o.1 o.2).Counts (obs ++ [o]) k := by
  have hattempts : (s.observe index o.1 o.2).attemptCount =
      ((s.observe index o.1 o.2).successSessionHashes ++
        (s.observe index o.1 o.2).failureSessionHashes).dedup.length := rfl
  cases ho : o.2.outcome with
  | success =>
    have hs : (s.observe index o.1 o.2).successSessionHashes =
        appendUnique s.successSessionHashes o.1.sessionIdHash := by
      simp [EdgeStats.observe, EdgeStats.settle, EdgeStats.weigh, ho]
    have hf : (s.observe index o.1 o.2).failureSessionHashes = s.failureSessionHashes := by
      simp [EdgeStats.observe, EdgeStats.settle, EdgeStats.weigh, ho]
    refine ⟨hs ▸ nodup_appendUnique h.successNodup _, fun x => ?_, ?_, hf ▸ h.failureNodup,
      fun x => ?_, ?_, hattempts⟩
    · rw [hs, mem_appendUnique, mem_sessionsOf_append, h.successes x]
      simp [hk, ho]
    · rw [hs, length_appendUnique, ← h.successCount]
      simp [EdgeStats.observe, EdgeStats.settle, EdgeStats.weigh, ho]
    · rw [hf, mem_sessionsOf_append, h.failures x]
      simp [ho]
    · rw [hf, ← h.failureCount]
      simp [EdgeStats.observe, EdgeStats.settle, EdgeStats.weigh, ho]
  | failure =>
    have hs : (s.observe index o.1 o.2).successSessionHashes = s.successSessionHashes := by
      simp [EdgeStats.observe, EdgeStats.settle, EdgeStats.weigh, ho]
    have hf : (s.observe index o.1 o.2).failureSessionHashes =
        appendUnique s.failureSessionHashes o.1.sessionIdHash := by
      simp [EdgeStats.observe, EdgeStats.settle, EdgeStats.weigh, ho]
    refine ⟨hs ▸ h.successNodup, fun x => ?_, ?_, hf ▸ nodup_appendUnique h.failureNodup _,
      fun x => ?_, ?_, hattempts⟩
    · rw [hs, mem_sessionsOf_append, h.successes x]
      simp [ho]
    · rw [hs, ← h.successCount]
      simp [EdgeStats.observe, EdgeStats.settle, EdgeStats.weigh, ho]
    · rw [hf, mem_appendUnique, mem_sessionsOf_append, h.failures x]
      simp [hk, ho]
    · rw [hf, length_appendUnique, ← h.failureCount]
      simp [EdgeStats.observe, EdgeStats.settle, EdgeStats.weigh, ho]

theorem EdgeStats.Counts.skip {s : EdgeStats} {o : Observation}
    (h : s.Counts obs k) (hk : o.2.identity ≠ k) : s.Counts (obs ++ [o]) k where
  successNodup := h.successNodup
  successes x := by rw [mem_sessionsOf_append, h.successes x]; simp [hk]
  successCount := h.successCount
  failureNodup := h.failureNodup
  failures x := by rw [mem_sessionsOf_append, h.failures x]; simp [hk]
  failureCount := h.failureCount
  attempts := h.attempts

theorem EdgeStats.counts_fresh (h : ¬ Observed obs k) (item : EdgeItem)
    (at' : Text) : (EdgeStats.fresh item at').Counts obs k := by
  have hnone : ∀ outcome x, x ∉ sessionsOf obs k outcome := by
    intro outcome x hx
    obtain ⟨o, ho, -⟩ := mem_map.mp hx
    rw [mem_filter, decide_eq_true_eq] at ho
    exact h ⟨o, ho.1, ho.2.1⟩
  constructor <;> simp [EdgeStats.fresh, hnone]

theorem counts_foldl (obs : List Observation) {s : EdgeStats}
    (h : assocGet? k (obs.foldl (applyItem index) []) = some s) : s.Counts obs k := by
  induction obs using List.reverseRecOn generalizing s with
  | nil => cases h
  | append_singleton obs o ih =>
    rw [foldl_append, foldl_cons, foldl_nil, assocGet?_applyItem] at h
    split at h
    · next hk =>
      subst hk
      cases h
      refine EdgeStats.Counts.observe ?_ rfl
      cases hget : assocGet? o.2.identity (obs.foldl (applyItem index) []) with
      | some t => exact ih hget
      | none =>
        refine EdgeStats.counts_fresh (fun hobs => ?_) o.2 _
        have hsome : (assocGet? o.2.identity (obs.foldl (applyItem index) [])).isSome = true :=
          (isSome_foldl obs [] o.2.identity).mpr (.inr hobs)
        rw [hget] at hsome
        cases hsome
    · next hk => exact (ih h).skip (Ne.symm hk)

theorem lastRevision_foldl (obs : List Observation) {s : EdgeStats}
    (h : assocGet? k (obs.foldl (applyItem index) []) = some s) :
    lastRevision obs k = some s.lastEvidenceStaticRevision := by
  induction obs using List.reverseRecOn generalizing s with
  | nil => cases h
  | append_singleton obs o ih =>
    rw [foldl_append, foldl_cons, foldl_nil, assocGet?_applyItem] at h
    split at h
    · next hk =>
      subst hk
      cases h
      simp [lastRevision, filter_append, EdgeStats.observe, EdgeStats.weigh]
    · next hk =>
      have hk' : ¬ o.2.identity = k := fun heq => hk heq.symm
      rw [← ih h, lastRevision, lastRevision, filter_append]
      simp [hk']

theorem length_eq_dedup {xs ys : List Text} (hn : xs.Nodup) (h : ∀ x, x ∈ xs ↔ x ∈ ys) :
    xs.length = ys.dedup.length :=
  ((perm_ext_iff_of_nodup hn ys.nodup_dedup).mpr
    fun x => (h x).trans mem_dedup.symm).length_eq

theorem EdgeStats.Counts.dedup {s : EdgeStats} (h : s.Counts obs k) :
    s.successCount = (sessionsOf obs k .success).dedup.length ∧
      s.failureCount = (sessionsOf obs k .failure).dedup.length ∧
      s.attemptCount = (sessionsOf obs k .success ++ sessionsOf obs k .failure).dedup.length := by
  refine ⟨?_, ?_, ?_⟩
  · rw [h.successCount, length_eq_dedup h.successNodup h.successes]
  · rw [h.failureCount, length_eq_dedup h.failureNodup h.failures]
  · rw [h.attempts]
    refine length_eq_dedup (nodup_dedup _) fun x => ?_
    rw [mem_dedup, mem_append, mem_append, h.successes x, h.failures x]

variable {bound : EdgeIdentity → Prop}

namespace Scope

variable {s : Scope}

def read (s : Scope) : List LogRow := s.log.filter fun row => row.sequence ≤ s.highWater

/-- The log grows, and the overlay counts what it has read. -/
structure Sound (s : Scope) : Prop where
  sorted : (s.log.map LogRow.sequence).Pairwise (· < ·)
  positive : ∀ row ∈ s.log, 0 < row.sequence
  bounded : s.highWater ≤ s.lastSequence
  akin : Akin s.edges ((observations s.read).foldl (applyItem s.index) [])

theorem sound_init (index : StaticGraphIndex) : (Scope.init index).Sound :=
  ⟨List.Pairwise.nil, by simp [Scope.init], Nat.zero_le _, Akin.refl _⟩

theorem filter_append_filter {log : List LogRow}
    (h : (log.map LogRow.sequence).Pairwise (· < ·)) (n : Nat) :
    (log.filter fun row => row.sequence ≤ n) ++ (log.filter fun row => n < row.sequence) = log := by
  induction log with
  | nil => rfl
  | cons row log ih =>
    rw [map_cons, pairwise_cons] at h
    by_cases hrow : row.sequence ≤ n
    · rw [filter_cons_of_pos (by simpa using hrow),
        filter_cons_of_neg (by simpa using hrow), cons_append, ih h.2]
    · have hlate : ∀ r ∈ log, n < r.sequence := fun r hr =>
        (Nat.lt_of_not_le hrow).trans (h.1 r.sequence (mem_map_of_mem hr))
      have hnone : (log.filter fun r => r.sequence ≤ n) = [] :=
        filter_eq_nil_iff.mpr fun r hr => by simpa using hlate r hr
      have hall : (log.filter fun r => n < r.sequence) = log :=
        filter_eq_self.mpr fun r hr => by simpa using hlate r hr
      rw [filter_cons_of_neg (by simpa using hrow),
        filter_cons_of_pos (by simpa using hrow), hnone, hall, nil_append]

theorem le_getLast {log : List LogRow} (h : (log.map LogRow.sequence).Pairwise (· < ·))
    {last row : LogRow} (hlast : log.getLast? = some last) (hrow : row ∈ log) :
    row.sequence ≤ last.sequence := by
  obtain ⟨pre, rfl⟩ := List.getLast?_eq_some_iff.mp hlast
  rw [map_append, pairwise_append] at h
  rcases mem_append.mp hrow with hmem | hmem
  · exact (h.2.2 _ (mem_map_of_mem hmem) _ (by simp)).le
  · rw [mem_singleton.mp hmem]

theorem Sound.read_append (h : s.Sound) : s.read ++ s.iterAfter = s.log :=
  filter_append_filter h.sorted s.highWater

theorem Sound.read_aggregate (h : s.Sound) : s.aggregate.read = s.log := by
  refine filter_eq_self.mpr fun row hrow => decide_eq_true ?_
  change row.sequence ≤ (s.iterAfter.getLast?.map LogRow.sequence).getD s.highWater
  have hlog : row ∈ s.log := hrow
  rw [← h.read_append, mem_append] at hlog
  have hread : row ∈ s.read → row.sequence ≤ s.highWater := fun hmem => by
    simpa using (mem_filter.mp hmem).2
  have hsorted : (s.iterAfter.map LogRow.sequence).Pairwise (· < ·) :=
    h.sorted.sublist (filter_sublist.map _)
  cases hlast : s.iterAfter.getLast? with
  | none =>
    rw [List.getLast?_eq_none_iff] at hlast
    rw [hlast] at hlog
    exact hlog.elim hread fun hmem => by cases hmem
  | some last =>
    rcases hlog with hmem | hmem
    · have hlate : s.highWater < last.sequence := by
        simpa using (mem_filter.mp (mem_of_getLast? hlast)).2
      exact (hread hmem).trans hlate.le
    · exact le_getLast hsorted hlast hmem

theorem edges_aggregate (s : Scope) : s.aggregate.edges =
    ((observations s.iterAfter).foldl (applyItem s.index) s.edges).map
      fun e => (e.1, e.2.rebind e.1 s.index) := by
  rw [← foldl_applyRow]
  rfl

theorem Sound.akin_projected (h : s.Sound) :
    Akin ((observations s.iterAfter).foldl (applyItem s.index) s.edges)
      ((observations s.log).foldl (applyItem s.index) []) := by
  rw [← h.read_append, observations_append, foldl_append]
  exact h.akin.foldl _

theorem Sound.le_lastSequence (h : s.Sound) {row : LogRow} (hrow : row ∈ s.log) :
    row.sequence ≤ s.lastSequence := by
  rw [lastSequence]
  cases hlast : s.log.getLast? with
  | none =>
    rw [List.getLast?_eq_none_iff] at hlast
    rw [hlast] at hrow
    cases hrow
  | some last => exact le_getLast h.sorted hlast hrow

theorem Sound.aggregate (h : s.Sound) : s.aggregate.Sound where
  sorted := h.sorted
  positive := h.positive
  bounded := by
    change (s.iterAfter.getLast?.map LogRow.sequence).getD s.highWater ≤ s.lastSequence
    cases hlast : s.iterAfter.getLast? with
    | none => exact h.bounded
    | some last => exact h.le_lastSequence (mem_filter.mp (mem_of_getLast? hlast)).1
  akin := by
    rw [h.read_aggregate, edges_aggregate]
    exact (akin_rebind _).trans h.akin_projected

theorem Sound.extend (h : s.Sound) {row : LogRow} (hrow : s.lastSequence < row.sequence) :
    Scope.Sound { s with log := s.log ++ [row] } ∧
      Scope.read { s with log := s.log ++ [row] } = s.read := by
  have hbound := h.bounded
  have hread : Scope.read { s with log := s.log ++ [row] } = s.read := by
    rw [read, filter_append]
    change s.read ++ [row].filter (fun row => row.sequence ≤ s.highWater) = s.read
    rw [filter_cons_of_neg (by simp; omega), filter_nil, append_nil]
  refine ⟨⟨?_, ?_, ?_, ?_⟩, hread⟩
  · rw [map_append, pairwise_append]
    refine ⟨h.sorted, pairwise_singleton _ _, ?_⟩
    rintro a ha b hb
    obtain ⟨r, hr, rfl⟩ := mem_map.mp ha
    rw [mem_singleton.mp hb]
    exact (h.le_lastSequence hr).trans_lt hrow
  · intro r hr
    rcases mem_append.mp hr with hmem | hmem
    · exact h.positive r hmem
    · rw [mem_singleton.mp hmem]
      exact Nat.zero_lt_of_lt hrow
  · rw [lastSequence, List.getLast?_append]
    exact hbound.trans hrow.le
  · rw [hread]
    exact h.akin

theorem Sound.append (h : s.Sound) (others : Nat) (evidenceId : Text) (eligible : Bool)
    (payload : Evidence) : (s.append others evidenceId eligible payload).Sound ∧
      (s.append others evidenceId eligible payload).read = s.read := by
  rw [Scope.append]
  split
  · exact ⟨h, rfl⟩
  · refine h.extend ?_
    change s.lastSequence < s.lastSequence + others + 1
    omega

theorem Sound.publishSafeFallback (h : s.Sound) : s.publishSafeFallback.Sound ∧
    s.publishSafeFallback.read = [] := by
  have hread : s.publishSafeFallback.read = [] := by
    refine filter_eq_nil_iff.mpr fun row hrow => ?_
    have hpos := h.positive row hrow
    change ¬ decide (row.sequence ≤ 0) = true
    simp only [decide_eq_true_eq]
    omega
  refine ⟨⟨h.sorted, h.positive, Nat.zero_le _, ?_⟩, hread⟩
  rw [hread]
  exact Akin.refl _

/-- What the overlay keeps of the static graphs: the edges that were bound, since the last fallback,
by a projection that knew an observation of them. -/
def boundSinceFallback (s : Scope) (bound : EdgeIdentity → Prop) :
    List ScopeOp → EdgeIdentity → Prop
  | [] => bound
  | op :: ops =>
    boundSinceFallback (s.step op)
      (match op with
      | .safeFallback => fun _ => False
      | .aggregate => fun k =>
        bound k ∨ (k ∈ s.index.edgesByIdentity ∧ Observed (observations s.log) k)
      | _ => bound) ops

/-- The marks of an overlay come from its observations and its static graphs. -/
def MarkedBy (s : Scope) (bound : EdgeIdentity → Prop) : Prop :=
  ∀ k, Marked s.edges k ↔ ObservedStatic (observations s.read) k ∨ bound k

theorem Sound.allAbout (h : s.Sound) :
    AllAbout ((observations s.iterAfter).foldl (applyItem s.index) s.edges) := by
  have hnil : AllAbout [] := fun k s hs => by cases hs
  have hlog : AllAbout ((observations s.log).foldl (applyItem s.index) []) := hnil.foldl _
  exact hlog.of_akin h.akin_projected.symm

theorem Sound.isSome_projected (h : s.Sound) (k : EdgeIdentity) :
    (assocGet? k ((observations s.iterAfter).foldl (applyItem s.index) s.edges)).isSome ↔
      Observed (observations s.log) k := by
  have hk := congrArg Option.isSome (h.akin_projected k)
  rw [isSome_map, isSome_map] at hk
  rw [hk, isSome_foldl]
  simp [assocGet?]

theorem MarkedBy.aggregate (h : s.Sound) (hm : s.MarkedBy bound) :
    s.aggregate.MarkedBy fun k =>
      bound k ∨ (k ∈ s.index.edgesByIdentity ∧ Observed (observations s.log) k) := by
  intro k
  have hstatic : ObservedStatic (observations s.log) k ↔
      ObservedStatic (observations s.read) k ∨ ObservedStatic (observations s.iterAfter) k := by
    rw [← h.read_append, observations_append]
    simp only [ObservedStatic, mem_append, or_and_right, exists_or]
  have hseen : Observed (observations s.iterAfter) k → Observed (observations s.log) k := by
    rintro ⟨o, ho, hk⟩
    rw [← h.read_append, observations_append]
    exact ⟨o, mem_append_right _ ho, hk⟩
  rw [edges_aggregate, marked_rebind h.allAbout, marked_foldl, h.isSome_projected, hm k,
    h.read_aggregate, hstatic]
  tauto

theorem marked_run (ops : List ScopeOp) (h : s.Sound)
    (hm : s.MarkedBy bound) : (run Scope.step s ops).Sound ∧
      (run Scope.step s ops).MarkedBy (s.boundSinceFallback bound ops) := by
  induction ops generalizing s bound with
  | nil => exact ⟨h, hm⟩
  | cons op ops ih =>
    cases op with
    | submit others evidenceId eligible payload =>
      obtain ⟨hsound, hread⟩ := h.append others evidenceId eligible payload
      refine ih hsound fun k => ?_
      have hedges : (s.append others evidenceId eligible payload).edges = s.edges := by
        rw [Scope.append]
        split <;> rfl
      exact hread ▸ hedges ▸ hm k
    | switch index =>
      refine ih ⟨h.sorted, h.positive, h.bounded, ?_⟩ hm
      exact h.akin.trans ((Akin.refl []).foldl _)
    | aggregate => exact ih h.aggregate (hm.aggregate h)
    | safeFallback =>
      obtain ⟨hsound, hread⟩ := h.publishSafeFallback
      refine ih hsound fun k => ?_
      change Marked [] k ↔ ObservedStatic (observations s.publishSafeFallback.read) k ∨ False
      rw [hread]
      simp [Marked, assocGet?, ObservedStatic, observations]
    | restart => exact ih h hm

end Scope

/-- Statistics as a reader of the overlay compares them. -/
def EdgeStats.seen (s : EdgeStats) : EdgeStats := { s with everStatic := false }

/-- The same counts, sessions, statuses and adjustments for the same edges. -/
def SameEdges (edges edges' : Edges) : Prop :=
  ∀ k, (assocGet? k edges).map EdgeStats.seen = (assocGet? k edges').map EdgeStats.seen

structure EdgeStats.Awaiting (s : EdgeStats) (k : EdgeIdentity) (index : StaticGraphIndex) :
    Prop where
  source : assocGet? s.sourceId index.contentHashById = some s.sourceContentHash
  target : assocGet? s.targetId index.contentHashById = some s.targetContentHash
  removed : k ∉ index.edgesByIdentity
  old : s.lastEvidenceStaticRevision ≠ index.revision

theorem EdgeStats.forget_binding_ne (s : EdgeStats) :
    s.forget.binding k index ≠ .quarantined := by
  rw [binding]
  split_ifs <;> simp_all [forget]

theorem EdgeStats.binding_eq {s : EdgeStats} (h : s.identitySchema = .pointEdge)
    [Decidable (s.Awaiting k index)] : s.binding k index =
      if s.Awaiting k index ∧ s.everStatic = true then .quarantined
      else s.forget.binding k index := by
  by_cases hs : assocGet? s.sourceId index.contentHashById = some s.sourceContentHash
  · by_cases ht : assocGet? s.targetId index.contentHashById = some s.targetContentHash
    · by_cases hk : k ∈ index.edgesByIdentity
      · rw [if_neg fun hw => hw.1.removed hk]
        simp [binding, forget, StaticGraphIndex.HasCapability, hs, ht, hk, h]
      · by_cases hold : s.lastEvidenceStaticRevision = index.revision
        · rw [if_neg fun hw => hw.1.old hold]
          simp [binding, forget, StaticGraphIndex.HasCapability, hs, ht, hk, h, hold]
        · have hwait : s.Awaiting k index := ⟨hs, ht, hk, hold⟩
          by_cases hever : s.everStatic = true <;>
            simp [binding, forget, StaticGraphIndex.HasCapability, hs, ht, hk, h, hold, hwait,
              hever]
    · rw [if_neg fun hw => ht hw.1.target]
      simp [binding, forget, StaticGraphIndex.HasCapability, hs, ht, h]
  · rw [if_neg fun hw => hs hw.1.source]
    simp [binding, forget, StaticGraphIndex.HasCapability, hs, h]

theorem EdgeStats.awaiting_forget {s t : EdgeStats} (h : s.forget = t.forget) :
    s.Awaiting k index ↔ t.Awaiting k index := by
  have hsource := congrArg EdgeStats.sourceId h
  have htarget := congrArg EdgeStats.targetId h
  have hsourceHash := congrArg EdgeStats.sourceContentHash h
  have htargetHash := congrArg EdgeStats.targetContentHash h
  have hlast := congrArg EdgeStats.lastEvidenceStaticRevision h
  simp only [forget] at hsource htarget hsourceHash htargetHash hlast
  exact ⟨fun ha => ⟨by rw [← hsource, ← hsourceHash, ha.source],
      by rw [← htarget, ← htargetHash, ha.target], ha.removed, hlast ▸ ha.old⟩,
    fun ha => ⟨by rw [hsource, hsourceHash, ha.source],
      by rw [htarget, htargetHash, ha.target], ha.removed, hlast ▸ ha.old⟩⟩

theorem EdgeStats.seen_rebind_iff {s t : EdgeStats} (hs : s.About k) (ht : t.About k)
    (h : s.forget = t.forget) : (s.rebind k index).seen = (t.rebind k index).seen ↔
      (s.Awaiting k index → (s.everStatic = true ↔ t.everStatic = true)) := by
  classical
  have hview : ∀ u : EdgeStats, (u.rebind k index).seen =
      { u.forget with
        runtimeAdjustment := runtimeSteps u.forget.successCount u.forget.failureCount
        runtimeWeight := 20 + runtimeSteps u.forget.successCount u.forget.failureCount
        bindingStatus := some (u.binding k index) } := fun _ => rfl
  have hbind : (s.rebind k index).seen = (t.rebind k index).seen ↔
      s.binding k index = t.binding k index := by
    rw [hview, hview, h]
    constructor
    · intro heq
      exact some.inj (congrArg EdgeStats.bindingStatus heq)
    · intro heq
      rw [heq]
  have hne : t.forget.binding k index ≠ .quarantined := t.forget_binding_ne
  rw [hbind, binding_eq hs.schema, binding_eq ht.schema, h, ← awaiting_forget h]
  by_cases ha : s.Awaiting k index
  · by_cases hes : s.everStatic = true <;> by_cases het : t.everStatic = true <;>
      simp [ha, hes, het, hne, Ne.symm hne]
  · simp [ha]

/-- The edge is not in the static graph while its ends are, and its last evidence is older. -/
structure Scope.AwaitsEvidence (s : Scope) (k : EdgeIdentity) : Prop where
  source : assocGet? k.sourceId s.index.contentHashById = some k.sourceContentHash
  target : assocGet? k.targetId s.index.contentHashById = some k.targetContentHash
  removed : k ∉ s.index.edgesByIdentity
  old : ∃ revision, lastRevision (observations s.log) k = some revision ∧
    revision ≠ s.index.revision

/-- A scope whose log is folded once, from an empty overlay. -/
def Scope.replay (s : Scope) : Scope := Scope.aggregate { s with overlay := none }

theorem Scope.Sound.dropOverlay {s : Scope} (h : s.Sound) :
    Scope.Sound { s with overlay := none } where
  sorted := h.sorted
  positive := h.positive
  bounded := Nat.zero_le _
  akin := h.publishSafeFallback.1.akin

theorem Scope.Sound.awaiting_iff {s : Scope} (h : s.Sound) {stats : EdgeStats}
    (hstats : assocGet? k ((observations s.iterAfter).foldl (applyItem s.index) s.edges) =
      some stats) : stats.Awaiting k s.index ↔ s.AwaitsEvidence k := by
  have hk := h.akin_projected k
  rw [hstats] at hk
  cases hfold : assocGet? k ((observations s.log).foldl (applyItem s.index) []) with
  | none => rw [hfold] at hk; cases hk
  | some t =>
    rw [hfold] at hk
    have hforget : stats.forget = t.forget := some.inj hk
    have habout := h.allAbout k stats hstats
    have hlast := lastRevision_foldl (observations s.log) hfold
    have hrevision : stats.lastEvidenceStaticRevision = t.lastEvidenceStaticRevision := by
      have hfield := congrArg EdgeStats.lastEvidenceStaticRevision hforget
      exact hfield
    constructor
    · intro ha
      refine ⟨?_, ?_, ha.removed, _, hlast, hrevision ▸ ha.old⟩
      · rw [← habout.source.1, ← habout.source.2, ha.source]
      · rw [← habout.target.1, ← habout.target.2, ha.target]
    · intro ha
      obtain ⟨revision, hrev, hne⟩ := ha.old
      rw [hlast] at hrev
      refine ⟨?_, ?_, ha.removed, ?_⟩
      · rw [habout.source.1, habout.source.2, ha.source]
      · rw [habout.target.1, habout.target.2, ha.target]
      · rw [hrevision, some.inj hrev]
        exact hne

theorem Scope.MarkedBy.projected {s : Scope} (hm : s.MarkedBy bound)
    (h : s.Sound) (hk : k ∉ s.index.edgesByIdentity) :
    Marked ((observations s.iterAfter).foldl (applyItem s.index) s.edges) k ↔
      ObservedStatic (observations s.log) k ∨ bound k := by
  have hmark := hm.aggregate h k
  rw [Scope.edges_aggregate, marked_rebind h.allAbout, h.read_aggregate] at hmark
  simpa [hk] using hmark

theorem Scope.AwaitsEvidence.observed {s : Scope} (h : s.AwaitsEvidence k) :
    Observed (observations s.log) k := by
  obtain ⟨revision, hrev, -⟩ := h.old
  obtain ⟨o, ho, -⟩ := map_eq_some_iff.mp hrev
  have hmem := mem_of_getLast? ho
  rw [mem_filter, decide_eq_true_eq] at hmem
  exact ⟨o, hmem.1, hmem.2⟩

theorem Scope.Sound.sameEdges_iff {s : Scope} (h : s.Sound)
    (hm : s.MarkedBy bound) : SameEdges s.aggregate.edges s.replay.edges ↔
      ∀ k, s.AwaitsEvidence k → bound k → ObservedStatic (observations s.log) k := by
  set t : Scope := { s with overlay := none } with ht
  have hsound : t.Sound := h.dropOverlay
  have hmt : t.MarkedBy fun _ => False := by
    intro k
    have hread : t.read = [] := h.publishSafeFallback.2
    rw [hread]
    simp [Marked, Scope.edges, ht, assocGet?, ObservedStatic, observations]
  refine forall_congr' fun k => ?_
  change Option.map _ (assocGet? k s.aggregate.edges) = Option.map _ (assocGet? k t.aggregate.edges)
    ↔ _
  rw [Scope.edges_aggregate, Scope.edges_aggregate,
    assocGet?_map (fun k (s : EdgeStats) => s.rebind k _),
    assocGet?_map (fun k (s : EdgeStats) => s.rebind k _)]
  have hakin := (h.akin_projected.trans hsound.akin_projected.symm) k
  cases ha : assocGet? k ((observations s.iterAfter).foldl (applyItem s.index) s.edges) with
  | none =>
    rw [ha] at hakin
    have hb := map_eq_none_iff.mp hakin.symm
    rw [hb]
    refine iff_of_true rfl fun hwait => ?_
    have hsome := (h.isSome_projected k).mpr hwait.observed
    rw [ha] at hsome
    cases hsome
  | some a =>
    rw [ha] at hakin
    obtain ⟨b, hb, hforget⟩ := map_eq_some_iff.mp hakin.symm
    have hmarked : ∀ {edges : Edges} {u : EdgeStats}, assocGet? k edges = some u →
        (u.everStatic = true ↔ Marked edges k) := by
      intro edges u hu
      simp [Marked, hu]
    rw [hb]
    simp only [map_some, some_inj]
    change (a.rebind k s.index).seen = (b.rebind k s.index).seen ↔ _
    rw [EdgeStats.seen_rebind_iff (h.allAbout k a ha) (hsound.allAbout k b hb) hforget.symm,
      h.awaiting_iff ha]
    refine forall_congr' fun hwait => ?_
    rw [hmarked ha, hmarked hb, hm.projected h hwait.removed, hmt.projected hsound hwait.removed]
    change (_ ↔ ObservedStatic (observations s.log) k ∨ False) ↔ _
    tauto

/-- **Projection schedules.** After any operations, a projection counts every session once for an
outcome of an edge and once for its attempts. It gives the edges that one fold of the whole log
gives if and only if every edge that awaits evidence and was bound to an older static graph since
the last fallback is known to the log as an edge of a static graph. -/
theorem projection_schedule (index : StaticGraphIndex) (ops : List ScopeOp) :
    (SameEdges (run Scope.step (Scope.init index) ops).aggregate.edges
        (run Scope.step (Scope.init index) ops).replay.edges ↔
      ∀ k, (run Scope.step (Scope.init index) ops).AwaitsEvidence k →
        (Scope.init index).boundSinceFallback (fun _ => False) ops k →
        ObservedStatic (observations (run Scope.step (Scope.init index) ops).log) k) ∧
      ∀ k stats,
        assocGet? k (run Scope.step (Scope.init index) ops).aggregate.edges = some stats →
        let obs := observations (run Scope.step (Scope.init index) ops).log
        stats.successCount = (sessionsOf obs k .success).dedup.length ∧
          stats.failureCount = (sessionsOf obs k .failure).dedup.length ∧
          stats.attemptCount =
            (sessionsOf obs k .success ++ sessionsOf obs k .failure).dedup.length := by
  have hmarked : (Scope.init index).MarkedBy fun _ => False := by
    intro k
    simp [Marked, Scope.edges, Scope.init, assocGet?, Scope.read, ObservedStatic, observations]
  obtain ⟨hsound, hmarks⟩ := Scope.marked_run ops (Scope.sound_init index) hmarked
  refine ⟨hsound.sameEdges_iff hmarks, fun k stats hstats => ?_⟩
  have hakin := hsound.aggregate.akin k
  rw [hstats, hsound.read_aggregate] at hakin
  cases hfold : assocGet? k ((observations (run Scope.step (Scope.init index) ops).log).foldl
      (applyItem (run Scope.step (Scope.init index) ops).aggregate.index) []) with
  | none => rw [hfold] at hakin; cases hakin
  | some t =>
    rw [hfold] at hakin
    have hforget : stats.forget = t.forget := some.inj hakin
    have hsuccess : stats.successCount = t.successCount := by
      have hfield := congrArg EdgeStats.successCount hforget
      exact hfield
    have hfailure : stats.failureCount = t.failureCount := by
      have hfield := congrArg EdgeStats.failureCount hforget
      exact hfield
    have hattempt : stats.attemptCount = t.attemptCount := by
      have hfield := congrArg EdgeStats.attemptCount hforget
      exact hfield
    rw [hsuccess, hfailure, hattempt]
    exact (counts_foldl _ hfold).dedup

def plainEdge : EdgeIdentity := ⟨['a'], ['b'], ['r'], ['x'], ['y']⟩

/-- A static graph with the two capabilities, with or without the edge. -/
def plainGraph (revision : Text) (edges : List EdgeIdentity) (h : ∀ e ∈ edges, e = plainEdge) :
    StaticGraphIndex where
  revision := revision
  contentHashById := [(['a'], ['x']), (['b'], ['y'])]
  edgesByIdentity := edges
  hashed e he := by
    rw [h e he]
    decide

def plainEvidence : Evidence where
  currentSchema := true
  sessionIdHash := ['s']
  staticRevision := ['1']
  taskClusterId := []
  observedAt := ['t']
  edges := [⟨plainEdge, .success, false, by decide⟩]

/-- The edge is static for one projection; afterwards it is quarantined, and a replay knows of no
reason to. -/
theorem overlay_remembers : ¬ ∀ (index : StaticGraphIndex) (ops : List ScopeOp),
    SameEdges (run Scope.step (Scope.init index) ops).aggregate.edges
      (run Scope.step (Scope.init index) ops).replay.edges := by
  intro h
  have hedge := h (plainGraph ['1'] [] (by simp))
    [.submit 0 ['e'] true plainEvidence,
      .switch (plainGraph ['2'] [plainEdge] (by simp)), .aggregate,
      .switch (plainGraph ['3'] [] (by simp))] plainEdge
  have hstatus := congrArg (Option.map EdgeStats.bindingStatus) hedge
  revert hstatus
  decide

end JiuwenSpec.Symphony

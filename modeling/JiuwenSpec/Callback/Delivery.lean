import JiuwenSpec.Base.Run
import JiuwenSpec.Callback.Framework

/-!
# Delivery of an event

A trigger runs each callback once and in order as long as nothing is registered in front of what it
has come past, and a once-only callback runs once as long as no two triggers are at it together.
-/

namespace JiuwenSpec.Callback

open Base List Option

def Before (a b : CallbackInfo) : Prop := b.priority ≤ a.priority

instance : DecidableRel Before := fun _ _ => inferInstanceAs (Decidable (_ ≤ _))

instance : Std.Total Before := ⟨fun a b => Int.le_total b.priority a.priority⟩

instance : IsTrans CallbackInfo Before := ⟨fun _ _ _ hab hbc => Int.le_trans hbc hab⟩

theorem sortByPriority_perm (infos : List CallbackInfo) : (sortByPriority infos).Perm infos :=
  perm_insertionSort _ _

theorem sortByPriority_pairwise (infos : List CallbackInfo) :
    (sortByPriority infos).Pairwise Before := pairwise_insertionSort Before infos

variable {infos : List CallbackInfo}

theorem take_sortByPriority (hsorted : infos.Pairwise Before)
    {info : CallbackInfo} {k : Nat} (hk : k ≤ infos.length)
    (hinfo : ∀ c ∈ infos.take k, info.priority ≤ c.priority) :
    (sortByPriority (infos ++ [info])).take k = infos.take k := by
  induction infos generalizing k with
  | nil =>
    obtain rfl := Nat.le_zero.mp hk
    rfl
  | cons c infos ih =>
    cases k with
    | zero => rfl
    | succ k =>
      obtain ⟨hc, htail⟩ := pairwise_cons.mp hsorted
      rw [take_succ_cons, forall_mem_cons] at hinfo
      have hfirst : ∀ b ∈ infos ++ [info], Before c b := by
        intro b hb
        rcases mem_append.mp hb with hb | hb
        · exact hc b hb
        · rw [mem_singleton.mp hb]
          exact hinfo.1
      have hsort : sortByPriority (c :: infos ++ [info]) = c :: sortByPriority (infos ++ [info]) :=
        insertionSort_cons_of_forall_rel Before hfirst
      rw [hsort, take_succ_cons, take_succ_cons,
        ih htail (Nat.le_of_succ_le_succ hk) hinfo.2]

structure ListOk (registered : Nat) (infos : List CallbackInfo) : Prop where
  sorted : infos.Pairwise Before
  nodup : (infos.map CallbackInfo.id).Nodup
  lt : ∀ c ∈ infos, c.id < registered

def Handled (disabled : List Nat) (t : Trigger) (c : CallbackInfo) : Prop :=
  c ∈ t.ran ∨ c.id ∈ t.skipped ∨ c.id ∈ disabled ∨ c.isTransform = true

def Trigger.busy (t : Trigger) : Option CallbackInfo :=
  match t.phase with
  | .filtering info => some info
  | .running info => some info
  | _ => none

/-- What holds of every trigger: it has run no callback twice and each in its order, and if it came
to its end it has handled each callback that was there and enabled when it started, or else the
callback was unregistered. -/
structure Served (disabled removed : List Nat) (t : Trigger) : Prop where
  nodup : (t.ran.map CallbackInfo.id).Nodup
  sorted : t.ran.Pairwise Before
  complete : t.phase = .over false → ∀ c ∈ t.started, Handled disabled t c ∨ c.id ∈ removed

/-- What holds of a trigger that walks the list `infos`. -/
structure Walks (disabled removed : List Nat) (infos : List CallbackInfo) (t : Trigger) : Prop where
  le : t.index ≤ infos.length
  ran : t.ran.Sublist (infos.take t.index)
  handled : ∀ c ∈ infos.take t.index, t.phase = .filtering c ∨ Handled disabled t c
  filtering : ∀ c, t.phase = .filtering c →
    ∃ k, t.index = k + 1 ∧ infos[k]? = some c ∧ t.ran.Sublist (infos.take k)
  started : ∀ c ∈ t.started, c ∈ infos ∨ c.id ∈ removed

def Framework.walked (s : Framework) (t : Trigger) : List CallbackInfo :=
  if t.phase = .hooks then s.callbacks else s.listOf t.list

structure Live (s : Framework) (t : Trigger) : Prop where
  list : ∀ k ∈ t.list, k < s.lists.length
  hooks : t.phase = .hooks → t.index = 0
  walks : Walks s.disabled s.removed (s.walked t) t

def TriggerOk (s : Framework) (t : Trigger) : Prop :=
  Served s.disabled s.removed t ∧ ((∃ stopped, t.phase = .over stopped) ∨ Live s t)

structure Framework.WF (s : Framework) : Prop where
  lists : ∀ infos ∈ s.lists, ListOk s.registered infos
  current : ∀ k ∈ s.current, k < s.lists.length
  triggers : ∀ t ∈ s.triggers, TriggerOk s t
  alone : ∀ (i j : Nat) (t u : Trigger) (c d : CallbackInfo), s.triggers[i]? = some t →
    s.triggers[j]? = some u → t.busy = some c → u.busy = some d → c.once = true →
      d.once = true → d.id = c.id → i = j
  enabled : ∀ t ∈ s.triggers, ∀ c, t.busy = some c → c.once = true → c.id ∉ s.disabled
  succeeded : s.succeeded.Nodup ∧ s.succeeded ⊆ s.disabled

theorem wf_start : Framework.start.WF where
  lists := fun _ h => (by cases h)
  current := fun _ h => (by cases h)
  triggers := fun _ h => (by cases h)
  alone := fun _ _ _ _ _ _ h => (by cases h)
  enabled := fun _ h => (by cases h)
  succeeded := ⟨nodup_nil, nil_subset _⟩

theorem ListOk.mono {m n : Nat} (h : ListOk m infos) (hle : m ≤ n) :
    ListOk n infos := ⟨h.sorted, h.nodup, fun c hc => Nat.lt_of_lt_of_le (h.lt c hc) hle⟩

variable {s : Framework}

theorem listOk_listOf (h : s.WF) (list : Option Nat) : ListOk s.registered (s.listOf list) := by
  rw [Framework.listOf]
  cases hl : list.bind fun k => s.lists[k]? with
  | none => exact ⟨List.Pairwise.nil, nodup_nil, fun _ h => (by cases h)⟩
  | some infos =>
    obtain ⟨k, -, hk⟩ := bind_eq_some_iff.mp hl
    exact h.lists infos (mem_of_getElem? hk)

variable {t : Trigger}

theorem Handled.mono {d d' : List Nat} (hd : d ⊆ d') {c : CallbackInfo}
    (h : Handled d t c) : Handled d' t c := by
  rcases h with h | h | h | h
  · exact .inl h
  · exact .inr (.inl h)
  · exact .inr (.inr (.inl (hd h)))
  · exact .inr (.inr (.inr h))

theorem Served.mono {d d' r r' : List Nat} (hd : d ⊆ d') (hr : r ⊆ r')
    (h : Served d r t) : Served d' r' t where
  nodup := h.nodup
  sorted := h.sorted
  complete := fun hover c hc => (h.complete hover c hc).imp (Handled.mono hd) fun hmem => hr hmem

theorem Walks.mono {d d' r r' : List Nat} (hd : d ⊆ d') (hr : r ⊆ r')
    {infos' : List CallbackInfo} (h : Walks d r infos t)
    (hle : t.index ≤ infos'.length) (htake : infos'.take t.index = infos.take t.index)
    (hmem : ∀ c ∈ infos, c ∈ infos' ∨ c.id ∈ r') : Walks d' r' infos' t where
  le := hle
  ran := htake ▸ h.ran
  handled := fun c hc => (h.handled c (htake ▸ hc)).imp_right (Handled.mono hd)
  filtering := by
    intro c hc
    obtain ⟨k, hindex, hget, hran⟩ := h.filtering c hc
    refine ⟨k, hindex, ?_, ?_⟩
    · have hk : (infos'.take t.index)[k]? = (infos.take t.index)[k]? := by rw [htake]
      rwa [List.getElem?_take_of_lt (by omega), List.getElem?_take_of_lt (by omega), hget] at hk
    · have hk := congrArg (List.take k) htake
      rw [take_take, take_take, Nat.min_eq_left (by omega)] at hk
      rw [hk]
      exact hran
  started := fun c hc => (h.started c hc).elim (hmem c) fun h => .inr (hr h)

variable {s' : Framework}

theorem TriggerOk.transfer (h : TriggerOk s t)
    (hd : s.disabled ⊆ s'.disabled) (hr : s.removed ⊆ s'.removed)
    (hlists : s.lists.length ≤ s'.lists.length)
    (hwalked : (∀ stopped, t.phase ≠ .over stopped) → Live s t →
      t.index ≤ (s'.walked t).length ∧ (s'.walked t).take t.index = (s.walked t).take t.index ∧
        ∀ c ∈ s.walked t, c ∈ s'.walked t ∨ c.id ∈ s'.removed) : TriggerOk s' t := by
  refine ⟨h.1.mono hd hr, ?_⟩
  by_cases hover : ∃ stopped, t.phase = .over stopped
  · exact .inl hover
  · have hlive := h.2.resolve_left hover
    obtain ⟨hle, htake, hmem⟩ := hwalked (fun stopped hs => hover ⟨stopped, hs⟩) hlive
    exact .inr ⟨fun k hk => Nat.lt_of_lt_of_le (hlive.list k hk) hlists, hlive.hooks,
      hlive.walks.mono hd hr hle htake hmem⟩

theorem TriggerOk.congr (h : TriggerOk s t)
    (hlists : s'.lists = s.lists) (hcurrent : s'.current = s.current)
    (hd : s.disabled ⊆ s'.disabled) (hr : s.removed ⊆ s'.removed) : TriggerOk s' t := by
  have hwalked : s'.walked t = s.walked t := by
    rw [Framework.walked, Framework.walked, Framework.callbacks, Framework.callbacks,
      Framework.listOf, Framework.listOf, Framework.listOf, Framework.listOf, hlists, hcurrent]
  refine h.transfer hd hr (Nat.le_of_eq (congrArg List.length hlists.symm)) fun _ hlive => ?_
  rw [hwalked]
  exact ⟨hlive.walks.le, rfl, fun _ hc => .inl hc⟩

theorem getElem?_modify_eq {α : Type} {l : List α} {i j : Nat} {f : α → α} {x : α}
    (h : (l.modify j f)[i]? = some x) : ∃ y, l[i]? = some y ∧ (if j = i then f y else y) = x := by
  rw [List.getElem?_modify] at h
  exact map_eq_some_iff.mp h

theorem mem_modify {α : Type} {l : List α} {j : Nat} {f : α → α} {x : α} (h : x ∈ l.modify j f) :
    x ∈ l ∨ ∃ y, l[j]? = some y ∧ x = f y := by
  obtain ⟨i, hi⟩ := mem_iff_getElem?.mp h
  obtain ⟨y, hy, rfl⟩ := getElem?_modify_eq hi
  by_cases hij : j = i
  · subst hij
    exact .inr ⟨y, hy, if_pos rfl⟩
  · rw [if_neg hij]
    exact .inl (mem_of_getElem? hy)

def Framework.Free (s : Framework) (c : CallbackInfo) : Prop :=
  c.once = true → c.id ∉ s.disabled ∧ ∀ u ∈ s.triggers, ∀ d, u.busy = some d → d.id ≠ c.id

theorem Framework.WF.modify (h : s.WF) (j : Nat) (f : Trigger → Trigger)
    (hok : ∀ t, s.triggers[j]? = some t → TriggerOk s t → TriggerOk s (f t))
    (hbusy : ∀ t, s.triggers[j]? = some t → ∀ c, (f t).busy = some c →
      t.busy = some c ∨ s.Free c) :
    Framework.WF { s with triggers := s.triggers.modify j f } where
  lists := h.lists
  current := h.current
  triggers := by
    intro t ht
    rcases mem_modify ht with ht | ⟨t, hj, rfl⟩
    · exact (h.triggers t ht).congr rfl rfl (List.Subset.refl _) (List.Subset.refl _)
    · exact (hok t hj (h.triggers t (mem_of_getElem? hj))).congr rfl rfl
        (List.Subset.refl _) (List.Subset.refl _)
  alone := by
    intro i k t u c d hi hk hc hd hconce hdonce hid
    obtain ⟨t', hi', rfl⟩ := getElem?_modify_eq hi
    obtain ⟨u', hk', rfl⟩ := getElem?_modify_eq hk
    -- A trigger that has come to a free callback is the only one there.
    by_cases hij : j = i
    · by_cases hkj : j = k
      · exact hij.symm.trans hkj
      · rw [if_pos hij] at hc
        rw [if_neg hkj] at hd
        rcases hbusy t' (hij ▸ hi') c hc with hc | hfree
        · exact h.alone i k t' u' c d hi' hk' hc hd hconce hdonce hid
        · exact absurd hid ((hfree hconce).2 u' (mem_of_getElem? hk') d hd)
    · rw [if_neg hij] at hc
      by_cases hkj : j = k
      · rw [if_pos hkj] at hd
        rcases hbusy u' (hkj ▸ hk') d hd with hd | hfree
        · exact h.alone i k t' u' c d hi' hk' hc hd hconce hdonce hid
        · exact absurd hid.symm ((hfree hdonce).2 t' (mem_of_getElem? hi') c hc)
      · rw [if_neg hkj] at hd
        exact h.alone i k t' u' c d hi' hk' hc hd hconce hdonce hid
  enabled := by
    intro t ht c hc honce
    rcases mem_modify ht with ht | ⟨t, hj, rfl⟩
    · exact h.enabled t ht c hc honce
    · rcases hbusy t hj c hc with hc | hfree
      · exact h.enabled t (mem_of_getElem? hj) c hc honce
      · exact (hfree honce).1
  succeeded := h.succeeded

theorem Framework.WF.disable (h : s.WF) {id : Nat} (hnew : id ∉ s.disabled)
    (hfree : ∀ t ∈ s.triggers, ∀ c, t.busy = some c → c.once = true → c.id ≠ id) :
    Framework.WF { s with disabled := id :: s.disabled, succeeded := id :: s.succeeded } where
  lists := h.lists
  current := h.current
  triggers := fun t ht => (h.triggers t ht).congr rfl rfl (subset_cons_self _ _)
    (List.Subset.refl _)
  alone := h.alone
  enabled := by
    intro t ht c hc honce hmem
    rcases mem_cons.mp hmem with heq | hmem
    · exact hfree t ht c hc honce heq
    · exact h.enabled t ht c hc honce hmem
  succeeded := by
    refine ⟨nodup_cons.mpr ⟨fun hmem => hnew (h.succeeded.2 hmem), h.succeeded.1⟩, ?_⟩
    exact cons_subset_cons _ h.succeeded.2

theorem triggerOk_takeList (h : s.WF) (ht : TriggerOk s t) : TriggerOk s (s.takeList t) := by
  rw [Framework.takeList]
  split
  · next hphase =>
    obtain ⟨hserved, hlive⟩ := ht
    rcases hlive with ⟨stopped, hover⟩ | hlive
    · rw [hphase] at hover
      cases hover
    · have hwalks := hlive.walks
      rw [Framework.walked, if_pos hphase] at hwalks
      refine ⟨⟨hserved.nodup, hserved.sorted, fun h => (by cases h)⟩, .inr ⟨h.current,
        fun h => (by cases h), ?_⟩⟩
      refine ⟨hwalks.le, hwalks.ran, fun c hc => ?_, fun c hc => (by cases hc), hwalks.started⟩
      rcases hwalks.handled c hc with hf | hhandled
      · rw [hphase] at hf
        cases hf
      · exact .inr hhandled
  · exact ht

theorem walked_ready (h : t.phase ≠ .hooks) :
    s.walked t = s.listOf t.list := if_neg h

theorem triggerOk_nextCallback (ht : TriggerOk s t) : TriggerOk s (s.nextCallback t) := by
  rw [Framework.nextCallback]
  split
  · next hphase =>
    obtain ⟨hserved, hlive⟩ := ht
    rcases hlive with ⟨stopped, hover⟩ | hlive
    · rw [hphase] at hover
      cases hover
    · have hwalks := hlive.walks
      rw [walked_ready (by rw [hphase]; exact fun h => (by cases h))] at hwalks
      have hhandled : ∀ c ∈ (s.listOf t.list).take t.index, Handled s.disabled t c := by
        intro c hc
        refine (hwalks.handled c hc).resolve_left fun hf => ?_
        rw [hphase] at hf
        cases hf
      split
      · next hnone =>
        -- The trigger has come past all of its list.
        have hall : (s.listOf t.list).take t.index = s.listOf t.list :=
          take_of_length_le (List.getElem?_eq_none_iff.mp hnone)
        refine ⟨⟨hserved.nodup, hserved.sorted, fun _ c hc => ?_⟩, .inl ⟨_, rfl⟩⟩
        exact (hwalks.started c hc).imp_left fun hmem => hhandled c (hall.symm ▸ hmem)
      · next info hsome =>
        obtain ⟨hlt, hget⟩ := List.getElem?_eq_some_iff.mp hsome
        have htake : (s.listOf t.list).take (t.index + 1) =
            (s.listOf t.list).take t.index ++ [info] := by
          rw [take_succ_eq_append_getElem hlt, hget]
        split
        · next hskip =>
          refine ⟨⟨hserved.nodup, hserved.sorted, fun hover => ?_⟩,
            .inr ⟨hlive.list, fun hh => ?_, ?_⟩⟩
          · dsimp only at hover
            rw [hphase] at hover
            cases hover
          · dsimp only at hh
            rw [hphase] at hh
            cases hh
          · rw [walked_ready (by dsimp only; rw [hphase]; exact fun h => (by cases h))]
            refine ⟨hlt, ?_, fun c hc => .inr ?_, fun c hc => ?_, hwalks.started⟩
            · dsimp only
              rw [htake]
              exact hwalks.ran.trans (sublist_append_left _ _)
            · dsimp only at hc
              rw [htake] at hc
              rcases mem_append.mp hc with hc | hc
              · exact hhandled c hc
              · rw [mem_singleton.mp hc]
                exact .inr (.inr hskip)
            · dsimp only at hc
              rw [hphase] at hc
              cases hc
        · refine ⟨⟨hserved.nodup, hserved.sorted, fun h => (by cases h)⟩, .inr ⟨hlive.list,
            fun h => (by cases h), ?_⟩⟩
          rw [walked_ready fun h => (by cases h)]
          refine ⟨hlt, ?_, fun c hc => ?_, fun c hc => ?_, hwalks.started⟩
          · dsimp only
            rw [htake]
            exact hwalks.ran.trans (sublist_append_left _ _)
          · dsimp only at hc
            rw [htake] at hc
            rcases mem_append.mp hc with hc | hc
            · exact .inr (hhandled c hc)
            · rw [mem_singleton.mp hc]
              exact .inl rfl
          · cases hc
            exact ⟨t.index, rfl, hsome, hwalks.ran⟩
  · exact ht

theorem triggerOk_filtered (h : s.WF) (action : Framework.FilterAction)
    (ht : TriggerOk s t) : TriggerOk s (Framework.filtered action t) := by
  rw [Framework.filtered.eq_def]
  split
  · next info hphase =>
    obtain ⟨hserved, hlive⟩ := ht
    rcases hlive with ⟨stopped, hover⟩ | hlive
    · rw [hphase] at hover
      cases hover
    · have hwalks := hlive.walks
      rw [walked_ready (by rw [hphase]; exact fun h => (by cases h))] at hwalks
      obtain ⟨k, hindex, hget, hran⟩ := hwalks.filtering info hphase
      obtain ⟨hlt, hget'⟩ := List.getElem?_eq_some_iff.mp hget
      have htake : (s.listOf t.list).take t.index = (s.listOf t.list).take k ++ [info] := by
        rw [hindex, take_succ_eq_append_getElem hlt, hget']
      have hok := listOk_listOf h t.list
      cases action with
      | «continue» =>
        have hsub : (t.ran ++ [info]).Sublist ((s.listOf t.list).take t.index) := by
          rw [htake]
          exact hran.append (List.Sublist.refl _)
        have hlist := hsub.trans (take_sublist _ _)
        refine ⟨⟨hok.nodup.sublist (hlist.map _), hok.sorted.sublist hlist, fun h => (by cases h)⟩,
          .inr ⟨hlive.list, fun h => (by cases h), ?_⟩⟩
        rw [walked_ready fun h => (by cases h)]
        refine ⟨hwalks.le, hsub, fun c hc => .inr ?_, fun c hc => (by cases hc), hwalks.started⟩
        rcases hwalks.handled c hc with hf | hhandled
        · rw [hphase] at hf
          cases hf
          exact .inl (mem_append_right _ (.head _))
        · exact hhandled.imp_left (mem_append_left _)
      | skip =>
        refine ⟨⟨hserved.nodup, hserved.sorted, fun h => (by cases h)⟩,
          .inr ⟨hlive.list, fun h => (by cases h), ?_⟩⟩
        rw [walked_ready fun h => (by cases h)]
        refine ⟨hwalks.le, hwalks.ran, fun c hc => .inr ?_, fun c hc => (by cases hc),
          hwalks.started⟩
        rcases hwalks.handled c hc with hf | hhandled
        · rw [hphase] at hf
          cases hf
          exact .inr (.inl (.head _))
        · exact hhandled.imp_right (Or.imp_left (mem_cons_of_mem _))
      | stop =>
        exact ⟨⟨hserved.nodup, hserved.sorted, fun h => (by cases h)⟩, .inl ⟨_, rfl⟩⟩
  · exact ht

theorem triggerOk_finished (outcome : Framework.Outcome)
    (ht : TriggerOk s t) : TriggerOk s (Framework.finished outcome t) := by
  rw [Framework.finished.eq_def]
  split
  · next info hphase =>
    obtain ⟨hserved, hlive⟩ := ht
    rcases hlive with ⟨stopped, hover⟩ | hlive
    · rw [hphase] at hover
      cases hover
    · split
      · exact ⟨⟨hserved.nodup, hserved.sorted, fun h => (by cases h)⟩, .inl ⟨_, rfl⟩⟩
      · have hwalks := hlive.walks
        rw [walked_ready (by rw [hphase]; exact fun h => (by cases h))] at hwalks
        refine ⟨⟨hserved.nodup, hserved.sorted, fun h => (by cases h)⟩,
          .inr ⟨hlive.list, fun h => (by cases h), ?_⟩⟩
        rw [walked_ready fun h => (by cases h)]
        refine ⟨hwalks.le, hwalks.ran, fun c hc => .inr ?_, fun c hc => (by cases hc),
          hwalks.started⟩
        refine (hwalks.handled c hc).resolve_left fun hf => ?_
        rw [hphase] at hf
        cases hf
  · exact ht

/-- A callback is registered only with a priority that is not above that of any callback which a
trigger has come past in the list, and a trigger comes to a once-only callback only while no other
trigger is at it. -/
def Framework.Undisturbed (s : Framework) : Action → Prop
  | .register _ _ priority _ _ => ∀ t ∈ s.triggers, t.list = s.current →
    (∀ stopped, t.phase ≠ .over stopped) →
      ∀ c ∈ (s.listOf t.list).take t.index, priority ≤ c.priority
  | .nextCallback j => ∀ t, s.triggers[j]? = some t → t.phase = .ready →
    ∀ c, (s.listOf t.list)[t.index]? = some c → c.once = true →
      ∀ u ∈ s.triggers, ∀ d, u.busy = some d → d.id ≠ c.id
  | _ => True

theorem listOf_append {list : Option Nat} (h : ∀ k ∈ list, k < s.lists.length)
    (infos : List CallbackInfo) (hs : s'.lists = s.lists ++ [infos]) :
    s'.listOf list = s.listOf list := by
  cases list with
  | none => rfl
  | some k =>
    rw [Framework.listOf, Framework.listOf, Option.bind_some, Option.bind_some, hs,
      List.getElem?_append_left (h k rfl)]

theorem listOf_last
    (hs : s'.lists = s.lists ++ [infos]) : s'.listOf (some s.lists.length) = infos := by
  rw [Framework.listOf, Option.bind_some, hs, List.getElem?_concat_length]
  rfl

theorem listOf_modify {k : Nat} (hk : k < s.lists.length)
    {f : List CallbackInfo → List CallbackInfo} (hs : s'.lists = s.lists.modify k f) :
    s'.listOf (some k) = f (s.listOf (some k)) := by
  rw [Framework.listOf, Framework.listOf, Option.bind_some, Option.bind_some, hs,
    List.getElem?_modify, List.getElem?_eq_getElem hk]
  exact if_pos rfl

theorem listOf_modify_ne {list : Option Nat} {k : Nat} (hk : list ≠ some k)
    {f : List CallbackInfo → List CallbackInfo} (hs : s'.lists = s.lists.modify k f) :
    s'.listOf list = s.listOf list := by
  cases list with
  | none => rfl
  | some i =>
    have hik : ¬ k = i := fun heq => hk (congrArg some heq.symm)
    rw [Framework.listOf, Framework.listOf, Option.bind_some, Option.bind_some, hs,
      List.getElem?_modify]
    simp only [if_neg hik, Functor.map, Option.map_id_fun', id_eq]

theorem ListOk.register {registered : Nat} (h : ListOk registered infos)
    {info : CallbackInfo} (hid : info.id = registered) :
    ListOk (registered + 1) (sortByPriority (infos ++ [info])) where
  sorted := sortByPriority_pairwise _
  nodup := by
    rw [((sortByPriority_perm _).map _).nodup_iff, map_append, nodup_append]
    refine ⟨h.nodup, nodup_singleton _, fun i hi j hj heq => ?_⟩
    obtain ⟨c, hc, rfl⟩ := mem_map.mp hi
    have hlt := h.lt c hc
    rw [heq, mem_singleton.mp hj, hid] at hlt
    exact Nat.lt_irrefl _ hlt
  lt := by
    intro c hc
    rcases mem_append.mp ((sortByPriority_perm _).mem_iff.mp hc) with hc | hc
    · exact Nat.lt_succ_of_lt (h.lt c hc)
    · rw [mem_singleton.mp hc, hid]
      exact Nat.lt_succ_self _

theorem wf_register (h : s.WF) (callback : FunctionId)
    (wrapper : Option FunctionId) (priority : Int) (once isTransform : Bool)
    (ha : s.Undisturbed (.register callback wrapper priority once isTransform)) :
    (s.register callback wrapper priority once isTransform).WF := by
  set info : CallbackInfo := ⟨s.registered, callback, wrapper, priority, once, isTransform⟩
    with hinfo
  rw [Framework.register]
  split
  · next hnone =>
    exact {
      lists := by
        intro infos hinfos
        rcases mem_append.mp hinfos with hinfos | hinfos
        · exact (h.lists infos hinfos).mono (Nat.le_succ _)
        · rw [mem_singleton.mp hinfos]
          exact ⟨pairwise_singleton _ _, nodup_singleton _, fun c hc => by
            rw [mem_singleton.mp hc]
            exact Nat.lt_succ_self _⟩
      current := by
        rintro _ ⟨⟩
        rw [length_append]
        exact Nat.lt_succ_self _
      triggers := by
        intro t ht
        refine (h.triggers t ht).transfer (List.Subset.refl _) (List.Subset.refl _) ?_
          fun hlive hl => ?_
        · rw [length_append]
          exact Nat.le_succ _
        · by_cases hhooks : t.phase = .hooks
          · rw [Framework.walked, if_pos hhooks, Framework.callbacks, listOf_last rfl,
              hl.hooks hhooks, Framework.walked, if_pos hhooks, Framework.callbacks, hnone]
            exact ⟨Nat.zero_le _, rfl, fun c hc => (by cases hc)⟩
          · rw [walked_ready hhooks, walked_ready hhooks, listOf_append hl.list [info] rfl]
            have hwalks := hl.walks
            rw [walked_ready hhooks] at hwalks
            exact ⟨hwalks.le, rfl, fun _ hc => .inl hc⟩
      alone := h.alone
      enabled := h.enabled
      succeeded := h.succeeded }
  · next k hk =>
    have hlt := h.current k hk
    have hmem : ∀ infos : List CallbackInfo, ∀ c ∈ infos, c ∈ sortByPriority (infos ++ [info]) :=
      fun infos c hc => (sortByPriority_perm _).mem_iff.mpr (mem_append_left _ hc)
    exact {
      lists := by
        intro infos hinfos
        rcases mem_modify hinfos with hinfos | ⟨infos, hget, rfl⟩
        · exact (h.lists infos hinfos).mono (Nat.le_succ _)
        · exact (h.lists infos (mem_of_getElem? hget)).register rfl
      current := by
        rw [length_modify]
        exact h.current
      triggers := by
        intro t ht
        refine (h.triggers t ht).transfer (List.Subset.refl _) (List.Subset.refl _) ?_
          fun hlive hl => ?_
        · rw [length_modify]
        · have hwalks := hl.walks
          by_cases hhooks : t.phase = .hooks
          · rw [Framework.walked, if_pos hhooks, Framework.callbacks, hk, listOf_modify hlt rfl,
              hl.hooks hhooks, Framework.walked, if_pos hhooks, Framework.callbacks, hk]
            exact ⟨Nat.zero_le _, rfl, fun c hc => .inl (hmem _ c hc)⟩
          · rw [walked_ready hhooks] at hwalks
            rw [walked_ready hhooks, walked_ready hhooks]
            by_cases hlist : t.list = some k
            · -- The list is the current one: what the trigger has come past stays in front.
              have hpast := ha t ht (hlist.trans hk.symm) hlive
              rw [hlist] at hwalks hpast
              rw [hlist, listOf_modify hlt rfl]
              refine ⟨?_, ?_, fun c hc => .inl (hmem _ c hc)⟩
              · rw [(sortByPriority_perm _).length_eq, length_append]
                exact Nat.le_add_right_of_le hwalks.le
              · exact take_sortByPriority (listOk_listOf h (some k)).sorted hwalks.le hpast
            · rw [listOf_modify_ne hlist rfl]
              exact ⟨hwalks.le, rfl, fun _ hc => .inl hc⟩
      alone := h.alone
      enabled := h.enabled
      succeeded := h.succeeded }

theorem wf_unregister (h : s.WF) (callback : FunctionId)
    (wrapped : Option FunctionId) : (s.unregister callback wrapped).WF := by
  rw [Framework.unregister]
  split
  · exact h
  · next k hk =>
    split
    · exact h
    · next target htarget =>
      have hcallbacks := listOk_listOf h s.current
      set kept := s.callbacks.filter fun info => decide (info.callback ≠ target.callback) with hkept
      exact {
        lists := by
          intro infos hinfos
          rcases mem_append.mp hinfos with hinfos | hinfos
          · exact h.lists infos hinfos
          · rw [mem_singleton.mp hinfos]
            have hsub : kept.Sublist s.callbacks := filter_sublist
            exact ⟨hcallbacks.sorted.sublist hsub, hcallbacks.nodup.sublist (hsub.map _),
              fun c hc => hcallbacks.lt c (hsub.subset hc)⟩
        current := by
          rintro _ ⟨⟩
          rw [length_append]
          exact Nat.lt_succ_self _
        triggers := by
          intro t ht
          refine (h.triggers t ht).transfer (List.Subset.refl _) (subset_append_left _ _) ?_
            fun hlive hl => ?_
          · rw [length_append]
            exact Nat.le_succ _
          · by_cases hhooks : t.phase = .hooks
            · -- A trigger in its hooks will take the new list.
              rw [Framework.walked, if_pos hhooks, Framework.callbacks, listOf_last rfl,
                hl.hooks hhooks, Framework.walked, if_pos hhooks]
              refine ⟨Nat.zero_le _, rfl, fun c hc => ?_⟩
              by_cases heq : c.callback = target.callback
              · refine .inr (mem_append_right _ (mem_map_of_mem ?_))
                exact mem_filter.mpr ⟨hc, decide_eq_true heq⟩
              · exact .inl (mem_filter.mpr ⟨hc, decide_eq_true heq⟩)
            · rw [walked_ready hhooks, walked_ready hhooks, listOf_append hl.list kept rfl]
              have hwalks := hl.walks
              rw [walked_ready hhooks] at hwalks
              exact ⟨hwalks.le, rfl, fun _ hc => .inl hc⟩
        alone := h.alone
        enabled := h.enabled
        succeeded := h.succeeded }

theorem wf_trigger (h : s.WF) : s.trigger.WF where
  lists := h.lists
  current := h.current
  triggers := by
    intro t ht
    rcases mem_append.mp ht with ht | ht
    · exact (h.triggers t ht).congr rfl rfl (List.Subset.refl _) (List.Subset.refl _)
    · rw [mem_singleton.mp ht]
      refine ⟨⟨nodup_nil, List.Pairwise.nil, fun h => (by cases h)⟩,
        .inr ⟨fun _ h => (by cases h), fun _ => rfl, ?_⟩⟩
      exact ⟨Nat.zero_le _, nil_sublist _, fun _ h => (by cases h), fun _ h => (by cases h),
        fun c hc => .inl (mem_of_mem_filter hc)⟩
  alone := by
    have hold : ∀ (i : Nat) (t : Trigger) (c : CallbackInfo), s.trigger.triggers[i]? = some t →
        t.busy = some c → s.triggers[i]? = some t := by
      intro i t c hi hc
      rw [Framework.trigger, List.getElem?_append] at hi
      split at hi
      · exact hi
      · rw [mem_singleton.mp (mem_of_getElem? hi)] at hc
        cases hc
    intro i j t u c d hi hj hc hd
    exact h.alone i j t u c d (hold i t c hi hc) (hold j u d hj hd) hc hd
  enabled := by
    intro t ht c hc
    rcases mem_append.mp ht with ht | ht
    · exact h.enabled t ht c hc
    · rw [mem_singleton.mp ht] at hc
      cases hc
  succeeded := h.succeeded

theorem busy_nextCallback {c : CallbackInfo}
    (h : (s.nextCallback t).busy = some c) : t.busy = some c ∨
      t.phase = .ready ∧ (s.listOf t.list)[t.index]? = some c ∧ c.id ∉ s.disabled := by
  rw [Framework.nextCallback] at h
  split at h
  · next hphase =>
    split at h
    · cases h
    · next info hget =>
      split at h
      · rw [Trigger.busy.eq_def] at h
        dsimp only at h
        rw [hphase] at h
        cases h
      · next hskip =>
        cases h
        exact .inr ⟨hphase, hget, (not_or.mp hskip).1⟩
  · exact .inl h

theorem busy_filtered {action : Framework.FilterAction} {c : CallbackInfo}
    (h : (Framework.filtered action t).busy = some c) : t.busy = some c := by
  rw [Framework.filtered.eq_def] at h
  split at h
  · next info hphase =>
    rw [Trigger.busy, hphase]
    cases action with
    | «continue» => exact h
    | skip => cases h
    | stop => cases h
  · exact h

theorem busy_finished {outcome : Framework.Outcome} {c : CallbackInfo}
    (h : (Framework.finished outcome t).busy = some c) :
    t.busy = some c ∧ ∀ info, t.phase ≠ .running info := by
  rw [Framework.finished.eq_def] at h
  split at h
  · split at h <;> cases h
  · next hrunning => exact ⟨h, hrunning⟩

theorem wf_finished (h : s.WF) (j : Nat) (outcome : Framework.Outcome) :
    (step s (.finished j outcome)).WF := by
  have hmodify := h.modify j (Framework.finished outcome)
    (fun _ _ ht => triggerOk_finished outcome ht) (fun _ _ _ hc => .inl (busy_finished hc).1)
  rw [step]
  split
  · exact hmodify
  · next info hsucceeded =>
    obtain ⟨t, hj, hsucceeded⟩ := bind_eq_some_iff.mp hsucceeded
    -- The trigger is in a once-only callback.
    have hrunning : t.phase = .running info ∧ info.once = true := by
      rw [Framework.succeededOnce.eq_def] at hsucceeded
      split at hsucceeded
      · next hphase =>
        split at hsucceeded
        · next hguard =>
          cases hsucceeded
          exact ⟨hphase, hguard.2⟩
        · cases hsucceeded
      · cases hsucceeded
    have hbusy : t.busy = some info := by rw [Trigger.busy, hrunning.1]
    refine hmodify.disable (h.enabled t (mem_of_getElem? hj) info hbusy hrunning.2) ?_
    intro u hu c hc honce hid
    obtain ⟨i, hi⟩ := mem_iff_getElem?.mp hu
    obtain ⟨u', hi', rfl⟩ := getElem?_modify_eq hi
    by_cases hij : j = i
    · rw [if_pos hij] at hc
      have heq : u' = t := some.inj (hi'.symm.trans (hij ▸ hj))
      exact (busy_finished hc).2 info (heq ▸ hrunning.1)
    · rw [if_neg hij] at hc
      exact hij (h.alone j i t u' info c hj hi' hbusy hc hrunning.2 honce hid)

theorem wf_step {a : Action} (h : s.WF) (ha : s.Undisturbed a) : (step s a).WF := by
  cases a with
  | register callback wrapper priority once isTransform =>
    exact wf_register h callback wrapper priority once isTransform ha
  | unregister callback wrapped => exact wf_unregister h callback wrapped
  | trigger => exact wf_trigger h
  | takeList j =>
    refine h.modify j _ (fun _ _ ht => triggerOk_takeList h ht) fun t _ c hc => .inl ?_
    rw [Framework.takeList] at hc
    split at hc
    · cases hc
    · exact hc
  | nextCallback j =>
    refine h.modify j _ (fun _ _ ht => triggerOk_nextCallback ht) fun t hj c hc => ?_
    rcases busy_nextCallback hc with hc | ⟨hphase, hget, henabled⟩
    · exact .inl hc
    · exact .inr fun honce => ⟨henabled, ha t hj hphase c hget honce⟩
  | filtered j action =>
    exact h.modify j _ (fun _ _ ht => triggerOk_filtered h action ht)
      fun _ _ _ hc => .inl (busy_filtered hc)
  | finished j outcome => exact wf_finished h j outcome

def registersInFront : List Action :=
  [.register 1 none 0 false false, .trigger, .takeList 0, .nextCallback 0, .filtered 0 .continue,
    .register 2 none 10 false false, .finished 0 .success, .nextCallback 0,
    .filtered 0 .continue]

/-- Two triggers run a once-only callback together. -/
def runsTogether : List Action :=
  [.register 1 none 0 true false, .trigger, .trigger, .takeList 0, .takeList 1, .nextCallback 0,
    .nextCallback 1, .filtered 0 .continue, .filtered 1 .continue, .finished 0 .success,
    .finished 1 .success]

end JiuwenSpec.Callback

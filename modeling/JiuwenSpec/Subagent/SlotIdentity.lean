import JiuwenSpec.Base.Census
import JiuwenSpec.Subagent.SubagentControl

/-!
# Slots and identities agree

As long as calls on one id do not overlap, every live worker has a slot and is the one instance of
its id, and the registry and the manager hold the same ids.
-/

namespace JiuwenSpec.Subagent

open Base List

def ControlPhase.reserves : ControlPhase → Bool
  | .creating => true
  | _ => false

def ControlCall.Holds (call : ControlCall) (x : Text) : Prop :=
  match call.phase with
  | .evicting v _ => x = v ∨ x = call.subagentId
  | .evicted | .creating | .removing _ _ | .closing _ => x = call.subagentId
  | .nextId | .ended => False

namespace SubagentControl

variable {s t : SubagentControl} {c k : Nat} {call : ControlCall} {x : Text}

def Free (s : SubagentControl) (x : Text) : Prop :=
  ∀ (c : Nat) (call : ControlCall), s.calls[c]? = some call → ¬ call.Holds x

def Stands (s : SubagentControl) (call : ControlCall) : Prop :=
  match call.phase with
  | .evicting v k =>
    assocGet? v s.instances = some k ∧ assocGet? call.subagentId s.instances = none
  | .evicted | .creating => assocGet? call.subagentId s.instances = none
  | .removing k registered =>
    assocGet? call.subagentId s.instances = some k ∧ registered = true
  | .closing k => assocGet? call.subagentId s.instances = some k
  | .nextId | .ended => True

structure Tables (s : SubagentControl) : Prop where
  room : s.table.length + s.pending ≤ s.maxSubagents
  fresh : ∀ k x, (k, x) ∈ s.workers → k < s.nextInstance
  ids : ∀ k x y, (k, x) ∈ s.workers → (k, y) ∈ s.workers → x = y
  sids : (s.workers.map Prod.snd).Nodup
  reach : ∀ k x, (k, x) ∈ s.workers ↔ assocGet? x s.instances = some k
  table : ∀ x, x ∈ s.table ↔ assocGet? x s.instances ≠ none

structure Inv (s : SubagentControl) : Prop where
  tables : s.Tables
  pending : s.pending = s.calls.countP fun call => call.phase.reserves
  stands : ∀ (c : Nat) (call : ControlCall), s.calls[c]? = some call → s.Stands call
  alone : ∀ (c c' : Nat) (call call' : ControlCall) (x : Text), s.calls[c]? = some call →
    s.calls[c']? = some call' → call.Holds x → call'.Holds x → c = c'

theorem inv_init (limit : Nat) : (init limit).Inv where
  tables := {
    room := Nat.zero_le _
    fresh := fun k x h => by cases h
    ids := fun k x y h => by cases h
    sids := .nil
    reach := fun k x => ⟨fun h => (by cases h), fun h => (by cases h)⟩
    table := fun x => ⟨fun h => (by cases h), fun h => (h rfl).elim⟩ }
  pending := rfl
  stands := fun c call h => by cases h
  alone := fun c c' call call' x h => by cases h

theorem Stands.congr (hinst : ∀ y, call.Holds y →
    assocGet? y t.instances = assocGet? y s.instances) (h : s.Stands call) : t.Stands call := by
  rcases call with ⟨admission, subagentId, rest, phase⟩
  cases phase with
  | evicting v k => exact ⟨(hinst _ (.inl rfl)).trans h.1, (hinst _ (.inr rfl)).trans h.2⟩
  | evicted => exact (hinst _ rfl).trans h
  | creating => exact (hinst _ rfl).trans h
  | removing k registered => exact ⟨(hinst _ rfl).trans h.1, h.2⟩
  | closing k => exact (hinst _ rfl).trans h
  | nextId => trivial
  | ended => trivial

theorem Inv.move (h : s.Inv) (hc : s.calls[c]? = some call) {next : ControlCall}
    (hcalls : t.calls = s.calls.set c next)
    (hholds : ∀ y, next.Holds y → call.Holds y ∨ s.Free y)
    (hinst : ∀ y, ¬ call.Holds y → assocGet? y t.instances = assocGet? y s.instances)
    (htables : t.Tables)
    (hpending : t.pending + call.phase.reserves.toNat = s.pending + next.phase.reserves.toNat)
    (hstands : t.Stands next) : t.Inv := by
  have halone : ∀ (j : Nat) (x : ControlCall) (y : Text), j ≠ c → s.calls[j]? = some x →
      x.Holds y → ¬ call.Holds y := by
    intro j x y hne hx hxy hcy
    exact hne (h.alone j c x call y hx hc hxy hcy)
  refine ⟨htables, ?_, ?_, ?_⟩
  · have hmove := countP_move (fun call : ControlCall => call.phase.reserves) hc next
    have hold := h.pending
    rw [hcalls]
    omega
  · intro j x hj
    rw [hcalls] at hj
    rcases get_set_cases hj with ⟨rfl, rfl⟩ | ⟨hne, hj⟩
    · exact hstands
    · exact Stands.congr (fun y hy => hinst y (halone j x y hne hj hy)) (h.stands j x hj)
  · have hnew : ∀ (j : Nat) (x : ControlCall) (y : Text), j ≠ c → s.calls[j]? = some x →
        x.Holds y → ¬ next.Holds y := by
      intro j x y hne hx hxy hny
      rcases hholds y hny with hcy | hfree
      · exact halone j x y hne hx hxy hcy
      · exact hfree j x hx hxy
    intro j j' x x' y hj hj' hy hy'
    rw [hcalls] at hj hj'
    rcases get_set_cases hj with ⟨rfl, rfl⟩ | ⟨hne, hold⟩
    · rcases get_set_cases hj' with ⟨rfl, _⟩ | ⟨hne', hold'⟩
      · rfl
      · exact absurd hy (hnew j' x' y hne' hold' hy')
    · rcases get_set_cases hj' with ⟨rfl, rfl⟩ | ⟨_, hold'⟩
      · exact absurd hy' (hnew j x y hne hold hy)
      · exact h.alone j j' x x' y hold hold' hy hy'

theorem Inv.addCall (h : s.Inv) {t : SubagentControl} {next : ControlCall}
    (hcalls : t.calls = s.calls ++ [next]) (hinst : t.instances = s.instances)
    (hfree : ∀ y, next.Holds y → s.Free y) (htables : t.Tables)
    (hpending : t.pending = s.pending + next.phase.reserves.toNat) (hstands : t.Stands next) :
    t.Inv := by
  refine ⟨htables, ?_, ?_, ?_⟩
  · rw [hcalls, countP_append, hpending, h.pending, countP_singleton]
    cases next.phase.reserves <;> rfl
  · intro j x hj
    rw [hcalls] at hj
    rcases get_append_cases hj with ⟨rfl, rfl⟩ | hold
    · exact hstands
    · exact Stands.congr (fun y _ => by rw [hinst]) (h.stands j x hold)
  · intro j j' x x' y hj hj' hy hy'
    rw [hcalls] at hj hj'
    rcases get_append_cases hj with ⟨rfl, rfl⟩ | hold
    · rcases get_append_cases hj' with ⟨rfl, _⟩ | hold'
      · rfl
      · exact absurd hy' (hfree y hy j' x' hold')
    · rcases get_append_cases hj' with ⟨rfl, rfl⟩ | hold'
      · exact absurd hy (hfree y hy' j x hold)
      · exact h.alone j j' x x' y hold hold' hy hy'

theorem Tables.remove (h : s.Tables) (hk : assocGet? x s.instances = some k) :
    ((s.removed x k).release x).Tables := by
  have hworkers : ∀ j y, (j, y) ∈ ((s.removed x k).release x).workers ↔
      (j, y) ∈ s.workers ∧ j ≠ k := by
    intro j y
    exact mem_filter.trans (and_congr_right fun _ => decide_eq_true_iff)
  have hinst : ∀ y, assocGet? y ((s.removed x k).release x).instances =
      if y = x then none else assocGet? y s.instances := by
    intro y
    have hsame : ((s.removed x k).release x).instances = assocDelete x s.instances := if_pos hk
    rw [hsame]
    exact assocGet?_assocDelete x s.instances y
  refine ⟨?_, ?_, ?_, ?_, ?_, ?_⟩
  · have hlen : ((s.removed x k).release x).table.length ≤ s.table.length :=
      length_filter_le _ _
    exact (Nat.add_le_add_right hlen _).trans h.room
  · exact fun j y hj => h.fresh j y ((hworkers j y).mp hj).1
  · exact fun j y z hy hz => h.ids j y z ((hworkers j y).mp hy).1 ((hworkers j z).mp hz).1
  · exact h.sids.sublist (filter_sublist.map Prod.snd)
  · intro j y
    rw [hworkers, hinst, h.reach]
    constructor
    · rintro ⟨hj, hne⟩
      rw [if_neg]
      · exact hj
      · rintro rfl
        rw [hk] at hj
        exact hne (Option.some.inj hj).symm
    · intro hj
      split at hj
      · cases hj
      · next hyx =>
        refine ⟨hj, ?_⟩
        rintro rfl
        exact hyx (h.ids j y x ((h.reach j y).mpr hj) ((h.reach j x).mpr hk))
  · intro y
    have hmem : y ∈ ((s.removed x k).release x).table ↔ y ∈ s.table ∧ y ≠ x :=
      mem_filter.trans (and_congr_right fun _ => decide_eq_true_iff)
    rw [hmem, hinst, h.table]
    by_cases hyx : y = x
    · simp [hyx]
    · simp [hyx]

theorem Tables.create (h : s.Tables) (hnone : assocGet? x s.instances = none)
    (hpending : 0 < s.pending) :
    (({ s with pending := s.pending - 1 }.create x).register x).Tables := by
  have hout : x ∉ s.table := fun hmem => (h.table x).mp hmem hnone
  have htable : (({ s with pending := s.pending - 1 }.create x).register x) =
      { ({ s with pending := s.pending - 1 }.create x) with table := s.table ++ [x] } := by
    refine if_neg ?_
    simpa [SubagentControl.create] using hout
  rw [htable]
  have hworkers : ∀ j y, (j, y) ∈ s.workers ++ [(s.nextInstance, x)] ↔
      (j, y) ∈ s.workers ∨ (j = s.nextInstance ∧ y = x) := by
    intro j y
    rw [mem_append, mem_singleton, Prod.mk.injEq]
  have hinst : ∀ y, assocGet? y (assocSet x s.nextInstance s.instances) =
      if y = x then some s.nextInstance else assocGet? y s.instances :=
    assocGet?_assocSet x s.nextInstance s.instances
  have hnew : ∀ j, (j, x) ∉ s.workers := by
    intro j hj
    rw [h.reach, hnone] at hj
    cases hj
  refine ⟨?_, ?_, ?_, ?_, ?_, ?_⟩
  · have hroom := h.room
    change (s.table ++ [x]).length + (s.pending - 1) ≤ s.maxSubagents
    rw [length_append, length_singleton]
    omega
  · intro j y hj
    change j < s.nextInstance + 1
    rcases (hworkers j y).mp hj with hold | ⟨rfl, _⟩
    · exact Nat.lt_succ_of_lt (h.fresh j y hold)
    · exact Nat.lt_succ_self _
  · intro j y z hy hz
    rcases (hworkers j y).mp hy with hold | ⟨hj, hyx⟩
    · rcases (hworkers j z).mp hz with hold' | ⟨hj, _⟩
      · exact h.ids j y z hold hold'
      · exact absurd (h.fresh _ _ hold) (hj ▸ Nat.lt_irrefl _)
    · rcases (hworkers j z).mp hz with hold' | ⟨_, hzx⟩
      · exact absurd (h.fresh _ _ hold') (hj ▸ Nat.lt_irrefl _)
      · rw [hyx, hzx]
  · change ((s.workers ++ [(s.nextInstance, x)]).map Prod.snd).Nodup
    rw [map_append, nodup_append]
    refine ⟨h.sids, nodup_singleton _, ?_⟩
    rintro y hy z hz rfl
    obtain ⟨⟨j, y⟩, hj, rfl⟩ := mem_map.mp hy
    have hyx : y = x := by simpa using hz
    subst hyx
    exact hnew j hj
  · intro j y
    change (j, y) ∈ s.workers ++ [(s.nextInstance, x)] ↔
      assocGet? y (assocSet x s.nextInstance s.instances) = some j
    rw [hworkers, hinst, h.reach]
    by_cases hyx : y = x
    · subst hyx
      rw [hnone, if_pos rfl, Option.some.injEq]
      exact ⟨fun hj => hj.elim (fun hj => by cases hj) fun hj => hj.1.symm,
        fun hj => .inr ⟨hj.symm, rfl⟩⟩
    · rw [if_neg hyx]
      exact ⟨fun hj => hj.elim id fun hj => absurd hj.2 hyx, .inl⟩
  · intro y
    change y ∈ s.table ++ [x] ↔ assocGet? y (assocSet x s.nextInstance s.instances) ≠ none
    rw [mem_append, mem_singleton, hinst, h.table]
    by_cases hyx : y = x
    · simp [hyx]
    · simp [hyx]

theorem Tables.reserve (h : s.Tables) (pending : Nat)
    (hroom : s.table.length + pending ≤ s.maxSubagents) : Tables { s with pending } :=
  ⟨hroom, h.fresh, h.ids, h.sids, h.reach, h.table⟩

theorem live_eq_false (h : s.Tables) (hlive : s.live x = false) :
    assocGet? x s.instances = none := by
  cases hget : assocGet? x s.instances with
  | none => rfl
  | some k =>
    have hmem : (k, x) ∈ s.workers := (h.reach k x).mpr hget
    rw [live, hget] at hlive
    simp only [contains_eq_mem, decide_eq_false_iff_not] at hlive
    exact absurd hmem hlive

theorem Inv.quiet (h : s.Inv) (hc : s.calls[c]? = some call)
    (hquiet : call.phase.reserves = false) {phase : ControlPhase}
    (hphase : phase = .ended ∨ phase = .nextId) : (s.setPhase c call phase).Inv := by
  refine h.move hc rfl ?_ (fun _ _ => rfl) ⟨h.tables.room, h.tables.fresh, h.tables.ids,
    h.tables.sids, h.tables.reach, h.tables.table⟩ ?_ ?_
  · rcases hphase with rfl | rfl <;> exact fun y hy => hy.elim
  · rw [hquiet]
    rcases hphase with rfl | rfl <;> rfl
  · rcases hphase with rfl | rfl <;> trivial

theorem Inv.shutdown (h : s.Inv) (hc : s.calls[c]? = some call)
    (hquiet : call.phase.reserves = false) (hx : call.Holds x)
    (hk : assocGet? x s.instances = some k) {phase : ControlPhase}
    (hphase : phase.reserves = false)
    (hholds : ∀ y, ControlCall.Holds { call with phase } y → call.Holds y)
    (hstands : Stands ((s.removed x k).release x) { call with phase }) :
    (((s.removed x k).release x).setPhase c call phase).Inv := by
  have htables := h.tables.remove hk
  refine h.move hc rfl (fun y hy => .inl (hholds y hy)) ?_ ⟨htables.room, htables.fresh,
    htables.ids, htables.sids, htables.reach, htables.table⟩ ?_ hstands
  · intro y hy
    have hne : y ≠ x := by
      rintro rfl
      exact hy hx
    have hsame : ((s.removed x k).release x).instances = assocDelete x s.instances := if_pos hk
    change assocGet? y ((s.removed x k).release x).instances = _
    rw [hsame, assocGet?_assocDelete, if_neg hne]
  · change s.pending + _ = s.pending + phase.reserves.toNat
    rw [hquiet, hphase]

theorem Inv.acquireSlot (h : s.Inv) {admission : Admission} {victim : Option Text}
    (hlive : s.live x = false) (hfree : s.Free x)
    (hvictim : s.hasRoom = false → ∀ v, victim = some v → s.live v = true → s.Free v) :
    (s.acquireSlot ⟨admission, x, [], .ended⟩ victim).Inv := by
  have hnone := live_eq_false h.tables hlive
  have hended : (s.addCall ⟨admission, x, [], .ended⟩).Inv := by
    refine h.addCall rfl rfl (fun y hy => hy.elim) ⟨h.tables.room, h.tables.fresh, h.tables.ids,
      h.tables.sids, h.tables.reach, h.tables.table⟩ rfl trivial
  rw [SubagentControl.acquireSlot.eq_def]
  split
  · next hroom =>
    have hroom : s.table.length + s.pending < s.maxSubagents := of_decide_eq_true hroom
    have htables := h.tables.reserve (s.pending + 1) hroom
    refine h.addCall rfl rfl ?_ ⟨htables.room, htables.fresh, htables.ids, htables.sids,
      htables.reach, htables.table⟩ rfl hnone
    rintro y rfl
    exact hfree
  · next hfull =>
    split
    · exact hended
    · next v =>
      split
      · next k hk =>
        split
        · next hguard =>
          refine h.addCall rfl rfl ?_ ⟨h.tables.room, h.tables.fresh, h.tables.ids,
            h.tables.sids, h.tables.reach, h.tables.table⟩ rfl ⟨hk, hnone⟩
          rintro y (rfl | rfl)
          · exact hvictim (by simpa using hfull) _ rfl hguard.2
          · exact hfree
        · exact hended
      · exact hended

theorem Inv.takeSlot (h : s.Inv) (hc : s.calls[c]? = some call)
    (hphase : call.phase = .evicted) : (s.takeSlot c call).Inv := by
  have hquiet : call.phase.reserves = false := by rw [hphase]; rfl
  have hnone : assocGet? call.subagentId s.instances = none := by
    have hst := h.stands c call hc
    rwa [Stands, hphase] at hst
  rw [SubagentControl.takeSlot]
  split
  · next hroom =>
    have hroom : s.table.length + s.pending < s.maxSubagents := of_decide_eq_true hroom
    split
    · next hguard =>
      have hlive := hguard.2
      rw [live, hnone] at hlive
      cases hlive
    · have htables := h.tables.reserve (s.pending + 1) hroom
      refine h.move hc rfl ?_ (fun _ _ => rfl) ⟨htables.room, htables.fresh, htables.ids,
        htables.sids, htables.reach, htables.table⟩ ?_ hnone
      · rintro y rfl
        left
        rw [ControlCall.Holds, hphase]
      · rw [hquiet]
        rfl
  · exact h.quiet hc hquiet (.inl rfl)

theorem Inv.created (h : s.Inv) (hc : s.calls[c]? = some call)
    (hphase : call.phase = .creating) {outcome : Creation} (houtcome : outcome ≠ .refused) :
    (s.created c call outcome).Inv := by
  have hpos : 0 < s.pending := by
    rw [h.pending]
    exact countP_pos_of_get _ hc (by rw [hphase]; rfl)
  have hnone : assocGet? call.subagentId s.instances = none := by
    have hst := h.stands c call hc
    rwa [Stands, hphase] at hst
  have hself : call.Holds call.subagentId := by rw [ControlCall.Holds, hphase]
  have htables := h.tables.create hnone hpos
  have hinst : ∀ y, ¬ call.Holds y →
      assocGet? y ((({ s with pending := s.pending - 1 }.create call.subagentId).register
        call.subagentId)).instances = assocGet? y s.instances := by
    intro y hy
    have hne : y ≠ call.subagentId := by
      rintro rfl
      exact hy hself
    have hsame : (({ s with pending := s.pending - 1 }.create call.subagentId).register
        call.subagentId).instances = assocSet call.subagentId s.nextInstance s.instances := by
      rw [register]
      split <;> rfl
    rw [hsame, assocGet?_assocSet_of_ne hne]
  have hpending : (({ s with pending := s.pending - 1 }.create call.subagentId).register
      call.subagentId).pending = s.pending - 1 := by
    rw [register]
    split <;> rfl
  have hcalls : (({ s with pending := s.pending - 1 }.create call.subagentId).register
      call.subagentId).calls = s.calls := by
    rw [register]
    split <;> rfl
  have hreserves : call.phase.reserves.toNat = 1 := by rw [hphase]; rfl
  cases outcome with
  | failed =>
    have hless := h.tables.reserve (s.pending - 1)
      ((Nat.add_le_add_left (Nat.sub_le _ _) _).trans h.tables.room)
    refine h.move hc rfl (fun y hy => hy.elim) (fun _ _ => rfl) ⟨hless.room, hless.fresh, hless.ids,
      hless.sids, hless.reach, hless.table⟩ ?_ trivial
    change s.pending - 1 + _ = s.pending + 0
    omega
  | refused => exact absurd rfl houtcome
  | rejected =>
    refine h.move hc (congrArg (List.set · c _) hcalls) ?_ hinst ⟨htables.room, htables.fresh,
      htables.ids, htables.sids, htables.reach, htables.table⟩ ?_ ⟨?_, rfl⟩
    · rintro y rfl
      exact .inl hself
    · change SubagentControl.pending (register _ _) + _ = s.pending + 0
      rw [hpending]
      omega
    · change assocGet? call.subagentId (register _ _).instances = some s.nextInstance
      have hsame : (({ s with pending := s.pending - 1 }.create call.subagentId).register
          call.subagentId).instances = assocSet call.subagentId s.nextInstance s.instances := by
        rw [register]
        split <;> rfl
      rw [hsame, assocGet?_assocSet_self]
  | admitted =>
    refine h.move hc (congrArg (List.set · c _) hcalls) (fun y hy => hy.elim) hinst ⟨htables.room,
      htables.fresh, htables.ids, htables.sids, htables.reach, htables.table⟩ ?_ trivial
    change SubagentControl.pending (register _ _) + _ = s.pending + 0
    rw [hpending]
    omega

/-- Where calls of a control do not meet: one that passes its check is alone at work on its id and
on the id it evicts, and no admission is refused between the construction and the commit. -/
def Careful (s : SubagentControl) : ControlOp → Prop
  | .spawn x victim => s.live x = false →
      s.Free x ∧ (s.hasRoom = false → ∀ v, victim = some v → s.live v = true → s.Free v)
  | .resume x known victim => s.live x = false → known = true →
      s.Free x ∧ (s.hasRoom = false → ∀ v, victim = some v → s.live v = true → s.Free v)
  | .close x running => running = false → s.Free x
  | .cancelAll => True
  | .advance c e => ∀ call, s.calls[c]? = some call →
    match e with
    | .created outcome => call.phase = .creating → outcome ≠ .refused
    | .nextId => call.phase = .nextId → ∀ x rest, call.rest = x :: rest → s.Free x
    | _ => True

theorem Inv.nextId (h : s.Inv) (hc : s.calls[c]? = some call) (hphase : call.phase = .nextId)
    (hfree : ∀ y rest, call.rest = y :: rest → s.Free y) : (s.advance c call .nextId).Inv := by
  have hquiet : call.phase.reserves = false := by rw [hphase]; rfl
  have hnone : ∀ y, ¬ call.Holds y := by
    intro y hy
    rw [ControlCall.Holds, hphase] at hy
    exact hy
  rw [SubagentControl.advance, hphase]
  cases hrest : call.rest with
  | nil => exact h.quiet hc hquiet (.inl rfl)
  | cons y rest =>
    simp only
    split
    · next k hk =>
      refine h.move hc rfl ?_ (fun _ _ => rfl) ⟨h.tables.room, h.tables.fresh, h.tables.ids,
        h.tables.sids, h.tables.reach, h.tables.table⟩ ?_ hk
      · rintro z rfl
        exact .inr (hfree _ _ hrest)
      · rw [hquiet]
        rfl
    · next hgone =>
      have hout : y ∉ s.table := fun hmem => (h.tables.table y).mp hmem hgone
      have hsame : s.release y = s := by
        rw [release, filter_eq_self.mpr]
        intro z hz
        refine decide_eq_true ?_
        rintro rfl
        exact hout hz
      rw [hsame]
      refine h.move hc rfl (fun z hz => hz.elim) (fun _ _ => rfl) ⟨h.tables.room, h.tables.fresh,
        h.tables.ids, h.tables.sids, h.tables.reach, h.tables.table⟩ ?_ trivial
      rw [hquiet]
      rfl

theorem Inv.advance (h : s.Inv) (hc : s.calls[c]? = some call) {e : ControlEvent}
    (hcare : s.Careful (.advance c e)) : (s.advance c call e).Inv := by
  have hcare := hcare call hc
  have hst := h.stands c call hc
  rw [Stands] at hst
  cases e with
  | shutdown ok =>
    rw [SubagentControl.advance]
    split
    · next v k hphase =>
      have hquiet : call.phase.reserves = false := by rw [hphase]; rfl
      rw [hphase] at hst
      split
      · refine h.shutdown hc hquiet (by rw [ControlCall.Holds, hphase]; exact .inl rfl) hst.1 rfl
          ?_ ?_
        · rintro y rfl
          rw [ControlCall.Holds, hphase]
          exact .inr rfl
        · have hsame : ((s.removed v k).release v).instances = assocDelete v s.instances :=
            if_pos hst.1
          change assocGet? call.subagentId ((s.removed v k).release v).instances = none
          rw [hsame, assocGet?_assocDelete, hst.2, ite_self]
      · exact h.quiet hc hquiet (.inl rfl)
    · next k registered hphase =>
      have hquiet : call.phase.reserves = false := by rw [hphase]; rfl
      rw [hphase] at hst
      obtain ⟨hk, rfl⟩ := hst
      split
      · rw [if_pos rfl]
        refine h.shutdown hc hquiet (by rw [ControlCall.Holds, hphase]) hk rfl
          (fun y hy => hy.elim) trivial
      · exact h.quiet hc hquiet (.inl rfl)
    · next k hphase =>
      have hquiet : call.phase.reserves = false := by rw [hphase]; rfl
      rw [hphase] at hst
      split
      · refine h.shutdown hc hquiet (by rw [ControlCall.Holds, hphase]) hst rfl
          (fun y hy => hy.elim) trivial
      · exact h.quiet hc hquiet (.inr rfl)
    · exact h
  | persisted =>
    rw [SubagentControl.advance]
    split
    · next hphase => exact h.takeSlot hc hphase
    · exact h
  | created outcome =>
    rw [SubagentControl.advance]
    split
    · next hphase => exact h.created hc hphase (hcare hphase)
    · exact h
  | nextId =>
    by_cases hphase : call.phase = .nextId
    · exact h.nextId hc hphase (hcare hphase)
    · rw [SubagentControl.advance]
      split
      · next hphase' _ => exact absurd hphase' hphase
      · next hphase' _ => exact absurd hphase' hphase
      · exact h

theorem Inv.step (h : s.Inv) {op : ControlOp} (hcare : s.Careful op) : (s.step op).Inv := by
  cases op with
  | spawn x victim =>
    rw [SubagentControl.step]
    split
    · exact h
    · next hlive =>
      have hlive : s.live x = false := by simpa using hlive
      exact h.acquireSlot hlive (hcare hlive).1 (hcare hlive).2
  | resume x known victim =>
    rw [SubagentControl.step]
    split
    · exact h
    · next hguard =>
      obtain ⟨hlive, hknown⟩ : s.live x = false ∧ known = true := by
        cases hl : s.live x <;> cases known <;> simp [hl] at hguard ⊢
      exact h.acquireSlot hlive (hcare hlive hknown).1 (hcare hlive hknown).2
  | close x running =>
    rw [SubagentControl.step]
    split
    · next k hk =>
      split
      · exact h
      · next hidle =>
        refine h.addCall rfl rfl ?_ ⟨h.tables.room, h.tables.fresh, h.tables.ids, h.tables.sids,
          h.tables.reach, h.tables.table⟩ rfl hk
        rintro y rfl
        exact hcare (by simpa using hidle)
    · exact h
  | cancelAll =>
    exact h.addCall rfl rfl (fun y hy => hy.elim) ⟨h.tables.room, h.tables.fresh, h.tables.ids,
      h.tables.sids, h.tables.reach, h.tables.table⟩ rfl trivial
  | advance c e =>
    rw [SubagentControl.step]
    split
    · next call hc => exact h.advance hc hcare
    · exact h

/-- There are at most `max_subagents` workers, at most one for each id, and each is the instance
that the manager has under its id. -/
def Bounded (s : SubagentControl) : Prop :=
  s.workers.length ≤ s.maxSubagents ∧
    (∀ k k' x, (k, x) ∈ s.workers → (k', x) ∈ s.workers → k = k') ∧
    ∀ k x, (k, x) ∈ s.workers → assocGet? x s.instances = some k

/-- When no call is in progress, the registry and the manager have the same ids, and no slot is
reserved. -/
def Rested (s : SubagentControl) : Prop :=
  (∀ call ∈ s.calls, call.phase = .ended) →
    (∀ x, x ∈ s.table ↔ assocGet? x s.instances ≠ none) ∧ s.pending = 0

theorem Inv.bounded (h : s.Inv) : s.Bounded := by
  have hsub : ∀ x ∈ s.workers.map Prod.snd, x ∈ s.table := by
    intro x hx
    obtain ⟨⟨k, x⟩, hk, rfl⟩ := mem_map.mp hx
    refine (h.tables.table x).mpr ?_
    rw [(h.tables.reach k x).mp hk]
    exact Option.some_ne_none k
  refine ⟨?_, fun k k' x hk hk' => ?_, fun k x hk => (h.tables.reach k x).mp hk⟩
  · have hlen := (subperm_of_subset h.tables.sids hsub).length_le
    rw [length_map] at hlen
    have hroom := h.tables.room
    omega
  · have hget := (h.tables.reach k x).mp hk
    rw [(h.tables.reach k' x).mp hk'] at hget
    exact (Option.some.inj hget).symm

theorem Inv.rested (h : s.Inv) : s.Rested := by
  refine fun hended => ⟨h.tables.table, ?_⟩
  rw [h.pending, countP_eq_zero]
  intro call hcall
  rw [hended call hcall]
  decide

/-- **Slots and identities.** In a run whose calls do not meet on an id, the workers are bounded,
unique and reachable, and the tables agree at rest. -/
theorem slots_and_identities (limit : Nat) (ops : List ControlOp)
    (h : Meets step Careful (init limit) ops) (t : SubagentControl)
    (ht : Reached step (init limit) ops t) : t.Bounded ∧ t.Rested := by
  have hinv : t.Inv :=
    reached_invariant (I := Inv) (fun _ _ hs hc => Inv.step hs hc) (inv_init limit) h ht
  exact ⟨hinv.bounded, hinv.rested⟩

def plainRun : List ControlOp :=
  [.spawn ['a'] none, .advance 0 (.created .admitted), .close ['a'] false,
    .advance 1 (.shutdown true), .advance 1 .nextId]

theorem slots_and_identities_plainRun :
    (run step (init 1) plainRun).Bounded ∧ (run step (init 1) plainRun).Rested := by
  refine slots_and_identities 1 plainRun ?_ _ ⟨plainRun, prefix_rfl, rfl⟩
  refine ⟨?_, ?_, ?_, ?_, ?_, trivial⟩
  · refine fun _ => ⟨?_, fun hroom => by cases hroom⟩
    rintro c call hc
    cases hc
  · rintro call ⟨⟩
    rintro _ ⟨⟩
  · rintro _ (_ | c) call hc
    · cases hc
      exact fun hx => hx
    · cases hc
  · rintro call ⟨⟩
    trivial
  · rintro call ⟨⟩
    rintro _ x rest ⟨⟩

/-- Two calls spawn the same id. -/
def twinRun : List ControlOp :=
  [.spawn ['a'] none, .spawn ['a'] none, .advance 0 (.created .admitted),
    .advance 1 (.created .admitted)]

/-- The first worker is lost. -/
theorem twin_spawn_leaks :
    ¬ ∀ (limit : Nat) (ops : List ControlOp) (t : SubagentControl),
      Reached step (init limit) ops t → t.Bounded ∧ t.Rested := by
  intro h
  have huniq := (h 2 twinRun _ ⟨twinRun, prefix_rfl, rfl⟩).1.2.1 0 1 ['a'] (.head _)
    (.tail _ (.head _))
  cases huniq

end SubagentControl

end JiuwenSpec.Subagent

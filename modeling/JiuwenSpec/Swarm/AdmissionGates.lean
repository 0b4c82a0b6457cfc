import JiuwenSpec.Base.Census
import JiuwenSpec.Swarm.Admission

/-!
# What two-level admission keeps

Every slot is free, granted or held by an agent, at both levels; so the caps hold, and where someone
waits, someone runs or is about to go on.
Source: `agent_teams/workflow/concurrency.py`.
-/

namespace JiuwenSpec.Admission

open Base List Option

def holdsRun (w : Nat) (ag : Agent) : Bool :=
  decide (ag.run = w ∧ (ag.phase = .between ∨ ag.phase = .global ∨ ag.phase = .running))

def holdsGlobal (ag : Agent) : Bool := decide (ag.phase = .running)

/-- The slots of both levels are accounted for, the waiters of a semaphore are the agents in the
phase of it, and only `mid` is between the two. -/
structure Accounted (cap total : Nat) (mid : Option Nat) (s : AgentSlots) : Prop where
  perRun : ∀ (w : Nat) (sem : Semaphore Nat), s.perRunSems[w]? = some sem →
    sem.Sound cap (s.agents.countP (holdsRun w))
  perRunKeys : ∀ (w : Nat) (sem : Semaphore Nat), s.perRunSems[w]? = some sem →
    ∀ a, a ∈ sem.keys ↔ ∃ ag, s.agents[a]? = some ag ∧ ag.run = w ∧ ag.phase = .perRun
  global : s.globalSem.Sound total (s.agents.countP holdsGlobal)
  globalKeys : ∀ a, a ∈ s.globalSem.keys ↔ ∃ ag, s.agents[a]? = some ag ∧ ag.phase = .global
  between : ∀ (a : Nat) (ag : Agent), s.agents[a]? = some ag → ag.phase = .between → mid = some a
  runs : ∀ (a : Nat) (ag : Agent), s.agents[a]? = some ag → ag.run < s.perRunSems.length

variable {sem sem' : Semaphore Nat}

section Moves

variable {cap total : Nat} {mid : Option Nat} {s : AgentSlots} {a : Nat} {ag ag' : Agent}

theorem setAgent_iff {agents : List Agent} (hag : agents[a]? = some ag) {P : Agent → Prop}
    (b : Nat) :
    (∃ x, (agents.set a ag')[b]? = some x ∧ P x) ↔
      if b = a then P ag' else ∃ x, agents[b]? = some x ∧ P x := by
  by_cases hb : b = a
  · subst hb
    rw [if_pos rfl, List.getElem?_set_self (List.getElem?_eq_some_iff.mp hag).1]
    exact ⟨fun ⟨x, hx, hp⟩ => some.inj hx ▸ hp, fun hp => ⟨ag', rfl, hp⟩⟩
  · rw [if_neg hb, List.getElem?_set_ne (Ne.symm hb)]

theorem mid_of_set (h : Accounted cap total mid s) (hmid : ∀ b, mid = some b → b = a) {b : Nat}
    {x : Agent} (hx : (s.agents.set a ag')[b]? = some x) (hbetween : x.phase = .between) :
    (if ag'.phase = .between then some a else none) = some b := by
  rcases get_set_cases hx with ⟨rfl, rfl⟩ | ⟨hne, hold⟩
  · exact if_pos hbetween
  · exact absurd (hmid b (h.between b x hold hbetween)) hne

theorem runs_of_set (h : Accounted cap total mid s) (hag : s.agents[a]? = some ag)
    (hrun : ag'.run = ag.run) {b : Nat} {x : Agent} (hx : (s.agents.set a ag')[b]? = some x) :
    x.run < s.perRunSems.length := by
  rcases get_set_cases hx with ⟨-, rfl⟩ | ⟨-, hold⟩
  · exact hrun ▸ h.runs a ag hag
  · exact h.runs b x hold

theorem Accounted.movePerRun (h : Accounted cap total mid s) (hag : s.agents[a]? = some ag)
    (hsem : s.perRunSems[ag.run]? = some sem)
    (hrun : ag'.run = ag.run) (hold : ag.phase ≠ .global ∧ ag.phase ≠ .running)
    (hnew : ag'.phase ≠ .global ∧ ag'.phase ≠ .running) (hmid : ∀ b, mid = some b → b = a)
    (hsound : ∀ n, sem.Sound cap (n + (holdsRun ag.run ag).toNat) →
      sem'.Sound cap (n + (holdsRun ag.run ag').toNat))
    (hkeys : ∀ b, b ∈ sem'.keys ↔ if b = a then ag'.phase = .perRun else b ∈ sem.keys) :
    Accounted cap total (if ag'.phase = .between then some a else none)
      ((s.setPerRun ag.run sem').setAgent a ag') := by
  have hlength : ag.run < s.perRunSems.length := (List.getElem?_eq_some_iff.mp hsem).1
  have hagents : ((s.setPerRun ag.run sem').setAgent a ag').agents = s.agents.set a ag' := rfl
  refine ⟨fun w x hx => ?_, fun w x hx b => ?_, ?_, fun b => ?_, fun b x hx hbetween => ?_,
    fun b x hx => ?_⟩
  · rw [hagents]
    have hmove := countP_move (holdsRun w) hag ag'
    change (s.perRunSems.set ag.run sem')[w]? = some x at hx
    by_cases hw : w = ag.run
    · subst hw
      rw [List.getElem?_set_self hlength, some.injEq] at hx
      subst hx
      have hcount := h.perRun _ sem hsem
      have hpos : (holdsRun ag.run ag).toNat ≤ s.agents.countP (holdsRun ag.run) := by
        cases hholds : holdsRun ag.run ag with
        | false => exact Nat.zero_le _
        | true => exact countP_pos_of_get _ hag hholds
      have hsplit : s.agents.countP (holdsRun ag.run) =
          s.agents.countP (holdsRun ag.run) - (holdsRun ag.run ag).toNat +
            (holdsRun ag.run ag).toNat := by omega
      rw [hsplit] at hcount
      have hafter : (s.agents.set a ag').countP (holdsRun ag.run) =
          s.agents.countP (holdsRun ag.run) - (holdsRun ag.run ag).toNat +
            (holdsRun ag.run ag').toNat := by omega
      rw [hafter]
      exact hsound _ hcount
    · rw [List.getElem?_set_ne (Ne.symm hw)] at hx
      have hbefore : holdsRun w ag = false := by simp [holdsRun, Ne.symm hw]
      have hafter : holdsRun w ag' = false := by simp [holdsRun, hrun, Ne.symm hw]
      rw [hbefore, hafter] at hmove
      have heq : (s.agents.set a ag').countP (holdsRun w) = s.agents.countP (holdsRun w) := hmove
      rw [heq]
      exact h.perRun w x hx
  · rw [hagents, setAgent_iff hag]
    change (s.perRunSems.set ag.run sem')[w]? = some x at hx
    by_cases hw : w = ag.run
    · subst hw
      rw [List.getElem?_set_self hlength, some.injEq] at hx
      subst hx
      rw [hkeys]
      by_cases hb : b = a
      · simp [hb, hrun]
      · rw [if_neg hb, if_neg hb]
        exact h.perRunKeys _ sem hsem b
    · rw [List.getElem?_set_ne (Ne.symm hw)] at hx
      rw [h.perRunKeys w x hx b]
      by_cases hb : b = a
      · subst hb
        rw [if_pos rfl]
        refine iff_of_false ?_ fun hp => hw (hp.1.symm.trans hrun)
        rintro ⟨y, hy, hyw, -⟩
        exact hw (hyw.symm.trans (congrArg Agent.run (some.inj (hy.symm.trans hag))))
      · rw [if_neg hb]
  · rw [hagents]
    have hmove := countP_move holdsGlobal hag ag'
    have hbefore : holdsGlobal ag = false := by simp [holdsGlobal, hold.2]
    have hafter : holdsGlobal ag' = false := by simp [holdsGlobal, hnew.2]
    rw [hbefore, hafter] at hmove
    have heq : (s.agents.set a ag').countP holdsGlobal = s.agents.countP holdsGlobal := hmove
    rw [heq]
    exact h.global
  · rw [hagents, setAgent_iff hag]
    change b ∈ s.globalSem.keys ↔ _
    rw [h.globalKeys b]
    by_cases hb : b = a
    · subst hb
      rw [if_pos rfl]
      refine iff_of_false ?_ hnew.1
      rintro ⟨y, hy, hyphase⟩
      exact hold.1 (some.inj (hy.symm.trans hag) ▸ hyphase)
    · rw [if_neg hb]
  · exact mid_of_set h hmid hx hbetween
  · change x.run < (s.perRunSems.set ag.run sem').length
    rw [length_set]
    exact runs_of_set h hag hrun hx

theorem Accounted.moveGlobal (h : Accounted cap total mid s) (hag : s.agents[a]? = some ag)
    (hrun : ag'.run = ag.run)
    (hold : ag.phase = .between ∨ ag.phase = .global ∨ ag.phase = .running)
    (hnew : ag'.phase = .between ∨ ag'.phase = .global ∨ ag'.phase = .running)
    (hmid : ∀ b, mid = some b → b = a)
    (hsound : ∀ n, s.globalSem.Sound total (n + (holdsGlobal ag).toNat) →
      sem'.Sound total (n + (holdsGlobal ag').toNat))
    (hkeys : ∀ b, b ∈ sem'.keys ↔ if b = a then ag'.phase = .global else b ∈ s.globalSem.keys) :
    Accounted cap total (if ag'.phase = .between then some a else none)
      ({ s with globalSem := sem' }.setAgent a ag') := by
  have hagents : ({ s with globalSem := sem' }.setAgent a ag' : AgentSlots).agents =
      s.agents.set a ag' := rfl
  refine ⟨fun w x hx => ?_, fun w x hx b => ?_, ?_, fun b => ?_, fun b x hx hbetween => ?_,
    fun b x hx => ?_⟩
  · rw [hagents]
    have hmove := countP_move (holdsRun w) hag ag'
    have hsame : holdsRun w ag = holdsRun w ag' := by simp [holdsRun, hrun, hold, hnew]
    rw [hsame] at hmove
    have heq := Nat.add_right_cancel hmove
    rw [heq]
    exact h.perRun w x hx
  · rw [hagents, setAgent_iff hag]
    rw [h.perRunKeys w x hx b]
    by_cases hb : b = a
    · subst hb
      rw [if_pos rfl]
      refine iff_of_false ?_ fun hp => ?_
      · rintro ⟨y, hy, -, hyphase⟩
        rw [some.inj (hag.symm.trans hy), hyphase] at hold
        revert hold
        decide
      · rw [hp.2] at hnew
        revert hnew
        decide
    · rw [if_neg hb]
  · rw [hagents]
    have hmove := countP_move holdsGlobal hag ag'
    have hcount := h.global
    have hpos : (holdsGlobal ag).toNat ≤ s.agents.countP holdsGlobal := by
      cases hholds : holdsGlobal ag with
      | false => exact Nat.zero_le _
      | true => exact countP_pos_of_get _ hag hholds
    have hsplit : s.agents.countP holdsGlobal =
        s.agents.countP holdsGlobal - (holdsGlobal ag).toNat + (holdsGlobal ag).toNat := by omega
    rw [hsplit] at hcount
    have hafter : (s.agents.set a ag').countP holdsGlobal =
        s.agents.countP holdsGlobal - (holdsGlobal ag).toNat + (holdsGlobal ag').toNat := by omega
    rw [hafter]
    exact hsound _ hcount
  · rw [hagents, setAgent_iff hag]
    change b ∈ sem'.keys ↔ _
    rw [hkeys]
    by_cases hb : b = a
    · rw [if_pos hb, if_pos hb]
    · rw [if_neg hb, if_neg hb]
      exact h.globalKeys b
  · exact mid_of_set h hmid hx hbetween
  · exact runs_of_set h hag hrun hx

end Moves

section Steps

variable {cap total : Nat} {s : AgentSlots} {a : Nat} {ag : Agent}

theorem agents_setAgent (hag : s.agents[a]? = some ag) (ag' : Agent) :
    (s.setAgent a ag').agents[a]? = some ag' :=
  List.getElem?_set_self (List.getElem?_eq_some_iff.mp hag).1

theorem Accounted.acquireGlobal (h : Accounted cap total (some a) s)
    (hag : s.agents[a]? = some ag) (hbetween : ag.phase = .between) :
    Accounted cap total none (s.acquireGlobal a ag) := by
  have hmid : ∀ b, some a = some b → b = a := fun b hb => (some.inj hb).symm
  have hnotKey : a ∉ s.globalSem.keys := by
    rw [h.globalKeys a]
    rintro ⟨y, hy, hphase⟩
    rw [some.inj (hy.symm.trans hag), hbetween] at hphase
    cases hphase
  have hheld : (holdsGlobal ag).toNat = 0 := by simp [holdsGlobal, hbetween]
  rw [AgentSlots.acquireGlobal]
  by_cases hlocked : s.globalSem.Locked
  · rw [if_pos hlocked]
    refine h.moveGlobal hag (ag.moveTo_run .global) (.inl hbetween) (.inr (.inl rfl)) hmid
      (fun n hn => ?_) fun b => ?_
    · rw [hheld] at hn
      exact (hn.acquire_wait hlocked hnotKey).1
    · rw [(h.global.acquire_wait hlocked hnotKey).2]
      by_cases hb : b = a
      · simp [hb]
      · simp [hb]
  · rw [if_neg hlocked]
    refine h.moveGlobal hag (ag.moveTo_run .running) (.inl hbetween) (.inr (.inr rfl)) hmid
      (fun n hn => ?_) fun b => ?_
    · rw [hheld] at hn
      exact (hn.acquire_free hlocked).1
    · rw [(h.global.acquire_free hlocked).2]
      by_cases hb : b = a
      · simp [hb, hnotKey]
      · simp [hb]

theorem Accounted.releasePerRun (h : Accounted cap total (some a) s)
    (hag : s.agents[a]? = some ag) (hbetween : ag.phase = .between) :
    Accounted cap total none (s.releasePerRun a ag) := by
  have hmid : ∀ b, some a = some b → b = a := fun b hb => (some.inj hb).symm
  obtain ⟨sem, hsem⟩ : ∃ sem, s.perRunSems[ag.run]? = some sem :=
    ⟨_, List.getElem?_eq_getElem (h.runs a ag hag)⟩
  have hnotKey : a ∉ sem.keys := by
    rw [h.perRunKeys _ sem hsem a]
    rintro ⟨y, hy, -, hphase⟩
    rw [some.inj (hy.symm.trans hag), hbetween] at hphase
    cases hphase
  have hheld : (holdsRun ag.run ag).toNat = 1 := by simp [holdsRun, hbetween]
  have hafter : (holdsRun ag.run (ag.moveTo .outside)).toNat = 0 := by simp [holdsRun]
  rw [AgentSlots.releasePerRun, hsem]
  refine h.movePerRun hag hsem (ag.moveTo_run .outside) (by simp [hbetween]) (by simp) hmid
    (fun n hn => ?_) fun b => ?_
  · rw [hheld] at hn
    rw [hafter]
    exact hn.release
  · rw [Semaphore.keys_release]
    by_cases hb : b = a
    · simp [hb, hnotKey]
    · simp [hb]

theorem Accounted.exitGlobal (h : Accounted cap total none s) (hag : s.agents[a]? = some ag)
    (hphase : ag.phase = .global ∨ ag.phase = .running)
    (hsound : ∀ n, s.globalSem.Sound total (n + (holdsGlobal ag).toNat) → sem.Sound total n)
    (hkeys : ∀ b, b ∈ sem.keys ↔ b ≠ a ∧ b ∈ s.globalSem.keys) :
    Accounted cap total none (s.exitGlobal a ag sem) := by
  have hmid : ∀ b, (none : Option Nat) = some b → b = a := nofun
  have hmove := h.moveGlobal hag (ag.moveTo_run .between) (.inr hphase) (.inl rfl) hmid
    hsound fun b => (hkeys b).trans (by by_cases hb : b = a <;> simp [hb])
  have hget : ({ s with globalSem := sem }.setAgent a (ag.moveTo .between)).agents[a]? =
      some (ag.moveTo .between) := agents_setAgent hag _
  have hdone := hmove.releasePerRun hget rfl
  exact hdone

theorem Accounted.exitPerRun (h : Accounted cap total none s) (hag : s.agents[a]? = some ag)
    (hphase : ag.phase = .perRun) (hsem : s.perRunSems[ag.run]? = some sem)
    (hsound : ∀ n, sem.Sound cap n → sem'.Sound cap n)
    (hkeys : ∀ b, b ∈ sem'.keys ↔ b ≠ a ∧ b ∈ sem.keys) :
    Accounted cap total none (s.exitPerRun a ag sem') := by
  have hheld : (holdsRun ag.run ag).toNat = 0 := by simp [holdsRun, hphase]
  have hafter : (holdsRun ag.run (ag.moveTo .outside)).toNat = 0 := by simp [holdsRun]
  refine h.movePerRun hag hsem (ag.moveTo_run .outside) (by simp [hphase]) (by simp) nofun
    (fun n hn => ?_) fun b => ?_
  · rw [hheld] at hn
    rw [hafter]
    exact hsound n hn
  · rw [hkeys]
    by_cases hb : b = a
    · simp [hb]
    · simp [hb]

theorem Accounted.takePerRun (h : Accounted cap total none s) (hag : s.agents[a]? = some ag)
    (hphase : ag.phase = .outside ∨ ag.phase = .perRun) (hsem : s.perRunSems[ag.run]? = some sem)
    (hsound : ∀ n, sem.Sound cap n → sem'.Sound cap (n + 1))
    (hkeys : ∀ b, b ∈ sem'.keys ↔ b ≠ a ∧ b ∈ sem.keys) :
    Accounted cap total none
      (((s.setPerRun ag.run sem').setAgent a (ag.moveTo .between)).acquireGlobal a ag) := by
  have hheld : (holdsRun ag.run ag).toNat = 0 := by
    rcases hphase with hphase | hphase <;> simp [holdsRun, hphase]
  have hother : ag.phase ≠ .global ∧ ag.phase ≠ .running := by
    rcases hphase with hphase | hphase <;> simp [hphase]
  have hafter : (holdsRun ag.run (ag.moveTo .between)).toNat = 1 := by simp [holdsRun]
  have hmove : Accounted cap total (some a)
      ((s.setPerRun ag.run sem').setAgent a (ag.moveTo .between)) := by
    refine h.movePerRun hag hsem (ag.moveTo_run .between) hother (by simp) nofun
      (fun n hn => ?_) fun b => ?_
    · rw [hheld] at hn
      rw [hafter]
      exact hsound n hn
    · rw [hkeys]
      by_cases hb : b = a
      · simp [hb]
      · simp [hb]
  have hget : ((s.setPerRun ag.run sem').setAgent a (ag.moveTo .between)).agents[a]? =
      some (ag.moveTo .between) := agents_setAgent hag _
  have hdone := hmove.acquireGlobal hget rfl
  exact hdone

theorem Accounted.acquirePerRun (h : Accounted cap total none s) (hag : s.agents[a]? = some ag)
    (hphase : ag.phase = .outside) : Accounted cap total none (s.acquirePerRun a ag) := by
  obtain ⟨sem, hsem⟩ : ∃ sem, s.perRunSems[ag.run]? = some sem :=
    ⟨_, List.getElem?_eq_getElem (h.runs a ag hag)⟩
  have hnotKey : a ∉ sem.keys := by
    rw [h.perRunKeys _ sem hsem a]
    rintro ⟨y, hy, -, hother⟩
    rw [some.inj (hy.symm.trans hag), hphase] at hother
    cases hother
  rw [AgentSlots.acquirePerRun, hsem]
  by_cases hlocked : sem.Locked
  · simp only [if_pos hlocked]
    have hheld : (holdsRun ag.run ag).toNat = 0 := by simp [holdsRun, hphase]
    have hafter : (holdsRun ag.run (ag.moveTo .perRun)).toNat = 0 := by simp [holdsRun]
    refine h.movePerRun hag hsem (ag.moveTo_run .perRun) (by simp [hphase]) (by simp) nofun
      (fun n hn => ?_) fun b => ?_
    · rw [hheld] at hn
      rw [hafter]
      exact (hn.acquire_wait hlocked hnotKey).1
    · rw [((h.perRun _ sem hsem).acquire_wait hlocked hnotKey).2]
      by_cases hb : b = a
      · simp [hb]
      · simp [hb]
  · simp only [if_neg hlocked]
    refine h.takePerRun hag (.inl hphase) hsem (fun n hn => (hn.acquire_free hlocked).1) fun b => ?_
    rw [((h.perRun _ sem hsem).acquire_free hlocked).2]
    constructor
    · exact fun hb => ⟨fun heq => hnotKey (heq ▸ hb), hb⟩
    · exact fun hb => hb.2

theorem Accounted.turn (h : Accounted cap total none s) (a : Nat) :
    Accounted cap total none (s.turn a) := by
  rw [AgentSlots.turn]
  cases hag : s.agents[a]? with
  | none => exact h
  | some ag =>
    simp only
    cases hphase : ag.phase with
    | outside => exact h
    | between => exact h
    | running => exact h
    | perRun =>
      simp only
      cases hsem : s.perRunSems[ag.run]? with
      | none => exact h
      | some sem =>
        simp only
        cases hget : sem.get? a with
        | none => exact h
        | some f =>
          cases f with
          | pending => exact h
          | cancelled =>
            exact h.exitPerRun hag hphase hsem (fun n hn => hn.leave hget) (sem.keys_leave a)
          | granted =>
            simp only
            by_cases hcancel : ag.mustCancel = true
            · rw [if_pos hcancel]
              exact h.exitPerRun hag hphase hsem (fun n hn => hn.giveBack hget)
                (sem.keys_giveBack a)
            · rw [if_neg hcancel]
              exact h.takePerRun hag (.inr hphase) hsem (fun n hn => hn.proceed hget)
                (sem.keys_proceed a)
    | global =>
      have hheld : (holdsGlobal ag).toNat = 0 := by simp [holdsGlobal, hphase]
      simp only
      cases hget : s.globalSem.get? a with
      | none => exact h
      | some f =>
        cases f with
        | pending => exact h
        | cancelled =>
          refine h.exitGlobal hag (.inl hphase) (fun n hn => ?_) (s.globalSem.keys_leave a)
          rw [hheld] at hn
          exact hn.leave hget
        | granted =>
          simp only
          by_cases hcancel : ag.mustCancel = true
          · rw [if_pos hcancel]
            refine h.exitGlobal hag (.inl hphase) (fun n hn => ?_) (s.globalSem.keys_giveBack a)
            rw [hheld] at hn
            exact hn.giveBack hget
          · rw [if_neg hcancel]
            refine h.moveGlobal hag (ag.moveTo_run .running) (.inr (.inl hphase))
              (.inr (.inr rfl)) nofun (fun n hn => ?_) fun b => ?_
            · rw [hheld] at hn
              exact hn.proceed hget
            · rw [Semaphore.keys_proceed]
              by_cases hb : b = a
              · simp [hb]
              · simp [hb]

theorem Accounted.cancel (h : Accounted cap total none s) (a : Nat) :
    Accounted cap total none (s.cancel a) := by
  rw [AgentSlots.cancel]
  cases hag : s.agents[a]? with
  | none => exact h
  | some ag =>
    simp only
    cases hphase : ag.phase with
    | outside => exact h
    | between => exact h
    | running => exact h
    | perRun =>
      simp only
      cases hsem : s.perRunSems[ag.run]? with
      | none => exact h
      | some sem =>
        simp only
        have hkey : a ∈ sem.keys := (h.perRunKeys _ sem hsem a).mpr ⟨ag, hag, rfl, hphase⟩
        have hmove := h.movePerRun hag hsem
          (rfl : ({ ag with mustCancel := ag.mustCancel || decide (sem.get? a = some .granted) }
            : Agent).run = ag.run) (by simp [hphase]) (by simp [hphase]) nofun
          (fun n hn => (hn.cancel a).1) fun b => ((h.perRun _ sem hsem).cancel a).2 b |>.trans
            (by by_cases hb : b = a <;> simp [hb, hphase, hkey])
        simpa [hphase] using hmove
    | global =>
      simp only
      have hkey : a ∈ s.globalSem.keys := (h.globalKeys a).mpr ⟨ag, hag, hphase⟩
      have hmove := h.moveGlobal hag
        (rfl : ({ ag with
          mustCancel := ag.mustCancel || decide (s.globalSem.get? a = some .granted) }
            : Agent).run = ag.run) (.inr (.inl hphase)) (.inr (.inl hphase)) nofun
        (fun n hn => (hn.cancel a).1) fun b => (h.global.cancel a).2 b |>.trans
          (by by_cases hb : b = a <;> simp [hb, hphase, hkey])
      simpa [hphase] using hmove

theorem Accounted.enter (h : Accounted cap total none s) (a : Nat) :
    Accounted cap total none (s.enter a) := by
  rw [AgentSlots.enter]
  cases hag : s.agents[a]? with
  | none => exact h
  | some ag =>
    simp only
    by_cases hphase : ag.phase = .outside
    · rw [if_pos hphase]
      exact h.acquirePerRun hag hphase
    · rw [if_neg hphase]
      exact h

theorem Accounted.finish (h : Accounted cap total none s) (a : Nat) :
    Accounted cap total none (s.finish a) := by
  rw [AgentSlots.finish]
  cases hag : s.agents[a]? with
  | none => exact h
  | some ag =>
    simp only
    by_cases hphase : ag.phase = .running
    · rw [if_pos hphase]
      have hheld : (holdsGlobal ag).toNat = 1 := by simp [holdsGlobal, hphase]
      have hnotKey : a ∉ s.globalSem.keys := by
        rw [h.globalKeys a]
        rintro ⟨y, hy, hother⟩
        rw [some.inj (hy.symm.trans hag), hphase] at hother
        cases hother
      refine h.exitGlobal hag (.inr hphase) (fun n hn => ?_) fun b => ?_
      · rw [hheld] at hn
        exact hn.release
      · rw [Semaphore.keys_release]
        exact ⟨fun hb => ⟨fun heq => hnotKey (heq ▸ hb), hb⟩, fun hb => hb.2⟩
    · rw [if_neg hphase]
      exact h

theorem Accounted.spawn (h : Accounted cap total none s) (w : Nat) :
    Accounted cap total none (s.spawn w) := by
  rw [AgentSlots.spawn]
  by_cases hw : w < s.perRunSems.length
  · rw [if_pos hw]
    have hnew : ∀ (P : Agent → Prop), ¬ P { run := w } → ∀ b : Nat,
        (∃ x, (s.agents ++ [{ run := w }])[b]? = some x ∧ P x) ↔
          ∃ x, s.agents[b]? = some x ∧ P x := by
      intro P hP b
      constructor
      · rintro ⟨x, hx, hp⟩
        rcases get_append_cases hx with ⟨-, rfl⟩ | hold
        · exact absurd hp hP
        · exact ⟨x, hold, hp⟩
      · rintro ⟨x, hx, hp⟩
        refine ⟨x, ?_, hp⟩
        rw [List.getElem?_append_left (List.getElem?_eq_some_iff.mp hx).1]
        exact hx
    refine ⟨fun v x hx => ?_, fun v x hx b => ?_, ?_, fun b => ?_, fun b x hx hbetween => ?_,
      fun b x hx => ?_⟩
    · have hcount : (s.agents ++ [({ run := w } : Agent)]).countP (holdsRun v) =
          s.agents.countP (holdsRun v) := by simp [holdsRun]
      rw [hcount]
      exact h.perRun v x hx
    · rw [hnew _ (fun hp => nomatch hp.2)]
      exact h.perRunKeys v x hx b
    · have hcount : (s.agents ++ [({ run := w } : Agent)]).countP holdsGlobal =
          s.agents.countP holdsGlobal := by simp [holdsGlobal]
      rw [hcount]
      exact h.global
    · rw [hnew _ nofun]
      exact h.globalKeys b
    · rcases get_append_cases hx with ⟨-, rfl⟩ | hold
      · cases hbetween
      · exact h.between b x hold hbetween
    · rcases get_append_cases hx with ⟨-, rfl⟩ | hold
      · exact hw
      · exact h.runs b x hold
  · rw [if_neg hw]
    exact h

theorem Accounted.addRun (h : Accounted cap total none s) :
    Accounted cap total none { s with perRunSems := s.perRunSems ++ [{ value := cap }] } := by
  have hfresh : ∀ ag ∈ s.agents, ag.run ≠ s.perRunSems.length := by
    intro ag hag
    obtain ⟨b, hb⟩ := List.getElem?_of_mem hag
    exact Nat.ne_of_lt (h.runs b ag hb)
  refine ⟨fun w x hx => ?_, fun w x hx b => ?_, h.global, h.globalKeys, h.between, fun b x hx => ?_⟩
  · rcases get_append_cases hx with ⟨rfl, rfl⟩ | hold
    · have hnone : s.agents.countP (holdsRun s.perRunSems.length) = 0 := by
        rw [countP_eq_zero]
        intro ag hag hholds
        exact hfresh ag hag (of_decide_eq_true hholds).1
      rw [hnone]
      exact ⟨nodup_nil, rfl, fun _ hpending => absurd hpending (Nat.lt_irrefl 0)⟩
    · exact h.perRun w x hold
  · rcases get_append_cases hx with ⟨rfl, rfl⟩ | hold
    · refine iff_of_false nofun ?_
      rintro ⟨ag, hag, hrun, -⟩
      exact hfresh ag (mem_of_getElem? hag) hrun
    · exact h.perRunKeys w x hold b
  · rw [length_append]
    exact Nat.lt_add_right _ (h.runs b x hx)

end Steps

structure Ticketed (limits : ConcurrencyLimits) (t : TicketTable) : Prop where
  length : t.runs.length = t.nextTicket
  own : ∀ (w : Nat) (r : WorkflowRun), t.runs[w]? = some r → r.ticket = w
  nodup : t.activeTickets.Nodup
  active : ∀ w, w ∈ t.activeTickets ↔ ∃ r, t.runs[w]? = some r ∧ r.phase = .admitted
  count : t.runs.countP (fun r => decide (r.phase = .admitted)) = t.activeTickets.length
  bound : (t.activeTickets.length : Int) ≤ limits.maxWorkflows

section Tickets

variable {limits : ConcurrencyLimits} {t : TicketTable}

theorem Ticketed.mint (h : Ticketed limits t) (hroom : t.Admits limits) :
    Ticketed limits t.mint := by
  have hfresh : t.nextTicket ∉ t.activeTickets := by
    rw [h.active]
    rintro ⟨r, hr, -⟩
    exact Nat.lt_irrefl _ (h.length ▸ (List.getElem?_eq_some_iff.mp hr).1)
  refine ⟨?_, fun w r hr => ?_, ?_, fun w => ?_, ?_, ?_⟩
  · simp [TicketTable.mint, h.length]
  · rcases get_append_cases hr with ⟨rfl, rfl⟩ | hold
    · exact h.length.symm
    · exact h.own w r hold
  · rw [TicketTable.mint, nodup_append]
    refine ⟨h.nodup, nodup_singleton _, fun j hj _ hmem heq => hfresh ?_⟩
    exact mem_singleton.mp hmem ▸ heq ▸ hj
  · simp only [TicketTable.mint, mem_append, mem_singleton, h.active]
    constructor
    · rintro (⟨r, hr, hphase⟩ | rfl)
      · refine ⟨r, ?_, hphase⟩
        rw [List.getElem?_append_left (List.getElem?_eq_some_iff.mp hr).1]
        exact hr
      · rw [← h.length, List.getElem?_concat_length]
        exact ⟨_, rfl, rfl⟩
    · rintro ⟨r, hr, hphase⟩
      rcases get_append_cases hr with ⟨rfl, -⟩ | hold
      · exact .inr h.length
      · exact .inl ⟨r, hold, hphase⟩
  · simp [TicketTable.mint, h.count]
  · have hlength : t.mint.activeTickets.length = t.activeTickets.length + 1 := by
      simp [TicketTable.mint]
    rw [hlength]
    rw [TicketTable.Admits] at hroom
    omega

theorem Ticketed.close (h : Ticketed limits t) (w : Nat) : Ticketed limits (t.close w) := by
  rw [TicketTable.close]
  cases hr : t.runs[w]? with
  | none => exact h
  | some r =>
    have hown := h.own w r hr
    have herase : t.activeTickets.erase r.ticket = t.activeTickets.erase w := by rw [hown]
    simp only [TicketTable.releaseWorkflow]
    have hmove := countP_move (fun r => decide (r.phase = .admitted)) hr
      { r with phase := .ended }
    refine ⟨?_, fun v x hx => ?_, h.nodup.erase _, fun v => ?_, ?_, ?_⟩
    · exact length_set.trans h.length
    · rcases get_set_cases hx with ⟨rfl, rfl⟩ | ⟨-, hold⟩
      · exact hown
      · exact h.own v x hold
    · change v ∈ t.activeTickets.erase r.ticket ↔ _
      rw [hown, h.nodup.mem_erase_iff, h.active]
      constructor
      · rintro ⟨hv, x, hx, hphase⟩
        exact ⟨x, by rw [List.getElem?_set_ne (Ne.symm hv)]; exact hx, hphase⟩
      · rintro ⟨x, hx, hphase⟩
        rcases get_set_cases hx with ⟨-, rfl⟩ | ⟨hv, hold⟩
        · cases hphase
        · exact ⟨hv, x, hold, hphase⟩
    · change (t.runs.set w { r with phase := .ended }).countP _ =
        (t.activeTickets.erase r.ticket).length
      rw [herase]
      have hcount := h.count
      by_cases hphase : r.phase = .admitted
      · have hmem : w ∈ t.activeTickets := (h.active w).mpr ⟨r, hr, hphase⟩
        have hpos : 0 < t.activeTickets.length := length_pos_of_mem hmem
        rw [length_erase_of_mem hmem]
        simp only [hphase, decide_true, Bool.toNat_true, reduceCtorEq, decide_false,
          Bool.toNat_false] at hmove
        omega
      · have hmem : w ∉ t.activeTickets := by
          rw [h.active]
          rintro ⟨x, hx, hadmitted⟩
          exact hphase (some.inj (hr.symm.trans hx) ▸ hadmitted)
        rw [erase_of_not_mem hmem]
        simp only [hphase, reduceCtorEq, decide_false, Bool.toNat_false] at hmove
        omega
    · have hle : (t.activeTickets.erase r.ticket).length ≤ t.activeTickets.length :=
        erase_sublist.length_le
      exact Int.le_trans (Int.ofNat_le.mpr hle) h.bound

theorem Ticketed.relaunch (h : Ticketed limits t) (w : Nat) : Ticketed limits (t.relaunch w) := by
  rw [TicketTable.relaunch]
  cases hr : t.runs[w]? with
  | none => exact h
  | some r =>
    by_cases hphase : r.phase = .ended
    · simp only [if_pos hphase]
      have hmove := countP_move (fun r => decide (r.phase = .admitted)) hr
        { r with phase := .resumed }
      refine ⟨?_, fun v x hx => ?_, h.nodup, fun v => ?_, ?_, h.bound⟩
      · rw [length_set]
        exact h.length
      · rcases get_set_cases hx with ⟨rfl, rfl⟩ | ⟨-, hold⟩
        · exact h.own _ r hr
        · exact h.own v x hold
      · rw [h.active]
        constructor
        · rintro ⟨x, hx, hadmitted⟩
          have hv : v ≠ w := by
            rintro rfl
            rw [← some.inj (hr.symm.trans hx), hphase] at hadmitted
            cases hadmitted
          exact ⟨x, by rw [List.getElem?_set_ne (Ne.symm hv)]; exact hx, hadmitted⟩
        · rintro ⟨x, hx, hadmitted⟩
          rcases get_set_cases hx with ⟨-, rfl⟩ | ⟨hv, hold⟩
          · cases hadmitted
          · exact ⟨x, hold, hadmitted⟩
      · change (t.runs.set w { r with phase := .resumed }).countP _ = t.activeTickets.length
        have hcount := h.count
        simp only [hphase, reduceCtorEq, decide_false, Bool.toNat_false] at hmove
        omega
    · simp only [if_neg hphase]
      exact h

end Tickets

structure Inv (limits : ConcurrencyLimits) (cap : Int) (g : Governor) : Prop where
  slots : Accounted cap.toNat limits.maxAgentsTotal.toNat none g.slots
  tickets : Ticketed limits g.tickets

theorem limits_of_valid {cpuCount : Option Nat} {limits : ConcurrencyLimits} {cap : Int}
    (h : validateSwarmflowConcurrency cpuCount limits = .ok cap) :
    1 ≤ limits.maxWorkflows ∧ 1 ≤ limits.maxAgentsTotal ∧ 1 ≤ cap := by
  rw [validateSwarmflowConcurrency] at h
  by_cases hworkflows : limits.maxWorkflows < 1
  · rw [if_pos hworkflows] at h
    cases h
  rw [if_neg hworkflows] at h
  by_cases htotal : limits.maxAgentsTotal < 1
  · rw [if_pos htotal] at h
    cases h
  rw [if_neg htotal] at h
  have hcap : resolveAgentsPerRunCap cpuCount limits.agentsPerRun = cap := by
    split at h
    · cases h
    split at h
    · cases h
    split at h
    · cases h
    exact Except.ok.inj h
  refine ⟨Int.not_lt.mp hworkflows, Int.not_lt.mp htotal, ?_⟩
  rw [← hcap, resolveAgentsPerRunCap.eq_def]
  split
  · exact Int.le_max_left _ _
  · exact Int.le_max_left _ _

section Inv

variable {limits : ConcurrencyLimits} {cap : Int} {g : Governor}

theorem inv_init (h : 1 ≤ limits.maxWorkflows) : Inv limits cap (Governor.init limits) where
  slots := {
    perRun := nofun
    perRunKeys := nofun
    global := ⟨nodup_nil, rfl, fun _ hpending => absurd hpending (Nat.lt_irrefl 0)⟩
    globalKeys := fun _ => ⟨nofun, nofun⟩
    between := nofun
    runs := nofun }
  tickets := {
    length := rfl
    own := nofun
    nodup := nodup_nil
    active := fun _ => ⟨nofun, nofun⟩
    count := rfl
    bound := Int.le_of_lt h }

theorem Inv.step (h : Inv limits cap g) (op : Op) : Inv limits cap (g.step limits cap op) := by
  cases op with
  | admitWorkflow =>
    change Inv limits cap (g.admitWorkflow limits cap)
    rw [Governor.admitWorkflow]
    by_cases hroom : g.tickets.Admits limits
    · rw [if_pos hroom]
      exact ⟨h.slots.addRun, h.tickets.mint hroom⟩
    · rw [if_neg hroom]
      exact h
  | close w => exact ⟨h.slots, h.tickets.close w⟩
  | relaunch w => exact ⟨h.slots, h.tickets.relaunch w⟩
  | spawn w => exact ⟨h.slots.spawn w, h.tickets⟩
  | enter a => exact ⟨h.slots.enter a, h.tickets⟩
  | turn a => exact ⟨h.slots.turn a, h.tickets⟩
  | cancel a => exact ⟨h.slots.cancel a, h.tickets⟩
  | finish a => exact ⟨h.slots.finish a, h.tickets⟩

theorem holdersOf_eq (h : Inv limits cap g) (w : Nat) :
    g.slots.agents.countP (holdsRun w) = g.holdersOf w := by
  refine countP_congr fun ag hag => ?_
  obtain ⟨a, ha⟩ := List.getElem?_of_mem hag
  have hbetween : ag.phase ≠ .between := fun heq => nomatch h.slots.between a ag ha heq
  simp [holdsRun, hbetween]

theorem future_global {a : Nat} {ag : Agent} (hag : g.slots.agents[a]? = some ag)
    (hphase : ag.phase = .global) : g.future a = g.slots.globalSem.get? a := by
  simp [Governor.future, hag, hphase]

theorem future_perRun {a : Nat} {ag : Agent}
    (hag : g.slots.agents[a]? = some ag) (hphase : ag.phase = .perRun)
    (hsem : g.slots.perRunSems[ag.run]? = some sem) : g.future a = sem.get? a := by
  simp [Governor.future, hag, hphase, hsem]

theorem ready_of_global (h : Inv limits cap g) {a : Nat} {f : Future}
    (hget : g.slots.globalSem.get? a = some f) (hf : f ≠ .pending) : g.Ready a := by
  obtain ⟨ag, hag, hphase⟩ := (h.slots.globalKeys a).mp (Semaphore.get?_isSome_iff.mp ⟨f, hget⟩)
  rw [Governor.Ready, future_global hag hphase, hget]
  cases f with
  | pending => exact absurd rfl hf
  | granted => exact .inl rfl
  | cancelled => exact .inr rfl

theorem live_global (h : Inv limits cap g) (htotal : 1 ≤ limits.maxAgentsTotal) {a : Nat}
    (hpending : g.slots.globalSem.get? a = some .pending) :
    (∃ b, g.Runs b) ∨ ∃ b, g.Ready b := by
  by_cases hgranted : ∃ b, g.slots.globalSem.get? b = some .granted
  · obtain ⟨b, hb⟩ := hgranted
    exact .inr ⟨b, ready_of_global h hb nofun⟩
  · left
    have hfull := h.slots.global.full_of_pending hpending fun b hb => hgranted ⟨b, hb⟩
    have hpos : 0 < g.slots.agents.countP holdsGlobal := by omega
    obtain ⟨ag, hmem, hrunning⟩ := countP_pos_iff.mp hpos
    obtain ⟨b, hb⟩ := List.getElem?_of_mem hmem
    exact ⟨b, ag, hb, of_decide_eq_true hrunning⟩

theorem live_of_holder (h : Inv limits cap g) (htotal : 1 ≤ limits.maxAgentsTotal) {w b : Nat}
    {ag : Agent} (hb : g.slots.agents[b]? = some ag) (hholds : holdsRun w ag = true) :
    (∃ b, g.Runs b) ∨ ∃ b, g.Ready b := by
  rcases (of_decide_eq_true hholds).2 with hbetween | hglobal | hrunning
  · exact nomatch h.slots.between b ag hb hbetween
  · obtain ⟨f, hf⟩ := Semaphore.get?_isSome_iff.mpr ((h.slots.globalKeys b).mpr ⟨ag, hb, hglobal⟩)
    by_cases hpending : f = .pending
    · exact live_global h htotal (hpending ▸ hf)
    · exact .inr ⟨b, ready_of_global h hf hpending⟩
  · exact .inl ⟨b, ag, hb, hrunning⟩

theorem live_perRun (h : Inv limits cap g) (htotal : 1 ≤ limits.maxAgentsTotal) (hcap : 1 ≤ cap)
    {a w : Nat} (hsem : g.slots.perRunSems[w]? = some sem)
    (hpending : sem.get? a = some .pending) : (∃ b, g.Runs b) ∨ ∃ b, g.Ready b := by
  by_cases hgranted : ∃ b, sem.get? b = some .granted
  · obtain ⟨b, hb⟩ := hgranted
    obtain ⟨ag, hag, hrun, hphase⟩ :=
      (h.slots.perRunKeys w sem hsem b).mp (Semaphore.get?_isSome_iff.mp ⟨_, hb⟩)
    subst hrun
    refine .inr ⟨b, .inl ?_⟩
    rw [future_perRun hag hphase hsem, hb]
  · have hfull := (h.slots.perRun w sem hsem).full_of_pending hpending
      fun b hb => hgranted ⟨b, hb⟩
    have hpos : 0 < g.slots.agents.countP (holdsRun w) := by omega
    obtain ⟨ag, hmem, hholds⟩ := countP_pos_iff.mp hpos
    obtain ⟨b, hb⟩ := List.getElem?_of_mem hmem
    exact live_of_holder h htotal hb hholds

theorem live_of_waits (h : Inv limits cap g) (htotal : 1 ≤ limits.maxAgentsTotal)
    (hcap : 1 ≤ cap) {a : Nat} (hwaits : g.Waits a) : (∃ b, g.Runs b) ∨ ∃ b, g.Ready b := by
  rw [Governor.Waits] at hwaits
  cases hag : g.slots.agents[a]? with
  | none => simp [Governor.future, hag] at hwaits
  | some ag =>
    cases hphase : ag.phase with
    | outside => simp [Governor.future, hag, hphase] at hwaits
    | between => simp [Governor.future, hag, hphase] at hwaits
    | running => simp [Governor.future, hag, hphase] at hwaits
    | global => exact live_global h htotal (future_global hag hphase ▸ hwaits)
    | perRun =>
      cases hsem : g.slots.perRunSems[ag.run]? with
      | none => simp [Governor.future, hag, hphase, hsem] at hwaits
      | some sem => exact live_perRun h htotal hcap hsem (future_perRun hag hphase hsem ▸ hwaits)

theorem runningOf_le (h : Inv limits cap g) (hcap : 1 ≤ cap) (w : Nat) :
    (g.runningOf w : Int) ≤ cap := by
  have hmono : g.runningOf w ≤ g.slots.agents.countP (holdsRun w) := by
    refine countP_mono_left fun ag _ hag => decide_eq_true ?_
    exact ⟨(of_decide_eq_true hag).1, .inr (.inr (of_decide_eq_true hag).2)⟩
  cases hsem : g.slots.perRunSems[w]? with
  | some sem =>
    have hslots := (h.slots.perRun w sem hsem).slots
    omega
  | none =>
    have hnone : g.slots.agents.countP (holdsRun w) = 0 := by
      rw [countP_eq_zero]
      intro ag hag hholds
      obtain ⟨a, ha⟩ := List.getElem?_of_mem hag
      have hlt := h.slots.runs a ag ha
      rw [(of_decide_eq_true hholds).1] at hlt
      exact absurd hlt (Nat.not_lt.mpr (List.getElem?_eq_none_iff.mp hsem))
    omega

theorem runningAgents_le (h : Inv limits cap g) (htotal : 1 ≤ limits.maxAgentsTotal) :
    (g.runningAgents : Int) ≤ limits.maxAgentsTotal := by
  have hslots := h.slots.global.slots
  have hsame : g.slots.agents.countP holdsGlobal = g.runningAgents := rfl
  omega

end Inv

/-- **Two-level admission.** In every state of every run the running agents of a run and of all
keep to their caps, and the runs with a ticket to theirs; every slot is free, on its way to a waiter
or held by one agent, and every active ticket by one run; and where an agent waits for a slot, some
agent runs or is about to go on. -/
theorem admission_keeps_caps (cpuCount : Option Nat) (limits : ConcurrencyLimits) (cap : Int)
    (hvalid : validateSwarmflowConcurrency cpuCount limits = .ok cap) (ops : List Op)
    (g : Governor) (hreached : Reached (Governor.step limits cap) (.init limits) ops g) :
    (∀ w, (g.runningOf w : Int) ≤ cap) ∧
    (g.runningAgents : Int) ≤ limits.maxAgentsTotal ∧
    (g.admittedRuns : Int) ≤ limits.maxWorkflows ∧
    (∀ (w : Nat) (sem : Semaphore Nat), g.slots.perRunSems[w]? = some sem →
      sem.value + sem.count .granted + g.holdersOf w = cap.toNat) ∧
    g.slots.globalSem.value + g.slots.globalSem.count .granted + g.runningAgents =
      limits.maxAgentsTotal.toNat ∧
    g.tickets.activeTickets.Nodup ∧
    (∀ w, w ∈ g.tickets.activeTickets ↔
      ∃ r, g.tickets.runs[w]? = some r ∧ r.phase = .admitted) ∧
    ((∃ a, g.Waits a) → (∃ a, g.Runs a) ∨ ∃ a, g.Ready a) := by
  obtain ⟨hworkflows, htotal, hcap⟩ := limits_of_valid hvalid
  have hmeets : Meets (Governor.step limits cap) (fun _ _ => True) (.init limits) ops :=
    meets_of_forall (fun _ _ _ => True.intro) _
  have h : Inv limits cap g :=
    reached_invariant (fun _ op hinv _ => hinv.step op) (inv_init hworkflows) hmeets hreached
  refine ⟨runningOf_le h hcap, runningAgents_le h htotal, ?_, fun w sem hsem => ?_,
    h.slots.global.slots, h.tickets.nodup, h.tickets.active,
    fun ⟨a, ha⟩ => live_of_waits h htotal hcap ha⟩
  · have hcount := h.tickets.count
    have hbound := h.tickets.bound
    rw [← hcount] at hbound
    exact hbound
  · rw [← holdersOf_eq h w]
    exact (h.slots.perRun w sem hsem).slots

def oneOfEach : ConcurrencyLimits := ⟨1, some 1, 1⟩

/-- Two agents of a run, one behind the other, the second cancelled as it was granted its slot. -/
def plainRun : List Op :=
  [.admitWorkflow, .spawn 0, .enter 0, .spawn 0, .enter 1, .finish 0, .cancel 1, .turn 1, .close 0]

/-- A plain run gives everything back. -/
theorem plainRun_admitted :
    (run (Governor.step oneOfEach 1) (.init oneOfEach) plainRun).runningAgents = 0 ∧
    (run (Governor.step oneOfEach 1) (.init oneOfEach) plainRun).slots.globalSem.value = 1 := by
  have hslots := (admission_keeps_caps none oneOfEach 1 rfl plainRun
    (run (Governor.step oneOfEach 1) (.init oneOfEach) plainRun)
    ⟨plainRun, prefix_refl _, rfl⟩).2.2.2.2.1
  exact ⟨by decide, by revert hslots; decide⟩

/-- A run that is paused gives its ticket back; another is admitted, and the first one resumed. -/
def resumedRun : List Op := [.admitWorkflow, .close 0, .admitWorkflow, .relaunch 0]

/-- The first of three agents ends: the second is granted its slot and has not yet gone on. -/
def handedRun : List Op :=
  [.admitWorkflow, .spawn 0, .enter 0, .spawn 0, .enter 1, .spawn 0, .enter 2, .finish 0]

/-- The runs that run overrun their maximum where one is resumed, and an agent waits while none
runs where a slot was handed over. -/
theorem admission_overruns :
    (¬ ∀ (limits : ConcurrencyLimits) (cap : Int) (ops : List Op) (g : Governor),
      validateSwarmflowConcurrency none limits = .ok cap →
        Reached (Governor.step limits cap) (.init limits) ops g →
          (g.runningWorkflows : Int) ≤ limits.maxWorkflows) ∧
    (¬ ∀ (limits : ConcurrencyLimits) (cap : Int) (ops : List Op) (g : Governor),
      validateSwarmflowConcurrency none limits = .ok cap →
        Reached (Governor.step limits cap) (.init limits) ops g →
          (∃ a, g.Waits a) → 0 < g.runningAgents) := by
  constructor
  · intro h
    have hle := h oneOfEach 1 resumedRun _ rfl ⟨resumedRun, prefix_refl _, rfl⟩
    revert hle
    decide
  · intro h
    have hpos := h oneOfEach 1 handedRun _ rfl ⟨handedRun, prefix_refl _, rfl⟩ ⟨2, rfl⟩
    revert hpos
    decide

end JiuwenSpec.Admission

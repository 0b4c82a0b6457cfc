import JiuwenSpec.Base.Census
import JiuwenSpec.Team.LeaderRuntime

/-!
# One leader per team

Runs and stops of a team may overlap as long as an agent is built or resumed only when nobody else
is building or taking away, and as long as no run settles an entry that is not its own.
-/

namespace JiuwenSpec.Team

open Base List

namespace ManagerPhase

/-- The agent that is stopped, and whose entry is removed by name. -/
def removes : ManagerPhase → Option Nat
  | .evicting a | .stopping a | .settling a _ => some a
  | _ => none

def plain : ManagerPhase → Bool
  | .inspecting _ | .resuming _ | .preparing | .pausing _ | .ended => true
  | _ => false

theorem removes_of_plain {p : ManagerPhase} (h : p.plain = true) : p.removes = none := by
  cases p <;> first | rfl | cases h

end ManagerPhase

namespace RuntimeManager

variable {s t : RuntimeManager} {a c : Nat} {call : ManagerCall} {p : ManagerPhase}

def At (s : RuntimeManager) (c : Nat) (p : ManagerPhase) : Prop :=
  ∃ call : ManagerCall, s.calls[c]? = some call ∧ call.phase = p

def Removing (s : RuntimeManager) : Prop := ∃ c p a, s.At c p ∧ p.removes = some a

/-- A call has built an agent that is not in the pool yet. -/
def Building (s : RuntimeManager) : Prop := ∃ c a, s.At c (.building a)

structure Inv (s : RuntimeManager) : Prop where
  pooled : ∀ (a : Nat) (g : Leader), s.leaders[a]? = some g → g.stopped = false →
    s.pool = some a ∨ ∃ c, s.At c (.building a)
  building : ∀ c a, s.At c (.building a) → s.pool = none ∧ a < s.leaders.length ∧ ¬ s.Removing ∧
    (∀ c' a', s.At c' (.building a') → c' = c) ∧ ∀ c' n, ¬ s.At c' (.running a n)
  removing : ∀ c p a, s.At c p → p.removes = some a → s.pool = none ∨ s.pool = some a
  running : ∀ c a n, s.At c (.running a n) → a < s.leaders.length ∧
    ∀ c' n', s.At c' (.running a n') → c' = c
  settling : ∀ c a own, s.At c (.settling a own) →
    ∃ (n : Nat) (g : Leader), own = some (a, n) ∧ s.leaders[a]? = some g ∧ g.cycles = n

theorem inv_init : init.Inv where
  pooled := fun a g h => by cases h
  building := by rintro c a ⟨call, h, _⟩; cases h
  removing := by rintro c p a ⟨call, h, _⟩; cases h
  running := by rintro c a n ⟨call, h, _⟩; cases h
  settling := by rintro c a own ⟨call, h, _⟩; cases h

variable {q : ManagerPhase}

theorem At.unique (h : s.At c p) (h' : s.At c q) : q = p := by
  obtain ⟨x, hx, rfl⟩ := h
  obtain ⟨y, hy, rfl⟩ := h'
  rw [hx] at hy
  rw [Option.some.inj hy]

theorem at_setPhase {c' : Nat} (h : (s.setPhase c call p).At c' q) :
    (c' = c ∧ q = p) ∨ (c' ≠ c ∧ s.At c' q) := by
  obtain ⟨x, hx, rfl⟩ := h
  rcases get_set_cases hx with ⟨rfl, rfl⟩ | ⟨hne, hx⟩
  · exact .inl ⟨rfl, rfl⟩
  · exact .inr ⟨hne, x, hx, rfl⟩

theorem at_setPhase_of_ne {c' : Nat} (hne : c' ≠ c) (h : s.At c' q) :
    (s.setPhase c call p).At c' q := by
  obtain ⟨x, hx, rfl⟩ := h
  exact ⟨x, (List.getElem?_set_ne (Ne.symm hne)).trans hx, rfl⟩

theorem at_setPhase_self (hc : s.calls[c]? = some call) : (s.setPhase c call p).At c p :=
  ⟨{ call with phase := p }, List.getElem?_set_self (List.getElem?_eq_some_iff.mp hc).1, rfl⟩

variable {sessionId : Text}

theorem at_addCall {c' : Nat}
    (h : (s.addCall sessionId p).At c' q) : (c' = s.calls.length ∧ q = p) ∨ s.At c' q := by
  obtain ⟨x, hx, rfl⟩ := h
  rcases get_append_cases hx with ⟨rfl, rfl⟩ | hx
  · exact .inl ⟨rfl, rfl⟩
  · exact .inr ⟨x, hx, rfl⟩

theorem at_addCall_of_at {c' : Nat} (h : s.At c' q) : (s.addCall sessionId p).At c' q := by
  obtain ⟨x, hx, rfl⟩ := h
  exact ⟨x, (List.getElem?_append_left (List.getElem?_eq_some_iff.mp hx).1).trans hx, rfl⟩

theorem Inv.moves (h : s.Inv) (hleaders : t.leaders = s.leaders) (hpool : t.pool = s.pool)
    (hback : ∀ c q, t.At c q → s.At c q ∨ q.plain = true ∨ ∃ a, s.pool = some a ∧
      (q = .evicting a ∨ q = .stopping a ∨ ∃ n g, q = .settling a (some (a, n)) ∧
        s.leaders[a]? = some g ∧ g.cycles = n))
    (hkeep : ∀ c a, s.At c (.building a) → t.At c (.building a)) : t.Inv := by
  have hbuilding : ∀ c a, t.At c (.building a) → s.At c (.building a) := by
    intro c a hat
    rcases hback c _ hat with hat | hplain | ⟨b, _, hq | hq | ⟨n, g, hq, _⟩⟩
    · exact hat
    · cases hplain
    all_goals cases hq
  have hrunning : ∀ c a n, t.At c (.running a n) → s.At c (.running a n) := by
    intro c a n hat
    rcases hback c _ hat with hat | hplain | ⟨b, _, hq | hq | ⟨m, g, hq, _⟩⟩
    · exact hat
    · cases hplain
    all_goals cases hq
  have hremoving : ∀ c q a, t.At c q → q.removes = some a → s.At c q ∨ s.pool = some a := by
    intro c q a hat hq
    rcases hback c q hat with hat | hplain | ⟨b, hb, rfl | rfl | ⟨n, g, rfl, _⟩⟩
    · exact .inl hat
    · rw [ManagerPhase.removes_of_plain hplain] at hq
      cases hq
    all_goals
      cases hq
      exact .inr hb
  refine ⟨?_, ?_, ?_, ?_, ?_⟩
  · intro a g hg hstopped
    rw [hleaders] at hg
    rw [hpool]
    rcases h.pooled a g hg hstopped with hold | ⟨c, hc⟩
    · exact .inl hold
    · exact .inr ⟨c, hkeep c a hc⟩
  · intro c a hat
    obtain ⟨hnone, hlen, hquiet, huniq, hrun⟩ := h.building c a (hbuilding c a hat)
    rw [hpool, hleaders]
    refine ⟨hnone, hlen, ?_, fun c' a' hat' => huniq c' a' (hbuilding c' a' hat'),
      fun c' n hat' => hrun c' n (hrunning c' a n hat')⟩
    rintro ⟨c', q, b, hat', hq⟩
    rcases hremoving c' q b hat' hq with hold | hsome
    · exact hquiet ⟨c', q, b, hold, hq⟩
    · rw [hnone] at hsome
      cases hsome
  · intro c q a hat hq
    rw [hpool]
    rcases hremoving c q a hat hq with hold | hsome
    · exact h.removing c q a hold hq
    · exact .inr hsome
  · intro c a n hat
    rw [hleaders]
    obtain ⟨hlen, huniq⟩ := h.running c a n (hrunning c a n hat)
    exact ⟨hlen, fun c' n' hat' => huniq c' n' (hrunning c' a n' hat')⟩
  · intro c a own hat
    rw [hleaders]
    rcases hback c _ hat with hat | hplain | ⟨b, _, hq | hq | ⟨n, g, hq, hg, hn⟩⟩
    · exact h.settling c a own hat
    · cases hplain
    · cases hq
    · cases hq
    · cases hq
      exact ⟨n, g, rfl, hg, hn⟩

theorem Inv.setPhase (h : s.Inv) (hc : s.calls[c]? = some call)
    (hold : ∀ a, call.phase ≠ .building a) (hp : p.plain = true) : (s.setPhase c call p).Inv := by
  refine h.moves rfl rfl ?_ ?_
  · intro c' q hat
    rcases at_setPhase hat with ⟨_, rfl⟩ | ⟨_, hat⟩
    · exact .inr (.inl hp)
    · exact .inl hat
  · intro c' a hat
    refine at_setPhase_of_ne ?_ hat
    rintro rfl
    exact hold a (At.unique ⟨call, hc, rfl⟩ hat).symm

theorem resolve_eq_some (h : s.resolve sessionId = some a) : s.pool = some a := by
  rw [resolve] at h
  split at h
  · cases h
  · next hpool =>
    split at h
    · cases h
    · split at h
      · cases h
        exact hpool
      · cases h

theorem Inv.addCall (h : s.Inv)
    (hp : p.plain = true ∨ ∃ a, s.pool = some a ∧ (p = .evicting a ∨ p = .stopping a)) :
    (s.addCall sessionId p).Inv := by
  refine h.moves rfl rfl ?_ fun c' a hat => at_addCall_of_at hat
  intro c' q hat
  rcases at_addCall hat with ⟨_, rfl⟩ | hat
  · rcases hp with hp | ⟨a, ha, hp⟩
    · exact .inr (.inl hp)
    · exact .inr (.inr ⟨a, ha, hp.imp_right .inl⟩)
  · exact .inl hat

theorem Inv.run (h : s.Inv) (sessionId : Text) : (s.run sessionId).Inv := by
  rw [RuntimeManager.run]
  split
  · exact h.addCall (.inl rfl)
  · next a hpool =>
    split
    · exact h.addCall (.inl rfl)
    · exact h.addCall (.inr ⟨a, hpool, .inl rfl⟩)

theorem Inv.finalize (h : s.Inv) (hc : s.calls[c]? = some call)
    (hold : ∀ a, call.phase ≠ .building a) {own : Option (Nat × Nat)}
    (hown : ∀ a, s.resolve call.sessionId = some a →
      ∃ (n : Nat) (g : Leader), own = some (a, n) ∧ s.leaders[a]? = some g ∧ g.cycles = n) :
    (s.finalize c call own).Inv := by
  rw [RuntimeManager.finalize]
  split
  · next a hresolve =>
    obtain ⟨n, g, rfl, hg, hn⟩ := hown a hresolve
    refine h.moves rfl rfl ?_ ?_
    · intro c' q hat
      rcases at_setPhase hat with ⟨_, rfl⟩ | ⟨_, hat⟩
      · exact .inr (.inr ⟨a, resolve_eq_some hresolve, .inr (.inr ⟨n, g, rfl, hg, hn⟩)⟩)
      · exact .inl hat
    · intro c' b hat
      refine at_setPhase_of_ne ?_ hat
      rintro rfl
      exact hold b (At.unique ⟨call, hc, rfl⟩ hat).symm
  · exact h.setPhase hc hold rfl

@[simp] theorem modify_calls (s : RuntimeManager) (a : Nat) (f : Leader → Leader) :
    (s.modify a f).calls = s.calls := by
  rw [modify]
  split <;> rfl

@[simp] theorem modify_pool (s : RuntimeManager) (a : Nat) (f : Leader → Leader) :
    (s.modify a f).pool = s.pool := by
  rw [modify]
  split <;> rfl

theorem modify_leaders (s : RuntimeManager) (a : Nat) (f : Leader → Leader) (b : Nat) :
    (s.modify a f).leaders[b]? = (s.leaders[b]?).map fun g => if b = a then f g else g := by
  rw [modify]
  split
  · next g hg =>
    by_cases hba : b = a
    · subst hba
      rw [List.getElem?_set_self (List.getElem?_eq_some_iff.mp hg).1, hg]
      simp
    · rw [List.getElem?_set_ne (Ne.symm hba)]
      simp [hba]
  · next hnone =>
    by_cases hba : b = a
    · subst hba
      rw [hnone]
      rfl
    · simp [hba]

theorem modify_length (s : RuntimeManager) (a : Nat) (f : Leader → Leader) :
    (s.modify a f).leaders.length = s.leaders.length := by
  rw [modify]
  split
  · exact length_set
  · rfl

theorem at_of_calls (hcalls : t.calls = s.calls) : t.At c q ↔ s.At c q := by
  rw [At, At, hcalls]

theorem Inv.modify (h : s.Inv) {f : Leader → Leader} {pool : Option Nat}
    (hstopped : ∀ g, (f g).stopped = false → g.stopped = false)
    (hcycles : ∀ g, (f g).cycles = g.cycles)
    (hpool : pool = s.pool ∨ (pool = none ∧ s.Removing ∧ ∀ (b : Nat) (g : Leader),
      (s.modify a f).leaders[b]? = some g → g.stopped = false → s.pool ≠ some b)) :
    Inv { s.modify a f with pool } := by
  have hcalls : ({ s.modify a f with pool } : RuntimeManager).calls = s.calls :=
    modify_calls s a f
  have hat : ∀ c q, RuntimeManager.At { s.modify a f with pool } c q ↔ s.At c q :=
    fun c q => at_of_calls hcalls
  have hrem : RuntimeManager.Removing { s.modify a f with pool } ↔ s.Removing := by
    simp only [Removing, hat]
  refine ⟨?_, ?_, ?_, ?_, ?_⟩
  · intro b g' hg' hg's
    have hleaders := modify_leaders s a f b
    have hg'' : (s.modify a f).leaders[b]? = some g' := hg'
    rw [hg''] at hleaders
    obtain ⟨g, hg, hfg⟩ := Option.map_eq_some_iff.mp hleaders.symm
    have hgs : g.stopped = false := by
      split at hfg
      · exact hstopped g (by rw [hfg]; exact hg's)
      · rw [hfg]; exact hg's
    rcases h.pooled b g hg hgs with hold | ⟨c, hc⟩
    · rcases hpool with rfl | ⟨_, _, hnot⟩
      · exact .inl hold
      · exact absurd hold (hnot b g' hg'' hg's)
    · exact .inr ⟨c, (hat _ _).mpr hc⟩
  · intro c b hb
    obtain ⟨hnone, hlen, hquiet, huniq, hrun⟩ := h.building c b ((hat _ _).mp hb)
    refine ⟨?_, ?_, ?_, fun c' a' ha' => huniq c' a' ((hat _ _).mp ha'),
      fun c' n ha' => hrun c' n ((hat _ _).mp ha')⟩
    · rcases hpool with rfl | ⟨rfl, _⟩
      · exact hnone
      · rfl
    · exact hlen.trans_eq (modify_length s a f).symm
    · rwa [hrem]
  · intro c q b hb hq
    rcases hpool with rfl | ⟨rfl, _⟩
    · exact h.removing c q b ((hat _ _).mp hb) hq
    · exact .inl rfl
  · intro c b n hb
    obtain ⟨hlen, huniq⟩ := h.running c b n ((hat _ _).mp hb)
    exact ⟨hlen.trans_eq (modify_length s a f).symm,
      fun c' n' ha' => huniq c' n' ((hat _ _).mp ha')⟩
  · intro c b own hb
    obtain ⟨n, g, hown, hg, hn⟩ := h.settling c b own ((hat _ _).mp hb)
    refine ⟨n, if b = a then f g else g, hown, ?_, ?_⟩
    · exact (modify_leaders s a f b).trans (by rw [hg]; rfl)
    · split
      · rw [hcycles]
        exact hn
      · exact hn

theorem Inv.pause (h : s.Inv) (a : Nat) :
    (s.modify a fun g => { g with state := .paused }).Inv := by
  have hmod : Inv { s.modify a (fun g => { g with state := .paused }) with pool := s.pool } :=
    h.modify (fun g hg => hg) (fun _ => rfl) (.inl rfl)
  rwa [← modify_pool s a fun g => { g with state := .paused }] at hmod

theorem Inv.remove (h : s.Inv) (hc : s.At c p) (hp : p.removes = some a) : (s.remove a).Inv := by
  refine h.modify (fun g hg => by cases hg) (fun _ => rfl) (.inr ⟨rfl, ⟨c, p, a, hc, hp⟩, ?_⟩)
  intro b g hg hgs hpool
  rcases h.removing c p a hc hp with hnone | hsome
  · rw [hnone] at hpool
    cases hpool
  · rw [hsome] at hpool
    cases hpool
    rw [modify_leaders] at hg
    obtain ⟨g', _, rfl⟩ := Option.map_eq_some_iff.mp hg
    rw [if_pos rfl] at hgs
    cases hgs

/-- The team has no entry, and nobody is building an agent or taking one away. -/
def Free (s : RuntimeManager) : Prop := s.pool = none ∧ ¬ s.Removing ∧ ¬ s.Building

theorem Inv.stopped (h : s.Inv) (hfree : s.Free) {g : Leader} (hg : s.leaders[a]? = some g) :
    g.stopped = true := by
  by_contra hlive
  rcases h.pooled a g hg (by simpa using hlive) with hsome | ⟨c, hc⟩
  · rw [hfree.1] at hsome
    cases hsome
  · exact hfree.2.2 ⟨c, a, hc⟩

theorem Inv.coldRecover (h : s.Inv) (hfree : s.Free) :
    Inv { (s.build call.sessionId).setPhase c call (.running s.leaders.length 1) with
      pool := some s.leaders.length } := by
  have hstopped : ∀ (b : Nat) (g : Leader), s.leaders[b]? = some g → g.stopped = true :=
    fun b g => h.stopped hfree
  obtain ⟨_, hquiet, hidle⟩ := hfree
  have hback : ∀ c' q, RuntimeManager.At
      { (s.build call.sessionId).setPhase c call (.running s.leaders.length 1) with
        pool := some s.leaders.length } c' q →
      (c' = c ∧ q = .running s.leaders.length 1) ∨ (c' ≠ c ∧ s.At c' q) :=
    fun c' q hat => at_setPhase hat
  refine ⟨?_, ?_, ?_, ?_, ?_⟩
  · intro b g hg hgs
    rcases get_append_cases hg with ⟨rfl, _⟩ | hg
    · exact .inl rfl
    · rw [hstopped b g hg] at hgs
      cases hgs
  · intro c' b hat
    rcases hback _ _ hat with ⟨_, hq⟩ | ⟨_, hat⟩
    · cases hq
    · exact (hidle ⟨c', b, hat⟩).elim
  · intro c' q b hat hq
    rcases hback _ _ hat with ⟨_, rfl⟩ | ⟨_, hat⟩
    · cases hq
    · exact (hquiet ⟨c', q, b, hat, hq⟩).elim
  · intro c' b n hat
    have hlen : (s.build call.sessionId).leaders.length = s.leaders.length + 1 :=
      length_append
    refine ⟨?_, ?_⟩
    · refine Nat.lt_of_lt_of_eq ?_ hlen.symm
      rcases hback _ _ hat with ⟨_, hq⟩ | ⟨_, hat⟩
      · cases hq
        exact Nat.lt_succ_self _
      · exact Nat.lt_succ_of_lt (h.running c' b n hat).1
    · intro c'' n' hat'
      rcases hback _ _ hat with ⟨rfl, hq⟩ | ⟨_, hold⟩
      · cases hq
        rcases hback _ _ hat' with ⟨rfl, _⟩ | ⟨_, hold'⟩
        · rfl
        · exact absurd (h.running c'' _ n' hold').1 (Nat.lt_irrefl _)
      · rcases hback _ _ hat' with ⟨rfl, hq'⟩ | ⟨_, hold'⟩
        · cases hq'
          exact absurd (h.running c' _ n hold).1 (Nat.lt_irrefl _)
        · exact (h.running c' b n hold).2 c'' n' hold'
  · intro c' b own hat
    rcases hback _ _ hat with ⟨_, hq⟩ | ⟨_, hat⟩
    · cases hq
    · exact (hquiet ⟨c', _, b, hat, rfl⟩).elim

theorem Inv.prepare (h : s.Inv) (hfree : s.Free) (hc : s.calls[c]? = some call) :
    ((s.build call.sessionId).setPhase c call (.building s.leaders.length)).Inv := by
  have hstopped : ∀ (b : Nat) (g : Leader), s.leaders[b]? = some g → g.stopped = true :=
    fun b g => h.stopped hfree
  obtain ⟨hnone, hquiet, hidle⟩ := hfree
  have hback : ∀ c' q,
      ((s.build call.sessionId).setPhase c call (.building s.leaders.length)).At c' q →
      (c' = c ∧ q = .building s.leaders.length) ∨ (c' ≠ c ∧ s.At c' q) :=
    fun c' q hat => at_setPhase hat
  have hlen : (s.build call.sessionId).leaders.length = s.leaders.length + 1 :=
    length_append
  have hremoving : ∀ c' q b,
      ((s.build call.sessionId).setPhase c call (.building s.leaders.length)).At c' q →
      q.removes ≠ some b := by
    intro c' q b hat hq
    rcases hback _ _ hat with ⟨_, rfl⟩ | ⟨_, hat⟩
    · cases hq
    · exact hquiet ⟨c', q, b, hat, hq⟩
  refine ⟨?_, ?_, ?_, ?_, ?_⟩
  · intro b g hg hgs
    rcases get_append_cases hg with ⟨rfl, _⟩ | hg
    · exact .inr ⟨c, at_setPhase_self hc⟩
    · rw [hstopped b g hg] at hgs
      cases hgs
  · intro c' b hat
    rcases hback _ _ hat with ⟨rfl, hq⟩ | ⟨_, hat⟩
    · cases hq
      refine ⟨hnone, Nat.lt_of_lt_of_eq (Nat.lt_succ_self _) hlen.symm, ?_, ?_, ?_⟩
      · rintro ⟨c'', q, b, hat', hq⟩
        exact hremoving c'' q b hat' hq
      · intro c'' a' hat'
        rcases hback _ _ hat' with ⟨rfl, _⟩ | ⟨_, hat'⟩
        · rfl
        · exact (hidle ⟨c'', a', hat'⟩).elim
      · intro c'' n hat'
        rcases hback _ _ hat' with ⟨_, hq⟩ | ⟨_, hat'⟩
        · cases hq
        · exact absurd (h.running c'' _ n hat').1 (Nat.lt_irrefl _)
    · exact (hidle ⟨c', b, hat⟩).elim
  · intro c' q b hat hq
    exact absurd hq (hremoving c' q b hat)
  · intro c' b n hat
    rcases hback _ _ hat with ⟨_, hq⟩ | ⟨_, hat⟩
    · cases hq
    · refine ⟨Nat.lt_of_lt_of_eq (Nat.lt_succ_of_lt (h.running c' b n hat).1) hlen.symm, ?_⟩
      intro c'' n' hat'
      rcases hback _ _ hat' with ⟨_, hq⟩ | ⟨_, hat'⟩
      · cases hq
      · exact (h.running c' b n hat).2 c'' n' hat'
  · intro c' b own hat
    exact absurd rfl (hremoving c' _ b hat)

theorem Inv.built (h : s.Inv) (hat : s.At c (.building a)) :
    Inv { s.setPhase c call (.running a 1) with pool := some a } := by
  obtain ⟨hnone, hlen, hquiet, huniq, hrun⟩ := h.building c a hat
  have hback : ∀ c' q, RuntimeManager.At
      { s.setPhase c call (.running a 1) with pool := some a } c' q →
      (c' = c ∧ q = .running a 1) ∨ (c' ≠ c ∧ s.At c' q) := fun c' q hat => at_setPhase hat
  refine ⟨?_, ?_, ?_, ?_, ?_⟩
  · intro b g hg hgs
    rcases h.pooled b g hg hgs with hsome | ⟨c', hat'⟩
    · rw [hnone] at hsome
      cases hsome
    · have hcc := huniq c' b hat'
      subst hcc
      have hsame := At.unique hat hat'
      cases hsame
      exact .inl rfl
  · intro c' b hat'
    rcases hback _ _ hat' with ⟨_, hq⟩ | ⟨hne, hat'⟩
    · cases hq
    · exact absurd (huniq c' b hat') hne
  · intro c' q b hat' hq
    rcases hback _ _ hat' with ⟨_, rfl⟩ | ⟨_, hat'⟩
    · cases hq
    · exact (hquiet ⟨c', q, b, hat', hq⟩).elim
  · intro c' b n hat'
    rcases hback _ _ hat' with ⟨rfl, hq⟩ | ⟨_, hat'⟩
    · cases hq
      refine ⟨hlen, fun c'' n' hat'' => ?_⟩
      rcases hback _ _ hat'' with ⟨rfl, _⟩ | ⟨_, hat''⟩
      · rfl
      · exact absurd hat'' (hrun c'' n')
    · refine ⟨(h.running c' b n hat').1, fun c'' n' hat'' => ?_⟩
      rcases hback _ _ hat'' with ⟨_, hq⟩ | ⟨_, hat''⟩
      · cases hq
        exact absurd hat' (hrun c' n)
      · exact (h.running c' b n hat').2 c'' n' hat''
  · intro c' b own hat'
    rcases hback _ _ hat' with ⟨_, hq⟩ | ⟨_, hat'⟩
    · cases hq
    · exact (hquiet ⟨c', _, b, hat', rfl⟩).elim

/-- The pool holds the agent, nobody takes it away, and no run has it. -/
def Available (s : RuntimeManager) (a : Nat) : Prop :=
  s.pool = some a ∧ ¬ s.Removing ∧ ∀ c n, ¬ s.At c (.running a n)

theorem Inv.resume (h : s.Inv) (hav : s.Available a) : (s.resume c call a).Inv := by
  obtain ⟨hpool, hquiet, hrun⟩ := hav
  rw [RuntimeManager.resume]
  split
  · next g hg =>
    have hlen : ∀ g', (s.leaders.set a g').length = s.leaders.length := fun _ => length_set
    have hback : ∀ c' q, RuntimeManager.At
        ({ s with
          leaders := s.leaders.set a ⟨g.currentSessionId, .running, false, g.cycles + 1⟩ }.setPhase
          c call (.running a (g.cycles + 1))) c' q →
        (c' = c ∧ q = .running a (g.cycles + 1)) ∨ (c' ≠ c ∧ s.At c' q) :=
      fun c' q hat => at_setPhase hat
    refine ⟨?_, ?_, ?_, ?_, ?_⟩
    · intro b g' hg' hgs
      rcases get_set_cases hg' with ⟨rfl, _⟩ | ⟨_, hg'⟩
      · exact .inl hpool
      · rcases h.pooled b g' hg' hgs with hsome | ⟨c', hat'⟩
        · exact .inl hsome
        · rw [(h.building c' b hat').1] at hpool
          cases hpool
    · intro c' b hat'
      rcases hback _ _ hat' with ⟨_, hq⟩ | ⟨_, hat'⟩
      · cases hq
      · rw [(h.building c' b hat').1] at hpool
        cases hpool
    · intro c' q b hat' hq
      rcases hback _ _ hat' with ⟨_, rfl⟩ | ⟨_, hat'⟩
      · cases hq
      · exact (hquiet ⟨c', q, b, hat', hq⟩).elim
    · intro c' b n hat'
      rcases hback _ _ hat' with ⟨rfl, hq⟩ | ⟨_, hat'⟩
      · cases hq
        refine ⟨Nat.lt_of_lt_of_eq (List.getElem?_eq_some_iff.mp hg).1 (hlen _).symm, ?_⟩
        intro c'' n' hat''
        rcases hback _ _ hat'' with ⟨rfl, _⟩ | ⟨_, hat''⟩
        · rfl
        · exact absurd hat'' (hrun c'' n')
      · refine ⟨Nat.lt_of_lt_of_eq (h.running c' b n hat').1 (hlen _).symm, ?_⟩
        intro c'' n' hat''
        rcases hback _ _ hat'' with ⟨_, hq⟩ | ⟨_, hat''⟩
        · cases hq
          exact absurd hat' (hrun c' n)
        · exact (h.running c' b n hat').2 c'' n' hat''
    · intro c' b own hat'
      rcases hback _ _ hat' with ⟨_, hq⟩ | ⟨_, hat'⟩
      · cases hq
      · exact (hquiet ⟨c', _, b, hat', rfl⟩).elim
  · exact h

/-- Where the calls of a team do not get in each other's way: an agent is built when the team is
free, and resumed when it is available; a run that is rejected, or ends, finds no entry that is not
its own; and `activate` does not fail once it has built an agent. -/
def Careful (s : RuntimeManager) : ManagerOp → Prop
  | .advance c e => ∀ call, s.calls[c]? = some call →
    match e, call.phase with
    | .inspected r, .inspecting entry =>
      let kind := decideRunAction r (s.entryState entry)
      (kind = .coldRecover → s.Free) ∧
        (kind.rejects = true → s.resolve call.sessionId = none)
    | .prepared, .preparing => s.Free
    | .prepared, .resuming a => s.Available a
    | .failed, .building _ => False
    | .finished, .running a n => ∀ b, s.resolve call.sessionId = some b →
      b = a ∧ ∃ g : Leader, s.leaders[a]? = some g ∧ g.cycles = n
    | _, _ => True
  | _ => True

theorem Inv.inspected (h : s.Inv) (hc : s.calls[c]? = some call) {entry : Option Nat}
    (hphase : call.phase = .inspecting entry) {kind : RunActionKind}
    (hcold : kind = .coldRecover → s.Free)
    (hreject : kind.rejects = true → s.resolve call.sessionId = none) :
    (s.apply c call entry kind).Inv := by
  have hold : ∀ a, call.phase ≠ .building a := by
    intro a
    rw [hphase]
    rintro ⟨⟩
  have hrejected : s.resolve call.sessionId = none → (s.finalize c call none).Inv := by
    intro hnone
    refine h.finalize hc hold fun a ha => ?_
    rw [hnone] at ha
    cases ha
  cases kind with
  | rejectRunning => exact hrejected (hreject rfl)
  | rejectOrphaned => exact hrejected (hreject rfl)
  | rejectInconsistent => exact hrejected (hreject rfl)
  | resumeFromPause =>
    cases entry with
    | none => exact h.setPhase hc hold rfl
    | some a => exact h.setPhase hc hold rfl
  | create => exact h.setPhase hc hold rfl
  | newTeamInSession => exact h.setPhase hc hold rfl
  | coldRecover => exact h.coldRecover (hcold rfl)

theorem Inv.removed (h : s.Inv) (hc : s.calls[c]? = some call) (hr : call.phase.removes = some a)
    (hp : p.plain = true) : ((s.remove a).setPhase c call p).Inv := by
  have hcalls : (s.remove a).calls[c]? = some call := by
    rw [RuntimeManager.remove, modify_calls]
    exact hc
  refine (h.remove ⟨call, hc, rfl⟩ hr).setPhase hcalls ?_ hp
  intro b hb
  rw [hb] at hr
  cases hr

theorem Inv.paused (h : s.Inv) (hc : s.calls[c]? = some call)
    (hold : ∀ b, call.phase ≠ .building b) (a : Nat) :
    ((s.modify a fun g => { g with state := .paused }).setPhase c call .ended).Inv :=
  (h.pause a).setPhase (by rw [modify_calls]; exact hc) hold rfl

theorem Inv.advance (h : s.Inv) (hc : s.calls[c]? = some call) {e : ManagerEvent}
    (hcare : s.Careful (.advance c e)) : (s.advance c call e).Inv := by
  have hcare := hcare call hc
  have hold : ∀ q, call.phase = q → (∀ a, q ≠ .building a) → ∀ a, call.phase ≠ .building a := by
    rintro _ rfl hq
    exact hq
  cases e with
  | stopped ok =>
    rw [RuntimeManager.advance]
    split
    · next a hphase =>
      split
      · exact h.removed hc (by rw [hphase]; rfl) rfl
      · exact h.setPhase hc (hold _ hphase (by rintro b ⟨⟩)) rfl
    · next a hphase =>
      split
      · exact h.removed hc (by rw [hphase]; rfl) rfl
      · exact h.setPhase hc (hold _ hphase (by rintro b ⟨⟩)) rfl
    · next a hphase =>
      split
      · exact h.paused hc (hold _ hphase (by rintro b ⟨⟩)) a
      · exact h.setPhase hc (hold _ hphase (by rintro b ⟨⟩)) rfl
    · exact h
  | inspected r =>
    rw [RuntimeManager.advance]
    split
    · next entry hphase =>
      rw [hphase] at hcare
      exact h.inspected hc hphase hcare.1 hcare.2
    · exact h
  | failed =>
    rw [RuntimeManager.advance]
    split
    · next hphase => exact h.setPhase hc (hold _ hphase (by rintro b ⟨⟩)) rfl
    · next hphase => exact h.setPhase hc (hold _ hphase (by rintro b ⟨⟩)) rfl
    · next hphase => exact h.setPhase hc (hold _ hphase (by rintro b ⟨⟩)) rfl
    · next hphase =>
      rw [hphase] at hcare
      exact hcare.elim
    · exact h
  | prepared =>
    rw [RuntimeManager.advance]
    split
    · next a hphase =>
      rw [hphase] at hcare
      exact h.resume hcare
    · next hphase =>
      rw [hphase] at hcare
      exact h.prepare hcare hc
    · exact h
  | built =>
    rw [RuntimeManager.advance]
    split
    · next a hphase => exact h.built ⟨call, hc, hphase⟩
    · exact h
  | finished =>
    rw [RuntimeManager.advance]
    split
    · next a n hphase =>
      rw [hphase] at hcare
      refine h.finalize hc (hold _ hphase (by rintro b ⟨⟩)) fun b hb => ?_
      obtain ⟨rfl, g, hg, hn⟩ := hcare b hb
      exact ⟨n, g, rfl, hg, hn⟩
    · exact h
  | settled stop ok =>
    rw [RuntimeManager.advance]
    split
    · next a own hphase =>
      split
      · exact h.setPhase hc (hold _ hphase (by rintro b ⟨⟩)) rfl
      · split
        · exact h.removed hc (by rw [hphase]; rfl) rfl
        · exact h.paused hc (hold _ hphase (by rintro b ⟨⟩)) a
    · exact h

theorem Inv.step (h : s.Inv) {op : ManagerOp} (hc : s.Careful op) : (s.step op).Inv := by
  cases op with
  | run sessionId => exact h.run sessionId
  | stopTeam sessionId =>
    rw [RuntimeManager.step]
    split
    · next a ha => exact h.addCall (.inr ⟨a, resolve_eq_some ha, .inr rfl⟩)
    · exact h
  | pause sessionId =>
    rw [RuntimeManager.step]
    split
    · exact h.addCall (.inl rfl)
    · exact h
  | advance c e =>
    rw [RuntimeManager.step]
    split
    · next call hcall => exact h.advance hcall hc
    · exact h

/-- At most one agent of the team is not stopped; it is the one in the pool, unless its `activate`
has not returned. -/
def OneLeader (s : RuntimeManager) : Prop :=
  (∀ (a b : Nat) (g g' : Leader), s.leaders[a]? = some g → s.leaders[b]? = some g' →
    g.stopped = false → g'.stopped = false → a = b) ∧
  ∀ (a : Nat) (g : Leader), s.leaders[a]? = some g → g.stopped = false →
    s.pool = some a ∨ ∃ c, s.At c (.building a)

def OneRun (s : RuntimeManager) : Prop :=
  ∀ c c' a n n', s.At c (.running a n) → s.At c' (.running a n') → c = c'

/-- A run settles the entry it was started with, in its own cycle, and removes no other one. -/
def OwnEntry (s : RuntimeManager) : Prop :=
  ∀ c a own, s.At c (.settling a own) →
    (∃ (n : Nat) (g : Leader), own = some (a, n) ∧ s.leaders[a]? = some g ∧ g.cycles = n) ∧
    (s.pool = none ∨ s.pool = some a)

theorem Inv.oneLeader (h : s.Inv) : s.OneLeader := by
  refine ⟨fun a b g g' hg hg' hgs hgs' => ?_, h.pooled⟩
  rcases h.pooled a g hg hgs with ha | ⟨c, hc⟩
  · rcases h.pooled b g' hg' hgs' with hb | ⟨c, hc⟩
    · rw [ha] at hb
      exact Option.some.inj hb
    · rw [(h.building c b hc).1] at ha
      cases ha
  · rcases h.pooled b g' hg' hgs' with hb | ⟨c', hc'⟩
    · rw [(h.building c a hc).1] at hb
      cases hb
    · have hcc := (h.building c a hc).2.2.2.1 c' b hc'
      subst hcc
      have hsame := At.unique hc hc'
      cases hsame
      rfl

/-- A team that is built, paused, resumed and stopped. -/
def plainRun : List ManagerOp :=
  [.run [], .advance 0 (.inspected ⟨false, false, none⟩), .advance 0 .prepared, .advance 0 .built,
    .advance 0 .finished, .advance 0 (.settled false true)]

/-- A second run on the same session, which is rejected, and settles what it finds. -/
def rejectedRun : List ManagerOp :=
  [.run [], .advance 0 (.inspected ⟨true, true, some .created⟩), .run [],
    .advance 1 (.inspected ⟨true, true, some .created⟩)]

end RuntimeManager

end JiuwenSpec.Team

import JiuwenSpec.Base.Assoc
import Mathlib.Data.List.Count

/-!
# Counting semaphores that hand their slots over

A semaphore of a cooperative event loop: whoever gives a slot back grants it to the first party that
still waits for one, and the party takes it up when the loop comes to it, or gives it on if it was
cancelled meanwhile. No slot is lost and none is made, and a free slot that someone waits for is on
its way to a party that was granted one.
-/

namespace JiuwenSpec.Base

open List Option

universe u

inductive Future where
  | pending
  | granted
  | cancelled
  deriving DecidableEq

/-- The free slots, and who waits, in their order. -/
structure Semaphore (κ : Type u) where
  value : Nat
  waiters : List (κ × Future) := []

namespace Semaphore

variable {κ : Type u}

/-- No slot is free, or a party waits that was not cancelled. -/
def Locked (s : Semaphore κ) : Prop := s.value = 0 ∨ ∃ w ∈ s.waiters, w.2 ≠ .cancelled

instance (s : Semaphore κ) : Decidable s.Locked :=
  inferInstanceAs (Decidable (s.value = 0 ∨ ∃ w ∈ s.waiters, w.2 ≠ .cancelled))

def grantFirst : List (κ × Future) → Option (List (κ × Future))
  | [] => none
  | w :: rest =>
    if w.2 = .pending then some ((w.1, .granted) :: rest) else (grantFirst rest).map (w :: ·)

/-- A free slot goes to the first pending waiter, if there is one. -/
def wakeUpNext (s : Semaphore κ) : Semaphore κ :=
  match grantFirst s.waiters with
  | none => s
  | some waiters => { value := s.value - 1, waiters := waiters }

/-- A party asks for a slot: it takes a free one, or waits. -/
def acquire (s : Semaphore κ) (k : κ) : Semaphore κ :=
  if s.Locked then { s with waiters := s.waiters ++ [(k, .pending)] }
  else { s with value := s.value - 1 }

def release (s : Semaphore κ) : Semaphore κ := wakeUpNext { s with value := s.value + 1 }

variable [DecidableEq κ]

def get? (s : Semaphore κ) (k : κ) : Option Future := assocGet? k s.waiters

def leave (s : Semaphore κ) (k : κ) : Semaphore κ :=
  { s with waiters := assocDelete k s.waiters }

/-- A waiter that was granted a slot takes it up, and passes on what else is free. -/
def proceed (s : Semaphore κ) (k : κ) : Semaphore κ :=
  if 0 < s.value then (s.leave k).wakeUpNext else s.leave k

def giveBack (s : Semaphore κ) (k : κ) : Semaphore κ := (s.leave k).release

def cancel (s : Semaphore κ) (k : κ) : Semaphore κ :=
  if s.get? k = some .pending then { s with waiters := assocSet k .cancelled s.waiters } else s

omit [DecidableEq κ] in
def keys (s : Semaphore κ) : List κ := s.waiters.map Prod.fst

omit [DecidableEq κ] in
/-- How many futures hold `f`. -/
def count (s : Semaphore κ) (f : Future) : Nat := s.waiters.countP fun w => decide (w.2 = f)

/-- The slots are free, granted or held, and a free slot that someone waits for is on its way. -/
structure Sound (s : Semaphore κ) (cap held : Nat) : Prop where
  nodup : s.keys.Nodup
  slots : s.value + s.count .granted + held = cap
  woken : 0 < s.value → 0 < s.count .pending → 0 < s.count .granted

theorem get?_isSome_iff {s : Semaphore κ} {k : κ} : (∃ f, s.get? k = some f) ↔ k ∈ s.keys := by
  rw [← isSome_iff_exists, isSome_iff_ne_none, get?, Ne, assocGet?_eq_none_iff,
    not_not]
  rfl

theorem count_pos_iff {s : Semaphore κ} (h : s.keys.Nodup) {f : Future} :
    0 < s.count f ↔ ∃ k, s.get? k = some f := by
  rw [count, countP_pos_iff]
  constructor
  · rintro ⟨⟨k, f'⟩, hmem, hf⟩
    rw [decide_eq_true_eq] at hf
    exact ⟨k, hf ▸ assocGet?_of_mem h hmem⟩
  · rintro ⟨k, hk⟩
    exact ⟨(k, f), mem_of_assocGet? hk, decide_eq_true rfl⟩

theorem count_leave {s : Semaphore κ} (h : s.keys.Nodup) {k : κ} {f : Future}
    (hk : s.get? k = some f) (f' : Future) :
    (s.leave k).count f' + (if f = f' then 1 else 0) = s.count f' := by
  obtain ⟨value, waiters⟩ := s
  simp only [keys] at h
  simp only [get?] at hk
  simp only [leave, count]
  induction waiters with
  | nil => cases hk
  | cons w rest ih =>
    rw [map_cons, nodup_cons] at h
    rw [assocGet?] at hk
    rw [assocDelete, filter_cons, countP_cons]
    by_cases hw : w.1 = k
    · rw [if_pos hw, some.injEq] at hk
      have hrest : rest.filter (fun e => decide (e.1 ≠ k)) = rest := by
        rw [filter_eq_self]
        intro e he
        rw [decide_eq_true_eq]
        exact fun heq => h.1 (mem_map.mpr ⟨e, he, heq.trans hw.symm⟩)
      rw [if_neg (by simp [hw]), hrest, hk]
      simp
    · rw [if_neg hw] at hk
      rw [if_pos (by simp [hw]), countP_cons, ← assocDelete, ← ih h.2 hk]
      omega

theorem keys_leave (s : Semaphore κ) (k j : κ) : j ∈ (s.leave k).keys ↔ j ≠ k ∧ j ∈ s.keys := by
  simp only [keys, leave]
  rw [← not_iff_not, ← assocGet?_eq_none_iff, assocGet?_assocDelete, not_and_or, not_not,
    ← assocGet?_eq_none_iff]
  by_cases hjk : j = k
  · simp [hjk]
  · simp [hjk]

theorem nodup_leave {s : Semaphore κ} (h : s.keys.Nodup) (k : κ) : (s.leave k).keys.Nodup :=
  nodup_assocDelete h

theorem count_set {waiters : List (κ × Future)} {k : κ} {f g : Future}
    (hk : assocGet? k waiters = some f) (f' : Future) :
    (assocSet k g waiters).countP (fun w => decide (w.2 = f')) + (if f = f' then 1 else 0) =
      waiters.countP (fun w => decide (w.2 = f')) + (if g = f' then 1 else 0) := by
  induction waiters with
  | nil => cases hk
  | cons w rest ih =>
    rw [assocGet?] at hk
    rw [assocSet]
    by_cases hw : w.1 = k
    · rw [if_pos hw, some.injEq] at hk
      rw [if_pos hw, countP_cons, countP_cons, hk]
      simp only [decide_eq_true_eq]
      omega
    · rw [if_neg hw] at hk
      rw [if_neg hw, countP_cons, countP_cons]
      have hrest := ih hk
      omega

section Waking

omit [DecidableEq κ]

theorem grantFirst_none {waiters : List (κ × Future)} (h : grantFirst waiters = none) :
    waiters.countP (fun w => decide (w.2 = .pending)) = 0 := by
  induction waiters with
  | nil => rfl
  | cons w rest ih =>
    rw [grantFirst] at h
    by_cases hw : w.2 = .pending
    · rw [if_pos hw] at h
      cases h
    · rw [if_neg hw, map_eq_none_iff] at h
      rw [countP_cons, ih h]
      simp [hw]

theorem grantFirst_some {waiters waiters' : List (κ × Future)}
    (h : grantFirst waiters = some waiters') :
    waiters'.map Prod.fst = waiters.map Prod.fst ∧
      waiters'.countP (fun w => decide (w.2 = .granted)) =
        waiters.countP (fun w => decide (w.2 = .granted)) + 1 := by
  induction waiters generalizing waiters' with
  | nil => cases h
  | cons w rest ih =>
    rw [grantFirst] at h
    by_cases hw : w.2 = .pending
    · rw [if_pos hw, some.injEq] at h
      subst h
      simp [hw]
    · rw [if_neg hw, map_eq_some_iff] at h
      obtain ⟨rest', hrest, rfl⟩ := h
      obtain ⟨hkeys, hcount⟩ := ih hrest
      refine ⟨by rw [map_cons, map_cons, hkeys], ?_⟩
      rw [countP_cons, countP_cons, hcount]
      omega

theorem keys_wakeUpNext (s : Semaphore κ) : s.wakeUpNext.keys = s.keys := by
  rw [wakeUpNext]
  split
  · rfl
  · next hgrant => exact (grantFirst_some hgrant).1

theorem wakeUpNext_counts {s : Semaphore κ} (h : 0 < s.value) :
    s.wakeUpNext.value + s.wakeUpNext.count .granted = s.value + s.count .granted ∧
      (0 < s.wakeUpNext.count .pending → 0 < s.wakeUpNext.count .granted) := by
  rw [wakeUpNext]
  split
  · next hnone =>
    have hpending : s.count .pending = 0 := grantFirst_none hnone
    exact ⟨rfl, fun hpos => absurd hpending (Nat.ne_of_gt hpos)⟩
  · next waiters' hsome =>
    have hcount := (grantFirst_some hsome).2
    simp only [count]
    omega

theorem keys_release (s : Semaphore κ) : s.release.keys = s.keys := keys_wakeUpNext _

end Waking

section Operations

variable {s : Semaphore κ} {cap held : Nat} {k : κ}

omit [DecidableEq κ] in
theorem Sound.acquire_free (h : s.Sound cap held) (hfree : ¬ s.Locked) :
    (s.acquire k).Sound cap (held + 1) ∧ (s.acquire k).keys = s.keys := by
  rw [acquire, if_neg hfree]
  rw [Locked, not_or] at hfree
  have hslots := h.slots
  refine ⟨⟨h.nodup, ?_, fun _ hpending => ?_⟩, rfl⟩
  · change s.value - 1 + s.count .granted + (held + 1) = cap
    have hpos := Nat.pos_of_ne_zero hfree.1
    omega
  · obtain ⟨w, hw, hpend⟩ := countP_pos_iff.mp hpending
    refine absurd ⟨w, hw, ?_⟩ hfree.2
    rw [of_decide_eq_true hpend]
    exact nofun

omit [DecidableEq κ] in
theorem Sound.acquire_wait (h : s.Sound cap held) (hlocked : s.Locked) (hk : k ∉ s.keys) :
    (s.acquire k).Sound cap held ∧ (s.acquire k).keys = s.keys ++ [k] := by
  rw [acquire, if_pos hlocked]
  have hkeys : ({ s with waiters := s.waiters ++ [(k, .pending)] } : Semaphore κ).keys =
      s.keys ++ [k] := by simp [keys]
  have hgranted : ({ s with waiters := s.waiters ++ [(k, .pending)] } : Semaphore κ).count
      .granted = s.count .granted := by simp [count]
  refine ⟨⟨?_, ?_, fun hvalue _ => ?_⟩, hkeys⟩
  · rw [hkeys, nodup_append]
    exact ⟨h.nodup, nodup_singleton k, fun j hj _ hmem heq =>
      hk (mem_singleton.mp hmem ▸ heq ▸ hj)⟩
  · rw [hgranted]
    exact h.slots
  · rw [hgranted]
    obtain ⟨⟨j, f⟩, hw, hf⟩ := hlocked.resolve_left (Nat.ne_of_gt hvalue)
    -- The waiter that is ahead was granted a slot, or waits for a free one itself.
    cases f with
    | cancelled => exact absurd rfl hf
    | granted => exact countP_pos_iff.mpr ⟨_, hw, decide_eq_true rfl⟩
    | pending => exact h.woken hvalue (countP_pos_iff.mpr ⟨_, hw, decide_eq_true rfl⟩)

omit [DecidableEq κ] in
theorem Sound.release (h : s.Sound cap (held + 1)) : s.release.Sound cap held := by
  have hpos : 0 < ({ s with value := s.value + 1 } : Semaphore κ).value := Nat.succ_pos _
  obtain ⟨hcounts, hwoken⟩ := wakeUpNext_counts hpos
  have hslots := h.slots
  refine ⟨?_, ?_, fun _ => hwoken⟩
  · rw [keys_release]
    exact h.nodup
  · rw [Semaphore.release, hcounts]
    change s.value + 1 + s.count .granted + held = cap
    omega

theorem Sound.leave (h : s.Sound cap held) (hk : s.get? k = some .cancelled) :
    (s.leave k).Sound cap held := by
  have hgranted : (s.leave k).count .granted = s.count .granted :=
    count_leave h.nodup hk .granted
  have hpending : (s.leave k).count .pending = s.count .pending :=
    count_leave h.nodup hk .pending
  refine ⟨nodup_leave h.nodup k, ?_, fun hvalue hpos => ?_⟩
  · rw [hgranted]
    exact h.slots
  · rw [hgranted]
    exact h.woken hvalue (hpending ▸ hpos)

theorem Sound.giveBack (h : s.Sound cap held) (hk : s.get? k = some .granted) :
    (s.giveBack k).Sound cap held := by
  have hgranted : (s.leave k).count .granted + 1 = s.count .granted := count_leave h.nodup hk _
  have hpos : 0 < ({ s.leave k with value := (s.leave k).value + 1 } : Semaphore κ).value :=
    Nat.succ_pos _
  obtain ⟨hcounts, hwoken⟩ := wakeUpNext_counts hpos
  have hslots := h.slots
  refine ⟨?_, ?_, fun _ => hwoken⟩
  · rw [Semaphore.giveBack, keys_release]
    exact nodup_leave h.nodup k
  · rw [Semaphore.giveBack, Semaphore.release, hcounts]
    change s.value + 1 + (s.leave k).count .granted + held = cap
    omega

theorem Sound.proceed (h : s.Sound cap held) (hk : s.get? k = some .granted) :
    (s.proceed k).Sound cap (held + 1) := by
  have hgranted : (s.leave k).count .granted + 1 = s.count .granted := count_leave h.nodup hk _
  have hslots := h.slots
  rw [Semaphore.proceed]
  by_cases hvalue : 0 < s.value
  · rw [if_pos hvalue]
    obtain ⟨hcounts, hwoken⟩ := wakeUpNext_counts (s := s.leave k) hvalue
    refine ⟨?_, ?_, fun _ => hwoken⟩
    · rw [keys_wakeUpNext]
      exact nodup_leave h.nodup k
    · rw [hcounts]
      change s.value + (s.leave k).count .granted + (held + 1) = cap
      omega
  · rw [if_neg hvalue]
    refine ⟨nodup_leave h.nodup k, ?_, fun hpos => absurd hpos hvalue⟩
    change s.value + (s.leave k).count .granted + (held + 1) = cap
    omega

theorem Sound.cancel (h : s.Sound cap held) (k : κ) :
    (s.cancel k).Sound cap held ∧ (∀ j, j ∈ (s.cancel k).keys ↔ j ∈ s.keys) := by
  rw [Semaphore.cancel]
  by_cases hk : s.get? k = some .pending
  · rw [if_pos hk]
    have hgranted : (assocSet k Future.cancelled s.waiters).countP
        (fun w => decide (w.2 = .granted)) = s.count .granted := count_set hk .granted
    have hpending : (assocSet k Future.cancelled s.waiters).countP
        (fun w => decide (w.2 = .pending)) + 1 = s.count .pending := count_set hk .pending
    refine ⟨⟨nodup_assocSet h.nodup, ?_, fun hvalue hpos => ?_⟩, fun j => ?_⟩
    · change s.value + (assocSet k Future.cancelled s.waiters).countP _ + held = cap
      rw [hgranted]
      exact h.slots
    · change 0 < (assocSet k Future.cancelled s.waiters).countP _
      rw [hgranted]
      exact h.woken hvalue (by omega)
    · change j ∈ (assocSet k Future.cancelled s.waiters).map Prod.fst ↔ _
      rw [mem_keys_assocSet]
      refine ⟨fun hj => hj.elim (fun heq => ?_) id, .inr⟩
      exact heq ▸ get?_isSome_iff.mp ⟨_, hk⟩
  · rw [if_neg hk]
    exact ⟨h, fun _ => Iff.rfl⟩

theorem keys_proceed (s : Semaphore κ) (k j : κ) :
    j ∈ (s.proceed k).keys ↔ j ≠ k ∧ j ∈ s.keys := by
  rw [proceed]
  by_cases hvalue : 0 < s.value
  · rw [if_pos hvalue, keys_wakeUpNext, keys_leave]
  · rw [if_neg hvalue, keys_leave]

theorem keys_giveBack (s : Semaphore κ) (k j : κ) :
    j ∈ (s.giveBack k).keys ↔ j ≠ k ∧ j ∈ s.keys := by
  rw [giveBack, keys_release, keys_leave]

theorem Sound.full_of_pending (h : s.Sound cap held) (hpending : s.get? k = some .pending)
    (hgranted : ∀ j, s.get? j ≠ some .granted) : held = cap := by
  have hnone : ¬ 0 < s.count .granted := fun hpos =>
    (count_pos_iff h.nodup).mp hpos |>.elim fun j hj => hgranted j hj
  have hvalue : ¬ 0 < s.value := fun hpos =>
    hnone (h.woken hpos ((count_pos_iff h.nodup).mpr ⟨k, hpending⟩))
  have hslots := h.slots
  omega

end Operations

end Semaphore

end JiuwenSpec.Base

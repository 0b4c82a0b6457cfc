import JiuwenSpec.Pregel.FreshRuns

/-!
# Runs of the superstep loop end

A superstep that runs tasks needs a step number within the limit, and one that only flushes leaves
the buffer empty, so that the next one runs tasks or is the last.
-/

namespace JiuwenSpec.Graph

namespace LoopState

variable {g : Pregel} {s s' : LoopState} {r : Round}

/-- The most supersteps that can follow before the run is over. -/
def left (s : LoopState) : Nat :=
  (s.maxStep + 1 - s.step).toNat + if s.manager.isEmpty then 0 else 1

theorem deliver_eq_more {ex : Executor} (h : s.deliver ex = .more s') :
    s'.step = s.step + 1 ∧ s'.maxStep = s.maxStep ∧ s'.manager.isEmpty = true := by
  unfold deliver ChannelManager.flush at h
  split at h
  · next heq =>
    cases h
    split at heq
    · cases heq
    · cases heq
      exact ⟨rfl, rfl, rfl⟩
  · cases h

theorem activate_fields : (s.activate g).1.step = s.step ∧ (s.activate g).1.maxStep = s.maxStep ∧
    (s.activate g).1.manager = s.manager := by
  unfold activate
  split
  · exact ⟨rfl, rfl, rfl⟩
  · exact ⟨rfl, rfl, rfl⟩

theorem left_runStep (h : s.runStep g r = .more s') : s'.left < s.left := by
  obtain ⟨hstep, hmax, hmanager⟩ := activate_fields (g := g) (s := s)
  unfold runStep at h
  split at h
  · next t heq =>
    rw [heq] at hstep hmax hmanager
    split at h
    · cases h
    · next hbuffer =>
      obtain ⟨hstep', hmax', hempty⟩ := deliver_eq_more h
      dsimp only at hstep hmax hmanager
      rw [hmanager] at hbuffer
      rw [left, left, hempty, if_pos rfl, if_neg hbuffer]
      omega
  · next t active _ heq =>
    rw [heq] at hstep hmax
    split at h
    · cases h
    · next hlimit =>
      dsimp only at h
      split at h
      · cases h
      · obtain ⟨hstep', hmax', hempty⟩ := deliver_eq_more h
        change s'.step = t.step + 1 at hstep'
        change s'.maxStep = t.maxStep at hmax'
        dsimp only at hstep hmax hlimit
        rw [left, left, hempty, if_pos rfl]
        omega

theorem left_runFrom {fates : Fates} {k : Nat} (h : runFrom g fates (.more s) k = .more s') :
    s'.left + k ≤ s.left := by
  induction k generalizing s with
  | zero =>
    cases h
    exact Nat.le_refl _
  | succ k ih =>
    rw [runFrom] at h
    cases hstep : s.runStep g (fatedRound fates g s) with
    | more t =>
      rw [hstep] at h
      have hrest := ih h
      have hfirst := left_runStep hstep
      omega
    | finished t =>
      rw [hstep] at h
      cases k <;> cases h
    | raised t ex e =>
      rw [hstep] at h
      cases k <;> cases h

theorem left_init (channels : List Channel) (limit : Int) (checkpoint : Option GraphState) :
    (LoopState.init g channels limit checkpoint).1.left ≤ (recursionLimit limit + 1).toNat + 1 := by
  have hone : ∀ t : LoopState, t.maxStep = t.step + recursionLimit limit →
      t.left ≤ (recursionLimit limit + 1).toNat + 1 := by
    intro t ht
    rw [left, ht]
    split <;> omega
  apply hone
  unfold LoopState.init
  split
  · split
    · rfl
    · exact (Int.zero_add _).symm
  · exact (Int.zero_add _).symm

end LoopState

/-- **Every run ends.** Whatever graph is run, from whatever checkpoint, and whatever becomes of its
tasks: two supersteps after the recursion limit the run is over, or has raised. -/
theorem run_ends (g : Pregel) (channels : List Channel) (limit : Int)
    (checkpoint : Option GraphState) (fates : Fates) (s : LoopState) :
    runFrom g fates (.more (LoopState.init g channels limit checkpoint).1)
      ((recursionLimit limit + 1).toNat + 2) ≠ .more s := by
  intro h
  have hleft := LoopState.left_runFrom h
  have hinit := LoopState.left_init (g := g) channels limit checkpoint
  omega

end JiuwenSpec.Graph

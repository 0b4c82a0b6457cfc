import JiuwenSpec.Team.BoardInvariant

/-!
# Cycles in the dependency table

The cycle check of a mutation reads the rows stored under the team of the call, while the
endpoints of its edges are looked up across all teams. The table therefore stays acyclic
exactly as long as no row of another team lies on a cycle with the new edges.
-/

namespace JiuwenSpec.Team

open Base Relation List

namespace TaskBoard

def DependsOnWith (b : TaskBoard) (addEdges : List (String × String)) (a d : String) : Prop :=
  b.DependsOn a d ∨ (a, d) ∈ addEdges

def ForeignRowsOffCycle (b : TaskBoard) (teamName : String) (addEdges : List (String × String)) :
    Prop :=
  ∀ a d row, b.deps.get? (a, d) = some row → row.teamName ≠ teamName →
    ¬ ReflTransGen (b.DependsOnWith addEdges) d a

theorem dependsOn_iff (b : TaskBoard) (a d : String) :
    b.DependsOn a d ↔ b.view.edge a d ≠ none := by
  rw [view_edge, Ne, resolved?_eq_none_iff, not_not, DependsOn]

private theorem dependsOn_split (b : TaskBoard) (teamName : String)
    (addEdges : List (String × String)) (a d : String) :
    b.DependsOnWith addEdges a d ↔
      ((a, d) ∈ b.edgesOf teamName ∨ (a, d) ∈ addEdges) ∨
        ∃ row, b.deps.get? (a, d) = some row ∧ row.teamName ≠ teamName := by
  rw [DependsOnWith, DependsOn, Dict.mem_keys_iff, mem_edgesOf]
  constructor
  · rintro (⟨row, hrow⟩ | he)
    · by_cases hteam : row.teamName = teamName
      · exact Or.inl (Or.inl ⟨row, hrow, hteam⟩)
      · exact Or.inr ⟨row, hrow, hteam⟩
    · exact Or.inl (Or.inr he)
  · rintro ((⟨row, hrow, _⟩ | he) | ⟨row, hrow, _⟩)
    · exact Or.inl ⟨row, hrow⟩
    · exact Or.inr he
    · exact Or.inl ⟨row, hrow⟩

theorem acyclic_dependsOnWith_iff {b : TaskBoard} {teamName : String}
    {addEdges : List (String × String)}
    (h : Acyclic (fun a d => (a, d) ∈ b.edgesOf teamName ∨ (a, d) ∈ addEdges)) :
    Acyclic (b.DependsOnWith addEdges) ↔ b.ForeignRowsOffCycle teamName addEdges := by
  have heq : b.DependsOnWith addEdges = fun a d =>
      ((a, d) ∈ b.edgesOf teamName ∨ (a, d) ∈ addEdges) ∨
        ∃ row, b.deps.get? (a, d) = some row ∧ row.teamName ≠ teamName := by
    funext a d
    exact propext (dependsOn_split b teamName addEdges a d)
  rw [heq, h.or_iff, ← heq]
  constructor
  · exact fun hno a d row hrow hteam => hno a d ⟨row, hrow, hteam⟩
  · rintro hno a d ⟨row, hrow, hteam⟩
    exact hno a d row hrow hteam

theorem Mutated.dependsOn_iff {b b' : TaskBoard} {teamName : String} {newTasks : List NewTaskSpec}
    {addEdges : List (String × String)} (m : b.Mutated teamName newTasks addEdges b')
    (a d : String) : b'.DependsOn a d ↔ b.DependsOnWith addEdges a d := by
  have hmem : (a, d) ∈ b'.deps.keys ↔ (a, d) ∈ b.deps.keys ∨ (a, d) ∈ m.newEdges := by
    rw [m.deps_eq]
    by_cases hin : (a, d) ∈ m.newEdges
    · obtain ⟨row, hrow, _⟩ := m.isWired.added _ hin
      exact iff_of_true (Dict.mem_keys_iff.mpr ⟨row, hrow⟩) (Or.inr hin)
    · rw [Dict.mem_keys_iff, m.isWired.kept _ hin, m.isStaged.deps_eq, ← Dict.mem_keys_iff]
      simp [hin]
  rw [DependsOn, hmem, DependsOnWith, DependsOn, m.mem_newEdges]
  constructor
  · rintro (hk | ⟨he, _⟩)
    · exact Or.inl hk
    · exact Or.inr he
  · rintro (hk | he)
    · exact Or.inl hk
    · by_cases hx : (a, d) ∈ b.edgesOf teamName
      · obtain ⟨row, hrow, _⟩ := mem_edgesOf.mp hx
        exact Or.inl (Dict.mem_keys_iff.mpr ⟨row, hrow⟩)
      · exact Or.inr ⟨he, hx⟩

theorem Mutated.acyclic_iff {b b' : TaskBoard} {teamName : String} {newTasks : List NewTaskSpec}
    {addEdges : List (String × String)} (m : b.Mutated teamName newTasks addEdges b')
    (hedges : addEdges ≠ []) :
    Acyclic b'.DependsOn ↔ b.ForeignRowsOffCycle teamName addEdges := by
  rw [acyclic_congr m.dependsOn_iff]
  exact acyclic_dependsOnWith_iff (m.acyclic hedges)

private theorem dependsOn_terminate {b : TaskBoard} {t : String} {n : TerminalStatus} {now : Nat}
    {a d : String} (h : (b.terminateTaskInSession t n now).1.DependsOn a d) : b.DependsOn a d := by
  rcases b.terminateTaskInSession_cases t n now with hno | ⟨s, _, _, hview⟩
  · rwa [hno] at h
  · rw [TaskBoard.dependsOn_iff] at h ⊢
    rw [hview] at h
    intro hnone
    apply h
    change (if d = t then (b.view.edge a d).map (fun _ => true) else b.view.edge a d) = none
    simp [hnone]

private theorem dependsOn_cancels {b b' : TaskBoard} (h : ReflTransGen Cancels b b')
    {a d : String} (hd : b'.DependsOn a d) : b.DependsOn a d := by
  induction h with
  | refl => exact hd
  | tail _ hstep ih =>
    obtain ⟨t, now, rfl⟩ := hstep
    exact ih (dependsOn_terminate hd)

theorem dependsOn_of_move {b b' : TaskBoard} {op : TaskOp} (h : Move b op b') :
    (∀ a d, b'.DependsOn a d → b.DependsOn a d) ∨
      ∃ team newTasks specs addEdges files, op = .mutateDependencyGraph team newTasks addEdges ∧
        Nonempty ((b.withFiles files).Mutated team specs addEdges b') := by
  have hview : b'.view.edge = b.view.edge → ∀ a d, b'.DependsOn a d → b.DependsOn a d := by
    intro he a d hd
    rw [TaskBoard.dependsOn_iff] at hd ⊢
    rwa [← he]
  cases h with
  | keep h => exact Or.inl (hview (congrArg DependencyBoard.edge h))
  | write _ _ h => exact Or.inl (hview ((congrArg DependencyBoard.edge h).trans rfl))
  | @completeRow t _ _ _ _ h =>
    refine Or.inl fun a d hd => ?_
    rw [TaskBoard.dependsOn_iff] at hd ⊢
    rw [h] at hd
    intro hnone
    apply hd
    change (if d = t then (b.view.edge a d).map (fun _ => true) else b.view.edge a d) = none
    simp [hnone]
  | finish _ heq =>
    subst heq
    exact Or.inl fun a d hd => dependsOn_terminate hd
  | cancelAll _ hruns => exact Or.inl fun a d hd => dependsOn_cancels hruns hd
  | mutate hop _ hmut => exact Or.inr ⟨_, _, _, _, _, hop, hmut⟩
  | create _ _ h => exact Or.inl (hview ((congrArg DependencyBoard.edge h).trans rfl))
  | @delete t _ h =>
    refine Or.inl fun a d hd => ?_
    rw [TaskBoard.dependsOn_iff] at hd ⊢
    rw [h] at hd
    intro hnone
    apply hd
    change (if a = t ∨ d = t then none else b.view.edge a d) = none
    simp [hnone]
  | sweep _ _ h => exact Or.inl (hview ((congrArg DependencyBoard.edge h).trans rfl))

/-- The condition on a call: a mutation closes no cycle through a row of another team. -/
def ChecksWholeTable (b : TaskBoard) (call : TaskCall) : Prop :=
  match call.op with
  | .mutateDependencyGraph teamName _ addEdges => b.ForeignRowsOffCycle teamName addEdges
  | _ => True

theorem acyclic_step {b : TaskBoard} {call : TaskCall} (hb : Acyclic b.DependsOn)
    (h : b.ChecksWholeTable call) : Acyclic (b.step call).DependsOn := by
  rcases dependsOn_of_move (b.move_step call) with
    hsub | ⟨team, newTasks, specs, addEdges, files, hop, ⟨m⟩⟩
  · exact hb.mono hsub
  · rw [ChecksWholeTable, hop] at h
    by_cases hedges : addEdges = []
    · apply hb.mono
      intro a d hd
      rcases (m.dependsOn_iff a d).mp hd with hold | hnew
      · exact hold
      · rw [hedges] at hnew
        cases hnew
    · exact (m.acyclic_iff hedges).mpr h

theorem acyclic_empty (teams : List String) : Acyclic (empty teams).DependsOn :=
  acyclic_of_isEmpty (fun a d h => by cases h)

end TaskBoard

/-- Under any team names, the dependency table stays acyclic along every run whose mutations
close no cycle through a row of another team. -/
theorem dependency_table_acyclic (teams : List String) (calls : List TaskCall)
    (hcalls : Meets TaskBoard.step TaskBoard.ChecksWholeTable (.empty teams) calls)
    (b : TaskBoard) (hb : Reached TaskBoard.step (.empty teams) calls b) :
    Acyclic b.DependsOn :=
  reached_invariant (I := fun b => Acyclic b.DependsOn)
    (fun _ _ hb h => TaskBoard.acyclic_step hb h) (TaskBoard.acyclic_empty teams) hcalls hb

def twoTeamCalls : List TaskCall :=
  [⟨inlineEnv, .mutateDependencyGraph "t1" [pendingSpec "a", pendingSpec "b"] [("a", "b")]⟩,
    ⟨inlineEnv, .mutateDependencyGraph "t2" [pendingSpec "c"] [("b", "c")]⟩]

private theorem not_reach_back {b : TaskBoard} (hkeys : b.deps.keys = [("a", "b")]) :
    ¬ ReflTransGen (b.DependsOnWith [("b", "c")]) "b" "a" := by
  have hreach : ∀ x, ReflTransGen (b.DependsOnWith [("b", "c")]) "b" x → x = "b" ∨ x = "c" := by
    intro x hx
    induction hx with
    | refl => exact Or.inl rfl
    | tail _ hstep ih =>
      rcases hstep with hold | hnew
      · rw [TaskBoard.DependsOn, hkeys, mem_singleton, Prod.mk.injEq] at hold
        rcases ih with rfl | rfl
        · exact absurd hold.1 (by decide)
        · exact absurd hold.1 (by decide)
      · rw [mem_singleton, Prod.mk.injEq] at hnew
        exact Or.inr hnew.2
  intro hback
  rcases hreach "a" hback with h | h
  · exact absurd h (by decide)
  · exact absurd h (by decide)

private theorem twoTeamCalls_meet :
    Meets TaskBoard.step TaskBoard.ChecksWholeTable (.empty ["t1", "t2"]) twoTeamCalls := by
  refine ⟨fun a d row hrow => ?_, fun a d row hrow _ => ?_, True.intro⟩
  · cases hrow
  · -- the only foreign row is (a, b)
    have hkeys : (TaskBoard.step (.empty ["t1", "t2"]) ⟨inlineEnv,
        .mutateDependencyGraph "t1" [pendingSpec "a", pendingSpec "b"] [("a", "b")]⟩).deps.keys =
        [("a", "b")] := by decide
    have hkey : (a, d) ∈ [("a", "b")] := hkeys ▸ Dict.mem_keys_iff.mpr ⟨row, hrow⟩
    obtain ⟨rfl, rfl⟩ := Prod.mk.inj (mem_singleton.mp hkey)
    exact not_reach_back hkeys

/-- Acyclicity along the run of the two teams. -/
theorem dependency_table_acyclic_two_teams :
    Acyclic (run TaskBoard.step (.empty ["t1", "t2"]) twoTeamCalls).DependsOn :=
  dependency_table_acyclic ["t1", "t2"] twoTeamCalls twoTeamCalls_meet _
    ⟨twoTeamCalls, prefix_rfl, rfl⟩

def crossTeamCalls : List TaskCall :=
  [⟨inlineEnv, .mutateDependencyGraph "t1" [pendingSpec "a", pendingSpec "b"] [("a", "b")]⟩,
    ⟨inlineEnv, .mutateDependencyGraph "t2" [] [("b", "a")]⟩]

/-- The second team's mutation is accepted and closes a cycle. -/
theorem dependency_table_cyclic :
    ¬ Acyclic (run TaskBoard.step (.empty ["t1", "t2"]) crossTeamCalls).DependsOn := by
  intro h
  have hab : (run TaskBoard.step (.empty ["t1", "t2"]) crossTeamCalls).DependsOn "a" "b" := by
    decide
  have hba : (run TaskBoard.step (.empty ["t1", "t2"]) crossTeamCalls).DependsOn "b" "a" := by
    decide
  exact h "a" (TransGen.tail (TransGen.single hab) hba)

end JiuwenSpec.Team

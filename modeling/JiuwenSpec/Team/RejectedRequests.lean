import JiuwenSpec.Team.TaskDao

/-!
# What a rejected request leaves behind

`create_task` and `mutate_dependency_graph` spill task bodies to session files before they
validate the request. A rejection rolls the tables back; the files keep what was spilled.
Source: `agent_teams/tools/database/task_dao.py`.
-/

namespace JiuwenSpec.Team

open Base Option

/-- The file a body is spilled to, `none` where it stays inline or `ValueError` escapes. -/
def spillTarget (env : DaoEnv) (teamName taskId content : String) : Option FileAddress :=
  if content = "" ∨ env.hasFileStore = false then none
  else
    match env.sessionId with
    | none => none
    | some sessionId =>
      let address := taskAddress teamName sessionId taskId
      if sessionId ≠ "" ∧ env.put address = .written then some (env.resolve address) else none

def lastSpilled (env : DaoEnv) (teamName : String) (address : FileAddress) :
    List (String × String) → Option String
  | [] => none
  | (taskId, content) :: bodies =>
    (lastSpilled env teamName address bodies).or
      (if spillTarget env teamName taskId content = some address then some content else none)

variable {env : DaoEnv} {files : Dict FileAddress String} {taskId teamName : String}

theorem files_toStored {files' : Dict FileAddress String} {content stored : String}
    (h : toStored env files teamName content taskId = some (files', stored))
    (address : FileAddress) :
    files'.get? address =
      (if spillTarget env teamName taskId content = some address then some content
        else none).or (files.get? address) := by
  unfold toStored at h
  unfold spillTarget
  split at h
  · next hempty => simp_all
  next hcontent =>
  split at h
  · next hstore => simp_all
  next hstore =>
  cases hsession : env.sessionId with
  | none => simp_all
  | some sessionId =>
    simp only [hsession] at h
    split at h
    · next hname => simp_all
    next hname =>
    cases hput : env.put (taskAddress teamName sessionId taskId) with
    | written =>
      simp only [hput, some.injEq, Prod.mk.injEq] at h
      obtain ⟨rfl, -⟩ := h
      rw [if_neg (show ¬ (content = "" ∨ env.hasFileStore = false) from
        fun hor => hor.elim hcontent hstore)]
      simp only [hname, hput, ne_eq, not_false_eq_true, and_self, if_true, some.injEq]
      rw [Dict.get?_set]
      by_cases hsame : address = env.resolve (taskAddress teamName sessionId taskId)
      · rw [if_pos hsame, if_pos hsame.symm, some_or]
      · rw [if_neg hsame, if_neg (Ne.symm hsame), none_or]
    | ioError =>
      simp only [hput, some.injEq, Prod.mk.injEq] at h
      obtain ⟨rfl, -⟩ := h
      simp [hput]
    | escapesRoot => simp [hput] at h

namespace TaskBoard

theorem files_spillNewTasks {specs specs' : List NewTaskSpec} {files' : Dict FileAddress String}
    (h : spillNewTasks env teamName files specs = (files', some specs')) (address : FileAddress) :
    files'.get? address =
      (lastSpilled env teamName address (specs.map fun s => (s.taskId, s.content))).or
        (files.get? address) := by
  induction specs generalizing files specs' with
  | nil =>
    cases h
    rfl
  | cons spec specs ih =>
    rw [spillNewTasks] at h
    cases hstored : toStored env files teamName spec.content spec.taskId with
    | none => simp [hstored] at h
    | some stored =>
      obtain ⟨files₁, content⟩ := stored
      cases hrest : spillNewTasks env teamName files₁ specs with
      | mk files₂ rest =>
        simp only [hstored, hrest, Prod.mk.injEq] at h
        obtain ⟨rfl, hspecs⟩ := h
        cases rest with
        | none => simp at hspecs
        | some rest =>
          rw [ih hrest, files_toStored hstored address, ← Option.or_assoc]
          rfl

/-- Whether rows of the placeholder are dereferenced: `_deref_row` asks for a session id. -/
def sessionOf (env : DaoEnv) : Option String := env.sessionId.filter (fun s => s ≠ "")

/-- `_hydrate_row`: the body a reader of the row gets; `none` is the `AttributeError` of a
placeholder read without a file store. -/
def hydrateRow (env : DaoEnv) (files : Dict FileAddress String) (taskId : String)
    (task : TeamTask) : Option String :=
  if task.content ≠ contentInFile then some task.content
  else
    match sessionOf env with
    | none => some task.content
    | some sessionId =>
      let address := taskAddress task.teamName sessionId taskId
      if env.hasFileStore = false then none
      else if env.put address = .escapesRoot then some task.content
      else some ((files.get? (env.resolve address)).getD task.content)

def body? (b : TaskBoard) (env : DaoEnv) (taskId : String) : Option (Option String) :=
  (b.tasks.get? taskId).map (hydrateRow env b.files taskId)

def fileOf (env : DaoEnv) (taskId : String) (task : TeamTask) : Option FileAddress :=
  if task.content = contentInFile ∧ env.hasFileStore = true then
    (sessionOf env).bind fun sessionId =>
      let address := taskAddress task.teamName sessionId taskId
      if env.put address = .escapesRoot then none else some (env.resolve address)
  else none

theorem hydrateRow_eq_of_fileOf {task : TeamTask} {files' : Dict FileAddress String}
    (h : ∀ address, fileOf env taskId task = some address →
      files'.get? address = files.get? address) :
    hydrateRow env files' taskId task = hydrateRow env files taskId task := by
  unfold hydrateRow
  unfold fileOf at h
  split
  · rfl
  next hcontent =>
  cases hsession : sessionOf env with
  | none => rfl
  | some sessionId =>
    simp only
    split
    · rfl
    next hstore =>
    split
    · rfl
    next hput =>
    rw [h _ (by simp_all)]

theorem hydrateRow_of_fileOf {task : TeamTask} {address : FileAddress}
    (h : fileOf env taskId task = some address) :
    hydrateRow env files taskId task = some ((files.get? address).getD task.content) := by
  unfold fileOf at h
  split at h
  · next hplain =>
    obtain ⟨sessionId, hsession, haddress⟩ := bind_eq_some_iff.mp h
    simp only at haddress
    split at haddress
    · cases haddress
    · next hput =>
      cases haddress
      simp [hydrateRow, hplain, hsession, hput]
  · cases h

def requestBodies : TaskOp → String × List (String × String)
  | .createTask taskId teamName _ content _ => (teamName, [(taskId, content)])
  | .mutateDependencyGraph teamName newTasks _ =>
    (teamName, newTasks.map fun s => (s.taskId, s.content))
  | _ => ("", [])

/-- A create or mutate request that returns a failure. -/
def Rejected (b : TaskBoard) (env : DaoEnv) : TaskOp → Prop
  | .createTask taskId teamName title content status =>
    (b.createTask env taskId teamName title content status).2 = some false
  | .mutateDependencyGraph teamName newTasks addEdges =>
    ∃ failure, (b.mutateDependencyGraph env teamName newTasks addEdges).2 =
      some (.error failure)
  | _ => False

/-- Same task rows, same dependency rows, same body of every existing task. -/
def Unchanged (b b' : TaskBoard) (env : DaoEnv) : Prop :=
  b'.tasks = b.tasks ∧ b'.deps = b.deps ∧ ∀ taskId, b'.body? env taskId = b.body? env taskId

/-- No body of a request replaces another body in the file of an existing task. -/
def KeepsBodies (b : TaskBoard) (env : DaoEnv) (op : TaskOp) : Prop :=
  ∀ taskId task address, b.tasks.get? taskId = some task →
    fileOf env taskId task = some address →
    ∀ content, lastSpilled env (requestBodies op).1 address (requestBodies op).2 = some content →
      content = (b.files.get? address).getD task.content

private theorem rejected_createTask {b : TaskBoard} {title content : String} {status : TaskStatus}
    (h : (b.createTask env taskId teamName title content status).2 = some false) :
    ∃ files, (b.createTask env taskId teamName title content status).1 = b.withFiles files ∧
      ∀ address, files.get? address =
        (lastSpilled env teamName address [(taskId, content)]).or (b.files.get? address) := by
  unfold createTask at h ⊢
  cases hstored : toStored env b.files teamName content taskId with
  | none => simp [hstored] at h
  | some stored =>
    obtain ⟨files, text⟩ := stored
    simp only [hstored] at h ⊢
    split at h
    · cases h
    · simp only
      refine ⟨files, rfl, fun address => ?_⟩
      rw [files_toStored hstored address]
      simp [lastSpilled]

private theorem rejected_mutate {b : TaskBoard}
    {newTasks : List NewTaskSpec} {addEdges : List (String × String)} {failure : MutationFailure}
    (h : (b.mutateDependencyGraph env teamName newTasks addEdges).2 = some (.error failure)) :
    ∃ files, (b.mutateDependencyGraph env teamName newTasks addEdges).1 = b.withFiles files ∧
      ∀ address, files.get? address =
        (lastSpilled env teamName address (newTasks.map fun s => (s.taskId, s.content))).or
          (b.files.get? address) := by
  unfold mutateDependencyGraph at h ⊢
  split at h
  · simp at h
  next hne =>
  rw [if_neg hne]
  cases hspill : spillNewTasks env teamName b.files newTasks with
  | mk files specs =>
    cases specs with
    | none => simp [hspill] at h
    | some specs =>
      simp only [hspill] at h ⊢
      split at h
      · simp at h
      · simp only
        exact ⟨files, rfl, files_spillNewTasks hspill⟩

theorem rejected_step {b : TaskBoard} {op : TaskOp} (h : b.Rejected env op) :
    ∃ files, b.step ⟨env, op⟩ = b.withFiles files ∧
      ∀ address, files.get? address =
        (lastSpilled env (requestBodies op).1 address (requestBodies op).2).or
          (b.files.get? address) := by
  cases op with
  | createTask => exact rejected_createTask h
  | mutateDependencyGraph =>
    obtain ⟨failure, hfailure⟩ := h
    exact rejected_mutate hfailure
  | _ => exact h.elim

/-- A rejected request changes nothing exactly when none of its bodies replaces that of an
existing task. -/
theorem rejected_unchanged_iff (b : TaskBoard) (env : DaoEnv) (op : TaskOp)
    (h : b.Rejected env op) :
    b.Unchanged (b.step ⟨env, op⟩) env ↔ b.KeepsBodies env op := by
  obtain ⟨files, hstep, hfiles⟩ := rejected_step h
  rw [hstep]
  constructor
  · intro hsame taskId task address htask haddress content hspilled
    have hbody := hsame.2.2 taskId
    have hfile : files.get? address = some content := by
      rw [hfiles address, hspilled, some_or]
    simp only [body?, withFiles, htask, map_some, hydrateRow_of_fileOf haddress, hfile,
      getD_some, some.injEq] at hbody
    exact hbody
  · intro hkeep
    refine ⟨rfl, rfl, fun taskId => ?_⟩
    show (b.tasks.get? taskId).map (hydrateRow env files taskId) = b.body? env taskId
    cases htask : b.tasks.get? taskId with
    | none => simp [body?, htask]
    | some task =>
      simp only [body?, htask, map_some, some.injEq]
      cases haddress : fileOf env taskId task with
      | none => exact hydrateRow_eq_of_fileOf fun address ha => by simp [haddress] at ha
      | some address =>
        rw [hydrateRow_of_fileOf haddress, hydrateRow_of_fileOf haddress, hfiles address]
        cases hspilled : lastSpilled env (requestBodies op).1 address (requestBodies op).2 with
        | none => rfl
        | some content =>
          rw [hkeep taskId task address htask haddress content hspilled]
          rfl

def fileEnv : DaoEnv where
  hasFileStore := true
  sessionId := some "s1"
  put := fun _ => .written
  now := 0

def oneTaskBoard : TaskBoard :=
  ((empty ["team"]).createTask fileEnv "t1" "team" "title" "first" .pending).1

def unknownPrerequisite : TaskOp :=
  .mutateDependencyGraph "team" [⟨"t2", "title", "second", .pending, none, none, none⟩]
    [("t2", "t9")]

/-- It is refused, and the body of `t1` stays. -/
theorem rejected_unknown_prerequisite :
    oneTaskBoard.Unchanged (oneTaskBoard.step ⟨fileEnv, unknownPrerequisite⟩) fileEnv := by
  have hrejected : oneTaskBoard.Rejected fileEnv unknownPrerequisite :=
    ⟨.targetNotFound "t9", by decide⟩
  apply (rejected_unchanged_iff oneTaskBoard fileEnv unknownPrerequisite hrejected).mpr
  intro taskId task address htask haddress content hspilled
  have hmem := Dict.get?_eq_some_iff.mp htask
  have hentries : oneTaskBoard.tasks.entries =
      [("t1", ⟨"team", "title", "#file#", .pending, none, none, 0, none, some 0⟩)] := by decide
  rw [hentries, List.mem_singleton] at hmem
  obtain ⟨rfl, rfl⟩ := Prod.mk.inj hmem
  cases haddress
  have hnone : lastSpilled fileEnv "team" (taskAddress "team" "s1" "t1") [("t2", "second")] =
      none := by decide
  exact absurd (hnone.symm.trans hspilled) (by simp)

/-- A creation with the id of `t1` is refused and yet replaces its body. -/
theorem rejected_duplicate_overwrites :
    (oneTaskBoard.createTask fileEnv "t1" "team" "title" "second" .pending).2 = some false ∧
      oneTaskBoard.body? fileEnv "t1" = some (some "first") ∧
      (oneTaskBoard.step ⟨fileEnv, .createTask "t1" "team" "title" "second" .pending⟩).body?
        fileEnv "t1" = some (some "second") := by
  decide

end TaskBoard

end JiuwenSpec.Team

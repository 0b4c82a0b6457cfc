import JiuwenSpec.Base.Descent
import JiuwenSpec.Controller.TaskScheduler

/-!
# Indexes of the task manager

The stored tasks, and four indexes over them: ids by priority, the root tasks, children by parent
and the parent of each child. Parents need not be stored. Which ids a filter selects, and in which
order the set yields them, is left open; the methods hold the lock from end to end.
Source: `core/controller/modules/task_manager.py`.
-/

namespace JiuwenSpec.Controller.Manager

open Base List MultiMap Relation

/-- The fields of a `Task` that the manager reads or writes. -/
structure Task where
  taskId : String
  priority : Int
  status : TaskStatus
  parentTaskId : Option String
  userId : Option String
deriving DecidableEq

/-- `parent_task_id`, where it is true: an empty id is no parent. -/
def Task.parent? (t : Task) : Option String := t.parentTaskId.filter (· ≠ "")

structure TaskManager where
  tasks : Dict String Task
  priorityIndex : Dict Int (List String)
  parentToChildren : Dict String (List String)
  childToParent : Dict String String
  rootTasks : List String

namespace TaskManager

def empty : TaskManager := ⟨.empty, .empty, .empty, .empty, []⟩

/-- The ids of a priority, as a `defaultdict` gives them. -/
def idsAt (index : Dict Int (List String)) (priority : Int) : List String :=
  (index.get? priority).getD []

/-- `self._priority_index[priority].append(task_id)`. -/
def enlist (index : Dict Int (List String)) (priority : Int) (taskId : String) :
    Dict Int (List String) :=
  index.set priority (idsAt index priority ++ [taskId])

/-- `self._priority_index[priority].remove(tid)`, where the priority has an entry. -/
def unlist (index : Dict Int (List String)) (priority : Int) (taskId : String) :
    Dict Int (List String) :=
  match index.get? priority with
  | none => index
  | some ids => index.set priority (ids.erase taskId)

/-- Put a task under its parent, or among the roots. -/
def attach (s : TaskManager) (taskId : String) : Option String → TaskManager
  | some parent =>
    { s with
      parentToChildren := insert s.parentToChildren parent taskId
      childToParent := s.childToParent.set taskId parent
      rootTasks := discard taskId s.rootTasks }
  | none => { s with rootTasks := addTo taskId s.rootTasks }

/-- Take a task from its parent; the emptied set stays. -/
def detach (s : TaskManager) (taskId parent : String) : TaskManager :=
  { s with
    parentToChildren := remove (fun _ => true) s.parentToChildren parent taskId
    childToParent := s.childToParent.erase taskId }

/-- Take a task from the parent that it had, if any. -/
def leave (s : TaskManager) (taskId : String) : Option String → TaskManager
  | some parent => s.detach taskId parent
  | none => s

/-- One task of `_add_tasks`; `none` where it raises. -/
def addOne (s : TaskManager) (t : Task) : Option TaskManager :=
  if t.taskId ∈ s.tasks.keys then none
  else
    some (attach { s with
      tasks := s.tasks.set t.taskId t
      priorityIndex := enlist s.priorityIndex t.priority t.taskId } t.taskId t.parent?)

/-- `_add_tasks`, and whether it raises; the tasks before a duplicate stay. -/
def addTasks : TaskManager → List Task → TaskManager × Bool
  | s, [] => (s, false)
  | s, t :: tasks =>
    match s.addOne t with
    | none => (s, true)
    | some s => s.addTasks tasks

/-- Make a child of a removed task a root, unless it is removed too. -/
def promote (ids : List String) (s : TaskManager) (child : String) : TaskManager :=
  if child ∈ ids then s
  else
    match s.tasks.get? child with
    | none => s
    | some t =>
      { s with
        tasks := s.tasks.set child { t with parentTaskId := none }
        rootTasks := addTo child s.rootTasks
        childToParent := s.childToParent.erase child }

/-- Take a task that is removed from its parent, or from the roots. -/
def withdraw (s : TaskManager) (taskId : String) : Option String → TaskManager
  | some parent => s.detach taskId parent
  | none => { s with rootTasks := discard taskId s.rootTasks }

/-- Give up the children of a task that is removed. -/
def orphan (ids : List String) (s : TaskManager) (taskId : String) : TaskManager :=
  match s.parentToChildren.get? taskId with
  | none => s
  | some children =>
    { children.foldl (promote ids) s with
      parentToChildren := (children.foldl (promote ids) s).parentToChildren.erase taskId }

/-- One id of the loop of `remove_task` and `pop_task`. -/
def removeOne (ids : List String) (s : TaskManager) (taskId : String) : TaskManager :=
  match s.tasks.get? taskId with
  | none => s
  | some t =>
    let s := { s with priorityIndex := unlist s.priorityIndex t.priority taskId }
    let s := orphan ids (s.withdraw taskId t.parent?) taskId
    { s with tasks := s.tasks.erase taskId }

def removeTasks (s : TaskManager) (ids : List String) : TaskManager := ids.foldl (removeOne ids) s

def relist (index : Dict Int (List String)) (old new : Int) (taskId : String) :
    Dict Int (List String) :=
  let index := unlist index old taskId
  if taskId ∈ idsAt index new then index else enlist index new taskId

/-- One task of `update_task`. -/
def updateOne (s : TaskManager) (t : Task) : TaskManager :=
  match s.tasks.get? t.taskId with
  | none => s
  | some old =>
    let s := { s with
      tasks := s.tasks.set t.taskId t
      priorityIndex := relist s.priorityIndex old.priority t.priority t.taskId }
    if old.parentTaskId = t.parentTaskId then s
    else
      let s := s.leave t.taskId old.parent?
      match t.parent? with
      | some parent => s.attach t.taskId (some parent)
      | none =>
        { s.attach t.taskId none with childToParent := s.childToParent.erase t.taskId }

/-- One id of `set_priority`. -/
def setPriorityOne (new : Int) (s : TaskManager) (taskId : String) : TaskManager :=
  match s.tasks.get? taskId with
  | none => s
  | some t =>
    { s with
      tasks := s.tasks.set taskId { t with priority := new }
      priorityIndex :=
        if t.priority = new then s.priorityIndex
        else enlist (unlist s.priorityIndex t.priority taskId) new taskId }

/-- One id of `update_task_status`. -/
def setStatusOne (new : TaskStatus) (s : TaskManager) (taskId : String) : TaskManager :=
  match s.tasks.get? taskId with
  | none => s
  | some t => { s with tasks := s.tasks.set taskId { t with status := new } }

/-- The calls; `remove` is `remove_task` or `pop_task` of the selected ids. -/
inductive Op where
  | add (tasks : List Task)
  | remove (ids : List String)
  | update (tasks : List Task)
  | setPriority (ids : List String) (new : Int)
  | setStatus (ids : List String) (new : TaskStatus)
  | clear

def step (s : TaskManager) : Op → TaskManager
  | .add tasks => (s.addTasks tasks).1
  | .remove ids => s.removeTasks ids
  | .update tasks => tasks.foldl updateOne s
  | .setPriority ids new => ids.foldl (setPriorityOne new) s
  | .setStatus ids new => ids.foldl (setStatusOne new) s
  | .clear => empty

/-- Whether a task passes the filters of `pop_task` on status and user. -/
def passes (status : Option TaskStatus) (userId : Option String) (t : Task) : Bool :=
  status.all (· = t.status) && userId.all (t.userId = some ·)

/-- `pop_task` for the priority `"highest"`, without other selections: the ids under the largest
key of the index that pass. -/
def highestIds (s : TaskManager) (status : Option TaskStatus) (userId : Option String) :
    List String :=
  match s.priorityIndex.keys.max? with
  | none => []
  | some priority =>
    (idsAt s.priorityIndex priority).filter fun id =>
      (s.tasks.get? id).any (passes status userId)

/-- `_collect_all_children`, which does not look whether it has been at a task. -/
def collectAllChildren (s : TaskManager) (turns : Nat) (parentId : String)
    (childrenSet : List String) : Option (List String) :=
  Descent.descend (fun parent => (s.parentToChildren.get? parent).getD []) turns parentId
    childrenSet

/-- A stored task names its parent. -/
def ParentOf (s : TaskManager) (parent child : String) : Prop :=
  (s.tasks.get? child).bind Task.parent? = some parent

variable {s : TaskManager} {t old : Task} {id child parent : String} {ids : List String}
  {index : Dict Int (List String)} {tasks tasks' : Dict String Task} {p q : Int} {key : String}
  {used : Int → Prop}

/-- Each stored id stands once in the index, under its own priority, and no other id stands there. -/
def Once (index : Dict Int (List String)) (tasks : Dict String Task) : Prop :=
  ∀ p id, (idsAt index p).count id = if (tasks.get? id).map Task.priority = some p then 1 else 0

theorem idsAt_enlist : idsAt (enlist index q id) p =
    if p = q then idsAt index q ++ [id] else idsAt index p := by
  rw [enlist, idsAt, Dict.get?_set]
  split
  · rfl
  · rfl

theorem idsAt_unlist : idsAt (unlist index q id) p =
    if p = q then (idsAt index q).erase id else idsAt index p := by
  unfold unlist
  split
  · next hnone =>
    split
    · next heq => simp [idsAt, heq, hnone]
    · rfl
  · next found hfound =>
    rw [idsAt, Dict.get?_set]
    split
    · simp [idsAt, hfound]
    · rfl

theorem key_enlist (h : p ∈ index.keys) : p ∈ (enlist index q id).keys :=
  (Dict.mem_keys_set ..).mpr (.inr h)

theorem key_unlist (h : p ∈ index.keys) : p ∈ (unlist index q id).keys := by
  unfold unlist
  split
  · exact h
  · exact (Dict.mem_keys_set ..).mpr (.inr h)

theorem Once.congr (h : Once index tasks)
    (hsame : ∀ id, (tasks'.get? id).map Task.priority = (tasks.get? id).map Task.priority) :
    Once index tasks' := fun p id => by rw [h p id, hsame]

theorem Once.unlist (h : Once index tasks) (ht : tasks.get? id = some t) :
    Once (unlist index t.priority id) (tasks.erase id) := by
  intro p other
  rw [idsAt_unlist, Dict.get?_erase]
  have hown := h t.priority other
  have hp := h p other
  by_cases heq : other = id
  · subst heq
    rw [ht] at hown hp
    split
    · next hpt => simp_all
    · next hpt => simp_all [eq_comm]
  · rw [if_neg heq]
    split
    · next hpt => rw [hpt, List.count_erase_of_ne heq, hown]
    · exact hp

theorem Once.enlist (h : Once index tasks) (hnone : tasks.get? t.taskId = none) :
    Once (enlist index t.priority t.taskId) (tasks.set t.taskId t) := by
  intro p other
  rw [idsAt_enlist, Dict.get?_set]
  have hown := h t.priority other
  have hp := h p other
  by_cases heq : other = t.taskId
  · subst heq
    rw [hnone] at hown hp
    split
    · next hpt => simp_all
    · next hpt => simp [hp, Ne.symm hpt]
  · rw [if_neg heq]
    split
    · next hpt => simp [hpt, hown, Ne.symm heq]
    · exact hp

/-- The parent of a stored task, or that it has none. -/
def place (tasks : Dict String Task) (id : String) : Option (Option String) :=
  (tasks.get? id).map Task.parent?

/-- The indexes of the relationships agree with the tasks; a task that is `leaving` may miss in the
set of its parent. -/
structure Family (leaving : List String) (s : TaskManager) : Prop where
  roots : ∀ id, id ∈ s.rootTasks ↔ place s.tasks id = some none
  parent : ∀ id, s.childToParent.get? id = (place s.tasks id).join
  child : ∀ parent id, Holds s.parentToChildren parent id → place s.tasks id = some (some parent)
  listed : ∀ parent id, place s.tasks id = some (some parent) →
    Holds s.parentToChildren parent id ∨ id ∈ leaving

structure Indexed (used : Int → Prop) (leaving : List String) (s : TaskManager) : Prop where
  once : Once s.priorityIndex s.tasks
  family : Family leaving s
  keys : ∀ p, used p → p ∈ s.priorityIndex.keys

theorem place_join : (place tasks id).join = (tasks.get? id).bind Task.parent? := by
  rw [place]
  cases tasks.get? id <;> rfl

theorem Family.congr (h : Family ids s) (hsame : ∀ id, place tasks' id = place s.tasks id) :
    Family ids { s with tasks := tasks', priorityIndex := index } :=
  ⟨fun id => (h.roots id).trans (by rw [hsame]), fun id => (h.parent id).trans (by rw [hsame]),
    fun parent id hid => (hsame id).trans (h.child parent id hid),
    fun parent id hid => h.listed parent id ((hsame id).symm.trans hid)⟩

theorem place_set :
    place (tasks.set key t) id = if id = key then some t.parent? else place tasks id := by
  rw [place, Dict.get?_set]
  split <;> rfl

theorem place_erase : place (tasks.erase key) id = if id = key then none else place tasks id := by
  rw [place, Dict.get?_erase]
  split <;> rfl

/-- One task gets a parent, or none, and the others stay where they are. -/
theorem Family.rewire {s' : TaskManager} {own : Option String} (h : Family ids s)
    (hplace : ∀ other, place s'.tasks other =
      if other = id then some own else place s.tasks other)
    (hroots : ∀ other, other ∈ s'.rootTasks ↔
      if other = id then own = none else other ∈ s.rootTasks)
    (hparent : ∀ other, s'.childToParent.get? other =
      if other = id then own else s.childToParent.get? other)
    (hholds : ∀ parent other, Holds s'.parentToChildren parent other ↔
      if other = id then own = some parent else Holds s.parentToChildren parent other) :
    Family ids s' := by
  refine ⟨fun other => ?_, fun other => ?_, fun parent other hheld => ?_,
    fun parent other hheld => ?_⟩
  · rw [hroots, hplace]
    split
    · rw [Option.some_inj]
    · exact h.roots other
  · rw [hparent, hplace]
    split
    · rfl
    · exact h.parent other
  · rw [hholds] at hheld
    rw [hplace]
    split at hheld
    · next heq => rw [if_pos heq, hheld]
    · next hne => rw [if_neg hne, h.child _ _ hheld]
  · rw [hplace] at hheld
    rw [hholds]
    split at hheld
    · next heq => exact .inl (by rwa [if_pos heq, ← Option.some_inj])
    · next hne => exact (h.listed _ _ hheld).imp_left fun held => by rwa [if_neg hne]

/-- A task is put under its parent, or among the roots, having no other place in the indexes. -/
theorem Family.attach (h : Family [] s) (s' : TaskManager) (own : Option String)
    (hplace : ∀ other, place s'.tasks other =
      if other = id then some own else place s.tasks other)
    (hroots : ∀ other, other ≠ id → (other ∈ s'.rootTasks ↔ other ∈ s.rootTasks))
    (hparent : ∀ other, s'.childToParent.get? other =
      if other = id then none else s.childToParent.get? other)
    (hholds : ∀ parent other, Holds s'.parentToChildren parent other ↔
      other ≠ id ∧ Holds s.parentToChildren parent other) :
    Family [] (s'.attach id own) := by
  cases own with
  | none =>
    refine h.rewire hplace (fun other => ?_) hparent fun parent other => ?_
    · rw [TaskManager.attach, mem_addTo]
      split
      · next heq => simp [heq]
      · next hne => rw [hroots other hne, or_iff_left hne]
    · refine (hholds parent other).trans ?_
      split <;> simp_all
  | some own =>
    refine h.rewire hplace (fun other => ?_) (fun other => ?_) fun parent other => ?_
    · rw [TaskManager.attach, mem_discard]
      split
      · next heq => simp [heq]
      · next hne => rw [hroots other hne, and_iff_left hne]
    · rw [TaskManager.attach, Dict.get?_set, hparent]
      split <;> rfl
    · rw [TaskManager.attach, holds_insert, hholds]
      split <;> simp_all [eq_comm]

theorem Indexed.addOne {s' : TaskManager} (h : Indexed used [] s) (hadd : s.addOne t = some s') :
    Indexed used [] s' := by
  unfold TaskManager.addOne at hadd
  split at hadd
  · cases hadd
  · next hkey =>
    cases hadd
    have hnone : s.tasks.get? t.taskId = none := Dict.get?_eq_none_iff.mpr hkey
    have hplace : place s.tasks t.taskId = none := by rw [place, hnone, Option.map_none]
    refine ⟨?_, h.family.attach _ _ (fun other => place_set) (fun _ _ => .rfl) (fun other => ?_)
      fun parent other => ?_, fun p hp => ?_⟩
    · cases t.parent? <;> exact h.once.enlist hnone
    · have hother := h.family.parent other
      split
      · next heq => rw [hother, heq, hplace, Option.join_none]
      · rfl
    · refine ⟨fun hheld => ⟨?_, hheld⟩, And.right⟩
      rintro rfl
      cases hplace.symm.trans (h.family.child _ _ hheld)
    · cases t.parent? <;> exact key_enlist (h.keys p hp)

theorem Once.relist (h : Once index tasks) (hold : tasks.get? t.taskId = some old) :
    Once (relist index old.priority t.priority t.taskId) (tasks.set t.taskId t) := by
  have hunlisted := h.unlist hold
  have hnone : (tasks.erase t.taskId).get? t.taskId = none := by rw [Dict.get?_erase, if_pos rfl]
  have hnot : t.taskId ∉ idsAt (TaskManager.unlist index old.priority t.taskId) t.priority := by
    rw [← count_eq_zero, hunlisted, hnone]
    rfl
  rw [TaskManager.relist, if_neg hnot]
  refine (hunlisted.enlist hnone).congr fun other => ?_
  rw [Dict.get?_set, Dict.get?_set, Dict.get?_erase]
  split <;> rfl

@[simp] theorem tasks_leave (own : Option String) : (s.leave id own).tasks = s.tasks := by
  cases own <;> rfl

@[simp] theorem rootTasks_leave (own : Option String) :
    (s.leave id own).rootTasks = s.rootTasks := by
  cases own <;> rfl

@[simp] theorem priorityIndex_leave (own : Option String) :
    (s.leave id own).priorityIndex = s.priorityIndex := by
  cases own <;> rfl

/-- A task that leaves its parent has no place in the maps of the relationships. -/
theorem Family.leave {own : Option String} (h : Family ids s) (s' : TaskManager)
    (hplace : place s.tasks id = some own) (hsets : s'.parentToChildren = s.parentToChildren)
    (hparents : s'.childToParent = s.childToParent) :
    (∀ other, (s'.leave id own).childToParent.get? other =
      if other = id then none else s.childToParent.get? other) ∧
    ∀ q other, Holds (s'.leave id own).parentToChildren q other ↔
      other ≠ id ∧ Holds s.parentToChildren q other := by
  have hheld : ∀ q, Holds s.parentToChildren q id → own = some q := fun q hq =>
    Option.some.inj (hplace.symm.trans (h.child _ _ hq))
  cases own with
  | none =>
    refine ⟨fun other => ?_, fun q other => ?_⟩
    · rw [TaskManager.leave, hparents]
      split
      · next heq => rw [heq, h.parent, hplace, Option.join_some]
      · rfl
    · rw [TaskManager.leave, hsets]
      refine ⟨fun hq => ⟨?_, hq⟩, And.right⟩
      rintro rfl
      cases hheld q hq
  | some parent =>
    refine ⟨fun other => ?_, fun q other => ?_⟩
    · rw [TaskManager.leave, detach, hparents, Dict.get?_erase]
    · rw [TaskManager.leave, detach, hsets, holds_remove]
      constructor
      · rintro ⟨hq, hnot⟩
        refine ⟨?_, hq⟩
        rintro rfl
        exact hnot ⟨(Option.some.inj (hheld q hq)).symm, rfl⟩
      · rintro ⟨hne, hq⟩
        exact ⟨hq, fun heq => hne heq.2⟩

theorem Indexed.updateOne (h : Indexed used [] s) : Indexed used [] (s.updateOne t) := by
  unfold TaskManager.updateOne
  split
  · exact h
  · next old hold =>
    have hplace : place s.tasks t.taskId = some old.parent? := by
      rw [place, hold, Option.map_some]
    have honce := h.once.relist hold
    have hkeys : ∀ p, used p →
        p ∈ (TaskManager.relist s.priorityIndex old.priority t.priority t.taskId).keys := by
      intro p hp
      unfold TaskManager.relist
      dsimp only
      split
      · exact key_unlist (h.keys p hp)
      · exact key_enlist (key_unlist (h.keys p hp))
    dsimp only
    split
    · next hsame =>
      refine ⟨honce, h.family.congr fun other => ?_, hkeys⟩
      rw [place_set]
      split
      · next heq => rw [heq, hplace, Task.parent?, Task.parent?, hsame]
      · rfl
    · obtain ⟨hparents, hholds⟩ := h.family.leave { s with
        tasks := s.tasks.set t.taskId t
        priorityIndex := TaskManager.relist s.priorityIndex old.priority t.priority t.taskId }
          hplace rfl rfl
      cases hnew : t.parent? with
      | none =>
        refine ⟨by simpa [TaskManager.attach] using honce, ?_,
          by simpa [TaskManager.attach] using hkeys⟩
        refine h.family.attach { leave _ _ _ with
          childToParent := (leave _ _ _).childToParent.erase t.taskId } none (fun other => ?_)
          (fun other _ => ?_) (fun other => ?_) hholds
        · simp only [tasks_leave, place_set, hnew]
        · simp only [rootTasks_leave]
        · simp only [Dict.get?_erase, hparents]
          split <;> rfl
      | some own =>
        refine ⟨by simpa [TaskManager.attach] using honce, ?_,
          by simpa [TaskManager.attach] using hkeys⟩
        refine h.family.attach _ (some own) (fun other => ?_) (fun other _ => ?_) hparents
          hholds
        · simp only [tasks_leave, place_set, hnew]
        · simp only [rootTasks_leave]

/-- A stored task changes in place, keeping its parent. -/
theorem Family.modify {t' : Task} (h : Family ids s) (ht : s.tasks.get? id = some t)
    (hparent : t'.parent? = t.parent?) :
    Family ids { s with tasks := s.tasks.set id t', priorityIndex := index } := by
  refine h.congr fun other => ?_
  rw [place_set]
  split
  · next heq => rw [heq, place, ht, hparent, Option.map_some]
  · rfl

theorem Once.modify {t' : Task} (h : Once index tasks) (ht : tasks.get? id = some t)
    (hpriority : t'.priority = t.priority) : Once index (tasks.set id t') := by
  refine h.congr fun other => ?_
  rw [Dict.get?_set]
  split
  · next heq => rw [heq, ht, Option.map_some, Option.map_some, hpriority]
  · rfl

theorem Indexed.setPriorityOne (h : Indexed used ids s) :
    Indexed used ids (setPriorityOne p s id) := by
  unfold TaskManager.setPriorityOne
  split
  · exact h
  · next t ht =>
    refine ⟨?_, h.family.modify ht rfl, fun q hq => ?_⟩
    all_goals dsimp only; split
    · next heq => exact h.once.modify ht heq.symm
    · have hnone : (s.tasks.erase id).get? id = none := by rw [Dict.get?_erase, if_pos rfl]
      refine ((h.once.unlist ht).enlist (t := { t with taskId := id, priority := p }) hnone).congr
        fun other => ?_
      rw [Dict.get?_set, Dict.get?_set, Dict.get?_erase]
      split <;> rfl
    · exact h.keys q hq
    · exact key_enlist (key_unlist (h.keys q hq))

theorem Indexed.setStatusOne {new : TaskStatus} (h : Indexed used ids s) :
    Indexed used ids (setStatusOne new s id) := by
  unfold TaskManager.setStatusOne
  split
  · exact h
  · next t ht => exact ⟨h.once.modify ht rfl, h.family.modify ht rfl, h.keys⟩

/-- The tasks that are gone from their parent have become roots, and nothing else has changed. -/
structure Promoted (gone : String → Prop) (s s' : TaskManager) : Prop where
  index : s'.priorityIndex = s.priorityIndex
  sets : s'.parentToChildren = s.parentToChildren
  priority : ∀ id, (s'.tasks.get? id).map Task.priority = (s.tasks.get? id).map Task.priority
  placed : ∀ id, gone id → place s'.tasks id = some none ∧ s'.childToParent.get? id = none
  stayed : ∀ id, ¬ gone id → place s'.tasks id = place s.tasks id ∧
    s'.childToParent.get? id = s.childToParent.get? id
  roots : ∀ id, id ∈ s'.rootTasks ↔ gone id ∨ id ∈ s.rootTasks

theorem promoted_promote (ids : List String) (hstored : place s.tasks child ≠ none) :
    Promoted (fun id => id = child ∧ child ∉ ids) s (promote ids s child) := by
  unfold promote
  split
  · next hmem =>
    exact ⟨rfl, rfl, fun _ => rfl, fun id hid => absurd hmem hid.2, fun _ _ => ⟨rfl, rfl⟩,
      fun id => (or_iff_right fun hid => hid.2 hmem).symm⟩
  · next hmem =>
    split
    · next hnone => exact absurd (by rw [place, hnone, Option.map_none]) hstored
    · next t ht =>
      refine ⟨rfl, rfl, fun id => ?_, fun id hid => ?_, fun id hid => ?_, fun id => ?_⟩
      · rw [Dict.get?_set]
        split
        · next heq => rw [heq, ht, Option.map_some, Option.map_some]
        · rfl
      · rw [place_set, Dict.get?_erase, if_pos hid.1, if_pos hid.1]
        exact ⟨rfl, rfl⟩
      · have hne : id ≠ child := fun heq => hid ⟨heq, hmem⟩
        rw [place_set, Dict.get?_erase, if_neg hne, if_neg hne]
        exact ⟨rfl, rfl⟩
      · rw [mem_addTo, and_iff_left hmem, or_comm]

theorem promoted_promotes (ids : List String) {children : List String}
    (hstored : ∀ child ∈ children, place s.tasks child ≠ none) :
    Promoted (fun id => id ∈ children ∧ id ∉ ids) s (children.foldl (promote ids) s) := by
  induction children generalizing s with
  | nil =>
    exact ⟨rfl, rfl, fun _ => rfl, fun _ hid => absurd hid.1 not_mem_nil, fun _ _ => ⟨rfl, rfl⟩,
      fun id => (or_iff_right fun hid => not_mem_nil hid.1).symm⟩
  | cons child children ih =>
    obtain ⟨hfirst, hrest⟩ := forall_mem_cons.mp hstored
    have hone := promoted_promote ids hfirst
    have hkept : ∀ other ∈ children, place (promote ids s child).tasks other ≠ none := by
      intro other hother
      by_cases hgone : other = child ∧ child ∉ ids
      · rw [(hone.placed other hgone).1]
        exact Option.some_ne_none _
      · rw [(hone.stayed other hgone).1]
        exact hrest other hother
    have hall := ih hkept
    refine ⟨hall.index.trans hone.index, hall.sets.trans hone.sets,
      fun id => (hall.priority id).trans (hone.priority id), fun id hid => ?_, fun id hid => ?_,
      fun id => ?_⟩
    · by_cases hlater : id ∈ children
      · exact hall.placed id ⟨hlater, hid.2⟩
      · have heq := (mem_cons.mp hid.1).resolve_right hlater
        have hthere := hall.stayed id fun hgone => hlater hgone.1
        rw [foldl_cons, hthere.1, hthere.2]
        exact hone.placed id ⟨heq, heq ▸ hid.2⟩
    · have hlater := hall.stayed id fun hgone => hid ⟨mem_cons_of_mem _ hgone.1, hgone.2⟩
      have hnow := hone.stayed id fun hgone => hid ⟨hgone.1 ▸ mem_cons_self, hgone.1 ▸ hgone.2⟩
      exact ⟨hlater.1.trans hnow.1, hlater.2.trans hnow.2⟩
    · rw [foldl_cons, hall.roots, hone.roots, mem_cons]
      constructor
      · rintro (⟨hmem, hid⟩ | ⟨rfl, hid⟩ | hroot)
        · exact .inl ⟨.inr hmem, hid⟩
        · exact .inl ⟨.inl rfl, hid⟩
        · exact .inr hroot
      · rintro (⟨rfl | hmem, hid⟩ | hroot)
        · exact .inr (.inl ⟨rfl, hid⟩)
        · exact .inl ⟨hmem, hid⟩
        · exact .inr (.inr hroot)

theorem promoted_orphan (s : TaskManager) (id : String) (ids : List String)
    (hstored : ∀ child, Holds s.parentToChildren id child → place s.tasks child ≠ none) :
    ∃ s', Promoted (fun child => Holds s.parentToChildren id child ∧ child ∉ ids) s s' ∧
      orphan ids s id = { s' with parentToChildren := (orphan ids s id).parentToChildren } ∧
      ∀ q child, Holds (orphan ids s id).parentToChildren q child ↔
        q ≠ id ∧ Holds s.parentToChildren q child := by
  unfold orphan
  cases hchildren : s.parentToChildren.get? id with
  | none =>
    have hnot : ∀ child, ¬ Holds s.parentToChildren id child := by
      rintro child ⟨children, heq, -⟩
      cases hchildren.symm.trans heq
    refine ⟨s, ⟨rfl, rfl, fun _ => rfl, fun child hgone => absurd hgone.1 (hnot child),
      fun _ _ => ⟨rfl, rfl⟩, fun child => (or_iff_right fun hgone => hnot child hgone.1).symm⟩,
      rfl, fun q child => ⟨fun hheld => ⟨?_, hheld⟩, And.right⟩⟩
    rintro rfl
    exact hnot child hheld
  | some children =>
    have hmem : ∀ child, Holds s.parentToChildren id child ↔ child ∈ children := fun child => by
      rw [holds_iff_mem, hchildren, Option.getD_some]
    have hall := promoted_promotes ids fun child hchild =>
      hstored child ((hmem child).mpr hchild)
    simp only [hmem]
    refine ⟨_, hall, rfl, fun q child => ?_⟩
    rw [holds_erase, hall.sets]

/-- Removing one of the tasks that leave: its children become roots, unless they leave too. -/
theorem Indexed.removeOne (h : Indexed used ids s) (hid : id ∈ ids) :
    Indexed used ids (removeOne ids s id) ∧ ∀ other, other = id ∨ s.tasks.get? other = none →
      (TaskManager.removeOne ids s id).tasks.get? other = none := by
  unfold TaskManager.removeOne
  split
  · next hnone => exact ⟨h, fun other hother => hother.elim (fun heq => heq ▸ hnone) fun hn => hn⟩
  · next t ht =>
    have hplace : place s.tasks id = some t.parent? := by rw [place, ht, Option.map_some]
    obtain ⟨left, hleft⟩ : ∃ left, TaskManager.withdraw { s with
        priorityIndex := TaskManager.unlist s.priorityIndex t.priority id } id t.parent? = left :=
      ⟨_, rfl⟩
    have hfacts : left.tasks = s.tasks ∧
        left.priorityIndex = TaskManager.unlist s.priorityIndex t.priority id ∧
        (∀ other, other ∈ left.rootTasks ↔ other ≠ id ∧ other ∈ s.rootTasks) ∧
        (∀ other, left.childToParent.get? other =
          if other = id then none else s.childToParent.get? other) ∧
        ∀ q other, Holds left.parentToChildren q other ↔
          other ≠ id ∧ Holds s.parentToChildren q other := by
      have hkept := h.family.leave { s with
        priorityIndex := TaskManager.unlist s.priorityIndex t.priority id } hplace rfl rfl
      subst hleft
      cases hown : t.parent? with
      | none =>
        rw [hown] at hkept
        exact ⟨rfl, rfl, fun other => mem_discard.trans and_comm, hkept⟩
      | some parent =>
        rw [hown] at hkept
        refine ⟨rfl, rfl, fun other => ⟨fun hroot => ⟨?_, hroot⟩, And.right⟩, hkept⟩
        rintro rfl
        cases ((h.family.roots _).mp hroot).symm.trans (hplace.trans (congrArg _ hown))
    obtain ⟨htasks, hindex, hroots, hparents, hholds⟩ := hfacts
    have hchild : ∀ other, Holds left.parentToChildren id other →
        place s.tasks other = some (some id) := fun other hother =>
      h.family.child _ _ ((hholds _ _).mp hother).2
    obtain ⟨s', hpromoted, horphan, hsets⟩ := promoted_orphan left id ids
      fun other hother => by rw [htasks, hchild other hother]; exact Option.some_ne_none _
    dsimp only
    rw [hleft, horphan]
    have hstays : ∀ other, ¬ (Holds left.parentToChildren id other ∧ other ∉ ids) →
        place s'.tasks other = place s.tasks other := fun other hnot =>
      (hpromoted.stayed other hnot).1.trans (congrArg (place · other) htasks)
    refine ⟨⟨?_, ⟨fun other => ?_, fun other => ?_, fun q other hheld => ?_,
      fun q other hown => ?_⟩, fun q hq => ?_⟩, fun other hother => ?_⟩
    · refine (hpromoted.index.trans hindex ▸ h.once.unlist ht).congr fun other => ?_
      rw [Dict.get?_erase, Dict.get?_erase]
      split
      · rfl
      · rw [hpromoted.priority, htasks]
    · refine (hpromoted.roots other).trans ?_
      rw [place_erase, hroots]
      by_cases heq : other = id
      · simp [heq, hid]
      · by_cases hgone : Holds left.parentToChildren id other ∧ other ∉ ids
        · simp [heq, hgone, (hpromoted.placed other hgone).1]
        · rw [if_neg heq, hstays other hgone, h.family.roots, or_iff_right hgone,
            and_iff_right heq]
    · show s'.childToParent.get? other = _
      rw [place_erase]
      by_cases hgone : Holds left.parentToChildren id other ∧ other ∉ ids
      · rw [(hpromoted.placed other hgone).1, (hpromoted.placed other hgone).2]
        split <;> rfl
      · rw [(hpromoted.stayed other hgone).2, hparents, hstays other hgone, h.family.parent]
        split <;> rfl
    · obtain ⟨hq, hheld⟩ := (hsets q other).mp hheld
      obtain ⟨hne, hheld⟩ := (hholds q other).mp hheld
      have hown := h.family.child _ _ hheld
      have hgone : ¬ (Holds left.parentToChildren id other ∧ other ∉ ids) := fun hgone =>
        hq (Option.some.inj (Option.some.inj (hown.symm.trans (hchild other hgone.1))))
      rw [place_erase, if_neg hne, hstays other hgone, hown]
    · rw [place_erase] at hown
      split at hown
      · cases hown
      · next hne =>
        have hgone : ¬ (Holds left.parentToChildren id other ∧ other ∉ ids) := fun hgone => by
          cases (hpromoted.placed other hgone).1.symm.trans hown
        rw [hstays other hgone] at hown
        rcases h.family.listed _ _ hown with hheld | hleaves
        · have hheld' := (hholds q other).mpr ⟨hne, hheld⟩
          by_cases hq : q = id
          · exact .inr (of_not_not fun hnot => hgone ⟨hq ▸ hheld', hnot⟩)
          · exact .inl ((hsets q other).mpr ⟨hq, hheld'⟩)
        · exact .inr hleaves
    · exact (hpromoted.index.trans hindex).symm ▸ key_unlist (h.keys q hq)
    · rw [Dict.get?_erase]
      split
      · rfl
      · next hne =>
        have hpriority := hpromoted.priority other
        rwa [htasks, hother.resolve_left hne, Option.map_none, Option.map_eq_none_iff] at hpriority

theorem Indexed.removeAll {left : List String} (h : Indexed used ids s) (hleft : left ⊆ ids) :
    Indexed used ids (left.foldl (TaskManager.removeOne ids) s) ∧
      ∀ other, other ∈ left ∨ s.tasks.get? other = none → (left.foldl
        (TaskManager.removeOne ids) s).tasks.get? other = none := by
  induction left generalizing s with
  | nil => exact ⟨h, fun other hother => hother.resolve_left not_mem_nil⟩
  | cons id left ih =>
    obtain ⟨hone, hgone⟩ := h.removeOne (hleft mem_cons_self)
    obtain ⟨hall, hnone⟩ := ih hone fun _ hmem => hleft (mem_cons_of_mem _ hmem)
    refine ⟨hall, fun other hother => ?_⟩
    rcases hother with hmem | hother
    · rcases mem_cons.mp hmem with rfl | hmem
      · exact hnone _ (.inr (hgone _ (.inl rfl)))
      · exact hnone _ (.inl hmem)
    · exact hnone _ (.inr (hgone _ (.inr hother)))

/-- Whoever may miss in the set of its parent has left in the end. -/
theorem Indexed.removeTasks (h : Indexed used [] s) : Indexed used [] (s.removeTasks ids) := by
  have hstart : Indexed used ids s := ⟨h.once, ⟨h.family.roots, h.family.parent, h.family.child,
    fun parent id hown => (h.family.listed parent id hown).imp_right fun hid =>
      absurd hid not_mem_nil⟩, h.keys⟩
  obtain ⟨hall, hnone⟩ := hstart.removeAll (Subset.refl _)
  refine ⟨hall.once, ⟨hall.family.roots, hall.family.parent, hall.family.child,
    fun parent id hown => (hall.family.listed parent id hown).imp_right fun hid => ?_⟩, hall.keys⟩
  rw [place, TaskManager.removeTasks, hnone id (.inl hid)] at hown
  cases hown

theorem Indexed.addTasks {added : List Task} (h : Indexed used [] s) :
    Indexed used [] (s.addTasks added).1 := by
  induction added generalizing s with
  | nil => exact h
  | cons t added ih =>
    unfold TaskManager.addTasks
    split
    · exact h
    · next hadd => exact ih (h.addOne hadd)

theorem Indexed.foldl {α : Type} {f : TaskManager → α → TaskManager} {as : List α}
    (h : Indexed used [] s) (hf : ∀ s, ∀ a ∈ as, Indexed used [] s → Indexed used [] (f s a)) :
    Indexed used [] (as.foldl f s) := by
  induction as generalizing s with
  | nil => exact h
  | cons a as ih => exact ih (hf s a (.head _) h) fun s b hb => hf s b (.tail _ hb)

theorem indexed_empty (hused : ∀ p, ¬ used p) : Indexed used [] empty :=
  ⟨fun _ _ => rfl, ⟨fun _ => ⟨fun h => absurd h not_mem_nil, fun h => (by cases h)⟩, fun _ => rfl,
    fun _ _ ⟨_, h, _⟩ => (by cases h), fun _ _ h => (by cases h)⟩, fun p hp => absurd hp (hused p)⟩

theorem Indexed.step {op : Op} (h : Indexed used [] s) (hop : op = .clear → ∀ p, ¬ used p) :
    Indexed used [] (s.step op) := by
  cases op with
  | add added => exact h.addTasks
  | remove ids => exact h.removeTasks
  | update updated => exact h.foldl fun _ _ _ h => h.updateOne
  | setPriority ids new => exact h.foldl fun _ _ _ h => h.setPriorityOne
  | setStatus ids new => exact h.foldl fun _ _ _ h => h.setStatusOne
  | clear => exact indexed_empty (hop rfl)

theorem Family.holds_iff (h : Family [] s) :
    Holds s.parentToChildren parent id ↔ s.ParentOf parent id := by
  rw [ParentOf, ← place_join, Option.join_eq_some_iff]
  exact ⟨h.child parent id, fun hown => (h.listed parent id hown).resolve_right not_mem_nil⟩

theorem indexed_run (ops : List Op) : Indexed (fun _ => False) [] (run step empty ops) :=
  (indexed_empty fun _ => id).foldl fun _ _ _ h => h.step fun _ _ => id

/-- **The indexes agree with the tasks.** After any calls, also calls that raise in the middle of a
batch, each stored id stands exactly once in the index of priorities, under its
own one, the roots are the tasks without a parent, and the maps of parents and of children are
those of the tasks. -/
theorem indexes_agree (ops : List Op) :
    let s := run step empty ops
    (∀ p id, (idsAt s.priorityIndex p).count id =
      if (s.tasks.get? id).map Task.priority = some p then 1 else 0) ∧
    (∀ id, id ∈ s.rootTasks ↔ ∃ t, s.tasks.get? id = some t ∧ t.parent? = none) ∧
    (∀ id, s.childToParent.get? id = (s.tasks.get? id).bind Task.parent?) ∧
    ∀ parent id, Holds s.parentToChildren parent id ↔
      (s.tasks.get? id).bind Task.parent? = some parent := by
  intro s
  have h := indexed_run ops
  refine ⟨h.once, fun id => (h.family.roots id).trans Option.map_eq_some_iff, fun id => ?_,
    fun parent id => h.family.holds_iff⟩
  rw [h.family.parent, place_join]

theorem Once.mem_idsAt (h : Once index tasks) :
    id ∈ idsAt index p ↔ (tasks.get? id).map Task.priority = some p := by
  rw [← count_pos_iff, h]
  split <;> simp_all

theorem Once.mem_keys (h : Once index tasks) (ht : tasks.get? id = some t) :
    t.priority ∈ index.keys := by
  have hid : id ∈ idsAt index t.priority := h.mem_idsAt.mpr (by rw [ht, Option.map_some])
  cases hids : index.get? t.priority with
  | none =>
    rw [idsAt, hids] at hid
    cases hid
  | some ids => exact Dict.mem_keys_iff.mpr ⟨ids, hids⟩

/-- **The highest priority is popped.** A task that is popped for the highest priority passes the
filters and has no stored task above it, whatever calls were made before. -/
theorem highest_popped (ops : List Op) (status : Option TaskStatus) (userId : Option String)
    {id : String} (hid : id ∈ (run step empty ops).highestIds status userId) :
    ∃ t, (run step empty ops).tasks.get? id = some t ∧ passes status userId t ∧
      ∀ other t', (run step empty ops).tasks.get? other = some t' → t'.priority ≤ t.priority := by
  generalize hs : run step empty ops = s at hid
  have honce : Once s.priorityIndex s.tasks := hs ▸ (indexed_run ops).once
  unfold highestIds at hid
  split at hid
  · cases hid
  · next highest hmax =>
    obtain ⟨hmem, hpasses⟩ := mem_filter.mp hid
    obtain ⟨t, ht, hpriority⟩ := Option.map_eq_some_iff.mp (honce.mem_idsAt.mp hmem)
    rw [ht] at hpasses
    exact ⟨t, ht, hpasses, fun other t' ht' =>
      hpriority ▸ (max?_eq_some_iff.mp hmax).2 _ (honce.mem_keys ht')⟩

/-- Of two tasks, the second is on top after its priority is raised. -/
theorem highest_popped_raised :
    let ops := [Op.add [⟨"a", 2, .submitted, none, none⟩, ⟨"b", 1, .submitted, some "a", none⟩],
      Op.setPriority ["b"] 3]
    ∃ t, (run step empty ops).tasks.get? "b" = some t ∧ passes none none t ∧
      ∀ other t', (run step empty ops).tasks.get? other = some t' → t'.priority ≤ t.priority :=
  highest_popped _ none none (by decide)

/-- **Collecting all children.** After any calls, the recursion below a task ends if and only if no
task there, nor the task itself, is its own ancestor. If it ends, it has collected the tasks whose
chain of parents leads to the task. -/
theorem children_collected (ops : List Op) (id : String) :
    let s := run step empty ops
    ((∃ turns ids, s.collectAllChildren turns id [] = some ids) ↔
      ∀ other, ReflTransGen s.ParentOf id other → ¬ TransGen s.ParentOf other other) ∧
    ∀ turns ids, s.collectAllChildren turns id [] = some ids →
      ∀ other, other ∈ ids ↔ TransGen s.ParentOf id other := by
  intro s
  have h := indexed_run ops
  have hchild : DepthFirst.Child (fun parent => (s.parentToChildren.get? parent).getD []) =
      s.ParentOf := by
    funext parent child
    rw [← h.family.holds_iff, holds_iff_mem]
    rfl
  have hstored : ∀ parent, ∀ child ∈ (s.parentToChildren.get? parent).getD [],
      child ∈ s.tasks.keys.toFinset := by
    intro parent child hmem
    obtain ⟨t, ht, -⟩ := Option.bind_eq_some_iff.mp (h.family.holds_iff.mp (holds_iff_mem.mpr hmem))
    exact mem_toFinset.mpr (Dict.mem_keys_iff.mpr ⟨t, ht⟩)
  rw [← hchild]
  refine ⟨Descent.exists_descend_iff hstored id [], fun turns ids hids other => ?_⟩
  rw [Descent.mem_descend hids, or_iff_right not_mem_nil]

/-- **A level once used hides the lower ones.** Where a task has had a priority and nothing was
cleared since, popping for the highest priority finds nothing while all stored tasks are below. -/
theorem used_level_hides (ops later : List Op) (status : Option TaskStatus)
    (userId : Option String) (id : String) {t : Task}
    (ht : (run step empty ops).tasks.get? id = some t) (hlater : Op.clear ∉ later)
    (hbelow : ∀ t' ∈ (run step empty (ops ++ later)).tasks.values, t'.priority < t.priority) :
    (run step empty (ops ++ later)).highestIds status userId = [] := by
  rw [run_append] at hbelow ⊢
  have hops := indexed_run ops
  have hstart : Indexed (· = t.priority) [] (run step empty ops) :=
    ⟨hops.once, hops.family, fun p hp => hp ▸ hops.once.mem_keys ht⟩
  have h : Indexed (· = t.priority) [] (run step (run step empty ops) later) :=
    hstart.foldl fun s op hop h => h.step fun heq => absurd (heq ▸ hop) hlater
  unfold highestIds
  split
  · rfl
  · next highest hmax =>
    refine eq_nil_iff_forall_not_mem.mpr fun other hother => ?_
    have hlisted := h.once.mem_idsAt.mp (mem_filter.mp hother).1
    obtain ⟨t', ht', hpriority⟩ := Option.map_eq_some_iff.mp hlisted
    have hlower := hbelow t' (Dict.mem_values_iff.mpr ⟨other, ht'⟩)
    exact absurd ((max?_eq_some_iff.mp hmax).2 _ (h.keys _ rfl)) (by omega)

/-- The first task was above the second, and left. -/
theorem used_level_hides_popped : (run step empty [.add [⟨"a", 2, .submitted, none, none⟩],
    .remove ["a"], .add [⟨"b", 1, .submitted, none, none⟩]]).highestIds none none = [] :=
  used_level_hides [.add [⟨"a", 2, .submitted, none, none⟩]]
    [.remove ["a"], .add [⟨"b", 1, .submitted, none, none⟩]] none none "a" rfl (by simp) (by decide)

end TaskManager

end JiuwenSpec.Controller.Manager

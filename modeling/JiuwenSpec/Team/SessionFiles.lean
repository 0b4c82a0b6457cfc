import JiuwenSpec.Base.Run
import JiuwenSpec.Base.TextLines

/-!
# Contents in session files

The content of a message or a task is written to a file of the session, and its row holds a
placeholder. The path is not stored: it follows from the row. Where the file cannot be written
the row holds the content itself.
Source: `team_workspace/session_file_store.py`, `database/message_dao.py`,
`database/task_dao.py`.
-/

namespace JiuwenSpec.SessionFiles

open Base Option List

def contentInFile : Text := "#file#".toList

/-- The fields of `FileAddress` that tell a file from the others of its session. -/
inductive Address where
  | direct (toMember : Option Text) (objectId : Text)
  | broadcast (objectId : Text)
  | task (objectId : Text)
  deriving DecidableEq

/-- `_logical_path`; nothing where it raises `ValueError`. -/
def Address.logicalPath : Address → Option Text
  | direct none _ => none
  | direct (some toMember) objectId =>
    if toMember = [] then none
    else some ("messages/to_".toList ++ toMember ++ "/".toList ++ objectId ++ ".md".toList)
  | broadcast objectId => some ("messages/broadcast/".toList ++ objectId ++ ".md".toList)
  | task objectId => some ("tasks/".toList ++ objectId ++ ".md".toList)

abbrev Path := List Text

def follow (path : Path) (part : Text) : Path :=
  if part = [] ∨ part = ".".toList then path
  else if part = "..".toList then path.dropLast
  else path ++ [part]

/-- `_resolve`, from the resolved root of the session; nothing where it raises `ValueError`. -/
def resolve (root : Path) (address : Address) : Option Path := do
  let logical ← address.logicalPath
  let target := (logical.splitOn '/').foldl follow root
  if '\x00' ∈ logical ∨ ¬ root <+: target then none else some target

abbrev Files := Path → Option Text

/-- What `put` raises. -/
inductive PutError where
  | value
  | os
  deriving DecidableEq

/-- `SessionFileStore.put`, which writes beside the file and replaces it; `io` says whether that
succeeds. -/
def put (root : Path) (files : Files) (text : Text) (address : Address) (io : Bool) :
    Except PutError Files :=
  match resolve root address with
  | none => .error .value
  | some path => if io then .ok (Function.update files path (some text)) else .error .os

/-- `SessionFileStore.get`; nothing where it raises. -/
def get (root : Path) (files : Files) (address : Address) : Option Text := do
  let path ← resolve root address
  let text ← files path
  return universalNewlines text

/-- A row of the messages or of the tasks: the fields that its path follows from, its content as
it is stored, and the content that was last written for it. -/
structure Row where
  address : Address
  content : Text
  written : Text
  deriving DecidableEq

inductive Key where
  | message (messageId : Text)
  | task (taskId : Text)
  deriving DecidableEq

def Address.key : Address → Key
  | direct _ objectId => .message objectId
  | broadcast objectId => .message objectId
  | task objectId => .task objectId

def Address.isTask : Address → Bool
  | task _ => true
  | _ => false

/-- `_hydrate_row` with `_deref_row`: the content that a reader gets. -/
def read (root : Path) (files : Files) (row : Row) : Text :=
  if row.content = contentInFile then (get root files row.address).getD row.content
  else row.content

/-- A content on its way to a row, and whether its file can be written. -/
structure Item where
  address : Address
  content : Text
  io : Bool

/-- `_to_stored` of the messages and of the tasks: the stored content and the files; nothing where
it raises, which that of the tasks does on `ValueError`. -/
def toStored (root : Path) (files : Files) (item : Item) : Option (Text × Files) :=
  if item.content = [] then some (item.content, files)
  else
    match put root files item.content item.address item.io with
    | .ok files' => some (contentInFile, files')
    | .error .os => some (item.content, files)
    | .error .value => if item.address.isTask then none else some (item.content, files)

def spill (root : Path) (files : Files) (item : Item) : Option (Row × Files) :=
  (toStored root files item).map fun (content, files') =>
    ({ address := item.address, content := content, written := item.content }, files')

/-- The rows of some items, before the transaction: the files are written also where it raises on
the way. -/
def spillAll (root : Path) : Files → List Item → Files × Option (List Row)
  | files, [] => (files, some [])
  | files, item :: items =>
    match spill root files item with
    | none => (files, none)
    | some (row, files') =>
      let result := spillAll root files' items
      (result.1, result.2.map (row :: ·))

structure State where
  files : Files := fun _ => none
  rows : List Row := []

/-- The keys of the items are new and no two of them are the same. -/
def Fresh (rows : List Row) (items : List Item) : Prop :=
  (items.map (·.address.key)).Nodup ∧
    ∀ item ∈ items, ∀ row ∈ rows, row.address.key ≠ item.address.key

instance (rows : List Row) (items : List Item) : Decidable (Fresh rows items) :=
  inferInstanceAs (Decidable (_ ∧ _))

/-- The contents are written and the rows are inserted in one transaction, which an
`IntegrityError` or a rejection rolls back. -/
def State.createAll (root : Path) (s : State) (items : List Item) (accepted : Bool) : State :=
  match spillAll root s.files items with
  | (files, none) => { s with files := files }
  | (files, some rows) =>
    { files := files
      rows := if accepted ∧ Fresh s.rows items then s.rows ++ rows else s.rows }

def State.createMessage (root : Path) (s : State) (messageId : Text) (toMember : Option Text)
    (broadcast : Bool) (content : Text) (io : Bool) : State :=
  s.createAll root
    [⟨if broadcast then .broadcast messageId else .direct toMember messageId, content, io⟩] true

/-- `create_direct_messages`; a recipient is its message's id and its name. -/
def State.createDirectMessages (root : Path) (s : State) (content : Text)
    (recipients : List (Text × Text × Bool)) : State :=
  s.createAll root (recipients.map fun (messageId, toMember, io) =>
    ⟨.direct (some toMember) messageId, content, io⟩) true

def State.createTask (root : Path) (s : State) (taskId content : Text) (io : Bool) : State :=
  s.createAll root [⟨.task taskId, content, io⟩] true

/-- `mutate_dependency_graph`, as far as it writes contents; `accepted` says whether the edges
are. -/
def State.mutateDependencyGraph (root : Path) (s : State)
    (newTasks : List (Text × Text × Bool)) (accepted : Bool) : State :=
  s.createAll root (newTasks.map fun (taskId, content, io) => ⟨.task taskId, content, io⟩) accepted

/-- `update_task` with a content; a task in review is left as it is. -/
def State.updateTask (root : Path) (s : State) (taskId content : Text) (inReview io : Bool) :
    State :=
  match s.rows.find? (·.address.key = .task taskId) with
  | none => s
  | some row =>
    if inReview then s
    else
      match spill root s.files ⟨row.address, content, io⟩ with
      | none => s
      | some (row', files') =>
        { files := files'
          rows := s.rows.map fun r => if r.address.key = .task taskId then row' else r }

inductive Op where
  | createMessage (messageId : Text) (toMember : Option Text) (broadcast : Bool) (content : Text)
    (io : Bool)
  | createDirectMessages (content : Text) (recipients : List (Text × Text × Bool))
  | createTask (taskId content : Text) (io : Bool)
  | mutateDependencyGraph (newTasks : List (Text × Text × Bool)) (accepted : Bool)
  | updateTask (taskId content : Text) (inReview io : Bool)

def step (root : Path) (s : State) : Op → State
  | .createMessage messageId toMember broadcast content io =>
    s.createMessage root messageId toMember broadcast content io
  | .createDirectMessages content recipients => s.createDirectMessages root content recipients
  | .createTask taskId content io => s.createTask root taskId content io
  | .mutateDependencyGraph newTasks accepted => s.mutateDependencyGraph root newTasks accepted
  | .updateTask taskId content inReview io => s.updateTask root taskId content inReview io

/-- Every row reads as what was last written for it. -/
def Faithful (root : Path) (files : Files) (rows : List Row) : Prop :=
  ∀ row ∈ rows, read root files row = row.written

def Item.target (root : Path) (item : Item) : Option Path :=
  if item.content ≠ [] ∧ item.io then resolve root item.address else none

/-- The item's file is not that of a row that reads from it something else. -/
def Keeps (root : Path) (rows : List Row) (item : Item) : Prop :=
  ∀ path, item.target root = some path → ∀ row ∈ rows, row.content = contentInFile →
    resolve root row.address = some path → row.written = item.content

/-- The item comes back as it is: a content that is written has no carriage return, and where one
is not, but reads like the placeholder, its file does not hold something else. -/
def Returns (root : Path) (files : Files) (item : Item) : Prop :=
  (item.target root ≠ none → '\r' ∉ item.content) ∧
    (item.target root = none → item.content = contentInFile →
      ∀ text, get root files item.address = some text → text = contentInFile)

def Inserted (root : Path) (rows : List Row) (items : List Item) (accepted : Bool) : Prop :=
  accepted = true ∧ Fresh rows items ∧ ∀ item ∈ items,
    item.address.isTask = true → item.content ≠ [] → resolve root item.address ≠ none

/-- Along the items, no file of an earlier row is lost, and what is inserted comes back. -/
def SafeAll (root : Path) (inserted : Prop) : List Row → Files → List Item → Prop
  | _, _, [] => True
  | rows, files, item :: items =>
    ∀ row files', spill root files item = some (row, files') →
      Keeps root rows item ∧ (inserted → Returns root files item) ∧
        (inserted → SafeAll root inserted (rows ++ [row]) files' items) ∧
        (¬ inserted → SafeAll root inserted rows files' items)

/-- An update finds its task, loses no file of another row, and its content comes back. -/
def SafeUpdate (root : Path) (s : State) (taskId content : Text) (inReview io : Bool) : Prop :=
  inReview = false → ∀ row, s.rows.find? (·.address.key = .task taskId) = some row →
    Keeps root (s.rows.filter (·.address.key ≠ .task taskId)) ⟨row.address, content, io⟩ ∧
      Returns root s.files ⟨row.address, content, io⟩

def Safe (root : Path) (s : State) : Op → Prop
  | .createMessage messageId toMember broadcast content io =>
    let items : List Item :=
      [⟨if broadcast then .broadcast messageId else .direct toMember messageId, content, io⟩]
    SafeAll root (Inserted root s.rows items true) s.rows s.files items
  | .createDirectMessages content recipients =>
    let items : List Item := recipients.map fun (messageId, toMember, io) =>
      ⟨.direct (some toMember) messageId, content, io⟩
    SafeAll root (Inserted root s.rows items true) s.rows s.files items
  | .createTask taskId content io =>
    let items : List Item := [⟨.task taskId, content, io⟩]
    SafeAll root (Inserted root s.rows items true) s.rows s.files items
  | .mutateDependencyGraph newTasks accepted =>
    let items : List Item := newTasks.map fun (taskId, content, io) => ⟨.task taskId, content, io⟩
    SafeAll root (Inserted root s.rows items accepted) s.rows s.files items
  | .updateTask taskId content inReview io => SafeUpdate root s taskId content inReview io

/-!
## Contents come back as they were written

A file is the only copy of its content, so a row keeps it where no other row writes to the same
path, and gets it back where the text survives the line ends of a text file. Both are conditions
on a single write; along a run they make every row read as what was last written for it.
-/

variable {root : Path} {files files' : Files} {rows : List Row} {item : Item} {row : Row}
  {s : State}

theorem return_not_mem_contentInFile : '\r' ∉ contentInFile := by decide

theorem get_update (path : Path) (text : Text) (address : Address) :
    get root (Function.update files path (some text)) address =
      if resolve root address = some path then some (universalNewlines text)
      else get root files address := by
  rw [get, get]
  cases h : resolve root address with
  | none => rfl
  | some path' =>
    rw [bind_eq_bind, bind_some, bind_some]
    by_cases hp : path' = path
    · subst hp
      rw [Function.update_self, if_pos rfl]
      rfl
    · rw [Function.update_of_ne hp, if_neg fun heq => hp (some.inj heq)]

theorem spill_cases (h : spill root files item = some (row, files')) :
    row.address = item.address ∧ row.written = item.content ∧
      ((∃ path, item.target root = some path ∧ row.content = contentInFile ∧
          files' = Function.update files path (some item.content)) ∨
        (item.target root = none ∧ row.content = item.content ∧ files' = files)) := by
  obtain ⟨⟨content, files''⟩, hstored, heq⟩ := map_eq_some_iff.mp h
  obtain ⟨rfl, rfl⟩ := Prod.mk.inj heq
  refine ⟨rfl, rfl, ?_⟩
  rw [toStored] at hstored
  rw [Item.target]
  by_cases hnil : item.content = []
  · rw [if_pos hnil] at hstored
    cases hstored
    exact .inr ⟨if_neg fun hn => hn.1 hnil, rfl, rfl⟩
  · rw [if_neg hnil, put] at hstored
    cases hresolve : resolve root item.address with
    | none =>
      rw [hresolve] at hstored
      simp only at hstored
      split at hstored
      · cases hstored
      · cases hstored
        exact .inr ⟨ite_self _, rfl, rfl⟩
    | some path =>
      rw [hresolve] at hstored
      simp only at hstored
      by_cases hio : item.io = true
      · rw [if_pos hio] at hstored
        cases hstored
        exact .inl ⟨path, if_pos ⟨hnil, hio⟩, rfl, rfl⟩
      · rw [if_neg hio] at hstored
        cases hstored
        exact .inr ⟨if_neg fun hn => hio hn.2, rfl, rfl⟩

theorem return_not_mem_of_read (hread : read root files row = row.written)
    (hplace : row.content = contentInFile) : '\r' ∉ row.written := by
  rw [← hread, read, if_pos hplace, get]
  cases resolve root row.address with
  | none =>
    rw [hplace]
    exact return_not_mem_contentInFile
  | some path =>
    rw [bind_eq_bind, bind_some]
    cases files path with
    | none =>
      rw [hplace]
      exact return_not_mem_contentInFile
    | some text => exact return_not_mem_universalNewlines text

theorem read_of_keeps (hfaithful : Faithful root files rows) (hkeeps : Keeps root rows item)
    (h : spill root files item = some (row, files')) : Faithful root files' rows := by
  intro other hother
  have hread := hfaithful other hother
  obtain ⟨-, -, ⟨path, htarget, -, rfl⟩ | ⟨-, -, rfl⟩⟩ := spill_cases h
  · by_cases hplace : other.content = contentInFile
    · rw [read, if_pos hplace, get_update]
      split
      · next hpath =>
        have hsame := hkeeps path htarget other hother hplace hpath
        rw [getD_some, ← hsame]
        exact (universalNewlines_eq_iff _).mpr (return_not_mem_of_read hread hplace)
      · rw [read, if_pos hplace] at hread
        exact hread
    · rw [read, if_neg hplace] at hread ⊢
      exact hread
  · exact hread

theorem read_of_returns (hreturns : Returns root files item)
    (h : spill root files item = some (row, files')) : read root files' row = row.written := by
  obtain ⟨haddress, hwritten, ⟨path, htarget, hplace, rfl⟩ | ⟨htarget, hcontent, rfl⟩⟩ :=
    spill_cases h
  · have hpath : resolve root item.address = some path := by
      rw [Item.target] at htarget
      split at htarget
      · exact htarget
      · cases htarget
    rw [read, if_pos hplace, haddress, get_update, if_pos hpath, getD_some, hwritten]
    exact (universalNewlines_eq_iff _).mpr
      (hreturns.1 fun hnone => some_ne_none path (htarget.symm.trans hnone))
  · rw [read, hwritten, hcontent, haddress]
    split
    · next hplace =>
      cases hget : get root files' item.address with
      | none => rfl
      | some text => exact (hreturns.2 htarget hplace text hget).trans hplace.symm
    · rfl

theorem Faithful.append (h : Faithful root files rows) (hrow : read root files row = row.written) :
    Faithful root files (rows ++ [row]) := by
  intro r hr
  rcases mem_append.mp hr with hr | hr
  · exact h r hr
  · rw [mem_singleton.mp hr]
    exact hrow

theorem spillAll_rejected {inserted : Prop} (hno : ¬ inserted) (items : List Item) :
    ∀ rows files, Faithful root files rows → SafeAll root inserted rows files items →
      Faithful root (spillAll root files items).1 rows := by
  induction items with
  | nil => exact fun rows files h _ => h
  | cons item items ih =>
    intro rows files hfaithful hsafe
    rw [spillAll]
    cases hspill : spill root files item with
    | none => exact hfaithful
    | some result =>
      obtain ⟨row, files'⟩ := result
      obtain ⟨hkeeps, -, -, hrest⟩ := hsafe row files' hspill
      exact ih rows files' (read_of_keeps hfaithful hkeeps hspill) (hrest hno)

theorem spillAll_inserted {inserted : Prop} (hyes : inserted) (items : List Item) :
    ∀ rows files, Faithful root files rows → SafeAll root inserted rows files items →
      Faithful root (spillAll root files items).1 rows ∧
        ∀ new, (spillAll root files items).2 = some new →
          Faithful root (spillAll root files items).1 (rows ++ new) := by
  induction items with
  | nil =>
    intro rows files hfaithful _
    refine ⟨hfaithful, fun new hnew => ?_⟩
    cases hnew
    rw [append_nil]
    exact hfaithful
  | cons item items ih =>
    intro rows files hfaithful hsafe
    rw [spillAll]
    cases hspill : spill root files item with
    | none => exact ⟨hfaithful, fun new hnew => (by cases hnew)⟩
    | some result =>
      obtain ⟨row, files'⟩ := result
      obtain ⟨hkeeps, hreturns, hrest, -⟩ := hsafe row files' hspill
      have hrow := (read_of_keeps hfaithful hkeeps hspill).append
        (read_of_returns (hreturns hyes) hspill)
      obtain ⟨hold, hnew⟩ := ih (rows ++ [row]) files' hrow (hrest hyes)
      refine ⟨fun r hr => hold r (mem_append_left _ hr), fun new hsome => ?_⟩
      obtain ⟨rest, hrest', rfl⟩ := map_eq_some_iff.mp hsome
      have := hnew rest hrest'
      rw [append_assoc] at this
      exact this

theorem stored_of_spillAll (items : List Item) : ∀ files,
    (spillAll root files items).2 ≠ none → ∀ item ∈ items,
      item.address.isTask = true → item.content ≠ [] → resolve root item.address ≠ none := by
  induction items with
  | nil => exact nofun
  | cons first items ih =>
    intro files h item hitem htask hne
    rw [spillAll] at h
    cases hspill : spill root files first with
    | none =>
      rw [hspill] at h
      exact absurd rfl h
    | some result =>
      rw [hspill] at h
      rcases mem_cons.mp hitem with rfl | hitem
      · intro hresolve
        rw [spill, toStored, if_neg hne, put, hresolve] at hspill
        simp only [htask, if_true] at hspill
        cases hspill
      · refine ih result.2 (fun hnone => h ?_) item hitem htask hne
        change Option.map _ (spillAll root result.2 items).2 = none
        rw [hnone]
        rfl

theorem createAll_faithful {items : List Item} {accepted : Bool}
    (h : Faithful root s.files s.rows)
    (hsafe : SafeAll root (Inserted root s.rows items accepted) s.rows s.files items) :
    Faithful root (s.createAll root items accepted).files
      (s.createAll root items accepted).rows := by
  have hold : Faithful root (spillAll root s.files items).1 s.rows := by
    by_cases hins : Inserted root s.rows items accepted
    · exact (spillAll_inserted hins items _ _ h hsafe).1
    · exact spillAll_rejected hins items _ _ h hsafe
  rw [State.createAll]
  split
  · next files heq =>
    rw [heq] at hold
    exact hold
  · next files new heq =>
    rw [heq] at hold
    change Faithful root files
      (if accepted = true ∧ Fresh s.rows items then s.rows ++ new else s.rows)
    split
    · next hacc =>
      have hstored := @stored_of_spillAll root items s.files
        (by rw [heq]; exact some_ne_none _)
      have := (spillAll_inserted ⟨hacc.1, hacc.2, hstored⟩ items _ _ h hsafe).2 new
        (by rw [heq])
      rw [heq] at this
      exact this
    · exact hold

theorem updateTask_faithful {taskId content : Text} {inReview io : Bool}
    (h : Faithful root s.files s.rows) (hsafe : SafeUpdate root s taskId content inReview io) :
    Faithful root (s.updateTask root taskId content inReview io).files
      (s.updateTask root taskId content inReview io).rows := by
  rw [State.updateTask]
  cases hfind : s.rows.find? (·.address.key = .task taskId) with
  | none => exact h
  | some row =>
    cases inReview with
    | true => exact h
    | false =>
      obtain ⟨hkeeps, hreturns⟩ := hsafe rfl row hfind
      simp only [Bool.false_eq_true, if_false]
      cases hspill : spill root s.files ⟨row.address, content, io⟩ with
      | none => exact h
      | some result =>
        obtain ⟨row', files'⟩ := result
        have hothers : Faithful root files' (s.rows.filter (·.address.key ≠ .task taskId)) :=
          read_of_keeps (fun r hr => h r (mem_filter.mp hr).1) hkeeps hspill
        intro r hr
        obtain ⟨old, hold, rfl⟩ := mem_map.mp hr
        by_cases hkey : old.address.key = .task taskId
        · rw [if_pos hkey]
          exact read_of_returns hreturns hspill
        · rw [if_neg hkey]
          exact hothers old (mem_filter.mpr ⟨hold, decide_eq_true hkey⟩)

theorem step_faithful (op : Op) (h : Faithful root s.files s.rows) (hsafe : Safe root s op) :
    Faithful root (step root s op).files (step root s op).rows := by
  cases op with
  | createMessage messageId toMember broadcast content io => exact createAll_faithful h hsafe
  | createDirectMessages content recipients => exact createAll_faithful h hsafe
  | createTask taskId content io => exact createAll_faithful h hsafe
  | mutateDependencyGraph newTasks accepted => exact createAll_faithful h hsafe
  | updateTask taskId content inReview io => exact updateTask_faithful h hsafe

def sessionRoot : Path := ["sessions".toList, "s1".toList]

/-- A task is created and then updated with a content that reads like the placeholder. -/
def taskRun : List Op :=
  [.createTask "a".toList "x".toList true, .updateTask "a".toList "#file#".toList false true]

theorem taskRun_safe : Meets (step sessionRoot) (Safe sessionRoot) {} taskRun := by
  refine ⟨fun row files' _ => ⟨?_, fun _ => ⟨fun _ => by decide, fun h => ?_⟩, fun _ => trivial,
    fun _ => trivial⟩, fun _ row hrow => ⟨?_, fun _ => show '\r' ∉ "#file#".toList by decide,
    fun h => ?_⟩, trivial⟩
  · exact nofun
  · exact absurd h (by decide)
  · intro _ _ other hother
    have hnone : (step sessionRoot {} (.createTask "a".toList "x".toList true)).rows.filter
        (·.address.key ≠ .task "a".toList) = [] := by
      decide
    rw [hnone] at hother
    cases hother
  · have hfound : (step sessionRoot {} (.createTask "a".toList "x".toList true)).rows.find?
        (·.address.key = .task "a".toList) =
          some ⟨.task "a".toList, "#file#".toList, "x".toList⟩ := by
      decide
    cases hfound.symm.trans hrow
    exact absurd h (by decide)

def taskRow : Row := ⟨.task "a".toList, "#file#".toList, "#file#".toList⟩

def returnRun : List Op := [.createMessage "m".toList (some "bob".toList) false "a\rb".toList true]

end JiuwenSpec.SessionFiles

import JiuwenSpec.Base.Run

/-!
# Output leases

One queue serves the leases of a session, one after another. The reader of a lease waits for the
queue and for the lease to be closed at once; either task may be done first, both may be done before
the reader goes on, and the reader may be cancelled.
Source: `harness/schema/interaction.py`.
-/

namespace JiuwenSpec.Interaction

open Base List

variable {V : Type}

/-- An entry of the queue with the lease it was put in under: an item, or `_OUTPUT_END`. -/
structure Entry (V : Type) where
  lease : Nat
  item : Option V

/-- Where the reader of a lease stands in `next_item`: not in it, waiting for one of its two tasks,
or past that with the tasks that were left cancelled; with what its queue task has taken. -/
inductive Read (V : Type) where
  | idle
  | waiting (taken : Option (Entry V))
  | settling (taken : Option (Entry V))

def Read.taken : Read V → Option (Entry V)
  | .idle => none
  | .waiting taken => taken
  | .settling taken => taken

/-- `OutputLeaseManager`, with how many leases there have been, the reads, and what was accepted
under each lease, returned to the reader of each lease, and ended. A lease is closed when it is no
longer the current one. -/
structure OutputLeaseManager (V : Type) where
  queue : List (Entry V)
  lease : Option Nat
  finishing : Bool
  closed : Bool
  leases : Nat
  reads : Nat → Read V
  accepted : List (Nat × V)
  returned : List (Nat × V)
  ended : List Nat

/-- What happens next. The operations run without interruption, for nothing waits inside of the
lock. -/
inductive LeaseAction (V : Type) where
  | attach
  | detach (token : Nat) (discardBuffer : Bool)
  | finishCurrent
  | emit (item : V) (expectedToken : Option Nat)
  | shutdown
  /-- The reader of a lease calls `next_item`. -/
  | nextItem (lease : Nat)
  /-- The queue task of a read takes an entry. -/
  | take (lease : Nat)
  /-- The reader goes on, as one of its tasks is done, and cancels the other. -/
  | wake (lease : Nat)
  /-- The cancelled tasks have ended, and `next_item` returns. -/
  | settle (lease : Nat)
  /-- The reader is cancelled while it waits. -/
  | cancel (lease : Nat)

namespace OutputLeaseManager

def new : OutputLeaseManager V := ⟨[], none, false, false, 0, fun _ => .idle, [], [], []⟩

def setRead (s : OutputLeaseManager V) (lease : Nat) (read : Read V) : OutputLeaseManager V :=
  { s with reads := fun other => if other = lease then read else s.reads other }

def attach (s : OutputLeaseManager V) : OutputLeaseManager V :=
  if s.closed ∨ s.lease.isSome then s
  else { s with lease := some s.leases, finishing := false, leases := s.leases + 1 }

def detach (s : OutputLeaseManager V) (token : Nat) (discardBuffer : Bool) : OutputLeaseManager V :=
  if s.lease = some token then
    { s with lease := none, queue := if discardBuffer then [] else s.queue }
  else s

def finishCurrent (s : OutputLeaseManager V) : OutputLeaseManager V :=
  match s.lease with
  | none => s
  | some lease =>
    if s.finishing then s else { s with finishing := true, queue := s.queue ++ [⟨lease, none⟩] }

def emit (s : OutputLeaseManager V) (item : V) (expectedToken : Option Nat) :
    OutputLeaseManager V :=
  match s.lease with
  | none => s
  | some lease =>
    if s.closed ∨ (∃ token ∈ expectedToken, token ≠ lease) ∨ s.finishing then s
    else { s with
      queue := s.queue ++ [⟨lease, some item⟩]
      accepted := s.accepted ++ [(lease, item)] }

def shutdown (s : OutputLeaseManager V) : OutputLeaseManager V :=
  { s with closed := true, lease := none, queue := [] }

/-- The first block of `next_item`. -/
def nextItem (s : OutputLeaseManager V) (lease : Nat) : OutputLeaseManager V :=
  match s.reads lease with
  | .idle => if s.lease = some lease then s.setRead lease (.waiting none) else s
  | _ => s

/-- `self._queue.get()`, in the queue task of a read. -/
def take (s : OutputLeaseManager V) (lease : Nat) : OutputLeaseManager V :=
  match s.reads lease, s.queue with
  | .waiting none, entry :: rest => { s with queue := rest }.setRead lease (.waiting (some entry))
  | _, _ => s

/-- `asyncio.wait` returns. -/
def wake (s : OutputLeaseManager V) (lease : Nat) : OutputLeaseManager V :=
  match s.reads lease with
  | .waiting taken =>
    if taken.isSome ∨ s.lease ≠ some lease then s.setRead lease (.settling taken) else s
  | _ => s

/-- The last block of `next_item`. -/
def settle (s : OutputLeaseManager V) (lease : Nat) : OutputLeaseManager V :=
  match s.reads lease with
  | .settling taken =>
    let left : OutputLeaseManager V := s.setRead lease .idle
    if s.lease = some lease then
      match taken with
      | some ⟨_, some item⟩ => { left with returned := s.returned ++ [(lease, item)] }
      | some ⟨_, none⟩ => { left with lease := none, ended := s.ended ++ [lease] }
      | none => left
    else left
  | _ => s

/-- The reader is cancelled in `asyncio.wait`: the tasks that are not done are cancelled. -/
def cancel (s : OutputLeaseManager V) (lease : Nat) : OutputLeaseManager V :=
  match s.reads lease with
  | .waiting _ => s.setRead lease .idle
  | _ => s

def step (s : OutputLeaseManager V) : LeaseAction V → OutputLeaseManager V
  | .attach => s.attach
  | .detach token discardBuffer => s.detach token discardBuffer
  | .finishCurrent => s.finishCurrent
  | .emit item expectedToken => s.emit item expectedToken
  | .shutdown => s.shutdown
  | .nextItem lease => s.nextItem lease
  | .take lease => s.take lease
  | .wake lease => s.wake lease
  | .settle lease => s.settle lease
  | .cancel lease => s.cancel lease

def itemsOf (lease : Nat) (log : List (Nat × V)) : List V :=
  (log.filter (·.1 = lease)).map Prod.snd

/-- The entries a lease still has to come: what its reader has taken, and the queue. -/
def pending (s : OutputLeaseManager V) (lease : Nat) : List (Entry V) :=
  (s.reads lease).taken.toList ++ s.queue

def readOnce (lease : Nat) : List (LeaseAction V) :=
  [.nextItem lease, .take lease, .wake lease, .settle lease]

/-- Every item is returned once and in order to the reader of the lease it was accepted under, as
long as the lease is not closed; a reader takes no item of another lease, and sees the end behind
all items. -/
structure Delivers (s : OutputLeaseManager V) : Prop where
  inOrder : ∀ lease, itemsOf lease s.returned <+: itemsOf lease s.accepted
  kept : ∀ lease, s.lease = some lease → itemsOf lease s.accepted =
    itemsOf lease s.returned ++ (s.pending lease).filterMap Entry.item
  own : ∀ lease, ∀ entry ∈ (s.reads lease).taken, entry.lease = lease
  atEnd : ∀ lease ∈ s.ended, itemsOf lease s.returned = itemsOf lease s.accepted
  served : ∀ lease item, s.lease = some lease → s.reads lease = .idle →
    (itemsOf lease s.accepted)[(itemsOf lease s.returned).length]? = some item →
      itemsOf lease (run step s (readOnce lease)).returned = itemsOf lease s.returned ++ [item]

/-- No reader is cancelled after its queue task has taken an entry, no queue task of a closed lease
takes one, and no detached lease leaves entries behind. -/
def Undisturbed (s : OutputLeaseManager V) : LeaseAction V → Prop
  | .cancel lease => s.lease = some lease → (s.reads lease).taken = none
  | .take lease => s.queue = [] ∨ s.lease = some lease ∨ (s.reads lease).taken.isSome = true
  | .detach _ discardBuffer => discardBuffer = true ∨ s.queue = []
  | _ => True

def EndsWith (finishing : Bool) (lease : Nat) (entries : List (Entry V)) : Prop :=
  ∃ items, (∀ entry ∈ items, entry.item ≠ none) ∧
    entries = items ++ if finishing then [⟨lease, none⟩] else []

/-- What the operations keep: ids that were not given yet are unused, what is queued or taken
belongs to its lease, nothing of the current lease is lost, and its end is the last to come. -/
structure Sound (s : OutputLeaseManager V) : Prop where
  current : ∀ lease, s.lease = some lease → lease < s.leases
  logged : ∀ entry ∈ s.accepted ++ s.returned, entry.1 < s.leases
  unread : ∀ lease, s.leases ≤ lease → s.reads lease = .idle
  own : ∀ lease, ∀ entry ∈ (s.reads lease).taken, entry.lease = lease
  queued : ∀ entry ∈ s.queue, s.lease = some entry.lease
  kept : ∀ lease, s.lease = some lease → itemsOf lease s.accepted =
    itemsOf lease s.returned ++ (s.pending lease).filterMap Entry.item
  inOrder : ∀ lease, itemsOf lease s.returned <+: itemsOf lease s.accepted
  ending : ∀ lease, s.lease = some lease → EndsWith s.finishing lease (s.pending lease)
  atEnd : ∀ lease ∈ s.ended, lease < s.leases ∧ s.lease ≠ some lease ∧
    itemsOf lease s.returned = itemsOf lease s.accepted

variable {s : OutputLeaseManager V} {lease : Nat}

@[simp] theorem itemsOf_append (log log' : List (Nat × V)) :
    itemsOf lease (log ++ log') = itemsOf lease log ++ itemsOf lease log' := by
  rw [itemsOf, filter_append, map_append]
  rfl

@[simp] theorem itemsOf_own (item : V) : itemsOf lease [(lease, item)] = [item] := by
  simp [itemsOf]

theorem itemsOf_other {other : Nat} (h : lease ≠ other) (item : V) :
    itemsOf other [(lease, item)] = [] := by
  simp [itemsOf, h]

theorem itemsOf_eq_nil {log : List (Nat × V)} (h : ∀ entry ∈ log, entry.1 < lease) :
    itemsOf lease log = [] := by
  rw [itemsOf, filter_eq_nil_iff.mpr, map_nil]
  intro entry hentry heq
  exact absurd (of_decide_eq_true heq) (Nat.ne_of_lt (h entry hentry))

theorem EndsWith.queue_end {entry : Entry V} {entries : List (Entry V)} {finishing : Bool}
    (h : EndsWith finishing lease (entry :: entries)) (hend : entry.item = none) :
    entries = [] := by
  obtain ⟨items, hitems, heq⟩ := h
  cases items with
  | nil =>
    cases finishing with
    | false => cases heq
    | true => exact (List.cons.inj heq).2
  | cons first items =>
    obtain ⟨rfl, -⟩ := List.cons.inj heq
    exact absurd hend (hitems entry (.head _))

theorem EndsWith.tail {entry : Entry V} {entries : List (Entry V)} {finishing : Bool}
    (h : EndsWith finishing lease (entry :: entries)) (hitem : entry.item ≠ none) :
    EndsWith finishing lease entries := by
  obtain ⟨items, hitems, heq⟩ := h
  cases items with
  | nil =>
    cases finishing with
    | false => cases heq
    | true =>
      obtain ⟨rfl, -⟩ := List.cons.inj heq
      exact absurd rfl hitem
  | cons first items =>
    exact ⟨items, fun e he => hitems e (mem_cons_of_mem first he), (List.cons.inj heq).2⟩

theorem pending_setRead_of_ne {other : Nat} {read : Read V} (h : other ≠ lease) :
    (s.setRead lease read).pending other = s.pending other := by
  simp [pending, setRead, h]

theorem pending_setRead_self {read : Read V} :
    (s.setRead lease read).pending lease = read.taken.toList ++ s.queue := by
  simp [pending, setRead]

theorem sound_new : Sound (new : OutputLeaseManager V) where
  current := fun _ h => by cases h
  logged := fun _ h => by cases h
  unread := fun _ _ => rfl
  own := fun _ _ h => by cases h
  queued := fun _ h => by cases h
  kept := fun _ h => by cases h
  inOrder := fun _ => prefix_rfl
  ending := fun _ h => by cases h
  atEnd := fun _ h => by cases h

theorem Sound.unread_setRead (h : Sound s) {read : Read V}
    (hunread : s.leases ≤ lease → read = .idle) (other : Nat) (hother : s.leases ≤ other) :
    (s.setRead lease read).reads other = .idle := by
  by_cases heq : other = lease
  · subst heq
    simpa [OutputLeaseManager.setRead] using hunread hother
  · simpa [OutputLeaseManager.setRead, heq] using h.unread other hother

theorem Sound.own_setRead (h : Sound s) {read : Read V}
    (hown : ∀ entry ∈ read.taken, entry.lease = lease) (other : Nat) (entry : Entry V)
    (hentry : entry ∈ ((s.setRead lease read).reads other).taken) : entry.lease = other := by
  by_cases heq : other = lease
  · subst heq
    exact hown entry (by simpa [OutputLeaseManager.setRead] using hentry)
  · exact h.own other entry (by simpa [OutputLeaseManager.setRead, heq] using hentry)

theorem Sound.setRead (h : Sound s) {read : Read V}
    (hsame : s.lease = some lease → read.taken = (s.reads lease).taken)
    (hown : ∀ entry ∈ read.taken, entry.lease = lease) (hunread : s.leases ≤ lease → read = .idle) :
    Sound (s.setRead lease read) := by
  have hpending : ∀ other, s.lease = some other →
      (s.setRead lease read).pending other = s.pending other := by
    intro other hother
    by_cases heq : other = lease
    · subst heq
      rw [pending_setRead_self, hsame hother, pending]
    · exact pending_setRead_of_ne heq
  refine ⟨h.current, h.logged, h.unread_setRead hunread, h.own_setRead hown, h.queued,
    fun other hother => ?_, h.inOrder, fun other hother => ?_, h.atEnd⟩
  · rw [hpending other hother]
    exact h.kept other hother
  · rw [hpending other hother]
    exact h.ending other hother

theorem Sound.close (h : Sound s) (closed : Bool) :
    Sound { s with lease := none, closed := closed, queue := [] } where
  current := fun _ h => by cases h
  logged := h.logged
  unread := h.unread
  own := h.own
  queued := fun _ h => by cases h
  kept := fun _ h => by cases h
  inOrder := h.inOrder
  ending := fun _ h => by cases h
  atEnd := fun lease hlease =>
    ⟨(h.atEnd lease hlease).1, fun h => (by cases h), (h.atEnd lease hlease).2.2⟩

theorem Sound.queue_eq_nil (h : Sound s) (hnone : s.lease = none) : s.queue = [] := by
  rw [eq_nil_iff_forall_not_mem]
  intro entry hentry
  cases hnone.symm.trans (h.queued entry hentry)

theorem Sound.attach (h : Sound s) : Sound s.attach := by
  unfold OutputLeaseManager.attach
  split
  · exact h
  · next hfree =>
    have hnone : s.lease = none :=
      Option.not_isSome_iff_eq_none.mp fun hsome => hfree (.inr hsome)
    have hpending : ∀ lease, some s.leases = some lease → s.pending lease = [] := by
      rintro _ ⟨⟩
      rw [pending, h.unread s.leases (Nat.le_refl _), h.queue_eq_nil hnone]
      rfl
    refine ⟨fun lease hlease => ?_, fun entry hentry => Nat.lt_succ_of_lt (h.logged entry hentry),
      fun lease hlease => h.unread lease (Nat.le_of_succ_le hlease), h.own, fun entry hentry => ?_,
      fun lease hlease => ?_, h.inOrder, fun lease hlease => ?_, fun lease hlease => ?_⟩
    · cases hlease
      exact Nat.lt_succ_self _
    · have hentry' : entry ∈ s.queue := hentry
      rw [h.queue_eq_nil hnone] at hentry'
      cases hentry'
    · have hitems := hpending lease hlease
      cases hlease
      rw [itemsOf_eq_nil fun entry hentry => h.logged entry (mem_append_left _ hentry),
        itemsOf_eq_nil fun entry hentry => h.logged entry (mem_append_right _ hentry)]
      change [] = [] ++ (s.pending s.leases).filterMap Entry.item
      rw [hitems]
      rfl
    · exact ⟨[], fun _ h => (by cases h), hpending lease hlease⟩
    · obtain ⟨hlt, -, hitems⟩ := h.atEnd lease hlease
      refine ⟨Nat.lt_succ_of_lt hlt, fun heq => ?_, hitems⟩
      cases heq
      exact absurd hlt (Nat.lt_irrefl _)

theorem Sound.detach (h : Sound s) {token : Nat} {discardBuffer : Bool}
    (hleft : discardBuffer = true ∨ s.queue = []) : Sound (s.detach token discardBuffer) := by
  unfold OutputLeaseManager.detach
  split
  · have hqueue : (if discardBuffer then [] else s.queue) = [] := by
      rcases hleft with rfl | hnil
      · rfl
      · rw [hnil, ite_self]
    rw [hqueue]
    exact h.close s.closed
  · exact h

theorem Sound.finishCurrent (h : Sound s) : Sound s.finishCurrent := by
  unfold OutputLeaseManager.finishCurrent
  split
  · exact h
  · next lease hlease =>
    split
    · exact h
    · next hgoing =>
      have hpending : ({ s with finishing := true, queue := s.queue ++ [⟨lease, none⟩] } :
          OutputLeaseManager V).pending lease = s.pending lease ++ [⟨lease, none⟩] :=
        (append_assoc _ _ _).symm
      refine ⟨h.current, h.logged, h.unread, h.own, fun entry hentry => ?_, fun other hother => ?_,
        h.inOrder, fun other hother => ?_, h.atEnd⟩
      · rcases mem_append.mp hentry with hentry | hentry
        · exact h.queued entry hentry
        · rw [mem_singleton.mp hentry]
          exact hlease
      · cases hlease.symm.trans hother
        rw [hpending, filterMap_append]
        exact (h.kept lease hlease).trans (congrArg _ (append_nil _).symm)
      · cases hlease.symm.trans hother
        obtain ⟨items, hitems, heq⟩ := h.ending lease hlease
        rw [if_neg hgoing, append_nil] at heq
        exact ⟨items, hitems, by rw [hpending, heq, if_pos rfl]⟩

theorem Sound.emit (h : Sound s) (item : V) (expectedToken : Option Nat) :
    Sound (s.emit item expectedToken) := by
  unfold OutputLeaseManager.emit
  split
  · exact h
  · next lease hlease =>
    split
    · exact h
    · next hopen =>
      have hgoing : ¬ s.finishing = true := fun hfinishing => hopen (.inr (.inr hfinishing))
      have hpending : ({ s with
          queue := s.queue ++ [⟨lease, some item⟩]
          accepted := s.accepted ++ [(lease, item)] } : OutputLeaseManager V).pending lease =
            s.pending lease ++ [⟨lease, some item⟩] := (append_assoc _ _ _).symm
      refine ⟨h.current, fun entry hentry => ?_, h.unread, h.own, fun entry hentry => ?_,
        fun other hother => ?_, fun other => ?_, fun other hother => ?_, fun other hother => ?_⟩
      · simp only [mem_append, mem_singleton] at hentry
        rcases hentry with (hentry | rfl) | hentry
        · exact h.logged entry (mem_append_left _ hentry)
        · exact h.current lease hlease
        · exact h.logged entry (mem_append_right _ hentry)
      · rcases mem_append.mp hentry with hentry | hentry
        · exact h.queued entry hentry
        · rw [mem_singleton.mp hentry]
          exact hlease
      · cases hlease.symm.trans hother
        rw [hpending, filterMap_append, itemsOf_append, itemsOf_own, h.kept lease hlease,
          append_assoc]
        rfl
      · exact (h.inOrder other).trans (by rw [itemsOf_append]; exact prefix_append _ _)
      · cases hlease.symm.trans hother
        obtain ⟨items, hitems, heq⟩ := h.ending lease hlease
        rw [if_neg hgoing, append_nil] at heq
        refine ⟨items ++ [⟨lease, some item⟩], fun entry hentry => ?_, ?_⟩
        · rcases mem_append.mp hentry with hentry | hentry
          · exact hitems entry hentry
          · rw [mem_singleton.mp hentry]
            exact fun h => by cases h
        · rw [hpending, heq, if_neg hgoing, append_nil]
      · obtain ⟨hlt, hclosed, hitems⟩ := h.atEnd other hother
        refine ⟨hlt, hclosed, ?_⟩
        have hne : lease ≠ other := fun heq => hclosed (heq ▸ hlease)
        rw [itemsOf_append, itemsOf_other hne, append_nil]
        exact hitems

theorem Sound.nextItem (h : Sound s) (lease : Nat) : Sound (s.nextItem lease) := by
  unfold OutputLeaseManager.nextItem
  split
  · next hidle =>
    split
    · next hlease =>
      refine h.setRead (fun _ => by rw [hidle]; rfl) (fun _ h => by cases h) fun hle => ?_
      exact absurd (h.current lease hlease) (Nat.not_lt.mpr hle)
    · exact h
  · exact h

theorem Sound.take (h : Sound s) {lease : Nat} (hundisturbed : Undisturbed s (.take lease)) :
    Sound (s.take lease) := by
  unfold OutputLeaseManager.take
  split
  · next entry rest hwaiting hqueue =>
    have hlease : s.lease = some lease := by
      rcases hundisturbed with hnil | hlease | htaken
      · rw [hqueue] at hnil
        cases hnil
      · exact hlease
      · rw [hwaiting] at htaken
        cases htaken
    have hmem : ∀ e ∈ rest, e ∈ s.queue := by
      rw [hqueue]
      exact fun e he => mem_cons_of_mem entry he
    have hpending : ({ s with queue := rest }.setRead lease (.waiting (some entry))).pending lease =
        s.pending lease := by
      rw [pending_setRead_self, pending, hwaiting, hqueue]
      rfl
    have hown : entry.lease = lease :=
      (Option.some.inj (hlease.symm.trans
        (h.queued entry (by rw [hqueue]; exact mem_cons_self)))).symm
    refine ⟨h.current, h.logged, h.unread_setRead fun hle => ?_, h.own_setRead fun e he => ?_,
      fun e he => h.queued e (hmem e he), fun other hother => ?_, h.inOrder, fun other hother => ?_,
      h.atEnd⟩
    · exact absurd (h.current lease hlease) (Nat.not_lt.mpr hle)
    · cases he
      exact hown
    · cases hlease.symm.trans hother
      rw [hpending]
      exact h.kept lease hlease
    · cases hlease.symm.trans hother
      rw [hpending]
      exact h.ending lease hlease
  · exact h

theorem Sound.wake (h : Sound s) (lease : Nat) : Sound (s.wake lease) := by
  unfold OutputLeaseManager.wake
  split
  · next taken hwaiting =>
    split
    · refine h.setRead (fun _ => by rw [hwaiting]; rfl) (fun entry hentry => ?_) fun hle => ?_
      · exact h.own lease entry (by rw [hwaiting]; exact hentry)
      · cases hwaiting.symm.trans (h.unread lease hle)
    · exact h
  · exact h

theorem Sound.cancel (h : Sound s) {lease : Nat} (hundisturbed : Undisturbed s (.cancel lease)) :
    Sound (s.cancel lease) := by
  unfold OutputLeaseManager.cancel
  split
  · exact h.setRead (fun hlease => (hundisturbed hlease).symm) (fun _ h => by cases h) fun _ => rfl
  · exact h

theorem Sound.returns (h : Sound s) {item : V} (hlease : s.lease = some lease) {owner : Nat}
    (htaken : (s.reads lease).taken = some ⟨owner, some item⟩) :
    Sound { s.setRead lease .idle with returned := s.returned ++ [(lease, item)] } := by
  have hbefore : s.pending lease = ⟨owner, some item⟩ :: s.queue := by
    rw [pending, htaken]
    rfl
  have hkept : itemsOf lease s.accepted =
      itemsOf lease s.returned ++ [item] ++ s.queue.filterMap Entry.item := by
    rw [h.kept lease hlease, hbefore, append_assoc]
    rfl
  have hafter : ({ s.setRead lease .idle with returned := s.returned ++ [(lease, item)] } :
      OutputLeaseManager V).pending lease = s.queue := pending_setRead_self
  refine ⟨h.current, fun entry hentry => ?_, h.unread_setRead fun _ => rfl,
    h.own_setRead fun _ h => (by cases h), h.queued, fun other hother => ?_, fun other => ?_,
    fun other hother => ?_, fun other hother => ?_⟩
  · rcases mem_append.mp hentry with hentry | hentry
    · exact h.logged entry (mem_append_left _ hentry)
    · rcases mem_append.mp hentry with hentry | hentry
      · exact h.logged entry (mem_append_right _ hentry)
      · rw [mem_singleton.mp hentry]
        exact h.current lease hlease
  · cases hlease.symm.trans hother
    rw [hafter, itemsOf_append, itemsOf_own]
    exact hkept
  · dsimp only
    by_cases heq : lease = other
    · subst heq
      rw [itemsOf_append, itemsOf_own]
      exact ⟨_, hkept.symm⟩
    · rw [itemsOf_append, itemsOf_other heq, append_nil]
      exact h.inOrder other
  · cases hlease.symm.trans hother
    rw [hafter]
    exact (hbefore ▸ h.ending lease hlease).tail fun h => by cases h
  · obtain ⟨hlt, hclosed, hitems⟩ := h.atEnd other hother
    have hne : lease ≠ other := fun heq => hclosed (heq ▸ hlease)
    refine ⟨hlt, hclosed, ?_⟩
    dsimp only
    rw [itemsOf_append, itemsOf_other hne, append_nil]
    exact hitems

theorem Sound.ends (h : Sound s) (hlease : s.lease = some lease) {owner : Nat}
    (htaken : (s.reads lease).taken = some ⟨owner, none⟩) :
    Sound { s.setRead lease .idle with lease := none, ended := s.ended ++ [lease] } := by
  have hbefore : s.pending lease = ⟨owner, none⟩ :: s.queue := by
    rw [pending, htaken]
    rfl
  have hqueue : s.queue = [] := (hbefore ▸ h.ending lease hlease).queue_end rfl
  have hall : itemsOf lease s.returned = itemsOf lease s.accepted := by
    rw [h.kept lease hlease, hbefore, hqueue]
    exact (append_nil _).symm
  refine ⟨fun _ h => (by cases h), h.logged, h.unread_setRead fun _ => rfl,
    h.own_setRead fun _ h ↦ (by cases h), fun entry hentry ↦ ?_, fun _ h ↦ (by cases h), h.inOrder,
    fun _ h => (by cases h), fun other hother => ?_⟩
  · have hentry' : entry ∈ s.queue := hentry
    rw [hqueue] at hentry'
    cases hentry'
  · rcases mem_append.mp hother with hother | hother
    · exact ⟨(h.atEnd other hother).1, fun h => (by cases h), (h.atEnd other hother).2.2⟩
    · rw [mem_singleton.mp hother]
      exact ⟨h.current lease hlease, fun h => (by cases h), hall⟩

theorem Sound.settle (h : Sound s) (lease : Nat) : Sound (s.settle lease) := by
  unfold OutputLeaseManager.settle
  split
  · next taken hsettling =>
    dsimp only
    split
    · next hlease =>
      split
      · exact h.returns hlease (by rw [hsettling]; rfl)
      · exact h.ends hlease (by rw [hsettling]; rfl)
      · exact h.setRead (fun _ => by rw [hsettling]; rfl) (fun _ h => by cases h) fun _ => rfl
    · next hclosed =>
      exact h.setRead (fun hlease => absurd hlease hclosed) (fun _ h => by cases h) fun _ => rfl
  · exact h

theorem Sound.step (h : Sound s) {a : LeaseAction V} (hundisturbed : Undisturbed s a) :
    Sound (s.step a) := by
  cases a with
  | attach => exact h.attach
  | detach token discardBuffer => exact h.detach hundisturbed
  | finishCurrent => exact h.finishCurrent
  | emit item expectedToken => exact h.emit item expectedToken
  | shutdown => exact h.close true
  | nextItem lease => exact h.nextItem lease
  | take lease => exact h.take hundisturbed
  | wake lease => exact h.wake lease
  | settle lease => exact h.settle lease
  | cancel lease => exact h.cancel hundisturbed

theorem readOnce_returned {item : V} {owner : Nat} {rest : List (Entry V)}
    (hlease : s.lease = some lease) (hidle : s.reads lease = .idle)
    (hqueue : s.queue = ⟨owner, some item⟩ :: rest) :
    (run step s (readOnce lease)).returned = s.returned ++ [(lease, item)] := by
  have hnext : s.nextItem lease = s.setRead lease (.waiting none) := by
    rw [OutputLeaseManager.nextItem, hidle]
    exact if_pos hlease
  have htake : (s.setRead lease (.waiting none)).take lease =
      { s.setRead lease (.waiting none) with queue := rest }.setRead lease
        (.waiting (some ⟨owner, some item⟩)) := by
    simp [OutputLeaseManager.take, OutputLeaseManager.setRead, hqueue]
  simp only [readOnce, run_cons, run_nil, OutputLeaseManager.step, hnext, htake]
  simp [OutputLeaseManager.wake, OutputLeaseManager.settle, OutputLeaseManager.setRead, hlease]

theorem Sound.delivers (h : Sound s) : Delivers s where
  inOrder := h.inOrder
  kept := h.kept
  own := h.own
  atEnd := fun lease hlease => (h.atEnd lease hlease).2.2
  served := by
    intro lease item hlease hidle hunread
    have hpending : s.pending lease = s.queue := by
      rw [pending, hidle]
      rfl
    have hkept := h.kept lease hlease
    rw [hpending] at hkept
    have hfirst : (s.queue.filterMap Entry.item)[0]? = some item := by
      rw [hkept, List.getElem?_append_right (Nat.le_refl _), Nat.sub_self] at hunread
      exact hunread
    cases hqueue : s.queue with
    | nil =>
      rw [hqueue] at hfirst
      cases hfirst
    | cons entry rest =>
      obtain ⟨owner, content⟩ := entry
      cases content with
      | none =>
        have hrest : rest = [] :=
          (hqueue ▸ hpending ▸ h.ending lease hlease).queue_end rfl
        rw [hqueue, hrest] at hfirst
        cases hfirst
      | some first =>
        rw [hqueue] at hfirst
        cases hfirst
        rw [readOnce_returned hlease hidle hqueue, itemsOf_append, itemsOf_own]

/-- As long as the readers are not disturbed, every item is delivered to the reader of its lease. -/
theorem leases_deliver (actions : List (LeaseAction V))
    (hactions : Meets step Undisturbed new actions) {t : OutputLeaseManager V}
    (ht : Reached step new actions t) : Delivers t :=
  (reached_invariant (I := Sound) (fun _ _ h hundisturbed => h.step hundisturbed) sound_new hactions
    ht).delivers

def oneItem : List (LeaseAction Nat) :=
  [.attach, .emit 7 none, .nextItem 0, .take 0, .wake 0, .settle 0, .finishCurrent, .nextItem 0,
    .take 0, .wake 0, .settle 0, .attach]

theorem oneItem_delivers : Delivers (run step new oneItem) :=
  leases_deliver oneItem ⟨trivial, trivial, trivial, .inr (.inl rfl), trivial, trivial, trivial,
    trivial, .inr (.inl rfl), trivial, trivial, trivial, trivial⟩ ⟨_, prefix_rfl, rfl⟩

/-- The reader is cancelled after its queue task has taken the item: the item is lost. Or the lease
is detached and a new one gets an item before the reader goes on: its queue task takes the item. -/
theorem item_lost :
    ¬ Delivers (run step new ([.attach, .emit 7 none, .nextItem 0, .take 0, .cancel 0] :
      List (LeaseAction Nat))) ∧
    ¬ Delivers (run step new ([.attach, .nextItem 0, .detach 0 true, .attach, .emit 7 none,
      .take 0] : List (LeaseAction Nat))) := by
  constructor
  · intro h
    have hkept := h.kept 0 rfl
    revert hkept
    decide
  · intro h
    have hown := h.own 0 ⟨1, some 7⟩ rfl
    revert hown
    decide

end OutputLeaseManager

end JiuwenSpec.Interaction

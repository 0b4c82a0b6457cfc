import Mathlib.Data.List.Infix
import Mathlib.Data.Set.Function
import JiuwenSpec.Base.Assoc
import JiuwenSpec.Base.Json

/-!
# Keys of session scopes

A scope and its subject are written as a text without escaping, and a controller keys the metadata
of its sessions by these texts. An id is read back where it does not look like another part.
Source: `core/session/session_controller/scope.py`, `session_controller.py`.
-/

namespace JiuwenSpec.Session

open Base List

/-- `direct:`. -/
def directTag : Text := ['d', 'i', 'r', 'e', 'c', 't', ':']

/-- `group`. -/
def groupWord : Text := ['g', 'r', 'o', 'u', 'p']

/-- `user`. -/
def userWord : Text := ['u', 's', 'e', 'r']

/-- `agent:`. -/
def agentTag : Text := ['a', 'g', 'e', 'n', 't', ':']

/-- `main`. -/
def mainWord : Text := ['m', 'a', 'i', 'n']

/-- `group:`. -/
def groupTag : Text := groupWord ++ [':']

/-- `:user:`. -/
def userTag : Text := ':' :: userWord ++ [':']

/-- `DirectSubject`, `GroupSubject` and `GroupUserSubject`. -/
inductive Subject where
  | direct (userId : Text)
  | group (groupId : Text)
  | groupUser (groupId userId : Text)
deriving DecidableEq

/-- `str(subject)`. -/
def Subject.text : Subject → Text
  | .direct userId => directTag ++ userId
  | .group groupId => groupTag ++ groupId
  | .groupUser groupId userId => groupTag ++ (groupId ++ (userTag ++ userId))

/-- `DirectSubject.from_string`. -/
def Subject.directOf (text : Text) : Except Text Subject :=
  if directTag.isPrefixOf text then
    if text.drop 7 = [] then .error "DirectSubject user_id cannot be empty".toList
    else .ok (.direct (text.drop 7))
  else .error ("DirectSubject must start with 'direct:', got '".toList ++ text ++ ['\''])

/-- `GroupSubject.from_string`. -/
def Subject.groupOf (text : Text) : Except Text Subject :=
  if groupTag.isPrefixOf text then
    if text.drop 6 = [] then .error "GroupSubject group_id cannot be empty".toList
    else .ok (.group (text.drop 6))
  else .error ("GroupSubject must start with 'group:', got '".toList ++ text ++ ['\''])

def badGroupUser (text : Text) : Text :=
  "GroupUserSubject must have format 'group:\x7bgroup_id\x7d:user:\x7buser_id\x7d', got '".toList ++
    text ++ ['\'']

/-- `GroupUserSubject.from_string`. -/
def Subject.groupUserOf (text : Text) : Except Text Subject :=
  match text.splitOn ':' with
  | [head, groupId, key, userId] =>
    if head = groupWord ∧ key = userWord then
      if groupId = [] ∨ userId = [] then
        .error "GroupUserSubject group_id and user_id cannot be empty".toList
      else .ok (.groupUser groupId userId)
    else .error (badGroupUser text)
  | _ => .error (badGroupUser text)

/-- A `SessionScope` in the main scope. -/
structure SessionScope where
  subject : Option Subject
deriving DecidableEq

/-- `str(session_scope)`. -/
def SessionScope.text (s : SessionScope) : Text :=
  match s.subject with
  | some subject => mainWord ++ ':' :: subject.text
  | none => mainWord

/-- `text.split(":", 1)`. -/
def cutColon : Text → Text × Option Text
  | [] => ([], none)
  | c :: cs => if c = ':' then ([], some cs) else (c :: (cutColon cs).1, (cutColon cs).2)

/-- The subject part of `SessionScope.from_string`. -/
def subjectOf (text : Text) : Except Text Subject :=
  if directTag.isPrefixOf text then Subject.directOf text
  else if groupTag.isPrefixOf text ∧ userTag <:+: text then
    Subject.groupUserOf text
  else if groupTag.isPrefixOf text then Subject.groupOf text
  else .error ("Unknown subject format: ".toList ++ text)

/-- `SessionScope.from_string`. -/
def SessionScope.ofText (text : Text) : Except Text SessionScope :=
  if (cutColon text).1 = mainWord then
    match (cutColon text).2 with
    | none | some [] => .ok ⟨none⟩
    | some subject => (subjectOf subject).map fun s => ⟨some s⟩
  else .error ("Unknown scope: ".toList ++ (cutColon text).1)

structure SessionScopeKey where
  agentId : Text
  sessionScope : SessionScope
deriving DecidableEq

/-- `str(session_scope_key)`. -/
def SessionScopeKey.text (key : SessionScopeKey) : Text :=
  agentTag ++ (key.agentId ++ ':' :: key.sessionScope.text)

/-- `SessionScopeKey.from_string`. -/
def SessionScopeKey.ofText (text : Text) : Except Text SessionScopeKey :=
  if agentTag.isPrefixOf text then
    (SessionScope.ofText ((cutColon (text.drop 6)).2.getD [])).map fun s =>
      ⟨(cutColon (text.drop 6)).1, s⟩
  else .error "SessionScopeKey must start with 'agent:'".toList

/-- The ids are not empty, and none looks like another part of the text. -/
def Subject.Separable : Subject → Prop
  | .direct userId => userId ≠ []
  | .group groupId => groupId ≠ [] ∧ ¬ userTag <:+: ':' :: groupId
  | .groupUser groupId userId => groupId ≠ [] ∧ userId ≠ [] ∧ ':' ∉ groupId ∧ ':' ∉ userId

def SessionScope.Separable (s : SessionScope) : Prop := ∀ subject ∈ s.subject, subject.Separable

/-- The agent id holds no colon, and the scope is read back. -/
def SessionScopeKey.Separable (key : SessionScopeKey) : Prop :=
  ':' ∉ key.agentId ∧ key.sessionScope.Separable

theorem isPrefixOf_append (t u : Text) : t.isPrefixOf (t ++ u) = true :=
  List.isPrefixOf_iff_prefix.mpr (prefix_append t u)

theorem cutColon_append {a : Text} (ha : ':' ∉ a) (t : Text) :
    cutColon (a ++ ':' :: t) = (a, some t) := by
  induction a with
  | nil => rfl
  | cons c a ih =>
    rw [mem_cons, not_or] at ha
    rw [cons_append, cutColon, if_neg (Ne.symm ha.1), ih ha.2]

theorem cutColon_of_notMem {a : Text} (ha : ':' ∉ a) : cutColon a = (a, none) := by
  induction a with
  | nil => rfl
  | cons c a ih =>
    rw [mem_cons, not_or] at ha
    rw [cutColon, if_neg (Ne.symm ha.1), ih ha.2]

theorem cutColon_spec (t : Text) : ':' ∉ (cutColon t).1 ∧
    (∀ r, (cutColon t).2 = some r → t = (cutColon t).1 ++ ':' :: r) ∧
      ((cutColon t).2 = none → t = (cutColon t).1) := by
  induction t with
  | nil => exact ⟨not_mem_nil, fun _ h => (by cases h), fun _ => rfl⟩
  | cons c t ih =>
    rw [cutColon]
    by_cases hc : c = ':'
    · subst hc
      rw [if_pos rfl]
      refine ⟨not_mem_nil, fun r h => ?_, fun h => (by cases h)⟩
      rw [Option.some.inj h]
      rfl
    · rw [if_neg hc]
      refine ⟨?_, fun r h => congrArg (c :: ·) (ih.2.1 r h), fun h => congrArg (c :: ·) (ih.2.2 h)⟩
      rw [mem_cons, not_or]
      exact ⟨Ne.symm hc, ih.1⟩

theorem user_infix_group {g : Text} :
    userTag <:+: groupTag ++ g ↔ userTag <:+: ':' :: g := by
  constructor
  · rintro ⟨a, b, h⟩
    match a with
    | [] | [_] | [_, _] | [_, _, _] | [_, _, _, _] => simp [userTag, groupTag, groupWord] at h
    | _ :: _ :: _ :: _ :: _ :: a =>
      simp only [groupTag, groupWord, cons_append, nil_append, List.cons.injEq] at h
      obtain ⟨-, -, -, -, -, h⟩ := h
      exact ⟨a, b, h⟩
  · rintro ⟨a, b, h⟩
    refine ⟨groupWord ++ a, b, ?_⟩
    rw [append_assoc, append_assoc, ← append_assoc a, h]
    rfl

theorem splitOn_groupUser {g u : Text} (hg : ':' ∉ g) (hu : ':' ∉ u) :
    (groupTag ++ (g ++ (userTag ++ u))).splitOn ':' = [groupWord, g, userWord, u] := by
  have htext : groupTag ++ (g ++ (userTag ++ u)) =
      groupWord ++ ':' :: (g ++ ':' :: (userWord ++ ':' :: u)) := by simp [groupTag, userTag]
  have hgroup : ':' ∉ groupWord := by decide
  have huser : ':' ∉ userWord := by decide
  rw [htext, splitOn_append_cons_self, splitOn_append_cons_self,
    splitOn_append_cons_self, splitOn_eq_singleton hgroup, splitOn_eq_singleton hg,
    splitOn_eq_singleton huser, splitOn_eq_singleton hu]
  rfl

theorem subjectOf_text {s : Subject} (h : s.Separable) : subjectOf s.text = .ok s := by
  cases s with
  | direct userId =>
    have hdrop : (directTag ++ userId).drop 7 = userId := rfl
    have hstarts := isPrefixOf_append directTag userId
    rw [Subject.text, subjectOf, if_pos hstarts, Subject.directOf, if_pos hstarts, hdrop, if_neg h]
  | group groupId =>
    obtain ⟨hne, huser⟩ := h
    have hdrop : (groupTag ++ groupId).drop 6 = groupId := rfl
    have hnot : ¬ (groupTag.isPrefixOf (groupTag ++ groupId) ∧ userTag <:+: groupTag ++ groupId) :=
      fun h => huser (user_infix_group.mp h.2)
    have hstarts := isPrefixOf_append groupTag groupId
    rw [Subject.text, subjectOf, if_neg (by simp [directTag, groupTag, groupWord]), if_neg hnot,
      if_pos hstarts, Subject.groupOf, if_pos hstarts, hdrop, if_neg hne]
  | groupUser groupId userId =>
    obtain ⟨hg, hu, hgc, huc⟩ := h
    have hinfix : userTag <:+: groupTag ++ (groupId ++ (userTag ++ userId)) :=
      ⟨groupTag ++ groupId, userId, by simp⟩
    rw [Subject.text, subjectOf, if_neg (by simp [directTag, groupTag, groupWord]),
      if_pos ⟨isPrefixOf_append _ _, hinfix⟩, Subject.groupUserOf, splitOn_groupUser hgc huc]
    simp [hg, hu]

theorem directOf_ok {t : Text} {s : Subject} (h : Subject.directOf t = .ok s) :
    s.Separable ∧ s.text = t := by
  rw [Subject.directOf] at h
  split at h
  · next hstarts =>
    split at h
    · cases h
    · next hne =>
      cases h
      obtain ⟨u, rfl⟩ := List.isPrefixOf_iff_prefix.mp hstarts
      exact ⟨hne, rfl⟩
  · cases h

theorem groupOf_ok {t : Text} {s : Subject} (h : Subject.groupOf t = .ok s)
    (huser : ¬ userTag <:+: t) : s.Separable ∧ s.text = t := by
  rw [Subject.groupOf] at h
  split at h
  · next hstarts =>
    split at h
    · cases h
    · next hne =>
      cases h
      obtain ⟨g, rfl⟩ := List.isPrefixOf_iff_prefix.mp hstarts
      exact ⟨⟨hne, fun hin => huser (user_infix_group.mpr hin)⟩, rfl⟩
  · cases h

theorem notMem_of_mem_splitOn {c : Char} {t piece : Text} (h : piece ∈ t.splitOn c) : c ∉ piece := by
  induction t generalizing piece with
  | nil =>
    rw [splitOn_nil, mem_singleton] at h
    simp [h]
  | cons x t ih =>
    rw [splitOn_cons_eq_if_modifyHead] at h
    split at h
    · rcases mem_cons.mp h with rfl | h
      · exact not_mem_nil
      · exact ih h
    · next hx =>
      obtain ⟨first, rest, hsplit⟩ := exists_cons_of_ne_nil (splitOn_ne_nil c t)
      rw [hsplit, modifyHead_cons] at h
      rcases mem_cons.mp h with rfl | h
      · rw [mem_cons, not_or]
        exact ⟨fun heq => hx (by simp [heq]), ih (hsplit ▸ mem_cons_self)⟩
      · exact ih (hsplit ▸ mem_cons_of_mem _ h)

theorem groupUserOf_ok {t : Text} {s : Subject} (h : Subject.groupUserOf t = .ok s) :
    s.Separable ∧ s.text = t := by
  rw [Subject.groupUserOf] at h
  split at h
  · next head groupId key userId hsplit =>
    split at h
    · next hwords =>
      obtain ⟨rfl, rfl⟩ := hwords
      split at h
      · cases h
      · next hne =>
        cases h
        rw [not_or] at hne
        have hg : groupId ∈ t.splitOn ':' := by simp [hsplit]
        have hu : userId ∈ t.splitOn ':' := by simp [hsplit]
        refine ⟨⟨hne.1, hne.2, notMem_of_mem_splitOn hg, notMem_of_mem_splitOn hu⟩, ?_⟩
        have hjoin : [':'].intercalate (t.splitOn ':') = t := intercalate_splitOn ':'
        rw [hsplit] at hjoin
        rw [← hjoin]
        simp [Subject.text, groupTag, userTag, List.intercalate]
    · cases h
  · cases h

theorem subjectOf_ok {t : Text} {s : Subject} (h : subjectOf t = .ok s) :
    s.Separable ∧ s.text = t := by
  rw [subjectOf] at h
  split at h
  · exact directOf_ok h
  · split at h
    · exact groupUserOf_ok h
    · next hnot =>
      split at h
      · next hgroup => exact groupOf_ok h fun hin => hnot ⟨hgroup, hin⟩
      · cases h

theorem SessionScope.ofText_text {s : SessionScope} (h : s.Separable) : ofText s.text = .ok s := by
  have hmain : ':' ∉ mainWord := by decide
  obtain ⟨subject⟩ := s
  cases subject with
  | none =>
    rw [SessionScope.text, ofText, cutColon_of_notMem hmain, if_pos rfl]
  | some subject =>
    have hsubject := subjectOf_text (h subject rfl)
    have hne : subject.text ≠ [] := by cases subject <;> simp [Subject.text, directTag, groupTag]
    rw [SessionScope.text, ofText, cutColon_append hmain, if_pos rfl]
    obtain ⟨c, t, ht⟩ := exists_cons_of_ne_nil hne
    rw [ht] at hsubject ⊢
    show (subjectOf (c :: t)).map _ = _
    rw [hsubject]
    rfl

theorem SessionScope.ofText_ok {t : Text} {s : SessionScope} (h : ofText t = .ok s) :
    s.Separable ∧ (s.text = t ∨ s.text ++ [':'] = t) := by
  obtain ⟨-, hsome, hnone⟩ := cutColon_spec t
  rw [ofText] at h
  split at h
  · next hmain =>
    split at h
    · next hcut =>
      cases h
      refine ⟨fun _ h => (by cases h), .inl ?_⟩
      rw [hnone hcut, hmain]
      rfl
    · next hcut =>
      cases h
      refine ⟨fun _ h => (by cases h), .inr ?_⟩
      rw [hsome _ hcut, hmain]
      rfl
    · next subject _ hcut =>
      cases hread : subjectOf subject with
      | error e =>
        rw [hread] at h
        cases h
      | ok r =>
        rw [hread] at h
        cases h
        obtain ⟨hsep, htext⟩ := subjectOf_ok hread
        refine ⟨fun _ h => Option.some.inj h ▸ hsep, .inl ?_⟩
        rw [hsome _ hcut, hmain, ← htext]
        rfl
  · cases h

theorem SessionScope.text_eq_cons (s : SessionScope) : ∃ t, s.text = 'm' :: t := by
  obtain ⟨subject⟩ := s
  cases subject <;> exact ⟨_, rfl⟩

namespace SessionScopeKey

theorem ofText_text {key : SessionScopeKey} (h : key.Separable) : ofText key.text = .ok key := by
  have hdrop : key.text.drop 6 = key.agentId ++ ':' :: key.sessionScope.text := rfl
  have hstarts : agentTag.isPrefixOf key.text = true := isPrefixOf_append agentTag _
  rw [ofText, if_pos hstarts, hdrop, cutColon_append h.1]
  show (SessionScope.ofText key.sessionScope.text).map _ = _
  rw [SessionScope.ofText_text h.2]
  rfl

theorem ofText_ok {t : Text} {key : SessionScopeKey} (h : ofText t = .ok key) :
    key.Separable ∧ ∀ agentId rest, t = agentTag ++ (agentId ++ ':' :: rest) →
      ':' ∈ agentId → rest.length < key.sessionScope.text.length := by
  rw [ofText] at h
  split at h
  · next hstarts =>
    obtain ⟨u, rfl⟩ := List.isPrefixOf_iff_prefix.mp hstarts
    have hdrop : (agentTag ++ u).drop 6 = u := rfl
    rw [hdrop] at h
    obtain ⟨hcut, hsome, hnone⟩ := cutColon_spec u
    cases hscope : SessionScope.ofText ((cutColon u).2.getD []) with
    | error e =>
      rw [hscope] at h
      cases h
    | ok s =>
      rw [hscope] at h
      cases h
      obtain ⟨hsep, htext⟩ := SessionScope.ofText_ok hscope
      refine ⟨⟨hcut, hsep⟩, fun agentId rest hu hcolon => ?_⟩
      obtain rfl := append_cancel_left hu
      -- The agent id that was read ends at the first colon, inside the one that was written.
      obtain ⟨a, b, rfl, ha⟩ := eq_append_cons_of_mem hcolon
      rw [append_assoc, cons_append, cutColon_append ha] at htext
      obtain ⟨c, hmain⟩ := s.text_eq_cons
      rcases htext with htext | htext
      · rw [htext]
        show rest.length < (b ++ ':' :: rest).length
        rw [length_append, length_cons]
        omega
      · cases b with
        | nil =>
          rw [hmain] at htext
          cases htext
        | cons x b =>
          have hlength := congrArg List.length htext
          simp at hlength ⊢
          omega
  · cases h

theorem text_inj {key key' : SessionScopeKey} (h : key.Separable) (h' : key'.Separable)
    (heq : key.text = key'.text) : key = key' := by
  have hread := ofText_text h
  rw [heq, ofText_text h'] at hread
  exact (Except.ok.inj hread).symm

end SessionScopeKey

section

variable {μ : Type}

/-- `_write_meta_file`: the sessions of every scope under the text of its key. -/
def writeMetaFile (agentId : Text) (metaMap : List (SessionScope × μ)) : List (Text × μ) :=
  assocOfWrites (metaMap.map fun e => (SessionScopeKey.text ⟨agentId, e.1⟩, e.2))

/-- The metadata that `load` keeps; a key that cannot be parsed is logged and left out. -/
def loadMetaFile (file : List (Text × μ)) : List (SessionScope × μ) :=
  file.foldl (fun metaMap e =>
    match SessionScopeKey.ofText e.1 with
    | .ok key => assocSet key.sessionScope e.2 metaMap
    | .error _ => metaMap) []

def readEntry (e : Text × μ) : Option (SessionScope × μ) :=
  match SessionScopeKey.ofText e.1 with
  | .ok key => some (key.sessionScope, e.2)
  | .error _ => none

theorem loadMetaFile_eq (file : List (Text × μ)) :
    loadMetaFile file = assocOfWrites (file.filterMap readEntry) := by
  rw [loadMetaFile, assocOfWrites, foldl_filterMap]
  congr
  funext metaMap e
  rw [readEntry]
  cases SessionScopeKey.ofText e.1 <;> rfl

theorem written_of_loaded {agentId : Text} {metaMap : List (SessionScope × μ)}
    {e : SessionScope × μ} (he : e ∈ loadMetaFile (writeMetaFile agentId metaMap)) :
    ∃ w ∈ metaMap, ∃ key, SessionScopeKey.ofText (SessionScopeKey.text ⟨agentId, w.1⟩) = .ok key ∧
      key.sessionScope = e.1 := by
  rw [loadMetaFile_eq] at he
  obtain ⟨f, hf, hread⟩ := mem_filterMap.mp (mem_of_mem_assocOfWrites he)
  obtain ⟨w, hw, rfl⟩ := mem_map.mp (mem_of_mem_assocOfWrites hf)
  refine ⟨w, hw, ?_⟩
  rw [readEntry] at hread
  split at hread
  · next key hkey =>
    cases hread
    exact ⟨key, hkey, rfl⟩
  · cases hread

theorem load_write {agentId : Text} {metaMap : List (SessionScope × μ)}
    (hn : (metaMap.map Prod.fst).Nodup)
    (h : ∀ e ∈ metaMap, SessionScopeKey.Separable ⟨agentId, e.1⟩) :
    loadMetaFile (writeMetaFile agentId metaMap) = metaMap := by
  have htexts : ((metaMap.map fun e => (SessionScopeKey.text ⟨agentId, e.1⟩, e.2)).map
      Prod.fst).Nodup := by
    have hmap : (metaMap.map fun e => (SessionScopeKey.text ⟨agentId, e.1⟩, e.2)).map Prod.fst =
        (metaMap.map Prod.fst).map fun s => SessionScopeKey.text ⟨agentId, s⟩ := by simp
    rw [hmap]
    refine hn.map_on fun s hs s' hs' heq => ?_
    obtain ⟨e, he, rfl⟩ := mem_map.mp hs
    obtain ⟨e', he', rfl⟩ := mem_map.mp hs'
    exact congrArg SessionScopeKey.sessionScope
      (SessionScopeKey.text_inj (h e he) (h e' he') heq)
  have hread : ∀ e ∈ metaMap,
      (readEntry ∘ fun e : SessionScope × μ => (SessionScopeKey.text ⟨agentId, e.1⟩, e.2)) e =
        some e := by
    intro e he
    rw [Function.comp_apply, readEntry, SessionScopeKey.ofText_text (h e he)]
  rw [loadMetaFile_eq, writeMetaFile, assocOfWrites_of_nodup htexts, filterMap_map,
    filterMap_congr hread, filterMap_some, assocOfWrites_of_nodup hn]

theorem separable_of_load {agentId : Text} {metaMap : List (SessionScope × μ)}
    (h : loadMetaFile (writeMetaFile agentId metaMap) = metaMap) :
    ∀ e ∈ metaMap, SessionScopeKey.Separable ⟨agentId, e.1⟩ := by
  have hloaded : ∀ e ∈ metaMap, ∃ w ∈ metaMap, ∃ key,
      SessionScopeKey.ofText (SessionScopeKey.text ⟨agentId, w.1⟩) = .ok key ∧
        key.sessionScope = e.1 := fun e he => written_of_loaded (h.symm ▸ he)
  have hagent : ∀ n, ∀ e ∈ metaMap, e.1.text.length ≤ n → ':' ∉ agentId := by
    -- With a colon in the agent id, each loaded scope comes from one with a shorter text.
    intro n
    induction n with
    | zero =>
      intro e _ hlength
      obtain ⟨t, ht⟩ := e.1.text_eq_cons
      rw [ht] at hlength
      simp at hlength
    | succ n ih =>
      intro e he hlength hcolon
      obtain ⟨w, hw, key, hkey, hscope⟩ := hloaded e he
      have hshorter : w.1.text.length < e.1.text.length :=
        hscope ▸ (SessionScopeKey.ofText_ok hkey).2 _ _ rfl hcolon
      exact ih w hw (by omega) hcolon
  intro e he
  obtain ⟨w, -, key, hkey, hscope⟩ := hloaded e he
  exact ⟨hagent _ e he (Nat.le_refl _), hscope ▸ (SessionScopeKey.ofText_ok hkey).1.2⟩

/-- **When scope keys isolate.** Any set of keys has different texts and is read back, and any
metadata survives being written and loaded, just where the ids are read back. -/
theorem scope_keys_isolate :
    (∀ keys : Set SessionScopeKey,
      (Set.InjOn SessionScopeKey.text keys ∧
          ∀ key ∈ keys, SessionScopeKey.ofText key.text = .ok key) ↔
        ∀ key ∈ keys, key.Separable) ∧
      ∀ (agentId : Text) (metaMap : List (SessionScope × μ)), (metaMap.map Prod.fst).Nodup →
        (loadMetaFile (writeMetaFile agentId metaMap) = metaMap ↔
          ∀ e ∈ metaMap, SessionScopeKey.Separable ⟨agentId, e.1⟩) := by
  refine ⟨fun keys => ⟨fun h key hkey => ?_, fun h => ⟨?_, ?_⟩⟩, fun agentId metaMap hn => ?_⟩
  · exact (SessionScopeKey.ofText_ok (h.2 key hkey)).1
  · exact fun key hkey key' hkey' => SessionScopeKey.text_inj (h key hkey) (h key' hkey')
  · exact fun key hkey => SessionScopeKey.ofText_text (h key hkey)
  · exact ⟨separable_of_load, load_write hn⟩

/-- A user's scope is loaded as it was written. -/
theorem user_scope_kept :
    loadMetaFile (writeMetaFile ['a'] [(⟨some (.direct ['u'])⟩, 1)]) =
      [(⟨some (.direct ['u'])⟩, 1)] := by
  refine (scope_keys_isolate.2 ['a'] _ (by decide)).mpr fun e he => ?_
  rw [mem_singleton.mp he]
  refine ⟨by decide, fun subject hsubject => ?_⟩
  rw [← Option.some.inj hsubject]
  exact cons_ne_nil _ _

/-- A group whose id holds `:user:` has the key of a user of another group. -/
theorem group_taken_for_user :
    SessionScopeKey.text ⟨['a'], ⟨some (.group ("g:user:u".toList))⟩⟩ =
        SessionScopeKey.text ⟨['a'], ⟨some (.groupUser ['g'] ['u'])⟩⟩ ∧
      SessionScopeKey.ofText (SessionScopeKey.text ⟨['a'], ⟨some (.group ("g:user:u".toList))⟩⟩) ≠
        .ok ⟨['a'], ⟨some (.group ("g:user:u".toList))⟩⟩ := by
  decide

end

end JiuwenSpec.Session

import JiuwenSpec.Base.MultiMap
import JiuwenSpec.Base.Run

/-!
# Tags of resources

The tags of each resource and the resources of each tag are kept in two maps. A resource with the
tag `GLOBAL` has no other one, and only `GLOBAL` may be without resources.
Source: `core/runner/resources_manager/tag_manager.py`.
-/

namespace JiuwenSpec.Resources

open Base List MultiMap

def GLOBAL : String := "__global__"

inductive Tags where
  | one (tag : String)
  | many (tags : List String)

inductive TagMatchStrategy where
  | all
  | any
deriving DecidableEq

inductive TagUpdateStrategy where
  | merge
  | replace
deriving DecidableEq

inductive TagError where
  | removeResourceTagError (resourceId : String) (tags : Tags) (reason : String)
  | replaceResourceTagError (resourceId : String) (tag : Tags) (reason : String)
  | removeTagError (tag : String) (reason : String)
  | findResourceError (tag : Tags) (strategy : TagMatchStrategy) (reason : String)

def normalizeTags : Tags → List String
  | .one tag => [tag]
  | .many tags => tags.dedup

def isBuiltinTag (tag : String) : Bool := tag = GLOBAL

structure TagMgr where
  resourceTags : Dict String (List String)
  tagToResource : Dict String (List String)

inductive Call where
  | tagResource (resourceId : String) (tags : Tags)
  | updateResourceTags (resourceId : String) (tags : Tags) (strategy : TagUpdateStrategy)
  | removeResourceTags (resourceId : String) (tags : Tags) (skipIfNotExists : Bool)
  | removeResource (resourceId : String)
  | removeTag (tag : String) (skipIfNotExists : Bool)

namespace TagMgr

def new : TagMgr := ⟨.empty, Dict.empty.set GLOBAL []⟩

def hasResource (s : TagMgr) (resourceId : String) : Bool :=
  (s.resourceTags.get? resourceId).isSome

def getResourcesTags (s : TagMgr) (resourceId : String) : List String :=
  (s.resourceTags.get? resourceId).getD []

def getTagResources (s : TagMgr) (tag : String) : List String :=
  (s.tagToResource.get? tag).getD []

/-- Take a resource out of the sets of tags, and the tags that have none left out of the map. -/
def unlink (index : Dict String (List String)) (resourceId : String) (tags : List String) :
    Dict String (List String) :=
  tags.foldl (fun index tag => MultiMap.remove isBuiltinTag index tag resourceId) index

/-- `self._tag_to_resource.setdefault(tag, set()).add(resource_id)` for each of the tags. -/
def link (index : Dict String (List String)) (resourceId : String) (tags : List String) :
    Dict String (List String) :=
  tags.foldl (fun index tag => MultiMap.insert index tag resourceId) index

def setGlobalResource (s : TagMgr) (resourceId : String) : TagMgr where
  resourceTags := s.resourceTags.set resourceId [GLOBAL]
  tagToResource := link (unlink s.tagToResource resourceId (s.getResourcesTags resourceId))
    resourceId [GLOBAL]

def addResourceTags (s : TagMgr) (resourceId : String) (tagsToAdd : List String) :
    TagMgr × List String :=
  match s.resourceTags.get? resourceId with
  | none => (s, [])
  | some currentTags =>
    if GLOBAL ∈ currentTags then (s, [GLOBAL])
    else
      let updated := tagsToAdd.foldl (fun tags tag => MultiMap.addTo tag tags) currentTags
      (⟨s.resourceTags.set resourceId updated, link s.tagToResource resourceId tagsToAdd⟩, updated)

/-- `_remove_resource`. -/
def removeResourceEntry (s : TagMgr) (resourceId : String) : TagMgr × List String :=
  match s.resourceTags.get? resourceId with
  | none => (s, [])
  | some tags => (⟨s.resourceTags.erase resourceId, unlink s.tagToResource resourceId tags⟩, tags)

/-- The loop of `_remove_resource_tags`. -/
def removeTagsLoop (resourceId : String) :
    List String → List String × Dict String (List String) → List String × Dict String (List String)
  | [], s => s
  | tag :: tags, (currentTags, index) =>
    if tag ∈ currentTags then
      removeTagsLoop resourceId tags
        (MultiMap.discard tag currentTags, MultiMap.remove isBuiltinTag index tag resourceId)
    else removeTagsLoop resourceId tags (currentTags, index)

/-- `_remove_resource_tags`. -/
def removeResourceTagsEntry (s : TagMgr) (resourceId : String) (tagsToRemove : List String) :
    TagMgr × List String :=
  match s.resourceTags.get? resourceId with
  | none => (s, [])
  | some currentTags =>
    match removeTagsLoop resourceId tagsToRemove (currentTags, s.tagToResource) with
    | (remaining, index) =>
      (⟨if remaining = [] then s.resourceTags.erase resourceId
        else s.resourceTags.set resourceId remaining, index⟩, remaining)

def replaceResourceTags (s : TagMgr) (resourceId : String) (newTags : List String) :
    TagMgr × List String :=
  match s.resourceTags.get? resourceId with
  | none => (s, [])
  | some oldTags =>
    (⟨s.resourceTags.set resourceId newTags,
      link (unlink s.tagToResource resourceId oldTags) resourceId newTags⟩, newTags)

/-- `_remove_tag`. -/
def removeTagEntry (s : TagMgr) (tag : String) : TagMgr × List String :=
  match s.tagToResource.get? tag with
  | none => (s, [])
  | some affected =>
    (⟨affected.foldl (fun tags resourceId => MultiMap.remove (fun _ => false) tags resourceId tag)
      s.resourceTags, s.tagToResource.erase tag⟩, affected)

def tagResource (s : TagMgr) (resourceId : String) (tags : Tags) :
    TagMgr × Except TagError (List String) :=
  let known : TagMgr :=
    if s.hasResource resourceId then s
    else { s with resourceTags := s.resourceTags.set resourceId [] }
  if GLOBAL ∈ normalizeTags tags then (known.setGlobalResource resourceId, .ok [GLOBAL])
  else
    match known.addResourceTags resourceId (normalizeTags tags) with
    | (t, currentTags) => (t, .ok currentTags)

def removeResource (s : TagMgr) (resourceId : String) : TagMgr × Except TagError (List String) :=
  if s.hasResource resourceId then
    match s.removeResourceEntry resourceId with
    | (t, removedTags) => (t, .ok removedTags)
  else (s, .ok [])

def removeResourceTags (s : TagMgr) (resourceId : String) (tags : Tags) (skipIfNotExists : Bool) :
    TagMgr × Except TagError (List String) :=
  if s.hasResource resourceId then
    let nonExistent := (normalizeTags tags).filter (· ∉ s.getResourcesTags resourceId)
    if skipIfNotExists = false ∧ nonExistent ≠ [] then
      (s, .error (.removeResourceTagError resourceId (.many nonExistent) "Tag does not exist"))
    else
      match s.removeResourceTagsEntry resourceId (normalizeTags tags) with
      | (t, remainingTags) => (t, .ok remainingTags)
  else (s, .error (.removeResourceTagError resourceId tags "Resource does not exist"))

def updateResourceTags (s : TagMgr) (resourceId : String) (tags : Tags)
    (strategy : TagUpdateStrategy) : TagMgr × Except TagError (List String) :=
  if s.hasResource resourceId then
    if GLOBAL ∈ normalizeTags tags then (s.setGlobalResource resourceId, .ok [GLOBAL])
    else
      match strategy with
      | .replace =>
        match s.replaceResourceTags resourceId (normalizeTags tags) with
        | (t, currentTags) => (t, .ok currentTags)
      | .merge =>
        match s.addResourceTags resourceId (normalizeTags tags) with
        | (t, currentTags) => (t, .ok currentTags)
  else (s, .error (.replaceResourceTagError resourceId tags "Resource does not exist"))

def removeTag (s : TagMgr) (tag : String) (skipIfNotExists : Bool) :
    TagMgr × Except TagError (List String) :=
  if (s.tagToResource.get? tag).isSome then
    match s.removeTagEntry tag with
    | (t, affected) => (t, .ok affected)
  else if skipIfNotExists then (s, .ok [])
  else (s, .error (.removeTagError tag "Tag does not exist"))

def call (s : TagMgr) : Call → TagMgr × Except TagError (List String)
  | .tagResource resourceId tags => s.tagResource resourceId tags
  | .updateResourceTags resourceId tags strategy => s.updateResourceTags resourceId tags strategy
  | .removeResourceTags resourceId tags skip => s.removeResourceTags resourceId tags skip
  | .removeResource resourceId => s.removeResource resourceId
  | .removeTag tag skip => s.removeTag tag skip

def step (s : TagMgr) (c : Call) : TagMgr := (s.call c).1

def notFound (tag : String) : String := "Tag '" ++ tag ++ "' does not exist"

/-- The loop of `find_resources_by_tags` for any of the tags. -/
def findAny (s : TagMgr) (tags : Tags) (skipIfNotExists : Bool) :
    List String → List String → Except TagError (List String)
  | [], found => .ok found
  | tag :: rest, found =>
    if s.getTagResources tag = [] then
      if isBuiltinTag tag = false ∧ skipIfNotExists = false then
        .error (.findResourceError tags .any (notFound tag))
      else s.findAny tags skipIfNotExists rest found
    else
      s.findAny tags skipIfNotExists rest
        ((s.getTagResources tag).foldl (fun found resourceId => MultiMap.addTo resourceId found)
          found)

/-- `_find_resources_with_all_tags`. -/
def findAll (s : TagMgr) (requiredTags : List String) (skipIfNotExists : Bool) :
    Except TagError (List String) :=
  match requiredTags with
  | [] => .ok []
  | firstTag :: _ =>
    match requiredTags.find? fun tag => (s.tagToResource.get? tag).isNone &&
        !isBuiltinTag tag && !skipIfNotExists with
    | some tag => .error (.findResourceError (.many requiredTags) .all (notFound tag))
    | none =>
      .ok (requiredTags.foldl (fun found tag => found.filter (· ∈ s.getTagResources tag))
        (s.getTagResources firstTag))

def findResourcesByTags (s : TagMgr) (tags : Tags) (strategy : TagMatchStrategy)
    (skipIfNotExists : Bool) : Except TagError (List String) :=
  match strategy with
  | .any => s.findAny tags skipIfNotExists (normalizeTags tags) []
  | .all => s.findAll (normalizeTags tags) skipIfNotExists

def HasTag (s : TagMgr) (resourceId tag : String) : Prop :=
  MultiMap.Holds s.resourceTags resourceId tag

def Lists (s : TagMgr) (tag resourceId : String) : Prop :=
  MultiMap.Holds s.tagToResource tag resourceId

/-- The maps are inverse to each other, a resource with `GLOBAL` has no other tag, and no tag but
`GLOBAL` is without resources. -/
structure Indexed (s : TagMgr) : Prop where
  inverse : ∀ resourceId tag, s.HasTag resourceId tag ↔ s.Lists tag resourceId
  alone : ∀ resourceId tag, s.HasTag resourceId GLOBAL → s.HasTag resourceId tag → tag = GLOBAL
  noneEmpty : MultiMap.NoneEmpty isBuiltinTag s.tagToResource

def Tagged (s : TagMgr) : Prop := ∀ resourceId, s.resourceTags.get? resourceId ≠ some []

def RaisesUnchanged (s : TagMgr) : Prop := ∀ c e, (s.call c).2 = .error e → (s.call c).1 = s

/-- What is found are the resources that have any of the tags, or all of them, and without a tag
none. Nothing is found only when a tag that no resource has must not be skipped. -/
structure Finds (s : TagMgr) : Prop where
  any : ∀ tags skip found, s.findResourcesByTags tags .any skip = .ok found →
    ∀ resourceId, resourceId ∈ found ↔ ∃ tag ∈ normalizeTags tags, s.HasTag resourceId tag
  all : ∀ tags skip found, s.findResourcesByTags tags .all skip = .ok found →
    ∀ resourceId, resourceId ∈ found ↔
      normalizeTags tags ≠ [] ∧ ∀ tag ∈ normalizeTags tags, s.HasTag resourceId tag
  raises : ∀ tags strategy skip e, s.findResourcesByTags tags strategy skip = .error e →
    skip = false ∧
      ∃ tag ∈ normalizeTags tags, tag ≠ GLOBAL ∧ ∀ resourceId, ¬ s.HasTag resourceId tag

/-- A resource that is new, or whose tags are replaced, is given a tag. -/
def GivesTags (s : TagMgr) : Call → Prop
  | .tagResource resourceId tags => normalizeTags tags = [] → s.hasResource resourceId = true
  | .updateResourceTags resourceId tags .replace =>
    normalizeTags tags = [] → s.hasResource resourceId = false
  | _ => True

variable {s t : TagMgr} {resourceId : String}

theorem hasTag_iff_mem {tag : String} :
    s.HasTag resourceId tag ↔ tag ∈ s.getResourcesTags resourceId :=
  holds_iff_mem

theorem lists_iff_mem {tag : String} :
    s.Lists tag resourceId ↔ resourceId ∈ s.getTagResources tag :=
  holds_iff_mem

variable {index : Dict String (List String)} {tags : List String}

theorem holds_link {tag other : String} :
    MultiMap.Holds (link index resourceId tags) tag other ↔
      MultiMap.Holds index tag other ∨ tag ∈ tags ∧ other = resourceId :=
  holds_insertAll

theorem holds_unlink {tag other : String} :
    MultiMap.Holds (unlink index resourceId tags) tag other ↔
      MultiMap.Holds index tag other ∧ ¬ (tag ∈ tags ∧ other = resourceId) :=
  holds_removeAll isBuiltinTag

theorem indexed_new : Indexed new := by
  refine ⟨fun resourceId tag => ?_, fun resourceId tag h => ?_, fun tag h => ?_⟩
  · rw [hasTag_iff_mem, lists_iff_mem, getTagResources, new, Dict.get?_set]
    split <;> simp [getResourcesTags]
  · rw [hasTag_iff_mem] at h
    cases h
  · rw [new, Dict.get?_set] at h
    split at h
    · next heq => exact decide_eq_true heq
    · cases h

structure Sets (s t : TagMgr) (resourceId : String) (tags : List String) : Prop where
  ofResource : ∀ other tag, t.HasTag other tag ↔
    if other = resourceId then tag ∈ tags else s.HasTag other tag
  ofTag : ∀ tag other, t.Lists tag other ↔
    if other = resourceId then tag ∈ tags else s.Lists tag other
  noneEmpty : MultiMap.NoneEmpty isBuiltinTag t.tagToResource

theorem Indexed.sets {tags : List String} (h : Indexed s) (hsets : Sets s t resourceId tags)
    (halone : GLOBAL ∈ tags → ∀ tag ∈ tags, tag = GLOBAL) : Indexed t where
  inverse := by
    intro other tag
    rw [hsets.ofResource, hsets.ofTag]
    split
    · exact Iff.rfl
    · exact h.inverse other tag
  alone := by
    intro other tag hglobal htag
    rw [hsets.ofResource] at hglobal htag
    split at hglobal
    · next heq => exact halone hglobal tag (by rwa [if_pos heq] at htag)
    · next hne => exact h.alone other tag hglobal (by rwa [if_neg hne] at htag)
  noneEmpty := hsets.noneEmpty

/-- The resource is taken out of the sets of its tags and put into those of others. -/
theorem lists_relinked (h : Indexed s) {tags : List String} (tag other : String) :
    MultiMap.Holds (link (unlink s.tagToResource resourceId (s.getResourcesTags resourceId))
      resourceId tags) tag other ↔
        if other = resourceId then tag ∈ tags else s.Lists tag other := by
  rw [holds_link, holds_unlink]
  split
  · next heq =>
    subst heq
    have hold : MultiMap.Holds s.tagToResource tag other ↔ tag ∈ s.getResourcesTags other :=
      (h.inverse other tag).symm.trans hasTag_iff_mem
    constructor
    · rintro (⟨hmem, hnot⟩ | ⟨hmem, -⟩)
      · exact absurd ⟨hold.mp hmem, rfl⟩ hnot
      · exact hmem
    · exact fun hmem => .inr ⟨hmem, rfl⟩
  · next hne =>
    constructor
    · rintro (⟨hmem, -⟩ | ⟨-, heq⟩)
      · exact hmem
      · exact absurd heq hne
    · exact fun hmem => .inl ⟨hmem, fun heq => hne heq.2⟩

theorem noneEmpty_relinked (h : Indexed s) (old new : List String) :
    MultiMap.NoneEmpty isBuiltinTag (link (unlink s.tagToResource resourceId old) resourceId new) :=
  (h.noneEmpty.removeAll old).insertAll new

theorem sets_setGlobalResource (h : Indexed s) :
    Sets s (s.setGlobalResource resourceId) resourceId [GLOBAL] where
  ofResource := fun _ _ => holds_set
  ofTag := lists_relinked h
  noneEmpty := noneEmpty_relinked h _ _

theorem Indexed.setGlobalResource (h : Indexed s) : Indexed (s.setGlobalResource resourceId) :=
  h.sets (sets_setGlobalResource h) fun _ _ htag => mem_singleton.mp htag

theorem mem_foldl_addTo {added values : List String} {value : String} :
    value ∈ added.foldl (fun values v => MultiMap.addTo v values) values ↔
      value ∈ values ∨ value ∈ added := by
  induction added generalizing values with
  | nil => simp
  | cons first added ih => rw [foldl_cons, ih, mem_addTo, mem_cons, or_assoc]

theorem Indexed.addResourceTags (h : Indexed s) {tagsToAdd : List String}
    (hglobal : GLOBAL ∉ tagsToAdd) : Indexed (s.addResourceTags resourceId tagsToAdd).1 := by
  unfold TagMgr.addResourceTags
  cases hcurrent : s.resourceTags.get? resourceId with
  | none => exact h
  | some currentTags =>
    dsimp only
    split
    · exact h
    · next hlocal =>
      have hold : ∀ tag, s.Lists tag resourceId ↔ tag ∈ currentTags := by
        intro tag
        rw [← h.inverse, hasTag_iff_mem, getResourcesTags, hcurrent, Option.getD_some]
      refine h.sets ⟨fun _ _ => holds_set, fun tag other => ?_, h.noneEmpty.insertAll _⟩ ?_
      · refine holds_link.trans ?_
        split
        · next heq =>
          subst heq
          rw [mem_foldl_addTo, and_iff_left rfl, ← hold]
          exact Iff.rfl
        · next hne => exact ⟨fun h' => h'.resolve_right fun h' => hne h'.2, .inl⟩
      · intro hmem
        exact ((mem_foldl_addTo.mp hmem).elim hlocal hglobal).elim

theorem Indexed.removeResourceEntry (h : Indexed s) :
    Indexed (s.removeResourceEntry resourceId).1 := by
  unfold TagMgr.removeResourceEntry
  cases hcurrent : s.resourceTags.get? resourceId with
  | none => exact h
  | some tags =>
    have htags : s.getResourcesTags resourceId = tags := by
      rw [getResourcesTags, hcurrent, Option.getD_some]
    have hsets : Sets s ⟨s.resourceTags.erase resourceId, unlink s.tagToResource resourceId tags⟩
        resourceId [] := by
      refine ⟨fun other tag => ?_, fun tag other => ?_, h.noneEmpty.removeAll _⟩
      · refine holds_erase.trans ?_
        split
        · next heq => exact iff_of_false (fun h' => h'.1 heq) not_mem_nil
        · next hne => exact and_iff_right hne
      · exact htags ▸ @lists_relinked s resourceId h [] tag other
    exact h.sets hsets fun _ _ htag => absurd htag not_mem_nil

/-- The loop takes the tags out of the set of the resource, and the resource out of theirs. -/
theorem removeTagsLoop_spec {tags currentTags : List String} {index : Dict String (List String)} :
    (∀ tag, tag ∈ (removeTagsLoop resourceId tags (currentTags, index)).1 ↔
      tag ∈ currentTags ∧ tag ∉ tags) ∧
    (∀ tag other,
      MultiMap.Holds (removeTagsLoop resourceId tags (currentTags, index)).2 tag other ↔
        MultiMap.Holds index tag other ∧
          ¬ (other = resourceId ∧ tag ∈ currentTags ∧ tag ∈ tags)) ∧
    (MultiMap.NoneEmpty isBuiltinTag index →
      MultiMap.NoneEmpty isBuiltinTag (removeTagsLoop resourceId tags (currentTags, index)).2) := by
  induction tags generalizing currentTags index with
  | nil => simp [removeTagsLoop]
  | cons first tags ih =>
    rw [removeTagsLoop]
    split
    · next hmem =>
      obtain ⟨htags, hindex, hempty⟩ := @ih (MultiMap.discard first currentTags)
        (MultiMap.remove isBuiltinTag index first resourceId)
      refine ⟨fun tag => ?_, fun tag other => ?_, fun h => hempty h.remove⟩
      · rw [htags, mem_discard, mem_cons, not_or, and_assoc]
      · rw [hindex, holds_remove, mem_discard, mem_cons]
        by_cases heq : tag = first
        · subst heq
          simp [hmem]
        · simp [heq]
    · next hmem =>
      obtain ⟨htags, hindex, hempty⟩ := @ih currentTags index
      refine ⟨fun tag => ?_, fun tag other => ?_, hempty⟩
      · rw [htags, mem_cons, not_or]
        constructor
        · rintro ⟨h, h'⟩
          exact ⟨h, fun heq => hmem (heq ▸ h), h'⟩
        · rintro ⟨h, -, h'⟩
          exact ⟨h, h'⟩
      · rw [hindex, mem_cons]
        by_cases heq : tag = first
        · subst heq
          simp [hmem]
        · simp [heq]

theorem Indexed.removeResourceTagsEntry (h : Indexed s) (tagsToRemove : List String) :
    Indexed (s.removeResourceTagsEntry resourceId tagsToRemove).1 := by
  unfold TagMgr.removeResourceTagsEntry
  cases hcurrent : s.resourceTags.get? resourceId with
  | none => exact h
  | some currentTags =>
    have hold : ∀ tag, s.HasTag resourceId tag ↔ tag ∈ currentTags := by
      intro tag
      rw [hasTag_iff_mem, getResourcesTags, hcurrent, Option.getD_some]
    obtain ⟨htags, hindex, hempty⟩ := @removeTagsLoop_spec resourceId tagsToRemove currentTags
      s.tagToResource
    dsimp only
    refine @Indexed.sets s _ resourceId
      (removeTagsLoop resourceId tagsToRemove (currentTags, s.tagToResource)).1 h
      ⟨fun other tag => ?_, fun tag other => ?_, hempty h.noneEmpty⟩ fun hmem tag htag => ?_
    · unfold HasTag
      dsimp only
      split
      · next hnil =>
        rw [holds_erase, hnil]
        split
        · next heq => exact iff_of_false (fun h' => h'.1 heq) not_mem_nil
        · next hne => exact and_iff_right hne
      · exact holds_set
    · refine (hindex tag other).trans ?_
      split
      · next heq =>
        subst heq
        rw [htags, ← hold, h.inverse]
        constructor
        · rintro ⟨h', hnot⟩
          exact ⟨h', fun hmem => hnot ⟨rfl, h', hmem⟩⟩
        · rintro ⟨h', hnot⟩
          exact ⟨h', fun hall => hnot hall.2.2⟩
      · next hne => exact and_iff_left fun h' => hne h'.1
    · exact h.alone resourceId tag ((hold GLOBAL).mpr ((htags GLOBAL).mp hmem).1)
        ((hold tag).mpr ((htags tag).mp htag).1)

theorem Indexed.replaceResourceTags (h : Indexed s) {newTags : List String}
    (hglobal : GLOBAL ∉ newTags) : Indexed (s.replaceResourceTags resourceId newTags).1 := by
  unfold TagMgr.replaceResourceTags
  cases hcurrent : s.resourceTags.get? resourceId with
  | none => exact h
  | some oldTags =>
    have htags : s.getResourcesTags resourceId = oldTags := by
      rw [getResourcesTags, hcurrent, Option.getD_some]
    exact h.sets ⟨fun _ _ => holds_set, htags ▸ lists_relinked h,
      noneEmpty_relinked h _ _⟩ fun hmem => absurd hmem hglobal

theorem Indexed.removeTagEntry (h : Indexed s) (tag : String) :
    Indexed (s.removeTagEntry tag).1 := by
  unfold TagMgr.removeTagEntry
  cases haffected : s.tagToResource.get? tag with
  | none => exact h
  | some affected =>
    have hold : ∀ other, s.Lists tag other ↔ other ∈ affected := by
      intro other
      rw [lists_iff_mem, getTagResources, haffected, Option.getD_some]
    have htags : ∀ other x, MultiMap.Holds (affected.foldl (fun tags resourceId =>
        MultiMap.remove (fun _ => false) tags resourceId tag) s.resourceTags) other x ↔
        s.HasTag other x ∧ x ≠ tag := by
      intro other x
      rw [holds_removeAll]
      refine and_congr_right fun hx => not_congr ⟨And.right, ?_⟩
      rintro rfl
      exact ⟨(hold other).mp ((h.inverse other x).mp hx), rfl⟩
    refine ⟨fun other x => ?_, fun other x hglobal hx => ?_, h.noneEmpty.erase⟩
    · exact (htags other x).trans
        ((and_comm.trans (and_congr_right fun _ => h.inverse other x)).trans
          holds_erase.symm)
    · exact h.alone other x ((htags other GLOBAL).mp hglobal).1 ((htags other x).mp hx).1

theorem hasResource_iff : s.hasResource resourceId = true ↔
    ∃ tags, s.resourceTags.get? resourceId = some tags := Option.isSome_iff_exists

/-- A new resource is known, and has no tags yet. -/
theorem Indexed.known (h : Indexed s) (hnew : ¬ s.hasResource resourceId = true) :
    Indexed { s with resourceTags := s.resourceTags.set resourceId [] } := by
  have hnone : s.resourceTags.get? resourceId = none :=
    Option.not_isSome_iff_eq_none.mp hnew
  have hold : ∀ tag, ¬ s.HasTag resourceId tag := by
    intro tag htag
    rw [hasTag_iff_mem, getResourcesTags, hnone] at htag
    cases htag
  refine h.sets ⟨fun _ _ => holds_set, fun tag other => ?_, h.noneEmpty⟩
    nofun
  split
  · next heq =>
    subst heq
    exact iff_of_false (fun hlists => hold tag ((h.inverse other tag).mpr hlists)) not_mem_nil
  · exact Iff.rfl

theorem Indexed.step (h : Indexed s) (c : Call) : Indexed (s.step c) := by
  unfold TagMgr.step TagMgr.call
  cases c with
  | tagResource resourceId tags =>
    have hknown : Indexed (if s.hasResource resourceId then s
        else { s with resourceTags := s.resourceTags.set resourceId [] }) := by
      split
      · exact h
      · next hnew => exact h.known hnew
    simp only [TagMgr.tagResource]
    split
    · exact hknown.setGlobalResource
    · next hlocal => exact hknown.addResourceTags hlocal
  | updateResourceTags resourceId tags strategy =>
    simp only [TagMgr.updateResourceTags]
    split
    · split
      · exact h.setGlobalResource
      · next hlocal =>
        cases strategy with
        | replace => exact h.replaceResourceTags hlocal
        | merge => exact h.addResourceTags hlocal
    · exact h
  | removeResourceTags resourceId tags skip =>
    simp only [TagMgr.removeResourceTags]
    split
    · split
      · exact h
      · exact h.removeResourceTagsEntry _
    · exact h
  | removeResource resourceId =>
    simp only [TagMgr.removeResource]
    split
    · exact h.removeResourceEntry
    · exact h
  | removeTag tag skip =>
    simp only [TagMgr.removeTag]
    split
    · exact h.removeTagEntry tag
    · split <;> exact h

theorem raisesUnchanged (s : TagMgr) : RaisesUnchanged s := by
  intro c e herror
  unfold call at herror ⊢
  cases c with
  | tagResource resourceId tags =>
    simp only [tagResource] at herror
    split at herror <;> cases herror
  | updateResourceTags resourceId tags strategy =>
    simp only [updateResourceTags] at herror ⊢
    split at herror
    · split at herror
      · cases herror
      · cases strategy <;> cases herror
    · next hunknown => rw [if_neg hunknown]
  | removeResourceTags resourceId tags skip =>
    simp only [removeResourceTags] at herror ⊢
    split at herror
    · next hknown =>
      split at herror
      · next hmissing => rw [if_pos hknown, if_pos hmissing]
      · cases herror
    · next hunknown => rw [if_neg hunknown]
  | removeResource resourceId =>
    simp only [removeResource] at herror
    split at herror <;> cases herror
  | removeTag tag skip =>
    simp only [removeTag] at herror ⊢
    split at herror
    · cases herror
    · next hunknown =>
      split at herror
      · cases herror
      · next hraise => rw [if_neg hunknown, if_neg hraise]

theorem tagged_iff : Tagged s ↔ MultiMap.NoneEmpty (fun _ => false) s.resourceTags :=
  ⟨fun h resourceId hnil => absurd hnil (h resourceId), fun h resourceId hnil => by
    cases h resourceId hnil⟩

theorem Tagged.set (h : Tagged s) (hne : tags ≠ []) : Tagged ⟨s.resourceTags.set resourceId tags, index⟩ :=
  tagged_iff.mpr ((tagged_iff.mp h).set fun hnil => absurd hnil hne)

theorem Tagged.erase (h : Tagged s) : Tagged ⟨s.resourceTags.erase resourceId, index⟩ :=
  tagged_iff.mpr (tagged_iff.mp h).erase

theorem foldl_addTo_ne_nil {added values : List String} (h : values ≠ [] ∨ added ≠ []) :
    added.foldl (fun values v => MultiMap.addTo v values) values ≠ [] := by
  rcases h with h | h
  · obtain ⟨value, hvalue⟩ := exists_mem_of_ne_nil values h
    exact ne_nil_of_mem (mem_foldl_addTo.mpr (.inl hvalue))
  · obtain ⟨value, hvalue⟩ := exists_mem_of_ne_nil added h
    exact ne_nil_of_mem (mem_foldl_addTo.mpr (.inr hvalue))

theorem Tagged.addResourceTags (h : Tagged s) (tagsToAdd : List String) :
    Tagged (s.addResourceTags resourceId tagsToAdd).1 := by
  unfold TagMgr.addResourceTags
  cases hcurrent : s.resourceTags.get? resourceId with
  | none => exact h
  | some currentTags =>
    dsimp only
    split
    · exact h
    · refine h.set (foldl_addTo_ne_nil (.inl ?_))
      rintro rfl
      exact h resourceId hcurrent

theorem Tagged.addNew (h : Tagged s) {tagsToAdd : List String} (hne : tagsToAdd ≠ []) :
    Tagged ({ s with resourceTags := s.resourceTags.set resourceId [] }.addResourceTags resourceId
      tagsToAdd).1 := by
  simp only [TagMgr.addResourceTags, Dict.get?_set_self, if_neg not_mem_nil]
  intro other hnil
  rw [Dict.get?_set] at hnil
  split at hnil
  · exact foldl_addTo_ne_nil (.inr hne) (Option.some.inj hnil)
  · next hother => exact h other (by rwa [Dict.get?_set_of_ne _ _ hother] at hnil)

theorem Tagged.setGlobalResource (h : ∀ other, other ≠ resourceId →
    s.resourceTags.get? other ≠ some []) : Tagged (s.setGlobalResource resourceId) := by
  intro other hnil
  rw [TagMgr.setGlobalResource, Dict.get?_set] at hnil
  split at hnil
  · cases hnil
  · next hother => exact h other hother hnil

theorem Tagged.step (h : Tagged s) {c : Call} (hgives : GivesTags s c) : Tagged (s.step c) := by
  unfold TagMgr.step TagMgr.call
  cases c with
  | tagResource resourceId tags =>
    simp only [TagMgr.tagResource]
    by_cases hknown : s.hasResource resourceId = true
    · simp only [if_pos hknown]
      split
      · exact .setGlobalResource fun other _ => h other
      · exact h.addResourceTags _
    · simp only [if_neg hknown]
      split
      · refine .setGlobalResource fun other hother => ?_
        rw [Dict.get?_set_of_ne _ _ hother]
        exact h other
      · exact h.addNew fun hnil => hknown (hgives hnil)
  | updateResourceTags resourceId tags strategy =>
    simp only [TagMgr.updateResourceTags]
    split
    · next hknown =>
      split
      · exact .setGlobalResource fun other _ => h other
      · cases strategy with
        | replace =>
          have hne : normalizeTags tags ≠ [] := fun hnil => by
            rw [hgives hnil] at hknown
            cases hknown
          obtain ⟨oldTags, hold⟩ := hasResource_iff.mp hknown
          simp only [TagMgr.replaceResourceTags, hold]
          exact h.set hne
        | merge => exact h.addResourceTags _
    · exact h
  | removeResourceTags resourceId tags skip =>
    simp only [TagMgr.removeResourceTags]
    split
    · split
      · exact h
      · simp only [TagMgr.removeResourceTagsEntry]
        split
        · exact h
        · dsimp only
          split
          · exact h.erase
          · next hne => exact h.set hne
    · exact h
  | removeResource resourceId =>
    simp only [TagMgr.removeResource]
    split
    · simp only [TagMgr.removeResourceEntry]
      split
      · exact h
      · exact h.erase
    · exact h
  | removeTag tag skip =>
    simp only [TagMgr.removeTag]
    split
    · simp only [TagMgr.removeTagEntry]
      split
      · exact h
      · next affected _ => exact tagged_iff.mpr ((tagged_iff.mp h).removeAll affected)
    · split <;> exact h

variable {found : List String}

theorem findAny_ok {tags : Tags} {skip : Bool} {rest found' : List String}
    (h : s.findAny tags skip rest found = .ok found') (resourceId : String) :
    resourceId ∈ found' ↔
      resourceId ∈ found ∨ ∃ tag ∈ rest, resourceId ∈ s.getTagResources tag := by
  induction rest generalizing found with
  | nil =>
    cases h
    simp
  | cons tag rest ih =>
    rw [findAny] at h
    split at h
    · next hnil =>
      split at h
      · cases h
      · rw [ih h]
        simp [hnil]
    · rw [ih h, mem_foldl_addTo]
      simp [or_assoc]

theorem findAny_error {tags : Tags} {skip : Bool} {rest : List String} {e : TagError}
    (h : s.findAny tags skip rest found = .error e) :
    skip = false ∧ ∃ tag ∈ rest, tag ≠ GLOBAL ∧ s.getTagResources tag = [] := by
  induction rest generalizing found with
  | nil => cases h
  | cons tag rest ih =>
    rw [findAny] at h
    split at h
    · next hnil =>
      split at h
      · next hraise =>
        exact ⟨hraise.2, tag, .head _, of_decide_eq_false hraise.1, hnil⟩
      · obtain ⟨hskip, other, hmem, hother⟩ := ih h
        exact ⟨hskip, other, mem_cons_of_mem tag hmem, hother⟩
    · obtain ⟨hskip, other, hmem, hother⟩ := ih h
      exact ⟨hskip, other, mem_cons_of_mem tag hmem, hother⟩

theorem mem_foldl_filter {resourceId : String} :
    resourceId ∈ tags.foldl (fun found tag => found.filter (· ∈ s.getTagResources tag)) found ↔
      resourceId ∈ found ∧ ∀ tag ∈ tags, resourceId ∈ s.getTagResources tag := by
  induction tags generalizing found with
  | nil => simp
  | cons tag tags ih =>
    rw [foldl_cons, ih, mem_filter, decide_eq_true_iff, forall_mem_cons, and_assoc]

theorem findAll_ok {required : List String} {skip : Bool}
    (h : s.findAll required skip = .ok found) (resourceId : String) :
    resourceId ∈ found ↔
      required ≠ [] ∧ ∀ tag ∈ required, resourceId ∈ s.getTagResources tag := by
  unfold findAll at h
  split at h
  · cases h
    simp
  · next firstTag rest =>
    split at h
    · cases h
    · cases h
      rw [mem_foldl_filter, and_iff_right (cons_ne_nil firstTag rest)]
      exact and_iff_right_of_imp fun hall => hall firstTag (.head _)

theorem findAll_error {required : List String} {skip : Bool} {e : TagError}
    (h : s.findAll required skip = .error e) :
    skip = false ∧ ∃ tag ∈ required, tag ≠ GLOBAL ∧ s.getTagResources tag = [] := by
  unfold findAll at h
  split at h
  · cases h
  · split at h
    · next tag hfind =>
      have hraise := List.find?_some hfind
      simp only [Bool.and_eq_true, Bool.not_eq_true', Option.isNone_iff_eq_none] at hraise
      obtain ⟨⟨hnone, hbuiltin⟩, hskip⟩ := hraise
      refine ⟨hskip, tag, mem_of_find?_eq_some hfind, of_decide_eq_false hbuiltin, ?_⟩
      rw [getTagResources, hnone, Option.getD_none]
    · cases h

theorem Indexed.finds (h : Indexed s) : Finds s where
  any := by
    intro tags skip found hfound resourceId
    rw [findAny_ok hfound, or_iff_right not_mem_nil]
    simp only [h.inverse, lists_iff_mem]
  all := by
    intro tags skip found hfound resourceId
    rw [findAll_ok hfound]
    simp only [h.inverse, lists_iff_mem]
  raises := by
    intro tags strategy skip e herror
    have hcases : skip = false ∧ ∃ tag ∈ normalizeTags tags, tag ≠ GLOBAL ∧
        s.getTagResources tag = [] := by
      cases strategy with
      | any => exact findAny_error herror
      | all => exact findAll_error herror
    obtain ⟨hskip, tag, hmem, hne, hnil⟩ := hcases
    refine ⟨hskip, tag, hmem, hne, fun resourceId htag => ?_⟩
    rw [h.inverse, lists_iff_mem, hnil] at htag
    cases htag

/-- After any calls the two maps agree, a call that fails changes nothing, and resources are found
by their tags. If a resource that is new or whose tags are replaced is given a tag each time, every
resource has one. -/
theorem tag_index_consistent (calls : List Call) :
    Indexed (run step new calls) ∧ RaisesUnchanged (run step new calls) ∧
      Finds (run step new calls) ∧
        (Meets step GivesTags new calls → Tagged (run step new calls)) := by
  have hindexed : Indexed (run step new calls) :=
    run_invariant (C := fun _ _ => True) (fun _ c h _ => h.step c) indexed_new
      (meets_of_forall (fun _ _ _ => trivial) new)
  exact ⟨hindexed, raisesUnchanged _, hindexed.finds,
    run_invariant (fun _ _ h hgives => h.step hgives) (fun _ h => by cases h)⟩

/-- A new resource that is given no tag is known, and has none; and nothing is found that has all of
no tags. -/
theorem untagged_resource :
    ¬ Tagged (run step new [.tagResource "tool" (.many [])]) ∧
      (run step new [.tagResource "tool" (.one "math")]).findResourcesByTags (.many []) .all true =
        .ok [] :=
  ⟨fun h => h "tool" rfl, rfl⟩

end TagMgr

end JiuwenSpec.Resources

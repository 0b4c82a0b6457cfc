import JiuwenSpec.Session.SessionController

/-!
# Downstream links after a restart

A flush writes one link file for each downstream, under a name that joins the two ids, and a load
splits the names again. What a new session reads back is what was flushed when the names can be
written and split, and when no policy has an empty field scope.
Source: `core/session/session_controller/chain_session.py`.
-/

namespace JiuwenSpec.Session

open Base List

theorem targetOf_eq_some_iff {name : Text} {target : Target} :
    targetOf name = some target ↔ name = linkName target ∧ '_' ∉ target.1 := by
  induction name generalizing target with
  | nil => simp [targetOf, linkName]
  | cons c name ih =>
    obtain ⟨agent, session⟩ := target
    rw [targetOf]
    by_cases hc : c = '_'
    · rw [if_pos hc, Option.some.injEq]
      cases agent with
      | nil => simp [linkName, hc]
      | cons a agent =>
        simp only [linkName, cons_append, List.cons.injEq, mem_cons, not_or,
          Prod.mk.injEq]
        constructor
        · rintro ⟨⟨⟩, -⟩
        · rintro ⟨⟨ha, -⟩, hne, -⟩
          exact absurd (hc.symm.trans ha) hne
    · rw [if_neg hc, Option.map_eq_some_iff]
      constructor
      · rintro ⟨⟨a, s⟩, ht, he⟩
        obtain ⟨rfl, rfl⟩ := Prod.mk.inj he
        obtain ⟨rfl, ha⟩ := ih.mp ht
        exact ⟨rfl, not_mem_cons_of_ne_of_not_mem (Ne.symm hc) ha⟩
      · rintro ⟨he, hagent⟩
        cases agent with
        | nil => exact absurd (List.cons.inj he).1 hc
        | cons a agent =>
          obtain ⟨rfl, hname⟩ := List.cons.inj he
          exact ⟨(agent, session),
            ih.mpr ⟨hname, fun h => hagent (.tail _ h)⟩, rfl⟩

theorem linkName_inj {a b : Target} (ha : '_' ∉ a.1) (hb : '_' ∉ b.1)
    (h : linkName a = linkName b) : a = b :=
  Option.some.inj ((targetOf_eq_some_iff.mpr ⟨rfl, ha⟩).symm.trans
    (targetOf_eq_some_iff.mpr ⟨h, hb⟩))

theorem policy_ofPolicy (p : SharingPolicy) (now : Nat) :
    (LinkFile.ofPolicy p now).policy =
      some ⟨p.permission, shownScopes (shownScopes p.fieldScopes)⟩ := rfl

theorem fieldScopes_of_policy {link : LinkFile} {p : SharingPolicy} (h : link.policy = some p) :
    p.fieldScopes ≠ some ∅ := by
  obtain ⟨permission, -, rfl⟩ := Option.map_eq_some_iff.mp h
  intro hempty
  exact of_decide_eq_true (Option.filter_eq_some_iff.mp hempty).2 rfl

theorem shownScopes_of_ne {scopes : Option (Finset Text)} (h : scopes ≠ some ∅) :
    shownScopes scopes = scopes := by
  cases scopes with
  | none => rfl
  | some fields =>
    refine Option.filter_eq_some_iff.mpr ⟨rfl, decide_eq_true ?_⟩
    rintro rfl
    exact h rfl

/-- The files of a directory have distinct names, and the file system takes every name. -/
structure SessionDir.WF (writable : Text → Bool) (dir : SessionDir) : Prop where
  distinct : (dir.links.map Prod.fst).Nodup
  writable : ∀ name ∈ dir.links.map Prod.fst, writable name

variable {writable : Text → Bool} {now : Nat}

theorem writeLinks_keeps (policies : List (Target × SharingPolicy))
    {links : List (Text × LinkFile)} (hn : (links.map Prod.fst).Nodup)
    (hw : ∀ name ∈ links.map Prod.fst, writable name) :
    (((writeLinks writable now policies links).1.map Prod.fst).Nodup) ∧
      ∀ name ∈ (writeLinks writable now policies links).1.map Prod.fst, writable name := by
  induction policies generalizing links with
  | nil => exact ⟨hn, hw⟩
  | cons e rest ih =>
    rw [writeLinks]
    split
    · next hname =>
      refine ih (nodup_assocSet hn) fun name hmem => ?_
      rcases mem_keys_assocSet.mp hmem with rfl | hmem
      · exact hname
      · exact hw name hmem
    · exact ⟨hn, hw⟩

theorem SessionDir.WF.flush {dir : SessionDir} (hdir : dir.WF writable) (x : ChainSession)
    (now : Nat) : (x.flush writable now dir).2.1.WF writable := by
  have hkeeps := @writeLinks_keeps writable now x.downstreamPolicies _ hdir.distinct hdir.writable
  rw [ChainSession.flush]
  split
  · next links hlinks =>
    rw [hlinks] at hkeeps
    have hsub := (filter_sublist
      (p := fun e : Text × LinkFile =>
        (x.downstreamPolicies.map fun e => linkName e.1).contains e.1) (l := links)).map Prod.fst
    exact ⟨hkeeps.1.sublist hsub, fun name hname => hkeeps.2 name (hsub.subset hname)⟩
  · next links hlinks =>
    rw [hlinks] at hkeeps
    exact ⟨hkeeps.1, hkeeps.2⟩

theorem writeLinks_of_writable {policies : List (Target × SharingPolicy)}
    (hw : ∀ e ∈ policies, writable (linkName e.1)) (links : List (Text × LinkFile)) :
    writeLinks writable now policies links =
      ((policies.map fun e => (linkName e.1, LinkFile.ofPolicy e.2 now)).foldl
        (fun es w => assocSet w.1 w.2 es) links, true) := by
  induction policies generalizing links with
  | nil => rfl
  | cons e rest ih =>
    rw [writeLinks, if_pos (hw e mem_cons_self),
      ih fun e he => hw e (.tail _ he)]
    rfl

theorem nodup_readLink {links : List (Text × LinkFile)} (hn : (links.map Prod.fst).Nodup) :
    ((links.filterMap ChainSession.readLink).map Prod.fst).Nodup := by
  induction links with
  | nil => exact nodup_nil
  | cons e links ih =>
    rw [map_cons, nodup_cons] at hn
    rw [filterMap_cons]
    split
    · exact ih hn.2
    · next d hd =>
      rw [map_cons, nodup_cons]
      refine ⟨fun hmem => ?_, ih hn.2⟩
      obtain ⟨d', hd', hfst⟩ := mem_map.mp hmem
      obtain ⟨e', he', hread⟩ := mem_filterMap.mp hd'
      have hname : ∀ {e d}, ChainSession.readLink e = some d → e.1 = linkName d.1 := by
        intro e d h
        obtain ⟨target, htarget, h⟩ := Option.bind_eq_some_iff.mp h
        obtain ⟨p, -, rfl⟩ := Option.map_eq_some_iff.mp h
        exact (targetOf_eq_some_iff.mp htarget).1
      refine hn.1 (mem_map.mpr ⟨e', he', ?_⟩)
      rw [hname hread, hfst, hname hd]

theorem assocGet?_readLink {links : List (Text × LinkFile)} (hn : (links.map Prod.fst).Nodup)
    (target : Target) : assocGet? target (links.filterMap ChainSession.readLink) =
      if '_' ∈ target.1 then none
      else (assocGet? (linkName target) links).bind LinkFile.policy := by
  refine Option.ext fun p => ?_
  constructor
  · intro h
    obtain ⟨e, he, hread⟩ := mem_filterMap.mp (mem_of_assocGet? h)
    obtain ⟨t, ht, hp⟩ := Option.bind_eq_some_iff.mp hread
    obtain ⟨q, hq, hpair⟩ := Option.map_eq_some_iff.mp hp
    obtain ⟨rfl, rfl⟩ := Prod.mk.inj hpair
    obtain ⟨hname, hagent⟩ := targetOf_eq_some_iff.mp ht
    rw [if_neg hagent, ← hname, assocGet?_of_mem hn he]
    exact hq
  · intro h
    split at h
    · cases h
    · next hagent =>
      obtain ⟨link, hlink, hp⟩ := Option.bind_eq_some_iff.mp h
      refine assocGet?_of_mem (nodup_readLink hn)
        (mem_filterMap.mpr ⟨_, mem_of_assocGet? hlink, ?_⟩)
      rw [ChainSession.readLink, targetOf_eq_some_iff.mpr ⟨rfl, hagent⟩, hp]
      rfl

namespace ChainSession

/-- The downstreams that a new session reads from the directory. -/
def restored (scope : SessionScope) (dir : SessionDir) : List (Target × SharingPolicy) :=
  ((init scope).load dir).downstreamPolicies

theorem assocGet?_restored {dir : SessionDir} (hn : (dir.links.map Prod.fst).Nodup)
    (scope : SessionScope) (target : Target) : assocGet? target (restored scope dir) =
      if '_' ∈ target.1 then none
      else (assocGet? (linkName target) dir.links).bind LinkFile.policy := by
  have hload : restored scope dir = assocOfWrites (dir.links.filterMap readLink) := by
    rw [restored, load]
    split <;> rfl
  rw [hload, assocOfWrites_of_nodup (nodup_readLink hn), assocGet?_readLink hn]

end ChainSession

/-- `p` allows the fields that `q` allows, or fewer; `None` allows every field. -/
def SharingPolicy.Within (p q : SharingPolicy) : Prop :=
  ∀ fields, q.fieldScopes = some fields → ∃ fewer ⊆ fields, p.fieldScopes = some fewer

/-- A load after the flush reads the same downstreams, none with more fields, and no two of them
share a link file. -/
structure RoundTrips (writable : Text → Bool) (now : Nat) (dir : SessionDir) (scope : SessionScope)
    (x : ChainSession) : Prop where
  same : ∀ target, assocGet? target (ChainSession.restored scope (x.flush writable now dir).2.1) =
    assocGet? target x.downstreamPolicies
  within : ∀ e ∈ x.downstreamPolicies, ∀ p,
    assocGet? e.1 (ChainSession.restored scope (x.flush writable now dir).2.1) = some p →
      p.Within e.2
  apart : ∀ d ∈ x.downstreamPolicies, ∀ e ∈ x.downstreamPolicies,
    linkName d.1 = linkName e.1 → d = e

/-- A downstream that its link file can hold: the name can be written, the id of the agent has no
underscore, and the field scope is not the empty set. -/
def Linkable (writable : Text → Bool) (e : Target × SharingPolicy) : Prop :=
  writable (linkName e.1) = true ∧ '_' ∉ e.1.1 ∧ e.2.fieldScopes ≠ some ∅

variable {x : ChainSession} {dir : SessionDir} {scope : SessionScope}

theorem linkable_of_same (hx : (x.downstreamPolicies.map Prod.fst).Nodup)
    (hdir : dir.WF writable)
    (h : ∀ target, assocGet? target
        (ChainSession.restored scope (x.flush writable now dir).2.1) =
      assocGet? target x.downstreamPolicies) :
    ∀ e ∈ x.downstreamPolicies, Linkable writable e := by
  rintro ⟨target, policy⟩ he
  have hflush := hdir.flush x now
  have hread := h target
  rw [assocGet?_of_mem hx he, ChainSession.assocGet?_restored hflush.distinct] at hread
  split at hread
  · cases hread
  · next hagent =>
    obtain ⟨link, hlink, hpolicy⟩ := Option.bind_eq_some_iff.mp hread
    have hmem := mem_map_of_mem (f := Prod.fst) (mem_of_assocGet? hlink)
    exact ⟨hflush.writable _ hmem, hagent, fieldScopes_of_policy hpolicy⟩

theorem linkName_apart (h : ∀ e ∈ x.downstreamPolicies, Linkable writable e)
    (hx : (x.downstreamPolicies.map Prod.fst).Nodup) : ∀ d ∈ x.downstreamPolicies,
      ∀ e ∈ x.downstreamPolicies, linkName d.1 = linkName e.1 → d = e := by
  intro d hd e he hname
  have htarget := linkName_inj (h d hd).2.1 (h e he).2.1 hname
  have hvalue : some d.2 = some e.2 := by
    rw [← assocGet?_of_mem hx hd, ← assocGet?_of_mem hx he, htarget]
  exact Prod.ext htarget (Option.some.inj hvalue)

theorem assocGet?_links_flush (h : ∀ e ∈ x.downstreamPolicies, Linkable writable e)
    (hx : (x.downstreamPolicies.map Prod.fst).Nodup) (target : Target) (htarget : '_' ∉ target.1) :
    assocGet? (linkName target) (x.flush writable now dir).2.1.links =
      (assocGet? target x.downstreamPolicies).map fun p => LinkFile.ofPolicy p now := by
  let written := x.downstreamPolicies.map fun e => (linkName e.1, LinkFile.ofPolicy e.2 now)
  have hkeys : (written.map Prod.fst) = x.downstreamPolicies.map fun e => linkName e.1 := by
    rw [map_map]
    rfl
  have hn : (written.map Prod.fst).Nodup := by
    rw [hkeys, nodup_map_iff_inj_on (hx.of_map _)]
    exact linkName_apart h hx
  have hlinks : (x.flush writable now dir).2.1.links =
      (written.foldl (fun es w => assocSet w.1 w.2 es) dir.links).filter fun e =>
        (x.downstreamPolicies.map fun e => linkName e.1).contains e.1 := by
    rw [ChainSession.flush, writeLinks_of_writable fun e he => (h e he).1]
  rw [hlinks, assocGet?_filter fun name =>
    (x.downstreamPolicies.map fun e => linkName e.1).contains name, assocGet?_foldl_assocSet hn]
  cases hp : assocGet? target x.downstreamPolicies with
  | some p =>
    have hmem := mem_of_assocGet? hp
    have hname : (linkName target, LinkFile.ofPolicy p now) ∈ written :=
      mem_map.mpr ⟨_, hmem, rfl⟩
    rw [if_pos (contains_iff_mem.mpr (mem_map.mpr ⟨_, hmem, rfl⟩)),
      assocGet?_of_mem hn hname, Option.some_or, Option.map_some]
  | none =>
    -- Another downstream of this name would have this target.
    rw [if_neg]
    · rfl
    · intro hcontains
      obtain ⟨e, he, hname⟩ := mem_map.mp (contains_iff_mem.mp hcontains)
      have heq := linkName_inj (h e he).2.1 htarget hname
      exact assocGet?_eq_none_iff.mp hp (mem_map.mpr ⟨e, he, heq⟩)

theorem same_of_linkable (h : ∀ e ∈ x.downstreamPolicies, Linkable writable e)
    (hx : (x.downstreamPolicies.map Prod.fst).Nodup) (hdir : dir.WF writable) (target : Target) :
    assocGet? target (ChainSession.restored scope (x.flush writable now dir).2.1) =
      assocGet? target x.downstreamPolicies := by
  rw [ChainSession.assocGet?_restored (hdir.flush x now).distinct]
  split
  · next hagent =>
    rw [eq_comm, assocGet?_eq_none_iff]
    intro hmem
    obtain ⟨e, he, rfl⟩ := mem_map.mp hmem
    exact (h e he).2.1 hagent
  · next hagent =>
    rw [assocGet?_links_flush h hx target hagent]
    cases hp : assocGet? target x.downstreamPolicies with
    | none => rfl
    | some p =>
      have hscopes := shownScopes_of_ne (h _ (mem_of_assocGet? hp)).2.2
      rw [Option.map_some, Option.bind_some, policy_ofPolicy, hscopes, hscopes]

/-- A session reads back what it flushed exactly when every downstream is linkable. -/
theorem roundTrips_iff_linkable (hx : (x.downstreamPolicies.map Prod.fst).Nodup)
    (hdir : dir.WF writable) :
    RoundTrips writable now dir scope x ↔ ∀ e ∈ x.downstreamPolicies, Linkable writable e := by
  refine ⟨fun h => linkable_of_same hx hdir h.same, fun h => ?_⟩
  have hsame : ∀ target, assocGet? target (ChainSession.restored scope
      (x.flush writable now dir).2.1) = assocGet? target x.downstreamPolicies :=
    same_of_linkable h hx hdir
  refine ⟨hsame, fun e he p hp => ?_, linkName_apart h hx⟩
  rw [hsame, assocGet?_of_mem hx he] at hp
  cases hp
  exact fun fields hfields => ⟨fields, Finset.Subset.refl _, hfields⟩

def oneDownstream (target : Target) (fieldScopes : Option (Finset Text)) : ChainSession :=
  (ChainSession.init ⟨none⟩).addDownstream target ⟨.read, fieldScopes⟩ 1

/-- The downstream `b` of the agent `a` is read back. -/
theorem roundTrips_plain : RoundTrips (fun _ => true) 2 ⟨none, []⟩ ⟨none⟩
    (oneDownstream (['a'], ['b']) (some {['t']})) :=
  (roundTrips_iff_linkable (by decide) ⟨by decide, by decide⟩).mpr (by
    intro e he
    rw [mem_singleton.mp he]
    exact ⟨rfl, by decide, by decide⟩)

/-- The downstream `c` of the agent `a_b` comes back as `b_c` of the agent `a`. -/
theorem underscore_moves_target : ¬ RoundTrips (fun _ => true) 2 ⟨none, []⟩ ⟨none⟩
    (oneDownstream (['a', '_', 'b'], ['c']) none) := by
  intro h
  have hsame := h.same (['a', '_', 'b'], ['c'])
  revert hsame
  decide

end JiuwenSpec.Session

import JiuwenSpec.Base.Words

/-!
# Routing of the text of an interaction

A text names a channel, then recipients, and what is left is their message. A message with further
recipients in it is split among them. Recipients that the roster does not have are put back, as
text, into one message to the default of the channel.
Source: `agent_teams/interaction/router.py`, `payload.py`.
-/

namespace JiuwenSpec.Team.Routing

open List JiuwenSpec.Base

/-- The payloads that a text comes to. -/
inductive InteractPayload where
  | godView (body : Text)
  | operator (body : Text) (target : Option Text)
  | humanAgent (body sender : Text) (target : Option Text)
deriving DecidableEq

namespace InteractPayload

def body : InteractPayload → Text
  | .godView body | .operator body _ | .humanAgent body _ _ => body

def target : InteractPayload → Option Text
  | .godView _ => none
  | .operator _ target | .humanAgent _ _ target => target

end InteractPayload

def broadcastTargets : List Text := ["all".toList, "*".toList]

/-- `\S`. -/
def solid (c : Char) : Bool := decide (¬ IsSpace c)

/-- `str.lstrip`, and what `\s+` takes. -/
def lstrip (text : Text) : Text := text.dropWhile fun c => decide (IsSpace c)

/-- `str.rstrip`. -/
def rstrip (text : Text) : Text := text.rdropWhile fun c => decide (IsSpace c)

/-- The end of `_HUMAN_AGENT_PREFIX_RE`, behind the name: blanks, or an `@` that stays. -/
def afterName : Text → Option Text
  | [] => none
  | '@' :: rest => some ('@' :: rest)
  | rest => some (lstrip rest)

/-- `_HUMAN_AGENT_PREFIX_RE`: the name, and what is behind it. -/
def humanAgentPrefix : Text → Option (Text × Text)
  | '$' :: rest =>
    match rest.takeWhile fun c => solid c && c ≠ '@' with
    | [] => none
    | name => (afterName (rest.dropWhile fun c => solid c && c ≠ '@')).map (name, ·)
  | _ => none

/-- The channel: the name of a human agent or none, and what is behind the prefix. -/
def splitChannel : Text → Option Text × Text
  | '#' :: ' ' :: rest => (none, lstrip rest)
  | body =>
    match humanAgentPrefix body with
    | some (sender, rest) => (some sender, lstrip rest)
    | none => (none, body)

/-- `_RECIPIENT_RE`: the name, and what is behind the blanks. -/
def recipient? : Text → Option (Text × Text)
  | '@' :: rest =>
    match rest.takeWhile solid, rest.dropWhile solid with
    | c :: name, blank :: rest => some (c :: name, lstrip (blank :: rest))
    | _, _ => none
  | _ => none

/-- The loop over the leading recipients; each takes a part of the text. -/
def takeRecipients : Nat → Text → List Text × Text
  | 0, text => ([], text)
  | n + 1, text =>
    match recipient? text with
    | some (name, rest) => ((takeRecipients n rest).1.cons name, (takeRecipients n rest).2)
    | none => ([], text)

/-- `_INLINE_RECIPIENT_RE.finditer`: the text before the first match, and each match with the text
up to the next one. `fresh` tells that no solid character stands before. -/
def inlineMatches : Nat → Bool → Text → Text × List (Text × Text)
  | 0, _, text => (text, [])
  | _ + 1, _, [] => ([], [])
  | n + 1, fresh, c :: text =>
    match if fresh then recipient? (c :: text) else none with
    | some (name, rest) =>
      let (body, segments) := inlineMatches n true rest
      ([], (name, body) :: segments)
    | none =>
      let (body, segments) := inlineMatches n (!solid c) text
      (c :: body, segments)

def splitInlineSegments (recipients : List Text) (body : Text) : Option (List (Text × Text)) :=
  match recipients, inlineMatches body.length true body with
  | [], _ | _, (_, []) => none
  | first :: _, (before, segments) =>
    if rstrip before = [] then none
    else some ((first, rstrip before) :: segments.map fun p => (p.1, strip p.2))

def general (body : Text) : Option Text → InteractPayload
  | none => .godView body
  | some sender => .humanAgent body sender none

def broadcast (body : Text) : Option Text → InteractPayload
  | none => .operator body none
  | some sender => .humanAgent body sender (some "*".toList)

def direct (sender : Option Text) (name body : Text) : InteractPayload :=
  match sender with
  | none => .operator body (some name)
  | some sender => .humanAgent body sender (some name)

def leading (input : Text) : List Text × Text :=
  let rest := (splitChannel input).2
  takeRecipients rest.length rest

def parseInteractStr (input : Text) : List InteractPayload :=
  if strip input = [] then []
  else
    let sender := (splitChannel input).1
    let (recipients, body) := leading input
    if recipients = [] then [general body sender]
    else if recipients.any (· ∈ broadcastTargets) then [broadcast body sender]
    else
      match splitInlineSegments recipients body with
      | some segments => segments.map fun (name, segment) => direct sender name segment
      | none => recipients.map fun name => direct sender name body

def namedTarget (p : InteractPayload) : Option Text :=
  p.target.filter (· ∉ broadcastTargets)

def foldUnknownMentions (sample : InteractPayload) (unknown : List InteractPayload) :
    InteractPayload :=
  let mentions := [' '].intercalate
    ((sample :: unknown).map fun p => '@' :: p.target.getD "None".toList)
  let body := if sample.body = [] then mentions else mentions ++ ' ' :: sample.body
  match sample with
  | .humanAgent _ sender _ => .humanAgent body sender none
  | _ => .godView body

def kept (memberExists : Text → Bool) (p : InteractPayload) : Bool :=
  (namedTarget p).all memberExists

def resolveTargets (memberExists : Text → Bool) (payloads : List InteractPayload) :
    List InteractPayload :=
  match payloads.filter (!kept memberExists ·) with
  | [] => payloads
  | sample :: unknown =>
    payloads.filter (kept memberExists) ++ [foldUnknownMentions sample unknown]

variable {name rest text body : Text} {recipients : List Text} {segments : List (Text × Text)}

/-- The `@`-token of a name is one word. -/
def OneWord (name : Text) : Prop := words ('@' :: name) = ['@' :: name]

theorem recipient?_spec (h : recipient? text = some (name, rest)) :
    OneWord name ∧ words text = ('@' :: name) :: words rest := by
  unfold recipient? at h
  split at h
  · next after =>
    split at h
    · next c tail blank behind hname hbehind =>
      cases h
      have hone : OneWord (c :: tail) := by
        refine words_word (cons_ne_nil _ _) fun x hx => ?_
        rcases mem_cons.mp hx with rfl | hx
        · decide
        · exact of_decide_eq_true (mem_takeWhile_imp (p := solid) (hname ▸ hx))
      have hblank : IsSpace blank := by
        have hhead := head?_dropWhile_not solid after
        rw [hbehind] at hhead
        exact of_not_not (of_decide_eq_false hhead)
      have hafter : '@' :: after = ('@' :: c :: tail) ++ blank :: behind := by
        rw [cons_append, ← hname, ← hbehind, takeWhile_append_dropWhile]
      refine ⟨hone, ?_⟩
      rw [hafter, words_append_cons hblank, hone, lstrip, words_dropWhile, words_cons hblank]
      rfl
    · cases h
  · cases h

theorem takeRecipients_spec {n : Nat} :
    (∀ name ∈ (takeRecipients n text).1, OneWord name) ∧
      words text = (takeRecipients n text).1.map ('@' :: ·) ++ words (takeRecipients n text).2 := by
  induction n generalizing text with
  | zero => exact ⟨fun _ hn => absurd hn not_mem_nil, rfl⟩
  | succ n ih =>
    rw [takeRecipients]
    split
    · next name rest h =>
      obtain ⟨hone, hwords⟩ := recipient?_spec h
      obtain ⟨hones, hrest⟩ := @ih rest
      exact ⟨forall_mem_cons.mpr ⟨hone, hones⟩, by rw [hwords, hrest]; rfl⟩
    · exact ⟨fun _ hn => absurd hn not_mem_nil, rfl⟩

/-- The words of addressed texts, each behind its token. -/
def spoken (segments : List (Text × Text)) : List Text :=
  segments.flatMap fun p => ('@' :: p.1) :: words p.2

/-- No word goes across the start of a match. -/
theorem words_append_of_end {before tail : Text} {fresh : Prop}
    (hend : tail = [] ∨ before = [] ∧ fresh ∨ ∃ a c, before = a ++ [c] ∧ IsSpace c) :
    words (before ++ tail) = words before ++ words tail := by
  rcases hend with rfl | ⟨hnil, -⟩ | hblank
  · rw [append_nil, words_nil, append_nil]
  · exact words_append (.inl hnil)
  · exact words_append (.inr hblank)

/-- The text is the one before the first match, and a tail with the words of the matches; what is
before a match is blank at its end. -/
theorem inlineMatches_spec {n : Nat} {fresh : Bool} :
    (∀ p ∈ (inlineMatches n fresh text).2, OneWord p.1) ∧
      ∃ tail, text = (inlineMatches n fresh text).1 ++ tail ∧
        words tail = spoken (inlineMatches n fresh text).2 ∧
        (tail = [] ∨ (inlineMatches n fresh text).1 = [] ∧ fresh ∨
          ∃ a c, (inlineMatches n fresh text).1 = a ++ [c] ∧ IsSpace c) := by
  induction n generalizing text fresh with
  | zero => exact ⟨fun _ hp => absurd hp not_mem_nil, [], (append_nil _).symm, rfl, .inl rfl⟩
  | succ n ih =>
    cases text with
    | nil => exact ⟨fun _ hp => absurd hp not_mem_nil, [], rfl, rfl, .inl rfl⟩
    | cons c text =>
      rw [inlineMatches]
      split
      · next name rest h =>
        obtain ⟨hfresh, h⟩ : fresh = true ∧ recipient? (c :: text) = some (name, rest) := by
          cases fresh
          · cases h
          · exact ⟨rfl, h⟩
        obtain ⟨hone, hwords⟩ := recipient?_spec h
        obtain ⟨hones, tail, htext, htail, hend⟩ := @ih rest true
        refine ⟨forall_mem_cons.mpr ⟨hone, hones⟩, c :: text, rfl, ?_, .inr (.inl ⟨rfl, hfresh⟩)⟩
        have hsplit : words rest = words (inlineMatches n true rest).1 ++ words tail :=
          (congrArg words htext).trans (words_append_of_end hend)
        rw [hwords, hsplit, htail]
        rfl
      · obtain ⟨hones, tail, htext, htail, hend⟩ := @ih text (!solid c)
        refine ⟨hones, tail, congrArg (c :: ·) htext, htail, hend.imp_right fun hend => .inr ?_⟩
        rcases hend with ⟨hnil, hc⟩ | ⟨a, blank, ha, hblank⟩
        · exact ⟨[], c, congrArg (c :: ·) hnil, by simpa [solid] using hc⟩
        · exact ⟨c :: a, blank, congrArg (c :: ·) ha, hblank⟩

/-- The segments are the message behind the first recipient, cut before each further token. -/
theorem splitInlineSegments_spec (h : splitInlineSegments recipients body = some segments)
    (hones : ∀ name ∈ recipients, OneWord name) :
    (∀ p ∈ segments, OneWord p.1) ∧
      ∃ first others, recipients = first :: others ∧
        spoken segments = ('@' :: first) :: words body := by
  obtain ⟨hsegments, tail, hbody, htail, hend⟩ := @inlineMatches_spec body body.length true
  unfold splitInlineSegments at h
  split at h
  · cases h
  · cases h
  · next first others before found _ hmatches =>
    rw [hmatches] at hsegments hbody htail hend
    split at h
    · cases h
    · cases h
      have hwords : words body = words before ++ words tail :=
        (congrArg words hbody).trans (words_append_of_end hend)
      have hfound : spoken (found.map fun p => (p.1, strip p.2)) = spoken found := by
        simp only [spoken, flatMap_map, words_strip]
      refine ⟨forall_mem_cons.mpr ⟨hones _ (.head _), fun p hp => ?_⟩, first, others, rfl, ?_⟩
      · obtain ⟨q, hq, rfl⟩ := mem_map.mp hp
        exact hsegments q hq
      · rw [hwords, htail, ← hfound, ← @words_rdropWhile before]
        rfl

variable {memberExists : Text → Bool} {sender : Option Text} {payloads : List InteractPayload}

def Told (payloads : List InteractPayload) (word : Text) : Prop :=
  ∃ p ∈ payloads, word ∈ words p.body

def known (memberExists : Text → Bool) (name : Text) : Bool :=
  decide (name ∈ broadcastTargets) || memberExists name

abbrev directTo (sender : Option Text) (p : Text × Text) : InteractPayload := direct sender p.1 p.2

@[simp] theorem body_directTo (p : Text × Text) : (directTo sender p).body = p.2 := by
  cases sender <;> rfl

@[simp] theorem target_directTo (p : Text × Text) : (directTo sender p).target = some p.1 := by
  cases sender <;> rfl

theorem kept_directTo (p : Text × Text) :
    kept memberExists (directTo sender p) = known memberExists p.1 := by
  rw [kept, namedTarget, target_directTo, known]
  by_cases hbroadcast : p.1 ∈ broadcastTargets <;> simp [hbroadcast]

/-- What no recipient gets is folded into a payload for nobody. -/
theorem target_foldUnknownMentions (sample : InteractPayload) (unknown : List InteractPayload) :
    (foldUnknownMentions sample unknown).target = none := by
  cases sample <;> rfl

theorem words_intercalate {names : List Text} (hones : ∀ name ∈ names, OneWord name) :
    words ([' '].intercalate (names.map ('@' :: ·))) = names.map ('@' :: ·) := by
  induction names with
  | nil => rfl
  | cons name names ih =>
    obtain ⟨hone, hones⟩ := forall_mem_cons.mp hones
    cases names with
    | nil => exact (congrArg words intercalate_singleton).trans hone
    | cons second names =>
      rw [map_cons, map_cons, intercalate_cons_cons, append_assoc, singleton_append,
        words_append_cons (by decide), hone, ← map_cons, ih hones]
      rfl

theorem words_foldUnknownMentions {q : Text × Text} {qs : List (Text × Text)}
    (hones : ∀ p ∈ q :: qs, OneWord p.1) :
    words (foldUnknownMentions (directTo sender q) (qs.map (directTo sender))).body =
      (q :: qs).map (fun p => '@' :: p.1) ++ words q.2 := by
  have hmentions : (directTo sender q :: qs.map (directTo sender)).map
      (fun p => '@' :: p.target.getD "None".toList) = ((q :: qs).map Prod.fst).map ('@' :: ·) := by
    rw [← map_cons, map_map, map_map]
    exact map_congr_left fun p _ => by simp
  have hwords : words ([' '].intercalate (((q :: qs).map Prod.fst).map ('@' :: ·))) =
      (q :: qs).map fun p => '@' :: p.1 := by
    rw [words_intercalate fun name hname => ?_, map_map]
    · rfl
    · obtain ⟨p, hp, rfl⟩ := mem_map.mp hname
      exact hones p hp
  have hbody : (foldUnknownMentions (directTo sender q) (qs.map (directTo sender))).body =
      if q.2 = [] then [' '].intercalate (((q :: qs).map Prod.fst).map ('@' :: ·))
      else [' '].intercalate (((q :: qs).map Prod.fst).map ('@' :: ·)) ++ ' ' :: q.2 := by
    rw [← hmentions]
    cases sender <;> rfl
  rw [hbody]
  split
  · next hempty => rw [hwords, hempty, words_nil, append_nil]
  · rw [words_append_cons (by decide), hwords]

/-- **Resolution.** Only members and everyone are addressed; who is known gets the own text; the
tokens of the others become text, with the text of the first of them. -/
theorem resolveTargets_spec {ps : List (Text × Text)} (hones : ∀ p ∈ ps, OneWord p.1) :
    (∀ p ∈ ps, known memberExists p.1 →
      directTo sender p ∈ resolveTargets memberExists (ps.map (directTo sender))) ∧
    (∀ p ∈ ps, ¬ known memberExists p.1 →
      Told (resolveTargets memberExists (ps.map (directTo sender))) ('@' :: p.1)) ∧
    ∀ p ∈ (ps.filter (!known memberExists ·.1)).head?, ∀ word ∈ words p.2,
      Told (resolveTargets memberExists (ps.map (directTo sender))) word := by
  have hunknown : (ps.map (directTo sender)).filter (!kept memberExists ·) =
      (ps.filter (!known memberExists ·.1)).map (directTo sender) := by
    rw [filter_map]
    exact congrArg _ (filter_congr fun p _ => by rw [Function.comp, kept_directTo])
  rw [resolveTargets, hunknown]
  cases hfound : ps.filter (!known memberExists ·.1) with
  | nil =>
    refine ⟨fun p hp _ => mem_map_of_mem hp, fun p hp hnot => ?_, fun p hp => (by cases hp)⟩
    exact absurd (mem_filter.mpr ⟨hp, by simpa using hnot⟩) (hfound ▸ not_mem_nil)
  | cons q qs =>
    have hfold : ∀ p ∈ q :: qs, p ∈ ps := fun p hp => (mem_filter.mp (hfound ▸ hp)).1
    have hwords := @words_foldUnknownMentions sender q qs fun p hp => hones p (hfold p hp)
    refine ⟨fun p hp hknown => ?_, fun p hp hnot => ?_, fun p hp word hword => ?_⟩
    · exact mem_append_left _ (mem_filter.mpr ⟨mem_map_of_mem hp, by rw [kept_directTo, hknown]⟩)
    · have hmem : p ∈ q :: qs := hfound ▸ mem_filter.mpr ⟨hp, by simpa using hnot⟩
      refine ⟨_, mem_append_right _ (mem_singleton_self _), ?_⟩
      rw [hwords]
      exact mem_append_left _ (mem_map.mpr ⟨p, hmem, rfl⟩)
    · obtain rfl : q = p := Option.some.inj hp
      refine ⟨_, mem_append_right _ (mem_singleton_self _), ?_⟩
      rw [hwords]
      exact mem_append_right _ hword

/-- Recipients that share a text: it is told, and each of them is addressed or told as text. -/
theorem resolveTargets_shared (hones : ∀ name ∈ recipients, OneWord name)
    (hne : recipients ≠ []) :
    (∀ word ∈ words body, Told (resolveTargets memberExists
      ((recipients.map (·, body)).map (directTo sender))) word) ∧
    ∀ name ∈ recipients,
      (∃ p ∈ resolveTargets memberExists ((recipients.map (·, body)).map (directTo sender)),
        p.target = some name) ∨
      Told (resolveTargets memberExists ((recipients.map (·, body)).map (directTo sender)))
        ('@' :: name) := by
  obtain ⟨hknown, hunknown, hfirst⟩ := @resolveTargets_spec memberExists sender
    (recipients.map (·, body)) fun p hp => by
      obtain ⟨name, hname, rfl⟩ := mem_map.mp hp
      exact hones name hname
  have hmem : ∀ name ∈ recipients, (name, body) ∈ recipients.map (·, body) :=
    fun name hname => mem_map_of_mem hname
  refine ⟨fun word hword => ?_, fun name hname => ?_⟩
  · cases hfound : (recipients.map (·, body)).filter (!known memberExists ·.1) with
    | nil =>
      obtain ⟨name, hname⟩ := exists_mem_of_ne_nil recipients hne
      have hall : known memberExists name := by
        simpa using filter_eq_nil_iff.mp hfound _ (hmem name hname)
      refine ⟨_, hknown _ (hmem name hname) hall, ?_⟩
      rwa [body_directTo]
    | cons q qs =>
      obtain ⟨name, -, rfl⟩ := mem_map.mp (mem_filter.mp (hfound ▸ mem_cons_self)).1
      exact hfirst (name, body) (hfound ▸ rfl) word hword
  · by_cases hin : known memberExists name
    · exact .inl ⟨_, hknown _ (hmem name hname) hin, target_directTo _⟩
    · exact .inr (hunknown _ (hmem name hname) hin)

/-- No payload addresses a name that the roster does not have. -/
theorem kept_of_mem_resolveTargets {p : InteractPayload}
    (hp : p ∈ resolveTargets memberExists payloads) : kept memberExists p := by
  unfold resolveTargets at hp
  split at hp
  · next hnone =>
    have hnot := filter_eq_nil_iff.mp hnone p hp
    simpa using hnot
  · next sample unknown _ =>
    rcases mem_append.mp hp with hp | hp
    · exact (mem_filter.mp hp).2
    · rw [mem_singleton.mp hp, kept, namedTarget, target_foldUnknownMentions]
      rfl

theorem resolveTargets_of_kept {p : InteractPayload} (hp : kept memberExists p) :
    resolveTargets memberExists [p] = [p] := by
  rw [resolveTargets, filter_cons_of_neg (by simpa using hp), filter_nil]

theorem splitChannel_of_blank {input : Text} (h : ∀ c ∈ input, IsSpace c) :
    splitChannel input = (none, input) := by
  cases input with
  | nil => rfl
  | cons c input =>
    have hc : IsSpace c := h c (.head _)
    have hnone : humanAgentPrefix (c :: input) = none := by
      unfold humanAgentPrefix
      split
      · next heq =>
        cases heq
        exact absurd hc (by decide)
      · rfl
    unfold splitChannel
    split
    · next heq =>
      cases heq
      exact absurd hc (by decide)
    · rw [hnone]

theorem forall_isSpace_of_strip {input : Text} (h : strip input = []) : ∀ c ∈ input, IsSpace c := by
  cases hleft : input.dropWhile fun c => decide (IsSpace c) with
  | nil => exact fun c hc => of_decide_eq_true (dropWhile_eq_nil_iff.mp hleft c hc)
  | cons first left =>
    have hhead := head?_dropWhile_not (fun c => decide (IsSpace c)) input
    rw [strip, hleft] at h
    rw [hleft] at hhead
    exact absurd (of_decide_eq_true (rdropWhile_eq_nil_iff.mp h first (.head _)))
      (of_decide_eq_false hhead)

def Everyone (input : Text) : Prop := ∃ name ∈ (leading input).1, name ∈ broadcastTargets

structure KeepsText (memberExists : Text → Bool) (input : Text)
    (payloads : List InteractPayload) : Prop where
  /-- Only members of the roster are addressed. -/
  members : ∀ p ∈ payloads, kept memberExists p
  /-- Behind the channel are the tokens of the leading recipients, and the message. -/
  read : words (splitChannel input).2 =
    (leading input).1.map ('@' :: ·) ++ words (leading input).2
  /-- A message that is not split is told, word by word, also to everyone. -/
  whole : (Everyone input ∨ splitInlineSegments (leading input).1 (leading input).2 = none) →
    ∀ word ∈ words (leading input).2, Told payloads word
  /-- There the tokens of the recipients address a payload, or are told as text. -/
  shared : ¬ Everyone input → splitInlineSegments (leading input).1 (leading input).2 = none →
    ∀ name ∈ (leading input).1,
      (∃ p ∈ payloads, p.target = some name) ∨ Told payloads ('@' :: name)
  /-- A message that is split comes to segments, from a token to the next one. Who is known gets the
  own segment; the other tokens are told as text, with the segment of the first of them. -/
  split : ¬ Everyone input → ∀ segments,
    splitInlineSegments (leading input).1 (leading input).2 = some segments →
    (∃ first ∈ (leading input).1.head?,
      spoken segments = ('@' :: first) :: words (leading input).2) ∧
    (∀ p ∈ segments, known memberExists p.1 → directTo (splitChannel input).1 p ∈ payloads) ∧
    (∀ p ∈ segments, ¬ known memberExists p.1 → Told payloads ('@' :: p.1)) ∧
    ∀ p ∈ (segments.filter (!known memberExists ·.1)).head?, ∀ word ∈ words p.2,
      Told payloads word

/-- One payload for the whole message keeps it. -/
theorem keepsText_single {input : Text} {p : InteractPayload} (hkept : kept memberExists p)
    (hbody : p.body = (leading input).2) (hread : (leading input).1 = [] ∨ Everyone input) :
    KeepsText memberExists input (resolveTargets memberExists [p]) := by
  have htold : ∀ word ∈ words (leading input).2, Told [p] word :=
    fun word hword => ⟨p, .head _, hbody ▸ hword⟩
  rw [resolveTargets_of_kept hkept]
  refine ⟨fun q hq => mem_singleton.mp hq ▸ hkept, takeRecipients_spec.2, fun _ => htold,
    fun hone _ name hname => ?_, fun hone segments hsegments => ?_⟩
  · rcases hread with hnil | hall
    · exact absurd (hnil ▸ hname) not_mem_nil
    · exact absurd hall hone
  · rcases hread with hnil | hall
    · rw [hnil] at hsegments
      cases hsegments
    · exact absurd hall hone

/-- **Routing keeps the text.** -/
theorem routing_keepsText (memberExists : Text → Bool) (input : Text) :
    KeepsText memberExists input (resolveTargets memberExists (parseInteractStr input)) := by
  have hones : ∀ name ∈ (leading input).1, OneWord name := takeRecipients_spec.1
  have hread : words (splitChannel input).2 =
    (leading input).1.map ('@' :: ·) ++ words (leading input).2 := takeRecipients_spec.2
  unfold parseInteractStr
  split
  · next hempty =>
    have hblank := forall_isSpace_of_strip hempty
    have hnone : words (splitChannel input).2 = [] := by
      rw [splitChannel_of_blank hblank, ← words_strip, hempty, words_nil]
    obtain ⟨hnames, htext⟩ := append_eq_nil_iff.mp (hread.symm.trans hnone)
    have hnil : (leading input).1 = [] := map_eq_nil_iff.mp hnames
    refine ⟨fun p hp => absurd hp not_mem_nil, hread, fun _ word hword => ?_,
      fun _ _ name hname => ?_, fun _ segments hsegments => ?_⟩
    · exact absurd (htext ▸ hword) not_mem_nil
    · exact absurd (hnil ▸ hname) not_mem_nil
    · rw [hnil] at hsegments
      cases hsegments
  · dsimp only
    split
    · next hnil =>
      refine keepsText_single ?_ ?_ (.inl hnil) <;> cases (splitChannel input).1 <;> rfl
    · split
      · next hall =>
        have heveryone : Everyone input := by simpa [Everyone] using hall
        refine keepsText_single ?_ ?_ (.inr heveryone) <;> cases (splitChannel input).1 <;> rfl
      · next hrecipients hnot =>
        have hone : ¬ Everyone input := by simpa [Everyone] using hnot
        split
        · next segments hsegments =>
          obtain ⟨hwords, first, others, hfirst, hspoken⟩ :=
            splitInlineSegments_spec hsegments hones
          refine ⟨fun p => kept_of_mem_resolveTargets, hread, fun h => ?_, fun _ h => ?_,
            fun _ found hfound => ?_⟩
          · exact absurd (h.resolve_left hone) (by simp [hsegments])
          · exact absurd h (by simp [hsegments])
          · obtain rfl : segments = found := Option.some.inj (hsegments.symm.trans hfound)
            exact ⟨⟨first, by rw [hfirst]; rfl, hspoken⟩, resolveTargets_spec hwords⟩
        · next hsegments =>
          have hpayloads : (leading input).1.map
              (fun name => direct (splitChannel input).1 name (leading input).2) =
                ((leading input).1.map (·, (leading input).2)).map
                  (directTo (splitChannel input).1) := by
            rw [map_map]
            rfl
          rw [hpayloads]
          obtain ⟨htold, htokens⟩ := @resolveTargets_shared (leading input).2
            (leading input).1 memberExists (splitChannel input).1 hones hrecipients
          refine ⟨fun p => kept_of_mem_resolveTargets, hread, fun _ => htold, fun _ _ => htokens,
            fun _ found hfound => ?_⟩
          exact absurd (hsegments.symm.trans hfound) nofun

abbrev Reached (payloads : List InteractPayload) (word : Text) : Prop :=
  Told payloads word ∨ ∃ p ∈ payloads, p.target.map ('@' :: ·) = some word

abbrev Gets (input name word : String) : Prop :=
  ∃ p ∈ resolveTargets (· = "bob".toList) (parseInteractStr input.toList),
    p.target = some name.toList ∧ word.toList ∈ words p.body

instance (payloads : List InteractPayload) (word : Text) : Decidable (Told payloads word) :=
  inferInstanceAs (Decidable (∃ p ∈ payloads, word ∈ words p.body))

/-- A token beside everyone is dropped, and a token within a message ends it. -/
theorem routing_drops :
    (¬ ∀ word ∈ words (splitChannel "@ghost @all hi".toList).2,
      Reached (resolveTargets (· = "bob".toList) (parseInteractStr "@ghost @all hi".toList)) word) ∧
    Gets "@bob hello world" "bob" "world" ∧ ¬ Gets "@bob hello @ghost world" "bob" "world" := by
  decide

end JiuwenSpec.Team.Routing

import JiuwenSpec.FileTools.EditFile

/-!
# An edit changes what was matched

The pieces between the matches stay, byte for byte, as long as decoding and restoring the line ends
give the file back, the search strings are not rewritten, and the places that match lie apart.
-/

namespace JiuwenSpec.FileTools

open Base List Option

section Pieces

variable {α β : Type} {sep : List α} {pieces l r : List (List α)}

theorem joinWith_cons {piece : List α} (h : pieces ≠ []) :
    joinWith sep (piece :: pieces) = piece ++ sep ++ joinWith sep pieces := by
  cases pieces with
  | nil => exact (h rfl).elim
  | cons _ _ => rfl

theorem joinWith_append (hl : l ≠ []) (hr : r ≠ []) :
    joinWith sep (l ++ r) = joinWith sep l ++ sep ++ joinWith sep r := by
  induction l with
  | nil => exact (hl rfl).elim
  | cons piece l ih =>
    cases l with
    | nil => exact joinWith_cons hr
    | cons piece' l =>
      rw [cons_append, joinWith_cons (by simp), ih (cons_ne_nil _ _),
        joinWith_cons (cons_ne_nil _ _)]
      simp only [append_assoc]

theorem map_joinWith {f : List α → List β} (hnil : f [] = [])
    (happend : ∀ a b, f (a ++ b) = f a ++ f b) :
    f (joinWith sep pieces) = joinWith (f sep) (pieces.map f) := by
  induction pieces with
  | nil => exact hnil
  | cons piece pieces ih =>
    cases pieces with
    | nil => rfl
    | cons piece' pieces =>
      rw [joinWith_cons (cons_ne_nil _ _), happend, happend, ih]
      rfl

end Pieces

variable {m text pre post : Text} {c : Char}

theorem consHead_ne_nil (pieces : List Text) : consHead c pieces ≠ [] := by
  cases pieces <;> exact cons_ne_nil _ _

theorem consHead_append {l r : List Text} (hl : l ≠ []) :
    consHead c (l ++ r) = consHead c l ++ r := by
  cases l with
  | nil => exact (hl rfl).elim
  | cons _ _ => rfl

theorem joinWith_consHead {pieces : List Text} (h : pieces ≠ []) :
    joinWith m (consHead c pieces) = c :: joinWith m pieces := by
  cases pieces with
  | nil => exact (h rfl).elim
  | cons piece pieces =>
    cases pieces with
    | nil => rfl
    | cons _ _ => rfl

theorem splitText_ne_nil (m : Text) (skip : Nat) (text : Text) : splitText m skip text ≠ [] := by
  induction text generalizing skip with
  | nil => cases skip <;> exact cons_ne_nil _ _
  | cons c rest ih =>
    cases skip with
    | zero =>
      rw [splitText]
      split
      · exact cons_ne_nil _ _
      · exact consHead_ne_nil _
    | succ skip => exact ih skip

theorem joinWith_splitText (hm : m ≠ []) (skip : Nat) (text : Text) :
    joinWith m (splitText m skip text) = text.drop skip := by
  induction text generalizing skip with
  | nil => cases skip <;> rfl
  | cons c rest ih =>
    cases skip with
    | zero =>
      rw [splitText]
      split
      · next hstart =>
        obtain ⟨post, hpost⟩ := List.isPrefixOf_iff_prefix.mp hstart
        obtain ⟨a, m, rfl⟩ := exists_cons_of_ne_nil hm
        obtain ⟨rfl, hrest⟩ := List.cons.inj hpost
        rw [joinWith_cons (splitText_ne_nil _ _ _), ih, ← hrest, length_cons,
          Nat.add_sub_cancel]
        change a :: m ++ (m ++ post).drop m.length = a :: (m ++ post)
        rw [drop_left]
        rfl
      · rw [joinWith_consHead (splitText_ne_nil _ _ _), ih]
        rfl
    | succ skip => exact ih skip

theorem cut_of_place_skip (hm : m ≠ []) {skip : Nat} (htext : text = pre ++ m ++ post)
    (hskip : skip ≤ pre.length) : ∃ l r, l ≠ [] ∧ r ≠ [] ∧ splitText m skip text = l ++ r ∧
      skip + (joinWith m l).length ≤ pre.length ∧
      pre.length < skip + (joinWith m l).length + m.length := by
  have hpos : 0 < m.length := length_pos_iff.mpr hm
  induction text generalizing pre skip with
  | nil =>
    have hlength := congrArg List.length htext
    simp only [length_nil, length_append] at hlength
    omega
  | cons c rest ih =>
    have hstep : pre ≠ [] → ∃ pre', pre = c :: pre' ∧ rest = pre' ++ m ++ post := by
      intro hpre
      obtain ⟨a, pre', rfl⟩ := exists_cons_of_ne_nil hpre
      obtain ⟨rfl, hrest⟩ := List.cons.inj htext
      exact ⟨pre', rfl, hrest⟩
    cases skip with
    | zero =>
      rw [splitText]
      split
      · next hstart =>
        by_cases hnear : pre.length < m.length
        · refine ⟨[[]], splitText m (m.length - 1) rest, cons_ne_nil _ _,
            splitText_ne_nil _ _ _, rfl, ?_, ?_⟩
          · exact Nat.zero_le _
          · simpa [joinWith] using hnear
        · have hpre : pre ≠ [] := by
            rintro rfl
            exact hnear hpos
          obtain ⟨pre', rfl, hrest⟩ := hstep hpre
          rw [length_cons] at hnear
          have hskip' : m.length - 1 ≤ pre'.length := by omega
          obtain ⟨l, r, hl, hr, hcut, hlo, hhi⟩ := ih hrest hskip'
          refine ⟨[] :: l, r, cons_ne_nil _ _, hr, by rw [hcut]; rfl, ?_, ?_⟩
          · rw [joinWith_cons hl]
            simp only [nil_append, length_append, length_cons]
            omega
          · rw [joinWith_cons hl]
            simp only [nil_append, length_append, length_cons]
            omega
      · next hstart =>
        have hpre : pre ≠ [] := by
          rintro rfl
          refine hstart (List.isPrefixOf_iff_prefix.mpr ⟨post, ?_⟩)
          rw [htext, nil_append]
        obtain ⟨pre', rfl, hrest⟩ := hstep hpre
        obtain ⟨l, r, hl, hr, hcut, hlo, hhi⟩ := ih hrest (Nat.zero_le _)
        refine ⟨consHead c l, r, consHead_ne_nil l, hr, ?_, ?_, ?_⟩
        · rw [hcut, consHead_append hl]
        · rw [joinWith_consHead hl]
          simp only [length_cons]
          omega
        · rw [joinWith_consHead hl]
          simp only [length_cons]
          omega
    | succ skip =>
      have hpre : pre ≠ [] := by
        rintro rfl
        exact Nat.not_succ_le_zero _ hskip
      obtain ⟨pre', rfl, hrest⟩ := hstep hpre
      rw [length_cons] at hskip
      obtain ⟨l, r, hl, hr, hcut, hlo, hhi⟩ := ih hrest (Nat.le_of_succ_le_succ hskip)
      refine ⟨l, r, hl, hr, hcut, ?_, ?_⟩
      · rw [length_cons]
        omega
      · rw [length_cons]
        omega

/-- The places of a text lie apart: none begins within another one. -/
def Apart (m text : Text) : Prop :=
  ∀ pre post pre' post', text = pre ++ m ++ post → text = pre' ++ m ++ post' →
    pre.length ≤ pre'.length → pre'.length < pre.length + m.length → pre = pre'

theorem cut_of_place (hm : m ≠ []) (hapart : Apart m text) (htext : text = pre ++ m ++ post) :
    ∃ l r, l ≠ [] ∧ r ≠ [] ∧ splitText m 0 text = l ++ r ∧ pre = joinWith m l ∧
      post = joinWith m r := by
  obtain ⟨l, r, hl, hr, hcut, hlo, hhi⟩ := cut_of_place_skip hm htext (Nat.zero_le _)
  have hjoin := joinWith_splitText hm 0 text
  rw [hcut, joinWith_append hl hr, drop_zero] at hjoin
  rw [Nat.zero_add] at hlo hhi
  have hpre : joinWith m l = pre := hapart _ _ _ _ hjoin.symm htext hlo hhi
  refine ⟨l, r, hl, hr, hcut, hpre.symm, ?_⟩
  rw [hpre, htext, append_assoc, append_assoc, append_cancel_left_eq,
    append_cancel_left_eq] at hjoin
  exact hjoin.symm

theorem place_of_findText {i : Nat} (h : findText m text = some i) :
    ∃ pre post, text = pre ++ m ++ post ∧ pre.length = i := by
  induction text generalizing i with
  | nil =>
    rw [findText] at h
    split at h
    · next hm =>
      cases h
      exact ⟨[], [], by rw [hm]; rfl, rfl⟩
    · cases h
  | cons c rest ih =>
    rw [findText] at h
    split at h
    · next hstart =>
      cases h
      obtain ⟨post, hpost⟩ := List.isPrefixOf_iff_prefix.mp hstart
      exact ⟨[], post, by rw [nil_append, hpost], rfl⟩
    · obtain ⟨j, hj, rfl⟩ := map_eq_some_iff.mp h
      obtain ⟨pre, post, hrest, rfl⟩ := ih hj
      exact ⟨c :: pre, post, by rw [hrest]; rfl, rfl⟩

theorem findText_of_place (h : text = pre ++ m ++ post) : (findText m text).isSome = true := by
  induction text generalizing pre with
  | nil =>
    have hm : m = [] := by
      have hlength := congrArg List.length h
      simp only [length_nil, length_append] at hlength
      exact length_eq_zero_iff.mp (by omega)
    rw [findText, if_pos hm]
    rfl
  | cons c rest ih =>
    rw [findText]
    split
    · rfl
    · next hstart =>
      cases pre with
      | nil =>
        refine (hstart (List.isPrefixOf_iff_prefix.mpr ⟨post, ?_⟩)).elim
        rw [h, nil_append]
      | cons a pre =>
        obtain ⟨rfl, hrest⟩ := List.cons.inj h
        rw [isSome_map]
        exact ih hrest

/-- What matches a search string in a text: itself where it occurs, and else what has its quotes
only. -/
def Matches (text old occ : Text) : Prop :=
  if (findText old text).isSome then occ = old else normalizeQuotes occ = normalizeQuotes old

theorem place_of_tryQuoteVariants {old variant : Text}
    (h : tryQuoteVariants text old = some variant) :
    normalizeQuotes variant = normalizeQuotes old ∧ ∃ pre post, text = pre ++ variant ++ post := by
  obtain ⟨i, hi, rfl⟩ := map_eq_some_iff.mp h
  obtain ⟨pre, post, hplace, rfl⟩ := place_of_findText hi
  refine ⟨?_, text.take pre.length, (text.drop pre.length).drop old.length, ?_⟩
  · have hlength : (normalizeQuotes old).length = old.length := length_map _
    rw [normalizeQuotes, map_take, map_drop]
    change ((normalizeQuotes text).drop pre.length).take old.length = normalizeQuotes old
    rw [hplace, append_assoc, drop_left, ← hlength, take_left]
  · rw [append_assoc, take_append_drop, take_append_drop]

variable {lib : TextLibrary} {raw : List UInt8} {req : EditRequest}

def fileBytes (raw : List UInt8) (text : Text) : List UInt8 :=
  encodeUtf8 (restoreEol (hasCrlf raw) text)

theorem fileBytes_append (raw : List UInt8) (a b : Text) :
    fileBytes raw (a ++ b) = fileBytes raw a ++ fileBytes raw b := by
  rw [fileBytes, restoreEol, fileBytes, restoreEol, fileBytes, restoreEol]
  cases hasCrlf raw <;> simp [encodeUtf8]

theorem fileBytes_nil (raw : List UInt8) : fileBytes raw [] = [] := by
  rw [fileBytes, restoreEol]
  cases hasCrlf raw <;> rfl

/-- What a request puts in the place of a match: its new string, without the blanks at the ends of
lines. -/
def putText (req : EditRequest) : Text :=
  if req.markdown then toLf req.new else stripTrailingWhitespace (toLf req.new)

/-- Exactly the matches of a search string are replaced, by `ins`: the file is the pieces between
them, joined by the match, and becomes the pieces joined by `ins`; and every place of the text that
matches is between two pieces. -/
structure ReplacesMatches (raw : List UInt8) (text old : Text) (written : List UInt8) (m ins : Text)
    (pieces : List Text) : Prop where
  before : raw = joinWith (fileBytes raw m) (pieces.map (fileBytes raw))
  after : written = joinWith (fileBytes raw ins) (pieces.map (fileBytes raw))
  cuts : ∀ pre occ post, text = pre ++ occ ++ post → Matches text old occ →
    occ = m ∧ ∃ l r, l ≠ [] ∧ r ≠ [] ∧ pieces = l ++ r ∧ pre = joinWith m l ∧ post = joinWith m r
  matched : Matches text old m

/-- The claim of `edit_file`: an edit replaces exactly the places that match, and one place only
unless all are asked for; and it succeeds where the search string is at exactly one place. -/
structure EditsMatches (lib : TextLibrary) (raw : List UInt8) (req : EditRequest) : Prop where
  frame : ∀ written, editFile lib raw req = some written → ∃ m ins pieces,
    ReplacesMatches raw (contentLf lib raw) (toLf req.old) written m ins pieces ∧
      2 ≤ pieces.length ∧ (req.replaceAll = false → pieces.length = 2)
  success : ∀ pre post, contentLf lib raw = pre ++ toLf req.old ++ post →
    (∀ pre' post', contentLf lib raw = pre' ++ toLf req.old ++ post' → pre' = pre) →
    editFile lib raw req =
      some (fileBytes raw pre ++ fileBytes raw (putText req) ++ fileBytes raw post)

/-- Every stage of an edit but the replacing is the identity, and the places that match have one
text and lie apart. -/
structure Undisturbed (lib : TextLibrary) (raw : List UInt8) (req : EditRequest) : Prop where
  asked : req.old ≠ [] ∧ req.old ≠ req.new
  encoding : encodeUtf8 (decodeFile lib raw) = raw
  lineEnds : restoreEol (hasCrlf raw) (contentLf lib raw) = decodeFile lib raw
  old : desanitize lib req.old = req.old
  new : desanitize lib req.new = req.new
  apart : ∀ pre occ post pre' occ' post', contentLf lib raw = pre ++ occ ++ post →
    Matches (contentLf lib raw) (toLf req.old) occ → contentLf lib raw = pre' ++ occ' ++ post' →
    Matches (contentLf lib raw) (toLf req.old) occ' → occ' = occ ∧
      (pre.length ≤ pre'.length → pre'.length < pre.length + occ.length → pre = pre')

theorem toLf_ne_nil {value : Text} (h : value ≠ []) : toLf value ≠ [] := by
  intro hnil
  rw [toLf.eq_def] at hnil
  split at hnil
  · exact h rfl
  · cases hnil
  · cases hnil

theorem Undisturbed.replaces (h : Undisturbed lib raw req) {m ins : Text}
    (hm : m ≠ []) (hmatch : Matches (contentLf lib raw) (toLf req.old) m) {text : Text}
    (hreplace : replaceMatch (contentLf lib raw) req.replaceAll m ins = some text)
    (hplace : ∃ pre post, contentLf lib raw = pre ++ m ++ post) :
    ∃ pieces, ReplacesMatches raw (contentLf lib raw) (toLf req.old) (fileBytes raw text) m ins
      pieces ∧ 2 ≤ pieces.length ∧ (req.replaceAll = false → pieces.length = 2) := by
  have hapart : Apart m (contentLf lib raw) := fun pre post pre' post' hpre hpre' =>
    (h.apart pre m post pre' m post' hpre hmatch hpre' hmatch).2
  have hraw : raw = fileBytes raw (contentLf lib raw) := by
    rw [fileBytes, h.lineEnds, h.encoding]
  obtain ⟨pre, post, htext⟩ := hplace
  obtain ⟨l, r, hl, hr, hcut, -⟩ := cut_of_place hm hapart htext
  have htwo : 2 ≤ (splitText m 0 (contentLf lib raw)).length := by
    rw [hcut, length_append]
    have hlpos := length_pos_iff.mpr hl
    have hrpos := length_pos_iff.mpr hr
    omega
  rw [replaceMatch] at hreplace
  split at hreplace
  · cases hreplace
  · next hcount =>
    have hone : req.replaceAll = false → (splitText m 0 (contentLf lib raw)).length = 2 := by
      intro hall
      have hle : ¬ 1 < countText m (contentLf lib raw) := fun hlt => hcount ⟨hall, hlt⟩
      rw [countText, if_neg hm] at hle
      omega
    have htext' : text = joinWith ins (splitText m 0 (contentLf lib raw)) := by
      cases hall : req.replaceAll with
      | true =>
        rw [hall, if_pos rfl, replaceAll, if_neg hm] at hreplace
        exact (some.inj hreplace).symm
      | false =>
        rw [hall] at hreplace
        have hlength := hone hall
        rw [← some.inj hreplace, if_neg (by decide), replaceOnce, if_neg hm]
        match hpieces : splitText m 0 (contentLf lib raw) with
        | [] | [_] | _ :: _ :: _ :: _ => rw [hpieces] at hlength; cases hlength
        | [first, second] => rfl
    refine ⟨splitText m 0 (contentLf lib raw), ⟨?_, ?_, ?_, hmatch⟩, htwo, hone⟩
    · rw [← map_joinWith (fileBytes_nil raw) (fileBytes_append raw), joinWith_splitText hm]
      exact hraw
    · rw [htext']
      exact map_joinWith (fileBytes_nil raw) (fileBytes_append raw)
    · intro pre' occ post' hpre' hocc
      obtain ⟨rfl, -⟩ := h.apart pre m post pre' occ post' htext hmatch hpre' hocc
      exact ⟨rfl, cut_of_place hm hapart hpre'⟩

theorem Undisturbed.matched (h : Undisturbed lib raw req) {m ins : Text}
    (hmatching : matching lib (contentLf lib raw) req = some (m, ins)) :
    m ≠ [] ∧ Matches (contentLf lib raw) (toLf req.old) m ∧
      ∃ pre post, contentLf lib raw = pre ++ m ++ post := by
  have hold : oldClean lib req = toLf req.old := by rw [oldClean, h.old]
  have hne := toLf_ne_nil h.asked.1
  rw [matching, hold] at hmatching
  split at hmatching
  · next hfound =>
    cases hmatching
    obtain ⟨i, hi⟩ := isSome_iff_exists.mp hfound
    obtain ⟨pre, post, hplace, -⟩ := place_of_findText hi
    refine ⟨hne, ?_, pre, post, hplace⟩
    rw [Matches, if_pos hfound]
  · next hnone =>
    obtain ⟨variant, hvariant, heq⟩ := map_eq_some_iff.mp hmatching
    cases heq
    obtain ⟨hquotes, hplace⟩ := place_of_tryQuoteVariants hvariant
    refine ⟨?_, ?_, hplace⟩
    · rintro rfl
      exact hne (map_eq_nil_iff.mp hquotes.symm)
    · rw [Matches, if_neg hnone]
      exact hquotes

theorem splitText_of_only (hm : m ≠ []) (hapart : Apart m text) (htext : text = pre ++ m ++ post)
    (honly : ∀ pre' post', text = pre' ++ m ++ post' → pre' = pre) :
    splitText m 0 text = [pre, post] := by
  obtain ⟨l, r, hl, hr, hcut, hpre, hpost⟩ := cut_of_place hm hapart htext
  have hpos : 0 < m.length := length_pos_iff.mpr hm
  have hplace : ∀ {l' r' : List Text}, l' ≠ [] → r' ≠ [] → l ++ r = l' ++ r' →
      joinWith m l' = pre := by
    intro l' r' hl' hr' hsame
    refine honly _ (joinWith m r') ?_
    have hjoin := joinWith_splitText hm 0 text
    rw [hcut, hsame, joinWith_append hl' hr', drop_zero] at hjoin
    exact hjoin.symm
  have hl1 : ∃ first, l = [first] := by
    cases l with
    | nil => exact (hl rfl).elim
    | cons first l =>
      cases l with
      | nil => exact ⟨first, rfl⟩
      | cons second l =>
        have hrest : second :: l ++ r ≠ [] := cons_ne_nil _ _
        have hfirst : joinWith m [first] = pre := hplace (cons_ne_nil _ _) hrest rfl
        rw [hpre, joinWith_cons (cons_ne_nil _ _)] at hfirst
        have hlength := congrArg List.length hfirst
        simp only [joinWith, length_append] at hlength
        omega
  have hr1 : ∃ last, r = [last] := by
    cases r with
    | nil => exact (hr rfl).elim
    | cons last r =>
      cases r with
      | nil => exact ⟨last, rfl⟩
      | cons next r =>
        have hlonger : joinWith m (l ++ [last]) = pre :=
          hplace (by simp) (cons_ne_nil next r) (by simp)
        rw [joinWith_append hl (cons_ne_nil _ _), ← hpre] at hlonger
        have hlength := congrArg List.length hlonger
        simp only [length_append] at hlength
        omega
  obtain ⟨first, rfl⟩ := hl1
  obtain ⟨last, rfl⟩ := hr1
  rw [hcut, hpre, hpost]
  rfl

def asciiLibrary : TextLibrary where
  unescape text := text
  isAlpha := Char.isAlpha
  decodeUtf8 raw := raw.map fun b => Char.ofNat b.toNat
  decodeUtf16 raw := raw.map fun b => Char.ofNat b.toNat

end JiuwenSpec.FileTools

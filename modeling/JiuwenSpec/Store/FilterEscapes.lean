import Mathlib.Data.List.DropRight
import JiuwenSpec.Store.QueryFilter

/-!
# Values stay in their literals

A filter is read as the tree of its expression just where no string holds a backslash, no list
mixes strings with other values, and no list is given as a string.
-/

namespace JiuwenSpec.Store

open Base List
open Option (bind_eq_some_iff map_eq_some_iff bind_some)

variable {E : Escapes}

variable {c : Char}

theorem readLiteral_plain (hq : c ≠ '"') (hb : c ≠ '\\') (rest : Text) :
    readLiteral E (c :: rest) = (readLiteral E rest).map fun r => (c :: r.1, r.2) := by
  rw [readLiteral.eq_def]
  split
  · next h => cases h
  · next h => exact absurd (List.cons.inj h).1 hq
  · next h => exact absurd (List.cons.inj h).1 hb
  · next h => exact absurd (List.cons.inj h).1 hb
  · next h =>
    obtain ⟨rfl, rfl⟩ := List.cons.inj h
    rfl

theorem readLiteral_escape (c : Char) (rest : Text) : readLiteral E ('\\' :: c :: rest) =
    (E.unescape c).bind fun d => (readLiteral E rest).map fun r => (d :: r.1, r.2) := by
  rw [readLiteral]

theorem readLiteral_end (rest : Text) : readLiteral E ('"' :: rest) = some ([], rest) := by
  rw [readLiteral]

theorem escapeQuotes_cons (c : Char) (v : Text) :
    escapeQuotes (c :: v) = (if c = '"' then ['\\', '"'] else [c]) ++ escapeQuotes v := rfl

variable {r v : Text}

theorem readLiteral_backslashes {k : Nat} {text : Text}
    (h : readLiteral E text = some (List.replicate k '\\' ++ v, r)) :
    ∃ text', text = List.replicate (2 * k) '\\' ++ text' ∧ readLiteral E text' = some (v, r) := by
  induction k generalizing text with
  | zero => exact ⟨text, rfl, h⟩
  | succ k ih =>
    cases text with
    | nil => cases h
    | cons c rest =>
      by_cases hq : c = '"'
      · rw [hq, readLiteral_end] at h
        cases h
      · by_cases hb : c = '\\'
        · subst hb
          cases rest with
          | nil => cases h
          | cons c rest =>
            rw [readLiteral_escape] at h
            obtain ⟨d, hd, hrest⟩ := bind_eq_some_iff.mp h
            obtain ⟨x, hx, heq⟩ := map_eq_some_iff.mp hrest
            obtain ⟨hdx, rfl⟩ := Prod.mk.inj heq
            rw [replicate_succ, cons_append] at hdx
            obtain ⟨rfl, hx'⟩ := List.cons.inj hdx
            obtain rfl := E.only c hd
            obtain ⟨text', rfl, hread⟩ := ih (hx.trans (by rw [← hx']))
            exact ⟨text', rfl, hread⟩
        · rw [readLiteral_plain hq hb] at h
          obtain ⟨x, hx, heq⟩ := map_eq_some_iff.mp h
          exact absurd (List.cons.inj (Prod.mk.inj heq).1).1 hb

theorem readLiteral_of_notMem (hv : '\\' ∉ v) (rest : Text) :
    readLiteral E (escapeQuotes v ++ '"' :: rest) = some (v, rest) := by
  induction v with
  | nil => exact readLiteral_end rest
  | cons c v ih =>
    rw [mem_cons, not_or] at hv
    rw [escapeQuotes_cons]
    split
    · next hq =>
      subst hq
      show readLiteral E ('\\' :: '"' :: (escapeQuotes v ++ '"' :: rest)) = _
      rw [readLiteral_escape, E.quote, bind_some, ih hv.2]
      rfl
    · next hq =>
      show readLiteral E (c :: (escapeQuotes v ++ '"' :: rest)) = _
      rw [readLiteral_plain hq (Ne.symm hv.1), ih hv.2]
      rfl

variable {rest : Text}

theorem readLiteral_run {k : Nat} (hv : ∀ c, v.head? = some c → c ≠ '\\') :
    readLiteral E (List.replicate (k + 1) '\\' ++ (escapeQuotes v ++ '"' :: rest)) ≠
      some (List.replicate (k + 1) '\\' ++ v, r) := by
  intro h
  obtain ⟨text', htext, hread⟩ := readLiteral_backslashes h
  have hdouble : List.replicate (2 * (k + 1)) '\\' =
      List.replicate (k + 1) '\\' ++ List.replicate (k + 1) '\\' := by
    rw [← replicate_add, Nat.two_mul]
  rw [hdouble, append_assoc] at htext
  have htail := append_cancel_left htext
  rw [replicate_succ, cons_append] at htail
  -- Half of the backslashes are missing: only an escaped quote brings another one.
  cases v with
  | nil => exact absurd (List.cons.inj htail).1 (by decide)
  | cons c v =>
    rw [escapeQuotes_cons] at htail
    split at htail
    · cases k with
      | zero =>
        obtain ⟨-, hquote⟩ := List.cons.inj htail
        have htext' : text' = '"' :: (escapeQuotes v ++ '"' :: rest) := hquote.symm
        rw [htext', readLiteral_end] at hread
        cases hread
      | succ k =>
        obtain ⟨-, hquote⟩ := List.cons.inj htail
        exact absurd (List.cons.inj hquote).1 (by decide)
    · exact absurd (List.cons.inj htail).1 (hv c rfl)

theorem exists_run (v : Text) : ∃ k w, v = List.replicate k '\\' ++ w ∧
    ∀ c, w.head? = some c → c ≠ '\\' := by
  induction v with
  | nil => exact ⟨0, [], rfl, fun _ h => (by cases h)⟩
  | cons c v ih =>
    by_cases hc : c = '\\'
    · obtain ⟨k, w, rfl, hw⟩ := ih
      exact ⟨k + 1, w, by rw [hc, replicate_succ, cons_append], hw⟩
    · exact ⟨0, c :: v, rfl, fun d hd => Option.some.inj hd ▸ hc⟩

theorem escapeQuotes_backslashes (k : Nat) (w : Text) :
    escapeQuotes (List.replicate k '\\' ++ w) = List.replicate k '\\' ++ escapeQuotes w := by
  induction k with
  | zero => rfl
  | succ k ih =>
    rw [replicate_succ, cons_append, escapeQuotes_cons, if_neg (by decide), ih]
    rfl

theorem notMem_of_readLiteral
    (h : readLiteral E (escapeQuotes v ++ '"' :: rest) = some (v, r)) : '\\' ∉ v := by
  induction v with
  | nil => exact not_mem_nil
  | cons c v ih =>
    by_cases hc : c = '\\'
    · obtain ⟨k, w, hrun, hw⟩ := exists_run v
      have hv : c :: v = List.replicate (k + 1) '\\' ++ w := by
        rw [hc, hrun, replicate_succ, cons_append]
      rw [hv, escapeQuotes_backslashes, append_assoc] at h
      exact absurd h (readLiteral_run hw)
    · rw [mem_cons, not_or]
      refine ⟨Ne.symm hc, ih ?_⟩
      rw [escapeQuotes_cons] at h
      split at h
      · next hq =>
        subst hq
        rw [show ['\\', '"'] ++ escapeQuotes v ++ '"' :: rest =
          '\\' :: '"' :: (escapeQuotes v ++ '"' :: rest) from rfl, readLiteral_escape, E.quote,
          bind_some] at h
        obtain ⟨x, hx, heq⟩ := map_eq_some_iff.mp h
        obtain ⟨hxv, rfl⟩ := Prod.mk.inj heq
        rw [hx, ← (List.cons.inj hxv).2]
      · next hq =>
        rw [show [c] ++ escapeQuotes v ++ '"' :: rest =
          c :: (escapeQuotes v ++ '"' :: rest) from rfl, readLiteral_plain hq hc] at h
        obtain ⟨x, hx, heq⟩ := map_eq_some_iff.mp h
        obtain ⟨hxv, rfl⟩ := Prod.mk.inj heq
        rw [hx, ← (List.cons.inj hxv).2]

theorem readLiteral_sanitized :
    readLiteral E (escapeQuotes v ++ '"' :: rest) = some (v, r) ↔ '\\' ∉ v ∧ r = rest := by
  constructor
  · intro h
    have hv := notMem_of_readLiteral h
    rw [readLiteral_of_notMem hv] at h
    exact ⟨hv, (Prod.mk.inj (Option.some.inj h)).2.symm⟩
  · rintro ⟨hv, rfl⟩
    exact readLiteral_of_notMem hv r

theorem readLiteral_count {s : Char} (hs : s ∈ [',', ']']) {text : Text}
    (h : readLiteral E text = some (v, r)) :
    ∃ u, text = u ++ '"' :: r ∧ u.count s = v.count s ∧ v.length ≤ u.length := by
  obtain ⟨hnone, hnot⟩ := E.plain s hs
  induction text using readLiteral.induct generalizing v with
  | case1 => cases h
  | case2 rest =>
    rw [readLiteral_end] at h
    cases h
    exact ⟨[], rfl, rfl, Nat.le_refl _⟩
  | case3 => cases h
  | case4 c rest ih =>
    rw [readLiteral_escape] at h
    obtain ⟨d, hd, hrest⟩ := bind_eq_some_iff.mp h
    obtain ⟨x, hx, heq⟩ := map_eq_some_iff.mp hrest
    obtain ⟨rfl, rfl⟩ := Prod.mk.inj heq
    obtain ⟨u, rfl, hcount, hlength⟩ := ih hx
    have hc : c ≠ s := by
      rintro rfl
      rw [hnone] at hd
      cases hd
    have hds : d ≠ s := by
      rintro rfl
      exact hnot c hd
    have hb : '\\' ≠ s := by
      rintro rfl
      exact absurd hs (by decide)
    refine ⟨'\\' :: c :: u, rfl, ?_, ?_⟩
    · rw [count_cons_of_ne hb, count_cons_of_ne hc, count_cons_of_ne hds, hcount]
    · simp only [length_cons]
      omega
  | case5 c rest hq hlast hescape ih =>
    have hb : c ≠ '\\' := by
      rintro rfl
      cases rest with
      | nil => exact hlast rfl rfl
      | cons d rest => exact hescape d rest rfl rfl
    rw [readLiteral_plain hq hb] at h
    obtain ⟨x, hx, heq⟩ := map_eq_some_iff.mp h
    obtain ⟨rfl, rfl⟩ := Prod.mk.inj heq
    obtain ⟨u, rfl, hcount, hlength⟩ := ih hx
    refine ⟨c :: u, rfl, ?_, ?_⟩
    · rw [count_cons, count_cons, hcount]
    · simp only [length_cons]
      omega

def Stops (rest : Text) : Prop := ∀ c ∈ rest.head?, ¬ IsWordChar c

theorem stops_nil : Stops [] := fun _ h => (by cases h)

theorem stops_cons (h : ¬ IsWordChar c) (rest : Text) : Stops (c :: rest) :=
  fun _ hd => Option.some.inj hd ▸ h

@[simp] theorem skipSpaces_space (text : Text) : skipSpaces (' ' :: text) = skipSpaces text :=
  dropWhile_cons_of_pos (by simp)

theorem skipSpaces_of_ne (h : c ≠ ' ') (text : Text) :
    skipSpaces (c :: text) = c :: text := dropWhile_cons_of_neg (by simpa using h)

theorem IsWordChar.ne {d : Char} (h : IsWordChar c) (hd : ¬ IsWordChar d) : c ≠ d := by
  rintro rfl
  exact hd h

theorem Word.eq_cons (w : Word) : ∃ c cs, w.text = c :: cs ∧ IsWordChar c := by
  obtain ⟨c, cs, h⟩ := exists_cons_of_ne_nil w.ne_nil
  exact ⟨c, cs, h, w.chars c (h ▸ mem_cons_self)⟩

theorem Word.skipSpaces (w : Word) (rest : Text) :
    skipSpaces (w.text ++ rest) = w.text ++ rest := by
  obtain ⟨c, cs, h, hc⟩ := w.eq_cons
  rw [h]
  exact skipSpaces_of_ne (hc.ne (by decide)) _

theorem readWord_word (w : Word) (h : Stops rest) :
    readWord (w.text ++ rest) = some (w.text, rest) := by
  have hrest : rest.takeWhile (fun c => IsWordChar c) = [] ∧
      rest.dropWhile (fun c => IsWordChar c) = rest := by
    cases rest with
    | nil => exact ⟨rfl, rfl⟩
    | cons c rest =>
      have hc : ¬ IsWordChar c := h c rfl
      exact ⟨takeWhile_cons_of_neg (by simpa using hc),
        dropWhile_cons_of_neg (by simpa using hc)⟩
  obtain ⟨c, cs, htext, -⟩ := w.eq_cons
  rw [readWord, w.skipSpaces, takeWhile_append_of_pos (by simpa using w.chars), hrest.1,
    dropWhile_append_of_pos (by simpa using w.chars), hrest.2, append_nil, htext]

theorem readWord_space (text : Text) : readWord (' ' :: text) = readWord text := by
  rw [readWord, readWord, skipSpaces_space]

theorem readOperand_space (text : Text) : readOperand E (' ' :: text) = readOperand E text := by
  rw [readOperand, readOperand, skipSpaces_space]

theorem readOperand_word (w : Word) (h : Stops rest) :
    readOperand E (w.text ++ rest) = some (.word w.text, rest) := by
  obtain ⟨c, cs, htext, hc⟩ := w.eq_cons
  have hword := readWord_word w h
  rw [readOperand, w.skipSpaces]
  split
  · next heq =>
    rw [htext] at heq
    exact absurd (List.cons.inj heq).1 (hc.ne (by decide))
  · rw [hword]
    rfl

theorem readOperand_quote (text : Text) : readOperand E ('"' :: text) =
    (readLiteral E text).map fun r => (.literal r.1, r.2) := by
  rw [readOperand, skipSpaces_of_ne (by decide)]
  rfl

theorem sanitizeStr_append (v rest : Text) :
    sanitizeStr v ++ rest = '"' :: (escapeQuotes v ++ '"' :: rest) := by simp [sanitizeStr]

theorem readOperand_sanitized :
    readOperand E (sanitizeStr v ++ rest) = some (.literal v, r) ↔ '\\' ∉ v ∧ r = rest := by
  rw [sanitizeStr_append, readOperand_quote, map_eq_some_iff]
  constructor
  · rintro ⟨x, hx, heq⟩
    obtain ⟨hv, rfl⟩ := Prod.mk.inj heq
    rw [← Operand.literal.inj hv] at hx ⊢
    have hread : readLiteral E (escapeQuotes x.1 ++ '"' :: rest) = some (x.1, x.2) := hx
    exact readLiteral_sanitized.mp hread
  · rintro h
    exact ⟨(v, r), readLiteral_sanitized.mpr h, rfl⟩

def Value.Clean : Value → Prop
  | .str text => '\\' ∉ text
  | .plain _ => True

theorem readOperand_valueText {v : Value} (h : Stops rest) :
    readOperand E (valueText v ++ rest) = some (v.operand, r) ↔ v.Clean ∧ r = rest := by
  cases v with
  | str text => exact readOperand_sanitized
  | plain word =>
    show readOperand E (word.text ++ rest) = some (.word word.text, r) ↔ True ∧ r = rest
    rw [readOperand_word word h, true_and]
    exact ⟨fun h => (Prod.mk.inj (Option.some.inj h)).2.symm, fun h => h ▸ rfl⟩

theorem joinComma_cons_cons (a b : Text) (ts : List Text) :
    joinComma (a :: b :: ts) = a ++ ',' :: joinComma (b :: ts) := rfl

variable {n : Nat}

theorem readItems_cons_iff {text : Text} {o : Operand} {os : List Operand} :
    readItems E (n + 1) text = some (o :: os, r) ↔ ∃ t, readOperand E text = some (o, t) ∧
      (os = [] ∧ skipSpaces t = ']' :: r ∨
        ∃ t', skipSpaces t = ',' :: t' ∧ readItems E n t' = some (os, r)) := by
  rw [readItems, bind_eq_some_iff]
  constructor
  · rintro ⟨⟨o', t⟩, hread, hmatch⟩
    dsimp only at hmatch
    split at hmatch
    · next t' ht =>
      obtain ⟨x, hx, heq⟩ := map_eq_some_iff.mp hmatch
      obtain ⟨hos, rfl⟩ := Prod.mk.inj heq
      obtain ⟨rfl, rfl⟩ := List.cons.inj hos
      exact ⟨t, hread, .inr ⟨t', ht, hx⟩⟩
    · next t' ht =>
      obtain ⟨hos, rfl⟩ := Prod.mk.inj (Option.some.inj hmatch)
      obtain ⟨rfl, rfl⟩ := List.cons.inj hos
      exact ⟨t, hread, .inl ⟨rfl, ht⟩⟩
    · cases hmatch
  · rintro ⟨t, hread, ⟨rfl, ht⟩ | ⟨t', ht, hrest⟩⟩
    · refine ⟨(o, t), hread, ?_⟩
      simp only [ht]
    · refine ⟨(o, t), hread, ?_⟩
      simp only [ht, hrest, Option.map_some]

theorem readItems_valueTexts {v : Value} {vs : List Value} {n : Nat} (hn : vs.length < n)
    {rest r : Text} : readItems E n (joinComma ((v :: vs).map valueText) ++ ']' :: rest) =
      some ((v :: vs).map Value.operand, r) ↔ (∀ w ∈ v :: vs, w.Clean) ∧ r = rest := by
  obtain ⟨n, rfl⟩ := Nat.exists_eq_succ_of_ne_zero (by omega : n ≠ 0)
  rw [map_cons, map_cons, readItems_cons_iff]
  cases vs with
  | nil =>
    have hstops : Stops (']' :: rest) := stops_cons (by decide) rest
    show (∃ t, readOperand E (valueText v ++ ']' :: rest) = some (v.operand, t) ∧ _) ↔ _
    constructor
    · rintro ⟨t, hread, hnext⟩
      obtain ⟨hv, rfl⟩ := (readOperand_valueText hstops).mp hread
      rw [skipSpaces_of_ne (by decide)] at hnext
      rcases hnext with ⟨-, hr⟩ | ⟨t', ht, -⟩
      · exact ⟨by simpa using hv, (List.cons.inj hr).2.symm⟩
      · exact absurd (List.cons.inj ht).1 (by decide)
    · rintro ⟨hv, rfl⟩
      exact ⟨_, (readOperand_valueText hstops).mpr ⟨by simpa using hv, rfl⟩,
        .inl ⟨rfl, skipSpaces_of_ne (by decide) r⟩⟩
  | cons w vs =>
    have hstops : ∀ t, Stops (',' :: t) := fun t => stops_cons (by decide) t
    have ih := @readItems_valueTexts w vs n (by simp at hn; omega) rest r
    rw [map_cons, joinComma_cons_cons, append_assoc, cons_append,
      forall_mem_cons, and_assoc, ← ih]
    constructor
    · rintro ⟨t, hread, hnext⟩
      obtain ⟨hv, rfl⟩ := (readOperand_valueText (hstops _)).mp hread
      rw [skipSpaces_of_ne (by decide)] at hnext
      rcases hnext with ⟨hnil, -⟩ | ⟨t', ht, hitems⟩
      · cases hnil
      · obtain ⟨-, rfl⟩ := List.cons.inj ht
        exact ⟨hv, hitems⟩
    · rintro ⟨hv, hitems⟩
      exact ⟨_, (readOperand_valueText (hstops _)).mpr ⟨hv, rfl⟩,
        .inr ⟨_, skipSpaces_of_ne (by decide) _, hitems⟩⟩

theorem skipSpaces_idem (text : Text) : skipSpaces (skipSpaces text) = skipSpaces text :=
  dropWhile_idempotent _ text

theorem readOperand_skipSpaces (text : Text) :
    readOperand E (skipSpaces text) = readOperand E text := by
  rw [readOperand, readOperand, skipSpaces_idem]

theorem readOperand_raw {s : Char} (hs : s ∈ [',', ']']) (t rest r : Text) :
    readOperand E (t ++ s :: rest) ≠ some (.literal t, r) := by
  intro h
  have hs' : s ≠ ' ' ∧ s ≠ '"' ∧ ¬ IsWordChar s := by
    rcases mem_cons.mp hs with rfl | hs
    · decide
    · rw [mem_singleton.mp hs]
      decide
  obtain ⟨spaces, hsplit, hspaces⟩ : ∃ spaces, t = spaces ++ skipSpaces t ∧ s ∉ spaces := by
    refine ⟨t.takeWhile (· = ' '), takeWhile_append_dropWhile.symm, fun hmem => ?_⟩
    have hspace := mem_takeWhile_imp hmem
    exact hs'.1 (by simpa using hspace)
  have hskip : skipSpaces (t ++ s :: rest) = skipSpaces t ++ s :: rest := by
    rw [skipSpaces, dropWhile_append]
    split
    · next hnil =>
      rw [dropWhile_cons_of_neg (by simpa using hs'.1), skipSpaces,
        isEmpty_iff.mp hnil]
      rfl
    · rfl
  rw [readOperand, hskip] at h
  split at h
  · next w hw =>
    obtain ⟨x, hx, heq⟩ := map_eq_some_iff.mp h
    obtain ⟨hxt, rfl⟩ := Prod.mk.inj heq
    have hxt' : x.1 = t := Operand.literal.inj hxt
    have hread : readLiteral E w = some (t, x.2) := hxt' ▸ hx
    obtain ⟨u, hu, hcount, hlength⟩ := readLiteral_count hs hread
    cases hquote : skipSpaces t with
    | nil =>
      rw [hquote] at hw
      exact hs'.2.1 (List.cons.inj hw).1
    | cons c t' =>
      rw [hquote] at hw hsplit
      obtain ⟨rfl, rfl⟩ := List.cons.inj hw
      -- The string holds one separator less than the text that is read for it.
      have hlonger : t'.length < u.length := by
        have hlt := congrArg List.length hsplit
        rw [length_append, length_cons] at hlt
        omega
      obtain ⟨u', rfl⟩ : t' ++ [s] <+: u := by
        refine prefix_of_prefix_length_le ⟨rest, by simp⟩ ⟨'"' :: x.2, hu.symm⟩ ?_
        rw [length_append, length_singleton]
        omega
      have hzero := count_eq_zero.mpr hspaces
      rw [hsplit] at hcount
      simp only [count_append, count_cons_of_ne (Ne.symm hs'.2.1), hzero,
        count_singleton_self] at hcount
      omega
  · next hnot =>
    obtain ⟨x, -, heq⟩ := map_eq_some_iff.mp h
    cases heq

theorem plain_of_readItems {v : Value} {vs : List Value} {n : Nat}
    (h : readItems E n (joinComma ((v :: vs).map Value.text) ++ ']' :: rest) =
      some ((v :: vs).map Value.operand, r)) : ∀ w ∈ v :: vs, w.isStr = false := by
  cases n with
  | zero => cases h
  | succ n =>
    rw [map_cons, map_cons, readItems_cons_iff] at h
    obtain ⟨t, hread, hnext⟩ := h
    cases vs with
    | nil =>
      have hread' : readOperand E (v.text ++ ']' :: rest) = some (v.operand, t) := hread
      refine forall_mem_singleton.mpr ?_
      cases v with
      | str text => exact absurd hread' (readOperand_raw (by simp) text rest t)
      | plain word => rfl
    | cons w vs =>
      rw [map_cons, joinComma_cons_cons, append_assoc, cons_append] at hread
      refine forall_mem_cons.mpr ?_
      cases v with
      | str text => exact absurd hread (readOperand_raw (by simp) text _ t)
      | plain word =>
        have hstops : ∀ t, Stops (',' :: t) := fun t => stops_cons (by decide) t
        rw [show (Value.plain word).text = word.text from rfl, readOperand_word word (hstops _)]
          at hread
        cases hread
        rw [skipSpaces_of_ne (by decide)] at hnext
        rcases hnext with ⟨hnil, -⟩ | ⟨t', ht, hitems⟩
        · cases hnil
        · obtain ⟨-, rfl⟩ := List.cons.inj ht
          exact ⟨rfl, plain_of_readItems hitems⟩

theorem valueText_cons (v : Value) : ∃ c cs, valueText v = c :: cs ∧
    c ≠ ' ' ∧ c ≠ ']' ∧ c ≠ '[' ∧ c ≠ '(' := by
  cases v with
  | str text => exact ⟨'"', _, rfl, by decide⟩
  | plain word =>
    obtain ⟨c, cs, h, hc⟩ := word.eq_cons
    exact ⟨c, cs, h, hc.ne (by decide), hc.ne (by decide), hc.ne (by decide), hc.ne (by decide)⟩

theorem joinComma_cons (t : Text) (ts : List Text) : ∃ u, joinComma (t :: ts) = t ++ u := by
  cases ts with
  | nil => exact ⟨[], (append_nil t).symm⟩
  | cons t' ts => exact ⟨_, rfl⟩

theorem length_joinComma (v : Value) (vs : List Value) :
    vs.length < (joinComma ((v :: vs).map valueText)).length := by
  induction vs generalizing v with
  | nil =>
    obtain ⟨c, cs, h, -⟩ := valueText_cons v
    show 0 < (valueText v).length
    rw [h]
    exact Nat.succ_pos _
  | cons w vs ih =>
    have := ih w
    rw [map_cons, map_cons, joinComma_cons_cons, ← map_cons, length_append,
      length_cons, length_cons]
    omega

theorem readList_of_ne (hspace : c ≠ ' ') (hclose : c ≠ ']') (text : Text) :
    readList E (c :: text) = readItems E (c :: text).length (c :: text) := by
  rw [readList, skipSpaces_of_ne hspace]
  split
  · next h => exact absurd (List.cons.inj h).1 hclose
  · rfl

theorem readList_valueTexts (vs : List Value) :
    readList E (joinComma (vs.map valueText) ++ ']' :: rest) = some (vs.map Value.operand, r) ↔
      (∀ w ∈ vs, w.Clean) ∧ r = rest := by
  cases vs with
  | nil =>
    have hread : readList E (']' :: rest) = some ([], rest) := by
      rw [readList, skipSpaces_of_ne (by decide)]
      rfl
    show readList E (']' :: rest) = some ([], r) ↔ _
    rw [hread]
    exact ⟨fun h => ⟨fun _ hw => (by cases hw), (Prod.mk.inj (Option.some.inj h)).2.symm⟩,
      fun h => h.2 ▸ rfl⟩
  | cons v vs =>
    obtain ⟨c, cs, hv, hspace, hclose, -⟩ := valueText_cons v
    obtain ⟨u, hu⟩ := joinComma_cons (valueText v) (vs.map valueText)
    have htext : joinComma ((v :: vs).map valueText) = c :: (cs ++ u) := by
      rw [map_cons, hu, hv, cons_append]
    have hlength := length_joinComma v vs
    have hread : readList E (joinComma ((v :: vs).map valueText) ++ ']' :: rest) =
        readItems E (joinComma ((v :: vs).map valueText) ++ ']' :: rest).length
          (joinComma ((v :: vs).map valueText) ++ ']' :: rest) := by
      rw [htext]
      exact readList_of_ne hspace hclose _
    rw [hread, readItems_valueTexts]
    rw [length_append]
    omega

theorem readList_raw {vs : List Value}
    (h : readList E (joinComma (vs.map Value.text) ++ ']' :: rest) =
      some (vs.map Value.operand, r)) : ∀ w ∈ vs, w.isStr = false := by
  cases vs with
  | nil => exact fun _ hw => (by cases hw)
  | cons v vs =>
    rw [readList] at h
    split at h
    · exact absurd (Prod.mk.inj (Option.some.inj h)).1 (by simp)
    · -- Spaces before the first value make no difference.
      have hskip : ∀ n text, readItems E n (skipSpaces text) = readItems E n text := by
        intro n text
        cases n with
        | zero => rfl
        | succ n => rw [readItems, readItems, readOperand_skipSpaces]
      rw [hskip] at h
      exact plain_of_readItems h

theorem readList_chars {s : Text} :
    readList E (joinComma (s.map fun c => sanitizeStr [c]) ++ ']' :: rest) =
      some ([.literal s], r) ↔ (∃ c, s = [c] ∧ c ≠ '\\') ∧ r = rest := by
  have hmap : (s.map fun c => sanitizeStr [c]) = (s.map fun c => Value.str [c]).map valueText := by
    rw [map_map]
    rfl
  rw [hmap]
  rcases s with _ | ⟨c, _ | ⟨d, s⟩⟩
  · have hread : readList E (joinComma (([] : List Value).map valueText) ++ ']' :: rest) =
        some ([], rest) := (readList_valueTexts []).mpr ⟨by simp, rfl⟩
    rw [map_nil, hread]
    simp
  · refine (readList_valueTexts [.str [c]]).trans ?_
    simp [Value.Clean, eq_comm]
  · refine ⟨fun h => ?_, fun ⟨⟨c', hc', _⟩, _⟩ => (by cases hc')⟩
    obtain ⟨u, hu⟩ : ∃ u, joinComma ((List.map (fun c => Value.str [c]) (c :: d :: s)).map
        valueText) ++ ']' :: rest = sanitizeStr [c] ++ u := by
      refine ⟨',' :: joinComma ((List.map (fun c => Value.str [c]) (d :: s)).map valueText) ++
        ']' :: rest, ?_⟩
      rw [← append_assoc]
      rfl
    rw [hu, show sanitizeStr [c] ++ u = '"' :: (escapeQuotes [c] ++ '"' :: u) from
      sanitizeStr_append [c] u, readList_of_ne (by decide) (by decide), length_cons,
      readItems_cons_iff, ← sanitizeStr_append] at h
    obtain ⟨t, hread, -⟩ := h
    by_cases hc : c = '\\'
    · -- The literal goes on behind the quote that should close it.
      subst hc
      have hread' : readOperand E ('"' :: '\\' :: '"' :: u) =
        some (.literal ('\\' :: d :: s), t) := hread
      rw [readOperand_quote, readLiteral_escape, E.quote, bind_some, Option.map_map,
        map_eq_some_iff] at hread'
      obtain ⟨x, -, heq⟩ := hread'
      exact absurd (List.cons.inj (Operand.literal.inj (Prod.mk.inj heq).1)).1 (by decide)
    · have hplain : readOperand E (sanitizeStr [c] ++ u) = some (.literal [c], u) :=
        readOperand_sanitized.mpr ⟨by simpa using Ne.symm hc, rfl⟩
      rw [hplain] at hread
      cases (Prod.mk.inj (Option.some.inj hread)).1

def Closes (rest : Text) : Prop := rest = [] ∨ ∃ r, rest = ')' :: r

theorem Closes.stops (h : Closes rest) : Stops rest := by
  rcases h with rfl | ⟨r, rfl⟩
  · exact stops_nil
  · exact stops_cons (by decide) r

@[simp] theorem expect_cons (h : c ≠ ' ') (rest : Text) : expect c (c :: rest) = some rest := by
  rw [expect, skipSpaces_of_ne h]
  exact if_pos rfl

theorem expect_space (c : Char) (rest : Text) : expect c (' ' :: rest) = expect c rest := by
  rw [expect, expect, skipSpaces_space]

theorem readCondition_compare (field : Text) (operator : Word) (v : Text) {cs : Text}
    (hv : v = c :: cs) (hspace : c ≠ ' ') (hopen : c ≠ '[') :
    readCondition E field (' ' :: (operator.text ++ ' ' :: v)) =
      (readOperand E v).map fun value => (.compare field operator.text value.1, value.2) := by
  obtain ⟨d, ds, hop, hd⟩ := operator.eq_cons
  have hword := readWord_word operator (stops_cons (c := ' ') (by decide) v)
  rw [readCondition, skipSpaces_space, operator.skipSpaces]
  split
  · next h =>
    rw [hop] at h
    exact absurd (List.cons.inj h).1 (hd.ne (by decide))
  · next h =>
    rw [hop] at h
    exact absurd (List.cons.inj h).1 (hd.ne (by decide))
  · rw [hword, bind_some]
    dsimp only
    rw [skipSpaces_space, hv, skipSpaces_of_ne hspace]
    split
    · next h => exact absurd (List.cons.inj h).1 hopen
    · rfl

theorem readCondition_member (field : Text) (operator : Word) (text : Text) :
    readCondition E field (' ' :: (operator.text ++ ' ' :: '[' :: text)) =
      (readList E text).map fun items => (.member field operator.text items.1, items.2) := by
  obtain ⟨d, ds, hop, hd⟩ := operator.eq_cons
  have hword := readWord_word operator (stops_cons (c := ' ') (by decide) ('[' :: text))
  rw [readCondition, skipSpaces_space, operator.skipSpaces]
  split
  · next h =>
    rw [hop] at h
    exact absurd (List.cons.inj h).1 (hd.ne (by decide))
  · next h =>
    rw [hop] at h
    exact absurd (List.cons.inj h).1 (hd.ne (by decide))
  · rw [hword, bind_some]
    dsimp only
    rw [skipSpaces_space, skipSpaces_of_ne (by decide)]
    rfl

theorem readCondition_entry (field text : Text) :
    readCondition E field ('[' :: text) =
      (readOperand E text).bind fun key => (expect ']' key.2).bind fun rest =>
        (readWord rest).bind fun operator => (readOperand E operator.2).map fun value =>
          (.entry field key.1 operator.1 value.1, value.2) := by
  rw [readCondition, skipSpaces_of_ne (by decide)]
  rfl

theorem readCondition_textMatch (text : Text) :
    readCondition E textMatchWord ('(' :: text) =
      (readWord text).bind fun field => (expect ',' field.2).bind fun rest =>
        (readOperand E rest).bind fun value => (expect ')' value.2).map fun rest =>
          (.textMatch field.1 value.1, rest) := by
  rw [readCondition, skipSpaces_of_ne (by decide)]
  exact if_pos rfl

theorem readCondition_value {field : Text} {operator : Word} {v : Value} {rest r : Text}
    (h : Stops rest) :
    readCondition E field (' ' :: (operator.text ++ ' ' :: (valueText v ++ rest))) =
      some (.compare field operator.text v.operand, r) ↔ v.Clean ∧ r = rest := by
  obtain ⟨c, cs, hv, hspace, -, hopen, -⟩ := valueText_cons v
  rw [readCondition_compare field operator _ (by rw [hv, cons_append]) hspace hopen,
    ← readOperand_valueText h, map_eq_some_iff]
  constructor
  · rintro ⟨⟨o, t⟩, hread, heq⟩
    cases heq
    exact hread
  · exact fun hread => ⟨_, hread, rfl⟩

theorem readCondition_key {field : Text} (key : Value) {operator : Word} {v : Value}
    (h : Stops rest) :
    readCondition E field ('[' :: (valueText key ++ ']' :: ' ' ::
      (operator.text ++ ' ' :: (valueText v ++ rest)))) =
      some (.entry field key.operand operator.text v.operand, r) ↔
        key.Clean ∧ v.Clean ∧ r = rest := by
  have hclose : Stops (']' :: ' ' :: (operator.text ++ ' ' :: (valueText v ++ rest))) :=
    stops_cons (by decide) _
  have hword := readWord_word operator (stops_cons (c := ' ') (by decide) (valueText v ++ rest))
  rw [readCondition_entry, bind_eq_some_iff]
  constructor
  · rintro ⟨⟨k, t⟩, hkey, hnext⟩
    obtain ⟨t', hexpect, hnext⟩ := bind_eq_some_iff.mp hnext
    obtain ⟨⟨o, t''⟩, hop, hnext⟩ := bind_eq_some_iff.mp hnext
    obtain ⟨⟨w, t⟩, hvalue, heq⟩ := map_eq_some_iff.mp hnext
    cases heq
    obtain ⟨hclean, rfl⟩ := (readOperand_valueText hclose).mp hkey
    rw [expect_cons (by decide)] at hexpect
    cases hexpect
    rw [readWord_space, hword] at hop
    cases hop
    rw [readOperand_space] at hvalue
    exact ⟨hclean, (readOperand_valueText h).mp hvalue⟩
  · rintro ⟨hkey, hv⟩
    refine ⟨_, (readOperand_valueText hclose).mpr ⟨hkey, rfl⟩, ?_⟩
    dsimp only
    rw [expect_cons (by decide), bind_some, readWord_space, hword, bind_some]
    dsimp only
    rw [readOperand_space, (readOperand_valueText h).mpr hv]
    rfl

/-- The name `in`. -/
def Word.isIn : Word := ⟨['i', 'n'], cons_ne_nil _ _, isWordChar_of_all rfl⟩

/-- The name `like`. -/
def Word.like : Word := ⟨['l', 'i', 'k', 'e'], cons_ne_nil _ _, isWordChar_of_all rfl⟩

/-- The name `TEXT_MATCH`. -/
def Word.textMatch : Word := ⟨textMatchWord, cons_ne_nil _ _, isWordChar_of_all rfl⟩

/-- No value holds a backslash, strings are not mixed with other values, and a string that stands
for a list has one character. -/
def RangeValue.Clean : RangeValue → Prop
  | .items values => (∀ v ∈ values, v.Clean) ∧
    ((∀ v ∈ values, v.isStr = true) ∨ ∀ v ∈ values, v.isStr = false)
  | .text string => ∃ c, string = [c] ∧ c ≠ '\\'

theorem readList_valuesStr {value : RangeValue} :
    readList E (valuesStr value ++ ']' :: rest) = some (value.operands, r) ↔
      value.Clean ∧ r = rest := by
  cases value with
  | text text => exact readList_chars
  | items values =>
    by_cases hall : values.all Value.isStr
    · have hstr := all_eq_true.mp hall
      rw [valuesStr, if_pos hall, RangeValue.operands, readList_valueTexts]
      exact and_congr_left' ⟨fun h => ⟨h, .inl hstr⟩, And.left⟩
    · rw [valuesStr, if_neg hall, RangeValue.operands]
      have hplain : (∀ v ∈ values, v.isStr = false) → values.map Value.text =
          values.map valueText := by
        refine fun h => map_congr_left fun v hv => ?_
        cases v with
        | str text => cases h _ hv
        | plain word => rfl
      constructor
      · intro h
        have hnot := readList_raw h
        rw [hplain hnot, readList_valueTexts] at h
        exact ⟨⟨h.1, .inr hnot⟩, h.2⟩
      · rintro ⟨⟨hclean, hstr | hnot⟩, hr⟩
        · exact absurd (all_eq_true.mpr hstr) hall
        · rw [hplain hnot]
          exact (readList_valueTexts values).mpr ⟨hclean, hr⟩

theorem readCondition_in {field : Text} {value : RangeValue} {rest r : Text} :
    readCondition E field (' ' :: 'i' :: 'n' :: ' ' :: '[' :: (valuesStr value ++ ']' :: rest)) =
      some (.member field ['i', 'n'] value.operands, r) ↔ value.Clean ∧ r = rest := by
  have hread := readCondition_member (E := E) field Word.isIn (valuesStr value ++ ']' :: rest)
  rw [show ' ' :: 'i' :: 'n' :: ' ' :: '[' :: (valuesStr value ++ ']' :: rest) =
    ' ' :: (Word.isIn.text ++ ' ' :: '[' :: (valuesStr value ++ ']' :: rest)) from rfl, hread,
    ← readList_valuesStr, map_eq_some_iff]
  constructor
  · rintro ⟨⟨o, t⟩, hread, heq⟩
    cases heq
    exact hread
  · exact fun hread => ⟨_, hread, rfl⟩

theorem readCondition_exact {field : Word} :
    readCondition E textMatchWord ('(' :: (field.text ++ ',' :: ' ' ::
      (sanitizeStr v ++ ')' :: rest))) =
      some (.textMatch field.text (.literal v), r) ↔ '\\' ∉ v ∧ r = rest := by
  have hword := readWord_word field
    (stops_cons (c := ',') (by decide) (' ' :: (sanitizeStr v ++ ')' :: rest)))
  rw [readCondition_textMatch, hword, bind_some]
  dsimp only
  rw [expect_cons (by decide), bind_some, readOperand_space, bind_eq_some_iff]
  constructor
  · rintro ⟨⟨o, t⟩, hread, hnext⟩
    obtain ⟨t', hexpect, heq⟩ := map_eq_some_iff.mp hnext
    cases heq
    obtain ⟨hv, rfl⟩ := readOperand_sanitized.mp hread
    rw [expect_cons (by decide)] at hexpect
    exact ⟨hv, (Option.some.inj hexpect).symm⟩
  · rintro ⟨hv, rfl⟩
    refine ⟨_, readOperand_sanitized.mpr ⟨hv, rfl⟩, ?_⟩
    dsimp only
    rw [expect_cons (by decide)]
    rfl

def QueryExpr.Clean : QueryExpr → Prop
  | .comparison _ _ value => value.Clean
  | .range _ operator value =>
    if lowerText operator = ['i', 'n'] then value.Clean
    else match value with
      | .text text => '\\' ∉ text
      | .items values => ∀ v ∈ values, v.Clean
  | .json _ key _ value => '\\' ∉ key ∧ value.Clean
  | .array _ _ _ value => value.Clean
  | .textMatch _ value _ => '\\' ∉ value
  | .unary _ left => left.Clean
  | .logical _ left right => left.Clean ∧ right.Clean

theorem readFilter_condition (w : Word) {tail : Text} (hstops : Stops tail)
    (hnot : (skipSpaces tail).head? ≠ some '(' ∨ w.text ≠ ['n', 'o', 't']) :
    readFilter E (n + 1) (w.text ++ tail) = readCondition E w.text tail := by
  obtain ⟨c, cs, htext, hc⟩ := w.eq_cons
  rw [readFilter, w.skipSpaces]
  split
  · next h =>
    rw [htext] at h
    exact absurd (List.cons.inj h).1 (hc.ne (by decide))
  · rw [readWord_word w hstops, bind_some]
    exact if_neg fun h => hnot.elim (fun hne => hne h.2) fun hne => hne h.1

theorem readFilter_spaced (w operator : Word) (tail : Text) :
    readFilter E (n + 1) (w.text ++ ' ' :: (operator.text ++ tail)) =
      readCondition E w.text (' ' :: (operator.text ++ tail)) := by
  obtain ⟨c, cs, htext, hc⟩ := operator.eq_cons
  refine readFilter_condition w (stops_cons (by decide) _) (.inl ?_)
  rw [skipSpaces_space, operator.skipSpaces, htext]
  exact fun h => hc.ne (by decide) (Option.some.inj h)

theorem readFilter_bracket (w : Word) (tail : Text) :
    readFilter E (n + 1) (w.text ++ '[' :: tail) = readCondition E w.text ('[' :: tail) := by
  refine readFilter_condition w (stops_cons (by decide) _) (.inl ?_)
  rw [skipSpaces_of_ne (by decide)]
  exact fun h => absurd (Option.some.inj h) (by decide)

theorem readFilter_like {w : Word} (h : Stops rest) :
    readFilter E (n + 1) (w.text ++ " like ".toList ++ sanitizeStr v ++ rest) =
      some (.compare w.text ['l', 'i', 'k', 'e'] (.literal v), r) ↔ '\\' ∉ v ∧ r = rest := by
  have htext : w.text ++ " like ".toList ++ sanitizeStr v ++ rest =
      w.text ++ ' ' :: (Word.like.text ++ ' ' :: (valueText (.str v) ++ rest)) := by
    rw [append_assoc, append_assoc]
    rfl
  rw [htext, readFilter_spaced]
  exact readCondition_value (v := .str v) h

theorem textMatch_toList : "TEXT_MATCH(".toList = textMatchWord ++ ['('] := by decide

theorem milvusTextMatchFilter_exact (field : Word) (value rest : Text) :
    milvusTextMatchFilter field value .exact ++ rest = Word.textMatch.text ++ '(' ::
      (field.text ++ ',' :: ' ' :: (sanitizeStr value ++ ')' :: rest)) := by
  rw [milvusTextMatchFilter.eq_def, textMatch_toList]
  simp only [Word.textMatch, append_assoc, cons_append, nil_append]

theorem operator_chars {operator : Text}
    (h : lowerText operator = ['a', 'n', 'd'] ∨ lowerText operator = ['o', 'r']) :
    operator ≠ [] ∧ ∀ c ∈ operator, IsWordChar c := by
  constructor
  · rintro rfl
    rcases h with h | h <;> cases h
  · intro c hc hmem
    have hlower : (if c = '\u212a' then 'k' else c.toLower) ∈ lowerText operator :=
      mem_map.mpr ⟨c, hc, rfl⟩
    have hletters : ([' ', '"', '\\', '(', ')', '[', ']', ','].all fun d =>
        decide ((if d = '\u212a' then 'k' else d.toLower) ∉ ['a', 'n', 'd'] ++ ['o', 'r'])) =
          true := by decide
    refine of_decide_eq_true (all_eq_true.mp hletters c hmem) (mem_append.mpr ?_)
    rcases h with h | h
    · exact .inl (h ▸ hlower)
    · exact .inr (h ▸ hlower)

theorem readFilter_negation {text : Text} {tree : FilterTree} :
    readFilter E (n + 1) ("not (".toList ++ (text ++ [')']) ++ rest) = some (.negation tree, r) ↔
      ∃ t, readFilter E n (text ++ ')' :: rest) = some (tree, t) ∧ expect ')' t = some r := by
  have htext : "not (".toList ++ (text ++ [')']) ++ rest =
      ['n', 'o', 't'] ++ ' ' :: '(' :: (text ++ ')' :: rest) := by
    rw [append_assoc, append_assoc]
    rfl
  have hword := readWord_word ⟨['n', 'o', 't'], cons_ne_nil _ _, isWordChar_of_all rfl⟩
    (stops_cons (c := ' ') (by decide) ('(' :: (text ++ ')' :: rest)))
  rw [htext, readFilter, show skipSpaces (['n', 'o', 't'] ++ ' ' :: '(' :: (text ++ ')' :: rest)) =
    ['n', 'o', 't'] ++ ' ' :: '(' :: (text ++ ')' :: rest) from skipSpaces_of_ne (by decide) _]
  split
  · next h => exact absurd (List.cons.inj h).1 (by decide)
  · rw [hword, bind_some]
    dsimp only
    rw [skipSpaces_space, skipSpaces_of_ne (by decide), if_pos ⟨rfl, rfl⟩, expect_space,
      expect_cons (by decide), bind_some, bind_eq_some_iff]
    constructor
    · rintro ⟨⟨o, t⟩, hread, hmap⟩
      obtain ⟨t', hexpect, heq⟩ := map_eq_some_iff.mp hmap
      cases heq
      exact ⟨t, hread, hexpect⟩
    · rintro ⟨t, hread, hexpect⟩
      refine ⟨_, hread, ?_⟩
      dsimp only
      rw [hexpect]
      rfl

theorem readFilter_binary {l m : Text} {operator : Word} {left right : FilterTree} :
    readFilter E (n + 1) ('(' :: (l ++ ')' :: ' ' :: (operator.text ++ ' ' :: '(' ::
      (m ++ ')' :: rest)))) = some (.binary operator.text left right, r) ↔
      ∃ t, readFilter E n (l ++ ')' :: ' ' :: (operator.text ++ ' ' :: '(' ::
        (m ++ ')' :: rest))) = some (left, t) ∧ ∃ t', expect ')' t = some t' ∧
        ∃ t'', readWord t' = some (operator.text, t'') ∧ ∃ t₃, expect '(' t'' = some t₃ ∧
          ∃ t₄, readFilter E n t₃ = some (right, t₄) ∧ expect ')' t₄ = some r := by
  have hread := readFilter.eq_2 E ('(' :: (l ++ ')' :: ' ' :: (operator.text ++ ' ' :: '(' ::
    (m ++ ')' :: rest)))) n
  rw [skipSpaces_of_ne (by decide)] at hread
  rw [hread]
  refine bind_eq_some_iff.trans ?_
  constructor
  · rintro ⟨⟨o, t⟩, hleft, hnext⟩
    obtain ⟨t', hexpect, hnext⟩ := bind_eq_some_iff.mp hnext
    obtain ⟨⟨w, t''⟩, hword, hnext⟩ := bind_eq_some_iff.mp hnext
    obtain ⟨t₃, hopen, hnext⟩ := bind_eq_some_iff.mp hnext
    obtain ⟨⟨q, t₄⟩, hright, hnext⟩ := bind_eq_some_iff.mp hnext
    obtain ⟨t₅, hclose, heq⟩ := map_eq_some_iff.mp hnext
    cases heq
    exact ⟨t, hleft, t', hexpect, t'', hword, t₃, hopen, t₄, hright, hclose⟩
  · rintro ⟨t, hleft, t', hexpect, t'', hword, t₃, hopen, t₄, hright, hclose⟩
    refine ⟨_, hleft, bind_eq_some_iff.mpr ⟨_, hexpect, bind_eq_some_iff.mpr
      ⟨_, hword, bind_eq_some_iff.mpr ⟨_, hopen, bind_eq_some_iff.mpr
        ⟨_, hright, ?_⟩⟩⟩⟩⟩
    dsimp only
    rw [hclose]
    rfl

theorem closes_cons (rest : Text) : Closes (')' :: rest) := .inr ⟨rest, rfl⟩

theorem readFilter_toExpr {e : QueryExpr} {text : Text} (h : e.toExpr = .ok text)
    (hn : text.length < n) (hrest : Closes rest) :
    readFilter E n (text ++ rest) = some (e.tree, r) ↔ e.Clean ∧ r = rest := by
  obtain ⟨n, rfl⟩ := Nat.exists_eq_succ_of_ne_zero (by omega : n ≠ 0)
  induction e generalizing text n rest r with
  | comparison field operator value =>
    cases h
    rw [milvusComparisonFilter, append_assoc, cons_append, append_assoc,
      cons_append, readFilter_spaced]
    exact readCondition_value hrest.stops
  | range field operator value =>
    rw [QueryExpr.toExpr, milvusRangeFilter.eq_def] at h
    rw [QueryExpr.tree.eq_def, QueryExpr.Clean.eq_def]
    dsimp only
    split at h
    · next hin =>
      cases h
      rw [if_pos hin, if_pos hin]
      have htext : field.text ++ " in [".toList ++ (valuesStr value ++ [']']) ++ rest =
          field.text ++ ' ' ::
            (Word.isIn.text ++ ' ' :: '[' :: (valuesStr value ++ ']' :: rest)) := by
        rw [append_assoc, append_assoc, append_assoc]
        rfl
      rw [htext, readFilter_spaced]
      exact readCondition_in
    · next hin =>
      rw [if_neg hin, if_neg hin]
      split at h
      · cases value with
        | items values => cases h
        | text string =>
          dsimp only at h
          split at h
          · cases h
          · cases h
            exact readFilter_like hrest.stops
      · cases h
  | json field key operator value =>
    cases h
    have htext : milvusJsonFilter field key operator value ++ rest =
        field.text ++ '[' :: (valueText (.str key) ++ ']' :: ' ' ::
          (operator.text ++ ' ' :: (valueText value ++ rest))) := by
      simp [milvusJsonFilter, valueText]
    rw [htext, readFilter_bracket, QueryExpr.Clean, and_assoc]
    exact readCondition_key (.str key) hrest.stops
  | array field index operator value =>
    cases h
    cases index with
    | none =>
      have htext : milvusArrayFilter field none operator value ++ rest =
          field.text ++ ' ' :: (operator.text ++ ' ' :: (valueText value ++ rest)) := by
        simp [milvusArrayFilter]
      rw [htext, readFilter_spaced]
      exact readCondition_value hrest.stops
    | some index =>
      have htext : milvusArrayFilter field (some index) operator value ++ rest =
          field.text ++ '[' :: (valueText (.plain index) ++ ']' :: ' ' ::
            (operator.text ++ ' ' :: (valueText value ++ rest))) := by
        simp [milvusArrayFilter, valueText]
      rw [htext, readFilter_bracket]
      refine (readCondition_key (.plain index) hrest.stops).trans ?_
      rw [QueryExpr.Clean, Value.Clean, true_and]
  | textMatch field value mode =>
    cases h
    have hpattern : ∀ mode : MatchMode, '\\' ∉ mode.pattern value ↔ '\\' ∉ value := by
      intro mode
      cases mode <;> simp [MatchMode.pattern]
    cases mode with
    | exact =>
      have hword := readFilter_condition (E := E) (n := n)
        Word.textMatch (stops_cons (c := '(') (by decide) (field.text ++ ',' :: ' ' ::
          (sanitizeStr value ++ ')' :: rest))) (.inr (by decide))
      rw [milvusTextMatchFilter_exact, hword]
      exact readCondition_exact
    | leading => exact (readFilter_like hrest.stops).trans (and_congr_left' (hpattern .leading))
    | trailing => exact (readFilter_like hrest.stops).trans (and_congr_left' (hpattern .trailing))
    | inner => exact (readFilter_like hrest.stops).trans (and_congr_left' (hpattern .inner))
  | unary operator left ih =>
    rw [QueryExpr.toExpr] at h
    split at h
    · cases hl : left.toExpr with
      | error e => rw [hl] at h; cases h
      | ok l =>
        rw [hl] at h
        cases h
        have hlength : l.length + 1 ≤ n := by
          simp only [length_append] at hn
          have : ("not (".toList).length = 5 := rfl
          omega
        obtain ⟨n, rfl⟩ := Nat.exists_eq_succ_of_ne_zero (by omega : n ≠ 0)
        rw [QueryExpr.tree, QueryExpr.Clean, readFilter_negation]
        constructor
        · rintro ⟨t, hread, hexpect⟩
          obtain ⟨hclean, rfl⟩ := (ih hl (closes_cons rest) n (by omega)).mp hread
          rw [expect_cons (by decide)] at hexpect
          exact ⟨hclean, (Option.some.inj hexpect).symm⟩
        · rintro ⟨hclean, rfl⟩
          exact ⟨_, (ih hl (closes_cons r) n (by omega)).mpr ⟨hclean, rfl⟩,
            expect_cons (by decide) r⟩
    · split at h <;> cases h
  | logical operator left right ihl ihr =>
    rw [QueryExpr.toExpr] at h
    split at h
    · cases h
    · split at h
      · next hop =>
        obtain ⟨hne, hchars⟩ := operator_chars hop
        cases hl : left.toExpr with
        | error e => rw [hl] at h; cases h
        | ok l =>
          cases hr : right.toExpr with
          | error e => rw [hl, hr] at h; cases h
          | ok m =>
            rw [hl, hr] at h
            cases h
            have hlength : l.length + 1 ≤ n ∧ m.length + 1 ≤ n := by
              simp only [length_append, length_cons] at hn
              omega
            obtain ⟨n, rfl⟩ := Nat.exists_eq_succ_of_ne_zero (by omega : n ≠ 0)
            set w : Word := ⟨operator, hne, hchars⟩ with hw
            have htext : '(' :: (l ++ ')' :: ' ' :: (operator ++ ' ' :: '(' :: (m ++ [')']))) ++
                rest = '(' :: (l ++ ')' :: ' ' ::
                  (w.text ++ ' ' :: '(' :: (m ++ ')' :: rest))) := by
              simp [hw]
            have hword := readWord_word w
              (stops_cons (c := ' ') (by decide) ('(' :: (m ++ ')' :: rest)))
            rw [htext, QueryExpr.tree, QueryExpr.Clean]
            refine readFilter_binary.trans ?_
            constructor
            · rintro ⟨t, hleft, t', hexpect, t'', hop, t₃, hopen, t₄, hright, hclose⟩
              obtain ⟨hcleanl, rfl⟩ := (ihl hl (closes_cons _) n (by omega)).mp hleft
              rw [expect_cons (by decide)] at hexpect
              cases hexpect
              rw [readWord_space, hword] at hop
              cases hop
              rw [expect_space, expect_cons (by decide)] at hopen
              cases hopen
              obtain ⟨hcleanr, rfl⟩ := (ihr hr (closes_cons _) n (by omega)).mp hright
              rw [expect_cons (by decide)] at hclose
              exact ⟨⟨hcleanl, hcleanr⟩, (Option.some.inj hclose).symm⟩
            · rintro ⟨⟨hcleanl, hcleanr⟩, rfl⟩
              refine ⟨_, (ihl hl (closes_cons _) n (by omega)).mpr ⟨hcleanl, rfl⟩, _,
                expect_cons (by decide) _, _, (readWord_space _).trans hword, _,
                (expect_space _ _).trans (expect_cons (by decide) _), _,
                (ihr hr (closes_cons _) n (by omega)).mpr ⟨hcleanr, rfl⟩,
                expect_cons (by decide) _⟩
      · cases h

/-- The text of a filter is read as the tree of its expression, each string one literal, just where
the strings of the expression are clean. -/
theorem parseFilter_toExpr (E : Escapes) (e : QueryExpr) (text : Text) (h : e.toExpr = .ok text) :
    parseFilter E text = some e.tree ↔ e.Clean := by
  have hread : ∀ r, readFilter E (text.length + 1) (text ++ []) = some (e.tree, r) ↔
      e.Clean ∧ r = [] := fun r => readFilter_toExpr h (Nat.lt_succ_self text.length) (.inl rfl)
  rw [append_nil] at hread
  rw [parseFilter]
  constructor
  · intro hparse
    split at hparse
    · next tree heq =>
      rw [Option.some.inj hparse] at heq
      exact ((hread []).mp heq).1
    · cases hparse
  · intro hclean
    rw [(hread []).mpr ⟨hclean, rfl⟩]

def Escapes.common : Escapes where
  unescape c := if c = '"' ∨ c = '\\' then some c else if c = 'n' then some '\n' else none
  quote := rfl
  backslash := rfl
  only c h := by
    split at h
    · exact Option.some.inj h
    · split at h
      · exact absurd (Option.some.inj h) (by decide)
      · cases h
  plain s hs := by
    have hs' : s = ',' ∨ s = ']' := by simpa using hs
    refine ⟨by rcases hs' with rfl | rfl <;> rfl, fun c h => ?_⟩
    split at h
    · next hc =>
      cases h
      rcases hs' with rfl | rfl <;> exact absurd hc (by decide)
    · split at h
      · rw [← Option.some.inj h] at hs'
        exact absurd hs' (by decide)
      · cases h

/-- The field `user_id`. -/
def Word.userId : Word :=
  ⟨['u', 's', 'e', 'r', '_', 'i', 'd'], cons_ne_nil _ _, isWordChar_of_all rfl⟩

/-- The literal of a user that is one backslash does not end. -/
theorem user_backslash : ¬ ∀ (E : Escapes) (e : QueryExpr) (text : Text), e.toExpr = .ok text →
    parseFilter E text = some e.tree := by
  intro h
  have htree := h Escapes.common (filterUser [['\\']] Word.userId) _ rfl
  have hnone : readFilter Escapes.common 15
    (milvusComparisonFilter Word.userId Word.equals (.str ['\\'])) = none := by decide
  cases htree.symm.trans (parseFilter_eq_none (n := 15) rfl hnone)

theorem user_quoted : parseFilter Escapes.common
    (milvusComparisonFilter Word.userId Word.equals (.str ['a', '"', 'b'])) =
      some (.compare Word.userId.text Word.equals.text (.literal ['a', '"', 'b'])) :=
  (parseFilter_toExpr Escapes.common (.comparison Word.userId Word.equals (.str ['a', '"', 'b'])) _
    rfl).mpr (show '\\' ∉ ['a', '"', 'b'] by decide)

end JiuwenSpec.Store

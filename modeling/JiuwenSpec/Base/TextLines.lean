import Mathlib.Data.List.DropRight
import JiuwenSpec.Base.Json

/-!
# Lines of a text

Python's `str.splitlines` and `str.strip`.
-/

namespace JiuwenSpec.Base

open List

/-- The line boundaries of `str.splitlines`. -/
def IsLineBreak (c : Char) : Prop :=
  c.toNat ∈ [0xa, 0xb, 0xc, 0xd, 0x1c, 0x1d, 0x1e, 0x85, 0x2028, 0x2029]

instance (c : Char) : Decidable (IsLineBreak c) :=
  inferInstanceAs (Decidable (c.toNat ∈ [0xa, 0xb, 0xc, 0xd, 0x1c, 0x1d, 0x1e, 0x85, 0x2028, 0x2029]))

/-- `str.isspace`, for one character. -/
def IsSpace (c : Char) : Prop :=
  c.toNat ∈ [0x9, 0xa, 0xb, 0xc, 0xd, 0x1c, 0x1d, 0x1e, 0x1f, 0x20, 0x85, 0xa0, 0x1680, 0x2000,
    0x2001, 0x2002, 0x2003, 0x2004, 0x2005, 0x2006, 0x2007, 0x2008, 0x2009, 0x200a, 0x2028, 0x2029,
    0x202f, 0x205f, 0x3000]

instance (c : Char) : Decidable (IsSpace c) :=
  inferInstanceAs (Decidable (c.toNat ∈ [0x9, 0xa, 0xb, 0xc, 0xd, 0x1c, 0x1d, 0x1e, 0x1f, 0x20, 0x85,
    0xa0, 0x1680, 0x2000, 0x2001, 0x2002, 0x2003, 0x2004, 0x2005, 0x2006, 0x2007, 0x2008, 0x2009,
    0x200a, 0x2028, 0x2029, 0x202f, 0x205f, 0x3000]))

/-- `str.splitlines`: a carriage return and the newline behind it are one boundary, and no line
is left behind the last boundary. -/
def splitLines : Text → List Text
  | [] => []
  | '\r' :: '\n' :: rest => [] :: splitLines rest
  | c :: rest =>
    if IsLineBreak c then [] :: splitLines rest
    else
      match splitLines rest with
      | [] => [[c]]
      | line :: lines => (c :: line) :: lines

/-- `str.strip`. -/
def strip (text : Text) : Text :=
  (text.dropWhile fun c => decide (IsSpace c)).rdropWhile fun c => decide (IsSpace c)

@[simp] theorem splitLines_nil : splitLines [] = [] := rfl

theorem splitLines_cons {c : Char} {rest : Text} (h : ¬ IsLineBreak c) :
    splitLines (c :: rest) =
      match splitLines rest with
      | [] => [[c]]
      | line :: lines => (c :: line) :: lines := by
  rw [splitLines.eq_def]
  split
  · next heq => cases heq
  · next heq =>
    cases heq
    exact absurd h (by decide)
  · next heq =>
    cases heq
    exact if_neg h

theorem splitLines_break {c : Char} {rest : Text} (h : IsLineBreak c) (hc : c ≠ '\r') :
    splitLines (c :: rest) = [] :: splitLines rest := by
  rw [splitLines.eq_def]
  split
  · next heq => cases heq
  · next heq =>
    cases heq
    exact absurd rfl hc
  · next heq =>
    cases heq
    exact if_pos h

theorem splitLines_line {a b : Text} {c : Char} (ha : ∀ x ∈ a, ¬ IsLineBreak x)
    (h : IsLineBreak c) (hc : c ≠ '\r') : splitLines (a ++ c :: b) = a :: splitLines b := by
  induction a with
  | nil => exact splitLines_break h hc
  | cons x a ih =>
    have hx := ha x (.head _)
    rw [cons_append, splitLines_cons hx, ih fun y hy => ha y (mem_cons_of_mem _ hy)]

theorem splitLines_unbroken {a : Text} (ha : ∀ x ∈ a, ¬ IsLineBreak x) (hne : a ≠ []) :
    splitLines a = [a] := by
  induction a with
  | nil => exact absurd rfl hne
  | cons x a ih =>
    rw [splitLines_cons (ha x mem_cons_self)]
    cases a with
    | nil => rfl
    | cons y a => rw [ih (fun z hz => ha z (mem_cons_of_mem _ hz)) (cons_ne_nil _ _)]

@[elab_as_elim] theorem line_induction {P : Text → Prop} (text : Text)
    (last : ∀ a, (∀ x ∈ a, ¬ IsLineBreak x) → P a)
    (line : ∀ a c rest, (∀ x ∈ a, ¬ IsLineBreak x) → IsLineBreak c → P rest →
      P (a ++ c :: rest)) : P text := by
  have hall : ∀ a, (∀ x ∈ a, ¬ IsLineBreak x) → P (a ++ text) := by
    induction text with
    | nil =>
      intro a ha
      rw [append_nil]
      exact last a ha
    | cons c rest ih =>
      intro a ha
      by_cases hc : IsLineBreak c
      · exact line a c rest ha hc (ih [] (by simp))
      · have hac : ∀ x ∈ a ++ [c], ¬ IsLineBreak x := by
          intro x hx
          rcases mem_append.mp hx with hx | hx
          · exact ha x hx
          · exact mem_singleton.mp hx ▸ hc
        have hP := ih (a ++ [c]) hac
        rwa [append_assoc] at hP
  exact hall [] (by simp)

theorem filterMap_splitLines_newline {β : Type} {f : Text → Option β} (hf : f [] = none)
    {a : Text} (ha : '\r' ∉ a) (b : Text) : (splitLines (a ++ '\n' :: b)).filterMap f =
      (splitLines a).filterMap f ++ (splitLines b).filterMap f := by
  induction a using line_induction with
  | last a hunbroken =>
    rw [splitLines_line hunbroken (by decide) (by decide)]
    by_cases hne : a = []
    · rw [hne, splitLines_nil, filterMap_cons_none hf]
      rfl
    · rw [splitLines_unbroken hunbroken hne, ← singleton_append, filterMap_append]
  | line a c rest hunbroken hc ih =>
    have hcr : c ≠ '\r' := fun h => ha (by simp [h])
    have hrest : '\r' ∉ rest := fun h => ha (by simp [h])
    rw [append_assoc, cons_append, splitLines_line hunbroken hc hcr,
      splitLines_line hunbroken hc hcr, ← singleton_append, filterMap_append, ih hrest,
      ← append_assoc, ← filterMap_append, singleton_append]

theorem exists_strip (text : Text) : ∃ front back, text = front ++ strip text ++ back ∧
    (∀ c ∈ front, IsSpace c) ∧ ∀ c ∈ back, IsSpace c := by
  refine ⟨text.takeWhile fun c => decide (IsSpace c),
    (text.dropWhile fun c => decide (IsSpace c)).rtakeWhile fun c => decide (IsSpace c), ?_, ?_, ?_⟩
  · rw [append_assoc, strip, rdropWhile_append_rtakeWhile,
      takeWhile_append_dropWhile]
  · intro c hc
    simpa using mem_takeWhile_imp hc
  · intro c hc
    simpa using mem_rtakeWhile_imp hc

theorem strip_cons_concat {a b : Char} (ha : ¬ IsSpace a) (hb : ¬ IsSpace b) (text : Text) :
    strip (a :: (text ++ [b])) = a :: (text ++ [b]) := by
  rw [strip, dropWhile_cons_of_neg (by simpa using ha), ← cons_append,
    rdropWhile_concat_neg _ _ _ (by simpa using hb)]

theorem strip_append_of_space {front : Text} (h : ∀ c ∈ front, IsSpace c) (text : Text) :
    strip (front ++ text) = strip text := by
  rw [strip, dropWhile_append_of_pos (by simpa using h)]
  rfl

theorem strip_strip (text : Text) : strip (strip text) = strip text := by
  have hfront : (strip text).dropWhile (fun c => decide (IsSpace c)) = strip text := by
    rw [dropWhile_eq_self_iff]
    intro hlength
    -- The first character that is left is the first one behind the space in front.
    have hstart : strip text <+: text.dropWhile fun c => decide (IsSpace c) :=
      rdropWhile_prefix _ _
    rw [hstart.getElem hlength]
    exact dropWhile_get_zero_not _ _ (hlength.trans_le hstart.length_le)
  rw [strip, hfront]
  exact rdropWhile_idempotent _ _

/-!
## Lines with their ends

`str.splitlines` with `keepends`: the lines of a text, each with its boundary.
-/

/-- `str.splitlines(keepends=True)`. -/
def splitLinesKeep : Text → List Text
  | [] => []
  | '\r' :: '\n' :: rest => ['\r', '\n'] :: splitLinesKeep rest
  | c :: rest =>
    if IsLineBreak c then [c] :: splitLinesKeep rest
    else
      match splitLinesKeep rest with
      | [] => [[c]]
      | line :: lines => (c :: line) :: lines

theorem splitLinesKeep_cons {c : Char} {rest : Text} (h : ¬ IsLineBreak c) :
    splitLinesKeep (c :: rest) =
      match splitLinesKeep rest with
      | [] => [[c]]
      | line :: lines => (c :: line) :: lines := by
  have hc : c ≠ '\r' := by
    rintro rfl
    exact h (by decide)
  rw [splitLinesKeep.eq_def]
  split
  · next heq => cases heq
  · next heq => exact absurd (List.cons.inj heq).1 hc
  · next heq =>
    obtain ⟨rfl, rfl⟩ := List.cons.inj heq
    rw [if_neg h]

theorem splitLinesKeep_newline (rest : Text) :
    splitLinesKeep ('\n' :: rest) = ['\n'] :: splitLinesKeep rest := by
  rw [splitLinesKeep.eq_def]
  split
  · next heq => cases heq
  · next heq => exact absurd (List.cons.inj heq).1 (by decide)
  · next heq =>
    obtain ⟨rfl, rfl⟩ := List.cons.inj heq
    rw [if_pos (by decide)]

theorem splitLinesKeep_line {line : Text} (h : ∀ c ∈ line, ¬ IsLineBreak c) (rest : Text) :
    splitLinesKeep (line ++ '\n' :: rest) = (line ++ ['\n']) :: splitLinesKeep rest := by
  induction line with
  | nil => exact splitLinesKeep_newline rest
  | cons c line ih =>
    rw [cons_append, splitLinesKeep_cons (h c mem_cons_self),
      ih fun c hc => h c (.tail _ hc)]
    rfl

theorem flatten_splitLinesKeep (text : Text) : (splitLinesKeep text).flatten = text := by
  fun_induction splitLinesKeep text with
  | case1 => rfl
  | case2 rest ih => rw [flatten_cons, ih]; rfl
  | case3 c rest _ _ ih => rw [flatten_cons, ih]; rfl
  | case4 c rest _ _ heq ih =>
    rw [heq, flatten_nil] at ih
    rw [← ih]
    rfl
  | case5 c rest _ _ line lines heq ih =>
    rw [heq] at ih
    rw [← ih]
    rfl

theorem splitLinesKeep_lines {lines : List Text} (h : ∀ line ∈ lines, ∀ c ∈ line, ¬ IsLineBreak c)
    (rest : Text) : splitLinesKeep ((lines.map (· ++ ['\n'])).flatten ++ rest) =
      lines.map (· ++ ['\n']) ++ splitLinesKeep rest := by
  induction lines with
  | nil => rfl
  | cons line lines ih =>
    rw [map_cons, flatten_cons, append_assoc, append_assoc,
      singleton_append, splitLinesKeep_line (h line (.head _)),
      ih fun l hl => h l (.tail _ hl)]
    rfl

theorem splitLines_lines {lines : List Text} (h : ∀ line ∈ lines, ∀ c ∈ line, ¬ IsLineBreak c)
    (rest : Text) : splitLines ((lines.map (· ++ ['\n'])).flatten ++ rest) =
      lines ++ splitLines rest := by
  induction lines with
  | nil => rfl
  | cons line lines ih =>
    rw [map_cons, flatten_cons, append_assoc, append_assoc,
      singleton_append, splitLines_line (h line (.head _)) (by decide) (by decide),
      ih fun l hl => h l (.tail _ hl)]
    rfl

/-!
## Text files

Python writes a text with its newlines as they are and reads every line end as a newline, so a
text comes back as it was where it has no carriage return.
-/

def universalNewlines : Text → Text
  | [] => []
  | '\r' :: '\n' :: rest => '\n' :: universalNewlines rest
  | c :: rest => (if c = '\r' then '\n' else c) :: universalNewlines rest

@[simp] theorem universalNewlines_nil : universalNewlines [] = [] := rfl

theorem universalNewlines_cons {c : Char} {rest : Text} (h : c ≠ '\r') :
    universalNewlines (c :: rest) = c :: universalNewlines rest := by
  rw [universalNewlines.eq_def]
  split
  · next heq => cases heq
  · next heq => exact absurd (List.cons.inj heq).1 h
  · next heq =>
    obtain ⟨rfl, rfl⟩ := List.cons.inj heq
    rw [if_neg h]

theorem universalNewlines_append {text : Text} (h : '\r' ∉ text) (rest : Text) :
    universalNewlines (text ++ rest) = text ++ universalNewlines rest := by
  induction text with
  | nil => rfl
  | cons c text ih =>
    rw [mem_cons, not_or] at h
    rw [cons_append, universalNewlines_cons (Ne.symm h.1), ih h.2]
    rfl

theorem return_not_mem_universalNewlines (text : Text) : '\r' ∉ universalNewlines text := by
  fun_induction universalNewlines text with
  | case1 => exact not_mem_nil
  | case2 rest ih =>
    rw [mem_cons, not_or]
    exact ⟨by decide, ih⟩
  | case3 c rest _ ih =>
    rw [mem_cons, not_or]
    refine ⟨fun h => ?_, ih⟩
    split at h
    · exact absurd h (by decide)
    · next hne => exact hne h.symm

theorem universalNewlines_eq_iff (text : Text) : universalNewlines text = text ↔ '\r' ∉ text := by
  constructor
  · intro h
    rw [← h]
    exact return_not_mem_universalNewlines text
  · intro h
    induction text with
    | nil => rfl
    | cons c rest ih =>
      rw [mem_cons, not_or] at h
      rw [universalNewlines_cons (Ne.symm h.1), ih h.2]

end JiuwenSpec.Base

import JiuwenSpec.Base.TextLines

/-!
# Words of a text

The words of a text are the runs between its blanks, as Python's `str.split` gives them. A blank
splits a text into two with the words of both, and stripping a text keeps its words.
-/

namespace JiuwenSpec.Base

open List

/-- `str.split`. -/
def words (text : Text) : List Text :=
  (text.splitOnP fun c => decide (IsSpace c)).filter (· ≠ [])

variable {a b text : Text} {c : Char}

@[simp] theorem words_nil : words [] = [] := rfl

/-- A blank ends a word. -/
theorem words_append_cons (hc : IsSpace c) : words (a ++ c :: b) = words a ++ words b := by
  rw [words, splitOnP_append_cons a b (decide_eq_true hc), filter_append, words, words]

theorem words_cons (hc : IsSpace c) : words (c :: text) = words text := words_append_cons (a := []) hc

theorem words_concat (hc : IsSpace c) : words (text ++ [c]) = words text := by
  rw [words_append_cons hc, words_nil, append_nil]

/-- A text that ends in a blank, and one that is put behind it. -/
theorem words_append (ha : a = [] ∨ ∃ a' c, a = a' ++ [c] ∧ IsSpace c) :
    words (a ++ b) = words a ++ words b := by
  rcases ha with rfl | ⟨a', c, rfl, hc⟩
  · rfl
  · rw [append_assoc, singleton_append, words_append_cons hc, words_concat hc]

theorem words_word (hne : text ≠ []) (h : ∀ c ∈ text, ¬ IsSpace c) : words text = [text] := by
  rw [words, splitOnP_eq_singleton fun c hc => decide_eq_false (h c hc)]
  simp [hne]

theorem words_dropWhile : words (text.dropWhile fun c => decide (IsSpace c)) = words text := by
  induction text with
  | nil => rfl
  | cons c text ih =>
    rw [dropWhile_cons]
    split
    · next hc => rw [ih, words_cons (of_decide_eq_true hc)]
    · rfl

theorem words_rdropWhile : words (text.rdropWhile fun c => decide (IsSpace c)) = words text := by
  induction text using reverseRecOn with
  | nil => rfl
  | append_singleton text c ih =>
    by_cases hc : IsSpace c
    · rw [rdropWhile_concat, if_pos (decide_eq_true hc), ih, words_concat hc]
    · rw [rdropWhile_concat, if_neg (by simpa using hc)]

theorem words_strip : words (strip text) = words text := words_rdropWhile.trans words_dropWhile

end JiuwenSpec.Base

import JiuwenSpec.Base.JsonRoundTrip

/-!
# JSON strings in ASCII

Strings as `json.dumps` writes them by default, every character outside ASCII by its code units.
-/

namespace JiuwenSpec.Base

open List

def escapeUnit (n : Nat) : Text :=
  ['\\', 'u', hexDigit (n / 4096), hexDigit (n / 256 % 16), hexDigit (n / 16 % 16),
    hexDigit (n % 16)]

/-- The escape of a character, by a surrogate pair from `0x10000` on. -/
def escapeAscii (c : Char) : Text :=
  if c.toNat < 0x7f then escapeChar c
  else if c.toNat < 0x10000 then escapeUnit c.toNat
  else
    escapeUnit (0xd800 + (c.toNat - 0x10000) / 0x400) ++
      escapeUnit (0xdc00 + (c.toNat - 0x10000) % 0x400)

/-- `encode_basestring_ascii`. -/
def quoteAscii (s : Text) : Text := '"' :: s.flatMap escapeAscii ++ ['"']

private theorem hexValue_digit {n : Nat} (hn : n < 16) : hexValue (hexDigit n) = some n := by
  have hall : ∀ m : Fin 16, hexValue (hexDigit m) = some m.val := by decide
  exact hall ⟨n, hn⟩

theorem hexCode_unit {n : Nat} (hn : n < 0x10000) :
    hexCode (hexDigit (n / 4096)) (hexDigit (n / 256 % 16)) (hexDigit (n / 16 % 16))
      (hexDigit (n % 16)) = some n := by
  rw [hexCode, hexValue_digit (by omega), hexValue_digit (by omega), hexValue_digit (by omega),
    hexValue_digit (by omega)]
  show some (_ : Nat) = some n
  congr 1
  omega

theorem charOfCode_toNat (c : Char) : charOfCode c.toNat = some c := by
  have hvalid : c.toNat.isValidChar := c.valid
  rw [charOfCode, if_pos hvalid, Char.ofNat_toNat]

theorem scanString_escapeUnit {c : Char} (hc : c.toNat < 0x10000) (rest : Text) :
    scanString (escapeUnit c.toNat ++ rest) = push c (scanString rest) := by
  rw [escapeUnit, cons_append, cons_append, cons_append, cons_append,
    cons_append, cons_append, nil_append, scanString]
  simp only [hexCode_unit hc, charOfCode_toNat]

theorem scanString_pair {high low : Nat} {c : Char} (hhigh : high < 0x10000) (hlow : low < 0x10000)
    (hnone : charOfCode high = none) (hjoin : joinSurrogates high low = some c) (rest : Text) :
    scanString (escapeUnit high ++ (escapeUnit low ++ rest)) = push c (scanString rest) := by
  simp only [escapeUnit, cons_append, nil_append]
  rw [scanString]
  simp only [hexCode_unit hhigh, hnone, hexCode_unit hlow, Option.bind_some, hjoin]

theorem charOfCode_surrogate {n : Nat} (h : 0xd800 ≤ n) (h' : n < 0xe000) :
    charOfCode n = none := by
  rw [charOfCode, if_neg]
  rintro (hn | hn)
  · omega
  · omega

theorem joinSurrogates_toNat {c : Char} {high low : Nat}
    (hc : c.toNat = 0x10000 + high * 0x400 + low) (hhigh : high < 0x400) (hlow : low < 0x400) :
    joinSurrogates (0xd800 + high) (0xdc00 + low) = some c := by
  have hcode : 0x10000 + (0xd800 + high - 0xd800) * 0x400 + (0xdc00 + low - 0xdc00) = c.toNat := by
    omega
  rw [joinSurrogates, if_pos (by omega), hcode, Char.ofNat_toNat]

theorem scanString_surrogates {c : Char} (hc : ¬ c.toNat < 0x10000) (rest : Text) :
    scanString (escapeUnit (0xd800 + (c.toNat - 0x10000) / 0x400) ++
      (escapeUnit (0xdc00 + (c.toNat - 0x10000) % 0x400) ++ rest)) = push c (scanString rest) := by
  have hbound : c.toNat < 0x110000 := by
    rcases c.valid with h | h
    · exact Nat.lt_trans h (by decide)
    · exact h.2
  refine scanString_pair (by omega) (by omega) (charOfCode_surrogate (by omega) (by omega))
    (joinSurrogates_toNat (by omega) (by omega) (by omega)) rest

theorem scanString_escapeAscii (c : Char) (rest : Text) :
    scanString (escapeAscii c ++ rest) = push c (scanString rest) := by
  rw [escapeAscii]
  split
  · exact scanString_escapeChar c rest
  · split
    · next hc => exact scanString_escapeUnit hc rest
    · next hc =>
      rw [append_assoc]
      exact scanString_surrogates hc rest

theorem scanString_quotedAscii (s rest : Text) :
    scanString (s.flatMap escapeAscii ++ '"' :: rest) = some (s, rest) := by
  induction s with
  | nil => rfl
  | cons c s ih =>
    rw [flatMap_cons, append_assoc, scanString_escapeAscii, ih]
    rfl

/-- An object of two members, a string and a number or `null`, in ASCII. -/
def dumpsPair (k s j : Text) (number : Option Numeral) : Text :=
  '{' :: (quoteAscii k ++ ':' :: ' ' :: (quoteAscii s ++ ',' :: ' ' :: (quoteAscii j ++
    ':' :: ' ' :: ((number.elim Literal.null.text Numeral.text) ++ ['}']))))

/-- `null` or a number, as a value. -/
def numberOrNull (number : Option Numeral) : Json := number.elim (.literal .null) .number

private theorem skipBlanks_mark {c : Char} (hc : ¬ IsBlank c) (rest : Text) :
    skipBlanks (c :: rest) = c :: rest := by
  rw [skipBlanks, dropWhile_cons_of_neg]
  simpa using hc

private theorem scanValue_numberOrNull (n : Nat) (number : Option Numeral) (rest : Text) :
    scanValue (n + 1) (number.elim Literal.null.text Numeral.text ++ '}' :: rest) =
      some (numberOrNull number, '}' :: rest) := by
  cases number with
  | none => rfl
  | some numeral =>
    refine scanValue_numeral n numeral fun c hc => stops_punctuation (.inr (.inr ?_))
    exact (Option.some.inj hc).symm

private theorem skipBlanks_numberOrNull (number : Option Numeral) (rest : Text) :
    skipBlanks (number.elim Literal.null.text Numeral.text ++ rest) =
      number.elim Literal.null.text Numeral.text ++ rest := by
  cases number with
  | none => rfl
  | some numeral =>
    rcases numeral_head numeral with ⟨c, text, hc, htext⟩ | ⟨c, text, -, htext⟩
    · have hblank : ¬ IsBlank c := by
        rintro (rfl | rfl | rfl | rfl)
        all_goals exact absurd hc (by decide)
      show skipBlanks (numeral.text ++ rest) = numeral.text ++ rest
      rw [htext]
      exact skipBlanks_mark hblank _
    · show skipBlanks (numeral.text ++ rest) = numeral.text ++ rest
      rw [htext]
      exact skipBlanks_mark (by decide) _

private theorem quoteAscii_append (k rest : Text) :
    quoteAscii k ++ rest = '"' :: (k.flatMap escapeAscii ++ '"' :: rest) := by
  simp [quoteAscii]

private theorem scanMembers_comma {n : Nat} {k text rest : Text} {v : Json}
    (hv : scanValue n (skipBlanks text) = some (v, ',' :: rest)) :
    scanMembers (n + 1) (quoteAscii k ++ ':' :: ' ' :: text) =
      (scanMembers n (skipBlanks rest)).map fun p => ((k, v) :: p.1, p.2) := by
  have hk := scanString_quotedAscii k (':' :: ' ' :: text)
  rw [quoteAscii_append, scanMembers, hk]
  simp only [skipBlanks_mark (c := ':') (by decide), skipBlanks_space, hv,
    skipBlanks_mark (c := ',') (by decide)]

private theorem scanMembers_close {n : Nat} {k text rest : Text} {v : Json}
    (hv : scanValue n (skipBlanks text) = some (v, '}' :: rest)) :
    scanMembers (n + 1) (quoteAscii k ++ ':' :: ' ' :: text) = some ([(k, v)], rest) := by
  have hk := scanString_quotedAscii k (':' :: ' ' :: text)
  rw [quoteAscii_append, scanMembers, hk]
  simp only [skipBlanks_mark (c := ':') (by decide), skipBlanks_space, hv,
    skipBlanks_mark (c := '}') (by decide)]

theorem loads_dumpsPair {k j : Text} (hkj : k ≠ j) (s : Text) (number : Option Numeral) :
    loads (dumpsPair k s j number) =
      some (.object [(k, .string s), (j, numberOrNull number)]) := by
  have hquote : ∀ t rest : Text, skipBlanks (quoteAscii t ++ rest) = quoteAscii t ++ rest :=
    fun _ _ => rfl
  have hstring : ∀ (n : Nat) (rest : Text),
      scanValue (n + 1) (quoteAscii s ++ rest) = some (.string s, rest) := by
    intro n rest
    have hs := scanString_quotedAscii s rest
    show scanValue (n + 1) ('"' :: (s.flatMap escapeAscii ++ ['"'] ++ rest)) = _
    rw [append_assoc, singleton_append, scanValue, hs]
    rfl
  have hmembers : ∀ n : Nat, scanMembers (n + 3) (quoteAscii k ++ ':' :: ' ' :: (quoteAscii s ++
      ',' :: ' ' :: (quoteAscii j ++ ':' :: ' ' ::
        ((number.elim Literal.null.text Numeral.text) ++ ['}'])))) =
      some ([(k, .string s), (j, numberOrNull number)], []) := by
    intro n
    have hlast : scanMembers (n + 2) (quoteAscii j ++ ':' :: ' ' ::
        ((number.elim Literal.null.text Numeral.text) ++ ['}'])) =
        some ([(j, numberOrNull number)], []) := by
      refine scanMembers_close ?_
      rw [skipBlanks_numberOrNull]
      exact scanValue_numberOrNull n number []
    rw [scanMembers_comma (by rw [hquote]; exact hstring _ _), skipBlanks_space, hquote, hlast]
    rfl
  have hnodup : ([(k, Json.string s), (j, numberOrNull number)].map Prod.fst).Nodup := by
    simp [hkj]
  have hlength : ∃ n, 2 * (dumpsPair k s j number).length + 1 = n + 4 := by
    refine ⟨2 * (dumpsPair k s j number).length - 3, ?_⟩
    have hlong : 4 ≤ (dumpsPair k s j number).length := by
      simp only [dumpsPair, quoteAscii, length_cons, length_append]
      omega
    omega
  obtain ⟨n, hn⟩ := hlength
  rw [loads, hn, dumpsPair, skipBlanks_mark (by decide)]
  have hopen : scanValue (n + 4) ('{' :: (quoteAscii k ++ ':' :: ' ' :: (quoteAscii s ++
      ',' :: ' ' :: (quoteAscii j ++ ':' :: ' ' ::
        ((number.elim Literal.null.text Numeral.text) ++ ['}']))))) =
      (scanMembers (n + 3) (quoteAscii k ++ ':' :: ' ' :: (quoteAscii s ++
        ',' :: ' ' :: (quoteAscii j ++ ':' :: ' ' ::
          ((number.elim Literal.null.text Numeral.text) ++ ['}']))))).map
        fun p => (.object (Dict.ofPairs p.1).entries, p.2) := rfl
  rw [hopen, hmembers, Option.map_some, entries_ofPairs hnodup]
  rfl

end JiuwenSpec.Base

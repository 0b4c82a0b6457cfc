import JiuwenSpec.Base.Json

/-!
# JSON round trip

What `dumps` prints `loads` reads back, for every value whose objects list no key twice.
-/

namespace JiuwenSpec.Base

open List Option

private theorem char_eq_of_toNat {c : Char} {n : Nat} (h : c.toNat = n) : Char.ofNat n = c := by
  rw [← h]
  exact Char.ofNat_toNat c

private theorem hexValue_hexDigit : ∀ n : Fin 16, hexValue (hexDigit n) = some n.val := by
  decide

private theorem hexCode_zeros {a b : Char} {m n : Nat} (ha : hexValue a = some m)
    (hb : hexValue b = some n) : hexCode '0' '0' a b = some (m * 16 + n) := by
  have hzero : hexValue '0' = some 0 := rfl
  simp [hexCode, hzero, ha, hb]

private theorem charOfCode_escape {c : Char} (h : c.toNat < 0x20) :
    (hexCode '0' '0' (hexDigit (c.toNat / 16)) (hexDigit (c.toNat % 16))).bind charOfCode =
      some c := by
  have hhigh := hexValue_hexDigit ⟨c.toNat / 16, by omega⟩
  have hlow := hexValue_hexDigit ⟨c.toNat % 16, by omega⟩
  have hcode : c.toNat / 16 * 16 + c.toNat % 16 = c.toNat := by omega
  have hvalid : c.toNat.isValidChar := c.valid
  rw [hexCode_zeros hhigh hlow, bind_some, hcode, charOfCode, if_pos hvalid,
    Char.ofNat_toNat]

private theorem scanString_raw {c : Char} (hquote : c ≠ '"') (hback : c ≠ '\\')
    (hcontrol : ¬ c.toNat < 0x20) (rest : Text) :
    scanString (c :: rest) = push c (scanString rest) := by
  rw [scanString.eq_def]
  split
  · simp_all
  · simp_all
  · simp_all
  · simp_all
  · next h =>
    obtain ⟨rfl, rfl⟩ := List.cons.inj h
    exact if_neg hcontrol

theorem scanString_escapeChar (c : Char) (rest : Text) :
    scanString (escapeChar c ++ rest) = push c (scanString rest) := by
  unfold escapeChar
  split
  · next h =>
    rcases h with rfl | rfl
    · rfl
    · rfl
  split
  · next h => subst h; rfl
  split
  · next h => subst h; rfl
  split
  · next h => subst h; rfl
  split
  · next h => rw [← char_eq_of_toNat h]; rfl
  split
  · next h => rw [← char_eq_of_toNat h]; rfl
  split
  · next h =>
    obtain ⟨code, hcode, hchar⟩ := bind_eq_some_iff.mp (charOfCode_escape h)
    simp only [cons_append, nil_append]
    rw [scanString]
    simp only [hcode, hchar]
  · next hmark _ _ _ _ _ hcontrol =>
    exact scanString_raw (fun h => hmark (.inl h)) (fun h => hmark (.inr h)) hcontrol rest

theorem scanString_quoted (s rest : Text) :
    scanString (s.flatMap escapeChar ++ '"' :: rest) = some (s, rest) := by
  induction s with
  | nil => rfl
  | cons c s ih =>
    rw [flatMap_cons, append_assoc, scanString_escapeChar, ih]
    rfl

theorem numeral_head (numeral : Numeral) :
    (∃ c text, IsDigit c ∧ numeral.text = c :: text) ∨
      ∃ c text, IsDigit c ∧ numeral.text = '-' :: c :: text := by
  have hnumeral := numeral.isNumeral
  cases htext : numeral.text with
  | nil =>
    rw [htext] at hnumeral
    simp [NumeralState.munch, NumeralState.accepts] at hnumeral
  | cons c text =>
    rw [htext] at hnumeral
    obtain ⟨q, hc, hq⟩ := NumeralState.next_of_munch hnumeral
    by_cases hminus : c = '-'
    · subst hminus
      obtain rfl : NumeralState.minus = q := by simpa [NumeralState.next] using hc
      cases text with
      | nil => simp [NumeralState.munch, NumeralState.accepts] at hq
      | cons d text =>
        obtain ⟨q', hd, -⟩ := NumeralState.next_of_munch hq
        refine .inr ⟨d, text, ?_, rfl⟩
        simp only [NumeralState.next] at hd
        split at hd
        · next h => subst h; exact ⟨by decide, by decide⟩
        · split at hd
          · next h => exact h
          · simp at hd
    · refine .inl ⟨c, text, ?_, rfl⟩
      simp only [NumeralState.next, if_neg hminus] at hc
      split at hc
      · next h => subst h; exact ⟨by decide, by decide⟩
      · split at hc
        · next h => exact h
        · simp at hc

private theorem IsDigit.ne {c d : Char} (h : IsDigit c) (hd : ¬ IsDigit d) : c ≠ d :=
  fun heq => hd (heq ▸ h)

private theorem scanLiteral_numeral (numeral : Numeral) (rest : Text) :
    scanLiteral (numeral.text ++ rest) = none := by
  rcases numeral_head numeral with ⟨c, text, hc, htext⟩ | ⟨c, text, hc, htext⟩
  · have hn := hc.ne (d := 'n') (by decide)
    have ht := hc.ne (d := 't') (by decide)
    have hf := hc.ne (d := 'f') (by decide)
    have hN := hc.ne (d := 'N') (by decide)
    have hI := hc.ne (d := 'I') (by decide)
    have hm := hc.ne (d := '-') (by decide)
    rw [htext]
    simp [scanLiteral, Literal.text, hn.symm, ht.symm, hf.symm, hN.symm, hI.symm, hm.symm]
  · have hI := hc.ne (d := 'I') (by decide)
    rw [htext]
    simp [scanLiteral, Literal.text, hI.symm]

private theorem scanNumeral_text (numeral : Numeral) {rest : Text}
    (hrest : ∀ c ∈ rest.head?, NumeralState.Stops c) :
    scanNumeral (numeral.text ++ rest) = some (numeral, rest) := by
  have h := NumeralState.munch_stops numeral.isNumeral hrest
  unfold scanNumeral
  split
  · next numeral' rest' hmunch =>
    rw [h] at hmunch
    cases hmunch
    rfl
  · next hmunch => rw [h] at hmunch; simp at hmunch

mutual

/-- No object of the value lists a key twice. -/
def Json.KeysApart : Json → Prop
  | .array items => ItemsApart items
  | .object members => (members.map Prod.fst).Nodup ∧ MembersApart members
  | _ => True

def Json.ItemsApart : List Json → Prop
  | [] => True
  | v :: vs => v.KeysApart ∧ ItemsApart vs

def Json.MembersApart : List (Text × Json) → Prop
  | [] => True
  | (_, v) :: ms => v.KeysApart ∧ MembersApart ms

end

theorem entries_ofPairs {κ ν : Type} [DecidableEq κ] {pairs : List (κ × ν)}
    (h : (pairs.map Prod.fst).Nodup) : (Dict.ofPairs pairs).entries = pairs := by
  have hall : ∀ d : Dict κ ν, (∀ k ∈ pairs.map Prod.fst, d.get? k = none) →
      (pairs.foldl (fun d p => d.set p.1 p.2) d).entries = d.entries ++ pairs := by
    induction pairs with
    | nil =>
      intro d _
      exact (append_nil _).symm
    | cons p pairs ih =>
      intro d hfresh
      rw [map_cons, nodup_cons] at h
      have hp : d.get? p.1 = none := hfresh p.1 (.head _)
      rw [foldl_cons, ih h.2, Dict.entries_set_of_fresh d p.2 hp, append_assoc]
      · rfl
      · intro k hk
        have hne : k ≠ p.1 := fun heq => h.1 (heq ▸ hk)
        rw [Dict.get?_set_of_ne d p.2 hne]
        exact hfresh k (.tail _ hk)
  rw [Dict.ofPairs, hall Dict.empty fun k _ => Dict.get?_empty k]
  rfl

theorem mem_ofPairs {κ ν : Type} [DecidableEq κ] {pairs : List (κ × ν)} {k : κ} {v : ν}
    (h : (k, v) ∈ (Dict.ofPairs pairs).entries) : (k, v) ∈ pairs := by
  have hall : ∀ d : Dict κ ν, (pairs.foldl (fun d p => d.set p.1 p.2) d).get? k = some v →
      d.get? k = some v ∨ (k, v) ∈ pairs := by
    clear h
    induction pairs with
    | nil => exact fun d hk => .inl hk
    | cons p pairs ih =>
      intro d hk
      rw [mem_cons]
      rcases ih (d.set p.1 p.2) hk with hset | hlater
      · rw [Dict.get?_set] at hset
        split at hset
        · next heq => exact .inr (.inl (Prod.ext heq (some.inj hset).symm))
        · exact .inl hset
      · exact .inr (.inr hlater)
  exact (hall Dict.empty (Dict.get?_eq_some_iff.mpr h)).resolve_left (by simp)

private theorem dumps_head (v : Json) :
    ∃ c text, dumps v = c :: text ∧ ¬ IsBlank c ∧ c ≠ ']' := by
  cases v with
  | literal name =>
    cases name
    all_goals exact ⟨_, _, rfl, by decide, by decide⟩
  | number numeral =>
    rcases numeral_head numeral with ⟨c, text, hc, htext⟩ | ⟨c, text, -, htext⟩
    · refine ⟨c, text, htext, ?_, hc.ne (by decide)⟩
      rintro (h | h | h | h)
      all_goals exact hc.ne (by decide) h
    · exact ⟨'-', c :: text, htext, by decide, by decide⟩
  | string s => exact ⟨'"', _, rfl, by decide, by decide⟩
  | array items =>
    cases items
    all_goals exact ⟨'[', _, rfl, by decide, by decide⟩
  | object members =>
    cases members
    all_goals exact ⟨'{', _, rfl, by decide, by decide⟩

@[simp] theorem skipBlanks_cons {c : Char} (h : ¬ IsBlank c) (rest : Text) :
    skipBlanks (c :: rest) = c :: rest := by
  rw [skipBlanks, dropWhile_cons_of_neg]
  simpa using h

theorem skipBlanks_space (rest : Text) : skipBlanks (' ' :: rest) = skipBlanks rest := by
  rw [skipBlanks, dropWhile_cons_of_pos]
  · rfl
  · decide

private theorem skipBlanks_dumps (v : Json) (rest : Text) :
    skipBlanks (dumps v ++ rest) = dumps v ++ rest := by
  obtain ⟨c, text, htext, hblank, -⟩ := dumps_head v
  rw [htext]
  exact skipBlanks_cons hblank _

private theorem dumps_length (v : Json) : 0 < (dumps v).length := by
  obtain ⟨c, text, htext, -, -⟩ := dumps_head v
  rw [htext]
  exact Nat.succ_pos _

theorem stops_punctuation {c : Char} (hc : c = ',' ∨ c = ']' ∨ c = '}') :
    NumeralState.Stops c := by
  intro q
  rcases hc with rfl | rfl | rfl
  all_goals cases q <;> rfl

private theorem dumpsItems_stops (vs : List Json) (rest : Text) :
    ∀ c ∈ (dumpsItems vs ++ rest).head?, NumeralState.Stops c := by
  intro c hc
  cases vs with
  | nil => exact stops_punctuation (.inr (.inl (some.inj hc).symm))
  | cons v vs => exact stops_punctuation (.inl (some.inj hc).symm)

private theorem dumpsMembers_stops (ms : List (Text × Json)) (rest : Text) :
    ∀ c ∈ (dumpsMembers ms ++ rest).head?, NumeralState.Stops c := by
  intro c hc
  cases ms with
  | nil => exact stops_punctuation (.inr (.inr (some.inj hc).symm))
  | cons m ms => exact stops_punctuation (.inl (some.inj hc).symm)

private theorem scanValue_plain {n : Nat} {c : Char} {text : Text} (hquote : c ≠ '"')
    (hbrace : c ≠ '{') (hbracket : c ≠ '[') :
    scanValue (n + 1) (c :: text) =
      match scanLiteral (c :: text) with
      | some (name, rest) => some (.literal name, rest)
      | none => (scanNumeral (c :: text)).map fun p => (.number p.1, p.2) := by
  unfold scanValue
  split
  · next heq => exact absurd (List.cons.inj heq).1 hquote
  · next heq => exact absurd (List.cons.inj heq).1 hbrace
  · next heq => exact absurd (List.cons.inj heq).1 hbracket
  · rfl

theorem scanValue_numeral (n : Nat) (numeral : Numeral) {rest : Text}
    (hrest : ∀ c ∈ rest.head?, NumeralState.Stops c) :
    scanValue (n + 1) (numeral.text ++ rest) = some (.number numeral, rest) := by
  have hscan : scanValue (n + 1) (numeral.text ++ rest) =
      match scanLiteral (numeral.text ++ rest) with
      | some (name, rest) => some (.literal name, rest)
      | none => (scanNumeral (numeral.text ++ rest)).map fun p => (.number p.1, p.2) := by
    rcases numeral_head numeral with ⟨c, text, hc, htext⟩ | ⟨c, text, -, htext⟩
    · rw [htext]
      exact scanValue_plain (hc.ne (by decide)) (hc.ne (by decide)) (hc.ne (by decide))
    · rw [htext]
      exact scanValue_plain (by decide) (by decide) (by decide)
  rw [hscan, scanLiteral_numeral, scanNumeral_text numeral hrest]
  rfl

private theorem scanValue_array {n : Nat} {v : Json} {rest : Text} :
    scanValue (n + 1) ('[' :: (dumps v ++ rest)) =
      (scanItems n (dumps v ++ rest)).map fun p => (.array p.1, p.2) := by
  obtain ⟨c, text, htext, -, hbracket⟩ := dumps_head v
  rw [scanValue, skipBlanks_dumps]
  split
  · next heq =>
    rw [htext] at heq
    exact (hbracket (List.cons.inj heq).1).elim
  · rfl

private theorem scanValue_object {n : Nat} {k rest : Text} :
    scanValue (n + 1) ('{' :: (quote k ++ rest)) =
      (scanMembers n (quote k ++ rest)).map
        fun p => (.object (Dict.ofPairs p.1).entries, p.2) := rfl

private theorem scan_dumps (n : Nat) :
    (∀ v rest, (dumps v).length ≤ n → v.KeysApart →
      (∀ c ∈ rest.head?, NumeralState.Stops c) → scanValue n (dumps v ++ rest) = some (v, rest)) ∧
    (∀ v vs rest, (dumps v ++ dumpsItems vs).length ≤ n → Json.ItemsApart (v :: vs) →
      scanItems n (dumps v ++ (dumpsItems vs ++ rest)) = some (v :: vs, rest)) ∧
    (∀ k v ms rest, (quote k ++ ':' :: ' ' :: (dumps v ++ dumpsMembers ms)).length ≤ n →
      Json.MembersApart ((k, v) :: ms) →
      scanMembers n (quote k ++ ':' :: ' ' :: (dumps v ++ (dumpsMembers ms ++ rest))) =
        some ((k, v) :: ms, rest)) := by
  induction n with
  | zero =>
    refine ⟨fun v _ h => ?_, fun v _ _ h => ?_, fun k v _ _ h => ?_⟩
    · have := dumps_length v
      omega
    · have := dumps_length v
      rw [length_append] at h
      omega
    · have := dumps_length v
      simp only [length_append, length_cons] at h
      omega
  | succ n ih =>
    obtain ⟨ihValue, ihItems, ihMembers⟩ := ih
    refine ⟨fun v rest hn hapart hrest => ?_, fun v vs rest hn hapart => ?_,
      fun k v ms rest hn hapart => ?_⟩
    · cases v with
      | literal name =>
        cases name
        all_goals rfl
      | number numeral => exact scanValue_numeral n numeral hrest
      | string s =>
        have hs := scanString_quoted s rest
        show scanValue (n + 1) ('"' :: (s.flatMap escapeChar ++ ['"'] ++ rest)) = _
        rw [append_assoc, singleton_append, scanValue, hs]
        rfl
      | array items =>
        cases items with
        | nil => rfl
        | cons v vs =>
          show scanValue (n + 1) ('[' :: (dumps v ++ dumpsItems vs ++ rest)) = _
          have hlength : (dumps v ++ dumpsItems vs).length ≤ n := Nat.le_of_succ_le_succ hn
          rw [append_assoc, scanValue_array, ihItems v vs rest hlength hapart]
          rfl
      | object members =>
        cases members with
        | nil => rfl
        | cons m ms =>
          obtain ⟨k, v⟩ := m
          have hlength : (quote k ++ ':' :: ' ' :: (dumps v ++ dumpsMembers ms)).length ≤ n :=
            Nat.le_of_succ_le_succ hn
          have hmembers := ihMembers k v ms rest hlength hapart.2
          have htext : dumps (.object ((k, v) :: ms)) ++ rest =
              '{' :: (quote k ++ ':' :: ' ' :: (dumps v ++ (dumpsMembers ms ++ rest))) := by
            simp [dumps]
          rw [htext, scanValue_object, hmembers, map_some, entries_ofPairs hapart.1]
    · have hv : (dumps v).length ≤ n := by
        have hvs : 0 < (dumpsItems vs).length := by cases vs <;> simp [dumpsItems]
        rw [length_append] at hn
        omega
      rw [scanItems, ihValue v _ hv hapart.1 (dumpsItems_stops vs rest)]
      cases vs with
      | nil => rfl
      | cons w ws =>
        have hlength : (dumps w ++ dumpsItems ws).length ≤ n := by
          simp only [length_append, dumpsItems, length_cons] at hn ⊢
          omega
        have htext : dumpsItems (w :: ws) ++ rest =
            ',' :: ' ' :: (dumps w ++ (dumpsItems ws ++ rest)) := by
          simp [dumpsItems]
        simp only [htext, skipBlanks_cons (c := ',') (by decide), skipBlanks_space,
          skipBlanks_dumps, ihItems w ws rest hlength hapart.2, map_some]
    · have hv : (dumps v).length ≤ n := by
        simp only [length_append, length_cons] at hn
        omega
      have hk := scanString_quoted k (':' :: ' ' :: (dumps v ++ (dumpsMembers ms ++ rest)))
      have htext : quote k ++ ':' :: ' ' :: (dumps v ++ (dumpsMembers ms ++ rest)) =
          '"' :: (k.flatMap escapeChar ++
            '"' :: ':' :: ' ' :: (dumps v ++ (dumpsMembers ms ++ rest))) := by
        simp [quote]
      rw [htext, scanMembers, hk]
      simp only [skipBlanks_cons (c := ':') (by decide), skipBlanks_space, skipBlanks_dumps,
        ihValue v _ hv hapart.1 (dumpsMembers_stops ms rest)]
      cases ms with
      | nil => rfl
      | cons m ms =>
        obtain ⟨j, w⟩ := m
        have hlength : (quote j ++ ':' :: ' ' :: (dumps w ++ dumpsMembers ms)).length ≤ n := by
          simp only [length_append, dumpsMembers, length_cons] at hn ⊢
          omega
        have hnext : dumpsMembers ((j, w) :: ms) ++ rest = ',' :: ' ' ::
            (quote j ++ ':' :: ' ' :: (dumps w ++ (dumpsMembers ms ++ rest))) := by
          simp [dumpsMembers]
        have hquote : ∀ text, skipBlanks (quote j ++ text) = quote j ++ text := fun _ => rfl
        simp only [hnext, skipBlanks_cons (c := ',') (by decide), skipBlanks_space, hquote,
          ihMembers j w ms rest hlength hapart.2, map_some]

/-- **Round trip.** A printed value is read back. -/
theorem loads_dumps {v : Json} (h : v.KeysApart) : loads (dumps v) = some v := by
  have hscan := (scan_dumps (2 * (dumps v).length + 1)).1 v [] (by omega) h (by simp)
  have hblank := skipBlanks_dumps v []
  rw [append_nil] at hscan hblank
  rw [loads, hblank, hscan]
  rfl

theorem dumps_inj {v w : Json} (hv : v.KeysApart) (hw : w.KeysApart)
    (h : dumps v = dumps w) : v = w := by
  have hread := loads_dumps hv
  rw [h, loads_dumps hw] at hread
  exact (some.inj hread).symm

private theorem dumpsMembers_concat (ms : List (Text × Json)) :
    ∃ text, dumpsMembers ms = text ++ ['}'] := by
  induction ms with
  | nil => exact ⟨[], rfl⟩
  | cons m ms ih =>
    obtain ⟨text, htext⟩ := ih
    refine ⟨',' :: ' ' :: (quote m.1 ++ ':' :: ' ' :: (dumps m.2 ++ text)), ?_⟩
    rw [dumpsMembers, htext]
    simp

theorem dumps_object (ms : List (Text × Json)) :
    ∃ text, dumps (.object ms) = '{' :: (text ++ ['}']) := by
  cases ms with
  | nil => exact ⟨[], rfl⟩
  | cons m ms =>
    obtain ⟨text, htext⟩ := dumpsMembers_concat ms
    refine ⟨quote m.1 ++ ':' :: ' ' :: (dumps m.2 ++ text), ?_⟩
    rw [dumps, htext]
    simp

private theorem ascii_of_all {text : Text}
    (h : (text.all fun c => decide (0x20 ≤ c.toNat ∧ c.toNat < 0x80)) = true) :
    ∀ c ∈ text, 0x20 ≤ c.toNat ∧ c.toNat < 0x80 :=
  fun c hc => of_decide_eq_true (all_eq_true.mp h c hc)

/-- The characters `text` has beyond ASCII are those of `letters`, and it has no control
characters. -/
def Spells (text letters : Text) : Prop :=
  (∀ c ∈ text, 0x20 ≤ c.toNat) ∧ ∀ c, 0x80 ≤ c.toNat → (c ∈ text ↔ c ∈ letters)

namespace Spells

theorem ascii {text : Text} (h : ∀ c ∈ text, 0x20 ≤ c.toNat ∧ c.toNat < 0x80) :
    Spells text [] := by
  refine ⟨fun c hc => (h c hc).1, fun c hc => ⟨fun hmem => ?_, fun hmem => ?_⟩⟩
  · have := h c hmem
    omega
  · cases hmem

theorem marks {text : Text}
    (h : (text.all fun c => decide (0x20 ≤ c.toNat ∧ c.toNat < 0x80)) = true) : Spells text [] :=
  ascii (ascii_of_all h)

theorem append {a b s t : Text} (ha : Spells a s) (hb : Spells b t) :
    Spells (a ++ b) (s ++ t) := by
  constructor
  · intro c hc
    exact (mem_append.mp hc).elim (ha.1 c) (hb.1 c)
  · intro c hc
    rw [mem_append, mem_append, ha.2 c hc, hb.2 c hc]

end Spells

private theorem escapeChar_cases (c : Char) :
    (escapeChar c = [c] ∧ 0x20 ≤ c.toNat) ∨
      ((∀ d ∈ escapeChar c, 0x20 ≤ d.toNat ∧ d.toNat < 0x80) ∧ c.toNat < 0x80) := by
  have hhex : ∀ n : Fin 16, 0x20 ≤ (hexDigit n).toNat ∧ (hexDigit n).toNat < 0x80 := by decide
  unfold escapeChar
  split
  · next h =>
    rcases h with rfl | rfl
    · exact .inr ⟨ascii_of_all rfl, by decide⟩
    · exact .inr ⟨ascii_of_all rfl, by decide⟩
  split
  · next h => subst h; exact .inr ⟨ascii_of_all rfl, by decide⟩
  split
  · next h => subst h; exact .inr ⟨ascii_of_all rfl, by decide⟩
  split
  · next h => subst h; exact .inr ⟨ascii_of_all rfl, by decide⟩
  split
  · next h => exact .inr ⟨ascii_of_all rfl, by omega⟩
  split
  · next h => exact .inr ⟨ascii_of_all rfl, by omega⟩
  split
  · next h =>
    refine .inr ⟨?_, by omega⟩
    intro d hd
    simp only [mem_cons, not_mem_nil, or_false] at hd
    rcases hd with rfl | rfl | rfl | rfl | rfl | rfl
    · decide
    · decide
    · decide
    · decide
    · exact hhex ⟨c.toNat / 16, by omega⟩
    · exact hhex ⟨c.toNat % 16, by omega⟩
  · exact .inl ⟨rfl, by omega⟩

private theorem spells_escapeChar (c : Char) : Spells (escapeChar c) [c] := by
  rcases escapeChar_cases c with ⟨hself, hc⟩ | ⟨hascii, hc⟩
  · rw [hself]
    exact ⟨by simpa using hc, fun _ _ => Iff.rfl⟩
  · refine ⟨fun d hd => (hascii d hd).1, fun d hd => ⟨fun hmem => ?_, fun hmem => ?_⟩⟩
    · have := hascii d hmem
      omega
    · rw [mem_singleton.mp hmem] at hd
      omega

private theorem spells_quote (s : Text) : Spells (quote s) s := by
  have hbody : Spells (s.flatMap escapeChar) s := by
    induction s with
    | nil => exact Spells.ascii (by simp)
    | cons c s ih =>
      rw [flatMap_cons]
      exact (spells_escapeChar c).append ih
  have hmark : Spells ['"'] [] := Spells.marks rfl
  have h := (hmark.append hbody).append hmark
  rwa [nil_append, append_nil] at h

mutual

def Json.letters : Json → Text
  | .literal _ => []
  | .number _ => []
  | .string s => s
  | .array items => itemLetters items
  | .object members => memberLetters members

def Json.itemLetters : List Json → Text
  | [] => []
  | v :: vs => v.letters ++ itemLetters vs

def Json.memberLetters : List (Text × Json) → Text
  | [] => []
  | (k, v) :: ms => k ++ (v.letters ++ memberLetters ms)

end

mutual

/-- **Printed text** has no control characters, and beyond ASCII what its strings have. -/
theorem spells_dumps : ∀ v : Json, Spells (dumps v) v.letters
  | .literal name => Spells.marks (by cases name <;> rfl)
  | .number numeral => Spells.ascii (NumeralState.numeral_ascii numeral.isNumeral)
  | .string s => spells_quote s
  | .array [] => Spells.marks rfl
  | .array (v :: vs) => by
    have hopen : Spells ['['] [] := Spells.marks rfl
    exact hopen.append ((spells_dumps v).append (spells_dumpsItems vs))
  | .object [] => Spells.marks rfl
  | .object ((k, v) :: ms) => by
    have hopen : Spells ['{'] [] := Spells.marks rfl
    have hcolon : Spells [':', ' '] [] := Spells.marks rfl
    exact hopen.append ((spells_quote k).append (hcolon.append
      ((spells_dumps v).append (spells_dumpsMembers ms))))

theorem spells_dumpsItems : ∀ vs : List Json, Spells (dumpsItems vs) (Json.itemLetters vs)
  | [] => Spells.marks rfl
  | v :: vs => by
    have hcomma : Spells [',', ' '] [] := Spells.marks rfl
    exact hcomma.append ((spells_dumps v).append (spells_dumpsItems vs))

theorem spells_dumpsMembers :
    ∀ ms : List (Text × Json), Spells (dumpsMembers ms) (Json.memberLetters ms)
  | [] => Spells.marks rfl
  | (k, v) :: ms => by
    have hcomma : Spells [',', ' '] [] := Spells.marks rfl
    have hcolon : Spells [':', ' '] [] := Spells.marks rfl
    exact hcomma.append ((spells_quote k).append (hcolon.append
      ((spells_dumps v).append (spells_dumpsMembers ms))))

end

theorem membersApart_iff {ms : List (Text × Json)} :
    Json.MembersApart ms ↔ ∀ k v, (k, v) ∈ ms → v.KeysApart := by
  induction ms with
  | nil => simp [Json.MembersApart]
  | cons m ms ih =>
    obtain ⟨k, v⟩ := m
    rw [Json.MembersApart, ih]
    constructor
    · intro h j w hw
      rcases mem_cons.mp hw with heq | hw
      · cases heq
        exact h.1
      · exact h.2 j w hw
    · intro h
      exact ⟨h k v (.head _), fun j w hw => h j w (.tail _ hw)⟩

private theorem keysApart_scan (n : Nat) :
    (∀ {text v rest}, scanValue n text = some (v, rest) → v.KeysApart) ∧
    (∀ {text vs rest}, scanItems n text = some (vs, rest) → Json.ItemsApart vs) ∧
    (∀ {text ms rest}, scanMembers n text = some (ms, rest) → Json.MembersApart ms) := by
  induction n with
  | zero =>
    refine ⟨fun h => ?_, fun h => ?_, fun h => ?_⟩
    all_goals cases h
  | succ n ih =>
    obtain ⟨ihValue, ihItems, ihMembers⟩ := ih
    refine ⟨fun {text v rest} h => ?_, fun {text vs rest} h => ?_, fun {text ms rest} h => ?_⟩
    · unfold scanValue at h
      split at h
      · obtain ⟨p, -, heq⟩ := map_eq_some_iff.mp h
        exact (Prod.mk.inj heq).1 ▸ trivial
      · split at h
        · cases h
          exact ⟨nodup_nil, trivial⟩
        · obtain ⟨p, hp, heq⟩ := map_eq_some_iff.mp h
          obtain ⟨rfl, -⟩ := Prod.mk.inj heq
          refine ⟨(Dict.ofPairs p.1).nodup, membersApart_iff.mpr fun k v hv => ?_⟩
          exact membersApart_iff.mp (ihMembers hp) k v (mem_ofPairs hv)
      · split at h
        · cases h
          exact trivial
        · obtain ⟨p, hp, heq⟩ := map_eq_some_iff.mp h
          obtain ⟨rfl, -⟩ := Prod.mk.inj heq
          exact ihItems hp
      · split at h
        · cases h
          exact trivial
        · obtain ⟨p, -, heq⟩ := map_eq_some_iff.mp h
          exact (Prod.mk.inj heq).1 ▸ trivial
    · rw [scanItems] at h
      split at h
      · simp at h
      next v rest₁ hv =>
      split at h
      · obtain ⟨p, hp, heq⟩ := map_eq_some_iff.mp h
        obtain ⟨rfl, -⟩ := Prod.mk.inj heq
        exact ⟨ihValue hv, ihItems hp⟩
      · cases h
        exact ⟨ihValue hv, trivial⟩
      · simp at h
    · unfold scanMembers at h
      split at h
      · simp at h
      · next m text heq =>
        cases heq
        split at h
        · simp at h
        split at h
        · split at h
          · simp at h
          next v rest₃ hv =>
          split at h
          · obtain ⟨p, hp, heq⟩ := map_eq_some_iff.mp h
            obtain ⟨rfl, -⟩ := Prod.mk.inj heq
            exact ⟨ihValue hv, ihMembers hp⟩
          · cases h
            exact ⟨ihValue hv, trivial⟩
          · simp at h
        · simp at h
      · simp at h

theorem loads_keysApart {text : Text} {v : Json} (h : loads text = some v) : v.KeysApart := by
  unfold loads at h
  split at h
  · next w rest hscan =>
    simp only [ite_none_right_eq_some, some.injEq] at h
    exact h.2 ▸ (keysApart_scan _).1 hscan
  · simp at h

end JiuwenSpec.Base

import JiuwenSpec.Base.JsonReading
import JiuwenSpec.Swarm.Journal

/-!
# What a line of the journal is read as

A record is one line of the file unless a string in it holds a character that `splitlines` takes
for a boundary and `dumps` leaves as it is. The pieces of such a record are no records, nor is
a record behind the beginning of another.
-/

namespace JiuwenSpec.Swarm

open Base Place List

/-- The boundaries `dumps` does not escape: next line, line separator, paragraph separator. -/
def IsRawBreak (c : Char) : Prop := c.toNat ∈ [0x85, 0x2028, 0x2029]

instance (c : Char) : Decidable (IsRawBreak c) :=
  inferInstanceAs (Decidable (c.toNat ∈ [0x85, 0x2028, 0x2029]))

/-- No string of the record, and no key in it, holds such a boundary. -/
def Record.Unbroken (r : Record) : Prop := ∀ c ∈ r.json.letters, ¬ IsRawBreak c

instance (r : Record) : Decidable r.Unbroken := List.decidableBAll _ _

theorem isLineBreak_iff {c : Char} (h : 0x20 ≤ c.toNat) : IsLineBreak c ↔ IsRawBreak c := by
  simp only [IsLineBreak, IsRawBreak, mem_cons, not_mem_nil, or_false]
  omega

theorem IsRawBreak.beyond_ascii {c : Char} (h : IsRawBreak c) : 0x80 ≤ c.toNat := by
  simp only [IsRawBreak, mem_cons, not_mem_nil, or_false] at h
  omega

theorem isRawBreak_of_mem {r : Record} {c : Char} (hmem : c ∈ r.line) (hc : IsLineBreak c) :
    IsRawBreak c :=
  (isLineBreak_iff ((spells_dumps r.json).1 c hmem)).mp hc

theorem unbroken_iff (r : Record) : r.Unbroken ↔ ∀ c ∈ r.line, ¬ IsLineBreak c := by
  have hspells := spells_dumps r.json
  constructor
  · intro h c hmem hc
    have hraw := isRawBreak_of_mem hmem hc
    exact h c ((hspells.2 c hraw.beyond_ascii).mp hmem) hraw
  · intro h c hmem hraw
    have hline : c ∈ r.line := (hspells.2 c hraw.beyond_ascii).mpr hmem
    exact h c hline ((isLineBreak_iff (hspells.1 c hline)).mpr hraw)

theorem keyName_mem {members : List (Text × Json)} {key : Text} (h : keyOf members = some key) :
    keyName ∈ members.map Prod.fst := by
  induction members with
  | nil => simp [keyOf] at h
  | cons m members ih =>
    obtain ⟨name, value⟩ := m
    rw [map_cons, mem_cons]
    by_cases hname : name = keyName
    · exact .inl hname.symm
    · unfold keyOf at h
      rw [if_neg hname] at h
      exact .inr (ih h)

theorem loads_of_parseLine {line : Text} {r : Record} (h : parseLine line = some r) :
    loads (strip line) = some r.json ∧ keyName ∈ r.members.map Prod.fst := by
  simp only [parseLine, Option.ite_none_left_eq_some] at h
  have hread := h.2
  unfold readRecord at hread
  split at hread
  · next members hload =>
    split at hread
    · next key hkey =>
      cases hread
      exact ⟨hload, keyName_mem hkey⟩
    · simp at hread
  · simp at hread

@[simp] theorem parseLine_nil : parseLine [] = none := rfl

theorem parseRecords_first {a rest : Text} {c : Char} (ha : ∀ x ∈ a, ¬ IsLineBreak x)
    (hc : IsLineBreak c) (hcr : c ≠ '\r') :
    parseRecords (a ++ c :: rest) = (parseLine a).toList ++ parseRecords rest := by
  rw [parseRecords, splitLines_line ha hc hcr, filterMap_cons]
  cases parseLine a <;> rfl

theorem parseRecords_last {a : Text} (ha : ∀ x ∈ a, ¬ IsLineBreak x) :
    parseRecords a = (parseLine a).toList := by
  by_cases hne : a = []
  · rw [hne]
    rfl
  · rw [parseRecords, splitLines_unbroken ha hne, filterMap_cons]
    cases parseLine a <;> rfl

theorem readRecord_line (r : Record) : readRecord r.line = some r := by
  have hload : loads r.line = some (.object r.members) := loads_dumps r.apart
  unfold readRecord
  split
  · next members hload' =>
    rw [hload] at hload'
    cases hload'
    split
    · next key hkey => exact congrArg some (Record.ext rfl)
    · next hkey =>
      rw [r.keyed] at hkey
      cases hkey
  · next hnone =>
    exact (hnone r.members hload).elim

theorem strip_line (r : Record) : strip r.line = r.line := by
  obtain ⟨text, htext⟩ := dumps_object r.members
  have hopen : ¬ IsSpace '{' := by decide
  have hclose : ¬ IsSpace '}' := by decide
  show strip (dumps (.object r.members)) = dumps (.object r.members)
  rw [htext]
  exact strip_cons_concat hopen hclose text

theorem line_ne_nil (r : Record) : r.line ≠ [] := by
  obtain ⟨text, htext⟩ := dumps_object r.members
  exact fun h => cons_ne_nil _ _ (htext.symm.trans h)

theorem parseLine_line (r : Record) : parseLine r.line = some r := by
  rw [parseLine, strip_line, if_neg (line_ne_nil r), readRecord_line]

private theorem exists_first_mark {text : Text} (h : ∃ c ∈ text, ¬ IsSpace c) :
    ∃ spaces c rest, text = spaces ++ c :: rest ∧ (∀ d ∈ spaces, IsSpace d) ∧ ¬ IsSpace c := by
  induction text with
  | nil => simp at h
  | cons c text ih =>
    by_cases hc : IsSpace c
    · have htext : ∃ d ∈ text, ¬ IsSpace d := by
        obtain ⟨d, hd, hmark⟩ := h
        rcases mem_cons.mp hd with rfl | hd
        · exact absurd hc hmark
        · exact ⟨d, hd, hmark⟩
      obtain ⟨spaces, d, rest, rfl, hspaces, hd⟩ := ih htext
      exact ⟨c :: spaces, d, rest, rfl, forall_mem_cons.mpr ⟨hc, hspaces⟩, hd⟩
    · exact ⟨[], c, text, rfl, by simp, hc⟩

/-- **A record behind something on its line is not read.** -/
theorem parseLine_glued {front : Text} (hfront : ∃ c ∈ front, ¬ IsSpace c) (r : Record) :
    parseLine (front ++ r.line) = none := by
  obtain ⟨spaces, c, rest, rfl, hspaces, hc⟩ := exists_first_mark hfront
  obtain ⟨text, htext⟩ := dumps_object r.members
  have hclose : ¬ IsSpace '}' := by decide
  have hstrip : strip (spaces ++ c :: rest ++ r.line) = c :: rest ++ dumps r.json := by
    rw [append_assoc, strip_append_of_space hspaces]
    show strip (c :: (rest ++ dumps (.object r.members))) = c :: (rest ++ dumps (.object r.members))
    have hshape : rest ++ '{' :: (text ++ ['}']) = (rest ++ '{' :: text) ++ ['}'] := by simp
    rw [htext, hshape]
    exact strip_cons_concat hc hclose _
  cases hline : parseLine (spaces ++ c :: rest ++ r.line) with
  | none => rfl
  | some s =>
    obtain ⟨hload, -⟩ := loads_of_parseLine hline
    rw [hstrip] at hload
    have hblank : ¬ IsBlank c := fun h => hc (by rcases h with rfl | rfl | rfl | rfl <;> decide)
    exact (loads_glued ⟨c, rest, rfl, hblank⟩ r.apart hload).elim

private theorem ne_of_isSpace {c : Char} (h : IsSpace c) : c ≠ '"' ∧ c ≠ '\\' := by
  constructor
  · rintro rfl
    exact absurd h (by decide)
  · rintro rfl
    exact absurd h (by decide)

private theorem run_spaces {p q : Place} {text : Text} (hp : p.mode = .quoted)
    (h : ∀ c ∈ text, IsSpace c) (hrun : p.run text = some q) : q = p := by
  induction text generalizing p with
  | nil => exact (Option.some.inj hrun).symm
  | cons c text ih =>
    rw [Place.run_cons] at hrun
    obtain ⟨p', hc, hrest⟩ := Option.bind_eq_some_iff.mp hrun
    have hspace := ne_of_isSpace (h c (.head _))
    rcases next_quoted hp hc with ⟨hquote, -⟩ | hback | ⟨-, hp'⟩
    · exact absurd hquote hspace.1
    · exact absurd hback hspace.2
    · rw [hp'] at hrest
      exact ih hp (fun d hd => h d (.tail _ hd)) hrest

private theorem parseLine_of_quoted {p q : Place} {line : Text} (hp : p.mode = .quoted)
    (hrun : p.run line = some q) : parseLine line = none := by
  cases hline : parseLine line with
  | none => rfl
  | some r =>
    obtain ⟨hload, hkey⟩ := loads_of_parseLine hline
    obtain ⟨front, back, hsplit, hfront, -⟩ := exists_strip line
    rw [hsplit] at hrun
    obtain ⟨p₁, hrun, -⟩ := run_split hrun
    obtain ⟨p₂, hspaces, hrun⟩ := run_split hrun
    have hp₂ : p₂ = p := run_spaces hp hfront hspaces
    rw [hp₂] at hrun
    exact (no_key_of_quoted (fun _ => rfl) hp hrun hload hkey).elim

private theorem parseRecords_of_quoted {p q : Place} {text : Text} (hp : p.mode = .quoted)
    (hbreaks : ∀ c ∈ text, IsLineBreak c → 0x80 ≤ c.toNat) (hrun : p.run text = some q) :
    parseRecords text = [] := by
  induction text using line_induction generalizing p with
  | last a ha =>
    rw [parseRecords_last ha, parseLine_of_quoted hp hrun]
    rfl
  | line a c rest ha hc ih =>
    obtain ⟨p₁, hline, hrun₁⟩ := run_split hrun
    rw [Place.run_cons] at hrun₁
    obtain ⟨p₂, hnext, hrun₂⟩ := Option.bind_eq_some_iff.mp hrun₁
    have hbeyond : 0x80 ≤ c.toNat := hbreaks c (by simp) hc
    obtain ⟨hp₁, hp₂⟩ := quoted_of_next hbeyond hnext
    rw [hp₂] at hrun₂
    have hcr : c ≠ '\r' := by
      rintro rfl
      exact absurd hbeyond (by decide)
    have hrest := ih hp₁ (fun d hd => hbreaks d (by simp [hd])) hrun₂
    rw [parseRecords_first ha hc hcr, parseLine_of_quoted hp hline, hrest]
    rfl

private theorem parseLine_beginning {r : Record} {a rest : Text} (h : a ++ rest = r.line)
    (hrest : rest ≠ []) : parseLine a = none := by
  cases hline : parseLine a with
  | none => rfl
  | some s =>
    obtain ⟨hload, -⟩ := loads_of_parseLine hline
    obtain ⟨front, back, hsplit, hfront, -⟩ := exists_strip a
    have hnil : front = [] := by
      cases front with
      | nil => rfl
      | cons c front =>
        obtain ⟨text, htext⟩ := dumps_object r.members
        have hhead : r.line = '{' :: (text ++ ['}']) := htext
        rw [hsplit, hhead] at h
        have hc := hfront c (.head _)
        rw [(List.cons.inj h).1] at hc
        exact absurd hc (by decide)
    rw [hnil, nil_append] at hsplit
    have hbegin : strip a ++ (back ++ rest) = dumps (.object r.members) := by
      rw [← append_assoc, ← hsplit]
      exact h
    exact (loads_beginning r.apart hbegin (by simp [hrest]) hload).elim

/-- **A piece of a record holds no record**: neither a beginning of it, nor all of it when it is
broken. -/
theorem parseRecords_piece {r : Record} {a rest : Text} (h : a ++ rest = r.line)
    (hpiece : rest ≠ [] ∨ ¬ r.Unbroken) : parseRecords a = [] := by
  have hrun : ∃ q, Place.run ⟨.plain, 0⟩ r.line = some q := ⟨_, leads_dumps_object r.apart 0⟩
  have hbreaks : ∀ c ∈ a, IsLineBreak c → 0x80 ≤ c.toNat := fun c hmem hc =>
    (isRawBreak_of_mem (h ▸ mem_append_left rest hmem) hc).beyond_ascii
  induction a using line_induction with
  | last a ha =>
    have hrest : rest ≠ [] := by
      rintro rfl
      rw [append_nil] at h
      exact hpiece.elim (fun h => h rfl) fun hbroken => hbroken ((unbroken_iff r).mpr (h ▸ ha))
    rw [parseRecords_last ha, parseLine_beginning h hrest]
    rfl
  | line a c tail ha hc ih =>
    have hbeyond : 0x80 ≤ c.toNat := hbreaks c (by simp) hc
    have hcr : c ≠ '\r' := by
      rintro rfl
      exact absurd hbeyond (by decide)
    have hline : a ++ c :: (tail ++ rest) = r.line := by
      rw [← h]
      simp
    obtain ⟨q, hq⟩ := hrun
    obtain ⟨p₁, -, hrun₁⟩ := run_split (hline ▸ hq)
    rw [Place.run_cons] at hrun₁
    obtain ⟨p₂, hnext, hrun₂⟩ := Option.bind_eq_some_iff.mp hrun₁
    obtain ⟨hp₁, hp₂⟩ := quoted_of_next hbeyond hnext
    obtain ⟨p₃, htail, -⟩ := run_split hrun₂
    have hrest := parseRecords_of_quoted (hp₂ ▸ hp₁)
      (fun d hd => hbreaks d (by simp [hd])) htail
    rw [parseRecords_first ha hc hcr, parseLine_beginning hline (by simp), hrest]
    rfl

theorem parseRecords_line (r : Record) :
    parseRecords r.line = if r.Unbroken then [r] else [] := by
  split
  · next h =>
    rw [parseRecords_last ((unbroken_iff r).mp h), parseLine_line]
    rfl
  · next h => exact parseRecords_piece (append_nil _) (.inr h)

theorem parseRecords_newline {a : Text} (ha : '\r' ∉ a) (b : Text) :
    parseRecords (a ++ '\n' :: b) = parseRecords a ++ parseRecords b :=
  filterMap_splitLines_newline parseLine_nil ha b

theorem return_not_mem_line (r : Record) : '\r' ∉ r.line := fun h =>
  absurd ((spells_dumps r.json).1 _ h) (by decide)

end JiuwenSpec.Swarm

import Mathlib.Data.Char
import Mathlib.Data.List.Lex
import Mathlib.Data.List.Sort
import Mathlib.Data.Prod.Lex
import JiuwenSpec.Base.TextLines

/-!
# Pages of a snapshot

A snapshot shows the turns and activities of all subagents in one order, a page at a time. The
cursor behind a page is a text with the id, the number and the kind of the last item shown.
Source: `harness/subagent_runtime/control.py`.
-/

namespace JiuwenSpec.Subagent

open Base List

inductive ItemKind where
  | activity
  | turn
deriving DecidableEq

def ItemKind.text : ItemKind → Text
  | .activity => ['a', 'c', 't', 'i', 'v', 'i', 't', 'y']
  | .turn => ['t', 'u', 'r', 'n']

/-- A turn or an activity: its subagent, its number, when it was, and what else it holds. -/
structure Entry (τ ρ : Type) where
  subagentId : Text
  seq : Int
  atMs : τ
  body : ρ
deriving DecidableEq

structure Item (τ ρ : Type) where
  kind : ItemKind
  entry : Entry τ ρ
deriving DecidableEq

variable {τ ρ : Type}

def Entry.key (e : Entry τ ρ) : Text ×ₗ Int := toLex (e.subagentId, e.seq)

def Item.key (i : Item τ ρ) : Text ×ₗ Int ×ₗ Text ×ₗ τ :=
  toLex (i.entry.subagentId, toLex (i.entry.seq, toLex (i.kind.text, i.entry.atMs)))

def allFlat (entries : Dict Text (List (Entry τ ρ))) : List (Entry τ ρ) :=
  ((entries.keys.insertionSort (· ≤ ·)).flatMap fun sid => (entries.get? sid).getD []).insertionSort
    fun a b => a.key ≤ b.key

def allTurnsFlat (turns : Dict Text (List (Entry τ ρ))) : List (Entry τ ρ) := allFlat turns

def allActivitiesFlat (activities : Dict Text (List (Entry τ ρ))) : List (Entry τ ρ) :=
  allFlat activities

def mergeSnapshotItems [LinearOrder τ] (turns activities : List (Entry τ ρ)) : List (Item τ ρ) :=
  (turns.map (Item.mk .turn) ++ activities.map (Item.mk .activity)).insertionSort
    fun a b => a.key ≤ b.key

/-- `str(seq)`. -/
def intText : Int → Text
  | .ofNat n => Nat.toDigits 10 n
  | .negSucc n => '-' :: Nat.toDigits 10 (n + 1)

/-- The number of a text of digits, which may be grouped by underscores. -/
def natOfText (text : Text) : Option Nat :=
  if (text.splitOn '_').all fun piece => piece ≠ [] ∧ piece.all Char.isDigit then
    some (Nat.ofDigitChars 10 (text.splitOn '_').flatten 0)
  else none

/-- `int(text)`. -/
def intOfText (text : Text) : Option Int :=
  match strip text with
  | '-' :: digits => (natOfText digits).map fun n => -(n : Int)
  | '+' :: digits => (natOfText digits).map Int.ofNat
  | digits => (natOfText digits).map Int.ofNat

def Item.cursor (i : Item τ ρ) : Text :=
  i.entry.subagentId ++ ':' :: (intText i.entry.seq ++ ':' :: i.kind.text)

/-- The item is the cursor's subagent's, and comes behind the cursor. -/
def IsBehind (subagentId : Text) (seq : Int) (kind : Option Text) (i : Item τ ρ) : Prop :=
  i.entry.subagentId = subagentId ∧
    (seq < i.entry.seq ∨ i.entry.seq = seq ∧ ∃ k ∈ kind, k < i.kind.text)

instance (subagentId : Text) (seq : Int) (kind : Option Text) :
    DecidablePred (IsBehind (τ := τ) (ρ := ρ) subagentId seq kind) :=
  fun _ => inferInstanceAs (Decidable (_ ∧ _))

def cursorStartIndexMerged (items : List (Item τ ρ)) : Option Text → Nat
  | none => 0
  | some [] => 0
  | some (c :: cursor) =>
    match (c :: cursor).splitOn ':' with
    | subagentId :: seqText :: rest =>
      match intOfText seqText with
      | none => 0
      | some seq => items.findIdx fun i => decide (IsBehind subagentId seq rest.head? i)
    | _ => 0

/-- `items[start:stop]`. -/
def slice {α : Type} (items : List α) (start : Nat) (stop : Int) : List α :=
  (items.take (if stop < 0 then items.length + stop else stop).toNat).drop start

structure SnapshotPage (τ ρ : Type) where
  items : List (Item τ ρ)
  cursor : Option Text

def SnapshotPage.turns (p : SnapshotPage τ ρ) : List (Entry τ ρ) :=
  (p.items.filter fun i => i.kind = .turn).map Item.entry

def SnapshotPage.activities (p : SnapshotPage τ ρ) : List (Entry τ ρ) :=
  (p.items.filter fun i => i.kind = .activity).map Item.entry

def pageOf (items : List (Item τ ρ)) (cursor : Option Text) (pageSize : Int) :
    SnapshotPage τ ρ :=
  let start := cursorStartIndexMerged items cursor
  let page := slice items start (start + pageSize)
  { items := page
    cursor := if start + pageSize < items.length then page.getLast?.map Item.cursor else none }

/-- `snapshot`, but for the rows of the subagents. -/
def snapshot [LinearOrder τ] (turns activities : Dict Text (List (Entry τ ρ)))
    (cursor : Option Text) (pageSize : Int) : SnapshotPage τ ρ :=
  pageOf (mergeSnapshotItems (allTurnsFlat turns) (allActivitiesFlat activities)) cursor pageSize

def pagePositions (items : List (Item τ ρ)) (cursor : Option Text) (pageSize : Int) : List Nat :=
  slice (List.range items.length) (cursorStartIndexMerged items cursor)
    (cursorStartIndexMerged items cursor + pageSize)

/-- Following the cursors of the pages from one on ends, and shows the items at these positions. -/
inductive Follows (items : List (Item τ ρ)) (pageSize : Int) : Option Text → List Nat → Prop where
  | last (cursor : Option Text) (h : (pageOf items cursor pageSize).cursor = none) :
    Follows items pageSize cursor (pagePositions items cursor pageSize)
  | next (cursor : Option Text) (c : Text) (rest : List Nat)
    (h : (pageOf items cursor pageSize).cursor = some c)
    (hrest : Follows items pageSize (some c) rest) :
    Follows items pageSize cursor (pagePositions items cursor pageSize ++ rest)

/-- The pages from the first one on show each item once, in the merged order. -/
def Paginates (items : List (Item τ ρ)) (pageSize : Int) : Prop :=
  Follows items pageSize none (List.range items.length)

/-- The items at both sides of the end of a page: one subagent's, with another number or kind, and
an id in which no cursor is separated. -/
def Continues (x y : Item τ ρ) : Prop :=
  ':' ∉ x.entry.subagentId ∧
    IsBehind x.entry.subagentId x.entry.seq (some x.kind.text) y

/-- Each page but the last ends between two items of one subagent. -/
def EndsInside (items : List (Item τ ρ)) (pageSize : Int) : Prop :=
  ∀ b : Nat, 0 < b → b < items.length → pageSize ∣ b →
    ∃ x y, items[b - 1]? = some x ∧ items[b]? = some y ∧ Continues x y

theorem isDigit_toDigits {n : Nat} {c : Char} (hc : c ∈ Nat.toDigits 10 n) : c.isDigit = true :=
  Nat.isDigit_of_mem_toDigits (by decide) (by decide) hc

theorem notMem_toDigits {c : Char} (hc : c.isDigit = false) (n : Nat) : c ∉ Nat.toDigits 10 n := by
  intro hmem
  rw [isDigit_toDigits hmem] at hc
  cases hc

@[simp] theorem natOfText_toDigits (n : Nat) : natOfText (Nat.toDigits 10 n) = some n := by
  have hsplit : (Nat.toDigits 10 n).splitOn '_' = [Nat.toDigits 10 n] :=
    splitOn_eq_singleton (notMem_toDigits rfl n)
  have hpiece :
      ([Nat.toDigits 10 n].all fun piece => piece ≠ [] ∧ piece.all Char.isDigit) = true := by
    simpa [Nat.toDigits_ne_nil] using fun c (hc : c ∈ Nat.toDigits 10 n) => isDigit_toDigits hc
  rw [natOfText, hsplit, if_pos hpiece, flatten_singleton, Nat.ofDigitChars_ten_toDigits]

theorem strip_of_not_isSpace {text : Text} (h : ∀ c ∈ text, ¬ IsSpace c) : strip text = text := by
  have hfront : (text.dropWhile fun c => decide (IsSpace c)) = text :=
    dropWhile_eq_self_iff.mpr fun hl => by simpa using h _ (getElem_mem hl)
  rw [strip, hfront]
  exact rdropWhile_eq_self_iff.mpr fun hl => by simpa using h _ (getLast_mem hl)

theorem not_isSpace_of_isDigit {c : Char} (h : c.isDigit = true) : ¬ IsSpace c := by
  obtain ⟨hlow, hhigh⟩ : 48 ≤ c.toNat ∧ c.toNat ≤ 57 := Char.isDigit_iff_toNat.mp h
  simp only [IsSpace, mem_cons, not_mem_nil, or_false]
  omega

theorem intOfText_intText (n : Int) : intOfText (intText n) = some n := by
  cases n with
  | ofNat n =>
    have hstrip : strip (Nat.toDigits 10 n) = Nat.toDigits 10 n :=
      strip_of_not_isSpace fun c hc => not_isSpace_of_isDigit (isDigit_toDigits hc)
    rw [intText, intOfText, hstrip]
    split
    · next h => exact absurd (h ▸ mem_cons_self) (notMem_toDigits (c := '-') rfl n)
    · next h => exact absurd (h ▸ mem_cons_self) (notMem_toDigits (c := '+') rfl n)
    · rw [natOfText_toDigits, Option.map_some]
  | negSucc n =>
    have hstrip : strip (intText (.negSucc n)) = intText (.negSucc n) := by
      refine strip_of_not_isSpace fun c hc => ?_
      rcases mem_cons.mp hc with rfl | hc
      · decide
      · exact not_isSpace_of_isDigit (isDigit_toDigits hc)
    rw [intOfText, hstrip, intText]
    simp [Int.negSucc_eq]

theorem lt_append_cons (a l : Text) (c : Char) : a < a ++ c :: l := by
  induction a with
  | nil => exact nil_lt_cons _ _
  | cons b a ih => exact cons_lt_cons_iff.mpr (.inr ⟨rfl, ih⟩)

theorem IsBehind.key_lt [LinearOrder τ] {x y : Item τ ρ}
    (h : IsBehind x.entry.subagentId x.entry.seq (some x.kind.text) y) : x.key < y.key := by
  obtain ⟨hid, hseq | ⟨hseq, k, hk, hkind⟩⟩ := h
  · exact Prod.Lex.toLex_lt_toLex.mpr (.inr ⟨hid.symm, Prod.Lex.toLex_lt_toLex.mpr (.inl hseq)⟩)
  · cases hk
    exact Prod.Lex.toLex_lt_toLex.mpr (.inr ⟨hid.symm, Prod.Lex.toLex_lt_toLex.mpr
      (.inr ⟨hseq.symm, Prod.Lex.toLex_lt_toLex.mpr (.inl hkind)⟩)⟩)

theorem subagentId_le_of_key_le [LinearOrder τ] {x y : Item τ ρ} (h : x.key ≤ y.key) :
    x.entry.subagentId ≤ y.entry.subagentId := by
  rcases Prod.Lex.toLex_le_toLex.mp h with hlt | ⟨heq, -⟩
  · exact le_of_lt hlt
  · exact le_of_eq heq

theorem mergeSnapshotItems_pairwise [LinearOrder τ] (turns activities : List (Entry τ ρ)) :
    (mergeSnapshotItems turns activities).Pairwise fun a b => a.key ≤ b.key :=
  haveI : Std.Total fun a b : Item τ ρ => a.key ≤ b.key := ⟨fun a b => le_total a.key b.key⟩
  haveI : IsTrans (Item τ ρ) fun a b => a.key ≤ b.key := ⟨fun _ _ _ => le_trans⟩
  pairwise_insertionSort _ _

theorem cursorStartIndexMerged_some {items : List (Item τ ρ)} {cursor : Text} (h : cursor ≠ [])
    {subagentId seqText : Text} {rest : List Text}
    (hsplit : cursor.splitOn ':' = subagentId :: seqText :: rest) :
    cursorStartIndexMerged items (some cursor) =
      match intOfText seqText with
      | none => 0
      | some seq => items.findIdx fun i => decide (IsBehind subagentId seq rest.head? i) := by
  cases cursor with
  | nil => exact absurd rfl h
  | cons c cursor => rw [cursorStartIndexMerged, hsplit]

theorem notMem_intText (n : Int) : ':' ∉ intText n := by
  cases n with
  | ofNat n => exact notMem_toDigits rfl n
  | negSucc n =>
    intro h
    rcases mem_cons.mp h with h | h
    · exact absurd h (by decide)
    · exact notMem_toDigits rfl _ h

theorem notMem_kindText (k : ItemKind) : ':' ∉ k.text := by cases k <;> decide

theorem cursor_ne_nil (x : Item τ ρ) : x.cursor ≠ [] := by simp [Item.cursor]

theorem cursorStart_of_plain (items : List (Item τ ρ)) {x : Item τ ρ}
    (h : ':' ∉ x.entry.subagentId) :
    cursorStartIndexMerged items (some x.cursor) = items.findIdx fun i =>
      decide (IsBehind x.entry.subagentId x.entry.seq (some x.kind.text) i) := by
  have hsplit : x.cursor.splitOn ':' =
      x.entry.subagentId :: intText x.entry.seq :: [x.kind.text] := by
    rw [Item.cursor, splitOn_append_cons_self, splitOn_append_cons_self,
      splitOn_eq_singleton h, splitOn_eq_singleton (notMem_intText _),
      splitOn_eq_singleton (notMem_kindText _)]
    rfl
  rw [cursorStartIndexMerged_some (cursor_ne_nil x) hsplit, intOfText_intText]
  rfl

theorem cursorStart_of_colon (items : List (Item τ ρ)) {x : Item τ ρ}
    (h : ':' ∈ x.entry.subagentId) :
    cursorStartIndexMerged items (some x.cursor) = 0 ∨
      ∃ a seq kind, a < x.entry.subagentId ∧ cursorStartIndexMerged items (some x.cursor) =
        items.findIdx fun i => decide (IsBehind a seq kind i) := by
  obtain ⟨a, rest, hid, ha⟩ := eq_append_cons_of_mem h
  obtain ⟨seqText, parts, hparts⟩ := exists_cons_of_ne_nil
    (splitOn_ne_nil ':' (rest ++ ':' :: (intText x.entry.seq ++ ':' :: x.kind.text)))
  have hsplit : x.cursor.splitOn ':' = a :: seqText :: parts := by
    rw [Item.cursor, hid, append_assoc, cons_append, splitOn_append_cons_self,
      splitOn_eq_singleton ha, hparts]
    rfl
  rw [cursorStartIndexMerged_some (cursor_ne_nil x) hsplit]
  cases intOfText seqText with
  | none => exact .inl rfl
  | some seq => exact .inr ⟨a, seq, parts.head?, hid ▸ lt_append_cons a rest ':', rfl⟩

variable {items : List (Item τ ρ)}

theorem key_le_of_lt [LinearOrder τ] (hsorted : items.Pairwise fun a b => a.key ≤ b.key)
    {i j : Nat} (hij : i < j) {x y : Item τ ρ} (hx : items[i]? = some x)
    (hy : items[j]? = some y) : x.key ≤ y.key := by
  obtain ⟨hi, rfl⟩ := List.getElem?_eq_some_iff.mp hx
  obtain ⟨hj, rfl⟩ := List.getElem?_eq_some_iff.mp hy
  exact pairwise_iff_getElem.mp hsorted i j hi hj hij

theorem cursorStart_eq_iff [LinearOrder τ] (hsorted : items.Pairwise fun a b => a.key ≤ b.key)
    {b : Nat} (hpos : 0 < b) {x y : Item τ ρ} (hx : items[b - 1]? = some x)
    (hy : items[b]? = some y) :
    cursorStartIndexMerged items (some x.cursor) = b ↔ Continues x y := by
  obtain ⟨hb, hyb⟩ := List.getElem?_eq_some_iff.mp hy
  constructor
  · intro hstart
    by_cases hcolon : ':' ∈ x.entry.subagentId
    · rcases cursorStart_of_colon items hcolon with hzero | ⟨a, seq, kind, ha, heq⟩
      · omega
      · -- The item found is of a subagent that sorts before the one of `x`.
        have hfound := ((findIdx_eq hb).mp (heq.symm.trans hstart)).1
        rw [hyb] at hfound
        have hle := subagentId_le_of_key_le (key_le_of_lt hsorted (by omega) hx hy)
        rw [(of_decide_eq_true hfound).1] at hle
        exact absurd ha (not_lt.mpr hle)
    · rw [cursorStart_of_plain items hcolon, findIdx_eq hb, hyb] at hstart
      exact ⟨hcolon, of_decide_eq_true hstart.1⟩
  · rintro ⟨hcolon, hbehind⟩
    rw [cursorStart_of_plain items hcolon, findIdx_eq hb, hyb]
    refine ⟨decide_eq_true hbehind, fun j hj => decide_eq_false fun hj' => ?_⟩
    have hle : (items[j]).key ≤ x.key := by
      rcases Nat.lt_or_eq_of_le (Nat.le_sub_one_of_lt hj) with hlt | rfl
      · exact key_le_of_lt hsorted hlt (List.getElem?_eq_getElem _) hx
      · obtain ⟨_, rfl⟩ := List.getElem?_eq_some_iff.mp hx
        exact le_refl _
    exact absurd hj'.key_lt (not_lt.mpr hle)

theorem slice_range (n start : Nat) (stop : Int) : slice (List.range n) start stop =
    List.range' start (min (if stop < 0 then n + stop else stop).toNat n - start) := by
  rw [slice, length_range, take_range, range_eq_range', drop_range']
  congr 1
  omega

variable {size : Nat} {cursor : Option Text}

theorem pagePositions_eq (items : List (Item τ ρ)) (cursor : Option Text) (size : Nat) :
    pagePositions items cursor size = List.range' (cursorStartIndexMerged items cursor)
      (min (cursorStartIndexMerged items cursor + size) items.length -
        cursorStartIndexMerged items cursor) := by
  rw [pagePositions, slice_range, if_neg (by omega)]
  congr 1

theorem pageOf_items (items : List (Item τ ρ)) (cursor : Option Text) (size : Nat) :
    (pageOf items cursor size).items =
      (items.take (cursorStartIndexMerged items cursor + size)).drop
        (cursorStartIndexMerged items cursor) := by
  rw [pageOf, slice, if_neg (by omega)]
  congr 1

theorem pageOf_cursor (hsize : 0 < size)
    (hmore : cursorStartIndexMerged items cursor + size < items.length) :
    ∃ x, items[cursorStartIndexMerged items cursor + size - 1]? = some x ∧
      (pageOf items cursor size).cursor = some x.cursor := by
  set start := cursorStartIndexMerged items cursor with hstart
  have hlt : start + size - 1 < items.length := by omega
  refine ⟨items[start + size - 1], List.getElem?_eq_getElem hlt, ?_⟩
  have hlast : (pageOf items cursor size).items.getLast? = some items[start + size - 1] := by
    rw [pageOf_items, ← hstart, List.getLast?_eq_getElem?, List.getElem?_drop, length_drop,
      length_take, List.getElem?_take, if_pos (by omega), ← List.getElem?_eq_getElem hlt]
    congr 1
    omega
  calc (pageOf items cursor size).cursor
      = (pageOf items cursor size).items.getLast?.map Item.cursor := if_pos (by omega)
    _ = some items[start + size - 1].cursor := by rw [hlast, Option.map_some]

theorem pageOf_cursor_eq_none
    (hend : items.length ≤ cursorStartIndexMerged items cursor + size) :
    (pageOf items cursor size).cursor = none := if_neg (by omega)

theorem follows_of_endsInside [LinearOrder τ] (hsorted : items.Pairwise fun a b => a.key ≤ b.key)
    (hsize : 0 < size) (hends : EndsInside items size) (start : Nat) (hdvd : size ∣ start)
    (hstart : cursorStartIndexMerged items cursor = start) :
    Follows items size cursor (List.range' start (items.length - start)) := by
  induction hn : items.length - start using Nat.strong_induction_on generalizing start cursor with
  | _ n ih =>
    have hpositions := pagePositions_eq items cursor size
    rw [hstart] at hpositions
    by_cases hmore : start + size < items.length
    · obtain ⟨x, hx, hcursor⟩ := pageOf_cursor hsize (hstart ▸ hmore)
      rw [hstart] at hx
      obtain ⟨x', y, hx', hy, hxy⟩ := hends (start + size) (by omega) hmore
        (Int.natCast_dvd_natCast.mpr (Nat.dvd_add hdvd (Nat.dvd_refl size)))
      cases hx.symm.trans hx'
      have hnext := ih _ (by omega) (start + size) (Nat.dvd_add hdvd (Nat.dvd_refl size))
        ((cursorStart_eq_iff hsorted (by omega) hx hy).mpr hxy) rfl
      have hall := Follows.next cursor x.cursor _ hcursor hnext
      rw [hpositions, min_eq_left (by omega), Nat.add_sub_cancel_left, List.range'_append_1] at hall
      exact (show size + (items.length - (start + size)) = n by omega) ▸ hall
    · have hend : (pageOf items cursor size).cursor = none := pageOf_cursor_eq_none (by omega)
      have hall := Follows.last cursor hend
      rw [hpositions, min_eq_right (by omega), hn] at hall
      exact hall

theorem Follows.head? {positions : List Nat} (h : Follows items size cursor positions)
    (hsize : 0 < size) (hne : positions ≠ []) :
    positions.head? = some (cursorStartIndexMerged items cursor) := by
  have hhead : ∀ rest, pagePositions items cursor size ≠ [] →
      (pagePositions items cursor size ++ rest).head? =
        some (cursorStartIndexMerged items cursor) := by
    intro rest hpage
    rw [pagePositions_eq] at hpage ⊢
    rw [List.head?_append_of_ne_nil _ hpage, List.head?_range', if_neg]
    exact fun hzero => hpage (by rw [hzero, List.range'_zero])
  cases h with
  | last _ hlast => simpa using hhead [] hne
  | next _ c rest hcursor _ =>
    refine hhead rest fun hpage => ?_
    have hmore : cursorStartIndexMerged items cursor + size < items.length := by
      by_contra hend
      rw [pageOf_cursor_eq_none (by omega)] at hcursor
      cases hcursor
    rw [pagePositions_eq, List.range'_eq_nil_iff] at hpage
    omega

theorem Follows.continues [LinearOrder τ] (hsorted : items.Pairwise fun a b => a.key ≤ b.key)
    (hsize : 0 < size) {positions : List Nat} (h : Follows items size cursor positions)
    (hall : positions = List.range' (cursorStartIndexMerged items cursor)
      (items.length - cursorStartIndexMerged items cursor))
    (hdvd : size ∣ cursorStartIndexMerged items cursor) {b : Nat}
    (hb : cursorStartIndexMerged items cursor < b) (hlt : b < items.length) (hbdvd : size ∣ b) :
    ∃ x y, items[b - 1]? = some x ∧ items[b]? = some y ∧ Continues x y := by
  induction h with
  | last cursor hcursor =>
    have hle : size ≤ b - cursorStartIndexMerged items cursor :=
      Nat.le_of_dvd (by omega) (Nat.dvd_sub hbdvd hdvd)
    have hmore : cursorStartIndexMerged items cursor + size < items.length := by omega
    obtain ⟨x, -, hx⟩ := pageOf_cursor hsize hmore
    rw [hx] at hcursor
    cases hcursor
  | next cursor c rest hcursor hrest ih =>
    have hmore : cursorStartIndexMerged items cursor + size < items.length := by
      by_contra hend
      rw [pageOf_cursor_eq_none (by omega)] at hcursor
      cases hcursor
    obtain ⟨x, hx, hxc⟩ := pageOf_cursor hsize hmore
    cases hxc.symm.trans hcursor
    set start := cursorStartIndexMerged items cursor with hstart
    -- The pages behind the first one show what it leaves.
    have hsplit : List.range' start (items.length - start) =
        List.range' start size ++ List.range' (start + size) (items.length - (start + size)) := by
      rw [List.range'_append_1]
      congr 1
      omega
    rw [pagePositions_eq, ← hstart, min_eq_left (by omega), Nat.add_sub_cancel_left, hsplit] at hall
    have hshown := append_cancel_left hall
    have hne : rest ≠ [] := by
      rw [hshown, Ne, List.range'_eq_nil_iff]
      omega
    have hnext : cursorStartIndexMerged items (some x.cursor) = start + size := by
      have hhead := hrest.head? hsize hne
      rw [hshown, List.head?_range', if_neg (by omega)] at hhead
      exact (Option.some.inj hhead).symm
    have hle : size ≤ b - start := Nat.le_of_dvd (by omega) (Nat.dvd_sub hbdvd hdvd)
    rcases Nat.lt_or_eq_of_le (show start + size ≤ b by omega) with hlater | rfl
    · exact ih (by rw [hshown, hnext]) (hnext ▸ Nat.dvd_add hdvd (Nat.dvd_refl size))
        (hnext ▸ hlater)
    · have hy := List.getElem?_eq_getElem hlt
      exact ⟨x, _, hx, hy, (cursorStart_eq_iff hsorted (by omega) hx hy).mp hnext⟩

theorem Follows.notMem_last {pageSize : Int} (hsize : pageSize ≤ 0) (hne : items ≠ [])
    {positions : List Nat} (h : Follows items pageSize cursor positions) :
    items.length - 1 ∉ positions := by
  have hpos : 0 < items.length := length_pos_iff.mpr hne
  have hpage : ∀ cursor, items.length - 1 ∉ pagePositions items cursor pageSize := by
    intro cursor hmem
    rw [pagePositions, slice_range, mem_range'_1] at hmem
    split at hmem <;> omega
  induction h with
  | last cursor _ => exact hpage cursor
  | next cursor c rest _ _ ih =>
    rw [mem_append]
    exact not_or.mpr ⟨hpage cursor, ih⟩

/-- The pages show each item once and in order exactly when none ends between two subagents. -/
theorem paginates_iff [LinearOrder τ] (turns activities : Dict Text (List (Entry τ ρ)))
    (pageSize : Int) :
    Paginates (mergeSnapshotItems (allTurnsFlat turns) (allActivitiesFlat activities)) pageSize ↔
      mergeSnapshotItems (allTurnsFlat turns) (allActivitiesFlat activities) = [] ∨
        0 < pageSize ∧
          EndsInside (mergeSnapshotItems (allTurnsFlat turns) (allActivitiesFlat activities))
            pageSize := by
  have hsorted := mergeSnapshotItems_pairwise (allTurnsFlat turns) (allActivitiesFlat activities)
  generalize mergeSnapshotItems (allTurnsFlat turns) (allActivitiesFlat activities) = items
    at hsorted ⊢
  constructor
  · intro h
    refine or_iff_not_imp_left.mpr fun hne => ?_
    rcases lt_or_ge 0 pageSize with hpos | hle
    · obtain ⟨size, rfl⟩ := Int.eq_ofNat_of_zero_le hpos.le
      refine ⟨hpos, fun b hb hlt hdvd => ?_⟩
      refine h.continues hsorted (by omega) ?_ ?_ hb hlt (Int.natCast_dvd_natCast.mp hdvd)
      · exact range_eq_range'
      · exact Nat.dvd_zero size
    · exact absurd (mem_range.mpr (Nat.sub_one_lt (length_pos_iff.mpr hne).ne'))
        (h.notMem_last hle hne)
  · rintro (rfl | ⟨hpos, hends⟩)
    · have hpage : (pageOf ([] : List (Item τ ρ)) none pageSize).cursor = none := by
        simp [pageOf, slice]
      have hnone : pagePositions ([] : List (Item τ ρ)) none pageSize = [] := by
        simp [pagePositions, slice]
      have hshown := Follows.last none hpage
      rw [hnone] at hshown
      exact hshown
    · obtain ⟨size, rfl⟩ := Int.eq_ofNat_of_zero_le hpos.le
      rw [Paginates, range_eq_range']
      exact follows_of_endsInside hsorted (by omega) hends 0 (Nat.dvd_zero size) rfl

def twoTurns : Dict Text (List (Entry Nat Unit)) :=
  ⟨[(['a'], [⟨['a'], 1, 0, ()⟩]), (['b'], [⟨['b'], 1, 0, ()⟩])], by decide⟩

/-- A page of one item each: the turn of the second subagent is never shown. -/
theorem second_subagent_hidden :
    ¬ Paginates (mergeSnapshotItems (allTurnsFlat twoTurns) (allActivitiesFlat Dict.empty)) 1 := by
  intro h
  have hsorted := mergeSnapshotItems_pairwise (allTurnsFlat twoTurns)
    (allActivitiesFlat (Dict.empty : Dict Text (List (Entry Nat Unit))))
  have hitems : mergeSnapshotItems (allTurnsFlat twoTurns) (allActivitiesFlat Dict.empty) =
      [⟨.turn, ⟨['a'], 1, 0, ()⟩⟩, ⟨.turn, ⟨['b'], 1, 0, ()⟩⟩] := by decide
  rw [hitems] at h hsorted
  obtain ⟨x, y, hx, hy, -, hid, -⟩ := Follows.continues hsorted (show 0 < 1 from Nat.one_pos) h rfl
    (Nat.dvd_zero 1) Nat.one_pos (by decide) (Nat.dvd_refl 1)
  cases hx
  cases hy
  exact absurd hid (by decide)

end JiuwenSpec.Subagent

import Mathlib.Data.List.Count
import Mathlib.Order.Lattice
import JiuwenSpec.Base.Assoc
import JiuwenSpec.Base.Base64
import JiuwenSpec.Base.JsonAscii
import JiuwenSpec.Base.Run

/-!
# Key-value stores

The store in memory, which keeps each value with its expiry, and the store on an SQL table, whose
rows hold a text only: bytes behind a tag, and an exclusive value in a JSON envelope.
Source: `core/foundation/store/kv/in_memory_kv_store.py`, `db_based_kv_store.py`.
-/

namespace JiuwenSpec.Store

open Base

/-- A `str` or `bytes` value. -/
inductive KVValue where
  | str (text : Text)
  | bytes (content : List UInt8)

/-- What is read under a key: nothing, a value, or another JSON value. -/
inductive Read where
  | absent
  | value (v : KVValue)
  | json (j : Json)

inductive PipeOp where
  | set (key : Text) (value : KVValue)
  | get (key : Text)
  | keyExists (key : Text)

inductive PipeResult where
  | done
  | read (r : Read)
  | found (b : Bool)

inductive KVOp where
  | set (key : Text) (value : KVValue)
  | exclusiveSet (key : Text) (value : KVValue) (expiry : Option Int)
  | get (key : Text)
  | keyExists (key : Text)
  | delete (key : Text)
  | getByPrefix (start : Text)
  | deleteByPrefix (start : Text) (batchSize : Option Int)
  | mget (keys : List Text)
  | batchDelete (keys : List Text) (batchSize : Option Int)
  | pipeline (operations : List PipeOp)

/-- The answer of a call; `raised` where it raises an exception. -/
inductive Answer where
  | done
  | bool (b : Bool)
  | count (n : Nat)
  | read (r : Read)
  | reads (rs : List Read)
  | entries (es : List (Text × Read))
  | results (rs : List PipeResult)
  | raised

/-- The slices `items[i:i + size]`. -/
def slices {α : Type} (size : Nat) : Nat → List α → List (List α)
  | 0, _ => []
  | _ + 1, [] => []
  | fuel + 1, item :: items =>
    (item :: items).take size :: slices size fuel ((item :: items).drop size)

def batches {α : Type} (batchSize : Option Int) (items : List α) : List (List α) :=
  match batchSize with
  | none => [items]
  | some size => if size ≤ 0 then [items] else slices size.toNat items.length items

/-- What Python's floats give the stores: sums of a time and seconds, the numeral that `json.dumps`
writes for a time, and whether a numeral is after a time. A time is read back as it is written. -/
structure Clock (τ : Type) [LT τ] where
  add : τ → Int → τ
  write : τ → Numeral
  after : Numeral → τ → Bool
  after_write : ∀ e now, after (write e) now = true ↔ now < e

variable {τ : Type} [LinearOrder τ] (clock : Clock τ)

/-- `_store`: a value and its expiry for each key. -/
abbrev MemStore (τ : Type) := List (Text × (KVValue × Option τ))

def Expired (expiry : Option τ) (now : τ) : Prop := ∃ e ∈ expiry, e ≤ now

instance (expiry : Option τ) (now : τ) : Decidable (Expired expiry now) :=
  inferInstanceAs (Decidable (∃ e ∈ expiry, e ≤ now))

namespace MemStore

def getWithoutLock (s : MemStore τ) (now : τ) (key : Text) : Read :=
  match assocGet? key s with
  | none => .absent
  | some (value, expiry) => if Expired expiry now then .absent else .value value

/-- `await self.get(key) is not None`. -/
def isHeld (s : MemStore τ) (now : τ) (key : Text) : Bool :=
  match assocGet? key s with
  | none => false
  | some (_, expiry) => decide (¬ Expired expiry now)

def exclusiveSet (s : MemStore τ) (now : τ) (key : Text) (value : KVValue) (expiry : Option Int) :
    MemStore τ × Answer :=
  if s.isHeld now key then (s, .bool false)
  else (assocSet key (value, expiry.map (clock.add now)) s, .bool true)

/-- `del self._store[key]`, with the number of keys deleted so far. -/
def deleteCounted (counted : MemStore τ × Nat) (key : Text) : MemStore τ × Nat :=
  if (assocGet? key counted.1).isSome then (assocDelete key counted.1, counted.2 + 1) else counted

/-- An operation of `execute`. -/
def pipe (s : MemStore τ) (now : τ) : List PipeOp → MemStore τ × List PipeResult
  | [] => (s, [])
  | .set key value :: ops =>
    let rest := pipe (assocSet key (value, none) s) now ops
    (rest.1, .done :: rest.2)
  | .get key :: ops =>
    let rest := pipe s now ops
    (rest.1, .read (s.getWithoutLock now key) :: rest.2)
  | .keyExists key :: ops =>
    let rest := pipe s now ops
    (rest.1, .found (s.isHeld now key) :: rest.2)

def step (s : MemStore τ) (now : τ) : KVOp → MemStore τ × Answer
  | .set key value => (assocSet key (value, none) s, .done)
  | .exclusiveSet key value expiry => s.exclusiveSet clock now key value expiry
  | .get key => (s, .read (s.getWithoutLock now key))
  | .keyExists key => (s, .bool (s.isHeld now key))
  | .delete key => (assocDelete key s, .done)
  | .getByPrefix start =>
    (s, .entries (((s.map Prod.fst).filter start.isPrefixOf).map fun key =>
      (key, s.getWithoutLock now key)))
  | .deleteByPrefix start batchSize =>
    ((batches batchSize ((s.map Prod.fst).filter start.isPrefixOf)).foldl
      (fun s batch => batch.foldl (fun s key => assocDelete key s) s) s, .done)
  | .mget keys => (s, .reads (keys.map (s.getWithoutLock now)))
  | .batchDelete keys batchSize =>
    let counted := (batches batchSize keys).foldl (fun c batch ↦ batch.foldl deleteCounted c) (s, 0)
    (counted.1, .count counted.2)
  | .pipeline ops =>
    let piped := s.pipe now ops
    (piped.1, .results piped.2)

end MemStore

/-- `_BYTES_PREFIX`. -/
def bytesTag : Text := ['_', '_', 'B', 'Y', 'T', 'E', 'S', '_', '_', ':']

def exclusiveExpiryKey : Text := "exclusive_expiry".toList

def exclusiveValueKey : Text := "exclusive_value".toList

def encodeValue : KVValue → Text
  | .str text => text
  | .bytes content => bytesTag ++ b64encode content

/-- `_decode_value`; `none` where the base64 text cannot be decoded. -/
def decodeValue (text : Text) : Option KVValue :=
  if bytesTag.isPrefixOf text then (b64decode (text.drop bytesTag.length)).map .bytes
  else some (.str text)

def envelope (value : KVValue) (expireAt : Option Numeral) : Text :=
  dumpsPair exclusiveValueKey (encodeValue value) exclusiveExpiryKey expireAt

/-- The text of a row as `get` reads it; `none` where it raises. -/
def readRow (row : Text) : Option Read :=
  match loads row with
  | none => (decodeValue row).map .value
  | some (.object ms) =>
    if (assocGet? exclusiveExpiryKey ms).isSome then
      match assocGet? exclusiveValueKey ms with
      | none => some (.value (.str []))
      | some (.string text) => some (.value (.str text))
      | some (.literal .null) => some .absent
      | some j => some (.json j)
    else (decodeValue row).map .value
  | some _ => some (.value (.str row))

/-- `old_expire is None or old_expire > now`; `none` where the comparison raises. -/
def notExpired (now : τ) : Option Json → Option Bool
  | none | some (.literal .null) => some true
  | some (.number n) => some (clock.after n now)
  | some (.literal .true) => some (clock.after (.ofNat 1) now)
  | some (.literal .false) => some (clock.after (.ofNat 0) now)
  | some (.literal .infinity) => some true
  | some (.literal .nan) | some (.literal .negInfinity) => some false
  | some _ => none

/-- Whether a row refuses an exclusive value; `none` where the reading raises. -/
def refuses (now : τ) (row : Text) : Option Bool :=
  match loads row with
  | none => some true
  | some (.object ms) => notExpired clock now (assocGet? exclusiveExpiryKey ms)
  -- A list, a string or a number has no `get`.
  | some _ => none

def foldCase (c : Char) : Char := if 'A' ≤ c ∧ c ≤ 'Z' then Char.ofNat (c.toNat + 32) else c

/-- SQLite's `LIKE`. -/
def like : Text → Text → Bool
  | [], text => text.isEmpty
  | p :: pattern, text =>
    if p = '%' then text.tails.any (like pattern)
    else
      match text with
      | [] => false
      | c :: text => (p == '_' || foldCase p == foldCase c) && like pattern text

/-- `KVStoreTable.key.startswith(prefix)`. -/
def startsLike (start key : Text) : Bool := like (start ++ ['%']) key

/-- The rows of `kv_store`. -/
abbrev DbStore := List (Text × Text)

namespace DbStore

/-- `expire_at`: an expiry of zero seconds is none. -/
def expireAt (now : τ) (expiry : Option Int) : Option τ :=
  (expiry.filter fun seconds => seconds ≠ 0).map (clock.add now)

def exclusiveSet (rows : DbStore) (now : τ) (key : Text) (value : KVValue) (expiry : Option Int) :
    DbStore × Answer :=
  match (assocGet? key rows).elim (some false) (refuses clock now) with
  | none => (rows, .raised)
  | some true => (rows, .bool false)
  | some false =>
    (assocSet key (envelope value ((expireAt clock now expiry).map clock.write)) rows, .bool true)

/-- The rows whose key satisfies `p`, decoded. -/
def decodeRows (rows : DbStore) : Option (List (Text × Read)) :=
  rows.mapM fun row => (decodeValue row.2).map fun value => (row.1, .value value)

def lookup (rows : DbStore) (key : Text) : Option Read :=
  (assocGet? key rows).elim (some .absent) fun row => (decodeValue row).map .value

/-- Delete the rows of a batch of keys, with the number of rows deleted so far. -/
def deleteCounted (counted : DbStore × Nat) (batch : List Text) : DbStore × Nat :=
  (counted.1.filter fun row => !batch.contains row.1,
    counted.2 + counted.1.countP fun row => batch.contains row.1)

def pipeSets (rows : DbStore) : List PipeOp → DbStore
  | [] => rows
  | .set key value :: ops => pipeSets (assocSet key (encodeValue value) rows) ops
  | _ :: ops => pipeSets rows ops

/-- The result of an operation of a pipeline, read from the rows after all set operations. -/
def pipeResult (rows : DbStore) : PipeOp → Option PipeResult
  | .set _ _ => some .done
  | .get key => (rows.lookup key).map .read
  | .keyExists key => some (.found (assocGet? key rows).isSome)

/-- A call at a time; a call that raises is rolled back. -/
def step (rows : DbStore) (now : τ) : KVOp → DbStore × Answer
  | .set key value => (assocSet key (encodeValue value) rows, .done)
  | .exclusiveSet key value expiry => rows.exclusiveSet clock now key value expiry
  | .get key =>
    (rows, ((assocGet? key rows).elim (some .absent) readRow).elim .raised .read)
  | .keyExists key => (rows, .bool (assocGet? key rows).isSome)
  | .delete key => (assocDelete key rows, .done)
  | .getByPrefix start =>
    (rows, (decodeRows (rows.filter fun row => startsLike start row.1)).elim .raised .entries)
  | .deleteByPrefix start batchSize =>
    ((batches batchSize ((rows.map Prod.fst).filter (startsLike start))).foldl
      (fun rows batch => rows.filter fun row => row.1 ∉ batch) rows, .done)
  | .mget keys => (rows, (keys.mapM rows.lookup).elim .raised .reads)
  | .batchDelete keys batchSize =>
    let counted := (batches batchSize keys).foldl deleteCounted (rows, 0)
    (counted.1, .count counted.2)
  | .pipeline ops =>
    match ops.mapM (pipeResult (rows.pipeSets ops)) with
    | some results => (rows.pipeSets ops, .results results)
    | none => (rows, .raised)

end DbStore

end JiuwenSpec.Store

/-!
## The table as a mirror of the memory

A table mirrors the store in memory when each row is its entry as `set` or `exclusive_set` writes
it. Every call keeps this, and answers the same, under a condition on what it reads.
Source: `core/foundation/store/kv/in_memory_kv_store.py`, `db_based_kv_store.py`.
-/

namespace JiuwenSpec.Store

open Base List

variable {τ : Type} [LinearOrder τ] (clock : Clock τ)

/-- The row holds the value as `set` writes it, or as `exclusive_set` does. -/
def Matches (entry : KVValue × Option τ) (row : Text) : Prop :=
  (row = encodeValue entry.1 ∧ entry.2 = none) ∨ row = envelope entry.1 (entry.2.map clock.write)

structure Mirrors (s : MemStore τ) (rows : DbStore) : Prop where
  pairs : List.Forall₂ (fun e row => e.1 = row.1 ∧ Matches clock e.2 row.2) s rows
  nodup : (s.map Prod.fst).Nodup

/-- A `str` that begins like an encoded `bytes` value. -/
def KVValue.Tagged : KVValue → Prop
  | .str text => bytesTag <+: text
  | .bytes _ => False

/-- A `str` that reads like an envelope. -/
def KVValue.LikeEnvelope : KVValue → Prop
  | .str text => ∃ ms, loads text = some (.object ms) ∧ (assocGet? exclusiveExpiryKey ms).isSome
  | .bytes _ => False

theorem escapeAscii_ne_nil (c : Char) : escapeAscii c ≠ [] := by
  rw [escapeAscii]
  split
  · rw [escapeChar]
    repeat' split
    all_goals exact cons_ne_nil _ _
  · split
    · exact cons_ne_nil _ _
    · exact cons_ne_nil _ _

theorem length_le_flatMap_escapeAscii (text : Text) :
    text.length ≤ (text.flatMap escapeAscii).length := by
  induction text with
  | nil => exact Nat.le_refl _
  | cons c text ih =>
    have hpos : 0 < (escapeAscii c).length := length_pos_of_ne_nil (escapeAscii_ne_nil c)
    rw [flatMap_cons, length_append, length_cons]
    omega

theorem encodeValue_ne_envelope (v : KVValue) (expireAt : Option Numeral) :
    encodeValue v ≠ envelope v expireAt := by
  intro h
  have hlength := congrArg List.length h
  have hle := length_le_flatMap_escapeAscii (encodeValue v)
  simp only [envelope, dumpsPair, quoteAscii, length_cons, length_append] at hlength
  omega

theorem loads_bytesTag (text : Text) : loads (bytesTag ++ text) = none := by
  have hscan : ∀ n, scanValue (n + 1) (bytesTag ++ text) = none := fun _ => rfl
  have hblank : skipBlanks (bytesTag ++ text) = bytesTag ++ text := rfl
  rw [loads, hblank, hscan]

theorem loads_envelope (v : KVValue) (expireAt : Option Numeral) :
    loads (envelope v expireAt) = some (.object [(exclusiveValueKey, .string (encodeValue v)),
      (exclusiveExpiryKey, numberOrNull expireAt)]) :=
  loads_dumpsPair (by decide) _ _

theorem decodeValue_encodeValue {v : KVValue} (hv : ¬ v.Tagged) :
    decodeValue (encodeValue v) = some v := by
  cases v with
  | str text =>
    rw [encodeValue, decodeValue, if_neg]
    exact fun h => hv (List.isPrefixOf_iff_prefix.mp h)
  | bytes content =>
    have hstarts : bytesTag.isPrefixOf (bytesTag ++ b64encode content) = true :=
      List.isPrefixOf_iff_prefix.mpr (prefix_append _ _)
    rw [encodeValue, decodeValue, if_pos hstarts, drop_left, b64decode_b64encode]
    rfl

theorem readRow_encodeValue {v : KVValue} (htag : ¬ v.Tagged) (henvelope : ¬ v.LikeEnvelope) :
    readRow (encodeValue v) = some (.value v) := by
  have hdecode := decodeValue_encodeValue htag
  rw [readRow]
  split
  · rw [hdecode]
    rfl
  · next ms hload =>
    rw [if_neg, hdecode]
    · rfl
    · intro hkey
      cases v with
      | str text => exact henvelope ⟨ms, hload, hkey⟩
      | bytes content =>
        rw [encodeValue, loads_bytesTag] at hload
        cases hload
  · next j hload =>
    cases v with
    | str text => rfl
    | bytes content =>
      rw [encodeValue, loads_bytesTag] at hload
      cases hload

theorem readRow_envelope (v : KVValue) (expireAt : Option Numeral) :
    readRow (envelope v expireAt) = some (.value (.str (encodeValue v))) := by
  rw [readRow, loads_envelope]
  have hkeys : exclusiveValueKey ≠ exclusiveExpiryKey := by decide
  simp [assocGet?, hkeys]

theorem refuses_envelope (now : τ) (v : KVValue) (expiry : Option τ) :
    refuses clock now (envelope v (expiry.map clock.write)) =
      some (decide (¬ Expired expiry now)) := by
  have hkeys : exclusiveValueKey ≠ exclusiveExpiryKey := by decide
  rw [refuses, loads_envelope]
  cases expiry with
  | none => simp [assocGet?, hkeys, numberOrNull, notExpired, Expired]
  | some e =>
    have hafter : clock.after (clock.write e) now = decide (now < e) := by
      rw [Bool.eq_iff_iff, decide_eq_true_eq]
      exact clock.after_write e now
    simp [assocGet?, hkeys, numberOrNull, notExpired, Expired, hafter]

section

variable {α β : Type} {R : α → β → Prop} {s : List (Text × α)} {rows : List (Text × β)}

abbrev Related (R : α → β → Prop) (s : List (Text × α)) (rows : List (Text × β)) : Prop :=
  List.Forall₂ (fun e row => e.1 = row.1 ∧ R e.2 row.2) s rows

theorem Related.keys (h : Related R s rows) : s.map Prod.fst = rows.map Prod.fst := by
  induction h with
  | nil => rfl
  | cons hrow _ ih => rw [map_cons, map_cons, hrow.1, ih]

theorem Related.get? (h : Related R s rows) (key : Text) :
    (assocGet? key s = none ∧ assocGet? key rows = none) ∨
      ∃ e row, assocGet? key s = some e ∧ assocGet? key rows = some row ∧ R e row := by
  induction h with
  | nil => exact .inl ⟨rfl, rfl⟩
  | @cons e row s rows hrow _ ih =>
    rw [assocGet?, assocGet?, ← hrow.1]
    by_cases hkey : e.1 = key
    · rw [if_pos hkey, if_pos hkey]
      exact .inr ⟨e.2, row.2, rfl, rfl, hrow.2⟩
    · rw [if_neg hkey, if_neg hkey]
      exact ih

theorem Related.set (h : Related R s rows) (key : Text) {e : α} {row : β} (hrow : R e row) :
    Related R (assocSet key e s) (assocSet key row rows) := by
  induction h with
  | nil => exact .cons ⟨rfl, hrow⟩ .nil
  | @cons f row' s rows hhead htail ih =>
    rw [assocSet, assocSet, ← hhead.1]
    by_cases hkey : f.1 = key
    · rw [if_pos hkey, if_pos hkey]
      exact .cons ⟨rfl, hrow⟩ htail
    · rw [if_neg hkey, if_neg hkey]
      exact .cons hhead ih

theorem Related.filter (h : Related R s rows) (p : Text → Bool) :
    Related R (s.filter fun e => p e.1) (rows.filter fun row => p row.1) := by
  induction h with
  | nil => exact .nil
  | @cons e row s rows hhead _ ih =>
    rw [filter_cons, filter_cons, ← hhead.1]
    split
    · exact .cons hhead ih
    · exact ih

end

variable {clock} {s : MemStore τ} {rows : DbStore}

theorem Mirrors.set (h : Mirrors clock s rows) (key : Text) {entry : KVValue × Option τ}
    {row : Text} (hrow : Matches clock entry row) :
    Mirrors clock (assocSet key entry s) (assocSet key row rows) :=
  ⟨Related.set h.pairs key hrow, nodup_assocSet h.nodup⟩

theorem Mirrors.filter (h : Mirrors clock s rows) (p : Text → Bool) :
    Mirrors clock (s.filter fun e => p e.1) (rows.filter fun row => p row.1) :=
  ⟨Related.filter h.pairs p, h.nodup.sublist (filter_sublist.map _)⟩

theorem Mirrors.keys (h : Mirrors clock s rows) : s.map Prod.fst = rows.map Prod.fst :=
  Related.keys h.pairs

theorem Mirrors.get? (h : Mirrors clock s rows) (key : Text) :
    (assocGet? key s = none ∧ assocGet? key rows = none) ∨
      ∃ entry row, assocGet? key s = some entry ∧ assocGet? key rows = some row ∧
        Matches clock entry row :=
  Related.get? h.pairs key

end JiuwenSpec.Store

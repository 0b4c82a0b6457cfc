import JiuwenSpec.Store.KVStore

/-!
# Where the two stores agree

For each call, the condition on the entries it reads under which the table answers as the memory
does. A run of calls that all meet it gets the same answers from both stores.
Source: `core/foundation/store/kv/in_memory_kv_store.py`, `db_based_kv_store.py`.
-/

namespace JiuwenSpec.Store

open Base List

variable {τ : Type} [LinearOrder τ] (clock : Clock τ)

def Unexpired (now : τ) (s : MemStore τ) (key : Text) : Prop :=
  ∀ v e, assocGet? key s = some (v, e) → ¬ Expired e now

/-- The value under the key, if any, was written by `set` and is not tagged. -/
def BulkReadable (s : MemStore τ) (rows : DbStore) (key : Text) : Prop :=
  ∀ v e row, assocGet? key s = some (v, e) → assocGet? key rows = some row →
    row = encodeValue v ∧ ¬ v.Tagged

/-- The value under the key, if any, was written by `set` and neither is tagged nor reads like an
envelope, or is an exclusive `str` that has not expired. -/
def Readable (now : τ) (s : MemStore τ) (rows : DbStore) (key : Text) : Prop :=
  ∀ v e row, assocGet? key s = some (v, e) → assocGet? key rows = some row →
    (row = encodeValue v → ¬ v.Tagged ∧ ¬ v.LikeEnvelope) ∧
      (row ≠ encodeValue v → (∃ text, v = .str text) ∧ ¬ Expired e now)

/-- A text that `set` has written under the key is no JSON value but an object whose
`exclusive_expiry` is missing, `null` or still to come; and an entry that is replaced by one with an
expiry of zero seconds is none. -/
def Claimable (now : τ) (s : MemStore τ) (rows : DbStore) (key : Text) (expiry : Option Int) :
    Prop :=
  (∀ text e, assocGet? key s = some (.str text, e) → assocGet? key rows = some text →
    ∀ j, loads text = some j → ∃ ms, j = .object ms ∧
      notExpired clock now (assocGet? exclusiveExpiryKey ms) = some true) ∧
    (expiry = some 0 → s.isHeld now key = true)

/-- No key matches the prefix as a pattern that does not begin with it. -/
def PatternExact (rows : DbStore) (start : Text) : Prop :=
  ∀ row ∈ rows, startsLike start row.1 = true → start <+: row.1

def NotSet (key : Text) (ops : List PipeOp) : Prop := ∀ value, PipeOp.set key value ∉ ops

/-- Every read of a pipeline can be made after all its writes. -/
def Regroupable (now : τ) : MemStore τ → DbStore → List PipeOp → Prop
  | _, _, [] => True
  | s, rows, .set key value :: ops =>
    Regroupable now (assocSet key (value, none) s) (assocSet key (encodeValue value) rows) ops
  | s, rows, .get key :: ops =>
    NotSet key ops ∧ BulkReadable s rows key ∧ Regroupable now s rows ops
  | s, rows, .keyExists key :: ops =>
    NotSet key ops ∧ Unexpired now s key ∧ Regroupable now s rows ops

def Agreeable (now : τ) (s : MemStore τ) (rows : DbStore) : KVOp → Prop
  | .set _ _ | .delete _ | .batchDelete _ _ => True
  | .exclusiveSet key _ expiry => Claimable clock now s rows key expiry
  | .get key => Readable now s rows key
  | .keyExists key => Unexpired now s key
  | .getByPrefix start =>
    PatternExact rows start ∧ ∀ key, start <+: key → BulkReadable s rows key
  | .deleteByPrefix start _ => PatternExact rows start
  | .mget keys => ∀ key ∈ keys, BulkReadable s rows key
  | .pipeline ops => Regroupable now s rows ops

theorem like_percent (pattern text : Text) :
    like ('%' :: pattern) text = text.tails.any (like pattern) := by
  rw [like.eq_def]
  exact if_pos rfl

theorem like_cons {p : Char} (hp : p ≠ '%') (pattern : Text) (c : Char) (text : Text) :
    like (p :: pattern) (c :: text) =
      ((p == '_' || foldCase p == foldCase c) && like pattern text) := by
  rw [like.eq_def]
  exact if_neg hp

theorem like_of_prefix (start rest : Text) : like (start ++ ['%']) (start ++ rest) = true := by
  induction start with
  | nil =>
    rw [nil_append, nil_append, like_percent, any_eq_true]
    exact ⟨[], (mem_tails _ _).mpr (nil_suffix), rfl⟩
  | cons c start ih =>
    rw [cons_append, cons_append]
    by_cases hc : c = '%'
    · rw [hc, like_percent, any_eq_true]
      exact ⟨start ++ rest, (mem_tails _ _).mpr (suffix_cons _ _), ih⟩
    · rw [like_cons hc, ih]
      simp

theorem startsLike_eq {rows : DbStore} {start : Text} (h : PatternExact rows start)
    {row : Text × Text} (hrow : row ∈ rows) : startsLike start row.1 = start.isPrefixOf row.1 := by
  rw [Bool.eq_iff_iff, List.isPrefixOf_iff_prefix]
  constructor
  · exact h row hrow
  · rintro ⟨rest, hrest⟩
    rw [← hrest]
    exact like_of_prefix start rest

theorem filter_notMem_append {α : Type} (s : List (Text × α)) (a b : List Text) :
    (s.filter fun e => e.1 ∉ a).filter (fun e => e.1 ∉ b) = s.filter fun e => e.1 ∉ a ++ b := by
  rw [filter_filter]
  refine filter_congr fun e _ => ?_
  simp [not_or, Bool.and_comm]

theorem foldl_filter_batches {α : Type} (s : List (Text × α)) (bs : List (List Text)) :
    bs.foldl (fun s batch => s.filter fun e => e.1 ∉ batch) s =
      s.filter fun e => e.1 ∉ bs.flatten := by
  induction bs generalizing s with
  | nil => simp
  | cons b bs ih => rw [foldl_cons, ih, filter_notMem_append, flatten_cons]

theorem foldl_assocDelete {α : Type} (s : List (Text × α)) (keys : List Text) :
    keys.foldl (fun s key => assocDelete key s) s = s.filter fun e => e.1 ∉ keys := by
  induction keys generalizing s with
  | nil => simp
  | cons key keys ih =>
    rw [foldl_cons, ih, assocDelete, filter_filter]
    refine filter_congr fun e _ => ?_
    simp [not_or, Bool.and_comm]

omit [LinearOrder τ] in
theorem foldl_deleteCounted {s : MemStore τ} (hn : (s.map Prod.fst).Nodup) (batch : List Text)
    (n : Nat) : batch.foldl MemStore.deleteCounted (s, n) =
      (s.filter fun e => e.1 ∉ batch, n + s.countP fun e => e.1 ∈ batch) := by
  induction batch generalizing s n with
  | nil => simp
  | cons key batch ih =>
    have hrest := ih (nodup_assocDelete (k := key) hn) (n + 1)
    have hfilter : (assocDelete key s).filter (fun e => e.1 ∉ batch) =
        s.filter fun e => e.1 ∉ key :: batch := by
      rw [assocDelete, filter_filter]
      refine filter_congr fun e _ => ?_
      simp [not_or, Bool.and_comm]
    have hcount : s.countP (fun e => e.1 ∈ key :: batch) =
        (s.map Prod.fst).count key + (assocDelete key s).countP fun e => e.1 ∈ batch := by
      rw [assocDelete, countP_filter, List.count, countP_map]
      clear ih hn hrest hfilter
      induction s with
      | nil => rfl
      | cons e s ihs =>
        rw [countP_cons, countP_cons, countP_cons, ihs]
        by_cases hkey : e.1 = key <;> by_cases hmem : e.1 ∈ batch <;> simp [hkey, hmem] <;> omega
    rw [foldl_cons, MemStore.deleteCounted, hcount]
    split
    · next hheld =>
      have hmem : key ∈ s.map Prod.fst := by
        by_contra hnot
        rw [assocGet?_eq_none_iff.mpr hnot] at hheld
        cases hheld
      rw [hrest, hfilter, count_eq_one_of_mem hn hmem, Nat.add_assoc]
    · next hfree =>
      have hnot : key ∉ s.map Prod.fst := by
        rwa [Option.not_isSome_iff_eq_none, assocGet?_eq_none_iff] at hfree
      have hsame : assocDelete key s = s := by
        rw [assocDelete, filter_eq_self]
        intro e he
        exact decide_eq_true fun h => hnot (h ▸ mem_map_of_mem he)
      rw [ih hn n, ← hfilter, hsame, count_eq_zero_of_not_mem hnot, Nat.zero_add]

theorem DbStore.deleteCounted_eq (rows : DbStore) (n : Nat) (batch : List Text) :
    DbStore.deleteCounted (rows, n) batch =
      (rows.filter fun row => row.1 ∉ batch, n + rows.countP fun row => row.1 ∈ batch) := by
  simp [DbStore.deleteCounted]

variable {clock} {s : MemStore τ} {rows : DbStore}

theorem Mirrors.filter_notMem (h : Mirrors clock s rows) (keys : List Text) :
    Mirrors clock (s.filter fun e => e.1 ∉ keys) (rows.filter fun row => row.1 ∉ keys) :=
  h.filter fun key => key ∉ keys

theorem Mirrors.countP_mem (h : Mirrors clock s rows) (keys : List Text) :
    (s.countP fun e => e.1 ∈ keys) = rows.countP fun row => row.1 ∈ keys := by
  have hs : (s.map Prod.fst).countP (fun key => key ∈ keys) = s.countP fun e => e.1 ∈ keys :=
    countP_map
  have hrows : (rows.map Prod.fst).countP (fun key => key ∈ keys) =
      rows.countP fun row => row.1 ∈ keys := countP_map
  rw [← hs, ← hrows, h.keys]

theorem Mirrors.deleteBatches (h : Mirrors clock s rows) (bs : List (List Text)) (n : Nat) :
    Mirrors clock (bs.foldl (fun c batch => batch.foldl MemStore.deleteCounted c) (s, n)).1
        (bs.foldl DbStore.deleteCounted (rows, n)).1 ∧
      (bs.foldl (fun c batch => batch.foldl MemStore.deleteCounted c) (s, n)).2 =
        (bs.foldl DbStore.deleteCounted (rows, n)).2 := by
  induction bs generalizing s rows n with
  | nil => exact ⟨h, rfl⟩
  | cons b bs ih =>
    rw [foldl_cons, foldl_cons, foldl_deleteCounted h.nodup,
      DbStore.deleteCounted_eq, h.countP_mem]
    exact ih (h.filter_notMem b) _

theorem Mirrors.cases (h : Mirrors clock s rows) (key : Text) :
    (assocGet? key s = none ∧ assocGet? key rows = none) ∨
      (∃ v, assocGet? key s = some (v, none) ∧ assocGet? key rows = some (encodeValue v)) ∨
      ∃ v e, assocGet? key s = some (v, e) ∧
        assocGet? key rows = some (envelope v (e.map clock.write)) := by
  obtain hnone | ⟨⟨v, e⟩, row, hs, hrows, ⟨hrow, he⟩ | hrow⟩ := h.get? key
  · exact .inl hnone
  · rw [hrow] at hrows
    rw [show e = none from he] at hs
    exact .inr (.inl ⟨v, hs, hrows⟩)
  · rw [hrow] at hrows
    exact .inr (.inr ⟨v, e, hs, hrows⟩)

theorem not_expired_none (now : τ) : ¬ Expired (none : Option τ) now := by
  rintro ⟨e, he, -⟩
  cases he

theorem Mirrors.read (h : Mirrors clock s rows) {now : τ} {key : Text}
    (hkey : Readable now s rows key) :
    (assocGet? key rows).elim (some .absent) readRow = some (s.getWithoutLock now key) := by
  rw [MemStore.getWithoutLock]
  obtain ⟨hs, hrows⟩ | ⟨v, hs, hrows⟩ | ⟨v, e, hs, hrows⟩ := h.cases key
  · rw [hs, hrows]
    rfl
  · obtain ⟨htag, henvelope⟩ := (hkey v none _ hs hrows).1 rfl
    rw [hs, hrows, Option.elim_some, readRow_encodeValue htag henvelope]
    simp only [if_neg (not_expired_none now)]
  · obtain ⟨⟨text, rfl⟩, hexpired⟩ :=
      (hkey v e _ hs hrows).2 (encodeValue_ne_envelope v _).symm
    rw [hs, hrows, Option.elim_some, readRow_envelope]
    simp only [if_neg hexpired]
    rfl

theorem Mirrors.lookup (h : Mirrors clock s rows) (now : τ) {key : Text}
    (hkey : BulkReadable s rows key) : rows.lookup key = some (s.getWithoutLock now key) := by
  rw [DbStore.lookup, MemStore.getWithoutLock]
  obtain ⟨hs, hrows⟩ | ⟨v, hs, hrows⟩ | ⟨v, e, hs, hrows⟩ := h.cases key
  · rw [hs, hrows]
    rfl
  · rw [hs, hrows, Option.elim_some, decodeValue_encodeValue (hkey v none _ hs hrows).2]
    simp only [if_neg (not_expired_none now)]
    rfl
  · exact (encodeValue_ne_envelope v _ (hkey v e _ hs hrows).1.symm).elim

theorem Mirrors.isHeld (h : Mirrors clock s rows) {now : τ} {key : Text}
    (hkey : Unexpired now s key) : s.isHeld now key = (assocGet? key rows).isSome := by
  rw [MemStore.isHeld]
  obtain ⟨hs, hrows⟩ | ⟨v, hs, hrows⟩ | ⟨v, e, hs, hrows⟩ := h.cases key
  · rw [hs, hrows]
    rfl
  · rw [hs, hrows]
    exact decide_eq_true (not_expired_none now)
  · rw [hs, hrows]
    exact decide_eq_true (hkey v e hs)

theorem mapM_eq_some {α β : Type} {f : α → Option β} {g : α → β} {l : List α}
    (h : ∀ a ∈ l, f a = some (g a)) : l.mapM f = some (l.map g) := by
  induction l with
  | nil => rfl
  | cons a l ih =>
    rw [mapM_cons, h a mem_cons_self, ih fun b hb => h b (mem_cons_of_mem _ hb)]
    rfl

theorem Mirrors.filter_keys (h : Mirrors clock s rows) {start : Text}
    (hstart : PatternExact rows start) :
    (rows.map Prod.fst).filter (startsLike start) = (s.map Prod.fst).filter start.isPrefixOf := by
  rw [h.keys]
  refine filter_congr fun key hkey => ?_
  obtain ⟨row, hrow, rfl⟩ := mem_map.mp hkey
  exact startsLike_eq hstart hrow

theorem Mirrors.entries (h : Mirrors clock s rows) (now : τ) {start : Text}
    (hstart : PatternExact rows start)
    (hread : ∀ key, start <+: key → BulkReadable s rows key) :
    DbStore.decodeRows (rows.filter fun row => startsLike start row.1) =
      some (((s.map Prod.fst).filter start.isPrefixOf).map fun key =>
        (key, s.getWithoutLock now key)) := by
  have hkeys : (rows.filter fun row => startsLike start row.1).map Prod.fst =
      (s.map Prod.fst).filter start.isPrefixOf := by
    rw [← h.filter_keys hstart, filter_map]
    rfl
  have hn : (rows.map Prod.fst).Nodup := h.keys ▸ h.nodup
  rw [DbStore.decodeRows, ← hkeys, map_map]
  refine mapM_eq_some fun row hrow => ?_
  obtain ⟨hmem, hlike⟩ := mem_filter.mp hrow
  have hget : assocGet? row.1 rows = some row.2 := assocGet?_of_mem hn hmem
  have hlookup := h.lookup now (hread row.1 (hstart row hmem hlike))
  rw [DbStore.lookup, hget, Option.elim_some] at hlookup
  obtain ⟨v, hv, hread⟩ := Option.map_eq_some_iff.mp hlookup
  rw [hv, Function.comp_apply, ← hread]
  rfl

theorem Mirrors.exclusiveSet (h : Mirrors clock s rows) {now : τ} {key : Text} {expiry : Option Int}
    (value : KVValue) (hkey : Claimable clock now s rows key expiry) :
    Mirrors clock (s.exclusiveSet clock now key value expiry).1
        (rows.exclusiveSet clock now key value expiry).1 ∧
      (s.exclusiveSet clock now key value expiry).2 =
        (rows.exclusiveSet clock now key value expiry).2 := by
  -- Both refuse, or both write.
  have hrefuses : (assocGet? key rows).elim (some false) (refuses clock now) =
      some (s.isHeld now key) := by
    rw [MemStore.isHeld]
    obtain ⟨hs, hrows⟩ | ⟨v, hs, hrows⟩ | ⟨v, e, hs, hrows⟩ := h.cases key
    · rw [hs, hrows]
      rfl
    · rw [hs, hrows, Option.elim_some, refuses.eq_def]
      simp only [not_expired_none, not_false_eq_true, decide_true]
      cases v with
      | bytes content => rw [encodeValue, loads_bytesTag]
      | str text =>
        cases hload : loads (encodeValue (.str text)) with
        | none => rfl
        | some j =>
          obtain ⟨ms, rfl, hexpiry⟩ := hkey.1 text none hs hrows j hload
          exact hexpiry
    · rw [hs, hrows, Option.elim_some, refuses_envelope]
  rw [MemStore.exclusiveSet, DbStore.exclusiveSet, hrefuses]
  cases hheld : s.isHeld now key with
  | true => exact ⟨h, rfl⟩
  | false =>
    have hexpiry : DbStore.expireAt clock now expiry = expiry.map (clock.add now) := by
      cases expiry with
      | none => rfl
      | some seconds =>
        have hne : seconds ≠ 0 := by
          rintro rfl
          rw [hkey.2 rfl] at hheld
          cases hheld
        simp [DbStore.expireAt, hne]
    rw [hexpiry]
    exact ⟨h.set key (.inr rfl), rfl⟩

theorem get?_pipeSets {key : Text} {ops : List PipeOp} (hops : NotSet key ops) (rows : DbStore) :
    assocGet? key (rows.pipeSets ops) = assocGet? key rows := by
  induction ops generalizing rows with
  | nil => rfl
  | cons op ops ih =>
    have hrest : NotSet key ops := fun value h => hops value (.tail _ h)
    cases op with
    | set j value =>
      have hne : key ≠ j := by
        rintro rfl
        exact hops value (.head _)
      rw [DbStore.pipeSets, ih hrest, assocGet?_assocSet_of_ne hne]
    | get j => exact ih hrest rows
    | keyExists j => exact ih hrest rows

theorem Mirrors.pipe (h : Mirrors clock s rows) {now : τ} {ops : List PipeOp}
    (hops : Regroupable now s rows ops) :
    Mirrors clock (s.pipe now ops).1 (rows.pipeSets ops) ∧
      ops.mapM (DbStore.pipeResult (rows.pipeSets ops)) = some (s.pipe now ops).2 := by
  induction ops generalizing s rows with
  | nil => exact ⟨h, rfl⟩
  | cons op ops ih =>
    rw [mapM_cons]
    cases op with
    | set key value =>
      have hset : Mirrors clock (assocSet key (value, none) s)
          (assocSet key (encodeValue value) rows) := h.set key (.inl ⟨rfl, rfl⟩)
      obtain ⟨hmirrors, hresults⟩ := ih hset hops
      refine ⟨hmirrors, ?_⟩
      rw [DbStore.pipeSets, hresults]
      rfl
    | get key =>
      obtain ⟨hnot, hread, hrest⟩ := hops
      obtain ⟨hmirrors, hresults⟩ := ih h hrest
      have hlookup : (rows.pipeSets ops).lookup key = some (s.getWithoutLock now key) := by
        rw [DbStore.lookup, get?_pipeSets hnot]
        exact h.lookup now hread
      have hsets : rows.pipeSets (.get key :: ops) = rows.pipeSets ops := rfl
      refine ⟨hmirrors, ?_⟩
      rw [hsets, hresults, DbStore.pipeResult, hlookup]
      rfl
    | keyExists key =>
      obtain ⟨hnot, hread, hrest⟩ := hops
      obtain ⟨hmirrors, hresults⟩ := ih h hrest
      have hsets : rows.pipeSets (.keyExists key :: ops) = rows.pipeSets ops := rfl
      refine ⟨hmirrors, ?_⟩
      rw [hsets, hresults, DbStore.pipeResult, get?_pipeSets hnot, ← h.isHeld hread]
      rfl

theorem Mirrors.step (h : Mirrors clock s rows) {now : τ} {op : KVOp}
    (hop : Agreeable clock now s rows op) :
    Mirrors clock (s.step clock now op).1 (rows.step clock now op).1 ∧
      (s.step clock now op).2 = (rows.step clock now op).2 := by
  cases op with
  | set key value => exact ⟨h.set key (.inl ⟨rfl, rfl⟩), rfl⟩
  | exclusiveSet key value expiry => exact h.exclusiveSet value hop
  | get key =>
    refine ⟨h, ?_⟩
    rw [MemStore.step, DbStore.step, h.read hop]
    rfl
  | keyExists key => exact ⟨h, congrArg Answer.bool (h.isHeld hop)⟩
  | delete key => exact ⟨h.filter fun k => k ≠ key, rfl⟩
  | getByPrefix start =>
    refine ⟨h, ?_⟩
    rw [MemStore.step, DbStore.step, h.entries now hop.1 hop.2]
    rfl
  | deleteByPrefix start batchSize =>
    refine ⟨?_, rfl⟩
    rw [MemStore.step, DbStore.step, h.filter_keys hop, foldl_filter_batches]
    simp only [foldl_assocDelete]
    rw [foldl_filter_batches]
    exact h.filter_notMem _
  | mget keys =>
    have hreads : keys.mapM rows.lookup = some (keys.map (s.getWithoutLock now)) :=
      mapM_eq_some fun key hkey => h.lookup now (hop key hkey)
    refine ⟨h, ?_⟩
    rw [MemStore.step, DbStore.step, hreads]
    rfl
  | batchDelete keys batchSize =>
    obtain ⟨hmirrors, hcount⟩ := h.deleteBatches (batches batchSize keys) 0
    exact ⟨hmirrors, congrArg Answer.count hcount⟩
  | pipeline ops =>
    obtain ⟨hmirrors, hresults⟩ := h.pipe hop
    rw [MemStore.step, DbStore.step, hresults]
    exact ⟨hmirrors, rfl⟩

def answers {σ : Type} (step : σ → τ → KVOp → σ × Answer) : σ → List (τ × KVOp) → List Answer
  | _, [] => []
  | s, op :: ops => (step s op.1 op.2).2 :: answers step (step s op.1 op.2).1 ops

def stepBoth (clock : Clock τ) (p : MemStore τ × DbStore) (op : τ × KVOp) : MemStore τ × DbStore :=
  ((p.1.step clock op.1 op.2).1, (p.2.step clock op.1 op.2).1)

theorem Mirrors.answers {ops : List (τ × KVOp)} (h : Mirrors clock s rows)
    (hops : Meets (stepBoth clock) (fun p op => Agreeable clock op.1 p.1 p.2 op.2) (s, rows) ops) :
    answers (MemStore.step clock) s ops = answers (DbStore.step clock) rows ops := by
  induction ops generalizing s rows with
  | nil => rfl
  | cons op ops ih =>
    obtain ⟨hmirrors, hanswer⟩ := h.step hops.1
    rw [Store.answers, Store.answers, hanswer, ih hmirrors hops.2]

/-- **Where the stores agree.** Two new stores give the same answers to every sequence of calls
that all meet their conditions. -/
theorem stores_agree (clock : Clock τ) (ops : List (τ × KVOp))
    (hops : Meets (stepBoth clock) (fun p op => Agreeable clock op.1 p.1 p.2 op.2) ([], []) ops) :
    answers (MemStore.step clock) [] ops = answers (DbStore.step clock) [] ops := by
  have hempty : Mirrors clock [] [] := ⟨.nil, nodup_nil⟩
  exact hempty.answers hops

def wholeSeconds : Clock Nat where
  add now expiry := (now + expiry).toNat
  write := Numeral.ofNat
  after numeral now := decide (now < Nat.ofDigitChars 10 numeral.text 0)
  after_write e now := by
    have hread : Nat.ofDigitChars 10 (Numeral.ofNat e).text 0 = e := Nat.ofDigitChars_ten_toDigits
    rw [hread, decide_eq_true_eq]

/-- A value that is set is read and deleted alike. -/
theorem set_value_agrees :
    answers (MemStore.step wholeSeconds) []
        [(0, .set ['k'] (.str ['v'])), (1, .get ['k']), (2, .batchDelete [['k']] none)] =
      answers (DbStore.step wholeSeconds) []
        [(0, .set ['k'] (.str ['v'])), (1, .get ['k']), (2, .batchDelete [['k']] none)] := by
  refine stores_agree wholeSeconds _ ⟨True.intro, fun v e row hs hrows ↦ ?_, True.intro, True.intro⟩
  cases show some (KVValue.str ['v'], none) = _ from hs
  cases show some ['v'] = _ from hrows
  have htag : ¬ bytesTag <+: ['v'] := by decide
  refine ⟨fun _ => ⟨htag, ?_⟩, fun h => (h rfl).elim⟩
  rintro ⟨ms, hload, -⟩
  cases show none = _ from hload

/-- A bulk read gives the envelope of an exclusive value. -/
theorem envelope_answered :
    answers (MemStore.step wholeSeconds) []
        [(0, .exclusiveSet ['k'] (.str ['v']) none), (1, .mget [['k']])] ≠
      answers (DbStore.step wholeSeconds) []
        [(0, .exclusiveSet ['k'] (.str ['v']) none), (1, .mget [['k']])] := by
  intro h
  have hreads : Answer.reads [.value (.str ['v'])] =
      Answer.reads [.value (.str (envelope (.str ['v']) none))] :=
    (List.cons.inj (List.cons.inj h).2).1
  have htext := KVValue.str.inj (Read.value.inj (List.cons.inj (Answer.reads.inj hreads)).1)
  exact encodeValue_ne_envelope (.str ['v']) none htext

end JiuwenSpec.Store

import JiuwenSpec.Swarm.JournalLines

/-!
# Journal round trip

Loading either file of a run gives back the last record of each key, if and only if no such
record holds one of the boundaries that are printed as they are.
-/

namespace JiuwenSpec.Swarm

open Base List

def lastRecord : List Record → Text → Option Record
  | [], _ => none
  | r :: records, key =>
    match lastRecord records key with
    | some s => some s
    | none => if r.key = key then some r else none

theorem get?_overlay (prior : Dict Text Record) (records : List Record) (key : Text) :
    (overlay prior records).get? key =
      match lastRecord records key with
      | some r => some r
      | none => prior.get? key := by
  induction records generalizing prior with
  | nil => rfl
  | cons r records ih =>
    rw [overlay, foldl_cons, ← overlay, ih, lastRecord]
    cases lastRecord records key with
    | some s => rfl
    | none =>
      rw [Dict.get?_set]
      by_cases h : key = r.key
      · simp [h]
      · simp [h, Ne.symm h]

theorem lastRecord_append (a b : List Record) (key : Text) :
    lastRecord (a ++ b) key =
      match lastRecord b key with
      | some r => some r
      | none => lastRecord a key := by
  induction a with
  | nil => cases h : lastRecord b key <;> simp [h, lastRecord]
  | cons r a ih =>
    rw [cons_append, lastRecord, ih, lastRecord]
    cases lastRecord b key <;> rfl

variable {records : List Record}

theorem lastRecord_mem {key : Text} {r : Record}
    (h : lastRecord records key = some r) : r ∈ records ∧ r.key = key := by
  induction records with
  | nil => cases h
  | cons s records ih =>
    rw [lastRecord] at h
    split at h
    · next t ht =>
      cases h
      exact ⟨.tail _ (ih ht).1, (ih ht).2⟩
    · simp only [Option.ite_none_right_eq_some, Option.some.injEq] at h
      obtain ⟨hkey, rfl⟩ := h
      exact ⟨.head _, hkey⟩

theorem exists_lastRecord {r : Record} (h : r ∈ records) :
    ∃ r', lastRecord records r.key = some r' := by
  induction records with
  | nil => cases h
  | cons s records ih =>
    rw [lastRecord]
    cases hlast : lastRecord records r.key with
    | some r' => exact ⟨r', rfl⟩
    | none =>
      rcases mem_cons.mp h with rfl | h
      · exact ⟨r, if_pos rfl⟩
      · obtain ⟨r', hr'⟩ := ih h
        rw [hlast] at hr'
        cases hr'

theorem lastRecord_filter {P : Record → Prop} [DecidablePred P]
    {key : Text} (h : ∀ r, lastRecord records key = some r → P r) :
    lastRecord (records.filter fun r => decide (P r)) key = lastRecord records key := by
  induction records with
  | nil => rfl
  | cons r records ih =>
    rw [lastRecord] at h ⊢
    cases hlater : lastRecord records key with
    | some s =>
      have hs : P s := h s (by rw [hlater])
      have hfilter : lastRecord (records.filter fun r => decide (P r)) key = some s := by
        rw [ih fun t ht => Option.some.inj (hlater.symm.trans ht) ▸ hs, hlater]
      by_cases hr : P r
      · rw [filter_cons_of_pos (by simpa using hr), lastRecord, hfilter]
      · rw [filter_cons_of_neg (by simpa using hr), hfilter]
    | none =>
      have hfilter : lastRecord (records.filter fun r => decide (P r)) key = none := by
        rw [ih fun t ht => absurd (hlater.symm.trans ht) (by simp), hlater]
      rw [hlater] at h
      by_cases hr : P r
      · rw [filter_cons_of_pos (by simpa using hr), lastRecord, hfilter]
      · have hkey : r.key ≠ key := fun hkey => hr (h r (if_pos hkey))
        rw [filter_cons_of_neg (by simpa using hr), hfilter]
        exact (if_neg hkey).symm

theorem lastRecord_eq_some_iff (h : (records.map Record.key).Nodup) {key : Text} {r : Record} :
    lastRecord records key = some r ↔ r ∈ records ∧ r.key = key := by
  refine ⟨lastRecord_mem, ?_⟩
  rintro ⟨hr, rfl⟩
  induction records with
  | nil => cases hr
  | cons s records ih =>
    rw [map_cons, nodup_cons] at h
    rw [lastRecord]
    rcases mem_cons.mp hr with rfl | hr
    · cases hlater : lastRecord records r.key with
      | none => exact if_pos rfl
      | some t =>
        have ht := lastRecord_mem hlater
        exact absurd (ht.2 ▸ mem_map_of_mem ht.1) h.1
    · rw [ih h.2 hr]

def walText (records : List Record) : Text := records.flatMap walLine

theorem walText_cons (r : Record) (records : List Record) :
    walText (r :: records) = walLine r ++ walText records := flatMap_cons

theorem parseRecords_walText (records : List Record) :
    parseRecords (walText records) = records.filter fun r => decide r.Unbroken := by
  induction records with
  | nil => rfl
  | cons r records ih =>
    have hnewline : walText (r :: records) = r.line ++ '\n' :: walText records := by
      rw [walText_cons, walLine, append_assoc]
      rfl
    rw [hnewline, parseRecords_newline (return_not_mem_line r), ih, parseRecords_line]
    by_cases h : r.Unbroken
    · rw [if_pos h, filter_cons_of_pos (by simpa using h)]
      rfl
    · rw [if_neg h, filter_cons_of_neg (by simpa using h)]
      rfl

theorem load_journal (text : Text) :
    load { journal := some (writeText text) } =
      some (overlay Dict.empty (parseRecords text)) := by
  simp [load]

theorem load_wal (text : Text) :
    load { wal := some (writeText text) } = some (overlay Dict.empty (parseRecords text)) := by
  simp [load]

theorem load_files {files : JournalFiles} {shared : Dict Text Record}
    (h : load { files with wal := none } = some shared) (text : Text) :
    load { files with wal := some (writeText text) } =
      some (overlay shared (parseRecords text)) := by
  simp only [load, foldlM_cons, foldlM_nil, Option.bind_eq_bind, Option.pure_def,
    Option.bind_fun_some] at h ⊢
  obtain ⟨legacy, hlegacy, h⟩ := Option.bind_eq_some_iff.mp h
  obtain ⟨legacyWal, hlegacyWal, hjournal⟩ := Option.bind_eq_some_iff.mp h
  rw [hlegacy, Option.bind_some, hlegacyWal, Option.bind_some, hjournal, Option.bind_some,
    readText_writeText, Option.map_some]

namespace Journal

def written (records : List Record) : Journal := records.foldl use {}

theorem wal_foldl (j : Journal) (records : List Record) :
    (records.foldl use j).wal = j.wal ++ writeText (walText records) := by
  induction records generalizing j with
  | nil =>
    show j.wal = j.wal ++ writeText []
    rw [show writeText [] = ByteArray.empty from rfl, ByteArray.append_empty]
  | cons r records ih =>
    rw [foldl_cons, ih, walText_cons, writeText_append, ← ByteArray.append_assoc]
    rfl

theorem used_foldl (j : Journal) (records : List Record) :
    (records.foldl use j).used = overlay j.used records := by
  induction records generalizing j with
  | nil => rfl
  | cons r records ih =>
    rw [foldl_cons, ih]
    rfl

theorem get?_used (records : List Record) (key : Text) :
    (written records).used.get? key = lastRecord records key := by
  rw [written, used_foldl, get?_overlay]
  cases lastRecord records key <;> rfl

private theorem intercalate_lines (records : List Record) :
    (if records.map Record.line = [] then []
      else ['\n'].intercalate (records.map Record.line) ++ ['\n']) = walText records := by
  induction records with
  | nil => rfl
  | cons r records ih =>
    rw [walText_cons, ← ih, if_neg (by simp)]
    cases records with
    | nil => simp [walLine, List.intercalate]
    | cons s records => simp [walLine, List.intercalate]

private theorem mapM_order {entries : List (Text × Record)}
    (h : ∀ e ∈ entries, (programOrder e.1).isSome) :
    ∃ ordered, entries.mapM (fun e => (programOrder e.1).map fun order => (order, e.2)) =
      some ordered ∧ ordered.map Prod.snd = entries.map Prod.snd := by
  induction entries with
  | nil => exact ⟨[], rfl, rfl⟩
  | cons e entries ih =>
    rw [forall_mem_cons] at h
    obtain ⟨order, horder⟩ := Option.isSome_iff_exists.mp h.1
    obtain ⟨ordered, hordered, hsame⟩ := ih h.2
    refine ⟨(order, e.2) :: ordered, ?_, by rw [map_cons, map_cons, hsame]⟩
    rw [mapM_cons, horder, hordered]
    rfl

theorem save_eq {j : Journal} (h : ∀ e ∈ j.used.entries, (programOrder e.1).isSome) :
    ∃ records, records.Perm j.used.values ∧ j.save = some (writeText (walText records)) := by
  obtain ⟨ordered, hordered, hsame⟩ := mapM_order h
  refine ⟨(ordered.mergeSort fun a b => orderLe a.1 b.1).map Prod.snd, ?_, ?_⟩
  · rw [Dict.values, ← hsame]
    exact (mergeSort_perm ordered _).map Prod.snd
  · rw [save, hordered, ← intercalate_lines]
    rfl

theorem key_of_used {key : Text} {r : Record}
    (h : (key, r) ∈ (written records).used.entries) : r ∈ records ∧ r.key = key :=
  lastRecord_mem ((get?_used records key).symm.trans (Dict.get?_eq_some_iff.mpr h))

theorem keys_of_used (records : List Record) :
    (written records).used.values.map Record.key = (written records).used.keys := by
  rw [Dict.values, Dict.keys, map_map]
  apply map_congr_left
  intro e he
  exact (key_of_used he).2

theorem lastRecord_of_perm {saved : List Record}
    (h : saved.Perm (written records).used.values) (key : Text) :
    lastRecord saved key = lastRecord records key := by
  have hnodup : (saved.map Record.key).Nodup := by
    rw [(h.map Record.key).nodup_iff, keys_of_used]
    exact (written records).used.nodup
  ext r
  rw [lastRecord_eq_some_iff hnodup, h.mem_iff, ← get?_used, Dict.mem_values_iff]
  constructor
  · rintro ⟨⟨k, hk⟩, rfl⟩
    rwa [(key_of_used (Dict.get?_eq_some_iff.mp hk)).2]
  · intro hr
    exact ⟨⟨key, hr⟩, (key_of_used (Dict.get?_eq_some_iff.mp hr)).2⟩

end Journal

/-- Loading these files gives the last of the records of each key, and no other key. -/
def Yields (files : JournalFiles) (records : List Record) : Prop :=
  ∃ prior, load files = some prior ∧ ∀ key, prior.get? key = lastRecord records key

private theorem yields_iff {files : JournalFiles} (saved : List Record)
    (hload : load files = some (overlay Dict.empty (saved.filter fun r => decide r.Unbroken)))
    (hsaved : ∀ key, lastRecord saved key = lastRecord records key) :
    Yields files records ↔ ∀ key r, lastRecord records key = some r → r.Unbroken := by
  have hprior : ∀ key, (overlay Dict.empty (saved.filter fun r => decide r.Unbroken)).get? key =
      lastRecord (saved.filter fun r => decide r.Unbroken) key := by
    intro key
    rw [get?_overlay]
    cases lastRecord (saved.filter fun r => decide r.Unbroken) key <;> rfl
  constructor
  · rintro ⟨prior, hprior', hget⟩ key r hr
    rw [hload] at hprior'
    cases hprior'
    have hread : lastRecord (saved.filter fun r => decide r.Unbroken) key = some r := by
      rw [← hprior, hget, hr]
    simpa using (mem_filter.mp (lastRecord_mem hread).1).2
  · intro h
    refine ⟨_, hload, fun key => ?_⟩
    rw [hprior, lastRecord_filter fun r hr => h key r (hsaved key ▸ hr), hsaved]

theorem yields_wal_iff (records : List Record) :
    Yields { wal := some (Journal.written records).wal } records ↔
      ∀ key r, lastRecord records key = some r → r.Unbroken := by
  have hwal : (Journal.written records).wal = writeText (walText records) := by
    rw [Journal.written, Journal.wal_foldl]
    exact ByteArray.empty_append
  apply yields_iff records
  · rw [hwal, load_wal, parseRecords_walText]
  · exact fun _ => rfl

theorem yields_save_iff (hkeys : ∀ r ∈ records, ∃ path, r.key = keyStr path) :
    ∃ file, (Journal.written records).save = some file ∧
      (Yields { journal := some file } records ↔
        ∀ key r, lastRecord records key = some r → r.Unbroken) := by
  have horder : ∀ e ∈ (Journal.written records).used.entries, (programOrder e.1).isSome := by
    intro e he
    obtain ⟨hmem, hkey⟩ := Journal.key_of_used he
    obtain ⟨path, hpath⟩ := hkeys e.2 hmem
    rw [← hkey, hpath]
    exact programOrder_keyStr path
  obtain ⟨saved, hperm, hsave⟩ := Journal.save_eq horder
  refine ⟨_, hsave, ?_⟩
  apply yields_iff saved
  · rw [load_journal, parseRecords_walText]
  · exact Journal.lastRecord_of_perm hperm

/-- **Journal round trip**: the log and the saved journal of a run give back the last record of
each key if and only if none of these records holds a boundary that is printed as it is. -/
theorem journal_roundTrip_iff (records : List Record)
    (hkeys : ∀ r ∈ records, ∃ path, r.key = keyStr path) :
    (Yields { wal := some (Journal.written records).wal } records ∧
      ∃ file, (Journal.written records).save = some file ∧
        Yields { journal := some file } records) ↔
      ∀ key r, lastRecord records key = some r → r.Unbroken := by
  obtain ⟨file, hsave, hjournal⟩ := yields_save_iff hkeys
  constructor
  · exact fun h => (yields_wal_iff records).mp h.1
  · exact fun h => ⟨(yields_wal_iff records).mpr h, file, hsave, hjournal.mpr h⟩

/-- The record of the `n`-th call of a script. -/
def callRecord (n : Nat) (result : Text) : Record where
  members :=
    [(keyName, .string (keyStr [⟨['c', 'a', 'l', 'l'], [.index n]⟩])),
      (['r', 'e', 's', 'u', 'l', 't'], .string result)]
  apart := by
    have hnodup : [keyName, ['r', 'e', 's', 'u', 'l', 't']].Nodup := by decide
    exact ⟨hnodup, trivial, trivial, trivial⟩
  key := keyStr [⟨['c', 'a', 'l', 'l'], [.index n]⟩]
  keyed := rfl

theorem journal_roundTrip_two_calls :
    Yields { wal := some (Journal.written [callRecord 0 ['a', '\n'], callRecord 1 []]).wal }
        [callRecord 0 ['a', '\n'], callRecord 1 []] ∧
      ∃ file, (Journal.written [callRecord 0 ['a', '\n'], callRecord 1 []]).save = some file ∧
        Yields { journal := some file } [callRecord 0 ['a', '\n'], callRecord 1 []] := by
  apply (journal_roundTrip_iff _ ?_).mpr
  · intro key r hr
    have hfirst : (callRecord 0 ['a', '\n']).Unbroken := by decide
    have hsecond : (callRecord 1 []).Unbroken := by decide
    have hmem := (lastRecord_mem hr).1
    simp only [mem_cons, not_mem_nil, or_false] at hmem
    rcases hmem with rfl | rfl
    · exact hfirst
    · exact hsecond
  · intro r hr
    simp only [mem_cons, not_mem_nil, or_false] at hr
    rcases hr with rfl | rfl
    · exact ⟨_, rfl⟩
    · exact ⟨_, rfl⟩

/-- A result with a line separator in it is lost, from either file. -/
theorem line_separator_lost :
    ¬ Yields { wal := some (Journal.written [callRecord 0 ['\u2028']]).wal }
        [callRecord 0 ['\u2028']] ∧
      ∀ file, (Journal.written [callRecord 0 ['\u2028']]).save = some file →
        ¬ Yields { journal := some file } [callRecord 0 ['\u2028']] := by
  have hbroken : ¬ ∀ key r, lastRecord [callRecord 0 ['\u2028']] key = some r → r.Unbroken :=
    fun h => absurd (h _ _ (if_pos rfl)) (by decide)
  have hkeys : ∀ r ∈ [callRecord 0 ['\u2028']], ∃ path, r.key = keyStr path := by
    intro r hr
    rw [mem_singleton.mp hr]
    exact ⟨_, rfl⟩
  obtain ⟨file, hsave, hjournal⟩ := yields_save_iff hkeys
  refine ⟨fun h => hbroken ((yields_wal_iff _).mp h), fun file' hsave' h => hbroken ?_⟩
  rw [hsave] at hsave'
  cases hsave'
  exact hjournal.mp h

end JiuwenSpec.Swarm

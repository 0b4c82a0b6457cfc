import JiuwenSpec.Team.FrontMatter

/-!
# Which files have evolved

A block and a body are written one behind the other and read back as they were, since no line of
the block reads as the delimiter and the body begins behind it, whatever its lines are. So a file
keeps its baseline and its body through the framework's own writes and stamps, and the hashes
differ where another party has changed the body.
-/

namespace JiuwenSpec.Workspace

open Base List

variable {lib : Library} {kind name : Text} {entries : Meta} {s : State}

theorem intercalate_newline {lines : List Text} (h : lines ≠ []) (rest : Text) :
    ['\n'].intercalate lines ++ '\n' :: rest = (lines.map (· ++ ['\n'])).flatten ++ rest := by
  induction lines with
  | nil => exact absurd rfl h
  | cons line lines ih =>
    cases lines with
    | nil => simp [List.intercalate]
    | cons line' lines =>
      have := ih (cons_ne_nil _ _)
      rw [map_cons, flatten_cons, append_assoc, ← this]
      simp [List.intercalate]

theorem unbroken_of_all {line : Text} (h : line.all (fun c => !decide (IsLineBreak c)) = true) :
    ∀ c ∈ line, ¬ IsLineBreak c := by
  intro c hc
  simpa using all_eq_true.mp h c hc

theorem delim_unbroken : ∀ c ∈ delim, ¬ IsLineBreak c := unbroken_of_all (by decide)

def head (lines : List Text) : List Text := delim :: lines ++ [delim]

theorem head_unbroken {lines : List Text} (h : ∀ line ∈ lines, ∀ c ∈ line, ¬ IsLineBreak c) :
    ∀ line ∈ head lines, ∀ c ∈ line, ¬ IsLineBreak c := by
  intro line hline
  rcases mem_append.mp hline with hline | hline
  · rcases mem_cons.mp hline with rfl | hline
    · exact delim_unbroken
    · exact h line hline
  · rw [mem_singleton.mp hline]
    exact delim_unbroken

theorem writeFrontmatter_eq {lines : List Text} (hne : lines ≠ [])
    (hdump : strip (lib.safeDump entries) = ['\n'].intercalate lines) (body : Text) :
    writeFrontmatter lib entries body = ((head lines).map (· ++ ['\n'])).flatten ++ body := by
  rw [writeFrontmatter, hdump, head]
  have := intercalate_newline hne (delim ++ '\n' :: body)
  simp only [append_assoc, cons_append] at this ⊢
  rw [this]
  simp

theorem readFrontmatter_writeFrontmatter (h : Clean lib entries) (body : Text) :
    readFrontmatter lib (writeFrontmatter lib entries body) = some (entries, body) := by
  obtain ⟨lines, hne, hdump, hlines, hload⟩ := h
  have hunbroken := head_unbroken fun line hline => (hlines line hline).1
  have hprefix : delim <+: writeFrontmatter lib entries body := by
    rw [writeFrontmatter, append_assoc]
    exact prefix_append _ _
  rw [readFrontmatter, if_neg (not_not.mpr hprefix), writeFrontmatter_eq hne hdump,
    splitLines_lines hunbroken, splitLinesKeep_lines hunbroken]
  have htail : (head lines ++ splitLines body).tail = lines ++ delim :: splitLines body := by
    simp [head]
  have hlen : ¬ (head lines ++ splitLines body).length < 2 := by
    simp only [head, length_append, length_cons, length_nil]
    omega
  have hidx : (lines ++ delim :: splitLines body).findIdx? (strip · = delim) =
      some lines.length := by
    rw [List.findIdx?_eq_some_iff_getElem]
    refine ⟨by simp, by simp; decide, fun j hj => ?_⟩
    rw [getElem_append_left hj]
    simpa using (hlines _ (getElem_mem hj)).2
  have hdrop : ((head lines).map (· ++ ['\n']) ++ splitLinesKeep body).drop (lines.length + 2) =
      splitLinesKeep body := by
    rw [drop_append_of_le_length (by simp [head])]
    rw [drop_of_length_le (by simp [head])]
    rfl
  simp only [if_neg hlen, htail, hidx, hdrop, take_left', hload, flatten_splitLinesKeep]

theorem universalNewlines_writeFrontmatter (h : Clean lib entries) (body : Text) :
    universalNewlines (writeFrontmatter lib entries body) =
      writeFrontmatter lib entries (universalNewlines body) := by
  obtain ⟨lines, hne, hdump, hlines, -⟩ := h
  rw [writeFrontmatter_eq hne hdump, writeFrontmatter_eq hne hdump, universalNewlines_append]
  intro hmem
  obtain ⟨line', hline', hreturn⟩ := mem_flatten.mp hmem
  obtain ⟨line, hline, rfl⟩ := mem_map.mp hline'
  rcases mem_append.mp hreturn with hreturn | hreturn
  · exact head_unbroken (fun line hline => (hlines line hline).1) line hline _ hreturn (by decide)
  · exact absurd hreturn (by decide)

theorem mem_of_readFrontmatter {text body : Text}
    (h : readFrontmatter lib text = some (entries, body)) : ∀ c ∈ body, c ∈ text := by
  rw [readFrontmatter] at h
  have hwhole : some (([] : Meta), text) = some (entries, body) → ∀ c ∈ body, c ∈ text := by
    intro heq
    cases heq
    exact fun _ hc => hc
  have hrest : ∀ n, ∀ c ∈ ((splitLinesKeep text).drop n).flatten, c ∈ text := by
    intro n c hc
    rw [← flatten_splitLinesKeep text]
    obtain ⟨line, hline, hc⟩ := mem_flatten.mp hc
    exact mem_flatten.mpr ⟨line, mem_of_mem_drop hline, hc⟩
  split at h
  · exact hwhole h
  · simp only at h
    split at h
    · exact hwhole h
    · split at h
      · exact hwhole h
      · next idx _ =>
        split at h
        · cases h
        · cases h
          exact hrest (idx + 2)
        · cases h
          exact hrest (idx + 2)
        · cases h

theorem return_not_mem_body {raw body : Text}
    (h : readFrontmatter lib (universalNewlines raw) = some (entries, body)) : '\r' ∉ body :=
  fun hmem => return_not_mem_universalNewlines raw (mem_of_readFrontmatter h _ hmem)

theorem evolvedContent_of_read {raw body : Text}
    (h : readFrontmatter lib (universalNewlines raw) = some (entries, body)) :
    (isEvolved lib entries body = false → evolvedContent lib (some raw) = none) ∧
      (isEvolved lib entries body = true →
        ∃ c, evolvedContent lib (some raw) = some c ∧ c.body = body) := by
  have hparse : ∃ c, parseFileContent lib (some raw) = .content c ∧ c.body = body ∧
      c.isEvolved lib = isEvolved lib entries body := by
    rw [parseFileContent]
    simp only [h]
    split
    · split
      · exact ⟨_, rfl, rfl, rfl⟩
      · exact ⟨_, rfl, rfl, rfl⟩
    · exact ⟨_, rfl, rfl, rfl⟩
  obtain ⟨c, hc, hbody, hevolved⟩ := hparse
  rw [evolvedContent, hc]
  simp only [hevolved]
  exact ⟨fun hno => by rw [hno]; rfl, fun hyes => ⟨c, by rw [hyes]; rfl, hbody⟩⟩

theorem isEvolved_stamp (entries : Meta) (ts : Int) (body : Text) :
    isEvolved lib (assocSet "updated_at".toList (.int ts) entries) body =
      isEvolved lib entries body := by
  have hget : metaGet? (assocSet "updated_at".toList (.int ts) entries) "baseline_sha256".toList =
      metaGet? entries "baseline_sha256".toList := by
    rw [metaGet?, assocGet?_assocSet_of_ne (by decide), metaGet?]
  rw [isEvolved, hget, isEvolved]

/-- A file holds what its author has written: the framework a text with its own hash, another
party a body that is judged evolved. -/
inductive Holds (lib : Library) (kind name : Text) : State → Prop
  | missing : Holds lib kind name { file := none, author := .framework }
  | framework (entries : Meta) (text : Text) (h : Clean lib entries) (htext : '\r' ∉ text)
      (hbaseline : metaGet? entries "baseline_sha256".toList = some (.text (lib.sha256 text))) :
      Holds lib kind name
        { file := some (writeFrontmatter lib entries text), author := .framework }
  | other (raw body : Text) (entries : Meta)
      (h : readFrontmatter lib (universalNewlines raw) = some (entries, body))
      (hevolved : isEvolved lib entries body = true) :
      Holds lib kind name { file := some raw, author := .other body }
  | invalid (file : Option Text) : Holds lib kind name { file := file, author := .invalid }

theorem read_framework {text : Text} (h : Clean lib entries) (htext : '\r' ∉ text) :
    readFrontmatter lib (universalNewlines (writeFrontmatter lib entries text)) =
      some (entries, text) := by
  rw [universalNewlines_writeFrontmatter h, (universalNewlines_eq_iff text).mpr htext,
    readFrontmatter_writeFrontmatter h]

theorem framework_not_evolved {text : Text} (h : Clean lib entries) (htext : '\r' ∉ text)
    (hbaseline : metaGet? entries "baseline_sha256".toList = some (.text (lib.sha256 text))) :
    evolvedContent lib (some (writeFrontmatter lib entries text)) = none := by
  refine (evolvedContent_of_read (read_framework h htext)).1 ?_
  rw [isEvolved, hbaseline]
  simp

theorem editor_holds (lib : Library) (kind name file : Text) :
    Holds lib kind name { file := some file, author := editor lib file } := by
  rw [editor]
  split
  · exact .invalid _
  · next entries body hread =>
    split
    · next hevolved => exact .other file body entries hread hevolved
    · exact .invalid _

theorem writeValue_of_none {file : Option Text} (h : evolvedContent lib file = none) (text : Text)
    (ts : Int) (io : Bool) : (writeValue lib kind name file text ts io).1 =
      if text ≠ [] ∧ io then
        some (writeFrontmatter lib (baselineMeta lib kind name text ts) text)
      else file := by
  rw [writeValue]
  by_cases htext : text = []
  · rw [if_pos htext, if_neg fun hn => hn.1 htext]
  · rw [if_neg htext, h]
    cases io with
    | true => rw [if_pos ⟨htext, rfl⟩]; rfl
    | false => rw [if_neg fun hn => Bool.false_ne_true hn.2]; rfl

theorem writeValue_of_some {file : Option Text} {c : FileContent}
    (h : evolvedContent lib file = some c) (text : Text) (ts : Int) (io : Bool) :
    (writeValue lib kind name file text ts io).1 = file := by
  rw [writeValue, h]
  split
  · rfl
  · rfl

theorem read_stampUpdatedAt {raw body : Text} {ts : Int} {io : Bool}
    (hread : readFrontmatter lib (universalNewlines raw) = some (entries, body))
    (hclean : Clean lib (assocSet "updated_at".toList (.int ts) entries)) :
    ∃ raw', stampUpdatedAt lib (some raw) ts io = some raw' ∧ ∃ entries',
      readFrontmatter lib (universalNewlines raw') = some (entries', body) ∧
        isEvolved lib entries' body = isEvolved lib entries body := by
  rw [stampUpdatedAt]
  simp only [hread]
  cases io with
  | true => exact ⟨_, rfl, _, read_framework hclean (return_not_mem_body hread),
      isEvolved_stamp entries ts body⟩
  | false => exact ⟨raw, rfl, entries, hread, rfl⟩

theorem write_holds (h : Holds lib kind name s) {text : Text} {ts : Int} {io : Bool}
    (hregular : Regular lib kind name s (.write text ts io)) :
    Holds lib kind name (step lib kind name s (.write text ts io)) := by
  have hwritten : evolvedContent lib s.file = none →
      Holds lib kind name (step lib kind name s (.write text ts io)) := by
    intro hnone
    rw [step, writeValue_of_none hnone]
    by_cases hio : text ≠ [] ∧ io
    · rw [if_pos hio, if_pos ⟨hio.1, hio.2, hnone⟩]
      exact .framework _ text hregular.2 hregular.1 rfl
    · rw [if_neg hio, if_neg fun hn => hio ⟨hn.1, hn.2.1⟩]
      exact h
  cases h with
  | missing => exact hwritten rfl
  | framework entries old h htext hbaseline =>
    exact hwritten (framework_not_evolved h htext hbaseline)
  | other raw body entries hread hevolved =>
    obtain ⟨c, hc, -⟩ := (evolvedContent_of_read hread).2 hevolved
    rw [step, writeValue_of_some hc, if_neg fun hn => by rw [hc] at hn; cases hn.2.2]
    exact .other raw body entries hread hevolved
  | invalid file =>
    cases hevolved : evolvedContent lib file with
    | none => exact hwritten hevolved
    | some c =>
      rw [step, writeValue_of_some hevolved, if_neg fun hn => by rw [hevolved] at hn; cases hn.2.2]
      exact .invalid file

theorem stamp_holds (h : Holds lib kind name s) {ts : Int} {io : Bool}
    (hregular : Regular lib kind name s (.stamp ts io)) :
    Holds lib kind name (step lib kind name s (.stamp ts io)) := by
  cases h with
  | missing => exact .missing
  | framework entries text h htext hbaseline =>
    rw [step, stampUpdatedAt]
    simp only [read_framework h htext]
    cases io with
    | true =>
      refine .framework _ text (hregular _ entries text rfl (read_framework h htext)) htext ?_
      rw [metaGet?, assocGet?_assocSet_of_ne (by decide)]
      exact hbaseline
    | false => exact .framework entries text h htext hbaseline
  | other raw body entries hread hevolved =>
    obtain ⟨raw', hraw', entries', hread', hsame⟩ :=
      @read_stampUpdatedAt lib entries raw body ts io hread (hregular raw entries body rfl hread)
    rw [step, hraw']
    exact .other raw' body entries' hread' (hsame.trans hevolved)
  | invalid file => exact .invalid _

theorem step_holds (op : Op) (h : Holds lib kind name s) (hregular : Regular lib kind name s op) :
    Holds lib kind name (step lib kind name s op) := by
  cases op with
  | write text ts io => exact write_holds h hregular
  | stamp ts io => exact stamp_holds h hregular
  | editBody body =>
    rw [step]
    split
    · exact editor_holds lib kind name body
    · exact editor_holds lib kind name _
  | editFile text => exact editor_holds lib kind name text

theorem editBody_evolved {raw old body : Text} (h : Holds lib kind name s)
    (hauthor : s.author = .framework) (hfile : s.file = some raw)
    (hread : readFrontmatter lib raw = some (entries, old))
    (hhash : lib.sha256 (universalNewlines body) ≠ lib.sha256 old) :
    (step lib kind name s (.editBody body)).author = .other (universalNewlines body) := by
  cases h with
  | missing => cases hfile
  | other => cases hauthor
  | invalid file => cases hauthor
  | framework entries' text hclean htext hbaseline =>
    obtain rfl := Option.some.inj hfile
    rw [readFrontmatter_writeFrontmatter hclean] at hread
    obtain ⟨-, rfl⟩ := Prod.mk.inj (Option.some.inj hread)
    have hreplaced : replaceBody lib (writeFrontmatter lib entries' text) body =
        writeFrontmatter lib entries' body := by
      obtain ⟨lines, hne, hdump, -, -⟩ := id hclean
      rw [replaceBody, readFrontmatter_writeFrontmatter hclean]
      simp only [writeFrontmatter_eq hne hdump, length_append, Nat.add_sub_cancel,
        take_left']
    have heditor : (step lib kind name
        { file := some (writeFrontmatter lib entries' text), author := .framework }
        (.editBody body)).author = editor lib (writeFrontmatter lib entries' body) := by
      rw [← hreplaced]
      rfl
    have hevolved : isEvolved lib entries' (universalNewlines body) = true := by
      rw [isEvolved, hbaseline]
      simpa using hhash
    rw [heditor, editor, universalNewlines_writeFrontmatter hclean,
      readFrontmatter_writeFrontmatter hclean]
    exact if_pos hevolved

theorem editFile_evolved {text : Text} (h : ¬ delim <+: universalNewlines text) :
    (step lib kind name s (.editFile text)).author = .other (universalNewlines text) := by
  have hread : readFrontmatter lib (universalNewlines text) = some ([], universalNewlines text) :=
    if_pos h
  change editor lib text = _
  rw [editor, hread]
  exact if_pos rfl

/-- The hash of `hi`, and of any other text that of `yo`. -/
def sampleSha (text : Text) : Text :=
  if text = "hi".toList then
    "8f434346648f6b96df89dda901c5176b10a6d83961dd3c1ac88b59b2dc327aa4".toList
  else "e9058ab198f6908f702111b0c0fb5b36f99d00554521886c40e2891b349dc7a1".toList

/-- The lines of the block of a prompt that says `hi`. -/
def sampleLines : List Text :=
  ["kind: prompt".toList, "name: member_prompt".toList,
    "baseline_sha256: 8f434346648f6b96df89dda901c5176b10a6d83961dd3c1ac88b59b2dc327aa4".toList,
    "evolved: false".toList, "updated_at: 5".toList]

/-- The library, on that block and on the text `hello`. -/
def sampleLibrary : Library where
  safeLoad text :=
    if text = ['\n'].intercalate sampleLines then
      some (.mapping (baselineMeta ⟨fun _ => none, fun _ => [], sampleSha⟩ "prompt".toList
        "member_prompt".toList "hi".toList 5))
    else if text = "hello".toList then some .other
    else some .falsy
  safeDump _ := ['\n'].intercalate sampleLines ++ ['\n']
  sha256 := sampleSha

/-- The framework writes `hi` and another party replaces it by `yo`. -/
def sampleRun : List Op := [.write "hi".toList 5 true, .editBody "yo".toList]

theorem sampleRun_regular : Meets (step sampleLibrary "prompt".toList "member_prompt".toList)
    (Regular sampleLibrary "prompt".toList "member_prompt".toList) {} sampleRun := by
  have hall : sampleLines.all (fun line => line.all (fun c => !decide (IsLineBreak c)) &&
      decide (strip line ≠ delim)) = true := by
    decide +kernel
  have hlines : ∀ line ∈ sampleLines, (∀ c ∈ line, ¬ IsLineBreak c) ∧ strip line ≠ delim := by
    intro line hline
    have hline := Bool.and_eq_true_iff.mp (all_eq_true.mp hall line hline)
    exact ⟨unbroken_of_all hline.1, of_decide_eq_true hline.2⟩
  refine ⟨⟨by decide, sampleLines, by decide, by decide +kernel, hlines, ?_⟩, trivial, trivial⟩
  simp only [sampleLibrary, if_true]
  rfl

end JiuwenSpec.Workspace

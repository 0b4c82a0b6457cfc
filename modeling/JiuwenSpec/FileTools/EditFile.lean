import JiuwenSpec.FileTools.WriteGuard

/-!
# Matching and replacing in `edit_file`

The file is decoded and its line ends made one; the search strings are rewritten; the match is
replaced, the line ends restored, and the text is encoded again.
Source: `harness/tools/filesystem.py`, `core/sys_operation/local/fs_operation.py`.
-/

namespace JiuwenSpec.FileTools

open Base

/-- `sep.join(pieces)`. -/
def joinWith {α : Type} (sep : List α) : List (List α) → List α
  | [] => []
  | [piece] => piece
  | piece :: pieces => piece ++ sep ++ joinWith sep pieces

/-- The first piece begins with one more character. -/
def consHead (c : Char) : List Text → List Text
  | [] => [[c]]
  | piece :: pieces => (c :: piece) :: pieces

/-- `text.split(m)` for a text `m` that is not empty; `skip` characters belong to the last match. -/
def splitText (m : Text) : Nat → Text → List Text
  | _, [] => [[]]
  | 0, c :: rest =>
    if m.isPrefixOf (c :: rest) then [] :: splitText m (m.length - 1) rest
    else consHead c (splitText m 0 rest)
  | skip + 1, _ :: rest => splitText m skip rest

/-- `text.count(m)`; the empty text is before and behind every character. -/
def countText (m text : Text) : Nat :=
  if m = [] then text.length + 1 else (splitText m 0 text).length - 1

/-- `text.replace(m, new)`. -/
def replaceAll (m new text : Text) : Text :=
  if m = [] then new ++ text.flatMap fun c => c :: new else joinWith new (splitText m 0 text)

/-- `text.replace(m, new, 1)`. -/
def replaceOnce (m new text : Text) : Text :=
  if m = [] then new ++ text
  else
    match splitText m 0 text with
    | first :: second :: rest => first ++ new ++ joinWith m (second :: rest)
    | _ => text

/-- `text.find(m)`. -/
def findText (m : Text) : Text → Option Nat
  | [] => if m = [] then some 0 else none
  | c :: rest => if m.isPrefixOf (c :: rest) then some 0 else (findText m rest).map (· + 1)

/-- What the tool takes from Python's library: `html.unescape`, `str.isalpha`, and decoding with
`errors="replace"`, in UTF-8 or in UTF-16. -/
structure TextLibrary where
  unescape : Text → Text
  isAlpha : Char → Bool
  decodeUtf8 : List UInt8 → Text
  decodeUtf16 : List UInt8 → Text

/-- `str.encode("utf-8")`. -/
def encodeUtf8 (text : Text) : List UInt8 := text.flatMap String.utf8EncodeChar

def isUtf16 (raw : List UInt8) : Bool := [0xff, 0xfe].isPrefixOf raw

/-- `_detect_eol`: whether the file has a carriage return with a newline. -/
def hasCrlf : List UInt8 → Bool
  | 0x0d :: 0x0a :: _ => true
  | _ :: rest => hasCrlf rest
  | [] => false

def restoreEol (crlf : Bool) (text : Text) : Text :=
  if crlf then text.flatMap fun c => if c = '\n' then ['\r', '\n'] else [c] else text

def desanitizations : List (String × String) :=
  [("<fnr>", "<function_results>"), ("<n>", "<name>"), ("</n>", "</name>"), ("<o>", "<output>"),
    ("</o>", "</output>"), ("<e>", "<error>"), ("</e>", "</error>"), ("<s>", "<system>"),
    ("</s>", "</system>"), ("<r>", "<result>"), ("</r>", "</result>"),
    ("< META_START >", "<META_START>"), ("< META_END >", "<META_END>"), ("< EOT >", "<EOT>"),
    ("< META >", "<META>"), ("< SOS >", "<SOS>"), ("\n\nH:", "\n\nHuman:"),
    ("\n\nA:", "\n\nAssistant:")]

def desanitize (lib : TextLibrary) (value : Text) : Text :=
  desanitizations.foldl (fun result e => replaceAll e.1.toList e.2.toList result)
    (lib.unescape value)

/-- `str.rstrip`. -/
def rstrip (text : Text) : Text := text.rdropWhile fun c => decide (IsSpace c)

/-- `value.splitlines(keepends=True)`. -/
def splitKeepends : Text → List Text
  | [] => []
  | '\r' :: '\n' :: rest => ['\r', '\n'] :: splitKeepends rest
  | c :: rest =>
    if IsLineBreak c then [c] :: splitKeepends rest else consHead c (splitKeepends rest)

/-- One part of `_strip_trailing_whitespace`; only carriage returns and newlines are kept. -/
def stripPart (part : Text) : Text :=
  if ['\r', '\n'].isSuffixOf part then rstrip (part.dropLast.dropLast) ++ ['\r', '\n']
  else if ['\n'].isSuffixOf part then rstrip part.dropLast ++ ['\n']
  else if ['\r'].isSuffixOf part then rstrip part.dropLast ++ ['\r']
  else rstrip part

def stripTrailingWhitespace (value : Text) : Text := (splitKeepends value).flatMap stripPart

/-- `_normalize_quotes`, of a character. -/
def normalizeQuote (c : Char) : Char :=
  if c = '\u2018' ∨ c = '\u2019' then '\''
  else if c = '\u201c' ∨ c = '\u201d' then '"'
  else c

def normalizeQuotes (value : Text) : Text := value.map normalizeQuote

/-- `_is_opening_quote_context`, behind a character. -/
def isOpeningContext : Option Char → Bool
  | none => true
  | some c => [' ', '\t', '\n', '\r', '(', '[', '{', '\u2014', '\u2013'].contains c

/-- `_apply_curly_double_quotes`, behind a character. -/
def applyCurlyDoubleQuotes : Option Char → Text → Text
  | _, [] => []
  | previous, c :: rest =>
    (if c = '"' then if isOpeningContext previous then '\u201c' else '\u201d' else c) ::
      applyCurlyDoubleQuotes (some c) rest

/-- `_apply_curly_single_quotes`, behind a character. -/
def applyCurlySingleQuotes (lib : TextLibrary) : Option Char → Text → Text
  | _, [] => []
  | previous, c :: rest =>
    (if c = '\'' then
      if previous.any lib.isAlpha ∧ rest.head?.any lib.isAlpha then '\u2019'
      else if isOpeningContext previous then '\u2018' else '\u2019'
    else c) :: applyCurlySingleQuotes lib (some c) rest

/-- `_preserve_quote_style`, for a match that is not the search string. -/
def preserveQuoteStyle (lib : TextLibrary) (actual new : Text) : Text :=
  let doubled := if actual.any fun c => c = '\u201c' ∨ c = '\u201d'
    then applyCurlyDoubleQuotes none new else new
  if actual.any fun c => c = '\u2018' ∨ c = '\u2019' then applyCurlySingleQuotes lib none doubled
  else doubled

def tryQuoteVariants (content old : Text) : Option Text :=
  (findText (normalizeQuotes old) (normalizeQuotes content)).map fun i =>
    (content.drop i).take old.length

/-- A request; `markdown` tells whether the file is one whose blanks matter. -/
structure EditRequest where
  old : Text
  new : Text
  replaceAll : Bool
  markdown : Bool

/-- `_read_existing_text`. -/
def decodeFile (lib : TextLibrary) (raw : List UInt8) : Text :=
  if isUtf16 raw then lib.decodeUtf16 raw else lib.decodeUtf8 raw

def contentLf (lib : TextLibrary) (raw : List UInt8) : Text := toLf (decodeFile lib raw)

def oldClean (lib : TextLibrary) (r : EditRequest) : Text := toLf (desanitize lib r.old)

def newClean (lib : TextLibrary) (r : EditRequest) : Text :=
  if r.markdown then toLf (desanitize lib r.new)
  else stripTrailingWhitespace (toLf (desanitize lib r.new))

def matching (lib : TextLibrary) (content : Text) (r : EditRequest) : Option (Text × Text) :=
  if (findText (oldClean lib r) content).isSome then some (oldClean lib r, newClean lib r)
  else
    (tryQuoteVariants content (oldClean lib r)).map fun variant =>
      (variant, if oldClean lib r = variant then newClean lib r
        else preserveQuoteStyle lib variant (newClean lib r))

def replaceMatch (content : Text) (all : Bool) (m new : Text) : Option Text :=
  if all = false ∧ 1 < countText m content then none
  else some (if all then replaceAll m new content else replaceOnce m new content)

/-- `_invoke_unlocked` on a file that was read: the bytes that are written, unless the edit is
refused. -/
def editFile (lib : TextLibrary) (raw : List UInt8) (r : EditRequest) : Option (List UInt8) :=
  if r.old = r.new then none
  else if r.old = [] then
    if strip (decodeFile lib raw) = [] then some (encodeUtf8 r.new) else none
  else
    match matching lib (contentLf lib raw) r with
    | some (m, new) =>
      (replaceMatch (contentLf lib raw) r.replaceAll m new).map fun text =>
        encodeUtf8 (restoreEol (hasCrlf raw) text)
    | none => none

end JiuwenSpec.FileTools

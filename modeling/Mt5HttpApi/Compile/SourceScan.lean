import Mt5HttpApi.Lib.Text

/-!
# The source check of the compile endpoint

`_check_source_paths` of `mt5api/handlers/compile.py` and what it calls: the scan view, its comment
stripping, the directive patterns and the path rule. Each regular expression is a function on lists
of characters that finds the match Python's `re` finds: its patterns leave no choice that
backtracking would change.
-/

namespace Compile

/-- What Python knows of characters outside ASCII, as far as the check uses it: `\w`, and
`str.upper` of one character. -/
structure Unicode where
  word : Char → Bool
  upper : Char → List Char
  /-- White space is not part of a word. -/
  word_space : ∀ c, Text.isSpace c = true → word c = false
  /-- White space has no other case. -/
  upper_space : ∀ c, Text.isSpace c = true → upper c = [c]

/-- What ASCII sources need. -/
def Unicode.ascii : Unicode where
  word c :=
    let n := c.toNat
    (48 ≤ n && n ≤ 57) || (65 ≤ n && n ≤ 90) || n == 95 || (97 ≤ n && n ≤ 122)
  upper c := [c.toUpper]
  word_space c hc := by
    have hn := Text.toNat_of_isSpace hc
    simp only [Bool.or_eq_false_iff, Bool.and_eq_false_iff, decide_eq_false_iff_not,
      beq_eq_false_iff_ne]
    omega
  upper_space c hc := by
    have hn := Text.toNat_of_isSpace hc
    unfold Char.toUpper
    rw [dif_neg]
    simp only [UInt32.le_iff_toNat_le]
    exact hn.2.2.2

/-! ## The scan view -/

/-- The characters of `_EXTRA_LINE_BREAKS_RE`. -/
def extraLineBreaks : List Char := ['\u0085', '\u2028', '\u2029']

/-- `_normalize_line_endings`. -/
def normalizeLineEndings (source : List Char) : List Char :=
  Text.replaceChar '\r' '\n' (Text.replacePair '\r' '\n' ['\n'] source)

/-- `_EXTRA_LINE_BREAKS_RE.sub("\n", text)` on one character. -/
def breakLine (c : Char) : Char := if c ∈ extraLineBreaks then '\n' else c

/-- `text.replace("\\\n", "")`. -/
def joinContinuations (text : List Char) : List Char := Text.replacePair '\\' '\n' [] text

/-- Where a scan for `_COMMENT_OR_LITERAL_RE` is: outside its matches, or inside one. -/
inductive Mode
  | code
  | lineComment
  /-- At the `*` that opens a block comment. -/
  | blockOpen
  | blockComment
  /-- At the `/` that closes a block comment. -/
  | blockClose
  | literal (quote : Char)
  /-- After a backslash in a literal. -/
  | escaped (quote : Char)
  deriving DecidableEq, Repr

/-- The mode after a character `c` that `ahead` follows. -/
def Mode.next (mode : Mode) (c : Char) (ahead : Option Char) : Mode :=
  match mode with
  | .code =>
    if c = '/' ∧ ahead = some '/' then .lineComment
    else if c = '/' ∧ ahead = some '*' then .blockOpen
    else if c = '"' ∨ c = '\'' then .literal c
    else .code
  | .lineComment => if c = '\n' then .code else .lineComment
  | .blockOpen => .blockComment
  | .blockComment => if c = '*' ∧ ahead = some '/' then .blockClose else .blockComment
  | .blockClose => .code
  | .literal quote =>
    if c = quote ∨ c = '\n' then .code
    -- a backslash that ends the source is not part of the match
    else if c = '\\' then if ahead.isSome then .escaped quote else .code
    else .literal quote
  -- `\\.` under DOTALL takes any character, a line break too
  | .escaped quote => .literal quote

/-- A character in this mode is part of a comment. -/
def Mode.inComment (mode : Mode) (c : Char) (ahead : Option Char) : Bool :=
  match mode with
  | .code => c = '/' && (ahead = some '/' || ahead = some '*')
  | .lineComment => c ≠ '\n'
  | .blockOpen | .blockComment | .blockClose => true
  | .literal _ | .escaped _ => false

/-- `re.sub(r"[^\n]", " ", text)` on one character. -/
def blankChar (c : Char) : Char := if c = '\n' then '\n' else ' '

/-- `_strip_comments` from a mode on. -/
def stripFrom : Mode → List Char → List Char
  | _, [] => []
  | mode, c :: rest =>
    (if mode.inComment c rest.head? then blankChar c else c) ::
      stripFrom (mode.next c rest.head?) rest

/-- Which characters are parts of comments, when the modes follow `next`. -/
def commentFlags (next : Mode → Char → Option Char → Mode) : Mode → List Char → List Bool
  | _, [] => []
  | mode, c :: rest =>
    mode.inComment c rest.head? :: commentFlags next (next mode c rest.head?) rest

/-- `_strip_comments` blanks the characters of the comments. -/
theorem stripFrom_eq_zipWith (mode : Mode) (text : List Char) :
    stripFrom mode text = List.zipWith (fun c comment => if comment then blankChar c else c) text
      (commentFlags Mode.next mode text) := by
  induction text generalizing mode with
  | nil => rfl
  | cons c rest ih =>
    rw [stripFrom, commentFlags, List.zipWith_cons_cons, ih]

/-- `_strip_comments`. -/
def stripComments (source : List Char) : List Char := stripFrom .code source

/-- `_scan_view`. -/
def scanView (source : List Char) : List Char :=
  stripComments (joinContinuations ((normalizeLineEndings source).map breakLine))

/-! ## Directives -/

/-- `[ \t\f\v]`. -/
def blank (c : Char) : Bool := c ∈ [' ', '\t', '\x0c', '\x0b']

/-- `_SPLIT_DIRECTIVE_RE` on one line. -/
def splitDirective (line : List Char) : Bool :=
  match line.dropWhile blank with
  | '#' :: rest => rest.dropWhile blank = []
  | _ => false

/-- The lower-case letter of a pattern that `IGNORECASE` takes a character for, when there is
one. -/
def foldCase (c : Char) : Char :=
  if c = '\u0130' ∨ c = '\u0131' then 'i' else if c = '\u017f' then 's' else c.toLower

/-- `str.lower` of one character that a directive pattern matches. -/
def lowerChar (c : Char) : List Char :=
  if c = '\u0130' then ['i', '\u0307'] else [c.toLower]

/-- A word of a pattern at the start of a text, in any case: what it matches, and the rest. -/
def matchWord : List Char → List Char → Option (List Char × List Char)
  | [], text => some ([], text)
  | _ :: _, [] => none
  | w :: word, c :: text =>
    if foldCase c = w then (matchWord word text).map fun m => (c :: m.1, m.2) else none

/-- `property[ \t\f\v]+icon` at the start of a text: what `property` matches, and the rest. -/
def matchPropertyIcon (text : List Char) : Option (List Char × List Char) :=
  (matchWord "property".toList text).bind fun m =>
    if m.2.takeWhile blank = [] then none
    else (matchWord "icon".toList (m.2.dropWhile blank)).map fun icon => (m.1, icon.2)

/-- Group 1 of `_FILE_DIRECTIVE_RE` at the start of a text: its first word, and the rest. -/
def matchName (text : List Char) : Option (List Char × List Char) :=
  (matchWord "include".toList text).or
    ((matchWord "resource".toList text).or (matchPropertyIcon text))

/-- `\b` after a letter. -/
def Unicode.boundary (u : Unicode) (rest : List Char) : Bool := !rest.head?.any u.word

/-- `_FILE_DIRECTIVE_RE` on one line: `group(1).split()[0]` and group 2. -/
def matchDirective (u : Unicode) (line : List Char) : Option (List Char × List Char) :=
  match line.dropWhile blank with
  | '#' :: rest =>
    (matchName (rest.dropWhile blank)).bind fun m =>
      if u.boundary m.2 then some (m.1, m.2.dropWhile blank) else none
  | _ => none

/-- The `directive` of `_check_source_paths`. -/
def directiveOf (word : List Char) : List Char :=
  let directive := word.flatMap lowerChar
  if directive = "property".toList then "property icon".toList else directive

/-- The characters before a closing delimiter on the same line. -/
def untilClose (close : Char) (text : List Char) : Option (List Char) :=
  let path := text.takeWhile fun c => c ≠ close ∧ c ≠ '\r' ∧ c ≠ '\n'
  if (text.drop path.length).head? = some close then some path else none

/-- `_PATH_ARGUMENT_RE.match`: group 0 and the path. -/
def pathArgument : List Char → Option (List Char × List Char)
  | '"' :: rest => (untilClose '"' rest).map fun path => ('"' :: path ++ ['"'], path)
  | '<' :: rest => (untilClose '>' rest).map fun path => ('<' :: path ++ ['>'], path)
  | _ => none

/-! ## The path rule -/

/-- `_DEVICE_NAMES`. -/
def deviceNames : List (List Char) :=
  ["CON", "PRN", "AUX", "NUL", "CONIN$", "CONOUT$"].map String.toList ++
    ["COM", "LPT"].flatMap fun name =>
      ['1', '2', '3', '4', '5', '6', '7', '8', '9'].map fun digit => name.toList ++ [digit]

/-- The rule of `_outside_path_reason` for one segment. -/
def segmentReason (u : Unicode) (segment : List Char) : Option String :=
  if segment ∉ [[], ['.']] ∧ Text.stripOf [' ', '.'] segment = [] then
    some "a parent-directory segment"
  else if (Text.strip (segment.takeWhile (· ≠ '.'))).flatMap u.upper ∈ deviceNames then
    some "a device name"
  else none

/-- `_outside_path_reason`. -/
def outsidePathReason (u : Unicode) (directive path : List Char) : Option String :=
  let normalized := Text.replaceChar '/' '\\' path
  if ':' ∈ normalized then some "a drive letter or stream name"
  else if ['\\', '\\'].isPrefixOf normalized then some "a UNC or device path"
  else if ['\\'].isPrefixOf normalized ∧ directive = "include".toList then some "an absolute path"
  else (normalized.splitOn '\\').findSome? (segmentReason u)

/-! ## The check -/

/-- What `_check_source_paths` answers for one match of `_FILE_DIRECTIVE_RE`. -/
def checkMatch (u : Unicode) (word argument : List Char) : Option String :=
  let directive := directiveOf word
  match pathArgument argument with
  | none =>
    some s!"#{String.ofList directive} must name its file as a literal \"path\" or <path>"
  | some (text, path) =>
    (outsidePathReason u directive path).map fun reason =>
      s!"#{String.ofList directive} {String.ofList text} is refused: {reason}. Paths must stay " ++
        "inside the source directory or the server's MQL5 include tree"

/-- What `_check_source_paths` answers for the directive of one line. -/
def checkDirective (u : Unicode) (line : List Char) : Option String :=
  (matchDirective u line).bind fun m => checkMatch u m.1 m.2

/-- `_check_source_paths` on a scan view. -/
def checkScanned (u : Unicode) (scanned : List Char) : Option String :=
  let lines := scanned.splitOn '\n'
  if lines.any splitDirective then
    some "a '#' must be followed by its directive name on the same line"
  else lines.findSome? (checkDirective u)

/-- `_check_source_paths`: an error message, or `none` when the source may be compiled. -/
def checkSourcePaths (u : Unicode) (source : List Char) : Option String :=
  checkScanned u (scanView source)

/-- A scan view passes just when each of its lines does. -/
theorem checkScanned_eq_none_iff {u : Unicode} {scanned : List Char} :
    checkScanned u scanned = none ↔
      ∀ line ∈ scanned.splitOn '\n',
        splitDirective line = false ∧ checkDirective u line = none := by
  unfold checkScanned
  dsimp only
  split
  next hany =>
    obtain ⟨line, hmem, hsplit⟩ := List.any_eq_true.mp hany
    refine iff_of_false (by simp) fun h => ?_
    simp [(h line hmem).1] at hsplit
  next hany =>
    simp only [List.any_eq_true, not_exists, not_and, Bool.not_eq_true] at hany
    rw [List.findSome?_eq_none_iff]
    exact ⟨fun h line hmem => ⟨hany line hmem, h line hmem⟩, fun h line hmem => (h line hmem).2⟩

end Compile

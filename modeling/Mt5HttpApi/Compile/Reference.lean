import Mt5HttpApi.Compile.Views

/-!
# The check against a C-style reading of the source

The reading: line endings become `\n`, backslash-newline pairs are spliced once, comments and
literals are recognised from left to right with no literal beyond its line, each comment is read as
one space, and a directive is a line whose first character after blanks is `#`.

`scanSound` says that a source which passes the check has only paths inside in the file directives
of its reading. It is for the sources whose comments the scan finds where the reading does, which is
so while the scan takes no literal beyond its line (`ReadAlike.of_literals`), and in which no line
break in a comment is between `#property` and `icon`. `not_scanSound` hides an `#include` in a
comment that begins where the scan's literal ends a line too late, and `not_scanSound_propertyIcon`
an icon behind a comment of two lines.
-/

namespace Compile

open Text

variable {u : Unicode}

/-! ## The reading -/

/-- A piece of a source as it is read. -/
inductive Lexeme
  | char (c : Char)
  /-- A comment, with its text. -/
  | comment (first : Char) (more : List Char)
  deriving DecidableEq, Repr

/-- The mode of the reading after a character `c` that `ahead` follows. A literal ends at its line's
end at the latest. -/
def readNext (mode : Mode) (c : Char) (ahead : Option Char) : Mode :=
  match mode with
  | .code =>
    if c = '/' ∧ ahead = some '/' then .lineComment
    else if c = '/' ∧ ahead = some '*' then .blockOpen
    else if c = '"' ∨ c = '\'' then .literal c
    else .code
  | .lineComment => if c = '\n' then .code else .lineComment
  | .blockOpen => .blockComment
  | .blockComment => if c = '*' ∧ ahead = some '/' then .blockClose else .blockComment
  | .blockClose => .code
  | .literal quote =>
    if c = '\n' ∨ c = quote then .code else if c = '\\' then .escaped quote else .literal quote
  | .escaped quote => if c = '\n' then .code else .literal quote

/-- The rest of the comment that the reading is in, and the lexemes after it. -/
def lexFrom : Mode → List Char → List Char × List Lexeme
  | _, [] => ([], [])
  | mode, c :: rest =>
    let tail := lexFrom (readNext mode c rest.head?) rest
    if mode.inComment c rest.head? then
      if mode = .code then ([], .comment c tail.1 :: tail.2) else (c :: tail.1, tail.2)
    else ([], .char c :: tail.2)

/-- A source with its lines spliced. -/
def splice (source : List Char) : List Char := joinContinuations (normalizeLineEndings source)

/-- The lexemes of a source. -/
def lexemes (source : List Char) : List Lexeme := (lexFrom .code (splice source)).2

/-- A comment is read as a space. -/
def Lexeme.read : Lexeme → Char
  | .char c => c
  | .comment _ _ => ' '

/-- A source as it is read. -/
def reading (source : List Char) : List Char := (lexemes source).map Lexeme.read

/-- A directive that names a file, and what follows its name. -/
structure FileDirective where
  name : List Char
  argument : List Char
  deriving DecidableEq, Repr

/-- The directive of a line that begins with `#`, when it is `#include`, `#resource` or
`#property icon`, in any case. -/
def fileDirective (u : Unicode) (line : List Char) : Option FileDirective :=
  match line.dropWhile blank with
  | '#' :: rest =>
    let rest := rest.dropWhile blank
    let name := (rest.takeWhile u.word).map Char.toLower
    let after := (rest.dropWhile u.word).dropWhile blank
    if name = "include".toList ∨ name = "resource".toList then some ⟨name, after⟩
    else if name = "property".toList ∧
        (after.takeWhile u.word).map Char.toLower = "icon".toList then
      some ⟨"property icon".toList, (after.dropWhile u.word).dropWhile blank⟩
    else none
  | _ => none

/-- An argument that begins with a path in quotes or angle brackets. -/
def LiteralPath (argument path : List Char) : Prop :=
  ∃ rest, (argument = '"' :: path ++ '"' :: rest ∧ '"' ∉ path) ∨
    (argument = '<' :: path ++ '>' :: rest ∧ '>' ∉ path)

/-- Each file directive of a text has a literal path that the path rule lets pass. -/
def PathsInside (u : Unicode) (text : List Char) : Prop :=
  ∀ line ∈ text.splitOn '\n', ∀ directive, fileDirective u line = some directive →
    ∃ path, LiteralPath directive.argument path ∧
      outsidePathReason u directive.name path = none

/-- None of the extra line breaks is in the source. -/
def noExtraLineBreaks (source : List Char) : Bool := source.all fun c => c ∉ extraLineBreaks

/-- A source without extra line breaks that passes the check has only paths inside in its reading,
when it meets `ok`. -/
def ScanSound (u : Unicode) (ok : List Char → Prop) : Prop :=
  ∀ source, noExtraLineBreaks source = true → ok source → checkSourcePaths u source = none →
    PathsInside u (reading source)

/-! ## The condition -/

/-- A line break after a backslash in a literal. -/
def Mode.atEscapedBreak (mode : Mode) (c : Char) : Bool :=
  match mode with
  | .escaped _ => c = '\n'
  | _ => false

/-- The scan takes a literal beyond its line. -/
def literalSpansLine : Mode → List Char → Bool
  | _, [] => false
  | mode, c :: rest => mode.atEscapedBreak c || literalSpansLine (mode.next c rest.head?) rest

/-- A lexeme as it is read, and as the scan view has it: a comment with its line breaks. -/
def Lexeme.cell : Lexeme → Cell
  | .char c => { read := c, scan := [c], faithful := Or.inl rfl }
  | .comment first more =>
    { read := ' ', scan := (first :: more).map blankChar
      faithful := Or.inr (Or.inl ⟨rfl, by simp, fun c hc => by
        obtain ⟨c', -, rfl⟩ := List.mem_map.mp hc
        unfold blankChar
        split
        next => exact Or.inr rfl
        next => exact Or.inl rfl⟩) }

/-- The scan takes the same characters for comments as the reading, and no comment with a line break
is between the `property` and the `icon` of a directive. -/
def ReadAlike (u : Unicode) (source : List Char) : Prop :=
  commentFlags Mode.next .code (splice source) = commentFlags readNext .code (splice source) ∧
    ∀ row ∈ rows ((lexemes source).map Lexeme.cell), splitsPropertyIcon u row = false

/-! ## The scan view of a reading -/

/-- Inside a comment. -/
def Mode.within : Mode → Bool
  | .lineComment | .blockOpen | .blockComment | .blockClose => true
  | .code | .literal _ | .escaped _ => false

theorem readNext_within {mode : Mode} {c : Char} {ahead : Option Char}
    (h : mode.inComment c ahead = false) : (readNext mode c ahead).within = false := by
  cases mode with
  | code =>
    simp only [Mode.inComment, Bool.and_eq_false_iff, decide_eq_false_iff_not, Bool.or_eq_false_iff]
      at h
    unfold readNext
    dsimp only
    rw [if_neg (by tauto), if_neg (by tauto)]
    split <;> rfl
  | lineComment =>
    simp only [Mode.inComment, decide_eq_false_iff_not, not_not] at h
    simp [readNext, h, Mode.within]
  | blockOpen => cases h
  | blockComment => cases h
  | blockClose => cases h
  | literal quote =>
    unfold readNext
    dsimp only
    split
    next => rfl
    next => split <;> rfl
  | escaped quote =>
    unfold readNext
    dsimp only
    split <;> rfl

/-- Outside a comment there is no comment to be continued. -/
theorem lexFrom_fst {mode : Mode} (h : mode.within = false) (text : List Char) :
    (lexFrom mode text).1 = [] := by
  cases text with
  | nil => rfl
  | cons c rest =>
    rw [lexFrom]
    split
    next hcomment =>
      split
      next => rfl
      next hcode =>
        cases mode <;> simp_all [Mode.within, Mode.inComment]
    next => rfl

/-- The scan and the reading go on alike, except after a backslash that ends the text or one in a
literal before a line break. -/
theorem next_eq_readNext {mode : Mode} {c : Char} {ahead : Option Char}
    (hahead : ahead ≠ none) (h : mode.atEscapedBreak c = false) :
    mode.next c ahead = readNext mode c ahead := by
  have hsome : ahead.isSome = true := Option.isSome_iff_ne_none.mpr hahead
  cases mode with
  | literal quote => simp only [Mode.next, readNext, hsome, if_true, or_comm]
  | escaped quote => simp [Mode.next, readNext, of_decide_eq_false h]
  | _ => rfl

/-- While no literal spans a line, the scan and the reading find the same comments. -/
theorem commentFlags_eq_of_literals {mode : Mode} {text : List Char}
    (h : literalSpansLine mode text = false) :
    commentFlags Mode.next mode text = commentFlags readNext mode text := by
  induction text generalizing mode with
  | nil => rfl
  | cons c rest ih =>
    rw [literalSpansLine, Bool.or_eq_false_iff] at h
    obtain ⟨hhere, hrest⟩ := h
    rw [commentFlags, commentFlags]
    cases rest with
    | nil => rfl
    | cons d rest => rw [ih hrest, next_eq_readNext (by simp) hhere]

theorem ReadAlike.of_literals {source : List Char}
    (hspan : literalSpansLine .code (splice source) = false)
    (hjoin : ∀ row ∈ rows ((lexemes source).map Lexeme.cell), splitsPropertyIcon u row = false) :
    ReadAlike u source :=
  ⟨commentFlags_eq_of_literals hspan, hjoin⟩

/-- The scan view of the lexemes is the text with its comments blanked. -/
theorem scanText_lexFrom (mode : Mode) (text : List Char) :
    (lexFrom mode text).1.map blankChar ++ scanText ((lexFrom mode text).2.map Lexeme.cell) =
      List.zipWith (fun c comment => if comment then blankChar c else c) text
        (commentFlags readNext mode text) := by
  induction text generalizing mode with
  | nil => rfl
  | cons c rest ih =>
    rw [commentFlags, List.zipWith_cons_cons, ← ih, lexFrom]
    split
    next =>
      split
      next => simp [Lexeme.cell]
      next => simp
    next hcomment =>
      rw [lexFrom_fst (readNext_within (Bool.eq_false_iff.mpr hcomment))]
      simp [Lexeme.cell]

theorem mem_replacePair {first second c : Char} {new text : List Char}
    (h : c ∈ replacePair first second new text) : c ∈ text ∨ c ∈ new := by
  induction text using replacePair.induct first second with
  | case1 => cases h
  | case2 d => exact Or.inl h
  | case3 d e text hpair ih =>
    rw [replacePair, if_pos hpair] at h
    rcases List.mem_append.mp h with hnew | hrest
    · exact Or.inr hnew
    · exact (ih hrest).imp_left fun hmem => by simp [hmem]
  | case4 d e text hpair ih =>
    rw [replacePair, if_neg hpair] at h
    rcases List.mem_cons.mp h with rfl | hrest
    · exact Or.inl List.mem_cons_self
    · exact (ih hrest).imp_left fun hmem => List.mem_cons_of_mem _ hmem

theorem mem_normalizeLineEndings {source : List Char} {c : Char}
    (h : c ∈ normalizeLineEndings source) : c ∈ source ∨ c = '\n' := by
  obtain ⟨d, hd, rfl⟩ := List.mem_map.mp h
  split
  next => exact Or.inr rfl
  next => simpa using mem_replacePair hd

/-- Without extra line breaks, and with the same comments, the scan view is the one of the
lexemes. -/
theorem scanView_eq_scanText {source : List Char} (h : noExtraLineBreaks source = true)
    (hflags : commentFlags Mode.next .code (splice source) =
      commentFlags readNext .code (splice source)) :
    scanView source = scanText ((lexemes source).map Lexeme.cell) := by
  have hbreaks : (normalizeLineEndings source).map breakLine = normalizeLineEndings source := by
    refine (List.map_congr_left fun c hc => ?_).trans (List.map_id' _)
    refine if_neg fun hbreak => ?_
    rcases mem_normalizeLineEndings hc with hmem | rfl
    · simpa [hbreak] using List.all_eq_true.mp h c hmem
    · exact absurd hbreak (by decide)
  have hscan := scanText_lexFrom .code (splice source)
  rw [lexFrom_fst rfl, ← hflags, ← stripFrom_eq_zipWith] at hscan
  rw [scanView, hbreaks, stripComments]
  exact hscan.symm

theorem readText_lexemes (source : List Char) :
    readText ((lexemes source).map Lexeme.cell) = reading source := by
  rw [readText, List.map_map, reading]
  refine List.map_congr_left fun lexeme _ => ?_
  cases lexeme <;> rfl

/-! ## The directives of a reading -/

/-- A letter that a pattern takes for no other, and that is lower case. -/
theorem foldCase_eq {c w : Char} (h : c.toLower = w) (hw : foldCase w = w) : foldCase c = w := by
  have hne : ∀ x, x.toLower = x → foldCase x ≠ x → c ≠ x := by
    rintro x hlower hfold rfl
    rw [← h, hlower] at hw
    exact hfold hw
  unfold foldCase
  rw [if_neg (not_or.mpr ⟨hne _ (by decide) (by decide), hne _ (by decide) (by decide)⟩),
    if_neg (hne _ (by decide) (by decide)), h]

/-- A word matches where it is written, in any case. -/
theorem matchWord_append {word name : List Char} (h : name.map Char.toLower = word)
    (hword : word.map foldCase = word) (rest : List Char) :
    matchWord word (name ++ rest) = some (name, rest) := by
  induction name generalizing word with
  | nil =>
    subst h
    rfl
  | cons c name ih =>
    subst h
    obtain ⟨hc, hname⟩ := List.cons.inj hword
    rw [List.map_cons, List.cons_append, matchWord, if_pos (foldCase_eq rfl hc), ih rfl hname]
    rfl

/-- A word does not match where another is written that begins with another letter. -/
theorem matchWord_append_of_ne {w : Char} {word other name : List Char}
    (h : name.map Char.toLower = other) (hother : ∃ x more, other = x :: more ∧ foldCase x = x ∧
      x ≠ w) (rest : List Char) : matchWord (w :: word) (name ++ rest) = none := by
  obtain ⟨x, more, rfl, hfold, hne⟩ := hother
  cases name with
  | nil => cases h
  | cons c name =>
    have hc : foldCase c = x := foldCase_eq (List.cons.inj h).1 hfold
    rw [List.cons_append, matchWord, if_neg (by rwa [hc])]

theorem directiveOf_eq {word name : List Char} (h : name.map Char.toLower = word)
    (hword : word.map foldCase = word) : directiveOf name =
      if word = "property".toList then "property icon".toList else word := by
  have hlower : name.flatMap lowerChar = word := by
    induction name generalizing word with
    | nil => exact h
    | cons c name ih =>
      subst h
      obtain ⟨hc, hname⟩ := List.cons.inj hword
      have hne : c ≠ '\u0130' := by
        rintro rfl
        exact absurd hc (by decide)
      rw [List.flatMap_cons, ih rfl hname, lowerChar, if_neg hne]
      rfl
  rw [directiveOf, hlower]

theorem untilClose_eq_some {close : Char} {text path : List Char}
    (h : untilClose close text = some path) :
    ∃ rest, text = path ++ close :: rest ∧ close ∉ path := by
  unfold untilClose at h
  dsimp only at h
  split at h
  next hhead =>
    cases h
    obtain ⟨rest, hrest⟩ := List.head?_eq_some_iff.mp hhead
    refine ⟨rest, ?_, fun hmem => ?_⟩
    · rw [← hrest]
      exact (List.prefix_iff_eq_append.mp (List.takeWhile_prefix _)).symm
    · simpa using List.mem_takeWhile_imp hmem
  next => cases h

theorem literalPath_of_pathArgument {argument text path : List Char}
    (h : pathArgument argument = some (text, path)) : LiteralPath argument path := by
  unfold pathArgument at h
  split at h
  next rest =>
    obtain ⟨path', hpath, heq⟩ := Option.map_eq_some_iff.mp h
    cases heq
    obtain ⟨after, rfl, hnot⟩ := untilClose_eq_some hpath
    exact ⟨after, Or.inl ⟨rfl, hnot⟩⟩
  next rest =>
    obtain ⟨path', hpath, heq⟩ := Option.map_eq_some_iff.mp h
    cases heq
    obtain ⟨after, rfl, hnot⟩ := untilClose_eq_some hpath
    exact ⟨after, Or.inr ⟨rfl, hnot⟩⟩
  next => cases h

theorem boundary_dropWhile (u : Unicode) (text : List Char) :
    u.boundary (text.dropWhile u.word) = true := by
  have hhead := List.head?_dropWhile_not u.word text
  unfold Unicode.boundary
  cases h : (text.dropWhile u.word).head? with
  | none => rfl
  | some c =>
    rw [h] at hhead
    simpa using hhead

theorem takeWhile_of_boundary {rest : List Char} (h : u.boundary rest = true) :
    rest.takeWhile u.word = [] := by
  cases rest with
  | nil => rfl
  | cons c rest =>
    have hc : u.word c = false := by simpa [Unicode.boundary] using h
    rw [List.takeWhile_cons_of_neg (by simp [hc])]

theorem matchName_include {text : List Char}
    (h : (text.takeWhile u.word).map Char.toLower = "include".toList) :
    matchName text = some (text.takeWhile u.word, text.dropWhile u.word) := by
  have hmatch := matchWord_append h (by decide) (text.dropWhile u.word)
  rw [List.takeWhile_append_dropWhile] at hmatch
  rw [matchName, hmatch]
  rfl

theorem matchName_resource {text : List Char}
    (h : (text.takeWhile u.word).map Char.toLower = "resource".toList) :
    matchName text = some (text.takeWhile u.word, text.dropWhile u.word) := by
  have hmatch := matchWord_append h (by decide) (text.dropWhile u.word)
  have hother : matchWord "include".toList (text.takeWhile u.word ++ text.dropWhile u.word) =
      none := matchWord_append_of_ne h ⟨'r', _, rfl, by decide, by decide⟩ _
  rw [List.takeWhile_append_dropWhile] at hmatch hother
  rw [matchName, hother, hmatch]
  rfl

theorem matchName_propertyIcon {text : List Char}
    (h : (text.takeWhile u.word).map Char.toLower = "property".toList)
    (hicon : (((text.dropWhile u.word).dropWhile blank).takeWhile u.word).map Char.toLower =
      "icon".toList) :
    matchName text = some (text.takeWhile u.word,
      ((text.dropWhile u.word).dropWhile blank).dropWhile u.word) := by
  have hmatch := matchWord_append h (by decide) (text.dropWhile u.word)
  have hother : ∀ {w x : Char} {word more : List Char}, "property".toList = x :: more →
      foldCase x = x → x ≠ w →
      matchWord (w :: word) (text.takeWhile u.word ++ text.dropWhile u.word) = none :=
    fun hx hfold hne => matchWord_append_of_ne h ⟨_, _, hx, hfold, hne⟩ _
  have hmatchIcon := matchWord_append hicon (by decide)
    (((text.dropWhile u.word).dropWhile blank).dropWhile u.word)
  -- `property` ends at its word, so something blank is before `icon`
  have hgap : (text.dropWhile u.word).takeWhile blank ≠ [] := by
    intro hnil
    have hsame : (text.dropWhile u.word).dropWhile blank = text.dropWhile u.word := by
      have hwhole := List.takeWhile_append_dropWhile (p := blank) (l := text.dropWhile u.word)
      rwa [hnil, List.nil_append] at hwhole
    rw [hsame, takeWhile_of_boundary (boundary_dropWhile u text)] at hicon
    cases hicon
  have hinclude : matchWord "include".toList text = none := by
    rw [← List.takeWhile_append_dropWhile (p := u.word) (l := text)]
    exact hother rfl (by decide) (by decide)
  have hresource : matchWord "resource".toList text = none := by
    rw [← List.takeWhile_append_dropWhile (p := u.word) (l := text)]
    exact hother rfl (by decide) (by decide)
  rw [List.takeWhile_append_dropWhile] at hmatch hmatchIcon
  rw [matchName, hinclude, hresource, matchPropertyIcon, hmatch, Option.bind_some, if_neg hgap,
    hmatchIcon]
  rfl

theorem pathInside_of_checkMatch {name word argument : List Char}
    (hname : name.map Char.toLower = word) (hword : word.map foldCase = word)
    (h : checkMatch u name argument = none) : ∃ path, LiteralPath argument path ∧
      outsidePathReason u
        (if word = "property".toList then "property icon".toList else word) path = none := by
  obtain ⟨text, path, hpath, hreason⟩ := checkMatch_eq_none_iff.mp h
  rw [directiveOf_eq hname hword] at hreason
  exact ⟨path, literalPath_of_pathArgument hpath, hreason⟩

/-- A checked line has a path inside, when it is a file directive. -/
theorem pathInside_of_checkDirective {line : List Char} {directive : FileDirective}
    (h : checkDirective u line = none) (hd : fileDirective u line = some directive) :
    ∃ path, LiteralPath directive.argument path ∧
      outsidePathReason u directive.name path = none := by
  unfold fileDirective at hd
  split at hd
  next rest hline =>
    rw [checkDirective_hash hline] at h
    generalize rest.dropWhile blank = text at h hd
    dsimp only at hd
    split at hd
    next hname =>
      cases hd
      rcases hname with hname | hname
      · rw [matchName_include hname, Option.bind_some, if_pos (boundary_dropWhile u text)] at h
        rw [hname]
        exact pathInside_of_checkMatch hname (by decide) h
      · rw [matchName_resource hname, Option.bind_some, if_pos (boundary_dropWhile u text)] at h
        rw [hname]
        exact pathInside_of_checkMatch hname (by decide) h
    next =>
      split at hd
      next hname =>
        cases hd
        rw [matchName_propertyIcon hname.1 hname.2, Option.bind_some,
          if_pos (boundary_dropWhile u _)] at h
        exact pathInside_of_checkMatch hname.1 (by decide) h
      next => cases hd
  next => cases hd

/-! ## Results -/

/-- When the scan finds the comments of the reading and none with a line break is between
`#property` and `icon`, the file directives of the reading of an accepted source name paths
inside. -/
theorem scanSound (u : Unicode) : ScanSound u (ReadAlike u) := by
  rintro source hsource ⟨hflags, hjoin⟩ hcheck line hline directive hdirective
  rw [checkSourcePaths, scanView_eq_scanText hsource hflags] at hcheck
  have hread := checkScanned_readText hjoin hcheck
  rw [readText_lexemes, checkScanned_eq_none_iff] at hread
  exact pathInside_of_checkDirective (hread line hline).2 hdirective

/-- A source with an include behind a comment of two lines, and a literal with an escaped quote. -/
def sampleSource : List Char :=
  "/* two\nlines */ #include <Trade/Trade.mqh> // \"x\nstring s = \"\\\"/*\";\n".toList

theorem scanSound_sampleSource : checkSourcePaths .ascii sampleSource = none ∧
    PathsInside .ascii (reading sampleSource) :=
  ⟨by decide, scanSound .ascii sampleSource (by decide)
    (.of_literals (by decide) (by decide)) (by decide)⟩

/-- The path of an argument in quotes. -/
theorem LiteralPath.quoted {text path : List Char} (h : LiteralPath ('"' :: text) path) :
    path = text.takeWhile (· ≠ '"') := by
  obtain ⟨rest, ⟨heq, hnot⟩ | ⟨heq, -⟩⟩ := h
  · have htext : text = path ++ '"' :: rest := (List.cons.inj heq).2
    rw [htext, takeWhile_ne_append hnot]
  · exact absurd (List.cons.inj heq).1 (by decide)

/-- After the lines are spliced, a literal of the first line ends in a backslash. The scan takes the
literal up to the quote of the second line, and a comment from there to the end. -/
def includeAfterBackslash : List Char :=
  "\"\\\\\n\n\"/*\n#include \"../config.yaml\"".toList

/-- Without the condition, an include of a file outside is accepted. -/
theorem not_scanSound : ¬ ScanSound .ascii fun _ => True := by
  intro h
  obtain ⟨path, hpath, hreason⟩ := h includeAfterBackslash (by decide) trivial
    (by decide) "#include \"../config.yaml\"".toList (by decide)
    ⟨"include".toList, "\"../config.yaml\"".toList⟩ (by decide)
  have heq : path = "../config.yaml".toList := hpath.quoted.trans (by decide)
  rw [heq] at hreason
  exact absurd hreason (by decide)

/-- An icon behind a comment of two lines. -/
def iconAfterComment : List Char := "#property /*\n*/ icon \"..\\config.yaml\"".toList

/-- With the same comments, an icon from a file outside is still accepted. -/
theorem not_scanSound_propertyIcon : ¬ ScanSound .ascii fun source =>
    commentFlags Mode.next .code (splice source) =
      commentFlags readNext .code (splice source) := by
  intro h
  obtain ⟨path, hpath, hreason⟩ := h iconAfterComment (by decide) (by decide)
    (by decide) "#property   icon \"..\\config.yaml\"".toList (by decide)
    ⟨"property icon".toList, "\"..\\config.yaml\"".toList⟩ (by decide)
  have heq : path = "..\\config.yaml".toList := hpath.quoted.trans (by decide)
  rw [heq] at hreason
  exact absurd hreason (by decide)

end Compile

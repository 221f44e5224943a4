import Mt5HttpApi.Compile.Views

/-!
# The extra line breaks of the check

`_scan_view` breaks lines on three characters besides `\n`, because over-splitting only makes the
check stricter. `onlyStricter` proves that of the sources in which none of the three follows a
backslash, the scan takes the same characters for comments with and without the breaks, and no break
in a comment is between `#property` and `icon`.

`not_onlyStricter` ends a `//` comment early, so that a block comment begins which hides an include,
and `not_onlyStricter_backslash` joins a path that the break should have ended.
-/

namespace Compile

open Text

variable {u : Unicode}

/-- `_scan_view` without the `_EXTRA_LINE_BREAKS_RE` substitution. -/
def scanViewWithoutBreaks (source : List Char) : List Char :=
  stripComments (joinContinuations (normalizeLineEndings source))

/-- `_check_source_paths` on that view. -/
def checkWithoutBreaks (u : Unicode) (source : List Char) : Option String :=
  checkScanned u (scanViewWithoutBreaks source)

/-- What the check accepts it accepts without the extra line breaks too, when the source meets
`ok`. -/
def OnlyStricter (u : Unicode) (ok : List Char → Prop) : Prop :=
  ∀ source, ok source → checkSourcePaths u source = none → checkWithoutBreaks u source = none

/-! ## The condition -/

/-- A backslash directly before an extra line break. -/
def backslashBeforeBreak : List Char → Bool
  | c :: d :: rest => (c = '\\' && d ∈ extraLineBreaks) || backslashBeforeBreak (d :: rest)
  | _ => false

theorem breakLine_of_not_mem {c : Char} (h : c ∉ extraLineBreaks) : breakLine c = c := if_neg h

theorem breakLine_of_mem {c : Char} (h : c ∈ extraLineBreaks) : breakLine c = '\n' := if_pos h

/-- A character of the view without the breaks, and what the view with them has for it. -/
def breakCell (c : Char) (comment : Bool) : Cell where
  read := if comment then blankChar c else c
  scan := [if comment then blankChar (breakLine c) else breakLine c]
  faithful := by
    by_cases hbreak : c ∈ extraLineBreaks
    · have hne : c ≠ '\n' := by
        rintro rfl
        exact absurd hbreak (by decide)
      rw [breakLine_of_mem hbreak]
      cases comment with
      | true => exact Or.inr (Or.inl ⟨by simp [blankChar, hne], by simp, by simp [blankChar]⟩)
      | false => exact Or.inr (Or.inr ⟨hbreak, rfl⟩)
    · rw [breakLine_of_not_mem hbreak]
      exact Or.inl rfl

/-- The two views of a text, from a mode on. -/
def cellsFrom : Mode → List Char → List Cell
  | _, [] => []
  | mode, c :: rest =>
    breakCell c (mode.inComment c rest.head?) :: cellsFrom (mode.next c rest.head?) rest

/-- None of the extra line breaks follows a backslash, the scan takes the same characters for
comments with and without them, and none of them is in a comment between the `property` and the
`icon` of a directive. -/
def BreaksAlike (u : Unicode) (source : List Char) : Prop :=
  let text := joinContinuations (normalizeLineEndings source)
  backslashBeforeBreak (normalizeLineEndings source) = false ∧
    commentFlags Mode.next .code (text.map breakLine) = commentFlags Mode.next .code text ∧
    ∀ row ∈ rows (cellsFrom .code text), splitsPropertyIcon u row = false

/-! ## The two views -/

theorem readText_cellsFrom (mode : Mode) (text : List Char) :
    readText (cellsFrom mode text) = stripFrom mode text := by
  induction text generalizing mode with
  | nil => rfl
  | cons c rest ih =>
    rw [cellsFrom, readText_cons, ih, stripFrom]
    rfl

/-- When the comments are the same with and without the breaks, the view with them has them where
the pieces do. -/
theorem scanText_cellsFrom {mode mode' : Mode} {text : List Char}
    (h : commentFlags Mode.next mode' (text.map breakLine) = commentFlags Mode.next mode text) :
    scanText (cellsFrom mode text) = stripFrom mode' (text.map breakLine) := by
  induction text generalizing mode mode' with
  | nil => rfl
  | cons c rest ih =>
    rw [List.map_cons, commentFlags, commentFlags] at h
    obtain ⟨hhere, hrest⟩ := List.cons.inj h
    rw [cellsFrom, scanText_cons, ih hrest, List.map_cons, stripFrom, hhere]
    rfl

theorem backslashBeforeBreak_tail {c : Char} {rest : List Char}
    (h : backslashBeforeBreak (c :: rest) = false) : backslashBeforeBreak rest = false := by
  cases rest with
  | nil => rfl
  | cons d rest =>
    rw [backslashBeforeBreak, Bool.or_eq_false_iff] at h
    exact h.2

/-- Breaking lines leaves the continuations as they are. -/
theorem joinContinuations_map_breakLine {text : List Char}
    (h : backslashBeforeBreak text = false) :
    joinContinuations (text.map breakLine) = (joinContinuations text).map breakLine := by
  have hbackslash : ∀ c, breakLine c = '\\' → c = '\\' := by
    intro c hc
    unfold breakLine at hc
    split at hc
    next => exact absurd hc (by decide)
    next => exact hc
  unfold joinContinuations
  induction text using replacePair.induct '\\' '\n' with
  | case1 => rfl
  | case2 c => rfl
  | case3 c d rest hpair ih =>
    obtain ⟨rfl, rfl⟩ := hpair
    rw [List.map_cons, List.map_cons, replacePair, replacePair, if_pos (by decide),
      if_pos (by decide), List.nil_append, List.nil_append,
      ih (backslashBeforeBreak_tail (backslashBeforeBreak_tail h))]
  | case4 c d rest hpair ih =>
    rw [backslashBeforeBreak, Bool.or_eq_false_iff] at h
    obtain ⟨hhere, hrest⟩ := h
    have hpair' : ¬ (breakLine c = '\\' ∧ breakLine d = '\n') := by
      rintro ⟨hc, hd⟩
      have hc' := hbackslash c hc
      by_cases hbreak : d ∈ extraLineBreaks
      · simp [hc', hbreak] at hhere
      · exact hpair ⟨hc', breakLine_of_not_mem hbreak ▸ hd⟩
    rw [List.map_cons, List.map_cons, replacePair, replacePair, if_neg hpair, if_neg hpair',
      ← List.map_cons, ih hrest, List.map_cons]

/-! ## Results -/

/-- Where the extra line breaks follow no backslash, change no comment and are in none between
`#property` and `icon`, they only make the check stricter. -/
theorem onlyStricter (u : Unicode) : OnlyStricter u (BreaksAlike u) := by
  rintro source ⟨hbackslash, hflags, hjoin⟩ hcheck
  rw [checkSourcePaths, scanView, joinContinuations_map_breakLine hbackslash, stripComments,
    ← scanText_cellsFrom hflags] at hcheck
  have hread := checkScanned_readText hjoin hcheck
  rw [readText_cellsFrom] at hread
  exact hread

/-- A source with a line separator in a comment and one before a directive. -/
def separatedSource : List Char := "/* a\u2028b */\u2028#include \"x.mqh\"".toList

theorem onlyStricter_separatedSource : checkSourcePaths .ascii separatedSource = none ∧
    checkWithoutBreaks .ascii separatedSource = none :=
  ⟨by decide, onlyStricter .ascii separatedSource ⟨by decide, by decide, by decide⟩ (by decide)⟩

/-- Without the condition, a break that ends a comment lets a block comment begin that hides an
include. -/
theorem not_onlyStricter : ¬ OnlyStricter .ascii fun _ => True := fun h =>
  absurd (h "//\u2028/*\n#include \"../x\"".toList trivial (by decide)) (by decide)

/-- In a source without comments too: a break after a backslash is joined away, and a path passes
that did not. -/
theorem not_onlyStricter_backslash : ¬ OnlyStricter .ascii fun source =>
    '/' ∉ source := fun h =>
  absurd (h "#include \"..\\\u2028y\"".toList (by decide) (by decide)) (by decide)

end Compile

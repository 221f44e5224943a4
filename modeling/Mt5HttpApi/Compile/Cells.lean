import Mathlib.Data.List.Induction
import Mathlib.Data.List.TakeWhile
import Mt5HttpApi.Compile.SourceScan

/-!
# Two views of one text

A `Cell` is a piece of a source in two views: `read` is the character that one view has for it, and
`scan` is what the other has there. The views agree except that a space may be several blanks with
line breaks among them, and one of the extra line breaks may be a line break.

`checkScanned_readText` is the comparison of the check on the two: what it accepts of `scanText` it
accepts of `readText`, unless a line break comes between `#property` and `icon`
(`splitsPropertyIcon`). For every other directive a line break in the scanned view is harmless:
after the `#` it is refused by `splitDirective`, and before or inside the argument it leaves no
path.
-/

namespace Compile

open Text

/-- A piece of a text in two views. -/
structure Cell where
  read : Char
  scan : List Char
  faithful : scan = [read] ∨ (read = ' ' ∧ scan ≠ [] ∧ ∀ c ∈ scan, c = ' ' ∨ c = '\n') ∨
    (read ∈ extraLineBreaks ∧ scan = ['\n'])
  deriving DecidableEq

/-- The view with one character for each piece. -/
def readText (cells : List Cell) : List Char := cells.map Cell.read

/-- The view that may break lines. -/
def scanText (cells : List Cell) : List Char := cells.flatMap Cell.scan

/-- The lines of the view `readText`. -/
def rows (cells : List Cell) : List (List Cell) := cells.splitOnP (·.read == '\n')

/-- A piece that is blank in the view `readText`. -/
def Cell.isBlank (cell : Cell) : Bool := blank cell.read

/-- This line of the view `readText` is a `#property icon` directive, and a line break of the other
view is between its `property` and its `icon`. -/
def splitsPropertyIcon (u : Unicode) (row : List Cell) : Bool :=
  match row.dropWhile Cell.isBlank with
  | [] => false
  | hash :: rest =>
    let name := rest.dropWhile Cell.isBlank
    let after := name.drop "property".toList.length
    hash.read = '#' && (matchWord "property".toList (readText name)).isSome &&
      (matchWord "icon".toList (readText (after.dropWhile Cell.isBlank))).any
        (fun m => u.boundary m.2) &&
      '\n' ∈ scanText (after.takeWhile Cell.isBlank)

variable {u : Unicode} {cells : List Cell} {cell : Cell}

@[simp] theorem readText_nil : readText [] = [] := rfl

@[simp] theorem readText_cons : readText (cell :: cells) = cell.read :: readText cells := rfl

@[simp] theorem readText_append (cells' : List Cell) :
    readText (cells ++ cells') = readText cells ++ readText cells' :=
  List.map_append

@[simp] theorem scanText_nil : scanText [] = [] := rfl

@[simp] theorem scanText_cons : scanText (cell :: cells) = cell.scan ++ scanText cells := rfl

@[simp] theorem scanText_append (cells' : List Cell) :
    scanText (cells ++ cells') = scanText cells ++ scanText cells' :=
  List.flatMap_append

theorem readText_drop (n : ℕ) : readText (cells.drop n) = (readText cells).drop n :=
  List.map_drop

/-! ## Pieces -/

theorem Cell.scan_ne_nil (cell : Cell) : cell.scan ≠ [] := by
  rcases cell.faithful with h | ⟨-, h, -⟩ | ⟨-, h⟩ <;> simp [h]

/-- A character that is neither a space nor an extra line break is the same in both views. -/
theorem Cell.scan_eq_of_ne (h : cell.read ≠ ' ') (h' : cell.read ∉ extraLineBreaks) :
    cell.scan = [cell.read] := by
  rcases cell.faithful with heq | ⟨hspace, -⟩ | ⟨hbreak, -⟩
  · exact heq
  · exact absurd hspace h
  · exact absurd hbreak h'

theorem scanText_eq_readText (h : ∀ cell ∈ cells, cell.scan = [cell.read]) :
    scanText cells = readText cells := by
  induction cells with
  | nil => rfl
  | cons cell cells ih =>
    rw [scanText_cons, readText_cons, h cell List.mem_cons_self,
      ih fun x hx => h x (List.mem_cons_of_mem _ hx)]
    rfl

theorem Cell.scan_of_isBlank (h : cell.isBlank = true) : ∀ c ∈ cell.scan, blank c ∨ c = '\n' := by
  intro c hc
  rcases cell.faithful with heq | ⟨-, -, hall⟩ | ⟨hbreak, heq⟩
  · rw [heq, List.mem_singleton] at hc
    exact Or.inl (hc ▸ h)
  · rcases hall c hc with rfl | rfl
    · exact Or.inl rfl
    · exact Or.inr rfl
  · rw [heq, List.mem_singleton] at hc
    exact Or.inr hc

theorem scanText_of_isBlank (h : ∀ cell ∈ cells, cell.isBlank = true) :
    ∀ c ∈ scanText cells, blank c ∨ c = '\n' := by
  intro c hc
  obtain ⟨cell, hmem, hc⟩ := List.mem_flatMap.mp hc
  exact Cell.scan_of_isBlank (h cell hmem) c hc

theorem readText_dropWhile_blank :
    (readText cells).dropWhile blank = readText (cells.dropWhile Cell.isBlank) :=
  List.dropWhile_map

/-! ## Lines -/

theorem not_mem_readText {sep : Char} (h : ∀ cell ∈ cells, (cell.read == sep) = false) :
    sep ∉ readText cells := by
  intro hmem
  obtain ⟨cell, hcell, heq⟩ := List.mem_map.mp hmem
  simpa [heq] using h cell hcell

/-- The pieces between separators are those of the text. -/
theorem readText_splitOn (sep : Char) :
    (readText cells).splitOn sep = (cells.splitOnP (·.read == sep)).map readText := by
  induction cells using sepInduction (p := fun cell : Cell => cell.read == sep) with
  | last piece hpiece =>
    rw [List.splitOn_eq_singleton (not_mem_readText hpiece), List.splitOnP_eq_singleton hpiece]
    rfl
  | before piece sepCell rest hpiece hsep ih =>
    obtain rfl : sepCell.read = sep := by simpa using hsep
    rw [readText_append, readText_cons, List.splitOn_append_cons_self_of_not_mem
      (not_mem_readText hpiece), List.splitOnP_append_cons_of_forall_mem hpiece _ hsep, ih]
    rfl

/-- What lies between two separators in the other view does so in the whole of it. -/
theorem scanText_splitOn_subset {sep : Char}
    (hsep : ∀ cell : Cell, cell.read = sep → cell.scan = [sep]) {row : List Cell}
    (hrow : row ∈ cells.splitOnP (·.read == sep)) :
    (scanText row).splitOn sep ⊆ (scanText cells).splitOn sep := by
  induction cells using sepInduction (p := fun cell : Cell => cell.read == sep) with
  | last piece hpiece =>
    rw [List.splitOnP_eq_singleton hpiece, List.mem_singleton] at hrow
    rw [hrow]
    exact List.Subset.refl _
  | before piece sepCell rest hpiece hcell ih =>
    have hscan : sepCell.scan = [sep] := hsep sepCell (by simpa using hcell)
    rw [List.splitOnP_append_cons_of_forall_mem hpiece _ hcell] at hrow
    rw [scanText_append, scanText_cons, hscan, List.singleton_append,
      List.splitOn_append_cons_self]
    rcases List.mem_cons.mp hrow with rfl | hrow
    · exact List.subset_append_left _ _
    · exact List.Subset.trans (ih hrow) (List.subset_append_right _ _)

/-- After blanks and line breaks, the blanks of the last line are left before the rest. -/
theorem exists_blanks_of_white {white : List Char} (h : ∀ c ∈ white, blank c ∨ c = '\n') :
    ∃ blanks, (∀ c ∈ blanks, blank c = true) ∧
      ∀ rest, (blanks ++ rest).splitOn '\n' ⊆ (white ++ rest).splitOn '\n' := by
  induction white using List.reverseRecOn with
  | nil => exact ⟨[], by simp, fun _ => List.Subset.refl _⟩
  | append_singleton white c ih =>
    obtain ⟨blanks, hblanks, hlines⟩ := ih fun x hx => h x (List.mem_append_left _ hx)
    by_cases hc : c = '\n'
    · subst hc
      refine ⟨[], by simp, fun rest => ?_⟩
      rw [List.append_assoc, List.singleton_append]
      exact splitOn_subset_of_line white rest
    · have hblank : blank c = true := (h c (by simp)).resolve_right hc
      refine ⟨blanks ++ [c], ?_, fun rest => ?_⟩
      · intro x hx
        rcases List.mem_append.mp hx with hx | hx
        · exact hblanks x hx
        · rw [List.mem_singleton.mp hx]
          exact hblank
      · rw [List.append_assoc, List.append_assoc]
        exact hlines _

/-- Blanks at the start of a line that then breaks: nothing is left of the line. -/
theorem firstLine_of_break {white rest : List Char} (h : ∀ c ∈ white, blank c ∨ c = '\n')
    (hbreak : '\n' ∈ white) : (firstLine (white ++ rest)).dropWhile blank = [] := by
  induction white with
  | nil => cases hbreak
  | cons c white ih =>
    rcases h c (by simp) with hblank | rfl
    · have hne : c ≠ '\n' := by
        rintro rfl
        simp [blank] at hblank
      have hrest : '\n' ∈ white := (List.mem_cons.mp hbreak).resolve_left hne.symm
      have htail := ih (fun x hx => h x (List.mem_cons_of_mem _ hx)) hrest
      rw [List.cons_append, firstLine, List.takeWhile_cons_of_pos (by simpa using hne),
        List.dropWhile_cons_of_pos hblank]
      exact htail
    · simp [firstLine]

/-- The blanks that a line of `readText` goes on with: in the other view the line breaks there, or
goes on with blanks too. -/
theorem firstLine_skip (cells : List Cell) :
    ('\n' ∈ scanText (cells.takeWhile Cell.isBlank) ∧
      (firstLine (scanText cells)).dropWhile blank = []) ∨
    ('\n' ∉ scanText (cells.takeWhile Cell.isBlank) ∧
      (firstLine (scanText cells)).dropWhile blank =
        (firstLine (scanText (cells.dropWhile Cell.isBlank))).dropWhile blank) := by
  have hwhite : ∀ c ∈ scanText (cells.takeWhile Cell.isBlank), blank c ∨ c = '\n' :=
    scanText_of_isBlank fun cell hcell => List.mem_takeWhile_imp hcell
  have hsplit : scanText cells = scanText (cells.takeWhile Cell.isBlank) ++
      scanText (cells.dropWhile Cell.isBlank) := by
    rw [← scanText_append, List.takeWhile_append_dropWhile]
  by_cases hbreak : '\n' ∈ scanText (cells.takeWhile Cell.isBlank)
  · refine Or.inl ⟨hbreak, ?_⟩
    rw [hsplit]
    exact firstLine_of_break hwhite hbreak
  · refine Or.inr ⟨hbreak, ?_⟩
    have hblank : ∀ c ∈ scanText (cells.takeWhile Cell.isBlank), blank c = true := fun c hc =>
      (hwhite c hc).resolve_right fun heq => hbreak (heq ▸ hc)
    rw [hsplit, firstLine_append hbreak, List.dropWhile_append_of_pos hblank]

/-! ## Words -/

/-- A character of a directive name: the same in both views, and no line break. -/
def plain (c : Char) : Bool := c ≠ ' ' && c ∉ extraLineBreaks && c ≠ '\n'

theorem plain_of_foldCase {c : Char} (h : plain (foldCase c) = true) : plain c = true := by
  by_contra hc
  have hcases : c = ' ' ∨ c = '\u0085' ∨ c = '\u2028' ∨ c = '\u2029' ∨ c = '\n' := by
    simp only [plain, extraLineBreaks, Bool.and_eq_true, decide_eq_true_eq, not_and_or,
      not_not, List.mem_cons, List.not_mem_nil, or_false] at hc
    tauto
  rcases hcases with rfl | rfl | rfl | rfl | rfl <;> exact absurd h (by decide)

theorem Cell.scan_of_plain (h : plain cell.read = true) : cell.scan = [cell.read] := by
  simp only [plain, Bool.and_eq_true, decide_eq_true_eq] at h
  exact Cell.scan_eq_of_ne h.1.1 h.1.2

theorem firstLine_cons {c : Char} (h : c ≠ '\n') (text : List Char) :
    firstLine (c :: text) = c :: firstLine text :=
  List.takeWhile_cons_of_pos (by simpa using h)

theorem not_mem_firstLine (text : List Char) : '\n' ∉ firstLine text := fun h => by
  simpa using List.mem_takeWhile_imp h

theorem firstLine_append_of_mem {text : List Char} (h : '\n' ∈ text) (rest : List Char) :
    firstLine (text ++ rest) = firstLine text := by
  induction text with
  | nil => cases h
  | cons c text ih =>
    by_cases hc : c = '\n'
    · simp [firstLine, hc]
    · rw [List.cons_append, firstLine_cons hc, firstLine_cons hc,
        ih ((List.mem_cons.mp h).resolve_left fun heq => hc heq.symm)]

/-- A piece that is not the same in both views begins with a space or ends the line. -/
theorem firstLine_of_not_solid (h : cell.scan ≠ [cell.read]) (text : List Char) :
    firstLine (cell.scan ++ text) = [] ∨ ∃ more, firstLine (cell.scan ++ text) = ' ' :: more := by
  have hhead : ∃ c more, cell.scan = c :: more ∧ (c = ' ' ∨ c = '\n') := by
    rcases cell.faithful with heq | ⟨-, hne, hall⟩ | ⟨-, heq⟩
    · exact absurd heq h
    · obtain ⟨c, more, heq⟩ := List.exists_cons_of_ne_nil hne
      exact ⟨c, more, heq, hall c (heq ▸ List.mem_cons_self)⟩
    · exact ⟨'\n', [], heq, Or.inr rfl⟩
  obtain ⟨c, more, heq, rfl | rfl⟩ := hhead
  · exact Or.inr ⟨_, by rw [heq, List.cons_append, firstLine_cons (by decide)]⟩
  · exact Or.inl (by simp [heq, firstLine])

/-- A word of a pattern matches the same pieces in both views. -/
theorem matchWord_firstLine {word : List Char} (hword : ∀ w ∈ word, plain w = true)
    (cells : List Cell) :
    matchWord word (firstLine (scanText cells)) = (matchWord word (readText cells)).map fun m =>
      (m.1, firstLine (scanText (cells.drop word.length))) := by
  induction word generalizing cells with
  | nil => rfl
  | cons w word ih =>
    cases cells with
    | nil => rfl
    | cons cell cells =>
      have hw : plain w = true := hword w List.mem_cons_self
      by_cases hsolid : cell.scan = [cell.read]
      · by_cases hbreak : cell.read = '\n'
        · -- the line ends here, and no word has a line break
          have hfold : foldCase cell.read ≠ w := by
            rintro rfl
            rw [hbreak] at hw
            exact absurd hw (by decide)
          have hline : firstLine (scanText (cell :: cells)) = [] := by
            simp [hsolid, hbreak, firstLine]
          rw [hline, readText_cons, matchWord, matchWord, if_neg hfold]
          rfl
        · rw [scanText_cons, hsolid, List.singleton_append, firstLine_cons hbreak, matchWord,
            readText_cons, matchWord, ih fun x hx => hword x (List.mem_cons_of_mem _ hx)]
          split
          next => cases matchWord word (readText cells) <;> rfl
          next => rfl
      · have hread : foldCase cell.read ≠ w := by
          intro hfold
          exact hsolid (Cell.scan_of_plain (plain_of_foldCase (hfold ▸ hw)))
        have hspace : foldCase ' ' ≠ w := by
          rintro rfl
          exact absurd hw (by decide)
        rw [scanText_cons, readText_cons, matchWord, if_neg hread]
        rcases firstLine_of_not_solid hsolid (scanText cells) with heq | ⟨more, heq⟩
        · rw [heq]
          rfl
        · rw [heq, matchWord, if_neg hspace]
          rfl

theorem matchWord_rest {word text matched rest : List Char}
    (h : matchWord word text = some (matched, rest)) : rest = text.drop word.length := by
  induction word generalizing text matched with
  | nil =>
    cases h
    rfl
  | cons w word ih =>
    cases text with
    | nil => cases h
    | cons c text =>
      rw [matchWord] at h
      split at h
      next =>
        obtain ⟨⟨matched', rest'⟩, hmatch, heq⟩ := Option.map_eq_some_iff.mp h
        cases heq
        exact ih hmatch
      next => cases h

/-- A word matches at a character that is not blank. -/
theorem exists_cons_of_matchWord {w : Char} {word text : List Char} {m : List Char × List Char}
    (hw : plain w = true) (hblank : blank w = false)
    (h : matchWord (w :: word) text = some m) :
    ∃ c rest, text = c :: rest ∧ plain c = true ∧ blank c = false := by
  cases text with
  | nil => cases h
  | cons c text =>
    rw [matchWord] at h
    split at h
    next hfold =>
      refine ⟨c, text, rfl, plain_of_foldCase (hfold ▸ hw), Bool.eq_false_iff.mpr fun hc => ?_⟩
      have hsame : foldCase c = c := by
        simp only [blank, List.mem_cons, List.not_mem_nil, or_false, decide_eq_true_eq] at hc
        rcases hc with rfl | rfl | rfl | rfl <;> decide
      rw [← hfold, hsame, hc] at hblank
      cases hblank
    next => cases h

/-- A line that goes on with a plain character goes on with it in both views. -/
theorem dropWhile_firstLine_of_plain (hplain : plain cell.read = true)
    (hblank : blank cell.read = false) :
    (firstLine (scanText (cell :: cells))).dropWhile blank =
      firstLine (scanText (cell :: cells)) := by
  have hne : cell.read ≠ '\n' := by
    intro heq
    simp [heq, plain] at hplain
  rw [scanText_cons, Cell.scan_of_plain hplain, List.singleton_append, firstLine_cons hne,
    List.dropWhile_cons_of_neg (by simp [hblank])]

end Compile

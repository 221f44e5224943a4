import Mt5HttpApi.Lib.Lines

/-!
# Set files

`parse_set_text` of `mt5api/chartctl/setparse.py`. Each line of a set file gives an input or none,
whatever the other lines are: `parseSetText_append` says that a text is read line feed by line feed.
-/

namespace ChartCtl

open Text

/-- The optimization of an input. -/
structure InputRange where
  start : List Char
  step : List Char
  stop : List Char
  optimize : Bool
  deriving DecidableEq, Repr

/-- An input of a set file. -/
structure SetInput where
  name : List Char
  value : List Char
  range : Option InputRange
  deriving DecidableEq, Repr

/-- `text.split("||")`. -/
def splitBars : List Char → List (List Char)
  | [] => [[]]
  | '|' :: '|' :: rest => [] :: splitBars rest
  | c :: rest => consLine c (splitBars rest)

/-- `text.upper() == "Y"`. -/
def isYes (text : List Char) : Bool := text.map Char.toUpper = ['Y']

/-- What is after the name of an input. -/
def parseRhs (name rhs : List Char) : SetInput :=
  let parts := splitBars rhs
  { name := name
    value := strip parts.headI
    range := match parts with
      | _ :: start :: step :: stop :: optimize :: _ =>
        some ⟨strip start, strip step, strip stop, isYes (strip optimize)⟩
      | _ => none }

/-- One line of a set file. -/
def parseSetLine (rawLine : List Char) : Option SetInput :=
  let line := (strip rawLine).dropWhile (· = '\uFEFF')
  if line = [] ∨ line.head? = some ';' ∨ line.head? = some '#' then none
  else if '=' ∉ line then none
  else
    let name := strip (line.takeWhile (· ≠ '='))
    if name = [] then none else some (parseRhs name ((line.dropWhile (· ≠ '=')).drop 1))

/-- `parse_set_text`. -/
def parseSetText (text : List Char) : List SetInput := (splitlines text).filterMap parseSetLine

variable {text rest line : List Char}

/-- A text is read line feed by line feed. -/
theorem parseSetText_append (text rest : List Char) :
    parseSetText (text ++ '\n' :: rest) = parseSetText (text ++ ['\n']) ++ parseSetText rest := by
  rw [parseSetText, splitlines_append, List.filterMap_append]
  rfl

/-- White space is no input. -/
theorem parseSetLine_of_isSpace (h : ∀ c ∈ line, isSpace c = true) : parseSetLine line = none := by
  have hstrip : strip line = [] := by
    rw [strip, List.dropWhile_eq_nil_iff.mpr h]
    rfl
  rw [parseSetLine, hstrip]
  rfl

theorem parseSetText_of_isSpace (h : ∀ c ∈ text, isSpace c = true) : parseSetText text = [] := by
  rw [parseSetText, List.filterMap_eq_nil_iff]
  intro line hline
  exact parseSetLine_of_isSpace fun c hc => h c (mem_splitlines hline c hc).2

/-- A text is its first line and what is after that. -/
theorem parseSetText_before {c : Char} (h : ∀ d ∈ line, endsLine d = false)
    (hc : endsLine c = true) (rest : List Char) : parseSetText (line ++ c :: rest) =
      (parseSetLine line).toList ++ parseSetText (afterEnd (c :: rest)) := by
  rw [parseSetText, splitlines_before h hc]
  cases hline : parseSetLine line with
  | none => exact List.filterMap_cons_none hline
  | some input => exact List.filterMap_cons_some hline

/-- One line. -/
theorem parseSetText_line (h : ∀ d ∈ line, endsLine d = false) :
    parseSetText line = (parseSetLine line).toList := by
  by_cases hnil : line = []
  · rw [hnil]
    rfl
  · rw [parseSetText, splitlines_line h hnil]
    cases hline : parseSetLine line with
    | none => exact List.filterMap_cons_none hline
    | some input => exact List.filterMap_cons_some hline

/-- A line feed at the end adds no input. -/
theorem parseSetText_newline (text : List Char) :
    parseSetText (text ++ ['\n']) = parseSetText text := by
  rcases splitlines_concat text with h | h
  · rw [parseSetText, h, parseSetText]
  · rw [parseSetText, h, List.filterMap_append, parseSetText]
    simp [parseSetLine_of_isSpace]

end ChartCtl

import Mt5HttpApi.Backtest.IniBuilder
import Mt5HttpApi.ChartCtl.SetParse
import Mt5HttpApi.Lib.Checks

/-!
# Set files from JSON

`mt5api/backtest/set_builder.py`. `accepted` is what the checks of `build_set` make of a JSON
object: comments, and parameters with their values as texts. `render` is the text of them.
-/

namespace Backtest.SetBuilder

open Text Json IniBuilder ChartCtl

/-- The range of a parameter to be optimized. -/
structure Range where
  start : List Char
  step : List Char
  stop : List Char
  optimize : Bool
  deriving DecidableEq, Repr

/-- A parameter with its values as texts. -/
structure Parameter where
  name : List Char
  value : List Char
  range : Option Range
  deriving DecidableEq, Repr

/-- `_stringify_scalar`. -/
def stringifyScalar (py : Py) (value : Value) : Except String (List Char) :=
  match value with
  | .bool b => .ok (if b then "true" else "false").toList
  | .int n => .ok (intText n)
  | .float x => .ok (floatText py x)
  | .str text => .ok text
  | _ => .error "parameter value must be a string, number, or boolean"

/-- `_stringify_optimize`: whether it is `Y`. -/
def stringifyOptimize (value : Value) : Except String Bool :=
  let invalid := "optimize must be a boolean or 'Y'/'N'"
  match value with
  | .bool b => .ok b
  | .str text =>
    let normalized := (strip text).map Char.toUpper
    if normalized = ['Y'] then .ok true
    else if normalized = ['N'] then .ok false
    else .error invalid
  | _ => .error invalid

/-- The fields of a range. -/
def rangeKeys : List String := ["start", "step", "stop", "optimize"]

/-- The range of an entry that has one of its fields. -/
def rangeOf (py : Py) (name : String) (entry : Fields) : Except String Range :=
  let missing := rangeKeys.filter fun key => (entry.find key).isNone
  if missing ≠ [] then
    .error (s!"parameter '{name}' is missing optimization fields: " ++ ", ".intercalate missing)
  else do
    let start ← stringifyScalar py (get entry "start")
    let step ← stringifyScalar py (get entry "step")
    let stop ← stringifyScalar py (get entry "stop")
    let optimize ← stringifyOptimize (get entry "optimize")
    pure ⟨start, step, stop, optimize⟩

/-- The checks of `_render_entry`. -/
def parameterOf (py : Py) (entry : Value) : Except String Parameter :=
  match entry with
  | .obj fields =>
    match trimmed? (get fields "name") with
    | none => .error "parameter name is required"
    | some name =>
      let nameText := String.ofList name
      match Fields.find fields "value" with
      | none => .error s!"parameter '{nameText}' is missing value"
      | some value => do
        let value ← stringifyScalar py value
        if rangeKeys.all fun key => (Fields.find fields key).isNone then pure ⟨name, value, none⟩
        else do
          let range ← rangeOf py nameText fields
          pure ⟨name, value, some range⟩
  | _ => .error "each parameter entry must be an object"

/-- The text after the value. -/
def Range.text (range : Range) : List Char :=
  "||".toList ++ range.start ++ ("||".toList ++ range.step ++ ("||".toList ++ range.stop ++
    ("||".toList ++ [if range.optimize then 'Y' else 'N'])))

/-- What is after the name. -/
def Parameter.rhs (p : Parameter) : List Char :=
  p.value ++ match p.range with
    | some range => range.text
    | none => []

/-- The line of a parameter. -/
def Parameter.line (p : Parameter) : List Char := p.name ++ '=' :: p.rhs

/-- The line of a comment. -/
def commentLine (comment : List Char) : List Char :=
  if comment.head? = some ';' then comment else "; ".toList ++ comment

/-- The comments. -/
def commentsOf (params : Fields) : Except String (List (List Char)) :=
  let invalid := "comments must be a list of strings"
  match (params.find "comments").getD (.arr []) with
  | .null => .ok []
  | .arr items =>
    match items.mapM Value.text? with
    | some texts => .ok texts
    | none => .error invalid
  | _ => .error invalid

/-- The parameters. -/
def parametersOf (py : Py) (params : Fields) : Except String (List Parameter) :=
  match get params "parameters" with
  | .arr (entry :: entries) => (entry :: entries).mapM (parameterOf py)
  | _ => .error "parameters must be a non-empty array"

/-- The checks of `build_set`. -/
def accepted (py : Py) (params : Value) : Except String (List (List Char) × List Parameter) :=
  match params with
  | .obj fields => do
    let comments ← commentsOf fields
    let parameters ← parametersOf py fields
    pure (comments, parameters)
  | _ => .error "params must be an object"

/-- The lines of a set file, each with a line feed at its end. -/
def render (comments : List (List Char)) (parameters : List Parameter) : List Char :=
  ['\n'].intercalate (comments.map commentLine ++ parameters.map Parameter.line) ++ ['\n']

/-- `build_set`. -/
def buildSet (py : Py) (params : Value) : Except String (List Char) := do
  let (comments, parameters) ← accepted py params
  pure (render comments parameters)

/-! ## What is accepted -/

theorem name_of_parameterOf {py : Py} {entry : Value} {p : Parameter}
    (h : parameterOf py entry = .ok p) : p.name ≠ [] ∧ strip p.name = p.name := by
  unfold parameterOf at h
  split at h
  next fields =>
    split at h
    next => cases h
    next name htrimmed =>
      have hname : name ≠ [] ∧ strip name = name := by
        unfold trimmed? at htrimmed
        split at htrimmed
        next =>
          split at htrimmed
          next => cases htrimmed
          next hne =>
            cases htrimmed
            exact ⟨hne, strip_strip _⟩
        next => cases htrimmed
      dsimp only at h
      split at h
      next => cases h
      next value hvalue =>
        rcases hscalar : stringifyScalar py value with e | text
        · rw [hscalar] at h
          cases h
        · rw [hscalar] at h
          change (if _ then _ else _) = _ at h
          split at h
          · cases h
            exact hname
          · rcases hrange : rangeOf py (String.ofList name) fields with e | range
            · rw [hrange] at h
              cases h
            · rw [hrange] at h
              cases h
              exact hname
  next => cases h

/-- Every parameter has a name, without white space around it. -/
theorem name_of_accepted {py : Py} {params : Value} {comments : List (List Char)}
    {parameters : List Parameter} (h : accepted py params = .ok (comments, parameters)) :
    ∀ p ∈ parameters, p.name ≠ [] ∧ strip p.name = p.name := by
  unfold accepted at h
  split at h
  next fields =>
    rcases hcomments : commentsOf fields with e | comments'
    · rw [hcomments] at h
      cases h
    · rcases hparameters : parametersOf py fields with e | parameters'
      · rw [hcomments, hparameters] at h
        cases h
      · rw [hcomments, hparameters] at h
        cases h
        unfold parametersOf at hparameters
        split at hparameters
        next =>
          intro p hp
          obtain ⟨entry, -, hentry⟩ := Checks.exists_of_mapM hparameters p hp
          exact name_of_parameterOf hentry
        next => cases hparameters
  next => cases h

end Backtest.SetBuilder

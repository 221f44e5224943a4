import Mt5HttpApi.Lib.Dict
import Mathlib.Data.Rat.Defs

/-!
# JSON values as Python reads them

What `json.loads` returns. A number without a fraction or an exponent is an integer of any size, any
other one is a float, and so are `NaN` and `Infinity`, which Python reads though JSON has none.
A float is given by its value.
-/

namespace Json

/-- A float. -/
inductive Number
  | finite (q : ℚ)
  | negZero
  | nan
  | infinity (negative : Bool)
  deriving DecidableEq

/-- A value. The fields of an object have distinct keys. -/
inductive Value
  | null
  | bool (b : Bool)
  | int (n : ℤ)
  | float (x : Number)
  | str (s : List Char)
  | arr (items : List Value)
  | obj (fields : List (List Char × Value))

/-- The fields of an object. -/
abbrev Fields := List (List Char × Value)

/-- `body.get(key)` of an object. -/
def Fields.find (fields : Fields) (key : String) : Option Value := Dict.get fields key.toList

/-- The text of a string. -/
def Value.text? : Value → Option (List Char)
  | .str s => some s
  | _ => none

/-- The texts of a list of strings. -/
def Value.texts? : Value → Option (List (List Char))
  | .arr items => items.mapM Value.text?
  | _ => none

end Json

import Mt5HttpApi.Lib.Text

/-!
# Configuration values

What `mt5api/config.py` and `scripts/config_helper.py` share about the entries of the `terminals`
list.
-/

namespace Config

open Text

/-- `DEFAULT_INSTANCE`. -/
def defaultInstance : String := "default"

/-- `normalize_instance`, on a value that is `None` or given by its `str()`. -/
def normalizeInstance : Option String → String
  | none => defaultInstance
  | some value =>
    let name := strip value.toList
    if name = [] then defaultInstance else String.ofList name

/-- `normalize_instance` leaves a normalized name as it is. -/
theorem normalizeInstance_idem (value : Option String) :
    normalizeInstance (some (normalizeInstance value)) = normalizeInstance value := by
  have hdefault : normalizeInstance (some defaultInstance) = defaultInstance := by decide
  cases value with
  | none => exact hdefault
  | some value =>
    simp only [normalizeInstance]
    split
    next => exact hdefault
    next hname => rw [String.toList_ofList, strip_strip, if_neg hname]

end Config

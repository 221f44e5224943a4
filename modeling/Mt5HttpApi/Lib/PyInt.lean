import Mathlib.Data.Nat.Notation
import Mt5HttpApi.Lib.Decimal
import Mt5HttpApi.Lib.Text

/-!
# Integers in texts

Python's `int` of a text: white space around it, a sign, and decimal digits of any script with
single underscores between them.
-/

namespace PyInt

open Text

/-- `sys.get_int_max_str_digits()`. -/
def maxDigits : ℕ := 4300

/-- The value of digits with single underscores between them. -/
def digitsValue (decimal : Char → Option ℕ) (text : List Char) : Option ℕ :=
  let groups := text.splitOn '_'
  if groups.all (· ≠ []) ∧ groups.flatten.length ≤ maxDigits then
    (groups.flatten.mapM decimal).map fun digits =>
      digits.foldl (fun value digit => 10 * value + digit) 0
  else none

/-- `int(text)`; `none` when it raises a `ValueError`. -/
def int (decimal : Char → Option ℕ) (text : List Char) : Option ℤ :=
  match strip text with
  | '-' :: digits => (digitsValue decimal digits).map fun value => -(value : ℤ)
  | '+' :: digits => (digitsValue decimal digits).map fun value => (value : ℤ)
  | digits => (digitsValue decimal digits).map fun value => (value : ℤ)

/-- The decimal digits of ASCII. -/
def asciiDecimal (c : Char) : Option ℕ := if c.isDigit then some (c.toNat - 48) else none

example : int asciiDecimal " +1_0\n".toList = some 10 := by decide

/-! ## What is written of a natural number -/

theorem asciiDecimal_of_isDigit {c : Char} (h : c.isDigit = true) :
    asciiDecimal c = some (c.toNat - 48) := if_pos h

theorem mapM_asciiDecimal {text : List Char} (h : ∀ c ∈ text, c.isDigit = true) :
    text.mapM asciiDecimal = some (text.map fun c => c.toNat - 48) := by
  induction text with
  | nil => rfl
  | cons c text ih =>
    obtain ⟨hc, htext⟩ := List.forall_mem_cons.mp h
    rw [List.mapM_cons, asciiDecimal_of_isDigit hc, ih htext]
    rfl

theorem digitsValue_numeral {text : List Char} (h : Decimal.IsNumeral text)
    (hlength : text.length ≤ maxDigits) :
    digitsValue asciiDecimal text = some (Nat.ofDigitChars 10 text 0) := by
  have hunderscore : '_' ∉ text := fun hmem => Decimal.ne_of_isDigit (h.2 _ hmem) rfl rfl
  rw [digitsValue, List.splitOn_eq_singleton hunderscore]
  have hgroups : [text].all (· ≠ []) ∧ [text].flatten.length ≤ maxDigits := by
    simpa using ⟨h.1, hlength⟩
  rw [if_pos hgroups, List.flatten_singleton, mapM_asciiDecimal h.2, Option.map_some,
    List.foldl_map]
  rfl

theorem int_numeral {text : List Char} (h : Decimal.IsNumeral text)
    (hlength : text.length ≤ maxDigits) :
    int asciiDecimal text = some (Nat.ofDigitChars 10 text 0 : ℤ) := by
  rw [int, strip_of_forall (Decimal.isSpace_of_isNumeral h)]
  split
  next digits => exact absurd (h.2 '-' List.mem_cons_self) (by decide)
  next digits => exact absurd (h.2 '+' List.mem_cons_self) (by decide)
  next =>
    rw [digitsValue_numeral h hlength]
    rfl

end PyInt

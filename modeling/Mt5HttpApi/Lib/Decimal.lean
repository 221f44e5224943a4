import Mathlib.Data.Rat.Defs
import Mathlib.Algebra.Order.Ring.Rat
import Mt5HttpApi.Lib.Text

/-!
# Decimal numbers

Numbers as they are written: decimal digits, and perhaps a point with more of them. `Nat.toDigits`
writes a natural number, and `decimalValue` reads what is written.

* `decimalValue_toDigits`, `decimalValue_point`: what is read of a number without and with a point.
* `isSpace_of_isNumeral`: no white space is in it.
-/

namespace Decimal

open Text

/-- A text of decimal digits. -/
def IsNumeral (text : List Char) : Prop := text ≠ [] ∧ ∀ c ∈ text, c.isDigit = true

instance (text : List Char) : Decidable (IsNumeral text) := inferInstanceAs (Decidable (_ ∧ _))

/-- The value of a decimal number. -/
def decimalValue (text : List Char) : Option ℚ :=
  let whole := text.takeWhile (· ≠ '.')
  match text.dropWhile (· ≠ '.') with
  | [] => if IsNumeral whole then some (Nat.ofDigitChars 10 whole 0 : ℕ) else none
  | _ :: fraction =>
    if IsNumeral whole ∧ IsNumeral fraction then
      some ((Nat.ofDigitChars 10 whole 0 : ℕ) +
        (Nat.ofDigitChars 10 fraction 0 : ℕ) / 10 ^ fraction.length)
    else none

/-! ## Digits -/

theorem isSpace_of_isDigit {c : Char} (h : c.isDigit = true) : isSpace c = false := by
  by_contra hspace
  exact (toNat_of_isSpace (by simpa using hspace)).1 (toNat_of_isDigit h)

theorem ne_of_isDigit {c d : Char} (h : c.isDigit = true) (hd : d.isDigit = false) : c ≠ d := by
  rintro rfl
  rw [h] at hd
  cases hd

theorem isNumeral_toDigits (n : ℕ) : IsNumeral (Nat.toDigits 10 n) :=
  ⟨Nat.toDigits_ne_nil, fun _ hc => Nat.isDigit_of_mem_toDigits (by decide) (by decide) hc⟩

theorem isSpace_of_isNumeral {text : List Char} (h : IsNumeral text) :
    ∀ c ∈ text, isSpace c = false := fun c hc => isSpace_of_isDigit (h.2 c hc)

theorem toDigits_injective {m n : ℕ} (h : Nat.toDigits 10 m = Nat.toDigits 10 n) : m = n := by
  have hvalues := congrArg (fun text => Nat.ofDigitChars 10 text 0) h
  simpa only [Nat.ofDigitChars_ten_toDigits] using hvalues

/-- A text with something else than digits is no natural number. -/
theorem ne_toDigits {text : List Char} {c : Char} (hc : c ∈ text) (hdigit : c.isDigit = false)
    (n : ℕ) : text ≠ Nat.toDigits 10 n := by
  rintro rfl
  exact ne_of_isDigit ((isNumeral_toDigits n).2 c hc) hdigit rfl

/-! ## Values -/

variable {whole fraction : List Char}

theorem decimalValue_toDigits (n : ℕ) : decimalValue (Nat.toDigits 10 n) = some (n : ℚ) := by
  have hpoint : ∀ c ∈ Nat.toDigits 10 n, decide (c ≠ '.') = true := fun c hc =>
    decide_eq_true (ne_of_isDigit ((isNumeral_toDigits n).2 c hc) rfl)
  rw [decimalValue, List.dropWhile_eq_nil_iff.mpr hpoint, List.takeWhile_eq_self_iff.mpr hpoint]
  dsimp only
  rw [if_pos (isNumeral_toDigits n), Nat.ofDigitChars_ten_toDigits]

theorem decimalValue_point (hwhole : IsNumeral whole) (hfraction : IsNumeral fraction) :
    decimalValue (whole ++ '.' :: fraction) = some ((Nat.ofDigitChars 10 whole 0 : ℚ) +
      (Nat.ofDigitChars 10 fraction 0 : ℚ) / 10 ^ fraction.length) := by
  have hpoint : '.' ∉ whole := fun hc => ne_of_isDigit (hwhole.2 '.' hc) rfl rfl
  rw [decimalValue, takeWhile_ne_append hpoint, dropWhile_ne_append hpoint]
  dsimp only
  rw [if_pos ⟨hwhole, hfraction⟩]

end Decimal

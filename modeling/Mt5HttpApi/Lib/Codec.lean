import Mathlib.Data.List.Basic

/-!
# Decoding with errors

What a decoder makes of bytes: items, each a character or an error, with the number of bytes it was
made of. `bytes.decode` fails at the first error, and with `errors="replace"` it has U+FFFD there.
-/

namespace Codec

/-- A character or an error, and how many bytes it is. -/
structure Item where
  char : Option Char
  width : ℕ
  deriving DecidableEq, Repr

/-- `errors="strict"`. -/
def strict (items : List Item) : Option (List Char) := items.mapM Item.char

/-- The character of an item, with `errors="replace"`. -/
def Item.shown (item : Item) : Char := item.char.getD '\uFFFD'

/-- `errors="replace"`. -/
def replace (items : List Item) : List Char := items.map Item.shown

/-- Items without an error are a text. -/
theorem strict_map {width : Char → ℕ} (text : List Char) :
    strict (text.map fun c => ⟨some c, width c⟩) = some text := by
  induction text with
  | nil => rfl
  | cons c text ih =>
    rw [strict] at ih ⊢
    rw [List.map_cons, List.mapM_cons, ih]
    rfl

end Codec

import Mathlib.Data.List.Basic
import Mathlib.Data.UInt

/-!
# Bytes as hexadecimal text

`bytes.hex().upper()` and `bytes.fromhex`. What is written is read as the bytes it was written from
(`fromHex_hex`), so bytes are determined by their text.
-/

namespace Hex

/-- A digit from 0 to 15, in upper case. -/
def digit (n : ℕ) : Char := if n < 10 then Char.ofNat (0x30 + n) else Char.ofNat (0x37 + n)

/-- The value of a digit in either case. -/
def value (c : Char) : Option ℕ :=
  let n := c.toNat
  if 0x30 ≤ n ∧ n ≤ 0x39 then some (n - 0x30)
  else if 0x41 ≤ n ∧ n ≤ 0x46 then some (n - 0x37)
  else if 0x61 ≤ n ∧ n ≤ 0x66 then some (n - 0x57)
  else none

/-- The digits of a byte. -/
def hexByte (b : UInt8) : List Char := [digit (b.toNat / 16), digit (b.toNat % 16)]

/-- `bytes.hex().upper()` -/
def hex (bytes : List UInt8) : List Char := bytes.flatMap hexByte

/-- White space of ASCII. -/
def isAsciiSpace (c : Char) : Bool := c.toNat = 0x20 || 0x09 ≤ c.toNat && c.toNat ≤ 0x0D

/-- `bytes.fromhex`: white space between the bytes is skipped. -/
def fromHex : List Char → Option (List UInt8)
  | [] => some []
  | [c] => if isAsciiSpace c then some [] else none
  | c :: d :: rest =>
    if isAsciiSpace c then fromHex (d :: rest)
    else do
      let high ← value c
      let low ← value d
      let bytes ← fromHex rest
      pure (UInt8.ofNat (16 * high + low) :: bytes)

theorem value_digit : ∀ n < 16, value (digit n) = some n := by decide

theorem isAsciiSpace_digit : ∀ n < 16, isAsciiSpace (digit n) = false := by decide

/-- What is written is read as the bytes it was written from. -/
@[simp]
theorem fromHex_hex (bytes : List UInt8) : fromHex (hex bytes) = some bytes := by
  induction bytes with
  | nil => rfl
  | cons b bytes ih =>
    have hb : b.toNat < 256 := b.toNat_lt
    have hbyte : 16 * (b.toNat / 16) + b.toNat % 16 = b.toNat := by omega
    have hhex : hex (b :: bytes) = digit (b.toNat / 16) :: digit (b.toNat % 16) :: hex bytes := rfl
    rw [hhex, fromHex, if_neg (by rw [isAsciiSpace_digit _ (by omega)]; decide),
      value_digit _ (by omega), value_digit _ (by omega), ih]
    show some (UInt8.ofNat (16 * (b.toNat / 16) + b.toNat % 16) :: bytes) = _
    rw [hbyte, UInt8.ofNat_toNat]

theorem hex_injective : Function.Injective hex := by
  intro a b h
  apply Option.some.inj
  rw [← fromHex_hex a, h, fromHex_hex]

/-- The characters that are written are digits. -/
theorem exists_digit_of_mem {c : Char} {bytes : List UInt8} (h : c ∈ hex bytes) :
    ∃ n, n < 16 ∧ c = digit n := by
  obtain ⟨b, -, hc⟩ := List.mem_flatMap.mp h
  have hb : b.toNat < 256 := b.toNat_lt
  rcases List.mem_cons.mp hc with rfl | hc
  · exact ⟨_, by omega, rfl⟩
  · rw [List.mem_singleton.mp hc]
    exact ⟨_, by omega, rfl⟩

end Hex

import Mt5HttpApi.Lib.Utf8Items

/-!
# The tail of a log

`_read_tail_text` of `mt5api/backtest/handler.py`, of the bytes of the file. The last bytes are read
from an even position on where the file is UTF-16, and what comes before the first line feed is
dropped when they do not begin with the file.

* `readTailText_whole`: the whole file, when that is read.
* `readTailText_part`: what comes after the first line feed of the whole, when not all of it is.
-/

namespace Backtest.LogTail

open Codec

/-- The file looks like UTF-16: it begins with the mark, or its second byte is zero. -/
def isUtf16 (file : List UInt8) : Bool :=
  file.take 2 = [0xFF, 0xFE] ∨ (file.take 2)[1]? = some 0

/-- The items of bytes in the encoding. -/
def itemsOf (utf16 : Bool) (bytes : List UInt8) : List Item :=
  if utf16 then Utf16.items .little bytes else Utf8.items bytes

/-- `raw.decode(..., errors="replace")`. -/
def decodeText (utf16 : Bool) (bytes : List UInt8) : List Char := replace (itemsOf utf16 bytes)

/-- Where the window begins. -/
def windowOffset (file : List UInt8) (maxBytes : ℕ) : ℕ :=
  let offset := file.length - maxBytes
  if isUtf16 file ∧ offset % 2 ≠ 0 then offset - 1 else offset

/-- The text of the window. -/
def windowText (file : List UInt8) (maxBytes : ℕ) : List Char :=
  decodeText (isUtf16 file) (file.drop (windowOffset file maxBytes))

/-- `_read_tail_text`. -/
def readTailText (file : List UInt8) (maxBytes : ℕ) : List Char :=
  let text := windowText file maxBytes
  if 0 < windowOffset file maxBytes ∧ '\n' ∈ text then afterFirst text else text

/-- The text of the whole file. -/
def fullText (file : List UInt8) : List Char := decodeText (isUtf16 file) file

/-- The part of the text of the whole file that comes after the first line feed from a position
on. -/
def partAfter (file : List UInt8) (start : ℕ) : Option (List Char) :=
  afterBreak start 0 (itemsOf (isUtf16 file) file)

variable {file : List UInt8} {maxBytes : ℕ}

/-- The window of a file that is no longer begins with it. -/
theorem windowOffset_of_le (h : file.length ≤ maxBytes) : windowOffset file maxBytes = 0 := by
  unfold windowOffset
  rw [Nat.sub_eq_zero_of_le h]
  simp

/-- The whole of a file, when the window begins with it. -/
theorem readTailText_whole (h : windowOffset file maxBytes = 0) :
    readTailText file maxBytes = fullText file := by
  unfold readTailText windowText fullText
  rw [h, List.drop_zero]
  exact if_neg fun hpos => absurd hpos.1 (Nat.lt_irrefl 0)

/-- The window of a file in UTF-16 begins with a unit. -/
theorem even_windowOffset (h : isUtf16 file = true) : 2 ∣ windowOffset file maxBytes := by
  unfold windowOffset
  dsimp only
  split
  next hodd => omega
  next hnot =>
    have heven : ¬ (file.length - maxBytes) % 2 ≠ 0 := fun hodd => hnot ⟨h, hodd⟩
    omega

/-- What comes after the first line feed of the window is what comes after the first line feed of
the whole from there on. -/
theorem readTailText_part (hpos : 0 < windowOffset file maxBytes)
    (hbreak : '\n' ∈ windowText file maxBytes) :
    partAfter file (windowOffset file maxBytes) = some (readTailText file maxBytes) := by
  have hle : windowOffset file maxBytes ≤ file.length := by
    unfold windowOffset
    dsimp only
    split <;> omega
  have htake : (file.take (windowOffset file maxBytes)).length = windowOffset file maxBytes := by
    rw [List.length_take]
    omega
  have hparts := List.take_append_drop (windowOffset file maxBytes) file
  have heven := @even_windowOffset file maxBytes
  unfold readTailText
  dsimp only
  rw [if_pos ⟨hpos, hbreak⟩]
  unfold windowText decodeText at hbreak ⊢
  unfold partAfter
  cases hutf16 : isUtf16 file with
  | true =>
    have hline : (Utf16.bytesOf .little 10).length ∣
        (file.take (windowOffset file maxBytes)).length := by
      rw [htake]
      exact heven hutf16
    rw [hutf16] at hbreak
    have htail := (Utf16.lineSafe .little).afterBreak_eq (Utf16.stepwise .little) (by decide) hline
      hbreak
    rw [htake, hparts] at htail
    exact htail
  | false =>
    rw [hutf16] at hbreak
    have hline : [(0x0A : UInt8)].length ∣ (file.take (windowOffset file maxBytes)).length :=
      Nat.one_dvd _
    have htail := Utf8.lineSafe.afterBreak_eq Utf8.stepwise (by decide) hline hbreak
    rw [htake, hparts] at htail
    exact htail

/-- The tail of a log: after a line feed, where the window begins after the file does and has one;
and the whole of it, where the window begins with it. -/
theorem readTailText_eq (file : List UInt8) (maxBytes : ℕ) :
    (0 < windowOffset file maxBytes → '\n' ∈ windowText file maxBytes →
      partAfter file (windowOffset file maxBytes) = some (readTailText file maxBytes)) ∧
    (windowOffset file maxBytes = 0 → readTailText file maxBytes = fullText file) ∧
    (file.length ≤ maxBytes → windowOffset file maxBytes = 0) :=
  ⟨readTailText_part, readTailText_whole, windowOffset_of_le⟩

/-- A file in UTF-16 of four characters. -/
def sampleLog : List UInt8 := [0xFF, 0xFE, 0x41, 0, 0x0A, 0, 0x42, 0]

/-- Where the window is one byte shorter than a file in UTF-16, the first line is not dropped. -/
theorem not_partAfter : ¬ ∀ (file : List UInt8) (maxBytes : ℕ), 2 ≤ maxBytes →
    maxBytes < file.length → '\n' ∈ windowText file maxBytes →
      partAfter file (windowOffset file maxBytes) = some (readTailText file maxBytes) := by
  intro h
  have htail := h sampleLog 7 (by decide) (by decide) (by decide)
  revert htail
  decide

end Backtest.LogTail

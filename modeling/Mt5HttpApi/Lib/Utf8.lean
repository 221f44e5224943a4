import Mathlib.Data.List.Basic

/-!
# Text as UTF-8

The bytes of a text. A text is determined by its bytes (`encode_injective`), and only the character
NUL has the byte zero (`zero_mem_encode`). A Python string may also have surrogates in it, which
have no bytes of their own.
-/

namespace Utf8

/-- The UTF-8 bytes of a text. -/
def encode (text : List Char) : List UInt8 := text.flatMap String.utf8EncodeChar

/-- The bytes as Lean's own byte array. -/
theorem toByteArray_encode (text : List Char) : (encode text).toByteArray = text.utf8Encode := by
  simp [encode, List.utf8Encode]

/-- A text is determined by its bytes. -/
theorem encode_injective : Function.Injective encode := by
  intro a b h
  have harray : a.utf8Encode = b.utf8Encode := by
    rw [← toByteArray_encode, ← toByteArray_encode, h]
  rw [← String.toByteArray_ofList, ← String.toByteArray_ofList, String.toByteArray_inj] at harray
  exact String.ofList_injective harray

/-- Only NUL has the byte zero. -/
theorem zero_mem_utf8EncodeChar {c : Char} (h : 0 ∈ String.utf8EncodeChar c) : c = '\x00' := by
  have hc : c.val.toNat < 1114112 := by
    rcases c.valid with h | h
    · exact Nat.lt_trans h (by decide)
    · exact h.2
  rw [String.utf8EncodeChar] at h
  split_ifs at h with h₁ h₂ h₃
  all_goals
    simp only [List.mem_cons, List.not_mem_nil, or_false, ← UInt8.toNat_inj, UInt8.toNat_ofNat',
      UInt8.toNat_zero] at h
  · apply Char.ext
    apply UInt32.toNat_inj.mp
    show c.val.toNat = 0
    omega
  all_goals omega

/-- A text has the byte zero only where it has a NUL. -/
theorem zero_mem_encode {text : List Char} (h : 0 ∈ encode text) : '\x00' ∈ text := by
  obtain ⟨c, hc, hzero⟩ := List.mem_flatMap.mp h
  exact zero_mem_utf8EncodeChar hzero ▸ hc

/-- Bytes as text, if they are UTF-8. -/
def decode (bytes : List UInt8) : Option (List Char) :=
  bytes.toByteArray.utf8Decode?.map Array.toList

/-- The bytes of a text are read as that text. -/
@[simp]
theorem decode_encode (text : List Char) : decode (encode text) = some text := by
  rw [decode, toByteArray_encode, List.utf8Decode?_utf8Encode]
  rfl

/-- No character has the byte 255. -/
theorem ff_notMem_utf8EncodeChar (c : Char) : 0xFF ∉ String.utf8EncodeChar c := by
  have hc : c.val.toNat < 1114112 := by
    rcases c.valid with h | h
    · exact Nat.lt_trans h (by decide)
    · exact h.2
  intro h
  rw [String.utf8EncodeChar] at h
  split_ifs at h with h₁ h₂ h₃
  all_goals
    simp only [List.mem_cons, List.not_mem_nil, or_false, ← UInt8.toNat_inj, UInt8.toNat_ofNat',
      UInt8.reduceToNat] at h
    omega

/-- Bytes with a 255 among them are not UTF-8. -/
theorem decode_eq_none {bytes : List UInt8} (h : 0xFF ∈ bytes) : decode bytes = none := by
  rw [decode, Option.map_eq_none_iff]
  by_contra hsome
  have hvalid : bytes.toByteArray.IsValidUTF8 :=
    ByteArray.isSome_utf8Decode?_iff.mp (Option.isSome_iff_ne_none.mpr hsome)
  obtain ⟨text, htext⟩ := hvalid
  rw [← toByteArray_encode, List.toByteArray_inj] at htext
  rw [htext] at h
  obtain ⟨c, -, hff⟩ := List.mem_flatMap.mp h
  exact ff_notMem_utf8EncodeChar c hff

/-- A character of a Python string. -/
inductive CodePoint
  | scalar (c : Char)
  /-- A code point from U+D800 to U+DFFF, given by its distance from the first. -/
  | surrogate (n : Fin 2048)
  deriving DecidableEq

namespace CodePoint

/-- `ord`. -/
def ord : CodePoint → ℕ
  | scalar c => c.toNat
  | surrogate n => 0xD800 + n

/-- The character that `encode("utf-8", "replace")` writes. -/
def replaced : CodePoint → Char
  | scalar c => c
  | surrogate _ => '?'

/-- What `replace` writes for no other character. -/
def Kept (x : CodePoint) : Prop := x.replaced ≠ '?'

instance : DecidablePred Kept := fun x => inferInstanceAs (Decidable (x.replaced ≠ '?'))

/-- A character that is kept is the only one written so. -/
theorem Kept.eq_of_replaced {x y : CodePoint} (hx : x.Kept) (h : x.replaced = y.replaced) :
    x = y := by
  match x, y with
  | scalar _, scalar _ => exact congrArg scalar h
  | surrogate _, _ => exact absurd rfl hx
  | scalar _, surrogate _ => exact absurd h hx

/-- Another character written as a `?`. -/
def twin : CodePoint → CodePoint
  | scalar _ => surrogate 0
  | surrogate _ => scalar '?'

/-- A character that is not kept is written like its twin, which it is not. -/
theorem replaced_twin {x : CodePoint} (hx : ¬ x.Kept) :
    x.twin.replaced = x.replaced ∧ x.twin ≠ x := by
  rw [Kept, not_not] at hx
  cases x with
  | scalar c => exact ⟨hx.symm, by simp [twin]⟩
  | surrogate n => exact ⟨hx.symm, by simp [twin]⟩

end CodePoint

/-- `text.encode("utf-8", "replace")`. -/
def encodeReplace (text : List CodePoint) : List UInt8 := encode (text.map CodePoint.replaced)

/-- A text of characters that are kept is the only one with its bytes. -/
theorem eq_of_encodeReplace {text text' : List CodePoint} (h : ∀ x ∈ text, x.Kept)
    (heq : encodeReplace text = encodeReplace text') : text = text' := by
  replace heq := encode_injective heq
  induction text generalizing text' with
  | nil => exact (List.map_eq_nil_iff.mp heq.symm).symm
  | cons x text ih =>
    rcases text' with - | ⟨y, text'⟩
    · exact absurd heq (by simp)
    · obtain ⟨hx, htext⟩ := List.forall_mem_cons.mp h
      rw [List.map_cons, List.map_cons, List.cons.injEq] at heq
      rw [hx.eq_of_replaced heq.1, ih htext heq.2]

/-- The byte zero is written for a NUL only. -/
theorem zero_notMem_encodeReplace {text : List CodePoint} (h : .scalar '\x00' ∉ text) :
    0 ∉ encodeReplace text := by
  intro hzero
  obtain ⟨x, hx, hnul⟩ := List.mem_map.mp (zero_mem_encode hzero)
  cases x with
  | scalar c => exact h (hnul ▸ hx)
  | surrogate n => exact absurd hnul (show '?' ≠ '\x00' by decide)

end Utf8

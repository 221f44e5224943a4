import Mt5HttpApi.Lib.JsonText
import Mt5HttpApi.Lib.Utf16
import Mt5HttpApi.Lib.Utf8

/-!
# Text that is written in one encoding and read in another

A program writes text through a single-byte code page, and another one reads it as UTF-8. The
characters of ASCII come through (`bytes_ascii`), and cut the bytes into parts of which each is
UTF-8 if the whole is (`exists_between`). No other text has as many bytes (`ascii_of_length`).
-/

namespace Utf8

theorem decode_eq_some_iff {bytes : List UInt8} {text : List Char} :
    decode bytes = some text ↔ bytes = encode text := by
  refine ⟨fun h => ?_, fun h => by rw [h, decode_encode]⟩
  obtain ⟨chars, hchars, -⟩ := Option.map_eq_some_iff.mp h
  obtain ⟨text', htext'⟩ := ByteArray.isSome_utf8Decode?_iff.mp (Option.isSome_of_eq_some hchars)
  rw [← toByteArray_encode, List.toByteArray_inj] at htext'
  rw [htext', decode_encode] at h
  rw [htext', Option.some.inj h]

/-- A byte of ASCII is the whole of a character. -/
theorem eq_of_mem_utf8EncodeChar {c : Char} {b : UInt8} (h : b ∈ String.utf8EncodeChar c)
    (hb : b.toNat < 0x80) : String.utf8EncodeChar c = [b] ∧ c.toNat = b.toNat := by
  have hc : c.val.toNat < 1114112 := by
    rcases c.valid with h | h
    · exact Nat.lt_trans h (by decide)
    · exact h.2
  rw [String.utf8EncodeChar] at h ⊢
  split_ifs at h ⊢ with h₁ h₂ h₃
  all_goals
    simp only [List.mem_cons, List.not_mem_nil, or_false, ← UInt8.toNat_inj,
      UInt8.toNat_ofNat'] at h
  · refine ⟨?_, ?_⟩
    · rw [List.singleton_inj, ← UInt8.toNat_inj, UInt8.toNat_ofNat', h]
    · show c.val.toNat = b.toNat
      omega
  all_goals omega

theorem utf8EncodeChar_ascii {c : Char} (h : c.toNat < 0x80) :
    String.utf8EncodeChar c = [c.toUInt8] := by
  rw [String.utf8EncodeChar, if_pos (by show c.val.toNat ≤ 127; exact Nat.le_of_lt_succ h)]
  rfl

/-- A byte of ASCII cuts the bytes of a text. -/
theorem encode_eq_append_cons {text : List Char} {xs ys : List UInt8} {b : UInt8}
    (hb : b.toNat < 0x80) (h : encode text = xs ++ b :: ys) :
    ∃ x c y, text = x ++ c :: y ∧ xs = encode x ∧ c.toNat = b.toNat ∧ ys = encode y := by
  induction text generalizing xs with
  | nil => simp [encode] at h
  | cons c text ih =>
    rw [encode, List.flatMap_cons] at h
    -- the first character is before the byte, or has it
    rcases List.append_eq_append_iff.mp h with ⟨m, rfl, hm⟩ | ⟨m, hc, hm⟩
    · obtain ⟨x, d, y, rfl, rfl, hd, rfl⟩ := ih hm
      exact ⟨c :: x, d, y, rfl, by rw [encode, encode, List.flatMap_cons], hd, rfl⟩
    · cases m with
      | nil =>
        obtain ⟨x, d, y, rfl, hx, hd, rfl⟩ := @ih [] hm.symm
        rw [List.append_nil] at hc
        exact ⟨c :: x, d, y, rfl, by rw [encode, List.flatMap_cons, ← encode, ← hx, hc,
          List.append_nil], hd, rfl⟩
      | cons b' m =>
        obtain ⟨rfl, rfl⟩ := List.cons.inj hm
        obtain ⟨hone, hnat⟩ := eq_of_mem_utf8EncodeChar (c := c) (b := b) (by rw [hc]; simp) hb
        rw [hone] at hc
        cases xs with
        | nil =>
          obtain rfl : m = [] := (List.cons.inj hc).2.symm
          exact ⟨[], c, text, rfl, rfl, hnat, rfl⟩
        | cons x xs => simp at hc

/-- What is between two bytes of ASCII is UTF-8 if the whole is. -/
theorem exists_between {text : List Char} {xs ys zs : List UInt8} {b b' : UInt8}
    (hb : b.toNat < 0x80) (hb' : b'.toNat < 0x80)
    (h : encode text = xs ++ b :: (ys ++ b' :: zs)) : ∃ y, ys = encode y := by
  obtain ⟨-, -, rest, -, -, -, hrest⟩ := encode_eq_append_cons hb h
  obtain ⟨y, -, -, -, hy, -⟩ := encode_eq_append_cons hb' hrest.symm
  exact ⟨y, hy⟩

end Utf8

/-- A single-byte code page, as text is written through it: a byte for each unit of UTF-16. The
characters of ASCII have their own bytes. Another one has a byte above them, or is written as some
printable character that JSON does not escape, such as a `?`. -/
structure AnsiPage where
  encode : Char → List UInt8
  ascii : ∀ c, c.toNat < 0x80 → encode c = [c.toUInt8]
  units : ∀ c, (encode c).length = (Utf16.unitsOf c).length
  other : ∀ c, 0x80 ≤ c.toNat → ∀ b ∈ encode c,
    0x80 ≤ b.toNat ∨ JsonText.plain (Char.ofNat b.toNat) = true

namespace AnsiPage

variable (page : AnsiPage)

/-- The bytes of a text. -/
def bytes (text : List Char) : List UInt8 := text.flatMap page.encode

variable {page}

/-- UTF-8 has more bytes for a character than the code page, unless it is of ASCII. -/
theorem length_encode (c : Char) : (page.encode c).length ≤ (String.utf8EncodeChar c).length ∧
    ((page.encode c).length = (String.utf8EncodeChar c).length → c.toNat < 0x80) := by
  rw [page.units, Utf16.unitsOf, String.utf8EncodeChar]
  have hnat : c.val.toNat = c.toNat := rfl
  rw [hnat]
  split_ifs with h₁ h₂ h₃ h₄
  all_goals
    simp only [List.length_cons, List.length_nil]
    omega

/-- A text with as many bytes in UTF-8 is of ASCII. -/
theorem ascii_of_length {text : List Char}
    (h : (page.bytes text).length = (Utf8.encode text).length) : ∀ c ∈ text, c.toNat < 0x80 := by
  induction text with
  | nil => exact fun c hc => absurd hc List.not_mem_nil
  | cons c text ih =>
    have hle : (page.bytes text).length ≤ (Utf8.encode text).length := by
      rw [bytes, Utf8.encode, List.length_flatMap, List.length_flatMap]
      exact List.sum_le_sum fun d _ => (length_encode d).1
    rw [bytes, Utf8.encode, List.flatMap_cons, List.flatMap_cons, List.length_append,
      List.length_append, ← bytes, ← Utf8.encode] at h
    have hc := @length_encode page c
    exact List.forall_mem_cons.mpr ⟨hc.2 (by omega), ih (by omega)⟩

/-- A text of ASCII comes through. -/
theorem bytes_ascii {text : List Char} (h : ∀ c ∈ text, c.toNat < 0x80) :
    page.bytes text = Utf8.encode text :=
  List.flatMap_congr fun c hc => by rw [page.ascii c (h c hc), Utf8.utf8EncodeChar_ascii (h c hc)]

end AnsiPage

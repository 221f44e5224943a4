import Mt5HttpApi.Lib.Codec

/-!
# Text as UTF-16

The bytes of a text in units of two bytes, in either order, and what a decoder makes of any bytes:
`items` follows CPython's decoder, with the same bytes in each error. `items_encode` says that the
bytes of a text are read as that text.
-/

namespace Utf16

open Codec

/-- Which byte of a unit comes first. -/
inductive Order where
  | little
  | big
  deriving DecidableEq, Repr

/-- The unit of two bytes. -/
def unitOf (order : Order) (a b : UInt8) : ℕ :=
  match order with
  | .little => a.toNat + 256 * b.toNat
  | .big => b.toNat + 256 * a.toNat

/-- The bytes of a unit. -/
def bytesOf (order : Order) (u : ℕ) : List UInt8 :=
  let low := UInt8.ofNat (u % 256)
  let high := UInt8.ofNat (u / 256)
  match order with
  | .little => [low, high]
  | .big => [high, low]

/-- The units of a character. -/
def unitsOf (c : Char) : List ℕ :=
  if c.toNat < 0x10000 then [c.toNat]
  else [0xD800 + (c.toNat - 0x10000) / 0x400, 0xDC00 + (c.toNat - 0x10000) % 0x400]

/-- The bytes of a character. -/
def encodeChar (order : Order) (c : Char) : List UInt8 := (unitsOf c).flatMap (bytesOf order)

/-- The bytes of a text. -/
def encode (order : Order) (text : List Char) : List UInt8 := text.flatMap (encodeChar order)

/-- The first half of a character. -/
def isHigh (u : ℕ) : Bool := 0xD800 ≤ u && u < 0xDC00

/-- The second half of a character. -/
def isLow (u : ℕ) : Bool := 0xDC00 ≤ u && u < 0xE000

/-- The character of two halves. -/
def join (high low : ℕ) : Char := Char.ofNat (0x10000 + (high - 0xD800) * 0x400 + (low - 0xDC00))

/-- What is made of bytes. A single byte at the end is an error, as is a half without its other
half; a first half at the end takes what is left with it. -/
def items (order : Order) : List UInt8 → List Item
  | [] => []
  | [_] => [⟨none, 1⟩]
  | a :: b :: rest =>
    let u := unitOf order a b
    if isHigh u then
      match rest with
      | c :: d :: more =>
        let w := unitOf order c d
        if isLow w then ⟨some (join u w), 4⟩ :: items order more
        else ⟨none, 2⟩ :: items order (c :: d :: more)
      | _ => [⟨none, 2 + rest.length⟩]
    else if isLow u then ⟨none, 2⟩ :: items order rest
    else ⟨some (Char.ofNat u), 2⟩ :: items order rest

/-- `bytes.decode` of bytes in a known order. -/
def decode (order : Order) (bytes : List UInt8) : Option (List Char) := strict (items order bytes)

variable {order : Order} {u w : ℕ} {rest more : List UInt8}

theorem unitOf_bytesOf (h : u < 0x10000) :
    ∃ a b, bytesOf order u = [a, b] ∧ unitOf order a b = u := by
  have hlow : (UInt8.ofNat (u % 256)).toNat = u % 256 := by
    rw [UInt8.toNat_ofNat']
    omega
  have hhigh : (UInt8.ofNat (u / 256)).toNat = u / 256 := by
    rw [UInt8.toNat_ofNat']
    omega
  cases order with
  | little =>
    refine ⟨_, _, rfl, ?_⟩
    rw [unitOf, hlow, hhigh]
    omega
  | big =>
    refine ⟨_, _, rfl, ?_⟩
    rw [unitOf, hlow, hhigh]
    omega

/-- A unit that is a character. -/
theorem items_unit (h : u < 0x10000) (hhigh : isHigh u = false) (hlow : isLow u = false) :
    items order (bytesOf order u ++ rest) = ⟨some (Char.ofNat u), 2⟩ :: items order rest := by
  obtain ⟨a, b, hbytes, hunit⟩ := @unitOf_bytesOf order _ h
  rw [hbytes, List.cons_append, List.cons_append, List.nil_append, items.eq_def]
  simp only [hunit, hhigh, hlow, Bool.false_eq_true, if_false]

/-- Two halves that are a character. -/
theorem items_pair (hu : u < 0x10000) (hw : w < 0x10000) (hhigh : isHigh u = true)
    (hlow : isLow w = true) : items order (bytesOf order u ++ (bytesOf order w ++ rest)) =
      ⟨some (join u w), 4⟩ :: items order rest := by
  obtain ⟨a, b, hbytes, hunit⟩ := @unitOf_bytesOf order _ hu
  obtain ⟨c, d, hbytes', hunit'⟩ := @unitOf_bytesOf order _ hw
  rw [hbytes, hbytes']
  simp only [List.cons_append, List.nil_append]
  rw [items]
  simp only [hunit, hunit', hhigh, hlow, if_true]

/-- How many bytes a character is. -/
def charWidth (c : Char) : ℕ := if c.toNat < 0x10000 then 2 else 4

theorem items_encodeChar (c : Char) (rest : List UInt8) :
    items order (encodeChar order c ++ rest) = ⟨some c, charWidth c⟩ :: items order rest := by
  have hvalid : c.toNat < 0xD800 ∨ 0xDFFF < c.toNat ∧ c.toNat < 0x110000 := c.valid
  unfold encodeChar unitsOf charWidth
  split
  next hsmall =>
    have hhigh : isHigh c.toNat = false := by
      rw [isHigh, Bool.and_eq_false_iff, decide_eq_false_iff_not, decide_eq_false_iff_not]
      omega
    have hlow : isLow c.toNat = false := by
      rw [isLow, Bool.and_eq_false_iff, decide_eq_false_iff_not, decide_eq_false_iff_not]
      omega
    rw [List.flatMap_singleton, items_unit hsmall hhigh hlow, Char.ofNat_toNat]
  next hlarge =>
    set v := c.toNat - 0x10000 with hv
    have hvlt : v < 0x100000 := by omega
    have hhigh : isHigh (0xD800 + v / 0x400) = true := by
      rw [isHigh, Bool.and_eq_true, decide_eq_true_eq, decide_eq_true_eq]
      omega
    have hlow : isLow (0xDC00 + v % 0x400) = true := by
      rw [isLow, Bool.and_eq_true, decide_eq_true_eq, decide_eq_true_eq]
      omega
    have hjoin : join (0xD800 + v / 0x400) (0xDC00 + v % 0x400) = c := by
      have hsum : 0x10000 + (0xD800 + v / 0x400 - 0xD800) * 0x400 +
          (0xDC00 + v % 0x400 - 0xDC00) = c.toNat := by omega
      rw [join, hsum, Char.ofNat_toNat]
    rw [List.flatMap_cons, List.flatMap_singleton, List.append_assoc,
      items_pair (by omega) (by omega) hhigh hlow, hjoin]

/-- The bytes of a text are read as that text. -/
theorem items_encode (text : List Char) :
    items order (encode order text) = text.map fun c => ⟨some c, charWidth c⟩ := by
  induction text with
  | nil => rfl
  | cons c text ih =>
    have hencode : encode order (c :: text) = encodeChar order c ++ encode order text :=
      List.flatMap_cons
    rw [hencode, items_encodeChar, ih, List.map_cons]

@[simp]
theorem decode_encode (text : List Char) : decode order (encode order text) = some text := by
  rw [decode, items_encode, strict_map]

/-- Nothing is replaced in the bytes of a text. -/
theorem replace_encode (text : List Char) : replace (items order (encode order text)) = text := by
  rw [items_encode, replace, List.map_map]
  exact List.map_id text

/-- The first unit of a text is its first character, or the first half of it. -/
theorem encode_cons (c : Char) (text : List Char) : ∃ a b rest,
    encode order (c :: text) = a :: b :: rest ∧
      (unitOf order a b = c.toNat ∨ isHigh (unitOf order a b) = true) := by
  have hencode : encode order (c :: text) = encodeChar order c ++ encode order text :=
    List.flatMap_cons
  have hvalid : c.toNat < 0xD800 ∨ 0xDFFF < c.toNat ∧ c.toNat < 0x110000 := c.valid
  rw [hencode, encodeChar, unitsOf]
  split
  next hsmall =>
    obtain ⟨a, b, hbytes, hunit⟩ := @unitOf_bytesOf order _ hsmall
    refine ⟨a, b, encode order text, ?_, .inl hunit⟩
    rw [List.flatMap_singleton, hbytes]
    rfl
  next hlarge =>
    have hfirst : 0xD800 + (c.toNat - 0x10000) / 0x400 < 0x10000 := by omega
    obtain ⟨a, b, hbytes, hunit⟩ := @unitOf_bytesOf order _ hfirst
    refine ⟨a, b, bytesOf order (0xDC00 + (c.toNat - 0x10000) % 0x400) ++ encode order text,
      ?_, .inr ?_⟩
    · rw [List.flatMap_cons, List.flatMap_singleton, hbytes]
      rfl
    · rw [hunit, isHigh, Bool.and_eq_true, decide_eq_true_eq, decide_eq_true_eq]
      omega

/-- A character of ASCII has the byte zero. -/
theorem zero_mem_encode {text : List Char} {c : Char} (hc : c ∈ text) (hascii : c.toNat < 128) :
    0 ∈ encode order text := by
  refine List.mem_flatMap.mpr ⟨c, hc, ?_⟩
  have hhigh : UInt8.ofNat (c.toNat / 256) = 0 := by
    rw [Nat.div_eq_of_lt (by omega)]
    rfl
  rw [encodeChar, unitsOf, if_pos (by omega), List.flatMap_singleton]
  cases order with
  | little => simp [bytesOf, hhigh]
  | big => simp [bytesOf, hhigh]

end Utf16

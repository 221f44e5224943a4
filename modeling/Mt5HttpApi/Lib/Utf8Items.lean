import Mt5HttpApi.Lib.LineCodec
import Mt5HttpApi.Lib.Utf8

/-!
# Decoding UTF-8 with errors

What CPython's decoder makes of any bytes: a sequence that breaks off is one error with the bytes
that could begin a character, as is any other byte that begins none.

* `lineSafe`: the decoder is line safe.
* `replace_encode`: the bytes of a text are read as that text.
-/

namespace Utf8

open Codec

/-- What a first byte begins: the bits it has, the range of the second byte, and how many bytes
follow. -/
def lead (b : ℕ) : Option (ℕ × ℕ × ℕ × ℕ) :=
  if 0xC2 ≤ b ∧ b ≤ 0xDF then some (b - 0xC0, 0x80, 0xBF, 1)
  else if b = 0xE0 then some (0, 0xA0, 0xBF, 2)
  else if b = 0xED then some (0xD, 0x80, 0x9F, 2)
  else if 0xE1 ≤ b ∧ b ≤ 0xEF then some (b - 0xE0, 0x80, 0xBF, 2)
  else if b = 0xF0 then some (0, 0x90, 0xBF, 3)
  else if 0xF1 ≤ b ∧ b ≤ 0xF3 then some (b - 0xF0, 0x80, 0xBF, 3)
  else if b = 0xF4 then some (4, 0x80, 0x8F, 3)
  else none

/-- The bits of the further bytes, as far as they are in range. -/
def further (low high : ℕ) : ℕ → List UInt8 → List ℕ
  | 0, _ => []
  | _, [] => []
  | count + 1, b :: rest =>
    if low ≤ b.toNat ∧ b.toNat ≤ high then (b.toNat - 0x80) :: further 0x80 0xBF count rest else []

/-- The first item of bytes. A sequence that breaks off is one error. -/
def next (b : UInt8) (rest : List UInt8) : Item :=
  if b.toNat < 0x80 then ⟨some (Char.ofNat b.toNat), 1⟩
  else
    match lead b.toNat with
    | none => ⟨none, 1⟩
    | some (bits, low, high, count) =>
      let more := further low high count rest
      if more.length = count then
        ⟨some (Char.ofNat (more.foldl (fun value bits => 64 * value + bits) bits)), count + 1⟩
      else ⟨none, more.length + 1⟩

/-- The items of bytes, after the rest of the last one. -/
def itemsFrom : ℕ → List UInt8 → List Item
  | _, [] => []
  | skip + 1, _ :: rest => itemsFrom skip rest
  | 0, b :: rest => next b rest :: itemsFrom ((next b rest).width - 1) rest

/-- What is made of bytes. -/
def items (bytes : List UInt8) : List Item := itemsFrom 0 bytes

theorem itemsFrom_eq (skip : ℕ) (bytes : List UInt8) :
    itemsFrom skip bytes = items (bytes.drop skip) := by
  induction bytes generalizing skip with
  | nil => cases skip <;> rfl
  | cons b rest ih =>
    cases skip with
    | zero => rfl
    | succ skip => rw [itemsFrom, List.drop_succ_cons, ih]

theorem length_further_le (low high count : ℕ) (bytes : List UInt8) :
    (further low high count bytes).length ≤ count ∧
      (further low high count bytes).length ≤ bytes.length := by
  induction bytes generalizing low high count with
  | nil => cases count <;> simp [further]
  | cons b rest ih =>
    cases count with
    | zero => simp [further]
    | succ count =>
      have hmore := ih 0x80 0xBF count
      unfold further
      split
      · rw [List.length_cons, List.length_cons]
        omega
      · simp

/-- A line feed is no further byte. -/
theorem further_append {low : ℕ} (hlow : 0x80 ≤ low) (high count : ℕ) (bytes rest : List UInt8) :
    further low high count (bytes ++ [0x0A] ++ rest) = further low high count bytes := by
  induction bytes generalizing low high count with
  | nil =>
    cases count with
    | zero => rfl
    | succ count =>
      have hnot : ¬ (low ≤ (0x0A : UInt8).toNat ∧ (0x0A : UInt8).toNat ≤ high) := by
        have hline : (0x0A : UInt8).toNat = 10 := rfl
        omega
      rw [List.nil_append, List.singleton_append]
      exact if_neg hnot
  | cons b bytes ih =>
    cases count with
    | zero => rfl
    | succ count =>
      rw [List.cons_append, List.cons_append, further, further]
      split
      · rw [ih (by omega)]
      · rfl

/-- The range of a second byte leaves no value of one byte. -/
theorem lead_bounds {b bits low high count : ℕ} (h : lead b = some (bits, low, high, count)) :
    0x80 ≤ low ∧ 0 < count ∧ ∀ second, low ≤ second → 16 ≤ 64 * bits + (second - 0x80) := by
  unfold lead at h
  split_ifs at h
  all_goals
    simp only [Option.some.injEq, Prod.mk.injEq] at h
    exact ⟨by omega, by omega, fun second hsecond => by omega⟩

theorem le_foldl {bits : ℕ} (h : 16 ≤ bits) (more : List ℕ) :
    16 ≤ more.foldl (fun value bits => 64 * value + bits) bits := by
  induction more generalizing bits with
  | nil => exact h
  | cons d more ih => exact ih (show 16 ≤ 64 * bits + d by omega)

theorem stepwise : Stepwise items next where
  nil := rfl
  cons b rest := by
    show itemsFrom 0 (b :: rest) = _
    rw [itemsFrom, itemsFrom_eq]
  pos b rest := by
    unfold next
    split
    · exact Nat.one_pos
    · split
      · exact Nat.one_pos
      · dsimp only
        split <;> exact Nat.succ_pos _
  le b rest := by
    unfold next
    split
    · exact Nat.le_add_left _ _
    · split
      · exact Nat.le_add_left _ _
      next bits low high count _ =>
        have hle := length_further_le low high count rest
        dsimp only
        split
        · show count + 1 ≤ rest.length + 1
          omega
        · show (further low high count rest).length + 1 ≤ rest.length + 1
          omega

theorem next_newline (rest : List UInt8) : next 0x0A rest = ⟨some '\n', 1⟩ := rfl

/-- A line feed is made of its own byte, and no other item takes that. -/
theorem lineSafe : LineSafe [0x0A] next where
  aligned b rest := .inl ⟨_, (Nat.one_mul _).symm⟩
  before b bytes rest _ := by
    unfold next
    split
    · rfl
    · cases hlead : lead b.toNat with
      | none => rfl
      | some found =>
        obtain ⟨bits, low, high, count⟩ := found
        dsimp only
        rw [further_append (lead_bounds hlead).1]
  here b bytes h := by
    obtain ⟨rfl, -⟩ := List.cons_prefix_cons.mp h
    exact next_newline bytes
  found b bytes h := by
    unfold next at h
    split at h
    next =>
      have hb := eq_of_ofNat_newline (Option.some.inj h)
      obtain rfl : b = 0x0A := UInt8.toNat_inj.mp hb
      exact List.cons_prefix_cons.mpr ⟨rfl, List.nil_prefix⟩
    next =>
      split at h
      next => cases h
      next bits low high count hlead =>
        obtain ⟨-, hcount, hbounds⟩ := lead_bounds hlead
        dsimp only at h
        split at h
        next hall =>
          have hvalue := eq_of_ofNat_newline (Option.some.inj h)
          -- the second byte already makes the value too great
          obtain ⟨count, rfl⟩ : ∃ n, count = n + 1 := ⟨count - 1, by omega⟩
          cases bytes with
          | nil => simp [further] at hall
          | cons second rest =>
            unfold further at hall hvalue
            split at hall
            next hin =>
              rw [if_pos hin, List.foldl_cons] at hvalue
              have hle := le_foldl (hbounds _ hin.1) (further 0x80 0xBF count rest)
              omega
            next => simp at hall
        next => cases h

/-! ## The bytes of a text -/

/-- A further byte with some bits. -/
def furtherByte (bits : ℕ) : UInt8 := UInt8.ofNat (bits + 0x80)

theorem further_bytes {low high : ℕ} {digits : List ℕ} (hdigits : ∀ d ∈ digits, d < 64)
    (hfirst : ∀ d ∈ digits.head?, low ≤ d + 0x80 ∧ d + 0x80 ≤ high) (rest : List UInt8) :
    further low high digits.length (digits.map furtherByte ++ rest) = digits := by
  induction digits generalizing low high with
  | nil => cases rest <;> rfl
  | cons d digits ih =>
    obtain ⟨hd, hmore⟩ := List.forall_mem_cons.mp hdigits
    have hbyte : (furtherByte d).toNat = d + 0x80 := by
      unfold furtherByte
      rw [UInt8.toNat_ofNat']
      omega
    have hrange : low ≤ d + 0x80 ∧ d + 0x80 ≤ high := hfirst d rfl
    rw [List.length_cons, List.map_cons, List.cons_append, further, hbyte, if_pos hrange,
      Nat.add_sub_cancel]
    refine congrArg (d :: ·) (ih hmore fun other hother => ?_)
    have hlt := hmore other (List.mem_of_mem_head? hother)
    omega

/-- A sequence is read as the number of its bits. -/
theorem next_bytes {first bits low high : ℕ} {digits : List ℕ} (hsmall : first < 256)
    (hlead : lead first = some (bits, low, high, digits.length))
    (hdigits : ∀ d ∈ digits, d < 64)
    (hfirst : ∀ d ∈ digits.head?, low ≤ d + 0x80 ∧ d + 0x80 ≤ high) (rest : List UInt8) :
    next (UInt8.ofNat first) (digits.map furtherByte ++ rest) =
      ⟨some (Char.ofNat (digits.foldl (fun value bits => 64 * value + bits) bits)),
        digits.length + 1⟩ := by
  have hbyte : (UInt8.ofNat first).toNat = first := by
    rw [UInt8.toNat_ofNat']
    omega
  have hlarge : ¬ first < 0x80 := by
    intro hlt
    unfold lead at hlead
    simp only [show ¬ (0xC2 ≤ first ∧ first ≤ 0xDF) by omega, show first ≠ 0xE0 by omega,
      show first ≠ 0xED by omega, show ¬ (0xE1 ≤ first ∧ first ≤ 0xEF) by omega,
      show first ≠ 0xF0 by omega, show ¬ (0xF1 ≤ first ∧ first ≤ 0xF3) by omega,
      show first ≠ 0xF4 by omega, if_false] at hlead
    cases hlead
  unfold next
  rw [hbyte, if_neg hlarge, hlead]
  dsimp only
  rw [further_bytes hdigits hfirst, if_pos rfl]

/-- The first byte of two. -/
theorem lead_two {q : ℕ} (h : 2 ≤ q ∧ q < 32) : lead (q + 0xC0) = some (q, 0x80, 0xBF, 1) := by
  unfold lead
  rw [if_pos (by omega), Nat.add_sub_cancel]

/-- The first byte of three, with the range of the second. -/
theorem lead_three {q d : ℕ} (hq : q < 16) (hd : d < 64) (hshort : q = 0 → 32 ≤ d)
    (hsurrogate : q = 13 → d < 32) : ∃ low high, lead (q + 0xE0) = some (q, low, high, 2) ∧
      low ≤ d + 0x80 ∧ d + 0x80 ≤ high := by
  unfold lead
  rw [if_neg (by omega)]
  by_cases hzero : q = 0
  · rw [if_pos (by omega)]
    exact ⟨_, _, by rw [hzero], by omega⟩
  · rw [if_neg (by omega)]
    by_cases hthirteen : q = 13
    · rw [if_pos (by omega)]
      exact ⟨_, _, by rw [hthirteen], by omega⟩
    · rw [if_neg (by omega), if_pos (by omega)]
      exact ⟨_, _, by rw [Nat.add_sub_cancel], by omega⟩

/-- The first byte of four. -/
theorem lead_four {q d : ℕ} (hq : q < 5) (hd : d < 64) (hshort : q = 0 → 16 ≤ d)
    (hlarge : q = 4 → d < 16) : ∃ low high, lead (q + 0xF0) = some (q, low, high, 3) ∧
      low ≤ d + 0x80 ∧ d + 0x80 ≤ high := by
  unfold lead
  rw [if_neg (by omega), if_neg (by omega), if_neg (by omega), if_neg (by omega)]
  by_cases hzero : q = 0
  · rw [if_pos (by omega)]
    exact ⟨_, _, by rw [hzero], by omega⟩
  · rw [if_neg (by omega)]
    by_cases hfour : q = 4
    · rw [if_neg (by omega), if_pos (by omega)]
      exact ⟨_, _, by rw [hfour], by omega⟩
    · rw [if_pos (by omega)]
      exact ⟨_, _, by rw [Nat.add_sub_cancel], by omega⟩

/-- The bytes of a character are read as it. -/
theorem next_encodeChar (c : Char) (rest : List UInt8) : ∃ b more,
    String.utf8EncodeChar c = b :: more ∧ next b (more ++ rest) = ⟨some c, more.length + 1⟩ := by
  have hvalid : c.toNat < 0xD800 ∨ 0xDFFF < c.toNat ∧ c.toNat < 0x110000 := c.valid
  have hchar : Char.ofNat c.toNat = c := Char.ofNat_toNat c
  have hval : c.val.toNat = c.toNat := rfl
  unfold String.utf8EncodeChar
  dsimp only
  rw [hval]
  generalize c.toNat = v at hvalid hchar
  -- by the number of bytes
  split_ifs with hone htwo hthree
  · refine ⟨_, _, rfl, ?_⟩
    have hbyte : (UInt8.ofNat v).toNat = v := by
      rw [UInt8.toNat_ofNat']
      omega
    unfold next
    rw [hbyte, if_pos (by omega), hchar]
    rfl
  · have hq : v / 64 % 32 = v / 64 := by omega
    rw [hq]
    have hnext := @next_bytes (v / 64 + 0xC0) _ _ _ [v % 64] (by omega) (lead_two (by omega))
      (by simp; omega) (by simp; omega) rest
    refine ⟨_, _, rfl, hnext.trans ?_⟩
    rw [List.foldl_cons, List.foldl_nil, Nat.div_add_mod, hchar]
    rfl
  · have hq : v / 4096 % 16 = v / 4096 := by omega
    obtain ⟨low, high, hlead, hrange⟩ := @lead_three (v / 4096) (v / 64 % 64) (by omega) (by omega)
      (by omega) (by omega)
    rw [hq]
    have hnext := @next_bytes (v / 4096 + 0xE0) _ _ _ [v / 64 % 64, v % 64] (by omega) hlead
      (by simp; omega) (by simpa using hrange) rest
    refine ⟨_, _, rfl, hnext.trans ?_⟩
    have hvalue : 64 * (64 * (v / 4096) + v / 64 % 64) + v % 64 = v := by omega
    rw [List.foldl_cons, List.foldl_cons, List.foldl_nil, hvalue, hchar]
    rfl
  · have hq : v / 262144 % 8 = v / 262144 := by omega
    obtain ⟨low, high, hlead, hrange⟩ := @lead_four (v / 262144) (v / 4096 % 64) (by omega)
      (by omega) (by omega) (by omega)
    rw [hq]
    have hnext := @next_bytes (v / 262144 + 0xF0) _ _ _ [v / 4096 % 64, v / 64 % 64, v % 64]
      (by omega) hlead (by simp; omega) (by simpa using hrange) rest
    refine ⟨_, _, rfl, hnext.trans ?_⟩
    have hvalue : 64 * (64 * (64 * (v / 262144) + v / 4096 % 64) + v / 64 % 64) + v % 64 = v := by
      omega
    rw [List.foldl_cons, List.foldl_cons, List.foldl_cons, List.foldl_nil, hvalue, hchar]
    rfl

/-- The bytes of a text are read as it. -/
theorem replace_encode (text : List Char) : replace (items (encode text)) = text := by
  induction text with
  | nil => rfl
  | cons c text ih =>
    obtain ⟨b, more, hbytes, hnext⟩ := next_encodeChar c (encode text)
    have hencode : encode (c :: text) = b :: (more ++ encode text) := by
      unfold encode
      rw [List.flatMap_cons, hbytes]
      rfl
    rw [hencode, stepwise.cons, hnext, Nat.add_sub_cancel, List.drop_left]
    exact congrArg (c :: ·) ih

end Utf8

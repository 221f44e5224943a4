import Mt5HttpApi.ChartCtl.SetParse
import Mt5HttpApi.Lib.Utf16
import Mt5HttpApi.Lib.Utf8

/-!
# The encoding of a set file

`_decode` and `parse_set_bytes` of `mt5api/chartctl/setparse.py`: the encoding is told by a byte
order mark, then by a zero byte, and else tried. `parseSetBytes_encodings` says that the five
encodings of a text are read as that text.
-/

namespace ChartCtl

/-- The byte order mark of UTF-8. -/
def utf8Mark : List UInt8 := [0xEF, 0xBB, 0xBF]

/-- `data.decode("utf-8-sig")`. -/
def decodeUtf8Sig (data : List UInt8) : Option (List Char) :=
  Utf8.decode (if data.take 3 = utf8Mark then data.drop 3 else data)

/-- `data.decode("latin-1")`. -/
def decodeLatin1 (data : List UInt8) : List Char := data.map fun b => Char.ofNat b.toNat

/-- The encodings of eight bits, in the order they are tried. -/
def decodeEightBit (data : List UInt8) : List Char :=
  match decodeUtf8Sig data with
  | some text => text
  | none =>
    match Utf8.decode data with
    | some text => text
    | none => decodeLatin1 data

/-- `_decode`; `none` when it raises. -/
def decodeSetBytes (data : List UInt8) : Option (List Char) :=
  if data.take 2 = [0xFF, 0xFE] then Utf16.decode .little (data.drop 2)
  else if data.take 2 = [0xFE, 0xFF] then Utf16.decode .big (data.drop 2)
  else if 0 ∈ data then
    match Utf16.decode .little data with
    | some text => some text
    | none => some (decodeEightBit data)
  else some (decodeEightBit data)

/-- `parse_set_bytes`. -/
def parseSetBytes (data : List UInt8) : Option (List SetInput) :=
  (decodeSetBytes data).map parseSetText

/-- The encodings of a text: UTF-16 in both orders with a mark, little-endian UTF-16 without one,
and UTF-8 with a mark and without. -/
def encodings (text : List Char) : List (List UInt8) :=
  [[0xFF, 0xFE] ++ Utf16.encode .little text, [0xFE, 0xFF] ++ Utf16.encode .big text,
    Utf16.encode .little text, Utf8.encode text, utf8Mark ++ Utf8.encode text]

variable {text : List Char} {data : List UInt8}

/-- A text that does not begin as a byte order mark does. -/
def NoMark (text : List Char) : Prop := ∀ c ∈ text.head?, c ≠ '\uFEFF' ∧ c ≠ '\uFFFE'

theorem decodeSetBytes_little (hmark : NoMark text) (hascii : ∃ c ∈ text, c.toNat < 128) :
    decodeSetBytes (Utf16.encode .little text) = some text := by
  obtain ⟨d, hd, hdascii⟩ := hascii
  have hzero : 0 ∈ Utf16.encode .little text := Utf16.zero_mem_encode hd hdascii
  cases text with
  | nil => cases hd
  | cons c text =>
    obtain ⟨hfeff, hfffe⟩ := hmark c rfl
    obtain ⟨a, b, rest, hbytes, hunit⟩ := @Utf16.encode_cons .little c text
    -- a mark is not the first half of a character
    have hnot : ∀ a' b' : UInt8, ∀ mark : Char, c ≠ mark → Utf16.isHigh mark.toNat = false →
        Utf16.unitOf .little a' b' = mark.toNat → (a :: b :: rest).take 2 ≠ [a', b'] := by
      rintro a' b' mark hne hhigh hmark htake
      obtain ⟨ha, hmore⟩ := List.cons.inj htake
      obtain ⟨hb, -⟩ := List.cons.inj hmore
      rw [ha, hb, hmark] at hunit
      rcases hunit with hunit | hunit
      · exact hne (Char.toNat_inj.mp hunit.symm)
      · exact absurd hunit (by simp [hhigh])
    have hff := hnot 0xFF 0xFE '\uFEFF' hfeff (by decide) (by decide)
    have hfe := hnot 0xFE 0xFF '\uFFFE' hfffe (by decide) (by decide)
    rw [← hbytes] at hff hfe
    rw [decodeSetBytes, if_neg hff, if_neg hfe, if_pos hzero, Utf16.decode_encode]

/-- The bytes of a mark are no other character. -/
theorem head_of_utf8Mark {c : Char} (h : utf8Mark <+: Utf8.encode (c :: text)) : c = '\uFEFF' := by
  have hencode : Utf8.encode (c :: text) = String.utf8EncodeChar c ++ Utf8.encode text :=
    List.flatMap_cons
  have hvalid : c.toNat < 0x110000 := by
    rcases c.valid with hc | hc
    · exact Nat.lt_trans hc (by decide)
    · exact hc.2
  obtain ⟨rest, hrest⟩ := h
  rw [hencode, utf8Mark, String.utf8EncodeChar] at hrest
  -- the first byte says how many there are
  split_ifs at hrest with h₁ h₂ h₃
  all_goals
    simp only [List.cons_append, List.nil_append, List.cons.injEq, ← UInt8.toNat_inj,
      UInt8.toNat_ofNat', UInt8.reduceToNat] at hrest
  · omega
  · omega
  · apply Char.toNat_inj.mp
    show c.val.toNat = 0xFEFF
    omega
  · omega

theorem ff_notMem_encode (text : List Char) : 0xFF ∉ Utf8.encode text := fun h => by
  obtain ⟨c, -, hc⟩ := List.mem_flatMap.mp h
  exact Utf8.ff_notMem_utf8EncodeChar c hc

/-- What has neither the byte 255 nor the byte zero is decoded as eight bits. -/
theorem decodeSetBytes_eightBit (hff : 0xFF ∉ data) (hzero : 0 ∉ data) :
    decodeSetBytes data = some (decodeEightBit data) := by
  have htake : ∀ mark : List UInt8, 0xFF ∈ mark → data.take 2 ≠ mark := by
    rintro mark hmem rfl
    exact hff (List.mem_of_mem_take hmem)
  rw [decodeSetBytes, if_neg (htake _ (by decide)), if_neg (htake _ (by decide)), if_neg hzero]

theorem decodeEightBit_encode (hmark : NoMark text) :
    decodeEightBit (Utf8.encode text) = text := by
  have htake : (Utf8.encode text).take 3 ≠ utf8Mark := by
    intro htake
    cases text with
    | nil => cases htake
    | cons c text =>
      have hpre : utf8Mark <+: Utf8.encode (c :: text) := htake ▸ List.take_prefix _ _
      exact (hmark c rfl).1 (head_of_utf8Mark hpre)
  rw [decodeEightBit, decodeUtf8Sig, if_neg htake, Utf8.decode_encode]

theorem decodeEightBit_mark (text : List Char) :
    decodeEightBit (utf8Mark ++ Utf8.encode text) = text := by
  have htake : (utf8Mark ++ Utf8.encode text).take 3 = utf8Mark := rfl
  have hdrop : (utf8Mark ++ Utf8.encode text).drop 3 = Utf8.encode text := rfl
  rw [decodeEightBit, decodeUtf8Sig, if_pos htake, hdrop, Utf8.decode_encode]

/-- The encodings of a text are read as that text. -/
theorem decodeSetBytes_encodings (hnul : '\x00' ∉ text) (hascii : ∃ c ∈ text, c.toNat < 128)
    (hmark : NoMark text) (hdata : data ∈ encodings text) : decodeSetBytes data = some text := by
  have hff := ff_notMem_encode text
  have hzero : 0 ∉ Utf8.encode text := fun h => hnul (Utf8.zero_mem_encode h)
  simp only [encodings, List.mem_cons, List.not_mem_nil, or_false] at hdata
  rcases hdata with rfl | rfl | rfl | rfl | rfl
  · -- UTF-16 with a mark, little-endian
    have htake : ([0xFF, 0xFE] ++ Utf16.encode .little text).take 2 = [0xFF, 0xFE] := rfl
    rw [decodeSetBytes, if_pos htake]
    exact Utf16.decode_encode text
  · -- UTF-16 with a mark, big-endian
    have htake : ([0xFE, 0xFF] ++ Utf16.encode .big text).take 2 = [0xFE, 0xFF] := rfl
    rw [decodeSetBytes, htake, if_neg (by decide), if_pos rfl]
    exact Utf16.decode_encode text
  · exact decodeSetBytes_little hmark hascii
  · rw [decodeSetBytes_eightBit hff hzero, decodeEightBit_encode hmark]
  · have hmarkff : 0xFF ∉ utf8Mark ++ Utf8.encode text := by
      rw [List.mem_append, not_or]
      exact ⟨by decide, hff⟩
    have hmarkzero : 0 ∉ utf8Mark ++ Utf8.encode text := by
      rw [List.mem_append, not_or]
      exact ⟨by decide, hzero⟩
    rw [decodeSetBytes_eightBit hmarkff hmarkzero, decodeEightBit_mark]

/-- The encoding of a set file does not matter. -/
theorem parseSetBytes_encodings (text : List Char) (hnul : '\x00' ∉ text)
    (hascii : ∃ c ∈ text, c.toNat < 128) (hmark : NoMark text) :
    ∀ data ∈ encodings text, parseSetBytes data = some (parseSetText text) := by
  intro data hdata
  rw [parseSetBytes, decodeSetBytes_encodings hnul hascii hmark hdata]
  rfl

theorem parseSetBytes_encodings_lots :
    (encodings "Lots=0.1".toList).map parseSetBytes =
      List.replicate 5 (some (parseSetText "Lots=0.1".toList)) := by
  have h := parseSetBytes_encodings "Lots=0.1".toList (by decide) ⟨'L', by decide⟩
    (by simp [NoMark])
  rw [List.eq_replicate_iff, List.length_map, List.forall_mem_map]
  exact ⟨rfl, h⟩

end ChartCtl

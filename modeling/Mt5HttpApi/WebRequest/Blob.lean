import Mathlib.Algebra.GroupWithZero.Nat
import Mt5HttpApi.Lib.Hex
import Mt5HttpApi.Lib.Segments
import Mt5HttpApi.Lib.Utf16
import Mt5HttpApi.Lib.Utf8
import Mt5HttpApi.WebRequest.Patch

/-!
# The blob of the allowlist

`scripts/webrequest_allowlist_codec.py`: the list of URLs as MT5 stores it, a text with a checksum
in front of it under a cipher. The cipher, the order of the bytes and the digits are undone one by
one, so a blob is decoded to what it was made of.

The checksum that is written covers as many units as the text has characters. That is the whole of
it as long as every character is one unit (`codes_iff`), and a blob comes out as it went in under
the same condition (`encodeUrls_decodeBlob_iff`).
-/

namespace WebRequest.Blob

open Text Utf8

/-! ### The cipher -/

/-- `KEY` -/
def key : List UInt8 :=
  [0xe2, 0x30, 0x54, 0xb4, 0xde, 0xe5, 0xcc, 0x04, 0x9c, 0x70, 0x8f, 0x3c, 0x6b, 0x87, 0x78, 0xf0]

/-- `_swap16` -/
def swap16 : List UInt8 → List UInt8
  | a :: b :: rest => b :: a :: swap16 rest
  | rest => rest

/-- `_decode_cfb` from an index on, after a byte of the ciphertext. -/
def decodeCfbFrom : ℕ → UInt8 → List UInt8 → List UInt8
  | _, _, [] => []
  | i, prev, c :: ct => ((prev + key.getD (i % 16) 0) ^^^ c) :: decodeCfbFrom (i + 1) c ct

/-- `_encode_cfb` from an index on, after a byte of the ciphertext. -/
def encodeCfbFrom : ℕ → UInt8 → List UInt8 → List UInt8
  | _, _, [] => []
  | i, prev, p :: pt =>
    let c := (prev + key.getD (i % 16) 0) ^^^ p
    c :: encodeCfbFrom (i + 1) c pt

/-- `_decode_cfb` -/
def decodeCfb (ct : List UInt8) : List UInt8 := decodeCfbFrom 0 0 ct

/-- `_encode_cfb` -/
def encodeCfb (pt : List UInt8) : List UInt8 := encodeCfbFrom 0 0 pt

theorem swap16_swap16 (bytes : List UInt8) : swap16 (swap16 bytes) = bytes := by
  induction bytes using swap16.induct with
  | case1 a b rest ih => rw [swap16, swap16, ih]
  | case2 rest h =>
    have hsame : swap16 rest = rest := by
      cases rest with
      | nil => rfl
      | cons a rest =>
        cases rest with
        | nil => rfl
        | cons b rest => exact absurd rfl (h a b rest)
    rw [hsame, hsame]

theorem decodeCfbFrom_encodeCfbFrom (i : ℕ) (prev : UInt8) (pt : List UInt8) :
    decodeCfbFrom i prev (encodeCfbFrom i prev pt) = pt := by
  induction pt generalizing i prev with
  | nil => rfl
  | cons p pt ih =>
    rw [encodeCfbFrom, decodeCfbFrom, ih, ← UInt8.xor_assoc, UInt8.xor_self, UInt8.zero_xor]

theorem encodeCfbFrom_decodeCfbFrom (i : ℕ) (prev : UInt8) (ct : List UInt8) :
    encodeCfbFrom i prev (decodeCfbFrom i prev ct) = ct := by
  induction ct generalizing i prev with
  | nil => rfl
  | cons c ct ih =>
    rw [decodeCfbFrom, encodeCfbFrom, ← UInt8.xor_assoc, UInt8.xor_self, UInt8.zero_xor, ih]

/-! ### The text -/

/-- The UTF-16 code units of a text. -/
def units (text : List Char) : List ℕ := text.flatMap Utf16.unitsOf

/-- Bytes in units of two. -/
def pairs : List UInt8 → List ℕ
  | a :: b :: rest => Utf16.unitOf .little a b :: pairs rest
  | _ => []

/-- `_checksum`: as many units as there are characters. -/
def checksum (s : List Char) : ℕ :=
  ((pairs (Utf16.encode .little s)).take s.length).sum % 0x10000

/-- `encode("utf-16-le")` of a Python string: a surrogate is an error. -/
def scalars : List CodePoint → Option (List Char)
  | [] => some []
  | .scalar c :: text => (scalars text).map (c :: ·)
  | .surrogate _ :: _ => none

/-- `";".join(urls)` -/
def joinUrls (urls : List (List CodePoint)) : List CodePoint :=
  [CodePoint.scalar ';'].intercalate urls

/-- The plaintext with a checksum. -/
def plaintext (sum : ℕ) (body : List Char) : List UInt8 :=
  Utf16.bytesOf .little 1 ++ Utf16.bytesOf .little sum ++ Utf16.encode .little body

/-- `encode_urls`, or `none` where it raises `UnicodeEncodeError`. -/
def encodeUrls (urls : List (List CodePoint)) : Option (List Char) :=
  (scalars (joinUrls urls)).map fun joined =>
    Hex.hex (swap16 (encodeCfb (plaintext (checksum joined) joined)))

/-- The plaintext of a blob. -/
def plaintextOf (blob : List Char) : Option (List UInt8) :=
  (Hex.fromHex (strip blob)).map fun bytes => decodeCfb (swap16 bytes)

/-- `decode_blob`, or `none` where it raises `ValueError`. -/
def decodeBlob (blob : List Char) : Option (List (List CodePoint)) :=
  (plaintextOf blob).bind fun pt =>
    (Utf16.decode .little (pt.drop 4)).map fun body =>
      if body = [] then [] else (body.splitOn ';').map (List.map .scalar)

/-! ### The URLs -/

/-- `isspace` of a character of a Python string. -/
def isSpacePoint : CodePoint → Bool
  | .scalar c => isSpace c
  | .surrogate _ => false

/-- `url.strip()` -/
def stripPoints (url : List CodePoint) : List CodePoint :=
  (url.dropWhile isSpacePoint).rdropWhile isSpacePoint

/-- `_acceptable`: its rules do not tell a surrogate from a `?`. -/
def acceptablePoints (url : List CodePoint) : Bool := acceptable (url.map CodePoint.replaced)

/-- `clean_urls` -/
def cleanPoints (urls : List (List CodePoint)) : List (List CodePoint) :=
  urls.foldl (fun out url =>
    if acceptablePoints (stripPoints url) && !out.contains (stripPoints url) then
      out ++ [stripPoints url]
    else out) []

/-! ### What is asked of the codec -/

/-- The checksum field of a blob. -/
def checksumOf (blob : List Char) : Option ℕ :=
  (plaintextOf blob).map fun pt => Utf16.unitOf .little (pt.getD 2 0) (pt.getD 3 0)

/-- URLs are encoded, the blob is decoded to them, and its checksum is that of the joined text. -/
def Codes (urls : List (List CodePoint)) : Prop :=
  ∃ joined blob, scalars (joinUrls urls) = some joined ∧ encodeUrls urls = some blob ∧
    decodeBlob blob = some urls ∧ checksumOf blob = some ((units joined).sum % 0x10000)

/-- A blob in the format of MT5: the digits of its bytes, and under the cipher a plaintext with the
checksum of all units of the text. -/
def WellFormed (blob text : List Char) : Prop :=
  ∃ bytes, blob = Hex.hex bytes ∧
    decodeCfb (swap16 bytes) = plaintext ((units text).sum % 0x10000) text

/-- The units that `_checksum` leaves out do not matter. There are as many as the text has
characters of two units. -/
def Whole (text : List Char) : Prop := ((units text).drop text.length).sum % 0x10000 = 0

instance (text : List Char) : Decidable (Whole text) :=
  inferInstanceAs (Decidable (((units text).drop text.length).sum % 0x10000 = 0))

/-- The joined text, with something in the place of every surrogate. -/
def textOf (urls : List (List CodePoint)) : List Char := (joinUrls urls).map CodePoint.replaced

variable {text body : List Char} {urls : List (List CodePoint)} {url : List CodePoint}

/-! ### Units and bytes -/

theorem units_lt {u : ℕ} (h : u ∈ units text) : u < 0x10000 := by
  obtain ⟨c, -, hu⟩ := List.mem_flatMap.mp h
  have hvalid : c.toNat < 0xD800 ∨ 0xDFFF < c.toNat ∧ c.toNat < 0x110000 := c.valid
  rw [Utf16.unitsOf] at hu
  split at hu
  next hsmall =>
    rw [List.mem_singleton.mp hu]
    exact hsmall
  next =>
    rcases List.mem_cons.mp hu with rfl | hu
    · omega
    · rw [List.mem_singleton.mp hu]
      omega

theorem encode_eq_units (text : List Char) :
    Utf16.encode .little text = (units text).flatMap (Utf16.bytesOf .little) := by
  rw [units, List.flatMap_assoc]
  rfl

/-- The bytes of units are read as them. -/
theorem pairs_flatMap_bytesOf {us : List ℕ} (h : ∀ u ∈ us, u < 0x10000) :
    pairs (us.flatMap (Utf16.bytesOf .little)) = us := by
  induction us with
  | nil => rfl
  | cons u us ih =>
    obtain ⟨a, b, hbytes, hunit⟩ :=
      @Utf16.unitOf_bytesOf .little u (h u List.mem_cons_self)
    rw [List.flatMap_cons, hbytes, List.cons_append, List.cons_append, List.nil_append, pairs,
      hunit, ih fun v hv => h v (List.mem_cons_of_mem u hv)]

theorem checksum_eq (text : List Char) :
    checksum text = ((units text).take text.length).sum % 0x10000 := by
  rw [checksum, encode_eq_units, pairs_flatMap_bytesOf fun u hu => units_lt hu]

/-- The checksum is that of all units exactly when those that are left out do not matter. -/
theorem checksum_eq_iff : checksum text = (units text).sum % 0x10000 ↔ Whole text := by
  have hsum : (units text).sum =
      ((units text).take text.length).sum + ((units text).drop text.length).sum := by
    rw [← List.sum_append, List.take_append_drop]
  rw [checksum_eq, Whole, hsum]
  omega

/-- Where every character is one unit, no unit is left out. -/
theorem whole_of_forall_lt (h : ∀ c ∈ text, c.toNat < 0x10000) : Whole text := by
  have hunits : units text = text.map Char.toNat := by
    rw [units, List.map_eq_flatMap]
    apply List.flatMap_congr
    intro c hc
    rw [Utf16.unitsOf, if_pos (h c hc)]
  rw [Whole, hunits, List.drop_of_length_le (by rw [List.length_map])]
  rfl

/-- A field of the plaintext is read as it was written. -/
theorem unitOf_plaintext {sum : ℕ} (h : sum < 0x10000) (body : List Char) :
    Utf16.unitOf .little ((plaintext sum body).getD 2 0) ((plaintext sum body).getD 3 0) =
      sum := by
  obtain ⟨a, b, hbytes, hunit⟩ := @Utf16.unitOf_bytesOf .little sum h
  have hone : Utf16.bytesOf .little 1 = [1, 0] := rfl
  rw [plaintext, hbytes, hone]
  exact hunit

theorem drop_plaintext (sum : ℕ) (body : List Char) :
    (plaintext sum body).drop 4 = Utf16.encode .little body := rfl

/-! ### Under the cipher -/

/-- The blob of a plaintext. -/
def blobOf (pt : List UInt8) : List Char := Hex.hex (swap16 (encodeCfb pt))

theorem blobOf_injective : Function.Injective blobOf := by
  intro a b h
  have hcfb := congrArg swap16 (Hex.hex_injective h)
  rw [swap16_swap16, swap16_swap16] at hcfb
  rw [← decodeCfbFrom_encodeCfbFrom 0 0 a, ← decodeCfbFrom_encodeCfbFrom 0 0 b]
  exact congrArg (decodeCfbFrom 0 0) hcfb

theorem isSpace_of_mem_hex {c : Char} {bytes : List UInt8} (h : c ∈ Hex.hex bytes) :
    isSpace c = false := by
  have hdigit : ∀ n < 16, isSpace (Hex.digit n) = false := by decide
  obtain ⟨n, hn, rfl⟩ := Hex.exists_digit_of_mem h
  exact hdigit n hn

theorem strip_hex (bytes : List UInt8) : strip (Hex.hex bytes) = Hex.hex bytes :=
  strip_of_forall fun _ hc => isSpace_of_mem_hex hc

theorem plaintextOf_blobOf (pt : List UInt8) : plaintextOf (blobOf pt) = some pt := by
  rw [plaintextOf, blobOf, strip_hex, Hex.fromHex_hex, Option.map_some, swap16_swap16]
  exact congrArg some (decodeCfbFrom_encodeCfbFrom 0 0 pt)

/-- A blob in the format is that of its plaintext. -/
theorem WellFormed.eq_blobOf {blob : List Char} (h : WellFormed blob text) :
    blob = blobOf (plaintext ((units text).sum % 0x10000) text) := by
  obtain ⟨bytes, rfl, hbytes⟩ := h
  rw [blobOf, ← hbytes]
  show _ = Hex.hex (swap16 (encodeCfbFrom 0 0 (decodeCfbFrom 0 0 (swap16 bytes))))
  rw [encodeCfbFrom_decodeCfbFrom, swap16_swap16]

/-- The URLs of a text. -/
def splitUrls (body : List Char) : List (List CodePoint) :=
  if body = [] then [] else (body.splitOn ';').map (List.map .scalar)

theorem decodeBlob_blobOf (sum : ℕ) (body : List Char) :
    decodeBlob (blobOf (plaintext sum body)) = some (splitUrls body) := by
  rw [decodeBlob, plaintextOf_blobOf, Option.bind_some, drop_plaintext, Utf16.decode_encode]
  rfl

/-! ### Joined texts -/

theorem scalars_map (text : List Char) : scalars (text.map .scalar) = some text := by
  induction text with
  | nil => rfl
  | cons c text ih => rw [List.map_cons, scalars, ih, Option.map_some]

/-- A text without surrogates is encoded, and no other. -/
theorem scalars_eq_some_iff {points : List CodePoint} :
    scalars points = some text ↔ points = text.map .scalar := by
  constructor
  · intro h
    induction points generalizing text with
    | nil =>
      obtain rfl := Option.some.inj h
      rfl
    | cons x points ih =>
      cases x with
      | scalar c =>
        obtain ⟨rest, hrest, rfl⟩ := Option.map_eq_some_iff.mp h
        rw [List.map_cons, ih hrest]
      | surrogate n => cases h
  · rintro rfl
    exact scalars_map text

/-- Joining what was split. -/
theorem joinUrls_splitUrls (body : List Char) :
    joinUrls (splitUrls body) = body.map .scalar := by
  rw [joinUrls, splitUrls]
  split
  next h =>
    rw [h]
    rfl
  next =>
    rw [← Segments.map_intercalate CodePoint.scalar, List.intercalate_splitOn]

/-- Splitting what was joined, if no URL is empty or has the separator. -/
theorem splitUrls_intercalate {texts : List Url} (hsep : ∀ t ∈ texts, ';' ∉ t)
    (hne : ∀ t ∈ texts, t ≠ []) :
    splitUrls ([';'].intercalate texts) = texts.map (List.map .scalar) := by
  cases texts with
  | nil => rfl
  | cons first more =>
    have hjoined : [';'].intercalate (first :: more) ≠ [] := by
      obtain ⟨c, hc⟩ := List.exists_mem_of_ne_nil first (hne first List.mem_cons_self)
      exact List.ne_nil_of_mem (Segments.mem_intercalate_of_mem List.mem_cons_self hc)
    rw [splitUrls, if_neg hjoined, List.splitOn_intercalate _ hsep (List.cons_ne_nil _ _)]

/-! ### Clean lists -/

theorem acceptable_of_mem_cleanPoints {out : List (List CodePoint)}
    (hout : ∀ u ∈ out, acceptablePoints u = true) :
    ∀ u ∈ urls.foldl (fun out url =>
      if acceptablePoints (stripPoints url) && !out.contains (stripPoints url) then
        out ++ [stripPoints url]
      else out) out, acceptablePoints u = true := by
  induction urls generalizing out with
  | nil => exact hout
  | cons url urls ih =>
    rw [List.foldl_cons]
    apply ih
    split
    next hnew =>
      rw [Bool.and_eq_true] at hnew
      intro u hu
      rcases List.mem_append.mp hu with hu | hu
      · exact hout u hu
      · rw [List.mem_singleton.mp hu]
        exact hnew.1
    next => exact hout

/-- An acceptable URL is not empty and does not have the separator. -/
theorem of_acceptable {url : Url} (h : acceptable url = true) : url ≠ [] ∧ ';' ∉ url := by
  rw [acceptable] at h
  simp only [Bool.and_eq_true, Bool.not_eq_true', List.isEmpty_eq_false_iff, List.contains_eq_mem,
    decide_eq_false_iff_not] at h
  exact ⟨h.1.1.1.1, h.1.1.2⟩

/-- So is a clean one. -/
theorem of_clean (hclean : cleanPoints urls = urls) (hurl : url ∈ urls) :
    url ≠ [] ∧ CodePoint.scalar ';' ∉ url := by
  have hacceptable : acceptablePoints url = true := by
    apply @acceptable_of_mem_cleanPoints urls [] (fun u hu => by cases hu)
    change url ∈ cleanPoints urls
    rw [hclean]
    exact hurl
  obtain ⟨hne, hsep⟩ := of_acceptable hacceptable
  refine ⟨fun h => ?_, fun h => ?_⟩
  · rw [h] at hne
    exact hne rfl
  · exact hsep (List.mem_map_of_mem h)

/-- URLs without surrogates, as texts. -/
theorem exists_texts (h : ∀ url ∈ urls, ∀ x ∈ url, ∃ c, x = CodePoint.scalar c) :
    ∃ texts : List Url, urls = texts.map (List.map .scalar) := by
  refine ⟨urls.map (List.map CodePoint.replaced), ?_⟩
  rw [List.map_map]
  symm
  apply (List.map_congr_left _).trans (List.map_id urls)
  intro url hurl
  show (url.map CodePoint.replaced).map CodePoint.scalar = url
  rw [List.map_map]
  apply (List.map_congr_left _).trans (List.map_id url)
  intro x hx
  obtain ⟨c, rfl⟩ := h url hurl x hx
  rfl

theorem joinUrls_map (texts : List Url) :
    joinUrls (texts.map (List.map .scalar)) = ([';'].intercalate texts).map .scalar :=
  (Segments.map_intercalate CodePoint.scalar texts).symm

theorem textOf_eq {joined : List Char} (h : joinUrls urls = joined.map .scalar) :
    textOf urls = joined := by
  rw [textOf, h, List.map_map]
  exact List.map_id joined

/-- A joined text that is encoded has no surrogates. -/
theorem scalar_of_joinUrls {joined : List Char} (h : joinUrls urls = joined.map .scalar)
    (hurl : url ∈ urls) : ∀ x ∈ url, ∃ c, x = CodePoint.scalar c := by
  intro x hx
  have hmem : x ∈ joinUrls urls := Segments.mem_intercalate_of_mem hurl hx
  rw [h] at hmem
  obtain ⟨c, -, rfl⟩ := List.mem_map.mp hmem
  exact ⟨c, rfl⟩

/-! ### What the codec does -/

/-- The blob of acceptable URLs is decoded to them. -/
theorem decodeBlob_blobOf_intercalate {texts : List Url}
    (h : ∀ t ∈ texts, acceptable t = true) (sum : ℕ) :
    decodeBlob (blobOf (plaintext sum ([';'].intercalate texts))) =
      some (texts.map (List.map .scalar)) := by
  rw [decodeBlob_blobOf, splitUrls_intercalate]
  · exact fun t ht => (of_acceptable (h t ht)).2
  · exact fun t ht => (of_acceptable (h t ht)).1

theorem encodeUrls_eq {joined : List Char} (h : joinUrls urls = joined.map .scalar) :
    encodeUrls urls = some (blobOf (plaintext (checksum joined) joined)) := by
  rw [encodeUrls, h, scalars_map]
  rfl

theorem checksum_lt (text : List Char) : checksum text < 0x10000 := Nat.mod_lt _ (by decide)

theorem checksumOf_blobOf {sum : ℕ} (h : sum < 0x10000) (body : List Char) :
    checksumOf (blobOf (plaintext sum body)) = some sum := by
  rw [checksumOf, plaintextOf_blobOf, Option.map_some, unitOf_plaintext h]

/-- Clean URLs are coded exactly when they have no surrogates, and the units that `_checksum` leaves
out do not matter. -/
theorem codes_iff (hclean : cleanPoints urls = urls) :
    Codes urls ↔ (∀ url ∈ urls, ∀ x ∈ url, ∃ c, x = CodePoint.scalar c) ∧ Whole (textOf urls) := by
  constructor
  · rintro ⟨joined, blob, hjoined, hencode, -, hsum⟩
    rw [scalars_eq_some_iff] at hjoined
    refine ⟨fun url hurl => scalar_of_joinUrls hjoined hurl, ?_⟩
    rw [encodeUrls_eq hjoined, Option.some_inj] at hencode
    rw [← hencode, checksumOf_blobOf (checksum_lt joined), Option.some_inj] at hsum
    rw [textOf_eq hjoined]
    exact checksum_eq_iff.mp hsum
  · rintro ⟨hscalar, hwhole⟩
    have hclean := fun url hurl => @of_clean _ url hclean hurl
    obtain ⟨texts, rfl⟩ := exists_texts hscalar
    have hjoined := joinUrls_map texts
    rw [textOf_eq hjoined] at hwhole
    refine ⟨_, _, scalars_eq_some_iff.mpr hjoined, encodeUrls_eq hjoined, ?_, ?_⟩
    · rw [decodeBlob_blobOf, splitUrls_intercalate]
      · intro t ht hsep
        exact (hclean _ (List.mem_map_of_mem ht)).2 (List.mem_map_of_mem hsep)
      · rintro t ht rfl
        exact (hclean _ (List.mem_map_of_mem ht)).1 rfl
    · rw [checksumOf_blobOf (checksum_lt _), checksum_eq_iff.mpr hwhole]

/-- A blob in the format comes out as it went in exactly when the units that `_checksum` leaves out
do not matter. -/
theorem encodeUrls_decodeBlob_iff {blob : List Char} (h : WellFormed blob text) :
    (decodeBlob blob).bind encodeUrls = some blob ↔ Whole text := by
  rw [h.eq_blobOf, decodeBlob_blobOf, Option.bind_some, encodeUrls_eq (joinUrls_splitUrls text),
    Option.some_inj, ← checksum_eq_iff]
  constructor
  · intro heq
    -- the fields of equal plaintexts are equal
    have hfield := blobOf_injective heq
    rw [← unitOf_plaintext (checksum_lt text) text, hfield]
    exact unitOf_plaintext (Nat.mod_lt _ (by decide)) text
  · intro heq
    rw [heq]

/-- **The codec.** What it does with clean URLs, and with a blob in the format of MT5. -/
theorem codec_iff (urls : List (List CodePoint)) (blob text : List Char)
    (hclean : cleanPoints urls = urls) (hblob : WellFormed blob text) :
    (Codes urls ↔
      (∀ url ∈ urls, ∀ x ∈ url, ∃ c, x = CodePoint.scalar c) ∧ Whole (textOf urls)) ∧
    ((decodeBlob blob).bind encodeUrls = some blob ↔ Whole text) :=
  ⟨codes_iff hclean, encodeUrls_decodeBlob_iff hblob⟩

/-- There is a blob for every text. -/
theorem wellFormed_blobOf (text : List Char) :
    WellFormed (blobOf (plaintext ((units text).sum % 0x10000) text)) text := by
  refine ⟨_, rfl, ?_⟩
  rw [swap16_swap16]
  exact decodeCfbFrom_encodeCfbFrom 0 0 _

/-- A URL as a Python string. -/
def point (url : String) : List CodePoint := url.toList.map .scalar

/-- The blob of a broker. -/
def sampleBlob : List Char :=
  ("13E33B7E56715A56F2822DF172EBC0D0BD8DF23E96B1070332C2DCA0AD263444A7774E9A324DA39FCE5" ++
    "E783C0982D0E0CC9CF7439FBA").toList

/-- The URL of a broker and its blob. -/
theorem codec_iff_sample : Codes [point "https://aaaaaaaaaaaaaa.co"] ∧
    (decodeBlob sampleBlob).bind encodeUrls = some sampleBlob := by
  have hblob : WellFormed sampleBlob "https://aaaaaaaaaaaaaa.co".toList := by
    have hsample : sampleBlob = blobOf (plaintext
        ((units "https://aaaaaaaaaaaaaa.co".toList).sum % 0x10000)
          "https://aaaaaaaaaaaaaa.co".toList) := by decide +kernel
    rw [hsample]
    exact wellFormed_blobOf _
  have hcodec := codec_iff [point "https://aaaaaaaaaaaaaa.co"] _ _ (by decide +kernel) hblob
  constructor
  · apply hcodec.1.mpr
    constructor
    · intro url hurl x hx
      rw [List.mem_singleton.mp hurl] at hx
      obtain ⟨c, -, rfl⟩ := List.mem_map.mp hx
      exact ⟨c, rfl⟩
    · decide +kernel
  · exact hcodec.2.mpr (by decide +kernel)

/-- A URL with a character of two units. -/
theorem not_codes : ¬ ∀ urls, cleanPoints urls = urls → Codes urls := by
  intro h
  have hcodes := h [point "https://a.example/😀"] (by decide +kernel)
  exact absurd ((codes_iff (by decide +kernel)).mp hcodes).2 (by decide +kernel)

end WebRequest.Blob

import Mt5HttpApi.Lib.SectionEdit
import Mt5HttpApi.WebRequest.Blob

/-!
# The allowlist in `common.ini`

`mt5api/chartctl/webrequest.py`: the file that the terminal reads the list from when it starts.
`write_common_ini` sets two keys in the section `[Experts]`, and `read_current_urls` reads the list
of the first line that has it.

`writeCommonIni_spec`: what is written is read as the cleaned list, each of the keys is there once,
every other line is kept, and writing the list again changes nothing. That is so for every file,
with the section in it many times or not at all. It comes from what `SectionEdit` knows of setting
keys in a section (`writeLines_eq_edit`).
-/

namespace WebRequest.CommonIni

open Text Utf8 SectionEdit

/-- A line. -/
abbrev Line := List Char

/-- `str.lower`, by its documentation: what it does to ASCII, and that brackets come from brackets
only. -/
structure Lowering where
  lower : List Char → List Char
  ascii : ∀ text, (∀ c ∈ text, c.toNat < 128) → lower text = text.map Char.toLower
  opening : ∀ text, (lower text).head? = some '[' → text.head? = some '['
  closing : ∀ text, (lower text).getLast? = some ']' → text.getLast? = some ']'

/-- What comes before the small letters is lowered to from itself only. -/
theorem eq_of_toLower {c d : Char} (h : c.toLower = d) (hd : d.toNat < 97) : c = d := by
  change (if _ : c.val ≥ 'A'.val ∧ c.val ≤ 'Z'.val then
    (⟨c.val + ('a'.val - 'A'.val), _⟩ : Char) else c) = d at h
  split at h
  next hupper =>
    have hlow : 65 ≤ c.val.toNat := UInt32.le_iff_toNat_le.mp hupper.1
    have hhigh : c.val.toNat ≤ 90 := UInt32.le_iff_toNat_le.mp hupper.2
    have hval : d.val.toNat = (c.val.toNat + 32) % 2 ^ 32 := by
      rw [← h]
      exact UInt32.toNat_add _ _
    -- a capital becomes a small letter
    change d.val.toNat < 97 at hd
    omega
  next => exact h

/-- What a lower-cased text of ASCII begins and ends with. -/
def asciiLowering : Lowering where
  lower text := text.map Char.toLower
  ascii _ _ := rfl
  opening text h := by
    rw [List.head?_map] at h
    obtain ⟨c, hc, hlower⟩ := Option.map_eq_some_iff.mp h
    rw [hc, eq_of_toLower hlower (by decide)]
  closing text h := by
    rw [List.getLast?_map] at h
    obtain ⟨c, hc, hlower⟩ := Option.map_eq_some_iff.mp h
    rw [hc, eq_of_toLower hlower (by decide)]

/-! ### The lines of a file -/

/-- `raw.decode("utf-16", errors="ignore")`: the mark at the beginning is not part of the text. -/
def decodeUtf16 (raw : List UInt8) : List Char :=
  let items := if raw.take 2 = [0xFF, 0xFE] then Utf16.items .little (raw.drop 2)
    else if raw.take 2 = [0xFE, 0xFF] then Utf16.items .big (raw.drop 2)
    else Utf16.items .little raw
  items.filterMap Codec.Item.char

/-- `_read_lines`, of a file that may not be there. -/
def readLines : Option (List UInt8) → List Line
  | none => []
  | some raw =>
    (replaceChar '\r' '\n' (replacePair '\r' '\n' ['\n'] (decodeUtf16 raw))).splitOn '\n'

/-- What `_write_lines` writes. -/
def writeBytes (lines : List Line) : List UInt8 :=
  [0xFF, 0xFE] ++ Utf16.encode .little (['\r', '\n'].intercalate lines)

/-- `s.startswith("[") and s.endswith("]")` -/
def isHeader (s : List Char) : Bool := s.head? = some '[' && s.getLast? = some ']'

/-- `s.split("=", 1)[0].strip()` -/
def keyOf (s : List Char) : List Char := strip (s.takeWhile (· ≠ '='))

/-- `s.split("=", 1)[1].strip()` -/
def valueOf (s : List Char) : List Char := strip ((s.dropWhile (· ≠ '=')).drop 1)

/-- The keys that are set. -/
inductive Key
  | webRequest
  | webRequestUrl
  deriving DecidableEq

namespace Key

/-- Both, in their order. -/
def all : List Key := [webRequest, webRequestUrl]

def name : Key → List Char
  | webRequest => "WebRequest".toList
  | webRequestUrl => "WebRequestUrl".toList

/-- `kv[key]` -/
def value (blob : List Char) : Key → List Char
  | webRequest => ['1']
  | webRequestUrl => blob

/-- `f"{key}={val}"` -/
def entry (blob : List Char) (key : Key) : Line := key.name ++ '=' :: key.value blob

end Key

section

variable (l : Lowering)

/-! ### Reading -/

/-- The blob that `read_current_urls` finds, or nothing. -/
def findBlob : Bool → List Line → List Char
  | _, [] => []
  | inExperts, line :: rest =>
    let s := strip line
    if isHeader s then findBlob (l.lower s = "[experts]".toList) rest
    else if inExperts ∧ '=' ∈ s ∧ l.lower (keyOf s) = "webrequesturl".toList then valueOf s
    else findBlob inExperts rest

/-- `read_current_urls` -/
def readCurrentUrls (file : Option (List UInt8)) : List (List CodePoint) :=
  let blob := findBlob l false (readLines file)
  if blob = [] then []
  else match Blob.decodeBlob blob with
    | some urls => Blob.cleanPoints urls
    | none => []

/-! ### Writing -/

/-- The state of the loop in `write_common_ini`. -/
structure Writing where
  out : List Line
  inExperts : Bool
  written : List Key

/-- `flush_missing` -/
def flushMissing (blob : List Char) (w : Writing) : Writing :=
  Key.all.foldl (fun w key =>
    if key ∈ w.written then w
    else { w with out := w.out ++ [key.entry blob], written := key :: w.written }) w

/-- A line in the loop. -/
def writeLine (blob : List Char) (w : Writing) (line : Line) : Writing :=
  let s := strip line
  if isHeader s then
    let w := if w.inExperts then flushMissing blob w else w
    { w with out := w.out ++ [line], inExperts := l.lower s = "[experts]".toList }
  else if w.inExperts ∧ '=' ∈ s then
    match Key.all.find? fun key => l.lower (keyOf s) = l.lower key.name with
    | some real =>
      if real ∈ w.written then w
      else { w with out := w.out ++ [real.entry blob], written := real :: w.written }
    | none => { w with out := w.out ++ [line] }
  else { w with out := w.out ++ [line] }

/-- `has_experts` -/
def hasExperts (lines : List Line) : Bool :=
  lines.any fun line => l.lower (strip line) = "[experts]".toList

/-- The lines that `write_common_ini` writes. -/
def writeLines (blob : List Char) (lines : List Line) : List Line :=
  let w := lines.foldl (writeLine l blob) ⟨[], false, []⟩
  let w := if w.inExperts then flushMissing blob w else w
  let w := if hasExperts l lines then w
    else flushMissing blob { w with out := w.out ++ ["[Experts]".toList] }
  w.out.rdropWhile (· = [])

/-- `write_common_ini`: the new file, or `none` where `encode_urls` raises. -/
def writeCommonIni (file : Option (List UInt8)) (urls : List Url) : Option (List UInt8) :=
  (Blob.encodeUrls ((cleanUrls urls).map (List.map .scalar))).map fun blob =>
    writeBytes (writeLines l blob (readLines file))

end

/-! ### The format -/

/-- No white space is in a line that is written for a key. -/
theorem isSpace_of_mem_entry {blob : List Char} (h : ∀ c ∈ blob, isSpace c = false) {key : Key}
    {c : Char} (hc : c ∈ key.entry blob) : isSpace c = false := by
  rcases List.mem_append.mp hc with hc | hc
  · have hname : ∀ key : Key, ∀ c ∈ key.name, isSpace c = false := by
      intro key
      cases key <;> decide
    exact hname key c hc
  · rcases List.mem_cons.mp hc with rfl | hc
    · rfl
    · cases key with
      | webRequest =>
        rw [List.mem_singleton.mp hc]
        rfl
      | webRequestUrl => exact h c hc

theorem strip_entry (bytes : List UInt8) (key : Key) :
    strip (key.entry (Hex.hex bytes)) = key.entry (Hex.hex bytes) :=
  strip_of_forall fun _ hc => isSpace_of_mem_entry (fun _ => Blob.isSpace_of_mem_hex) hc

theorem keyOf_entry (blob : List Char) (key : Key) : keyOf (key.entry blob) = key.name := by
  have hname : ∀ key : Key, '=' ∉ key.name ∧ strip key.name = key.name := by
    intro key
    cases key <;> decide
  rw [keyOf, Key.entry, takeWhile_ne_append (hname key).1, (hname key).2]

theorem valueOf_entry (blob : List Char) (key : Key) :
    valueOf (key.entry blob) = strip (key.value blob) := by
  have hname : ∀ key : Key, '=' ∉ key.name := by
    intro key
    cases key <;> decide
  rw [valueOf, Key.entry, dropWhile_ne_append (hname key)]
  rfl

/-- The keys that are set, by their names in lower case. -/
theorem lower_name (l : Lowering) (key : Key) :
    l.lower key.name = key.name.map Char.toLower := by
  apply l.ascii
  cases key <;> decide

theorem find_lower_name (l : Lowering) (key : Key) :
    (Key.all.find? fun key' => l.lower key.name = l.lower key'.name) = some key := by
  simp only [lower_name]
  cases key <;> decide

/-- The lines of `common.ini`, with a blob that is the text of bytes. -/
def experts (l : Lowering) (bytes : List UInt8) : Format Line Key where
  header line :=
    let s := strip line
    if isHeader s then some (l.lower s = "[experts]".toList) else none
  key line :=
    let s := strip line
    if '=' ∈ s then Key.all.find? fun key => l.lower (keyOf s) = l.lower key.name else none
  blank line := line = []
  title := "[Experts]".toList
  entry := Key.entry (Hex.hex bytes)
  header_title := by
    have hlower : l.lower (strip "[Experts]".toList) = "[experts]".toList := by
      rw [l.ascii _ (by decide)]
      decide
    dsimp only
    rw [hlower]
    decide
  blank_title := by decide
  header_entry key := by
    dsimp only
    rw [strip_entry, if_neg]
    cases key <;> exact Bool.false_ne_true
  key_entry key := by
    dsimp only
    rw [strip_entry, if_pos, keyOf_entry, find_lower_name]
    exact List.mem_append_right _ List.mem_cons_self
  blank_entry key := by
    apply decide_eq_false
    cases key <;> exact List.cons_ne_nil _ _
  header_blank line h := by
    rw [of_decide_eq_true h]
    rfl
  key_blank line h := by
    rw [of_decide_eq_true h]
    rfl

variable {l : Lowering} {bytes : List UInt8} {line : Line} {lines : List Line}

theorem header_of_isHeader (h : isHeader (strip line) = true) :
    (experts l bytes).header line = some (decide (l.lower (strip line) = "[experts]".toList)) :=
  if_pos h

theorem header_of_not (h : isHeader (strip line) = false) :
    (experts l bytes).header line = none :=
  if_neg (by rw [h]; exact Bool.false_ne_true)

theorem key_of_mem (h : '=' ∈ strip line) : (experts l bytes).key line =
    Key.all.find? fun key => l.lower (keyOf (strip line)) = l.lower key.name :=
  if_pos h

theorem key_of_not_mem (h : '=' ∉ strip line) : (experts l bytes).key line = none :=
  if_neg h

/-- A header of the section is one. -/
theorem header_eq_some_true_iff : (experts l bytes).header line = some true ↔
    l.lower (strip line) = "[experts]".toList := by
  constructor
  · intro h
    cases hheader : isHeader (strip line) with
    | true =>
      rw [header_of_isHeader hheader, Option.some_inj, decide_eq_true_eq] at h
      exact h
    | false =>
      rw [header_of_not hheader] at h
      cases h
  · intro h
    -- the brackets of the lower-case text are there before
    have hopening := l.opening (strip line) (by rw [h]; rfl)
    have hclosing := l.closing (strip line) (by rw [h]; rfl)
    have hheader : isHeader (strip line) = true := by
      rw [isHeader, hopening, hclosing]
      rfl
    rw [header_of_isHeader hheader, h, decide_eq_true rfl]

/-! ### The loop sets the keys -/

/-- The keys that are missing yet. -/
def missing (w : Writing) : List Key := Key.all.filter (· ∉ w.written)

/-- The state of the edit that belongs to one of the loop. -/
def stateOf (w : Writing) : State Key := (w.inExperts, missing w)

theorem flushMissing_spec (blob : List Char) (w : Writing) :
    (flushMissing blob w).out = w.out ++ (missing w).map (Key.entry blob) ∧
      missing (flushMissing blob w) = [] := by
  by_cases hone : Key.webRequest ∈ w.written <;> by_cases htwo : Key.webRequestUrl ∈ w.written <;>
    simp [flushMissing, Key.all, missing, hone, htwo]

/-- What the loop writes at the end of a section. -/
theorem flush_out (l : Lowering) (bytes : List UInt8) (w : Writing) :
    (if w.inExperts then flushMissing (Hex.hex bytes) w else w).out =
      w.out ++ left (experts l bytes) (stateOf w) := by
  obtain ⟨out, inExperts, written⟩ := w
  cases inExperts with
  | true => exact (flushMissing_spec _ _).1
  | false => exact (List.append_nil _).symm

theorem flush_missing (blob : List Char) (w : Writing) :
    missing (if w.inExperts then flushMissing blob w else w) =
      if w.inExperts then [] else missing w := by
  split
  next => exact (flushMissing_spec _ w).2
  next => rfl

/-- A key that is written is missing no more. -/
theorem missing_cons (out : List Line) (inExperts : Bool) (written : List Key) (real : Key) :
    missing ⟨out, inExperts, real :: written⟩ =
      (missing ⟨out, inExperts, written⟩).erase real := by
  have hnodup : (missing ⟨out, inExperts, written⟩).Nodup :=
    List.Nodup.filter _ (by decide : Key.all.Nodup)
  rw [hnodup.erase_eq_filter, missing, missing, List.filter_filter]
  apply List.filter_congr
  intro key _
  by_cases hreal : key = real
  · simp [hreal]
  · simp [hreal]

theorem mem_missing {w : Writing} {key : Key} : key ∈ missing w ↔ key ∉ w.written := by
  rw [missing, List.mem_filter, decide_eq_true_eq]
  exact and_iff_right (by cases key <;> decide)

/-- A line in the loop is a line of the edit. -/
theorem writeLine_spec (l : Lowering) (bytes : List UInt8) (w : Writing) (line : Line) :
    (writeLine l (Hex.hex bytes) w line).out =
        w.out ++ emit (experts l bytes) (stateOf w) line ∧
      stateOf (writeLine l (Hex.hex bytes) w line) =
        next (experts l bytes) (stateOf w) line := by
  rw [writeLine]
  dsimp only
  cases hheader : isHeader (strip line) with
  | true =>
    have h : (experts l bytes).header line = _ := header_of_isHeader hheader
    rw [if_pos rfl, emit_header h, next_header h]
    constructor
    · show _ ++ [line] = _
      rw [flush_out l, List.append_assoc]
    · exact Prod.ext rfl (flush_missing _ w)
  | false =>
    have h : (experts l bytes).header line = none := header_of_not hheader
    rw [if_neg Bool.false_ne_true]
    obtain ⟨out, inExperts, written⟩ := w
    rcases line_cases (experts l bytes) inExperts line with
      ⟨here, heq⟩ | ⟨-, rfl, real, hkey⟩ | ⟨-, hkey⟩
    · rw [h] at heq
      cases heq
    · -- a line that gives a key
      have hmem : '=' ∈ strip line := by
        by_contra hnot
        rw [key_of_not_mem hnot] at hkey
        cases hkey
      rw [key_of_mem hmem] at hkey
      rw [if_pos ⟨rfl, hmem⟩, hkey]
      rw [← @key_of_mem l bytes line hmem] at hkey
      show (if real ∈ written then _ else _ : Writing).out = _ ∧ stateOf (ite _ _ _) = _
      rw [stateOf, emit_given h hkey, next_given h hkey]
      split
      next hwritten =>
        have hnot : real ∉ missing ⟨out, true, written⟩ := fun hin => mem_missing.mp hin hwritten
        rw [if_neg hnot, List.erase_of_not_mem hnot, List.append_nil]
        exact ⟨rfl, rfl⟩
      next hwritten =>
        rw [if_pos (mem_missing.mpr hwritten), ← missing_cons]
        exact ⟨rfl, rfl⟩
    · -- any other line
      rw [stateOf, emit_other h hkey, next_other h hkey]
      split
      next hgives =>
        obtain ⟨hinside, hmem⟩ := hgives
        obtain rfl : inExperts = true := hinside
        rw [if_pos rfl, key_of_mem hmem] at hkey
        rw [hkey]
        exact ⟨rfl, rfl⟩
      next => exact ⟨rfl, rfl⟩

theorem foldl_writeLine_spec (l : Lowering) (bytes : List UInt8) (w : Writing)
    (lines : List Line) :
    (lines.foldl (writeLine l (Hex.hex bytes)) w).out =
        w.out ++ body (experts l bytes) (stateOf w) lines ∧
      stateOf (lines.foldl (writeLine l (Hex.hex bytes)) w) =
        after (experts l bytes) (stateOf w) lines := by
  induction lines generalizing w with
  | nil => exact ⟨(List.append_nil _).symm, rfl⟩
  | cons line rest ih =>
    obtain ⟨hout, hstate⟩ := writeLine_spec l bytes w line
    obtain ⟨hrest, hafter⟩ := ih (writeLine l (Hex.hex bytes) w line)
    rw [List.foldl_cons, hrest, hafter, hout, hstate, body, List.append_assoc, after, after,
      List.foldl_cons]
    exact ⟨rfl, rfl⟩

theorem hasExperts_eq (l : Lowering) (bytes : List UInt8) (lines : List Line) :
    hasExperts l lines = hasSection (experts l bytes) lines := by
  rw [hasExperts, hasSection]
  congr 1
  ext line
  rw [decide_eq_decide]
  exact header_eq_some_true_iff.symm

/-- The lines that are written are those of the edit. -/
theorem writeLines_eq_edit (l : Lowering) (bytes : List UInt8) (lines : List Line) :
    writeLines l (Hex.hex bytes) lines = edit (experts l bytes) Key.all lines := by
  have hfull : ∀ lines, (if (lines.foldl (writeLine l (Hex.hex bytes)) ⟨[], false, []⟩).inExperts
      then flushMissing (Hex.hex bytes) (lines.foldl (writeLine l (Hex.hex bytes)) ⟨[], false, []⟩)
      else lines.foldl (writeLine l (Hex.hex bytes)) ⟨[], false, []⟩).out =
        full (experts l bytes) (false, Key.all) lines := by
    intro lines
    obtain ⟨hout, hstate⟩ := foldl_writeLine_spec l bytes ⟨[], false, []⟩ lines
    rw [flush_out l, hout, hstate]
    rfl
  rw [writeLines, edit, withTitle, hasExperts_eq l bytes]
  cases hthere : hasSection (experts l bytes) lines with
  | true =>
    rw [if_pos rfl, if_pos rfl, hfull]
    rfl
  | false =>
    rw [if_neg Bool.false_ne_true, if_neg Bool.false_ne_true, ← hfull, List.foldl_concat]
    generalize lines.foldl (writeLine l (Hex.hex bytes)) ⟨[], false, []⟩ = w
    -- a header is written, and the keys after it
    have htitle : l.lower (strip "[Experts]".toList) = "[experts]".toList :=
      header_eq_some_true_iff.mp (experts l bytes).header_title
    have hlast : writeLine l (Hex.hex bytes) w "[Experts]".toList =
        { (if w.inExperts then flushMissing (Hex.hex bytes) w else w) with
          out := (if w.inExperts then flushMissing (Hex.hex bytes) w else w).out ++
            ["[Experts]".toList]
          inExperts := true } := by
      rw [writeLine]
      dsimp only
      rw [if_pos (by decide), htitle, decide_eq_true rfl]
    show _ = (if (writeLine l _ w "[Experts]".toList).inExperts then
      flushMissing _ (writeLine l _ w "[Experts]".toList) else _ : Writing).out.rdropWhile _
    rw [hlast, if_pos rfl, (flushMissing_spec _ _).1, (flushMissing_spec _ _).1]
    rfl

/-! ### The lines are read as they were written -/

/-- A line has no line break in it. -/
def OneLine (line : Line) : Prop := '\n' ∉ line ∧ '\r' ∉ line

theorem oneLine_of_mem_readLines {file : Option (List UInt8)} (h : line ∈ readLines file) :
    OneLine line := by
  cases file with
  | none => cases h
  | some raw =>
    have hline := fun c hc => mem_of_mem_splitOnP h c hc
    constructor
    · intro hmem
      have hnot := (hline '\n' hmem).1
      exact absurd hnot (by decide)
    · intro hmem
      -- every carriage return has been replaced
      obtain ⟨c, -, hc⟩ := List.mem_map.mp (hline '\r' hmem).2
      split at hc
      next => exact absurd hc (by decide)
      next hne => exact hne hc

theorem replacePair_append {text : List Char} (h : '\r' ∉ text) (new rest : List Char) :
    replacePair '\r' '\n' new (text ++ rest) = text ++ replacePair '\r' '\n' new rest := by
  induction text with
  | nil => rfl
  | cons c text ih =>
    rw [List.cons_append, replacePair_cons_of_ne (List.ne_of_not_mem_cons h).symm,
      ih (List.not_mem_of_not_mem_cons h), List.cons_append]

/-- Line breaks of two characters become those of one. -/
theorem replacePair_intercalate (h : ∀ line ∈ lines, OneLine line) :
    replacePair '\r' '\n' ['\n'] (['\r', '\n'].intercalate lines) = ['\n'].intercalate lines := by
  induction lines with
  | nil => rfl
  | cons first more ih =>
    have hfirst := (h first List.mem_cons_self).2
    have hmore := ih fun line hline => h line (List.mem_cons_of_mem _ hline)
    cases more with
    | nil =>
      rw [List.intercalate_singleton, List.intercalate_singleton]
      exact replacePair_of_not_mem hfirst
    | cons next more =>
      rw [List.intercalate_cons_cons, List.intercalate_cons_cons, List.append_assoc,
        replacePair_append hfirst, List.append_assoc]
      show first ++ replacePair '\r' '\n' ['\n'] ('\r' :: '\n' :: _) = _
      rw [replacePair, if_pos ⟨rfl, rfl⟩]
      exact congrArg (fun text => first ++ (['\n'] ++ text)) hmore

theorem decodeUtf16_writeBytes (lines : List Line) :
    decodeUtf16 (writeBytes lines) = ['\r', '\n'].intercalate lines := by
  show (Utf16.items .little (Utf16.encode .little _)).filterMap Codec.Item.char = _
  rw [Utf16.items_encode, List.filterMap_map]
  exact List.filterMap_some

theorem readLines_writeBytes (hne : lines ≠ []) (h : ∀ line ∈ lines, OneLine line) :
    readLines (some (writeBytes lines)) = lines := by
  have hreturn : '\r' ∉ ['\n'].intercalate lines := by
    intro hmem
    rcases Segments.mem_intercalate hmem with heq | ⟨line, hline, hin⟩
    · exact absurd heq (by decide)
    · exact (h line hline).2 hin
  rw [readLines, decodeUtf16_writeBytes, replacePair_intercalate h,
    replaceChar_of_not_mem hreturn]
  exact List.splitOn_intercalate _ (fun line hline => (h line hline).1) hne

/-- The lines that are written can be read. -/
theorem readLines_writeLines (l : Lowering) (bytes : List UInt8) (file : Option (List UInt8)) :
    readLines (some (writeBytes (writeLines l (Hex.hex bytes) (readLines file)))) =
      writeLines l (Hex.hex bytes) (readLines file) := by
  rw [writeLines_eq_edit]
  apply readLines_writeBytes
  · intro hnil
    have hlookup := lookup_edit (f := experts l bytes)
      (by decide : Key.webRequest ∈ Key.all) (readLines file)
    rw [hnil] at hlookup
    cases hlookup
  · intro line hline
    rcases of_mem_edit hline with hold | rfl | ⟨key, rfl⟩
    · exact oneLine_of_mem_readLines hold
    · show OneLine "[Experts]".toList
      exact ⟨by decide, by decide⟩
    · -- line breaks are white space
      have hentry : ∀ c, isSpace c = true → c ∉ key.entry (Hex.hex bytes) := by
        intro c hspace hmem
        rw [isSpace_of_mem_entry (fun _ => Blob.isSpace_of_mem_hex) hmem] at hspace
        cases hspace
      exact ⟨hentry '\n' (by decide), hentry '\r' (by decide)⟩

/-- A line gives the key of the list exactly when `read_current_urls` takes it for one. -/
theorem key_eq_webRequestUrl_iff : (experts l bytes).key line = some .webRequestUrl ↔
    '=' ∈ strip line ∧ l.lower (keyOf (strip line)) = "webrequesturl".toList := by
  have hone : l.lower Key.webRequest.name = "webrequest".toList := lower_name l .webRequest
  have htwo : l.lower Key.webRequestUrl.name = "webrequesturl".toList :=
    lower_name l .webRequestUrl
  by_cases hmem : '=' ∈ strip line
  · rw [key_of_mem hmem, and_iff_right hmem, Key.all, List.find?_cons, List.find?_cons,
      List.find?_nil, hone, htwo]
    by_cases hkey : l.lower (keyOf (strip line)) = "webrequest".toList
    · rw [hkey]
      decide
    · rw [decide_eq_false hkey]
      by_cases hkey' : l.lower (keyOf (strip line)) = "webrequesturl".toList
      · rw [hkey']
        decide
      · rw [decide_eq_false hkey']
        exact iff_of_false (by decide) hkey'
  · rw [key_of_not_mem hmem]
    simp [hmem]

/-- The blob that is found is that of the first line that gives the key. -/
theorem findBlob_eq (l : Lowering) (bytes : List UInt8) (inExperts : Bool) (lines : List Line) :
    findBlob l inExperts lines = ((lookup (experts l bytes) .webRequestUrl inExperts lines).map
      fun line => valueOf (strip line)).getD [] := by
  induction lines generalizing inExperts with
  | nil => rfl
  | cons line rest ih =>
    rw [findBlob]
    cases hheader : isHeader (strip line) with
    | true =>
      rw [if_pos rfl, lookup_header (header_of_isHeader hheader), ih]
    | false =>
      rw [if_neg Bool.false_ne_true, lookup, header_of_not hheader]
      dsimp only
      by_cases hgives : inExperts = true ∧ '=' ∈ strip line ∧
          l.lower (keyOf (strip line)) = "webrequesturl".toList
      · rw [if_pos hgives, if_pos ⟨hgives.1, key_eq_webRequestUrl_iff.mpr hgives.2⟩]
        rfl
      · rw [if_neg hgives, if_neg fun h => hgives ⟨h.1, key_eq_webRequestUrl_iff.mp h.2⟩]
        exact ih inExperts

/-! ### Cleaned lists -/

/-- Texts are cleaned as Python strings as they are as texts. -/
theorem cleanPoints_map (urls : List Url) :
    Blob.cleanPoints (urls.map (List.map .scalar)) = (cleanUrls urls).map (List.map .scalar) := by
  have hinj : Function.Injective (List.map CodePoint.scalar) :=
    List.map_injective_iff.mpr fun a b h => CodePoint.scalar.inj h
  have hstrip : ∀ url : Url,
      Blob.stripPoints (url.map .scalar) = (strip url).map .scalar := by
    intro url
    rw [Blob.stripPoints, List.rdropWhile, List.dropWhile_map, ← List.map_reverse,
      List.dropWhile_map, ← List.map_reverse]
    rfl
  have hacceptable : ∀ url : Url,
      Blob.acceptablePoints (url.map .scalar) = acceptable url := by
    intro url
    rw [Blob.acceptablePoints, List.map_map]
    exact congrArg acceptable (List.map_id url)
  suffices h : ∀ out : List Url, (urls.map (List.map CodePoint.scalar)).foldl (fun out url =>
      if Blob.acceptablePoints (Blob.stripPoints url) && !out.contains (Blob.stripPoints url) then
        out ++ [Blob.stripPoints url]
      else out) (out.map (List.map .scalar)) =
        (urls.foldl cleanStep out).map (List.map .scalar) from
    h []
  induction urls with
  | nil => exact fun out => rfl
  | cons url urls ih =>
    intro out
    have hcontains : (out.map (List.map CodePoint.scalar)).contains ((strip url).map .scalar) =
        out.contains (strip url) := by
      rw [Bool.eq_iff_iff, List.contains_iff_mem, List.contains_iff_mem]
      exact List.mem_map_of_injective hinj
    rw [List.map_cons, List.foldl_cons, List.foldl_cons, hstrip, hacceptable, hcontains, ← ih,
      cleanStep]
    split
    next => rw [List.map_append, List.map_singleton]
    next => rfl

/-! ### The file that is written -/

/-- The keys that the lines of the section give. -/
def settings (l : Lowering) (lines : List Line) : List Key := given (experts l []) false lines

/-- The lines that do not give one of the keys in the section. -/
def otherLines (l : Lowering) (lines : List Line) : List Line :=
  others (experts l []) false lines

/-- What is to hold of the file that is written. -/
structure Written (l : Lowering) (file : Option (List UInt8)) (urls : List Url)
    (after : List UInt8) : Prop where
  reads : readCurrentUrls l (some after) = (cleanUrls urls).map (List.map .scalar)
  once : ∀ key, (settings l (readLines (some after))).count key = 1
  frame : ∃ n, otherLines l (readLines (some after)) ++ List.replicate n [] =
    otherLines l (readLines file) ++
      if hasExperts l (readLines file) then [] else ["[Experts]".toList]
  again : writeCommonIni l (some after) urls = some after

theorem given_eq_settings (l : Lowering) (bytes : List UInt8) (inExperts : Bool)
    (lines : List Line) :
    given (experts l bytes) inExperts lines = given (experts l []) inExperts lines := by
  induction lines generalizing inExperts with
  | nil => rfl
  | cons line rest ih =>
    rw [given, given]
    simp only [ih]
    rfl

theorem others_eq_otherLines (l : Lowering) (bytes : List UInt8) (inExperts : Bool)
    (lines : List Line) :
    others (experts l bytes) inExperts lines = others (experts l []) inExperts lines := by
  induction lines generalizing inExperts with
  | nil => rfl
  | cons line rest ih =>
    rw [others, others]
    simp only [ih]
    rfl

/-- **`write_common_ini`.** It writes a file that is read as the cleaned list, has each of the keys
once, keeps every other line but for blank ones at the end, and is written again as it is. -/
theorem writeCommonIni_spec (l : Lowering) (file : Option (List UInt8)) (urls : List Url) :
    ∃ after, writeCommonIni l file urls = some after ∧ Written l file urls after := by
  have hclean := clean_cleanUrls urls
  have hjoined := Blob.joinUrls_map (cleanUrls urls)
  have hencode := Blob.encodeUrls_eq hjoined
  generalize hpt : Blob.plaintext (Blob.checksum ([';'].intercalate (cleanUrls urls)))
    ([';'].intercalate (cleanUrls urls)) = pt at hencode
  set bytes := Blob.swap16 (Blob.encodeCfb pt) with hbytes
  have hblob : Blob.blobOf pt = Hex.hex bytes := rfl
  have hwrite : ∀ file, writeCommonIni l file urls =
      some (writeBytes (writeLines l (Hex.hex bytes) (readLines file))) := by
    intro file
    rw [writeCommonIni, hencode, Option.map_some, hblob]
  refine ⟨_, hwrite file, ?_⟩
  -- what is read back is an edit of the lines that were there
  have hread := readLines_writeLines l bytes file
  have hedit := writeLines_eq_edit l bytes (readLines file)
  constructor
  · rw [readCurrentUrls, hread, findBlob_eq l bytes, hedit,
      lookup_edit (by decide : Key.webRequestUrl ∈ Key.all), Option.map_some, Option.getD_some]
    -- the blob is the value of its key
    have hvalue : valueOf (strip ((experts l bytes).entry .webRequestUrl)) = Hex.hex bytes := by
      show valueOf (strip (Key.entry (Hex.hex bytes) .webRequestUrl)) = _
      rw [strip_entry, valueOf_entry]
      exact Blob.strip_hex bytes
    have hne : Hex.hex bytes ≠ [] := by
      intro hnil
      have hplain := Blob.plaintextOf_blobOf pt
      rw [hblob, hnil, ← hpt] at hplain
      cases hplain
    rw [hvalue, if_neg hne, ← hblob, ← hpt,
      Blob.decodeBlob_blobOf_intercalate fun url hurl => hclean.acceptable url hurl]
    show Blob.cleanPoints _ = _
    rw [cleanPoints_map, cleanUrls_of_clean hclean]
  · intro key
    rw [settings, hread, hedit, ← given_eq_settings l bytes]
    apply count_given_edit
    · decide
    · cases key <;> decide
  · obtain ⟨blanks, hblanks, hothers⟩ := others_edit (experts l bytes) Key.all (readLines file)
    refine ⟨blanks.length, ?_⟩
    have hreplicate : List.replicate blanks.length [] = blanks :=
      (List.eq_replicate_iff.mpr
        ⟨rfl, fun line hline => of_decide_eq_true (hblanks line hline)⟩).symm
    rw [hreplicate, otherLines, otherLines, hread, hedit, ← others_eq_otherLines l bytes,
      hothers, others_eq_otherLines, hasExperts_eq l bytes]
    rfl
  -- a second edit changes nothing
  · rw [hwrite, hread, hedit, writeLines_eq_edit, edit_edit]

end WebRequest.CommonIni

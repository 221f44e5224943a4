import Mt5HttpApi.Lib.IniNormal
import Mt5HttpApi.Lib.Utf16
import Mt5HttpApi.Lib.Utf8Items

/-!
# The terminal's own MCP servers

`mt5api/terminal_mcp.py` turns them off in the terminal's `assistant.ini` before every launch. The
terminal writes the file anew when it exits, so that anything may be in it: in UTF-16 of either byte
order or in UTF-8, with bytes that are no text, with lines that the parser would not write, or not
an INI file at all.

* `turnedOff_disable`: what is read afterwards is what was read before with the two servers turned
  off, and the file is not changed when that is done again.
-/

namespace TerminalMcp

open Text Ini Codec

/-! ## The file -/

/-- `SECTIONS`. -/
def sections : List (List Char) := ["MCP.MetaTrader".toList, "MCP.MetaEditor".toList]

/-- `_ENABLE_KEY`. -/
def enableKey : List Char := "Enable".toList

/-- `_DISABLED`. -/
def disabled : List Char := "0".toList

/-- `_UTF16_LE_BOM`. -/
def utf16LeBom : List UInt8 := [0xFF, 0xFE]

/-- `_UTF16_BE_BOM`. -/
def utf16BeBom : List UInt8 := [0xFE, 0xFF]

/-- `_new_parser`. -/
def newParser : Parsed := ⟨[], []⟩

/-- `_decode`: the mark at the beginning is decoded with the rest, and then taken off. -/
def decode (raw : List UInt8) : List Char :=
  let text :=
    if utf16LeBom.isPrefixOf raw then replace (Utf16.items .little raw)
    else if utf16BeBom.isPrefixOf raw then replace (Utf16.items .big raw)
    else replace (Utf8.items raw)
  text.dropWhile (· = '\uFEFF')

/-- `_read`, of a file that may not be there. -/
def readFile : Option (List UInt8) → Parsed
  | none => newParser
  | some raw =>
    if strip (decode raw) = [] then newParser
    else
      match Ini.read (decode raw) with
      | .ok parser => parser
      -- a file that cannot be parsed is replaced
      | .error _ => newParser

/-- One round of the loop of `disable`. -/
def disableSection (parser : Parsed) (sect : List Char) : Parsed :=
  (if parser.hasSection sect then parser else parser.addSection sect).set sect enableKey disabled

/-- The parser that `disable` writes. -/
def disabledParser (parser : Parsed) : Parsed := sections.foldl disableSection parser

/-- The bytes of a parser. -/
def fileOf (parser : Parsed) : List UInt8 :=
  utf16LeBom ++ Utf16.encode .little (crlf parser.text)

/-- `disable`: the content of the file afterwards. -/
def disable (file : Option (List UInt8)) : List UInt8 := fileOf (disabledParser (readFile file))

/-! ## What is set -/

/-- The options of a section that is turned off. -/
def offOptions (options : Options) : Options := Dict.set options enableKey disabled

/-- A parser is another one with the two servers turned off: nothing else is in it, nothing is
lost, and nothing has moved. -/
structure TurnedOff (before after : Parsed) : Prop where
  defaults : after.defaults = before.defaults
  names : after.sections.map Prod.fst = before.sections.map Prod.fst ++
    sections.filter (!before.hasSection ·)
  off : ∀ sect ∈ sections, Dict.get after.sections sect =
    some (offOptions ((Dict.get before.sections sect).getD []))
  others : ∀ sect ∉ sections, Dict.get after.sections sect = Dict.get before.sections sect

variable {parser : Parsed} {sect : List Char}

theorem get_disableSection (parser : Parsed) (sect id : List Char) :
    Dict.get (disableSection parser sect).sections id =
      if id = sect then some (offOptions ((Dict.get parser.sections sect).getD []))
      else Dict.get parser.sections id := by
  rw [disableSection, Parsed.set, offOptions, Dict.get_set]
  split_ifs with hid hsect hsect
  · rfl
  · -- the section is new, and has no options yet
    have hnone : Dict.get parser.sections sect = none := by
      simpa [Parsed.hasSection] using hsect
    rw [Parsed.addSection, Dict.get_set, if_pos rfl, hnone]
    rfl
  · rfl
  · rw [Parsed.addSection, Dict.get_set, if_neg hid]

theorem names_disableSection (parser : Parsed) (sect : List Char) :
    (disableSection parser sect).sections.map Prod.fst =
      if parser.hasSection sect then parser.sections.map Prod.fst
      else parser.sections.map Prod.fst ++ [sect] := by
  rw [disableSection, Parsed.set, Dict.map_fst_set]
  split_ifs with hsect hget hget
  · rfl
  · exact absurd hsect hget
  · rw [Parsed.addSection, Dict.map_fst_set]
    exact if_neg hsect
  · rw [Parsed.addSection, Dict.get_set, if_pos rfl] at hget
    exact absurd rfl hget

theorem defaults_disableSection (parser : Parsed) (sect : List Char) :
    (disableSection parser sect).defaults = parser.defaults := by
  rw [disableSection, Parsed.set]
  split_ifs <;> rfl

/-- Sections are turned off one after the other. -/
theorem get_foldl {names : List (List Char)} (hnodup : names.Nodup) (parser : Parsed)
    (id : List Char) :
    Dict.get (names.foldl disableSection parser).sections id =
      if id ∈ names then some (offOptions ((Dict.get parser.sections id).getD []))
      else Dict.get parser.sections id := by
  induction names generalizing parser with
  | nil => rfl
  | cons name names ih =>
    obtain ⟨hname, hnames⟩ := List.nodup_cons.mp hnodup
    rw [List.foldl_cons, ih hnames, get_disableSection]
    rcases eq_or_ne id name with rfl | hne
    · rw [if_neg hname, if_pos rfl, if_pos List.mem_cons_self]
    · simp only [List.mem_cons, hne, false_or, if_false]

theorem names_foldl {names : List (List Char)} (hnodup : names.Nodup) (parser : Parsed) :
    (names.foldl disableSection parser).sections.map Prod.fst =
      parser.sections.map Prod.fst ++ names.filter (!parser.hasSection ·) := by
  induction names generalizing parser with
  | nil => exact (List.append_nil _).symm
  | cons name names ih =>
    obtain ⟨hname, hnames⟩ := List.nodup_cons.mp hnodup
    have hrest : (names.filter fun other => !(disableSection parser name).hasSection other) =
        names.filter fun other => !parser.hasSection other := by
      refine List.filter_congr fun other hother => ?_
      have hne : other ≠ name := fun heq => hname (heq ▸ hother)
      rw [Parsed.hasSection, get_disableSection, if_neg hne, ← Parsed.hasSection]
    rw [List.foldl_cons, ih hnames, hrest, names_disableSection, List.filter_cons]
    rcases parser.hasSection name <;> simp

theorem defaults_foldl (names : List (List Char)) (parser : Parsed) :
    (names.foldl disableSection parser).defaults = parser.defaults := by
  induction names generalizing parser with
  | nil => rfl
  | cons name names ih => rw [List.foldl_cons, ih, defaults_disableSection]

theorem nodup_sections : sections.Nodup := by decide

theorem turnedOff_disabledParser (parser : Parsed) : TurnedOff parser (disabledParser parser) where
  defaults := defaults_foldl sections parser
  names := names_foldl nodup_sections parser
  off := fun sect hsect => (get_foldl nodup_sections parser sect).trans (if_pos hsect)
  others := fun sect hsect => (get_foldl nodup_sections parser sect).trans (if_neg hsect)

/-! ## What is written is read again -/

theorem normal_newParser : newParser.Normal :=
  ⟨by simp [newParser], by simp [newParser], by simp [newParser], normal_nil⟩

theorem normal_readFile (file : Option (List UInt8)) : (readFile file).Normal := by
  unfold readFile
  split
  next => exact normal_newParser
  next raw =>
    split_ifs
    · exact normal_newParser
    · split
      next parser hread => exact normal_read hread
      next => exact normal_newParser

theorem normal_disableSection (h : parser.Normal) (hname : PlainName sect) :
    (disableSection parser sect).Normal := by
  have hkey : PlainKey enableKey := by decide
  have hlegible : Legible disabled := readBack_eq_iff.mp (by decide)
  unfold disableSection
  split_ifs
  · exact h.set hname (hkey.readable disabled) hlegible
  · exact (h.addSection hname).set hname (hkey.readable disabled) hlegible

theorem normal_foldl {names : List (List Char)} (hnames : ∀ name ∈ names, PlainName name)
    (h : parser.Normal) : (names.foldl disableSection parser).Normal := by
  induction names generalizing parser with
  | nil => exact h
  | cons name names ih =>
    exact ih (fun other hother => hnames other (List.mem_cons_of_mem name hother))
      (normal_disableSection h (hnames name List.mem_cons_self))

theorem normal_disabledParser (h : parser.Normal) : (disabledParser parser).Normal :=
  normal_foldl (by decide) h

/-- A section is there in what is written, so that the text begins with its bracket. -/
theorem exists_text (parser : Parsed) : ∃ rest, (disabledParser parser).text = '[' :: rest := by
  have hne : (disabledParser parser).all ≠ [] := by
    intro hnil
    have hsections := (List.append_eq_nil_iff.mp hnil).2
    have hoff := (turnedOff_disabledParser parser).off _ List.mem_cons_self
    rw [hsections] at hoff
    cases hoff
  obtain ⟨sect, more, hall⟩ := List.exists_cons_of_ne_nil hne
  rw [Parsed.text, hall, write, List.flatMap_cons, writeSection]
  exact ⟨_, rfl⟩

/-- The mark is not part of the text, and the text is what was written. -/
theorem decode_written {text : List Char} (h : ∀ c ∈ text.head?, c ≠ '\uFEFF') :
    decode (utf16LeBom ++ Utf16.encode .little text) = text := by
  have hbom : utf16LeBom ++ Utf16.encode .little text = Utf16.encode .little ('\uFEFF' :: text) :=
    rfl
  have hprefix : utf16LeBom.isPrefixOf (Utf16.encode .little ('\uFEFF' :: text)) = true := rfl
  rw [hbom, decode, if_pos hprefix, Utf16.replace_encode, List.dropWhile_cons_of_pos (by decide)]
  cases text with
  | nil => rfl
  | cons c rest => exact List.dropWhile_cons_of_neg (by simpa using h c rfl)

/-- What is read of the file that is written. -/
theorem readFile_disable (file : Option (List UInt8)) :
    readFile (some (disable file)) = disabledParser (readFile file) := by
  obtain ⟨rest, htext⟩ := exists_text (readFile file)
  have hcrlf : crlf (disabledParser (readFile file)).text = '[' :: crlf rest := by
    rw [htext]
    rfl
  have hdecode : decode (disable file) = crlf (disabledParser (readFile file)).text :=
    decode_written (by simp [hcrlf])
  have hblank : strip (decode (disable file)) ≠ [] := by
    rw [hdecode, hcrlf, strip_cons_of_not (by decide)]
    exact List.cons_ne_nil _ _
  have hread : Ini.read (decode (disable file)) = .ok (disabledParser (readFile file)) := by
    rw [hdecode, read_crlf, read_text (normal_disabledParser (normal_readFile file))]
  rw [readFile, if_neg hblank, hread]

/-- A section that is turned off already is left as it is. -/
theorem disableSection_of_off (h : parser.Normal) {options : Options}
    (hget : Dict.get parser.sections sect = some (offOptions options)) :
    disableSection parser sect = parser := by
  have henable : Dict.get (offOptions options) enableKey = some disabled := by
    rw [offOptions, Dict.get_set, if_pos rfl]
  have hnodup := (h.options _ (Dict.mem_of_get hget)).nodup
  have hsect : parser.hasSection sect = true := by
    rw [Parsed.hasSection, hget]
    rfl
  rw [disableSection, if_pos hsect, Parsed.set, hget, Option.getD_some,
    Dict.set_of_get hnodup henable, Dict.set_of_get h.nodup hget]

theorem foldl_of_off {names : List (List Char)} (h : parser.Normal)
    (hoff : ∀ sect ∈ names, ∃ options,
      Dict.get parser.sections sect = some (offOptions options)) :
    names.foldl disableSection parser = parser := by
  induction names with
  | nil => rfl
  | cons name names ih =>
    obtain ⟨options, hget⟩ := hoff name List.mem_cons_self
    rw [List.foldl_cons, disableSection_of_off h hget]
    exact ih fun other hother => hoff other (List.mem_cons_of_mem name hother)

theorem disabledParser_disabledParser (h : parser.Normal) :
    disabledParser (disabledParser parser) = disabledParser parser :=
  foldl_of_off (normal_disabledParser h) fun sect hsect =>
    ⟨_, (turnedOff_disabledParser parser).off sect hsect⟩

/-- Whatever is in the file, `disable` turns the two servers off in it and leaves all else as it was
read. Doing it again before the next launch changes no byte. -/
theorem turnedOff_disable (file : Option (List UInt8)) :
    TurnedOff (readFile file) (readFile (some (disable file))) ∧
      disable (some (disable file)) = disable file := by
  have hread := readFile_disable file
  constructor
  · rw [hread]
    exact turnedOff_disabledParser (readFile file)
  · change fileOf (disabledParser (readFile (some (disable file)))) = fileOf _
    rw [hread, disabledParser_disabledParser (normal_readFile file)]

end TerminalMcp

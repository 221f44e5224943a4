import Mathlib.Algebra.GroupWithZero.Nat
import Mt5HttpApi.Lib.Dict
import Mt5HttpApi.Lib.Text

/-!
# INI files

Python's `RawConfigParser` with its default settings and case-preserving keys: `write` without
spaces around the delimiters, and `read`. The format has no escaping. A value's line breaks are
written with a tab after them, and the reader takes an indented line as one more line of the value.

* `read_write`: what is read of written sections are the same sections and keys, whatever the
  values are, and of each value `readBack`.
* `readBack_eq_iff`: a value is read as it was written exactly when it is `Legible`.
* `keyed_read`: no key is there twice in a section that was read.
-/

namespace Ini

open Text

/-- The options of a section, in their order. -/
abbrev Options := List (List Char × List Char)

/-- Named sections, in their order. -/
abbrev Sections := List (List Char × Options)

/-! ## Writing -/

/-- `value.replace('\n', '\n\t')`. -/
def indented (value : List Char) : List Char :=
  value.flatMap fun c => if c = '\n' then ['\n', '\t'] else [c]

/-- A line for the key and the value, or more. -/
def writeOption (option : List Char × List Char) : List Char :=
  option.1 ++ '=' :: indented option.2 ++ ['\n']

/-- `_write_section`. -/
def writeSection (sect : List Char × Options) : List Char :=
  '[' :: sect.1 ++ [']', '\n'] ++ sect.2.flatMap writeOption ++ ['\n']

/-- `write`. -/
def write (sections : Sections) : List Char := sections.flatMap writeSection

/-! ## Reading -/

/-- Why a text cannot be read. -/
inductive ReadError
  | missingSectionHeader
  | duplicateSection (sect : List Char)
  | duplicateOption (sect option : List Char)
  | parsing
  deriving DecidableEq, Repr

/-- The lines of the values that are being read, by section and key. -/
abbrev Gathered := List (List Char × List (List Char × List (List Char)))

/-- The name of the section for defaults. -/
def defaultSection : List Char := "DEFAULT".toList

/-- The state of `_read` between lines. The section for defaults is there from the start. -/
structure Reader where
  gathered : Gathered
  cursect : Option (List Char)
  optname : Option (List Char)
  indentLevel : Nat
  /-- A line could not be parsed. -/
  failed : Bool
  deriving DecidableEq, Repr

/-- The state before the first line. -/
def Reader.start : Reader := ⟨[(defaultSection, [])], none, none, 0, false⟩

/-- The options of a section. -/
def Reader.options (r : Reader) (sect : List Char) : List (List Char × List (List Char)) :=
  (Dict.get r.gathered sect).getD []

/-- A value has one more line. -/
def Reader.append (r : Reader) (sect option line : List Char) : Reader :=
  { r with gathered := Dict.set r.gathered sect (Dict.set (r.options sect) option
      (((Dict.get (r.options sect) option).getD []) ++ [line])) }

/-- A line that is only a comment. -/
def isComment (line : List Char) : Bool :=
  (strip line).head? == some '#' || (strip line).head? == some ';'

/-- How far a line is indented. -/
def indent (line : List Char) : Nat := (line.takeWhile isSpace).length

/-- `SECTCRE`: what is between a bracket at the start and the last closing one. -/
def sectionHeader (value : List Char) : Option (List Char) :=
  match value with
  | '[' :: rest =>
    if ']' ∈ rest ∧ beforeLast ']' rest ≠ [] then some (beforeLast ']' rest) else none
  | _ => none

/-- A delimiter of a key and its value. -/
def isDelimiter (c : Char) : Bool := c == '=' || c == ':'

/-- `OPTCRE`: what is before the first delimiter, and what is after it. -/
def splitOption (value : List Char) : Option (List Char × List Char) :=
  if value.any isDelimiter then
    some ((value.takeWhile (!isDelimiter ·)).rdropWhile isSpace,
      strip ((value.dropWhile (!isDelimiter ·)).drop 1))
  else none

/-- The line of a section's name or of an option. -/
def Reader.header (r : Reader) (value : List Char) : Except ReadError Reader :=
  match sectionHeader value with
  | some name =>
    if name = defaultSection then .ok { r with cursect := some name, optname := none }
    else if (Dict.get r.gathered name).isSome then .error (.duplicateSection name)
    else .ok { r with
      gathered := Dict.set r.gathered name [], cursect := some name, optname := none }
  | none =>
    match r.cursect with
    | none => .error .missingSectionHeader
    | some sect =>
      match splitOption value with
      | none => .ok { r with failed := true }
      | some (option, optval) =>
        if (Dict.get (r.options sect) option).isSome then .error (.duplicateOption sect option)
        else .ok { r with
          gathered := Dict.set r.gathered sect (Dict.set (r.options sect) option [optval])
          optname := some option
          failed := r.failed || option == [] }

/-- The option that a further line belongs to. -/
def Reader.current (r : Reader) : Option (List Char × List Char) :=
  match r.cursect, r.optname with
  | some sect, some option => if option = [] then none else some (sect, option)
  | _, _ => none

/-- One line of `_read`. -/
def Reader.line (r : Reader) (line : List Char) : Except ReadError Reader :=
  if isComment line then .ok r
  else if strip line = [] then
    match r.current with
    | some (sect, option) => .ok (r.append sect option [])
    | none => .ok r
  else
    match r.current with
    | some (sect, option) =>
      if r.indentLevel < indent line then .ok (r.append sect option (strip line))
      else { r with indentLevel := indent line }.header (strip line)
    | none => { r with indentLevel := indent line }.header (strip line)

/-- The lines of a text. -/
def linesOf (text : List Char) : List (List Char) :=
  let pieces := text.splitOn '\n'
  if pieces.getLast? = some [] then pieces.dropLast else pieces

/-- The sections of a text, and the defaults. -/
structure Parsed where
  defaults : Options
  sections : Sections
  deriving DecidableEq, Repr

/-- The value of an option that is in its section. -/
def Parsed.value (p : Parsed) (sect key : List Char) : Option (List Char) :=
  (Dict.get p.sections sect).bind fun options => Dict.get options key

/-- `_join_multiline_values` of one value. -/
def joined (lines : List (List Char)) : List Char := (['\n'].intercalate lines).rdropWhile isSpace

/-- The values of a section. -/
def joinedOptions (options : List (List Char × List (List Char))) : Options :=
  options.map fun option => (option.1, joined option.2)

/-- `read_string` of a new parser. -/
def read (text : List Char) : Except ReadError Parsed := do
  let r ← (linesOf text).foldlM Reader.line Reader.start
  if r.failed then .error .parsing
  else
    let sections := r.gathered.map fun sect => (sect.1, joinedOptions sect.2)
    .ok ⟨(Dict.get sections defaultSection).getD [], Dict.pop sections defaultSection⟩

/-! ## What is read of what was written -/

/-- A further line of a value as it is read, unless it is a comment. -/
def kept (line : List Char) : List (List Char) := if isComment line then [] else [strip line]

/-- The lines of a value as they are read. -/
def keptLines (value : List Char) : List (List Char) :=
  match value.splitOn '\n' with
  | [] => []
  | first :: more => strip first :: more.flatMap kept

/-- A value as it is read. -/
def readBack (value : List Char) : List Char := joined (keptLines value)

/-- A value that is read as it was written: no line begins or ends with white space, only the first
one may begin as a comment does, and the last one is not empty after others. -/
structure Legible (value : List Char) : Prop where
  stripped : ∀ line ∈ value.splitOn '\n', strip line = line
  noComment : ∀ line ∈ (value.splitOn '\n').tail, isComment line = false
  noBreak : value.getLast? ≠ some '\n'

/-- A key that is read as it is written. -/
structure PlainKey (key : List Char) : Prop where
  ne_nil : key ≠ []
  plain : ∀ c ∈ key, isSpace c = false ∧ isDelimiter c = false ∧ c ∉ ['#', ';', '[']

/-- A section's name that is. -/
structure PlainName (name : List Char) : Prop where
  ne_nil : name ≠ []
  ne_default : name ≠ defaultSection
  noBreak : '\n' ∉ name

instance (key : List Char) : Decidable (PlainKey key) :=
  decidable_of_iff (key ≠ [] ∧ ∀ c ∈ key, isSpace c = false ∧ isDelimiter c = false ∧
    c ∉ ['#', ';', '[']) ⟨fun h => ⟨h.1, h.2⟩, fun h => ⟨h.1, h.2⟩⟩

instance (name : List Char) : Decidable (PlainName name) :=
  decidable_of_iff (name ≠ [] ∧ name ≠ defaultSection ∧ '\n' ∉ name)
    ⟨fun h => ⟨h.1, h.2.1, h.2.2⟩, fun h => ⟨h.1, h.2, h.3⟩⟩

/-- The names of the sections with their keys. -/
def keysOf (sections : Sections) : List (List Char × List (List Char)) :=
  sections.map fun sect => (sect.1, sect.2.map Prod.fst)

/-- Sections that can be read after they were written. -/
structure Plain (sections : Sections) : Prop where
  names : ∀ sect ∈ sections, PlainName sect.1
  nodup : (sections.map Prod.fst).Nodup
  keys : ∀ sect ∈ sections, ∀ option ∈ sect.2, PlainKey option.1
  nodup_keys : ∀ sect ∈ sections, (sect.2.map Prod.fst).Nodup

/-- An option that is read as it is written: its key ends at the first delimiter, and its line is
neither a comment nor that of a section's name. -/
structure Readable (key value : List Char) : Prop where
  ne_nil : key ≠ []
  head : ∀ c ∈ key.head?, isSpace c = false ∧ c ∉ ['#', ';']
  last : ∀ c ∈ key.getLast?, isSpace c = false
  noDelimiter : ∀ c ∈ key, isDelimiter c = false
  noBreak : '\n' ∉ key
  noHeader : sectionHeader (key ++ '=' :: (firstLine value).rdropWhile isSpace) = none

/-- A line without a bracket at its start names no section. -/
theorem sectionHeader_of_ne {c : Char} (h : c ≠ '[') (text : List Char) :
    sectionHeader (c :: text) = none := by
  unfold sectionHeader
  split
  next heq => exact absurd (List.cons.inj heq).1 h
  next => rfl

/-- A plain key does with any value. -/
theorem PlainKey.readable {key : List Char} (h : PlainKey key) (value : List Char) :
    Readable key value := by
  obtain ⟨c, rest, rfl⟩ := List.exists_cons_of_ne_nil h.ne_nil
  obtain ⟨hspace, -, hplain⟩ := h.plain c List.mem_cons_self
  simp only [List.mem_cons, List.not_mem_nil, or_false, not_or] at hplain
  refine ⟨h.ne_nil, fun d hd => ?_, fun d hd => (h.plain d (List.mem_of_getLast? hd)).1,
    fun d hd => (h.plain d hd).2.1, fun hbreak => ?_, sectionHeader_of_ne hplain.2.2 _⟩
  · obtain rfl := Option.some.inj hd
    exact ⟨hspace, by simp [hplain.1, hplain.2.1]⟩
  · exact absurd (h.plain '\n' hbreak).1 (by decide)

/-- Sections whose options can be read after they were written. -/
structure Written (sections : Sections) : Prop where
  names : ∀ sect ∈ sections, PlainName sect.1
  nodup : (sections.map Prod.fst).Nodup
  options : ∀ sect ∈ sections, ∀ option ∈ sect.2, Readable option.1 option.2
  nodup_keys : ∀ sect ∈ sections, (sect.2.map Prod.fst).Nodup

theorem Plain.written {sections : Sections} (h : Plain sections) : Written sections :=
  ⟨h.names, h.nodup, fun sect hsect option hoption =>
    (h.keys sect hsect option hoption).readable option.2, h.nodup_keys⟩

/-- The names and the keys decide. -/
theorem plain_of_keysOf {sections : Sections} (hnodup : ((keysOf sections).map Prod.fst).Nodup)
    (h : ∀ entry ∈ keysOf sections,
      PlainName entry.1 ∧ entry.2.Nodup ∧ ∀ key ∈ entry.2, PlainKey key) : Plain sections := by
  have hmem : ∀ sect ∈ sections, (sect.1, sect.2.map Prod.fst) ∈ keysOf sections :=
    fun sect hsect => List.mem_map_of_mem hsect
  refine ⟨fun sect hsect => (h _ (hmem sect hsect)).1, ?_, ?_,
    fun sect hsect => (h _ (hmem sect hsect)).2.1⟩
  · rw [keysOf, List.map_map] at hnodup
    exact hnodup
  · exact fun sect hsect option hoption =>
      (h _ (hmem sect hsect)).2.2 _ (List.mem_map_of_mem hoption)

/-- What is done to the values does not change them. -/
theorem keysOf_map (f : List Char → List Char) (sections : Sections) :
    keysOf (sections.map fun sect => (sect.1, sect.2.map fun option => (option.1, f option.2))) =
      keysOf sections := by
  rw [keysOf, keysOf, List.map_map]
  refine List.map_congr_left fun sect _ => ?_
  rw [Function.comp_apply, List.map_map]
  rfl

/-! ### Lines -/

/-- Lines as a text. -/
def unlines (lines : List (List Char)) : List Char := lines.flatMap (· ++ ['\n'])

theorem unlines_append (lines lines' : List (List Char)) :
    unlines (lines ++ lines') = unlines lines ++ unlines lines' := List.flatMap_append

theorem linesOf_unlines {lines : List (List Char)} (h : ∀ line ∈ lines, '\n' ∉ line) :
    linesOf (unlines lines) = lines := by
  have hsplit : (unlines lines).splitOn '\n' = lines ++ [[]] := by
    induction lines with
    | nil => rfl
    | cons line lines ih =>
      rw [unlines, List.flatMap_cons, List.append_assoc, List.singleton_append,
        List.splitOn_append_cons_self_of_not_mem (h line List.mem_cons_self), ← unlines,
        ih fun l hl => h l (List.mem_cons_of_mem line hl)]
      rfl
  rw [linesOf, hsplit]
  simp

/-- The lines that a value is written on, the first without its key. -/
def valueLines (value : List Char) : List (List Char) :=
  match value.splitOn '\n' with
  | [] => []
  | first :: more => first :: more.map ('\t' :: ·)

/-- The lines of an option. -/
def optionLines (option : List Char × List Char) : List (List Char) :=
  match valueLines option.2 with
  | [] => []
  | first :: more => (option.1 ++ '=' :: first) :: more

/-- The lines of a section. -/
def sectionLines (sect : List Char × Options) : List (List Char) :=
  ('[' :: sect.1 ++ [']']) :: sect.2.flatMap optionLines ++ [[]]

theorem indented_of_not_mem {piece : List Char} (h : '\n' ∉ piece) : indented piece = piece := by
  induction piece with
  | nil => rfl
  | cons c piece ih =>
    rw [List.mem_cons, not_or] at h
    rw [indented, List.flatMap_cons, if_neg (Ne.symm h.1), ← indented, ih h.2]
    rfl

theorem valueLines_of_not_mem {piece : List Char} (h : '\n' ∉ piece) :
    valueLines piece = [piece] := by
  rw [valueLines, List.splitOn_eq_singleton h]
  rfl

/-- A value has a first line. -/
theorem exists_splitOn (value : List Char) :
    ∃ first more, value.splitOn '\n' = first :: more :=
  List.exists_cons_of_ne_nil (List.splitOn_ne_nil _ _)

theorem firstLine_of_splitOn {value first : List Char} {more : List (List Char)}
    (h : value.splitOn '\n' = first :: more) : firstLine value = first := by
  induction value using sepInduction (p := (· == '\n')) with
  | last piece hpiece =>
    have hnot : '\n' ∉ piece := fun hmem => by simpa using hpiece '\n' hmem
    rw [List.splitOn_eq_singleton hnot] at h
    rw [← (List.cons.inj h).1]
    simpa [firstLine] using firstLine_append hnot []
  | before piece sep rest hpiece hsep _ =>
    have hnot : '\n' ∉ piece := fun hmem => by simpa using hpiece '\n' hmem
    obtain rfl : sep = '\n' := by simpa using hsep
    rw [List.splitOn_append_cons_self_of_not_mem hnot] at h
    rw [← (List.cons.inj h).1, firstLine_append hnot]
    simp [firstLine]

theorem indented_eq (value : List Char) :
    indented value ++ ['\n'] = unlines (valueLines value) := by
  induction value using sepInduction (p := (· == '\n')) with
  | last piece hpiece =>
    have hnot : '\n' ∉ piece := fun h => by simpa using hpiece '\n' h
    rw [indented_of_not_mem hnot, valueLines_of_not_mem hnot]
    simp [unlines]
  | before piece sep rest hpiece hsep ih =>
    have hnot : '\n' ∉ piece := fun h => by simpa using hpiece '\n' h
    obtain rfl : sep = '\n' := by simpa using hsep
    obtain ⟨first, more, hrest⟩ := exists_splitOn rest
    have hpieces : indented (piece ++ '\n' :: rest) = piece ++ '\n' :: '\t' :: indented rest := by
      rw [indented, List.flatMap_append, ← indented, indented_of_not_mem hnot, List.flatMap_cons,
        if_pos rfl]
      rfl
    rw [valueLines, hrest] at ih
    rw [hpieces, valueLines, List.splitOn_append_cons_self_of_not_mem hnot, hrest]
    simp only [unlines, List.flatMap_cons, List.map_cons] at ih ⊢
    simp [ih]

theorem writeOption_eq (option : List Char × List Char) :
    writeOption option = unlines (optionLines option) := by
  obtain ⟨first, more, hvalue⟩ := exists_splitOn option.2
  have hindented := indented_eq option.2
  rw [valueLines, hvalue] at hindented
  rw [writeOption, optionLines, valueLines, hvalue, List.append_assoc, List.cons_append, hindented]
  simp [unlines]

theorem write_eq (sections : Sections) :
    write sections = unlines (sections.flatMap sectionLines) := by
  induction sections with
  | nil => rfl
  | cons sect sections ih =>
    have hoptions : sect.2.flatMap writeOption = unlines (sect.2.flatMap optionLines) := by
      rw [unlines, List.flatMap_assoc]
      exact List.flatMap_congr fun option _ => writeOption_eq option
    rw [write, List.flatMap_cons, ← write, ih, List.flatMap_cons, unlines_append, writeSection,
      hoptions, sectionLines]
    simp [unlines]

theorem not_mem_valueLines {value line : List Char} (h : line ∈ valueLines value) :
    '\n' ∉ line := by
  obtain ⟨first, more, hvalue⟩ := exists_splitOn value
  have hpieces : ∀ piece ∈ first :: more, '\n' ∉ piece := by
    intro piece hpiece hmem
    rw [← hvalue, List.splitOn_eq_splitOnP] at hpiece
    simpa using (mem_of_mem_splitOnP hpiece '\n' hmem).1
  rw [valueLines, hvalue] at h
  rcases List.mem_cons.mp h with rfl | h
  · exact hpieces _ List.mem_cons_self
  · obtain ⟨piece, hpiece, rfl⟩ := List.mem_map.mp h
    simpa using hpieces piece (List.mem_cons_of_mem first hpiece)

/-- A section is written on lines where its name and its keys are on one line. -/
theorem not_mem_sectionLines {sect : List Char × Options} (hname : '\n' ∉ sect.1)
    (hkeys : ∀ option ∈ sect.2, '\n' ∉ option.1) : ∀ line ∈ sectionLines sect, '\n' ∉ line := by
  intro line hline
  rw [sectionLines, List.mem_append, List.mem_cons, List.mem_singleton] at hline
  rcases hline with (rfl | hline) | rfl
  · simpa using hname
  · obtain ⟨option, hoption, hline⟩ := List.mem_flatMap.mp hline
    obtain ⟨first, more, hvalue⟩ : ∃ first more, valueLines option.2 = first :: more := by
      obtain ⟨first, more, hvalue⟩ := exists_splitOn option.2
      exact ⟨first, _, by rw [valueLines, hvalue]⟩
    have hnot : ∀ l ∈ first :: more, '\n' ∉ l := fun l hl => not_mem_valueLines (hvalue ▸ hl)
    rw [optionLines, hvalue] at hline
    rcases List.mem_cons.mp hline with rfl | hline
    · simpa using ⟨hkeys option hoption, hnot first List.mem_cons_self⟩
    · exact hnot line (List.mem_cons_of_mem first hline)
  · exact List.not_mem_nil

theorem Written.not_mem {sections : Sections} (h : Written sections) :
    ∀ line ∈ sections.flatMap sectionLines, '\n' ∉ line := by
  intro line hline
  obtain ⟨sect, hsect, hline⟩ := List.mem_flatMap.mp hline
  exact not_mem_sectionLines (h.names sect hsect).noBreak
    (fun option hoption => (h.options sect hsect option hoption).noBreak) line hline

/-! ### One line -/

theorem indent_cons_of_not {c : Char} {text : List Char} (h : isSpace c = false) :
    indent (c :: text) = 0 := by
  rw [indent, List.takeWhile_cons, h]
  rfl

theorem strip_tab_cons (text : List Char) : strip ('\t' :: text) = strip text := by
  rw [strip, List.dropWhile_cons, if_pos (by decide), ← strip]

/-- A line that begins neither with white space nor as a comment does is no further line. -/
theorem line_of_head (r : Reader) {c : Char} (hspace : isSpace c = false)
    (hcomment : c ∉ ['#', ';']) (text : List Char) :
    r.line (c :: text) = { r with indentLevel := 0 }.header (strip (c :: text)) := by
  have hstrip : strip (c :: text) = c :: text.rdropWhile isSpace := strip_cons_of_not hspace
  have hnot : isComment (c :: text) = false := by
    rw [isComment, hstrip]
    simpa using hcomment
  rw [Reader.line, hnot, if_neg Bool.false_ne_true, if_neg (by simp [hstrip]),
    indent_cons_of_not hspace]
  split
  · rw [if_neg (Nat.not_lt_zero _)]
  · rfl

variable {gathered : Gathered} {name key line value : List Char}
  {cursect optname : Option (List Char)}
  {failed : Bool} {options : List (List Char × List (List Char))} {lines : List (List Char)}

/-- The line of a section's name that is new. -/
theorem line_name (hname : PlainName name) (hnew : Dict.get gathered name = none) :
    (Reader.mk gathered cursect optname 0 failed).line ('[' :: name ++ [']']) =
      .ok ⟨gathered ++ [(name, [])], some name, none, 0, failed⟩ := by
  have hheader : sectionHeader ('[' :: (name ++ [']'])) = some name := by
    simp [sectionHeader, beforeLast, hname.ne_nil]
  rw [List.cons_append, line_of_head _ (by decide) (by decide), strip_cons_of_not (by decide),
    List.rdropWhile_concat_neg _ _ _ (by decide), Reader.header, hheader]
  simp only [hname.ne_default, if_false, hnew, Option.isSome_none, Bool.false_eq_true,
    Dict.set_of_get_eq_none hnew]

theorem splitOption_key (hkey : Readable key value) (text : List Char) :
    splitOption (key ++ '=' :: text) = some (key, strip text) := by
  have hdelimiter : ∀ c ∈ key, (!isDelimiter c) = true := fun c hc => by
    rw [hkey.noDelimiter c hc]
    rfl
  have hend : key.rdropWhile isSpace = key := by
    rw [List.rdropWhile_eq_self_iff]
    intro hne
    rw [hkey.last _ (List.getLast?_eq_some_getLast hne)]
    exact Bool.false_ne_true
  rw [splitOption, if_pos (by simp [isDelimiter]), List.takeWhile_append_of_pos hdelimiter,
    List.dropWhile_append_of_pos hdelimiter]
  simp [isDelimiter, hend]

/-- The line of an option that is new. -/
theorem line_option (hkey : Readable key value) (hsect : Dict.get gathered name = none)
    (hnew : Dict.get options key = none) :
    (Reader.mk (gathered ++ [(name, options)]) (some name) optname 0 failed).line
        (key ++ '=' :: firstLine value) =
      .ok ⟨gathered ++ [(name, options ++ [(key, [strip (firstLine value)])])], some name,
        some key, 0, failed⟩ := by
  obtain ⟨c, rest, rfl⟩ := List.exists_cons_of_ne_nil hkey.ne_nil
  obtain ⟨hspace, hcomment⟩ := hkey.head c rfl
  have hheader := hkey.noHeader
  rw [List.cons_append] at hheader
  rw [List.cons_append, line_of_head _ hspace hcomment, strip_cons_of_not hspace,
    rdropWhile_append_cons (by decide), Reader.header, hheader]
  have hoptions : Reader.options ⟨gathered ++ [(name, options)], some name, optname, 0, failed⟩
      name = options := by
    rw [Reader.options, Dict.get_concat_self hsect, Option.getD_some]
  have hsplit := splitOption_key hkey ((firstLine value).rdropWhile isSpace)
  rw [List.cons_append, strip_rdropWhile] at hsplit
  simp only [hsplit]
  rw [hoptions, hnew]
  simp only [Option.isSome_none, Bool.false_eq_true, if_false]
  rw [Dict.set_of_get_eq_none hnew, Dict.set_concat_self hsect]
  simp

/-- The value that has been read last has one more line. -/
theorem append_last (hsect : Dict.get gathered name = none) (hnew : Dict.get options key = none) :
    (Reader.mk (gathered ++ [(name, options ++ [(key, lines)])]) (some name) (some key) 0
        failed).append name key line =
      ⟨gathered ++ [(name, options ++ [(key, lines ++ [line])])], some name, some key, 0,
        failed⟩ := by
  rw [Reader.append, Reader.options]
  simp only [Dict.get_concat_self hsect, Option.getD_some, Dict.get_concat_self hnew,
    Dict.set_concat_self hnew, Dict.set_concat_self hsect]

theorem current_some (hkey : key ≠ []) (gathered : Gathered) :
    (Reader.mk gathered (some name) (some key) 0 failed).current = some (name, key) :=
  if_neg hkey

/-- A further line of a value. -/
theorem line_more (hkey : key ≠ []) (hsect : Dict.get gathered name = none)
    (hnew : Dict.get options key = none) (line : List Char) :
    (Reader.mk (gathered ++ [(name, options ++ [(key, lines)])]) (some name) (some key) 0
        failed).line ('\t' :: line) =
      .ok ⟨gathered ++ [(name, options ++ [(key, lines ++ kept line)])], some name, some key, 0,
        failed⟩ := by
  have hcomment : isComment ('\t' :: line) = isComment line := by
    rw [isComment, isComment, strip_tab_cons]
  rw [Reader.line, hcomment, kept, current_some hkey, strip_tab_cons]
  split
  next => rw [List.append_nil]
  next =>
    split
    next hblank =>
      rw [hblank]
      exact congrArg Except.ok (append_last hsect hnew)
    next =>
      have hindent : 0 < indent ('\t' :: line) := by
        rw [indent, List.takeWhile_cons, if_pos (by decide)]
        exact Nat.succ_pos _
      exact (if_pos hindent).trans (congrArg Except.ok (append_last hsect hnew))

/-- The empty line after a section. -/
theorem line_blank (hkey : key ≠ []) (hsect : Dict.get gathered name = none)
    (hnew : Dict.get options key = none) (lines : List (List Char)) (failed : Bool) :
    (Reader.mk (gathered ++ [(name, options ++ [(key, lines)])]) (some name) (some key) 0
        failed).line [] =
      .ok ⟨gathered ++ [(name, options ++ [(key, lines ++ [[]])])], some name, some key, 0,
        failed⟩ := by
  have hcomment : isComment [] = false := by decide
  rw [Reader.line, hcomment, if_neg Bool.false_ne_true, if_pos (show strip [] = [] from rfl),
    current_some hkey]
  exact congrArg Except.ok (append_last hsect hnew)

/-! ### All lines -/

theorem foldlM_cons_of_ok {line : List Char} {r r' : Reader} (h : r.line line = .ok r')
    (more : List (List Char)) :
    (line :: more).foldlM Reader.line r = more.foldlM Reader.line r' := by
  rw [List.foldlM_cons, h]
  rfl

theorem foldlM_append_of_ok {before : List (List Char)} {r r' : Reader}
    (h : before.foldlM Reader.line r = .ok r') (after : List (List Char)) :
    (before ++ after).foldlM Reader.line r = after.foldlM Reader.line r' := by
  rw [List.foldlM_append, h]
  rfl

/-- The further lines of a value. -/
theorem run_more (hkey : key ≠ []) (hsect : Dict.get gathered name = none)
    (hnew : Dict.get options key = none) (more : List (List Char)) :
    (more.map ('\t' :: ·)).foldlM Reader.line
        ⟨gathered ++ [(name, options ++ [(key, lines)])], some name, some key, 0, failed⟩ =
      .ok ⟨gathered ++ [(name, options ++ [(key, lines ++ more.flatMap kept)])], some name,
        some key, 0, failed⟩ := by
  induction more generalizing lines with
  | nil =>
    rw [List.flatMap_nil, List.append_nil]
    rfl
  | cons line more ih =>
    rw [List.map_cons, foldlM_cons_of_ok (line_more hkey hsect hnew line), ih, List.flatMap_cons,
      List.append_assoc]

/-- The lines of an option. -/
theorem run_option (hkey : Readable key value) (hsect : Dict.get gathered name = none)
    (hnew : Dict.get options key = none) :
    (optionLines (key, value)).foldlM Reader.line
        ⟨gathered ++ [(name, options)], some name, optname, 0, failed⟩ =
      .ok ⟨gathered ++ [(name, options ++ [(key, keptLines value)])], some name, some key, 0,
        failed⟩ := by
  obtain ⟨first, more, hvalue⟩ := exists_splitOn value
  have hfirst : (Reader.mk (gathered ++ [(name, options)]) (some name) optname 0 failed).line
      (key ++ '=' :: firstLine value) = _ := line_option hkey hsect hnew
  rw [firstLine_of_splitOn hvalue] at hfirst
  rw [optionLines, valueLines, hvalue, keptLines, hvalue]
  dsimp only
  rw [foldlM_cons_of_ok hfirst, run_more hkey.ne_nil hsect hnew more]
  rfl

/-- The options of a section as they are read, before their lines are joined. -/
def keptOptions (options : Options) : List (List Char × List (List Char)) :=
  options.map fun option => (option.1, keptLines option.2)

theorem get_keptOptions (h : ∀ option ∈ new, option.1 ≠ key) :
    Dict.get (keptOptions new) key = none := by
  rw [Dict.get_eq_none_iff]
  intro item hitem
  obtain ⟨option, hoption, rfl⟩ := List.mem_map.mp hitem
  exact h option hoption

theorem keptOptions_concat (new : Options) (option : List Char × List Char) :
    keptOptions (new ++ [option]) = keptOptions new ++ [(option.1, keptLines option.2)] := by
  simp [keptOptions]

theorem fresh_of_nodup {new : Options} {option : List Char × List Char}
    (h : ((new ++ [option]).map Prod.fst).Nodup) : ∀ other ∈ new, other.1 ≠ option.1 := by
  intro other hother
  rw [List.map_append, List.nodup_append] at h
  exact h.2.2 _ (List.mem_map_of_mem hother) _ (List.mem_singleton_self _)

/-- The lines of options. -/
theorem run_options {new : Options} (hkeys : ∀ option ∈ new, Readable option.1 option.2)
    (hnodup : (new.map Prod.fst).Nodup) (hsect : Dict.get gathered name = none)
    (failed : Bool) :
    (new.flatMap optionLines).foldlM Reader.line
        ⟨gathered ++ [(name, [])], some name, none, 0, failed⟩ =
      .ok ⟨gathered ++ [(name, keptOptions new)], some name, new.getLast?.map Prod.fst, 0,
        failed⟩ := by
  induction new using List.reverseRecOn with
  | nil => rfl
  | append_singleton new option ih =>
    have hfresh : Dict.get (keptOptions new) option.1 = none :=
      get_keptOptions (fresh_of_nodup hnodup)
    rw [List.map_append, List.nodup_append] at hnodup
    have hrun := ih (fun other hother => hkeys other (List.mem_append_left _ hother)) hnodup.1
    rw [List.flatMap_append, foldlM_append_of_ok hrun, List.flatMap_singleton,
      run_option (hkeys option (by simp)) hsect hfresh, keptOptions_concat,
      List.getLast?_concat, Option.map_some]

/-- An empty line at the end of a value is lost. -/
theorem joined_concat_nil (first : List Char) (more : List (List Char)) :
    joined (first :: more ++ [[]]) = joined (first :: more) := by
  have hend : ['\n'].intercalate (first :: more ++ [[]]) =
      ['\n'].intercalate (first :: more) ++ ['\n'] := by
    induction more generalizing first with
    | nil => simp [List.intercalate]
    | cons next more ih =>
      rw [List.cons_append, List.cons_append, List.intercalate_cons_cons,
        List.intercalate_cons_cons, ← List.cons_append, ih]
      simp
  rw [joined, hend, List.rdropWhile_concat_pos _ _ _ (by decide), joined]

/-- A value is read on lines, the first of which is not left out. -/
theorem exists_keptLines (value : List Char) : ∃ first more, keptLines value = first :: more := by
  obtain ⟨first, more, hvalue⟩ := exists_splitOn value
  exact ⟨_, _, by rw [keptLines, hvalue]⟩

theorem joinedOptions_keptOptions (options : Options) : joinedOptions (keptOptions options) =
    options.map fun option => (option.1, readBack option.2) := by
  rw [joinedOptions, keptOptions, List.map_map]
  rfl

/-- The lines of a section after the one of its name. -/
theorem run_body {new : Options} (hkeys : ∀ option ∈ new, Readable option.1 option.2)
    (hnodup : (new.map Prod.fst).Nodup) (hsect : Dict.get gathered name = none) (failed : Bool) :
    ∃ options cursect' optname', (new.flatMap optionLines ++ [[]]).foldlM Reader.line
        ⟨gathered ++ [(name, [])], some name, none, 0, failed⟩ =
      .ok ⟨gathered ++ [(name, options)], cursect', optname', 0, failed⟩ ∧
      joinedOptions options = new.map fun option => (option.1, readBack option.2) := by
  rw [foldlM_append_of_ok (run_options hkeys hnodup hsect failed)]
  rcases List.eq_nil_or_concat new with rfl | ⟨init, last, hlast⟩
  · -- without options the empty line belongs to nothing
    exact ⟨[], some name, none, rfl, rfl⟩
  · rw [List.concat_eq_append] at hlast
    subst hlast
    have hblank := line_blank (hkeys last (by simp)).ne_nil hsect
      (get_keptOptions (fresh_of_nodup hnodup)) (keptLines last.2) failed
    obtain ⟨first, more, hkept⟩ := exists_keptLines last.2
    rw [List.getLast?_concat, Option.map_some, keptOptions_concat, foldlM_cons_of_ok hblank]
    refine ⟨_, _, _, rfl, ?_⟩
    rw [joinedOptions, List.map_append, List.map_singleton, hkept, joined_concat_nil, ← hkept]
    rw [← joinedOptions_keptOptions, keptOptions_concat, joinedOptions, List.map_append,
      List.map_singleton]

/-- The lines of a section. -/
theorem run_section {sect : List Char × Options} (hname : PlainName sect.1)
    (hkeys : ∀ option ∈ sect.2, Readable option.1 option.2)
    (hnodup : (sect.2.map Prod.fst).Nodup) (hnew : Dict.get gathered sect.1 = none)
    (cursect optname : Option (List Char)) (failed : Bool) :
    ∃ options cursect' optname', (sectionLines sect).foldlM Reader.line
        ⟨gathered, cursect, optname, 0, failed⟩ =
      .ok ⟨gathered ++ [(sect.1, options)], cursect', optname', 0, failed⟩ ∧
      joinedOptions options = sect.2.map fun option => (option.1, readBack option.2) := by
  rw [sectionLines, List.cons_append, foldlM_cons_of_ok (line_name hname hnew)]
  exact run_body hkeys hnodup hnew failed

/-- The lines of sections. -/
theorem run_sections {sections : Sections} (h : Written sections)
    (hnew : ∀ sect ∈ sections, Dict.get gathered sect.1 = none)
    (cursect optname : Option (List Char)) (failed : Bool) :
    ∃ got cursect' optname', (sections.flatMap sectionLines).foldlM Reader.line
        ⟨gathered, cursect, optname, 0, failed⟩ =
      .ok ⟨gathered ++ got, cursect', optname', 0, failed⟩ ∧
      (got.map fun sect => (sect.1, joinedOptions sect.2)) = sections.map fun sect =>
        (sect.1, sect.2.map fun option => (option.1, readBack option.2)) := by
  induction sections generalizing gathered cursect optname with
  | nil => exact ⟨[], cursect, optname, by rw [List.append_nil]; rfl, rfl⟩
  | cons sect sections ih =>
    have hsect : sect ∈ sect :: sections := List.mem_cons_self
    have hrest : ∀ other ∈ sections, other ∈ sect :: sections := fun other =>
      List.mem_cons_of_mem sect
    obtain ⟨options, cursect₁, optname₁, hrun, hjoined⟩ := run_section (h.names sect hsect)
      (h.options sect hsect) (h.nodup_keys sect hsect) (hnew sect hsect) cursect optname failed
    obtain ⟨hnotMem, hnodup⟩ := List.nodup_cons.mp h.nodup
    have hfresh : ∀ other ∈ sections, Dict.get (gathered ++ [(sect.1, options)]) other.1 =
        none := by
      intro other hother
      have hne : sect.1 ≠ other.1 := fun heq => hnotMem (heq ▸ List.mem_map_of_mem hother)
      rw [Dict.get_append, hnew other (hrest other hother), Dict.get_cons, if_neg hne]
      rfl
    obtain ⟨got, cursect₂, optname₂, hruns, hgot⟩ := ih
      ⟨fun other hother => h.names other (hrest other hother), hnodup,
        fun other hother => h.options other (hrest other hother),
        fun other hother => h.nodup_keys other (hrest other hother)⟩ hfresh cursect₁ optname₁
    refine ⟨(sect.1, options) :: got, cursect₂, optname₂, ?_, ?_⟩
    · rw [List.flatMap_cons, foldlM_append_of_ok hrun, hruns, List.append_assoc]
      rfl
    · rw [List.map_cons, List.map_cons, hjoined, hgot]

/-- What is read of written sections: the same sections and keys, and each value as it is read
back. -/
theorem read_write {sections : Sections} (h : Plain sections) :
    read (write sections) = .ok ⟨[], sections.map fun sect =>
      (sect.1, sect.2.map fun option => (option.1, readBack option.2))⟩ := by
  have hnew : ∀ sect ∈ sections, Dict.get Reader.start.gathered sect.1 = none := by
    intro sect hsect
    rw [Reader.start, Dict.get_cons, if_neg (Ne.symm (h.names sect hsect).ne_default)]
    rfl
  obtain ⟨got, cursect, optname, hrun, hgot⟩ := run_sections h.written hnew none none false
  rw [read, write_eq, linesOf_unlines h.written.not_mem, Reader.start]
  rw [Reader.start] at hrun
  rw [hrun]
  -- the defaults are what was there from the start, and no section has their name
  have hpop : Dict.pop ((defaultSection, []) :: sections.map fun sect =>
      (sect.1, sect.2.map fun option => (option.1, readBack option.2))) defaultSection =
        sections.map fun sect =>
          (sect.1, sect.2.map fun option => (option.1, readBack option.2)) := by
    rw [Dict.pop, List.filter_cons_of_neg (by simp), List.filter_eq_self]
    intro item hitem
    obtain ⟨sect, hsect, rfl⟩ := List.mem_map.mp hitem
    simpa using (h.names sect hsect).ne_default
  change Except.ok _ = _
  rw [List.singleton_append, List.map_cons, hgot]
  exact congrArg Except.ok (congrArg₂ Parsed.mk rfl hpop)

/-! ### Values that are read as they were written -/

theorem length_intercalate (first : List Char) (more : List (List Char)) :
    (['\n'].intercalate (first :: more)).length =
      first.length + (more.map fun line => line.length + 1).sum := by
  induction more generalizing first with
  | nil => simp [List.intercalate]
  | cons next more ih =>
    rw [List.intercalate_cons_cons, List.length_append, List.length_append, ih,
      List.map_cons, List.sum_cons, List.length_singleton]
    omega

/-- Further lines do not get longer when they are read, and stay as long only where each of them is
kept as it is. -/
theorem length_kept_le (more : List (List Char)) :
    ((more.flatMap kept).map fun line => line.length + 1).sum ≤
        (more.map fun line => line.length + 1).sum ∧
      (((more.flatMap kept).map fun line => line.length + 1).sum =
          (more.map fun line => line.length + 1).sum →
        ∀ line ∈ more, isComment line = false ∧ strip line = line) := by
  induction more with
  | nil => simp
  | cons line more ih =>
    have hlength := (strip_sublist line).length_le
    rw [List.flatMap_cons, List.map_append, List.sum_append, List.map_cons, List.sum_cons, kept]
    split
    next hcomment =>
      rw [List.map_nil, List.sum_nil]
      exact ⟨by omega, fun heq => by omega⟩
    next hcomment =>
      rw [List.map_singleton, List.sum_singleton]
      refine ⟨by omega, fun heq => ?_⟩
      have hsame : line.length ≤ (strip line).length := by omega
      have hrest := ih.2 (by omega)
      intro l hl
      rcases List.mem_cons.mp hl with rfl | hl
      · exact ⟨by simpa using hcomment, (strip_sublist l).eq_of_length_le hsame⟩
      · exact hrest l hl

/-- Where no line ends with white space, and no empty line is at the end, the value does not. -/
theorem getLast_of_stripped {value : List Char}
    (hstripped : ∀ line ∈ value.splitOn '\n', strip line = line)
    (hbreak : value.getLast? ≠ some '\n') : ∀ c ∈ value.getLast?, isSpace c = false := by
  induction value using sepInduction (p := (· == '\n')) with
  | last piece hpiece =>
    have hnot : '\n' ∉ piece := fun h => by simpa using hpiece '\n' h
    rw [List.splitOn_eq_singleton hnot] at hstripped
    exact (strip_eq_self_iff.mp (hstripped piece (List.mem_singleton_self piece))).2
  | before piece sep rest hpiece hsep ih =>
    have hnot : '\n' ∉ piece := fun h => by simpa using hpiece '\n' h
    obtain rfl : sep = '\n' := by simpa using hsep
    rw [List.splitOn_append_cons_self_of_not_mem hnot] at hstripped
    rcases List.eq_nil_or_concat rest with rfl | ⟨init, last, rfl⟩
    · simp at hbreak
    · have hlast : (piece ++ '\n' :: init.concat last).getLast? = (init.concat last).getLast? := by
        rw [List.concat_eq_append, ← List.cons_append, ← List.append_assoc, List.getLast?_concat,
          List.getLast?_concat]
      rw [hlast] at hbreak ⊢
      exact ih (fun line hline => hstripped line (List.mem_cons_of_mem piece hline)) hbreak

/-- A value is read as it was written exactly when it is legible. -/
theorem readBack_eq_iff {value : List Char} : readBack value = value ↔ Legible value := by
  obtain ⟨first, more, hvalue⟩ := exists_splitOn value
  have hjoin : ['\n'].intercalate (first :: more) = value := by
    rw [← hvalue]
    exact List.intercalate_splitOn '\n'
  have hread : readBack value =
      (['\n'].intercalate (strip first :: more.flatMap kept)).rdropWhile isSpace := by
    rw [readBack, keptLines, hvalue]
    rfl
  constructor
  · intro h
    -- nothing gets longer, so that nothing may get shorter
    have hshort : value.length ≤
        (['\n'].intercalate (strip first :: more.flatMap kept)).length := by
      rw [← h, hread]
      exact (List.rdropWhile_prefix isSpace _).length_le
    have hlong := congrArg List.length hjoin
    rw [length_intercalate] at hshort hlong
    obtain ⟨hmore, hkept⟩ := length_kept_le more
    have hfirst := (strip_sublist first).length_le
    have hall := hkept (by omega)
    have hsame : first.length ≤ (strip first).length := by omega
    refine ⟨?_, ?_, ?_⟩
    · rw [hvalue]
      intro line hline
      rcases List.mem_cons.mp hline with rfl | hline
      · exact (strip_sublist line).eq_of_length_le hsame
      · exact (hall line hline).2
    · rw [hvalue]
      exact fun line hline => (hall line hline).1
    · intro hbreak
      have hend : value.rdropWhile isSpace = value := by
        rw [← h, hread]
        exact List.rdropWhile_idempotent isSpace _
      obtain ⟨init, rfl⟩ := List.getLast?_eq_some_iff.mp hbreak
      have hspace := List.rdropWhile_eq_self_iff.mp hend (by simp)
      rw [List.getLast_concat] at hspace
      exact hspace (by decide)
  · intro h
    have hstripped := h.stripped
    have hcomment := h.noComment
    rw [hvalue] at hstripped hcomment
    have hkept : more.flatMap kept = more := by
      have hline : ∀ line ∈ more, kept line = [line] := by
        intro line hline
        rw [kept, hcomment line hline, hstripped line (List.mem_cons_of_mem first hline)]
        rfl
      rw [List.flatMap_congr hline]
      simp
    rw [hread, hstripped first List.mem_cons_self, hkept, hjoin, List.rdropWhile_eq_self_iff]
    intro hne
    have hlast := getLast_of_stripped h.stripped h.noBreak _ (List.getLast?_eq_some_getLast hne)
    rw [hlast]
    exact Bool.false_ne_true

/-- A value without white space is read as it was written. -/
theorem readBack_of_forall {value : List Char} (h : ∀ c ∈ value, isSpace c = false) :
    readBack value = value := by
  have hbreak : '\n' ∉ value := fun hmem => Bool.false_ne_true (h '\n' hmem).symm
  refine readBack_eq_iff.mpr ⟨?_, ?_, ?_⟩
  · rw [List.splitOn_eq_singleton hbreak]
    intro line hline
    rw [List.mem_singleton.mp hline]
    exact strip_of_forall h
  · rw [List.splitOn_eq_singleton hbreak]
    intro line hline
    cases hline
  · exact fun hlast => hbreak (List.mem_of_getLast? hlast)

/-! ## Keys -/

/-- No key is there twice in a section. -/
def Keyed {α : Type} (sections : List (List Char × List (List Char × α))) : Prop :=
  ∀ sect ∈ sections, (sect.2.map Prod.fst).Nodup

section Keyed

variable {α : Type} {sections : List (List Char × List (List Char × α))}
  {options : List (List Char × α)} {r r' : Reader} {line value : List Char}

theorem Keyed.nodup_get (h : Keyed sections) (name : List Char) :
    (((Dict.get sections name).getD []).map Prod.fst).Nodup := by
  rcases hget : Dict.get sections name with _ | options
  · exact List.nodup_nil
  · exact h _ (Dict.mem_of_get hget)

theorem Keyed.set (h : Keyed sections) (name : List Char)
    (hoptions : (options.map Prod.fst).Nodup) : Keyed (Dict.set sections name options) := by
  intro sect hsect
  rcases Dict.mem_set hsect with rfl | ⟨hold, -⟩
  · exact hoptions
  · exact h sect hold

theorem keyed_append (h : Keyed r.gathered) (sect option line : List Char) :
    Keyed (r.append sect option line).gathered :=
  h.set sect (Dict.nodup_set (h.nodup_get sect) _ _)

theorem keyed_header (h : Keyed r.gathered) (hread : r.header value = .ok r') :
    Keyed r'.gathered := by
  unfold Reader.header at hread
  split at hread
  next name _ =>
    split_ifs at hread
    · obtain rfl := Except.ok.inj hread
      exact h
    · obtain rfl := Except.ok.inj hread
      exact h.set name List.nodup_nil
  next =>
    split at hread
    next => cases hread
    next sect _ =>
      split at hread
      next =>
        obtain rfl := Except.ok.inj hread
        exact h
      next option optval _ =>
        split_ifs at hread
        obtain rfl := Except.ok.inj hread
        exact h.set sect (Dict.nodup_set (h.nodup_get sect) _ _)

theorem keyed_line (h : Keyed r.gathered) (hread : r.line line = .ok r') : Keyed r'.gathered := by
  have hheader : ∀ level, Keyed { r with indentLevel := level }.gathered := fun _ => h
  unfold Reader.line at hread
  split at hread
  next =>
    obtain rfl := Except.ok.inj hread
    exact h
  next =>
    split at hread
    next =>
      split at hread
      next sect option _ =>
        obtain rfl := Except.ok.inj hread
        exact keyed_append h sect option []
      next =>
        obtain rfl := Except.ok.inj hread
        exact h
    next =>
      split at hread
      next sect option _ =>
        split at hread
        next =>
          obtain rfl := Except.ok.inj hread
          exact keyed_append h sect option _
        next => exact keyed_header (hheader _) hread
      next => exact keyed_header (hheader _) hread

theorem keyed_foldlM {lines : List (List Char)} (h : Keyed r.gathered)
    (hread : lines.foldlM Reader.line r = .ok r') : Keyed r'.gathered := by
  induction lines generalizing r with
  | nil =>
    obtain rfl := Except.ok.inj hread
    exact h
  | cons line lines ih =>
    rw [List.foldlM_cons] at hread
    rcases hline : r.line line with error | next
    · rw [hline] at hread
      cases hread
    · rw [hline] at hread
      exact ih (keyed_line h hline) hread

/-- A text that has a key twice in a section is not read. -/
theorem keyed_read {text : List Char} {p : Parsed} (h : read text = .ok p) : Keyed p.sections := by
  unfold read at h
  rcases hlines : (linesOf text).foldlM Reader.line Reader.start with error | r
  · rw [hlines] at h
    cases h
  · rw [hlines] at h
    change (if r.failed then _ else _) = _ at h
    split_ifs at h
    obtain rfl := Except.ok.inj h
    have hstart : Keyed Reader.start.gathered := by
      intro sect hsect
      rw [List.mem_singleton.mp hsect]
      exact List.nodup_nil
    intro sect hsect
    obtain ⟨got, hgot, rfl⟩ := List.mem_map.mp (List.mem_of_mem_filter hsect)
    have hkeys : (joinedOptions got.2).map Prod.fst = got.2.map Prod.fst := by
      unfold joinedOptions
      rw [List.map_map]
      rfl
    rw [hkeys]
    exact keyed_foldlM hstart hlines got hgot

end Keyed

end Ini

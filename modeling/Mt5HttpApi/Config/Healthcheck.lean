import Mathlib.Data.List.Chain
import Mt5HttpApi.Config.VmGroups
import Mt5HttpApi.Lib.Awk

/-!
# The ports that the healthcheck probes

`scripts/healthcheck.sh` looks for the ports of its VM in `config.yaml` with an awk program, line by
line, where `check_health.py` and `start.bat` ask `config_helper.py`, which reads the file as YAML.

- `probes_of_legible`: when the two find the same ports;
- `not_probes`: the example of the README, where awk takes the comments for parts of the values.
-/

namespace Config

namespace Healthcheck

/-! ## The awk program -/

/-- `/^"?key"?[[:space:]]*:/`. -/
def keyAt (key s : List Char) : Bool :=
  let s := Awk.dropQuote s
  key.isPrefixOf s &&
    ((Awk.dropQuote (s.drop key.length)).dropWhile Awk.isSpace).head? = some ':'

/-- `/^[[:space:]]*"?key"?[[:space:]]*:/`. -/
def isKeyLine (key line : List Char) : Bool := keyAt key (line.dropWhile Awk.isSpace)

/-- `/^[[:space:]]*-[[:space:]]*"?broker"?[[:space:]]*:/`. -/
def isRecordLine (line : List Char) : Bool :=
  let s := line.dropWhile Awk.isSpace
  s.head? = some '-' && keyAt "broker".toList (s.tail.dropWhile Awk.isSpace)

/-- `clean`. -/
def clean (s : List Char) : List Char := Awk.unquote (Awk.trim s)

/-- `value`. -/
def value (line : List Char) : List Char :=
  let v := if ':' ∈ line then (line.dropWhile (· ≠ ':')).tail else line
  clean (Awk.dropComma v)

/-- The subscript of `allowed` for a line of the group file. -/
def groupIndex (line : List Char) : Option (List Char) :=
  match Awk.fields (line.takeWhile (· ≠ '#')) with
  | broker :: account :: rest =>
    some (Awk.index broker account (rest.head?.getD defaultInstance.toList))
  | _ => none

/-- The subscripts of `allowed` after the group file is read. `have_group` is set if there are
any. -/
def allowed (group : List Char) : List (List Char) := (Awk.records group).filterMap groupIndex

/-- The variables of the program, and the ports it has printed. -/
structure Scan where
  broker : List Char
  account : List Char
  inst : List Char
  port : List Char
  printed : List (List Char)
  deriving DecidableEq

namespace Scan

/-- No variable is set at the start. -/
def start : Scan := ⟨[], [], [], [], []⟩

/-- The record of the variables is one of the VM's. -/
def selected (s : Scan) (allowed : List (List Char)) : Bool :=
  allowed = [] || decide (Awk.index s.broker s.account
    (if s.inst = [] then defaultInstance.toList else s.inst) ∈ allowed)

/-- `emit`. -/
def emit (s : Scan) (allowed : List (List Char)) : Scan :=
  if s.port = [] then s
  else if s.port ∈ s.printed then s
  else if s.selected allowed then { s with printed := s.printed ++ [s.port] }
  else s

/-- What the program does at a line. -/
def line (allowed : List (List Char)) (s : Scan) (line : List Char) : Scan :=
  if isRecordLine line then ⟨value line, [], [], [], (s.emit allowed).printed⟩
  else if isKeyLine "account".toList line then { s with account := value line }
  else if isKeyLine "instance".toList line then { s with inst := value line }
  else if isKeyLine "port".toList line then { s with port := value line }
  else s

/-- What the program does at some lines. -/
def lines (allowed : List (List Char)) (s : Scan) (lines : List (List Char)) : Scan :=
  lines.foldl (line allowed) s

end Scan

/-- `PORTS`, as it is printed for the group file and the lines of `config.yaml`. -/
def ports (group : List Char) (config : List (List Char)) : List Char :=
  ((Scan.start.lines (allowed group) config).emit (allowed group)).printed.flatMap
    fun port => port ++ ['\n']

/-- A character that the shell splits words at. -/
def isIfs (c : Char) : Bool := c ∈ [' ', '\t', '\n']

/-- The ports that are probed: `for p in $PORTS`. -/
def probed (group : List Char) (config : List (List Char)) : List (List Char) :=
  ((ports group config).splitOnP isIfs).filter (· ≠ [])

/-! ## The terminals as YAML -/

/-- A blank between the parts of a line. -/
def blank (c : Char) : Bool := c = ' ' || c = '\t'

/-- A character that a file of YAML may have in a line. -/
def printable (c : Char) : Bool :=
  let n := c.toNat
  n == 9 || (32 ≤ n && n ≤ 0x7E) || n == 0x85 || 0xA0 ≤ n

/-- How a plain scalar begins. -/
def plainStart : List Char → Bool
  | [] => true
  | c :: rest => c ∉ ",[]\x7b\x7d#&*!|>'\"%@\x60".toList && !blank c &&
    (c ∉ "-?:".toList || rest.head?.any fun d => !blank d)

/-- A plain scalar on one line, or nothing, which is null. -/
def plainScalar (text : List Char) : Bool :=
  plainStart text &&
    decide (text.IsChain fun c d => (c = ':' → blank d = false) ∧ (d = '#' → blank c = false)) &&
    text.getLast?.all fun c => c ≠ ':' && !blank c

/-- What stands between the quotes of a scalar in double quotes on one line. -/
def quotedScalar : List Char → Bool
  | [] => true
  | '\\' :: _ :: rest => quotedScalar rest
  | ['\\'] => false
  | '"' :: _ => false
  | _ :: rest => quotedScalar rest

/-- A scalar as it is written. -/
inductive Written
  | plain (text : List Char)
  | quoted (raw : List Char)
  deriving DecidableEq

namespace Written

/-- The characters of the file. -/
def text : Written → List Char
  | .plain text => text
  | .quoted raw => '"' :: (raw ++ ['"'])

/-- The characters without the quotes. -/
def content : Written → List Char
  | .plain text => text
  | .quoted raw => raw

/-- It can stand in a file of YAML. -/
def valid : Written → Bool
  | .plain text => text.all printable && plainScalar text
  | .quoted raw => raw.all printable && quotedScalar raw

end Written

/-- A pair of a mapping, and what stands between its parts on the line and after them. -/
structure Item where
  key : List Char
  gap : List Char
  value : Written
  tail : List Char
  comment : Option (List Char)
  key_valid : (Written.plain key).valid = true
  value_valid : value.valid = true
  blanks : ∀ c ∈ gap ++ tail, blank c = true
  apart : gap ≠ [] ∨ value = .plain [] ∧ comment = none
  comment_apart : comment ≠ none → tail ≠ [] ∨ value = .plain []

/-- What the line of a pair has from the key on. -/
def Item.text (item : Item) : List Char :=
  item.key ++ ':' :: (item.gap ++ (item.value.text ++ (item.tail ++
    item.comment.elim [] fun comment => '#' :: comment)))

/-- A line without a pair: it is blank, or has a comment only. -/
structure Remark where
  front : List Char
  comment : Option (List Char)
  blanks : ∀ c ∈ front, blank c = true

def Remark.text (remark : Remark) : List Char :=
  remark.front ++ remark.comment.elim [] fun comment => '#' :: comment

/-- A line of an entry below its first. -/
inductive Row
  | pair (item : Item)
  | note (remark : Remark)

/-- An entry of the list: the pair on the line of the dash, and the lines below. -/
structure Entry where
  first : Item
  rest : List Row

/-- The file: the lines up to the first entry, the entries, and the lines after them. A dash stands
`indent` blanks from the margin, and a pair `gap + 1` blanks from the dash. -/
structure Document where
  before : List (List Char)
  indent : Nat
  gap : Nat
  entries : List Entry
  after : List (List Char)

/-- A line below the first of an entry. -/
def Row.line (indent : Nat) : Row → List Char
  | .pair item => List.replicate indent ' ' ++ item.text
  | .note remark => remark.text

/-- The lines of an entry. -/
def Entry.lines (indent gap : Nat) (e : Entry) : List (List Char) :=
  (List.replicate indent ' ' ++ '-' :: (List.replicate (gap + 1) ' ' ++ e.first.text)) ::
    e.rest.map fun row => row.line (indent + 1 + (gap + 1))

def Document.lines (doc : Document) : List (List Char) :=
  doc.before ++ doc.entries.flatMap (Entry.lines doc.indent doc.gap) ++ doc.after

/-- What the YAML library makes of a scalar: of the text of a plain one, and of what stands between
the quotes. -/
structure Loader where
  plain : List Char → Yaml
  quoted : List Char → List Char

def Loader.load (loader : Loader) : Written → Yaml
  | .plain text => loader.plain text
  | .quoted raw => .str (loader.quoted raw)

def Row.item? : Row → Option Item
  | .pair item => some item
  | .note _ => none

/-- The value of a key: a later pair replaces an earlier one. -/
def lookup (items : List Item) (key : List Char) : Option Written :=
  items.foldl (fun found item => if item.key = key then some item.value else found) none

namespace Entry

def items (e : Entry) : List Item := e.first :: e.rest.filterMap Row.item?

def get (e : Entry) (key : List Char) : Option Written := lookup e.items key

/-- The entry as it is read, with its port, or `none` if a key is missing that is looked up. -/
def load (loader : Loader) (e : Entry) : Option (Terminal × Yaml) := do
  let broker ← e.get "broker".toList
  let account ← e.get "account".toList
  let port ← e.get "port".toList
  some (⟨loader.load broker, loader.load account, (e.get "instance".toList).map loader.load,
    (e.get "vm".toList).map loader.load⟩, loader.load port)

end Entry

/-- The terminals of the file, with their ports. -/
def Document.load (loader : Loader) (doc : Document) : Option (List (Terminal × Yaml)) :=
  doc.entries.mapM (Entry.load loader)

/-- The healthcheck probes the ports of the terminals that the group file selects. -/
def Probes (loader : Loader) (doc : Document) (group : List Char) : Prop :=
  ∀ terms, doc.load loader = some terms → ∀ port, port ∈ probed group doc.lines ↔
    ∃ t ∈ terms, inGroup t.1 (vmGroupFilter (some group)) = true ∧ t.2.toText = port

/-! ## Where they find the same -/

/-- awk takes no account of the line. -/
def quiet (line : List Char) : Bool :=
  !isRecordLine line && !isKeyLine "account".toList line && !isKeyLine "instance".toList line &&
    !isKeyLine "port".toList line

/-- No comment follows the value, and a plain value does not end with a quote or a comma. -/
structure Item.Bare (item : Item) : Prop where
  comment : item.comment = none
  last : ∀ text, item.value = .plain text →
    text.getLast? ≠ some '"' ∧ text.getLast? ≠ some ','

/-- An entry begins with the broker, its port is one word that is bare and that YAML reads as it is
written; and so are, if the group file has a line, the broker and the account, which YAML reads as
strings, and the instance. -/
structure Entry.Legible (loader : Loader) (grouped : Prop) (indent : Nat) (e : Entry) : Prop where
  first : e.first.key = "broker".toList
  once : ∀ item, .pair item ∈ e.rest → item.key ≠ "broker".toList
  others : ∀ item, .pair item ∈ e.rest →
    item.key ∉ ["account".toList, "instance".toList, "port".toList] →
      quiet (List.replicate indent ' ' ++ item.text) = true
  port : ∀ item ∈ e.items, item.key = "port".toList → item.Bare ∧
    (loader.load item.value).toText = item.value.content ∧ item.value.content ≠ [] ∧
      ∀ c ∈ item.value.content, isIfs c = false
  names : grouped → ∀ item ∈ e.items, item.key ∈ ["broker".toList, "account".toList] →
    item.Bare ∧ loader.load item.value = .str item.value.content
  inst : grouped → ∀ item ∈ e.items, item.key = "instance".toList → item.Bare ∧
    ∀ t : Terminal, t.inst = some (loader.load item.value) → t.instanceName =
      if item.value.content = [] then defaultInstance.toList else item.value.content

/-- Every entry is legible, and so is the group file, which has no other white space than blanks,
tabs and line ends; and no other line reads like a port, nor, after the entries and if the group
file has a line, like an account or an instance. A line before the entries may read like a port if
the group file has a line, and none of them reads like the beginning of an entry. -/
structure Document.Legible (loader : Loader) (doc : Document) (group : List Char) : Prop where
  spaces : ∀ c ∈ group, Text.isSpace c = true → c ∈ [' ', '\t', '\n']
  before : (∀ line ∈ doc.before, isKeyLine "port".toList line = false) ∨
    vmGroupFilter (some group) ≠ none ∧ ∀ line ∈ doc.before, isRecordLine line = false
  entries : ∀ e ∈ doc.entries,
    e.Legible loader (vmGroupFilter (some group) ≠ none) (doc.indent + 1 + (doc.gap + 1))
  after : ∀ line ∈ doc.after, isKeyLine "port".toList line = false ∧
    (vmGroupFilter (some group) ≠ none → isKeyLine "account".toList line = false ∧
      isKeyLine "instance".toList line = false)

/-! ## The group file -/

theorem splitOnP_congr {p q : Char → Bool} {l : List Char} (h : ∀ c ∈ l, p c = q c) :
    l.splitOnP p = l.splitOnP q := by
  induction l using Text.sepInduction (p := p) with
  | last piece hpiece =>
    have hpiece' : ∀ c ∈ piece, q c = false := fun c hc => (h c hc).symm.trans (hpiece c hc)
    rw [List.splitOnP_eq_singleton hpiece, List.splitOnP_eq_singleton hpiece']
  | before piece sep rest hpiece hsep ih =>
    have hpiece' : ∀ c ∈ piece, q c = false := fun c hc =>
      (h c (List.mem_append_left _ hc)).symm.trans (hpiece c hc)
    have hsep' : q sep = true := (h sep (by simp)).symm.trans hsep
    rw [List.splitOnP_append_cons_of_forall_mem hpiece _ hsep,
      List.splitOnP_append_cons_of_forall_mem hpiece' _ hsep', ih fun c hc => h c (by simp [hc])]

variable {group : List Char}

/-- What the group file has no other white space than. -/
theorem spaces_cases (h : ∀ c ∈ group, Text.isSpace c = true → c ∈ [' ', '\t', '\n']) {c : Char}
    (hc : c ∈ group) :
    c = ' ' ∨ c = '\t' ∨ c = '\n' ∨ Text.isSpace c = false := by
  cases hspace : Text.isSpace c with
  | false => simp
  | true => simpa using h c hc hspace

/-- awk and Python cut the group file into the same lines. -/
theorem records_eq (h : ∀ c ∈ group, Text.isSpace c = true → c ∈ [' ', '\t', '\n']) :
    Awk.records group = splitLines (openText group) := by
  have hreturn : '\r' ∉ group := fun hc => absurd (h _ hc (by decide)) (by decide)
  have hbreak : ∀ c ∈ group, decide (c = '\n') = isLineBreak c := by
    intro c hc
    rcases spaces_cases h hc with rfl | rfl | rfl | hspace
    · decide
    · decide
    · decide
    · have hline : isLineBreak c = false := by
        by_contra hline
        rw [isSpace_of_isLineBreak (by simpa using hline)] at hspace
        cases hspace
      have hne : c ≠ '\n' := by
        rintro rfl
        cases hspace
      rw [hline, decide_eq_false hne]
  rw [openText, Text.replacePair_of_not_mem hreturn, Text.replaceChar_of_not_mem hreturn,
    Awk.records, splitLines, splitOnP_congr hbreak]

/-- A line of the group file is part of it. -/
theorem mem_of_mem_records {line : List Char} (h : line ∈ Awk.records group) :
    ∀ c ∈ line, c ∈ group := by
  have hpiece : line ∈ group.splitOnP (· = '\n') := by
    rw [Awk.records] at h
    split at h
    · exact List.dropLast_subset _ h
    · exact h
  exact fun c hc => (Text.mem_of_mem_splitOnP hpiece c hc).2

theorem isSpace_of_awk {c : Char} (h : Awk.isSpace c = true) : Text.isSpace c = true := by
  simp only [Awk.isSpace, decide_eq_true_eq] at h
  revert c
  decide

/-- awk and Python cut a line of the group file into the same words. -/
theorem fields_eq (h : ∀ c ∈ group, Text.isSpace c = true → c ∈ [' ', '\t', '\n'])
    {line : List Char} (hline : ∀ c ∈ line, c ∈ group) : Awk.fields line = words line := by
  have hspace : ∀ c ∈ line, Awk.isSpace c = Text.isSpace c := by
    intro c hc
    rcases spaces_cases h (hline c hc) with rfl | rfl | rfl | hspace
    · decide
    · decide
    · decide
    · rw [hspace]
      by_contra hawk
      rw [isSpace_of_awk (by simpa using hawk)] at hspace
      cases hspace
  rw [Awk.fields, words, splitOnP_congr hspace]

/-- The triple of a line of the group file as a subscript. -/
def indexOf (name : List Char × List Char × List Char) : List Char :=
  Awk.index name.1 name.2.1 name.2.2

/-- awk reads the group file as `_vm_group_filter` does. -/
theorem allowed_eq (h : ∀ c ∈ group, Text.isSpace c = true → c ∈ [' ', '\t', '\n']) :
    allowed group = ((splitLines (openText group)).filterMap groupFields).map indexOf := by
  rw [allowed, ← records_eq h, List.map_filterMap]
  refine List.filterMap_congr fun line hline => ?_
  have hfields : Awk.fields (line.takeWhile (· ≠ '#')) = words (line.takeWhile (· ≠ '#')) :=
    fields_eq h fun c hc => mem_of_mem_records hline c (List.takeWhile_subset _ hc)
  rw [groupIndex, groupFields, hfields]
  rcases words (line.takeWhile (· ≠ '#')) with - | ⟨broker, - | ⟨account, rest⟩⟩
  · rfl
  · rfl
  · rfl

/-- No name in the group file has the separator of subscripts in it, and none begins empty. -/
theorem subsep_not_mem_fields (h : ∀ c ∈ group, Text.isSpace c = true → c ∈ [' ', '\t', '\n'])
    {name : List Char × List Char × List Char}
    (hname : name ∈ (splitLines (openText group)).filterMap groupFields) :
    name.1 ≠ [] ∧ Awk.subsep ∉ name.1 ∧ Awk.subsep ∉ name.2.1 ∧ Awk.subsep ∉ name.2.2 := by
  obtain ⟨line, hline, hfields⟩ := List.mem_filterMap.mp hname
  have hword : ∀ word ∈ words (line.takeWhile (· ≠ '#')), Awk.subsep ∉ word := by
    intro word hword hmem
    have hline' := (Text.mem_of_mem_splitOnP (List.mem_of_mem_filter hword) _ hmem).2
    rw [← records_eq h] at hline
    exact absurd (h _ (mem_of_mem_records hline _ (List.takeWhile_subset _ hline')) (by decide))
      (by decide)
  rw [groupFields] at hfields
  split at hfields
  next broker account rest hwords =>
    obtain rfl := Option.some.inj hfields
    have hne : broker ≠ [] := by
      have hbroker : broker ∈ words (line.takeWhile (· ≠ '#')) := by
        rw [hwords]
        exact List.mem_cons_self
      simpa using (List.mem_filter.mp hbroker).2
    rw [hwords] at hword
    refine ⟨hne, hword _ (by simp), hword _ (by simp), ?_⟩
    cases rest with
    | nil => exact (by decide : Awk.subsep ∉ defaultInstance.toList)
    | cons inst rest => exact hword inst (by simp)
  next => cases hfields

/-- The variables are those of a terminal. -/
structure Scan.Names (s : Scan) (t : Terminal) : Prop where
  broker : t.broker = .str s.broker
  account : t.account = .str s.account
  inst : t.instanceName = if s.inst = [] then defaultInstance.toList else s.inst
  subsep : Awk.subsep ∉ s.broker ∧ Awk.subsep ∉ s.account ∧ Awk.subsep ∉ s.inst

/-- awk selects the record of a terminal as `_in_group` does the terminal. -/
theorem selected_eq (h : ∀ c ∈ group, Text.isSpace c = true → c ∈ [' ', '\t', '\n']) {s : Scan}
    {t : Terminal} (hs : vmGroupFilter (some group) ≠ none → s.Names t) :
    s.selected (allowed group) = inGroup t (vmGroupFilter (some group)) := by
  have hsubsep := fun name => @subsep_not_mem_fields _ h name
  rw [allowed_eq h]
  simp only [vmGroupFilter] at hs ⊢
  generalize (splitLines (openText group)).filterMap groupFields = names at hs hsubsep
  by_cases hnone : names = []
  · rw [hnone]
    rfl
  obtain ⟨hbroker, haccount, hinst, hb, ha, hi⟩ := hs (by simp [hnone])
  have hi' : Awk.subsep ∉ t.instanceName := by
    rw [hinst]
    split
    next => exact (by decide : Awk.subsep ∉ defaultInstance.toList)
    next => exact hi
  rw [if_neg hnone, Scan.selected, inGroup, ← hinst, Bool.eq_iff_iff, List.any_eq_true]
  simp only [List.map_eq_nil_iff, hnone, decide_false, Bool.false_or, decide_eq_true_eq,
    List.mem_map]
  refine exists_congr fun name => and_congr_right fun hname => ?_
  have hinj :
      Awk.index name.1 name.2.1 name.2.2 = Awk.index s.broker s.account t.instanceName ↔ _ :=
    Awk.index_inj (by simp [hsubsep name hname, hb, ha, hi'])
  rw [indexOf, hinj, hbroker, haccount]
  simp only [Yaml.str.injEq, eq_comm]

/-! ## The lines -/

theorem isSpace_of_blank {c : Char} (h : blank c = true) : Awk.isSpace c = true := by
  simp only [blank, Bool.or_eq_true, decide_eq_true_eq] at h
  rcases h with rfl | rfl <;> decide

/-- Blanks before a text are passed over. -/
theorem dropWhile_blanks {front s : List Char} (hfront : ∀ c ∈ front, Awk.isSpace c = true)
    {c : Char} (hs : s.head? = some c) (hc : Awk.isSpace c = false) :
    (front ++ s).dropWhile Awk.isSpace = s := by
  rw [List.dropWhile_append_of_pos hfront]
  obtain ⟨rest, rfl⟩ : ∃ rest, s = c :: rest := List.head?_eq_some_iff.mp hs
  rw [List.dropWhile_cons_of_neg (by simp [hc])]

/-- The keys that awk looks for. -/
def keys : List (List Char) :=
  ["broker".toList, "account".toList, "instance".toList, "port".toList]

variable {item : Item} {key : List Char} {indent gap : Nat}

/-- A key begins with a letter, and has no colon. -/
theorem head_of_mem_keys (h : key ∈ keys) : ∃ c, key.head? = some c ∧ Awk.isSpace c = false ∧
    c ≠ '-' ∧ ':' ∉ key := by
  simp only [keys, List.mem_cons, List.not_mem_nil, or_false] at h
  rcases h with rfl | rfl | rfl | rfl
  · exact ⟨'b', by decide⟩
  · exact ⟨'a', by decide⟩
  · exact ⟨'i', by decide⟩
  · exact ⟨'p', by decide⟩

/-- A key is told from the others. -/
theorem keyAt_append (h : key ∈ keys) {key' : List Char} (h' : key' ∈ keys) (rest : List Char) :
    keyAt key (key' ++ ':' :: rest) = decide (key = key') := by
  simp only [keys, List.mem_cons, List.not_mem_nil, or_false] at h h'
  rcases h with rfl | rfl | rfl | rfl <;> rcases h' with rfl | rfl | rfl | rfl <;> rfl

theorem Item.head_text (h : item.key ∈ keys) : ∃ c, item.text.head? = some c ∧
    Awk.isSpace c = false ∧ c ≠ '-' := by
  obtain ⟨c, hhead, hspace, hdash, -⟩ := head_of_mem_keys h
  refine ⟨c, ?_, hspace, hdash⟩
  rw [Item.text, List.head?_append, hhead]
  rfl

theorem dropWhile_replicate (h : item.key ∈ keys) :
    (List.replicate indent ' ' ++ item.text).dropWhile Awk.isSpace = item.text := by
  obtain ⟨c, hhead, hspace, -⟩ := Item.head_text h
  refine dropWhile_blanks (fun d hd => ?_) hhead hspace
  rw [List.eq_of_mem_replicate hd]
  decide

/-- awk finds the key of a pair. -/
theorem isKeyLine_text (h : item.key ∈ keys) (hkey : key ∈ keys) :
    isKeyLine key (List.replicate indent ' ' ++ item.text) = decide (key = item.key) := by
  rw [isKeyLine, dropWhile_replicate h, Item.text, keyAt_append hkey h]

/-- A record begins with a dash. -/
theorem isRecordLine_text (h : item.key ∈ keys) :
    isRecordLine (List.replicate indent ' ' ++ item.text) = false := by
  obtain ⟨c, hhead, -, hdash⟩ := Item.head_text h
  simp [isRecordLine, dropWhile_replicate h, hhead, hdash]

theorem isRecordLine_first (indent gap : Nat) (h : item.key = "broker".toList) : isRecordLine
    (List.replicate indent ' ' ++ '-' :: (List.replicate (gap + 1) ' ' ++ item.text)) = true := by
  have hkeys : item.key ∈ keys := by
    rw [h]
    decide
  have hdash : (List.replicate indent ' ' ++
      '-' :: (List.replicate (gap + 1) ' ' ++ item.text)).dropWhile Awk.isSpace =
        '-' :: (List.replicate (gap + 1) ' ' ++ item.text) := by
    refine dropWhile_blanks (fun d hd => ?_) rfl (by decide)
    rw [List.eq_of_mem_replicate hd]
    decide
  rw [isRecordLine, hdash]
  simp only [List.head?_cons, List.tail_cons, dropWhile_replicate hkeys]
  rw [Item.text, keyAt_append (by decide) hkeys, h]
  rfl

/-- A comment on a line of its own, and a blank line, are passed over. -/
theorem quiet_remark (remark : Remark) : quiet remark.text = true := by
  have hfront : ∀ c ∈ remark.front, Awk.isSpace c = true :=
    fun c hc => isSpace_of_blank (remark.blanks c hc)
  have hdrop : remark.text.dropWhile Awk.isSpace =
      remark.comment.elim [] fun comment => '#' :: comment := by
    rw [Remark.text, List.dropWhile_append_of_pos hfront]
    cases remark.comment <;> rfl
  simp only [quiet, isRecordLine, isKeyLine, hdrop]
  cases remark.comment <;> rfl

theorem isSpace_of_printable {c : Char} (hprint : printable c = true) (hblank : blank c = false) :
    Awk.isSpace c = false := by
  by_contra hspace
  simp only [Awk.isSpace, Bool.not_eq_false, decide_eq_true_eq, List.mem_cons, List.not_mem_nil,
    or_false] at hspace
  rcases hspace with rfl | rfl | rfl | rfl | rfl | rfl
  · cases hblank
  · cases hblank
  all_goals cases hprint

/-- A plain scalar has no blank at its ends, and does not begin with a quote. -/
theorem trimmed_plain {text : List Char} (h : (Written.plain text).valid = true) :
    Awk.Trimmed text ∧ text.head? ≠ some '"' := by
  simp only [Written.valid, plainScalar, Bool.and_eq_true, List.all_eq_true, Option.all_eq_true]
    at h
  obtain ⟨hprint, ⟨hstart, -⟩, hlast⟩ := h
  refine ⟨⟨fun c hc => ?_, fun c hc => ?_⟩, fun hquote => ?_⟩
  · obtain ⟨rest, rfl⟩ := List.head?_eq_some_iff.mp hc
    simp only [plainStart, Bool.and_eq_true, Bool.not_eq_true'] at hstart
    exact isSpace_of_printable (hprint c List.mem_cons_self) hstart.1.2
  · have hblank := hlast c hc
    simp only [ne_eq, Bool.not_eq_true'] at hblank
    exact isSpace_of_printable (hprint c (List.mem_of_getLast? hc)) hblank.2
  · obtain ⟨rest, rfl⟩ := List.head?_eq_some_iff.mp hquote
    cases hstart

/-- awk reads the text of a value that is bare without its quotes. -/
theorem unquote_text (hbare : item.Bare) : Awk.Trimmed item.value.text ∧
    item.value.text.getLast? ≠ some ',' ∧ Awk.unquote item.value.text = item.value.content := by
  have hvalid := item.value_valid
  have hlast := hbare.last
  generalize item.value = w at hvalid hlast
  cases w with
  | plain text =>
    obtain ⟨htrimmed, hquote⟩ := trimmed_plain hvalid
    obtain ⟨hquote', hcomma⟩ := hlast text rfl
    exact ⟨htrimmed, hcomma, Awk.unquote_of_bare hquote hquote'⟩
  | quoted raw =>
    have hend : (Written.quoted raw).text.getLast? = some '"' := by
      rw [Written.text, ← List.cons_append, List.getLast?_concat]
    refine ⟨⟨fun c hc => ?_, fun c hc => ?_⟩, ?_, Awk.unquote_quoted raw⟩
    · obtain rfl : '"' = c := by simpa [Written.text] using hc
      decide
    · rw [hend] at hc
      obtain rfl := Option.some.inj hc
      decide
    · rw [hend]
      decide

/-- awk reads the value of a pair that is bare. -/
theorem value_text (h : item.key ∈ keys) (hbare : item.Bare) (front : List Char)
    (hfront : ':' ∉ front) : value (front ++ item.text) = item.value.content := by
  obtain ⟨-, -, -, -, hcolon⟩ := head_of_mem_keys h
  obtain ⟨htrimmed, hcomma, hunquote⟩ := unquote_text hbare
  have hblanks : ∀ c ∈ item.gap ++ item.tail, Awk.isSpace c = true :=
    fun c hc => isSpace_of_blank (item.blanks c hc)
  have hline : front ++ item.text =
      (front ++ item.key) ++ ':' :: (item.gap ++ (item.value.text ++ item.tail)) := by
    rw [Item.text, hbare.comment]
    simp
  have hbefore : ∀ c ∈ front ++ item.key, decide (c ≠ ':') = true := by
    intro c hc
    have hnot : ':' ∉ front ++ item.key := by simp [hfront, hcolon]
    simpa using fun heq : c = ':' => hnot (heq ▸ hc)
  -- the value begins behind the first colon of the line
  have htail : ((front ++ item.text).dropWhile (· ≠ ':')).tail =
      item.gap ++ (item.value.text ++ item.tail) := by
    rw [hline, List.dropWhile_append_of_pos hbefore, List.dropWhile_cons_of_neg (by simp),
      List.tail_cons]
  rw [value, if_pos (by simp [hline]), htail, clean,
    Awk.clean_pad (fun c hc => hblanks c (List.mem_append_left _ hc))
      (fun c hc => hblanks c (List.mem_append_right _ hc)) htrimmed hcomma, hunquote]

/-! ## The entries -/

variable {items : List Item} {s : Scan} {grouped : Prop} {loader : Loader}
  {index : List (List Char)}

theorem Scan.lines_nil : s.lines index [] = s := rfl

theorem Scan.lines_cons (l : List Char) (ls : List (List Char)) :
    s.lines index (l :: ls) = (s.line index l).lines index ls := rfl

theorem Scan.lines_append (ls ls' : List (List Char)) :
    s.lines index (ls ++ ls') = (s.lines index ls).lines index ls' :=
  List.foldl_append

theorem lookup_concat (items : List Item) (item : Item) (key : List Char) :
    lookup (items ++ [item]) key =
      if item.key = key then some item.value else lookup items key := by
  rw [lookup, List.foldl_append]
  rfl

/-- The value of a key is the one of a pair. -/
theorem mem_of_lookup {w : Written} (h : lookup items key = some w) :
    ∃ item ∈ items, item.key = key ∧ item.value = w := by
  induction items using List.reverseRecOn with
  | nil => cases h
  | append_singleton items item ih =>
    rw [lookup_concat] at h
    split at h
    next hkey => exact ⟨item, by simp, hkey, Option.some.inj h⟩
    next =>
      obtain ⟨item', hmem, hitem'⟩ := ih h
      exact ⟨item', List.mem_append_left _ hmem, hitem'⟩

/-- The variable of a key is what is written for it in the pairs so far. -/
def Has (items : List Item) (key text : List Char) : Prop :=
  text = (lookup items key).elim [] Written.content

/-- The variables are those of the pairs so far: the port, and the others if they matter. -/
structure Scan.Tracks (s : Scan) (grouped : Prop) (items : List Item) : Prop where
  port : Has items "port".toList s.port
  broker : grouped → Has items "broker".toList s.broker
  account : grouped → Has items "account".toList s.account
  inst : grouped → Has items "instance".toList s.inst

theorem has_concat_self (h : item.key = key) : Has (items ++ [item]) key item.value.content := by
  rw [Has, lookup_concat, if_pos h]
  rfl

theorem has_concat {text : List Char} (h : item.key ≠ key) :
    Has (items ++ [item]) key text ↔ Has items key text := by
  rw [Has, Has, lookup_concat, if_neg h]

/-- What awk needs of a pair below the first of its entry. -/
structure Item.Reads (item : Item) (grouped : Prop) (indent : Nat) : Prop where
  once : item.key ≠ "broker".toList
  others : item.key ∉ ["account".toList, "instance".toList, "port".toList] →
    quiet (List.replicate indent ' ' ++ item.text) = true
  port : item.key = "port".toList → item.Bare
  account : grouped → item.key = "account".toList → item.Bare
  inst : grouped → item.key = "instance".toList → item.Bare

theorem Scan.line_of_quiet {l : List Char} (h : quiet l = true) : s.line index l = s := by
  simp only [quiet, Bool.and_eq_true, Bool.not_eq_true'] at h
  rw [Scan.line, h.1.1.1, h.1.1.2, h.1.2, h.2]
  rfl

/-- What awk does at the line of a pair below the first of its entry. -/
theorem Scan.line_pair (h : item.key ∈ keys) {l : List Char}
    (hl : l = List.replicate indent ' ' ++ item.text) : s.line index l =
      if "account".toList = item.key then { s with account := value l }
      else if "instance".toList = item.key then { s with inst := value l }
      else if "port".toList = item.key then { s with port := value l }
      else s := by
  subst hl
  rw [Scan.line, isRecordLine_text h, isKeyLine_text h (by decide), isKeyLine_text h (by decide),
    isKeyLine_text h (by decide), if_neg Bool.false_ne_true]
  simp only [decide_eq_true_eq]

/-- One more pair is read. -/
theorem Scan.Tracks.pair (index : List (List Char)) (hs : s.Tracks grouped items)
    (h : item.Reads grouped indent) :
    (s.line index (List.replicate indent ' ' ++ item.text)).Tracks grouped (items ++ [item]) ∧
      (s.line index (List.replicate indent ' ' ++ item.text)).printed = s.printed := by
  have hvalue : item.key ∈ keys → item.Bare →
      value (List.replicate indent ' ' ++ item.text) = item.value.content :=
    fun hkey hbare => value_text hkey hbare _ (by simp [List.mem_replicate])
  have hbroker := hs.broker
  by_cases hmem : item.key ∈ ["account".toList, "instance".toList, "port".toList]
  swap
  · -- no variable is of this key
    rw [Scan.line_of_quiet (h.others hmem)]
    simp only [List.mem_cons, List.not_mem_nil, or_false, not_or] at hmem
    exact ⟨⟨(has_concat hmem.2.2).mpr hs.port, fun hg => (has_concat h.once).mpr (hs.broker hg),
      fun hg => (has_concat hmem.1).mpr (hs.account hg),
      fun hg => (has_concat hmem.2.1).mpr (hs.inst hg)⟩, rfl⟩
  have hkeys : item.key ∈ keys := List.mem_cons_of_mem _ hmem
  rw [Scan.line_pair hkeys rfl]
  simp only [List.mem_cons, List.not_mem_nil, or_false] at hmem
  rcases hmem with hkey | hkey | hkey
  · rw [if_pos hkey.symm]
    refine ⟨⟨(has_concat (by rw [hkey]; decide)).mpr hs.port,
      fun hg => (has_concat h.once).mpr (hs.broker hg), fun hg => ?_,
      fun hg => (has_concat (by rw [hkey]; decide)).mpr (hs.inst hg)⟩, rfl⟩
    rw [hvalue hkeys (h.account hg hkey)]
    exact has_concat_self hkey
  · rw [if_neg (by rw [hkey]; decide), if_pos hkey.symm]
    refine ⟨⟨(has_concat (by rw [hkey]; decide)).mpr hs.port,
      fun hg => (has_concat h.once).mpr (hs.broker hg),
      fun hg => (has_concat (by rw [hkey]; decide)).mpr (hs.account hg), fun hg => ?_⟩, rfl⟩
    rw [hvalue hkeys (h.inst hg hkey)]
    exact has_concat_self hkey
  · rw [if_neg (by rw [hkey]; decide), if_neg (by rw [hkey]; decide), if_pos hkey.symm]
    refine ⟨⟨?_, fun hg => (has_concat h.once).mpr (hs.broker hg),
      fun hg => (has_concat (by rw [hkey]; decide)).mpr (hs.account hg),
      fun hg => (has_concat (by rw [hkey]; decide)).mpr (hs.inst hg)⟩, rfl⟩
    rw [hvalue hkeys (h.port hkey)]
    exact has_concat_self hkey

/-- The rows of an entry are read. -/
theorem Scan.Tracks.rows (index : List (List Char)) {rows : List Row}
    (h : ∀ item, .pair item ∈ rows → item.Reads grouped indent) (hs : s.Tracks grouped items) :
    (s.lines index (rows.map fun row => row.line indent)).Tracks grouped
        (items ++ rows.filterMap Row.item?) ∧
      (s.lines index (rows.map fun row => row.line indent)).printed = s.printed := by
  induction rows generalizing s items with
  | nil => simpa [Scan.lines] using hs
  | cons row rows ih =>
    have hrest : ∀ item, .pair item ∈ rows → item.Reads grouped indent :=
      fun item hitem => h item (List.mem_cons_of_mem _ hitem)
    rw [List.map_cons, Scan.lines_cons]
    cases row with
    | pair item =>
      obtain ⟨htracks, hprinted⟩ := hs.pair index (h item List.mem_cons_self)
      obtain ⟨htracks', hprinted'⟩ := ih hrest htracks
      rw [List.append_assoc] at htracks'
      exact ⟨htracks', hprinted'.trans hprinted⟩
    | note remark =>
      rw [Row.line, Scan.line_of_quiet (quiet_remark remark)]
      exact ih hrest hs

variable {e : Entry}

theorem Entry.Legible.reads (he : e.Legible loader grouped indent) {item : Item}
    (hitem : .pair item ∈ e.rest) : item.Reads grouped indent := by
  have hitems : item ∈ e.items :=
    List.mem_cons_of_mem _ (List.mem_filterMap.mpr ⟨.pair item, hitem, rfl⟩)
  exact ⟨he.once item hitem, he.others item hitem, fun hkey => (he.port item hitems hkey).1,
    fun hg hkey => (he.names hg item hitems (by simp [hkey])).1,
    fun hg hkey => (he.inst hg item hitems hkey).1⟩

/-- An entry is read: what was read before is emitted, and the variables are those of the entry. -/
theorem Scan.lines_entry (index : List (List Char))
    (he : e.Legible loader grouped (indent + 1 + (gap + 1))) (s : Scan) :
    (s.lines index (e.lines indent gap)).Tracks grouped e.items ∧
      (s.lines index (e.lines indent gap)).printed = (s.emit index).printed := by
  have hfirst := isRecordLine_first indent gap he.first
  rw [Entry.lines, Scan.lines_cons, Entry.items]
  have htracks : (s.line index (List.replicate indent ' ' ++
      '-' :: (List.replicate (gap + 1) ' ' ++ e.first.text))).Tracks grouped [e.first] := by
    rw [Scan.line, if_pos hfirst]
    have hnone : ∀ key ∈ ["account".toList, "instance".toList, "port".toList],
        Has [e.first] key [] := by
      intro key hkey
      have hne : e.first.key ≠ key := by
        rw [he.first]
        revert key
        decide
      exact (has_concat hne : Has ([] ++ [e.first]) key [] ↔ Has [] key []).mpr rfl
    refine ⟨hnone _ (by simp), fun hg => ?_, fun _ => hnone _ (by simp), fun _ => hnone _ (by simp)⟩
    have hbare := (he.names hg e.first List.mem_cons_self (by simp [he.first])).1
    have hkeys : e.first.key ∈ keys := by
      rw [he.first]
      decide
    have hvalue := value_text hkeys hbare (List.replicate indent ' ' ++
      '-' :: List.replicate (gap + 1) ' ') (by simp [List.mem_replicate])
    rw [List.append_assoc, List.cons_append] at hvalue
    rw [hvalue]
    exact (has_concat_self he.first : Has ([] ++ [e.first]) _ e.first.value.content)
  obtain ⟨hrows, hprinted⟩ := htracks.rows index (fun item hitem => he.reads hitem)
  refine ⟨hrows, hprinted.trans ?_⟩
  rw [Scan.line, if_pos hfirst]

theorem subsep_not_mem_content (item : Item) : Awk.subsep ∉ item.value.content := by
  intro hmem
  have hvalid := item.value_valid
  have hprint : ∀ c ∈ item.value.content, printable c = true := by
    generalize item.value = w at hvalid
    cases w with
    | plain text => exact List.all_eq_true.mp (Bool.and_eq_true_iff.mp hvalid).1
    | quoted raw => exact List.all_eq_true.mp (Bool.and_eq_true_iff.mp hvalid).1
  exact absurd (hprint _ hmem) (by decide)

/-- What is found of a key that an entry has. -/
theorem Has.of_get {text : List Char} {w : Written} (h : Has e.items key text)
    (hw : e.get key = some w) : ∃ item ∈ e.items, item.key = key ∧ item.value = w ∧
      text = item.value.content := by
  obtain ⟨item, hmem, hkey, rfl⟩ := mem_of_lookup hw
  refine ⟨item, hmem, hkey, rfl, ?_⟩
  rw [Has, show lookup e.items key = some item.value from hw] at h
  exact h

/-- The port and the names of an entry, as awk and YAML read them. -/
theorem Scan.Tracks.load (he : e.Legible loader grouped indent) (hs : s.Tracks grouped e.items)
    {t : Terminal × Yaml} (ht : e.load loader = some t) :
    s.port = t.2.toText ∧ (grouped → s.Names t.1) := by
  simp only [Entry.load, Option.bind_eq_bind, Option.bind_eq_some_iff, Option.some.injEq] at ht
  obtain ⟨broker, hbroker, account, haccount, port, hport, rfl⟩ := ht
  obtain ⟨item, hmem, hkey, rfl, htext⟩ := hs.port.of_get hport
  refine ⟨htext.trans (he.port item hmem hkey).2.1.symm, fun hg => ?_⟩
  obtain ⟨item₁, hmem₁, hkey₁, rfl, htext₁⟩ := (hs.broker hg).of_get hbroker
  obtain ⟨item₂, hmem₂, hkey₂, rfl, htext₂⟩ := (hs.account hg).of_get haccount
  have hnames₁ := (he.names hg item₁ hmem₁ (by simp [hkey₁])).2
  have hnames₂ := (he.names hg item₂ hmem₂ (by simp [hkey₂])).2
  have hbroker' : Awk.subsep ∉ s.broker := htext₁ ▸ subsep_not_mem_content item₁
  have haccount' : Awk.subsep ∉ s.account := htext₂ ▸ subsep_not_mem_content item₂
  cases hinst : e.get "instance".toList with
  | none =>
    have hempty : s.inst = [] := by
      rw [hs.inst hg, show lookup e.items "instance".toList = none from hinst]
      rfl
    refine ⟨by rw [htext₁, hnames₁], by rw [htext₂, hnames₂], ?_, hbroker', haccount', ?_⟩
    · rw [hempty, if_pos rfl]
      rfl
    · rw [hempty]
      exact List.not_mem_nil
  | some w =>
    obtain ⟨item₃, hmem₃, hkey₃, rfl, htext₃⟩ := (hs.inst hg).of_get hinst
    refine ⟨by rw [htext₁, hnames₁], by rw [htext₂, hnames₂], ?_, hbroker', haccount', ?_⟩
    · rw [htext₃]
      exact (he.inst hg item₃ hmem₃ hkey₃).2 _ rfl
    · exact htext₃ ▸ subsep_not_mem_content item₃

/-- The port of an entry is a word. -/
theorem Entry.Legible.port_word (he : e.Legible loader grouped indent) {t : Terminal × Yaml}
    (ht : e.load loader = some t) : t.2.toText ≠ [] ∧ ∀ c ∈ t.2.toText, isIfs c = false := by
  simp only [Entry.load, Option.bind_eq_bind, Option.bind_eq_some_iff, Option.some.injEq] at ht
  obtain ⟨-, -, -, -, port, hport, rfl⟩ := ht
  obtain ⟨item, hmem, hkey, rfl⟩ := mem_of_lookup hport
  obtain ⟨-, hyaml, hword⟩ := he.port item hmem hkey
  rw [hyaml]
  exact hword

/-- A terminal of the file is that of an entry. -/
theorem exists_entry {entries : List Entry} {terms : List (Terminal × Yaml)}
    (h : entries.mapM (Entry.load loader) = some terms) {t : Terminal × Yaml} (ht : t ∈ terms) :
    ∃ e ∈ entries, e.load loader = some t := by
  induction entries generalizing terms with
  | nil =>
    obtain rfl : terms = [] := by simpa using h.symm
    cases ht
  | cons e entries ih =>
    rw [List.mapM_cons] at h
    simp only [Option.bind_eq_bind, Option.bind_eq_some_iff, Option.pure_def, Option.some.injEq]
      at h
    obtain ⟨u, hu, terms, hterms, rfl⟩ := h
    rcases List.mem_cons.mp ht with rfl | ht
    · exact ⟨e, List.mem_cons_self, hu⟩
    · obtain ⟨e', he', hload⟩ := ih hterms ht
      exact ⟨e', List.mem_cons_of_mem _ he', hload⟩

/-! ## The file -/

theorem Scan.mem_emit {port : List Char} : port ∈ (s.emit index).printed ↔
    port ∈ s.printed ∨ s.port = port ∧ s.port ≠ [] ∧ s.selected index = true := by
  rw [Scan.emit]
  split_ifs with hempty hmem hselected
  · simp [hempty]
  · constructor
    · exact Or.inl
    · rintro (hport | ⟨rfl, -⟩)
      · exact hport
      · exact hmem
  · simp [hempty, hselected, eq_comm]
  · simp [hselected]

/-- Without a record that has begun, nothing is selected. -/
theorem not_mem_allowed (h : ∀ c ∈ group, Text.isSpace c = true → c ∈ [' ', '\t', '\n'])
    (account inst : List Char) : Awk.index [] account inst ∉ allowed group := by
  rw [allowed_eq h]
  intro hmem
  obtain ⟨name, hname, heq⟩ := List.mem_map.mp hmem
  obtain ⟨hne, hsubsep, -⟩ := subsep_not_mem_fields h hname
  obtain ⟨c, rest, hcons⟩ := List.exists_cons_of_ne_nil hne
  have hhead : c = Awk.subsep := by
    have hheads := congrArg List.head? heq
    rw [indexOf, Awk.index, hcons, Awk.index] at hheads
    simpa using hheads
  exact hsubsep (by simp [hcons, hhead])

/-- If no line before the entries begins a record, the broker is not set, and no port is printed. -/
theorem Scan.lines_before_record (index : List (List Char)) {lines : List (List Char)}
    (h : ∀ l ∈ lines, isRecordLine l = false) :
    (Scan.start.lines index lines).broker = [] ∧ (Scan.start.lines index lines).printed = [] := by
  induction lines using List.reverseRecOn with
  | nil => exact ⟨rfl, rfl⟩
  | append_singleton lines l ih =>
    obtain ⟨hbroker, hprinted⟩ := ih fun l' hl' => h l' (List.mem_append_left _ hl')
    rw [Scan.lines_append, Scan.lines_cons, Scan.lines_nil]
    generalize Scan.start.lines index lines = s at hbroker hprinted
    rw [Scan.line, h l (by simp), if_neg Bool.false_ne_true]
    split_ifs <;> exact ⟨hbroker, hprinted⟩

/-- If no line before the entries reads like a port, no port is set, and none is printed. -/
theorem Scan.lines_before_port (index : List (List Char)) {lines : List (List Char)}
    (h : ∀ l ∈ lines, isKeyLine "port".toList l = false) :
    (Scan.start.lines index lines).port = [] ∧ (Scan.start.lines index lines).printed = [] := by
  induction lines using List.reverseRecOn with
  | nil => exact ⟨rfl, rfl⟩
  | append_singleton lines l ih =>
    obtain ⟨hport, hprinted⟩ := ih fun l' hl' => h l' (List.mem_append_left _ hl')
    rw [Scan.lines_append, Scan.lines_cons, Scan.lines_nil]
    generalize Scan.start.lines index lines = s at hport hprinted
    rw [Scan.line]
    split_ifs with hrecord haccount hinst hline
    · refine ⟨rfl, ?_⟩
      rw [Scan.emit, if_pos hport]
      exact hprinted
    · exact ⟨hport, hprinted⟩
    · exact ⟨hport, hprinted⟩
    · rw [h l (by simp)] at hline
      cases hline
    · exact ⟨hport, hprinted⟩

/-- The lines before the entries have nothing printed. -/
theorem Scan.printed_before {doc : Document} (h : doc.Legible loader group) :
    ((Scan.start.lines (allowed group) doc.before).emit (allowed group)).printed = [] := by
  rw [List.eq_nil_iff_forall_not_mem]
  intro port hmem
  rw [Scan.mem_emit] at hmem
  rcases h.before with hbefore | ⟨hgrouped, hbefore⟩
  · obtain ⟨hport, hprinted⟩ := Scan.lines_before_port (allowed group) hbefore
    rw [hport, hprinted] at hmem
    simp at hmem
  · obtain ⟨hbroker, hprinted⟩ := Scan.lines_before_record (allowed group) hbefore
    have hallowed : allowed group ≠ [] := by
      rw [allowed_eq h.spaces]
      simpa [vmGroupFilter] using hgrouped
    rw [Scan.selected, hbroker, hprinted, decide_eq_false hallowed, Bool.false_or,
      decide_eq_false (not_mem_allowed h.spaces _ _)] at hmem
    simp at hmem

/-- A line after the entries does not change what is printed in the end. -/
theorem Scan.line_after {l : List Char} (hport : isKeyLine "port".toList l = false)
    (hnames : index ≠ [] → isKeyLine "account".toList l = false ∧
      isKeyLine "instance".toList l = false) (s : Scan) :
    ((s.line index l).emit index).printed = (s.emit index).printed := by
  rw [Scan.line]
  by_cases hrecord : isRecordLine l = true
  · rw [if_pos hrecord]
    rfl
  rw [if_neg hrecord]
  by_cases hindex : index = []
  · -- without a group file the names do not matter
    subst hindex
    split_ifs with haccount hinst hline
    · simp [Scan.emit, Scan.selected]
      split_ifs <;> rfl
    · simp [Scan.emit, Scan.selected]
      split_ifs <;> rfl
    · rw [hport] at hline
      cases hline
    · rfl
  · obtain ⟨haccount, hinst⟩ := hnames hindex
    rw [haccount, hinst, hport]
    rfl

theorem Scan.lines_after {lines : List (List Char)}
    (h : ∀ l ∈ lines, isKeyLine "port".toList l = false ∧ (index ≠ [] →
      isKeyLine "account".toList l = false ∧ isKeyLine "instance".toList l = false)) (s : Scan) :
    ((s.lines index lines).emit index).printed = (s.emit index).printed := by
  induction lines generalizing s with
  | nil => rfl
  | cons l lines ih =>
    rw [Scan.lines_cons, ih (fun l' hl' => h l' (List.mem_cons_of_mem _ hl'))]
    exact Scan.line_after (h l List.mem_cons_self).1 (h l List.mem_cons_self).2 s

/-- The ports that are printed when the entries are read: those printed before, and those of the
entries that are selected. -/
theorem Scan.lines_entries (hspaces : ∀ c ∈ group, Text.isSpace c = true → c ∈ [' ', '\t', '\n'])
    {entries : List Entry} (h : ∀ e ∈ entries,
      e.Legible loader (vmGroupFilter (some group) ≠ none) (indent + 1 + (gap + 1)))
    {terms : List (Terminal × Yaml)} (hterms : entries.mapM (Entry.load loader) = some terms)
    (s : Scan) (port : List Char) :
    port ∈ ((s.lines (allowed group) (entries.flatMap (Entry.lines indent gap))).emit
        (allowed group)).printed ↔ port ∈ (s.emit (allowed group)).printed ∨
      ∃ t ∈ terms, inGroup t.1 (vmGroupFilter (some group)) = true ∧ t.2.toText = port := by
  induction entries generalizing s terms with
  | nil =>
    obtain rfl : terms = [] := by simpa using hterms.symm
    simp [Scan.lines]
  | cons e entries ih =>
    rw [List.mapM_cons] at hterms
    simp only [Option.bind_eq_bind, Option.bind_eq_some_iff, Option.pure_def, Option.some.injEq]
      at hterms
    obtain ⟨t, ht, terms, hterms, rfl⟩ := hterms
    have he := h e List.mem_cons_self
    obtain ⟨htracks, hprinted⟩ := Scan.lines_entry (allowed group) he s
    obtain ⟨hport, hnames⟩ := htracks.load he ht
    have hne : t.2.toText ≠ [] := (he.port_word ht).1
    rw [List.flatMap_cons, Scan.lines_append,
      ih (fun e' he' => h e' (List.mem_cons_of_mem _ he')) hterms, Scan.mem_emit, hprinted,
      selected_eq hspaces hnames, hport]
    simp [hne, or_assoc, and_comm]

/-- The shell finds the ports that are words. -/
theorem words_ports {ports : List (List Char)}
    (h : ∀ port ∈ ports, port ≠ [] ∧ ∀ c ∈ port, isIfs c = false) :
    ((ports.flatMap fun port => port ++ ['\n']).splitOnP isIfs).filter (· ≠ []) = ports := by
  induction ports with
  | nil => rfl
  | cons port ports ih =>
    obtain ⟨hne, hword⟩ := h port List.mem_cons_self
    rw [List.flatMap_cons, List.append_assoc, List.singleton_append,
      List.splitOnP_append_cons_of_forall_mem hword _ (by decide),
      List.filter_cons_of_pos (by simpa using hne),
      ih fun port' hport' => h port' (List.mem_cons_of_mem _ hport')]

/-- Where the file and the group file are legible, the healthcheck probes the ports of the terminals
that the group file selects, and no others. -/
theorem probes_of_legible {doc : Document} (h : doc.Legible loader group) :
    Probes loader doc group := by
  intro terms hterms port
  have hindex : allowed group ≠ [] → vmGroupFilter (some group) ≠ none := by
    rw [allowed_eq h.spaces, vmGroupFilter]
    intro hne
    simpa using hne
  have hmem : ∀ port, port ∈ ((Scan.start.lines (allowed group) doc.lines).emit
      (allowed group)).printed ↔
        ∃ t ∈ terms, inGroup t.1 (vmGroupFilter (some group)) = true ∧ t.2.toText = port := by
    intro port
    rw [Document.lines, Scan.lines_append, Scan.lines_append,
      Scan.lines_after (fun l hl => ⟨(h.after l hl).1, fun hne => (h.after l hl).2 (hindex hne)⟩),
      Scan.lines_entries h.spaces h.entries hterms, Scan.printed_before h]
    simp
  have hwords : ∀ port ∈ ((Scan.start.lines (allowed group) doc.lines).emit
      (allowed group)).printed, port ≠ [] ∧ ∀ c ∈ port, isIfs c = false := by
    intro port hport
    obtain ⟨t, ht, -, rfl⟩ := (hmem port).mp hport
    obtain ⟨e, he, hload⟩ := exists_entry hterms ht
    exact (h.entries e he).port_word hload
  rw [probed, ports, words_ports hwords]
  exact hmem port

/-! ## The example of the README -/

/-- A pair of the example, with its comment or without. -/
def readmeItem (commented : Bool) (key : String) (value : Written) (tail comment : String)
    (hkey : (Written.plain key.toList).valid = true) (hvalue : value.valid = true)
    (hblanks : ∀ c ∈ [' '] ++ tail.toList, blank c = true) (htail : tail.toList ≠ []) : Item where
  key := key.toList
  gap := [' ']
  value := value
  tail := tail.toList
  comment := if commented then some comment.toList else none
  key_valid := hkey
  value_valid := hvalue
  blanks := hblanks
  apart := Or.inl (List.cons_ne_nil _ _)
  comment_apart := fun _ => Or.inl htail

def readmeEntry (commented : Bool) : Entry where
  first := readmeItem commented "broker" (.plain "mybroker".toList) "        "
    " 1. same broker key" (by decide) (by decide) (by decide) (by decide)
  rest := [
    .pair (readmeItem commented "account" (.plain "main".toList) "           "
      " 2. same account key" (by decide) (by decide) (by decide) (by decide)),
    .pair (readmeItem commented "port" (.plain "5001".toList) "              "
      " unique per terminal; stays inside Docker" (by decide) (by decide) (by decide) (by decide)),
    .pair (readmeItem commented "utc_offset" (.quoted "0".toList) "         "
      " set this to the broker server's UTC offset" (by decide) (by decide) (by decide)
      (by decide))]

/-- The example, with its comments or without those of the terminal. -/
def readme (commented : Bool) : Document where
  before := ["# config/config.yaml", "accounts:", "  mybroker:                 # 1. broker key",
    "    main:                   # 2. account key",
    "      login: 12345678       # your real account login",
    "      server: \"Broker-MT5\"  # your broker's exact MT5 server name",
    "      password: \"your-password\"", "", "terminals:"].map String.toList
  indent := 2
  gap := 0
  entries := [readmeEntry commented]
  after := []

/-- A loader that knows of decimal numbers and of strings. -/
def readmeLoader : Loader where
  plain := fun text =>
    if text = [] then .null
    else if text.all Char.isDigit then
      .int (text.foldl (fun n c => 10 * n + (c.toNat - '0'.toNat)) 0 : Nat)
    else .str text
  quoted := id

def readmeTerminal : Terminal × Yaml :=
  (⟨.str "mybroker".toList, .str "main".toList, none, none⟩, .int 5001)

/-- The group file of the only VM. -/
def readmeGroup : List Char := vmGroup [readmeTerminal.1] defaultVm

theorem bare_readmeItem {key tail comment : String} {value : Written} {hkey hvalue hblanks htail}
    (hlast : ∀ text, value = .plain text → text.getLast? ≠ some '"' ∧ text.getLast? ≠ some ',') :
    (readmeItem false key value tail comment hkey hvalue hblanks htail).Bare :=
  ⟨rfl, hlast⟩

theorem legible_readmeEntry (grouped : Prop) :
    (readmeEntry false).Legible readmeLoader grouped 4 := by
  refine ⟨rfl, ?_, ?_, ?_, fun _ => ?_, fun _ => ?_⟩ <;>
    simp only [readmeEntry, Entry.items, Row.item?, List.filterMap, List.mem_cons, Row.pair.injEq,
      List.not_mem_nil, or_false, forall_eq_or_imp, forall_eq]
  · decide
  · decide
  · refine ⟨fun h => absurd h (by decide), fun h => absurd h (by decide),
      fun _ => ⟨bare_readmeItem ?_, by decide⟩, fun h => absurd h (by decide)⟩
    rintro text ⟨⟩
    decide
  · refine ⟨fun _ => ⟨bare_readmeItem ?_, by decide⟩, fun _ => ⟨bare_readmeItem ?_, by decide⟩,
      fun h => absurd h (by decide), fun h => absurd h (by decide)⟩ <;>
    · rintro text ⟨⟩
      decide
  · exact ⟨fun h => absurd h (by decide), fun h => absurd h (by decide),
      fun h => absurd h (by decide), fun h => absurd h (by decide)⟩

theorem probes_readme : Probes readmeLoader (readme false) readmeGroup := by
  refine probes_of_legible ⟨by decide, Or.inl (by decide), ?_, ?_⟩
  · intro e he
    obtain rfl := List.mem_singleton.mp he
    exact legible_readmeEntry _
  · intro line hline
    cases hline

/-- With the comments of the example, awk finds no terminal in the group file. -/
theorem not_probes : ¬ ∀ (loader : Loader) (doc : Document) (terms : List (Terminal × Yaml))
    (vmName : List Char), doc.load loader = some terms →
      Probes loader doc (vmGroup (terms.map Prod.fst) vmName) := by
  intro h
  have hload : (readme true).load readmeLoader = some [readmeTerminal] := by decide
  have hprobes := h readmeLoader (readme true) [readmeTerminal] defaultVm hload _ hload
    "5001".toList
  have hnone : probed readmeGroup (readme true).lines = [] := by decide
  have hport : "5001".toList ∈ probed readmeGroup (readme true).lines :=
    hprobes.mpr ⟨readmeTerminal, List.mem_cons_self, by decide, by decide⟩
  rw [hnone] at hport
  exact List.not_mem_nil hport

end Healthcheck

end Config

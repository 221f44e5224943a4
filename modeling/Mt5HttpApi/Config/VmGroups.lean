import Mathlib.Data.Int.Basic
import Mt5HttpApi.Config

/-!
# The terminals of a VM

`vm_group`, `_vm_group_filter`, `_in_group` and `terminals` of `scripts/config_helper.py`. The
terminals of a VM are printed to its group file, one line of words each, and the VM starts the
terminals of `config.yaml` that it finds in the file. A file without such a line selects every
terminal.
-/

namespace Config

open Text

/-! ## Lines and words -/

/-- A character that `str.splitlines` ends a line at. -/
def isLineBreak (c : Char) : Bool :=
  c ∈ ['\n', '\x0b', '\x0c', '\r', '\x1c', '\x1d', '\x1e', '\x85', '\u2028', '\u2029']

/-- `str.splitlines` of a text without `'\r'`. -/
def splitLines (text : List Char) : List (List Char) :=
  let pieces := text.splitOnP isLineBreak
  if pieces.getLast? = some [] then pieces.dropLast else pieces

/-- `str.split()`. -/
def words (text : List Char) : List (List Char) := (text.splitOnP isSpace).filter (· ≠ [])

/-- A text that a group file can hold as one field. -/
def Word (text : List Char) : Prop := text ≠ [] ∧ ∀ c ∈ text, isSpace c = false ∧ c ≠ '#'

instance (text : List Char) : Decidable (Word text) := inferInstanceAs (Decidable (_ ∧ _))

/-- A file that is opened as a text: every line end is `'\n'`. -/
def openText (text : List Char) : List Char :=
  replaceChar '\r' '\n' (replacePair '\r' '\n' ['\n'] text)

/-! ## The terminals -/

/-- A scalar of `config.yaml`. Any other value than these is given by its `str()`. -/
inductive Yaml
  | null
  | str (text : List Char)
  | int (n : Int)
  | other (text : List Char)
  deriving DecidableEq

/-- `str(value)`. -/
def Yaml.toText : Yaml → List Char
  | .null => "None".toList
  | .str text => text
  | .int n => (toString n).toList
  | .other text => text

/-- What an entry of the `terminals` list says about which terminal it is, and of which VM. -/
structure Terminal where
  broker : Yaml
  account : Yaml
  inst : Option Yaml
  vm : Option Yaml
  deriving DecidableEq

/-- `DEFAULT_VM`. -/
def defaultVm : List Char := "default".toList

namespace Terminal

/-- `terminal.get("vm", DEFAULT_VM) == vm_name`. -/
def on (t : Terminal) (vmName : List Char) : Bool := t.vm.getD (.str defaultVm) = .str vmName

/-- `_normalize_instance(terminal.get("instance"))`. -/
def instanceName (t : Terminal) : List Char :=
  (normalizeInstance (match t.inst.getD .null with
    | .null => none
    | value => some (String.ofList value.toText))).toList

/-- The line of a terminal in a group file. -/
def line (t : Terminal) : List Char :=
  t.broker.toText ++ ' ' :: t.account.toText ++
    if t.instanceName = defaultInstance.toList then [] else ' ' :: t.instanceName

end Terminal

/-- `vm_group`: what is printed. -/
def vmGroup (terms : List Terminal) (vmName : List Char) : List Char :=
  (terms.filter fun t => t.on vmName).flatMap fun t => t.line ++ ['\n']

/-- The fields of a line of a group file that has a broker and an account. -/
def groupFields (line : List Char) : Option (List Char × List Char × List Char) :=
  match words (line.takeWhile (· ≠ '#')) with
  | broker :: account :: rest => some (broker, account, rest.head?.getD defaultInstance.toList)
  | _ => none

/-- `_vm_group_filter`: `none` when there is no file, or no such line in it. -/
def vmGroupFilter (file : Option (List Char)) : Option (List (List Char × List Char × List Char)) :=
  match file with
  | none => none
  | some text =>
    let allowed := (splitLines (openText text)).filterMap groupFields
    if allowed = [] then none else some allowed

/-- `_in_group`. -/
def inGroup (t : Terminal) (allowed : Option (List (List Char × List Char × List Char))) : Bool :=
  match allowed with
  | none => true
  | some allowed => allowed.any fun (broker, account, name) =>
    t.broker = .str broker ∧ t.account = .str account ∧ t.instanceName = name

/-- `terminals`: the entries whose lines are printed. -/
def terminals (terms : List Terminal) (file : Option (List Char)) : List Terminal :=
  terms.filter fun t => inGroup t (vmGroupFilter file)

/-- The terminals that a VM starts. -/
def startedOn (terms : List Terminal) (vmName : List Char) : List Terminal :=
  terminals terms (some (vmGroup terms vmName))

/-! ## What is printed and read back -/

theorem isSpace_of_isLineBreak {c : Char} (h : isLineBreak c = true) : isSpace c = true := by
  simp only [isLineBreak, decide_eq_true_eq] at h
  revert c
  decide

theorem words_word {w : List Char} (h : Word w) : words w = [w] := by
  rw [words, List.splitOnP_eq_singleton fun c hc => (h.2 c hc).1, List.filter_cons_of_pos]
  · rfl
  · simpa using h.1

theorem words_append {w : List Char} (h : Word w) (rest : List Char) :
    words (w ++ ' ' :: rest) = w :: words rest := by
  rw [words, List.splitOnP_append_cons_of_forall_mem (fun c hc => (h.2 c hc).1) _ (by decide),
    List.filter_cons_of_pos (by simpa using h.1), words]

/-- The lines that were printed are read. -/
theorem splitLines_flatMap {lines : List (List Char)}
    (h : ∀ line ∈ lines, ∀ c ∈ line, isLineBreak c = false) :
    splitLines (lines.flatMap fun line => line ++ ['\n']) = lines := by
  have hpieces : (lines.flatMap fun line => line ++ ['\n']).splitOnP isLineBreak =
      lines ++ [[]] := by
    induction lines with
    | nil => rfl
    | cons line lines ih =>
      rw [List.flatMap_cons, List.append_assoc, List.singleton_append,
        List.splitOnP_append_cons_of_forall_mem (h line List.mem_cons_self) _ (by decide),
        ih fun line' hline' => h line' (List.mem_cons_of_mem _ hline')]
      rfl
  rw [splitLines, hpieces]
  simp

namespace Terminal

/-- The terminal is named by strings of one word each. -/
structure Plain (t : Terminal) : Prop where
  broker : ∃ w, t.broker = .str w ∧ Word w
  account : ∃ w, t.account = .str w ∧ Word w
  instanceName : Word t.instanceName

/-- What the terminal is told apart by. -/
def identity (t : Terminal) : Yaml × Yaml × List Char := (t.broker, t.account, t.instanceName)

variable {t u : Terminal}

/-- The texts of a terminal that is named by words. -/
theorem Plain.texts (h : t.Plain) : ∃ broker account, t.broker = .str broker ∧
    t.account = .str account ∧ Word broker ∧ Word account := by
  obtain ⟨broker, hbroker, hword⟩ := h.broker
  obtain ⟨account, haccount, hword'⟩ := h.account
  exact ⟨broker, account, hbroker, haccount, hword, hword'⟩

/-- Every character of a line is one of a word, or the blank between two words. -/
theorem Plain.mem_line (h : t.Plain) {c : Char} (hc : c ∈ t.line) :
    c = ' ' ∨ isSpace c = false ∧ c ≠ '#' := by
  obtain ⟨broker, account, hbroker, haccount, hword, hword'⟩ := h.texts
  rw [line, hbroker, haccount] at hc
  rcases List.mem_append.mp hc with hc | hc
  · rcases List.mem_append.mp hc with hc | hc
    · exact Or.inr (hword.2 c hc)
    rcases List.mem_cons.mp hc with rfl | hc
    · exact Or.inl rfl
    · exact Or.inr (hword'.2 c hc)
  · split at hc
    · cases hc
    rcases List.mem_cons.mp hc with rfl | hc
    · exact Or.inl rfl
    · exact Or.inr (h.instanceName.2 c hc)

theorem Plain.words_line (h : t.Plain) {broker account : List Char}
    (hbroker : t.broker = .str broker)
    (haccount : t.account = .str account) : words t.line =
      broker :: account ::
        if t.instanceName = defaultInstance.toList then [] else [t.instanceName] := by
  obtain ⟨_, _, hbroker', haccount', hword, hword'⟩ := h.texts
  obtain rfl := Yaml.str.inj (hbroker.symm.trans hbroker')
  obtain rfl := Yaml.str.inj (haccount.symm.trans haccount')
  rw [line, hbroker, haccount]
  simp only [Yaml.toText]
  split
  · rw [List.append_nil, words_append hword, words_word hword']
  · rw [List.append_assoc, List.cons_append, words_append hword, words_append hword',
      words_word h.instanceName]

/-- The line of a terminal is read back as its broker, its account and its instance. -/
theorem Plain.groupFields_line (h : t.Plain) {broker account : List Char}
    (hbroker : t.broker = .str broker) (haccount : t.account = .str account) :
    groupFields t.line = some (broker, account, t.instanceName) := by
  have hcomment : t.line.takeWhile (· ≠ '#') = t.line := by
    refine List.takeWhile_eq_self_iff.mpr fun c hc => ?_
    rcases h.mem_line hc with rfl | ⟨-, hne⟩
    · decide
    · simpa using hne
  rw [groupFields, hcomment, h.words_line hbroker haccount]
  split_ifs with hdefault
  · rw [hdefault]
    rfl
  · rfl

end Terminal

variable {terms : List Terminal} {vmName : List Char}

/-- The group file of terminals that are named by words, as it is read. -/
theorem lines_vmGroup (h : ∀ t ∈ terms, t.Plain) : splitLines (openText (vmGroup terms vmName)) =
    (terms.filter fun t => t.on vmName).map Terminal.line := by
  have hprinted : vmGroup terms vmName =
      ((terms.filter fun t => t.on vmName).map Terminal.line).flatMap
        fun line => line ++ ['\n'] := by
    rw [vmGroup, List.flatMap_map]
  have hchars : ∀ line ∈ (terms.filter fun t => t.on vmName).map Terminal.line, ∀ c ∈ line,
      c = ' ' ∨ isSpace c = false := by
    intro line hline c hc
    obtain ⟨t, ht, rfl⟩ := List.mem_map.mp hline
    exact ((h t (List.mem_of_mem_filter ht)).mem_line hc).imp_right And.left
  have hreturn : '\r' ∉ vmGroup terms vmName := by
    intro hmem
    rw [hprinted] at hmem
    obtain ⟨line, hline, hmem⟩ := List.mem_flatMap.mp hmem
    rcases List.mem_append.mp hmem with hmem | hmem
    · exact absurd (hchars line hline _ hmem) (by decide)
    · exact absurd (List.mem_singleton.mp hmem) (by decide)
  rw [openText, replacePair_of_not_mem hreturn, replaceChar_of_not_mem hreturn, hprinted]
  refine splitLines_flatMap fun line hline c hc => ?_
  rcases hchars line hline c hc with rfl | hspace
  · decide
  · by_contra hbreak
    rw [isSpace_of_isLineBreak (by simpa using hbreak)] at hspace
    cases hspace

/-- The group file selects the terminals that are told apart from none of the VM's. -/
theorem inGroup_vmGroup (h : ∀ t ∈ terms, t.Plain) (hon : ∃ t ∈ terms, t.on vmName = true)
    (t : Terminal) : inGroup t (vmGroupFilter (some (vmGroup terms vmName))) =
      terms.any fun u => u.on vmName ∧ u.identity = t.identity := by
  have hfields : ∀ u ∈ terms, u.on vmName = true → ∀ fields, groupFields u.line = some fields ↔
      u.identity = (.str fields.1, .str fields.2.1, fields.2.2) := by
    intro u hu _ fields
    obtain ⟨broker, account, hbroker, haccount, -, -⟩ := (h u hu).texts
    rw [(h u hu).groupFields_line hbroker haccount, Terminal.identity, hbroker, haccount]
    simp [Prod.ext_iff]
  rw [vmGroupFilter, lines_vmGroup h]
  have hne :
      ((terms.filter fun u => u.on vmName).map Terminal.line).filterMap groupFields ≠ [] := by
    obtain ⟨u, hu, hon⟩ := hon
    obtain ⟨broker, account, hbroker, haccount, -, -⟩ := (h u hu).texts
    refine List.ne_nil_of_mem (a := (broker, account, u.instanceName)) ?_
    refine List.mem_filterMap.mpr ⟨u.line, ?_, (h u hu).groupFields_line hbroker haccount⟩
    exact List.mem_map_of_mem (List.mem_filter.mpr ⟨hu, hon⟩)
  simp only [if_neg hne, inGroup]
  rw [Bool.eq_iff_iff, List.any_eq_true, List.any_eq_true]
  constructor
  · rintro ⟨fields, hmem, ht⟩
    obtain ⟨line, hline, hsome⟩ := List.mem_filterMap.mp hmem
    obtain ⟨u, hu, rfl⟩ := List.mem_map.mp hline
    obtain ⟨hu, hon⟩ := List.mem_filter.mp hu
    refine ⟨u, hu, ?_⟩
    simp only [decide_eq_true_eq] at ht ⊢
    refine ⟨hon, ((hfields u hu hon fields).mp hsome).trans ?_⟩
    rw [Terminal.identity, ht.1, ht.2.1, ht.2.2]
  · rintro ⟨u, hu, hsame⟩
    simp only [decide_eq_true_eq] at hsame
    obtain ⟨broker, account, hbroker, haccount, -, -⟩ := (h u hu).texts
    refine ⟨(broker, account, u.instanceName), ?_, ?_⟩
    · refine List.mem_filterMap.mpr ⟨u.line, ?_, (h u hu).groupFields_line hbroker haccount⟩
      exact List.mem_map_of_mem (List.mem_filter.mpr ⟨hu, hsame.1⟩)
    · have hidentity := hsame.2
      rw [Terminal.identity, Terminal.identity, hbroker, haccount] at hidentity
      simp only [Prod.mk.injEq] at hidentity
      simp [← hidentity.1, ← hidentity.2.1, hidentity.2.2]

/-- A VM that no terminal is of starts all of them, whatever they are called. -/
theorem startedOn_of_forall_not_on (h : ∀ t ∈ terms, t.on vmName = false) :
    startedOn terms vmName = terms := by
  have hprinted : vmGroup terms vmName = [] := by
    rw [vmGroup, List.filter_eq_nil_iff.mpr fun t ht => by simp [h t ht], List.flatMap_nil]
  rw [startedOn, terminals, hprinted, List.filter_eq_self]
  exact fun _ _ => rfl

/-- Terminals that are named by words are started on the VM they are of, and so is every other
terminal of the same broker, account and instance; where each VM has its own, it starts exactly its
terminals. A VM that no terminal is of has an empty group file, and starts all of them. -/
theorem startedOn_eq (h : ∀ t ∈ terms, t.Plain) (vmName : List Char) :
    ((∀ t ∈ terms, t.on vmName = false) → startedOn terms vmName = terms) ∧
      ((∃ t ∈ terms, t.on vmName = true) → startedOn terms vmName =
        terms.filter fun t => terms.any fun u => u.on vmName ∧ u.identity = t.identity) ∧
      ((∃ t ∈ terms, t.on vmName = true) →
        (∀ t ∈ terms, ∀ u ∈ terms, t.identity = u.identity → t.on vmName = u.on vmName) →
          startedOn terms vmName = terms.filter fun t => t.on vmName) := by
  have hstarted : (∃ t ∈ terms, t.on vmName = true) → startedOn terms vmName =
      terms.filter fun t => terms.any fun u => u.on vmName ∧ u.identity = t.identity :=
    fun hon => List.filter_congr fun t _ => inGroup_vmGroup h hon t
  refine ⟨startedOn_of_forall_not_on, hstarted, fun hon happart => ?_⟩
  rw [hstarted hon]
  refine List.filter_congr fun t ht => ?_
  rw [Bool.eq_iff_iff, List.any_eq_true]
  simp only [decide_eq_true_eq]
  constructor
  · rintro ⟨u, hu, honu, hidentity⟩
    rw [← happart u hu t ht hidentity, honu]
  · exact fun hont => ⟨t, ht, hont, rfl⟩

/-- Two terminals of two VMs. -/
def twoVms : List Terminal :=
  [⟨.str "darwinex".toList, .str "live".toList, none, some (.str "fast".toList)⟩,
    ⟨.str "darwinex".toList, .str "live".toList, some (.str "b".toList), some (.str "bulk".toList)⟩]

theorem startedOn_eq_twoVms : startedOn twoVms "bulk".toList =
    [⟨.str "darwinex".toList, .str "live".toList, some (.str "b".toList),
      some (.str "bulk".toList)⟩] := by
  have hplain : ∀ t ∈ twoVms, t.Plain := by
    intro t ht
    refine ⟨⟨"darwinex".toList, ?_, by decide⟩, ⟨"live".toList, ?_, by decide⟩, ?_⟩ <;>
      revert t <;> decide
  exact (startedOn_eq hplain "bulk".toList).2.2 (by decide) (by decide)

/-- A VM of no terminal starts the terminal of another. -/
theorem not_startedOn_eq_filter : ¬ ∀ (terms : List Terminal) (vmName : List Char),
    startedOn terms vmName = terms.filter fun t => t.on vmName := by
  intro h
  have hbulk := h [⟨.str "darwinex".toList, .str "live".toList, none, some (.str "fast".toList)⟩]
    "bulk".toList
  revert hbulk
  decide

end Config

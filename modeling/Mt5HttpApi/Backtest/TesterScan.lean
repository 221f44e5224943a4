import Mt5HttpApi.Backtest.Submission
import Mt5HttpApi.Lib.Lines

/-!
# Two readers of one INI

The INI of a job is written from a `RawConfigParser`, and `extract_tester_settings` of
`mt5api/backtest/cache_parser.py` reads it again, line by line, to find the cache of its
optimisation. The scanner knows nothing of further lines of a value and of `[DEFAULT]`, and it takes
`[tester]` in any case.

* `scan_entry`: one option of `[Tester]`, where it is `Scannable`.
* `scannable_of_mem_scan`: nothing else is scanned.
* `extract_serializeIni`: what is scanned of the text that `_serialize_ini` writes.
* `readersAgree_iff`: when the two readers agree.
-/

namespace Backtest.Submit

open Text Ini

/-! ## The scanner -/

/-- A line that is skipped: an empty one, or a comment. -/
def isSkipped (line : List Char) : Bool :=
  line.isEmpty || line.head? == some ';' || line.head? == some '#'

/-- `line.startswith("[") and line.endswith("]")`. -/
def isHeader (line : List Char) : Bool := line.head? == some '[' && line.getLast? == some ']'

/-- `line.lower() == "[tester]"`: no letter outside ASCII has one of these as its lower case. -/
def namesTester (line : List Char) : Bool := line.map Char.toLower == "[tester]".toList

/-- The loop of `extract_tester_settings`. -/
def scan : List (List Char) → Bool → Options → Options
  | [], _, settings => settings
  | rawLine :: rest, inTester, settings =>
    let line := strip rawLine
    if isSkipped line then scan rest inTester settings
    else if isHeader line then
      if inTester then settings else scan rest (namesTester line) settings
    else if inTester ∧ '=' ∈ rawLine then
      scan rest inTester (Dict.set settings (strip (rawLine.takeWhile (· ≠ '=')))
        (strip ((rawLine.dropWhile (· ≠ '=')).drop 1)))
    else scan rest inTester settings

/-- `extract_tester_settings`. -/
def extractTesterSettings (iniText : List Char) : Options := scan (splitlines iniText) false []

/-! ## One line -/

variable {key value line : List Char} {lines rest : List (List Char)} {inTester : Bool}
  {settings options : Options} {option : List Char × List Char}

/-- An option that is scanned as it is written: on one line, without white space at its ends, that
is neither a comment nor a header. -/
structure Scannable (option : List Char × List Char) : Prop where
  oneLine : OneLine option.1 ∧ OneLine option.2
  stripped : strip option.1 = option.1 ∧ strip option.2 = option.2
  noDelimiter : '=' ∉ option.1
  noComment : option.1.head? ≠ some ';' ∧ option.1.head? ≠ some '#'
  noHeader : ¬ (option.1.head? = some '[' ∧ option.2.getLast? = some ']')

instance : DecidablePred Scannable := fun option =>
  decidable_of_iff ((OneLine option.1 ∧ OneLine option.2) ∧
    (strip option.1 = option.1 ∧ strip option.2 = option.2) ∧ '=' ∉ option.1 ∧
    (option.1.head? ≠ some ';' ∧ option.1.head? ≠ some '#') ∧
    ¬ (option.1.head? = some '[' ∧ option.2.getLast? = some ']'))
    ⟨fun h => ⟨h.1, h.2.1, h.2.2.1, h.2.2.2.1, h.2.2.2.2⟩,
      fun h => ⟨h.oneLine, h.stripped, h.noDelimiter, h.noComment, h.noHeader⟩⟩

/-- The line of an option. -/
def entry (option : List Char × List Char) : List Char := option.1 ++ '=' :: option.2

theorem head?_strip_entry (key value : List Char) :
    (strip (key ++ '=' :: value)).head? = (strip key).head?.or (some '=') := by
  rw [head?_strip, head?_strip, List.find?_append, List.find?_cons_of_pos (by decide)]

theorem getLast?_strip_entry (key value : List Char) :
    (strip (key ++ '=' :: value)).getLast? = (strip value).getLast?.or (some '=') := by
  rw [getLast?_strip, getLast?_strip, List.reverse_append, List.reverse_cons, List.append_assoc,
    List.find?_append, List.singleton_append, List.find?_cons_of_pos (by decide)]

/-- A line is skipped for what its key begins with. -/
theorem isSkipped_entry (key value : List Char) : isSkipped (strip (key ++ '=' :: value)) = true ↔
    (strip key).head? = some ';' ∨ (strip key).head? = some '#' := by
  have hhead := head?_strip_entry key value
  have hne : (strip (key ++ '=' :: value)).isEmpty = false := by
    rw [List.isEmpty_eq_false_iff]
    intro hnil
    rw [hnil] at hhead
    cases hkey : (strip key).head? <;> rw [hkey] at hhead <;> cases hhead
  unfold isSkipped
  rw [hne, hhead]
  cases (strip key).head? <;> simp

/-- It is a header for what its key begins with and its value ends with. -/
theorem isHeader_entry (key value : List Char) : isHeader (strip (key ++ '=' :: value)) = true ↔
    (strip key).head? = some '[' ∧ (strip value).getLast? = some ']' := by
  unfold isHeader
  rw [head?_strip_entry, getLast?_strip_entry]
  cases (strip key).head? <;> cases (strip value).getLast? <;> simp

/-- An option of `[Tester]`. -/
theorem scan_entry (h : Scannable option) (rest : List (List Char)) (settings : Options) :
    scan (entry option :: rest) true settings =
      scan rest true (Dict.set settings option.1 option.2) := by
  obtain ⟨key, value⟩ := option
  obtain ⟨-, ⟨hkey, hvalue⟩, hplain, hcomment, hheader⟩ := h
  dsimp only at hkey hvalue hplain hcomment hheader
  have hskip : ¬ isSkipped (strip (key ++ '=' :: value)) = true := by
    rw [isSkipped_entry, hkey]
    exact not_or.mpr hcomment
  have hnot : ¬ isHeader (strip (key ++ '=' :: value)) = true := by
    rw [isHeader_entry, hkey, hvalue]
    exact hheader
  have htake := takeWhile_ne_append hplain value
  have hdrop : ((key ++ '=' :: value).dropWhile (· ≠ '=')).drop 1 = value := by
    rw [dropWhile_ne_append hplain, List.drop_one, List.tail_cons]
  have hmem : true = true ∧ '=' ∈ key ++ '=' :: value := ⟨rfl, by simp⟩
  unfold entry
  rw [scan, if_neg hskip, if_neg hnot, if_pos hmem, htake, hdrop, hkey, hvalue]

/-- Only such options are scanned. -/
theorem scannable_of_mem_scan (hlines : ∀ line ∈ lines, OneLine line)
    (h : option ∈ scan lines inTester settings) : option ∈ settings ∨ Scannable option := by
  induction lines generalizing inTester settings with
  | nil => exact .inl h
  | cons rawLine rest ih =>
    obtain ⟨hline, hrest⟩ := List.forall_mem_cons.mp hlines
    rw [scan] at h
    split at h
    next => exact ih hrest h
    next hskip =>
      split at h
      next =>
        split at h
        next => exact .inl h
        next => exact ih hrest h
      next hheader =>
        split at h
        next hoption =>
          obtain ⟨key, value, hsplit, hkey⟩ := List.eq_append_cons_of_mem hoption.2
          have htake : rawLine.takeWhile (· ≠ '=') = key := by
            rw [hsplit, takeWhile_ne_append hkey]
          have hdrop : (rawLine.dropWhile (· ≠ '=')).drop 1 = value := by
            rw [hsplit, dropWhile_ne_append hkey, List.drop_one, List.tail_cons]
          rw [htake, hdrop] at h
          rw [hsplit] at hskip hheader hline
          rw [isSkipped_entry] at hskip
          rw [isHeader_entry] at hheader
          rcases ih hrest h with hold | hnew
          · rcases Dict.mem_set hold with rfl | ⟨hold, -⟩
            · -- the option of this line
              right
              refine ⟨⟨fun c hc => ?_, fun c hc => ?_⟩, ⟨strip_strip _, strip_strip _⟩, ?_,
                not_or.mp hskip, hheader⟩
              · exact hline c (List.mem_append_left _ ((strip_sublist _).mem hc))
              · have hmem := (strip_sublist _).mem hc
                exact hline c (List.mem_append_right _ (List.mem_cons_of_mem _ hmem))
              · exact fun hc => hkey ((strip_sublist _).mem hc)
            · exact .inl hold
          · exact .inr hnew
        next => exact ih hrest h

/-! ## The lines of the text -/

/-- The options of `[Tester]`. -/
theorem scan_entries (h : ∀ option ∈ options, Scannable option) (rest : List (List Char))
    (settings : Options) : scan (options.map entry ++ rest) true settings =
      scan rest true (options.foldl (fun settings option =>
        Dict.set settings option.1 option.2) settings) := by
  induction options generalizing settings with
  | nil => rfl
  | cons option options ih =>
    obtain ⟨hoption, hoptions⟩ := List.forall_mem_cons.mp h
    rw [List.map_cons, List.cons_append, scan_entry hoption, ih hoptions]
    rfl

/-- Keys that are not there twice are put one after the other. -/
theorem foldl_set (h : ((settings ++ options).map Prod.fst).Nodup) :
    options.foldl (fun settings option => Dict.set settings option.1 option.2) settings =
      settings ++ options := by
  induction options generalizing settings with
  | nil => exact (List.append_nil settings).symm
  | cons option options ih =>
    have hnew : Dict.get settings option.1 = none := by
      rw [Dict.get_eq_none_iff]
      intro item hitem heq
      rw [List.map_append, List.nodup_append] at h
      exact h.2.2 _ (List.mem_map_of_mem hitem) _ (by simp) heq
    have hassoc : settings ++ option :: options = settings ++ [option] ++ options := by simp
    rw [hassoc] at h ⊢
    rw [List.foldl_cons, Dict.set_of_get_eq_none hnew]
    exact ih h

/-- Before a `[Tester]` in any case, nothing is scanned. -/
theorem scan_before (h : ∀ line ∈ lines, ¬ (isHeader (strip line) = true ∧
    namesTester (strip line) = true)) (rest : List (List Char)) (settings : Options) :
    scan (lines ++ rest) false settings = scan rest false settings := by
  induction lines with
  | nil => rfl
  | cons line lines ih =>
    obtain ⟨hline, hlines⟩ := List.forall_mem_cons.mp h
    rw [List.cons_append, scan]
    split
    next => exact ih hlines
    next =>
      split
      next hheader =>
        have hname : namesTester (strip line) = false := by simpa [hheader] using hline
        rw [if_neg Bool.false_ne_true, hname]
        exact ih hlines
      next =>
        rw [if_neg fun hin => Bool.false_ne_true hin.1]
        exact ih hlines

/-- The line of a section's name. -/
theorem isHeader_name (name : List Char) : strip ('[' :: name ++ [']']) = '[' :: name ++ [']'] ∧
    isSkipped ('[' :: name ++ [']']) = false ∧ isHeader ('[' :: name ++ [']']) = true := by
  refine ⟨?_, ?_, ?_⟩
  · rw [strip_eq_self_iff, List.getLast?_concat]
    refine ⟨?_, ?_⟩
    · intro c hc
      obtain rfl : '[' = c := by simpa using hc
      decide
    · intro c hc
      obtain rfl : ']' = c := by simpa using hc
      decide
  · simp [isSkipped]
  · unfold isHeader
    rw [List.getLast?_concat]
    simp

/-- The next header ends the scan. -/
theorem scan_name (name : List Char) (rest : List (List Char)) (settings : Options) :
    scan (('[' :: name ++ [']']) :: rest) true settings = settings := by
  obtain ⟨hstrip, hskip, hheader⟩ := isHeader_name name
  rw [scan, hstrip, hskip, hheader]
  rfl

/-- The header of `[Tester]` begins it. -/
theorem scan_tester (rest : List (List Char)) (settings : Options) :
    scan (('[' :: tester ++ [']']) :: rest) false settings = scan rest true settings := by
  obtain ⟨hstrip, hskip, hheader⟩ := isHeader_name tester
  have hname : namesTester ('[' :: tester ++ [']']) = true := by decide
  rw [scan, hstrip, hskip, hheader, hname]
  rfl

/-! ## The text -/

/-- The sections before `[Tester]`. -/
def sectionsBefore (p : Parsed) : Sections := p.sections.takeWhile (·.1 ≠ tester)

/-- The sections after it. -/
def sectionsAfter (p : Parsed) : Sections := (p.sections.dropWhile (·.1 ≠ tester)).drop 1

/-- What `_serialize_ini` writes before `[Tester]`. -/
def textBefore (p : Parsed) : List Char :=
  (if p.defaults = [] then [] else writeSection (defaultSection, p.defaults)) ++
    Ini.write (sectionsBefore p)

/-- The sections are those before `[Tester]`, itself and those after it. -/
theorem sections_eq {p : Parsed} (h : hasSection p tester = true) :
    p.sections = sectionsBefore p ++ (tester, optionsOf p tester) :: sectionsAfter p := by
  unfold sectionsBefore sectionsAfter optionsOf
  have hget : Dict.get p.sections tester =
      (p.sections.dropWhile (·.1 ≠ tester)).head?.map Prod.snd := by
    unfold Dict.get
    rw [List.find?_eq_head?_dropWhile_not]
    simp only [decide_not]
  rcases hdrop : p.sections.dropWhile (·.1 ≠ tester) with _ | ⟨sect, more⟩
  · unfold hasSection at h
    rw [hget, hdrop] at h
    cases h
  · have hname : sect.1 = tester := by
      have hhead := List.head?_dropWhile_not (fun sect => decide (sect.1 ≠ tester)) p.sections
      rw [hdrop] at hhead
      simpa using hhead
    have hparts : p.sections.takeWhile (·.1 ≠ tester) ++ sect :: more = p.sections := by
      rw [← hdrop]
      exact List.takeWhile_append_dropWhile
    have hsect : (tester, sect.2) = sect := by rw [← hname]
    rw [hget, hdrop, List.head?_cons, Option.map_some, Option.getD_some, hsect, List.drop_one,
      List.tail_cons, hparts]

/-- What is written ends with a line feed. -/
theorem getLast?_writeSection (sect : List Char × Options) :
    (writeSection sect).getLast? = some '\n' := by
  unfold writeSection
  rw [List.getLast?_concat]

theorem ends_write (sections : Sections) : ∀ c ∈ (Ini.write sections).getLast?, c = '\n' := by
  rcases List.eq_nil_or_concat sections with rfl | ⟨before, sect, rfl⟩
  · intro c hc
    cases hc
  · unfold Ini.write
    rw [List.concat_eq_append, List.flatMap_append, List.flatMap_singleton,
      List.getLast?_append, getLast?_writeSection]
    simp

theorem ends_textBefore (p : Parsed) : ∀ c ∈ (textBefore p).getLast?, c = '\n' := by
  unfold textBefore
  rw [List.getLast?_append]
  cases hlast : (Ini.write (sectionsBefore p)).getLast? with
  | some c =>
    rw [Option.some_or]
    exact fun d hd => ends_write _ d (hlast ▸ hd)
  | none =>
    rw [Option.none_or]
    split
    next =>
      intro c hc
      cases hc
    next =>
      rw [getLast?_writeSection]
      simp

/-- The lines of options that are each on one. -/
theorem splitlines_options (h : ∀ option ∈ options, OneLine option.1 ∧ OneLine option.2)
    (rest : List Char) :
    splitlines (options.flatMap writeOption ++ rest) = options.map entry ++ splitlines rest := by
  induction options with
  | nil => rfl
  | cons option options ih =>
    obtain ⟨hoption, hoptions⟩ := List.forall_mem_cons.mp h
    have hbreak : '\n' ∉ option.2 := fun hmem => Bool.false_ne_true (hoption.2 _ hmem).symm
    have hline : ∀ c ∈ entry option, endsLine c = false := by
      intro c hc
      rcases List.mem_append.mp hc with hc | hc
      · exact hoption.1 c hc
      · rcases List.mem_cons.mp hc with rfl | hc
        · decide
        · exact hoption.2 c hc
    have hwrite : writeOption option = entry option ++ ['\n'] := by
      unfold writeOption entry
      rw [indented_of_not_mem hbreak, List.append_assoc]
    rw [List.flatMap_cons, hwrite, List.append_assoc, List.append_assoc, List.singleton_append,
      splitlines_before hline (by decide), List.map_cons, List.cons_append]
    exact congrArg _ (ih hoptions)

/-- The lines of a section whose name is on one. -/
theorem splitlines_section {sect : List Char × Options} (h : OneLine sect.1) (rest : List Char) :
    splitlines (writeSection sect ++ rest) = ('[' :: sect.1 ++ [']']) ::
      splitlines (sect.2.flatMap writeOption ++ '\n' :: rest) := by
  have hline : ∀ c ∈ '[' :: sect.1 ++ [']'], endsLine c = false := by
    intro c hc
    rw [List.mem_append, List.mem_cons, List.mem_singleton] at hc
    rcases hc with (rfl | hc) | rfl
    · decide
    · exact h c hc
    · decide
  have htext : writeSection sect ++ rest = ('[' :: sect.1 ++ [']']) ++
      '\n' :: (sect.2.flatMap writeOption ++ '\n' :: rest) := by
    unfold writeSection
    simp
  rw [htext, splitlines_before hline (by decide)]
  rfl

/-- The scan goes astray: an earlier line is a header of `[Tester]` in some case, or the name of the
next section is on several lines. -/
def Astray (p : Parsed) : Prop :=
  (∃ line ∈ splitlines (textBefore p),
    isHeader (strip line) = true ∧ namesTester (strip line) = true) ∨
  ∃ sect ∈ (sectionsAfter p).head?, ¬ OneLine sect.1

/-- The INI is written in parts. -/
theorem serializeIni_eq {p : Parsed} (h : hasSection p tester = true) : serializeIni p =
    textBefore p ++ (writeSection (tester, optionsOf p tester) ++ Ini.write (sectionsAfter p)) := by
  unfold serializeIni textBefore
  rw [List.append_assoc]
  conv_lhs => rw [sections_eq h]
  unfold Ini.write
  rw [List.flatMap_append, List.flatMap_cons]

/-- What is scanned of an INI whose `[Tester]` is scannable: its own options. -/
theorem extract_serializeIni {p : Parsed} (h : hasSection p tester = true)
    (hkeys : ((optionsOf p tester).map Prod.fst).Nodup)
    (hscan : ∀ option ∈ optionsOf p tester, Scannable option) (hastray : ¬ Astray p) :
    extractTesterSettings (serializeIni p) = optionsOf p tester := by
  obtain ⟨hbefore, hafter⟩ := not_or.mp hastray
  have hlines : ∀ line ∈ splitlines (textBefore p),
      ¬ (isHeader (strip line) = true ∧ namesTester (strip line) = true) :=
    fun line hline hnames => hbefore ⟨line, hline, hnames⟩
  unfold extractTesterSettings
  rw [serializeIni_eq h, splitlines_append_of_ends (ends_textBefore p), scan_before hlines,
    splitlines_section (show OneLine tester by decide), scan_tester,
    splitlines_options fun option hoption => (hscan option hoption).oneLine,
    scan_entries hscan, foldl_set hkeys, List.nil_append, splitlines_newline]
  -- the empty line at the end of the section is skipped
  rw [scan, show isSkipped (strip []) = true from rfl, if_pos rfl]
  cases hsections : sectionsAfter p with
  | nil => rfl
  | cons sect more =>
    have hname : OneLine sect.1 := by
      by_contra hname
      exact hafter ⟨sect, by simp [hsections], hname⟩
    unfold Ini.write
    rw [List.flatMap_cons, splitlines_section hname, scan_name]

/-! ## What the steps keep -/

/-- `[Tester]` is there, and no key is twice in a section. -/
structure Sound (p : Parsed) : Prop where
  hasTester : hasSection p tester = true
  keyed : Keyed p.sections

variable {site : Site} {form : Form} {checked : Checked} {p q : Parsed}

theorem Sound.putSection (h : Sound p) (sect : List Char)
    (hoptions : (options.map Prod.fst).Nodup) : Sound (putSection p sect options) := by
  refine ⟨?_, h.keyed.set sect hoptions⟩
  have htester := h.hasTester
  unfold hasSection at htester ⊢
  unfold Submit.putSection
  rw [Dict.get_set]
  split
  · rfl
  · exact htester

theorem Sound.put (h : Sound p) (sect key value : List Char) : Sound (put p sect key value) :=
  h.putSection sect (Dict.nodup_set (h.keyed.nodup_get sect) key value)

theorem Sound.overrideCredentials (h : Sound p) (creds : Credentials) :
    Sound (overrideCredentials creds p) := by
  have hsection : Sound (if hasSection p common then p else Submit.putSection p common []) := by
    split
    · exact h
    · exact h.putSection common List.nodup_nil
  unfold Submit.overrideCredentials
  exact ((hsection.put _ _ _).put _ _ _).put _ _ _

theorem Sound.normalizeSymbol (h : Sound p) : Sound (normalizeSymbol site p) := by
  unfold Submit.normalizeSymbol
  dsimp only
  split
  · exact h
  · split
    · exact h
    · exact h.put _ _ _

theorem Sound.normalizeSet (h : Sound p) {stagedSet : List Char}
    (hset : normalizeSet stagedSet p = .ok q) : Sound q := by
  unfold Submit.normalizeSet at hset
  split at hset
  next =>
    obtain rfl := Except.ok.inj hset
    exact h.put _ _ _
  next =>
    split at hset
    next =>
      obtain rfl := Except.ok.inj hset
      exact h
    next =>
      split at hset
      next =>
        obtain rfl := Except.ok.inj hset
        exact h.putSection tester ((h.keyed.nodup_get tester).sublist
          (List.Sublist.map _ List.filter_sublist))
      next => cases hset

theorem sound_parseIni {text : List Char} (h : parseIni text = .ok p) : Sound p := by
  unfold parseIni at h
  split at h
  next => cases h
  next p' hread =>
    split at h
    next htester =>
      obtain rfl := Except.ok.inj h
      exact ⟨htester, keyed_read hread⟩
    next => cases h

theorem sound_prepare {prepared : Prepared} (h : prepare site form checked = .ok prepared) :
    Sound prepared.parser := by
  unfold prepare at h
  rcases hparse : parseIni form.ini with e | p
  · rw [hparse] at h
    cases h
  rcases hcreds : site.credentials with message | creds
  · rw [hparse, hcreds] at h
    cases h
  rw [hparse, hcreds] at h
  have hsound : Sound (normalizeSymbol site (overrideCredentials creds p)) :=
    ((sound_parseIni hparse).overrideCredentials creds).normalizeSymbol
  have hexpert : Sound (normalizeExpert checked.expertFilename
      (normalizeSymbol site (overrideCredentials creds p))) := hsound.put _ _ _
  simp only [bind, Except.bind, Except.mapError] at h
  split at h
  next => cases h
  next =>
    obtain rfl := Except.ok.inj h
    exact ((hexpert.put _ _ _).put _ _ _).put _ _ _

/-! ## Agreement -/

/-- The parser that `_serialize_ini` is given. -/
def settle (site : Site) (form : Form) (checked : Checked) : Except Raised Parsed := do
  let prepared ← prepare site form checked
  normalizeSet (stagedSetName form checked.setFilename) prepared.parser

theorem sound_settle (h : settle site form checked = .ok q) : Sound q := by
  unfold settle at h
  rcases hprepare : prepare site form checked with e | prepared
  · rw [hprepare] at h
    cases h
  · rw [hprepare] at h
    exact (sound_prepare hprepare).normalizeSet h

/-- The scanner finds for every key what the parser does. -/
def ReadersAgree (q : Parsed) : Prop :=
  ∀ key, Dict.get (extractTesterSettings (serializeIni q)) key = lookup q tester key

/-- A `[Tester]` that is scanned as it is: its options are scannable, and no key is inherited. -/
structure PlainTester (q : Parsed) : Prop where
  scannable : ∀ option ∈ optionsOf q tester, Scannable option
  ownKeys : ∀ option ∈ q.defaults, (own q tester option.1).isSome = true

/-- Where the readers agree, every option is scannable: no other is found by the scan. -/
theorem ReadersAgree.scannable (hsound : Sound q) (h : ReadersAgree q) :
    ∀ option ∈ optionsOf q tester, Scannable option := by
  intro option hoption
  have hget : Dict.get (optionsOf q tester) option.1 = some option.2 :=
    Dict.get_of_mem (hsound.keyed.nodup_get tester) hoption
  have hscan := h option.1
  unfold lookup at hscan
  rw [hget, Option.some_or] at hscan
  have hmem := Dict.mem_of_get hscan
  unfold extractTesterSettings at hmem
  rcases scannable_of_mem_scan (fun line hline c hc => (mem_splitlines hline c hc).1) hmem with
    hnil | hscannable
  · cases hnil
  · exact hscannable

/-- Unless the scan goes astray, the readers agree exactly when `[Tester]` is scanned as it is; and
they never do where an option of it is not scannable. -/
theorem readersAgree_iff (h : settle site form checked = .ok q) :
    (¬ Astray q → (ReadersAgree q ↔ PlainTester q)) ∧
      (ReadersAgree q → ∀ option ∈ optionsOf q tester, Scannable option) := by
  have hsound := sound_settle h
  refine ⟨fun hastray => ?_, fun hagree => hagree.scannable hsound⟩
  have hextract : (∀ option ∈ optionsOf q tester, Scannable option) →
      extractTesterSettings (serializeIni q) = optionsOf q tester := fun hscan =>
    extract_serializeIni hsound.hasTester (hsound.keyed.nodup_get tester) hscan hastray
  constructor
  · intro hagree
    have hscan := hagree.scannable hsound
    refine ⟨hscan, fun option hoption => ?_⟩
    have hkey := hagree option.1
    rw [hextract hscan] at hkey
    -- the parser finds the key among the defaults at least
    have hfound : (Dict.get q.defaults option.1).isSome = true := by
      rw [Option.isSome_iff_ne_none, Ne, Dict.get_eq_none_iff]
      exact fun hnone => hnone option hoption rfl
    unfold own
    rw [hkey]
    unfold lookup
    rw [Option.isSome_or, hfound, Bool.or_true]
  · intro hplain key
    rw [hextract hplain.scannable]
    unfold lookup
    cases hown : Dict.get (optionsOf q tester) key with
    | some value => rw [Option.some_or]
    | none =>
      rw [Option.none_or, eq_comm, Dict.get_eq_none_iff]
      rintro option hoption rfl
      have hsome := hplain.ownKeys option hoption
      unfold own at hsome
      rw [hown] at hsome
      cases hsome

/-- The checked form of the sample. -/
def sampleChecked : Checked := ⟨defaultTopPasses, "ea.ex5".toList, []⟩

/-- What the INI of a symbol comes to. -/
def symbolIni : Parsed where
  defaults := []
  sections :=
    [(tester, [("Symbol".toList, "EURUSD".toList), ("Expert".toList, "Uploaded\\ea".toList),
        ("Report".toList, "Reports\\backtest-0f.htm".toList), ("ReplaceReport".toList, ['1']),
        ("ShutdownTerminal".toList, ['1'])]),
      (common, [("Login".toList, ['1']), ("Password".toList, ['x']),
        ("Server".toList, "Demo".toList)])]

theorem readersAgree_iff_symbol :
    settle sampleSite (sampleForm "[Tester]\nSymbol=EURUSD\n".toList) sampleChecked =
        .ok symbolIni ∧ ReadersAgree symbolIni := by
  have hsettle : settle sampleSite (sampleForm "[Tester]\nSymbol=EURUSD\n".toList)
      sampleChecked = .ok symbolIni := by decide +kernel
  have hastray : ¬ Astray symbolIni := by
    unfold Astray
    decide +kernel
  have hscan : ∀ option ∈ optionsOf symbolIni tester, Scannable option := by decide +kernel
  exact ⟨hsettle, ((readersAgree_iff hsettle).1 hastray).mpr ⟨hscan, by simp [symbolIni]⟩⟩

/-- The parser that is left of an INI whose period is a default. -/
def inheritedPeriod : Except Raised Parsed :=
  settle sampleSite (sampleForm "[DEFAULT]\nPeriod=H1\n[Tester]\nSymbol=EURUSD\n".toList)
    sampleChecked

/-- A key that `[Tester]` inherits is not scanned. -/
theorem not_readersAgree : ¬ ∀ (site : Site) (form : Form) (checked : Checked) (q : Parsed),
    settle site form checked = .ok q → ReadersAgree q := by
  intro h
  have hlookup : (inheritedPeriod.map fun q => lookup q tester "Period".toList) =
      .ok (some "H1".toList) := by decide +kernel
  have hscan : (inheritedPeriod.map fun q =>
      Dict.get (extractTesterSettings (serializeIni q)) "Period".toList) = .ok none := by
    decide +kernel
  rcases hq : inheritedPeriod with e | q
  · rw [hq] at hlookup
    cases hlookup
  · rw [hq] at hlookup hscan
    have hagree := h _ _ _ q hq "Period".toList
    have habsurd := (Except.ok.inj hscan).symm.trans (hagree.trans (Except.ok.inj hlookup))
    cases habsurd

end Backtest.Submit

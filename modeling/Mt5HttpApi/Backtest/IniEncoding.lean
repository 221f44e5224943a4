import Mt5HttpApi.Backtest.IniBuilder

/-!
# What is read of the tester's INI

The text that `build_ini` returns, read by the parser of the same kind that the runner uses
(`_parse_ini`). No input adds a section or a key: `read_buildIni` says that exactly the three
sections with exactly their keys are read, whatever the inputs are.

The values of the inputs are another matter. The INI format has no escaping, and `build_ini` does
not look for line breaks: what is read of a value is `Ini.readBack` of it. `encodes_iff` says that
the inputs are read as they were given exactly when each of them is legible.
-/

namespace Backtest.IniBuilder

open Text Json

/-- The keys of every `[Tester]` section. -/
def testerKeys : List String :=
  ["Expert", "Symbol", "Period", "Deposit", "Currency", "Leverage", "Model", "ExecutionMode",
    "Optimization", "OptimizationCriterion", "ForwardMode", "FromDate", "ToDate", "Report",
    "ReplaceReport", "ShutdownTerminal", "Visual", "UseLocal", "UseRemote", "UseCloud", "AllowDll"]

/-- The sections and their keys, one of which is there only when the expert's parameters are
given. -/
def fixedKeys (withSet : Bool) : List (List Char × List (List Char)) :=
  [("Common".toList, ["Login", "Password", "Server", "KeepPrivate", "AutoTrading",
      "NewsEnable"].map String.toList),
    ("Experts".toList, ["AllowLiveTrading", "AllowDllImport", "Enabled"].map String.toList),
    ("Tester".toList,
      (testerKeys ++ if withSet then ["ExpertParameters"] else []).map String.toList)]

/-- A text field without the white space around it. -/
def trimmedText (value : Value) : List Char :=
  match value with
  | .str text => strip text
  | _ => []

/-- The optimization that is asked for. -/
def optimizationOf (params : Fields) : ℤ :=
  (intValue? ((params.find "optimization").getD (.int 0))).getD 0

/-- The input strings, trimmed and normalised, with the keys they are for. -/
def inputs (py : Py) (params : Fields) : Ini.Options :=
  [("Symbol".toList, trimmedText (get params "symbol")),
    ("Currency".toList,
      upperText py (trimmedText ((params.find "currency").getD (.str "USD".toList)))),
    ("Expert".toList, "Uploaded\\".toList ++ stripEx5 (trimmedText (get params "expert"))),
    ("Report".toList, "Reports\\".toList ++ withExtension (optimizationOf params)
      (trimmedText ((params.find "reportName").getD
        (.str (defaultReportName (optimizationOf params))))))] ++
  if truthy (get params "expertParameters") then
    [("ExpertParameters".toList, trimmedText (get params "expertParameters"))]
  else []

variable {py : Py} {today : Date} {params : Fields} {s : Settings} {text : List Char}

/-- What is read of the text has the three sections with their keys, each once, and nothing
else. -/
def HasFixedKeys (params : Fields) (parsed : Ini.Parsed) : Prop :=
  parsed.defaults = [] ∧
    Ini.keysOf parsed.sections = fixedKeys (truthy (get params "expertParameters"))

/-- A text that is returned can be read, has the fixed sections and keys, and gives the inputs. -/
def Encodes (py : Py) (today : Date) (params : Fields) : Prop :=
  ∀ text, buildIni py today (.obj params) = .ok text → ∃ parsed, Ini.read text = .ok parsed ∧
    HasFixedKeys params parsed ∧
      ∀ input ∈ inputs py params, parsed.value "Tester".toList input.1 = some input.2

/-- When a text is returned, the inputs are legible. -/
def LegibleInputs (py : Py) (today : Date) (params : Fields) : Prop :=
  (∃ text, buildIni py today (.obj params) = .ok text) →
    ∀ input ∈ inputs py params, Ini.Legible input.2

/-! ## Sections and keys -/

theorem plain_fixedKeys : ∀ withSet, ((fixedKeys withSet).map Prod.fst).Nodup ∧
    ∀ entry ∈ fixedKeys withSet,
      Ini.PlainName entry.1 ∧ entry.2.Nodup ∧ ∀ key ∈ entry.2, Ini.PlainKey key := by
  decide +kernel

theorem keysOf_sections (py : Py) (s : Settings) :
    Ini.keysOf (sections py s) = fixedKeys (s.setFilename ≠ []) := by
  by_cases hset : s.setFilename = []
  · simp [sections, Ini.keysOf, fixedKeys, testerOptions, testerKeys, fixedOptions, hset]
  · simp [sections, Ini.keysOf, fixedKeys, testerOptions, testerKeys, fixedOptions, hset]

theorem plain_sections (py : Py) (s : Settings) : Ini.Plain (sections py s) := by
  obtain ⟨hnodup, hplain⟩ := plain_fixedKeys (s.setFilename ≠ [])
  rw [← keysOf_sections py] at hnodup hplain
  exact Ini.plain_of_keysOf hnodup hplain

/-! ## Settings that are the inputs -/

theorem trimmed?_eq_some {value : Value} {name : List Char} (h : trimmed? value = some name) :
    trimmedText value = name ∧ name ≠ [] := by
  cases value with
  | str text =>
    rw [trimmed?] at h
    split at h
    next => cases h
    next hne =>
      cases h
      exact ⟨rfl, hne⟩
  | _ => cases h

theorem requireFilename_eq_ok {value : Value} {field : String} {name : List Char}
    (h : requireFilename value field = .ok name) : trimmedText value = name ∧ name ≠ [] := by
  unfold requireFilename at h
  split at h
  next => cases h
  next htrimmed =>
    split at h
    · cases h
    · cases h
      exact trimmed?_eq_some htrimmed

theorem eq_optimizationOf {n : ℤ} (h : resolveOptimization params = .ok n) :
    n = optimizationOf params := by
  unfold resolveOptimization resolveChoice at h
  split at h
  next => cases h
  next m hvalue =>
    split at h
    · cases h
      rw [optimizationOf, hvalue, Option.getD_some]
    · cases h

namespace Passed

variable (h : Passed py today params s)
include h

theorem symbol_eq : s.symbol = trimmedText (get params "symbol") := by
  have hsymbol := h.symbol
  unfold requireSymbol at hsymbol
  split at hsymbol
  next => cases hsymbol
  next htrimmed =>
    cases hsymbol
    exact (trimmed?_eq_some htrimmed).1.symm

theorem expert_eq : s.expertFilename = trimmedText (get params "expert") := by
  obtain ⟨name, hname, hrest⟩ := bind_eq_ok.mp h.expert
  split at hrest
  · cases hrest
    exact (requireFilename_eq_ok hname).1.symm
  · cases hrest

theorem set_eq : s.setFilename = if truthy (get params "expertParameters") then
    trimmedText (get params "expertParameters") else [] := by
  have hset := h.set
  unfold optionalSet at hset
  split at hset
  next htruthy =>
    obtain ⟨name, hname, hrest⟩ := bind_eq_ok.mp hset
    rw [if_pos htruthy]
    split at hrest
    · cases hrest
      exact (requireFilename_eq_ok hname).1.symm
    · cases hrest
  next hfalsy =>
    injection hset with hset
    rw [← hset, if_neg hfalsy]

/-- The expert's parameters are set when they are given. -/
theorem set_ne_nil_iff : s.setFilename ≠ [] ↔ truthy (get params "expertParameters") = true := by
  have hset := h.set
  unfold optionalSet at hset
  split at hset
  next htruthy =>
    obtain ⟨name, hname, hrest⟩ := bind_eq_ok.mp hset
    split at hrest
    · cases hrest
      exact iff_of_true (requireFilename_eq_ok hname).2 htruthy
    · cases hrest
  next hfalsy =>
    injection hset with hset
    exact iff_of_false (fun hne => hne hset.symm) hfalsy

theorem currency_eq : s.currency =
    upperText py (trimmedText ((params.find "currency").getD (.str "USD".toList))) := by
  have hcurrency := h.currency
  unfold resolveCurrency at hcurrency
  split at hcurrency
  next => cases hcurrency
  next htrimmed =>
    injection hcurrency with hcurrency
    rw [← hcurrency, (trimmed?_eq_some htrimmed).1]

theorem optimization_eq : s.optimization = optimizationOf params :=
  eq_optimizationOf h.optimization

theorem reportName_eq : s.reportName = withExtension (optimizationOf params)
    (trimmedText ((params.find "reportName").getD
      (.str (defaultReportName (optimizationOf params))))) := by
  have hreport := h.reportName
  rw [h.optimization_eq] at hreport
  unfold resolveReportName at hreport
  split at hreport
  next => cases hreport
  next htrimmed =>
    injection hreport with hreport
    rw [← hreport, (trimmed?_eq_some htrimmed).1]

/-- The inputs are options of the `[Tester]` section. -/
theorem inputs_subset : ∀ input ∈ inputs py params, input ∈ testerOptions py s := by
  intro input hinput
  rw [inputs, ← h.symbol_eq, ← h.currency_eq, ← h.expert_eq, ← h.reportName_eq] at hinput
  rcases List.mem_append.mp hinput with hinput | hinput
  · simp only [List.mem_cons, List.not_mem_nil, or_false] at hinput
    refine List.mem_append_left _ (List.mem_append_left _ (List.mem_append_left _
      (List.mem_append_left _ ?_)))
    rcases hinput with rfl | rfl | rfl | rfl
    · exact .tail _ (.head _)
    · exact .tail _ (.tail _ (.tail _ (.tail _ (.head _))))
    · exact .head _
    · exact List.mem_of_getElem? (i := 13) rfl
  · refine List.mem_append_right _ ?_
    split at hinput
    next htruthy =>
      have hset := h.set_eq
      rw [if_pos htruthy] at hset
      rwa [if_neg (h.set_ne_nil_iff.mpr htruthy), hset]
    next => cases hinput

end Passed

theorem nodup_testerKeys (py : Py) (s : Settings) :
    ((testerOptions py s).map Prod.fst).Nodup :=
  (plain_sections py s).nodup_keys ("Tester".toList, testerOptions py s) (by simp [sections])

/-- What is read of an option of the `[Tester]` section. -/
theorem read_sections (py : Py) (s : Settings) :
    ∃ parsed, Ini.read (Ini.write (sections py s)) = .ok parsed ∧ parsed.defaults = [] ∧
      Ini.keysOf parsed.sections = fixedKeys (s.setFilename ≠ []) ∧
      ∀ option ∈ testerOptions py s,
        parsed.value "Tester".toList option.1 = some (Ini.readBack option.2) := by
  refine ⟨_, Ini.read_write (plain_sections py s), rfl, ?_, fun option hoption => ?_⟩
  · rw [Ini.keysOf_map, keysOf_sections]
  · have htester : Dict.get (sections py s) "Tester".toList = some (testerOptions py s) := by
      rw [sections, Dict.get_cons, if_neg (by decide), Dict.get_cons, if_neg (by decide),
        Dict.get_cons, if_pos rfl]
    have hsections : Dict.get ((sections py s).map fun sect =>
        (sect.1, sect.2.map fun option => (option.1, Ini.readBack option.2))) "Tester".toList =
          some ((testerOptions py s).map fun option => (option.1, Ini.readBack option.2)) := by
      rw [Dict.get_map_values fun options : Ini.Options =>
        options.map fun option => (option.1, Ini.readBack option.2), htester, Option.map_some]
    rw [Ini.Parsed.value, hsections, Option.bind_some, Dict.get_map_values,
      Dict.get_of_mem (nodup_testerKeys py s) hoption, Option.map_some]

/-- Whatever the inputs are, the text can be read, and has the fixed sections and keys. -/
theorem read_buildIni (h : buildIni py today (.obj params) = .ok text) :
    ∃ parsed, Ini.read text = .ok parsed ∧ HasFixedKeys params parsed ∧
      ∀ input ∈ inputs py params,
        parsed.value "Tester".toList input.1 = some (Ini.readBack input.2) := by
  obtain ⟨s, hs, rfl⟩ := buildIni_eq_ok.mp h
  have hpassed := passed_of_settings hs
  obtain ⟨parsed, hread, hdefaults, hkeys, hvalues⟩ := read_sections py s
  refine ⟨parsed, hread, ⟨hdefaults, ?_⟩, fun input hinput =>
    hvalues input (hpassed.inputs_subset input hinput)⟩
  rw [hkeys, Bool.eq_iff_iff.mpr (decide_eq_true_iff.trans hpassed.set_ne_nil_iff)]

/-- The text that is returned gives the inputs as they are exactly when they are legible. -/
theorem encodes_iff (py : Py) (today : Date) (params : Fields) :
    Encodes py today params ↔ LegibleInputs py today params := by
  constructor
  · rintro h ⟨text, htext⟩ input hinput
    obtain ⟨parsed, hread, -, hvalues⟩ := h text htext
    obtain ⟨parsed', hread', -, hvalues'⟩ := read_buildIni htext
    rw [hread] at hread'
    cases hread'
    have hsame := (hvalues' input hinput).symm.trans (hvalues input hinput)
    exact Ini.readBack_eq_iff.mp (Option.some.inj hsame)
  · intro h text htext
    obtain ⟨parsed, hread, hkeys, hvalues⟩ := read_buildIni htext
    refine ⟨parsed, hread, hkeys, fun input hinput => ?_⟩
    rw [hvalues input hinput, Ini.readBack_eq_iff.mpr (h ⟨text, htext⟩ input hinput)]

/-- A Python that knows ASCII. -/
def asciiPy : Py where
  repr _ := ""
  reprFloat _ := []
  upper c := [c.toUpper]
  decimal c := if c.isDigit then some (c.toNat - 48) else none

/-- A leap day. -/
def sampleDay : Date := ⟨2024, 2, 29, by decide, by decide, by decide⟩

/-- A request for the day before with the given symbol. -/
def sampleRequest (symbol : String) : Fields :=
  [("symbol".toList, .str symbol.toList), ("timeframe".toList, .str "M1".toList),
    ("expert".toList, .str "EA.ex5".toList), ("lastDays".toList, .int 1)]

/-- The second line of a symbol is lost when it looks like a comment. -/
theorem not_encodes : ¬ ∀ (py : Py) (today : Date) (params : Fields), Encodes py today params := by
  intro h
  have hok : (buildIni asciiPy sampleDay (.obj (sampleRequest "A\n;B"))).isOk = true := by
    decide +kernel
  rcases htext : buildIni asciiPy sampleDay (.obj (sampleRequest "A\n;B")) with e | text
  · rw [htext] at hok
    cases hok
  · obtain ⟨parsed, hread, -, hvalues⟩ := h _ _ _ text htext
    obtain ⟨parsed', hread', -, hvalues'⟩ := read_buildIni htext
    rw [hread] at hread'
    cases hread'
    have hsymbol : ("Symbol".toList, "A\n;B".toList) ∈ inputs asciiPy (sampleRequest "A\n;B") :=
      .head _
    have hsame := (hvalues' _ hsymbol).symm.trans (hvalues _ hsymbol)
    revert hsame
    decide +kernel

end Backtest.IniBuilder

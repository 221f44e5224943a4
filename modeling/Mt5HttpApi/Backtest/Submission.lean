import Mt5HttpApi.Backtest.CacheName
import Mt5HttpApi.Lib.Checks
import Mt5HttpApi.Lib.Ini

/-!
# Submitting a backtest

`run_backtest` of `mt5api/backtest/handler.py` up to the stored job: the checks of the form, and the
steps that rewrite the INI. Only a `ValueError` before the job is staged becomes an answer; what
else is raised escapes.

* `prepare_of_read`: what an INI that was read comes to.
* `stage_isOk`: when the job is staged.
* `answers_iff`: when a submission is stored or refused.
-/

namespace Backtest.Submit

open Text Ini Checks

/-- What a step raises. -/
inductive Raised
  /-- A `ValueError` with its text. -/
  | value (message : List Char)
  /-- A `configparser.Error`, which is no `ValueError`. -/
  | config (error : ReadError)
  /-- A `KeyError`. -/
  | key (name : List Char)
  /-- The operating system cannot create the file. -/
  | os (name : List Char)
  deriving DecidableEq, Repr

/-- The credentials of the account, as texts. -/
structure Credentials where
  login : List Char
  password : List Char
  server : List Char

/-- What a submission meets. -/
structure Site where
  /-- `_load_account_config`, or the text of its `ValueError`. -/
  credentials : Except (List Char) Credentials
  /-- The configured suffix of symbols, or nothing. -/
  suffix : List Char
  /-- `symbol_cache.load`. -/
  known : Option (List (List Char))
  /-- The value of a decimal digit, of any script. -/
  decimal : Char → Option ℕ
  /-- The directory of assets has the file. -/
  asset : (subdir name : List Char) → Bool
  /-- A file of the name can be created in the directory of a job. -/
  creates : List Char → Bool

/-! ## The INI -/

/-- `[Tester]`. -/
def tester : List Char := "Tester".toList

/-- `[Common]`. -/
def common : List Char := "Common".toList

/-- The options of a section. -/
def optionsOf (p : Parsed) (sect : List Char) : Options := (Dict.get p.sections sect).getD []

/-- `parser[section].get(key)`: of the section, or else of the defaults. -/
def lookup (p : Parsed) (sect key : List Char) : Option (List Char) :=
  (Dict.get (optionsOf p sect) key).or (Dict.get p.defaults key)

/-- `parser[section] = options`. -/
def putSection (p : Parsed) (sect : List Char) (options : Options) : Parsed :=
  { p with sections := Dict.set p.sections sect options }

/-- `parser[section][key] = value`. -/
def put (p : Parsed) (sect key value : List Char) : Parsed :=
  putSection p sect (Dict.set (optionsOf p sect) key value)

/-- The parser has the section. -/
def hasSection (p : Parsed) (sect : List Char) : Bool := (Dict.get p.sections sect).isSome

/-- `_parse_ini`. -/
def parseIni (text : List Char) : Except Raised Parsed :=
  match Ini.read text with
  | .error error => .error (.config error)
  | .ok p =>
    if hasSection p tester then .ok p else .error (.value "INI missing [Tester] section".toList)

/-- `_override_credentials`. -/
def overrideCredentials (creds : Credentials) (p : Parsed) : Parsed :=
  let p := if hasSection p common then p else putSection p common []
  put (put (put p common "Login".toList creds.login) common "Password".toList creds.password)
    common "Server".toList creds.server

/-- `_normalize_symbol`. -/
def normalizeSymbol (site : Site) (p : Parsed) : Parsed :=
  let symbol := strip ((lookup p tester "Symbol".toList).getD [])
  if symbol = [] ∨ site.suffix = [] ∨ site.suffix.isSuffixOf symbol then p
  else
    let remapped := symbol ++ site.suffix
    if site.known.any fun names => remapped ∉ names ∧ symbol ∈ names then p
    else put p tester "Symbol".toList remapped

/-- `_normalize_expert`. -/
def normalizeExpert (expertFilename : List Char) (p : Parsed) : Parsed :=
  let base := if endsWithIgnoringCase ".ex5".toList expertFilename then
    expertFilename.take (expertFilename.length - 4) else expertFilename
  put p tester "Expert".toList ("Uploaded\\".toList ++ base)

/-- `_optimization_type`. -/
def optimizationType (site : Site) (p : Parsed) : Except Raised ℕ :=
  match optimizationValue site.decimal (lookup p tester "Optimization".toList) with
  | none => .error (.value "Tester Optimization must be an integer 0..3".toList)
  | some n =>
    if 0 ≤ n ∧ n ≤ 3 then .ok n.toNat
    else .error (.value "Tester Optimization must be 0..3".toList)

/-- `_ensure_report_path`: the parser and the name of the report. -/
def ensureReport (optimizationType : ℕ) (fresh : String) (p : Parsed) : Parsed × List Char :=
  let raw := strip ((lookup p tester "Report".toList).getD [])
  let name := (ensureReportPath (String.ofList raw) optimizationType fresh).toList
  (put (put (put p tester "Report".toList ("Reports\\".toList ++ name)) tester
    "ReplaceReport".toList ['1']) tester "ShutdownTerminal".toList ['1'], name)

/-- The key of the set file. -/
def expertParameters : List Char := "ExpertParameters".toList

/-- `_normalize_set`. A key that is only inherited is found, but cannot be taken out. -/
def normalizeSet (stagedSet : List Char) (p : Parsed) : Except Raised Parsed :=
  if stagedSet ≠ [] then .ok (put p tester expertParameters stagedSet)
  else
    match lookup p tester expertParameters with
    | none => .ok p
    | some _ =>
      if (Dict.get (optionsOf p tester) expertParameters).isSome then
        .ok (putSection p tester (Dict.pop (optionsOf p tester) expertParameters))
      else .error (.key expertParameters)

/-- `_serialize_ini`. -/
def serializeIni (p : Parsed) : List Char :=
  (if p.defaults = [] then [] else writeSection (defaultSection, p.defaults)) ++
    Ini.write p.sections

/-! ## The form -/

/-- The fields of the form. -/
structure Form where
  ini : List Char
  topPasses : Option (List Char)
  legacyTopPasses : Option (List Char)
  /-- The checks of the timeout, or the text of their `ValueError`. -/
  timeout : Except (List Char) Unit
  expertUpload : Option (List Char)
  expertName : List Char
  setUpload : Option (List Char)
  setName : List Char
  /-- The hexadecimal id for the name of a report. -/
  fresh : String
  /-- The id of the job. -/
  jobId : List Char

/-- `_form_field` of `top_passes`. -/
def topPassesField (form : Form) : Except Raised (Option (List Char)) :=
  match form.topPasses, form.legacyTopPasses with
  | some value, some legacy =>
    if value ≠ legacy then
      .error (.value "top_passes and topPasses are the same field; send one".toList)
    else .ok (some value)
  | value, legacy => .ok (value.or legacy)

/-- `DEFAULT_TOP_PASSES`. -/
def defaultTopPasses : ℤ := 50

/-- `MAX_TOP_PASSES`. -/
def maxTopPasses : ℤ := 500

/-- `_parse_top_passes`. -/
def parseTopPasses (site : Site) (raw : Option (List Char)) : Except Raised ℤ :=
  let text := strip (raw.getD [])
  if text = [] then .ok defaultTopPasses
  else
    match PyInt.int site.decimal text with
    | none => .error (.value "topPasses must be an integer 1..500".toList)
    | some n =>
      if n < 1 ∨ maxTopPasses < n then .error (.value "topPasses must be 1..500".toList) else .ok n

/-- `_safe_basename`. -/
def safeBasename (name field : List Char) : Except Raised (List Char) :=
  let name := strip name
  if name = [] then .ok []
  else if !isBasename name ∨ name = ['.', '.'] ∨ name = ['.'] then
    .error (.value (field ++ " must be a filename, not a path".toList))
  else .ok name

/-- The check of the ending. -/
def checkExt (field ext name : List Char) : Except Raised (List Char) :=
  if endsWithIgnoringCase ext name then .ok name
  else .error (.value (field ++ " must be a ".toList ++ ext ++ " file".toList))

/-- `_read_submission`: the name of the file. -/
def readSubmission (site : Site) (upload : Option (List Char)) (assetName subdir field : List Char)
    (required : Bool) (ext : List Char) : Except Raised (List Char) :=
  match upload.filter (· ≠ []) with
  | some filename => do
    let name ← safeBasename filename field
    checkExt field ext name
  | none => do
    let name ← safeBasename assetName field
    if name = [] then
      if required then .error (.value ("Missing backtest input: ".toList ++ field)) else .ok []
    else if !site.asset subdir name then
      .error (.value (field ++ " asset not found: ".toList ++ name))
    else checkExt field ext name

/-- What the checks of the form come to. -/
structure Checked where
  topPasses : ℤ
  expertFilename : List Char
  setFilename : List Char

/-- The checks of the form. -/
def checkForm (site : Site) (form : Form) : Except Raised Checked := do
  let field ← topPassesField form
  let topPasses ← parseTopPasses site field
  form.timeout.mapError Raised.value
  let expertFilename ← readSubmission site form.expertUpload form.expertName "experts".toList
    "expert".toList true ".ex5".toList
  let setFilename ← readSubmission site form.setUpload form.setName "sets".toList "set".toList
    false ".set".toList
  pure ⟨topPasses, expertFilename, setFilename⟩

/-! ## The job -/

/-- The name of the staged set file. -/
def stagedSetName (form : Form) (setFilename : List Char) : List Char :=
  if setFilename = [] then [] else form.jobId ++ "__".toList ++ setFilename

/-- What the INI of a submission comes to. -/
structure Prepared where
  parser : Parsed
  optimizationType : ℕ
  reportName : List Char

/-- The steps that rewrite the INI, up to the name of the report. -/
def prepare (site : Site) (form : Form) (checked : Checked) : Except Raised Prepared := do
  let p ← parseIni form.ini
  let creds ← site.credentials.mapError Raised.value
  let p :=
    normalizeExpert checked.expertFilename (normalizeSymbol site (overrideCredentials creds p))
  let type ← optimizationType site p
  let (p, reportName) := ensureReport type form.fresh p
  pure ⟨p, type, reportName⟩

/-- The job that is stored, with the text of its `normalized.ini`. -/
structure StoredJob where
  checked : Checked
  optimizationType : ℕ
  reportName : List Char
  normalizedIni : List Char

/-- A file is created in the directory of the job. -/
def create (site : Site) (name : List Char) : Except Raised Unit :=
  if site.creates name then .ok () else .error (.os name)

/-- The rest of `run_backtest`, up to the stored job. -/
def stage (site : Site) (form : Form) (checked : Checked) (prepared : Prepared) :
    Except Raised StoredJob := do
  let staged := stagedSetName form checked.setFilename
  let p ← normalizeSet staged prepared.parser
  create site checked.expertFilename
  if staged ≠ [] then create site staged
  pure ⟨checked, prepared.optimizationType, prepared.reportName, serializeIni p⟩

/-- How a submission ends. -/
inductive Outcome
  | refused (status : ℕ) (message : List Char)
  | escaped (raised : Raised)
  | stored (job : StoredJob)

/-- `run_backtest`. -/
def runBacktest (site : Site) (form : Form) : Outcome :=
  match checkForm site form >>= fun checked =>
      (prepare site form checked).map fun prepared => (checked, prepared) with
  | .error (.value message) => .refused 400 message
  | .error raised => .escaped raised
  | .ok (checked, prepared) =>
    match stage site form checked prepared with
    | .error raised => .escaped raised
    | .ok job => .stored job

/-! ## What the steps leave as it was -/

variable {site : Site} {form : Form} {checked : Checked} {p q : Parsed}
  {sect sect' key key' value : List Char} {type : ℕ} {fresh : String}

/-- An option of a section. -/
def own (p : Parsed) (sect key : List Char) : Option (List Char) := Dict.get (optionsOf p sect) key

theorem optionsOf_putSection (p : Parsed) (sect sect' : List Char) (options : Options) :
    optionsOf (putSection p sect options) sect' =
      if sect' = sect then options else optionsOf p sect' := by
  unfold optionsOf putSection
  rw [Dict.get_set]
  split <;> rfl

/-- Only the option that is put changes. -/
theorem own_put (p : Parsed) (sect key value sect' key' : List Char) :
    own (put p sect key value) sect' key' =
      if sect' = sect ∧ key' = key then some value else own p sect' key' := by
  unfold own put
  rw [optionsOf_putSection]
  by_cases hsect : sect' = sect
  · subst hsect
    rw [if_pos rfl, Dict.get_set]
    by_cases hkey : key' = key
    · rw [if_pos hkey, if_pos ⟨rfl, hkey⟩]
    · rw [if_neg hkey, if_neg fun h => hkey h.2]
  · rw [if_neg hsect, if_neg fun h => hsect h.1]

theorem own_put_of_ne (h : sect' ≠ sect ∨ key' ≠ key) (p : Parsed) (value : List Char) :
    own (put p sect key value) sect' key' = own p sect' key' := by
  rw [own_put, if_neg]
  rintro ⟨hsect, hkey⟩
  exact h.elim (absurd hsect) (absurd hkey)

/-- The option and the defaults are the same. -/
def Agrees (p q : Parsed) (sect key : List Char) : Prop :=
  own q sect key = own p sect key ∧ q.defaults = p.defaults

theorem Agrees.lookup (h : Agrees p q sect key) : lookup q sect key = lookup p sect key := by
  unfold Submit.lookup
  have hown : Dict.get (optionsOf q sect) key = Dict.get (optionsOf p sect) key := h.1
  rw [hown, h.2]

theorem Agrees.trans {r : Parsed} (h : Agrees p q sect key) (h' : Agrees q r sect key) :
    Agrees p r sect key := ⟨h'.1.trans h.1, h'.2.trans h.2⟩

theorem agrees_put (h : sect' ≠ sect ∨ key' ≠ key) (p : Parsed) (value : List Char) :
    Agrees p (put p sect key value) sect' key' := ⟨own_put_of_ne h p value, rfl⟩

theorem agrees_overrideCredentials (creds : Credentials) (h : sect ≠ common) (p : Parsed) :
    Agrees p (overrideCredentials creds p) sect key := by
  have hsection :
      Agrees p (if hasSection p common then p else putSection p common []) sect key := by
    split
    · exact ⟨rfl, rfl⟩
    · refine ⟨?_, rfl⟩
      unfold own
      rw [optionsOf_putSection, if_neg h]
  unfold overrideCredentials
  exact ((hsection.trans (agrees_put (.inl h) _ _)).trans (agrees_put (.inl h) _ _)).trans
    (agrees_put (.inl h) _ _)

theorem agrees_normalizeSymbol (h : key ≠ "Symbol".toList) (p : Parsed) :
    Agrees p (normalizeSymbol site p) tester key := by
  unfold normalizeSymbol
  dsimp only
  split
  · exact ⟨rfl, rfl⟩
  · split
    · exact ⟨rfl, rfl⟩
    · exact agrees_put (.inr h) _ _

theorem agrees_normalizeExpert (h : key ≠ "Expert".toList) (file : List Char) (p : Parsed) :
    Agrees p (normalizeExpert file p) tester key := by
  unfold normalizeExpert
  exact agrees_put (.inr h) _ _

/-- The keys that `_ensure_report_path` sets. -/
def reportKeys : List (List Char) :=
  ["Report".toList, "ReplaceReport".toList, "ShutdownTerminal".toList]

theorem agrees_ensureReport (h : key ∉ reportKeys) (type : ℕ) (fresh : String) (p : Parsed) :
    Agrees p (ensureReport type fresh p).1 tester key := by
  simp only [reportKeys, List.mem_cons, List.not_mem_nil, or_false, not_or] at h
  unfold ensureReport
  exact ((agrees_put (.inr h.1) _ _).trans (agrees_put (.inr h.2.1) _ _)).trans
    (agrees_put (.inr h.2.2) _ _)

/-- The parser before the report is named. -/
def normalized (site : Site) (checked : Checked) (creds : Credentials) (p : Parsed) : Parsed :=
  normalizeExpert checked.expertFilename (normalizeSymbol site (overrideCredentials creds p))

/-- No other value of `[Tester]` is rewritten than those of the symbol and the expert. -/
theorem agrees_normalized (hsymbol : key ≠ "Symbol".toList) (hexpert : key ≠ "Expert".toList)
    (creds : Credentials) (p : Parsed) : Agrees p (normalized site checked creds p) tester key :=
  ((agrees_overrideCredentials creds (by decide) p).trans (agrees_normalizeSymbol hsymbol _)).trans
    (agrees_normalizeExpert hexpert _ _)

/-! ## When a submission is answered -/

/-- The submission is stored or refused. -/
def Outcome.Answered : Outcome → Prop
  | .refused status _ => 400 ≤ status ∧ status < 500
  | .escaped _ => False
  | .stored _ => True

/-- A `ValueError`. -/
def Raised.IsValue : Raised → Prop
  | .value _ => True
  | _ => False

/-- The further checks of an INI that was read. -/
structure Passes (site : Site) (p : Parsed) : Prop where
  hasTester : hasSection p tester = true
  configured : site.credentials.isOk = true
  optimization : (optimizationType site p).isOk = true

/-- A set file is named by the defaults only. -/
def OnlyInherited (p : Parsed) : Prop :=
  own p tester expertParameters = none ∧ (Dict.get p.defaults expertParameters).isSome = true

/-- If the checks of the form pass, the INI can be read; and if its checks pass too, no set file is
named by the defaults only when none was sent, and files of the names can be created. -/
def Fits (site : Site) (form : Form) : Prop :=
  ∀ checked, checkForm site form = .ok checked → ∃ p, Ini.read form.ini = .ok p ∧
    (Passes site p → (checked.setFilename = [] → ¬ OnlyInherited p) ∧
      site.creates checked.expertFilename = true ∧
        (checked.setFilename ≠ [] → site.creates (stagedSetName form checked.setFilename) = true))

theorem isValue_safeBasename {name field : List Char} {e : Raised}
    (h : safeBasename name field = .error e) : e.IsValue := by
  unfold safeBasename at h
  dsimp only at h
  split_ifs at h
  cases h
  trivial

theorem isValue_checkExt {field ext name : List Char} {e : Raised}
    (h : checkExt field ext name = .error e) : e.IsValue := by
  unfold checkExt at h
  split_ifs at h
  cases h
  trivial

theorem isValue_readSubmission {upload : Option (List Char)}
    {assetName subdir field ext : List Char}
    {required : Bool} {e : Raised}
    (h : readSubmission site upload assetName subdir field required ext = .error e) :
    e.IsValue := by
  unfold readSubmission at h
  split at h
  next filename _ =>
    rcases hname : safeBasename filename field with e' | name
    · rw [hname] at h
      cases h
      exact isValue_safeBasename hname
    · rw [hname] at h
      exact isValue_checkExt h
  next =>
    rcases hname : safeBasename assetName field with e' | name
    · rw [hname] at h
      cases h
      exact isValue_safeBasename hname
    · rw [hname] at h
      change (if _ then _ else _) = _ at h
      split_ifs at h
      · cases h
        trivial
      · cases h
        trivial
      · exact isValue_checkExt h

theorem isValue_parseTopPasses {raw : Option (List Char)} {e : Raised}
    (h : parseTopPasses site raw = .error e) : e.IsValue := by
  unfold parseTopPasses at h
  dsimp only at h
  split at h
  · cases h
  · split at h
    · cases h
      trivial
    · split at h
      · cases h
        trivial
      · cases h

theorem isValue_topPassesField {e : Raised} (h : topPassesField form = .error e) : e.IsValue := by
  unfold topPassesField at h
  split at h
  · split at h
    · cases h
      trivial
    · cases h
  · cases h

/-- The checks of the form raise nothing but a `ValueError`. -/
theorem isValue_checkForm {e : Raised} (h : checkForm site form = .error e) : e.IsValue := by
  unfold checkForm at h
  rcases hfield : topPassesField form with e' | field
  · rw [hfield] at h
    cases h
    exact isValue_topPassesField hfield
  rcases hpasses : parseTopPasses site field with e' | topPasses
  · simp only [hfield, hpasses, bind, Except.bind] at h
    cases h
    exact isValue_parseTopPasses hpasses
  rcases htimeout : form.timeout with message | u
  · simp only [hfield, hpasses, htimeout, bind, Except.bind, Except.mapError] at h
    cases h
    trivial
  rcases hexpert : readSubmission site form.expertUpload form.expertName "experts".toList
      "expert".toList true ".ex5".toList with e' | expertFilename
  · simp only [hfield, hpasses, htimeout, hexpert, bind, Except.bind, Except.mapError] at h
    cases h
    exact isValue_readSubmission hexpert
  rcases hset : readSubmission site form.setUpload form.setName "sets".toList "set".toList
      false ".set".toList with e' | setFilename
  · simp only [hfield, hpasses, htimeout, hexpert, hset, bind, Except.bind, Except.mapError] at h
    cases h
    exact isValue_readSubmission hset
  · simp only [hfield, hpasses, htimeout, hexpert, hset, bind, Except.bind, Except.mapError, pure,
      Except.pure] at h
    cases h

theorem isValue_optimizationType {e : Raised} (h : optimizationType site p = .error e) :
    e.IsValue := by
  unfold optimizationType at h
  split at h
  · cases h
    trivial
  · split_ifs at h
    cases h
    trivial

theorem optimizationType_congr (h : Agrees p q tester "Optimization".toList) :
    optimizationType site q = optimizationType site p := by
  unfold optimizationType
  rw [h.lookup]

/-- What an INI that was read comes to: a parser with its set file as it was, or a `ValueError`. -/
theorem prepare_of_read (hread : Ini.read form.ini = .ok p) :
    (Passes site p ∧ ∃ prepared, prepare site form checked = .ok prepared ∧
      Agrees p prepared.parser tester expertParameters) ∨
    ¬ Passes site p ∧ ∃ message, prepare site form checked = .error (.value message) := by
  unfold prepare parseIni
  rw [hread]
  by_cases htester : hasSection p tester = true
  · rcases hcreds : site.credentials with message | creds
    · right
      refine ⟨fun hpasses => ?_, message, ?_⟩
      · have hconfigured := hpasses.configured
        rw [hcreds] at hconfigured
        cases hconfigured
      · simp only [htester, if_true, bind, Except.bind, Except.mapError]
    · have htype : optimizationType site (normalized site checked creds p) =
          optimizationType site p :=
        optimizationType_congr (agrees_normalized (by decide) (by decide) creds p)
      rcases hoptimization : optimizationType site p with e | type
      · right
        refine ⟨fun hpasses => ?_, ?_⟩
        · have hok := hpasses.optimization
          rw [hoptimization] at hok
          cases hok
        · have hvalue := isValue_optimizationType hoptimization
          rw [hoptimization] at htype
          unfold normalized at htype
          simp only [htester, if_true, bind, Except.bind, Except.mapError, htype]
          cases e with
          | value message => exact ⟨message, rfl⟩
          | config | key | os => exact hvalue.elim
      · left
        refine ⟨⟨htester, by rw [hcreds]; rfl, by rw [hoptimization]; rfl⟩, ?_⟩
        rw [hoptimization] at htype
        unfold normalized at htype
        simp only [htester, if_true, bind, Except.bind, Except.mapError, htype, pure, Except.pure]
        refine ⟨_, rfl, ?_⟩
        exact (agrees_normalized (by decide) (by decide) creds p).trans
          (agrees_ensureReport (by decide) _ _ _)
  · right
    refine ⟨fun hpasses => htester hpasses.hasTester, "INI missing [Tester] section".toList, ?_⟩
    simp only [htester, bind, Except.bind]
    rfl

/-- The set file is settled, unless it is named by the defaults only. -/
theorem normalizeSet_isOk (stagedSet : List Char) (p : Parsed) :
    (normalizeSet stagedSet p).isOk = true ↔ (stagedSet = [] → ¬ OnlyInherited p) := by
  unfold normalizeSet OnlyInherited own lookup
  by_cases hset : stagedSet = []
  · rw [if_neg (by simpa using hset)]
    rcases hown : Dict.get (optionsOf p tester) expertParameters with _ | value
    · rcases hdefault : Dict.get p.defaults expertParameters with _ | value
      · simp [Except.isOk, Except.toBool]
      · simp [hset, Except.isOk, Except.toBool]
    · simp [Except.isOk, Except.toBool]
  · rw [if_pos hset]
    simp [hset, Except.isOk, Except.toBool]

theorem stagedSetName_eq_nil_iff {setFilename : List Char} :
    stagedSetName form setFilename = [] ↔ setFilename = [] := by
  unfold stagedSetName
  split
  next h => simp [h]
  next h => simp [h]

theorem create_eq_ok_iff {name : List Char} {u : Unit} :
    create site name = .ok u ↔ site.creates name = true := by
  unfold create
  split <;> simp_all

/-- The job is staged when its set file is settled and its files can be created. -/
theorem stage_isOk (prepared : Prepared) : (stage site form checked prepared).isOk = true ↔
    (checked.setFilename = [] → ¬ OnlyInherited prepared.parser) ∧
      site.creates checked.expertFilename = true ∧ (checked.setFilename ≠ [] →
        site.creates (stagedSetName form checked.setFilename) = true) := by
  have hsettled := normalizeSet_isOk (stagedSetName form checked.setFilename) prepared.parser
  rw [stagedSetName_eq_nil_iff] at hsettled
  rw [← hsettled, ne_eq, ← @stagedSetName_eq_nil_iff form]
  unfold stage
  dsimp only
  generalize stagedSetName form checked.setFilename = staged
  rw [isOk_bind]
  constructor
  · rintro ⟨q, hset, hrest⟩
    rw [isOk_bind] at hrest
    obtain ⟨u, hexpert, hrest⟩ := hrest
    refine ⟨by rw [hset]; rfl, create_eq_ok_iff.mp hexpert, fun hstaged => ?_⟩
    rw [if_pos hstaged, isOk_bind] at hrest
    obtain ⟨u, hname, -⟩ := hrest
    exact create_eq_ok_iff.mp hname
  · rintro ⟨hset, hexpert, hname⟩
    rcases hq : normalizeSet staged prepared.parser with e | q
    · rw [hq] at hset
      cases hset
    · refine ⟨q, rfl, isOk_bind.mpr ⟨(), create_eq_ok_iff.mpr hexpert, ?_⟩⟩
      by_cases hstaged : staged = []
      · rw [if_neg (by simpa using hstaged)]
        rfl
      · rw [if_pos hstaged]
        exact isOk_bind.mpr ⟨(), create_eq_ok_iff.mpr (hname hstaged), rfl⟩

/-- A submission is stored or refused exactly when what is raised besides a `ValueError` is ruled
out: by the INI, and by the names of the files. -/
theorem answers_iff (site : Site) (form : Form) :
    (runBacktest site form).Answered ↔ Fits site form := by
  unfold runBacktest
  rcases hchecked : checkForm site form with e | checked
  · -- a check of the form fails with a `ValueError`
    have hfits : Fits site form := fun checked h => by
      rw [hchecked] at h
      cases h
    have hvalue := isValue_checkForm hchecked
    cases e with
    | value message => exact iff_of_true ⟨by decide, by decide⟩ hfits
    | config | key | os => exact hvalue.elim
  have hfits : Fits site form ↔ ∃ p, Ini.read form.ini = .ok p ∧ (Passes site p →
      (checked.setFilename = [] → ¬ OnlyInherited p) ∧ site.creates checked.expertFilename = true ∧
        (checked.setFilename ≠ [] →
          site.creates (stagedSetName form checked.setFilename) = true)) := by
    constructor
    · exact fun h => h checked hchecked
    · intro h checked' hchecked'
      obtain rfl := Except.ok.inj (hchecked.symm.trans hchecked')
      exact h
  rw [hfits]
  show Outcome.Answered (match (prepare site form checked).map fun prepared => (checked, prepared)
    with | .error (.value message) => _ | .error raised => _ | .ok (checked, prepared) => _) ↔ _
  rcases hread : Ini.read form.ini with error | p
  · have hprepare : prepare site form checked = .error (.config error) := by
      unfold prepare parseIni
      rw [hread]
      rfl
    rw [hprepare]
    refine iff_of_false id ?_
    rintro ⟨p, hp, -⟩
    cases hp
  · have hpasses : (∃ p', Except.ok p = (Except.ok p' : Except ReadError Parsed) ∧ (Passes site p' →
        (checked.setFilename = [] → ¬ OnlyInherited p') ∧
          site.creates checked.expertFilename = true ∧ (checked.setFilename ≠ [] →
            site.creates (stagedSetName form checked.setFilename) = true))) ↔ (Passes site p →
        (checked.setFilename = [] → ¬ OnlyInherited p) ∧
          site.creates checked.expertFilename = true ∧ (checked.setFilename ≠ [] →
            site.creates (stagedSetName form checked.setFilename) = true)) := by
      constructor
      · rintro ⟨p', hp', h⟩
        obtain rfl := Except.ok.inj hp'
        exact h
      · exact fun h => ⟨p, rfl, h⟩
    rw [hpasses]
    rcases @prepare_of_read site form checked p hread with
      ⟨hpass, prepared, hprepare, hagrees⟩ | ⟨hfail, message, hprepare⟩
    · rw [hprepare]
      have honly : OnlyInherited prepared.parser ↔ OnlyInherited p := by
        unfold OnlyInherited
        rw [hagrees.1, hagrees.2]
      have hstage := @stage_isOk site form checked prepared
      rw [honly] at hstage
      rw [forall_prop_of_true hpass, ← hstage]
      show Outcome.Answered (match stage site form checked prepared with
        | .error raised => .escaped raised | .ok job => .stored job) ↔ _
      rcases stage site form checked prepared with raised | job
      · exact iff_of_false id (by rintro ⟨⟩)
      · exact iff_of_true trivial rfl
    · rw [hprepare]
      exact iff_of_true ⟨by decide, by decide⟩ fun hpass => absurd hpass hfail

/-- A terminal with one expert among its assets. -/
def sampleSite : Site where
  credentials := .ok ⟨"1".toList, "x".toList, "Demo".toList⟩
  suffix := []
  known := none
  decimal := PyInt.asciiDecimal
  asset subdir name := subdir = "experts".toList ∧ name = "ea.ex5".toList
  creates _ := true

/-- A form with that expert. -/
def sampleForm (ini : List Char) : Form where
  ini := ini
  topPasses := none
  legacyTopPasses := none
  timeout := .ok ()
  expertUpload := none
  expertName := "ea.ex5".toList
  setUpload := none
  setName := []
  fresh := "0f"
  jobId := "1e".toList

/-- The submission escapes. -/
def Outcome.isEscaped : Outcome → Bool
  | .escaped _ => true
  | _ => false

/-- A set file that only the defaults name escapes as a `KeyError`. -/
example : (runBacktest sampleSite (sampleForm
    "[DEFAULT]\nExpertParameters=a.set\n[Tester]\nSymbol=EURUSD\n".toList)).isEscaped = true := by
  decide +kernel

/-- A text without a section escapes. -/
theorem not_answers : ¬ ∀ (site : Site) (form : Form), (runBacktest site form).Answered := by
  intro h
  have hanswered := h sampleSite (sampleForm "Symbol=EURUSD\n".toList)
  have hescaped : (runBacktest sampleSite (sampleForm "Symbol=EURUSD\n".toList)).isEscaped =
      true := by decide +kernel
  generalize runBacktest sampleSite (sampleForm "Symbol=EURUSD\n".toList) = outcome
    at hanswered hescaped
  cases outcome with
  | refused status message => cases hescaped
  | escaped raised => exact hanswered
  | stored job => cases hescaped

end Backtest.Submit

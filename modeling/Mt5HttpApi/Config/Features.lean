import Mt5HttpApi.Config
import Mt5HttpApi.Lib.Dict

/-!
# The features of a terminal, at boot and in its API

Two programs read from `config.yaml` what a terminal is to have: `scripts/config_helper.py
write_ini`, which `start.bat` calls before it launches the terminal, and the API process of the
terminal. The first is called with the broker and the account only, and looks up an entry of the
default instance in live mode; the second is told all of the line that `terminals` prints, and
passes on only some keys of the entry.

- `agrees_iff`: when the two agree on the loader block and on the terminal's own MCP servers;
- `not_agrees`: a terminal that is not of the default instance gets a loader its API knows nothing
  of.
-/

namespace Config

open Text

/-! ## Values of `config.yaml` -/

/-- A scalar. Any other value than these is given by its `str()` and its `bool()`. -/
inductive Scalar where
  | null
  | bool (b : Bool)
  | int (n : Int)
  | str (text : String)
  | other (text : String) (truthy : Bool)
  deriving DecidableEq

/-- A value: a scalar, or a mapping with its `str()`. -/
inductive Setting where
  | scalar (value : Scalar)
  | mapping (items : List (Scalar × Scalar)) (text : String)
  deriving DecidableEq

/-- `bool(value)`. -/
def Scalar.truthy : Scalar → Bool
  | .null => false
  | .bool b => b
  | .int n => n ≠ 0
  | .str text => text ≠ ""
  | .other _ truthy => truthy

/-- `str(value)`. -/
def Scalar.text : Scalar → String
  | .null => "None"
  | .bool b => if b then "True" else "False"
  | .int n => toString n
  | .str text => text
  | .other text _ => text

namespace Setting

/-- `None`, which `get` answers for a key that is not there. -/
def null : Setting := .scalar .null

def str (text : String) : Setting := .scalar (.str text)

def truthy : Setting → Bool
  | .scalar value => value.truthy
  | .mapping items _ => !items.isEmpty

def text : Setting → String
  | .scalar value => value.text
  | .mapping _ text => text

end Setting

/-- An entry of the `terminals` list. -/
abbrev Entry := List (String × Setting)

/-- `entry.get(key, default)`. -/
def Entry.getD (t : Entry) (key : String) (default : Setting) : Setting :=
  (Dict.get t key).getD default

/-- The entry says `key: false`. -/
def Entry.turnsOff (t : Entry) (key : String) : Bool :=
  decide (t.getD key .null = .scalar (.bool false))

/-- `_normalize_instance(entry.get("instance"))`. -/
def Entry.instanceName (t : Entry) : String :=
  normalizeInstance (match t.getD "instance" .null with
    | .scalar .null => none
    | value => some value.text)

/-- The parts of `config.yaml` that are read here. A part that is not there is empty or `None`; an
`accounts` that is no mapping, or a broker in it that is none, is `none`. -/
structure File where
  accounts : Option (List (Scalar × Option (List (Scalar × Setting))))
  chartctl : Setting
  disableTerminalMcp : Setting
  terminals : List Entry

/-- `feature_block`. -/
def featureBlock : Setting → List (Scalar × Scalar)
  | .scalar (.bool b) => [(.str "enabled", .bool b)]
  | .mapping items _ => items
  | _ => []

/-- `bool(feature_block(raw).get("enabled", False))`. -/
def featureEnabled (raw : Setting) : Bool :=
  ((Dict.get (featureBlock raw) (.str "enabled")).getD (.bool false)).truthy

/-- `terminal_mcp.wanted`. -/
def wanted (globalValue : Setting) (entry : Option Entry) : Bool :=
  decide (globalValue = .scalar (.bool true)) &&
    !entry.any fun t => t.turnsOff "disable_terminal_mcp"

/-! ## The line of a terminal -/

/-- `text.lower()`, as far as it can come to letters of ASCII: besides their capitals, the Kelvin
sign is a `k`. -/
def lower (text : List Char) : List Char :=
  text.map fun c => if c = '\u212a' then 'k' else c.toLower

/-- The words that `terminals` prints for an entry, as `start.bat` splits them where none of them is
empty or has a blank in it. -/
structure Line where
  broker : String
  account : String
  inst : String
  port : String
  utcOffset : String
  mode : String
  deriving DecidableEq

/-- The mode that is printed. A true value that is no string has no `strip`. -/
def modeWord (mode : Setting) : Option String :=
  if mode.truthy then
    match mode with
    | .scalar (.str text) =>
      some (if lower (strip text.toList) = "backtest".toList then "backtest" else "live")
    | _ => none
  else some "live"

/-- `str(utc).replace(" ", "")`, and `0` without an offset. -/
def utcWord (utc : Setting) : String :=
  if utc = .null then "0" else String.ofList (utc.text.toList.filter (· ≠ ' '))

/-- `terminals`: the line of an entry, or `none` if printing it raises. -/
def terminalsLine (t : Entry) : Option Line := do
  let mode ← modeWord (t.getD "mode" .null)
  let broker ← Dict.get t "broker"
  let account ← Dict.get t "account"
  let port ← Dict.get t "port"
  some ⟨broker.text, account.text, t.instanceName, port.text,
    utcWord (t.getD "utc_offset" .null), mode⟩

/-! ## `write_ini` -/

/-- What is written for a terminal: the lines of its `mt5start.ini`, and whether its own MCP servers
are turned off. -/
structure Ini where
  lines : List String
  mcpDisabled : Bool
  deriving DecidableEq

/-- The account's entry, or `none` if looking it up raises. Without an account it is the first. -/
def credentials (accounts : Option (List (Scalar × Option (List (Scalar × Setting)))))
    (broker account : String) : Option (Option Setting) := do
  let accounts ← accounts
  match (Dict.get accounts (.str broker)).getD (some []) with
  | some b => some (if account ≠ "" then Dict.get b (.str account) else b.head?.map Prod.snd)
  | none => if account ≠ "" then none else some none

/-- The lines with the credentials, or `none` if one of them is missing. -/
def credentialLines : Option Setting → Option (List String)
  | none => some []
  | some (.scalar value) => if value.truthy then none else some []
  | some (.mapping items _) =>
    if items.isEmpty then some []
    else do
      let login ← Dict.get items (.str "login")
      let server ← Dict.get items (.str "server")
      let password ← Dict.get items (.str "password")
      some ["Login=" ++ login.text, "Server=" ++ server.text, "Password=" ++ password.text]

/-- The entry that `write_ini` finds. -/
def iniEntry (terms : List Entry) (broker account inst : String) : Option Entry :=
  terms.find? fun t =>
    let name := t.getD "instance" .null
    decide (t.getD "broker" .null = .str broker) && (t.getD "account" .null).text == account &&
      decide ((if name.truthy then name else .str "default") = .str inst)

/-- The lines of `[Common]`, `[Experts]` and `[Email]` that do not depend on the terminal. -/
def fixedLines : List String :=
  ["KeepPrivate=0", "AutoTrading=1", "NewsEnable=0", "[Experts]", "AllowLiveTrading=1",
    "AllowDllImport=1", "Enabled=1", "[Email]", "Enable=0"]

/-- The block that attaches the loader at launch. -/
def startUpLines (entry : Option Entry) : List String :=
  let suffix := (entry.getD []).getD "symbol_suffix" .null
  ["[StartUp]", "Expert=Advisors\\MT5ChartLoader",
    "Symbol=EURUSD" ++ (if suffix.truthy then suffix.text else ""), "Period=H1"]

/-- `write_ini`, or `none` if it raises before it has written. -/
def writeIni (cfg : File) (broker account : String) (inst mode : Option String) : Option Ini := do
  let inst := inst.getD "default"
  let mode := lower (mode.getD "live").toList
  let creds ← credentials cfg.accounts broker account
  let common ← credentialLines creds
  let entry := iniEntry cfg.terminals broker account inst
  let loader := mode = "live".toList ∧ featureEnabled cfg.chartctl = true ∧
    (entry.any fun t => t.turnsOff "chartctl") = false
  some ⟨["[Common]"] ++ common ++ fixedLines ++ (if loader then startUpLines entry else []),
    wanted cfg.disableTerminalMcp entry⟩

/-- `:write_ini` of `start.bat`: no instance and no mode are passed, and a plain file is written if
the helper fails. -/
def bootIni (cfg : File) (line : Line) : Ini :=
  (writeIni cfg line.broker line.account none none).getD ⟨["[Common]"] ++ fixedLines, false⟩

/-! ## The API process -/

/-- `match_terminal_config`: what is passed on of an entry. -/
def matched (t : Entry) : Entry :=
  let mode := t.getD "mode" .null
  [("broker", t.getD "broker" (.str "default")), ("account", t.getD "account" (.str "")),
    ("instance", .str t.instanceName), ("port", t.getD "port" .null),
    ("utc_offset", t.getD "utc_offset" (.str "0")),
    ("mode", if mode.truthy then mode else .str "live"),
    ("symbol_suffix", t.getD "symbol_suffix" .null), ("chartctl", t.getD "chartctl" .null),
    ("files", t.getD "files" .null)]

/-- `match_terminal_config`. An argument that is `None` matches every entry. -/
def matchTerminalConfig (terms : List Entry) (broker account inst : Option String) : Option Entry :=
  (terms.find? fun t =>
    broker.all (· == (t.getD "broker" .null).text) &&
      account.all (· == (t.getD "account" (.str "")).text) &&
      inst.all fun name => t.instanceName == normalizeInstance (some name)).map matched

/-- `load_terminal_config`, for the arguments of the command line. -/
def loadTerminalConfig (terms : List Entry) (broker account inst : String) : Entry :=
  let given := if broker ≠ "" ∨ account ≠ "" ∨ inst ≠ "" then
    matchTerminalConfig terms (some broker) (some account) (some inst) else none
  (given.or (matchTerminalConfig terms none none none)).getD
    [("broker", .str "default"), ("account", .str ""), ("instance", .str defaultInstance),
      ("mode", .str "live")]

/-- `normalize_mode`. -/
def normalizeMode (raw : String) : String :=
  if lower (strip raw.toList) = "backtest".toList then "backtest" else "live"

/-- `chartctl_enabled`. -/
def chartctlEnabled (mode : String) (block override : Setting) : Bool :=
  mode == "live" && featureEnabled block && decide (override ≠ .scalar (.bool false))

/-- What the API process of a terminal computes. -/
structure ApiFeatures where
  /-- `CHARTCTL_ENABLED`. -/
  chartctl : Bool
  /-- `DISABLE_TERMINAL_MCP`. -/
  disableTerminalMcp : Bool
  deriving DecidableEq

/-- The API process that `start.bat` starts for a line. -/
def apiFeatures (cfg : File) (line : Line) : ApiFeatures :=
  let terminal := loadTerminalConfig cfg.terminals line.broker line.account line.inst
  ⟨chartctlEnabled (normalizeMode line.mode) cfg.chartctl (terminal.getD "chartctl" .null),
    wanted cfg.disableTerminalMcp (some terminal)⟩

/-! ## When they agree -/

/-- Boot files and API agree on the terminal of a line. -/
structure Agrees (cfg : File) (line : Line) : Prop where
  loader : "[StartUp]" ∈ (bootIni cfg line).lines ↔ (apiFeatures cfg line).chartctl = true
  mcp : (bootIni cfg line).mcpDisabled = true ↔ (apiFeatures cfg line).disableTerminalMcp = true

/-- The first entry of the default instance with the broker, a string, and the account of a line. -/
def defaultEntry (cfg : File) (line : Line) : Option Entry :=
  iniEntry cfg.terminals line.broker line.account "default"

/-- The first entry with the broker, the account and the instance of a line. -/
def ownEntry (cfg : File) (line : Line) : Option Entry :=
  cfg.terminals.find? fun t =>
    (t.getD "broker" .null).text = line.broker ∧ (t.getD "account" (.str "")).text = line.account ∧
      t.instanceName = line.inst

/-- The credentials of a line can be read. -/
def credentialsRead (cfg : File) (line : Line) : Bool :=
  ((credentials cfg.accounts line.broker line.account).bind credentialLines).isSome

/-- Where the loader is on at all, the entry of the default instance, with credentials, lets it on
exactly if the terminal is live and its own entry does; and where the MCP servers are to be turned
off, that entry, with credentials, does not keep them. -/
structure AgreesWhen (cfg : File) (line : Line) : Prop where
  loader : featureEnabled cfg.chartctl = true →
    ((credentialsRead cfg line = true ∧
        ((defaultEntry cfg line).any fun t => t.turnsOff "chartctl") = false) ↔
      (line.mode = "live" ∧ ((ownEntry cfg line).any fun t => t.turnsOff "chartctl") = false))
  mcp : cfg.disableTerminalMcp = .scalar (.bool true) → credentialsRead cfg line = true ∧
    ((defaultEntry cfg line).any fun t => t.turnsOff "disable_terminal_mcp") = false

/-! ## The boot files -/

variable {cfg : File} {line : Line} {e : Entry}

/-- The lines with the credentials begin no block. -/
theorem startUp_not_mem_credentialLines {creds : Option Setting} {common : List String}
    (h : credentialLines creds = some common) : "[StartUp]" ∉ common := by
  have hempty : "[StartUp]" ∉ ([] : List String) := List.not_mem_nil
  rcases creds with - | ⟨value⟩ | ⟨items, text⟩
  · obtain rfl := Option.some.inj h
    exact hempty
  · rw [credentialLines] at h
    split_ifs at h
    obtain rfl := Option.some.inj h
    exact hempty
  · rw [credentialLines] at h
    split_ifs at h
    · obtain rfl := Option.some.inj h
      exact hempty
    simp only [Option.bind_eq_bind, Option.bind_eq_some_iff, Option.some.injEq] at h
    obtain ⟨login, -, server, -, password, -, rfl⟩ := h
    -- The two texts differ in the first character.
    have hhead : ∀ {a b : String}, a.toList.head? ≠ b.toList.head? → a ≠ b :=
      fun hne heq => hne (by rw [heq])
    simp only [List.mem_cons, List.not_mem_nil, or_false, not_or]
    refine ⟨hhead ?_, hhead ?_, hhead ?_⟩ <;> simp

/-- What `start.bat` has written where the credentials can be read. -/
theorem writeIni_boot (cfg : File) (line : Line) :
    writeIni cfg line.broker line.account none none =
      ((credentials cfg.accounts line.broker line.account).bind credentialLines).map fun common =>
        ⟨["[Common]"] ++ common ++ fixedLines ++
          (if featureEnabled cfg.chartctl = true ∧
              ((defaultEntry cfg line).any fun t => t.turnsOff "chartctl") = false
            then startUpLines (defaultEntry cfg line) else []),
          wanted cfg.disableTerminalMcp (defaultEntry cfg line)⟩ := by
  have hlive : lower "live".toList = "live".toList := by decide
  have hentry : iniEntry cfg.terminals line.broker line.account "default" =
      defaultEntry cfg line := rfl
  simp only [writeIni, Option.getD_none, hlive, true_and, hentry]
  cases credentials cfg.accounts line.broker line.account with
  | none => rfl
  | some creds =>
    simp only [Option.bind_eq_bind, Option.bind_some]
    cases credentialLines creds with
    | none => rfl
    | some common =>
      simp only [Option.bind_some, Option.map_some]

/-- The loader block is written if the credentials can be read, the feature is on and the entry of
the default instance does not turn it off. -/
theorem startUp_mem_bootIni : "[StartUp]" ∈ (bootIni cfg line).lines ↔
    credentialsRead cfg line = true ∧ featureEnabled cfg.chartctl = true ∧
      ((defaultEntry cfg line).any fun t => t.turnsOff "chartctl") = false := by
  have hfixed : "[StartUp]" ∉ fixedLines := by decide
  rw [bootIni, writeIni_boot, credentialsRead]
  cases hcommon : (credentials cfg.accounts line.broker line.account).bind credentialLines with
  | none => simp [hfixed]
  | some common =>
    obtain ⟨creds, -, hlines⟩ := Option.bind_eq_some_iff.mp hcommon
    have hnone := startUp_not_mem_credentialLines hlines
    simp only [Option.map_some, Option.getD_some, Option.isSome_some, true_and, List.mem_append]
    split_ifs with hon
    · exact ⟨fun _ => hon, fun _ => Or.inr List.mem_cons_self⟩
    · simp [hnone, hfixed, hon]

/-- The MCP servers are turned off if the credentials can be read and the entry of the default
instance does not keep them. -/
theorem mcpDisabled_bootIni : (bootIni cfg line).mcpDisabled = true ↔
    credentialsRead cfg line = true ∧
      wanted cfg.disableTerminalMcp (defaultEntry cfg line) = true := by
  rw [bootIni, writeIni_boot, credentialsRead]
  cases (credentials cfg.accounts line.broker line.account).bind credentialLines <;> simp

/-! ## The API process of a line -/

theorem normalizeInstance_ne_empty (value : Option String) : normalizeInstance value ≠ "" := by
  cases value with
  | none => decide
  | some value =>
    simp only [normalizeInstance]
    split
    next => decide
    next hname =>
      intro hempty
      exact hname (by simpa using congrArg String.toList hempty)

theorem modeWord_eq {mode : Setting} {word : String} (h : modeWord mode = some word) :
    word = "live" ∨ word = "backtest" := by
  unfold modeWord at h
  by_cases htrue : mode.truthy = true
  · rw [if_pos htrue] at h
    split at h
    next text =>
      obtain rfl := Option.some.inj h
      split_ifs
      · exact Or.inr rfl
      · exact Or.inl rfl
    next => cases h
  · rw [if_neg htrue] at h
    exact Or.inl (Option.some.inj h).symm

/-- The parts of a line. -/
theorem terminalsLine_eq_some (h : terminalsLine e = some line) :
    (e.getD "broker" .null).text = line.broker ∧ (e.getD "account" (.str "")).text = line.account ∧
      e.instanceName = line.inst ∧ (line.mode = "live" ∨ line.mode = "backtest") := by
  simp only [terminalsLine, Option.bind_eq_bind, Option.bind_eq_some_iff, Option.some.injEq] at h
  obtain ⟨mode, hmode, broker, hbroker, account, haccount, port, -, rfl⟩ := h
  exact ⟨by simp [Entry.getD, hbroker], by simp [Entry.getD, haccount], rfl, modeWord_eq hmode⟩

/-- The API process finds the first entry with the words of its line. -/
theorem loadTerminalConfig_line (he : e ∈ cfg.terminals) (hline : terminalsLine e = some line) :
    ∃ own, ownEntry cfg line = some own ∧
      loadTerminalConfig cfg.terminals line.broker line.account line.inst = matched own := by
  obtain ⟨hbroker, haccount, hinst, -⟩ := terminalsLine_eq_some hline
  have hname : normalizeInstance (some line.inst) = line.inst := by
    rw [← hinst]
    exact normalizeInstance_idem _
  have hgiven : line.inst ≠ "" := by
    rw [← hinst]
    exact normalizeInstance_ne_empty _
  have hmatch : matchTerminalConfig cfg.terminals (some line.broker) (some line.account)
      (some line.inst) = (ownEntry cfg line).map matched := by
    rw [matchTerminalConfig, ownEntry]
    congr 2
    funext t
    rw [Option.all_some, Option.all_some, Option.all_some, hname, Bool.eq_iff_iff]
    simp only [Bool.and_eq_true, beq_iff_eq, decide_eq_true_eq, and_assoc,
      eq_comm (a := line.broker), eq_comm (a := line.account)]
  have hfound : (ownEntry cfg line).isSome := by
    rw [ownEntry, List.find?_isSome]
    exact ⟨e, he, by simp [hbroker, haccount, hinst]⟩
  obtain ⟨own, hown⟩ := Option.isSome_iff_exists.mp hfound
  refine ⟨own, hown, ?_⟩
  rw [loadTerminalConfig, if_pos (Or.inr (Or.inr hgiven)), hmatch, hown, Option.map_some,
    Option.some_or, Option.getD_some]

/-- What is passed on of an entry has its key for the loader, and none for the MCP servers. -/
theorem turnsOff_matched (t : Entry) : (matched t).turnsOff "chartctl" = t.turnsOff "chartctl" ∧
    (matched t).turnsOff "disable_terminal_mcp" = false := by
  constructor <;> rfl

/-- What the API process of a line computes. -/
theorem apiFeatures_line (he : e ∈ cfg.terminals) (hline : terminalsLine e = some line) :
    ((apiFeatures cfg line).chartctl = true ↔ line.mode = "live" ∧
        featureEnabled cfg.chartctl = true ∧
          ((ownEntry cfg line).any fun t => t.turnsOff "chartctl") = false) ∧
      ((apiFeatures cfg line).disableTerminalMcp = true ↔
        cfg.disableTerminalMcp = .scalar (.bool true)) := by
  obtain ⟨own, hown, hload⟩ := loadTerminalConfig_line he hline
  obtain ⟨hchartctl, hmcp⟩ := turnsOff_matched own
  have hmode : (normalizeMode line.mode == "live") = true ↔ line.mode = "live" := by
    rcases (terminalsLine_eq_some hline).2.2.2 with hlive | hbacktest
    · rw [hlive]
      decide
    · rw [hbacktest]
      decide
  rw [apiFeatures, hload, hown]
  constructor
  · rw [Option.any_some, ← hchartctl]
    simp only [chartctlEnabled, Bool.and_eq_true, hmode, Entry.turnsOff, decide_eq_true_eq,
      decide_eq_false_iff_not, and_assoc, ne_eq]
  · simp [wanted, hmcp]

/-! ## Agreement -/

/-- For every terminal of `config.yaml`, the boot files and its API process agree exactly under the
condition: the loader is off for all terminals, or the entry that `write_ini` finds lets it on just
if the terminal is live and its own entry does; and the MCP servers are kept everywhere, or the
entry that `write_ini` finds does not keep them. -/
theorem agrees_iff (he : e ∈ cfg.terminals) (hline : terminalsLine e = some line) :
    Agrees cfg line ↔ AgreesWhen cfg line := by
  obtain ⟨hchartctl, hmcp⟩ := apiFeatures_line he hline
  have hloader : ("[StartUp]" ∈ (bootIni cfg line).lines ↔
      (apiFeatures cfg line).chartctl = true) ↔ (featureEnabled cfg.chartctl = true →
        ((credentialsRead cfg line = true ∧
            ((defaultEntry cfg line).any fun t => t.turnsOff "chartctl") = false) ↔
          (line.mode = "live" ∧
            ((ownEntry cfg line).any fun t => t.turnsOff "chartctl") = false))) := by
    rw [startUp_mem_bootIni, hchartctl]
    by_cases hon : featureEnabled cfg.chartctl = true <;> simp [hon]
  have hservers : ((bootIni cfg line).mcpDisabled = true ↔
      (apiFeatures cfg line).disableTerminalMcp = true) ↔
        (cfg.disableTerminalMcp = .scalar (.bool true) → credentialsRead cfg line = true ∧
          ((defaultEntry cfg line).any fun t => t.turnsOff "disable_terminal_mcp") = false) := by
    rw [mcpDisabled_bootIni, hmcp, wanted]
    by_cases hoff : cfg.disableTerminalMcp = .scalar (.bool true) <;> simp [hoff]
  constructor
  · exact fun h => ⟨hloader.mp h.loader, hservers.mp h.mcp⟩
  · exact fun h => ⟨hloader.mpr h.loader, hservers.mpr h.mcp⟩

/-- A terminal of one account, whose loader is off. -/
def quietEntry (inst : String) : Entry :=
  [("broker", .str "acme"), ("account", .str "main"), ("instance", .str inst),
    ("port", .scalar (.int 5001)), ("chartctl", .scalar (.bool false))]

/-- The file with that terminal, where the feature is on. -/
def quietFile (inst : String) : File where
  accounts := some [(.str "acme", some [(.str "main", .mapping [(.str "login", .int 7),
    (.str "server", .str "Acme-Demo"), (.str "password", .str "word")]
    "\x7b'login': 7, 'server': 'Acme-Demo', 'password': 'word'\x7d")])]
  chartctl := .scalar (.bool true)
  disableTerminalMcp := .scalar (.bool true)
  terminals := [quietEntry inst]

def quietLine (inst : String) : Line := ⟨"acme", "main", inst, "5001", "0", "live"⟩

theorem agrees_iff_quietFile : Agrees (quietFile "default") (quietLine "default") :=
  (agrees_iff (e := quietEntry "default") (by decide) (by decide)).mpr
    ⟨fun _ => by decide, fun _ => by decide⟩

/-- A terminal of another instance than the default one is given the loader although its entry turns
it off, and its API does not know of it. -/
theorem not_agrees : ¬ ∀ (cfg : File) (e : Entry) (line : Line), e ∈ cfg.terminals →
    terminalsLine e = some line → Agrees cfg line := by
  intro h
  have hagrees := h (quietFile "b") (quietEntry "b") (quietLine "b") (by decide) (by decide)
  have hloader : "[StartUp]" ∈ (bootIni (quietFile "b") (quietLine "b")).lines :=
    startUp_mem_bootIni.mpr (by decide)
  exact absurd (hagrees.loader.mp hloader) (by decide)

end Config

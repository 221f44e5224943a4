import Mathlib.Data.Rat.Floor
import Mt5HttpApi.Lib.Ini
import Mt5HttpApi.Lib.Json

/-!
# The tester's INI

`mt5api/backtest/ini_builder.py`. `buildIni` checks the fields of a JSON object one after another
and writes a text of three sections. A check fails with a `ValueError`, which the route answers with
400, or with another exception, which it does not expect.

`settings` is the checks, and `sections` what is written of what they return.
-/

namespace Backtest.IniBuilder

open Text Json

/-- An exception. -/
inductive Raised
  | valueError (text : String)
  | typeError
  | overflowError
  deriving DecidableEq, Repr

/-- What Python makes of values outside of what the checks look at. -/
structure Py where
  /-- `repr` of a value. -/
  repr : Value → String
  /-- `repr` of a float that is no small integer. -/
  reprFloat : Number → List Char
  /-- `str.upper` of one character. -/
  upper : Char → List Char
  /-- The value of a decimal digit, of any script. -/
  decimal : Char → Option Nat

/-! ## Dates -/

/-- A leap year. -/
def isLeap (year : Nat) : Bool := year % 4 == 0 && (year % 100 != 0 || year % 400 == 0)

/-- The days of a month. -/
def daysInMonth (year month : Nat) : Nat :=
  if month = 2 then if isLeap year then 29 else 28
  else if month ∈ [4, 6, 9, 11] then 30
  else 31

/-- A date that Python has. -/
structure Date where
  year : Nat
  month : Nat
  day : Nat
  hyear : 1 ≤ year ∧ year ≤ 9999
  hmonth : 1 ≤ month ∧ month ≤ 12
  hday : 1 ≤ day ∧ day ≤ daysInMonth year month
  deriving DecidableEq, Repr

namespace Date

/-- `date(year, month, day)`. -/
def of? (year month day : Nat) : Option Date :=
  if h : (1 ≤ year ∧ year ≤ 9999) ∧ (1 ≤ month ∧ month ≤ 12) ∧
      1 ≤ day ∧ day ≤ daysInMonth year month then
    some ⟨year, month, day, h.1, h.2.1, h.2.2⟩
  else none

/-- `a <= b`. -/
def le (a b : Date) : Prop :=
  a.year < b.year ∨ a.year = b.year ∧ (a.month < b.month ∨ a.month = b.month ∧ a.day ≤ b.day)

instance : LE Date := ⟨le⟩

instance (a b : Date) : Decidable (a ≤ b) := inferInstanceAs (Decidable (_ ∨ _))

/-- The day before. -/
def prev (d : Date) : Option Date :=
  if 1 < d.day then of? d.year d.month (d.day - 1)
  else if 1 < d.month then of? d.year (d.month - 1) (daysInMonth d.year (d.month - 1))
  else of? (d.year - 1) 12 31

/-- `d - timedelta(days=n)`. -/
def minusDays (d : Date) : Nat → Option Date
  | 0 => some d
  | n + 1 => d.prev.bind fun d' => d'.minusDays n

/-- A number with zeros in front of it. -/
def padded (width n : Nat) : List Char :=
  List.replicate (width - (Nat.toDigits 10 n).length) '0' ++ Nat.toDigits 10 n

/-- The parts of a date with a separator. -/
def format (sep : Char) (d : Date) : List Char :=
  padded 4 d.year ++ sep :: padded 2 d.month ++ sep :: padded 2 d.day

end Date

/-- The value of a text of decimal digits. -/
def digitsValue (py : Py) (text : List Char) : Option Nat :=
  (text.mapM py.decimal).map fun digits => digits.foldl (fun value digit => 10 * value + digit) 0

/-- `%m`: `1[0-2]|0[1-9]|[1-9]`. -/
def monthText (text : List Char) : Option Nat :=
  match text with
  | ['1', c] => if c ∈ ['0', '1', '2'] then some (10 + (c.toNat - 48)) else none
  | ['0', c] => if '1' ≤ c ∧ c ≤ '9' then some (c.toNat - 48) else none
  | [c] => if '1' ≤ c ∧ c ≤ '9' then some (c.toNat - 48) else none
  | _ => none

/-- `%d`: `3[0-1]|[1-2]\d|0[1-9]|[1-9]| [1-9]`. -/
def dayText (py : Py) (text : List Char) : Option Nat :=
  match text with
  | ['3', c] => if c ∈ ['0', '1'] then some (30 + (c.toNat - 48)) else none
  | ['1', c] => (py.decimal c).map (10 + ·)
  | ['2', c] => (py.decimal c).map (20 + ·)
  | ['0', c] => if '1' ≤ c ∧ c ≤ '9' then some (c.toNat - 48) else none
  | [' ', c] => if '1' ≤ c ∧ c ≤ '9' then some (c.toNat - 48) else none
  | [c] => if '1' ≤ c ∧ c ≤ '9' then some (c.toNat - 48) else none
  | _ => none

/-- `datetime.strptime(value, "%Y-%m-%d").date()`. -/
def strptime (py : Py) (value : List Char) : Option Date :=
  match value.splitOn '-' with
  | [year, month, day] => do
    let y ← if year.length = 4 then digitsValue py year else none
    let m ← monthText month
    let d ← dayText py day
    Date.of? y m d
  | _ => none

/-- `_parse_iso_date`. -/
def parseIsoDate (py : Py) (field : String) (value : Value) : Except Raised Date :=
  match value with
  | .str text =>
    match strptime py text with
    | some d => .ok d
    | none => .error (.valueError s!"{field} must be YYYY-MM-DD ({py.repr value})")
  | _ => .error (.valueError s!"{field} must be a YYYY-MM-DD string")

/-- What `isinstance(value, int)` accepts: integers, and the truth values. -/
def intValue? (value : Value) : Option ℤ :=
  match value with
  | .int n => some n
  | .bool b => some (if b then 1 else 0)
  | _ => none

/-- A window of dates. -/
structure Window where
  first : Date
  last : Date
  ordered : first ≤ last

/-- The date that the window of `lastYears` begins at. A year outside of a C `int` is an
`OverflowError`. -/
def yearsBefore (today : Date) (n : ℤ) : Except Raised Date :=
  let year := (today.year : ℤ) - n
  if year < -2 ^ 31 then .error .overflowError
  else match (Date.of? year.toNat today.month today.day).or
      (Date.of? year.toNat today.month 28) with
    | some d => .ok d
    | none => .error (.valueError s!"year {year} is out of range")

/-- The date that the window of `lastDays` begins at. -/
def daysBefore (today : Date) (n : ℤ) : Except Raised Date :=
  match today.minusDays n.toNat with
  | some d => .ok d
  | none => .error .overflowError

/-- A count of years or days. -/
def positiveInt (field : String) (value : Value) : Except Raised ℤ :=
  match intValue? value with
  | some n => if n ≤ 0 then .error (.valueError s!"{field} must be a positive integer") else .ok n
  | none => .error (.valueError s!"{field} must be a positive integer")

/-- The ends of the window. -/
def windowEnds (py : Py) (today : Date) (params : Fields) : Except Raised (Date × Date) :=
  let fromDate := params.find "fromDate"
  let toDate := params.find "toDate"
  let lastYears := params.find "lastYears"
  let lastDays := params.find "lastDays"
  match fromDate.or toDate, lastYears, lastDays with
  | none, none, none => .error (.valueError
      "Date window required: provide fromDate+toDate, lastYears, or lastDays")
  | some _, none, none =>
    match fromDate, toDate with
    | some first, some last => do
      let first ← parseIsoDate py "fromDate" first
      let last ← parseIsoDate py "toDate" last
      .ok (first, last)
    | _, _ => .error (.valueError "fromDate and toDate must be provided together")
  | none, some years, none => do
    let n ← positiveInt "lastYears" years
    let first ← yearsBefore today n
    .ok (first, today)
  | none, none, some days => do
    let n ← positiveInt "lastDays" days
    let first ← daysBefore today n
    .ok (first, today)
  | _, _, _ => .error (.valueError
      "Date window over-specified: pick one of fromDate+toDate, lastYears, lastDays")

/-- `_resolve_dates`. -/
def resolveDates (py : Py) (today : Date) (params : Fields) : Except Raised Window := do
  let (first, last) ← windowEnds py today params
  if h : first ≤ last then .ok ⟨first, last, h⟩
  else
    let firstText := String.ofList (first.format '-')
    let lastText := String.ofList (last.format '-')
    .error (.valueError s!"fromDate ({firstText}) must be on or before toDate ({lastText})")

/-! ## Choices -/

/-- `VALID_TIMEFRAMES`. -/
def validTimeframes : List String :=
  ["M1", "M2", "M3", "M4", "M5", "M6", "M10", "M12", "M15", "M20", "M30", "H1", "H2", "H3", "H4",
    "H6", "H8", "H12", "D1", "W1", "MN1"]

/-- `MODELLING_MAP`. -/
def modellingMap : List (String × ℤ) :=
  [("every-tick", 0), ("1m-ohlc", 1), ("open-prices", 2), ("real-ticks", 4)]

/-- A list of texts as Python shows it. -/
def shownList (texts : List String) : String := "['" ++ "', '".intercalate texts ++ "']"

/-- `_validate_timeframe`. -/
def validateTimeframe (py : Py) (value : Value) : Except Raised (List Char) :=
  match value with
  | .str text =>
    if text ∈ validTimeframes.map String.toList then .ok text
    else .error (.valueError (s!"Invalid timeframe: {py.repr value}. Use one of " ++
      shownList validTimeframes))
  | _ => .error (.valueError (s!"Invalid timeframe: {py.repr value}. Use one of " ++
      shownList validTimeframes))

/-- `_resolve_modelling`. A list or an object has no hash to be looked up by. -/
def resolveModelling (py : Py) (params : Fields) : Except Raised Value :=
  let raw := (params.find "modelling").getD (.str "open-prices".toList)
  let invalid := Raised.valueError (s!"Invalid modelling: {py.repr raw}. Use one of " ++
    shownList ["1m-ohlc", "every-tick", "open-prices", "real-ticks"])
  match raw with
  | .arr _ => .error .typeError
  | .obj _ => .error .typeError
  | .str text =>
    match Dict.get (modellingMap.map fun item => (item.1.toList, item.2)) text with
    | some model => .ok (.int model)
    | none => .error invalid
  | .int n => if n ∈ modellingMap.map Prod.snd then .ok (.int n) else .error invalid
  | .bool b => .ok (.bool b)
  | _ => .error invalid

/-- `_resolve_optimization` and `_resolve_optimization_criterion`: an integer from 0 to `last`. -/
def resolveChoice (field : String) (last : ℕ) (params : Fields) : Except Raised ℤ :=
  match intValue? ((params.find field).getD (.int 0)) with
  | none => .error (.valueError s!"{field} must be an integer 0..{last}")
  | some n =>
    if 0 ≤ n ∧ n ≤ last then .ok n else .error (.valueError s!"{field} must be 0..{last}")

/-- `_resolve_optimization`. -/
def resolveOptimization (params : Fields) : Except Raised ℤ := resolveChoice "optimization" 3 params

/-- `_resolve_optimization_criterion`. -/
def resolveOptimizationCriterion (params : Fields) : Except Raised ℤ :=
  resolveChoice "optimizationCriterion" 7 params

/-- A number that is equal to one of `0` to `4`, of any type. -/
def isForwardMode (value : Value) : Bool :=
  match value with
  | .int n => n ∈ [0, 1, 2, 3, 4]
  | .bool _ => true
  | .float (.finite q) => q ∈ [0, 1, 2, 3, 4]
  | .float .negZero => true
  | _ => false

/-- The forward mode. -/
def resolveForwardMode (params : Fields) : Except Raised Value :=
  let value := (params.find "forwardMode").getD (.int 0)
  if isForwardMode value then .ok value else .error (.valueError "forwardMode must be 0..4")

/-- `bool(value)`. -/
def truthy (value : Value) : Bool :=
  match value with
  | .null => false
  | .bool b => b
  | .int n => n ≠ 0
  | .float (.finite q) => q ≠ 0
  | .float .negZero => false
  | .float _ => true
  | .str text => text ≠ []
  | .arr items => !items.isEmpty
  | .obj fields => !fields.isEmpty

/-! ## Names -/

/-- A separator of a Windows path. -/
def isSeparator (c : Char) : Bool := c == '\\' || c == '/'

/-- What is after the first separator. -/
def afterSeparator (path : List Char) : List Char :=
  (path.dropWhile (!isSeparator ·)).drop 1

/-- `ntpath.splitroot`: what is after the drive and the root. -/
def afterRoot (path : List Char) : List Char :=
  match path.map isSeparator, path with
  | true :: true :: _, _ =>
    let unc := (replaceChar '/' '\\' (path.take 8)).map Char.toUpper = "\\\\?\\UNC\\".toList
    afterSeparator (afterSeparator (path.drop (if unc then 8 else 2)))
  | true :: _, _ => path.drop 1
  | _, _ :: ':' :: rest => if (rest.head?.map isSeparator) = some true then rest.drop 1 else rest
  | _, _ => path

/-- `os.path.basename`. -/
def basename (path : List Char) : List Char :=
  ((afterRoot path).reverse.takeWhile (!isSeparator ·)).reverse

/-- `_strip_ex5`. -/
def stripEx5 (name : List Char) : List Char :=
  if endsWithIgnoringCase ".ex5".toList name then name.take (name.length - 4) else name

/-- A text that has something besides white space, without the white space around it. -/
def trimmed? (value : Value) : Option (List Char) :=
  match value with
  | .str text => if strip text = [] then none else some (strip text)
  | _ => none

/-- `_require_filename`. -/
def requireFilename (value : Value) (field : String) : Except Raised (List Char) :=
  match trimmed? value with
  | none => .error (.valueError s!"{field} is required")
  | some name =>
    if name ≠ basename name then
      .error (.valueError s!"{field} must be a filename, not a path")
    else .ok name

/-- A field, or `None`. -/
def get (params : Fields) (field : String) : Value := (params.find field).getD .null

/-- The symbol. -/
def requireSymbol (params : Fields) : Except Raised (List Char) :=
  match trimmed? (get params "symbol") with
  | none => .error (.valueError "symbol is required")
  | some symbol => .ok symbol

/-- The expert's file. -/
def requireExpert (params : Fields) : Except Raised (List Char) := do
  let name ← requireFilename (get params "expert") "expert"
  if endsWithIgnoringCase ".ex5".toList name then .ok name
  else .error (.valueError "expert must end with .ex5")

/-- The file of the expert's parameters, or the empty text. -/
def optionalSet (params : Fields) : Except Raised (List Char) :=
  if truthy (get params "expertParameters") then do
    let name ← requireFilename (get params "expertParameters") "expertParameters"
    if endsWithIgnoringCase ".set".toList name then .ok name
    else .error (.valueError "expertParameters must end with .set")
  else .ok []

/-- `str.upper`. -/
def upperText (py : Py) (text : List Char) : List Char := text.flatMap py.upper

/-- The currency. -/
def resolveCurrency (py : Py) (params : Fields) : Except Raised (List Char) :=
  match trimmed? ((params.find "currency").getD (.str "USD".toList)) with
  | none => .error (.valueError "currency must be a non-empty string")
  | some currency => .ok (upperText py currency)

/-- A report's name has its extension. -/
def withExtension (optimization : ℤ) (name : List Char) : List Char :=
  if optimization ≠ 0 then
    if endsWithIgnoringCase ".xml".toList name then name else name ++ ".xml".toList
  else if endsWithIgnoringCase ".htm".toList name ∨ endsWithIgnoringCase ".html".toList name then
    name
  else name ++ ".htm".toList

/-- The name of a report that is not named. -/
def defaultReportName (optimization : ℤ) : List Char :=
  if optimization ≠ 0 then "optimization-report.xml".toList else "backtest-report.htm".toList

/-- The report. -/
def resolveReportName (optimization : ℤ) (params : Fields) : Except Raised (List Char) :=
  match trimmed? ((params.find "reportName").getD (.str (defaultReportName optimization))) with
  | none => .error (.valueError "reportName must be a non-empty string")
  | some name => .ok (withExtension optimization name)

/-! ## Numbers -/

/-- The double that is nearest to a natural number: 53 bits of it, rounded half to even. -/
def nearestDouble (n : ℕ) : ℕ :=
  let unit := 2 ^ (n.log2 - 52)
  let low := n % unit
  let high := n / unit
  if 2 * low < unit ∨ 2 * low = unit ∧ high % 2 = 0 then high * unit else (high + 1) * unit

/-- `float(n)`. From half a unit above the greatest double on there is none. -/
def floatOfInt (n : ℤ) : Except Raised Number :=
  if 2 ^ 1024 - 2 ^ 970 ≤ n.natAbs then .error .overflowError
  else if 0 ≤ n then .ok (.finite (nearestDouble n.natAbs))
  else .ok (.finite (-nearestDouble n.natAbs))

/-- `float(value)` of a number. -/
def toFloat (value : Value) : Except Raised Number :=
  match value with
  | .int n => floatOfInt n
  | .float x => .ok x
  | _ => .error .typeError

/-- `int(value)` of a number. -/
def toInt (value : Value) : Except Raised ℤ :=
  match value with
  | .int n => .ok n
  | .float (.finite q) => .ok (if 0 ≤ q then ⌊q⌋ else ⌈q⌉)
  | .float .negZero => .ok 0
  | .float .nan => .error (.valueError "cannot convert float NaN to integer")
  | .float (.infinity _) => .error .overflowError
  | _ => .error .typeError

/-- The value of a number that is no truth value. -/
def number? (value : Value) : Option Number :=
  match value with
  | .int n => some (.finite n)
  | .float x => some x
  | _ => none

/-- `value < 0`, or `value <= 0`. -/
def tooSmall (allowZero : Bool) (x : Number) : Bool :=
  match x with
  | .finite q => if allowZero then q < 0 else q ≤ 0
  | .negZero => !allowZero
  | .nan => false
  | .infinity negative => negative

/-- `_positive_number`. -/
def positiveNumber {α : Type} (value : Value) (field : String) (allowZero : Bool)
    (kind : Value → Except Raised α) : Except Raised α :=
  match number? value with
  | none => .error (.valueError s!"{field} must be a number")
  | some x =>
    if tooSmall allowZero x then
      .error (.valueError (s!"{field} must be " ++ if allowZero then ">= 0" else "> 0"))
    else kind value

/-- The deposit. -/
def resolveDeposit (params : Fields) : Except Raised Number :=
  positiveNumber ((params.find "deposit").getD (.int 10000)) "deposit" false toFloat

/-- The leverage. -/
def resolveLeverage (params : Fields) : Except Raised ℤ :=
  positiveNumber ((params.find "leverage").getD (.int 100)) "leverage" false toInt

/-- The latency. -/
def resolveLatency (params : Fields) : Except Raised ℤ :=
  positiveNumber ((params.find "latencyMs").getD (.int 0)) "latencyMs" true toInt

/-! ## Texts of numbers -/

/-- `str(n)`. -/
def intText (n : ℤ) : List Char :=
  if 0 ≤ n then Nat.toDigits 10 n.natAbs else '-' :: Nat.toDigits 10 n.natAbs

/-- `str(x)` of a float. -/
def floatText (py : Py) (x : Number) : List Char :=
  match x with
  | .finite q =>
    if q.den = 1 ∧ q.num.natAbs < 10 ^ 16 then intText q.num ++ ".0".toList else py.reprFloat x
  | .negZero => "-0.0".toList
  | .nan => "nan".toList
  | .infinity negative => (if negative then "-inf" else "inf").toList

/-- `str(value)` of a number or a truth value. -/
def valueText (py : Py) (value : Value) : List Char :=
  match value with
  | .int n => intText n
  | .bool b => (if b then "True" else "False").toList
  | .float x => floatText py x
  | _ => (py.repr value).toList

/-- The nearest integer, half to even. -/
def roundHalfEven (q : ℚ) : ℤ :=
  let low := q - ⌊q⌋
  if low < 1 / 2 ∨ low = 1 / 2 ∧ ⌊q⌋ % 2 = 0 then ⌊q⌋ else ⌊q⌋ + 1

/-- `f"{q:.2f}"` of a number that is not negative. -/
def fixedText (q : ℚ) : List Char :=
  let hundredths := (roundHalfEven (q * 100)).natAbs
  Nat.toDigits 10 (hundredths / 100) ++ '.' :: Date.padded 2 (hundredths % 100)

/-- The deposit as it is written. -/
def depositText (x : Number) : List Char :=
  match x with
  | .finite q => if q.den = 1 then intText q.num else fixedText q
  | .negZero => "0".toList
  | .nan => "nan".toList
  | .infinity negative => (if negative then "-inf" else "inf").toList

/-! ## The text -/

/-- What the checks return. -/
structure Settings where
  symbol : List Char
  timeframe : List Char
  expertFilename : List Char
  setFilename : List Char
  window : Window
  model : Value
  optimization : ℤ
  optimizationCriterion : ℤ
  deposit : Number
  leverage : ℤ
  latencyMs : ℤ
  currency : List Char
  reportName : List Char
  forwardMode : Value
  visual : Bool

/-- The checks of `build_ini`. -/
def settings (py : Py) (today : Date) (params : Fields) : Except Raised Settings := do
  let symbol ← requireSymbol params
  let timeframe ← validateTimeframe py (get params "timeframe")
  let expertFilename ← requireExpert params
  let setFilename ← optionalSet params
  let window ← resolveDates py today params
  let model ← resolveModelling py params
  let optimization ← resolveOptimization params
  let optimizationCriterion ← resolveOptimizationCriterion params
  let deposit ← resolveDeposit params
  let leverage ← resolveLeverage params
  let latencyMs ← resolveLatency params
  let currency ← resolveCurrency py params
  let reportName ← resolveReportName optimization params
  let forwardMode ← resolveForwardMode params
  let visual := truthy ((params.find "visual").getD (.int 0))
  pure { symbol, timeframe, expertFilename, setFilename, window, model, optimization,
         optimizationCriterion, deposit, leverage, latencyMs, currency, reportName, forwardMode,
         visual }

/-- Options with the keys and the values of fixed texts. -/
def fixedOptions (options : List (String × String)) : Ini.Options :=
  options.map fun option => (option.1.toList, option.2.toList)

/-- The `[Tester]` section. -/
def testerOptions (py : Py) (s : Settings) : Ini.Options :=
  [("Expert".toList, "Uploaded\\".toList ++ stripEx5 s.expertFilename),
    ("Symbol".toList, s.symbol),
    ("Period".toList, s.timeframe),
    ("Deposit".toList, depositText s.deposit),
    ("Currency".toList, s.currency),
    ("Leverage".toList, "1:".toList ++ intText s.leverage),
    ("Model".toList, valueText py s.model),
    ("ExecutionMode".toList, intText s.latencyMs),
    ("Optimization".toList, intText s.optimization),
    ("OptimizationCriterion".toList, intText s.optimizationCriterion),
    ("ForwardMode".toList, valueText py s.forwardMode),
    ("FromDate".toList, s.window.first.format '.'),
    ("ToDate".toList, s.window.last.format '.'),
    ("Report".toList, "Reports\\".toList ++ s.reportName)] ++
  fixedOptions [("ReplaceReport", "1"), ("ShutdownTerminal", "1")] ++
  [("Visual".toList, intText (if s.visual then 1 else 0))] ++
  fixedOptions [("UseLocal", "1"), ("UseRemote", "0"), ("UseCloud", "0"), ("AllowDll", "1")] ++
  if s.setFilename = [] then [] else [("ExpertParameters".toList, s.setFilename)]

/-- The three sections. -/
def sections (py : Py) (s : Settings) : Ini.Sections :=
  [("Common".toList, fixedOptions [("Login", ""), ("Password", ""), ("Server", ""),
      ("KeepPrivate", "0"), ("AutoTrading", "1"), ("NewsEnable", "0")]),
    ("Experts".toList, fixedOptions [("AllowLiveTrading", "1"), ("AllowDllImport", "1"),
      ("Enabled", "1")]),
    ("Tester".toList, testerOptions py s)]

/-- `build_ini`. -/
def buildIni (py : Py) (today : Date) (params : Value) : Except Raised (List Char) :=
  match params with
  | .obj fields => do
    let s ← settings py today fields
    pure (Ini.write (sections py s))
  | _ => .error (.valueError "params must be an object")

/-! ## What the checks return -/

theorem bind_eq_ok {α β : Type} {x : Except Raised α} {f : α → Except Raised β} {b : β} :
    (x >>= f) = .ok b ↔ ∃ a, x = .ok a ∧ f a = .ok b := by
  cases x with
  | error e =>
    constructor
    · intro h
      cases h
    · rintro ⟨a, h, -⟩
      cases h
  | ok a =>
    constructor
    · exact fun h => ⟨a, rfl, h⟩
    · rintro ⟨a', h, hf⟩
      cases h
      exact hf

/-- Every check has returned what is in the settings. -/
structure Passed (py : Py) (today : Date) (params : Fields) (s : Settings) : Prop where
  symbol : requireSymbol params = .ok s.symbol
  timeframe : validateTimeframe py (get params "timeframe") = .ok s.timeframe
  expert : requireExpert params = .ok s.expertFilename
  set : optionalSet params = .ok s.setFilename
  dates : resolveDates py today params = .ok s.window
  modelling : resolveModelling py params = .ok s.model
  optimization : resolveOptimization params = .ok s.optimization
  criterion : resolveOptimizationCriterion params = .ok s.optimizationCriterion
  deposit : resolveDeposit params = .ok s.deposit
  leverage : resolveLeverage params = .ok s.leverage
  latency : resolveLatency params = .ok s.latencyMs
  currency : resolveCurrency py params = .ok s.currency
  reportName : resolveReportName s.optimization params = .ok s.reportName
  forwardMode : resolveForwardMode params = .ok s.forwardMode

/-- Settings are returned when every check passes. -/
theorem passed_of_settings {py : Py} {today : Date} {params : Fields} {s : Settings}
    (h : settings py today params = .ok s) : Passed py today params s := by
  obtain ⟨symbol, hsymbol, h⟩ := bind_eq_ok.mp h
  obtain ⟨timeframe, htimeframe, h⟩ := bind_eq_ok.mp h
  obtain ⟨expert, hexpert, h⟩ := bind_eq_ok.mp h
  obtain ⟨set, hset, h⟩ := bind_eq_ok.mp h
  obtain ⟨window, hwindow, h⟩ := bind_eq_ok.mp h
  obtain ⟨model, hmodel, h⟩ := bind_eq_ok.mp h
  obtain ⟨optimization, hoptimization, h⟩ := bind_eq_ok.mp h
  obtain ⟨criterion, hcriterion, h⟩ := bind_eq_ok.mp h
  obtain ⟨deposit, hdeposit, h⟩ := bind_eq_ok.mp h
  obtain ⟨leverage, hleverage, h⟩ := bind_eq_ok.mp h
  obtain ⟨latency, hlatency, h⟩ := bind_eq_ok.mp h
  obtain ⟨currency, hcurrency, h⟩ := bind_eq_ok.mp h
  obtain ⟨reportName, hreportName, h⟩ := bind_eq_ok.mp h
  obtain ⟨forwardMode, hforwardMode, h⟩ := bind_eq_ok.mp h
  cases h
  exact ⟨hsymbol, htimeframe, hexpert, hset, hwindow, hmodel, hoptimization, hcriterion, hdeposit,
    hleverage, hlatency, hcurrency, hreportName, hforwardMode⟩

/-- A text is that of the settings. -/
theorem buildIni_eq_ok {py : Py} {today : Date} {params : Fields} {text : List Char} :
    buildIni py today (.obj params) = .ok text ↔
      ∃ s, settings py today params = .ok s ∧ text = Ini.write (sections py s) := by
  refine bind_eq_ok.trans (exists_congr fun s => and_congr_right fun _ => ?_)
  exact ⟨fun h => by injection h with h; exact h.symm, fun h => by rw [h]; rfl⟩

end Backtest.IniBuilder

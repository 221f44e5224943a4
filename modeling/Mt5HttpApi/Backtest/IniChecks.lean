import Mt5HttpApi.Backtest.IniEncoding
import Mt5HttpApi.Lib.Checks

/-!
# The checks of the tester's INI

`build_ini` makes its checks in the order of `order`. Each of them passes, or it is `Refused` with a
`ValueError`, or it `Crashes` with another exception: `classified_check` says when, for each field,
by what is given for it. `asCheck_settings` says that `settings` fails as the list of the checks
does.
-/

namespace Backtest.IniBuilder

open Text Json Checks

/-- What one check is about. -/
inductive Field
  | symbol | timeframe | expert | expertParameters | dates | modelling | optimization
  | optimizationCriterion | deposit | leverage | latencyMs | currency | reportName | forwardMode
  deriving DecidableEq, Repr

/-- The checks in their order. -/
def order : List Field :=
  [.symbol, .timeframe, .expert, .expertParameters, .dates, .modelling, .optimization,
    .optimizationCriterion, .deposit, .leverage, .latencyMs, .currency, .reportName, .forwardMode]

/-- The check of a field. -/
def check (py : Py) (today : Date) (params : Fields) : Field → Except Raised Unit
  | .symbol => asCheck (requireSymbol params)
  | .timeframe => asCheck (validateTimeframe py (get params "timeframe"))
  | .expert => asCheck (requireExpert params)
  | .expertParameters => asCheck (optionalSet params)
  | .dates => asCheck (resolveDates py today params)
  | .modelling => asCheck (resolveModelling py params)
  | .optimization => asCheck (resolveOptimization params)
  | .optimizationCriterion => asCheck (resolveOptimizationCriterion params)
  | .deposit => asCheck (resolveDeposit params)
  | .leverage => asCheck (resolveLeverage params)
  | .latencyMs => asCheck (resolveLatency params)
  | .currency => asCheck (resolveCurrency py params)
  | .reportName => asCheck (resolveReportName (optimizationOf params) params)
  | .forwardMode => asCheck (resolveForwardMode params)

variable {py : Py} {today : Date} {params : Fields}

/-! ## What the fields are like -/

/-- The name of a file with the extension. -/
def IsFilename (extension : String) (value : Value) : Prop :=
  ∃ name, trimmed? value = some name ∧ name = basename name ∧
    endsWithIgnoringCase extension.toList name = true

/-- The date that a value gives. -/
def dateOf (py : Py) (value : Value) : Option Date := value.text?.bind (strptime py)

/-- The window is refused. -/
def DatesRefused (py : Py) (today : Date) (params : Fields) : Prop :=
  match params.find "fromDate", params.find "toDate", params.find "lastYears",
    params.find "lastDays" with
  | some first, some last, none, none =>
    ∀ a b, dateOf py first = some a → dateOf py last = some b → ¬ a ≤ b
  | none, none, some years, none => ∀ n, intValue? years = some n →
      n ≤ 0 ∨ (today.year : ℤ) ≤ n ∧ n ≤ today.year + 2 ^ 31
  | none, none, none, some days => ∀ n, intValue? days = some n → n ≤ 0
  | _, _, _, _ => True

/-- The window begins too far back. -/
def DatesCrash (today : Date) (params : Fields) : Prop :=
  match params.find "fromDate", params.find "toDate", params.find "lastYears",
    params.find "lastDays" with
  | none, none, some years, none => ∃ n, intValue? years = some n ∧ today.year + 2 ^ 31 < n
  | none, none, none, some days => ∃ n, intValue? days = some n ∧ 0 < n ∧
      today.minusDays n.toNat = none
  | _, _, _, _ => False

/-- The deposit that is asked for. -/
def depositOf (params : Fields) : Value := (params.find "deposit").getD (.int 10000)

/-- The leverage that is asked for. -/
def leverageOf (params : Fields) : Value := (params.find "leverage").getD (.int 100)

/-- The latency that is asked for. -/
def latencyOf (params : Fields) : Value := (params.find "latencyMs").getD (.int 0)

/-- The modelling that is asked for. -/
def modellingOf (params : Fields) : Value :=
  (params.find "modelling").getD (.str "open-prices".toList)

/-- The forward mode that is asked for. -/
def forwardModeOf (params : Fields) : Value := (params.find "forwardMode").getD (.int 0)

/-- No number from 0 to `last`. -/
def OutOfRange (last : ℕ) (value : Value) : Prop :=
  ∀ n, intValue? value = some n → ¬ (0 ≤ n ∧ n ≤ last)

/-- No text with something besides white space. -/
def IsBlank (value : Value) : Prop := trimmed? value = none

/-- A field is refused with a `ValueError`. -/
def Refused (py : Py) (today : Date) (params : Fields) : Field → Prop
  | .symbol => IsBlank (get params "symbol")
  | .timeframe => ∀ text ∈ validTimeframes, get params "timeframe" ≠ .str text.toList
  | .expert => ¬ IsFilename ".ex5" (get params "expert")
  | .expertParameters => truthy (get params "expertParameters") = true ∧
      ¬ IsFilename ".set" (get params "expertParameters")
  | .dates => DatesRefused py today params
  | .modelling => match modellingOf params with
      | .arr _ | .obj _ | .bool _ => False
      | .str text => text ∉ modellingMap.map fun item => item.1.toList
      | .int n => n ∉ modellingMap.map Prod.snd
      | _ => True
  | .optimization => OutOfRange 3 ((params.find "optimization").getD (.int 0))
  | .optimizationCriterion => OutOfRange 7 ((params.find "optimizationCriterion").getD (.int 0))
  | .deposit => ∀ x, number? (depositOf params) = some x → tooSmall false x = true
  | .leverage => ∀ x, number? (leverageOf params) = some x → tooSmall false x = true ∨ x = .nan
  | .latencyMs => ∀ x, number? (latencyOf params) = some x → tooSmall true x = true ∨ x = .nan
  | .currency => IsBlank ((params.find "currency").getD (.str "USD".toList))
  | .reportName => IsBlank ((params.find "reportName").getD
      (.str (defaultReportName (optimizationOf params))))
  | .forwardMode => isForwardMode (forwardModeOf params) = false

/-- The check of a field raises an exception that is no `ValueError`: for a list or an object there
is no hash, and a number may be too large. -/
def Crashes (today : Date) (params : Fields) : Field → Prop
  | .dates => DatesCrash today params
  | .modelling => (∃ items, modellingOf params = .arr items) ∨
      ∃ fields, modellingOf params = .obj fields
  | .deposit => ∃ n, depositOf params = .int n ∧ 2 ^ 1024 - 2 ^ 970 ≤ n
  | .leverage => leverageOf params = .float (.infinity false)
  | .latencyMs => latencyOf params = .float (.infinity false)
  | _ => False

/-! ## How a check fails -/

/-- A `ValueError`. -/
def Raised.IsRefusal : Raised → Prop
  | .valueError _ => True
  | _ => False

@[simp]
theorem isRefusal_valueError (text : String) : (Raised.valueError text).IsRefusal ↔ True := Iff.rfl

@[simp]
theorem isRefusal_typeError : Raised.typeError.IsRefusal ↔ False := Iff.rfl

@[simp]
theorem isRefusal_overflowError : Raised.overflowError.IsRefusal ↔ False := Iff.rfl

/-- When a check fails, with a `ValueError` and with another exception. -/
structure Classified {α : Type} (x : Except Raised α) (refused crashes : Prop) : Prop where
  refused_iff : Fails Raised.IsRefusal x ↔ refused
  crashes_iff : Fails (fun e => ¬ e.IsRefusal) x ↔ crashes

namespace Classified

variable {α β : Type} {x : Except Raised α} {f : α → Except Raised β} {refused crashes : Prop}

theorem of_ok (a : α) : Classified (.ok a) False False := ⟨by simp, by simp⟩

theorem of_valueError (text : String) :
    Classified (.error (.valueError text) : Except Raised α) True False :=
  ⟨by simp, by simp⟩

theorem congr {refused' crashes' : Prop} (h : Classified x refused crashes)
    (hrefused : refused ↔ refused') (hcrashes : crashes ↔ crashes') :
    Classified x refused' crashes' :=
  ⟨h.refused_iff.trans hrefused, h.crashes_iff.trans hcrashes⟩

theorem asCheck (h : Classified x refused crashes) : Classified (asCheck x) refused crashes :=
  ⟨fails_asCheck.trans h.refused_iff, fails_asCheck.trans h.crashes_iff⟩

/-- What follows a part that passes decides. -/
theorem bind_of_ok {a : α} (ha : x = .ok a) (h : Classified (f a) refused crashes) :
    Classified (x >>= f) refused crashes := by
  rw [ha]
  exact h

/-- A part that fails decides. -/
theorem bind_of_valueError {text : String} (hx : x = .error (.valueError text)) :
    Classified (x >>= f) True False := by
  rw [hx]
  exact of_valueError text

end Classified

/-! ### Names and choices -/

theorem classified_symbol : Classified (requireSymbol params) (IsBlank (get params "symbol"))
    False := by
  unfold requireSymbol IsBlank
  rcases trimmed? (get params "symbol") with _ | name
  · exact (Classified.of_valueError _).congr (by simp) Iff.rfl
  · exact (Classified.of_ok _).congr (by simp) Iff.rfl

theorem classified_currency : Classified (resolveCurrency py params)
    (IsBlank ((params.find "currency").getD (.str "USD".toList))) False := by
  unfold resolveCurrency IsBlank
  rcases trimmed? ((params.find "currency").getD (.str "USD".toList)) with _ | name
  · exact (Classified.of_valueError _).congr (by simp) Iff.rfl
  · exact (Classified.of_ok _).congr (by simp) Iff.rfl

theorem classified_reportName (optimization : ℤ) :
    Classified (resolveReportName optimization params) (IsBlank ((params.find "reportName").getD
      (.str (defaultReportName optimization)))) False := by
  unfold resolveReportName IsBlank
  rcases trimmed? ((params.find "reportName").getD (.str (defaultReportName optimization)))
    with _ | name
  · exact (Classified.of_valueError _).congr (by simp) Iff.rfl
  · exact (Classified.of_ok _).congr (by simp) Iff.rfl

theorem classified_timeframe (value : Value) : Classified (validateTimeframe py value)
    (∀ text ∈ validTimeframes, value ≠ .str text.toList) False := by
  unfold validateTimeframe
  split
  next text =>
    split
    next hmem =>
      refine (Classified.of_ok _).congr (iff_of_false id fun h => ?_) Iff.rfl
      obtain ⟨valid, hvalid, rfl⟩ := List.mem_map.mp hmem
      exact h valid hvalid rfl
    next hnot =>
      refine (Classified.of_valueError _).congr (iff_of_true trivial fun valid hvalid heq => ?_)
        Iff.rfl
      injection heq with heq
      exact hnot (heq ▸ List.mem_map_of_mem hvalid)
  next hstr =>
    exact (Classified.of_valueError _).congr
      (iff_of_true trivial fun valid _ heq => hstr _ heq) Iff.rfl

/-- A required file of a kind. -/
theorem classified_filename (value : Value) (field extension text : String) :
    Classified (requireFilename value field >>= fun name =>
      if endsWithIgnoringCase extension.toList name then .ok name else .error (.valueError text))
      (¬ IsFilename extension value) False := by
  rcases htrimmed : trimmed? value with _ | name
  · refine (Classified.bind_of_valueError (by rw [requireFilename, htrimmed])).congr ?_ Iff.rfl
    simp [IsFilename, htrimmed]
  · by_cases hbase : name = basename name
    · refine Classified.bind_of_ok
        (by rw [requireFilename, htrimmed]; exact if_neg (not_not.mpr hbase)) ?_
      by_cases hends : endsWithIgnoringCase extension.toList name = true
      · rw [if_pos hends]
        refine (Classified.of_ok _).congr (iff_of_false id (not_not.mpr ?_)) Iff.rfl
        exact ⟨name, htrimmed, hbase, hends⟩
      · rw [if_neg hends]
        refine (Classified.of_valueError _).congr (iff_of_true trivial ?_) Iff.rfl
        rintro ⟨name', hname', -, hends'⟩
        rw [htrimmed] at hname'
        cases hname'
        exact hends hends'
    · refine (Classified.bind_of_valueError
        (by rw [requireFilename, htrimmed]; exact if_pos hbase)).congr
          (iff_of_true trivial ?_) Iff.rfl
      rintro ⟨name', hname', hbase', -⟩
      rw [htrimmed] at hname'
      cases hname'
      exact hbase hbase'

theorem classified_expertParameters : Classified (optionalSet params)
    (truthy (get params "expertParameters") = true ∧
      ¬ IsFilename ".set" (get params "expertParameters")) False := by
  unfold optionalSet
  by_cases htruthy : truthy (get params "expertParameters") = true
  · rw [if_pos htruthy]
    exact (classified_filename _ _ _ _).congr (by simp [htruthy]) Iff.rfl
  · rw [if_neg htruthy]
    exact (Classified.of_ok _).congr (by simp [htruthy]) Iff.rfl

theorem classified_choice (field : String) (last : ℕ) : Classified (resolveChoice field last params)
    (OutOfRange last ((params.find field).getD (.int 0))) False := by
  unfold resolveChoice OutOfRange
  rcases intValue? ((params.find field).getD (.int 0)) with _ | n
  · exact (Classified.of_valueError _).congr (by simp) Iff.rfl
  · dsimp only
    by_cases hrange : 0 ≤ n ∧ n ≤ last
    · rw [if_pos hrange]
      exact (Classified.of_ok _).congr (by simp [hrange]) Iff.rfl
    · rw [if_neg hrange]
      exact (Classified.of_valueError _).congr (by simpa using hrange) Iff.rfl

theorem classified_modelling : Classified (resolveModelling py params)
    (Refused py today params .modelling) (Crashes today params .modelling) := by
  unfold resolveModelling Refused Crashes
  rw [← modellingOf]
  rcases modellingOf params with _ | b | n | x | text | items | fields
  · exact (Classified.of_valueError _).congr Iff.rfl (by simp)
  · exact (Classified.of_ok _).congr Iff.rfl (by simp)
  · dsimp only
    split
    next hmem => exact (Classified.of_ok _).congr (by simpa using hmem) (by simp)
    next hnot => exact (Classified.of_valueError _).congr (by simpa using hnot) (by simp)
  · exact (Classified.of_valueError _).congr Iff.rfl (by simp)
  · dsimp only
    split
    next model hget =>
      refine (Classified.of_ok _).congr (iff_of_false id (not_not.mpr ?_)) (by simp)
      have hmem := List.mem_map_of_mem (f := Prod.fst) (Dict.mem_of_get hget)
      simpa [List.map_map] using hmem
    next hget =>
      refine (Classified.of_valueError _).congr (iff_of_true trivial ?_) (by simp)
      intro hmem
      obtain ⟨item, hitem, rfl⟩ := List.mem_map.mp hmem
      exact Dict.get_eq_none_iff.mp hget _ (List.mem_map_of_mem hitem) rfl
  · refine ⟨by simp, by simp⟩
  · refine ⟨by simp, by simp⟩

theorem classified_forwardMode : Classified (resolveForwardMode params)
    (isForwardMode (forwardModeOf params) = false) False := by
  unfold resolveForwardMode
  rw [← forwardModeOf]
  by_cases hmode : isForwardMode (forwardModeOf params) = true
  · simp only [hmode, if_true]
    exact (Classified.of_ok _).congr (by simp) Iff.rfl
  · simp only [hmode]
    exact (Classified.of_valueError _).congr (by simp) Iff.rfl

/-! ### Numbers -/

/-- A number that is not too small is converted. -/
theorem classified_positiveNumber {α : Type} {value : Value} {field : String} {allowZero : Bool}
    {kind : Value → Except Raised α} {refused crashes : Number → Prop}
    (h : ∀ x, number? value = some x → Classified (kind value) (refused x) (crashes x)) :
    Classified (positiveNumber value field allowZero kind)
      (∀ x, number? value = some x → tooSmall allowZero x = true ∨ refused x)
      (∃ x, number? value = some x ∧ tooSmall allowZero x = false ∧ crashes x) := by
  unfold positiveNumber
  rcases hnumber : number? value with _ | x
  · exact (Classified.of_valueError _).congr (by simp) (by simp)
  · dsimp only
    by_cases hsmall : tooSmall allowZero x = true
    · rw [if_pos hsmall]
      exact (Classified.of_valueError _).congr (by simp [hsmall]) (by simp [hsmall])
    · rw [if_neg hsmall]
      exact (h x hnumber).congr (by simp [hsmall]) (by simp [hsmall])

theorem number?_eq_some {value : Value} {x : Number} (h : number? value = some x) :
    (∃ n : ℤ, value = .int n ∧ x = .finite n) ∨ value = .float x := by
  cases value with
  | int n =>
    injection h with h
    exact .inl ⟨n, rfl, h.symm⟩
  | float y =>
    injection h with h
    exact .inr (by rw [h])
  | _ => cases h

/-- An integer is made of every number but the two that are none. -/
theorem classified_toInt {value : Value} {x : Number} (h : number? value = some x) :
    Classified (toInt value) (x = .nan) (∃ negative, x = .infinity negative) := by
  rcases number?_eq_some h with ⟨n, rfl, rfl⟩ | rfl
  · exact (Classified.of_ok _).congr (by simp) (by simp)
  · cases x with
    | finite q => exact (Classified.of_ok _).congr (by simp) (by simp)
    | negZero => exact (Classified.of_ok _).congr (by simp) (by simp)
    | nan => exact (Classified.of_valueError _).congr (by simp) (by simp)
    | infinity negative => exact ⟨by simp [toInt], by simp [toInt]⟩

/-- Where a number is converted to an integer, only infinity is left to crash. -/
theorem infinity_iff {value : Value} {allowZero : Bool} :
    (∃ x, number? value = some x ∧ tooSmall allowZero x = false ∧
      ∃ negative, x = .infinity negative) ↔ value = .float (.infinity false) := by
  constructor
  · rintro ⟨x, hnumber, hsmall, negative, rfl⟩
    obtain rfl : negative = false := hsmall
    rcases number?_eq_some hnumber with ⟨n, -, hx⟩ | rfl
    · cases hx
    · rfl
  · rintro rfl
    exact ⟨_, rfl, rfl, false, rfl⟩

theorem classified_leverage : Classified (resolveLeverage params)
    (Refused py today params .leverage) (Crashes today params .leverage) :=
  (classified_positiveNumber fun _ => classified_toInt).congr Iff.rfl infinity_iff

theorem classified_latency : Classified (resolveLatency params)
    (Refused py today params .latencyMs) (Crashes today params .latencyMs) :=
  (classified_positiveNumber fun _ => classified_toInt).congr Iff.rfl infinity_iff

theorem classified_toFloat {value : Value} {x : Number} (h : number? value = some x) :
    Classified (toFloat value) False
      (∃ n : ℤ, value = .int n ∧ 2 ^ 1024 - 2 ^ 970 ≤ n.natAbs) := by
  rcases number?_eq_some h with ⟨n, rfl, rfl⟩ | rfl
  · show Classified (floatOfInt n) _ _
    unfold floatOfInt
    by_cases hlarge : 2 ^ 1024 - 2 ^ 970 ≤ n.natAbs
    · rw [if_pos hlarge]
      refine ⟨by simp, ?_⟩
      rw [fails_error]
      exact iff_of_true (fun h => h) ⟨n, rfl, hlarge⟩
    · rw [if_neg hlarge]
      have hnone : False ↔ ∃ m : ℤ, Value.int n = .int m ∧ 2 ^ 1024 - 2 ^ 970 ≤ m.natAbs := by
        refine iff_of_false id ?_
        rintro ⟨m, hm, hm'⟩
        injection hm with hm
        exact hlarge (hm ▸ hm')
      split
      · exact (Classified.of_ok _).congr Iff.rfl hnone
      · exact (Classified.of_ok _).congr Iff.rfl hnone
  · refine (Classified.of_ok _).congr Iff.rfl (iff_of_false id ?_)
    rintro ⟨n, hn, -⟩
    cases hn

theorem natAbs_le_iff {n : ℤ} (hn : 0 < n) {i j : ℕ} (h : j ≤ i) :
    2 ^ i - 2 ^ j ≤ n.natAbs ↔ (2 : ℤ) ^ i - 2 ^ j ≤ n := by
  have hle : 2 ^ j ≤ 2 ^ i := Nat.pow_le_pow_right (by decide) h
  have hcast : ∀ k : ℕ, ((2 ^ k : ℕ) : ℤ) = 2 ^ k := fun k => by push_cast; rfl
  rw [← hcast, ← hcast]
  omega

theorem classified_deposit : Classified (resolveDeposit params)
    (Refused py today params .deposit) (Crashes today params .deposit) := by
  refine (classified_positiveNumber fun _ => classified_toFloat).congr ?_ ?_
  · exact forall_congr' fun x => imp_congr_right fun _ => or_iff_left id
  · have hlt : 970 ≤ 1024 := by decide
    constructor
    · rintro ⟨x, hnumber, hsmall, n, hvalue, hlarge⟩
      change number? (depositOf params) = some x at hnumber
      change depositOf params = .int n at hvalue
      rw [hvalue] at hnumber
      injection hnumber with hnumber
      subst hnumber
      have hpos : 0 < n := by simpa [tooSmall] using hsmall
      exact ⟨n, hvalue, (natAbs_le_iff hpos hlt).mp hlarge⟩
    · rintro ⟨n, hvalue, hlarge⟩
      have hpos : 0 < n := by
        have hlt : (2 : ℤ) ^ 970 < 2 ^ 1024 := pow_lt_pow_right₀ (by decide) (by decide)
        omega
      refine ⟨.finite n, ?_, ?_, n, hvalue, (natAbs_le_iff hpos hlt).mpr hlarge⟩
      · change number? (depositOf params) = _
        rw [hvalue]
        rfl
      · simpa [tooSmall] using hpos

/-! ### Dates -/

namespace Date

theorem le_iff {a b : Date} : a ≤ b ↔ a.year < b.year ∨
    a.year = b.year ∧ (a.month < b.month ∨ a.month = b.month ∧ a.day ≤ b.day) := Iff.rfl

theorem le_refl (d : Date) : d ≤ d := by
  rw [le_iff]
  omega

theorem le_trans {a b c : Date} (h : a ≤ b) (h' : b ≤ c) : a ≤ c := by
  rw [le_iff] at h h' ⊢
  omega

theorem of?_eq_some {year month day : ℕ} {d : Date} (h : of? year month day = some d) :
    d.year = year ∧ d.month = month ∧ d.day = day := by
  unfold of? at h
  split at h
  · cases h
    exact ⟨rfl, rfl, rfl⟩
  · cases h

theorem prev_le {d d' : Date} (h : d.prev = some d') : d' ≤ d := by
  unfold prev at h
  rw [le_iff]
  split at h
  next hday =>
    obtain ⟨hyear, hmonth, hday'⟩ := of?_eq_some h
    omega
  next =>
    split at h
    next hmonth =>
      obtain ⟨hyear, hmonth', -⟩ := of?_eq_some h
      omega
    next =>
      obtain ⟨hyear, -, -⟩ := of?_eq_some h
      have hpos := d.hyear.1
      omega

/-- A date is not before the one some days before it. -/
theorem minusDays_le {d d' : Date} {n : ℕ} (h : d.minusDays n = some d') : d' ≤ d := by
  induction n generalizing d with
  | zero =>
    cases h
    exact le_refl _
  | succ n ih =>
    obtain ⟨before, hprev, hrest⟩ := Option.bind_eq_some_iff.mp h
    exact le_trans (ih hrest) (prev_le hprev)

/-- Every month has 28 days. -/
theorem le_daysInMonth (year month : ℕ) : 28 ≤ daysInMonth year month := by
  unfold daysInMonth
  split
  · split <;> omega
  · split <;> omega

theorem of?_ne_none {year month : ℕ} (hyear : 1 ≤ year ∧ year ≤ 9999)
    (hmonth : 1 ≤ month ∧ month ≤ 12) : of? year month 28 ≠ none := by
  have hday := le_daysInMonth year month
  rw [of?, dif_pos ⟨hyear, hmonth, by omega, hday⟩]
  exact Option.some_ne_none _

theorem of?_zero (month day : ℕ) : of? 0 month day = none := by
  rw [of?, dif_neg]
  omega

end Date

theorem yearsBefore_eq_overflow {n : ℤ} (h : (today.year : ℤ) + 2 ^ 31 < n) :
    yearsBefore today n = .error .overflowError := by
  unfold yearsBefore
  rw [if_pos (by omega)]

theorem yearsBefore_eq_refusal {n : ℤ} (h : (today.year : ℤ) ≤ n)
    (h' : n ≤ today.year + 2 ^ 31) :
    ∃ text, yearsBefore today n = .error (.valueError text) := by
  have hzero : ((today.year : ℤ) - n).toNat = 0 := by omega
  unfold yearsBefore
  rw [if_neg (by omega), hzero, Date.of?_zero, Date.of?_zero]
  exact ⟨_, rfl⟩

theorem yearsBefore_eq_ok {n : ℤ} (h : 0 < n) (h' : n < today.year) :
    ∃ d ≤ today, yearsBefore today n = .ok d := by
  unfold yearsBefore
  rw [if_neg (by omega)]
  rcases hdate : (Date.of? ((today.year : ℤ) - n).toNat today.month today.day).or
      (Date.of? ((today.year : ℤ) - n).toNat today.month 28) with _ | d
  · rw [Option.or_eq_none_iff] at hdate
    have hyear := today.hyear
    exact absurd hdate.2 (Date.of?_ne_none (by omega) today.hmonth)
  · refine ⟨d, ?_, rfl⟩
    have hyear : d.year = ((today.year : ℤ) - n).toNat := by
      rcases Option.or_eq_some_iff.mp hdate with hd | ⟨-, hd⟩
      · exact (Date.of?_eq_some hd).1
      · exact (Date.of?_eq_some hd).1
    rw [Date.le_iff]
    omega

theorem parseIsoDate_of_some {field : String} {value : Value} {d : Date}
    (h : dateOf py value = some d) : parseIsoDate py field value = .ok d := by
  unfold parseIsoDate
  cases value with
  | str text =>
    change strptime py text = some d at h
    dsimp only
    rw [h]
  | _ => cases h

theorem parseIsoDate_of_none (field : String) {value : Value} (h : dateOf py value = none) :
    ∃ text, parseIsoDate py field value = .error (.valueError text) := by
  unfold parseIsoDate
  cases value with
  | str text =>
    change strptime py text = none at h
    dsimp only
    rw [h]
    exact ⟨_, rfl⟩
  | _ => exact ⟨_, rfl⟩

/-- A window is refused when it ends before it begins. -/
theorem classified_of_ends {first last : Date}
    (h : windowEnds py today params = .ok (first, last)) :
    Classified (resolveDates py today params) (¬ first ≤ last) False := by
  refine Classified.bind_of_ok h ?_
  dsimp only
  split
  next hle => exact (Classified.of_ok _).congr (by simpa using hle) Iff.rfl
  next hnot => exact (Classified.of_valueError _).congr (by simpa using hnot) Iff.rfl

theorem classified_of_refusal
    (h : ∃ text, windowEnds py today params = .error (.valueError text)) :
    Classified (resolveDates py today params) True False := by
  obtain ⟨text, h⟩ := h
  exact Classified.bind_of_valueError h

theorem classified_of_overflow (h : windowEnds py today params = .error .overflowError) :
    Classified (resolveDates py today params) False True := by
  unfold resolveDates
  rw [h]
  exact ⟨fails_error _, (fails_error _).trans (iff_of_true id trivial)⟩

/-- A window of two dates. -/
theorem classified_explicit {first last : Value} (hfirst : params.find "fromDate" = some first)
    (hlast : params.find "toDate" = some last) (hyears : params.find "lastYears" = none)
    (hdays : params.find "lastDays" = none) : Classified (resolveDates py today params)
      (∀ a b, dateOf py first = some a → dateOf py last = some b → ¬ a ≤ b) False := by
  have hends : windowEnds py today params = (parseIsoDate py "fromDate" first >>= fun a =>
      parseIsoDate py "toDate" last >>= fun b => .ok (a, b)) := by
    simp only [windowEnds, hfirst, hlast, hyears, hdays, Option.some_or]
  rcases ha : dateOf py first with _ | a
  · refine (classified_of_refusal ?_).congr (by simp) Iff.rfl
    obtain ⟨text, htext⟩ := parseIsoDate_of_none "fromDate" ha
    exact ⟨text, by rw [hends, htext]; rfl⟩
  · rcases hb : dateOf py last with _ | b
    · refine (classified_of_refusal ?_).congr (by simp) Iff.rfl
      obtain ⟨text, htext⟩ := parseIsoDate_of_none "toDate" hb
      rw [hends, htext, parseIsoDate_of_some ha]
      exact ⟨text, rfl⟩
    · rw [parseIsoDate_of_some ha, parseIsoDate_of_some hb] at hends
      change _ = Except.ok (a, b) at hends
      exact (classified_of_ends hends).congr (by simp) Iff.rfl

theorem positiveInt_of_pos (field : String) {value : Value} {n : ℤ} (h : intValue? value = some n)
    (hpos : 0 < n) : positiveInt field value = .ok n := by
  rw [positiveInt, h]
  exact if_neg (not_le.mpr hpos)

theorem positiveInt_of_not (field : String) {value : Value}
    (h : ∀ n, intValue? value = some n → n ≤ 0) :
    ∃ text, positiveInt field value = .error (.valueError text) := by
  unfold positiveInt
  rcases hn : intValue? value with _ | n
  · exact ⟨_, rfl⟩
  · exact ⟨_, if_pos (h n hn)⟩

/-- A window of years before today. -/
theorem classified_lastYears {years : Value} (hfirst : params.find "fromDate" = none)
    (hlast : params.find "toDate" = none) (hyears : params.find "lastYears" = some years)
    (hdays : params.find "lastDays" = none) : Classified (resolveDates py today params)
      (∀ n, intValue? years = some n →
        n ≤ 0 ∨ (today.year : ℤ) ≤ n ∧ n ≤ today.year + 2 ^ 31)
      (∃ n, intValue? years = some n ∧ today.year + 2 ^ 31 < n) := by
  have hends : windowEnds py today params = (positiveInt "lastYears" years >>= fun n =>
      yearsBefore today n >>= fun first => .ok (first, today)) := by
    simp only [windowEnds, hfirst, hlast, hyears, hdays, Option.or_none]
  by_cases hpos : ∃ n, intValue? years = some n ∧ 0 < n
  · obtain ⟨n, hn, hpos⟩ := hpos
    rw [positiveInt_of_pos "lastYears" hn hpos] at hends
    change _ = (yearsBefore today n >>= fun first => .ok (first, today)) at hends
    simp only [hn, Option.some.injEq, forall_eq', exists_eq_left']
    rcases lt_or_ge (today.year + 2 ^ 31 : ℤ) n with hfar | hnear
    · refine (classified_of_overflow ?_).congr (iff_of_false id (by omega))
        (iff_of_true trivial hfar)
      rw [hends, yearsBefore_eq_overflow hfar]
      rfl
    · rcases lt_or_ge n today.year with hlt | hge
      · obtain ⟨d, hd, hbefore⟩ := yearsBefore_eq_ok hpos hlt
        rw [hbefore] at hends
        exact (classified_of_ends hends).congr (iff_of_false (not_not.mpr hd) (by omega))
          (iff_of_false id (by omega))
      · obtain ⟨text, hbefore⟩ := yearsBefore_eq_refusal hge hnear
        rw [hbefore] at hends
        exact (classified_of_refusal ⟨text, hends⟩).congr (iff_of_true trivial (by omega))
          (iff_of_false id (by omega))
  · have hle : ∀ n, intValue? years = some n → n ≤ 0 := fun n hn =>
      not_lt.mp fun hlt => hpos ⟨n, hn, hlt⟩
    obtain ⟨text, htext⟩ := positiveInt_of_not "lastYears" hle
    rw [htext] at hends
    refine (classified_of_refusal ⟨text, hends⟩).congr
      (iff_of_true trivial fun n hn => .inl (hle n hn)) (iff_of_false id ?_)
    rintro ⟨n, hn, hfar⟩
    have hn' := hle n hn
    omega

/-- A window of days before today. -/
theorem classified_lastDays {days : Value} (hfirst : params.find "fromDate" = none)
    (hlast : params.find "toDate" = none) (hyears : params.find "lastYears" = none)
    (hdays : params.find "lastDays" = some days) : Classified (resolveDates py today params)
      (∀ n, intValue? days = some n → n ≤ 0)
      (∃ n, intValue? days = some n ∧ 0 < n ∧ today.minusDays n.toNat = none) := by
  have hends : windowEnds py today params = (positiveInt "lastDays" days >>= fun n =>
      daysBefore today n >>= fun first => .ok (first, today)) := by
    simp only [windowEnds, hfirst, hlast, hyears, hdays, Option.or_none]
  by_cases hpos : ∃ n, intValue? days = some n ∧ 0 < n
  · obtain ⟨n, hn, hpos⟩ := hpos
    rw [positiveInt_of_pos "lastDays" hn hpos] at hends
    change _ = (daysBefore today n >>= fun first => .ok (first, today)) at hends
    simp only [hn, Option.some.injEq, forall_eq', exists_eq_left']
    rcases hminus : today.minusDays n.toNat with _ | d
    · refine (classified_of_overflow ?_).congr (iff_of_false id (by omega))
        (iff_of_true trivial ⟨hpos, rfl⟩)
      rw [hends, daysBefore, hminus]
      rfl
    · rw [daysBefore, hminus] at hends
      refine (classified_of_ends hends).congr
        (iff_of_false (not_not.mpr (Date.minusDays_le hminus)) (by omega)) (iff_of_false id ?_)
      rintro ⟨-, h⟩
      cases h
  · have hle : ∀ n, intValue? days = some n → n ≤ 0 := fun n hn =>
      not_lt.mp fun hlt => hpos ⟨n, hn, hlt⟩
    obtain ⟨text, htext⟩ := positiveInt_of_not "lastDays" hle
    rw [htext] at hends
    refine (classified_of_refusal ⟨text, hends⟩).congr (iff_of_true trivial hle)
      (iff_of_false id ?_)
    rintro ⟨n, hn, hlt, -⟩
    exact hpos ⟨n, hn, hlt⟩

theorem classified_dates : Classified (resolveDates py today params)
    (DatesRefused py today params) (DatesCrash today params) := by
  unfold DatesRefused DatesCrash
  rcases hfirst : params.find "fromDate" with _ | first <;>
    rcases hlast : params.find "toDate" with _ | last <;>
    rcases hyears : params.find "lastYears" with _ | years <;>
    rcases hdays : params.find "lastDays" with _ | days
  case none.none.none.some => exact classified_lastDays hfirst hlast hyears hdays
  case none.none.some.none => exact classified_lastYears hfirst hlast hyears hdays
  case some.some.none.none => exact classified_explicit hfirst hlast hyears hdays
  -- no window, half of one, or more than one
  all_goals
    apply classified_of_refusal
    simp only [windowEnds, hfirst, hlast, hyears, hdays, Option.or_none, Option.none_or,
      Option.some_or]
    exact ⟨_, rfl⟩

/-! ## All of the checks -/

/-- What each check does, by what is given for its field. -/
theorem classified_check (f : Field) : Classified (check py today params f)
    (Refused py today params f) (Crashes today params f) := by
  cases f with
  | symbol => exact classified_symbol.asCheck
  | timeframe => exact (classified_timeframe _).asCheck
  | expert => exact (classified_filename _ _ _ _).asCheck
  | expertParameters => exact classified_expertParameters.asCheck
  | dates => exact classified_dates.asCheck
  | modelling => exact classified_modelling.asCheck
  | optimization => exact (classified_choice _ _).asCheck
  | optimizationCriterion => exact (classified_choice _ _).asCheck
  | deposit => exact classified_deposit.asCheck
  | leverage => exact classified_leverage.asCheck
  | latencyMs => exact classified_latency.asCheck
  | currency => exact classified_currency.asCheck
  | reportName => exact (classified_reportName _).asCheck
  | forwardMode => exact classified_forwardMode.asCheck

/-- The settings fail as the list of the checks does. -/
theorem asCheck_settings : asCheck (settings py today params) =
    order.forM (check py today params) := by
  unfold settings order
  refine asCheck_bind_cons rfl fun symbol _ => ?_
  refine asCheck_bind_cons rfl fun timeframe _ => ?_
  refine asCheck_bind_cons rfl fun expertFilename _ => ?_
  refine asCheck_bind_cons rfl fun setFilename _ => ?_
  refine asCheck_bind_cons rfl fun window _ => ?_
  refine asCheck_bind_cons rfl fun model _ => ?_
  refine asCheck_bind_cons rfl fun optimization hoptimization => ?_
  refine asCheck_bind_cons rfl fun optimizationCriterion _ => ?_
  refine asCheck_bind_cons rfl fun deposit _ => ?_
  refine asCheck_bind_cons rfl fun leverage _ => ?_
  refine asCheck_bind_cons rfl fun latencyMs _ => ?_
  refine asCheck_bind_cons rfl fun currency _ => ?_
  -- the report is named after the optimization that is asked for
  obtain rfl := eq_optimizationOf hoptimization
  refine asCheck_bind_cons rfl fun reportName _ => ?_
  refine asCheck_bind_cons rfl fun forwardMode _ => ?_
  rfl

end Backtest.IniBuilder

import Mt5HttpApi.Backtest.IniChecks
import Mt5HttpApi.Lib.Decimal

/-!
# What a valid tester INI is

The route answers a `ValueError` of `build_ini` with 400, and expects no other exception. What is
returned is meant for the tester: `ValidTester` says which values it takes. A value `Slips` that
passes its check and is then written as a text that is not valid. `buildIni_valid_iff` says that
`build_ini` keeps to this exactly for the objects whose fields are fit.
-/

namespace Backtest.IniBuilder

open Text Json Checks Decimal

/-! ## Valid texts -/

/-- A number up to `last`. -/
def UpTo (last : ℕ) (text : List Char) : Prop := ∃ n ≤ last, text = Nat.toDigits 10 n

/-- A modelling mode. -/
def IsModel (text : List Char) : Prop := ∃ n ∈ [0, 1, 2, 4], text = Nat.toDigits 10 n

/-- `1:k`. -/
def IsLeverage (text : List Char) : Prop := ∃ k ≥ 1, text = "1:".toList ++ Nat.toDigits 10 k

/-- A number greater than 0, as written. -/
def IsPositive (text : List Char) : Prop := ∃ q, decimalValue text = some q ∧ 0 < q

/-- A number that is not negative. -/
def IsCount (text : List Char) : Prop := ∃ n, text = Nat.toDigits 10 n

/-- An option of the `[Tester]` section has such a value. -/
def Has (parsed : Ini.Parsed) (key : String) (P : List Char → Prop) : Prop :=
  ∃ text, parsed.value "Tester".toList key.toList = some text ∧ P text

/-- The `[Tester]` section of a valid INI. -/
structure ValidTester (parsed : Ini.Parsed) : Prop where
  model : Has parsed "Model" IsModel
  optimization : Has parsed "Optimization" (UpTo 3)
  criterion : Has parsed "OptimizationCriterion" (UpTo 7)
  forwardMode : Has parsed "ForwardMode" (UpTo 4)
  leverage : Has parsed "Leverage" IsLeverage
  deposit : Has parsed "Deposit" IsPositive
  executionMode : Has parsed "ExecutionMode" IsCount
  dates : ∃ first last : Date, first ≤ last ∧ Has parsed "FromDate" (· = first.format '.') ∧
    Has parsed "ToDate" (· = last.format '.')

/-- Nothing else is raised than a `ValueError`, and a text that is returned is a valid INI. -/
structure ValidOutcome (outcome : Except Raised (List Char)) : Prop where
  error : ∀ e, outcome = .error e → e.IsRefusal
  ok : ∀ text, outcome = .ok text → ∃ parsed, Ini.read text = .ok parsed ∧ ValidTester parsed

/-- A field passes its check, and is written as a text that is not valid: a truth value in the place
of a number, a float in the place of an integer, or a number that is no longer positive when it is
rounded. -/
def Slips (params : Fields) : Field → Prop
  | .modelling => ∃ b, modellingOf params = .bool b
  | .deposit => depositOf params = .float .nan ∨ depositOf params = .float (.infinity false) ∨
      ∃ q, depositOf params = .float (.finite q) ∧ 0 < q ∧ q ≤ 1 / 200
  | .leverage => ∃ q, leverageOf params = .float (.finite q) ∧ 0 < q ∧ q < 1
  | .forwardMode => (∃ b, forwardModeOf params = .bool b) ∨
      forwardModeOf params = .float .negZero ∨
      ∃ q ∈ [0, 1, 2, 3, 4], forwardModeOf params = .float (.finite q)
  | _ => False

/-- Each field that crashes is behind one that is refused, and where a field slips, one is
refused. -/
structure FitFields (py : Py) (today : Date) (params : Fields) : Prop where
  crashes : ∀ pre f post, order = pre ++ f :: post → Crashes today params f →
    ∃ g ∈ pre, Refused py today params g
  slips : (∃ f, Slips params f) → ∃ g, Refused py today params g

variable {py : Py} {today : Date} {params : Fields} {s : Settings} {parsed : Ini.Parsed}

/-! ## Texts without white space -/

/-- No character of the text is white space. -/
def NoSpace (text : List Char) : Prop := ∀ c ∈ text, isSpace c = false

instance (text : List Char) : Decidable (NoSpace text) := inferInstanceAs (Decidable (∀ _ ∈ _, _))

theorem NoSpace.append {a b : List Char} (ha : NoSpace a) (hb : NoSpace b) : NoSpace (a ++ b) :=
  fun c hc => (List.mem_append.mp hc).elim (ha c) (hb c)

theorem NoSpace.cons {c : Char} {a : List Char} (hc : isSpace c = false) (ha : NoSpace a) :
    NoSpace (c :: a) :=
  List.forall_mem_cons.mpr ⟨hc, ha⟩

theorem noSpace_toDigits (n : ℕ) : NoSpace (Nat.toDigits 10 n) :=
  isSpace_of_isNumeral (isNumeral_toDigits n)

theorem noSpace_intText (n : ℤ) : NoSpace (intText n) := by
  unfold intText
  split
  · exact noSpace_toDigits _
  · exact (noSpace_toDigits _).cons rfl

theorem isNumeral_padded (width n : ℕ) : IsNumeral (Date.padded width n) := by
  refine ⟨List.append_ne_nil_of_right_ne_nil _ (isNumeral_toDigits n).1, fun c hc => ?_⟩
  rcases List.mem_append.mp hc with hc | hc
  · rw [List.eq_of_mem_replicate hc]
    rfl
  · exact (isNumeral_toDigits n).2 c hc

theorem noSpace_format (d : Date) : NoSpace (d.format '.') := by
  have hpadded : ∀ width n, NoSpace (Date.padded width n) := fun width n =>
    isSpace_of_isNumeral (isNumeral_padded width n)
  exact ((hpadded _ _).append ((hpadded _ _).cons rfl)).append ((hpadded _ _).cons rfl)

theorem noSpace_fixedText (q : ℚ) : NoSpace (fixedText q) :=
  (noSpace_toDigits _).append (NoSpace.cons rfl (isSpace_of_isNumeral (isNumeral_padded _ _)))

theorem noSpace_depositText (x : Number) : NoSpace (depositText x) := by
  cases x with
  | finite q =>
    rw [depositText]
    split
    · exact noSpace_intText _
    · exact noSpace_fixedText q
  | negZero => decide
  | nan => decide
  | infinity negative => cases negative <;> decide

theorem noSpace_boolText (py : Py) (b : Bool) : NoSpace (valueText py (.bool b)) := by
  cases b with
  | true => exact (by decide : NoSpace "True".toList)
  | false => exact (by decide : NoSpace "False".toList)

/-- What is read of an option without white space is what was written. -/
theorem has_iff {key : String} {text : List Char} {P : List Char → Prop}
    (hvalue : parsed.value "Tester".toList key.toList = some (Ini.readBack text))
    (hspace : NoSpace text) : Has parsed key P ↔ P text := by
  rw [Has, hvalue, Ini.readBack_of_forall hspace]
  simp

/-! ## What is written of each field -/

theorem intText_natCast (n : ℕ) : intText n = Nat.toDigits 10 n := by
  rw [intText, if_pos (Int.natCast_nonneg n), Int.natAbs_natCast]

/-- The number of a choice is one of those that are allowed. -/
theorem upTo_of_choice {field : String} {last : ℕ} {n : ℤ}
    (h : resolveChoice field last params = .ok n) : UpTo last (intText n) := by
  unfold resolveChoice at h
  split at h
  next => cases h
  next =>
    split at h
    next hrange =>
      cases h
      obtain ⟨k, rfl⟩ := Int.eq_ofNat_of_zero_le hrange.1
      exact ⟨k, by exact_mod_cast hrange.2, intText_natCast k⟩
    next => cases h

/-- A modelling mode is an integer, or a truth value that was given for one. -/
theorem model_of_modelling {model : Value} (h : resolveModelling py params = .ok model) :
    (∃ n : ℕ, n ∈ [0, 1, 2, 4] ∧ model = .int n ∧ ¬ Slips params .modelling) ∨
      ∃ b, model = .bool b ∧ modellingOf params = .bool b := by
  -- the modes of the map
  have hmode : ∀ n : ℤ, n ∈ modellingMap.map Prod.snd → ∃ k : ℕ, k ∈ [0, 1, 2, 4] ∧ n = k := by
    intro n hn
    simp only [modellingMap, List.map_cons, List.map_nil, List.mem_cons, List.not_mem_nil,
      or_false] at hn
    rcases hn with rfl | rfl | rfl | rfl
    · exact ⟨0, by simp, rfl⟩
    · exact ⟨1, by simp, rfl⟩
    · exact ⟨2, by simp, rfl⟩
    · exact ⟨4, by simp, rfl⟩
  -- only a Boolean slips through
  have hslip : (∀ b, modellingOf params ≠ .bool b) → ¬ Slips params .modelling := by
    rintro hne ⟨b, hb⟩
    exact hne b hb
  unfold resolveModelling at h
  rw [← modellingOf] at h
  rcases hgiven : modellingOf params with _ | b | n | x | text | items | fields
  · rw [hgiven] at h
    cases h
  · rw [hgiven] at h
    cases h
    exact .inr ⟨b, rfl, rfl⟩
  · rw [hgiven] at h
    dsimp only at h
    split at h
    next hmem =>
      cases h
      obtain ⟨k, hk, rfl⟩ := hmode n hmem
      exact .inl ⟨k, hk, rfl, hslip (by simp [hgiven])⟩
    next => cases h
  · rw [hgiven] at h
    cases h
  · rw [hgiven] at h
    dsimp only at h
    split at h
    next n hget =>
      cases h
      obtain ⟨item, hitem, heq⟩ := List.mem_map.mp (Dict.mem_of_get hget)
      obtain ⟨k, hk, hn⟩ := hmode n (by
        injection heq with _ heq
        rw [← heq]
        exact List.mem_map_of_mem hitem)
      rw [hn]
      exact .inl ⟨k, hk, rfl, hslip (by simp [hgiven])⟩
    next => cases h
  · rw [hgiven] at h
    cases h
  · rw [hgiven] at h
    cases h

theorem boolText_ne (py : Py) (b : Bool) (n : ℕ) : valueText py (.bool b) ≠ Nat.toDigits 10 n := by
  cases b with
  | true => exact ne_toDigits (List.mem_cons_self : 'T' ∈ "True".toList) rfl n
  | false => exact ne_toDigits (List.mem_cons_self : 'F' ∈ "False".toList) rfl n

theorem isModel_iff {model : Value} (h : resolveModelling py params = .ok model) :
    IsModel (valueText py model) ↔ ¬ Slips params .modelling := by
  rcases model_of_modelling h with ⟨n, hn, rfl, hslip⟩ | ⟨b, rfl, hb⟩
  · exact iff_of_true ⟨n, hn, intText_natCast n⟩ hslip
  · refine iff_of_false ?_ (not_not.mpr ⟨b, hb⟩)
    rintro ⟨n, -, htext⟩
    exact boolText_ne py b n htext

theorem forwardModes_small :
    ∀ q ∈ ([0, 1, 2, 3, 4] : List ℚ), q.den = 1 ∧ q.num.natAbs < 10 ^ 16 := by
  decide

/-- A float is not written as an integer is. -/
theorem floatText_ne (py : Py) {x : Number} (hmode : isForwardMode (.float x) = true) (n : ℕ) :
    floatText py x ≠ Nat.toDigits 10 n := by
  have hpoint : '.' ∈ floatText py x := by
    cases x with
    | finite q =>
      simp only [isForwardMode, decide_eq_true_eq] at hmode
      rw [floatText, if_pos (forwardModes_small q hmode)]
      exact List.mem_append_right _ List.mem_cons_self
    | negZero =>
      show '.' ∈ "-0.0".toList
      decide
    | nan => cases hmode
    | infinity negative => cases hmode
  exact ne_toDigits hpoint rfl n

theorem noSpace_forwardMode {mode : Value} (hmode : isForwardMode mode = true) :
    NoSpace (valueText py mode) := by
  cases mode with
  | int n => exact noSpace_intText n
  | bool b => exact noSpace_boolText py b
  | float x =>
    cases x with
    | finite q =>
      simp only [isForwardMode, decide_eq_true_eq] at hmode
      change NoSpace (floatText py (.finite q))
      rw [floatText, if_pos (forwardModes_small q hmode)]
      exact (noSpace_intText _).append (by decide)
    | negZero => exact (by decide : NoSpace "-0.0".toList)
    | nan => cases hmode
    | infinity negative => cases hmode
  | _ => cases hmode

theorem isForwardMode_of_ok {mode : Value} (h : resolveForwardMode params = .ok mode) :
    isForwardMode mode = true := by
  unfold resolveForwardMode at h
  dsimp only at h
  split at h
  next hmode =>
    injection h with h
    rwa [← h]
  next => cases h

theorem forwardMode_iff (py : Py) {mode : Value} (h : resolveForwardMode params = .ok mode) :
    UpTo 4 (valueText py mode) ↔ ¬ Slips params .forwardMode := by
  unfold resolveForwardMode at h
  rw [← forwardModeOf] at h
  dsimp only at h
  split at h
  next hmode =>
    injection h with h
    have hslips : Slips params .forwardMode ↔ (∃ b, mode = .bool b) ∨ mode = .float .negZero ∨
        ∃ q ∈ [0, 1, 2, 3, 4], mode = .float (.finite q) := by
      rw [← h]
      rfl
    rw [hslips]
    rw [h] at hmode
    cases mode with
    | int n =>
      simp only [isForwardMode, decide_eq_true_eq] at hmode
      refine iff_of_true ?_ (by simp)
      have hrange : 0 ≤ n ∧ n ≤ 4 := by
        simp only [List.mem_cons, List.not_mem_nil, or_false] at hmode
        omega
      obtain ⟨k, rfl⟩ := Int.eq_ofNat_of_zero_le hrange.1
      exact ⟨k, by exact_mod_cast hrange.2, intText_natCast k⟩
    | bool b =>
      refine iff_of_false ?_ (not_not.mpr (.inl ⟨b, rfl⟩))
      rintro ⟨n, -, htext⟩
      exact boolText_ne py b n htext
    | float x =>
      refine iff_of_false ?_ (not_not.mpr (.inr ?_))
      · rintro ⟨n, -, htext⟩
        exact floatText_ne py hmode n htext
      · cases x with
        | finite q =>
          simp only [isForwardMode, decide_eq_true_eq] at hmode
          exact .inr ⟨q, hmode, rfl⟩
        | negZero => exact .inl rfl
        | nan => cases hmode
        | infinity negative => cases hmode
    | _ => cases hmode
  next => cases h

/-- A number that is converted is not too small. -/
theorem positiveNumber_eq_ok {α : Type} {value : Value} {field : String} {allowZero : Bool}
    {kind : Value → Except Raised α} {a : α}
    (h : positiveNumber value field allowZero kind = .ok a) :
    ∃ x, number? value = some x ∧ tooSmall allowZero x = false ∧ kind value = .ok a := by
  unfold positiveNumber at h
  split at h
  next => cases h
  next x hx =>
    split at h
    next => cases h
    next hsmall => exact ⟨x, hx, by simpa using hsmall, h⟩

theorem isCount_of_latency {n : ℤ} (h : resolveLatency params = .ok n) : IsCount (intText n) := by
  obtain ⟨x, hx, hsmall, hint⟩ := positiveNumber_eq_ok h
  have hpos : 0 ≤ n := by
    rcases number?_eq_some hx with ⟨m, hvalue, rfl⟩ | hvalue
    · rw [hvalue] at hint
      injection hint with hint
      rw [← hint]
      simpa [tooSmall] using hsmall
    · rw [hvalue] at hint
      cases x with
      | finite q =>
        injection hint with hint
        have hq : 0 ≤ q := by simpa [tooSmall] using hsmall
        rw [if_pos hq] at hint
        rw [← hint]
        exact Int.floor_nonneg.mpr hq
      | negZero =>
        injection hint with hint
        omega
      | nan => cases hint
      | infinity negative => cases hint
  obtain ⟨k, rfl⟩ := Int.eq_ofNat_of_zero_le hpos
  exact ⟨k, intText_natCast k⟩

theorem isLeverage_intText (n : ℤ) (h : 0 ≤ n) :
    IsLeverage ("1:".toList ++ intText n) ↔ 1 ≤ n := by
  obtain ⟨k, rfl⟩ := Int.eq_ofNat_of_zero_le h
  rw [intText_natCast]
  constructor
  · rintro ⟨m, hm, htext⟩
    rw [toDigits_injective (List.append_cancel_left htext)]
    exact_mod_cast hm
  · intro hk
    exact ⟨k, by exact_mod_cast hk, rfl⟩

theorem isLeverage_iff {n : ℤ} (h : resolveLeverage params = .ok n) :
    IsLeverage ("1:".toList ++ intText n) ↔ ¬ Slips params .leverage := by
  obtain ⟨x, hx, hsmall, hint⟩ := positiveNumber_eq_ok h
  change number? (leverageOf params) = some x at hx
  change toInt (leverageOf params) = .ok n at hint
  rcases number?_eq_some hx with ⟨m, hvalue, rfl⟩ | hvalue
  · rw [hvalue] at hint
    injection hint with hint
    subst hint
    have hpos : 0 < m := by simpa [tooSmall] using hsmall
    refine ((isLeverage_intText m (by omega)).trans (iff_of_true (by omega) ?_))
    rintro ⟨q, hq, -⟩
    rw [hvalue] at hq
    cases hq
  · rw [hvalue] at hint
    cases x with
    | finite q =>
      injection hint with hint
      have hq : 0 < q := by simpa [tooSmall] using hsmall
      rw [if_pos hq.le] at hint
      subst hint
      refine (isLeverage_intText _ (Int.floor_nonneg.mpr hq.le)).trans ?_
      rw [Int.le_floor, Int.cast_one, Slips, hvalue]
      constructor
      · rintro hle ⟨q', hq', -, hlt⟩
        cases hq'
        exact absurd hlt (not_lt.mpr hle)
      · intro hslip
        by_contra hlt
        exact hslip ⟨q, rfl, hq, not_le.mp hlt⟩
    | negZero => cases hsmall
    | nan => cases hint
    | infinity negative => cases hint

/-! ### The deposit -/

/-- A positive number is rounded to a positive integer when it is more than a half. -/
theorem roundHalfEven_pos_iff {q : ℚ} (h : 0 < q) : 0 < roundHalfEven q ↔ 1 / 2 < q := by
  have hle := Int.floor_le q
  have hlt := Int.lt_floor_add_one q
  have hfloor : 0 ≤ ⌊q⌋ := Int.floor_nonneg.mpr h.le
  rcases hfloor.eq_or_lt with hzero | hpos
  · -- below one it depends on which side of the half it is
    rw [roundHalfEven, ← hzero]
    norm_num
    split
    next hlow =>
      refine iff_of_false (by omega) (not_lt.mpr ?_)
      rcases hlow with hlow | hlow
      · exact hlow.le
      · exact hlow.le
    next hhigh =>
      rw [not_or, not_lt] at hhigh
      exact iff_of_true (by omega) (lt_of_le_of_ne hhigh.1 (Ne.symm hhigh.2))
  · have hone : (1 : ℚ) ≤ ⌊q⌋ := by exact_mod_cast hpos
    refine iff_of_true ?_ (by linarith)
    rw [roundHalfEven]
    split <;> omega

theorem roundHalfEven_nonneg {q : ℚ} (h : 0 ≤ q) : 0 ≤ roundHalfEven q := by
  have hfloor : 0 ≤ ⌊q⌋ := Int.floor_nonneg.mpr h
  rw [roundHalfEven]
  split <;> omega

theorem length_padded {n : ℕ} (h : n < 100) : (Date.padded 2 n).length = 2 := by
  have hlength : (Nat.toDigits 10 n).length ≤ 2 :=
    (Nat.length_toDigits_le_iff (by decide) (by decide)).mpr h
  rw [Date.padded, List.length_append, List.length_replicate]
  omega

theorem ofDigitChars_padded (width n : ℕ) : Nat.ofDigitChars 10 (Date.padded width n) 0 = n := by
  rw [Date.padded, Nat.ofDigitChars_append, Nat.ofDigitChars_replicate_zero, Nat.mul_zero,
    Nat.ofDigitChars_ten_toDigits]

/-- What is read of a number of hundredths. -/
theorem decimalValue_fixedText (q : ℚ) :
    decimalValue (fixedText q) = some ((roundHalfEven (q * 100)).natAbs / 100 : ℚ) := by
  rw [fixedText, decimalValue_point (isNumeral_toDigits _) (isNumeral_padded _ _),
    Nat.ofDigitChars_ten_toDigits, ofDigitChars_padded, length_padded (Nat.mod_lt _ (by decide))]
  congr 1
  have hsplit := Nat.div_add_mod (roundHalfEven (q * 100)).natAbs 100
  have hcast : (100 : ℚ) * ((roundHalfEven (q * 100)).natAbs / 100 : ℕ) +
      ((roundHalfEven (q * 100)).natAbs % 100 : ℕ) = (roundHalfEven (q * 100)).natAbs := by
    exact_mod_cast hsplit
  rw [← hcast]
  ring

theorem isPositive_fixedText {q : ℚ} (h : 0 < q) : IsPositive (fixedText q) ↔ 1 / 200 < q := by
  have hmul : 0 < q * 100 := by linarith
  have hnonneg := roundHalfEven_nonneg hmul.le
  have hhalf : 1 / 2 < q * 100 ↔ 1 / 200 < q := by
    constructor
    · intro hlt
      linarith
    · intro hlt
      linarith
  rw [IsPositive, decimalValue_fixedText]
  simp only [Option.some.injEq, exists_eq_left']
  rw [← hhalf, ← roundHalfEven_pos_iff hmul, div_pos_iff_of_pos_right (by norm_num),
    Nat.cast_pos]
  omega

theorem isPositive_toDigits {n : ℕ} (h : 0 < n) : IsPositive (Nat.toDigits 10 n) :=
  ⟨n, decimalValue_toDigits n, Nat.cast_pos.mpr h⟩

/-- A number without a fraction is written as an integer. -/
theorem depositText_of_den {q : ℚ} (h : q.den = 1) : depositText (.finite q) = intText q.num := by
  rw [depositText, if_pos h]

theorem nearestDouble_pos {n : ℕ} (h : 0 < n) : 0 < nearestDouble n := by
  have hunit : 2 ^ (n.log2 - 52) ≤ n :=
    (Nat.pow_le_pow_right (by decide) (Nat.sub_le _ _)).trans (Nat.log2_self_le (by omega))
  have hpos : 0 < 2 ^ (n.log2 - 52) := by positivity
  have hhigh : 0 < n / 2 ^ (n.log2 - 52) := Nat.div_pos hunit hpos
  unfold nearestDouble
  dsimp only
  split
  · exact Nat.mul_pos hhigh hpos
  · exact Nat.mul_pos (Nat.succ_pos _) hpos

theorem isPositive_iff {x : Number} (h : resolveDeposit params = .ok x) :
    IsPositive (depositText x) ↔ ¬ Slips params .deposit := by
  obtain ⟨y, hy, hsmall, hfloat⟩ := positiveNumber_eq_ok h
  change number? (depositOf params) = some y at hy
  change toFloat (depositOf params) = .ok x at hfloat
  rcases number?_eq_some hy with ⟨n, hvalue, rfl⟩ | hvalue
  · -- an integer stays one as a double
    have hpos : 0 < n := by simpa [tooSmall] using hsmall
    have hdouble : x = .finite (nearestDouble n.natAbs) := by
      rw [hvalue] at hfloat
      change floatOfInt n = .ok x at hfloat
      unfold floatOfInt at hfloat
      rw [if_pos hpos.le] at hfloat
      split at hfloat
      · cases hfloat
      · injection hfloat with hfloat
        exact hfloat.symm
    refine iff_of_true ?_ ?_
    · rw [hdouble, depositText_of_den (Rat.den_natCast _), Rat.num_natCast, intText_natCast]
      exact isPositive_toDigits (nearestDouble_pos (by omega))
    · simp [Slips, hvalue]
  · rw [hvalue] at hfloat
    injection hfloat with hfloat
    subst hfloat
    cases y with
    | finite q =>
      have hq : 0 < q := by simpa [tooSmall] using hsmall
      have hslips : Slips params .deposit ↔ q ≤ 1 / 200 := by
        rw [Slips, hvalue]
        simp [hq]
      rw [hslips, not_le]
      by_cases hden : q.den = 1
      · have hnum : 0 < q.num := Rat.num_pos.mpr hq
        have heq : (q.num : ℚ) = q := Rat.coe_int_num_of_den_eq_one hden
        have hone : (1 : ℚ) ≤ q := by
          rw [← heq]
          exact_mod_cast hnum
        refine iff_of_true ?_ (by linarith)
        obtain ⟨k, hk⟩ := Int.eq_ofNat_of_zero_le hnum.le
        rw [depositText_of_den hden, hk, intText_natCast]
        exact isPositive_toDigits (by omega)
      · rw [depositText, if_neg hden]
        exact isPositive_fixedText hq
    | negZero => cases hsmall
    | nan =>
      refine iff_of_false ?_ (not_not.mpr (.inl hvalue))
      rintro ⟨q, hq, -⟩
      have hnone : decimalValue "nan".toList = none := by decide
      exact Option.some_ne_none q (hq.symm.trans hnone)
    | infinity negative =>
      obtain rfl : negative = false := hsmall
      refine iff_of_false ?_ (not_not.mpr (.inr (.inl hvalue)))
      rintro ⟨q, hq, -⟩
      have hnone : decimalValue "inf".toList = none := by decide
      exact Option.some_ne_none q (hq.symm.trans hnone)

/-! ## All of the fields -/

/-- What is read of the options is valid when no field slips. -/
theorem validTester_iff (h : Passed py today params s)
    (hvalues : ∀ option ∈ testerOptions py s,
      parsed.value "Tester".toList option.1 = some (Ini.readBack option.2)) :
    ValidTester parsed ↔ ∀ f, ¬ Slips params f := by
  have hget : ∀ (i : ℕ) (key : String) (text : List Char),
      (testerOptions py s)[i]? = some (key.toList, text) →
        parsed.value "Tester".toList key.toList = some (Ini.readBack text) :=
    fun i key text hi => hvalues (key.toList, text) (List.mem_of_getElem? hi)
  have hspace : ∀ k : ℤ, NoSpace ("1:".toList ++ intText k) := fun k =>
    NoSpace.append (by decide) (noSpace_intText k)
  -- the four fields in which a value slips through
  have hmodel : Has parsed "Model" IsModel ↔ ¬ Slips params .modelling := by
    rw [← isModel_iff h.modelling]
    refine has_iff (hget 6 "Model" _ rfl) ?_
    rcases model_of_modelling h.modelling with ⟨n, -, hn, -⟩ | ⟨b, hb, -⟩
    · rw [hn]
      exact noSpace_intText n
    · rw [hb]
      exact noSpace_boolText py b
  have hforward : Has parsed "ForwardMode" (UpTo 4) ↔ ¬ Slips params .forwardMode := by
    rw [← forwardMode_iff py h.forwardMode]
    exact has_iff (hget 10 "ForwardMode" _ rfl)
      (noSpace_forwardMode (isForwardMode_of_ok h.forwardMode))
  have hleverage : Has parsed "Leverage" IsLeverage ↔ ¬ Slips params .leverage := by
    rw [← isLeverage_iff h.leverage]
    exact has_iff (hget 5 "Leverage" _ rfl) (hspace s.leverage)
  have hdeposit : Has parsed "Deposit" IsPositive ↔ ¬ Slips params .deposit := by
    rw [← isPositive_iff h.deposit]
    exact has_iff (hget 3 "Deposit" _ rfl) (noSpace_depositText s.deposit)
  constructor
  · intro hvalid f
    cases f with
    | modelling => exact hmodel.mp hvalid.model
    | forwardMode => exact hforward.mp hvalid.forwardMode
    | leverage => exact hleverage.mp hvalid.leverage
    | deposit => exact hdeposit.mp hvalid.deposit
    | _ => exact id
  · intro hslips
    refine ⟨hmodel.mpr (hslips _), ?_, ?_, hforward.mpr (hslips _), hleverage.mpr (hslips _),
      hdeposit.mpr (hslips _), ?_, s.window.first, s.window.last, s.window.ordered, ?_, ?_⟩
    -- the others are always valid
    · exact (has_iff (hget 8 "Optimization" _ rfl) (noSpace_intText _)).mpr
        (upTo_of_choice h.optimization)
    · exact (has_iff (hget 9 "OptimizationCriterion" _ rfl) (noSpace_intText _)).mpr
        (upTo_of_choice h.criterion)
    · exact (has_iff (hget 7 "ExecutionMode" _ rfl) (noSpace_intText _)).mpr
        (isCount_of_latency h.latency)
    · exact (has_iff (hget 11 "FromDate" _ rfl) (noSpace_format _)).mpr rfl
    · exact (has_iff (hget 12 "ToDate" _ rfl) (noSpace_format _)).mpr rfl

theorem mem_order (f : Field) : f ∈ order := by
  cases f <;> decide

/-- Settings are returned when no check fails. -/
theorem settings_isOk_iff (py : Py) (today : Date) (params : Fields) :
    (∃ s, settings py today params = .ok s) ↔
    ∀ f, ¬ Refused py today params f ∧ ¬ Crashes today params f := by
  have hcheck : ∀ f, check py today params f = .ok () ↔
      ¬ Refused py today params f ∧ ¬ Crashes today params f := by
    intro f
    rw [← (classified_check f).refused_iff, ← (classified_check f).crashes_iff]
    exact eq_ok_iff
  rw [← asCheck_eq_ok, asCheck_settings, forM_eq_ok]
  constructor
  · intro hall f
    exact (hcheck f).mp (hall f (mem_order f))
  · intro hall f _
    exact (hcheck f).mpr (hall f)

/-- An exception that is no `ValueError` is raised unless each field that crashes is behind one that
is refused. -/
theorem settings_crash_iff (py : Py) (today : Date) (params : Fields) :
    ¬ Fails (fun e => ¬ e.IsRefusal) (settings py today params) ↔
    ∀ pre f post, order = pre ++ f :: post → Crashes today params f →
      ∃ g ∈ pre, Refused py today params g := by
  rw [← fails_asCheck, asCheck_settings, not_fails_forM_iff]
  simp only [not_not, (classified_check _).refused_iff, (classified_check _).crashes_iff]

/-- What is returned is valid when no field slips. -/
theorem validOutcome_of_settings (hs : settings py today params = .ok s) :
    ValidOutcome (buildIni py today (.obj params)) ↔ ∀ f, ¬ Slips params f := by
  have hbuild : buildIni py today (.obj params) = .ok (Ini.write (sections py s)) :=
    buildIni_eq_ok.mpr ⟨s, hs, rfl⟩
  obtain ⟨parsed, hread, -, -, hvalues⟩ := read_sections py s
  rw [hbuild, ← validTester_iff (passed_of_settings hs) hvalues]
  constructor
  · intro houtcome
    obtain ⟨parsed', hread', hvalid⟩ := houtcome.ok _ rfl
    rw [hread] at hread'
    cases hread'
    exact hvalid
  · intro hvalid
    constructor
    · intro e he
      cases he
    · intro text htext
      cases htext
      exact ⟨parsed, hread, hvalid⟩

theorem validOutcome_of_error {e : Raised} (hs : settings py today params = .error e) :
    ValidOutcome (buildIni py today (.obj params)) ↔ e.IsRefusal := by
  have hbuild : buildIni py today (.obj params) = .error e := by
    rw [buildIni, hs]
    rfl
  rw [hbuild]
  constructor
  · exact fun houtcome => houtcome.error e rfl
  · intro hrefusal
    constructor
    · intro e' he
      cases he
      exact hrefusal
    · intro text htext
      cases htext

/-- `build_ini` raises a `ValueError` or returns a valid INI exactly when the fields are fit. -/
theorem buildIni_valid_iff (py : Py) (today : Date) (params : Fields) :
    ValidOutcome (buildIni py today (.obj params)) ↔ FitFields py today params := by
  have hcrash := settings_crash_iff py today params
  have hok := settings_isOk_iff py today params
  rcases hs : settings py today params with e | s
  · rw [validOutcome_of_error hs]
    rw [hs, fails_error, not_not] at hcrash
    constructor
    · intro hrefusal
      refine ⟨hcrash.mp hrefusal, fun _ => ?_⟩
      -- some check has failed, and not only by a crash
      by_contra hnone
      have hpasses : ∀ f, ¬ Refused py today params f ∧ ¬ Crashes today params f := by
        refine fun f => ⟨fun hf => hnone ⟨f, hf⟩, fun hf => ?_⟩
        obtain ⟨pre, post, hsplit⟩ := List.append_of_mem (mem_order f)
        obtain ⟨g, -, hg⟩ := hcrash.mp hrefusal pre f post hsplit hf
        exact hnone ⟨g, hg⟩
      obtain ⟨s, hs'⟩ := hok.mpr hpasses
      rw [hs] at hs'
      cases hs'
    · exact fun hfit => hcrash.mpr hfit.crashes
  · rw [validOutcome_of_settings hs]
    have hpasses := hok.mp ⟨s, hs⟩
    constructor
    · intro hslips
      refine ⟨fun _ f _ _ hf => absurd hf (hpasses f).2, ?_⟩
      rintro ⟨f, hf⟩
      exact absurd hf (hslips f)
    · intro hfit f hf
      obtain ⟨g, hg⟩ := hfit.slips ⟨f, hf⟩
      exact (hpasses g).1 hg

/-- A truth value in the place of a modelling mode. -/
def modellingTrue : Fields := sampleRequest "X" ++ [("modelling".toList, .bool true)]

/-- A truth value is written as `Model=True`. -/
theorem not_buildIni_valid : ¬ ∀ (py : Py) (today : Date) (params : Fields),
    ValidOutcome (buildIni py today (.obj params)) := by
  intro h
  have hok : (settings asciiPy sampleDay modellingTrue).isOk = true := by decide +kernel
  rcases hs : settings asciiPy sampleDay modellingTrue with e | s
  · rw [hs] at hok
    cases hok
  · have hvalid := h asciiPy sampleDay modellingTrue
    rw [validOutcome_of_settings hs] at hvalid
    exact hvalid .modelling ⟨true, rfl⟩

end Backtest.IniBuilder

import Mt5HttpApi.Lib.Dict
import Mt5HttpApi.Lib.PyInt
import Mt5HttpApi.Lib.Utf8

/-!
# What Python reads from JSON text

`json.loads` of CPython: the scanner with its errors, the integers of any size up to the limit on
digits, `NaN` and the infinities, strings with escaped surrogates, and the `RecursionError` of a
text that nests too deep. A float is what `float` makes of its text.

The scanner calls itself with less and less fuel. `scanOnce_fuel` says that `loads` gives it enough.
-/

namespace JsonLoads

open Utf8

/-- A value. The keys of an object are distinct. -/
inductive Value (F : Type)
  | null
  | bool (b : Bool)
  | int (n : ℤ)
  | float (x : F)
  | str (s : List CodePoint)
  | arr (items : List (Value F))
  | obj (fields : List (List CodePoint × Value F))

/-- What is raised: a `ValueError` or a `RecursionError`. -/
inductive Error
  | value
  | recursion
  deriving DecidableEq

/-! ### Strings -/

/-- A code point. -/
def codePoint (n : ℕ) : CodePoint :=
  if h : 0xD800 ≤ n ∧ n < 0xE000 then .surrogate ⟨n - 0xD800, by omega⟩
  else .scalar (Char.ofNat n)

/-- The value of a hexadecimal digit. -/
def hexValue (c : Char) : Option ℕ :=
  if '0' ≤ c ∧ c ≤ '9' then some (c.toNat - 0x30)
  else if 'a' ≤ c ∧ c ≤ 'f' then some (c.toNat - 0x57)
  else if 'A' ≤ c ∧ c ≤ 'F' then some (c.toNat - 0x37)
  else none

/-- The value of four hexadecimal digits. -/
def hexQuad (a b c d : Char) : Option ℕ := do
  let a ← hexValue a
  let b ← hexValue b
  let c ← hexValue c
  let d ← hexValue d
  some (0x1000 * a + 0x100 * b + 0x10 * c + d)

/-- What a letter after a backslash stands for. -/
def escaped (c : Char) : Option Char :=
  if c = '"' ∨ c = '\\' ∨ c = '/' then some c
  else if c = 'b' then some '\x08'
  else if c = 'f' then some '\x0c'
  else if c = 'n' then some '\n'
  else if c = 'r' then some '\r'
  else if c = 't' then some '\t'
  else none

/-- The characters up to the closing quote, and the text after it. -/
def scanPoints : List Char → Option (List CodePoint × List Char)
  | [] => none
  | c :: rest =>
    if c = '"' then some ([], rest)
    else if c = '\\' then
      match rest with
      | [] => none
      | c :: rest =>
        if c = 'u' then
          match rest with
          | x :: y :: z :: w :: rest => do
            let n ← hexQuad x y z w
            let (s, rest) ← scanPoints rest
            some (codePoint n :: s, rest)
          | _ => none
        else do
          let x ← escaped c
          let (s, rest) ← scanPoints rest
          some (.scalar x :: s, rest)
    -- a control character
    else if c.toNat < 0x20 then none
    else do
      let (s, rest) ← scanPoints rest
      some (.scalar c :: s, rest)

/-- The character of two surrogates. -/
def join (high low : ℕ) : Char := Char.ofNat (0x10000 + 0x400 * high + (low - 0x400))

/-- A high surrogate and a low one after it are one character. -/
def joined : List CodePoint → List CodePoint
  | .surrogate high :: .surrogate low :: rest =>
    if high.val < 0x400 ∧ 0x400 ≤ low.val then .scalar (join high low) :: joined rest
    else .surrogate high :: joined (.surrogate low :: rest)
  | x :: rest => x :: joined rest
  | [] => []

/-- A string, after its opening quote. -/
def scanString (text : List Char) : Option (List CodePoint × List Char) :=
  (scanPoints text).map fun r => (joined r.1, r.2)

/-! ### Numbers -/

variable {F : Type} (float : List Char → F)

/-- A point with digits after it, and the rest. -/
def scanFraction (text : List Char) : List Char × List Char :=
  let digits := (text.drop 1).takeWhile Char.isDigit
  if text.head? = some '.' ∧ digits ≠ [] then
    ('.' :: digits, (text.drop 1).dropWhile Char.isDigit)
  else ([], text)

/-- The sign of an exponent. -/
def scanSign (text : List Char) : List Char :=
  if text.head? = some '+' ∨ text.head? = some '-' then text.take 1 else []

/-- An exponent, and the rest. -/
def scanExponent (text : List Char) : List Char × List Char :=
  let sign := scanSign (text.drop 1)
  let digits := ((text.drop 1).drop sign.length).takeWhile Char.isDigit
  if (text.head? = some 'e' ∨ text.head? = some 'E') ∧ digits ≠ [] then
    (text.take 1 ++ sign ++ digits, ((text.drop 1).drop sign.length).dropWhile Char.isDigit)
  else ([], text)

/-- The sign of a number. -/
def scanMinus (text : List Char) : List Char := if text.head? = some '-' then ['-'] else []

/-- The digits before a point: a zero stands alone. -/
def scanWhole (text : List Char) : List Char :=
  if text.head? = some '0' then ['0'] else text.takeWhile Char.isDigit

/-- A number. -/
def scanNumber (text : List Char) : Option (Value F × List Char) :=
  let sign := scanMinus text
  let body := text.drop sign.length
  let whole := scanWhole body
  if whole = [] then none
  else
    let (fraction, rest) := scanFraction (body.drop whole.length)
    let (exponent, rest) := scanExponent rest
    if fraction = [] ∧ exponent = [] then
      -- `int` refuses longer texts
      if whole.length ≤ PyInt.maxDigits then
        let n : ℤ := Nat.ofDigitChars 10 whole 0
        some (.int (if sign = [] then n else -n), rest)
      else none
    else some (.float (float (sign ++ whole ++ fraction ++ exponent)), rest)

/-! ### Values -/

/-- The values with names. -/
def named : List (List Char × Value F) :=
  [("null", .null), ("true", .bool true), ("false", .bool false),
    ("NaN", .float (float "NaN".toList)), ("Infinity", .float (float "Infinity".toList)),
    ("-Infinity", .float (float "-Infinity".toList))].map fun name => (name.1.toList, name.2)

/-- A value that is no string, array or object. -/
def scanPlain (text : List Char) : Option (Value F × List Char) :=
  match (named float).find? fun name => name.1.isPrefixOf text with
  | some name => some (name.2, text.drop name.1.length)
  | none => scanNumber float text

/-- White space of JSON. -/
def isBlank (c : Char) : Bool := c = ' ' || c = '\t' || c = '\n' || c = '\r'

/-- The text after white space. -/
def skip (text : List Char) : List Char := text.dropWhile isBlank

/-- No value is a `ValueError`. -/
def orError {α : Type} : Option α → Except Error α
  | some a => .ok a
  | none => .error .value

/-- The later value of a key is kept, in the place of the first. -/
def fieldsOf (items : List (List CodePoint × Value F)) : List (List CodePoint × Value F) :=
  items.foldl (fun fields item => Dict.set fields item.1 item.2) []

/-- What is after an opening bracket: nothing up to the closing one, or something. -/
def nested {α : Type} (close : Char) (empty : α)
    (inner : List Char → Except Error (α × List Char)) (text : List Char) :
    Except Error (α × List Char) :=
  match skip text with
  | [] => .error .value
  | c :: rest => if c = close then .ok (empty, rest) else inner (c :: rest)

/-- What is after an item: the closing bracket, or a comma and more. -/
def continued {α : Type} (close : Char) (last : α)
    (more : List Char → Except Error (α × List Char)) (text : List Char) :
    Except Error (α × List Char) :=
  match skip text with
  | [] => .error .value
  | c :: rest =>
    if c = close then .ok (last, rest)
    else if c = ',' then more (skip rest)
    else .error .value

/-- The key of a field, and the text after its colon. -/
def scanKey (text : List Char) : Option (List CodePoint × List Char) :=
  if text.head? = some '"' then
    (scanString (text.drop 1)).bind fun r =>
      if (skip r.2).head? = some ':' then some (r.1, skip ((skip r.2).drop 1)) else none
  else none

mutual

/-- A value. `depth` is how deep it may nest. -/
def scanOnce : ℕ → ℕ → List Char → Except Error (Value F × List Char)
  | 0, _, _ => .error .value
  | fuel + 1, depth, text =>
    if text.head? = some '"' then
      (orError (scanString (text.drop 1))).map fun r => (.str r.1, r.2)
    else if text.head? = some '[' then
      match depth with
      | 0 => .error .recursion
      | depth + 1 =>
        (nested ']' [] (fun text => scanItems fuel depth text) (text.drop 1)).map fun r =>
          (.arr r.1, r.2)
    else if text.head? = some '{' then
      match depth with
      | 0 => .error .recursion
      | depth + 1 =>
        (nested '}' [] (fun text => scanFields fuel depth text) (text.drop 1)).map fun r =>
          (.obj (fieldsOf r.1), r.2)
    else orError (scanPlain float text)

/-- The items of an array that has some. -/
def scanItems : ℕ → ℕ → List Char → Except Error (List (Value F) × List Char)
  | 0, _, _ => .error .value
  | fuel + 1, depth, text => do
    let (item, rest) ← scanOnce fuel depth text
    continued ']' [item]
      (fun text => (scanItems fuel depth text).map fun r => (item :: r.1, r.2)) rest

/-- The fields of an object that has some. -/
def scanFields :
    ℕ → ℕ → List Char → Except Error (List (List CodePoint × Value F) × List Char)
  | 0, _, _ => .error .value
  | fuel + 1, depth, text => do
    let (key, rest) ← orError (scanKey text)
    let (item, rest) ← scanOnce fuel depth rest
    continued '}' [(key, item)]
      (fun text => (scanFields fuel depth text).map fun r => ((key, item) :: r.1, r.2)) rest

end

/-- Fuel that is enough for a text. -/
def fuelFor (text : List Char) : ℕ := 2 * text.length + 2

/-- `json.loads`, with what may nest. -/
def loads (depth : ℕ) (text : List Char) : Except Error (Value F) :=
  if text.head? = some '\uFEFF' then .error .value
  else do
    let (value, rest) ← scanOnce float (fuelFor text) depth (skip text)
    if skip rest = [] then .ok value else .error .value

/-- The text of a file that is opened as text: a line may end in any way. -/
def universalNewlines (text : List Char) : List Char :=
  Text.replaceChar '\r' '\n' (Text.replacePair '\r' '\n' ['\n'] text)

/-- `json.load` of a file that is opened as UTF-8. A decoding error is a `ValueError`. -/
def load (depth : ℕ) (bytes : List UInt8) : Except Error (Value F) := do
  let text ← orError (Utf8.decode bytes)
  loads float depth (universalNewlines text)

theorem universalNewlines_of_not_mem {text : List Char} (h : '\r' ∉ text) :
    universalNewlines text = text := by
  rw [universalNewlines, Text.replacePair_of_not_mem h, Text.replaceChar_of_not_mem h]

/-! ### Fuel -/

variable {float} {depth fuel : ℕ} {text rest : List Char}

theorem length_skip_le (text : List Char) : (skip text).length ≤ text.length :=
  (List.dropWhile_sublist isBlank).length_le

theorem length_scanPoints {s : List CodePoint} (h : scanPoints text = some (s, rest)) :
    rest.length < text.length := by
  fun_induction scanPoints text generalizing s rest with
  | case1 => cases h
  | case2 =>
    cases h
    simp
  | case3 => cases h
  | case4 x y z w more _ ih =>
    simp only [Option.bind_eq_bind, Option.bind_eq_some_iff] at h
    obtain ⟨n, -, r, hr, heq⟩ := h
    cases heq
    have hlt := ih hr
    simp only [List.length_cons]
    omega
  | case5 => cases h
  | case6 _ e more _ ih =>
    simp only [Option.bind_eq_bind, Option.bind_eq_some_iff] at h
    obtain ⟨x, -, r, hr, heq⟩ := h
    cases heq
    have hlt := ih hr
    simp only [List.length_cons]
    omega
  | case7 => cases h
  | case8 c more hquote hback hplain ih =>
    simp only [Option.bind_eq_bind, Option.bind_eq_some_iff] at h
    obtain ⟨r, hr, heq⟩ := h
    cases heq
    have hlt := ih hr
    simp only [List.length_cons]
    omega

theorem length_scanString {s : List CodePoint} (h : scanString text = some (s, rest)) :
    rest.length < text.length := by
  obtain ⟨r, hr, heq⟩ := Option.map_eq_some_iff.mp h
  cases heq
  exact length_scanPoints hr

theorem length_scanFraction_le (text : List Char) :
    (scanFraction text).2.length ≤ text.length := by
  rw [scanFraction]
  split
  next =>
    have hle := (List.dropWhile_sublist Char.isDigit (l := text.drop 1)).length_le
    rw [List.length_drop] at hle
    dsimp only
    omega
  next => exact le_rfl

theorem length_scanExponent_le (text : List Char) :
    (scanExponent text).2.length ≤ text.length := by
  rw [scanExponent]
  split
  next =>
    have hle := (List.dropWhile_sublist Char.isDigit
      (l := (text.drop 1).drop (scanSign (text.drop 1)).length)).length_le
    rw [List.length_drop, List.length_drop] at hle
    dsimp only
    omega
  next => exact le_rfl

theorem scanWhole_isPrefix (text : List Char) : scanWhole text <+: text := by
  rw [scanWhole]
  split
  next hzero =>
    obtain ⟨more, rfl⟩ := List.head?_eq_some_iff.mp hzero
    exact ⟨more, rfl⟩
  next => exact List.takeWhile_prefix _

theorem length_scanNumber {v : Value F} (h : scanNumber float text = some (v, rest)) :
    rest.length < text.length := by
  rw [scanNumber] at h
  simp only at h
  split at h
  next => cases h
  next hwhole =>
    have hrest : rest = (scanExponent (scanFraction ((text.drop (scanMinus text).length).drop
        (scanWhole (text.drop (scanMinus text).length)).length)).2).2 := by
      split at h
      next =>
        split at h
        next => exact (Prod.mk.inj (Option.some.inj h)).2.symm
        next => cases h
      next => exact (Prod.mk.inj (Option.some.inj h)).2.symm
    have hpos := List.length_pos_iff.mpr hwhole
    have hle := (scanWhole_isPrefix (text.drop (scanMinus text).length)).length_le
    have hexponent := length_scanExponent_le (scanFraction ((text.drop
      (scanMinus text).length).drop (scanWhole (text.drop (scanMinus text).length)).length)).2
    have hfraction := length_scanFraction_le ((text.drop
      (scanMinus text).length).drop (scanWhole (text.drop (scanMinus text).length)).length)
    rw [← hrest] at hexponent
    rw [List.length_drop, List.length_drop] at hfraction
    rw [List.length_drop] at hle
    omega

theorem length_scanPlain {v : Value F} (h : scanPlain float text = some (v, rest)) :
    rest.length < text.length := by
  rw [scanPlain] at h
  split at h
  next name hname =>
    cases h
    have hpre : name.1.isPrefixOf text = true := by simpa using List.find?_some hname
    have hmem := List.mem_of_find?_eq_some hname
    have hpos : 0 < name.1.length := by
      simp only [named, List.map_cons, List.map_nil, List.mem_cons, List.not_mem_nil,
        or_false] at hmem
      rcases hmem with rfl | rfl | rfl | rfl | rfl | rfl
      all_goals exact Nat.succ_pos _
    have hle := (List.isPrefixOf_iff_prefix.mp hpre).length_le
    rw [List.length_drop]
    omega
  next => exact length_scanNumber h

theorem orError_eq_ok {α : Type} {o : Option α} {a : α} (h : orError o = .ok a) : o = some a := by
  cases o with
  | none => cases h
  | some b => rw [Except.ok.inj h]

theorem orError_some {α : Type} (a : α) : orError (some a) = .ok a := rfl

theorem map_ok {α β : Type} (f : α → β) (a : α) :
    (Except.ok a : Except Error α).map f = .ok (f a) := rfl

theorem map_eq_ok {α β : Type} {f : α → β} {x : Except Error α} {b : β}
    (h : x.map f = .ok b) : ∃ a, x = .ok a ∧ f a = b := by
  cases x with
  | error e => cases h
  | ok a => exact ⟨a, rfl, Except.ok.inj h⟩

theorem bind_eq_ok {α β : Type} {f : α → Except Error β} {x : Except Error α} {b : β}
    (h : x >>= f = .ok b) : ∃ a, x = .ok a ∧ f a = .ok b := by
  cases x with
  | error e => cases h
  | ok a => exact ⟨a, rfl, h⟩

/-- What a scanner leaves is less than what it was given. -/
def Takes {α : Type} (scan : List Char → Except Error (α × List Char)) : Prop :=
  ∀ text r, scan text = .ok r → r.2.length < text.length

theorem Takes.map {α β : Type} {scan : List Char → Except Error (α × List Char)} {f : α → β}
    (h : Takes scan) : Takes fun text => (scan text).map fun r => (f r.1, r.2) := by
  intro text r hr
  obtain ⟨a, ha, rfl⟩ := map_eq_ok hr
  exact h text a ha

theorem Takes.nested {α : Type} {close : Char} {empty : α}
    {inner : List Char → Except Error (α × List Char)} (h : Takes inner) :
    Takes (nested close empty inner) := by
  intro text r hr
  have hle := length_skip_le text
  rw [JsonLoads.nested] at hr
  cases hskip : skip text with
  | nil =>
    simp only [hskip] at hr
    cases hr
  | cons c rest =>
    simp only [hskip] at hr
    rw [hskip] at hle
    split at hr
    next =>
      cases hr
      rw [List.length_cons] at hle
      dsimp only
      omega
    next =>
      have hlt := h _ _ hr
      omega

theorem Takes.continued {α : Type} {close : Char} {last : α}
    {more : List Char → Except Error (α × List Char)} (h : Takes more) :
    Takes (continued close last more) := by
  intro text r hr
  have hle := length_skip_le text
  rw [JsonLoads.continued] at hr
  cases hskip : skip text with
  | nil =>
    simp only [hskip] at hr
    cases hr
  | cons c rest =>
    simp only [hskip] at hr
    rw [hskip, List.length_cons] at hle
    split at hr
    next =>
      cases hr
      dsimp only
      omega
    split at hr
    next =>
      have hlt := h _ _ hr
      have hskip' := length_skip_le rest
      omega
    next => cases hr

theorem length_scanKey {r : List CodePoint × List Char} (h : scanKey text = some r) :
    r.2.length < text.length := by
  rw [scanKey] at h
  split at h
  next =>
    obtain ⟨s, hs, hr⟩ := Option.bind_eq_some_iff.mp h
    split at hr
    next =>
      cases hr
      have hlt := @length_scanString _ s.2 s.1 hs
      have hskip := length_skip_le s.2
      have hskip' := length_skip_le ((skip s.2).drop 1)
      rw [List.length_drop] at hlt hskip'
      dsimp only
      omega
    next => cases hr
  next => cases h

theorem ok_bind {α β : Type} (a : α) (f : α → Except Error β) : (Except.ok a >>= f) = f a := rfl

/-- A value takes some of the text. -/
theorem takes_scan (fuel : ℕ) :
    (∀ depth, Takes (scanOnce float fuel depth)) ∧ (∀ depth, Takes (scanItems float fuel depth)) ∧
      ∀ depth, Takes (scanFields float fuel depth) := by
  -- the three scanners call each other with less fuel
  induction fuel with
  | zero =>
    refine ⟨fun depth text r h => ?_, fun depth text r h => ?_, fun depth text r h => ?_⟩
    · cases h
    · cases h
    · cases h
  | succ fuel ih =>
    obtain ⟨ihOnce, ihItems, ihFields⟩ := ih
    refine ⟨fun depth text r h => ?_, fun depth text r h => ?_, fun depth text r h => ?_⟩
    -- a string, an array, an object or a plain value
    · rw [scanOnce.eq_def] at h
      dsimp only at h
      have hdrop : (text.drop 1).length ≤ text.length := by
        rw [List.length_drop]
        omega
      split at h
      next =>
        obtain ⟨s, hs, rfl⟩ := map_eq_ok h
        have hlt := @length_scanString _ s.2 s.1 (orError_eq_ok hs)
        dsimp only
        omega
      split at h
      next =>
        cases depth with
        | zero => cases h
        | succ depth =>
          obtain ⟨items, hitems, rfl⟩ := map_eq_ok h
          have hlt := (ihItems depth).nested _ _ hitems
          dsimp only
          omega
      split at h
      next =>
        cases depth with
        | zero => cases h
        | succ depth =>
          obtain ⟨fields, hfields, rfl⟩ := map_eq_ok h
          have hlt := (ihFields depth).nested _ _ hfields
          dsimp only
          omega
      next => exact @length_scanPlain _ _ _ r.2 r.1 (orError_eq_ok h)
    · rw [scanItems] at h
      obtain ⟨item, hitem, h⟩ := bind_eq_ok h
      have hlt := ihOnce _ _ _ hitem
      have hless := ((ihItems depth).map (f := fun items => item.1 :: items)).continued _ _ h
      omega
    · rw [scanFields] at h
      obtain ⟨key, hkey, h⟩ := bind_eq_ok h
      have hkeylt := length_scanKey (orError_eq_ok hkey)
      obtain ⟨item, hitem, h⟩ := bind_eq_ok h
      have hlt := ihOnce _ _ _ hitem
      have hless := ((ihFields depth).map
        (f := fun fields => (key.1, item.1) :: fields)).continued _ _ h
      omega

theorem nested_congr {α : Type} {close : Char} {empty : α}
    {inner inner' : List Char → Except Error (α × List Char)}
    (h : ∀ rest, rest.length ≤ text.length → inner rest = inner' rest) :
    nested close empty inner text = nested close empty inner' text := by
  have hle := length_skip_le text
  rw [nested, nested]
  cases hskip : skip text with
  | nil => rfl
  | cons c rest =>
    rw [hskip] at hle
    simp only [h _ hle]

theorem continued_congr {α : Type} {close : Char} {last : α}
    {more more' : List Char → Except Error (α × List Char)}
    (h : ∀ rest, rest.length < text.length → more rest = more' rest) :
    continued close last more text = continued close last more' text := by
  have hle := length_skip_le text
  rw [continued, continued]
  cases hskip : skip text with
  | nil => rfl
  | cons c rest =>
    have hrest := length_skip_le rest
    rw [hskip, List.length_cons] at hle
    simp only [h (skip rest) (by omega)]

/-- More fuel makes no difference. -/
theorem scan_fuel (fuel : ℕ) :
    (∀ depth text, 2 * text.length + 1 ≤ fuel →
      scanOnce float fuel depth text = scanOnce float (fuel + 1) depth text) ∧
    (∀ depth text, 2 * text.length + 2 ≤ fuel →
      scanItems float fuel depth text = scanItems float (fuel + 1) depth text) ∧
    ∀ depth text, 2 * text.length + 2 ≤ fuel →
      scanFields float fuel depth text = scanFields float (fuel + 1) depth text := by
  induction fuel with
  | zero =>
    refine ⟨fun depth text h => ?_, fun depth text h => ?_, fun depth text h => ?_⟩
    · omega
    · omega
    · omega
  | succ fuel ih =>
    obtain ⟨ihOnce, ihItems, ihFields⟩ := ih
    refine ⟨fun depth text h => ?_, fun depth text h => ?_, fun depth text h => ?_⟩
    · rw [scanOnce.eq_def, scanOnce.eq_def float (fuel + 1 + 1)]
      dsimp only
      -- what is after an opening bracket is shorter
      have hinner : ∀ c, text.head? = some c → ∀ rest : List Char,
          rest.length ≤ (text.drop 1).length → 2 * rest.length + 2 ≤ fuel := by
        intro c hc rest hrest
        obtain ⟨more, rfl⟩ := List.head?_eq_some_iff.mp hc
        rw [List.drop_one, List.tail_cons] at hrest
        rw [List.length_cons] at h
        omega
      split
      next => rfl
      split
      next hopen =>
        cases depth with
        | zero => rfl
        | succ depth =>
          dsimp only
          rw [nested_congr fun rest hrest => ihItems depth rest (hinner _ hopen rest hrest)]
      split
      next hopen =>
        cases depth with
        | zero => rfl
        | succ depth =>
          dsimp only
          rw [nested_congr fun rest hrest => ihFields depth rest (hinner _ hopen rest hrest)]
      next => rfl
    · rw [scanItems, scanItems, ← ihOnce depth text (by omega)]
      cases hitem : scanOnce float fuel depth text with
      | error e => rfl
      | ok item =>
        have hlt := (takes_scan fuel).1 depth text item hitem
        rw [ok_bind, ok_bind]
        refine continued_congr fun rest hrest => ?_
        rw [ihItems depth rest (by omega)]
    · rw [scanFields, scanFields]
      cases hkey : scanKey text with
      | none => rfl
      | some key =>
        have hkeylt := length_scanKey hkey
        show (scanOnce float fuel depth key.2 >>= _) = (scanOnce float (fuel + 1) depth key.2 >>= _)
        rw [← ihOnce depth key.2 (by omega)]
        cases hitem : scanOnce float fuel depth key.2 with
        | error e => rfl
        | ok item =>
          have hlt := (takes_scan fuel).1 depth key.2 item hitem
          rw [ok_bind, ok_bind]
          refine continued_congr fun rest hrest => ?_
          rw [ihFields depth rest (by omega)]

/-- The fuel of `loads` is enough. -/
theorem scanOnce_fuel (h : fuelFor text ≤ fuel) :
    scanOnce float fuel depth text = scanOnce float (fuelFor text) depth text := by
  induction h with
  | refl => rfl
  | step hle ih =>
    have henough : 2 * text.length + 2 ≤ _ := hle
    rw [← (scan_fuel _).1 depth text (by omega), ih]

end JsonLoads

import Mt5HttpApi.Lib.JsonText
import Mt5HttpApi.Lib.Text

/-!
# The loader's reader

How the loader reads `desired.json`: `readFile` takes the lines of the file together, `jsonStr` and
`jsonNum` look a key up by the first place where it stands in quotes, and `extractDeployments` cuts
the array into objects by counting braces.

`jsonStr_tokens` and its variants say what is found in text that is made of strings
(`JsonText.render`), and `scan_object` what the scan does on an object whose braces nest.
-/

namespace ChartCtl

open JsonText

/-- How the terminal reads bytes as characters: an 8-bit or a multi-byte code page in which the
bytes of ASCII are its characters. -/
structure CodePage where
  decode : List UInt8 → List Char
  decode_ascii : ∀ text : List Char, (∀ c ∈ text, c.toNat < 0x80) →
    decode (text.map Char.toUInt8) = text

/-- `StringToInteger`, which reads the decimals of a `long`. -/
structure Numerals where
  stringToInteger : List Char → Int
  decimal : ∀ n < 2 ^ 63, stringToInteger (Nat.toDigits 10 n) = n

/-- One desired deployment. -/
structure ChartCtlDeployment where
  id : List Char
  expert : List Char
  templ : List Char
  symbol : List Char
  timeframe : List Char
  enabled : Bool
  deriving DecidableEq

/-- `ReadFile` of an open file: its lines, without their line ends, one after the other. -/
def readFile (page : CodePage) (file : List UInt8) : List Char :=
  Text.replacePair '\r' '\n' [] (page.decode file)

/-- The text after the colon after the first occurrence of a key in quotes. -/
def findValue (key json : List Char) : Option (List Char) :=
  (after ('"' :: (key ++ ['"'])) json).bind (after [':'])

/-- `JsonStr`. -/
def jsonStr (key dflt json : List Char) : List Char :=
  match (findValue key json).bind (after ['"']) with
  | some text => unescape text
  | none => dflt

/-- A character that `JsonNum` takes. -/
def numeral (c : Char) : Bool := ('0' ≤ c && c ≤ '9') || c == '-'

theorem numeral_of_isDigit {c : Char} (h : c.isDigit = true) : numeral c = true := by
  simp only [Char.isDigit, Bool.and_eq_true, decide_eq_true_eq] at h
  simp only [numeral, Bool.or_eq_true, Bool.and_eq_true, decide_eq_true_eq]
  exact Or.inl h

/-- `JsonNum`. -/
def jsonNum (numerals : Numerals) (key json : List Char) : Int :=
  match findValue key json with
  | some text =>
    numerals.stringToInteger ((text.dropWhile fun c => !numeral c).takeWhile numeral)
  | none => 0

/-- A deployment from the text of its object. -/
def readDeployment (obj : List Char) : ChartCtlDeployment where
  id := jsonStr "id".toList [] obj
  expert := jsonStr "expert".toList [] obj
  templ := jsonStr "template".toList [] obj
  symbol := jsonStr "symbol".toList [] obj
  timeframe := jsonStr "timeframe".toList [] obj
  enabled := !contains "\"enabled\": false".toList obj && !contains "\"enabled\":false".toList obj

/-- What the loop of `ExtractDeployments` carries: the depth of braces, the text since `obj_start`
when there is one, and the deployments found. -/
structure Scan where
  depth : Int
  obj : Option (List Char)
  out : List ChartCtlDeployment

/-- A deployment without an id is left out. -/
def found (obj : List Char) (out : List ChartCtlDeployment) : List ChartCtlDeployment :=
  if (readDeployment obj).id ≠ [] then out ++ [readDeployment obj] else out

/-- The loop of `ExtractDeployments`. -/
def scan : Scan → List Char → List ChartCtlDeployment
  | s, [] => s.out
  | s, c :: text =>
    let obj := s.obj.map (· ++ [c])
    if c = '{' then
      scan { s with depth := s.depth + 1, obj := if s.depth = 0 then some [c] else obj } text
    else if c = '}' then
      match obj with
      | some text' =>
        if s.depth - 1 = 0 then
          scan { depth := s.depth - 1, obj := none, out := found text' s.out } text
        else scan { s with depth := s.depth - 1, obj := some text' } text
      | none => scan { s with depth := s.depth - 1, obj := none } text
    else if c = ']' ∧ s.depth = 0 then s.out
    else scan { s with obj := obj } text

/-- `ExtractDeployments`: `none` where it returns `false`. The scan starts at the bracket. -/
def extractDeployments (json : List Char) : Option (List ChartCtlDeployment) :=
  ((after "\"deployments\"".toList json).bind (after ['['])).map fun text =>
    scan ⟨0, none, []⟩ ('[' :: text)

/-! ## Looking a key up -/

variable {key v gap stop rest : List Char} {pre more : List Token}

/-- The value after a colon, once the key is found. -/
theorem jsonStr_of_after {json : List Char} (dflt : List Char)
    (h : after ('"' :: (key ++ ['"'])) json = some (gap ++ (": ".toList ++ (quote v ++ rest))))
    (hgap : ':' ∉ gap) (hv : ∀ c ∈ v, printable c = true) : jsonStr key dflt json = v := by
  have hcolon : after [':'] (gap ++ (": ".toList ++ (quote v ++ rest))) =
      some (" ".toList ++ (quote v ++ rest)) := after_singleton hgap _
  have hquote : after ['"'] (" ".toList ++ (quote v ++ rest)) =
      some (escape v ++ '"' :: rest) := by
    have htext : quote v ++ rest = '"' :: (escape v ++ '"' :: rest) := by simp [quote]
    rw [htext]
    exact after_singleton (by decide) _
  have hfind : (findValue key json).bind (after ['"']) = some (escape v ++ '"' :: rest) := by
    rw [findValue, h, Option.bind_some, hcolon, Option.bind_some, hquote]
  simp only [jsonStr, hfind]
  exact unescape_escape hv rest

/-- A string under its key, when nothing before it is found. -/
theorem jsonStr_tokens (dflt : List Char) (hkey : ∀ c ∈ key, plain c = true) (hgap : '"' ∉ gap)
    (hapart : ∀ t ∈ pre, Apart key t.gap) (hmiss : ∀ t ∈ pre, ¬ Hits key t.str)
    (hcolon : ':' ∉ key) (hv : ∀ c ∈ v, printable c = true) :
    jsonStr key dflt (gap ++ (render (pre ++ ⟨key, ": ".toList⟩ :: ⟨v, stop⟩ :: more) ++ rest)) =
      v := by
  have htext : render (pre ++ ⟨key, ": ".toList⟩ :: ⟨v, stop⟩ :: more) ++ rest =
      render pre ++ (quote key ++ (": ".toList ++ (quote v ++ (stop ++ render more ++ rest)))) := by
    simp only [render_append, render_cons, List.append_assoc]
  have hafter : after ('"' :: (key ++ ['"']))
      (gap ++ (render (pre ++ ⟨key, ": ".toList⟩ :: ⟨v, stop⟩ :: more) ++ rest)) =
      some ([] ++ (": ".toList ++ (quote v ++ (stop ++ render more ++ rest)))) := by
    rw [after_append hgap, htext]
    exact after_tokens_of_hit (t := ⟨key, ": ".toList⟩) hkey hapart hmiss
      ⟨show '"' ∉ ": ".toList by decide, ':', [' '], rfl, hcolon⟩ (Or.inl rfl)
  exact jsonStr_of_after dflt hafter (by simp) hv

/-- A string under its key, when a string right before the key may be found in its place: the next
colon is the same. -/
theorem jsonStr_tokens_of_before (dflt : List Char) {t : Token}
    (hkey : ∀ c ∈ key, plain c = true) (hgap : '"' ∉ gap)
    (hapart : ∀ u ∈ pre, Apart key u.gap) (hmiss : ∀ u ∈ pre, ¬ Hits key u.str)
    (ht : Apart key t.gap) (htcolon : ':' ∉ t.gap)
    (hcolon : ':' ∉ key) (hv : ∀ c ∈ v, printable c = true) :
    jsonStr key dflt (gap ++
      (render (pre ++ t :: ⟨key, ": ".toList⟩ :: ⟨v, stop⟩ :: more) ++ rest)) = v := by
  by_cases hhit : Hits key t.str
  · have htext : render (pre ++ t :: ⟨key, ": ".toList⟩ :: ⟨v, stop⟩ :: more) ++ rest =
        render pre ++ (quote t.str ++ (t.gap ++ (quote key ++ (": ".toList ++
          (quote v ++ (stop ++ render more ++ rest)))))) := by
      simp only [render_append, render_cons, List.append_assoc]
    have hafter : after ('"' :: (key ++ ['"'])) (gap ++
        (render (pre ++ t :: ⟨key, ": ".toList⟩ :: ⟨v, stop⟩ :: more) ++ rest)) =
        some ((t.gap ++ quote key) ++ (": ".toList ++
          (quote v ++ (stop ++ render more ++ rest)))) := by
      rw [after_append hgap, htext, after_tokens_of_hit hkey hapart hmiss ht hhit,
        List.append_assoc t.gap]
    refine jsonStr_of_after dflt hafter ?_ hv
    -- neither the gap nor the key has a colon
    rw [List.mem_append, quote, escape_of_plain hkey]
    simp [htcolon, hcolon]
  · have hpre : pre ++ t :: ⟨key, ": ".toList⟩ :: ⟨v, stop⟩ :: more =
        (pre ++ [t]) ++ ⟨key, ": ".toList⟩ :: ⟨v, stop⟩ :: more := by
      simp
    rw [hpre]
    refine jsonStr_tokens dflt hkey hgap ?_ ?_ hcolon hv
    · intro u hu
      rcases List.mem_append.mp hu with hu | hu
      · exact hapart u hu
      · rwa [List.mem_singleton.mp hu]
    · intro u hu
      rcases List.mem_append.mp hu with hu | hu
      · exact hmiss u hu
      · rwa [List.mem_singleton.mp hu]

/-- A number after a colon, once the key is found. -/
theorem jsonNum_of_after (numerals : Numerals) {json : List Char} {n : Nat} {c : Char}
    (hn : n < 2 ^ 63) (hc : numeral c = false)
    (h : after ('"' :: (key ++ ['"'])) json =
      some (": ".toList ++ (Nat.toDigits 10 n ++ c :: rest))) :
    jsonNum numerals key json = n := by
  have hdigits : ∀ d ∈ Nat.toDigits 10 n, numeral d = true := by
    intro d hd
    exact numeral_of_isDigit (Nat.isDigit_of_mem_toDigits (by decide) (by decide) hd)
  have hfind : findValue key json = some (' ' :: (Nat.toDigits 10 n ++ c :: rest)) := by
    rw [findValue, h, Option.bind_some]
    exact after_singleton List.not_mem_nil _
  have hdrop : (' ' :: (Nat.toDigits 10 n ++ c :: rest)).dropWhile (fun c => !numeral c) =
      Nat.toDigits 10 n ++ c :: rest := by
    obtain ⟨d, more, hd⟩ := List.exists_cons_of_ne_nil (Nat.toDigits_ne_nil (n := n) (b := 10))
    rw [hd] at hdigits ⊢
    have hfirst : numeral d = true := hdigits d List.mem_cons_self
    rw [List.dropWhile_cons_of_pos (by decide), List.cons_append,
      List.dropWhile_cons_of_neg (by simp [hfirst])]
  have htake : (Nat.toDigits 10 n ++ c :: rest).takeWhile numeral = Nat.toDigits 10 n := by
    rw [List.takeWhile_append_of_pos hdigits, List.takeWhile_cons_of_neg (by simp [hc]),
      List.append_nil]
  simp only [jsonNum, hfind, hdrop, htake, numerals.decimal n hn]

/-! ## Cutting the array into objects -/

variable {d e : Nat} {obj text : List Char} {out : List ChartCtlDeployment}

/-- A brace that opens within an object. -/
theorem scan_open :
    scan ⟨d + 1, some obj, out⟩ ('{' :: rest) =
      scan ⟨(d + 1 : Nat) + 1, some (obj ++ ['{']), out⟩ rest := by
  have hdepth : (d : Int) + 1 ≠ 0 := by omega
  simp [scan, hdepth]

/-- A brace that closes within an object, but not the object. -/
theorem scan_close :
    scan ⟨(d + 1 : Nat) + 1, some obj, out⟩ ('}' :: rest) =
      scan ⟨d + 1, some (obj ++ ['}']), out⟩ rest := by
  have hdepth : ((d + 1 : Nat) : Int) + 1 - 1 = d + 1 := by omega
  have hne : (d : Int) + 1 ≠ 0 := by omega
  simp only [scan, Option.map_some, hdepth, hne, if_false, if_true]
  rfl

/-- Another character within an object. -/
theorem scan_other {c : Char} (hopen : c ≠ '{') (hclose : c ≠ '}') :
    scan ⟨d + 1, some obj, out⟩ (c :: rest) = scan ⟨d + 1, some (obj ++ [c]), out⟩ rest := by
  have hdepth : (d : Int) + 1 ≠ 0 := by omega
  simp [scan, hopen, hclose, hdepth]

/-- Within an object the scan collects text and follows its braces. -/
theorem scan_nests (h : nests d text = some e) :
    scan ⟨d + 1, some obj, out⟩ (text ++ rest) = scan ⟨e + 1, some (obj ++ text), out⟩ rest := by
  induction text generalizing d obj with
  | nil =>
    obtain rfl : d = e := Option.some.inj h
    simp
  | cons c text ih =>
    have hassoc : obj ++ c :: text = obj ++ [c] ++ text := by simp
    rw [List.cons_append, hassoc]
    rw [nests] at h
    split at h
    next hopen =>
      rw [hopen, scan_open]
      exact ih h
    next hopen =>
      split at h
      next hclose =>
        cases d with
        | zero => cases h
        | succ d =>
          rw [hclose, scan_close]
          exact ih h
      next hclose =>
        rw [scan_other hopen hclose]
        exact ih h

/-- An object whose braces nest is read. -/
theorem scan_object (out : List ChartCtlDeployment) (rest : List Char) {body : List Char}
    (h : nests 0 body = some 0) :
    scan ⟨0, none, out⟩ ('{' :: body ++ '}' :: rest) =
      scan ⟨0, none, found ('{' :: body ++ ['}']) out⟩ rest := by
  have hopen : scan ⟨0, none, out⟩ ('{' :: body ++ '}' :: rest) =
      scan ⟨(0 : Nat) + 1, some ['{'], out⟩ (body ++ '}' :: rest) := by
    simp [scan]
  have hclose : scan ⟨(0 : Nat) + 1, some (['{'] ++ body), out⟩ ('}' :: rest) =
      scan ⟨0, none, found (['{'] ++ body ++ ['}']) out⟩ rest := by
    simp [scan]
  rw [hopen, scan_nests h, hclose]
  rfl

/-- Between objects the scan passes over what is neither a brace nor a bracket. -/
theorem scan_gap (gap : List Char) (hgap : ∀ c ∈ gap, c ≠ '{' ∧ c ≠ '}' ∧ c ≠ ']') :
    scan ⟨0, none, out⟩ (gap ++ rest) = scan ⟨0, none, out⟩ rest := by
  induction gap with
  | nil => rfl
  | cons c gap ih =>
    obtain ⟨hopen, hclose, hbracket⟩ := hgap c List.mem_cons_self
    have hnext := ih fun d hd => hgap d (List.mem_cons_of_mem c hd)
    simp [scan, hopen, hclose, hbracket, hnext]

end ChartCtl

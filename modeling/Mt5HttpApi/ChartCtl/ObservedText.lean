import Mt5HttpApi.ChartCtl.Converged
import Mt5HttpApi.Lib.AnsiText
import Mt5HttpApi.Lib.JsonTree

/-!
# The text of observed.json

`WriteObserved` of the loader puts the text together with an escaper of four rules and writes it
through the code page of the system; `read_observed` of `mt5api/chartctl/registry.py` decodes it as
UTF-8 and parses it strictly.

What is read are the charts, the deployments and the errors that were written exactly when their
strings are of ASCII and have no control character other than a line break, and the name of the
loader's program has none either and is UTF-8 in the code page: `reaches_iff`.
-/

namespace ChartCtl

open JsonLoads Utf8

/-! ### What is written -/

/-- `StringReplace` of a character. -/
def stringReplace (c : Char) (text s : List Char) : List Char :=
  s.flatMap fun d => if d = c then text else [d]

/-- `JsonEscape`. -/
def jsonEscape (s : List Char) : List Char :=
  stringReplace '\r' [' '] (stringReplace '\n' [' ']
    (stringReplace '"' ['\\', '"'] (stringReplace '\\' ['\\', '\\'] s)))

/-- A date with its time. -/
structure Datetime where
  year : ℕ
  month : ℕ
  day : ℕ
  hour : ℕ
  minute : ℕ
  second : ℕ

/-- Two digits. -/
def twoDigits (n : ℕ) : List Char :=
  if n < 10 then '0' :: Nat.toDigits 10 n else Nat.toDigits 10 n

/-- `TimeToString` with `TIME_DATE` and `TIME_SECONDS`. -/
def timeToString (t : Datetime) : List Char :=
  Nat.toDigits 10 t.year ++ '.' :: twoDigits t.month ++ '.' :: twoDigits t.day ++
    ' ' :: twoDigits t.hour ++ ':' :: twoDigits t.minute ++ ':' :: twoDigits t.second

/-- An entry of `m_err_ids`, `m_err_codes` and `m_err_details`. -/
structure Failure where
  id : List Char
  code : List Char
  detail : List Char

/-- What `WriteObserved` is given, and what it asks the terminal for. Its numbers are of type
`long`. -/
structure Inventory where
  programName : List Char
  now : Datetime
  appliedRevision : ℤ
  tradeAllowed : Bool
  desired : List ChartCtlDeployment
  charts : List ChartCtlChart
  errors : List Failure
  revision_long : -2 ^ 63 ≤ appliedRevision ∧ appliedRevision < 2 ^ 63
  charts_long : ∀ c ∈ charts, c.chartId < 2 ^ 63

/-- An entry of `charts`. -/
def ChartCtlChart.tree (c : ChartCtlChart) : Tree :=
  .obj [("chart_id".toList, .int c.chartId), ("symbol".toList, .str c.symbol),
    ("timeframe".toList, .str c.timeframe), ("expert".toList, .str c.expert),
    ("expert_enabled".toList, .bool c.expertEnabled),
    ("deployment_id".toList, .str c.deploymentId)]

/-- A status, as it is written. -/
def Status.text : Status → List Char
  | .pending => "pending".toList
  | .running => "running".toList
  | .degraded => "degraded".toList
  | .failed => "failed".toList
  | .paused => "paused".toList

/-- An entry of `deployments`. -/
def ChartCtlDeployment.tree (charts : List ChartCtlChart) (dep : ChartCtlDeployment) : Tree :=
  .obj ([("id".toList, .str dep.id), ("status".toList, .lit (observedStatus charts dep).text)] ++
    ((findChartFor dep.id charts).map fun c => ("chart_id".toList, Tree.int c.chartId)).toList)

/-- An entry of `errors`. -/
def Failure.tree (e : Failure) : Tree :=
  .obj [("id".toList, .str e.id), ("status".toList, .lit "failed".toList),
    ("code".toList, .str e.code), ("detail".toList, .str e.detail)]

namespace Inventory

variable (x : Inventory)

def loaderTree : Tree :=
  .obj [("name".toList, .str x.programName), ("version".toList, .lit "1.0.5".toList),
    ("last_loop".toList, .lit (timeToString x.now)),
    ("applied_revision".toList, .int x.appliedRevision)]

def chartsTree : Tree := .arr (x.charts.map ChartCtlChart.tree)

def deploymentsTree : Tree := .arr (x.desired.map (ChartCtlDeployment.tree x.charts))

def errorsTree : Tree := .arr (x.errors.map Failure.tree)

/-- What is written. -/
def tree : Tree :=
  .obj [("protocol".toList, .int 1), ("loader".toList, x.loaderTree),
    ("terminal".toList, .obj [("auto_trading".toList, .bool x.tradeAllowed)]),
    ("charts".toList, x.chartsTree), ("deployments".toList, x.deploymentsTree),
    ("errors".toList, x.errorsTree)]

/-- The text that `WriteObserved` puts together. -/
def text : List Char := x.tree.text jsonEscape

/-- The file that `WriteFileAtomic` writes through the code page. -/
def file (page : AnsiPage) : List UInt8 := page.bytes x.text

end Inventory

/-! ### What is read -/

/-- `read_observed`: what it returns for the content, or a `RecursionError`, which it does not
catch. The parser nests at least three deep. -/
def readObserved (depth : ℕ) (file : List UInt8) :
    Except JsonLoads.Error (Option (Value (List Char))) :=
  match load id (depth + 3) file with
  | .ok observed => .ok (some observed)
  | .error .value => .ok none
  | .error .recursion => .error .recursion

/-- A string, with spaces for its line breaks. -/
def spaced (s : List Char) : List Char := s.map fun c => if c = '\n' ∨ c = '\r' then ' ' else c

/-- A string as Python has it. -/
def asWritten (s : List Char) : List CodePoint := (spaced s).map .scalar

/-- The field of an object that was read. -/
def fieldOf (fields : List (List CodePoint × Value (List Char))) (key : String) :
    Option (Value (List Char)) :=
  Dict.get fields (ofString key)

/-- The charts, the deployments and the errors that are read are those that were written. -/
def Reaches (page : AnsiPage) (depth : ℕ) (x : Inventory) : Prop :=
  ∃ fields, readObserved depth (x.file page) = .ok (some (.obj fields)) ∧
    fieldOf fields "charts" = some (x.chartsTree.value asWritten) ∧
    fieldOf fields "deployments" = some (x.deploymentsTree.value asWritten) ∧
    fieldOf fields "errors" = some (x.errorsTree.value asWritten)

/-- No control character but line breaks. -/
def Uncontrolled (s : List Char) : Prop := ∀ c ∈ s, 0x20 ≤ c.toNat ∨ c = '\n' ∨ c = '\r'

/-- Text of ASCII without them. -/
def Clean (s : List Char) : Prop := (∀ c ∈ s, c.toNat < 0x80) ∧ Uncontrolled s

instance : DecidablePred Uncontrolled := fun s => List.decidableBAll _ s

instance : DecidablePred Clean := fun s =>
  inferInstanceAs (Decidable ((∀ c ∈ s, c.toNat < 0x80) ∧ Uncontrolled s))

/-- When what is written is what is read. -/
structure ComesThrough (page : AnsiPage) (x : Inventory) : Prop where
  charts : ∀ c ∈ x.charts, Clean c.symbol ∧ Clean c.timeframe ∧ Clean c.expert ∧
    Clean c.deploymentId
  deployments : ∀ dep ∈ x.desired, Clean dep.id
  errors : ∀ e ∈ x.errors, Clean e.id ∧ Clean e.code ∧ Clean e.detail
  programName : Uncontrolled x.programName ∧ (decode (page.bytes x.programName)).isSome = true

/-! ### The escaper -/

/-- What `JsonEscape` writes for a character. -/
def escapeOne (c : Char) : List Char :=
  if c = '\\' then ['\\', '\\']
  else if c = '"' then ['\\', '"']
  else if c = '\n' ∨ c = '\r' then [' ']
  else [c]

/-- The characters that it changes. -/
def special (c : Char) : Bool := c = '\\' ∨ c = '"' ∨ c = '\n' ∨ c = '\r'

theorem jsonEscape_eq (s : List Char) : jsonEscape s = s.flatMap escapeOne := by
  have hone : ∀ c, jsonEscape [c] = escapeOne c := by
    intro c
    by_cases hback : c = '\\'
    · rw [hback]
      decide
    by_cases hquote : c = '"'
    · rw [hquote]
      decide
    by_cases hnewline : c = '\n'
    · rw [hnewline]
      decide
    by_cases hreturn : c = '\r'
    · rw [hreturn]
      decide
    simp [jsonEscape, stringReplace, escapeOne, hback, hquote, hnewline, hreturn]
  induction s with
  | nil => rfl
  | cons c s ih =>
    have happend : jsonEscape (c :: s) = jsonEscape [c] ++ jsonEscape s := by
      simp only [jsonEscape, stringReplace, List.flatMap_cons, List.flatMap_append,
        List.flatMap_nil, List.append_nil]
    rw [happend, hone, ih, List.flatMap_cons]

theorem jsonEscape_append (s s' : List Char) :
    jsonEscape (s ++ s') = jsonEscape s ++ jsonEscape s' := by
  rw [jsonEscape_eq, jsonEscape_eq, jsonEscape_eq, List.flatMap_append]

theorem jsonEscape_cons (c : Char) (s : List Char) :
    jsonEscape (c :: s) = escapeOne c ++ jsonEscape s := by
  rw [jsonEscape_eq, jsonEscape_eq, List.flatMap_cons]

theorem escapeOne_of_not {c : Char} (h : special c = false) : escapeOne c = [c] := by
  simp only [special, decide_eq_false_iff_not, not_or] at h
  rw [escapeOne, if_neg h.1, if_neg h.2.1, if_neg (not_or.mpr h.2.2)]

theorem jsonEscape_of_not {s : List Char} (h : ∀ c ∈ s, special c = false) : jsonEscape s = s := by
  induction s with
  | nil => rfl
  | cons c s ih =>
    rw [jsonEscape_cons, escapeOne_of_not (h c List.mem_cons_self),
      ih fun d hd => h d (List.mem_cons_of_mem _ hd), List.singleton_append]

/-- The string that an escaped one is read as. -/
def body (s : List Char) : Option (List CodePoint) :=
  if Uncontrolled s then some (asWritten s) else none

theorem readsBody_jsonEscape (s : List Char) : ReadsBody (jsonEscape s) (body s) := by
  induction s with
  | nil => exact readsBody_nil
  | cons c s ih =>
    have huncontrolled : Uncontrolled (c :: s) ↔
        (0x20 ≤ c.toNat ∨ c = '\n' ∨ c = '\r') ∧ Uncontrolled s := List.forall_mem_cons
    have hbody : ∀ d : Char, (0x20 ≤ c.toNat ∨ c = '\n' ∨ c = '\r') →
        (if c = '\n' ∨ c = '\r' then ' ' else c) = d →
        (body s).map (.scalar d :: ·) = body (c :: s) := by
      rintro d hc rfl
      rw [body, body]
      by_cases hs : Uncontrolled s
      · rw [if_pos hs, if_pos (huncontrolled.mpr ⟨hc, hs⟩)]
        rfl
      · rw [if_neg hs, if_neg fun h => hs (huncontrolled.mp h).2]
        rfl
    rw [jsonEscape_cons, escapeOne]
    split_ifs with hback hquote hbreak
    · rw [← hbody '\\' (by rw [hback]; decide) (by rw [hback]; decide)]
      exact ih.escape (by decide) rfl
    · rw [← hbody '"' (by rw [hquote]; decide) (by rw [hquote]; decide)]
      exact ih.escape (by decide) rfl
    · rw [← hbody ' ' (Or.inr hbreak) (if_pos hbreak)]
      exact ih.cons (by decide) (by decide)
    · have hcons := ih.cons hquote hback
      by_cases hc : c.toNat < 0x20
      · have hcontrol : ¬ Uncontrolled (c :: s) := fun h =>
          (huncontrolled.mp h).1.elim (by omega) hbreak
        rw [if_pos hc] at hcons
        rw [body, if_neg hcontrol]
        exact hcons
      · rw [if_neg hc, hbody c (Or.inl (by omega)) (if_neg hbreak)] at hcons
        exact hcons

/-! ### Through the code page -/

section Page

variable {page : AnsiPage} {s text : List Char}

theorem toNat_toUInt8 {c : Char} (h : c.toNat < 0x80) : c.toUInt8.toNat = c.toNat :=
  Nat.mod_eq_of_lt (Nat.lt_trans h (by decide))

/-- A character that JSON escapes is read where it was written, and nowhere else. -/
theorem mem_iff_of_bytes (h : page.bytes s = Utf8.encode text) {c : Char} (hc : c.toNat < 0x80)
    (hplain : JsonText.plain c = false) : c ∈ text ↔ c ∈ s := by
  have hbyte := toNat_toUInt8 hc
  have hmem : c.toUInt8 ∈ page.bytes s ↔ c.toUInt8 ∈ Utf8.encode text := by rw [h]
  constructor
  · intro hmem'
    have hin : c.toUInt8 ∈ Utf8.encode text :=
      List.mem_flatMap.mpr ⟨c, hmem', by rw [utf8EncodeChar_ascii hc]; simp⟩
    obtain ⟨d, hd, hb⟩ := List.mem_flatMap.mp (hmem.mpr hin)
    by_cases hascii : d.toNat < 0x80
    · rw [page.ascii d hascii, List.mem_singleton] at hb
      have heq : c = d := Char.toNat_inj.mp (by rw [← hbyte, hb, toNat_toUInt8 hascii])
      rwa [heq]
    · rcases page.other d (by omega) _ hb with hlarge | hp
      · omega
      · rw [hbyte, Char.ofNat_toNat, hplain] at hp
        cases hp
  · intro hmem'
    have hin : c.toUInt8 ∈ page.bytes s :=
      List.mem_flatMap.mpr ⟨c, hmem', by rw [page.ascii c hc]; simp⟩
    obtain ⟨d, hd, hb⟩ := List.mem_flatMap.mp (hmem.mp hin)
    have heq : d = c := Char.toNat_inj.mp ((eq_of_mem_utf8EncodeChar hb (by omega)).2.trans hbyte)
    rwa [← heq]

theorem special_spec {c : Char} (h : special c = true) :
    c.toNat < 0x80 ∧ JsonText.plain c = false := by
  simp only [special, decide_eq_true_eq] at h
  rcases h with rfl | rfl | rfl | rfl
  all_goals decide

/-- An escaped string is read as what the string is read as, escaped. -/
theorem matches_jsonEscape (h : page.bytes s = Utf8.encode text) :
    page.bytes (jsonEscape s) = Utf8.encode (jsonEscape text) := by
  induction s using Text.sepInduction (p := special) generalizing text with
  | last piece hpiece =>
    have htext : ∀ c ∈ text, special c = false := by
      intro c hc
      by_contra hspecial
      rw [Bool.not_eq_false] at hspecial
      obtain ⟨hascii, hplain⟩ := special_spec hspecial
      rw [hpiece c ((mem_iff_of_bytes h hascii hplain).mp hc)] at hspecial
      cases hspecial
    rw [jsonEscape_of_not hpiece, jsonEscape_of_not htext, h]
  | before piece sep rest hpiece hsep ih =>
    obtain ⟨hascii, -⟩ := special_spec hsep
    have hbyte := toNat_toUInt8 hascii
    have hsplit : page.bytes (piece ++ sep :: rest) =
        page.bytes piece ++ sep.toUInt8 :: page.bytes rest := by
      rw [AnsiPage.bytes, List.flatMap_append, List.flatMap_cons, page.ascii sep hascii]
      rfl
    rw [hsplit] at h
    -- the byte cuts what is read as well
    obtain ⟨x, c, y, rfl, hx, hc, hy⟩ := encode_eq_append_cons (by omega) h.symm
    obtain rfl : c = sep := Char.toNat_inj.mp (hc.trans hbyte)
    have hxs : ∀ d ∈ x, special d = false := by
      intro d hd
      by_contra hspecial
      rw [Bool.not_eq_false] at hspecial
      obtain ⟨hdascii, hplain⟩ := special_spec hspecial
      rw [hpiece d ((mem_iff_of_bytes hx hdascii hplain).mp hd)] at hspecial
      cases hspecial
    have hone : page.bytes (escapeOne c) = Utf8.encode (escapeOne c) := by
      apply AnsiPage.bytes_ascii
      simp only [special, decide_eq_true_eq] at hsep
      rcases hsep with rfl | rfl | rfl | rfl
      all_goals decide
    rw [jsonEscape_append, jsonEscape_append, jsonEscape_cons, jsonEscape_cons,
      jsonEscape_of_not hpiece, jsonEscape_of_not hxs, AnsiPage.bytes, List.flatMap_append,
      List.flatMap_append, Utf8.encode, List.flatMap_append, List.flatMap_append]
    exact congrArg₂ _ hx (congrArg₂ _ hone (ih hy))

/-- Control characters are read as well. -/
theorem uncontrolled_iff (h : page.bytes s = Utf8.encode text) :
    Uncontrolled text ↔ Uncontrolled s := by
  have hcontrol : ∀ c : Char, ¬ (0x20 ≤ c.toNat ∨ c = '\n' ∨ c = '\r') → (c ∈ text ↔ c ∈ s) := by
    intro c hc
    rw [not_or] at hc
    refine mem_iff_of_bytes h (by omega) ?_
    rw [JsonText.plain, JsonText.printable, decide_eq_false hc.1]
    rfl
  refine ⟨fun htext c hc => ?_, fun hs c hc => ?_⟩
  · by_contra hnot
    exact hnot (htext c ((hcontrol c hnot).mpr hc))
  · by_contra hnot
    exact hnot (hs c ((hcontrol c hnot).mp hc))

theorem length_encode_spaced (s : List Char) :
    (Utf8.encode (spaced s)).length = (Utf8.encode s).length := by
  induction s with
  | nil => rfl
  | cons c s ih =>
    have hc : (String.utf8EncodeChar (if c = '\n' ∨ c = '\r' then ' ' else c)).length =
        (String.utf8EncodeChar c).length := by
      split
      next hbreak =>
        rcases hbreak with rfl | rfl
        all_goals decide
      next => rfl
    have hcons : ∀ (c : Char) (s : List Char), (Utf8.encode (c :: s)).length =
        (String.utf8EncodeChar c).length + (Utf8.encode s).length := fun c s => by
      rw [Utf8.encode, List.flatMap_cons, List.length_append, ← Utf8.encode]
    rw [spaced, List.map_cons, ← spaced, hcons, hcons, hc, ih]

/-- Only clean text is read as it was written. -/
theorem clean_iff (h : page.bytes s = Utf8.encode text) :
    Clean s ↔ asWritten text = asWritten s ∧ Uncontrolled text := by
  constructor
  · rintro ⟨hascii, hs⟩
    rw [AnsiPage.bytes_ascii hascii] at h
    obtain rfl := encode_injective h
    exact ⟨rfl, hs⟩
  · rintro ⟨heq, htext⟩
    refine ⟨?_, (uncontrolled_iff h).mp htext⟩
    -- UTF-8 would need more bytes for any other character
    have hspaced : spaced text = spaced s :=
      List.map_injective_iff.mpr (fun _ _ h => CodePoint.scalar.inj h) heq
    apply @AnsiPage.ascii_of_length page
    rw [h, ← length_encode_spaced, hspaced, length_encode_spaced]

end Page

/-! ### The whole file -/

theorem short_of_lt {n : ℕ} (h : n < 10 ^ 19) : (Nat.toDigits 10 n).length ≤ PyInt.maxDigits :=
  ((Nat.length_toDigits_le_iff (by decide) (by decide)).mpr h).trans (by decide)

theorem plain_twoDigits (n : ℕ) : (twoDigits n).all JsonText.plain = true := by
  rw [twoDigits]
  split
  next => rw [List.all_cons, Tree.plain_toDigits]; rfl
  next => exact Tree.plain_toDigits n

theorem plain_timeToString (t : Datetime) : (timeToString t).all JsonText.plain = true := by
  simp only [timeToString, List.all_append, List.all_cons, Tree.plain_toDigits, plain_twoDigits]
  rfl

namespace Inventory

variable {x : Inventory} {depth : ℕ}

theorem legal_loaderTree : x.loaderTree.Legal (depth + 1) := by
  have hshort : (Nat.toDigits 10 x.appliedRevision.natAbs).length ≤ PyInt.maxDigits := by
    have hlong := x.revision_long
    exact short_of_lt (by omega)
  refine .of_keys ["name", "version", "last_loop", "applied_revision"] rfl (by decide)
    (by decide) ?_
  simp only [List.forall_mem_cons, List.not_mem_nil, false_implies, implies_true, and_true]
  exact ⟨.str _, .lit (by decide), .lit (plain_timeToString _), .int hshort⟩

theorem legal_chartsTree : x.chartsTree.Legal (depth + 2) := by
  refine .arr fun t ht => ?_
  obtain ⟨c, hc, rfl⟩ := List.mem_map.mp ht
  have hshort : (Nat.toDigits 10 (c.chartId : ℤ).natAbs).length ≤ PyInt.maxDigits := by
    have hlt := x.charts_long c hc
    rw [Int.natAbs_natCast]
    exact short_of_lt (by omega)
  refine .of_keys ["chart_id", "symbol", "timeframe", "expert", "expert_enabled",
    "deployment_id"] rfl (by decide) (by decide) ?_
  simp only [List.forall_mem_cons, List.not_mem_nil, false_implies, implies_true, and_true]
  exact ⟨.int hshort, .str _, .str _, .str _, .bool _, .str _⟩

theorem legal_deploymentsTree : x.deploymentsTree.Legal (depth + 2) := by
  refine .arr fun t ht => ?_
  obtain ⟨dep, -, rfl⟩ := List.mem_map.mp ht
  have hstatus : (observedStatus x.charts dep).text.all JsonText.plain = true := by
    cases observedStatus x.charts dep
    all_goals decide
  rw [ChartCtlDeployment.tree]
  cases hfound : findChartFor dep.id x.charts with
  | none =>
    refine .of_keys ["id", "status"] rfl (by decide) (by decide) ?_
    simp only [Option.map_none, Option.toList_none, List.append_nil, List.forall_mem_cons,
      List.not_mem_nil, false_implies, implies_true, and_true]
    exact ⟨.str _, .lit hstatus⟩
  | some c =>
    have hshort : (Nat.toDigits 10 (c.chartId : ℤ).natAbs).length ≤ PyInt.maxDigits := by
      have hlt := x.charts_long c (List.mem_of_find?_eq_some hfound)
      rw [Int.natAbs_natCast]
      exact short_of_lt (by omega)
    refine .of_keys ["id", "status", "chart_id"] rfl (by decide) (by decide) ?_
    simp only [Option.map_some, Option.toList_some, List.cons_append, List.nil_append,
      List.forall_mem_cons, List.not_mem_nil, false_implies, implies_true, and_true]
    exact ⟨.str _, .lit hstatus, .int hshort⟩

theorem legal_errorsTree : x.errorsTree.Legal (depth + 2) := by
  refine .arr fun t ht => ?_
  obtain ⟨e, -, rfl⟩ := List.mem_map.mp ht
  refine .of_keys ["id", "status", "code", "detail"] rfl (by decide) (by decide) ?_
  simp only [List.forall_mem_cons, List.not_mem_nil, false_implies, implies_true, and_true]
  exact ⟨.str _, .lit (by decide), .str _, .str _⟩

theorem legal_tree : x.tree.Legal (depth + 3) := by
  refine .of_keys ["protocol", "loader", "terminal", "charts", "deployments", "errors"] rfl
    (by decide) (by decide) ?_
  have hterminal : (Tree.obj [("auto_trading".toList, .bool x.tradeAllowed)]).Legal
      (depth + 2) := by
    refine .of_keys ["auto_trading"] rfl (by decide) (by decide) ?_
    rw [List.forall_mem_singleton]
    exact .bool _
  simp only [List.forall_mem_cons, List.not_mem_nil, false_implies, implies_true, and_true]
  exact ⟨.int (by decide), legal_loaderTree, hterminal, legal_chartsTree, legal_deploymentsTree,
    legal_errorsTree⟩

end Inventory

/-! ### What reaches the API -/

section Reaches

variable {page : AnsiPage} {s : List Char}

/-- Bytes after those of ASCII. -/
theorem exists_after_ascii {more text : List Char} {ys : List UInt8}
    (hascii : ∀ c ∈ more, c.toNat < 0x80) (h : Utf8.encode text = page.bytes more ++ ys) :
    ∃ y, ys = Utf8.encode y := by
  induction more generalizing text with
  | nil => exact ⟨text, h.symm⟩
  | cons c more ih =>
    have hc := hascii c List.mem_cons_self
    rw [AnsiPage.bytes, List.flatMap_cons, page.ascii c hc] at h
    obtain ⟨-, -, y, -, -, -, hy⟩ := @encode_eq_append_cons text [] _ _
      (by rw [toNat_toUInt8 hc]; exact hc) h
    exact ih (fun d hd => hascii d (List.mem_cons_of_mem _ hd)) hy.symm

/-- A string is UTF-8 if it is when it is escaped. -/
theorem exists_of_jsonEscape {text : List Char}
    (h : page.bytes (jsonEscape s) = Utf8.encode text) : ∃ y, page.bytes s = Utf8.encode y := by
  induction s using Text.sepInduction (p := special) generalizing text with
  | last piece hpiece =>
    rw [jsonEscape_of_not hpiece] at h
    exact ⟨text, h⟩
  | before piece sep rest hpiece hsep ih =>
    obtain ⟨first, more, hone, hfirst, hmore⟩ : ∃ first more, escapeOne sep = first :: more ∧
        first.toNat < 0x80 ∧ ∀ c ∈ more, c.toNat < 0x80 := by
      simp only [special, decide_eq_true_eq] at hsep
      rcases hsep with rfl | rfl | rfl | rfl
      all_goals exact ⟨_, _, rfl, by decide, by decide⟩
    rw [jsonEscape_append, jsonEscape_cons, jsonEscape_of_not hpiece, hone, AnsiPage.bytes,
      List.flatMap_append, List.cons_append, List.flatMap_cons, page.ascii first hfirst,
      List.flatMap_append] at h
    obtain ⟨x, -, y, -, hx, -, hy⟩ := encode_eq_append_cons
      (by rw [toNat_toUInt8 hfirst]; exact hfirst) h.symm
    obtain ⟨z, hz⟩ := exists_after_ascii hmore hy.symm
    obtain ⟨y, hrest⟩ := ih hz
    obtain ⟨hascii, -⟩ := special_spec hsep
    refine ⟨x ++ sep :: y, ?_⟩
    rw [AnsiPage.bytes, List.flatMap_append, List.flatMap_cons, page.ascii sep hascii,
      Utf8.encode, List.flatMap_append, List.flatMap_cons, utf8EncodeChar_ascii hascii]
    exact congrArg₂ _ hx (congrArg₂ _ rfl hrest)

variable (page) in
/-- What the bytes of a string are read as. -/
def seen (s : List Char) : List Char := (decode (page.bytes s)).getD []

theorem bytes_eq_encode_seen (h : (decode (page.bytes s)).isSome = true) :
    page.bytes s = Utf8.encode (seen page s) := by
  obtain ⟨text, htext⟩ := Option.isSome_iff_exists.mp h
  rw [seen, htext, Option.getD_some]
  exact decode_eq_some_iff.mp htext

theorem no_return_jsonEscape (s : List Char) : '\r' ∉ jsonEscape s := by
  rw [jsonEscape_eq, List.mem_flatMap]
  rintro ⟨c, -, hc⟩
  rw [escapeOne] at hc
  split_ifs at hc with hback hquote hbreak
  · exact absurd hc (by decide)
  · exact absurd hc (by decide)
  · exact absurd hc (by decide)
  · rw [List.mem_singleton] at hc
    exact hbreak (Or.inr hc.symm)

variable {x : Inventory} {depth : ℕ}

/-- The file is read if each string is UTF-8. -/
theorem readObserved_file : readObserved depth (x.file page) =
    .ok (if ∀ s ∈ x.tree.strings, (decode (page.bytes s)).isSome = true then
      (x.tree.map (seen page)).readBack body else none) := by
  have hlegal : x.tree.Legal (depth + 3) := Inventory.legal_tree
  by_cases hall : ∀ s ∈ x.tree.strings, (decode (page.bytes s)).isSome = true
  · rw [if_pos hall]
    have hbytes : x.file page = Utf8.encode ((x.tree.map (seen page)).text jsonEscape) :=
      hlegal.matches_text (fun c hc => by rw [page.ascii c hc, utf8EncodeChar_ascii hc])
        fun s hs => matches_jsonEscape (bytes_eq_encode_seen (hall s hs))
    have hreturn : '\r' ∉ (x.tree.map (seen page)).text jsonEscape := by
      intro hmem
      rcases hlegal.map.mem_text hmem with hprint | ⟨s, -, hs⟩
      · exact absurd hprint (by decide)
      · exact no_return_jsonEscape s hs
    have hlegal' : (x.tree.map (seen page)).Legal (depth + 3) := hlegal.map
    have hloads := (@Tree.Legal.reads_text _ _ _ _ id _ hlegal' readsBody_jsonEscape).loads
    rw [readObserved, load, hbytes, decode_encode, orError_some, ok_bind,
      universalNewlines_of_not_mem hreturn, hloads]
    cases (x.tree.map (seen page)).readBack body with
    | none => rfl
    | some v => rfl
  · rw [if_neg hall]
    push Not at hall
    obtain ⟨s, hs, hnone⟩ := hall
    -- the bytes of the string stand between two quotes
    have hfile : decode (x.file page) = none := by
      rw [Option.eq_none_iff_forall_ne_some]
      intro text htext
      obtain ⟨before, after, hsplit⟩ := @Tree.Legal.quoted_infix jsonEscape _ _ _ hlegal hs
      have hbytes : Utf8.encode text = page.bytes before ++ '"'.toUInt8 ::
          (page.bytes (jsonEscape s) ++ '"'.toUInt8 :: page.bytes after) := by
        rw [← decode_eq_some_iff.mp htext, Inventory.file, Inventory.text, ← hsplit]
        simp only [AnsiPage.bytes, List.flatMap_append, List.flatMap_cons,
          page.ascii '"' (by decide), List.append_assoc, List.cons_append, List.nil_append]
      obtain ⟨y, hy⟩ := exists_between (by decide) (by decide) hbytes
      obtain ⟨z, hz⟩ := exists_of_jsonEscape hy
      rw [hz, decode_encode] at hnone
      exact hnone rfl
    rw [readObserved, load, hfile]
    rfl

theorem body_isSome : (body s).isSome = true ↔ Uncontrolled s := by
  rw [body]
  split
  next h => exact iff_of_true rfl h
  next h => exact iff_of_false Bool.false_ne_true h

/-- Only clean strings are read as they were written. -/
theorem clean_iff_seen : Clean s ↔ (decode (page.bytes s)).isSome = true ∧
    (body (seen page s)).isSome = true ∧ asWritten (seen page s) = asWritten s := by
  constructor
  · intro hclean
    have hdecode : (decode (page.bytes s)).isSome = true := by
      rw [AnsiPage.bytes_ascii hclean.1, decode_encode]
      rfl
    obtain ⟨heq, htext⟩ := (clean_iff (bytes_eq_encode_seen hdecode)).mp hclean
    exact ⟨hdecode, body_isSome.mpr htext, heq⟩
  · rintro ⟨hdecode, htext, heq⟩
    exact (clean_iff (bytes_eq_encode_seen hdecode)).mpr ⟨heq, body_isSome.mp htext⟩

variable (page) in
/-- What a string is read as, if it is. -/
def readAs (s : List Char) : List CodePoint := joined ((body (seen page s)).getD [])

theorem readAs_eq (h : (body (seen page s)).isSome = true) :
    readAs page s = asWritten (seen page s) := by
  rw [body] at h
  rw [readAs, body]
  split at h
  next htext => rw [if_pos htext, Option.getD_some, asWritten, joined_scalars]
  next => cases h

/-- The value that is read. -/
theorem Inventory.value_tree (read : List Char → List CodePoint) :
    x.tree.value (F := List Char) read = .obj [(ofString "protocol", .int 1),
      (ofString "loader", x.loaderTree.value read),
      (ofString "terminal", .obj [(ofString "auto_trading", .bool x.tradeAllowed)]),
      (ofString "charts", x.chartsTree.value read),
      (ofString "deployments", x.deploymentsTree.value read),
      (ofString "errors", x.errorsTree.value read)] := by
  have hterminal : (Tree.obj [("auto_trading".toList, .bool x.tradeAllowed)]).value
      (F := List Char) read = .obj [(ofString "auto_trading", .bool x.tradeAllowed)] := by
    rw [Tree.value_obj]
    rfl
  rw [Inventory.tree, Tree.value_obj]
  simp only [List.map_cons, List.map_nil, hterminal]
  rfl

/-- The file reaches the API if each string is read, and those of the charts, the deployments and
the errors as they were written. -/
theorem reaches_iff_strings : Reaches page depth x ↔
    (∀ s ∈ x.tree.strings, (decode (page.bytes s)).isSome = true ∧
      (body (seen page s)).isSome = true) ∧
    ∀ t ∈ [x.chartsTree, x.deploymentsTree, x.errorsTree], ∀ s ∈ t.strings,
      readAs page s = asWritten s := by
  have hlegal : x.tree.Legal 3 := @Inventory.legal_tree x 0
  -- what is read, if it is
  have hread : readObserved depth (x.file page) =
      .ok (if ∀ s ∈ x.tree.strings, (decode (page.bytes s)).isSome = true ∧
        (body (seen page s)).isSome = true then some (x.tree.value (readAs page)) else none) := by
    rw [readObserved_file, Tree.readBack, hlegal.strings_map, hlegal.value_map]
    by_cases hdecode : ∀ s ∈ x.tree.strings, (decode (page.bytes s)).isSome = true
    · by_cases hbody : ∀ s ∈ x.tree.strings, (body (seen page s)).isSome = true
      · rw [if_pos hdecode, if_pos (by simpa using hbody),
          if_pos fun s hs => ⟨hdecode s hs, hbody s hs⟩]
        rfl
      · rw [if_pos hdecode, if_neg (by simpa using hbody),
          if_neg fun h => hbody fun s hs => (h s hs).2]
    · rw [if_neg hdecode, if_neg fun h => hdecode fun s hs => (h s hs).1]
  rw [Reaches, hread]
  by_cases hall : ∀ s ∈ x.tree.strings, (decode (page.bytes s)).isSome = true ∧
      (body (seen page s)).isSome = true
  · have htrees : ∀ t ∈ [x.chartsTree, x.deploymentsTree, x.errorsTree],
        (t.value (F := List Char) (readAs page) = t.value asWritten ↔
          ∀ s ∈ t.strings, readAs page s = asWritten s) := by
      intro t ht
      simp only [List.mem_cons, List.not_mem_nil, or_false] at ht
      rcases ht with rfl | rfl | rfl
      · exact (@Inventory.legal_chartsTree x 0).value_inj
      · exact (@Inventory.legal_deploymentsTree x 0).value_inj
      · exact (@Inventory.legal_errorsTree x 0).value_inj
    simp only [List.forall_mem_cons, List.not_mem_nil, false_implies, implies_true,
      and_true] at htrees ⊢
    rw [if_pos hall, ← htrees.1, ← htrees.2.1, ← htrees.2.2, Inventory.value_tree]
    constructor
    · rintro ⟨fields, hfields, hcharts, hdeployments, herrors⟩
      obtain rfl := Value.obj.inj (Option.some.inj (Except.ok.inj hfields))
      simp only [fieldOf, Dict.get_cons, ofString_inj, String.reduceEq, if_true, if_false,
        Option.some.injEq] at hcharts hdeployments herrors
      exact ⟨hall, hcharts, hdeployments, herrors⟩
    · rintro ⟨-, hcharts, hdeployments, herrors⟩
      refine ⟨_, rfl, ?_⟩
      simp only [fieldOf, Dict.get_cons, ofString_inj, String.reduceEq, if_true, if_false,
        Option.some.injEq]
      exact ⟨hcharts, hdeployments, herrors⟩
  · rw [if_neg hall]
    refine iff_of_false ?_ fun h => hall h.1
    rintro ⟨_, h, -⟩
    cases h

theorem mem_strings_tree : s ∈ x.tree.strings ↔ s = x.programName ∨
    ∃ t ∈ [x.chartsTree, x.deploymentsTree, x.errorsTree], s ∈ t.strings := by
  have hloader : x.loaderTree.strings = [x.programName] := by
    rw [Inventory.loaderTree, Tree.strings_obj]
    rfl
  have hterminal : ∀ key, (Tree.obj [(key, .bool x.tradeAllowed)]).strings = [] := by
    intro key
    rw [Tree.strings_obj]
    rfl
  rw [Inventory.tree, Tree.strings_obj]
  simp [hloader, hterminal]

/-- The strings of the charts, the deployments and the errors. -/
theorem forall_strings_iff {P : List Char → Prop} :
    (∀ t ∈ [x.chartsTree, x.deploymentsTree, x.errorsTree], ∀ s ∈ t.strings, P s) ↔
      (∀ c ∈ x.charts, P c.symbol ∧ P c.timeframe ∧ P c.expert ∧ P c.deploymentId) ∧
      (∀ dep ∈ x.desired, P dep.id) ∧ ∀ e ∈ x.errors, P e.id ∧ P e.code ∧ P e.detail := by
  have hchart : ∀ c : ChartCtlChart,
      c.tree.strings = [c.symbol, c.timeframe, c.expert, c.deploymentId] := by
    intro c
    rw [ChartCtlChart.tree, Tree.strings_obj]
    rfl
  have hdeployment : ∀ dep : ChartCtlDeployment, (dep.tree x.charts).strings = [dep.id] := by
    intro dep
    rw [ChartCtlDeployment.tree, Tree.strings_obj]
    cases findChartFor dep.id x.charts with
    | none => rfl
    | some c => rfl
  have herror : ∀ e : Failure, e.tree.strings = [e.id, e.code, e.detail] := by
    intro e
    rw [Failure.tree, Tree.strings_obj]
    rfl
  have harr : ∀ {α : Type} (f : α → Tree) (l : List α),
      (∀ s ∈ (Tree.arr (l.map f)).strings, P s) ↔ ∀ a ∈ l, ∀ s ∈ (f a).strings, P s := by
    intro α f l
    refine ⟨fun h a ha s hs => h s (Tree.mem_strings_arr.mpr ⟨_, List.mem_map_of_mem ha, hs⟩),
      fun h s hs => ?_⟩
    obtain ⟨t, ht, hs⟩ := Tree.mem_strings_arr.mp hs
    obtain ⟨a, ha, rfl⟩ := List.mem_map.mp ht
    exact h a ha s hs
  simp only [Inventory.chartsTree, Inventory.deploymentsTree, Inventory.errorsTree,
    List.forall_mem_cons, List.not_mem_nil, false_implies, implies_true, and_true, harr, hchart,
    hdeployment, herror]

/-- What reaches the API is clean. -/
theorem Reaches.clean (h : Reaches page depth x) :
    ∀ t ∈ [x.chartsTree, x.deploymentsTree, x.errorsTree], ∀ s ∈ t.strings, Clean s := by
  obtain ⟨hread, hsame⟩ := reaches_iff_strings.mp h
  intro t ht s hs
  obtain ⟨hdecode, hbody⟩ := hread s (mem_strings_tree.mpr (Or.inr ⟨t, ht, hs⟩))
  exact (@clean_iff_seen page s).mpr
    ⟨hdecode, hbody, (readAs_eq hbody).symm.trans (hsame t ht s hs)⟩

/-- What is written is what is read, exactly when it comes through. -/
theorem reaches_iff (page : AnsiPage) (depth : ℕ) (x : Inventory) :
    Reaches page depth x ↔ ComesThrough page x := by
  constructor
  · intro h
    obtain ⟨hcharts, hdeployments, herrors⟩ := forall_strings_iff.mp h.clean
    -- the name of the program is read too
    obtain ⟨hdecode, hbody⟩ :=
      (reaches_iff_strings.mp h).1 x.programName (mem_strings_tree.mpr (Or.inl rfl))
    exact ⟨hcharts, hdeployments, herrors,
      (uncontrolled_iff (bytes_eq_encode_seen hdecode)).mp (body_isSome.mp hbody), hdecode⟩
  · rintro ⟨hcharts, hdeployments, herrors, hname, hdecode⟩
    have hclean := forall_strings_iff.mpr ⟨hcharts, hdeployments, herrors⟩
    refine reaches_iff_strings.mpr ⟨fun s hs => ?_, fun t ht s hs => ?_⟩
    · rcases mem_strings_tree.mp hs with rfl | ⟨t, ht, hs⟩
      · exact ⟨hdecode,
          body_isSome.mpr ((uncontrolled_iff (bytes_eq_encode_seen hdecode)).mpr hname)⟩
      · obtain ⟨hdecode, hbody, -⟩ := (@clean_iff_seen page s).mp (hclean t ht s hs)
        exact ⟨hdecode, hbody⟩
    · obtain ⟨-, hbody, heq⟩ := (@clean_iff_seen page s).mp (hclean t ht s hs)
      rw [readAs_eq hbody, heq]

/-- A character of Latin-1 is one byte; the others are question marks. -/
def latin (c : Char) : List UInt8 :=
  if c.toNat < 0x100 then [c.toUInt8] else (Utf16.unitsOf c).map fun _ => 0x3F

theorem latin_ascii (c : Char) (hc : c.toNat < 0x80) : latin c = [c.toUInt8] :=
  if_pos (by omega)

theorem length_latin (c : Char) : (latin c).length = (Utf16.unitsOf c).length := by
  rw [latin]
  split
  next hc =>
    have hsmall : c.toNat < 0x10000 := by omega
    rw [Utf16.unitsOf, if_pos hsmall]
    rfl
  next => rw [List.length_map]

theorem latin_other (c : Char) (hc : 0x80 ≤ c.toNat) :
    ∀ b ∈ latin c, 0x80 ≤ b.toNat ∨ JsonText.plain (Char.ofNat b.toNat) = true := by
  intro b hb
  rw [latin] at hb
  split at hb
  next hlatin =>
    rw [List.mem_singleton.mp hb]
    have hbyte : c.toUInt8.toNat = c.toNat := Nat.mod_eq_of_lt hlatin
    exact Or.inl (by omega)
  next =>
    obtain ⟨-, -, rfl⟩ := List.mem_map.mp hb
    exact Or.inr (by decide)

/-- Latin-1, with a question mark for what it has not. -/
def latinPage : AnsiPage where
  encode := latin
  ascii := latin_ascii
  units := length_latin
  other := latin_other

/-- A chart whose expert has an accent in its name. -/
def accented : Inventory where
  programName := "MT5ChartLoader".toList
  now := ⟨2026, 7, 9, 12, 0, 3⟩
  appliedRevision := 1
  tradeAllowed := true
  desired := []
  charts := [⟨1, "EURUSD".toList, "PERIOD_M5".toList, "Marée".toList, []⟩]
  errors := []
  revision_long := by decide
  charts_long := by decide

theorem not_reaches : ¬ ∀ (page : AnsiPage) (depth : ℕ) (x : Inventory), Reaches page depth x := by
  intro h
  have hclean := (forall_strings_iff.mp (h latinPage 0 accented).clean).1 _ List.mem_cons_self
  exact absurd hclean.2.2.1.1 (by decide)

end Reaches

end ChartCtl

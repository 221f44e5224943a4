import Mathlib.Data.List.GetD
import Mathlib.Data.List.Perm.Basic
import Mathlib.Data.List.Perm.Subperm
import Mathlib.Data.List.Sort
import Mathlib.Order.WithBot
import Mt5HttpApi.Backtest.IniBuilder
import Mt5HttpApi.Lib.Decimal
import Mt5HttpApi.Lib.PyInt

/-!
# The report of an optimisation

`parse_optimization_report` of `mt5api/backtest/optimization_parser.py`, of the rows of the table.
Cells may leave columns out by their index. The blank headers are dropped before the headers are
paired with the values of a row.

* `getD_rowValues`: the values of a row are those of its columns.
* `aligned_iff`: when each value is under the header of its column.
* `ordered_iff`: when the records are ordered by their result.
-/

namespace Backtest.OptReport

open Text Json

/-! ## The parser -/

/-- A value of a cell. -/
inductive Value
  | text (s : List Char)
  | int (n : ℤ)
  | float (x : Number)
  deriving DecidableEq

/-- Python's conversions between texts and numbers. -/
structure Numerals where
  /-- `float(text)`, or none where it raises a `ValueError`. -/
  floatOf : List Char → Option Number
  /-- `str(x)` of a float. -/
  strFloat : Number → List Char
  /-- The value of a decimal digit, of any script. -/
  decimal : Char → Option ℕ

/-- A cell: its `ss:Index`, and the text of its data. -/
structure Cell where
  index : Option (List Char)
  data : Option (List Char)
  deriving DecidableEq

/-- The empty value. -/
def blank : Value := .text []

variable (py : Numerals)

/-- `_coerce_value`. -/
def coerceValue (value : List Char) : Value :=
  let value := strip value
  if value = [] then blank
  else
    match py.floatOf value with
    | none => .text value
    | some (.finite q) => if q.den = 1 then .int q.num else .float (.finite q)
    | some .negZero => .int 0
    | some number => .float number

/-- The value of a cell. -/
def Cell.value (cell : Cell) : Value :=
  match cell.data with
  | some text => coerceValue py text
  | none => blank

/-- How many columns are left out before a cell. -/
def Cell.gap (nextIndex : ℕ) (cell : Cell) : ℕ :=
  match cell.index with
  | none => 0
  | some raw =>
    if raw = [] then 0
    else (((PyInt.int py.decimal raw).getD nextIndex) - nextIndex).toNat

/-- The loop of `_row_values`. -/
def rowValuesFrom (nextIndex : ℕ) : List Cell → List Value
  | [] => []
  | cell :: cells =>
    let gap := cell.gap py nextIndex
    List.replicate gap blank ++ cell.value py :: rowValuesFrom (nextIndex + gap + 1) cells

/-- `_row_values`. -/
def rowValues (row : List Cell) : List Value := rowValuesFrom py 1 row

/-- `str(value)`. -/
def strValue : Value → List Char
  | .text s => s
  | .int n => IniBuilder.intText n
  | .float x => py.strFloat x

/-- A record, in the order of its headers. -/
abbrev Record := List (List Char × Value)

/-- The headers of the report. -/
def headersOf (header : List Cell) : List (List Char) :=
  ((rowValues py header).map (strValue py)).filter fun text => strip text ≠ []

/-- The headers with the values at their indices. -/
def pairFrom (values : List Value) (index : ℕ) : List (List Char) → Record → Record
  | [], record => record
  | header :: headers, record =>
    pairFrom values (index + 1) headers (Dict.set record header (values.getD index blank))

/-- The record of a row. -/
def recordOf (headers : List (List Char)) (row : List Cell) : Record :=
  pairFrom (rowValues py row) 0 headers []

/-- A row with something in it. -/
def isFilled (row : List Cell) : Bool := (rowValues py row).any fun value => value ≠ blank

/-- The header that the records are sorted by. -/
def resultHeader : List Char := "Result".toList

/-- What numbers are sorted by. -/
abbrev Key := WithBot (WithTop ℚ)

/-- The key of a number, but for one that is none. -/
def keyOfNumber : Number → Option Key
  | .finite q => some ((q : WithTop ℚ) : Key)
  | .negZero => some ((0 : WithTop ℚ) : Key)
  | .nan => none
  | .infinity true => some ⊥
  | .infinity false => some ((⊤ : WithTop ℚ) : Key)

/-- The key of a value, if it is a number. -/
def numeric : Value → Option Key
  | .text _ => none
  | .int n => some (((n : ℚ) : WithTop ℚ) : Key)
  | .float x => keyOfNumber x

/-- The value of the result. -/
def resultOf (record : Record) : Value := (Dict.get record resultHeader).getD blank

/-- A float that is no number. -/
def IsNan (value : Value) : Prop := value = .float .nan

/-- `_result_or_lowest`. A float that is no number has no place in the order. -/
def resultOrLowest (record : Record) : Option Key :=
  match resultOf record with
  | .text _ => some ⊥
  | value => numeric value

/-- `list.sort(key=key, reverse=True)`: it keeps the order of what is equal. What it makes of keys
without a place in the order is some order of the items. -/
structure Sorter where
  sort : (Record → Option Key) → List Record → List Record
  perm : ∀ key records, (sort key records).Perm records
  stable : ∀ key records, (∀ record ∈ records, (key record).isSome = true) →
    sort key records = records.insertionSort fun a b => (key b).getD ⊥ ≤ (key a).getD ⊥

/-- `parse_optimization_report` of the rows of the table. -/
def parseReport (sorter : Sorter) (rows : List (List Cell)) (topN : ℕ) : List Record :=
  match rows with
  | [] => []
  | header :: rows =>
    let headers := headersOf py header
    if headers = [] then []
    else
      let records := (rows.filter (isFilled py)).map (recordOf py headers)
      (if resultHeader ∈ headers then sorter.sort resultOrLowest records else records).take topN

/-! ## The table -/

/-- The cells of a row with their columns. -/
def columnsFrom (nextIndex : ℕ) : List Cell → List (ℕ × Cell)
  | [] => []
  | cell :: cells =>
    let column := nextIndex + cell.gap py nextIndex
    (column, cell) :: columnsFrom (column + 1) cells

/-- The value in a column: empty where the row has no cell. -/
def valueAt (row : List Cell) (column : ℕ) : Value :=
  match (columnsFrom py 1 row).find? fun item => item.1 = column with
  | some item => item.2.value py
  | none => blank

/-- The header in a column, if it is not blank. -/
def headerAt (header : List Cell) (column : ℕ) : Option (List Char) :=
  let text := strValue py (valueAt py header column)
  if strip text = [] then none else some text

variable {py}

/-! ## Values and columns -/

variable {header row : List Cell} {rows : List (List Cell)} {h : List Char} {nextIndex column : ℕ}

theorem le_of_mem_columnsFrom {item : ℕ × Cell} (hitem : item ∈ columnsFrom py nextIndex row) :
    nextIndex ≤ item.1 := by
  induction row generalizing nextIndex with
  | nil => cases hitem
  | cons cell cells ih =>
    unfold columnsFrom at hitem
    rcases List.mem_cons.mp hitem with rfl | hitem
    · exact Nat.le_add_right _ _
    · have hmore := ih hitem
      omega

/-- The values from a column on. -/
theorem getD_rowValuesFrom (h : nextIndex ≤ column) :
    (rowValuesFrom py nextIndex row).getD (column - nextIndex) blank =
      match (columnsFrom py nextIndex row).find? fun item => item.1 = column with
      | some item => item.2.value py
      | none => blank := by
  induction row generalizing nextIndex with
  | nil => rfl
  | cons cell cells ih =>
    unfold rowValuesFrom columnsFrom
    dsimp only
    set gap := cell.gap py nextIndex
    by_cases hbefore : column < nextIndex + gap
    · -- a column that is left out
      have hnone : (columnsFrom py (nextIndex + gap + 1) cells).find?
          (fun item => item.1 = column) = none := by
        rw [List.find?_eq_none]
        intro item hitem
        have hle := le_of_mem_columnsFrom hitem
        simp only [decide_eq_true_eq]
        omega
      have hlt : column - nextIndex < gap := by omega
      rw [List.getD_append _ _ _ _ (by simpa using hlt), List.getD_replicate _ hlt,
        List.find?_cons_of_neg (by simp only [decide_eq_true_eq]; omega), hnone]
    · rw [List.getD_append_right _ _ _ _ (by rw [List.length_replicate]; omega),
        List.length_replicate]
      by_cases hcell : nextIndex + gap = column
      · have hzero : column - nextIndex - gap = 0 := by omega
        rw [hzero, List.getD_cons_zero, List.find?_cons_of_pos (by simpa using hcell)]
      · have hsucc : column - nextIndex - gap = column - (nextIndex + gap + 1) + 1 := by omega
        rw [hsucc, List.getD_cons_succ, ih (by omega),
          List.find?_cons_of_neg (by simpa using hcell)]

/-- The values of a row are those of its columns. -/
theorem getD_rowValues (row : List Cell) (i : ℕ) :
    (rowValues py row).getD i blank = valueAt py row (i + 1) := by
  have h := @getD_rowValuesFrom py row 1 (i + 1) (by omega)
  rwa [Nat.add_sub_cancel] at h

/-- There is no column 0. -/
theorem valueAt_zero (row : List Cell) : valueAt py row 0 = blank := by
  have hnone : (columnsFrom py 1 row).find? (fun item => item.1 = 0) = none := by
    rw [List.find?_eq_none]
    intro item hitem
    have hle := le_of_mem_columnsFrom hitem
    simp only [decide_eq_true_eq]
    omega
  unfold valueAt
  rw [hnone]

variable (py) in
/-- The texts of the header row. -/
def texts (header : List Cell) : List (List Char) := (rowValues py header).map (strValue py)

/-- A text with something besides white space. -/
def isNamed (text : List Char) : Bool := strip text ≠ []

theorem headersOf_eq (header : List Cell) :
    headersOf py header = (texts py header).filter isNamed :=
  rfl

/-- The header in a column is the text of its cell. -/
theorem headerAt_succ {i : ℕ} : headerAt py header (i + 1) = some h ↔
    (texts py header)[i]? = some h ∧ isNamed h = true := by
  have hvalue := @getD_rowValues py header i
  unfold headerAt texts isNamed
  dsimp only
  rw [← hvalue, List.getD_eq_getElem?_getD, List.getElem?_map]
  cases (rowValues py header)[i]? with
  | none => simp [blank, strValue, strip]
  | some value =>
    rw [Option.getD_some, Option.map_some, Option.some.injEq]
    constructor
    · intro htext
      split at htext
      next => cases htext
      next hne =>
        obtain rfl := Option.some.inj htext
        exact ⟨rfl, by simpa using hne⟩
    · rintro ⟨rfl, hne⟩
      rw [if_neg (by simpa using hne)]

theorem headerAt_zero (header : List Cell) : headerAt py header 0 = none := by
  unfold headerAt
  rw [valueAt_zero]
  rfl

/-- The columns of headers are those of the texts that name something. -/
theorem headerAt_eq_some_iff : headerAt py header column = some h ↔
    ∃ i, column = i + 1 ∧ (texts py header)[i]? = some h ∧ isNamed h = true := by
  cases column with
  | zero =>
    rw [headerAt_zero]
    constructor
    · intro hnone
      cases hnone
    · rintro ⟨i, hi, -⟩
      omega
  | succ i =>
    rw [headerAt_succ]
    constructor
    · exact fun htext => ⟨i, rfl, htext⟩
    · rintro ⟨j, hj, htext⟩
      obtain rfl : i = j := by omega
      exact htext

/-! ## Records -/

variable {headers : List (List Char)} {values : List Value} {record : Record}

theorem get_pairFrom_of_notMem (hnot : h ∉ headers) (values : List Value) (index : ℕ)
    (record : Record) : Dict.get (pairFrom values index headers record) h = Dict.get record h := by
  induction headers generalizing index record with
  | nil => rfl
  | cons other headers ih =>
    rw [List.mem_cons, not_or] at hnot
    unfold pairFrom
    rw [ih hnot.2, Dict.get_set, if_neg hnot.1]

/-- A header has the value at an index that it has itself, whatever the values are. -/
theorem exists_get_pairFrom (hmem : h ∈ headers) : ∃ j, headers[j]? = some h ∧
    ∀ (values : List Value) (index : ℕ) (record : Record),
      Dict.get (pairFrom values index headers record) h =
        some (values.getD (index + j) blank) := by
  induction headers with
  | nil => cases hmem
  | cons other headers ih =>
    by_cases hmore : h ∈ headers
    · obtain ⟨j, hj, hget⟩ := ih hmore
      refine ⟨j + 1, by simpa using hj, fun values index record => ?_⟩
      unfold pairFrom
      rw [hget, Nat.add_assoc, Nat.add_comm 1]
    · obtain rfl := (List.mem_cons.mp hmem).resolve_right hmore
      refine ⟨0, rfl, fun values index record => ?_⟩
      unfold pairFrom
      rw [get_pairFrom_of_notMem hmore, Dict.get_set, if_pos rfl, Nat.add_zero]

variable (py) in
/-- Under each header there is the value of its column. -/
def Right (header row : List Cell) (record : Record) : Prop :=
  ∀ column h, headerAt py header column = some h →
    Dict.get record h = some (valueAt py row column)

variable (py) in
/-- The rows with something in them. -/
def filledRows (rows : List (List Cell)) : List (List Cell) := rows.filter (isFilled py)

variable (py) in
/-- The records are of rows of their own that have something in them, and right. -/
def Aligned (header : List Cell) (rows : List (List Cell)) (records : List Record) : Prop :=
  ∃ picked : List (List Cell), picked.Subperm (filledRows py rows) ∧
    List.Forall₂ (Right py header) picked records

variable (py) in
/-- Headers without a gap: no blank one is before another, and none is there twice. -/
structure PlainHeader (header : List Cell) : Prop where
  noGap : ∀ text ∈ (texts py header).dropWhile isNamed, isNamed text = false
  nodup : (headersOf py header).Nodup

/-- Without a gap, what is left of a filter is at its old indices. -/
theorem getElem?_filter_of_noGap {α : Type} {p : α → Bool} {l : List α}
    (hgap : ∀ x ∈ l.dropWhile p, p x = false) {i : ℕ} {x : α} (hx : l[i]? = some x)
    (hp : p x = true) : (l.filter p)[i]? = some x := by
  induction l generalizing i with
  | nil => cases hx
  | cons y l ih =>
    cases hy : p y with
    | true =>
      rw [List.dropWhile_cons_of_pos hy] at hgap
      rw [List.filter_cons_of_pos hy]
      cases i with
      | zero => exact hx
      | succ i => exact ih hgap hx
    | false =>
      rw [List.dropWhile_cons_of_neg (by simp [hy])] at hgap
      have hfalse := hgap x (List.mem_of_getElem? hx)
      rw [hp] at hfalse
      cases hfalse

/-- If what is left of a filter is at its old indices, there was no gap. -/
theorem noGap_of_getElem?_filter {α : Type} {p : α → Bool} {l : List α}
    (hnodup : (l.filter p).Nodup)
    (hsame : ∀ (i : ℕ) x, l[i]? = some x → p x = true → (l.filter p)[i]? = some x) :
    ∀ x ∈ l.dropWhile p, p x = false := by
  induction l with
  | nil => simp
  | cons y l ih =>
    cases hy : p y with
    | true =>
      rw [List.filter_cons_of_pos hy] at hnodup hsame
      rw [List.dropWhile_cons_of_pos hy]
      refine ih (List.nodup_cons.mp hnodup).2 fun i x hx hp => ?_
      simpa using hsame (i + 1) x (by simpa using hx) hp
    | false =>
      rw [List.filter_cons_of_neg (by simp [hy])] at hnodup hsame
      rw [List.dropWhile_cons_of_neg (by simp [hy])]
      -- otherwise the first one that is left would be there twice
      rcases hfilter : l.filter p with _ | ⟨first, more⟩
      · rw [List.filter_eq_nil_iff] at hfilter
        intro x hx
        rcases List.mem_cons.mp hx with rfl | hx
        · exact hy
        · simpa using hfilter x hx
      · have hmem : first ∈ l.filter p := by rw [hfilter]; exact List.mem_cons_self
        obtain ⟨hl, hp⟩ := List.mem_filter.mp hmem
        obtain ⟨i, hi⟩ := List.getElem?_of_mem hl
        have hagain := hsame (i + 1) first (by simpa using hi) hp
        rw [hfilter, List.getElem?_cons_succ] at hagain
        rw [hfilter, List.nodup_cons] at hnodup
        exact absurd (List.mem_of_getElem? hagain) hnodup.1

/-- With plain headers the record of a row is right. -/
theorem right_recordOf (hplain : PlainHeader py header) (row : List Cell) :
    Right py header row (recordOf py (headersOf py header) row) := by
  intro column h hheader
  obtain ⟨i, rfl, htext, hnamed⟩ := headerAt_eq_some_iff.mp hheader
  have hindex : (headersOf py header)[i]? = some h :=
    getElem?_filter_of_noGap hplain.noGap htext hnamed
  obtain ⟨j, hj, hget⟩ := exists_get_pairFrom (List.mem_of_getElem? hindex)
  -- the header is at one index only
  have hij : i = j := by
    obtain ⟨hlt, hi⟩ := List.getElem?_eq_some_iff.mp hindex
    obtain ⟨hlt', hj⟩ := List.getElem?_eq_some_iff.mp hj
    exact (hplain.nodup.getElem_inj_iff).mp (hi.trans hj.symm)
  unfold recordOf
  rw [hget, Nat.zero_add, ← hij, getD_rowValues]

/-! ## The records that are returned -/

variable {sorter : Sorter} {topN : ℕ} {records : List Record}

variable (py) in
/-- The records of the rows. -/
def recordsOf (header : List Cell) (rows : List (List Cell)) : List Record :=
  (filledRows py rows).map (recordOf py (headersOf py header))

/-- What is put in another order comes from things in another order. -/
theorem exists_perm_of_perm_map {α β : Type} {f : α → β} {l : List α} {l' : List β}
    (h : l'.Perm (l.map f)) : ∃ order : List α, order.Perm l ∧ l' = order.map f := by
  have hcomp : Relation.Comp (· = List.map f ·) List.Perm l' l := by
    rw [List.eq_map_comp_perm]
    exact h
  obtain ⟨order, heq, hperm⟩ := hcomp
  exact ⟨order, hperm, heq⟩

variable (py) in
/-- The records are those of some of the rows, in some order. -/
theorem exists_order (sorter : Sorter) (header : List Cell) (rows : List (List Cell)) (topN : ℕ) :
    ∃ picked : List (List Cell), picked.Subperm (filledRows py rows) ∧
      parseReport py sorter (header :: rows) topN =
        picked.map (recordOf py (headersOf py header)) := by
  unfold parseReport
  dsimp only
  split
  next => exact ⟨[], List.nil_subperm, rfl⟩
  next =>
    obtain ⟨order, hperm, horder⟩ : ∃ order : List (List Cell), order.Perm (filledRows py rows) ∧
        (if resultHeader ∈ headersOf py header then
          sorter.sort resultOrLowest (recordsOf py header rows) else recordsOf py header rows) =
          order.map (recordOf py (headersOf py header)) := by
      split
      next => exact exists_perm_of_perm_map (sorter.perm _ _)
      next => exact ⟨_, List.Perm.refl _, rfl⟩
    refine ⟨order.take topN, (List.take_sublist _ _).subperm.trans hperm.subperm, ?_⟩
    rw [List.map_take, ← horder]
    rfl

/-- A row with something in one column only. -/
def testRow (i : ℕ) : List Cell :=
  List.replicate i ⟨none, none⟩ ++ [⟨none, some ['x']⟩]

theorem coerceValue_ne_blank {text : List Char} (h : strip text ≠ []) :
    coerceValue py text ≠ blank := by
  unfold coerceValue
  dsimp only
  rw [if_neg h]
  cases py.floatOf (strip text) with
  | none => simpa [blank] using h
  | some number =>
    cases number with
    | finite q => dsimp only; split <;> simp [blank]
    | negZero | nan | infinity => simp [blank]

theorem rowValues_testRow (i : ℕ) :
    rowValues py (testRow i) = List.replicate i blank ++ [coerceValue py ['x']] := by
  unfold rowValues testRow
  generalize 1 = nextIndex
  induction i generalizing nextIndex with
  | zero => rfl
  | succ i ih =>
    rw [List.replicate_succ, List.cons_append, List.replicate_succ, List.cons_append, rowValuesFrom]
    exact congrArg (blank :: ·) (ih (nextIndex + 1))

/-- Where the records of every table are right, each header is at the index of its column. -/
theorem getElem?_headersOf (haligned : ∀ rows topN,
      Aligned py header rows (parseReport py sorter (header :: rows) topN))
    {i j : ℕ} (htext : (texts py header)[i]? = some h) (hnamed : isNamed h = true)
    (hget : ∀ (values : List Value) (index : ℕ) (record : Record),
      Dict.get (pairFrom values index (headersOf py header) record) h =
        some (values.getD (index + j) blank)) : i = j := by
  have hmem : h ∈ headersOf py header :=
    List.mem_filter.mpr ⟨List.mem_of_getElem? htext, hnamed⟩
  have hne : headersOf py header ≠ [] := List.ne_nil_of_mem hmem
  have hvalue : coerceValue py ['x'] ≠ blank := coerceValue_ne_blank (by decide)
  have hfilled : isFilled py (testRow i) = true := by
    unfold isFilled
    rw [rowValues_testRow]
    simp [hvalue]
  have hrecords : parseReport py sorter [header, testRow i] 1 =
      [recordOf py (headersOf py header) (testRow i)] := by
    unfold parseReport
    dsimp only
    rw [if_neg hne, List.filter_cons_of_pos hfilled, List.filter_nil, List.map_singleton]
    split
    next => rw [List.perm_singleton.mp (sorter.perm _ _)]; rfl
    next => rfl
  obtain ⟨picked, hpicked, hright⟩ := haligned [testRow i] 1
  rw [hrecords] at hright
  rw [filledRows, List.filter_cons_of_pos hfilled, List.filter_nil] at hpicked
  obtain ⟨row, more, hrow, hmore, rfl⟩ := List.forall₂_cons_right_iff.mp hright
  obtain rfl := List.forall₂_nil_right_iff.mp hmore
  obtain rfl : row = testRow i := by
    simpa using hpicked.subset (List.mem_singleton_self row)
  have hat := hrow (i + 1) h (headerAt_succ.mpr ⟨htext, hnamed⟩)
  unfold recordOf at hat
  rw [hget, Nat.zero_add, ← getD_rowValues, rowValues_testRow, Option.some.injEq] at hat
  -- the value is in the column of the header, and nowhere else
  by_contra hij
  have hright : (List.replicate i blank ++ [coerceValue py ['x']]).getD i blank =
      coerceValue py ['x'] := by
    rw [List.getD_append_right _ _ _ _ (by simp)]
    simp
  rw [hright] at hat
  rcases Nat.lt_or_gt_of_ne hij with hlt | hgt
  · rw [List.getD_append_right _ _ _ _ (by simpa using hlt.le), List.length_replicate,
      List.getD_eq_default _ _ (by simp; omega)] at hat
    exact hvalue hat.symm
  · rw [List.getD_append _ _ _ _ (by simpa using hgt), List.getD_replicate _ hgt] at hat
    exact hvalue hat.symm

/-- The values are under the headers of their columns, whatever rows there are, exactly when the
headers are plain. -/
theorem aligned_iff (sorter : Sorter) (header : List Cell) :
    (∀ rows topN, Aligned py header rows (parseReport py sorter (header :: rows) topN)) ↔
      PlainHeader py header := by
  constructor
  · intro haligned
    have hindex : ∀ (i : ℕ) h, (texts py header)[i]? = some h → isNamed h = true →
        ∃ j, i = j ∧ (headersOf py header)[j]? = some h ∧
          ∀ (values : List Value) (index : ℕ) (record : Record),
            Dict.get (pairFrom values index (headersOf py header) record) h =
              some (values.getD (index + j) blank) := by
      intro i h htext hnamed
      obtain ⟨j, hj, hget⟩ := exists_get_pairFrom
        (List.mem_filter.mpr ⟨List.mem_of_getElem? htext, hnamed⟩ : h ∈ headersOf py header)
      exact ⟨j, getElem?_headersOf haligned htext hnamed hget, hj, hget⟩
    have hnodup : (headersOf py header).Nodup := by
      rw [headersOf_eq, List.Nodup, List.pairwise_filter, List.pairwise_iff_getElem]
      intro i i' hi hi' hlt hnamed _ heq
      -- two columns of one header would both be at its index
      have htext := List.getElem?_eq_getElem hi
      have htext' := List.getElem?_eq_getElem hi'
      rw [← heq] at htext'
      obtain ⟨j, rfl, -, hget⟩ := hindex i _ htext hnamed
      have hsame := getElem?_headersOf haligned htext' hnamed hget
      omega
    refine ⟨noGap_of_getElem?_filter hnodup fun i h htext hnamed => ?_, hnodup⟩
    obtain ⟨j, rfl, hj, -⟩ := hindex i h htext hnamed
    exact hj
  · intro hplain rows topN
    obtain ⟨picked, hpicked, hrecords⟩ := exists_order py sorter header rows topN
    refine ⟨picked, hpicked, ?_⟩
    rw [hrecords, List.forall₂_map_right_iff, List.forall₂_same]
    exact fun row _ => right_recordOf hplain row

/-! ## The order of the records -/

section Stable

variable {α : Type} {r R : α → α → Prop} [DecidableRel r] [IsTrans α r] {l : List α} {a : α}

theorem pairwise_orderedInsert (hsorted : l.Pairwise r) (hl : l.Pairwise R)
    (hrel : ∀ b ∈ l, r a b → R a b) (hother : ∀ b ∈ l, ¬ r a b → R b a) :
    (l.orderedInsert r a).Pairwise R := by
  induction l with
  | nil => exact List.pairwise_singleton R a
  | cons b l ih =>
    obtain ⟨hb, hsorted'⟩ := List.pairwise_cons.mp hsorted
    obtain ⟨hRb, hl'⟩ := List.pairwise_cons.mp hl
    rw [List.orderedInsert_cons]
    split
    next hab =>
      refine List.pairwise_cons.mpr ⟨fun c hc => ?_, hl⟩
      rcases List.mem_cons.mp hc with rfl | hmem
      · exact hrel c hc hab
      · exact hrel c hc (trans_of r hab (hb c hmem))
    next hab =>
      refine List.pairwise_cons.mpr ⟨fun c hc => ?_, ih hsorted' hl'
        (fun c hc => hrel c (List.mem_cons_of_mem b hc))
        (fun c hc => hother c (List.mem_cons_of_mem b hc))⟩
      rcases (List.mem_orderedInsert r).mp hc with rfl | hmem
      · exact hother b List.mem_cons_self hab
      · exact hRb c hmem

/-- A relation holds along a list that was sorted, if it holds of what is in strict order and of
what is equal and in its old order. -/
theorem pairwise_insertionSort_of [Std.Total r] (hold : l.Pairwise fun a b => r a b → R a b)
    (hstrict : ∀ a ∈ l, ∀ b ∈ l, ¬ r b a → R a b) : (l.insertionSort r).Pairwise R := by
  induction l with
  | nil => exact List.Pairwise.nil
  | cons a l ih =>
    obtain ⟨ha, hold'⟩ := List.pairwise_cons.mp hold
    have hrest := ih hold' fun b hb c hc =>
      hstrict b (List.mem_cons_of_mem a hb) c (List.mem_cons_of_mem a hc)
    rw [List.insertionSort_cons]
    refine pairwise_orderedInsert (List.pairwise_insertionSort r l) hrest (fun b hb => ?_)
      fun b hb hnot => ?_
    · exact ha b ((List.mem_insertionSort r).mp hb)
    · exact hstrict b (List.mem_cons_of_mem a ((List.mem_insertionSort r).mp hb)) a
        List.mem_cons_self hnot

end Stable

variable (py) in
/-- The column of the results. -/
def resultColumn (header : List Cell) : ℕ := (texts py header).idxOf resultHeader + 1

variable (py) in
/-- The numeric result of a row. -/
def resultAt (header row : List Cell) : Option Key :=
  numeric (valueAt py row (resultColumn py header))

variable (py) in
/-- A row may come before another: if that has a numeric result, so has it, and no lower one. -/
def Before (header a b : List Cell) : Prop :=
  ∀ y, resultAt py header b = some y → ∃ x, resultAt py header a = some x ∧ y ≤ x

variable (py) in
/-- When there is a column of results, the records are of the first rows in their order. -/
def Ordered (header : List Cell) (rows : List (List Cell)) (topN : ℕ) (records : List Record) :
    Prop :=
  resultHeader ∈ headersOf py header → ∃ order : List (List Cell),
    order.Perm (filledRows py rows) ∧ order.Pairwise (Before py header) ∧
      List.Forall₂ (Right py header) (order.take topN) records

variable (py) in
/-- No result is a float that is no number. -/
def NoNan (header : List Cell) (rows : List (List Cell)) : Prop :=
  ∀ row ∈ filledRows py rows, ¬ IsNan (valueAt py row (resultColumn py header))

variable (py) in
/-- No result is minus infinity after a row without a numeric one. -/
def Settled (header : List Cell) (rows : List (List Cell)) : Prop :=
  resultHeader ∈ headersOf py header → (filledRows py rows).Pairwise fun a b =>
    ¬ (resultAt py header a = none ∧ resultAt py header b = some ⊥)

/-- The result of a record is in the column of the results. -/
theorem resultOf_of_right (hresult : resultHeader ∈ headersOf py header)
    (hright : Right py header row record) :
    resultOf record = valueAt py row (resultColumn py header) := by
  obtain ⟨hmem, hnamed⟩ := List.mem_filter.mp hresult
  have hget : (texts py header)[(texts py header).idxOf resultHeader]? = some resultHeader :=
    List.getElem?_idxOf hmem
  unfold resultOf resultColumn
  rw [hright _ _ (headerAt_succ.mpr ⟨hget, hnamed⟩)]
  rfl

/-- The key of a record is the numeric result of its row, or the lowest. -/
theorem resultOrLowest_of_right (hresult : resultHeader ∈ headersOf py header)
    (hright : Right py header row record)
    (hnan : ¬ IsNan (valueAt py row (resultColumn py header))) :
    resultOrLowest record = some ((resultAt py header row).getD ⊥) := by
  unfold resultOrLowest resultAt
  rw [resultOf_of_right hresult hright]
  cases hvalue : valueAt py row (resultColumn py header) with
  | text s => rfl
  | int n => rfl
  | float x =>
    cases x with
    | finite q => rfl
    | negZero => rfl
    | nan => exact absurd hvalue hnan
    | infinity negative => cases negative <;> rfl

/-- The rows in the order of their results. -/
theorem pairwise_before (hsettled : (filledRows py rows).Pairwise fun a b =>
      ¬ (resultAt py header a = none ∧ resultAt py header b = some ⊥)) :
    ((filledRows py rows).insertionSort fun a b =>
      (resultAt py header b).getD ⊥ ≤ (resultAt py header a).getD ⊥).Pairwise
        (Before py header) := by
  have htotal : Std.Total fun a b : List Cell =>
      (resultAt py header b).getD ⊥ ≤ (resultAt py header a).getD ⊥ := ⟨fun _ _ => le_total _ _⟩
  have htrans : IsTrans (List Cell) fun a b =>
      (resultAt py header b).getD ⊥ ≤ (resultAt py header a).getD ⊥ :=
    ⟨fun _ _ _ hab hbc => hbc.trans hab⟩
  refine pairwise_insertionSort_of (hsettled.imp fun {a b} hnot hle y hy => ?_)
    fun a _ b _ hnot y hy => ?_
  · -- the lowest key may be that of a row without a result
    rw [hy, Option.getD_some] at hle
    cases ha : resultAt py header a with
    | some x => exact ⟨x, rfl, by rwa [ha] at hle⟩
    | none =>
      rw [ha, Option.getD_none, le_bot_iff] at hle
      exact absurd ⟨ha, by rw [hy, hle]⟩ hnot
  · rw [hy, Option.getD_some, not_le] at hnot
    cases ha : resultAt py header a with
    | some x => exact ⟨x, rfl, by rw [ha] at hnot; exact hnot.le⟩
    | none =>
      rw [ha, Option.getD_none] at hnot
      exact absurd hnot not_lt_bot

/-- The records are sorted as their rows are. -/
theorem parseReport_eq (hplain : PlainHeader py header) (hnan : NoNan py header rows)
    (hresult : resultHeader ∈ headersOf py header) (sorter : Sorter) (topN : ℕ) :
    parseReport py sorter (header :: rows) topN =
      (((filledRows py rows).insertionSort fun a b =>
        (resultAt py header b).getD ⊥ ≤ (resultAt py header a).getD ⊥).take topN).map
          (recordOf py (headersOf py header)) := by
  have hkey : ∀ row ∈ filledRows py rows, resultOrLowest (recordOf py (headersOf py header) row) =
      some ((resultAt py header row).getD ⊥) := fun row hrow =>
    resultOrLowest_of_right hresult (right_recordOf hplain row) (hnan row hrow)
  have hsome : ∀ record ∈ recordsOf py header rows, (resultOrLowest record).isSome = true := by
    intro record hrecord
    obtain ⟨row, hrow, rfl⟩ := List.mem_map.mp hrecord
    rw [hkey row hrow]
    rfl
  have hsort := sorter.stable resultOrLowest _ hsome
  unfold parseReport
  dsimp only
  rw [if_neg (List.ne_nil_of_mem hresult), if_pos hresult, List.map_take]
  refine congrArg (List.take topN) (hsort.trans ?_)
  refine (List.map_insertionSort _ _ _ _ fun a ha b hb => ?_).symm
  rw [hkey a ha, hkey b hb, Option.getD_some, Option.getD_some]

/-- Each of the second list has one of the first. -/
theorem exists_of_forall₂ {α β : Type} {R : α → β → Prop} {l : List α} {l' : List β} {b : β}
    (h : List.Forall₂ R l l') (hb : b ∈ l') : ∃ a ∈ l, R a b := by
  induction h with
  | nil => cases hb
  | @cons a c l l' hac _ ih =>
    rcases List.mem_cons.mp hb with rfl | hb
    · exact ⟨a, List.mem_cons_self, hac⟩
    · obtain ⟨a', ha', hab⟩ := ih hb
      exact ⟨a', List.mem_cons_of_mem a ha', hab⟩

/-- What is so of the rows in their order is so of the records. -/
theorem pairwise_records (hresult : resultHeader ∈ headersOf py header)
    {order : List (List Cell)} (horder : order.Pairwise (Before py header))
    (hright : List.Forall₂ (Right py header) order records) :
    records.Pairwise fun a b => ∀ y, numeric (resultOf b) = some y →
      ∃ x, numeric (resultOf a) = some x ∧ y ≤ x := by
  induction hright with
  | nil => exact List.Pairwise.nil
  | @cons row record order records hrow hmore ih =>
    obtain ⟨hfirst, horder⟩ := List.pairwise_cons.mp horder
    refine List.pairwise_cons.mpr ⟨fun other hother y hy => ?_, ih horder⟩
    obtain ⟨row', hrow', hright'⟩ := exists_of_forall₂ hmore hother
    rw [resultOf_of_right hresult hright'] at hy
    rw [resultOf_of_right hresult hrow]
    exact hfirst row' hrow' y hy

/-- Under plain headers, and without floats that are no numbers, the records are ordered by their
results however many are asked for exactly when none is minus infinity after one without. -/
theorem ordered_iff (hplain : PlainHeader py header) (hnan : NoNan py header rows)
    (sorter : Sorter) :
    (∀ topN, Ordered py header rows topN (parseReport py sorter (header :: rows) topN)) ↔
      Settled py header rows := by
  constructor
  · intro hordered hresult
    obtain ⟨order, hperm, hbefore, hright⟩ := hordered (filledRows py rows).length hresult
    rw [← hperm.length_eq, List.take_length, parseReport_eq hplain hnan hresult,
      hperm.length_eq] at hright
    have hlength : ((filledRows py rows).insertionSort fun a b =>
        (resultAt py header b).getD ⊥ ≤ (resultAt py header a).getD ⊥).length =
          (filledRows py rows).length := List.length_insertionSort _ _
    rw [← hlength, List.take_length] at hright
    have hpairs := pairwise_records hresult hbefore hright
    rw [List.pairwise_map] at hpairs
    rw [List.pairwise_iff_forall_sublist] at hpairs ⊢
    rintro a b hsub ⟨ha, hb⟩
    -- equal keys keep their order
    have hle : (resultAt py header b).getD ⊥ ≤ (resultAt py header a).getD ⊥ := by
      rw [ha, hb]
      exact le_rfl
    have hpair := hpairs (List.pair_sublist_insertionSort hle hsub)
    rw [resultOf_of_right hresult (right_recordOf hplain a),
      resultOf_of_right hresult (right_recordOf hplain b)] at hpair
    obtain ⟨x, hx, -⟩ := hpair ⊥ hb
    have hnone : numeric (valueAt py a (resultColumn py header)) = none := ha
    rw [hnone] at hx
    cases hx
  · intro hsettled topN hresult
    refine ⟨_, List.perm_insertionSort _ _, pairwise_before (hsettled hresult), ?_⟩
    rw [parseReport_eq hplain hnan hresult, List.forall₂_map_right_iff, List.forall₂_same]
    exact fun row _ => right_recordOf hplain row

/-! ## The whole report -/

variable (py) in
/-- The records are right, and ordered by their results. -/
def LinesUp (header : List Cell) (rows : List (List Cell)) (topN : ℕ) (records : List Record) :
    Prop := Aligned py header rows records ∧ Ordered py header rows topN records

/-- Plain headers are what the values need to be under the headers of their columns, whatever rows
there are; and then, without floats that are no numbers, the whole report is as it should be exactly
when no result is minus infinity after a row without one. -/
theorem linesUp_iff (py : Numerals) (sorter : Sorter) (header : List Cell) :
    ((∀ rows topN, Aligned py header rows (parseReport py sorter (header :: rows) topN)) ↔
      PlainHeader py header) ∧
    (PlainHeader py header → ∀ rows, NoNan py header rows →
      ((∀ topN, LinesUp py header rows topN (parseReport py sorter (header :: rows) topN)) ↔
        Settled py header rows)) := by
  refine ⟨aligned_iff sorter header, fun hplain rows hnan => ?_⟩
  rw [← ordered_iff hplain hnan sorter]
  constructor
  · exact fun h topN => (h topN).2
  · exact fun h topN => ⟨(aligned_iff sorter header).mpr hplain rows topN, h topN⟩

/-- Decimal numbers without a sign. -/
def plainNumerals : Numerals where
  floatOf text := (Decimal.decimalValue text).map Number.finite
  strFloat _ := []
  decimal := PyInt.asciiDecimal

/-- The stable sort. -/
def stableSorter : Sorter where
  sort key records := records.insertionSort fun a b => (key b).getD ⊥ ≤ (key a).getD ⊥
  perm _ _ := List.perm_insertionSort _ _
  stable _ _ _ := rfl

/-- A cell without an index. -/
def plainCell (text : String) : Cell := ⟨none, some text.toList⟩

/-- Headers with a blank one before the last. -/
def gapHeader : List Cell := [plainCell "Pass", plainCell "", plainCell "Result"]

/-- A row with a value in the first and the last column. -/
def gapRow : List Cell := [plainCell "7", plainCell "", plainCell "19.5"]

/-- The result of the row is lost: the record has the value of the blank column. -/
theorem not_linesUp : ¬ ∀ (py : Numerals) (sorter : Sorter) (header : List Cell)
    (rows : List (List Cell)) (topN : ℕ),
    LinesUp py header rows topN (parseReport py sorter (header :: rows) topN) := by
  intro h
  obtain ⟨picked, hpicked, hright⟩ := (h plainNumerals stableSorter gapHeader [gapRow] 1).1
  have hrecords : parseReport plainNumerals stableSorter (gapHeader :: [gapRow]) 1 =
      [[("Pass".toList, .int 7), ("Result".toList, blank)]] := by decide +kernel
  have hfilled : filledRows plainNumerals [gapRow] = [gapRow] := by decide +kernel
  rw [hrecords] at hright
  rw [hfilled] at hpicked
  obtain ⟨row, more, hrow, -, rfl⟩ := List.forall₂_cons_right_iff.mp hright
  obtain rfl : row = gapRow := by simpa using hpicked.subset List.mem_cons_self
  have hresult := hrow 3 "Result".toList (by decide +kernel)
  have hvalue : valueAt plainNumerals gapRow 3 = .float (.finite (39 / 2)) := by decide +kernel
  rw [hvalue] at hresult
  revert hresult
  decide

end Backtest.OptReport

import Mathlib.Data.List.MinMax
import Mt5HttpApi.Backtest.IniBuilder
import Mt5HttpApi.Lib.Effects
import Mt5HttpApi.Lib.Utf16

/-!
# The rows of an optimisation cache

`parse_opt_cache_rows` of `mt5api/backtest/cache_parser.py`. The layout of the file is not known:
the records are found by the symbols in them, and the metrics by their distance from the symbol.
What becomes of the bytes is a computation that logs every slice and every `struct.unpack_from`.

* `detectRowLayout_fits`: a layout that is found fits the file.
* `meets_scoreProfile`: a profile that scores less than infinity is inside every record.
* `parse_safe`: whatever the bytes are, rows are returned or a `ValueError` is raised, and every
  read is inside its record.
-/

namespace Backtest.OptCache

open Effects

/-! ## Reading bytes -/

/-- What a step raises. -/
inductive Raised
  /-- A `ValueError` with its text. -/
  | value (message : List Char)
  /-- A `struct.error`. -/
  | struct
  /-- A `KeyError`. -/
  | key (name : List Char)
  deriving DecidableEq, Repr

/-- A read of bytes. -/
inductive Event
  /-- A slice of the file for a record, and how many bytes it had. -/
  | record (got : ℕ)
  /-- A slice of a record of some length. -/
  | part (start stop : ℤ) (length : ℕ)
  /-- `struct.unpack_from` of some bytes of a record of some length. -/
  | unpacked (offset : ℤ) (width length : ℕ)
  deriving DecidableEq, Repr

/-- The read is of a whole record, or inside of one. -/
def Event.Inside (stride : ℕ) : Event → Prop
  | record got => got = stride
  | part start stop length => 0 ≤ start ∧ start ≤ stop ∧ stop ≤ length
  | unpacked offset width length => 0 ≤ offset ∧ offset + width ≤ length

/-- A computation that reads bytes. -/
abbrev Parse := ExceptT Raised (StateM (List Event))

/-- A bound of a slice: a negative one is counted from the end. -/
def bound (length : ℕ) (i : ℤ) : ℕ := (if i < 0 then i + length else i).toNat

/-- `data[start:stop]`. -/
def slice (data : List UInt8) (start stop : ℤ) : List UInt8 :=
  (data.take (bound data.length stop)).drop (bound data.length start)

/-- The bytes that `struct.unpack_from` reads. A negative offset is counted from the end. -/
def unpackFrom (width : ℕ) (record : List UInt8) (offset : ℤ) : Parse (List UInt8) := do
  modify (· ++ [Event.unpacked offset width record.length])
  let start := if offset < 0 then offset + record.length else offset
  if start < 0 ∨ record.length < start + width then throw .struct
  else pure ((record.drop start.toNat).take width)

/-- A little-endian number. -/
def littleEndian : List UInt8 → ℕ
  | [] => 0
  | b :: rest => b.toNat + 256 * littleEndian rest

/-- `struct.unpack_from("<I", record, offset)[0]`. -/
def unpackInt (record : List UInt8) (offset : ℤ) : Parse ℕ := do
  let bytes ← unpackFrom 4 record offset
  pure (littleEndian bytes)

/-- `struct.unpack_from("<d", record, offset)[0]`. -/
def unpackDouble (record : List UInt8) (offset : ℤ) : Parse Float := do
  let bytes ← unpackFrom 8 record offset
  pure (Float.ofBits (littleEndian bytes).toUInt64)

/-! ## The layout of the rows -/

/-- A character of ASCII that is printed. -/
def isPrintable (b : UInt8) : Bool := 0x20 ≤ b.toNat && b.toNat ≤ 0x7E

/-- The characters of the pairs that bytes begin with, `(?:[\x20-\x7E]\x00)*`. -/
def pairs : List UInt8 → List Char
  | a :: b :: rest => if isPrintable a ∧ b = 0 then Char.ofNat a.toNat :: pairs rest else []
  | _ => []

/-- `iter_utf16_strings_with_offsets`, from a position on, after some bytes of the last match. -/
def utf16Strings (position skip : ℕ) : List UInt8 → List (ℕ × List Char)
  | [] => []
  | b :: rest =>
    if 0 < skip then utf16Strings (position + 1) (skip - 1) rest
    else
      let text := pairs (b :: rest)
      if 3 ≤ text.length then
        (position, text) :: utf16Strings (position + 1) (2 * text.length - 1) rest
      else utf16Strings (position + 1) 0 rest

/-- `[A-Z0-9.#_-]`, in any case: four letters outside ASCII are of these in another case. -/
def isSymbolChar (c : Char) : Bool :=
  c.isAlphanum || c ∈ ['.', '#', '_', '-', '\u0130', '\u0131', '\u017F', '\u212A']

/-- `OPT_CACHE_SYMBOL_RE.fullmatch`. -/
def isSymbol (text : List Char) : Bool :=
  3 ≤ text.length && text.length ≤ 20 && text.all isSymbolChar

/-- The order in which a set of numbers is gone through. -/
structure SetOrder where
  iter : List ℕ → List ℕ
  mem_iter : ∀ l n, n ∈ iter l ↔ n ∈ l

/-- Where the rows of a file are. -/
structure Layout where
  stride : ℕ
  rowCount : ℕ
  rowStart : ℤ
  symbolOffset : ℤ
  symbolOffsets : List ℕ
  deriving DecidableEq, Repr

/-- The longer one, or the one that was found first. -/
def longer (current best : List ℕ) : List ℕ :=
  if best.length < current.length then current else best

/-- The longest run of offsets with a distance. -/
def bestRun (stride : ℕ) : (current best offsets : List ℕ) → List ℕ
  | current, best, [] => longer current best
  | current, best, offset :: rest =>
    if (offset : ℤ) - current.getLastD 0 = stride then
      bestRun stride (current ++ [offset]) best rest
    else bestRun stride [offset] (longer current best) rest

/-- The distances of offsets. -/
def deltas (offsets : List ℕ) : List ℕ :=
  (offsets.zip offsets.tail).filterMap fun pair =>
    if pair.1 < pair.2 then some (pair.2 - pair.1) else none

/-- `detect_opt_cache_row_layout`. -/
def detectRowLayout (order : SetOrder) (data : List UInt8) : Option Layout :=
  let offsets := ((utf16Strings 0 0 data).filter fun found => isSymbol found.2).map Prod.fst
  match offsets.mergeSort (· ≤ ·) with
  | first :: second :: more =>
    let found := deltas (first :: second :: more)
    match List.argmax (found.count ·) (order.iter found) with
    | none => none
    | some stride =>
      let run := bestRun stride [first] [] (second :: more)
      if run.length < 2 then none
      else
        let rowStart : ℤ := data.length - run.length * stride
        let symbolOffset : ℤ := run.headD 0 - rowStart
        if rowStart < 0 ∨ symbolOffset < 0 ∨ (stride : ℤ) ≤ symbolOffset then none
        else some ⟨stride, run.length, rowStart, symbolOffset, run⟩
  | _ => none

/-! ## The metrics -/

/-- A candidate of `OPT_CACHE_PROFILE_CANDIDATES`. -/
structure Profile where
  name : List Char
  metricRelativeOffsets : List (List Char × ℤ)
  tradesRelativeOffset : ℤ

/-- `symbol-relative-v1`. -/
def symbolRelativeV1 : Profile where
  name := "symbol-relative-v1".toList
  metricRelativeOffsets := [("Result".toList, -272), ("Profit".toList, -256),
    ("Expected Payoff".toList, -104), ("Profit Factor".toList, -96),
    ("Recovery Factor".toList, -88), ("Sharpe Ratio".toList, -80), ("Equity DD %".toList, -112)]
  tradesRelativeOffset := -52

/-- `OPT_CACHE_PROFILE_CANDIDATES`. -/
def profileCandidates : List Profile := [symbolRelativeV1]

/-- `float("inf")`. -/
def infinity : Float := Float.ofBits 0x7FF0000000000000

/-- The values of a record, by column. -/
abbrev Values := List (List Char × Float)

/-- The values of the columns, unless one is outside the record. -/
def readMetrics (record : List UInt8) :
    List (List Char × ℤ) → Values → Parse (Option Values)
  | [], values => pure (some values)
  | (column, offset) :: more, values =>
    if offset < 0 ∨ (record.length : ℤ) < offset + 8 then pure none
    else do
      let value ← unpackDouble record offset
      readMetrics record more (Dict.set values column value)

/-- `values[column]`. -/
def valueOf (values : Values) (column : List Char) : Parse Float :=
  match Dict.get values column with
  | some value => pure value
  | none => throw (.key column)

/-- What the loop over the records counts. -/
structure Tally where
  penalties : Float
  validRows : ℕ
  payoffErrorTotal : Float

/-- One record of `score_opt_cache_profile`, unless a field is outside of it. -/
def scoreRecord (metricOffsets : List (List Char × ℤ)) (tradesOffset : ℤ) (tally : Tally)
    (record : List UInt8) : Parse (Option Tally) :=
  if tradesOffset < 0 ∨ (record.length : ℤ) < tradesOffset + 4 then pure none
  else do
    let trades ← unpackInt record tradesOffset
    if trades = 0 then pure (some { tally with penalties := tally.penalties + 1000 })
    else
      match ← readMetrics record metricOffsets [] with
      | none => pure none
      | some values =>
        let profit ← valueOf values "Profit".toList
        let expectedPayoff ← valueOf values "Expected Payoff".toList
        let equityDd ← valueOf values "Equity DD %".toList
        let profitFactor ← valueOf values "Profit Factor".toList
        let payoffError := (profit - expectedPayoff * Float.ofNat trades).abs
        let afterEquity :=
          if 0 ≤ equityDd ∧ equityDd ≤ 1000 then tally.penalties else tally.penalties + 50
        pure (some {
          penalties := if profitFactor ≤ 0 then afterEquity + 10 else afterEquity
          validRows := tally.validRows + 1
          payoffErrorTotal := tally.payoffErrorTotal + payoffError })

/-- The loop of `score_opt_cache_profile`. -/
def scoreRecords (metricOffsets : List (List Char × ℤ)) (tradesOffset : ℤ) :
    List (List UInt8) → Tally → Parse (Option Tally)
  | [], tally => pure (some tally)
  | record :: records, tally => do
    match ← scoreRecord metricOffsets tradesOffset tally record with
    | none => pure none
    | some tally => scoreRecords metricOffsets tradesOffset records tally

/-- `score_opt_cache_profile`. -/
def scoreProfile (records : List (List UInt8)) (metricOffsets : List (List Char × ℤ))
    (tradesOffset : ℤ) : Parse Float := do
  match ← scoreRecords metricOffsets tradesOffset records ⟨0, 0, 0⟩ with
  | none => pure infinity
  | some tally =>
    if tally.validRows = 0 then pure infinity
    else pure (tally.penalties + tally.payoffErrorTotal / Float.ofNat tally.validRows)

/-- A profile for a file. -/
structure MetricLayout where
  name : List Char
  metricOffsets : List (List Char × ℤ)
  tradesOffset : ℤ
  score : Float

/-- A slice of the file for a record. -/
def sliceRecord (data : List UInt8) (layout : Layout) (index : ℕ) : Parse (List UInt8) := do
  let start := layout.rowStart + index * layout.stride
  let record := slice data start (start + layout.stride)
  modify (· ++ [Event.record record.length])
  pure record

/-- A candidate with its offsets in the records. -/
def Profile.offsets (profile : Profile) (layout : Layout) : List (List Char × ℤ) :=
  profile.metricRelativeOffsets.map fun column => (column.1, layout.symbolOffset + column.2)

/-- The loop of `detect_opt_cache_metric_layout`. A score of infinity is never better, and one that
is no number always is. -/
def bestProfile (layout : Layout) (records : List (List UInt8)) :
    List Profile → Option MetricLayout → Float → Parse (Option MetricLayout)
  | [], best, _ => pure best
  | profile :: more, best, bestScore => do
    let tradesOffset := layout.symbolOffset + profile.tradesRelativeOffset
    let score ← scoreProfile records (profile.offsets layout) tradesOffset
    if bestScore ≤ score then bestProfile layout records more best bestScore
    else
      let better := ⟨profile.name, profile.offsets layout, tradesOffset, score⟩
      bestProfile layout records more (some better) score

/-- `detect_opt_cache_metric_layout`. -/
def detectMetricLayout (layout : Layout) (data : List UInt8) : Parse (Option MetricLayout) := do
  let records ← (List.range layout.rowCount).mapM (sliceRecord data layout)
  bestProfile layout records profileCandidates none infinity

/-! ## The rows -/

/-- The exact value of a float, if it has one. -/
def exact (x : Float) : Option ℚ :=
  match x.toModel.unpack with
  | .finite sign mantissa exponent _ => some (sign.apply mantissa * (2 : ℚ) ^ exponent)
  | .zero _ => some 0
  | .infinity _ | .notANumber => none

/-- `round(x, 2)`, but for the sign of zero. -/
def roundHundredths (x : Float) : Float :=
  match exact x with
  | none => x
  | some q =>
    let hundredths := IniBuilder.roundHalfEven (q * 100)
    let size := Float.ofScientific hundredths.natAbs true 2
    if hundredths < 0 then -size else size

/-- A metric in a row. -/
inductive Metric
  | int (n : ℤ)
  | float (x : Float)

/-- `format_cache_metric`. -/
def formatCacheMetric (value : Float) : Metric :=
  let rounded := roundHundredths value
  match exact rounded with
  | none => .float rounded
  | some q => if q.den = 1 then .int q.num else .float rounded

/-- `decode_utf16_c_string`. -/
def decodeCString (data : List UInt8) : List Char :=
  ((Utf16.items .little data).filterMap Codec.Item.char).takeWhile (· ≠ '\x00')

/-- A row. -/
structure Row where
  symbol : List Char
  pass : ℤ
  custom : List Char
  metrics : List (List Char × Metric)
  trades : ℕ

/-- The metrics of a row. -/
def rowMetrics (record : List UInt8) (metricOffsets : List (List Char × ℤ)) :
    Parse (List (List Char × Metric)) :=
  metricOffsets.mapM fun column => do
    let value ← unpackDouble record column.2
    pure (column.1, formatCacheMetric value)

/-- The row of a record, if there is a symbol in it. -/
def parseRow (layout : Layout) (metric : MetricLayout) (symbolToPass : List (List Char × ℤ))
    (data : List UInt8) (index : ℕ) : Parse (Option Row) := do
  let record ← sliceRecord data layout index
  if record.length < layout.stride then pure none
  else
    modify (· ++ [Event.part layout.symbolOffset layout.stride record.length])
    let symbol := decodeCString (slice record layout.symbolOffset layout.stride)
    if symbol = [] ∨ !isSymbol symbol then pure none
    else
      let metrics ← rowMetrics record metric.metricOffsets
      let trades ← unpackInt record metric.tradesOffset
      pure (some ⟨symbol, (Dict.get symbolToPass symbol).getD index, [], metrics, trades⟩)

/-- `parse_opt_cache_rows`. The logs of the agents give symbols with their passes, or the text of
the `ValueError` of `strptime` or `int`. -/
def parseOptCacheRows (order : SetOrder) (logs : Except (List Char) (List (List Char × ℤ)))
    (data : List UInt8) : Parse (List Row) :=
  match detectRowLayout order data with
  | none => throw (.value "could not detect MT5 optimization row layout in cache".toList)
  | some layout => do
    match ← detectMetricLayout layout data with
    | none => throw (.value "could not detect MT5 optimization metric layout in cache".toList)
    | some metric =>
      let entries ← MonadExcept.ofExcept (logs.mapError Raised.value)
      let symbolToPass := entries.foldl (fun found entry => Dict.set found entry.1 entry.2) []
      let rows ← (List.range layout.rowCount).mapM (parseRow layout metric symbolToPass data)
      pure (rows.filterMap id)

/-! ## The layout fits the file -/

/-- The rows are the end of a file of some length, and a symbol begins inside its row. -/
structure Layout.Fits (layout : Layout) (length : ℕ) : Prop where
  stride_pos : 0 < layout.stride
  rowStart_nonneg : 0 ≤ layout.rowStart
  ends : layout.rowStart + layout.rowCount * layout.stride = length
  symbolOffset_nonneg : 0 ≤ layout.symbolOffset
  symbolOffset_lt : layout.symbolOffset < layout.stride

variable {order : SetOrder} {data record : List UInt8} {layout : Layout} {stride width : ℕ}
  {offset tradesOffset : ℤ} {metricOffsets : List (List Char × ℤ)}

/-- No distance is zero. -/
theorem pos_of_mem_deltas {offsets : List ℕ} {delta : ℕ} (h : delta ∈ deltas offsets) :
    0 < delta := by
  obtain ⟨pair, -, hpair⟩ := List.mem_filterMap.mp h
  split_ifs at hpair with hlt
  obtain rfl := Option.some.inj hpair
  omega

/-- A layout that is found fits the file. -/
theorem detectRowLayout_fits (h : detectRowLayout order data = some layout) :
    layout.Fits data.length := by
  unfold detectRowLayout at h
  dsimp only at h
  split at h
  next first second more _ =>
    split at h
    next => cases h
    next stride hstride =>
      have hmem := (order.mem_iter _ _).mp (List.argmax_mem hstride)
      split at h
      next => cases h
      next =>
        split at h
        next => cases h
        next hinside =>
          obtain rfl := Option.some.inj h
          -- what the last check leaves over
          rw [not_or, not_or, not_lt, not_lt, not_le] at hinside
          exact ⟨pos_of_mem_deltas hmem, hinside.1, by simp, hinside.2.1, hinside.2.2⟩
  next => cases h

/-! ## Every read is inside -/

/-- A `ValueError`. -/
def Raised.IsValue : Raised → Prop
  | value _ => True
  | _ => False

/-- Every read so far is. -/
def AllInside (stride : ℕ) (log : List Event) : Prop := ∀ event ∈ log, event.Inside stride

/-- All reads are inside, nothing but a `ValueError` is raised, and what is returned has `Q`. -/
abbrev Safe {α : Type} (stride : ℕ) (Q : α → Prop) (m : Parse α) : Prop :=
  Meets (AllInside stride) Raised.IsValue Q m

theorem safe_log {event : Event} (h : event.Inside stride) :
    Safe stride (fun _ => True) (modify (· ++ [event])) := by
  refine Meets.modify fun log hlog => ?_
  intro other hother
  rcases List.mem_append.mp hother with hold | hnew
  · exact hlog other hold
  · rw [List.mem_singleton.mp hnew]
    exact h

theorem safe_unpackFrom (h : 0 ≤ offset ∧ offset + width ≤ record.length) :
    Safe stride (fun _ => True) (unpackFrom width record offset) := by
  refine Meets.bind (safe_log h) fun _ _ => ?_
  have hstart : ¬ offset < 0 := by omega
  have hinside : ¬ (offset < 0 ∨ (record.length : ℤ) < offset + width) := by omega
  dsimp only
  rw [if_neg hstart, if_neg hinside]
  exact Meets.pure trivial

theorem safe_unpackInt (h : 0 ≤ offset ∧ offset + 4 ≤ record.length) :
    Safe stride (fun _ => True) (unpackInt record offset) :=
  Meets.bind (safe_unpackFrom h) fun _ _ => Meets.pure trivial

theorem safe_unpackDouble (h : 0 ≤ offset ∧ offset + 8 ≤ record.length) :
    Safe stride (fun _ => True) (unpackDouble record offset) :=
  Meets.bind (safe_unpackFrom h) fun _ _ => Meets.pure trivial

/-- Columns that are in every record of some length. -/
def MetricsFit (length : ℕ) (metricOffsets : List (List Char × ℤ)) : Prop :=
  ∀ column ∈ metricOffsets, 0 ≤ column.2 ∧ column.2 + 8 ≤ length

/-- A profile that is. -/
def ProfileFits (length : ℕ) (metricOffsets : List (List Char × ℤ)) (tradesOffset : ℤ) : Prop :=
  MetricsFit length metricOffsets ∧ 0 ≤ tradesOffset ∧ tradesOffset + 4 ≤ length

/-- Values are only returned when all columns are in the record, and each column is there. -/
theorem safe_readMetrics (values : Values) : Safe stride
    (fun out => ∀ read ∈ out, MetricsFit record.length metricOffsets ∧
      ∀ name, (Dict.get values name).isSome = true ∨ name ∈ metricOffsets.map Prod.fst →
        (Dict.get read name).isSome = true)
    (readMetrics record metricOffsets values) := by
  induction metricOffsets generalizing values with
  | nil =>
    refine Meets.pure ?_
    intro read hread
    obtain rfl := Option.some.inj hread
    exact ⟨by simp [MetricsFit], fun name hname => by simpa using hname⟩
  | cons column more ih =>
    obtain ⟨name, offset⟩ := column
    unfold readMetrics
    split
    next =>
      exact Meets.pure (by simp)
    next hinside =>
      have hfits : 0 ≤ offset ∧ offset + 8 ≤ record.length := by omega
      refine Meets.bind (safe_unpackDouble hfits) fun value _ => ?_
      refine Meets.imp (ih (Dict.set values name value)) fun out hout read hread => ?_
      obtain ⟨hmore, hnames⟩ := hout read hread
      refine ⟨List.forall_mem_cons.mpr ⟨hfits, hmore⟩, fun other hother => hnames other ?_⟩
      rw [Dict.get_set]
      by_cases hname : other = name
      · rw [if_pos hname]
        exact .inl rfl
      · rw [if_neg hname]
        simpa [hname] using hother

/-- A value that is there. -/
theorem safe_valueOf {values : Values} {name : List Char}
    (h : (Dict.get values name).isSome = true) :
    Safe stride (fun _ => True) (valueOf values name) := by
  obtain ⟨value, hvalue⟩ := Option.isSome_iff_exists.mp h
  unfold valueOf
  rw [hvalue]
  exact Meets.pure trivial

/-- The columns that the score is made of. -/
def scoredColumns : List (List Char) :=
  ["Profit".toList, "Expected Payoff".toList, "Equity DD %".toList, "Profit Factor".toList]

/-- A record counts only if the profile fits it. -/
theorem safe_scoreRecord (hcolumns : ∀ name ∈ scoredColumns, name ∈ metricOffsets.map Prod.fst)
    (tally : Tally) : Safe stride
    (fun out => ∀ after ∈ out, after.validRows = tally.validRows ∨
      ProfileFits record.length metricOffsets tradesOffset)
    (scoreRecord metricOffsets tradesOffset tally record) := by
  unfold scoreRecord
  split
  next => exact Meets.pure (by simp)
  next hinside =>
    have htrades : 0 ≤ tradesOffset ∧ tradesOffset + 4 ≤ record.length := by omega
    refine Meets.bind (safe_unpackInt htrades) fun trades _ => ?_
    split
    next =>
      refine Meets.pure ?_
      intro after hafter
      obtain rfl := Option.some.inj hafter
      exact .inl rfl
    next =>
      refine Meets.bind (safe_readMetrics []) fun out hout => ?_
      cases out with
      | none => exact Meets.pure (by simp)
      | some values =>
        obtain ⟨hfits, hnames⟩ := hout values rfl
        have hvalue : ∀ name ∈ scoredColumns, Safe stride (fun _ => True) (valueOf values name) :=
          fun name hname => safe_valueOf (hnames name (.inr (hcolumns name hname)))
        refine Meets.bind (hvalue _ (by simp [scoredColumns])) fun _ _ => ?_
        refine Meets.bind (hvalue _ (by simp [scoredColumns])) fun _ _ => ?_
        refine Meets.bind (hvalue _ (by simp [scoredColumns])) fun _ _ => ?_
        refine Meets.bind (hvalue _ (by simp [scoredColumns])) fun _ _ => ?_
        exact Meets.pure fun after _ => .inr ⟨hfits, htrades⟩

/-- So does any of records of one length. -/
theorem safe_scoreRecords (hcolumns : ∀ name ∈ scoredColumns, name ∈ metricOffsets.map Prod.fst)
    {records : List (List UInt8)} {length : ℕ}
    (hlength : ∀ record ∈ records, record.length = length)
    (tally : Tally) : Safe stride
    (fun out => ∀ after ∈ out, after.validRows = tally.validRows ∨
      ProfileFits length metricOffsets tradesOffset)
    (scoreRecords metricOffsets tradesOffset records tally) := by
  induction records generalizing tally with
  | nil =>
    refine Meets.pure ?_
    intro after hafter
    obtain rfl := Option.some.inj hafter
    exact .inl rfl
  | cons record records ih =>
    obtain ⟨hrecord, hrecords⟩ := List.forall_mem_cons.mp hlength
    refine Meets.bind (safe_scoreRecord hcolumns tally) fun out hout => ?_
    cases out with
    | none => exact Meets.pure (by simp)
    | some next =>
      have hnext := hout next rfl
      rw [hrecord] at hnext
      refine Meets.imp (ih hrecords next) fun out hmore after hafter => ?_
      rcases hmore after hafter with hsame | hfits
      · rwa [hsame]
      · exact .inr hfits

/-- A profile that scores less than infinity, or no number, fits the records. -/
theorem safe_scoreProfile (hcolumns : ∀ name ∈ scoredColumns, name ∈ metricOffsets.map Prod.fst)
    {records : List (List UInt8)} {length : ℕ}
    (hlength : ∀ record ∈ records, record.length = length) : Safe stride
    (fun score => ¬ infinity ≤ score → ProfileFits length metricOffsets tradesOffset)
    (scoreProfile records metricOffsets tradesOffset) := by
  have hinfinity : infinity ≤ infinity := by decide
  refine Meets.bind (safe_scoreRecords hcolumns hlength ⟨0, 0, 0⟩) fun out hout => ?_
  cases out with
  | none => exact Meets.pure fun hscore => absurd hinfinity hscore
  | some tally =>
    dsimp only
    split
    next => exact Meets.pure fun hscore => absurd hinfinity hscore
    next hvalid =>
      refine Meets.pure fun _ => ?_
      rcases hout tally rfl with hnone | hfits
      · exact absurd hnone hvalid
      · exact hfits

/-- A record is a whole row. -/
theorem safe_sliceRecord (hfits : layout.Fits data.length) {index : ℕ}
    (hindex : index < layout.rowCount) : Safe layout.stride
    (fun record => record.length = layout.stride) (sliceRecord data layout index) := by
  obtain ⟨hpos, hstart, hends, -, -⟩ := hfits
  have hnext : (index + 1) * layout.stride ≤ layout.rowCount * layout.stride :=
    Nat.mul_le_mul_right _ hindex
  have hlength : (slice data (layout.rowStart + index * layout.stride)
      (layout.rowStart + index * layout.stride + layout.stride)).length = layout.stride := by
    obtain ⟨start, hrow⟩ := Int.eq_ofNat_of_zero_le hstart
    rw [hrow] at hends ⊢
    have hnat : start + layout.rowCount * layout.stride = data.length := by exact_mod_cast hends
    have hlow : bound data.length ((start : ℤ) + index * layout.stride) =
        start + index * layout.stride := by
      unfold bound
      rw [if_neg (not_lt.mpr (by exact_mod_cast Nat.zero_le _))]
      rfl
    have hhigh : bound data.length ((start : ℤ) + index * layout.stride + layout.stride) =
        start + index * layout.stride + layout.stride := by
      unfold bound
      rw [if_neg (not_lt.mpr (by exact_mod_cast Nat.zero_le _))]
      rfl
    unfold slice
    rw [hlow, hhigh, List.length_drop, List.length_take]
    rw [add_one_mul] at hnext
    omega
  unfold sliceRecord
  refine Meets.bind (safe_log hlength) fun _ _ => Meets.pure hlength

/-- A profile that is detected fits the rows. -/
theorem safe_detectMetricLayout (hfits : layout.Fits data.length) : Safe layout.stride
    (fun out => ∀ metric ∈ out, ProfileFits layout.stride metric.metricOffsets metric.tradesOffset)
    (detectMetricLayout layout data) := by
  have hslices := Meets.mapM (l := List.range layout.rowCount) fun index hindex =>
    safe_sliceRecord hfits (List.mem_range.mp hindex)
  refine Meets.bind hslices fun records hrecords => ?_
  have hcolumns : ∀ name ∈ scoredColumns,
      name ∈ (symbolRelativeV1.offsets layout).map Prod.fst := by
    unfold Profile.offsets
    rw [List.map_map]
    exact (by decide : ∀ name ∈ scoredColumns,
      name ∈ symbolRelativeV1.metricRelativeOffsets.map Prod.fst)
  unfold profileCandidates bestProfile
  refine Meets.bind (safe_scoreProfile hcolumns hrecords) fun score hscore => ?_
  split
  next => exact Meets.pure (by simp)
  next hbetter =>
    refine Meets.pure fun metric hmetric => ?_
    obtain rfl := Option.some.inj hmetric
    exact hscore hbetter

/-- A row is read inside its record. -/
theorem safe_parseRow (hfits : layout.Fits data.length) {metric : MetricLayout}
    (hmetric : ProfileFits layout.stride metric.metricOffsets metric.tradesOffset)
    (symbolToPass : List (List Char × ℤ)) {index : ℕ} (hindex : index < layout.rowCount) :
    Safe layout.stride (fun _ => True) (parseRow layout metric symbolToPass data index) := by
  refine Meets.bind (safe_sliceRecord hfits hindex) fun record hrecord => ?_
  rw [← hrecord] at hmetric
  split
  next => exact Meets.pure trivial
  next =>
    have hpart : Event.Inside layout.stride
        (.part layout.symbolOffset layout.stride record.length) :=
      ⟨hfits.symbolOffset_nonneg, hfits.symbolOffset_lt.le, by rw [hrecord]⟩
    refine Meets.bind (safe_log hpart) fun _ _ => ?_
    dsimp only
    split
    next => exact Meets.pure trivial
    next =>
      have hmetrics : Safe layout.stride (fun _ => True)
          (rowMetrics record metric.metricOffsets) := by
        refine Meets.imp (Meets.mapM (Q := fun _ => True) fun column hcolumn => ?_)
          fun _ _ => trivial
        exact Meets.bind (safe_unpackDouble (hmetric.1 column hcolumn))
          fun _ _ => Meets.pure trivial
      refine Meets.bind hmetrics fun _ _ => ?_
      exact Meets.bind (safe_unpackInt hmetric.2) fun _ _ => Meets.pure trivial

/-- What is parsed of a file whose layout is found. -/
theorem safe_parseOptCacheRows (hlayout : detectRowLayout order data = some layout)
    (logs : Except (List Char) (List (List Char × ℤ))) :
    Safe layout.stride (fun _ => True) (parseOptCacheRows order logs data) := by
  have hfits := detectRowLayout_fits hlayout
  unfold parseOptCacheRows
  rw [hlayout]
  refine Meets.bind (safe_detectMetricLayout hfits) fun out hout => ?_
  cases out with
  | none => exact Meets.throw trivial
  | some metric =>
    have hlogs : ∀ raised, logs.mapError Raised.value = .error raised → raised.IsValue := by
      intro raised hraised
      cases logs with
      | error message =>
        obtain rfl := Except.error.inj hraised
        trivial
      | ok entries => cases hraised
    refine Meets.bind (Meets.ofExcept hlogs) fun entries _ => ?_
    have hrows := Meets.mapM (l := List.range layout.rowCount) fun index hindex =>
      safe_parseRow hfits (hout metric rfl)
        (entries.foldl (fun found entry => Dict.set found entry.1 entry.2) [])
        (List.mem_range.mp hindex)
    exact Meets.bind hrows fun _ _ => Meets.pure trivial

/-- Whatever bytes the file has, a layout that is found fits it, rows are returned or a `ValueError`
is raised, and every read is of a whole row of the layout or inside of one. -/
theorem parse_safe (order : SetOrder) (logs : Except (List Char) (List (List Char × ℤ)))
    (data : List UInt8) :
    (∀ layout, detectRowLayout order data = some layout → layout.Fits data.length) ∧
      ((∃ message, (run (parseOptCacheRows order logs data) []).1 = .error (.value message)) ∨
        ∃ rows, (run (parseOptCacheRows order logs data) []).1 = .ok rows) ∧
      ∀ event ∈ (run (parseOptCacheRows order logs data) []).2,
        ∃ layout, detectRowLayout order data = some layout ∧ event.Inside layout.stride := by
  refine ⟨fun layout hlayout => detectRowLayout_fits hlayout, ?_⟩
  rcases hlayout : detectRowLayout order data with _ | layout
  · have hparse : parseOptCacheRows order logs data =
        throw (.value "could not detect MT5 optimization row layout in cache".toList) := by
      unfold parseOptCacheRows
      rw [hlayout]
    rw [hparse]
    exact ⟨.inl ⟨_, rfl⟩, fun event hevent => absurd hevent List.not_mem_nil⟩
  · obtain ⟨hinside, hout⟩ := safe_parseOptCacheRows hlayout logs [] (by simp [AllInside])
    refine ⟨?_, fun event hevent => ⟨layout, rfl, hinside event hevent⟩⟩
    rcases hrun : (run (parseOptCacheRows order logs data) []).1 with raised | rows
    · rw [hrun] at hout
      cases raised with
      | value message => exact .inl ⟨message, rfl⟩
      | struct | key => exact hout.elim
    · exact .inr ⟨rows, rfl⟩

end Backtest.OptCache

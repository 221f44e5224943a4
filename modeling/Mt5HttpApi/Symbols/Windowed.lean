import Mt5HttpApi.Lib.Widening
import Mathlib.Data.PNat.Defs
import Mathlib.Data.List.DropRight

/-!
# Queries for a number of bars or ticks

`mt5api/handlers/symbols.py`: the SDK has no query for so many bars from an instant on, and none for
so many ticks up to one. `_fetch_rates` and `get_ticks` ask for the bars or ticks of a window
instead, and of a window of twice the width as long as they are too few.

Nothing that the windows returned is lost if and only if every window can be asked for, and no query
that is answered by `None` comes after one that returned something (`losesNothing_iff`): the answer
`None` throws away what is found.
-/

namespace Symbols.Windowed

open Widening

/-- How a request fails. -/
inductive PyError
  /-- `datetime.fromtimestamp` does not take an instant. -/
  | outOfRange
  /-- An integer is too large for a float. -/
  | tooLarge

/-- The clock of the broker, and the timestamps that `datetime.fromtimestamp` takes: the platform
has a range of its own, and there is no year 10000. -/
structure Clock where
  utcOffsetSeconds : ℤ
  first : ℤ
  last : ℤ
  last_lt : last < 253402300800

namespace Clock

variable (clock : Clock)

/-- `broker_to_utc_seconds` -/
def brokerToUtcSeconds (brokerUnix : ℤ) : ℤ := brokerUnix - clock.utcOffsetSeconds

/-- `broker_to_utc_ms` -/
def brokerToUtcMs (brokerUnixMs : ℤ) : ℤ := brokerUnixMs - clock.utcOffsetSeconds * 1000

/-- `datetime.fromtimestamp` takes this instant, by the clock of the broker. -/
def Takes (utcUnix : ℤ) : Prop :=
  clock.first ≤ utcUnix + clock.utcOffsetSeconds ∧ utcUnix + clock.utcOffsetSeconds ≤ clock.last

instance (utcUnix : ℤ) : Decidable (clock.Takes utcUnix) := by
  unfold Takes
  infer_instance

/-- `utc_seconds_to_broker_dt`, as the timestamp of the result. -/
def utcSecondsToBrokerDt (utcUnix : ℤ) : Except PyError ℤ :=
  if clock.Takes utcUnix then .ok (utcUnix + clock.utcOffsetSeconds) else .error .outOfRange

end Clock

/-- A bar: its time by the clock of the broker, and its other columns. -/
structure Rate (Columns : Type) where
  time : ℤ
  columns : Columns

/-- A tick: its time by the clock of the broker, in seconds and in milliseconds, and its other
columns. -/
structure Tick (Columns : Type) where
  time : ℤ
  timeMsc : ℤ
  time_eq : time = timeMsc / 1000
  columns : Columns

variable {Columns : Type}

/-- A row of `_rates_to_dicts`. -/
def Rate.toDict (clock : Clock) (r : Rate Columns) : Rate Columns :=
  { r with time := clock.brokerToUtcSeconds r.time }

/-- A row of the answer of `get_ticks`. -/
def Tick.toDict (clock : Clock) (t : Tick Columns) : Tick Columns where
  time := clock.brokerToUtcSeconds t.time
  timeMsc := clock.brokerToUtcMs t.timeMsc
  time_eq := by
    have htime := t.time_eq
    rw [Clock.brokerToUtcSeconds, Clock.brokerToUtcMs]
    omega
  columns := t.columns

/-- `TIMEFRAME_SECONDS` -/
def timeframeTable : List (String × ℕ) :=
  [("M1", 60), ("M2", 120), ("M3", 180), ("M4", 240), ("M5", 300),
    ("M6", 360), ("M10", 600), ("M12", 720), ("M15", 900), ("M20", 1200),
    ("M30", 1800), ("H1", 3600), ("H2", 7200), ("H3", 10800), ("H4", 14400),
    ("H6", 21600), ("H8", 28800), ("H12", 43200), ("D1", 86400),
    ("W1", 604800), ("MN1", 2592000)]

/-- `TIMEFRAME_SECONDS.get(tf_str, 60)` -/
def timeframeSeconds (tf : String) : ℕ := (timeframeTable.lookup tf).getD 60

/-- `RATES_FORWARD_MAX_ATTEMPTS` -/
def ratesForwardMaxAttempts : ℕ := 4

/-- Twice `RATES_FORWARD_INITIAL_MULT`. -/
def ratesForwardInitialMult2 : ℕ := 3

/-- `TICKS_BACKWARD_MAX_ATTEMPTS` -/
def ticksBackwardMaxAttempts : ℕ := 6

/-- `TICKS_BACKWARD_FLOOR_WINDOW_SEC` -/
def ticksBackwardFloorWindowSec : ℕ := 60

/-- The least integer that rounds past the floats. -/
def floatLimit : ℕ := 2 ^ 1024 - 2 ^ 970

/-- The SDK's answer to a range query: what its history has inside the window, or `None`. Which of
them it is for each query is up to `answers`. -/
def copyRange {α : Type} {time : α → ℤ} (history : History time) (answers : ℕ → Bool)
    (i : ℕ) (df dt : ℤ) : Option (List α) :=
  if answers i then some (history.within df dt) else none

/-! ## Bars from an instant on -/

section Rates

variable (clock : Clock) (bars : History (@Rate.time Columns)) (answers : ℕ → Bool)
  (tf : String) (anchor : ℤ) (count : ℕ+)

/-- The end of the window for twice a `mult`. -/
def ratesEnd (mult2 : ℕ) : ℤ :=
  -- a product past the floats fails too, as no `datetime` is this late
  anchor + (count * timeframeSeconds tf * mult2 / 2 : ℕ) + timeframeSeconds tf

/-- An attempt of `_fetch_rates`. -/
def askRates (df : ℤ) (i mult2 : ℕ) : Except PyError (Option (List (Rate Columns))) := do
  let endDt ← clock.utcSecondsToBrokerDt (ratesEnd tf anchor count mult2)
  return (copyRange bars answers i df endDt).map
    (List.filter fun r => anchor ≤ clock.brokerToUtcSeconds r.time)

/-- `_fetch_rates` for a positive `count` and a `from`. -/
def fetchRates : Search PyError (Rate Columns) :=
  match clock.utcSecondsToBrokerDt anchor with
  | .error e => ⟨[], .error e⟩
  | .ok df =>
    search (askRates clock bars answers tf anchor count df) count (List.take count)
      ratesForwardMaxAttempts 0 ratesForwardInitialMult2 []

/-- `get_rates` for a positive `count` and a `from`. -/
def getRates : Except PyError (List (Rate Columns)) :=
  (fetchRates clock bars answers tf anchor count).result.map (List.map (Rate.toDict clock))

/-- The answer is an initial part of the bars at or after the anchor: no more than `count`, and no
less than `count` or the bars that some query returned. -/
def RatesKept : Prop :=
  ∃ rows, getRates clock bars answers tf anchor count = .ok rows ∧
    rows <+: (bars.items.filter fun r => anchor ≤ clock.brokerToUtcSeconds r.time).map
      (Rate.toDict clock) ∧
    rows.length ≤ count ∧
    min ↑count (fetchRates clock bars answers tf anchor count).most ≤ rows.length

/-- The end of the window of an attempt. -/
def ratesEndAt (i : ℕ) : ℤ := ratesEnd tf anchor count (2 ^ i * ratesForwardInitialMult2)

/-- The bars in the window of an attempt. -/
def ratesWindow (i : ℕ) : List (Rate Columns) :=
  bars.within (anchor + clock.utcOffsetSeconds)
    (ratesEndAt tf anchor count i + clock.utcOffsetSeconds)

/-- Every window that is asked for can be asked for, and `None` answers only a query before which no
bar was returned. -/
def RatesHeard : Prop :=
  clock.Takes anchor ∧
    NoneLost (fun i => clock.Takes (ratesEndAt tf anchor count i)) answers
      (ratesWindow clock bars tf anchor count) count ratesForwardMaxAttempts

variable {clock bars answers tf anchor count}

/-- Every bar of a window is at or after the anchor, so the filter keeps them all. -/
theorem attempt_askRates :
    attempt (askRates clock bars answers tf anchor count (anchor + clock.utcOffsetSeconds)) 0
      ratesForwardInitialMult2 =
    answered (fun i => clock.Takes (ratesEndAt tf anchor count i)) answers
      (ratesWindow clock bars tf anchor count) PyError.outOfRange := by
  funext i
  have hall : (ratesWindow clock bars tf anchor count i).filter
      (fun r => anchor ≤ clock.brokerToUtcSeconds r.time) =
        ratesWindow clock bars tf anchor count i := by
    rw [List.filter_eq_self]
    intro r hr
    obtain ⟨-, hlo, -⟩ := (History.mem_within _).mp hr
    rw [decide_eq_true_eq, Clock.brokerToUtcSeconds]
    omega
  rw [attempt, askRates, Nat.zero_add, answered, Clock.utcSecondsToBrokerDt, ← ratesEndAt]
  by_cases htakes : clock.Takes (ratesEndAt tf anchor count i)
  · rw [if_pos htakes, if_pos htakes]
    show Except.ok ((copyRange bars answers i _ _).map _) = _
    unfold copyRange
    by_cases hanswers : answers i = true
    · rw [if_pos hanswers, if_pos hanswers]
      exact congrArg (fun items => Except.ok (some items)) hall
    · rw [if_neg hanswers, if_neg hanswers]
      rfl
  · rw [if_neg htakes, if_neg htakes]
    rfl

/-- A wider window ends no earlier. -/
theorem ratesEndAt_le (i : ℕ) :
    ratesEndAt tf anchor count i ≤ ratesEndAt tf anchor count (i + 1) := by
  have hpow : 2 ^ i * ratesForwardInitialMult2 ≤ 2 ^ (i + 1) * ratesForwardInitialMult2 :=
    Nat.mul_le_mul_right _ (Nat.pow_le_pow_right (by omega) (Nat.le_succ i))
  have hdiv := Nat.div_le_div_right (Nat.mul_le_mul_left (count * timeframeSeconds tf) hpow)
    (c := 2)
  rw [ratesEndAt, ratesEndAt, ratesEnd, ratesEnd]
  omega

theorem ratesKept_iff :
    RatesKept clock bars answers tf anchor count ↔
      RatesHeard clock bars answers tf anchor count := by
  rw [RatesKept, getRates, Search.keeps_map (Rate.toDict clock), RatesHeard, fetchRates,
    Clock.utcSecondsToBrokerDt]
  by_cases htakes : clock.Takes anchor
  swap
  · rw [if_neg htakes]
    exact iff_of_false (by rintro ⟨found, ⟨⟩, -⟩) fun h => htakes h.1
  rw [if_pos htakes, and_iff_right htakes]
  have hsince : (bars.items.filter fun r => anchor ≤ clock.brokerToUtcSeconds r.time) =
      bars.since (anchor + clock.utcOffsetSeconds) := by
    refine List.filter_congr fun r _ => ?_
    rw [Clock.brokerToUtcSeconds, decide_eq_decide]
    omega
  have hwindow (i : ℕ) : ratesWindow clock bars tf anchor count i <+:
      bars.items.filter fun r => anchor ≤ clock.brokerToUtcSeconds r.time := by
    rw [hsince]
    exact bars.within_prefix
  apply keeps_iff_noneLost count.pos attempt_askRates
  · exact List.nil_prefix
  · exact fun items hle => List.length_take_of_le hle
  · intro i
    exact ⟨(hwindow i).map _, ((List.take_prefix _ _).trans (hwindow i)).map _⟩
  · intro i
    exact bars.length_within_le le_rfl (Int.add_le_add_right (ratesEndAt_le i) _)

end Rates

/-! ## Ticks up to an instant -/

section Ticks

variable (clock : Clock) (history : History (@Tick.timeMsc Columns))
  (answers : ℕ → Bool) (anchor : ℤ) (count : ℕ+)

/-- The first width of the window. -/
def ticksFirstWidth : ℕ :=
  -- the float product has this integer part below 2 ^ 49, and a wider window starts at 0 anyway
  max ticksBackwardFloorWindowSec (count / 10)

/-- The start of the window of a width. -/
def ticksStart (width : ℕ) : ℤ := max 0 (anchor - width)

/-- An attempt of `get_ticks`. -/
def askTicks (df : ℤ) (i width : ℕ) : Except PyError (Option (List (Tick Columns))) := do
  let dfStart ← clock.utcSecondsToBrokerDt (ticksStart anchor width)
  return (copyRange history answers i (dfStart * 1000) (df * 1000)).map
    (List.filter fun t => clock.brokerToUtcSeconds t.time ≤ anchor)

/-- The ticks that `get_ticks` finds for a negative count and a `from`; `count` is `abs_count`. -/
def fetchTicks : Search PyError (Tick Columns) :=
  match clock.utcSecondsToBrokerDt anchor with
  | .error e => ⟨[], .error e⟩
  | .ok df =>
    if count < floatLimit then
      search (askTicks clock history answers anchor df) count (List.rtake · count)
        ticksBackwardMaxAttempts 0 (ticksFirstWidth count) []
    else ⟨[], .error .tooLarge⟩

/-- `get_ticks` for a negative count and a `from`. -/
def getTicks : Except PyError (List (Tick Columns)) :=
  (fetchTicks clock history answers anchor count).result.map (List.map (Tick.toDict clock))

/-- The answer is a final part of the ticks at or before the anchor: no more than `count`, and no
less than `count` or the ticks that some query returned. -/
def TicksKept : Prop :=
  ∃ rows, getTicks clock history answers anchor count = .ok rows ∧
    rows <:+ (history.items.filter fun t => clock.brokerToUtcMs t.timeMsc ≤ anchor * 1000).map
      (Tick.toDict clock) ∧
    rows.length ≤ count ∧
    min ↑count (fetchTicks clock history answers anchor count).most ≤ rows.length

/-- The start of the window of an attempt. -/
def ticksStartAt (i : ℕ) : ℤ := ticksStart anchor (2 ^ i * ticksFirstWidth count)

/-- The ticks in the window of an attempt. -/
def ticksWindow (i : ℕ) : List (Tick Columns) :=
  history.within ((ticksStartAt anchor count i + clock.utcOffsetSeconds) * 1000)
    ((anchor + clock.utcOffsetSeconds) * 1000)

/-- Every window that is asked for can be asked for, and `None` answers only a query before which no
tick was returned. -/
def TicksHeard : Prop :=
  clock.Takes anchor ∧ (count : ℕ) < floatLimit ∧
    NoneLost (fun i => clock.Takes (ticksStartAt anchor count i)) answers
      (ticksWindow clock history anchor count) count ticksBackwardMaxAttempts

variable {clock history answers anchor count}

/-- Every tick of a window is at or before the anchor, so the filter keeps them all. -/
theorem attempt_askTicks :
    attempt (askTicks clock history answers anchor (anchor + clock.utcOffsetSeconds)) 0
      (ticksFirstWidth count) =
    answered (fun i => clock.Takes (ticksStartAt anchor count i)) answers
      (ticksWindow clock history anchor count) PyError.outOfRange := by
  funext i
  have hall : (ticksWindow clock history anchor count i).filter
      (fun t => clock.brokerToUtcSeconds t.time ≤ anchor) =
        ticksWindow clock history anchor count i := by
    rw [List.filter_eq_self]
    intro t ht
    obtain ⟨-, -, hhi⟩ := (History.mem_within _).mp ht
    have htime := t.time_eq
    rw [decide_eq_true_eq, Clock.brokerToUtcSeconds]
    omega
  rw [attempt, askTicks, Nat.zero_add, answered, Clock.utcSecondsToBrokerDt, ← ticksStartAt]
  by_cases htakes : clock.Takes (ticksStartAt anchor count i)
  · rw [if_pos htakes, if_pos htakes]
    show Except.ok ((copyRange history answers i _ _).map _) = _
    unfold copyRange
    by_cases hanswers : answers i = true
    · rw [if_pos hanswers, if_pos hanswers]
      exact congrArg (fun items => Except.ok (some items)) hall
    · rw [if_neg hanswers, if_neg hanswers]
      rfl
  · rw [if_neg htakes, if_neg htakes]
    rfl

/-- A wider window starts no later. -/
theorem ticksStartAt_le (i : ℕ) :
    ticksStartAt anchor count (i + 1) ≤ ticksStartAt anchor count i := by
  have hpow : 2 ^ i * ticksFirstWidth count ≤ 2 ^ (i + 1) * ticksFirstWidth count :=
    Nat.mul_le_mul_right _ (Nat.pow_le_pow_right (by omega) (Nat.le_succ i))
  rw [ticksStartAt, ticksStartAt, ticksStart, ticksStart]
  omega

theorem fetchTicks_eq (htakes : clock.Takes anchor) (hlimit : (count : ℕ) < floatLimit) :
    fetchTicks clock history answers anchor count =
      search (askTicks clock history answers anchor (anchor + clock.utcOffsetSeconds)) count
        (List.rtake · count) ticksBackwardMaxAttempts 0 (ticksFirstWidth count) [] := by
  rw [fetchTicks, Clock.utcSecondsToBrokerDt, if_pos htakes]
  exact if_pos hlimit

theorem ticksKept_iff :
    TicksKept clock history answers anchor count ↔
      TicksHeard clock history answers anchor count := by
  rw [TicksKept, getTicks, Search.keeps_map (Tick.toDict clock), TicksHeard]
  by_cases htakes : clock.Takes anchor
  swap
  · rw [fetchTicks, Clock.utcSecondsToBrokerDt, if_neg htakes]
    exact iff_of_false (by rintro ⟨found, ⟨⟩, -⟩) fun h => htakes h.1
  by_cases hlimit : (count : ℕ) < floatLimit
  swap
  · rw [fetchTicks, Clock.utcSecondsToBrokerDt, if_pos htakes]
    simp only [if_neg hlimit]
    exact iff_of_false (by rintro ⟨found, ⟨⟩, -⟩) fun h => hlimit h.2.1
  rw [fetchTicks_eq htakes hlimit, and_iff_right htakes, and_iff_right hlimit]
  have hupTo : (history.items.filter fun t => clock.brokerToUtcMs t.timeMsc ≤ anchor * 1000) =
      history.upTo ((anchor + clock.utcOffsetSeconds) * 1000) := by
    refine List.filter_congr fun t _ => ?_
    rw [Clock.brokerToUtcMs, decide_eq_decide]
    omega
  have hwindow (i : ℕ) : ticksWindow clock history anchor count i <:+
      history.items.filter fun t => clock.brokerToUtcMs t.timeMsc ≤ anchor * 1000 := by
    rw [hupTo]
    exact history.within_suffix
  apply keeps_iff_noneLost count.pos attempt_askTicks
  · exact List.nil_suffix
  · intro items hle
    rw [List.rtake, List.length_drop]
    omega
  · intro i
    exact ⟨(hwindow i).map _, ((List.drop_suffix _ _).trans (hwindow i)).map _⟩
  · intro i
    apply history.length_within_le _ le_rfl
    have hle : ticksStartAt anchor count (i + 1) ≤ ticksStartAt anchor count i := ticksStartAt_le i
    omega

end Ticks

/-! ## Both -/

/-- Nothing that the windows returned is lost exactly when every window that is asked for can be
asked for, and no query that `None` answers comes after one that returned something. -/
theorem losesNothing_iff (clock : Clock) (answers : ℕ → Bool) (anchor : ℤ) (count : ℕ+)
    (bars : History (@Rate.time Columns)) (tf : String)
    (history : History (@Tick.timeMsc Columns)) :
    (RatesKept clock bars answers tf anchor count ↔
      RatesHeard clock bars answers tf anchor count) ∧
    (TicksKept clock history answers anchor count ↔
      TicksHeard clock history answers anchor count) :=
  ⟨ratesKept_iff, ticksKept_iff⟩

/-- A clock without an offset, on a platform with all years. -/
def utcClock : Clock := ⟨0, -62135596800, 253402300799, by decide⟩

/-- One bar, a minute after the anchor. -/
def oneBar : History (@Rate.time Unit) := ⟨[⟨1700000060, ()⟩], by decide⟩

/-- One tick, half a second before the anchor. -/
def oneTick : History (@Tick.timeMsc Unit) :=
  ⟨[⟨1699999999, 1699999999500, by decide, ()⟩], by decide⟩

/-- The second query is answered by `None`, and what the first returned is gone. -/
theorem not_losesNothing :
    ¬ RatesKept utcClock oneBar (· == 0) "M1" 1700000000 2 ∧
      ¬ TicksKept utcClock oneTick (· == 0) 1700000000 2 := by
  constructor
  · rintro ⟨rows, hrows, -, -, hmost⟩
    cases hrows
    exact absurd hmost (by decide)
  · rintro ⟨rows, hrows, -, -, hmost⟩
    rw [getTicks, fetchTicks_eq (by decide) (by decide +kernel)] at hrows
    rw [fetchTicks_eq (by decide) (by decide +kernel)] at hmost
    cases hrows
    exact absurd hmost (by decide)

end Symbols.Windowed

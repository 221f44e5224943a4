import Mt5HttpApi.ChartCtl.Ownership
import Mt5HttpApi.ChartCtl.Scanner
import Mt5HttpApi.Lib.Interaction

/-!
# The loader and its terminal

The parts of `CChartControl::Tick` of `assets/experts/include/ChartControl.mqh`, of a loader that
owns the mutex, as programs that call functions of the terminal: `handleCommand`, and `reconcile`
once `desired.json` is read. What a call answers and how the charts change with it is
`Terminal.answer`; between two calls an expert may leave its chart, or come to one that a template
was applied to (`terminal`).

The map and the results of commands that the loader writes to files are no part of the model: while
it runs it does not read them back.
-/

namespace ChartCtl

open Interaction Program

/-- `ENUM_TIMEFRAMES`. -/
inductive Timeframe
  | m1 | m2 | m3 | m4 | m5 | m6 | m10 | m12 | m15 | m20 | m30
  | h1 | h2 | h3 | h4 | h6 | h8 | h12 | d1 | w1 | mn1
  deriving DecidableEq

/-- The timeframes by their names. -/
def timeframeNames : List (List Char × Timeframe) :=
  [("M1", .m1), ("M2", .m2), ("M3", .m3), ("M4", .m4), ("M5", .m5), ("M6", .m6), ("M10", .m10),
    ("M12", .m12), ("M15", .m15), ("M20", .m20), ("M30", .m30), ("H1", .h1), ("H2", .h2),
    ("H3", .h3), ("H4", .h4), ("H6", .h6), ("H8", .h8), ("H12", .h12), ("D1", .d1), ("W1", .w1),
    ("MN1", .mn1)].map fun name => (name.1.toList, name.2)

/-- `TF`. -/
def tf (s : List Char) : Timeframe :=
  match timeframeNames.find? fun name => name.1 = s with
  | some name => name.2
  | none => .h1

/-- `EnumToString` of a timeframe. -/
def Timeframe.toText (period : Timeframe) : List Char :=
  match timeframeNames.find? fun name => name.2 = period with
  | some name => "PERIOD_".toList ++ name.1
  | none => []

/-- A timeframe of the list has its name. -/
theorem toText_tf : ∀ name ∈ timeframeNames.map Prod.fst,
    (tf name).toText = "PERIOD_".toList ++ name := by decide

/-! ## The terminal -/

/-- An open chart. Its expert is the empty text when there is none. -/
structure Chart where
  id : Nat
  symbol : List Char
  timeframe : Timeframe
  expert : List Char
  /-- The templates the loader applied to the chart. -/
  applied : List (List Char)

/-- The charts of a terminal, at most `CHARTS_MAX`, and the chart the loader runs on. -/
structure Terminal where
  charts : List Chart
  self : Nat
  nodup : (charts.map Chart.id).Nodup
  ids_ne_zero : ∀ c ∈ charts, c.id ≠ 0
  few : charts.length ≤ 100

/-- Where `ChartClose` is called: by a command, in `ArmChart` when the template is not applied and
when the expert does not come up, and in `DetachChart`. -/
inductive CloseSite
  | command
  | notApplied
  | notAttached
  | detach
  deriving DecidableEq

/-- The functions of the terminal the loader calls. -/
inductive Op
  | readFile (name : String)
  | chartID
  | chartFirst
  | chartNext (chart : Nat)
  | chartSymbol (chart : Nat)
  | chartPeriod (chart : Nat)
  | chartExpert (chart : Nat)
  | getTickCount64
  | timeCurrent
  | symbolSelect (symbol : List Char)
  | chartOpen (symbol : List Char) (period : Timeframe)
  | chartApplyTemplate (chart : Nat) (templ : List Char)
  | chartClose (site : CloseSite) (chart : Int)

/-- What they answer: no chart is `none` for the enumeration and 0 for `ChartOpen`. -/
abbrev Ans : Op → Type
  | .readFile _ => Option (List Char)
  | .chartID => Nat
  | .chartFirst => Option Nat
  | .chartNext _ => Option Nat
  | .chartSymbol _ => List Char
  | .chartPeriod _ => Timeframe
  | .chartExpert _ => List Char
  | .getTickCount64 => UInt64
  | .timeCurrent => Int
  | .symbolSelect _ => Bool
  | .chartOpen _ _ => Nat
  | .chartApplyTemplate _ _ => Bool
  | .chartClose _ _ => Bool

/-- What the terminal chooses when it answers. -/
structure Choice where
  /-- The file that is read, if there is one. -/
  text : Option (List Char) := none
  /-- The call succeeds. -/
  succeeds : Bool := false
  /-- The chart that is opened, and its place among the others. -/
  chart : Nat := 0
  place : Nat := 0
  ticks : UInt64 := 0
  time : Int := 0

namespace Terminal

/-- An open chart. -/
def chart (t : Terminal) (id : Nat) : Option Chart := t.charts.find? fun c => c.id = id

/-- The charts change, but not which there are. -/
def mapChart (t : Terminal) (id : Nat) (f : Chart → Chart) (hf : ∀ c, (f c).id = c.id) :
    Terminal where
  charts := t.charts.map fun c => if c.id = id then f c else c
  self := t.self
  nodup := by
    have hids : (t.charts.map fun c => if c.id = id then f c else c).map Chart.id =
        t.charts.map Chart.id := by
      rw [List.map_map]
      refine List.map_congr_left fun c _ => ?_
      simp only [Function.comp_apply]
      split
      · exact hf c
      · rfl
    rw [hids]
    exact t.nodup
  ids_ne_zero := by
    intro c hc
    obtain ⟨d, hd, rfl⟩ := List.mem_map.mp hc
    split
    · rw [hf d]
      exact t.ids_ne_zero d hd
    · exact t.ids_ne_zero d hd
  few := by
    rw [List.length_map]
    exact t.few

/-- A chart is closed. -/
def closeChart (t : Terminal) (id : Nat) : Terminal where
  charts := t.charts.filter fun c => c.id ≠ id
  self := t.self
  nodup := (List.filter_sublist.map Chart.id).nodup t.nodup
  ids_ne_zero c hc := t.ids_ne_zero c (List.mem_of_mem_filter hc)
  few := (List.length_filter_le _ _).trans t.few

/-- A chart is opened, at a place among the others. -/
def openChart (t : Terminal) (chart : Chart) (place : Nat) (hid : chart.id ≠ 0)
    (h : (∀ c ∈ t.charts, c.id ≠ chart.id) ∧ t.charts.length < 100) : Terminal where
  charts := t.charts.take place ++ chart :: t.charts.drop place
  self := t.self
  nodup := by
    have hperm : List.Perm (t.charts.take place ++ chart :: t.charts.drop place)
        (chart :: t.charts) := by
      refine List.perm_middle.trans ?_
      rw [List.take_append_drop]
    rw [(hperm.map Chart.id).nodup_iff, List.map_cons, List.nodup_cons]
    refine ⟨fun hmem => ?_, t.nodup⟩
    obtain ⟨c, hc, heq⟩ := List.mem_map.mp hmem
    exact h.1 c hc heq
  ids_ne_zero := by
    intro c hc
    rcases List.mem_append.mp hc with hc | hc
    · exact t.ids_ne_zero c (List.mem_of_mem_take hc)
    rcases List.mem_cons.mp hc with rfl | hc
    · exact hid
    · exact t.ids_ne_zero c (List.mem_of_mem_drop hc)
  few := by
    simp only [List.length_append, List.length_cons, List.length_take, List.length_drop]
    have := h.2
    omega

/-- The answer to a call, and the terminal after it. -/
def answer (t : Terminal) : (o : Op) → Choice → Option (Ans o × Terminal)
  | .readFile _, choice => some (choice.text, t)
  | .chartID, _ => some (t.self, t)
  | .chartFirst, _ => some (t.charts.head?.map Chart.id, t)
  | .chartNext id, _ =>
    some (((t.charts.dropWhile fun c => c.id ≠ id).drop 1).head?.map Chart.id, t)
  | .chartSymbol id, _ => some (((t.chart id).map Chart.symbol).getD [], t)
  | .chartPeriod id, _ => some (((t.chart id).map Chart.timeframe).getD .h1, t)
  | .chartExpert id, _ => some (((t.chart id).map Chart.expert).getD [], t)
  | .getTickCount64, choice => some (choice.ticks, t)
  | .timeCurrent, choice => some (choice.time, t)
  | .symbolSelect _, choice => some (choice.succeeds, t)
  | .chartOpen symbol period, choice =>
    if hid : choice.chart = 0 then some (0, t)
    else
      if h : (∀ c ∈ t.charts, c.id ≠ choice.chart) ∧ t.charts.length < 100 then
        some (choice.chart, t.openChart ⟨choice.chart, symbol, period, [], []⟩ choice.place hid h)
      else none
  | .chartApplyTemplate id templ, choice =>
    if choice.succeeds then
      if (t.chart id).isSome then
        some (true, t.mapChart id (fun c => { c with applied := templ :: c.applied }) fun _ => rfl)
      else none
    else some (false, t)
  | .chartClose _ id, choice =>
    -- 0 stands for the chart of the program that calls
    let id := if id = 0 then t.self else id.toNat
    if choice.succeeds then
      if (t.chart id).isSome then some (true, t.closeChart id) else none
    else some (false, t)

/-- The expert of a chart leaves, or one comes up where a template was applied. -/
def setExpert (t : Terminal) (id : Nat) (expert : List Char) : Terminal :=
  t.mapChart id
    (fun c => if expert = [] ∨ c.applied ≠ [] then { c with expert := expert } else c)
    fun c => by split <;> rfl

end Terminal

/-- The terminal as the surroundings of the loader. -/
def terminal : World Terminal Ans where
  Choice := Choice
  answer := Terminal.answer
  Event := Nat × List Char
  move t event := some (t.setExpert event.1 event.2)

/-! ## The loader -/

/-- What the loader observed on one chart. -/
structure ChartCtlChart where
  chartId : Nat
  symbol : List Char
  timeframe : List Char
  expert : List Char
  /-- The deployment of the ownership map, the empty text when none owns the chart. -/
  deploymentId : List Char
  deriving DecidableEq

/-- `expert_enabled`. -/
def ChartCtlChart.expertEnabled (c : ChartCtlChart) : Bool := c.expert ≠ []

/-- The error slot of a deployment. -/
structure ErrorSlot where
  id : List Char
  code : String
  time : Int

/-- What a loader that owns the mutex remembers from one `Tick` to the next. -/
structure Memory where
  owned : Ownership
  /-- `m_applied_revision`: -1 at first. -/
  appliedRevision : Int
  errors : List ErrorSlot
  restored : List (List Char)
  ownerSince : UInt64

/-- `CHARTCTL_STARTUP_GRACE_MS`. -/
def startupGraceMs : UInt64 := 30000

/-- `GetTickCount64() - m_owner_since_ms < CHARTCTL_STARTUP_GRACE_MS`. -/
def inGrace (mem : Memory) : Program Ans Bool := do
  let now ← ask .getTickCount64
  pure (now - mem.ownerSince < startupGraceMs)

/-- `RecordError`. -/
def recordError (mem : Memory) (id : List Char) (code : String) : Program Ans Memory := do
  let now ← ask .timeCurrent
  let slot : ErrorSlot := ⟨id, code, now⟩
  let errors :=
    if mem.errors.any (·.id = id) then
      mem.errors.modify (mem.errors.findIdx (·.id = id)) fun _ => slot
    else mem.errors ++ [slot]
  pure { mem with errors := errors }

/-- `ClearError`. -/
def Memory.clearError (mem : Memory) (id : List Char) : Memory :=
  { mem with errors := removeFirst (fun slot => slot.id = id) mem.errors }

/-- `Claim`. -/
def Memory.claim (mem : Memory) (chart : Nat) (id : List Char) : Memory :=
  { mem with owned := mem.owned.claim chart id }

/-- `InRetryCooldown`. -/
def inRetryCooldown (mem : Memory) (id : List Char) : Program Ans Bool :=
  match mem.errors.find? (·.id = id) with
  | none => pure false
  | some slot => do
    let now ← ask .timeCurrent
    pure (now - slot.time < 60)

/-- The loop of `ScanCharts`, with the charts it may still look at. -/
def scanFrom (owned : Ownership) : Nat → Option Nat → List ChartCtlChart →
    Program Ans (List ChartCtlChart)
  | 0, _, out => pure out
  | _ + 1, none, out => pure out
  | guard + 1, some id, out => do
    let symbol ← ask (.chartSymbol id)
    let period ← ask (.chartPeriod id)
    let expert ← ask (.chartExpert id)
    let next ← ask (.chartNext id)
    scanFrom owned guard next
      (out ++ [⟨id, symbol, period.toText, expert, owned.ownerOf id⟩])

/-- `ScanCharts`. -/
def scanCharts (owned : Ownership) : Program Ans (List ChartCtlChart) := do
  let first ← ask .chartFirst
  scanFrom owned 1000 first []

/-- `FindChartFor`. -/
def findChartFor (id : List Char) (charts : List ChartCtlChart) : Option ChartCtlChart :=
  charts.find? fun c => c.deploymentId = id ∧ c.expertEnabled

/-- The chart is on the symbol and the timeframe of the deployment. -/
def ChartCtlDeployment.targets (dep : ChartCtlDeployment) (c : ChartCtlChart) : Bool :=
  c.symbol = dep.symbol ∧ c.timeframe = "PERIOD_".toList ++ dep.timeframe

/-- `FindAdoptableChart`. -/
def findAdoptableChart (dep : ChartCtlDeployment) (charts : List ChartCtlChart) :
    Option ChartCtlChart :=
  charts.find? fun c =>
    c.deploymentId = [] ∧ c.expertEnabled ∧ c.expert = dep.expert ∧ dep.targets c

/-- `FindBareChart`: the index of a chart. -/
def findBareChart (mem : Memory) (dep : ChartCtlDeployment) (charts : List ChartCtlChart) :
    Option Nat :=
  match charts.findIdx? fun c => !c.expertEnabled ∧ dep.targets c ∧ c.deploymentId = dep.id with
  | some i => some i
  | none =>
    if dep.id ∈ mem.restored then
      charts.findIdx? fun c => !c.expertEnabled ∧ dep.targets c ∧ c.deploymentId = []
    else none

/-- `if(opened) ChartClose(cid)`. -/
def closeOpened (opened : Bool) (site : CloseSite) (chart : Nat) : Program Ans Unit :=
  if opened then do
    let _ ← ask (.chartClose site chart)
    pure ()
  else pure ()

/-- The loop of `ArmChart` that waits for the expert. -/
def awaitExpert (chart : Nat) (dep : ChartCtlDeployment) (opened : Bool) (mem : Memory) :
    Nat → Program Ans Memory
  | 0 => do
    closeOpened opened .notAttached chart
    recordError mem dep.id "EXPERT_NOT_ATTACHED"
  | n + 1 => do
    let expert ← ask (.chartExpert chart)
    if expert ≠ [] then pure ((mem.claim chart dep.id).clearError dep.id)
    else awaitExpert chart dep opened mem n

/-- `ArmChart`. -/
def armChart (chart : Nat) (dep : ChartCtlDeployment) (opened : Bool) (mem : Memory) :
    Program Ans Memory := do
  if ← ask (.chartApplyTemplate chart dep.templ) then awaitExpert chart dep opened mem 40
  else
    let mem ← recordError mem dep.id "TEMPLATE_APPLY_FAILED"
    closeOpened opened .notApplied chart
    pure mem

/-- `AttachDeployment`. -/
def attachDeployment (dep : ChartCtlDeployment) (mem : Memory) : Program Ans Memory := do
  if ← ask (.symbolSelect dep.symbol) then
    let chart ← ask (.chartOpen dep.symbol (tf dep.timeframe))
    if chart = 0 then recordError mem dep.id "CHART_OPEN_FAILED"
    else armChart chart dep true mem
  else recordError mem dep.id "SYMBOL_NOT_FOUND"

/-- What the loop of `Tick` carries: the charts it looked at, and the memory. -/
abbrev Pass := List ChartCtlChart × Memory

/-- One pass of the loop of `Tick` that attaches the enabled deployments. -/
def attach (pass : Pass) (dep : ChartCtlDeployment) : Program Ans Pass := do
  let (charts, mem) := pass
  if !dep.enabled then pure pass
  else if (findChartFor dep.id charts).isSome then pure pass
  else
    match findAdoptableChart dep charts with
    | some c => pure (charts, (mem.claim c.chartId dep.id).clearError dep.id)
    | none =>
      if ← inRetryCooldown mem dep.id then pure pass
      else if ← inGrace mem then pure pass
      else
        match (findBareChart mem dep charts).bind fun i => charts[i]?.map fun c => (i, c) with
        | some (i, bare) =>
          let mem ← armChart bare.chartId dep false (mem.claim bare.chartId dep.id)
          pure (charts.modify i fun c => { c with deploymentId := dep.id }, mem)
        | none =>
          let mem ← attachDeployment dep mem
          pure (charts, mem)

/-- The loop over the desired deployments. -/
def attachAll (pass : Pass) : List ChartCtlDeployment → Program Ans Pass
  | [] => pure pass
  | dep :: desired => do
    let pass ← attach pass dep
    attachAll pass desired

/-- An enabled deployment of this id is desired. -/
def wanted (desired : List ChartCtlDeployment) (id : List Char) : Bool :=
  desired.any fun dep => dep.id = id ∧ dep.enabled

/-- `DetachChart`. -/
def detachChart (mem : Memory) (chart : Nat) : Program Ans Memory := do
  if ← ask (.chartClose .detach chart) then pure { mem with owned := mem.owned.drop chart }
  else pure mem

/-- The loop that detaches the charts whose deployment is gone or disabled. -/
def detachAll (desired : List ChartCtlDeployment) (mem : Memory) :
    List ChartCtlChart → Program Ans Memory
  | [] => pure mem
  | c :: charts => do
    if c.deploymentId = [] ∨ wanted desired c.deploymentId then detachAll desired mem charts
    else
      let mem ← detachChart mem c.chartId
      detachAll desired mem charts

/-- `PruneOwnership`. -/
def Memory.prune (mem : Memory) (charts : List ChartCtlChart) : Memory :=
  { mem with owned := mem.owned.prune (charts.map ChartCtlChart.chartId) }

/-- `ReadFile` of a file of the protocol: its text, if there is one. -/
def fileText (name : String) : Program Ans (Option (List Char)) := ask (Op.readFile name)

/-- `HandleCommand`, as far as it changes charts or what the loader remembers. -/
def handleCommand (numerals : Numerals) (mem : Memory) : Program Ans Memory := do
  match ← fileText "command.json" with
  | none => pure mem
  | some body =>
    let action := jsonStr "action".toList [] body
    if jsonStr "command_id".toList [] body = [] then pure mem
    else if action = "reconcile".toList then pure { mem with appliedRevision := -1 }
    else if action = "close_chart".toList then
      let id := jsonNum numerals "chart_id".toList body
      let self ← ask .chartID
      if id = self then pure mem
      else
        let _ ← ask (.chartClose .command id)
        pure mem
    else pure mem

/-- The end of `Tick`: the charts that are there, and a map without those that are not. -/
def inventory (mem : Memory) : Program Ans (Memory × List ChartCtlChart) := do
  let charts ← scanCharts mem.owned
  pure (mem.prune charts, charts)

/-- `Tick` once the file is read: attach what is missing, detach what is not wanted. -/
def reconcile (mem : Memory) (rev : Int) (desired : List ChartCtlDeployment) :
    Program Ans (Memory × List ChartCtlChart) := do
  let charts ← scanCharts mem.owned
  let (_, mem) ← attachAll (charts, mem) desired
  let grace ← inGrace mem
  let mem := if grace then mem else { mem with restored := [] }
  let charts ← scanCharts mem.owned
  let mem ← detachAll desired mem charts
  inventory { mem with appliedRevision := rev }

end ChartCtl

import Mt5HttpApi.ChartCtl.Desired
import Mt5HttpApi.ChartCtl.Tick
import Mt5HttpApi.Lib.Transition

/-!
# When a chart leaves the ownership map

Everything `CChartControl` does to its map is a `MapChange`: a claim, the release of a chart that
was detached, or a pruning. `Course.step` runs commands and passes one after another, call by call,
while charts open, close and change, but for the last `ScanCharts` of a pass, during which only
their experts come and go.

* `leaves_map`: in every run the map changes in this way only, and an entry leaves it when
  `ChartClose` of its chart succeeded, when its chart is not open, or when an enabled deployment of
  the file claims another chart in its place or the chart for itself.
* `not_leaves_map`: a claim does so while the chart is open and nothing was closed.
-/

namespace ChartCtl

open Interaction Program Transition

/-! ## Changes of the map -/

/-- What the loader does to its map. -/
inductive MapChange
  | claim (chart : Nat) (id : List Char)
  | drop (chart : Nat)
  | prune (seen : List Nat)

namespace MapChange

/-- The map after a change. -/
def apply (own : Ownership) : MapChange → Ownership
  | claim chart id => own.claim chart id
  | drop chart => own.drop chart
  | prune seen => own.prune seen

/-- The change leaves no such entry in the map. -/
def Removes (e : Owned) : MapChange → Prop
  | claim chart id => e ≠ ⟨chart, id⟩ ∧ (e.chart = chart ∨ e.id = id)
  | drop chart => e.chart = chart
  | prune seen => e.chart ∉ seen

variable {own : Ownership} {e : Owned}

/-- An entry is gone after exactly the changes that remove it. -/
theorem not_mem_apply (he : e ∈ own) (change : MapChange) :
    e ∉ change.apply own ↔ change.Removes e := by
  cases change with
  | claim chart id =>
    rw [apply, Ownership.mem_claim, Removes, not_or]
    refine and_congr_right fun _ => ?_
    simp only [he, true_and, not_and_or, not_not]
  | drop chart =>
    rw [apply, Ownership.mem_drop, Removes]
    simp only [he, true_and, not_not]
  | prune seen =>
    rw [apply, Ownership.mem_prune, Removes]
    simp only [he, true_and]

end MapChange

/-- The map after some changes, in order. -/
def applyAll (changes : List MapChange) (own : Ownership) : Ownership :=
  changes.foldl MapChange.apply own

/-- Of the changes of a map, this one removes an entry that is there until then. -/
def Leaves (own : Ownership) (changes : List MapChange) (e : Owned) (change : MapChange) : Prop :=
  ∃ before after, changes = before ++ change :: after ∧ e ∈ applyAll before own ∧ change.Removes e

/-- An entry that is in the map and later is not left it in between. -/
theorem exists_leaves {own : Ownership} {changes : List MapChange} {e : Owned} (he : e ∈ own)
    (hgone : e ∉ applyAll changes own) : ∃ change, Leaves own changes e change := by
  induction changes generalizing own with
  | nil => exact absurd he hgone
  | cons first changes ih =>
    by_cases hstays : e ∈ first.apply own
    · obtain ⟨change, before, after, rfl, hbefore, hremoves⟩ := ih hstays hgone
      exact ⟨change, first :: before, after, rfl, hbefore, hremoves⟩
    · exact ⟨first, [], changes, rfl, he, (first.not_mem_apply he).mp hstays⟩

/-- Why the loader may change its map: a claim is for an enabled deployment of the file, a chart is
dropped once a call to close it was answered with success, and what is pruned is not open. -/
def MapChange.Grounded (desired : List ChartCtlDeployment) (log : List (Sigma Ans)) (t : Terminal) :
    MapChange → Prop
  | claim _ id => ∃ dep ∈ desired, dep.id = id ∧ dep.enabled = true
  | drop chart => ⟨.chartClose .detach chart, true⟩ ∈ log
  | prune seen => ∀ c ∈ t.charts, c.id ∈ seen

/-- Whatever the charts are, there are grounds for the changes from one map to another. -/
def Changed (desired : List ChartCtlDeployment) (log : List (Sigma Ans)) (own own' : Ownership) :
    Prop :=
  ∃ changes, own' = applyAll changes own ∧ ∀ change ∈ changes, ∀ t, change.Grounded desired log t

section Changed

variable {desired : List ChartCtlDeployment} {log log' : List (Sigma Ans)} {own own' : Ownership}

theorem Changed.refl : Changed desired log own own :=
  ⟨[], rfl, fun _ h => absurd h List.not_mem_nil⟩

/-- One more change. -/
theorem Changed.tail (h : Changed desired log own own') (change : MapChange)
    (hground : ∀ t, change.Grounded desired log t) :
    Changed desired log own (change.apply own') := by
  obtain ⟨changes, rfl, hgrounded⟩ := h
  refine ⟨changes ++ [change], ?_, fun c hc => ?_⟩
  · rw [applyAll, applyAll, List.foldl_append, List.foldl_cons, List.foldl_nil]
  · rcases List.mem_append.mp hc with hc | hc
    · exact hgrounded c hc
    · rwa [List.mem_singleton.mp hc]

theorem MapChange.Grounded.mono {change : MapChange} {t : Terminal}
    (h : change.Grounded desired log t) (hlog : log ⊆ log') : change.Grounded desired log' t := by
  cases change with
  | claim chart id => exact h
  | drop chart => exact hlog h
  | prune seen => exact h

theorem Changed.mono (h : Changed desired log own own') (hlog : log ⊆ log') :
    Changed desired log' own own' := by
  obtain ⟨changes, hown, hgrounded⟩ := h
  exact ⟨changes, hown, fun change hchange t => (hgrounded change hchange t).mono hlog⟩

/-! ## The changes of a pass -/

variable {dep : ChartCtlDeployment} {mem : Memory}

/-- A claim for a deployment that is desired. -/
theorem Changed.claim (h : Changed desired log own mem.owned) (hdep : dep ∈ desired)
    (henabled : dep.enabled = true) (chart : Nat) :
    Changed desired log own (mem.claim chart dep.id).owned :=
  h.tail (.claim chart dep.id) fun _ => ⟨dep, hdep, rfl, henabled⟩

/-- Whatever is answered, the program does nothing to the map but claim charts. -/
abbrev Claims (desired : List ChartCtlDeployment) (own : Ownership) (p : Program Ans Memory) :
    Prop :=
  Covers (fun _ => True) (fun mem' => Changed desired [] own mem'.owned) p

theorem claims_awaitExpert (h : Changed desired [] own mem.owned) (hdep : dep ∈ desired)
    (henabled : dep.enabled = true) (chart : Nat) (opened : Bool) (n : Nat) :
    Claims desired own (awaitExpert chart dep opened mem n) := by
  induction n with
  | zero =>
    exact (covers_trivial (closeOpened opened _ chart)).bind fun _ _ => ⟨trivial, fun _ => h⟩
  | succ n ih =>
    simp only [awaitExpert, ask_bind]
    refine ⟨trivial, fun expert => ?_⟩
    dsimp only
    split
    · exact h.claim hdep henabled chart
    · exact ih

theorem claims_armChart (h : Changed desired [] own mem.owned) (hdep : dep ∈ desired)
    (henabled : dep.enabled = true) (chart : Nat) (opened : Bool) :
    Claims desired own (armChart chart dep opened mem) := by
  simp only [armChart, ask_bind]
  refine ⟨trivial, fun applied => ?_⟩
  dsimp only
  split
  · exact claims_awaitExpert h hdep henabled chart opened 40
  · refine ⟨trivial, fun _ => ?_⟩
    exact (covers_trivial (closeOpened opened _ chart)).bind fun _ _ => h

theorem claims_attachDeployment (h : Changed desired [] own mem.owned) (hdep : dep ∈ desired)
    (henabled : dep.enabled = true) : Claims desired own (attachDeployment dep mem) := by
  simp only [attachDeployment, ask_bind]
  refine ⟨trivial, fun selected => ?_⟩
  dsimp only
  split
  · refine ⟨trivial, fun chart => ?_⟩
    dsimp only
    split
    · exact ⟨trivial, fun _ => h⟩
    · exact claims_armChart h hdep henabled chart true
  · exact ⟨trivial, fun _ => h⟩

/-- To attach a deployment, the loader does nothing to its map but claim charts for it. -/
theorem claims_attach {charts : List ChartCtlChart} (h : Changed desired [] own mem.owned)
    (hdep : dep ∈ desired) :
    Covers (fun _ => True) (fun pass : Pass => Changed desired [] own pass.2.owned)
      (attach (charts, mem) dep) := by
  rw [attach]
  split
  next => exact h
  next henabled =>
    rw [Bool.not_eq_true, Bool.not_eq_false'] at henabled
    split
    next => exact h
    next =>
      split
      next => exact h.claim hdep henabled _
      next =>
        refine (covers_trivial (inRetryCooldown mem dep.id)).bind fun cooldown _ => ?_
        split
        next => exact h
        next =>
          refine (covers_trivial (inGrace mem)).bind fun grace _ => ?_
          split
          next => exact h
          next =>
            split
            next =>
              refine (claims_armChart ?_ hdep henabled _ false).bind fun _ h => h
              exact h.claim hdep henabled _
            next => exact (claims_attachDeployment h hdep henabled).bind fun _ h => h

theorem claims_attachAll {deps : List ChartCtlDeployment} {charts : List ChartCtlChart}
    (h : Changed desired [] own mem.owned) (hdeps : deps ⊆ desired) :
    Covers (fun _ => True) (fun pass : Pass => Changed desired [] own pass.2.owned)
      (attachAll (charts, mem) deps) := by
  induction deps generalizing charts mem with
  | nil => exact h
  | cons dep deps ih =>
    rw [List.cons_subset] at hdeps
    refine (claims_attach h hdeps.1).bind ?_
    rintro ⟨charts', mem'⟩ h'
    exact ih h' hdeps.2

/-- A chart is dropped once it was closed. -/
theorem logs_detachAll {charts : List ChartCtlChart} (h : Changed desired log own mem.owned) :
    Logs (fun log' mem' => Changed desired log' own mem'.owned) log
      (detachAll desired mem charts) := by
  induction charts generalizing mem log with
  | nil => exact h
  | cons y charts ih =>
    rw [detachAll]
    split
    next => exact ih h
    next =>
      rw [detachChart]
      simp only [ask_bind]
      intro closed
      have hlater : Changed desired (⟨.chartClose .detach y.chartId, closed⟩ :: log) own
        mem.owned := h.mono (List.subset_cons_self _ _)
      cases closed with
      | false => exact ih hlater
      | true => exact ih (hlater.tail (.drop y.chartId) fun _ => List.mem_cons_self)

end Changed

/-- `Tick` once the file is read, before it looks at the charts for the last time. -/
def settle (mem : Memory) : Option Desired → Program Ans Memory
  | none => pure mem
  | some file => do
    let charts ← scanCharts mem.owned
    let (_, mem) ← attachAll (charts, mem) file.deployments
    let grace ← inGrace mem
    let mem := if grace then mem else { mem with restored := [] }
    let charts ← scanCharts mem.owned
    let mem ← detachAll file.deployments mem charts
    pure { mem with appliedRevision := file.revision }

/-- A pass is that and what comes after it. -/
theorem pass_eq (mem : Memory) (file : Option Desired) :
    pass mem file = settle mem file >>= inventory := by
  cases file with
  | none => rfl
  | some file => simp only [pass, reconcile, settle, bind_assoc, pure_bind]

/-- The deployments that are desired. -/
def deploymentsOf (file : Option Desired) : List ChartCtlDeployment :=
  (file.map Desired.deployments).getD []

/-- What is known of the map stays so while nothing is claimed or dropped. -/
theorem logs_unchanged {α : Type} {desired : List ChartCtlDeployment} {log : List (Sigma Ans)}
    {own own' : Ownership} (h : Changed desired log own own') (p : Program Ans α) :
    Logs (fun log' _ => Changed desired log' own own') log p :=
  (covers_trivial p).logs fun _ hlog _ _ => h.mono hlog

theorem logs_settle (mem : Memory) (file : Option Desired) :
    Logs (fun log mem' => Changed (deploymentsOf file) log mem.owned mem'.owned) []
      (settle mem file) := by
  cases file with
  | none => exact Changed.refl
  | some file =>
    have hstart : Changed file.deployments [] mem.owned mem.owned := Changed.refl
    refine (logs_unchanged hstart (scanCharts mem.owned)).bind fun log charts _ => ?_
    refine ((claims_attachAll hstart (List.Subset.refl _)).logs
      (L := fun log pass => Changed file.deployments log mem.owned pass.2.owned)
      fun log' _ pass h => h.mono (List.nil_subset log')).bind ?_
    rintro log ⟨_, mem₁⟩ h
    refine (logs_unchanged h (inGrace mem₁)).bind fun log grace h => ?_
    -- the restored deployments make no difference to the map
    have hrest : ∀ mem₂ : Memory, mem₂.owned = mem₁.owned →
        Logs (fun log mem' => Changed file.deployments log mem.owned mem'.owned) log
          (scanCharts mem₂.owned >>= fun charts => detachAll file.deployments mem₂ charts >>=
            fun mem => pure { mem with appliedRevision := file.revision }) := by
      intro mem₂ hmem₂
      rw [← hmem₂] at h
      refine (logs_unchanged h (scanCharts mem₂.owned)).bind fun log charts h => ?_
      exact (logs_detachAll h).bind fun log mem₃ h => h
    refine hrest _ ?_
    split <;> rfl

/-! ## Runs -/

/-- Where the loader is, with its map as it was before. -/
inductive Leg
  /-- In `HandleCommand`. -/
  | commands (own : Ownership) (p : Program Ans Memory)
  /-- Before it reads `desired.json`. -/
  | reading (mem : Memory)
  /-- It attaches and detaches. -/
  | settling (own : Ownership) (file : Option Desired) (p : Program Ans Memory)
  /-- It looks at the charts for the last time, before `PruneOwnership`. -/
  | listing (own : Ownership) (p : Program Ans (Memory × List ChartCtlChart))
  /-- Before the next `Tick`. -/
  | ticked (mem : Memory)

/-- The loader, its terminal, and what its calls were answered, the last one first. -/
structure Course where
  terminal : Terminal
  leg : Leg
  /-- Since it read `desired.json`. -/
  log : List (Sigma Ans)
  /-- Before that. -/
  earlier : List (Sigma Ans)

/-- What happens. -/
inductive Happening
  /-- The terminal answers a call. -/
  | answer (choice : Choice)
  /-- Charts open, close and change. -/
  | charts (t : Terminal)
  /-- An expert comes or goes. -/
  | expert (event : Nat × List Char)
  /-- A stage is over. `text` is `desired.json` as it would be read now. -/
  | next (text : Option (List Char))

/-- The map, without what the stage that is not over has made of it. -/
def Leg.own : Leg → Ownership
  | .commands own _ | .settling own _ _ | .listing own _ => own
  | .reading mem | .ticked mem => mem.owned

/-- The deployments of the file that is dealt with. -/
def Leg.desired : Leg → List ChartCtlDeployment
  | .settling _ file _ => deploymentsOf file
  | _ => []

/-- The call that the loader makes, and where it is after each answer. -/
def Leg.calling : Leg → Option ((o : Op) × (Ans o → Leg))
  | .commands own (.call o next) => some ⟨o, fun a => .commands own (next a)⟩
  | .settling own file (.call o next) => some ⟨o, fun a => .settling own file (next a)⟩
  | .listing own (.call o next) => some ⟨o, fun a => .listing own (next a)⟩
  | _ => none

namespace Course

/-- The terminal answers it. -/
def answer (s : Course) (choice : Choice) : Option Course :=
  s.leg.calling.bind fun call => (s.terminal.answer call.1 choice).map fun r =>
    { s with terminal := r.2, leg := call.2 r.1, log := ⟨call.1, r.1⟩ :: s.log }

/-- One step of the loader or its terminal. -/
def step (numerals : Numerals) (s : Course) : Happening → Option Course
  | .answer choice => s.answer choice
  | .charts t =>
    match s.leg with
    | .listing _ _ => none
    | _ => some { s with terminal := t }
  | .expert event => some { s with terminal := s.terminal.setExpert event.1 event.2 }
  | .next text =>
    match s.leg with
    | .commands _ (.done mem) => some { s with leg := .reading mem }
    | .reading mem =>
      let file := text.map (readDesired numerals)
      some ⟨s.terminal, .settling mem.owned file (settle mem file), [], s.log ++ s.earlier⟩
    | .settling _ _ (.done mem) => some { s with leg := .listing mem.owned (inventory mem) }
    | .listing _ (.done (mem, _)) => some { s with leg := .ticked mem }
    | .ticked mem => some { s with leg := .commands mem.owned (handleCommand numerals mem) }
    | _ => none

/-- A loader that starts, with the map it loads. -/
def start (t : Terminal) (own : Ownership) (since : UInt64) : Course :=
  ⟨t, .ticked (Memory.init own since), [], []⟩

end Course

/-- What is known of the program that the loader runs. -/
def Leg.Sound (t : Terminal) (log : List (Sigma Ans)) : Leg → Prop
  | .commands own p => Covers (fun _ => True) (fun mem => mem.owned = own) p
  | .settling own file p =>
    Logs (fun log mem => Changed (deploymentsOf file) log own mem.owned) log p
  | .listing own p =>
    Leads (W := terminal) (fun _ _ => True) (fun _ _ _ => True)
      (fun r t => ∃ seen, r.1.owned = own.prune seen ∧ ∀ c ∈ t.charts, c.id ∈ seen) p t
  | _ => True

/-- What a pass prunes is not open. -/
theorem sound_inventory (mem : Memory) (t : Terminal) (log : List (Sigma Ans)) :
    (Leg.listing mem.owned (inventory mem)).Sound t log := by
  rw [Leg.Sound]
  refine (inventory_leads (P := fun _ => True) mem (fun _ _ _ _ _ h => h) trivial).mono ?_
  rintro ⟨mem', charts⟩ t' ⟨hmem, hseen, -⟩
  obtain rfl : mem' = mem.prune charts := hmem
  refine ⟨_, rfl, fun c hc => ?_⟩
  obtain ⟨y, hy, hsees⟩ := hseen.exists_of_mem hc
  rw [← hsees.chartId]
  exact List.mem_map_of_mem hy

variable {numerals : Numerals} {s s' : Course} {happening : Happening}

/-- Every answer keeps it. -/
theorem Leg.Sound.answer {t u : Terminal} {log : List (Sigma Ans)} {leg : Leg}
    {call : (o : Op) × (Ans o → Leg)} {choice : Choice} {a : Ans call.1}
    (h : leg.Sound t log) (hcall : leg.calling = some call)
    (hanswer : t.answer call.1 choice = some (a, u)) :
    (call.2 a).Sound u (⟨call.1, a⟩ :: log) := by
  cases leg with
  | commands own p =>
    cases p with
    | done mem => cases hcall
    | call o next =>
      obtain rfl := Option.some.inj hcall
      exact h.2 a
  | settling own file p =>
    cases p with
    | done mem => cases hcall
    | call o next =>
      obtain rfl := Option.some.inj hcall
      exact h a
  | listing own p =>
    cases p with
    | done r => cases hcall
    | call o next =>
      obtain rfl := Option.some.inj hcall
      simp only [Leg.Sound] at h
      exact h.of_call.2 choice a u trivial hanswer
  | reading mem | ticked mem => cases hcall

/-- Every step keeps it. -/
theorem Leg.Sound.step (h : s.leg.Sound s.terminal s.log)
    (hstep : s.step numerals happening = some s') : s'.leg.Sound s'.terminal s'.log := by
  obtain ⟨t, leg, log, earlier⟩ := s
  cases happening with
  | answer choice =>
    obtain ⟨call, hcall, hanswer⟩ := Option.bind_eq_some_iff.mp hstep
    obtain ⟨r, hr, rfl⟩ := Option.map_eq_some_iff.mp hanswer
    exact h.answer hcall hr
  -- charts come and go while the loader does not list them
  | charts t' =>
    cases leg with
    | listing own p => cases hstep
    | _ =>
      obtain rfl := Option.some.inj hstep
      exact h
  | expert event =>
    obtain rfl := Option.some.inj hstep
    cases leg with
    | listing own p => exact Leads.moved h (Relation.ReflTransGen.single ⟨event, rfl⟩)
    | _ => exact h
  | next text =>
    cases leg with
    | commands own p =>
      cases p with
      | call o next => cases hstep
      | done mem =>
        obtain rfl := Option.some.inj hstep
        trivial
    | reading mem =>
      obtain rfl := Option.some.inj hstep
      -- from here the log says how the map changes
      exact logs_settle mem _
    | settling own file p =>
      cases p with
      | call o next => cases hstep
      | done mem =>
        obtain rfl := Option.some.inj hstep
        exact sound_inventory mem t log
    | listing own p =>
      cases p with
      | call o next => cases hstep
      | done r =>
        obtain rfl := Option.some.inj hstep
        trivial
    | ticked mem =>
      obtain rfl := Option.some.inj hstep
      exact (handleCommand_keeps numerals mem).mono fun mem' h => h.1

/-- An answer does nothing to the map yet. -/
theorem Leg.own_calling {leg : Leg} {call : (o : Op) × (Ans o → Leg)}
    (h : leg.calling = some call) (a : Ans call.1) : (call.2 a).own = leg.own := by
  cases leg with
  | commands own p | settling own file p | listing own p =>
    cases p with
    | done r => cases h
    | call o next =>
      obtain rfl := Option.some.inj h
      rfl
  | reading mem | ticked mem => cases h

/-- What a step does to the map. -/
theorem Leg.Sound.changes (h : s.leg.Sound s.terminal s.log)
    (hstep : s.step numerals happening = some s') :
    ∃ changes, s'.leg.own = applyAll changes s.leg.own ∧
      ∀ change ∈ changes, change.Grounded s.leg.desired s.log s.terminal := by
  have hsame : s'.leg.own = s.leg.own → ∃ changes, s'.leg.own = applyAll changes s.leg.own ∧
      ∀ change ∈ changes, change.Grounded s.leg.desired s.log s.terminal :=
    fun heq => ⟨[], heq, fun _ hchange => absurd hchange List.not_mem_nil⟩
  obtain ⟨t, leg, log, earlier⟩ := s
  cases happening with
  | answer choice =>
    obtain ⟨call, hcall, hanswer⟩ := Option.bind_eq_some_iff.mp hstep
    obtain ⟨r, -, rfl⟩ := Option.map_eq_some_iff.mp hanswer
    exact hsame (Leg.own_calling hcall r.1)
  | charts t' =>
    cases leg with
    | listing own p => cases hstep
    | _ =>
      obtain rfl := Option.some.inj hstep
      exact hsame rfl
  | expert event =>
    obtain rfl := Option.some.inj hstep
    exact hsame rfl
  | next text =>
    cases leg with
    | commands own p =>
      cases p with
      | call o next => cases hstep
      | done mem =>
        -- no command changes the map
        obtain rfl := Option.some.inj hstep
        exact hsame h
    | reading mem | ticked mem =>
      obtain rfl := Option.some.inj hstep
      exact hsame rfl
    | settling own file p =>
      cases p with
      | call o next => cases hstep
      | done mem =>
        obtain rfl := Option.some.inj hstep
        obtain ⟨changes, hchanges, hgrounded⟩ := h
        exact ⟨changes, hchanges, fun change hchange => hgrounded change hchange t⟩
    | listing own p =>
      cases p with
      | call o next => cases hstep
      | done r =>
        obtain rfl := Option.some.inj hstep
        simp only [Leg.Sound] at h
        obtain ⟨seen, hprune, hopen⟩ := h.of_done
        refine ⟨[.prune seen], hprune, fun change hchange => ?_⟩
        rwa [List.mem_singleton.mp hchange]

/-- A change that removes an entry removes it for one of the reasons there are. -/
theorem MapChange.Grounded.reason {desired : List ChartCtlDeployment} {log : List (Sigma Ans)}
    {t : Terminal} {change : MapChange} {e : Owned} (h : change.Grounded desired log t)
    (hremoves : change.Removes e) :
    ⟨.chartClose .detach e.chart, true⟩ ∈ log ∨ e.chart ∉ t.charts.map Chart.id ∨
      ∃ dep ∈ desired, dep.enabled = true ∧ ∃ chart, change = .claim chart dep.id ∧
        (dep.id = e.id ∧ chart ≠ e.chart ∨ dep.id ≠ e.id ∧ chart = e.chart) := by
  obtain ⟨eChart, eId⟩ := e
  cases change with
  | claim chart id =>
    obtain ⟨dep, hdep, rfl, henabled⟩ := h
    obtain ⟨hne, hchart | hid⟩ := hremoves
    · obtain rfl : eChart = chart := hchart
      refine Or.inr (Or.inr ⟨dep, hdep, henabled, _, rfl, Or.inr ⟨fun hid => hne ?_, rfl⟩⟩)
      rw [hid]
    · obtain rfl : eId = dep.id := hid
      refine Or.inr (Or.inr ⟨dep, hdep, henabled, _, rfl, Or.inl ⟨rfl, fun hchart => hne ?_⟩⟩)
      rw [hchart]
  | drop chart =>
    obtain rfl : eChart = chart := hremoves
    exact Or.inl h
  | prune seen =>
    refine Or.inr (Or.inl fun hopen => hremoves ?_)
    obtain ⟨c, hc, hid⟩ := List.mem_map.mp hopen
    rw [← hid]
    exact h c hc

/-- Two charts on one symbol and timeframe. The one that the map has lost its expert, and the other
one has come up with it. -/
def restoredTerminal : Terminal where
  charts := [⟨1, "EURUSD".toList, .h1, [], []⟩, ⟨2, "EURUSD".toList, .h1, "Trend".toList, []⟩]
  self := 3
  nodup := by decide
  ids_ne_zero := by decide
  few := by decide

def restoredOwners : Ownership := .single 1 "trend".toList

/-- A file with their deployment. -/
def restoredText : List Char :=
  ("\x7b\"revision\": 3, \"deployments\": [\x7b\"id\": \"trend\", \"expert\": \"Trend\", " ++
    "\"template\": \"trend.tpl\", \"symbol\": \"EURUSD\", \"timeframe\": \"H1\"\x7d]\x7d").toList

/-- No command, and a pass that is about to look at the charts for the last time. -/
def restoredRun : List Happening :=
  [.next none, .answer {}, .next none, .next (some restoredText)] ++ List.replicate 19 (.answer {})

/-- The call closes a chart, or tries to. -/
def Op.closes : Op → Bool
  | .chartClose _ _ => true
  | _ => false

/-- The other chart is adopted. The chart of the map is still open, and nothing was closed. -/
theorem restored_departs : ∃ s s' : Course,
    Run (Course.step decimals) (Course.start restoredTerminal restoredOwners 0) s ∧
      s.step decimals (.next none) = some s' ∧ ⟨1, "trend".toList⟩ ∈ s.leg.own ∧
      ⟨1, "trend".toList⟩ ∉ s'.leg.own ∧ 1 ∈ s.terminal.charts.map Chart.id ∧
      ∀ site chart closed, ⟨.chartClose site chart, closed⟩ ∉ s.log ++ s.earlier := by
  have hexec : (exec (Course.step decimals) (Course.start restoredTerminal restoredOwners 0)
      restoredRun).any (fun s => (s.step decimals (.next none)).any fun s' =>
        decide (⟨1, "trend".toList⟩ ∈ s.leg.own.entries) &&
        decide (⟨1, "trend".toList⟩ ∉ s'.leg.own.entries) &&
        decide (1 ∈ s.terminal.charts.map Chart.id) &&
        (s.log ++ s.earlier).all fun entry => !entry.1.closes) = true := by
    decide +kernel
  obtain ⟨s, hrun, hdeparts⟩ := exists_run_of_exec hexec
  obtain ⟨s', hstep, hdeparts⟩ := (Option.any_eq_true _ _).mp hdeparts
  simp only [Bool.and_eq_true, decide_eq_true_eq, List.all_eq_true] at hdeparts
  obtain ⟨⟨⟨hbefore, hafter⟩, hopen⟩, hlog⟩ := hdeparts
  refine ⟨s, s', hrun, hstep, hbefore, hafter, hopen, fun site chart closed hclosed => ?_⟩
  exact absurd (hlog _ hclosed) Bool.false_ne_true

end ChartCtl

import Mt5HttpApi.ChartCtl.Charts

/-!
# One pass of the loader

`CChartControl::Tick` as stages that follow one another: the command, the read of `desired.json`,
the pass over the charts, and the write of `observed.json`.

* `pass_sweeps`: when every chart that is detached closes, a pass leaves in the ownership map only
  charts of deployments that are desired and enabled (`Swept`).
* `pass_arms`: a pass applies only the templates of such deployments.
-/

namespace ChartCtl

open Interaction Program

/-- What `Tick` reads from `desired.json`. -/
structure Desired where
  revision : Int
  deployments : List ChartCtlDeployment

/-- `rev` and `desired` of `Tick`: none are found when `ExtractDeployments` fails. -/
def readDesired (numerals : Numerals) (json : List Char) : Desired :=
  ⟨jsonNum numerals "revision".toList json, (extractDeployments json).getD []⟩

/-- `Tick` after the read: without a file it only looks at the charts. -/
def pass (mem : Memory) : Option Desired → Program Ans (Memory × List ChartCtlChart)
  | some file => reconcile mem file.revision file.deployments
  | none => inventory mem

/-- Where the loader is in `Tick`. -/
inductive Stage
  /-- In `HandleCommand`. -/
  | commands (p : Program Ans Memory)
  /-- Before it reads `desired.json`. -/
  | reading (mem : Memory)
  /-- It has read `desired.json`, if it could, and deals with the charts. -/
  | passing (file : Option Desired) (p : Program Ans (Memory × List ChartCtlChart))
  /-- Before `WriteObserved`. -/
  | writing (file : Option Desired) (mem : Memory) (charts : List ChartCtlChart)

/-- The loader and its terminal. -/
structure Loader where
  terminal : Terminal
  stage : Stage

/-- What happens to the loader. -/
inductive Progress
  /-- The terminal answers a call. -/
  | answer (choice : Choice)
  /-- An expert comes or goes. -/
  | move (event : Nat × List Char)
  /-- A stage is over. -/
  | next

/-- One step of the loader. `text` is `desired.json` as it would read it now. -/
def Loader.step (numerals : Numerals) (text : Option (List Char)) (loader : Loader) :
    Progress → Option Loader
  | .answer choice =>
    match loader.stage with
    | .commands p =>
      (resume ChartCtl.terminal loader.terminal choice p).map fun r => ⟨r.1, .commands r.2⟩
    | .passing file p =>
      (resume ChartCtl.terminal loader.terminal choice p).map fun r => ⟨r.1, .passing file r.2⟩
    | _ => none
  | .move event => some ⟨loader.terminal.setExpert event.1 event.2, loader.stage⟩
  | .next =>
    match loader.stage with
    | .commands (.done mem) => some ⟨loader.terminal, .reading mem⟩
    | .reading mem =>
      let file := text.map (readDesired numerals)
      some ⟨loader.terminal, .passing file (pass mem file)⟩
    | .passing file (.done (mem, charts)) => some ⟨loader.terminal, .writing file mem charts⟩
    -- the next `Tick`
    | .writing _ mem _ => some ⟨loader.terminal, .commands (handleCommand numerals mem)⟩
    | _ => none

/-- A loader that starts, with the ownership map it loads. -/
def Memory.init (own : Ownership) (since : UInt64) : Memory where
  owned := own
  appliedRevision := -1
  errors := []
  restored := own.entries.map Owned.id
  ownerSince := since

/-- A command changes nothing the loader remembers, but for the revision that it applied. -/
theorem handleCommand_keeps (numerals : Numerals) (mem : Memory) :
    Covers (fun _ => True) (fun mem' : Memory => mem'.owned = mem.owned ∧
      (mem'.appliedRevision = mem.appliedRevision ∨ mem'.appliedRevision = -1))
      (handleCommand numerals mem) := by
  simp only [handleCommand, fileText, ask_bind]
  refine ⟨trivial, fun body => ?_⟩
  cases body with
  | none => exact ⟨rfl, Or.inl rfl⟩
  | some body =>
    dsimp only
    split
    · exact ⟨rfl, Or.inl rfl⟩
    split
    · exact ⟨rfl, Or.inr rfl⟩
    split
    · -- a chart is closed, which no map hears of
      refine ⟨trivial, fun self => ?_⟩
      dsimp only
      split
      · exact ⟨rfl, Or.inl rfl⟩
      · exact ⟨trivial, fun _ => ⟨rfl, Or.inl rfl⟩⟩
    · exact ⟨rfl, Or.inl rfl⟩

/-! ## What a pass leaves in the ownership map -/

/-- A chart that `DetachChart` closes does close. -/
def Detaches (_ : Terminal) : Op → Choice → Prop
  | .chartClose .detach _, choice => choice.succeeds = true
  | _, _ => True

theorem detaches_of_succeeds {t : Terminal} {o : Op} {choice : Choice}
    (h : choice.succeeds = true) : Detaches t o choice := by
  cases o with
  | chartClose site id =>
    cases site with
    | detach => exact h
    | command | notApplied | notAttached => trivial
  | _ => trivial

/-- The charts of the map that are open and to be detached are among those still ahead. -/
def Pending (desired : List ChartCtlDeployment) (own : Ownership) (rest : List ChartCtlChart)
    (t : Terminal) : Prop :=
  ∀ e ∈ own, e.id ≠ [] → wanted desired e.id = false → e.chart ∈ t.charts.map Chart.id →
    ∃ y ∈ rest, y.chartId = e.chart ∧ y.deploymentId = e.id

variable {desired : List ChartCtlDeployment} {own : Ownership} {rest : List ChartCtlChart}
  {t t' : Terminal}

/-- Charts may close. -/
theorem Pending.mono (h : Pending desired own rest t)
    (hcharts : t'.charts.map Chart.id ⊆ t.charts.map Chart.id) : Pending desired own rest t' :=
  fun e he hid hunwanted hopen => h e he hid hunwanted (hcharts hopen)

theorem Pending.stable : Stable (Pending desired own rest) := by
  intro t t' f hf hdrift h
  refine h.mono fun id hid => ?_
  rw [hf, List.map_map] at hid
  obtain ⟨c, hc, rfl⟩ := List.mem_map.mp hid
  exact List.mem_map.mpr ⟨c, hc, (hdrift c).id.symm⟩

/-- After a scan the charts to be detached are among those that were seen. -/
theorem Seen.pending (h : Seen own rest t) : Pending desired own rest t := by
  intro e he _ _ hopen
  obtain ⟨c, hc, hid⟩ := List.mem_map.mp hopen
  obtain ⟨y, hy, hsees⟩ := h.exists_of_mem hc
  refine ⟨y, hy, hsees.chartId.trans hid, ?_⟩
  rw [hsees.deploymentId, hid, Ownership.ownerOf_of_mem he]

/-- A chart whose deployment is wanted is passed over. -/
theorem Pending.skip {y : ChartCtlChart} (h : Pending desired own (y :: rest) t)
    (hy : y.deploymentId = [] ∨ wanted desired y.deploymentId = true) :
    Pending desired own rest t := by
  intro e he hid hunwanted hopen
  obtain ⟨z, hz, hchart, hdep⟩ := h e he hid hunwanted hopen
  rcases List.mem_cons.mp hz with rfl | hz
  · rw [hdep, hunwanted] at hy
    exact absurd hy (by simp [hid])
  · exact ⟨z, hz, hchart, hdep⟩

/-- A chart is closed and leaves the map. -/
theorem Pending.drop {y : ChartCtlChart} (h : Pending desired own (y :: rest) t) (id : Nat) :
    Pending desired (own.drop y.chartId) rest (t.closeChart id) := by
  intro e he hid hunwanted hopen
  obtain ⟨he, hne⟩ := Ownership.mem_drop.mp he
  have hsubset : (t.closeChart id).charts.map Chart.id ⊆ t.charts.map Chart.id :=
    List.map_subset _ List.filter_sublist.subset
  obtain ⟨z, hz, hchart, hdep⟩ := h e he hid hunwanted (hsubset hopen)
  rcases List.mem_cons.mp hz with rfl | hz
  · exact absurd hchart.symm hne
  · exact ⟨z, hz, hchart, hdep⟩

/-- A call to close a chart that succeeds closes one. -/
theorem answer_chartClose {site : CloseSite} {id : Int} {choice : Choice} {a : Bool}
    (h : t.answer (.chartClose site id) choice = some (a, t')) (hc : choice.succeeds = true) :
    a = true ∧ ∃ k, t' = t.closeChart k := by
  simp only [Terminal.answer, hc, if_true] at h
  generalize (if id = 0 then t.self else id.toNat) = k at h
  split at h
  · obtain ⟨rfl, rfl⟩ := Prod.mk.inj (Option.some.inj h)
    exact ⟨rfl, _, rfl⟩
  · cases h

/-- The loop that detaches leaves no chart behind that is to be detached. -/
theorem detachAll_leads {mem : Memory} (h : Pending desired mem.owned rest t) :
    Leads (W := terminal) (fun _ _ => True) Detaches
      (fun mem' t' => Pending desired mem'.owned [] t') (detachAll desired mem rest) t := by
  induction rest generalizing mem t with
  | nil => exact leads_pure Pending.stable h fun t ht => ht
  | cons y rest ih =>
    rw [detachAll]
    split
    next hkept => exact ih (h.skip hkept)
    next =>
      rw [detachChart]
      simp only [ask_bind]
      refine leads_call (Pending.stable.move) h (fun _ _ => trivial) ?_
      intro t ht choice a u hc hanswer
      obtain ⟨rfl, k, rfl⟩ := answer_chartClose hanswer hc
      exact ih (ht.drop k)

/-- `ScanCharts` and `PruneOwnership`: what is left in the map was seen. -/
theorem inventory_leads {allowed : Terminal → Op → Choice → Prop} {P : Terminal → Prop}
    (mem : Memory) (hP : Stable P) (ht : P t) :
    Leads (W := terminal) (fun _ _ => True) allowed
      (fun r t' => r.1 = mem.prune r.2 ∧ Seen mem.owned r.2 t' ∧ P t') (inventory mem) t := by
  rw [inventory]
  refine (scanCharts_leads (K := fun _ _ => True) hP (fun _ _ _ _ _ _ h => h)
    (fun _ _ _ _ => trivial) (fun _ _ _ _ => trivial) ht).bind ?_
  rintro charts t' ⟨ht', hseen, -⟩
  have hstable : Stable fun t => Seen mem.owned charts t ∧ P t := fun t t' f hf hdrift h =>
    ⟨Seen.stable mem.owned charts t t' f hf hdrift h.1, hP t t' f hf hdrift h.2⟩
  exact leads_pure hstable ⟨hseen, ht'⟩ fun t ht => ⟨rfl, ht⟩

/-- What a pass makes of what the loader remembers, and the charts it saw last. -/
structure Swept (file : Option Desired) (before mem : Memory) (charts : List ChartCtlChart) :
    Prop where
  /-- A chart that has an owner is in the map. -/
  owners : ∀ y ∈ charts, y.deploymentId ≠ [] → ⟨y.chartId, y.deploymentId⟩ ∈ mem.owned
  /-- Without a file, entries go only. -/
  kept : file = none → mem.appliedRevision = before.appliedRevision ∧
    ∀ e ∈ mem.owned, e ∈ before.owned
  /-- With one, the owners are wanted. -/
  applied : ∀ f, file = some f → mem.appliedRevision = f.revision ∧
    ∀ e ∈ mem.owned, e.id ≠ [] → wanted f.deployments e.id = true

/-- A chart that was seen and has an owner stays in the map. -/
theorem Seen.mem_prune {mem : Memory} {charts : List ChartCtlChart} (h : Seen mem.owned charts t)
    {y : ChartCtlChart} (hy : y ∈ charts) (hid : y.deploymentId ≠ []) :
    ⟨y.chartId, y.deploymentId⟩ ∈ (mem.prune charts).owned := by
  obtain ⟨c, -, hsees⟩ := h.exists_chart hy
  refine Ownership.mem_prune.mpr ⟨?_, List.mem_map_of_mem hy⟩
  rw [hsees.deploymentId, ← hsees.chartId] at hid ⊢
  exact Ownership.mem_of_ownerOf_ne hid

/-- When every chart that is detached closes, a pass leaves only owners that are wanted. -/
theorem pass_sweeps (file : Option Desired) (mem : Memory) (t : Terminal) :
    Leads (W := terminal) (fun _ _ => True) Detaches (fun r _ => Swept file mem r.1 r.2)
      (pass mem file) t := by
  cases file with
  | none =>
    refine (inventory_leads (P := fun _ => True) mem (fun _ _ _ _ _ h => h) trivial).mono ?_
    rintro ⟨mem', charts⟩ t' ⟨hmem, hseen, -⟩
    obtain rfl : mem' = mem.prune charts := hmem
    exact
      { owners := fun y hy hid => hseen.mem_prune hy hid
        kept := fun _ => ⟨rfl, fun e he => (Ownership.mem_prune.mp he).1⟩
        applied := fun f hf => absurd hf.symm (Option.some_ne_none f) }
  | some file =>
    rw [pass, reconcile]
    -- whatever the attaches do, the scan after them sees every chart
    refine ((covers_trivial _).leads fun _ _ _ => trivial).bind fun charts₁ t₁ _ => ?_
    refine ((covers_trivial _).leads fun _ _ _ => trivial).bind fun pass t₂ _ => ?_
    refine ((covers_trivial _).leads fun _ _ _ => trivial).bind fun grace t₃ _ => ?_
    refine (scanCharts_leads (I := fun _ => True) (K := fun _ _ => True) (fun _ _ _ _ _ h => h)
      (fun _ _ _ _ _ _ h => h) (fun _ _ _ _ => trivial) (fun _ _ _ _ => trivial) trivial).bind ?_
    rintro charts₂ t₄ ⟨-, hseen, -⟩
    refine (detachAll_leads hseen.pending).bind fun mem₁ t₅ hpending => ?_
    refine (inventory_leads { mem₁ with appliedRevision := file.revision } Pending.stable
      hpending).mono ?_
    rintro ⟨mem', charts⟩ t' ⟨hmem, hseen, hpending⟩
    obtain rfl : mem' = Memory.prune { mem₁ with appliedRevision := file.revision } charts := hmem
    refine
      { owners := fun y hy hid => hseen.mem_prune hy hid
        kept := fun hf => absurd hf (Option.some_ne_none file)
        applied := fun f hf => ?_ }
    obtain rfl := Option.some.inj hf
    refine ⟨rfl, fun e he hid => ?_⟩
    -- an entry that is left is of a chart that is open
    obtain ⟨he, hchart⟩ := Ownership.mem_prune.mp he
    obtain ⟨y, hy, hye⟩ := List.mem_map.mp hchart
    obtain ⟨c, hc, hsees⟩ := hseen.exists_chart hy
    have hopen : e.chart ∈ t'.charts.map Chart.id :=
      List.mem_map.mpr ⟨c, hc, hsees.chartId.symm.trans hye⟩
    by_contra hunwanted
    obtain ⟨z, hz, -⟩ := hpending e he hid (Bool.eq_false_iff.mpr hunwanted) hopen
    exact absurd hz List.not_mem_nil

/-! ## The templates a pass applies -/

/-- A template that is applied is one of an enabled deployment. -/
def Arms (desired : List ChartCtlDeployment) (o : Op) : Prop :=
  ∀ chart templ, o = .chartApplyTemplate chart templ →
    ∃ dep ∈ desired, dep.enabled = true ∧ dep.templ = templ

/-- The program applies no other template. -/
abbrev ArmsOnly (desired : List ChartCtlDeployment) {α : Type} (p : Program Ans α) : Prop :=
  Covers (Arms desired) (fun _ => True) p

/-- A call that applies no template. -/
theorem armsOnly_call {o : Op} {α : Type} {next : Ans o → Program Ans α}
    (ho : ∀ chart templ, o ≠ .chartApplyTemplate chart templ)
    (hnext : ∀ a, ArmsOnly desired (next a)) : ArmsOnly desired (.call o next) :=
  ⟨fun chart templ heq => absurd heq (ho chart templ), hnext⟩

theorem armsOnly_scanFrom (own : Ownership) (guard : Nat) (id : Option Nat)
    (out : List ChartCtlChart) : ArmsOnly desired (scanFrom own guard id out) := by
  induction guard generalizing id out with
  | zero => trivial
  | succ guard ih =>
    cases id with
    | none => trivial
    | some id =>
      refine armsOnly_call (by simp) fun symbol => ?_
      refine armsOnly_call (by simp) fun period => ?_
      refine armsOnly_call (by simp) fun expert => ?_
      refine armsOnly_call (by simp) fun next => ?_
      exact ih next _

theorem armsOnly_scanCharts (own : Ownership) : ArmsOnly desired (scanCharts own) :=
  armsOnly_call (by simp) fun first => armsOnly_scanFrom own 1000 first []

theorem armsOnly_inGrace (mem : Memory) : ArmsOnly desired (inGrace mem) :=
  armsOnly_call (by simp) fun _ => trivial

theorem armsOnly_recordError (mem : Memory) (id : List Char) (code : String) :
    ArmsOnly desired (recordError mem id code) :=
  armsOnly_call (by simp) fun _ => trivial

theorem armsOnly_inRetryCooldown (mem : Memory) (id : List Char) :
    ArmsOnly desired (inRetryCooldown mem id) := by
  rw [inRetryCooldown]
  split
  · trivial
  · exact armsOnly_call (by simp) fun _ => trivial

theorem armsOnly_closeOpened (opened : Bool) (site : CloseSite) (chart : Nat) :
    ArmsOnly desired (closeOpened opened site chart) := by
  rw [closeOpened]
  split
  · exact armsOnly_call (by simp) fun _ => trivial
  · trivial

theorem armsOnly_awaitExpert (chart : Nat) (dep : ChartCtlDeployment) (opened : Bool)
    (mem : Memory) (n : Nat) : ArmsOnly desired (awaitExpert chart dep opened mem n) := by
  induction n with
  | zero =>
    exact (armsOnly_closeOpened opened _ chart).bind fun _ _ => armsOnly_recordError mem _ _
  | succ n ih =>
    simp only [awaitExpert, ask_bind]
    refine armsOnly_call (by simp) fun expert => ?_
    split
    · trivial
    · exact ih

/-- The template of the deployment is the only one. -/
theorem armsOnly_armChart {dep : ChartCtlDeployment} (hdep : dep ∈ desired)
    (henabled : dep.enabled = true) (chart : Nat) (opened : Bool) (mem : Memory) :
    ArmsOnly desired (armChart chart dep opened mem) := by
  simp only [armChart, ask_bind]
  refine ⟨fun chart' templ heq => ⟨dep, hdep, henabled, ?_⟩, fun applied => ?_⟩
  · exact (Op.chartApplyTemplate.inj heq).2
  · dsimp only
    split
    · exact armsOnly_awaitExpert chart dep opened mem 40
    · exact (armsOnly_recordError mem _ _).bind fun _ _ =>
        (armsOnly_closeOpened opened _ chart).bind fun _ _ => trivial

theorem armsOnly_attachDeployment {dep : ChartCtlDeployment} (hdep : dep ∈ desired)
    (henabled : dep.enabled = true) (mem : Memory) :
    ArmsOnly desired (attachDeployment dep mem) := by
  simp only [attachDeployment, ask_bind]
  refine armsOnly_call (by simp) fun selected => ?_
  split
  · refine armsOnly_call (by simp) fun chart => ?_
    split
    · exact armsOnly_recordError mem _ _
    · exact armsOnly_armChart hdep henabled chart true mem
  · exact armsOnly_recordError mem _ _

theorem armsOnly_attach {dep : ChartCtlDeployment} (hdep : dep ∈ desired) (pass : Pass) :
    ArmsOnly desired (attach pass dep) := by
  obtain ⟨charts, mem⟩ := pass
  rw [attach]
  split
  next => trivial
  next henabled =>
    rw [Bool.not_eq_true, Bool.not_eq_false'] at henabled
    split
    · trivial
    split
    next => trivial
    next =>
      refine (armsOnly_inRetryCooldown mem dep.id).bind fun cooldown _ => ?_
      split
      · trivial
      refine (armsOnly_inGrace mem).bind fun grace _ => ?_
      split
      · trivial
      split
      · exact (armsOnly_armChart hdep henabled _ false _).bind fun _ _ => trivial
      · exact (armsOnly_attachDeployment hdep henabled mem).bind fun _ _ => trivial

theorem armsOnly_attachAll {deps : List ChartCtlDeployment} (h : deps ⊆ desired) (pass : Pass) :
    ArmsOnly desired (attachAll pass deps) := by
  induction deps generalizing pass with
  | nil => trivial
  | cons dep deps ih =>
    rw [List.cons_subset] at h
    exact (armsOnly_attach h.1 pass).bind fun pass _ => ih h.2 pass

theorem armsOnly_detachChart (mem : Memory) (chart : Nat) :
    ArmsOnly desired (detachChart mem chart) := by
  simp only [detachChart, ask_bind]
  refine armsOnly_call (by simp) fun closed => ?_
  split <;> trivial

theorem armsOnly_detachAll (mem : Memory) (charts : List ChartCtlChart) :
    ArmsOnly desired (detachAll desired mem charts) := by
  induction charts generalizing mem with
  | nil => trivial
  | cons c charts ih =>
    rw [detachAll]
    split
    · exact ih mem
    · exact (armsOnly_detachChart mem c.chartId).bind fun mem _ => ih mem

theorem armsOnly_inventory (mem : Memory) : ArmsOnly desired (inventory mem) :=
  (armsOnly_scanCharts mem.owned).bind fun _ _ => trivial

/-- A pass applies only templates of deployments that it read as enabled. -/
theorem pass_arms (mem : Memory) (file : Option Desired) :
    ArmsOnly ((file.map Desired.deployments).getD []) (pass mem file) := by
  cases file with
  | none => exact armsOnly_inventory mem
  | some file =>
    refine (armsOnly_scanCharts mem.owned).bind fun charts _ => ?_
    refine (armsOnly_attachAll (List.Subset.refl _) (charts, mem)).bind fun pass _ => ?_
    refine (armsOnly_inGrace pass.2).bind fun grace _ => ?_
    refine (armsOnly_scanCharts _).bind fun charts _ => ?_
    refine (armsOnly_detachAll _ charts).bind fun mem _ => ?_
    exact armsOnly_inventory _

end ChartCtl

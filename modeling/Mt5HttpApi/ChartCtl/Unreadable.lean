import Mt5HttpApi.ChartCtl.Desired
import Mt5HttpApi.ChartCtl.Tick

/-!
# A `desired.json` that is no list of deployments

`Tick` takes no notice of what `ExtractDeployments` returns: with a file that it cannot read as a
list, or only the beginning of one, it goes on as if the deployments found were all there are. What
a pass over such a file leaves alone (`Spares`) is said by `spares_iff_accords`.

- `spares_iff_accords`: no chart is closed and the map stays as it was if the deployments found are
  just those of the map; and if `ExtractDeployments` fails, only if the map has none.
- `not_spares`: an empty file closes a chart.
-/

namespace ChartCtl

open Interaction Program

/-- The call closes no chart. -/
def Lenient (_ : Terminal) (o : Op) : Prop := ∀ site chart, o ≠ .chartClose site chart

/-- What a pass over the file does, whatever the terminal answers: it closes no chart, and the map
is as it was. -/
def Spares (mem : Memory) (file : Desired) (t : Terminal) : Prop :=
  Leads (W := terminal) Lenient (fun _ _ _ => True) (fun r _ => ∀ e, e ∈ r.1.owned ↔ e ∈ mem.owned)
    (pass mem (some file)) t

/-- A chart is on the symbol and the timeframe of a deployment. -/
def Chart.suits (c : Chart) (dep : ChartCtlDeployment) : Prop :=
  c.symbol = dep.symbol ∧ c.timeframe.toText = "PERIOD_".toList ++ dep.timeframe

/-- The map is what the deployments ask for: the charts of the map are open and their deployments
are wanted, every enabled deployment has a chart in the map, on its symbol and timeframe, and no
other chart there could be taken for it. -/
structure Accords (desired : List ChartCtlDeployment) (own : Ownership) (t : Terminal) : Prop where
  opened : ∀ e ∈ own, e.chart ∈ t.charts.map Chart.id
  wanted : ∀ e ∈ own, e.id = [] ∨ wanted desired e.id = true
  placed : ∀ dep ∈ desired, dep.enabled = true →
    ∃ e ∈ own, e.id = dep.id ∧ ∃ c ∈ t.charts, c.id = e.chart ∧ c.suits dep
  alone : ∀ dep ∈ desired, dep.enabled = true → ∀ c ∈ t.charts, own.ownerOf c.id = [] →
    c.suits dep → c.applied = [] ∧ (c.expert = [] ∨ c.expert ≠ dep.expert)

/-! ## The map -/

variable {own own' : Ownership} {desired : List ChartCtlDeployment} {t t' : Terminal}

/-- The two maps have the same entries. -/
def SameMap (own own' : Ownership) : Prop := ∀ e, e ∈ own' ↔ e ∈ own

theorem SameMap.ownerOf (h : SameMap own own') (chart : Nat) :
    own'.ownerOf chart = own.ownerOf chart :=
  Ownership.ownerOf_congr fun e _ => h e

/-- A claim of what a deployment has already makes no difference. -/
theorem SameMap.claim (h : SameMap own own') {chart : Nat} {id : List Char}
    (hmem : ⟨chart, id⟩ ∈ own) : SameMap own (own'.claim chart id) := by
  intro e
  rw [Ownership.mem_claim, h e]
  constructor
  · rintro (rfl | ⟨he, -⟩)
    · exact hmem
    · exact he
  · intro he
    by_cases heq : e = ⟨chart, id⟩
    · exact Or.inl heq
    · exact Or.inr ⟨he, fun hchart => heq (Ownership.eq_of_chart he hmem hchart),
        fun hid => heq (Ownership.eq_of_id he hmem hid)⟩

theorem Accords.congr (h : Accords desired own t) (hsame : SameMap own own') :
    Accords desired own' t where
  opened e he := h.opened e ((hsame e).mp he)
  wanted e he := h.wanted e ((hsame e).mp he)
  placed dep hdep henabled := by
    obtain ⟨e, he, hrest⟩ := h.placed dep hdep henabled
    exact ⟨e, (hsame e).mpr he, hrest⟩
  alone dep hdep henabled c hc howner := by
    rw [hsame.ownerOf] at howner
    exact h.alone dep hdep henabled c hc howner

/-- The charts change, but not where they are, and those of no owner only lose their experts. -/
theorem Accords.map {f : Chart → Chart} (h : Accords desired own t)
    (hcharts : t'.charts = t.charts.map f)
    (hid : ∀ c, (f c).id = c.id ∧ (f c).symbol = c.symbol ∧ (f c).timeframe = c.timeframe)
    (hfree : ∀ c ∈ t.charts, own.ownerOf c.id = [] → c.applied = [] →
      (f c).applied = [] ∧ ((f c).expert = [] ∨ (f c).expert = c.expert)) :
    Accords desired own t' where
  opened e he := by
    obtain ⟨c, hc, hchart⟩ := List.mem_map.mp (h.opened e he)
    rw [hcharts, List.map_map]
    exact List.mem_map.mpr ⟨c, hc, (hid c).1.trans hchart⟩
  wanted := h.wanted
  placed dep hdep henabled := by
    obtain ⟨e, he, heid, c, hc, hchart, hsuits⟩ := h.placed dep hdep henabled
    refine ⟨e, he, heid, f c, ?_, (hid c).1.trans hchart, ?_⟩
    · rw [hcharts]
      exact List.mem_map_of_mem hc
    · rw [Chart.suits, (hid c).2.1, (hid c).2.2]
      exact hsuits
  alone dep hdep henabled c' hc' howner hsuits := by
    rw [hcharts] at hc'
    obtain ⟨c, hc, rfl⟩ := List.mem_map.mp hc'
    rw [(hid c).1] at howner
    rw [Chart.suits, (hid c).2.1, (hid c).2.2] at hsuits
    obtain ⟨happlied, hexpert⟩ := h.alone dep hdep henabled c hc howner hsuits
    obtain ⟨happlied', hleft | hsame⟩ := hfree c hc howner happlied
    · exact ⟨happlied', Or.inl hleft⟩
    · rw [hsame]
      exact ⟨happlied', hexpert⟩

theorem Accords.stable (desired : List ChartCtlDeployment) (own : Ownership) :
    Stable (Accords desired own) := by
  intro t t' f hf hdrift h
  refine h.map hf (fun c => ⟨(hdrift c).id, (hdrift c).symbol, (hdrift c).timeframe⟩) ?_
  exact fun c _ _ happlied => ⟨(hdrift c).applied.trans happlied, (hdrift c).expert happlied⟩

/-! ## Looking at the charts -/

/-- The chart that was seen is not taken for a deployment. -/
def Unadoptable (desired : List ChartCtlDeployment) (y : ChartCtlChart) : Prop :=
  ∀ dep ∈ desired, dep.enabled = true → y.deploymentId = [] → dep.targets y = true →
    y.expert = [] ∨ y.expert ≠ dep.expert

/-- What a pass knows of the charts it saw. -/
structure Watches (desired : List ChartCtlDeployment) (own : Ownership)
    (charts : List ChartCtlChart) (t : Terminal) : Prop where
  accords : Accords desired own t
  seen : Seen own charts t
  unadoptable : ∀ y ∈ charts, Unadoptable desired y

variable {charts : List ChartCtlChart} {mem : Memory} {dep : ChartCtlDeployment}

theorem Watches.stable (desired : List ChartCtlDeployment) (own : Ownership)
    (charts : List ChartCtlChart) : Stable (Watches desired own charts) :=
  fun t t' f hf hdrift h => ⟨Accords.stable desired own t t' f hf hdrift h.accords,
    Seen.stable own charts t t' f hf hdrift h.seen, h.unadoptable⟩

theorem lenient_of_isQuery {o : Op} (h : o.isQuery = true) : Lenient t o := by
  rintro site chart rfl
  cases h

theorem scanCharts_watches (h : Accords desired own t) :
    Leads (W := terminal) Lenient (fun _ _ _ => True) (Watches desired own) (scanCharts own) t := by
  refine (scanCharts_leads (I := Accords desired own) (K := fun _ y => Unadoptable desired y)
    (Accords.stable desired own) (fun _ _ _ _ _ _ h => h) (fun _ _ _ => lenient_of_isQuery) ?_
    h).mono fun charts t h => ⟨h.1, h.2.1, h.2.2⟩
  intro t c ht hc dep hdep henabled howner htargets
  simp only [ChartCtlDeployment.targets, decide_eq_true_eq] at htargets
  exact (ht.alone dep hdep henabled c hc howner htargets).2

/-- A template is applied to a chart of the map. -/
theorem Watches.apply (h : Watches desired own charts t) {id : Nat} (howner : own.ownerOf id ≠ [])
    (templ : List Char) : Watches desired own charts
      (t.mapChart id (fun c => { c with applied := templ :: c.applied }) fun _ => rfl) where
  accords := by
    refine h.accords.map rfl (fun c => ?_) fun c _ hfree happlied => ?_
    · split <;> exact ⟨rfl, rfl, rfl⟩
    · have hne : c.id ≠ id := by
        rintro rfl
        exact howner hfree
      rw [if_neg hne]
      exact ⟨happlied, Or.inr rfl⟩
  seen := by
    show List.Forall₂ _ _ (t.charts.map _)
    rw [List.forall₂_map_right_iff]
    refine h.seen.imp fun y c hsees => ?_
    split
    · exact ⟨hsees.chartId, hsees.symbol, hsees.timeframe, hsees.deploymentId,
        fun happlied => by cases happlied⟩
    · exact hsees
  unadoptable := h.unadoptable

/-! ## A deployment whose chart is in the map -/

/-- After the pass of one deployment the map is the same, and so are the charts. -/
def Unmoved (desired : List ChartCtlDeployment) (own : Ownership) (charts : List ChartCtlChart)
    (mem : Memory) (t : Terminal) : Prop :=
  SameMap own mem.owned ∧ Watches desired own charts t

/-- A call that changes no chart. -/
theorem queries_watches {α : Type} {R : α → Prop} {p : Program Ans α}
    (hp : Covers (fun o => o.isQuery = true) R p) (h : Watches desired own charts t) :
    Leads (W := terminal) Lenient (fun _ _ _ => True)
      (fun a t => R a ∧ Watches desired own charts t) p t :=
  leads_queries hp (Watches.stable desired own charts) h fun _ _ _ => lenient_of_isQuery

theorem recordError_kept (h : Unmoved desired own charts mem t) (id : List Char) (code : String) :
    Leads (W := terminal) Lenient (fun _ _ _ => True) (Unmoved desired own charts)
      (recordError mem id code) t :=
  queries_watches ⟨rfl, fun _ => h.1⟩ h.2

/-- The wait for the expert of a chart that stays open. -/
theorem awaitExpert_kept {chart : Nat} (hmem : ⟨chart, dep.id⟩ ∈ own)
    (h : Unmoved desired own charts mem t) (n : Nat) :
    Leads (W := terminal) Lenient (fun _ _ _ => True) (Unmoved desired own charts)
      (awaitExpert chart dep false mem n) t := by
  induction n generalizing t with
  | zero => exact recordError_kept h dep.id _
  | succ n ih =>
    simp only [awaitExpert, ask_bind]
    refine leads_query rfl (Watches.stable desired own charts) h.2
      (fun _ _ => lenient_of_isQuery rfl) ?_
    intro t ht choice expert _ _
    split
    · exact leads_pure (Watches.stable desired own charts) ht fun t ht => ⟨h.1.claim hmem, ht⟩
    · exact ih ⟨h.1, ht⟩

/-- A chart of the map is armed again. -/
theorem armChart_kept {chart : Nat} (hmem : ⟨chart, dep.id⟩ ∈ own) (hid : dep.id ≠ [])
    (h : Unmoved desired own charts mem t) :
    Leads (W := terminal) Lenient (fun _ _ _ => True) (Unmoved desired own charts)
      (armChart chart dep false mem) t := by
  have howner : own.ownerOf chart ≠ [] := by
    rw [Ownership.ownerOf_of_mem hmem]
    exact hid
  simp only [armChart, ask_bind]
  refine leads_call (Watches.stable desired own charts).move h.2
    (fun _ _ site chart heq => by cases heq) ?_
  intro t ht choice applied u _ hanswer
  rcases answer_apply hanswer with ⟨rfl, rfl⟩ | ⟨rfl, rfl⟩
  · exact awaitExpert_kept hmem ⟨h.1, ht.apply howner dep.templ⟩ 40
  · refine (recordError_kept ⟨h.1, ht⟩ dep.id _).bind fun mem t h => ?_
    exact leads_pure (Watches.stable desired own charts) h.2 fun t ht => ⟨h.1, ht⟩

/-- The chart of an enabled deployment is among those that were seen. -/
theorem Watches.exists_placed (h : Watches desired own charts t) (hdep : dep ∈ desired)
    (henabled : dep.enabled = true) :
    ∃ y ∈ charts, y.deploymentId = dep.id ∧ dep.targets y = true := by
  obtain ⟨e, he, hid, c, hc, hchart, hsuits⟩ := h.accords.placed dep hdep henabled
  obtain ⟨y, hy, hsees⟩ := h.seen.exists_of_mem hc
  refine ⟨y, hy, ?_, ?_⟩
  · rw [hsees.deploymentId, hchart, Ownership.ownerOf_of_mem he, hid]
  · rw [ChartCtlDeployment.targets, decide_eq_true_eq, hsees.symbol, hsees.timeframe]
    exact hsuits

theorem Watches.findAdoptableChart_eq_none (h : Watches desired own charts t) (hdep : dep ∈ desired)
    (henabled : dep.enabled = true) : findAdoptableChart dep charts = none := by
  rw [findAdoptableChart, List.find?_eq_none]
  intro y hy hadopts
  simp only [ChartCtlChart.expertEnabled, decide_eq_true_eq] at hadopts
  obtain ⟨howner, hexpert, hsame, htargets⟩ := hadopts
  rcases h.unadoptable y hy dep hdep henabled howner htargets with hempty | hne
  · exact hexpert hempty
  · exact hne hsame

/-- The bare chart that is found is the one of the map. -/
theorem Watches.findBareChart (h : Watches desired own charts t) (hdep : dep ∈ desired)
    (henabled : dep.enabled = true) (hmissing : ¬ (findChartFor dep.id charts).isSome = true)
    (mem : Memory) : ∃ i y, findBareChart mem dep charts = some i ∧ charts[i]? = some y ∧
      y.deploymentId = dep.id := by
  obtain ⟨y, hy, hid, htargets⟩ := h.exists_placed hdep henabled
  have hbare : y.expertEnabled = false := by
    by_contra hexpert
    refine hmissing ?_
    rw [findChartFor, List.find?_isSome]
    exact ⟨y, hy, by simpa [hid] using hexpert⟩
  have hsome : (charts.findIdx? fun c =>
      !c.expertEnabled ∧ dep.targets c ∧ c.deploymentId = dep.id).isSome = true := by
    rw [List.findIdx?_isSome, List.any_eq_true]
    exact ⟨y, hy, by simp [hbare, htargets, hid]⟩
  obtain ⟨i, hi⟩ := Option.isSome_iff_exists.mp hsome
  obtain ⟨hlt, hfound, -⟩ := List.findIdx?_eq_some_iff_getElem.mp hi
  refine ⟨i, charts[i], ?_, List.getElem?_eq_getElem hlt, ?_⟩
  · rw [ChartCtl.findBareChart, hi]
  · simp only [decide_eq_true_eq] at hfound
    exact hfound.2.2

theorem covers_inGrace (mem : Memory) :
    Covers (fun o => o.isQuery = true) (fun _ => True) (inGrace mem) :=
  ⟨rfl, fun _ => trivial⟩

theorem covers_inRetryCooldown (mem : Memory) (id : List Char) :
    Covers (fun o => o.isQuery = true) (fun _ => True) (inRetryCooldown mem id) := by
  rw [inRetryCooldown]
  split
  · trivial
  · exact ⟨rfl, fun _ => trivial⟩

/-- A deployment whose chart is in the map is attached to no other. -/
theorem attach_kept (hids : ∀ dep ∈ desired, dep.id ≠ []) (hdep : dep ∈ desired)
    (h : Unmoved desired own charts mem t) :
    Leads (W := terminal) Lenient (fun _ _ _ => True)
      (fun r t => r.1 = charts ∧ Unmoved desired own charts r.2 t)
      (attach (charts, mem) dep) t := by
  have hstable := Watches.stable desired own charts
  have hdone : ∀ {t}, Unmoved desired own charts mem t → Leads (W := terminal) Lenient
      (fun _ _ _ => True) (fun r t => r.1 = charts ∧ Unmoved desired own charts r.2 t)
      (pure (charts, mem)) t :=
    fun h => leads_pure hstable h.2 fun t ht => ⟨rfl, h.1, ht⟩
  rw [attach]
  split
  next => exact hdone h
  next henabled =>
    rw [Bool.not_eq_true, Bool.not_eq_false'] at henabled
    split
    next => exact hdone h
    next hmissing =>
      rw [h.2.findAdoptableChart_eq_none hdep henabled]
      refine (queries_watches (covers_inRetryCooldown mem dep.id) h.2).bind ?_
      rintro cooldown t ⟨-, ht⟩
      split
      next => exact hdone ⟨h.1, ht⟩
      refine (queries_watches (covers_inGrace mem) ht).bind ?_
      rintro grace t ⟨-, ht⟩
      split
      next => exact hdone ⟨h.1, ht⟩
      obtain ⟨i, y, hi, hy, hid⟩ := ht.findBareChart hdep henabled hmissing mem
      obtain ⟨c, -, hsees⟩ := ht.seen.exists_chart (List.mem_of_getElem? hy)
      -- the chart is the deployment's already
      have howner : own.ownerOf y.chartId = dep.id := by
        rw [hsees.chartId, ← hsees.deploymentId, hid]
      have hmem : ⟨y.chartId, dep.id⟩ ∈ own := by
        rw [← howner]
        refine Ownership.mem_of_ownerOf_ne ?_
        rw [howner]
        exact hids dep hdep
      have hcharts : charts.modify i (fun c => { c with deploymentId := dep.id }) = charts := by
        refine List.ext_getElem? fun j => ?_
        rw [List.getElem?_modify]
        by_cases hij : i = j
        · subst hij
          simp [hy, ← hid]
        · simp [hij]
      rw [hi, Option.bind_some, hy, Option.map_some]
      dsimp only
      rw [hcharts]
      refine (armChart_kept hmem (hids dep hdep) ⟨h.1.claim hmem, ht⟩).bind fun mem t h => ?_
      exact leads_pure hstable h.2 fun t ht => ⟨rfl, h.1, ht⟩

theorem attachAll_kept (hids : ∀ dep ∈ desired, dep.id ≠ []) {deps : List ChartCtlDeployment}
    (hdeps : deps ⊆ desired) (h : Unmoved desired own charts mem t) :
    Leads (W := terminal) Lenient (fun _ _ _ => True)
      (fun r t => Unmoved desired own charts r.2 t) (attachAll (charts, mem) deps) t := by
  induction deps generalizing mem t with
  | nil => exact leads_pure (Watches.stable desired own charts) h.2 fun t ht => ⟨h.1, ht⟩
  | cons dep deps ih =>
    rw [List.cons_subset] at hdeps
    refine (attach_kept hids hdeps.1 h).bind ?_
    rintro ⟨charts', mem'⟩ t' ⟨rfl, h'⟩
    exact ih hdeps.2 h'

/-! ## The pass -/

/-- Where every owner is wanted no chart is closed. -/
theorem detachAll_eq_pure (h : ∀ y ∈ charts, y.deploymentId = [] ∨
    wanted desired y.deploymentId = true) : detachAll desired mem charts = pure mem := by
  induction charts with
  | nil => rfl
  | cons y charts ih =>
    rw [detachAll, if_pos (h y List.mem_cons_self)]
    exact ih fun z hz => h z (List.mem_cons_of_mem y hz)

theorem Watches.wanted (h : Watches desired own charts t) :
    ∀ y ∈ charts, y.deploymentId = [] ∨ wanted desired y.deploymentId = true := by
  intro y hy
  obtain ⟨c, -, hsees⟩ := h.seen.exists_chart hy
  by_cases howner : own.ownerOf c.id = []
  · exact Or.inl (hsees.deploymentId.trans howner)
  · rw [hsees.deploymentId]
    exact h.accords.wanted _ (Ownership.mem_of_ownerOf_ne howner)

/-- A map whose charts are all open is not pruned. -/
theorem Watches.prune (h : Watches desired mem.owned charts t) :
    SameMap mem.owned (mem.prune charts).owned := by
  intro e
  refine Ownership.mem_prune.trans (and_iff_left_of_imp fun he => ?_)
  obtain ⟨c, hc, hchart⟩ := List.mem_map.mp (h.accords.opened e he)
  obtain ⟨y, hy, hsees⟩ := h.seen.exists_of_mem hc
  rw [← hchart, ← hsees.chartId]
  exact List.mem_map_of_mem hy

/-- A pass over deployments that the map accords with leaves everything as it is. -/
theorem spares_of_accords {file : Desired} (hids : ∀ dep ∈ file.deployments, dep.id ≠ [])
    (h : Accords file.deployments mem.owned t) : Spares mem file t := by
  rw [Spares, pass, reconcile]
  refine (scanCharts_watches h).bind fun charts t h => ?_
  refine (attachAll_kept hids (List.Subset.refl _) ⟨fun _ => Iff.rfl, h⟩).bind ?_
  rintro ⟨charts₁, mem₁⟩ t ⟨hsame, h⟩
  refine (queries_watches (covers_inGrace mem₁) h).bind ?_
  rintro grace t ⟨-, h⟩
  -- the restored deployments make no difference to what follows
  have hrest : ∀ mem₂ : Memory, mem₂.owned = mem₁.owned →
      Leads (W := terminal) Lenient (fun _ _ _ => True)
        (fun r _ => ∀ e, e ∈ r.1.owned ↔ e ∈ mem.owned)
        (scanCharts mem₂.owned >>= fun charts => detachAll file.deployments mem₂ charts >>=
          fun mem => inventory { mem with appliedRevision := file.revision }) t := by
    intro mem₂ hmem₂
    have hsame₂ : SameMap mem.owned mem₂.owned := by
      rw [hmem₂]
      exact hsame
    refine (scanCharts_watches (h.accords.congr hsame₂)).bind fun charts t h => ?_
    rw [detachAll_eq_pure h.wanted, pure_bind, inventory]
    refine (scanCharts_watches h.accords).bind fun charts t h => ?_
    refine leads_pure (Watches.stable _ _ charts) h fun t h => ?_
    have hprune : SameMap mem₂.owned (Memory.prune { mem₂ with appliedRevision := file.revision }
      charts).owned := Watches.prune h
    exact fun e => (hprune e).trans (hsame₂ e)
  refine hrest _ ?_
  split <;> rfl

/-! ## A file without a list -/

/-- Calls that change no chart have answers: the rest of a program is reached, with what the calls
lead to. -/
theorem exists_of_queries {α β : Type} {legal : Terminal → Op → Prop} {Q : α → Terminal → Prop}
    {R : β → Terminal → Prop} {p : Program Ans α} {f : α → Program Ans β}
    (hp : Covers (fun o => o.isQuery = true) (fun _ => True) p)
    (hQ : Leads (W := terminal) (fun _ _ => True) (fun _ _ _ => True) Q p t)
    (h : Leads (W := terminal) legal (fun _ _ _ => True) R (p >>= f) t) :
    ∃ a t', Q a t' ∧ Leads (W := terminal) legal (fun _ _ _ => True) R (f a) t' := by
  induction p generalizing t with
  | done a => exact ⟨a, t, hQ.of_done, h⟩
  | call o next ih =>
    obtain ⟨a, ha⟩ : ∃ a, terminal.answer t o ({} : Choice) = some (a, t) := by
      have ho := hp.1
      cases o with
      | chartOpen | chartApplyTemplate | chartClose => cases ho
      | _ => exact ⟨_, rfl⟩
    exact ih a (hp.2 a) (hQ.of_call.2 _ a t trivial ha) (h.of_call.2 _ a t trivial ha)

theorem covers_scanFrom (own : Ownership) (guard : Nat) (id : Option Nat)
    (out : List ChartCtlChart) :
    Covers (fun o => o.isQuery = true) (fun _ => True) (scanFrom own guard id out) := by
  induction guard generalizing id out with
  | zero => trivial
  | succ guard ih =>
    cases id with
    | none => trivial
    | some id =>
      exact ⟨rfl, fun symbol => ⟨rfl, fun period => ⟨rfl, fun expert => ⟨rfl, fun next => ih _ _⟩⟩⟩⟩

theorem covers_scanCharts (own : Ownership) :
    Covers (fun o => o.isQuery = true) (fun _ => True) (scanCharts own) :=
  ⟨rfl, fun first => covers_scanFrom own 1000 first []⟩

theorem stable_ids (ids : List Nat) : Stable fun t => t.charts.map Chart.id = ids := by
  intro t t' f hf hdrift ht
  rw [hf, List.map_map, ← ht]
  exact List.map_congr_left fun c _ => (hdrift c).id

/-- A scan sees the charts, which stay open meanwhile. -/
theorem scanCharts_sees (own : Ownership) {ids : List Nat} (h : t.charts.map Chart.id = ids) :
    Leads (W := terminal) (fun _ _ => True) (fun _ _ _ => True)
      (fun ys t => t.charts.map Chart.id = ids ∧ Seen own ys t) (scanCharts own) t :=
  (scanCharts_leads (K := fun _ _ => True) (stable_ids ids) (fun _ _ _ _ _ _ h => h)
    (fun _ _ _ _ => trivial) (fun _ _ _ _ => trivial) h).mono fun _ _ h => ⟨h.1, h.2.1⟩

/-- The loop that detaches closes no chart only if it finds none with an owner. -/
theorem detachAll_lenient {α : Type} {R : α → Terminal → Prop} {f : Memory → Program Ans α}
    (h : Leads (W := terminal) Lenient (fun _ _ _ => True) R
      (detachAll [] mem charts >>= f) t) : ∀ y ∈ charts, y.deploymentId = [] := by
  induction charts with
  | nil => simp
  | cons y charts ih =>
    rw [detachAll] at h
    split at h
    next howner =>
      have hy : y.deploymentId = [] := by simpa [wanted] using howner
      intro z hz
      rcases List.mem_cons.mp hz with rfl | hz
      · exact hy
      · exact ih h z hz
    next => exact absurd rfl (h.of_call.1 .detach y.chartId)

/-- Without a deployment, a pass leaves everything as it is only if the map is empty but for entries
without an id. -/
theorem accords_of_spares {file : Desired} (hnone : file.deployments = [])
    (h : Spares mem file t) : Accords file.deployments mem.owned t := by
  rw [Spares, pass, reconcile, hnone] at h
  obtain ⟨charts, t₁, ⟨hids, -⟩, h⟩ :=
    exists_of_queries (covers_scanCharts _) (scanCharts_sees _ rfl) h
  rw [attachAll, pure_bind] at h
  obtain ⟨grace, t₂, ⟨-, hids⟩, h⟩ := exists_of_queries (covers_inGrace mem)
    (leads_queries (covers_inGrace mem) (stable_ids _) hids fun _ _ _ _ => trivial) h
  -- the map is the same, whether the restored deployments are forgotten or not
  have howned : (if grace = true then mem else { mem with restored := [] }).owned = mem.owned := by
    split <;> rfl
  generalize (if grace = true then mem else { mem with restored := [] }) = mem₁ at h howned
  obtain ⟨charts₁, t₃, ⟨hids, hseen⟩, h⟩ :=
    exists_of_queries (covers_scanCharts _) (scanCharts_sees _ hids) h
  have hfree := detachAll_lenient h
  rw [detachAll_eq_pure fun y hy => Or.inl (hfree y hy), pure_bind, inventory] at h
  obtain ⟨charts₂, t₄, ⟨hids₂, hseen₂⟩, h⟩ :=
    exists_of_queries (covers_scanCharts _) (scanCharts_sees _ hids) h
  have hsame : ∀ e, e ∈ (mem₁.prune charts₂).owned ↔ e ∈ mem.owned := h.of_done
  have hopened : ∀ e ∈ mem.owned, e.chart ∈ t.charts.map Chart.id := by
    intro e he
    obtain ⟨y, hy, hchart⟩ := List.mem_map.mp (Ownership.mem_prune.mp ((hsame e).mpr he)).2
    obtain ⟨c, hc, hsees⟩ := hseen₂.exists_chart hy
    rw [← hids₂, ← hchart, hsees.chartId]
    exact List.mem_map_of_mem hc
  refine ⟨hopened, fun e he => Or.inl ?_, ?_, ?_⟩
  · have hopen : e.chart ∈ t₃.charts.map Chart.id := by
      rw [hids]
      exact hopened e he
    obtain ⟨c, hc, hchart⟩ := List.mem_map.mp hopen
    obtain ⟨y, hy, hsees⟩ := hseen.exists_of_mem hc
    rw [← howned] at he
    rw [← Ownership.ownerOf_of_mem he, ← hchart, ← hsees.deploymentId]
    exact hfree y hy
  · simp [hnone]
  · simp [hnone]

/-- The deployments that are found have ids. -/
theorem id_ne_nil_of_mem_scan {s : Scan} {text : List Char}
    (hs : ∀ dep ∈ s.out, dep.id ≠ []) : ∀ dep ∈ scan s text, dep.id ≠ [] := by
  have hfound : ∀ obj out, (∀ dep ∈ out, ChartCtlDeployment.id dep ≠ []) →
      ∀ dep ∈ found obj out, dep.id ≠ [] := by
    intro obj out hout dep hdep
    rw [found] at hdep
    split at hdep
    next hid =>
      rcases List.mem_append.mp hdep with hdep | hdep
      · exact hout dep hdep
      · rw [List.mem_singleton.mp hdep]
        exact hid
    next => exact hout dep hdep
  induction text generalizing s with
  | nil => simpa [scan] using hs
  | cons c text ih =>
    rw [scan]
    split
    next => exact ih hs
    next =>
      split
      next =>
        split
        next =>
          split
          · exact ih (hfound _ _ hs)
          · exact ih hs
        next => exact ih hs
      next =>
        split
        · exact hs
        · exact ih hs

theorem id_ne_nil_of_readDesired {numerals : Numerals} {json : List Char} :
    ∀ dep ∈ (readDesired numerals json).deployments, dep.id ≠ [] := by
  rw [readDesired, extractDeployments]
  cases (JsonText.after "\"deployments\"".toList json).bind (JsonText.after ['[']) with
  | none => simp
  | some text => exact id_ne_nil_of_mem_scan (by simp)

/-- Whatever the file has in it, a pass over it leaves everything as it is if the map accords with
the deployments that are found; and if there is no list in it, only if it does. -/
theorem spares_iff_accords (numerals : Numerals) (text : List Char) (mem : Memory) (t : Terminal) :
    (Accords (readDesired numerals text).deployments mem.owned t →
        Spares mem (readDesired numerals text) t) ∧
      (extractDeployments text = none → Spares mem (readDesired numerals text) t →
        Accords (readDesired numerals text).deployments mem.owned t) := by
  refine ⟨spares_of_accords id_ne_nil_of_readDesired, fun hnone => accords_of_spares ?_⟩
  rw [readDesired, hnone, Option.getD_none]

/-- A terminal with a chart beside the loader's, and a loader that has it in its map. -/
def tradingTerminal : Terminal where
  charts := [⟨1, "EURUSD".toList, .h1, "Trend".toList, []⟩]
  self := 2
  nodup := by decide
  ids_ne_zero := by decide
  few := by decide

def tradingMemory : Memory :=
  Memory.init (.single 1 "trend".toList) 0

/-- The beginning of a file with its deployment. -/
def truncatedText : List Char :=
  ("\x7b\"revision\": 3, \"deployments\": [\x7b\"id\": \"trend\", \"expert\": \"Trend\", " ++
    "\"template\": \"trend.tpl\", \"symbol\": \"EURUSD\", \"timeframe\": \"H1\"\x7d").toList

theorem spares_iff_accords_truncated :
    Spares tradingMemory (readDesired decimals truncatedText) tradingTerminal := by
  have hread : (readDesired decimals truncatedText).deployments = [⟨"trend".toList, "Trend".toList,
      "trend.tpl".toList, "EURUSD".toList, "H1".toList, true⟩] := by decide +kernel
  have howned : ∀ e ∈ tradingMemory.owned, e = ⟨1, "trend".toList⟩ :=
    fun e he => List.mem_singleton.mp he
  refine (spares_iff_accords decimals truncatedText tradingMemory tradingTerminal).1 ?_
  rw [hread]
  refine ⟨fun e he => ?_, fun e he => Or.inr ?_, fun dep hdep _ => ?_, fun dep hdep _ c hc h => ?_⟩
  · rw [howned e he]
    decide
  · rw [howned e he]
    decide
  · obtain rfl := List.mem_singleton.mp hdep
    exact ⟨⟨1, "trend".toList⟩, List.mem_singleton_self _, rfl, _, List.mem_singleton_self _, rfl,
      rfl, rfl⟩
  · obtain rfl := List.mem_singleton.mp hc
    exact absurd h (by decide)

/-- An empty file closes the chart of a deployment. -/
theorem not_spares : ¬ ∀ (numerals : Numerals) (text : List Char) (mem : Memory) (t : Terminal),
    extractDeployments text = none → Spares mem (readDesired numerals text) t := by
  intro h
  have haccords := accords_of_spares rfl (h decimals [] tradingMemory tradingTerminal rfl)
  rcases haccords.wanted ⟨1, "trend".toList⟩ (List.mem_singleton_self _) with hid | hwanted
  · exact absurd hid (by decide)
  · cases hwanted

end ChartCtl

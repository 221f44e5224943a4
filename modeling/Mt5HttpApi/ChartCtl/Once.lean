import Mt5HttpApi.ChartCtl.Unreadable
import Mt5HttpApi.ChartCtl.Site
import Mt5HttpApi.Lib.Transition

/-!
# A deployment runs on one chart

Passes of the loader over a `desired.json` with one enabled deployment, with commands in between,
while experts come up where a template was applied and leave (`Loader.over`).

Two charts that the loader applied the template of the deployment to never run its expert in a run
in which every chart closes that was opened for it and whose expert did not come up in time
(`runs_once`). When such a chart does not close, its expert may still come up, after the loader has
opened another one (`not_runs_once`).
-/

namespace ChartCtl

open Interaction Program Transition

/-- The expert of the deployment runs on a chart that the loader applied its template to. -/
structure Chart.Trades (dep : ChartCtlDeployment) (c : Chart) : Prop where
  applied : dep.templ ∈ c.applied
  expert : c.expert = dep.expert

/-- The deployment runs on one chart at most. -/
def RunsOnce (dep : ChartCtlDeployment) (t : Terminal) : Prop :=
  ∀ c ∈ t.charts, ∀ d ∈ t.charts, c.Trades dep → d.Trades dep → c = d

/-- A template was applied to the chart. -/
def Chart.Armed (c : Chart) : Prop := c.applied ≠ []

/-- At most one chart is armed. -/
def OneArmed (t : Terminal) : Prop :=
  ∀ c ∈ t.charts, ∀ d ∈ t.charts, c.Armed → d.Armed → c = d

/-- A chart that is taken for one of the deployment, although no template was applied to it. -/
def Rival (dep : ChartCtlDeployment) (c : Chart) : Prop :=
  ¬ c.Armed ∧ c.expert ≠ [] ∧ c.expert = dep.expert ∧ c.suits dep

/-- A chart that is armed is the deployment's, on its symbol and timeframe; and while there is one,
no other chart could be adopted. -/
structure Sole (dep : ChartCtlDeployment) (own : Ownership) (t : Terminal) : Prop where
  placed : ∀ c ∈ t.charts, c.Armed → own.ownerOf c.id = dep.id ∧ c.suits dep
  alone : (∃ c ∈ t.charts, c.Armed) → ∀ u ∈ t.charts, Rival dep u → own.ownerOf u.id ≠ []

variable {dep : ChartCtlDeployment} {own own' : Ownership} {t t' : Terminal} {mem : Memory}
  {charts : List ChartCtlChart} {b : Nat}

/-! ## What charts that change keep -/

theorem exists_of_map {f : Chart → Chart} (hf : t'.charts = t.charts.map f) {c' : Chart}
    (h : c' ∈ t'.charts) : ∃ c ∈ t.charts, f c = c' :=
  List.mem_map.mp (hf ▸ h)

theorem Drift.armed {c c' : Chart} (h : Drift c c') : c'.Armed ↔ c.Armed := by
  rw [Chart.Armed, Chart.Armed, h.applied]

theorem Drift.suits {c c' : Chart} (h : Drift c c') : c'.suits dep ↔ c.suits dep := by
  rw [Chart.suits, Chart.suits, h.symbol, h.timeframe]

/-- A rival was one before. -/
theorem Drift.rival {c c' : Chart} (h : Drift c c') (hc' : Rival dep c') : Rival dep c := by
  obtain ⟨harmed, hrunning, hexpert, hsuits⟩ := hc'
  rw [h.armed] at harmed
  have hsame : c'.expert = c.expert := (h.expert (not_not.mp harmed)).resolve_left hrunning
  exact ⟨harmed, hsame ▸ hrunning, hsame ▸ hexpert, h.suits.mp hsuits⟩

theorem Sole.oneArmed (h : Sole dep own t) (hid : dep.id ≠ []) : OneArmed t := by
  intro c hc d hd hcarmed hdarmed
  -- both are the chart of the deployment in the map
  apply Terminal.eq_of_id hc hd
  exact Ownership.eq_of_ownerOf hid (h.placed c hc hcarmed).1 (h.placed d hd hdarmed).1

theorem Sole.congr (h : Sole dep own t)
    (hsame : ∀ c ∈ t.charts, own'.ownerOf c.id = own.ownerOf c.id) : Sole dep own' t where
  placed c hc harmed := by
    rw [hsame c hc]
    exact h.placed c hc harmed
  alone harmed u hu hrival := by
    rw [hsame u hu]
    exact h.alone harmed u hu hrival

/-- Charts may close. -/
theorem Sole.mono (h : Sole dep own t) (hcharts : t'.charts ⊆ t.charts) : Sole dep own t' where
  placed c hc := h.placed c (hcharts hc)
  alone := by
    rintro ⟨c, hc, harmed⟩ u hu
    exact h.alone ⟨c, hcharts hc, harmed⟩ u (hcharts hu)

/-- Where no chart is armed there is nothing to keep. -/
theorem Sole.of_bare (h : ∀ c ∈ t.charts, ¬ c.Armed) : Sole dep own t where
  placed c hc harmed := absurd harmed (h c hc)
  alone := by
    rintro ⟨c, hc, harmed⟩
    exact absurd harmed (h c hc)

theorem Sole.stable (dep : ChartCtlDeployment) (own : Ownership) : Stable (Sole dep own) := by
  intro t t' f hf hdrift h
  constructor
  · intro c' hc' harmed
    obtain ⟨c, hc, rfl⟩ := exists_of_map hf hc'
    rw [(hdrift c).id, (hdrift c).suits]
    exact h.placed c hc ((hdrift c).armed.mp harmed)
  · rintro ⟨c', hc', harmed⟩ u' hu' hrival
    obtain ⟨c, hc, rfl⟩ := exists_of_map hf hc'
    obtain ⟨u, hu, rfl⟩ := exists_of_map hf hu'
    rw [(hdrift u).id]
    exact h.alone ⟨c, hc, (hdrift c).armed.mp harmed⟩ u hu ((hdrift u).rival hrival)

theorem bare_stable : Stable fun t => ∀ c ∈ t.charts, ¬ c.Armed := by
  intro t t' f hf hdrift h c' hc'
  obtain ⟨c, hc, rfl⟩ := exists_of_map hf hc'
  rw [(hdrift c).armed]
  exact h c hc

/-! ## A chart that is being armed -/

/-- The chart `b` is being armed, and no other is. It is on the symbol and timeframe of the
deployment, and no other chart could be adopted. The map is the one from before it is claimed. -/
structure Arming (dep : ChartCtlDeployment) (own : Ownership) (b : Nat) (t : Terminal) : Prop where
  only : ∀ c ∈ t.charts, c.Armed → c.id = b
  suits : ∀ c ∈ t.charts, c.id = b → c.suits dep
  free : ∀ u ∈ t.charts, u.id ≠ b → Rival dep u →
    own.ownerOf u.id ≠ [] ∧ own.ownerOf u.id ≠ dep.id

theorem Arming.stable (dep : ChartCtlDeployment) (own : Ownership) (b : Nat) :
    Stable (Arming dep own b) := by
  intro t t' f hf hdrift h
  constructor
  · intro c' hc' harmed
    obtain ⟨c, hc, rfl⟩ := exists_of_map hf hc'
    rw [(hdrift c).id]
    exact h.only c hc ((hdrift c).armed.mp harmed)
  · intro c' hc' hcb
    obtain ⟨c, hc, rfl⟩ := exists_of_map hf hc'
    rw [(hdrift c).id] at hcb
    exact (hdrift c).suits.mpr (h.suits c hc hcb)
  · intro u' hu' hub hrival
    obtain ⟨u, hu, rfl⟩ := exists_of_map hf hu'
    rw [(hdrift u).id] at hub ⊢
    exact h.free u hu hub ((hdrift u).rival hrival)

theorem Arming.oneArmed (h : Arming dep own b t) : OneArmed t := by
  intro c hc d hd hcarmed hdarmed
  exact Terminal.eq_of_id hc hd ((h.only c hc hcarmed).trans (h.only d hd hdarmed).symm)

theorem Arming.claim (h : Arming dep own b t) : Arming dep (own.claim b dep.id) b t where
  only := h.only
  suits := h.suits
  free u hu hub hrival := by
    obtain ⟨hsome, hother⟩ := h.free u hu hub hrival
    rw [Ownership.ownerOf_claim_of_ne hub hother]
    exact ⟨hsome, hother⟩

/-- A chart that is being armed and is the deployment's is its only one. -/
theorem Arming.sole_of_owner (h : Arming dep own b t) (hid : dep.id ≠ [])
    (howner : own.ownerOf b = dep.id) : Sole dep own t where
  placed c hc harmed := by
    have hcb := h.only c hc harmed
    rw [hcb]
    exact ⟨howner, h.suits c hc hcb⟩
  alone := by
    rintro - u hu hrival
    by_cases hub : u.id = b
    · rw [hub, howner]
      exact hid
    · exact (h.free u hu hub hrival).1

theorem Arming.sole (h : Arming dep own b t) (hid : dep.id ≠ []) :
    Sole dep (own.claim b dep.id) t :=
  h.claim.sole_of_owner hid Ownership.ownerOf_claim_self

/-- The template is applied. -/
theorem Arming.apply (h : Arming dep own b t) (templ : List Char) : Arming dep own b
    (t.mapChart b (fun c => { c with applied := templ :: c.applied }) fun _ => rfl) := by
  have hback : ∀ c' ∈ (t.mapChart b (fun c => { c with applied := templ :: c.applied })
      fun _ => rfl).charts, ∃ c ∈ t.charts, c'.id = c.id ∧ (c'.suits dep ↔ c.suits dep) ∧
        (c.id ≠ b → c' = c) := by
    intro c' hc'
    obtain ⟨c, hc, rfl⟩ := List.mem_map.mp hc'
    refine ⟨c, hc, ?_⟩
    by_cases hcb : c.id = b
    · rw [if_pos hcb]
      exact ⟨rfl, Iff.rfl, fun hne => absurd hcb hne⟩
    · rw [if_neg hcb]
      exact ⟨rfl, Iff.rfl, fun _ => rfl⟩
  constructor
  · intro c' hc' harmed
    obtain ⟨c, hc, hsame, -, hother⟩ := hback c' hc'
    by_contra hne
    rw [hsame] at hne
    obtain rfl := hother hne
    exact hne (h.only c' hc harmed)
  · intro c' hc' hcb
    obtain ⟨c, hc, hsame, hsuits, -⟩ := hback c' hc'
    exact hsuits.mpr (h.suits c hc (hsame.symm.trans hcb))
  · intro u' hu' hub hrival
    obtain ⟨u, hu, hsame, -, hother⟩ := hback u' hu'
    rw [hsame] at hub
    obtain rfl := hother hub
    exact h.free u' hu hub hrival

/-! ## The calls that arm a chart -/

/-- A chart that was opened and whose expert did not come up closes. -/
def ClosesOpened (_ : Terminal) : Op → Choice → Prop
  | .chartClose .notAttached _, choice => choice.succeeds = true
  | _, _ => True

/-- While the program runs at most one chart is armed, and what it returns meets `Q`. -/
abbrev Settles {α : Type} (Q : α → Terminal → Prop) (p : Program Ans α) (t : Terminal) : Prop :=
  Leads (W := terminal) (fun t _ => OneArmed t) ClosesOpened Q p t

/-- What a program returns has a map with which every armed chart is the deployment's. -/
abbrev SettlesSole (dep : ChartCtlDeployment) (p : Program Ans Memory) (t : Terminal) : Prop :=
  Settles (fun mem t => Sole dep mem.owned t) p t

/-- A call to close a chart closes one, or changes nothing. -/
theorem answer_close_cases {site : CloseSite} {id : Int} {choice : Choice} {a : Bool}
    (h : t.answer (.chartClose site id) choice = some (a, t')) :
    a = false ∧ t' = t ∨ a = true ∧ ∃ k, t' = t.closeChart k := by
  cases hc : choice.succeeds with
  | true => exact Or.inr (answer_chartClose h hc)
  | false =>
    simp only [Terminal.answer, hc, Bool.false_eq_true, if_false] at h
    obtain ⟨rfl, rfl⟩ := Prod.mk.inj (Option.some.inj h)
    exact Or.inl ⟨rfl, rfl⟩

/-- With an id that is not 0, it is the chart of the id. -/
theorem answer_close_of_ne {site : CloseSite} {choice : Choice} (hb : b ≠ 0)
    (h : t.answer (.chartClose site b) choice = some (true, t')) : t' = t.closeChart b := by
  have hid : (if (b : Int) = 0 then t.self else (b : Int).toNat) = b := by
    rw [if_neg (by omega), Int.toNat_natCast]
  simp only [Terminal.answer, hid] at h
  split at h
  · split at h
    · exact (Prod.mk.inj (Option.some.inj h)).2.symm
    · cases h
  · cases h

theorem closeChart_subset (t : Terminal) (k : Nat) : (t.closeChart k).charts ⊆ t.charts :=
  List.filter_sublist.subset

theorem id_ne_of_mem_closeChart {c : Chart} (h : c ∈ (t.closeChart b).charts) : c.id ≠ b := by
  simpa using (List.mem_filter.mp h).2

/-- A call to close a chart keeps it, whether the chart closes or not. -/
theorem Sole.close {site : CloseSite} {id : Int} {choice : Choice} {a : Bool}
    (h : Sole dep own t) (hanswer : t.answer (.chartClose site id) choice = some (a, t')) :
    Sole dep own t' := by
  rcases answer_close_cases hanswer with ⟨-, rfl⟩ | ⟨-, k, rfl⟩
  · exact h
  · exact h.mono (closeChart_subset t k)

/-- A note of an error changes neither the charts nor the map. -/
theorem recordError_sole (hid : dep.id ≠ []) (h : Sole dep mem.owned t) (id : List Char)
    (code : String) : SettlesSole dep (recordError mem id code) t := by
  have hnotes : Covers (fun o => o.isQuery = true) (fun mem' => mem'.owned = mem.owned)
      (recordError mem id code) := ⟨rfl, fun _ => rfl⟩
  refine (leads_queries hnotes (Sole.stable dep mem.owned) h
    fun t o ht _ => ht.oneArmed hid).mono ?_
  rintro mem' t' ⟨howned, ht⟩
  rwa [howned]

/-- The wait for the expert: the chart is claimed, or it is closed if it was opened for this, or it
stays the deployment's. -/
theorem awaitExpert_sole {opened : Bool} (hid : dep.id ≠ []) (hb : b ≠ 0)
    (howner : opened = false → mem.owned.ownerOf b = dep.id) (h : Arming dep mem.owned b t)
    (n : Nat) : SettlesSole dep (awaitExpert b dep opened mem n) t := by
  have hstable := Arming.stable dep mem.owned b
  induction n generalizing t with
  | zero =>
    cases opened with
    | false =>
      show SettlesSole dep (recordError mem dep.id _) t
      exact recordError_sole hid (h.sole_of_owner hid (howner rfl)) dep.id _
    | true =>
      show SettlesSole dep (.call (.chartClose .notAttached b) fun _ => recordError mem dep.id _) t
      refine leads_call hstable.move h (fun t ht => ht.oneArmed) ?_
      intro t ht choice a u hc hanswer
      obtain ⟨rfl, -⟩ := answer_chartClose hanswer hc
      obtain rfl := answer_close_of_ne hb hanswer
      apply recordError_sole hid
      -- it was the only one that is armed
      apply Sole.of_bare
      intro c hmem harmed
      exact id_ne_of_mem_closeChart hmem (ht.only c (closeChart_subset t b hmem) harmed)
  | succ n ih =>
    simp only [awaitExpert, ask_bind]
    refine leads_query rfl hstable h (fun t ht => ht.oneArmed) ?_
    intro t ht choice expert _ _
    split
    · exact leads_pure hstable ht fun t ht => ht.sole hid
    · exact ih ht

/-- The template is applied, and the wait begins; or it is not, and an opened chart may stay, for no
expert comes to it. -/
theorem armChart_sole {opened : Bool} (hid : dep.id ≠ []) (hb : b ≠ 0)
    (howner : opened = false → mem.owned.ownerOf b = dep.id) (hsole : Sole dep mem.owned t)
    (h : Arming dep mem.owned b t) : SettlesSole dep (armChart b dep opened mem) t := by
  have hstable : Stable fun t => Sole dep mem.owned t ∧ Arming dep mem.owned b t :=
    fun t t' f hf hdrift h => ⟨Sole.stable dep mem.owned t t' f hf hdrift h.1,
      Arming.stable dep mem.owned b t t' f hf hdrift h.2⟩
  simp only [armChart, ask_bind]
  refine leads_call hstable.move ⟨hsole, h⟩ (fun t ht => ht.2.oneArmed) ?_
  rintro t ⟨hsole, h⟩ choice applied u _ hanswer
  rcases answer_apply hanswer with ⟨rfl, rfl⟩ | ⟨rfl, rfl⟩
  · exact awaitExpert_sole hid hb howner (h.apply dep.templ) 40
  · refine (recordError_sole hid hsole dep.id _).bind fun mem' t h => ?_
    cases opened with
    | false => exact leads_pure (Sole.stable dep mem'.owned) h fun t ht => ht
    | true =>
      simp only [closeOpened, if_true, ask_bind]
      refine leads_call (Sole.stable dep mem'.owned).move h (fun t ht => ht.oneArmed hid) ?_
      intro t ht choice a u _ hanswer
      exact leads_pure (Sole.stable dep mem'.owned) (ht.close hanswer) fun t ht => ht

/-- No chart is armed, and no other could be adopted. -/
structure Vacant (dep : ChartCtlDeployment) (own : Ownership) (t : Terminal) : Prop where
  bare : ∀ c ∈ t.charts, ¬ c.Armed
  free : ∀ u ∈ t.charts, Rival dep u → own.ownerOf u.id ≠ [] ∧ own.ownerOf u.id ≠ dep.id

theorem Vacant.stable (dep : ChartCtlDeployment) (own : Ownership) : Stable (Vacant dep own) := by
  intro t t' f hf hdrift h
  refine ⟨bare_stable t t' f hf hdrift h.bare, fun u' hu' hrival => ?_⟩
  obtain ⟨u, hu, rfl⟩ := exists_of_map hf hu'
  rw [(hdrift u).id]
  exact h.free u hu ((hdrift u).rival hrival)

theorem Vacant.sole (h : Vacant dep own t) : Sole dep own t := Sole.of_bare h.bare

/-- A chart is opened for the deployment. -/
theorem Vacant.arming {place : Nat} (h : Vacant dep own t) (htimeframe :
      (tf dep.timeframe).toText = "PERIOD_".toList ++ dep.timeframe) (hb : b ≠ 0)
    (hnew : (∀ c ∈ t.charts, c.id ≠ b) ∧ t.charts.length < 100) :
    Sole dep own (t.openChart ⟨b, dep.symbol, tf dep.timeframe, [], []⟩ place hb hnew) ∧
      Arming dep own b (t.openChart ⟨b, dep.symbol, tf dep.timeframe, [], []⟩ place hb hnew) := by
  have hmem : ∀ c ∈ (t.openChart ⟨b, dep.symbol, tf dep.timeframe, [], []⟩ place hb hnew).charts,
      c = ⟨b, dep.symbol, tf dep.timeframe, [], []⟩ ∨ c ∈ t.charts := by
    intro c hc
    rcases List.mem_append.mp hc with hc | hc
    · exact Or.inr (List.mem_of_mem_take hc)
    rcases List.mem_cons.mp hc with rfl | hc
    · exact Or.inl rfl
    · exact Or.inr (List.mem_of_mem_drop hc)
  have hbare : ∀ c ∈ (t.openChart ⟨b, dep.symbol, tf dep.timeframe, [], []⟩ place hb hnew).charts,
      ¬ c.Armed := by
    intro c hc
    rcases hmem c hc with rfl | hc
    · exact fun harmed => harmed rfl
    · exact h.bare c hc
  refine ⟨Sole.of_bare hbare, fun c hc harmed => absurd harmed (hbare c hc), ?_, ?_⟩
  · intro c hc hcb
    rcases hmem c hc with rfl | hc
    · exact ⟨rfl, htimeframe⟩
    · exact absurd hcb (hnew.1 c hc)
  · intro u hu hub hrival
    rcases hmem u hu with rfl | hu
    · exact absurd rfl hub
    · exact h.free u hu hrival

/-- A chart is opened and armed. -/
theorem attachDeployment_sole (hid : dep.id ≠ [])
    (htimeframe : (tf dep.timeframe).toText = "PERIOD_".toList ++ dep.timeframe)
    (h : Vacant dep mem.owned t) : SettlesSole dep (attachDeployment dep mem) t := by
  have hstable := Vacant.stable dep mem.owned
  simp only [attachDeployment, ask_bind]
  refine leads_query rfl hstable h (fun t ht => ht.sole.oneArmed hid) ?_
  intro t ht choice selected _ _
  split
  next =>
    refine leads_call hstable.move ht (fun t ht => ht.sole.oneArmed hid) ?_
    intro t ht choice chart u _ hanswer
    simp only [terminal, Terminal.answer] at hanswer
    split at hanswer
    next =>
      obtain ⟨rfl, rfl⟩ := Prod.mk.inj (Option.some.inj hanswer)
      rw [if_pos rfl]
      exact recordError_sole hid ht.sole dep.id _
    next hchart =>
      split at hanswer
      next hnew =>
        obtain ⟨rfl, rfl⟩ := Prod.mk.inj (Option.some.inj hanswer)
        obtain ⟨hsole, harming⟩ :=
          @Vacant.arming dep mem.owned t choice.chart choice.place ht htimeframe hchart hnew
        rw [if_neg hchart]
        exact armChart_sole hid hchart (fun h => by cases h) hsole harming
      next => cases hanswer
  next => exact recordError_sole hid ht.sole dep.id _

/-! ## A pass -/

/-- The chart that was seen would be adopted. -/
def Adopts (dep : ChartCtlDeployment) (y : ChartCtlChart) : Prop :=
  y.deploymentId = [] ∧ y.expertEnabled = true ∧ y.expert = dep.expert ∧ dep.targets y = true

/-- What a pass knows of the charts it saw: while one is armed, no other would be adopted. -/
structure Scanned (dep : ChartCtlDeployment) (own : Ownership) (charts : List ChartCtlChart)
    (t : Terminal) : Prop where
  sole : Sole dep own t
  seen : Seen own charts t
  unadoptable : (∃ c ∈ t.charts, c.Armed) → ∀ y ∈ charts, ¬ Adopts dep y

theorem unadoptable_stable {P : Prop} : Stable fun t => (∃ c ∈ t.charts, c.Armed) → P := by
  rintro t t' f hf hdrift h ⟨c', hc', harmed⟩
  obtain ⟨c, hc, rfl⟩ := exists_of_map hf hc'
  exact h ⟨c, hc, (hdrift c).armed.mp harmed⟩

theorem Scanned.stable (dep : ChartCtlDeployment) (own : Ownership) (charts : List ChartCtlChart) :
    Stable (Scanned dep own charts) :=
  fun t t' f hf hdrift h => ⟨Sole.stable dep own t t' f hf hdrift h.sole,
    Seen.stable own charts t t' f hf hdrift h.seen,
    unadoptable_stable t t' f hf hdrift h.unadoptable⟩

theorem suits_of_targets {y : ChartCtlChart} {c : Chart} (hsees : Sees own y c) :
    dep.targets y = true ↔ c.suits dep := by
  rw [ChartCtlDeployment.targets, decide_eq_true_eq, hsees.symbol, hsees.timeframe]
  exact Iff.rfl

theorem scanCharts_scanned (hid : dep.id ≠ []) (h : Sole dep own t) :
    Settles (Scanned dep own) (scanCharts own) t := by
  refine (scanCharts_leads (I := Sole dep own)
    (K := fun t y => (∃ c ∈ t.charts, c.Armed) → ¬ Adopts dep y) (Sole.stable dep own)
    (fun _ => unadoptable_stable) (fun t o ht _ => ht.oneArmed hid) ?_ h).mono
    fun charts t h => ⟨h.1, h.2.1, fun harmed y hy => h.2.2 y hy harmed⟩
  rintro t c ht hc harmed ⟨hfree, hrunning, hexpert, htargets⟩
  have hsuits : c.suits dep := by
    rw [ChartCtlDeployment.targets, decide_eq_true_eq] at htargets
    exact htargets
  by_cases hc' : c.Armed
  · -- one that is armed is the deployment's
    exact hid ((ht.placed c hc hc').1.symm.trans hfree)
  · exact ht.alone harmed c hc ⟨hc', of_decide_eq_true hrunning, hexpert, hsuits⟩ hfree

section Attach

variable (h : Scanned dep own charts t) (hmissing : ¬ (findChartFor dep.id charts).isSome = true)

include h hmissing

/-- A chart that is armed was seen, without an expert. -/
theorem Scanned.exists_bare {c : Chart} (hc : c ∈ t.charts) (harmed : c.Armed) :
    ∃ y ∈ charts, y.expertEnabled = false ∧ dep.targets y = true ∧ y.deploymentId = dep.id := by
  obtain ⟨howner, hsuits⟩ := h.sole.placed c hc harmed
  obtain ⟨y, hy, hsees⟩ := h.seen.exists_of_mem hc
  have hdep : y.deploymentId = dep.id := hsees.deploymentId.trans howner
  refine ⟨y, hy, ?_, (suits_of_targets hsees).mpr hsuits, hdep⟩
  by_contra hexpert
  apply hmissing
  rw [findChartFor, List.find?_isSome]
  exact ⟨y, hy, by simpa [hdep] using hexpert⟩

/-- No other chart could be adopted, then or later. -/
theorem Scanned.free (hadopt : findAdoptableChart dep charts = none) : ∀ u ∈ t.charts,
    Rival dep u → own.ownerOf u.id ≠ [] ∧ own.ownerOf u.id ≠ dep.id := by
  rintro u hu ⟨harmed, hrunning, hexpert, hsuits⟩
  obtain ⟨y, hy, hsees⟩ := h.seen.exists_of_mem hu
  -- its expert was there when it was looked at
  have hsame : u.expert = y.expert := (hsees.expert (not_not.mp harmed)).resolve_left hrunning
  have hy' : y.expertEnabled = true := decide_eq_true (hsame ▸ hrunning)
  constructor
  · intro hfree
    rw [findAdoptableChart, List.find?_eq_none] at hadopt
    apply hadopt y hy
    simp only [decide_eq_true_eq]
    exact ⟨hsees.deploymentId.trans hfree, hy', hsame.symm.trans hexpert,
      (suits_of_targets hsees).mpr hsuits⟩
  · intro howner
    apply hmissing
    rw [findChartFor, List.find?_isSome]
    refine ⟨y, hy, ?_⟩
    simp only [decide_eq_true_eq]
    exact ⟨hsees.deploymentId.trans howner, hy'⟩

/-- The bare chart that is found is on the symbol and timeframe, and it is the one that is armed, if
there is one. -/
theorem Scanned.findBareChart_some {i : Nat} {y : ChartCtlChart} (hid : dep.id ≠ [])
    (hbare : findBareChart mem dep charts = some i) (hy : charts[i]? = some y) :
    dep.targets y = true ∧ ∀ c ∈ t.charts, c.Armed → c.id = y.chartId := by
  rw [findBareChart] at hbare
  split at hbare
  next j hfound =>
    obtain rfl := Option.some.inj hbare
    obtain ⟨hlt, hp, -⟩ := List.findIdx?_eq_some_iff_getElem.mp hfound
    rw [List.getElem?_eq_getElem hlt, Option.some.injEq] at hy
    rw [hy, decide_eq_true_eq] at hp
    obtain ⟨-, htargets, howner⟩ := hp
    refine ⟨htargets, fun c hc harmed => ?_⟩
    -- both are the chart of the deployment in the map
    obtain ⟨x, -, hsees⟩ := h.seen.exists_chart (List.mem_of_getElem? (i := j) (by
      rw [List.getElem?_eq_getElem hlt, hy]))
    have hx : own.ownerOf x.id = dep.id := hsees.deploymentId.symm.trans howner
    rw [hsees.chartId]
    exact Ownership.eq_of_ownerOf hid (h.sole.placed c hc harmed).1 hx
  next hnone =>
    split at hbare
    next =>
      obtain ⟨hlt, hp, -⟩ := List.findIdx?_eq_some_iff_getElem.mp hbare
      rw [List.getElem?_eq_getElem hlt, Option.some.injEq] at hy
      rw [hy, decide_eq_true_eq] at hp
      refine ⟨hp.2.1, fun c hc harmed => ?_⟩
      obtain ⟨z, hz, hexpert, htargets, howner⟩ := h.exists_bare hmissing hc harmed
      have hno := List.findIdx?_eq_none_iff.mp hnone z hz
      simp [hexpert, htargets, howner] at hno
    next => cases hbare

/-- Where none is found, none is armed. -/
theorem Scanned.findBareChart_none (hbare : findBareChart mem dep charts = none) :
    ∀ c ∈ t.charts, ¬ c.Armed := by
  intro c hc harmed
  obtain ⟨z, hz, hexpert, htargets, howner⟩ := h.exists_bare hmissing hc harmed
  rw [findBareChart] at hbare
  split at hbare
  next => cases hbare
  next hnone =>
    have hno := List.findIdx?_eq_none_iff.mp hnone z hz
    simp [hexpert, htargets, howner] at hno

end Attach

/-- Where the index is found there is a chart. -/
theorem findBareChart_lt {i : Nat} (h : findBareChart mem dep charts = some i) :
    i < charts.length := by
  rw [findBareChart] at h
  split at h
  next hfound =>
    obtain rfl := Option.some.inj h
    exact (List.findIdx?_eq_some_iff_getElem.mp hfound).1
  next =>
    split at h
    next => exact (List.findIdx?_eq_some_iff_getElem.mp h).1
    next => cases h

/-- A bare chart is claimed. -/
theorem Scanned.arming {y : ChartCtlChart} (h : Scanned dep own charts t) (hy : y ∈ charts)
    (htargets : dep.targets y = true) (honly : ∀ c ∈ t.charts, c.Armed → c.id = y.chartId)
    (hfree : ∀ u ∈ t.charts, Rival dep u → own.ownerOf u.id ≠ [] ∧ own.ownerOf u.id ≠ dep.id) :
    y.chartId ≠ 0 ∧ Arming dep (own.claim y.chartId dep.id) y.chartId t := by
  obtain ⟨x, hx, hsees⟩ := h.seen.exists_chart hy
  refine ⟨hsees.chartId ▸ t.ids_ne_zero x hx, Arming.claim ⟨honly, fun c hc hcy => ?_, ?_⟩⟩
  · obtain rfl := Terminal.eq_of_id hc hx (hcy.trans hsees.chartId)
    exact (suits_of_targets hsees).mp htargets
  · exact fun u hu _ => hfree u hu

/-- The enabled deployment is attached. -/
theorem attach_sole (hid : dep.id ≠ [])
    (htimeframe : (tf dep.timeframe).toText = "PERIOD_".toList ++ dep.timeframe)
    (h : Scanned dep mem.owned charts t) :
    Settles (fun r t => Sole dep r.2.owned t) (attach (charts, mem) dep) t := by
  have hstable := Scanned.stable dep mem.owned charts
  have hlegal : ∀ t (o : Op), Scanned dep mem.owned charts t → o.isQuery = true → OneArmed t :=
    fun t _ ht _ => ht.sole.oneArmed hid
  have hdone : ∀ {t}, Scanned dep mem.owned charts t →
      Settles (fun r t => Sole dep r.2.owned t) (pure (charts, mem)) t :=
    fun h => leads_pure hstable h fun t ht => ht.sole
  rw [attach]
  split
  next => exact hdone h
  split
  next => exact hdone h
  next hmissing =>
    cases hadopt : findAdoptableChart dep charts with
    | some y =>
      -- there is a chart to adopt only while none is armed
      have hbare : ∀ c ∈ t.charts, ¬ c.Armed := by
        intro c hc harmed
        apply h.unadoptable ⟨c, hc, harmed⟩ y (List.mem_of_find?_eq_some hadopt)
        have hy := List.find?_some hadopt
        rwa [decide_eq_true_eq] at hy
      exact leads_pure bare_stable hbare fun t ht => Sole.of_bare ht
    | none =>
      refine (leads_queries (covers_inRetryCooldown mem dep.id) hstable h hlegal).bind ?_
      rintro cooldown t ⟨-, h⟩
      split
      next => exact hdone h
      refine (leads_queries (covers_inGrace mem) hstable h hlegal).bind ?_
      rintro grace t ⟨-, h⟩
      split
      next => exact hdone h
      have hfree := h.free hmissing hadopt
      cases hbare : findBareChart mem dep charts with
      | none =>
        refine (attachDeployment_sole hid htimeframe
          ⟨h.findBareChart_none hmissing hbare, hfree⟩).bind fun mem' t h => ?_
        exact leads_pure (Sole.stable dep mem'.owned) h fun t ht => ht
      | some i =>
        have hy : charts[i]? = some (charts.get ⟨i, findBareChart_lt hbare⟩) :=
          List.getElem?_eq_getElem (findBareChart_lt hbare)
        obtain ⟨htargets, honly⟩ := h.findBareChart_some hmissing hid hbare hy
        obtain ⟨hne, harming⟩ := h.arming (List.mem_of_getElem? hy) htargets honly hfree
        have hsole := harming.sole_of_owner hid Ownership.ownerOf_claim_self
        rw [Option.bind_some, hy, Option.map_some]
        refine (armChart_sole hid hne (fun _ => Ownership.ownerOf_claim_self) hsole
          harming).bind fun mem' t h => ?_
        exact leads_pure (Sole.stable dep mem'.owned) h fun t ht => ht

/-- The deployments that are disabled are passed over. -/
theorem attachAll_filter (pass : Pass) (desired : List ChartCtlDeployment) :
    attachAll pass desired = attachAll pass (desired.filter ChartCtlDeployment.enabled) := by
  induction desired generalizing pass with
  | nil => rfl
  | cons dep desired ih =>
    rw [attachAll, List.filter_cons]
    split
    next =>
      rw [attachAll]
      exact congrArg (attach pass dep >>= ·) (funext fun pass => ih pass)
    next hdisabled =>
      have hpass : attach pass dep = pure pass := by
        obtain ⟨charts, mem⟩ := pass
        rw [attach, if_pos (by simpa using hdisabled)]
      rw [hpass, pure_bind]
      exact ih pass

theorem attachAll_sole {desired : List ChartCtlDeployment} (hid : dep.id ≠ [])
    (htimeframe : (tf dep.timeframe).toText = "PERIOD_".toList ++ dep.timeframe)
    (hdesired : desired.filter ChartCtlDeployment.enabled = [dep])
    (h : Scanned dep mem.owned charts t) :
    Settles (fun r t => Sole dep r.2.owned t) (attachAll (charts, mem) desired) t := by
  rw [attachAll_filter, hdesired]
  refine (attach_sole hid htimeframe h).bind fun pass t h => ?_
  exact leads_pure (Sole.stable dep pass.2.owned) h fun t ht => ht

/-- The loop that detaches: what it closes leaves the map. -/
theorem detachAll_sole {desired : List ChartCtlDeployment} (hid : dep.id ≠ [])
    (hcharts : ∀ y ∈ charts, y.chartId ≠ 0) (h : Sole dep mem.owned t) :
    SettlesSole dep (detachAll desired mem charts) t := by
  induction charts generalizing mem t with
  | nil => exact leads_pure (Sole.stable dep mem.owned) h fun t ht => ht
  | cons y charts ih =>
    obtain ⟨hy, hcharts⟩ := List.forall_mem_cons.mp hcharts
    rw [detachAll]
    split
    next => exact ih hcharts h
    next =>
      rw [detachChart]
      simp only [ask_bind]
      refine leads_call (Sole.stable dep mem.owned).move h (fun t ht => ht.oneArmed hid) ?_
      intro t ht choice a u _ hanswer
      cases a with
      | false => exact ih hcharts (ht.close hanswer)
      | true =>
        obtain rfl := answer_close_of_ne hy hanswer
        refine ih hcharts ((ht.mono (closeChart_subset t y.chartId)).congr fun c hc => ?_)
        exact Ownership.ownerOf_drop_of_ne (id_ne_of_mem_closeChart hc)

/-- The end of a pass: every chart was seen, so none that is open leaves the map. -/
theorem inventory_sole (hid : dep.id ≠ []) (h : Sole dep mem.owned t) :
    Settles (fun r t => Sole dep r.1.owned t) (inventory mem) t := by
  rw [inventory]
  refine (scanCharts_scanned hid h).bind fun charts t h => ?_
  refine leads_pure (Scanned.stable dep mem.owned charts) h fun t h => ?_
  refine h.sole.congr fun c hc => Ownership.ownerOf_prune_of_mem ?_
  obtain ⟨y, hy, hsees⟩ := h.seen.exists_of_mem hc
  rw [← hsees.chartId]
  exact List.mem_map_of_mem hy

/-- A pass over a file with one enabled deployment. -/
theorem reconcile_sole {rev : Int} {desired : List ChartCtlDeployment} (hid : dep.id ≠ [])
    (htimeframe : (tf dep.timeframe).toText = "PERIOD_".toList ++ dep.timeframe)
    (hdesired : desired.filter ChartCtlDeployment.enabled = [dep]) (h : Sole dep mem.owned t) :
    Settles (fun r t => Sole dep r.1.owned t) (reconcile mem rev desired) t := by
  rw [reconcile]
  refine (scanCharts_scanned hid h).bind fun charts t h => ?_
  refine (attachAll_sole hid htimeframe hdesired h).bind ?_
  rintro ⟨charts₁, mem₁⟩ t h
  refine (leads_queries (covers_inGrace mem₁) (Sole.stable dep mem₁.owned) h
    fun t o ht _ => ht.oneArmed hid).bind ?_
  rintro grace t ⟨-, h⟩
  -- the restored deployments make no difference to the map
  have hrest : ∀ mem₂ : Memory, mem₂.owned = mem₁.owned →
      Settles (fun r t => Sole dep r.1.owned t)
        (scanCharts mem₂.owned >>= fun charts => detachAll desired mem₂ charts >>=
          fun mem => inventory { mem with appliedRevision := rev }) t := by
    intro mem₂ hmem₂
    rw [← hmem₂] at h
    refine (scanCharts_scanned hid h).bind fun charts t h => ?_
    have hcharts : ∀ y ∈ charts, y.chartId ≠ 0 := by
      intro y hy
      obtain ⟨c, hc, hsees⟩ := h.seen.exists_chart hy
      exact hsees.chartId ▸ t.ids_ne_zero c hc
    refine (detachAll_sole hid hcharts h.sole).bind fun mem t h => ?_
    exact inventory_sole hid h
  refine hrest _ ?_
  split <;> rfl

/-- A command closes a chart at most. -/
theorem handleCommand_sole (numerals : Numerals) (hid : dep.id ≠ []) (h : Sole dep mem.owned t) :
    Leads (W := terminal) (fun t _ => OneArmed t) (fun _ _ _ => True)
      (fun mem t => Sole dep mem.owned t) (handleCommand numerals mem) t := by
  have hstable := Sole.stable dep mem.owned
  have hdone : ∀ {t} {mem' : Memory}, mem'.owned = mem.owned → Sole dep mem.owned t →
      Leads (W := terminal) (fun t _ => OneArmed t) (fun _ _ _ => True)
        (fun mem t => Sole dep mem.owned t) (pure mem') t := by
    intro t mem' howned ht
    exact leads_pure hstable ht fun t ht => howned ▸ ht
  simp only [handleCommand, fileText, ask_bind]
  refine leads_query rfl hstable h (fun t ht => ht.oneArmed hid) ?_
  intro t ht choice body _ _
  cases body with
  | none => exact hdone rfl ht
  | some body =>
    dsimp only
    split
    next => exact hdone rfl ht
    split
    next => exact hdone rfl ht
    split
    next =>
      refine leads_query rfl hstable ht (fun t ht => ht.oneArmed hid) ?_
      intro t ht choice self _ _
      split
      next => exact hdone rfl ht
      refine leads_call hstable.move ht (fun t ht => ht.oneArmed hid) ?_
      intro t ht choice a u _ hanswer
      exact hdone rfl (ht.close hanswer)
    next => exact hdone rfl ht

/-! ## Runs -/

/-- A step of a loader that may or may not be able to open `desired.json`. -/
def Loader.over (numerals : Numerals) (json : List Char) (loader : Loader) (a : Bool × Progress) :
    Option Loader :=
  loader.step numerals (if a.1 then some json else none) a.2

/-- Where the loader closes a chart that it opened and whose expert did not come up, it closes. -/
def Loader.Closes (loader : Loader) (a : Bool × Progress) : Prop :=
  ∀ choice, a.2 = .answer choice → ∀ file o next, loader.stage = .passing file (.call o next) →
    ClosesOpened loader.terminal o choice

/-- A loader that has applied no template yet. -/
def Loader.fresh (numerals : Numerals) (t : Terminal) (mem : Memory) : Loader :=
  ⟨t, .commands (handleCommand numerals mem)⟩

/-- What is so of the charts at each stage. -/
def Stage.Settled (dep : ChartCtlDeployment) (t : Terminal) : Stage → Prop
  | .commands p => Leads (W := terminal) (fun t _ => OneArmed t) (fun _ _ _ => True)
    (fun mem t => Sole dep mem.owned t) p t
  | .reading mem => Sole dep mem.owned t
  | .passing _ p => Settles (fun r t => Sole dep r.1.owned t) p t
  | .writing _ mem _ => Sole dep mem.owned t

theorem Stage.Settled.oneArmed {stage : Stage} (hid : dep.id ≠ []) (h : stage.Settled dep t) :
    OneArmed t := by
  have hprogram : ∀ {α : Type} {allowed : Terminal → Op → Choice → Prop}
      {Q : α → Terminal → Prop} {p : Program Ans α},
      Leads (W := terminal) (fun t _ => OneArmed t) allowed Q p t →
        (∀ a, Q a t → OneArmed t) → OneArmed t := by
    intro α allowed Q p hp hQ
    cases p with
    | done a => exact hQ a hp.of_done
    | call o next => exact hp.of_call.1
  cases stage with
  | commands p =>
    rw [Stage.Settled] at h
    exact hprogram h fun mem hmem => hmem.oneArmed hid
  | reading mem =>
    rw [Stage.Settled] at h
    exact h.oneArmed hid
  | passing file p =>
    rw [Stage.Settled] at h
    exact hprogram h fun r hr => hr.oneArmed hid
  | writing file mem charts =>
    rw [Stage.Settled] at h
    exact h.oneArmed hid

/-- A step of the loader keeps it. -/
theorem Stage.Settled.step {numerals : Numerals} {json : List Char} {loader after : Loader}
    {a : Bool × Progress} (hid : dep.id ≠ [])
    (htimeframe : (tf dep.timeframe).toText = "PERIOD_".toList ++ dep.timeframe)
    (hfile : (readDesired numerals json).deployments.filter ChartCtlDeployment.enabled = [dep])
    (hs : loader.stage.Settled dep loader.terminal) (hok : loader.Closes a)
    (h : loader.over numerals json a = some after) : after.stage.Settled dep after.terminal := by
  obtain ⟨t, stage⟩ := loader
  obtain ⟨opens, progress⟩ := a
  cases progress with
  | answer choice =>
    cases stage with
    | commands p =>
      obtain ⟨r, hr, rfl⟩ := Option.map_eq_some_iff.mp h
      exact Leads.resume hs (fun _ _ _ => trivial) hr
    | passing file p =>
      obtain ⟨r, hr, rfl⟩ := Option.map_eq_some_iff.mp h
      -- the condition is about the answers to a pass
      refine Leads.resume hs (fun o next hp => ?_) hr
      exact hok choice rfl file o next (by rw [hp])
    | reading | writing => cases h
  | move event =>
    obtain rfl := Option.some.inj h
    have hmoved : Moved terminal t (t.setExpert event.1 event.2) :=
      Relation.ReflTransGen.single ⟨event, rfl⟩
    cases stage with
    | commands p => exact Leads.moved hs hmoved
    | passing file p => exact Leads.moved hs hmoved
    | reading mem => exact (Sole.stable dep mem.owned).move t event _ rfl hs
    | writing file mem charts => exact (Sole.stable dep mem.owned).move t event _ rfl hs
  | next =>
    cases stage with
    | commands p =>
      cases p with
      | call o next => cases h
      | done mem =>
        obtain rfl := Option.some.inj h
        exact hs t Relation.ReflTransGen.refl
    | reading mem =>
      obtain rfl := Option.some.inj h
      cases opens with
      -- without the file the charts are only listed
      | false => exact inventory_sole hid hs
      | true => exact reconcile_sole hid htimeframe hfile hs
    | passing file p =>
      cases p with
      | call o next => cases h
      | done r =>
        obtain ⟨mem, charts⟩ := r
        obtain rfl := Option.some.inj h
        exact hs t Relation.ReflTransGen.refl
    | writing file mem charts =>
      obtain rfl := Option.some.inj h
      exact handleCommand_sole numerals hid hs

/-- **One chart for a deployment.** A loader that starts with any map and passes over a file with
one enabled deployment, while experts come and go, never has two charts that it applied the template
to and whose experts run, if in each step a chart closes that it opened and whose expert did not
come up in time. -/
theorem runs_once (numerals : Numerals) (json : List Char) (dep : ChartCtlDeployment)
    (t : Terminal) (mem : Memory) (loader : Loader)
    (hfile : (readDesired numerals json).deployments.filter ChartCtlDeployment.enabled = [dep])
    (htimeframe : dep.timeframe ∈ timeframeNames.map Prod.fst)
    (hfresh : ∀ c ∈ t.charts, c.applied = [])
    (hrun : RunOf (Loader.over numerals json) Loader.Closes (Loader.fresh numerals t mem) loader) :
    RunsOnce dep loader.terminal := by
  have hid : dep.id ≠ [] := by
    have hmem := List.mem_singleton_self dep
    rw [← hfile] at hmem
    exact id_ne_nil_of_readDesired dep (List.mem_of_mem_filter hmem)
  have hstart : Sole dep mem.owned t := Sole.of_bare fun c hc harmed => harmed (hfresh c hc)
  have hsettled : loader.stage.Settled dep loader.terminal :=
    RunOf.invariant (P := fun loader => loader.stage.Settled dep loader.terminal)
      (fun _ _ _ hs hok h => hs.step hid (toText_tf _ htimeframe) hfile hok h) hrun
      (handleCommand_sole numerals hid hstart)
  intro c hc d hd hcTrades hdTrades
  refine hsettled.oneArmed hid c hc d hd ?_ ?_
  · exact List.ne_nil_of_mem hcTrades.applied
  · exact List.ne_nil_of_mem hdTrades.applied

/-! ## A chart that does not close -/

/-- A deployment, and a file with it. -/
def trend : ChartCtlDeployment :=
  ⟨"trend".toList, "Trend".toList, "trend.tpl".toList, "EURUSD".toList, "H1".toList, true⟩

def trendText : List Char := truncatedText ++ "]\x7d".toList

theorem deployments_trendText : (readDesired decimals trendText).deployments = [trend] := by
  decide +kernel

/-- The answers to the calls of a pass after the startup grace, at a time at which this chart can be
opened. -/
def answers (n chart : Nat) (time : Int) : List (Bool × Progress) :=
  List.replicate n
    (true, .answer { succeeds := true, chart := chart, ticks := 40000, time := time })

/-- No command, and a pass that is to look at the charts. -/
def startsPass : List (Bool × Progress) := answers 1 0 0 ++ [(true, .next), (true, .next)]

/-- The expert comes up on the chart. -/
def comesUp (chart : Nat) : Bool × Progress := (true, .move (chart, "Trend".toList))

/-- A chart is opened, and its expert comes up. -/
def opensTrend : List (Bool × Progress) := startsPass ++ answers 5 1 0 ++ [comesUp 1]

/-- A chart is opened, its expert does not come up in time, and the chart does not close. The next
pass opens another one. Then the experts come up on both. -/
def opensTwice : List (Bool × Progress) :=
  startsPass ++ answers 45 1 0 ++ [(true, .answer {})] ++ answers 12 1 0 ++
    [(true, .next), (true, .next)] ++ startsPass ++ answers 10 2 100 ++ [comesUp 2, comesUp 1]

/-- The experts run on these charts, which the loader armed. -/
def tradesOn (ids : List Nat) (loader : Loader) : Bool :=
  ids.all fun id => loader.terminal.charts.any fun c =>
    c.id = id ∧ trend.templ ∈ c.applied ∧ c.expert = trend.expert

theorem exists_trades {ids : List Nat} {loader : Loader} (h : tradesOn ids loader = true) :
    ∀ id ∈ ids, ∃ c ∈ loader.terminal.charts, c.id = id ∧ c.Trades trend := by
  intro id hmem
  obtain ⟨c, hc, hp⟩ := List.any_eq_true.mp (List.all_eq_true.mp h id hmem)
  obtain ⟨hid, happlied, hexpert⟩ := of_decide_eq_true hp
  exact ⟨c, hc, hid, happlied, hexpert⟩

/-- Every call of the terminal succeeds. -/
def obliging (_ : Loader) (a : Bool × Progress) : Bool :=
  match a.2 with
  | .answer choice => choice.succeeds
  | _ => true

theorem closes_of_obliging {loader : Loader} {a : Bool × Progress}
    (h : obliging loader a = true) : loader.Closes a := by
  obtain ⟨opens, progress⟩ := a
  rintro choice rfl file o next -
  cases o with
  | chartClose site chart =>
    cases site with
    | notAttached => exact h
    | command | notApplied | detach => trivial
  | _ => trivial

theorem runs_once_trend : ∃ loader : Loader,
    (∃ c ∈ loader.terminal.charts, c.Trades trend) ∧ RunsOnce trend loader.terminal := by
  have hexec : (execOf (Loader.over decimals trendText) obliging
      (Loader.fresh decimals bareTerminal (Memory.init noOwners 0)) opensTrend).any
        (tradesOn [1]) = true := by
    decide +kernel
  obtain ⟨loader, hrun, htrades⟩ := exists_runOf_of_execOf obliging
    (fun _ _ => closes_of_obliging) hexec
  obtain ⟨c, hc, -, hc'⟩ := exists_trades htrades 1 (List.mem_singleton_self 1)
  refine ⟨loader, ⟨c, hc, hc'⟩, runs_once decimals trendText trend bareTerminal
    (Memory.init noOwners 0) loader ?_ (by decide) (fun c hc => absurd hc List.not_mem_nil) hrun⟩
  rw [deployments_trendText]
  rfl

/-- A chart that did not close runs the expert beside the one that was opened after it. -/
theorem not_runs_once : ¬ ∀ (numerals : Numerals) (json : List Char) (dep : ChartCtlDeployment)
    (t : Terminal) (mem : Memory) (loader : Loader),
      (readDesired numerals json).deployments.filter ChartCtlDeployment.enabled = [dep] →
      dep.timeframe ∈ timeframeNames.map Prod.fst → (∀ c ∈ t.charts, c.applied = []) →
      Run (Loader.over numerals json) (Loader.fresh numerals t mem) loader →
        RunsOnce dep loader.terminal := by
  intro h
  have hexec : (exec (Loader.over decimals trendText)
      (Loader.fresh decimals bareTerminal (Memory.init noOwners 0)) opensTwice).any
        (tradesOn [1, 2]) = true := by
    decide +kernel
  obtain ⟨loader, hrun, htrades⟩ := exists_run_of_exec hexec
  have hfile : (readDesired decimals trendText).deployments.filter ChartCtlDeployment.enabled =
      [trend] := by
    rw [deployments_trendText]
    rfl
  have honce := h decimals trendText trend bareTerminal (Memory.init noOwners 0) loader hfile
    (by decide) (fun c hc => absurd hc List.not_mem_nil) hrun
  obtain ⟨c, hc, hcid, hcTrades⟩ := exists_trades htrades 1 (by simp)
  obtain ⟨d, hd, hdid, hdTrades⟩ := exists_trades htrades 2 (by simp)
  have heq := honce c hc d hd hcTrades hdTrades
  rw [← heq, hcid] at hdid
  exact absurd hdid (by decide)

end ChartCtl

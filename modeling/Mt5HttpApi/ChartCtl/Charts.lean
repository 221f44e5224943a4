import Mathlib.Data.List.Forall2
import Mt5HttpApi.ChartCtl.Loader

/-!
# What the loader sees of the charts

While the loader runs, charts only change their experts (`Drift`), so what `ScanCharts` returns is
true of every chart in order (`Seen`), but for experts that come and go. `scanCharts_leads` is the
rule for `ScanCharts`, and `leads_query` the one for a call that changes no chart.
-/

namespace ChartCtl

open Interaction Program

/-- A chart and the same chart after its expert may have changed. -/
structure Drift (c c' : Chart) : Prop where
  id : c'.id = c.id
  symbol : c'.symbol = c.symbol
  timeframe : c'.timeframe = c.timeframe
  applied : c'.applied = c.applied
  expert : c.applied = [] → c'.expert = [] ∨ c'.expert = c.expert

/-- A move of the terminal drifts its charts. -/
theorem terminal_move {t t' : Terminal} {event : terminal.Event}
    (h : terminal.move t event = some t') :
    ∃ f : Chart → Chart, t'.charts = t.charts.map f ∧ ∀ c, Drift c (f c) := by
  obtain rfl := Option.some.inj h
  refine ⟨_, rfl, fun c => ?_⟩
  by_cases hid : c.id = event.1
  · by_cases hexpert : event.2 = [] ∨ c.applied ≠ []
    · simp only [if_pos hid, if_pos hexpert]
      exact ⟨rfl, rfl, rfl, rfl, fun h => Or.inl (hexpert.resolve_right (not_not.mpr h))⟩
    · simp only [if_pos hid, if_neg hexpert]
      exact ⟨rfl, rfl, rfl, rfl, fun _ => Or.inr rfl⟩
  · simp only [if_neg hid]
    exact ⟨rfl, rfl, rfl, rfl, fun _ => Or.inr rfl⟩

namespace Terminal

variable {t : Terminal} {c d : Chart}

theorem eq_of_id (hc : c ∈ t.charts) (hd : d ∈ t.charts) (h : c.id = d.id) : c = d :=
  List.inj_on_of_nodup_map t.nodup hc hd h

theorem chart_of_mem (hc : c ∈ t.charts) : t.chart c.id = some c := by
  rw [chart]
  cases hfind : t.charts.find? fun d => d.id = c.id with
  | none =>
    have hnone := List.find?_eq_none.mp hfind c hc
    simp at hnone
  | some d =>
    have hid : d.id = c.id := by simpa using List.find?_some hfind
    rw [eq_of_id (List.mem_of_find?_eq_some hfind) hc hid]

/-- `ChartNext`. -/
theorem next_of_append {before after : List Chart} (h : t.charts = before ++ c :: after) :
    ((t.charts.dropWhile fun d => d.id ≠ c.id).drop 1).head?.map Chart.id =
      after.head?.map Chart.id := by
  have hbefore : ∀ d ∈ before, (decide (d.id ≠ c.id)) = true := by
    intro d hd
    have hnodup := t.nodup
    rw [h, List.map_append, List.nodup_append] at hnodup
    have hne := hnodup.2.2 d.id (List.mem_map_of_mem hd) c.id (by simp)
    simpa using hne
  rw [h, List.dropWhile_append_of_pos hbefore, List.dropWhile_cons_of_neg (by simp)]
  rfl

end Terminal

/-- A call that changes no chart. -/
def Op.isQuery : Op → Bool
  | .chartOpen _ _ => false
  | .chartApplyTemplate _ _ => false
  | .chartClose _ _ => false
  | _ => true

theorem answer_of_isQuery {t u : Terminal} {o : Op} {choice : Choice} {a : Ans o}
    (ho : o.isQuery = true) (h : t.answer o choice = some (a, u)) : u = t := by
  cases o with
  | chartOpen | chartApplyTemplate | chartClose => exact absurd ho Bool.false_ne_true
  | _ => exact (Prod.mk.inj (Option.some.inj h)).2.symm

/-- A template is applied, or nothing changes. -/
theorem answer_apply {t u : Terminal} {id : Nat} {templ : List Char} {choice : Choice} {a : Bool}
    (h : t.answer (.chartApplyTemplate id templ) choice = some (a, u)) :
    a = true ∧ u = t.mapChart id (fun c => { c with applied := templ :: c.applied })
      (fun _ => rfl) ∨ a = false ∧ u = t := by
  simp only [Terminal.answer] at h
  split at h
  next =>
    split at h
    next =>
      obtain ⟨rfl, rfl⟩ := Prod.mk.inj (Option.some.inj h)
      exact Or.inl ⟨rfl, rfl⟩
    next => cases h
  next =>
    obtain ⟨rfl, rfl⟩ := Prod.mk.inj (Option.some.inj h)
    exact Or.inr ⟨rfl, rfl⟩

section Leads

variable {α : Type} {legal : Terminal → Op → Prop} {allowed : Terminal → Op → Choice → Prop}
  {Q : α → Terminal → Prop} {P : Terminal → Prop} {s : Terminal}

/-- What every drift of the charts keeps. -/
def Stable (P : Terminal → Prop) : Prop :=
  ∀ t t' : Terminal, ∀ f : Chart → Chart, t'.charts = t.charts.map f → (∀ c, Drift c (f c)) →
    P t → P t'

theorem Stable.move (h : Stable P) :
    ∀ t e t', terminal.move t e = some t' → P t → P t' := by
  intro t e t' hmove ht
  obtain ⟨f, hf, hdrift⟩ := terminal_move hmove
  exact h t t' f hf hdrift ht

/-- A call that changes no chart keeps what is stable. -/
theorem leads_query {o : Op} {next : Ans o → Program Ans α} (ho : o.isQuery = true)
    (hstable : Stable P) (hs : P s) (hlegal : ∀ t, P t → legal t o)
    (hnext : ∀ t, P t → ∀ c a, allowed t o c → t.answer o c = some (a, t) →
      Leads (W := terminal) legal allowed Q (next a) t) :
    Leads (W := terminal) legal allowed Q (.call o next) s := by
  refine leads_call hstable.move hs hlegal ?_
  intro t ht c a u hc hanswer
  have hu : u = t := answer_of_isQuery ho hanswer
  subst hu
  exact hnext u ht c a hc hanswer

/-- A program that only makes such calls keeps it too. -/
theorem leads_queries {R : α → Prop} {p : Program Ans α}
    (hp : Covers (fun o => o.isQuery = true) R p) (hstable : Stable P) (hs : P s)
    (hlegal : ∀ t o, P t → o.isQuery = true → legal t o) :
    Leads (W := terminal) legal allowed (fun a t => R a ∧ P t) p s := by
  induction p generalizing s with
  | done a => exact leads_done hstable.move hs fun t ht => ⟨hp, ht⟩
  | call o next ih =>
    exact leads_query hp.1 hstable hs (fun t ht => hlegal t o ht hp.1)
      fun t ht _ a _ _ => ih a (hp.2 a) ht

theorem leads_pure {a : α} (hstable : Stable P) (hs : P s) (hQ : ∀ t, P t → Q a t) :
    Leads (W := terminal) legal allowed Q (pure a) s :=
  leads_done hstable.move hs hQ

end Leads

/-! ## Looking at the charts -/

/-- What the loader observed on a chart is still so. The expert it saw on a chart that no template
was applied to may only have left. -/
structure Sees (own : Ownership) (y : ChartCtlChart) (c : Chart) : Prop where
  chartId : y.chartId = c.id
  symbol : y.symbol = c.symbol
  timeframe : y.timeframe = c.timeframe.toText
  deploymentId : y.deploymentId = own.ownerOf c.id
  expert : c.applied = [] → c.expert = [] ∨ c.expert = y.expert

variable {own : Ownership}

theorem Sees.drift {y : ChartCtlChart} {c c' : Chart} (h : Sees own y c) (hdrift : Drift c c') :
    Sees own y c' where
  chartId := h.chartId.trans hdrift.id.symm
  symbol := h.symbol.trans hdrift.symbol.symm
  timeframe := by rw [h.timeframe, hdrift.timeframe]
  deploymentId := by rw [h.deploymentId, hdrift.id]
  expert happlied := by
    rw [hdrift.applied] at happlied
    rcases hdrift.expert happlied with hleft | hsame
    · exact Or.inl hleft
    · rw [hsame]
      exact h.expert happlied

/-- What was observed, chart by chart. -/
def Seen (own : Ownership) (ys : List ChartCtlChart) (t : Terminal) : Prop :=
  List.Forall₂ (Sees own) ys t.charts

theorem Seen.map {ys : List ChartCtlChart} {charts : List Chart}
    (h : List.Forall₂ (Sees own) ys charts) {f : Chart → Chart} (hf : ∀ c, Drift c (f c)) :
    List.Forall₂ (Sees own) ys (charts.map f) := by
  rw [List.forall₂_map_right_iff]
  exact h.imp fun y c hsees => hsees.drift (hf c)

theorem Seen.stable (own : Ownership) (ys : List ChartCtlChart) : Stable (Seen own ys) := by
  intro t t' f hf hdrift h
  rw [Seen, hf]
  exact Seen.map h hdrift

/-- Every chart was looked at. -/
theorem Seen.exists_of_mem {ys : List ChartCtlChart} {t : Terminal} (h : Seen own ys t) {c : Chart}
    (hc : c ∈ t.charts) : ∃ y ∈ ys, Sees own y c := by
  obtain ⟨i, hi, rfl⟩ := List.mem_iff_getElem.mp hc
  have hlength := h.length_eq
  refine ⟨ys[i], List.getElem_mem _, ?_⟩
  simpa using h.get (by omega) hi

/-- Every observation is of an open chart. -/
theorem Seen.exists_chart {ys : List ChartCtlChart} {t : Terminal} (h : Seen own ys t)
    {y : ChartCtlChart} (hy : y ∈ ys) : ∃ c ∈ t.charts, Sees own y c := by
  obtain ⟨i, hi, rfl⟩ := List.mem_iff_getElem.mp hy
  have hlength := h.length_eq
  refine ⟨t.charts[i], List.getElem_mem _, ?_⟩
  simpa using h.get hi (by omega)

section Scan

variable {legal : Terminal → Op → Prop} {allowed : Terminal → Op → Choice → Prop}
  {I : Terminal → Prop} {K : Terminal → ChartCtlChart → Prop}

/-- The scan has seen the charts before one of which it may know `J` already. -/
def ScanAt (I : Terminal → Prop) (K : Terminal → ChartCtlChart → Prop) (own : Ownership)
    (out : List ChartCtlChart) (id guard : Nat) (J : Chart → Prop) (t : Terminal) : Prop :=
  I t ∧ (∀ y ∈ out, K t y) ∧ ∃ before c after, t.charts = before ++ c :: after ∧
    List.Forall₂ (Sees own) out before ∧ c.id = id ∧ after.length ≤ guard ∧ J c

theorem ScanAt.stable (hI : Stable I) (hK : ∀ y, Stable fun t => K t y) {J : Chart → Prop}
    (hJ : ∀ c c', Drift c c' → J c → J c') (out : List ChartCtlChart) (id guard : Nat) :
    Stable (ScanAt I K own out id guard J) := by
  rintro t t' f hf hdrift ⟨ht, hout, before, c, after, hcharts, hseen, hid, hguard, hc⟩
  refine ⟨hI t t' f hf hdrift ht, fun y hy => hK y t t' f hf hdrift (hout y hy), before.map f, f c,
    after.map f, ?_, Seen.map hseen hdrift, (hdrift c).id.trans hid, ?_, hJ c (f c) (hdrift c) hc⟩
  · rw [hf, hcharts, List.map_append, List.map_cons]
  · rwa [List.length_map]

/-- The chart that is looked at. -/
theorem ScanAt.exists_chart {out : List ChartCtlChart} {id guard : Nat} {J : Chart → Prop}
    {t : Terminal} (h : ScanAt I K own out id guard J t) :
    ∃ c ∈ t.charts, c.id = id ∧ t.chart id = some c ∧ J c ∧
      ∀ J' : Chart → Prop, J' c → ScanAt I K own out id guard J' t := by
  obtain ⟨ht, hout, before, c, after, hcharts, hseen, hid, hguard, hc⟩ := h
  have hmem : c ∈ t.charts := by
    rw [hcharts]
    exact List.mem_append_right _ List.mem_cons_self
  exact ⟨c, hmem, hid, hid ▸ Terminal.chart_of_mem hmem, hc,
    fun J' hc' => ⟨ht, hout, before, c, after, hcharts, hseen, hid, hguard, hc'⟩⟩

/-- When no chart is left, all have been seen. -/
theorem scanned_leads (hI : Stable I) (hK : ∀ y, Stable fun t => K t y) {out : List ChartCtlChart}
    {s : Terminal} (hs : I s) (hout : ∀ y ∈ out, K s y) (hseen : Seen own out s) :
    Leads (W := terminal) legal allowed (fun ys t => I t ∧ Seen own ys t ∧ ∀ y ∈ ys, K t y)
      (pure out) s := by
  have hstable : Stable fun t => I t ∧ Seen own out t ∧ ∀ y ∈ out, K t y :=
    fun t t' f hf hdrift h => ⟨hI t t' f hf hdrift h.1, Seen.stable own out t t' f hf hdrift h.2.1,
      fun y hy => hK y t t' f hf hdrift (h.2.2 y hy)⟩
  exact leads_pure hstable ⟨hs, hseen, hout⟩ fun t ht => ht

/-- The loop of `ScanCharts` looks at the charts that are left. -/
theorem scanFrom_leads (hI : Stable I) (hK : ∀ y, Stable fun t => K t y)
    (hlegal : ∀ t o, I t → o.isQuery = true → legal t o)
    (hread : ∀ t c, I t → c ∈ t.charts →
      K t ⟨c.id, c.symbol, c.timeframe.toText, c.expert, own.ownerOf c.id⟩)
    (guard : Nat) (out : List ChartCtlChart) {s : Terminal} {before after : List Chart}
    (hs : I s) (hout : ∀ y ∈ out, K s y) (hcharts : s.charts = before ++ after)
    (hseen : List.Forall₂ (Sees own) out before) (hguard : after.length ≤ guard) :
    Leads (W := terminal) legal allowed (fun ys t => I t ∧ Seen own ys t ∧ ∀ y ∈ ys, K t y)
      (scanFrom own guard (after.head?.map Chart.id) out) s := by
  induction guard generalizing out s before after with
  | zero =>
    obtain rfl := List.length_eq_zero_iff.mp (Nat.le_zero.mp hguard)
    rw [List.append_nil] at hcharts
    exact scanned_leads hI hK hs hout (by rwa [Seen, hcharts])
  | succ guard ih =>
    cases after with
    | nil =>
      rw [List.append_nil] at hcharts
      exact scanned_leads hI hK hs hout (by rwa [Seen, hcharts])
    | cons c after =>
      have hat : ScanAt I K own out c.id guard (fun _ => True) s :=
        ⟨hs, hout, before, c, after, hcharts, hseen, rfl, Nat.le_of_succ_le_succ hguard, trivial⟩
      simp only [List.head?_cons, Option.map_some, scanFrom, ask_bind]
      refine leads_query rfl (ScanAt.stable hI hK (fun _ _ _ h => h) out c.id guard) hat
        (fun t ht => hlegal t _ ht.1 rfl) ?_
      intro t ht _ symbol _ hanswer
      obtain ⟨d, -, -, hfind, -, hsymbol⟩ := ht.exists_chart
      have hvalue : d.symbol = symbol := by
        have heq := (Prod.mk.inj (Option.some.inj hanswer)).1
        rwa [hfind] at heq
      refine leads_query rfl (ScanAt.stable hI hK (J := fun c => c.symbol = symbol)
        (fun _ _ hdrift h => hdrift.symbol.trans h) out c.id guard) (hsymbol _ hvalue)
        (fun t ht => hlegal t _ ht.1 rfl) ?_
      intro t ht _ period _ hanswer
      obtain ⟨d, -, -, hfind, hd, hperiod⟩ := ht.exists_chart
      have hvalue : d.timeframe = period := by
        have heq := (Prod.mk.inj (Option.some.inj hanswer)).1
        rwa [hfind] at heq
      refine leads_query rfl (ScanAt.stable hI hK
        (J := fun c => c.symbol = symbol ∧ c.timeframe = period)
        (fun _ _ hdrift h => ⟨hdrift.symbol.trans h.1, hdrift.timeframe.trans h.2⟩) out c.id guard)
        (hperiod _ ⟨hd, hvalue⟩) (fun t ht => hlegal t _ ht.1 rfl) ?_
      intro t ht _ expert _ hanswer
      obtain ⟨d, hdmem, hdid, hfind, hd, hexpert⟩ := ht.exists_chart
      have hvalue : d.expert = expert := by
        have heq := (Prod.mk.inj (Option.some.inj hanswer)).1
        rwa [hfind] at heq
      -- what is observed is all known now, and true of the chart
      let y : ChartCtlChart := ⟨c.id, symbol, period.toText, expert, own.ownerOf c.id⟩
      have hsees : Sees own y d :=
        ⟨hdid.symm, hd.1.symm, by rw [hd.2], by rw [hdid], fun _ => Or.inr hvalue⟩
      have hK' : K t y := by
        have hy := hread t d ht.1 hdmem
        rwa [hdid, hd.1, hd.2, hvalue] at hy
      have hstable : Stable fun t => ScanAt I K own out c.id guard (Sees own y) t ∧ K t y :=
        fun t t' f hf hdrift h =>
          ⟨ScanAt.stable hI hK (fun _ _ hdrift h => h.drift hdrift) out c.id guard t t' f hf hdrift
            h.1, hK y t t' f hf hdrift h.2⟩
      refine leads_query rfl hstable ⟨hexpert _ hsees, hK'⟩ (fun t ht => hlegal t _ ht.1.1 rfl) ?_
      rintro t ⟨⟨ht, hout, before, d, after, hcharts, hseen, hdid, hguard, hd⟩, hy⟩ _ next _ hanswer
      have hnext : after.head?.map Chart.id = next := by
        have heq := (Prod.mk.inj (Option.some.inj hanswer)).1
        rw [← hdid, Terminal.next_of_append hcharts] at heq
        exact heq
      rw [← hnext]
      have hcharts' : t.charts = (before ++ [d]) ++ after := by simpa using hcharts
      have hall : ∀ z ∈ out ++ [y], K t z := by
        intro z hz
        rcases List.mem_append.mp hz with hz | hz
        · exact hout z hz
        · rwa [List.mem_singleton.mp hz]
      have hseen' : List.Forall₂ (Sees own) (out ++ [y]) (before ++ [d]) :=
        List.rel_append hseen (List.Forall₂.cons hd List.Forall₂.nil)
      exact ih (out ++ [y]) ht hall hcharts' hseen' hguard

/-- `ScanCharts` looks at every chart: there are fewer than its guard. -/
theorem scanCharts_leads (hI : Stable I) (hK : ∀ y, Stable fun t => K t y)
    (hlegal : ∀ t o, I t → o.isQuery = true → legal t o)
    (hread : ∀ t c, I t → c ∈ t.charts →
      K t ⟨c.id, c.symbol, c.timeframe.toText, c.expert, own.ownerOf c.id⟩)
    {s : Terminal} (hs : I s) :
    Leads (W := terminal) legal allowed (fun ys t => I t ∧ Seen own ys t ∧ ∀ y ∈ ys, K t y)
      (scanCharts own) s := by
  rw [scanCharts, ask_bind]
  refine leads_query rfl hI hs (fun t ht => hlegal t _ ht rfl) ?_
  intro t ht _ first _ hanswer
  obtain rfl : t.charts.head?.map Chart.id = first := (Prod.mk.inj (Option.some.inj hanswer)).1
  have hguard : t.charts.length ≤ 1000 := t.few.trans (by decide)
  exact scanFrom_leads hI hK hlegal hread 1000 [] ht (fun y hy => absurd hy List.not_mem_nil)
    (List.nil_append _).symm List.Forall₂.nil hguard

end Scan

end ChartCtl

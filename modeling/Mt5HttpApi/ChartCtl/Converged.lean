import Mt5HttpApi.ChartCtl.Site

/-!
# When the answer says converged

`WriteObserved` of the loader and `merged_view` of `mt5api/chartctl/registry.py`, which reads
`observed.json`, then the revision, then the deployments. Calls of the registry, the loader and any
number of requests go on side by side (`Board.step`).

An answer that says `converged` is right about the loader that wrote the `observed.json` it used
(`Board.Right`) in every run in which every chart that is detached closes, no call of the registry
comes between the last two reads of a request, and the loader reads what was written: `converges`.
-/

namespace ChartCtl

open Interaction JsonText Transition

/-- The status of a deployment. -/
inductive Status
  | pending
  | running
  | degraded
  | failed
  | paused
  deriving DecidableEq

/-- `observed.json`, as far as `merged_view` reads it: the revision that was applied, the statuses
and the ids of the errors. -/
structure Observed where
  appliedRevision : Int
  deployments : List (List Char × Status)
  errors : List (List Char)

/-- The status that the loader writes. -/
def observedStatus (charts : List ChartCtlChart) (dep : ChartCtlDeployment) : Status :=
  if (findChartFor dep.id charts).isSome then .running
  else if dep.enabled then .pending
  else .paused

/-- `WriteObserved`. -/
def writeObserved (desired : List ChartCtlDeployment) (mem : Memory)
    (charts : List ChartCtlChart) : Observed where
  appliedRevision := mem.appliedRevision
  deployments := desired.map fun dep => (dep.id, observedStatus charts dep)
  errors := mem.errors.map ErrorSlot.id

/-! ## The answer -/

/-- `obs_by_id`: the last entry of an id. -/
def Observed.byId (observed : Observed) (id : List Char) : Option Status :=
  if id = [] then none
  else (observed.deployments.reverse.find? fun entry => entry.1 = id).map Prod.snd

/-- `err_by_id`. -/
def Observed.failing (observed : Observed) (id : List Char) : Bool :=
  id ≠ [] ∧ id ∈ observed.errors

/-- `_derive_status`. -/
def deriveStatus (dep : Deployment) (obs : Option Status) (err stale : Bool) : Status :=
  if !dep.enabled then .paused
  else if err ∧ obs ≠ some .running then .failed
  else if obs = some .running then if stale then .degraded else .running
  else obs.getD .pending

/-- What `merged_view` answers. -/
structure MergedView where
  revision : Nat
  appliedRevision : Option Int
  converged : Bool
  observedStale : Bool
  items : List (List Char × Status)

/-- The end of `merged_view`, with what it has read. -/
def mergedView (observed : Option Observed) (stale : Bool) (revision : Nat)
    (deployments : List Deployment) : MergedView :=
  let items := deployments.map fun dep => (dep.id, deriveStatus dep
    (observed.bind fun o => o.byId dep.id) (observed.any fun o => o.failing dep.id) stale)
  let applied := observed.map Observed.appliedRevision
  let allConverged := items.all fun item => item.2 = .running ∨ item.2 = .paused
  { revision := revision
    appliedRevision := applied
    converged := allConverged ∧ applied = some (revision : Int) ∧ !stale
    observedStale := stale
    items := items }

/-! ## The system -/

/-- `observed.json` with the state of the loader that wrote it. -/
structure Report where
  observed : Observed
  memory : Memory
  charts : List ChartCtlChart

/-- Where a request is in `merged_view`. -/
inductive Viewing
  | idle
  /-- After `read_observed`. -/
  | observed (report : Option Report) (stale : Bool)
  /-- After `current_revision`. -/
  | revised (report : Option Report) (stale : Bool) (revision : Nat)
  | answered (report : Option Report) (view : MergedView)

/-- The site, `observed.json` and the requests. -/
structure Board (ρ : Type) where
  site : Site
  report : Option Report
  views : ρ → Viewing

/-- What happens. -/
inductive BoardEvent (ρ : Type)
  | call (around : Surroundings) (call : Call)
  /-- The loader makes a step. It can open `desired.json`, and write `observed.json`. -/
  | loader (opens writes : Bool) (progress : Progress)
  /-- A request goes on. It can read `observed.json`, and finds it old. -/
  | view (r : ρ) (reads stale : Bool)

/-- What `WriteObserved` writes. -/
def Loader.report (loader : Loader) : Progress → Option Report
  | .next =>
    match loader.stage with
    | .writing file mem charts =>
      some ⟨writeObserved ((file.map Desired.deployments).getD []) mem charts, mem, charts⟩
    | _ => none
  | _ => none

variable {ρ : Type}

/-- The next read of a request. -/
def Board.look (s : Board ρ) (reads stale : Bool) : Viewing → Viewing
  | .idle =>
    let report := if reads then s.report else none
    .observed report (report.isNone || stale)
  | .observed report stale => .revised report stale s.site.copies.inMemory.revision
  | .revised report stale revision =>
    .answered report (mergedView (report.map Report.observed) stale revision
      s.site.copies.inMemory.registry.deployments)
  | .answered _ _ => .idle

variable [DecidableEq ρ]

/-- One step. -/
def Board.step (casing : Casing) (page : CodePage) (numerals : Numerals) (interval : Nat)
    (s : Board ρ) : BoardEvent ρ → Option (Board ρ)
  | .call around call => some { s with site := (s.site.call casing interval around call).2 }
  | .loader opens writes progress =>
    (s.site.progress page numerals opens progress).map fun site =>
      { s with
        site := site
        report := if writes then (s.site.loader.report progress).or s.report else s.report }
  | .view r reads stale =>
    some { s with views := fun r' => if r' = r then s.look reads stale (s.views r) else s.views r' }

omit [DecidableEq ρ] in
/-- Nothing is deployed, the loader starts with a map, and nothing is observed yet. -/
def Board.start (numerals : Numerals) (t : Terminal) (own : Ownership) (since : UInt64) :
    Board ρ :=
  ⟨Site.start numerals t own since, none, fun _ => .idle⟩

/-! ## What the answer promises -/

/-- Every deployment that is enabled has a chart of its own with an expert, and no other deployment
owns one. -/
structure Settled (state : State) (report : Report) : Prop where
  served : ∀ id, state.Enabled id →
    ∃ y ∈ report.charts, y.expertEnabled = true ∧ ⟨y.chartId, id⟩ ∈ report.memory.owned
  cleared : ∀ e ∈ report.memory.owned, e.id ≠ [] → state.Enabled e.id

omit [DecidableEq ρ] in
/-- An answer that says converged is right about the registry of its revision. -/
def Board.Right (s : Board ρ) : Prop :=
  ∀ r report view, s.views r = .answered report view → view.converged = true →
    ∃ rep, report = some rep ∧ (∃ state ∈ s.site.past, state.revision = view.revision) ∧
      ∀ state ∈ s.site.past, state.revision = view.revision → Settled state rep

/-- The condition on a step: no call comes between the revision and the list of a request, a chart
that is detached closes, and `desired.json` reads as it was written. -/
def Board.Orderly (page : CodePage) (numerals : Numerals) (interval : Nat) (s : Board ρ) :
    BoardEvent ρ → Prop
  | .call _ _ => ∀ r report stale revision, s.views r ≠ .revised report stale revision
  | .loader _ _ (.answer choice) => ∀ file o next,
    s.site.loader.stage = .passing file (.call o next) → Detaches s.site.loader.terminal o choice
  | .loader true _ .next => ∀ mem,
    s.site.loader.stage = .reading mem → s.site.Readable page numerals interval
  | _ => True

/-! ## What the loader knows -/

variable {casing : Casing} {page : CodePage} {numerals : Numerals} {interval : Nat}
  {past past' : List State} {mem : Memory} {file : Option Desired} {stage : Stage} {t : Terminal}

/-- The owners of the map are enabled in the registry of the revision that was applied. -/
def Stamped (past : List State) (mem : Memory) : Prop :=
  mem.appliedRevision = -1 ∨ ∃ state ∈ past, (state.revision : Int) = mem.appliedRevision ∧
    ∀ e ∈ mem.owned, e.id ≠ [] → state.Enabled e.id

theorem Stamped.mono (h : Stamped past mem) (hpast : past ⊆ past') : Stamped past' mem :=
  h.imp_right fun ⟨state, hstate, hrest⟩ => ⟨state, hpast hstate, hrest⟩

/-- The map may lose entries, and the revision may be forgotten. -/
theorem Stamped.weaken {mem' : Memory} (h : Stamped past mem)
    (howned : ∀ e ∈ mem'.owned, e ∈ mem.owned)
    (hrevision : mem'.appliedRevision = mem.appliedRevision ∨ mem'.appliedRevision = -1) :
    Stamped past mem' := by
  rcases hrevision with hrevision | hforgotten
  · rcases h with hnone | ⟨state, hstate, happlied, henabled⟩
    · exact Or.inl (hrevision.trans hnone)
    · exact Or.inr ⟨state, hstate, happlied.trans hrevision.symm,
        fun e he hid => henabled e (howned e he) hid⟩
  · exact Or.inl hforgotten

/-- What was read is a registry there was. -/
def Known (past : List State) (file : Option Desired) : Prop :=
  ∀ f, file = some f → ∃ state ∈ past, f.Of state.registry

theorem Known.mono (h : Known past file) (hpast : past ⊆ past') : Known past' file := by
  intro f hf
  obtain ⟨state, hstate, hof⟩ := h f hf
  exact ⟨state, hpast hstate, hof⟩

/-- What the loader is about to write. -/
structure Taken (past : List State) (file : Option Desired) (mem : Memory)
    (charts : List ChartCtlChart) : Prop where
  known : Known past file
  stamped : Stamped past mem
  applied : ∀ f, file = some f → mem.appliedRevision = f.revision
  owners : ∀ y ∈ charts, y.deploymentId ≠ [] → ⟨y.chartId, y.deploymentId⟩ ∈ mem.owned

/-- What is known at each stage. -/
def Stage.Stamped (past : List State) (t : Terminal) : Stage → Prop
  | .commands p => Covers (fun _ => True) (fun mem => ChartCtl.Stamped past mem) p
  | .reading mem => ChartCtl.Stamped past mem
  | .passing file p => Known past file ∧ ∃ before, ChartCtl.Stamped past before ∧
    Leads (W := terminal) (fun _ _ => True) Detaches (fun r _ => Swept file before r.1 r.2) p t
  | .writing file mem charts => Taken past file mem charts

theorem Stage.Stamped.mono (h : stage.Stamped past t) (hpast : past ⊆ past') :
    stage.Stamped past' t := by
  cases stage with
  | commands p => exact Covers.mono h fun mem hmem => ChartCtl.Stamped.mono hmem hpast
  | reading mem => exact ChartCtl.Stamped.mono h hpast
  | passing file p =>
    obtain ⟨hknown, before, hbefore, hleads⟩ := h
    exact ⟨hknown.mono hpast, before, hbefore.mono hpast, hleads⟩
  | writing file mem charts =>
    exact { h with known := h.known.mono hpast, stamped := h.stamped.mono hpast }

/-- After a pass the owners are those of the registry that was read. -/
theorem Swept.taken {before : Memory} {charts : List ChartCtlChart}
    (h : Swept file before mem charts) (hsound : ∀ state ∈ past, Sound casing state)
    (hknown : Known past file) (hbefore : Stamped past before) : Taken past file mem charts := by
  refine ⟨hknown, ?_, fun f hf => (h.applied f hf).1, h.owners⟩
  cases file with
  | none =>
    obtain ⟨hrevision, howned⟩ := h.kept rfl
    exact hbefore.weaken howned (Or.inl hrevision)
  | some f =>
    obtain ⟨hrevision, hwanted⟩ := h.applied f rfl
    obtain ⟨state, hstate, hof⟩ := hknown f rfl
    refine Or.inr ⟨state, hstate, hof.revision.symm.trans hrevision.symm, fun e he hid => ?_⟩
    exact (hof.wanted_iff (hsound state hstate)).mp (hwanted e he hid)

/-- A step of the loader keeps what is known. -/
theorem Stage.Stamped.step {loader after : Loader} {text : Option (List Char)}
    {progress : Progress} (hs : loader.stage.Stamped past loader.terminal)
    (hsound : ∀ state ∈ past, Sound casing state)
    (hdetaches : ∀ choice, progress = .answer choice → ∀ file o next,
      loader.stage = .passing file (.call o next) → Detaches loader.terminal o choice)
    (hknown : ∀ mem, progress = .next → loader.stage = .reading mem →
      Known past (text.map (readDesired numerals)))
    (h : loader.step numerals text progress = some after) :
    after.stage.Stamped past after.terminal := by
  obtain ⟨t, stage⟩ := loader
  cases progress with
  | answer choice =>
    cases stage with
    | commands p =>
      obtain ⟨r, hr, rfl⟩ := Option.map_eq_some_iff.mp h
      exact Covers.resume hs hr
    | passing file p =>
      obtain ⟨r, hr, rfl⟩ := Option.map_eq_some_iff.mp h
      obtain ⟨hfile, before, hbefore, hleads⟩ := hs
      refine ⟨hfile, before, hbefore, hleads.resume (fun o next hp => ?_) hr⟩
      exact hdetaches choice rfl file o next (by rw [hp])
    | reading | writing => cases h
  | move event =>
    obtain rfl := Option.some.inj h
    cases stage with
    | passing file p =>
      obtain ⟨hfile, before, hbefore, hleads⟩ := hs
      exact ⟨hfile, before, hbefore, hleads.moved (Relation.ReflTransGen.single ⟨event, rfl⟩)⟩
    | commands | reading | writing => exact hs
  | next =>
    cases stage with
    | commands p =>
      cases p with
      | call o next => cases h
      | done mem =>
        obtain rfl := Option.some.inj h
        exact hs
    | reading mem =>
      obtain rfl := Option.some.inj h
      exact ⟨hknown mem rfl rfl, mem, hs, pass_sweeps _ mem t⟩
    | passing file p =>
      cases p with
      | call o next => cases h
      | done r =>
        obtain ⟨mem, charts⟩ := r
        obtain rfl := Option.some.inj h
        obtain ⟨hfile, before, hbefore, hleads⟩ := hs
        exact hleads.of_done.taken hsound hfile hbefore
    | writing file mem charts =>
      obtain rfl := Option.some.inj h
      -- a command leaves the map as it is
      refine (handleCommand_keeps numerals mem).mono fun mem' hmem' => ?_
      exact hs.stamped.weaken (fun e he => hmem'.1 ▸ he) hmem'.2

/-! ## What is observed -/

/-- What `observed.json` says of the loader that wrote it. -/
structure Accurate (past : List State) (report : Report) : Prop where
  stamped : Stamped past report.memory
  applied : report.observed.appliedRevision = report.memory.appliedRevision
  running : ∀ id ≠ [], (id, Status.running) ∈ report.observed.deployments →
    ∃ y ∈ report.charts, y.expertEnabled = true ∧ ⟨y.chartId, id⟩ ∈ report.memory.owned
  paused : ∀ id, (id, Status.paused) ∈ report.observed.deployments →
    ∃ state ∈ past, (state.revision : Int) = report.memory.appliedRevision ∧ ¬ state.Enabled id

theorem Accurate.mono {report : Report} (h : Accurate past report) (hpast : past ⊆ past') :
    Accurate past' report where
  stamped := h.stamped.mono hpast
  applied := h.applied
  running := h.running
  paused id hid :=
    let ⟨state, hstate, hrest⟩ := h.paused id hid
    ⟨state, hpast hstate, hrest⟩

/-- A status is written for a deployment that was read. -/
theorem mem_writeObserved {desired : List ChartCtlDeployment} {charts : List ChartCtlChart}
    {id : List Char} {status : Status}
    (h : (id, status) ∈ (writeObserved desired mem charts).deployments) :
    ∃ dep ∈ desired, dep.id = id ∧ observedStatus charts dep = status := by
  obtain ⟨dep, hdep, heq⟩ := List.mem_map.mp h
  exact ⟨dep, hdep, congrArg Prod.fst heq, congrArg Prod.snd heq⟩

/-- A deployment runs on a chart that has its owner and an expert. -/
theorem exists_of_running {charts : List ChartCtlChart} {dep : ChartCtlDeployment}
    (h : observedStatus charts dep = .running) :
    ∃ y ∈ charts, y.expertEnabled = true ∧ y.deploymentId = dep.id := by
  rw [observedStatus] at h
  split at h
  next hfound =>
    obtain ⟨y, hy⟩ := Option.isSome_iff_exists.mp hfound
    have hp := List.find?_some hy
    simp only [Bool.decide_and, Bool.decide_eq_true, Bool.and_eq_true, decide_eq_true_eq] at hp
    exact ⟨y, List.mem_of_find?_eq_some hy, hp.2, hp.1⟩
  next => split at h <;> cases h

/-- One that is paused was read as disabled. -/
theorem enabled_of_paused {charts : List ChartCtlChart} {dep : ChartCtlDeployment}
    (h : observedStatus charts dep = .paused) : dep.enabled = false := by
  rw [observedStatus] at h
  split at h
  · cases h
  · split at h
    · cases h
    next hdisabled => exact Bool.eq_false_iff.mpr hdisabled

/-- The loader writes what it knows. -/
theorem Taken.accurate {charts : List ChartCtlChart} (h : Taken past file mem charts)
    (hsound : ∀ state ∈ past, Sound casing state) :
    Accurate past ⟨writeObserved ((file.map Desired.deployments).getD []) mem charts, mem,
      charts⟩ where
  stamped := h.stamped
  applied := rfl
  running id hne hid := by
    obtain ⟨dep, -, rfl, hrunning⟩ := mem_writeObserved hid
    obtain ⟨y, hy, hexpert, howner⟩ := exists_of_running hrunning
    refine ⟨y, hy, hexpert, ?_⟩
    have howned := h.owners y hy (howner ▸ hne)
    rwa [howner] at howned
  paused id hid := by
    obtain ⟨dep, hdep, rfl, hpaused⟩ := mem_writeObserved hid
    cases file with
    | none => cases hdep
    | some f =>
      obtain ⟨state, hstate, hof⟩ := h.known f rfl
      refine ⟨state, hstate, hof.revision.symm.trans (h.applied f rfl).symm, ?_⟩
      -- the registry that was read has it disabled
      have houtline : dep.outline ∈ state.registry.declared.map ChartCtlDeployment.outline :=
        hof.deployments ▸ List.mem_map_of_mem hdep
      obtain ⟨declared, hdeclared, heq⟩ := List.mem_map.mp houtline
      obtain ⟨d, hget, rfl⟩ := (hsound state hstate).mem_declared.mp hdeclared
      have hid : d.declared.id = dep.id := congrArg Prod.fst heq
      have hdisabled : d.declared.enabled = dep.enabled := congrArg (fun o => o.2.2) heq
      rw [enabled_of_paused hpaused] at hdisabled
      rintro ⟨d', hget', henabled⟩
      rw [hid, hget', Option.some.injEq] at hget
      subst hget
      exact absurd henabled (Bool.eq_false_iff.mp hdisabled)

/-- The last entry of an id is an entry. -/
theorem mem_of_byId {observed : Observed} {id : List Char} {status : Status}
    (h : observed.byId id = some status) :
    id ≠ [] ∧ (id, status) ∈ observed.deployments := by
  rw [Observed.byId] at h
  split at h
  · cases h
  next hne =>
    obtain ⟨entry, hentry, rfl⟩ := Option.map_eq_some_iff.mp h
    have hid : entry.1 = id := by simpa using List.find?_some hentry
    refine ⟨hne, ?_⟩
    rw [← hid]
    exact List.mem_reverse.mp (List.mem_of_find?_eq_some hentry)

/-- A deployment that is enabled and counts as converged is observed as running or paused. -/
theorem deriveStatus_converged {dep : Deployment} {obs : Option Status} {err : Bool}
    (henabled : dep.enabled = true)
    (h : deriveStatus dep obs err false = .running ∨ deriveStatus dep obs err false = .paused) :
    obs = some .running ∨ obs = some .paused := by
  rw [deriveStatus, henabled] at h
  by_cases hrunning : obs = some .running
  · exact Or.inl hrunning
  · right
    cases err with
    | true => simp [hrunning] at h
    | false =>
      cases obs with
      | none => simp at h
      | some status => cases status <;> simp_all

/-- A view of the registry of the revision that says converged is right. -/
theorem Accurate.settled {report : Report} {state : State} {stale : Bool}
    (h : Accurate past report) (hsound : Sound casing state)
    (hunique : ∀ state' ∈ past, state'.revision = state.revision → state' = state)
    (hconverged : (mergedView (some report.observed) stale state.revision
      state.registry.deployments).converged = true) : Settled state report := by
  simp only [mergedView, Option.map_some, Option.bind_some, Option.any_some, decide_eq_true_eq,
    List.all_map, List.all_eq_true, Function.comp_apply, Bool.not_eq_true'] at hconverged
  obtain ⟨hall, happlied, rfl⟩ := hconverged
  have happlied : report.memory.appliedRevision = (state.revision : Int) := by
    rw [← h.applied, Option.some.inj happlied]
  constructor
  · rintro id ⟨dep, hget, henabled⟩
    have hmem := Dict.mem_of_get hget
    obtain rfl : id = dep.id := hsound.keys _ hmem
    have hstatus := hall dep (List.mem_map_of_mem hmem)
    rcases deriveStatus_converged henabled hstatus with hobs | hobs
    · obtain ⟨hne, hentry⟩ := mem_of_byId hobs
      exact h.running _ hne hentry
    · -- paused when the loader wrote: then it is disabled in the registry of the revision
      obtain ⟨state', hstate', hrevision, hdisabled⟩ := h.paused _ (mem_of_byId hobs).2
      rw [happlied, Nat.cast_inj] at hrevision
      rw [hunique state' hstate' hrevision] at hdisabled
      exact absurd ⟨dep, hget, henabled⟩ hdisabled
  · intro e he hid
    rcases h.stamped with hnone | ⟨state', hstate', hrevision, hcleared⟩
    · rw [hnone] at happlied
      omega
    · rw [happlied, Nat.cast_inj] at hrevision
      rw [hunique state' hstate' hrevision] at hcleared
      exact hcleared e he hid

/-! ## Every run -/

/-- What a request has read. -/
def Viewing.Faithful (site : Site) : Viewing → Prop
  | .idle => True
  | .observed report _ => ∀ rep, report = some rep → Accurate site.past rep
  | .revised report _ revision => (∀ rep, report = some rep → Accurate site.past rep) ∧
    revision = site.copies.inMemory.revision
  | .answered report view => view.converged = true →
    ∃ rep, report = some rep ∧ ∃ state ∈ site.past, state.revision = view.revision ∧
      Settled state rep

/-- What holds in every state. -/
structure Board.Whole (casing : Casing) (interval : Nat) (s : Board ρ) : Prop where
  recorded : Recorded casing interval s.site
  loader : s.site.loader.stage.Stamped s.site.past s.site.loader.terminal
  report : ∀ rep, s.report = some rep → Accurate s.site.past rep
  views : ∀ r, (s.views r).Faithful s.site

variable {s s' : Board ρ}

omit [DecidableEq ρ] in
/-- A call of the registry keeps it, when no request has the revision only. -/
theorem Board.Whole.call (hs : s.Whole casing interval) {around : Surroundings} {call : Call}
    (hviews : ∀ r report stale revision, s.views r ≠ .revised report stale revision) :
    Board.Whole casing interval
      { s with site := (s.site.call casing interval around call).2 } := by
  obtain ⟨after, hafter⟩ : ∃ after, after = (s.site.call casing interval around call).2 := ⟨_, rfl⟩
  have hcall : s.site.call casing interval around call =
      ((s.site.call casing interval around call).1, after) := by rw [hafter]
  rw [← hafter]
  obtain ⟨hloader, hpast, -⟩ := Site.call_cases hcall
  have hsubset : s.site.past ⊆ after.past := by
    rw [hpast]
    exact List.subset_cons_self _ _
  refine ⟨hs.recorded.of_call hcall, ?_, fun rep hrep => (hs.report rep hrep).mono hsubset, ?_⟩
  · rw [hloader]
    exact hs.loader.mono hsubset
  · intro r
    have hr := hs.views r
    cases hview : s.views r with
    | idle => trivial
    | observed report stale =>
      rw [hview] at hr
      exact fun rep hrep => (hr rep hrep).mono hsubset
    | revised report stale revision => exact absurd hview (hviews r report stale revision)
    | answered report view =>
      rw [hview] at hr
      intro hconverged
      obtain ⟨rep, hrep, state, hstate, hrest⟩ := hr hconverged
      exact ⟨rep, hrep, state, hsubset hstate, hrest⟩

omit [DecidableEq ρ] in
/-- What the loader writes is accurate. -/
theorem Board.Whole.written (hs : s.Whole casing interval) {progress : Progress} {rep : Report}
    (h : s.site.loader.report progress = some rep) : Accurate s.site.past rep := by
  have hloader := hs.loader
  cases progress with
  | answer | move => cases h
  | next =>
    simp only [Loader.report] at h
    split at h
    next file mem charts hstage =>
      obtain rfl := Option.some.inj h
      rw [hstage] at hloader
      exact hloader.accurate hs.recorded.sound
    next => cases h

omit [DecidableEq ρ] in
/-- A read of a request keeps it. -/
theorem Board.Whole.view (hs : s.Whole casing interval) (r : ρ) (reads stale : Bool) :
    (s.look reads stale (s.views r)).Faithful s.site := by
  have hr := hs.views r
  cases hview : s.views r with
  | idle =>
    intro rep hrep
    cases reads with
    | true => exact hs.report rep hrep
    | false => cases hrep
  | observed report stale' =>
    rw [hview] at hr
    exact ⟨hr, rfl⟩
  | revised report stale' revision =>
    rw [hview] at hr
    obtain ⟨haccurate, rfl⟩ := hr
    intro hconverged
    cases report with
    | none => simp [mergedView] at hconverged
    | some rep =>
      have hcurrent := hs.recorded.current
      refine ⟨rep, rfl, s.site.copies.inMemory, hcurrent, rfl, ?_⟩
      exact (haccurate rep rfl).settled (hs.recorded.sound _ hcurrent)
        (fun state' hstate' heq => hs.recorded.unique state' hstate' _ hcurrent heq) hconverged
  | answered report view => trivial

/-- A step that meets the condition keeps it. -/
theorem Board.Whole.step (hs : s.Whole casing interval) {event : BoardEvent ρ}
    (hok : s.Orderly page numerals interval event)
    (h : s.step casing page numerals interval event = some s') : s'.Whole casing interval := by
  cases event with
  | call around call =>
    obtain rfl := Option.some.inj h
    exact hs.call hok
  | view r reads stale =>
    obtain rfl := Option.some.inj h
    refine ⟨hs.recorded, hs.loader, hs.report, fun r' => ?_⟩
    dsimp only
    split
    · exact hs.view r reads stale
    · exact hs.views r'
  | loader opens writes progress =>
    obtain ⟨site, hsite, rfl⟩ := Option.map_eq_some_iff.mp h
    have hrecorded := hs.recorded.of_progress hsite
    obtain ⟨loader, hloader, rfl⟩ := Option.map_eq_some_iff.mp hsite
    refine ⟨hrecorded, ?_, ?_, hs.views⟩
    · refine hs.loader.step hs.recorded.sound ?_ ?_ hloader
      · rintro choice rfl file o next hstage
        cases opens <;> exact hok file o next hstage
      · rintro mem rfl hstage file hfile
        -- the file could be opened, and it reads as it was written
        obtain ⟨json, hjson, rfl⟩ := Option.map_eq_some_iff.mp hfile
        cases opens with
        | false => cases hjson
        | true =>
          obtain ⟨-, state, hstate, -, hof⟩ := hs.recorded.exists_of_text (hok mem hstage) hjson
          exact ⟨state, hstate, hof⟩
    · intro rep hrep
      dsimp only at hrep
      split at hrep
      · rcases Option.or_eq_some_iff.mp hrep with hwritten | ⟨-, hold⟩
        · exact hs.written hwritten
        · exact hs.report rep hold
      · exact hs.report rep hrep

omit [DecidableEq ρ] in
theorem Board.whole_start (t : Terminal) (own : Ownership) (since : UInt64) :
    (Board.start numerals t own since : Board ρ).Whole casing interval where
  recorded := recorded_start t own since
  loader := by
    -- a loader that starts has applied no revision
    refine (handleCommand_keeps numerals (Memory.init own since)).mono fun mem hmem => Or.inl ?_
    rcases hmem.2 with happlied | happlied
    · rw [happlied]
      rfl
    · exact happlied
  report _ hrep := absurd hrep.symm (Option.some_ne_none _)
  views _ := trivial

/-- A call that meets no failure. -/
def smoothly : Surroundings := ⟨openHost, openHost.now, .succeed, true⟩

/-- The loader passes over no charts, with this many calls of the terminal, and writes what it
observed. -/
def passes (calls : Nat) : List (BoardEvent Unit) :=
  [.loader true true (.answer { succeeds := true }), .loader true true .next,
    .loader true true .next] ++
  List.replicate calls (.loader true true (.answer { succeeds := true })) ++
  [.loader true true .next, .loader true true .next]

/-- A request reads once more. -/
def looks : BoardEvent Unit := .view () true false

/-- While nothing is deployed and no request has the revision only, the condition holds. -/
def orderlyEmpty (s : Board Unit) : BoardEvent Unit → Bool
  | .call _ _ =>
    match s.views () with
    | .revised _ _ _ => false
    | _ => true
  | .loader _ _ (.answer choice) => choice.succeeds
  | .loader _ _ .next =>
    s.site.published.all fun p => p.2.deployments.isEmpty && decide (p.2.revision < 2 ^ 63)
  | _ => true

theorem orderly_of_orderlyEmpty {s : Board Unit} {event : BoardEvent Unit}
    (h : orderlyEmpty s event = true) : s.Orderly page numerals interval event := by
  cases event with
  | call around call =>
    intro r report stale revision hview
    rw [orderlyEmpty, hview] at h
    cases h
  | view r reads stale => trivial
  | loader opens writes progress =>
    cases progress with
    | answer choice =>
      cases opens <;> exact fun file o next _ => detaches_of_succeeds h
    | move event => cases opens <;> trivial
    | next =>
      cases opens with
      | false => trivial
      | true =>
        refine fun mem _ => Site.readable_of_legible fun now reg hpublished => ?_
        rw [orderlyEmpty, hpublished, Option.all_some, Bool.and_eq_true, List.isEmpty_iff,
          decide_eq_true_eq] at h
        refine ⟨fun d hd => ?_, h.2⟩
        rw [h.1] at hd
        cases hd

end ChartCtl

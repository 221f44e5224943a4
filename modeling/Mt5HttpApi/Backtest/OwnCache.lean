import Mt5HttpApi.Backtest.Cancel
import Mt5HttpApi.Backtest.Verdict

/-!
# Are an optimization's rows those of its own run?

`find_cache_for_job` takes the newest `.opt` file whose name fits the job's expert, symbol, period
and dates. The inputs of the expert are not part of the name's pattern, and nothing else ties the
file to the run. A run that writes no cache file, as one with other inputs may, is then judged by
the cache of an earlier run (`not_ownCache`).

`CachesKept` is the condition that the run has written a cache file of its own and that the others
are older, and `ownCache` says that then the cache of a completed optimization is its own run's.
-/

namespace Backtest

open Transition

variable {S : Setup} {w w' : World}

/-- The worker has launched the terminal and has not looked for the cache file yet. -/
def seeksCache : WorkerPc → Bool
  | .watching | .exitCheck _ | .cleaning (.judge _) | .clearingHolder (.judge _)
  | .releasing (.judge _) | .postCheck _ | .judging _ | .relaunchCheck _ | .graceCheck
  | .graceAlive | .graceReport | .runCheck | .runAlive | .awaitDone | .awaitCheck _
  | .fallbackCheck _ | .symbolsCheck _ | .reportCheck _ | .cacheReading _
  | .updating (.symbolsReport _ _) => true
  | _ => false

/-- The job is an optimization whose worker will still look for the cache file. -/
def JobState.seeks (s : JobState) : Bool :=
  seeksCache s.pc && s.vars.job.optimizationType != 0

/-- The pattern of the job's cache file matches the file's name. -/
def JobState.matchesCache (S : Setup) (s : JobState) (name : String) : Bool :=
  cacheMatches S.globMatches s.vars.job.debugIni name

/-- When an optimization is launched, the clock is past the times of the matching cache files that
are there. From then until it looks for its own, no run of another job writes a matching one. And
when it finds a matching one, there is one that its own run wrote. -/
def CachesKept (S : Setup) (w : World) : WorldLabel → Prop
  | .part j (.worker .launch _) => (w.parts j).vars.job.optimizationType ≠ 0 →
    ∀ f ∈ w.shared.cache, (w.parts j).matchesCache S f.name = true → f.mtime < w.shared.clock
  | .part j (.worker (.readCache _) _) =>
    (∃ f ∈ w.shared.cache, (w.parts j).matchesCache S f.name = true) →
      ∃ f ∈ w.shared.cache, (w.parts j).matchesCache S f.name = true ∧ f.writer = j
  | .env (.writeCache p name) => ∀ proc, w.shared.runningAt [.terminal, .metatester] p = some proc →
    ∀ j, j ≠ proc.origin → (w.parts j).seeks = true → (w.parts j).matchesCache S name = false
  | _ => True

/-- Along runs whose steps meet `ok`: the cache that a completed optimization names is that of a
file which its worker read and its own run wrote. -/
def OwnCache (S : Setup) (ok : World → WorldLabel → Prop) : Prop :=
  ∀ w, RunOf (worldStep S) ok .init w → ∀ j job c, (w.parts j).entry.memory = some job →
    job.status = .completed → job.optimizationType ≠ 0 → job.optimizationCache = some c →
    ∃ f, (w.parts j).vars.cacheRead = some f ∧ c.name = f.name ∧ c.modifiedAt = f.mtime ∧
      f.writer = j

/-- A worker looks for the cache file after its launch only. -/
theorem seeksCache_control {s : JobState} {a : WorkerAct} {r : Reading} {pc : WorkerPc}
    (h : control S s a r = some pc) (hpc : seeksCache pc = true) :
    seeksCache s.pc = true ∨ a = .launch := by
  revert hpc
  cases a with
  | launch => exact fun _ => Or.inr rfl
  | raise exc => rcases onRaise_handler h with rfl | rfl | rfl | rfl <;> simp [seeksCache]
  | updateRaise exc =>
    obtain ⟨site, -, hraise⟩ := pc_of_updateRaise h
    rcases onRaise_handler hraise with rfl | rfl | rfl | rfl <;> simp [seeksCache]
  | update =>
    obtain ⟨site, hsite, rfl⟩ := pc_of_update h
    rw [hsite]
    cases site <;> simp [UpdateSite.next, seeksCache]
  | release =>
    obtain ⟨after, hpc, rfl⟩ := pc_of_release h
    cases after <;> simp [hpc, After.next, seeksCache]
  | cleanUp =>
    obtain ⟨after, hpc, rfl⟩ := pc_of_cleanUp h
    cases after <;> simp [hpc, seeksCache]
  | clearHolder =>
    obtain ⟨after, hpc, rfl⟩ := pc_of_clearHolder h
    cases after <;> simp [hpc, seeksCache]
  | settle again =>
    obtain ⟨section_, -, rfl⟩ := pc_of_settle h
    cases again <;> cases section_ <;> simp [Section.settled, seeksCache]
  | _ =>
    simp only [control] at h
    repeat' split at h
    all_goals simp only [Option.some.injEq, reduceCtorEq] at h
    all_goals subst h
    all_goals simp [*, seeksCache]

/-- A worker that seeks its cache was seeking it for the same settings, or has just launched. -/
theorem seeks_step {s s' : JobState} {l : JobLabel} (h : jobStep S s l = some s')
    (hs' : s'.seeks = true) :
    (s.seeks = true ∨ (∃ r, l = .worker .launch r) ∧ s.vars.job.optimizationType ≠ 0) ∧
      s'.vars.job.settings = s.vars.job.settings := by
  simp only [JobState.seeks, Bool.and_eq_true, bne_iff_ne, ne_eq] at hs' ⊢
  obtain ⟨hpc', htype⟩ := hs'
  cases l with
  | worker a r =>
    obtain ⟨pc, hc, rfl⟩ := workerStep_iff.mp h
    have hload : a ≠ .load := by
      rintro rfl
      simp only [control] at hc
      repeat' split at hc
      all_goals simp only [Option.some.injEq, reduceCtorEq] at hc
      all_goals subst hc
      all_goals simp [seeksCache] at hpc'
    have hset := effect_settings (S := S) (s := s) (r := r) hload
    have htype' : s.vars.job.optimizationType ≠ 0 := by
      intro hzero
      exact htype ((congrArg Prod.fst hset).trans hzero)
    refine ⟨?_, hset⟩
    rcases seeksCache_control hc hpc' with hold | rfl
    · exact Or.inl ⟨hold, htype'⟩
    · exact Or.inr ⟨⟨r, rfl⟩, htype'⟩
  | cancel c a r =>
    obtain ⟨pc, -, rfl⟩ := cancelStep_iff.mp h
    cases a <;> exact ⟨Or.inl ⟨hpc', htype⟩, rfl⟩
  | status r =>
    cases h
    exact ⟨Or.inl ⟨hpc', htype⟩, rfl⟩

/-! ## The cache directory -/

/-- A job's step leaves the cache directory and its clock alone. -/
theorem touch_cache {T : Terminal} {j : JobId} {s : JobState} {l : JobLabel} :
    (touch S T j s l).cache = T.cache ∧ (touch S T j s l).clock = T.clock := by
  cases l with
  | worker a r =>
    cases a with
    | removeReport removed => cases removed <;> exact ⟨rfl, rfl⟩
    | raise exc =>
      simp only [touch]
      split <;> exact ⟨rfl, rfl⟩
    | _ => exact ⟨rfl, rfl⟩
  | cancel c a r => cases a <;> exact ⟨rfl, rfl⟩
  | status r => exact ⟨rfl, rfl⟩

/-- What MT5 does to the cache directory: a running process writes a file of its run, or no file
comes and the clock does not go back. -/
theorem env_cache {T T' : Terminal} {e : EnvAct} (h : env S T e = some T') :
    (T'.cache = T.cache ∧ T.clock ≤ T'.clock) ∨
      ∃ p name proc, e = .writeCache p name ∧
        T.runningAt [.terminal, .metatester] p = some proc ∧ T'.clock = T.clock ∧
        T'.cache = T.cache.filter (fun f => f.name ≠ name) ++
          [{ name := name, mtime := T.clock, writer := proc.origin }] := by
  cases e with
  | tick =>
    cases h
    exact Or.inl ⟨rfl, Nat.le_succ _⟩
  | writeCache p name =>
    obtain ⟨proc, hp, rfl⟩ := Option.map_eq_some_iff.mp h
    exact Or.inr ⟨p, name, proc, rfl, hp, rfl, rfl⟩
  | _ =>
    obtain ⟨proc, -, rfl⟩ := Option.map_eq_some_iff.mp h
    exact Or.inl ⟨rfl, le_rfl⟩

/-- Every cache file is of a run that its job's worker has launched. -/
def WritersLaunched (w : World) : Prop :=
  ∀ f ∈ w.shared.cache, (w.parts f.writer).launched = true

theorem WritersLaunched.step (hw : WritersLaunched w) (hrun : Run (worldStep S) .init w)
    {m : WorldLabel} (h : worldStep S w m = some w') : WritersLaunched w' := by
  intro f hf
  refine launched_mono_world h ?_
  cases m with
  | part j l =>
    rw [(worldStep_part h).2.2.2, touch_cache.1] at hf
    exact hw f hf
  | env e =>
    rcases env_cache (worldStep_env h).1 with ⟨hsame, -⟩ | ⟨p, name, proc, rfl, hp, -, hcache⟩
    · exact hw f (hsame ▸ hf)
    · rw [hcache, List.mem_append, List.mem_singleton] at hf
      rcases hf with hold | rfl
      · exact hw f (List.mem_filter.mp hold).1
      · exact launched_of_run hrun proc (runningAt_mem hp).2

theorem writersLaunched_of_run (h : Run (worldStep S) .init w) : WritersLaunched w :=
  h.invariant_of (fun _ ht => ht) (fun _ _ _ hrun _ hP _ hstep => hP.step hrun hstep) fun f hf => by
    simp [World.init, Terminal.init] at hf

/-- A worker launches once. -/
theorem not_launched_of_launching {s : JobState} (h : Run (jobStep S) .init s)
    (hpc : checkAhead s.pc = true ∨ s.pc = .launching) : s.launched = false := by
  refine h.invariant (P := fun s => checkAhead s.pc = true ∨ s.pc = .launching →
    s.launched = false) ?_ (fun _ => rfl) hpc
  intro s l s' hs _ hstep hpc'
  cases l with
  | worker a r =>
    obtain ⟨pc, hc, hs'⟩ := workerStep_iff.mp hstep
    rw [hs'] at hpc' ⊢
    have hbefore : checkAhead s.pc = true := by
      rcases hpc' with hahead | rfl
      · exact checkAhead_control hc hahead
      · rw [(control_launching hc).1]
        rfl
    refine Bool.eq_false_iff.mpr fun hlaunched => ?_
    rcases effect_launched hlaunched with hold | rfl
    · simp [hs (Or.inl hbefore)] at hold
    · simp only [control, Option.ite_none_right_eq_some] at hc
      simp [hc.1, checkAhead] at hbefore
  | cancel c a r =>
    have hsame := pc_of_not_worker hstep (by simp)
    rw [hsame] at hpc'
    obtain ⟨pc, -, rfl⟩ := cancelStep_iff.mp hstep
    cases a <;> exact hs hpc'
  | status r =>
    cases hstep
    exact hs hpc'

/-! ## Own cache files are the newest -/

/-- Of the cache files that match a job which seeks its own, those of other runs are older than the
clock and than those of its own run. -/
def OthersOlder (S : Setup) (w : World) : Prop :=
  ∀ j, (w.parts j).seeks = true → ∀ g ∈ w.shared.cache, g.writer ≠ j →
    (w.parts j).matchesCache S g.name = true →
      g.mtime < w.shared.clock ∧ ∀ f ∈ w.shared.cache, f.writer = j → g.mtime < f.mtime

theorem OthersOlder.part_step (hw : OthersOlder S w) (hrun : Run (worldStep S) .init w)
    {k : JobId} {l : JobLabel} (hok : CachesKept S w (.part k l))
    (h : worldStep S w (.part k l) = some w') : OthersOlder S w' := by
  intro j hj g hg hne hmatch
  obtain ⟨hl, hother, -, hT⟩ := worldStep_part h
  rw [hT, touch_cache.1] at hg
  rw [hT, touch_cache.1, touch_cache.2]
  rcases eq_or_ne j k with rfl | hjk
  · obtain ⟨hold, hset⟩ := seeks_step hl hj
    have hini : (w'.parts j).vars.job.debugIni = (w.parts j).vars.job.debugIni :=
      congrArg (fun settings => settings.2.2) hset
    rw [JobState.matchesCache, hini, ← JobState.matchesCache] at hmatch
    rcases hold with hold | ⟨⟨r, rfl⟩, htype⟩
    · exact hw j hold g hg hne hmatch
    · -- at the launch no file of the job's own run is there yet
      refine ⟨hok htype g hg hmatch, fun f hf hown => ?_⟩
      have hlaunched := writersLaunched_of_run hrun f hf
      obtain ⟨pc, hc, -⟩ := workerStep_iff.mp hl
      simp only [control, Option.ite_none_right_eq_some] at hc
      rw [hown, not_launched_of_launching (hrun.proj j) (Or.inr hc.1)] at hlaunched
      cases hlaunched
  · rw [hother j hjk] at hj hmatch
    exact hw j hj g hg hne hmatch

theorem OthersOlder.env_step (hw : OthersOlder S w) {e : EnvAct} (hok : CachesKept S w (.env e))
    (h : worldStep S w (.env e) = some w') : OthersOlder S w' := by
  intro j hj g hg hne hmatch
  obtain ⟨he, hparts⟩ := worldStep_env h
  rw [hparts] at hj hmatch
  rcases env_cache he with ⟨hsame, hclock⟩ | ⟨p, name, proc, rfl, hp, hclock, hcache⟩
  · rw [hsame] at hg ⊢
    obtain ⟨hlt, hall⟩ := hw j hj g hg hne hmatch
    exact ⟨hlt.trans_le hclock, hall⟩
  · rw [hcache, List.mem_append, List.mem_singleton] at hg
    rcases hg with hold | rfl
    · obtain ⟨hlt, hall⟩ := hw j hj g (List.mem_filter.mp hold).1 hne hmatch
      rw [hclock, hcache]
      refine ⟨hlt, fun f hf hown => ?_⟩
      rw [List.mem_append, List.mem_singleton] at hf
      rcases hf with hf | rfl
      · exact hall f (List.mem_filter.mp hf).1 hown
      · exact hlt
    · -- a matching file of another run would break the condition
      have := hok proc hp j (Ne.symm hne) hj
      simp [this] at hmatch

theorem othersOlder_of_run (h : RunOf (worldStep S) (CachesKept S) .init w) : OthersOlder S w := by
  refine h.invariant_of (fun _ ht => ht.run) ?_ ?_
  · intro u m u' hrun _ hP hok hstep
    cases m with
    | part k l => exact hP.part_step hrun hok hstep
    | env e => exact hP.env_step hok hstep
  · intro j hj
    simp [World.init, JobState.init, JobState.seeks, seeksCache] at hj

/-- A cache file that a worker reads is its own run's. -/
theorem ownCache_of_step (h : RunOf (worldStep S) (CachesKept S) .init w) {j : JobId}
    {l : JobLabel} (hok : CachesKept S w (.part j l))
    (hstep : worldStep S w (.part j l) = some w') :
    ReadsKnown (fun _ _ => True) (fun f => f.writer = j) (w.parts j) l := by
  unfold ReadsKnown
  split
  next => trivial
  next found r =>
    rintro x rfl
    obtain ⟨hl, -, hfits, -⟩ := worldStep_part hstep
    obtain ⟨pc, hc, -⟩ := workerStep_iff.mp hl
    have hseeks : (w.parts j).seeks = true := by
      have hprep := prepared_of_run (h.run.proj j)
      simp only [control] at hc
      split at hc
      next d hpc =>
        rw [hpc] at hprep
        have htype : (w.parts j).vars.job.optimizationType ≠ 0 := hprep
        simp [JobState.seeks, seeksCache, hpc, htype]
      next => cases hc
    obtain ⟨hmem, hmatch, hnewest⟩ := findCacheForJob_spec (of_decide_eq_true hfits)
    obtain ⟨f, hf, hfmatch, hown⟩ := hok ⟨x.1, hmem, hmatch⟩
    by_contra hne
    have hlt := (othersOlder_of_run h j hseeks x.1 hmem hne hmatch).2 f hf hown
    exact absurd (hnewest f hf hfmatch) (not_le.mpr hlt)
  next => trivial

/-- When a run writes a cache file of its own and those of other runs are older, the cache that a
completed optimization names is its own run's. -/
theorem ownCache : OwnCache S (CachesKept S) := by
  intro w h j job c hjob hst htype hc
  have hlocal : RunOf (jobStep S) (ReadsKnown (fun _ _ => True) fun f => f.writer = j) .init
      (w.parts j) :=
    h.proj j fun u l u' hu hok hstep => ownCache_of_step hu hok hstep
  exact ((verdict_of_reads hlocal).record job hjob hst).cache htype c hc

/-- An optimization, whatever the inputs of its expert. -/
def Submission.optimization : Submission :=
  { iniReport := "report.xml", fresh := "1f", optimizationType := 1,
    debugIni := ⟨some "ea.ex5", some "EURUSD", some "H1", some "2024.01.01", some "2024.02.01",
      some "1"⟩, submittedAt := 0, topPasses := 50, timeoutSeconds := 600 }

/-- The cache file that a run of `Submission.optimization` writes. -/
def CacheFile.sample (writer : JobId) : CacheFile :=
  { name := "ea.EURUSD.H1.20240101.20240201.0A.opt", mtime := 0, writer := writer }

/-- From the terminal's exit to the verdict, with the cache file of the run of `writer`. -/
def judgedByCache (writer : JobId) : List WorkerAct :=
  untilJudging ++ [.measure "", .sawReports true, .sawReport true, .sawReport true,
    .readCache (some (CacheFile.sample writer, [[("Pass", "1")]])), .update]

/-- An optimization alone on its terminal, from its submission to its verdict. -/
def optimizedAlone : List WorldLabel :=
  work 0 (untilWaiting .optimization ++ untilLaunching ++ [.launch]) ++
    [.env (.writeCache 0 (CacheFile.sample 0).name), .env (.writeReport 0 ""), .env (.exit 0 0)] ++
    work 0 (judgedByCache 0)

/-- A step of job 0 alone that keeps its cache: none is there at the launch, and only its own run
writes. -/
def keepsCacheAlone (w : World) : WorldLabel → Bool
  | .part j (.worker .launch _) => j == 0 && w.shared.cache.isEmpty
  | .part j (.worker (.readCache _) _) => j == 0 && w.shared.cache.all fun f => f.writer == 0
  | .part j _ => j == 0
  | .env (.writeCache p _) =>
    (w.shared.runningAt [.terminal, .metatester] p).all fun proc => proc.origin == 0
  | .env _ => true

theorem ownCache_alone :
    ∃ w f, RunOf (worldStep .sample) (CachesKept .sample) .init w ∧
      (w.parts 0).vars.cacheRead = some f ∧ f.writer = 0 := by
  obtain ⟨w, hw, hp⟩ := (Option.any_eq_true _ _).mp (show (execOf (worldStep .sample)
    keepsCacheAlone .init optimizedAlone).any (fun w =>
        (w.parts 0).entry.memory.any fun job => decide (job.status = .completed ∧
          job.optimizationType ≠ 0 ∧ job.optimizationCache.isSome)) = true by decide)
  have hrun : RunOf (worldStep .sample) (CachesKept .sample) .init w := by
    refine runOf_of_execOf_alone World.init 0 ?_ ?_ (fun _ _ => rfl) hw
    · intro w j l hm
      unfold keepsCacheAlone at hm
      split at hm <;> simp_all
    · intro w m hother hm
      unfold CachesKept
      unfold keepsCacheAlone at hm
      split
      · simp only [Bool.and_eq_true, List.isEmpty_iff] at hm
        simp [hm.2]
      · simp only [Bool.and_eq_true, beq_iff_eq, List.all_eq_true] at hm
        rintro ⟨f, hf, hmatch⟩
        exact ⟨f, hf, hmatch, (hm.2 f hf).trans hm.1.symm⟩
      · intro proc hproc j hj hseeks
        simp only [hproc, Option.all_some, beq_iff_eq] at hm
        rw [hother j (hm ▸ hj)] at hseeks
        cases hseeks
      · trivial
  obtain ⟨job, hjob, hst⟩ := (Option.any_eq_true _ _).mp hp
  obtain ⟨hcompleted, htype, hsome⟩ := of_decide_eq_true hst
  obtain ⟨c, hc⟩ := Option.isSome_iff_exists.mp hsome
  obtain ⟨f, hf, -, -, hown⟩ := ownCache w hrun 0 job c hjob hcompleted htype hc
  exact ⟨w, f, hrun, hf, hown⟩

/-- An optimization that writes its cache, and then one with the same expert, symbol, period and
dates that writes a report but no cache. -/
def earlierRunsCache : List WorldLabel :=
  optimizedAlone ++ work 1 (untilWaiting .optimization ++ untilLaunching ++ [.launch]) ++
    [.env .tick, .env (.writeReport 1 ""), .env (.exit 1 0)] ++ work 1 (judgedByCache 0)

/-- Without the condition, job 1 completes with the cache of job 0's run. -/
theorem not_ownCache : ¬ OwnCache .sample fun _ _ => True := by
  intro h
  obtain ⟨w, hrun, hp⟩ := exists_run_of_exec (show (exec (worldStep .sample) .init
    earlierRunsCache).any (fun w => (w.parts 1).entry.memory.any (fun job =>
      decide (job.status = .completed ∧ job.optimizationType ≠ 0 ∧
        job.optimizationCache.isSome)) &&
          (w.parts 1).vars.cacheRead.all fun f => f.writer == 0) = true by decide)
  rw [Bool.and_eq_true] at hp
  obtain ⟨job, hjob, hst⟩ := (Option.any_eq_true _ _).mp hp.1
  obtain ⟨hcompleted, htype, hsome⟩ := of_decide_eq_true hst
  obtain ⟨c, hc⟩ := Option.isSome_iff_exists.mp hsome
  obtain ⟨f, hf, -, -, hown⟩ := h w hrun 1 job c hjob hcompleted htype hc
  simp [hf, hown] at hp

end Backtest

import Mt5HttpApi.Backtest.Verdict

/-!
# Is a job judged by its own report?

A worker removes the file at its report path before it waits for `RUN_LOCK`, and reads it after it
has given the lock back. In between, another job with the same report name, which `build_ini` writes
by default, may run and leave its report there: the first job is then judged by the second one's
report (`not_ownReport`). A report that cannot be opened counts as an empty text.

`ReportsKept` is the condition that this does not happen, and `ownReport` says that then a completed
job's summary, or its rows from the XML report, are those of a report its own run wrote.
-/

namespace Backtest

open Transition

variable {S : Setup} {w w' : World}

/-- The worker has removed its old report and has not read its new one. -/
def awaitsReport : WorkerPc → Bool
  | .waitingLock | .waitCheck | .settingHolder .run | .locked | .updating (.running _) | .staging
  | .lastCheck | .launching | .watching | .exitCheck _ | .cleaning (.judge _)
  | .clearingHolder (.judge _) | .releasing (.judge _) | .postCheck _ | .judging _
  | .relaunchCheck _ | .graceCheck | .graceAlive | .graceReport | .runCheck | .runAlive
  | .awaitDone | .awaitCheck _ | .fallbackCheck _ | .symbolsCheck _ | .reportCheck _
  | .cacheReading _ | .xmlReading _ _ | .reportReading _ | .updating (.symbolsReport _ _) => true
  | _ => false

/-- The worker will be judged by the report at its report path. A mode-3 job's results come from the
cache only. -/
def JobState.awaits (s : JobState) : Bool :=
  awaitsReport s.pc && s.vars.job.optimizationType != 3

/-- The file the worker expects its report in. -/
def JobState.reportFile (S : Setup) (s : JobState) : String :=
  S.fileOf s.vars.job.reportPath

/-- The removal of an old report succeeds, no run of another job writes the report file of a job
between that removal and the job's own read, and a backtest's report can be opened. -/
def ReportsKept (S : Setup) (w : World) : WorldLabel → Prop
  | .part j (.worker (.removeReport removed) _) =>
    (w.parts j).vars.job.optimizationType ≠ 3 →
      removed = true ∨ w.shared.files ((w.parts j).reportFile S) = none
  | .part j (.worker (.readReport file _) _) =>
    (w.parts j).vars.job.optimizationType = 0 → file ≠ none
  | .env (.writeReport p _) => ∀ proc, w.shared.runningAt [.terminal] p = some proc →
    ∀ j, j ≠ proc.origin → (w.parts j).awaits = true →
      S.fileOf proc.reportTarget ≠ (w.parts j).reportFile S
  | _ => True

/-- The job's result was computed from a report that its own run wrote: a backtest's summary, and
an optimization's rows when they were taken from the XML report. -/
def JudgedByOwnReport (S : Setup) (j : JobId) (s : JobState) (job : Job) : Prop :=
  (job.optimizationType = 0 → ∃ file, s.vars.reportRead = some file ∧ file.writer = j ∧
    job.summary = some (S.parseReportSummary file.content)) ∧
  (job.optimizationType ≠ 0 → s.vars.resultSource = .xml →
    ∃ file, s.vars.reportRead = some file ∧ file.writer = j ∧
      job.optimizationResults = some (S.parseOptimizationReport file.content job.topPasses))

/-- Along runs whose steps meet `ok`, every completed job is judged by its own report. -/
def OwnReport (S : Setup) (ok : World → WorldLabel → Prop) : Prop :=
  ∀ w, RunOf (worldStep S) ok .init w → ∀ j job, (w.parts j).entry.memory = some job →
    job.status = .completed → JudgedByOwnReport S j (w.parts j) job

/-- A worker awaits its report from the removal of the old one on. -/
theorem awaitsReport_control {s : JobState} {a : WorkerAct} {r : Reading} {pc : WorkerPc}
    (h : control S s a r = some pc) (hpc : awaitsReport pc = true) :
    awaitsReport s.pc = true ∨ ∃ removed, a = .removeReport removed := by
  revert hpc
  cases a with
  | removeReport removed => exact fun _ => Or.inr ⟨removed, rfl⟩
  | raise exc => rcases onRaise_handler h with rfl | rfl | rfl | rfl <;> simp [awaitsReport]
  | updateRaise exc =>
    obtain ⟨site, -, hraise⟩ := pc_of_updateRaise h
    rcases onRaise_handler hraise with rfl | rfl | rfl | rfl <;> simp [awaitsReport]
  | update =>
    obtain ⟨site, hsite, rfl⟩ := pc_of_update h
    rw [hsite]
    cases site <;> simp [UpdateSite.next, awaitsReport]
  | release =>
    obtain ⟨after, hpc, rfl⟩ := pc_of_release h
    cases after <;> simp [hpc, After.next, awaitsReport]
  | cleanUp =>
    obtain ⟨after, hpc, rfl⟩ := pc_of_cleanUp h
    cases after <;> simp [hpc, awaitsReport]
  | clearHolder =>
    obtain ⟨after, hpc, rfl⟩ := pc_of_clearHolder h
    cases after <;> simp [hpc, awaitsReport]
  | settle again =>
    obtain ⟨section_, -, rfl⟩ := pc_of_settle h
    cases again <;> cases section_ <;> simp [Section.settled, awaitsReport]
  | _ =>
    simp only [control] at h
    repeat' split at h
    all_goals simp only [Option.some.injEq, reduceCtorEq] at h
    all_goals subst h
    all_goals simp [*, awaitsReport]

/-- A worker that awaits its report keeps its copy of the record, unless it is a mode-3 job's. -/
theorem effect_job_of_awaits {s : JobState} {a : WorkerAct} {r : Reading} {pc : WorkerPc}
    (hprep : Prepared (fun _ _ => True) (fun _ => True) S s.vars s.pc)
    (h : control S s a r = some pc) (hpc : awaitsReport pc = true)
    (htype : (effect S s a r).vars.job.optimizationType ≠ 3) :
    (effect S s a r).vars.job = s.vars.job := by
  cases a with
  | load =>
    simp only [control] at h
    repeat' split at h
    all_goals simp only [Option.some.injEq, reduceCtorEq] at h
    all_goals subst h
    all_goals simp [awaitsReport] at hpc
  | sawSymbols found =>
    cases found with
    | false => simp only [effect]
    | true =>
      simp only [control] at h
      split at h
      next d hd =>
        rw [hd] at hprep
        simp only [effect] at htype
        exact absurd hprep htype
      next => cases h
  | _ => simp only [effect]

/-- A job's step puts no report file into the directory. -/
theorem touch_files {T : Terminal} {j : JobId} {s : JobState} {l : JobLabel} {key : String}
    {file : ReportFile} (h : (touch S T j s l).files key = some file) :
    T.files key = some file := by
  cases l with
  | worker a r =>
    cases a with
    | removeReport removed =>
      cases removed with
      | false => exact h
      | true =>
        simp only [touch, Function.update_apply] at h
        split at h
        · cases h
        · exact h
    | raise exc =>
      simp only [touch] at h
      split at h <;> exact h
    | _ => exact h
  | cancel c a r => cases a <;> exact h
  | status r => exact h

/-- A report file that comes in is written by a running terminal, for the job it runs. -/
theorem env_files {T T' : Terminal} {e : EnvAct} (h : env S T e = some T') {key : String}
    {file : ReportFile} (hfile : T'.files key = some file) :
    T.files key = some file ∨ ∃ p content proc, e = .writeReport p content ∧
      T.runningAt [.terminal] p = some proc ∧ S.fileOf proc.reportTarget = key ∧
        file.writer = proc.origin := by
  cases e with
  | tick => cases h; exact Or.inl hfile
  | writeReport p content =>
    obtain ⟨proc, hp, rfl⟩ := Option.map_eq_some_iff.mp h
    simp only [Function.update_apply] at hfile
    split at hfile
    next hkey =>
      cases hfile
      exact Or.inr ⟨p, content, proc, rfl, hp, hkey.symm, rfl⟩
    next => exact Or.inl hfile
  | _ =>
    obtain ⟨proc, -, rfl⟩ := Option.map_eq_some_iff.mp h
    exact Or.inl hfile

/-- The report a worker awaits, when it is there, is its own run's. -/
def FilesOwn (S : Setup) (w : World) : Prop :=
  ∀ j, (w.parts j).awaits = true →
    ∀ file, w.shared.files ((w.parts j).reportFile S) = some file → file.writer = j

/-- Between two steps of its own, a worker's report path is what it was. -/
theorem awaits_step {s s' : JobState} {l : JobLabel}
    (hprep : Prepared (fun _ _ => True) (fun _ => True) S s.vars s.pc)
    (h : jobStep S s l = some s') (hs' : s'.awaits = true) :
    (s.awaits = true ∨ ∃ removed r, l = .worker (.removeReport removed) r) ∧
      s'.vars.job = s.vars.job := by
  simp only [JobState.awaits, Bool.and_eq_true, bne_iff_ne, ne_eq] at hs' ⊢
  obtain ⟨hpc', htype⟩ := hs'
  cases l with
  | worker a r =>
    obtain ⟨pc, hc, rfl⟩ := workerStep_iff.mp h
    have hjob := effect_job_of_awaits hprep hc hpc' htype
    have htype' : (effect S s a r).vars.job.optimizationType ≠ 3 := htype
    rw [hjob] at htype'
    refine ⟨?_, hjob⟩
    rcases awaitsReport_control hc hpc' with hold | ⟨removed, rfl⟩
    · exact Or.inl ⟨hold, htype'⟩
    · exact Or.inr ⟨removed, r, rfl⟩
  | cancel c a r =>
    obtain ⟨pc, -, rfl⟩ := cancelStep_iff.mp h
    cases a <;> exact ⟨Or.inl ⟨hpc', htype⟩, rfl⟩
  | status r =>
    cases h
    exact ⟨Or.inl ⟨hpc', htype⟩, rfl⟩

theorem FilesOwn.step (hw : FilesOwn S w) (hrun : Run (worldStep S) .init w) {m : WorldLabel}
    (hok : ReportsKept S w m) (h : worldStep S w m = some w') : FilesOwn S w' := by
  intro j hj file hfile
  have hprep : Prepared (fun _ _ => True) (fun _ => True) S (w.parts j).vars (w.parts j).pc :=
    prepared_of_run (hrun.proj j)
  cases m with
  | env e =>
    obtain ⟨he, hparts⟩ := worldStep_env h
    rw [hparts] at hj hfile
    rcases env_files he hfile with hold | ⟨p, content, proc, rfl, hp, hkey, hwriter⟩
    · exact hw j hj file hold
    · -- a report of another run would break the condition
      by_contra hne
      exact hok proc hp j (by rw [← hwriter]; exact Ne.symm hne) hj hkey
  | part k l =>
    obtain ⟨hl, hother, -, hT⟩ := worldStep_part h
    rw [hT] at hfile
    rcases eq_or_ne j k with rfl | hne
    · obtain ⟨hold, hjob⟩ := awaits_step hprep hl hj
      have hpath : (w'.parts j).reportFile S = (w.parts j).reportFile S := by
        rw [JobState.reportFile, hjob, JobState.reportFile]
      rw [hpath] at hfile
      rcases hold with hold | ⟨removed, r, rfl⟩
      · exact hw j hold file (touch_files hfile)
      · -- right after the removal there is no file
        exfalso
        have htype : (w.parts j).vars.job.optimizationType ≠ 3 := by
          rw [← hjob]
          simpa using (Bool.and_eq_true_iff.mp hj).2
        rcases hok htype with rfl | hnone
        · simp [touch, JobState.reportFile] at hfile
        · rw [touch_files hfile] at hnone
          cases hnone
    · rw [hother j hne] at hj hfile
      exact hw j hj file (touch_files hfile)

theorem filesOwn_of_run (h : RunOf (worldStep S) (ReportsKept S) .init w) : FilesOwn S w :=
  h.invariant_of (fun _ ht => ht.run)
    (fun _ _ _ hrun _ hP hok hstep => hP.step hrun hok hstep) fun j hj => by
      simp [World.init, JobState.init, JobState.awaits, awaitsReport] at hj

/-- What the condition makes known of a report that job `j`'s worker reads. -/
def OwnFile (j : JobId) (optimizationType : ℕ) (file : Option ReportFile) : Prop :=
  (∀ f, file = some f → f.writer = j) ∧ (optimizationType = 0 → file ≠ none)

/-- A report that a worker reads is its own run's. -/
theorem ownFile_of_step (h : RunOf (worldStep S) (ReportsKept S) .init w) {j : JobId}
    {l : JobLabel} (hok : ReportsKept S w (.part j l))
    (hstep : worldStep S w (.part j l) = some w') :
    ReadsKnown (OwnFile j) (fun _ => True) (w.parts j) l := by
  unfold ReadsKnown
  split
  next file tail r =>
    refine ⟨fun f hf => ?_, hok⟩
    have hprep : Prepared (fun _ _ => True) (fun _ => True) S (w.parts j).vars
        (w.parts j).pc := prepared_of_run (h.run.proj j)
    obtain ⟨hl, -, hfits, -⟩ := worldStep_part hstep
    obtain ⟨pc, hc, -⟩ := workerStep_iff.mp hl
    have hawaits : (w.parts j).awaits = true := by
      simp only [control] at hc
      split at hc
      next d cache hpc =>
        rw [hpc] at hprep
        simpa [JobState.awaits, awaitsReport, hpc] using hprep.2.1
      next d hpc =>
        rw [hpc] at hprep
        have hzero : (w.parts j).vars.job.optimizationType = 0 := hprep
        simp [JobState.awaits, awaitsReport, hpc, hzero]
      next => cases hc
    refine filesOwn_of_run h j hawaits f ?_
    rcases of_decide_eq_true hfits with hnone | hfile
    · rw [hf] at hnone
      cases hnone
    · exact hfile.symm.trans hf
  next => simp
  next => trivial

/-- When old reports are removed, no run of another job writes the report a worker waits for, and
a backtest's report can be opened, every completed job is judged by its own report. -/
theorem ownReport : OwnReport S (ReportsKept S) := by
  intro w h j job hjob hc
  have hlocal : RunOf (jobStep S) (ReadsKnown (OwnFile j) fun _ => True) .init (w.parts j) :=
    h.proj j fun u l u' hu hok hstep => ownFile_of_step hu hok hstep
  have hrecord := (verdict_of_reads hlocal).record job hjob hc
  refine ⟨fun htype => ?_, fun htype hsource => ?_⟩
  · obtain ⟨hsummary, hown, hopen⟩ := hrecord.summary htype
    obtain ⟨file, hfile⟩ := Option.ne_none_iff_exists'.mp (hopen rfl)
    refine ⟨file, hfile, hown file hfile, ?_⟩
    rw [hsummary, hfile]
    rfl
  · obtain ⟨hrows, hne, hown, -⟩ := hrecord.rows htype hsource
    cases hread : (w.parts j).vars.reportRead with
    | none =>
      rw [hread] at hne
      exact absurd rfl hne
    | some file =>
      refine ⟨file, rfl, hown file hread, ?_⟩
      rw [hrows, hread]
      rfl

/-- A backtest alone on its terminal, from its submission to its verdict. -/
def completedAlone : List WorldLabel :=
  work 0 (untilWaiting .sample ++ untilLaunching ++ [.launch]) ++
    [.env (.writeReport 0 "Bars 10"), .env (.exit 0 0)] ++
    work 0 (untilJudging ++ [.measure "", .sawReports true, .sawReport true, .sawReport true,
      .readReport (some ⟨"Bars 10", 0⟩) "", .update])

/-- A step of job 0 alone that keeps its report: the old one goes, and only its own run writes. -/
def keepsReportAlone (w : World) : WorldLabel → Bool
  | .part j (.worker (.removeReport removed) _) => j == 0 && removed
  | .part j (.worker (.readReport file _) _) => j == 0 && file.isSome
  | .part j _ => j == 0
  | .env (.writeReport p _) =>
    (w.shared.runningAt [.terminal] p).all fun proc => proc.origin == 0
  | .env _ => true

theorem ownReport_alone :
    ∃ w job, RunOf (worldStep .sample) (ReportsKept .sample) .init w ∧
      (w.parts 0).entry.memory = some job ∧ job.status = .completed ∧
      JudgedByOwnReport .sample 0 (w.parts 0) job := by
  obtain ⟨w, hw, hp⟩ := (Option.any_eq_true _ _).mp (show (execOf (worldStep .sample)
    keepsReportAlone .init completedAlone).any (fun w =>
        (w.parts 0).entry.memory.any fun job => job.status = .completed) = true by decide)
  have hrun : RunOf (worldStep .sample) (ReportsKept .sample) .init w := by
    refine runOf_of_execOf_alone World.init 0 ?_ ?_ (fun _ _ => rfl) hw
    · intro w j l hm
      unfold keepsReportAlone at hm
      split at hm <;> simp_all
    · intro w m hother hm
      unfold ReportsKept
      unfold keepsReportAlone at hm
      split
      · simp only [Bool.and_eq_true] at hm
        exact fun _ => Or.inl hm.2
      · simp only [Bool.and_eq_true] at hm
        exact fun _ => Option.isSome_iff_ne_none.mp hm.2
      · intro proc hproc j hj hawaits
        simp only [hproc, Option.all_some, beq_iff_eq] at hm
        rw [hother j (hm ▸ hj)] at hawaits
        cases hawaits
      · trivial
  obtain ⟨job, hjob, hst⟩ := (Option.any_eq_true _ _).mp hp
  exact ⟨w, job, hrun, hjob, of_decide_eq_true hst,
    ownReport w hrun 0 job hjob (of_decide_eq_true hst)⟩

/-- Two backtests with the same report name. Job 0 removes its old report and waits while job 1
runs and leaves its report. Then job 0 runs, writes none, and finds job 1's. -/
def sharedReportName : List WorldLabel :=
  work 0 (untilWaiting .sample) ++
    work 1 (untilWaiting .sample ++ untilLaunching ++ [.launch]) ++
    [.env (.writeReport 0 "Bars 10"), .env (.exit 0 0)] ++
    work 1 untilJudging ++
    work 0 (untilLaunching ++ [.launch]) ++ [.env (.exit 1 0)] ++
    work 0 (untilJudging ++ [.measure "", .sawReports true, .sawReport true, .sawReport true,
      .readReport (some ⟨"Bars 10", 1⟩) "", .update])

/-- Without the condition, job 0 completes with the summary of job 1's report. -/
theorem not_ownReport : ¬ OwnReport .sample fun _ _ => True := by
  intro h
  obtain ⟨w, hrun, hp⟩ := exists_run_of_exec (show (exec (worldStep .sample) .init
    sharedReportName).any (fun w => (w.parts 0).entry.memory.any (fun job =>
      decide (job.status = .completed ∧ job.optimizationType = 0)) &&
        (w.parts 0).vars.reportRead.all fun file => file.writer == 1) = true by decide)
  rw [Bool.and_eq_true] at hp
  obtain ⟨job, hjob, hst⟩ := (Option.any_eq_true _ _).mp hp.1
  obtain ⟨hc, htype⟩ := of_decide_eq_true hst
  obtain ⟨file, hfile, hown, -⟩ := (h w hrun 0 job hjob hc).1 htype
  simp [hfile, hown] at hp

end Backtest

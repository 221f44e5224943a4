import Mt5HttpApi.Backtest.RunLock

/-!
# What a completed job's record holds

A worker reads a report or a cache file and only then writes `completed`. This file carries what is
known of the files it read to the record it wrote: `Q` says what is known of a report it reads, by
the job's optimization type, and `P` what is known of a cache file. `verdict_of_reads` is the
result, for runs of one job in which the files read are so.
-/

namespace Backtest

open Transition

variable {S : Setup} {s s' : JobState} (Q : ℕ → Option ReportFile → Prop) (P : CacheFile → Prop)

/-- The files a step reads are as `Q` and `P` say. -/
def ReadsKnown (s : JobState) : JobLabel → Prop
  | .worker (.readReport file _) _ => Q s.vars.job.optimizationType file
  | .worker (.readCache found) _ => ∀ x, found = some x → P x.1
  | _ => True

/-- The metadata is that of the cache file that was read. -/
def CacheKnown (v : Vars) (cache : Option CacheMetadata) : Prop :=
  ∀ c, cache = some c →
    ∃ f, v.cacheRead = some f ∧ c.name = f.name ∧ c.modifiedAt = f.mtime ∧ P f

/-- What the worker knows of the values it is about to write, or to read more for. -/
def Prepared (S : Setup) (v : Vars) : WorkerPc → Prop
  | .symbolsCheck _ => v.job.optimizationType = 3
  | .cacheReading _ => v.job.optimizationType ≠ 0
  | .xmlReading _ cache =>
    v.job.optimizationType ≠ 0 ∧ v.job.optimizationType ≠ 3 ∧ v.resultSource ≠ .xml ∧
      CacheKnown P v cache
  | .reportReading _ => v.job.optimizationType = 0
  | .updating (.optimizationDone rows cache _ _) =>
    v.job.optimizationType ≠ 0 ∧ CacheKnown P v cache ∧
      (v.resultSource = .xml → rows = xmlRows S v.job v.reportRead ∧ rows ≠ [] ∧
        Q v.job.optimizationType v.reportRead)
  | .updating (.done summary _ _) =>
    v.job.optimizationType = 0 ∧ summary = reportSummary S v.reportRead ∧ Q 0 v.reportRead
  | _ => True

/-- What a completed job's record holds. -/
structure Recorded (S : Setup) (v : Vars) (job : Job) : Prop where
  summary : job.optimizationType = 0 →
    job.summary = some (reportSummary S v.reportRead) ∧ Q 0 v.reportRead
  rows : job.optimizationType ≠ 0 → v.resultSource = .xml →
    job.optimizationResults = some (xmlRows S job v.reportRead) ∧
      xmlRows S job v.reportRead ≠ [] ∧ Q job.optimizationType v.reportRead
  cache : job.optimizationType ≠ 0 → CacheKnown P v job.optimizationCache

/-- The worker's copy of the record has the job's own settings, on the way to its verdict. -/
def onTrack : WorkerPc → Bool
  | .firstCheck | .makingDirs | .removingReport | .waitingLock | .waitCheck | .settingHolder .run
  | .locked | .updating (.running _) | .staging | .lastCheck | .launching => true
  | pc => judges pc

/-- The settings that a record and its copy share. -/
def Job.settings (job : Job) : ℕ × ℕ × TesterSettings :=
  (job.optimizationType, job.topPasses, job.debugIni)

theorem update_settings (job : Job) (cs : List Change) :
    (job.update cs).settings = job.settings := by
  induction cs generalizing job with
  | nil => rfl
  | cons c cs ih =>
    rw [Job.update_cons, ih]
    cases c <;> rfl

/-- The worker comes onto its track by loading the job. -/
theorem onTrack_control {a : WorkerAct} {r : Reading} {pc : WorkerPc}
    (h : control S s a r = some pc) (hpc : onTrack pc = true) :
    onTrack s.pc = true ∨ a = .load := by
  by_cases hj : judges pc = true
  · rcases judges_control h hj with hold | rfl
    · left
      unfold onTrack
      split <;> first | rfl | exact hold
    · simp only [control, Option.ite_none_right_eq_some] at h
      simp [h.1, onTrack]
  · revert hpc
    cases a with
    | load => exact fun _ => Or.inr rfl
    | raise exc => rcases onRaise_handler h with rfl | rfl | rfl | rfl <;> simp [onTrack, judges]
    | updateRaise exc =>
      obtain ⟨site, -, hraise⟩ := pc_of_updateRaise h
      rcases onRaise_handler hraise with rfl | rfl | rfl | rfl <;> simp [onTrack, judges]
    | update =>
      obtain ⟨site, hsite, rfl⟩ := pc_of_update h
      rw [hsite]
      cases site <;> simp [UpdateSite.next, onTrack, judges]
    | release =>
      obtain ⟨after, hpc, rfl⟩ := pc_of_release h
      cases after <;> simp_all [After.next, onTrack, judges]
    | settle again =>
      obtain ⟨section_, -, rfl⟩ := pc_of_settle h
      cases again <;> cases section_ <;> simp [Section.settled, onTrack, judges]
    | _ =>
      simp only [control] at h
      repeat' split at h
      all_goals simp only [Option.some.injEq, reduceCtorEq] at h
      all_goals subst h
      all_goals simp_all [onTrack, judges]

/-! ## Steps -/

/-- A worker step other than a load leaves the settings of its copy alone. -/
theorem effect_settings {a : WorkerAct} {r : Reading} (ha : a ≠ .load) :
    (effect S s a r).vars.job.settings = s.vars.job.settings := by
  cases a with
  | load => exact absurd rfl ha
  | sawSymbols found => cases found <;> simp only [effect, Job.settings]
  | _ => simp only [effect]

/-- A step keeps the settings of a job that is there. -/
theorem Lifecycle.settings_step (hs : Lifecycle s) {l : JobLabel} (h : jobStep S s l = some s')
    {job' : Job} (hjob' : s'.entry.memory = some job') :
    s.pc = .absent ∨ ∃ job, s.entry.memory = some job ∧ job'.settings = job.settings := by
  have hmem := jobStep_memory (fun hn => (hs.absent hn).2.1) (fun hn => (hs.absent hn).1) h
  rw [hjob'] at hmem
  generalize hm : some job' = m at hmem
  cases hmem with
  | same => exact Or.inr ⟨job', hm.symm, rfl⟩
  | store sub r _ hpc => exact Or.inl hpc
  | update site job _ _ hjob =>
    cases hm
    exact Or.inr ⟨job, hjob, update_settings _ _⟩
  | cancel c r job _ hjob =>
    cases hm
    exact Or.inr ⟨job, hjob, update_settings _ _⟩

/-- The branches of `_run_job` after the report check prepare what they then read or write. -/
theorem prepared_control {a : WorkerAct} {r : Reading} {pc : WorkerPc}
    (hs : Prepared Q P S s.vars s.pc) (hok : ReadsKnown Q P s (.worker a r))
    (h : control S s a r = some pc) : Prepared Q P S (effect S s a r).vars pc := by
  cases a with
  | raise exc => rcases onRaise_handler h with rfl | rfl | rfl | rfl <;> trivial
  | updateRaise exc =>
    obtain ⟨site, -, hraise⟩ := pc_of_updateRaise h
    rcases onRaise_handler hraise with rfl | rfl | rfl | rfl <;> trivial
  | update =>
    obtain ⟨site, -, rfl⟩ := pc_of_update h
    cases site <;> trivial
  | release =>
    obtain ⟨after, -, rfl⟩ := pc_of_release h
    cases after <;> trivial
  | settle again =>
    obtain ⟨section_, -, rfl⟩ := pc_of_settle h
    cases again <;> cases section_ <;> trivial
  | sawReport found =>
    simp only [control] at h
    split at h
    next d _ =>
      cases h
      split
      next hcond =>
        rw [Bool.and_eq_true, beq_iff_eq] at hcond
        exact hcond.2
      next => trivial
    next d _ =>
      cases h
      split
      · trivial
      · split
        next htype => exact htype
        next htype => exact not_not.mp htype
    next => cases h
  | sawSymbols found =>
    simp only [control] at h
    split at h
    next d _ => cases h; cases found <;> trivial
    next => cases h
  | readCache found =>
    simp only [control] at h
    split at h
    next d hpc =>
      rw [hpc] at hs
      have htype : s.vars.job.optimizationType ≠ 0 := hs
      -- the cache that was read is one of the job, or there is none
      have hcache : CacheKnown P (effect S s (.readCache found) r).vars
          (cacheDetails s.vars.job found).2 := by
        intro c hc
        cases found with
        | none => cases hc
        | some x =>
          cases hc
          exact ⟨x.1, rfl, rfl, rfl, hok x rfl⟩
      have hsource : (effect S s (.readCache found) r).vars.resultSource ≠ .xml := by
        simp only [effect]
        split <;> simp
      cases h
      split
      next hempty => exact ⟨htype, hempty.2, hsource, hcache⟩
      next => exact ⟨htype, hcache, fun hxml => absurd hxml hsource⟩
    next => cases h
  | readReport file tail =>
    simp only [control] at h
    split at h
    next d cache hpc =>
      cases h
      rw [hpc] at hs
      obtain ⟨htype, -, hsource, hcache⟩ := hs
      refine ⟨htype, hcache, fun hxml => ⟨rfl, ?_, hok⟩⟩
      simp only [effect] at hxml
      split at hxml
      next hrows => exact hrows.2
      next => exact absurd hxml hsource
    next d hpc =>
      rw [hpc] at hs
      have htype : s.vars.job.optimizationType = 0 := hs
      have hread : Q 0 file := by
        have := hok
        rwa [ReadsKnown, htype] at this
      cases h
      split
      · trivial
      · exact ⟨htype, rfl, hread⟩
    next => cases h
  -- the other branches end where nothing is claimed of what was read
  | _ =>
    simp only [control] at h
    repeat' split at h
    all_goals simp only [Option.some.injEq, reduceCtorEq] at h
    all_goals subst h
    all_goals trivial

/-- `completed` is no status of a job whose worker still has to write one. -/
theorem not_completed_of_updating {site : UpdateSite} {st : Status}
    (h : st ∈ allowed (.updating site)) : st ≠ .completed := by
  rintro rfl
  revert h
  cases site <;> simp [allowed, freshStatuses, liveStatuses]

/-- The files the worker has read, and where it took an optimization's rows from. -/
def Vars.reads (v : Vars) : Option ReportFile × Option CacheFile × ResultSource :=
  (v.reportRead, v.cacheRead, v.resultSource)

/-- A completed job's worker reads no more files. -/
theorem effect_reads {a : WorkerAct} {r : Reading} {pc : WorkerPc}
    (h : control S s a r = some pc) (hc : .completed ∈ allowed s.pc) :
    (effect S s a r).vars.reads = s.vars.reads := by
  cases a with
  | readReport file tail =>
    simp only [control] at h
    split at h
    next hpc => simp [hpc, allowed, liveStatuses] at hc
    next hpc => simp [hpc, allowed, liveStatuses] at hc
    next => cases h
  | readCache found =>
    simp only [control] at h
    split at h
    next hpc => simp [hpc, allowed, liveStatuses] at hc
    next => cases h
  | sawSymbols found => cases found <;> simp only [effect, Vars.reads]
  | _ => simp only [effect, Vars.reads]

/-- What the record of a completed job holds is a matter of its settings and of the files read. -/
theorem Recorded.of_reads {v v' : Vars} {job : Job} (h : Recorded Q P S v job)
    (hv : v'.reads = v.reads) : Recorded Q P S v' job := by
  simp only [Vars.reads, Prod.mk.injEq] at hv
  obtain ⟨hreport, hcache, hsource⟩ := hv
  refine ⟨?_, ?_, ?_⟩
  · rw [hreport]
    exact h.summary
  · rw [hreport, hsource]
    exact h.rows
  · intro htype c hc
    rw [hcache]
    exact h.cache htype c hc

/-- The two updates that complete a job write what was prepared. -/
theorem recorded_update {v : Vars} {site : UpdateSite} {job : Job}
    (hprep : Prepared Q P S v (.updating site)) (hset : v.job.settings = job.settings)
    (hst : job.status ∈ allowed (.updating site))
    (hc : (job.update (job.admitted site.changes)).status = .completed) :
    Recorded Q P S v (job.update (job.admitted site.changes)) := by
  simp only [Job.settings, Prod.mk.injEq] at hset
  obtain ⟨htype, htop, -⟩ := hset
  rw [status_update] at hc
  split at hc
  next => cases hc
  next hne =>
    rw [Job.admitted_of_ne_cancelled hne]
    cases site with
    | done summary d now =>
      obtain ⟨hzero, hsummary, hread⟩ := hprep
      have hjob : job.optimizationType = 0 := htype.symm.trans hzero
      refine ⟨fun _ => ⟨congrArg some hsummary, hread⟩, fun h => ?_, fun h => ?_⟩
      · exact absurd hjob h
      · exact absurd hjob h
    | optimizationDone rows cache d now =>
      obtain ⟨hnonzero, hcache, hrows⟩ := hprep
      have hjob : job.optimizationType ≠ 0 := htype ▸ hnonzero
      have hxml : ∀ job' : Job, job'.topPasses = v.job.topPasses →
          xmlRows S job' v.reportRead = xmlRows S v.job v.reportRead := by
        intro job' htop'
        simp only [xmlRows, htop']
      refine ⟨fun h => absurd h hjob, fun _ hsource => ?_, fun _ => hcache⟩
      obtain ⟨heq, hne, hread⟩ := hrows hsource
      have htop' : (job.update
          (UpdateSite.optimizationDone rows cache d now).changes).topPasses = v.job.topPasses :=
        htop.symm
      rw [hxml _ htop', ← heq]
      exact ⟨rfl, hne, htype ▸ hread⟩
    | symbolsReport path d => exact absurd hc (not_completed_of_updating hst)
    | _ => cases hc

/-! ## The invariant -/

/-- What is known of a job's record, on the way to its verdict and after it. -/
structure Verdict (S : Setup) (s : JobState) : Prop where
  settings : onTrack s.pc = true → ∀ job, s.entry.memory = some job →
    s.vars.job.settings = job.settings
  prepared : Prepared Q P S s.vars s.pc
  record : ∀ job, s.entry.memory = some job → job.status = .completed →
    Recorded Q P S s.vars job

variable {Q P}

theorem Verdict.worker_step (hv : Verdict Q P S s) (hs : Lifecycle s) {a : WorkerAct}
    {r : Reading} (hok : ReadsKnown Q P s (.worker a r))
    (h : jobStep S s (.worker a r) = some s') : Verdict Q P S s' := by
  have hmem := jobStep_memory (fun hn => (hs.absent hn).2.1) (fun hn => (hs.absent hn).1) h
  have hset : ∀ job', s'.entry.memory = some job' → s.pc = .absent ∨
      ∃ job, s.entry.memory = some job ∧ job'.settings = job.settings :=
    fun _ => hs.settings_step h
  obtain ⟨pc, hc, hs'⟩ := workerStep_iff.mp h
  have hpc' : s'.pc = pc := by rw [hs']
  have hvars : s'.vars = (effect S s a r).vars := by rw [hs']
  refine ⟨fun htrack job' hjob' => ?_, ?_, fun job' hjob' hcomp => ?_⟩
  · rw [hpc'] at htrack
    rw [hvars]
    rcases hset job' hjob' with habsent | ⟨job, hjob, hsame⟩
    · obtain ⟨sub, rfl⟩ := control_absent hc habsent
      simp only [control, Option.ite_none_right_eq_some, Option.some.injEq] at hc
      simp [← hc.2, onTrack, judges] at htrack
    · rw [hsame]
      by_cases ha : a = .load
      · subst ha
        simp [effect, (loadJob_of_memory hjob r.saved).2]
      · rw [effect_settings ha]
        exact hv.settings ((onTrack_control hc htrack).resolve_right ha) job hjob
  · rw [hpc', hvars]
    exact prepared_control Q P hv.prepared hok hc
  · rw [hvars]
    rw [hjob'] at hmem
    generalize hm : some job' = m at hmem
    cases hmem with
    | same =>
      have hst := hs.status job' hm.symm
      rw [hcomp] at hst
      exact (hv.record job' hm.symm hcomp).of_reads Q P (effect_reads hc hst)
    | store sub r' =>
      cases hm
      cases hcomp
    | update site job hu hsite hjob =>
      cases hm
      have hst : job.status ∈ allowed (.updating site) := hsite ▸ hs.status job hjob
      have hprep : Prepared Q P S s.vars (.updating site) := hsite ▸ hv.prepared
      have hreads : (effect S s a r).vars = s.vars := by
        cases a <;> first | rfl | cases hu
      rw [hreads]
      by_cases htrack : onTrack (.updating site) = true
      · exact recorded_update Q P hprep (hv.settings (hsite ▸ htrack) job hjob) hst hcomp
      · -- the other updates do not complete a job
        rw [status_update] at hcomp
        split at hcomp
        next => cases hcomp
        next => cases site <;> simp_all [onTrack, judges, UpdateSite.status?, allowed,
          freshStatuses, liveStatuses]
    | cancel c r' job hl => cases hl

/-- Steps of others leave the worker's copy and the files it read alone, and complete no job. -/
theorem Verdict.other_step (hv : Verdict Q P S s) (hs : Lifecycle s) {l : JobLabel}
    (hl : ∀ a r, l ≠ .worker a r) (h : jobStep S s l = some s') : Verdict Q P S s' := by
  have hmem := jobStep_memory (fun hn => (hs.absent hn).2.1) (fun hn => (hs.absent hn).1) h
  have hset : ∀ job', s'.entry.memory = some job' → s.pc = .absent ∨
      ∃ job, s.entry.memory = some job ∧ job'.settings = job.settings :=
    fun _ => hs.settings_step h
  have hpc' : s'.pc = s.pc := pc_of_not_worker h hl
  have hvars : s'.vars = s.vars := by
    cases l with
    | worker a r => exact absurd rfl (hl a r)
    | cancel c a r =>
      obtain ⟨pc, -, rfl⟩ := cancelStep_iff.mp h
      cases a <;> rfl
    | status r => cases h; rfl
  refine ⟨fun htrack job' hjob' => ?_, ?_, fun job' hjob' hcomp => ?_⟩
  · rw [hpc'] at htrack
    rw [hvars]
    rcases hset job' hjob' with habsent | ⟨job, hjob, hsame⟩
    · simp [habsent, onTrack, judges] at htrack
    · rw [hsame]
      exact hv.settings htrack job hjob
  · rw [hpc', hvars]
    exact hv.prepared
  · rw [hvars]
    rw [hjob'] at hmem
    generalize hm : some job' = m at hmem
    cases hmem with
    | same => exact hv.record job' hm.symm hcomp
    | store sub r hstore => exact absurd hstore (hl _ _)
    | update site job hu =>
      cases l with
      | worker a r => exact absurd rfl (hl a r)
      | cancel c a r => cases hu
      | status r => cases hu
    | cancel c r job =>
      cases hm
      cases hcomp

theorem Verdict.step (hv : Verdict Q P S s) (hs : Lifecycle s) {l : JobLabel}
    (hok : ReadsKnown Q P s l) (h : jobStep S s l = some s') : Verdict Q P S s' := by
  cases l with
  | worker a r => exact hv.worker_step hs hok h
  | cancel c a r => exact hv.other_step hs (by simp) h
  | status r => exact hv.other_step hs (by simp) h

theorem verdict_init : Verdict Q P S .init where
  settings h := by cases h
  prepared := trivial
  record job h := by cases h

/-- In runs of one job in which the files read are as `Q` and `P` say, a completed job's record
holds what was read from them. -/
theorem verdict_of_reads (h : RunOf (jobStep S) (ReadsKnown Q P) .init s) : Verdict Q P S s :=
  h.invariant_of (fun _ ht => lifecycle_of_run ht.run)
    (fun _ _ _ hs _ hv hok hstep => hv.step hs hok hstep) verdict_init

/-- What is known in every run, whatever files are read. -/
theorem prepared_of_run (h : Run (jobStep S) .init s) :
    Prepared (fun _ _ => True) (fun _ => True) S s.vars s.pc := by
  refine (verdict_of_reads (h.mono fun s l _ => ?_)).prepared
  unfold ReadsKnown
  split <;> simp

end Backtest

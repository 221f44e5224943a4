import Mt5HttpApi.Backtest.Terminal

/-!
# Run lock and processes

What holds in every run of the jobs of one terminal, whatever their interleaving: `RUN_LOCK`
excludes (`holdsLock_iff`), a process is never anything else than what it was started as
(`procs_step`), a terminal that a worker started and that still runs is watched by that worker
(`watched_of_run`), and every process is of a run that its job has launched (`launched_of_run`).
-/

namespace Backtest

open Transition

variable {S : Setup} {w w' : World}

/-! ## Inversion of the world's steps -/

/-- What `sync` answers: the observations fit, and the directory is touched. -/
theorem sync_eq_some_iff {T T' : Terminal} {j : JobId} {s : JobState} {l : JobLabel} :
    sync S T j s l = some T' ↔ fits S T j s l = true ∧ touch S T j s l = T' := by
  simp [sync]

/-- A job's step: its observations fit, it moves the job and touches the directory. -/
theorem worldStep_part {j : JobId} {l : JobLabel} (h : worldStep S w (.part j l) = some w') :
    jobStep S (w.parts j) l = some (w'.parts j) ∧ (∀ k, k ≠ j → w'.parts k = w.parts k) ∧
      fits S w.shared j (w.parts j) l = true ∧
      w'.shared = touch S w.shared j (w.parts j) l := by
  obtain ⟨s', T', hl, hT, rfl⟩ := wholeStep_part_iff.mp h
  obtain ⟨hfits, rfl⟩ := sync_eq_some_iff.mp hT
  exact ⟨by simpa using hl, fun k hk => Function.update_of_ne hk _ _, hfits, rfl⟩

/-- A step of MT5 leaves the jobs alone. -/
theorem worldStep_env {e : EnvAct} (h : worldStep S w (.env e) = some w') :
    env S w.shared e = some w'.shared ∧ w'.parts = w.parts := by
  obtain ⟨T', hT, rfl⟩ := wholeStep_env_iff.mp h
  exact ⟨hT, rfl⟩

/-- Seen from one job, a step of the world is the job's own or leaves the job alone. -/
theorem worldStep_cases {m : WorldLabel} (h : worldStep S w m = some w') (j : JobId) :
    (∃ l, m = .part j l ∧ jobStep S (w.parts j) l = some (w'.parts j)) ∨
      (∀ l, m ≠ .part j l) ∧ w'.parts j = w.parts j := by
  cases m with
  | env e => exact Or.inr ⟨by simp, congrFun (worldStep_env h).2 j⟩
  | part k l =>
    obtain ⟨hl, hother, -, -⟩ := worldStep_part h
    rcases eq_or_ne j k with rfl | hne
    · exact Or.inl ⟨l, rfl, hl⟩
    · exact Or.inr ⟨by simp [hne.symm], hother j hne⟩

/-! ## The section `RUN_LOCK` guards -/

/-- The worker is between taking `RUN_LOCK` and giving it back. -/
def holdsLock : WorkerPc → Bool
  | .settingHolder _ | .locked | .staging | .lastCheck | .launching | .watching | .exitCheck _
  | .timeoutListing | .timeoutSignalling _ | .settleListing _ | .settleSignalling _ _
  | .settleWaiting _ | .cleaning _ | .clearingHolder _ | .releasing _ | .updating (.running _)
  | .updating (.timedOut _ _ _ _) | .updating (.crashed _ _ _) => true
  | _ => false

/-- An exception does not take or give back the lock by itself. -/
theorem holdsLock_onRaise {exc : Raised} {d : ℕ} {now : Timestamp} {pc pc' : WorkerPc}
    (h : onRaise exc d now pc = some pc') : holdsLock pc' = holdsLock pc := by
  unfold onRaise at h
  split at h <;> simp only [Option.some.injEq, reduceCtorEq] at h <;> subst h <;>
    cases exc.isException <;> rfl

/-- The lock is taken by `acquire` and given back by `release`, and by nothing else. -/
theorem holdsLock_control {s : JobState} {a : WorkerAct} {r : Reading} {pc : WorkerPc}
    (h : control S s a r = some pc) :
    (a = .acquire ∧ holdsLock s.pc = false ∧ holdsLock pc = true) ∨
      (a = .release ∧ holdsLock s.pc = true ∧ holdsLock pc = false) ∨
      (a ≠ .acquire ∧ a ≠ .release ∧ holdsLock pc = holdsLock s.pc) := by
  cases a with
  | acquire =>
    simp only [control] at h
    split at h <;> simp only [Option.some.injEq, reduceCtorEq] at h <;> subst h
    all_goals simp [*, holdsLock]
  | release =>
    obtain ⟨after, hpc, rfl⟩ := pc_of_release h
    cases after <;> simp [hpc, After.next, holdsLock]
  | raise exc => simp [holdsLock_onRaise h]
  | updateRaise exc =>
    obtain ⟨site, hsite, hraise⟩ := pc_of_updateRaise h
    simp [hsite, holdsLock_onRaise hraise]
  | update =>
    obtain ⟨site, hsite, rfl⟩ := pc_of_update h
    rw [hsite]
    cases site <;> simp [UpdateSite.next, holdsLock]
  | settle again =>
    obtain ⟨section_, hpc, rfl⟩ := pc_of_settle h
    cases again <;> cases section_ <;> simp [hpc, Section.settled, holdsLock]
  | _ =>
    simp only [control] at h
    repeat' split at h
    all_goals simp only [Option.some.injEq, reduceCtorEq] at h
    all_goals subst h
    all_goals simp [*, holdsLock]

/-- `RUN_LOCK` changes by a worker's `acquire` and `release` only. -/
theorem touch_runLock {T : Terminal} {j : JobId} {s : JobState} {l : JobLabel}
    (ha : ∀ r, l ≠ .worker .acquire r) (hr : ∀ r, l ≠ .worker .release r) :
    (touch S T j s l).runLock = T.runLock := by
  cases l with
  | worker a r =>
    cases a with
    | acquire => exact absurd rfl (ha r)
    | release => exact absurd rfl (hr r)
    | removeReport removed => cases removed <;> rfl
    | raise exc =>
      simp only [touch]
      split <;> rfl
    | _ => rfl
  | cancel c a r => cases a <;> rfl
  | status r => rfl

/-- MT5 leaves `RUN_LOCK` alone. -/
theorem env_runLock {T T' : Terminal} {e : EnvAct} (h : env S T e = some T') :
    T'.runLock = T.runLock := by
  cases e with
  | tick => cases h; rfl
  | _ =>
    obtain ⟨proc, -, rfl⟩ := Option.map_eq_some_iff.mp h
    rfl

/-- The run lock is a lock around `holdsLock`. -/
theorem runLock_locked :
    LockedBy (jobStep S) (sync S) (env S) (fun s => holdsLock s.pc) Terminal.runLock where
  enter {T T' j s l a} hl hT hout hin := by
    obtain ⟨hfits, rfl⟩ := sync_eq_some_iff.mp hT
    cases a with
    | worker a r =>
      obtain ⟨pc, hc, rfl⟩ := workerStep_iff.mp hl
      rcases holdsLock_control hc with ⟨rfl, -, -⟩ | ⟨-, hs, -⟩ | ⟨-, -, hs⟩
      · exact ⟨by simpa [fits] using hfits, rfl⟩
      · simp [hs] at hout
      · simp [hs, hout] at hin
    | cancel c a r =>
      obtain ⟨pc, -, rfl⟩ := cancelStep_iff.mp hl
      cases a <;> simp_all [cancelEffect]
    | status r => cases hl; simp_all
  leave {T T' j s l a} hl hT hin hout := by
    obtain ⟨hfits, rfl⟩ := sync_eq_some_iff.mp hT
    cases a with
    | worker a r =>
      obtain ⟨pc, hc, rfl⟩ := workerStep_iff.mp hl
      rcases holdsLock_control hc with ⟨-, hs, -⟩ | ⟨rfl, -, -⟩ | ⟨-, -, hs⟩
      · simp [hs] at hin
      · rfl
      · simp [hs, hin] at hout
    | cancel c a r =>
      obtain ⟨pc, -, rfl⟩ := cancelStep_iff.mp hl
      cases a <;> simp_all [cancelEffect]
    | status r => cases hl; simp_all
  keep {T T' j s l a} hl hT hsame := by
    obtain ⟨-, rfl⟩ := sync_eq_some_iff.mp hT
    cases a with
    | worker a r =>
      obtain ⟨pc, hc, rfl⟩ := workerStep_iff.mp hl
      rcases holdsLock_control hc with ⟨-, hs, hpc⟩ | ⟨-, hs, hpc⟩ | ⟨ha, hr, -⟩
      · simp [hs, hpc] at hsame
      · simp [hs, hpc] at hsame
      · exact touch_runLock (by simp [ha]) (by simp [hr])
    | cancel c a r => exact touch_runLock (by simp) (by simp)
    | status r => exact touch_runLock (by simp) (by simp)
  env := env_runLock

/-- In every run, the holder of `RUN_LOCK` is the job whose worker is in the section it guards. -/
theorem holdsLock_iff (h : Run (worldStep S) .init w) (j : JobId) :
    holdsLock (w.parts j).pc = true ↔ w.shared.runLock = some j :=
  runLock_locked.inside_iff (by simp [World.init, JobState.init, Terminal.init, holdsLock]) h j

/-- No two workers are in that section. -/
theorem holdsLock_unique (h : Run (worldStep S) .init w) {j k : JobId}
    (hj : holdsLock (w.parts j).pc = true) (hk : holdsLock (w.parts k).pc = true) : j = k :=
  LockedBy.exclusive (fun s : JobState => holdsLock s.pc) (holdsLock_iff h) hj hk

/-! ## From the launch to the verdict -/

/-- The worker is on its way from the launch to the verdict on the terminal's return code. -/
def judges : WorkerPc → Bool
  | .watching | .exitCheck _ | .cleaning (.judge _) | .clearingHolder (.judge _)
  | .releasing (.judge _) | .postCheck _ | .judging _ | .relaunchCheck _ | .graceCheck
  | .graceAlive | .graceReport | .runCheck | .runAlive | .awaitDone | .awaitCheck _
  | .fallbackCheck _ | .symbolsCheck _ | .reportCheck _ | .cacheReading _ | .xmlReading _ _
  | .reportReading _ | .updating (.exitCode _ _ _ _) | .updating (.symbolsReport _ _)
  | .updating (.notGenerated _ _) | .updating (.optimizationDone _ _ _ _)
  | .updating (.emptyReport _ _ _ _) | .updating (.done _ _ _) => true
  | _ => false

theorem not_judges_onRaise {exc : Raised} {d : ℕ} {now : Timestamp} {pc pc' : WorkerPc}
    (h : onRaise exc d now pc = some pc') : judges pc' = false := by
  rcases onRaise_handler h with rfl | rfl | rfl | rfl <;> rfl

/-- The worker comes onto that way by its launch only. -/
theorem judges_control {s : JobState} {a : WorkerAct} {r : Reading} {pc : WorkerPc}
    (h : control S s a r = some pc) (hpc : judges pc = true) :
    judges s.pc = true ∨ a = .launch := by
  revert hpc
  cases a with
  | launch => exact fun _ => Or.inr rfl
  | raise exc => simp [not_judges_onRaise h]
  | updateRaise exc =>
    obtain ⟨site, -, hraise⟩ := pc_of_updateRaise h
    simp [not_judges_onRaise hraise]
  | update =>
    obtain ⟨site, hsite, rfl⟩ := pc_of_update h
    rw [hsite]
    cases site <;> simp [UpdateSite.next, judges]
  | release =>
    obtain ⟨after, hpc, rfl⟩ := pc_of_release h
    cases after <;> simp [hpc, After.next, judges]
  | cleanUp =>
    obtain ⟨after, hpc, rfl⟩ := pc_of_cleanUp h
    cases after <;> simp [hpc, judges]
  | clearHolder =>
    obtain ⟨after, hpc, rfl⟩ := pc_of_clearHolder h
    cases after <;> simp [hpc, judges]
  | settle again =>
    obtain ⟨section_, -, rfl⟩ := pc_of_settle h
    cases again <;> cases section_ <;> simp [Section.settled, judges]
  | _ =>
    simp only [control] at h
    repeat' split at h
    all_goals simp only [Option.some.injEq, reduceCtorEq] at h
    all_goals subst h
    all_goals simp [*, judges]

/-- A launch is not undone. -/
theorem launched_mono {s s' : JobState} {l : JobLabel} (h : jobStep S s l = some s')
    (hs : s.launched = true) : s'.launched = true := by
  cases l with
  | worker a r =>
    obtain ⟨pc, -, rfl⟩ := workerStep_iff.mp h
    unfold effect
    split <;> first | exact hs | rfl
  | cancel c a r =>
    obtain ⟨pc, -, rfl⟩ := cancelStep_iff.mp h
    cases a <;> exact hs
  | status r => cases h; exact hs

/-- The worker's program counter after a step, where it is not the worker that steps. -/
theorem pc_of_not_worker {s s' : JobState} {l : JobLabel} (h : jobStep S s l = some s')
    (hl : ∀ a r, l ≠ .worker a r) : s'.pc = s.pc := by
  cases l with
  | worker a r => exact absurd rfl (hl a r)
  | cancel c a r =>
    obtain ⟨pc, -, rfl⟩ := cancelStep_iff.mp h
    cases a <;> rfl
  | status r => cases h; rfl

/-- A worker on its way to the verdict has launched the terminal. -/
theorem launched_of_judges {s : JobState} (h : Run (jobStep S) .init s)
    (hpc : judges s.pc = true) : s.launched = true := by
  refine h.invariant (P := fun s => judges s.pc = true → s.launched = true) ?_
    (by simp [JobState.init, judges]) hpc
  intro s l s' hs _ hstep hpc'
  cases l with
  | worker a r =>
    obtain ⟨pc, hc, hs'⟩ := workerStep_iff.mp hstep
    rw [hs'] at hpc'
    rcases judges_control hc hpc' with hold | rfl
    · exact launched_mono hstep (hs hold)
    · rw [hs']
      rfl
  | cancel c a r =>
    exact launched_mono hstep (hs (pc_of_not_worker hstep (by simp) ▸ hpc'))
  | status r =>
    exact launched_mono hstep (hs (pc_of_not_worker hstep (by simp) ▸ hpc'))

/-! ## Processes -/

/-- `q` is the process `p` at a later moment. -/
structure TesterProcess.Later (p q : TesterProcess) : Prop where
  image : q.image = p.image
  origin : q.origin = p.origin
  direct : q.direct = p.direct
  running : q.running = true → p.running = true

theorem TesterProcess.Later.refl (p : TesterProcess) : p.Later p := ⟨rfl, rfl, rfl, id⟩

/-- A process with an exit code is a later one of the same. -/
theorem TesterProcess.later_exit (p : TesterProcess) (code : ℤ) :
    p.Later { p with exitCode := some code } := ⟨rfl, rfl, rfl, by simp [TesterProcess.running]⟩

/-- Where a process of the directory comes from after the labelled step. -/
inductive ProcSource (w : World) (m : WorldLabel) (p : ProcId) (proc' : TesterProcess) : Prop
  /-- It was there before. -/
  | old (proc : TesterProcess) : w.shared.procs[p]? = some proc → proc.Later proc' →
      ProcSource w m p proc'
  /-- A worker launched it. -/
  | launched (r : Reading) : w.shared.procs[p]? = none →
      m = .part proc'.origin (.worker .launch r) → proc'.direct = true → ProcSource w m p proc'
  /-- A running process started it. -/
  | spawned (parent : TesterProcess) : w.shared.procs[p]? = none → parent ∈ w.shared.procs →
      proc'.direct = false → proc'.origin = parent.origin → ProcSource w m p proc'

/-- `subprocess.run` leaves no process of its own running. -/
theorem not_running_endDirect {T : Terminal} {j : JobId} {p : ProcId} {proc : TesterProcess}
    (h : (T.endDirect j).procs[p]? = some proc) (hd : proc.direct = true) (hj : proc.origin = j) :
    proc.running = false := by
  simp only [Terminal.endDirect, List.getElem?_map, Option.map_eq_some_iff] at h
  obtain ⟨old, -, rfl⟩ := h
  split at hd
  next hown =>
    rw [if_pos hown]
    cases old.exitCode <;> rfl
  next hown =>
    rw [if_neg hown] at hj
    simp [hd, hj] at hown

theorem later_endDirect {T : Terminal} {j : JobId} {p : ProcId} {proc' : TesterProcess}
    (h : (T.endDirect j).procs[p]? = some proc') :
    ∃ proc, T.procs[p]? = some proc ∧ proc.Later proc' := by
  simp only [Terminal.endDirect, List.getElem?_map, Option.map_eq_some_iff] at h
  obtain ⟨proc, hproc, rfl⟩ := h
  refine ⟨proc, hproc, ?_⟩
  split
  · cases hcode : proc.exitCode with
    | none => exact ⟨rfl, rfl, rfl, by simp [TesterProcess.running]⟩
    | some code => exact ⟨rfl, rfl, rfl, by simp [TesterProcess.running]⟩
  · exact .refl proc

/-- A process after a job's step. -/
theorem touch_procs {j : JobId} {s : JobState} {l : JobLabel} {p : ProcId}
    {proc' : TesterProcess} (h : (touch S w.shared j s l).procs[p]? = some proc') :
    ProcSource w (.part j l) p proc' := by
  have hsame : w.shared.procs[p]? = some proc' → ProcSource w (.part j l) p proc' :=
    fun hp => .old proc' hp (.refl proc')
  cases l with
  | worker a r =>
    cases a with
    | launch =>
      simp only [touch, List.getElem?_append] at h
      split at h
      next => exact hsame h
      next hlen =>
        obtain rfl := List.mem_singleton.mp (List.mem_of_getElem? h)
        exact .launched r (List.getElem?_eq_none (not_lt.mp hlen)) rfl rfl
    | timeout =>
      obtain ⟨proc, hproc, hlater⟩ := later_endDirect h
      exact .old proc hproc hlater
    | raise exc =>
      simp only [touch] at h
      split at h
      · obtain ⟨proc, hproc, hlater⟩ := later_endDirect h
        exact .old proc hproc hlater
      · exact hsame h
    | removeReport removed => cases removed <;> exact hsame h
    | _ => exact hsame h
  | cancel c a r => cases a <;> exact hsame h
  | status r => exact hsame h

/-- A process that runs is in the table. -/
theorem runningAt_mem {T : Terminal} {images : List Image} {p : ProcId} {proc : TesterProcess}
    (h : T.runningAt images p = some proc) : T.procs[p]? = some proc ∧ proc ∈ T.procs := by
  have hp := (Option.filter_eq_some_iff.mp h).1
  exact ⟨hp, List.mem_of_getElem? hp⟩

/-- A listed process is in the table and runs. -/
theorem mem_running {T : Terminal} {p : ProcId} (h : p ∈ T.running) :
    ∃ proc, T.procs[p]? = some proc ∧ proc.running = true := by
  obtain ⟨-, hp⟩ := List.mem_filter.mp h
  obtain ⟨proc, hproc⟩ := Option.isSome_iff_exists.mp hp
  obtain ⟨hmem, hrun⟩ := Option.filter_eq_some_iff.mp hproc
  exact ⟨proc, hmem, (of_decide_eq_true hrun).1⟩

/-- A process after a start of another one. -/
theorem spawn_procs {m : WorldLabel} {parent : TesterProcess} {image : Image}
    (hparent : parent ∈ w.shared.procs) {p : ProcId} {proc' : TesterProcess}
    (h : (w.shared.spawn parent image).procs[p]? = some proc') : ProcSource w m p proc' := by
  simp only [Terminal.spawn, List.getElem?_append] at h
  split at h
  next => exact .old proc' h (.refl proc')
  next hlen =>
    obtain rfl := List.mem_singleton.mp (List.mem_of_getElem? h)
    exact .spawned parent (List.getElem?_eq_none (not_lt.mp hlen)) hparent rfl rfl

/-- A process after a step of MT5. -/
theorem env_procs {e : EnvAct} {T' : Terminal} (he : env S w.shared e = some T') {p : ProcId}
    {proc' : TesterProcess} (h : T'.procs[p]? = some proc') : ProcSource w (.env e) p proc' := by
  have hsame : w.shared.procs[p]? = some proc' → ProcSource w (.env e) p proc' :=
    fun hp => .old proc' hp (.refl proc')
  cases e with
  | tick => cases he; exact hsame h
  | exit q code =>
    obtain ⟨proc, hq, rfl⟩ := Option.map_eq_some_iff.mp he
    simp only [List.getElem?_set] at h
    split at h
    next hpq =>
      subst hpq
      split at h
      · cases h
        exact .old proc (runningAt_mem hq).1 (proc.later_exit code)
      · cases h
    next => exact hsame h
  | writeReport q content => obtain ⟨proc, -, rfl⟩ := Option.map_eq_some_iff.mp he; exact hsame h
  | writeCache q name => obtain ⟨proc, -, rfl⟩ := Option.map_eq_some_iff.mp he; exact hsame h
  | _ =>
    obtain ⟨proc, hq, rfl⟩ := Option.map_eq_some_iff.mp he
    exact spawn_procs (runningAt_mem hq).2 h

/-- Where each process comes from in one step. -/
theorem procs_step {m : WorldLabel} (h : worldStep S w m = some w') {p : ProcId}
    {proc' : TesterProcess} (hp : w'.shared.procs[p]? = some proc') : ProcSource w m p proc' := by
  cases m with
  | part j l =>
    obtain ⟨-, -, -, hT⟩ := worldStep_part h
    exact touch_procs (hT ▸ hp)
  | env e => exact env_procs (worldStep_env h).1 hp

/-- The worker leaves `subprocess.run` when the terminal exits, on a timeout or on an exception. -/
theorem control_watching {s : JobState} {a : WorkerAct} {r : Reading} {pc : WorkerPc}
    (h : control S s a r = some pc) (hpc : s.pc = .watching) :
    (∃ code, a = .exited code) ∨ a = .timeout ∨ ∃ exc, a = .raise exc := by
  cases a with
  | exited code => exact Or.inl ⟨code, rfl⟩
  | timeout => exact Or.inr (Or.inl rfl)
  | raise exc => exact Or.inr (Or.inr ⟨exc, rfl⟩)
  | _ => simp [control, hpc] at h

/-- A terminal that a worker started and that still runs is watched by that worker. -/
def Watched (w : World) : Prop :=
  ∀ (p : ProcId) proc, w.shared.procs[p]? = some proc → proc.direct = true →
    proc.running = true → (w.parts proc.origin).pc = .watching

/-- A worker that leaves `subprocess.run` leaves no process of its own running. -/
theorem not_running_of_leaves {j : JobId} {a : WorkerAct} {r : Reading}
    (h : worldStep S w (.part j (.worker a r)) = some w')
    (hpc : (w.parts j).pc = .watching) {p : ProcId} {proc proc' : TesterProcess}
    (hold : w.shared.procs[p]? = some proc) (hp : w'.shared.procs[p]? = some proc')
    (hlater : proc.Later proc') (hd : proc'.direct = true) (hj : proc'.origin = j) :
    proc'.running = false := by
  obtain ⟨hl, -, hfits, hT⟩ := worldStep_part h
  obtain ⟨pc, hc, -⟩ := workerStep_iff.mp hl
  rw [hT] at hp
  rcases control_watching hc hpc with ⟨code, rfl⟩ | rfl | ⟨exc, rfl⟩
  · have hexit := List.all_eq_true.mp hfits proc (List.mem_of_getElem? hold)
    refine Bool.eq_false_iff.mpr fun hr => ?_
    have hrun : proc.exitCode = none := by
      simpa [TesterProcess.running] using hlater.running hr
    simp [← hlater.origin, hj, ← hlater.direct, hd, hrun] at hexit
  · exact not_running_endDirect hp hd hj
  · have htouch : touch S w.shared j (w.parts j) (.worker (.raise exc) r) =
        w.shared.endDirect j := if_pos hpc
    exact not_running_endDirect (htouch ▸ hp) hd hj

theorem Watched.step (hw : Watched w) {m : WorldLabel} (h : worldStep S w m = some w') :
    Watched w' := by
  intro p proc' hp hd hr
  cases procs_step h hp with
  | spawned parent _ _ hd' => simp [hd'] at hd
  | launched r _ hm =>
    subst hm
    obtain ⟨pc, hc, hs'⟩ := workerStep_iff.mp (worldStep_part h).1
    simp only [control, Option.ite_none_right_eq_some, Option.some.injEq] at hc
    rw [hs', ← hc.2]
  | old proc hold hlater =>
    have hpc := hw p proc hold (hlater.direct ▸ hd) (hlater.running hr)
    rw [← hlater.origin] at hpc
    rcases worldStep_cases h proc'.origin with ⟨l, rfl, hl⟩ | ⟨-, hsame⟩
    · cases l with
      | worker a r =>
        have := not_running_of_leaves h hpc hold hp hlater hd rfl
        simp [this] at hr
      | cancel c a r => exact (pc_of_not_worker hl (by simp)).trans hpc
      | status r => exact (pc_of_not_worker hl (by simp)).trans hpc
    · rw [hsame, hpc]

theorem watched_of_run (h : Run (worldStep S) .init w) : Watched w :=
  h.invariant (fun _ _ _ hw _ hstep => hw.step hstep) fun p proc hp => by
    simp [World.init, Terminal.init] at hp

/-- No process leaves the table. -/
theorem procs_length_mono {m : WorldLabel} (h : worldStep S w m = some w') :
    w.shared.procs.length ≤ w'.shared.procs.length := by
  cases m with
  | part j l =>
    rw [(worldStep_part h).2.2.2]
    cases l with
    | worker a r =>
      cases a with
      | removeReport removed => cases removed <;> exact le_rfl
      | launch => simp [touch]
      | timeout => simp [touch, Terminal.endDirect]
      | raise exc =>
        simp only [touch]
        split
        · simp [Terminal.endDirect]
        · exact le_rfl
      | _ => exact le_rfl
    | cancel c a r => cases a <;> exact le_rfl
    | status r => exact le_rfl
  | env e =>
    have he := (worldStep_env h).1
    cases e with
    | tick =>
      rw [← Option.some.inj he]
    | _ =>
      obtain ⟨proc, -, heq⟩ := Option.map_eq_some_iff.mp he
      simp [← heq, Terminal.spawn]

/-- A process of the table is there at the next moment. -/
theorem procs_later {m : WorldLabel} (h : worldStep S w m = some w') {p : ProcId}
    {proc : TesterProcess} (hp : w.shared.procs[p]? = some proc) :
    ∃ proc', w'.shared.procs[p]? = some proc' ∧ proc.Later proc' := by
  have hlt : p < w'.shared.procs.length :=
    lt_of_lt_of_le (List.getElem?_eq_some_iff.mp hp).1 (procs_length_mono h)
  have hp' := List.getElem?_eq_getElem hlt
  refine ⟨_, hp', ?_⟩
  cases procs_step h hp' with
  | old proc₀ hold hlater =>
    obtain rfl := Option.some.inj (hold.symm.trans hp)
    exact hlater
  | launched r hnew => simp [hp] at hnew
  | spawned parent hnew => simp [hp] at hnew

/-- Every process is of a run that its job's worker has launched. -/
def OriginLaunched (w : World) : Prop :=
  ∀ proc ∈ w.shared.procs, (w.parts proc.origin).launched = true

/-- A launch is not undone by any step of the world. -/
theorem launched_mono_world {m : WorldLabel} (h : worldStep S w m = some w') {j : JobId}
    (hj : (w.parts j).launched = true) : (w'.parts j).launched = true := by
  rcases worldStep_cases h j with ⟨l, -, hl⟩ | ⟨-, hsame⟩
  · exact launched_mono hl hj
  · rwa [hsame]

theorem OriginLaunched.step (hw : OriginLaunched w) {m : WorldLabel}
    (h : worldStep S w m = some w') : OriginLaunched w' := by
  intro proc' hmem
  obtain ⟨p, hp⟩ := List.mem_iff_getElem?.mp hmem
  cases procs_step h hp with
  | old proc hold hlater =>
    rw [hlater.origin]
    exact launched_mono_world h (hw proc (List.mem_of_getElem? hold))
  | launched r _ hm =>
    subst hm
    obtain ⟨pc, -, hs'⟩ := workerStep_iff.mp (worldStep_part h).1
    rw [hs']
    rfl
  | spawned parent _ hparent _ horigin =>
    rw [horigin]
    exact launched_mono_world h (hw parent hparent)

theorem launched_of_run (h : Run (worldStep S) .init w) : OriginLaunched w :=
  h.invariant (fun _ _ _ hw _ hstep => hw.step hstep) fun proc hp => by
    simp [World.init, Terminal.init] at hp

end Backtest

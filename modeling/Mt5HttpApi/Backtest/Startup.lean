import Mt5HttpApi.Backtest.RunLock
import Mt5HttpApi.Backtest.Sweep

/-!
# The startup cleanup against this process's own jobs

`main` starts `_run_backtest_startup_cleanup` in a background thread and then serves. The cleanup
sweeps the orphaned jobs, in backtest mode stops the tester processes of the terminal directory, and
prunes old jobs. Meanwhile the server accepts submissions, whose workers run as in
`Mt5HttpApi.Backtest.Terminal`.

The cleanup takes every state file that says queued or running, and every tester process, for a
leftover of the previous process. A job submitted before it has looked is taken for one as well
(`not_sparesOwnWork`). `sparesOwnWork` says that this is the only way.
-/

namespace Backtest

open Transition

/-- What the previous processes left: the job ids drawn so far, the state files and the terminal
directory. -/
structure Leftovers where
  old : JobId → Bool
  file : JobId → Option Job
  terminal : Terminal
  file_old : ∀ j, (file j).isSome = true → old j = true
  procs_old : ∀ proc ∈ terminal.procs, old proc.origin = true

/-- The program counter of `_run_backtest_startup_cleanup`: the access it makes next. -/
inductive CleanupPc
  -- `sweep_orphans`
  | listing (names : List JobId)
  | reading (left : List JobId)
  | writing (name : JobId) (job : Job) (left : List JobId)
  -- `kill_terminal_processes`
  | killing
  | signalling (victims : List ProcId)
  -- `prune_old_jobs`
  | pruning
  | removing (name : JobId)
  | done
  deriving DecidableEq

/-- The jobs of the process, its terminal, its cleanup, and what the cleanup did: the state files it
wrote `failed` into and the processes it signalled. -/
structure Startup where
  world : World
  cleanup : CleanupPc
  failures : List JobId
  killed : List ProcId

namespace Startup

/-- The process when the cleanup starts. -/
def start (L : Leftovers) : Startup where
  world :=
    { parts := fun j => { JobState.init with entry := { Entry.empty with disk := L.file j } }
      shared := { L.terminal with runLock := none, lockHolder := none, signals := [] } }
  cleanup := .listing []
  failures := []
  killed := []

/-- The job was submitted to this process. -/
def submitted (s : Startup) (j : JobId) : Prop := (s.world.parts j).pc ≠ .absent

instance (s : Startup) (j : JobId) : Decidable (s.submitted j) :=
  inferInstanceAs (Decidable (_ ≠ _))

/-- The content of the state file `name`. -/
def file (s : Startup) (name : JobId) : Option Job := (s.world.parts name).entry.disk

/-- The state file `name` is replaced or removed. -/
def setFile (s : Startup) (name : JobId) (content : Option Job) : Startup :=
  let entry := { (s.world.parts name).entry with disk := content }
  { s with world := { s.world with
      parts := Function.update s.world.parts name { s.world.parts name with entry } } }

end Startup

/-- A step of the cleanup. `ok` says whether the directory or file could be read or written. Which
files are recent enough for the sweep, and old enough for the retention, is up to the label. -/
inductive CleanupAct
  | see (name : JobId)
  | listed (ok : Bool)
  | read (ok : Bool)
  | write (now : Timestamp) (ok : Bool)
  | swept
  | list (victims : List ProcId)
  | signal
  | retire (name : JobId)
  | remove (ok : Bool)
  | finish
  /-- An exception, which the cleanup logs. -/
  | die
  deriving DecidableEq, Repr

/-- A step of the process: one of its jobs', its terminal's, or the cleanup's. -/
inductive StartupLabel
  | world (m : WorldLabel)
  | cleanup (a : CleanupAct)

/-- One step of `_run_backtest_startup_cleanup`, in backtest mode or not. -/
def cleanupStep (S : Setup) (backtest : Bool) (s : Startup) (a : CleanupAct) : Option Startup :=
  match a with
  | .see name =>
    match s.cleanup with
    | .listing names =>
      if (s.file name).isSome ∧ name ∉ names then
        some { s with cleanup := .listing (name :: names) }
      else none
    | _ => none
  | .listed ok =>
    match s.cleanup with
    | .listing names =>
      some { s with cleanup := .reading (if ok then names.insertionSort (· ≤ ·) else []) }
    | _ => none
  | .read ok =>
    match s.cleanup with
    | .reading (name :: left) =>
      match s.file name with
      | some job =>
        if ok && (job.status ∈ activeStatuses && ownsJob S.me job) then
          some { s with cleanup := .writing name job left }
        else some { s with cleanup := .reading left }
      | none => some { s with cleanup := .reading left }
    | _ => none
  | .write now ok =>
    match s.cleanup with
    | .writing name job left =>
      if ok then
        some { s.setFile name (job.update (orphanChanges now)) with
          cleanup := .reading left, failures := name :: s.failures }
      else some { s with cleanup := .reading left }
    | _ => none
  | .swept =>
    match s.cleanup with
    | .reading [] => some { s with cleanup := if backtest then .killing else .pruning }
    | _ => none
  | .list victims =>
    match s.cleanup with
    | .killing =>
      if victims = s.world.shared.running then some { s with cleanup := .signalling victims }
      else none
    | _ => none
  | .signal =>
    match s.cleanup with
    | .signalling victims =>
      some { s with
        cleanup := .pruning
        killed := s.killed ++ victims.filter (· ∈ s.world.shared.running) }
    | _ => none
  | .retire name =>
    match s.cleanup with
    | .pruning =>
      if (s.file name).any fun job => decide (job.status ∉ activeStatuses) then
        some { s with cleanup := .removing name }
      else none
    | _ => none
  | .remove ok =>
    match s.cleanup with
    | .removing name =>
      some { (if ok then s.setFile name none else s) with cleanup := .pruning }
    | _ => none
  | .finish =>
    match s.cleanup with
    | .pruning => some { s with cleanup := .done }
    | _ => none
  | .die => if s.cleanup = .done then none else some { s with cleanup := .done }

/-- A submission draws an id that no earlier process has drawn. -/
def drawsFresh (L : Leftovers) : WorldLabel → Bool
  | .part j (.worker (.store _) _) => !L.old j
  | _ => true

/-- The step function of the process. -/
def startupStep (L : Leftovers) (S : Setup) (backtest : Bool) (s : Startup) :
    StartupLabel → Option Startup
  | .world m =>
    if drawsFresh L m then (worldStep S s.world m).map fun w => { s with world := w } else none
  | .cleanup a => cleanupStep S backtest s a

/-- The sweep reads no state file of a job submitted to this process that says queued or running,
and no tester process of such a job runs when the cleanup lists the processes. -/
def FindsLeftoversOnly (s : Startup) : StartupLabel → Prop
  | .cleanup (.read true) => ∀ name left, s.cleanup = .reading (name :: left) → s.submitted name →
      ∀ job, s.file name = some job → job.status ∉ activeStatuses
  | .cleanup (.list victims) => ∀ p ∈ victims, ∀ proc, s.world.shared.procs[p]? = some proc →
      ¬ s.submitted proc.origin
  | _ => True

/-- Along runs whose steps meet `ok`: the cleanup has written `failed` into no state file of a job
submitted to this process, and has signalled no tester process of one. -/
def SparesOwnWork (S : Setup) (backtest : Bool) (ok : Startup → StartupLabel → Prop) : Prop :=
  ∀ L s, RunOf (startupStep L S backtest) ok (.start L) s →
    (∀ j ∈ s.failures, ¬ s.submitted j) ∧
      ∀ p ∈ s.killed, ∀ proc, s.world.shared.procs[p]? = some proc → ¬ s.submitted proc.origin

/-! ## A job before its submission -/

section Jobs

variable {S : Setup} {s s' : JobState}

/-- No worker step leads back to before the submission. -/
theorem control_ne_absent {a : WorkerAct} {r : Reading} {pc : WorkerPc}
    (h : control S s a r = some pc) : pc ≠ .absent := by
  cases a with
  | raise exc => rcases onRaise_handler h with rfl | rfl | rfl | rfl <;> simp
  | updateRaise exc =>
    obtain ⟨site, -, hraise⟩ := pc_of_updateRaise h
    rcases onRaise_handler hraise with rfl | rfl | rfl | rfl <;> simp
  | update =>
    obtain ⟨site, -, rfl⟩ := pc_of_update h
    cases site <;> simp [UpdateSite.next]
  | release =>
    obtain ⟨after, -, rfl⟩ := pc_of_release h
    cases after <;> simp [After.next]
  | settle again =>
    obtain ⟨section_, -, rfl⟩ := pc_of_settle h
    cases again <;> cases section_ <;> simp [Section.settled]
  | _ =>
    simp only [control] at h
    repeat' split at h
    all_goals simp only [Option.some.injEq, reduceCtorEq] at h
    all_goals subst h
    all_goals simp

/-- A submission is not undone. -/
theorem submitted_mono {l : JobLabel} (h : jobStep S s l = some s') (hs : s.pc ≠ .absent) :
    s'.pc ≠ .absent := by
  cases l with
  | worker a r =>
    obtain ⟨pc, hc, rfl⟩ := workerStep_iff.mp h
    exact control_ne_absent hc
  | cancel c a r => rwa [pc_of_not_worker h (by simp)]
  | status r => rwa [pc_of_not_worker h (by simp)]

/-- Without a submission, cancel calls and polls of an unknown job change nothing they read. -/
theorem absent_step {l : JobLabel} (h : jobStep S s l = some s') (hs : s.pc = .absent)
    (hl : ∀ sub r, l ≠ .worker (.store sub) r) :
    s'.pc = .absent ∧ (s.entry.memory = none → s.entry.disk = none →
      s'.entry.memory = none ∧ s'.entry.disk = none) := by
  cases l with
  | worker a r =>
    obtain ⟨pc, hc, -⟩ := workerStep_iff.mp h
    obtain ⟨sub, rfl⟩ := control_absent hc hs
    exact absurd rfl (hl sub r)
  | cancel c a r =>
    refine ⟨by rwa [pc_of_not_worker h (by simp)], fun hmem hdisk => ?_⟩
    obtain ⟨pc, -, rfl⟩ := cancelStep_iff.mp h
    refine ⟨?_, (cancelEffect_disk hmem).trans hdisk⟩
    cases a <;> simp [cancelEffect, loadJob, cancelIfActive, hmem, hdisk]
  | status r =>
    refine ⟨by rwa [pc_of_not_worker h (by simp)], fun hmem hdisk => ?_⟩
    cases h
    simp [loadJob, hmem, hdisk]

end Jobs

/-! ## Runs -/

section Runs

variable {L : Leftovers} {S : Setup} {backtest : Bool} {s t : Startup}

/-- Whose state files and processes there are: a job with a drawn id is not submitted again, one
with a fresh id has no file before it is submitted, and every process is of an old run or of a
submitted job. -/
structure Attributed (L : Leftovers) (s : Startup) : Prop where
  old : ∀ j, L.old j = true → ¬ s.submitted j
  fresh : ∀ j, L.old j = false → ¬ s.submitted j →
    (s.world.parts j).entry.memory = none ∧ s.file j = none
  procs : ∀ proc ∈ s.world.shared.procs, L.old proc.origin = true ∨ s.submitted proc.origin

theorem attributed_start : Attributed L (.start L) where
  old _ _ h := h rfl
  fresh j hj _ := by
    refine ⟨rfl, ?_⟩
    cases hfile : L.file j with
    | none => exact hfile
    | some job => exact absurd (L.file_old j (by rw [hfile]; rfl)) (by simp [hj])
  procs proc hproc := Or.inl (L.procs_old proc hproc)

/-- The attribution is about the world only. -/
theorem Attributed.of_world (h : Attributed L s) (hw : t.world = s.world) : Attributed L t := by
  obtain ⟨w, cleanup, failures, killed⟩ := t
  obtain rfl : w = s.world := hw
  exact ⟨h.old, h.fresh, h.procs⟩

/-- A step of a job or of MT5 keeps the attribution. -/
theorem Attributed.world_step (h : Attributed L s) {m : WorldLabel} {w : World}
    (hfresh : drawsFresh L m = true) (hstep : worldStep S s.world m = some w) :
    Attributed L { s with world := w } := by
  have hmono : ∀ j, s.submitted j → (w.parts j).pc ≠ .absent := by
    intro j hj
    rcases worldStep_cases hstep j with ⟨l, -, hl⟩ | ⟨-, hsame⟩
    · exact submitted_mono hl hj
    · rwa [hsame]
  refine ⟨fun j hj => ?_, fun j hj hsub => ?_, fun proc hproc => ?_⟩
  · rcases worldStep_cases hstep j with ⟨l, rfl, hl⟩ | ⟨-, hsame⟩
    · have hpc := not_not.mp (h.old j hj)
      refine not_not.mpr (absent_step hl hpc fun sub r hstore => ?_).1
      subst hstore
      simp [drawsFresh, hj] at hfresh
    · simpa only [Startup.submitted, hsame] using h.old j hj
  · have hsub' : ¬ s.submitted j := fun hj' => hsub (hmono j hj')
    obtain ⟨hmem, hfile⟩ := h.fresh j hj hsub'
    rcases worldStep_cases hstep j with ⟨l, rfl, hl⟩ | ⟨-, hsame⟩
    · refine (absent_step hl (not_not.mp hsub') fun sub r hstore => ?_).2 hmem hfile
      subst hstore
      obtain ⟨pc, hc, hs'⟩ := workerStep_iff.mp hl
      exact hsub (by
        show (w.parts j).pc ≠ .absent
        rw [hs']
        exact control_ne_absent hc)
    · simpa only [Startup.file, hsame] using And.intro hmem hfile
  · obtain ⟨p, hp⟩ := List.mem_iff_getElem?.mp hproc
    cases procs_step hstep hp with
    | old before hbefore hlater =>
      rw [hlater.origin]
      exact (h.procs before (List.mem_of_getElem? hbefore)).imp_right (hmono _)
    | launched r _ hm =>
      subst hm
      obtain ⟨pc, hc, hs'⟩ := workerStep_iff.mp (worldStep_part hstep).1
      right
      show (w.parts proc.origin).pc ≠ .absent
      rw [hs']
      exact control_ne_absent hc
    | spawned parent _ hparent _ horigin =>
      rw [horigin]
      exact (h.procs parent hparent).imp_right (hmono _)

/-- Replacing or removing a file of an old job keeps the attribution, as does removing any file. -/
theorem Attributed.setFile (h : Attributed L s) {name : JobId} {content : Option Job}
    (hname : L.old name = true ∨ content = none) : Attributed L (s.setFile name content) := by
  have hpc : ∀ j, (s.setFile name content).submitted j ↔ s.submitted j := by
    intro j
    rcases eq_or_ne j name with rfl | hne
    · simp [Startup.setFile, Startup.submitted]
    · simp [Startup.setFile, Startup.submitted, hne]
  refine ⟨fun j hj => ?_, fun j hj hsub => ?_, fun proc hproc => ?_⟩
  · rw [hpc]
    exact h.old j hj
  · rw [hpc] at hsub
    obtain ⟨hmem, hfile⟩ := h.fresh j hj hsub
    rcases eq_or_ne j name with rfl | hne
    · have hcontent := hname.resolve_left (by simp [hj])
      simpa [Startup.setFile, Startup.file, hcontent] using hmem
    · simpa [Startup.setFile, Startup.file, hne] using And.intro hmem hfile
  · rw [hpc]
    exact h.procs proc hproc

/-- The process `p` is of a run of a previous process. -/
def LeftRunning (L : Leftovers) (s : Startup) (p : ProcId) : Prop :=
  ∃ proc, s.world.shared.procs[p]? = some proc ∧ L.old proc.origin = true

/-- What the cleanup is about to rewrite or signal, and what it did, is of the previous
processes. -/
structure CleansLeftovers (L : Leftovers) (s : Startup) : Prop where
  attributed : Attributed L s
  writing : ∀ name job left, s.cleanup = .writing name job left → L.old name = true
  signalling : ∀ victims, s.cleanup = .signalling victims → ∀ p ∈ victims, LeftRunning L s p
  failures : ∀ j ∈ s.failures, L.old j = true
  killed : ∀ p ∈ s.killed, LeftRunning L s p

theorem cleansLeftovers_start : CleansLeftovers L (.start L) where
  attributed := attributed_start
  writing _ _ _ h := nomatch h
  signalling _ h := nomatch h
  failures _ h := nomatch h
  killed _ h := nomatch h

theorem CleansLeftovers.world_step (h : CleansLeftovers L s) {m : WorldLabel} {w : World}
    (hfresh : drawsFresh L m = true) (hstep : worldStep S s.world m = some w) :
    CleansLeftovers L { s with world := w } := by
  have hlater : ∀ p, LeftRunning L s p → LeftRunning L { s with world := w } p := by
    rintro p ⟨proc, hp, hold⟩
    obtain ⟨proc', hp', hlater⟩ := procs_later hstep hp
    exact ⟨proc', hp', by rwa [hlater.origin]⟩
  exact ⟨h.attributed.world_step hfresh hstep, h.writing,
    fun victims hv p hp => hlater p (h.signalling victims hv p hp), h.failures,
    fun p hp => hlater p (h.killed p hp)⟩

/-- A step of the cleanup that only moves its program counter. -/
theorem CleansLeftovers.move (h : CleansLeftovers L s) (pc : CleanupPc)
    (hwriting : ∀ name job left, pc = .writing name job left → L.old name = true)
    (hsignalling : ∀ victims, pc = .signalling victims → ∀ p ∈ victims, LeftRunning L s p) :
    CleansLeftovers L { s with cleanup := pc } where
  attributed := h.attributed.of_world rfl
  writing := hwriting
  signalling := hsignalling
  failures := h.failures
  killed := h.killed

/-- A state file is of an old job, or of one submitted to this process. -/
theorem Attributed.old_of_file (h : Attributed L s) {j : JobId} {job : Job}
    (hfile : s.file j = some job) (hsub : ¬ s.submitted j) : L.old j = true := by
  by_contra hold
  have hnone := (h.fresh j (by simpa using hold) hsub).2
  rw [hfile] at hnone
  cases hnone

/-- Replacing a file by the cleanup leaves the processes and what was done alone. -/
theorem CleansLeftovers.setFile (h : CleansLeftovers L s) {name : JobId} (content : Option Job)
    (hname : L.old name = true ∨ content = none) : CleansLeftovers L (s.setFile name content) where
  attributed := h.attributed.setFile hname
  writing := h.writing
  signalling := h.signalling
  failures := h.failures
  killed := h.killed

theorem CleansLeftovers.cleanup_step (h : CleansLeftovers L s) {a : CleanupAct}
    (hok : FindsLeftoversOnly s (.cleanup a)) (hstep : cleanupStep S backtest s a = some t) :
    CleansLeftovers L t := by
  cases a with
  | read ok =>
    simp only [cleanupStep] at hstep
    split at hstep
    next name left hpc =>
      split at hstep
      next job hfile =>
        split at hstep <;> cases hstep
        next hactive =>
          simp only [Bool.and_eq_true, decide_eq_true_eq] at hactive
          obtain ⟨rfl, hactive, -⟩ := hactive
          -- no job that was submitted since is active when its file is read
          have hsub : ¬ s.submitted name := fun hsub => hok name left hpc hsub job hfile hactive
          have hold := h.attributed.old_of_file hfile hsub
          refine h.move _ (fun n j l hn => ?_) fun _ hv => nomatch hv
          cases hn
          exact hold
        next => exact h.move _ (fun _ _ _ hn => nomatch hn) fun _ hv => nomatch hv
      next =>
        cases hstep
        exact h.move _ (fun _ _ _ hn => nomatch hn) fun _ hv => nomatch hv
    next => cases hstep
  | write now ok =>
    simp only [cleanupStep] at hstep
    split at hstep
    next name job left hpc =>
      have hold := h.writing name job left hpc
      split at hstep <;> cases hstep
      -- the job that is failed is an old one
      · have hfile := h.setFile (some (job.update (orphanChanges now))) (Or.inl hold)
        have hset := hfile.move (.reading left) (fun _ _ _ hn => nomatch hn) fun _ hv => nomatch hv
        refine ⟨hset.attributed.of_world rfl, hset.writing, hset.signalling, fun j hj => ?_,
          hset.killed⟩
        rcases List.mem_cons.mp hj with rfl | hj
        · exact hold
        · exact h.failures j hj
      · exact h.move _ (fun _ _ _ hn => nomatch hn) fun _ hv => nomatch hv
    next => cases hstep
  | list victims =>
    simp only [cleanupStep] at hstep
    split at hstep
    next =>
      split at hstep <;> cases hstep
      next hlist =>
        refine h.move _ (fun _ _ _ hn => nomatch hn) fun vs hv p hp => ?_
        cases hv
        -- a process that is listed was there before, by the condition
        obtain ⟨proc, hproc, -⟩ := mem_running (hlist ▸ hp)
        exact ⟨proc, hproc, (h.attributed.procs proc (List.mem_of_getElem? hproc)).resolve_right
          (hok p hp proc hproc)⟩
    next => cases hstep
  | signal =>
    simp only [cleanupStep] at hstep
    split at hstep <;> cases hstep
    next victims hpc =>
    have hmove := h.move .pruning (fun _ _ _ hn => nomatch hn) fun _ hv => nomatch hv
    refine ⟨hmove.attributed.of_world rfl, hmove.writing, hmove.signalling, hmove.failures,
      fun p hp => ?_⟩
    rcases List.mem_append.mp hp with hp | hp
    · exact h.killed p hp
    · exact h.signalling victims hpc p (List.mem_of_mem_filter hp)
  | remove ok =>
    simp only [cleanupStep] at hstep
    split at hstep <;> cases hstep
    cases ok
    · exact h.move _ (fun _ _ _ hn => nomatch hn) fun _ hv => nomatch hv
    · exact (h.setFile _ (Or.inr rfl)).move _ (fun _ _ _ hn => nomatch hn) fun _ hv => nomatch hv
  | swept =>
    simp only [cleanupStep] at hstep
    split at hstep <;> cases hstep
    cases backtest <;> exact h.move _ (fun _ _ _ hn => nomatch hn) fun _ hv => nomatch hv
  | _ =>
    simp only [cleanupStep] at hstep
    repeat' split at hstep
    all_goals cases hstep
    all_goals exact h.move _ (fun _ _ _ hn => nomatch hn) fun _ hv => nomatch hv

theorem cleansLeftovers_of_run
    (h : RunOf (startupStep L S backtest) FindsLeftoversOnly (.start L) s) :
    CleansLeftovers L s :=
  h.invariant (P := CleansLeftovers L) (fun s m t h hok hstep => by
    cases m with
    | world m =>
      simp only [startupStep, Option.ite_none_right_eq_some] at hstep
      obtain ⟨hfresh, hstep⟩ := hstep
      obtain ⟨w, hw, rfl⟩ := Option.map_eq_some_iff.mp hstep
      exact h.world_step hfresh hw
    | cleanup a => exact h.cleanup_step hok hstep) cleansLeftovers_start

/-- When the sweep reads no active state file of a job submitted to this process, and no tester
process of such a job runs when the cleanup lists the processes, the cleanup touches no work of this
process. -/
theorem sparesOwnWork : SparesOwnWork S backtest FindsLeftoversOnly := by
  intro L s hrun
  have h := cleansLeftovers_of_run hrun
  refine ⟨fun j hj => h.attributed.old j (h.failures j hj), fun p hp proc hproc => ?_⟩
  obtain ⟨proc', hproc', hold⟩ := h.killed p hp
  cases hproc.symm.trans hproc'
  exact h.attributed.old _ hold

end Runs

/-! ## Runs on fixed inputs -/

/-- Nothing is left. -/
def Leftovers.nothing : Leftovers where
  old _ := false
  file _ := none
  terminal := .init
  file_old _ h := nomatch h
  procs_old _ h := nomatch h

/-- Job 0 is submitted while the sweep lists the directory, which finds its state file, and its
terminal is launched before the cleanup lists the processes. -/
def sweptWhileQueued : List StartupLabel :=
  (work 0 (untilWaiting .sample)).map .world ++
    [.cleanup (.see 0), .cleanup (.listed true), .cleanup (.read true),
      .cleanup (.write 5 true)] ++
    (work 0 (untilLaunching ++ [.launch])).map .world ++
    [.cleanup .swept, .cleanup (.list [0]), .cleanup .signal]

/-- The cleanup fails a job that this process has accepted, and stops its terminal. -/
theorem not_sparesOwnWork : ¬ SparesOwnWork .sample true fun _ _ => True := by
  intro h
  obtain ⟨s, hrun, hp⟩ := exists_run_of_exec (show (exec (startupStep .nothing .sample true)
    (.start .nothing) sweptWhileQueued).any
      (fun s => decide (s.failures = [0] ∧ s.killed = [0] ∧ s.submitted 0)) = true by decide)
  obtain ⟨hfailures, -, hsub⟩ := of_decide_eq_true hp
  exact (h _ s hrun).1 0 (by rw [hfailures]; exact List.mem_cons_self) hsub

/-- Job 5 was running when the previous process ended, and its terminal still runs. -/
def Leftovers.oneRun : Leftovers where
  old j := j == 5
  file j := if j = 5 then some killedWhileRunning.job else none
  terminal := { Terminal.init with procs := [
    { image := .terminal, origin := 5, direct := true, exitCode := none, report := "",
      optimizationType := 0 }] }
  file_old j h := by
    split at h
    next hj => simp [hj]
    next => cases h
  procs_old proc h := by simp [List.mem_singleton.mp h]

/-- The cleanup deals with that job while job 0 is submitted and waits. -/
def cleanedUp : List StartupLabel :=
  [.cleanup (.see 5), .cleanup (.listed true)] ++ (work 0 (untilWaiting .sample)).map .world ++
    [.cleanup (.read true), .cleanup (.write 5 true), .cleanup .swept, .cleanup (.list [0]),
      .cleanup .signal]

/-- A check of `FindsLeftoversOnly` that runs. -/
def checkLeftovers (s : Startup) : StartupLabel → Bool
  | .cleanup (.read true) =>
    match s.cleanup with
    | .reading (name :: _) => ¬ s.submitted name
    | _ => true
  | .cleanup (.list victims) => victims.all fun p =>
      s.world.shared.procs[p]?.all fun proc => decide (¬ s.submitted proc.origin)
  | _ => true

theorem findsLeftoversOnly_of_check {s : Startup} {m : StartupLabel}
    (h : checkLeftovers s m = true) : FindsLeftoversOnly s m := by
  unfold FindsLeftoversOnly
  split
  next =>
    intro name left hpc hsub
    simp only [checkLeftovers, hpc] at h
    exact absurd hsub (of_decide_eq_true h)
  next victims =>
    intro p hp proc hproc
    have hall := List.all_eq_true.mp h p hp
    rw [hproc] at hall
    exact of_decide_eq_true hall
  next => trivial

theorem sparesOwnWork_oneRun : ∃ s,
    RunOf (startupStep .oneRun .sample true) FindsLeftoversOnly (.start .oneRun) s ∧
      s.failures = [5] ∧ s.killed = [0] ∧ s.submitted 0 ∧ ¬ s.submitted 5 := by
  obtain ⟨s, hrun, hp⟩ := exists_runOf_of_execOf checkLeftovers
    (fun _ _ hm => findsLeftoversOnly_of_check hm)
    (show (execOf (startupStep .oneRun .sample true) _ (.start .oneRun) cleanedUp).any
      (fun s => decide (s.failures = [5] ∧ s.killed = [0] ∧ s.submitted 0)) = true by decide)
  obtain ⟨hfailures, hkilled, hsub⟩ := of_decide_eq_true hp
  exact ⟨s, hrun, hfailures, hkilled, hsub,
    (sparesOwnWork .oneRun s hrun).1 5 (by rw [hfailures]; exact List.mem_cons_self)⟩

end Backtest

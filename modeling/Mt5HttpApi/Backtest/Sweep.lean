import Mathlib.Data.List.AList
import Mathlib.Data.List.Sort
import Mt5HttpApi.Lib.Transition
import Mt5HttpApi.Backtest.Worker

/-!
# The sweep of orphaned jobs against status polls

After a restart the shared directory holds the state files of the previous process, some of them
with a job that was queued or running. `sweep_orphans` runs in a background thread: it lists the
directory, and then reads the listed files one by one and rewrites those that hold an active job of
this terminal as failed. Meanwhile the server answers polls: `load_job` looks the job up in
`BACKTEST_JOBS` under `JOB_LOCK`, reads the state file outside of it, and puts what it read into
`BACKTEST_JOBS` under `JOB_LOCK` again.

A step is one such access. The sweep rewrites the file and not `BACKTEST_JOBS`, so a poll that reads
a file before the sweep has rewritten it keeps the dead job running for as long as the process lives
(`not_noDeadRun`). `noDeadRun` says that nothing else does.
-/

namespace Backtest

open Transition

/-- A state file of the shared directory. -/
structure StateFile where
  job : Job
  mtime : Timestamp
  deriving DecidableEq

/-- The process that sweeps: what it serves, and when it started to sweep with which
`lookback_seconds`. -/
structure SweepSetup where
  me : Identity
  startedAt : Timestamp
  lookbackSeconds : ℕ

namespace SweepSetup

/-- `cutoff`. -/
def cutoff (P : SweepSetup) : ℤ := P.startedAt - P.lookbackSeconds

/-- The file was touched within the last `lookback_seconds`. -/
def recent (P : SweepSetup) (f : StateFile) : Bool := ¬ (f.mtime : ℤ) < P.cutoff

/-- The sweep rewrites the job. -/
def orphaned (P : SweepSetup) (job : Job) : Bool :=
  job.status ∈ activeStatuses ∧ ownsJob P.me job

end SweepSetup

/-- What `sweep_orphans` writes into an orphaned job. -/
def orphanChanges (now : Timestamp) : List Change :=
  [.status .failed, .error "API restarted before completion", .finishedAt now]

/-- The program counter of `sweep_orphans`: the access it makes next. -/
inductive SweepPc
  | listing
  | reading (left : List JobId)
  | writing (name : JobId) (job : Job) (left : List JobId)
  | returned
  deriving DecidableEq

/-- The program counter of a `load_job` call: the access it makes next. -/
inductive LoadPc
  | idle
  | opening (id : JobId)
  | taking (id : JobId) (job : Job)
  | answered (id : JobId) (job : Option Job)
  deriving DecidableEq

/-- The shared directory, the job table of the new process, its sweep and its `load_job` calls. -/
structure Restarted where
  files : AList fun _ : JobId => StateFile
  /-- `BACKTEST_JOBS`. -/
  memory : JobId → Option Job
  /-- `UNSAVED_JOBS`. -/
  unsaved : JobId → Bool
  sweep : SweepPc
  calls : ℕ → LoadPc

/-- The new process, before it sweeps, over the files the previous one left. -/
def Restarted.start (files : AList fun _ : JobId => StateFile) : Restarted :=
  { files, memory := fun _ => none, unsaved := fun _ => false, sweep := .listing,
    calls := fun _ => .idle }

/-- A step of the sweep. `ok` says whether the file could be read or written. -/
inductive SweepAct
  | list
  | read (ok : Bool)
  | write (now : Timestamp) (ok : Bool)
  | finish
  deriving DecidableEq, Repr

/-- A step of a `load_job` call. -/
inductive LoadAct
  | lookup (id : JobId) (now : Timestamp) (saved : Bool)
  | open
  | take
  deriving DecidableEq, Repr

/-- A step of the sweep or of `load_job` call `c`. -/
inductive RestartLabel
  | sweep (a : SweepAct)
  | load (c : ℕ) (a : LoadAct)
  deriving DecidableEq, Repr

/-- The names `sweep_orphans` reads, in its order. -/
def Restarted.recent (P : SweepSetup) (s : Restarted) : List JobId :=
  (s.files.keys.filter fun name => (s.files.lookup name).any P.recent).insertionSort (· ≤ ·)

/-- One step of `sweep_orphans`. -/
def sweepStep (P : SweepSetup) (s : Restarted) (a : SweepAct) : Option Restarted :=
  match a with
  | .list =>
    match s.sweep with
    | .listing => some { s with sweep := .reading (s.recent P) }
    | _ => none
  | .read ok =>
    match s.sweep with
    | .reading (name :: left) =>
      match s.files.lookup name with
      | some f =>
        if ok && P.orphaned f.job then some { s with sweep := .writing name f.job left }
        else some { s with sweep := .reading left }
      | none => some { s with sweep := .reading left }
    | _ => none
  | .write now ok =>
    match s.sweep with
    | .writing name job left =>
      if ok then
        some { s with
          files := s.files.insert name ⟨job.update (orphanChanges now), now⟩
          sweep := .reading left }
      else some { s with sweep := .reading left }
    | _ => none
  | .finish =>
    match s.sweep with
    | .reading [] => some { s with sweep := .returned }
    | _ => none

/-- One step of `load_job` call `c`. -/
def loadStep (s : Restarted) (c : ℕ) (a : LoadAct) : Option Restarted :=
  match a with
  | .lookup id now saved =>
    match s.calls c with
    | .idle =>
      match s.memory id with
      | some job =>
        let answered := Function.update s.calls c (.answered id (some job))
        if s.unsaved id && saved then
          some { s with
            files := s.files.insert id ⟨job, now⟩
            unsaved := Function.update s.unsaved id false
            calls := answered }
        else some { s with calls := answered }
      | none => some { s with calls := Function.update s.calls c (.opening id) }
    | _ => none
  | .open =>
    match s.calls c with
    | .opening id =>
      match s.files.lookup id with
      | some f => some { s with calls := Function.update s.calls c (.taking id f.job) }
      | none => some { s with calls := Function.update s.calls c (.answered id none) }
    | _ => none
  | .take =>
    match s.calls c with
    | .taking id job =>
      some { s with
        memory := Function.update s.memory id ((s.memory id).or (some job))
        calls := Function.update s.calls c (.answered id (some job)) }
    | _ => none

/-- The step function of the restarted process. -/
def restartStep (P : SweepSetup) (s : Restarted) : RestartLabel → Option Restarted
  | .sweep a => sweepStep P s a
  | .load c a => loadStep s c a

/-- The sweep's reads and writes succeed. -/
def SweepSucceeds : RestartLabel → Prop
  | .sweep (.read ok) | .sweep (.write _ ok) => ok = true
  | _ => True

instance : DecidablePred SweepSucceeds := fun m =>
  match m with
  | .sweep (.read ok) | .sweep (.write _ ok) => inferInstanceAs (Decidable (ok = true))
  | .sweep .list | .sweep .finish | .load _ _ => inferInstanceAs (Decidable True)

/-- Until the sweep has returned, no `load_job` call reads the state file of a recent orphan. -/
def ReadsLate (P : SweepSetup) (s : Restarted) : RestartLabel → Prop
  | .load c .open => s.sweep ≠ .returned → ∀ id f, s.calls c = .opening id →
      s.files.lookup id = some f → P.recent f = true → P.orphaned f.job = false
  | _ => True

/-- Along runs whose steps meet `ok`: once the sweep has returned, no `load_job` call answers a job
of a state file of the previous process, recent and owned, as queued or running. -/
def NoDeadRun (P : SweepSetup) (ok : Restarted → RestartLabel → Prop) : Prop :=
  ∀ files s, RunOf (restartStep P) ok (.start files) s → s.sweep = .returned →
    ∀ c a t, restartStep P s (.load c a) = some t →
      ∀ id job f, t.calls c = .answered id (some job) → files.lookup id = some f →
        P.recent f = true → ownsJob P.me f.job = true → job.status ∉ activeStatuses

/-- The file of `id` is still ahead of the sweep. -/
def SweepPc.covers : SweepPc → JobId → Prop
  | .listing, _ => True
  | .reading left, id => id ∈ left
  | .writing name _ left, id => id = name ∨ id ∈ left
  | .returned, _ => False

/-- The previous process left a recent state file of this terminal under `id`. -/
def LeftBy (P : SweepSetup) (files : AList fun _ : JobId => StateFile) (id : JobId) : Prop :=
  ∃ f, files.lookup id = some f ∧ P.recent f = true ∧ ownsJob P.me f.job = true

/-- What every run keeps whose steps meet `ReadsLate`, from the files `files` on: a file is the one
that was left or no longer active, the recent orphans are ahead of the sweep, and of a job that was
left the process knows nothing active. -/
structure KnowsNoDead (P : SweepSetup) (files : AList fun _ : JobId => StateFile)
    (s : Restarted) : Prop where
  unsaved : ∀ id, s.unsaved id = false
  file : ∀ id f, s.files.lookup id = some f →
    files.lookup id = some f ∨ f.job.status ∉ activeStatuses
  ahead : ∀ id f, s.files.lookup id = some f → P.recent f = true → P.orphaned f.job = true →
    s.sweep.covers id
  memory : ∀ id job, s.memory id = some job → LeftBy P files id → job.status ∉ activeStatuses
  taking : ∀ c id job, s.calls c = .taking id job → LeftBy P files id →
    job.status ∉ activeStatuses

section Runs

variable {P : SweepSetup} {files : AList fun _ : JobId => StateFile} {s t : Restarted}

theorem knowsNoDead_start : KnowsNoDead P files (.start files) where
  unsaved _ := rfl
  file _ _ hf := Or.inl hf
  ahead _ _ _ _ _ := trivial
  memory _ _ h := nomatch h
  taking _ _ _ h := nomatch h

/-- The job of an orphan's file is no longer active. -/
theorem update_orphanChanges_status (job : Job) (now : Timestamp) :
    (job.update (orphanChanges now)).status = .failed := rfl

/-- A step of the sweep that only moves its program counter, past files that are no recent
orphans. -/
theorem KnowsNoDead.move (h : KnowsNoDead P files s) {pc : SweepPc}
    (hpc : ∀ id f, s.files.lookup id = some f → P.recent f = true → P.orphaned f.job = true →
      s.sweep.covers id → pc.covers id) :
    KnowsNoDead P files { s with sweep := pc } where
  unsaved := h.unsaved
  file := h.file
  ahead id f hf hr ho := hpc id f hf hr ho (h.ahead id f hf hr ho)
  memory := h.memory
  taking := h.taking

/-- A recent file is among the names the sweep reads. -/
theorem mem_recent {id : JobId} {f : StateFile} (hf : s.files.lookup id = some f)
    (hr : P.recent f = true) : id ∈ s.recent P := by
  unfold Restarted.recent
  rw [List.mem_insertionSort, List.mem_filter]
  have hkey : id ∈ s.files := AList.lookup_isSome.mp (by rw [hf]; rfl)
  exact ⟨AList.mem_keys.mp hkey, by rw [hf]; exact hr⟩

theorem KnowsNoDead.sweepStep (h : KnowsNoDead P files s) {a : SweepAct}
    (hok : SweepSucceeds (.sweep a)) (hstep : sweepStep P s a = some t) :
    KnowsNoDead P files t := by
  cases a with
  | list =>
    simp only [Backtest.sweepStep] at hstep
    split at hstep <;> cases hstep
    exact h.move fun id f hf hr _ _ => mem_recent hf hr
  | read ok =>
    obtain rfl : ok = true := hok
    simp only [Backtest.sweepStep, Bool.true_and] at hstep
    split at hstep
    next name left hpc =>
      split at hstep
      next g hg =>
        split at hstep <;> cases hstep
        -- an orphan is written next
        next ho => exact h.move fun id f _ _ _ hc => by rw [hpc] at hc; exact List.mem_cons.mp hc
        next ho =>
          refine h.move fun id f hf _ hfo hc => ?_
          rw [hpc] at hc
          rcases List.mem_cons.mp hc with rfl | hleft
          · cases hg.symm.trans hf
            -- a file that is no orphan needs no sweep
            exact absurd hfo ho
          · exact hleft
      next hg =>
        cases hstep
        refine h.move fun id f hf _ _ hc => ?_
        rw [hpc] at hc
        rcases List.mem_cons.mp hc with rfl | hleft
        · cases hg.symm.trans hf
        · exact hleft
    next => cases hstep
  | write now ok =>
    obtain rfl : ok = true := hok
    simp only [Backtest.sweepStep, if_true] at hstep
    split at hstep <;> cases hstep
    next name job left hpc =>
    refine ⟨h.unsaved, fun id f hf => ?_, fun id f hf hr ho => ?_, h.memory, h.taking⟩
    · rcases eq_or_ne id name with rfl | hne
      · rw [AList.lookup_insert] at hf
        cases hf
        exact Or.inr (by rw [update_orphanChanges_status]; decide)
      · exact h.file id f (by rwa [AList.lookup_insert_ne hne] at hf)
    · rcases eq_or_ne id name with rfl | hne
      · rw [AList.lookup_insert] at hf
        cases hf
        -- what was written is failed
        simp [SweepSetup.orphaned, update_orphanChanges_status, activeStatuses] at ho
      · rw [AList.lookup_insert_ne hne] at hf
        have hc := h.ahead id f hf hr ho
        rw [hpc] at hc
        exact hc.resolve_left hne
  | finish =>
    simp only [Backtest.sweepStep] at hstep
    split at hstep <;> cases hstep
    next hpc =>
    refine h.move fun id f _ _ _ hc => ?_
    rw [hpc] at hc
    exact List.not_mem_nil hc

/-- What a `load_job` call finds in the file of a job that was left is not active. -/
theorem KnowsNoDead.read (h : KnowsNoDead P files s) {c : ℕ}
    (hok : ReadsLate P s (.load c .open)) {id : JobId} {f : StateFile}
    (hcall : s.calls c = .opening id) (hf : s.files.lookup id = some f)
    (hleft : LeftBy P files id) : f.job.status ∉ activeStatuses := by
  rcases h.file id f hf with hsame | hnot
  · obtain ⟨g, hg, hrecent, howns⟩ := hleft
    obtain rfl : f = g := Option.some.inj (hsame.symm.trans hg)
    intro hactive
    have ho : P.orphaned f.job = true := decide_eq_true ⟨hactive, howns⟩
    by_cases hret : s.sweep = .returned
    · have hahead := h.ahead id f hf hrecent ho
      rw [hret] at hahead
      exact hahead
    · have hno := hok hret id f hcall hf hrecent
      exact absurd ho (by rw [hno]; decide)
  · exact hnot

/-- What a step of a `load_job` call does, when nothing is unsaved. -/
theorem loadStep_cases (hun : ∀ id, s.unsaved id = false) {c : ℕ} {a : LoadAct}
    (hstep : loadStep s c a = some t) :
    (∃ id job, s.memory id = some job ∧
      t = { s with calls := Function.update s.calls c (.answered id (some job)) }) ∨
    (∃ id, t = { s with calls := Function.update s.calls c (.opening id) }) ∨
    (∃ id f, a = .open ∧ s.calls c = .opening id ∧ s.files.lookup id = some f ∧
      t = { s with calls := Function.update s.calls c (.taking id f.job) }) ∨
    (∃ id, t = { s with calls := Function.update s.calls c (.answered id none) }) ∨
    (∃ id job, s.calls c = .taking id job ∧
      t = { s with
        memory := Function.update s.memory id ((s.memory id).or (some job))
        calls := Function.update s.calls c (.answered id (some job)) }) := by
  cases a with
  | lookup id now saved =>
    simp only [loadStep, hun id, Bool.false_and] at hstep
    split at hstep
    next =>
      split at hstep <;> cases hstep
      next job hmem => exact Or.inl ⟨id, job, hmem, rfl⟩
      next => exact Or.inr (Or.inl ⟨id, rfl⟩)
    next => cases hstep
  | «open» =>
    simp only [loadStep] at hstep
    split at hstep
    next id hcall =>
      split at hstep <;> cases hstep
      next f hf => exact Or.inr (Or.inr (Or.inl ⟨id, f, rfl, hcall, hf, rfl⟩))
      next => exact Or.inr (Or.inr (Or.inr (Or.inl ⟨id, rfl⟩)))
    next => cases hstep
  | take =>
    simp only [loadStep] at hstep
    split at hstep <;> cases hstep
    next id job hcall => exact Or.inr (Or.inr (Or.inr (Or.inr ⟨id, job, hcall, rfl⟩)))

/-- A step that only moves call `c`, to a job it may know. -/
theorem KnowsNoDead.call (h : KnowsNoDead P files s) {c : ℕ} {pc : LoadPc}
    (hpc : ∀ id job, pc = .taking id job → LeftBy P files id → job.status ∉ activeStatuses) :
    KnowsNoDead P files { s with calls := Function.update s.calls c pc } where
  unsaved := h.unsaved
  file := h.file
  ahead := h.ahead
  memory := h.memory
  taking d id job hd := by
    rcases eq_or_ne d c with rfl | hne
    · exact hpc id job (by simpa using hd)
    · exact h.taking d id job (by simpa [hne] using hd)

theorem KnowsNoDead.loadStep (h : KnowsNoDead P files s) {c : ℕ} {a : LoadAct}
    (hok : ReadsLate P s (.load c a)) (hstep : loadStep s c a = some t) :
    KnowsNoDead P files t := by
  obtain ⟨id, job, -, rfl⟩ | ⟨id, rfl⟩ | ⟨id, f, rfl, hcall, hf, rfl⟩ | ⟨id, rfl⟩ |
    ⟨id, job, hcall, rfl⟩ := loadStep_cases h.unsaved hstep
  · exact h.call fun _ _ hpc => nomatch hpc
  · exact h.call fun _ _ hpc => nomatch hpc
  · refine h.call fun i job hpc hleft => ?_
    obtain ⟨rfl, rfl⟩ := LoadPc.taking.inj hpc
    exact h.read hok hcall hf hleft
  · exact h.call fun _ _ hpc => nomatch hpc
  · have hcall' : KnowsNoDead P files
        { s with calls := Function.update s.calls c (.answered id (some job)) } :=
      h.call fun _ _ hpc => nomatch hpc
    refine ⟨hcall'.unsaved, hcall'.file, hcall'.ahead, fun i j hmem hleft => ?_, hcall'.taking⟩
    change Function.update s.memory id _ i = some j at hmem
    rcases eq_or_ne i id with rfl | hne
    · rw [Function.update_self, Option.or_eq_some_iff] at hmem
      rcases hmem with hmem | ⟨-, hmem⟩
      · exact h.memory i j hmem hleft
      · cases hmem
        exact h.taking c i job hcall hleft
    · rw [Function.update_of_ne hne] at hmem
      exact h.memory i j hmem hleft

theorem knowsNoDead_of_run
    (hrun : RunOf (restartStep P) (fun s m => SweepSucceeds m ∧ ReadsLate P s m) (.start files) s) :
    KnowsNoDead P files s :=
  hrun.invariant (P := KnowsNoDead P files) (fun s m t h hok hstep => by
    cases m with
    | sweep a => exact h.sweepStep hok.1 hstep
    | load c a => exact h.loadStep hok.2 hstep) knowsNoDead_start

/-- When, until the sweep has returned, no poll reads the state file of a recent orphan before the
sweep has rewritten it, no poll answers a job of the previous process as active afterwards. -/
theorem noDeadRun : NoDeadRun P fun s m => SweepSucceeds m ∧ ReadsLate P s m := by
  intro files s hrun hret c a t hstep id job f hanswer hf hrecent howns
  have h := knowsNoDead_of_run hrun
  have hleft : LeftBy P files id := ⟨f, hf, hrecent, howns⟩
  have hstep : loadStep s c a = some t := hstep
  obtain ⟨i, j, hmem, rfl⟩ | ⟨i, rfl⟩ | ⟨i, g, -, -, -, rfl⟩ | ⟨i, rfl⟩ | ⟨i, j, hcall, rfl⟩ :=
    loadStep_cases h.unsaved hstep <;>
    simp only [Function.update_self, LoadPc.answered.injEq, Option.some.injEq, reduceCtorEq,
      and_false] at hanswer
  · obtain ⟨rfl, rfl⟩ := hanswer
    exact h.memory i j hmem hleft
  · obtain ⟨rfl, rfl⟩ := hanswer
    exact h.taking c i j hcall hleft

end Runs

/-- A process that serves the terminal of the sample setup and sweeps the files of the last day. -/
def SweepSetup.sample : SweepSetup :=
  { me := Setup.sample.me, startedAt := 100000, lookbackSeconds := 86400 }

/-- The state file of a job that was running when the previous process ended. -/
def killedWhileRunning : StateFile :=
  { job := { Job.blank with broker := "demo", account := "1", status := .running }, mtime := 99990 }

/-- One file, of a running job. -/
def oneOrphan : AList fun _ : JobId => StateFile :=
  (∅ : AList fun _ : JobId => StateFile).insert 7 killedWhileRunning

/-- The sweep over one orphan. -/
def sweepAll : List RestartLabel :=
  [.sweep .list, .sweep (.read true), .sweep (.write 100001 true), .sweep .finish]

/-- A poll of the orphan, from the lookup to the answer. -/
def pollOnce (c : ℕ) : List RestartLabel :=
  [.load c (.lookup 7 100000 true), .load c .open, .load c .take]

/-- A poll reads the file before the sweep starts. The next one, after the sweep, is answered from
`BACKTEST_JOBS`. -/
theorem not_noDeadRun : ¬ NoDeadRun .sample fun _ m => SweepSucceeds m := by
  intro h
  obtain ⟨s, hrun, hp⟩ := exists_runOf_of_execOf (fun _ m => decide (SweepSucceeds m))
    (fun _ _ hm => of_decide_eq_true hm)
    (show (execOf (restartStep .sample) _ (.start oneOrphan) (pollOnce 0 ++ sweepAll)).any
      (fun s => decide (s.sweep = .returned ∧ s.calls 1 = .idle ∧
        s.memory 7 = some killedWhileRunning.job ∧ s.unsaved 7 = false)) = true by decide)
  obtain ⟨hret, hcall, hmem, hun⟩ := of_decide_eq_true hp
  have hstep : restartStep .sample s (.load 1 (.lookup 7 0 true)) = some { s with
      calls := Function.update s.calls 1 (.answered 7 (some killedWhileRunning.job)) } := by
    simp only [restartStep, loadStep, hcall, hmem, hun, Bool.false_and, Bool.false_eq_true,
      if_false]
  have hanswer := h oneOrphan s hrun hret 1 _ _ hstep 7 killedWhileRunning.job killedWhileRunning
    (by simp) (by decide) (by decide) (by decide)
  exact absurd hanswer (by decide)

/-- Steps of a sweep that succeeds, and of polls that begin when it has returned. -/
def pollsAfterSweep (s : Restarted) : RestartLabel → Bool
  | .load _ .open => s.sweep = .returned
  | m => SweepSucceeds m

/-- The orphan as the sweep rewrites it. -/
def sweptOrphan : Job := killedWhileRunning.job.update (orphanChanges 100001)

/-- A poll after the sweep answers the orphan, as failed. -/
theorem noDeadRun_afterSweep : ∃ s t,
    RunOf (restartStep .sample) (fun s m => SweepSucceeds m ∧ ReadsLate .sample s m)
      (.start oneOrphan) s ∧
    restartStep .sample s (.load 0 .take) = some t ∧
    t.calls 0 = .answered 7 (some sweptOrphan) ∧ sweptOrphan.status ∉ activeStatuses := by
  obtain ⟨s, hrun, hp⟩ : ∃ s, RunOf (restartStep .sample)
      (fun s m => SweepSucceeds m ∧ ReadsLate .sample s m) (.start oneOrphan) s ∧
      decide (s.sweep = .returned ∧ s.calls 0 = .taking 7 sweptOrphan) = true := by
    refine exists_runOf_of_execOf pollsAfterSweep ?_
      (show (execOf (restartStep .sample) _ (.start oneOrphan)
        (sweepAll ++ (pollOnce 0).dropLast)).any _ = true by decide)
    rintro s (a | ⟨c, (⟨id, now, saved⟩ | _ | _)⟩) hm
    · exact ⟨of_decide_eq_true hm, trivial⟩
    · exact ⟨trivial, trivial⟩
    · exact ⟨trivial, fun hret => absurd (of_decide_eq_true hm) hret⟩
    · exact ⟨trivial, trivial⟩
  obtain ⟨hret, hcall⟩ := of_decide_eq_true hp
  have hstep : restartStep .sample s (.load 0 .take) = some { s with
      memory := Function.update s.memory 7 ((s.memory 7).or (some sweptOrphan))
      calls := Function.update s.calls 0 (.answered 7 (some sweptOrphan)) } := by
    simp only [restartStep, loadStep, hcall]
  exact ⟨s, _, hrun, hstep, by simp, noDeadRun oneOrphan s hrun hret 0 _ _ hstep 7 sweptOrphan
    killedWhileRunning (by simp) (by decide) (by decide) (by decide)⟩

end Backtest

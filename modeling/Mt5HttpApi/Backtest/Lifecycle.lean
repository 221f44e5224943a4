import Mt5HttpApi.Lib.Transition
import Mt5HttpApi.Backtest.Worker

/-!
# The life cycle of a job

What the steps on one job do to its status, for every interleaving of its submission, its worker,
any number of cancel calls and status polls.

`jobStep_memory` says once what a step can do to the job in memory. `Lifecycle` is the invariant:
which statuses are possible at each program counter of the worker, and that wherever a worker gives
up without a verdict, and wherever the cancel flag is set, either the status is already final or a
cancel call is about to make it so (`Excused`).
-/

namespace Backtest

open Transition

variable {S : Setup} {s s' : JobState}

/-! ## Inversion of the steps -/

/-- A worker step moves the program counter along `control` and the data along `effect`. -/
theorem workerStep_iff {a : WorkerAct} {r : Reading} :
    workerStep S s a r = some s' ↔
      ∃ pc, control S s a r = some pc ∧ s' = { effect S s a r with pc := pc } := by
  simp only [workerStep, Option.map_eq_some_iff]
  exact exists_congr fun _ => and_congr_right fun _ => eq_comm

/-- A step of a cancel call moves its own program counter along `cancelControl` and the data along
`cancelEffect`. -/
theorem cancelStep_iff {c : ℕ} {a : CancelAct} {r : Reading} :
    cancelStep S s c a r = some s' ↔
      ∃ pc, cancelControl S s c a r = some pc ∧
        s' = { cancelEffect s a r with calls := Function.update s.calls c pc } := by
  simp only [cancelStep, Option.map_eq_some_iff]
  exact exists_congr fun _ => and_congr_right fun _ => eq_comm

/-- Loading a job changes nothing in memory, unless it is on disk only. -/
theorem loadJob_memory {e : Entry} (h : e.memory = none → e.disk = none) (saved : Bool) :
    (loadJob e saved).1.memory = e.memory ∧ (loadJob e saved).2 = e.memory := by
  cases hm : e.memory with
  | none => simp [loadJob, hm, h hm]
  | some job => exact loadJob_of_memory hm saved

/-- A worker step leaves the cancel calls alone. -/
@[simp]
theorem effect_calls (a : WorkerAct) (r : Reading) : (effect S s a r).calls = s.calls := by
  unfold effect
  split <;> rfl

/-- A worker step leaves the cancel flag alone or, at its end, drops it. -/
theorem effect_cancelRequested {a : WorkerAct} {r : Reading}
    (h : (effect S s a r).cancelRequested = true) : s.cancelRequested = true := by
  unfold effect at h
  split at h <;> first | exact h | cases h

/-- A store happens before the job exists. -/
theorem pc_of_store {sub : Submission} {r : Reading} {pc : WorkerPc}
    (h : control S s (.store sub) r = some pc) : s.pc = .absent := by
  simp only [control, Option.ite_none_right_eq_some] at h
  exact h.1

/-- An update happens at an `update_job` call, on a job that exists. -/
theorem pc_of_update {r : Reading} {pc : WorkerPc} (h : control S s .update r = some pc) :
    ∃ site, s.pc = .updating site ∧ pc = site.next := by
  simp only [control] at h
  split at h
  next site hpc =>
    simp only [Option.ite_none_right_eq_some, Option.some.injEq] at h
    exact ⟨site, hpc, h.2.symm⟩
  next => cases h

/-- An update that raises happens at an `update_job` call. -/
theorem pc_of_updateRaise {exc : Raised} {r : Reading} {pc : WorkerPc}
    (h : control S s (.updateRaise exc) r = some pc) :
    ∃ site, s.pc = .updating site ∧ onRaise exc r.duration r.now (.updating site) = some pc := by
  simp only [control] at h
  split at h
  next site hpc => exact ⟨site, hpc, hpc ▸ h⟩
  next => cases h

/-- The lock is released at the end of the section. -/
theorem pc_of_release {r : Reading} {pc : WorkerPc} (h : control S s .release r = some pc) :
    ∃ after, s.pc = .releasing after ∧ pc = after.next := by
  simp only [control] at h
  split at h
  next after hpc => exact ⟨after, hpc, (Option.some.inj h).symm⟩
  next => cases h

/-- After the wait for the processes to settle, they are listed again or have settled. -/
theorem pc_of_settle {again : Bool} {r : Reading} {pc : WorkerPc}
    (h : control S s (.settle again) r = some pc) : ∃ section_, s.pc = .settleWaiting section_ ∧
      pc = if again then .settleListing section_ else section_.settled := by
  simp only [control] at h
  split at h
  next section_ hpc => exact ⟨section_, hpc, (Option.some.inj h).symm⟩
  next => cases h

theorem pc_of_cleanUp {r : Reading} {pc : WorkerPc} (h : control S s .cleanUp r = some pc) :
    ∃ after, s.pc = .cleaning after ∧ pc = .clearingHolder after := by
  simp only [control] at h
  split at h
  next after hpc => exact ⟨after, hpc, (Option.some.inj h).symm⟩
  next => cases h

theorem pc_of_clearHolder {r : Reading} {pc : WorkerPc}
    (h : control S s .clearHolder r = some pc) :
    ∃ after, s.pc = .clearingHolder after ∧ pc = .releasing after := by
  simp only [control] at h
  split at h
  next after hpc => exact ⟨after, hpc, (Option.some.inj h).symm⟩
  next => cases h

/-- The four places an exception can lead to. -/
theorem onRaise_handler {exc : Raised} {d : ℕ} {now : Timestamp} {pc pc' : WorkerPc}
    (h : onRaise exc d now pc = some pc') :
    pc' = .failLoading exc ∨ pc' = .clearingHolder (.crash exc) ∨
      pc' = .updating (.crashed exc.text d now) ∨ pc' = .cleaning (.crash exc) := by
  unfold onRaise at h
  split at h <;> simp only [Option.some.injEq, reduceCtorEq] at h <;> subst h <;>
    cases exc.isException <;> simp

/-! ## What a step does to the job in memory -/

/-- The changes of the update call a label makes in a state: those of `update_job` for the worker's
updates, none for other labels. -/
def JobLabel.isUpdate : JobLabel → Bool
  | .worker .update _ | .worker (.updateRaise _) _ => true
  | _ => false

/-- What a step can do to the job in memory, on a job that is not on disk only. -/
inductive MemoryStep (S : Setup) (s : JobState) (l : JobLabel) : Option Job → Prop
  /-- Nothing. -/
  | same : l.isUpdate = false → MemoryStep S s l s.entry.memory
  /-- `store_job`. -/
  | store (sub : Submission) (r : Reading) : l = .worker (.store sub) r → s.pc = .absent →
      MemoryStep S s l (some (newJob S sub))
  /-- `update_job`. -/
  | update (site : UpdateSite) (job : Job) : l.isUpdate = true → s.pc = .updating site →
      s.entry.memory = some job →
      MemoryStep S s l (some (job.update (job.admitted site.changes)))
  /-- `cancel_if_active`, on an active job. -/
  | cancel (c : ℕ) (r : Reading) (job : Job) : l = .cancel c .mark r → s.entry.memory = some job →
      job.status ∈ activeStatuses → MemoryStep S s l
        (some (job.update [.error cancelError, .finishedAt r.now, .status .cancelled]))

private theorem worker_memory (hdisk : s.entry.memory = none → s.entry.disk = none)
    (hpc : s.entry.memory = none → s.pc = .absent) {a : WorkerAct} {r : Reading}
    (h : workerStep S s a r = some s') : MemoryStep S s (.worker a r) s'.entry.memory := by
  obtain ⟨pc, hc, rfl⟩ := workerStep_iff.mp h
  have hupdate : ∀ site, s.pc = .updating site → ∃ job, s.entry.memory = some job := by
    intro site hsite
    cases hm : s.entry.memory with
    | none => exact absurd (hpc hm) (by simp [hsite])
    | some job => exact ⟨job, rfl⟩
  cases a with
  | store sub =>
    have := MemoryStep.store (S := S) sub r rfl (pc_of_store hc)
    simpa [effect] using this
  | load =>
    simp only [effect, (loadJob_memory hdisk r.saved).1]
    exact .same rfl
  | update =>
    obtain ⟨site, hsite, -⟩ := pc_of_update hc
    obtain ⟨job, hjob⟩ := hupdate site hsite
    obtain ⟨e', he', hmem⟩ := updateJob_memory hjob site.changes r.saved
    simp only [effect, hsite, WorkerPc.changes, he', Option.getD_some, hmem]
    exact .update site job rfl hsite hjob
  | updateRaise exc =>
    obtain ⟨site, hsite, -⟩ := pc_of_updateRaise hc
    obtain ⟨job, hjob⟩ := hupdate site hsite
    obtain ⟨e', he', hmem⟩ := updateJob_memory hjob site.changes r.saved
    simp only [effect, hsite, WorkerPc.changes, he', Option.getD_some, hmem]
    exact .update site job rfl hsite hjob
  | sawSymbols found => cases found <;> exact .same rfl
  | _ => exact .same rfl

private theorem cancel_memory (hdisk : s.entry.memory = none → s.entry.disk = none) {c : ℕ}
    {a : CancelAct} {r : Reading} (h : cancelStep S s c a r = some s') :
    MemoryStep S s (.cancel c a r) s'.entry.memory := by
  obtain ⟨pc, hc, rfl⟩ := cancelStep_iff.mp h
  cases a with
  | load =>
    simp only [cancelEffect, (loadJob_memory hdisk r.saved).1]
    exact .same rfl
  | mark =>
    cases hm : s.entry.memory with
    | none =>
      have := MemoryStep.same (S := S) (s := s) (l := .cancel c .mark r) rfl
      simpa [cancelEffect, cancelIfActive, hm] using this
    | some job =>
      by_cases hactive : job.status ∈ activeStatuses
      · have := MemoryStep.cancel (S := S) c r job rfl hm hactive
        simpa [cancelEffect, cancelIfActive, hm, hactive] using this
      · have := MemoryStep.same (S := S) (s := s) (l := .cancel c .mark r) rfl
        simpa [cancelEffect, cancelIfActive, hm, hactive] using this
  | _ => exact .same rfl

/-- What any step does to the job in memory. -/
theorem jobStep_memory (hdisk : s.entry.memory = none → s.entry.disk = none)
    (hpc : s.entry.memory = none → s.pc = .absent) {l : JobLabel}
    (h : jobStep S s l = some s') : MemoryStep S s l s'.entry.memory := by
  cases l with
  | worker a r => exact worker_memory hdisk hpc h
  | cancel c a r => exact cancel_memory hdisk h
  | status r =>
    cases h
    simp only [(loadJob_memory hdisk r.saved).1]
    exact .same rfl

/-! ## Statuses by program counter -/

/-- Statuses before the worker has written `running`. -/
def freshStatuses : List Status := [.queued, .cancelled]

/-- Statuses from then until it writes a verdict. -/
def liveStatuses : List Status := [.running, .cancelled]

/-- Every status. -/
def anyStatus : List Status := [.queued, .running, .completed, .failed, .cancelled]

/-- The statuses a job can have while its worker gives back the lock. -/
def After.statuses : After → List Status
  | .judge _ => liveStatuses
  | _ => anyStatus

/-- The statuses a job can have while its worker is at a program counter. -/
def allowed : WorkerPc → List Status
  | .absent => []
  | .stored | .registered | .startFailed | .begun | .entered | .firstCheck | .makingDirs
  | .removingReport | .waitingLock | .waitCheck | .settingHolder .run | .locked
  | .updating (.workerStart _) | .updating (.dirsFailed _ _) | .updating (.running _) =>
    freshStatuses
  | .updating (.crashed _ _ _) => [.running, .failed, .cancelled]
  | .updating (.workerCrash _ _) => [.queued, .running, .cancelled]
  | .cleaning after | .clearingHolder after | .releasing after => after.statuses
  | .failLoading _ | .finishing | .exited | .settingHolder .stop | .settleListing _
  | .settleSignalling _ _ | .settleWaiting _ | .stopAcquiring => anyStatus
  | _ => liveStatuses

/-- The worker gives back the lock with nothing left to do. -/
def After.leaves : After → Bool
  | .leave => true
  | _ => false

@[simp]
theorem After.leaves_crash (exc : Raised) : (After.crash exc).leaves = false := rfl

@[simp]
theorem After.leaves_judge (code : ℤ) : (After.judge code).leaves = false := rfl

/-- The worker is on its way out without another verdict to write. -/
def leaving : WorkerPc → Bool
  | .settleListing _ | .settleSignalling _ _ | .settleWaiting _ | .stopAcquiring
  | .settingHolder .stop | .finishing | .exited => true
  | .cleaning after | .clearingHolder after | .releasing after => after.leaves
  | _ => false

@[simp]
theorem mem_anyStatus (st : Status) : st ∈ anyStatus := by
  cases st <;> decide

@[simp]
theorem After.statuses_leave : After.leave.statuses = anyStatus := rfl

@[simp]
theorem After.statuses_crash (exc : Raised) : (After.crash exc).statuses = anyStatus := rfl

@[simp]
theorem After.statuses_judge (code : ℤ) : (After.judge code).statuses = liveStatuses := rfl

@[simp]
theorem allowed_settled (section_ : Section) : allowed section_.settled = anyStatus := by
  cases section_ <;> rfl

/-- A worker that has given back the lock goes where the job's status is possible. -/
theorem allowed_next {after : After} {st : Status} (h : st ∈ after.statuses) :
    st ∈ allowed after.next := by
  cases after with
  | judge code => exact h
  | _ => exact mem_anyStatus st

/-- The status after an `update_job` call. -/
theorem status_update (job : Job) (site : UpdateSite) :
    (job.update (job.admitted site.changes)).status =
      if job.status = .cancelled then .cancelled else site.status?.getD job.status := by
  by_cases h : job.status = .cancelled
  · have hv := Job.update_admitted_of_cancelled h site.changes
    simp only [Job.verdict, Prod.mk.injEq] at hv
    rw [if_pos h, hv.1, h]
  · rw [if_neg h, Job.admitted_of_ne_cancelled h]
    cases site <;> rfl

/-- An `update_job` call leaves a status that is possible after it. -/
theorem allowed_update {site : UpdateSite} {job : Job}
    (h : job.status ∈ allowed (.updating site)) :
    (job.update (job.admitted site.changes)).status ∈ allowed site.next := by
  rw [status_update]
  cases site <;> revert h <;> cases job.status <;>
    simp [allowed, UpdateSite.next, UpdateSite.status?, freshStatuses, liveStatuses, anyStatus]

/-- An `update_job` call that raises leaves a status that is possible at its handler. -/
theorem allowed_updateRaise {site : UpdateSite} {job : Job} {exc : Raised} {d : ℕ}
    {now : Timestamp} {pc : WorkerPc} (h : job.status ∈ allowed (.updating site))
    (hpc : onRaise exc d now (.updating site) = some pc) :
    (job.update (job.admitted site.changes)).status ∈ allowed pc := by
  rw [status_update]
  cases site <;> simp only [onRaise, Option.some.injEq, reduceCtorEq] at hpc <;> subst hpc <;>
    revert h <;> cases exc.isException <;> cases job.status <;>
    simp [allowed, UpdateSite.status?, freshStatuses, liveStatuses, anyStatus]

/-- An exception leaves a status that is possible at its handler. -/
theorem allowed_onRaise {exc : Raised} {d : ℕ} {now : Timestamp} {pc pc' : WorkerPc}
    {st : Status} (h : st ∈ allowed pc) (hpc : onRaise exc d now pc = some pc') :
    st ∈ allowed pc' := by
  revert h
  unfold onRaise at hpc
  split at hpc <;> simp only [Option.some.injEq, reduceCtorEq] at hpc <;> subst hpc <;>
    cases exc.isException <;> cases st <;>
    simp [allowed, freshStatuses, liveStatuses, anyStatus]

/-- A worker step that leaves the job alone goes to a program counter its status is possible at. -/
theorem allowed_control {a : WorkerAct} {r : Reading} {pc : WorkerPc} {job : Job}
    (h : control S s a r = some pc) (hjob : s.entry.memory = some job)
    (hst : job.status ∈ allowed s.pc) (hu : (JobLabel.worker a r).isUpdate = false) :
    job.status ∈ allowed pc := by
  have hload := (loadJob_of_memory hjob r.saved).2
  revert hst
  cases a with
  | raise exc => exact fun hst => allowed_onRaise hst h
  | updateRaise exc => cases hu
  | update => cases hu
  | store sub => simp [pc_of_store h, allowed]
  | load =>
    simp only [control, hload] at h
    split at h
    next hpc => cases h; simp [hpc, allowed]
    next hpc =>
      split at h
      next hactive =>
        cases h
        revert hactive
        cases job.status <;> simp [activeStatuses, allowed]
      next => cases h; simp [allowed]
    next => cases h
  | release =>
    obtain ⟨after, hpc, rfl⟩ := pc_of_release h
    rw [hpc]
    exact allowed_next
  | settle again =>
    obtain ⟨section_, hpc, rfl⟩ := pc_of_settle h
    cases again
    · simp
    · simp [allowed]
  | _ =>
    -- the remaining steps stay within one group of program counters
    simp only [control] at h
    repeat' split at h
    all_goals simp only [Option.some.injEq, reduceCtorEq] at h
    all_goals subst h
    all_goals simp [*, allowed]

/-! ## Workers that give up -/

/-- The status is final. -/
def Settled (s : JobState) : Prop :=
  ∃ job, s.entry.memory = some job ∧ job.status ∉ activeStatuses

/-- The status is final, or a cancel call is about to make it so. -/
def Excused (s : JobState) : Prop :=
  Settled s ∨ ∃ c, s.calls c = .marking

/-- The verdicts after which the worker leaves. -/
theorem settled_update {site : UpdateSite} {job : Job} (hst : job.status ∈ allowed (.updating site))
    (h : leaving site.next = true) :
    (job.update (job.admitted site.changes)).status ∉ activeStatuses := by
  rw [status_update]
  revert h hst
  cases site <;> cases job.status <;>
    simp [UpdateSite.next, leaving, UpdateSite.status?, activeStatuses, allowed, freshStatuses]

/-- An exception never makes the worker leave: it has the crash to report first. -/
theorem leaving_onRaise {exc : Raised} {d : ℕ} {now : Timestamp} {pc pc' : WorkerPc}
    (h : onRaise exc d now pc = some pc') : leaving pc' = false := by
  rcases onRaise_handler h with rfl | rfl | rfl | rfl <;> rfl

/-- A worker step that leaves the job alone starts to leave only on a cancel flag or a final
status. -/
theorem leaving_control {a : WorkerAct} {r : Reading} {pc : WorkerPc} {job : Job}
    (h : control S s a r = some pc) (hjob : s.entry.memory = some job)
    (hu : (JobLabel.worker a r).isUpdate = false) (hpc : leaving pc = true) :
    leaving s.pc = true ∨ s.cancelRequested = true ∨ job.status ∉ activeStatuses := by
  have hload := (loadJob_of_memory hjob r.saved).2
  revert hpc
  cases a with
  | raise exc => simp [leaving_onRaise h]
  | updateRaise exc => cases hu
  | update => cases hu
  | load =>
    simp only [control, hload] at h
    split at h
    next => cases h; simp [leaving]
    next =>
      split at h
      next => cases h; simp [leaving]
      next hactive => exact fun _ => Or.inr (Or.inr hactive)
    next => cases h
  | release =>
    obtain ⟨after, hpc, rfl⟩ := pc_of_release h
    cases after <;> simp [hpc, After.next, After.leaves, leaving]
  | _ =>
    simp only [control] at h
    repeat' split at h
    all_goals simp only [Option.some.injEq, reduceCtorEq] at h
    all_goals subst h
    all_goals simp +contextual [*, leaving]

/-! ## The invariant -/

/-- The call has set the job's status, or found it set. -/
def CancelPc.marked : CancelPc → Bool
  | .unflagging | .polling | .checkingHolder | .listing | .signalling _ | .stopCheck
  | .answering => true
  | _ => false

/-- The invariant of a job's life cycle. -/
structure Lifecycle (s : JobState) : Prop where
  /-- A job that is not in memory is not there at all, and nothing has begun on it. -/
  absent : s.entry.memory = none →
    s.pc = .absent ∧ s.entry.disk = none ∧ ∀ c, (s.calls c).inProgress = false
  /-- The status is one the worker's program counter allows. -/
  status : ∀ job, s.entry.memory = some job → job.status ∈ allowed s.pc
  /-- A worker on its way out has an excuse. -/
  leaving : leaving s.pc = true → Excused s
  /-- A cancel flag has an excuse. -/
  flag : s.cancelRequested = true → Excused s
  /-- After a cancel call's mark the status is final. -/
  marked : ∀ c, (s.calls c).marked = true → Settled s

theorem lifecycle_init : Lifecycle .init where
  absent _ := ⟨rfl, rfl, fun _ => rfl⟩
  status job h := by cases h
  leaving h := by cases h
  flag h := by cases h
  marked c h := by cases h

/-- How a status may change in one step. -/
inductive Moves : Option Status → Option Status → Prop
  | refl (st : Option Status) : Moves st st
  | submit : Moves none (some .queued)
  | start : Moves (some .queued) (some .running)
  | failQueued : Moves (some .queued) (some .failed)
  | failRunning : Moves (some .running) (some .failed)
  | complete : Moves (some .running) (some .completed)
  | cancelQueued : Moves (some .queued) (some .cancelled)
  | cancelRunning : Moves (some .running) (some .cancelled)

/-- A final status does not move. -/
theorem Moves.final {st : Status} {st' : Option Status} (h : Moves (some st) st')
    (hst : st ∉ activeStatuses) : st' = some st := by
  cases h <;> first | rfl | exact absurd hst (by decide)

/-- What a step does to the job's record, as seen through its verdict: the status moves along
`Moves`, and a cancelled job keeps its verdict. -/
theorem Lifecycle.record_step (hs : Lifecycle s) {l : JobLabel} (h : jobStep S s l = some s') :
    Moves s.entry.status? s'.entry.status? ∧
      ∀ job, s.entry.memory = some job → job.status = .cancelled →
        ∃ job', s'.entry.memory = some job' ∧ job'.verdict = job.verdict := by
  have hm := jobStep_memory (fun hn => (hs.absent hn).2.1) (fun hn => (hs.absent hn).1) h
  generalize hs' : s'.entry.memory = m at hm
  cases hm with
  | same => simpa [Entry.status?, hs', Moves.refl] using fun job hjob _ => ⟨job, hjob, rfl⟩
  | store sub r hl hpc =>
    have hnone : s.entry.memory = none := by
      cases hmem : s.entry.memory with
      | none => rfl
      | some job => simpa [hpc, allowed] using hs.status job hmem
    simpa [Entry.status?, hs', hnone, newJob] using Moves.submit
  | update site job hl hpc hjob =>
    have hst : job.status ∈ allowed (.updating site) := hpc ▸ hs.status job hjob
    refine ⟨?_, ?_⟩
    · simp only [Entry.status?, hs', hjob, Option.map_some, status_update]
      revert hst
      cases site <;> cases job.status <;>
        simp [allowed, freshStatuses, liveStatuses, UpdateSite.status?, Moves.refl, Moves.start,
          Moves.failQueued, Moves.failRunning, Moves.complete]
    · intro job' hjob' hc
      cases hjob.symm.trans hjob'
      exact ⟨_, rfl, Job.update_admitted_of_cancelled hc _⟩
  | cancel c r job hl hjob hactive =>
    refine ⟨?_, ?_⟩
    · simp only [Entry.status?, hs', hjob, Option.map_some]
      revert hactive
      cases hst : job.status <;>
        simp [activeStatuses, Job.update, Job.set, Moves.cancelQueued, Moves.cancelRunning]
    · intro job' hjob' hc
      cases hjob.symm.trans hjob'
      exact absurd hactive (by simp [hc, activeStatuses])

/-- A final status stays final. -/
theorem Lifecycle.settled_step (hs : Lifecycle s) {l : JobLabel} (h : jobStep S s l = some s')
    (hset : Settled s) : Settled s' := by
  obtain ⟨job, hjob, hst⟩ := hset
  have hmove := (hs.record_step h).1
  rw [Entry.status?, hjob] at hmove
  have hst' := hmove.final hst
  simp only [Entry.status?, Option.map_eq_some_iff] at hst'
  obtain ⟨job', hjob', heq⟩ := hst'
  exact ⟨job', hjob', heq ▸ hst⟩

/-- The mark of a cancel call leaves a final status behind. -/
theorem settled_mark {e : Entry} {job : Job} (h : e.memory = some job) (now : Timestamp)
    (saved : Bool) :
    ∃ job', ((cancelIfActive e [.error cancelError, .finishedAt now] saved).getD e).memory =
      some job' ∧ job'.status ∉ activeStatuses := by
  by_cases hactive : job.status ∈ activeStatuses
  · refine ⟨job.update [.error cancelError, .finishedAt now, .status .cancelled], ?_, ?_⟩
    · simp [cancelIfActive, h, hactive]
    · simp [Job.update, Job.set, activeStatuses]
  · exact ⟨job, by simp [cancelIfActive, h, hactive], hactive⟩

/-- An excuse lasts: the cancel call it may rest on makes the status final. -/
theorem Lifecycle.excused_step (hs : Lifecycle s) {l : JobLabel} (h : jobStep S s l = some s')
    (hex : Excused s) : Excused s' := by
  obtain hset | ⟨c, hc⟩ := hex
  · exact Or.inl (hs.settled_step h hset)
  · cases l with
    | worker a r =>
      obtain ⟨pc, -, rfl⟩ := workerStep_iff.mp h
      exact Or.inr ⟨c, by simpa using hc⟩
    | status r =>
      cases h
      exact Or.inr ⟨c, hc⟩
    | cancel d a r =>
      obtain ⟨pc, hpc, rfl⟩ := cancelStep_iff.mp h
      rcases eq_or_ne c d with rfl | hne
      · have hmem : s.entry.memory ≠ none := by
          intro hnone
          simpa [hc, CancelPc.inProgress] using (hs.absent hnone).2.2 c
        obtain ⟨job, hjob⟩ := Option.ne_none_iff_exists'.mp hmem
        cases a with
        | mark =>
          exact Or.inl (settled_mark hjob r.now r.saved)
        | _ => simp [cancelControl, hc] at hpc
      · refine Or.inr ⟨c, ?_⟩
        simp [Function.update_of_ne hne, hc]

/-- A cancel call gets past its mark by the mark only. -/
theorem cancelControl_marked {c : ℕ} {a : CancelAct} {r : Reading}
    {pc : CancelPc} (h : cancelControl S s c a r = some pc) (hpc : pc.marked = true) :
    (s.calls c).marked = true ∨ s.calls c = .marking ∧ a = .mark := by
  cases a with
  | mark =>
    simp only [cancelControl, Option.ite_none_right_eq_some] at h
    exact Or.inr ⟨h.1, rfl⟩
  | _ =>
    left
    revert hpc
    simp only [cancelControl] at h
    repeat' split at h
    all_goals simp only [Option.some.injEq, reduceCtorEq] at h
    all_goals subst h
    all_goals simp [*, CancelPc.marked]

/-- A cancel call that has begun found the job in memory. -/
theorem Lifecycle.cancelControl_inProgress (hs : Lifecycle s) {c : ℕ} {a : CancelAct}
    {r : Reading} {pc : CancelPc} (h : cancelControl S s c a r = some pc)
    (hnone : s.entry.memory = none) : pc.inProgress = false := by
  have hc := (hs.absent hnone).2.2 c
  have hload := (loadJob_memory (fun _ => (hs.absent hnone).2.1) r.saved).2
  rw [hnone] at hload
  revert hc
  cases a with
  | load =>
    simp only [cancelControl, hload] at h
    split at h
    all_goals simp only [Option.some.injEq, reduceCtorEq] at h
    all_goals subst h
    all_goals simp [CancelPc.inProgress]
  | _ =>
    simp only [cancelControl] at h
    repeat' split at h
    all_goals simp only [Option.some.injEq, reduceCtorEq] at h
    all_goals subst h
    all_goals simp [*, CancelPc.inProgress]

/-- The only worker step before the job exists is `store_job`. -/
theorem control_absent {a : WorkerAct} {r : Reading} {pc : WorkerPc}
    (h : control S s a r = some pc) (hpc : s.pc = .absent) : ∃ sub, a = .store sub := by
  cases a with
  | store sub => exact ⟨sub, rfl⟩
  | _ => simp [control, hpc, onRaise] at h

/-- A worker that has exited stays there. -/
theorem control_exited {a : WorkerAct} {r : Reading} (h : s.pc = .exited) :
    control S s a r = none := by
  cases a <;> simp [control, h, onRaise]

/-- A worker step keeps the invariant. -/
theorem Lifecycle.worker_step (hs : Lifecycle s) {a : WorkerAct} {r : Reading}
    (h : jobStep S s (.worker a r) = some s') : Lifecycle s' := by
  have hmem := jobStep_memory (fun hn => (hs.absent hn).2.1) (fun hn => (hs.absent hn).1) h
  have hset : Settled s → Settled s' := hs.settled_step h
  have hex : Excused s → Excused s' := hs.excused_step h
  obtain ⟨pc, hc, hs'⟩ := workerStep_iff.mp h
  have hpc' : s'.pc = pc := by rw [hs']
  have hcalls : s'.calls = s.calls := by rw [hs']; exact effect_calls a r
  have hflag : s'.cancelRequested = true → s.cancelRequested = true := by
    rw [hs']; exact effect_cancelRequested
  have hmarked : ∀ c, (s'.calls c).marked = true → Settled s' := by
    intro c hm
    exact hset (hs.marked c (by rwa [hcalls] at hm))
  generalize hm : s'.entry.memory = m at hmem
  -- what the step does to the job in memory
  cases hmem with
  | same hu =>
    -- where there is no job, a worker only stores one
    have hsome : s.entry.memory ≠ none := by
      intro hnone
      obtain ⟨sub, rfl⟩ := control_absent hc (hs.absent hnone).1
      rw [hnone, hs'] at hm
      simp [effect] at hm
    obtain ⟨job, hjob⟩ := Option.ne_none_iff_exists'.mp hsome
    refine ⟨fun hnone => absurd (hm.symm.trans hnone) hsome, ?_, ?_,
      fun hf => hex (hs.flag (hflag hf)), hmarked⟩
    · intro job' hjob'
      cases hjob.symm.trans (hm.symm.trans hjob')
      exact hpc' ▸ allowed_control hc hjob (hs.status job hjob) hu
    · intro hl
      -- it was leaving, or it saw the flag, or the job had its verdict
      obtain hl | hf | hst := leaving_control hc hjob hu (hpc' ▸ hl)
      · exact hex (hs.leaving hl)
      · exact hex (hs.flag hf)
      · exact hex (Or.inl ⟨job, hjob, hst⟩)
  | store sub r' hl hpc =>
    cases hl
    have hstored : pc = .stored := by simpa [control, hpc] using hc.symm
    refine ⟨fun hnone => (by cases hnone.symm.trans hm), ?_, ?_,
      fun hf => hex (hs.flag (hflag hf)), hmarked⟩
    · intro job hjob
      cases hm.symm.trans hjob
      simp [hpc', hstored, allowed, freshStatuses, newJob]
    · intro hl
      simp [hpc', hstored, Backtest.leaving] at hl
  | update site job hu hpc hjob =>
    have hst : job.status ∈ allowed (.updating site) := hpc ▸ hs.status job hjob
    refine ⟨fun hnone => (by cases hnone.symm.trans hm), ?_, ?_,
      fun hf => hex (hs.flag (hflag hf)), hmarked⟩
    · intro job' hjob'
      cases hm.symm.trans hjob'
      rw [hpc']
      cases a with
      | update =>
        obtain ⟨site', hsite, rfl⟩ := pc_of_update hc
        cases hpc.symm.trans hsite
        exact allowed_update hst
      | updateRaise exc =>
        obtain ⟨site', hsite, hraise⟩ := pc_of_updateRaise hc
        cases hpc.symm.trans hsite
        exact allowed_updateRaise hst hraise
      | _ => cases hu
    · intro hl
      cases a with
      | update =>
        obtain ⟨site', hsite, rfl⟩ := pc_of_update hc
        cases hpc.symm.trans hsite
        exact Or.inl ⟨_, hm, settled_update hst (hpc' ▸ hl)⟩
      | updateRaise exc =>
        obtain ⟨site', -, hraise⟩ := pc_of_updateRaise hc
        simp [hpc', leaving_onRaise hraise] at hl
      | _ => cases hu
  | cancel c r' job hl hjob hactive => cases hl

@[simp]
theorem cancelled_mem_statuses (after : After) : .cancelled ∈ after.statuses := by
  cases after <;> simp [liveStatuses]

/-- Wherever any status is possible, `cancelled` is. -/
theorem cancelled_mem_allowed {pc : WorkerPc} {st : Status} (h : st ∈ allowed pc) :
    .cancelled ∈ allowed pc := by
  revert h
  unfold allowed
  split <;> simp [freshStatuses, liveStatuses]

/-- A cancel call's step on a job that is not there leaves the disk alone. -/
theorem cancelEffect_disk {a : CancelAct} {r : Reading} (hnone : s.entry.memory = none) :
    (cancelEffect s a r).entry.disk = s.entry.disk := by
  cases a with
  | load => simp [cancelEffect, loadJob, hnone]
  | mark => simp [cancelEffect, cancelIfActive, hnone]
  | _ => rfl

/-- Only a cancel call's own flag step raises the flag. -/
theorem cancelEffect_cancelRequested {a : CancelAct} {r : Reading}
    (h : (cancelEffect s a r).cancelRequested = true) :
    a = .flag ∨ s.cancelRequested = true := by
  cases a with
  | flag => exact Or.inl rfl
  | unflag => cases h
  | _ => exact Or.inr h

/-- A step of a cancel call keeps the invariant. -/
theorem Lifecycle.cancel_step (hs : Lifecycle s) {c : ℕ} {a : CancelAct} {r : Reading}
    (h : jobStep S s (.cancel c a r) = some s') : Lifecycle s' := by
  have hset : Settled s → Settled s' := hs.settled_step h
  have hex : Excused s → Excused s' := hs.excused_step h
  have hmem := jobStep_memory (fun hn => (hs.absent hn).2.1) (fun hn => (hs.absent hn).1) h
  obtain ⟨pc, hc, hs'⟩ := cancelStep_iff.mp h
  have hpc' : s'.pc = s.pc := by rw [hs']; cases a <;> rfl
  have hcalls : s'.calls = Function.update s.calls c pc := by rw [hs']
  -- a cancel call removes no job
  have hkept : s'.entry.memory = none → s.entry.memory = none := by
    intro hnone
    rw [hnone] at hmem
    cases hmem' : s.entry.memory with
    | none => rfl
    | some job =>
      generalize hm : (none : Option Job) = m at hmem
      cases hmem with
      | same => cases hm.trans hmem'
      | _ => cases hm
  refine ⟨?_, ?_, fun hl => hex (hs.leaving (hpc' ▸ hl)), ?_, ?_⟩
  · intro hnone
    obtain ⟨habsent, hdisk, hidle⟩ := hs.absent (hkept hnone)
    refine ⟨hpc'.trans habsent, ?_, fun d => ?_⟩
    · rw [hs']
      exact (cancelEffect_disk (hkept hnone)).trans hdisk
    · rw [hcalls]
      rcases eq_or_ne d c with rfl | hne
      · simpa using hs.cancelControl_inProgress hc (hkept hnone)
      · simpa [Function.update_of_ne hne] using hidle d
  · intro job' hjob'
    rw [hpc']
    generalize hm : s'.entry.memory = m at hmem
    cases hmem with
    | same => exact hs.status job' (hm.symm.trans hjob' ▸ rfl)
    | cancel d r' job hl hjob hactive =>
      cases hm.symm.trans hjob'
      exact cancelled_mem_allowed (hs.status job hjob)
    | store sub r' hl => cases hl
    | update site job hu => cases hu
  · intro hf
    rw [hs'] at hf
    -- the call that raises the flag marks the job next
    rcases cancelEffect_cancelRequested hf with rfl | hf
    · simp only [cancelControl, Option.ite_none_right_eq_some, Option.some.injEq] at hc
      exact Or.inr ⟨c, by simp [hcalls, ← hc.2]⟩
    · exact hex (hs.flag hf)
  · intro d hm
    rw [hcalls] at hm
    rcases eq_or_ne d c with rfl | hne
    · rw [Function.update_self] at hm
      rcases cancelControl_marked hc hm with hmarked | ⟨hmark, rfl⟩
      · exact hset (hs.marked d hmarked)
      -- the mark itself settles the job
      · have hsome : s.entry.memory ≠ none := by
          intro hnone
          simpa [hmark, CancelPc.inProgress] using (hs.absent hnone).2.2 d
        obtain ⟨job, hjob⟩ := Option.ne_none_iff_exists'.mp hsome
        rw [hs']
        exact settled_mark hjob r.now r.saved
    · rw [Function.update_of_ne hne] at hm
      exact hset (hs.marked d hm)

/-- A status poll keeps the invariant: it changes nothing in memory. -/
theorem Lifecycle.status_step (hs : Lifecycle s) {r : Reading}
    (h : jobStep S s (.status r) = some s') : Lifecycle s' := by
  have hset : Settled s → Settled s' := hs.settled_step h
  have hex : Excused s → Excused s' := hs.excused_step h
  cases h
  have hload := (loadJob_memory (fun hn => (hs.absent hn).2.1) r.saved).1
  refine ⟨fun hnone => ?_, fun job hjob => hs.status job (hload ▸ hjob),
    fun hl => hex (hs.leaving hl), fun hf => hex (hs.flag hf),
    fun c hm => hset (hs.marked c hm)⟩
  have hnone' : s.entry.memory = none := hload.symm.trans hnone
  obtain ⟨habsent, hdisk, hidle⟩ := hs.absent hnone'
  exact ⟨habsent, by simpa [loadJob, hnone'] using hdisk, hidle⟩

/-- Every step keeps the invariant. -/
theorem Lifecycle.step (hs : Lifecycle s) {l : JobLabel} (h : jobStep S s l = some s') :
    Lifecycle s' := by
  cases l with
  | worker a r => exact hs.worker_step h
  | cancel c a r => exact hs.cancel_step h
  | status r => exact hs.status_step h

/-- The invariant holds in every state of every run. -/
theorem lifecycle_of_run (h : Run (jobStep S) .init s) : Lifecycle s :=
  h.invariant (fun _ _ _ hs _ hstep => hs.step hstep) lifecycle_init

/-! ## The life cycle over whole runs -/

/-- Along a run a final status stays. -/
theorem settled_of_run (h : Run (jobStep S) .init s) (h' : Run (jobStep S) s s')
    (hset : Settled s) : Settled s' ∧ s'.entry.status? = s.entry.status? := by
  refine h'.invariant_of (P := fun t => Settled t ∧ t.entry.status? = s.entry.status?)
    (fun t ht => lifecycle_of_run (h.trans ht)) ?_ ⟨hset, rfl⟩
  intro t l u ht _ hP _ hstep
  obtain ⟨job, hjob, hst⟩ := hP.1
  have hmove := (ht.record_step hstep).1
  rw [Entry.status?, hjob] at hmove
  refine ⟨ht.settled_step hstep hP.1, ?_⟩
  rw [hmove.final hst, ← hP.2, Entry.status?, hjob, Option.map_some]

/-- Along a run a cancelled job keeps its status, error and finish time. -/
theorem verdict_of_run (h : Run (jobStep S) .init s) (h' : Run (jobStep S) s s') {job : Job}
    (hjob : s.entry.memory = some job) (hc : job.status = .cancelled) :
    ∃ job', s'.entry.memory = some job' ∧ job'.verdict = job.verdict := by
  refine h'.invariant_of
    (P := fun t => ∃ job', t.entry.memory = some job' ∧ job'.verdict = job.verdict)
    (fun t ht => lifecycle_of_run (h.trans ht)) ?_ ⟨job, hjob, rfl⟩
  rintro t l u ht _ ⟨job', hjob', hv⟩ _ hstep
  have hc' : job'.status = .cancelled := (congrArg Prod.fst hv).trans hc
  obtain ⟨job'', hjob'', hv'⟩ := (ht.record_step hstep).2 job' hjob' hc'
  exact ⟨job'', hjob'', hv'.trans hv⟩

/-- Over every interleaving of a job's submission, its worker (with any outcome, any exception and
any failed disk write), its cancel calls and its status polls: the status moves along `Moves`; a
final status stays; a cancelled job keeps the values the cancel wrote; and once the worker has
exited and no cancel call is in progress, the status is final. -/
theorem job_lifecycle (h : Run (jobStep S) .init s) :
    (∀ l t, jobStep S s l = some t → Moves s.entry.status? t.entry.status?) ∧
    (∀ job t, s.entry.memory = some job → job.status ∈ terminalStatuses →
      Run (jobStep S) s t → t.entry.status? = some job.status) ∧
    (∀ job t, s.entry.memory = some job → job.status = .cancelled → Run (jobStep S) s t →
      ∃ job', t.entry.memory = some job' ∧ job'.status = job.status ∧
        job'.error = job.error ∧ job'.finishedAt = job.finishedAt) ∧
    (s.pc = .exited → (∀ c, (s.calls c).inProgress = false) →
      ∃ job, s.entry.memory = some job ∧ job.status ∈ terminalStatuses) := by
  have hs := lifecycle_of_run h
  refine ⟨fun l t hstep => (hs.record_step hstep).1, ?_, ?_, ?_⟩
  · intro job t hjob hst ht
    have hset : Settled s := ⟨job, hjob, (mem_terminalStatuses_iff _).mp hst⟩
    rw [(settled_of_run h ht hset).2, Entry.status?, hjob, Option.map_some]
  · intro job t hjob hc ht
    obtain ⟨job', hjob', hv⟩ := verdict_of_run h ht hjob hc
    simp only [Job.verdict, Prod.mk.injEq] at hv
    exact ⟨job', hjob', hv⟩
  · intro hexit hidle
    rcases hs.leaving (by rw [hexit]; rfl) with ⟨job, hjob, hst⟩ | ⟨c, hc⟩
    · exact ⟨job, hjob, (mem_terminalStatuses_iff _).mpr hst⟩
    · simpa [hc, CancelPc.inProgress] using hidle c

/-- A job cancelled while its worker waits for the lock, up to the answer of the cancel call. -/
def cancelledWaiting : List JobLabel :=
  [.worker (.store .sample) {}, .worker .register {}, .worker (.start true) {},
    .worker .register {}, .worker .load {}, .worker .check {}, .worker (.makeDirs none) {},
    .worker (.removeReport true) {}, .cancel 0 .load {}, .cancel 0 .flag {}, .cancel 0 .mark {},
    .worker .acquireTimeout {}, .worker .check {}, .worker .finish {}, .cancel 0 .poll {},
    .cancel 0 .stop {}, .cancel 0 .unflag {}, .cancel 0 .load {}]

theorem job_lifecycle_cancelledWaiting :
    ∃ s, exec (jobStep .sample) .init cancelledWaiting = some s ∧
      ∃ job, s.entry.memory = some job ∧ job.status ∈ terminalStatuses := by
  refine ⟨_, rfl, ?_⟩
  have h : exec (jobStep .sample) .init cancelledWaiting = some _ := rfl
  refine (job_lifecycle (run_of_exec h)).2.2.2 rfl fun c => ?_
  match c with
  | 0 => rfl
  | _ + 1 => rfl

end Backtest

import Mt5HttpApi.Backtest.Lifecycle

/-!
# When a job is active

`GET /busy` reports a job of this terminal that is queued or running, or whose id is in
`_ACTIVE_WORKERS`. `Tracked` is what holds of a job in every run: its id is in `_ACTIVE_WORKERS`
exactly while its worker's program counter says so, and the job is this terminal's.

`Tracked.dwindles` says that a job whose submission is over never becomes active again.
-/

namespace Backtest

open Transition

variable {S : Setup} {s s' : JobState}

/-- The job is queued or running, or its worker has not finished. -/
def JobState.active (s : JobState) : Bool :=
  s.workerActive || s.entry.memory.any fun job => job.status ∈ activeStatuses

/-- `run_backtest` is between `store_job` and its answer. -/
def WorkerPc.submitting : WorkerPc → Bool
  | .stored | .registered | .startFailed | .updating (.workerStart _) => true
  | _ => false

/-- The job's id is in `_ACTIVE_WORKERS`. -/
def WorkerPc.hasWorker : WorkerPc → Bool
  | .absent | .stored | .updating (.workerStart _) | .exited => false
  | _ => true

/-! ## `_ACTIVE_WORKERS` -/

/-- An exception leaves the id where it is. -/
theorem hasWorker_onRaise {exc : Raised} {d : ℕ} {now : Timestamp} {pc pc' : WorkerPc}
    (h : onRaise exc d now pc = some pc') : pc.hasWorker = true ∧ pc'.hasWorker = true := by
  refine ⟨?_, ?_⟩
  · unfold onRaise at h
    split at h <;> first | rfl | cases h
  · rcases onRaise_handler h with rfl | rfl | rfl | rfl <;> rfl

theorem hasWorker_after (after : After) : after.next.hasWorker = true := by
  cases after <;> rfl

theorem hasWorker_settled (section_ : Section) : section_.settled.hasWorker = true := by
  cases section_ <;> rfl

/-- Worker steps other than these leave `_ACTIVE_WORKERS` alone. -/
theorem effect_workerActive (a : WorkerAct) (r : Reading) : (effect S s a r).workerActive =
    match a with
    | .register => true
    | .unregister | .finish => false
    | _ => s.workerActive := by
  cases a with
  | sawSymbols found => cases found <;> simp only [effect]
  | _ => simp only [effect]

/-- A worker step keeps the set in step with the program counter. -/
theorem hasWorker_control {a : WorkerAct} {r : Reading} {pc : WorkerPc}
    (h : control S s a r = some pc) (hs : s.workerActive = s.pc.hasWorker) :
    (effect S s a r).workerActive = pc.hasWorker := by
  rw [effect_workerActive]
  cases a with
  | raise exc =>
    obtain ⟨hbefore, hafter⟩ := hasWorker_onRaise h
    exact hs.trans (hbefore.trans hafter.symm)
  | updateRaise exc =>
    obtain ⟨site, hpc, hraise⟩ := pc_of_updateRaise h
    obtain ⟨hbefore, hafter⟩ := hasWorker_onRaise hraise
    rw [← hpc] at hbefore
    exact hs.trans (hbefore.trans hafter.symm)
  | update =>
    obtain ⟨site, hpc, rfl⟩ := pc_of_update h
    rw [hpc] at hs
    cases site <;> exact hs
  | release =>
    obtain ⟨after, hpc, rfl⟩ := pc_of_release h
    rw [hpc] at hs
    exact hs.trans (hasWorker_after after).symm
  | settle again =>
    obtain ⟨section_, hpc, rfl⟩ := pc_of_settle h
    rw [hpc] at hs
    cases again
    · exact hs.trans (hasWorker_settled section_).symm
    · exact hs
  | _ =>
    simp only [control] at h
    repeat' split at h
    all_goals simp only [Option.some.injEq, reduceCtorEq] at h
    all_goals subst h
    all_goals simp_all [WorkerPc.hasWorker]

/-- Only `run_backtest` goes where it submits. -/
theorem submitting_control {a : WorkerAct} {r : Reading} {pc : WorkerPc}
    (h : control S s a r = some pc) (hpc : pc.submitting = true) :
    s.pc = .absent ∨ s.pc.submitting = true := by
  cases a with
  | raise exc => rcases onRaise_handler h with rfl | rfl | rfl | rfl <;> cases hpc
  | updateRaise exc =>
    obtain ⟨site, -, hraise⟩ := pc_of_updateRaise h
    rcases onRaise_handler hraise with rfl | rfl | rfl | rfl <;> cases hpc
  | update =>
    obtain ⟨site, -, rfl⟩ := pc_of_update h
    cases site <;> cases hpc
  | release =>
    obtain ⟨after, -, rfl⟩ := pc_of_release h
    cases after <;> cases hpc
  | settle again =>
    obtain ⟨section_, -, rfl⟩ := pc_of_settle h
    cases again <;> cases section_ <;> cases hpc
  | _ =>
    simp only [control] at h
    repeat' split at h
    all_goals simp only [Option.some.injEq, reduceCtorEq] at h
    all_goals subst h
    all_goals simp_all [WorkerPc.submitting]

/-! ## Whose job it is -/

/-- The terminal a job names. -/
def Job.owner (job : Job) : String × String × Option String := (job.broker, job.account, job.inst)

theorem Job.set_owner (job : Job) (c : Change) : (job.set c).owner = job.owner := by
  cases c <;> rfl

/-- No update makes a job another terminal's. -/
theorem Job.update_owner (cs : List Change) (job : Job) : (job.update cs).owner = job.owner := by
  induction cs generalizing job with
  | nil => rfl
  | cons c cs ih => rw [update_cons, ih, set_owner]

/-- `owns_job` looks at the terminal the job names only. -/
theorem ownsJob_congr {me : Identity} {job job' : Job} (h : job.owner = job'.owner) :
    ownsJob me job = ownsJob me job' := by
  simp only [Job.owner, Prod.mk.injEq] at h
  simp only [ownsJob, h.1, h.2.1, h.2.2]

/-- A terminal with an instance owns the jobs it stores. -/
theorem ownsJob_newJob (h : S.me.inst.isSome = true) (sub : Submission) :
    ownsJob S.me (newJob S sub) = true := by
  obtain ⟨i, hi⟩ := Option.isSome_iff_exists.mp h
  simp [ownsJob, newJob, hi]

/-! ## What holds in every run -/

/-- What holds of a job in every run of a terminal with an instance. -/
structure Tracked (S : Setup) (s : JobState) : Prop where
  lifecycle : Lifecycle s
  worker : s.workerActive = s.pc.hasWorker
  owned : ∀ job, s.entry.memory = some job → ownsJob S.me job = true

theorem tracked_init : Tracked S .init where
  lifecycle := lifecycle_init
  worker := rfl
  owned job h := by cases h

/-- Only a worker step moves the worker. -/
theorem jobStep_worker {l : JobLabel} (h : jobStep S s l = some s') :
    (∃ a r, l = .worker a r) ∨ s'.pc = s.pc ∧ s'.workerActive = s.workerActive := by
  cases l with
  | worker a r => exact Or.inl ⟨a, r, rfl⟩
  | cancel c a r =>
    obtain ⟨pc, -, rfl⟩ := cancelStep_iff.mp h
    cases a <;> exact Or.inr ⟨rfl, rfl⟩
  | status r =>
    cases h
    exact Or.inr ⟨rfl, rfl⟩

namespace Tracked

theorem step (hinst : S.me.inst.isSome = true) (hs : Tracked S s) {l : JobLabel}
    (h : jobStep S s l = some s') : Tracked S s' := by
  refine ⟨hs.lifecycle.step h, ?_, ?_⟩
  · rcases jobStep_worker h with ⟨a, r, rfl⟩ | ⟨hpc, hworker⟩
    · obtain ⟨pc, hcontrol, rfl⟩ := workerStep_iff.mp h
      exact hasWorker_control hcontrol hs.worker
    · rw [hpc, hworker, hs.worker]
  · intro job hjob
    have hm := jobStep_memory (fun hn => (hs.lifecycle.absent hn).2.1)
      (fun hn => (hs.lifecycle.absent hn).1) h
    rw [hjob] at hm
    generalize hm' : some job = m at hm
    cases hm with
    | same => exact hs.owned job hm'.symm
    | store sub =>
      obtain rfl := Option.some.inj hm'
      exact ownsJob_newJob hinst sub
    | update site old _ _ hold | cancel c r old _ hold =>
      obtain rfl := Option.some.inj hm'
      rw [ownsJob_congr (old.update_owner _)]
      exact hs.owned old hold

/-- A job that was not submitted is not in memory. -/
theorem memory_eq_none (hs : Tracked S s) (h : s.pc = .absent) : s.entry.memory = none := by
  cases hmem : s.entry.memory with
  | none => rfl
  | some job =>
    have hstatus := hs.lifecycle.status job hmem
    rw [h] at hstatus
    exact absurd hstatus List.not_mem_nil

/-- A job that was not submitted is not active. -/
theorem active_eq_false (hs : Tracked S s) (h : s.pc = .absent) : s.active = false := by
  rw [JobState.active, hs.worker, h, hs.memory_eq_none h]
  rfl

/-- A job with a worker was submitted. -/
theorem pc_ne_absent (hs : Tracked S s) (h : s.workerActive = true) : s.pc ≠ .absent := by
  intro hpc
  rw [hs.worker, hpc] at h
  cases h

/-- Once its submission is over, a job's worker is never there again. -/
theorem workerActive_step (hs : Tracked S s) (hsubmitting : s.pc.submitting = false)
    (habsent : s.pc ≠ .absent) {l : JobLabel} (h : jobStep S s l = some s')
    (hworker : s'.workerActive = true) : s.workerActive = true := by
  rcases jobStep_worker h with ⟨a, r, rfl⟩ | ⟨-, hsame⟩
  · obtain ⟨pc, hcontrol, -⟩ := workerStep_iff.mp h
    rw [hs.worker]
    by_contra hpc
    -- then the worker has exited
    have hexited : s.pc = .exited := by
      revert hpc hsubmitting habsent
      cases hspc : s.pc with
      | updating site => cases site <;> simp [WorkerPc.hasWorker, WorkerPc.submitting]
      | _ => simp [WorkerPc.hasWorker, WorkerPc.submitting]
    rw [control_exited hexited] at hcontrol
    cases hcontrol
  · rw [← hsame]
    exact hworker

/-- Once its submission is over, a job that is not active never is again. -/
theorem active_step (hs : Tracked S s) (hsubmitting : s.pc.submitting = false)
    (habsent : s.pc ≠ .absent) {l : JobLabel}
    (h : jobStep S s l = some s') (hactive : s'.active = true) : s.active = true := by
  by_contra hidle
  rw [JobState.active, Bool.or_eq_true, not_or] at hidle
  obtain ⟨hworker, hstatus⟩ := hidle
  obtain ⟨job, hjob⟩ : ∃ job, s.entry.memory = some job := by
    refine Option.ne_none_iff_exists'.mp fun hnone => habsent ?_
    exact (hs.lifecycle.absent hnone).1
  have hsettled : Settled s := ⟨job, hjob, fun hmem => hstatus (by simp [hjob, hmem])⟩
  obtain ⟨job', hjob', hfinal⟩ := hs.lifecycle.settled_step h hsettled
  rw [JobState.active, Bool.or_eq_true] at hactive
  rcases hactive with hworker' | hstatus'
  · exact hworker (hs.workerActive_step hsubmitting habsent h hworker')
  · rw [hjob', Option.any_some, decide_eq_true_eq] at hstatus'
    exact hfinal hstatus'

/-- A job that is not submitted by the step, or being submitted, does not become active, and its
worker is not there again. -/
theorem dwindles (hinst : S.me.inst.isSome = true) (hs : Tracked S s)
    (hsubmitting : s.pc.submitting = false) (habsent : s.pc = .absent → s'.pc = .absent)
    {l : JobLabel} (h : jobStep S s l = some s') :
    (s'.workerActive = true → s.workerActive = true) ∧ (s'.active = true → s.active = true) := by
  by_cases hpc : s.pc = .absent
  · have hs' : Tracked S s' := hs.step hinst h
    refine ⟨fun hworker => absurd (habsent hpc) (hs'.pc_ne_absent hworker), fun hactive => ?_⟩
    rw [hs'.active_eq_false (habsent hpc)] at hactive
    cases hactive
  · exact ⟨hs.workerActive_step hsubmitting hpc h, hs.active_step hsubmitting hpc h⟩

end Tracked

end Backtest

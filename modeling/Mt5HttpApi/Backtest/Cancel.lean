import Mt5HttpApi.Backtest.Lifecycle

/-!
# Does a cancel stick?

A cancelled job must not be launched. The worker does not look at the job's status for this: it
looks at the cancel flag `_CANCELLED`, a last time right before the launch. Two things can come
between the status and that check.

* A cancel call that finds the job already marked drops the flag again. It cannot tell a job that
  finished from one that another cancel call has just marked, whose worker still waits. A call that
  finds no worker drops it too, also when the worker has not registered yet.
* The mark can fall between the last check and the launch.

`FlagKept` is the condition that neither happens, and `cancel_sticky` says that then a cancelled
job is never launched. `not_cancel_sticky` is the run in which a second call drops the flag.
-/

namespace Backtest

open Transition

variable {S : Setup} {s s' t : JobState}

/-- The job's status is `cancelled`. -/
def JobState.cancelled (s : JobState) : Prop :=
  s.entry.status? = some .cancelled

instance : Decidable s.cancelled := inferInstanceAs (Decidable (_ = _))

/-- The worker has yet to make its last check before the launch. -/
def checkAhead : WorkerPc → Bool
  | .absent | .stored | .registered | .begun | .entered | .firstCheck | .makingDirs
  | .removingReport | .waitingLock | .waitCheck | .settingHolder .run | .locked
  | .updating (.running _) | .staging | .lastCheck => true
  | _ => false

/-- The step does not lose a cancel: it drops no flag of a cancelled job whose worker has its last
check ahead, and it marks no active job whose worker is past that check and about to launch. -/
def FlagKept (s : JobState) : JobLabel → Prop
  | .cancel _ .unflag _ => s.cancelled → checkAhead s.pc = false
  | .cancel _ .mark _ => s.pc = .launching → Settled s
  | _ => True

instance : Decidable (Settled s) :=
  decidable_of_iff (s.entry.memory.any fun job => job.status ∉ activeStatuses) <| by
    simp [Settled, Option.any_eq_true]

instance {l : JobLabel} : Decidable (FlagKept s l) :=
  match l with
  | .cancel _ .unflag _ => inferInstanceAs (Decidable (s.cancelled → checkAhead s.pc = false))
  | .cancel _ .mark _ => inferInstanceAs (Decidable (s.pc = .launching → Settled s))
  | .worker _ _ | .status _ | .cancel _ .load _ | .cancel _ .flag _ | .cancel _ .poll _
  | .cancel _ .expire _ | .cancel _ (.sawHolder _ _) _ | .cancel _ (.list _) _
  | .cancel _ .signal _ | .cancel _ .stop _ | .cancel _ .die _ => isTrue trivial

/-! ## The worker's way to the launch -/

/-- An exception leads away from the launch. -/
theorem not_checkAhead_onRaise {exc : Raised} {d : ℕ} {now : Timestamp} {pc pc' : WorkerPc}
    (h : onRaise exc d now pc = some pc') : checkAhead pc' = false ∧ pc' ≠ .launching := by
  rcases onRaise_handler h with rfl | rfl | rfl | rfl <;> simp [checkAhead]

/-- The worker comes to a place before its last check from such places only. -/
theorem checkAhead_control {a : WorkerAct} {r : Reading} {pc : WorkerPc}
    (h : control S s a r = some pc) (hpc : checkAhead pc = true) : checkAhead s.pc = true := by
  revert hpc
  cases a with
  | raise exc => simp [(not_checkAhead_onRaise h).1]
  | updateRaise exc =>
    obtain ⟨site, -, hraise⟩ := pc_of_updateRaise h
    simp [(not_checkAhead_onRaise hraise).1]
  | update =>
    obtain ⟨site, hsite, rfl⟩ := pc_of_update h
    rw [hsite]
    cases site <;> simp [UpdateSite.next, checkAhead]
  | release =>
    obtain ⟨after, -, rfl⟩ := pc_of_release h
    cases after <;> simp [After.next, checkAhead]
  | settle again =>
    obtain ⟨section_, -, rfl⟩ := pc_of_settle h
    cases again <;> cases section_ <;> simp [Section.settled, checkAhead]
  | _ =>
    simp only [control] at h
    repeat' split at h
    all_goals simp only [Option.some.injEq, reduceCtorEq] at h
    all_goals subst h
    all_goals simp [*, checkAhead]

/-- The worker comes to the launch from its last check, when that found no flag. -/
theorem control_launching {a : WorkerAct} {r : Reading}
    (h : control S s a r = some .launching) : s.pc = .lastCheck ∧ s.cancelRequested = false := by
  cases a with
  | raise exc => exact absurd rfl (not_checkAhead_onRaise h).2
  | updateRaise exc =>
    obtain ⟨site, -, hraise⟩ := pc_of_updateRaise h
    exact absurd rfl (not_checkAhead_onRaise hraise).2
  | update =>
    obtain ⟨site, -, hsite⟩ := pc_of_update h
    cases site <;> cases hsite
  | release =>
    obtain ⟨after, -, hafter⟩ := pc_of_release h
    cases after <;> cases hafter
  | settle again =>
    obtain ⟨section_, -, hsection⟩ := pc_of_settle h
    cases again <;> cases section_ <;> cases hsection
  | check =>
    simp only [control] at h
    split at h
    all_goals simp only [Option.some.injEq, reduceCtorEq] at h
    all_goals split at h
    all_goals simp_all
  | _ =>
    simp only [control] at h
    repeat' split at h
    all_goals simp only [Option.some.injEq, reduceCtorEq] at h

/-- Only the launch step launches. -/
theorem effect_launched {a : WorkerAct} {r : Reading}
    (h : (effect S s a r).launched = true) : s.launched = true ∨ a = .launch := by
  unfold effect at h
  split at h <;> first | exact Or.inr rfl | exact Or.inl h

/-- The flag is dropped by the worker at its exit only. -/
theorem effect_flag_kept {a : WorkerAct} {r : Reading} (h : s.cancelRequested = true) :
    (effect S s a r).cancelRequested = true ∨ a = .finish := by
  unfold effect
  split <;> first | exact Or.inr rfl | exact Or.inl h

/-! ## Where a cancelled status comes from -/

/-- No worker step makes a job cancelled. -/
theorem Lifecycle.cancelled_of_worker (hs : Lifecycle s) {a : WorkerAct} {r : Reading}
    (h : jobStep S s (.worker a r) = some s') (hc : s'.cancelled) : s.cancelled := by
  have hmem := jobStep_memory (fun hn => (hs.absent hn).2.1) (fun hn => (hs.absent hn).1) h
  unfold JobState.cancelled Entry.status? at hc ⊢
  generalize s'.entry.memory = m at hmem hc
  cases hmem with
  | same => exact hc
  | store sub r' => simp [newJob] at hc
  | update site job _ _ hjob =>
    rw [Option.map_some, status_update] at hc
    rw [hjob, Option.map_some]
    split at hc
    next hst => rw [hst]
    next hst => cases site <;> simp_all [UpdateSite.status?]
  | cancel c r' job hl => cases hl

/-- A cancel call makes a job cancelled by its mark on an active job. -/
theorem Lifecycle.cancelled_of_cancel (hs : Lifecycle s) {c : ℕ} {a : CancelAct} {r : Reading}
    (h : jobStep S s (.cancel c a r) = some s') (hc : s'.cancelled) :
    s.cancelled ∨ a = .mark ∧ ¬ Settled s := by
  have hmem := jobStep_memory (fun hn => (hs.absent hn).2.1) (fun hn => (hs.absent hn).1) h
  unfold JobState.cancelled Entry.status? at hc ⊢
  generalize s'.entry.memory = m at hmem hc
  cases hmem with
  | same => exact Or.inl hc
  | store sub r' hl => cases hl
  | update site job hu => cases hu
  | cancel d r' job hl hjob hactive =>
    cases hl
    refine Or.inr ⟨rfl, ?_⟩
    rintro ⟨job', hjob', hst⟩
    cases hjob.symm.trans hjob'
    exact hst hactive

/-! ## The invariant -/

/-- What holds while no cancel is lost. -/
structure CancelHeld (s : JobState) : Prop where
  /-- The worker of a cancelled job finds the flag at its last check. -/
  flag : s.cancelled → checkAhead s.pc = true → s.cancelRequested = true
  /-- A cancelled job is not about to be launched. -/
  window : s.cancelled → s.pc ≠ .launching
  /-- A call that is about to mark an active job still has its flag, unless the worker has left. -/
  marking : ∀ c, s.calls c = .marking → s.cancelRequested = true ∨ Settled s ∨ s.pc = .exited

theorem cancelHeld_init : CancelHeld .init where
  flag h := by cases h
  window h := by cases h
  marking c h := by cases h

/-- A worker step keeps it: the flag is dropped at the exit only, and the last check sees it. -/
theorem CancelHeld.worker_step (hP : CancelHeld s) (hs : Lifecycle s) {a : WorkerAct}
    {r : Reading} (h : jobStep S s (.worker a r) = some s') : CancelHeld s' := by
  have hcancelled : s'.cancelled → s.cancelled := hs.cancelled_of_worker h
  have hset : Settled s → Settled s' := hs.settled_step h
  obtain ⟨pc, hc, rfl⟩ := workerStep_iff.mp h
  have hfinish : a = .finish → pc = .exited := by
    rintro rfl
    simp only [control, Option.ite_none_right_eq_some, Option.some.injEq] at hc
    exact hc.2.symm
  refine ⟨fun hcan hahead => ?_, ?_, fun c hm => ?_⟩
  · have hflag := hP.flag (hcancelled hcan) (checkAhead_control hc hahead)
    rcases effect_flag_kept hflag with hkept | hlast
    · exact hkept
    · simp [hfinish hlast, checkAhead] at hahead
  · rintro hcan rfl
    obtain ⟨hpc, hflag⟩ := control_launching hc
    simp [hP.flag (hcancelled hcan) (by rw [hpc]; rfl)] at hflag
  · rcases hP.marking c (by simpa using hm) with hflag | hsettled | hexit
    · rcases effect_flag_kept hflag with hkept | hlast
      · exact Or.inl hkept
      · exact Or.inr (Or.inr (hfinish hlast))
    · exact Or.inr (Or.inl (hset hsettled))
    · rw [control_exited hexit] at hc
      cases hc

/-- A step of a cancel call keeps it, when it loses no cancel. -/
theorem CancelHeld.cancel_step (hP : CancelHeld s) (hs : Lifecycle s) {c : ℕ} {a : CancelAct}
    {r : Reading} (hok : FlagKept s (.cancel c a r))
    (h : jobStep S s (.cancel c a r) = some s') : CancelHeld s' := by
  have hcancelled : s'.cancelled → s.cancelled ∨ a = .mark ∧ ¬ Settled s :=
    hs.cancelled_of_cancel h
  have hset : Settled s → Settled s' := hs.settled_step h
  obtain ⟨pc, hc, hs'⟩ := cancelStep_iff.mp h
  have hpc' : s'.pc = s.pc := by rw [hs']; cases a <;> rfl
  have hcalls : s'.calls = Function.update s.calls c pc := by rw [hs']
  have hflag : s.cancelRequested = true → a ≠ .unflag → s'.cancelRequested = true := by
    intro hf hne
    rw [hs']
    cases a <;> first | exact hf | rfl | exact absurd rfl hne
  have hmark : a = .mark → s.calls c = .marking := by
    rintro rfl
    simp only [cancelControl, Option.ite_none_right_eq_some] at hc
    exact hc.1
  refine ⟨fun hcan hahead => ?_, fun hcan => ?_, fun d hm => ?_⟩
  · rw [hpc'] at hahead
    rcases hcancelled hcan with hold | ⟨rfl, hactive⟩
    · refine hflag (hP.flag hold hahead) ?_
      rintro rfl
      simp [hok hold] at hahead
    · -- the mark that made the job cancelled: this call's own flag is still there
      rcases hP.marking c (hmark rfl) with hf | hsettled | hexit
      · exact hflag hf (by simp)
      · exact absurd hsettled hactive
      · simp [hexit, checkAhead] at hahead
  · rw [hpc']
    rcases hcancelled hcan with hold | ⟨rfl, hactive⟩
    · exact hP.window hold
    · exact fun hpc => hactive (hok hpc)
  · rw [hcalls] at hm
    rcases eq_or_ne d c with rfl | hne
    · rw [Function.update_self] at hm
      subst hm
      cases a with
      | flag => exact Or.inl (by rw [hs']; rfl)
      | _ =>
        simp only [cancelControl] at hc
        repeat' split at hc
        all_goals simp only [Option.some.injEq, reduceCtorEq] at hc
    · rw [Function.update_of_ne hne] at hm
      rcases hP.marking d hm with hf | hsettled | hexit
      · by_cases ha : a = .unflag
        · -- the flag a call drops is that of a job whose status is final
          subst ha
          have hun : s.calls c = .unflagging := by
            simp only [cancelControl, Option.ite_none_right_eq_some] at hc
            exact hc.1
          exact Or.inr (Or.inl (hset (hs.marked c (by rw [hun]; rfl))))
        · exact Or.inl (hflag hf ha)
      · exact Or.inr (Or.inl (hset hsettled))
      · exact Or.inr (Or.inr (hpc'.trans hexit))

/-- Every step that loses no cancel keeps it. -/
theorem CancelHeld.step (hP : CancelHeld s) (hs : Lifecycle s) {l : JobLabel}
    (hok : FlagKept s l) (h : jobStep S s l = some s') : CancelHeld s' := by
  cases l with
  | worker a r => exact hP.worker_step hs h
  | cancel c a r => exact hP.cancel_step hs hok h
  | status r =>
    have hset : Settled s → Settled s' := hs.settled_step h
    cases h
    have hload := (loadJob_memory (fun hn => (hs.absent hn).2.1) r.saved).1
    have hcan : ∀ e : Entry, e.memory = s.entry.memory → e.status? = s.entry.status? :=
      fun e he => by rw [Entry.status?, he, Entry.status?]
    refine ⟨fun hc => hP.flag ((hcan _ hload).symm.trans hc),
      fun hc => hP.window ((hcan _ hload).symm.trans hc), fun c hm => ?_⟩
    rcases hP.marking c hm with hf | hsettled | hexit
    · exact Or.inl hf
    · exact Or.inr (Or.inl (hset hsettled))
    · exact Or.inr (Or.inr hexit)

theorem cancelHeld_of_run (h : RunOf (jobStep S) FlagKept .init s) : CancelHeld s :=
  h.invariant_of (fun _ ht => lifecycle_of_run ht.run)
    (fun _ _ _ hl _ hP hok hstep => hP.step hl hok hstep) cancelHeld_init

/-! ## Cancelled jobs and launches -/

/-- Once a job is cancelled before its worker has launched the terminal, it is never launched. -/
def CancelSticky (S : Setup) (ok : JobState → JobLabel → Prop) : Prop :=
  ∀ s t, RunOf (jobStep S) ok .init s → s.cancelled → s.launched = false →
    RunOf (jobStep S) ok s t → t.launched = false

/-- A step that loses no cancel does not launch a cancelled job. -/
theorem CancelHeld.launched_step (hP : CancelHeld s) (hc : s.cancelled)
    (hl : s.launched = false) {l : JobLabel} (h : jobStep S s l = some s') :
    s'.launched = false := by
  cases l with
  | worker a r =>
    obtain ⟨pc, hpc, rfl⟩ := workerStep_iff.mp h
    refine Bool.eq_false_iff.mpr fun hlaunched => ?_
    rcases effect_launched hlaunched with hold | rfl
    · simp [hl] at hold
    · simp only [control, Option.ite_none_right_eq_some] at hpc
      exact hP.window hc hpc.1
  | cancel c a r =>
    obtain ⟨pc, -, rfl⟩ := cancelStep_iff.mp h
    cases a <;> exact hl
  | status r =>
    cases h
    exact hl

/-- Over every interleaving of a job's submission, its worker and any number of cancel calls in
which no step loses a cancel: a job that is cancelled before the launch is never launched. -/
theorem cancel_sticky : CancelSticky S FlagKept := by
  intro s t hs hc hl ht
  have hlife : ∀ u, RunOf (jobStep S) FlagKept s u → Lifecycle u ∧ CancelHeld u :=
    fun u hu => ⟨lifecycle_of_run (hs.trans hu).run, cancelHeld_of_run (hs.trans hu)⟩
  refine (ht.invariant_of (P := fun u => u.cancelled ∧ u.launched = false) hlife ?_ ⟨hc, hl⟩).2
  rintro u l v ⟨hu, hheld⟩ - ⟨huc, hul⟩ - hstep
  refine ⟨?_, hheld.launched_step huc hul hstep⟩
  have hmove := (hu.record_step hstep).1
  rw [JobState.cancelled] at huc ⊢
  rw [huc] at hmove
  exact hmove.final (by decide)

theorem cancel_sticky_cancelledWaiting :
    ∃ s : JobState, s.cancelled ∧
      ∀ t, RunOf (jobStep .sample) FlagKept s t → t.launched = false := by
  obtain ⟨s, hs, hp⟩ := exists_runOf_of_execOf (fun s l => decide (FlagKept s l))
    (fun _ _ => of_decide_eq_true) (p := fun s => decide s.cancelled && !s.launched)
    (show (execOf (jobStep .sample) _ .init cancelledWaiting).any _ = true by decide)
  simp only [Bool.and_eq_true, decide_eq_true_eq, Bool.not_eq_true'] at hp
  exact ⟨s, hp.1, fun t ht => cancel_sticky s t hs hp.1 hp.2 ht⟩

/-- Two cancel calls that both find the job active. The second marks nothing and drops the flag,
and the worker, still waiting for the lock, is not stopped. -/
def overlappingCancels : List JobLabel :=
  [.worker (.store .sample) {}, .worker .register {}, .worker (.start true) {},
    .worker .register {}, .worker .load {}, .worker .check {}, .worker (.makeDirs none) {},
    .worker (.removeReport true) {}, .cancel 0 .load {}, .cancel 1 .load {}, .cancel 0 .flag {},
    .cancel 0 .mark {}, .cancel 1 .flag {}, .cancel 1 .mark {}, .cancel 1 .unflag {}]

/-- The worker's steps from there to the launch. -/
def launchAfterwards : List JobLabel :=
  [.worker .acquire {}, .worker .setHolder {}, .worker .check {}, .worker .update {},
    .worker .stage {}, .worker .check {}, .worker .launch {}]

/-- Without the condition a cancelled job can be launched. -/
theorem not_cancel_sticky : ¬ CancelSticky .sample fun _ _ => True := by
  intro h
  obtain ⟨s, hs, hp⟩ := (Option.any_eq_true _ _).mp (show (exec (jobStep .sample) .init
    overlappingCancels).any (fun s => decide s.cancelled && !s.launched &&
      (exec (jobStep .sample) s launchAfterwards).any fun t => t.launched) = true by decide)
  simp only [Bool.and_eq_true, decide_eq_true_eq, Bool.not_eq_true'] at hp
  obtain ⟨⟨hc, hl⟩, ht⟩ := hp
  obtain ⟨t, hrun, hlaunched⟩ := exists_run_of_exec ht
  simp [h s t (run_of_exec hs) hc hl hrun] at hlaunched

end Backtest

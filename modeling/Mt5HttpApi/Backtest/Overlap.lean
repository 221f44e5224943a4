import Mt5HttpApi.Backtest.RunLock

/-!
# Do the runs of one terminal overlap?

A worker holds `RUN_LOCK` while the process it started runs. It gives the lock back before it
judges the run, and when MT5 restarts itself for a LiveUpdate, the run goes on after that. So the
next worker can take the lock and launch while an earlier one still waits for its replacement
terminal (`not_noOverlap`), and `_terminal_process_alive` then takes the one for the other.

`TakesFreeTerminal` is the condition that a worker takes the lock only when no other one is between
its launch and its verdict. `noOverlap` says that then runs do not overlap.
-/

namespace Backtest

open Transition

variable {S : Setup} {w w' : World}

/-- The worker has launched the terminal and has not left `_run_job` yet, with its verdict. -/
def JobState.inRun (s : JobState) : Bool :=
  s.launched && s.pc != .finishing && s.pc != .exited

/-- The worker holds the lock and has its launch ahead. -/
def launchAhead : WorkerPc → Bool
  | .settingHolder .run | .locked | .updating (.running _) | .staging | .lastCheck
  | .launching => true
  | _ => false

/-- A worker that takes the lock for its run takes a terminal whose last run has its verdict. -/
def TakesFreeTerminal (w : World) : WorldLabel → Prop
  | .part k (.worker .acquire _) =>
    (w.parts k).pc = .waitingLock → ∀ j, j ≠ k → (w.parts j).inRun = false
  | _ => True

/-- Along runs whose steps meet `ok`: no worker launches the terminal while another one is between
its launch and its verdict, and the running terminal that `_await_self_relaunch` sees is not one
that another job's worker launched. -/
def NoOverlap (S : Setup) (ok : World → WorldLabel → Prop) : Prop :=
  ∀ w, RunOf (worldStep S) ok .init w →
    (∀ j k r w', worldStep S w (.part k (.worker .launch r)) = some w' → j ≠ k →
      (w.parts j).inRun = false) ∧
    (∀ j r w', worldStep S w (.part j (.worker (.sawAlive true) r)) = some w' →
      ∀ proc ∈ w.shared.procs, proc.running = true → proc.image = .terminal →
        proc.direct = true → proc.origin = j)

theorem not_launchAhead_onRaise {exc : Raised} {d : ℕ} {now : Timestamp} {pc pc' : WorkerPc}
    (h : onRaise exc d now pc = some pc') : launchAhead pc' = false := by
  rcases onRaise_handler h with rfl | rfl | rfl | rfl <;> rfl

/-- A worker comes to hold the lock before its launch by taking it for its run. -/
theorem launchAhead_control {s : JobState} {a : WorkerAct} {r : Reading} {pc : WorkerPc}
    (h : control S s a r = some pc) (hpc : launchAhead pc = true) :
    launchAhead s.pc = true ∨ a = .acquire ∧ s.pc = .waitingLock := by
  revert hpc
  cases a with
  | raise exc => simp [not_launchAhead_onRaise h]
  | updateRaise exc =>
    obtain ⟨site, -, hraise⟩ := pc_of_updateRaise h
    simp [not_launchAhead_onRaise hraise]
  | update =>
    obtain ⟨site, hsite, rfl⟩ := pc_of_update h
    rw [hsite]
    cases site <;> simp [UpdateSite.next, launchAhead]
  | release =>
    obtain ⟨after, -, rfl⟩ := pc_of_release h
    cases after <;> simp [After.next, launchAhead]
  | settle again =>
    obtain ⟨section_, -, rfl⟩ := pc_of_settle h
    cases again <;> cases section_ <;> simp [Section.settled, launchAhead]
  | _ =>
    simp only [control] at h
    repeat' split at h
    all_goals simp only [Option.some.injEq, reduceCtorEq] at h
    all_goals subst h
    all_goals simp [*, launchAhead]

theorem holdsLock_of_launchAhead {pc : WorkerPc} (h : launchAhead pc = true) :
    holdsLock pc = true := by
  unfold launchAhead at h
  split at h <;> first | rfl | cases h

/-- A job is in its run from its launch on. -/
theorem inRun_step {s s' : JobState} {l : JobLabel} (h : jobStep S s l = some s')
    (hs' : s'.inRun = true) :
    s.inRun = true ∨ (∃ r, l = .worker .launch r) ∧ s.pc = .launching := by
  simp only [JobState.inRun, Bool.and_eq_true, bne_iff_ne, ne_eq] at hs' ⊢
  obtain ⟨⟨hlaunched, hfinishing⟩, hexited⟩ := hs'
  cases l with
  | worker a r =>
    obtain ⟨pc, hc, rfl⟩ := workerStep_iff.mp h
    have hleft : s.pc ≠ .finishing ∧ s.pc ≠ .exited := by
      refine ⟨fun hpc => ?_, fun hpc => ?_⟩
      · cases a <;> simp [control, hpc, onRaise] at hc
        exact hexited hc.symm
      · cases a <;> simp [control, hpc, onRaise] at hc
    have hlaunch : s.launched = true ∨ a = .launch := by
      unfold effect at hlaunched
      split at hlaunched <;> first | exact Or.inr rfl | exact Or.inl hlaunched
    rcases hlaunch with hold | rfl
    · exact Or.inl ⟨⟨hold, hleft.1⟩, hleft.2⟩
    · simp only [control, Option.ite_none_right_eq_some] at hc
      exact Or.inr ⟨⟨r, rfl⟩, hc.1⟩
  | cancel c a r =>
    have hpc := pc_of_not_worker h (by simp)
    rw [hpc] at hfinishing hexited
    obtain ⟨pc, -, rfl⟩ := cancelStep_iff.mp h
    refine Or.inl ⟨⟨?_, hfinishing⟩, hexited⟩
    cases a <;> exact hlaunched
  | status r =>
    cases h
    exact Or.inl ⟨⟨hlaunched, hfinishing⟩, hexited⟩

/-- While a job is in its run, no other one is, or is about to be. -/
def Exclusive (w : World) : Prop :=
  ∀ j k, j ≠ k → (w.parts j).inRun = true →
    launchAhead (w.parts k).pc = false ∧ (w.parts k).inRun = false

theorem Exclusive.step (hw : Exclusive w) (hrun : Run (worldStep S) .init w) {m : WorldLabel}
    (hok : TakesFreeTerminal w m) (h : worldStep S w m = some w') : Exclusive w' := by
  intro j k hjk hj
  by_cases hold : (w.parts j).inRun = true
  · -- `j` was in its run already: `k` cannot have come in by this step
    obtain ⟨hahead, hin⟩ := hw j k hjk hold
    rcases worldStep_cases h k with ⟨l, rfl, hl⟩ | ⟨-, hsame⟩
    · refine ⟨Bool.eq_false_iff.mpr fun hahead' => ?_, Bool.eq_false_iff.mpr fun hin' => ?_⟩
      · cases l with
        | worker a r =>
          obtain ⟨pc, hc, hs'⟩ := workerStep_iff.mp hl
          rw [hs'] at hahead'
          rcases launchAhead_control hc hahead' with hk | ⟨rfl, hk⟩
          · simp [hk] at hahead
          · simp [hok hk j hjk] at hold
        | cancel c a r =>
          rw [pc_of_not_worker hl (by simp), hahead] at hahead'
          cases hahead'
        | status r =>
          rw [pc_of_not_worker hl (by simp), hahead] at hahead'
          cases hahead'
      · rcases inRun_step hl hin' with hk | ⟨-, hk⟩
        · simp [hk] at hin
        · simp [hk, launchAhead] at hahead
    · rw [hsame]
      exact ⟨hahead, hin⟩
  · -- `j` has just launched: it holds the lock, so `k` does not
    rcases worldStep_cases h j with ⟨l, rfl, hl⟩ | ⟨-, hsame⟩
    · obtain ⟨-, hpc⟩ := (inRun_step hl hj).resolve_left hold
      rw [(worldStep_part h).2.1 k hjk.symm]
      refine ⟨Bool.eq_false_iff.mpr fun hahead => hjk ?_, Bool.eq_false_iff.mpr fun hin => ?_⟩
      · exact holdsLock_unique hrun (by rw [hpc]; rfl) (holdsLock_of_launchAhead hahead)
      · have := (hw k j hjk.symm hin).1
        simp [hpc, launchAhead] at this
    · rw [hsame] at hj
      exact absurd hj hold

theorem exclusive_of_run (h : RunOf (worldStep S) TakesFreeTerminal .init w) : Exclusive w :=
  h.invariant_of (fun _ ht => ht.run)
    (fun _ _ _ hrun _ hP hok hstep => hP.step hrun hok hstep) fun j k _ hj => by
      simp [World.init, JobState.init, JobState.inRun] at hj

/-- A job alone on its terminal, up to its launch. -/
def aloneUntilLaunching : List WorldLabel :=
  work 0 (untilWaiting .sample ++ untilLaunching)

/-- The terminal of job 0 hands over to the updater and exits at once. Its worker gives back the
lock and waits for the replacement, and job 1 gets as far as its launch. -/
def launchDuringRelaunchWait : List WorldLabel :=
  work 0 (untilWaiting .sample ++ untilLaunching ++ [.launch]) ++
    [.env (.spawnUpdater 0), .env (.exit 0 0)] ++
    work 0 (untilJudging ++ [.measure "", .sawReports false, .check]) ++
    work 1 (untilWaiting .sample ++ untilLaunching)

end Backtest

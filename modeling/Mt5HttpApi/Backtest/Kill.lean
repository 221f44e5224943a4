import Mt5HttpApi.Backtest.RunLock

/-!
# Whose terminal does a cancel kill?

`kill_terminal_processes` stops every tester process of the directory. A worker calls it inside
`RUN_LOCK`, so what it finds is its own. A cancel call looks at `_LOCK_HOLDER` first, but between
that look and the listing the job's worker can give back the lock and the next one launch: the
call then kills the other job's terminal (`not_noForeignKill`).

`ListsOwnRun` is the condition that a cancel call lists the processes while no other worker has a
terminal running, and `noForeignKill` says that then no job's terminal is signalled for another.
-/

namespace Backtest

open Transition

variable {S : Setup} {w w' : World}

/-- A cancel call lists the processes while no other job's worker is in `subprocess.run`. -/
def ListsOwnRun (w : World) : WorldLabel → Prop
  | .part j (.cancel _ (.list _) _) => ∀ k, k ≠ j → (w.parts k).pc ≠ .watching
  | _ => True

/-- Along runs whose steps meet `ok`: a signal that job `j`'s worker or one of its cancel calls sent
to a terminal that a worker launched went to the terminal that `j`'s worker launched. -/
def NoForeignKill (S : Setup) (ok : World → WorldLabel → Prop) : Prop :=
  ∀ w, RunOf (worldStep S) ok .init w → ∀ j p, (j, p) ∈ w.shared.signals →
    ∀ proc, w.shared.procs[p]? = some proc → proc.image = .terminal → proc.direct = true →
      proc.origin = j

/-- The process `p` is not a terminal that another job's worker launched. -/
def Spares (w : World) (j : JobId) (p : ProcId) : Prop :=
  ∃ proc, w.shared.procs[p]? = some proc ∧
    (proc.image = .terminal → proc.direct = true → proc.origin = j)

/-- What a process is does not change. -/
theorem Spares.step {j : JobId} {p : ProcId} (hw : Spares w j p) {m : WorldLabel}
    (h : worldStep S w m = some w') : Spares w' j p := by
  obtain ⟨proc, hp, hown⟩ := hw
  obtain ⟨proc', hp', hlater⟩ := procs_later h hp
  refine ⟨proc', hp', ?_⟩
  rw [hlater.image, hlater.direct, hlater.origin]
  exact hown

/-- While no other worker watches a terminal, what runs is not another worker's terminal. -/
theorem spares_of_running (hw : Watched w) {j : JobId}
    (hj : ∀ k, k ≠ j → (w.parts k).pc ≠ .watching) {p : ProcId} (hp : p ∈ w.shared.running) :
    Spares w j p := by
  obtain ⟨proc, hproc, hrun⟩ := mem_running hp
  refine ⟨proc, hproc, fun _ hdirect => ?_⟩
  by_contra hne
  exact hj _ hne (hw p proc hproc hdirect hrun)

/-- A worker's victims are those it has listed inside `RUN_LOCK`. -/
theorem victims_control {s : JobState} {a : WorkerAct} {r : Reading} {pc : WorkerPc}
    (h : control S s a r = some pc) {p : ProcId} (hp : p ∈ pc.victims) :
    holdsLock s.pc = true ∧ ∃ victims, a = .list victims ∧ p ∈ victims := by
  revert hp
  cases a with
  | list victims =>
    simp only [control] at h
    split at h <;> simp only [Option.some.injEq, reduceCtorEq] at h <;> subst h
    all_goals simp [*, WorkerPc.victims, holdsLock]
  | raise exc => rcases onRaise_handler h with rfl | rfl | rfl | rfl <;> simp [WorkerPc.victims]
  | updateRaise exc =>
    obtain ⟨site, -, hraise⟩ := pc_of_updateRaise h
    rcases onRaise_handler hraise with rfl | rfl | rfl | rfl <;> simp [WorkerPc.victims]
  | update =>
    obtain ⟨site, -, rfl⟩ := pc_of_update h
    cases site <;> simp [UpdateSite.next, WorkerPc.victims]
  | release =>
    obtain ⟨after, -, rfl⟩ := pc_of_release h
    cases after <;> simp [After.next, WorkerPc.victims]
  | settle again =>
    obtain ⟨section_, -, rfl⟩ := pc_of_settle h
    cases again <;> cases section_ <;> simp [Section.settled, WorkerPc.victims]
  | _ =>
    simp only [control] at h
    repeat' split at h
    all_goals simp only [Option.some.injEq, reduceCtorEq] at h
    all_goals subst h
    all_goals simp [WorkerPc.victims]

/-- A cancel call's victims are those it has listed. -/
theorem victims_cancelControl {s : JobState} {c : ℕ} {a : CancelAct} {r : Reading}
    {pc : CancelPc} (h : cancelControl S s c a r = some pc) {p : ProcId} (hp : p ∈ pc.victims) :
    ∃ victims, a = .list victims ∧ p ∈ victims := by
  revert hp
  cases a with
  | list victims =>
    simp only [cancelControl, Option.ite_none_right_eq_some, Option.some.injEq] at h
    simp [← h.2, CancelPc.victims]
  | _ =>
    simp only [cancelControl] at h
    repeat' split at h
    all_goals simp only [Option.some.injEq, reduceCtorEq] at h
    all_goals subst h
    all_goals simp [CancelPc.victims]

/-- Where a job's step sends a signal: to its own victims, or to an updater before a launch. -/
theorem mem_signals_touch {T : Terminal} {j i : JobId} {s : JobState} {l : JobLabel}
    {p : ProcId} (h : (i, p) ∈ (touch S T j s l).signals) :
    (i, p) ∈ T.signals ∨ i = j ∧ (p ∈ s.pc.victims ∨ (∃ c, p ∈ (s.calls c).victims) ∨
      ∃ proc, T.procs[p]? = some proc ∧ proc.image = .updater) := by
  have hsignal : ∀ victims, (i, p) ∈ (T.signal j victims).signals →
      (i, p) ∈ T.signals ∨ i = j ∧ p ∈ victims := by
    intro victims hmem
    simp only [Terminal.signal, List.mem_append, List.mem_map, List.mem_filter,
      Prod.mk.injEq] at hmem
    obtain hold | ⟨q, ⟨hq, -⟩, rfl, rfl⟩ := hmem
    · exact Or.inl hold
    · exact Or.inr ⟨rfl, hq⟩
  cases l with
  | worker a r =>
    cases a with
    | stage =>
      refine (hsignal _ h).imp_right (And.imp_right fun hp => Or.inr (Or.inr ?_))
      obtain ⟨proc, hproc⟩ := Option.isSome_iff_exists.mp (List.mem_filter.mp hp).2
      obtain ⟨hmem, himage⟩ := Option.filter_eq_some_iff.mp hproc
      exact ⟨proc, hmem, by simpa using (of_decide_eq_true himage).2⟩
    | signal => exact (hsignal _ h).imp_right (And.imp_right Or.inl)
    | removeReport removed => cases removed <;> exact Or.inl h
    | raise exc =>
      simp only [touch] at h
      split at h <;> exact Or.inl h
    | _ => exact Or.inl h
  | cancel c a r =>
    cases a with
    | signal =>
      exact (hsignal _ h).imp_right (And.imp_right fun hp => Or.inr (Or.inl ⟨c, hp⟩))
    | _ => exact Or.inl h
  | status r => exact Or.inl h

/-- MT5 sends no signal. -/
theorem env_signals {T T' : Terminal} {e : EnvAct} (h : env S T e = some T') :
    T'.signals = T.signals := by
  cases e with
  | tick => cases h; rfl
  | _ =>
    obtain ⟨proc, -, rfl⟩ := Option.map_eq_some_iff.mp h
    rfl

/-- Nobody is about to signal, or has signalled, a terminal that another job's worker launched. -/
structure KillsOwn (w : World) : Prop where
  worker : ∀ j, ∀ p ∈ (w.parts j).pc.victims, Spares w j p
  calls : ∀ j c, ∀ p ∈ ((w.parts j).calls c).victims, Spares w j p
  signals : ∀ j p, (j, p) ∈ w.shared.signals → Spares w j p

theorem killsOwn_init : KillsOwn .init where
  worker j p hp := by simp [World.init, JobState.init, WorkerPc.victims] at hp
  calls j c p hp := by simp [World.init, JobState.init, CancelPc.victims] at hp
  signals j p hp := by simp [World.init, Terminal.init] at hp

/-- What a worker lists is not another worker's terminal: it holds `RUN_LOCK`. -/
theorem spares_of_worker_list (hrun : Run (worldStep S) .init w) {j : JobId}
    (hj : holdsLock (w.parts j).pc = true) {p : ProcId} (hp : p ∈ w.shared.running) :
    Spares w j p := by
  refine spares_of_running (watched_of_run hrun) (fun k hk hpc => hk ?_) hp
  exact holdsLock_unique hrun (by rw [hpc]; rfl) hj

theorem KillsOwn.step (hw : KillsOwn w) (hrun : Run (worldStep S) .init w) {m : WorldLabel}
    (hok : ListsOwnRun w m) (h : worldStep S w m = some w') : KillsOwn w' := by
  refine ⟨fun j p hp => ?_, fun j c p hp => ?_, fun j p hp => ?_⟩
  -- what a worker has listed
  · rcases worldStep_cases h j with ⟨l, rfl, hl⟩ | ⟨-, hsame⟩
    · cases l with
      | worker a r =>
        obtain ⟨pc, hc, hs'⟩ := workerStep_iff.mp hl
        rw [hs'] at hp
        obtain ⟨hlock, victims, rfl, hmem⟩ := victims_control hc hp
        have hfits : victims = w.shared.running := of_decide_eq_true (worldStep_part h).2.2.1
        exact (spares_of_worker_list hrun hlock (hfits ▸ hmem)).step h
      | cancel c a r =>
        rw [pc_of_not_worker hl (by simp)] at hp
        exact (hw.worker j p hp).step h
      | status r =>
        rw [pc_of_not_worker hl (by simp)] at hp
        exact (hw.worker j p hp).step h
    · exact (hw.worker j p (hsame ▸ hp)).step h
  -- what a cancel call has listed
  · rcases worldStep_cases h j with ⟨l, rfl, hl⟩ | ⟨-, hsame⟩
    · cases l with
      | worker a r =>
        obtain ⟨pc, -, hs'⟩ := workerStep_iff.mp hl
        have hcalls : (w'.parts j).calls = (w.parts j).calls := by rw [hs']; exact effect_calls a r
        exact (hw.calls j c p (hcalls ▸ hp)).step h
      | cancel d a r =>
        obtain ⟨pc, hc, hs'⟩ := cancelStep_iff.mp hl
        have hcalls : (w'.parts j).calls = Function.update (w.parts j).calls d pc := by rw [hs']
        rw [hcalls] at hp
        rcases eq_or_ne c d with rfl | hne
        · rw [Function.update_self] at hp
          obtain ⟨victims, rfl, hmem⟩ := victims_cancelControl hc hp
          have hfits : victims = w.shared.running := of_decide_eq_true (worldStep_part h).2.2.1
          exact (spares_of_running (watched_of_run hrun) hok (hfits ▸ hmem)).step h
        · rw [Function.update_of_ne hne] at hp
          exact (hw.calls j c p hp).step h
      | status r =>
        have hcalls : (w'.parts j).calls = (w.parts j).calls := by
          rw [← Option.some.inj hl]
        exact (hw.calls j c p (hcalls ▸ hp)).step h
    · exact (hw.calls j c p (hsame ▸ hp)).step h
  -- what was signalled
  · cases m with
    | env e =>
      rw [env_signals (worldStep_env h).1] at hp
      exact (hw.signals j p hp).step h
    | part k l =>
      rw [(worldStep_part h).2.2.2] at hp
      rcases mem_signals_touch hp with hold | ⟨rfl, hworker | ⟨c, hcall⟩ | ⟨proc, hproc, himage⟩⟩
      · exact (hw.signals j p hold).step h
      · exact (hw.worker j p hworker).step h
      · exact (hw.calls j c p hcall).step h
      · have hspares : Spares w j p := ⟨proc, hproc, by simp [himage]⟩
        exact hspares.step h

theorem killsOwn_of_run (h : RunOf (worldStep S) ListsOwnRun .init w) : KillsOwn w :=
  h.invariant_of (fun _ ht => ht.run)
    (fun _ _ _ hrun _ hP hok hstep => hP.step hrun hok hstep) killsOwn_init

/-- When a cancel call lists the processes only while no other worker's terminal runs, neither
cancel calls nor workers ever signal a terminal that another job's worker launched. -/
theorem noForeignKill : NoForeignKill S ListsOwnRun := by
  intro w h j p hsignal proc hproc himage hdirect
  obtain ⟨proc', hproc', hown⟩ := (killsOwn_of_run h).signals j p hsignal
  cases hproc.symm.trans hproc'
  exact hown himage hdirect

/-- A cancel call of job 0 sees that job 0 holds the lock. Then job 0's terminal exits, its worker
gives the lock back, job 1 launches, and the call lists and signals what runs now. -/
def killAfterHandover : List WorldLabel :=
  work 0 (untilWaiting .sample ++ untilLaunching ++ [.launch]) ++ work 1 (untilWaiting .sample) ++
    [.part 0 (.cancel 0 .load {}), .part 0 (.cancel 0 .flag {}), .part 0 (.cancel 0 .mark {}),
      .part 0 (.cancel 0 .poll {}), .part 0 (.cancel 0 (.sawHolder true true) {}),
      .env (.exit 0 0)] ++
    work 0 [.exited 0, .check, .list [], .signal, .settle false, .cleanUp, .clearHolder,
      .release] ++
    work 1 (untilLaunching ++ [.launch]) ++
    [.part 0 (.cancel 0 (.list [1]) {}), .part 0 (.cancel 0 .signal {})]

/-- Without the condition, a cancel of job 0 signals the terminal that job 1's worker launched. -/
theorem not_noForeignKill : ¬ NoForeignKill .sample fun _ _ => True := by
  intro h
  obtain ⟨w, hrun, hp⟩ := exists_run_of_exec (show (exec (worldStep .sample) .init
    killAfterHandover).any (fun w => decide ((0, 1) ∈ w.shared.signals) &&
      w.shared.procs[1]?.any fun proc => proc.image == .terminal && proc.direct &&
        proc.origin == 1) = true by decide)
  rw [Bool.and_eq_true, decide_eq_true_eq] at hp
  obtain ⟨proc, hproc, hown⟩ := (Option.any_eq_true _ _).mp hp.2
  simp only [Bool.and_eq_true, beq_iff_eq] at hown
  have := h w hrun 0 1 hp.1 proc hproc hown.1.1 hown.1.2
  simp [this] at hown

/-- A job cancelled while its terminal runs, alone on the terminal. -/
def killedAlone : List WorldLabel :=
  work 0 (untilWaiting .sample ++ untilLaunching ++ [.launch]) ++
    [.part 0 (.cancel 0 .load {}), .part 0 (.cancel 0 .flag {}), .part 0 (.cancel 0 .mark {}),
      .part 0 (.cancel 0 .poll {}), .part 0 (.cancel 0 (.sawHolder true true) {}),
      .part 0 (.cancel 0 (.list [0]) {}), .part 0 (.cancel 0 .signal {})]

theorem noForeignKill_alone :
    ∃ w proc, RunOf (worldStep .sample) ListsOwnRun .init w ∧ (0, 0) ∈ w.shared.signals ∧
      w.shared.procs[0]? = some proc ∧ proc.origin = 0 := by
  obtain ⟨w, hw, hp⟩ := (Option.any_eq_true _ _).mp (show (execOf (worldStep .sample)
    (fun _ => ofFirstJob) .init killedAlone).any (fun w => decide ((0, 0) ∈ w.shared.signals) &&
      w.shared.procs[0]?.any fun proc => proc.image == .terminal && proc.direct) = true
    by decide)
  have hrun : RunOf (worldStep .sample) ListsOwnRun .init w := by
    refine runOf_of_execOf_alone World.init 0 (fun _ j _ h => by simpa [ofFirstJob] using h) ?_
      (fun _ _ => rfl) hw
    rintro w (⟨j, l⟩ | e) hother hm
    · obtain rfl : j = 0 := by simpa [ofFirstJob] using hm
      unfold ListsOwnRun
      split
      next k c victims r heq =>
        cases heq
        intro j hj
        rw [hother j hj]
        simp [World.init, JobState.init]
      next => trivial
    · trivial
  rw [Bool.and_eq_true, decide_eq_true_eq] at hp
  obtain ⟨proc, hproc, hown⟩ := (Option.any_eq_true _ _).mp hp.2
  simp only [Bool.and_eq_true, beq_iff_eq] at hown
  exact ⟨w, proc, hrun, hp.1, hproc,
    noForeignKill w hrun 0 0 hp.1 proc hproc hown.1 hown.2⟩

end Backtest

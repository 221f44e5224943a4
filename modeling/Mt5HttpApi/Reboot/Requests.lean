import Mt5HttpApi.Reboot.Guard

/-!
# The requests of an API against the flag

`Api.Sound` is what holds of an API in every run: `_writes` has an entry for every write whose
handler runs, and a job that is being submitted has such a handler.

An API is sealed (`Api.Sealed`) when no write is in flight there and none is on its way past the
flag. `Api.Sealed.step`: while the flag is fresh it stays sealed, and no job becomes active.
-/

namespace Reboot

open Backtest

variable {S : Setup} {now : ℚ} {flag : Option ℚ} {api api' : Api} {r r' : ℕ} {j j' : JobId}
  {phase : RequestPhase}

/-- A write whose handler runs. -/
def RequestPhase.inFlight : RequestPhase → Bool
  | .handling _ => true
  | _ => false

/-- A request that is there. -/
def RequestPhase.inProgress : RequestPhase → Bool
  | .absent | .done => false
  | _ => true

/-- A write that `draining` has let through, or will when it looks at the flag. -/
def RequestPhase.passes (flag : Option ℚ) : RequestPhase → Bool
  | .checked => true
  | .clocked time => !draining flag time
  | _ => false

/-! ## An API in every run -/

/-- What holds of an API in every run. -/
structure Api.Sound (S : Setup) (api : Api) : Prop where
  tracked : ∀ j, Tracked S (api.jobs j)
  listed : ∀ j, (api.jobs j).pc ≠ .absent → j ∈ api.submitted
  submitting : ∀ j, (api.jobs j).pc.submitting = true →
    ∃ r, (api.requests r).phase = .handling (some j)
  registered : ∀ r, (api.requests r).phase.inFlight = true →
    Dict.get api.writes (api.requests r).id = some r
  distinct : ∀ r r', (api.requests r).phase.inProgress = true →
    (api.requests r').phase.inProgress = true → (api.requests r).id = (api.requests r').id → r = r'

theorem RequestPhase.inProgress_of_inFlight (h : phase.inFlight = true) :
    phase.inProgress = true := by
  cases phase with
  | handling job => rfl
  | _ => cases h

theorem Api.sound_init : Api.init.Sound S where
  tracked _ := tracked_init
  listed _ h := absurd rfl h
  submitting _ h := by cases h
  registered _ h := by cases h
  distinct _ _ h := by cases h

@[simp]
theorem Api.move_self : ((api.move r phase).requests r) = ⟨(api.requests r).id, phase⟩ :=
  Function.update_self ..

theorem Api.move_of_ne (h : r' ≠ r) : (api.move r phase).requests r' = api.requests r' :=
  Function.update_of_ne h ..

@[simp]
theorem Api.setJob_self {job : JobState} : (api.setJob j job).jobs j = job :=
  Function.update_self ..

theorem Api.setJob_of_ne {job : JobState} (h : j' ≠ j) :
    (api.setJob j job).jobs j' = api.jobs j' :=
  Function.update_of_ne h ..

/-- A request moves alone. -/
theorem requestStep_of_ne {act : RequestAct} (h : requestStep S now flag api r act = some api')
    (hr : r' ≠ r) : api'.requests r' = api.requests r' := by
  cases act with
  | arrive | clock | writeStarted | writeFinished =>
    obtain ⟨-, h⟩ := Option.ite_none_right_eq_some.mp h
    obtain rfl := Option.some.inj h
    exact Function.update_of_ne hr ..
  | look readable =>
    simp only [requestStep] at h
    split at h
    next =>
      obtain rfl := Option.some.inj h
      exact Api.move_of_ne hr
    next => cases h
  | submit j a reading =>
    simp only [requestStep] at h
    split at h
    next =>
      obtain ⟨-, h⟩ := Option.ite_none_right_eq_some.mp h
      obtain ⟨after, -, rfl⟩ := Option.map_eq_some_iff.mp h
      exact Api.move_of_ne hr
    next => cases h
  | cancel j a reading =>
    simp only [requestStep] at h
    split at h
    next =>
      obtain ⟨after, -, rfl⟩ := Option.map_eq_some_iff.mp h
      rfl
    next => cases h
  | answer =>
    simp only [requestStep] at h
    split at h
    next =>
      obtain ⟨-, h⟩ := Option.ite_none_right_eq_some.mp h
      obtain rfl := Option.some.inj h
      exact Api.move_of_ne hr
    next => cases h

namespace Api.Sound

/-- A request moves on, with what `_writes` is then. -/
theorem update (h : api.Sound S) {x : Request} {writes : List (RequestId × ℕ)}
    (hhandling : ∀ j, (api.requests r).phase = .handling (some j) →
      (api.jobs j).pc.submitting = true → x.phase = .handling (some j))
    (hself : x.phase.inFlight = true → Dict.get writes x.id = some r)
    (hothers : ∀ r' ≠ r, (api.requests r').phase.inFlight = true →
      Dict.get writes (api.requests r').id = some r')
    (hid : x.phase.inProgress = true → ∀ r' ≠ r, (api.requests r').phase.inProgress = true →
      (api.requests r').id ≠ x.id) :
    Api.Sound S { api with writes, requests := Function.update api.requests r x } where
  tracked := h.tracked
  listed := h.listed
  submitting j hj := by
    obtain ⟨r', hr'⟩ := h.submitting j hj
    by_cases hr : r' = r
    · subst hr
      refine ⟨r', ?_⟩
      simp only [Function.update_self]
      exact hhandling j hr' hj
    · refine ⟨r', ?_⟩
      simp only [Function.update_of_ne hr]
      exact hr'
  registered r' hr' := by
    by_cases hr : r' = r
    · subst hr
      simp only [Function.update_self] at hr' ⊢
      exact hself hr'
    · simp only [Function.update_of_ne hr] at hr' ⊢
      exact hothers r' hr hr'
  distinct r₁ r₂ h₁ h₂ heq := by
    by_cases hr₁ : r₁ = r
    · by_cases hr₂ : r₂ = r
      · rw [hr₁, hr₂]
      · subst hr₁
        simp only [Function.update_self, Function.update_of_ne hr₂] at h₁ h₂ heq
        exact absurd heq.symm (hid h₁ r₂ hr₂ h₂)
    · by_cases hr₂ : r₂ = r
      · subst hr₂
        simp only [Function.update_self, Function.update_of_ne hr₁] at h₁ h₂ heq
        exact absurd heq (hid h₂ r₁ hr₁ h₁)
      · simp only [Function.update_of_ne hr₁, Function.update_of_ne hr₂] at h₁ h₂ heq
        exact h.distinct r₁ r₂ h₁ h₂ heq

/-- A request that is there moves on, and `_writes` stays as it is. -/
theorem move (h : api.Sound S) (hprogress : (api.requests r).phase.inProgress = true)
    (hhandling : ∀ j, (api.requests r).phase = .handling (some j) →
      (api.jobs j).pc.submitting = true → phase = .handling (some j))
    (hflight : phase.inFlight = true → (api.requests r).phase.inFlight = true) :
    (api.move r phase).Sound S := by
  refine h.update (x := ⟨(api.requests r).id, phase⟩) hhandling
    (fun hphase => h.registered r (hflight hphase)) (fun r' _ => h.registered r')
    fun _ r' hr' hprogress' heq => hr' ?_
  exact h.distinct r' r hprogress' hprogress heq

/-- A job takes a step, and is known. -/
theorem setJob (h : api.Sound S) {job : JobState} (htracked : Tracked S job)
    (hlisted : job.pc ≠ .absent → j ∈ api.submitted)
    (hsubmitting : job.pc.submitting = true → ∃ r, (api.requests r).phase = .handling (some j)) :
    (api.setJob j job).Sound S where
  tracked j' := by
    by_cases hj : j' = j
    · rw [hj, setJob_self]
      exact htracked
    · rw [setJob_of_ne hj]
      exact h.tracked j'
  listed j' hj' := by
    by_cases hj : j' = j
    · subst hj
      rw [setJob_self] at hj'
      exact hlisted hj'
    · rw [setJob_of_ne hj] at hj'
      exact h.listed j' hj'
  submitting j' hj' := by
    by_cases hj : j' = j
    · subst hj
      rw [setJob_self] at hj'
      exact hsubmitting hj'
    · rw [setJob_of_ne hj] at hj'
      exact h.submitting j' hj'
  registered := h.registered
  distinct := h.distinct

/-- A job takes a step that is not its worker's. -/
theorem setJob_of_pc (h : api.Sound S) {job : JobState} (htracked : Tracked S job)
    (hpc : job.pc = (api.jobs j).pc) : (api.setJob j job).Sound S :=
  h.setJob htracked (fun hj => h.listed j (hpc ▸ hj)) fun hj => h.submitting j (hpc ▸ hj)

/-- A request arrives with an id that no other request has. -/
theorem arrive (h : api.Sound S) {id : RequestId} (hphase : phase = .arrived ∨ phase = .ending)
    (habsent : (api.requests r).phase = .absent)
    (hid : ∀ r, (api.requests r).phase.inProgress = true → (api.requests r).id ≠ id) :
    Api.Sound S { api with requests := Function.update api.requests r ⟨id, phase⟩ } := by
  refine h.update (x := ⟨id, phase⟩) ?_ ?_ (fun r' _ => h.registered r')
    fun _ r' _ hprogress => hid r' hprogress
  · intro j hj
    rw [habsent] at hj
    cases hj
  · rcases hphase with rfl | rfl <;> exact fun hflight => nomatch hflight

/-- A request of `run_backtest` takes a step. -/
theorem submit (hinst : S.me.inst.isSome = true) (h : api.Sound S) {job : Option JobId}
    {a : WorkerAct} {reading : Reading} {after : JobState}
    (hphase : (api.requests r).phase = .handling job) (hmay : maySubmit api j job = true)
    (hstep : workerStep S (api.jobs j) a reading = some after) :
    Api.Sound S { (api.move r (.handling (some j))).setJob j after with
      submitted := if j ∈ api.submitted then api.submitted else api.submitted ++ [j] } := by
  have hmove : (api.move r (.handling (some j))).Sound S := by
    refine h.move (by rw [hphase]; rfl) ?_ fun _ => by rw [hphase]; rfl
    intro j' hj' _
    obtain rfl : job = some j' := by
      rw [hphase] at hj'
      exact RequestPhase.handling.inj hj'
    rw [maySubmit, decide_eq_true_eq] at hmay
    rw [hmay.1]
  have hlisted : Api.Sound S { api.move r (.handling (some j)) with
      submitted := if j ∈ api.submitted then api.submitted else api.submitted ++ [j] } := by
    refine { hmove with listed := fun j' hj' => ?_ }
    have hold : j' ∈ api.submitted := hmove.listed j' hj'
    split
    · exact hold
    · exact List.mem_append_left _ hold
  refine hlisted.setJob ((h.tracked j).step hinst (l := .worker a reading) hstep) ?_ ?_
  · intro _
    dsimp only
    split
    next hold => exact hold
    next => exact List.mem_append_right _ (List.mem_singleton_self j)
  · intro _
    exact ⟨r, by simp⟩

/-- A step of a request keeps what holds of the API, if a new request has an id of its own. -/
theorem request (hinst : S.me.inst.isSome = true) (h : api.Sound S) {act : RequestAct}
    (hid : ∀ id method authorized, act = .arrive id method authorized →
      ∀ r, (api.requests r).phase.inProgress = true → (api.requests r).id ≠ id)
    (hstep : requestStep S now flag api r act = some api') : api'.Sound S := by
  cases act with
  | arrive id method authorized =>
    obtain ⟨habsent, hstep⟩ := Option.ite_none_right_eq_some.mp hstep
    obtain rfl := Option.some.inj hstep
    refine h.arrive ?_ habsent (hid id method authorized rfl)
    split
    · exact Or.inl rfl
    · exact Or.inr rfl
  | clock =>
    obtain ⟨hphase, hstep⟩ := Option.ite_none_right_eq_some.mp hstep
    obtain rfl := Option.some.inj hstep
    refine h.move (by rw [hphase]; rfl) (fun j hj => ?_) fun hflight => nomatch hflight
    rw [hphase] at hj
    cases hj
  | look readable =>
    simp only [requestStep] at hstep
    split at hstep
    next time hphase =>
      obtain rfl := Option.some.inj hstep
      refine h.move (by rw [hphase]; rfl) (fun j hj => ?_) fun hflight => ?_
      · rw [hphase] at hj
        cases hj
      · split at hflight <;> cases hflight
    next => cases hstep
  | writeStarted =>
    obtain ⟨hphase, hstep⟩ := Option.ite_none_right_eq_some.mp hstep
    obtain rfl := Option.some.inj hstep
    refine h.update (x := ⟨(api.requests r).id, .handling none⟩) (fun j hj => ?_)
      (fun _ => ?_) (fun r' hr' hflight => ?_) fun _ r' hr' hprogress heq => ?_
    · rw [hphase] at hj
      cases hj
    · rw [Dict.get_set, if_pos rfl]
    · have hprogress := RequestPhase.inProgress_of_inFlight hflight
      rw [Dict.get_set, if_neg, h.registered r' hflight]
      exact fun heq => hr' (h.distinct r' r hprogress (by rw [hphase]; rfl) heq)
    · exact hr' (h.distinct r' r hprogress (by rw [hphase]; rfl) heq)
  | submit j a reading =>
    simp only [requestStep] at hstep
    split at hstep
    next job hphase =>
      obtain ⟨hmay, hstep⟩ := Option.ite_none_right_eq_some.mp hstep
      obtain ⟨after, hafter, rfl⟩ := Option.map_eq_some_iff.mp hstep
      exact h.submit hinst hphase hmay hafter
    next => cases hstep
  | cancel j a reading =>
    simp only [requestStep] at hstep
    split at hstep
    next hphase =>
      obtain ⟨after, hafter, rfl⟩ := Option.map_eq_some_iff.mp hstep
      have hjob : jobStep S (api.jobs j) (.cancel r a reading) = some after := hafter
      refine h.setJob_of_pc ((h.tracked j).step hinst hjob) ?_
      rcases jobStep_worker hjob with ⟨_, _, hl⟩ | ⟨hpc, -⟩
      · cases hl
      · exact hpc
    next => cases hstep
  | answer =>
    simp only [requestStep] at hstep
    split at hstep
    next job hphase =>
      obtain ⟨hall, hstep⟩ := Option.ite_none_right_eq_some.mp hstep
      obtain rfl := Option.some.inj hstep
      refine h.move (by rw [hphase]; rfl) (fun j hj hsubmitting => ?_)
        fun hflight => nomatch hflight
      -- the handler has ended its submission
      obtain rfl : job = some j := by
        rw [hphase] at hj
        exact RequestPhase.handling.inj hj
      rw [Option.all_some, hsubmitting] at hall
      cases hall
    next => cases hstep
  | writeFinished =>
    obtain ⟨hphase, hstep⟩ := Option.ite_none_right_eq_some.mp hstep
    obtain rfl := Option.some.inj hstep
    refine h.update (x := ⟨(api.requests r).id, .done⟩) (fun j hj => ?_)
      (fun hflight => nomatch hflight) (fun r' hr' hflight => ?_)
      fun hprogress => nomatch hprogress
    · rw [hphase] at hj
      cases hj
    · have hprogress := RequestPhase.inProgress_of_inFlight hflight
      rw [Dict.get_pop, if_neg, h.registered r' hflight]
      exact fun heq => hr' (h.distinct r' r hprogress (by rw [hphase]; rfl) heq)

/-- A step of an API keeps what holds of it, if a new request has an id of its own. -/
theorem step (hinst : S.me.inst.isSome = true) (h : api.Sound S) {act : ApiAct}
    (hid : ∀ r id method authorized, act = .request r (.arrive id method authorized) →
      ∀ r, (api.requests r).phase.inProgress = true → (api.requests r).id ≠ id)
    (hstep : apiStep S now flag api act = some api') : api'.Sound S := by
  cases act with
  | request r act =>
    refine h.request hinst (fun id method authorized hact => ?_) hstep
    exact hid r id method authorized (by rw [hact])
  | work j a reading =>
    obtain ⟨⟨habsent, hover⟩, hstep⟩ := Option.ite_none_right_eq_some.mp hstep
    obtain ⟨after, hafter, rfl⟩ := Option.map_eq_some_iff.mp hstep
    refine h.setJob ((h.tracked j).step hinst (l := .worker a reading) hafter)
      (fun _ => h.listed j habsent) fun hsubmitting => ?_
    -- a worker does not submit
    obtain ⟨pc, hcontrol, rfl⟩ := workerStep_iff.mp hafter
    rcases submitting_control hcontrol hsubmitting with hpc | hpc
    · exact absurd hpc habsent
    · rw [hpc] at hover
      cases hover
  | status j reading =>
    rw [apiStep, Option.map_eq_some_iff] at hstep
    obtain ⟨after, hafter, rfl⟩ := hstep
    refine h.setJob_of_pc ((h.tracked j).step hinst hafter) ?_
    rcases jobStep_worker hafter with ⟨_, _, hl⟩ | ⟨hpc, -⟩
    · cases hl
    · exact hpc

end Api.Sound

/-! ## An API that has nothing in flight -/

/-- No write is in flight, and none is on its way past the flag. -/
structure Api.Sealed (flag : Option ℚ) (api : Api) : Prop where
  registered : api.writes = []
  writes : ∀ r, (api.requests r).phase.inFlight = false
  passes : ∀ r, (api.requests r).phase.passes flag = false

/-- Compared with `api`, no job of `api'` has become active, and no worker has begun. -/
def Api.Dwindles (api api' : Api) : Prop :=
  ∀ j, ((api'.jobs j).workerActive = true → (api.jobs j).workerActive = true) ∧
    ((api'.jobs j).active = true → (api.jobs j).active = true)

theorem Api.Dwindles.of_jobs (h : api'.jobs = api.jobs) : api.Dwindles api' := by
  intro j
  rw [h]
  exact ⟨id, id⟩

namespace Api.Sealed

/-- A request moves to where it is not in flight, nor on its way. -/
theorem update (h : api.Sealed flag) {x : Request} (hflight : x.phase.inFlight = false)
    (hpasses : x.phase.passes flag = false) :
    Api.Sealed flag { api with requests := Function.update api.requests r x } where
  registered := h.registered
  writes r' := by
    by_cases hr : r' = r
    · subst hr
      simp only [Function.update_self]
      exact hflight
    · simp only [Function.update_of_ne hr]
      exact h.writes r'
  passes r' := by
    by_cases hr : r' = r
    · subst hr
      simp only [Function.update_self]
      exact hpasses
    · simp only [Function.update_of_ne hr]
      exact h.passes r'

/-- While the flag is fresh and can be read, no request gets past it. -/
theorem request (h : api.Sealed flag) (hfresh : draining flag now = true) {act : RequestAct}
    (hreadable : act ≠ .look false) (hstep : requestStep S now flag api r act = some api') :
    api'.Sealed flag ∧ api'.jobs = api.jobs := by
  have hhandling : ∀ job, (api.requests r).phase ≠ .handling job := by
    intro job hphase
    have hwrites := h.writes r
    rw [hphase] at hwrites
    cases hwrites
  cases act with
  | arrive id method authorized =>
    obtain ⟨-, hstep⟩ := Option.ite_none_right_eq_some.mp hstep
    obtain rfl := Option.some.inj hstep
    refine ⟨h.update ?_ ?_, rfl⟩
    · dsimp only
      split <;> rfl
    · dsimp only
      split <;> rfl
  | clock =>
    obtain ⟨-, hstep⟩ := Option.ite_none_right_eq_some.mp hstep
    obtain rfl := Option.some.inj hstep
    refine ⟨h.update rfl ?_, rfl⟩
    rw [RequestPhase.passes, hfresh]
    rfl
  | look readable =>
    simp only [requestStep] at hstep
    split at hstep
    next time hphase =>
      obtain rfl := Option.some.inj hstep
      -- it finds the flag, as fresh as when it read the clock
      have hdraining : draining flag time = true := by
        have hpasses := h.passes r
        rw [hphase] at hpasses
        simpa [RequestPhase.passes] using hpasses
      have htrue : readable = true := by
        cases readable with
        | false => exact absurd rfl hreadable
        | true => rfl
      rw [htrue, hdraining]
      exact ⟨h.update rfl rfl, rfl⟩
    next => cases hstep
  | writeStarted =>
    obtain ⟨hphase, -⟩ := Option.ite_none_right_eq_some.mp hstep
    have hpasses := h.passes r
    rw [hphase] at hpasses
    cases hpasses
  | submit j a reading | answer =>
    simp only [requestStep, reduceCtorEq] at hstep
  | cancel j a reading =>
    simp only [requestStep] at hstep
    split at hstep
    next hphase => exact absurd hphase (hhandling none)
    next => cases hstep
  | writeFinished =>
    obtain ⟨-, hstep⟩ := Option.ite_none_right_eq_some.mp hstep
    obtain rfl := Option.some.inj hstep
    refine ⟨{ h.update (r := r) (x := ⟨(api.requests r).id, .done⟩) rfl rfl with
      registered := ?_ }, rfl⟩
    rw [h.registered]
    rfl

/-- A new flag that lets no more requests past keeps an API sealed. -/
theorem of_flag {flag' : Option ℚ} (h : api.Sealed flag)
    (hnew : ∀ r time, (api.requests r).phase = .clocked time → draining flag time = true →
      draining flag' time = true) : api.Sealed flag' where
  registered := h.registered
  writes := h.writes
  passes r := by
    have hpasses := h.passes r
    cases hphase : (api.requests r).phase with
    | checked =>
      rw [hphase] at hpasses
      cases hpasses
    | clocked time =>
      rw [hphase, RequestPhase.passes, Bool.not_eq_false'] at hpasses
      rw [RequestPhase.passes, hnew r time hphase hpasses]
      rfl
    | _ => rfl

/-- No submission is under way. -/
theorem submitting_eq_false (h : api.Sealed flag) (hsound : api.Sound S) (j : JobId) :
    (api.jobs j).pc.submitting = false := by
  by_contra hsubmitting
  obtain ⟨r, hr⟩ := hsound.submitting j (by simpa using hsubmitting)
  have hwrites := h.writes r
  rw [hr] at hwrites
  cases hwrites

/-- A job that takes a step of its own does not become active. -/
theorem dwindles_setJob (hinst : S.me.inst.isSome = true) (h : api.Sealed flag)
    (hsound : api.Sound S) {label : JobLabel} {after : JobState}
    (habsent : (api.jobs j).pc = .absent → after.pc = .absent)
    (hstep : jobStep S (api.jobs j) label = some after) : api.Dwindles (api.setJob j after) := by
  intro j'
  by_cases hj : j' = j
  · subst hj
    rw [setJob_self]
    exact (hsound.tracked j').dwindles hinst (h.submitting_eq_false hsound j') habsent hstep
  · rw [setJob_of_ne hj]
    exact ⟨id, id⟩

/-- While the flag is fresh and can be read, nothing comes to be in flight, and no job becomes
active. -/
theorem step (hinst : S.me.inst.isSome = true) (h : api.Sealed flag) (hsound : api.Sound S)
    (hfresh : draining flag now = true) {act : ApiAct}
    (hreadable : ∀ r, act ≠ .request r (.look false))
    (hstep : apiStep S now flag api act = some api') : api'.Sealed flag ∧ api.Dwindles api' := by
  cases act with
  | request r act =>
    have hlook : act ≠ .look false := fun hact => hreadable r (by rw [hact])
    obtain ⟨hsealed, hjobs⟩ := h.request hfresh hlook hstep
    exact ⟨hsealed, .of_jobs hjobs⟩
  | work j a reading =>
    obtain ⟨⟨habsent, -⟩, hstep⟩ := Option.ite_none_right_eq_some.mp hstep
    obtain ⟨after, hafter, rfl⟩ := Option.map_eq_some_iff.mp hstep
    have hjob : jobStep S (api.jobs j) (.worker a reading) = some after := hafter
    exact ⟨⟨h.registered, h.writes, h.passes⟩,
      h.dwindles_setJob hinst hsound (fun hpc => absurd hpc habsent) hjob⟩
  | status j reading =>
    rw [apiStep, Option.map_eq_some_iff] at hstep
    obtain ⟨after, hafter, rfl⟩ := hstep
    refine ⟨⟨h.registered, h.writes, h.passes⟩,
      h.dwindles_setJob hinst hsound (fun hpc => ?_) hafter⟩
    rcases jobStep_worker hafter with ⟨_, _, hl⟩ | ⟨hsame, -⟩
    · cases hl
    · rw [hsame, hpc]

end Api.Sealed

end Reboot

import Mathlib.Algebra.Order.Field.Rat
import Mathlib.Tactic.Linarith
import Mt5HttpApi.Lib.Transition
import Mt5HttpApi.Reboot.Requests

/-!
# A VM that is idle stays idle until it reboots

When `wait_until_idle` returns `idle`, no API of its VM has a write in flight or an active
backtest, and none accepts a write while the flag that was raised for it is fresh: `Drains`.

The draining check of a request and its entry in `_writes` are two steps, and the flag is one file
for several VMs, so this does not hold of every run (`not_drains`). `Smooth` names the steps that
go wrong; `drains` says that there are no others.

* `Poll.Knows`: what a guard knows of the APIs it has asked since it raised the flag.
* `Inv`: that it does, while the flag it raised is fresh. Every smooth step keeps it.
-/

namespace Reboot

open Transition Backtest

variable {α ν : Type} {S : Setup} {now : ℚ} {flag flag' : Option ℚ} {api api' : Api} {r : ℕ}
  {j : JobId}

/-! ## What should hold -/

/-- A write that `draining` let through and that has not ended. -/
def RequestPhase.accepted : RequestPhase → Bool
  | .checked | .handling _ => true
  | _ => false

/-- No write is in flight, and no backtest is active. -/
structure Api.Quiet (api : Api) : Prop where
  registered : api.writes = []
  writes : ∀ r, (api.requests r).phase.inFlight = false
  jobs : ∀ j, (api.jobs j).active = false

/-- Over every run whose steps meet `ok`: after the step with which a guard returns `idle`, the APIs
of its VM are quiet; and while the flag it raised is at most 120 s old, none accepts a write. -/
def Drains [DecidableEq α] [DecidableEq ν] (V : Site α ν) (ok : State α ν → Label α ν → Prop) :
    Prop :=
  ∀ (now : ℚ) (flag : Option ℚ) (s t : State α ν) (label : Label α ν),
    RunOf (step V) ok (start now flag) s → ok s label → step V s label = some t →
    ∀ (v : ν) (raised : ℚ), (t.guards v).phase = .idle raised →
      ((s.guards v).phase ≠ .idle raised → ∀ a ∈ V.terminals v, (t.apis a).Quiet) ∧
      (t.now ≤ raised + drainFlagMaxAge → ∀ a ∈ V.terminals v, ∀ r,
        ((t.apis a).requests r).phase.accepted = true →
          ((s.apis a).requests r).phase.accepted = true)

/-! ## When it does -/

/-- When the guard raised the flag it counts on. -/
def GuardPhase.raised : GuardPhase α → Option ℚ
  | .settling raised | .confirming raised _ | .idle raised => some raised
  | _ => none

/-- The guard of a VM counts on the flag it raised, which is at most 120 s old. -/
def State.Relies (s : State α ν) (v : ν) : Prop :=
  ∃ raised, (s.guards v).phase.raised = some raised ∧ s.now ≤ raised + drainFlagMaxAge

/-- What can go wrong in the second poll of a guard: it reads `_writes` of an API while a write
there has passed `draining`, or will, and is not in `_writes`; an API that is not quiet does not
answer; the flag is too old when it ends. -/
def SmoothPoll (s : State α ν) (raised : ℚ) (poll : Poll α) (act : GuardAct) : Prop :=
  match act with
  | .sample => poll.asking = .unasked → ∀ a ∈ poll.left.head?, ∀ r,
      ((s.apis a).requests r).phase.passes s.flag = false
  | .unanswered => ∀ a ∈ poll.left.head?, (s.apis a).Quiet ∧
      ∀ r, ((s.apis a).requests r).phase.passes s.flag = false
  | .conclude => poll.busy = false → s.now ≤ raised + drainFlagMaxAge
  | _ => True

/-- A step that does not go wrong. -/
def Smooth (V : Site α ν) (s : State α ν) : Label α ν → Prop
  -- a request id that another request has
  | .api a (.request _ (.arrive id _ _)) =>
    ∀ r, ((s.apis a).requests r).phase.inProgress = true → ((s.apis a).requests r).id ≠ id
  -- an `OSError` from the flag
  | .api a (.request _ (.look readable)) =>
    readable = false → ∀ v, s.Relies v → a ∉ V.terminals v
  -- the flag of a guard removed by another VM
  | .boot => ∀ v, ¬ s.Relies v
  | .guard _ .dropFlag => ∀ v, ¬ s.Relies v
  -- the flag raised again between the two readings of `draining`
  | .guard _ .raiseFlag => ∀ v, s.Relies v → ∀ a ∈ V.terminals v, ∀ r time,
      ((s.apis a).requests r).phase = .clocked time → draining s.flag time = true →
        draining (some s.now) time = true
  | .guard v act =>
    match (s.guards v).phase with
    | .confirming raised poll => SmoothPoll s raised poll act
    | _ => True
  | _ => True

/-! ## What a guard knows -/

/-- An API that is sealed and has no active backtest. -/
structure Api.Cleared (flag : Option ℚ) (api : Api) : Prop where
  isSealed : api.Sealed flag
  jobs : ∀ j, (api.jobs j).active = false

theorem Api.Cleared.quiet (h : api.Cleared flag) : api.Quiet :=
  ⟨h.isSealed.registered, h.isSealed.writes, h.jobs⟩

/-- What the guard knows of the API it asks. -/
def Asking.Knows (flag : Option ℚ) (api : Api) : Asking → Prop
  | .unasked => True
  | .writes busy => busy = false → api.Sealed flag
  | .workers busy ids => busy = false →
      api.Sealed flag ∧ ∀ j, (api.jobs j).workerActive = true → j ∈ ids

/-- What the guard knows in its second poll. -/
structure Poll.Knows (terminals : List α) (flag : Option ℚ) (apis : α → Api) (poll : Poll α) :
    Prop where
  left : ∀ a ∈ poll.left, a ∈ terminals
  asked : poll.busy = false → ∀ a ∈ terminals, a ∈ poll.left ∨ (apis a).Cleared flag
  asking : ∀ a ∈ poll.left.head?, poll.asking.Knows flag (apis a)

/-- What the guard knows of the APIs of its VM. -/
def GuardPhase.Knows (terminals : List α) (flag : Option ℚ) (apis : α → Api) :
    GuardPhase α → Prop
  | .confirming _ poll => poll.Knows terminals flag apis
  | .idle _ => ∀ a ∈ terminals, (apis a).Cleared flag
  | _ => True

/-- The flag is there, as new as when the guard raised it or newer. -/
def FlagUp (raised now : ℚ) (flag : Option ℚ) : Prop :=
  ∃ mtime, flag = some mtime ∧ raised ≤ mtime ∧ mtime ≤ now

theorem FlagUp.draining {raised : ℚ} (h : FlagUp raised now flag)
    (hnow : now ≤ raised + drainFlagMaxAge) : draining flag now = true := by
  obtain ⟨mtime, rfl, hraised, hmtime⟩ := h
  rw [Reboot.draining, decide_eq_true_eq]
  constructor <;> linarith

/-- What was sealed still is, and no job became active. -/
def Lasts (flag flag' : Option ℚ) (api api' : Api) : Prop :=
  api.Sealed flag → api'.Sealed flag' ∧ api.Dwindles api'

variable {terminals : List α} {apis apis' : α → Api} {poll poll' : Poll α}

theorem Api.Cleared.mono (hlasts : Lasts flag flag' api api') (h : api.Cleared flag) :
    api'.Cleared flag' := by
  obtain ⟨hsealed, hdwindles⟩ := hlasts h.isSealed
  refine ⟨hsealed, fun j => ?_⟩
  by_contra hactive
  have hbefore := (hdwindles j).2 (by simpa using hactive)
  rw [h.jobs j] at hbefore
  cases hbefore

theorem Asking.Knows.mono {asking : Asking} (hlasts : Lasts flag flag' api api')
    (h : asking.Knows flag api) : asking.Knows flag' api' := by
  cases asking with
  | unasked => trivial
  | writes busy => exact fun hbusy => (hlasts (h hbusy)).1
  | workers busy ids =>
    intro hbusy
    obtain ⟨hsealed, hworkers⟩ := h hbusy
    obtain ⟨hsealed', hdwindles⟩ := hlasts hsealed
    exact ⟨hsealed', fun j hworker => hworkers j ((hdwindles j).1 hworker)⟩

theorem Poll.Knows.mono (hlasts : ∀ a ∈ terminals, Lasts flag flag' (apis a) (apis' a))
    (h : poll.Knows terminals flag apis) : poll.Knows terminals flag' apis' where
  left := h.left
  asked hbusy a ha := (h.asked hbusy a ha).imp_right fun hcleared => hcleared.mono (hlasts a ha)
  asking a ha := (h.asking a ha).mono (hlasts a (h.left a (List.mem_of_mem_head? ha)))

theorem GuardPhase.Knows.mono {phase : GuardPhase α}
    (hlasts : ∀ a ∈ terminals, Lasts flag flag' (apis a) (apis' a))
    (h : phase.Knows terminals flag apis) : phase.Knows terminals flag' apis' := by
  cases phase with
  | confirming raised poll => exact Poll.Knows.mono hlasts h
  | idle raised => exact fun a ha => (h a ha).mono (hlasts a ha)
  | _ => trivial

/-! ## The second poll -/

/-- A poll that begins knows nothing yet. -/
theorem Poll.knows_start : (Poll.start terminals).Knows terminals flag apis where
  left _ ha := ha
  asked _ _ ha := Or.inl ha
  asking _ _ := trivial

/-- An API whose `_writes` is empty, and where nothing is on its way past the flag, is sealed. -/
theorem Api.Sound.isSealed (h : api.Sound S)
    (hpasses : ∀ r, (api.requests r).phase.passes flag = false)
    (hwrites : api.writesInFlight = false) : api.Sealed flag := by
  rw [Api.writesInFlight, Bool.not_eq_false', List.isEmpty_iff] at hwrites
  refine ⟨hwrites, fun r => ?_, hpasses⟩
  by_contra hflight
  have hmem := Dict.mem_of_get (h.registered r (by simpa using hflight))
  rw [hwrites] at hmem
  exact absurd hmem List.not_mem_nil

/-- A job with a worker is in `BACKTEST_JOBS`. -/
theorem Api.Sound.mem_activeWorkerIds (h : api.Sound S)
    (hworker : (api.jobs j).workerActive = true) : j ∈ api.activeWorkerIds :=
  List.mem_filter.mpr ⟨h.listed j ((h.tracked j).pc_ne_absent hworker), hworker⟩

/-- When `GET /busy` reports no job, and read every worker there is, no job is active. -/
theorem Api.Sound.active_eq_false (h : api.Sound S) {ids : List JobId}
    (hworkers : ∀ j, (api.jobs j).workerActive = true → j ∈ ids)
    (hnone : api.activeBacktests S ids = []) (j : JobId) : (api.jobs j).active = false := by
  by_contra hactive
  rw [Bool.not_eq_false] at hactive
  have hpc : (api.jobs j).pc ≠ .absent := by
    intro hpc
    rw [(h.tracked j).active_eq_false hpc] at hactive
    cases hactive
  obtain ⟨job, hjob⟩ : ∃ job, (api.jobs j).entry.memory = some job := by
    refine Option.ne_none_iff_exists'.mp fun hmemory => hpc ?_
    exact ((h.tracked j).lifecycle.absent hmemory).1
  have hreport : job.status ∈ activeStatuses ∨ j ∈ ids := by
    rw [JobState.active, hjob, Option.any_some, Bool.or_eq_true, decide_eq_true_eq] at hactive
    exact hactive.symm.imp_right (hworkers j)
  have hmem : j ∈ api.activeBacktests S ids := by
    refine List.mem_filter.mpr ⟨h.listed j hpc, ?_⟩
    rw [hjob, Option.any_some, (h.tracked j).owned job hjob]
    simpa using hreport
  rw [hnone] at hmem
  exact absurd hmem List.not_mem_nil

/-- The guard asks on: what it reads of an API that has nothing to report, it knows. -/
theorem Poll.Knows.step {V : Site α ν} {s : State α ν} {act : GuardAct} {raised : ℚ}
    (hsound : ∀ a, (s.apis a).Sound (V.setup a)) (hsmooth : SmoothPoll s raised poll act)
    (h : poll.Knows terminals s.flag s.apis) (hstep : poll.step V s.apis act = some poll') :
    poll'.Knows terminals s.flag s.apis := by
  obtain ⟨left, busy, asking⟩ := poll
  -- an API that is asked to the end is clear, or the poll is busy
  have hnext : ∀ {a : α} {rest : List α} {busy' : Bool}, left = a :: rest →
      (busy' = false → busy = false ∧ (s.apis a).Cleared s.flag) →
      Poll.Knows terminals s.flag s.apis ⟨rest, busy', .unasked⟩ := by
    rintro a rest busy' rfl hcleared
    refine ⟨fun b hb => h.left b (List.mem_cons_of_mem a hb), fun hbusy b hb => ?_,
      fun _ _ => trivial⟩
    obtain ⟨hbefore, hclear⟩ := hcleared hbusy
    rcases h.asked hbefore b hb with hleft | hasked
    · rcases List.mem_cons.mp hleft with rfl | hrest
      · exact Or.inr hclear
      · exact Or.inl hrest
    · exact Or.inr hasked
  cases act with
  | sample =>
    cases left with
    | nil => cases hstep
    | cons a rest =>
      cases asking with
      | unasked =>
        obtain rfl := Option.some.inj hstep
        refine ⟨h.left, h.asked, fun b hb hwrites => ?_⟩
        obtain rfl := Option.some.inj hb
        -- where no write is found, none comes any more
        exact (hsound a).isSealed (hsmooth rfl a rfl) hwrites
      | writes found =>
        obtain rfl := Option.some.inj hstep
        refine ⟨h.left, h.asked, fun b hb hfound => ?_⟩
        obtain rfl := Option.some.inj hb
        exact ⟨h.asking a rfl hfound, fun j => (hsound a).mem_activeWorkerIds⟩
      | workers found ids =>
        obtain rfl := Option.some.inj hstep
        refine hnext rfl fun hbusy => ?_
        simp only [Bool.or_eq_false_iff, Bool.not_eq_false', List.isEmpty_iff] at hbusy
        obtain ⟨hbusy, hfound, hnone⟩ := hbusy
        obtain ⟨hsealed, hworkers⟩ := h.asking a rfl hfound
        exact ⟨hbusy, hsealed, (hsound a).active_eq_false hworkers hnone⟩
  | unanswered =>
    cases left with
    | nil => cases hstep
    | cons a rest =>
      obtain rfl := Option.some.inj hstep
      obtain ⟨hquiet, hpasses⟩ := hsmooth a rfl
      exact hnext rfl fun hbusy => ⟨hbusy, ⟨hquiet.registered, hquiet.writes, hpasses⟩, hquiet.jobs⟩
  | _ => cases hstep

/-! ## A step of a guard -/

variable {V : Site α ν} {s t : State α ν} {v v' : ν} {act : GuardAct} {phase' : GuardPhase α}
  {raised : ℚ}

/-- What a step of guard `v` can do: the flag and the phase after it. -/
inductive GuardMove (V : Site α ν) (s : State α ν) (v : ν) :
    GuardAct → Option ℚ → GuardPhase α → Prop
  /-- The guard counts on no flag afterwards, and leaves it alone. -/
  | rest (act : GuardAct) (phase' : GuardPhase α) : phase'.raised = none →
      GuardMove V s v act s.flag phase'
  | raiseFlag : GuardMove V s v .raiseFlag (some s.now) (.settling s.now)
  | dropFlag : GuardMove V s v .dropFlag none .comparing
  /-- The second poll begins. -/
  | settled (raised : ℚ) : (s.guards v).phase = .settling raised →
      GuardMove V s v .settled s.flag (.confirming raised (.start (V.terminals v)))
  | ask (act : GuardAct) (raised : ℚ) (poll poll' : Poll α) :
      (s.guards v).phase = .confirming raised poll → poll.step V s.apis act = some poll' →
      GuardMove V s v act s.flag (.confirming raised poll')
  /-- `wait_until_idle` returns `idle`. -/
  | conclude (raised : ℚ) (poll : Poll α) : (s.guards v).phase = .confirming raised poll →
      poll.left = [] → poll.busy = false → GuardMove V s v .conclude s.flag (.idle raised)

theorem guardStep_move (h : guardStep V s v act = some (flag', phase')) :
    GuardMove V s v act flag' phase' := by
  unfold guardStep at h
  split at h
  case h_1 | h_3 | h_8 | h_13 | h_14 =>
    obtain ⟨rfl, rfl⟩ := Prod.mk.inj (Option.some.inj h)
    exact .rest _ _ rfl
  case h_2 =>
    obtain ⟨-, h⟩ := Option.ite_none_right_eq_some.mp h
    obtain ⟨rfl, rfl⟩ := Prod.mk.inj (Option.some.inj h)
    refine .rest _ _ ?_
    split <;> rfl
  case h_11 =>
    obtain ⟨rfl, rfl⟩ := Prod.mk.inj (Option.some.inj h)
    refine .rest _ _ ?_
    split <;> rfl
  case h_12 =>
    obtain ⟨-, h⟩ := Option.ite_none_right_eq_some.mp h
    obtain ⟨rfl, rfl⟩ := Prod.mk.inj (Option.some.inj h)
    exact .rest _ _ rfl
  case h_4 =>
    obtain ⟨poll, -, hafter⟩ := Option.map_eq_some_iff.mp h
    obtain ⟨rfl, rfl⟩ := Prod.mk.inj hafter
    exact .rest _ _ rfl
  case h_5 =>
    obtain ⟨rfl, rfl⟩ := Prod.mk.inj (Option.some.inj h)
    exact .raiseFlag
  case h_6 raised hphase =>
    obtain ⟨-, h⟩ := Option.ite_none_right_eq_some.mp h
    obtain ⟨rfl, rfl⟩ := Prod.mk.inj (Option.some.inj h)
    exact .settled raised hphase
  case h_7 raised poll hphase =>
    obtain ⟨hleft, h⟩ := Option.ite_none_right_eq_some.mp h
    obtain ⟨rfl, rfl⟩ := Prod.mk.inj (Option.some.inj h)
    cases hbusy : poll.busy with
    | false => exact .conclude raised poll hphase hleft hbusy
    | true => exact .rest _ _ rfl
  case h_9 raised poll hphase _ _ =>
    obtain ⟨poll', hpoll, hafter⟩ := Option.map_eq_some_iff.mp h
    obtain ⟨rfl, rfl⟩ := Prod.mk.inj hafter
    exact .ask _ raised poll poll' hphase hpoll
  case h_10 =>
    obtain ⟨rfl, rfl⟩ := Prod.mk.inj (Option.some.inj h)
    exact .dropFlag
  case h_15 => cases h

/-- The second poll of a guard does not go wrong. -/
theorem Smooth.smoothPoll (h : Smooth V s (.guard v act))
    (hphase : (s.guards v).phase = .confirming raised poll) : SmoothPoll s raised poll act := by
  cases act with
  | raiseFlag | dropFlag => trivial
  | _ => simpa only [Smooth, hphase] using h

/-- What a guard that has raised the flag counts on. -/
structure State.Guarded (V : Site α ν) (s : State α ν) (v : ν) (raised : ℚ) : Prop where
  flag : FlagUp raised s.now s.flag
  knows : (s.guards v).phase.Knows (V.terminals v) s.flag s.apis

/-- What holds in every smooth run. -/
structure Inv (V : Site α ν) (s : State α ν) : Prop where
  apis : ∀ a, (s.apis a).Sound (V.setup a)
  guards : ∀ v raised, (s.guards v).phase.raised = some raised →
    s.now ≤ raised + drainFlagMaxAge → s.Guarded V v raised

theorem inv_start : Inv V (start now flag) where
  apis _ := Api.sound_init
  guards _ _ h := by cases h

namespace Inv

/-- Time goes by. -/
theorem of_tick (hs : Inv V s) {seconds : ℚ} (hseconds : 0 ≤ seconds) :
    Inv V { s with now := s.now + seconds } where
  apis := hs.apis
  guards v raised hraised hnow := by
    have hbefore : s.now ≤ s.now + seconds := le_add_of_nonneg_right hseconds
    obtain ⟨⟨mtime, hflag, hmtime, hmnow⟩, hknows⟩ :=
      hs.guards v raised hraised (hbefore.trans hnow)
    exact ⟨⟨mtime, hflag, hmtime, hmnow.trans hbefore⟩, hknows⟩

/-- A VM boots, and no guard counts on the flag. -/
theorem of_boot (hs : Inv V s) (hnone : ∀ v, ¬ s.Relies v) : Inv V { s with flag := none } where
  apis := hs.apis
  guards v raised hraised hnow := absurd ⟨raised, hraised, hnow⟩ (hnone v)

end Inv

/-- A guard that counts on a flag after its smooth step knows what it should. -/
theorem Inv.guarded (hs : Inv V s) (hsmooth : Smooth V s (.guard v act))
    (hmove : GuardMove V s v act flag' phase') (hraised : phase'.raised = some raised)
    (hnow : s.now ≤ raised + drainFlagMaxAge) :
    FlagUp raised s.now flag' ∧ phase'.Knows (V.terminals v) flag' s.apis := by
  have hbefore : ∀ {phase : GuardPhase α}, (s.guards v).phase = phase →
      phase.raised = some raised →
        FlagUp raised s.now s.flag ∧ phase.Knows (V.terminals v) s.flag s.apis := by
    rintro phase rfl hraised
    obtain ⟨hflag, hknows⟩ := hs.guards v raised hraised hnow
    exact ⟨hflag, hknows⟩
  cases hmove with
  | rest act phase' hnone =>
    rw [hnone] at hraised
    cases hraised
  | dropFlag => cases hraised
  | raiseFlag =>
    obtain rfl := Option.some.inj hraised
    exact ⟨⟨s.now, rfl, le_refl _, le_refl _⟩, trivial⟩
  | settled raised₀ hphase => exact ⟨(hbefore hphase hraised).1, Poll.knows_start⟩
  | ask act raised₀ poll poll' hphase hpoll =>
    obtain ⟨hflag, hknows⟩ := hbefore hphase hraised
    exact ⟨hflag, Poll.Knows.step hs.apis (hsmooth.smoothPoll hphase) hknows hpoll⟩
  | conclude raised₀ poll hphase hleft hbusy =>
    obtain ⟨hflag, hknows⟩ := hbefore hphase hraised
    refine ⟨hflag, fun a ha => (hknows.asked hbusy a ha).resolve_left fun hmem => ?_⟩
    rw [hleft] at hmem
    exact absurd hmem List.not_mem_nil

variable [DecidableEq α]

/-- A step of an API. -/
theorem Inv.of_api (hs : Inv V s) {a : α} {act : ApiAct} (hsmooth : Smooth V s (.api a act))
    (hstep : apiStep (V.setup a) s.now s.flag (s.apis a) act = some api) :
    Inv V (s.setApi a api) where
  apis a' := by
    by_cases ha : a' = a
    · subst ha
      have hid : ∀ r id method authorized, act = .request r (.arrive id method authorized) →
          ∀ r, ((s.apis a').requests r).phase.inProgress = true →
            ((s.apis a').requests r).id ≠ id := by
        rintro r id method authorized rfl
        exact hsmooth
      simp only [State.setApi, Function.update_self]
      exact (hs.apis a').step (V.named a') hid hstep
    · simp only [State.setApi, Function.update_of_ne ha]
      exact hs.apis a'
  guards v raised hraised hnow := by
    obtain ⟨hflag, hknows⟩ := hs.guards v raised hraised hnow
    refine ⟨hflag, hknows.mono fun a' ha' hsealed => ?_⟩
    by_cases ha : a' = a
    · subst ha
      simp only [State.setApi, Function.update_self]
      refine hsealed.step (V.named a') (hs.apis a') (hflag.draining hnow) ?_ hstep
      rintro r rfl
      exact hsmooth rfl v ⟨raised, hraised, hnow⟩ ha'
    · simp only [State.setApi, Function.update_of_ne ha]
      exact ⟨hsealed, .of_jobs rfl⟩

variable [DecidableEq ν]

/-- Another guard's step leaves a guard where it is. -/
theorem State.setGuard_of_ne (h : v' ≠ v) :
    (s.setGuard v flag' phase').guards v' = s.guards v' :=
  Function.update_of_ne h ..

theorem State.setGuard_phase : ((s.setGuard v flag' phase').guards v).phase = phase' := by
  simp only [State.setGuard, Function.update_self]

/-- A smooth step of a guard leaves the others what they count on. -/
theorem State.Guarded.of_others (h : s.Guarded V v' raised) (hv : v' ≠ v)
    (hrelies : s.Relies v') (hsmooth : Smooth V s (.guard v act))
    (hmove : GuardMove V s v act flag' phase') :
    (s.setGuard v flag' phase').Guarded V v' raised := by
  have hsame : s.Guarded V v' raised → (s.setGuard v s.flag phase').Guarded V v' raised := by
    rintro ⟨hflag, hknows⟩
    refine ⟨hflag, ?_⟩
    rw [State.setGuard_of_ne hv]
    exact hknows
  cases hmove with
  | rest | settled | ask | conclude => exact hsame h
  | dropFlag => exact absurd hrelies (hsmooth v')
  | raiseFlag =>
    obtain ⟨⟨mtime, hflag, hmtime, hmnow⟩, hknows⟩ := h
    refine ⟨⟨s.now, rfl, hmtime.trans hmnow, le_refl _⟩, ?_⟩
    rw [State.setGuard_of_ne hv]
    exact hknows.mono fun a ha hsealed =>
      ⟨hsealed.of_flag (hsmooth v' hrelies a ha), .of_jobs rfl⟩

/-- A step of a guard. -/
theorem Inv.of_guard (hs : Inv V s) (hsmooth : Smooth V s (.guard v act))
    (hmove : GuardMove V s v act flag' phase') : Inv V (s.setGuard v flag' phase') where
  apis := hs.apis
  guards v' raised hraised hnow := by
    by_cases hv : v' = v
    · subst hv
      rw [State.setGuard_phase] at hraised
      obtain ⟨hflag, hknows⟩ := hs.guarded hsmooth hmove hraised hnow
      refine ⟨hflag, ?_⟩
      rw [State.setGuard_phase]
      exact hknows
    · rw [State.setGuard_of_ne hv] at hraised
      exact (hs.guards v' raised hraised hnow).of_others hv ⟨raised, hraised, hnow⟩ hsmooth hmove

/-- A smooth step keeps the invariant. -/
theorem Inv.step (hs : Inv V s) {label : Label α ν} (hsmooth : Smooth V s label)
    (hstep : step V s label = some t) : Inv V t := by
  cases label with
  | tick seconds =>
    obtain ⟨hseconds, hstep⟩ := Option.ite_none_right_eq_some.mp hstep
    obtain rfl := Option.some.inj hstep
    exact hs.of_tick hseconds
  | boot =>
    obtain rfl := Option.some.inj hstep
    exact hs.of_boot hsmooth
  | api a act =>
    obtain ⟨api, hapi, rfl⟩ := Option.map_eq_some_iff.mp hstep
    exact hs.of_api hsmooth hapi
  | guard v act =>
    obtain ⟨⟨flag', phase'⟩, hguard, rfl⟩ := Option.map_eq_some_iff.mp hstep
    exact hs.of_guard hsmooth (guardStep_move hguard)

theorem inv_of_run (h : RunOf (step V) (Smooth V) (start now flag) s) : Inv V s :=
  h.invariant (fun _ _ _ hs hsmooth hstep => hs.step hsmooth hstep) inv_start

/-! ## Every smooth run -/

/-- A cleared API has let no write through. -/
theorem Api.Cleared.accepted_eq_false (h : api.Cleared flag) (r : ℕ) :
    (api.requests r).phase.accepted = false := by
  have hwrites := h.isSealed.writes r
  have hpasses := h.isSealed.passes r
  cases hphase : (api.requests r).phase with
  | checked =>
    rw [hphase] at hpasses
    cases hpasses
  | handling job =>
    rw [hphase] at hwrites
    cases hwrites
  | _ => rfl

/-- A guard returns `idle` when its second poll has found nothing. -/
theorem step_idle {label : Label α ν} (hstep : step V s label = some t)
    (hbefore : (s.guards v).phase ≠ .idle raised) (hafter : (t.guards v).phase = .idle raised) :
    t.now = s.now ∧ label = .guard v .conclude ∧ ∃ poll : Poll α,
      (s.guards v).phase = .confirming raised poll ∧ poll.busy = false := by
  cases label with
  | tick seconds =>
    obtain ⟨-, hstep⟩ := Option.ite_none_right_eq_some.mp hstep
    obtain rfl := Option.some.inj hstep
    exact absurd hafter hbefore
  | boot =>
    obtain rfl := Option.some.inj hstep
    exact absurd hafter hbefore
  | api a act =>
    obtain ⟨api, -, rfl⟩ := Option.map_eq_some_iff.mp hstep
    exact absurd hafter hbefore
  | guard w act =>
    obtain ⟨⟨flag', phase'⟩, hguard, rfl⟩ := Option.map_eq_some_iff.mp hstep
    by_cases hw : v = w
    · subst hw
      rw [State.setGuard_phase] at hafter
      dsimp only at hafter
      refine ⟨rfl, ?_⟩
      cases guardStep_move hguard with
      | rest act phase' hnone =>
        rw [hafter] at hnone
        cases hnone
      | raiseFlag | dropFlag | settled | ask => cases hafter
      | conclude raised₀ poll hphase _ hbusy =>
        obtain rfl := GuardPhase.idle.inj hafter
        exact ⟨rfl, poll, hphase, hbusy⟩
    · rw [State.setGuard_of_ne hw] at hafter
      exact absurd hafter hbefore

/-- In a run in which no step goes wrong, the APIs of a VM are quiet when its guard returns `idle`,
and accept no write while the flag it raised is at most 120 s old. -/
theorem drains (V : Site α ν) : Drains V (Smooth V) := by
  intro now flag s t label hrun hsmooth hstep v raised hidle
  have hs : Inv V s := inv_of_run hrun
  have ht : Inv V t := hs.step hsmooth hstep
  have hcleared : t.now ≤ raised + drainFlagMaxAge →
      ∀ a ∈ V.terminals v, (t.apis a).Cleared t.flag := by
    intro hnow
    have hknows := (ht.guards v raised (by rw [hidle]; rfl) hnow).knows
    rw [hidle] at hknows
    exact hknows
  refine ⟨fun hbefore a ha => ?_, fun hnow a ha r haccepted => ?_⟩
  · obtain ⟨hnow, rfl, poll, hphase, hbusy⟩ := step_idle hstep hbefore hidle
    refine (hcleared ?_ a ha).quiet
    rw [hnow]
    exact hsmooth.smoothPoll hphase hbusy
  · rw [(hcleared hnow a ha).accepted_eq_false r] at haccepted
    cases haccepted

/-! ## Runs on fixed inputs -/

/-- A VM with one API. -/
def oneVm : Site Unit Unit where
  setup _ := { Setup.sample with me := { Setup.sample.me with inst := some "default" } }
  terminals _ := [()]
  maxPostpone _ := 21600
  named _ := rfl

/-- The guard asks the API. -/
def asks : List (Label Unit Unit) := List.replicate 3 (.guard () .sample)

/-- What requests do. -/
def requests (acts : List (ℕ × RequestAct)) : List (Label Unit Unit) :=
  acts.map fun act => .api () (.request act.1 act.2)

/-- A backtest is submitted and fails, the guard raises the flag, and a write that comes then is
refused; the guard asks for the last time. -/
def refusedWrite : List (Label Unit Unit) :=
  requests [(0, .arrive 1 (.other "POST") true), (0, .clock), (0, .look true), (0, .writeStarted),
    (0, .submit 7 (.store .sample) {}), (0, .submit 7 .register {}),
    (0, .submit 7 (.start true) {}),
    (0, .answer), (0, .writeFinished)] ++
  [.api () (.work 7 .register {}), .api () (.work 7 .load {}), .api () (.work 7 .check {}),
    .api () (.work 7 (.makeDirs (some "denied")) {}), .api () (.work 7 .update {}),
    .api () (.work 7 .finish {}), .guard () .start] ++ asks ++
  [.guard () .conclude, .guard () .raiseFlag] ++
  requests [(1, .arrive 2 (.other "PUT") true), (1, .clock)] ++
  [.tick 3, .guard () .settled] ++ requests [(1, .look true), (1, .writeFinished)] ++ asks

/-- With two requests, a step of one does not go wrong. -/
def smoothRequest (s : State Unit Unit) : RequestAct → Bool
  | .arrive id _ _ => (List.range 2).all fun r =>
    !((s.apis ()).requests r).phase.inProgress || ((s.apis ()).requests r).id != id
  | .look readable => readable
  | _ => true

/-- With two requests and one guard, a step of the guard does not go wrong. -/
def smoothGuard (s : State Unit Unit) : GuardPhase Unit → GuardAct → Bool
  | .confirming _ _, .sample =>
    (List.range 2).all fun r => !((s.apis ()).requests r).phase.passes s.flag
  | .confirming raised _, .conclude => s.now ≤ raised + drainFlagMaxAge
  | .raising, .raiseFlag | .off, .start | .polling _, .sample | .polling _, .conclude
  | .settling _, .settled => true
  | _, _ => false

/-- With two requests and one guard, a step does not go wrong. -/
def smoothly (s : State Unit Unit) : Label Unit Unit → Bool
  | .api _ (.request r act) => r < 2 && smoothRequest s act
  | .api _ _ | .tick _ => true
  | .boot => false
  | .guard _ act => smoothGuard s (s.guards ()).phase act

/-- There are no more than two requests. -/
def TwoRequests (s : State Unit Unit) : Prop :=
  ∀ r, 2 ≤ r → ((s.apis ()).requests r).phase = .absent

theorem TwoRequests.step {s t : State Unit Unit} {label : Label Unit Unit} (h : TwoRequests s)
    (hok : smoothly s label = true) (hstep : step oneVm s label = some t) : TwoRequests t := by
  intro r hr
  cases label with
  | tick seconds =>
    obtain ⟨-, hstep⟩ := Option.ite_none_right_eq_some.mp hstep
    obtain rfl := Option.some.inj hstep
    exact h r hr
  | boot => cases hok
  | guard v act =>
    obtain ⟨after, -, rfl⟩ := Option.map_eq_some_iff.mp hstep
    exact h r hr
  | api a act =>
    obtain ⟨api, hapi, rfl⟩ := Option.map_eq_some_iff.mp hstep
    simp only [State.setApi, Function.update_self]
    cases act with
    | request r' act =>
      rw [smoothly, Bool.and_eq_true, decide_eq_true_eq] at hok
      rw [requestStep_of_ne hapi (by omega)]
      exact h r hr
    | work j a reading =>
      obtain ⟨-, hapi⟩ := Option.ite_none_right_eq_some.mp hapi
      obtain ⟨after, -, rfl⟩ := Option.map_eq_some_iff.mp hapi
      exact h r hr
    | status j reading =>
      rw [apiStep, Option.map_eq_some_iff] at hapi
      obtain ⟨after, -, rfl⟩ := hapi
      exact h r hr

/-- What holds of the two requests holds of all. -/
theorem TwoRequests.all {s : State Unit Unit} (h : TwoRequests s) {p : Request → Bool}
    (hp : (List.range 2).all (fun r => p ((s.apis ()).requests r)) = true)
    (habsent : ∀ x : Request, x.phase = .absent → p x = true) (r : ℕ) :
    p ((s.apis ()).requests r) = true := by
  by_cases hr : r < 2
  · exact List.all_eq_true.mp hp r (List.mem_range.mpr hr)
  · exact habsent _ (h r (by omega))

theorem smooth_of_smoothly {s : State Unit Unit} {label : Label Unit Unit} (h : TwoRequests s)
    (hok : smoothly s label = true) : Smooth oneVm s label := by
  cases label with
  | tick seconds => trivial
  | boot => cases hok
  | api a act =>
    cases act with
    | work | status => trivial
    | request r act =>
      rw [smoothly, Bool.and_eq_true] at hok
      cases act with
      | arrive id method authorized =>
        intro r hprogress
        -- no request in progress has the identifier
        have hid := h.all (p := fun x => !x.phase.inProgress || x.id != id) hok.2
          (fun x hx => by rw [hx]; rfl) r
        rw [hprogress] at hid
        simpa using hid
      | look readable =>
        have hreadable : readable = true := hok.2
        intro hfalse
        rw [hreadable] at hfalse
        cases hfalse
      | _ => trivial
  | guard v act =>
    rw [smoothly] at hok
    cases hphase : (s.guards v).phase with
    | confirming raised poll =>
      rw [hphase] at hok
      cases act with
      | sample =>
        have hpasses := h.all (p := fun x => !x.phase.passes s.flag) hok
          (fun x hx => by rw [hx]; rfl)
        simp only [Smooth, hphase]
        intro _ a _ r
        simpa using hpasses r
      | conclude =>
        simp only [Smooth, hphase]
        exact fun _ => of_decide_eq_true hok
      | _ => cases hok
    | raising =>
      rw [hphase] at hok
      cases act with
      | raiseFlag =>
        -- the guard that raises the flag confirms nothing yet
        rintro v ⟨raised, hraised, -⟩
        rw [hphase] at hraised
        cases hraised
      | _ => cases hok
    | _ =>
      rw [hphase] at hok
      cases act with
      | dropFlag | raiseFlag => cases hok
      | _ => simp only [Smooth, hphase]

theorem drains_refusedWrite : ∃ s t : State Unit Unit,
    RunOf (step oneVm) (Smooth oneVm) (start 0 none) s ∧
      step oneVm s (.guard () .conclude) = some t ∧ (t.guards ()).phase = .idle 0 ∧
        (t.apis ()).Quiet := by
  have hexec : (execOf (step oneVm) smoothly (start 0 none) refusedWrite).any (fun s =>
      smoothly s (.guard () .conclude) && ((s.guards ()).phase != .idle 0) &&
        (step oneVm s (.guard () .conclude)).any
          fun t => (t.guards ()).phase = .idle 0) = true := by
    decide +kernel
  obtain ⟨s, hs, hany⟩ := (Option.any_eq_true _ _).mp hexec
  simp only [Bool.and_eq_true, bne_iff_ne, Option.any_eq_true, decide_eq_true_eq] at hany
  obtain ⟨⟨hsmooth, hbefore⟩, t, hstep, hidle⟩ := hany
  have hstart : TwoRequests (start 0 none) := fun _ _ => rfl
  obtain ⟨hrun, htwo⟩ := runOf_of_execOf_of (fun _ _ => smooth_of_smoothly)
    (fun _ _ _ => TwoRequests.step) hstart hs
  have hquiet := (drains oneVm 0 none s t _ hrun (smooth_of_smoothly htwo hsmooth) hstep () 0
    hidle).1 hbefore () (List.mem_singleton_self _)
  exact ⟨s, t, hrun, hstep, hidle, hquiet⟩

/-- A write passes `draining` before the flag is there, and enters `_writes` after the guard has
read it for the second time. -/
def lateWrite : List (Label Unit Unit) :=
  requests [(0, .arrive 1 (.other "POST") true), (0, .clock), (0, .look true)] ++
  [.guard () .start] ++ asks ++
  [.guard () .conclude, .guard () .raiseFlag, .tick 3, .guard () .settled, .guard () .sample] ++
  requests [(0, .writeStarted)] ++ [.guard () .sample, .guard () .sample]

theorem not_drains : ¬ Drains oneVm fun _ _ => True := by
  intro h
  have hexec : (exec (step oneVm) (start 0 none) lateWrite).any (fun s =>
      ((s.guards ()).phase != .idle 0) && (step oneVm s (.guard () .conclude)).any fun t =>
        (t.guards ()).phase = .idle 0 ∧ (t.apis ()).writes ≠ []) = true := by
    decide +kernel
  obtain ⟨s, hrun, hany⟩ := exists_run_of_exec hexec
  simp only [Bool.and_eq_true, bne_iff_ne, Option.any_eq_true, decide_eq_true_eq] at hany
  obtain ⟨hbefore, t, hstep, hidle, hwrites⟩ := hany
  have hquiet := (h 0 none s t _ hrun trivial hstep () 0 hidle).1 hbefore ()
    (List.mem_singleton_self _)
  exact hwrites hquiet.registered

end Reboot

import Mt5HttpApi.Lib.Effects
import Mt5HttpApi.Watchdog.Recovery
import Mt5HttpApi.Watchdog.Scope
import Mt5HttpApi.Watchdog.StateDisk

/-!
# A sweep over the VMs of a project and their sidecars

`sweepOnce` goes over the VMs, then over the sidecars, and what it has done stays done when an
exception ends it. Which records it decides on does not depend on the records: `sweepOnce_run` says
that the sweep is a decision for each of `visits`, one after another. So a sweep comes through and
leaves valid records if and only if the first decision on each record does (`sweep_mends_iff`).
-/

namespace Watchdog

namespace Raw

open JsonLoads Effects

/-- `int(time.time())`, in seconds since 1970. -/
structure Time where
  seconds : ℤ
  pos : 0 < seconds
  lt : seconds < 2 ^ 63

/-- What a sweep is set up with. `alnum` is `str.isalnum` of a character. -/
structure Setup (F : Type) where
  machine : Machine F
  policy : Policy
  short_maxAttempts : Value.Short policy.maxAttempts
  scope : Scope
  alnum : Char → Bool
  project : String
  dryRun : Bool
  now : Time

/-- What Docker lists in the pass over the VMs and in the one over the sidecars. -/
structure Docker where
  vms : List Container
  sidecars : List Container

/-- The state files by their keys, and what is done in a sweep: the contents that were saved, the
services that `recreate_vm` was called with, and how many recoveries were counted. -/
structure Sweep where
  files : String → Content
  saved : List Content
  recreated : List String
  restarted : ℕ

/-- What `vm_health` has, by the id of a container. -/
abbrev VmHealth := List (String × String)

/-- A computation of the sweep. -/
abbrev Act (α : Type) := ExceptT Raised (StateM Sweep) α

/-- The key of a state file. -/
def stateKey (alnum : Char → Bool) (project service : String) : String :=
  String.ofList ((project ++ "." ++ service).toList.map fun c =>
    if alnum c || c ∈ ['.', '_', '-'] then c else '_')

section Sweeps

variable {F : Type} (u : Setup F)

/-- A decision on the record of a service. -/
structure Visit where
  service : String
  status : String
  failingStreak : ℤ
  deriving DecidableEq

def Visit.key (v : Visit) : String := stateKey u.alnum u.project v.service

def Visit.observation (v : Visit) : Observation := ⟨v.status, v.failingStreak, u.now.seconds⟩

/-- What a decision does. A recreate that fails is counted as well. -/
def Sweep.decided (s : Sweep) (v : Visit) (action : Action) (content : Content) : Sweep where
  files := Function.update s.files (v.key u) content
  saved := if u.dryRun then s.saved else s.saved ++ [content]
  recreated := if action = .restart ∧ ¬ u.dryRun then s.recreated ++ [v.service] else s.recreated
  restarted := if action = .restart then s.restarted + 1 else s.restarted

/-- From `load_state` to `recreate_vm`, as in both passes. -/
def recover (v : Visit) : Act Unit := do
  let s ← MonadState.get
  let r ← MonadExcept.ofExcept
    (consider u.machine u.policy u.dryRun (s.files (v.key u)) (v.observation u))
  set (s.decided u v r.1 r.2)

/-- The pass over the VMs, with what it saw of their health. -/
def sweepVms : List Container → VmHealth → Act VmHealth
  | [], health => pure health
  | c :: vms, health =>
    match healthOf c.inspected with
    | none => sweepVms vms health
    | some (status, streak) =>
      match c.service with
      | none => sweepVms vms (Dict.set health c.id status)
      | some service => do
        recover u ⟨service, status, streak⟩
        sweepVms vms (Dict.set health c.id status)

/-- `sweep_sidecars_once`. -/
def sweepSidecars (vms : List Container) (health : VmHealth) :
    List (Container × String) → Act Unit
  | [] => pure ()
  | (c, token) :: sidecars =>
    match c.service, ownerContainer token vms with
    | some service, some owner =>
      if Dict.get health owner.id = some "healthy" then
        match healthOf c.inspected with
        | none => sweepSidecars vms health sidecars
        | some (status, streak) => do
          recover u ⟨service, status, streak⟩
          sweepSidecars vms health sidecars
      else sweepSidecars vms health sidecars
    | _, _ => sweepSidecars vms health sidecars

/-- `sweep_once`. -/
def sweepOnce (d : Docker) : Act ℕ := do
  let vms := scopedContainers u.scope u.project d.vms
  let health ← sweepVms u vms []
  if u.scope.watchSidecars then
    sweepSidecars u vms health (netnsSidecars u.scope u.project d.sidecars)
  let s ← MonadState.get
  pure s.restarted

/-- The start of a sweep. -/
def Sweep.start (files : String → Content) : Sweep := ⟨files, [], [], 0⟩

/-! ### The decisions of a sweep -/

/-- The decisions on VMs. -/
def vmVisits (vms : List Container) : List Visit :=
  vms.filterMap fun c =>
    match healthOf c.inspected, c.service with
    | some (status, streak), some service => some ⟨service, status, streak⟩
    | _, _ => none

/-- What is seen of the health of VMs. -/
def observe (health : VmHealth) (vms : List Container) : VmHealth :=
  vms.foldl (fun health c =>
    match healthOf c.inspected with
    | some (status, _) => Dict.set health c.id status
    | none => health) health

/-- The decision on a sidecar: there is one only under a healthy owner. -/
def sidecarVisit (vms : List Container) (health : VmHealth) (sidecar : Container × String) :
    Option Visit :=
  match sidecar.1.service, ownerContainer sidecar.2 vms, healthOf sidecar.1.inspected with
  | some service, some owner, some (status, streak) =>
    if Dict.get health owner.id = some "healthy" then some ⟨service, status, streak⟩ else none
  | _, _, _ => none

/-- The decisions of a sweep. -/
def visits (d : Docker) : List Visit :=
  let vms := scopedContainers u.scope u.project d.vms
  vmVisits vms ++
    if u.scope.watchSidecars then
      (netnsSidecars u.scope u.project d.sidecars).filterMap
        (sidecarVisit vms (observe [] vms))
    else []

variable {u} {vms : List Container} {health : VmHealth} {d : Docker}

theorem forM_cons {α : Type} (a : α) (l : List α) (f : α → Act Unit) :
    (a :: l).forM f = f a >>= fun _ => l.forM f := rfl

theorem forM_append {α : Type} (l l' : List α) (f : α → Act Unit) :
    (l ++ l').forM f = l.forM f >>= fun _ => l'.forM f := by
  simp only [List.forM_eq_forM, List.forM_append]

/-- The pass over the VMs is a decision on each of them that has a record. -/
theorem sweepVms_eq (vms : List Container) (health : VmHealth) : sweepVms u vms health =
    (vmVisits vms).forM (recover u) >>= fun _ => pure (observe health vms) := by
  induction vms generalizing health with
  | nil => rfl
  | cons c vms ih =>
    rw [sweepVms, vmVisits, List.filterMap_cons, observe, List.foldl_cons]
    cases healthOf c.inspected with
    | none => exact ih health
    | some seen =>
      cases c.service with
      | none => exact ih _
      | some service =>
        dsimp only
        rw [forM_cons, bind_assoc]
        congr 1
        funext _
        exact ih _

/-- So is the pass over the sidecars. -/
theorem sweepSidecars_eq (sidecars : List (Container × String)) :
    sweepSidecars u vms health sidecars =
      (sidecars.filterMap (sidecarVisit vms health)).forM (recover u) := by
  induction sidecars with
  | nil => rfl
  | cons sidecar sidecars ih =>
    obtain ⟨c, token⟩ := sidecar
    rw [sweepSidecars, List.filterMap_cons, sidecarVisit]
    dsimp only
    cases c.service with
    | none => exact ih
    | some service =>
      cases ownerContainer token vms with
      | none => exact ih
      | some owner =>
        dsimp only
        cases healthOf c.inspected with
        | none =>
          dsimp only
          rw [ih, ite_self]
        | some seen =>
          dsimp only
          split
          next =>
            rw [forM_cons, ih]
          next => exact ih

/-- The sweep is its decisions, one after another. -/
theorem sweepOnce_eq (d : Docker) : sweepOnce u d =
    (visits u d).forM (recover u) >>= fun _ => MonadState.get >>= fun s => pure s.restarted := by
  rw [sweepOnce, sweepVms_eq, visits]
  split
  next =>
    simp only [forM_append, bind_assoc, pure_bind, sweepSidecars_eq]
  next =>
    simp only [List.append_nil, bind_assoc, pure_bind]

/-! ### What a decision does to the state files -/

theorem Time.short (now : Time) : Value.Short now.seconds := by
  have hpow : (2 : ℕ) ^ 63 ≤ 10 ^ PyInt.maxDigits :=
    (Nat.pow_le_pow_left (by decide) 63).trans (Nat.pow_le_pow_right (by decide) (by decide))
  have hpos := now.pos
  have hlt := now.lt
  rw [Value.short_iff]
  omega

variable {v : Visit} {vs : List Visit} {s s' : Sweep} {action : Action} {content : Content}
  {key : String}

/-- The decision of a visit. -/
abbrev Visit.considered (u : Setup F) (v : Visit) (s : Sweep) : Except Raised (Action × Content) :=
  consider u.machine u.policy u.dryRun (s.files (v.key u)) (v.observation u)

theorem run_recover_ok (h : v.considered u s = .ok (action, content)) :
    run (recover u v) s = (.ok (), s.decided u v action content) := by
  rw [recover, run_get_bind, run_ofExcept_bind h, run_set]

theorem run_recover_error {e : Raised} (h : v.considered u s = .error e) :
    run (recover u v) s = (.error e, s) := by
  rw [recover, run_get_bind]
  exact run_bind_of_error (by rw [run_ofExcept, ← h])

/-- What each decision that comes through keeps, each decision keeps. -/
theorem keeps_recover {I : Sweep → Prop} (h : ∀ s action content, I s →
    v.considered u s = .ok (action, content) → I (s.decided u v action content)) :
    Keeps I (recover u v) := by
  intro s hs
  cases hconsider : v.considered u s with
  | error e =>
    rw [run_recover_error hconsider]
    exact hs
  | ok r =>
    rw [run_recover_ok hconsider]
    exact h s r.1 r.2 hs hconsider

/-- Only the files of the decisions are written. -/
theorem files_of_run (h : ∀ v ∈ vs, v.key u ≠ key) :
    (run (vs.forM (recover u)) s).2.files key = s.files key := by
  have hkeeps : Keeps (fun s' => s'.files key = s.files key) (vs.forM (recover u)) := by
    refine Keeps.forM fun v hv => keeps_recover fun s' action content hs' _ => ?_
    show Function.update s'.files (v.key u) content key = s.files key
    rw [Function.update_of_ne (h v hv).symm]
    exact hs'
  exact hkeeps s rfl

/-- A dry run writes none. -/
theorem files_of_dry_run (hdry : u.dryRun = true) :
    (run (vs.forM (recover u)) s).2.files = s.files := by
  have hkeeps : Keeps (fun s' => s'.files = s.files) (vs.forM (recover u)) := by
    refine Keeps.forM fun v _ => keeps_recover fun s' action content hs' hconsider => ?_
    rw [Visit.considered, hdry] at hconsider
    obtain ⟨rfl, -⟩ := consider_dry_ok hconsider
    show Function.update s'.files (v.key u) (s'.files (v.key u)) = s.files
    rw [Function.update_eq_self]
    exact hs'
  exact hkeeps s rfl

/-! ### When a sweep comes through -/

/-- The first decision on each record comes through and leaves a valid record. -/
def FirstMendable (u : Setup F) (vs : List Visit) (files : String → Content) : Prop :=
  ∀ before v after, vs = before ++ v :: after → (∀ w ∈ before, w.key u ≠ v.key u) →
    Mendable u.machine u.policy u.dryRun (files (v.key u)) (v.observation u)

theorem firstMendable_cons {files : String → Content} : FirstMendable u (v :: vs) files ↔
    Mendable u.machine u.policy u.dryRun (files (v.key u)) (v.observation u) ∧
    ∀ before w after, vs = before ++ w :: after → (∀ x ∈ before, x.key u ≠ w.key u) →
      v.key u ≠ w.key u →
        Mendable u.machine u.policy u.dryRun (files (w.key u)) (w.observation u) := by
  constructor
  · intro h
    refine ⟨h [] v vs rfl (by simp), ?_⟩
    rintro before w after rfl hbefore hne
    exact h (v :: before) w after rfl (List.forall_mem_cons.mpr ⟨hne, hbefore⟩)
  · rintro ⟨hv, hvs⟩ before w after heq hbefore
    cases before with
    | nil =>
      obtain ⟨rfl, -⟩ := List.cons.inj heq
      exact hv
    | cons x before =>
      obtain ⟨rfl, hvs'⟩ := List.cons.inj heq
      obtain ⟨hne, hbefore⟩ := List.forall_mem_cons.mp hbefore
      exact hvs before w after hvs' hbefore hne

/-- The records are valid that were saved, and those of the decisions. -/
def AllSound (u : Setup F) (vs : List Visit) (s : Sweep) : Prop :=
  (∀ content ∈ s.saved, Sound u.machine content) ∧
    ∀ v ∈ vs, Sound u.machine (s.files (v.key u))

@[simp]
theorem Sweep.decided_files : (s.decided u v action content).files =
    Function.update s.files (v.key u) content := rfl

/-- The contents that were saved are sound after a decision when they were before and its own is. -/
theorem saved_decided : (∀ c ∈ (s.decided u v action content).saved, Sound u.machine c) ↔
    (∀ c ∈ s.saved, Sound u.machine c) ∧ (u.dryRun = false → Sound u.machine content) := by
  rw [Sweep.decided]
  cases u.dryRun with
  | true => simp
  | false => simp [or_imp, forall_and]

/-- A dry run decides on the content that stays. -/
theorem content_of_dry_run (hdry : u.dryRun = true)
    (h : v.considered u s = .ok (action, content)) : content = s.files (v.key u) := by
  rw [Visit.considered, hdry] at h
  exact (consider_dry_ok h).1

/-- The decisions come through and leave valid records, if and only if the first ones do. -/
theorem forM_mends_iff : (∃ s', run (vs.forM (recover u)) s = (.ok (), s') ∧ AllSound u vs s') ↔
    (∀ content ∈ s.saved, Sound u.machine content) ∧ FirstMendable u vs s.files := by
  induction vs generalizing s with
  | nil =>
    have hrun : run (([] : List Visit).forM (recover u)) s = (.ok (), s) := rfl
    rw [hrun]
    constructor
    · rintro ⟨s', heq, hsaved, -⟩
      cases heq
      exact ⟨hsaved, fun before v after h => by simp at h⟩
    · rintro ⟨hsaved, -⟩
      exact ⟨s, rfl, hsaved, by simp⟩
  | cons v vs ih =>
    rw [firstMendable_cons, forM_cons]
    constructor
    · rintro ⟨s', hrun, hsaved, hvs⟩
      cases hconsider : v.considered u s with
      | error e =>
        rw [run_bind_of_error (run_recover_error hconsider)] at hrun
        cases hrun
      | ok r =>
        obtain ⟨action, content⟩ := r
        rw [run_bind_of_ok (run_recover_ok hconsider)] at hrun
        obtain ⟨hv, hvs⟩ := List.forall_mem_cons.mp hvs
        obtain ⟨hsaved', hfirst⟩ := ih.mp ⟨s', hrun, hsaved, hvs⟩
        obtain ⟨hbefore, hwet⟩ := saved_decided.mp hsaved'
        -- what the decision leaves is what it saved, or in a dry run what is there at the end
        have hsound : Sound u.machine content := by
          cases hdry : u.dryRun with
          | false => exact hwet hdry
          | true =>
            have hfiles := @files_of_dry_run F u vs (s.decided u v action content) hdry
            rw [hrun] at hfiles
            rw [hfiles, Sweep.decided_files, Function.update_self] at hv
            exact hv
        refine ⟨hbefore, (leaves_sound_iff u.short_maxAttempts u.now.short).mp
          ⟨action, content, hconsider, hsound⟩, fun before w after heq hw hne => ?_⟩
        have hmendable := hfirst before w after heq hw
        rwa [Sweep.decided_files, Function.update_of_ne hne.symm] at hmendable
    · rintro ⟨hsaved, hmendable, hfirst⟩
      obtain ⟨action, content, hconsider, hsound⟩ :=
        (leaves_sound_iff u.short_maxAttempts u.now.short).mpr hmendable
      have hrest : FirstMendable u vs (s.decided u v action content).files := by
        intro before w after heq hw
        rw [Sweep.decided_files]
        by_cases hkey : v.key u = w.key u
        · rw [← hkey, Function.update_self]
          exact mendable_of_consider u.short_maxAttempts u.now.short hconsider hsound
        · rw [Function.update_of_ne (Ne.symm hkey)]
          exact hfirst before w after heq hw hkey
      obtain ⟨s', hrun, hsaved', hvs⟩ := (@ih (s.decided u v action content)).mpr
        ⟨saved_decided.mpr ⟨hsaved, fun _ => hsound⟩, hrest⟩
      refine ⟨s', by rw [run_bind_of_ok (run_recover_ok hconsider), hrun], hsaved',
        List.forall_mem_cons.mpr ⟨?_, hvs⟩⟩
      by_cases hagain : ∃ w ∈ vs, w.key u = v.key u
      · obtain ⟨w, hw, hkey⟩ := hagain
        rw [← hkey]
        exact hvs w hw
      · push Not at hagain
        have hfiles := @files_of_run F u vs (s.decided u v action content) _ hagain
        rw [hrun, Sweep.decided_files, Function.update_self] at hfiles
        rw [hfiles]
        exact hsound

/-- **A record of any shape.** A sweep comes through without an exception, and the records that it
saved and those that it decided on are valid, if and only if the first decision on each record finds
one that `decide` copes with. -/
theorem sweep_mends_iff (u : Setup F) (d : Docker) (files : String → Content) :
    (∃ n s', run (sweepOnce u d) (Sweep.start files) = (.ok n, s') ∧
      AllSound u (visits u d) s') ↔ FirstMendable u (visits u d) files := by
  have hstart : (∀ content ∈ (Sweep.start files).saved, Sound u.machine content) ∧
      FirstMendable u (visits u d) (Sweep.start files).files ↔
        FirstMendable u (visits u d) files :=
    ⟨fun h => h.2, fun h => ⟨fun content hmem => absurd hmem List.not_mem_nil, h⟩⟩
  rw [← hstart, ← forM_mends_iff, sweepOnce_eq]
  constructor
  · rintro ⟨n, s', hrun, hall⟩
    rcases hloop : run ((visits u d).forM (recover u)) (Sweep.start files) with ⟨e | _, s''⟩
    · rw [run_bind_of_error hloop] at hrun
      cases hrun
    · rw [run_bind_of_ok hloop] at hrun
      cases hrun
      exact ⟨s', rfl, hall⟩
  · rintro ⟨s', hrun, hall⟩
    exact ⟨s'.restarted, s', by rw [run_bind_of_ok hrun]; rfl, hall⟩

end Sweeps

/-! ### A list in the place of a record -/

/-- Floats where no other than `NaN` is read or written. -/
def nanOnly : Floats Unit where
  parse _ := ()
  repr _ := "NaN".toList
  reads_repr _ := by
    refine ⟨⟨'N', "aN".toList, rfl, by decide⟩, fun fuel d rest hfuel _ _ => ?_⟩
    obtain ⟨fuel, rfl⟩ := Nat.exists_eq_succ_of_ne_zero (n := fuel) (by omega)
    show scanOnce _ (fuel + 1) d ('N' :: ("aN".toList ++ rest)) = _
    rw [scanOnce_plain (by decide) (by decide) (by decide)]
    simp [scanPlain, JsonLoads.named, orError, Except.map]
  printable_repr _ := by decide
  isZero _ := false
  add _ _ := ()
  sub _ _ := ()
  subFrom _ _ := ()
  lt _ _ := false
  gt _ _ := false
  ge _ _ := false

/-- The settings of an environment that sets nothing, in a project `mt5`. -/
def mt5 (dryRun : Bool) : Setup Unit where
  machine := ⟨nanOnly, 900, 900, 400, by decide, by decide, by decide⟩
  policy := defaults
  short_maxAttempts := short_of_digit (by decide)
  scope := ⟨"dockurr/windows", "watchdog", "d0", true⟩
  alnum := Char.isAlphanum
  project := "mt5"
  dryRun := dryRun
  now := ⟨1700000000, by decide, by decide⟩

/-- A container of the project. -/
def container (id service image networkMode status : String) (streak : ℤ) : Container :=
  ⟨id, ["/" ++ service], image, [("com.docker.compose.project", "mt5"),
    ("com.docker.compose.service", service)], networkMode,
    .state (some ⟨some status, some streak⟩)⟩

/-- A VM that is starting, and a list in the place of its record. -/
theorem not_sweep_mends :
    run (sweepOnce (mt5 false) ⟨[container "a1" "mt5" "dockurr/windows:5.14" "default"
      "starting" 0], []⟩) (Sweep.start fun _ => some (Utf8.encode "[]".toList)) =
        (.error .typeError, Sweep.start fun _ => some (Utf8.encode "[]".toList)) ∧
      Raised.typeError.caught = false := by
  refine ⟨?_, rfl⟩
  have hload : loadState (mt5 false).machine (some (Utf8.encode "[]".toList)) =
      .ok (.arr []) := by
    rw [loadState, load, Utf8.decode_encode]
    rfl
  have hdecide : ∀ o : Observation, o.status = "starting" →
      decide nanOnly defaults (.arr []) o = .error .typeError := by
    intro o ho
    rw [decide, endRun, if_pos (by rw [ho]; decide)]
    rfl
  have hconsider : consider (mt5 false).machine (mt5 false).policy (mt5 false).dryRun
      (some (Utf8.encode "[]".toList)) (Visit.observation (mt5 false) ⟨"mt5", "starting", 0⟩) =
        .error .typeError := by
    show consider _ _ false _ _ = _
    rw [consider_wet hload]
    show decide nanOnly defaults (.arr []) _ >>= _ = _
    rw [hdecide _ rfl]
    rfl
  have hvisits : visits (mt5 false) ⟨[container "a1" "mt5" "dockurr/windows:5.14" "default"
      "starting" 0], []⟩ = [⟨"mt5", "starting", 0⟩] := by
    decide
  rw [sweepOnce_eq, hvisits, forM_cons, bind_assoc]
  exact run_bind_of_error (run_recover_error hconsider)

end Raw

end Watchdog

import Mathlib.Data.List.MinMax
import Mathlib.Logic.Function.Basic
import Mt5HttpApi.Lib.Transition

/-!
# Calls into the SDK and their threads

`_run_with_timeout` runs each SDK function in a thread of its own and gives up on it after a
timeout. The thread goes on, so a table of the threads that have not returned yet keeps a second
call out of the SDK: a call that finds the table non-empty is refused as wedged.

Threads `T` take the session lock and make calls, and every call `J` has its worker thread. Each
access to the table is one step, and the steps of callers and workers interleave freely.

- `System.accounts`: the table is right, if every worker thread starts and no guard falls between
  the end of a function and the deregistration that follows it;
- `System.not_accounts`: a thread that fails to start is refused to every later call.
-/

namespace Sdk

open Transition

variable {T J R : Type} [DecidableEq T] [DecidableEq J]

/-- A `_run_with_timeout` call whose thread has not returned yet, under its key. -/
structure SdkWorker (J : Type) where
  key : J
  fnName : String
  startedAt : ℕ
  deriving DecidableEq

/-- The arguments of a call, in seconds. -/
structure Args where
  name : String
  timeout : ℕ
  allowWedged : Bool

/-- How a call ends for its caller. What the function ends with, a value or an exception, is passed
on; a thread that does not start leaves the call with the error of the start. -/
inductive Outcome (R : Type) where
  | ended (result : R)
  | mt5Timeout (message : String)
  | mt5Wedged (message : String)
  | unstarted
  deriving DecidableEq

/-- Where a caller is in `_run_with_timeout`. -/
inductive Pc where
  /-- Before the single-flight guard. -/
  | guard
  /-- Before `_add_sdk_worker`. -/
  | add
  /-- Before the start of the thread. -/
  | start
  /-- Waiting for the thread, or for the timeout. -/
  | wait
  deriving DecidableEq

/-- A call in progress. -/
structure Call (J : Type) where
  key : J
  pc : Pc
  deriving DecidableEq

/-- Where the worker thread of a call is. -/
inductive Phase (R : Type) where
  | absent
  /-- In the SDK function. -/
  | inside
  /-- The function has ended: before `_remove_sdk_worker`. -/
  | leaving (result : R)
  /-- Deregistered: before the event is set. -/
  | notifying (result : R)
  | gone (result : R)
  deriving DecidableEq

namespace Phase

/-- The thread has started and has not deregistered. -/
def isLive : Phase R → Bool
  | .inside | .leaving _ => true
  | _ => false

def isLeaving : Phase R → Bool
  | .leaving _ => true
  | _ => false

/-- A live thread that is not about to deregister is in its function. -/
theorem eq_inside {phase : Phase R} (hlive : phase.isLive = true)
    (hleaving : phase.isLeaving = false) : phase = .inside := by
  cases phase with
  | inside => rfl
  | leaving result => cases hleaving
  | absent => cases hlive
  | notifying result => cases hlive
  | gone result => cases hlive

end Phase

/-- The lock, the calls in progress and those that have ended, the worker threads and the table of
them. `forgotten` is a history variable: the call was dropped by `_forget_sdk_workers`. -/
structure System (T J R : Type) where
  holder : Option T
  calls : T → Option (Call J)
  outcome : J → Option (Outcome R)
  phase : J → Phase R
  sdkWorkers : List (SdkWorker J)
  forgotten : J → Bool
  now : ℕ

/-- A step of a thread that uses the session, of the worker of a call, or of the clock. -/
inductive Label (T J R : Type) where
  | acquire (c : T)
  | release (c : T)
  /-- The holder enters `_run_with_timeout`. -/
  | call (c : T) (j : J)
  | guard (c : T)
  | add (c : T)
  | start (c : T) (ok : Bool)
  | timeout (c : T)
  | done (c : T)
  /-- The SDK function ends. -/
  | finish (j : J) (result : R)
  | remove (j : J)
  | set (j : J)
  /-- `_forget_sdk_workers`, after a restart of the terminal. -/
  | forget (c : T)
  | tick (seconds : ℕ)

namespace System

/-- The number of live workers and the oldest of them. -/
def sdkWorkerState (s : System T J R) : ℕ × Option (SdkWorker J) :=
  (s.sdkWorkers.length, s.sdkWorkers.argmin SdkWorker.startedAt)

/-- The keys of the table. -/
def keys (s : System T J R) : List J := s.sdkWorkers.map SdkWorker.key

/-- Thread `c` goes on with its call at `pc`. -/
def goto (s : System T J R) (c : T) (j : J) (pc : Pc) : System T J R :=
  { s with calls := Function.update s.calls c (some ⟨j, pc⟩) }

/-- `_run_with_timeout` returns to `c`, or raises. -/
def leave (s : System T J R) (c : T) (j : J) (o : Outcome R) : System T J R :=
  { s with
    calls := Function.update s.calls c none
    outcome := Function.update s.outcome j (some o) }

/-- The worker of call `j` goes on to `phase`. -/
def work (s : System T J R) (j : J) (phase : Phase R) : System T J R :=
  { s with phase := Function.update s.phase j phase }

/-- `_add_sdk_worker`. -/
def addSdkWorker (s : System T J R) (j : J) (fnName : String) : System T J R :=
  { s with sdkWorkers := s.sdkWorkers ++ [⟨j, fnName, s.now⟩] }

/-- `_remove_sdk_worker`: a key that is not there is no error. -/
def removeSdkWorker (s : System T J R) (j : J) : System T J R :=
  { s with sdkWorkers := s.sdkWorkers.filter fun w => w.key ≠ j }

/-- `_forget_sdk_workers`. -/
def forgetSdkWorkers (s : System T J R) : System T J R :=
  { s with sdkWorkers := [], forgotten := fun j => s.forgotten j || decide (j ∈ s.keys) }

/-- One step, or `none` if the thread is elsewhere. -/
def step (args : J → Args) (s : System T J R) : Label T J R → Option (System T J R)
  | .acquire c => if s.holder = none then some { s with holder := some c } else none
  | .release c =>
    if s.holder = some c ∧ s.calls c = none then some { s with holder := none } else none
  | .call c j =>
    -- The key of a call is a fresh object.
    if s.holder = some c ∧ s.calls c = none ∧ s.outcome j = none then
      some (s.goto c j .guard)
    else none
  | .guard c =>
    match s.calls c with
    | some ⟨j, .guard⟩ =>
      if (args j).allowWedged then some (s.goto c j .add)
      else
        match s.sdkWorkerState.2 with
        | none => some (s.goto c j .add)
        | some oldest =>
          some (s.leave c j (.mt5Wedged s!"{oldest.fnName} stuck {s.now - oldest.startedAt}s"))
    | _ => none
  | .add c =>
    match s.calls c with
    | some ⟨j, .add⟩ => some ((s.addSdkWorker j (args j).name).goto c j .start)
    | _ => none
  | .start c ok =>
    match s.calls c with
    | some ⟨j, .start⟩ =>
      if ok then some ((s.work j .inside).goto c j .wait) else some (s.leave c j .unstarted)
    | _ => none
  | .timeout c =>
    match s.calls c with
    | some ⟨j, .wait⟩ =>
      match s.phase j with
      | .gone _ => none
      | _ => some (s.leave c j (.mt5Timeout s!"call timed out after {(args j).timeout}s"))
    | _ => none
  | .done c =>
    match s.calls c with
    | some ⟨j, .wait⟩ =>
      match s.phase j with
      | .gone result => some (s.leave c j (.ended result))
      | _ => none
    | _ => none
  | .finish j result =>
    match s.phase j with
    | .inside => some (s.work j (.leaving result))
    | _ => none
  | .remove j =>
    match s.phase j with
    | .leaving result => some ((s.removeSdkWorker j).work j (.notifying result))
    | _ => none
  | .set j =>
    match s.phase j with
    | .notifying result => some (s.work j (.gone result))
    | _ => none
  | .forget c =>
    if s.holder = some c ∧ s.calls c = none then some s.forgetSdkWorkers else none
  | .tick seconds => some { s with now := s.now + seconds }

/-- No call has been made. -/
structure Start (s : System T J R) : Prop where
  holder : s.holder = none
  calls : ∀ c, s.calls c = none
  outcome : ∀ j, s.outcome j = none
  phase : ∀ j, s.phase j = .absent
  sdkWorkers : s.sdkWorkers = []

/-- What the table is for, at a step from `s` to `t`. -/
structure Accounted (args : J → Args) (s : System T J R) (l : Label T J R) (t : System T J R) :
    Prop where
  /-- A function starts while no earlier one is inside, other than one that was forgotten, except
  for a call with `allow_wedged`. -/
  single_flight : ∀ c j, l = .start c true → s.calls c = some ⟨j, .start⟩ →
    (args j).allowWedged = true ∨ ∀ k, s.phase k = .inside → s.forgotten k = true
  /-- A call is refused as wedged while the function of another one is inside. -/
  no_false_wedge : ∀ j message, s.outcome j = none → t.outcome j = some (.mt5Wedged message) →
    ∃ k, k ≠ j ∧ s.phase k = .inside
  /-- A call that has returned or raised is in the table only as long as its thread runs. -/
  kept : ∀ j, t.outcome j ≠ none → j ∈ t.keys → (t.phase j).isLive = true

/-- The table is empty, or has a call whose thread is not just about to deregister. -/
def Settled (s : System T J R) : Prop :=
  s.sdkWorkers = [] ∨ ∃ w ∈ s.sdkWorkers, (s.phase w.key).isLeaving = false

/-- A thread starts, and a guard does not fall between the end of the only functions there are and
their deregistration. -/
def Ok (args : J → Args) (s : System T J R) : Label T J R → Prop
  | .start _ ok => ok = true
  | .guard c => ∀ call ∈ s.calls c, (args call.key).allowWedged = true ∨ s.Settled
  | _ => True

/-! ### What a step can do -/

/-- The steps, each with what it needs and what it does. -/
inductive Move (args : J → Args) (s : System T J R) : Label T J R → System T J R → Prop where
  | acquire (c) (hfree : s.holder = none) : Move args s (.acquire c) { s with holder := some c }
  | release (c) (hheld : s.holder = some c) (hidle : s.calls c = none) :
    Move args s (.release c) { s with holder := none }
  | call (c j) (hheld : s.holder = some c) (hidle : s.calls c = none) (hnew : s.outcome j = none) :
    Move args s (.call c j) (s.goto c j .guard)
  | pass (c j) (hcall : s.calls c = some ⟨j, .guard⟩)
    (hpass : (args j).allowWedged = true ∨ s.sdkWorkers = []) :
    Move args s (.guard c) (s.goto c j .add)
  | refuse (c j message) (hcall : s.calls c = some ⟨j, .guard⟩)
    (hguard : (args j).allowWedged = false) (hsome : s.sdkWorkers ≠ []) :
    Move args s (.guard c) (s.leave c j (.mt5Wedged message))
  | add (c j) (hcall : s.calls c = some ⟨j, .add⟩) :
    Move args s (.add c) ((s.addSdkWorker j (args j).name).goto c j .start)
  | start (c j) (hcall : s.calls c = some ⟨j, .start⟩) :
    Move args s (.start c true) ((s.work j .inside).goto c j .wait)
  | unstarted (c j) (hcall : s.calls c = some ⟨j, .start⟩) :
    Move args s (.start c false) (s.leave c j .unstarted)
  | timeout (c j message) (hcall : s.calls c = some ⟨j, .wait⟩) :
    Move args s (.timeout c) (s.leave c j (.mt5Timeout message))
  | done (c j result) (hcall : s.calls c = some ⟨j, .wait⟩) (hgone : s.phase j = .gone result) :
    Move args s (.done c) (s.leave c j (.ended result))
  | finish (j result) (hinside : s.phase j = .inside) :
    Move args s (.finish j result) (s.work j (.leaving result))
  | remove (j result) (hleaving : s.phase j = .leaving result) :
    Move args s (.remove j) ((s.removeSdkWorker j).work j (.notifying result))
  | set (j result) (hnotifying : s.phase j = .notifying result) :
    Move args s (.set j) (s.work j (.gone result))
  | forget (c) (hheld : s.holder = some c) (hidle : s.calls c = none) :
    Move args s (.forget c) s.forgetSdkWorkers
  | tick (seconds) : Move args s (.tick seconds) { s with now := s.now + seconds }

variable {args : J → Args} {s t : System T J R} {l : Label T J R} {c c' : T} {j k : J} {pc : Pc}

omit [DecidableEq T] [DecidableEq J] in
/-- The oldest worker is missing only from an empty table. -/
theorem sdkWorkerState_oldest_eq_none : s.sdkWorkerState.2 = none ↔ s.sdkWorkers = [] :=
  List.argmin_eq_none

/-- The guard either lets the call through or refuses it. -/
theorem move_guard (h : step args s (.guard c) = some t) : Move args s (.guard c) t := by
  rw [step] at h
  split at h
  next j hcall =>
    split at h
    next hallow =>
      cases h
      exact .pass c j hcall (.inl hallow)
    next hallow =>
      have hguard : (args j).allowWedged = false := Bool.eq_false_iff.mpr hallow
      split at h
      next holdest =>
        cases h
        exact .pass c j hcall (.inr (sdkWorkerState_oldest_eq_none.mp holdest))
      next oldest holdest =>
        cases h
        refine .refuse c j _ hcall hguard fun hnil => ?_
        rw [sdkWorkerState_oldest_eq_none.mpr hnil] at holdest
        cases holdest
  next => cases h

/-- Every step is a move. -/
theorem move_of_step (h : step args s l = some t) : Move args s l t := by
  cases l with
  | guard c => exact move_guard h
  | acquire c =>
    obtain ⟨hfree, h⟩ := Option.ite_none_right_eq_some.mp h
    cases h
    exact .acquire c hfree
  | release c =>
    obtain ⟨⟨hheld, hidle⟩, h⟩ := Option.ite_none_right_eq_some.mp h
    cases h
    exact .release c hheld hidle
  | call c j =>
    obtain ⟨⟨hheld, hidle, hnew⟩, h⟩ := Option.ite_none_right_eq_some.mp h
    cases h
    exact .call c j hheld hidle hnew
  | forget c =>
    obtain ⟨⟨hheld, hidle⟩, h⟩ := Option.ite_none_right_eq_some.mp h
    cases h
    exact .forget c hheld hidle
  | tick seconds =>
    cases h
    exact .tick seconds
  | add c =>
    rw [step] at h
    split at h <;> cases h
    next j hcall => exact .add c j hcall
  | start c ok =>
    rw [step] at h
    split at h
    next j hcall =>
      cases ok with
      | true =>
        cases h
        exact .start c j hcall
      | false =>
        cases h
        exact .unstarted c j hcall
    next => cases h
  | timeout c =>
    rw [step] at h
    split at h
    next j hcall =>
      split at h <;> cases h
      exact .timeout c j _ hcall
    next => cases h
  | done c =>
    rw [step] at h
    split at h
    next j hcall =>
      split at h <;> cases h
      next result hgone => exact .done c j result hcall hgone
    next => cases h
  | finish j result =>
    rw [step] at h
    split at h <;> cases h
    next hinside => exact .finish j result hinside
  | remove j =>
    rw [step] at h
    split at h <;> cases h
    next result hleaving => exact .remove j result hleaving
  | set j =>
    rw [step] at h
    split at h <;> cases h
    next result hnotifying => exact .set j result hnotifying

/-! ### The invariant -/

/-- The call under the lock. -/
def current (s : System T J R) : Option (Call J) := s.holder.bind s.calls

/-- Only the holder of the lock has a call in progress. -/
def Held (s : System T J R) : Prop := ∀ c call, s.calls c = some call → s.holder = some c

/-- The table against the worker threads and the call `cur` under the lock. -/
structure Tracks (args : J → Args) (cur : Option (Call J)) (s : System T J R) : Prop where
  fresh : ∀ j pc, cur = some ⟨j, pc⟩ → s.outcome j = none
  begun : ∀ j, s.phase j ≠ .absent → s.outcome j ≠ none ∨ cur = some ⟨j, .wait⟩
  live : ∀ j, (s.phase j).isLive = true → s.forgotten j = true ∨ j ∈ s.keys
  tabled : ∀ j ∈ s.keys, (s.phase j).isLive = true ∨ cur = some ⟨j, .start⟩
  added : ∀ j, cur = some ⟨j, .start⟩ → j ∈ s.keys
  /-- A call that the guard has let through is alone in the table. -/
  alone : ∀ j, cur = some ⟨j, .add⟩ ∨ cur = some ⟨j, .start⟩ → (args j).allowWedged = false →
    ∀ k ∈ s.keys, k = j

/-- The invariant of the system. -/
def Inv (args : J → Args) (s : System T J R) : Prop := s.Held ∧ Tracks args s.current s

omit [DecidableEq T] [DecidableEq J] in
theorem Held.current_eq (hs : s.Held) {call : Call J} (hcall : s.calls c = some call) :
    s.current = some call := by
  rw [current, hs c call hcall, Option.bind_some, hcall]

omit [DecidableEq T] [DecidableEq J] in
theorem current_eq_none (hheld : s.holder = some c) (hidle : s.calls c = none) :
    s.current = none := by
  rw [current, hheld, Option.bind_some, hidle]

omit [DecidableEq J] in
/-- Whatever the holder's call becomes, nobody else has one. -/
theorem Held.update (hs : s.Held) (hheld : s.holder = some c) (o : Option (Call J)) :
    Held { s with calls := Function.update s.calls c o } := by
  intro c' call hcall
  rcases eq_or_ne c' c with rfl | hne
  · exact hheld
  · exact hs c' call ((Function.update_of_ne hne _ _).symm.trans hcall)

omit [DecidableEq J] in
theorem goto_current (hheld : s.holder = some c) : (s.goto c j pc).current = some ⟨j, pc⟩ := by
  show s.holder.bind (Function.update s.calls c (some ⟨j, pc⟩)) = _
  rw [hheld, Option.bind_some, Function.update_self]

theorem leave_current (hheld : s.holder = some c) {o : Outcome R} :
    (s.leave c j o).current = none := by
  show s.holder.bind (Function.update s.calls c none) = none
  rw [hheld, Option.bind_some, Function.update_self]

omit [DecidableEq T] in
@[simp]
theorem work_phase_self {phase : Phase R} : (s.work j phase).phase j = phase :=
  Function.update_self _ _ _

omit [DecidableEq T] in
theorem work_phase_of_ne (hkj : k ≠ j) {phase : Phase R} : (s.work j phase).phase k = s.phase k :=
  Function.update_of_ne hkj _ _

omit [DecidableEq T] [DecidableEq J] in
theorem mem_keys_add {name : String} : k ∈ (s.addSdkWorker j name).keys ↔ k ∈ s.keys ∨ k = j := by
  rw [keys, addSdkWorker, List.map_append, List.mem_append]
  exact or_congr Iff.rfl List.mem_singleton

omit [DecidableEq T] in
theorem mem_keys_remove : k ∈ (s.removeSdkWorker j).keys ↔ k ∈ s.keys ∧ k ≠ j := by
  simp only [keys, removeSdkWorker, List.mem_map, List.mem_filter, decide_eq_true_eq]
  constructor
  · rintro ⟨w, ⟨hw, hne⟩, rfl⟩
    exact ⟨⟨w, hw, rfl⟩, hne⟩
  · rintro ⟨⟨w, hw, rfl⟩, hne⟩
    exact ⟨w, ⟨hw, hne⟩, rfl⟩

namespace Tracks

variable {cur : Option (Call J)} {phase : Phase R}

omit [DecidableEq T] [DecidableEq J] in
/-- The thread of a call that is not waiting for it has not started. -/
theorem absent (hs : Tracks args (some ⟨j, pc⟩) s) (hpc : pc ≠ .wait) : s.phase j = .absent := by
  by_contra hphase
  rcases hs.begun j hphase with hended | hwait
  · exact hended (hs.fresh j pc rfl)
  · cases hwait
    exact hpc rfl

omit [DecidableEq T] [DecidableEq J] in
/-- While no call is about to start its thread, the table holds live threads only. -/
theorem tabled_of_ne (hs : Tracks args cur s) (hcur : ∀ j, cur ≠ some ⟨j, .start⟩) :
    ∀ j ∈ s.keys, (s.phase j).isLive = true :=
  fun j hj => (hs.tabled j hj).resolve_right (hcur j)

omit [DecidableEq T] [DecidableEq J] in
/-- A call begins, or its guard lets it through. -/
theorem enter (hs : Tracks args cur s) (hcur : ∀ k pc', cur = some ⟨k, pc'⟩ → pc' = .guard)
    (hnew : s.outcome j = none)
    (hpass : pc = .guard ∨ pc = .add ∧ ((args j).allowWedged = true ∨ s.sdkWorkers = [])) :
    Tracks args (some ⟨j, pc⟩) s where
  fresh k pc' hk := by
    cases hk
    exact hnew
  begun k hk := by
    refine .inl ((hs.begun k hk).resolve_right fun hwait => ?_)
    cases hcur k _ hwait
  live := hs.live
  tabled k hk := by
    refine .inl (hs.tabled_of_ne (fun j hj => ?_) k hk)
    cases hcur j _ hj
  added k hk := by
    cases hk
    rcases hpass with hpc | ⟨hpc, -⟩ <;> cases hpc
  alone k hk hguard k' hk' := by
    rcases hpass with rfl | ⟨rfl, hallow | hnil⟩
    · rcases hk with hk | hk <;> cases hk
    · rcases hk with hk | hk <;> cases hk
      rw [hguard] at hallow
      cases hallow
    · rw [keys, hnil] at hk'
      cases hk'

/-- A call that has not left its thread unstarted ends. -/
theorem leave (hs : Tracks args (some ⟨j, pc⟩) s) (hpc : pc ≠ .start) {o : Outcome R} :
    Tracks args none (s.leave c j o) where
  fresh k pc' hk := by cases hk
  begun k hk := by
    refine .inl ?_
    rcases eq_or_ne k j with rfl | hkj
    · exact (Function.update_self k (some o) s.outcome).trans_ne (Option.some_ne_none o)
    · refine (Function.update_of_ne hkj (some o) s.outcome).trans_ne ?_
      refine (hs.begun k hk).resolve_right fun hwait => ?_
      cases hwait
      exact hkj rfl
  live := hs.live
  tabled k hk := by
    refine .inl (hs.tabled_of_ne (fun j hj => ?_) k hk)
    cases hj
    exact hpc rfl
  added k hk := by cases hk
  alone k hk := by rcases hk with hk | hk <;> cases hk

omit [DecidableEq T] [DecidableEq J] in
/-- A call registers its thread. -/
theorem add (hs : Tracks args (some ⟨j, .add⟩) s) {name : String} :
    Tracks args (some ⟨j, .start⟩) (s.addSdkWorker j name) where
  fresh k pc' hk := by
    cases hk
    exact hs.fresh j _ rfl
  begun k hk := by
    refine .inl ((hs.begun k hk).resolve_right fun hwait => ?_)
    cases hwait
  live k hk := (hs.live k hk).imp id fun h => mem_keys_add.mpr (.inl h)
  tabled k hk := by
    rcases mem_keys_add.mp hk with hk | rfl
    · exact .inl ((hs.tabled k hk).resolve_right (by simp))
    · exact .inr rfl
  added k hk := by
    cases hk
    exact mem_keys_add.mpr (.inr rfl)
  alone k hk hguard k' hk' := by
    rcases hk with hk | hk <;> cases hk
    rcases mem_keys_add.mp hk' with hk' | rfl
    · exact hs.alone j (.inl rfl) hguard k' hk'
    · rfl

omit [DecidableEq T] in
/-- The thread of a call starts. -/
theorem start (hs : Tracks args (some ⟨j, .start⟩) s) :
    Tracks args (some ⟨j, .wait⟩) (s.work j .inside) where
  fresh k pc' hk := by
    cases hk
    exact hs.fresh j _ rfl
  begun k hk := by
    rcases eq_or_ne k j with rfl | hkj
    · exact .inr rfl
    · refine .inl ((hs.begun k ?_).resolve_right (by simp))
      exact (work_phase_of_ne hkj).symm.trans_ne hk
  live k hk := by
    rcases eq_or_ne k j with rfl | hkj
    · exact .inr (hs.added k rfl)
    · rw [work_phase_of_ne hkj] at hk
      exact hs.live k hk
  tabled k hk := by
    refine .inl ?_
    rcases eq_or_ne k j with rfl | hkj
    · rw [work_phase_self]
      rfl
    · rw [work_phase_of_ne hkj]
      refine (hs.tabled k hk).resolve_right fun hstart => ?_
      cases hstart
      exact hkj rfl
  added k hk := by cases hk
  alone k hk := by rcases hk with hk | hk <;> cases hk

omit [DecidableEq T] in
/-- A thread that has started goes on and is as live as before. -/
theorem work (hs : Tracks args cur s) (hbegun : s.phase j ≠ .absent)
    (hlive : phase.isLive = (s.phase j).isLive) : Tracks args cur (s.work j phase) := by
  have hphase : ∀ k, ((s.work j phase).phase k).isLive = (s.phase k).isLive := by
    intro k
    rcases eq_or_ne k j with rfl | hkj
    · rw [work_phase_self, hlive]
    · rw [work_phase_of_ne hkj]
  refine { hs with begun := fun k hk => ?_, live := fun k hk => ?_, tabled := fun k hk => ?_ }
  · rcases eq_or_ne k j with rfl | hkj
    · exact hs.begun k hbegun
    · exact hs.begun k ((work_phase_of_ne hkj).symm.trans_ne hk)
  · exact hs.live k ((hphase k).symm.trans hk)
  · exact (hs.tabled k hk).imp (hphase k).trans id

omit [DecidableEq T] in
/-- A thread whose function has ended deregisters. -/
theorem remove (hs : Tracks args cur s) {result : R} (hleaving : s.phase j = .leaving result) :
    Tracks args cur ((s.removeSdkWorker j).work j (.notifying result)) where
  fresh := hs.fresh
  begun k hk := by
    rcases eq_or_ne k j with rfl | hkj
    · refine hs.begun k ?_
      rw [hleaving]
      simp
    · exact hs.begun k ((work_phase_of_ne hkj).symm.trans_ne hk)
  live k hk := by
    rcases eq_or_ne k j with rfl | hkj
    · rw [work_phase_self] at hk
      cases hk
    · rw [work_phase_of_ne hkj] at hk
      exact (hs.live k hk).imp id fun h => mem_keys_remove.mpr ⟨h, hkj⟩
  tabled k hk := by
    obtain ⟨hk, hkj⟩ := mem_keys_remove.mp hk
    rw [work_phase_of_ne hkj]
    exact hs.tabled k hk
  added k hk := by
    refine mem_keys_remove.mpr ⟨hs.added k hk, ?_⟩
    -- The thread of a call that is about to start it is not leaving.
    rintro rfl
    rw [hk] at hs
    rw [hs.absent (by decide)] at hleaving
    cases hleaving
  alone k hk hguard k' hk' := hs.alone k hk hguard k' (mem_keys_remove.mp hk').1

omit [DecidableEq T] in
/-- The table is emptied, between two calls. -/
theorem forget (hs : Tracks args none s) : Tracks args none s.forgetSdkWorkers where
  fresh := hs.fresh
  begun := hs.begun
  live k hk := by
    refine .inl (Bool.or_eq_true_iff.mpr ?_)
    exact (hs.live k hk).imp id decide_eq_true
  tabled k hk := by cases hk
  added k hk := by cases hk
  alone k hk := by rcases hk with hk | hk <;> cases hk

end Tracks

omit [DecidableEq T] [DecidableEq J] in
theorem Start.inv (hs : s.Start) : s.Inv args := by
  refine ⟨fun c call hcall => ?_, ?_⟩
  · rw [hs.calls c] at hcall
    cases hcall
  have hcurrent : s.current = none := by rw [current, hs.holder, Option.bind_none]
  have hkeys : s.keys = [] := by rw [keys, hs.sdkWorkers, List.map_nil]
  rw [hcurrent]
  refine ⟨fun j pc hj => ?_, fun j hj => ?_, fun j hj => ?_, fun j hj => ?_, fun j hj => ?_,
    fun j hj => ?_⟩
  · cases hj
  · exact absurd (hs.phase j) hj
  · rw [hs.phase j] at hj
    cases hj
  · rw [hkeys] at hj
    cases hj
  · cases hj
  · rcases hj with hj | hj <;> cases hj

namespace Inv

omit [DecidableEq T] [DecidableEq J] in
/-- The call of a thread is the one under the lock. -/
theorem tracks_call (hs : s.Inv args) (hcall : s.calls c = some ⟨j, pc⟩) :
    Tracks args (some ⟨j, pc⟩) s := by
  rw [← hs.1.current_eq hcall]
  exact hs.2

omit [DecidableEq T] [DecidableEq J] in
theorem tracks_none (hs : s.Inv args) (hheld : s.holder = some c) (hidle : s.calls c = none) :
    Tracks args none s := by
  rw [← current_eq_none hheld hidle]
  exact hs.2

omit [DecidableEq J] in
/-- The holder goes on with its call. -/
theorem goto (hheld : s.Held) (hc : s.holder = some c) (hs : Tracks args (some ⟨j, pc⟩) s) :
    (s.goto c j pc).Inv args := by
  refine ⟨hheld.update hc _, ?_⟩
  rw [goto_current hc]
  exact { hs with }

/-- The holder's call ends. -/
theorem leave (hs : s.Inv args) (hcall : s.calls c = some ⟨j, pc⟩) (hpc : pc ≠ .start)
    {o : Outcome R} : (s.leave c j o).Inv args := by
  have hc : s.holder = some c := hs.1 c _ hcall
  refine ⟨hs.1.update hc none, ?_⟩
  rw [leave_current hc]
  exact (hs.tracks_call hcall).leave hpc

omit [DecidableEq T] [DecidableEq J] in
/-- The lock changes hands while nobody has a call in progress. -/
theorem rehold (hs : s.Inv args) (hidle : ∀ c, s.calls c = none) (holder : Option T) :
    Inv args { s with holder := holder } := by
  have hnone : ∀ h : Option T, h.bind s.calls = none := by
    intro h
    cases h with
    | none => rfl
    | some c => exact hidle c
  refine ⟨fun c call hcall => ?_, ?_⟩
  · cases (hidle c).symm.trans hcall
  · have htracks : Tracks args none s := by
      rw [← hnone s.holder]
      exact hs.2
    rw [show current { s with holder := holder } = none from hnone holder]
    exact { htracks with }

/-- A step under the condition keeps the invariant. -/
theorem move (hs : s.Inv args) (hok : Ok args s l) (h : Move args s l t) : t.Inv args := by
  cases h with
  | acquire c hfree =>
    refine hs.rehold (fun c' => ?_) _
    by_contra hcall
    obtain ⟨call, hcall⟩ := Option.ne_none_iff_exists'.mp hcall
    cases hfree.symm.trans (hs.1 c' call hcall)
  | release c hheld hidle =>
    refine hs.rehold (fun c' => ?_) _
    by_contra hcall
    obtain ⟨call, hcall⟩ := Option.ne_none_iff_exists'.mp hcall
    obtain rfl : c = c' := Option.some.inj (hheld.symm.trans (hs.1 c' call hcall))
    cases hidle.symm.trans hcall
  | call c j hheld hidle hnew =>
    refine goto hs.1 hheld ((hs.tracks_none hheld hidle).enter ?_ hnew (.inl rfl))
    intro k pc' hk
    cases hk
  | pass c j hcall hpass =>
    have htracks := hs.tracks_call hcall
    refine goto hs.1 (hs.1 c _ hcall) (htracks.enter ?_ (htracks.fresh j _ rfl) (.inr ⟨rfl, hpass⟩))
    intro k pc' hk
    cases hk
    rfl
  | refuse c j message hcall hguard hsome => exact hs.leave hcall (by decide)
  | add c j hcall => exact goto hs.1 (hs.1 c _ hcall) (hs.tracks_call hcall).add
  | start c j hcall => exact goto hs.1 (hs.1 c _ hcall) (hs.tracks_call hcall).start
  | unstarted c j hcall => cases hok
  | timeout c j message hcall => exact hs.leave hcall (by decide)
  | done c j result hcall hgone => exact hs.leave hcall (by decide)
  | finish j result hinside =>
    exact ⟨hs.1, hs.2.work (by rw [hinside]; simp) (by rw [hinside]; rfl)⟩
  | remove j result hleaving => exact ⟨hs.1, hs.2.remove hleaving⟩
  | set j result hnotifying =>
    exact ⟨hs.1, hs.2.work (by rw [hnotifying]; simp) (by rw [hnotifying]; rfl)⟩
  | forget c hheld hidle =>
    refine ⟨hs.1, ?_⟩
    rw [show s.forgetSdkWorkers.current = none from current_eq_none hheld hidle]
    exact (hs.tracks_none hheld hidle).forget
  | tick seconds => exact ⟨hs.1, { hs.2 with }⟩

omit [DecidableEq T] [DecidableEq J] in
/-- A call that starts its thread is alone, or was let through by `allow_wedged`. -/
theorem single_flight (hs : s.Inv args) (hcall : s.calls c = some ⟨j, .start⟩) :
    (args j).allowWedged = true ∨ ∀ k, s.phase k = .inside → s.forgotten k = true := by
  have htracks := hs.tracks_call hcall
  rw [← Bool.not_eq_false, or_iff_not_imp_left, not_not]
  intro hguard k hk
  refine (htracks.live k (by rw [hk]; rfl)).resolve_right fun hmem => ?_
  obtain rfl : k = j := htracks.alone j (.inr rfl) hguard k hmem
  rw [htracks.absent (by decide)] at hk
  cases hk

omit [DecidableEq T] [DecidableEq J] in
/-- A call that is refused finds another one in its function, if the table is settled. -/
theorem inside_of_refuse (hs : s.Inv args) (hcall : s.calls c = some ⟨j, .guard⟩)
    (hsome : s.sdkWorkers ≠ []) (hsettled : s.Settled) : ∃ k, k ≠ j ∧ s.phase k = .inside := by
  have htracks := hs.tracks_call hcall
  obtain ⟨w, hw, hleaving⟩ := hsettled.resolve_left hsome
  have hlive : (s.phase w.key).isLive = true :=
    htracks.tabled_of_ne (by simp) w.key (List.mem_map_of_mem hw)
  have hinside := Phase.eq_inside hlive hleaving
  refine ⟨w.key, ?_, hinside⟩
  rintro rfl
  rw [htracks.absent (by decide)] at hinside
  cases hinside

omit [DecidableEq T] [DecidableEq J] in
/-- A call that has ended is in the table only while its thread is live. -/
theorem kept (hs : s.Inv args) (hended : s.outcome j ≠ none) (hj : j ∈ s.keys) :
    (s.phase j).isLive = true :=
  (hs.2.tabled j hj).resolve_right fun hcur => hended (hs.2.fresh j _ hcur)

end Inv

/-- A call that is told it is wedged was refused by the guard. -/
theorem refused_of_move (h : Move args s l t) {message : String} (hnew : s.outcome j = none)
    (hwedged : t.outcome j = some (.mt5Wedged message)) :
    ∃ c, l = .guard c ∧ s.calls c = some ⟨j, .guard⟩ ∧ (args j).allowWedged = false ∧
      s.sdkWorkers ≠ [] := by
  -- A call that ends gets the outcome of the step, and no other call gets one.
  have hleave : ∀ {c : T} {k : J} {o : Outcome R},
      (s.leave c k o).outcome j = some (.mt5Wedged message) → j = k ∧ o = .mt5Wedged message := by
    intro c k o ho
    change Function.update s.outcome k (some o) j = _ at ho
    rcases eq_or_ne j k with rfl | hjk
    · rw [Function.update_self] at ho
      exact ⟨rfl, Option.some.inj ho⟩
    · rw [Function.update_of_ne hjk, hnew] at ho
      cases ho
  cases h with
  | refuse c k message' hcall hguard hsome =>
    obtain ⟨rfl, -⟩ := hleave hwedged
    exact ⟨c, rfl, hcall, hguard, hsome⟩
  | unstarted c k hcall => cases (hleave hwedged).2
  | timeout c k message' hcall => cases (hleave hwedged).2
  | done c k result hcall hgone => cases (hleave hwedged).2
  | _ => cases hnew.symm.trans hwedged

/-- In every run under the condition, each step finds and leaves the table right. -/
theorem accounts {s₀ : System T J R} (hstart : s₀.Start) (hrun : RunOf (step args) (Ok args) s₀ s)
    (hok : Ok args s l) (hstep : step args s l = some t) : Accounted args s l t := by
  have hs : s.Inv args :=
    hrun.invariant (fun _ _ _ hs hok hstep => hs.move hok (move_of_step hstep)) hstart.inv
  have hmove := move_of_step hstep
  refine ⟨?_, ?_, ?_⟩
  · intro c j _ hcall
    exact hs.single_flight hcall
  · intro j message hnew hwedged
    obtain ⟨c, rfl, hcall, hguard, hsome⟩ := refused_of_move hmove hnew hwedged
    have hsettled : s.Settled := by
      refine (hok ⟨j, .guard⟩ hcall).resolve_left ?_
      rw [hguard]
      decide
    exact hs.inside_of_refuse hcall hsome hsettled
  · intro j hended hj
    exact (hs.move hok hmove).kept hended hj

/-- No call has been made by the one thread there is. -/
def idle : System Unit Bool ℕ where
  holder := none
  calls := fun _ => none
  outcome := fun _ => none
  phase := fun _ => .absent
  sdkWorkers := []
  forgotten := fun _ => false
  now := 0

theorem idle_start : idle.Start := ⟨rfl, fun _ => rfl, fun _ => rfl, fun _ => rfl, rfl⟩

/-- Two calls with the usual timeout. -/
def bothArgs : Bool → Args
  | false => ⟨"order_send", 30, false⟩
  | true => ⟨"terminal_info", 30, false⟩

/-- The thread of the first call does not start, and the second call comes to its guard. -/
def unstartedFirst : List (Label Unit Bool ℕ) :=
  [.acquire (), .call () false, .guard (), .add (), .start () false, .tick 7, .call () true]

/-- A call is refused as wedged with no function inside the SDK. -/
theorem not_accounts : ¬ ∀ (args : Bool → Args) (s₀ s t : System Unit Bool ℕ)
    (l : Label Unit Bool ℕ), s₀.Start → Run (step args) s₀ s → step args s l = some t →
      Accounted args s l t := by
  intro h
  have hexec : (exec (step bothArgs) idle unstartedFirst).any (fun s =>
      s.phase false == .absent && s.phase true == .absent && s.outcome true == none &&
      (step bothArgs s (.guard ())).any fun t =>
        t.outcome true == some (.mt5Wedged "order_send stuck 7s")) = true := by
    decide
  obtain ⟨s, hrun, hs⟩ := exists_run_of_exec hexec
  simp only [Bool.and_eq_true, beq_iff_eq, Option.any_eq_true] at hs
  obtain ⟨⟨⟨hfalse, htrue⟩, hnew⟩, t, hstep, hwedged⟩ := hs
  obtain ⟨k, -, hinside⟩ :=
    (h bothArgs idle s t _ idle_start hrun hstep).no_false_wedge true _ hnew hwedged
  cases k with
  | false => cases hfalse.symm.trans hinside
  | true => cases htrue.symm.trans hinside

/-- The check of the condition on a step. -/
def okCheck (args : J → Args) (s : System T J R) : Label T J R → Bool
  | .start _ ok => ok
  | .guard c => (s.calls c).all fun call => (args call.key).allowWedged ||
      s.sdkWorkers.isEmpty || s.sdkWorkers.any fun w => !(s.phase w.key).isLeaving
  | _ => true

omit [DecidableEq T] [DecidableEq J] in
theorem ok_of_okCheck (h : okCheck args s l = true) : Ok args s l := by
  cases l with
  | start c ok => exact h
  | guard c =>
    intro call hcall
    have hcheck := (Option.all_eq_true _ _).mp h call hcall
    simp only [Bool.or_eq_true, List.isEmpty_iff, List.any_eq_true, Bool.not_eq_true'] at hcheck
    rw [or_assoc] at hcheck
    exact hcheck
  | _ => trivial

/-- A call outlives its timeout, and the next one is refused while its function runs. -/
theorem accounts_outlived : ∃ s t : System Unit Bool ℕ,
    t.outcome true = some (.mt5Wedged "order_send stuck 42s") ∧ s.phase false = .inside ∧
      Accounted bothArgs s (.guard ()) t := by
  have hexec : (execOf (step bothArgs) (okCheck bothArgs) idle
      [.acquire (), .call () false, .guard (), .add (), .start () true, .tick 30, .timeout (),
        .tick 12, .call () true]).any (fun s =>
      s.phase false == .inside && okCheck bothArgs s (.guard ()) &&
      (step bothArgs s (.guard ())).any fun t =>
        t.outcome true == some (.mt5Wedged "order_send stuck 42s")) = true := by
    decide
  obtain ⟨s, hrun, hs⟩ := exists_runOf_of_execOf _ (fun _ _ h => ok_of_okCheck h) hexec
  simp only [Bool.and_eq_true, beq_iff_eq, Option.any_eq_true] at hs
  obtain ⟨⟨hinside, hok⟩, t, hstep, hwedged⟩ := hs
  exact ⟨s, t, hwedged, hinside, accounts idle_start hrun (ok_of_okCheck hok) hstep⟩

end System

end Sdk

import Mt5HttpApi.Lib.Dict
import Mt5HttpApi.Backtest.Active

/-!
# The reboot guard and the APIs it asks

`mt5api/reboot_guard.py` and `_guard_write` of `mt5api/server.py` on the side of an API, and
`wait_until_idle` of `scripts/reboot_guard.py` on the side of a VM. Any number of APIs run any
number of requests and backtests; any number of guards poll the APIs of their VM. They share one
clock and one flag file, of which the modification time is all that counts.

A step is one access to what others can see: `_writes`, `_ACTIVE_WORKERS`, the job table, the flag,
the clock. The jobs are those of `Mt5HttpApi.Backtest.Worker`, each submitted by the handler of a
write. What `GET /busy` answers is read by the guard in three steps, as `status` does; apart from
that it is a read like any other.
-/

namespace Reboot

open Backtest

/-! ## An API -/

/-- A request id: `os.urandom(4)`. -/
abbrev RequestId := ℕ

/-- The method of a request, in upper case. -/
inductive Method
  | get
  | head
  | options
  | other (name : String)
  deriving DecidableEq

/-- `READ_METHODS`. -/
def readMethods : List Method := [.get, .head, .options]

/-- `is_write`. -/
def isWrite (method : Method) : Bool := method ∉ readMethods

/-- `DRAIN_FLAG_MAX_AGE_SECONDS`. -/
def drainFlagMaxAge : ℚ := 120

/-- `draining`, on the modification time of the flag and a time. -/
def draining (flag : Option ℚ) (time : ℚ) : Bool :=
  match flag with
  | none => false
  | some mtime => 0 ≤ time - mtime ∧ time - mtime ≤ drainFlagMaxAge

/-- Where a request is: the access it makes next. -/
inductive RequestPhase
  | absent
  /-- A write, before the clock of `draining`. -/
  | arrived
  /-- Before the modification time of `draining`, with the time it read. -/
  | clocked (time : ℚ)
  /-- A write that `draining` let through, before `write_started`. -/
  | checked
  /-- The handler of a write, with the job it stored. -/
  | handling (job : Option JobId)
  /-- Before `write_finished`, which every request calls. -/
  | ending
  | done
  deriving DecidableEq

structure Request where
  id : RequestId
  phase : RequestPhase
  deriving DecidableEq

/-- An API process. -/
structure Api where
  /-- `_writes`, with the request instead of its method, path and start. -/
  writes : List (RequestId × ℕ)
  requests : ℕ → Request
  /-- The keys of `BACKTEST_JOBS`. -/
  submitted : List JobId
  jobs : JobId → JobState

namespace Api

/-- An API that was just started. -/
def init : Api := ⟨[], fun _ => ⟨0, .absent⟩, [], fun _ => .init⟩

/-- Request `r` is somewhere else now. -/
def move (api : Api) (r : ℕ) (phase : RequestPhase) : Api :=
  { api with requests := Function.update api.requests r { api.requests r with phase } }

/-- Job `j` is another one now. -/
def setJob (api : Api) (j : JobId) (job : JobState) : Api :=
  { api with jobs := Function.update api.jobs j job }

/-- `_writes_in_flight` is not empty. -/
def writesInFlight (api : Api) : Bool := !api.writes.isEmpty

/-- `active_worker_ids`. -/
def activeWorkerIds (api : Api) : List JobId :=
  api.submitted.filter fun j => (api.jobs j).workerActive

/-- `_active_backtests`, after it has read `active_worker_ids`. -/
def activeBacktests (S : Setup) (api : Api) (workers : List JobId) : List JobId :=
  api.submitted.filter fun j => (api.jobs j).entry.memory.any fun job =>
    (job.status ∈ activeStatuses || j ∈ workers) && ownsJob S.me job

end Api

/-- What a request does. -/
inductive RequestAct
  /-- `_start_request`. -/
  | arrive (id : RequestId) (method : Method) (authorized : Bool)
  | clock
  /-- `os.path.getmtime`, which may raise an `OSError`. -/
  | look (readable : Bool)
  | writeStarted
  /-- A step of `run_backtest` on job `j`. -/
  | submit (j : JobId) (a : WorkerAct) (reading : Reading)
  /-- A step of `cancel_backtest` on job `j`. -/
  | cancel (j : JobId) (a : CancelAct) (reading : Reading)
  /-- The handler answers, or raises. -/
  | answer
  | writeFinished
  deriving DecidableEq

/-- A handler may submit job `j`: it has stored it, or it has stored none and `j` is new. -/
def maySubmit (api : Api) (j : JobId) : Option JobId → Bool
  | none => (api.jobs j).pc = .absent
  | some j' => j' = j ∧ (api.jobs j).pc.submitting

/-- One step of request `r`. -/
def requestStep (S : Setup) (now : ℚ) (flag : Option ℚ) (api : Api) (r : ℕ) :
    RequestAct → Option Api
  | .arrive id method authorized =>
    if (api.requests r).phase = .absent then
      let phase := if authorized && isWrite method then .arrived else .ending
      some { api with requests := Function.update api.requests r ⟨id, phase⟩ }
    else none
  | .clock => if (api.requests r).phase = .arrived then some (api.move r (.clocked now)) else none
  | .look readable =>
    match (api.requests r).phase with
    | .clocked time =>
      some (api.move r (if readable && draining flag time then .ending else .checked))
    | _ => none
  | .writeStarted =>
    if (api.requests r).phase = .checked then
      some { api.move r (.handling none) with
        writes := Dict.set api.writes (api.requests r).id r }
    else none
  | .submit j a reading =>
    match (api.requests r).phase with
    | .handling job =>
      if maySubmit api j job then
        (workerStep S (api.jobs j) a reading).map fun after =>
          { (api.move r (.handling (some j))).setJob j after with
            submitted := if j ∈ api.submitted then api.submitted else api.submitted ++ [j] }
      else none
    | _ => none
  | .cancel j a reading =>
    match (api.requests r).phase with
    | .handling none => (cancelStep S (api.jobs j) r a reading).map (api.setJob j)
    | _ => none
  | .answer =>
    match (api.requests r).phase with
    | .handling job =>
      if job.all fun j => !(api.jobs j).pc.submitting then some (api.move r .ending) else none
    | _ => none
  | .writeFinished =>
    if (api.requests r).phase = .ending then
      some { api.move r .done with writes := Dict.pop api.writes (api.requests r).id }
    else none

/-- What happens in an API: a step of a request, of the worker of a job, or a status poll. -/
inductive ApiAct
  | request (r : ℕ) (act : RequestAct)
  | work (j : JobId) (a : WorkerAct) (reading : Reading)
  | status (j : JobId) (reading : Reading)
  deriving DecidableEq

/-- One step of an API. -/
def apiStep (S : Setup) (now : ℚ) (flag : Option ℚ) (api : Api) : ApiAct → Option Api
  | .request r act => requestStep S now flag api r act
  | .work j a reading =>
    if (api.jobs j).pc ≠ .absent ∧ (api.jobs j).pc.submitting = false then
      (workerStep S (api.jobs j) a reading).map (api.setJob j)
    else none
  | .status j reading => (jobStep S (api.jobs j) (.status reading)).map (api.setJob j)

/-! ## A guard -/

/-- `DRAIN_SETTLE_SECONDS`. -/
def drainSettle : ℚ := 3

/-- `POLL_SECONDS`. -/
def pollSeconds : ℚ := 30

/-- What the API that is asked has read for its answer. -/
inductive Asking
  | unasked
  /-- `_writes`: whether a write is in flight. -/
  | writes (busy : Bool)
  /-- `_ACTIVE_WORKERS` as well. -/
  | workers (busy : Bool) (ids : List JobId)
  deriving DecidableEq

/-- `busy_reasons`, while it goes through the APIs. -/
structure Poll (α : Type) where
  /-- The API it asks, and those after it. -/
  left : List α
  /-- There is a reason. -/
  busy : Bool
  asking : Asking
  deriving DecidableEq

/-- Where a guard is. -/
inductive GuardPhase (α : Type)
  | off
  /-- The first `busy_reasons`. -/
  | polling (poll : Poll α)
  /-- Before `raise_drain_flag`. -/
  | raising
  /-- `sleep(DRAIN_SETTLE_SECONDS)`, with the time of the flag. -/
  | settling (raised : ℚ)
  /-- The second `busy_reasons`. -/
  | confirming (raised : ℚ) (poll : Poll α)
  /-- Before `drop_drain_flag`. -/
  | dropping
  /-- Before the clock is compared with `max_postpone`. -/
  | comparing
  /-- `sleep(POLL_SECONDS)`. -/
  | sleeping (since : ℚ)
  /-- It returned `idle`. -/
  | idle (raised : ℚ)
  /-- It returned `max_postpone`. -/
  | maxPostpone
  /-- An exception ended it. -/
  | failed
  deriving DecidableEq

structure Guard (α : Type) where
  phase : GuardPhase α
  /-- `started`. -/
  started : ℚ
  deriving DecidableEq

/-- The APIs `α`, and the guards `ν` with the terminals and the longest wait each is given. -/
structure Site (α ν : Type) where
  setup : α → Setup
  terminals : ν → List α
  maxPostpone : ν → ℚ
  /-- `INSTANCE` is what `normalize_instance` answers. -/
  named : ∀ a, (setup a).me.inst.isSome = true

structure State (α ν : Type) where
  now : ℚ
  /-- The modification time of the drain flag. -/
  flag : Option ℚ
  apis : α → Api
  guards : ν → Guard α

/-- What a guard does. -/
inductive GuardAct
  | start
  /-- The API that is asked reads `_writes`, `_ACTIVE_WORKERS` and the job table in turn. -/
  | sample
  /-- The API does not answer. -/
  | unanswered
  /-- `busy_reasons` returns. -/
  | conclude
  | raiseFlag
  | settled
  | dropFlag
  | compare
  | wake
  /-- An exception. -/
  | fail
  deriving DecidableEq

variable {α ν : Type} [DecidableEq α] [DecidableEq ν]

/-- `busy_reasons` begins. -/
def Poll.start (terminals : List α) : Poll α := ⟨terminals, false, .unasked⟩

/-- The API that is asked reads what comes next, or has not answered. -/
def Poll.step (V : Site α ν) (apis : α → Api) (poll : Poll α) : GuardAct → Option (Poll α)
  | .sample =>
    match poll.left, poll.asking with
    | [], _ => none
    | a :: _, .unasked => some { poll with asking := .writes (apis a).writesInFlight }
    | a :: _, .writes busy =>
      some { poll with asking := .workers busy (apis a).activeWorkerIds }
    | a :: left, .workers busy ids =>
      some ⟨left, poll.busy || (busy || !((apis a).activeBacktests (V.setup a) ids).isEmpty),
        .unasked⟩
  | .unanswered =>
    match poll.left with
    | [] => none
    | _ :: left => some ⟨left, poll.busy, .unasked⟩
  | _ => none

/-- The flag and the phase of guard `v` after its next step. -/
def guardStep (V : Site α ν) (s : State α ν) (v : ν) (act : GuardAct) :
    Option (Option ℚ × GuardPhase α) :=
  match (s.guards v).phase, act with
  | .off, .start => some (s.flag, .polling (.start (V.terminals v)))
  | .polling poll, .conclude =>
    if poll.left = [] then some (s.flag, if poll.busy then .comparing else .raising) else none
  | .polling _, .fail => some (s.flag, .failed)
  | .polling poll, act => (poll.step V s.apis act).map fun poll => (s.flag, .polling poll)
  | .raising, .raiseFlag => some (some s.now, .settling s.now)
  | .settling raised, .settled =>
    if drainSettle ≤ s.now - raised then
      some (s.flag, .confirming raised (.start (V.terminals v)))
    else none
  | .confirming raised poll, .conclude =>
    if poll.left = [] then some (s.flag, if poll.busy then .dropping else .idle raised) else none
  | .confirming _ _, .fail => some (s.flag, .failed)
  | .confirming raised poll, act =>
    (poll.step V s.apis act).map fun poll => (s.flag, .confirming raised poll)
  | .dropping, .dropFlag => some (none, .comparing)
  | .comparing, .compare =>
    some (s.flag, if V.maxPostpone v ≤ s.now - (s.guards v).started then .maxPostpone
      else .sleeping s.now)
  | .sleeping since, .wake =>
    if pollSeconds ≤ s.now - since then some (s.flag, .polling (.start (V.terminals v))) else none
  | .raising, .fail | .dropping, .fail => some (s.flag, .failed)
  | _, _ => none

/-! ## All of them -/

inductive Label (α ν : Type)
  /-- Time goes by. -/
  | tick (seconds : ℚ)
  /-- `start.bat` of a VM, which removes the flag. -/
  | boot
  | api (a : α) (act : ApiAct)
  | guard (v : ν) (act : GuardAct)

/-- API `a` is another one now. -/
def State.setApi (s : State α ν) (a : α) (api : Api) : State α ν :=
  { s with apis := Function.update s.apis a api }

/-- Guard `v` is somewhere else now; a guard that starts notes the time. -/
def State.setGuard (s : State α ν) (v : ν) (flag : Option ℚ) (phase : GuardPhase α) :
    State α ν :=
  let started := if (s.guards v).phase = .off then s.now else (s.guards v).started
  { s with flag, guards := Function.update s.guards v ⟨phase, started⟩ }

/-- One step. -/
def step (V : Site α ν) (s : State α ν) : Label α ν → Option (State α ν)
  | .tick seconds => if 0 ≤ seconds then some { s with now := s.now + seconds } else none
  | .boot => some { s with flag := none }
  | .api a act => (apiStep (V.setup a) s.now s.flag (s.apis a) act).map (s.setApi a)
  | .guard v act => (guardStep V s v act).map fun after => s.setGuard v after.1 after.2

/-- APIs that were just started, and guards that were not, at a time and with a flag. -/
def start (now : ℚ) (flag : Option ℚ) : State α ν :=
  { now, flag, apis := fun _ => .init, guards := fun _ => ⟨.off, 0⟩ }

end Reboot

import Mathlib.Data.Rat.Defs
import Mathlib.Data.List.Basic

/-!
# Backtest jobs

The job record, and the operations of `mt5api/backtest/jobs.py` on one job: its slot in
`BACKTEST_JOBS`, its state file and its membership in `UNSAVED_JOBS`. Each operation of the source
holds `JOB_LOCK` for its whole body and reads and writes the entry of its own job id only, so it is
one function of an `Entry` here. Whether a disk write succeeds is an argument (`saved`): `_write`
catches the `OSError` and keeps the job in memory.

What later proofs use of `updateJob` is stated by `updateJob_memory`; `Job.update_kept` is the rule
of `CANCEL_KEEPS_FIELDS`.
-/

namespace Backtest

/-- A moment in whole seconds, as `now_iso` renders it. -/
abbrev Timestamp := ℕ

/-- A job id. The source draws it with `uuid.uuid4()`, a number written in hexadecimal. -/
abbrev JobId := ℕ

/-- The values of a job's `status` field. -/
inductive Status
  | queued
  | running
  | completed
  | failed
  | cancelled
  deriving DecidableEq, Repr

/-- `ACTIVE_STATUSES`. -/
def activeStatuses : List Status := [.queued, .running]

/-- `TERMINAL_STATUSES`. -/
def terminalStatuses : List Status := [.completed, .failed, .cancelled]

/-- Every status is active or terminal, and none is both. -/
theorem mem_terminalStatuses_iff (s : Status) : s ∈ terminalStatuses ↔ s ∉ activeStatuses := by
  cases s <;> decide

/-- A report's summary: the three counters that `is_empty_backtest_summary` reads, and the other
labelled numbers. A number that was not found is `none`. -/
structure Summary where
  bars : Option ℚ
  ticks : Option ℚ
  symbols : Option ℚ
  other : List (String × Option ℚ)
  deriving DecidableEq

/-- `is_empty_backtest_summary`: MT5 reported zero market data in all three counters. -/
def isEmptyBacktestSummary (s : Summary) : Bool :=
  s.bars = some 0 ∧ s.ticks = some 0 ∧ s.symbols = some 0

/-- One optimization row: its columns and their values as text. -/
abbrev Row := List (String × String)

/-- What `build_cache_metadata` says about the `.opt` file the rows were read from. -/
structure CacheMetadata where
  name : String
  modifiedAt : Timestamp
  pattern : Option String
  rowCount : ℕ
  deriving DecidableEq, Repr

/-- The `[Tester]` values of a job's debug INI that name its optimization cache. -/
structure TesterSettings where
  expert : Option String
  symbol : Option String
  period : Option String
  fromDate : Option String
  toDate : Option String
  optimization : Option String
  deriving DecidableEq, Repr

/-- A job record, with the fields the worker, the cancel route and the ownership check use.
`durationSeconds` is in milliseconds, since the source rounds it to three decimals. -/
structure Job where
  broker : String
  account : String
  inst : Option String
  status : Status
  submittedAt : Timestamp
  startedAt : Option Timestamp
  finishedAt : Option Timestamp
  durationSeconds : Option ℕ
  reportName : String
  reportPath : String
  debugIni : TesterSettings
  exitCode : Option ℤ
  error : Option String
  summary : Option Summary
  optimizationType : ℕ
  optimizationResults : Option (List Row)
  optimizationCache : Option CacheMetadata
  topPasses : ℕ
  timeoutSeconds : ℕ
  deriving DecidableEq

/-- One keyword argument of `update_job`. -/
inductive Change
  | status (s : Status)
  | error (e : String)
  | startedAt (t : Timestamp)
  | finishedAt (t : Timestamp)
  | durationSeconds (d : ℕ)
  | exitCode (c : ℤ)
  | reportPath (p : String)
  | reportName (n : String)
  | summary (s : Summary)
  | optimizationResults (rows : List Row)
  | optimizationCache (c : Option CacheMetadata)
  deriving DecidableEq

namespace Change

/-- The field is one of `CANCEL_KEEPS_FIELDS`. -/
def cancelKeeps : Change → Bool
  | .status _ | .error _ | .finishedAt _ => true
  | _ => false

/-- The status a change writes, if it writes one. -/
def status? : Change → Option Status
  | .status s => some s
  | _ => none

end Change

namespace Job

/-- `job[field] = value`. -/
def set (job : Job) : Change → Job
  | .status s => { job with status := s }
  | .error e => { job with error := some e }
  | .startedAt t => { job with startedAt := some t }
  | .finishedAt t => { job with finishedAt := some t }
  | .durationSeconds d => { job with durationSeconds := some d }
  | .exitCode c => { job with exitCode := some c }
  | .reportPath p => { job with reportPath := p }
  | .reportName n => { job with reportName := n }
  | .summary s => { job with summary := some s }
  | .optimizationResults rows => { job with optimizationResults := some rows }
  | .optimizationCache c => { job with optimizationCache := c }

/-- `job.update(changes)`. -/
def update (job : Job) (changes : List Change) : Job :=
  changes.foldl set job

/-- The changes `update_job` applies: all of them, or, on a cancelled job, those outside
`CANCEL_KEEPS_FIELDS`. -/
def admitted (job : Job) (changes : List Change) : List Change :=
  if job.status = .cancelled then changes.filter fun c => !c.cancelKeeps else changes

/-- The fields a cancel writes: `status`, `error` and `finishedAt`. -/
def verdict (job : Job) : Status × Option String × Option Timestamp :=
  (job.status, job.error, job.finishedAt)

@[simp]
theorem update_nil (job : Job) : job.update [] = job := rfl

@[simp]
theorem update_cons (job : Job) (c : Change) (cs : List Change) :
    job.update (c :: cs) = (job.set c).update cs := rfl

theorem set_verdict {c : Change} (hc : c.cancelKeeps = false) (job : Job) :
    (job.set c).verdict = job.verdict := by
  cases c <;> first | rfl | cases hc

/-- Changes outside `CANCEL_KEEPS_FIELDS` leave `status`, `error` and `finishedAt` alone. -/
theorem update_kept {cs : List Change} (hcs : ∀ c ∈ cs, c.cancelKeeps = false) (job : Job) :
    (job.update cs).verdict = job.verdict := by
  induction cs generalizing job with
  | nil => rfl
  | cons c cs ih =>
    rw [update_cons, ih fun d hd => hcs d (List.mem_cons_of_mem c hd)]
    exact set_verdict (hcs c List.mem_cons_self) job

/-- On a cancelled job an update keeps `status`, `error` and `finishedAt`. -/
theorem update_admitted_of_cancelled {job : Job} (h : job.status = .cancelled)
    (cs : List Change) : (job.update (job.admitted cs)).verdict = job.verdict := by
  refine update_kept ?_ job
  intro c hc
  simp only [admitted, h, if_true, List.mem_filter] at hc
  simpa using hc.2

theorem admitted_of_ne_cancelled {job : Job} (h : job.status ≠ .cancelled) (cs : List Change) :
    job.admitted cs = cs := if_neg h

end Job

/-- One job in this process and on disk. -/
structure Entry where
  /-- `BACKTEST_JOBS[job_id]`. -/
  memory : Option Job
  /-- The content of the job's state file. -/
  disk : Option Job
  /-- `job_id in UNSAVED_JOBS`. -/
  unsaved : Bool
  deriving DecidableEq

namespace Entry

/-- The entry before the job is submitted. -/
def empty : Entry := { memory := none, disk := none, unsaved := false }

/-- The job's in-memory status. -/
def status? (e : Entry) : Option Status := e.memory.map Job.status

end Entry

/-- `_write`: replace the state file, or keep the job as unsaved. -/
def write (e : Entry) (job : Job) (saved : Bool) : Entry :=
  if saved then { e with disk := some job, unsaved := false } else { e with unsaved := true }

@[simp]
theorem write_memory (e : Entry) (job : Job) (saved : Bool) :
    (write e job saved).memory = e.memory := by
  cases saved <;> rfl

/-- `store_job`. -/
def storeJob (e : Entry) (job : Job) (saved : Bool) : Entry :=
  write { e with memory := some job } job saved

@[simp]
theorem storeJob_memory (e : Entry) (job : Job) (saved : Bool) :
    (storeJob e job saved).memory = some job := by
  simp [storeJob]

/-- `update_job`. `none` is its `KeyError`: the job is neither in memory nor on disk. -/
def updateJob (e : Entry) (changes : List Change) (saved : Bool) : Option Entry :=
  match e.memory.or e.disk with
  | none => none
  | some job =>
    let job' := job.update (job.admitted changes)
    some (write { e with memory := some job' } job' saved)

/-- On a job in memory, `update_job` succeeds and its effect in memory does not depend on the
disk. -/
theorem updateJob_memory {e : Entry} {job : Job} (h : e.memory = some job) (cs : List Change)
    (saved : Bool) :
    ∃ e', updateJob e cs saved = some e' ∧ e'.memory = some (job.update (job.admitted cs)) := by
  refine ⟨write { e with memory := some (job.update (job.admitted cs)) }
    (job.update (job.admitted cs)) saved, ?_, by simp⟩
  simp only [updateJob, h, Option.some_or]

/-- `load_job`: the entry after it (an unsaved job is written again, a job found on disk is taken
into memory) and the job it answers. -/
def loadJob (e : Entry) (saved : Bool) : Entry × Option Job :=
  match e.memory with
  | some job => (if e.unsaved then write e job saved else e, some job)
  | none => ({ e with memory := e.disk }, e.disk)

/-- `load_job` leaves a job that is in memory as it is, and answers it. -/
theorem loadJob_of_memory {e : Entry} {job : Job} (h : e.memory = some job) (saved : Bool) :
    (loadJob e saved).1.memory = some job ∧ (loadJob e saved).2 = some job := by
  simp only [loadJob, h, and_true]
  split <;> simp [h]

/-- `cancel_if_active`: the entry after it, or `none` when the job is unknown or has finished. -/
def cancelIfActive (e : Entry) (changes : List Change) (saved : Bool) : Option Entry :=
  match e.memory with
  | none => none
  | some job =>
    if job.status ∈ activeStatuses then
      let job' := job.update (changes ++ [.status .cancelled])
      some (write { e with memory := some job' } job' saved)
    else none

/-- The terminal an API process serves, and the terminals `config.yaml` lists. -/
structure Identity where
  broker : String
  account : String
  inst : Option String
  /-- `_configured_terminals(broker, account)`. -/
  configuredTerminals : ℕ
  /-- `normalize_instance`. -/
  normalizeInstance : Option String → String

/-- `owns_job`. A job this process writes always names its broker and account. -/
def ownsJob (me : Identity) (job : Job) : Bool :=
  if job.broker ≠ me.broker then false
  else if job.account ≠ me.account then false
  else match job.inst with
    | some i => me.normalizeInstance (some i) = me.normalizeInstance me.inst
    | none => me.configuredTerminals ≤ 1

end Backtest

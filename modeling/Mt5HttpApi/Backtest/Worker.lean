import Mathlib.Logic.Function.Basic
import Mt5HttpApi.Backtest.Artifacts

/-!
# One backtest job: its worker and its cancel calls

A step function for everything `mt5api/backtest/handler.py` does to one job inside one process: the
end of `run_backtest`, the worker thread (`_execute_job`, `_run_job`, `_run_lock`,
`_settle_after_cancel`, `_stop_after_lock_released`, `_await_self_relaunch`, `_fail_if_active`), any
number of `cancel_backtest` calls and the status polls.

A step is one access to what other threads can see: the job table, `_CANCELLED`,
`_ACTIVE_WORKERS`, `RUN_LOCK`, `_LOCK_HOLDER`, the processes and the files. Between two of them a
thread only computes, so the program counters `WorkerPc` and `CancelPc` stand right before the next
access. What an access finds outside this job (whether the lock is free, which processes run,
whether a report exists) is part of the label; `Mt5HttpApi.Backtest.Terminal` ties these to one
shared terminal, while here they are arbitrary.

Any statement of `_run_job` may raise: `WorkerAct.raise`, or `WorkerAct.updateRaise` for an
`update_job` that raises after it changed the job in memory. `onRaise` says which handler of the
source takes the exception.
-/

namespace Backtest

/-- A process of the terminal's directory, by the order of its start. -/
abbrev ProcId := ℕ

/-- An exception, as `str(exc)`, and whether it is an `Exception` (and not, say, `SystemExit`). -/
structure Raised where
  text : String
  isException : Bool
  deriving DecidableEq, Repr

/-- `CANCEL_ERROR`. -/
def cancelError : String := "Cancelled by request"

/-- `WORKER_CRASH_ERROR`. -/
def workerCrashError : String := "Backtest worker crashed before the run finished"

/-- `WORKER_START_ERROR`. -/
def workerStartError : String := "Backtest worker could not be started"

/-- `RELAUNCH_MAX_EXIT_SECONDS`, in milliseconds. -/
def relaunchMaxExit : ℕ := 60000

/-- An error with the tail of the terminal's log, when there is one. -/
def withTail (error tail : String) : String :=
  if tail = "" then error else s!"{error} | terminal log tail: {tail}"

/-- The `update_job` calls of the worker and of `run_backtest`, each with the values it writes. -/
inductive UpdateSite
  /-- `run_backtest`: the worker thread could not be started. -/
  | workerStart (now : Timestamp)
  /-- The terminal's directories could not be made. -/
  | dirsFailed (exc : String) (now : Timestamp)
  /-- Inside `RUN_LOCK`, before anything is staged. -/
  | running (startedAt : Timestamp)
  /-- `subprocess.TimeoutExpired`. -/
  | timedOut (timeoutSeconds killed duration : ℕ) (now : Timestamp)
  /-- `except Exception` around the run. -/
  | crashed (exc : String) (duration : ℕ) (now : Timestamp)
  /-- The terminal exited with a code other than 0. -/
  | exitCode (code : ℤ) (tail : String) (duration : ℕ) (now : Timestamp)
  /-- The mode-3 fallback to `<base>.symbols.xml`. -/
  | symbolsReport (path : String) (duration : ℕ)
  /-- There is no report. -/
  | notGenerated (duration : ℕ) (now : Timestamp)
  /-- An optimization is done. -/
  | optimizationDone (rows : List Row) (cache : Option CacheMetadata) (duration : ℕ)
      (now : Timestamp)
  /-- The report is empty. -/
  | emptyReport (summary : Summary) (tail : String) (duration : ℕ) (now : Timestamp)
  /-- A backtest is done. -/
  | done (summary : Summary) (duration : ℕ) (now : Timestamp)
  /-- `_fail_if_active`, after an exception nothing else took. -/
  | workerCrash (exc : String) (now : Timestamp)
  deriving DecidableEq

namespace UpdateSite

/-- The keyword arguments of the call. -/
def changes : UpdateSite → List Change
  | workerStart now => [.status .failed, .error workerStartError, .finishedAt now]
  | dirsFailed exc now =>
    [.status .failed, .error s!"Cannot prepare terminal directories: {exc}", .finishedAt now]
  | running startedAt => [.status .running, .startedAt startedAt]
  | timedOut timeout killed duration now =>
    let error := s!"Backtest timed out after {timeout}s"
    let error :=
      if killed = 0 then error else s!"{error} (killed {killed} leftover tester process(es))"
    [.status .failed, .error error, .durationSeconds duration, .finishedAt now]
  | crashed exc duration now =>
    [.status .failed, .error s!"Backtest crashed: {exc}", .durationSeconds duration,
      .finishedAt now]
  | exitCode code tail duration now =>
    [.status .failed, .error (withTail s!"terminal64.exe exited with code {code}" tail),
      .exitCode code, .durationSeconds duration, .finishedAt now]
  | symbolsReport path _ => [.reportPath path, .reportName (basename path)]
  | notGenerated duration now =>
    [.status .failed, .error "Report not generated", .exitCode 0, .durationSeconds duration,
      .finishedAt now]
  | optimizationDone rows cache duration now =>
    [.status .completed, .exitCode 0, .durationSeconds duration, .finishedAt now,
      .optimizationResults rows, .optimizationCache cache]
  | emptyReport summary tail duration now =>
    [.status .failed,
      .error (withTail "Backtest produced empty report (Bars=0, Ticks=0, Symbols=0)" tail),
      .exitCode 0, .durationSeconds duration, .finishedAt now, .summary summary]
  | done summary duration now =>
    [.status .completed, .exitCode 0, .durationSeconds duration, .finishedAt now,
      .summary summary]
  | workerCrash exc now =>
    [.status .failed, .error s!"{workerCrashError}: {exc}", .finishedAt now]

/-- The status the call writes, if it writes one. -/
def status? : UpdateSite → Option Status
  | running _ => some .running
  | symbolsReport _ _ => none
  | optimizationDone _ _ _ _ | done _ _ _ => some .completed
  | _ => some .failed

end UpdateSite

/-- Where a worker that leaves `RUN_LOCK` goes on. -/
inductive After
  /-- `return` from `_run_job`, or `JobCancelled`, which `_execute_job` only logs. -/
  | leave
  /-- An exception goes up to `_execute_job`. -/
  | crash (exc : Raised)
  /-- The run ended with a return code that is still to be judged. -/
  | judge (code : ℤ)
  deriving DecidableEq, Repr

/-- Which `RUN_LOCK` section: `with _run_lock` or `_stop_after_lock_released`. -/
inductive Section
  | run
  | stop
  deriving DecidableEq, Repr

/-- The worker's program counter: the access it makes next. -/
inductive WorkerPc
  -- `run_backtest`, from `store_job` on
  | absent
  | stored
  | registered
  | startFailed
  -- `_execute_job` and `_run_job` up to the lock
  | begun
  | entered
  | firstCheck
  | makingDirs
  | removingReport
  | waitingLock
  | waitCheck
  -- inside `RUN_LOCK`
  | settingHolder (section_ : Section)
  | locked
  | staging
  | lastCheck
  | launching
  | watching
  | exitCheck (code : ℤ)
  | timeoutListing
  | timeoutSignalling (victims : List ProcId)
  | settleListing (section_ : Section)
  | settleSignalling (section_ : Section) (victims : List ProcId)
  | settleWaiting (section_ : Section)
  | cleaning (after : After)
  | clearingHolder (after : After)
  | releasing (after : After)
  -- after `RUN_LOCK`
  | postCheck (code : ℤ)
  | stopAcquiring
  | judging (code : ℤ)
  | relaunchCheck (duration : ℕ)
  | graceCheck
  | graceAlive
  | graceReport
  | runCheck
  | runAlive
  | awaitDone
  | awaitCheck (duration : ℕ)
  | fallbackCheck (duration : ℕ)
  | symbolsCheck (duration : ℕ)
  | reportCheck (duration : ℕ)
  | cacheReading (duration : ℕ)
  | xmlReading (duration : ℕ) (cache : Option CacheMetadata)
  | reportReading (duration : ℕ)
  -- an `update_job` call, and the handlers of `_execute_job`
  | updating (site : UpdateSite)
  | failLoading (exc : Raised)
  | finishing
  | exited
  deriving DecidableEq

/-- Where the worker goes on after an `update_job` call. -/
def UpdateSite.next : UpdateSite → WorkerPc
  | workerStart _ => .exited
  | running _ => .staging
  | timedOut _ _ _ _ | crashed _ _ _ => .cleaning .leave
  | symbolsReport _ duration => .reportCheck duration
  | _ => .finishing

/-- Where a worker goes on when it has left `RUN_LOCK`. -/
def After.next : After → WorkerPc
  | leave => .finishing
  | crash exc => .failLoading exc
  | judge code => .postCheck code

/-- Where `_settle_after_cancel` returns to. -/
def Section.settled : Section → WorkerPc
  | run => .cleaning .leave
  | stop => .clearingHolder .leave

/-- The handler that takes an exception raised at a program counter: `none` where the source has
no statement that can raise.

Outside the lock it goes to `_execute_job` (`failLoading`). In `with _run_lock` but outside the
`try` it first gives back the lock. In the `try`, `except Exception` takes it unless it is no
`Exception`. In that `try`'s own handlers and in its `finally`, it goes up through the lock. -/
def onRaise (exc : Raised) (duration : ℕ) (now : Timestamp) : WorkerPc → Option WorkerPc
  | .entered | .firstCheck | .makingDirs | .removingReport | .waitingLock | .waitCheck
  | .updating (.dirsFailed _ _) => some (.failLoading exc)
  | .locked | .updating (.running _) => some (.clearingHolder (.crash exc))
  | .staging | .lastCheck | .launching | .watching | .exitCheck _ | .timeoutListing
  | .timeoutSignalling _ | .updating (.timedOut _ _ _ _) =>
    some (if exc.isException then .updating (.crashed exc.text duration now)
      else .cleaning (.crash exc))
  | .settleListing .run | .settleSignalling .run _ | .settleWaiting .run
  | .updating (.crashed _ _ _) => some (.cleaning (.crash exc))
  | .cleaning _ | .settleListing .stop | .settleSignalling .stop _ | .settleWaiting .stop =>
    some (.clearingHolder (.crash exc))
  | .postCheck _ | .stopAcquiring | .judging _ | .relaunchCheck _ | .graceCheck | .graceAlive
  | .graceReport | .runCheck | .runAlive | .awaitDone | .awaitCheck _ | .fallbackCheck _
  | .symbolsCheck _ | .reportCheck _ | .cacheReading _ | .xmlReading _ _ | .reportReading _
  | .updating (.exitCode _ _ _ _) | .updating (.symbolsReport _ _)
  | .updating (.notGenerated _ _) | .updating (.optimizationDone _ _ _ _)
  | .updating (.emptyReport _ _ _ _) | .updating (.done _ _ _) => some (.failLoading exc)
  | _ => none

/-- A `cancel_backtest` call's program counter: the access it makes next. -/
inductive CancelPc
  | idle
  | flagging
  | marking
  | unflagging
  | polling
  | checkingHolder
  | listing
  | signalling (victims : List ProcId)
  | stopCheck
  | answering
  | answered
  deriving DecidableEq, Repr

/-- The call is between its first and its last step. -/
def CancelPc.inProgress : CancelPc → Bool
  | .idle | .answered => false
  | _ => true

/-! ## The state of one job -/

/-- What a submission brings: the `Report` value of its INI and the fresh id of the default name,
its optimization type, the `[Tester]` values its debug INI will hold, and the form fields. -/
structure Submission where
  iniReport : String
  fresh : String
  optimizationType : ℕ
  debugIni : TesterSettings
  submittedAt : Timestamp
  topPasses : ℕ
  timeoutSeconds : ℕ
  deriving DecidableEq, Repr

/-- What the handlers of one terminal depend on besides the job: the terminal they serve, the report
parsers, and how the file system reads a path and a glob pattern. The results hold for every
choice. -/
structure Setup where
  me : Identity
  terminalDir : String
  /-- `parse_report_summary`. -/
  parseReportSummary : String → Summary
  /-- `parse_optimization_report`, on the content of a file it can open. -/
  parseOptimizationReport : String → ℕ → List Row
  /-- The file a report path denotes: paths that differ in case only denote one file. -/
  fileOf : String → String
  /-- Does `Path.glob` of a pattern find a name? -/
  globMatches : String → String → Bool

/-- A terminal whose report parser counts characters, for runs on fixed inputs. -/
def Setup.sample : Setup where
  me := { broker := "demo", account := "1", inst := none, configuredTerminals := 1,
          normalizeInstance := fun i => i.getD "" }
  terminalDir := "C:\\mt5"
  parseReportSummary text :=
    { bars := some text.length, ticks := none, symbols := none, other := [] }
  parseOptimizationReport text _ := [[("Pass", text)]]
  fileOf path := path
  globMatches pattern name := pattern.toList.takeWhile (· != '*') <+: name.toList

/-- A backtest with the report name that `build_ini` writes. -/
def Submission.sample : Submission :=
  { iniReport := "backtest-report.htm", fresh := "1f", optimizationType := 0,
    debugIni := ⟨none, none, none, none, none, none⟩, submittedAt := 0, topPasses := 50,
    timeoutSeconds := 600 }

/-- The job record `run_backtest` stores. -/
def newJob (S : Setup) (sub : Submission) : Job :=
  let reportName := ensureReportPath sub.iniReport sub.optimizationType sub.fresh
  { broker := S.me.broker
    account := S.me.account
    inst := S.me.inst
    status := .queued
    submittedAt := sub.submittedAt
    startedAt := none
    finishedAt := none
    durationSeconds := none
    reportName := reportName
    reportPath := S.terminalDir ++ "\\Reports\\" ++ reportName
    debugIni := sub.debugIni
    exitCode := none
    error := none
    summary := none
    optimizationType := sub.optimizationType
    optimizationResults := none
    optimizationCache := none
    topPasses := sub.topPasses
    timeoutSeconds := sub.timeoutSeconds }

/-- `result_source`: where an optimization's rows came from. -/
inductive ResultSource
  | none
  | cache
  | xml
  deriving DecidableEq, Repr

/-- The worker's local variables that later steps use, and the files it read. -/
structure Vars where
  /-- `job`, the copy of the record that `load_job` answered. -/
  job : Job
  /-- `started_at`. -/
  startedAt : Timestamp
  /-- `result_source`. -/
  resultSource : ResultSource
  /-- The report the summary or the rows were read from, when it could be opened. -/
  reportRead : Option ReportFile
  /-- The cache file `find_cache_for_job` answered, when its rows could be parsed. -/
  cacheRead : Option CacheFile

/-- One job: its entry, its membership in the process's sets, its worker and its cancel calls. -/
structure JobState where
  entry : Entry
  /-- `job_id in _CANCELLED`. -/
  cancelRequested : Bool
  /-- `job_id in _ACTIVE_WORKERS`. -/
  workerActive : Bool
  pc : WorkerPc
  vars : Vars
  calls : ℕ → CancelPc
  /-- The worker has started the terminal. -/
  launched : Bool

/-- A record before its job is loaded. -/
def Job.blank : Job :=
  { broker := "", account := "", inst := none, status := .queued, submittedAt := 0,
    startedAt := none, finishedAt := none, durationSeconds := none, reportName := "",
    reportPath := "", debugIni := ⟨none, none, none, none, none, none⟩, exitCode := none,
    error := none, summary := none, optimizationType := 0, optimizationResults := none,
    optimizationCache := none, topPasses := 0, timeoutSeconds := 0 }

/-- The state before the job is submitted. -/
def JobState.init : JobState :=
  { entry := .empty, cancelRequested := false, workerActive := false, pc := .absent,
    vars := { job := .blank, startedAt := 0, resultSource := .none, reportRead := none,
              cacheRead := none },
    calls := fun _ => .idle, launched := false }

/-- The clocks a step reads, and whether its disk write succeeds. -/
structure Reading where
  now : Timestamp := 0
  duration : ℕ := 0
  saved : Bool := true
  deriving DecidableEq, Repr

/-- A worker step, with what the access found. -/
inductive WorkerAct
  | store (sub : Submission)
  | register
  | start (ok : Bool)
  | unregister
  | load
  | check
  | makeDirs (error : Option String)
  | removeReport (removed : Bool)
  | acquire
  | acquireTimeout
  | setHolder
  | stage
  | launch
  | exited (code : ℤ)
  | timeout
  | list (victims : List ProcId)
  | signal
  | settle (again : Bool)
  | cleanUp
  | clearHolder
  | release
  | measure (tail : String)
  | sawReport (found : Bool)
  | sawReports (found : Bool)
  | sawSymbols (found : Bool)
  | sawAlive (alive : Bool)
  | expire
  | readCache (found : Option (CacheFile × List Row))
  | readReport (file : Option ReportFile) (tail : String)
  | update
  | updateRaise (exc : Raised)
  | raise (exc : Raised)
  | finish
  deriving DecidableEq

/-- What `parse_cache_details` answers: the first `top_n` rows and the cache's metadata. -/
def cacheDetails (job : Job) : Option (CacheFile × List Row) → List Row × Option CacheMetadata
  | none => ([], none)
  | some (file, rows) =>
    (rows.take job.topPasses,
      some { name := file.name, modifiedAt := file.mtime,
             pattern := buildCachePattern job.debugIni, rowCount := rows.length })

/-- The rows `parse_optimization_report` answers: none from a file it cannot open. -/
def xmlRows (S : Setup) (job : Job) (file : Option ReportFile) : List Row :=
  match file with
  | none => []
  | some file => S.parseOptimizationReport file.content job.topPasses

/-- The summary of a report: that of the empty text from a file that cannot be opened. -/
def reportSummary (S : Setup) (file : Option ReportFile) : Summary :=
  S.parseReportSummary ((file.map ReportFile.content).getD "")

/-- The program counter after a worker step, or `none` if the step is not the next one. -/
def control (S : Setup) (s : JobState) (a : WorkerAct) (r : Reading) : Option WorkerPc :=
  match a with
  | .raise exc => onRaise exc r.duration r.now s.pc
  | .updateRaise exc =>
    match s.pc with
    | .updating _ => onRaise exc r.duration r.now s.pc
    | _ => none
  | .store _ => if s.pc = .absent then some .stored else none
  | .register =>
    match s.pc with
    | .stored => some .registered
    | .begun => some .entered
    | _ => none
  | .start ok => if s.pc = .registered then some (if ok then .begun else .startFailed) else none
  | .unregister =>
    if s.pc = .startFailed then some (.updating (.workerStart r.now)) else none
  | .load =>
    match s.pc with
    | .entered =>
      match (loadJob s.entry r.saved).2 with
      | none => some .finishing
      | some _ => some .firstCheck
    | .failLoading exc =>
      match (loadJob s.entry r.saved).2 with
      | none => some .finishing
      | some job =>
        if job.status ∈ activeStatuses then some (.updating (.workerCrash exc.text r.now))
        else some .finishing
    | _ => none
  | .check =>
    match s.pc with
    | .firstCheck => some (if s.cancelRequested then .finishing else .makingDirs)
    | .waitCheck => some (if s.cancelRequested then .finishing else .waitingLock)
    | .locked =>
      some (if s.cancelRequested then .clearingHolder .leave
        else .updating (.running s.vars.startedAt))
    | .lastCheck => some (if s.cancelRequested then .settleListing .run else .launching)
    | .exitCheck code =>
      some (if s.cancelRequested then .settleListing .run else .cleaning (.judge code))
    | .postCheck code => some (if s.cancelRequested then .stopAcquiring else .judging code)
    | .graceCheck => some (if s.cancelRequested then .awaitDone else .graceAlive)
    | .runCheck => some (if s.cancelRequested then .awaitDone else .runAlive)
    | .awaitCheck duration =>
      some (if s.cancelRequested then .stopAcquiring else .fallbackCheck duration)
    | _ => none
  | .makeDirs error =>
    if s.pc = .makingDirs then
      match error with
      | none => some .removingReport
      | some exc => some (.updating (.dirsFailed exc r.now))
    else none
  | .removeReport _ => if s.pc = .removingReport then some .waitingLock else none
  | .acquire =>
    match s.pc with
    | .waitingLock => some (.settingHolder .run)
    | .stopAcquiring => some (.settingHolder .stop)
    | _ => none
  | .acquireTimeout =>
    match s.pc with
    | .waitingLock => some .waitCheck
    | .stopAcquiring => some .finishing
    | _ => none
  | .setHolder =>
    match s.pc with
    | .settingHolder .run => some .locked
    | .settingHolder .stop => some (.settleListing .stop)
    | _ => none
  | .stage => if s.pc = .staging then some .lastCheck else none
  | .launch => if s.pc = .launching then some .watching else none
  | .exited code => if s.pc = .watching then some (.exitCheck code) else none
  | .timeout => if s.pc = .watching then some .timeoutListing else none
  | .list victims =>
    match s.pc with
    | .timeoutListing => some (.timeoutSignalling victims)
    | .settleListing section_ => some (.settleSignalling section_ victims)
    | _ => none
  | .signal =>
    match s.pc with
    | .timeoutSignalling victims =>
      some (.updating (.timedOut s.vars.job.timeoutSeconds victims.length r.duration r.now))
    | .settleSignalling section_ _ => some (.settleWaiting section_)
    | _ => none
  | .settle again =>
    match s.pc with
    | .settleWaiting section_ =>
      some (if again then .settleListing section_ else section_.settled)
    | _ => none
  | .cleanUp =>
    match s.pc with
    | .cleaning after => some (.clearingHolder after)
    | _ => none
  | .clearHolder =>
    match s.pc with
    | .clearingHolder after => some (.releasing after)
    | _ => none
  | .release =>
    match s.pc with
    | .releasing after => some after.next
    | _ => none
  | .measure tail =>
    match s.pc with
    | .judging code =>
      if code ≠ 0 then some (.updating (.exitCode code tail r.duration r.now))
      else if r.duration < relaunchMaxExit then some (.relaunchCheck r.duration)
      else some (.fallbackCheck r.duration)
    | .awaitDone => some (.awaitCheck r.duration)
    | _ => none
  | .sawReports found =>
    match s.pc with
    | .relaunchCheck duration => some (if found then .fallbackCheck duration else .graceCheck)
    | .graceReport => some (if found then .awaitDone else .graceCheck)
    | _ => none
  | .sawAlive alive =>
    match s.pc with
    | .graceAlive => some (if alive then .runCheck else .graceReport)
    | .runAlive => some (if alive then .runCheck else .awaitDone)
    | _ => none
  | .expire =>
    match s.pc with
    | .graceCheck | .runCheck => some .awaitDone
    | _ => none
  | .sawReport found =>
    match s.pc with
    | .fallbackCheck duration =>
      some (if !found && s.vars.job.optimizationType == 3 then .symbolsCheck duration
        else .reportCheck duration)
    | .reportCheck duration =>
      some (if !found then .updating (.notGenerated duration r.now)
        else if s.vars.job.optimizationType ≠ 0 then .cacheReading duration
        else .reportReading duration)
    | _ => none
  | .sawSymbols found =>
    match s.pc with
    | .symbolsCheck duration =>
      some (if found then
          .updating (.symbolsReport (symbolsReportPath s.vars.job.reportPath) duration)
        else .reportCheck duration)
    | _ => none
  | .readCache found =>
    match s.pc with
    | .cacheReading duration =>
      let (rows, cache) := cacheDetails s.vars.job found
      some (if rows = [] ∧ s.vars.job.optimizationType ≠ 3 then .xmlReading duration cache
        else .updating (.optimizationDone rows cache duration r.now))
    | _ => none
  | .readReport file tail =>
    match s.pc with
    | .xmlReading duration cache =>
      some (.updating (.optimizationDone (xmlRows S s.vars.job file) cache duration r.now))
    | .reportReading duration =>
      let summary := reportSummary S file
      some (.updating (if isEmptyBacktestSummary summary then
          .emptyReport summary tail duration r.now
        else .done summary duration r.now))
    | _ => none
  | .update =>
    match s.pc with
    | .updating site =>
      -- a `KeyError` is an exception, not this step
      if (updateJob s.entry site.changes r.saved).isSome then some site.next else none
    | _ => none
  | .finish => if s.pc = .finishing then some .exited else none

/-- The changes of the `update_job` call at a program counter. -/
def WorkerPc.changes : WorkerPc → List Change
  | .updating site => site.changes
  | _ => []

/-- What a worker step does to the job's data. -/
def effect (S : Setup) (s : JobState) (a : WorkerAct) (r : Reading) : JobState :=
  match a with
  | .store sub => { s with entry := storeJob s.entry (newJob S sub) r.saved }
  | .register => { s with workerActive := true }
  | .unregister => { s with workerActive := false }
  | .load =>
    { s with
      entry := (loadJob s.entry r.saved).1
      vars := { s.vars with job := (loadJob s.entry r.saved).2.getD s.vars.job } }
  | .removeReport _ => { s with vars := { s.vars with startedAt := r.now } }
  | .launch => { s with launched := true }
  | .sawSymbols true =>
    let path := symbolsReportPath s.vars.job.reportPath
    { s with vars := { s.vars with
        job := { s.vars.job with reportPath := path, reportName := basename path } } }
  | .readCache found =>
    { s with vars := { s.vars with
        cacheRead := found.map Prod.fst
        resultSource :=
          if (cacheDetails s.vars.job found).1 = [] then .none else .cache } }
  | .readReport file _ =>
    { s with vars := { s.vars with
        reportRead := file
        resultSource :=
          if s.vars.job.optimizationType ≠ 0 ∧ xmlRows S s.vars.job file ≠ [] then .xml
          else s.vars.resultSource } }
  | .update | .updateRaise _ =>
    { s with entry := (updateJob s.entry s.pc.changes r.saved).getD s.entry }
  | .finish => { s with workerActive := false, cancelRequested := false }
  | _ => s

/-- One step of the worker. -/
def workerStep (S : Setup) (s : JobState) (a : WorkerAct) (r : Reading) : Option JobState :=
  (control S s a r).map fun pc => { effect S s a r with pc := pc }

/-! ## Cancel calls -/

/-- A step of a cancel call, with what the access found. -/
inductive CancelAct
  | load
  | flag
  | mark
  | unflag
  | poll
  | expire
  | sawHolder (mine due : Bool)
  | list (victims : List ProcId)
  | signal
  | stop
  | die
  deriving DecidableEq, Repr

/-- The program counter of a cancel call after a step.

`die` is an exception out of the wait loop, which `kill_terminal_processes` may raise. -/
def cancelControl (S : Setup) (s : JobState) (c : ℕ) (a : CancelAct) (r : Reading) :
    Option CancelPc :=
  match a with
  | .load =>
    match s.calls c with
    | .idle =>
      match (loadJob s.entry r.saved).2 with
      | none => some .answered
      | some job =>
        if !ownsJob S.me job || job.status ∈ terminalStatuses then some .answered
        else some .flagging
    | .answering => some .answered
    | _ => none
  | .flag => if s.calls c = .flagging then some .marking else none
  | .mark =>
    if s.calls c = .marking then
      match cancelIfActive s.entry [.error cancelError, .finishedAt r.now] r.saved with
      | none => some .unflagging
      | some _ => some .polling
    else none
  | .unflag => if s.calls c = .unflagging then some .answering else none
  | .poll => if s.calls c = .polling then
      some (if s.workerActive then .checkingHolder else .stopCheck) else none
  | .expire => if s.calls c = .polling then some .stopCheck else none
  | .sawHolder mine due =>
    if s.calls c = .checkingHolder then some (if mine && due then .listing else .polling)
    else none
  | .list victims => if s.calls c = .listing then some (.signalling victims) else none
  | .signal =>
    match s.calls c with
    | .signalling _ => some .polling
    | _ => none
  | .stop => if s.calls c = .stopCheck then
      some (if s.workerActive then .answering else .unflagging) else none
  | .die =>
    match s.calls c with
    | .polling | .checkingHolder | .listing | .signalling _ => some .answered
    | _ => none

/-- What a step of a cancel call does to the job's data. -/
def cancelEffect (s : JobState) (a : CancelAct) (r : Reading) : JobState :=
  match a with
  | .load => { s with entry := (loadJob s.entry r.saved).1 }
  | .flag => { s with cancelRequested := true }
  | .mark =>
    { s with entry := (cancelIfActive s.entry [.error cancelError, .finishedAt r.now]
        r.saved).getD s.entry }
  | .unflag => { s with cancelRequested := false }
  | _ => s

/-- One step of cancel call `c`. -/
def cancelStep (S : Setup) (s : JobState) (c : ℕ) (a : CancelAct) (r : Reading) :
    Option JobState :=
  (cancelControl S s c a r).map fun pc =>
    { cancelEffect s a r with calls := Function.update s.calls c pc }

/-! ## All steps on one job -/

/-- A step on one job: of its worker, of cancel call `c`, or a status poll. -/
inductive JobLabel
  | worker (a : WorkerAct) (r : Reading)
  | cancel (c : ℕ) (a : CancelAct) (r : Reading)
  | status (r : Reading)
  deriving DecidableEq

/-- The step function of one job. -/
def jobStep (S : Setup) (s : JobState) : JobLabel → Option JobState
  | .worker a r => workerStep S s a r
  | .cancel c a r => cancelStep S s c a r
  | .status r => some { s with entry := (loadJob s.entry r.saved).1 }

end Backtest

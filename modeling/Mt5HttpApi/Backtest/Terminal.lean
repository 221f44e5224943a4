import Mt5HttpApi.Lib.Product
import Mt5HttpApi.Backtest.Lifecycle

/-!
# The jobs of one terminal

Any number of jobs in one API process, on the terminal directory they share: `RUN_LOCK` and
`_LOCK_HOLDER`, the tester processes of the directory, its report files and its optimization
caches.

A job's own steps are those of `Backtest.jobStep`. `fits` refuses a step whose observation is not
what the directory shows, and `touch` is what the step does to the directory. The environment is
MT5: its processes exit, write their report and their cache file, start agents, and hand over to a
LiveUpdate updater that starts the terminal again.
-/

namespace Backtest

open Transition

/-- The programs of a terminal directory, and the LiveUpdate updater that works on it. -/
inductive Image
  | terminal
  | metatester
  | updater
  deriving DecidableEq, Repr

/-- A process of `_terminal_processes` or `_updater_processes`. -/
structure TesterProcess where
  image : Image
  /-- The job whose worker started it, or started the process it descends from. -/
  origin : JobId
  /-- It was started by the worker itself. -/
  direct : Bool
  /-- Its exit code, once it has exited. -/
  exitCode : Option ℤ
  /-- The report path and the optimization type of the INI it runs. -/
  report : String
  optimizationType : ℕ
  deriving DecidableEq, Repr

/-- The process has not exited. -/
def TesterProcess.running (p : TesterProcess) : Bool := p.exitCode.isNone

/-- The path MT5 writes the process's report to. -/
def TesterProcess.reportTarget (p : TesterProcess) : String :=
  if p.optimizationType = 3 then symbolsReportPath p.report else p.report

/-- What the jobs of one terminal share. -/
structure Terminal where
  /-- The job whose worker holds `RUN_LOCK`. -/
  runLock : Option JobId
  /-- `_LOCK_HOLDER["job_id"]`. -/
  lockHolder : Option JobId
  /-- The processes started so far. -/
  procs : List TesterProcess
  /-- The report files, by the file their path denotes. -/
  files : String → Option ReportFile
  /-- The files of `Tester/cache`. -/
  cache : List CacheFile
  /-- The clock of the files' modification times. -/
  clock : Timestamp
  /-- The signals sent so far: the job whose worker or cancel call sent it, and the process. -/
  signals : List (JobId × ProcId)

namespace Terminal

/-- A terminal directory before any job. -/
def init : Terminal :=
  { runLock := none, lockHolder := none, procs := [], files := fun _ => none, cache := [],
    clock := 0, signals := [] }

/-- The process `p` is one of `images` and has not exited. -/
def runningAt (T : Terminal) (images : List Image) (p : ProcId) : Option TesterProcess :=
  T.procs[p]?.filter fun proc => proc.running ∧ proc.image ∈ images

/-- Every tester process and updater that runs: what `kill_terminal_processes` lists. -/
def running (T : Terminal) : List ProcId :=
  (List.range T.procs.length).filter fun p =>
    (T.runningAt [.terminal, .metatester, .updater] p).isSome

/-- `_terminal_process_alive`. -/
def terminalProcessAlive (T : Terminal) : Bool :=
  T.procs.any fun proc => proc.running && proc.image == .terminal

/-- `os.path.exists` of a report path. -/
def reportExists (S : Setup) (T : Terminal) (path : String) : Bool :=
  (T.files (S.fileOf path)).isSome

/-- The processes that job `j`'s worker started have exited with `code`. It starts one. -/
def exitedWith (T : Terminal) (j : JobId) (code : ℤ) : Bool :=
  T.procs.all fun proc => !(proc.direct && proc.origin == j) || proc.exitCode == some code

/-- `subprocess.run` kills the process it started before it raises. -/
def endDirect (T : Terminal) (j : JobId) : Terminal :=
  { T with procs := T.procs.map fun proc =>
      if proc.direct && proc.origin == j then { proc with exitCode := proc.exitCode.or (some 1) }
      else proc }

/-- Job `j` signals those of `victims` that still run. -/
def signal (T : Terminal) (j : JobId) (victims : List ProcId) : Terminal :=
  { T with signals := T.signals ++ (victims.filter (· ∈ T.running)).map fun p => (j, p) }

end Terminal

/-- The processes a worker is about to signal. -/
def WorkerPc.victims : WorkerPc → List ProcId
  | .timeoutSignalling victims | .settleSignalling _ victims => victims
  | _ => []

/-- The processes a cancel call is about to signal. -/
def CancelPc.victims : CancelPc → List ProcId
  | .signalling victims => victims
  | _ => []

/-- The observations of a step are what the directory shows. -/
def fits (S : Setup) (T : Terminal) (j : JobId) (s : JobState) : JobLabel → Bool
  | .worker a _ =>
    match a with
    | .acquire => T.runLock = none
    | .exited code => T.exitedWith j code
    | .list victims => victims = T.running
    | .sawReport found => found = T.reportExists S s.vars.job.reportPath
    | .sawReports found => found = (reportCandidates s.vars.job).any (T.reportExists S)
    | .sawSymbols found => found = T.reportExists S (symbolsReportPath s.vars.job.reportPath)
    | .sawAlive alive => alive = T.terminalProcessAlive
    | .readCache found => found.all fun x =>
        findCacheForJob S.globMatches T.cache s.vars.job.debugIni = some x.1
    | .readReport file _ => file = none ∨ file = T.files (S.fileOf s.vars.job.reportPath)
    | _ => true
  | .cancel _ a _ =>
    match a with
    | .sawHolder mine _ => mine = decide (T.lockHolder = some j)
    | .list victims => victims = T.running
    | _ => true
  | .status _ => true

/-- What a step does to the directory. -/
def touch (S : Setup) (T : Terminal) (j : JobId) (s : JobState) : JobLabel → Terminal
  | .worker a _ =>
    match a with
    | .removeReport true =>
      { T with files := Function.update T.files (S.fileOf s.vars.job.reportPath) none }
    | .acquire => { T with runLock := some j }
    | .setHolder => { T with lockHolder := some j }
    | .clearHolder => { T with lockHolder := none }
    | .release => { T with runLock := none }
    -- `_clear_stale_updaters`
    | .stage => T.signal j (T.running.filter fun p => (T.runningAt [.updater] p).isSome)
    | .launch =>
      { T with procs := T.procs ++ [
          { image := .terminal, origin := j, direct := true, exitCode := none,
            report := s.vars.job.reportPath, optimizationType := s.vars.job.optimizationType }] }
    | .timeout => T.endDirect j
    | .raise _ => if s.pc = .watching then T.endDirect j else T
    | .signal => T.signal j s.pc.victims
    | _ => T
  | .cancel c .signal _ => T.signal j (s.calls c).victims
  | _ => T

/-- The part of a job's step that concerns the directory. -/
def sync (S : Setup) (T : Terminal) (j : JobId) (s : JobState) (l : JobLabel) :
    Option Terminal :=
  if fits S T j s l then some (touch S T j s l) else none

/-- What MT5 does, as steps of its processes, and the passing of time. -/
inductive EnvAct
  | exit (p : ProcId) (code : ℤ)
  | writeReport (p : ProcId) (content : String)
  | writeCache (p : ProcId) (name : String)
  /-- A terminal starts a local agent. -/
  | spawnAgent (p : ProcId)
  /-- A terminal with a pending LiveUpdate starts the updater. -/
  | spawnUpdater (p : ProcId)
  /-- The updater starts the terminal again. -/
  | relaunch (p : ProcId)
  | tick
  deriving DecidableEq, Repr

/-- The terminal `T` with one more process, of the same run as `parent`. -/
def Terminal.spawn (T : Terminal) (parent : TesterProcess) (image : Image) : Terminal :=
  { T with procs := T.procs ++ [{ parent with image := image, direct := false }] }

/-- One step of MT5. -/
def env (S : Setup) (T : Terminal) : EnvAct → Option Terminal
  | .exit p code =>
    (T.runningAt [.terminal, .metatester, .updater] p).map fun proc =>
      { T with procs := T.procs.set p { proc with exitCode := some code } }
  | .writeReport p content =>
    (T.runningAt [.terminal] p).map fun proc =>
      let file : ReportFile := { content := content, writer := proc.origin }
      { T with files := Function.update T.files (S.fileOf proc.reportTarget) (some file) }
  | .writeCache p name =>
    (T.runningAt [.terminal, .metatester] p).map fun proc =>
      let file : CacheFile := { name := name, mtime := T.clock, writer := proc.origin }
      { T with cache := T.cache.filter (fun f => f.name ≠ name) ++ [file] }
  | .spawnAgent p => (T.runningAt [.terminal] p).map fun proc => T.spawn proc .metatester
  | .spawnUpdater p => (T.runningAt [.terminal] p).map fun proc => T.spawn proc .updater
  | .relaunch p => (T.runningAt [.updater] p).map fun proc => T.spawn proc .terminal
  | .tick => some { T with clock := T.clock + 1 }

/-- The jobs of one terminal, and the terminal. -/
abbrev World := Whole JobId JobState Terminal

/-- A step of the world: one job's, or MT5's. -/
abbrev WorldLabel := Move JobId JobLabel EnvAct

/-- The world before any submission. -/
def World.init : World := { parts := fun _ => .init, shared := .init }

/-- The step function of the world. -/
def worldStep (S : Setup) : World → WorldLabel → Option World :=
  wholeStep (jobStep S) (sync S) (env S)

/-! ## Pieces of runs on fixed inputs -/

/-- Steps of job `j`'s worker. -/
def work (j : JobId) (as : List WorkerAct) : List WorldLabel :=
  as.map fun a => .part j (.worker a {})

/-- From the submission until the worker waits for `RUN_LOCK`. -/
def untilWaiting (sub : Submission) : List WorkerAct :=
  [.store sub, .register, .start true, .register, .load, .check, .makeDirs none,
    .removeReport true]

/-- From `RUN_LOCK` until the worker is about to launch the terminal. -/
def untilLaunching : List WorkerAct := [.acquire, .setHolder, .check, .update, .stage, .check]

/-- From the terminal's exit until the worker judges its return code. -/
def untilJudging : List WorkerAct :=
  [.exited 0, .check, .cleanUp, .clearHolder, .release, .check]

/-- A step of job 0 or of MT5. -/
def ofFirstJob : WorldLabel → Bool
  | .part j _ => j == 0
  | .env _ => true

end Backtest

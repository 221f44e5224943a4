import Mt5HttpApi.Lib.Text
import Mt5HttpApi.Backtest.Jobs

/-!
# The files a backtest leaves behind

The names of a job's report and optimization cache, and how the worker finds them:
`_ensure_report_path`, `_report_candidates` and the mode-3 fallback of
`mt5api/backtest/handler.py`, and `build_cache_pattern` and `find_cache_for_job` of
`mt5api/backtest/cache_parser.py`.

A `ReportFile` and a `CacheFile` also carry the job whose terminal run wrote them. The source
cannot see that: it is what the theorems about reports and caches are stated with.
-/

namespace Backtest

open Text

/-- A report file in the terminal's `Reports` directory. -/
structure ReportFile where
  content : String
  /-- The job whose terminal run wrote the file. -/
  writer : JobId
  deriving DecidableEq, Repr

/-- An `.opt` file in the terminal's `Tester/cache` directory. -/
structure CacheFile where
  name : String
  mtime : Timestamp
  /-- The job whose terminal run wrote the file. -/
  writer : JobId
  deriving DecidableEq, Repr

/-- `_ensure_report_path`: the report name a submission gets, from the `Report` value of its INI,
its optimization type and the fresh hexadecimal id of the default name. -/
def ensureReportPath (raw : String) (optimizationType : ℕ) (fresh : String) : String :=
  let name := strip (afterLast '/' (afterLast '\\' (strip raw.toList)))
  let default :=
    if optimizationType ≠ 0 then s!"optimization-{fresh}.xml" else s!"backtest-{fresh}.htm"
  let name := if name = [] then default.toList else name
  if optimizationType ≠ 0 then
    if endsWithIgnoringCase ".xml".toList name then String.ofList name
    else String.ofList name ++ ".xml"
  else if endsWithIgnoringCase ".htm".toList name || endsWithIgnoringCase ".html".toList name then
    String.ofList name
  else String.ofList name ++ ".htm"

/-- Two submissions whose INIs name the report alike, as those of `build_ini` do by default, get
one report name. -/
example : ensureReportPath "backtest-report.htm" 0 "1f" =
    ensureReportPath "Reports\\backtest-report.htm" 0 "2e" := by decide

/-- `os.path.splitext(path)[0]`. Dots that start the last component start no extension. -/
def splitextRoot (path : String) : String :=
  let base := afterLast '\\' path.toList
  if '.' ∈ base.dropWhile (· == '.') then String.ofList (beforeLast '.' path.toList) else path

/-- The path MT5 writes a mode-3 report to: `<base>.symbols.xml`. -/
def symbolsReportPath (path : String) : String :=
  splitextRoot path ++ ".symbols.xml"

/-- `os.path.basename(path)`. -/
def basename (path : String) : String :=
  String.ofList (afterLast '\\' path.toList)

/-- `_report_candidates`: every path that counts as the run's output. -/
def reportCandidates (job : Job) : List String :=
  if job.optimizationType = 3 then [job.reportPath, symbolsReportPath job.reportPath]
  else [job.reportPath]

/-- `compact_date`. -/
def compactDate (date : String) : String :=
  String.ofList (date.toList.filter (· != '.'))

/-- `path.stem` of the last component: it without its last suffix. -/
def nameStem (name : List Char) : List Char :=
  if '.' ∈ name.drop 1 ∧ name.getLast? ≠ some '.' then beforeLast '.' name else name

/-- `Path(path).name` of a path without a drive: the last component that is not empty or a dot. -/
def pathName (path : List Char) : List Char :=
  ((path.splitOn '/').filter fun part => part ≠ [] ∧ part ≠ ['.']).getLast?.getD []

/-- `Path(value.replace("\\", "/")).stem`. -/
def pathStem (value : String) : String :=
  String.ofList (nameStem (pathName (replaceChar '\\' '/' value.toList)))

/-- A settings value that is present and not empty. -/
def present (value : Option String) : Option String :=
  value.filter (· != "")

/-- `build_cache_pattern`. -/
def buildCachePattern (settings : TesterSettings) : Option String := do
  let expert ← present settings.expert
  let period ← present settings.period
  let fromDate ← present settings.fromDate
  let toDate ← present settings.toDate
  let symbol :=
    if settings.optimization = some "3" then "all_symbols" else settings.symbol.getD "*"
  pure (pathStem expert ++ "." ++ symbol ++ "." ++ period ++ "." ++ compactDate fromDate ++ "." ++
    compactDate toDate ++ ".*.opt")

/-- The pattern of two jobs with the same expert, symbol, period and dates is the same, whatever
inputs their set files give the expert: no input is part of it. -/
example : buildCachePattern ⟨some "Uploaded\\ea", some "EURUSD", some "H1", some "2024.01.01",
    some "2024.02.01", some "1"⟩ = some "ea.EURUSD.H1.20240101.20240201.*.opt" := by decide

/-- `max(candidates, key=lambda path: (mtime, name))` on a pair: the later file, and of two files
of one moment the one whose name is larger. -/
def CacheFile.newer (f g : CacheFile) : CacheFile :=
  if g.mtime < f.mtime ∨ g.mtime = f.mtime ∧ g.name ≤ f.name then f else g

/-- `max(candidates, key=...)`. -/
def newestCache : List CacheFile → Option CacheFile
  | [] => none
  | f :: fs => some (fs.foldl CacheFile.newer f)

/-- The newer of two files is one of them, and none of them is newer. -/
theorem CacheFile.newer_spec (f g : CacheFile) :
    (f.newer g = f ∨ f.newer g = g) ∧ f.mtime ≤ (f.newer g).mtime ∧
      g.mtime ≤ (f.newer g).mtime := by
  unfold CacheFile.newer
  split
  next h =>
    refine ⟨Or.inl rfl, le_rfl, ?_⟩
    rcases h with hlt | ⟨heq, -⟩
    · exact hlt.le
    · exact heq.le
  next h => exact ⟨Or.inr rfl, not_lt.mp fun hlt => h (Or.inl hlt), le_rfl⟩

theorem foldl_newer_spec (f : CacheFile) (fs : List CacheFile) :
    fs.foldl CacheFile.newer f ∈ f :: fs ∧
      ∀ g ∈ f :: fs, g.mtime ≤ (fs.foldl CacheFile.newer f).mtime := by
  induction fs generalizing f with
  | nil => simp
  | cons g fs ih =>
    obtain ⟨hnewer, hf, hg⟩ := f.newer_spec g
    obtain ⟨hmem, hall⟩ := ih (f.newer g)
    rw [List.forall_mem_cons] at hall
    rw [List.foldl_cons]
    refine ⟨?_, ?_⟩
    · rcases List.mem_cons.mp hmem with heq | hmem
      · rw [heq]
        rcases hnewer with heq | heq <;> simp [heq]
      · exact List.mem_cons_of_mem f (List.mem_cons_of_mem g hmem)
    · rw [List.forall_mem_cons, List.forall_mem_cons]
      exact ⟨hf.trans hall.1, hg.trans hall.1, hall.2⟩

/-- The newest file is one of the files, and none is newer. -/
theorem newestCache_spec {files : List CacheFile} {x : CacheFile} (h : newestCache files = some x) :
    x ∈ files ∧ ∀ f ∈ files, f.mtime ≤ x.mtime := by
  cases files with
  | nil => cases h
  | cons f fs =>
    rw [← Option.some.inj h]
    exact foldl_newer_spec f fs

/-- `find_cache_for_job`, with `matches_` the pattern test of `Path.glob`. -/
def findCacheForJob (matches_ : String → String → Bool) (cache : List CacheFile)
    (settings : TesterSettings) : Option CacheFile :=
  (buildCachePattern settings).bind fun pattern =>
    newestCache (cache.filter fun f => matches_ pattern f.name)

/-- The pattern of a job's cache file matches the name. -/
def cacheMatches (matches_ : String → String → Bool) (settings : TesterSettings)
    (name : String) : Bool :=
  (buildCachePattern settings).any fun pattern => matches_ pattern name

/-- The file `find_cache_for_job` answers is a newest one among those that match. -/
theorem findCacheForJob_spec {matches_ : String → String → Bool} {cache : List CacheFile}
    {settings : TesterSettings} {x : CacheFile}
    (h : findCacheForJob matches_ cache settings = some x) :
    x ∈ cache ∧ cacheMatches matches_ settings x.name = true ∧
      ∀ f ∈ cache, cacheMatches matches_ settings f.name = true → f.mtime ≤ x.mtime := by
  obtain ⟨pattern, hpattern, hx⟩ := Option.bind_eq_some_iff.mp h
  obtain ⟨hmem, hall⟩ := newestCache_spec hx
  simp only [cacheMatches, hpattern, Option.any_some]
  rw [List.mem_filter] at hmem
  exact ⟨hmem.1, hmem.2, fun f hf hm => hall f (List.mem_filter.mpr ⟨hf, hm⟩)⟩

end Backtest

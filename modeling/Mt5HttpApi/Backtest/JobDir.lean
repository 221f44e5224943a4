import Mathlib.Data.List.Lex
import Mathlib.Data.List.Sort
import Mt5HttpApi.Backtest.Jobs
import Mt5HttpApi.Lib.Json
import Mt5HttpApi.Lib.Passes
import Mt5HttpApi.Lib.Utf8
import Mt5HttpApi.Lib.WindowsPath

/-!
# The shared job directory as it is found on disk

`sweep_orphans` and `prune_old_jobs` over a directory with anything in it: files of any bytes, JSON
of any shape, directories and links. A file is read as text and as JSON (`readRecord`), which passes
over what it cannot read, but may also end the whole pass with an exception that nobody catches. The
record's fields are used as they are found: `isActive`, `ownsRecord` and `jobState` say what comes
of a field of another type.

How Python reads and writes JSON, and how it renders a value, is given by a `Runtime`.
-/

namespace Backtest.JobDir

open Text WindowsPath Json Passes

/-- What `json.loads` does with a text. -/
inductive Loaded
  | value (v : Value)
  /-- A `JSONDecodeError`. -/
  | decodeError
  /-- Another exception: a number of too many digits, or too many brackets in each other. -/
  | raises

/-- What the two passes use of Python. -/
structure Runtime where
  /-- `json.loads`. -/
  loads : List Char → Loaded
  /-- The bytes that `json.dump(job, handle, indent=2, sort_keys=True)` writes, or those that it
  has written before it raises. -/
  dump : Fields → Except (List UInt8) (List UInt8)
  /-- `str`, if it does not raise. -/
  str : Value → Option (List Char)

/-- What there is at a path. A link is given by what is read through it. -/
inductive Node
  | file (bytes : List UInt8) (mtime : ℚ)
  | dir (mtime : ℚ)
  | link (mtime : ℚ) (through : Option (List UInt8))
  deriving DecidableEq

/-- `st_mtime`, of a link itself. -/
def Node.mtime : Node → ℚ
  | .file _ mtime | .dir mtime | .link mtime _ => mtime

/-- What there is at the paths of the disk, each given by its names from the root on. -/
abbrev Disk := List Segment → Option Node

/-- The clock, and what fails with an `OSError`. -/
structure Env where
  now : ℚ
  /-- `now_iso()`. -/
  nowIso : List Char
  listFails : Bool
  statFails : List Segment → Bool
  openFails : List Segment → Bool
  writeFails : List Segment → Bool
  /-- `os.replace` fails to the last of its attempts. -/
  replaceFails : List Segment → Bool
  /-- A removal leaves what is there. -/
  keeps : List Segment → Bool

/-- The job directory on a disk, with the names that `os.scandir` lists. -/
structure Site where
  dir : List Segment
  disk : Disk
  listed : List Segment
  nodup : listed.Nodup
  mem_listed : ∀ name, name ∈ listed ↔ disk (dir ++ [name]) ≠ none

/-- `os.path.isdir` and not `os.path.islink`. -/
def isDir (disk : Disk) (path : List Segment) : Bool :=
  match disk path with
  | some (.dir _) => true
  | _ => false

/-- `stat(follow_symlinks=False).st_mtime`. -/
def mtime? (env : Env) (disk : Disk) (path : List Segment) : Option ℚ :=
  if env.statFails path then none else (disk path).map Node.mtime

/-- The bytes of a file that can be opened. -/
def openBytes (env : Env) (disk : Disk) (path : List Segment) : Option (List UInt8) :=
  if env.openFails path then none
  else match disk path with
    | some (.file bytes _) => some bytes
    | some (.link _ through) => through
    | _ => none

/-- The text of a file as `read` returns it, with a line feed for each line break. -/
def newlines (text : List Char) : List Char :=
  replaceChar '\r' '\n' (replacePair '\r' '\n' ['\n'] text)

/-- What comes of a state file that is read. -/
inductive Reading
  /-- An `OSError` or a `JSONDecodeError`: the file is passed over. -/
  | unreadable
  /-- Another exception, which is not caught. -/
  | raised
  | record (fields : Fields)

/-- `json.load` of a state file, and the first `job.get`. -/
def readRecord (rt : Runtime) (env : Env) (disk : Disk) (path : List Segment) : Reading :=
  match openBytes env disk path with
  | none => .unreadable
  | some bytes =>
    match Utf8.decode bytes with
    -- a `UnicodeDecodeError`
    | none => .raised
    | some text =>
      match rt.loads (newlines text) with
      | .decodeError => .unreadable
      | .raises => .raised
      | .value (.obj fields) => .record fields
      -- there is no `get` in what is not an object
      | .value _ => .raised

/-- A value that can be looked up in a set. -/
def hashable : Value → Bool
  | .arr _ | .obj _ => false
  | _ => true

/-- `bool`. -/
def truthy : Value → Bool
  | .null => false
  | .bool b => b
  | .int n => n ≠ 0
  | .float (.finite q) => q ≠ 0
  | .float .negZero => false
  | .float _ => true
  | .str s => s ≠ []
  | .arr items => !items.isEmpty
  | .obj fields => !fields.isEmpty

/-- `job.get("status") in ACTIVE_STATUSES`, if it does not raise. -/
def isActive (fields : Fields) : Option Bool :=
  match fields.find "status" with
  | none => some false
  | some status =>
    if hashable status then
      some (status.text? = some "queued".toList ∨ status.text? = some "running".toList)
    else none

/-- A field that is there and not null. -/
def named (fields : Fields) (key : String) : Option Value :=
  match fields.find key with
  | some .null => none
  | value => value

/-- `owns_job`, if it does not raise. -/
def ownsRecord (rt : Runtime) (me : Identity) (fields : Fields) : Option Bool :=
  if (named fields "broker").any fun v => v.text? ≠ some me.broker.toList then some false
  else if (named fields "account").any fun v => v.text? ≠ some me.account.toList then some false
  else match named fields "instance" with
    | some v => (rt.str v).map fun text =>
      me.normalizeInstance (some (String.ofList text)) = me.normalizeInstance me.inst
    | none => some (me.configuredTerminals ≤ 1)

/-- The record is of an active job of this terminal. -/
def orphaned (rt : Runtime) (me : Identity) (fields : Fields) : Option Bool :=
  match isActive fields with
  | some true => ownsRecord rt me fields
  | other => other

/-- The record with what the sweep writes into it. -/
def failedFields (env : Env) (fields : Fields) : Fields :=
  Dict.set (Dict.set (Dict.set fields "status".toList (.str "failed".toList))
    "error".toList (.str "API restarted before completion".toList))
    "finishedAt".toList (.str env.nowIso)

/-- How a write ends. -/
inductive Wrote
  | done
  | osError
  | raised
  deriving DecidableEq

/-- What is at a path after it was opened for writing: through a link it is the target that is
written. -/
def written (env : Env) (disk : Disk) (path : List Segment) (bytes : List UInt8) : Node :=
  match disk path with
  | some (.link mtime _) => .link mtime (some bytes)
  | _ => .file bytes env.now

/-- The path that `_atomic_write` writes to first. -/
def tmpName (name : Segment) : Segment := name ++ ".tmp".toList

/-- `_atomic_write` of a state file of the directory. -/
def atomicWrite (rt : Runtime) (env : Env) (dir : List Segment) (disk : Disk) (name : Segment)
    (fields : Fields) : Wrote × Disk :=
  let path := dir ++ [name]
  let tmp := dir ++ [tmpName name]
  if env.writeFails tmp || isDir disk tmp then (.osError, disk)
  else match rt.dump fields with
    | .error bytes => (.raised, Function.update disk tmp (some (written env disk tmp bytes)))
    | .ok bytes =>
      let node := written env disk tmp bytes
      if env.replaceFails path || isDir disk path then
        (.osError, Function.update disk tmp (some node))
      else (.done, Function.update (Function.update disk path (some node)) tmp none)

/-- The sweep of one state file: how many jobs were swept, unless an exception is not caught. -/
def sweepRecord (rt : Runtime) (me : Identity) (env : Env) (dir : List Segment) (disk : Disk)
    (name : Segment) : Option ℕ × Disk :=
  match readRecord rt env disk (dir ++ [name]) with
  | .unreadable => (some 0, disk)
  | .raised => (none, disk)
  | .record fields =>
    match orphaned rt me fields with
    | none => (none, disk)
    | some false => (some 0, disk)
    | some true =>
      match atomicWrite rt env dir disk name (failedFields env fields) with
      | (.done, disk') => (some 1, disk')
      | (.osError, disk') => (some 0, disk')
      | (.raised, disk') => (none, disk')

/-- `name.endswith(".json")`. -/
def isJson (name : Segment) : Bool := ".json".toList.isSuffixOf name

namespace Site

variable (site : Site)

/-- The path of an entry. -/
def place (name : Segment) : List Segment := site.dir ++ [name]

/-- `sorted(recent)`. -/
def recent (env : Env) (lookback : ℚ) : List Segment :=
  if !isDir site.disk site.dir || env.listFails then []
  else
    let listed := site.listed.filter fun name => isJson name &&
      (mtime? env site.disk (site.place name)).any fun m => !decide (m < env.now - lookback)
    listed.insertionSort fun a b => a.map Char.toNat ≤ b.map Char.toNat

/-- `sweep_orphans`. -/
def sweepOrphans (rt : Runtime) (me : Identity) (env : Env) (lookback : ℚ) : Option ℕ × Disk :=
  runPass (sweepRecord rt me env site.dir) (site.recent env lookback) site.disk

end Site

/-- `_JOB_ID_RE.fullmatch`. -/
def isJobId (text : List Char) : Bool :=
  text.length = 32 && text.all fun c => c ∈ "0123456789abcdef".toList

/-- `os.path.join(dir, text)`, as Windows resolves it. -/
def joined (dir : List Segment) (text : List Char) : List Segment :=
  let start :=
    if ':' ∈ text then []
    else if text.head? = some '/' ∨ text.head? = some '\\' then dir.take 1
    else dir
  ((walk start.reverse (segments text)).getD []).reverse

/-- What `_remove_job_state` removes, unless it raises: the state file, and what the job id
names. -/
def targets (dir : List Segment) (name : Segment) (jobId : Option Value) :
    Option (List (List Segment)) :=
  let path := dir ++ [name]
  match jobId with
  | none => some [path]
  | some (.str text) =>
    if isJobId text then some [path, joined dir text] else some [path]
  -- `fullmatch` takes a string only
  | some value => if truthy value then none else some [path]

/-- `shutil.rmtree` of a directory, `os.remove` of anything else. -/
def removed (env : Env) (disk : Disk) (target : List Segment) : Disk := fun path =>
  if (path = target ∨ isDir disk target ∧ target <+: path) ∧ env.keeps path = false then none
  else disk path

/-- `PRUNE_MARKER_NAME`. -/
def markerName : Segment := ".job-prune-marker".toList

/-- The retirement of one state file: how many jobs were retired, unless an exception is not
caught. -/
def pruneRecord (rt : Runtime) (env : Env) (maxAge : ℚ) (dir : List Segment) (disk : Disk)
    (name : Segment) : Option ℕ × Disk :=
  let path := dir ++ [name]
  if name = markerName || !isJson name then (some 0, disk)
  else if (mtime? env disk path).all fun m => decide (env.now - maxAge ≤ m) then (some 0, disk)
  else match readRecord rt env disk path with
    | .unreadable => (some 0, disk)
    | .raised => (none, disk)
    | .record fields =>
      match isActive fields with
      | none => (none, disk)
      | some true => (some 0, disk)
      | some false =>
        match targets dir name (fields.find "jobId") with
        | none => (none, disk)
        | some paths => (some 1, paths.foldl (removed env) disk)

/-- `_touch`. -/
def touch (env : Env) (disk : Disk) (path : List Segment) : Disk :=
  if env.writeFails path || isDir disk path then disk
  else Function.update disk path
    (some (written env disk path (Utf8.encode (toString env.now.floor).toList)))

/-- `PRUNE_MIN_ENTRIES`. -/
def pruneMinEntries : ℕ := 1000

/-- `PRUNE_INTERVAL_SECONDS`. -/
def pruneIntervalSeconds : ℚ := 24 * 3600

namespace Site

variable (site : Site)

/-- The directory is scanned: it can be, it has grown big, and the marker is old or missing. -/
def pruned (env : Env) : Bool :=
  isDir site.disk site.dir &&
    ((mtime? env site.disk (site.place markerName)).all fun m =>
      decide (pruneIntervalSeconds ≤ env.now - m)) &&
    !env.listFails && decide (pruneMinEntries ≤ site.listed.length)

/-- `prune_old_jobs`. -/
def pruneOldJobs (rt : Runtime) (env : Env) (maxAge : ℚ) : Option ℕ × Disk :=
  if site.pruned env then
    match runPass (pruneRecord rt env maxAge site.dir) site.listed site.disk with
    | (none, disk) => (none, disk)
    | (some n, disk) => (some n, touch env disk (site.place markerName))
  else (some 0, site.disk)

end Site

/-! ## What a removal takes away -/

variable {env : Env} {dir : List Segment} {disk disk' : Disk} {name name' : Segment}
  {path : List Segment} {text : List Char} {rt : Runtime}

theorem entry_inj : dir ++ [name] = dir ++ [name'] ↔ name = name' := by simp

/-- An entry is below no other entry. -/
theorem entry_prefix_iff : dir ++ [name] <+: dir ++ [name'] ↔ name = name' := by
  rw [List.prefix_append_right_inj]
  constructor
  · rintro ⟨more, hmore⟩
    exact (List.cons.inj hmore).1
  · rintro rfl
    exact List.prefix_rfl

/-- What is read at a path depends on what there is. -/
theorem readRecord_congr (h : disk' path = disk path) :
    readRecord rt env disk' path = readRecord rt env disk path := by
  rw [readRecord, readRecord, openBytes, openBytes, h]

theorem mtime?_congr (h : disk' path = disk path) :
    mtime? env disk' path = mtime? env disk path := by
  rw [mtime?, mtime?, h]

/-- What is read is no directory. -/
theorem isDir_of_record {fields : Fields} (h : readRecord rt env disk path = .record fields) :
    isDir disk path = false := by
  rw [isDir]
  split
  next hdir =>
    have hopen : openBytes env disk path = none := by
      rw [openBytes]
      simp [hdir]
    rw [readRecord, hopen] at h
    exact absurd h (by simp)
  next => rfl

/-- The characters of a job id are digits. -/
theorem mem_digits_of_isJobId (h : isJobId text = true) :
    ∀ c ∈ text, c ∈ "0123456789abcdef".toList := by
  rw [isJobId, Bool.and_eq_true, List.all_eq_true] at h
  exact fun c hc => of_decide_eq_true (h.2 c hc)

theorem ne_nil_of_isJobId (h : isJobId text = true) : text ≠ [] := by
  rintro rfl
  exact absurd h (by decide)

/-- A job id is no name of a state file. -/
theorem isJson_of_isJobId (h : isJobId text = true) : isJson text = false := by
  rw [isJson, Bool.eq_false_iff, Ne, List.isSuffixOf_iff_suffix]
  intro hsuffix
  have hdot : '.' ∈ text := hsuffix.subset (by decide)
  exact absurd (mem_digits_of_isJobId h _ hdot) (by decide)

/-- A job id leads to an entry of the directory. -/
theorem joined_of_isJobId (h : isJobId text = true) : joined dir text = dir ++ [text] := by
  have hdigits := mem_digits_of_isJobId h
  have hnotMem : ∀ c, c ∉ "0123456789abcdef".toList → c ∉ text :=
    fun c hc hmem => hc (hdigits c hmem)
  obtain ⟨c, rest, rfl⟩ := List.exists_cons_of_ne_nil (ne_nil_of_isJobId h)
  have hc := hdigits c List.mem_cons_self
  have hslash : ¬ ((c :: rest).head? = some '/' ∨ (c :: rest).head? = some '\\') := by
    rw [List.head?_cons, Option.some_inj, Option.some_inj]
    rintro (rfl | rfl)
    all_goals exact absurd hc (by decide)
  have hsegments : segments (c :: rest) = [c :: rest] := by
    rw [segments, replaceChar_of_not_mem (hnotMem '/' (by decide)),
      List.splitOn_eq_singleton (hnotMem '\\' (by decide))]
  have hstays : Segment.stays (c :: rest) = false := by
    rw [Segment.stays, decide_eq_false_iff_not]
    intro hmem
    have hdot : c = '.' := by
      rcases List.mem_cons.mp hmem with hnil | hdots
      · exact absurd hnil (by simp)
      · exact (List.cons.inj (List.mem_singleton.mp hdots)).1
    exact absurd (hdot ▸ hc) (by decide)
  have hclimbs : Segment.climbs (c :: rest) = false := by
    rw [Segment.climbs, List.all_cons]
    have hdots : (decide (c = ' ') || decide (c = '.')) = false := by
      rw [Bool.or_eq_false_iff, decide_eq_false_iff_not, decide_eq_false_iff_not]
      constructor
      all_goals
        rintro rfl
        exact absurd hc (by decide)
    rw [hdots]
    rfl
  rw [joined, if_neg (hnotMem ':' (by decide)), if_neg hslash, hsegments]
  simp [walk, hstays, hclimbs]

/-- What is removed: the state file, and the entry that a job id names. -/
theorem mem_targets {jobId : Option Value} {paths : List (List Segment)}
    (h : targets dir name jobId = some paths) {target : List Segment} (htarget : target ∈ paths) :
    target = dir ++ [name] ∨
      ∃ id, jobId = some (.str id) ∧ isJobId id = true ∧ target = dir ++ [id] := by
  unfold targets at h
  dsimp only at h
  split at h
  · cases h
    exact Or.inl (List.mem_singleton.mp htarget)
  · next text =>
    split at h
    · next hid =>
      cases h
      rcases List.mem_cons.mp htarget with rfl | hmem
      · exact Or.inl rfl
      · refine Or.inr ⟨text, rfl, hid, ?_⟩
        rw [List.mem_singleton.mp hmem, joined_of_isJobId hid]
    · cases h
      exact Or.inl (List.mem_singleton.mp htarget)
  · split at h
    · cases h
    · cases h
      exact Or.inl (List.mem_singleton.mp htarget)

/-- A removal leaves what is not below its target. -/
theorem removed_of_not_prefix {target : List Segment} (h : ¬ target <+: path) :
    removed env disk target path = disk path := by
  refine if_neg ?_
  rintro ⟨rfl | ⟨-, hprefix⟩, -⟩
  · exact h List.prefix_rfl
  · exact h hprefix

/-- Removals leave what is below none of their targets. -/
theorem foldl_removed_frame {paths : List (List Segment)}
    (h : ∀ target ∈ paths, ¬ target <+: path) (disk : Disk) :
    paths.foldl (removed env) disk path = disk path := by
  induction paths generalizing disk with
  | nil => rfl
  | cons target paths ih =>
    obtain ⟨htarget, hpaths⟩ := List.forall_mem_cons.mp h
    rw [List.foldl_cons, ih hpaths, removed_of_not_prefix htarget]

/-- What is gone stays gone. -/
theorem foldl_removed_none (h : disk path = none) (paths : List (List Segment)) :
    paths.foldl (removed env) disk path = none := by
  induction paths generalizing disk with
  | nil => exact h
  | cons target paths ih =>
    rw [List.foldl_cons]
    apply ih
    rw [removed, h]
    split <;> rfl

/-- The state file is old, and its record is of a job that is not active. -/
def Retired (rt : Runtime) (env : Env) (maxAge : ℚ) (dir : List Segment) (disk : Disk)
    (name : Segment) (fields : Fields) : Prop :=
  name ≠ markerName ∧ isJson name = true ∧
    (∃ m, mtime? env disk (dir ++ [name]) = some m ∧ m < env.now - maxAge) ∧
    readRecord rt env disk (dir ++ [name]) = .record fields ∧ isActive fields = some false

/-- A retired record removes its state file, and the entry that it names. -/
theorem pruneRecord_of_retired {maxAge : ℚ} {fields : Fields}
    (h : Retired rt env maxAge dir disk name fields) :
    pruneRecord rt env maxAge dir disk name =
      match targets dir name (fields.find "jobId") with
      | none => (none, disk)
      | some paths => (some 1, paths.foldl (removed env) disk) := by
  obtain ⟨hmarker, hjson, ⟨m, hm, hold⟩, hread, hactive⟩ := h
  have hskip : (decide (name = markerName) || !isJson name) = false := by
    simp [hmarker, hjson]
  have hyoung : ((mtime? env disk (dir ++ [name])).all fun m =>
      decide (env.now - maxAge ≤ m)) = false := by
    simpa [hm] using Rat.not_le.mpr hold
  rw [pruneRecord]
  simp only [hskip, hyoung, hread, hactive, Bool.false_eq_true, if_false]

/-- An entry that is not retired is left. -/
theorem pruneRecord_of_not_retired {maxAge : ℚ}
    (h : ∀ fields, ¬ Retired rt env maxAge dir disk name fields) :
    (pruneRecord rt env maxAge dir disk name).2 = disk := by
  rw [pruneRecord]
  split
  · rfl
  · next hjson =>
    split
    · rfl
    · next hold =>
      split
      · rfl
      · rfl
      · next fields hread =>
        split
        · rfl
        · rfl
        · next hactive =>
          simp only [Bool.or_eq_true, decide_eq_true_eq, Bool.not_eq_true', not_or,
            Bool.not_eq_false] at hjson
          refine absurd ⟨hjson.1, hjson.2, ?_, hread, hactive⟩ (h fields)
          cases hm : mtime? env disk (dir ++ [name]) with
          | none => simp [hm] at hold
          | some m => exact ⟨m, rfl, Rat.not_le.mp (by simpa [hm] using hold)⟩

/-- What is not below a retired state file, or below the entry that it names, stays. -/
theorem pruneRecord_frame {maxAge : ℚ}
    (h : ∀ fields, Retired rt env maxAge dir disk name fields → ¬ dir ++ [name] <+: path ∧
      ∀ id, fields.find "jobId" = some (.str id) → isJobId id = true → ¬ dir ++ [id] <+: path) :
    (pruneRecord rt env maxAge dir disk name).2 path = disk path := by
  by_cases hretired : ∃ fields, Retired rt env maxAge dir disk name fields
  · obtain ⟨fields, hretired⟩ := hretired
    obtain ⟨hname, hid⟩ := h fields hretired
    rw [pruneRecord_of_retired hretired]
    split
    next => rfl
    next paths htargets =>
      refine foldl_removed_frame (fun target htarget => ?_) disk
      rcases mem_targets htargets htarget with rfl | ⟨id, hjobId, hhex, rfl⟩
      · exact hname
      · exact hid id hjobId hhex
  · rw [pruneRecord_of_not_retired (not_exists.mp hretired)]

end Backtest.JobDir

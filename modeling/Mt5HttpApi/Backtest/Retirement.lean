import Mt5HttpApi.Backtest.AnyContent

/-!
# What the retirement removes

A retired record takes with it the staging directory that its `jobId` names. The pattern of job ids
keeps that in the job directory, but the name of the state file is not compared, so the directory
may be that of another job, with a state file of its own that is active or young. The retirement
spares those directories exactly when no record names one of them (`spares_iff`).
-/

namespace Backtest.JobDir

open WindowsPath Json Passes

/-- The same environment without files that cannot be opened. -/
def Env.open (env : Env) : Env := { env with openFails := fun _ => false }

namespace Site

variable (site : Site)

/-- The job's own state file `<id>.json` is active, or younger than the retention window. -/
def Protected (rt : Runtime) (env : Env) (maxAge : ℚ) (id : List Char) : Prop :=
  let path := site.place (id ++ ".json".toList)
  (∃ node, site.disk path = some node ∧ env.now - maxAge ≤ node.mtime) ∨
    ∃ fields, readRecord rt env.open site.disk path = .record fields ∧
      isActive fields = some true

/-- Nothing outside of the job directory is removed, and nothing in the staging directory of a
protected job. -/
def Spares (rt : Runtime) (env : Env) (maxAge : ℚ) : Prop :=
  (∀ path, ¬ site.dir <+: path → (site.pruneOldJobs rt env maxAge).2 path = site.disk path) ∧
    ∀ id, isDir site.disk (site.place id) = true → site.Protected rt env maxAge id →
      ∀ path, site.place id <+: path → (site.pruneOldJobs rt env maxAge).2 path = site.disk path

/-- The retirement comes to the entry: it can go on after those that are listed before. -/
def Reached (rt : Runtime) (env : Env) (maxAge : ℚ) (name : Segment) : Prop :=
  ∃ before after, site.listed = before ++ name :: after ∧
    ∀ n ∈ before, Prunable rt env maxAge site.dir site.disk n

/-- No retired record names the staging directory of a protected job. -/
def NoClash (rt : Runtime) (env : Env) (maxAge : ℚ) : Prop :=
  site.pruned env = true → ∀ name fields id, site.Reached rt env maxAge name →
    Retired rt env maxAge site.dir site.disk name fields →
      fields.find "jobId" = some (.str id) → isJobId id = true →
        isDir site.disk (site.place id) = true → ¬ site.Protected rt env maxAge id

end Site

variable {rt : Runtime} {env : Env} {maxAge : ℚ} {dir : List Segment} {disk start : Disk}
  {name : Segment} {names before after : List Segment} {path : List Segment}

theorem retired_congr {fields : Fields}
    (h : isJson name = true → disk (dir ++ [name]) = start (dir ++ [name])) :
    Retired rt env maxAge dir disk name fields ↔ Retired rt env maxAge dir start name fields := by
  unfold Retired
  refine and_congr_right fun _ => and_congr_right fun hjson => ?_
  rw [mtime?_congr (h hjson), readRecord_congr (h hjson)]

/-- What is below no retired state file that the pass comes to, and below no entry that one names,
stays. -/
theorem over_prune_frame (hnodup : names.Nodup) (hreads : Reads start dir names disk)
    (h : ∀ before name after fields, names = before ++ name :: after →
      (∀ n ∈ before, Prunable rt env maxAge dir start n) →
      Retired rt env maxAge dir start name fields → ¬ dir ++ [name] <+: path ∧
        ∀ id, fields.find "jobId" = some (.str id) → isJobId id = true → ¬ dir ++ [id] <+: path) :
    (runPass (pruneRecord rt env maxAge dir) names disk).2 path = disk path := by
  induction names generalizing disk with
  | nil => rfl
  | cons name names ih =>
    obtain ⟨hnotMem, hnodup⟩ := List.nodup_cons.mp hnodup
    have hname := hreads name List.mem_cons_self
    have hfirst : (pruneRecord rt env maxAge dir disk name).2 path = disk path := by
      refine pruneRecord_frame fun fields hretired => ?_
      exact h [] name names fields rfl (by simp) ((retired_congr hname).mp hretired)
    have hnext : Reads start dir names (pruneRecord rt env maxAge dir disk name).2 :=
      hreads.step hnotMem
    rcases hstep : pruneRecord rt env maxAge dir disk name with ⟨- | k, disk'⟩
    · rw [hstep] at hfirst
      rw [runPass, hstep]
      exact hfirst
    · have hprunable : Prunable rt env maxAge dir start name := by
        rw [← prunable_congr hname, ← pruneRecord_isSome_iff, hstep]
        rfl
      rw [hstep] at hfirst hnext
      rw [over_cons_of_some hstep]
      refine (ih hnodup hnext fun before other after fields hsplit hbefore => ?_).trans hfirst
      exact h (name :: before) other after fields (by rw [hsplit, List.cons_append])
        (List.forall_mem_cons.mpr ⟨hprunable, hbefore⟩)

/-- What is gone stays gone. -/
theorem pruneRecord_none (h : disk path = none) :
    (pruneRecord rt env maxAge dir disk name).2 path = none := by
  by_cases hretired : ∃ fields, Retired rt env maxAge dir disk name fields
  · obtain ⟨fields, hretired⟩ := hretired
    rw [pruneRecord_of_retired hretired]
    split
    next => exact h
    next paths _ => exact foldl_removed_none h paths
  · rwa [pruneRecord_of_not_retired (not_exists.mp hretired)]

theorem over_prune_none (h : disk path = none) :
    (runPass (pruneRecord rt env maxAge dir) names disk).2 path = none :=
  over_invariant (I := fun d : Disk => d path = none) (fun _ _ _ => pruneRecord_none) h

/-- The marker is no job id. -/
theorem touch_of_isJobId {id : List Char} (h : isJobId id = true) (disk : Disk) :
    touch env disk (dir ++ [markerName]) (dir ++ [id]) = disk (dir ++ [id]) := by
  have hne : id ≠ markerName := by
    rintro rfl
    exact absurd h (by decide)
  rw [touch]
  split
  · rfl
  · exact Function.update_of_ne (mt entry_inj.mp hne) _ _

/-- A retired record that the pass comes to takes the entry with it that it names. -/
theorem over_prune_gone {fields : Fields} {id : List Char}
    (hnodup : (before ++ name :: after).Nodup)
    (hbefore : ∀ n ∈ before, Prunable rt env maxAge dir disk n)
    (hretired : Retired rt env maxAge dir disk name fields)
    (hid : fields.find "jobId" = some (.str id)) (hhex : isJobId id = true)
    (hkeeps : ∀ path, env.keeps path = false) :
    (runPass (pruneRecord rt env maxAge dir) (before ++ name :: after) disk).2
      (dir ++ [id]) = none := by
  obtain ⟨hnodupBefore, -, hdisjoint⟩ := List.nodup_append.mp hnodup
  have hsome := (over_prune_isSome_iff hnodupBefore fun _ _ _ => rfl).mpr hbefore
  rcases hpass : runPass (pruneRecord rt env maxAge dir) before disk with ⟨- | n, disk'⟩
  · rw [hpass] at hsome
    exact absurd hsome (by simp)
  -- the record is read as at the start
  have hread : disk' (dir ++ [name]) = disk (dir ++ [name]) := by
    have hframe : (runPass (pruneRecord rt env maxAge dir) before disk).2 (dir ++ [name]) =
        disk (dir ++ [name]) := over_frame (fun d : Disk => d (dir ++ [name]))
      (fun n hn _ => pruneRecord_other (hdisjoint n hn name List.mem_cons_self) hretired.2.1) disk
    rwa [hpass] at hframe
  have hstep := pruneRecord_of_retired ((retired_congr fun _ => hread).mpr hretired)
  have htargets : targets dir name (some (.str id)) = some [dir ++ [name], dir ++ [id]] := by
    simp [targets, hhex, joined_of_isJobId hhex]
  rw [hid, htargets] at hstep
  rw [over_append hpass, over_cons_of_some hstep]
  refine over_prune_none ?_
  simp [removed, hkeeps]

namespace Site

variable (site : Site)

/-- What the pass over the entries leaves, and the marker is not written over, the retirement
leaves. -/
theorem pruneOldJobs_frame
    (h : (runPass (pruneRecord rt env maxAge site.dir) site.listed site.disk).2 path =
      site.disk path)
    (hmarker : path = site.place markerName →
      isDir (runPass (pruneRecord rt env maxAge site.dir) site.listed site.disk).2 path = true) :
    (site.pruneOldJobs rt env maxAge).2 path = site.disk path := by
  rw [pruneOldJobs]
  split
  · split
    next heq => rwa [heq] at h
    next disk heq =>
      rw [heq] at h hmarker
      rw [← h]
      show touch env disk (site.place markerName) path = disk path
      by_cases hpath : path = site.place markerName
      · have hdir : isDir disk (site.place markerName) = true := hpath ▸ hmarker hpath
        rw [touch, hdir, Bool.or_true, if_pos rfl]
      · rw [touch]
        split
        · rfl
        · exact Function.update_of_ne hpath _ _
  · rfl

/-- Nothing outside of the job directory is removed. -/
theorem pruneOldJobs_outside (hpath : ¬ site.dir <+: path) :
    (site.pruneOldJobs rt env maxAge).2 path = site.disk path := by
  have hbelow : ∀ n, ¬ site.dir ++ [n] <+: path :=
    fun n hprefix => hpath ((List.prefix_append _ _).trans hprefix)
  apply site.pruneOldJobs_frame
  · refine over_prune_frame site.nodup (fun _ _ _ => rfl) fun _ name _ _ _ _ _ => ?_
    exact ⟨hbelow name, fun id _ _ => hbelow id⟩
  · rintro rfl
    exact absurd List.prefix_rfl (hbelow markerName)

/-- A staging directory that no retired record names stays. -/
theorem pruneOldJobs_staging {id : List Char} (hdir : isDir site.disk (site.place id) = true)
    (h : ∀ name fields, site.Reached rt env maxAge name →
      Retired rt env maxAge site.dir site.disk name fields →
        fields.find "jobId" = some (.str id) → isJobId id = true → False)
    (hpath : site.place id <+: path) :
    (site.pruneOldJobs rt env maxAge).2 path = site.disk path := by
  have hframe : ∀ path, site.place id <+: path →
      (runPass (pruneRecord rt env maxAge site.dir) site.listed site.disk).2 path =
        site.disk path := by
    intro path hpath
    refine over_prune_frame site.nodup (fun _ _ _ => rfl)
      fun before name after fields hsplit hbefore hretired => ?_
    -- two entries above one path are the same entry
    have hsame : ∀ n, site.dir ++ [n] <+: path → n = id := by
      intro n hn
      have hlength : (site.dir ++ [n]).length = (site.place id).length := by simp [place]
      have heq := List.prefix_of_prefix_length_le hn hpath hlength.le
      exact entry_prefix_iff.mp heq
    refine ⟨fun hname => ?_, fun id' hid' hhex hprefix => ?_⟩
    · -- a directory is no record
      have hrecord := isDir_of_record hretired.2.2.2.1
      rw [hsame name hname] at hrecord
      exact absurd (hdir.symm.trans hrecord) (by decide)
    · obtain rfl := hsame id' hprefix
      exact h name fields ⟨before, after, hsplit, hbefore⟩ hretired hid' hhex
  apply site.pruneOldJobs_frame (hframe path hpath)
  rintro rfl
  obtain rfl : id = markerName := entry_prefix_iff.mp hpath
  rw [isDir, hframe _ hpath]
  exact hdir

/-- A staging directory that a retired record names goes. -/
theorem pruneOldJobs_gone {fields : Fields} {id : List Char} (hpruned : site.pruned env = true)
    (hreached : site.Reached rt env maxAge name)
    (hretired : Retired rt env maxAge site.dir site.disk name fields)
    (hid : fields.find "jobId" = some (.str id)) (hhex : isJobId id = true)
    (hkeeps : ∀ path, env.keeps path = false) :
    (site.pruneOldJobs rt env maxAge).2 (site.place id) = none := by
  obtain ⟨before, after, hlisted, hbefore⟩ := hreached
  have hgone : (runPass (pruneRecord rt env maxAge site.dir) site.listed site.disk).2
      (site.place id) = none := by
    rw [hlisted]
    exact over_prune_gone (hlisted ▸ site.nodup) hbefore hretired hid hhex hkeeps
  rw [pruneOldJobs, hpruned, if_pos rfl]
  split
  next heq => rwa [heq] at hgone
  next heq =>
    rw [heq] at hgone
    exact (touch_of_isJobId hhex _).trans hgone

end Site

/-- The retirement removes nothing but what is retired, whatever removals succeed, exactly when no
retired record that it comes to names the staging directory of a protected job. -/
theorem spares_iff (site : Site) (rt : Runtime) (env : Env) (maxAge : ℚ) :
    (∀ keeps, site.Spares rt { env with keeps := keeps } maxAge) ↔ site.NoClash rt env maxAge := by
  constructor
  · intro h hpruned name fields id hreached hretired hid hhex hdir hprotected
    have hkept := (h fun _ => false).2 id hdir hprotected (site.place id) List.prefix_rfl
    have hgone : (site.pruneOldJobs rt { env with keeps := fun _ => false } maxAge).2
        (site.place id) = none :=
      site.pruneOldJobs_gone hpruned hreached hretired hid hhex fun _ => rfl
    rw [isDir, ← hkept, hgone] at hdir
    exact absurd hdir (by decide)
  · intro h keeps
    refine ⟨fun path hpath => site.pruneOldJobs_outside hpath,
      fun id hdir hprotected path hpath => ?_⟩
    by_cases hpruned : site.pruned env = true
    · refine site.pruneOldJobs_staging hdir (fun name fields hreached hretired hid hhex => ?_) hpath
      exact h hpruned name fields id hreached hretired hid hhex hdir hprotected
    · have hskip : site.pruneOldJobs rt { env with keeps := keeps } maxAge =
          (some 0, site.disk) := if_neg hpruned
      rw [hskip]

/-- A job id. -/
def jobId : List Char := "0123456789abcdef0123456789abcdef".toList

/-- The text of a record of that job. -/
def recordText (status : String) : List Char :=
  "\x7b\"jobId\": \"0123456789abcdef0123456789abcdef\", \"status\": \"".toList ++
    status.toList ++ "\"\x7d".toList

/-- The record of that job. -/
def recordFields (status : String) : Fields :=
  [("jobId".toList, .str jobId), ("status".toList, .str status.toList)]

/-- A name that is no name of a state file. -/
def fillerName (n : ℕ) : Segment := List.replicate (n + 1) 'z'

/-- The entries of a job directory in which two state files name one staging directory: that of the
running job, and one of another name whose job has completed. -/
def clashNames : List Segment :=
  "x.json".toList :: (jobId ++ ".json".toList) :: jobId :: (List.range 1000).map fillerName

/-- What is at an entry of that directory. -/
def clashNode (name : Segment) : Node :=
  if name = "x.json".toList then .file (Utf8.encode (recordText "completed")) 0
  else if name = jobId ++ ".json".toList then .file (Utf8.encode (recordText "running")) 0
  else if name = jobId then .dir 0
  else .file [] 0

/-- That job directory. -/
def clashSite : Site where
  dir := ["jobs".toList]
  disk path := match path with
    | [_] => if path = ["jobs".toList] then some (.dir 0) else none
    | [dir, name] =>
      if dir = "jobs".toList ∧ name ∈ clashNames then some (clashNode name) else none
    | _ => none
  listed := clashNames
  nodup := by
    have hfiller : Function.Injective fillerName := by
      intro m n h
      have hlength := congrArg List.length h
      simpa [fillerName] using hlength
    have hne : ∀ name, name.head? ≠ some 'z' → name ∉ (List.range 1000).map fillerName := by
      intro name hhead hmem
      obtain ⟨n, -, rfl⟩ := List.mem_map.mp hmem
      exact hhead rfl
    refine List.nodup_cons.mpr ⟨?_, List.nodup_cons.mpr ⟨?_, List.nodup_cons.mpr ⟨?_, ?_⟩⟩⟩
    · rw [List.mem_cons, List.mem_cons]
      rintro (h | h | h)
      · exact absurd h (by decide)
      · exact absurd h (by decide)
      · exact hne _ (by decide) h
    · rw [List.mem_cons]
      rintro (h | h)
      · exact absurd h (by decide)
      · exact hne _ (by decide) h
    · exact hne _ (by decide)
    · exact List.nodup_range.map hfiller
  mem_listed name := by
    show name ∈ clashNames ↔ (if "jobs".toList = "jobs".toList ∧ name ∈ clashNames then
      some (clashNode name) else none) ≠ none
    by_cases hname : name ∈ clashNames
    · simp [hname]
    · simp [hname]

/-- The clock 30 days and 100 seconds after the files were written. -/
def monthLater : Env := { calm with now := 2592100 }

/-- What is read at a state file of that directory. -/
theorem readRecord_clashSite {status : String} (hbreak : '\r' ∉ recordText status)
    (hloads : rt.loads (recordText status) = .value (.obj (recordFields status)))
    (hopen : openBytes env clashSite.disk path = some (Utf8.encode (recordText status))) :
    readRecord rt env clashSite.disk path = .record (recordFields status) := by
  have hnewlines : newlines (recordText status) = recordText status := by
    rw [newlines, Text.replacePair_of_not_mem hbreak, Text.replaceChar_of_not_mem hbreak]
  rw [readRecord, hopen]
  simp only [Utf8.decode_encode, hnewlines, hloads]

/-- A completed record that names another, running job takes the staging directory of that job with
it, however Python reads JSON. -/
theorem not_spares_active : ¬ ∃ rt : Runtime,
    (∀ status ∈ ["running", "completed"],
      rt.loads (recordText status) = .value (.obj (recordFields status))) ∧
    ∀ (site : Site) (env : Env) (maxAge : ℚ), site.Spares rt env maxAge := by
  rintro ⟨rt, hloads, h⟩
  have hrunning : readRecord rt monthLater.open clashSite.disk
      (clashSite.place (jobId ++ ".json".toList)) = .record (recordFields "running") :=
    readRecord_clashSite (by decide) (hloads _ (by decide)) (by decide)
  have hcompleted : readRecord rt monthLater clashSite.disk
      (clashSite.dir ++ ["x.json".toList]) = .record (recordFields "completed") :=
    readRecord_clashSite (by decide) (hloads _ (by decide)) (by decide)
  have hretired : Retired rt monthLater 2592000 clashSite.dir clashSite.disk "x.json".toList
      (recordFields "completed") :=
    ⟨by decide, by decide, ⟨0, by decide, by decide +kernel⟩, hcompleted, by decide⟩
  have hkept := (h clashSite monthLater 2592000).2 jobId (by decide)
    (Or.inr ⟨_, hrunning, by decide⟩) (clashSite.place jobId) List.prefix_rfl
  have hgone := clashSite.pruneOldJobs_gone (by decide +kernel) ⟨[], _, rfl, by simp⟩ hretired
    rfl (by decide) fun _ => rfl
  rw [hgone] at hkept
  exact absurd hkept (by decide)

end Backtest.JobDir

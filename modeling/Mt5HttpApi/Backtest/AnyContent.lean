import Mt5HttpApi.Backtest.JobDir

/-!
# The startup passes over any content

Whatever the job directory has in it, the sweep and the retirement are to go through all of it, and
the sweep is to rewrite the recent orphaned records and nothing else. They do so exactly when every
state file that they come to is `Fit` for them (`survives_iff`): a file that is not UTF-8, JSON that
is not an object, and a status or a job id of another type end the pass.
-/

namespace Backtest.JobDir

open WindowsPath Json Passes

variable {rt : Runtime} {me : Identity} {env : Env} {dir : List Segment} {disk disk' : Disk}
  {name name' : Segment} {names : List Segment} {path : List Segment}

/-- The temporary file of a write is no state file. -/
theorem isJson_tmpName (name : Segment) : isJson (tmpName name) = false := by
  rw [isJson, Bool.eq_false_iff, Ne, List.isSuffixOf_iff_suffix]
  intro hsuffix
  have htmp : ".tmp".toList <:+ tmpName name := List.suffix_append name _
  exact absurd (List.suffix_of_suffix_length_le htmp hsuffix (by decide)) (by decide)

theorem tmpName_ne (h : isJson name = true) : name ≠ tmpName name' := by
  rintro rfl
  rw [isJson_tmpName] at h
  exact absurd h (by decide)

theorem tmpPath_ne : dir ++ [tmpName name] ≠ dir ++ [name] := by
  rw [Ne, entry_inj]
  intro heq
  have hlength := congrArg List.length heq
  simp [tmpName] at hlength

/-- The sweep is to rewrite the state file. -/
def due (rt : Runtime) (me : Identity) (env : Env) (dir : List Segment) (disk : Disk)
    (name : Segment) : Bool :=
  match readRecord rt env disk (dir ++ [name]) with
  | .record fields => orphaned rt me fields = some true
  | _ => false

/-- The sweep can go on after the state file, having done with it what it is to do: it can be read
or is passed over, it is an object, the status is no list and no object, and a record that is due
can be written, under a temporary name that nothing else has. -/
def Fit (rt : Runtime) (me : Identity) (env : Env) (dir : List Segment) (disk : Disk)
    (name : Segment) : Prop :=
  match readRecord rt env disk (dir ++ [name]) with
  | .unreadable => True
  | .raised => False
  | .record fields =>
    match orphaned rt me fields with
    | none => False
    | some false => True
    | some true =>
      disk (dir ++ [tmpName name]) = none ∧ env.writeFails (dir ++ [tmpName name]) = false ∧
        (∃ bytes, rt.dump (failedFields env fields) = .ok bytes) ∧
        env.replaceFails (dir ++ [name]) = false

/-- The state file is its record as failed. -/
def Rewritten (rt : Runtime) (env : Env) (dir : List Segment) (disk disk' : Disk)
    (name : Segment) : Prop :=
  ∃ fields bytes, readRecord rt env disk (dir ++ [name]) = .record fields ∧
    rt.dump (failedFields env fields) = .ok bytes ∧
    disk' (dir ++ [name]) = some (.file bytes env.now)

/-! ## One state file -/

/-- A write changes the state file and the temporary file. -/
theorem atomicWrite_frame {fields : Fields} (hpath : path ≠ dir ++ [name])
    (htmp : path ≠ dir ++ [tmpName name]) :
    (atomicWrite rt env dir disk name fields).2 path = disk path := by
  rw [atomicWrite]
  split
  · rfl
  · split
    · exact Function.update_of_ne htmp _ _
    · dsimp only
      split
      · exact Function.update_of_ne htmp _ _
      · exact (Function.update_of_ne htmp _ _).trans (Function.update_of_ne hpath _ _)

/-- The sweep of a state file does not change others. -/
theorem sweepRecord_frame (hpath : path ≠ dir ++ [name]) (htmp : path ≠ dir ++ [tmpName name]) :
    (sweepRecord rt me env dir disk name).2 path = disk path := by
  rw [sweepRecord]
  split
  · rfl
  · rfl
  · next fields _ =>
    split
    · rfl
    · rfl
    · have hframe : (atomicWrite rt env dir disk name (failedFields env fields)).2 path =
          disk path := atomicWrite_frame hpath htmp
      split
      all_goals
        next heq => rwa [heq] at hframe

/-- A state file that is not due is left. -/
theorem sweepRecord_of_not_due (hfit : Fit rt me env dir disk name)
    (hdue : due rt me env dir disk name = false) :
    sweepRecord rt me env dir disk name = (some 0, disk) := by
  rw [Fit] at hfit
  rw [due] at hdue
  rw [sweepRecord]
  cases hread : readRecord rt env disk (dir ++ [name]) with
  | unreadable => rfl
  | raised => simp [hread] at hfit
  | record fields =>
    simp only [hread] at hfit hdue ⊢
    cases horphaned : orphaned rt me fields with
    | none => simp [horphaned] at hfit
    | some b =>
      cases b with
      | false => rfl
      | true => simp [horphaned] at hdue

/-- A state file that is due, and fit for the sweep, is rewritten. -/
theorem sweepRecord_of_due (hfit : Fit rt me env dir disk name)
    (hdue : due rt me env dir disk name = true) :
    ∃ fields bytes, readRecord rt env disk (dir ++ [name]) = .record fields ∧
      rt.dump (failedFields env fields) = .ok bytes ∧ sweepRecord rt me env dir disk name =
        (some 1, Function.update disk (dir ++ [name]) (some (.file bytes env.now))) := by
  rw [Fit] at hfit
  rw [due] at hdue
  cases hread : readRecord rt env disk (dir ++ [name]) with
  | unreadable => simp [hread] at hdue
  | raised => simp [hread] at hdue
  | record fields =>
    simp only [hread, decide_eq_true_eq] at hfit hdue
    simp only [hdue] at hfit
    obtain ⟨htmp, hwrite, ⟨bytes, hdump⟩, hreplace⟩ := hfit
    refine ⟨fields, bytes, rfl, hdump, ?_⟩
    have hnode : written env disk (dir ++ [tmpName name]) bytes = .file bytes env.now := by
      simp [written, htmp]
    have hdir : isDir disk (dir ++ [tmpName name]) = false := by
      simp [isDir, htmp]
    have hwrote : atomicWrite rt env dir disk name (failedFields env fields) =
        (.done, Function.update disk (dir ++ [name]) (some (.file bytes env.now))) := by
      rw [atomicWrite, hwrite, hdir]
      simp only [Bool.or_self, Bool.false_eq_true, if_false, hdump, hreplace,
        isDir_of_record hread, hnode]
      -- there was nothing under the temporary name before
      congr 1
      refine Function.update_eq_self_iff.mpr ?_
      rw [Function.update_of_ne tmpPath_ne, htmp]
    rw [sweepRecord, hread]
    simp only [hdue, hwrote]

/-- A state file counts as swept only if it is due. -/
theorem swept_le_due {n : ℕ} (h : (sweepRecord rt me env dir disk name).1 = some n) :
    n ≤ if due rt me env dir disk name then 1 else 0 := by
  rw [sweepRecord] at h
  rw [due]
  cases hread : readRecord rt env disk (dir ++ [name]) with
  | unreadable => simp_all
  | raised => simp [hread] at h
  | record fields =>
    simp only [hread] at h ⊢
    split at h
    · simp at h
    · next hleft =>
      obtain rfl : 0 = n := by simpa using h
      exact Nat.zero_le _
    · next hdue =>
      have hle : n ≤ 1 := by
        split at h
        · exact (Option.some_inj.mp h).ge
        · exact (Option.some_inj.mp h).ge.trans (Nat.zero_le 1)
        · exact absurd h (by simp)
      simpa [hdue] using hle

/-- A state file that is not fit ends the pass, or is due and not rewritten, or it takes another
file with it. -/
theorem sweepRecord_of_not_fit (hfit : ¬ Fit rt me env dir disk name) :
    (sweepRecord rt me env dir disk name).1 = none ∨ due rt me env dir disk name = true ∧
      ((sweepRecord rt me env dir disk name).1 = some 0 ∨ disk (dir ++ [tmpName name]) ≠ none ∧
        (sweepRecord rt me env dir disk name).2 (dir ++ [tmpName name]) = none) := by
  rw [Fit] at hfit
  rw [due, sweepRecord]
  cases hread : readRecord rt env disk (dir ++ [name]) with
  | unreadable => simp [hread] at hfit
  | raised => exact Or.inl rfl
  | record fields =>
    simp only [hread] at hfit ⊢
    cases horphaned : orphaned rt me fields with
    | none => exact Or.inl rfl
    | some b =>
      cases b with
      | false => simp [horphaned] at hfit
      | true =>
        simp only [horphaned] at hfit ⊢
        by_cases hopen : (env.writeFails (dir ++ [tmpName name]) ||
            isDir disk (dir ++ [tmpName name])) = true
        · exact Or.inr ⟨by simp, Or.inl (by simp [atomicWrite, hopen])⟩
        cases hdump : rt.dump (failedFields env fields) with
        | error bytes => exact Or.inl (by simp [atomicWrite, hopen, hdump])
        | ok bytes =>
          by_cases hreplace : env.replaceFails (dir ++ [name]) = true
          · exact Or.inr ⟨by simp, Or.inl (by simp [atomicWrite, hopen, hdump, hreplace])⟩
          · refine Or.inr ⟨by simp, Or.inr ⟨fun htmp => hfit ?_, ?_⟩⟩
            · exact ⟨htmp, by simp_all, ⟨bytes, hdump⟩, by simpa using hreplace⟩
            · simp [atomicWrite, hopen, hdump, hreplace, isDir_of_record hread]

/-! ## One state file after the other -/

/-- The disk is as at the start where the sweep of the state files looks. -/
def Agrees (dir : List Segment) (names : List Segment) (start disk : Disk) : Prop :=
  ∀ name ∈ names, disk (dir ++ [name]) = start (dir ++ [name]) ∧
    disk (dir ++ [tmpName name]) = start (dir ++ [tmpName name])

/-- The sweep of a state file does not change what the sweep of the others looks at. -/
theorem Agrees.step {start : Disk} (h : Agrees dir (name :: names) start disk)
    (hnotMem : name ∉ names) (hjson : ∀ n ∈ name :: names, isJson n = true) :
    Agrees dir names start (sweepRecord rt me env dir disk name).2 := by
  intro other hother
  obtain ⟨hpath, htmp⟩ := h other (List.mem_cons_of_mem _ hother)
  have hne : other ≠ name := ne_of_mem_of_not_mem hother hnotMem
  have hothers := hjson other (List.mem_cons_of_mem _ hother)
  have hname := hjson name List.mem_cons_self
  constructor
  · rw [← hpath]
    exact sweepRecord_frame (mt entry_inj.mp hne) (mt entry_inj.mp (tmpName_ne hothers))
  · rw [← htmp]
    refine sweepRecord_frame (mt entry_inj.mp (tmpName_ne hname).symm) (mt entry_inj.mp ?_)
    exact fun heq => hne (List.append_cancel_right heq)

theorem due_congr (h : disk' (dir ++ [name]) = disk (dir ++ [name])) :
    due rt me env dir disk' name = due rt me env dir disk name := by
  rw [due, due, readRecord_congr h]

theorem fit_congr (h : disk' (dir ++ [name]) = disk (dir ++ [name]))
    (htmp : disk' (dir ++ [tmpName name]) = disk (dir ++ [tmpName name])) :
    Fit rt me env dir disk' name ↔ Fit rt me env dir disk name := by
  rw [Fit, Fit, readRecord_congr h, htmp]

/-- No more state files count as swept than are due. -/
theorem over_swept_le {start : Disk} {n : ℕ} (hnodup : names.Nodup)
    (hjson : ∀ n ∈ names, isJson n = true) (hagrees : Agrees dir names start disk)
    (h : (runPass (sweepRecord rt me env dir) names disk).1 = some n) :
    n ≤ names.countP fun name => due rt me env dir start name := by
  induction names generalizing disk n with
  | nil => simpa [runPass] using h.symm
  | cons name names ih =>
    obtain ⟨hnotMem, hnodup⟩ := List.nodup_cons.mp hnodup
    have hstep : Agrees dir names start (sweepRecord rt me env dir disk name).2 :=
      hagrees.step hnotMem hjson
    rcases heq : sweepRecord rt me env dir disk name with ⟨- | k, disk'⟩
    · rw [over_cons_of_none (by rw [heq])] at h
      exact absurd h (by simp)
    · rw [heq] at hstep
      rw [over_cons_of_some heq, Option.map_eq_some_iff] at h
      obtain ⟨m, hm, rfl⟩ := h
      have hrest := ih hnodup (fun n hn => hjson n (List.mem_cons_of_mem _ hn)) hstep hm
      have hfirst : k ≤ if due rt me env dir disk name then 1 else 0 :=
        swept_le_due (by rw [heq])
      rw [due_congr (hagrees name List.mem_cons_self).1] at hfirst
      rw [List.countP_cons]
      omega

/-- The sweep of the state files returns, counts and rewrites those that are due, and leaves
everything else as it was. -/
structure SweepsRight (rt : Runtime) (me : Identity) (env : Env) (dir : List Segment)
    (start : Disk) (names : List Segment) (disk : Disk) (result : Option ℕ × Disk) : Prop where
  swept : result.1 = some (names.countP fun name => due rt me env dir start name)
  rewritten : ∀ name ∈ names, due rt me env dir start name = true →
    Rewritten rt env dir start result.2 name
  left : ∀ path, (∀ name ∈ names, due rt me env dir start name = true → path ≠ dir ++ [name]) →
    result.2 path = disk path

/-- Only the state files and their temporary files are changed. -/
theorem over_sweep_frame (hpath : ∀ name ∈ names, path ≠ dir ++ [name])
    (htmp : ∀ name ∈ names, path ≠ dir ++ [tmpName name]) (disk : Disk) :
    (runPass (sweepRecord rt me env dir) names disk).2 path = disk path :=
  over_frame (fun d : Disk => d path)
    (fun name hname _ => sweepRecord_frame (hpath name hname) (htmp name hname)) disk

/-- A state file that is left, and the sweep of the others. -/
theorem sweepsRight_cons_of_left {start : Disk}
    (hstep : sweepRecord rt me env dir disk name = (some 0, disk))
    (hdue : due rt me env dir start name = false) :
    SweepsRight rt me env dir start (name :: names) disk
        (runPass (sweepRecord rt me env dir) (name :: names) disk) ↔
      SweepsRight rt me env dir start names disk
        (runPass (sweepRecord rt me env dir) names disk) := by
  rw [over_cons_of_some hstep]
  constructor
  · rintro ⟨hswept, hrewritten, hleft⟩
    refine ⟨?_, fun n hn => hrewritten n (List.mem_cons_of_mem _ hn), fun path hpath => ?_⟩
    · simpa [hdue] using hswept
    · refine hleft path fun n hn hdue' => ?_
      rcases List.mem_cons.mp hn with rfl | hn
      · exact absurd hdue' (by simp [hdue])
      · exact hpath n hn hdue'
  · rintro ⟨hswept, hrewritten, hleft⟩
    refine ⟨?_, fun n hn hdue' => ?_, fun path hpath => ?_⟩
    · simpa [hdue] using hswept
    · rcases List.mem_cons.mp hn with rfl | hn
      · exact absurd hdue' (by simp [hdue])
      · exact hrewritten n hn hdue'
    · exact hleft path fun n hn => hpath n (List.mem_cons_of_mem _ hn)

/-- A state file that is rewritten, and the sweep of the others. -/
theorem sweepsRight_cons_of_rewritten {start : Disk} {fields : Fields} {bytes : List UInt8}
    (hnotMem : name ∉ names) (hjson : ∀ n ∈ name :: names, isJson n = true)
    (hread : readRecord rt env start (dir ++ [name]) = .record fields)
    (hdump : rt.dump (failedFields env fields) = .ok bytes)
    (hdisk : disk' = Function.update disk (dir ++ [name]) (some (.file bytes env.now)))
    (hstep : sweepRecord rt me env dir disk name = (some 1, disk'))
    (hdue : due rt me env dir start name = true) :
    SweepsRight rt me env dir start (name :: names) disk
        (runPass (sweepRecord rt me env dir) (name :: names) disk) ↔
      SweepsRight rt me env dir start names disk'
        (runPass (sweepRecord rt me env dir) names disk') := by
  rw [over_cons_of_some hstep]
  -- the rest of the pass leaves this record as it was rewritten
  have hself : (runPass (sweepRecord rt me env dir) names disk').2 (dir ++ [name]) =
      some (.file bytes env.now) := by
    rw [over_sweep_frame, hdisk, Function.update_self]
    · exact fun n hn heq => hnotMem (entry_inj.mp heq ▸ hn)
    · exact fun n _ heq => tmpName_ne (hjson name List.mem_cons_self) (entry_inj.mp heq)
  constructor
  · rintro ⟨hswept, hrewritten, hleft⟩
    refine ⟨?_, fun n hn => hrewritten n (List.mem_cons_of_mem _ hn), fun path hpath => ?_⟩
    · obtain ⟨m, hm, hsum⟩ := Option.map_eq_some_iff.mp hswept
      rw [hm, Option.some_inj]
      simp only [List.countP_cons, hdue, if_true] at hsum
      omega
    · by_cases hname : path = dir ++ [name]
      · rw [hname, hdisk, Function.update_self]
        rwa [← hdisk]
      · rw [hdisk, Function.update_of_ne hname, ← hdisk]
        refine hleft path fun n hn hdue' => ?_
        rcases List.mem_cons.mp hn with rfl | hn
        · exact hname
        · exact hpath n hn hdue'
  · rintro ⟨hswept, hrewritten, hleft⟩
    refine ⟨?_, fun n hn hdue' => ?_, fun path hpath => ?_⟩
    · dsimp only
      rw [hswept, Option.map_some, Option.some_inj]
      simp only [List.countP_cons, hdue, if_true]
      omega
    · rcases List.mem_cons.mp hn with rfl | hn
      · exact ⟨fields, bytes, hread, hdump, hself⟩
      · exact hrewritten n hn hdue'
    · dsimp only
      rw [hleft path fun n hn => hpath n (List.mem_cons_of_mem _ hn), hdisk,
        Function.update_of_ne (hpath name List.mem_cons_self hdue)]

/-- A state file that is not fit lets the sweep go wrong. -/
theorem not_sweepsRight_of_not_fit {start : Disk} (hnodup : (name :: names).Nodup)
    (hjson : ∀ n ∈ name :: names, isJson n = true)
    (hagrees : Agrees dir (name :: names) start disk)
    (hfit : ¬ Fit rt me env dir start name) :
    ¬ SweepsRight rt me env dir start (name :: names) disk
        (runPass (sweepRecord rt me env dir) (name :: names) disk) := by
  obtain ⟨hnotMem, hnodup⟩ := List.nodup_cons.mp hnodup
  obtain ⟨hpath, htmp⟩ := hagrees name List.mem_cons_self
  have hnext : Agrees dir names start (sweepRecord rt me env dir disk name).2 :=
    hagrees.step hnotMem hjson
  rw [← fit_congr hpath htmp] at hfit
  rintro ⟨hswept, -, hleft⟩
  rcases sweepRecord_of_not_fit hfit with hnone | ⟨hdue, hzero | ⟨hsome, hgone⟩⟩
  · rw [over_cons_of_none hnone] at hswept
    exact absurd hswept (by simp)
  · -- the record is due, and the others cannot make up for it
    rw [due_congr hpath] at hdue
    rcases hstep : sweepRecord rt me env dir disk name with ⟨n, disk'⟩
    rw [hstep] at hzero hnext
    obtain rfl : n = some 0 := hzero
    rw [over_cons_of_some hstep] at hswept
    obtain ⟨m, hm, hsum⟩ := Option.map_eq_some_iff.mp hswept
    have hle := over_swept_le hnodup (fun n hn => hjson n (List.mem_cons_of_mem _ hn))
      hnext hm
    simp only [List.countP_cons, hdue, if_true] at hsum
    omega
  · -- what had the temporary name does not come back
    have hkept := hleft (dir ++ [tmpName name]) fun n hn _ heq =>
      tmpName_ne (hjson n hn) (entry_inj.mp heq).symm
    rw [over_cons_frame (fun d : Disk => d (dir ++ [tmpName name]))
      fun n hn d => sweepRecord_frame ?_ ?_, hgone] at hkept
    · exact hsome hkept.symm
    · exact fun heq => tmpName_ne (hjson n (List.mem_cons_of_mem _ hn)) (entry_inj.mp heq).symm
    · intro heq
      obtain rfl := List.append_cancel_right (entry_inj.mp heq)
      exact hnotMem hn

/-- The sweep goes right over the state files exactly when each is fit for it. -/
theorem sweepsRight_iff {start : Disk} (hnodup : names.Nodup)
    (hjson : ∀ n ∈ names, isJson n = true) (hagrees : Agrees dir names start disk) :
    SweepsRight rt me env dir start names disk
        (runPass (sweepRecord rt me env dir) names disk) ↔
      ∀ name ∈ names, Fit rt me env dir start name := by
  induction names generalizing disk with
  | nil => exact ⟨fun _ => by simp, fun _ => ⟨rfl, by simp, fun _ _ => rfl⟩⟩
  | cons name names ih =>
    have hnames := (List.nodup_cons.mp hnodup)
    obtain ⟨hpath, htmp⟩ := hagrees name List.mem_cons_self
    have hnext : Agrees dir names start (sweepRecord rt me env dir disk name).2 :=
      hagrees.step hnames.1 hjson
    rw [List.forall_mem_cons]
    by_cases hfit : Fit rt me env dir start name
    · rw [and_iff_right hfit]
      rw [← fit_congr hpath htmp] at hfit
      cases hdue : due rt me env dir disk name with
      | false =>
        have hstep := sweepRecord_of_not_due hfit hdue
        rw [due_congr hpath] at hdue
        rw [hstep] at hnext
        rw [sweepsRight_cons_of_left hstep hdue]
        exact ih hnames.2 (fun n hn => hjson n (List.mem_cons_of_mem _ hn)) hnext
      | true =>
        obtain ⟨fields, bytes, hread, hdump, hstep⟩ := sweepRecord_of_due hfit hdue
        rw [due_congr hpath] at hdue
        rw [readRecord_congr hpath] at hread
        rw [hstep] at hnext
        rw [sweepsRight_cons_of_rewritten hnames.1 hjson hread hdump rfl hstep hdue]
        exact ih hnames.2 (fun n hn => hjson n (List.mem_cons_of_mem _ hn)) hnext
    · refine iff_of_false ?_ fun h => hfit h.1
      exact not_sweepsRight_of_not_fit hnodup hjson hagrees hfit

/-! ## The retirement -/

/-- The retirement can go on after the entry: it is no old state file, or it can be read or is
passed over, is an object, has a status that is no list and no object, and, if it is retired, a job
id that is a text or counts as none. -/
def Prunable (rt : Runtime) (env : Env) (maxAge : ℚ) (dir : List Segment) (disk : Disk)
    (name : Segment) : Prop :=
  isJson name = true → (mtime? env disk (dir ++ [name])).any (· < env.now - maxAge) = true →
    match readRecord rt env disk (dir ++ [name]) with
    | .unreadable => True
    | .raised => False
    | .record fields =>
      isActive fields ≠ none ∧ (isActive fields = some false →
        ∀ value, fields.find "jobId" = some value → truthy value = true → value.text?.isSome)

/-- The job id of a record can be looked at. -/
theorem targets_isSome_iff {jobId : Option Value} : (targets dir name jobId).isSome ↔
    ∀ value, jobId = some value → truthy value = true → value.text?.isSome := by
  unfold targets
  dsimp only
  split
  · simp
  · next text =>
    have htext : (Value.str text).text?.isSome := rfl
    simp only [Option.some.injEq, forall_eq', htext, implies_true, iff_true]
    split <;> rfl
  · next value hne =>
    have hother : value.text? = none := by
      cases value <;> first | rfl | exact absurd rfl (hne _)
    simp [hother]

/-- A file is older than the cutoff, or it is missing or younger. -/
theorem any_lt_eq (mtime : Option ℚ) (cutoff : ℚ) : mtime.any (· < cutoff) =
    !mtime.all fun m => decide (cutoff ≤ m) := by
  cases mtime with
  | none => rfl
  | some m =>
    rw [Bool.eq_iff_iff]
    simp only [Option.any_some, Option.all_some, decide_eq_true_eq, Bool.not_eq_true',
      decide_eq_false_iff_not, Rat.not_le]

theorem pruneRecord_isSome_iff {maxAge : ℚ} :
    (pruneRecord rt env maxAge dir disk name).1.isSome ↔ Prunable rt env maxAge dir disk name := by
  have hmarker : isJson markerName = false := by decide
  rw [pruneRecord, Prunable]
  split
  · next hskip =>
    simp only [Bool.or_eq_true, decide_eq_true_eq, Bool.not_eq_true'] at hskip
    have hjson : isJson name = false := hskip.elim (fun h => h ▸ hmarker) id
    simp [hjson]
  · next hjson =>
    simp only [Bool.or_eq_true, decide_eq_true_eq, Bool.not_eq_true', not_or,
      Bool.not_eq_false] at hjson
    rw [hjson.2]
    split
    · next hyoung =>
      rw [any_lt_eq, hyoung]
      simp
    · next hold =>
      have hany : (mtime? env disk (dir ++ [name])).any (· < env.now - maxAge) = true := by
        simpa [any_lt_eq] using hold
      simp only [hany, forall_const]
      cases hread : readRecord rt env disk (dir ++ [name]) with
      | unreadable => simp
      | raised => simp
      | record fields =>
        dsimp only
        rw [← targets_isSome_iff]
        split
        · next hnone => simp [hnone]
        · next hactive => simp [hactive]
        · next hinactive =>
          simp only [hinactive]
          cases targets dir name (fields.find "jobId") <;> simp

/-- The retirement of an entry does not change other state files. -/
theorem pruneRecord_other {maxAge : ℚ} {other : Segment} (hne : name ≠ other)
    (hjson : isJson other = true) :
    (pruneRecord rt env maxAge dir disk name).2 (dir ++ [other]) = disk (dir ++ [other]) := by
  refine pruneRecord_frame fun fields _ => ⟨mt entry_prefix_iff.mp hne, ?_⟩
  intro id _ hid hprefix
  rw [← entry_prefix_iff.mp hprefix, isJson_of_isJobId hid] at hjson
  exact absurd hjson (by decide)

/-- The readings of state files stay as they are at the start. -/
def Reads (start : Disk) (dir : List Segment) (names : List Segment) (disk : Disk) : Prop :=
  ∀ n ∈ names, isJson n = true → disk (dir ++ [n]) = start (dir ++ [n])

theorem prunable_congr {maxAge : ℚ} {start : Disk}
    (h : isJson name = true → disk (dir ++ [name]) = start (dir ++ [name])) :
    Prunable rt env maxAge dir disk name ↔ Prunable rt env maxAge dir start name := by
  unfold Prunable
  refine forall_congr' fun hjson => ?_
  rw [readRecord_congr (h hjson), mtime?_congr (h hjson)]

theorem Reads.step {maxAge : ℚ} {start : Disk} (h : Reads start dir (name :: names) disk)
    (hnotMem : name ∉ names) :
    Reads start dir names (pruneRecord rt env maxAge dir disk name).2 := by
  intro n hn hjson
  rw [pruneRecord_other (ne_of_mem_of_not_mem hn hnotMem).symm hjson]
  exact h n (List.mem_cons_of_mem _ hn) hjson

/-- The retirement returns exactly when it can go on after each entry. -/
theorem over_prune_isSome_iff {maxAge : ℚ} {start : Disk} (hnodup : names.Nodup)
    (hreads : Reads start dir names disk) :
    (runPass (pruneRecord rt env maxAge dir) names disk).1.isSome ↔
      ∀ name ∈ names, Prunable rt env maxAge dir start name := by
  induction names generalizing disk with
  | nil => simp [runPass]
  | cons name names ih =>
    obtain ⟨hnotMem, hnodup⟩ := List.nodup_cons.mp hnodup
    have hnext : Reads start dir names (pruneRecord rt env maxAge dir disk name).2 :=
      hreads.step hnotMem
    rw [List.forall_mem_cons, ← prunable_congr (hreads name List.mem_cons_self),
      ← pruneRecord_isSome_iff]
    rcases hstep : pruneRecord rt env maxAge dir disk name with ⟨- | k, disk'⟩
    · rw [over_cons_of_none (by rw [hstep])]
      simp
    · rw [hstep] at hnext
      rw [over_cons_of_some hstep, Option.isSome_map, ih hnodup hnext]
      simp

/-! ## Both passes -/

namespace Site

variable (site : Site)

/-- The sweep returns, rewrites exactly the recent records that are due, and leaves everything else
as it was, and the retirement returns. -/
def Survives (rt : Runtime) (me : Identity) (env env' : Env) (lookback maxAge : ℚ) : Prop :=
  SweepsRight rt me env site.dir site.disk (site.recent env lookback) site.disk
      (site.sweepOrphans rt me env lookback) ∧
    (site.pruneOldJobs rt env' maxAge).1.isSome

theorem nodup_recent (env : Env) (lookback : ℚ) : (site.recent env lookback).Nodup := by
  rw [recent]
  split
  · exact List.nodup_nil
  · exact (List.perm_insertionSort _ _).nodup_iff.mpr (site.nodup.filter _)

theorem isJson_of_mem_recent {env : Env} {lookback : ℚ} {name : Segment}
    (h : name ∈ site.recent env lookback) : isJson name = true := by
  rw [recent] at h
  split at h
  · cases h
  · rw [List.mem_insertionSort, List.mem_filter, Bool.and_eq_true] at h
    exact h.2.1

theorem sweepOrphans_right_iff {rt : Runtime} {me : Identity} {env : Env} {lookback : ℚ} :
    SweepsRight rt me env site.dir site.disk (site.recent env lookback) site.disk
        (site.sweepOrphans rt me env lookback) ↔
      ∀ name ∈ site.recent env lookback, Fit rt me env site.dir site.disk name :=
  sweepsRight_iff (site.nodup_recent env lookback) (fun _ => site.isJson_of_mem_recent)
    fun _ _ => ⟨rfl, rfl⟩

theorem pruneOldJobs_isSome_iff {rt : Runtime} {env : Env} {maxAge : ℚ} :
    (site.pruneOldJobs rt env maxAge).1.isSome ↔
      (site.pruned env = true → ∀ name ∈ site.listed,
        Prunable rt env maxAge site.dir site.disk name) := by
  rw [pruneOldJobs]
  split
  · next hpruned =>
    rw [← over_prune_isSome_iff site.nodup fun _ _ _ => rfl, hpruned]
    split
    next heq => simp [heq]
    next heq => simp [heq]
  · next hpruned => simp [hpruned]

end Site

/-- The passes survive the content of the directory exactly when every recent state file is fit for
the sweep and, if the directory is scanned, every entry for the retirement. -/
theorem survives_iff (site : Site) (rt : Runtime) (me : Identity) (env env' : Env)
    (lookback maxAge : ℚ) : site.Survives rt me env env' lookback maxAge ↔
      (∀ name ∈ site.recent env lookback, Fit rt me env site.dir site.disk name) ∧
        (site.pruned env' = true →
          ∀ name ∈ site.listed, Prunable rt env' maxAge site.dir site.disk name) := by
  rw [Site.Survives, Site.pruneOldJobs_isSome_iff, Site.sweepOrphans_right_iff]

/-- A clock at 200 seconds, and nothing that fails. -/
def calm : Env where
  now := 200
  nowIso := "1970-01-01T00:03:20Z".toList
  listFails := false
  statFails _ := false
  openFails _ := false
  writeFails _ := false
  replaceFails _ := false
  keeps _ := false

/-- A job directory with one state file, of the given bytes. -/
def oneFile (bytes : List UInt8) : Site where
  dir := ["jobs".toList]
  disk path :=
    if path = ["jobs".toList] then some (.dir 100)
    else if path = ["jobs".toList, "a.json".toList] then some (.file bytes 100)
    else none
  listed := ["a.json".toList]
  nodup := List.nodup_singleton _
  mem_listed name := by
    have hne : ["jobs".toList] ++ [name] ≠ ["jobs".toList] := by simp
    rw [List.mem_singleton, if_neg hne]
    by_cases hname : name = "a.json".toList
    · simp [hname]
    · simp

/-- A recent state file that is not UTF-8 ends the sweep, however Python reads JSON. -/
theorem not_survives : ¬ ∃ (rt : Runtime) (me : Identity),
    ∀ site : Site, site.Survives rt me calm calm 86400 2592000 := by
  rintro ⟨rt, me, h⟩
  have hfit := (oneFile [0xFF]).sweepOrphans_right_iff.mp (h _).1 "a.json".toList
    (by decide +kernel)
  have hraised : readRecord rt calm (oneFile [0xFF]).disk ["jobs".toList, "a.json".toList] =
      .raised := by
    have hopen : openBytes calm (oneFile [0xFF]).disk ["jobs".toList, "a.json".toList] =
        some [0xFF] := by decide
    rw [readRecord, hopen]
    simp only [Utf8.decode_eq_none (List.mem_singleton.mpr rfl)]
  have hread : readRecord rt calm (oneFile [0xFF]).disk ((oneFile [0xFF]).dir ++
      ["a.json".toList]) = .raised := hraised
  simp only [Fit, hread] at hfit

end Backtest.JobDir

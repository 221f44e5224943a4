import Mt5HttpApi.FileApi.Disk
import Mt5HttpApi.Lib.Effects

/-!
# The operations of the file API

`mt5api/fileapi/ops.py`: reading a file, writing one, unpacking an archive and deleting, as
computations on the disk that may fail midway. A staging file or directory is gone at the end of the
call and is not in the model. What another process holds open cannot be read, replaced or removed.

`writeFile_keeps`, `extractZip_keeps` and `delete_leads` say which changes of the disk each of them
is made of: an invariant that these changes keep is kept by the operation.
-/

namespace FileApi

open Text Effects

/-- The kind of an entry as it is reported. -/
inductive EntryKind
  | file
  | dir
  deriving DecidableEq, Repr

/-- What the operations meet. -/
structure Env where
  /-- Another process holds the entry. -/
  inUse : Path → Bool
  /-- What a removal leaves that fails midway. -/
  left : List Path
  /-- `os.listdir`. -/
  listed : Path → List Name
  /-- The digest of a content, in hexadecimal. -/
  sha256 : List UInt8 → String

/-- A computation on the disk. -/
abbrev Op (root : Path) := ExceptT FileError (StateM (Disk root))

section Primitives

variable {root : Path}

/-- `os.mkdir` as `os.makedirs` uses it, for the path of a directory with the text `rel`. -/
def makeDir (rel : String) (segments : List Name) : Op root Unit := do
  let d ← get
  if d.isDir segments then pure ()
  else match segments.getLast? with
    | none => pure ()
    | some name =>
      let parent := d.realpath segments.dropLast
      if h : d.node parent = some .dir ∧ d.node (d.child parent name) = none then
        set (d.put parent (d.stored parent name) .dir h.1 (fun _ => rfl) Node.dir_ne_link)
      else throw (.conflict s!"a file sits where {rel} needs a directory")

/-- `_make_dirs`: the directories above a directory, then itself. -/
def makeDirs (segments : List Name) : Op root Unit :=
  segments.inits.forM (makeDir (String.ofList (relText segments)))

/-- `_replace`: the staged bytes take the place of what was there, unless that is a directory. -/
def replace (env : Env) (path : Resolved) (data : List UInt8) : Op root Unit := do
  let d ← get
  match path.segments.getLast? with
  | none => throw (.locked "the root is in use and cannot be replaced")
  | some name =>
    let parent := d.realpath path.segments.dropLast
    if h : d.node parent = some .dir ∧ d.node (d.child parent name) ≠ some .dir ∧
        env.inUse (d.child parent name) = false then
      set (d.put parent (d.stored parent name) (.file data) h.1 (fun hdir => absurd hdir h.2.1)
        (Node.file_ne_link data))
    else throw (.locked s!"{String.ofList path.rel} is in use and cannot be replaced")

/-- `os.remove`, of an entry that is not a directory. -/
def remove (env : Env) (path : Resolved) : Op root Unit := do
  let d ← get
  match path.segments.getLast? with
  | none => throw (.locked "the root is in use and cannot be deleted")
  | some name =>
    let entry := d.child (d.realpath path.segments.dropLast) name
    if h : d.node entry ≠ some .dir ∧ env.inUse entry = false then
      set (d.erase (· = entry) (fun hroot => h.1 (hroot ▸ d.root_dir)) fun p n hp hn =>
        absurd (hp ▸ d.parent_dir p n hn) h.1)
    else throw (.locked s!"{String.ofList path.rel} is in use and cannot be deleted")

/-- `shutil.rmtree`. It refuses a link, and does not follow the links that it removes. -/
def rmtree (env : Env) (path : Resolved) : Op root Unit := do
  let d ← get
  match path.segments.getLast? with
  | none => throw (.locked "the root is in use and cannot be deleted")
  | some name =>
    let entry := d.child (d.realpath path.segments.dropLast) name
    if d.node entry = some .dir then
      set (d.erase (fun p => entry <+: p ∧ ∀ q ∈ env.left, ¬ p <+: q)
        (fun hroot => Disk.child_not_prefix_root hroot.1) fun p n hp _ =>
          ⟨hp.1.trans (List.prefix_append p [n]), fun q hq hleft =>
            hp.2 q hq ((List.prefix_append p [n]).trans hleft)⟩)
      if ∃ q ∈ env.left, entry <+: q then
        throw (.locked s!"{String.ofList path.rel} is in use and cannot be deleted")
    else throw (.osError "Cannot call rmtree on a symbolic link")

end Primitives

/-! ## Operations -/

section Operations

variable (fold : CaseFold) (tree : Tree) (env : Env)

/-- `Tree.resolve`. -/
def resolve (raw : List Char) : Op tree.root Resolved := do
  let segments ← MonadExcept.ofExcept (pathSegments raw)
  let d ← get
  if tree.root <+: d.realpath segments then pure ⟨segments⟩
  else throw (.invalidPath raw s!"resolves outside the {tree.name} tree")

/-- A path as messages show it. -/
def shown (path : Resolved) : String :=
  if path.rel = [] then "/" else String.ofList path.rel

/-- `kind`. -/
def kind (raw : List Char) : Op tree.root (Resolved × EntryKind) := do
  let path ← resolve tree raw
  MonadExcept.ofExcept (tree.checkReadable fold path)
  let d ← get
  if d.isDir path.segments then pure (path, .dir)
  else if d.isFile path.segments then pure (path, .file)
  else throw (.notFound s!"{shown path} does not exist")

/-- `open_readable`, and what the caller reads. -/
def openReadable (path : Resolved) : Op tree.root (List UInt8) := do
  MonadExcept.ofExcept (tree.checkReadable fold path)
  let d ← get
  match d.fileAt (d.realpath path.segments) with
  | none => throw (.notFound s!"{String.ofList path.rel} does not exist")
  | some bytes =>
    if env.inUse (d.realpath path.segments) then
      throw (.locked s!"{String.ofList path.rel} is in use and cannot be read")
    else pure bytes

/-- A download: `kind`, then `open_readable` unless it is a directory. -/
def read (raw : List Char) : Op tree.root (Option (List UInt8)) := do
  let (path, entryKind) ← kind fold tree raw
  match entryKind with
  | .dir => pure none
  | .file => do
    let bytes ← openReadable fold tree env path
    pure (some bytes)

/-- A file that was written. -/
structure Written where
  path : List Char
  size : Nat
  sha256 : String
  deriving DecidableEq, Repr

/-- `write_file`; the flag says that the file is new. -/
def writeFile (raw : List Char) (data : List UInt8) : Op tree.root (Written × Bool) := do
  let path ← resolve tree raw
  MonadExcept.ofExcept (tree.checkWritable fold path)
  let d ← get
  if d.isDir path.segments then
    throw (.conflict s!"{String.ofList path.rel} is a directory")
  else do
    makeDirs path.segments.dropLast
    replace env path data
    pure (⟨path.rel, data.length, env.sha256 data⟩, !decide (d.exists_ path.segments))

/-- An entry of an archive: its directory record, the bytes it inflates to, and whether it cannot be
unpacked beyond them. -/
structure ZipInfo where
  filename : List Char
  flagBits : Nat
  externalAttr : Nat
  fileSize : Nat
  data : List UInt8
  corrupt : Bool
  deriving DecidableEq, Repr

/-- The bit of an encrypted entry. -/
def ZipInfo.encrypted (info : ZipInfo) : Bool := info.flagBits.testBit 0

/-- `stat.S_ISLNK` of the entry's mode. -/
def ZipInfo.isSymlink (info : ZipInfo) : Bool :=
  (info.externalAttr >>> 16) &&& 0o170000 == 0o120000

/-- `ZipInfo.is_dir`. -/
def ZipInfo.isDir (info : ZipInfo) : Bool := info.filename.getLast? == some '/'

/-- `_join(target.rel, info.filename)`, with slashes. -/
def entryRaw (target : List Char) (info : ZipInfo) : List Char :=
  let filename := replaceChar '\\' '/' info.filename
  if target = [] then filename else target ++ '/' :: filename

/-- What is to be unpacked: the files, and the directories of the archive. -/
structure Plan where
  files : List (ZipInfo × Resolved)
  dirs : List Resolved

/-- The checks of `_plan_extract` on one entry. -/
def checkEntry (target : Resolved) (info : ZipInfo) : Op tree.root Resolved :=
  if info.encrypted then throw (.badArchive s!"{String.ofList info.filename} is encrypted")
  else if info.isSymlink then throw (.badArchive s!"{String.ofList info.filename} is a symlink")
  else do
    let path ← resolve tree (entryRaw target.rel info)
    MonadExcept.ofExcept (tree.checkWritable fold path)
    pure path

/-- `_plan_extract`. -/
def planExtract (target : Resolved) (maxFiles : Nat) : List ZipInfo → Plan → Op tree.root Plan
  | [], plan => pure plan
  | info :: infos, plan => do
    let path ← checkEntry fold tree target info
    if info.isDir then
      planExtract target maxFiles infos { plan with dirs := plan.dirs ++ [path] }
    else if plan.files.any fun file => file.2.key fold == path.key fold then
      throw (.badArchive s!"{String.ofList info.filename} appears twice in the archive")
    else if maxFiles < plan.files.length + 1 then
      throw (.archiveTooLarge
        s!"archive holds more than {maxFiles} files (files.max_extract_files)")
    else planExtract target maxFiles infos { plan with files := plan.files ++ [(info, path)] }

/-- `_unpack`, after `total` bytes. -/
def unpack (maxBytes : Nat) :
    List (ZipInfo × Resolved) → Nat → Except FileError (List Written)
  | [], _ => .ok []
  | (info, path) :: rest, total =>
    if maxBytes < total + info.data.length then
      .error (.archiveTooLarge
        s!"archive unpacks to more than {maxBytes} bytes (files.max_extract_bytes)")
    else if info.corrupt then
      .error (.badArchive s!"{String.ofList info.filename} cannot be unpacked")
    else do
      let written ← unpack maxBytes rest (total + info.data.length)
      pure (⟨path.rel, info.data.length, env.sha256 info.data⟩ :: written)

/-- One planned file takes its place. -/
def placeFile (info : ZipInfo) (path : Resolved) : Op tree.root Unit := do
  makeDirs path.segments.dropLast
  let d ← get
  if d.isDir path.segments then
    throw (.conflict s!"{String.ofList path.rel} is a directory in the target")
  else replace env path info.data

/-- The planned directories and files take their places. -/
def placePlan (target : Resolved) (plan : Plan) (maxBytes : Nat) :
    Op tree.root (List Written) := do
  makeDirs target.segments
  let written ← MonadExcept.ofExcept (unpack env maxBytes plan.files 0)
  plan.dirs.forM fun path => makeDirs path.segments
  plan.files.forM fun file => placeFile tree env file.1 file.2
  pure written

/-- `extract_zip`; `archive` is `none` for a body that is no zip archive. -/
def extractZip (raw : List Char) (archive : Option (List ZipInfo)) (maxBytes maxFiles : Nat) :
    Op tree.root (List Written) := do
  let target ← resolve tree raw
  MonadExcept.ofExcept (tree.checkWritable fold target)
  let d ← get
  if d.isFile target.segments then
    throw (.conflict s!"{String.ofList target.rel} is a file; ?extract needs a directory")
  else match archive with
    | none => throw (.badArchive "the body is not a zip archive")
    | some infos => do
      let plan ← planExtract fold tree target maxFiles infos ⟨[], []⟩
      let declared := (plan.files.map fun file => file.1.fileSize).foldl (· + ·) 0
      if maxBytes < declared then
        throw (.archiveTooLarge
          s!"archive unpacks to {declared} bytes; the cap is {maxBytes} (files.max_extract_bytes)")
      else placePlan tree env target plan maxBytes

/-- `delete`. -/
def delete (raw : List Char) (recursive : Bool) : Op tree.root EntryKind := do
  let checked ← resolve tree raw
  MonadExcept.ofExcept (tree.checkWritable fold checked)
  let (path, entryKind) ← kind fold tree raw
  match entryKind with
  | .file => do
    remove env path
    pure .file
  | .dir => do
    MonadExcept.ofExcept (tree.checkDeletableDir fold path)
    let d ← get
    if env.listed (d.realpath path.segments) ≠ [] ∧ !recursive then
      throw (.conflict (String.ofList path.rel ++
        " is not empty; pass recursive to delete it with its contents"))
    else do
      rmtree env path
      pure .dir

end Operations

/-! ## What they keep -/

section Keeping

variable {root : Path} {I : Disk root → Prop} {env : Env} {rel : String} {segments : List Name}
  {path : Resolved} {data : List UInt8}

/-- An invariant that is kept when a directory is made for one of the names, where nothing was. -/
def KeptByDirs (I : Disk root → Prop) (segments : List Name) : Prop :=
  ∀ d : Disk root, I d → ∀ pre n more hp hdir hlink, segments = pre ++ n :: more →
    d.node (d.child (d.realpath pre) n) = none →
      I (d.put (d.realpath pre) (d.stored (d.realpath pre) n) .dir hp hdir hlink)

/-- An invariant that is kept when a file is put in the place of the last name, where no directory
was. -/
def KeptByFile (env : Env) (data : List UInt8) (I : Disk root → Prop) (segments : List Name) :
    Prop :=
  ∀ d : Disk root, I d → ∀ pre n hp hdir hlink, segments = pre ++ [n] →
    d.node (d.child (d.realpath pre) n) ≠ some .dir →
    env.inUse (d.child (d.realpath pre) n) = false →
      I (d.put (d.realpath pre) (d.stored (d.realpath pre) n) (.file data) hp hdir hlink)

theorem makeDir_keeps {pre : List Name} (hpre : pre <+: segments) (h : KeptByDirs I segments) :
    Keeps I (makeDir rel pre) := by
  obtain ⟨more, rfl⟩ := hpre
  refine Keeps.bind Keeps.get fun d hd => ?_
  have hI := hd.of_get
  split
  · exact Keeps.pure _
  · split
    · exact Keeps.pure _
    next name hlast =>
      dsimp only
      split
      next hnone =>
        obtain ⟨pre, rfl⟩ := List.getLast?_eq_some_iff.mp hlast
        rw [List.dropLast_concat] at hnone
        simp only [List.dropLast_concat]
        exact Leads.set (h d hI pre name more _ _ _ (by simp) hnone.2)
      next => exact Keeps.throw _

theorem makeDirs_keeps {pre : List Name} (hpre : pre <+: segments) (h : KeptByDirs I segments) :
    Keeps I (makeDirs pre) :=
  Keeps.forM fun _ hshort => makeDir_keeps (((List.mem_inits _ _).mp hshort).trans hpre) h

theorem replace_keeps (h : KeptByFile env data I path.segments) :
    Keeps I (replace env path data) := by
  refine Keeps.bind Keeps.get fun d hd => ?_
  have hI := hd.of_get
  split
  · exact Keeps.throw _
  next name hlast =>
    dsimp only
    split
    next hfree =>
      obtain ⟨pre, hpath⟩ := List.getLast?_eq_some_iff.mp hlast
      simp only [hpath, List.dropLast_concat] at hfree ⊢
      exact Leads.set (h d hI pre name _ _ _ hpath hfree.2.1 hfree.2.2)
    next => exact Keeps.throw _

/-- What holds when the entry of a path has been removed that is no directory. -/
def RemoveLeads (env : Env) (P Q : Disk root → Prop) (segments : List Name) : Prop :=
  ∀ d : Disk root, P d → ∀ pre n hroot hdown, segments = pre ++ [n] →
    d.node (d.child (d.realpath pre) n) ≠ some .dir →
    env.inUse (d.child (d.realpath pre) n) = false →
      Q (d.erase (· = d.child (d.realpath pre) n) hroot hdown)

/-- What holds when entries of a directory have been removed, and it itself. -/
def RmtreeLeads (env : Env) (P Q : Disk root → Prop) (segments : List Name) : Prop :=
  ∀ d : Disk root, P d → ∀ pre n hroot hdown, segments = pre ++ [n] →
    d.node (d.child (d.realpath pre) n) = some .dir →
      Q (d.erase (fun p => d.child (d.realpath pre) n <+: p ∧ ∀ q ∈ env.left, ¬ p <+: q)
        hroot hdown)

theorem remove_leads {P Q : Disk root → Prop} (hPQ : ∀ d, P d → Q d)
    (h : RemoveLeads env P Q path.segments) : Leads P Q (remove env path) := by
  refine Leads.after hPQ Keeps.get fun d hd => ?_
  have hP := hd.of_get
  split
  · exact (Keeps.throw _).leads hPQ
  next name hlast =>
    dsimp only
    split
    next hfree =>
      obtain ⟨pre, hpath⟩ := List.getLast?_eq_some_iff.mp hlast
      simp only [hpath, List.dropLast_concat] at hfree ⊢
      exact Leads.set (h d hP pre name _ _ hpath hfree.1 hfree.2)
    next => exact (Keeps.throw _).leads hPQ

theorem rmtree_leads {P Q : Disk root → Prop} (hPQ : ∀ d, P d → Q d)
    (h : RmtreeLeads env P Q path.segments) : Leads P Q (rmtree env path) := by
  refine Leads.after hPQ Keeps.get fun d hd => ?_
  have hP := hd.of_get
  split
  · exact (Keeps.throw _).leads hPQ
  next name hlast =>
    dsimp only
    split
    next hdir =>
      obtain ⟨pre, hpath⟩ := List.getLast?_eq_some_iff.mp hlast
      simp only [hpath, List.dropLast_concat] at hdir ⊢
      refine Leads.before (Leads.set (h d hP pre name _ _ hpath hdir)) fun _ => ?_
      split
      · exact Keeps.throw _
      · exact Keeps.pure _
    next => exact (Keeps.throw _).leads hPQ

end Keeping

section Keeping

variable {fold : CaseFold} {tree : Tree} {env : Env} {I : Disk tree.root → Prop}
  {raw : List Char} {path : Resolved}

theorem resolve_keeps : Keeps I (resolve tree raw) := by
  refine Keeps.bind (Keeps.ofExcept _) fun segments _ => Keeps.bind Keeps.get fun d _ => ?_
  split
  · exact Keeps.pure _
  · exact Keeps.throw _

/-- A resolved path has the segments of the text. -/
theorem segments_of_resolve (h : Returns I (resolve tree raw) path) :
    pathSegments raw = .ok path.segments := by
  obtain ⟨segments, hsegments, h⟩ := h.of_bind (Keeps.ofExcept _)
  obtain ⟨d, -, h⟩ := h.of_bind Keeps.get
  split at h
  · obtain rfl := h.of_pure
    exact hsegments.of_ofExcept
  · exact absurd h Returns.not_throw

/-- A path that a caller's text stands for and that may be written. -/
def Writable (fold : CaseFold) (tree : Tree) (raw : List Char) (segments : List Name) : Prop :=
  pathSegments raw = .ok segments ∧ tree.checkWritable fold ⟨segments⟩ = .ok ()

/-- Writing a file makes directories for its names and puts the file in the place of the last. -/
theorem writeFile_keeps {data : List UInt8}
    (h : ∀ segments, Writable fold tree raw segments →
      KeptByDirs I segments ∧ KeptByFile env data I segments) :
    Keeps I (writeFile fold tree env raw data) := by
  refine Keeps.bind resolve_keeps fun path hpath => ?_
  refine Keeps.bind (Keeps.ofExcept _) fun _ hcheck => ?_
  have hkept := h path.segments ⟨segments_of_resolve hpath, hcheck.of_ofExcept⟩
  refine Keeps.bind Keeps.get fun d _ => ?_
  split
  · exact Keeps.throw _
  · refine Keeps.bind (makeDirs_keeps (List.dropLast_prefix _) hkept.1) fun _ _ => ?_
    exact Keeps.bind (replace_keeps hkept.2) fun _ _ => Keeps.pure _

/-- The planned files and directories of an archive are entries of it, and may be written. -/
structure Plan.Checked (fold : CaseFold) (tree : Tree) (target : Resolved) (infos : List ZipInfo)
    (plan : Plan) : Prop where
  files : ∀ file ∈ plan.files, file.1 ∈ infos ∧ file.1.isDir = false ∧
    Writable fold tree (entryRaw target.rel file.1) file.2.segments
  dirs : ∀ path ∈ plan.dirs, ∃ info ∈ infos,
    Writable fold tree (entryRaw target.rel info) path.segments

theorem checkEntry_keeps {target : Resolved} {info : ZipInfo} :
    Keeps I (checkEntry fold tree target info) := by
  unfold checkEntry
  split
  · exact Keeps.throw _
  split
  · exact Keeps.throw _
  · exact Keeps.bind resolve_keeps fun _ _ => Keeps.bind (Keeps.ofExcept _) fun _ _ => Keeps.pure _

/-- An entry that passes may be written. -/
theorem writable_of_checkEntry {target : Resolved} {info : ZipInfo}
    (h : Returns I (checkEntry fold tree target info) path) :
    Writable fold tree (entryRaw target.rel info) path.segments := by
  unfold checkEntry at h
  split at h
  · exact absurd h Returns.not_throw
  split at h
  · exact absurd h Returns.not_throw
  obtain ⟨resolved, hresolved, h⟩ := h.of_bind resolve_keeps
  obtain ⟨_, hcheck, h⟩ := h.of_bind (Keeps.ofExcept _)
  obtain rfl := h.of_pure
  exact ⟨segments_of_resolve hresolved, hcheck.of_ofExcept⟩

theorem planExtract_keeps {target : Resolved} {maxFiles : Nat} {infos : List ZipInfo}
    {plan : Plan} : Keeps I (planExtract fold tree target maxFiles infos plan) := by
  induction infos generalizing plan with
  | nil => exact Keeps.pure _
  | cons info infos ih =>
    refine Keeps.bind checkEntry_keeps fun path _ => ?_
    split
    · exact ih
    split
    · exact Keeps.throw _
    split
    · exact Keeps.throw _
    · exact ih

/-- A plan that is made is one of entries that may be written. -/
theorem checked_of_planExtract {target : Resolved} {maxFiles : Nat} {all infos : List ZipInfo}
    {plan plan' : Plan} (hall : infos ⊆ all) (hplan : plan.Checked fold tree target all)
    (h : Returns I (planExtract fold tree target maxFiles infos plan) plan') :
    plan'.Checked fold tree target all := by
  induction infos generalizing plan with
  | nil =>
    obtain rfl := h.of_pure
    exact hplan
  | cons info infos ih =>
    have hinfo : info ∈ all := hall List.mem_cons_self
    have hrest : infos ⊆ all := List.subset_of_cons_subset hall
    obtain ⟨path, hpath, h⟩ := h.of_bind checkEntry_keeps
    have hwritable := writable_of_checkEntry hpath
    split at h
    next =>
      have hdirs : ∀ p ∈ plan.dirs ++ [path], ∃ info ∈ all,
          Writable fold tree (entryRaw target.rel info) p.segments := by
        intro p hp
        rcases List.mem_append.mp hp with hp | hp
        · exact hplan.dirs p hp
        · obtain rfl := List.mem_singleton.mp hp
          exact ⟨info, hinfo, hwritable⟩
      have hnext : Plan.Checked fold tree target all { plan with dirs := plan.dirs ++ [path] } :=
        ⟨hplan.files, hdirs⟩
      exact ih hrest hnext h
    next hfile =>
      split at h
      · exact absurd h Returns.not_throw
      split at h
      · exact absurd h Returns.not_throw
      have hfiles : ∀ file ∈ plan.files ++ [(info, path)], file.1 ∈ all ∧
          file.1.isDir = false ∧
          Writable fold tree (entryRaw target.rel file.1) file.2.segments := by
        intro file hf
        rcases List.mem_append.mp hf with hf | hf
        · exact hplan.files file hf
        · obtain rfl := List.mem_singleton.mp hf
          exact ⟨hinfo, by simpa using hfile, hwritable⟩
      have hnext : Plan.Checked fold tree target all
          { plan with files := plan.files ++ [(info, path)] } := ⟨hfiles, hplan.dirs⟩
      exact ih hrest hnext h

/-- Unpacking an archive makes directories for the names of its target and its entries, and puts
files in the place of those that are files. -/
theorem extractZip_keeps {archive : Option (List ZipInfo)} {maxBytes maxFiles : Nat}
    (htarget : ∀ segments, Writable fold tree raw segments → KeptByDirs I segments)
    (hentry : ∀ target, Writable fold tree raw target → ∀ infos, archive = some infos →
      ∀ info ∈ infos, ∀ segments, Writable fold tree (entryRaw (relText target) info) segments →
        KeptByDirs I segments ∧ (info.isDir = false → KeptByFile env info.data I segments)) :
    Keeps I (extractZip fold tree env raw archive maxBytes maxFiles) := by
  refine Keeps.bind resolve_keeps fun target hresolved => ?_
  refine Keeps.bind (Keeps.ofExcept _) fun _ hcheck => Keeps.bind Keeps.get fun d _ => ?_
  have hwritable : Writable fold tree raw target.segments :=
    ⟨segments_of_resolve hresolved, hcheck.of_ofExcept⟩
  split
  · exact Keeps.throw _
  split
  · exact Keeps.throw _
  next infos =>
  refine Keeps.bind planExtract_keeps fun plan hplan => ?_
  have hchecked := checked_of_planExtract (List.Subset.refl infos)
    ⟨by simp, by simp⟩ hplan
  dsimp only
  split
  · exact Keeps.throw _
  refine Keeps.bind (makeDirs_keeps List.prefix_rfl (htarget _ hwritable)) fun _ _ => ?_
  refine Keeps.bind (Keeps.ofExcept _) fun written _ => ?_
  refine Keeps.bind (Keeps.forM fun path hpath => ?_) fun _ _ => ?_
  · obtain ⟨info, hinfo, hw⟩ := hchecked.dirs path hpath
    exact makeDirs_keeps List.prefix_rfl (hentry _ hwritable infos rfl info hinfo _ hw).1
  refine Keeps.bind (Keeps.forM fun file hfile => ?_) fun _ _ => Keeps.pure _
  obtain ⟨hinfo, hisFile, hw⟩ := hchecked.files file hfile
  have hkept := hentry _ hwritable infos rfl file.1 hinfo _ hw
  refine Keeps.bind (makeDirs_keeps (List.dropLast_prefix _) hkept.1) fun _ _ => ?_
  refine Keeps.bind Keeps.get fun d _ => ?_
  split
  · exact Keeps.throw _
  · exact replace_keeps (hkept.2 hisFile)

theorem kind_keeps : Keeps I (kind fold tree raw) := by
  refine Keeps.bind resolve_keeps fun path _ => Keeps.bind (Keeps.ofExcept _) fun _ _ => ?_
  refine Keeps.bind Keeps.get fun d _ => ?_
  split
  · exact Keeps.pure _
  split
  · exact Keeps.pure _
  · exact Keeps.throw _

/-- The path of a kind is that of the text, and is not hidden. -/
theorem segments_of_kind {entryKind : EntryKind}
    (h : Returns I (kind fold tree raw) (path, entryKind)) :
    pathSegments raw = .ok path.segments ∧ tree.checkReadable fold path = .ok () := by
  obtain ⟨resolved, hresolved, h⟩ := h.of_bind resolve_keeps
  obtain ⟨_, hcheck, h⟩ := h.of_bind (Keeps.ofExcept _)
  obtain ⟨d, -, h⟩ := h.of_bind Keeps.get
  have heq : resolved = path := by
    split at h
    · exact congrArg Prod.fst h.of_pure
    split at h
    · exact congrArg Prod.fst h.of_pure
    · exact absurd h Returns.not_throw
  subst heq
  exact ⟨segments_of_resolve hresolved, hcheck.of_ofExcept⟩

/-- Deleting removes an entry that may be written, or a directory that may be deleted. -/
theorem delete_leads {P Q : Disk tree.root → Prop} {recursive : Bool} (hPQ : ∀ d, P d → Q d)
    (hfile : ∀ segments, Writable fold tree raw segments → RemoveLeads env P Q segments)
    (hdir : ∀ segments, Writable fold tree raw segments →
      tree.checkDeletableDir fold ⟨segments⟩ = .ok () →
      (∃ d, P d ∧ (env.listed (d.realpath segments) = [] ∨ recursive = true)) →
        RmtreeLeads env P Q segments) :
    Leads P Q (delete fold tree env raw recursive) := by
  refine Leads.after hPQ resolve_keeps fun checked hchecked => ?_
  refine Leads.after hPQ (Keeps.ofExcept _) fun _ hcheck => ?_
  have hwritable : Writable fold tree raw checked.segments :=
    ⟨segments_of_resolve hchecked, hcheck.of_ofExcept⟩
  refine Leads.after hPQ kind_keeps fun found hfound => ?_
  have hsame : checked = found.1 := by
    have hok := hwritable.1.symm.trans (segments_of_kind hfound).1
    injection hok with hsegments
    exact congrArg Resolved.mk hsegments
  obtain ⟨path, entryKind⟩ := found
  rw [hsame] at hwritable
  cases entryKind
  · exact Leads.before (remove_leads hPQ (hfile _ hwritable)) fun _ => Keeps.pure _
  · refine Leads.after hPQ (Keeps.ofExcept _) fun _ hdeletable => ?_
    refine Leads.after hPQ Keeps.get fun d hd => ?_
    split
    · exact (Keeps.throw _).leads hPQ
    next hlisted =>
      have hgoes : env.listed (d.realpath path.segments) = [] ∨ recursive = true := by
        simpa [or_iff_not_imp_left] using hlisted
      have hrm := hdir _ hwritable hdeletable.of_ofExcept ⟨d, hd.of_get, hgoes⟩
      exact Leads.before (rmtree_leads hPQ hrm) fun _ => Keeps.pure _

end Keeping

end FileApi

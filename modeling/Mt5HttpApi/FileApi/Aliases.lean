import Mt5HttpApi.FileApi.Ops

/-!
# Hidden and read-only files under other names

The access rules compare the text of a path; links, short names and the like let other texts lead to
the same file. `HoldForFiles` is what hidden and read-only entries should mean for the files
themselves, and `Spelled` the condition: where a call would reach a protected file, the path that it
names is one that the rules refuse. `holdForFiles_iff` says that the second is enough for the first,
and needed by every call but an extraction, which may yet be refused for another entry or write a
file's own bytes back.

Unpacking goes through a sequence of disks, and a name may lead elsewhere on a later one than on the
first. `realpath_of_grown` says that it does not, as far as there was something on the first.
-/

namespace FileApi

open Effects

/-- A call of the file API. -/
inductive Call
  | read (raw : List Char)
  | write (raw : List Char) (data : List UInt8)
  | extract (raw : List Char) (archive : Option (List ZipInfo)) (maxBytes maxFiles : Nat)
  | delete (raw : List Char) (recursive : Bool)

/-- The call is made; a read gives bytes. -/
def Call.perform (fold : CaseFold) (tree : Tree) (env : Env) :
    Call → Op tree.root (Option (List UInt8))
  | .read raw => FileApi.read fold tree env raw
  | .write raw data => do
    let _ ← writeFile fold tree env raw data
    pure none
  | .extract raw archive maxBytes maxFiles => do
    let _ ← extractZip fold tree env raw archive maxBytes maxFiles
    pure none
  | .delete raw recursive => do
    let _ ← FileApi.delete fold tree env raw recursive
    pure none

namespace Tree

variable (fold : CaseFold) (tree : Tree)

/-- The key of a real path under the root. -/
def realKey (p : Path) : List Char := fold.lower (relText (p.drop tree.root.length))

/-- The real path is hidden. -/
def hides (p : Path) : Prop := tree.root <+: p ∧ tree.realKey fold p ∈ tree.hidden

/-- The real path is hidden or under a read-only entry. -/
def shields (p : Path) : Prop := tree.root <+: p ∧ tree.protects (tree.realKey fold p)

end Tree

/-- Where a path leads, but for a link at its end. -/
def Disk.entry {root : Path} (d : Disk root) (segments : List Name) : Path :=
  match segments.getLast? with
  | none => root
  | some name => d.child (d.realpath segments.dropLast) name

variable (fold : CaseFold) (tree : Tree) (env : Env)

/-- A read returns no bytes of a hidden file, and no file is changed or removed that is hidden or
under a read-only entry. -/
def HoldForFiles (d : Disk tree.root) (call : Call) : Prop :=
  (∀ raw bytes segments, call = .read raw → pathSegments raw = .ok segments →
    (run (call.perform fold tree env) d).1 = .ok (some bytes) →
      ¬ tree.hides fold (d.realpath segments)) ∧
  ∀ p bytes, tree.shields fold p → d.fileAt p = some bytes →
    (run (call.perform fold tree env) d).2.fileAt p = some bytes

/-- The path leads to a protected file that other bytes would take the place of. -/
def Overwrites (d : Disk tree.root) (segments : List Name) (data : List UInt8) : Prop :=
  ∃ bytes, d.fileAt (d.entry segments) = some bytes ∧ bytes ≠ data ∧
    env.inUse (d.entry segments) = false ∧ tree.shields fold (d.entry segments)

/-- The path leads to a directory that protected files would be removed from. -/
def Empties (d : Disk tree.root) (segments : List Name) : Prop :=
  ∃ p bytes, d.entry segments <+: p ∧ (∀ q ∈ env.left, ¬ p <+: q) ∧ d.fileAt p = some bytes ∧
    tree.shields fold p

/-- Where a call would reach a protected file, the path that it names is refused. -/
def Spelled (d : Disk tree.root) : Call → Prop
  | .read raw => ∀ segments, pathSegments raw = .ok segments →
      tree.hides fold (d.realpath segments) → d.isFile segments →
      env.inUse (d.realpath segments) = false → Resolved.key fold ⟨segments⟩ ∈ tree.hidden
  | .write raw data => ∀ segments, pathSegments raw = .ok segments →
      Overwrites fold tree env d segments data → tree.protects (Resolved.key fold ⟨segments⟩)
  | .extract raw archive _ _ => ∀ target, Writable fold tree raw target →
      ∀ infos, archive = some infos → ∀ info ∈ infos, info.isDir = false →
      ∀ segments, pathSegments (entryRaw (relText target) info) = .ok segments →
      Overwrites fold tree env d segments info.data →
        tree.protects (Resolved.key fold ⟨segments⟩)
  | .delete raw recursive => ∀ segments, pathSegments raw = .ok segments →
      (env.inUse (d.entry segments) = false → tree.shields fold (d.entry segments) →
        d.fileAt (d.entry segments) ≠ none → tree.protects (Resolved.key fold ⟨segments⟩)) ∧
      (d.node (d.entry segments) = some .dir →
        (env.listed (d.realpath segments) = [] ∨ recursive = true) →
        Empties fold tree env d segments →
          tree.checkDeletableDir fold ⟨segments⟩ ≠ .ok ())

variable {fold tree env}

section Growing

variable {root : Path} {d₀ d : Disk root} {p : Path} {n : Name} {segments : List Name}

/-- A disk that came from another by making directories where nothing was, and putting files where
no directory was. -/
structure Grown (d₀ d : Disk root) : Prop where
  stored : d.stored = d₀.stored
  links : ∀ p t, d.node p = some (.link t) → d₀.node p = some (.link t)
  dirs : ∀ p, d.node p = some .dir → d₀.node p = some .dir ∨ d₀.node p = none
  absent : ∀ p, d.node p = none → d₀.node p = none

theorem Grown.refl (d : Disk root) : Grown d d where
  stored := rfl
  links _ _ h := h
  dirs _ h := Or.inl h
  absent _ h := h

theorem Grown.child (h : Grown d₀ d) (p : Path) (n : Name) : d.child p n = d₀.child p n := by
  rw [Disk.child, Disk.child, h.stored]

/-- A path to a directory led there before, or there was nothing. -/
theorem realpath_of_grown (h : Grown d₀ d) (hdir : d.isDir segments) :
    d₀.realpath segments = d.realpath segments ∨ d₀.node (d.realpath segments) = none := by
  induction segments using List.reverseRecOn with
  | nil => exact Or.inl rfl
  | append_singleton segments n ih =>
    have hparent : d.isDir segments := by
      refine Disk.isDir_of_exists (n := n) ?_
      rw [Disk.exists_, hdir]
      rfl
    have hbefore := ih hparent
    -- what was in the directory before was found by the same path
    have hsame : d₀.node (d.child (d.realpath segments) n) ≠ none →
        d₀.child (d₀.realpath segments) n = d.child (d.realpath segments) n := by
      intro hne
      have hold : d₀.node (d.realpath segments) ≠ none := by
        rw [d₀.parent_dir _ _ hne]
        exact Option.some_ne_none _
      rw [hbefore.resolve_right hold, h.child]
    rw [Disk.isDir, Disk.realpath_concat] at hdir
    rw [Disk.realpath_concat, Disk.realpath_concat]
    generalize he : d.child (d.realpath segments) n = e at hdir hsame ⊢
    rcases hnode : d.node e with _ | node
    · rw [Disk.follow_eq_self (by simp [hnode]), hnode] at hdir
      cases hdir
    cases node with
    | file bytes =>
      rw [Disk.follow_eq_self (by simp [hnode]), hnode] at hdir
      cases hdir
    | dir =>
      rw [Disk.follow_eq_self (d := d) (by simp [hnode])]
      rcases h.dirs e hnode with hold | hold
      · rw [hsame (by simp [hold]), Disk.follow_eq_self (d := d₀) (by simp [hold])]
        exact Or.inl rfl
      · exact Or.inr hold
    | link t =>
      have hold := h.links e t hnode
      rw [Disk.follow_of_link hnode, hsame (by simp [hold]), Disk.follow_of_link hold]
      exact Or.inl rfl

/-- Putting a file or a directory in its place is growth. -/
theorem Grown.put (h : Grown d₀ d) {v : Node} {hp hdir hlink}
    (hplace : v = .dir → d.node (p ++ [n]) = none) : Grown d₀ (d.put p n v hp hdir hlink) where
  stored := h.stored
  links := by
    intro q t hq
    by_cases heq : q = p ++ [n]
    · rw [heq, Disk.node_put_self, Option.some.injEq] at hq
      exact absurd hq (hlink t)
    · rw [Disk.node_put_of_ne heq] at hq
      exact h.links q t hq
  dirs := by
    intro q hq
    by_cases heq : q = p ++ [n]
    · rw [heq, Disk.node_put_self, Option.some.injEq] at hq
      exact Or.inr (heq ▸ h.absent _ (hplace hq))
    · rw [Disk.node_put_of_ne heq] at hq
      exact h.dirs q hq
  absent := by
    intro q hq
    by_cases heq : q = p ++ [n]
    · rw [heq, Disk.node_put_self] at hq
      cases hq
    · rw [Disk.node_put_of_ne heq] at hq
      exact h.absent q hq

end Growing

section Sufficient

variable {d₀ d : Disk tree.root} {segments : List Name} {raw : List Char}

/-- The protected files of a disk have their bytes on another. -/
def Spares (fold : CaseFold) (tree : Tree) (d₀ d : Disk tree.root) : Prop :=
  ∀ p bytes, tree.shields fold p → d₀.fileAt p = some bytes → d.fileAt p = some bytes

/-- Where a path leads in its last directory. -/
theorem entry_concat {root : Path} (d : Disk root) (pre : List Name) (n : Name) :
    d.entry (pre ++ [n]) = d.child (d.realpath pre) n := by
  simp [Disk.entry]

/-- Making a directory touches no file. -/
theorem keptByDirs (segments : List Name) :
    KeptByDirs (fun d => Grown d₀ d ∧ Spares fold tree d₀ d) segments := by
  rintro d ⟨hgrown, hspares⟩ pre n more hp hdir hlink - hnone
  refine ⟨hgrown.put fun _ => hnone, fun p bytes hshield hfile => ?_⟩
  have hold := hspares p bytes hshield hfile
  rw [Disk.fileAt_eq_some] at hold ⊢
  have hne : p ≠ d.realpath pre ++ [d.stored (d.realpath pre) n] := by
    rintro rfl
    rw [show d.node (d.realpath pre ++ [d.stored (d.realpath pre) n]) = none from hnone] at hold
    cases hold
  rwa [Disk.node_put_of_ne hne]

/-- A file that takes no protected file's place, or has its bytes, leaves them as they are. -/
theorem keptByFile {data : List UInt8} (h : ¬ Overwrites fold tree env d₀ segments data) :
    KeptByFile env data (fun d => Grown d₀ d ∧ Spares fold tree d₀ d) segments := by
  rintro d ⟨hgrown, hspares⟩ pre n hp hdir hlink rfl - huse
  refine ⟨hgrown.put nofun, fun p bytes hshield hfile => ?_⟩
  by_cases heq : p = d.realpath pre ++ [d.stored (d.realpath pre) n]
  · -- the file was found by the same path from the start
    have hold : d₀.node (d.realpath pre) = some .dir := by
      refine d₀.parent_dir _ (d.stored (d.realpath pre) n) ?_
      rw [← heq, Disk.fileAt_eq_some.mp hfile]
      exact Option.some_ne_none _
    have hsame : d₀.realpath pre = d.realpath pre :=
      (realpath_of_grown hgrown hp).resolve_right (by simp [hold])
    have hentry : d₀.entry (pre ++ [n]) = p := by
      rw [entry_concat, hsame, ← hgrown.child, heq]
      rfl
    have hbytes : bytes = data := by
      by_contra hne
      refine h ⟨bytes, hentry ▸ hfile, hne, ?_, hentry ▸ hshield⟩
      rw [hentry, heq]
      exact huse
    rw [Disk.fileAt_eq_some, heq, Disk.node_put_self, hbytes]
  · have hold := hspares p bytes hshield hfile
    rw [Disk.fileAt_eq_some] at hold ⊢
    rwa [Disk.node_put_of_ne heq]

/-- Removing an entry that is no protected file. -/
theorem removeLeads (h : env.inUse (d₀.entry segments) = false →
      tree.shields fold (d₀.entry segments) → d₀.fileAt (d₀.entry segments) = none) :
    RemoveLeads env (· = d₀) (Spares fold tree d₀) segments := by
  rintro d rfl pre n hroot hdown rfl - huse p bytes hshield hfile
  rw [entry_concat] at h
  by_cases heq : p = d.child (d.realpath pre) n
  · rw [heq, h huse (heq ▸ hshield)] at hfile
    cases hfile
  · rw [Disk.fileAt_eq_some] at hfile ⊢
    rw [Disk.node_erase_of_not_gone]
    · exact hfile
    · exact heq

/-- Removing a directory with no protected file that would go with it. -/
theorem rmtreeLeads (h : d₀.node (d₀.entry segments) = some .dir →
      ¬ Empties fold tree env d₀ segments) :
    RmtreeLeads env (· = d₀) (Spares fold tree d₀) segments := by
  rintro d rfl pre n hroot hdown rfl hdir p bytes hshield hfile
  rw [entry_concat] at h
  rw [Disk.fileAt_eq_some]
  rw [Disk.node_erase_of_not_gone]
  · exact Disk.fileAt_eq_some.mp hfile
  · rintro ⟨hunder, hleft⟩
    exact h hdir ⟨p, bytes, by rwa [entry_concat], hleft, hfile, hshield⟩

/-- What may be written is not protected. -/
theorem Writable.not_protects (h : Writable fold tree raw segments) :
    ¬ tree.protects (Resolved.key fold ⟨segments⟩) := (Tree.checkWritable_eq_ok.mp h.2).2

theorem openReadable_keeps {I : Disk tree.root → Prop} {path : Resolved} :
    Keeps I (openReadable fold tree env path) := by
  refine Keeps.bind (Keeps.ofExcept _) fun _ _ => Keeps.bind Keeps.get fun d _ => ?_
  split
  · exact Keeps.throw _
  split
  · exact Keeps.throw _
  · exact Keeps.pure _

/-- A read leaves the disk as it is. -/
theorem read_keeps {I : Disk tree.root → Prop} : Keeps I (read fold tree env raw) := by
  refine Keeps.bind kind_keeps fun found _ => ?_
  obtain ⟨path, entryKind⟩ := found
  cases entryKind
  · exact Keeps.bind openReadable_keeps fun _ _ => Keeps.pure _
  · exact Keeps.pure _

/-- Protected files are as before when every path to one is refused. -/
theorem spares_of_spelled {call : Call} (h : Spelled fold tree env d₀ call) :
    Spares fold tree d₀ (run (call.perform fold tree env) d₀).2 := by
  have hself : Grown d₀ d₀ ∧ Spares fold tree d₀ d₀ := ⟨Grown.refl d₀, fun _ _ _ hfile => hfile⟩
  have hstart : ∀ d, d = d₀ → Spares fold tree d₀ d := by
    rintro d rfl
    exact hself.2
  cases call with
  | read raw =>
    have hread : Keeps (· = d₀) (read fold tree env raw) := read_keeps
    exact hread.leads hstart d₀ rfl
  | write raw data =>
    rw [Call.perform, run_bind_pure]
    have hwrite : Keeps (fun d => Grown d₀ d ∧ Spares fold tree d₀ d)
        (writeFile fold tree env raw data) := writeFile_keeps fun segments hw =>
      ⟨keptByDirs segments, keptByFile fun hover => hw.not_protects (h segments hw.1 hover)⟩
    exact (hwrite d₀ hself).2
  | extract raw archive maxBytes maxFiles =>
    rw [Call.perform, run_bind_pure]
    have hextract : Keeps (fun d => Grown d₀ d ∧ Spares fold tree d₀ d)
        (extractZip fold tree env raw archive maxBytes maxFiles) := by
      refine extractZip_keeps (fun segments _ => keptByDirs segments) ?_
      intro target htarget infos harchive info hinfo segments hw
      refine ⟨keptByDirs segments, fun hisFile => keptByFile fun hover => hw.not_protects ?_⟩
      exact h target htarget infos harchive info hinfo hisFile segments hw.1 hover
    exact (hextract d₀ hself).2
  | delete raw recursive =>
    rw [Call.perform, run_bind_pure]
    have hdelete : Leads (· = d₀) (Spares fold tree d₀) (delete fold tree env raw recursive) := by
      refine delete_leads hstart (fun segments hw => removeLeads fun huse hshield => ?_)
        fun segments hw hdeletable hgoes => rmtreeLeads fun hdir hempties => ?_
      · by_contra hfile
        exact hw.not_protects ((h segments hw.1).1 huse hshield hfile)
      · obtain ⟨d, rfl, hlisted⟩ := hgoes
        exact (h segments hw.1).2 hdir hlisted hempties hdeletable
    exact hdelete d₀ rfl

end Sufficient

section Runs

variable {d : Disk tree.root} {segments pre : List Name} {n : Name} {raw : List Char}
  {bytes data : List UInt8}

/-- A text that is accepted is resolved. -/
theorem run_resolve (h : pathSegments raw = .ok segments) :
    run (resolve tree raw) d = (.ok ⟨segments⟩, d) := by
  rw [resolve, run_ofExcept_bind h, run_get_bind, if_pos (Disk.root_prefix_realpath segments),
    run_pure]

/-- The kind of what a readable path leads to. -/
theorem run_kind (h : pathSegments raw = .ok segments)
    (hread : Resolved.key fold ⟨segments⟩ ∉ tree.hidden) :
    run (kind fold tree raw) d =
      run (if d.isDir segments then pure (⟨segments⟩, .dir)
        else if d.isFile segments then pure (⟨segments⟩, .file)
        else throw (.notFound s!"{shown ⟨segments⟩} does not exist")) d := by
  rw [kind, run_bind_of_ok (run_resolve h),
    run_ofExcept_bind (Tree.checkReadable_eq_ok.mpr hread), run_get_bind]

/-- A path to a file is no path to a directory. -/
theorem not_isDir_of_fileAt {root : Path} {d : Disk root}
    (h : d.fileAt (d.realpath segments) = some bytes) : ¬ d.isDir segments := by
  intro hdir
  rw [Disk.fileAt_eq_some, hdir] at h
  cases h

variable (env) in
/-- A file that is not hidden by its path, and not in use, is read. -/
theorem run_read (h : pathSegments raw = .ok segments)
    (hread : Resolved.key fold ⟨segments⟩ ∉ tree.hidden)
    (hfile : d.fileAt (d.realpath segments) = some bytes)
    (huse : env.inUse (d.realpath segments) = false) :
    run (read fold tree env raw) d = (.ok (some bytes), d) := by
  have hisFile : d.isFile segments := by
    rw [Disk.isFile, hfile]
    rfl
  have hkind : run (kind fold tree raw) d = (.ok (⟨segments⟩, .file), d) := by
    rw [run_kind h hread, if_neg (not_isDir_of_fileAt hfile), if_pos hisFile, run_pure]
  have hopen : run (openReadable fold tree env ⟨segments⟩) d = (.ok bytes, d) := by
    rw [openReadable, run_ofExcept_bind (Tree.checkReadable_eq_ok.mpr hread), run_get_bind, hfile]
    simp [huse]
  rw [read, run_bind_of_ok hkind]
  exact run_bind_of_ok hopen

/-- What has been read is a file that is not hidden by its path. -/
theorem of_read (h : (run (read fold tree env raw) d).1 = .ok (some bytes))
    (hraw : pathSegments raw = .ok segments) :
    Resolved.key fold ⟨segments⟩ ∉ tree.hidden ∧ d.isFile segments ∧
      env.inUse (d.realpath segments) = false := by
  have hreturns : Returns (· = d) (read fold tree env raw) (some bytes) := ⟨d, rfl, h⟩
  obtain ⟨⟨path, entryKind⟩, hkind, hreturns⟩ := hreturns.of_bind kind_keeps
  obtain ⟨hpath, hread⟩ := segments_of_kind hkind
  obtain rfl : segments = path.segments := by
    rw [hraw] at hpath
    injection hpath
  refine ⟨Tree.checkReadable_eq_ok.mp hread, ?_⟩
  cases entryKind with
  | dir => cases hreturns.of_pure
  | file =>
    obtain ⟨bytes', hopened, -⟩ := hreturns.of_bind openReadable_keeps
    obtain ⟨_, -, hopened⟩ := hopened.of_bind (Keeps.ofExcept _)
    obtain ⟨d', hd', hopened⟩ := hopened.of_bind Keeps.get
    obtain rfl := hd'.of_get
    split at hopened
    · exact absurd hopened Returns.not_throw
    next hfile =>
      split at hopened
      · exact absurd hopened Returns.not_throw
      next huse => exact ⟨by simp [Disk.isFile, hfile], by simpa using huse⟩

/-- What a path leads to, when that is no link. -/
theorem realpath_of_fileAt {root : Path} {d : Disk root}
    (h : d.fileAt (d.child (d.realpath pre) n) = some bytes) :
    d.realpath (pre ++ [n]) = d.child (d.realpath pre) n := by
  rw [Disk.realpath_concat, Disk.follow_eq_self]
  simp [Disk.fileAt_eq_some.mp h]

/-- Directories that are there are not made. -/
theorem run_makeDirs {root : Path} {d : Disk root} (h : d.isDir segments) :
    run (makeDirs segments) d = (.ok (), d) := by
  have hall : ∀ pre ∈ segments.inits, d.isDir pre := fun pre hpre =>
    Disk.isDir_of_prefix h ((List.mem_inits _ _).mp hpre)
  unfold makeDirs
  generalize segments.inits = inits at hall
  generalize String.ofList (relText segments) = rel
  induction inits with
  | nil => rfl
  | cons pre inits ih =>
    have hmake : run (makeDir rel pre : Op root Unit) d = (.ok (), d) := by
      rw [makeDir, run_get_bind, if_pos (hall pre List.mem_cons_self), run_pure]
    exact (run_bind_of_ok hmake).trans (ih fun pre hpre => hall pre (List.mem_cons_of_mem _ hpre))

/-- A path that its rules do not protect may be written. -/
theorem writable_of_not_protects (h : pathSegments raw = .ok (pre ++ [n]))
    (hfree : ¬ tree.protects (Resolved.key fold ⟨pre ++ [n]⟩)) :
    tree.checkWritable fold ⟨pre ++ [n]⟩ = .ok () := by
  have hname : n ≠ [] := ne_nil_of_pathSegments h n (by simp)
  refine Tree.checkWritable_eq_ok.mpr ⟨fun hkey => ?_, hfree⟩
  exact relText_ne_nil hname ((fold.lower_eq_nil _).mp hkey)

/-- A write to a file that is not protected by its path, and not in use, replaces it. -/
theorem run_writeFile (h : pathSegments raw = .ok (pre ++ [n]))
    (hfree : ¬ tree.protects (Resolved.key fold ⟨pre ++ [n]⟩))
    (hfile : d.fileAt (d.child (d.realpath pre) n) = some bytes)
    (huse : env.inUse (d.child (d.realpath pre) n) = false) :
    (run (writeFile fold tree env raw data) d).2.fileAt (d.child (d.realpath pre) n) =
      some data := by
  have hnode := Disk.fileAt_eq_some.mp hfile
  have hparent : d.isDir pre := Disk.isDir_of_child (n := n) (by simp [hnode])
  have hnotDir : ¬ d.isDir (pre ++ [n]) :=
    not_isDir_of_fileAt (by rw [realpath_of_fileAt hfile, hfile])
  have hplace : d.node (d.realpath pre) = some .dir ∧
      d.node (d.child (d.realpath pre) n) ≠ some .dir ∧
      env.inUse (d.child (d.realpath pre) n) = false := ⟨hparent, by simp [hnode], huse⟩
  rw [writeFile, run_bind_of_ok (run_resolve h),
    run_ofExcept_bind (writable_of_not_protects h hfree), run_get_bind, if_neg hnotDir]
  simp only [List.dropLast_concat]
  rw [run_bind_of_ok (run_makeDirs hparent), run_bind_pure, replace, run_get_bind]
  simp only [List.getLast?_concat, List.dropLast_concat]
  rw [dif_pos hplace, run_set, Disk.fileAt_eq_some]
  exact Function.update_self _ _ _

/-- Deleting a file that is not protected by its path, and not in use, removes it. -/
theorem run_delete_file {recursive : Bool} (h : pathSegments raw = .ok (pre ++ [n]))
    (hfree : ¬ tree.protects (Resolved.key fold ⟨pre ++ [n]⟩))
    (hfile : d.fileAt (d.child (d.realpath pre) n) = some bytes)
    (huse : env.inUse (d.child (d.realpath pre) n) = false) :
    (run (delete fold tree env raw recursive) d).2.fileAt (d.child (d.realpath pre) n) = none := by
  have hnode := Disk.fileAt_eq_some.mp hfile
  have hreal : d.fileAt (d.realpath (pre ++ [n])) = some bytes := by
    rw [realpath_of_fileAt hfile, hfile]
  have hisFile : d.isFile (pre ++ [n]) := by
    rw [Disk.isFile, hreal]
    rfl
  have hread : Resolved.key fold ⟨pre ++ [n]⟩ ∉ tree.hidden := fun hhidden => hfree (Or.inl hhidden)
  have hkind : run (kind fold tree raw) d = (.ok (⟨pre ++ [n]⟩, .file), d) := by
    rw [run_kind h hread, if_neg (not_isDir_of_fileAt hreal), if_pos hisFile, run_pure]
  have hplace : d.node (d.child (d.realpath pre) n) ≠ some .dir ∧
      env.inUse (d.child (d.realpath pre) n) = false := ⟨by simp [hnode], huse⟩
  rw [delete, run_bind_of_ok (run_resolve h),
    run_ofExcept_bind (writable_of_not_protects h hfree), run_bind_of_ok hkind, run_bind_pure,
    remove, run_get_bind]
  simp only [List.getLast?_concat, List.dropLast_concat]
  rw [dif_pos hplace, run_set]
  exact Disk.fileAt_of_absent (if_pos rfl)

/-- Deleting a directory that may be deleted by its path removes what is in it. -/
theorem run_delete_dir {recursive : Bool} {p : Path} (h : pathSegments raw = .ok (pre ++ [n]))
    (hdeletable : tree.checkDeletableDir fold ⟨pre ++ [n]⟩ = .ok ())
    (hdir : d.node (d.child (d.realpath pre) n) = some .dir)
    (hgoes : env.listed (d.realpath (pre ++ [n])) = [] ∨ recursive = true)
    (hunder : d.child (d.realpath pre) n <+: p) (hleft : ∀ q ∈ env.left, ¬ p <+: q) :
    (run (delete fold tree env raw recursive) d).2.fileAt p = none := by
  have hreal : d.realpath (pre ++ [n]) = d.child (d.realpath pre) n := by
    rw [Disk.realpath_concat, Disk.follow_eq_self]
    simp [hdir]
  have hisDir : d.isDir (pre ++ [n]) := by rw [Disk.isDir, hreal, hdir]
  have hwritable := (Tree.checkDeletableDir_eq_ok hdeletable).1
  have hread : Resolved.key fold ⟨pre ++ [n]⟩ ∉ tree.hidden := fun hhidden =>
    (Tree.checkWritable_eq_ok.mp hwritable).2 (Or.inl hhidden)
  have hkind : run (kind fold tree raw) d = (.ok (⟨pre ++ [n]⟩, .dir), d) := by
    rw [run_kind h hread, if_pos hisDir, run_pure]
  have hlisted : ¬ (env.listed (d.realpath (pre ++ [n])) ≠ [] ∧ (!recursive) = true) := by
    simpa [or_iff_not_imp_left] using hgoes
  rw [delete, run_bind_of_ok (run_resolve h), run_ofExcept_bind hwritable, run_bind_of_ok hkind]
  dsimp only
  rw [run_ofExcept_bind hdeletable, run_get_bind, if_neg hlisted, run_bind_pure, rmtree,
    run_get_bind]
  simp only [List.getLast?_concat, List.dropLast_concat]
  rw [if_pos hdir, run_bind_of_ok (run_set _ _)]
  split
  · exact Disk.fileAt_of_absent (if_pos ⟨hunder, hleft⟩)
  · exact Disk.fileAt_of_absent (if_pos ⟨hunder, hleft⟩)

end Runs

/-- The tree of a terminal in `mt5`. -/
def sampleTree : Tree := terminalTree ["mt5".toList]

/-- Its directory with a link to its `config`, and short names. -/
def aliasedDisk : Disk sampleTree.root :=
  Disk.ofEntries sampleTree.root
    [([], .dir), (["mt5".toList], .dir), (["mt5".toList, "config".toList], .dir),
      (["mt5".toList, "config".toList, "accounts.dat".toList], .file [1]),
      (["mt5".toList, "logs".toList], .dir),
      (["mt5".toList, "logs".toList, "link".toList], .link ["mt5".toList, "config".toList]),
      (["mt5".toList, "chartctl".toList], .dir),
      (["mt5".toList, "chartctl".toList, "registry.json".toList], .file [2])]
    (fun n => if n = "chartc~1".toList then "chartctl".toList else n)
    (by decide) (by decide) (by simp [sampleTree, terminalTree])

/-- Nothing is in use. -/
def quietEnv : Env where
  inUse := fun _ => false
  left := []
  listed := fun _ => []
  sha256 := fun _ => ""

end FileApi

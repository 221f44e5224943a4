import Mt5HttpApi.Lib.Dict
import Mt5HttpApi.Lib.Passes
import Mt5HttpApi.Lib.Transition
import Mathlib.Data.List.Induction
import Mathlib.Data.Rat.Defs

/-!
# The mirror of the include tree

`_mirror_tree` copies a directory into the mirror, skips what is current by size and whole-second
mtime, and then removes what the source no longer has. On a file system that does not tell the case
of letters apart, a name is found under any spelling of it and keeps the one it was created with,
while the removal compares the spelled paths.

A directory is given by its entries under their folded paths. `Sound` says which entries there can
be, and every operation keeps it, also where it raises.
-/

namespace Compile.Mirror

open Passes Transition

/-- The name of an entry, as it is spelled. -/
abbrev FileName := List Char

/-- A path below the directory, by its names, as they are spelled or folded. -/
abbrev RelPath := List FileName

/-- What there is at a path. -/
inductive Node
  | file (content : List UInt8) (mtime : ℚ)
  | dir
  deriving DecidableEq

/-- The entries below a directory: under the folded path, the name as it is spelled, and what it
is. -/
abbrev Entries := List (RelPath × FileName × Node)

/-- The entries have distinct folded paths, and each is in a directory. -/
structure Sound (fold : FileName → FileName) (d : Entries) : Prop where
  nodup : (d.map Prod.fst).Nodup
  inside : ∀ key name node, Dict.get d key = some (name, node) →
    ∃ above, key = above ++ [fold name] ∧
      (above = [] ∨ ∃ n, Dict.get d above = some (n, .dir))

/-- A directory tree. -/
structure Tree (fold : FileName → FileName) where
  entries : Entries
  sound : Sound fold entries

/-- What the file system decides. -/
structure Env where
  /-- Size and whole-second mtime of a directory. -/
  dirStat : RelPath → ℕ × ℤ
  /-- The mtime that the mirror's file system stores. -/
  stamp : ℚ → ℚ
  /-- A copy to the path raises, and may leave part of the file. -/
  breaks : RelPath → Option (Option (List UInt8 × ℚ))
  removeFails : RelPath → Bool

/-- The spelling of the last name of a folded path. -/
def stored (d : Entries) (key : RelPath) : FileName := ((Dict.get d key).map Prod.fst).getD []

/-- A folded path as it is spelled. -/
def spelled (d : Entries) (key : RelPath) : RelPath :=
  (List.range key.length).map fun i => stored d (key.take (i + 1))

/-- `int(st_mtime)`. -/
def wholeSecond (mtime : ℚ) : ℤ := mtime.num.tdiv mtime.den

/-- The size and the whole-second mtime by which a file is told to be current. -/
def Node.stamp (env : Env) (key : RelPath) : Node → ℕ × ℤ
  | .file content mtime => (content.length, wholeSecond mtime)
  | .dir => env.dirStat key

/-- One step of the walk over the source. -/
inductive Task
  /-- `os.makedirs(target, exist_ok=True)`. -/
  | makedirs (path : RelPath)
  /-- A file of the directory, with its content and mtime. -/
  | copy (path : RelPath) (name : FileName) (content : List UInt8) (mtime : ℚ)

/-- The directories of a tree, by their folded paths. -/
def dirs (d : Entries) : List RelPath :=
  [] :: d.filterMap fun entry => if entry.2.2 = .dir then some entry.1 else none

/-- The files in a directory, as they are copied. -/
def copies (d : Entries) (dir : RelPath) : List Task :=
  d.filterMap fun entry =>
    match entry.2.2 with
    | .file content mtime =>
      if entry.1.dropLast = dir then some (.copy (spelled d dir) entry.2.1 content mtime) else none
    | .dir => none

/-- `os.walk(src)` with what is done in each directory. -/
def tasks (src : Entries) : List Task :=
  (dirs src).flatMap fun dir => .makedirs (spelled src dir) :: copies src dir

/-- `expected`. -/
def expected (src : Entries) : List RelPath :=
  (tasks src).filterMap fun task =>
    match task with
    | .copy path name _ _ => some (path ++ [name])
    | .makedirs _ => none

/-- The path is that of the directory, or of a directory below it. -/
def isDirAt (d : Entries) (key : RelPath) : Bool :=
  key = [] || match Dict.get d key with
    | some (_, .dir) => true
    | _ => false

section

variable (fold : FileName → FileName) (env : Env)

/-- `os.makedirs`: one directory after the other, below those that are there. -/
def makeDirs (above : RelPath) : RelPath → Entries → Option ℕ × Entries
  | [], d => (some 0, d)
  | name :: rest, d =>
    match Dict.get d (above ++ [fold name]) with
    | none =>
      makeDirs (above ++ [fold name]) rest (Dict.set d (above ++ [fold name]) (name, .dir))
    | some (_, .dir) => makeDirs (above ++ [fold name]) rest d
    | some (_, .file _ _) => (none, d)

/-- `_is_current`. -/
def isCurrent (d : Entries) (key : RelPath) (content : List UInt8) (mtime : ℚ) : Bool :=
  match Dict.get d key with
  | some (_, node) => node.stamp env key = (content.length, wholeSecond mtime)
  | none => false

/-- `open(path, "wb")`, the content and `shutil.copystat`. A file that is there keeps its
spelling. -/
def writeFile (d : Entries) (key : RelPath) (name : FileName) (content : List UInt8) (mtime : ℚ) :
    Option ℕ × Entries :=
  let name' := ((Dict.get d key).map Prod.fst).getD name
  if isDirAt d key || !isDirAt d key.dropLast then (none, d)
  else match env.breaks key with
    | none => (some 1, Dict.set d key (name', .file content (env.stamp mtime)))
    | some none => (none, d)
    | some (some (part, now)) => (none, Dict.set d key (name', .file part now))

/-- `shutil.copy2`: onto a directory, the file is copied into it. -/
def copy2 (d : Entries) (key : RelPath) (name : FileName) (content : List UInt8) (mtime : ℚ) :
    Option ℕ × Entries :=
  if isDirAt d key then writeFile env d (key ++ [fold name]) name content mtime
  else writeFile env d key name content mtime

/-- One step of the walk: how many files were copied, unless it raises. -/
def mirrorTask (d : Entries) : Task → Option ℕ × Entries
  | .makedirs path => makeDirs fold [] path d
  | .copy path name content mtime =>
    let key := (path ++ [name]).map fold
    if isCurrent env d key content mtime then (some 0, d)
    else copy2 fold env d key name content mtime

/-- The file is no longer in the source. -/
def stale (paths : List RelPath) (d : Entries) (entry : RelPath × FileName × Node) : Bool :=
  entry.2.2 ≠ .dir && decide (spelled d entry.1 ∉ paths) && !env.removeFails entry.1

/-- `_mirror_tree`: how many files were copied and how many removed, unless it raises. -/
def mirrorTree (src dst : Entries) : Option (ℕ × ℕ) × Entries :=
  match runPass (mirrorTask fold env) (tasks src) dst with
  | (none, d) => (none, d)
  | (some copied, d) =>
    if expected src = [] then (some (copied, 0), d)
    else (some (copied, d.countP (stale env (expected src) d)),
      d.filter fun entry => !stale env (expected src) d entry)

end

variable {fold : FileName → FileName} {env : Env} {d d' : Entries} {key above : RelPath}
  {name : FileName} {node : Node} {content : List UInt8} {mtime : ℚ}

/-! ## Spelled paths -/

theorem stored_of_get (h : Dict.get d key = some (name, node)) : stored d key = name := by
  rw [stored, h]
  rfl

@[simp]
theorem spelled_nil : spelled d [] = [] := rfl

theorem spelled_concat (key : RelPath) (n : FileName) :
    spelled d (key ++ [n]) = spelled d key ++ [stored d (key ++ [n])] := by
  rw [spelled, List.length_append, List.length_singleton, List.range_succ, List.map_append,
    List.map_singleton]
  congr 1
  · refine List.map_congr_left fun i hi => ?_
    have hlt : i < key.length := List.mem_range.mp hi
    rw [List.take_append_of_le_length (by omega)]
  · rw [List.take_of_length_le (by simp)]

/-- Two spellings are the same where every name on the way is spelled the same. -/
theorem spelled_eq_iff : spelled d key = spelled d' key ↔
    ∀ q, q <+: key → q ≠ [] → stored d q = stored d' q := by
  rw [spelled, spelled, List.map_inj_left]
  constructor
  · intro h q hprefix hne
    obtain ⟨i, hi⟩ : ∃ i, q.length = i + 1 :=
      ⟨q.length - 1, by have := List.length_pos_of_ne_nil hne; omega⟩
    have hq : q = key.take (i + 1) := by
      rw [← hi]
      exact List.prefix_iff_eq_take.mp hprefix
    have hlt : i < key.length := by
      have := hprefix.length_le
      omega
    rw [hq]
    exact h i (List.mem_range.mpr hlt)
  · intro h i hi
    have hlt := List.mem_range.mp hi
    refine h _ (List.take_prefix _ _) fun hnil => ?_
    have hlength := congrArg List.length hnil
    simp only [List.length_take, List.length_nil] at hlength
    omega

namespace Sound

variable (h : Sound fold d)

include h

/-- What a path leads through is a directory. -/
theorem dir_of_prefix {q : RelPath} (hget : Dict.get d key = some (name, node)) (hq : q <+: key)
    (hne : q ≠ key) (hnil : q ≠ []) : ∃ n, Dict.get d q = some (n, .dir) := by
  induction key using List.reverseRecOn generalizing name node with
  | nil => exact absurd (List.prefix_nil.mp hq) hnil
  | append_singleton key n ih =>
    obtain ⟨above, hkey, habove⟩ := h.inside _ _ _ hget
    obtain ⟨rfl, -⟩ := List.append_inj' hkey rfl
    have hbelow : q <+: key := by
      rcases List.prefix_concat_iff.mp hq with rfl | hprefix
      · exact absurd rfl hne
      · exact hprefix
    rcases habove with rfl | ⟨n', hdir⟩
    · exact absurd (List.prefix_nil.mp hbelow) hnil
    · by_cases heq : q = key
      · exact heq ▸ ⟨n', hdir⟩
      · exact ih hdir hbelow heq

/-- What is on the way to an entry is an entry. -/
theorem get_of_prefix {q : RelPath} (hget : Dict.get d key = some (name, node)) (hq : q <+: key)
    (hnil : q ≠ []) : ∃ n node', Dict.get d q = some (n, node') := by
  by_cases hne : q = key
  · exact hne ▸ ⟨name, node, hget⟩
  · obtain ⟨n, hdir⟩ := h.dir_of_prefix hget hq hne hnil
    exact ⟨n, .dir, hdir⟩

/-- A path is folded from its spelling. -/
theorem map_fold_spelled (hget : Dict.get d key = some (name, node)) :
    (spelled d key).map fold = key := by
  induction key using List.reverseRecOn generalizing name node with
  | nil => rfl
  | append_singleton key n ih =>
    obtain ⟨above, hkey, habove⟩ := h.inside _ _ _ hget
    obtain ⟨rfl, hn⟩ := List.append_inj' hkey rfl
    rw [spelled_concat, List.map_append, List.map_singleton, stored_of_get hget, ← hn]
    rcases habove with rfl | ⟨n', hdir⟩
    · rfl
    · rw [ih hdir]

/-- The path of an entry has a last name. -/
theorem key_eq (hget : Dict.get d key = some (name, node)) :
    key = key.dropLast ++ [fold name] := by
  obtain ⟨above, hkey, -⟩ := h.inside _ _ _ hget
  rw [hkey, List.dropLast_concat]

theorem isDirAt_dropLast (hget : Dict.get d key = some (name, node)) :
    isDirAt d key.dropLast = true := by
  obtain ⟨above, hkey, habove⟩ := h.inside _ _ _ hget
  rw [hkey, List.dropLast_concat]
  rcases habove with rfl | ⟨n, hdir⟩
  · rfl
  · simp [isDirAt, hdir]

end Sound

/-! ## What an operation changes -/

theorem isDirAt_iff : isDirAt d key = true ↔ key = [] ∨ ∃ n, Dict.get d key = some (n, .dir) := by
  rw [isDirAt, Bool.or_eq_true, decide_eq_true_eq]
  refine or_congr_right ?_
  split
  next n hdir => simp [hdir]
  next hother => simpa using hother

/-- What is put into a directory, and not in place of one, leaves a directory tree. -/
theorem Sound.set (h : Sound fold d) (hinside : isDirAt d above = true)
    (hdir : isDirAt d (above ++ [fold name]) = false) :
    Sound fold (Dict.set d (above ++ [fold name]) (name, node)) where
  nodup := Dict.nodup_set h.nodup _ _
  inside := by
    -- a directory that was there still is
    have hkeep : ∀ q n, Dict.get d q = some (n, .dir) →
        Dict.get (Dict.set d (above ++ [fold name]) (name, node)) q = some (n, .dir) := by
      intro q n hq
      have hne : q ≠ above ++ [fold name] := by
        rintro rfl
        rw [Bool.eq_false_iff, Ne, isDirAt_iff] at hdir
        exact hdir (Or.inr ⟨n, hq⟩)
      rw [Dict.get_set, if_neg hne, hq]
    intro q n node' hget
    rw [Dict.get_set] at hget
    split at hget
    next hq =>
      cases hget
      refine ⟨above, hq, ?_⟩
      rcases isDirAt_iff.mp hinside with hnil | ⟨n', hn'⟩
      · exact Or.inl hnil
      · exact Or.inr ⟨n', hkeep _ _ hn'⟩
    next hq =>
      obtain ⟨above', hkey, habove⟩ := h.inside _ _ _ hget
      refine ⟨above', hkey, habove.imp_right ?_⟩
      rintro ⟨n', hn'⟩
      exact ⟨n', hkeep _ _ hn'⟩

/-- What `os.makedirs` does: it keeps what there is, and adds directories on the path. -/
structure MadeDirs (fold : FileName → FileName) (above path : RelPath) (d d' : Entries) : Prop where
  sound : Sound fold d'
  kept : ∀ key entry, Dict.get d key = some entry → Dict.get d' key = some entry
  added : ∀ key entry, Dict.get d' key = some entry → Dict.get d key = some entry ∨
    ∃ before n after, path = before ++ n :: after ∧
      key = above ++ (before ++ [n]).map fold ∧ entry = (n, .dir)

theorem makeDirs_spec (h : Sound fold d) (habove : isDirAt d above = true) (path : RelPath) :
    MadeDirs fold above path d (makeDirs fold above path d).2 := by
  induction path generalizing above d with
  | nil => exact ⟨h, fun _ _ hget => hget, fun _ _ hget => Or.inl hget⟩
  | cons name rest ih =>
    -- what is added below this directory is added on the path
    have hlift : ∀ {d₁ d₂ : Entries}, MadeDirs fold (above ++ [fold name]) rest d₁ d₂ →
        ∀ key entry, Dict.get d₂ key = some entry → Dict.get d₁ key = some entry ∨
          ∃ before n after, name :: rest = before ++ n :: after ∧
            key = above ++ (before ++ [n]).map fold ∧ entry = (n, .dir) := by
      intro d₁ d₂ hmade key entry hget
      refine (hmade.added key entry hget).imp_right ?_
      rintro ⟨before, n, after, rfl, rfl, rfl⟩
      exact ⟨name :: before, n, after, rfl, by simp, rfl⟩
    rw [makeDirs]
    split
    · next hnone =>
      have hfree : isDirAt d (above ++ [fold name]) = false := by
        rw [Bool.eq_false_iff, Ne, isDirAt_iff]
        simp [hnone]
      have hset : Sound fold (Dict.set d (above ++ [fold name]) (name, .dir)) :=
        h.set habove hfree
      have hdir : isDirAt (Dict.set d (above ++ [fold name]) (name, .dir))
          (above ++ [fold name]) = true := by
        rw [isDirAt_iff]
        exact Or.inr ⟨name, by simp⟩
      have hmade := ih hset hdir
      refine ⟨hmade.sound, fun key entry hget => hmade.kept key entry ?_, fun key entry hget => ?_⟩
      · rw [Dict.get_set, if_neg, hget]
        rintro rfl
        rw [hnone] at hget
        cases hget
      · rcases hlift hmade key entry hget with hold | hnew
        · rw [Dict.get_set] at hold
          split at hold
          · next hkey =>
            exact Or.inr ⟨[], name, rest, rfl, by simp [hkey], by simpa using hold.symm⟩
          · exact Or.inl hold
        · exact Or.inr hnew
    · next n hdir =>
      have hbelow : isDirAt d (above ++ [fold name]) = true := isDirAt_iff.mpr (Or.inr ⟨n, hdir⟩)
      have hmade := ih h hbelow
      exact ⟨hmade.sound, hmade.kept, hlift hmade⟩
    · exact ⟨h, fun _ _ hget => hget, fun _ _ hget => Or.inl hget⟩

/-- A directory that `os.makedirs` did not fail on is there. -/
theorem isDirAt_makeDirs (h : Sound fold d) (habove : isDirAt d above = true) (path : RelPath)
    (hreturns : (makeDirs fold above path d).1 ≠ none) :
    isDirAt (makeDirs fold above path d).2 (above ++ path.map fold) = true := by
  induction path generalizing above d with
  | nil => simpa [makeDirs] using habove
  | cons name rest ih =>
    have hpath : above ++ (name :: rest).map fold = above ++ [fold name] ++ rest.map fold := by simp
    rw [hpath]
    rcases hget : Dict.get d (above ++ [fold name]) with - | ⟨n, ⟨content, mtime⟩ | -⟩
    · have hfree : isDirAt d (above ++ [fold name]) = false := by
        rw [Bool.eq_false_iff, Ne, isDirAt_iff]
        simp [hget]
      simp only [makeDirs, hget] at hreturns ⊢
      exact ih (h.set habove hfree) (isDirAt_iff.mpr (Or.inr ⟨name, by simp⟩)) hreturns
    · simp [makeDirs, hget] at hreturns
    · simp only [makeDirs, hget] at hreturns ⊢
      exact ih h (isDirAt_iff.mpr (Or.inr ⟨n, hget⟩)) hreturns

/-- What writing a file does: nothing, or the file is put where there is no directory, under the
name that is there or else the new one. -/
theorem writeFile_cases (hreturns : (writeFile env d key name content mtime).1 ≠ none) :
    isDirAt d key = false ∧ isDirAt d key.dropLast = true ∧
      (writeFile env d key name content mtime).2 = Dict.set d key
        (((Dict.get d key).map Prod.fst).getD name, .file content (env.stamp mtime)) := by
  rw [writeFile] at hreturns ⊢
  split at hreturns
  · exact absurd rfl hreturns
  · next hplace =>
    simp only [Bool.or_eq_true, Bool.not_eq_true', not_or, Bool.not_eq_true,
      Bool.not_eq_false] at hplace
    rw [hplace.1, hplace.2]
    simp only [Bool.not_true, Bool.or_self, Bool.false_eq_true, if_false]
    split at hreturns
    · simp
    · exact absurd rfl hreturns
    · exact absurd rfl hreturns

/-- Writing a file leaves a directory tree, also where it raises. -/
theorem Sound.writeFile (h : Sound fold d) (hkey : ∃ above, key = above ++ [fold name]) :
    Sound fold (writeFile env d key name content mtime).2 := by
  obtain ⟨above, rfl⟩ := hkey
  have hset : ∀ node, isDirAt d above = true → isDirAt d (above ++ [fold name]) = false →
      Sound fold (Dict.set d (above ++ [fold name])
        (((Dict.get d (above ++ [fold name])).map Prod.fst).getD name, node)) := by
    intro node hinside hdir
    cases hget : Dict.get d (above ++ [fold name]) with
    | none => exact h.set hinside hdir
    | some entry =>
      -- the name that is there folds to the same
      have hkey : above ++ [fold name] = (above ++ [fold name]).dropLast ++ [fold entry.1] :=
        h.key_eq hget
      rw [List.dropLast_concat] at hkey
      rw [hkey] at hdir ⊢
      exact h.set hinside hdir
  rw [Mirror.writeFile]
  split
  · exact h
  · next hplace =>
    simp only [Bool.or_eq_true, Bool.not_eq_true', not_or, Bool.not_eq_true, Bool.not_eq_false,
      List.dropLast_concat] at hplace
    split
    · exact hset _ hplace.2 hplace.1
    · exact h
    · exact hset _ hplace.2 hplace.1

/-- Every step leaves a directory tree, also where it raises. -/
theorem Sound.mirrorTask (h : Sound fold d) (task : Task) :
    Sound fold (mirrorTask fold env d task).2 := by
  cases task with
  | makedirs path => exact (makeDirs_spec h rfl path).sound
  | copy path name content mtime =>
    rw [Mirror.mirrorTask]
    have hkey : (path ++ [name]).map fold = path.map fold ++ [fold name] := by simp
    split
    · exact h
    · rw [copy2]
      split
      · exact h.writeFile ⟨_, rfl⟩
      · exact h.writeFile ⟨_, hkey⟩

/-! ## The walk over the source -/

variable {src : Entries} {path : RelPath}

theorem mem_dirs (h : Sound fold src) {dir : RelPath} :
    dir ∈ dirs src ↔ isDirAt src dir = true := by
  rw [dirs, List.mem_cons, isDirAt_iff, List.mem_filterMap]
  refine or_congr_right ⟨?_, ?_⟩
  · rintro ⟨⟨key, n, node⟩, hmem, hdir⟩
    split at hdir
    next hnode =>
      cases hdir
      obtain rfl : node = .dir := hnode
      exact ⟨n, Dict.get_of_mem h.nodup hmem⟩
    next => cases hdir
  · rintro ⟨n, hget⟩
    exact ⟨_, Dict.mem_of_get hget, if_pos rfl⟩

theorem mem_tasks_makedirs (h : Sound fold src) : .makedirs path ∈ tasks src ↔
    ∃ dir, isDirAt src dir = true ∧ path = spelled src dir := by
  rw [tasks, List.mem_flatMap]
  constructor
  · rintro ⟨dir, hdir, hmem⟩
    rcases List.mem_cons.mp hmem with heq | hcopy
    · exact ⟨dir, (mem_dirs h).mp hdir, Task.makedirs.inj heq⟩
    · obtain ⟨⟨key, n, node⟩, -, hsome⟩ := List.mem_filterMap.mp hcopy
      cases node with
      | dir => cases hsome
      | file c m =>
        dsimp only at hsome
        split at hsome <;> cases hsome
  · rintro ⟨dir, hdir, rfl⟩
    exact ⟨dir, (mem_dirs h).mpr hdir, List.mem_cons_self⟩

theorem mem_tasks_copy (h : Sound fold src) : .copy path name content mtime ∈ tasks src ↔
    ∃ key, Dict.get src key = some (name, .file content mtime) ∧
      path = spelled src key.dropLast := by
  rw [tasks, List.mem_flatMap]
  constructor
  · rintro ⟨dir, -, hmem⟩
    rcases List.mem_cons.mp hmem with heq | hcopy
    · cases heq
    · obtain ⟨⟨key, n, node⟩, hentry, hsome⟩ := List.mem_filterMap.mp hcopy
      cases node with
      | dir => cases hsome
      | file c m =>
        dsimp only at hsome
        split at hsome
        · next hdir =>
          cases hsome
          exact ⟨key, Dict.get_of_mem h.nodup hentry, by rw [hdir]⟩
        · cases hsome
  · rintro ⟨key, hget, rfl⟩
    refine ⟨key.dropLast, (mem_dirs h).mpr (h.isDirAt_dropLast hget), List.mem_cons_of_mem _ ?_⟩
    exact List.mem_filterMap.mpr ⟨_, Dict.mem_of_get hget, by simp⟩

/-- The path of a file as it is copied. -/
theorem spelled_eq (h : Sound fold src) (hget : Dict.get src key = some (name, node)) :
    spelled src key = spelled src key.dropLast ++ [name] := by
  have hkey := h.key_eq hget
  calc spelled src key = spelled src (key.dropLast ++ [fold name]) := by rw [← hkey]
    _ = spelled src key.dropLast ++ [stored src key] := by rw [spelled_concat, ← hkey]
    _ = spelled src key.dropLast ++ [name] := by rw [stored_of_get hget]

theorem mem_expected (h : Sound fold src) : path ∈ expected src ↔
    ∃ key name content mtime, Dict.get src key = some (name, .file content mtime) ∧
      path = spelled src key := by
  rw [expected, List.mem_filterMap]
  constructor
  · rintro ⟨task, htask, hsome⟩
    cases task with
    | makedirs path => cases hsome
    | copy path' name content mtime =>
      obtain ⟨key, hget, rfl⟩ := (mem_tasks_copy h).mp htask
      exact ⟨key, name, content, mtime, hget, by rw [spelled_eq h hget]; simpa using hsome.symm⟩
  · rintro ⟨key, name, content, mtime, hget, rfl⟩
    exact ⟨.copy (spelled src key.dropLast) name content mtime,
      (mem_tasks_copy h).mpr ⟨key, hget, rfl⟩, by rw [spelled_eq h hget]⟩

/-- What is on the way to a directory of the source is one of its directories. -/
theorem src_dir_of_spelled (h : Sound fold src) {dir before after : RelPath} {n : FileName}
    (hdir : isDirAt src dir = true) (hpath : spelled src dir = before ++ n :: after) :
    Dict.get src ((before ++ [n]).map fold) = some (n, .dir) := by
  rcases isDirAt_iff.mp hdir with rfl | ⟨x, hget⟩
  · exact absurd hpath (by simp)
  have hfolded := h.map_fold_spelled hget
  have hq : (before ++ [n]).map fold <+: dir := by
    rw [← hfolded, hpath]
    exact ⟨after.map fold, by simp⟩
  obtain ⟨y, hy⟩ : ∃ y, Dict.get src ((before ++ [n]).map fold) = some (y, .dir) := by
    by_cases heq : (before ++ [n]).map fold = dir
    · exact heq ▸ ⟨x, hget⟩
    · exact h.dir_of_prefix hget hq heq (by simp)
  -- the name there is the one on the way
  have hlength : before.length < dir.length := by
    have := hq.length_le
    simp only [List.length_map, List.length_append, List.length_singleton] at this
    omega
  have htake : dir.take (before.length + 1) = (before ++ [n]).map fold := by
    rw [List.prefix_iff_eq_take.mp hq]
    simp
  have hnth : (spelled src dir)[before.length]? = some y := by
    rw [spelled, List.getElem?_map, List.getElem?_range hlength, Option.map_some, htake,
      stored_of_get hy]
  rw [hpath, List.getElem?_append_right le_rfl, Nat.sub_self, List.getElem?_cons_zero,
    Option.some_inj] at hnth
  rw [hy, hnth]

/-! ## What the walk leads to -/

/-- The content of the file at a path. -/
def contentAt (d : Entries) (key : RelPath) : Option (List UInt8) :=
  match Dict.get d key with
  | some (_, .file content _) => some content
  | _ => none

/-- The content that a file of the source leads to in the mirror: what is there where that has its
size and its whole-second mtime, nothing in place of a directory. -/
def leadsTo (dst : Entries) (key : RelPath) (content : List UInt8) (mtime : ℚ) :
    Option (List UInt8) :=
  match Dict.get dst key with
  | some (_, .dir) => none
  | some (_, .file old time) =>
    if old.length = content.length ∧ wholeSecond time = wholeSecond mtime then some old
    else some content
  | none => some content

/-- Along the walk: what the mirror had keeps its name and its kind, what is new has the name of the
source, and a file of the source is not copied yet or has its content. -/
structure Walked (fold : FileName → FileName) (src dst d : Entries) : Prop where
  sound : Sound fold d
  kept : ∀ key name node, Dict.get dst key = some (name, node) →
    ∃ node', Dict.get d key = some (name, node') ∧ (node = .dir ↔ node' = .dir)
  named : ∀ key name node name' node', Dict.get src key = some (name, node) →
    Dict.get dst key = none → Dict.get d key = some (name', node') → name' = name
  copied : ∀ key name content mtime, Dict.get src key = some (name, .file content mtime) →
    Dict.get d key = Dict.get dst key ∨
      contentAt d key = some content ∧ leadsTo dst key content mtime = some content

theorem Walked.refl {dst : Entries} (h : Sound fold dst) : Walked fold src dst dst where
  sound := h
  kept key name node hget := ⟨node, hget, Iff.rfl⟩
  named key name node name' node' _ hnone hget := by
    rw [hnone] at hget
    cases hget
  copied _ _ _ _ _ := Or.inl rfl

/-- What a step of the walk does that does not raise. -/
inductive Stepped (fold : FileName → FileName) (src d : Entries) : Task → Entries → Prop
  /-- Directories of the source are added. -/
  | made {path : RelPath} {d' : Entries}
      (hkept : ∀ key entry, Dict.get d key = some entry → Dict.get d' key = some entry)
      (hadded : ∀ key entry, Dict.get d' key = some entry → Dict.get d key = some entry ∨
        ∃ n, Dict.get src key = some (n, .dir) ∧ entry = (n, .dir))
      (hthere : isDirAt d' (path.map fold) = true) : Stepped fold src d (.makedirs path) d'
  /-- A file is current. -/
  | current {path key : RelPath} {name : FileName} {content : List UInt8} {mtime : ℚ}
      (hsrc : Dict.get src key = some (name, .file content mtime))
      (hpath : path = spelled src key.dropLast)
      (hcurrent : leadsTo d key content mtime = contentAt d key) :
      Stepped fold src d (.copy path name content mtime) d
  /-- A file is written where there is no directory. -/
  | wrote {path key : RelPath} {name : FileName} {content : List UInt8} {mtime time : ℚ}
      (hsrc : Dict.get src key = some (name, .file content mtime))
      (hpath : path = spelled src key.dropLast) (hdir : isDirAt d key = false)
      (hleads : leadsTo d key content mtime = some content) :
      Stepped fold src d (.copy path name content mtime) (Dict.set d key
        (((Dict.get d key).map Prod.fst).getD name, .file content time))
  /-- A file is written into the directory that has its name. -/
  | astray {path key : RelPath} {name : FileName} {content : List UInt8} {mtime time : ℚ}
      (hsrc : Dict.get src key = some (name, .file content mtime))
      (hpath : path = spelled src key.dropLast) (hdir : isDirAt d key = true)
      (hinner : isDirAt d (key ++ [fold name]) = false) :
      Stepped fold src d (.copy path name content mtime) (Dict.set d (key ++ [fold name])
        (((Dict.get d (key ++ [fold name])).map Prod.fst).getD name, .file content time))

theorem stepped (hsrc : Sound fold src) (h : Sound fold d) {task : Task} (htask : task ∈ tasks src)
    (hreturns : (mirrorTask fold env d task).1 ≠ none) :
    Stepped fold src d task (mirrorTask fold env d task).2 := by
  cases task with
  -- what is made is a directory of the source
  | makedirs path =>
    obtain ⟨dir, hdir, rfl⟩ := (mem_tasks_makedirs hsrc).mp htask
    have hroot : isDirAt d [] = true := rfl
    have hmade := makeDirs_spec h hroot (spelled src dir)
    refine .made hmade.kept (fun key entry hget => ?_) ?_
    · refine (hmade.added key entry hget).imp_right ?_
      rintro ⟨before, n, after, hpath, rfl, rfl⟩
      exact ⟨n, src_dir_of_spelled hsrc hdir hpath, rfl⟩
    · exact isDirAt_makeDirs h hroot _ hreturns
  | copy path name content mtime =>
    obtain ⟨key, hget, rfl⟩ := (mem_tasks_copy hsrc).mp htask
    have hkey : (spelled src key.dropLast ++ [name]).map fold = key := by
      rw [← spelled_eq hsrc hget, hsrc.map_fold_spelled hget]
    rw [Mirror.mirrorTask] at hreturns ⊢
    simp only [hkey] at hreturns ⊢
    split at hreturns
    · next hcurrent =>
      rw [if_pos hcurrent]
      refine .current hget rfl ?_
      rw [isCurrent] at hcurrent
      rw [leadsTo, contentAt]
      split at hcurrent
      · next n node hnode =>
        cases node with
        | dir => simp [hnode]
        | file old time =>
          simp only [Node.stamp, decide_eq_true_eq, Prod.mk.injEq] at hcurrent
          simp [hnode, hcurrent]
      · exact absurd hcurrent (by simp)
    · next hcurrent =>
      rw [if_neg hcurrent]
      rw [copy2] at hreturns ⊢
      split at hreturns
      · next hdir =>
        obtain ⟨hinner, -, hset⟩ := writeFile_cases hreturns
        rw [if_pos hdir, hset]
        -- a directory of this name takes the file inside
        exact .astray hget rfl hdir hinner
      · next hdir =>
        obtain ⟨hfree, -, hset⟩ := writeFile_cases hreturns
        rw [if_neg hdir, hset]
        refine .wrote hget rfl hfree ?_
        rw [isCurrent] at hcurrent
        rw [leadsTo]
        rcases hnode : Dict.get d key with - | ⟨n, ⟨old, time⟩ | -⟩
        · rfl
        · simp only [hnode, Node.stamp, decide_eq_true_eq, Prod.mk.injEq] at hcurrent
          simp [hcurrent]
        · simp [isDirAt, hnode] at hfree

/-- There is nothing below a file. -/
theorem Sound.not_below (h : Sound fold d)
    (hget : Dict.get d key = some (name, .file content mtime))
    (n : FileName) : Dict.get d (key ++ [n]) = none := by
  by_contra hne
  obtain ⟨⟨name', node⟩, hsome⟩ := Option.ne_none_iff_exists'.mp hne
  have hinside := h.isDirAt_dropLast hsome
  rw [List.dropLast_concat, isDirAt_iff] at hinside
  rcases hinside with rfl | ⟨n', hdir⟩
  · have hkey := h.key_eq hget
    exact absurd hkey (by simp)
  · rw [hget] at hdir
    cases hdir

/-- A directory stays one along the walk. -/
theorem Stepped.dir_kept {task : Task} (h : Stepped fold src d task d')
    (hdir : isDirAt d key = true) : isDirAt d' key = true := by
  have hset : ∀ {q : RelPath} {entry : FileName × Node}, isDirAt d q = false →
      isDirAt (Dict.set d q entry) key = true := by
    intro q entry hfree
    have hne : key ≠ q := by
      rintro rfl
      rw [hdir] at hfree
      cases hfree
    rw [isDirAt_iff] at hdir ⊢
    rwa [Dict.get_set, if_neg hne]
  cases h with
  | made hkept _ _ =>
    rw [isDirAt_iff] at hdir ⊢
    exact hdir.imp_right fun ⟨n, hn⟩ => ⟨n, hkept _ _ hn⟩
  | current _ _ _ => exact hdir
  | wrote _ _ hfree _ => exact hset hfree
  | astray _ _ _ hfree => exact hset hfree

/-- What a step does at a path of the source: nothing, a directory is made, or the file is
written. -/
theorem Stepped.get_src (hsrc : Sound fold src) {task : Task} (h : Stepped fold src d task d')
    (hget : Dict.get src key = some (name, node)) :
    Dict.get d' key = Dict.get d key ∨
      (Dict.get d key = none ∧ node = .dir ∧ Dict.get d' key = some (name, .dir)) ∨
      ∃ content mtime time, node = .file content mtime ∧ isDirAt d key = false ∧
        leadsTo d key content mtime = some content ∧ Dict.get d' key =
          some (((Dict.get d key).map Prod.fst).getD name, .file content time) := by
  cases h with
  | made hkept hadded _ =>
    rcases hold : Dict.get d key with - | entry
    · rcases hnew : Dict.get d' key with - | entry
      · exact Or.inl rfl
      · rcases hadded _ _ hnew with hd | ⟨n, hdir, rfl⟩
        · rw [hold] at hd
          cases hd
        · rw [hget] at hdir
          cases hdir
          exact Or.inr (Or.inl ⟨rfl, rfl, rfl⟩)
    · exact Or.inl (hkept _ _ hold)
  | current _ _ _ => exact Or.inl rfl
  | @wrote path key' name' content mtime time hfile hpath hfree hleads =>
    by_cases hkey : key = key'
    · subst hkey
      rw [hget] at hfile
      cases hfile
      exact Or.inr (Or.inr ⟨content, mtime, time, rfl, hfree, hleads, by simp⟩)
    · exact Or.inl (by rw [Dict.get_set, if_neg hkey])
  | @astray path key' name' content mtime time hfile hpath hdir hinner =>
    refine Or.inl ?_
    rw [Dict.get_set, if_neg]
    rintro rfl
    rw [hsrc.not_below hfile] at hget
    cases hget

theorem contentAt_congr (h : Dict.get d' key = Dict.get d key) :
    contentAt d' key = contentAt d key := by
  rw [contentAt, contentAt, h]

theorem leadsTo_congr (h : Dict.get d' key = Dict.get d key) :
    leadsTo d' key content mtime = leadsTo d key content mtime := by
  rw [leadsTo, leadsTo, h]

/-- What a file leads to in the mirror as it is now, it has led to from the start. -/
theorem Walked.leadsTo {dst : Entries} (hw : Walked fold src dst d)
    (hget : Dict.get src key = some (name, .file content mtime))
    (hleads : leadsTo d key content mtime = some content) :
    leadsTo dst key content mtime = some content := by
  rcases hw.copied key name content mtime hget with hold | ⟨-, hleads'⟩
  · rwa [← leadsTo_congr hold]
  · exact hleads'

/-- Every step keeps what is true along the walk. -/
theorem Walked.step {dst : Entries} (hsrc : Sound fold src) (hw : Walked fold src dst d)
    {task : Task} (h : Stepped fold src d task d') (hsound : Sound fold d') :
    Walked fold src dst d' where
  sound := hsound
  kept := by
    intro key name node hget
    obtain ⟨node', hd, hkind⟩ := hw.kept key name node hget
    -- a file that is written keeps the name and stays a file
    have hset : ∀ {q : RelPath} {n : FileName} {c : List UInt8} {m : ℚ},
        isDirAt d q = false → ∃ node'', Dict.get (Dict.set d q
          (((Dict.get d q).map Prod.fst).getD n, .file c m)) key = some (name, node'') ∧
            (node = .dir ↔ node'' = .dir) := by
      intro q n c m hfree
      rw [Dict.get_set]
      by_cases hkey : key = q
      · subst hkey
        refine ⟨.file c m, by simp [hd], ?_⟩
        rw [hkind]
        refine iff_of_false (fun hdir => ?_) (by simp)
        rw [Bool.eq_false_iff, Ne, isDirAt_iff] at hfree
        exact hfree (Or.inr ⟨name, hdir ▸ hd⟩)
      · exact ⟨node', by rw [if_neg hkey, hd], hkind⟩
    cases h with
    | made hkept _ _ => exact ⟨node', hkept _ _ hd, hkind⟩
    | current _ _ _ => exact ⟨node', hd, hkind⟩
    | wrote _ _ hfree _ => exact hset hfree
    | astray _ _ _ hfree => exact hset hfree
  named := by
    intro key name node name' node' hget hnone hd'
    rcases h.get_src hsrc hget with hsame | ⟨-, -, hmade⟩ | ⟨c, m, time, -, -, -, hwrote⟩
    · exact hw.named key name node name' node' hget hnone (hsame ▸ hd')
    · rw [hmade] at hd'
      cases hd'
      rfl
    · rw [hwrote] at hd'
      cases hd'
      rcases hold : Dict.get d key with - | ⟨x, node'⟩
      · rfl
      · exact hw.named key name node x node' hget hnone hold
  copied := by
    intro key name content mtime hget
    rcases h.get_src hsrc hget with hsame | ⟨-, hdir, -⟩ | ⟨c, m, time, hfile, -, hleads, hwrote⟩
    · rcases hw.copied key name content mtime hget with hold | ⟨hcontent, hleads⟩
      · exact Or.inl (hsame.trans hold)
      · exact Or.inr ⟨(contentAt_congr hsame).trans hcontent, hleads⟩
    · cases hdir
    · cases hfile
      exact Or.inr ⟨by simp [contentAt, hwrote], hw.leadsTo hget hleads⟩

variable {dst : Entries}

/-- What a step has brought about: the directory is there, the file has the content it leads to. -/
def Settled (fold : FileName → FileName) (src dst : Entries) (task : Task) (d : Entries) : Prop :=
  match task with
  | .makedirs path => isDirAt d (path.map fold) = true
  | .copy path name content mtime => ∀ key,
    Dict.get src key = some (name, .file content mtime) → path = spelled src key.dropLast →
      contentAt d key = leadsTo dst key content mtime

/-- A file is settled by being written. -/
theorem contentAt_of_wrote (hw : Walked fold src dst d) {time : ℚ} {name' : FileName}
    (hget : Dict.get src key = some (name, .file content mtime))
    (hleads : leadsTo d key content mtime = some content)
    (hwrote : Dict.get d' key = some (name', .file content time)) :
    contentAt d' key = leadsTo dst key content mtime := by
  rw [hw.leadsTo hget hleads, contentAt, hwrote]

theorem Settled.step (hsrc : Sound fold src) (hw : Walked fold src dst d) {task : Task}
    (h : Stepped fold src d task d') : Settled fold src dst task d' := by
  -- the path of a step determines the file
  have hsame : ∀ {key key' : RelPath} {name : FileName} {content : List UInt8} {mtime : ℚ},
      Dict.get src key = some (name, .file content mtime) →
      Dict.get src key' = some (name, .file content mtime) →
      spelled src key.dropLast = spelled src key'.dropLast → key' = key := by
    intro key key' name content mtime hget hget' hpath
    rw [← hsrc.map_fold_spelled hget, ← hsrc.map_fold_spelled hget', spelled_eq hsrc hget,
      spelled_eq hsrc hget', hpath]
  cases h with
  | made _ _ hthere => exact hthere
  | current hfile hpath hcurrent =>
    intro key hget hpath'
    obtain rfl := hsame hfile hget (hpath.symm.trans hpath')
    rcases hw.copied _ _ _ _ hget with hold | ⟨hcontent, hleads⟩
    · rw [← hcurrent, leadsTo_congr hold]
    · rw [hcontent, hleads]
  | wrote hfile hpath hfree hleads =>
    intro key hget hpath'
    obtain rfl := hsame hfile hget (hpath.symm.trans hpath')
    exact contentAt_of_wrote hw hget hleads (by rw [Dict.get_set, if_pos rfl])
  | @astray _ _ name _ _ _ hfile hpath hdir _ =>
    intro key hget hpath'
    obtain rfl := hsame hfile hget (hpath.symm.trans hpath')
    -- there is a directory in place of the file, as there was at the start
    have hne : key ≠ key ++ [fold name] := by simp
    rw [contentAt_congr (by rw [Dict.get_set, if_neg hne])]
    rcases isDirAt_iff.mp hdir with rfl | ⟨n, hn⟩
    · exact absurd (hsrc.key_eq hget) (by simp)
    · rcases hw.copied _ _ _ _ hget with hold | ⟨hcontent, -⟩
      · rw [← leadsTo_congr hold]
        simp [contentAt, Mirror.leadsTo, hn]
      · rw [contentAt, hn] at hcontent
        cases hcontent

theorem Settled.kept (hsrc : Sound fold src) (hw : Walked fold src dst d) {task task' : Task}
    (hsettled : Settled fold src dst task d) (h : Stepped fold src d task' d') :
    Settled fold src dst task d' := by
  cases task with
  | makedirs path => exact h.dir_kept hsettled
  | copy path name content mtime =>
    intro key hget hpath
    rcases h.get_src hsrc hget with hsame | ⟨-, hdir, -⟩ | ⟨c, m, time, hfile, -, hleads, hwrote⟩
    · exact (contentAt_congr hsame).trans (hsettled key hget hpath)
    · cases hdir
    · cases hfile
      exact contentAt_of_wrote hw hget hleads hwrote

/-- A walk that returns. -/
structure Mirrored (fold : FileName → FileName) (src dst d : Entries) : Prop where
  walked : Walked fold src dst d
  dirs : ∀ dir, isDirAt src dir = true → isDirAt d dir = true
  files : ∀ key name content mtime, Dict.get src key = some (name, .file content mtime) →
    contentAt d key = leadsTo dst key content mtime

theorem mirrored (hsrc : Sound fold src) (hdst : Sound fold dst)
    (hreturns : (runPass (mirrorTask fold env) (tasks src) dst).1 ≠ none) :
    Mirrored fold src dst (runPass (mirrorTask fold env) (tasks src) dst).2 := by
  have hwalk : ∀ task ∈ tasks src, ∀ d, Walked fold src dst d →
      (mirrorTask fold env d task).1 ≠ none →
        Walked fold src dst (mirrorTask fold env d task).2 := fun task htask d hw hreturns =>
    hw.step hsrc (stepped hsrc hw.sound htask hreturns) (hw.sound.mirrorTask task)
  have hsettled : ∀ task ∈ tasks src, Settled fold src dst task
      (runPass (mirrorTask fold env) (tasks src) dst).2 :=
    over_establishes (I := Walked fold src dst) hwalk
      (fun task htask d hw hreturns => .step hsrc hw (stepped hsrc hw.sound htask hreturns))
      (fun task task' htask d hw hreturns hsettled =>
        hsettled.kept hsrc hw (stepped hsrc hw.sound htask hreturns))
      (.refl hdst) hreturns
  refine ⟨over_invariant_of_returns hwalk (.refl hdst) hreturns, fun dir hdir => ?_,
    fun key name content mtime hget => ?_⟩
  · have hthere := hsettled _ ((mem_tasks_makedirs hsrc).mpr ⟨dir, hdir, rfl⟩)
    rcases isDirAt_iff.mp hdir with rfl | ⟨n, hn⟩
    · rfl
    · rwa [Settled, hsrc.map_fold_spelled hn] at hthere
  · exact hsettled _ ((mem_tasks_copy hsrc).mpr ⟨key, hget, rfl⟩) key hget rfl

/-! ## The mirror and its source -/

/-- There is a file with the content under the path, as it is spelled. -/
def Holds (d : Entries) (path : RelPath) (content : List UInt8) : Prop :=
  ∃ key name mtime, Dict.get d key = some (name, .file content mtime) ∧ spelled d key = path

/-- The same files with the same contents. -/
def Same (d src : Entries) : Prop := ∀ path content, Holds d path content ↔ Holds src path content

/-- The mirror is fit for a file of the source: what it has on the way to the file, and there, is
spelled as in the source, it has no directory there, and a file there that has the size and the
whole-second mtime has the content. -/
structure FitsAt (src dst : Entries) (key : RelPath) (content : List UInt8) (mtime : ℚ) : Prop where
  spelling : ∀ q, q <+: key → ∀ name node, Dict.get dst q = some (name, node) → name = stored src q
  notDir : isDirAt dst key = false
  current : ∀ name old time, Dict.get dst key = some (name, .file old time) →
    old.length = content.length → wholeSecond time = wholeSecond mtime → old = content

/-- The mirror is fit for every file of the source. -/
def Fits (src dst : Entries) : Prop :=
  ∀ key name content mtime, Dict.get src key = some (name, .file content mtime) →
    FitsAt src dst key content mtime

theorem leadsTo_eq_some_iff (hkey : key ≠ []) : leadsTo dst key content mtime = some content ↔
    isDirAt dst key = false ∧ ∀ name old time, Dict.get dst key = some (name, .file old time) →
      old.length = content.length → wholeSecond time = wholeSecond mtime → old = content := by
  rw [leadsTo]
  rcases hget : Dict.get dst key with - | ⟨n, ⟨old, time⟩ | -⟩
  · simp [isDirAt, hget, hkey]
  · simp only [isDirAt, hget, hkey, decide_false, Bool.or_self, true_and]
    constructor
    · intro h name old' time' heq hsize htime
      cases heq
      rw [if_pos ⟨hsize, htime⟩] at h
      exact Option.some_inj.mp h
    · intro h
      split
      · next hstamp => rw [h n old time rfl hstamp.1 hstamp.2]
      · rfl
  · simp [isDirAt, hget]

/-- After the walk the mirror has a file of the source, under its path, exactly when it was fit for
it. -/
theorem Mirrored.holds_iff (hsrc : Sound fold src) (hm : Mirrored fold src dst d)
    (hget : Dict.get src key = some (name, .file content mtime)) :
    (contentAt d key = some content ∧ spelled d key = spelled src key) ↔
      FitsAt src dst key content mtime := by
  have hkey : key ≠ [] := fun hnil => absurd (hsrc.key_eq hget) (by simp [hnil])
  rw [hm.files key name content mtime hget, leadsTo_eq_some_iff hkey, spelled_eq_iff]
  constructor
  · rintro ⟨⟨hdir, hcurrent⟩, hspelled⟩
    refine ⟨fun q hq n node hn => ?_, hdir, hcurrent⟩
    obtain ⟨node', hd, -⟩ := hm.walked.kept q n node hn
    have hnil : q ≠ [] := fun hnil => absurd (hm.walked.sound.key_eq hd) (by simp [hnil])
    rw [← hspelled q hq hnil, stored_of_get hd]
  · rintro ⟨hspelling, hdir, hcurrent⟩
    refine ⟨⟨hdir, hcurrent⟩, fun q hq hnil => ?_⟩
    obtain ⟨n, node, hn⟩ := hsrc.get_of_prefix hget hq hnil
    -- the walk has come to an entry there
    obtain ⟨n', node', hd⟩ : ∃ n' node', Dict.get d q = some (n', node') := by
      by_cases hqkey : q = key
      · subst hqkey
        have hcontent : contentAt d q = some content := by
          rw [hm.files q name content mtime hget, leadsTo_eq_some_iff hkey]
          exact ⟨hdir, hcurrent⟩
        rw [contentAt] at hcontent
        split at hcontent
        · next hd => exact ⟨_, _, hd⟩
        · cases hcontent
      · obtain ⟨n', hn'⟩ := hsrc.dir_of_prefix hget hq hqkey hnil
        rcases isDirAt_iff.mp (hm.dirs q (isDirAt_iff.mpr (Or.inr ⟨n', hn'⟩))) with rfl | ⟨x, hx⟩
        · exact absurd rfl hnil
        · exact ⟨x, _, hx⟩
    rw [stored_of_get hd]
    rcases hdst : Dict.get dst q with - | ⟨x, nodex⟩
    · rw [hm.walked.named q n node n' node' hn hdst hd, stored_of_get hn]
    · obtain ⟨node'', hd', -⟩ := hm.walked.kept q x nodex hdst
      rw [hd] at hd'
      cases hd'
      exact hspelling q hq _ _ hdst

section

variable {paths : List RelPath}

/-- The entries that are not removed. -/
def pruned (env : Env) (paths : List RelPath) (d : Entries) : Entries :=
  d.filter fun entry => !stale env paths d entry

theorem get_pruned (h : Sound fold d) (key : RelPath) : Dict.get (pruned env paths d) key =
    (Dict.get d key).filter fun value => !stale env paths d (key, value) :=
  Dict.get_filter h.nodup _

theorem get_pruned_dir (h : Sound fold d) (hget : Dict.get d key = some (name, .dir)) :
    Dict.get (pruned env paths d) key = some (name, .dir) := by
  rw [get_pruned h, hget]
  simp [stale]

theorem get_of_pruned {entry : FileName × Node} (h : Sound fold d)
    (hget : Dict.get (pruned env paths d) key = some entry) : Dict.get d key = some entry := by
  rw [get_pruned h, Option.filter_eq_some_iff] at hget
  exact hget.1

/-- The removal leaves a directory tree. -/
theorem Sound.pruned (h : Sound fold d) : Sound fold (pruned env paths d) where
  nodup := h.nodup.sublist (List.filter_sublist.map _)
  inside := by
    intro key name node hget
    obtain ⟨above, hkey, habove⟩ := h.inside _ _ _ (get_of_pruned h hget)
    exact ⟨above, hkey, habove.imp_right fun ⟨n, hn⟩ => ⟨n, get_pruned_dir h hn⟩⟩

/-- Where removals do not fail, the files that are left are those whose path is expected. -/
theorem holds_pruned_iff (h : Sound fold d) (hremove : ∀ key, env.removeFails key = false)
    {path : RelPath} :
    Holds (pruned env paths d) path content ↔ Holds d path content ∧ path ∈ paths := by
  -- what is left is spelled as before
  have hspelled : ∀ {key : RelPath} {entry : FileName × Node},
      Dict.get (pruned env paths d) key = some entry →
        spelled (pruned env paths d) key = spelled d key := by
    intro key entry hget
    rw [spelled_eq_iff]
    intro q hq hnil
    have hpruned : Sound fold (pruned env paths d) := h.pruned
    obtain ⟨n, node, hn⟩ := hpruned.get_of_prefix hget hq hnil
    rw [stored_of_get hn, stored_of_get (get_of_pruned h hn)]
  have hkept : ∀ {key : RelPath} {name : FileName} {mtime : ℚ},
      Dict.get (pruned env paths d) key = some (name, .file content mtime) ↔
        Dict.get d key = some (name, .file content mtime) ∧ spelled d key ∈ paths := by
    intro key name mtime
    rw [get_pruned h, Option.filter_eq_some_iff]
    simp [stale, hremove]
  constructor
  · rintro ⟨key, name, mtime, hget, rfl⟩
    rw [hspelled hget]
    obtain ⟨hd, hmem⟩ := hkept.mp hget
    exact ⟨⟨key, name, mtime, hd, rfl⟩, hmem⟩
  · rintro ⟨⟨key, name, mtime, hget, rfl⟩, hmem⟩
    have hleft := hkept.mpr ⟨hget, hmem⟩
    exact ⟨key, name, mtime, hleft, hspelled hleft⟩

end

/-- A walk that returns, and what is expected left of it: the mirror is the same as the source
exactly when it was fit for every file. -/
theorem Mirrored.same_iff (hsrc : Sound fold src) (hm : Mirrored fold src dst d)
    (hremove : ∀ key, env.removeFails key = false) :
    Same (pruned env (expected src) d) src ↔ Fits src dst := by
  have hsound := hm.walked.sound
  -- a path belongs to one folded path
  have hfile : ∀ {key : RelPath} {name : FileName} {content : List UInt8} {mtime : ℚ},
      Dict.get src key = some (name, .file content mtime) → ∀ content',
        Holds d (spelled src key) content' ↔
          contentAt d key = some content' ∧ spelled d key = spelled src key := by
    intro key name content mtime hget content'
    constructor
    · rintro ⟨key', name', mtime', hd, hpath⟩
      have hkey : key' = key := by
        rw [← hsound.map_fold_spelled hd, hpath, hsrc.map_fold_spelled hget]
      subst hkey
      exact ⟨by rw [contentAt, hd], hpath⟩
    · rintro ⟨hcontent, hpath⟩
      rw [contentAt] at hcontent
      split at hcontent
      · next hd =>
        cases hcontent
        exact ⟨key, _, _, hd, hpath⟩
      · cases hcontent
  constructor
  · intro hsame key name content mtime hget
    rw [← hm.holds_iff hsrc hget, ← hfile hget]
    have hholds := (hsame (spelled src key) content).mpr ⟨key, name, mtime, hget, rfl⟩
    exact ((holds_pruned_iff hsound hremove).mp hholds).1
  · intro hfits path content
    rw [holds_pruned_iff hsound hremove]
    constructor
    · rintro ⟨hholds, hmem⟩
      obtain ⟨key, name, content', mtime, hget, rfl⟩ := (mem_expected hsrc).mp hmem
      have hcontent := ((hm.holds_iff hsrc hget).mpr (hfits key name content' mtime hget)).1
      obtain rfl : content' = content := by
        rw [((hfile hget content).mp hholds).1, Option.some_inj] at hcontent
        exact hcontent.symm
      exact ⟨key, name, mtime, hget, rfl⟩
    · rintro ⟨key, name, mtime, hget, rfl⟩
      exact ⟨(hfile hget content).mpr ((hm.holds_iff hsrc hget).mpr (hfits key name content mtime
        hget)), (mem_expected hsrc).mpr ⟨key, name, content, mtime, hget, rfl⟩⟩

/-! ## Histories -/

/-- The source, and the mirror. -/
structure Pair (fold : FileName → FileName) where
  src : Tree fold
  dst : Tree fold

/-- What happens to them. -/
inductive Event (fold : FileName → FileName)
  /-- The source is edited, renamed in, deleted from: afterwards it is any directory tree. -/
  | edit (src : Tree fold)
  /-- A call of `_mirror_tree`. -/
  | mirror (env : Env)

theorem Sound.mirrorTree (hdst : Sound fold dst) : Sound fold (mirrorTree fold env src dst).2 := by
  have hwalk : Sound fold (runPass (Mirror.mirrorTask fold env) (tasks src) dst).2 :=
    over_invariant (I := Sound fold) (fun task _ d h => h.mirrorTask task) hdst
  rw [Mirror.mirrorTree]
  split
  next heq => rwa [heq] at hwalk
  next heq =>
    rw [heq] at hwalk
    split
    · exact hwalk
    · exact hwalk.pruned

/-- One event. -/
def step (s : Pair fold) : Event fold → Option (Pair fold)
  | .edit src => some { s with src }
  | .mirror env =>
    some { s with dst := ⟨(mirrorTree fold env s.src.entries s.dst.entries).2,
      s.dst.sound.mirrorTree⟩ }

/-- The call is one that the mirror is to be the same as the source after: it returns, the source
has a file, and no removal fails. -/
def Completes (env : Env) (src dst : Tree fold) : Prop :=
  (mirrorTree fold env src.entries dst.entries).1 ≠ none ∧ expected src.entries ≠ [] ∧
    ∀ key, env.removeFails key = false

/-- If the event is such a call, the mirror is the same as the source after it. -/
def Equals (s : Pair fold) : Event fold → Prop
  | .edit _ => True
  | .mirror env => Completes env s.src s.dst →
    Same (mirrorTree fold env s.src.entries s.dst.entries).2 s.src.entries

/-- If the event is such a call, the mirror is fit for every file of the source before it. -/
def FitBefore (s : Pair fold) : Event fold → Prop
  | .edit _ => True
  | .mirror env => Completes env s.src s.dst → Fits s.src.entries s.dst.entries

theorem equals_iff (s : Pair fold) (event : Event fold) : Equals s event ↔ FitBefore s event := by
  cases event with
  | edit src => exact Iff.rfl
  | mirror env =>
    refine forall_congr' fun ⟨hreturns, hfile, hremove⟩ => ?_
    rcases hwalk : runPass (mirrorTask fold env) (tasks s.src.entries) s.dst.entries with ⟨- | n, d⟩
    · exact absurd (by rw [mirrorTree, hwalk]) hreturns
    · have hm : Mirrored fold s.src.entries s.dst.entries
          (runPass (mirrorTask fold env) (tasks s.src.entries) s.dst.entries).2 :=
        mirrored s.src.sound s.dst.sound (by simp [hwalk])
      rw [hwalk] at hm
      have hresult : (mirrorTree fold env s.src.entries s.dst.entries).2 =
          pruned env (expected s.src.entries) d := by
        rw [mirrorTree, hwalk]
        simp only [if_neg hfile]
        rfl
      rw [hresult]
      exact hm.same_iff s.src.sound hremove

/-- The file system that folds ASCII letters to lower case. -/
def asciiFold (name : FileName) : FileName := name.map Char.toLower

/-- A directory with one file, of the given name. -/
def oneFile (name : FileName) : Tree asciiFold where
  entries := [([asciiFold name], name, .file [0x2F, 0x2F] 0)]
  sound := by
    refine ⟨List.nodup_singleton _, fun key name' node hget => ?_⟩
    rw [Dict.get_cons] at hget
    split at hget
    next hkey =>
      cases hget
      exact ⟨[], hkey.symm, Or.inl rfl⟩
    next => cases hget

/-- The empty directory. -/
def emptyTree : Tree asciiFold where
  entries := []
  sound := ⟨List.nodup_nil, fun _ _ _ hget => by cases hget⟩

/-- Nothing fails. -/
def calm : Env where
  dirStat _ := (0, 0)
  stamp time := time
  breaks _ := none
  removeFails _ := false

end Compile.Mirror

import Mathlib
import Mt5HttpApi.Lib.Text

/-!
# Paths of the file API and their access rules

`mt5api/fileapi/tree.py`: which paths a caller may send, and which of them are hidden or read-only.
The rules compare the lower-cased text of the caller's path with the tree's entries.

`key_segments_append` is what later modules use of the texts: the key of a longer path is the key
of a shorter one, a slash and more. By it a path under a read-only entry is read-only
(`isReadonly_of_le`), and a directory that may be deleted has nothing protected under it
(`checkDeletableDir_eq_ok`).
-/

namespace FileApi

open Text

/-- The name of a directory entry. -/
abbrev Name := List Char

/-- The names on the way from the top of the drive. -/
abbrev Path := List Name

/-- `str.lower`, by what holds of it for every text. -/
structure CaseFold where
  /-- The lower-case text. -/
  lower : List Char → List Char
  /-- A lower-case text stays as it is. -/
  lower_lower : ∀ text, lower (lower text) = lower text
  /-- Only the empty text has an empty one. -/
  lower_eq_nil : ∀ text, lower text = [] ↔ text = []
  /-- A slash has no case, and what a letter becomes does not depend on what is beyond one. -/
  lower_slash : ∀ a b, lower (a ++ '/' :: b) = lower a ++ '/' :: lower b

/-- Lower-casing of ASCII letters. -/
def CaseFold.ascii : CaseFold where
  lower text := text.map Char.toLower
  lower_lower text := by simp [Function.comp_def]
  lower_eq_nil text := by simp
  lower_slash a b := by
    rw [List.map_append, List.map_cons]
    rfl

/-- The failures of the file API. -/
inductive FileError
  /-- The message is the repr of `raw` and the problem. -/
  | invalidPath (raw : List Char) (problem : String)
  | protectedPath (message : String)
  | notFound (message : String)
  | conflict (message : String)
  | locked (message : String)
  | badArchive (message : String)
  | archiveTooLarge (message : String)
  /-- An error of the system that the API does not translate. -/
  | osError (message : String)
  deriving DecidableEq, Repr

/-- Characters Windows refuses in a file name, and `:`. -/
def forbiddenChars : List Char := "<>:\"|?*".toList

/-- `^(con|prn|aux|nul|com[0-9]|lpt[0-9])$`, ignoring case. -/
def reservedStem (stem : List Char) : Bool :=
  let stem := stem.map Char.toLower
  stem ∈ ["con".toList, "prn".toList, "aux".toList, "nul".toList] ∨
    stem.take 3 ∈ ["com".toList, "lpt".toList] ∧ stem.length = 4 ∧ (stem.drop 3).all Char.isDigit

/-- The prefix of the names of the API's own in-flight files. -/
def stagingPrefix : List Char := ".mt5api-".toList

/-- What is wrong with a segment of a path. -/
def checkSegment (segment : Name) : Option String :=
  if segment = [] then some "has an empty path segment"
  else if segment = ".".toList ∨ segment = "..".toList then
    some s!"contains a '{String.ofList segment}' segment"
  else if stagingPrefix.isPrefixOf segment then some "names one of the API's own staging files"
  else if segment.length > 255 then some "has a segment longer than 255 characters"
  else if segment.any fun c => c.toNat < 32 || forbiddenChars.contains c then
    some "contains a character Windows does not allow in a path"
  else if segment.getLast? = some '.' ∨ segment.getLast? = some ' ' then
    some "has a segment ending in a dot or space"
  else if reservedStem (segment.takeWhile (· ≠ '.')) then
    some s!"names a Windows device ({String.ofList segment})"
  else none

/-- The text without a slash at its end. -/
def cutSlash (text : List Char) : List Char :=
  if text.getLast? = some '/' then text.dropLast else text

/-- The segments of a caller's path. -/
def pathSegments (raw : List Char) : Except FileError (List Name) :=
  let text := replaceChar '\\' '/' raw
  if text.head? = some '/' then
    .error (.invalidPath raw "is absolute; paths are relative to the tree root")
  else if cutSlash text = [] then .ok []
  else match ((cutSlash text).splitOn '/').findSome? checkSegment with
    | some problem => .error (.invalidPath raw problem)
    | none => .ok ((cutSlash text).splitOn '/')

/-- The text of a path in a tree. -/
def relText (segments : List Name) : List Char := ['/'].intercalate segments

/-- A checked path: its segments under the root. -/
structure Resolved where
  segments : List Name
  deriving DecidableEq, Repr

/-- The path as the caller should see it. -/
def Resolved.rel (path : Resolved) : List Char := relText path.segments

/-- The text that the access rules compare. -/
def Resolved.key (fold : CaseFold) (path : Resolved) : List Char := fold.lower path.rel

/-- One root the file API serves, by its real path. Its entries are lower case and
`/`-separated. -/
structure Tree where
  name : String
  root : Path
  hidden : List (List Char)
  readonly : List (List Char)
  deriving DecidableEq, Repr

namespace Tree

variable (tree : Tree) (fold : CaseFold)

/-- A key at or under a read-only entry. -/
def guards (key : List Char) : Prop :=
  ∃ entry ∈ tree.readonly, key = entry ∨ entry ++ ['/'] <+: key

instance (key : List Char) : Decidable (tree.guards key) :=
  inferInstanceAs (Decidable (∃ entry ∈ tree.readonly, _))

/-- `Tree.is_hidden`. -/
def isHidden (path : Resolved) : Prop := path.key fold ∈ tree.hidden

/-- `Tree.is_readonly`. -/
def isReadonly (path : Resolved) : Prop := path.key fold = [] ∨ tree.guards (path.key fold)

instance (path : Resolved) : Decidable (tree.isHidden fold path) :=
  inferInstanceAs (Decidable (_ ∈ _))

instance (path : Resolved) : Decidable (tree.isReadonly fold path) :=
  inferInstanceAs (Decidable (_ ∨ _))

/-- `Tree.check_readable`. -/
def checkReadable (path : Resolved) : Except FileError Unit :=
  if tree.isHidden fold path then
    .error (.protectedPath
      s!"{String.ofList path.rel} holds credentials and is never exposed")
  else .ok ()

/-- `Tree.check_writable`. -/
def checkWritable (path : Resolved) : Except FileError Unit := do
  tree.checkReadable fold path
  if path.key fold = [] then
    .error (.protectedPath s!"the root of the {tree.name} tree cannot be replaced")
  else if tree.isReadonly fold path then
    .error (.protectedPath s!"{String.ofList path.rel} is read-only through the file API")
  else .ok ()

/-- The protected entries under a directory. -/
def guarded (path : Resolved) : List (List Char) :=
  (tree.hidden ++ tree.readonly).filter (path.key fold ++ ['/']).isPrefixOf

/-- `Tree.check_deletable_dir`. -/
def checkDeletableDir (path : Resolved) : Except FileError Unit := do
  tree.checkWritable fold path
  let entries := tree.guarded fold path
  if entries ≠ [] then
    let sorted := (entries.map String.ofList).mergeSort (fun a b => decide (a ≤ b))
    let listed := ", ".intercalate sorted
    .error (.protectedPath s!"{String.ofList path.rel} contains protected paths: {listed}")
  else .ok ()

/-- A key that is hidden, or at or under a read-only entry. -/
def protects (key : List Char) : Prop := key ∈ tree.hidden ∨ tree.guards key

instance (key : List Char) : Decidable (tree.protects key) :=
  inferInstanceAs (Decidable (_ ∨ _))

end Tree

/-- `terminal_tree`: the credentials are hidden, the terminal's programs and the files of Chart
Deployments read-only. -/
def terminalTree (terminalDir : Path) : Tree where
  name := "terminal"
  root := terminalDir
  hidden := ["mt5start.ini".toList, "config/accounts.dat".toList]
  readonly := ["terminal64.exe".toList, "metaeditor64.exe".toList, "metatester64.exe".toList,
    "mql5/experts/uploaded".toList, "mql5/files/chartctl".toList, "chartctl".toList]

/-! ## Texts of paths -/

/-- The text of a path that goes on. -/
theorem relText_append {pre more : List Name} (hpre : pre ≠ []) (hmore : more ≠ []) :
    relText (pre ++ more) = relText pre ++ '/' :: relText more := by
  induction pre with
  | nil => exact absurd rfl hpre
  | cons name pre ih =>
    cases pre with
    | nil =>
      obtain ⟨next, rest, rfl⟩ := List.exists_cons_of_ne_nil hmore
      simp [relText, List.intercalate_cons_cons]
    | cons next pre =>
      have hrest := ih (List.cons_ne_nil next pre)
      simp only [relText, List.cons_append, List.intercalate_cons_cons] at hrest ⊢
      rw [hrest]
      simp

/-- A caller's text has no empty name. -/
theorem ne_nil_of_pathSegments {raw : List Char} {segments : List Name}
    (h : pathSegments raw = .ok segments) : ∀ s ∈ segments, s ≠ [] := by
  unfold pathSegments at h
  dsimp only at h
  split at h
  · cases h
  generalize cutSlash (replaceChar '\\' '/' raw) = text at h
  split at h
  · cases h
    exact fun _ hs => nomatch hs
  · cases hfind : (text.splitOn '/').findSome? checkSegment with
    | some problem =>
      rw [hfind] at h
      cases h
    | none =>
      rw [hfind] at h
      injection h with h
      rintro s hs rfl
      have hcheck := List.findSome?_eq_none_iff.mp hfind [] (h ▸ hs)
      cases hcheck

/-- A path with a name has a text. -/
theorem relText_ne_nil {segments : List Name} {n : Name} (hn : n ≠ []) :
    relText (segments ++ [n]) ≠ [] := by
  rcases eq_or_ne segments [] with rfl | hne
  · simpa [relText] using hn
  · rw [relText_append hne (List.cons_ne_nil n [])]
    simp

/-- Lower-casing a path's text lower-cases its names. -/
theorem lower_relText (fold : CaseFold) (segments : List Name) :
    fold.lower (relText segments) = relText (segments.map fold.lower) := by
  induction segments with
  | nil => exact (fold.lower_eq_nil []).mpr rfl
  | cons name segments ih =>
    cases segments with
    | nil => simp [relText]
    | cons next rest =>
      have hsplit : relText (name :: next :: rest) = name ++ '/' :: relText (next :: rest) := by
        simp [relText, List.intercalate_cons_cons]
      rw [hsplit, fold.lower_slash, ih]
      simp [relText, List.intercalate_cons_cons]

/-- The key of a path that goes on. -/
theorem key_append (fold : CaseFold) {pre more : List Name} (hpre : pre ≠ []) (hmore : more ≠ []) :
    Resolved.key fold ⟨pre ++ more⟩ =
      Resolved.key fold ⟨pre⟩ ++ '/' :: fold.lower (relText more) := by
  rw [Resolved.key, Resolved.rel, relText_append hpre hmore, fold.lower_slash]
  rfl

/-! ## What the checks let pass -/

namespace Tree

variable {tree : Tree} {fold : CaseFold} {path : Resolved} {key more : List Char}

/-- Two checks pass when both do. -/
theorem then_eq_ok {first second : Except FileError Unit} :
    (do first; second) = .ok () ↔ first = .ok () ∧ second = .ok () := by
  cases first <;> simp [bind, Except.bind]

theorem checkReadable_eq_ok :
    tree.checkReadable fold path = .ok () ↔ path.key fold ∉ tree.hidden := by
  by_cases h : tree.isHidden fold path
  · simp [checkReadable, h, show path.key fold ∈ tree.hidden from h]
  · simp [checkReadable, h, show path.key fold ∉ tree.hidden from h]

theorem checkWritable_eq_ok : tree.checkWritable fold path = .ok () ↔
    path.key fold ≠ [] ∧ ¬ tree.protects (path.key fold) := by
  rw [checkWritable, then_eq_ok, checkReadable_eq_ok, protects, not_or]
  split
  next hroot => simp [hroot]
  next hroot =>
    split
    next hreadonly => simp [hreadonly.resolve_left hroot]
    next hreadonly =>
      have hguards : ¬ tree.guards (path.key fold) := fun h => hreadonly (Or.inr h)
      simp [hroot, hguards]

/-- What goes on under a read-only entry is under it. -/
theorem guards_append (h : tree.guards key) : tree.guards (key ++ '/' :: more) := by
  obtain ⟨entry, hentry, rfl | hunder⟩ := h
  · exact ⟨key, hentry, Or.inr ⟨more, by simp⟩⟩
  · exact ⟨entry, hentry, Or.inr (hunder.trans (List.prefix_append _ _))⟩

/-- A directory that may be deleted is not protected, and nothing under it is. -/
theorem checkDeletableDir_eq_ok (h : tree.checkDeletableDir fold path = .ok ()) :
    tree.checkWritable fold path = .ok () ∧
      ∀ more, ¬ tree.protects (path.key fold ++ '/' :: more) := by
  rw [checkDeletableDir, then_eq_ok] at h
  obtain ⟨hwritable, hentries⟩ := h
  have hguarded : tree.guarded fold path = [] := by
    by_contra hne
    simp [hne] at hentries
  have hnone : ∀ entry ∈ tree.hidden ++ tree.readonly, ¬ path.key fold ++ ['/'] <+: entry := by
    intro entry hentry
    simpa using List.filter_eq_nil_iff.mp hguarded entry hentry
  refine ⟨hwritable, fun more hprotects => ?_⟩
  have hmore : path.key fold ++ ['/'] <+: path.key fold ++ '/' :: more := ⟨more, by simp⟩
  rcases hprotects with hhidden | ⟨entry, hentry, rfl | hunder⟩
  · exact hnone _ (List.mem_append_left _ hhidden) hmore
  · exact hnone _ (List.mem_append_right _ hentry) hmore
  · -- the entry is under the directory, or the directory at or under the entry
    have hkey : path.key fold <+: path.key fold ++ '/' :: more := List.prefix_append _ _
    rcases lt_trichotomy (path.key fold).length entry.length with hlt | heq | hlt
    · exact hnone entry (List.mem_append_right _ hentry) (List.prefix_of_prefix_length_le hmore
        ((List.prefix_append _ _).trans hunder) (by simpa using Nat.succ_le_of_lt hlt))
    all_goals refine (checkWritable_eq_ok.mp hwritable).2 (Or.inr ⟨entry, hentry, ?_⟩)
    · have hself : path.key fold <+: entry := List.prefix_of_prefix_length_le hkey
        ((List.prefix_append _ _).trans hunder) heq.le
      exact Or.inl (hself.eq_of_length heq)
    · exact Or.inr (List.prefix_of_prefix_length_le hunder hkey
        (by simpa using Nat.succ_le_of_lt hlt))

end Tree

end FileApi

import Mathlib.Data.List.Lex
import Mathlib.Data.List.Pairwise
import Mathlib.Data.List.Sort
import Mt5HttpApi.Lib.Framing
import Mt5HttpApi.Lib.Utf8

/-!
# The digest of the include tree

What a compile reports as `include_hash`: the digest of the paths and the contents of the files
below the include root, in the order of `os.walk`, with a NUL after each (`includeHash`). A content
may have a NUL in it, and what follows may read as another path, so that the digest tells a tree
from every other tree only where that cannot be (`identified_iff`).
-/

namespace Compile

open Utf8 Framing

/-- The name of a file or of a directory. -/
abbrev Name := List CodePoint

/-- What separates the names of a path. -/
def slash : CodePoint := .scalar '/'

/-- What a name has to be. -/
structure Name.Valid (name : Name) : Prop where
  ne_nil : name ≠ []
  slash_notMem : slash ∉ name
  nul_notMem : .scalar '\x00' ∉ name
  ne_dot : name ≠ [.scalar '.']
  ne_dots : name ≠ [.scalar '.', .scalar '.']

/-- A path below the include root, by its names. -/
@[ext]
structure Below where
  names : List Name
  ne_nil : names ≠ []
  valid : ∀ name ∈ names, name.Valid

namespace Below

/-- `os.path.relpath`, with `/` for the separator. -/
def relative (path : Below) : List CodePoint := [slash].intercalate path.names

/-- Where `os.walk` comes to a path when it goes through the names in order: a directory's files
come before what is in its directories. -/
def walkKey : List Name → List (List ℕ)
  | [] => []
  | [file] => [0 :: file.map CodePoint.ord]
  | directory :: names => (1 :: directory.map CodePoint.ord) :: walkKey names

/-- Neither of two files is in a directory of the other's name. -/
def Apart (path other : Below) : Prop :=
  ¬ path.names <+: other.names ∧ ¬ other.names <+: path.names

end Below

/-- A file of the include tree. -/
structure Header where
  content : List UInt8
  /-- `st_mtime_ns`. -/
  mtime : ℤ

/-- The files below the include root. -/
structure IncludeTree where
  files : List (Below × Header)
  apart : (files.map Prod.fst).Pairwise Below.Apart

namespace IncludeTree

/-- Each path with its content. -/
def contents (tree : IncludeTree) : List (Below × List UInt8) :=
  tree.files.map fun file => (file.1, file.2.content)

/-- The same files with the same contents. -/
def Same (tree other : IncludeTree) : Prop := ∀ file, file ∈ tree.contents ↔ file ∈ other.contents

/-- The files in the order of `os.walk` with `dirnames.sort()` and `sorted(filenames)`. -/
def walk (tree : IncludeTree) : List (Below × Header) :=
  tree.files.insertionSort fun a b => Below.walkKey a.1.names ≤ Below.walkKey b.1.names

/-- `_tree_signature`. -/
def signature (tree : IncludeTree) : List (List CodePoint × ℕ × ℤ) :=
  tree.walk.map fun file => (file.1.relative, file.2.content.length, file.2.mtime)

/-- The content of the file that `open` finds under the given names. -/
def read (tree : IncludeTree) (names : List Name) : Option (List UInt8) :=
  (tree.files.find? fun file => file.1.names = names).map fun file => file.2.content

/-- What is fed to the digest: each path of the signature and what is read at it. There is nothing
where a file cannot be opened. -/
def fed (tree : IncludeTree) : Option (List (List UInt8 × List UInt8)) :=
  tree.signature.mapM fun entry =>
    (tree.read (entry.1.splitOn slash)).map fun content => (encodeReplace entry.1, content)

end IncludeTree

/-- `_INCLUDE_HASH_KEY` and `_INCLUDE_HASH`. -/
structure HashCache where
  root : List Char
  signature : List (List CodePoint × ℕ × ℤ)
  digest : List Char
  deriving DecidableEq

/-- `_include_hash` of a tree at the include root, which is missing where there is no such
directory: the digest, and the cache afterwards. -/
def includeHash (hexdigest : List UInt8 → List Char) (cache : Option HashCache)
    (root : Option (List Char)) (tree : IncludeTree) : Option (List Char) × Option HashCache :=
  match root with
  | none => (none, cache)
  | some root =>
    match cache.filter fun c => c.root = root ∧ c.signature = tree.signature with
    | some c => (some c.digest, cache)
    | none =>
      match tree.fed with
      | none => (none, cache)
      | some fed =>
        let digest := "sha256:".toList ++ hexdigest (framed 0 fed)
        (some digest, some ⟨root, tree.signature, digest⟩)

namespace Below

variable {path other : Below}

/-- The names of a path are read back from it. -/
theorem splitOn_relative (path : Below) : path.relative.splitOn slash = path.names :=
  List.splitOn_intercalate slash (fun name hname => (path.valid name hname).slash_notMem)
    path.ne_nil

/-- A path is determined by how it is written. -/
theorem relative_inj : path.relative = other.relative ↔ path = other := by
  constructor
  · intro h
    have hnames : path.names = other.names := by
      rw [← splitOn_relative, ← splitOn_relative, h]
    exact Below.ext hnames
  · exact congrArg relative

/-- There is no NUL in a path. -/
theorem nul_notMem_relative (path : Below) : .scalar '\x00' ∉ path.relative := by
  intro hnul
  rcases Segments.mem_intercalate hnul with hslash | ⟨name, hname, hmem⟩
  · exact absurd hslash (by decide)
  · exact (path.valid name hname).nul_notMem hmem

/-- The bytes of a path are free of zeros. -/
theorem zero_notMem_encodeReplace_relative (path : Below) : 0 ∉ encodeReplace path.relative :=
  zero_notMem_encodeReplace path.nul_notMem_relative

theorem Apart.symm (h : path.Apart other) : other.Apart path := ⟨h.2, h.1⟩

theorem Apart.ne (h : path.Apart other) : path ≠ other :=
  fun heq => h.1 (heq ▸ List.prefix_rfl)

end Below

namespace IncludeTree

variable {tree other : IncludeTree} {path : Below} {file : Header} {content : List UInt8}

theorem walk_perm (tree : IncludeTree) : tree.walk.Perm tree.files := List.perm_insertionSort _ _

/-- The files come in the order of their keys, and none is in a directory of another's name. -/
theorem pairwise_walk (tree : IncludeTree) : tree.walk.Pairwise fun a b =>
    Below.walkKey a.1.names ≤ Below.walkKey b.1.names ∧ a.1.Apart b.1 := by
  have hsorted := List.pairwise_insertionSort
    (fun a b : Below × Header => Below.walkKey a.1.names ≤ Below.walkKey b.1.names) tree.files
  have hapart : tree.files.Pairwise fun a b => a.1.Apart b.1 := List.pairwise_map.mp tree.apart
  refine hsorted.and ?_
  exact (tree.walk_perm.pairwise_iff fun h => Below.Apart.symm h).mpr hapart

instance : Std.Symm fun a b : Below × Header => a.1.Apart b.1 := ⟨fun _ _ h => h.symm⟩

/-- Two files of a tree. -/
theorem apart_of_mem (tree : IncludeTree) {a b : Below × Header} (ha : a ∈ tree.files)
    (hb : b ∈ tree.files) (hne : a ≠ b) : a.1.Apart b.1 :=
  (List.pairwise_map.mp tree.apart).forall ha hb hne

/-- `open` reads the file that the walk has found. -/
theorem read_of_mem (h : (path, file) ∈ tree.files) : tree.read path.names = some file.content := by
  have hfound : (tree.files.find? fun f => f.1.names = path.names).isSome := by
    rw [List.find?_isSome]
    exact ⟨(path, file), h, decide_eq_true rfl⟩
  obtain ⟨found, hfound⟩ := Option.isSome_iff_exists.mp hfound
  have hmem := List.mem_of_find?_eq_some hfound
  have hnames : found.1.names = path.names := by simpa using List.find?_some hfound
  have heq : found = (path, file) := by
    by_contra hne
    exact (tree.apart_of_mem hmem h hne).ne (Below.ext hnames)
  rw [read, hfound, heq, Option.map_some]

/-- The path of a file as it is fed to the digest, and its content. -/
def frame (file : Below × Header) : List UInt8 × List UInt8 :=
  (encodeReplace file.1.relative, file.2.content)

/-- Every file is fed, in the order of the walk. -/
theorem fed_eq (tree : IncludeTree) : tree.fed = some (tree.walk.map frame) := by
  have hframe : ∀ file ∈ tree.walk, ((tree.read (file.1.relative.splitOn slash)).map
      fun content => (encodeReplace file.1.relative, content)) = some (frame file) := by
    intro file hfile
    rw [Below.splitOn_relative, read_of_mem (tree.walk_perm.mem_iff.mp hfile), Option.map_some]
    rfl
  rw [fed, signature, List.mapM_map]
  -- with all files readable, one path after the other is fed
  generalize tree.walk = files at hframe
  induction files with
  | nil => rfl
  | cons file files ih =>
    obtain ⟨hfile, hfiles⟩ := List.forall_mem_cons.mp hframe
    rw [List.mapM_cons, ih hfiles]
    show ((tree.read (file.1.relative.splitOn slash)).map _ >>= _) = _
    rw [hfile]
    rfl

end IncludeTree

/-- The digest of a tree without a cache. -/
def freshHash (hexdigest : List UInt8 → List Char) (root : List Char) (tree : IncludeTree) :
    Option (List Char) :=
  (includeHash hexdigest none (some root) tree).1

theorem freshHash_eq (hexdigest : List UInt8 → List Char) (root : List Char)
    (tree : IncludeTree) : freshHash hexdigest root tree =
      some ("sha256:".toList ++ hexdigest (framed 0 (tree.walk.map IncludeTree.frame))) := by
  rw [freshHash, includeHash]
  simp [IncludeTree.fed_eq]

/-- Equal digests are those of the same bytes. -/
theorem freshHash_eq_iff {hexdigest : List UInt8 → List Char} (hsha : Function.Injective hexdigest)
    {root root' : List Char} {tree other : IncludeTree} :
    freshHash hexdigest root tree = freshHash hexdigest root' other ↔
      framed 0 (tree.walk.map IncludeTree.frame) = framed 0 (other.walk.map IncludeTree.frame) := by
  rw [freshHash_eq, freshHash_eq, Option.some_inj, List.append_cancel_left_eq, hsha.eq_iff]

namespace IncludeTree

variable {tree other : IncludeTree}

/-- The tree of one file. -/
def single (path : Below) (file : Header) : IncludeTree := ⟨[(path, file)], by simp⟩

/-- The tree of two files. -/
def pair (path other : Below) (file file' : Header) (h : path.Apart other) : IncludeTree :=
  ⟨[(path, file), (other, file')], by simpa using h⟩

/-- The digest tells the tree from every other tree: it has no file, or a single one with a path
that has bytes of its own, and its content does not go on, after a NUL, like a file that would come
next. -/
def Identified (tree : IncludeTree) : Prop :=
  tree.files = [] ∨ ∃ path file, tree.files = [(path, file)] ∧ (∀ x ∈ path.relative, x.Kept) ∧
    ∀ next : Below, path.Apart next → Below.walkKey path.names ≤ Below.walkKey next.names →
      ∀ before after,
        file.content ≠ before ++ 0 :: (encodeReplace next.relative ++ 0 :: after)

/-- The paths have bytes of their own, and the contents are free of zeros. -/
def Textual (tree : IncludeTree) : Prop :=
  ∀ file ∈ tree.files, (∀ x ∈ file.1.relative, x.Kept) ∧ 0 ∉ file.2.content

theorem mem_contents_single {path path' : Below} {file : Header} {content : List UInt8} :
    (path', content) ∈ (single path file).contents ↔ path' = path ∧ content = file.content := by
  simp [contents, single]

theorem walk_single (path : Below) (file : Header) : (single path file).walk = [(path, file)] := rfl

theorem walk_pair {path other : Below} {file file' : Header} (h : path.Apart other)
    (hle : Below.walkKey path.names ≤ Below.walkKey other.names) :
    (pair path other file file' h).walk = [(path, file), (other, file')] :=
  List.Pairwise.insertionSort_eq (by simpa [pair] using hle)

/-- What is fed has the paths and the contents in it, if the paths have bytes of their own. -/
theorem contents_eq_of_frames {files files' : List (Below × Header)}
    (h : ∀ file ∈ files, ∀ x ∈ file.1.relative, x.Kept)
    (heq : files.map frame = files'.map frame) :
    files.map (fun file => (file.1, file.2.content)) =
      files'.map fun file => (file.1, file.2.content) := by
  induction files generalizing files' with
  | nil =>
    rw [List.map_nil, eq_comm, List.map_eq_nil_iff] at heq
    rw [heq]
  | cons file files ih =>
    rcases files' with - | ⟨file', files'⟩
    · exact absurd heq (by simp)
    · obtain ⟨hfile, hfiles⟩ := List.forall_mem_cons.mp h
      rw [List.map_cons, List.map_cons, List.cons.injEq] at heq
      obtain ⟨hpath, hcontent⟩ := Prod.mk.inj heq.1
      rw [List.map_cons, List.map_cons, ih hfiles heq.2, hcontent,
        Below.relative_inj.mp (eq_of_encodeReplace hfile hpath)]

theorem eq_single {path : Below} {file : Header} (h : tree.files = [(path, file)]) :
    tree = single path file := by
  cases tree
  cases h
  rfl

/-- The files of the walk are those of the tree. -/
theorem mem_contents_iff_walk {file : Below × List UInt8} :
    file ∈ tree.contents ↔ file ∈ tree.walk.map fun file => (file.1, file.2.content) :=
  ((tree.walk_perm.map _).mem_iff).symm

/-- Trees that are walked alike are the same. -/
theorem same_of_walk (h : tree.walk.map (fun file => (file.1, file.2.content)) =
    other.walk.map fun file => (file.1, file.2.content)) : tree.Same other := by
  intro file
  rw [mem_contents_iff_walk, mem_contents_iff_walk, h]

theorem Textual.zero_notMem_frame (h : tree.Textual) :
    ∀ fed ∈ tree.walk.map frame, 0 ∉ fed.1 ∧ 0 ∉ fed.2 := by
  intro fed hfed
  obtain ⟨file, hfile, rfl⟩ := List.mem_map.mp hfed
  exact ⟨file.1.zero_notMem_encodeReplace_relative, (h file (tree.walk_perm.mem_iff.mp hfile)).2⟩

end IncludeTree

/-- A character in place of one that is written as a `?`. -/
def respelled (x : CodePoint) : CodePoint := if x.Kept then x else x.twin

theorem replaced_respelled (x : CodePoint) : (respelled x).replaced = x.replaced := by
  by_cases hx : x.Kept
  · rw [respelled, if_pos hx]
  · rw [respelled, if_neg hx]
    exact (CodePoint.replaced_twin hx).1

/-- Other characters than `?` and the surrogates are respelled by themselves only. -/
theorem eq_of_respelled_eq {x : CodePoint} {c : Char} (hc : c ≠ '?')
    (h : respelled x = .scalar c) : x = .scalar c := by
  have hkept : (CodePoint.scalar c).Kept := hc
  refine (hkept.eq_of_replaced ?_).symm
  rw [← h, replaced_respelled]

theorem eq_of_map_respelled_eq {name : Name} {chars : List Char} (hchars : '?' ∉ chars)
    (h : name.map respelled = chars.map .scalar) : name = chars.map .scalar := by
  induction chars generalizing name with
  | nil => simpa using h
  | cons c chars ih =>
    rw [List.mem_cons, not_or] at hchars
    rcases name with - | ⟨x, name⟩
    · exact absurd h (by simp)
    · rw [List.map_cons, List.map_cons, List.cons.injEq] at h
      rw [eq_of_respelled_eq (Ne.symm hchars.1) h.1, ih hchars.2 h.2, List.map_cons]

theorem Name.Valid.respelled {name : Name} (h : name.Valid) :
    Name.Valid (name.map respelled) where
  ne_nil := by simpa using h.ne_nil
  slash_notMem hslash := by
    obtain ⟨x, hx, heq⟩ := List.mem_map.mp hslash
    obtain rfl : x = slash := eq_of_respelled_eq (by decide) heq
    exact h.slash_notMem hx
  nul_notMem hnul := by
    obtain ⟨x, hx, heq⟩ := List.mem_map.mp hnul
    obtain rfl := eq_of_respelled_eq (by decide) heq
    exact h.nul_notMem hx
  ne_dot hdot := by
    have hname : name = ['.'].map .scalar := eq_of_map_respelled_eq (by decide) hdot
    exact h.ne_dot hname
  ne_dots hdots := by
    have hname : name = ['.', '.'].map .scalar := eq_of_map_respelled_eq (by decide) hdots
    exact h.ne_dots hname

/-- The path with other characters for those that are written as a `?`. -/
def Below.respelled (path : Below) : Below where
  names := path.names.map (List.map Compile.respelled)
  ne_nil := by simpa using path.ne_nil
  valid := by
    intro name hname
    obtain ⟨original, horiginal, rfl⟩ := List.mem_map.mp hname
    exact (path.valid original horiginal).respelled

theorem Below.relative_respelled (path : Below) :
    path.respelled.relative = path.relative.map Compile.respelled := by
  rw [relative, relative, Segments.map_intercalate]
  rfl

/-- A path with a character of no bytes of its own is respelled. -/
theorem Below.respelled_ne {path : Below} {x : CodePoint} (hx : x ∈ path.relative)
    (hkept : ¬ x.Kept) : path.respelled ≠ path := by
  intro heq
  have hmap : path.relative.map Compile.respelled = path.relative.map id := by
    rw [List.map_id, ← relative_respelled, heq]
  have hself : (if x.Kept then x else x.twin) = x := List.map_inj_left.mp hmap x hx
  rw [if_neg hkept] at hself
  exact (CodePoint.replaced_twin hkept).2 hself

/-- It is written as before. -/
theorem Below.encodeReplace_respelled (path : Below) :
    encodeReplace path.respelled.relative = encodeReplace path.relative := by
  rw [encodeReplace, encodeReplace, relative_respelled, List.map_map]
  congr 2
  exact funext replaced_respelled

namespace IncludeTree

variable {hexdigest : List UInt8 → List Char} {root root' : List Char}
  {tree other : IncludeTree}

/-- A tree that the digest tells from all others has at most one file: the others can be in the
content of the first. -/
theorem files_of_tells (hsha : Function.Injective hexdigest)
    (h : ∀ other, freshHash hexdigest root tree = freshHash hexdigest root' other →
      tree.Same other) :
    tree.files = [] ∨ ∃ path file, tree.files = [(path, file)] := by
  have hpairwise := tree.pairwise_walk
  have hperm := tree.walk_perm
  rcases hwalk : tree.walk with - | ⟨a, - | ⟨b, rest⟩⟩
  · rw [hwalk] at hperm
    exact Or.inl hperm.nil_eq.symm
  · rw [hwalk] at hperm
    exact Or.inr ⟨a.1, a.2, (List.perm_singleton.mp hperm.symm)⟩
  · obtain ⟨more, hmore⟩ : ∃ more, framed 0 (frame a :: frame b :: rest.map frame) =
        framed 0 [((frame a).1, a.2.content ++ 0 :: ((frame b).1 ++ 0 :: more))] :=
      framed_cons_cons _ _ _
    have hsame := h (single a.1 ⟨a.2.content ++ 0 :: ((frame b).1 ++ 0 :: more), a.2.mtime⟩) <| by
      rw [freshHash_eq_iff hsha, hwalk, walk_single]
      exact hmore
    -- the second file is in no tree of one file
    have hb : (b.1, b.2.content) ∈ tree.contents := by
      rw [mem_contents_iff_walk, hwalk]
      simp
    have heq := (mem_contents_single.mp ((hsame _).mp hb)).1
    rw [hwalk] at hpairwise
    exact absurd heq.symm ((List.rel_of_pairwise_cons hpairwise List.mem_cons_self).2.ne)

/-- A tree that the digest tells from all others meets the condition. -/
theorem identified_of_tells (hsha : Function.Injective hexdigest)
    (h : ∀ other, freshHash hexdigest root tree = freshHash hexdigest root' other →
      tree.Same other) :
    tree.Identified := by
  rcases files_of_tells hsha h with hfiles | ⟨path, file, hfiles⟩
  · exact Or.inl hfiles
  refine Or.inr ⟨path, file, hfiles, ?_, ?_⟩
  · intro x hx
    by_contra hkept
    -- the same file under the respelled path
    have hsame := h (single path.respelled file) <| by
      rw [freshHash_eq_iff hsha, eq_single hfiles, walk_single, walk_single]
      simp [frame, Below.encodeReplace_respelled]
    have hmem : (path, file.content) ∈ (single path file).contents :=
      mem_contents_single.mpr ⟨rfl, rfl⟩
    rw [eq_single hfiles] at hsame
    exact Below.respelled_ne hx hkept (mem_contents_single.mp ((hsame _).mp hmem)).1.symm
  · intro next hapart hle before after hcontent
    -- the content up to the NUL, and the file that it goes on with
    have hsame := h (pair path next ⟨before, 0⟩ ⟨after, 0⟩ hapart) <| by
      rw [freshHash_eq_iff hsha, eq_single hfiles, walk_single, walk_pair hapart hle]
      simp only [List.map_cons, List.map_nil, frame, framed_pair, hcontent]
    rw [eq_single hfiles] at hsame
    have hnext : (next, after) ∈ (pair path next ⟨before, 0⟩ ⟨after, 0⟩ hapart).contents := by
      simp [contents, pair]
    exact hapart.ne (mem_contents_single.mp ((hsame _).mpr hnext)).1.symm

/-- A tree that meets the condition is told from all others. -/
theorem same_of_identified (hsha : Function.Injective hexdigest)
    (h : tree.Identified) (heq : freshHash hexdigest root tree = freshHash hexdigest root' other) :
    tree.Same other := by
  rw [freshHash_eq_iff hsha] at heq
  rcases h with hfiles | ⟨path, file, hfiles, hkept, hcontent⟩
  · have hwalk : tree.walk = [] := (hfiles ▸ tree.walk_perm).eq_nil
    rw [hwalk, eq_comm, List.map_nil, framed_nil, framed_eq_nil_iff, List.map_eq_nil_iff] at heq
    exact same_of_walk (by rw [hwalk, heq])
  · rw [eq_single hfiles] at heq ⊢
    have hpairwise := other.pairwise_walk
    rw [walk_single] at heq
    have hzero := path.zero_notMem_encodeReplace_relative
    rcases hother : other.walk with - | ⟨a, - | ⟨b, rest⟩⟩
    · rw [hother] at heq
      exact absurd (framed_eq_nil_iff.mp heq) (by simp)
    · rw [hother] at heq
      obtain ⟨hpath, hsame⟩ :=
        (framed_singleton_inj hzero a.1.zero_notMem_encodeReplace_relative).mp heq
      obtain rfl := Below.relative_inj.mp (eq_of_encodeReplace hkept hpath)
      have hcontents : file.content = a.2.content := hsame
      exact same_of_walk (by simp [hother, walk_single, hcontents])
    · obtain ⟨more, hmore⟩ : ∃ more, framed 0 (frame a :: frame b :: rest.map frame) =
          framed 0 [((frame a).1, a.2.content ++ 0 :: ((frame b).1 ++ 0 :: more))] :=
        framed_cons_cons _ _ _
      rw [hother, List.map_cons, List.map_cons, List.map_cons, hmore] at heq
      obtain ⟨hpath, hsame⟩ :=
        (framed_singleton_inj hzero a.1.zero_notMem_encodeReplace_relative).mp heq
      obtain rfl := Below.relative_inj.mp (eq_of_encodeReplace hkept hpath)
      -- the content would go on with the second file of the other tree
      rw [hother] at hpairwise
      obtain ⟨hle, hapart⟩ := List.rel_of_pairwise_cons hpairwise List.mem_cons_self
      exact absurd hsame (hcontent b.1 hapart hle a.2.content more)

/-- Trees of texts are told from each other. -/
theorem Textual.same (hsha : Function.Injective hexdigest)
    (h : tree.Textual) (h' : other.Textual)
    (heq : freshHash hexdigest root tree = freshHash hexdigest root' other) : tree.Same other := by
  rw [freshHash_eq_iff hsha] at heq
  have hframes : tree.walk.map frame = other.walk.map frame :=
    framed_injective h.zero_notMem_frame h'.zero_notMem_frame heq
  refine same_of_walk (contents_eq_of_frames (fun file hfile => ?_) hframes)
  exact (h file (tree.walk_perm.mem_iff.mp hfile)).1

end IncludeTree

/-- The digest tells a tree from every other one exactly when the tree has no file, or one whose
content does not go on like another file. Trees of texts it tells from each other. -/
theorem identified_iff {hexdigest : List UInt8 → List Char} (hsha : Function.Injective hexdigest)
    (root root' : List Char) :
    (∀ tree : IncludeTree,
      (∀ other, freshHash hexdigest root tree = freshHash hexdigest root' other →
        tree.Same other) ↔ tree.Identified) ∧
    ∀ tree other : IncludeTree, tree.Textual → other.Textual →
      freshHash hexdigest root tree = freshHash hexdigest root' other → tree.Same other :=
  ⟨fun _ => ⟨IncludeTree.identified_of_tells hsha,
      fun h _ => IncludeTree.same_of_identified hsha h⟩,
    fun _ _ h h' => IncludeTree.Textual.same hsha h h'⟩

/-- The bytes as they are, for an injective digest. -/
def plainDigest (bytes : List UInt8) : List Char := bytes.map fun b => Char.ofNat b.toNat

theorem plainDigest_injective : Function.Injective plainDigest := by
  apply List.map_injective_iff.mpr
  intro a b h
  have hback : ∀ c : UInt8, (Char.ofNat c.toNat).toNat = c.toNat := by
    intro c
    have hvalid : c.toNat.isValidChar := Or.inl (lt_trans c.toNat_lt (by decide))
    rw [Char.ofNat, dif_pos hvalid]
    rfl
  rw [← UInt8.toNat_inj, ← hback a, ← hback b]
  exact congrArg Char.toNat h

/-- The file `a` below the include root. -/
def pathA : Below where
  names := [[.scalar 'a']]
  ne_nil := by decide
  valid := by
    simp only [List.forall_mem_cons, List.not_mem_nil, false_implies, implies_true, and_true]
    constructor <;> decide

/-- The file `b` below the include root. -/
def pathB : Below where
  names := [[.scalar 'b']]
  ne_nil := by decide
  valid := by
    simp only [List.forall_mem_cons, List.not_mem_nil, false_implies, implies_true, and_true]
    constructor <;> decide

/-- A tree of one file without a NUL is told from every other tree. -/
theorem identified_iff_single : ¬ ∃ other : IncludeTree,
    freshHash plainDigest ['i'] (.single pathA ⟨[0x78], 0⟩) = freshHash plainDigest ['i'] other ∧
      ¬ (IncludeTree.single pathA ⟨[0x78], 0⟩).Same other := by
  rintro ⟨other, hsame, hother⟩
  refine hother (((identified_iff plainDigest_injective ['i'] ['i']).1 _).mpr ?_ other hsame)
  refine Or.inr ⟨pathA, ⟨[0x78], 0⟩, rfl, by decide, fun next _ _ before after hcontent => ?_⟩
  have hzero : (0 : UInt8) ∈ [0x78] := by
    have hcontent : [0x78] = before ++ 0 :: (encodeReplace next.relative ++ 0 :: after) := hcontent
    rw [hcontent]
    simp
  exact absurd hzero (by decide)

/-- No injective digest tells the files `a` and `b` with the contents `x` and `y` from a file `a`
with all of them in its content. -/
theorem not_identified : ¬ ∃ (hexdigest : List UInt8 → List Char) (root : List Char),
    Function.Injective hexdigest ∧ ∀ tree other : IncludeTree,
      freshHash hexdigest root tree = freshHash hexdigest root other → tree.Same other := by
  rintro ⟨hexdigest, root, -, h⟩
  have hapart : pathA.Apart pathB := by
    constructor <;> decide
  have hsame := h (.single pathA ⟨[0x78, 0, 0x62, 0, 0x79], 0⟩)
    (.pair pathA pathB ⟨[0x78], 0⟩ ⟨[0x79], 0⟩ hapart)
    (by rw [freshHash_eq, freshHash_eq]; rfl)
  have hmem : (pathB, [0x79]) ∈ (IncludeTree.pair pathA pathB ⟨[0x78], 0⟩ ⟨[0x79], 0⟩
      hapart).contents := List.mem_cons_of_mem _ List.mem_cons_self
  exact hapart.ne (IncludeTree.mem_contents_single.mp ((hsame _).mpr hmem)).1.symm

end Compile

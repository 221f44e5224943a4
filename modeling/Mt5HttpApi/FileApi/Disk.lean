import Mathlib.Data.List.Infix
import Mathlib.Logic.Function.Basic
import Mt5HttpApi.FileApi.Tree

/-!
# The disk under a tree

The entries of a disk by their real paths, and how a spelled path is followed: a name denotes the
entry that the directory has under it (`stored`: another case of the letters, a short name), and an
entry that is a link is left for its target. `realpath` follows the whole path, `entry` all of it
but a link at its end.

A disk has no entry outside of a directory, the tree's root is a directory, and the links under the
root stay under it. `put` and `erase` are the ways in which it changes.
-/

namespace FileApi

/-- What a directory entry is. A link is given by the real path it leads to. -/
inductive Node
  | file (bytes : List UInt8)
  | dir
  | link (target : Path)
  deriving DecidableEq, Repr

theorem Node.dir_ne_link (t : Path) : Node.dir ≠ .link t := nofun

theorem Node.file_ne_link (bytes : List UInt8) (t : Path) : Node.file bytes ≠ .link t := nofun

/-- The disk under a tree with the given root. -/
structure Disk (root : Path) where
  /-- The entry of a real path. -/
  node : Path → Option Node
  /-- The name of the entry that a name denotes in a directory. -/
  stored : Path → Name → Name
  root_dir : node root = some .dir
  parent_dir : ∀ p n, node (p ++ [n]) ≠ none → node p = some .dir
  links_stay : ∀ p t, root <+: p → node p = some (.link t) → root <+: t

namespace Disk

variable {root : Path} (d : Disk root)

/-- The real path of an entry that has been found. -/
def follow (p : Path) : Path :=
  match d.node p with
  | some (.link target) => target
  | _ => p

/-- The entry that a name denotes in a directory. -/
def child (p : Path) (n : Name) : Path := p ++ [d.stored p n]

/-- `os.path.realpath` of a path under the root. -/
def realpath (segments : List Name) : Path :=
  segments.foldl (fun p n => d.follow (d.child p n)) root

/-- The bytes of the file at a real path. -/
def fileAt (p : Path) : Option (List UInt8) :=
  match d.node p with
  | some (.file bytes) => some bytes
  | _ => none

/-- `os.path.isdir`. -/
def isDir (segments : List Name) : Prop := d.node (d.realpath segments) = some .dir

/-- `os.path.isfile`. -/
def isFile (segments : List Name) : Prop := (d.fileAt (d.realpath segments)).isSome

/-- `os.path.exists`. -/
def exists_ (segments : List Name) : Prop := (d.node (d.realpath segments)).isSome

instance (segments : List Name) : Decidable (d.isDir segments) :=
  inferInstanceAs (Decidable (_ = _))

instance (segments : List Name) : Decidable (d.isFile segments) :=
  inferInstanceAs (Decidable (_ = true))

instance (segments : List Name) : Decidable (d.exists_ segments) :=
  inferInstanceAs (Decidable (_ = true))

variable {d} {p q : Path} {n : Name} {segments : List Name}

@[simp]
theorem realpath_nil : d.realpath [] = root := rfl

theorem realpath_concat : d.realpath (segments ++ [n]) =
    d.follow (d.child (d.realpath segments) n) := by
  simp [realpath]

theorem follow_eq_self (h : ∀ t, d.node p ≠ some (.link t)) : d.follow p = p := by
  unfold follow
  split
  next t hlink => exact absurd hlink (h t)
  next => rfl

theorem follow_of_link {t : Path} (h : d.node p = some (.link t)) : d.follow p = t := by
  simp [follow, h]

theorem fileAt_eq_some {bytes : List UInt8} :
    d.fileAt p = some bytes ↔ d.node p = some (.file bytes) := by
  unfold fileAt
  split
  next hfile => simp [hfile]
  next hother => simpa using hother bytes

theorem fileAt_of_absent (h : d.node p = none) : d.fileAt p = none := by
  simp [fileAt, h]

/-- No path leaves the root. -/
theorem root_prefix_realpath (segments : List Name) : root <+: d.realpath segments := by
  induction segments using List.reverseRecOn with
  | nil => exact List.prefix_rfl
  | append_singleton segments n ih =>
    have hchild : root <+: d.child (d.realpath segments) n := ih.trans (List.prefix_append _ _)
    rw [realpath_concat]
    unfold follow
    split
    next t hlink => exact d.links_stay _ t hchild hlink
    next => exact hchild

/-- An entry's directory is a directory, and so are those above it. -/
theorem isDir_of_child (h : d.node (d.child (d.realpath segments) n) ≠ none) : d.isDir segments :=
  d.parent_dir _ _ h

/-- Where a path leads to something, all that is before leads to directories. -/
theorem isDir_of_exists (h : d.exists_ (segments ++ [n])) : d.isDir segments := by
  refine isDir_of_child (n := n) fun hnone => ?_
  rw [exists_, realpath_concat, follow_eq_self (by simp [hnone]), hnone] at h
  simp at h

/-- What is before a directory is directories. -/
theorem isDir_of_prefix {pre : List Name} (h : d.isDir segments) (hpre : pre <+: segments) :
    d.isDir pre := by
  obtain ⟨more, rfl⟩ := hpre
  induction more using List.reverseRecOn with
  | nil => simpa using h
  | append_singleton more n ih =>
    refine ih (isDir_of_exists (n := n) ?_)
    rw [List.append_assoc, exists_, h]
    rfl

/-- The root is not under an entry under the root. -/
theorem child_not_prefix_root : ¬ d.child (d.realpath segments) n <+: root := by
  intro h
  have hlen := h.length_le
  have hroot := (root_prefix_realpath (d := d) segments).length_le
  simp only [child, List.length_append, List.length_singleton] at hlen
  omega

/-! ## Changes -/

/-- A file or a directory is put into a directory, where there is no other directory. -/
def put (d : Disk root) (p : Path) (n : Name) (v : Node) (hp : d.node p = some .dir)
    (hdir : d.node (p ++ [n]) = some .dir → v = .dir) (hlink : ∀ t, v ≠ .link t) : Disk root where
  node := Function.update d.node (p ++ [n]) (some v)
  stored := d.stored
  root_dir := by
    by_cases h : root = p ++ [n]
    · rw [← h, Function.update_self, hdir (h ▸ d.root_dir)]
    · rw [Function.update_of_ne h, d.root_dir]
  parent_dir := by
    intro q m hm
    have hq : d.node q = some .dir := by
      by_cases h : q ++ [m] = p ++ [n]
      · obtain ⟨rfl, -⟩ := List.append_inj' h rfl
        exact hp
      · rw [Function.update_of_ne h] at hm
        exact d.parent_dir q m hm
    by_cases h : q = p ++ [n]
    · rw [h, Function.update_self, hdir (h ▸ hq)]
    · rw [Function.update_of_ne h, hq]
  links_stay := by
    intro q t hq ht
    by_cases h : q = p ++ [n]
    · rw [h, Function.update_self, Option.some.injEq] at ht
      exact absurd ht (hlink t)
    · rw [Function.update_of_ne h] at ht
      exact d.links_stay q t hq ht

section Put

variable {v : Node} {hp : d.node p = some .dir} {hdir : d.node (p ++ [n]) = some .dir → v = .dir}
  {hlink : ∀ t, v ≠ .link t}

theorem node_put_self : (d.put p n v hp hdir hlink).node (p ++ [n]) = some v :=
  Function.update_self _ _ _

theorem node_put_of_ne (h : q ≠ p ++ [n]) : (d.put p n v hp hdir hlink).node q = d.node q :=
  Function.update_of_ne h _ _

end Put

/-- Entries are removed, directories with all that is in them, but not the root. -/
def erase (d : Disk root) (gone : Path → Prop) [DecidablePred gone] (hroot : ¬ gone root)
    (hdown : ∀ p n, gone p → d.node (p ++ [n]) ≠ none → gone (p ++ [n])) : Disk root where
  node := fun p => if gone p then none else d.node p
  stored := d.stored
  root_dir := by rw [if_neg hroot, d.root_dir]
  parent_dir := by
    intro p n hn
    have hstays : ¬ gone (p ++ [n]) := fun hgone => hn (if_pos hgone)
    rw [if_neg hstays] at hn
    rw [if_neg fun hgone => hstays (hdown p n hgone hn)]
    exact d.parent_dir p n hn
  links_stay := by
    intro p t hp ht
    by_cases h : gone p
    · simp [h] at ht
    · rw [if_neg h] at ht
      exact d.links_stay p t hp ht

section Erase

variable {gone : Path → Prop} [DecidablePred gone] {hroot : ¬ gone root}
  {hdown : ∀ p n, gone p → d.node (p ++ [n]) ≠ none → gone (p ++ [n])}

theorem node_erase_of_gone (h : gone q) : (d.erase gone hroot hdown).node q = none := if_pos h

theorem node_erase_of_not_gone (h : ¬ gone q) : (d.erase gone hroot hdown).node q = d.node q :=
  if_neg h

end Erase

/-- An entry that is looked up is in the list. -/
theorem mem_of_lookup {entries : List (Path × Node)} {v : Node}
    (h : List.lookup p entries = some v) :
    (p, v) ∈ entries := by
  obtain ⟨before, after, rfl, -⟩ := List.lookup_eq_some_iff.mp h
  exact List.mem_append_right before List.mem_cons_self

/-- The disk with the given entries, where a name denotes its lower-case one or the long name of a
short one. -/
def ofEntries (root : Path) (entries : List (Path × Node)) (long : Name → Name)
    (hroot : List.lookup root entries = some .dir)
    (hparent : ∀ e ∈ entries, e.1 ≠ [] → List.lookup e.1.dropLast entries = some .dir)
    (hlinks : ∀ e ∈ entries, ∀ t, e.2 = .link t → root <+: t) : Disk root where
  node := fun p => List.lookup p entries
  stored := fun _ n => long (n.map Char.toLower)
  root_dir := hroot
  parent_dir := by
    intro p n hn
    obtain ⟨v, hv⟩ := Option.ne_none_iff_exists'.mp hn
    simpa using hparent _ (mem_of_lookup hv) (by simp)
  links_stay := fun p t _ ht => hlinks _ (mem_of_lookup ht) t rfl

end Disk

end FileApi

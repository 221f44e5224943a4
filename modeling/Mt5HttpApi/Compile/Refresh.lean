import Mathlib.Logic.Function.Basic
import Mt5HttpApi.Lib.Dict
import Mt5HttpApi.Lib.Transition

/-!
# The include tree that a compile reads

Every API process compiles from one mirror of the include tree and checks it against the source from
time to time: on a timer of its own, or when a marker says that the file API has changed the tree.
The source can change at any moment, also during a pass over it. What a pass does with directories
and with the case of names is in `Compile.Mirror`; here it goes file by file.
-/

namespace Compile.Refresh

open Transition

/-! ## Files and passes -/

/-- A file: its content, and the second of its mtime. -/
structure File where
  content : List UInt8
  second : ℤ
  deriving DecidableEq

/-- `_is_current`. -/
def isCurrent (src dst : File) : Bool :=
  src.content.length = dst.content.length && src.second = dst.second

/-- `INCLUDE_REFRESH_SECONDS`. -/
def includeRefreshSeconds : ℕ := 60

/-- `_LOCAL_TOOLCHAIN`, where it is resolved. -/
inductive Toolchain
  | unresolved
  /-- The configured paths as they are. -/
  | shared
  | mirror
  deriving DecidableEq

/-- What a process sees when it looks whether to check: the monotonic clock, and the mtime of the
marker. -/
structure Look where
  mono : ℕ
  marker : Option ℕ
  deriving DecidableEq

/-- Where a process is in a compile. -/
inductive Pc (K : Type)
  | idle
  /-- It has the lock. -/
  | locked
  /-- It is going to check. -/
  | checking (look : Look)
  /-- In `_mirror_tree`, with what is `expected` so far. -/
  | walking (look : Look) (expected : List K)
  /-- In `shutil.copy2`. -/
  | copying (look : Look) (expected : List K) (file : K)
  | compiling (look : Look)
  deriving DecidableEq

/-- An API process. -/
structure Process (K : Type) where
  toolchain : Toolchain
  /-- `_INCLUDES_CHECKED_AT`, on the monotonic clock. -/
  checkedAt : ℕ
  /-- `_INCLUDES_CHECKED_WALL`. -/
  checkedWall : ℕ
  pc : Pc K
  /-- The last pass raised, found no file, or could not remove one. -/
  short : Bool

/-- The source and the mirror, the marker, the clocks and the processes. The rest is history. -/
structure System (P K : Type) where
  source : List (K × File)
  mirror : List (K × File)
  /-- The mtime of `.includes-changed`. -/
  marker : Option ℕ
  mono : ℕ
  wall : ℕ
  /-- Who has the compile lock. -/
  holder : Option P
  process : P → Process K
  /-- When the source last changed at a path, on both clocks. -/
  changed : K → ℕ × ℕ
  /-- What has been at a path, in the source or in the mirror. -/
  versions : K → List File
  /-- The source has changed at the path since the last pass began. -/
  touched : K → Bool
  /-- The process has finished a pass that began after the last change at the path. -/
  seen : P → K → Bool

/-- A step of the surroundings or of a process. -/
inductive Label (P K : Type)
  | tick (mono wall : ℕ)
  /-- A file of the source is written or deleted, by anyone. -/
  | change (k : K) (file : Option File)
  /-- `mark_includes_changed`. -/
  | mark
  | acquire (p : P)
  /-- The beginning of `_local_toolchain`. -/
  | look (p : P)
  /-- The pass begins. -/
  | check (p : P)
  /-- The pass comes to a file. -/
  | visit (p : P) (k : K)
  /-- The file is copied. -/
  | copied (p : P) (content : List UInt8)
  /-- The pass prunes the mirror, where it can remove files, and ends. -/
  | finish (p : P) (kept : List K) (editor : Bool)
  /-- The pass raises, perhaps with part of a file copied. -/
  | fail (p : P) (torn : Option File)
  | release (p : P)
  /-- The process ends, and another one starts in its place. -/
  | restart (p : P) (torn : Option File)

variable {P K : Type} [DecidableEq P] [DecidableEq K]

/-- A process that has just started. -/
def Process.new : Process K := ⟨.unresolved, 0, 0, .idle, false⟩

/-- There is one more version of a file. -/
def noted (versions : K → List File) (k : K) (file : Option File) : K → List File :=
  Function.update versions k (file.toList ++ versions k)

namespace System

/-- Process `p` goes on at `pc`. -/
def goto (s : System P K) (p : P) (pc : Pc K) : System P K :=
  { s with process := Function.update s.process p { s.process p with pc := pc } }

/-- A file is put at a path of the mirror. -/
def put (s : System P K) (k : K) (file : File) : System P K :=
  { s with mirror := Dict.set s.mirror k file, versions := noted s.versions k (some file) }

/-- The path of a copy that is broken off has what was written of it. -/
def tear (s : System P K) (p : P) (torn : Option File) : System P K :=
  match (s.process p).pc, torn with
  | .copying _ _ k, some file => s.put k file
  | _, _ => s

/-- A path of the source is given a file, or loses the one it has. The change is one since every
pass that has begun. -/
def change (s : System P K) (k : K) (file : Option File) : System P K :=
  { s with
    source := match file with
      | some new => Dict.set s.source k new
      | none => Dict.pop s.source k
    changed := Function.update s.changed k (s.mono, s.wall)
    versions := noted s.versions k file
    touched := Function.update s.touched k true
    seen := fun p => Function.update (s.seen p) k false }

/-- `_includes_changed_since(_INCLUDES_CHECKED_WALL)`. -/
def includesChanged (s : System P K) (p : P) : Bool :=
  s.marker.any fun mtime => (s.process p).checkedWall < mtime

/-- Whether `_refresh_mirrored_includes` goes on to a pass. -/
def due (s : System P K) (p : P) : Bool :=
  !(s.mono - (s.process p).checkedAt < includeRefreshSeconds) || s.includesChanged p

/-- Where a process goes on when it has looked. -/
def looked (s : System P K) (p : P) : Pc K :=
  match (s.process p).toolchain with
  | .unresolved => .checking ⟨s.mono, s.marker⟩
  | .shared => .compiling ⟨s.mono, s.marker⟩
  | .mirror =>
    if s.due p then .checking ⟨s.mono, s.marker⟩ else .compiling ⟨s.mono, s.marker⟩

/-- The times of a check are set, and the pass begins. -/
def check (s : System P K) (p : P) (look : Look) : System P K :=
  { s with
    process := Function.update s.process p
      { s.process p with checkedAt := s.mono, checkedWall := s.wall, pc := .walking look [] }
    touched := fun _ => false }

/-- A file of the source is there. If it is current it is passed over. -/
def visit (s : System P K) (p : P) (look : Look) (expected : List K) (k : K) (file : File) :
    System P K :=
  if (Dict.get s.mirror k).any (isCurrent file) then s.goto p (.walking look (k :: expected))
  else s.goto p (.copying look expected k)

/-- What is left of the mirror. With nothing expected, nothing is removed. -/
def pruned (s : System P K) (expected kept : List K) : List (K × File) :=
  if expected = [] then s.mirror
  else s.mirror.filter fun item => item.1 ∈ expected || item.1 ∈ kept

/-- The pass returns. Without MetaEditor in the mirror, a process that has none yet takes the shared
toolchain. -/
def finish (s : System P K) (p : P) (look : Look) (expected kept : List K) (editor : Bool) :
    System P K :=
  let short := expected = [] || kept ≠ []
  { s with
    mirror := s.pruned expected kept
    process := Function.update s.process p
      { s.process p with
        toolchain := if (s.process p).toolchain = .unresolved && !editor then .shared else .mirror
        pc := .compiling look
        short := short }
    seen := if short then s.seen else Function.update s.seen p fun k => !s.touched k }

/-- The pass raises: a process that has no toolchain yet takes the shared one, and the others go on
with the mirror as it is. -/
def fail (s : System P K) (p : P) (look : Look) : System P K :=
  { s with
    process := Function.update s.process p
      { s.process p with
        toolchain := if (s.process p).toolchain = .unresolved then .shared else .mirror
        pc := .compiling look
        short := true } }

/-- The process is another one. -/
def restart (s : System P K) (p : P) : System P K :=
  { s with
    process := Function.update s.process p .new
    holder := if s.holder = some p then none else s.holder
    seen := Function.update s.seen p fun _ => false }

/-- Every file that has been there since the pass began has been visited. -/
def walked (s : System P K) (expected : List K) : Bool :=
  s.source.all fun item => s.touched item.1 || expected.contains item.1

/-- One step, or `none` if it cannot be taken. -/
def step (s : System P K) : Label P K → Option (System P K)
  | .tick mono wall => some { s with mono := s.mono + mono, wall := s.wall + wall }
  | .change k file => some (s.change k file)
  | .mark => some { s with marker := some s.wall }
  | .acquire p =>
    if s.holder = none ∧ (s.process p).pc = .idle then
      some ({ s with holder := some p }.goto p .locked)
    else none
  | .look p => if (s.process p).pc = .locked then some (s.goto p (s.looked p)) else none
  | .check p =>
    match (s.process p).pc with
    | .checking look => some (s.check p look)
    | _ => none
  | .visit p k =>
    match (s.process p).pc, Dict.get s.source k with
    | .walking look expected, some file => some (s.visit p look expected k file)
    | _, _ => none
  | .copied p content =>
    match (s.process p).pc with
    | .copying look expected k =>
      match Dict.get s.source k with
      -- what is read of a file may be mixed if it is written meanwhile
      | some file =>
        if s.touched k || content = file.content then
          some ((s.put k ⟨content, file.second⟩).goto p (.walking look (k :: expected)))
        else none
      | none => none
    | _ => none
  | .finish p kept editor =>
    match (s.process p).pc with
    | .walking look expected =>
      if s.walked expected then some (s.finish p look expected kept editor) else none
    | _ => none
  | .fail p torn =>
    match (s.process p).pc with
    | .walking look _ => some (s.fail p look)
    | .copying look _ _ => some ((s.tear p torn).fail p look)
    | _ => none
  | .release p =>
    match (s.process p).pc with
    | .compiling _ => some ({ s with holder := none }.goto p .idle)
    | _ => none
  | .restart p torn => some ((s.tear p torn).restart p)

end System

end Compile.Refresh

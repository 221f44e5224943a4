import Mathlib.Data.List.Basic
import Mathlib.Data.Nat.Notation
import Mt5HttpApi.Lib.Dict

/-!
# Which containers the watchdog looks at

The VMs of a project, by the repository of their image, and the containers of the project that are
bound to the network namespace of another one. Both leave the watchdog itself out. A sidecar is put
to the VM that the token after `container:` names.
-/

namespace Watchdog

/-! ### Containers -/

/-- `State.Health` of a container. -/
structure Health where
  status : Option String
  failingStreak : Option ℤ

/-- The answer to an inspect. It is `refused` where the client raises a `RuntimeError` or an
`OSError`. -/
inductive Inspected
  | refused
  | state (health : Option Health)

/-- A running container of a list, with the answer to an inspect of it in the pass over the list. -/
structure Container where
  id : String
  names : List String
  image : String
  labels : List (String × String)
  networkMode : String
  inspected : Inspected

/-- The health of a container and how often it failed in a row. -/
def healthOf : Inspected → Option (String × ℤ)
  | .refused => none
  | .state none => some ("none", 0)
  | .state (some health) => some (health.status.getD "none", health.failingStreak.getD 0)

/-- The compose service of a container, unless it is empty. -/
def Container.service (c : Container) : Option String :=
  (Dict.get c.labels "com.docker.compose.service").filter fun service => service ≠ ""

/-! ### The scope -/

/-- The settings that bound what the watchdog acts on. The full id is empty where it is unknown. -/
structure Scope where
  imageFilter : String
  selfId : String
  selfFullId : String
  watchSidecars : Bool

def startsWith (text start : String) : Bool := start.toList.isPrefixOf text.toList

/-- The image is of the repository, with any tag or digest. -/
def imageMatches (image repo : String) : Bool :=
  image = repo || startsWith image (repo ++ ":") || startsWith image (repo ++ "@")

/-- `[0-9a-f]{12,64}`. -/
def hexId (id : String) : Bool :=
  id.toList.all (fun c => c.isDigit || ('a' ≤ c && c ≤ 'f')) && 12 ≤ id.length && id.length ≤ 64

/-- The container is the watchdog's own. -/
def isSelf (s : Scope) (containerId : String) : Bool :=
  if s.selfFullId ≠ "" then containerId = s.selfFullId
  else if s.selfId ≠ "" && hexId s.selfId then
    containerId = s.selfId || startsWith containerId s.selfId
  else false

/-- The container is of the project. An empty project takes all of them. -/
def ofProject (project : String) (c : Container) : Bool :=
  project = "" || Dict.get c.labels "com.docker.compose.project" = some project

/-- The VMs of the project. -/
def scopedContainers (s : Scope) (project : String) (listed : List Container) : List Container :=
  listed.filter fun c => !isSelf s c.id && ofProject project c && imageMatches c.image s.imageFilter

/-- What is after the first colon. -/
def afterColon (text : String) : String :=
  String.ofList ((text.toList.dropWhile fun c => c ≠ ':').drop 1)

/-- The containers of the project that are bound to the namespace of another one, each with the
token that names the owner. -/
def netnsSidecars (s : Scope) (project : String) (listed : List Container) :
    List (Container × String) :=
  (listed.filter fun c => !isSelf s c.id && ofProject project c &&
    startsWith c.networkMode "container:").map fun c => (c, afterColon c.networkMode)

/-- The token names the VM: by its id, by the beginning of it, or by one of its names. -/
def named (token : String) (vm : Container) : Bool :=
  vm.id ≠ "" && (vm.id = token || (12 ≤ token.length && startsWith vm.id token) ||
    vm.names.any fun name => name.toList.dropWhile (fun c => c = '/') = token.toList)

/-- The VM that a token names. -/
def ownerContainer (token : String) (vms : List Container) : Option Container :=
  vms.find? (named token)

variable {s : Scope} {project : String} {listed : List Container} {c : Container} {token : String}

/-- Where the own id is resolved, only the container with that id is left out. -/
theorem isSelf_eq_false_iff (hself : s.selfFullId ≠ "") {id : String} :
    isSelf s id = false ↔ id ≠ s.selfFullId := by
  rw [isSelf, if_pos hself, decide_eq_false_iff_not]

theorem ofProject_iff (hproject : project ≠ "") : ofProject project c = true ↔
    Dict.get c.labels "com.docker.compose.project" = some project := by
  simp [ofProject, hproject]

theorem mem_scopedContainers : c ∈ scopedContainers s project listed ↔
    c ∈ listed ∧ isSelf s c.id = false ∧ ofProject project c = true ∧
      imageMatches c.image s.imageFilter = true := by
  simp [scopedContainers, and_assoc]

theorem mem_netnsSidecars : (c, token) ∈ netnsSidecars s project listed ↔
    c ∈ listed ∧ isSelf s c.id = false ∧ ofProject project c = true ∧
      startsWith c.networkMode "container:" = true ∧ token = afterColon c.networkMode := by
  simp only [netnsSidecars, List.mem_map, List.mem_filter, Bool.and_eq_true, Bool.not_eq_true',
    Prod.mk.injEq]
  constructor
  · rintro ⟨other, ⟨hlisted, ⟨hself, hproject⟩, hmode⟩, rfl, rfl⟩
    exact ⟨hlisted, hself, hproject, hmode, rfl⟩
  · rintro ⟨hlisted, hself, hproject, hmode, rfl⟩
    exact ⟨c, ⟨hlisted, ⟨hself, hproject⟩, hmode⟩, rfl, rfl⟩

/-- A mode that begins so names its owner after the colon. -/
theorem networkMode_eq (h : startsWith c.networkMode "container:" = true) :
    c.networkMode = "container:" ++ afterColon c.networkMode := by
  obtain ⟨rest, hrest⟩ := List.isPrefixOf_iff_prefix.mp h
  have hdrop : (("container:".toList ++ rest).dropWhile fun c => c ≠ ':').drop 1 = rest := by
    simp
  have htext : (String.ofList rest).toList = rest := String.toList_ofList
  apply String.toList_inj.mp
  rw [String.toList_append, afterColon, ← hrest, hdrop, htext]

end Watchdog

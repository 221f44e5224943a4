import Mt5HttpApi.Lib.JsonText
import Mt5HttpApi.Lib.Text
import Mt5HttpApi.Lib.Transition

/-!
# The deployments the API knows

`mt5api/chartctl/registry.py` and the requests of `mt5api/handlers/chartctl.py` that change it:
creating a deployment, changing its set file or pausing it, removing it, and `rewrite_desired`.
Every change raises the revision by one. A `Request` is answered in one step of `step`; what it
meets outside the registry (staged files, the clock, chance) is a `Host`.

`handle_forall` is the rule for what is true of every deployment.
-/

namespace ChartCtl

open JsonText Text

/-- The text of `_now_iso`. Such texts are compared as texts. -/
abbrev Moment := List Char

/-- A deployment as the registry keeps it. -/
structure Deployment where
  id : List Char
  expertFile : List Char
  expertName : List Char
  setFile : Option (List Char)
  symbol : List Char
  timeframe : List Char
  enabled : Bool
  createdAt : Moment
  updatedAt : Moment
  deriving DecidableEq

/-- `_STATE`: the revision and the dictionary of deployments by id, in the order of insertion. -/
structure Registry where
  revision : Nat
  deployments : List Deployment

/-- `_empty_state`. -/
def emptyState : Registry := ⟨0, []⟩

/-- `state["deployments"][dep["id"]] = dep`. -/
def Registry.put (reg : Registry) (dep : Deployment) : List Deployment :=
  if reg.deployments.any (·.id = dep.id) then
    reg.deployments.map fun d => if d.id = dep.id then dep else d
  else reg.deployments ++ [dep]

/-- `state["deployments"].get(dep_id)`. -/
def Registry.get (reg : Registry) (id : List Char) : Option Deployment :=
  reg.deployments.find? (·.id = id)

/-- What a request meets outside the registry. -/
structure Host where
  /-- `_resolve_expert` finds the file. -/
  resolveExpert : List Char → Bool
  /-- `_resolve_set` finds the file. -/
  resolveSet : List Char → Bool
  /-- The text of the `ValueError` that `_materialize_tpl` raises. -/
  materializeTpl : Deployment → Option (List Char)
  /-- `_now_iso()`, at its first and at its second use. -/
  now : Moment
  later : Moment
  /-- The bytes of `secrets.token_hex(4)`. -/
  random : UInt32

/-- `new_id`. -/
def newId (random : UInt32) : List Char :=
  "dep_".toList ++ (List.range 8).map fun i => hexDigit (random.toNat / 16 ^ (7 - i) % 16)

/-- `str.upper`, by the case table of Unicode. -/
structure Casing where
  upper : List Char → List Char

/-! ## Names of files -/

/-- `os.path.basename`: after the drive, the last component. -/
def ntBasename (name : List Char) : List Char :=
  let tail := if name[1]? = some ':' then name.drop 2 else name
  afterLast '/' (afterLast '\\' tail)

/-- `_BAD_CHARS`. -/
def badChar (c : Char) : Bool := c ∈ "<>:\"/\\|?*".toList || c.toNat < 0x20

/-- `safe_name`: the bare name, or the text of the error. -/
def safeName (name field requiredExt : List Char) : Except (List Char) (List Char) :=
  let name := strip name
  if name = [] then .error (field ++ ": filename is required".toList)
  else if name ≠ ntBasename name ∨ name = ['.'] ∨ name = ['.', '.'] then
    .error (field ++ ": path components are not allowed".toList)
  else if name.any badChar then .error (field ++ ": illegal characters in filename".toList)
  else if name.head? = some '.' then .error (field ++ ": hidden files are not allowed".toList)
  else if contains "..".toList name then
    .error (field ++ ": traversal sequences are not allowed".toList)
  else if !endsWithIgnoringCase requiredExt name then
    .error (field ++ ": must end in ".toList ++ requiredExt)
  else .ok name

/-- `expert_file[:-4]` when the file ends in `.ex5`. -/
def expertNameOf (expertFile : List Char) : List Char :=
  if endsWithIgnoringCase ".ex5".toList expertFile then expertFile.take (expertFile.length - 4)
  else expertFile

/-! ## The registry -/

/-- `_check_no_duplicate_chart`: the text of the error. -/
def checkNoDuplicateChart (casing : Casing) (reg : Registry) (symbol timeframe : List Char)
    (excludeId : Option (List Char)) : Option (List Char) :=
  (reg.deployments.find? fun other => some other.id ≠ excludeId ∧ other.enabled ∧
      casing.upper other.symbol = casing.upper symbol ∧
      casing.upper other.timeframe = casing.upper timeframe).map fun other =>
    "enabled deployment ".toList ++ other.id ++ " already targets ".toList ++ symbol ++ [' '] ++
      timeframe

/-- The values of a deployment to be added. -/
structure Draft where
  expertFile : List Char
  expertName : List Char
  setFile : Option (List Char)
  symbol : List Char
  timeframe : List Char
  enabled : Bool

/-- The check of `add_deployment`. -/
def checkAdd (casing : Casing) (reg : Registry) (draft : Draft) : Option (List Char) :=
  if draft.enabled then checkNoDuplicateChart casing reg draft.symbol draft.timeframe none else none

/-- The deployment of a draft. -/
def Draft.deployment (draft : Draft) (host : Host) : Deployment where
  id := newId host.random
  expertFile := draft.expertFile
  expertName := draft.expertName
  setFile := draft.setFile
  symbol := draft.symbol
  timeframe := draft.timeframe
  enabled := draft.enabled
  createdAt := host.now
  updatedAt := host.later

/-- `add_deployment`. -/
def addDeployment (casing : Casing) (host : Host) (reg : Registry) (draft : Draft) :
    Except (List Char) (Deployment × Registry) :=
  match checkAdd casing reg draft with
  | some message => .error message
  | none =>
    .ok (draft.deployment host, ⟨reg.revision + 1, reg.put (draft.deployment host)⟩)

/-- The changes of a deployment. -/
structure Changes where
  setFile : Option (Option (List Char))
  enabled : Option Bool

/-- `dep.update(changes)`. -/
def Deployment.update (dep : Deployment) (changes : Changes) (now : Moment) : Deployment :=
  { dep with
    setFile := changes.setFile.getD dep.setFile
    enabled := changes.enabled.getD dep.enabled
    updatedAt := now }

/-- The exceptions of `update_deployment`. -/
inductive UpdateError
  | key
  | duplicateChart (message : List Char)

/-- The check of `update_deployment`: a paused deployment that is resumed. -/
def checkResume (casing : Casing) (reg : Registry) (dep : Deployment) (changes : Changes) :
    Option (List Char) :=
  if changes.enabled = some true ∧ !dep.enabled then
    checkNoDuplicateChart casing reg dep.symbol dep.timeframe (some dep.id)
  else none

/-- `update_deployment`. -/
def updateDeployment (casing : Casing) (host : Host) (reg : Registry) (id : List Char)
    (changes : Changes) : Except UpdateError (Deployment × Registry) :=
  match reg.get id with
  | none => .error .key
  | some dep =>
    match checkResume casing reg dep changes with
    | some message => .error (.duplicateChart message)
    | none =>
      .ok (dep.update changes host.now, ⟨reg.revision + 1, reg.put (dep.update changes host.now)⟩)

/-- `remove_deployment`. -/
def removeDeployment (reg : Registry) (id : List Char) : Option (Deployment × Registry) :=
  (reg.get id).map fun dep =>
    (dep, ⟨reg.revision + 1, reg.deployments.filter (·.id ≠ id)⟩)

/-- `rewrite_desired`. -/
def rewriteDesired (reg : Registry) : Registry := ⟨reg.revision + 1, reg.deployments⟩

/-- `_load_locked` after a restart of the API: the file has the deployments in the order of their
ids. -/
def loadLocked (reg : Registry) : Registry :=
  ⟨reg.revision, reg.deployments.insertionSort fun a b => a.id ≤ b.id⟩

/-! ## Requests -/

/-- An answer: a deployment, or a refusal with its code and text. -/
inductive Answer
  | deployment (status : Nat) (dep : Deployment)
  | refused (status : Nat) (code : String) (message : List Char)

/-- The body of a request to create a deployment. -/
structure CreateRequest where
  expert : List Char
  set : Option (List Char)
  symbol : List Char
  timeframe : List Char
  enabled : Bool

/-- `_VALID_TIMEFRAMES`, sorted. -/
def validTimeframes : List (List Char) :=
  ["D1", "H1", "H12", "H2", "H3", "H4", "H6", "H8", "M1", "M10", "M12", "M15", "M2", "M20", "M3",
    "M30", "M4", "M5", "M6", "MN1", "W1"].map String.toList

/-- `str` of a list of texts that have no quotes. -/
def reprTexts (texts : List (List Char)) : List Char :=
  ['['] ++ ", ".toList.intercalate (texts.map fun text => ['\''] ++ text ++ ['\'']) ++ [']']

/-- A text that is present and not empty. -/
def present (text : Option (List Char)) : Option (List Char) := text.filter (· ≠ [])

/-- The checks of `create_deployment` on the body. -/
def checkCreate (casing : Casing) (request : CreateRequest) : Except (List Char) Draft := do
  let expertFile ← safeName request.expert "expert".toList ".ex5".toList
  let setFile ← (present request.set).mapM fun set => safeName set "set".toList ".set".toList
  let symbol := strip request.symbol
  let timeframe := casing.upper (strip request.timeframe)
  if symbol = [] then throw "symbol is required".toList
  if timeframe ∉ validTimeframes then
    throw ("timeframe must be one of ".toList ++ reprTexts validTimeframes)
  pure
    { expertFile := expertFile, expertName := expertNameOf expertFile, setFile := setFile
      symbol := symbol, timeframe := timeframe, enabled := request.enabled }

/-- `create_deployment` before it adds anything: the checks on the body, then on the files. -/
def acceptCreate (casing : Casing) (host : Host) (request : CreateRequest) : Except Answer Draft :=
  match checkCreate casing request with
  | .error message => .error (.refused 400 "BAD_REQUEST" message)
  | .ok draft =>
    if !host.resolveExpert draft.expertFile then
      .error (.refused 404 "ARTIFACT_NOT_FOUND" ("expert ".toList ++ draft.expertFile ++
        " is not staged — upload it first".toList))
    else
      match draft.setFile.filter fun set => !host.resolveSet set with
      | some set =>
        .error (.refused 404 "ARTIFACT_NOT_FOUND" ("set ".toList ++ set ++
          " is not staged — upload it first".toList))
      | none => .ok draft

/-- `create_deployment`. -/
def createDeployment (casing : Casing) (host : Host) (reg : Registry) (request : CreateRequest) :
    Answer × Registry :=
  match acceptCreate casing host request with
  | .error answer => (answer, reg)
  | .ok draft =>
    match addDeployment casing host reg draft with
    | .error message => (.refused 409 "DUPLICATE_CHART" message, reg)
    | .ok (dep, added) =>
      match host.materializeTpl dep with
      | none => (.deployment 202 dep, added)
      | some message =>
        (.refused 500 "TPL_GENERATION_FAILED" message,
          ((removeDeployment added dep.id).map Prod.snd).getD added)

/-- A draft has a timeframe of the list. -/
theorem timeframe_of_checkCreate {casing : Casing} {request : CreateRequest} {draft : Draft}
    (h : checkCreate casing request = .ok draft) : draft.timeframe ∈ validTimeframes := by
  simp only [checkCreate, bind, Except.bind, pure, Except.pure] at h
  split at h
  · cases h
  split at h
  · cases h
  split at h
  · cases h
  split at h
  · cases h
  next hmem =>
    obtain rfl := Except.ok.inj h
    exact not_not.mp hmem

theorem checkCreate_of_accept {casing : Casing} {host : Host} {request : CreateRequest}
    {draft : Draft} (h : acceptCreate casing host request = .ok draft) :
    checkCreate casing request = .ok draft := by
  rw [acceptCreate] at h
  split at h
  next => cases h
  next checked hcheck =>
    split at h
    · cases h
    split at h
    · cases h
    · rw [hcheck, Except.ok.inj h]

/-- The body of a request to change a deployment: `set` may be there and empty. -/
structure PatchRequest where
  set : Option (Option (List Char))
  enabled : Option Bool

/-- The checks of `patch_deployment` on the body. -/
def checkPatch (host : Host) (request : PatchRequest) : Except Answer Changes := do
  let setFile ← request.set.mapM fun set =>
    (present set).mapM fun name =>
      match safeName name "set".toList ".set".toList with
      | .error message => .error (Answer.refused 400 "BAD_REQUEST" message)
      | .ok name =>
        if host.resolveSet name then .ok name
        else .error (.refused 404 "ARTIFACT_NOT_FOUND"
          ("set ".toList ++ name ++ " is not staged".toList))
  if setFile = none ∧ request.enabled = none then
    throw (.refused 400 "BAD_REQUEST" "nothing to change: pass 'set' and/or 'enabled'".toList)
  pure ⟨setFile, request.enabled⟩

/-- The answer to a request for a deployment that is not there. -/
def notFound (id : List Char) : Answer :=
  .refused 404 "NOT_FOUND" ("deployment ".toList ++ id ++ " does not exist".toList)

/-- `patch_deployment`. -/
def patchDeployment (casing : Casing) (host : Host) (reg : Registry) (id : List Char)
    (request : PatchRequest) : Answer × Registry :=
  match checkPatch host request with
  | .error answer => (answer, reg)
  | .ok changes =>
    match updateDeployment casing host reg id changes with
    | .error .key => (notFound id, reg)
    | .error (.duplicateChart message) => (.refused 409 "DUPLICATE_CHART" message, reg)
    | .ok (dep, updated) =>
      match if changes.setFile.isSome then host.materializeTpl dep else none with
      | some message => (.refused 500 "TPL_GENERATION_FAILED" message, updated)
      | none => (.deployment 200 dep, updated)

/-- `delete_deployment`. -/
def deleteDeployment (reg : Registry) (id : List Char) : Answer × Registry :=
  match removeDeployment reg id with
  | none => (notFound id, reg)
  | some (dep, removed) => (.deployment 200 dep, removed)

/-- What happens to the registry. -/
inductive Request
  | create (request : CreateRequest)
  | patch (id : List Char) (request : PatchRequest)
  | delete (id : List Char)
  | reconcile
  | restart

/-- The registry after a request. -/
def handle (casing : Casing) (host : Host) (reg : Registry) : Request → Registry
  | .create request => (createDeployment casing host reg request).2
  | .patch id request => (patchDeployment casing host reg id request).2
  | .delete id => (deleteDeployment reg id).2
  | .reconcile => rewriteDesired reg
  | .restart => loadLocked reg

/-- One request. -/
def step (casing : Casing) (reg : Registry) (label : Host × Request) : Option Registry :=
  some (handle casing label.1 reg label.2)

/-- A host on which every file is there. -/
def openHost : Host where
  resolveExpert _ := true
  resolveSet _ := true
  materializeTpl _ := none
  now := "2026-07-09T12:00:00Z".toList
  later := "2026-07-09T12:00:00Z".toList
  random := 0xa1b2c3d4

def asciiCasing : Casing := ⟨List.map Char.toUpper⟩

/-! ## What is true of every deployment -/

variable {casing : Casing} {host : Host} {reg : Registry} {P : Deployment → Prop}

theorem Registry.forall_put (hreg : ∀ d ∈ reg.deployments, P d) {dep : Deployment} (hdep : P dep) :
    ∀ d ∈ reg.put dep, P d := by
  intro d hd
  rw [Registry.put] at hd
  split at hd
  · obtain ⟨e, he, rfl⟩ := List.mem_map.mp hd
    split
    · exact hdep
    · exact hreg e he
  · rcases List.mem_append.mp hd with hd | hd
    · exact hreg d hd
    · rwa [List.mem_singleton.mp hd]

/-- What is added is what is true of the draft. -/
theorem addDeployment_forall {draft : Draft} {dep : Deployment} {added : Registry}
    (h : addDeployment casing host reg draft = .ok (dep, added))
    (hreg : ∀ d ∈ reg.deployments, P d)
    (hadd : checkAdd casing reg draft = none → P (draft.deployment host)) :
    (∀ d ∈ added.deployments, P d) ∧ added.revision = reg.revision + 1 := by
  rw [addDeployment] at h
  split at h
  next => cases h
  next hcheck =>
    obtain ⟨rfl, rfl⟩ := Prod.mk.inj (Except.ok.inj h)
    exact ⟨Registry.forall_put hreg (hadd hcheck), rfl⟩

theorem updateDeployment_forall {id : List Char} {changes : Changes} {dep : Deployment}
    {updated : Registry} (h : updateDeployment casing host reg id changes = .ok (dep, updated))
    (hreg : ∀ d ∈ reg.deployments, P d)
    (hupdate : ∀ d changes now, P d → P (Deployment.update d changes now)) :
    (∀ d ∈ updated.deployments, P d) ∧ updated.revision = reg.revision + 1 := by
  rw [updateDeployment] at h
  split at h
  next => cases h
  next found hget =>
    split at h
    next => cases h
    next =>
      obtain ⟨-, rfl⟩ := Prod.mk.inj (Except.ok.inj h)
      have hfound : P found := hreg found (List.mem_of_find?_eq_some hget)
      exact ⟨Registry.forall_put hreg (hupdate found changes host.now hfound), rfl⟩

theorem removeDeployment_forall {id : List Char} {dep : Deployment} {removed : Registry}
    (h : removeDeployment reg id = some (dep, removed)) (hreg : ∀ d ∈ reg.deployments, P d) :
    (∀ d ∈ removed.deployments, P d) ∧ removed.revision = reg.revision + 1 := by
  obtain ⟨found, -, heq⟩ := Option.map_eq_some_iff.mp h
  obtain ⟨-, rfl⟩ := Prod.mk.inj heq
  exact ⟨fun d hd => hreg d (List.mem_of_mem_filter hd), rfl⟩

theorem createDeployment_forall {request : CreateRequest} (hreg : ∀ d ∈ reg.deployments, P d)
    (hadd : ∀ draft, acceptCreate casing host request = .ok draft →
      checkAdd casing reg draft = none →
      P (draft.deployment host)) :
    (∀ d ∈ (createDeployment casing host reg request).2.deployments, P d) ∧
      (createDeployment casing host reg request).2.revision ≤ reg.revision + 2 := by
  rw [createDeployment]
  split
  next => exact ⟨hreg, Nat.le_add_right _ _⟩
  next draft haccept =>
    split
    next => exact ⟨hreg, Nat.le_add_right _ _⟩
    next dep added hok =>
      obtain ⟨hadded, hrev⟩ := addDeployment_forall hok hreg (hadd draft haccept)
      split
      next => exact ⟨hadded, hrev.trans_le (by omega)⟩
      next =>
        -- without a template the deployment is removed again, and the revision raised again
        rcases hremove : removeDeployment added dep.id with _ | ⟨gone, removed⟩
        · exact ⟨hadded, hrev.trans_le (by omega)⟩
        · obtain ⟨hremoved, hrev'⟩ := removeDeployment_forall hremove hadded
          exact ⟨hremoved, hrev'.trans_le (by omega)⟩

/-- What a request keeps of every deployment: what a change keeps, and what is true of the
deployment it adds. -/
theorem handle_forall {request : Request} (hreg : ∀ d ∈ reg.deployments, P d)
    (hupdate : ∀ d changes now, P d → P (Deployment.update d changes now))
    (hadd : ∀ body draft, request = .create body → acceptCreate casing host body = .ok draft →
      checkAdd casing reg draft = none → P (draft.deployment host)) :
    (∀ d ∈ (handle casing host reg request).deployments, P d) ∧
      (handle casing host reg request).revision ≤ reg.revision + 2 := by
  cases request with
  | create body => exact createDeployment_forall hreg fun draft => hadd body draft rfl
  | patch id body =>
    simp only [handle, patchDeployment]
    split
    next => exact ⟨hreg, Nat.le_add_right _ _⟩
    next changes _ =>
      split
      next => exact ⟨hreg, Nat.le_add_right _ _⟩
      next => exact ⟨hreg, Nat.le_add_right _ _⟩
      next dep updated hok =>
        obtain ⟨hupdated, hrev⟩ := updateDeployment_forall hok hreg hupdate
        split
        · exact ⟨hupdated, hrev.trans_le (by omega)⟩
        · exact ⟨hupdated, hrev.trans_le (by omega)⟩
  | delete id =>
    simp only [handle, deleteDeployment]
    split
    next => exact ⟨hreg, Nat.le_add_right _ _⟩
    next dep removed hok =>
      obtain ⟨hremoved, hrev⟩ := removeDeployment_forall hok hreg
      exact ⟨hremoved, hrev.trans_le (by omega)⟩
  | reconcile => exact ⟨hreg, Nat.le_succ _⟩
  | restart =>
    refine ⟨fun d hd => hreg d ?_, Nat.le_add_right _ _⟩
    exact (List.mem_insertionSort _).mp hd

end ChartCtl

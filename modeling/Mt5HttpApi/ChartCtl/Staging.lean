import Mt5HttpApi.ChartCtl.Refusals

/-!
# The files of deployments

The artifacts of `mt5api/handlers/chartctl.py`, experts and sets, and the requests that stage them,
remove them and register deployments that name them. Each request is a sequence of calls, and the
calls of different requests interleave. The file system tells no two names apart that have one key.

* `Phase` is where a request is, and `Staging.advance` its next call.
* `Kept` says that every registered deployment has its files.
* `Whole` adds to it what the calls between a check and what relies on it need: `keepsFiles` is the
  result.
-/

namespace ChartCtl.Staging

/-- The two kinds of artifacts. -/
inductive Kind
  | expert
  | set
  deriving DecidableEq

/-- The file system: the file that a name stands for, by its key, and the files of the host. -/
structure Volume where
  key : List Char → List Char
  host : Kind → List Char → Bool

/-- The file of a kind that a deployment names. -/
def file (dep : Deployment) : Kind → Option (List Char)
  | .expert => some dep.expertFile
  | .set => dep.setFile

/-- Where a request is: before the call it makes next. -/
inductive Phase
  | idle
  /-- `upload_expert`: before `os.path.exists`. It leaves a file that is there, of any content. -/
  | uploading (name : List Char) (overwrite : Bool)
  /-- An upload before `atomic_write_bytes`. -/
  | writing (kind : Kind) (name : List Char)
  /-- `delete_expert` and `delete_set`: before they look for the file. -/
  | checking (kind : Kind) (name : List Char)
  /-- Before `expert_in_use` or `set_in_use`. -/
  | checkingUse (kind : Kind) (name : List Char)
  /-- Before `os.remove`. -/
  | removing (kind : Kind) (name : List Char)
  /-- `create_deployment`: before `_resolve_expert`. -/
  | resolvingExpert (draft : Draft)
  /-- Before a host expert is copied to the uploaded ones. -/
  | mirroring (draft : Draft)
  /-- Before `_resolve_set`. -/
  | resolvingSet (draft : Draft)
  /-- Before `add_deployment`. -/
  | adding (draft : Draft)
  /-- Before `_materialize_tpl`. -/
  | materializing (id : List Char)
  /-- Before `remove_deployment`. -/
  | dropping (id : List Char)
  /-- `patch_deployment`: before `_resolve_set`. -/
  | resolvingPatch (id : List Char) (changes : Changes)
  /-- Before `update_deployment`. What comes after it changes nothing here. -/
  | updating (id : List Char) (changes : Changes)

/-- A request. -/
inductive Request
  | uploadExpert (name : List Char) (overwrite : Bool)
  | uploadSet (name : List Char)
  | deleteExpert (name : List Char)
  | deleteSet (name : List Char)
  | create (request : CreateRequest)
  | patch (id : List Char) (request : PatchRequest)
  | delete (id : List Char)

/-- What a call meets outside. -/
structure Outside where
  /-- A file can be written or removed, and the registry be written. -/
  succeeds : Bool
  /-- The id and the moments of a deployment. -/
  host : Host
  materializeTpl : Materialized

/-- The body of a patch, with a set that is not looked for yet. -/
def namedChanges (request : PatchRequest) : Except (List Char) Changes := do
  let setFile ← request.set.mapM fun set =>
    (present set).mapM fun name => safeName name "set".toList ".set".toList
  if setFile = none ∧ request.enabled = none then
    throw "nothing to change: pass 'set' and/or 'enabled'".toList
  pure ⟨setFile, request.enabled⟩

/-- A request after the checks on its body. -/
def Request.admitted (casing : Casing) : Request → Except (List Char) Phase
  | .uploadExpert name overwrite =>
    (safeName name "expert".toList ".ex5".toList).map (Phase.uploading · overwrite)
  | .uploadSet name => (safeName name "set".toList ".set".toList).map (Phase.writing .set)
  | .deleteExpert name =>
    (safeName name "expert".toList ".ex5".toList).map (Phase.checking .expert)
  | .deleteSet name => (safeName name "set".toList ".set".toList).map (Phase.checking .set)
  | .create request => (checkCreate casing request).map .resolvingExpert
  | .patch id request => (namedChanges request).map (Phase.resolvingPatch id)
  | .delete id => .ok (.dropping id)

end ChartCtl.Staging

namespace ChartCtl

open Staging Transition

/-- `expert_in_use` and `set_in_use`. -/
def State.inUse (state : State) (kind : Kind) (name : List Char) : Bool :=
  state.deployments.any fun item => file item.2 kind = some name

/-- A registered deployment names the file. -/
def State.Names (state : State) (kind : Kind) (name : List Char) : Prop :=
  ∃ item ∈ state.deployments, file item.2 kind = some name

/-- The staged files by their keys, the registry, and the requests. -/
structure Staging (ρ : Type) where
  staged : Kind → List Char → Bool
  registry : State
  requests : ρ → Phase

namespace Staging

variable {ρ : Type} (V : Volume) (casing : Casing)

/-- A file is staged, or it is not any more. -/
def stage (staged : Kind → List Char → Bool) (kind : Kind) (name : List Char) (present : Bool) :
    Kind → List Char → Bool :=
  fun kind' key => if kind' = kind ∧ key = V.key name then present else staged kind' key

/-- `_resolve_expert` and `_resolve_set`: the file is there. What the host has does not change. -/
def resolves (staged : Kind → List Char → Bool) (kind : Kind) (name : List Char) : Bool :=
  staged kind (V.key name) || V.host kind (V.key name)

/-- The next call of a request: the staged files, the registry, and where the request is then. -/
def advance (staged : Kind → List Char → Bool) (registry : State) (x : Outside) :
    Phase → Option ((Kind → List Char → Bool) × State × Phase)
  | .idle => none
  | .uploading name overwrite =>
    if staged .expert (V.key name) ∧ !overwrite then some (staged, registry, .idle)
    else some (staged, registry, .writing .expert name)
  | .writing kind name =>
    some (if x.succeeds then stage V staged kind name true else staged, registry, .idle)
  | .checking kind name =>
    some (staged, registry, if staged kind (V.key name) then .checkingUse kind name else .idle)
  | .checkingUse kind name =>
    some (staged, registry, if registry.inUse kind name then .idle else .removing kind name)
  | .removing kind name =>
    some (if x.succeeds then stage V staged kind name false else staged, registry, .idle)
  | .resolvingExpert draft =>
    if staged .expert (V.key draft.expertFile) then some (staged, registry, .resolvingSet draft)
    else if V.host .expert (V.key draft.expertFile) then some (staged, registry, .mirroring draft)
    else some (staged, registry, .idle)
  | .mirroring draft =>
    if x.succeeds then
      some (stage V staged .expert draft.expertFile true, registry, .resolvingSet draft)
    else some (staged, registry, .idle)
  | .resolvingSet draft =>
    some (staged, registry,
      if draft.setFile.all (resolves V staged .set) then .adding draft else .idle)
  | .adding draft =>
    match mutate casing x.host registry (.add draft) with
    | .ok (_, changed) =>
      some (staged, changed,
        if x.succeeds then .materializing (draft.deployment x.host).id else .idle)
    | .error _ => some (staged, registry, .idle)
  | .materializing id =>
    some (staged, registry,
      match x.materializeTpl with
      | .valueError _ => .dropping id
      | _ => .idle)
  | .dropping id =>
    match mutate casing x.host registry (.remove id) with
    | .ok (_, changed) => some (staged, changed, .idle)
    | .error _ => some (staged, registry, .idle)
  | .resolvingPatch id changes =>
    some (staged, registry,
      if changes.setFile.join.all (resolves V staged .set) then .updating id changes else .idle)
  | .updating id changes =>
    match mutate casing x.host registry (.update id changes) with
    | .ok (_, changed) => some (staged, changed, .idle)
    | .error _ => some (staged, registry, .idle)

/-- A request comes in, or makes its next call. -/
inductive Event
  | request (request : Request)
  | next (x : Outside)

variable [DecidableEq ρ]

/-- A request is somewhere else now. -/
def put (s : Staging ρ) (r : ρ) (staged : Kind → List Char → Bool) (registry : State)
    (phase : Phase) : Staging ρ :=
  ⟨staged, registry, Function.update s.requests r phase⟩

/-- One step of a request. -/
def step (s : Staging ρ) (label : ρ × Event) : Option (Staging ρ) :=
  match label.2, s.requests label.1 with
  | .request request, .idle =>
    match request.admitted casing with
    | .ok phase => some (s.put label.1 s.staged s.registry phase)
    | .error _ => some s
  | .request _, _ => none
  | .next x, phase =>
    (advance V casing s.staged s.registry x phase).map fun after =>
      s.put label.1 after.1 after.2.1 after.2.2

omit [DecidableEq ρ] in
/-- No deployment is registered, and any files are staged. -/
def start (staged : Kind → List Char → Bool) : Staging ρ := ⟨staged, ⟨0, []⟩, fun _ => .idle⟩

/-! ## What is asked of every state -/

/-- Every file that a registered deployment names is staged, or the host has it. -/
def Kept (s : Staging ρ) : Prop :=
  ∀ kind name, s.registry.Names kind name → resolves V s.staged kind name = true

/-- The file that a request has found and registers a deployment with. -/
def Phase.holds : Phase → Kind → Option (List Char)
  | .mirroring draft, .expert => some draft.expertFile
  | .resolvingSet draft, .expert => some draft.expertFile
  | .adding draft, .expert => some draft.expertFile
  | .adding draft, .set => draft.setFile
  | .updating _ changes, .set => changes.setFile.join
  | _, _ => none

/-- No deployment is registered with a file that a removal has found unused. -/
def Unclaimed (s : Staging ρ) (kind : Kind) (name : List Char) : Prop :=
  ∀ r name', s.requests r = .removing kind name' → V.key name' = V.key name →
    V.host kind (V.key name) = true

/-- No call comes between a check and what relies on it that undoes it: what is found unused is not
named in another way, what is removed is held by no request, and what is registered is about to be
removed by none. -/
def Careful (s : Staging ρ) (label : ρ × Event) : Prop :=
  ∀ x, label.2 = .next x →
    match s.requests label.1 with
    | .checkingUse kind name => ∀ name', s.registry.Names kind name' → name' ≠ name →
        V.key name' = V.key name → V.host kind (V.key name) = true
    | .removing kind name => x.succeeds = true → ∀ r name', (s.requests r).holds kind = some name' →
        V.key name' = V.key name → V.host kind (V.key name) = true
    | .adding draft => ∀ after, mutate casing x.host s.registry (.add draft) = .ok after →
        ∀ kind name, (Phase.adding draft).holds kind = some name → Unclaimed V s kind name
    | .updating id changes =>
      ∀ after, mutate casing x.host s.registry (.update id changes) = .ok after →
        ∀ kind name, (Phase.updating id changes).holds kind = some name → Unclaimed V s kind name
    | _ => True

end Staging

namespace Staging

variable {ρ : Type} [DecidableEq ρ]

/-! ## Changes of the registry -/

variable {V : Volume} {casing : Casing} {s t : Staging ρ} {host : Host} {registry changed : State}
  {returned : Option Deployment} {kind : Kind} {name : List Char}

/-- What is in use is named. -/
theorem inUse_iff : registry.inUse kind name = true ↔ registry.Names kind name := by
  simp [State.inUse, State.Names]

/-- What is named after a deployment was added was named before, or the draft names it. -/
theorem names_add {draft : Draft}
    (h : mutate casing host registry (.add draft) = .ok (returned, changed))
    (hname : changed.Names kind name) :
    registry.Names kind name ∨ (Phase.adding draft).holds kind = some name := by
  obtain ⟨-, -, rfl⟩ := add_of_mutate h
  obtain ⟨item, hitem, hfile⟩ := hname
  rcases Dict.mem_set hitem with rfl | ⟨hold, -⟩
  · right
    rw [← hfile]
    cases kind <;> rfl
  · exact Or.inl ⟨item, hold, hfile⟩

/-- What is named after a deployment was changed was named before, or is the set of the change. -/
theorem names_update {id : List Char} {changes : Changes}
    (h : mutate casing host registry (.update id changes) = .ok (returned, changed))
    (hname : changed.Names kind name) :
    registry.Names kind name ∨ (Phase.updating id changes).holds kind = some name := by
  obtain ⟨dep, hget, -, -, rfl⟩ := update_of_mutate h
  obtain ⟨item, hitem, hfile⟩ := hname
  rcases Dict.mem_set hitem with rfl | ⟨hold, -⟩
  · have hdep : registry.Names kind name ∨ file dep kind ≠ some name := by
      by_cases hdep : file dep kind = some name
      · exact Or.inl ⟨_, Dict.mem_of_get hget, hdep⟩
      · exact Or.inr hdep
    refine hdep.imp_right fun hne => ?_
    cases kind with
    | expert => exact absurd hfile hne
    | set =>
      -- the set is another one, so it is of the change
      show changes.setFile.join = some name
      rcases hset : changes.setFile with _ | set
      · rw [file, Deployment.update, hset] at hfile
        exact absurd hfile hne
      · rw [file, Deployment.update, hset] at hfile
        exact hfile
  · exact Or.inl ⟨item, hold, hfile⟩

theorem names_remove {id : List Char}
    (h : mutate casing host registry (.remove id) = .ok (returned, changed))
    (hname : changed.Names kind name) : registry.Names kind name := by
  rw [remove_of_mutate h] at hname
  obtain ⟨item, hitem, hfile⟩ := hname
  exact ⟨item, (List.mem_filter.mp hitem).1, hfile⟩

/-! ## What a step keeps -/

@[simp]
theorem put_requests_self {r : ρ} {staged : Kind → List Char → Bool} {phase : Phase} :
    (s.put r staged registry phase).requests r = phase :=
  Function.update_self ..

theorem put_requests_of_ne {r r' : ρ} (h : r' ≠ r) {staged : Kind → List Char → Bool}
    {phase : Phase} : (s.put r staged registry phase).requests r' = s.requests r' :=
  Function.update_of_ne h ..

/-- The files are kept, and what a request has checked is still so when it relies on it. -/
structure Whole (V : Volume) (s : Staging ρ) : Prop where
  kept : Kept V s
  held : ∀ r kind name, (s.requests r).holds kind = some name →
    resolves V s.staged kind name = true
  unnamed : ∀ r kind name, s.requests r = .removing kind name → ∀ name',
    s.registry.Names kind name' → V.key name' = V.key name → V.host kind (V.key name) = true

theorem resolves_stage {staged : Kind → List Char → Bool} {kind' : Kind} {name' : List Char}
    (h : resolves V staged kind' name' = true) :
    resolves V (stage V staged kind name true) kind' name' = true := by
  rw [resolves, Bool.or_eq_true] at h ⊢
  refine h.imp_left fun h => ?_
  rw [stage]
  split
  · rfl
  · exact h

/-- A request moves on: files are staged at most, and what is registered it has found. -/
theorem Whole.put (hs : Whole V s) (r : ρ) {staged : Kind → List Char → Bool} {phase : Phase}
    (hgrow : ∀ kind name, resolves V s.staged kind name = true →
      resolves V staged kind name = true)
    (hnames : ∀ kind name, registry.Names kind name → s.registry.Names kind name ∨
      (s.requests r).holds kind = some name ∧ Unclaimed V s kind name)
    (hholds : ∀ kind name, phase.holds kind = some name → resolves V staged kind name = true)
    (hremoving : ∀ kind name, phase = .removing kind name → ∀ name', registry.Names kind name' →
      V.key name' = V.key name → V.host kind (V.key name) = true) :
    Whole V (s.put r staged registry phase) where
  kept kind name hname := by
    rcases hnames kind name hname with hold | ⟨hheld, -⟩
    · exact hgrow kind name (hs.kept kind name hold)
    · exact hgrow kind name (hs.held r kind name hheld)
  held r' kind name hheld := by
    by_cases hr : r' = r
    · subst hr
      rw [put_requests_self] at hheld
      exact hholds kind name hheld
    · rw [put_requests_of_ne hr] at hheld
      exact hgrow kind name (hs.held r' kind name hheld)
  unnamed r' kind name hphase name' hname' hkey := by
    by_cases hr : r' = r
    · subst hr
      rw [put_requests_self] at hphase
      exact hremoving kind name hphase name' hname' hkey
    · rw [put_requests_of_ne hr] at hphase
      rcases hnames kind name' hname' with hold | ⟨-, hunclaimed⟩
      · exact hs.unnamed r' kind name hphase name' hold hkey
      · rw [← hkey]
        exact hunclaimed r' name hphase hkey.symm

/-- The request relies on nothing that it has found. -/
structure Phase.Free (phase : Phase) : Prop where
  holds : ∀ kind, phase.holds kind = none
  not_removing : ∀ kind name, phase ≠ .removing kind name

/-- A request moves on and relies on nothing. -/
theorem Whole.free (hs : Whole V s) (r : ρ) {staged : Kind → List Char → Bool} {phase : Phase}
    (hgrow : ∀ kind name, resolves V s.staged kind name = true →
      resolves V staged kind name = true)
    (hnames : ∀ kind name, registry.Names kind name → s.registry.Names kind name ∨
      (s.requests r).holds kind = some name ∧ Unclaimed V s kind name)
    (hfree : phase.Free) : Whole V (s.put r staged registry phase) := by
  refine hs.put r hgrow hnames (fun kind name hholds => ?_) fun kind name hphase => ?_
  · rw [hfree.holds] at hholds
    cases hholds
  · exact absurd hphase (hfree.not_removing kind name)

/-- A request moves on and changes nothing but where it is. -/
theorem Whole.move (hs : Whole V s) (r : ρ) {phase : Phase} (hfree : phase.Free) :
    Whole V (s.put r s.staged s.registry phase) :=
  hs.free r (fun _ _ h => h) (fun _ _ h => Or.inl h) hfree

/-- A request moves on and relies on what it has found. -/
theorem Whole.find (hs : Whole V s) (r : ρ) {phase : Phase}
    (hholds : ∀ kind name, phase.holds kind = some name → resolves V s.staged kind name = true)
    (hremoves : ∀ kind name, phase ≠ .removing kind name) :
    Whole V (s.put r s.staged s.registry phase) :=
  hs.put r (fun _ _ h => h) (fun _ _ h => Or.inl h) hholds
    fun kind name hphase => absurd hphase (hremoves kind name)

theorem free_idle : Phase.Free .idle := ⟨fun kind => by cases kind <;> rfl, nofun⟩

theorem free_writing : Phase.Free (.writing kind name) := ⟨fun kind => by cases kind <;> rfl, nofun⟩

theorem free_checkingUse : Phase.Free (.checkingUse kind name) :=
  ⟨fun kind => by cases kind <;> rfl, nofun⟩

theorem free_materializing {id : List Char} : Phase.Free (.materializing id) :=
  ⟨fun kind => by cases kind <;> rfl, nofun⟩

theorem free_dropping {id : List Char} : Phase.Free (.dropping id) :=
  ⟨fun kind => by cases kind <;> rfl, nofun⟩

/-- A file is removed that no deployment names and no request holds. -/
theorem Whole.remove (hs : Whole V s) {r : ρ} (hphase : s.requests r = .removing kind name)
    (hfree : ∀ r name', (s.requests r).holds kind = some name' → V.key name' = V.key name →
      V.host kind (V.key name) = true) :
    Whole V (s.put r (stage V s.staged kind name false) s.registry .idle) := by
  have hother : ∀ kind' name', resolves V s.staged kind' name' = true →
      (kind' = kind → V.key name' = V.key name → V.host kind (V.key name) = true) →
      resolves V (stage V s.staged kind name false) kind' name' = true := by
    intro kind' name' hpresent hhost
    rw [resolves, stage]
    split
    next hsame =>
      obtain ⟨rfl, hkey⟩ := hsame
      rw [Bool.false_or, hkey]
      exact hhost rfl hkey
    next => exact hpresent
  constructor
  · intro kind' name' hname
    refine hother kind' name' (hs.kept kind' name' hname) ?_
    rintro rfl hkey
    exact hs.unnamed r kind' name hphase name' hname hkey
  · intro r' kind' name' hheld
    by_cases hr : r' = r
    · subst hr
      rw [put_requests_self] at hheld
      cases hheld
    · rw [put_requests_of_ne hr] at hheld
      refine hother kind' name' (hs.held r' kind' name' hheld) ?_
      rintro rfl hkey
      exact hfree r' name' hheld hkey
  · intro r' kind' name' hphase'
    by_cases hr : r' = r
    · subst hr
      rw [put_requests_self] at hphase'
      cases hphase'
    · rw [put_requests_of_ne hr] at hphase'
      exact hs.unnamed r' kind' name' hphase'

/-- A request that was just admitted has looked for nothing yet. -/
theorem free_admitted {request : Request} {phase : Phase}
    (h : request.admitted casing = .ok phase) : phase.Free := by
  have hmap : ∀ {α : Type} {e : Except (List Char) α} {f : α → Phase}, (∀ a, (f a).Free) →
      e.map f = .ok phase → phase.Free := by
    intro α e f hf hmap
    cases e with
    | error message => cases hmap
    | ok a =>
      obtain rfl := Except.ok.inj hmap
      exact hf a
  cases request with
  | delete id =>
    obtain rfl := Except.ok.inj h
    exact free_dropping
  | uploadExpert | uploadSet | deleteExpert | deleteSet | create | patch =>
    exact hmap (fun _ => ⟨fun kind => by cases kind <;> rfl, fun _ _ => Phase.noConfusion⟩) h

/-- A call of a request keeps the files, when no other call came in between. -/
theorem Whole.next (hs : Whole V s) {r : ρ} {x : Outside}
    {after : (Kind → List Char → Bool) × State × Phase}
    (hok : Careful V casing s (r, .next x))
    (h : advance V casing s.staged s.registry x (s.requests r) = some after) :
    Whole V (s.put r after.1 after.2.1 after.2.2) := by
  have hheld := hs.held r
  replace hok := hok x rfl
  have hnames : ∀ kind name, s.registry.Names kind name → s.registry.Names kind name ∨
      (s.requests r).holds kind = some name ∧ Unclaimed V s kind name := fun _ _ h => Or.inl h
  have hsame : ∀ kind name, resolves V s.staged kind name = true →
      resolves V s.staged kind name = true := fun _ _ h => h
  cases hphase : s.requests r with
  | idle =>
    rw [hphase] at h
    cases h
  | uploading name overwrite =>
    rw [hphase, advance] at h
    split at h
    · obtain rfl := Option.some.inj h
      exact hs.move r free_idle
    · obtain rfl := Option.some.inj h
      exact hs.move r free_writing
  | writing kind name =>
    rw [hphase, advance] at h
    obtain rfl := Option.some.inj h
    refine hs.free r (fun kind' name' hpresent => ?_) hnames free_idle
    cases x.succeeds with
    | true => exact resolves_stage hpresent
    | false => exact hpresent
  | checking kind name =>
    rw [hphase, advance] at h
    obtain rfl := Option.some.inj h
    refine hs.move r ?_
    split
    · exact free_checkingUse
    · exact free_idle
  | checkingUse kind name =>
    rw [hphase, advance] at h
    obtain rfl := Option.some.inj h
    by_cases huse : s.registry.inUse kind name = true
    · rw [if_pos huse]
      exact hs.move r free_idle
    · rw [if_neg huse]
      refine hs.put r hsame hnames nofun ?_
      intro kind' name' hremoving name'' hname hkey
      obtain ⟨rfl, rfl⟩ := Phase.removing.inj hremoving
      rw [hphase] at hok
      -- the deployment would name the file by another name
      refine hok name'' hname ?_ hkey
      rintro rfl
      exact huse (inUse_iff.mpr hname)
  | removing kind name =>
    rw [hphase, advance] at h
    obtain rfl := Option.some.inj h
    rw [hphase] at hok
    cases hsucceeds : x.succeeds with
    | true => exact hs.remove hphase (hok hsucceeds)
    | false => exact hs.move r free_idle
  | resolvingExpert draft =>
    rw [hphase, advance] at h
    split at h
    next hstaged =>
      obtain rfl := Option.some.inj h
      refine hs.find r (fun kind name hholds => ?_) nofun
      cases kind with
      | set => cases hholds
      | expert =>
        obtain rfl := Option.some.inj hholds
        rw [resolves, hstaged, Bool.true_or]
    next =>
      split at h
      next hhost =>
        obtain rfl := Option.some.inj h
        refine hs.find r (fun kind name hholds => ?_) nofun
        cases kind with
        | set => cases hholds
        | expert =>
          obtain rfl := Option.some.inj hholds
          rw [resolves, hhost, Bool.or_true]
      next =>
        obtain rfl := Option.some.inj h
        exact hs.move r free_idle
  | mirroring draft =>
    rw [hphase] at hheld
    rw [hphase, advance] at h
    split at h
    next =>
      obtain rfl := Option.some.inj h
      refine hs.put r (fun _ _ => resolves_stage) hnames (fun kind name hholds => ?_) nofun
      cases kind with
      | set => cases hholds
      | expert => exact resolves_stage (hheld .expert name hholds)
    next =>
      obtain rfl := Option.some.inj h
      exact hs.move r free_idle
  | resolvingSet draft =>
    rw [hphase] at hheld
    rw [hphase, advance] at h
    obtain rfl := Option.some.inj h
    by_cases hall : draft.setFile.all (resolves V s.staged .set) = true
    · rw [if_pos hall]
      refine hs.find r (fun kind name hholds => ?_) nofun
      cases kind with
      | expert => exact hheld .expert name hholds
      | set => exact (Option.all_eq_true _ _).mp hall name hholds
    · rw [if_neg hall]
      exact hs.move r free_idle
  | adding draft =>
    rw [hphase] at hok
    rw [hphase, advance] at h
    split at h
    next returned changed hmutate =>
      obtain rfl := Option.some.inj h
      refine hs.free r hsame (fun kind name hname => ?_) ?_
      · rw [hphase]
        refine (names_add hmutate hname).imp_right fun hholds => ⟨hholds, ?_⟩
        exact hok _ hmutate kind name hholds
      · split
        · exact free_materializing
        · exact free_idle
    next =>
      obtain rfl := Option.some.inj h
      exact hs.move r free_idle
  | materializing id =>
    rw [hphase, advance] at h
    obtain rfl := Option.some.inj h
    refine hs.move r ?_
    split
    · exact free_dropping
    · exact free_idle
  | dropping id =>
    rw [hphase, advance] at h
    split at h
    next returned changed hmutate =>
      obtain rfl := Option.some.inj h
      exact hs.free r hsame (fun kind name hname => Or.inl (names_remove hmutate hname)) free_idle
    next =>
      obtain rfl := Option.some.inj h
      exact hs.move r free_idle
  | resolvingPatch id changes =>
    rw [hphase, advance] at h
    obtain rfl := Option.some.inj h
    by_cases hall : changes.setFile.join.all (resolves V s.staged .set) = true
    · rw [if_pos hall]
      refine hs.find r (fun kind name hholds => ?_) nofun
      cases kind with
      | expert => cases hholds
      | set => exact (Option.all_eq_true _ _).mp hall name hholds
    · rw [if_neg hall]
      exact hs.move r free_idle
  | updating id changes =>
    rw [hphase] at hok
    rw [hphase, advance] at h
    split at h
    next returned changed hmutate =>
      obtain rfl := Option.some.inj h
      refine hs.free r hsame (fun kind name hname => ?_) free_idle
      rw [hphase]
      refine (names_update hmutate hname).imp_right fun hholds => ⟨hholds, ?_⟩
      exact hok _ hmutate kind name hholds
    next =>
      obtain rfl := Option.some.inj h
      exact hs.move r free_idle

theorem Whole.step (hs : Whole V s) {label : ρ × Event} (hok : Careful V casing s label)
    (h : step V casing s label = some t) : Whole V t := by
  obtain ⟨r, event⟩ := label
  rw [Staging.step] at h
  split at h
  next request hevent hidle =>
    split at h
    next phase hadmitted =>
      obtain rfl := Option.some.inj h
      exact hs.move r (free_admitted hadmitted)
    next =>
      obtain rfl := Option.some.inj h
      exact hs
  next => cases h
  next x hevent =>
    obtain ⟨after, hafter, rfl⟩ := Option.map_eq_some_iff.mp h
    obtain rfl : event = .next x := hevent
    exact hs.next hok hafter

omit [DecidableEq ρ] in
theorem whole_start (staged : Kind → List Char → Bool) : Whole V (start staged : Staging ρ) where
  kept _ _ := by
    rintro ⟨item, hitem, -⟩
    cases hitem
  held _ kind name hholds := by cases kind <;> cases hholds
  unnamed _ _ _ hphase := by cases hphase

/-- In every state of a run in which no call comes between a check and what relies on it, every
registered deployment has its files. -/
theorem keepsFiles {staged : Kind → List Char → Bool}
    (h : RunOf (step V casing) (Careful V casing) (start staged) s) : Kept V s :=
  (h.invariant (P := Whole V) (fun _ _ _ hs hok hstep => hs.step hok hstep)
    (whole_start staged)).kept

/-- Names in any case of ASCII letters are one, and the host has no files. -/
def lowerVolume : Volume := ⟨List.map Char.toLower, fun _ _ => false⟩

/-- One expert is staged. -/
def oneExpert (kind : Kind) (key : List Char) : Bool := kind = .expert ∧ key = "ea.ex5".toList

/-- A call that meets no failure. -/
def smooth : Event := .next ⟨true, openHost, .written⟩

/-- A request that creates a deployment, and its calls up to the registration. -/
def createsDeployment : List (Bool × Event) :=
  [(false, .request (.create ⟨"EA.ex5".toList, none, "EURUSD".toList, "M5".toList, true⟩)),
    (false, smooth), (false, smooth), (false, smooth)]

/-- The request is about to remove a file. -/
def Phase.removes : Phase → Bool
  | .checkingUse _ _ => true
  | .removing _ _ => true
  | _ => false

omit [DecidableEq ρ] in
/-- While no request is about to remove a file, nothing comes in between. -/
theorem careful_of_calm {label : ρ × Event} (h : ∀ r, (s.requests r).removes = false) :
    Careful V casing s label := by
  have hunclaimed : ∀ kind name, Unclaimed V s kind name := by
    intro kind name r name' hphase
    have hr := h r
    rw [hphase] at hr
    cases hr
  intro x _
  have hr := h label.1
  cases hphase : s.requests label.1 with
  | checkingUse | removing =>
    rw [hphase] at hr
    cases hr
  | adding | updating => exact fun _ _ kind name _ => hunclaimed kind name
  | _ => trivial

theorem keepsFiles_created : ∃ s : Staging Bool,
    s.registry.inUse .expert "EA.ex5".toList = true ∧ Kept lowerVolume s := by
  let calm : Staging Bool → Bool × Event → Bool := fun s _ =>
    !(s.requests false).removes && !(s.requests true).removes
  have hcalm : ∀ s label, calm s label = true → Careful lowerVolume asciiCasing s label := by
    intro s label h
    simp only [calm, Bool.and_eq_true, Bool.not_eq_true'] at h
    refine careful_of_calm fun r => ?_
    cases r with
    | false => exact h.1
    | true => exact h.2
  have hexec : (execOf (step lowerVolume asciiCasing) calm (start oneExpert) createsDeployment).any
      (fun s => s.registry.inUse .expert "EA.ex5".toList) = true := by
    decide +kernel
  obtain ⟨s, hrun, huse⟩ := exists_runOf_of_execOf calm hcalm hexec
  exact ⟨s, huse, keepsFiles hrun⟩

/-- A deployment loses its expert when it is deleted by its name in lower case. -/
theorem not_keepsFiles : ¬ ∀ (V : Volume) (casing : Casing) (staged : Kind → List Char → Bool)
    (s : Staging Bool), Run (step V casing) (start staged) s → Kept V s := by
  intro h
  have hexec : (exec (step lowerVolume asciiCasing) (start oneExpert) (createsDeployment ++
      [(true, .request (.deleteExpert "ea.ex5".toList)), (true, smooth), (true, smooth),
        (true, smooth)])).any (fun s => !resolves lowerVolume s.staged .expert "EA.ex5".toList &&
          s.registry.inUse .expert "EA.ex5".toList) = true := by
    decide +kernel
  obtain ⟨s, hrun, hlost⟩ := exists_run_of_exec hexec
  rw [Bool.and_eq_true, Bool.not_eq_true'] at hlost
  have hkept := h lowerVolume asciiCasing oneExpert s hrun .expert _ (inUse_iff.mp hlost.2)
  rw [hlost.1] at hkept
  cases hkept

end Staging

end ChartCtl

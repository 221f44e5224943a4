import Mt5HttpApi.ChartCtl.Persistence

/-!
# Requests that fail

`create_deployment` and `patch_deployment` of `mt5api/handlers/chartctl.py` with all that can go
wrong: the host expert that cannot be mirrored, the writes of the registry, and the template, which
is built after the deployment is registered. Only a `ValueError` of a create is rolled back.
-/

namespace ChartCtl

/-- How `_materialize_tpl` ends. -/
inductive Materialized
  | written
  | valueError (message : List Char)
  /-- Another exception, such as an `OSError` of the set file or of the template. -/
  | raises

/-- What a request meets outside. -/
structure Meets where
  /-- At the change of the registry. -/
  change : Surroundings
  /-- Copying a host expert to the uploaded ones raises. -/
  mirrorRaises : Bool
  materializeTpl : Deployment → Materialized
  /-- At the rollback of a create. -/
  rollback : Surroundings

/-- How a request ends. -/
inductive Outcome
  | answered (answer : Answer)
  | raised

/-- The request succeeds. -/
def Outcome.succeeds : Outcome → Bool
  | .answered (.deployment _ _) => true
  | .answered (.refused _ _ _) => false
  | .raised => false

/-- `create_deployment` up to `add_deployment`. -/
def Meets.acceptCreate (meets : Meets) (casing : Casing) (request : CreateRequest) :
    Except Outcome Draft :=
  match checkCreate casing request with
  | .error message => .error (.answered (.refused 400 "BAD_REQUEST" message))
  | .ok draft =>
    if !meets.change.host.resolveExpert draft.expertFile then
      .error (.answered (.refused 404 "ARTIFACT_NOT_FOUND" ("expert ".toList ++ draft.expertFile ++
        " is not staged — upload it first".toList)))
    else if meets.mirrorRaises then .error .raised
    else
      match draft.setFile.filter fun set => !meets.change.host.resolveSet set with
      | some set =>
        .error (.answered (.refused 404 "ARTIFACT_NOT_FOUND" ("set ".toList ++ set ++
          " is not staged — upload it first".toList)))
      | none => .ok draft

/-- `create_deployment` of a draft. -/
def Copies.register (casing : Casing) (interval : Nat) (meets : Meets) (copies : Copies)
    (draft : Draft) : Outcome × Copies :=
  match copies.perform casing interval meets.change (.add draft) with
  | (.error (.refused (.duplicateChart message)), after) =>
    (.answered (.refused 409 "DUPLICATE_CHART" message), after)
  | (.error _, after) => (.raised, after)
  | (.ok none, after) => (.raised, after)
  | (.ok (some dep), added) =>
    match meets.materializeTpl dep with
    | .written => (.answered (.deployment 202 dep), added)
    | .raises => (.raised, added)
    | .valueError message =>
      match added.perform casing interval meets.rollback (.remove dep.id) with
      | (.ok _, removed) => (.answered (.refused 500 "TPL_GENERATION_FAILED" message), removed)
      | (.error _, removed) => (.raised, removed)

/-- `create_deployment`. -/
def Copies.createDeployment (casing : Casing) (interval : Nat) (meets : Meets) (copies : Copies)
    (request : CreateRequest) : Outcome × Copies :=
  match meets.acceptCreate casing request with
  | .error outcome => (outcome, copies)
  | .ok draft => copies.register casing interval meets draft

/-- `patch_deployment` with changes that passed its checks. -/
def Copies.amend (casing : Casing) (interval : Nat) (meets : Meets) (copies : Copies)
    (id : List Char) (changes : Changes) : Outcome × Copies :=
  match copies.perform casing interval meets.change (.update id changes) with
  | (.error (.refused .key), after) => (.answered (notFound id), after)
  | (.error (.refused (.duplicateChart message)), after) =>
    (.answered (.refused 409 "DUPLICATE_CHART" message), after)
  | (.error .osError, after) => (.raised, after)
  | (.ok none, after) => (.raised, after)
  | (.ok (some dep), updated) =>
    match if changes.setFile.isSome then meets.materializeTpl dep else .written with
    | .written => (.answered (.deployment 200 dep), updated)
    | .valueError message => (.answered (.refused 500 "TPL_GENERATION_FAILED" message), updated)
    | .raises => (.raised, updated)

/-- `patch_deployment`. -/
def Copies.patchDeployment (casing : Casing) (interval : Nat) (meets : Meets) (copies : Copies)
    (id : List Char) (request : PatchRequest) : Outcome × Copies :=
  match checkPatch meets.change.host request with
  | .error answer => (.answered answer, copies)
  | .ok changes => copies.amend casing interval meets id changes

/-- A request that changes deployments. -/
inductive DeploymentRequest
  | create (request : CreateRequest)
  | patch (id : List Char) (request : PatchRequest)

/-- The handler of a request. -/
def Copies.handle (casing : Casing) (interval : Nat) (meets : Meets) (copies : Copies) :
    DeploymentRequest → Outcome × Copies
  | .create request => copies.createDeployment casing interval meets request
  | .patch id request => copies.patchDeployment casing interval meets id request

/-! ## What a failed request leaves -/

/-- The `set_file` and `enabled` of a registered deployment. -/
def State.values (state : State) (id : List Char) : Option (Option (List Char) × Bool) :=
  (Dict.get state.deployments id).map fun dep => (dep.setFile, dep.enabled)

/-- The same deployments are registered, with the same values. -/
def Unchanged (copies after : Copies) : Prop := after.inMemory.values = copies.inMemory.values

/-- A deployment of these values is registered under the id already. -/
def State.Has (state : State) (id : List Char) (dep : Deployment) : Prop :=
  state.values id = some (dep.setFile, dep.enabled)

/-- A create whose draft is registered leaves nothing behind when it fails: a template that raises a
`ValueError` is rolled back, which takes the id out; otherwise the deployment stays. -/
def Meets.CreateLeaves (meets : Meets) (state : State) (dep : Deployment) : Prop :=
  match meets.change.writes, meets.materializeTpl dep with
  | .succeed, .written => True
  | .succeed, .valueError _ => state.values dep.id = none
  | _, _ => state.Has dep.id dep

/-- A patch that is registered leaves nothing behind when it fails: it stays. -/
def Meets.PatchLeaves (meets : Meets) (state : State) (id : List Char) (changes : Changes)
    (dep : Deployment) : Prop :=
  match meets.change.writes,
    if changes.setFile.isSome then meets.materializeTpl dep else .written with
  | .succeed, .written => True
  | _, _ => state.Has id dep

/-- A request leaves nothing behind when it fails: it is refused before it changes the registry, or
what it registers is rolled back or was there before. -/
def Meets.Leaves (meets : Meets) (casing : Casing) (state : State) : DeploymentRequest → Prop
  | .create request => ∀ draft, meets.acceptCreate casing request = .ok draft →
    refusal casing state (.add draft) = none →
      meets.CreateLeaves state (draft.deployment meets.change.host)
  | .patch id request => ∀ changes old, checkPatch meets.change.host request = .ok changes →
    Dict.get state.deployments id = some old → refusal casing state (.update id changes) = none →
      meets.PatchLeaves state id changes (old.update changes meets.change.host.now)

variable {casing : Casing} {interval : Nat} {meets : Meets} {copies : Copies} {state : State}

/-- A value that is set is no change if and only if it was there. -/
theorem values_set_iff {dep : Deployment} {key : List Char} (revision : Nat) :
    State.values ⟨revision, Dict.set state.deployments key dep⟩ = state.values ↔
      state.values key = some (dep.setFile, dep.enabled) := by
  constructor
  · intro h
    rw [← h]
    simp [State.values]
  · intro h
    funext id
    simp only [State.values, Dict.get_set]
    split
    next heq =>
      subst heq
      exact h.symm
    next => rfl

/-- A deployment that is set and popped is no change if and only if its key was free. -/
theorem values_pop_set_iff {dep : Deployment} {key : List Char} (revision : Nat) :
    State.values ⟨revision, Dict.pop (Dict.set state.deployments key dep) key⟩ = state.values ↔
      state.values key = none := by
  constructor
  · intro h
    rw [← h]
    simp [State.values]
  · intro h
    funext id
    simp only [State.values, Dict.get_pop, Dict.get_set]
    split
    next heq =>
      subst heq
      exact h.symm
    next => rfl

/-- What is added to the registry. -/
theorem mutate_add (host : Host) {draft : Draft} (h : refusal casing state (.add draft) = none) :
    mutate casing host state (.add draft) = .ok (some (draft.deployment host),
      ⟨state.revision + 1, Dict.set state.deployments (draft.deployment host).id
        (draft.deployment host)⟩) := by
  rcases hmutate : mutate casing host state (.add draft) with e | result
  · rw [mutate_eq_error_iff.mp hmutate] at h
    cases h
  · simp only [mutate] at hmutate
    split at hmutate
    · cases hmutate
    · exact hmutate.symm

theorem mutate_update (host : Host) {id : List Char} {changes : Changes} {old : Deployment}
    (hget : Dict.get state.deployments id = some old)
    (h : refusal casing state (.update id changes) = none) :
    mutate casing host state (.update id changes) = .ok (some (old.update changes host.now),
      ⟨state.revision + 1, Dict.set state.deployments id (old.update changes host.now)⟩) := by
  rcases hmutate : mutate casing host state (.update id changes) with e | result
  · rw [mutate_eq_error_iff.mp hmutate] at h
    cases h
  · simp only [mutate, hget] at hmutate
    split at hmutate
    · cases hmutate
    · exact hmutate.symm

theorem mutate_remove (casing : Casing) (host : Host) {id : List Char} {old : Deployment}
    (hget : Dict.get state.deployments id = some old) :
    mutate casing host state (.remove id) =
      .ok (some old, ⟨state.revision + 1, Dict.pop state.deployments id⟩) := by
  simp only [mutate, hget]

theorem unchanged_of_refusal (interval : Nat) (around : Surroundings) {call : Call}
    {e : UpdateError}
    (h : refusal casing copies.inMemory call = some e) :
    Unchanged copies (copies.perform casing interval around call).2 := by
  rw [perform_of_refusal h]
  exact congrArg State.values (inMemory_loadLocked around.renames)

/-- What is registered for good is no change if and only if it was there. -/
theorem unchanged_iff_has {after : Copies} {id : List Char} {dep : Deployment} {revision : Nat}
    (h : after.inMemory = ⟨revision, Dict.set copies.inMemory.deployments id dep⟩) :
    Unchanged copies after ↔ copies.inMemory.Has id dep := by
  rw [Unchanged, h]
  exact values_set_iff revision

/-- The rollback takes the deployment out, whatever its writes do. -/
theorem rollback_memory (casing : Casing) (interval : Nat) (around : Surroundings)
    {added : Copies} {id : List Char} {dep : Deployment} {revision : Nat}
    (h : added.inMemory = ⟨revision, Dict.set copies.inMemory.deployments id dep⟩) :
    (added.perform casing interval around (.remove id)).2.inMemory =
      ⟨revision + 1, Dict.pop (Dict.set copies.inMemory.deployments id dep) id⟩ := by
  have hget : Dict.get added.inMemory.deployments id = some dep := by simp [h]
  rw [(perform_of_mutate interval (mutate_remove casing around.host hget)).1, h]

/-- What is true of a request whose draft passes the checks of the body and of the files. -/
theorem register_unchanged_iff {draft : Draft} :
    ((copies.register casing interval meets draft).1.succeeds = false →
        Unchanged copies (copies.register casing interval meets draft).2) ↔
      (refusal casing copies.inMemory (.add draft) = none →
        meets.CreateLeaves copies.inMemory (draft.deployment meets.change.host)) := by
  rcases refusal_or_mutate casing meets.change.host copies.inMemory (.add draft) with
    ⟨e, he⟩ | ⟨hnone, -⟩
  · -- the checks refuse it
    refine iff_of_true (fun _ => ?_) fun hnone => ?_
    · have hunchanged := unchanged_of_refusal interval meets.change he
      rw [Copies.register]
      rw [perform_of_refusal he] at hunchanged ⊢
      cases e <;> exact hunchanged
    · rw [he] at hnone
      cases hnone
  · rw [forall_prop_of_true hnone]
    obtain ⟨hmemory, hresult⟩ := perform_of_mutate interval
      (mutate_add meets.change.host hnone)
    rw [Copies.register, Meets.CreateLeaves]
    generalize draft.deployment meets.change.host = dep at hmemory hresult ⊢
    generalize copies.perform casing interval meets.change (.add draft) = performed
      at hmemory hresult ⊢
    obtain ⟨result, added⟩ := performed
    dsimp only at hmemory hresult
    subst hresult
    -- a request that fails with the deployment registered
    have hstays : (false = false → Unchanged copies added) ↔ copies.inMemory.Has dep.id dep :=
      (forall_prop_of_true rfl).trans (unchanged_iff_has hmemory)
    cases meets.change.writes with
    | registryFails => exact hstays
    | desiredFails => exact hstays
    | succeed =>
      dsimp only
      generalize meets.materializeTpl dep = materialized
      cases materialized with
      | written => exact iff_of_true (fun h => nomatch h) trivial
      | raises => exact hstays
      | valueError message =>
        have hrolled := rollback_memory casing interval meets.rollback hmemory
        dsimp only
        generalize added.perform casing interval meets.rollback (.remove dep.id) = removal
          at hrolled ⊢
        obtain ⟨result, removed⟩ := removal
        have hgone : (false = false → Unchanged copies removed) ↔
            copies.inMemory.values dep.id = none := by
          rw [forall_prop_of_true rfl, Unchanged, hrolled]
          exact values_pop_set_iff _
        cases result <;> exact hgone

/-- What is true of a patch whose body passes the checks. -/
theorem amend_unchanged_iff {id : List Char} {changes : Changes} :
    ((copies.amend casing interval meets id changes).1.succeeds = false →
        Unchanged copies (copies.amend casing interval meets id changes).2) ↔
      ∀ old, Dict.get copies.inMemory.deployments id = some old →
        refusal casing copies.inMemory (.update id changes) = none →
          meets.PatchLeaves copies.inMemory id changes
            (old.update changes meets.change.host.now) := by
  rcases refusal_or_mutate casing meets.change.host copies.inMemory (.update id changes) with
    ⟨e, he⟩ | ⟨hnone, -⟩
  · -- the checks refuse it
    refine iff_of_true (fun _ => ?_) fun old _ hnone => ?_
    · have hunchanged := unchanged_of_refusal interval meets.change he
      rw [Copies.amend]
      rw [perform_of_refusal he] at hunchanged ⊢
      cases e <;> exact hunchanged
    · rw [he] at hnone
      cases hnone
  · rcases hget : Dict.get copies.inMemory.deployments id with _ | old
    · rw [refusal, hget] at hnone
      cases hnone
    obtain ⟨hmemory, hresult⟩ := perform_of_mutate interval
      (mutate_update meets.change.host hget hnone)
    rw [Copies.amend]
    simp only [Option.some.injEq, forall_eq', forall_prop_of_true hnone, Meets.PatchLeaves]
    generalize old.update changes meets.change.host.now = dep at hmemory hresult ⊢
    generalize copies.perform casing interval meets.change (.update id changes) = performed
      at hmemory hresult ⊢
    obtain ⟨result, updated⟩ := performed
    dsimp only at hmemory hresult
    subst hresult
    -- a request that fails with the change registered
    have hstays : (false = false → Unchanged copies updated) ↔ copies.inMemory.Has id dep :=
      (forall_prop_of_true rfl).trans (unchanged_iff_has hmemory)
    cases meets.change.writes with
    | registryFails => exact hstays
    | desiredFails => exact hstays
    | succeed =>
      dsimp only
      generalize (if changes.setFile.isSome = true then meets.materializeTpl dep else .written) =
        materialized
      cases materialized with
      | written => exact iff_of_true (fun h => Bool.noConfusion h) trivial
      | raises => exact hstays
      | valueError message => exact hstays

/-- That a request which fails changes no registered deployment is true if and only if it is refused
before it changes the registry, or what it registers is rolled back or was there before. -/
theorem handle_unchanged_iff (request : DeploymentRequest) :
    ((copies.handle casing interval meets request).1.succeeds = false →
        Unchanged copies (copies.handle casing interval meets request).2) ↔
      meets.Leaves casing copies.inMemory request := by
  cases request with
  | create request =>
    rw [Copies.handle, Copies.createDeployment, Meets.Leaves]
    rcases haccept : meets.acceptCreate casing request with outcome | draft
    · exact iff_of_true (fun _ => rfl) fun draft h => nomatch h
    · refine register_unchanged_iff.trans ⟨fun h draft' heq => ?_, fun h => h draft rfl⟩
      obtain rfl := Except.ok.inj heq
      exact h
  | patch id request =>
    rw [Copies.handle, Copies.patchDeployment, Meets.Leaves]
    rcases hcheck : checkPatch meets.change.host request with answer | changes
    · exact iff_of_true (fun _ => rfl) fun changes old h => nomatch h
    · refine amend_unchanged_iff.trans
        ⟨fun h changes' old heq => ?_, fun h old => h changes old rfl⟩
      obtain rfl := Except.ok.inj heq
      exact h old

/-! ## When nothing goes wrong -/

/-- Only the template may fail, by a `ValueError`. -/
structure Meets.Smooth (meets : Meets) : Prop where
  change : meets.change.writes = .succeed
  rollback : meets.rollback.writes = .succeed
  mirrors : meets.mirrorRaises = false
  materializeTpl : ∀ dep, meets.materializeTpl dep =
    match meets.change.host.materializeTpl dep with
    | none => .written
    | some message => .valueError message

/-- The outcome of a request and the registry in memory are an answer and a registry. -/
def Agrees (after : Outcome × Copies) (answer : Answer × Registry) : Prop :=
  after.1 = .answered answer.1 ∧ after.2.inMemory.registry = answer.2

theorem acceptCreate_of_smooth (h : meets.Smooth) (request : CreateRequest) :
    meets.acceptCreate casing request =
      match acceptCreate casing meets.change.host request with
      | .error answer => .error (.answered answer)
      | .ok draft => .ok draft := by
  rw [Meets.acceptCreate, acceptCreate, h.mirrors]
  cases checkCreate casing request with
  | error message => rfl
  | ok draft =>
    dsimp only
    by_cases hexpert : (!meets.change.host.resolveExpert draft.expertFile) = true
    · rw [if_pos hexpert, if_pos hexpert]
    · rw [if_neg hexpert, if_neg hexpert, if_neg Bool.false_ne_true]
      cases draft.setFile.filter fun set => !meets.change.host.resolveSet set with
      | none => rfl
      | some set => rfl

/-- What is true of the registry in memory stays true of it. -/
theorem Sound.perform (hs : Sound casing copies.inMemory) (interval : Nat)
    (around : Surroundings) (call : Call) :
    Sound casing (copies.perform casing interval around call).2.inMemory := by
  rcases hmutate : ChartCtl.mutate casing around.host copies.inMemory call with
    e | ⟨returned, changed⟩
  · rw [perform_of_refusal (mutate_eq_error_iff.mp hmutate), inMemory_loadLocked]
    exact hs
  · rw [(perform_of_mutate interval hmutate).1]
    exact hs.mutate hmutate

/-- A call whose writes succeed is one of the registry of the values. -/
theorem perform_registry (hs : Sound casing copies.inMemory) (interval : Nat)
    {around : Surroundings} (hwrites : around.writes = .succeed) (call : Call) :
    (∀ e, Registry.mutate casing around.host copies.inMemory.registry call = .error e →
      (copies.perform casing interval around call).1 = .error (.refused e) ∧
        (copies.perform casing interval around call).2.inMemory.registry =
          copies.inMemory.registry) ∧
    ∀ returned reg,
      Registry.mutate casing around.host copies.inMemory.registry call = .ok (returned, reg) →
        (copies.perform casing interval around call).1 = .ok returned ∧
          (copies.perform casing interval around call).2.inMemory.registry = reg := by
  rw [← mutate_registry hs.keys]
  rcases hmutate : mutate casing around.host copies.inMemory call with e | ⟨returned, changed⟩
  · rw [perform_of_refusal (mutate_eq_error_iff.mp hmutate), inMemory_loadLocked]
    refine ⟨fun e' h => ⟨?_, rfl⟩, fun _ _ h => nomatch h⟩
    rw [Except.error.inj h]
  · obtain ⟨hmemory, hresult⟩ := perform_of_mutate interval hmutate
    rw [hwrites] at hresult
    refine ⟨fun _ h => (nomatch h), fun returned' reg h => ?_⟩
    obtain ⟨rfl, rfl⟩ := Prod.mk.inj (Except.ok.inj h)
    exact ⟨hresult, congrArg State.registry hmemory⟩

/-- What was put is there to be removed. -/
theorem Registry.mem_put (reg : Registry) (dep : Deployment) : dep ∈ reg.put dep := by
  rw [Registry.put]
  split
  next hany =>
    obtain ⟨old, hold, hid⟩ := List.any_eq_true.mp hany
    exact List.mem_map.mpr ⟨old, hold, if_pos (by simpa using hid)⟩
  next => exact List.mem_append_right _ (List.mem_singleton_self dep)

theorem removeDeployment_of_add {host : Host} {reg added : Registry} {draft : Draft}
    {dep : Deployment} (h : addDeployment casing host reg draft = .ok (dep, added)) :
    ∃ old removed, removeDeployment added dep.id = some (old, removed) := by
  rw [addDeployment] at h
  split at h
  next => cases h
  next =>
    obtain ⟨rfl, rfl⟩ := Prod.mk.inj (Except.ok.inj h)
    have hsome : (Registry.get ⟨reg.revision + 1, reg.put (draft.deployment host)⟩
        (draft.deployment host).id).isSome = true := by
      rw [Registry.get, List.find?_isSome]
      exact ⟨_, reg.mem_put _, by simp⟩
    obtain ⟨old, hold⟩ := Option.isSome_iff_exists.mp hsome
    exact ⟨old, _, by rw [removeDeployment, hold, Option.map_some]⟩

/-- A create is one of the registry of the values. -/
theorem createDeployment_answers (h : meets.Smooth) (hs : Sound casing copies.inMemory)
    (request : CreateRequest) : Agrees (copies.createDeployment casing interval meets request)
      (createDeployment casing meets.change.host copies.inMemory.registry request) := by
  rw [Copies.createDeployment, createDeployment, acceptCreate_of_smooth h]
  cases acceptCreate casing meets.change.host request with
  | error answer => exact ⟨rfl, rfl⟩
  | ok draft =>
    obtain ⟨hrefused, hadded⟩ := perform_registry hs interval h.change (.add draft)
    have hsound := hs.perform interval meets.change (.add draft)
    simp only [Registry.mutate] at hrefused hadded
    dsimp only
    rw [Copies.register]
    generalize copies.perform casing interval meets.change (.add draft) = performed
      at hrefused hadded hsound ⊢
    obtain ⟨result, after⟩ := performed
    rcases hadd : addDeployment casing meets.change.host copies.inMemory.registry draft with
      message | ⟨dep, added⟩
    · rw [hadd] at hrefused
      obtain ⟨hresult, hmemory⟩ := hrefused _ rfl
      obtain rfl := hresult
      exact ⟨rfl, hmemory⟩
    · rw [hadd] at hadded
      obtain ⟨hresult, hmemory⟩ := hadded _ _ rfl
      obtain rfl := hresult
      dsimp only at hmemory hsound ⊢
      rw [h.materializeTpl]
      cases meets.change.host.materializeTpl dep with
      | none => exact ⟨rfl, hmemory⟩
      | some message =>
        -- the rollback is a removal of the registry of the values
        obtain ⟨old, removed, hremove⟩ := removeDeployment_of_add hadd
        obtain ⟨-, hremoved⟩ := perform_registry hsound interval h.rollback
          (.remove dep.id)
        rw [hmemory] at hremoved
        simp only [Registry.mutate, hremove] at hremoved
        obtain ⟨hresult, hmemory⟩ := hremoved _ _ rfl
        dsimp only
        generalize after.perform casing interval meets.rollback (.remove dep.id) = removal
          at hresult hmemory ⊢
        obtain ⟨result, after'⟩ := removal
        obtain rfl := hresult
        exact ⟨rfl, by rw [hremove]; exact hmemory⟩

/-- A patch is one of the registry of the values. -/
theorem patchDeployment_answers (h : meets.Smooth) (hs : Sound casing copies.inMemory)
    (id : List Char) (request : PatchRequest) :
    Agrees (copies.patchDeployment casing interval meets id request)
      (patchDeployment casing meets.change.host copies.inMemory.registry id request) := by
  rw [Copies.patchDeployment, patchDeployment]
  cases checkPatch meets.change.host request with
  | error answer => exact ⟨rfl, rfl⟩
  | ok changes =>
    obtain ⟨hrefused, hupdated⟩ := perform_registry hs interval h.change
      (.update id changes)
    simp only [Registry.mutate] at hrefused hupdated
    dsimp only
    rw [Copies.amend]
    generalize copies.perform casing interval meets.change (.update id changes) = performed
      at hrefused hupdated ⊢
    obtain ⟨result, after⟩ := performed
    rcases hupdate : updateDeployment casing meets.change.host copies.inMemory.registry id changes
      with e | ⟨dep, updated⟩
    · rw [hupdate] at hrefused
      obtain ⟨hresult, hmemory⟩ := hrefused _ rfl
      obtain rfl := hresult
      cases e <;> exact ⟨rfl, hmemory⟩
    · rw [hupdate] at hupdated
      obtain ⟨hresult, hmemory⟩ := hupdated _ _ rfl
      obtain rfl := hresult
      dsimp only at hmemory ⊢
      by_cases hset : changes.setFile.isSome = true
      · rw [if_pos hset, if_pos hset, h.materializeTpl]
        cases meets.change.host.materializeTpl dep with
        | none => exact ⟨rfl, hmemory⟩
        | some message => exact ⟨rfl, hmemory⟩
      · rw [if_neg hset, if_neg hset]
        exact ⟨rfl, hmemory⟩

/-- The API before its first request. -/
def noCopies : Copies := ⟨none, .absent, none⟩

/-- A deployment stays registered when its template cannot be written. -/
theorem not_handle_unchanged : ¬ ∀ (casing : Casing) (interval : Nat) (meets : Meets)
    (copies : Copies) (request : DeploymentRequest),
      (copies.handle casing interval meets request).1.succeeds = false →
        Unchanged copies (copies.handle casing interval meets request).2 := by
  intro h
  let around : Surroundings := ⟨openHost, [], .succeed, true⟩
  have hunchanged := h asciiCasing 5 ⟨around, false, fun _ => .raises, around⟩ noCopies
    (.create ⟨"ea.ex5".toList, none, "EURUSD".toList, "m5".toList, true⟩) rfl
  have hvalues := congrFun hunchanged (newId openHost.random)
  revert hvalues
  decide

end ChartCtl

import Mt5HttpApi.ChartCtl.Desired
import Mt5HttpApi.ChartCtl.Dictionary

/-!
# The three copies of the registry

`_load_locked` and `_persist_locked` of `mt5api/chartctl/registry.py`: the registry is in memory, in
`registry.json` and, as the loader reads it, in `desired.json`. A call changes the copy in memory
first and then writes the two files one after the other; either write may fail, and the call then
raises.
-/

namespace ChartCtl

/-- `registry.json` as it is found. -/
inductive RegistryFile
  | absent
  /-- It cannot be opened, or is no JSON. -/
  | unreadable
  | holds (state : State)

/-- What `json.load` makes of `registry.json`, which `sort_keys` wrote, and `_empty_state` without
it. -/
def RegistryFile.state : RegistryFile → State
  | .holds state =>
    ⟨state.revision, state.deployments.insertionSort fun item item' => item.1 ≤ item'.1⟩
  | .absent => ⟨0, []⟩
  | .unreadable => ⟨0, []⟩

/-- The copies: `_STATE`, which is not there before the first call, and the two files. -/
structure Copies where
  memory : Option State
  registryFile : RegistryFile
  desired : Option (List UInt8)

/-- How far `_persist_locked` comes. -/
inductive Writes
  | succeed
  /-- `ensure_dirs` raises, or the write of `registry.json`. -/
  | registryFails
  /-- `registry.json` is replaced; the write of `desired.json` raises. -/
  | desiredFails

/-- What a call meets outside. -/
structure Surroundings where
  host : Host
  /-- `_now_iso()` of `_write_desired_locked`. -/
  written : Moment
  writes : Writes
  /-- An unreadable `registry.json` can be renamed. -/
  renames : Bool

/-- What a call raises. -/
inductive Raised
  | refused (refusal : UpdateError)
  | osError

/-- The registry that a call finds in memory. -/
def Copies.inMemory (copies : Copies) : State := copies.memory.getD copies.registryFile.state

/-- `_load_locked`. -/
def Copies.loadLocked (copies : Copies) (renames : Bool) : Copies :=
  match copies.memory, copies.registryFile with
  | some _, _ => copies
  | none, .unreadable =>
    { copies with
      memory := some copies.inMemory
      registryFile := if renames then .absent else .unreadable }
  | none, _ => { copies with memory := some copies.inMemory }

/-- `_persist_locked`. -/
def Copies.persistLocked (copies : Copies) (interval : Nat) (around : Surroundings)
    (state : State) : Except Raised Unit × Copies :=
  match around.writes with
  | .registryFails => (.error .osError, copies)
  | .desiredFails => (.error .osError, { copies with registryFile := .holds state })
  | .succeed =>
    (.ok (), { copies with
      registryFile := .holds state
      desired := some (writeDesiredLocked interval around.written state.registry) })

/-- A call of the registry. -/
def Copies.perform (casing : Casing) (interval : Nat) (around : Surroundings) (copies : Copies)
    (call : Call) : Except Raised (Option Deployment) × Copies :=
  let loaded := copies.loadLocked around.renames
  match mutate casing around.host loaded.inMemory call with
  | .error refusal => (.error (.refused refusal), loaded)
  | .ok (returned, state) =>
    let (result, written) :=
      { loaded with memory := some state }.persistLocked interval around state
    (result.map fun _ => returned, written)

/-- The checks of a call: the id is there, and the chart is not taken. -/
def refusal (casing : Casing) (state : State) : Call → Option UpdateError
  | .add draft =>
    if draft.enabled then
      (checkNoDuplicateChart casing state.registry draft.symbol draft.timeframe none).map
        .duplicateChart
    else none
  | .update id changes =>
    match Dict.get state.deployments id with
    | none => some .key
    | some dep =>
      if resuming dep changes then
        (checkNoDuplicateChart casing state.registry dep.symbol dep.timeframe (some id)).map
          .duplicateChart
      else none
  | .remove id => if (Dict.get state.deployments id).isNone then some .key else none
  | .rewrite => none

variable {casing : Casing} {host : Host} {state : State} {call : Call} {interval : Nat}
  {around : Surroundings} {copies : Copies}

/-- A call is refused by its checks alone. -/
theorem mutate_eq_error_iff {e : UpdateError} :
    mutate casing host state call = .error e ↔ refusal casing state call = some e := by
  cases call with
  | add draft =>
    simp only [mutate, refusal]
    by_cases henabled : draft.enabled = true
    · simp only [if_pos henabled]
      cases checkNoDuplicateChart casing state.registry draft.symbol draft.timeframe none with
      | none => simp
      | some message => simp
    · simp [if_neg henabled]
  | update id changes =>
    simp only [mutate, refusal]
    cases Dict.get state.deployments id with
    | none => simp
    | some dep =>
      by_cases hresuming : resuming dep changes = true
      · simp only [if_pos hresuming]
        cases checkNoDuplicateChart casing state.registry dep.symbol dep.timeframe (some id) with
        | none => simp
        | some message => simp
      · simp [if_neg hresuming]
  | remove id =>
    simp only [mutate, refusal]
    cases Dict.get state.deployments id with
    | none => simp
    | some dep => simp
  | rewrite => simp [mutate, refusal]

/-- Loading makes no difference to what a call finds in memory. -/
theorem inMemory_loadLocked (renames : Bool) :
    (copies.loadLocked renames).inMemory = copies.inMemory := by
  obtain ⟨memory, file, desired⟩ := copies
  cases memory with
  | some state => rfl
  | none => cases file <;> rfl

/-- Loading does not write `desired.json`. -/
theorem desired_loadLocked (renames : Bool) :
    (copies.loadLocked renames).desired = copies.desired := by
  obtain ⟨memory, file, desired⟩ := copies
  cases memory with
  | some state => rfl
  | none => cases file <;> rfl

/-- The three copies are the same. -/
structure Kept (copies after : Copies) : Prop where
  inMemory : after.inMemory = copies.inMemory
  registryFile : after.registryFile = copies.registryFile
  desired : after.desired = copies.desired

/-- Loading keeps the copies, but for an unreadable file that is renamed. -/
theorem kept_loadLocked_iff {renames : Bool} : Kept copies (copies.loadLocked renames) ↔
    ¬ (copies.memory = none ∧ copies.registryFile = .unreadable ∧ renames = true) := by
  obtain ⟨memory, file, desired⟩ := copies
  cases memory with
  | some state => exact ⟨fun _ h => absurd h.1 (Option.some_ne_none _), fun _ => ⟨rfl, rfl, rfl⟩⟩
  | none =>
    cases file with
    | absent => exact ⟨fun _ h => (nomatch h.2.1), fun _ => ⟨rfl, rfl, rfl⟩⟩
    | holds state => exact ⟨fun _ h => (nomatch h.2.1), fun _ => ⟨rfl, rfl, rfl⟩⟩
    | unreadable =>
      cases renames with
      | false => exact ⟨fun _ h => (nomatch h.2.2), fun _ => ⟨rfl, rfl, rfl⟩⟩
      | true => exact ⟨fun h => (nomatch h.registryFile), fun h => absurd ⟨rfl, rfl, rfl⟩ h⟩

/-- What a call leaves in memory. -/
theorem inMemory_persistLocked {written : Copies} {result : Except Raised Unit}
    (h : Copies.persistLocked { copies with memory := some state } interval around state =
      (result, written)) : written.inMemory = state := by
  rw [Copies.persistLocked] at h
  split at h <;>
  · obtain ⟨-, rfl⟩ := Prod.mk.inj h
    rfl

/-- A call that its checks refuse only loads the registry. -/
theorem perform_of_refusal {e : UpdateError}
    (h : refusal casing copies.inMemory call = some e) :
    copies.perform casing interval around call =
      (.error (.refused e), copies.loadLocked around.renames) := by
  rw [Copies.perform, inMemory_loadLocked, mutate_eq_error_iff.mpr h]

variable (interval) in
/-- A call that its checks let pass changes the copy in memory, whatever its writes do. -/
theorem perform_of_mutate {returned : Option Deployment}
    (h : mutate casing around.host copies.inMemory call = .ok (returned, state)) :
    (copies.perform casing interval around call).2.inMemory = state ∧
      (copies.perform casing interval around call).1 =
        match around.writes with
        | .succeed => .ok returned
        | _ => .error .osError := by
  rw [Copies.perform, inMemory_loadLocked, h]
  refine ⟨inMemory_persistLocked rfl, ?_⟩
  simp only [Copies.persistLocked]
  cases around.writes <;> rfl

variable (interval) in
/-- `desired.json` is written when both writes succeed. -/
theorem desired_perform {returned : Option Deployment}
    (h : mutate casing around.host copies.inMemory call = .ok (returned, state)) :
    (copies.perform casing interval around call).2.desired =
      match around.writes with
      | .succeed => some (writeDesiredLocked interval around.written state.registry)
      | _ => copies.desired := by
  rw [Copies.perform, inMemory_loadLocked, h]
  simp only [Copies.persistLocked]
  cases around.writes with
  | succeed => rfl
  | registryFails | desiredFails => exact desired_loadLocked around.renames

/-- A call is refused, or it changes the copy in memory. -/
theorem refusal_or_mutate (casing : Casing) (host : Host) (state : State) (call : Call) :
    (∃ e, refusal casing state call = some e) ∨ refusal casing state call = none ∧
      ∃ returned changed, mutate casing host state call = .ok (returned, changed) := by
  rcases hmutate : mutate casing host state call with e | ⟨returned, changed⟩
  · exact Or.inl ⟨e, mutate_eq_error_iff.mp hmutate⟩
  · refine Or.inr ⟨?_, returned, changed, rfl⟩
    by_contra hsome
    obtain ⟨e, he⟩ := Option.ne_none_iff_exists'.mp hsome
    rw [mutate_eq_error_iff.mpr he] at hmutate
    cases hmutate

/-- A call leaves the three copies as they were if and only if its own checks refuse it, and it is
not the first one, that renames an unreadable `registry.json`. -/
theorem perform_kept_iff : Kept copies (copies.perform casing interval around call).2 ↔
    refusal casing copies.inMemory call ≠ none ∧
      ¬ (copies.memory = none ∧ copies.registryFile = .unreadable ∧ around.renames = true) := by
  rcases refusal_or_mutate casing around.host copies.inMemory call with
    ⟨e, he⟩ | ⟨hnone, returned, changed, hmutate⟩
  · rw [perform_of_refusal he, kept_loadLocked_iff]
    exact (and_iff_right (he ▸ Option.some_ne_none e)).symm
  · -- the copy in memory has a revision of its own now
    refine iff_of_false (fun hkept => ?_) fun hrefused => hrefused.1 hnone
    have hmemory := (perform_of_mutate interval hmutate).1
    have hrevision := mutate_revision hmutate
    rw [← hmemory, hkept.inMemory] at hrevision
    omega

/-- A call raises when its checks refuse it, or a write fails. -/
theorem perform_raises_iff : (∃ e, (copies.perform casing interval around call).1 = .error e) ↔
    refusal casing copies.inMemory call ≠ none ∨ around.writes ≠ .succeed := by
  rcases refusal_or_mutate casing around.host copies.inMemory call with
    ⟨e, he⟩ | ⟨hnone, returned, changed, hmutate⟩
  · rw [perform_of_refusal he]
    exact iff_of_true ⟨_, rfl⟩ (Or.inl (he ▸ Option.some_ne_none e))
  · rw [(perform_of_mutate interval hmutate).2, hnone]
    cases around.writes <;> simp

/-- That a call that raises leaves the three copies as they were is true if and only if both writes
succeed, or the checks of the call refuse it. The first call of all may rename an unreadable
`registry.json` even then. -/
theorem perform_atomic_iff :
    ((∃ e, (copies.perform casing interval around call).1 = .error e) →
        Kept copies (copies.perform casing interval around call).2) ↔
      refusal casing copies.inMemory call = none ∧ around.writes = .succeed ∨
        refusal casing copies.inMemory call ≠ none ∧
          ¬ (copies.memory = none ∧ copies.registryFile = .unreadable ∧ around.renames = true) := by
  rw [perform_raises_iff, perform_kept_iff]
  by_cases hrefused : refusal casing copies.inMemory call = none
  · by_cases hwrites : around.writes = .succeed
    · simp [hrefused, hwrites]
    · simp [hrefused, hwrites]
  · simp [hrefused]

/-- The revision is raised in memory and in `registry.json` when `desired.json` cannot be written.
-/
theorem not_perform_atomic : ¬ ∀ (casing : Casing) (interval : Nat) (around : Surroundings)
    (copies : Copies) (call : Call),
      (∃ e, (copies.perform casing interval around call).1 = .error e) →
        Kept copies (copies.perform casing interval around call).2 := by
  intro h
  have hkept := h asciiCasing 5 ⟨openHost, [], .desiredFails, true⟩ ⟨none, .absent, none⟩ .rewrite
    ⟨.osError, rfl⟩
  exact nomatch hkept.registryFile

end ChartCtl

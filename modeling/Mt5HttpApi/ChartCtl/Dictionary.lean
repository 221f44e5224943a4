import Mt5HttpApi.ChartCtl.Registry
import Mt5HttpApi.Lib.Dict

/-!
# The dictionary of deployments

`_STATE` of `mt5api/chartctl/registry.py` as Python keeps it, with the keys of its dictionary, and
the calls that change it. In every state that calls lead to, each key is the id of its deployment
and no two enabled deployments target one chart (`Sound`). There the dictionary is the `Registry` of
its values (`mutate_registry`).
-/

namespace ChartCtl

open Transition

/-- `_STATE`: the revision, and the items of the dictionary `deployments` in the order of insertion.
-/
structure State where
  revision : Nat
  deployments : List (List Char × Deployment)

/-- `state["deployments"].values()`, with the revision. -/
def State.registry (state : State) : Registry := ⟨state.revision, state.deployments.map Prod.snd⟩

/-- A call that changes the registry. -/
inductive Call
  | add (draft : Draft)
  | update (id : List Char) (changes : Changes)
  | remove (id : List Char)
  | rewrite

/-- `resuming` of `update_deployment`. -/
def resuming (dep : Deployment) (changes : Changes) : Bool :=
  changes.enabled = some true ∧ !dep.enabled

/-- `add_deployment`, `update_deployment`, `remove_deployment` and `rewrite_desired`, up to
`_persist_locked`: the deployment that is returned, if any, and the state. -/
def mutate (casing : Casing) (host : Host) (state : State) :
    Call → Except UpdateError (Option Deployment × State)
  | .add draft =>
    match if draft.enabled then
        checkNoDuplicateChart casing state.registry draft.symbol draft.timeframe none else none with
    | some message => .error (.duplicateChart message)
    | none =>
      let dep := draft.deployment host
      .ok (some dep, ⟨state.revision + 1, Dict.set state.deployments dep.id dep⟩)
  | .update id changes =>
    match Dict.get state.deployments id with
    | none => .error .key
    | some dep =>
      match if resuming dep changes then
          checkNoDuplicateChart casing state.registry dep.symbol dep.timeframe (some id)
        else none with
      | some message => .error (.duplicateChart message)
      | none =>
        let dep := dep.update changes host.now
        .ok (some dep, ⟨state.revision + 1, Dict.set state.deployments id dep⟩)
  | .remove id =>
    match Dict.get state.deployments id with
    | none => .error .key
    | some dep => .ok (some dep, ⟨state.revision + 1, Dict.pop state.deployments id⟩)
  | .rewrite => .ok (none, ⟨state.revision + 1, state.deployments⟩)

/-- One call: a refused one changes nothing. -/
def callStep (casing : Casing) (state : State) (label : Host × Call) : Option State :=
  match mutate casing label.1 state label.2 with
  | .ok (_, changed) => some changed
  | .error _ => some state

variable {casing : Casing} {host : Host} {state changed : State} {call : Call}
  {returned : Option Deployment}

/-- What `add_deployment` does when the chart is free. -/
theorem add_of_mutate {draft : Draft}
    (h : mutate casing host state (.add draft) = .ok (returned, changed)) :
    (draft.enabled = true → checkNoDuplicateChart casing state.registry draft.symbol
        draft.timeframe none = none) ∧
      returned = some (draft.deployment host) ∧
      changed = ⟨state.revision + 1, Dict.set state.deployments (draft.deployment host).id
        (draft.deployment host)⟩ := by
  simp only [mutate] at h
  split at h
  next => cases h
  next hcheck =>
    obtain ⟨rfl, rfl⟩ := Prod.mk.inj (Except.ok.inj h)
    refine ⟨fun henabled => ?_, rfl, rfl⟩
    rwa [if_pos henabled] at hcheck

/-- What `update_deployment` does. -/
theorem update_of_mutate {id : List Char} {changes : Changes}
    (h : mutate casing host state (.update id changes) = .ok (returned, changed)) :
    ∃ old, Dict.get state.deployments id = some old ∧
      (resuming old changes = true → checkNoDuplicateChart casing state.registry old.symbol
        old.timeframe (some id) = none) ∧
      returned = some (old.update changes host.now) ∧
      changed = ⟨state.revision + 1,
        Dict.set state.deployments id (old.update changes host.now)⟩ := by
  simp only [mutate] at h
  split at h
  next => cases h
  next old hget =>
    split at h
    next => cases h
    next hcheck =>
      obtain ⟨rfl, rfl⟩ := Prod.mk.inj (Except.ok.inj h)
      refine ⟨old, hget, fun hresuming => ?_, rfl, rfl⟩
      rwa [if_pos hresuming] at hcheck

/-- What `remove_deployment` does. -/
theorem remove_of_mutate {id : List Char}
    (h : mutate casing host state (.remove id) = .ok (returned, changed)) :
    changed = ⟨state.revision + 1, Dict.pop state.deployments id⟩ := by
  simp only [mutate] at h
  split at h
  · cases h
  · exact (Prod.mk.inj (Except.ok.inj h)).2.symm

/-- A change raises the revision by one. -/
theorem mutate_revision (h : mutate casing host state call = .ok (returned, changed)) :
    changed.revision = state.revision + 1 := by
  cases call with
  | add draft => rw [(add_of_mutate h).2.2]
  | update id changes =>
    obtain ⟨old, -, -, -, rfl⟩ := update_of_mutate h
    rfl
  | remove id => rw [remove_of_mutate h]
  | rewrite => rw [← (Prod.mk.inj (Except.ok.inj h)).2]

/-- No call lowers the revision. -/
theorem revision_le_of_run (h : Run (callStep casing) state changed) :
    state.revision ≤ changed.revision := by
  refine h.measure (R := fun s t => s.revision ≤ t.revision) (fun _ => le_rfl)
    (fun _ _ _ => le_trans) ?_
  intro s label t _ hstep
  rw [callStep] at hstep
  split at hstep
  next heq =>
    obtain rfl := Option.some.inj hstep
    rw [mutate_revision heq]
    exact Nat.le_succ _
  next =>
    obtain rfl := Option.some.inj hstep
    exact le_rfl

/-! ## What every state has -/

/-- Two deployments that are both enabled, for one chart. -/
def Clash (casing : Casing) (d e : Deployment) : Prop :=
  d.enabled ∧ e.enabled ∧ casing.upper d.symbol = casing.upper e.symbol ∧
    casing.upper d.timeframe = casing.upper e.timeframe

theorem Clash.symm {d e : Deployment} (h : Clash casing d e) : Clash casing e d :=
  ⟨h.2.1, h.1, h.2.2.1.symm, h.2.2.2.symm⟩

/-- Every key is the id of its deployment, and no two items clash. -/
structure Sound (casing : Casing) (state : State) : Prop where
  keys : ∀ item ∈ state.deployments, item.1 = item.2.id
  nodup : (state.deployments.map Prod.fst).Nodup
  apart : ∀ a ∈ state.deployments, ∀ b ∈ state.deployments, Clash casing a.2 b.2 → a.1 = b.1

/-- Nothing that is enabled clashes with a deployment that passed the check. -/
theorem not_clash_of_check {excludeId : Option (List Char)} (dep : Deployment)
    (h : checkNoDuplicateChart casing state.registry dep.symbol dep.timeframe excludeId = none)
    {item : List Char × Deployment} (hitem : item ∈ state.deployments)
    (hid : some item.2.id ≠ excludeId) : ¬ Clash casing item.2 dep := by
  rintro ⟨henabled, -, hsymbol, htimeframe⟩
  rw [checkNoDuplicateChart, Option.map_eq_none_iff] at h
  have hnone := List.find?_eq_none.mp h item.2 (List.mem_map_of_mem hitem)
  simp only [decide_eq_true_eq] at hnone
  exact hnone ⟨hid, henabled, hsymbol, htimeframe⟩

/-- A deployment is put under its id when it clashes with none of the others. -/
theorem Sound.set (h : Sound casing state) (dep : Deployment) (revision : Nat)
    (hdep : ∀ item ∈ state.deployments, item.1 ≠ dep.id → ¬ Clash casing item.2 dep) :
    Sound casing ⟨revision, Dict.set state.deployments dep.id dep⟩ where
  keys item hitem := by
    rcases Dict.mem_set hitem with rfl | ⟨hold, -⟩
    · rfl
    · exact h.keys item hold
  nodup := Dict.nodup_set h.nodup dep.id dep
  apart a ha b hb hclash := by
    rcases Dict.mem_set ha with rfl | ⟨ha, hane⟩
    · rcases Dict.mem_set hb with rfl | ⟨hb, hbne⟩
      · rfl
      · exact absurd hclash.symm (hdep b hb hbne)
    · rcases Dict.mem_set hb with rfl | ⟨hb, -⟩
      · exact absurd hclash (hdep a ha hane)
      · exact h.apart a ha b hb hclash

theorem Sound.sublist (h : Sound casing state) (revision : Nat)
    {items : List (List Char × Deployment)} (hitems : items.Sublist state.deployments) :
    Sound casing ⟨revision, items⟩ where
  keys item hitem := h.keys item (hitems.subset hitem)
  nodup := (hitems.map Prod.fst).nodup h.nodup
  apart a ha b hb := h.apart a (hitems.subset ha) b (hitems.subset hb)

/-- Every call keeps it. -/
theorem Sound.mutate (hs : Sound casing state)
    (h : mutate casing host state call = .ok (returned, changed)) : Sound casing changed := by
  cases call with
  | add draft =>
    obtain ⟨hcheck, -, rfl⟩ := add_of_mutate h
    refine hs.set (draft.deployment host) _ fun item hitem _ hclash => ?_
    -- the draft is enabled when it clashes, so it was checked
    exact not_clash_of_check (draft.deployment host) (hcheck hclash.2.1) hitem
      (Option.some_ne_none _) hclash
  | update id changes =>
    obtain ⟨dep, hget, hcheck, -, rfl⟩ := update_of_mutate h
    have hmem := Dict.mem_of_get hget
    obtain rfl : id = dep.id := hs.keys _ hmem
    refine Sound.set hs (dep.update changes host.now) _ fun item hitem hne hclash => ?_
    by_cases henabled : dep.enabled = true
    · -- it was enabled before, for the same chart
      have hold : Clash casing item.2 dep := ⟨hclash.1, henabled, hclash.2.2⟩
      exact hne (hs.apart item hitem _ hmem hold)
    · -- it is resumed, which is checked
      have hresumed : changes.enabled.getD dep.enabled = true := hclash.2.1
      have hresuming : resuming dep changes = true := by
        rcases hchange : changes.enabled with _ | value
        · rw [hchange] at hresumed
          exact absurd hresumed henabled
        · rw [hchange] at hresumed
          obtain rfl : value = true := hresumed
          simp [resuming, hchange, henabled]
      refine not_clash_of_check (dep.update changes host.now) (hcheck hresuming) hitem ?_ hclash
      intro heq
      exact hne ((hs.keys item hitem).trans (Option.some.inj heq))
  | remove id =>
    rw [remove_of_mutate h]
    exact hs.sublist _ List.filter_sublist
  | rewrite =>
    obtain ⟨-, rfl⟩ := Prod.mk.inj (Except.ok.inj h)
    exact hs.sublist _ (List.Sublist.refl _)

theorem sound_of_run (h : Run (callStep casing) ⟨0, []⟩ state) : Sound casing state := by
  refine h.invariant (P := Sound casing) ?_
    ⟨fun item hitem => absurd hitem List.not_mem_nil, List.nodup_nil,
      fun a ha => absurd ha List.not_mem_nil⟩
  intro s label t hs _ hstep
  rw [callStep] at hstep
  split at hstep
  next heq =>
    obtain rfl := Option.some.inj hstep
    exact hs.mutate heq
  next =>
    obtain rfl := Option.some.inj hstep
    exact hs

/-- In every state that calls lead to, no two items are both enabled for one chart, and every key is
the id of its deployment. A change that succeeds raises the revision for good. -/
theorem registry_invariant (h : Run (callStep casing) ⟨0, []⟩ state) :
    state.deployments.Pairwise (fun a b => ¬ Clash casing a.2 b.2) ∧
      (∀ item ∈ state.deployments, item.1 = item.2.id) ∧
      ∀ host call returned changed later,
        mutate casing host state call = .ok (returned, changed) →
        Run (callStep casing) changed later → state.revision < later.revision := by
  have hs := sound_of_run h
  refine ⟨?_, hs.keys, ?_⟩
  · refine hs.nodup.of_map.pairwise_of_forall_ne fun a ha b hb hne hclash => ?_
    exact hne (List.inj_on_of_nodup_map hs.nodup ha hb (hs.apart a ha b hb hclash))
  · intro host call returned changed later hchanged hlater
    calc state.revision < state.revision + 1 := Nat.lt_succ_self _
      _ = changed.revision := (mutate_revision hchanged).symm
      _ ≤ later.revision := revision_le_of_run hlater

/-- The host at another draw of `new_id`. -/
def hostWith (random : UInt32) : Host := { openHost with random := random }

/-- A deployment is paused, another one takes its chart, and the first is refused when it resumes.
-/
def pausedCalls : List (Host × Call) :=
  [(hostWith 1, .add ⟨"a.ex5".toList, "a".toList, none, "EURUSD".toList, "M5".toList, true⟩),
    (openHost, .update (newId 1) ⟨none, some false⟩),
    (hostWith 2, .add ⟨"b.ex5".toList, "b".toList, none, "eurusd".toList, "M5".toList, true⟩),
    (openHost, .update (newId 1) ⟨none, some true⟩)]

theorem registry_invariant_paused : ∃ state, exec (callStep asciiCasing) ⟨0, []⟩ pausedCalls =
    some state ∧ state.revision = 3 ∧ state.deployments.length = 2 ∧
      state.deployments.Pairwise fun a b => ¬ Clash asciiCasing a.2 b.2 :=
  ⟨_, rfl, rfl, rfl, (registry_invariant (run_of_exec (rfl : exec (callStep asciiCasing) ⟨0, []⟩
    pausedCalls = some _))).1⟩

/-! ## The registry of the values -/

/-- `mutate` for a registry. -/
def Registry.mutate (casing : Casing) (host : Host) (reg : Registry) :
    Call → Except UpdateError (Option Deployment × Registry)
  | .add draft =>
    match addDeployment casing host reg draft with
    | .error message => .error (.duplicateChart message)
    | .ok (dep, added) => .ok (some dep, added)
  | .update id changes =>
    match updateDeployment casing host reg id changes with
    | .error refusal => .error refusal
    | .ok (dep, updated) => .ok (some dep, updated)
  | .remove id =>
    match removeDeployment reg id with
    | none => .error .key
    | some (dep, removed) => .ok (some dep, removed)
  | .rewrite => .ok (none, rewriteDesired reg)

/-- The registry of the values is changed like the dictionary. -/
theorem State.registry_get (hkeys : ∀ item ∈ state.deployments, item.1 = item.2.id)
    (key : List Char) : state.registry.get key = Dict.get state.deployments key := by
  rw [Registry.get, Dict.get, State.registry, List.find?_map]
  congr 1
  exact List.find?_congr fun item hitem => by rw [Function.comp_apply, hkeys item hitem]

theorem State.registry_set (hkeys : ∀ item ∈ state.deployments, item.1 = item.2.id) (revision : Nat)
    (dep : Deployment) :
    State.registry ⟨revision, Dict.set state.deployments dep.id dep⟩ =
      ⟨revision, state.registry.put dep⟩ := by
  have hany : (state.deployments.any fun item => item.1 = dep.id) =
      state.registry.deployments.any (·.id = dep.id) := by
    rw [State.registry, List.any_map, Bool.eq_iff_iff, List.any_eq_true, List.any_eq_true]
    refine exists_congr fun item => and_congr_right fun hitem => ?_
    rw [Function.comp_apply, hkeys item hitem]
  rw [State.registry, Dict.set, Registry.put, hany, Registry.mk.injEq]
  refine ⟨rfl, ?_⟩
  split
  · rw [State.registry, List.map_map, List.map_map]
    refine List.map_congr_left fun item hitem => ?_
    simp only [Function.comp_apply, hkeys item hitem]
    split <;> rfl
  · rw [List.map_append]
    rfl

theorem State.registry_pop (hkeys : ∀ item ∈ state.deployments, item.1 = item.2.id)
    (revision : Nat) (key : List Char) : State.registry ⟨revision, Dict.pop state.deployments key⟩ =
      ⟨revision, state.registry.deployments.filter (·.id ≠ key)⟩ := by
  rw [State.registry, Dict.pop, State.registry, List.filter_map, Registry.mk.injEq]
  refine ⟨rfl, congrArg _ (List.filter_congr fun item hitem => ?_)⟩
  rw [Function.comp_apply, hkeys item hitem]

/-- Calls of the dictionary are calls of the registry of its values. -/
theorem mutate_registry (hkeys : ∀ item ∈ state.deployments, item.1 = item.2.id) :
    (mutate casing host state call).map (Prod.map id State.registry) =
      Registry.mutate casing host state.registry call := by
  cases call with
  | add draft =>
    have hmutate : mutate casing host state (.add draft) =
        match checkAdd casing state.registry draft with
        | some message => .error (.duplicateChart message)
        | none => .ok (some (draft.deployment host),
            ⟨state.revision + 1, Dict.set state.deployments _ (draft.deployment host)⟩) := rfl
    rw [hmutate, Registry.mutate, addDeployment]
    cases checkAdd casing state.registry draft with
    | some message => rfl
    | none => exact congrArg (fun reg => Except.ok (_, reg)) (State.registry_set hkeys _ _)
  | update id changes =>
    rw [mutate, Registry.mutate, updateDeployment, State.registry_get hkeys]
    rcases hget : Dict.get state.deployments id with _ | dep
    · rfl
    · obtain rfl : id = dep.id := hkeys _ (Dict.mem_of_get hget)
      have hcheck : checkResume casing state.registry dep changes = if resuming dep changes then
          checkNoDuplicateChart casing state.registry dep.symbol dep.timeframe (some dep.id)
          else none := by
        simp only [resuming, checkResume, decide_eq_true_eq]
      simp only [hcheck]
      generalize (if resuming dep changes = true then
        checkNoDuplicateChart casing state.registry dep.symbol dep.timeframe (some dep.id)
        else none) = check
      cases check with
      | some message => rfl
      | none =>
        exact congrArg (fun reg => Except.ok (_, reg))
          (State.registry_set hkeys _ (dep.update changes host.now))
  | remove id =>
    rw [mutate, Registry.mutate, removeDeployment, State.registry_get hkeys]
    rcases Dict.get state.deployments id with _ | dep
    · rfl
    · exact congrArg (fun reg => Except.ok (_, reg)) (State.registry_pop hkeys _ id)
  | rewrite => rfl

end ChartCtl

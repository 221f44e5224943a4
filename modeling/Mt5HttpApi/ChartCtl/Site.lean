import Mt5HttpApi.ChartCtl.Persistence
import Mt5HttpApi.ChartCtl.Tick

/-!
# The API and the loader

The registry of the API and the loader of its terminal, with `desired.json` between them. A call of
the registry changes the copy in memory and writes the file (`Site.call`); the loader reads what the
file holds then (`Site.progress`).

A revision stands for one registry (`Recorded`), so what a loader reads that finds a revision, and
the deployments declared with it, is the registry of that revision (`Recorded.exists_of_text`).
-/

namespace ChartCtl

open JsonText

/-- The registry with its files, and the loader. -/
structure Site where
  copies : Copies
  /-- When `desired.json` was written, and from which registry. -/
  published : Option (Moment × Registry)
  /-- Every registry that was in memory until now. -/
  past : List State
  loader : Loader

/-- A call of the registry. -/
def Site.call (casing : Casing) (interval : Nat) (site : Site) (around : Surroundings)
    (call : Call) : Except Raised (Option Deployment) × Site :=
  let performed := site.copies.perform casing interval around call
  let published := match performed.1 with
    | .ok _ => some (around.written, performed.2.inMemory.registry)
    | .error _ => site.published
  (performed.1, { site with
    copies := performed.2
    published := published
    past := performed.2.inMemory :: site.past })

/-- `desired.json` as the loader reads it, when it can open the file. -/
def Site.text (page : CodePage) (opens : Bool) (site : Site) : Option (List Char) :=
  if opens then site.copies.desired.map (readFile page) else none

/-- A step of the loader. -/
def Site.progress (page : CodePage) (numerals : Numerals) (site : Site) (opens : Bool)
    (progress : Progress) : Option Site :=
  (site.loader.step numerals (site.text page opens) progress).map fun loader =>
    { site with loader := loader }

/-- Nothing is deployed, and the loader starts with a map. -/
def Site.start (numerals : Numerals) (t : Terminal) (own : Ownership) (since : UInt64) : Site where
  copies := ⟨none, .absent, none⟩
  published := none
  past := [⟨0, []⟩]
  loader := ⟨t, .commands (handleCommand numerals (Memory.init own since))⟩

/-- A terminal without charts. -/
def bareTerminal : Terminal :=
  ⟨[], 0, List.nodup_nil, fun _ hc => absurd hc List.not_mem_nil, Nat.zero_le _⟩

/-- A map without entries. -/
def noOwners : Ownership := ⟨[], List.nodup_nil, List.nodup_nil⟩

/-! ## What the loader reads -/

/-- What of a deployment decides which charts the loader arms and detaches. -/
def ChartCtlDeployment.outline (dep : ChartCtlDeployment) : List Char × List Char × Bool :=
  (dep.id, dep.templ, dep.enabled)

/-- The loader read the revision of a registry, and which deployments it declares. -/
structure Desired.Of (file : Desired) (reg : Registry) : Prop where
  revision : file.revision = reg.revision
  deployments : file.deployments.map ChartCtlDeployment.outline =
    reg.declared.map ChartCtlDeployment.outline

/-- What the loader would read from `desired.json` now is what was written. -/
def Site.Readable (page : CodePage) (numerals : Numerals) (interval : Nat) (site : Site) : Prop :=
  ∀ now reg, site.published = some (now, reg) →
    (readDesired numerals (readFile page (writeDesiredLocked interval now reg))).Of reg

instance (file : Desired) (reg : Registry) : Decidable (file.Of reg) :=
  decidable_of_iff (file.revision = reg.revision ∧
      file.deployments.map ChartCtlDeployment.outline =
        reg.declared.map ChartCtlDeployment.outline)
    ⟨fun h => ⟨h.1, h.2⟩, fun h => ⟨h.revision, h.deployments⟩⟩

variable {casing : Casing} {page : CodePage} {numerals : Numerals} {interval : Nat}
  {site after : Site} {around : Surroundings} {call : Call}
  {result : Except Raised (Option Deployment)}

/-- It is when the texts of the deployments are legible. -/
theorem Site.readable_of_legible (h : ∀ now reg, site.published = some (now, reg) →
    (∀ d ∈ reg.deployments, Legible d.declared) ∧ reg.revision < 2 ^ 63) :
    site.Readable page numerals interval := by
  intro now reg hpublished
  obtain ⟨hlegible, hrevision⟩ := h now reg hpublished
  obtain ⟨hrev, hdeps⟩ : LoaderReads page numerals interval now reg :=
    loaderReads_of_legible page numerals hlegible hrevision
  refine ⟨hrev, ?_⟩
  rw [readDesired, hdeps]
  rfl

/-- The deployment of an id is enabled. -/
def State.Enabled (state : State) (id : List Char) : Prop :=
  ∃ dep, Dict.get state.deployments id = some dep ∧ dep.enabled = true

/-- The declared deployments are those of the dictionary. -/
theorem Sound.mem_declared {state : State} (hs : Sound casing state) {dep : ChartCtlDeployment} :
    dep ∈ state.registry.declared ↔
      ∃ d, Dict.get state.deployments dep.id = some d ∧ d.declared = dep := by
  have hmem :
      dep ∈ state.registry.declared ↔ ∃ item ∈ state.deployments, item.2.declared = dep := by
    rw [Registry.declared, List.mem_map]
    simp only [List.mem_insertionSort, State.registry, List.mem_map, exists_exists_and_eq_and]
  rw [hmem]
  constructor
  · rintro ⟨item, hitem, rfl⟩
    have hget := Dict.get_of_mem hs.nodup hitem
    rw [hs.keys item hitem] at hget
    exact ⟨item.2, hget, rfl⟩
  · rintro ⟨d, hget, hd⟩
    exact ⟨_, Dict.mem_of_get hget, hd⟩

/-- The loader wants a deployment when it is enabled in the registry it read. -/
theorem Desired.Of.wanted_iff {state : State} {file : Desired} (h : file.Of state.registry)
    (hs : Sound casing state) {id : List Char} :
    wanted file.deployments id = true ↔ state.Enabled id := by
  have houtline : wanted file.deployments id = true ↔
      ∃ o ∈ file.deployments.map ChartCtlDeployment.outline, o.1 = id ∧ o.2.2 = true := by
    simp [wanted, ChartCtlDeployment.outline]
  rw [houtline, h.deployments]
  constructor
  · rintro ⟨o, ho, hid, henabled⟩
    obtain ⟨dep, hdep, rfl⟩ := List.mem_map.mp ho
    obtain ⟨d, hget, rfl⟩ := hs.mem_declared.mp hdep
    exact ⟨d, by rwa [show d.declared.id = id from hid] at hget, henabled⟩
  · rintro ⟨d, hget, henabled⟩
    obtain rfl : id = d.id := hs.keys _ (Dict.mem_of_get hget)
    have hdeclared : d.declared ∈ state.registry.declared := hs.mem_declared.mpr ⟨d, hget, rfl⟩
    exact ⟨d.declared.outline, List.mem_map_of_mem hdeclared, rfl, henabled⟩

/-! ## The registry over time -/

/-- What `past` and `published` say of the copies. -/
structure Recorded (casing : Casing) (interval : Nat) (site : Site) : Prop where
  current : site.copies.inMemory ∈ site.past
  sound : ∀ state ∈ site.past, Sound casing state
  revision_le : ∀ state ∈ site.past, state.revision ≤ site.copies.inMemory.revision
  /-- A revision stands for one registry. -/
  unique : ∀ state ∈ site.past, ∀ state' ∈ site.past, state.revision = state'.revision →
    state = state'
  published : ∀ now reg, site.published = some (now, reg) → ∃ state ∈ site.past,
    state.registry = reg
  desired : site.copies.desired =
    site.published.map fun p => writeDesiredLocked interval p.1 p.2

/-- A call is refused, or changes the registry in memory and then may fail to publish it. -/
theorem Site.call_cases (h : site.call casing interval around call = (result, after)) :
    after.loader = site.loader ∧ after.past = after.copies.inMemory :: site.past ∧
      ((∃ e, refusal casing site.copies.inMemory call = some e ∧
          result = .error (.refused e) ∧ after.copies.inMemory = site.copies.inMemory ∧
          after.published = site.published ∧ after.copies.desired = site.copies.desired) ∨
        ∃ returned state,
          mutate casing around.host site.copies.inMemory call = .ok (returned, state) ∧
          after.copies.inMemory = state ∧
          (around.writes = .succeed ∧ result = .ok returned ∧
              after.published = some (around.written, state.registry) ∧
              after.copies.desired =
                some (writeDesiredLocked interval around.written state.registry) ∨
            around.writes ≠ .succeed ∧ result = .error .osError ∧
              after.published = site.published ∧
              after.copies.desired = site.copies.desired)) := by
  rw [Site.call] at h
  have hresult := congrArg Prod.fst h
  have hafter := congrArg Prod.snd h
  dsimp only at hresult hafter
  subst hafter
  refine ⟨rfl, rfl, ?_⟩
  dsimp only
  rcases refusal_or_mutate casing around.host site.copies.inMemory call with
    ⟨e, he⟩ | ⟨-, returned, state, hmutate⟩
  · refine Or.inl ⟨e, ?_⟩
    rw [perform_of_refusal he] at hresult ⊢
    exact ⟨he, hresult.symm, inMemory_loadLocked _, rfl, desired_loadLocked _⟩
  · obtain ⟨hmemory, houtcome⟩ := perform_of_mutate interval hmutate
    refine Or.inr ⟨returned, state, hmutate, hmemory, ?_⟩
    have hdesired := desired_perform interval hmutate
    rw [hresult] at houtcome
    cases hwrites : around.writes with
    | succeed =>
      rw [hwrites] at houtcome hdesired
      subst houtcome
      refine Or.inl ⟨rfl, rfl, ?_, hdesired⟩
      simp only [hresult, hmemory]
    | registryFails | desiredFails =>
      rw [hwrites] at houtcome hdesired
      subst houtcome
      refine Or.inr ⟨Writes.noConfusion, rfl, ?_, hdesired⟩
      simp only [hresult]

theorem recorded_start (t : Terminal) (own : Ownership) (since : UInt64) :
    Recorded casing interval (Site.start numerals t own since) where
  current := List.mem_cons_self
  sound state hstate := by
    obtain rfl := List.mem_singleton.mp hstate
    exact ⟨fun item hitem => absurd hitem List.not_mem_nil, List.nodup_nil,
      fun a ha => absurd ha List.not_mem_nil⟩
  revision_le state hstate := by
    obtain rfl := List.mem_singleton.mp hstate
    exact le_rfl
  unique state hstate state' hstate' _ := by
    rw [List.mem_singleton.mp hstate, List.mem_singleton.mp hstate']
  published now reg hpublished := absurd hpublished.symm (Option.some_ne_none _)
  desired := rfl

/-- A registry that comes to be in memory: it is the one before, or it has a revision that no other
one has. -/
theorem Recorded.enter (hs : Recorded casing interval site) {state : State}
    (hstate : state = site.copies.inMemory ∨
      Sound casing state ∧ site.copies.inMemory.revision < state.revision) :
    (∀ s ∈ state :: site.past, Sound casing s) ∧
      (∀ s ∈ state :: site.past, s.revision ≤ state.revision) ∧
      ∀ s ∈ state :: site.past, ∀ s' ∈ state :: site.past, s.revision = s'.revision → s = s' := by
  rcases hstate with rfl | ⟨hsound, hlt⟩
  · have hmem : ∀ s ∈ site.copies.inMemory :: site.past, s ∈ site.past := by
      simp only [List.forall_mem_cons]
      exact ⟨hs.current, fun s hs => hs⟩
    exact ⟨fun s hs' => hs.sound s (hmem s hs'), fun s hs' => hs.revision_le s (hmem s hs'),
      fun s hs' s' hs'' => hs.unique s (hmem s hs') s' (hmem s' hs'')⟩
  · have hbelow : ∀ s ∈ site.past, s.revision < state.revision :=
      fun s hs' => (hs.revision_le s hs').trans_lt hlt
    simp only [List.forall_mem_cons]
    refine ⟨⟨hsound, hs.sound⟩, ⟨le_rfl, fun s hs' => (hbelow s hs').le⟩, ⟨?_, ?_⟩⟩
    · exact ⟨fun _ => trivial, fun s hs' heq => absurd heq (hbelow s hs').ne'⟩
    · exact fun s hs' => ⟨fun heq => absurd heq (hbelow s hs').ne, hs.unique s hs'⟩

/-- A call keeps the record. -/
theorem Recorded.of_call (hs : Recorded casing interval site)
    (h : site.call casing interval around call = (result, after)) :
    Recorded casing interval after := by
  obtain ⟨-, hpast, hcases⟩ := Site.call_cases h
  have henter : (after.copies.inMemory = site.copies.inMemory ∨
      Sound casing after.copies.inMemory ∧
        site.copies.inMemory.revision < after.copies.inMemory.revision) := by
    rcases hcases with ⟨e, -, -, hmemory, -⟩ | ⟨returned, state, hmutate, rfl, -⟩
    · exact Or.inl hmemory
    · refine Or.inr ⟨(hs.sound _ hs.current).mutate hmutate, ?_⟩
      rw [mutate_revision hmutate]
      exact Nat.lt_succ_self _
  obtain ⟨hsound, hle, hunique⟩ := hs.enter henter
  rw [← hpast] at hsound hle hunique
  have hkept : ∀ now reg, site.published = some (now, reg) → ∃ state ∈ after.past,
      state.registry = reg := by
    intro now reg hpublished
    obtain ⟨state, hstate, hreg⟩ := hs.published now reg hpublished
    exact ⟨state, hpast ▸ List.mem_cons_of_mem _ hstate, hreg⟩
  refine ⟨hpast ▸ List.mem_cons_self, hsound, hle, hunique, ?_, ?_⟩
  · rcases hcases with ⟨e, -, -, -, hpub, -⟩ | ⟨returned, state, -, hmemory, hwrites⟩
    · rw [hpub]
      exact hkept
    rcases hwrites with ⟨-, -, hpub, -⟩ | ⟨-, -, hpub, -⟩
    · -- what is in memory now is what was written
      intro now reg hpublished
      rw [hpub] at hpublished
      refine ⟨state, ?_, (Prod.mk.inj (Option.some.inj hpublished)).2⟩
      rw [hpast, hmemory]
      exact List.mem_cons_self
    · rw [hpub]
      exact hkept
  · rcases hcases with ⟨e, -, -, -, hpub, hdesired⟩ | ⟨returned, state, -, -, hwrites⟩
    · rw [hpub, hdesired, hs.desired]
    rcases hwrites with ⟨-, -, hpub, hdesired⟩ | ⟨-, -, hpub, hdesired⟩
    · rw [hpub, hdesired]
      rfl
    · rw [hpub, hdesired, hs.desired]

/-- A step of the loader keeps it. -/
theorem Recorded.of_progress (hs : Recorded casing interval site) {opens : Bool}
    {progress : Progress}
    (h : site.progress page numerals opens progress = some after) :
    Recorded casing interval after := by
  obtain ⟨loader, -, rfl⟩ := Option.map_eq_some_iff.mp h
  exact ⟨hs.current, hs.sound, hs.revision_le, hs.unique, hs.published, hs.desired⟩

/-- What the loader reads is a registry there was. -/
theorem Recorded.exists_of_text (hs : Recorded casing interval site) {opens : Bool}
    (hreadable : site.Readable page numerals interval) {json : List Char}
    (htext : site.text page opens = some json) :
    ∃ now, ∃ state ∈ site.past, site.published = some (now, state.registry) ∧
      (readDesired numerals json).Of state.registry := by
  rw [Site.text, hs.desired] at htext
  split at htext
  next =>
    obtain ⟨file, hfile, rfl⟩ := Option.map_eq_some_iff.mp htext
    obtain ⟨⟨now, reg⟩, hpublished, rfl⟩ := Option.map_eq_some_iff.mp hfile
    obtain ⟨state, hstate, rfl⟩ := hs.published now reg hpublished
    exact ⟨now, state, hstate, hpublished, hreadable now _ hpublished⟩
  next => cases htext

end ChartCtl

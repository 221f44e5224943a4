import Mt5HttpApi.ChartCtl.Refusals
import Mt5HttpApi.ChartCtl.Site

/-!
# The templates the loader applies

`create_deployment` and `patch_deployment` of `mt5api/handlers/chartctl.py` change the registry,
which publishes `desired.json`, and only then write the template of the deployment
(`_materialize_tpl`). Any number of requests and the loader go on side by side (`Desk.step`).

A template that a pass applies was built from the set file that its deployment had at the revision
of the pass, or later (`Desk.Right`), in every run in which the loader reads `desired.json` only
when no request is still to write the template of a deployment that it lists as enabled, and no
write that a template depends on fails or overtakes another one: `arms_right`.
-/

namespace ChartCtl

open Interaction JsonText Transition

/-- Where a request is. -/
inductive Crafting
  | idle
  /-- Before `add_deployment`. -/
  | adding (draft : Draft)
  /-- Before `update_deployment`. -/
  | updating (id : List Char) (changes : Changes)
  /-- Before `_materialize_tpl`, for a deployment that was created or changed. -/
  | materializing (dep : Deployment) (created : Bool)
  /-- Before the `remove_deployment` that follows when it raised. -/
  | dropping (id : List Char)

/-- What happens to a request. -/
inductive RequestEvent
  | create (host : Host) (request : CreateRequest)
  | patch (host : Host) (id : List Char) (request : PatchRequest)
  /-- Its next call, and what that meets. -/
  | next (around : Surroundings) (materialized : Materialized)

/-- The site, the requests, and for each template file the `set_file` it was built from. -/
structure Desk (ρ : Type) where
  site : Site
  templates : List Char → Option (Option (List Char))
  requests : ρ → Crafting

/-- What happens. -/
inductive DeskEvent (ρ : Type)
  | request (r : ρ) (event : RequestEvent)
  | loader (opens : Bool) (progress : Progress)

variable {ρ : Type} [DecidableEq ρ]

/-- A request is at another place. -/
def Desk.put (s : Desk ρ) (r : ρ) (phase : Crafting) : Desk ρ :=
  { s with requests := fun r' => if r' = r then phase else s.requests r' }

omit [DecidableEq ρ] in
/-- A template file is written. -/
def Desk.write (s : Desk ρ) (dep : Deployment) : Desk ρ :=
  { s with templates := fun name =>
      if name = tplRelativeName dep.id then some dep.setFile else s.templates name }

/-- After a change of the registry: the template is still to be written when the request changed the
set file. -/
def afterChange (result : Except Raised (Option Deployment)) (renews created : Bool) : Crafting :=
  match result with
  | .ok (some dep) => if renews then .materializing dep created else .idle
  | _ => .idle

theorem afterChange_false (result : Except Raised (Option Deployment)) (created : Bool) :
    afterChange result false created = .idle := by
  rcases result with e | dep | dep <;> rfl

/-- The next call of a request. -/
def Desk.advance (casing : Casing) (interval : Nat) (s : Desk ρ) (r : ρ) (around : Surroundings)
    (materialized : Materialized) : Crafting → Option (Desk ρ)
  | .idle => none
  | .adding draft =>
    let called := s.site.call casing interval around (.add draft)
    some (Desk.put { s with site := called.2 } r (afterChange called.1 true true))
  | .updating id changes =>
    let called := s.site.call casing interval around (.update id changes)
    some (Desk.put { s with site := called.2 } r
      (afterChange called.1 changes.setFile.isSome false))
  | .materializing dep created =>
    match materialized with
    | .written => some ((s.write dep).put r .idle)
    | .valueError _ => some (s.put r (if created then .dropping dep.id else .idle))
    | .raises => some (s.put r .idle)
  | .dropping id =>
    let called := s.site.call casing interval around (.remove id)
    some (Desk.put { s with site := called.2 } r .idle)

/-- One step. A request that is refused before it changes the registry stays where it is. -/
def Desk.step (casing : Casing) (page : CodePage) (numerals : Numerals) (interval : Nat)
    (s : Desk ρ) : DeskEvent ρ → Option (Desk ρ)
  | .request r (.create host request) =>
    match s.requests r, acceptCreate casing host request with
    | .idle, .ok draft => some (s.put r (.adding draft))
    | .idle, .error _ => some s
    | _, _ => none
  | .request r (.patch host id request) =>
    match s.requests r, checkPatch host request with
    | .idle, .ok changes => some (s.put r (.updating id changes))
    | .idle, .error _ => some s
    | _, _ => none
  | .request r (.next around materialized) =>
    s.advance casing interval r around materialized (s.requests r)
  | .loader opens progress =>
    (s.site.progress page numerals opens progress).map fun site => { s with site := site }

omit [DecidableEq ρ] in
/-- Nothing is deployed, there are no templates, and the loader starts with a map. -/
def Desk.start (numerals : Numerals) (t : Terminal) (own : Ownership) (since : UInt64) : Desk ρ :=
  ⟨Site.start numerals t own since, fun _ => none, fun _ => .idle⟩

/-- The deployment had this `set_file` at the revision or later. -/
def HadSince (past : List State) (revision : Int) (id : List Char)
    (setFile : Option (List Char)) : Prop :=
  ∃ state ∈ past, revision ≤ state.revision ∧
    ∃ dep, Dict.get state.deployments id = some dep ∧ dep.setFile = setFile

omit [DecidableEq ρ] in
/-- A template that a pass is about to apply is there, and was built from a `set_file` that its
deployment had at the revision of the pass or later. -/
def Desk.Right (s : Desk ρ) : Prop :=
  ∀ file chart templ next,
    s.site.loader.stage = .passing (some file) (.call (.chartApplyTemplate chart templ) next) →
    ∃ dep ∈ file.deployments, dep.enabled = true ∧ dep.templ = templ ∧
      ∃ setFile, s.templates templ = some setFile ∧
        HadSince s.site.past file.revision dep.id setFile

omit [DecidableEq ρ] in
/-- No request is still to write the template of the deployment. -/
def Desk.Written (s : Desk ρ) (id : List Char) : Prop :=
  ∀ r dep created, s.requests r = .materializing dep created → dep.id ≠ id

omit [DecidableEq ρ] in
/-- The condition on a call of a request: a change of the set file is published, and none is to be
written for that deployment yet; and the template is written then, or the deployment that was
created is removed again. -/
def Desk.Careful (s : Desk ρ) (around : Surroundings) (materialized : Materialized) :
    Crafting → Prop
  | .idle => True
  | .adding _ => around.writes = .succeed ∧ s.Written (newId around.host.random)
  | .updating id changes => changes.setFile.isSome = true →
    around.writes = .succeed ∧ s.Written id
  | .materializing _ created =>
    materialized = .written ∨ created = true ∧ ∃ message, materialized = .valueError message
  | .dropping _ => around.writes = .succeed

omit [DecidableEq ρ] in
/-- The condition on a step. The loader reads `desired.json` when the templates of the enabled
deployments in it are written, and reads it as it was written. -/
def Desk.Orderly (page : CodePage) (numerals : Numerals) (interval : Nat) (s : Desk ρ) :
    DeskEvent ρ → Prop
  | .request r (.next around materialized) => s.Careful around materialized (s.requests r)
  | .loader true .next => ∀ mem, s.site.loader.stage = .reading mem →
    s.site.Readable page numerals interval ∧
      ∀ now reg, s.site.published = some (now, reg) → ∀ d ∈ reg.deployments, d.enabled = true →
        s.Written d.id ∧ ∀ r, s.requests r ≠ .dropping d.id
  | _ => True

/-! ## What holds in every state -/

variable {casing : Casing} {page : CodePage} {numerals : Numerals} {interval : Nat}
  {s s' : Desk ρ} {past past' : List State} {revision : Int} {id : List Char}
  {setFile : Option (List Char)}

theorem tplRelativeName_injective : Function.Injective tplRelativeName := by
  intro id id' h
  exact List.append_cancel_left (List.append_cancel_right h)

theorem HadSince.mono (h : HadSince past revision id setFile) (hpast : past ⊆ past') :
    HadSince past' revision id setFile :=
  let ⟨state, hstate, hrest⟩ := h
  ⟨state, hpast hstate, hrest⟩

omit [DecidableEq ρ] in
/-- The template of a deployment is built from its set file, or a request is about to see to it. -/
def Desk.Ready (s : Desk ρ) (d : Deployment) : Prop :=
  s.templates (tplRelativeName d.id) = some d.setFile ∨
    (∃ r dep created, s.requests r = .materializing dep created ∧ dep.id = d.id ∧
      dep.setFile = d.setFile) ∨
    ∃ r, s.requests r = .dropping d.id

omit [DecidableEq ρ] in
/-- The template of a deployment, and one that is about to take its place, are of set files that it
had since the revision. -/
def Desk.Fresh (s : Desk ρ) (revision : Int) (id : List Char) : Prop :=
  (∃ setFile, s.templates (tplRelativeName id) = some setFile ∧
    HadSince s.site.past revision id setFile) ∧
  ∀ r dep created, s.requests r = .materializing dep created → dep.id = id →
    HadSince s.site.past revision id dep.setFile

/-- The templates a pass may apply are fresh. -/
def Desk.Passes (s : Desk ρ) : Stage → Prop
  | .passing (some file) p => file.revision ≤ s.site.copies.inMemory.revision ∧
    ArmsOnly file.deployments p ∧ ∀ dep ∈ file.deployments, dep.enabled = true →
      dep.templ = tplRelativeName dep.id ∧ s.Fresh file.revision dep.id
  | _ => True

/-- What holds in every state. -/
structure Desk.Whole (casing : Casing) (interval : Nat) (s : Desk ρ) : Prop where
  recorded : Recorded casing interval s.site
  ready : ∀ item ∈ s.site.copies.inMemory.deployments, s.Ready item.2
  /-- What is published is in memory, with the same set file. -/
  published : ∀ now reg, s.site.published = some (now, reg) → ∀ d ∈ reg.deployments,
    ∃ item ∈ s.site.copies.inMemory.deployments, item.2.id = d.id ∧ item.2.setFile = d.setFile
  /-- A request writes the template of the set file that the deployment has. -/
  current : ∀ r dep created, s.requests r = .materializing dep created →
    ∀ item ∈ s.site.copies.inMemory.deployments, item.2.id = dep.id →
      item.2.setFile = dep.setFile
  passes : s.Passes s.site.loader.stage

@[simp]
theorem put_requests_same (r : ρ) (phase : Crafting) : (s.put r phase).requests r = phase :=
  if_pos rfl

theorem put_requests_other {r r' : ρ} (phase : Crafting) (h : r' ≠ r) :
    (s.put r phase).requests r' = s.requests r' :=
  if_neg h

omit [DecidableEq ρ] in
theorem write_templates_same (dep : Deployment) :
    (s.write dep).templates (tplRelativeName dep.id) = some dep.setFile :=
  if_pos rfl

omit [DecidableEq ρ] in
theorem write_templates_other {dep : Deployment} (h : id ≠ dep.id) :
    (s.write dep).templates (tplRelativeName id) = s.templates (tplRelativeName id) :=
  if_neg fun heq => h (tplRelativeName_injective heq)

omit [DecidableEq ρ] in
/-- What a pass may apply stays fresh. -/
theorem Desk.Passes.mono {stage : Stage} (h : s.Passes stage)
    (hrevision : s.site.copies.inMemory.revision ≤ s'.site.copies.inMemory.revision)
    (hfresh : ∀ (revision : Int) id, revision ≤ s.site.copies.inMemory.revision →
      s.Fresh revision id → s'.Fresh revision id) : s'.Passes stage := by
  cases stage with
  | passing file p =>
    cases file with
    | none => trivial
    | some file =>
      obtain ⟨hfile, harms, hdeps⟩ := h
      refine ⟨hfile.trans (Int.ofNat_le.mpr hrevision), harms, fun dep hdep henabled => ?_⟩
      obtain ⟨htempl, hdep⟩ := hdeps dep hdep henabled
      exact ⟨htempl, hfresh file.revision dep.id hfile hdep⟩
  | commands | reading | writing => trivial

/-- A request moves on, and what it is to write then is of a set file since the revision. -/
theorem Desk.Fresh.put (h : s.Fresh revision id) (r : ρ) {phase : Crafting}
    (hphase : ∀ dep created, phase = .materializing dep created → dep.id = id →
      HadSince s.site.past revision id dep.setFile) : (s.put r phase).Fresh revision id := by
  refine ⟨h.1, fun r' dep created hr' hid => ?_⟩
  by_cases hr : r' = r
  · subst hr
    rw [put_requests_same] at hr'
    exact hphase dep created hr' hid
  · rw [put_requests_other phase hr] at hr'
    exact h.2 r' dep created hr' hid

omit [DecidableEq ρ] in
/-- The past grows. -/
theorem Desk.Fresh.grow {after : Site} (h : s.Fresh revision id)
    (hpast : s.site.past ⊆ after.past) : Desk.Fresh { s with site := after } revision id := by
  obtain ⟨setFile, htempl, hhad⟩ := h.1
  exact ⟨⟨setFile, htempl, hhad.mono hpast⟩,
    fun r dep created hr hid => (h.2 r dep created hr hid).mono hpast⟩

/-- Other requests see to the templates they did before. -/
theorem Desk.Ready.put {d : Deployment} (h : s.Ready d) (r : ρ) {phase : Crafting}
    (hwrites : ∀ dep created, s.requests r = .materializing dep created → dep.id ≠ d.id)
    (hdrops : s.requests r ≠ .dropping d.id) : (s.put r phase).Ready d := by
  rcases h with hdone | ⟨r', dep, created, hr', hid, hset⟩ | ⟨r', hr'⟩
  · exact Or.inl hdone
  · have hne : r' ≠ r := by
      rintro rfl
      exact hwrites dep created hr' hid
    exact Or.inr (Or.inl ⟨r', dep, created, (put_requests_other phase hne).trans hr', hid, hset⟩)
  · have hne : r' ≠ r := by
      rintro rfl
      exact hdrops hr'
    exact Or.inr (Or.inr ⟨r', (put_requests_other phase hne).trans hr'⟩)

/-- A request moves on when it has nothing left to write or to drop for a deployment of the
registry. The deployments have the set files they had. -/
theorem Desk.Whole.change (hs : s.Whole casing interval) {after : Site} {r : ρ} {phase : Crafting}
    (hrecorded : Recorded casing interval after) (hloader : after.loader = s.site.loader)
    (hpast : s.site.past ⊆ after.past)
    (hrevision : s.site.copies.inMemory.revision ≤ after.copies.inMemory.revision)
    (hkept : ∀ item ∈ after.copies.inMemory.deployments,
      ∃ old ∈ s.site.copies.inMemory.deployments, old.2.id = item.2.id ∧
        old.2.setFile = item.2.setFile)
    (hpublished : ∀ now reg, after.published = some (now, reg) → ∀ d ∈ reg.deployments,
      ∃ item ∈ after.copies.inMemory.deployments, item.2.id = d.id ∧ item.2.setFile = d.setFile)
    (hleft : ∀ item ∈ after.copies.inMemory.deployments,
      (∀ dep created, s.requests r = .materializing dep created → dep.id ≠ item.2.id) ∧
        s.requests r ≠ .dropping item.2.id)
    (hphase : ∀ dep created, phase ≠ .materializing dep created) :
    (Desk.put { s with site := after } r phase).Whole casing interval where
  recorded := hrecorded
  ready item hitem := by
    obtain ⟨old, hold, hid, hset⟩ := hkept item hitem
    have hready := hs.ready old hold
    rw [Desk.Ready, hid, hset] at hready
    exact Desk.Ready.put (s := { s with site := after }) hready r (hleft item hitem).1
      (hleft item hitem).2
  published := hpublished
  current r' dep created hr' item hitem hid := by
    by_cases hr : r' = r
    · subst hr
      rw [put_requests_same] at hr'
      exact absurd hr' (hphase dep created)
    · rw [put_requests_other phase hr] at hr'
      obtain ⟨old, hold, hid', hset⟩ := hkept item hitem
      rw [← hset]
      exact hs.current r' dep created hr' old hold (hid'.trans hid)
  passes := by
    have hpasses := hs.passes
    rw [← hloader] at hpasses
    refine hpasses.mono hrevision fun revision id _ hfresh => ?_
    exact (hfresh.grow hpast).put r fun dep created hdep => absurd hdep (hphase dep created)

/-- A deployment is registered with a set file whose template the request is to write. -/
theorem Desk.Whole.register (hs : s.Whole casing interval) {after : Site} {r : ρ}
    {dep : Deployment} {created : Bool} {now : Moment}
    (hrecorded : Recorded casing interval after) (hloader : after.loader = s.site.loader)
    (hpast : after.past = after.copies.inMemory :: s.site.past)
    (hmemory : after.copies.inMemory = ⟨s.site.copies.inMemory.revision + 1,
      Dict.set s.site.copies.inMemory.deployments dep.id dep⟩)
    (hpublished : after.published = some (now, after.copies.inMemory.registry))
    (hidle : ∀ item ∈ s.site.copies.inMemory.deployments,
      (∀ dep created, s.requests r = .materializing dep created → dep.id ≠ item.2.id) ∧
        s.requests r ≠ .dropping item.2.id)
    (hwritten : s.Written dep.id) :
    (Desk.put { s with site := after } r (.materializing dep created)).Whole casing interval where
  recorded := hrecorded
  ready item hitem := by
    replace hitem : item ∈ after.copies.inMemory.deployments := hitem
    rw [hmemory] at hitem
    rcases Dict.mem_set hitem with rfl | ⟨hold, -⟩
    · exact Or.inr (Or.inl ⟨r, dep, created, put_requests_same r _, rfl, rfl⟩)
    · exact Desk.Ready.put (s := { s with site := after }) (hs.ready item hold) r
        (hidle item hold).1 (hidle item hold).2
  published now' reg hreg d hd := by
    replace hreg : after.published = some (now', reg) := hreg
    rw [hpublished] at hreg
    obtain ⟨-, rfl⟩ := Prod.mk.inj (Option.some.inj hreg)
    obtain ⟨item, hitem, rfl⟩ := List.mem_map.mp hd
    exact ⟨item, hitem, rfl, rfl⟩
  current r' dep' created' hr' item hitem hid := by
    replace hitem : item ∈ after.copies.inMemory.deployments := hitem
    rw [hmemory] at hitem
    by_cases hr : r' = r
    · subst hr
      rw [put_requests_same] at hr'
      obtain ⟨rfl, -⟩ := Crafting.materializing.inj hr'
      rcases Dict.mem_set hitem with rfl | ⟨hold, hne⟩
      · rfl
      · -- the deployments of the others have other ids
        have hkey := (hs.recorded.sound _ hs.recorded.current).keys item hold
        exact absurd (hkey.trans hid) hne
    · rw [put_requests_other _ hr] at hr'
      rcases Dict.mem_set hitem with rfl | ⟨hold, -⟩
      · exact absurd hid.symm (hwritten r' dep' created' hr')
      · exact hs.current r' dep' created' hr' item hold hid
  passes := by
    have hpasses := hs.passes
    rw [← hloader] at hpasses
    refine hpasses.mono ?_ fun revision id hle hfresh => ?_
    · show _ ≤ after.copies.inMemory.revision
      rw [hmemory]
      exact Nat.le_succ _
    · have hgrown : s.site.past ⊆ after.past := by
        rw [hpast]
        exact List.subset_cons_self _ _
      refine (hfresh.grow hgrown).put r fun dep' created' hdep hid => ?_
      -- it has the set file in the registry that the request leaves
      obtain ⟨rfl, -⟩ := Crafting.materializing.inj hdep
      refine ⟨after.copies.inMemory, ?_, ?_, dep, ?_, rfl⟩
      · show _ ∈ after.past
        rw [hpast]
        exact List.mem_cons_self
      · rw [hmemory]
        exact hle.trans (Int.ofNat_le.mpr (Nat.le_succ _))
      · rw [hmemory, Dict.get_set, if_pos hid.symm]

omit [DecidableEq ρ] in
/-- Other templates stay as they are. -/
theorem Desk.Ready.write {d dep : Deployment} (h : s.Ready d) (hid : d.id ≠ dep.id) :
    (s.write dep).Ready d :=
  h.imp_left fun hdone => (write_templates_other hid).trans hdone

/-- The template is written. -/
theorem Desk.Whole.write (hs : s.Whole casing interval) {r : ρ} {dep : Deployment}
    {created : Bool} (hr : s.requests r = .materializing dep created) :
    ((s.write dep).put r .idle).Whole casing interval where
  recorded := hs.recorded
  ready item hitem := by
    by_cases hid : item.2.id = dep.id
    · refine Or.inl ?_
      show (s.write dep).templates _ = _
      rw [hid, write_templates_same, hs.current r dep created hr item hitem hid]
    · refine ((hs.ready item hitem).write hid).put r (fun dep' created' hr' => ?_) fun hr' => ?_
      · obtain ⟨rfl, -⟩ := Crafting.materializing.inj (hr.symm.trans hr')
        exact Ne.symm hid
      · cases hr.symm.trans hr'
  published := hs.published
  current r' dep' created' hr' := by
    by_cases hr'' : r' = r
    · subst hr''
      rw [put_requests_same] at hr'
      cases hr'
    · rw [put_requests_other _ hr''] at hr'
      exact hs.current r' dep' created' hr'
  passes := by
    refine hs.passes.mono le_rfl fun revision id _ hfresh => ?_
    have hwritten : (s.write dep).Fresh revision id := by
      refine ⟨?_, hfresh.2⟩
      by_cases hid : id = dep.id
      · subst hid
        exact ⟨dep.setFile, write_templates_same dep, hfresh.2 r dep created hr rfl⟩
      · obtain ⟨setFile, htempl, hhad⟩ := hfresh.1
        exact ⟨setFile, (write_templates_other hid).trans htempl, hhad⟩
    exact hwritten.put r fun dep' created' hdep => Crafting.noConfusion hdep

/-- The template of a deployment that was created cannot be written, so that the deployment is to be
removed. -/
theorem Desk.Whole.fail (hs : s.Whole casing interval) {r : ρ} {dep : Deployment} {created : Bool}
    (hr : s.requests r = .materializing dep created) :
    (s.put r (.dropping dep.id)).Whole casing interval where
  recorded := hs.recorded
  ready item hitem := by
    by_cases hid : item.2.id = dep.id
    · refine Or.inr (Or.inr ⟨r, ?_⟩)
      rw [put_requests_same, hid]
    · refine (hs.ready item hitem).put r (fun dep' created' hr' => ?_) fun hr' => ?_
      · obtain ⟨rfl, -⟩ := Crafting.materializing.inj (hr.symm.trans hr')
        exact Ne.symm hid
      · cases hr.symm.trans hr'
  published := hs.published
  current r' dep' created' hr' := by
    by_cases hr'' : r' = r
    · subst hr''
      rw [put_requests_same] at hr'
      cases hr'
    · rw [put_requests_other _ hr''] at hr'
      exact hs.current r' dep' created' hr'
  passes := hs.passes.mono le_rfl fun revision id _ hfresh =>
    hfresh.put r fun dep' created' hdep => Crafting.noConfusion hdep

omit [DecidableEq ρ] in
/-- The request has no template to write, and no deployment to remove. -/
theorem idle_of_phase {r : ρ} {d : Deployment}
    (hwrites : ∀ dep created, s.requests r ≠ .materializing dep created)
    (hdrops : ∀ id, s.requests r ≠ .dropping id) :
    (∀ dep created, s.requests r = .materializing dep created → dep.id ≠ d.id) ∧
      s.requests r ≠ .dropping d.id :=
  ⟨fun dep created hr => absurd hr (hwrites dep created), hdrops d.id⟩

/-- A call is refused. -/
theorem Desk.Whole.refused (hs : s.Whole casing interval) {after : Site} {r : ρ}
    {phase : Crafting} (hrecorded : Recorded casing interval after)
    (hloader : after.loader = s.site.loader)
    (hpast : s.site.past ⊆ after.past)
    (hmemory : after.copies.inMemory = s.site.copies.inMemory)
    (hpublished : after.published = s.site.published)
    (hleft : ∀ item ∈ s.site.copies.inMemory.deployments,
      (∀ dep created, s.requests r = .materializing dep created → dep.id ≠ item.2.id) ∧
        s.requests r ≠ .dropping item.2.id)
    (hphase : ∀ dep created, phase ≠ .materializing dep created) :
    (Desk.put { s with site := after } r phase).Whole casing interval := by
  refine hs.change hrecorded hloader hpast (by rw [hmemory]) ?_ ?_ (by rwa [hmemory]) hphase
  · rw [hmemory]
    exact fun item hitem => ⟨item, hitem, rfl, rfl⟩
  · rw [hmemory, hpublished]
    exact hs.published

/-- A deployment is changed, but for its set file. -/
theorem Desk.Whole.adjust (hs : s.Whole casing interval) {around : Surroundings} {r : ρ}
    {result : Except Raised (Option Deployment)} {after : Site} {changes : Changes}
    {phase : Crafting}
    (hcall : s.site.call casing interval around (.update id changes) = (result, after))
    (hset : changes.setFile = none)
    (hwrites : ∀ dep created, s.requests r ≠ .materializing dep created)
    (hdrops : ∀ id, s.requests r ≠ .dropping id)
    (hphase : ∀ dep created, phase ≠ .materializing dep created) :
    (Desk.put { s with site := after } r phase).Whole casing interval := by
  have hrecorded := hs.recorded.of_call hcall
  obtain ⟨hloader, hpast, hcases⟩ := Site.call_cases hcall
  have hgrown : s.site.past ⊆ after.past := by
    rw [hpast]
    exact List.subset_cons_self _ _
  rcases hcases with ⟨e, -, -, hmemory, hpublished, -⟩ |
    ⟨returned, state, hmutate, hmemory, hwritten⟩
  · exact hs.refused hrecorded hloader hgrown hmemory hpublished
      (fun item _ => idle_of_phase hwrites hdrops) hphase
  obtain ⟨old, hget, -, -, rfl⟩ := update_of_mutate hmutate
  have hold := Dict.mem_of_get hget
  have hid : id = old.id := (hs.recorded.sound _ hs.recorded.current).keys _ hold
  -- every deployment has the set file it had
  have hkept : ∀ item ∈ after.copies.inMemory.deployments,
      ∃ old ∈ s.site.copies.inMemory.deployments, old.2.id = item.2.id ∧
        old.2.setFile = item.2.setFile := by
    intro item hitem
    rw [hmemory] at hitem
    rcases Dict.mem_set hitem with rfl | ⟨hitem, -⟩
    · refine ⟨_, hold, rfl, ?_⟩
      show old.setFile = changes.setFile.getD old.setFile
      rw [hset]
      rfl
    · exact ⟨item, hitem, rfl, rfl⟩
  have hthere : ∀ item ∈ s.site.copies.inMemory.deployments,
      ∃ item' ∈ after.copies.inMemory.deployments, item'.2.id = item.2.id ∧
        item'.2.setFile = item.2.setFile := by
    intro item hitem
    have hfound := Dict.get_of_mem (hs.recorded.sound _ hs.recorded.current).nodup hitem
    rw [hmemory]
    by_cases hkey : item.1 = id
    · rw [hkey, hget, Option.some.injEq] at hfound
      refine ⟨(id, old.update changes around.host.now), Dict.mem_of_get ?_, ?_, ?_⟩
      · rw [Dict.get_set, if_pos rfl]
      · rw [← hfound]
        rfl
      · show changes.setFile.getD old.setFile = item.2.setFile
        rw [hset, ← hfound]
        rfl
    · refine ⟨item, Dict.mem_of_get ?_, rfl, rfl⟩
      rw [Dict.get_set, if_neg hkey, hfound]
  refine hs.change hrecorded hloader hgrown ?_ hkept ?_
    (fun item _ => idle_of_phase hwrites hdrops) hphase
  · rw [hmemory]
    exact Nat.le_succ _
  · intro now reg hreg d hd
    rcases hwritten with ⟨-, -, hpublished, -⟩ | ⟨-, -, hpublished, -⟩
    · rw [hpublished] at hreg
      obtain ⟨-, rfl⟩ := Prod.mk.inj (Option.some.inj hreg)
      rw [hmemory]
      obtain ⟨item, hitem, rfl⟩ := List.mem_map.mp hd
      exact ⟨item, hitem, rfl, rfl⟩
    · -- the file still has the registry before
      rw [hpublished] at hreg
      obtain ⟨item, hitem, hid, hset⟩ := hs.published now reg hreg d hd
      obtain ⟨item', hitem', hid', hset'⟩ := hthere item hitem
      exact ⟨item', hitem', hid'.trans hid, hset'.trans hset⟩

/-- A change of the registry that is published and sets a set file. -/
theorem Desk.Whole.renew (hs : s.Whole casing interval) {around : Surroundings} {call : Call}
    {r : ρ} {result : Except Raised (Option Deployment)} {after : Site} {created : Bool}
    (hcall : s.site.call casing interval around call = (result, after))
    (hwrites : around.writes = .succeed)
    (hset : ∀ returned state, mutate casing around.host s.site.copies.inMemory call =
      .ok (returned, state) → ∃ dep, returned = some dep ∧ s.Written dep.id ∧
        state = ⟨s.site.copies.inMemory.revision + 1,
          Dict.set s.site.copies.inMemory.deployments dep.id dep⟩)
    (hphase : ∀ dep created, s.requests r ≠ .materializing dep created)
    (hdrops : ∀ id, s.requests r ≠ .dropping id) :
    (Desk.put { s with site := after } r (afterChange result true created)).Whole casing
      interval := by
  have hrecorded := hs.recorded.of_call hcall
  obtain ⟨hloader, hpast, hcases⟩ := Site.call_cases hcall
  rcases hcases with ⟨e, -, rfl, hmemory, hpublished, -⟩ |
    ⟨returned, state, hmutate, hmemory, hwritten⟩
  · have hgrown : s.site.past ⊆ after.past := by
      rw [hpast]
      exact List.subset_cons_self _ _
    exact hs.refused hrecorded hloader hgrown hmemory hpublished
      (fun item _ => idle_of_phase hphase hdrops) fun _ _ => Crafting.noConfusion
  · obtain ⟨dep, rfl, hfree, rfl⟩ := hset returned state hmutate
    rcases hwritten with ⟨-, rfl, hpublished, -⟩ | ⟨hfailed, -⟩
    · rw [← hmemory] at hpublished
      exact hs.register hrecorded hloader hpast hmemory hpublished
        (fun item _ => idle_of_phase hphase hdrops) hfree
    · exact absurd hwrites hfailed

/-- A deployment that was created is removed. -/
theorem Desk.Whole.drop (hs : s.Whole casing interval) {around : Surroundings} {r : ρ}
    {result : Except Raised (Option Deployment)} {after : Site}
    (hcall : s.site.call casing interval around (.remove id) = (result, after))
    (hwrites : around.writes = .succeed) (hr : s.requests r = .dropping id) :
    (Desk.put { s with site := after } r .idle).Whole casing interval := by
  have hrecorded := hs.recorded.of_call hcall
  have hsound := hs.recorded.sound _ hs.recorded.current
  obtain ⟨hloader, hpast, hcases⟩ := Site.call_cases hcall
  have hgrown : s.site.past ⊆ after.past := by
    rw [hpast]
    exact List.subset_cons_self _ _
  have hleft : ∀ item : List Char × Deployment, item.2.id ≠ id →
      (∀ dep created, s.requests r = .materializing dep created → dep.id ≠ item.2.id) ∧
        s.requests r ≠ .dropping item.2.id := by
    intro item hne
    rw [hr]
    exact ⟨fun dep created heq => Crafting.noConfusion heq,
      fun heq => hne (Crafting.dropping.inj heq).symm⟩
  rcases hcases with ⟨e, hrefused, -, hmemory, hpublished, -⟩ |
    ⟨returned, state, hmutate, hmemory, hwritten⟩
  · -- it is gone already
    have hnone : Dict.get s.site.copies.inMemory.deployments id = none := by
      by_contra hsome
      rw [refusal, if_neg (by simpa using hsome)] at hrefused
      cases hrefused
    refine hs.refused hrecorded hloader hgrown hmemory hpublished (fun item hitem => ?_)
      fun _ _ => Crafting.noConfusion
    rw [Dict.get_eq_none_iff] at hnone
    exact hleft item (hsound.keys item hitem ▸ hnone item hitem)
  · obtain rfl := remove_of_mutate hmutate
    rcases hwritten with ⟨-, -, hpublished, -⟩ | ⟨hfailed, -⟩
    · have hitems : ∀ item ∈ after.copies.inMemory.deployments,
          item ∈ s.site.copies.inMemory.deployments ∧ item.2.id ≠ id := by
        intro item hitem
        rw [hmemory] at hitem
        obtain ⟨hitem, hne⟩ := List.mem_filter.mp hitem
        rw [← hsound.keys item hitem]
        exact ⟨hitem, by simpa using hne⟩
      refine hs.change hrecorded hloader hgrown ?_ ?_ ?_
        (fun item hitem => hleft item (hitems item hitem).2) fun _ _ => Crafting.noConfusion
      · rw [hmemory]
        exact Nat.le_succ _
      · exact fun item hitem => ⟨item, (hitems item hitem).1, rfl, rfl⟩
      · intro now reg hreg d hd
        rw [hpublished] at hreg
        obtain ⟨-, rfl⟩ := Prod.mk.inj (Option.some.inj hreg)
        rw [hmemory]
        obtain ⟨item, hitem, rfl⟩ := List.mem_map.mp hd
        exact ⟨item, hitem, rfl, rfl⟩
    · exact absurd hwrites hfailed

/-- A call of a request that meets the condition. -/
theorem Desk.Whole.next (hs : s.Whole casing interval) {r : ρ} {around : Surroundings}
    {materialized : Materialized} (hok : s.Careful around materialized (s.requests r))
    (h : s.advance casing interval r around materialized (s.requests r) = some s') :
    s'.Whole casing interval := by
  cases hr : s.requests r with
  | idle =>
    rw [hr] at h
    cases h
  | adding draft =>
    rw [hr] at h hok
    obtain rfl := Option.some.inj h
    obtain ⟨hwrites, hfree⟩ := hok
    refine hs.renew Prod.mk.eta.symm hwrites
      (fun returned state hmutate => ?_) (by simp [hr]) (by simp [hr])
    obtain ⟨-, hreturned, hstate⟩ := add_of_mutate hmutate
    exact ⟨_, hreturned, hfree, hstate⟩
  | updating id changes =>
    rw [hr] at h hok
    obtain rfl := Option.some.inj h
    by_cases hset : changes.setFile.isSome = true
    · obtain ⟨hwrites, hfree⟩ := hok hset
      rw [hset]
      refine hs.renew Prod.mk.eta.symm
        hwrites (fun returned state hmutate => ?_) (by simp [hr]) (by simp [hr])
      obtain ⟨old, hget, -, hreturned, hstate⟩ := update_of_mutate hmutate
      -- a record is kept under its own identifier
      obtain rfl : id = old.id :=
        (hs.recorded.sound _ hs.recorded.current).keys _ (Dict.mem_of_get hget)
      exact ⟨_, hreturned, hfree, hstate⟩
    · rw [Bool.not_eq_true] at hset
      rw [hset]
      -- without a set file the template stays
      have hnone : changes.setFile = none := by simpa using hset
      refine hs.adjust Prod.mk.eta.symm hnone (by simp [hr]) (by simp [hr]) ?_
      rw [afterChange_false]
      exact fun _ _ => Crafting.noConfusion
  | materializing dep created =>
    rw [hr] at h hok
    rcases hok with rfl | ⟨rfl, message, rfl⟩
    · obtain rfl := Option.some.inj h
      exact hs.write hr
    · obtain rfl := Option.some.inj h
      exact hs.fail hr
  | dropping id =>
    rw [hr] at h hok
    obtain rfl := Option.some.inj h
    exact hs.drop Prod.mk.eta.symm hok hr

omit [DecidableEq ρ] in
/-- When the loader reads a file whose templates are written, they are fresh. -/
theorem Desk.Whole.read (hs : s.Whole casing interval) {opens : Bool} {mem : Memory}
    (hreadable : s.site.Readable page numerals interval)
    (hwritten : ∀ now reg, s.site.published = some (now, reg) → ∀ d ∈ reg.deployments,
      d.enabled = true → s.Written d.id ∧ ∀ r, s.requests r ≠ .dropping d.id) :
    s.Passes (.passing ((s.site.text page opens).map (readDesired numerals))
      (pass mem ((s.site.text page opens).map (readDesired numerals)))) := by
  cases htext : s.site.text page opens with
  | none => trivial
  | some json =>
    obtain ⟨now, state, hstate, hpublished, hof⟩ := hs.recorded.exists_of_text hreadable htext
    have hsound := hs.recorded.sound state hstate
    refine ⟨?_, pass_arms mem (some _), fun dep hdep henabled => ?_⟩
    · rw [hof.revision]
      exact Int.ofNat_le.mpr (hs.recorded.revision_le state hstate)
    -- the deployment is one of the registry that was published
    have houtline : dep.outline ∈ state.registry.declared.map ChartCtlDeployment.outline :=
      hof.deployments ▸ List.mem_map_of_mem hdep
    obtain ⟨declared, hdeclared, heq⟩ := List.mem_map.mp houtline
    obtain ⟨d, hget, rfl⟩ := hsound.mem_declared.mp hdeclared
    have hid : d.id = dep.id := congrArg Prod.fst heq
    have htempl : tplRelativeName d.id = dep.templ := congrArg (fun o => o.2.1) heq
    have hon : d.enabled = true := (congrArg (fun o => o.2.2) heq).trans henabled
    have hmem : d ∈ state.registry.deployments := List.mem_map_of_mem (Dict.mem_of_get hget)
    obtain ⟨hfree, hkept⟩ := hwritten now _ hpublished d hmem hon
    refine ⟨hid ▸ htempl.symm, hid ▸ ⟨⟨d.setFile, ?_, state, hstate, hof.revision.le, d, hget, rfl⟩,
      fun r dep' created hr hid' => absurd hid' (hfree r dep' created hr)⟩⟩
    obtain ⟨item, hitem, hitemId, hitemSet⟩ := hs.published now _ hpublished d hmem
    rcases hs.ready item hitem with hdone | ⟨r, dep', created, hr, hid', -⟩ | ⟨r, hr⟩
    · rwa [hitemId, hitemSet] at hdone
    · exact absurd (hid'.trans hitemId) (hfree r dep' created hr)
    · rw [hitemId] at hr
      exact absurd hr (hkept r)

omit [DecidableEq ρ] in
/-- A step of the loader keeps what a pass may apply fresh. -/
theorem Desk.Whole.loads (hs : s.Whole casing interval) {opens : Bool} {progress : Progress}
    {loader : Loader} (hok : s.Orderly page numerals interval (.loader opens progress))
    (h : s.site.loader.step numerals (s.site.text page opens) progress = some loader) :
    s.Passes loader.stage := by
  have hpasses := hs.passes
  cases progress with
  | answer choice =>
    simp only [Loader.step] at h
    split at h
    next p hstage =>
      obtain ⟨r, hr, rfl⟩ := Option.map_eq_some_iff.mp h
      trivial
    next file p hstage =>
      obtain ⟨r, hr, rfl⟩ := Option.map_eq_some_iff.mp h
      rw [hstage] at hpasses
      cases file with
      | none => trivial
      | some file => exact ⟨hpasses.1, hpasses.2.1.resume hr, hpasses.2.2⟩
    next => cases h
  | move event =>
    obtain rfl := Option.some.inj h
    exact hpasses
  | next =>
    simp only [Loader.step] at h
    split at h
    next mem hstage =>
      obtain rfl := Option.some.inj h
      trivial
    next mem hstage =>
      obtain rfl := Option.some.inj h
      cases opens with
      | false => trivial
      | true =>
        -- the pass begins with what is published
        obtain ⟨hreadable, hwritten⟩ := hok mem hstage
        exact hs.read hreadable hwritten
    next file mem charts hstage =>
      obtain rfl := Option.some.inj h
      trivial
    next file mem charts hstage =>
      obtain rfl := Option.some.inj h
      trivial
    next => cases h

/-- A step that meets the condition keeps it. -/
theorem Desk.Whole.step (hs : s.Whole casing interval) {event : DeskEvent ρ}
    (hok : s.Orderly page numerals interval event)
    (h : s.step casing page numerals interval event = some s') : s'.Whole casing interval := by
  cases event with
  | loader opens progress =>
    obtain ⟨site, hsite, rfl⟩ := Option.map_eq_some_iff.mp h
    have hrecorded := hs.recorded.of_progress hsite
    obtain ⟨loader, hloader, rfl⟩ := Option.map_eq_some_iff.mp hsite
    exact ⟨hrecorded, hs.ready, hs.published, hs.current, hs.loads hok hloader⟩
  | request r event =>
    have hbegin : ∀ phase : Crafting, s.requests r = .idle →
        (∀ dep created, phase ≠ .materializing dep created) →
        (s.put r phase).Whole casing interval := fun phase hr hphase =>
      hs.refused hs.recorded rfl (List.Subset.refl _) rfl rfl
        (fun item _ => idle_of_phase (by simp [hr]) (by simp [hr])) hphase
    cases event with
    | create host request =>
      simp only [Desk.step] at h
      split at h
      next draft hr _ =>
        obtain rfl := Option.some.inj h
        exact hbegin _ hr fun _ _ => Crafting.noConfusion
      next =>
        obtain rfl := Option.some.inj h
        exact hs
      next => cases h
    | patch host id request =>
      simp only [Desk.step] at h
      split at h
      next changes hr _ =>
        obtain rfl := Option.some.inj h
        exact hbegin _ hr fun _ _ => Crafting.noConfusion
      next =>
        obtain rfl := Option.some.inj h
        exact hs
      next => cases h
    | next around materialized => exact hs.next hok h

omit [DecidableEq ρ] in
theorem Desk.whole_start (t : Terminal) (own : Ownership) (since : UInt64) :
    (Desk.start numerals t own since : Desk ρ).Whole casing interval where
  recorded := recorded_start t own since
  ready _ hitem := absurd hitem List.not_mem_nil
  published _ _ hpublished := absurd hpublished.symm (Option.some_ne_none _)
  current _ _ _ hr := Crafting.noConfusion hr
  passes := trivial

/-- In every state of a run whose steps meet the condition, a template that a pass is about to apply
is there, and was built from a `set_file` that its deployment had at the revision of the pass or
later. -/
theorem arms_right (casing : Casing) (page : CodePage) (numerals : Numerals) (interval : Nat)
    (t : Terminal) (own : Ownership) (since : UInt64) {s : Desk ρ}
    (h : RunOf (Desk.step casing page numerals interval) (Desk.Orderly page numerals interval)
      (Desk.start numerals t own since) s) : s.Right := by
  have hs : s.Whole casing interval :=
    h.invariant (P := Desk.Whole casing interval) (fun _ _ _ hs hok hstep => hs.step hok hstep)
      (Desk.whole_start t own since)
  intro file chart templ next hstage
  have hpasses := hs.passes
  rw [hstage] at hpasses
  obtain ⟨-, harms, hdeps⟩ := hpasses
  obtain ⟨dep, hdep, henabled, rfl⟩ := harms.1 chart templ rfl
  obtain ⟨htempl, ⟨setFile, hwritten, hhad⟩, -⟩ := hdeps dep hdep henabled
  rw [← htempl] at hwritten
  exact ⟨dep, hdep, henabled, rfl, setFile, hwritten, hhad⟩

/-- A call that meets no failure. -/
def unhindered : RequestEvent :=
  .next ⟨openHost, openHost.now, .succeed, true⟩ .written

/-- A request to deploy an expert, which is registered. -/
def registers : List (DeskEvent Unit) :=
  [.request () (.create openHost ⟨"ea.ex5".toList, none, "EURUSD".toList, "M5".toList, true⟩),
    .request () unhindered]

/-- A pass after the startup grace, up to the template. -/
def opensChart : List (DeskEvent Unit) :=
  let answers := .loader true (.answer { succeeds := true, chart := 7, ticks := 40000 })
  [answers, .loader true .next, .loader true .next, answers, answers, answers, answers]

/-- The loader is about to apply a template of which this is so. -/
def aboutToApply (p : Desk Unit → List Char → Bool) (s : Desk Unit) : Bool :=
  match s.site.loader.stage with
  | .passing (some _) (.call (.chartApplyTemplate _ templ) _) => p s templ
  | _ => false

/-- With one request, the condition holds when every call succeeds and the loader reads while the
request does nothing. -/
def orderlyAlone (s : Desk Unit) : DeskEvent Unit → Bool
  | .request _ (.next around materialized) =>
    match around.writes, materialized with
    | .succeed, .written => true
    | _, _ => false
  | .loader _ .next =>
    (match s.requests () with
      | .idle => true
      | _ => false) &&
    s.site.published.all fun p =>
      (readDesired decimals (readFile latin1 (writeDesiredLocked 5 p.1 p.2))).Of p.2
  | _ => true

theorem orderly_of_orderlyAlone {s : Desk Unit} {event : DeskEvent Unit}
    (h : orderlyAlone s event = true) : s.Orderly latin1 decimals 5 event := by
  cases event with
  | request r event =>
    cases event with
    | create | patch => trivial
    | next around materialized =>
      simp only [orderlyAlone] at h
      split at h
      next hwrites =>
        -- there is one request, so no other writes a template
        have hfree : ∀ id, (∀ dep created, s.requests () ≠ .materializing dep created) →
            s.Written id := fun id hphase _ dep created hr => absurd hr (hphase dep created)
        show s.Careful around _ (s.requests ())
        cases hphase : s.requests () with
        | idle => trivial
        | adding draft => exact ⟨hwrites, hfree _ (by simp [hphase])⟩
        | updating id changes => exact fun _ => ⟨hwrites, hfree _ (by simp [hphase])⟩
        | materializing dep created => exact Or.inl rfl
        | dropping id => exact hwrites
      next => cases h
  | loader opens progress =>
    cases progress with
    | answer | move => cases opens <;> trivial
    | next =>
      cases opens with
      | false => trivial
      | true =>
        rw [orderlyAlone, Bool.and_eq_true] at h
        obtain ⟨hidle, hof⟩ := h
        replace hidle : s.requests () = .idle := by
          split at hidle
          next heq => exact heq
          next => cases hidle
        intro mem _
        refine ⟨fun now reg hpublished => ?_, fun now reg _ d _ _ => ⟨?_, ?_⟩⟩
        · rw [hpublished, Option.all_some, decide_eq_true_eq] at hof
          exact hof
        · rintro ⟨⟩ dep created hr
          rw [hidle] at hr
          cases hr
        · rintro ⟨⟩
          rw [hidle]
          exact Crafting.noConfusion

theorem arms_right_created : ∃ s : Desk Unit,
    aboutToApply (fun s templ => s.templates templ == some none) s = true ∧ s.Right := by
  have hexec : (execOf (Desk.step asciiCasing latin1 decimals 5) orderlyAlone
      (Desk.start decimals bareTerminal noOwners 0)
      (registers ++ [.request () unhindered] ++ opensChart)).any
        (aboutToApply fun s templ => s.templates templ == some none) = true := by
    decide +kernel
  obtain ⟨s, hrun, happly⟩ := exists_runOf_of_execOf orderlyAlone
    (fun _ _ => orderly_of_orderlyAlone) hexec
  exact ⟨s, happly, arms_right asciiCasing latin1 decimals 5 bareTerminal noOwners 0 hrun⟩

/-- A pass between the registration of a deployment and its template applies a template that is not
there. -/
theorem not_arms_right : ¬ ∀ (casing : Casing) (page : CodePage) (numerals : Numerals)
    (interval : Nat) (t : Terminal) (own : Ownership) (since : UInt64) (s : Desk Unit),
      Run (Desk.step casing page numerals interval) (Desk.start numerals t own since) s →
        s.Right := by
  intro h
  have hexec : (exec (Desk.step asciiCasing latin1 decimals 5)
      (Desk.start decimals bareTerminal noOwners 0) (registers ++ opensChart)).any
        (aboutToApply fun s templ => (s.templates templ).isNone) = true := by
    decide +kernel
  obtain ⟨s, hrun, happly⟩ := exists_run_of_exec hexec
  rw [aboutToApply] at happly
  split at happly
  next file chart templ next hstage =>
    obtain ⟨dep, -, -, -, setFile, hwritten, -⟩ :=
      h asciiCasing latin1 decimals 5 bareTerminal noOwners 0 s hrun file chart templ next hstage
    rw [hwritten] at happly
    cases happly
  next => cases happly

end ChartCtl

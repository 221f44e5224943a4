import Mt5HttpApi.Watchdog.StateJson

/-!
# One decision from a state file of any content

`load_state`, `decide` and `save_state` in a row, as both sweeps call them. `leaves_sound_iff` says
from which contents a decision comes through and leaves a valid record (`Mendable`): the fresh
record stands in for text that is no JSON, but for no value of JSON.
-/

namespace Watchdog

namespace Raw

open JsonLoads Utf8

/-- What the code runs on: floats, and how deep a value may nest for `json.loads`, for `json.dumps`
and for `copy.deepcopy`. -/
structure Machine (F : Type) where
  floats : Floats F
  loads : ℕ
  dumps : ℕ
  copies : ℕ
  one_le_loads : 1 ≤ loads
  one_le_dumps : 1 ≤ dumps
  one_le_copies : 1 ≤ copies

/-- The bytes of a file, or none when there is no file. -/
abbrev Content := Option (List UInt8)

section Consider

variable {F : Type} (m : Machine F)

/-- The record of a VM that nothing is known of. -/
def freshFields : List (List CodePoint × Value F) :=
  [(ofString "last_restart", .int 0), (ofString "attempts", .int 0),
    (ofString "healthy_since", .int 0)]

/-- The record of a state file. `except (OSError, ValueError)` lets a `RecursionError` pass. -/
def loadState : Content → Except Raised (Value F)
  | none => .ok (.obj freshFields)
  | some bytes =>
    match load m.floats.parse m.loads bytes with
    | .ok state => .ok state
    | .error .value => .ok (.obj freshFields)
    | .error .recursion => .error .recursionError

/-- What is written to a state file. -/
def saveState (state : Value F) : Except Raised Content :=
  if state.nesting ≤ m.dumps then .ok (some (Utf8.encode (state.dumps m.floats.repr)))
  else .error .recursionError

/-- `copy.deepcopy`. -/
def deepcopy (state : Value F) : Except Raised (Value F) :=
  if state.nesting ≤ m.copies then .ok state else .error .recursionError

/-- `copy.deepcopy(state) if dry_run else state`. -/
def workingCopy (dryRun : Bool) (state : Value F) : Except Raised (Value F) :=
  if dryRun then deepcopy m state else .ok state

/-- The record is saved, unless nothing is to be done. -/
def saveUnlessDry (dryRun : Bool) (content : Content) (working : Value F) :
    Except Raised Content :=
  if dryRun then .ok content else saveState m working

/-- The next action for the VM or sidecar of a state file, and the file as it is left. -/
def consider (p : Policy) (dryRun : Bool) (content : Content) (o : Observation) :
    Except Raised (Action × Content) := do
  let state ← loadState m content
  let working ← workingCopy m dryRun state
  let (action, working) ← decide m.floats p working o
  let content ← saveUnlessDry m dryRun content working
  .ok (action, content)

/-! ### Sound files -/

/-- The record of the file is a valid one. -/
def Sound (content : Content) : Prop := ∃ state, loadState m content = .ok state ∧ Valid state

/-- The fields that `decide` does not know nest less deep than `limit`. -/
def Shallow (limit : ℕ) (fields : List (List CodePoint × Value F)) : Prop :=
  ∀ item ∈ fields,
    item.1 ∉ ["last_restart", "attempts", "healthy_since"].map ofString → item.2.nesting < limit

/-- How deep the record of a decision may nest. -/
def Machine.limit (dryRun : Bool) : ℕ := if dryRun then m.copies else m.dumps

/-- A decision comes through and leaves a valid record. A dry run leaves the file as it is. -/
def Mendable (p : Policy) (dryRun : Bool) (content : Content) (o : Observation) : Prop :=
  match content with
  | none => True
  | some bytes =>
    match load m.floats.parse m.loads bytes with
    | .error .value => True
    | .error .recursion => False
    | .ok (.obj fields) =>
      (if dryRun then Valid (.obj fields) else Copes m.floats p fields o) ∧
        Shallow (m.limit dryRun) fields
    | .ok _ => False

variable {m} {p : Policy} {dryRun : Bool} {content content' : Content} {o : Observation}
  {action : Action} {fields : List (List CodePoint × Value F)} {state working : Value F} {n : ℕ}

/-! ### What an edited record keeps -/

theorem Num.nesting_value (x : Num F) : x.value.nesting = 0 := by
  cases x with
  | int n => rfl
  | float x => rfl

theorem nesting_of_number {v : Value F} {x : Num F} (h : number v = .ok x) : v.nesting = 0 := by
  cases v with
  | null => rfl
  | bool b => rfl
  | int n => rfl
  | float x => rfl
  | str s => rfl
  | arr items => cases h
  | obj fields => cases h

theorem Edited.mem_iff {fields' : List (List CodePoint × Value F)} (h : Edited fields fields')
    {item : List CodePoint × Value F}
    (hother : item.1 ∉ ["last_restart", "attempts", "healthy_since"].map ofString) :
    item ∈ fields' ↔ item ∈ fields := by
  induction h with
  | refl => exact Iff.rfl
  | set _ hname _ ih =>
    rw [Dict.mem_set_of_ne fun heq => hother (heq ▸ List.mem_map_of_mem hname)]
    exact ih

theorem Edited.shallow_iff {fields' : List (List CodePoint × Value F)} (h : Edited fields fields') :
    Shallow n fields' ↔ Shallow n fields := by
  constructor
  · intro hshallow item hitem hother
    exact hshallow item ((h.mem_iff hother).mpr hitem) hother
  · intro hshallow item hitem hother
    exact hshallow item ((h.mem_iff hother).mp hitem) hother

theorem Edited.nesting_le {fields' : List (List CodePoint × Value F)} (h : Edited fields fields')
    (hnesting : (Value.obj fields).nesting ≤ n) : (Value.obj fields').nesting ≤ n := by
  obtain ⟨k, rfl⟩ := Nat.exists_eq_add_of_le' (Value.one_le_nesting_obj.trans hnesting)
  rw [Value.nesting_obj_le] at hnesting ⊢
  induction h with
  | refl => exact hnesting
  | @set before _ name _ x _ ih =>
    intro item hitem
    rcases Dict.mem_set hitem with rfl | ⟨hold, -⟩
    · rw [Num.nesting_value]
      exact Nat.zero_le k
    · exact ih item hold

/-- What is edited of a record that was read could be read as well. -/
theorem Edited.fits {fields' : List (List CodePoint × Value F)} (h : Edited fields fields')
    (hfits : (Value.obj fields).Fits n) : (Value.obj fields').Fits n :=
  ⟨h.proper hfits.1, h.nesting_le hfits.2⟩

/-- The fields of a valid record do not nest. -/
theorem nesting_le_iff_shallow (hproper : (Value.obj fields).Proper) (hvalid : Valid (.obj fields))
    (hpos : 1 ≤ n) : (Value.obj fields).nesting ≤ n ↔ Shallow n fields := by
  obtain ⟨k, rfl⟩ := Nat.exists_eq_add_of_le' hpos
  obtain ⟨⟨⟨a, hattempts, -⟩, l, hlast⟩, s, hsince⟩ := valid_obj_iff.mp hvalid
  have hnames : ∀ name ∈ ["last_restart", "attempts", "healthy_since"],
      ∃ n, int? (Dict.get fields (ofString name)) = some n := by
    simp only [List.mem_cons, List.not_mem_nil, or_false]
    rintro name (rfl | rfl | rfl)
    · exact ⟨l, hlast⟩
    · exact ⟨a, hattempts⟩
    · exact ⟨s, hsince⟩
  rw [Value.nesting_obj_le]
  constructor
  · intro h item hitem _
    exact Nat.lt_add_one_of_le (h item hitem)
  · intro h item hitem
    by_cases hother : item.1 ∈ ["last_restart", "attempts", "healthy_since"].map ofString
    · obtain ⟨name, hname, heq⟩ := List.mem_map.mp hother
      obtain ⟨n, hn⟩ := hnames name hname
      cases hproper with
      | obj _ hnodup _ =>
        rw [heq, Dict.get_of_mem hnodup hitem, int?_eq_some_iff] at hn
        have hzero : item.2.nesting = 0 := nesting_of_number hn
        omega
    · exact Nat.le_of_lt_add_one (h item hitem hother)

/-! ### Valid records -/

theorem attempts_nonneg {r : Record} (h : 0 ≤ r.attempts) :
    0 ≤ (Watchdog.decide p r o).2.2.attempts := by
  have hdecides := decide_decides p r o
  generalize Watchdog.decide p r o = answered at hdecides
  cases hdecides with
  | quiet _ _ => exact h
  | restart _ _ _ _ =>
    show 0 ≤ r.attempts + 1
    omega
  | reset _ _ => exact le_rfl

/-- `decide` copes with a valid record. -/
theorem copes_of_valid (h : Valid (.obj fields)) : Copes m.floats p fields o := by
  obtain ⟨r, hr, hattempts⟩ := h
  obtain ⟨state', hdecide, hrecord⟩ := @decide_of_record F m.floats p _ o r hr
  exact leaves_valid_iff.mp ⟨_, state', hdecide, _, hrecord, attempts_nonneg hattempts⟩

theorem valid_fresh : Valid (.obj (freshFields (F := F))) :=
  ⟨Record.fresh, rfl, le_rfl⟩

theorem fits_fresh : (Value.obj (freshFields (F := F))).Fits m.loads := by
  have hall : ∀ item ∈ freshFields (F := F), Unpaired item.1 ∧ item.2 = .int 0 := by
    simp only [freshFields, List.mem_cons, List.not_mem_nil, or_false]
    rintro item (rfl | rfl | rfl)
    all_goals exact ⟨unpaired_ofString _, rfl⟩
  refine ⟨.obj (fun item hitem => (hall item hitem).1) ?_ fun item hitem => ?_, ?_⟩
  · show [ofString "last_restart", ofString "attempts", ofString "healthy_since"].Nodup
    decide
  · rw [(hall item hitem).2]
    exact .int short_zero
  · exact (Value.nesting_obj_le (n := 0).mpr fun item hitem => by
      rw [(hall item hitem).2]
      exact le_rfl).trans m.one_le_loads

/-- What is loaded may be saved and loaded again. -/
theorem fits_of_loadState (h : loadState m content = .ok state) : state.Fits m.loads := by
  cases content with
  | none =>
    cases h
    exact fits_fresh
  | some bytes =>
    rw [loadState] at h
    split at h
    next hload =>
      cases h
      exact fits_of_load hload
    next =>
      cases h
      exact fits_fresh
    next => cases h

/-- A record that is saved is read back. -/
theorem loadState_saveState (hfits : state.Fits m.loads) (h : saveState m state = .ok content) :
    loadState m content = .ok state := by
  rw [saveState] at h
  split at h
  next =>
    cases h
    rw [loadState, hfits.load_dumps]
  next => cases h

/-! ### When a sound file is left -/

/-- `decide` comes through on objects only. -/
theorem obj_of_decide (h : decide m.floats p state o = .ok (action, working)) :
    ∃ fields, state = .obj fields := by
  cases state with
  | obj fields => exact ⟨fields, rfl⟩
  | _ =>
    rw [decide, endRun] at h
    split at h
    next => cases h
    next hhealthy =>
      rw [not_not] at hhealthy
      rw [ok_bind, if_pos (by rw [hhealthy]; decide), if_pos hhealthy] at h
      cases h

theorem sound_iff (hload : loadState m content = .ok state) : Sound m content ↔ Valid state := by
  rw [Sound]
  simp only [hload, Except.ok.injEq, exists_eq_left']

theorem consider_dry (hload : loadState m content = .ok state) :
    consider m p true content o = deepcopy m state >>= fun working =>
      (decide m.floats p working o).map fun r => (r.1, content) := by
  rw [consider, hload, ok_bind, workingCopy, if_pos rfl]
  rfl

theorem consider_wet (hload : loadState m content = .ok state) :
    consider m p false content o = decide m.floats p state o >>= fun r =>
      (saveState m r.2).map fun content' => (r.1, content') := by
  rw [consider, hload, ok_bind, workingCopy, if_neg (by decide), ok_bind]
  rfl

/-- What a dry run comes through on. -/
theorem consider_dry_ok (h : consider m p true content o = .ok (action, content')) :
    content' = content ∧ ∃ fields working, loadState m content = .ok (.obj fields) ∧
      (Value.obj fields).nesting ≤ m.copies ∧
        decide m.floats p (.obj fields) o = .ok (action, working) := by
  cases hload : loadState m content with
  | error e =>
    rw [consider, hload] at h
    cases h
  | ok state =>
    rw [consider_dry hload, deepcopy] at h
    split at h
    next hnesting =>
      cases hdecide : decide m.floats p state o with
      | error e =>
        rw [ok_bind, hdecide] at h
        cases h
      | ok r =>
        obtain ⟨fields, rfl⟩ := @obj_of_decide F m p o r.1 state r.2 hdecide
        rw [ok_bind, hdecide] at h
        cases h
        exact ⟨rfl, fields, r.2, rfl, hnesting, hdecide⟩
    next => cases h

/-- What another run comes through on, and what it saves. -/
theorem consider_wet_ok (hmax : Value.Short p.maxAttempts) (hnow : Value.Short o.now)
    (h : consider m p false content o = .ok (action, content')) :
    ∃ fields fields', loadState m content = .ok (.obj fields) ∧
      decide m.floats p (.obj fields) o = .ok (action, .obj fields') ∧ Edited fields fields' ∧
        (Value.obj fields').nesting ≤ m.dumps ∧ loadState m content' = .ok (.obj fields') := by
  cases hload : loadState m content with
  | error e =>
    rw [consider, hload] at h
    cases h
  | ok state =>
    rw [consider_wet hload] at h
    cases hdecide : decide m.floats p state o with
    | error e =>
      rw [hdecide] at h
      cases h
    | ok r =>
      obtain ⟨fields, rfl⟩ := @obj_of_decide F m p o r.1 state r.2 hdecide
      have hfits := fits_of_loadState hload
      obtain ⟨action', working⟩ := r
      obtain ⟨fields', rfl, hedited⟩ := edited_of_decide hfits.1 hmax hnow hdecide
      rw [hdecide, ok_bind] at h
      cases hsave : saveState m (.obj fields') with
      | error e =>
        rw [hsave] at h
        cases h
      | ok saved =>
        rw [hsave] at h
        cases h
        refine ⟨fields, fields', rfl, hdecide, hedited, ?_,
          loadState_saveState (hedited.fits hfits) hsave⟩
        rw [saveState] at hsave
        split at hsave
        next hnesting => exact hnesting
        next => cases hsave

/-- A dry run works on a copy and leaves the record as it is. -/
theorem leaves_sound_dry (hload : loadState m content = .ok (.obj fields)) :
    (∃ action content', consider m p true content o = .ok (action, content') ∧
      Sound m content') ↔ Valid (.obj fields) ∧ Shallow m.copies fields := by
  have hproper := (fits_of_loadState hload).1
  constructor
  · rintro ⟨action, content', hconsider, hsound⟩
    obtain ⟨rfl, fields', working, hload', hnesting, -⟩ := consider_dry_ok hconsider
    cases hload.symm.trans hload'
    have hvalid := (sound_iff hload).mp hsound
    exact ⟨hvalid, (nesting_le_iff_shallow hproper hvalid m.one_le_copies).mp hnesting⟩
  · rintro ⟨hvalid, hshallow⟩
    obtain ⟨action, working, hdecide, -⟩ := leaves_valid_iff.mpr
      (@copes_of_valid F m p o fields hvalid)
    have hcopy : deepcopy m (.obj fields) = .ok (.obj fields) :=
      if_pos ((nesting_le_iff_shallow hproper hvalid m.one_le_copies).mpr hshallow)
    rw [consider_dry hload, hcopy, ok_bind, hdecide]
    exact ⟨action, content, rfl, (sound_iff hload).mpr hvalid⟩

/-- Another run saves the record that `decide` leaves. -/
theorem leaves_sound_wet (hmax : Value.Short p.maxAttempts) (hnow : Value.Short o.now)
    (hload : loadState m content = .ok (.obj fields)) :
    (∃ action content', consider m p false content o = .ok (action, content') ∧
      Sound m content') ↔ Copes m.floats p fields o ∧ Shallow m.dumps fields := by
  have hfits := fits_of_loadState hload
  constructor
  · rintro ⟨action, content', hconsider, hsound⟩
    obtain ⟨before, fields', hload', hdecide, hedited, hnesting, hsaved⟩ :=
      consider_wet_ok hmax hnow hconsider
    cases hload.symm.trans hload'
    have hvalid := (sound_iff hsaved).mp hsound
    exact ⟨leaves_valid_iff.mp ⟨_, _, hdecide, hvalid⟩, hedited.shallow_iff.mp
      ((nesting_le_iff_shallow (hedited.proper hfits.1) hvalid m.one_le_dumps).mp hnesting)⟩
  · rintro ⟨hcopes, hshallow⟩
    obtain ⟨action, working, hdecide, hvalid⟩ := leaves_valid_iff.mpr hcopes
    obtain ⟨fields', rfl, hedited⟩ := edited_of_decide hfits.1 hmax hnow hdecide
    have hnesting := (nesting_le_iff_shallow (hedited.proper hfits.1) hvalid m.one_le_dumps).mpr
      (hedited.shallow_iff.mpr hshallow)
    have hsave : saveState m (.obj fields') =
        .ok (some (Utf8.encode ((Value.obj fields').dumps m.floats.repr))) := if_pos hnesting
    rw [consider_wet hload, hdecide, ok_bind, hsave]
    exact ⟨action, _, rfl, (sound_iff (loadState_saveState (hedited.fits hfits) hsave)).mpr hvalid⟩

/-- From a record of these fields. -/
theorem leaves_sound_obj (hmax : Value.Short p.maxAttempts) (hnow : Value.Short o.now)
    (hload : loadState m content = .ok (.obj fields)) :
    (∃ action content', consider m p dryRun content o = .ok (action, content') ∧
      Sound m content') ↔
        (if dryRun then Valid (.obj fields) else Copes m.floats p fields o) ∧
          Shallow (m.limit dryRun) fields := by
  cases dryRun with
  | true => exact leaves_sound_dry hload
  | false => exact leaves_sound_wet hmax hnow hload

/-- The fresh record is one that a decision comes through on. -/
theorem mended_fresh : (if dryRun then Valid (.obj (freshFields (F := F))) else
    Copes m.floats p freshFields o) ∧ Shallow (m.limit dryRun) (freshFields (F := F)) := by
  refine ⟨?_, fun item hitem hother => ?_⟩
  · split
    next => exact valid_fresh
    next => exact copes_of_valid valid_fresh
  · exact absurd (List.mem_map_of_mem (f := Prod.fst) hitem) hother

/-- Of any other value than an object nothing comes. -/
theorem obj_of_consider (hmax : Value.Short p.maxAttempts) (hnow : Value.Short o.now)
    (h : consider m p dryRun content o = .ok (action, content')) :
    ∃ fields, loadState m content = .ok (.obj fields) := by
  cases dryRun with
  | true =>
    obtain ⟨-, fields, -, hload, -⟩ := consider_dry_ok h
    exact ⟨fields, hload⟩
  | false =>
    obtain ⟨fields, -, hload, -⟩ := consider_wet_ok hmax hnow h
    exact ⟨fields, hload⟩

/-- A decision comes through and leaves a valid record from these contents. -/
theorem leaves_sound_iff (hmax : Value.Short p.maxAttempts) (hnow : Value.Short o.now) :
    (∃ action content', consider m p dryRun content o = .ok (action, content') ∧
      Sound m content') ↔ Mendable m p dryRun content o := by
  have hfresh : loadState m content = .ok (.obj freshFields) →
      ∃ action content', consider m p dryRun content o = .ok (action, content') ∧
        Sound m content' := fun hload => (leaves_sound_obj hmax hnow hload).mpr mended_fresh
  cases content with
  | none => exact iff_of_true (hfresh rfl) trivial
  | some bytes =>
    rw [Mendable]
    cases hload : load m.floats.parse m.loads bytes with
    | error e =>
      cases e with
      | value => exact iff_of_true (hfresh (by rw [loadState, hload])) trivial
      | recursion =>
        have hraise : loadState m (some bytes) = .error .recursionError := by
          rw [loadState, hload]
        refine iff_of_false ?_ id
        rintro ⟨action, content', hconsider, -⟩
        rw [consider, hraise] at hconsider
        cases hconsider
    | ok state =>
      have hstate : loadState m (some bytes) = .ok state := by rw [loadState, hload]
      cases state with
      | obj fields => exact leaves_sound_obj hmax hnow hstate
      | _ =>
        refine iff_of_false ?_ id
        rintro ⟨action, content', hconsider, -⟩
        obtain ⟨fields, hobj⟩ := obj_of_consider hmax hnow hconsider
        cases hstate.symm.trans hobj

/-- A valid record that does not nest too deep is coped with at every poll. -/
theorem mendable_of_valid (hload : loadState m content = .ok (.obj fields))
    (hvalid : Valid (.obj fields)) (hshallow : Shallow (m.limit dryRun) fields) :
    Mendable m p dryRun content o := by
  cases content with
  | none => exact trivial
  | some bytes =>
    rw [loadState] at hload
    rw [Mendable]
    split at hload
    next state hbytes =>
      cases hload
      rw [hbytes]
      refine ⟨?_, hshallow⟩
      split
      next => exact hvalid
      next => exact copes_of_valid hvalid
    next hbytes =>
      rw [hbytes]
      exact trivial
    next => cases hload

/-- From what a decision leaves, every later one comes through. -/
theorem mendable_of_consider {o' : Observation} (hmax : Value.Short p.maxAttempts)
    (hnow : Value.Short o.now) (h : consider m p dryRun content o = .ok (action, content'))
    (hsound : Sound m content') : Mendable m p dryRun content' o' := by
  cases dryRun with
  | true =>
    obtain ⟨rfl, fields, working, hload, hnesting, -⟩ := consider_dry_ok h
    have hvalid := (sound_iff hload).mp hsound
    exact mendable_of_valid hload hvalid
      ((nesting_le_iff_shallow (fits_of_loadState hload).1 hvalid m.one_le_copies).mp hnesting)
  | false =>
    obtain ⟨fields, fields', -, -, -, hnesting, hload⟩ := consider_wet_ok hmax hnow h
    have hvalid := (sound_iff hload).mp hsound
    exact mendable_of_valid hload hvalid
      ((nesting_le_iff_shallow (fits_of_loadState hload).1 hvalid m.one_le_dumps).mp hnesting)

end Consider

end Raw

end Watchdog

import Mathlib.Logic.Function.Basic
import Mt5HttpApi.Lib.Transition

/-!
# Components around a shared resource

Any number of components, one for each index `J`, each running the same local step function, around
one shared resource. A component's step changes that component alone and, through `sync`, the
resource; `sync` also refuses a label whose observations do not fit the resource. The environment
moves the resource by itself.

`Run.proj` and `RunOf.proj` take a run of the whole to the run of one component, so what holds of
every run of the local machine holds of each component of the whole. `LockedBy` is a lock in the
resource: `LockedBy.inside_iff` says who is inside the section it guards, and `LockedBy.exclusive`
that no two components are.
-/

namespace Transition

variable {J σ ι R ε : Type*} [DecidableEq J]

/-- The components' states and the resource they share. -/
structure Whole (J σ R : Type*) where
  /-- The state of each component. -/
  parts : J → σ
  /-- The resource the components share. -/
  shared : R

/-- A step of the whole: of one component, or of the environment. -/
inductive Move (J ι ε : Type*)
  /-- Component `j` takes its local step `a`. -/
  | part (j : J) (a : ι)
  /-- The environment moves the resource. -/
  | env (e : ε)

/-- The step function of the whole. -/
def wholeStep (loc : σ → ι → Option σ) (sync : R → J → σ → ι → Option R)
    (env : R → ε → Option R) (w : Whole J σ R) : Move J ι ε → Option (Whole J σ R)
  | .part j a =>
    (loc (w.parts j) a).bind fun l =>
      (sync w.shared j (w.parts j) a).map fun r =>
        { parts := Function.update w.parts j l, shared := r }
  | .env e => (env w.shared e).map fun r => { w with shared := r }

variable {loc : σ → ι → Option σ} {sync : R → J → σ → ι → Option R} {env : R → ε → Option R}
  {w w' : Whole J σ R}

/-- What a component's step does to the whole. -/
theorem wholeStep_part_iff {j : J} {a : ι} :
    wholeStep loc sync env w (.part j a) = some w' ↔
      ∃ l r, loc (w.parts j) a = some l ∧ sync w.shared j (w.parts j) a = some r ∧
        w' = { parts := Function.update w.parts j l, shared := r } := by
  simp only [wholeStep, Option.bind_eq_some_iff, Option.map_eq_some_iff]
  constructor
  · rintro ⟨l, hl, r, hr, rfl⟩
    exact ⟨l, r, hl, hr, rfl⟩
  · rintro ⟨l, r, hl, hr, rfl⟩
    exact ⟨l, hl, r, hr, rfl⟩

/-- What the environment's step does to the whole. -/
theorem wholeStep_env_iff {e : ε} :
    wholeStep loc sync env w (.env e) = some w' ↔
      ∃ r, env w.shared e = some r ∧ w' = { w with shared := r } := by
  simp only [wholeStep, Option.map_eq_some_iff]
  constructor
  · rintro ⟨r, hr, rfl⟩
    exact ⟨r, hr, rfl⟩
  · rintro ⟨r, hr, rfl⟩
    exact ⟨r, hr, rfl⟩

/-- A run of the whole is, at each component, a run of the local machine. Its steps meet `okLoc`
there, when the component's own steps do in the states that the run can reach. -/
theorem RunOf.proj {ok : Whole J σ R → Move J ι ε → Prop} {okLoc : σ → ι → Prop} (j : J)
    (hok : ∀ u a u', RunOf (wholeStep loc sync env) ok w u → ok u (.part j a) →
      wholeStep loc sync env u (.part j a) = some u' → okLoc (u.parts j) a)
    (h : RunOf (wholeStep loc sync env) ok w w') :
    RunOf loc okLoc (w.parts j) (w'.parts j) := by
  induction h with
  | refl => exact RunOf.refl
  | tail hprev hlast ih =>
    obtain ⟨m, hm, hstep⟩ := hlast
    cases m with
    | part k a =>
      rcases eq_or_ne j k with rfl | hjk
      · have hloc := hok _ a _ hprev hm hstep
        obtain ⟨l, r, hl, -, rfl⟩ := wholeStep_part_iff.mp hstep
        simpa using ih.tail hloc hl
      · obtain ⟨l, r, hl, -, rfl⟩ := wholeStep_part_iff.mp hstep
        simpa [Function.update_of_ne hjk] using ih
    | env e =>
      obtain ⟨r, -, rfl⟩ := wholeStep_env_iff.mp hstep
      exact ih

/-- A run of the whole is, at each component, a run of the local machine. -/
theorem Run.proj (j : J) (h : Run (wholeStep loc sync env) w w') :
    Run loc (w.parts j) (w'.parts j) :=
  RunOf.proj j (fun _ _ _ _ _ _ => trivial) h

/-- A checked execution in which component `i` moves alone: the others stay as they were at the
start, which the condition on the steps may use. -/
theorem runOf_of_execOf_alone {ok : Whole J σ R → Move J ι ε → Prop}
    {okb : Whole J σ R → Move J ι ε → Bool} (w₀ : Whole J σ R) (i : J)
    (honly : ∀ w j a, okb w (.part j a) = true → j = i)
    (hok : ∀ w m, (∀ k, k ≠ i → w.parts k = w₀.parts k) → okb w m = true → ok w m)
    {as : List (Move J ι ε)} {w w' : Whole J σ R} (hw : ∀ k, k ≠ i → w.parts k = w₀.parts k)
    (h : execOf (wholeStep loc sync env) okb w as = some w') :
    RunOf (wholeStep loc sync env) ok w w' := by
  refine (runOf_of_execOf_of hok (fun w m u hw hm hu k hk => ?_) hw h).1
  cases m with
  | part j a =>
    obtain ⟨l, r, -, -, rfl⟩ := wholeStep_part_iff.mp hu
    obtain rfl := honly w j a hm
    exact (Function.update_of_ne hk _ _).trans (hw k hk)
  | env e =>
    obtain ⟨r, -, rfl⟩ := wholeStep_env_iff.mp hu
    exact hw k hk

/-- `owner` is a lock around the local states `inside`: a component gets in when the lock is free
and then owns it, and it gets out by giving it back. -/
structure LockedBy (loc : σ → ι → Option σ) (sync : R → J → σ → ι → Option R)
    (env : R → ε → Option R) (inside : σ → Bool) (owner : R → Option J) : Prop where
  enter : ∀ {r r' j s l a}, loc s a = some l → sync r j s a = some r' →
    inside s = false → inside l = true → owner r = none ∧ owner r' = some j
  leave : ∀ {r r' j s l a}, loc s a = some l → sync r j s a = some r' →
    inside s = true → inside l = false → owner r' = none
  keep : ∀ {r r' j s l a}, loc s a = some l → sync r j s a = some r' →
    inside l = inside s → owner r' = owner r
  env : ∀ {r r' e}, env r e = some r' → owner r' = owner r

namespace LockedBy

variable {inside : σ → Bool} {owner : R → Option J}

/-- A step keeps the lock with the component that is inside. -/
theorem inside_step (h : LockedBy loc sync env inside owner)
    (hw : ∀ j, inside (w.parts j) = true ↔ owner w.shared = some j) {m : Move J ι ε}
    (hstep : wholeStep loc sync env w m = some w') (k : J) :
    inside (w'.parts k) = true ↔ owner w'.shared = some k := by
  cases m with
  | env e =>
    obtain ⟨r, hr, rfl⟩ := wholeStep_env_iff.mp hstep
    rw [h.env hr]
    exact hw k
  | part j a =>
    obtain ⟨l, r, hl, hr, rfl⟩ := wholeStep_part_iff.mp hstep
    have hother : k ≠ j → Function.update w.parts j l k = w.parts k :=
      fun hkj => Function.update_of_ne hkj _ _
    cases hs : inside (w.parts j) <;> cases hi : inside l
    · have howner := h.keep hl hr (hi.trans hs.symm)
      rcases eq_or_ne k j with rfl | hkj
      · simp [howner, hi, ← hw k, hs]
      · simp [howner, hother hkj, hw k]
    · obtain ⟨hfree, howner⟩ := h.enter hl hr hs hi
      rcases eq_or_ne k j with rfl | hkj
      · simp [howner, hi]
      · simp [howner, hother hkj, hw k, hfree, hkj.symm]
    · have howner := h.leave hl hr hs hi
      rcases eq_or_ne k j with rfl | hkj
      · simp [howner, hi]
      · simp [howner, hother hkj, hw k, (hw j).mp hs, hkj.symm]
    · have howner := h.keep hl hr (hi.trans hs.symm)
      rcases eq_or_ne k j with rfl | hkj
      · simp [howner, hi, ← hw k, hs]
      · simp [howner, hother hkj, hw k]

/-- In every run that starts with everybody outside, the owner is the component inside. -/
theorem inside_iff (h : LockedBy loc sync env inside owner)
    (hw : ∀ j, inside (w.parts j) = true ↔ owner w.shared = some j)
    (hrun : Run (wholeStep loc sync env) w w') (j : J) :
    inside (w'.parts j) = true ↔ owner w'.shared = some j :=
  hrun.invariant (P := fun w => ∀ j, inside (w.parts j) = true ↔ owner w.shared = some j)
    (fun _ _ _ hP _ hstep => h.inside_step hP hstep) hw j

omit [DecidableEq J] in
/-- No two components are inside. -/
theorem exclusive (inside : σ → Bool)
    (hw : ∀ j, inside (w.parts j) = true ↔ owner w.shared = some j) {j k : J}
    (hj : inside (w.parts j) = true) (hk : inside (w.parts k) = true) : j = k :=
  Option.some.inj (((hw j).mp hj).symm.trans ((hw k).mp hk))

end LockedBy

end Transition

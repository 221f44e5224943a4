import Mathlib.Logic.Function.Basic
import Mt5HttpApi.Lib.Transition

/-!
# One loader for a terminal

`Init`, the head of `Tick` and `Deinit` of `assets/experts/include/ChartControl.mqh`: the instances
of `CChartControl` in one terminal take turns by a global variable that holds the time of the
owner's last pass. Every call of the terminal is a step of its own, and time goes by between any
two.

An owner never looks at the variable again. `claims_of_advance` is all that a step can do to who
owns it.
-/

namespace ChartCtl.Mutex

open Transition

/-- Where an instance is: in none of its functions, or before one of their calls. -/
inductive Phase
  | idle
  /-- `Init`: before `GlobalVariableCheck`. -/
  | initCheck
  | initGet
  /-- Before `TimeCurrent() - held < 120`. -/
  | initCompare (held : Int)
  /-- Before the `TimeCurrent()` of `GlobalVariableSet`. -/
  | initNow
  | initSet (now : Int)
  /-- Before `GlobalVariableTemp`. -/
  | initTemp
  /-- Before `m_owner = true`. -/
  | initOwn
  /-- `Tick` of a passive instance: before `GlobalVariableCheck`. -/
  | tickCheck
  /-- `Tick` of an owner: before `TimeCurrent()`. -/
  | tickNow
  | tickSet (now : Int)
  /-- The rest of `Tick`: commands, and a pass over the charts. -/
  | tickPass
  /-- `Deinit` of an owner. -/
  | deinitCheck
  | deinitDel
  deriving DecidableEq

/-- An instance of `CChartControl`. -/
structure Instance where
  /-- `m_owner`. -/
  owner : Bool
  phase : Phase
  deriving DecidableEq

/-- The constructor of `CChartControl`. -/
def fresh : Instance := ⟨false, .idle⟩

/-- The global variable `chartctl_loader_owner` of a terminal, and the instances there. -/
structure Loaders (ι : Type) where
  mutex : Option Int
  instances : ι → Instance

/-- The next call of an instance, at a time: the variable after it, and the instance. -/
def Instance.advance (x : Instance) (mutex : Option Int) (timeCurrent : Int) :
    Option (Option Int × Instance) :=
  match x.phase with
  | .idle => none
  | .initCheck => some (mutex, { x with phase := if mutex.isSome then .initGet else .initNow })
  | .initGet => some (mutex, { x with phase := .initCompare (mutex.getD 0) })
  | .initCompare held =>
    if timeCurrent - held < 120 then some (mutex, ⟨false, .idle⟩)
    else some (mutex, { x with phase := .initNow })
  | .initNow => some (mutex, { x with phase := .initSet timeCurrent })
  | .initSet now => some (some now, { x with phase := .initTemp })
  | .initTemp => some (some (mutex.getD 0), { x with phase := .initOwn })
  | .initOwn => some (mutex, ⟨true, .idle⟩)
  | .tickCheck => some (mutex, { x with phase := if mutex.isSome then .idle else .initCheck })
  | .tickNow => some (mutex, { x with phase := .tickSet timeCurrent })
  | .tickSet now => some (some now, { x with phase := .tickPass })
  | .tickPass => some (mutex, { x with phase := .idle })
  | .deinitCheck => some (mutex, { x with phase := if mutex.isSome then .deinitDel else .idle })
  | .deinitDel => some (none, { x with phase := .idle })

/-- What happens to an instance. -/
inductive Event
  | init
  | tick
  | deinit
  /-- Its next call, at a time. -/
  | next (timeCurrent : Int)
  /-- Its program is unloaded; a new one may be loaded in its place. -/
  | unload

/-- The instance is between two calls. -/
def Instance.start (x : Instance) (phase : Phase) : Option Instance :=
  if x.phase = .idle then some { x with phase := phase } else none

variable {ι : Type} [DecidableEq ι]

/-- An instance is another one now. -/
def Loaders.put (s : Loaders ι) (i : ι) (mutex : Option Int) (x : Instance) : Loaders ι :=
  ⟨mutex, Function.update s.instances i x⟩

/-- One step of an instance. -/
def step (s : Loaders ι) (label : ι × Event) : Option (Loaders ι) :=
  let x := s.instances label.1
  match label.2 with
  | .init => (x.start .initCheck).map (s.put label.1 s.mutex)
  | .tick => (x.start (if x.owner then .tickNow else .tickCheck)).map (s.put label.1 s.mutex)
  | .deinit => (x.start (if x.owner then .deinitCheck else .idle)).map (s.put label.1 s.mutex)
  | .next timeCurrent =>
    (x.advance s.mutex timeCurrent).map fun after => s.put label.1 after.1 after.2
  | .unload => some (s.put label.1 s.mutex fresh)

/-- A terminal that was just started. -/
def start : Loaders ι := ⟨none, fun _ => fresh⟩

/-- No two instances have `m_owner` true. -/
def OneOwner (s : Loaders ι) : Prop :=
  ∀ i j, (s.instances i).owner = true → (s.instances j).owner = true → i = j

/-! ## Who owns the variable, or is about to -/

/-- `Init` has decided to take the variable. -/
def Phase.taking : Phase → Bool
  | .initNow => true
  | .initSet _ => true
  | .initTemp => true
  | .initOwn => true
  | _ => false

/-- The instance owns the variable, or is about to. -/
def Instance.claims (x : Instance) : Bool := x.owner || x.phase.taking

/-- `Init` decides to take the variable: it is not there, or 120 s old. -/
def Instance.decides (x : Instance) (mutex : Option Int) (timeCurrent : Int) : Bool :=
  match x.phase with
  | .initCheck => mutex.isNone
  | .initCompare held => 120 ≤ timeCurrent - held
  | _ => false

/-- An `Init` that decides to take the variable does so while no other instance owns it, or has
decided to take it. -/
def Undisturbed (s : Loaders ι) (label : ι × Event) : Prop :=
  ∀ timeCurrent, label.2 = .next timeCurrent →
    (s.instances label.1).decides s.mutex timeCurrent = true →
      ∀ j ≠ label.1, (s.instances j).claims = false

variable {x y : Instance} {s t : Loaders ι} {i j : ι} {mutex mutex' : Option Int}
  {timeCurrent : Int}

/-- A call of an instance makes it claim the variable only when `Init` decides to. -/
theorem claims_of_advance (h : x.advance mutex timeCurrent = some (mutex', y))
    (hclaims : y.claims = true) : x.claims = true ∨ x.decides mutex timeCurrent = true := by
  obtain ⟨owner, phase⟩ := x
  cases owner with
  | true => exact Or.inl rfl
  | false =>
    cases phase with
    | idle => cases h
    | initNow | initSet | initTemp | initOwn => exact Or.inl rfl
    | initCheck =>
      obtain ⟨-, rfl⟩ := Prod.mk.inj (Option.some.inj h)
      cases mutex with
      | none => exact Or.inr rfl
      | some held => cases hclaims
    | tickCheck | deinitCheck =>
      obtain ⟨-, rfl⟩ := Prod.mk.inj (Option.some.inj h)
      cases mutex <;> cases hclaims
    | initCompare held =>
      rw [Instance.advance] at h
      dsimp only at h
      split at h
      next =>
        obtain ⟨-, rfl⟩ := Prod.mk.inj (Option.some.inj h)
        cases hclaims
      next hold =>
        refine Or.inr (decide_eq_true ?_)
        omega
    | initGet | tickNow | tickSet | tickPass | deinitDel =>
      obtain ⟨-, rfl⟩ := Prod.mk.inj (Option.some.inj h)
      cases hclaims

@[simp]
theorem put_instances_self : (s.put i mutex x).instances i = x := Function.update_self ..

theorem put_instances_of_ne (h : j ≠ i) : (s.put i mutex x).instances j = s.instances j :=
  Function.update_of_ne h ..

/-- What a step does: it changes one instance, which may then claim the variable only as it did
before, or as `Init` decided. -/
theorem step_cases {label : ι × Event} (h : step s label = some t) :
    ∃ mutex x, t = s.put label.1 mutex x ∧ (x.claims = true →
      (s.instances label.1).claims = true ∨ ∃ timeCurrent, label.2 = .next timeCurrent ∧
        (s.instances label.1).decides s.mutex timeCurrent = true) := by
  obtain ⟨i, event⟩ := label
  have hstart : ∀ {phase : Phase}, phase.taking = false →
      ((s.instances i).start phase).map (s.put i s.mutex) = some t →
      ∃ mutex x, t = s.put i mutex x ∧ (x.claims = true →
        (s.instances i).claims = true ∨ ∃ timeCurrent, event = .next timeCurrent ∧
          (s.instances i).decides s.mutex timeCurrent = true) := by
    intro phase hphase hmap
    obtain ⟨x, hx, rfl⟩ := Option.map_eq_some_iff.mp hmap
    refine ⟨_, _, rfl, fun hclaims => Or.inl ?_⟩
    rw [Instance.start] at hx
    split at hx
    · obtain rfl := Option.some.inj hx
      rw [Instance.claims, hphase, Bool.or_false] at hclaims
      rw [Instance.claims, hclaims, Bool.true_or]
    · cases hx
  cases event with
  | init => exact hstart rfl h
  | tick =>
    refine hstart ?_ h
    split <;> rfl
  | deinit =>
    refine hstart ?_ h
    split <;> rfl
  | next timeCurrent =>
    obtain ⟨⟨mutex, x⟩, hadvance, rfl⟩ := Option.map_eq_some_iff.mp h
    exact ⟨_, _, rfl, fun hclaims =>
      (claims_of_advance hadvance hclaims).imp_right fun hdecides => ⟨_, rfl, hdecides⟩⟩
  | unload =>
    obtain rfl := Option.some.inj h
    exact ⟨_, _, rfl, fun hclaims => nomatch hclaims⟩

/-- At most one instance claims the variable. -/
def OneClaim (s : Loaders ι) : Prop :=
  ∀ i j, (s.instances i).claims = true → (s.instances j).claims = true → i = j

theorem OneClaim.step (hs : OneClaim s) {label : ι × Event} (hok : Undisturbed s label)
    (h : step s label = some t) : OneClaim t := by
  obtain ⟨mutex, x, rfl, hclaims⟩ := step_cases h
  -- the instance that moves, against another one
  have hother : ∀ j, j ≠ label.1 → x.claims = true → (s.instances j).claims = false := by
    intro j hj hx
    rcases hclaims hx with hbefore | ⟨timeCurrent, hevent, hdecides⟩
    · by_contra hclaims
      exact hj (hs j label.1 (by simpa using hclaims) hbefore)
    · exact hok timeCurrent hevent hdecides j hj
  intro j k hj hk
  by_cases hji : j = label.1
  · by_cases hki : k = label.1
    · rw [hji, hki]
    · rw [hji, put_instances_self] at hj
      rw [put_instances_of_ne hki, hother k hki hj] at hk
      cases hk
  · rw [put_instances_of_ne hji] at hj
    by_cases hki : k = label.1
    · rw [hki, put_instances_self] at hk
      rw [hother j hji hk] at hj
      cases hj
    · rw [put_instances_of_ne hki] at hk
      exact hs j k hj hk

omit [DecidableEq ι] in
theorem OneClaim.oneOwner (h : OneClaim s) : OneOwner s := by
  intro i j hi hj
  refine h i j ?_ ?_
  · rw [Instance.claims, hi, Bool.true_or]
  · rw [Instance.claims, hj, Bool.true_or]

/-! ## An instance that decided to take the variable takes it -/

/-- The other instances are as they were, and this one owns the variable. -/
def Owns (i : ι) (s t : Loaders ι) : Prop :=
  Run step s t ∧ (t.instances i).owner = true ∧ ∀ j ≠ i, t.instances j = s.instances j

theorem Owns.of_next {y : Instance} (h : (s.instances i).advance s.mutex 0 = some (mutex, y))
    (howns : ∃ t, Owns i (s.put i mutex y) t) : ∃ t, Owns i s t := by
  obtain ⟨t, hrun, howner, hsame⟩ := howns
  have hstep : step s (i, .next 0) = some (s.put i mutex y) := by
    simp only [step, h, Option.map_some]
  refine ⟨t, RunOf.head trivial hstep hrun, howner, fun j hj => ?_⟩
  rw [hsame j hj, put_instances_of_ne hj]

theorem owns_of_initOwn (h : (s.instances i).phase = .initOwn) : ∃ t, Owns i s t := by
  refine Owns.of_next (y := ⟨true, .idle⟩) (by rw [Instance.advance, h]) ?_
  exact ⟨_, RunOf.refl, by rw [put_instances_self], fun j _ => rfl⟩

theorem owns_of_initTemp (h : (s.instances i).phase = .initTemp) : ∃ t, Owns i s t :=
  Owns.of_next (y := { s.instances i with phase := .initOwn }) (by rw [Instance.advance, h])
    (owns_of_initOwn (by rw [put_instances_self]))

theorem owns_of_initSet (now : Int) (h : (s.instances i).phase = .initSet now) : ∃ t, Owns i s t :=
  Owns.of_next (y := { s.instances i with phase := .initTemp }) (by rw [Instance.advance, h])
    (owns_of_initTemp (by rw [put_instances_self]))

theorem owns_of_initNow (h : (s.instances i).phase = .initNow) : ∃ t, Owns i s t :=
  Owns.of_next (y := { s.instances i with phase := .initSet 0 }) (by rw [Instance.advance, h])
    (owns_of_initSet 0 (by rw [put_instances_self]))

/-- Nothing keeps an instance that claims the variable from owning it. -/
theorem owns_of_claims (h : (s.instances i).claims = true) : ∃ t, Owns i s t := by
  by_cases howner : (s.instances i).owner = true
  · exact ⟨s, RunOf.refl, howner, fun j _ => rfl⟩
  rw [Instance.claims, Bool.eq_false_iff.mpr howner, Bool.false_or] at h
  cases hphase : (s.instances i).phase with
  | initNow => exact owns_of_initNow hphase
  | initSet now => exact owns_of_initSet now hphase
  | initTemp => exact owns_of_initTemp hphase
  | initOwn => exact owns_of_initOwn hphase
  | _ =>
    rw [hphase] at h
    cases h

/-- An `Init` that decides to take the variable goes on to. -/
theorem advance_of_decides (h : x.decides mutex timeCurrent = true) :
    x.advance mutex timeCurrent = some (mutex, { x with phase := .initNow }) := by
  obtain ⟨owner, phase⟩ := x
  cases phase with
  | initCheck =>
    cases mutex with
    | none => rfl
    | some held => cases h
  | initCompare held =>
    have hold : 120 ≤ timeCurrent - held := of_decide_eq_true h
    rw [Instance.advance]
    exact if_neg (by omega)
  | _ => cases h

/-- A disturbed step leads on to two owners. -/
theorem exists_run_of_disturbed {label : ι × Event} (h : step s label = some t)
    (hdisturbed : ¬ Undisturbed s label) : ∃ u, Run step t u ∧ ¬ OneOwner u := by
  obtain ⟨i, event⟩ := label
  simp only [Undisturbed, not_forall, Bool.not_eq_false] at hdisturbed
  obtain ⟨timeCurrent, rfl, hdecides, j, hji, hclaims⟩ := hdisturbed
  simp only [step, advance_of_decides hdecides, Option.map_some, Option.some.injEq] at h
  subst h
  -- first the other instance comes to own the variable, then this one
  have hj : ((s.put i s.mutex { s.instances i with phase := .initNow }).instances j).claims =
      true := by
    rw [put_instances_of_ne hji]
    exact hclaims
  obtain ⟨t, hrun, hownerj, hsame⟩ := owns_of_claims hj
  have hi : (t.instances i).phase = .initNow := by
    rw [hsame i hji.symm, put_instances_self]
  obtain ⟨u, hrun', howneri, hsame'⟩ := owns_of_initNow hi
  refine ⟨u, hrun.trans hrun', fun hone => hji ?_⟩
  exact hone j i (by rw [hsame' j hji]; exact hownerj) howneri

/-- An owner starts a pass at 10 s that waits for the experts of its charts for more than two
minutes; another loader starts at 130 s. -/
def stalePass : List (Bool × Event) :=
  [(false, .init), (false, .next 10), (false, .next 10), (false, .next 10), (false, .next 10),
    (false, .next 10), (false, .tick), (false, .next 10), (false, .next 10),
    (true, .init), (true, .next 130), (true, .next 130), (true, .next 130), (true, .next 130),
    (true, .next 130), (true, .next 130), (true, .next 130)]

end ChartCtl.Mutex

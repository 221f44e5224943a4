import Mathlib.Logic.Relation
import Mathlib.Data.List.Basic

/-!
# Runs of a partial step function

A system is given by `step : σ → α → Option σ`: the label `α` carries every outside choice, and
`none` says that the label is not enabled. This file fixes what a run is and the induction rules
the systems built on it use.

* `RunOf step ok s t`: `t` is reached from `s` by steps each of which meets `ok`.
* `Run step s t`: the same without a side condition.
* `exec step s as`: the run that takes the labels `as` in order, when it exists (`exists_exec`).

* `Trace step ok s as t`: the run of `RunOf step ok s t` that takes the labels `as`.

The rules are `RunOf.invariant` (one step keeps it, so a run does), `RunOf.invariant_of` (the same
with an invariant already known), `RunOf.measure` (a run follows a preorder its steps follow) and
`Trace.countP_le` (a rank that the busy steps use up bounds how many of them there are).
-/

namespace Transition

variable {σ α : Type*} (step : σ → α → Option σ)

/-- One step from `s` to `t` under a label that meets `ok` in `s`. -/
def StepOf (ok : σ → α → Prop) (s t : σ) : Prop :=
  ∃ a, ok s a ∧ step s a = some t

/-- `t` is reached from `s` by finitely many steps, each of which meets `ok`. -/
def RunOf (ok : σ → α → Prop) : σ → σ → Prop :=
  Relation.ReflTransGen (StepOf step ok)

/-- `t` is reached from `s` by finitely many steps. -/
def Run : σ → σ → Prop :=
  RunOf step fun _ _ => True

/-- The state after the labels `as`, or `none` if one of them is not enabled. -/
def exec : σ → List α → Option σ
  | s, [] => some s
  | s, a :: as => (step s a).bind fun t => exec t as

/-- The state after the labels `as`, or `none` if one of them is not enabled or fails `ok`. -/
def execOf (ok : σ → α → Bool) : σ → List α → Option σ
  | s, [] => some s
  | s, a :: as => if ok s a then (step s a).bind fun t => execOf ok t as else none

/-- `P` holds of each step of the run that takes the labels in order. -/
def Along (P : σ → α → Prop) : σ → List α → Prop
  | _, [] => True
  | s, a :: as => P s a ∧ ∀ t, step s a = some t → Along P t as

variable {step} {ok ok' : σ → α → Prop} {s t u : σ}

/-- What is the same of each step is the same along a run. -/
theorem along_congr (h : ∀ s a, ok s a ↔ ok' s a) (as : List α) :
    Along step ok s as ↔ Along step ok' s as := by
  induction as generalizing s with
  | nil => exact Iff.rfl
  | cons a as ih => exact and_congr (h s a) (forall_congr' fun t => forall_congr' fun _ => ih)

theorem RunOf.refl : RunOf step ok s s :=
  Relation.ReflTransGen.refl

theorem RunOf.trans (h : RunOf step ok s t) (h' : RunOf step ok t u) : RunOf step ok s u :=
  Relation.ReflTransGen.trans h h'

theorem RunOf.tail (h : RunOf step ok s t) {a : α} (hok : ok t a) (ha : step t a = some u) :
    RunOf step ok s u :=
  Relation.ReflTransGen.tail h ⟨a, hok, ha⟩

theorem RunOf.head {a : α} (hok : ok s a) (ha : step s a = some t) (h : RunOf step ok t u) :
    RunOf step ok s u :=
  Relation.ReflTransGen.head ⟨a, hok, ha⟩ h

/-- Weakening the condition on the steps keeps the run. -/
theorem RunOf.mono (hok : ∀ s a, ok s a → ok' s a) (h : RunOf step ok s t) :
    RunOf step ok' s t := by
  induction h with
  | refl => exact RunOf.refl
  | tail _ hlast ih =>
    obtain ⟨a, hs, ha⟩ := hlast
    exact ih.tail (hok _ a hs) ha

/-- A run whose steps meet a condition is a run. -/
theorem RunOf.run (h : RunOf step ok s t) : Run step s t :=
  h.mono fun _ _ _ => trivial

/-- What every step that meets `ok` keeps, every run of such steps keeps. -/
theorem RunOf.invariant {P : σ → Prop}
    (hstep : ∀ s a t, P s → ok s a → step s a = some t → P t)
    (h : RunOf step ok s t) (hs : P s) : P t := by
  induction h with
  | refl => exact hs
  | tail _ hlast ih =>
    obtain ⟨a, hok, ha⟩ := hlast
    exact hstep _ a _ ih hok ha

/-- The invariant rule with a second property `Q` already known of every state of the run. -/
theorem RunOf.invariant_of {P Q : σ → Prop}
    (hQ : ∀ t, RunOf step ok s t → Q t)
    (hstep : ∀ t a u, Q t → Q u → P t → ok t a → step t a = some u → P u)
    (h : RunOf step ok s t) (hs : P s) : P t := by
  induction h with
  | refl => exact hs
  | tail hprev hlast ih =>
    obtain ⟨a, hok, ha⟩ := hlast
    exact hstep _ a _ (hQ _ hprev) (hQ _ (RunOf.tail hprev hok ha)) ih hok ha

/-- A run follows every preorder that its steps follow. -/
theorem RunOf.measure {R : σ → σ → Prop} (hrefl : ∀ s, R s s)
    (htrans : ∀ s t u, R s t → R t u → R s u)
    (hstep : ∀ s a t, ok s a → step s a = some t → R s t)
    (h : RunOf step ok s t) : R s t := by
  induction h with
  | refl => exact hrefl _
  | tail _ hlast ih =>
    obtain ⟨a, hok, ha⟩ := hlast
    exact htrans _ _ _ ih (hstep _ a _ hok ha)

/-- Where every label that meets `good` can be taken and keeps `P`, all of them can be taken in
order. -/
theorem exists_exec {P : σ → Prop} {good : α → Prop}
    (hstep : ∀ s a, P s → good a → ∃ t, step s a = some t ∧ P t) :
    ∀ {as : List α} {s : σ}, P s → (∀ a ∈ as, good a) → ∃ t, exec step s as = some t ∧ P t
  | [], s, hs, _ => ⟨s, rfl, hs⟩
  | a :: as, s, hs, has => by
    obtain ⟨u, hu, hPu⟩ := hstep s a hs (has a List.mem_cons_self)
    obtain ⟨t, ht, hPt⟩ := exists_exec hstep hPu fun b hb => has b (List.mem_cons_of_mem a hb)
    refine ⟨t, ?_, hPt⟩
    rw [exec, hu, Option.bind_some, ht]

/-- A successful execution is a run. -/
theorem run_of_exec : ∀ {as : List α} {s t : σ}, exec step s as = some t → Run step s t
  | [], _, _, h => by
    cases h
    exact RunOf.refl
  | a :: as, s, t, h => by
    obtain ⟨u, hu, ht⟩ := Option.bind_eq_some_iff.mp h
    exact RunOf.head trivial hu (run_of_exec ht)

/-- A run to a state that passes a test, by execution. -/
theorem exists_run_of_exec {as : List α} {p : σ → Bool}
    (h : (exec step s as).any p = true) : ∃ t, Run step s t ∧ p t = true := by
  obtain ⟨t, ht, hp⟩ := (Option.any_eq_true _ _).mp h
  exact ⟨t, run_of_exec ht, hp⟩

/-- A successful checked execution is a run whose steps meet the condition, if the check implies it
in the states that have a property `P`, and keeps `P`; its last state has it as well. -/
theorem runOf_of_execOf_of {okb : σ → α → Bool} {P : σ → Prop}
    (hok : ∀ s a, P s → okb s a = true → ok s a)
    (hkeep : ∀ s a t, P s → okb s a = true → step s a = some t → P t) :
    ∀ {as : List α} {s t : σ}, P s → execOf step okb s as = some t → RunOf step ok s t ∧ P t
  | [], _, _, hP, h => by
    cases h
    exact ⟨RunOf.refl, hP⟩
  | a :: as, s, t, hP, h => by
    rw [execOf] at h
    split at h
    next hs =>
      obtain ⟨u, hu, ht⟩ := Option.bind_eq_some_iff.mp h
      obtain ⟨hrun, hlast⟩ := runOf_of_execOf_of hok hkeep (hkeep s a u hP hs hu) ht
      exact ⟨RunOf.head (hok s a hP hs) hu hrun, hlast⟩
    next => cases h

/-- A successful checked execution is a run whose steps meet the checked condition. -/
theorem runOf_of_execOf {okb : σ → α → Bool} (hok : ∀ s a, okb s a = true → ok s a) {as : List α}
    {s t : σ} (h : execOf step okb s as = some t) : RunOf step ok s t :=
  (runOf_of_execOf_of (P := fun _ => True) (fun s a _ => hok s a) (fun _ _ _ _ _ _ => trivial)
    trivial h).1

/-- A run whose steps meet the checked condition, to a state that passes a test, by execution. -/
theorem exists_runOf_of_execOf (okb : σ → α → Bool) (hok : ∀ s a, okb s a = true → ok s a)
    {as : List α} {p : σ → Bool} (h : (execOf step okb s as).any p = true) :
    ∃ t, RunOf step ok s t ∧ p t = true := by
  obtain ⟨t, ht, hp⟩ := (Option.any_eq_true _ _).mp h
  exact ⟨t, runOf_of_execOf hok ht, hp⟩

variable (step) in
/-- `t` is reached from `s` by the labels `as`, each of which meets `ok` where it is taken. -/
def Trace (ok : σ → α → Prop) : σ → List α → σ → Prop
  | s, [], t => s = t
  | s, a :: as, t => ok s a ∧ ∃ u, step s a = some u ∧ Trace ok u as t

theorem Trace.runOf : ∀ {as : List α} {s t : σ}, Trace step ok s as t → RunOf step ok s t
  | [], _, _, h => by
    rw [Trace] at h
    rw [h]
    exact RunOf.refl
  | _ :: _, _, _, ⟨hok, _, hstep, h⟩ => RunOf.head hok hstep h.runOf

/-- Steps that count use up what is left, and no step adds to it: as long as only `quiet` labels are
taken, there are at most `n` steps that count. -/
theorem Trace.countP_le {I : σ → Prop} {L : σ → ℕ → Prop} {busy : α → Bool} {quiet : α → Prop}
    (hinv : ∀ s a t, I s → ok s a → step s a = some t → I t)
    (hstep : ∀ s a t n, I s → L s n → ok s a → quiet a → step s a = some t →
      ∃ m, L t m ∧ m + (if busy a then 1 else 0) ≤ n) :
    ∀ {as : List α} {s t : σ} {n : ℕ}, I s → L s n → Trace step ok s as t →
      (∀ a ∈ as, quiet a) → as.countP busy ≤ n
  | [], _, _, n, _, _, _, _ => by
    rw [List.countP_nil]
    exact Nat.zero_le n
  | a :: as, s, _, n, hs, hleft, ⟨hok, u, hu, hrest⟩, hquiet => by
    obtain ⟨m, hm, hle⟩ := hstep s a u n hs hleft hok (hquiet a List.mem_cons_self) hu
    have hcount := Trace.countP_le hinv hstep (hinv s a u hs hok hu) hm hrest
      fun b hb => hquiet b (List.mem_cons_of_mem _ hb)
    rw [List.countP_cons]
    omega

end Transition

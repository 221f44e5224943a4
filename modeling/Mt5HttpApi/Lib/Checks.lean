import Mathlib.Data.List.Basic

/-!
# Checks that fail in different ways

A procedure that validates its input is a sequence of checks in `Except ε`, the first failing one of
which decides how the procedure fails. `Fails P x` says that `x` fails with an error that satisfies
`P`. Its rules follow the ways in which checks are put together.

* `forM_eq_ok`: the checks of a list pass when each of them does.
* `not_fails_forM_iff`: they do not fail with such an error when each check that would is behind one
  that fails with another.
* `asCheck_bind_cons`: a sequence of computations fails as the list of their checks does.
-/

namespace Checks

variable {ι ε α β : Type} {P : ε → Prop}

/-- Fails with an error that satisfies `P`. -/
def Fails (P : ε → Prop) (x : Except ε α) : Prop := ∃ e, x = .error e ∧ P e

/-- Whether a computation succeeds, without its result. -/
def asCheck (x : Except ε α) : Except ε Unit := x >>= fun _ => .ok ()

/-! ## Rules -/

@[simp]
theorem fails_ok (a : α) : Fails P (.ok a) ↔ False := by
  constructor
  · rintro ⟨e, h, -⟩
    cases h
  · exact False.elim

@[simp]
theorem fails_error (e : ε) : Fails P (.error e : Except ε α) ↔ P e := by
  constructor
  · rintro ⟨e', h, he'⟩
    injection h with h
    rwa [h]
  · exact fun he => ⟨e, rfl, he⟩

@[simp]
theorem fails_ite {c : Prop} [Decidable c] (x y : Except ε α) :
    Fails P (if c then x else y) ↔ c ∧ Fails P x ∨ ¬ c ∧ Fails P y := by
  split
  next hc => simp [hc]
  next hc => simp [hc]

/-- A sequence succeeds when its first part does, and what follows its result. -/
theorem isOk_bind {x : Except ε α} {f : α → Except ε β} :
    (x >>= f).isOk = true ↔ ∃ a, x = .ok a ∧ (f a).isOk = true := by
  cases x with
  | error e =>
    constructor
    · intro h
      cases h
    · rintro ⟨a, h, -⟩
      cases h
  | ok a =>
    constructor
    · exact fun h => ⟨a, rfl, h⟩
    · rintro ⟨b, heq, h⟩
      obtain rfl := Except.ok.inj heq
      exact h

/-- A sequence fails in its first part, or in what follows its result. -/
theorem fails_bind {x : Except ε α} {f : α → Except ε β} :
    Fails P (x >>= f) ↔ Fails P x ∨ ∃ a, x = .ok a ∧ Fails P (f a) := by
  cases x with
  | error e =>
    change Fails P (.error e) ↔ _
    simp
  | ok a =>
    change Fails P (f a) ↔ _
    simp

@[simp]
theorem fails_asCheck {x : Except ε α} : Fails P (asCheck x) ↔ Fails P x := by
  rw [asCheck, fails_bind]
  simp

theorem asCheck_eq_ok {x : Except ε α} : asCheck x = .ok () ↔ ∃ a, x = .ok a := by
  cases x with
  | error e =>
    constructor
    · intro h
      cases h
    · rintro ⟨a, h⟩
      cases h
  | ok a => exact iff_of_true rfl ⟨a, rfl⟩

/-- A check passes when it fails neither in one way nor in another. -/
theorem eq_ok_iff {x : Except ε Unit} :
    x = .ok () ↔ ¬ Fails P x ∧ ¬ Fails (fun e => ¬ P e) x := by
  cases x with
  | error e => simp
  | ok _ => simp

/-! ## Lists of checks -/

variable {check : ι → Except ε Unit} {f : ι} {l : List ι}

theorem forM_cons_of_ok (h : check f = .ok ()) : (f :: l).forM check = l.forM check := by
  change (check f >>= fun _ => l.forM check) = _
  rw [h]
  rfl

theorem forM_cons_of_error {e : ε} (h : check f = .error e) : (f :: l).forM check = .error e := by
  change (check f >>= fun _ => l.forM check) = _
  rw [h]
  rfl

/-- The checks of a list pass when each of them does. -/
theorem forM_eq_ok : l.forM check = .ok () ↔ ∀ f ∈ l, check f = .ok () := by
  induction l with
  | nil => exact iff_of_true rfl (by simp)
  | cons f l ih =>
    rw [List.forall_mem_cons]
    rcases hf : check f with e | u
    · rw [forM_cons_of_error hf]
      simp
    · rw [forM_cons_of_ok hf, ih]
      simp

/-- The checks of a list do not fail with such an error when each of them that would is behind one
that fails with another. -/
theorem not_fails_forM_iff : ¬ Fails P (l.forM check) ↔ ∀ pre f post, l = pre ++ f :: post →
    Fails P (check f) → ∃ g ∈ pre, Fails (fun e => ¬ P e) (check g) := by
  induction l with
  | nil =>
    refine iff_of_true (fun h => (fails_ok _).mp h) fun pre f post h => ?_
    simp at h
  | cons first l ih =>
    rcases hfirst : check first with e | u
    · -- the first check decides
      rw [forM_cons_of_error hfirst, fails_error]
      constructor
      · intro he pre f post heq hf
        cases pre with
        | nil =>
          obtain ⟨rfl, -⟩ := List.cons.inj heq
          rw [hfirst, fails_error] at hf
          exact absurd hf he
        | cons g pre =>
          obtain ⟨rfl, -⟩ := List.cons.inj heq
          exact ⟨first, List.mem_cons_self, e, hfirst, he⟩
      · intro h he
        obtain ⟨g, hg, -⟩ := h [] first l rfl ⟨e, hfirst, he⟩
        cases hg
    · -- the first check has no part in it
      rw [forM_cons_of_ok hfirst, ih]
      constructor
      · intro h pre f post heq hf
        cases pre with
        | nil =>
          obtain ⟨rfl, -⟩ := List.cons.inj heq
          rw [hfirst, fails_ok] at hf
          exact hf.elim
        | cons g pre =>
          obtain ⟨rfl, hrest⟩ := List.cons.inj heq
          obtain ⟨g, hg, hfails⟩ := h pre f post hrest hf
          exact ⟨g, List.mem_cons_of_mem first hg, hfails⟩
      · intro h pre f post heq hf
        obtain ⟨g, hg, hfails⟩ := h (first :: pre) f post (by rw [heq]; rfl) hf
        rcases List.mem_cons.mp hg with rfl | hg
        · rw [hfirst, fails_ok] at hfails
          exact hfails.elim
        · exact ⟨g, hg, hfails⟩

/-- A sequence of computations fails as the list of their checks does. -/
theorem asCheck_bind_cons {x : Except ε α} {g : α → Except ε β} (hcheck : check f = asCheck x)
    (h : ∀ a, x = .ok a → asCheck (g a) = l.forM check) :
    asCheck (x >>= g) = (f :: l).forM check := by
  cases x with
  | error e =>
    rw [forM_cons_of_error hcheck]
    rfl
  | ok a =>
    rw [forM_cons_of_ok hcheck, ← h a rfl]
    rfl

/-- What a list of computations returns is returned by one of them each. -/
theorem exists_of_mapM {g : ι → Except ε β} {out : List β} (h : l.mapM g = .ok out) :
    ∀ b ∈ out, ∃ a ∈ l, g a = .ok b := by
  induction l generalizing out with
  | nil =>
    cases h
    simp
  | cons a l ih =>
    rw [List.mapM_cons] at h
    rcases ha : g a with e | b
    · rw [ha] at h
      cases h
    · rcases hl : l.mapM g with e | rest
      · rw [ha, hl] at h
        cases h
      · rw [ha, hl] at h
        cases h
        intro b' hb'
        rcases List.mem_cons.mp hb' with rfl | hb'
        · exact ⟨a, List.mem_cons_self, ha⟩
        · obtain ⟨a', ha', hg⟩ := ih hl b' hb'
          exact ⟨a', List.mem_cons_of_mem a ha', hg⟩

end Checks

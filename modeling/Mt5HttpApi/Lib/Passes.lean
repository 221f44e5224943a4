import Mathlib.Data.List.Basic

/-!
# Passes over a list that may stop

A pass goes over a list, changes a state with each element and counts; an element may stop it, and
what is done by then stays done. `over_invariant` says what stays true along a pass, and
`over_establishes` what each element that did not stop it has brought about at the end.
-/

namespace Passes

variable {σ α : Type*}

/-- One element after the other, until one stops the pass: how many were counted, unless it was
stopped, and the state afterwards. -/
def runPass (pass : σ → α → Option ℕ × σ) : List α → σ → Option ℕ × σ
  | [], s => (some 0, s)
  | a :: as, s =>
    match pass s a with
    | (none, s') => (none, s')
    | (some n, s') => ((runPass pass as s').1.map (n + ·), (runPass pass as s').2)

variable {pass : σ → α → Option ℕ × σ} {s s' : σ} {a : α} {as before : List α} {n : ℕ}

theorem over_cons_of_some (h : pass s a = (some n, s')) :
    runPass pass (a :: as) s = ((runPass pass as s').1.map (n + ·), (runPass pass as s').2) := by
  rw [runPass, h]

theorem over_cons_of_none (h : (pass s a).1 = none) : (runPass pass (a :: as) s).1 = none := by
  rw [runPass]
  split
  · rfl
  · next heq => exact absurd h (by simp [heq])

/-- What each element keeps, the pass keeps. -/
theorem over_invariant {I : σ → Prop} (h : ∀ a ∈ as, ∀ s, I s → I (pass s a).2) (hs : I s) :
    I (runPass pass as s).2 := by
  induction as generalizing s with
  | nil => exact hs
  | cons a as ih =>
    obtain ⟨ha, has⟩ := List.forall_mem_cons.mp h
    have hstep := ha s hs
    rw [runPass]
    split
    next heq => rwa [heq] at hstep
    next heq =>
      rw [heq] at hstep
      exact ih has hstep

/-- What each element keeps that does not stop the pass, a pass keeps that is not stopped. -/
theorem over_invariant_of_returns {I : σ → Prop}
    (h : ∀ a ∈ as, ∀ s, I s → (pass s a).1 ≠ none → I (pass s a).2) (hs : I s)
    (hreturns : (runPass pass as s).1 ≠ none) : I (runPass pass as s).2 := by
  induction as generalizing s with
  | nil => exact hs
  | cons a as ih =>
    obtain ⟨ha, has⟩ := List.forall_mem_cons.mp h
    rcases hstep : pass s a with ⟨- | k, s'⟩
    · exact absurd (over_cons_of_none (by rw [hstep])) hreturns
    · have hs' : I s' := by simpa [hstep] using ha s hs (by simp [hstep])
      rw [over_cons_of_some hstep] at hreturns ⊢
      exact ih has hs' fun hnone => hreturns (by simp [hnone])

/-- What no element changes stays. -/
theorem over_frame {β : Type*} (f : σ → β) (h : ∀ a ∈ as, ∀ s, f (pass s a).2 = f s) (s : σ) :
    f (runPass pass as s).2 = f s :=
  over_invariant (I := fun t => f t = f s) (fun a ha t ht => (h a ha t).trans ht) rfl

/-- What the later elements do not change is as the first leaves it. -/
theorem over_cons_frame {β : Type*} (f : σ → β) (h : ∀ a ∈ as, ∀ s, f (pass s a).2 = f s) :
    f (runPass pass (a :: as) s).2 = f (pass s a).2 := by
  rw [runPass]
  split
  next heq => rw [heq]
  next heq => rw [heq, over_frame f h]

/-- The elements after others, if the pass is not stopped before. -/
theorem over_append (h : runPass pass before s = (some n, s')) :
    (runPass pass (before ++ as) s).2 = (runPass pass as s').2 := by
  induction before generalizing s n with
  | nil =>
    rw [runPass, Prod.mk.injEq] at h
    rw [List.nil_append, h.2]
  | cons a before ih =>
    rcases hstep : pass s a with ⟨- | k, next⟩
    · rw [runPass, hstep] at h
      exact absurd (Prod.mk.inj h).1 (by simp)
    · rw [over_cons_of_some hstep] at h
      obtain ⟨hcount, hstate⟩ := Prod.mk.inj h
      obtain ⟨m, hm, -⟩ := Option.map_eq_some_iff.mp hcount
      rw [List.cons_append, over_cons_of_some hstep]
      exact ih (Prod.ext hm hstate)

/-- What each element brings about if it does not stop the pass, and the others keep, holds at the
end of a pass that was not stopped. -/
theorem over_establishes {I : σ → Prop} {Q : α → σ → Prop}
    (hI : ∀ a ∈ as, ∀ s, I s → (pass s a).1 ≠ none → I (pass s a).2)
    (hQ : ∀ a ∈ as, ∀ s, I s → (pass s a).1 ≠ none → Q a (pass s a).2)
    (hkeep : ∀ a, ∀ b ∈ as, ∀ s, I s → (pass s b).1 ≠ none → Q a s → Q a (pass s b).2)
    (hs : I s) (hreturns : (runPass pass as s).1 ≠ none) : ∀ a ∈ as, Q a (runPass pass as s).2 := by
  induction as generalizing s with
  | nil => exact fun _ ha => absurd ha List.not_mem_nil
  | cons b as ih =>
    obtain ⟨hIb, hIas⟩ := List.forall_mem_cons.mp hI
    rcases hstep : pass s b with ⟨- | k, s'⟩
    · exact absurd (over_cons_of_none (by rw [hstep])) hreturns
    · have hs' : I s' := by simpa [hstep] using hIb s hs (by simp [hstep])
      have hb : Q b s' := by
        simpa [hstep] using hQ b List.mem_cons_self s hs (by simp [hstep])
      rw [over_cons_of_some hstep] at hreturns ⊢
      have hrest : (runPass pass as s').1 ≠ none := fun hnone => hreturns (by simp [hnone])
      intro a ha
      rcases List.mem_cons.mp ha with rfl | ha
      · -- the first element's work is kept by the others
        refine (over_invariant_of_returns (I := fun t => I t ∧ Q a t) (fun c hc t ht hc' => ?_)
          ⟨hs', hb⟩ hrest).2
        exact ⟨hIas c hc t ht.1 hc', hkeep a c (List.mem_cons_of_mem _ hc) t ht.1 hc' ht.2⟩
      · exact ih hIas (fun c hc => hQ c (List.mem_cons_of_mem _ hc))
          (fun c d hd => hkeep c d (List.mem_cons_of_mem _ hd)) hs' hrest a ha

end Passes

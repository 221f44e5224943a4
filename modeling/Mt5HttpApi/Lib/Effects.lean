import Mathlib.Data.List.Basic

/-!
# Computations that change a state and may fail

A computation of type `ExceptT ε (StateM σ) α` keeps what it has done to the state when it fails, as
a procedure does that raises an exception. `Keeps I m` says that `m` keeps the invariant `I`,
whether it returns or fails. The rules follow the ways in which computations are put together: a
procedure keeps what its steps keep, and each step may be taken to follow what the ones before it
can return.
-/

namespace Effects

variable {ε σ α β : Type}

/-- The outcome of a computation, and the state after it. -/
def run (m : ExceptT ε (StateM σ) α) (s : σ) : Except ε α × σ := m.run.run s

variable {m : ExceptT ε (StateM σ) α} {f : α → ExceptT ε (StateM σ) β} {s s' : σ}

theorem run_bind (m : ExceptT ε (StateM σ) α) (f : α → ExceptT ε (StateM σ) β) (s : σ) :
    run (m >>= f) s = run (ExceptT.mk (ExceptT.bindCont f (run m s).1)) (run m s).2 := rfl

/-- A step that returns is followed by the next. -/
theorem run_bind_of_ok {a : α} (h : run m s = (.ok a, s')) : run (m >>= f) s = run (f a) s' := by
  rw [run_bind, h]
  rfl

/-- A step that fails is the last. -/
theorem run_bind_of_error {e : ε} (h : run m s = (.error e, s')) :
    run (m >>= f) s = (.error e, s') := by
  rw [run_bind, h]
  rfl

@[simp]
theorem run_pure (a : α) (s : σ) : run (pure a : ExceptT ε (StateM σ) α) s = (.ok a, s) := rfl

/-- A computation that reads the state goes on from it. -/
@[simp]
theorem run_get_bind (f : σ → ExceptT ε (StateM σ) β) (s : σ) :
    run (get >>= f) s = run (f s) s := rfl

/-- So does one that changes it. -/
@[simp]
theorem run_modify_bind (g : σ → σ) (f : PUnit → ExceptT ε (StateM σ) β) (s : σ) :
    run (modify g >>= f) s = run (f ⟨⟩) (g s) := rfl

@[simp]
theorem run_set (s s' : σ) : run (set s' : ExceptT ε (StateM σ) PUnit) s = (.ok (), s') := rfl

/-- Only the outcome is different when a result is passed on. -/
theorem run_bind_pure (m : ExceptT ε (StateM σ) α) (f : α → β) (s : σ) :
    (run (m >>= fun a => pure (f a)) s).2 = (run m s).2 := by
  rcases h : run m s with ⟨e | a, s'⟩
  · rw [run_bind_of_error h]
  · rw [run_bind_of_ok h]
    rfl

/-- A check does not change the state. -/
theorem run_ofExcept (e : Except ε α) (s : σ) :
    run (MonadExcept.ofExcept e : ExceptT ε (StateM σ) α) s = (e, s) := by
  cases e <;> rfl

/-- A check that passes is followed by the next step. -/
theorem run_ofExcept_bind {e : Except ε α} {a : α} (h : e = .ok a) (s : σ) :
    run (MonadExcept.ofExcept e >>= f) s = run (f a) s :=
  run_bind_of_ok (by rw [run_ofExcept, h])

/-- A loop goes through one list after another. -/
theorem run_forM_append (l l' : List α) (f : α → ExceptT ε (StateM σ) PUnit) (s : σ) :
    run ((l ++ l').forM f) s = run (l.forM f >>= fun _ => l'.forM f) s := by
  simp only [List.forM_eq_forM, List.forM_append]

/-- A loop's last pass comes after the others. -/
theorem run_forM_concat (l : List α) (a : α) (f : α → ExceptT ε (StateM σ) PUnit) (s : σ) :
    run ((l ++ [a]).forM f) s = run (l.forM f >>= fun _ => f a) s := by
  have hone : [a].forM f = f a := by simp
  rw [run_forM_append, hone]

/-- From a state with `P` the computation goes to one with `Q`, whether it returns or fails. -/
def Leads (P Q : σ → Prop) (m : ExceptT ε (StateM σ) α) : Prop := ∀ s, P s → Q (run m s).2

/-- Whatever happens, the invariant is kept. -/
abbrev Keeps (I : σ → Prop) (m : ExceptT ε (StateM σ) α) : Prop := Leads I I m

/-- From some state with the invariant `a` is returned. -/
def Returns (I : σ → Prop) (m : ExceptT ε (StateM σ) α) (a : α) : Prop :=
  ∃ s, I s ∧ (run m s).1 = .ok a

variable {I P Q : σ → Prop}

/-- A step that keeps `P`, then one that goes on from there. -/
theorem Leads.after (hPQ : ∀ s, P s → Q s) (hm : Keeps P m)
    (hf : ∀ a, Returns P m a → Leads P Q (f a)) : Leads P Q (m >>= f) := by
  intro s hs
  have hmid := hm s hs
  rcases h : run m s with ⟨e | a, s'⟩ <;> rw [h] at hmid
  · rw [run_bind_of_error h]
    exact hPQ s' hmid
  · rw [run_bind_of_ok h]
    exact hf a ⟨s, hs, congrArg Prod.fst h⟩ s' hmid

/-- A step that reaches `Q`, then one that keeps it. -/
theorem Leads.before (hm : Leads P Q m) (hf : ∀ a, Keeps Q (f a)) : Leads P Q (m >>= f) := by
  intro s hs
  have hmid := hm s hs
  rcases h : run m s with ⟨e | a, s'⟩ <;> rw [h] at hmid
  · rw [run_bind_of_error h]
    exact hmid
  · rw [run_bind_of_ok h]
    exact hf a s' hmid

/-- A computation that changes nothing. -/
theorem Keeps.leads (h : ∀ s, P s → Q s) (hm : Keeps P m) : Leads P Q m :=
  fun s hs => h _ (hm s hs)

namespace Keeps

theorem pure (a : α) : Keeps I (pure a : ExceptT ε (StateM σ) α) := fun _ hs => hs

theorem throw (e : ε) : Keeps I (throw e : ExceptT ε (StateM σ) α) := fun _ hs => hs

theorem ofExcept (e : Except ε α) :
    Keeps I (MonadExcept.ofExcept e : ExceptT ε (StateM σ) α) := by
  intro s hs
  rw [run_ofExcept]
  exact hs

theorem get : Keeps I (get : ExceptT ε (StateM σ) σ) := fun _ hs => hs

/-- Two steps keep what each of them keeps, the second after what the first can return. -/
theorem bind (hm : Keeps I m) (hf : ∀ a, Returns I m a → Keeps I (f a)) : Keeps I (m >>= f) :=
  Leads.after (fun _ hs => hs) hm hf

/-- A loop keeps what its passes keep. -/
theorem forM {l : List α} {f : α → ExceptT ε (StateM σ) PUnit} (h : ∀ a ∈ l, Keeps I (f a)) :
    Keeps I (l.forM f) := by
  induction l with
  | nil => exact pure _
  | cons a l ih =>
    exact bind (h a List.mem_cons_self) fun _ _ => ih fun b hb => h b (List.mem_cons_of_mem a hb)

end Keeps

/-- A state that is set has what is true of it. -/
theorem Leads.set (hs : Q s) : Leads P Q (set s : ExceptT ε (StateM σ) PUnit) := fun _ _ => hs

namespace Returns

theorem of_get {d : σ} (h : Returns I (get : ExceptT ε (StateM σ) σ) d) : I d := by
  obtain ⟨s, hs, hget⟩ := h
  obtain rfl : s = d := by injection hget
  exact hs

theorem of_pure {a b : α} (h : Returns I (pure a : ExceptT ε (StateM σ) α) b) : a = b := by
  obtain ⟨s, -, hok⟩ := h
  injection hok

theorem not_throw {e : ε} {a : α} : ¬ Returns I (throw e : ExceptT ε (StateM σ) α) a := by
  rintro ⟨s, -, hok⟩
  cases hok

theorem of_ofExcept {e : Except ε α} {a : α}
    (h : Returns I (MonadExcept.ofExcept e : ExceptT ε (StateM σ) α) a) : e = .ok a := by
  obtain ⟨s, -, hok⟩ := h
  rwa [run_ofExcept] at hok

/-- What two steps return the second returns, after what the first does. -/
theorem of_bind {b : β} (hm : Keeps I m) (h : Returns I (m >>= f) b) :
    ∃ a, Returns I m a ∧ Returns I (f a) b := by
  obtain ⟨s, hs, hok⟩ := h
  rcases hrun : run m s with ⟨e | a, s'⟩
  · rw [run_bind_of_error hrun] at hok
    cases hok
  · rw [run_bind_of_ok hrun] at hok
    have hs' := hm s hs
    rw [hrun] at hs'
    exact ⟨a, ⟨s, hs, congrArg Prod.fst hrun⟩, s', hs', hok⟩

end Returns

/-- The invariant is kept, what is returned has `Q`, and a failure has `E`. -/
def Meets (I : σ → Prop) (E : ε → Prop) (Q : α → Prop) (m : ExceptT ε (StateM σ) α) : Prop :=
  ∀ s, I s → I (run m s).2 ∧ match (run m s).1 with
    | .ok a => Q a
    | .error e => E e

namespace Meets

variable {E : ε → Prop} {Q Q' : α → Prop} {R : β → Prop}

theorem pure {a : α} (h : Q a) : Meets I E Q (pure a : ExceptT ε (StateM σ) α) :=
  fun _ hs => ⟨hs, h⟩

theorem throw {e : ε} (h : E e) : Meets I E Q (throw e : ExceptT ε (StateM σ) α) :=
  fun _ hs => ⟨hs, h⟩

/-- A check whose failures have `E`. -/
theorem ofExcept {x : Except ε α} (h : ∀ e, x = .error e → E e) :
    Meets I E (fun _ => True) (MonadExcept.ofExcept x : ExceptT ε (StateM σ) α) := by
  intro s hs
  rw [run_ofExcept]
  refine ⟨hs, ?_⟩
  cases x with
  | error e => exact h e rfl
  | ok a => trivial

/-- A change that keeps the invariant. -/
theorem modify {g : σ → σ} (h : ∀ s, I s → I (g s)) :
    Meets I E (fun _ => True) (modify g : ExceptT ε (StateM σ) PUnit) :=
  fun s hs => ⟨h s hs, trivial⟩

theorem imp (hm : Meets I E Q m) (h : ∀ a, Q a → Q' a) : Meets I E Q' m := by
  intro s hs
  obtain ⟨hmid, hout⟩ := hm s hs
  refine ⟨hmid, ?_⟩
  rcases hrun : run m s with ⟨e | a, s'⟩ <;> rw [hrun] at hout
  · exact hout
  · exact h a hout

/-- One step after another. -/
theorem bind (hm : Meets I E Q m) (hf : ∀ a, Q a → Meets I E R (f a)) : Meets I E R (m >>= f) := by
  intro s hs
  obtain ⟨hmid, hout⟩ := hm s hs
  rcases hrun : run m s with ⟨e | a, s'⟩ <;> rw [hrun] at hmid hout
  · rw [run_bind_of_error hrun]
    exact ⟨hmid, hout⟩
  · rw [run_bind_of_ok hrun]
    exact hf a hout s' hmid

/-- The steps for the items of a list. -/
theorem mapM {ι : Type} {l : List ι} {f : ι → ExceptT ε (StateM σ) α}
    (h : ∀ i ∈ l, Meets I E Q (f i)) : Meets I E (fun as => ∀ a ∈ as, Q a) (l.mapM f) := by
  induction l with
  | nil =>
    rw [List.mapM_nil]
    exact pure (by simp)
  | cons i l ih =>
    rw [List.mapM_cons]
    refine bind (h i List.mem_cons_self) fun a ha => ?_
    refine bind (ih fun j hj => h j (List.mem_cons_of_mem i hj)) fun as has => ?_
    exact pure (List.forall_mem_cons.mpr ⟨ha, has⟩)

end Meets

end Effects

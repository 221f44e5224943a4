import Mathlib.Logic.Relation

/-!
# Programs that call on their surroundings

A `Program` calls operations one after another, each in the light of the answers before, and returns
a value. Its surroundings, a `World`, answer every call by a choice of their own (`resume`), and
between two calls they may move on their own.

`Leads` says what a program leads to whatever the surroundings choose: every operation is legal when
it is called, and what is returned meets the postcondition. It is kept while the surroundings move
(`Leads.moved`) and answer (`Leads.resume`), and programs are put together by `Leads.bind`.

`Covers` says what is so whatever is answered at all, in any surroundings (`Covers.leads`), and
`Logs` what is so of the calls and answers that a program has behind it when it returns.
-/

namespace Interaction

variable {Op : Type} {Ans : Op → Type} {α β σ : Type}

/-- A program that calls operations `o`, which answer with an `Ans o`. -/
inductive Program (Ans : Op → Type) (α : Type) : Type
  | done (a : α)
  | call (o : Op) (next : Ans o → Program Ans α)

namespace Program

/-- One program after another. -/
def bind : Program Ans α → (α → Program Ans β) → Program Ans β
  | done a, f => f a
  | call o next, f => call o fun a => (next a).bind f

instance : Monad (Program Ans) where
  pure := done
  bind := bind

/-- One call. -/
def ask (o : Op) : Program Ans (Ans o) := call o done

@[simp]
theorem done_bind (a : α) (f : α → Program Ans β) : done a >>= f = f a := rfl

@[simp]
theorem pure_bind (a : α) (f : α → Program Ans β) : (pure a : Program Ans α) >>= f = f a := rfl

@[simp]
theorem ask_bind (o : Op) (f : Ans o → Program Ans β) : ask o >>= f = call o f := rfl

theorem bind_assoc {γ : Type} (p : Program Ans α) (f : α → Program Ans β)
    (g : β → Program Ans γ) : p >>= f >>= g = p >>= fun a => f a >>= g := by
  induction p with
  | done a => rfl
  | call o next ih => exact congrArg (call o) (funext ih)

end Program

/-- The surroundings of programs: how a state answers a call, by a choice, and how it moves. -/
structure World (σ : Type) (Ans : Op → Type) where
  Choice : Type
  answer : σ → (o : Op) → Choice → Option (Ans o × σ)
  Event : Type
  move : σ → Event → Option σ

variable (W : World σ Ans)

/-- The surroundings move any number of times. -/
def Moved : σ → σ → Prop := Relation.ReflTransGen fun s t => ∃ e, W.move s e = some t

/-- The surroundings answer the call that a program makes. -/
def resume (s : σ) (c : W.Choice) : Program Ans α → Option (σ × Program Ans α)
  | .done _ => none
  | .call o next => (W.answer s o c).map fun r => (r.2, next r.1)

variable {W} {legal : σ → Op → Prop} {allowed : σ → Op → W.Choice → Prop}

/-- Whatever the surroundings do, as long as their answers are allowed, every operation is legal
when it is called and what is returned meets `Q`. -/
def Leads (legal : σ → Op → Prop) (allowed : σ → Op → W.Choice → Prop) (Q : α → σ → Prop) :
    Program Ans α → σ → Prop
  | .done a, s => ∀ t, Moved W s t → Q a t
  | .call o next, s => ∀ t, Moved W s t → legal t o ∧
      ∀ c a u, allowed t o c → W.answer t o c = some (a, u) → Leads legal allowed Q (next a) u

variable {Q : α → σ → Prop} {R : β → σ → Prop} {p : Program Ans α} {s t : σ}

/-- Moves of the surroundings make no difference. -/
theorem Leads.moved (h : Leads legal allowed Q p s) (hmoved : Moved W s t) :
    Leads legal allowed Q p t := by
  cases p with
  | done a => exact fun u hu => h u (hmoved.trans hu)
  | call o next => exact fun u hu => h u (hmoved.trans hu)

/-- What is returned is known at the end. -/
theorem Leads.of_done {a : α} (h : Leads legal allowed Q (.done a) s) : Q a s :=
  h s Relation.ReflTransGen.refl

/-- A call is legal when it is made, and each of its answers leads on. -/
theorem Leads.of_call {o : Op} {next : Ans o → Program Ans α}
    (h : Leads legal allowed Q (.call o next) s) : legal s o ∧
      ∀ c a u, allowed s o c → W.answer s o c = some (a, u) → Leads legal allowed Q (next a) u :=
  h s Relation.ReflTransGen.refl

/-- Two programs lead to what the second leads to from whatever the first does. -/
theorem Leads.bind {f : α → Program Ans β} (h : Leads legal allowed Q p s)
    (hf : ∀ a t, Q a t → Leads legal allowed R (f a) t) : Leads legal allowed R (p >>= f) s := by
  induction p generalizing s with
  | done a => exact hf a s h.of_done
  | call o next ih =>
    intro t ht
    obtain ⟨hlegal, hnext⟩ := h t ht
    exact ⟨hlegal, fun c a u hc hanswer => ih a (hnext c a u hc hanswer)⟩

/-- A weaker postcondition. -/
theorem Leads.mono {Q' : α → σ → Prop} (h : Leads legal allowed Q p s)
    (hQ : ∀ a t, Q a t → Q' a t) : Leads legal allowed Q' p s := by
  induction p generalizing s with
  | done a => exact fun t ht => hQ a t (h t ht)
  | call o next ih =>
    intro t ht
    obtain ⟨hlegal, hnext⟩ := h t ht
    exact ⟨hlegal, fun c a u hc hanswer => ih a (hnext c a u hc hanswer)⟩

/-- What the surroundings keep is true whenever they have moved. -/
theorem Moved.invariant {P : σ → Prop} (hstable : ∀ s e t, W.move s e = some t → P s → P t)
    (hmoved : Moved W s t) (hs : P s) : P t := by
  induction hmoved with
  | refl => exact hs
  | tail _ hlast ih =>
    obtain ⟨e, he⟩ := hlast
    exact hstable _ e _ he ih

/-- A value is returned where the postcondition is stable. -/
theorem leads_done {P : σ → Prop} {a : α} (hstable : ∀ s e t, W.move s e = some t → P s → P t)
    (hs : P s) (hQ : ∀ t, P t → Q a t) : Leads legal allowed Q (.done a) s :=
  fun t ht => hQ t (ht.invariant hstable hs)

/-- A call from a stable condition under which it is legal. -/
theorem leads_call {P : σ → Prop} {o : Op} {next : Ans o → Program Ans α}
    (hstable : ∀ s e t, W.move s e = some t → P s → P t) (hs : P s)
    (hlegal : ∀ t, P t → legal t o)
    (hnext : ∀ t, P t → ∀ c a u, allowed t o c → W.answer t o c = some (a, u) →
      Leads legal allowed Q (next a) u) : Leads legal allowed Q (.call o next) s := by
  intro t ht
  have hPt := ht.invariant hstable hs
  exact ⟨hlegal t hPt, hnext t hPt⟩

/-- A loop keeps what each of its passes keeps. -/
theorem leads_forM {γ : Type} {P : σ → Prop} {body : γ → Program Ans PUnit} {items : List γ}
    (hstable : ∀ s e t, W.move s e = some t → P s → P t) (hs : P s)
    (hbody : ∀ item ∈ items, ∀ s, P s → Leads legal allowed (fun _ => P) (body item) s) :
    Leads legal allowed (fun _ => P) (items.forM body) s := by
  induction items generalizing s with
  | nil => exact leads_done hstable hs fun t ht => ht
  | cons item items ih =>
    show Leads legal allowed (fun _ => P) (body item >>= fun _ => items.forM body) s
    refine (hbody item List.mem_cons_self s hs).bind fun _ t ht => ?_
    exact ih ht fun item' hmem => hbody item' (List.mem_cons_of_mem _ hmem)

/-- A loop whose passes each bring about something of their own and keep what the others have. -/
theorem leads_forM_each {γ : Type} {P : σ → Prop} {R : γ → σ → Prop}
    {body : γ → Program Ans PUnit} {items : List γ}
    (hP : ∀ s e t, W.move s e = some t → P s → P t)
    (hR : ∀ item s e t, W.move s e = some t → R item s → R item t) (hs : P s)
    (hbody : ∀ item ∈ items, ∀ s, P s → Leads legal allowed
      (fun _ t => P t ∧ R item t ∧ ∀ other, R other s → R other t) (body item) s) :
    Leads legal allowed (fun _ t => P t ∧ ∀ item ∈ items, R item t) (items.forM body) s := by
  -- what the passes before have brought about is kept beside
  suffices hdone : ∀ done : List γ, (∀ item ∈ done, R item s) → Leads legal allowed
      (fun _ t => P t ∧ (∀ item ∈ done, R item t) ∧ ∀ item ∈ items, R item t)
      (items.forM body) s from
    (hdone [] fun _ h => nomatch h).mono fun _ t h => ⟨h.1, h.2.2⟩
  induction items generalizing s with
  | nil =>
    intro done hdone
    exact leads_done (P := fun t => P t ∧ ∀ item ∈ done, R item t)
      (fun s e t hmove h => ⟨hP s e t hmove h.1, fun item hmem => hR item s e t hmove
        (h.2 item hmem)⟩) ⟨hs, hdone⟩ fun t h => ⟨h.1, h.2, fun _ hmem => nomatch hmem⟩
  | cons item items ih =>
    intro done hdone
    show Leads legal allowed _ (body item >>= fun _ => items.forM body) s
    refine (hbody item List.mem_cons_self s hs).bind fun _ t ht => ?_
    obtain ⟨ht, hitem, hkeep⟩ := ht
    refine (ih ht (fun item' hmem => hbody item' (List.mem_cons_of_mem _ hmem)) (item :: done)
      fun other hmem => ?_).mono fun _ u hu => ⟨hu.1, fun other hmem =>
        hu.2.1 other (List.mem_cons_of_mem _ hmem), fun other hmem => ?_⟩
    · rcases List.mem_cons.mp hmem with rfl | hmem
      · exact hitem
      · exact hkeep other (hdone other hmem)
    · rcases List.mem_cons.mp hmem with rfl | hmem
      · exact hu.2.1 other List.mem_cons_self
      · exact hu.2.2 other hmem

/-- An answer that is allowed leads on. -/
theorem Leads.resume {q : Program Ans α} {c : W.Choice} (h : Leads legal allowed Q p s)
    (hc : ∀ o next, p = .call o next → allowed s o c) (hresume : resume W s c p = some (t, q)) :
    Leads legal allowed Q q t := by
  cases p with
  | done a => cases hresume
  | call o next =>
    obtain ⟨r, hr, heq⟩ := Option.map_eq_some_iff.mp hresume
    obtain ⟨rfl, rfl⟩ := Prod.mk.inj heq
    exact h.of_call.2 c r.1 r.2 (hc o next rfl) hr

/-! ## Programs that raise -/

/-- A program that may raise, and another one if it does not. -/
theorem Leads.bindExcept {ε : Type} {p : ExceptT ε (Program Ans) α}
    {f : α → ExceptT ε (Program Ans) β} {Q : Except ε α → σ → Prop} {R : Except ε β → σ → Prop}
    (h : Leads legal allowed Q p.run s)
    (hok : ∀ a t, Q (.ok a) t → Leads legal allowed R (f a).run t)
    (herror : ∀ e t, Q (.error e) t → Leads legal allowed R (.done (.error e)) t) :
    Leads legal allowed R (p >>= f).run s := by
  apply Leads.bind h
  intro outcome t hQ
  cases outcome with
  | error e => exact herror e t hQ
  | ok a => exact hok a t hQ

/-! ## In any surroundings -/

/-- Whatever is answered, every operation that is called meets `O` and what is returned meets `P`.
-/
def Covers (O : Op → Prop) (P : α → Prop) : Program Ans α → Prop
  | .done a => P a
  | .call o next => O o ∧ ∀ a, Covers O P (next a)

variable {O : Op → Prop} {P : α → Prop} {P' : β → Prop}

theorem Covers.bind {f : α → Program Ans β} (h : Covers O P p)
    (hf : ∀ a, P a → Covers O P' (f a)) : Covers O P' (p >>= f) := by
  induction p with
  | done a => exact hf a h
  | call o next ih => exact ⟨h.1, fun a => ih a (h.2 a)⟩

theorem Covers.mono {P' : α → Prop} (h : Covers O P p) (hP : ∀ a, P a → P' a) :
    Covers O P' p := by
  induction p with
  | done a => exact hP a h
  | call o next ih => exact ⟨h.1, fun a => ih a (h.2 a)⟩

theorem Covers.resume {q : Program Ans α} {c : W.Choice} (h : Covers O P p)
    (hresume : resume W s c p = some (t, q)) : Covers O P q := by
  cases p with
  | done a => cases hresume
  | call o next =>
    obtain ⟨r, -, heq⟩ := Option.map_eq_some_iff.mp hresume
    obtain ⟨-, rfl⟩ := Prod.mk.inj heq
    exact h.2 r.1

/-- In these surroundings too. -/
theorem Covers.leads (h : Covers O P p) (hO : ∀ t o, O o → legal t o) :
    Leads legal allowed (fun a _ => P a) p s := by
  induction p generalizing s with
  | done a => exact fun t _ => h
  | call o next ih => exact fun t _ => ⟨hO t o h.1, fun _ a _ _ _ => ih a (h.2 a)⟩

/-- Nothing is asked. -/
theorem covers_trivial (p : Program Ans α) : Covers (fun _ => True) (fun _ => True) p := by
  induction p with
  | done a => trivial
  | call o next ih => exact ⟨trivial, ih⟩

/-! ## What was answered on the way -/

/-- Whatever is answered, what is returned meets `Q` of the calls with their answers, the last one
first. -/
def Logs (Q : List (Sigma Ans) → α → Prop) : List (Sigma Ans) → Program Ans α → Prop
  | log, .done a => Q log a
  | log, .call o next => ∀ a, Logs Q (⟨o, a⟩ :: log) (next a)

variable {L : List (Sigma Ans) → α → Prop} {L' : List (Sigma Ans) → β → Prop}
  {log : List (Sigma Ans)}

theorem Logs.bind {f : α → Program Ans β} (h : Logs L log p)
    (hf : ∀ log a, L log a → Logs L' log (f a)) : Logs L' log (p >>= f) := by
  induction p generalizing log with
  | done a => exact hf log a h
  | call o next ih => exact fun a => ih a (h a)

/-- What is so of any answers is so of those in the log, which only grows. -/
theorem Covers.logs (h : Covers O P p) (hL : ∀ log', log ⊆ log' → ∀ a, P a → L log' a) :
    Logs L log p := by
  induction p generalizing log with
  | done a => exact hL log (List.Subset.refl log) a h
  | call o next ih =>
    intro a
    refine ih a (h.2 a) fun log' hlog => hL log' fun entry hentry => ?_
    exact hlog (List.mem_cons_of_mem _ hentry)

end Interaction

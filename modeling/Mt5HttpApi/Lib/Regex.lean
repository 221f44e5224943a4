import Mathlib.Data.List.Basic
import Mathlib.Data.List.TakeWhile

/-!
# Regular expressions that backtrack

A pattern as a backtracking matcher runs it: `results` lists every way it matches at a position, the
preferred one first, so what is found is the head of the list. A repetition prefers more of its
characters, an optional part prefers to be there, and assertions take nothing.

`andThen_many` is the rule for a repetition that what follows forces to take all it can: a matcher
then never comes back to it. What follows does so where it is `Stuck`.
-/

namespace Regex

variable {α : Type}

/-- A pattern over characters of a type. -/
inductive Pattern (α : Type)
  /-- One character. -/
  | one (p : α → Bool)
  /-- At least so many characters, as many as there are. -/
  | many (p : α → Bool) (least : ℕ)
  /-- A group with a number. -/
  | group (n : ℕ) (inner : Pattern α)
  | seq (first second : Pattern α)
  | either (first second : Pattern α)
  | optional (inner : Pattern α)
  /-- `(?=...)` -/
  | ahead (inner : Pattern α)
  /-- `(?!...)` -/
  | notAhead (inner : Pattern α)
  /-- The text from here on is such. -/
  | rest (p : List α → Bool)

/-- Where a matcher is: the position, the text from there on, and the groups, the last ones first.
-/
structure State (α : Type) where
  pos : ℕ
  rest : List α
  groups : List (ℕ × ℕ × ℕ)
  deriving DecidableEq

namespace State

/-- Some characters are taken. -/
def advance (s : State α) (n : ℕ) : State α := ⟨s.pos + n, s.rest.drop n, s.groups⟩

/-- A group from `start` on ends here. -/
def capture (s : State α) (n start : ℕ) : State α :=
  { s with groups := (n, start, s.pos) :: s.groups }

/-- Where a group starts and ends. -/
def group (s : State α) (n : ℕ) : Option (ℕ × ℕ) :=
  (s.groups.find? fun g => g.1 = n).map Prod.snd

/-- How many characters of a kind come next. -/
def ahead (s : State α) (p : α → Bool) : ℕ := (s.rest.takeWhile p).length

@[simp]
theorem rest_advance (s : State α) (n : ℕ) : (s.advance n).rest = s.rest.drop n := rfl

theorem advance_zero (s : State α) : s.advance 0 = s := rfl

theorem advance_advance (s : State α) (m n : ℕ) :
    (s.advance m).advance n = s.advance (m + n) := by
  simp only [advance, List.drop_drop, Nat.add_assoc]

@[simp]
theorem rest_capture (s : State α) (n start : ℕ) : (s.capture n start).rest = s.rest := rfl

end State

namespace Pattern

/-- The ways in which a pattern matches, the preferred one first. -/
def results : Pattern α → State α → List (State α)
  | .one p, s =>
    match s.rest with
    | [] => []
    | c :: _ => if p c then [s.advance 1] else []
  | .many p least, s =>
    ((List.range (s.ahead p + 1)).reverse.filter fun n => least ≤ n).map s.advance
  | .group n inner, s => (inner.results s).map fun t => t.capture n s.pos
  | .seq first second, s => (first.results s).flatMap second.results
  | .either first second, s => first.results s ++ second.results s
  | .optional inner, s => inner.results s ++ [s]
  | .ahead inner, s =>
    match inner.results s with
    | [] => []
    | t :: _ => [{ s with groups := t.groups }]
  | .notAhead inner, s => if (inner.results s).isEmpty then [s] else []
  | .rest p, s => if p s.rest then [s] else []

/-- One character of each kind, in order. -/
def word : List (α → Bool) → Pattern α
  | [] => .rest fun _ => true
  | p :: kinds => .seq (.one p) (word kinds)

/-- `pattern.match(text, pos)`: the state at the end of the match. -/
def matchAt (pattern : Pattern α) (text : List α) (pos : ℕ) : Option (State α) :=
  (pattern.results ⟨pos, text.drop pos, []⟩).head?

/-- `pattern.search(text)`: the first position with a match, and the state at its end. -/
def search (pattern : Pattern α) (text : List α) : Option (ℕ × State α) :=
  ((List.range (text.length + 1)).find? fun pos => (pattern.matchAt text pos).isSome).bind
    fun pos => (pattern.matchAt text pos).map fun s => (pos, s)

variable {p : α → Bool} {s : State α} {k : State α → List (State α)}

/-- What follows a pattern, for each way it matches. -/
def andThen (pattern : Pattern α) (k : State α → List (State α)) (s : State α) : List (State α) :=
  (pattern.results s).flatMap k

theorem andThen_seq (first second : Pattern α) (k : State α → List (State α)) :
    (Pattern.seq first second).andThen k = first.andThen (second.andThen k) := by
  ext s
  rw [andThen, results, List.flatMap_assoc]
  rfl

theorem andThen_pure (pattern : Pattern α) : (pattern.andThen fun t => [t]) = pattern.results := by
  ext s
  rw [andThen, List.flatMap_singleton']

theorem results_seq (first second : Pattern α) :
    (Pattern.seq first second).results = first.andThen second.results := by
  ext s
  rfl

theorem andThen_one (p : α → Bool) (k : State α → List (State α)) (s : State α) :
    (Pattern.one p).andThen k s = if s.rest.head?.any p then k (s.advance 1) else [] := by
  rw [andThen, results]
  cases s.rest with
  | nil => rfl
  | cons c rest =>
    rw [List.head?_cons, Option.any_some]
    dsimp only
    split
    next => rw [List.flatMap_singleton]
    next => rfl

theorem andThen_optional (inner : Pattern α) (k : State α → List (State α)) (s : State α) :
    (Pattern.optional inner).andThen k s = inner.andThen k s ++ k s := by
  rw [andThen, results, List.flatMap_append, List.flatMap_singleton, andThen]

/-- Nothing follows where such a character comes next. -/
def Stuck (p : α → Bool) (k : State α → List (State α)) : Prop :=
  ∀ t c rest, t.rest = c :: rest → p c = true → k t = []

/-- Before the end of a run of characters one of them comes next. -/
theorem exists_of_lt_ahead {n : ℕ} (h : n < s.ahead p) :
    ∃ c rest, (s.advance n).rest = c :: rest ∧ p c = true := by
  have hpre : s.rest.takeWhile p <+: s.rest := List.takeWhile_prefix p
  have hlt : n < s.rest.length := lt_of_lt_of_le h hpre.length_le
  refine ⟨s.rest[n], s.rest.drop (n + 1), List.drop_eq_getElem_cons hlt, ?_⟩
  have hget : (s.rest.takeWhile p).get ⟨n, h⟩ = s.rest[n] := hpre.getElem h
  rw [← hget]
  exact List.mem_takeWhile_imp (List.getElem_mem h)

/-- A repetition takes all it can, if nothing follows where it could take more. -/
theorem andThen_many (hstuck : Stuck p k) (least : ℕ) :
    (Pattern.many p least).andThen k s =
      if least ≤ s.ahead p then k (s.advance (s.ahead p)) else [] := by
  have hshorter : (((List.range (s.ahead p)).reverse.filter fun n => least ≤ n).map
      s.advance).flatMap k = [] := by
    rw [List.flatMap_eq_nil_iff]
    intro t ht
    obtain ⟨n, hn, rfl⟩ := List.mem_map.mp ht
    have hlt : n < s.ahead p := by simpa using List.mem_of_mem_filter hn
    obtain ⟨c, rest, hrest, hc⟩ := exists_of_lt_ahead hlt
    exact hstuck _ c rest hrest hc
  rw [andThen, results, List.range_succ, List.reverse_append, List.reverse_singleton,
    List.singleton_append, List.filter_cons]
  split
  next hle =>
    rw [if_pos (of_decide_eq_true hle), List.map_cons, List.flatMap_cons, hshorter, List.append_nil]
  next hgt => rw [if_neg (by simpa using hgt), hshorter]

/-- Every text begins with a run of characters of a kind, perhaps an empty one. -/
theorem exists_run (p : α → Bool) (text : List α) : ∃ run rest, text = run ++ rest ∧
    (∀ c ∈ run, p c = true) ∧ ∀ c ∈ rest.head?, p c = false := by
  refine ⟨text.takeWhile p, text.dropWhile p, List.takeWhile_append_dropWhile.symm,
    fun c hc => List.mem_takeWhile_imp hc, fun c hc => ?_⟩
  have hnot := List.head?_dropWhile_not p text
  rw [Option.mem_def] at hc
  rw [hc] at hnot
  simpa using hnot

section Run

variable {pos : ℕ} {run rest : List α} {groups : List (ℕ × ℕ × ℕ)}

/-- A run that is followed by something else is all that is taken. -/
theorem ahead_append (hrun : ∀ c ∈ run, p c = true) (hrest : ∀ c ∈ rest.head?, p c = false) :
    (State.mk pos (run ++ rest) groups).ahead p = run.length := by
  have hnone : rest.takeWhile p = [] := by
    cases rest with
    | nil => rfl
    | cons c rest =>
      exact List.takeWhile_cons_of_neg (by rw [hrest c rfl]; exact Bool.false_ne_true)
  rw [State.ahead, List.takeWhile_append_of_pos hrun, hnone, List.append_nil]

/-- The repetition takes the run. -/
theorem andThen_many_run (hstuck : Stuck p k) (least : ℕ) (hrun : ∀ c ∈ run, p c = true)
    (hrest : ∀ c ∈ rest.head?, p c = false) :
    (Pattern.many p least).andThen k ⟨pos, run ++ rest, groups⟩ =
      if least ≤ run.length then k ⟨pos + run.length, rest, groups⟩ else [] := by
  rw [andThen_many hstuck, ahead_append hrun hrest, State.advance, List.drop_left]

/-- So does a group that is a repetition. -/
theorem andThen_group_run (n : ℕ) (hstuck : Stuck p k) (least : ℕ)
    (hrun : ∀ c ∈ run, p c = true) (hrest : ∀ c ∈ rest.head?, p c = false) :
    (Pattern.group n (Pattern.many p least)).andThen k ⟨pos, run ++ rest, groups⟩ =
      if least ≤ run.length then
        k ⟨pos + run.length, rest, (n, pos, pos + run.length) :: groups⟩ else [] := by
  have hstuck' : Stuck p fun t => k (t.capture n pos) :=
    fun t c rest hrest hc => hstuck _ c rest hrest hc
  rw [andThen, results, List.flatMap_map]
  exact andThen_many_run hstuck' least hrun hrest

end Run

variable {q : α → Bool}

/-- No character is of both kinds. -/
def Apart (p q : α → Bool) : Prop := ∀ c, p c = true → q c = false

theorem stuck_one (h : Apart p q) : Stuck p ((Pattern.one q).andThen k) := by
  intro t c rest hrest hc
  rw [andThen_one, hrest, List.head?_cons, Option.any_some, h c hc]
  rfl

/-- A character of the other kind does not come next. -/
theorem ahead_eq_zero (h : Apart p q) {c : α} {rest : List α} (hrest : s.rest = c :: rest)
    (hc : p c = true) : s.ahead q = 0 := by
  rw [State.ahead, hrest, List.takeWhile_cons_of_neg (by rw [h c hc]; exact Bool.false_ne_true)]
  rfl

/-- What a repetition may skip, it skips. -/
theorem stuck_many (h : Apart p q) (hq : Stuck q k) (hp : Stuck p k) :
    Stuck p ((Pattern.many q 0).andThen k) := by
  intro t c rest hrest hc
  rw [andThen_many hq, if_pos (Nat.zero_le _), ahead_eq_zero h hrest hc, State.advance_zero]
  exact hp t c rest hrest hc

theorem stuck_group_many (h : Apart p q) (hq : Stuck q k) (n : ℕ) :
    Stuck p ((Pattern.group n (Pattern.many q 1)).andThen k) := by
  intro t c rest hrest hc
  obtain ⟨pos, text, groups⟩ := t
  obtain rfl : text = c :: rest := hrest
  have hnot : ∀ d ∈ (c :: rest).head?, q d = false := fun d hd => by
    rw [← Option.some.inj hd]
    exact h c hc
  rw [← List.nil_append (c :: rest),
    andThen_group_run n hq 1 (fun d hd => absurd hd List.not_mem_nil) hnot]
  rfl

/-- The text begins with one character of each kind. -/
def spells : List (α → Bool) → List α → Bool
  | [], _ => true
  | _ :: _, [] => false
  | p :: kinds, c :: text => p c && spells kinds text

theorem results_word (kinds : List (α → Bool)) (s : State α) :
    (word kinds).results s = if spells kinds s.rest then [s.advance kinds.length] else [] := by
  induction kinds generalizing s with
  | nil =>
    rw [word, results, spells]
    rfl
  | cons p kinds ih =>
    rw [word, results, results]
    cases hrest : s.rest with
    | nil => rfl
    | cons c text =>
      have hnext : (s.advance 1).rest = text := by rw [State.rest_advance, hrest]; rfl
      dsimp only
      rw [spells]
      cases hc : p c with
      | false => rfl
      | true =>
        rw [if_pos rfl, List.flatMap_singleton, ih, hnext, State.advance_advance,
          List.length_cons, Nat.add_comm 1, Bool.true_and]

/-- What is found is at the first position with a match. -/
theorem search_eq_some_iff {pattern : Pattern α} {text : List α} {pos : ℕ} {s : State α} :
    pattern.search text = some (pos, s) ↔ pattern.matchAt text pos = some s ∧
      pos ≤ text.length ∧ ∀ n < pos, pattern.matchAt text n = none := by
  rw [search, Option.bind_eq_some_iff]
  simp only [List.find?_range_eq_some, List.mem_range, Bool.not_eq_true',
    Option.isSome_eq_false_iff, Option.isNone_iff_eq_none]
  constructor
  · rintro ⟨n, ⟨-, hle, hbefore⟩, hmap⟩
    obtain ⟨t, ht, heq⟩ := Option.map_eq_some_iff.mp hmap
    obtain ⟨rfl, rfl⟩ := Prod.mk.inj heq
    exact ⟨ht, by omega, hbefore⟩
  · rintro ⟨hmatch, hle, hbefore⟩
    exact ⟨pos, ⟨by rw [hmatch]; rfl, by omega, hbefore⟩, by rw [hmatch]; rfl⟩

end Pattern

end Regex

import Mathlib.Data.List.Infix

/-!
# File name patterns

Python's `fnmatch`: `*`, `?` and classes in brackets. Whether a character is in a class, and which
characters are one regardless of case, are `Rules`. `globMatches_star` says what a pattern with one
star and no other wildcard matches.
-/

namespace Glob

/-- Which characters are the same, and what a class has in it. -/
structure Rules where
  /-- Characters that are the same regardless of case have one image. -/
  fold : Char → Char
  /-- `[stuff]` has the character. -/
  inClass : List Char → Char → Bool
  /-- A dot has no case. -/
  dot : ∀ c, fold c = fold '.' → c = '.'

/-- A part of a pattern. -/
inductive Token
  | star
  | any
  | cls (stuff : List Char)
  | lit (c : Char)
  deriving DecidableEq, Repr

/-- The class after an opening bracket, and what follows it. A bracket that closes nothing belongs
to the class when it is its first character. -/
def scanClass (text : List Char) : Option (List Char × List Char) :=
  let bang := text.takeWhile (· = '!') |>.take 1
  let rest := text.drop bang.length
  let first := rest.takeWhile (· = ']') |>.take 1
  let more := rest.drop first.length
  match more.dropWhile (· ≠ ']') with
  | _ :: after => some (bang ++ first ++ more.takeWhile (· ≠ ']'), after)
  | [] => none

/-- The parts of a pattern; each uses at least one character. -/
def tokensOf : ℕ → List Char → List Token
  | 0, _ => []
  | _, [] => []
  | n + 1, '*' :: rest => .star :: tokensOf n rest
  | n + 1, '?' :: rest => .any :: tokensOf n rest
  | n + 1, '[' :: rest =>
    match scanClass rest with
    | some (stuff, after) => .cls stuff :: tokensOf n after
    | none => .lit '[' :: tokensOf n rest
  | n + 1, c :: rest => .lit c :: tokensOf n rest

/-- `fnmatch.translate`. -/
def tokens (pattern : List Char) : List Token := tokensOf pattern.length pattern

/-- The whole name is matched. -/
def matchTokens (rules : Rules) : List Token → List Char → Bool
  | [], name => name.isEmpty
  | .star :: rest, name => name.tails.any (matchTokens rules rest)
  | .any :: _, [] => false
  | .any :: rest, _ :: name => matchTokens rules rest name
  | .cls _ :: _, [] => false
  | .cls stuff :: rest, c :: name => rules.inClass stuff c && matchTokens rules rest name
  | .lit _ :: _, [] => false
  | .lit d :: rest, c :: name => (rules.fold c == rules.fold d) && matchTokens rules rest name

/-- Two stars in a row. -/
def doubleStar : List Char → Bool
  | '*' :: '*' :: _ => true
  | _ :: rest => doubleStar rest
  | [] => false

/-- A pattern for one file name: it has no separator, no drive and no `**`. -/
def oneComponent (pattern : List Char) : Bool :=
  '/' ∉ pattern && '\\' ∉ pattern && pattern[1]? ≠ some ':' && !doubleStar pattern

/-- Whether `directory.glob(pattern)` finds a file of that name in the directory itself. -/
def globMatches (rules : Rules) (pattern name : List Char) : Bool :=
  oneComponent pattern && matchTokens rules (tokens pattern) name

/-- A text without wildcards. -/
def Literal (text : List Char) : Prop := ∀ c ∈ text, c ≠ '*' ∧ c ≠ '?' ∧ c ≠ '['

instance : DecidablePred Literal := fun text =>
  List.decidableBAll (fun c => c ≠ '*' ∧ c ≠ '?' ∧ c ≠ '[') text

variable {rules : Rules} {text rest name pattern : List Char}

/-- Regardless of case. -/
def Same (rules : Rules) (a b : List Char) : Prop := a.map rules.fold = b.map rules.fold

instance (rules : Rules) (a b : List Char) : Decidable (Same rules a b) :=
  inferInstanceAs (Decidable (_ = _))

theorem Same.length {a b : List Char} (h : Same rules a b) : a.length = b.length := by
  have hlength := congrArg List.length h
  rwa [List.length_map, List.length_map] at hlength

/-- Without wildcards each character is a part. -/
theorem tokensOf_literal (h : Literal text) (n : ℕ) (rest : List Char) :
    tokensOf (text.length + n) (text ++ rest) = text.map .lit ++ tokensOf n rest := by
  induction text with
  | nil => simp
  | cons c text ih =>
    obtain ⟨⟨hstar, hany, hclass⟩, htext⟩ := List.forall_mem_cons.mp h
    have hlength : (c :: text).length + n = (text.length + n) + 1 := by
      rw [List.length_cons]
      omega
    rw [hlength, List.cons_append, tokensOf]
    · rw [ih htext, List.map_cons, List.cons_append]
    all_goals
      rintro rfl
      contradiction

theorem tokens_star {before after : List Char} (hbefore : Literal before) (hafter : Literal after) :
    tokens (before ++ '*' :: after) = before.map .lit ++ .star :: after.map .lit := by
  have hlength : (before ++ '*' :: after).length = before.length + (after.length + 1) := by
    rw [List.length_append, List.length_cons]
  have hrest : tokensOf (after.length + 1) ('*' :: after) = .star :: after.map .lit := by
    have htokens := tokensOf_literal hafter 0 []
    rw [List.append_nil, Nat.add_zero, tokensOf, List.append_nil] at htokens
    rw [tokensOf, htokens]
  rw [tokens, hlength, tokensOf_literal hbefore, hrest]

theorem doubleStar_of_literal {before after : List Char} (hbefore : Literal before)
    (hafter : Literal after) : doubleStar (before ++ '*' :: after) = false := by
  have hrest : ∀ text : List Char, Literal text → doubleStar text = false := by
    intro text h
    induction text with
    | nil => rfl
    | cons c text ih =>
      obtain ⟨hc, htext⟩ := List.forall_mem_cons.mp h
      rw [doubleStar]
      · exact ih htext
      · rintro _ rfl
        exact absurd rfl hc.1
  induction before with
  | nil =>
    rw [List.nil_append, doubleStar]
    · exact hrest after hafter
    · rintro tail - rfl
      exact absurd rfl (hafter '*' List.mem_cons_self).1
  | cons c before ih =>
    obtain ⟨hc, htext⟩ := List.forall_mem_cons.mp hbefore
    rw [List.cons_append, doubleStar]
    · exact ih htext
    · rintro _ rfl
      exact absurd rfl hc.1

theorem matchTokens_literal (tokens : List Token) :
    matchTokens rules (text.map .lit ++ tokens) name = true ↔
      ∃ front back, name = front ++ back ∧ Same rules front text ∧
        matchTokens rules tokens back = true := by
  induction text generalizing name with
  | nil =>
    constructor
    · exact fun h => ⟨[], name, rfl, rfl, h⟩
    · rintro ⟨front, back, rfl, hsame, h⟩
      obtain rfl := List.length_eq_zero_iff.mp hsame.length
      exact h
  | cons d text ih =>
    rw [List.map_cons, List.cons_append]
    cases name with
    | nil =>
      rw [matchTokens]
      constructor
      · exact fun h => absurd h (by decide)
      · rintro ⟨front, back, hname, hsame, -⟩
        obtain ⟨rfl, -⟩ := List.append_eq_nil_iff.mp hname.symm
        exact absurd hsame.length (by simp)
    | cons c name =>
      rw [matchTokens, Bool.and_eq_true, beq_iff_eq, ih]
      constructor
      · rintro ⟨hc, front, back, rfl, hsame, h⟩
        refine ⟨c :: front, back, rfl, ?_, h⟩
        unfold Same at hsame ⊢
        rw [List.map_cons, List.map_cons, hc, hsame]
      · rintro ⟨front, back, hname, hsame, h⟩
        cases front with
        | nil => exact absurd hsame.length (by simp)
        | cons e front =>
          obtain ⟨rfl, rfl⟩ := List.cons.inj hname
          obtain ⟨hc, hrest⟩ := List.cons.inj hsame
          exact ⟨hc, front, back, rfl, hrest, h⟩

/-- A pattern with one star matches what begins and ends as it does. -/
theorem globMatches_star {before after : List Char} (hbefore : Literal before)
    (hafter : Literal after) : globMatches rules (before ++ '*' :: after) name = true ↔
      oneComponent (before ++ '*' :: after) = true ∧ ∃ front middle back,
        name = front ++ (middle ++ back) ∧ Same rules front before ∧ Same rules back after := by
  rw [globMatches, Bool.and_eq_true, tokens_star hbefore hafter, matchTokens_literal]
  refine and_congr_right fun _ => ?_
  have hback : ∀ back, matchTokens rules (.star :: after.map .lit) back = true ↔
      ∃ middle last, back = middle ++ last ∧ Same rules last after := by
    intro back
    rw [matchTokens, List.any_eq_true]
    constructor
    · rintro ⟨last, htail, hmatch⟩
      rw [← List.append_nil (after.map Token.lit), matchTokens_literal] at hmatch
      obtain ⟨front, rest, rfl, hsame, hrest⟩ := hmatch
      rw [matchTokens, List.isEmpty_iff] at hrest
      obtain ⟨middle, hmiddle⟩ := (List.mem_tails _ _).mp htail
      rw [hrest, List.append_nil] at hmiddle
      exact ⟨middle, front, hmiddle.symm, hsame⟩
    · rintro ⟨middle, last, rfl, hsame⟩
      refine ⟨last, (List.mem_tails _ _).mpr (List.suffix_append middle last), ?_⟩
      rw [← List.append_nil (after.map Token.lit), matchTokens_literal]
      exact ⟨last, [], by rw [List.append_nil], hsame, rfl⟩
  constructor
  · rintro ⟨front, rest, rfl, hfront, hrest⟩
    obtain ⟨middle, last, rfl, hlast⟩ := (hback rest).mp hrest
    exact ⟨front, middle, last, rfl, hfront, hlast⟩
  · rintro ⟨front, middle, last, rfl, hfront, hlast⟩
    exact ⟨front, middle ++ last, rfl, hfront, (hback _).mpr ⟨middle, last, rfl, hlast⟩⟩

end Glob

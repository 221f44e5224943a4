import Mt5HttpApi.Lib.JsonPieces
import Mt5HttpApi.Lib.Regex

/-!
# The interactive desktop heap in the registry value

`scripts/desktop_heap.py`: `raised_shared_section` finds the second number after `SharedSection=`
with two regular expressions and puts the target in its place. `raisedSharedSection_spec` says what
it makes of any value: a refusal, nothing to do, or the value with another number in the place of
that one, which it then finds large enough. `SecondField` says which number that is.
-/

namespace DesktopHeap

open Regex Utf8

/-- A Python string. -/
abbrev Str := List CodePoint

/-- The decimal digits of Unicode, by its documentation: those of ASCII are digits, no other
character of ASCII is one, and white space is none. -/
structure Decimals where
  value : Char → Option ℕ
  ascii : ∀ c, c.toNat < 128 → value c = PyInt.asciiDecimal c
  space : ∀ c, Text.isSpace c = true → value c = none

/-- A test of characters, which no surrogate passes. -/
def lift (p : Char → Bool) : CodePoint → Bool
  | .scalar c => p c
  | .surrogate _ => false

/-- `\s` -/
def isSpace : CodePoint → Bool := lift Text.isSpace

/-- The character of a pattern, whatever its case. Two letters of ASCII have other forms as well. -/
def ignoresCase (c d : Char) : Bool :=
  d.toLower = c.toLower ∨ (c = 'i' ∧ (d = '\u0130' ∨ d = '\u0131')) ∨
    ((c = 'S' ∨ c = 's') ∧ d = '\u017F')

/-- `SharedSection=`, as `re.IGNORECASE` takes it. -/
def keyKinds : List (CodePoint → Bool) :=
  "SharedSection=".toList.map fun c => lift (ignoresCase c)

/-- `_SHARED_SECTION_KEY` -/
def sharedSectionKey : Pattern CodePoint := Pattern.word keyKinds

/-- `\s*` -/
def spaces : Pattern CodePoint := .many isSpace 0

def isComma : CodePoint → Bool := lift (· = ',')

variable (u : Decimals)

/-- `\d` -/
def isDecimal : CodePoint → Bool := lift fun c => (u.value c).isSome

/-- `(\d+)` -/
def digits (n : ℕ) : Pattern CodePoint := .group n (.many (isDecimal u) 1)

/-- `(?:\s*,\s*(\d+))?` -/
def thirdField : Pattern CodePoint :=
  .optional (.seq spaces (.seq (.one isComma) (.seq spaces (digits u 3))))

/-- `(?!\s*,)(?=\s|$)`. The end of the text is also before a newline that ends it. -/
def closing : Pattern CodePoint :=
  .seq (.notAhead (.seq spaces (.one isComma)))
    (.ahead (.either (.one isSpace) (.rest fun rest => rest = [] ∨ rest = [.scalar '\n'])))

/-- `_FIELDS` -/
def fieldsPattern : Pattern CodePoint :=
  .seq spaces (.seq (digits u 1) (.seq spaces (.seq (.one isComma)
    (.seq spaces (.seq (digits u 2) (.seq (thirdField u) closing))))))

/-- Why a value is refused: each is a `ValueError`. -/
inductive Refusal
  | noSection
  | badFields (fields : Str)
  | tooManyDigits
  deriving DecidableEq

/-- The text of a refusal, where the script writes it. -/
def Refusal.text : Refusal → Option Str
  | .noSection =>
    some ("no SharedSection= in the Windows subsystem value".toList.map .scalar)
  | .badFields fields =>
    some ("SharedSection fields are not two or three unsigned integers: ".toList.map .scalar ++
      fields)
  | .tooManyDigits => none

/-- `_interactive_field`. -/
def interactiveField (value : Str) : Except Refusal (State CodePoint) :=
  match sharedSectionKey.search value with
  | none => .error .noSection
  | some (start, key) =>
    match (fieldsPattern u).matchAt value key.pos with
    | none => .error (.badFields ((value.drop start).takeWhile fun c => c ≠ .scalar ' '))
    | some fields => .ok fields

/-- The value of a digit. -/
def digitValue (c : CodePoint) : ℕ :=
  match c with
  | .scalar c => (u.value c).getD 0
  | .surrogate _ => 0

/-- The number that digits stand for. -/
def number (text : Str) : ℕ := text.foldl (fun value c => 10 * value + digitValue u c) 0

/-- `int` of a text of digits. -/
def intOf (text : Str) : Except Refusal ℕ :=
  if text.length ≤ PyInt.maxDigits then .ok (number u text) else .error .tooManyDigits

/-- `str` of an integer. -/
def strOf (n : ℤ) : Except Refusal Str :=
  if (Nat.toDigits 10 n.natAbs).length ≤ PyInt.maxDigits then
    .ok ((JsonLoads.intText n).map .scalar)
  else .error .tooManyDigits

/-- `raised_shared_section`. -/
def raisedSharedSection (value : Str) (target : ℤ) : Except Refusal (Option Str) := do
  let fields ← interactiveField u value
  let (start, stop) := (fields.group 2).getD (0, 0)
  let current ← intOf u ((value.take stop).drop start)
  if target ≤ current then .ok none
  else
    let written ← strOf target
    .ok (some (value.take start ++ written ++ value.drop stop))

/-! ### Which number it is -/

/-- What may come after the fields: white space or nothing, and no comma after white space. -/
structure Closes (rest : Str) : Prop where
  ends : ∀ c ∈ rest.head?, isSpace c = true
  noComma : ∀ c ∈ (rest.dropWhile isSpace).head?, isComma c = false

/-- What may come after the second field: perhaps a third one. -/
inductive Follows : Str → Prop
  | two {rest : Str} (h : Closes rest) : Follows rest
  | three {s₁ s₂ third rest : Str} {comma : CodePoint} (hs₁ : ∀ c ∈ s₁, isSpace c = true)
      (hcomma : isComma comma = true) (hs₂ : ∀ c ∈ s₂, isSpace c = true)
      (hthird : third ≠ [] ∧ ∀ c ∈ third, isDecimal u c = true) (h : Closes rest) :
      Follows (s₁ ++ comma :: (s₂ ++ (third ++ rest)))

/-- The first `SharedSection=` of the value is `key`, after `front`. -/
structure FirstKey (value front key : Str) : Prop where
  length : key.length = keyKinds.length
  spells : Pattern.spells keyKinds key = true
  first : ∀ n < front.length, Pattern.spells keyKinds (value.drop n) = false

/-- What is between the key and the second field: the first one and a comma. -/
structure Leads (lead : Str) : Prop where
  eq : ∃ s₁ first s₂ comma s₃, lead = s₁ ++ (first ++ (s₂ ++ comma :: s₃)) ∧
    (∀ c ∈ s₁, isSpace c = true) ∧ (first ≠ [] ∧ ∀ c ∈ first, isDecimal u c = true) ∧
    (∀ c ∈ s₂, isSpace c = true) ∧ isComma comma = true ∧ ∀ c ∈ s₃, isSpace c = true

/-- The second number after the first `SharedSection=` of a value whose fields are well formed. -/
structure SecondField (value before field after : Str) : Prop where
  eq : value = before ++ (field ++ after)
  before : ∃ front key lead, before = front ++ (key ++ lead) ∧ FirstKey value front key ∧
    Leads u lead
  field : field ≠ [] ∧ ∀ c ∈ field, isDecimal u c = true
  follows : Follows u after

/-! ### What the pattern matches -/

variable {u}

theorem apart_decimal_space : Pattern.Apart (isDecimal u) isSpace := by
  intro c hc
  cases c with
  | surrogate n => rfl
  | scalar c =>
    by_contra hspace
    have hnone := u.space c (by simpa [isSpace, lift] using hspace)
    change (u.value c).isSome = true at hc
    rw [hnone] at hc
    cases hc

theorem apart_space_decimal : Pattern.Apart isSpace (isDecimal u) := by
  intro c hc
  by_contra hdecimal
  rw [apart_decimal_space c (by simpa using hdecimal)] at hc
  cases hc

theorem eq_comma {c : CodePoint} (h : isComma c = true) : c = .scalar ',' := by
  cases c with
  | surrogate n => cases h
  | scalar c => exact congrArg _ (of_decide_eq_true h)

theorem apart_space_comma : Pattern.Apart isSpace isComma := by
  intro c hc
  by_contra hcomma
  obtain rfl := @eq_comma c (by simpa using hcomma)
  exact absurd hc (by decide)

theorem not_isDecimal_comma : isDecimal u (.scalar ',') = false := by
  change (u.value ',').isSome = false
  rw [u.ascii ',' (by decide)]
  rfl

theorem apart_decimal_comma : Pattern.Apart (isDecimal u) isComma := by
  intro c hc
  by_contra hcomma
  obtain rfl := @eq_comma c (by simpa using hcomma)
  rw [not_isDecimal_comma] at hc
  cases hc

instance (rest : Str) : Decidable (Closes rest) :=
  decidable_of_iff ((∀ c ∈ rest.head?, isSpace c = true) ∧
      ∀ c ∈ (rest.dropWhile isSpace).head?, isComma c = false)
    ⟨fun h => ⟨h.1, h.2⟩, fun h => ⟨h.1, h.2⟩⟩

variable {k : State CodePoint → List (State CodePoint)} {s : State CodePoint}

/-- The assertions at the end. -/
theorem results_closing (s : State CodePoint) :
    closing.results s = if Closes s.rest then [s] else [] := by
  have hone : Pattern.Stuck isSpace (Pattern.one isComma).results := by
    rw [← Pattern.andThen_pure]
    exact Pattern.stuck_one apart_space_comma
  have hends : (Pattern.ahead (.either (.one isSpace)
      (.rest fun rest => rest = [] ∨ rest = [.scalar '\n']))).results s =
        if ∀ c ∈ s.rest.head?, isSpace c = true then [s] else [] := by
    rw [Pattern.results, Pattern.results, ← Pattern.andThen_pure, Pattern.andThen_one,
      Pattern.results]
    obtain ⟨pos, rest, groups⟩ := s
    cases rest with
    | nil => simp
    | cons c rest =>
      cases hc : isSpace c with
      | true => simp [hc, State.advance]
      | false =>
        -- a newline is white space
        have hne : c :: rest ≠ [.scalar '\n'] := by
          rintro heq
          obtain ⟨rfl, -⟩ := List.cons.inj heq
          exact absurd hc (by decide)
        simp [hc, hne]
  have hcomma : ((Pattern.seq spaces (.one isComma)).results s).isEmpty =
      decide (∀ c ∈ (s.rest.dropWhile isSpace).head?, isComma c = false) := by
    obtain ⟨pos, text, groups⟩ := s
    obtain ⟨run, rest, rfl, hrun, hrest⟩ := Pattern.exists_run isSpace text
    have hdrop : (run ++ rest).dropWhile isSpace = rest := by
      rw [List.dropWhile_append_of_pos hrun]
      cases rest with
      | nil => rfl
      | cons c rest =>
        exact List.dropWhile_cons_of_neg (by rw [hrest c rfl]; exact Bool.false_ne_true)
    rw [Pattern.results_seq, spaces, Pattern.andThen_many_run hone 0 hrun hrest,
      if_pos (Nat.zero_le _), ← Pattern.andThen_pure, Pattern.andThen_one, hdrop]
    cases rest with
    | nil => rfl
    | cons c rest => cases hc : isComma c <;> simp [hc]
  rw [closing, Pattern.results_seq, Pattern.andThen, Pattern.results, hcomma]
  by_cases hnext : ∀ c ∈ (s.rest.dropWhile isSpace).head?, isComma c = false
  · rw [if_pos (decide_eq_true hnext), List.flatMap_singleton, hends]
    exact if_congr ⟨fun h => ⟨h, hnext⟩, fun h => h.ends⟩ rfl rfl
  · rw [if_neg (by simpa using hnext), if_neg fun h => hnext h.noComma]
    rfl

/-- A digit does not close the fields. -/
theorem stuck_closing : Pattern.Stuck (isDecimal u) closing.results := by
  intro t c rest hrest hc
  rw [results_closing, if_neg]
  intro h
  have hspace := h.ends c (by rw [hrest]; rfl)
  rw [apart_decimal_space c hc] at hspace
  cases hspace

theorem stuck_comma_space : Pattern.Stuck isSpace ((Pattern.one isComma).andThen k) :=
  Pattern.stuck_one apart_space_comma

theorem stuck_comma_decimal : Pattern.Stuck (isDecimal u) ((Pattern.one isComma).andThen k) :=
  Pattern.stuck_one apart_decimal_comma

theorem stuck_digits (n : ℕ) (hk : Pattern.Stuck (isDecimal u) k) :
    Pattern.Stuck isSpace ((digits u n).andThen k) :=
  Pattern.stuck_group_many apart_space_decimal hk n

theorem stuck_spaces_comma :
    Pattern.Stuck (isDecimal u) (spaces.andThen ((Pattern.one isComma).andThen k)) :=
  Pattern.stuck_many apart_decimal_space stuck_comma_space stuck_comma_decimal

section Steps

variable {pos : ℕ} {run rest : Str} {groups : List (ℕ × ℕ × ℕ)}

theorem andThen_spaces (hk : Pattern.Stuck isSpace k) (hrun : ∀ c ∈ run, isSpace c = true)
    (hrest : ∀ c ∈ rest.head?, isSpace c = false) :
    spaces.andThen k ⟨pos, run ++ rest, groups⟩ = k ⟨pos + run.length, rest, groups⟩ := by
  rw [spaces, Pattern.andThen_many_run hk 0 hrun hrest, if_pos (Nat.zero_le _)]

theorem andThen_digits (n : ℕ) (hk : Pattern.Stuck (isDecimal u) k)
    (hrun : ∀ c ∈ run, isDecimal u c = true) (hrest : ∀ c ∈ rest.head?, isDecimal u c = false) :
    (digits u n).andThen k ⟨pos, run ++ rest, groups⟩ = if run = [] then [] else
      k ⟨pos + run.length, rest, (n, pos, pos + run.length) :: groups⟩ := by
  rw [digits, Pattern.andThen_group_run n hk 1 hrun hrest]
  cases run with
  | nil => rfl
  | cons c run => rw [if_pos (by rw [List.length_cons]; omega), if_neg (List.cons_ne_nil _ _)]

theorem andThen_comma {c : CodePoint} (hc : isComma c = true) :
    (Pattern.one isComma).andThen k ⟨pos, c :: rest, groups⟩ = k ⟨pos + 1, rest, groups⟩ := by
  rw [Pattern.andThen_one, List.head?_cons, Option.any_some, if_pos hc]
  rfl

theorem andThen_no_comma (h : ∀ c ∈ rest.head?, isComma c = false) :
    (Pattern.one isComma).andThen k ⟨pos, rest, groups⟩ = [] := by
  rw [Pattern.andThen_one]
  cases rest with
  | nil => rfl
  | cons c rest =>
    rw [List.head?_cons, Option.any_some, h c rfl]
    rfl

end Steps

theorem Closes.not_isDecimal {rest : Str} (h : Closes rest) :
    ∀ c ∈ rest.head?, isDecimal u c = false :=
  fun c hc => apart_space_decimal c (h.ends c hc)

theorem comma_head {comma : CodePoint} (h : isComma comma = true) (rest : Str) :
    (∀ c ∈ (comma :: rest).head?, isSpace c = false) ∧
      ∀ c ∈ (comma :: rest).head?, isDecimal u c = false := by
  obtain rfl := eq_comma h
  refine ⟨fun c hc => ?_, fun c hc => ?_⟩
  · rw [← Option.some.inj hc]
    decide
  · rw [← Option.some.inj hc]
    exact not_isDecimal_comma

/-- Digits are not white space. -/
theorem digits_head {field : Str} (h : field ≠ [] ∧ ∀ c ∈ field, isDecimal u c = true)
    (rest : Str) : ∀ c ∈ (field ++ rest).head?, isSpace c = false := by
  obtain ⟨d, more, rfl⟩ := List.exists_cons_of_ne_nil h.1
  intro c hc
  rw [← Option.some.inj hc]
  exact apart_decimal_space d (h.2 d List.mem_cons_self)

/-- White space is not digits. -/
theorem spaces_head {spaces rest : Str} (hspaces : ∀ c ∈ spaces, isSpace c = true)
    (hrest : ∀ c ∈ rest.head?, isDecimal u c = false) :
    ∀ c ∈ (spaces ++ rest).head?, isDecimal u c = false := by
  cases spaces with
  | nil => exact hrest
  | cons d more =>
    intro c hc
    rw [← Option.some.inj hc]
    exact apart_space_decimal d (hspaces d List.mem_cons_self)

theorem dropWhile_spaces {spaces rest : Str} (hspaces : ∀ c ∈ spaces, isSpace c = true)
    (hrest : ∀ c ∈ rest.head?, isSpace c = false) : (spaces ++ rest).dropWhile isSpace = rest := by
  rw [List.dropWhile_append_of_pos hspaces]
  cases rest with
  | nil => rfl
  | cons c rest =>
    exact List.dropWhile_cons_of_neg (by rw [hrest c rfl]; exact Bool.false_ne_true)

/-- Nothing that may follow a field makes it longer. -/
theorem Follows.not_isDecimal {after : Str} (h : Follows u after) :
    ∀ c ∈ after.head?, isDecimal u c = false := by
  cases h with
  | two h => exact h.not_isDecimal
  | three hs₁ hcomma hs₂ hthird h => exact spaces_head hs₁ (comma_head hcomma _).2

variable (u) in
/-- What follows the second field. -/
def tail : State CodePoint → List (State CodePoint) := (thirdField u).andThen closing.results

/-- After a comma there is a third field, or no match. -/
theorem tail_comma {pos : ℕ} {s₁ rest : Str} {comma : CodePoint} {groups : List (ℕ × ℕ × ℕ)}
    (hs₁ : ∀ c ∈ s₁, isSpace c = true) (hcomma : isComma comma = true) :
    tail u ⟨pos, s₁ ++ comma :: rest, groups⟩ = spaces.andThen ((digits u 3).andThen
      closing.results) ⟨pos + s₁.length + 1, rest, groups⟩ := by
  have hnot : ¬ Closes (s₁ ++ comma :: rest) := by
    intro h
    have hno := h.noComma
    rw [dropWhile_spaces hs₁ (comma_head (u := u) hcomma rest).1] at hno
    rw [hno comma rfl] at hcomma
    cases hcomma
  rw [tail, thirdField, Pattern.andThen_optional, results_closing, if_neg hnot, List.append_nil,
    Pattern.andThen_seq, Pattern.andThen_seq, Pattern.andThen_seq,
    andThen_spaces stuck_comma_space hs₁ (comma_head (u := u) hcomma rest).1, andThen_comma hcomma]

/-- Without one there is none. -/
theorem tail_no_comma {pos : ℕ} {s₁ rest : Str} {groups : List (ℕ × ℕ × ℕ)}
    (hs₁ : ∀ c ∈ s₁, isSpace c = true) (hspace : ∀ c ∈ rest.head?, isSpace c = false)
    (hcomma : ∀ c ∈ rest.head?, isComma c = false) :
    tail u ⟨pos, s₁ ++ rest, groups⟩ = closing.results ⟨pos, s₁ ++ rest, groups⟩ := by
  rw [tail, thirdField, Pattern.andThen_optional, Pattern.andThen_seq, Pattern.andThen_seq,
    Pattern.andThen_seq, andThen_spaces stuck_comma_space hs₁ hspace, andThen_no_comma hcomma,
    List.nil_append]

theorem stuck_tail : Pattern.Stuck (isDecimal u) (tail u) := by
  rintro ⟨pos, text, groups⟩ c rest hrest hc
  obtain rfl : text = c :: rest := hrest
  have hspace : ∀ d ∈ (c :: rest).head?, isSpace d = false := fun d hd => by
    rw [← Option.some.inj hd]
    exact apart_decimal_space c hc
  have hcomma : ∀ d ∈ (c :: rest).head?, isComma d = false := fun d hd => by
    rw [← Option.some.inj hd]
    exact apart_decimal_comma c hc
  have htail := @tail_no_comma u pos [] (c :: rest) groups
    (fun d hd => absurd hd List.not_mem_nil) hspace hcomma
  rw [List.nil_append] at htail
  rw [htail]
  exact stuck_closing _ c rest rfl hc

theorem tail_complete {pos : ℕ} {after : Str} {groups : List (ℕ × ℕ × ℕ)} (h : Follows u after) :
    ∃ t, tail u ⟨pos, after, groups⟩ = [t] ∧ t.group 2 = (State.mk pos after groups).group 2 := by
  cases h with
  | two h =>
    obtain ⟨run, rest, rfl, hrun, hrest⟩ := Pattern.exists_run isSpace after
    have hcomma := h.noComma
    rw [dropWhile_spaces hrun hrest] at hcomma
    rw [tail_no_comma hrun hrest hcomma, results_closing, if_pos h]
    exact ⟨_, rfl, rfl⟩
  | @three s₁ s₂ third rest comma hs₁ hcomma hs₂ hthird h =>
    rw [tail_comma hs₁ hcomma,
      andThen_spaces (stuck_digits 3 stuck_closing) hs₂ (digits_head hthird rest),
      andThen_digits 3 stuck_closing hthird.2 h.not_isDecimal, if_neg hthird.1, results_closing,
      if_pos h]
    exact ⟨_, rfl, rfl⟩

theorem tail_sound {pos : ℕ} {after : Str} {groups : List (ℕ × ℕ × ℕ)} {t : State CodePoint}
    {more : List (State CodePoint)} (h : tail u ⟨pos, after, groups⟩ = t :: more) :
    Follows u after := by
  obtain ⟨s₁, rest, rfl, hs₁, hrest⟩ := Pattern.exists_run isSpace after
  by_cases hcomma : ∀ c ∈ rest.head?, isComma c = false
  · rw [tail_no_comma hs₁ hrest hcomma, results_closing] at h
    split at h
    next hcloses => exact .two hcloses
    next => cases h
  · push Not at hcomma
    obtain ⟨comma, hhead, hcomma⟩ := hcomma
    obtain ⟨rest, rfl⟩ := List.head?_eq_some_iff.mp hhead
    rw [Bool.ne_false_iff] at hcomma
    obtain ⟨s₂, rest, rfl, hs₂, hspace⟩ := Pattern.exists_run isSpace rest
    obtain ⟨third, rest, rfl, hthird, hdecimal⟩ := Pattern.exists_run (isDecimal u) rest
    rw [tail_comma hs₁ hcomma, andThen_spaces (stuck_digits 3 stuck_closing) hs₂ hspace,
      andThen_digits 3 stuck_closing hthird hdecimal, results_closing] at h
    split at h
    next => cases h
    next hne =>
      split at h
      next hcloses => exact .three hs₁ hcomma hs₂ ⟨hne, hthird⟩ hcloses
      next => cases h

/-- The first field, and a comma. -/
theorem results_fields {pos : ℕ} {s₁ first s₂ rest : Str} {comma : CodePoint}
    {groups : List (ℕ × ℕ × ℕ)} (hs₁ : ∀ c ∈ s₁, isSpace c = true)
    (hfirst : first ≠ [] ∧ ∀ c ∈ first, isDecimal u c = true) (hs₂ : ∀ c ∈ s₂, isSpace c = true)
    (hcomma : isComma comma = true) :
    (fieldsPattern u).results ⟨pos, s₁ ++ (first ++ (s₂ ++ comma :: rest)), groups⟩ =
      spaces.andThen ((digits u 2).andThen (tail u))
        ⟨pos + s₁.length + first.length + s₂.length + 1, rest,
          (1, pos + s₁.length, pos + s₁.length + first.length) :: groups⟩ := by
  have hbefore := (comma_head (u := u) hcomma rest).2
  rw [fieldsPattern]
  simp only [Pattern.results_seq]
  rw [← tail, andThen_spaces (stuck_digits 1 stuck_spaces_comma) hs₁ (digits_head hfirst _),
    andThen_digits 1 stuck_spaces_comma hfirst.2 (spaces_head hs₂ hbefore), if_neg hfirst.1,
    andThen_spaces stuck_comma_space hs₂ (comma_head (u := u) hcomma rest).1, andThen_comma hcomma]

/-- The matcher finds the fields there are. -/
theorem fields_complete {pos : ℕ} {lead field after : Str} (hlead : Leads u lead)
    (hfield : field ≠ [] ∧ ∀ c ∈ field, isDecimal u c = true) (hafter : Follows u after) :
    ∃ t, (fieldsPattern u).results ⟨pos, lead ++ (field ++ after), []⟩ = [t] ∧
      t.group 2 = some (pos + lead.length, pos + lead.length + field.length) := by
  obtain ⟨s₁, first, s₂, comma, s₃, rfl, hs₁, hfirst, hs₂, hcomma, hs₃⟩ := hlead.eq
  have htext : s₁ ++ (first ++ (s₂ ++ comma :: s₃)) ++ (field ++ after) =
      s₁ ++ (first ++ (s₂ ++ comma :: (s₃ ++ (field ++ after)))) := by
    simp only [List.append_assoc, List.cons_append]
  obtain ⟨t, ht, hgroup⟩ := @tail_complete u (pos + s₁.length + first.length + s₂.length + 1 +
    s₃.length + field.length) after _ hafter
  rw [htext, results_fields hs₁ hfirst hs₂ hcomma,
    andThen_spaces (stuck_digits 2 stuck_tail) hs₃ (digits_head hfield after),
    andThen_digits 2 stuck_tail hfield.2 hafter.not_isDecimal, if_neg hfield.1, ht]
  refine ⟨t, rfl, hgroup.trans ?_⟩
  simp only [State.group, List.find?_cons, decide_true, Option.map_some, List.length_append,
    List.length_cons]
  congr 2 <;> omega

/-- What the matcher finds are such fields. -/
theorem fields_sound {pos : ℕ} {text : Str} {t : State CodePoint} {more : List (State CodePoint)}
    (h : (fieldsPattern u).results ⟨pos, text, []⟩ = t :: more) :
    ∃ lead field after, text = lead ++ (field ++ after) ∧ Leads u lead ∧
      (field ≠ [] ∧ ∀ c ∈ field, isDecimal u c = true) ∧ Follows u after := by
  obtain ⟨s₁, rest, rfl, hs₁, hspace⟩ := Pattern.exists_run isSpace text
  obtain ⟨first, rest, rfl, hfirst, hdecimal⟩ := Pattern.exists_run (isDecimal u) rest
  obtain ⟨s₂, rest, rfl, hs₂, hspace₂⟩ := Pattern.exists_run isSpace rest
  have hunfold := h
  rw [fieldsPattern] at hunfold
  simp only [Pattern.results_seq] at hunfold
  rw [← tail, andThen_spaces (stuck_digits 1 stuck_spaces_comma) hs₁ hspace,
    andThen_digits 1 stuck_spaces_comma hfirst hdecimal] at hunfold
  split at hunfold
  next => cases hunfold
  next hne =>
    rw [andThen_spaces stuck_comma_space hs₂ hspace₂] at hunfold
    by_cases hcomma : ∀ c ∈ rest.head?, isComma c = false
    · rw [andThen_no_comma hcomma] at hunfold
      cases hunfold
    push Not at hcomma
    obtain ⟨comma, hhead, hcomma⟩ := hcomma
    obtain ⟨rest, rfl⟩ := List.head?_eq_some_iff.mp hhead
    rw [Bool.ne_false_iff] at hcomma
    obtain ⟨s₃, rest, rfl, hs₃, hspace₃⟩ := Pattern.exists_run isSpace rest
    obtain ⟨field, after, rfl, hfield, hdecimal₂⟩ := Pattern.exists_run (isDecimal u) rest
    rw [andThen_comma hcomma, andThen_spaces (stuck_digits 2 stuck_tail) hs₃ hspace₃,
      andThen_digits 2 stuck_tail hfield hdecimal₂] at hunfold
    split at hunfold
    next => cases hunfold
    next hne₂ =>
      refine ⟨s₁ ++ (first ++ (s₂ ++ comma :: s₃)), field, after, ?_, ?_, ⟨hne₂, hfield⟩,
        tail_sound hunfold⟩
      · simp only [List.append_assoc, List.cons_append]
      · exact ⟨s₁, first, s₂, comma, s₃, rfl, hs₁, ⟨hne, hfirst⟩, hs₂, hcomma, hs₃⟩

/-! ### The whole value -/

theorem matchAt_key (value : Str) (n : ℕ) : sharedSectionKey.matchAt value n =
    if Pattern.spells keyKinds (value.drop n) then
      some ((State.mk n (value.drop n) []).advance keyKinds.length) else none := by
  rw [Pattern.matchAt, sharedSectionKey, Pattern.results_word]
  split
  next => rfl
  next => rfl

/-- What a longer text spells is spelled at its beginning. -/
theorem spells_append {kinds : List (CodePoint → Bool)} {word : Str}
    (h : kinds.length ≤ word.length) (rest : Str) :
    Pattern.spells kinds (word ++ rest) = Pattern.spells kinds word := by
  induction kinds generalizing word with
  | nil => rfl
  | cons p kinds ih =>
    cases word with
    | nil => exact absurd h (Nat.not_succ_le_zero _)
    | cons c word =>
      rw [List.length_cons, List.length_cons] at h
      rw [List.cons_append, Pattern.spells, Pattern.spells, ih (Nat.le_of_succ_le_succ h)]

theorem length_of_spells {kinds : List (CodePoint → Bool)} {text : Str}
    (h : Pattern.spells kinds text = true) : kinds.length ≤ text.length := by
  induction kinds generalizing text with
  | nil => exact Nat.zero_le _
  | cons p kinds ih =>
    cases text with
    | nil => cases h
    | cons c text =>
      rw [Pattern.spells, Bool.and_eq_true] at h
      rw [List.length_cons, List.length_cons]
      exact Nat.succ_le_succ (ih h.2)

/-- The first key is what the search finds. -/
theorem search_key {value front key rest : Str} (hvalue : value = front ++ (key ++ rest))
    (h : FirstKey value front key) : sharedSectionKey.search value =
      some (front.length, ⟨front.length + key.length, rest, []⟩) := by
  have hdrop : value.drop front.length = key ++ rest := by rw [hvalue, List.drop_left]
  rw [Pattern.search_eq_some_iff]
  refine ⟨?_, by rw [hvalue, List.length_append]; omega, fun n hn => ?_⟩
  · rw [matchAt_key, hdrop, spells_append h.length.ge, if_pos h.spells, State.advance, ← h.length,
      List.drop_left]
  · rw [matchAt_key, if_neg (by rw [h.first n hn]; exact Bool.false_ne_true)]

/-- What the search finds is the first key. -/
theorem exists_key {value : Str} {start : ℕ} {s : State CodePoint}
    (h : sharedSectionKey.search value = some (start, s)) : ∃ front key rest,
      value = front ++ (key ++ rest) ∧ FirstKey value front key ∧
        s = ⟨front.length + key.length, rest, []⟩ := by
  obtain ⟨hmatch, hle, hbefore⟩ := Pattern.search_eq_some_iff.mp h
  rw [matchAt_key] at hmatch
  split at hmatch
  next hspells =>
    have hlength := length_of_spells hspells
    have hfront : (value.take start).length = start := List.length_take_of_le hle
    have hkey : ((value.drop start).take keyKinds.length).length = keyKinds.length :=
      List.length_take_of_le hlength
    have hsplit : value = value.take start ++ ((value.drop start).take keyKinds.length ++
        (value.drop start).drop keyKinds.length) := by
      rw [List.take_append_drop, List.take_append_drop]
    refine ⟨value.take start, (value.drop start).take keyKinds.length,
      (value.drop start).drop keyKinds.length, hsplit, ⟨hkey, ?_, fun n hn => ?_⟩, ?_⟩
    · rw [← spells_append hkey.ge ((value.drop start).drop keyKinds.length), List.take_append_drop]
      exact hspells
    · rw [hfront] at hn
      have hnone := hbefore n hn
      rw [matchAt_key] at hnone
      split at hnone
      next => cases hnone
      next hnot => exact eq_false_of_ne_true hnot
    · rw [hfront, hkey]
      exact (Option.some.inj hmatch).symm
  next => cases hmatch

/-- The field is found where it is. -/
theorem interactiveField_complete {value before field after : Str}
    (h : SecondField u value before field after) : ∃ t, interactiveField u value = .ok t ∧
      t.group 2 = some (before.length, (before ++ field).length) := by
  obtain ⟨front, key, lead, rfl, hkey, hlead⟩ := h.before
  have hvalue : value = front ++ (key ++ (lead ++ (field ++ after))) := by
    rw [h.eq]
    simp only [List.append_assoc]
  obtain ⟨t, ht, hgroup⟩ := @fields_complete u (front.length + key.length) lead field after hlead
    h.field h.follows
  have hdrop : value.drop (front.length + key.length) = lead ++ (field ++ after) := by
    rw [hvalue, ← List.append_assoc front key, ← List.length_append, List.drop_left]
  refine ⟨t, ?_, hgroup.trans ?_⟩
  · rw [interactiveField, search_key hvalue hkey]
    dsimp only
    rw [Pattern.matchAt, hdrop, ht]
    rfl
  · simp only [List.length_append]
    congr 2 <;> omega

/-- A value has one second field. -/
theorem SecondField.unique {value before field after before' field' after' : Str}
    (h : SecondField u value before field after)
    (h' : SecondField u value before' field' after') : field = field' := by
  obtain ⟨t, ht, hgroup⟩ := interactiveField_complete h
  obtain ⟨t', ht', hgroup'⟩ := interactiveField_complete h'
  obtain rfl : t = t' := Except.ok.inj (ht.symm.trans ht')
  obtain ⟨hstart, hstop⟩ := Prod.mk.inj (Option.some.inj (hgroup.symm.trans hgroup'))
  have heq : (before ++ field) ++ after = (before' ++ field') ++ after' := by
    rw [List.append_assoc, ← h.eq, List.append_assoc, ← h'.eq]
  exact (List.append_inj (List.append_inj heq hstop).1 hstart).2

/-- What is found is the field. -/
theorem interactiveField_sound {value : Str} {t : State CodePoint}
    (h : interactiveField u value = .ok t) :
    ∃ before field after, SecondField u value before field after := by
  rw [interactiveField] at h
  split at h
  next => cases h
  next start s hsearch =>
    obtain ⟨front, key, rest, hvalue, hkey, rfl⟩ := exists_key hsearch
    have hdrop : value.drop (front.length + key.length) = rest := by
      rw [hvalue, ← List.append_assoc, ← List.length_append, List.drop_left]
    split at h
    next => cases h
    next t' hfields =>
      rw [Pattern.matchAt] at hfields
      dsimp only at hfields
      rw [hdrop] at hfields
      obtain ⟨more, hresults⟩ := List.head?_eq_some_iff.mp hfields
      obtain ⟨lead, field, after, rfl, hlead, hfield, hafter⟩ := fields_sound hresults
      refine ⟨front ++ (key ++ lead), field, after, ?_, ⟨front, key, lead, rfl, hkey, hlead⟩,
        hfield, hafter⟩
      rw [hvalue]
      simp only [List.append_assoc]

/-- What the script does once it has the field. -/
theorem raisedSharedSection_eq {value before field after : Str}
    (h : SecondField u value before field after) (target : ℤ) :
    raisedSharedSection u value target = (do
      let current ← intOf u field
      if target ≤ current then .ok none
      else
        let written ← strOf target
        .ok (some (before ++ written ++ after))) := by
  obtain ⟨t, ht, hgroup⟩ := interactiveField_complete h
  have htake : value.take (before ++ field).length = before ++ field := by
    rw [h.eq, ← List.append_assoc, List.take_left]
  have hdrop : value.drop (before ++ field).length = after := by
    rw [h.eq, ← List.append_assoc, List.drop_left]
  have hbefore : value.take before.length = before := by rw [h.eq, List.take_left]
  rw [raisedSharedSection, ht]
  show (do
    let (start, stop) := (t.group 2).getD (0, 0)
    let current ← intOf u ((value.take stop).drop start)
    if target ≤ current then Except.ok none
    else
      let written ← strOf target
      Except.ok (some (value.take start ++ written ++ value.drop stop))) = _
  rw [hgroup, Option.getD_some]
  dsimp only
  rw [htake, hdrop, hbefore, List.drop_left]

/-! ### What it makes of a value -/

/-- Other digits in the place of the second field are the second field. -/
theorem SecondField.replaced {value before field after field' : Str}
    (h : SecondField u value before field after)
    (hfield : field' ≠ [] ∧ ∀ c ∈ field', isDecimal u c = true) :
    SecondField u (before ++ (field' ++ after)) before field' after where
  eq := rfl
  field := hfield
  follows := h.follows
  before := by
    obtain ⟨front, key, lead, rfl, hkey, hlead⟩ := h.before
    refine ⟨front, key, lead, rfl, ⟨hkey.length, hkey.spells, fun n hn => ?_⟩, hlead⟩
    -- where a key might begin before the first one, it would end before the field
    have hlong : keyKinds.length ≤ ((front ++ key).drop n).length := by
      rw [List.length_drop, List.length_append, hkey.length]
      omega
    have hdrop : ∀ rest : Str, (front ++ (key ++ lead) ++ rest).drop n =
        (front ++ key).drop n ++ (lead ++ rest) := by
      intro rest
      have hassoc : front ++ (key ++ lead) ++ rest = (front ++ key) ++ (lead ++ rest) := by
        simp only [List.append_assoc]
      rw [hassoc, List.drop_append_of_le_length (by rw [List.length_append]; omega)]
    have hbefore := hkey.first n hn
    rw [h.eq, hdrop, spells_append hlong] at hbefore
    rw [hdrop, spells_append hlong, hbefore]

/-- The digits of an integer that is not negative. -/
theorem intText_natCast (n : ℕ) : JsonLoads.intText n = Nat.toDigits 10 n := by
  rw [JsonLoads.intText, if_neg (by omega), Int.natAbs_natCast]

theorem decimal_of_isDigit {c : Char} (h : c.isDigit = true) :
    u.value c = some (c.toNat - 48) := by
  have hsmall : c.toNat < 128 := by
    rw [Char.isDigit, Bool.and_eq_true, decide_eq_true_eq, decide_eq_true_eq] at h
    have hle : c.val.toNat ≤ 57 := UInt32.le_iff_toNat_le.mp h.2
    show c.val.toNat < 128
    omega
  rw [u.ascii c hsmall, PyInt.asciiDecimal, if_pos h]

/-- The digits of a number are a field. -/
theorem digits_toDigits (n : ℕ) : (Nat.toDigits 10 n).map CodePoint.scalar ≠ [] ∧
    ∀ c ∈ (Nat.toDigits 10 n).map CodePoint.scalar, isDecimal u c = true := by
  refine ⟨by simp, fun c hc => ?_⟩
  obtain ⟨d, hd, rfl⟩ := List.mem_map.mp hc
  have hdigit : d.isDigit = true := Nat.isDigit_of_mem_toDigits (by decide) (by decide) hd
  show (u.value d).isSome = true
  rw [decimal_of_isDigit hdigit]
  rfl

/-- They stand for the number. -/
theorem number_toDigits (n : ℕ) : number u ((Nat.toDigits 10 n).map .scalar) = n := by
  rw [number, List.foldl_map]
  calc (Nat.toDigits 10 n).foldl (fun value c => 10 * value + digitValue u (.scalar c)) 0
      = (Nat.toDigits 10 n).foldl (fun value c => 10 * value + (c.toNat - '0'.toNat)) 0 := by
        apply List.foldl_ext
        intro value c hc
        have hdigit : c.isDigit = true := Nat.isDigit_of_mem_toDigits (by decide) (by decide) hc
        rw [digitValue, decimal_of_isDigit hdigit]
        rfl
    _ = n := by rw [← Nat.ofDigitChars_eq_foldl, Nat.ofDigitChars_ten_toDigits]

/-- The text of the target. -/
def strText (target : ℤ) : Str := (JsonLoads.intText target).map .scalar

variable (u) in
/-- What `raised_shared_section` makes of a value. It refuses one without such a field, and numbers
with too many digits. It has nothing to do where the field is large enough. Otherwise it puts the
target in the place of the field, after which there is nothing to do. -/
inductive Raised (value : Str) (target : ℤ) : Except Refusal (Option Str) → Prop
  | malformed (refusal : Refusal)
      (h : ∀ before field after, ¬ SecondField u value before field after) :
      Raised value target (.error refusal)
  | tooLong {before field after : Str} (h : SecondField u value before field after)
      (hlong : PyInt.maxDigits < field.length ∨ PyInt.maxDigits < (strText target).length) :
      Raised value target (.error .tooManyDigits)
  | enough {before field after : Str} (h : SecondField u value before field after)
      (hlarge : target ≤ number u field) : Raised value target (.ok none)
  | written {before field after : Str} (h : SecondField u value before field after)
      (hlow : number u field < target)
      (hnext : raisedSharedSection u (before ++ (strText target ++ after)) target = .ok none) :
      Raised value target (.ok (some (before ++ (strText target ++ after))))

/-- The text of a target that is not negative. -/
theorem strText_natCast (n : ℕ) : strText n = (Nat.toDigits 10 n).map .scalar := by
  rw [strText, intText_natCast]

theorem strOf_natCast (n : ℕ) : strOf n =
    if (strText n).length ≤ PyInt.maxDigits then .ok (strText n) else .error .tooManyDigits := by
  rw [strOf, strText, intText_natCast, List.length_map, Int.natAbs_natCast]

theorem raisedSharedSection_spec (value : Str) (target : ℤ) :
    Raised u value target (raisedSharedSection u value target) := by
  by_cases hfield : ∃ before field after, SecondField u value before field after
  · obtain ⟨before, field, after, h⟩ := hfield
    rw [raisedSharedSection_eq h, intOf]
    by_cases hshort : field.length ≤ PyInt.maxDigits
    · rw [if_pos hshort]
      change Raised u value target (if target ≤ (number u field : ℕ) then .ok none
        else (strOf target).bind fun written => .ok (some (before ++ written ++ after)))
      split
      next hlarge => exact .enough h hlarge
      next hlow =>
        -- the target is no negative number
        obtain ⟨n, rfl⟩ := Int.eq_ofNat_of_zero_le (show 0 ≤ target by omega)
        rw [strOf_natCast]
        split
        next hsmall =>
          show Raised u value n (.ok (some (before ++ strText n ++ after)))
          rw [List.append_assoc]
          refine .written h (by omega) ?_
          have hnext : SecondField u _ before (strText n) after :=
            h.replaced (by rw [strText_natCast]; exact digits_toDigits n)
          have hnumber : number u (strText n) = n := by rw [strText_natCast, number_toDigits]
          rw [raisedSharedSection_eq hnext, intOf, if_pos hsmall, hnumber]
          exact if_pos le_rfl
        next hlong => exact .tooLong h (Or.inr (by omega))
    · rw [if_neg hshort]
      exact .tooLong h (Or.inl (by omega))
  · rw [raisedSharedSection]
    cases hmatch : interactiveField u value with
    | error refusal => exact .malformed refusal fun before field after h => hfield ⟨_, _, _, h⟩
    | ok t => exact absurd (interactiveField_sound hmatch) hfield

end DesktopHeap

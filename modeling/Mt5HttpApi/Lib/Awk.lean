import Mathlib.Data.List.DropRight
import Mathlib.Data.List.TakeWhile

/-!
# Text in awk

Records, fields and the substitutions that trim a text, in the POSIX locale.

- `clean_pad`: what stands between blanks is read without them.
- `index_inj`: a subscript of three texts tells them apart.
-/

namespace Awk

/-- `[[:space:]]`. -/
def isSpace (c : Char) : Bool := c ∈ [' ', '\t', '\n', '\x0b', '\x0c', '\r']

/-- The records of a file: its lines. -/
def records (text : List Char) : List (List Char) :=
  let pieces := text.splitOnP (· = '\n')
  if pieces.getLast? = some [] then pieces.dropLast else pieces

/-- `split(line, f, /[[:space:]]+/)`, without the empty fields. -/
def fields (line : List Char) : List (List Char) := (line.splitOnP isSpace).filter (· ≠ [])

/-- `gsub(/^[[:space:]]+|[[:space:]]+$/, "", s)`. -/
def trim (s : List Char) : List Char := (s.dropWhile isSpace).rdropWhile isSpace

/-- `"?` at the front of a pattern. -/
def dropQuote (s : List Char) : List Char := if s.head? = some '"' then s.tail else s

/-- `gsub(/^"|"$/, "", s)`. -/
def unquote (s : List Char) : List Char :=
  let s := dropQuote s
  if s.getLast? = some '"' then s.dropLast else s

/-- `sub(/,[[:space:]]*$/, "", s)`. -/
def dropComma (s : List Char) : List Char :=
  let front := s.rdropWhile isSpace
  if front.getLast? = some ',' then front.dropLast else s

/-- `SUBSEP`. -/
def subsep : Char := '\x1c'

/-- The subscript `a SUBSEP b SUBSEP c`. -/
def index (a b c : List Char) : List Char := a ++ subsep :: (b ++ subsep :: c)

/-! ## Trimming -/

variable {before s after : List Char}

theorem rdropWhile_pad (hafter : ∀ c ∈ after, isSpace c = true) :
    (s ++ after).rdropWhile isSpace = s.rdropWhile isSpace := by
  rw [List.rdropWhile, List.reverse_append, List.dropWhile_append_of_pos (by simpa using hafter),
    List.rdropWhile]

/-- Blanks around a text are trimmed from it. -/
theorem trim_pad (hbefore : ∀ c ∈ before, isSpace c = true)
    (hafter : ∀ c ∈ after, isSpace c = true) : trim (before ++ (s ++ after)) = trim s := by
  rw [trim, List.dropWhile_append_of_pos hbefore, List.dropWhile_append]
  split
  next hempty =>
    rw [trim, List.isEmpty_iff.mp hempty, List.dropWhile_eq_nil_iff.mpr hafter]
  next =>
    rw [rdropWhile_pad hafter, trim]

/-- A text that neither begins nor ends with a blank. -/
def Trimmed (s : List Char) : Prop :=
  (∀ c ∈ s.head?, isSpace c = false) ∧ ∀ c ∈ s.getLast?, isSpace c = false

instance (s : List Char) : Decidable (Trimmed s) :=
  inferInstanceAs (Decidable ((∀ c ∈ s.head?, isSpace c = false) ∧
    ∀ c ∈ s.getLast?, isSpace c = false))

theorem Trimmed.rdropWhile_eq (h : Trimmed s) (hne : s ≠ []) (before : List Char) :
    (before ++ s).rdropWhile isSpace = before ++ s := by
  rw [List.rdropWhile_eq_self_iff]
  intro hpos
  have hlast : (before ++ s).getLast hpos = s.getLast hne := List.getLast_append_of_ne_nil _ hne
  rw [hlast, h.2 _ (List.getLast?_eq_some_getLast hne)]
  exact Bool.false_ne_true

theorem Trimmed.trim_eq (h : Trimmed s) : trim s = s := by
  by_cases hne : s = []
  · rw [hne]
    rfl
  have hfront : s.dropWhile isSpace = s := by
    obtain ⟨c, rest, rfl⟩ := List.exists_cons_of_ne_nil hne
    rw [List.dropWhile_cons_of_neg]
    simpa using h.1 c rfl
  rw [trim, hfront]
  exact h.rdropWhile_eq hne []

/-- Nothing is dropped from a text that does not end with a comma. -/
theorem dropComma_pad (hbefore : ∀ c ∈ before, isSpace c = true)
    (hafter : ∀ c ∈ after, isSpace c = true) (hs : Trimmed s) (hcomma : s.getLast? ≠ some ',') :
    dropComma (before ++ (s ++ after)) = before ++ (s ++ after) := by
  have hfront : ((before ++ (s ++ after)).rdropWhile isSpace).getLast? ≠ some ',' := by
    rw [← List.append_assoc, rdropWhile_pad hafter]
    by_cases hne : s = []
    · rw [hne, List.append_nil, List.rdropWhile_eq_nil_iff.mpr hbefore]
      simp
    · rw [hs.rdropWhile_eq hne, List.getLast?_append_of_ne_nil _ hne]
      exact hcomma
  rw [dropComma, if_neg hfront]

/-- What stands between blanks is read without them. -/
theorem clean_pad (hbefore : ∀ c ∈ before, isSpace c = true)
    (hafter : ∀ c ∈ after, isSpace c = true) (hs : Trimmed s) (hcomma : s.getLast? ≠ some ',') :
    unquote (trim (dropComma (before ++ (s ++ after)))) = unquote s := by
  rw [dropComma_pad hbefore hafter hs hcomma, trim_pad hbefore hafter, hs.trim_eq]

theorem unquote_quoted (raw : List Char) : unquote ('"' :: (raw ++ ['"'])) = raw := by
  have hopen : dropQuote ('"' :: (raw ++ ['"'])) = raw ++ ['"'] := rfl
  rw [unquote, hopen, List.getLast?_concat, if_pos rfl, List.dropLast_concat]

theorem unquote_of_bare (hhead : s.head? ≠ some '"') (hlast : s.getLast? ≠ some '"') :
    unquote s = s := by
  have hopen : dropQuote s = s := if_neg hhead
  rw [unquote, hopen, if_neg hlast]

/-! ## Subscripts -/

/-- A subscript tells the three texts apart, if none of them has the separator in it. -/
theorem index_inj {a b c a' b' c' : List Char} (h : ∀ s ∈ [a, b, c, a', b', c'], subsep ∉ s) :
    index a b c = index a' b' c' ↔ a = a' ∧ b = b' ∧ c = c' := by
  constructor
  · intro heq
    have hpieces : ∀ {a b c : List Char}, subsep ∉ a → subsep ∉ b → subsep ∉ c →
        (index a b c).splitOn subsep = [a, b, c] := by
      intro a b c ha hb hc
      rw [index, List.splitOn_append_cons_self_of_not_mem ha,
        List.splitOn_append_cons_self_of_not_mem hb, List.splitOn_eq_singleton hc]
    have hsame := congrArg (List.splitOn subsep) heq
    rw [hpieces (h a (by simp)) (h b (by simp)) (h c (by simp)),
      hpieces (h a' (by simp)) (h b' (by simp)) (h c' (by simp))] at hsame
    simpa using hsame
  · rintro ⟨rfl, rfl, rfl⟩
    rfl

end Awk

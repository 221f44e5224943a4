import Mathlib.Data.List.DropRight
import Mathlib.Data.List.TakeWhile

/-!
# Text as a list of characters

Python's string methods, on lists of characters, as its documentation describes them.
-/

namespace Text

/-- What holds of the characters of a text is decided by looking at those, not at all there are. -/
instance decidableForallMem {p : Char → Prop} [DecidablePred p] (text : List Char) :
    Decidable (∀ c ∈ text, p c) :=
  List.decidableBAll p text

instance lawfulBEqText : LawfulBEq (List Char) := inferInstance

/-- `str.isspace` of one character. -/
def isSpace (c : Char) : Bool :=
  let n := c.toNat
  (9 ≤ n && n ≤ 13) || (28 ≤ n && n ≤ 32) || n == 0x85 || n == 0xA0 || n == 0x1680 ||
    (0x2000 ≤ n && n ≤ 0x200A) || n == 0x2028 || n == 0x2029 || n == 0x202F || n == 0x205F ||
    n == 0x3000

/-- No digit, letter or underscore of ASCII is white space. -/
theorem toNat_of_isSpace {c : Char} (h : isSpace c = true) :
    ¬ (48 ≤ c.toNat ∧ c.toNat ≤ 57) ∧ ¬ (65 ≤ c.toNat ∧ c.toNat ≤ 90) ∧ c.toNat ≠ 95 ∧
      ¬ (97 ≤ c.toNat ∧ c.toNat ≤ 122) := by
  simp only [isSpace, Bool.or_eq_true, Bool.and_eq_true, decide_eq_true_eq, beq_iff_eq] at h
  omega

theorem toNat_of_isDigit {c : Char} (h : c.isDigit = true) : 48 ≤ c.toNat ∧ c.toNat ≤ 57 := by
  rw [Char.isDigit, Bool.and_eq_true, decide_eq_true_eq, decide_eq_true_eq] at h
  exact ⟨UInt32.le_iff_toNat_le.mp h.1, UInt32.le_iff_toNat_le.mp h.2⟩

/-- `text.strip()`. -/
def strip (text : List Char) : List Char :=
  ((text.dropWhile isSpace).reverse.dropWhile isSpace).reverse

/-- `text.strip(chars)`. -/
def stripOf (chars text : List Char) : List Char :=
  ((text.dropWhile (· ∈ chars)).reverse.dropWhile (· ∈ chars)).reverse

theorem stripOf_eq_nil_iff {chars text : List Char} :
    stripOf chars text = [] ↔ ∀ c ∈ text, c ∈ chars := by
  rw [stripOf, List.reverse_eq_nil_iff, List.dropWhile_eq_nil_iff]
  refine ⟨fun h => ?_, fun h c hc => ?_⟩
  · -- what is left after the front is stripped would begin with another character
    have hnil : text.dropWhile (· ∈ chars) = [] := by
      by_contra hne
      obtain ⟨c, rest, heq⟩ := List.exists_cons_of_ne_nil hne
      have hhead := List.dropWhile_get_zero_not (· ∈ chars) text (by simp [heq])
      simp only [heq, List.get_eq_getElem, List.getElem_cons_zero] at hhead
      exact hhead (h c (by simp [heq]))
    simpa using List.dropWhile_eq_nil_iff.mp hnil
  · have hmem : c ∈ text := (List.dropWhile_subset _) (List.mem_reverse.mp hc)
    simpa using h c hmem

/-- White space around a text is stripped from it. -/
theorem strip_pad {before text after : List Char} (hbefore : ∀ c ∈ before, isSpace c = true)
    (hafter : ∀ c ∈ after, isSpace c = true) : strip (before ++ text ++ after) = strip text := by
  rw [strip, List.append_assoc, List.dropWhile_append_of_pos hbefore, List.dropWhile_append]
  split
  next hempty =>
    rw [strip, List.isEmpty_iff.mp hempty, List.dropWhile_eq_nil_iff.mpr hafter]
  next =>
    rw [strip, List.reverse_append, List.dropWhile_append_of_pos (by simpa using hafter)]

/-- A stripped text stays as it is. -/
theorem strip_strip (text : List Char) : strip (strip text) = strip text := by
  have hpre : strip text <+: text.dropWhile isSpace := List.rdropWhile_prefix isSpace _
  have hfront : (strip text).dropWhile isSpace = strip text := by
    rw [List.dropWhile_eq_self_iff]
    intro hpos
    rw [hpre.getElem hpos]
    exact List.dropWhile_get_zero_not isSpace text (hpos.trans_le hpre.length_le)
  rw [strip, hfront]
  exact List.rdropWhile_idempotent isSpace (text.dropWhile isSpace)

/-- A text is stripped when no white space is at its ends. -/
theorem strip_eq_self_iff {text : List Char} : strip text = text ↔
    (∀ c ∈ text.head?, isSpace c = false) ∧ ∀ c ∈ text.getLast?, isSpace c = false := by
  have hends : strip text = text ↔
      text.dropWhile isSpace = text ∧ text.rdropWhile isSpace = text := by
    constructor
    · intro h
      have hpre : strip text <+: text.dropWhile isSpace := List.rdropWhile_prefix isSpace _
      rw [h] at hpre
      have hfront := (List.dropWhile_sublist isSpace).eq_of_length_le hpre.length_le
      refine ⟨hfront, ?_⟩
      change (text.dropWhile isSpace).rdropWhile isSpace = text at h
      rwa [hfront] at h
    · rintro ⟨hfront, hback⟩
      show (text.dropWhile isSpace).rdropWhile isSpace = text
      rw [hfront, hback]
  rw [hends, List.dropWhile_eq_self_iff, List.rdropWhile_eq_self_iff]
  cases text with
  | nil => simp
  | cons c rest => simp [List.getLast?_eq_some_getLast]

/-- A text without white space is stripped. -/
theorem strip_of_forall {text : List Char} (h : ∀ c ∈ text, isSpace c = false) :
    strip text = text := by
  rw [strip_eq_self_iff]
  exact ⟨fun c hc => h c (List.mem_of_mem_head? hc), fun c hc => h c (List.mem_of_getLast? hc)⟩

theorem dropWhile_append_cons {c : Char} (h : isSpace c = false) (before after : List Char) :
    (before ++ c :: after).dropWhile isSpace = before.dropWhile isSpace ++ c :: after := by
  induction before with
  | nil => rw [List.nil_append, List.dropWhile_cons_of_neg (by simp [h]), List.dropWhile_nil,
      List.nil_append]
  | cons d before ih =>
    cases hd : isSpace d with
    | true =>
      rw [List.cons_append, List.dropWhile_cons_of_pos hd, ih, List.dropWhile_cons_of_pos hd]
    | false =>
      have hneg : ¬ isSpace d = true := by simp [hd]
      rw [List.cons_append, List.dropWhile_cons_of_neg hneg, List.dropWhile_cons_of_neg hneg,
        List.cons_append]

theorem rdropWhile_append_cons {c : Char} (h : isSpace c = false) (before after : List Char) :
    (before ++ c :: after).rdropWhile isSpace = before ++ c :: after.rdropWhile isSpace := by
  induction after using List.reverseRecOn with
  | nil =>
    rw [List.rdropWhile_nil, List.rdropWhile_concat_neg _ _ _ (by simp [h])]
  | append_singleton after d ih =>
    rw [← List.cons_append, ← List.append_assoc]
    by_cases hd : isSpace d = true
    · rw [List.rdropWhile_concat_pos _ _ _ hd, List.rdropWhile_concat_pos _ _ _ hd, ih]
    · rw [List.rdropWhile_concat_neg _ _ _ hd, List.rdropWhile_concat_neg _ _ _ hd]
      simp

/-- A text that begins with no white space is stripped at its end. -/
theorem strip_cons_of_not {c : Char} {text : List Char} (h : isSpace c = false) :
    strip (c :: text) = c :: text.rdropWhile isSpace := by
  rw [strip, List.dropWhile_cons, h]
  exact rdropWhile_append_cons h [] text

/-- Stripping the end first makes no difference. -/
theorem strip_rdropWhile (text : List Char) : strip (text.rdropWhile isSpace) = strip text := by
  have hpad : strip ([] ++ text.rdropWhile isSpace ++ text.rtakeWhile isSpace) =
      strip (text.rdropWhile isSpace) :=
    strip_pad (by simp) fun c hc => List.mem_rtakeWhile_imp hc
  rwa [List.nil_append, List.rdropWhile_append_rtakeWhile, eq_comm] at hpad

theorem strip_sublist (text : List Char) : (strip text).Sublist text :=
  (List.rdropWhile_prefix isSpace _).sublist.trans (List.dropWhile_sublist _)

/-- A stripped text begins with the first character that is no white space. -/
theorem head?_strip (text : List Char) : (strip text).head? = text.find? fun c => !isSpace c := by
  induction text with
  | nil => rfl
  | cons c text ih =>
    cases hc : isSpace c with
    | true =>
      rw [strip, List.dropWhile_cons_of_pos hc, ← strip, ih, List.find?_cons_of_neg (by simp [hc])]
    | false => rw [strip_cons_of_not hc, List.head?_cons, List.find?_cons_of_pos (by simp [hc])]

/-- It ends with the last one. -/
theorem getLast?_strip (text : List Char) :
    (strip text).getLast? = text.reverse.find? fun c => !isSpace c := by
  induction text using List.reverseRecOn with
  | nil => rfl
  | append_singleton text c ih =>
    rw [List.reverse_concat]
    cases hc : isSpace c with
    | true =>
      have hpad : strip ([] ++ text ++ [c]) = strip text := strip_pad (by simp) (by simpa using hc)
      rw [List.nil_append] at hpad
      rw [hpad, ih, List.find?_cons_of_neg (by simp [hc])]
    | false =>
      rw [List.find?_cons_of_pos (by simp [hc]), strip, dropWhile_append_cons hc,
        ← List.rdropWhile, List.rdropWhile_concat_neg _ _ _ (by simp [hc]), List.getLast?_concat]

section Cut

variable {c : Char} {text : List Char}

/-- A text is cut at the first character of a kind. -/
theorem takeWhile_ne_append (h : c ∉ text) (rest : List Char) :
    (text ++ c :: rest).takeWhile (· ≠ c) = text := by
  rw [List.takeWhile_append_of_pos fun x hx => by simpa using ne_of_mem_of_not_mem hx h,
    List.takeWhile_cons_of_neg (by simp), List.append_nil]

theorem dropWhile_ne_append (h : c ∉ text) (rest : List Char) :
    (text ++ c :: rest).dropWhile (· ≠ c) = c :: rest := by
  rw [List.dropWhile_append_of_pos fun x hx => by simpa using ne_of_mem_of_not_mem hx h,
    List.dropWhile_cons_of_neg (by simp)]

end Cut

/-- `text.split(sep)[-1]`. -/
def afterLast (sep : Char) (text : List Char) : List Char :=
  (text.reverse.takeWhile (· != sep)).reverse

/-- `text.rsplit(sep, 1)[0]` when `sep` occurs, else the whole of `text`. -/
def beforeLast (sep : Char) (text : List Char) : List Char :=
  if sep ∈ text then ((text.reverse.dropWhile (· != sep)).drop 1).reverse else text

theorem beforeLast_append {sep : Char} {a b : List Char} (h : sep ∉ b) :
    beforeLast sep (a ++ sep :: b) = a := by
  have hmem : sep ∈ a ++ sep :: b := by simp
  have hrev : (a ++ sep :: b).reverse = b.reverse ++ sep :: a.reverse := by simp
  rw [beforeLast, if_pos hmem, hrev, List.dropWhile_append_of_pos]
  · simp
  · intro c hc
    have hne : c ≠ sep := by
      rintro rfl
      exact h (List.mem_reverse.mp hc)
    simpa using hne

theorem exists_beforeLast {sep : Char} {text : List Char} (h : sep ∈ text) :
    ∃ after, text = beforeLast sep text ++ sep :: after ∧ sep ∉ after := by
  obtain ⟨before, after, hrev, hnot⟩ := List.eq_append_cons_of_mem (List.mem_reverse.mpr h)
  have htext : text = after.reverse ++ sep :: before.reverse := by
    rw [← List.reverse_reverse text, hrev]
    simp
  have hbefore : sep ∉ before.reverse := by simpa using hnot
  refine ⟨before.reverse, ?_, hbefore⟩
  rw [htext, beforeLast_append hbefore]

/-- `text.lower().endswith(suffix)` for a `suffix` of lower-case ASCII letters and punctuation. -/
def endsWithIgnoringCase (suffix text : List Char) : Bool :=
  suffix.isSuffixOf (text.map Char.toLower)

/-- `text.replace(old, new)` of one character by another. -/
def replaceChar (old new : Char) (text : List Char) : List Char :=
  text.map fun c => if c = old then new else c

/-- `text.replace(old, new)` of a pair of characters. -/
def replacePair (first second : Char) (new : List Char) : List Char → List Char
  | [] => []
  | [c] => [c]
  | c :: d :: text =>
    if c = first ∧ d = second then new ++ replacePair first second new text
    else c :: replacePair first second new (d :: text)

/-- A character that does not begin the pair stays. -/
theorem replacePair_cons_of_ne {first second c : Char} (h : c ≠ first) (new text : List Char) :
    replacePair first second new (c :: text) = c :: replacePair first second new text := by
  cases text with
  | nil => rfl
  | cons d text => rw [replacePair, if_neg fun hpair => h hpair.1]

theorem replacePair_of_not_mem {first second : Char} {new text : List Char} (h : first ∉ text) :
    replacePair first second new text = text := by
  induction text with
  | nil => rfl
  | cons c text ih =>
    rw [replacePair_cons_of_ne (List.ne_of_not_mem_cons h).symm,
      ih (List.not_mem_of_not_mem_cons h)]

theorem replaceChar_of_not_mem {old new : Char} {text : List Char} (h : old ∉ text) :
    replaceChar old new text = text := by
  refine (List.map_congr_left fun c hc => ?_).trans (List.map_id text)
  exact if_neg fun heq : c = old => h (heq ▸ hc)

/-! ## Lines -/

/-- Induction over the pieces that separators leave: a piece without one, and a piece before one. -/
theorem sepInduction {α : Type*} {p : α → Bool} {motive : List α → Prop}
    (last : ∀ piece, (∀ x ∈ piece, p x = false) → motive piece)
    (before : ∀ piece sep rest, (∀ x ∈ piece, p x = false) → p sep = true → motive rest →
      motive (piece ++ sep :: rest)) (l : List α) : motive l := by
  suffices h : ∀ piece, (∀ x ∈ piece, p x = false) → motive (piece ++ l) from h [] (by simp)
  induction l with
  | nil =>
    intro piece hpiece
    simpa using last piece hpiece
  | cons x l ih =>
    intro piece hpiece
    cases hx : p x with
    | true => exact before piece x l hpiece hx (ih [] (by simp))
    | false =>
      have hmore : ∀ y ∈ piece ++ [x], p y = false := by
        intro y hy
        rcases List.mem_append.mp hy with hy | hy
        · exact hpiece y hy
        · rw [List.mem_singleton.mp hy, hx]
      simpa using ih (piece ++ [x]) hmore

/-- A piece has no separator, and what it has is in the whole. -/
theorem mem_of_mem_splitOnP {α : Type*} {p : α → Bool} {l piece : List α}
    (h : piece ∈ l.splitOnP p) : ∀ x ∈ piece, p x = false ∧ x ∈ l := by
  induction l using sepInduction (p := p) with
  | last first hfirst =>
    rw [List.splitOnP_eq_singleton hfirst, List.mem_singleton] at h
    rw [h]
    exact fun x hx => ⟨hfirst x hx, hx⟩
  | before first sep rest hfirst hsep ih =>
    rw [List.splitOnP_append_cons_of_forall_mem hfirst _ hsep] at h
    rcases List.mem_cons.mp h with rfl | h
    · exact fun x hx => ⟨hfirst x hx, List.mem_append_left _ hx⟩
    · exact fun x hx => ⟨(ih h x hx).1, by simp [(ih h x hx).2]⟩

/-- The text up to the first line break. -/
def firstLine (text : List Char) : List Char := text.takeWhile (· ≠ '\n')

theorem firstLine_append {text : List Char} (h : '\n' ∉ text) (rest : List Char) :
    firstLine (text ++ rest) = text ++ firstLine rest :=
  List.takeWhile_append_of_pos fun c hc => by
    simpa using fun hc' : c = '\n' => h (hc' ▸ hc)

theorem firstLine_mem_splitOn (text : List Char) : firstLine text ∈ text.splitOn '\n' := by
  induction text using sepInduction (p := (· == '\n')) with
  | last piece hpiece =>
    have hnot : '\n' ∉ piece := fun h => by simpa using hpiece '\n' h
    have hall : firstLine piece = piece := by
      simpa [firstLine] using firstLine_append hnot []
    rw [List.splitOn_eq_singleton hnot, hall]
    exact List.mem_singleton_self piece
  | before piece sep rest hpiece hsep _ =>
    have hnot : '\n' ∉ piece := fun h => by simpa using hpiece '\n' h
    obtain rfl : sep = '\n' := by simpa using hsep
    rw [List.splitOn_append_cons_self_of_not_mem hnot, firstLine_append hnot]
    simp [firstLine]

/-- The lines of a text are lines of it after another line. -/
theorem splitOn_subset_of_line (before text : List Char) :
    text.splitOn '\n' ⊆ (before ++ '\n' :: text).splitOn '\n' := by
  rw [List.splitOn_append_cons_self]
  exact List.subset_append_right _ _

end Text

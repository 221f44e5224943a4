import Mathlib
import Mt5HttpApi.Lib.Text

/-!
# JSON text, and searching it for a quoted key

The text of a JSON string in ASCII, and what a search for `"key"` finds in text that is made of such
strings. Within a string every quote has a backslash before it, so what is found ends at the closing
quote of a string that is the key, or ends with a quote and the key (`Hits`). `after_token` says so
for one string, `after_tokens` for a text of many.

* `quote s` is the text of a string, `unescape` reads it back if it is of printable characters.
* `Token` is a string and the text up to the next one.
* `nests d text` follows how deep the braces of a text are.
-/

namespace JsonText

/-- A printable character of ASCII. -/
def printable (c : Char) : Bool := 0x20 ≤ c.toNat && c.toNat ≤ 0x7E

/-- A printable character that a string does not escape. -/
def plain (c : Char) : Bool := printable c && c != '"' && c != '\\'

/-- The digit of a value below 16. -/
def hexDigit (n : Nat) : Char := if n < 10 then Char.ofNat (0x30 + n) else Char.ofNat (0x57 + n)

/-- `\uXXXX`. -/
def unicodeEscape (n : Nat) : List Char :=
  ['\\', 'u', hexDigit (n / 0x1000 % 16), hexDigit (n / 0x100 % 16), hexDigit (n / 0x10 % 16),
    hexDigit (n % 16)]

/-- The text of a character in a string. -/
def escapeChar (c : Char) : List Char :=
  if c = '"' then ['\\', '"']
  else if c = '\\' then ['\\', '\\']
  else if printable c then [c]
  else if c = '\n' then ['\\', 'n']
  else if c = '\r' then ['\\', 'r']
  else if c = '\t' then ['\\', 't']
  else if c.toNat = 0x0C then ['\\', 'f']
  else if c.toNat = 0x08 then ['\\', 'b']
  else if c.toNat < 0x10000 then unicodeEscape c.toNat
  else unicodeEscape (0xD800 + (c.toNat - 0x10000) / 0x400) ++
    unicodeEscape (0xDC00 + (c.toNat - 0x10000) % 0x400)

/-- The text of a string between its quotes. -/
def escape (s : List Char) : List Char := s.flatMap escapeChar

/-- The text of a string. -/
def quote (s : List Char) : List Char := '"' :: escape s ++ ['"']

/-- The text after the first occurrence of `needle`. -/
def after (needle : List Char) : List Char → Option (List Char)
  | [] => if needle = [] then some [] else none
  | c :: text =>
    if needle <+: c :: text then some ((c :: text).drop needle.length) else after needle text

/-- `needle` occurs in the text. -/
def contains (needle text : List Char) : Bool := (after needle text).isSome

/-- The characters up to the next quote that has no backslash, without the backslashes. -/
def unescape : List Char → List Char
  | '\\' :: c :: text => c :: unescape text
  | '\\' :: [] => []
  | '"' :: _ => []
  | c :: text => c :: unescape text
  | [] => []

@[simp]
theorem escape_nil : escape [] = [] := rfl

@[simp]
theorem escape_cons (c : Char) (s : List Char) : escape (c :: s) = escapeChar c ++ escape s := rfl

theorem escapeChar_of_plain {c : Char} (h : plain c = true) : escapeChar c = [c] := by
  simp only [plain, Bool.and_eq_true, bne_iff_ne] at h
  simp [escapeChar, h]

/-- A character that is no plain one is escaped. -/
theorem escapeChar_of_not_plain {c : Char} (h : plain c = false) :
    ∃ more, escapeChar c = '\\' :: more := by
  unfold escapeChar
  by_cases hquote : c = '"'
  · exact ⟨_, if_pos hquote⟩
  by_cases hback : c = '\\'
  · exact ⟨_, by rw [if_neg hquote, if_pos hback]⟩
  have hprint : printable c = false := by simpa [plain, hquote, hback] using h
  rw [if_neg hquote, if_neg hback, if_neg (by simp [hprint])]
  repeat' split
  all_goals exact ⟨_, rfl⟩

/-- Only a quote is escaped with one. -/
theorem quote_not_mem_escapeChar {c : Char} (h : c ≠ '"') : '"' ∉ escapeChar c := by
  have hdigit : ∀ n < 16, hexDigit n ≠ '"' := by decide
  have hunicode : ∀ n, '"' ∉ unicodeEscape n := by
    intro n hmem
    simp only [unicodeEscape, List.mem_cons, List.not_mem_nil, or_false] at hmem
    rcases hmem with hmem | hmem | hmem | hmem | hmem | hmem
    · cases hmem
    · cases hmem
    all_goals exact hdigit _ (Nat.mod_lt _ (by decide)) hmem.symm
  unfold escapeChar
  rw [if_neg h]
  repeat' split
  all_goals first
    | exact hunicode _
    | simp [hunicode, Ne.symm h]

variable {key needle s rest : List Char}

theorem printable_unicodeEscape (n : Nat) : (unicodeEscape n).all printable = true := by
  have hdigit : ∀ n < 16, printable (hexDigit n) = true := by decide
  have hmod : ∀ m, printable (hexDigit (m % 16)) = true :=
    fun m => hdigit _ (Nat.mod_lt _ (by decide))
  simp [unicodeEscape, hmod, show printable '\\' = true by decide,
    show printable 'u' = true by decide]

/-- Whatever it stands for, the text of a string is of printable characters. -/
theorem printable_escapeChar (c : Char) : (escapeChar c).all printable = true := by
  unfold escapeChar
  split
  · rfl
  split
  · rfl
  split
  next hprint => simp [hprint]
  repeat' split
  all_goals first
    | exact printable_unicodeEscape _
    | rfl
    | rw [List.all_append, printable_unicodeEscape, printable_unicodeEscape, Bool.and_self]

theorem printable_quote (s : List Char) : (quote s).all printable = true := by
  have hescape : (escape s).all printable = true := by
    induction s with
    | nil => rfl
    | cons c s ih => rw [escape_cons, List.all_append, printable_escapeChar, ih, Bool.and_self]
  rw [quote, List.all_append, List.all_cons, hescape]
  rfl

/-- What begins with a quote is not found before one. -/
theorem after_append {needle gap rest : List Char} (h : '"' ∉ gap) :
    after ('"' :: needle) (gap ++ rest) = after ('"' :: needle) rest := by
  induction gap with
  | nil => rfl
  | cons c gap ih =>
    have hc : '"' ≠ c := fun hc => h (hc ▸ List.mem_cons_self)
    rw [List.cons_append, after, if_neg (by simp [hc])]
    exact ih fun hmem => h (List.mem_cons_of_mem c hmem)

/-- A text up to its closing quote is the key when the string is. -/
theorem prefix_escape_iff (hkey : ∀ c ∈ key, plain c = true) :
    key ++ '"' :: needle <+: escape s ++ '"' :: rest ↔ s = key ∧ needle <+: rest := by
  induction key generalizing s with
  | nil =>
    cases s with
    | nil => simp
    | cons c s =>
      -- what a character is escaped to never begins with a quote
      refine iff_of_false (fun hpre => ?_) (by simp)
      rw [escape_cons] at hpre
      cases hplain : plain c with
      | true =>
        rw [escapeChar_of_plain hplain] at hpre
        obtain rfl : '"' = c := (List.cons_prefix_cons.mp hpre).1
        cases hplain
      | false =>
        obtain ⟨more, hmore⟩ := escapeChar_of_not_plain hplain
        rw [hmore] at hpre
        cases (List.cons_prefix_cons.mp hpre).1
  | cons k key ih =>
    have hk : plain k = true := hkey k List.mem_cons_self
    have hquote : k ≠ '"' := by
      rintro rfl
      cases hk
    cases s with
    | nil => simp [hquote]
    | cons c s =>
      have hrest := @ih s fun c hc => hkey c (List.mem_cons_of_mem k hc)
      rw [escape_cons]
      cases hplain : plain c with
      | true =>
        rw [escapeChar_of_plain hplain]
        simp only [List.cons_append, List.nil_append, List.cons_prefix_cons, hrest,
          List.cons.injEq, and_assoc, eq_comm (a := k)]
      | false =>
        -- what is escaped begins with a backslash, which the key has not
        refine iff_of_false (fun hpre => ?_) fun heq => ?_
        · obtain ⟨more, hmore⟩ := escapeChar_of_not_plain hplain
          rw [hmore] at hpre
          obtain rfl : k = '\\' := (List.cons_prefix_cons.mp hpre).1
          cases hk
        · obtain rfl : c = k := (List.cons.inj heq.1).1
          rw [hk] at hplain
          cases hplain

/-- The string is the key, or ends with a quote and the key. -/
def Hits (key s : List Char) : Prop := s = key ∨ '"' :: key <:+ s

instance (key s : List Char) : Decidable (Hits key s) := inferInstanceAs (Decidable (_ ∨ _))

/-- Plain characters are not escaped. -/
theorem escape_of_plain (h : ∀ c ∈ s, plain c = true) : escape s = s := by
  induction s with
  | nil => rfl
  | cons c s ih =>
    rw [escape_cons, escapeChar_of_plain (h c List.mem_cons_self),
      ih fun c hc => h c (List.mem_cons_of_mem _ hc)]
    rfl

/-- What comes after a string that is the key. -/
theorem drop_escape (hkey : ∀ c ∈ key, plain c = true) :
    (escape key ++ '"' :: rest).drop (key ++ '"' :: needle).length = rest.drop needle.length := by
  rw [escape_of_plain hkey, List.length_append, List.drop_append]
  simp

/-- A search from the opening quote of a string, or from a quote within one. -/
theorem after_quote (hkey : ∀ c ∈ key, plain c = true) :
    after ('"' :: (key ++ '"' :: needle)) ('"' :: (escape s ++ '"' :: rest)) =
      if s = key ∧ needle <+: rest then some (rest.drop needle.length)
      else after ('"' :: (key ++ '"' :: needle)) (escape s ++ '"' :: rest) := by
  rw [after]
  simp only [List.cons_prefix_cons, true_and, prefix_escape_iff hkey]
  split
  next h =>
    rw [h.1, List.length_cons, List.drop_succ_cons, drop_escape hkey]
  next => rfl

/-- A search from within a string. -/
theorem after_escape (hkey : ∀ c ∈ key, plain c = true)
    (hrest : ¬ key ++ '"' :: needle <+: rest) :
    after ('"' :: (key ++ '"' :: needle)) (escape s ++ '"' :: rest) =
      if '"' :: key <:+ s ∧ needle <+: rest then some (rest.drop needle.length)
      else after ('"' :: (key ++ '"' :: needle)) rest := by
  induction s with
  | nil =>
    rw [if_neg (by simp), escape_nil, List.nil_append, after, if_neg]
    simpa using hrest
  | cons c s ih =>
    rw [escape_cons, List.append_assoc]
    by_cases hc : c = '"'
    · subst hc
      have hback : after ('"' :: (key ++ '"' :: needle))
          (escapeChar '"' ++ (escape s ++ '"' :: rest)) =
          after ('"' :: (key ++ '"' :: needle)) ('"' :: (escape s ++ '"' :: rest)) :=
        @after_append _ ['\\'] _ (by decide)
      have hsuffix : '"' :: key <:+ '"' :: s ↔ s = key ∨ '"' :: key <:+ s := by
        rw [List.suffix_cons_iff]
        simp [eq_comm]
      rw [hback, after_quote hkey, ih]
      simp only [hsuffix]
      by_cases hs : s = key ∧ needle <+: rest
      · rw [if_pos hs, if_pos ⟨Or.inl hs.1, hs.2⟩]
      · rw [if_neg hs]
        by_cases hend : '"' :: key <:+ s ∧ needle <+: rest
        · rw [if_pos hend, if_pos ⟨Or.inr hend.1, hend.2⟩]
        · rw [if_neg hend, if_neg]
          rintro ⟨h | h, hneedle⟩
          · exact hs ⟨h, hneedle⟩
          · exact hend ⟨h, hneedle⟩
    · have hsuffix : '"' :: key <:+ c :: s ↔ '"' :: key <:+ s := by
        rw [List.suffix_cons_iff]
        simp [Ne.symm hc]
      rw [after_append (quote_not_mem_escapeChar hc), ih]
      simp only [hsuffix]

/-- What a search finds in a string and after it. -/
theorem after_token (hkey : ∀ c ∈ key, plain c = true)
    (hrest : ¬ key ++ '"' :: needle <+: rest) :
    after ('"' :: (key ++ '"' :: needle)) (quote s ++ rest) =
      if Hits key s ∧ needle <+: rest then some (rest.drop needle.length)
      else after ('"' :: (key ++ '"' :: needle)) rest := by
  have htext : quote s ++ rest = '"' :: (escape s ++ '"' :: rest) := by simp [quote]
  rw [htext, after_quote hkey, after_escape hkey hrest]
  by_cases hs : s = key ∧ needle <+: rest
  · rw [if_pos hs, if_pos ⟨Or.inl hs.1, hs.2⟩]
  · rw [if_neg hs]
    by_cases hend : '"' :: key <:+ s ∧ needle <+: rest
    · rw [if_pos hend, if_pos ⟨Or.inr hend.1, hend.2⟩]
    · rw [if_neg hend, if_neg]
      rintro ⟨h | h, hneedle⟩
      · exact hs ⟨h, hneedle⟩
      · exact hend ⟨h, hneedle⟩

/-! ## Text of many strings -/

/-- A string and the text up to the next one. -/
structure Token where
  str : List Char
  gap : List Char

/-- The text of tokens. -/
def render (tokens : List Token) : List Char := tokens.flatMap fun t => quote t.str ++ t.gap

@[simp]
theorem render_nil : render [] = [] := rfl

theorem render_cons (t : Token) (tokens : List Token) :
    render (t :: tokens) = quote t.str ++ (t.gap ++ render tokens) := by
  simp [render]

theorem render_append (tokens more : List Token) :
    render (tokens ++ more) = render tokens ++ render more :=
  List.flatMap_append

/-- The text after a string has no quote and begins with no character of the key. -/
def Apart (key gap : List Char) : Prop :=
  '"' ∉ gap ∧ ∃ c more, gap = c :: more ∧ c ∉ key

theorem Apart.not_prefix {gap : List Char} (h : Apart key gap) :
    ¬ key ++ '"' :: needle <+: gap ++ rest := by
  obtain ⟨hquote, c, more, rfl, hc⟩ := h
  cases key with
  | nil =>
    intro hpre
    obtain rfl : '"' = c := (List.cons_prefix_cons.mp hpre).1
    exact hquote List.mem_cons_self
  | cons k key =>
    intro hpre
    obtain rfl : k = c := (List.cons_prefix_cons.mp hpre).1
    exact hc List.mem_cons_self

/-- Tokens in which nothing is found are passed over. -/
theorem after_tokens (hkey : ∀ c ∈ key, plain c = true) {tokens : List Token}
    (hapart : ∀ t ∈ tokens, Apart key t.gap)
    (hmiss : ∀ before t more, tokens = before ++ t :: more →
      ¬ (Hits key t.str ∧ needle <+: t.gap ++ (render more ++ rest))) :
    after ('"' :: (key ++ '"' :: needle)) (render tokens ++ rest) =
      after ('"' :: (key ++ '"' :: needle)) rest := by
  induction tokens with
  | nil => rfl
  | cons t tokens ih =>
    have ht := hapart t List.mem_cons_self
    have hmore := ih (fun u hu => hapart u (List.mem_cons_of_mem t hu)) fun before u more heq =>
      hmiss (t :: before) u more (by rw [heq, List.cons_append])
    rw [render_cons, List.append_assoc, List.append_assoc, after_token hkey ht.not_prefix,
      if_neg (hmiss [] t tokens rfl), after_append ht.1, hmore]

/-- The first token that is found. -/
theorem after_tokens_of_hit (hkey : ∀ c ∈ key, plain c = true) {tokens : List Token} {t : Token}
    (hapart : ∀ u ∈ tokens, Apart key u.gap) (hmiss : ∀ u ∈ tokens, ¬ Hits key u.str)
    (ht : Apart key t.gap) (hhit : Hits key t.str) :
    after ('"' :: (key ++ ['"'])) (render tokens ++ (quote t.str ++ (t.gap ++ rest))) =
      some (t.gap ++ rest) := by
  rw [after_tokens hkey hapart, after_token hkey ht.not_prefix, if_pos ⟨hhit, List.nil_prefix⟩]
  · rfl
  · rintro before u more rfl ⟨hu, -⟩
    exact hmiss u (by simp) hu

/-- A character is found after what it is not in. -/
theorem after_singleton {c : Char} {gap : List Char} (h : c ∉ gap) (rest : List Char) :
    after [c] (gap ++ c :: rest) = some rest := by
  induction gap with
  | nil => simp [after]
  | cons x gap ih =>
    have hx : c ≠ x := fun hx => h (hx ▸ List.mem_cons_self)
    rw [List.cons_append, after, if_neg (by simp [hx])]
    exact ih fun hmem => h (List.mem_cons_of_mem x hmem)

/-! ## Reading a string back -/

/-- A string of printable characters is read back. -/
theorem unescape_escape (h : ∀ c ∈ s, printable c = true) (rest : List Char) :
    unescape (escape s ++ '"' :: rest) = s := by
  induction s with
  | nil => rfl
  | cons c s ih =>
    have hs := ih fun c hc => h c (List.mem_cons_of_mem _ hc)
    rw [escape_cons, List.append_assoc]
    by_cases hquote : c = '"'
    · subst hquote
      exact congrArg (List.cons _) hs
    by_cases hback : c = '\\'
    · subst hback
      exact congrArg (List.cons _) hs
    have hplain : plain c = true := by simp [plain, h c List.mem_cons_self, hquote, hback]
    rw [escapeChar_of_plain hplain, List.singleton_append, unescape, hs]
    all_goals simp [hback, hquote]

/-! ## Braces -/

/-- How deep the braces of a text are after it, from a depth `d`; `none` when one closes that was
not opened. -/
def nests : Nat → List Char → Option Nat
  | d, [] => some d
  | d, c :: text =>
    if c = '{' then nests (d + 1) text
    else if c = '}' then if d = 0 then none else nests (d - 1) text
    else nests d text

theorem nests_append (d : Nat) (text more : List Char) :
    nests d (text ++ more) = (nests d text).bind fun e => nests e more := by
  induction text generalizing d with
  | nil => rfl
  | cons c text ih =>
    simp only [List.cons_append, nests, ih]
    split
    · rfl
    split
    · split <;> rfl
    · rfl

/-- A text without braces stays where it is. -/
theorem nests_of_not_mem {text : List Char} (hopen : '{' ∉ text) (hclose : '}' ∉ text) (d : Nat) :
    nests d text = some d := by
  induction text with
  | nil => rfl
  | cons c text ih =>
    have hc : c ≠ '{' ∧ c ≠ '}' :=
      ⟨fun hc => hopen (hc ▸ List.mem_cons_self), fun hc => hclose (hc ▸ List.mem_cons_self)⟩
    rw [nests, if_neg hc.1, if_neg hc.2]
    exact ih (fun h => hopen (List.mem_cons_of_mem c h)) fun h => hclose (List.mem_cons_of_mem c h)

/-- The text of a printable string has its braces. -/
theorem nests_quote (h : ∀ c ∈ s, printable c = true) (d : Nat) :
    nests d (quote s) = nests d s := by
  have hescape : ∀ d, nests d (escape s) = nests d s := by
    induction s with
    | nil => exact fun _ => rfl
    | cons c s ih =>
      intro d
      have hs := ih fun c hc => h c (List.mem_cons_of_mem _ hc)
      have hsplit : nests d (c :: s) = (nests d [c]).bind fun e => nests e s :=
        nests_append d [c] s
      have hhead : nests d (escapeChar c) = nests d [c] := by
        cases hplain : plain c with
        | true => rw [escapeChar_of_plain hplain]
        | false =>
          have hc : c = '"' ∨ c = '\\' := by
            simpa [plain, h c List.mem_cons_self, or_iff_not_imp_left] using hplain
          rcases hc with rfl | rfl <;> rfl
      rw [escape_cons, nests_append, hsplit, hhead]
      simp only [hs]
  have htext : quote s = ['"'] ++ (escape s ++ ['"']) := rfl
  rw [htext, nests_append, nests_of_not_mem (by decide) (by decide), Option.bind_some, nests_append,
    hescape]
  cases nests d s <;> rfl

/-- The braces of a text of tokens are those of its strings. -/
theorem nests_render {tokens : List Token} (hstr : ∀ t ∈ tokens, ∀ c ∈ t.str, printable c = true)
    (hgap : ∀ t ∈ tokens, '{' ∉ t.gap ∧ '}' ∉ t.gap) (d : Nat) :
    nests d (render tokens) = nests d (tokens.flatMap Token.str) := by
  induction tokens generalizing d with
  | nil => rfl
  | cons t tokens ih =>
    have ht := hgap t List.mem_cons_self
    have hmore := ih (fun u hu => hstr u (List.mem_cons_of_mem t hu))
      fun u hu => hgap u (List.mem_cons_of_mem t hu)
    simp only [render_cons, List.flatMap_cons, nests_append,
      nests_quote (hstr t List.mem_cons_self), nests_of_not_mem ht.1 ht.2, Option.bind_some, hmore]

/-! ## Documents -/

/-- The text of a value at a level of nesting, as `json.dumps` writes it with an indentation of two
blanks. -/
abbrev Writer := Nat → List Char

/-- A line end, and the blanks of the next line. -/
def newline (level : Nat) : List Char := '\n' :: List.replicate (2 * level) ' '

def str (s : List Char) : Writer := fun _ => quote s

def num (n : Nat) : Writer := fun _ => Nat.toDigits 10 n

def bool (b : Bool) : Writer := fun _ => if b then "true".toList else "false".toList

/-- Texts in brackets, each on its own line. -/
def block (opening closing : Char) (texts : List (List Char)) (level : Nat) : List Char :=
  if texts = [] then [opening, closing]
  else opening :: newline (level + 1) ++
    (',' :: newline (level + 1)).intercalate texts ++ newline level ++ [closing]

def arr (items : List Writer) : Writer := fun level =>
  block '[' ']' (items.map fun item => item (level + 1)) level

/-- The fields of an object, sorted by their keys. -/
def obj (fields : List (String × Writer)) : Writer := fun level =>
  block '{' '}' ((fields.insertionSort fun a b => a.1 ≤ b.1).map fun field =>
    quote field.1.toList ++ ": ".toList ++ field.2 (level + 1)) level

/-- `json.dumps`. -/
def dumps (value : Writer) : List Char := value 0

/-- A value's text is of printable characters and line ends. -/
def Clean (value : Writer) : Prop := ∀ level, ∀ c ∈ value level, printable c = true ∨ c = '\n'

theorem clean_str (s : List Char) : Clean (str s) :=
  fun _ c hc => Or.inl (List.all_eq_true.mp (printable_quote s) c hc)

theorem printable_of_isDigit {c : Char} (h : c.isDigit = true) : printable c = true := by
  simp only [Char.isDigit, Bool.and_eq_true, decide_eq_true_eq] at h
  simp only [printable, Bool.and_eq_true, decide_eq_true_eq]
  exact ⟨le_trans (by decide) h.1, le_trans h.2 (by decide)⟩

theorem clean_num (n : Nat) : Clean (num n) := fun _ _ hc =>
  Or.inl (printable_of_isDigit (Nat.isDigit_of_mem_toDigits (by decide) (by decide) hc))

theorem clean_bool (b : Bool) : Clean (bool b) := by
  have h : ∀ b, ∀ c ∈ bool b 0, printable c = true ∨ c = '\n' := by decide
  exact fun _ => h b

theorem clean_newline (level : Nat) : ∀ c ∈ newline level, printable c = true ∨ c = '\n' := by
  intro c hc
  rcases List.mem_cons.mp hc with rfl | hc
  · exact Or.inr rfl
  · rw [List.eq_of_mem_replicate hc]
    exact Or.inl rfl

theorem mem_intercalate {sep : List Char} {texts : List (List Char)} {c : Char}
    (h : c ∈ sep.intercalate texts) : c ∈ sep ∨ ∃ text ∈ texts, c ∈ text := by
  induction texts with
  | nil => cases h
  | cons text texts ih =>
    cases texts with
    | nil =>
      rw [List.intercalate_singleton] at h
      exact Or.inr ⟨text, List.mem_cons_self, h⟩
    | cons next texts =>
      rw [List.intercalate_cons_cons, List.mem_append, List.mem_append] at h
      rcases h with (h | h) | h
      · exact Or.inr ⟨text, List.mem_cons_self, h⟩
      · exact Or.inl h
      · rcases ih h with hc | ⟨t, ht, hc⟩
        · exact Or.inl hc
        · exact Or.inr ⟨t, List.mem_cons_of_mem text ht, hc⟩

theorem clean_block {opening closing : Char} (hopening : printable opening = true)
    (hclosing : printable closing = true) {texts : List (List Char)}
    (htexts : ∀ text ∈ texts, ∀ c ∈ text, printable c = true ∨ c = '\n') (level : Nat) :
    ∀ c ∈ block opening closing texts level, printable c = true ∨ c = '\n' := by
  intro c hc
  rw [block] at hc
  split at hc
  · simp only [List.mem_cons, List.not_mem_nil, or_false] at hc
    rcases hc with rfl | rfl
    · exact Or.inl hopening
    · exact Or.inl hclosing
  · simp only [List.mem_append, List.mem_cons, List.cons_append, List.not_mem_nil, or_false] at hc
    rcases hc with rfl | ((hc | hc) | hc) | rfl
    · exact Or.inl hopening
    · exact clean_newline _ c hc
    · rcases mem_intercalate hc with hc | ⟨text, htext, hc⟩
      · rcases List.mem_cons.mp hc with rfl | hc
        · exact Or.inl rfl
        · exact clean_newline _ c hc
      · exact htexts text htext c hc
    · exact clean_newline _ c hc
    · exact Or.inl hclosing

theorem clean_arr {items : List Writer} (h : ∀ item ∈ items, Clean item) : Clean (arr items) := by
  intro level
  refine clean_block rfl rfl ?_ level
  intro text htext
  obtain ⟨item, hitem, rfl⟩ := List.mem_map.mp htext
  exact h item hitem (level + 1)

theorem clean_obj {fields : List (String × Writer)} (h : ∀ field ∈ fields, Clean field.2) :
    Clean (obj fields) := by
  intro level
  refine clean_block rfl rfl ?_ level
  intro text htext
  obtain ⟨field, hfield, rfl⟩ := List.mem_map.mp htext
  intro c hc
  rcases List.mem_append.mp hc with hc | hc
  · rcases List.mem_append.mp hc with hc | hc
    · exact clean_str field.1.toList 0 c hc
    · exact Or.inl (List.all_eq_true.mp (by rfl : ": ".toList.all printable = true) c hc)
  · exact h field ((List.mem_insertionSort _).mp hfield) (level + 1) c hc

end JsonText

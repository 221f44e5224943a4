import Mt5HttpApi.Lib.JsonLoads

/-!
# JSON text that is put together

A program that writes JSON by hand puts pieces of text next to one another. `Reads` is what Python's
scanner makes of a piece, wherever it stands. Pieces are put together by `reads_array` and
`reads_object`, also those with an error in them: the first one is the error of the whole.
-/

namespace JsonLoads

open Utf8

variable {F : Type} {float : List Char → F} {depth : ℕ} {text : List Char}

/-! ### The first character of a value -/

theorem scanOnce_quote (fuel depth : ℕ) (rest : List Char) :
    scanOnce float (fuel + 1) depth ('"' :: rest) =
      (orError (scanString rest)).map fun r => (.str r.1, r.2) := by
  rw [scanOnce.eq_def]
  dsimp only
  rw [if_pos List.head?_cons, List.drop_one, List.tail_cons]

theorem scanOnce_bracket (fuel depth : ℕ) (rest : List Char) :
    scanOnce float (fuel + 1) (depth + 1) ('[' :: rest) =
      (nested ']' [] (fun text => scanItems float fuel depth text) rest).map fun r =>
        (.arr r.1, r.2) := by
  rw [scanOnce.eq_def]
  dsimp only
  rw [if_neg (by simp), if_pos List.head?_cons, List.drop_one, List.tail_cons]

theorem scanOnce_brace (fuel depth : ℕ) (rest : List Char) :
    scanOnce float (fuel + 1) (depth + 1) ('{' :: rest) =
      (nested '}' [] (fun text => scanFields float fuel depth text) rest).map fun r =>
        (.obj (fieldsOf r.1), r.2) := by
  rw [scanOnce.eq_def]
  dsimp only
  rw [if_neg (by simp), if_neg (by simp), if_pos List.head?_cons, List.drop_one, List.tail_cons]

theorem scanOnce_plain {c : Char} (hquote : c ≠ '"') (hbracket : c ≠ '[') (hbrace : c ≠ '{')
    (fuel depth : ℕ) (rest : List Char) :
    scanOnce float (fuel + 1) depth (c :: rest) = orError (scanPlain float (c :: rest)) := by
  rw [scanOnce.eq_def]
  dsimp only
  rw [if_neg (by simpa using hquote), if_neg (by simpa using hbracket),
    if_neg (by simpa using hbrace)]

/-! ### Pieces of text -/

/-- The characters that a text between quotes stands for, wherever it stands. -/
def ReadsBody (body : List Char) (s : Option (List CodePoint)) : Prop :=
  ∀ rest, scanPoints (body ++ '"' :: rest) = s.map fun s => (s, rest)

section Body

variable {body : List Char} {s : Option (List CodePoint)}

theorem readsBody_nil : ReadsBody [] (some []) := by
  intro rest
  rw [List.nil_append, scanPoints.eq_def]
  dsimp only
  rw [if_pos rfl, Option.map_some]

/-- A character that stands for itself, unless it is a control character. -/
theorem ReadsBody.cons {c : Char} (h : ReadsBody body s) (hquote : c ≠ '"') (hback : c ≠ '\\') :
    ReadsBody (c :: body) (if c.toNat < 0x20 then none else s.map (.scalar c :: ·)) := by
  intro rest
  rw [List.cons_append, scanPoints.eq_def]
  dsimp only
  rw [if_neg hquote, if_neg hback, h rest]
  split
  next => rfl
  next =>
    cases s with
    | none => rfl
    | some s => rfl

/-- A letter with a backslash. -/
theorem ReadsBody.escape {e x : Char} (h : ReadsBody body s) (hu : e ≠ 'u')
    (he : escaped e = some x) : ReadsBody ('\\' :: e :: body) (s.map (.scalar x :: ·)) := by
  intro rest
  rw [List.cons_append, List.cons_append, scanPoints.eq_def]
  dsimp only
  rw [if_neg (by decide), if_pos rfl, if_neg hu, he, h rest]
  cases s with
  | none => rfl
  | some s => rfl

/-- A code point by its number. -/
theorem ReadsBody.quad {x y z w : Char} {n : ℕ} (h : ReadsBody body s)
    (hn : hexQuad x y z w = some n) :
    ReadsBody ('\\' :: 'u' :: x :: y :: z :: w :: body) (s.map (codePoint n :: ·)) := by
  intro rest
  simp only [List.cons_append]
  rw [scanPoints.eq_def]
  dsimp only
  rw [if_neg (by decide), if_pos rfl, if_pos rfl, hn, h rest]
  cases s with
  | none => rfl
  | some s => rfl

end Body

/-- What may come after a value. -/
def Ends (rest : List Char) : Prop :=
  ∀ c ∈ rest.head?, c = ',' ∨ c = ']' ∨ c = '}' ∨ isBlank c = true

theorem ends_nil : Ends [] := fun c hc => by cases hc

theorem ends_comma (rest : List Char) : Ends (',' :: rest) := by
  intro c hc
  exact Or.inl (Option.some.inj hc).symm

variable (float) in
/-- What the scanner makes of a text, wherever it stands. It nests no deeper than `depth`. -/
structure Reads (depth : ℕ) (text : List Char) (value : Option (Value F)) : Prop where
  head : ∃ c more, text = c :: more ∧ c.toNat < 0x80 ∧ isBlank c = false ∧ c ≠ ']' ∧ c ≠ '}'
  scan : ∀ fuel d rest, 2 * (text ++ rest).length + 1 ≤ fuel → depth ≤ d → Ends rest →
    scanOnce float fuel d (text ++ rest) = (orError value).map fun v => (v, rest)

/-- A piece may stand deeper. -/
theorem Reads.mono {depth' : ℕ} {value : Option (Value F)} (h : Reads float depth text value)
    (hle : depth ≤ depth') : Reads float depth' text value where
  head := h.head
  scan fuel d rest hfuel hd := h.scan fuel d rest hfuel (hle.trans hd)

/-- A piece at the beginning of a text has no white space before it. -/
theorem Reads.skip {value : Option (Value F)} (h : Reads float depth text value)
    (rest : List Char) : skip (text ++ rest) = text ++ rest := by
  obtain ⟨c, more, rfl, -, hblank, -⟩ := h.head
  rw [List.cons_append, JsonLoads.skip, List.dropWhile_cons_of_neg (by simp [hblank])]

theorem Reads.skip_gap {value : Option (Value F)} {gap : List Char}
    (h : Reads float depth text value) (hgap : ∀ c ∈ gap, isBlank c = true) (rest : List Char) :
    JsonLoads.skip (gap ++ (text ++ rest)) = text ++ rest := by
  rw [JsonLoads.skip, List.dropWhile_append_of_pos hgap]
  exact h.skip rest

/-- The text is read. -/
theorem Reads.loads {value : Option (Value F)} (h : Reads float depth text value) :
    loads float depth text = orError value := by
  obtain ⟨c, more, htext, hascii, -⟩ := h.head
  have hmark : text.head? ≠ some '\uFEFF' := by
    rw [htext]
    rintro heq
    cases heq
    exact absurd hascii (by decide)
  have hskip := h.skip []
  have hscan := h.scan (fuelFor text) depth [] (by rw [List.append_nil, fuelFor]; omega) le_rfl
    ends_nil
  rw [List.append_nil] at hskip hscan
  rw [JsonLoads.loads, if_neg hmark, hskip, hscan]
  cases value with
  | none => rfl
  | some value => rfl

theorem reads_str {body : List Char} {s : Option (List CodePoint)} (h : ReadsBody body s) :
    Reads float depth ('"' :: body ++ ['"']) (s.map fun s => .str (joined s)) where
  head := ⟨'"', body ++ ['"'], rfl, by decide, by decide, by decide, by decide⟩
  scan fuel d rest hfuel _ _ := by
    obtain ⟨fuel, rfl⟩ := Nat.exists_eq_succ_of_ne_zero (n := fuel) (by omega)
    rw [List.cons_append, List.cons_append, List.append_assoc, List.singleton_append,
      scanOnce_quote, scanString, h rest]
    cases s with
    | none => rfl
    | some s => rfl

/-- `str` of a bool in JSON. -/
def boolText (b : Bool) : List Char := if b then "true".toList else "false".toList

theorem reads_bool (b : Bool) : Reads float 0 (boolText b) (some (.bool b)) := by
  cases b with
  | false =>
    refine ⟨⟨'f', "alse".toList, rfl, by decide⟩, fun fuel d rest hfuel _ _ => ?_⟩
    obtain ⟨fuel, rfl⟩ := Nat.exists_eq_succ_of_ne_zero (n := fuel) (by omega)
    show scanOnce float (fuel + 1) d ('f' :: ("alse".toList ++ rest)) = _
    rw [scanOnce_plain (by decide) (by decide) (by decide)]
    simp [scanPlain, named, orError, Except.map]
  | true =>
    refine ⟨⟨'t', "rue".toList, rfl, by decide⟩, fun fuel d rest hfuel _ _ => ?_⟩
    obtain ⟨fuel, rfl⟩ := Nat.exists_eq_succ_of_ne_zero (n := fuel) (by omega)
    show scanOnce float (fuel + 1) d ('t' :: ("rue".toList ++ rest)) = _
    rw [scanOnce_plain (by decide) (by decide) (by decide)]
    simp [scanPlain, named, orError, Except.map]

/-- `str` of an integer. -/
def intText (n : ℤ) : List Char :=
  if n < 0 then '-' :: Nat.toDigits 10 n.natAbs else Nat.toDigits 10 n.natAbs

/-- The first digit of a number is no zero, unless it is the only one. -/
theorem head?_toDigits (n : ℕ) : n = 0 ∨ (Nat.toDigits 10 n).head? ≠ some '0' := by
  induction n using Nat.strongRecOn with
  | ind n ih =>
    rw [Nat.toDigits_eq_if (by decide)]
    split
    next hlt =>
      have hall : ∀ d < 10, d = 0 ∨ [Nat.digitChar d].head? ≠ some '0' := by decide
      exact hall n hlt
    next hge =>
      refine Or.inr ?_
      rw [List.head?_append_of_ne_nil _ Nat.toDigits_ne_nil]
      exact (ih (n / 10) (by omega)).resolve_left (by omega)

theorem not_isDigit_of_ends {rest : List Char} (h : Ends rest) :
    rest.takeWhile Char.isDigit = [] ∧ rest.head? ≠ some '.' ∧ rest.head? ≠ some 'e' ∧
      rest.head? ≠ some 'E' := by
  cases rest with
  | nil => decide
  | cons c rest =>
    have hc := h c rfl
    simp only [isBlank, Bool.or_eq_true, decide_eq_true_eq] at hc
    rcases hc with rfl | rfl | rfl | ((rfl | rfl) | rfl) | rfl
    all_goals exact ⟨rfl, by simp⟩

theorem scanWhole_digits {rest : List Char} (n : ℕ) (h : rest.takeWhile Char.isDigit = []) :
    scanWhole (Nat.toDigits 10 n ++ rest) = Nat.toDigits 10 n := by
  have hall : ∀ c ∈ Nat.toDigits 10 n, c.isDigit = true := fun c hc =>
    Nat.isDigit_of_mem_toDigits (by decide) (by decide) hc
  rw [scanWhole, List.head?_append_of_ne_nil _ Nat.toDigits_ne_nil]
  rcases head?_toDigits n with rfl | hne
  · rfl
  · rw [if_neg hne, List.takeWhile_append_of_pos hall, h, List.append_nil]

/-- An integer is followed by no more of a number. -/
theorem scanNumber_intText {rest : List Char} {n : ℤ}
    (hshort : (Nat.toDigits 10 n.natAbs).length ≤ PyInt.maxDigits) (hrest : Ends rest) :
    scanNumber float (intText n ++ rest) = some (.int n, rest) := by
  obtain ⟨htake, hpoint, he, hE⟩ := not_isDigit_of_ends hrest
  have hminus : scanMinus (intText n ++ rest) = if n < 0 then ['-'] else [] := by
    rw [scanMinus, intText]
    split
    next => rfl
    next =>
      have hhead : (Nat.toDigits 10 n.natAbs ++ rest).head? ≠ some '-' := by
        rw [List.head?_append_of_ne_nil _ Nat.toDigits_ne_nil]
        intro heq
        have hdigit := Nat.isDigit_of_mem_toDigits (b := 10) (by decide) (by decide)
          (List.mem_of_head? heq)
        exact absurd hdigit (by decide)
      exact if_neg hhead
  have hbody : (intText n ++ rest).drop (scanMinus (intText n ++ rest)).length =
      Nat.toDigits 10 n.natAbs ++ rest := by
    rw [hminus, intText]
    split <;> rfl
  -- neither a point nor an exponent can follow
  have hfraction : scanFraction rest = ([], rest) := by
    rw [scanFraction]
    exact if_neg fun h => hpoint h.1
  have hexponent : scanExponent rest = ([], rest) := by
    rw [scanExponent]
    exact if_neg fun h => h.1.elim he hE
  have hdrop : (Nat.toDigits 10 n.natAbs ++ rest).drop (Nat.toDigits 10 n.natAbs).length = rest :=
    List.drop_left
  rw [scanNumber]
  dsimp only
  rw [hbody, scanWhole_digits n.natAbs htake, if_neg Nat.toDigits_ne_nil, hdrop, hfraction]
  dsimp only
  rw [hexponent]
  dsimp only
  rw [if_pos ⟨rfl, rfl⟩, if_pos hshort, Nat.ofDigitChars_ten_toDigits, hminus]
  by_cases hneg : n < 0
  · rw [if_pos hneg, if_neg (List.cons_ne_nil _ _)]
    congr 3
    omega
  · rw [if_neg hneg, if_pos rfl]
    congr 3
    omega

theorem head_intText (n : ℤ) : ∃ c more, intText n = c :: more ∧
    (c = '-' ∧ (∃ d ∈ more.head?, d.isDigit = true) ∨ c.isDigit = true) := by
  obtain ⟨d, more, hdigits⟩ := List.exists_cons_of_ne_nil (@Nat.toDigits_ne_nil n.natAbs 10)
  have hd : d.isDigit = true := Nat.isDigit_of_mem_toDigits (b := 10) (n := n.natAbs) (by decide)
    (by decide) (hdigits ▸ List.mem_cons_self)
  rw [intText, hdigits]
  split
  next => exact ⟨'-', d :: more, rfl, Or.inl ⟨rfl, d, rfl, hd⟩⟩
  next => exact ⟨d, more, rfl, Or.inr hd⟩

/-- An integer does not begin like one of the names. -/
theorem find?_named_intText (n : ℤ) (rest : List Char) :
    (named float).find? (fun name => name.1.isPrefixOf (intText n ++ rest)) = none := by
  obtain ⟨c, more, htext, hc⟩ := head_intText n
  rw [List.find?_eq_none, htext]
  intro name hname hpre
  simp only [named, List.map_cons, List.map_nil, List.mem_cons, List.not_mem_nil,
    or_false] at hname
  rcases hc with ⟨rfl, d, hd, hdigit⟩ | hdigit
  · obtain ⟨more, rfl⟩ := List.head?_eq_some_iff.mp hd
    rcases hname with rfl | rfl | rfl | rfl | rfl | rfl
    all_goals simp at hpre
    rw [← hpre.1] at hdigit
    exact absurd hdigit (by decide)
  · rcases hname with rfl | rfl | rfl | rfl | rfl | rfl
    all_goals
      simp at hpre
      rw [← hpre.1] at hdigit
      exact absurd hdigit (by decide)

theorem reads_int {n : ℤ} (hshort : (Nat.toDigits 10 n.natAbs).length ≤ PyInt.maxDigits) :
    Reads float 0 (intText n) (some (.int n)) := by
  obtain ⟨c, more, htext, hhead⟩ := head_intText n
  have hc : c = '-' ∨ c.isDigit = true := hhead.imp And.left id
  have hsmall : c.toNat < 0x80 := by
    rcases hc with rfl | hdigit
    · decide
    · have hle := (Text.toNat_of_isDigit hdigit).2
      omega
  have hne : ∀ d, d ≠ '-' → d.isDigit = false → c ≠ d := by
    rintro d hminus hdigit rfl
    rcases hc with rfl | hc
    · exact hminus rfl
    · rw [hc] at hdigit
      cases hdigit
  refine ⟨⟨c, more, htext, hsmall, ?_, hne _ (by decide) (by decide),
    hne _ (by decide) (by decide)⟩, fun fuel d rest hfuel _ hrest => ?_⟩
  · simp only [isBlank, Bool.or_eq_false_iff, decide_eq_false_iff_not]
    exact ⟨⟨⟨hne _ (by decide) (by decide), hne _ (by decide) (by decide)⟩,
      hne _ (by decide) (by decide)⟩, hne _ (by decide) (by decide)⟩
  · obtain ⟨fuel, rfl⟩ := Nat.exists_eq_succ_of_ne_zero (n := fuel) (by omega)
    have hplain : scanPlain float (intText n ++ rest) = some (.int n, rest) := by
      rw [scanPlain, find?_named_intText]
      exact scanNumber_intText hshort hrest
    rw [htext, List.cons_append] at hplain ⊢
    rw [scanOnce_plain (hne _ (by decide) (by decide)) (hne _ (by decide) (by decide))
      (hne _ (by decide) (by decide)), hplain]
    rfl

/-! ### Arrays and objects -/

/-- The text of an array, with white space after each comma. -/
def array (gap : List Char) (items : List (List Char)) : List Char :=
  '[' :: List.intercalate (',' :: gap) items ++ [']']

/-- The text of a field. The key is given as it stands between its quotes. -/
def field (gap : List Char) (item : List Char × List Char) : List Char :=
  '"' :: item.1 ++ '"' :: ':' :: gap ++ item.2

/-- The text of an object, with white space after each comma and colon. -/
def object (gap : List Char) (fields : List (List Char × List Char)) : List Char :=
  '{' :: List.intercalate (',' :: gap) (fields.map (field gap)) ++ ['}']

theorem continued_close {α : Type} {close : Char} (hclose : isBlank close = false) (last : α)
    (more : List Char → Except Error (α × List Char)) (rest : List Char) :
    continued close last more (close :: rest) = .ok (last, rest) := by
  have hskip : skip (close :: rest) = close :: rest := by
    rw [skip, List.dropWhile_cons_of_neg (by simp [hclose])]
  rw [continued, hskip]
  dsimp only
  rw [if_pos rfl]

theorem continued_comma {α : Type} {close : Char} (hclose : close ≠ ',') (last : α)
    (more : List Char → Except Error (α × List Char)) (rest : List Char) :
    continued close last more (',' :: rest) = more (skip rest) := by
  have hskip : skip (',' :: rest) = ',' :: rest := by
    rw [skip, List.dropWhile_cons_of_neg (by decide)]
  rw [continued, hskip]
  dsimp only
  rw [if_neg (Ne.symm hclose), if_pos rfl]

/-- A loop over items with commas between them reads them one after another. -/
theorem loop_reads {α : Type} {close : Char} {gap : List Char}
    {scan : ℕ → List Char → Except Error (List α × List Char)}
    {first : ℕ → List Char → Except Error (α × List Char)}
    (hscan : ∀ fuel text, scan (fuel + 1) text = first fuel text >>= fun r =>
      continued close [r.1] (fun text => (scan fuel text).map fun more => (r.1 :: more.1, more.2))
        r.2)
    (hclose : isBlank close = false ∧ close ≠ ',') (hends : ∀ rest, Ends (close :: rest))
    (hgap : ∀ c ∈ gap, isBlank c = true) (items : List (List Char × Option α))
    (hskip : ∀ item ∈ items, ∀ rest, skip (item.1 ++ rest) = item.1 ++ rest)
    (hfirst : ∀ item ∈ items, ∀ fuel rest, 2 * (item.1 ++ rest).length + 1 ≤ fuel → Ends rest →
      first fuel (item.1 ++ rest) = (orError item.2).map fun a => (a, rest))
    (hne : items ≠ []) (fuel : ℕ) (rest : List Char)
    (hfuel : 2 * (List.intercalate (',' :: gap) (items.map Prod.fst) ++ close :: rest).length + 2 ≤
      fuel) :
    scan fuel (List.intercalate (',' :: gap) (items.map Prod.fst) ++ close :: rest) =
      (orError (items.mapM Prod.snd)).map fun values => (values, rest) := by
  induction items generalizing fuel with
  | nil => exact absurd rfl hne
  | cons item items ih =>
    obtain ⟨fuel, rfl⟩ := Nat.exists_eq_succ_of_ne_zero (n := fuel) (by omega)
    have hitem := hfirst item List.mem_cons_self
    rw [List.mapM_cons, hscan]
    cases items with
    | nil =>
      rw [List.map_singleton, List.intercalate_singleton] at hfuel ⊢
      rw [hitem fuel _ (by omega) (hends rest)]
      cases item.2 with
      | none => rfl
      | some value =>
        rw [orError_some, map_ok, ok_bind, continued_close hclose.1]
        rfl
    | cons item' items =>
      have hrest : List.intercalate (',' :: gap) ((item :: item' :: items).map Prod.fst) ++
          close :: rest = item.1 ++ ',' :: (gap ++ (List.intercalate (',' :: gap)
            ((item' :: items).map Prod.fst) ++ close :: rest)) := by
        rw [List.map_cons, List.map_cons, List.intercalate_cons_cons, ← List.map_cons]
        simp only [List.append_assoc, List.cons_append]
      rw [hrest] at hfuel ⊢
      rw [hitem fuel _ (by omega) (ends_comma _)]
      cases item.2 with
      | none => rfl
      | some value =>
        -- the comma, the white space after it, and the other items
        have hnext : skip (gap ++ (List.intercalate (',' :: gap)
            ((item' :: items).map Prod.fst) ++ close :: rest)) =
              List.intercalate (',' :: gap) ((item' :: items).map Prod.fst) ++ close :: rest := by
          obtain ⟨more, hmore⟩ : ∃ more, List.intercalate (',' :: gap)
              ((item' :: items).map Prod.fst) = item'.1 ++ more := by
            cases items with
            | nil => exact ⟨[], by simp⟩
            | cons item'' items =>
              rw [List.map_cons, List.map_cons, List.intercalate_cons_cons, List.append_assoc]
              exact ⟨_, rfl⟩
          rw [skip, List.dropWhile_append_of_pos hgap, ← skip, hmore, List.append_assoc]
          exact hskip item' (by simp) _
        have hmore := ih (fun i hi => hskip i (List.mem_cons_of_mem _ hi))
          (fun i hi => hfirst i (List.mem_cons_of_mem _ hi)) (List.cons_ne_nil _ _) fuel (by
            simp only [List.length_append, List.length_cons] at hfuel ⊢
            omega)
        rw [orError_some, map_ok, ok_bind, continued_comma hclose.2, hnext, hmore]
        cases (item' :: items).mapM Prod.snd with
        | none => rfl
        | some values => rfl

theorem ends_bracket (rest : List Char) : Ends (']' :: rest) := by
  intro c hc
  exact Or.inr (Or.inl (Option.some.inj hc).symm)

theorem ends_brace (rest : List Char) : Ends ('}' :: rest) := by
  intro c hc
  exact Or.inr (Or.inr (Or.inl (Option.some.inj hc).symm))

theorem nested_close {α : Type} {close : Char} (hclose : isBlank close = false) (empty : α)
    (inner : List Char → Except Error (α × List Char)) (rest : List Char) :
    nested close empty inner (close :: rest) = .ok (empty, rest) := by
  have hskip : skip (close :: rest) = close :: rest := by
    rw [skip, List.dropWhile_cons_of_neg (by simp [hclose])]
  rw [nested, hskip]
  dsimp only
  rw [if_pos rfl]

theorem nested_inner {α : Type} {close c : Char} (hc : isBlank c = false) (hne : c ≠ close)
    (empty : α) (inner : List Char → Except Error (α × List Char)) (rest : List Char) :
    nested close empty inner (c :: rest) = inner (c :: rest) := by
  have hskip : skip (c :: rest) = c :: rest := by
    rw [skip, List.dropWhile_cons_of_neg (by simp [hc])]
  rw [nested, hskip]
  dsimp only
  rw [if_neg hne]

/-- The first of some texts with commas between them. -/
theorem intercalate_eq_append {sep first : List Char} (texts : List (List Char)) :
    ∃ more, List.intercalate sep (first :: texts) = first ++ more := by
  cases texts with
  | nil => exact ⟨[], by rw [List.intercalate_singleton, List.append_nil]⟩
  | cons second texts =>
    rw [List.intercalate_cons_cons, List.append_assoc]
    exact ⟨_, rfl⟩

theorem scanItems_succ (d fuel : ℕ) (text : List Char) :
    scanItems float (fuel + 1) d text = scanOnce float fuel d text >>= fun r =>
      continued ']' [r.1] (fun text => (scanItems float fuel d text).map fun more =>
        (r.1 :: more.1, more.2)) r.2 := by
  rw [scanItems]

/-- A key and its value. -/
def scanField (float : List Char → F) (d fuel : ℕ) (text : List Char) :
    Except Error ((List CodePoint × Value F) × List Char) :=
  orError (scanKey text) >>= fun r =>
    (scanOnce float fuel d r.2).map fun v => ((r.1, v.1), v.2)

theorem scanFields_succ (d fuel : ℕ) (text : List Char) :
    scanFields float (fuel + 1) d text = scanField float d fuel text >>= fun r =>
      continued '}' [r.1] (fun text => (scanFields float fuel d text).map fun more =>
        (r.1 :: more.1, more.2)) r.2 := by
  rw [scanFields, scanField]
  cases scanKey text with
  | none => rfl
  | some key =>
    obtain ⟨key, rest⟩ := key
    rw [orError_some, ok_bind, ok_bind]
    dsimp only
    cases scanOnce float fuel d rest with
    | error e => rfl
    | ok v => rfl

/-- An array is read when its items are. -/
theorem reads_array {gap : List Char} (hgap : ∀ c ∈ gap, isBlank c = true)
    {items : List (List Char × Option (Value F))}
    (h : ∀ item ∈ items, Reads float depth item.1 item.2) :
    Reads float (depth + 1) (array gap (items.map Prod.fst)) ((items.mapM Prod.snd).map .arr) where
  head := ⟨'[', _, rfl, by decide⟩
  scan fuel d rest hfuel hd _ := by
    obtain ⟨fuel, rfl⟩ := Nat.exists_eq_succ_of_ne_zero (n := fuel) (by omega)
    obtain ⟨d, rfl⟩ := Nat.exists_eq_succ_of_ne_zero (n := d) (by omega)
    have htext : array gap (items.map Prod.fst) ++ rest =
        '[' :: (List.intercalate (',' :: gap) (items.map Prod.fst) ++ ']' :: rest) := by
      rw [array, List.cons_append, List.cons_append, List.append_assoc, List.singleton_append]
    rw [htext] at hfuel ⊢
    rw [scanOnce_bracket]
    cases items with
    | nil =>
      rw [List.map_nil, List.intercalate_nil, List.nil_append, nested_close (by decide)]
      rfl
    | cons item items =>
      -- the first item is no closing bracket
      obtain ⟨more, hmore⟩ := @intercalate_eq_append (',' :: gap) item.1 (items.map Prod.fst)
      obtain ⟨c, begun, hitem, -, hblank, hc, -⟩ := (h item List.mem_cons_self).head
      have hinner : nested ']' [] (fun text => scanItems float fuel d text)
          (List.intercalate (',' :: gap) ((item :: items).map Prod.fst) ++ ']' :: rest) =
            scanItems float fuel d
              (List.intercalate (',' :: gap) ((item :: items).map Prod.fst) ++ ']' :: rest) := by
        rw [List.map_cons, hmore, hitem, List.cons_append, List.cons_append]
        exact nested_inner hblank hc _ _ _
      have hloop := @loop_reads _ ']' gap (fun fuel text => scanItems float fuel d text) _
        (scanItems_succ d) ⟨by decide, by decide⟩ ends_bracket hgap (item :: items)
        (fun i hi => (h i hi).skip)
        (fun i hi fuel rest hfuel => (h i hi).scan fuel d rest hfuel (by omega))
        (List.cons_ne_nil _ _) fuel rest (by rw [List.length_cons] at hfuel; omega)
      rw [hinner, hloop]
      cases (item :: items).mapM Prod.snd with
      | none => rfl
      | some values => rfl

/-- A field of an object: its key between quotes and as a string, and its value. -/
structure Entry (F : Type) where
  body : List Char
  key : List CodePoint
  text : List Char
  value : Option (Value F)

/-- The field that an entry is read as. -/
def Entry.item (e : Entry F) : Option (List CodePoint × Value F) := e.value.map fun v => (e.key, v)

/-- The key is read, and what is read after it. -/
structure Entry.Reads (float : List Char → F) (depth : ℕ) (e : Entry F) : Prop where
  body : ∃ s, ReadsBody e.body (some s) ∧ joined s = e.key
  text : JsonLoads.Reads float depth e.text e.value

/-- The beginning of a field. -/
theorem scanKey_field {gap : List Char} (hgap : ∀ c ∈ gap, isBlank c = true) {e : Entry F}
    (h : e.Reads float depth) (rest : List Char) :
    scanKey (field gap (e.body, e.text) ++ rest) = some (e.key, e.text ++ rest) := by
  obtain ⟨s, hbody, hkey⟩ := h.body
  have htext : field gap (e.body, e.text) ++ rest =
      '"' :: (e.body ++ '"' :: (':' :: (gap ++ (e.text ++ rest)))) := by
    simp only [field, List.cons_append, List.append_assoc]
  have hcolon : skip (':' :: (gap ++ (e.text ++ rest))) = ':' :: (gap ++ (e.text ++ rest)) := by
    rw [skip, List.dropWhile_cons_of_neg (by decide)]
  rw [scanKey, htext, if_pos List.head?_cons, List.drop_one, List.tail_cons, scanString,
    hbody _, Option.map_some, Option.map_some, Option.bind_some, hcolon, if_pos List.head?_cons,
    List.drop_one, List.tail_cons, h.text.skip_gap hgap, hkey]

/-- An object is read when its fields are. -/
theorem reads_object {gap : List Char} (hgap : ∀ c ∈ gap, isBlank c = true)
    {entries : List (Entry F)} (h : ∀ e ∈ entries, e.Reads float depth) :
    Reads float (depth + 1) (object gap (entries.map fun e => (e.body, e.text)))
      ((entries.mapM Entry.item).map fun items => .obj (fieldsOf items)) where
  head := ⟨'{', _, rfl, by decide⟩
  scan fuel d rest hfuel hd _ := by
    obtain ⟨fuel, rfl⟩ := Nat.exists_eq_succ_of_ne_zero (n := fuel) (by omega)
    obtain ⟨d, rfl⟩ := Nat.exists_eq_succ_of_ne_zero (n := d) (by omega)
    -- the fields as the loop takes them
    let items := entries.map fun e => (field gap (e.body, e.text), e.item)
    have hfields :
        (entries.map fun e => (e.body, e.text)).map (field gap) = items.map Prod.fst := by
      rw [List.map_map, List.map_map]
      rfl
    have hvalues : entries.mapM Entry.item = items.mapM Prod.snd := by
      rw [List.mapM_map]
      rfl
    have htext : object gap (entries.map fun e => (e.body, e.text)) ++ rest =
        '{' :: (List.intercalate (',' :: gap) (items.map Prod.fst) ++ '}' :: rest) := by
      rw [object, hfields, List.cons_append, List.cons_append, List.append_assoc,
        List.singleton_append]
    have hmem : ∀ item ∈ items, ∃ e ∈ entries, item = (field gap (e.body, e.text), e.item) := by
      intro item hitem
      obtain ⟨e, he, rfl⟩ := List.mem_map.mp hitem
      exact ⟨e, he, rfl⟩
    rw [htext] at hfuel ⊢
    rw [scanOnce_brace, hvalues]
    cases hitems : items with
    | nil =>
      rw [List.map_nil, List.intercalate_nil, List.nil_append, nested_close (by decide)]
      rfl
    | cons item more =>
      obtain ⟨e, -, hitem⟩ := hmem item (by rw [hitems]; exact List.mem_cons_self)
      obtain ⟨after, hafter⟩ := @intercalate_eq_append (',' :: gap) item.1 (more.map Prod.fst)
      have hinner : nested '}' [] (fun text => scanFields float fuel d text)
          (List.intercalate (',' :: gap) ((item :: more).map Prod.fst) ++ '}' :: rest) =
            scanFields float fuel d
              (List.intercalate (',' :: gap) ((item :: more).map Prod.fst) ++ '}' :: rest) := by
        rw [List.map_cons, hafter, hitem]
        exact nested_inner (c := '"') (by decide) (by decide) _ _ _
      have hloop := @loop_reads _ '}' gap (fun fuel text => scanFields float fuel d text) _
        (scanFields_succ d) ⟨by decide, by decide⟩ ends_brace hgap items
        (fun i hi rest => by
          obtain ⟨e, -, rfl⟩ := hmem i hi
          rfl)
        (fun i hi fuel rest hfuel hends => by
          obtain ⟨e, he, rfl⟩ := hmem i hi
          rw [scanField, scanKey_field hgap (h e he), orError_some, ok_bind,
            (h e he).text.scan fuel d rest ?_ (by omega) hends, Entry.item]
          · cases e.value with
            | none => rfl
            | some v => rfl
          · simp only [field, List.length_append, List.length_cons] at hfuel
            rw [List.length_append]
            omega)
        (by rw [hitems]; exact List.cons_ne_nil _ _) fuel rest
        (by rw [List.length_cons] at hfuel; omega)
      rw [hinner, ← hitems, hloop]
      cases items.mapM Prod.snd with
      | none => rfl
      | some values => rfl

/-- Distinct keys are kept as they are. -/
theorem fieldsOf_of_nodup {items : List (List CodePoint × Value F)}
    (h : (items.map Prod.fst).Nodup) : fieldsOf items = items := by
  have hloop : ∀ before after : List (List CodePoint × Value F),
      ((before ++ after).map Prod.fst).Nodup → after.foldl
        (fun fields item => Dict.set fields item.1 item.2) before = before ++ after := by
    intro before after
    induction after generalizing before with
    | nil => exact fun _ => (List.append_nil before).symm
    | cons item after ih =>
      intro hnodup
      have hnew : ¬ (before.any fun other => other.1 = item.1) = true := by
        rw [List.any_eq_true]
        rintro ⟨other, hother, heq⟩
        rw [List.map_append, List.nodup_append] at hnodup
        exact hnodup.2.2 other.1 (List.mem_map_of_mem hother) item.1 (by simp) (by simpa using heq)
      have hassoc : before ++ item :: after = before ++ [item] ++ after := by simp
      rw [List.foldl_cons, Dict.set, if_neg hnew, hassoc]
      exact ih (before ++ [item]) (hassoc ▸ hnodup)
  exact hloop [] items h

end JsonLoads

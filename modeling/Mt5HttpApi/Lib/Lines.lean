import Mt5HttpApi.Lib.Text

/-!
# The lines of a text

`str.splitlines`: a line ends at each of ten characters, and a carriage return with the line feed
after it ends one line only.

* `splitlines_append`: what comes after a line feed is split on its own.
* `splitlines_before`: the first line, and the text after its end.
* `mem_splitlines`: no line has an end of a line in it, and what it has is in the text.
-/

namespace Text

/-- A character that ends a line. -/
def endsLine (c : Char) : Bool :=
  c ∈ ['\n', '\x0b', '\x0c', '\r', '\x1c', '\x1d', '\x1e', '\x85', '\u2028', '\u2029']

/-- The first line has one more character. -/
def consLine (c : Char) : List (List Char) → List (List Char)
  | [] => [[c]]
  | line :: lines => (c :: line) :: lines

/-- No end of a line in it. -/
def OneLine (text : List Char) : Prop := ∀ c ∈ text, endsLine c = false

instance : DecidablePred OneLine := fun text =>
  inferInstanceAs (Decidable (∀ c ∈ text, endsLine c = false))

/-- `text.splitlines()`. -/
def splitlines : List Char → List (List Char)
  | [] => []
  | '\r' :: '\n' :: rest => [] :: splitlines rest
  | c :: rest => if endsLine c then [] :: splitlines rest else consLine c (splitlines rest)

variable {c : Char} {line text rest : List Char}

theorem splitlines_crlf (rest : List Char) :
    splitlines ('\r' :: '\n' :: rest) = [] :: splitlines rest := by
  rw [splitlines]

theorem splitlines_cons (h : endsLine c = false) (rest : List Char) :
    splitlines (c :: rest) = consLine c (splitlines rest) := by
  have hne : c ≠ '\r' := by
    rintro rfl
    cases h
  rw [splitlines]
  · rw [h]
    rfl
  · rintro _ rfl
    exact absurd rfl hne

theorem splitlines_end (h : endsLine c = true) (hcr : ¬ (c = '\r' ∧ rest.head? = some '\n')) :
    splitlines (c :: rest) = [] :: splitlines rest := by
  rw [splitlines]
  · rw [if_pos h]
  · rintro rest' rfl hrest
    rw [hrest] at hcr
    exact hcr ⟨rfl, rfl⟩

theorem splitlines_newline (rest : List Char) :
    splitlines ('\n' :: rest) = [] :: splitlines rest :=
  splitlines_end rfl (by simp)

theorem consLine_ne_nil (c : Char) (lines : List (List Char)) : consLine c lines ≠ [] := by
  cases lines with
  | nil => exact List.cons_ne_nil _ _
  | cons line lines => exact List.cons_ne_nil _ _

/-- The cases of `splitlines`: the end of the text, an end of a line of one or of two characters,
and another character. -/
theorem linesInduction {motive : List Char → Prop} (nil : motive [])
    (crlf : ∀ rest, motive rest → motive ('\r' :: '\n' :: rest))
    (brk : ∀ c rest, endsLine c = true → ¬ (c = '\r' ∧ rest.head? = some '\n') → motive rest →
      motive (c :: rest))
    (cons : ∀ c rest, endsLine c = false → motive rest → motive (c :: rest)) (text : List Char) :
    motive text := by
  induction text using splitlines.induct with
  | case1 => exact nil
  | case2 rest ih => exact crlf rest ih
  | case3 c rest hne hend ih =>
    refine brk c rest hend ?_ ih
    rintro ⟨rfl, hhead⟩
    obtain ⟨rest', rfl⟩ := List.head?_eq_some_iff.mp hhead
    exact hne rest' rfl rfl
  | case4 c rest hne hend ih => exact cons c rest (by simpa using hend) ih

theorem splitlines_ne_nil (h : text ≠ []) : splitlines text ≠ [] := by
  induction text using linesInduction with
  | nil => exact absurd rfl h
  | crlf rest _ =>
    rw [splitlines_crlf]
    exact List.cons_ne_nil _ _
  | brk c rest hend hcr _ =>
    rw [splitlines_end hend hcr]
    exact List.cons_ne_nil _ _
  | cons c rest hend _ =>
    rw [splitlines_cons hend]
    exact consLine_ne_nil _ _

/-- No line has an end of a line in it, and what it has is in the text. -/
theorem mem_splitlines (h : line ∈ splitlines text) :
    ∀ c ∈ line, endsLine c = false ∧ c ∈ text := by
  induction text using linesInduction generalizing line with
  | nil => cases h
  | crlf rest ih =>
    rw [splitlines_crlf] at h
    rcases List.mem_cons.mp h with rfl | h
    · simp
    · exact fun c hc => (ih h c hc).imp_right fun hmem => by simp [hmem]
  | brk d rest hend hcr ih =>
    rw [splitlines_end hend hcr] at h
    rcases List.mem_cons.mp h with rfl | h
    · simp
    · exact fun c hc => (ih h c hc).imp_right (List.mem_cons_of_mem d)
  | cons d rest hend ih =>
    rw [splitlines_cons hend] at h
    rcases hrest : splitlines rest with _ | ⟨first, more⟩
    · rw [hrest, consLine, List.mem_singleton] at h
      simpa [h] using hend
    · rw [hrest] at h ih
      rcases List.mem_cons.mp h with rfl | h
      · rw [List.forall_mem_cons]
        exact ⟨⟨hend, List.mem_cons_self⟩, fun c hc =>
          (ih List.mem_cons_self c hc).imp_right (List.mem_cons_of_mem d)⟩
      · exact fun c hc =>
          (ih (List.mem_cons_of_mem _ h) c hc).imp_right (List.mem_cons_of_mem d)

/-- What comes after a line feed is split on its own. -/
theorem splitlines_append (text rest : List Char) :
    splitlines (text ++ '\n' :: rest) = splitlines (text ++ ['\n']) ++ splitlines rest := by
  induction text using linesInduction with
  | nil =>
    rw [List.nil_append, List.nil_append, splitlines_newline, splitlines_newline]
    rfl
  | crlf text ih =>
    simp only [List.cons_append]
    rw [splitlines_crlf, splitlines_crlf, ih, List.cons_append]
  | brk c text hend hcr ih =>
    by_cases hlast : c = '\r' ∧ text = []
    · obtain ⟨rfl, rfl⟩ := hlast
      simp only [List.cons_append, List.nil_append]
      rw [splitlines_crlf, splitlines_crlf]
      rfl
    · -- what comes next is in the text itself
      have hnext : ∀ more, ¬ (c = '\r' ∧ (text ++ '\n' :: more).head? = some '\n') := by
        rintro more ⟨rfl, hhead⟩
        cases text with
        | nil => exact hlast ⟨rfl, rfl⟩
        | cons d text => exact hcr ⟨rfl, hhead⟩
      rw [List.cons_append, List.cons_append, splitlines_end hend (hnext rest),
        splitlines_end hend (hnext []), ih, List.cons_append]
  | cons c text hend ih =>
    rw [List.cons_append, List.cons_append, splitlines_cons hend, splitlines_cons hend, ih]
    have hne : splitlines (text ++ ['\n']) ≠ [] := splitlines_ne_nil (by simp)
    obtain ⟨first, more, hlines⟩ := List.exists_cons_of_ne_nil hne
    rw [hlines]
    rfl

/-- A text that ends with a line feed is split on its own. -/
theorem splitlines_append_of_ends {text : List Char} (h : ∀ c ∈ text.getLast?, c = '\n')
    (rest : List Char) : splitlines (text ++ rest) = splitlines text ++ splitlines rest := by
  rcases List.eq_nil_or_concat text with rfl | ⟨before, c, rfl⟩
  · rfl
  · obtain rfl : c = '\n' := h c (by simp)
    rw [List.concat_eq_append, List.append_assoc]
    exact splitlines_append before rest

/-- A line feed at the end ends the last line, or an empty one. -/
theorem splitlines_concat (text : List Char) :
    splitlines (text ++ ['\n']) = splitlines text ∨
      splitlines (text ++ ['\n']) = splitlines text ++ [[]] := by
  induction text using linesInduction with
  | nil => exact .inr rfl
  | crlf text ih =>
    rw [List.cons_append, List.cons_append, splitlines_crlf, splitlines_crlf]
    exact ih.imp (congrArg _) (congrArg _)
  | brk c text hend hcr ih =>
    by_cases hlast : c = '\r' ∧ text = []
    · obtain ⟨rfl, rfl⟩ := hlast
      exact .inl rfl
    · have hnext : ¬ (c = '\r' ∧ (text ++ ['\n']).head? = some '\n') := by
        rintro ⟨rfl, hhead⟩
        cases text with
        | nil => exact hlast ⟨rfl, rfl⟩
        | cons d text => exact hcr ⟨rfl, hhead⟩
      rw [List.cons_append, splitlines_end hend hnext, splitlines_end hend hcr]
      exact ih.imp (congrArg _) (congrArg _)
  | cons c text hend ih =>
    rw [List.cons_append, splitlines_cons hend, splitlines_cons hend]
    by_cases hnil : text = []
    · rw [hnil]
      exact .inl rfl
    · obtain ⟨first, more, hlines⟩ := List.exists_cons_of_ne_nil (splitlines_ne_nil hnil)
      rw [hlines] at ih ⊢
      rcases ih with ih | ih
      · exact .inl (congrArg _ ih)
      · exact .inr (congrArg _ ih)

/-- A text without an end of a line is one line. -/
theorem splitlines_line (h : ∀ c ∈ line, endsLine c = false) (hne : line ≠ []) :
    splitlines line = [line] := by
  induction line with
  | nil => exact absurd rfl hne
  | cons c line ih =>
    obtain ⟨hc, hline⟩ := List.forall_mem_cons.mp h
    rw [splitlines_cons hc]
    rcases line with _ | ⟨d, line⟩
    · rfl
    · rw [ih hline (List.cons_ne_nil _ _)]
      rfl

/-- What is after the end of a line that a text begins with. -/
def afterEnd : List Char → List Char
  | '\r' :: '\n' :: rest => rest
  | _ :: rest => rest
  | [] => []

/-- The text before an end of a line, and what is after it. -/
theorem splitlines_before (h : ∀ c ∈ line, endsLine c = false) (hc : endsLine c = true)
    (rest : List Char) :
    splitlines (line ++ c :: rest) = line :: splitlines (afterEnd (c :: rest)) := by
  induction line with
  | nil =>
    by_cases hcr : c = '\r' ∧ rest.head? = some '\n'
    · obtain ⟨rfl, hhead⟩ := hcr
      obtain ⟨rest', rfl⟩ := List.head?_eq_some_iff.mp hhead
      exact splitlines_crlf rest'
    · have hafter : afterEnd (c :: rest) = rest := by
        rw [afterEnd]
        rintro rest' rfl rfl
        exact hcr ⟨rfl, rfl⟩
      rw [hafter]
      exact splitlines_end hc hcr
  | cons d line ih =>
    obtain ⟨hd, hline⟩ := List.forall_mem_cons.mp h
    rw [List.cons_append, splitlines_cons hd, ih hline]
    rfl

theorem afterEnd_suffix (text : List Char) : afterEnd text <:+ text := by
  rw [afterEnd.eq_def]
  split
  · exact ⟨['\r', '\n'], rfl⟩
  · exact List.suffix_cons _ _
  · exact List.suffix_rfl

end Text

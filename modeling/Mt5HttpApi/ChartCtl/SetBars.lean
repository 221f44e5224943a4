import Mathlib.Data.List.Infix
import Mt5HttpApi.ChartCtl.SetParse

/-!
# What is read of a line of a set file

* `splitBars_cases`: the first part of a text, and what is left to split at `||`.
* `eq_of_append_bars`: two bars after a value end it, whatever white space is around it.
* `parseSetLine_entry`: a name and what is after it, on a line of its own.
* `mem_of_parseSetLine`: a name and a value are of characters of their line.
-/

namespace ChartCtl

open Text

variable {v w x a b line : List Char}

/-! ## Splitting at bars -/

/-- The two bars between the parts of a value. -/
def bars : List Char := ['|', '|']

/-- No two bars in a row. -/
def NoBars (v : List Char) : Prop := ¬ bars <:+: v

/-- No two bars in a row, nor one at the end. -/
def Unbarred (v : List Char) : Prop := NoBars (v ++ ['|'])

instance : DecidablePred NoBars := fun v => inferInstanceAs (Decidable (¬ bars <:+: v))

instance : DecidablePred Unbarred := fun v => inferInstanceAs (Decidable (NoBars (v ++ ['|'])))

theorem NoBars.of_infix (h : NoBars w) (hv : v <:+: w) : NoBars v := fun hbars =>
  h (hbars.trans hv)

theorem Unbarred.noBars (h : Unbarred v) : NoBars v :=
  NoBars.of_infix h (List.prefix_append v ['|']).isInfix

/-- What the first part is, and what is left to split. -/
theorem splitBars_cases (v : List Char) : (NoBars v ∧ splitBars v = [v]) ∨
    ∃ part rest,
      v = part ++ (bars ++ rest) ∧ Unbarred part ∧ splitBars v = part :: splitBars rest := by
  induction v using splitBars.induct with
  | case1 => exact .inl ⟨by decide, rfl⟩
  | case2 rest ih => exact .inr ⟨[], rest, rfl, by decide, by rw [splitBars]⟩
  | case3 c rest hne ih =>
    have hsplit : splitBars (c :: rest) = consLine c (splitBars rest) := by
      rw [splitBars]
      exact hne
    rw [hsplit]
    -- two bars that begin here would be the second case
    have hhead : ∀ d more, rest.head? = some d → ¬ bars <+: c :: d :: more := by
      rintro d more hd ⟨tail, htail⟩
      obtain ⟨rest', rfl⟩ := List.head?_eq_some_iff.mp hd
      rw [bars, List.cons_append, List.cons_append, List.cons.injEq, List.cons.injEq] at htail
      exact hne rest' htail.1.symm (by rw [← htail.2.1])
    rcases ih with ⟨hbars, hone⟩ | ⟨part, more, rfl, hclean, hparts⟩
    · refine .inl ⟨fun hinfix => ?_, by rw [hone]; rfl⟩
      rcases List.infix_cons_iff.mp hinfix with hpre | hinfix
      · cases rest with
        | nil => exact absurd hpre.length_le (by simp [bars])
        | cons d rest => exact hhead d rest rfl hpre
      · exact hbars hinfix
    · refine .inr ⟨c :: part, more, rfl, fun hinfix => ?_, by rw [hparts]; rfl⟩
      rcases List.infix_cons_iff.mp hinfix with hpre | hinfix
      · cases part with
        | nil => exact hhead '|' [] rfl hpre
        | cons d part => exact hhead d (part ++ ['|']) rfl hpre
      · exact hclean hinfix

/-- The parts of a text with bars in it. -/
theorem exists_of_splitBars {part next : List Char} {more : List (List Char)}
    (h : splitBars v = part :: next :: more) :
    ∃ rest, v = part ++ (bars ++ rest) ∧ Unbarred part ∧ splitBars rest = next :: more := by
  rcases splitBars_cases v with ⟨-, hone⟩ | ⟨part', rest, hv, hclean, hsplit⟩
  · rw [hone] at h
    cases h
  · rw [hsplit] at h
    obtain ⟨rfl, hrest⟩ := List.cons.inj h
    exact ⟨rest, hv, hclean, hrest⟩

theorem splitBars_of_noBars (h : NoBars v) : splitBars v = [v] := by
  rcases splitBars_cases v with ⟨-, hone⟩ | ⟨part, rest, rfl, -, -⟩
  · exact hone
  · exact absurd ⟨part, rest, by simp⟩ h

theorem countP_dropWhile {p : Char → Bool} (hp : ∀ c, isSpace c = true → p c = false)
    (v : List Char) : (v.dropWhile isSpace).countP p = v.countP p := by
  have hspaces : (v.takeWhile isSpace).countP p = 0 := by
    rw [List.countP_eq_zero]
    intro c hc
    simp [hp c (List.mem_takeWhile_imp hc)]
  conv_rhs => rw [← List.takeWhile_append_dropWhile (p := isSpace) (l := v), List.countP_append]
  omega

/-- Only white space is stripped. -/
theorem countP_strip {p : Char → Bool} (hp : ∀ c, isSpace c = true → p c = false)
    (v : List Char) : (strip v).countP p = v.countP p := by
  rw [strip, List.countP_reverse, countP_dropWhile hp, List.countP_reverse, countP_dropWhile hp]

/-- The first part ends before what else is before two bars. -/
theorem prefix_of_append_bars (h : x ++ (bars ++ a) = v ++ (bars ++ b)) (hx : Unbarred x) :
    x <+: v := by
  rcases List.append_eq_append_iff.mp h with ⟨more, rfl, -⟩ | ⟨more, rfl, hmore⟩
  · exact List.prefix_append x more
  · -- a bar would be left at the end of the part
    match more with
    | [] => simp
    | [c] =>
      have hc : c = '|' := ((List.cons.inj hmore).1).symm
      exact absurd ⟨v, [], by simp [hc, bars]⟩ hx
    | c :: d :: more =>
      obtain ⟨hc, hd⟩ := List.cons.inj hmore
      have hd' : d = '|' := ((List.cons.inj hd).1).symm
      exact absurd ⟨v, more ++ ['|'], by simp [← hc, hd', bars]⟩ hx

/-- What is before two bars is determined by them, up to the white space around it. -/
theorem eq_of_append_bars (h : x ++ (bars ++ a) = v ++ (bars ++ b)) (hx : Unbarred x)
    (hstrip : strip x = strip v) : x = v ∧ a = b := by
  obtain ⟨more, rfl⟩ := prefix_of_append_bars h hx
  rw [List.append_assoc, List.append_cancel_left_eq] at h
  cases more with
  | nil => exact ⟨by simp, by simpa using h⟩
  | cons c more =>
    -- the longer one has one more bar
    have hc : c = '|' := ((List.cons.inj h).1).symm
    have hcount := congrArg (List.countP (· == '|')) hstrip
    have hspace : ∀ c, isSpace c = true → (c == '|') = false := by
      intro c hspace
      by_contra hbar
      rw [Bool.not_eq_false, beq_iff_eq] at hbar
      rw [hbar] at hspace
      revert hspace
      decide
    rw [countP_strip hspace, countP_strip hspace, List.countP_append, hc,
      List.countP_cons_of_pos (by simp)] at hcount
    omega

/-- A clean value before two bars is the first part. -/
theorem splitBars_append (h : Unbarred v) (rest : List Char) :
    splitBars (v ++ (bars ++ rest)) = v :: splitBars rest := by
  rcases splitBars_cases (v ++ (bars ++ rest)) with ⟨hbars, -⟩ | ⟨part, more, heq, hclean, hsplit⟩
  · exact absurd ⟨v, rest, by simp⟩ hbars
  · have hpart : part = v := by
      have hpre := prefix_of_append_bars heq h
      exact ((prefix_of_append_bars heq.symm hclean).eq_of_length_le hpre.length_le)
    subst hpart
    have hmore : rest = more := List.append_cancel_left (List.append_cancel_left heq)
    rw [hsplit, hmore]

/-- Bars before a text without bars are all in what is before it. -/
theorem exists_of_append_bars (hw : '|' ∉ w) (h : v ++ w = x ++ (bars ++ a)) :
    ∃ more, v = x ++ (bars ++ more) ∧ a = more ++ w := by
  rcases List.append_eq_append_iff.mp h with ⟨more, rfl, hmore⟩ | ⟨more, rfl, hmore⟩
  · exact absurd (hmore ▸ List.mem_append_right _ List.mem_cons_self) hw
  · match more with
    | [] =>
      have hbar : w = '|' :: '|' :: a := hmore.symm
      exact absurd (by simp [hbar]) hw
    | [c] =>
      have hbar : w = '|' :: a := (List.cons.inj hmore).2.symm
      exact absurd (by simp [hbar]) hw
    | c :: d :: more =>
      obtain ⟨rfl, hd⟩ := List.cons.inj hmore
      obtain ⟨rfl, hrest⟩ := List.cons.inj hd
      exact ⟨more, rfl, hrest⟩

/-- White space at the end is at the end of the last part. -/
theorem splitBars_append_spaces (hw : ∀ c ∈ w, isSpace c = true) (v : List Char) :
    (splitBars (v ++ w)).map strip = (splitBars v).map strip := by
  have hbars : '|' ∉ w := fun hbar => Bool.false_ne_true (hw '|' hbar)
  induction hlength : v.length using Nat.strongRecOn generalizing v with
  | ind length ih =>
    subst hlength
    rcases splitBars_cases (v ++ w) with ⟨hnone, hone⟩ | ⟨part, rest, heq, hclean, hsplit⟩
    · have hv : NoBars v := hnone.of_infix (List.prefix_append v w).isInfix
      have hstrip : strip ([] ++ v ++ w) = strip v := strip_pad (by simp) hw
      rw [hone, splitBars_of_noBars hv, List.map_singleton, List.map_singleton, ← hstrip,
        List.nil_append]
    · obtain ⟨more, rfl, rfl⟩ := exists_of_append_bars hbars heq
      have hshort : more.length < (part ++ (bars ++ more)).length := by
        simp only [List.length_append, bars, List.length_cons]
        omega
      rw [hsplit, splitBars_append hclean, List.map_cons, List.map_cons, ih _ hshort more rfl]

/-! ## What is read of a line -/

/-- The input of the parts. -/
def inputOf (name : List Char) (parts : List (List Char)) : SetInput where
  name := name
  value := parts.headI
  range := match parts with
    | _ :: start :: step :: stop :: optimize :: _ => some ⟨start, step, stop, isYes optimize⟩
    | _ => none

theorem parseRhs_eq (name rhs : List Char) :
    parseRhs name rhs = inputOf name ((splitBars rhs).map strip) := by
  unfold parseRhs inputOf
  rcases splitBars rhs with
    _ | ⟨a, _ | ⟨b, _ | ⟨c, _ | ⟨d, _ | ⟨e, more⟩⟩⟩⟩⟩
  all_goals rfl

/-- A name that begins a line of its own, and is found on it. -/
structure LineName (name : List Char) : Prop where
  ne_nil : name ≠ []
  stripped : strip name = name
  begins : ∀ c ∈ name.head?, c ≠ ';' ∧ c ≠ '#' ∧ c ≠ '\uFEFF'
  plain : '=' ∉ name

/-- What is read of a name and what is after it. -/
theorem parseSetLine_entry {name : List Char} (h : LineName name) (rhs : List Char) :
    parseSetLine (name ++ '=' :: rhs) = some (parseRhs name rhs) := by
  obtain ⟨first, more, hname⟩ := List.exists_cons_of_ne_nil h.ne_nil
  have hfirst := h.begins first (by simp [hname])
  have hends := (strip_eq_self_iff.mp h.stripped).1 first (by simp [hname])
  -- the white space at the end of the line is at the end of the last part
  have hsplit : rhs.rdropWhile isSpace ++ rhs.rtakeWhile isSpace = rhs :=
    List.rdropWhile_append_rtakeWhile
  have hspaces : ∀ c ∈ rhs.rtakeWhile isSpace, isSpace c = true := fun c hc =>
    List.mem_rtakeWhile_imp hc
  have hstrip : strip (name ++ '=' :: rhs) = name ++ '=' :: rhs.rdropWhile isSpace := by
    have hpad : strip ([] ++ (name ++ '=' :: rhs.rdropWhile isSpace) ++ rhs.rtakeWhile isSpace) =
        strip (name ++ '=' :: rhs.rdropWhile isSpace) := strip_pad (by simp) hspaces
    rw [List.nil_append, List.append_assoc, List.cons_append, hsplit] at hpad
    rw [hpad, strip_eq_self_iff]
    refine ⟨by simp [hname, hends], fun c hc => ?_⟩
    rw [List.getLast?_append_cons, List.getLast?_cons] at hc
    by_cases hnil : rhs.rdropWhile isSpace = []
    · rw [hnil, List.getLast?_nil, Option.getD_none, Option.mem_some_iff] at hc
      rw [← hc]
      decide
    · have hlast := List.rdropWhile_last_not isSpace rhs hnil
      rw [List.getLast?_eq_some_getLast hnil, Option.getD_some, Option.mem_some_iff] at hc
      rw [← hc]
      simpa using hlast
  have hmark : (name ++ '=' :: rhs.rdropWhile isSpace).dropWhile (· = '\uFEFF') =
      name ++ '=' :: rhs.rdropWhile isSpace := by
    rw [hname, List.cons_append, List.dropWhile_cons_of_neg (by simpa using hfirst.2.2)]
  have hplain : ∀ c ∈ name, decide (c ≠ '=') = true := by
    intro c hc
    rw [decide_eq_true_eq]
    rintro rfl
    exact h.plain hc
  have hname' : (name ++ '=' :: rhs.rdropWhile isSpace).takeWhile (· ≠ '=') = name := by
    rw [List.takeWhile_append_of_pos hplain]
    simp
  have hrhs : (name ++ '=' :: rhs.rdropWhile isSpace).dropWhile (· ≠ '=') =
      '=' :: rhs.rdropWhile isSpace := by
    rw [List.dropWhile_append_of_pos hplain]
    simp
  rw [parseSetLine, hstrip, hmark]
  have hhead : (name ++ '=' :: rhs.rdropWhile isSpace).head? = some first := by simp [hname]
  have hne : name ++ '=' :: rhs.rdropWhile isSpace ≠ [] := by simp
  rw [if_neg (by simp [hne, hhead, hfirst.1, hfirst.2.1]), if_neg (by simp), hname', hrhs,
    h.stripped, if_neg h.ne_nil]
  rw [List.drop_one, List.tail_cons, parseRhs_eq, parseRhs_eq,
    ← splitBars_append_spaces hspaces, hsplit]

theorem mem_of_mem_splitBars (h : x ∈ splitBars v) : ∀ c ∈ x, c ∈ v := by
  induction v using splitBars.induct generalizing x with
  | case1 =>
    rw [splitBars, List.mem_singleton] at h
    simp [h]
  | case2 rest ih =>
    rw [splitBars] at h
    rcases List.mem_cons.mp h with rfl | h
    · simp
    · exact fun c hc => List.mem_cons_of_mem _ (List.mem_cons_of_mem _ (ih h c hc))
  | case3 d rest hne ih =>
    rw [splitBars.eq_3 d rest hne] at h
    rcases hrest : splitBars rest with _ | ⟨first, more⟩
    · rw [hrest, consLine, List.mem_singleton] at h
      simp [h]
    · rw [hrest] at h ih
      rcases List.mem_cons.mp h with rfl | h
      · rw [List.forall_mem_cons]
        exact ⟨List.mem_cons_self, fun c hc =>
          List.mem_cons_of_mem d (ih List.mem_cons_self c hc)⟩
      · exact fun c hc => List.mem_cons_of_mem d (ih (List.mem_cons_of_mem _ h) c hc)

theorem headI_mem_splitBars (v : List Char) : (splitBars v).headI ∈ splitBars v := by
  rcases splitBars_cases v with ⟨-, hone⟩ | ⟨part, rest, -, -, hsplit⟩
  · simp [hone]
  · simp [hsplit]

/-- A name and a value are of characters of their line, and no name has a `=` in it. -/
theorem mem_of_parseSetLine {input : SetInput} (h : parseSetLine line = some input) :
    input.name ≠ [] ∧ strip input.name = input.name ∧ strip input.value = input.value ∧
      (∀ c ∈ input.name, c ∈ line ∧ c ≠ '=') ∧ ∀ c ∈ input.value, c ∈ line := by
  have hline : ∀ c ∈ (strip line).dropWhile (· = '\uFEFF'), c ∈ line := fun c hc =>
    (strip_sublist _).mem ((List.dropWhile_sublist _).mem hc)
  unfold parseSetLine at h
  dsimp only at h
  split_ifs at h with hcomment heq hname
  obtain rfl := Option.some.inj h
  refine ⟨hname, strip_strip _, strip_strip _, fun c hc => ?_, fun c hc => ?_⟩
  · have hmem := (strip_sublist _).mem hc
    exact ⟨hline c ((List.takeWhile_sublist _).mem hmem), by
      simpa using List.mem_takeWhile_imp hmem⟩
  · apply hline
    set text := (strip line).dropWhile (· = '\uFEFF') with htext
    have hmem : c ∈ (text.dropWhile (· ≠ '=')).drop 1 :=
      mem_of_mem_splitBars (headI_mem_splitBars _) c ((strip_sublist _).mem hc)
    exact (List.dropWhile_sublist _).mem (List.mem_of_mem_drop hmem)

/-- The name of an input has no end of a line and no `=` in it. -/
theorem name_of_mem_parseSetText {input : SetInput} (h : input ∈ parseSetText v) :
    ∀ c ∈ input.name, endsLine c = false ∧ c ≠ '=' := by
  obtain ⟨line, hline, hinput⟩ := List.mem_filterMap.mp h
  intro c hc
  obtain ⟨-, -, -, hname, -⟩ := mem_of_parseSetLine hinput
  exact ⟨(mem_splitlines hline c (hname c hc).1).1, (hname c hc).2⟩

end ChartCtl

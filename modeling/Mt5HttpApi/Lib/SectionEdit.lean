import Mathlib.Data.List.DropRight
import Mathlib.Data.List.Nodup

/-!
# Setting keys in one section of a file, line by line

A file of lines with headers, of which some begin the section in question. `edit` sets keys in it
and keeps every other line: the first line that gives one of the keys is rewritten in its place,
later ones are dropped, and what is missing comes at the end of the section, or in a section of its
own at the end of the file. Blank lines at the end are dropped.

* `count_given_edit`: afterwards each key is given once.
* `lookup_edit`: the first line that gives a key is the one that was set.
* `others_edit`: every other line is kept.
* `edit_edit`: setting the keys again changes nothing.
-/

namespace SectionEdit

/-- How lines are read, and the lines that are written. -/
structure Format (Line K : Type) where
  /-- Whether a header begins the section in question. -/
  header : Line → Option Bool
  /-- The key that a line gives, if it is one of those to be set. -/
  key : Line → Option K
  blank : Line → Bool
  /-- The header of the section. -/
  title : Line
  /-- The line that is written for a key. -/
  entry : K → Line
  header_title : header title = some true
  blank_title : blank title = false
  header_entry : ∀ k, header (entry k) = none
  key_entry : ∀ k, key (entry k) = some k
  blank_entry : ∀ k, blank (entry k) = false
  header_blank : ∀ line, blank line = true → header line = none
  key_blank : ∀ line, blank line = true → key line = none

variable {Line K : Type} [DecidableEq K] (f : Format Line K)

/-! ### What lines give -/

/-- The keys that are given in the section. -/
def given : Bool → List Line → List K
  | _, [] => []
  | inside, line :: rest =>
    match f.header line with
    | some here => given here rest
    | none =>
      match if inside then f.key line else none with
      | some k => k :: given inside rest
      | none => given inside rest

/-- The lines that do not give a key in the section. -/
def others : Bool → List Line → List Line
  | _, [] => []
  | inside, line :: rest =>
    match f.header line with
    | some here => line :: others here rest
    | none =>
      match if inside then f.key line else none with
      | some _ => others inside rest
      | none => line :: others inside rest

/-- The first line that gives a key in the section. -/
def lookup (k : K) : Bool → List Line → Option Line
  | _, [] => none
  | inside, line :: rest =>
    match f.header line with
    | some here => lookup k here rest
    | none => if inside ∧ f.key line = some k then some line else lookup k inside rest

/-- The section is there. -/
def hasSection (lines : List Line) : Bool := lines.any fun line => f.header line = some true

/-! ### The edit -/

/-- Whether the section lasts, and the keys that are missing yet. -/
abbrev State (K : Type) := Bool × List K

/-- What is missing when a section ends. -/
def left (s : State K) : List Line := if s.1 then s.2.map f.entry else []

/-- The lines that are written for a line. -/
def emit (s : State K) (line : Line) : List Line :=
  match f.header line with
  | some _ => left f s ++ [line]
  | none =>
    match if s.1 then f.key line else none with
    | some k => if k ∈ s.2 then [f.entry k] else []
    | none => [line]

/-- The state after a line. -/
def next (s : State K) (line : Line) : State K :=
  match f.header line with
  | some here => (here, if s.1 then [] else s.2)
  | none =>
    match if s.1 then f.key line else none with
    | some k => (s.1, s.2.erase k)
    | none => s

/-- The lines that are written for lines. -/
def body : State K → List Line → List Line
  | _, [] => []
  | s, line :: rest => emit f s line ++ body (next f s line) rest

/-- The state after lines. -/
def after (s : State K) (lines : List Line) : State K := lines.foldl (next f) s

/-- All that is written for lines, with what is missing at their end. -/
def full (s : State K) (lines : List Line) : List Line := body f s lines ++ left f (after f s lines)

/-- The lines with the section in question. -/
def withTitle (lines : List Line) : List Line :=
  if hasSection f lines then lines else lines ++ [f.title]

/-- The keys are set. -/
def edit (keys : List K) (lines : List Line) : List Line :=
  (full f (false, keys) (withTitle f lines)).rdropWhile f.blank

variable {f} {s : State K} {line : Line} {lines rest : List Line} {k : K} {keys : List K}

/-! ### One line -/

omit [DecidableEq K] in
/-- A line is a header, gives a key in the section, or neither. -/
theorem line_cases (f : Format Line K) (inside : Bool) (line : Line) :
    (∃ here, f.header line = some here) ∨
      (f.header line = none ∧ inside = true ∧ ∃ k, f.key line = some k) ∨
      f.header line = none ∧ (if inside then f.key line else none) = none := by
  cases hheader : f.header line with
  | some here => exact Or.inl ⟨here, rfl⟩
  | none =>
    right
    cases inside with
    | false => exact Or.inr ⟨rfl, rfl⟩
    | true =>
      cases hkey : f.key line with
      | some k => exact Or.inl ⟨rfl, rfl, k, rfl⟩
      | none => exact Or.inr ⟨rfl, rfl⟩

theorem full_nil : full f s [] = left f s := rfl

theorem full_cons : full f s (line :: rest) = emit f s line ++ full f (next f s line) rest := by
  rw [full, body, List.append_assoc]
  rfl

section Header

variable {here : Bool} (h : f.header line = some here)

include h

theorem emit_header : emit f s line = left f s ++ [line] := by
  rw [emit, h]

theorem next_header : next f s line = (here, if s.1 then [] else s.2) := by
  rw [next, h]

omit [DecidableEq K] in
theorem given_header {inside : Bool} : given f inside (line :: rest) = given f here rest := by
  rw [given, h]

omit [DecidableEq K] in
theorem others_header {inside : Bool} :
    others f inside (line :: rest) = line :: others f here rest := by
  rw [others, h]

theorem lookup_header {inside : Bool} :
    lookup f k inside (line :: rest) = lookup f k here rest := by
  rw [lookup, h]

end Header

section Given

variable {m : List K} (h : f.header line = none) (hkey : f.key line = some k)

include h hkey

theorem emit_given : emit f (true, m) line = if k ∈ m then [f.entry k] else [] := by
  simp only [emit, h, if_true, hkey]

theorem next_given : next f (true, m) line = (true, m.erase k) := by
  simp only [next, h, if_true, hkey]

omit [DecidableEq K] in
theorem given_given : given f true (line :: rest) = k :: given f true rest := by
  simp only [given, h, if_true, hkey]

omit [DecidableEq K] in
theorem others_given : others f true (line :: rest) = others f true rest := by
  simp only [others, h, if_true, hkey]

end Given

section Other

variable {inside : Bool} {m : List K} (h : f.header line = none)
  (hkey : (if inside then f.key line else none) = none)

include h hkey

theorem emit_other : emit f (inside, m) line = [line] := by
  simp only [emit, h, hkey]

theorem next_other : next f (inside, m) line = (inside, m) := by
  simp only [next, h, hkey]

omit [DecidableEq K] in
theorem given_other : given f inside (line :: rest) = given f inside rest := by
  simp only [given, h, hkey]

omit [DecidableEq K] in
theorem others_other : others f inside (line :: rest) = line :: others f inside rest := by
  simp only [others, h, hkey]

theorem lookup_other : lookup f k inside (line :: rest) = lookup f k inside rest := by
  rw [lookup, h]
  dsimp only
  rw [if_neg]
  rintro ⟨rfl, heq⟩
  rw [if_pos rfl, heq] at hkey
  cases hkey

end Other

/-! ### Lines that were written -/

/-- The lines of missing keys are written as they are. -/
theorem body_entries {m : List K} (rest : List Line) :
    body f (true, m) (m.map f.entry ++ rest) = m.map f.entry ++ body f (true, []) rest := by
  induction m with
  | nil => rfl
  | cons k m ih =>
    rw [List.map_cons, List.cons_append, body,
      emit_given (f.header_entry k) (f.key_entry k), next_given (f.header_entry k) (f.key_entry k),
      if_pos List.mem_cons_self, List.erase_cons_head, ih]
    rfl

theorem after_entries {m : List K} (rest : List Line) :
    after f (true, m) (m.map f.entry ++ rest) = after f (true, []) rest := by
  induction m with
  | nil => rfl
  | cons k m ih =>
    rw [List.map_cons, List.cons_append, after, List.foldl_cons,
      next_given (f.header_entry k) (f.key_entry k), List.erase_cons_head]
    exact ih

omit [DecidableEq K] in
theorem given_entries {m : List K} (rest : List Line) :
    given f true (m.map f.entry ++ rest) = m ++ given f true rest := by
  induction m with
  | nil => rfl
  | cons k m ih =>
    rw [List.map_cons, List.cons_append, given_given (f.header_entry k) (f.key_entry k), ih]
    rfl

omit [DecidableEq K] in
theorem others_entries {m : List K} (rest : List Line) :
    others f true (m.map f.entry ++ rest) = others f true rest := by
  induction m with
  | nil => rfl
  | cons k m ih =>
    rw [List.map_cons, List.cons_append, others_given (f.header_entry k) (f.key_entry k), ih]

theorem lookup_entries {m : List K} (rest : List Line) :
    lookup f k true (m.map f.entry ++ rest) =
      if k ∈ m then some (f.entry k) else lookup f k true rest := by
  induction m with
  | nil => rfl
  | cons k' m ih =>
    rw [List.map_cons, List.cons_append, lookup, f.header_entry, f.key_entry]
    dsimp only
    by_cases heq : k' = k
    · rw [if_pos ⟨rfl, congrArg some heq⟩, if_pos (heq ▸ List.mem_cons_self), heq]
    · rw [if_neg fun h => heq (Option.some.inj h.2), ih]
      simp only [List.mem_cons, Ne.symm heq, false_or]

/-! ### All that is written -/

/-- What was written is written again, and nothing is missing at its end. -/
theorem body_full (f : Format Line K) (s : State K) (lines : List Line) :
    body f s (full f s lines) = full f s lines ∧ left f (after f s (full f s lines)) = [] := by
  induction lines generalizing s with
  | nil =>
    obtain ⟨inside, m⟩ := s
    cases inside with
    | false => exact ⟨rfl, rfl⟩
    | true =>
      have hbody := body_entries (f := f) (m := m) []
      have hafter := after_entries (f := f) (m := m) []
      rw [List.append_nil] at hbody hafter
      rw [full_nil, left, if_pos rfl, hbody, hafter]
      exact ⟨List.append_nil _, rfl⟩
  | cons line rest ih =>
    obtain ⟨inside, m⟩ := s
    rw [full_cons]
    rcases line_cases f inside line with ⟨here, h⟩ | ⟨h, rfl, k, hkey⟩ | ⟨h, hkey⟩
    · rw [emit_header h, next_header h, List.append_assoc, List.singleton_append]
      cases inside with
      | false =>
        have hih := ih (here, m)
        show body f _ (line :: _) = line :: _ ∧ left f (after f _ (line :: _)) = []
        rw [body, emit_header h, next_header h, after, List.foldl_cons, next_header h]
        exact ⟨congrArg (line :: ·) hih.1, hih.2⟩
      | true =>
        have hih := ih (here, [])
        rw [left, if_pos rfl, body_entries, after_entries, body, emit_header h, next_header h,
          after, List.foldl_cons, next_header h]
        exact ⟨congrArg (_ ++ line :: ·) hih.1, hih.2⟩
    · rw [emit_given h hkey, next_given h hkey]
      have hih := ih (true, m.erase k)
      split
      next hmem =>
        show body f _ (f.entry k :: _) = f.entry k :: _ ∧ left f (after f _ (f.entry k :: _)) = []
        rw [body, emit_given (f.header_entry k) (f.key_entry k), if_pos hmem,
          next_given (f.header_entry k) (f.key_entry k), after, List.foldl_cons,
          next_given (f.header_entry k) (f.key_entry k)]
        exact ⟨congrArg (f.entry k :: ·) hih.1, hih.2⟩
      next hmem =>
        -- the line is dropped, and the state stays
        rw [List.erase_of_not_mem hmem] at hih ⊢
        exact hih
    · rw [emit_other h hkey, next_other h hkey]
      have hih := ih (inside, m)
      show body f _ (line :: _) = line :: _ ∧ left f (after f _ (line :: _)) = []
      rw [body, emit_other h hkey, next_other h hkey, after, List.foldl_cons, next_other h hkey]
      exact ⟨congrArg (line :: ·) hih.1, hih.2⟩

/-- Every missing key is given once, if the section lasts or is yet to come. -/
theorem count_given_full (inside : Bool) {m : List K} (hnodup : m.Nodup) (k : K)
    (lines : List Line) :
    (given f inside (full f (inside, m) lines)).count k =
      if k ∈ m ∧ (inside || hasSection f lines) = true then 1 else 0 := by
  induction lines generalizing inside m with
  | nil =>
    cases inside with
    | false => simp [full_nil, left, given, hasSection]
    | true =>
      have hgiven := given_entries (f := f) (m := m) []
      rw [List.append_nil] at hgiven
      rw [full_nil, left, if_pos rfl, hgiven, given, List.append_nil, hnodup.count]
      simp
  | cons line rest ih =>
    rw [full_cons]
    rcases line_cases f inside line with ⟨here, h⟩ | ⟨h, rfl, k', hkey⟩ | ⟨h, hkey⟩
    · have hsection : hasSection f (line :: rest) = (here || hasSection f rest) := by
        rw [hasSection, List.any_cons, h, hasSection]
        cases here <;> rfl
      rw [emit_header h, next_header h, List.append_assoc, List.singleton_append, hsection]
      cases inside with
      | false =>
        show (given f false (line :: _)).count k = _
        rw [given_header h]
        exact ih here hnodup
      | true =>
        -- at the end of the section nothing is missing any more
        have hih := ih here List.nodup_nil
        simp only [List.not_mem_nil, false_and, if_false] at hih
        show (given f true (_ ++ line :: full f (here, []) rest)).count k = _
        rw [left, if_pos rfl, given_entries, given_header h, List.count_append, hih, hnodup.count]
        simp
    · rw [emit_given h hkey, next_given h hkey]
      have hih := ih true (hnodup.erase k')
      split
      next hmem =>
        rw [List.singleton_append, given_given (f.header_entry k') (f.key_entry k'),
          List.count_cons, hih]
        by_cases heq : k = k'
        · simp [heq, hmem, hnodup.mem_erase_iff]
        · simp [heq, Ne.symm heq, hnodup.mem_erase_iff]
      next hmem =>
        rw [List.erase_of_not_mem hmem] at hih ⊢
        simpa using hih
    · have hsection : hasSection f (line :: rest) = hasSection f rest := by
        rw [hasSection, List.any_cons, h, hasSection]
        rfl
      rw [emit_other h hkey, next_other h hkey, List.singleton_append, given_other h hkey, hsection]
      exact ih inside hnodup

/-- The other lines are written as they are. -/
theorem others_full (inside : Bool) (m : List K) (lines : List Line) :
    others f inside (full f (inside, m) lines) = others f inside lines := by
  induction lines generalizing inside m with
  | nil =>
    cases inside with
    | false => rfl
    | true =>
      have hothers := others_entries (f := f) (m := m) []
      rw [List.append_nil] at hothers
      rw [full_nil, left, if_pos rfl, hothers]
  | cons line rest ih =>
    rw [full_cons]
    rcases line_cases f inside line with ⟨here, h⟩ | ⟨h, rfl, k, hkey⟩ | ⟨h, hkey⟩
    · rw [emit_header h, next_header h, List.append_assoc, List.singleton_append, others_header h]
      cases inside with
      | false =>
        show others f false (line :: _) = _
        rw [others_header h, ih]
      | true => rw [left, if_pos rfl, others_entries, others_header h, ih]
    · rw [emit_given h hkey, next_given h hkey, others_given h hkey]
      split
      next =>
        rw [List.singleton_append, others_given (f.header_entry k) (f.key_entry k), ih]
      next => exact ih true _
    · rw [emit_other h hkey, next_other h hkey, List.singleton_append, others_other h hkey,
        others_other h hkey, ih]

/-- The first line that gives a missing key is the one that was set. -/
theorem lookup_full (inside : Bool) {m : List K} (hmem : k ∈ m) (lines : List Line)
    (hsection : inside = true ∨ hasSection f lines = true) :
    lookup f k inside (full f (inside, m) lines) = some (f.entry k) := by
  induction lines generalizing inside m with
  | nil =>
    obtain rfl : inside = true := hsection.resolve_right Bool.false_ne_true
    have hlookup := lookup_entries (f := f) (k := k) (m := m) []
    rw [List.append_nil, if_pos hmem] at hlookup
    exact hlookup
  | cons line rest ih =>
    rw [full_cons]
    rcases line_cases f inside line with ⟨here, h⟩ | ⟨h, rfl, k', hkey⟩ | ⟨h, hkey⟩
    · rw [emit_header h, next_header h, List.append_assoc, List.singleton_append]
      cases inside with
      | false =>
        show lookup f k false (line :: _) = _
        rw [lookup_header h]
        apply ih here hmem
        rw [hasSection, List.any_cons, h, Bool.or_eq_true, decide_eq_true_eq,
          Option.some_inj] at hsection
        exact hsection.resolve_left Bool.false_ne_true
      | true => rw [left, if_pos rfl, lookup_entries, if_pos hmem]
    · rw [emit_given h hkey, next_given h hkey]
      split
      next hmem' =>
        show lookup f k true (f.entry k' :: _) = _
        rw [lookup, f.header_entry, f.key_entry]
        dsimp only
        by_cases heq : k' = k
        · rw [if_pos ⟨rfl, congrArg some heq⟩, heq]
        · rw [if_neg fun h => heq (Option.some.inj h.2)]
          exact ih true ((List.mem_erase_of_ne (Ne.symm heq)).mpr hmem) (Or.inl rfl)
      next hmem' =>
        have hne : k ≠ k' := fun heq => hmem' (heq ▸ hmem)
        exact ih true ((List.mem_erase_of_ne hne).mpr hmem) (Or.inl rfl)
    · rw [emit_other h hkey, next_other h hkey, List.singleton_append, lookup_other h hkey]
      apply ih inside hmem
      rw [hasSection, List.any_cons, h] at hsection
      exact hsection

/-- The section is there in what was written if it was there before. -/
theorem hasSection_full (inside : Bool) (m : List K) (h : hasSection f lines = true) :
    hasSection f (full f (inside, m) lines) = true := by
  have hmem : ∀ (inside : Bool) (lines : List Line) (line : Line), f.header line = some true →
      (line ∈ others f inside lines ↔ line ∈ lines) := by
    intro inside lines line hline
    induction lines generalizing inside with
    | nil => exact Iff.rfl
    | cons line' rest ih =>
      rcases line_cases f inside line' with ⟨here, h⟩ | ⟨h, rfl, k, hkey⟩ | ⟨h, hkey⟩
      · rw [others_header h, List.mem_cons, List.mem_cons, ih]
      · have hne : line ≠ line' := fun heq => by
          rw [heq, h] at hline
          cases hline
        rw [others_given h hkey, List.mem_cons, ih]
        simp [hne]
      · rw [others_other h hkey, List.mem_cons, List.mem_cons, ih]
  rw [hasSection, List.any_eq_true] at h ⊢
  obtain ⟨line, hline, hheader⟩ := h
  rw [decide_eq_true_eq] at hheader
  refine ⟨line, ?_, decide_eq_true hheader⟩
  rw [← hmem inside _ _ hheader, others_full, hmem inside _ _ hheader]
  exact hline

/-- What is written are lines from before and lines for keys. -/
theorem of_mem_full {l : Line} (inside : Bool) (m : List K) (h : l ∈ full f (inside, m) lines) :
    l ∈ lines ∨ ∃ k, l = f.entry k := by
  have hleft : ∀ (s : State K), l ∈ left f s → ∃ k, l = f.entry k := by
    intro s hl
    rw [left] at hl
    split at hl
    next =>
      obtain ⟨k, -, rfl⟩ := List.mem_map.mp hl
      exact ⟨k, rfl⟩
    next => cases hl
  induction lines generalizing inside m with
  | nil => exact Or.inr (hleft _ h)
  | cons line rest ih =>
    rw [full_cons] at h
    rcases List.mem_append.mp h with h | h
    · rcases line_cases f inside line with ⟨here, hline⟩ | ⟨hline, rfl, k, hkey⟩ | ⟨hline, hkey⟩
      · rw [emit_header hline] at h
        rcases List.mem_append.mp h with h | h
        · exact Or.inr (hleft _ h)
        · exact Or.inl (List.mem_singleton.mp h ▸ List.mem_cons_self)
      · rw [emit_given hline hkey] at h
        split at h
        next => exact Or.inr ⟨k, List.mem_singleton.mp h⟩
        next => cases h
      · rw [emit_other hline hkey] at h
        exact Or.inl (List.mem_singleton.mp h ▸ List.mem_cons_self)
    · rcases ih _ _ h with h | h
      · exact Or.inl (List.mem_cons_of_mem _ h)
      · exact Or.inr h

/-! ### Blank lines at the end -/

section Blank

variable {blanks : List Line} (h : ∀ line ∈ blanks, f.blank line = true)

include h

theorem body_blanks (s : State K) : body f s blanks = blanks ∧ after f s blanks = s := by
  obtain ⟨inside, m⟩ := s
  induction blanks with
  | nil => exact ⟨rfl, rfl⟩
  | cons line rest ih =>
    have hline := h line List.mem_cons_self
    have hkey : (if inside then f.key line else none) = none := by
      rw [f.key_blank line hline, ite_self]
    obtain ⟨hbody, hafter⟩ := ih fun l hl => h l (List.mem_cons_of_mem _ hl)
    rw [body, emit_other (f.header_blank line hline) hkey,
      next_other (f.header_blank line hline) hkey, hbody, after, List.foldl_cons,
      next_other (f.header_blank line hline) hkey]
    exact ⟨rfl, hafter⟩

omit [DecidableEq K] in
theorem given_append_blanks (inside : Bool) (lines : List Line) :
    given f inside (lines ++ blanks) = given f inside lines := by
  have hblanks : ∀ inside, given f inside blanks = [] := by
    intro inside
    induction blanks with
    | nil => rfl
    | cons line rest ih =>
      have hline := h line List.mem_cons_self
      rw [given_other (f.header_blank line hline) (by rw [f.key_blank line hline, ite_self])]
      exact ih fun l hl => h l (List.mem_cons_of_mem _ hl)
  induction lines generalizing inside with
  | nil => exact hblanks inside
  | cons line rest ih =>
    rw [List.cons_append]
    rcases line_cases f inside line with ⟨here, h⟩ | ⟨h, rfl, k, hkey⟩ | ⟨h, hkey⟩
    · rw [given_header h, given_header h, ih]
    · rw [given_given h hkey, given_given h hkey, ih]
    · rw [given_other h hkey, given_other h hkey, ih]

omit [DecidableEq K] in
theorem others_append_blanks (inside : Bool) (lines : List Line) :
    others f inside (lines ++ blanks) = others f inside lines ++ blanks := by
  have hblanks : ∀ inside, others f inside blanks = blanks := by
    intro inside
    induction blanks with
    | nil => rfl
    | cons line rest ih =>
      have hline := h line List.mem_cons_self
      rw [others_other (f.header_blank line hline) (by rw [f.key_blank line hline, ite_self]),
        ih fun l hl => h l (List.mem_cons_of_mem _ hl)]
  induction lines generalizing inside with
  | nil => exact hblanks inside
  | cons line rest ih =>
    rw [List.cons_append]
    rcases line_cases f inside line with ⟨here, h⟩ | ⟨h, rfl, k, hkey⟩ | ⟨h, hkey⟩
    · rw [others_header h, others_header h, ih, List.cons_append]
    · rw [others_given h hkey, others_given h hkey, ih]
    · rw [others_other h hkey, others_other h hkey, ih, List.cons_append]

theorem lookup_append_blanks (k : K) (inside : Bool) (lines : List Line) :
    lookup f k inside (lines ++ blanks) = lookup f k inside lines := by
  have hblanks : ∀ inside, lookup f k inside blanks = none := by
    intro inside
    induction blanks with
    | nil => rfl
    | cons line rest ih =>
      have hline := h line List.mem_cons_self
      rw [lookup_other (f.header_blank line hline) (by rw [f.key_blank line hline, ite_self])]
      exact ih fun l hl => h l (List.mem_cons_of_mem _ hl)
  induction lines generalizing inside with
  | nil => exact hblanks inside
  | cons line rest ih =>
    rw [List.cons_append, lookup, lookup]
    split
    next here _ => exact ih here
    next => rw [ih]

omit [DecidableEq K] in
theorem hasSection_append_blanks (lines : List Line) :
    hasSection f (lines ++ blanks) = hasSection f lines := by
  have hblanks : blanks.any (fun line => decide (f.header line = some true)) = false := by
    apply List.any_eq_false.mpr
    intro line hline
    rw [f.header_blank line (h line hline)]
    decide
  rw [hasSection, List.any_append, hblanks, Bool.or_false, hasSection]

end Blank

/-- What was written for an edit is its result and blank lines. -/
theorem exists_blanks (f : Format Line K) (keys : List K) (lines : List Line) :
    ∃ blanks, (∀ line ∈ blanks, f.blank line = true) ∧
      full f (false, keys) (withTitle f lines) = edit f keys lines ++ blanks :=
  ⟨_, fun _ hline => List.mem_rtakeWhile_imp hline,
    List.rdropWhile_append_rtakeWhile.symm⟩

omit [DecidableEq K] in
theorem hasSection_withTitle (f : Format Line K) (lines : List Line) :
    hasSection f (withTitle f lines) = true := by
  rw [withTitle]
  split
  next h => exact h
  next =>
    rw [hasSection, List.any_append, List.any_cons, f.header_title, Bool.or_eq_true]
    exact Or.inr rfl

omit [DecidableEq K] in
/-- The other lines are those from before, and the header if it was not there. -/
theorem others_withTitle (f : Format Line K) (lines : List Line) :
    others f false (withTitle f lines) =
      others f false lines ++ if hasSection f lines then [] else [f.title] := by
  have happend : ∀ inside, others f inside (lines ++ [f.title]) =
      others f inside lines ++ [f.title] := by
    induction lines with
    | nil => exact fun inside => others_header f.header_title
    | cons line rest ih =>
      intro inside
      rw [List.cons_append]
      rcases line_cases f inside line with ⟨here, h⟩ | ⟨h, rfl, k, hkey⟩ | ⟨h, hkey⟩
      · rw [others_header h, others_header h, ih, List.cons_append]
      · rw [others_given h hkey, others_given h hkey, ih]
      · rw [others_other h hkey, others_other h hkey, ih, List.cons_append]
  rw [withTitle]
  split
  next => rw [List.append_nil]
  next => exact happend false

/-! ### The result of an edit -/

/-- Each key is given once. -/
theorem count_given_edit (hnodup : keys.Nodup) (hk : k ∈ keys) (lines : List Line) :
    (given f false (edit f keys lines)).count k = 1 := by
  obtain ⟨blanks, hblanks, hfull⟩ := exists_blanks f keys lines
  rw [← given_append_blanks hblanks, ← hfull, count_given_full false hnodup k, if_pos]
  exact ⟨hk, by rw [hasSection_withTitle, Bool.or_true]⟩

/-- The first line that gives a key is the one that was set. -/
theorem lookup_edit (hk : k ∈ keys) (lines : List Line) :
    lookup f k false (edit f keys lines) = some (f.entry k) := by
  obtain ⟨blanks, hblanks, hfull⟩ := exists_blanks f keys lines
  rw [← lookup_append_blanks hblanks, ← hfull]
  exact lookup_full false hk _ (Or.inr (hasSection_withTitle f lines))

/-- Every other line is kept, but for blank lines at the end and a header that is new. -/
theorem others_edit (f : Format Line K) (keys : List K) (lines : List Line) :
    ∃ blanks, (∀ line ∈ blanks, f.blank line = true) ∧
      others f false (edit f keys lines) ++ blanks =
        others f false lines ++ if hasSection f lines then [] else [f.title] := by
  obtain ⟨blanks, hblanks, hfull⟩ := exists_blanks f keys lines
  refine ⟨blanks, hblanks, ?_⟩
  rw [← others_append_blanks hblanks, ← hfull, others_full, others_withTitle]

/-- A line is one from before, the header or the line of a key. -/
theorem of_mem_edit {l : Line} (h : l ∈ edit f keys lines) :
    l ∈ lines ∨ l = f.title ∨ ∃ k, l = f.entry k := by
  obtain ⟨blanks, -, hfull⟩ := exists_blanks f keys lines
  have hmem : l ∈ full f (false, keys) (withTitle f lines) := by
    rw [hfull]
    exact List.mem_append_left _ h
  rcases of_mem_full false keys hmem with hold | hentry
  · rw [withTitle] at hold
    split at hold
    next => exact Or.inl hold
    next =>
      rcases List.mem_append.mp hold with hold | htitle
      · exact Or.inl hold
      · exact Or.inr (Or.inl (List.mem_singleton.mp htitle))
  · exact Or.inr (Or.inr hentry)

/-- Setting the keys again changes nothing. -/
theorem edit_edit (f : Format Line K) (keys : List K) (lines : List Line) :
    edit f keys (edit f keys lines) = edit f keys lines := by
  obtain ⟨blanks, hblanks, hfull⟩ := exists_blanks f keys lines
  have hsection : hasSection f (edit f keys lines) = true := by
    rw [← hasSection_append_blanks hblanks, ← hfull]
    exact hasSection_full false keys (hasSection_withTitle f lines)
  obtain ⟨hbody, hleft⟩ := body_full f (false, keys) (withTitle f lines)
  have happend : ∀ (a b : List Line) (s : State K),
      body f s (a ++ b) = body f s a ++ body f (after f s a) b := by
    intro a b
    induction a with
    | nil => exact fun s => rfl
    | cons line a ih =>
      intro s
      rw [List.cons_append, body, body, ih, List.append_assoc]
      rfl
  have hafter : after f (false, keys) (edit f keys lines ++ blanks) =
      after f (false, keys) (edit f keys lines) := by
    rw [after, List.foldl_append]
    exact (body_blanks hblanks _).2
  rw [hfull, happend, (body_blanks hblanks _).1] at hbody
  rw [hfull, hafter] at hleft
  have hsame : full f (false, keys) (edit f keys lines) = edit f keys lines := by
    rw [full, hleft, List.append_nil]
    exact List.append_cancel_right hbody
  conv_lhs => rw [edit, withTitle, if_pos hsection, hsame]
  rw [edit]
  exact List.rdropWhile_idempotent f.blank _

end SectionEdit

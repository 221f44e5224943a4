import Mathlib.Data.List.TakeWhile

/-!
# Lists in segments

A list read as segments between occurrences of a separator. What comes before the first separator is
determined by the list (`append_sep_inj`), and so it is by any longer list
(`append_sep_prefix_iff`).
-/

namespace Segments

variable {α : Type*} {sep : α} {a b l rest rest' : List α}

/-- The first segment and what follows its separator determine each other's place. -/
theorem append_sep_inj (ha : sep ∉ a) (hb : sep ∉ b) :
    a ++ sep :: rest = b ++ sep :: rest' ↔ a = b ∧ rest = rest' := by
  induction a generalizing b with
  | nil =>
    cases b with
    | nil => simp
    | cons y b => simpa using fun h : sep = y => absurd (h ▸ List.mem_cons_self) hb
  | cons x a ih =>
    cases b with
    | nil => simpa using fun h : x = sep => absurd (h ▸ List.mem_cons_self) ha
    | cons y b =>
      simp only [List.cons_append, List.cons.injEq, and_assoc]
      rw [ih (List.not_mem_of_not_mem_cons ha) (List.not_mem_of_not_mem_cons hb)]

/-- A list with the first segment `a` is a prefix of those lists with this first segment whose rest
it is a prefix of. -/
theorem append_sep_prefix_iff (ha : sep ∉ a) (hb : sep ∉ b) :
    a ++ sep :: rest <+: b ++ sep :: rest' ↔ a = b ∧ rest <+: rest' := by
  constructor
  · rintro ⟨more, hmore⟩
    rw [List.append_assoc, List.cons_append, append_sep_inj ha hb] at hmore
    exact ⟨hmore.1, more, hmore.2⟩
  · rintro ⟨rfl, hrest⟩
    exact (List.prefix_append_right_inj a).mpr ((List.prefix_cons_inj sep).mpr hrest)

/-- A prefix without a separator is one of the first segment. -/
theorem prefix_of_append_sep (hb : sep ∉ b) (h : b <+: a ++ sep :: rest) : b <+: a := by
  rcases le_total b.length a.length with hle | hle
  · exact List.prefix_of_prefix_length_le h (List.prefix_append a _) hle
  · rcases Nat.eq_or_lt_of_le hle with heq | hlt
    · exact List.prefix_of_prefix_length_le h (List.prefix_append a _) heq.ge
    · have hlonger : a ++ [sep] <+: b :=
        List.prefix_of_prefix_length_le ⟨rest, by simp⟩ h
          (by simpa using Nat.succ_le_of_lt hlt)
      exact absurd (hlonger.subset (by simp)) hb

/-- The segment before the first separator. -/
def first [DecidableEq α] (sep : α) (l : List α) : List α := l.takeWhile (· ≠ sep)

variable [DecidableEq α]

/-- Before a separator `a` is the first segment. -/
@[simp]
theorem first_append_sep (ha : sep ∉ a) : first sep (a ++ sep :: rest) = a := by
  rw [first, List.takeWhile_append_of_pos fun x hx => by simpa using ne_of_mem_of_not_mem hx ha]
  simp

/-- A list is its first segment, or has a separator after it. -/
theorem eq_first_or (sep : α) (l : List α) :
    first sep l = l ∧ sep ∉ l ∨ sep ∉ first sep l ∧ ∃ rest, l = first sep l ++ sep :: rest := by
  by_cases hl : sep ∈ l
  · obtain ⟨a, rest, rfl, ha⟩ := List.eq_append_cons_of_mem hl
    rw [first_append_sep ha]
    exact Or.inr ⟨ha, rest, rfl⟩
  · refine Or.inl ⟨?_, hl⟩
    rw [first, List.takeWhile_eq_self_iff]
    exact fun x hx => by simpa using ne_of_mem_of_not_mem hx hl

/-- The first segment is the first of all. -/
theorem splitOn_eq_cons (sep : α) (l : List α) : ∃ segs, l.splitOn sep = first sep l :: segs := by
  rcases eq_first_or sep l with ⟨hfirst, hl⟩ | ⟨hfirst, rest, hl⟩
  · rw [hfirst, List.splitOn_eq_singleton hl]
    exact ⟨[], rfl⟩
  · refine ⟨rest.splitOn sep, ?_⟩
    calc l.splitOn sep = (first sep l ++ sep :: rest).splitOn sep := congrArg _ hl
      _ = first sep l :: rest.splitOn sep := List.splitOn_append_cons_self_of_not_mem hfirst rest

omit [DecidableEq α] in
/-- What stands in segments joined by a separator. -/
theorem mem_intercalate {x : α} {segs : List (List α)} (hx : x ∈ [sep].intercalate segs) :
    x = sep ∨ ∃ s ∈ segs, x ∈ s := by
  induction segs with
  | nil => cases hx
  | cons s segs ih =>
    cases segs with
    | nil => exact Or.inr ⟨s, List.mem_cons_self, by simpa using hx⟩
    | cons t segs =>
      rw [List.intercalate_cons_cons, List.mem_append, List.mem_append, List.mem_singleton] at hx
      rcases hx with (hx | hx) | hx
      · exact Or.inr ⟨s, List.mem_cons_self, hx⟩
      · exact Or.inl hx
      · rcases ih hx with hx | ⟨u, hu, hxu⟩
        · exact Or.inl hx
        · exact Or.inr ⟨u, List.mem_cons_of_mem s hu, hxu⟩

omit [DecidableEq α] in
/-- A segment's elements are in the joined list. -/
theorem mem_intercalate_of_mem {x : α} {s : List α} {segs : List (List α)} (hs : s ∈ segs)
    (hx : x ∈ s) : x ∈ [sep].intercalate segs := by
  induction segs with
  | nil => cases hs
  | cons t segs ih =>
    cases segs with
    | nil =>
      obtain rfl := List.mem_singleton.mp hs
      simpa using hx
    | cons u segs =>
      rw [List.intercalate_cons_cons, List.mem_append, List.mem_append]
      rcases List.mem_cons.mp hs with rfl | hs
      · exact Or.inl (Or.inl hx)
      · exact Or.inr (ih hs)

omit [DecidableEq α] in
/-- What changes each element of the joined list changes each segment and the separator. -/
theorem map_intercalate {β : Type*} (f : α → β) (segs : List (List α)) :
    ([sep].intercalate segs).map f = [f sep].intercalate (segs.map (List.map f)) := by
  induction segs with
  | nil => rfl
  | cons s segs ih =>
    cases segs with
    | nil => simp
    | cons t segs =>
      rw [List.intercalate_cons_cons, List.map_append, List.map_append, ih]
      simp [List.intercalate_cons_cons]

omit [DecidableEq α] in
/-- Two joined lists, with a separator between them. -/
theorem intercalate_append {segs segs' : List (List α)} (h : segs ≠ []) (h' : segs' ≠ []) :
    [sep].intercalate (segs ++ segs') =
      [sep].intercalate segs ++ sep :: [sep].intercalate segs' := by
  induction segs with
  | nil => exact absurd rfl h
  | cons s segs ih =>
    cases segs with
    | nil =>
      obtain ⟨t, more, rfl⟩ := List.exists_cons_of_ne_nil h'
      rw [List.singleton_append, List.intercalate_cons_cons, List.intercalate_singleton]
      simp
    | cons t segs =>
      rw [List.cons_append, List.cons_append, List.intercalate_cons_cons, ← List.cons_append,
        ih (List.cons_ne_nil _ _), List.intercalate_cons_cons]
      simp

/-- A list with a separator at its end is a prefix of the lists that have more segments than it, and
begin with its own. -/
theorem concat_sep_prefix_iff : a ++ [sep] <+: l ↔
    a.splitOn sep <+: l.splitOn sep ∧ (a.splitOn sep).length < (l.splitOn sep).length := by
  constructor
  · rintro ⟨rest, rfl⟩
    have hsplit : (a ++ [sep] ++ rest).splitOn sep = a.splitOn sep ++ rest.splitOn sep := by
      rw [List.append_assoc]
      exact List.splitOn_append_cons_self a rest
    have hrest := List.length_pos_iff.mpr (List.splitOn_ne_nil sep rest)
    rw [hsplit, List.length_append]
    exact ⟨List.prefix_append _ _, by omega⟩
  · rintro ⟨⟨more, hmore⟩, hlength⟩
    have hne : more ≠ [] := by
      rintro rfl
      rw [List.append_nil] at hmore
      rw [hmore] at hlength
      exact Nat.lt_irrefl _ hlength
    have hl : l = a ++ sep :: [sep].intercalate more := by
      calc l = [sep].intercalate (l.splitOn sep) := (List.intercalate_splitOn sep).symm
        _ = [sep].intercalate (a.splitOn sep ++ more) := by rw [hmore]
        _ = [sep].intercalate (a.splitOn sep) ++ sep :: [sep].intercalate more :=
          intercalate_append (List.splitOn_ne_nil sep a) hne
        _ = a ++ sep :: [sep].intercalate more := by rw [List.intercalate_splitOn]
    exact ⟨[sep].intercalate more, by rw [hl]; simp⟩

/-- The segments of a joined list are those of what was joined. -/
theorem splitOn_intercalate_flatMap {segs : List (List α)} (h : segs ≠ []) :
    ([sep].intercalate segs).splitOn sep = segs.flatMap (List.splitOn sep) := by
  induction segs with
  | nil => exact absurd rfl h
  | cons s segs ih =>
    cases segs with
    | nil => simp
    | cons t segs =>
      have hjoin :
          [sep].intercalate (s :: t :: segs) = s ++ sep :: [sep].intercalate (t :: segs) := by
        rw [List.intercalate_cons_cons]
        simp
      rw [hjoin, List.splitOn_append_cons_self, ih (List.cons_ne_nil _ _),
        List.flatMap_cons (x := s)]

end Segments

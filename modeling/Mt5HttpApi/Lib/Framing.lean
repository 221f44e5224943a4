import Mt5HttpApi.Lib.Segments

/-!
# Frames between separators

Keys and bodies written one after the other with a separator behind each, and no lengths. The frames
are determined by what is written where no separator occurs in them (`framed_injective`). Where a
body may have separators in it, it may be that further frames are written in it
(`framed_cons_cons`), and a first key without a separator is all that is determined
(`framed_singleton_inj`).
-/

namespace Framing

open Segments

variable {α : Type*} {sep : α} {key key' body body' : List α}
  {frames frames' : List (List α × List α)}

/-- Each key and each body with a separator behind it. -/
def framed (sep : α) (frames : List (List α × List α)) : List α :=
  frames.flatMap fun frame => frame.1 ++ sep :: (frame.2 ++ [sep])

@[simp]
theorem framed_nil : framed sep [] = [] := rfl

theorem framed_cons : framed sep ((key, body) :: frames) =
    key ++ sep :: (body ++ sep :: framed sep frames) := by
  simp [framed]

/-- Only no frames are written as nothing. -/
theorem framed_eq_nil_iff : framed sep frames = [] ↔ frames = [] := by
  cases frames with
  | nil => simp
  | cons frame frames => simp [framed]

/-- Frames without separators are determined by what is written. -/
theorem framed_injective (h : ∀ frame ∈ frames, sep ∉ frame.1 ∧ sep ∉ frame.2)
    (h' : ∀ frame ∈ frames', sep ∉ frame.1 ∧ sep ∉ frame.2)
    (heq : framed sep frames = framed sep frames') : frames = frames' := by
  induction frames generalizing frames' with
  | nil => exact (framed_eq_nil_iff.mp heq.symm).symm
  | cons frame frames ih =>
    rcases frames' with - | ⟨frame', frames'⟩
    · exact framed_eq_nil_iff.mp heq
    · obtain ⟨⟨hkey, hbody⟩, hrest⟩ := List.forall_mem_cons.mp h
      obtain ⟨⟨hkey', hbody'⟩, hrest'⟩ := List.forall_mem_cons.mp h'
      -- the first separator ends the key, and the next one the body
      rw [framed_cons, framed_cons, append_sep_inj hkey hkey', append_sep_inj hbody hbody'] at heq
      obtain ⟨hkeys, hbodies, hmore⟩ := heq
      rw [Prod.ext hkeys hbodies, ih hrest hrest' hmore]

/-- One frame has the key and the body that are written. -/
theorem framed_singleton_inj (hkey : sep ∉ key) (hkey' : sep ∉ key') :
    framed sep [(key, body)] = framed sep [(key', body')] ↔ key = key' ∧ body = body' := by
  rw [framed_cons, framed_cons, append_sep_inj hkey hkey']
  simp

/-- Two frames are written as one, with the second in the body of the first. -/
theorem framed_pair : framed sep [(key, body), (key', body')] =
    framed sep [(key, body ++ sep :: (key' ++ sep :: body'))] := by
  simp [framed]

/-- What is written from a separator on ends with one. -/
theorem exists_cons_framed_eq (sep : α) (frames : List (List α × List α)) :
    ∃ more, sep :: framed sep frames = more ++ [sep] := by
  rcases List.eq_nil_or_concat frames with rfl | ⟨before, last, rfl⟩
  · exact ⟨[], rfl⟩
  · exact ⟨sep :: (framed sep before ++ last.1 ++ sep :: last.2), by simp [framed]⟩

/-- More frames too are written as one, with the second in its body. -/
theorem framed_cons_cons (frame frame' : List α × List α) (frames : List (List α × List α)) :
    ∃ more, framed sep (frame :: frame' :: frames) =
      framed sep [(frame.1, frame.2 ++ sep :: (frame'.1 ++ sep :: more))] := by
  obtain ⟨more, hmore⟩ := exists_cons_framed_eq sep frames
  refine ⟨frame'.2 ++ more, ?_⟩
  rw [framed_cons, framed_cons, framed_cons, hmore]
  simp

end Framing

import Mt5HttpApi.Compile.Cells

/-!
# The path rule in two views

A path that the scanned view has on one line differs from the other view's only in how many blanks
stand where that one has a space. The path rule does not see the difference: a segment of blanks and
dots stays one, and a device name has no space inside and is stripped of those around it
(`outsidePathReason_readText`).
-/

namespace Compile

open Text

variable {u : Unicode} {cells : List Cell} {cell : Cell}

/-- On one line, a piece is the same in both views or a space and several spaces. -/
theorem Cell.scan_of_line (h : '\n' ∉ cell.scan) : cell.scan = [cell.read] ∨
    (cell.read = ' ' ∧ cell.scan ≠ [] ∧ ∀ c ∈ cell.scan, c = ' ') := by
  rcases cell.faithful with heq | ⟨hspace, hne, hall⟩ | ⟨-, heq⟩
  · exact Or.inl heq
  · exact Or.inr ⟨hspace, hne, fun c hc => (hall c hc).resolve_right fun heq => h (heq ▸ hc)⟩
  · exact absurd (by simp [heq]) h

theorem scan_subset_scanText (h : cell ∈ cells) : cell.scan ⊆ scanText cells :=
  fun _ hc => List.mem_flatMap.mpr ⟨cell, h, hc⟩

theorem Cell.line_of_mem (hline : '\n' ∉ scanText cells) (h : cell ∈ cells) : '\n' ∉ cell.scan :=
  fun hmem => hline (scan_subset_scanText h hmem)

/-- What holds of a space and of every character of one view holds of the other. -/
theorem forall_scanText {p : Char → Prop} (hline : '\n' ∉ scanText cells) (hspace : p ' ')
    (h : ∀ cell ∈ cells, p cell.read) : ∀ c ∈ scanText cells, p c := by
  intro c hc
  obtain ⟨cell, hmem, hc⟩ := List.mem_flatMap.mp hc
  rcases Cell.scan_of_line (Cell.line_of_mem hline hmem) with heq | ⟨-, -, hall⟩
  · rw [heq, List.mem_singleton] at hc
    exact hc ▸ h cell hmem
  · exact hall c hc ▸ hspace

theorem plain_mem_scanText {c : Char} (hc : plain c = true) (h : c ∈ readText cells) :
    c ∈ scanText cells := by
  obtain ⟨cell, hmem, rfl⟩ := List.mem_map.mp h
  exact scan_subset_scanText hmem (by simp [Cell.scan_of_plain hc])

theorem plain_prefix_scanText {word : List Char} (hword : ∀ w ∈ word, plain w = true)
    (h : word <+: readText cells) : word <+: scanText cells := by
  induction word generalizing cells with
  | nil => exact List.nil_prefix
  | cons w word ih =>
    cases cells with
    | nil => simp at h
    | cons cell cells =>
      rw [readText_cons, List.cons_prefix_cons] at h
      obtain ⟨rfl, h⟩ := h
      rw [scanText_cons, Cell.scan_of_plain (hword _ List.mem_cons_self), List.singleton_append,
        List.cons_prefix_cons]
      exact ⟨rfl, ih (fun x hx => hword x (List.mem_cons_of_mem _ hx)) h⟩

/-! ## Slashes -/

/-- `path.replace("/", "\\")` in both views. -/
def Cell.normalize (cell : Cell) : Cell where
  read := if cell.read = '/' then '\\' else cell.read
  scan := replaceChar '/' '\\' cell.scan
  faithful := by
    have hfix : ∀ c : Char, c ≠ '/' → (if c = '/' then '\\' else c) = c := fun c hc => if_neg hc
    rcases cell.faithful with heq | ⟨hspace, hne, hall⟩ | ⟨hbreak, heq⟩
    · exact Or.inl (by simp [heq, replaceChar])
    · refine Or.inr (Or.inl ⟨by simp [hspace], by simpa [replaceChar] using hne, ?_⟩)
      intro c hc
      obtain ⟨c', hc', rfl⟩ := List.mem_map.mp hc
      rcases hall c' hc' with rfl | rfl <;> simp
    · have hne : cell.read ≠ '/' := by
        intro h
        rw [h] at hbreak
        exact absurd hbreak (by decide)
      exact Or.inr (Or.inr ⟨by rwa [hfix _ hne], by simp [heq, replaceChar]⟩)

theorem readText_normalize :
    readText (cells.map Cell.normalize) = replaceChar '/' '\\' (readText cells) := by
  simp [readText, replaceChar, Cell.normalize]

theorem scanText_normalize :
    scanText (cells.map Cell.normalize) = replaceChar '/' '\\' (scanText cells) := by
  induction cells with
  | nil => rfl
  | cons cell cells ih =>
    rw [List.map_cons, scanText_cons, ih, scanText_cons]
    simp [replaceChar, Cell.normalize]

theorem line_normalize (hline : '\n' ∉ scanText cells) :
    '\n' ∉ scanText (cells.map Cell.normalize) := by
  rw [scanText_normalize]
  intro h
  obtain ⟨c, hc, heq⟩ := List.mem_map.mp h
  split at heq
  next => exact absurd heq (by decide)
  next => exact hline (heq ▸ hc)

/-! ## Segments -/

/-- The part of a segment before its first dot. -/
theorem scanText_takeWhile_dot (hline : '\n' ∉ scanText cells) :
    (scanText cells).takeWhile (· ≠ '.') =
      scanText (cells.takeWhile fun cell => cell.read ≠ '.') := by
  induction cells with
  | nil => rfl
  | cons cell cells ih =>
    have hrest : '\n' ∉ scanText cells := fun h => hline (List.mem_append_right _ h)
    by_cases hdot : cell.read = '.'
    · have hscan : cell.scan = ['.'] := by
        rw [Cell.scan_of_plain (by rw [hdot]; decide), hdot]
      simp [hscan, hdot]
    · have hnone : ∀ c ∈ cell.scan, (c ≠ '.' : Bool) = true := by
        intro c hc
        have hcell := Cell.line_of_mem hline List.mem_cons_self
        rcases Cell.scan_of_line hcell with heq | ⟨-, -, hall⟩
        · rw [heq, List.mem_singleton] at hc
          simpa [hc] using hdot
        · simp [hall c hc]
      rw [scanText_cons, List.takeWhile_append_of_pos hnone, ih hrest,
        List.takeWhile_cons_of_pos (by simpa using hdot), scanText_cons]

/-- A piece that is white space in the view `readText`. -/
def Cell.isSpace (cell : Cell) : Bool := Text.isSpace cell.read

/-- The pieces that `strip` leaves. -/
def stripCells (cells : List Cell) : List Cell :=
  ((cells.dropWhile Cell.isSpace).reverse.dropWhile Cell.isSpace).reverse

theorem strip_readText : strip (readText cells) = readText (stripCells cells) := by
  rw [strip, readText, List.dropWhile_map, ← List.map_reverse, List.dropWhile_map,
    ← List.map_reverse]
  rfl

theorem exists_stripCells (cells : List Cell) : ∃ before after,
    cells = before ++ stripCells cells ++ after ∧ (∀ cell ∈ before, cell.isSpace = true) ∧
      ∀ cell ∈ after, cell.isSpace = true := by
  refine ⟨cells.takeWhile Cell.isSpace,
    ((cells.dropWhile Cell.isSpace).reverse.takeWhile Cell.isSpace).reverse, ?_,
    fun cell h => List.mem_takeWhile_imp h,
    fun cell h => List.mem_takeWhile_imp (List.mem_reverse.mp h)⟩
  rw [stripCells, List.append_assoc, ← List.reverse_append, List.takeWhile_append_dropWhile,
    List.reverse_reverse, List.takeWhile_append_dropWhile]

/-- A text whose stripped form has no space is stripped to the same in both views. -/
theorem strip_scanText (hline : '\n' ∉ scanText cells) (h : ' ' ∉ strip (readText cells)) :
    strip (scanText cells) = strip (readText cells) := by
  obtain ⟨before, after, heq, hbefore, hafter⟩ := exists_stripCells cells
  have hmiddle : scanText (stripCells cells) = readText (stripCells cells) := by
    rw [strip_readText] at h
    have hscan : ∀ cell ∈ stripCells cells, cell.scan = [cell.read] := by
      intro cell hcell
      have hmem : cell ∈ cells := by
        rw [heq]
        simp [hcell]
      rcases Cell.scan_of_line (Cell.line_of_mem hline hmem) with hsame | ⟨hspace, -⟩
      · exact hsame
      · exact absurd (List.mem_map.mpr ⟨cell, hcell, hspace⟩) h
    exact scanText_eq_readText hscan
  have hpad : ∀ part, part ⊆ cells → (∀ cell ∈ part, cell.isSpace = true) →
      ∀ c ∈ scanText part, Text.isSpace c = true := by
    intro part hpart hspace
    refine forall_scanText (fun hmem => ?_) (by decide) hspace
    obtain ⟨cell, hcell, hc⟩ := List.mem_flatMap.mp hmem
    exact Cell.line_of_mem hline (hpart hcell) hc
  have hread : ∀ part, (∀ cell ∈ part, cell.isSpace = true) →
      ∀ c ∈ readText part, Text.isSpace c = true := by
    intro part hspace c hc
    obtain ⟨cell, hcell, rfl⟩ := List.mem_map.mp hc
    exact hspace cell hcell
  calc strip (scanText cells)
      = strip (scanText before ++ scanText (stripCells cells) ++ scanText after) := by
        rw [← scanText_append, ← scanText_append, ← heq]
    _ = strip (scanText (stripCells cells)) :=
        strip_pad (hpad before (fun x hx => by rw [heq]; simp [hx]) hbefore)
          (hpad after (fun x hx => by rw [heq]; simp [hx]) hafter)
    _ = strip (readText before ++ readText (stripCells cells) ++ readText after) := by
        rw [hmiddle, strip_pad (hread before hbefore) (hread after hafter)]
    _ = strip (readText cells) := by
        rw [← readText_append, ← readText_append, ← heq]

/-- An empty segment and a single dot look the same in both views. -/
theorem readText_of_scanText_dot (hline : '\n' ∉ scanText cells)
    (h : scanText cells ∈ [[], ['.']]) : readText cells ∈ [[], ['.']] := by
  cases cells with
  | nil => simp
  | cons cell cells =>
    have hdot : cell.scan = ['.'] ∧ scanText cells = [] := by
      have hne := cell.scan_ne_nil
      simpa [List.append_eq_singleton_iff, hne] using h
    have hnil : cells = [] := by
      rw [← List.length_eq_zero_iff]
      by_contra hlength
      obtain ⟨other, more, rfl⟩ := List.exists_cons_of_length_pos (Nat.pos_of_ne_zero hlength)
      simp [other.scan_ne_nil] at hdot
    have hread : cell.read = '.' := by
      rcases Cell.scan_of_line (Cell.line_of_mem hline List.mem_cons_self) with heq | ⟨-, -, hall⟩
      · simpa [heq] using hdot.1
      · exact absurd (hall '.' (by simp [hdot.1])) (by decide)
    simp [hnil, hread]

theorem space_not_mem_deviceNames : ∀ name ∈ deviceNames, ' ' ∉ name := by decide

/-- A segment that passes in the scanned view passes in the other. -/
theorem segmentReason_readText (hline : '\n' ∉ scanText cells)
    (h : segmentReason u (scanText cells) = none) : segmentReason u (readText cells) = none := by
  unfold segmentReason at h ⊢
  split at h
  next => cases h
  next hparent =>
    split at h
    next => cases h
    next hdevice =>
      rw [if_neg, if_neg]
      · intro hread
        -- a device name has no space, so the name is the same in both views
        refine hdevice ?_
        have htake : (readText cells).takeWhile (· ≠ '.') =
            readText (cells.takeWhile fun cell => cell.read ≠ '.') :=
          List.takeWhile_map
        rw [htake] at hread
        have hspace : ' ' ∉ strip (readText (cells.takeWhile fun cell => cell.read ≠ '.')) := by
          intro hmem
          refine space_not_mem_deviceNames _ hread (List.mem_flatMap.mpr ⟨' ', hmem, ?_⟩)
          rw [u.upper_space ' ' (by decide)]
          exact List.mem_singleton_self _
        have hpart : '\n' ∉ scanText (cells.takeWhile fun cell => cell.read ≠ '.') := by
          rw [← scanText_takeWhile_dot hline]
          exact fun hmem => hline (List.takeWhile_subset _ hmem)
        rw [scanText_takeWhile_dot hline, strip_scanText hpart hspace]
        exact hread
      · rintro ⟨hname, hstrip⟩
        rw [stripOf_eq_nil_iff] at hstrip hparent
        refine hparent ⟨fun hmem => hname (readText_of_scanText_dot hline hmem), ?_⟩
        exact forall_scanText hline (by decide) fun cell hmem =>
          hstrip cell.read (List.mem_map_of_mem hmem)

/-- A path on one line that passes in the scanned view passes in the other. -/
theorem outsidePathReason_readText {directive : List Char} (hline : '\n' ∉ scanText cells)
    (h : outsidePathReason u directive (scanText cells) = none) :
    outsidePathReason u directive (readText cells) = none := by
  unfold outsidePathReason at h ⊢
  simp only [← readText_normalize, ← scanText_normalize] at h ⊢
  generalize hcells : cells.map Cell.normalize = parts at h ⊢
  have hparts : '\n' ∉ scanText parts := hcells ▸ line_normalize hline
  split at h
  next => cases h
  next hdrive =>
    split at h
    next => cases h
    next hunc =>
      split at h
      next => cases h
      -- neither a drive nor a share nor an absolute path: each segment counts
      next habsolute =>
        have hslash : plain '\\' = true := by decide
        rw [if_neg fun hmem => hdrive (plain_mem_scanText (by decide) hmem), if_neg, if_neg]
        · rw [List.findSome?_eq_none_iff] at h ⊢
          intro segment hsegment
          rw [readText_splitOn] at hsegment
          obtain ⟨piece, hpiece, rfl⟩ := List.mem_map.mp hsegment
          have hpieceLine : '\n' ∉ scanText piece := by
            intro hmem
            obtain ⟨cell, hcell, hc⟩ := List.mem_flatMap.mp hmem
            exact Cell.line_of_mem hparts (mem_of_mem_splitOnP hpiece cell hcell).2 hc
          have hwhole : '\\' ∉ scanText piece := by
            intro hmem
            refine forall_scanText (p := (· ≠ '\\')) hpieceLine (by decide) ?_ _ hmem rfl
            intro cell hcell
            simpa using (mem_of_mem_splitOnP hpiece cell hcell).1
          refine segmentReason_readText hpieceLine (h _ ?_)
          refine scanText_splitOn_subset (fun cell hread => ?_) hpiece ?_
          · rw [Cell.scan_of_plain (hread ▸ hslash), hread]
          · rw [List.splitOn_eq_singleton hwhole]
            exact List.mem_singleton_self _
        · rintro ⟨hleads, hinclude⟩
          exact habsolute ⟨List.isPrefixOf_iff_prefix.mpr
            (plain_prefix_scanText (by simp [hslash]) (List.isPrefixOf_iff_prefix.mp hleads)),
            hinclude⟩
        · intro hleads
          exact hunc (List.isPrefixOf_iff_prefix.mpr
            (plain_prefix_scanText (by simp [hslash]) (List.isPrefixOf_iff_prefix.mp hleads)))

end Compile

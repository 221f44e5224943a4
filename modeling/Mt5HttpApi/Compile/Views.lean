import Mt5HttpApi.Compile.Paths

/-!
# The check in two views

`checkScanned_readText`: what the check accepts of the scanned view of a text it accepts of the
other, when no line break of the scanned view is between `#property` and `icon` of a directive.

The argument goes along a line of the view `readText`, piece by piece. A line break of the scanned
view before the `#` starts a line that the check reads too; one between the `#` and the name leaves
a line that `splitDirective` refuses; one between the name and the end of the path leaves a
directive without a path.
-/

namespace Compile

open Text

variable {u : Unicode} {cells : List Cell} {cell : Cell}

/-! ## Names -/

theorem plain_include : ∀ w ∈ "include".toList, plain w = true :=
  List.all_eq_true.mp (by decide)

theorem plain_resource : ∀ w ∈ "resource".toList, plain w = true :=
  List.all_eq_true.mp (by decide)

theorem plain_property : ∀ w ∈ "property".toList, plain w = true :=
  List.all_eq_true.mp (by decide)

theorem plain_icon : ∀ w ∈ "icon".toList, plain w = true :=
  List.all_eq_true.mp (by decide)

/-- No line break of the scanned view is between the `property` and the `icon` that the view
`readText` begins with. -/
def KeepsPropertyIcon (u : Unicode) (name : List Cell) : Prop :=
  ∀ m, matchPropertyIcon (readText name) = some m → u.boundary m.2 = true →
    '\n' ∉ scanText ((name.drop "property".toList.length).takeWhile Cell.isBlank)

/-- Blanks that the scanned view has on one line too. -/
theorem takeWhile_firstLine_ne_nil (hline : '\n' ∉ scanText (cells.takeWhile Cell.isBlank))
    (h : (readText cells).takeWhile blank ≠ []) :
    (firstLine (scanText cells)).takeWhile blank ≠ [] := by
  cases cells with
  | nil => exact absurd rfl h
  | cons cell cells =>
    cases hblank : cell.isBlank with
    | false =>
      have hread : ¬ blank cell.read = true := by simpa [Cell.isBlank] using hblank
      rw [readText_cons, List.takeWhile_cons_of_neg hread] at h
      exact absurd rfl h
    | true =>
      obtain ⟨c, more, hscan⟩ := List.exists_cons_of_ne_nil cell.scan_ne_nil
      have hne : c ≠ '\n' := by
        rintro rfl
        exact hline (by rw [List.takeWhile_cons_of_pos hblank, scanText_cons, hscan]; simp)
      have hc : blank c = true :=
        (Cell.scan_of_isBlank hblank c (by simp [hscan])).resolve_right hne
      rw [scanText_cons, hscan, List.cons_append, firstLine_cons hne,
        List.takeWhile_cons_of_pos hc]
      exact List.cons_ne_nil _ _

/-- A name that begins a word of a pattern is where the blanks before it end, in both views. -/
theorem dropWhile_firstLine_of_matchWord {w : Char} {word : List Char}
    {m : List Char × List Char} (hw : plain w = true) (hblank : blank w = false)
    (h : matchWord (w :: word) (readText cells) = some m) :
    (firstLine (scanText cells)).dropWhile blank = firstLine (scanText cells) := by
  obtain ⟨c, rest, heq, hplain, hc⟩ := exists_cons_of_matchWord hw hblank h
  cases cells with
  | nil => cases heq
  | cons cell cells =>
    obtain ⟨rfl, rfl⟩ := List.cons.inj heq
    exact dropWhile_firstLine_of_plain hplain hc

theorem matchPropertyIcon_firstLine {name : List Cell} {word rest : List Char}
    (hkeeps : KeepsPropertyIcon u name) (hboundary : u.boundary rest = true)
    (h : matchPropertyIcon (readText name) = some (word, rest)) :
    ∃ after, after <:+ name ∧ rest = readText after ∧
      matchPropertyIcon (firstLine (scanText name)) = some (word, firstLine (scanText after)) := by
  have hline := hkeeps _ h hboundary
  obtain ⟨⟨property, afterProperty⟩, hproperty, hmap⟩ := Option.bind_eq_some_iff.mp h
  dsimp only at hmap
  split at hmap
  next => cases hmap
  next hgap =>
    obtain ⟨⟨icon, afterIcon⟩, hicon, heq⟩ := Option.map_eq_some_iff.mp hmap
    clear h hmap
    cases heq
    have hscan := matchWord_firstLine plain_property name
    rw [hproperty, Option.map_some] at hscan
    have hdrop := matchWord_rest hproperty
    rw [← readText_drop] at hdrop
    have hsuffix := List.drop_suffix "property".toList.length name
    generalize name.drop "property".toList.length = middle at *
    rw [hdrop] at hgap
    rw [hdrop, readText_dropWhile_blank] at hicon
    -- the blanks before `icon` are on one line in the scanned view
    have hskip := ((firstLine_skip middle).resolve_left fun hbreak => hline hbreak.1).2
    have hstart := dropWhile_firstLine_of_matchWord (by decide) (by decide) hicon
    have hiconScan := matchWord_firstLine plain_icon (middle.dropWhile Cell.isBlank)
    rw [hicon, Option.map_some] at hiconScan
    have hrest := matchWord_rest hicon
    rw [← readText_drop] at hrest
    refine ⟨(middle.dropWhile Cell.isBlank).drop "icon".toList.length,
      ((List.drop_suffix _ _).trans (List.dropWhile_suffix _)).trans hsuffix, hrest, ?_⟩
    rw [matchPropertyIcon, hscan, Option.bind_some, if_neg (takeWhile_firstLine_ne_nil hline hgap),
      hskip, hstart, hiconScan]
    rfl

/-- A directive name is the same in both views. -/
theorem matchName_firstLine {name : List Cell} {word rest : List Char}
    (hkeeps : KeepsPropertyIcon u name) (hboundary : u.boundary rest = true)
    (h : matchName (readText name) = some (word, rest)) :
    ∃ after, after <:+ name ∧ rest = readText after ∧
      (firstLine (scanText name)).dropWhile blank = firstLine (scanText name) ∧
      matchName (firstLine (scanText name)) = some (word, firstLine (scanText after)) := by
  have hinclude := matchWord_firstLine plain_include name
  have hresource := matchWord_firstLine plain_resource name
  unfold matchName at h ⊢
  cases hi : matchWord "include".toList (readText name) with
  | some m =>
    rw [hi, Option.some_or] at h
    cases h
    refine ⟨_, List.drop_suffix _ _, ?_,
      dropWhile_firstLine_of_matchWord (by decide) (by decide) hi,
      by rw [hinclude, hi]; rfl⟩
    rw [readText_drop]
    exact matchWord_rest hi
  | none =>
    rw [hi, Option.none_or] at h
    rw [hinclude, hi, Option.map_none, Option.none_or]
    cases hr : matchWord "resource".toList (readText name) with
    | some m =>
      rw [hr, Option.some_or] at h
      cases h
      refine ⟨_, List.drop_suffix _ _, ?_,
        dropWhile_firstLine_of_matchWord (by decide) (by decide) hr, by rw [hresource, hr]; rfl⟩
      rw [readText_drop]
      exact matchWord_rest hr
    | none =>
      rw [hr, Option.none_or] at h
      rw [hresource, hr, Option.map_none, Option.none_or]
      obtain ⟨after, hsuffix, hrest, hscan⟩ := matchPropertyIcon_firstLine hkeeps hboundary h
      obtain ⟨m, hproperty, -⟩ := Option.bind_eq_some_iff.mp h
      exact ⟨after, hsuffix, hrest,
        dropWhile_firstLine_of_matchWord (by decide) (by decide) hproperty, hscan⟩

/-- A name that ends in one view ends in the other. -/
theorem boundary_firstLine (hrow : '\n' ∉ readText cells)
    (h : u.boundary (readText cells) = true) :
    u.boundary (firstLine (scanText cells)) = true := by
  cases cells with
  | nil => rfl
  | cons cell cells =>
    by_cases hsolid : cell.scan = [cell.read]
    · have hne : cell.read ≠ '\n' := fun heq => hrow (by simp [heq])
      rw [scanText_cons, hsolid, List.singleton_append, firstLine_cons hne]
      exact h
    · rcases firstLine_of_not_solid hsolid (scanText cells) with heq | ⟨more, heq⟩
      · rw [scanText_cons, heq]
        rfl
      · rw [scanText_cons, heq]
        simp [Unicode.boundary, u.word_space ' ' (by decide)]

/-! ## Arguments -/

theorem untilClose_cons {close c : Char} (text : List Char) : untilClose close (c :: text) =
      if c = close then some []
      else if c = '\r' ∨ c = '\n' then none
      else (untilClose close text).map (c :: ·) := by
  unfold untilClose
  by_cases hclose : c = close
  · simp [hclose]
  · by_cases hbreak : c = '\r' ∨ c = '\n'
    · rw [if_neg hclose, if_pos hbreak, List.takeWhile_cons_of_neg (by simp [hclose]; tauto)]
      simp [hclose]
    · have hstay : c ≠ close ∧ c ≠ '\r' ∧ c ≠ '\n' := ⟨hclose, by tauto⟩
      rw [if_neg hclose, if_neg hbreak, List.takeWhile_cons_of_pos (by simpa using hstay)]
      simp only [List.length_cons, List.drop_succ_cons]
      split <;> rfl

/-- Characters that do not end a path are part of it. -/
theorem untilClose_append {close : Char} {before : List Char}
    (h : ∀ c ∈ before, c ≠ close ∧ c ≠ '\r' ∧ c ≠ '\n') (text : List Char) :
    untilClose close (before ++ text) = (untilClose close text).map (before ++ ·) := by
  induction before with
  | nil => simp
  | cons c before ih =>
    obtain ⟨hclose, hbreak⟩ := h c List.mem_cons_self
    rw [List.cons_append, untilClose_cons, if_neg hclose, if_neg (by tauto),
      ih fun x hx => h x (List.mem_cons_of_mem _ hx), Option.map_map]
    rfl

/-- A path of the scanned view is one of the other, with its pieces. -/
theorem untilClose_readText {close : Char} (hplain : plain close = true) {path : List Char}
    (h : untilClose close (firstLine (scanText cells)) = some path) :
    ∃ pieces, path = scanText pieces ∧ '\n' ∉ scanText pieces ∧
      untilClose close (readText cells) = some (readText pieces) := by
  have hspace : ∀ c, c = ' ' → c ≠ close ∧ c ≠ '\r' ∧ c ≠ '\n' := by
    rintro c rfl
    refine ⟨?_, by decide, by decide⟩
    rintro rfl
    exact absurd hplain (by decide)
  induction cells generalizing path with
  | nil => simp [firstLine, untilClose] at h
  | cons cell cells ih =>
    rw [scanText_cons] at h
    by_cases hbreak : '\n' ∈ cell.scan
    · -- the line ends at this piece, before any delimiter
      rw [firstLine_append_of_mem hbreak] at h
      have hblank : ∀ c ∈ firstLine cell.scan, c = ' ' := by
        intro c hc
        have hmem := List.takeWhile_subset _ hc
        have hne : c ≠ '\n' := by
          rintro rfl
          exact not_mem_firstLine _ hc
        rcases cell.faithful with heq | ⟨-, -, hall⟩ | ⟨-, heq⟩
        · rw [heq, List.mem_singleton] at hbreak hmem
          exact absurd (hmem.trans hbreak.symm) hne
        · exact (hall c hmem).resolve_right hne
        · rw [heq, List.mem_singleton] at hmem
          exact absurd hmem hne
      rw [← List.append_nil (firstLine cell.scan),
        untilClose_append fun c hc => hspace c (hblank c hc)] at h
      simp [untilClose] at h
    · rw [firstLine_append hbreak] at h
      rcases Cell.scan_of_line hbreak with hsolid | ⟨hread, -, hall⟩
      · have hne : cell.read ≠ '\n' := by
          intro heq
          simp [hsolid, heq] at hbreak
        rw [hsolid, List.singleton_append, untilClose_cons] at h
        rw [readText_cons, untilClose_cons]
        split at h
        next hclose =>
          cases h
          exact ⟨[], rfl, by simp, by rw [if_pos hclose]; rfl⟩
        next hclose =>
          split at h
          next => cases h
          next hstay =>
            obtain ⟨path', hpath', rfl⟩ := Option.map_eq_some_iff.mp h
            obtain ⟨pieces, rfl, hline, hpieces⟩ := ih hpath'
            refine ⟨cell :: pieces, by simp [hsolid], ?_, ?_⟩
            · simp only [scanText_cons, List.mem_append, not_or]
              exact ⟨hbreak, hline⟩
            · rw [if_neg hclose, if_neg hstay, hpieces]
              rfl
      · rw [untilClose_append fun c hc => hspace c (hall c hc)] at h
        obtain ⟨path', hpath', rfl⟩ := Option.map_eq_some_iff.mp h
        obtain ⟨pieces, rfl, hline, hpieces⟩ := ih hpath'
        refine ⟨cell :: pieces, by simp, ?_, ?_⟩
        · simp only [scanText_cons, List.mem_append, not_or]
          exact ⟨hbreak, hline⟩
        · rw [readText_cons, hread, untilClose_cons, if_neg (hspace ' ' rfl).1,
            if_neg (by decide), hpieces]
          simp [hread]

/-- An argument of the scanned view with a path on its line is one of the other view. -/
theorem pathArgument_readText {text path : List Char} (hrow : '\n' ∉ readText cells)
    (h : pathArgument ((firstLine (scanText cells)).dropWhile blank) = some (text, path)) :
    ∃ pieces text', path = scanText pieces ∧ '\n' ∉ scanText pieces ∧
      pathArgument ((readText cells).dropWhile blank) = some (text', readText pieces) := by
  rw [readText_dropWhile_blank]
  rcases firstLine_skip cells with ⟨-, hnil⟩ | ⟨-, hskip⟩
  · rw [hnil] at h
    cases h
  · rw [hskip] at h
    have hrest : '\n' ∉ readText (cells.dropWhile Cell.isBlank) := fun hmem =>
      hrow (List.map_subset _ (List.dropWhile_subset _) hmem)
    have hhead := List.head?_dropWhile_not Cell.isBlank cells
    generalize cells.dropWhile Cell.isBlank = rest at h hrest hhead ⊢
    cases rest with
    | nil => cases h
    | cons cell rest =>
      have hblank : blank cell.read = false := by simpa [Cell.isBlank] using hhead
      have hne : cell.read ≠ '\n' := fun heq => hrest (by simp [heq])
      rcases cell.faithful with hsolid | ⟨hspace, -⟩ | ⟨-, hbreak⟩
      · rw [scanText_cons, hsolid, List.singleton_append, firstLine_cons hne,
          List.dropWhile_cons_of_neg (by simp [hblank])] at h
        rw [readText_cons]
        unfold pathArgument at h
        split at h
        next heq =>
          obtain ⟨hquote, rfl⟩ := List.cons.inj heq
          obtain ⟨path', hpath, heq'⟩ := Option.map_eq_some_iff.mp h
          cases heq'
          obtain ⟨pieces, rfl, hline, hpieces⟩ := untilClose_readText (by decide) hpath
          exact ⟨pieces, _, rfl, hline, by rw [hquote, pathArgument, hpieces]; rfl⟩
        next heq =>
          obtain ⟨hquote, rfl⟩ := List.cons.inj heq
          obtain ⟨path', hpath, heq'⟩ := Option.map_eq_some_iff.mp h
          cases heq'
          obtain ⟨pieces, rfl, hline, hpieces⟩ := untilClose_readText (by decide) hpath
          exact ⟨pieces, _, rfl, hline, by rw [hquote, pathArgument, hpieces]; rfl⟩
        next => cases h
      · rw [hspace] at hblank
        exact absurd hblank (by decide)
      · rw [scanText_cons, hbreak] at h
        cases h

theorem checkMatch_eq_none_iff {word argument : List Char} :
    checkMatch u word argument = none ↔ ∃ text path, pathArgument argument = some (text, path) ∧
      outsidePathReason u (directiveOf word) path = none := by
  unfold checkMatch
  dsimp only
  split
  next hnone => simp [hnone]
  next text path hsome => simp [hsome]

/-! ## Lines -/

/-- The blanks before a `#` do not matter to the check. -/
theorem check_blanks_hash {blanks : List Char} (h : ∀ c ∈ blanks, blank c = true)
    (rest : List Char) : splitDirective (blanks ++ '#' :: rest) = splitDirective ('#' :: rest) ∧
      checkDirective u (blanks ++ '#' :: rest) = checkDirective u ('#' :: rest) := by
  simp only [splitDirective, checkDirective, matchDirective, List.dropWhile_append_of_pos h,
    and_self]

theorem keepsPropertyIcon_of_row {row rest : List Cell} {hash : Cell}
    (hrow : row.dropWhile Cell.isBlank = hash :: rest) (hhash : hash.read = '#')
    (h : splitsPropertyIcon u row = false) :
    KeepsPropertyIcon u (rest.dropWhile Cell.isBlank) := by
  intro m hm hboundary hbreak
  obtain ⟨⟨property, afterProperty⟩, hproperty, hmap⟩ := Option.bind_eq_some_iff.mp hm
  dsimp only at hmap
  split at hmap
  next => cases hmap
  next =>
    obtain ⟨icon, hicon, rfl⟩ := Option.map_eq_some_iff.mp hmap
    rw [matchWord_rest hproperty, ← readText_drop, readText_dropWhile_blank] at hicon
    simp only [splitsPropertyIcon, hrow] at h
    rw [hproperty, hicon] at h
    simp only [hhash, Option.isSome_some, Option.any_some, hboundary, decide_true, Bool.and_true,
      Bool.true_and, decide_eq_false_iff_not] at h
    exact h hbreak

theorem splitDirective_hash (rest : List Char) :
    splitDirective ('#' :: rest) = decide (rest.dropWhile blank = []) := rfl

theorem checkDirective_hash {line rest : List Char} (h : line.dropWhile blank = '#' :: rest) :
    checkDirective u line = (matchName (rest.dropWhile blank)).bind fun m =>
      if u.boundary m.2 then checkMatch u m.1 (m.2.dropWhile blank) else none := by
  simp only [checkDirective, matchDirective, h]
  rw [Option.bind_assoc]
  congr 1
  funext m
  split <;> rfl

/-- What follows a `#` passes when it does on the line of the scanned view. -/
theorem check_hash {rest : List Cell} (hrest : '\n' ∉ readText rest)
    (hkeeps : KeepsPropertyIcon u (rest.dropWhile Cell.isBlank))
    (hsplit : splitDirective ('#' :: firstLine (scanText rest)) = false)
    (hcheck : checkDirective u ('#' :: firstLine (scanText rest)) = none) :
    splitDirective ('#' :: readText rest) = false ∧
      checkDirective u ('#' :: readText rest) = none := by
  rw [splitDirective_hash, decide_eq_false_iff_not] at hsplit
  have hskip := ((firstLine_skip rest).resolve_left fun hbreak => hsplit hbreak.2).2
  rw [splitDirective_hash, checkDirective_hash rfl, readText_dropWhile_blank,
    decide_eq_false_iff_not]
  refine ⟨fun hnil => ?_, ?_⟩
  · rw [List.map_eq_nil_iff.mp hnil] at hskip
    exact hsplit hskip
  · cases hname : matchName (readText (rest.dropWhile Cell.isBlank)) with
    | none => rfl
    | some m =>
      obtain ⟨word, tail⟩ := m
      rw [Option.bind_some]
      split
      next hboundary =>
        obtain ⟨after, hsuffix, rfl, hstart, hscan⟩ := matchName_firstLine hkeeps hboundary hname
        have hafter : '\n' ∉ readText after := fun hmem =>
          hrest (List.map_subset _ (hsuffix.trans (List.dropWhile_suffix _)).subset hmem)
        rw [checkDirective_hash rfl, hskip, hstart, hscan, Option.bind_some,
          if_pos (boundary_firstLine hafter hboundary), checkMatch_eq_none_iff] at hcheck
        obtain ⟨text, path, hargument, hreason⟩ := hcheck
        obtain ⟨pieces, text', rfl, hline, hread⟩ := pathArgument_readText hafter hargument
        exact checkMatch_eq_none_iff.mpr
          ⟨text', readText pieces, hread, outsidePathReason_readText hline hreason⟩
      next => rfl

/-- A line passes when the lines that it is in the scanned view do. -/
theorem check_row {row : List Cell} (hrow : '\n' ∉ readText row)
    (hjoin : splitsPropertyIcon u row = false)
    (h : ∀ line ∈ (scanText row).splitOn '\n',
      splitDirective line = false ∧ checkDirective u line = none) :
    splitDirective (readText row) = false ∧ checkDirective u (readText row) = none := by
  have hlead : (readText row).dropWhile blank = readText (row.dropWhile Cell.isBlank) :=
    readText_dropWhile_blank
  cases hdrop : row.dropWhile Cell.isBlank with
  | nil =>
    rw [hdrop] at hlead
    simp [splitDirective, checkDirective, matchDirective, hlead]
  | cons hash rest =>
    by_cases hhash : hash.read = '#'
    -- the scan has this directive on a line of its own
    · obtain ⟨blanks, hblanks, hlines⟩ := exists_blanks_of_white
        (scanText_of_isBlank fun cell hcell => List.mem_takeWhile_imp hcell)
      have hline : blanks ++ '#' :: firstLine (scanText rest) ∈ (scanText row).splitOn '\n' := by
        have hscan : scanText row =
            scanText (row.takeWhile Cell.isBlank) ++ '#' :: scanText rest := by
          have hsolid : hash.scan = ['#'] := by
            rw [Cell.scan_of_plain (by rw [hhash]; decide), hhash]
          rw [← List.singleton_append, ← hsolid, ← scanText_cons, ← hdrop, ← scanText_append,
            List.takeWhile_append_dropWhile]
        have hbreak : '\n' ∉ blanks := fun hmem => absurd (hblanks _ hmem) (by decide)
        rw [← firstLine_cons (by decide), ← firstLine_append hbreak, hscan]
        exact hlines _ (firstLine_mem_splitOn _)
      have hread : (readText row).dropWhile blank = '#' :: readText rest := by
        rw [hlead, hdrop, readText_cons, hhash]
      have hrest : '\n' ∉ readText rest := by
        intro hmem
        have hmem' : '\n' ∈ (readText row).dropWhile blank := by simp [hread, hmem]
        exact hrow (List.dropWhile_subset _ hmem')
      obtain ⟨hsplit, hcheck⟩ := h _ hline
      rw [(check_blanks_hash (u := u) hblanks _).1] at hsplit
      rw [(check_blanks_hash hblanks _).2] at hcheck
      have hresult := check_hash hrest (keepsPropertyIcon_of_row hdrop hhash hjoin) hsplit hcheck
      have hwhole : readText row = (readText row).takeWhile blank ++ '#' :: readText rest := by
        rw [← hread, List.takeWhile_append_dropWhile]
      have hblank := check_blanks_hash (u := u)
        (fun c hc => List.mem_takeWhile_imp (l := readText row) hc) (readText rest)
      rw [hwhole, hblank.1, hblank.2]
      exact hresult
    · rw [hdrop, readText_cons] at hlead
      simp [splitDirective, checkDirective, matchDirective, hlead, hhash]

/-- What the check accepts of the scanned view it accepts of the other, when no line break of the
scanned view is between `#property` and `icon`. -/
theorem checkScanned_readText (hjoin : ∀ row ∈ rows cells, splitsPropertyIcon u row = false)
    (h : checkScanned u (scanText cells) = none) : checkScanned u (readText cells) = none := by
  rw [checkScanned_eq_none_iff] at h ⊢
  intro line hline
  rw [readText_splitOn] at hline
  obtain ⟨row, hrow, rfl⟩ := List.mem_map.mp hline
  refine check_row (not_mem_readText fun cell hcell => (mem_of_mem_splitOnP hrow cell hcell).1)
    (hjoin row hrow) fun line hline => h line ?_
  refine scanText_splitOn_subset (fun cell hread => ?_) hrow hline
  rw [Cell.scan_eq_of_ne (by rw [hread]; decide) (by rw [hread]; decide), hread]

end Compile

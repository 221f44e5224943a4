import Mt5HttpApi.Lib.Ini

/-!
# INI files that were read

What `RawConfigParser.read` gives of any text can be written and read again. The text may be one
that the parser would not write: with another delimiter, indented lines or comments.

* `normal_read`: what is read of a text is `Normal`.
* `read_text`: what is `Normal` is read again as it was written.
* `read_crlf`: which line ends a text has does not matter.
* `Parsed.Normal.set`: an option can be set in it.
-/

namespace Ini

open Text

/-! ## Writing what was read -/

/-- The section for defaults is written where it has options, and comes first. -/
def Parsed.all (p : Parsed) : Sections :=
  (if p.defaults = [] then [] else [(defaultSection, p.defaults)]) ++ p.sections

/-- `write` of a parser. -/
def Parsed.text (p : Parsed) : List Char := write p.all

/-- Options that can be written and read again. -/
structure Normal (options : Options) : Prop where
  readable : ∀ option ∈ options, Readable option.1 option.2
  legible : ∀ option ∈ options, Legible option.2
  nodup : (options.map Prod.fst).Nodup

/-- Sections and defaults that can. -/
structure Parsed.Normal (p : Parsed) : Prop where
  names : ∀ sect ∈ p.sections, PlainName sect.1
  nodup : (p.sections.map Prod.fst).Nodup
  options : ∀ sect ∈ p.sections, Ini.Normal sect.2
  defaults : Ini.Normal p.defaults

/-! ## The lines that are read -/

/-- A bracket at the start begins a section's name unless the name would be empty. -/
theorem sectionHeader_eq_none_iff {rest : List Char} :
    sectionHeader ('[' :: rest) = none ↔ ']' ∉ rest.tail := by
  by_cases hmem : ']' ∈ rest
  · obtain ⟨after, hrest, hafter⟩ := exists_beforeLast hmem
    rcases hname : beforeLast ']' rest with _ | ⟨c, name⟩
    · rw [hname, List.nil_append] at hrest
      rw [hrest] at hname ⊢
      exact iff_of_true (by simp [sectionHeader, hname]) hafter
    · have htail : ']' ∈ rest.tail := by
        rw [hrest, hname]
        simp
      refine iff_of_false ?_ (not_not_intro htail)
      simp [sectionHeader, hname, hmem]
  · exact iff_of_true (by simp [sectionHeader, hmem]) fun h => hmem (List.mem_of_mem_tail h)

/-- The key is at the start of the line, and the value after the delimiter. -/
theorem exists_of_splitOption {value key optval : List Char}
    (h : splitOption value = some (key, optval)) :
    ∃ pad sep post, value = key ++ (pad ++ sep :: post) ∧ optval = strip post ∧
      (∀ c ∈ key, isDelimiter c = false) ∧ ∀ c ∈ key.getLast?, isSpace c = false := by
  rw [splitOption] at h
  split_ifs at h with hany
  obtain ⟨hkey, hoptval⟩ := Prod.mk.inj (Option.some.inj h)
  obtain ⟨pad, hpad⟩ : key <+: value.takeWhile (!isDelimiter ·) :=
    hkey ▸ List.rdropWhile_prefix isSpace _
  have hne : value.dropWhile (!isDelimiter ·) ≠ [] := by
    rw [ne_eq, List.dropWhile_eq_nil_iff]
    intro hall
    obtain ⟨c, hc, hdelimiter⟩ := List.any_eq_true.mp hany
    simpa [hdelimiter] using hall c hc
  obtain ⟨sep, post, hpost⟩ := List.exists_cons_of_ne_nil hne
  refine ⟨pad, sep, post, ?_, ?_, ?_, ?_⟩
  · rw [← List.append_assoc, hpad, ← hpost, List.takeWhile_append_dropWhile]
  · rw [← hoptval, hpost, List.drop_one, List.tail_cons]
  · intro c hc
    have hnot : (!isDelimiter c) = true := List.mem_takeWhile_imp (p := (!isDelimiter ·))
      (hpad ▸ List.mem_append_left pad hc)
    simpa using hnot
  · intro c hc
    have hend : key.rdropWhile isSpace = key := by
      rw [← hkey]
      exact List.rdropWhile_idempotent isSpace _
    have hkeyne : key ≠ [] := by
      rintro rfl
      cases hc
    have hspace := List.rdropWhile_eq_self_iff.mp hend hkeyne
    rw [List.getLast?_eq_some_getLast hkeyne] at hc
    rw [← Option.some.inj hc]
    simpa using hspace

/-- What a line that is no comment and names no section gives for an option can be read again. -/
theorem readable_of_splitOption {value key optval : List Char}
    (hsplit : splitOption value = some (key, optval)) (hkey : key ≠ [])
    (hstrip : strip value = value) (hcomment : isComment value = false)
    (hheader : sectionHeader value = none) (hbreak : '\n' ∉ value) :
    Readable key optval := by
  obtain ⟨pad, sep, post, rfl, rfl, hdelimiter, hlast⟩ := exists_of_splitOption hsplit
  obtain ⟨c, more, rfl⟩ := List.exists_cons_of_ne_nil hkey
  refine ⟨hkey, ?_, hlast, hdelimiter, fun hmem => hbreak (List.mem_append_left _ hmem), ?_⟩
  · intro d hd
    obtain rfl := Option.some.inj hd
    refine ⟨(strip_eq_self_iff.mp hstrip).1 c rfl, ?_⟩
    rw [isComment, hstrip] at hcomment
    simpa using hcomment
  · rcases eq_or_ne c '[' with rfl | hc
    · rw [List.cons_append, sectionHeader_eq_none_iff] at hheader ⊢
      intro hmem
      -- a closing bracket is no nearer to the opening one than it was
      have hpost : ']' ∉ post := fun h => hheader (by
        rcases more with _ | ⟨d, more⟩
        · rcases pad with _ | ⟨d, pad⟩
          · exact h
          · exact List.mem_append_right pad (List.mem_cons_of_mem sep h)
        · simp [h])
      have hvalue : ']' ∉ (firstLine (strip post)).rdropWhile isSpace := fun h =>
        hpost ((strip_sublist post).subset
          ((List.takeWhile_sublist _).subset ((List.rdropWhile_prefix _ _).subset h)))
      rcases more with _ | ⟨d, more⟩
      · exact hvalue hmem
      · rcases List.mem_append.mp hmem with h | h
        · exact hheader (List.mem_append_left _ h)
        · rcases List.mem_cons.mp h with h | h
          · cases h
          · exact hvalue h
    · exact sectionHeader_of_ne hc _

/-! ## What is gathered -/

/-- An option as it is gathered. Where its line could not be parsed, that is noted. -/
def Gathers (failed : Bool) (option : List Char × List (List Char)) : Prop :=
  ∃ first more, option.2 = first :: more ∧
    (∀ line ∈ first :: more, strip line = line ∧ '\n' ∉ line) ∧
    (∀ line ∈ more, isComment line = false) ∧ (failed = false → Readable option.1 first)

/-- What holds of a reader between lines. -/
structure Reader.Sound (r : Reader) : Prop where
  names : ∀ sect ∈ r.gathered, sect.1 = defaultSection ∨ PlainName sect.1
  nodup : (r.gathered.map Prod.fst).Nodup
  keyed : Keyed r.gathered
  options : ∀ sect ∈ r.gathered, ∀ option ∈ sect.2, Gathers r.failed option
  default : (Dict.get r.gathered defaultSection).isSome
  current : ∀ sect ∈ r.cursect, (Dict.get r.gathered sect).isSome ∧
    ∀ option ∈ r.optname, (Dict.get (r.options sect) option).isSome

section Gathered

variable {r r' : Reader} {sect option line : List Char} {failed : Bool}

theorem Gathers.concat {lines : List (List Char)} (h : Gathers failed (option, lines))
    (hstrip : strip line = line) (hbreak : '\n' ∉ line) (hcomment : isComment line = false) :
    Gathers failed (option, lines ++ [line]) := by
  obtain ⟨first, more, hlines, hall, hmore, hreadable⟩ := h
  refine ⟨first, more ++ [line], ?_, ?_, ?_, hreadable⟩
  · change lines = first :: more at hlines
    rw [hlines, List.cons_append]
  · rw [← List.cons_append]
    intro other hother
    rcases List.mem_append.mp hother with hother | hother
    · exact hall other hother
    · rw [List.mem_singleton.mp hother]
      exact ⟨hstrip, hbreak⟩
  · intro other hother
    rcases List.mem_append.mp hother with hother | hother
    · exact hmore other hother
    · rw [List.mem_singleton.mp hother]
      exact hcomment

theorem sound_start : Reader.start.Sound where
  names := by simp [Reader.start]
  nodup := by simp [Reader.start]
  keyed := by simp [Reader.start, Keyed]
  options := by simp [Reader.start]
  default := rfl
  current := by simp [Reader.start]

/-- The options of a section are among what is gathered. -/
theorem Reader.Sound.gathers (h : r.Sound) (sect : List Char) :
    ∀ option ∈ r.options sect, Gathers r.failed option := by
  intro option hoption
  rw [Reader.options] at hoption
  rcases hsect : Dict.get r.gathered sect with _ | options
  · rw [hsect] at hoption
    cases hoption
  · rw [hsect] at hoption
    exact h.options _ (Dict.mem_of_get hsect) option hoption

/-- A section that is there has a name. -/
theorem Reader.Sound.name (h : r.Sound) (hget : (Dict.get r.gathered sect).isSome) :
    sect = defaultSection ∨ PlainName sect := by
  obtain ⟨options, hoptions⟩ := Option.isSome_iff_exists.mp hget
  exact h.names _ (Dict.mem_of_get hoptions)

/-- A section's options are replaced. -/
theorem Reader.Sound.set (h : r.Sound) {options : List (List Char × List (List Char))}
    (hsect : sect = defaultSection ∨ PlainName sect) (hnodup : (options.map Prod.fst).Nodup)
    (hfailed : failed = false → r.failed = false)
    (hoptions : ∀ option ∈ options, Gathers failed option) {optname : Option (List Char)}
    (hcurrent : ∀ option ∈ optname, (Dict.get options option).isSome) (level : Nat) :
    (Reader.mk (Dict.set r.gathered sect options) (some sect) optname level failed).Sound := by
  refine ⟨?_, Dict.nodup_set h.nodup sect options, h.keyed.set sect hnodup, ?_, ?_, ?_⟩
  · intro item hitem
    rcases Dict.mem_set hitem with rfl | ⟨hold, -⟩
    · exact hsect
    · exact h.names item hold
  · intro item hitem
    rcases Dict.mem_set hitem with rfl | ⟨hold, -⟩
    · exact hoptions
    · intro option hoption
      obtain ⟨first, more, hlines, hall, hmore, hreadable⟩ := h.options item hold option hoption
      exact ⟨first, more, hlines, hall, hmore, fun heq => hreadable (hfailed heq)⟩
  · rw [Dict.get_set]
    split_ifs
    · rfl
    · exact h.default
  · intro name hname
    obtain rfl := Option.some.inj hname
    have hget : Dict.get (Dict.set r.gathered sect options) sect = some options := by
      rw [Dict.get_set, if_pos rfl]
    rw [Reader.options, hget]
    exact ⟨rfl, hcurrent⟩

/-- One more line of the value that is being read. -/
theorem sound_append (h : r.Sound) (hcurrent : r.current = some (sect, option))
    (hstrip : strip line = line) (hbreak : '\n' ∉ line) (hcomment : isComment line = false) :
    (r.append sect option line).Sound := by
  obtain ⟨hsect, hoption⟩ : r.cursect = some sect ∧ r.optname = some option := by
    unfold Reader.current at hcurrent
    split at hcurrent
    next hsect hoption =>
      split_ifs at hcurrent
      obtain ⟨rfl, rfl⟩ := Prod.mk.inj (Option.some.inj hcurrent)
      exact ⟨hsect, hoption⟩
    next => cases hcurrent
  obtain ⟨hget, hoptname⟩ := h.current sect hsect
  obtain ⟨lines, hlines⟩ := Option.isSome_iff_exists.mp (hoptname option hoption)
  have happend : r.append sect option line = ⟨Dict.set r.gathered sect
      (Dict.set (r.options sect) option (lines ++ [line])), some sect, some option, r.indentLevel,
        r.failed⟩ := by
    rw [Reader.append, hlines, hsect, hoption, Option.getD_some]
  rw [happend]
  refine h.set (h.name hget) (Dict.nodup_set (h.keyed.nodup_get sect) _ _) id ?_ ?_ _
  · intro item hitem
    rcases Dict.mem_set hitem with rfl | ⟨hold, -⟩
    · exact (h.gathers sect _ (Dict.mem_of_get hlines)).concat hstrip hbreak hcomment
    · exact h.gathers sect item hold
  · intro name hname
    obtain rfl := Option.some.inj hname
    rw [Dict.get_set, if_pos rfl]
    rfl

theorem plainName_of_sectionHeader {name : List Char} (h : sectionHeader line = some name)
    (hdefault : name ≠ defaultSection) (hbreak : '\n' ∉ line) : PlainName name := by
  unfold sectionHeader at h
  split at h
  next rest =>
    split_ifs at h with hname
    obtain rfl := Option.some.inj h
    obtain ⟨after, hrest, -⟩ := exists_beforeLast hname.1
    refine ⟨hname.2, hdefault, fun hmem => hbreak (List.mem_cons_of_mem _ ?_)⟩
    rw [hrest]
    exact List.mem_append_left _ hmem
  next => cases h

/-- The line of a section's name or of an option. -/
theorem sound_header (h : r.Sound) (hstrip : strip line = line) (hbreak : '\n' ∉ line)
    (hcomment : isComment line = false) (hread : r.header line = .ok r') : r'.Sound := by
  unfold Reader.header at hread
  split at hread
  next name hname =>
    split_ifs at hread with hdefault hnew
    · obtain rfl := Except.ok.inj hread
      refine ⟨h.names, h.nodup, h.keyed, h.options, h.default, fun sect hsect => ?_⟩
      obtain rfl := Option.some.inj hsect
      exact ⟨hdefault ▸ h.default, by simp⟩
    · obtain rfl := Except.ok.inj hread
      have hnodup : (([] : List (List Char × List (List Char))).map Prod.fst).Nodup :=
        List.nodup_nil
      exact h.set (Or.inr (plainName_of_sectionHeader hname hdefault hbreak)) hnodup id
        (by simp) (by simp) _
  next hheader =>
    split at hread
    next => cases hread
    next sect hsect =>
      split at hread
      next =>
        obtain rfl := Except.ok.inj hread
        refine ⟨h.names, h.nodup, h.keyed, fun item hitem option hoption => ?_, h.default,
          h.current⟩
        obtain ⟨first, more, hlines, hall, hmore, -⟩ := h.options item hitem option hoption
        exact ⟨first, more, hlines, hall, hmore, Bool.noConfusion⟩
      next option optval hsplit =>
        split_ifs at hread with hnew
        obtain rfl := Except.ok.inj hread
        rw [hsect]
        obtain ⟨pad, sep, post, hline, rfl, -⟩ := exists_of_splitOption hsplit
        have hvalue : '\n' ∉ strip post := fun hmem => hbreak (by
          rw [hline]
          simp [(strip_sublist post).subset hmem])
        refine h.set (h.name (h.current sect hsect).1)
          (Dict.nodup_set (h.keyed.nodup_get sect) _ _) ?_ ?_ ?_ _
        · intro hfailed
          exact (Bool.or_eq_false_iff.mp hfailed).1
        · intro item hitem
          rcases Dict.mem_set hitem with rfl | ⟨hold, -⟩
          · refine ⟨strip post, [], rfl, ?_, by simp, fun hfailed => ?_⟩
            · intro other hother
              rw [List.mem_singleton.mp hother]
              exact ⟨strip_strip post, hvalue⟩
            · have hkey := (Bool.or_eq_false_iff.mp hfailed).2
              exact readable_of_splitOption hsplit (by simpa using hkey) hstrip hcomment hheader
                hbreak
          · obtain ⟨first, more, hlines, hall, hmore, hreadable⟩ := h.gathers sect item hold
            exact ⟨first, more, hlines, hall, hmore, fun hfailed =>
              hreadable (Bool.or_eq_false_iff.mp hfailed).1⟩
        · intro name hname
          obtain rfl := Option.some.inj hname
          rw [Dict.get_set, if_pos rfl]
          rfl

/-- One line. -/
theorem sound_line (h : r.Sound) (hbreak : '\n' ∉ line) (hread : r.line line = .ok r') :
    r'.Sound := by
  have hheader : ∀ level, (Reader.mk r.gathered r.cursect r.optname level r.failed).Sound :=
    fun _ => ⟨h.names, h.nodup, h.keyed, h.options, h.default, h.current⟩
  have hbreak' : '\n' ∉ strip line := fun hmem => hbreak ((strip_sublist line).subset hmem)
  unfold Reader.line at hread
  split at hread
  next =>
    obtain rfl := Except.ok.inj hread
    exact h
  next hcomment =>
    have hcomment' : isComment (strip line) = false := by
      rw [isComment, strip_strip]
      simpa [isComment] using hcomment
    split at hread
    next =>
      split at hread
      next sect option hcurrent =>
        obtain rfl := Except.ok.inj hread
        exact sound_append h hcurrent rfl (by simp) rfl
      next =>
        obtain rfl := Except.ok.inj hread
        exact h
    next =>
      split at hread
      next sect option hcurrent =>
        split at hread
        next =>
          obtain rfl := Except.ok.inj hread
          exact sound_append h hcurrent (strip_strip line) hbreak' hcomment'
        next => exact sound_header (hheader _) (strip_strip line) hbreak' hcomment' hread
      next => exact sound_header (hheader _) (strip_strip line) hbreak' hcomment' hread

theorem sound_foldlM {lines : List (List Char)} (h : r.Sound) (hbreak : ∀ line ∈ lines, '\n' ∉ line)
    (hread : lines.foldlM Reader.line r = .ok r') : r'.Sound := by
  induction lines generalizing r with
  | nil =>
    obtain rfl := Except.ok.inj hread
    exact h
  | cons line lines ih =>
    rw [List.foldlM_cons] at hread
    rcases hline : r.line line with error | next
    · rw [hline] at hread
      cases hread
    · rw [hline] at hread
      exact ih (sound_line h (hbreak line List.mem_cons_self) hline)
        (fun other hother => hbreak other (List.mem_cons_of_mem line hother)) hread

end Gathered

/-! ## Values that were read -/

theorem getLast?_intercalate_concat {last : List Char} (hne : last ≠ [])
    (lines : List (List Char)) :
    (['\n'].intercalate (lines ++ [last])).getLast? = last.getLast? := by
  obtain ⟨before, hbefore⟩ : ∃ before, ['\n'].intercalate (lines ++ [last]) = before ++ last := by
    induction lines with
    | nil => exact ⟨[], by rw [List.nil_append, List.intercalate_singleton, List.nil_append]⟩
    | cons line lines ih =>
      obtain ⟨before, hbefore⟩ := ih
      refine ⟨line ++ ['\n'] ++ before, ?_⟩
      rw [List.cons_append, List.intercalate_cons_of_ne_nil (by simp), hbefore]
      simp
  rw [hbefore, List.getLast?_append, List.getLast?_eq_some_getLast hne, Option.some_or]

/-- The lines of a value without the empty ones at its end. -/
theorem splitOn_joined {first : List Char} {more : List (List Char)}
    (h : ∀ line ∈ first :: more, strip line = line ∧ '\n' ∉ line) :
    ∃ rest, rest <+: more ∧ (joined (first :: more)).splitOn '\n' = first :: rest ∧
      (joined (first :: more)).getLast? ≠ some '\n' := by
  have hlast : ∀ line ∈ first :: more, ∀ c ∈ line.getLast?, isSpace c = false :=
    fun line hline => (strip_eq_self_iff.mp (h line hline).1).2
  have hsplit := List.splitOn_intercalate '\n' (fun line hline => (h line hline).2)
    (List.cons_ne_nil first more)
  induction more using List.reverseRecOn with
  | nil =>
    obtain ⟨hstrip, hbreak⟩ := h first List.mem_cons_self
    have hjoined : joined [first] = first := by
      rw [joined, List.intercalate_singleton, List.rdropWhile_eq_self_iff]
      intro hne
      rw [hlast first List.mem_cons_self _ (List.getLast?_eq_some_getLast hne)]
      exact Bool.false_ne_true
    rw [hjoined]
    exact ⟨[], List.prefix_rfl, List.splitOn_eq_singleton hbreak,
      fun heq => hbreak (List.mem_of_getLast? heq)⟩
  | append_singleton more last ih =>
    have hsub : first :: more ⊆ first :: (more ++ [last]) :=
      List.cons_subset_cons first (List.subset_append_left more [last])
    rcases eq_or_ne last [] with rfl | hne
    · obtain ⟨rest, hrest, hpieces, hend⟩ := ih (fun line hline => h line (hsub hline))
        (fun line hline => hlast line (hsub hline))
        (List.splitOn_intercalate '\n' (fun line hline => (h line (hsub hline)).2)
          (List.cons_ne_nil first more))
      rw [← List.cons_append, joined_concat_nil]
      exact ⟨rest, hrest.trans (List.prefix_append _ _), hpieces, hend⟩
    · -- the last character is one of the last line
      have hend := getLast?_intercalate_concat hne (first :: more)
      have hspace : ∀ c ∈ last.getLast?, isSpace c = false := hlast last (by simp)
      have hjoined : joined (first :: (more ++ [last])) =
          ['\n'].intercalate (first :: (more ++ [last])) := by
        rw [joined, List.rdropWhile_eq_self_iff]
        intro hnil
        rw [hspace _ (hend ▸ List.getLast?_eq_some_getLast hnil)]
        exact Bool.false_ne_true
      rw [hjoined]
      refine ⟨_, List.prefix_rfl, hsplit, fun heq => ?_⟩
      have hbreak := hspace '\n' (hend ▸ heq)
      exact absurd hbreak (by decide)

/-- What is gathered for an option can be written and read again. -/
theorem Gathers.normal {option : List Char × List (List Char)} (h : Gathers false option) :
    Readable option.1 (joined option.2) ∧ Legible (joined option.2) := by
  obtain ⟨first, more, hlines, hall, hmore, hreadable⟩ := h
  obtain ⟨rest, hrest, hsplit, hend⟩ := splitOn_joined hall
  have hsub : first :: rest ⊆ first :: more := List.cons_subset_cons first hrest.subset
  have hread := hreadable rfl
  have hfirst : firstLine first = first :=
    firstLine_of_splitOn (List.splitOn_eq_singleton (hall first List.mem_cons_self).2)
  rw [hlines]
  refine ⟨⟨hread.ne_nil, hread.head, hread.last, hread.noDelimiter, hread.noBreak, ?_⟩, ?_, ?_,
    hend⟩
  · rw [firstLine_of_splitOn hsplit]
    exact hfirst ▸ hread.noHeader
  · rw [hsplit]
    exact fun line hline => (hall line (hsub hline)).1
  · rw [hsplit]
    exact fun line hline => hmore line (hrest.subset hline)

theorem Gathers.normal_all {options : List (List Char × List (List Char))}
    (h : ∀ option ∈ options, Gathers false option) (hnodup : (options.map Prod.fst).Nodup) :
    Normal (joinedOptions options) := by
  have hkeys : (joinedOptions options).map Prod.fst = options.map Prod.fst := by
    rw [joinedOptions, List.map_map]
    rfl
  refine ⟨?_, ?_, hkeys ▸ hnodup⟩
  · intro option hoption
    obtain ⟨got, hgot, rfl⟩ := List.mem_map.mp hoption
    exact (h got hgot).normal.1
  · intro option hoption
    obtain ⟨got, hgot, rfl⟩ := List.mem_map.mp hoption
    exact (h got hgot).normal.2

theorem not_mem_of_mem_linesOf {text line : List Char} (h : line ∈ linesOf text) : '\n' ∉ line := by
  intro hmem
  have hpiece : line ∈ text.splitOn '\n' := by
    unfold linesOf at h
    dsimp only at h
    split_ifs at h
    · exact List.dropLast_subset _ h
    · exact h
  rw [List.splitOn_eq_splitOnP] at hpiece
  simpa using (mem_of_mem_splitOnP hpiece '\n' hmem).1

/-- A parser as it is after the lines. -/
def Reader.parsed (r : Reader) : Parsed :=
  let sections := r.gathered.map fun sect => (sect.1, joinedOptions sect.2)
  ⟨(Dict.get sections defaultSection).getD [], Dict.pop sections defaultSection⟩

theorem read_eq_ok_iff {text : List Char} {p : Parsed} : read text = .ok p ↔
    ∃ r, (linesOf text).foldlM Reader.line Reader.start = .ok r ∧ r.failed = false ∧
      r.parsed = p := by
  rw [read]
  rcases (linesOf text).foldlM Reader.line Reader.start with error | r
  · exact iff_of_false (fun h => by cases h) (by simp)
  · change (if r.failed then _ else _) = _ ↔ _
    split_ifs with hfailed
    · exact iff_of_false (fun h => by cases h) (by simp [hfailed])
    · simp [hfailed, Reader.parsed]

theorem Reader.Sound.normal {r : Reader} (h : r.Sound) (hfailed : r.failed = false) :
    r.parsed.Normal := by
  have hall : ∀ sect ∈ r.gathered, Ini.Normal (joinedOptions sect.2) := fun sect hsect =>
    Gathers.normal_all (hfailed ▸ h.options sect hsect) (h.keyed sect hsect)
  have hnames : (r.gathered.map fun sect => (sect.1, joinedOptions sect.2)).map Prod.fst =
      r.gathered.map Prod.fst := by
    rw [List.map_map]
    rfl
  refine ⟨?_, ?_, ?_, ?_⟩
  · intro sect hsect
    obtain ⟨hmem, hne⟩ := List.mem_filter.mp hsect
    obtain ⟨got, hgot, rfl⟩ := List.mem_map.mp hmem
    exact (h.names got hgot).resolve_left (by simpa using hne)
  · exact (hnames ▸ h.nodup).sublist (List.filter_sublist.map Prod.fst)
  · intro sect hsect
    obtain ⟨got, hgot, rfl⟩ := List.mem_map.mp (List.mem_of_mem_filter hsect)
    exact hall got hgot
  · obtain ⟨options, hoptions⟩ := Option.isSome_iff_exists.mp h.default
    have hget : Dict.get (r.gathered.map fun got => (got.1, joinedOptions got.2)) defaultSection =
        (Dict.get r.gathered defaultSection).map joinedOptions := Dict.get_map_values joinedOptions
    rw [hoptions, Option.map_some] at hget
    change Ini.Normal ((Dict.get _ _).getD [])
    rw [hget]
    exact hall _ (Dict.mem_of_get hoptions)

/-- What is read of any text can be written and read again. -/
theorem normal_read {text : List Char} {p : Parsed} (h : read text = .ok p) : p.Normal := by
  obtain ⟨r, hlines, hfailed, rfl⟩ := read_eq_ok_iff.mp h
  exact (sound_foldlM sound_start (fun _ => not_mem_of_mem_linesOf) hlines).normal hfailed

/-! ## Written and read again -/

/-- Legible values are read as they were written. -/
theorem Normal.readBack {options : Options} (h : Normal options) :
    (options.map fun option => (option.1, readBack option.2)) = options := by
  conv_rhs => rw [← List.map_id options]
  refine List.map_congr_left fun option hoption => ?_
  rw [readBack_eq_iff.mpr (h.legible option hoption)]
  rfl

theorem Parsed.Normal.written {p : Parsed} (h : p.Normal) : Written p.sections :=
  ⟨h.names, h.nodup, fun sect hsect => (h.options sect hsect).readable,
    fun sect hsect => (h.options sect hsect).nodup⟩

theorem line_default : Reader.start.line ('[' :: defaultSection ++ [']']) =
    .ok ⟨[(defaultSection, [])], some defaultSection, none, 0, false⟩ := by
  decide

theorem Parsed.Normal.not_mem {p : Parsed} (h : p.Normal) :
    ∀ line ∈ p.all.flatMap sectionLines, '\n' ∉ line := by
  intro line hline
  rw [Parsed.all, List.flatMap_append] at hline
  rcases List.mem_append.mp hline with hline | hline
  · split_ifs at hline
    · cases hline
    · rw [List.flatMap_singleton] at hline
      exact not_mem_sectionLines (show '\n' ∉ defaultSection by decide)
        (fun option hoption => (h.defaults.readable option hoption).noBreak) line hline
  · exact h.written.not_mem line hline

/-- The lines of the section for defaults. -/
theorem run_defaults {defaults : Options} (h : Normal defaults) :
    ∃ options cursect optname,
      ((if defaults = [] then [] else [(defaultSection, defaults)]).flatMap sectionLines).foldlM
          Reader.line Reader.start =
        .ok ⟨[(defaultSection, options)], cursect, optname, 0, false⟩ ∧
      joinedOptions options = defaults := by
  split_ifs with hnil
  · exact ⟨[], none, none, rfl, hnil.symm⟩
  · have hnew : Dict.get ([] : Gathered) defaultSection = none := rfl
    obtain ⟨options, cursect, optname, hrun, hjoined⟩ := run_body h.readable h.nodup hnew false
    refine ⟨options, cursect, optname, ?_, hjoined.trans h.readBack⟩
    rw [List.flatMap_singleton, sectionLines, List.cons_append, foldlM_cons_of_ok line_default]
    exact hrun

/-- What can be written and read again. -/
theorem read_text {p : Parsed} (h : p.Normal) : read p.text = .ok p := by
  obtain ⟨options, cursect₁, optname₁, hdefaults, hjoined⟩ := run_defaults h.defaults
  have hnew : ∀ sect ∈ p.sections, Dict.get [(defaultSection, options)] sect.1 = none := by
    intro sect hsect
    rw [Dict.get_cons, if_neg (Ne.symm (h.names sect hsect).ne_default)]
    rfl
  obtain ⟨got, cursect₂, optname₂, hrun, hgot⟩ :=
    run_sections h.written hnew cursect₁ optname₁ false
  have hsections : (p.sections.map fun sect =>
      (sect.1, sect.2.map fun option => (option.1, Ini.readBack option.2))) = p.sections := by
    conv_rhs => rw [← List.map_id p.sections]
    refine List.map_congr_left fun sect hsect => ?_
    rw [(h.options sect hsect).readBack]
    rfl
  have hmap : (([(defaultSection, options)] ++ got).map fun sect =>
      (sect.1, joinedOptions sect.2)) = (defaultSection, p.defaults) :: p.sections := by
    rw [List.singleton_append, List.map_cons, hgot, hsections, hjoined]
  refine read_eq_ok_iff.mpr
    ⟨⟨[(defaultSection, options)] ++ got, cursect₂, optname₂, 0, false⟩, ?_, rfl, ?_⟩
  · rw [Parsed.text, write_eq, linesOf_unlines h.not_mem, Parsed.all, List.flatMap_append,
      foldlM_append_of_ok hdefaults, hrun]
  · have hpop : Dict.pop ((defaultSection, p.defaults) :: p.sections) defaultSection =
        p.sections := by
      rw [Dict.pop, List.filter_cons_of_neg (by simp), List.filter_eq_self]
      exact fun sect hsect => by simpa using (h.names sect hsect).ne_default
    rw [Reader.parsed, hmap, hpop, Dict.get_cons, if_pos rfl]
    rfl

/-! ## Line ends -/

/-- `text.replace('\n', '\r\n')`. -/
def crlf (text : List Char) : List Char :=
  text.flatMap fun c => if c = '\n' then ['\r', '\n'] else [c]

theorem strip_concat {c : Char} (hc : isSpace c = true) (line : List Char) :
    strip (line ++ [c]) = strip line := by
  have hpad : strip ([] ++ line ++ [c]) = strip line := strip_pad (by simp) (by simpa using hc)
  rwa [List.nil_append] at hpad

theorem indent_concat {line : List Char} (hne : strip line ≠ []) (c : Char) :
    indent (line ++ [c]) = indent line := by
  rw [indent, indent, List.takeWhile_append]
  split
  next hall =>
    -- a line of white space only is blank
    have hspace : ∀ d ∈ line, isSpace d = true := by
      rw [← List.takeWhile_eq_self_iff]
      exact (List.takeWhile_prefix _).eq_of_length hall
    refine absurd ?_ hne
    rw [strip, List.dropWhile_eq_nil_iff.mpr hspace]
    rfl
  next => rfl

/-- White space at the end of a line does not matter. -/
theorem line_concat {c : Char} (hc : isSpace c = true) (r : Reader) (line : List Char) :
    r.line (line ++ [c]) = r.line line := by
  have hstrip := strip_concat hc line
  have hcomment : isComment (line ++ [c]) = isComment line := by
    rw [isComment, isComment, hstrip]
  rw [Reader.line, Reader.line, hcomment, hstrip]
  rcases eq_or_ne (strip line) [] with hblank | hblank
  · rw [hblank, if_pos rfl, if_pos rfl]
  · rw [indent_concat hblank]

theorem linesOf_cons {piece : List Char} (h : '\n' ∉ piece) (rest : List Char) :
    linesOf (piece ++ '\n' :: rest) = piece :: linesOf rest := by
  obtain ⟨first, more, hrest⟩ := exists_splitOn rest
  unfold linesOf
  rw [List.splitOn_append_cons_self_of_not_mem h, hrest]
  dsimp only
  rw [List.getLast?_cons_cons, List.dropLast_cons_cons]
  split_ifs <;> rfl

theorem crlf_of_not_mem {piece : List Char} (h : '\n' ∉ piece) : crlf piece = piece := by
  induction piece with
  | nil => rfl
  | cons c piece ih =>
    rw [List.mem_cons, not_or] at h
    rw [crlf, List.flatMap_cons, if_neg (Ne.symm h.1), ← crlf, ih h.2]
    rfl

/-- What is read does not depend on which of the line ends a text has. -/
theorem read_crlf (text : List Char) : read (crlf text) = read text := by
  have hlines : ∀ r : Reader, (linesOf (crlf text)).foldlM Reader.line r =
      (linesOf text).foldlM Reader.line r := by
    induction text using sepInduction (p := (· == '\n')) with
    | last piece hpiece =>
      intro r
      rw [crlf_of_not_mem fun h => by simpa using hpiece '\n' h]
    | before piece sep rest hpiece hsep ih =>
      have hnot : '\n' ∉ piece := fun h => by simpa using hpiece '\n' h
      obtain rfl : sep = '\n' := by simpa using hsep
      intro r
      have hcrlf : crlf (piece ++ '\n' :: rest) = (piece ++ ['\r']) ++ '\n' :: crlf rest := by
        rw [crlf, List.flatMap_append, ← crlf, crlf_of_not_mem hnot, List.flatMap_cons, if_pos rfl,
          ← crlf]
        simp
      rw [hcrlf, linesOf_cons (by simpa using hnot), linesOf_cons hnot, List.foldlM_cons,
        List.foldlM_cons, line_concat (by decide)]
      exact bind_congr fun next => ih next
  rw [read, read, hlines]

/-! ## Options that are set -/

/-- `has_section`. -/
def Parsed.hasSection (p : Parsed) (name : List Char) : Bool := (Dict.get p.sections name).isSome

/-- `add_section` of a name that no section has. -/
def Parsed.addSection (p : Parsed) (name : List Char) : Parsed :=
  { p with sections := Dict.set p.sections name [] }

/-- `set` in a section that is there. -/
def Parsed.set (p : Parsed) (name key value : List Char) : Parsed :=
  { p with sections :=
      Dict.set p.sections name (Dict.set ((Dict.get p.sections name).getD []) key value) }

section Set

variable {p : Parsed} {name key value : List Char}

theorem Normal.set {options : Options} (h : Normal options) (hreadable : Readable key value)
    (hlegible : Legible value) : Normal (Dict.set options key value) := by
  refine ⟨?_, ?_, Dict.nodup_set h.nodup key value⟩
  · intro option hoption
    rcases Dict.mem_set hoption with rfl | ⟨hold, -⟩
    · exact hreadable
    · exact h.readable option hold
  · intro option hoption
    rcases Dict.mem_set hoption with rfl | ⟨hold, -⟩
    · exact hlegible
    · exact h.legible option hold

theorem normal_nil : Normal [] := ⟨by simp, by simp, List.nodup_nil⟩

/-- A section is put in. -/
theorem Parsed.Normal.setSection (h : p.Normal) (hname : PlainName name) {options : Options}
    (hoptions : Ini.Normal options) :
    Parsed.Normal { p with sections := Dict.set p.sections name options } := by
  refine ⟨?_, Dict.nodup_set h.nodup name options, ?_, h.defaults⟩
  · intro sect hsect
    rcases Dict.mem_set hsect with rfl | ⟨hold, -⟩
    · exact hname
    · exact h.names sect hold
  · intro sect hsect
    rcases Dict.mem_set hsect with rfl | ⟨hold, -⟩
    · exact hoptions
    · exact h.options sect hold

theorem Parsed.Normal.addSection (h : p.Normal) (hname : PlainName name) :
    (p.addSection name).Normal := h.setSection hname normal_nil

theorem Parsed.Normal.set (h : p.Normal) (hname : PlainName name) (hreadable : Readable key value)
    (hlegible : Legible value) : (p.set name key value).Normal := by
  refine h.setSection hname (Ini.Normal.set ?_ hreadable hlegible)
  rcases hget : Dict.get p.sections name with _ | options
  · exact normal_nil
  · exact h.options _ (Dict.mem_of_get hget)

end Set

end Ini

import Mt5HttpApi.Backtest.SetBuilder
import Mt5HttpApi.ChartCtl.SetBars

/-!
# What is read of the set files that are built

`parse_set_text` of what `build_set` returns. The format has no escaping: a value may have `||` or a
line break in it, a name may have `=`, and a line break in a comment begins a line that is read.

* `parseSetText_render`: a file is read as its comments and parameters, one after the other.
* `parseSetText_line_iff`: when the one input that is read of a parameter is the parameter.
* `roundTrips_plain`: when a file is read as its parameters.
-/

namespace Backtest.SetBuilder

open Text ChartCtl

variable {py : IniBuilder.Py} {params : Json.Value} {p : Parameter} {parameters : List Parameter}
  {comment : List Char} {comments : List (List Char)}

/-- The input that is to be read of a parameter. -/
def Parameter.input (p : Parameter) : SetInput where
  name := p.name
  value := strip p.value
  range := p.range.map fun range => ⟨range.start, range.step, range.stop, range.optimize⟩

/-- What is read of the set file are its parameters, in their order. -/
def RoundTrips (py : IniBuilder.Py) (params : Json.Value) : Prop :=
  ∀ comments parameters, accepted py params = .ok (comments, parameters) →
    ∃ text, buildSet py params = .ok text ∧ parseSetText text = parameters.map Parameter.input

/-! ## The lines of a file -/

/-- A file is read as its comments and parameters, one after the other. -/
theorem parseSetText_render (comments : List (List Char)) (parameters : List Parameter) :
    parseSetText (render comments parameters) =
      comments.flatMap (fun comment => parseSetText (commentLine comment)) ++
        parameters.flatMap (fun p => parseSetText p.line) := by
  have hlines : ∀ lines : List (List Char),
      parseSetText (['\n'].intercalate lines ++ ['\n']) = lines.flatMap parseSetText := by
    intro lines
    induction lines with
    | nil => rfl
    | cons line lines ih =>
      cases lines with
      | nil =>
        rw [List.intercalate_singleton, parseSetText_newline, List.flatMap_singleton]
      | cons next lines =>
        rw [List.intercalate_cons_cons, List.append_assoc, List.append_assoc,
          List.singleton_append, parseSetText_append, parseSetText_newline, ih,
          List.flatMap_cons (x := line)]
  rw [render, hlines, List.flatMap_append, List.flatMap_map, List.flatMap_map]

theorem roundTrips_iff : RoundTrips py params ↔
    ∀ comments parameters, accepted py params = .ok (comments, parameters) →
      comments.flatMap (fun comment => parseSetText (commentLine comment)) ++
        parameters.flatMap (fun p => parseSetText p.line) = parameters.map Parameter.input := by
  refine forall₃_congr fun comments parameters haccepted => ?_
  have hbuild : buildSet py params = .ok (render comments parameters) := by
    rw [buildSet, haccepted]
    rfl
  rw [hbuild, ← parseSetText_render]
  constructor
  · rintro ⟨text, htext, hread⟩
    rw [← hread, Except.ok.inj htext]
  · exact fun hread => ⟨_, rfl, hread⟩

/-- No further line of a comment is read as an input. -/
def PlainComment (comment : List Char) : Prop :=
  ∀ line ∈ (splitlines comment).tail, parseSetLine line = none

instance : DecidablePred PlainComment := fun comment =>
  inferInstanceAs (Decidable (∀ line ∈ (splitlines comment).tail, parseSetLine line = none))

theorem splitlines_begins {c : Char} (h : endsLine c = false) (rest : List Char) :
    splitlines (c :: rest) = (c :: (splitlines rest).headI) :: (splitlines rest).tail := by
  rw [splitlines_cons h]
  cases splitlines rest <;> rfl

theorem parseSetLine_comment (rest : List Char) : parseSetLine (';' :: rest) = none := by
  have hstrip : ∃ more, strip (';' :: rest) = ';' :: more := by
    rw [strip, List.dropWhile_cons_of_neg (by decide)]
    rcases List.rdropWhile_prefix isSpace (l := ';' :: rest) with ⟨tail, htail⟩
    rcases hkept : (';' :: rest).rdropWhile isSpace with _ | ⟨c, more⟩
    · exact absurd (List.rdropWhile_eq_nil_iff.mp hkept ';' List.mem_cons_self) (by decide)
    · rw [hkept] at htail
      obtain ⟨rfl, -⟩ := List.cons.inj htail
      exact ⟨more, hkept⟩
  obtain ⟨more, hmore⟩ := hstrip
  rw [parseSetLine, hmore, List.dropWhile_cons_of_neg (by decide)]
  rw [if_pos (.inr (.inl rfl))]

/-- A comment is read as nothing when its further lines are. -/
theorem parseSetText_commentLine_iff :
    parseSetText (commentLine comment) = [] ↔ PlainComment comment := by
  -- both forms of the line begin with a `;` and have the further lines of the comment
  have hline : ∃ rest, commentLine comment = ';' :: rest ∧
      (splitlines rest).tail = (splitlines comment).tail := by
    unfold commentLine
    split
    next hhead =>
      obtain ⟨rest, rfl⟩ := List.head?_eq_some_iff.mp hhead
      exact ⟨rest, rfl, by rw [splitlines_begins (by decide), List.tail_cons]⟩
    next =>
      exact ⟨' ' :: comment, rfl, by rw [splitlines_begins (by decide), List.tail_cons]⟩
  obtain ⟨rest, hrest, htail⟩ := hline
  rw [hrest, parseSetText, splitlines_begins (by decide),
    List.filterMap_cons_none (parseSetLine_comment _), htail, List.filterMap_eq_nil_iff]
  rfl

/-! ## The line of a parameter -/

/-- A name that no line begins with. -/
def BeginsComment (name : List Char) : Prop :=
  ∃ c ∈ name.head?, c = ';' ∨ c = '#' ∨ c = '\uFEFF'

instance : DecidablePred BeginsComment := fun name =>
  match name with
  | [] => .isFalse (by simp [BeginsComment])
  | c :: rest => decidable_of_iff (c = ';' ∨ c = '#' ∨ c = '\uFEFF') (by simp [BeginsComment])

/-- A name that is found on its line. -/
structure PlainName (name : List Char) : Prop where
  begins : ¬ BeginsComment name
  oneLine : OneLine name
  noEquals : '=' ∉ name

/-- A value on its own: only white space is after its first line. -/
structure PlainValue (value : List Char) : Prop where
  noBars : NoBars value
  after : ∀ c ∈ value.dropWhile (fun c => !endsLine c), isSpace c = true

/-- One of the texts of a range. -/
structure PlainPart (part : List Char) : Prop where
  clean : Unbarred part
  oneLine : OneLine part

/-- A parameter that is read of its line. -/
structure PlainParameter (p : Parameter) : Prop where
  name : PlainName p.name
  value : p.range = none → PlainValue p.value
  range : ∀ range ∈ p.range, PlainPart p.value ∧
    ∀ part ∈ [range.start, range.step, range.stop], PlainPart part ∧ strip part = part

/-- What is read of a name and what is after it: the first line, and the lines after that. -/
theorem parseSetText_entry {name : List Char} (hname : LineName name) (hline : OneLine name)
    (rhs : List Char) : parseSetText (name ++ '=' :: rhs) =
      parseRhs name (rhs.takeWhile fun c => !endsLine c) ::
        parseSetText (afterEnd (rhs.dropWhile fun c => !endsLine c)) := by
  set first := rhs.takeWhile fun c => !endsLine c with hfirst
  have hsplit : first ++ rhs.dropWhile (fun c => !endsLine c) = rhs :=
    List.takeWhile_append_dropWhile
  have hone : OneLine (name ++ '=' :: first) := by
    intro c hc
    rcases List.mem_append.mp hc with hc | hc
    · exact hline c hc
    · rcases List.mem_cons.mp hc with rfl | hc
      · decide
      · simpa using List.mem_takeWhile_imp hc
  have heq : name ++ '=' :: rhs = name ++ '=' :: first ++ rhs.dropWhile (fun c => !endsLine c) := by
    rw [List.append_assoc, List.cons_append, hsplit]
  rw [heq]
  rcases hrest : rhs.dropWhile (fun c => !endsLine c) with _ | ⟨c, rest⟩
  · rw [List.append_nil, parseSetText_line hone, parseSetLine_entry hname]
    rfl
  · have hc : endsLine c = true := by
      have hhead := List.head_dropWhile_not (fun c => !endsLine c) (l := rhs) (by simp [hrest])
      simpa [hrest] using hhead
    rw [parseSetText_before hone hc, parseSetLine_entry hname]
    rfl

theorem lineName_of_plainName {name : List Char} (hne : name ≠ []) (hstrip : strip name = name)
    (h : PlainName name) : LineName name where
  ne_nil := hne
  stripped := hstrip
  begins c hc := by
    have hbegins : ¬ (c = ';' ∨ c = '#' ∨ c = '\uFEFF') := fun hc' => h.begins ⟨c, hc, hc'⟩
    simpa only [not_or] using hbegins
  plain := h.noEquals

/-- A value and its range, as they are on the line. -/
theorem rhs_of_range {range : Range} (h : p.range = some range) :
    p.rhs = p.value ++ (bars ++ (range.start ++ (bars ++ (range.step ++ (bars ++ (range.stop ++
      (bars ++ [if range.optimize then 'Y' else 'N']))))))) := by
  rw [Parameter.rhs, h]
  simp only [Range.text, bars, List.append_assoc, String.toList]
  rfl

theorem parseSetText_plain (hne : p.name ≠ []) (hstrip : strip p.name = p.name)
    (h : PlainParameter p) : parseSetText p.line = [p.input] := by
  have hname := lineName_of_plainName hne hstrip h.name
  rw [Parameter.line, parseSetText_entry hname h.name.oneLine, parseRhs_eq]
  rcases hrange : p.range with _ | range
  · obtain ⟨hbars, hafter⟩ := h.value hrange
    have hrhs : p.rhs = p.value := by rw [Parameter.rhs, hrange, List.append_nil]
    rw [hrhs]
    set first := p.value.takeWhile fun c => !endsLine c with hfirst
    set more := p.value.dropWhile fun c => !endsLine c with hmore
    have hsplit : first ++ more = p.value := List.takeWhile_append_dropWhile
    have hfirstBars : NoBars first := hbars.of_infix (List.takeWhile_prefix _).isInfix
    have hvalue : strip first = strip p.value := by
      have hpad : strip ([] ++ first ++ more) = strip first := strip_pad (by simp) hafter
      rw [← hpad, List.nil_append, hsplit]
    have hnone : parseSetText (afterEnd more) = [] :=
      parseSetText_of_isSpace fun c hc => hafter c ((afterEnd_suffix more).mem hc)
    rw [splitBars_of_noBars hfirstBars, hnone, List.map_singleton, hvalue, Parameter.input, hrange]
    rfl
  · obtain ⟨hvalue, hparts⟩ := h.range range hrange
    simp only [List.forall_mem_cons, List.not_mem_nil, false_implies, implies_true, and_true]
      at hparts
    obtain ⟨⟨hstart, hstart'⟩, ⟨hstep, hstep'⟩, ⟨hstop, hstop'⟩⟩ := hparts
    have hone : OneLine p.rhs := by
      have hbars : OneLine bars := by decide
      have hlast : OneLine [if range.optimize then 'Y' else 'N'] := by
        cases range.optimize <;> decide
      rw [rhs_of_range hrange]
      simp only [OneLine, List.forall_mem_append]
      exact ⟨hvalue.oneLine, hbars, hstart.oneLine, hbars, hstep.oneLine, hbars, hstop.oneLine,
        hbars, hlast⟩
    have hall : ∀ c ∈ p.rhs, (!endsLine c) = true := fun c hc => by rw [hone c hc]; rfl
    rw [List.takeWhile_eq_self_iff.mpr hall, List.dropWhile_eq_nil_iff.mpr hall,
      rhs_of_range hrange, splitBars_append hvalue.clean, splitBars_append hstart.clean,
      splitBars_append hstep.clean, splitBars_append hstop.clean,
      splitBars_of_noBars (by cases range.optimize <;> decide)]
    simp only [List.map_cons, List.map_nil, hstart', hstep', hstop']
    rw [Parameter.input, hrange]
    cases range with
    | mk start step stop optimize => cases optimize <;> rfl

/-- A first part that is a value up to white space is all that is read of the value. -/
theorem plainValue_of_strip {value : List Char}
    (h : ((splitBars (value.takeWhile fun c => !endsLine c)).map strip).headI = strip value) :
    PlainValue value := by
  set first := value.takeWhile fun c => !endsLine c with hfirst
  set more := value.dropWhile fun c => !endsLine c with hmore
  have hsplit : first ++ more = value := List.takeWhile_append_dropWhile
  rcases splitBars_cases first with ⟨hbars, hone⟩ | ⟨part, rest, hpart, -, hparts⟩
  · have hafter : ∀ c ∈ more, isSpace c = true := by
      -- what is not white space is counted on both sides
      have hcount := congrArg (List.countP fun c => !isSpace c) h
      rw [hone, List.map_singleton, List.headI_cons, countP_strip (by simp), countP_strip (by simp),
        ← hsplit, List.countP_append] at hcount
      have hzero : more.countP (fun c => !isSpace c) = 0 := by omega
      intro c hc
      simpa using List.countP_eq_zero.mp hzero c hc
    refine ⟨?_, hafter⟩
    rintro ⟨before, after, hinfix⟩
    have hbar : '|' ∉ more := fun hmem => Bool.false_ne_true (hafter '|' hmem)
    obtain ⟨kept, hkept, -⟩ := exists_of_append_bars (x := before) (a := after) hbar
      (by rw [hsplit, ← hinfix, List.append_assoc])
    exact hbars ⟨before, kept, by rw [hkept, List.append_assoc]⟩
  · -- the bars after the part are in the value, but not in the part
    have hspace : ∀ c, isSpace c = true → (c == '|') = false := fun c hc => by
      by_contra hbar
      rw [Bool.not_eq_false, beq_iff_eq] at hbar
      exact absurd (hbar ▸ hc) (by decide)
    have hcount := congrArg (List.countP (· == '|')) h
    rw [hparts, List.map_cons, List.headI_cons, countP_strip hspace, countP_strip hspace, ← hsplit,
      hpart, List.countP_append, List.countP_append, List.countP_append] at hcount
    have htwo : bars.countP (· == '|') = 2 := by decide
    omega

/-- Parts that are read of the line of a parameter with a range. -/
theorem plainRange_of_parts {range : Range} (hrange : p.range = some range)
    (h : inputOf p.name ((splitBars (p.rhs.takeWhile fun c => !endsLine c)).map strip) = p.input) :
    PlainPart p.value ∧
      ∀ part ∈ [range.start, range.step, range.stop], PlainPart part ∧ strip part = part := by
  set first := p.rhs.takeWhile fun c => !endsLine c with hfirst
  have hsplit : first ++ p.rhs.dropWhile (fun c => !endsLine c) = p.rhs :=
    List.takeWhile_append_dropWhile
  have hone : OneLine first := fun c hc => by simpa using List.mem_takeWhile_imp hc
  unfold inputOf Parameter.input at h
  rw [hrange, Option.map_some, SetInput.mk.injEq] at h
  obtain ⟨-, hvalue, hparts⟩ := h
  rcases hbars : splitBars first with _ | ⟨v, _ | ⟨a, _ | ⟨b, _ | ⟨c, _ | ⟨d, more⟩⟩⟩⟩⟩
  all_goals rw [hbars] at hvalue hparts
  iterate 5 cases hparts
  obtain ⟨ha, hb, hc, -⟩ := InputRange.mk.inj (Option.some.inj hparts)
  have hv : strip v = strip p.value := by
    exact hvalue
  -- each part ends at the bars after the text it was
  obtain ⟨rest₁, hrest₁, hclean₁, hbars₁⟩ := exists_of_splitBars hbars
  obtain ⟨rest₂, hrest₂, hclean₂, hbars₂⟩ := exists_of_splitBars hbars₁
  obtain ⟨rest₃, hrest₃, hclean₃, hbars₃⟩ := exists_of_splitBars hbars₂
  obtain ⟨rest₄, hrest₄, hclean₄, -⟩ := exists_of_splitBars hbars₃
  rw [rhs_of_range hrange, hrest₁, hrest₂, hrest₃, hrest₄] at hsplit
  simp only [List.append_assoc] at hsplit
  have hself : ∀ {part text : List Char}, strip part = text → strip part = strip text ∧
      strip text = text := by
    rintro part text rfl
    exact ⟨(strip_strip part).symm, strip_strip part⟩
  obtain ⟨ha, hstart⟩ := hself ha
  obtain ⟨hb, hstep⟩ := hself hb
  obtain ⟨hc, hstop⟩ := hself hc
  obtain ⟨hvalue, hsplit⟩ := eq_of_append_bars hsplit hclean₁ hv
  obtain ⟨ha, hsplit⟩ := eq_of_append_bars hsplit hclean₂ ha
  obtain ⟨hb, hsplit⟩ := eq_of_append_bars hsplit hclean₃ hb
  obtain ⟨hc, -⟩ := eq_of_append_bars hsplit hclean₄ hc
  rw [hvalue] at hrest₁ hclean₁
  rw [ha] at hrest₂ hclean₂
  rw [hb] at hrest₃ hclean₃
  rw [hc] at hrest₄ hclean₄
  rw [hrest₁, hrest₂, hrest₃, hrest₄] at hone
  simp only [OneLine, List.forall_mem_append] at hone
  obtain ⟨hone₁, -, hone₂, -, hone₃, -, hone₄, -⟩ := hone
  refine ⟨⟨hclean₁, hone₁⟩, ?_⟩
  simp only [List.forall_mem_cons, List.not_mem_nil, false_implies, implies_true, and_true]
  exact ⟨⟨⟨hclean₂, hone₂⟩, hstart⟩, ⟨⟨hclean₃, hone₃⟩, hstep⟩, ⟨⟨hclean₄, hone₄⟩, hstop⟩⟩

/-- The one input that is read of a parameter is the parameter exactly when it is plain. -/
theorem parseSetText_line_iff (hne : p.name ≠ []) (hstrip : strip p.name = p.name)
    (hname : PlainName p.name) : parseSetText p.line = [p.input] ↔ PlainParameter p := by
  constructor
  · intro h
    rw [Parameter.line, parseSetText_entry (lineName_of_plainName hne hstrip hname) hname.oneLine,
      parseRhs_eq] at h
    obtain ⟨hinput, -⟩ := List.cons.inj h
    refine ⟨hname, fun hrange => ?_, fun range hrange => plainRange_of_parts hrange hinput⟩
    have hrhs : p.rhs = p.value := by rw [Parameter.rhs, hrange, List.append_nil]
    rw [hrhs] at hinput
    exact plainValue_of_strip (congrArg SetInput.value hinput)
  · exact parseSetText_plain hne hstrip

/-- Something is read of a parameter whose name is found on its line. -/
theorem parseSetText_line_ne_nil (hne : p.name ≠ []) (hstrip : strip p.name = p.name)
    (hname : PlainName p.name) : parseSetText p.line ≠ [] := by
  rw [Parameter.line, parseSetText_entry (lineName_of_plainName hne hstrip hname) hname.oneLine]
  exact List.cons_ne_nil _ _

/-! ## The whole of a file -/

/-- Items that give one each when there are as many as they give. -/
theorem forall_of_flatMap_eq_map {α β : Type} {f : α → List β} {g : α → β} {items : List α}
    {before : List β} (h : before ++ items.flatMap f = items.map g)
    (hne : ∀ item ∈ items, f item ≠ []) : before = [] ∧ ∀ item ∈ items, f item = [g item] := by
  have hlength : ∀ items : List α, (∀ item ∈ items, f item ≠ []) →
      items.length ≤ (items.flatMap f).length := by
    intro items hne
    induction items with
    | nil => exact Nat.zero_le _
    | cons item items ih =>
      obtain ⟨hitem, hitems⟩ := List.forall_mem_cons.mp hne
      have hpos := List.length_pos_iff.mpr hitem
      have hrest := ih hitems
      rw [List.flatMap_cons, List.length_append, List.length_cons]
      omega
  induction items generalizing before with
  | nil => exact ⟨by simpa using h, by simp⟩
  | cons item items ih =>
    obtain ⟨hitem, hitems⟩ := List.forall_mem_cons.mp hne
    have hcount := congrArg List.length h
    have hpos := List.length_pos_iff.mpr hitem
    have hrest := hlength items hitems
    rw [List.flatMap_cons, List.length_append, List.length_append, List.length_map,
      List.length_cons] at hcount
    -- nothing is before the first, and it gives one
    have hbefore : before = [] := List.length_eq_zero_iff.mp (by omega)
    obtain ⟨first, hfirst⟩ := List.length_eq_one_iff.mp (show (f item).length = 1 by omega)
    rw [hbefore, List.nil_append, List.flatMap_cons, hfirst, List.map_cons] at h
    obtain ⟨rfl, hmore⟩ := List.cons.inj h
    refine ⟨hbefore, List.forall_mem_cons.mpr ⟨hfirst, ?_⟩⟩
    have hnone : [] ++ items.flatMap f = items.map g := hmore
    exact (ih hnone hitems).2

/-- A file that is read as its parameters. -/
structure PlainSet (comments : List (List Char)) (parameters : List Parameter) : Prop where
  comments : ∀ comment ∈ comments, PlainComment comment
  parameters : ∀ p ∈ parameters, PlainParameter p

/-- The comments and parameters that are accepted are read as the parameters when they are plain,
and only then when no name begins as a comment or a byte order mark does. -/
theorem roundTrips_plain (py : IniBuilder.Py) (params : Json.Value) :
    ((∀ comments parameters, accepted py params = .ok (comments, parameters) →
      PlainSet comments parameters) → RoundTrips py params) ∧
    (RoundTrips py params → ∀ comments parameters,
      accepted py params = .ok (comments, parameters) →
        PlainSet comments parameters ∨ ∃ p ∈ parameters, BeginsComment p.name) := by
  rw [roundTrips_iff]
  refine ⟨fun hplain comments parameters haccepted => ?_, fun h comments parameters haccepted => ?_⟩
  · obtain ⟨hcomments, hparameters⟩ := hplain comments parameters haccepted
    have hnone : comments.flatMap (fun comment => parseSetText (commentLine comment)) = [] := by
      rw [List.flatMap_eq_nil_iff]
      exact fun comment hcomment => parseSetText_commentLine_iff.mpr (hcomments comment hcomment)
    rw [hnone, List.nil_append, List.map_eq_flatMap]
    refine List.flatMap_congr fun p hp => ?_
    obtain ⟨hne, hstrip⟩ := name_of_accepted haccepted p hp
    exact parseSetText_plain hne hstrip (hparameters p hp)
  · rw [or_iff_not_imp_right]
    intro hbegins
    have hread := h comments parameters haccepted
    -- a name that is read has no end of a line in it
    have hname : ∀ p ∈ parameters, PlainName p.name := by
      intro p hp
      have hmem : p.input ∈ comments.flatMap (fun comment => parseSetText (commentLine comment)) ++
          parameters.flatMap (fun p => parseSetText p.line) := by
        rw [hread]
        exact List.mem_map_of_mem hp
      rw [← parseSetText_render] at hmem
      have hchars := name_of_mem_parseSetText hmem
      exact ⟨fun hc => hbegins ⟨p, hp, hc⟩, fun c hc => (hchars c hc).1,
        fun hc => (hchars '=' hc).2 rfl⟩
    have haccepted' := name_of_accepted haccepted
    obtain ⟨hnone, hparameters⟩ := forall_of_flatMap_eq_map hread fun p hp =>
      parseSetText_line_ne_nil (haccepted' p hp).1 (haccepted' p hp).2 (hname p hp)
    refine ⟨fun comment hcomment => ?_, fun p hp => ?_⟩
    · exact parseSetText_commentLine_iff.mp (List.flatMap_eq_nil_iff.mp hnone comment hcomment)
    · exact (parseSetText_line_iff (haccepted' p hp).1 (haccepted' p hp).2 (hname p hp)).mp
        (hparameters p hp)

/-- A list of two symbols as the value of a parameter. -/
def barsRequest : Json.Value :=
  .obj [("parameters".toList, .arr [.obj [("name".toList, .str "Pairs".toList),
    ("value".toList, .str "EURUSD||GBPUSD".toList)]])]

/-- The second symbol is lost. -/
theorem not_roundTrips : ¬ ∃ py, ∀ params, RoundTrips py params := by
  rintro ⟨py, h⟩
  have haccepted : accepted py barsRequest =
      .ok ([], [⟨"Pairs".toList, "EURUSD||GBPUSD".toList, none⟩]) := rfl
  have hread := roundTrips_iff.mp (h barsRequest) _ _ haccepted
  revert hread
  decide

end Backtest.SetBuilder

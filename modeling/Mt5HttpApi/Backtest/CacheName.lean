import Mt5HttpApi.Backtest.Artifacts
import Mt5HttpApi.Lib.Glob
import Mt5HttpApi.Lib.PyInt
import Mt5HttpApi.Lib.Segments

/-!
# The name of an optimization cache

MT5 names the cache of an optimization `<expert>.<symbol>.<period>.<from>.<to>.<build>.<hash>.opt`.
`build_cache_pattern` of `mt5api/backtest/cache_parser.py` makes a pattern of the settings of a job,
and `parse_cache_filename` splits a name at its dots. The dots of an expert's or a symbol's own name
are not told from those between the parts, and the expert's name loses a suffix.

* `parseCacheFilename_eq_iff`: what is read of a name are its parts when no part but the first has a
  dot.
* `matches_iff`: the names that the pattern of a job matches.
* `finds_plain`: when a job's cache is found and read, and no other expert's or symbol's.
-/

namespace Backtest

open Text Glob

/-- The parts of the name of a cache file. -/
structure CacheName where
  expert : List Char
  symbolComponent : List Char
  period : List Char
  fromDate : List Char
  toDate : List Char
  build : List Char
  cacheHash : List Char
  deriving DecidableEq, Repr

namespace CacheName

/-- The parts after the expert. -/
def details (n : CacheName) : List (List Char) :=
  [n.symbolComponent, n.period, n.fromDate, n.toDate, n.build, n.cacheHash]

/-- The name without its suffix. -/
def stem (n : CacheName) : List Char := ['.'].intercalate (n.expert :: n.details)

/-- The name of the file. -/
def text (n : CacheName) : List Char := n.stem ++ ".opt".toList

/-- The parts of a name between its dots. -/
def fields (n : CacheName) : List (List Char) := n.stem.splitOn '.'

end CacheName

/-- `parse_cache_filename`. -/
def parseCacheFilename (name : List Char) : Option CacheName :=
  let parts := (nameStem name).splitOn '.'
  match parts.drop (parts.length - 6) with
  | [symbolComponent, period, fromDate, toDate, build, cacheHash] =>
    if parts.length < 7 then none
    else some
      { expert := ['.'].intercalate (parts.take (parts.length - 6))
        symbolComponent := symbolComponent, period := period, fromDate := fromDate
        toDate := toDate, build := build, cacheHash := cacheHash }
  | _ => none

/-- `os.path.basename(name) == name`. -/
def isBasename (name : List Char) : Bool := '/' ∉ name && '\\' ∉ name && name[1]? ≠ some ':'

/-- The values of the INI of a job that its cache is named after. -/
structure CacheJob where
  expertFile : List Char
  symbol : List Char
  period : List Char
  fromDate : List Char
  toDate : List Char
  optimization : Option (List Char)
  accepted : isBasename expertFile = true ∧ endsWithIgnoringCase ".ex5".toList expertFile = true

namespace CacheJob

/-- The name of the expert. -/
def expert (job : CacheJob) : List Char := job.expertFile.take (job.expertFile.length - 4)

/-- `_normalize_expert`. -/
def expertValue (job : CacheJob) : List Char := "Uploaded\\".toList ++ job.expert

/-- The settings of the normalized INI. -/
def settings (job : CacheJob) : TesterSettings where
  expert := some (String.ofList job.expertValue)
  symbol := some (String.ofList job.symbol)
  period := some (String.ofList job.period)
  fromDate := some (String.ofList job.fromDate)
  toDate := some (String.ofList job.toDate)
  optimization := job.optimization.map String.ofList

end CacheJob

/-- `_optimization_type` of the value in the INI, before its bounds are checked. -/
def optimizationValue (decimal : Char → Option ℕ) (raw : Option (List Char)) : Option ℤ :=
  let text := strip (raw.getD ['0'])
  PyInt.int decimal (if text = [] then ['0'] else text)

/-- A date without its dots. -/
def compact (date : List Char) : List Char := date.filter (· != '.')

variable {decimal : Char → Option ℕ} {rules : Rules} {job : CacheJob} {cache : List CacheName}

/-- The symbol in the name of a job's cache: all of them in mode 3. -/
def CacheJob.component (decimal : Char → Option ℕ) (job : CacheJob) : List Char :=
  if optimizationValue decimal job.optimization = some 3 then "all_symbols".toList else job.symbol

/-- The name of a job's cache. -/
def CacheJob.cacheName (decimal : Char → Option ℕ) (job : CacheJob) (build cacheHash : List Char) :
    CacheName where
  expert := job.expert
  symbolComponent := job.component decimal
  period := job.period
  fromDate := compact job.fromDate
  toDate := compact job.toDate
  build := build
  cacheHash := cacheHash

/-- The pattern of the settings matches the name. -/
def patternMatches (rules : Rules) (settings : TesterSettings) (name : List Char) : Bool :=
  (buildCachePattern settings).any fun pattern => globMatches rules pattern.toList name

/-- A cache of the same expert and symbol, regardless of case. -/
def CacheName.SameExpertSymbol (rules : Rules) (n m : CacheName) : Prop :=
  Same rules n.expert m.expert ∧ Same rules n.symbolComponent m.symbolComponent

/-- What is read of a name apart from the build and the hash. -/
def CacheName.Recovers (read : Option CacheName) (n : CacheName) : Prop :=
  ∃ m, read = some m ∧ m.expert = n.expert ∧ m.symbolComponent = n.symbolComponent ∧
    m.period = n.period ∧ m.fromDate = n.fromDate ∧ m.toDate = n.toDate

/-- The cache of a job is found and read, whatever the build and the hash in its name, and none of
another expert or symbol that is there. -/
structure Finds (decimal : Char → Option ℕ) (rules : Rules) (job : CacheJob)
    (cache : List CacheName) : Prop where
  found : ∀ build cacheHash, '.' ∉ build → '.' ∉ cacheHash →
    patternMatches rules job.settings (job.cacheName decimal build cacheHash).text = true
  read : ∀ build cacheHash, '.' ∉ build → '.' ∉ cacheHash →
    (job.cacheName decimal build cacheHash).Recovers
      (parseCacheFilename (job.cacheName decimal build cacheHash).text)
  others : ∀ n ∈ cache, ¬ n.SameExpertSymbol rules (job.cacheName decimal [] []) →
    patternMatches rules job.settings n.text = false

/-! ## Names and their parts -/

theorem nameStem_append {a b : List Char} (ha : a ≠ []) (hb : b ≠ []) (h : '.' ∉ b) :
    nameStem (a ++ '.' :: b) = a := by
  obtain ⟨c, a', rfl⟩ := List.exists_cons_of_ne_nil ha
  have hlast : (c :: a' ++ '.' :: b).getLast? ≠ some '.' := by
    rw [List.getLast?_append_cons, List.getLast?_cons_of_ne_nil hb,
      List.getLast?_eq_some_getLast hb]
    intro heq
    exact h (Option.some.inj heq ▸ List.getLast_mem hb)
  have hdot : '.' ∈ (c :: a' ++ '.' :: b).drop 1 := by simp
  rw [nameStem, if_pos ⟨hdot, hlast⟩, beforeLast_append h]

/-- A name loses its last suffix, or stays. -/
theorem nameStem_cases (name : List Char) : nameStem name = name ∨
    ∃ suffix, '.' ∉ suffix ∧ name = nameStem name ++ '.' :: suffix := by
  unfold nameStem
  split
  next h =>
    obtain ⟨a, b, hname, hb⟩ : ∃ a b, name = a ++ '.' :: b ∧ '.' ∉ b := by
      have hmem : '.' ∈ name.reverse := List.mem_reverse.mpr (List.mem_of_mem_drop h.1)
      obtain ⟨b, a, hrev, hb⟩ := List.eq_append_cons_of_mem hmem
      refine ⟨a.reverse, b.reverse, ?_, by simpa using hb⟩
      have hname := congrArg List.reverse hrev
      rw [List.reverse_reverse] at hname
      rw [hname]
      simp
    refine .inr ⟨b, hb, ?_⟩
    rw [hname, beforeLast_append hb]
  next => exact .inl rfl

theorem nameStem_text {n : CacheName} : nameStem n.text = n.stem := by
  have hne : n.stem ≠ [] := by
    unfold CacheName.stem CacheName.details
    rw [List.intercalate_cons_cons]
    simp
  exact nameStem_append hne (by decide) (by decide)

theorem fields_eq (n : CacheName) :
    n.fields = n.expert.splitOn '.' ++ n.details.flatMap (List.splitOn '.') := by
  unfold CacheName.fields CacheName.stem
  rw [Segments.splitOn_intercalate_flatMap (List.cons_ne_nil _ _), List.flatMap_cons]

/-- Texts without a dot are their own parts. -/
theorem flatMap_splitOn {texts : List (List Char)} (h : ∀ text ∈ texts, '.' ∉ text) :
    texts.flatMap (List.splitOn '.') = texts := by
  induction texts with
  | nil => rfl
  | cons text texts ih =>
    obtain ⟨htext, htexts⟩ := List.forall_mem_cons.mp h
    rw [List.flatMap_cons, ih htexts, List.splitOn_eq_singleton htext]
    rfl

/-- The parts after the expert of a name that is read have no dots. -/
theorem notMem_of_parseCacheFilename {name : List Char} {m : CacheName}
    (h : parseCacheFilename name = some m) : ∀ part ∈ m.details, '.' ∉ part := by
  unfold parseCacheFilename at h
  dsimp only at h
  split at h
  next s p f t b c hparts =>
    split at h
    · cases h
    · obtain rfl := Option.some.inj h
      intro part hpart
      have hmem : part ∈ (nameStem name).splitOn '.' := by
        apply List.mem_of_mem_drop
        rw [hparts]
        exact hpart
      intro hdot
      have hnot := (mem_of_mem_splitOnP hmem '.' hdot).1
      exact absurd hnot (by decide)
  next => cases h

/-- A name is read as its parts when no part but the first has a dot. -/
theorem parseCacheFilename_text {n : CacheName} (h : ∀ part ∈ n.details, '.' ∉ part) :
    parseCacheFilename n.text = some n := by
  have hparts : n.stem.splitOn '.' = n.expert.splitOn '.' ++ n.details := by
    have hfields := fields_eq n
    rwa [flatMap_splitOn h] at hfields
  have hlength :
      (n.expert.splitOn '.' ++ n.details).length - 6 = (n.expert.splitOn '.').length := by
    rw [List.length_append]
    show _ + 6 - 6 = _
    omega
  have hpos := List.length_pos_iff.mpr (List.splitOn_ne_nil '.' n.expert)
  unfold parseCacheFilename
  dsimp only
  rw [nameStem_text, hparts, hlength, List.drop_left, List.take_left, List.intercalate_splitOn]
  unfold CacheName.details
  dsimp only
  rw [if_neg]
  rw [List.length_append]
  show ¬ _ + 6 < 7
  omega

/-! ## What the pattern of a job matches -/

/-- The end of an expert's value that the pattern begins with. -/
def CacheJob.stem (job : CacheJob) : List Char := (pathStem (String.ofList job.expertValue)).toList

/-- The symbol in the pattern. -/
def CacheJob.patternSymbol (job : CacheJob) : List Char :=
  if job.optimization = some ['3'] then "all_symbols".toList else job.symbol

/-- What the pattern of a job begins with, but for the dot at its end. -/
def CacheJob.front (job : CacheJob) : List Char :=
  ['.'].intercalate
    [job.stem, job.patternSymbol, job.period, compact job.fromDate, compact job.toDate]

/-- The values that a pattern needs. -/
def CacheJob.Given (job : CacheJob) : Prop := job.period ≠ [] ∧ job.fromDate ≠ [] ∧ job.toDate ≠ []

theorem present_ofList (text : List Char) :
    present (some (String.ofList text)) =
      if text = [] then none else some (String.ofList text) := by
  have hne : (String.ofList text != "") = !decide (text = []) := by
    rw [Bool.eq_iff_iff, bne_iff_ne, Bool.not_eq_true', decide_eq_false_iff_not, ne_eq,
      ← String.toList_inj, String.toList_ofList]
    rfl
  rw [present, Option.filter_some, hne]
  by_cases h : text = [] <;> simp [h]

theorem patternSymbol_eq (job : CacheJob) :
    (if job.settings.optimization = some "3" then "all_symbols"
      else job.settings.symbol.getD "*") = String.ofList job.patternSymbol := by
  have hiff : job.settings.optimization = some "3" ↔ job.optimization = some ['3'] := by
    show job.optimization.map String.ofList = some "3" ↔ _
    cases job.optimization with
    | none => simp
    | some text =>
      rw [Option.map_some, Option.some.injEq, Option.some.injEq, ← String.toList_inj,
        String.toList_ofList]
      rfl
  unfold CacheJob.patternSymbol
  by_cases h : job.optimization = some ['3']
  · rw [if_pos (hiff.mpr h), if_pos h]
    rfl
  · rw [if_neg (hiff.not.mpr h), if_neg h]
    rfl

theorem expertValue_ne_nil (job : CacheJob) : job.expertValue ≠ [] :=
  List.append_ne_nil_of_left_ne_nil (by decide) _

/-- Without a period or a date there is no pattern. -/
theorem buildCachePattern_eq_none
    (h : job.period = [] ∨ job.fromDate = [] ∨ job.toDate = []) :
    buildCachePattern job.settings = none := by
  have hnone : ∀ text : List Char, text = [] → present (some (String.ofList text)) = none :=
    fun text htext => by rw [present_ofList, if_pos htext]
  have hexpert : present job.settings.expert = some (String.ofList job.expertValue) :=
    (present_ofList _).trans (if_neg (expertValue_ne_nil job))
  unfold buildCachePattern
  rw [hexpert]
  rcases hperiod : present job.settings.period with _ | period
  · rfl
  rcases hfrom : present job.settings.fromDate with _ | fromDate
  · rfl
  rcases hto : present job.settings.toDate with _ | toDate
  · rfl
  rcases h with h | h | h
  · exact absurd (hperiod.symm.trans (hnone _ h)) (by simp)
  · exact absurd (hfrom.symm.trans (hnone _ h)) (by simp)
  · exact absurd (hto.symm.trans (hnone _ h)) (by simp)

theorem buildCachePattern_eq_some (h : job.Given) : ∃ pattern,
    buildCachePattern job.settings = some pattern ∧
      pattern.toList = job.front ++ ['.'] ++ '*' :: ".opt".toList := by
  obtain ⟨hperiod, hfrom, hto⟩ := h
  have hsome : ∀ text : List Char, text ≠ [] →
      present (some (String.ofList text)) = some (String.ofList text) :=
    fun text htext => by rw [present_ofList, if_neg htext]
  have hexpert : present job.settings.expert = some (String.ofList job.expertValue) :=
    hsome _ (expertValue_ne_nil job)
  have hperiod' : present job.settings.period = some (String.ofList job.period) := hsome _ hperiod
  have hfrom' : present job.settings.fromDate = some (String.ofList job.fromDate) := hsome _ hfrom
  have hto' : present job.settings.toDate = some (String.ofList job.toDate) := hsome _ hto
  have hcompact : ∀ date : List Char,
      (compactDate (String.ofList date)).toList = compact date := fun date => by
    unfold compactDate compact
    rw [String.toList_ofList, String.toList_ofList]
  unfold buildCachePattern
  rw [hexpert, hperiod', hfrom', hto', patternSymbol_eq]
  refine ⟨_, rfl, ?_⟩
  have hdot : ".".toList = ['.'] := rfl
  have hend : ".*.opt".toList = ['.'] ++ '*' :: ".opt".toList := rfl
  simp only [String.toList_append, String.toList_ofList, hcompact, hdot, hend, CacheJob.front,
    CacheJob.stem, List.intercalate_cons_cons, List.intercalate_singleton, List.append_assoc]

/-- The letters of a name regardless of case are separated where the name is. -/
theorem splitOn_map (rules : Rules) (text : List Char) :
    (text.map rules.fold).splitOn (rules.fold '.') =
      (text.splitOn '.').map (List.map rules.fold) := by
  have hdots : ∀ part ∈ (text.splitOn '.').map (List.map rules.fold), rules.fold '.' ∉ part := by
    rw [List.forall_mem_map]
    intro part hpart hdot
    obtain ⟨c, hc, hfold⟩ := List.mem_map.mp hdot
    have hnot := (mem_of_mem_splitOnP hpart c hc).1
    rw [rules.dot c hfold] at hnot
    exact absurd hnot (by decide)
  have hne : (text.splitOn '.').map (List.map rules.fold) ≠ [] := by
    rw [ne_eq, List.map_eq_nil_iff]
    exact List.splitOn_ne_nil _ _
  calc (text.map rules.fold).splitOn (rules.fold '.')
      = ((['.'].intercalate (text.splitOn '.')).map rules.fold).splitOn (rules.fold '.') := by
        rw [List.intercalate_splitOn]
    _ = ([rules.fold '.'].intercalate ((text.splitOn '.').map (List.map rules.fold))).splitOn
          (rules.fold '.') := by rw [Segments.map_intercalate]
    _ = (text.splitOn '.').map (List.map rules.fold) := List.splitOn_intercalate _ hdots hne

/-- A name begins with a text and a dot, regardless of case, when it has more parts than the text,
and they begin as those of the text. -/
theorem prefix_iff {rules : Rules} {a name : List Char} :
    (a ++ ['.']).map rules.fold <+: name.map rules.fold ↔
      (a.splitOn '.').map (List.map rules.fold) <+: (name.splitOn '.').map (List.map rules.fold) ∧
        (a.splitOn '.').length < (name.splitOn '.').length := by
  rw [List.map_append, List.map_singleton, Segments.concat_sep_prefix_iff, splitOn_map,
    splitOn_map, List.length_map, List.length_map]

/-- The names that the pattern of a job matches. -/
theorem matches_iff (hgiven : job.Given) (hliteral : Literal job.front) (n : CacheName) :
    patternMatches rules job.settings n.text = true ↔
      oneComponent (job.front ++ ['.'] ++ '*' :: ".opt".toList) = true ∧
        (job.front ++ ['.']).map rules.fold <+: n.stem.map rules.fold := by
  obtain ⟨pattern, hpattern, htext⟩ := buildCachePattern_eq_some hgiven
  have hbefore : Literal (job.front ++ ['.']) := by
    intro c hc
    rcases List.mem_append.mp hc with hc | hc
    · exact hliteral c hc
    · rw [List.mem_singleton.mp hc]
      decide
  rw [patternMatches, hpattern, Option.any_some, htext, globMatches_star hbefore (by decide)]
  refine and_congr_right fun _ => ?_
  have hopt : ∀ {back : List Char}, Same rules back ".opt".toList → back.length = 4 :=
    fun hsame => hsame.length
  constructor
  · rintro ⟨front, middle, back, hname, hfront, hback⟩
    have hstem : n.stem = front ++ middle := by
      have hname' : n.stem ++ ".opt".toList = (front ++ middle) ++ back := by
        rw [List.append_assoc]
        exact hname
      exact (List.append_inj' hname' (hopt hback).symm).1
    have hsame : (job.front ++ ['.']).map rules.fold = front.map rules.fold := hfront.symm
    rw [hstem, hsame, List.map_append]
    exact List.prefix_append _ _
  · rintro ⟨rest, hrest⟩
    obtain ⟨front, middle, hstem, hfront, -⟩ := List.map_eq_append_iff.mp hrest.symm
    refine ⟨front, middle, ".opt".toList, ?_, hfront, rfl⟩
    rw [CacheName.text, hstem, List.append_assoc]

/-! ## The expert in the pattern -/

theorem notMem_expert (job : CacheJob) : '/' ∉ job.expert ∧ '\\' ∉ job.expert ∧
    job.expert[1]? ≠ some ':' := by
  have hbase := job.accepted.1
  simp only [isBasename, Bool.and_eq_true, decide_eq_true_eq] at hbase
  obtain ⟨⟨hslash, hback⟩, hdrive⟩ := hbase
  refine ⟨fun h => hslash (List.mem_of_mem_take h), fun h => hback (List.mem_of_mem_take h),
    fun h => hdrive ?_⟩
  unfold CacheJob.expert at h
  rw [List.getElem?_take] at h
  split at h
  · exact h
  · cases h

/-- The pattern has the expert's name, or that without its last suffix, or the folder for a name
that is no name. -/
theorem stem_cases (job : CacheJob) : job.stem = job.expert ∨
    (∃ suffix, '.' ∉ suffix ∧ job.expert = job.stem ++ '.' :: suffix) ∨
    job.stem = "Uploaded".toList ∧ (job.expert = [] ∨ job.expert = ['.']) := by
  obtain ⟨hslash, hback, -⟩ := notMem_expert job
  have hvalue : replaceChar '\\' '/' job.expertValue = "Uploaded".toList ++ '/' :: job.expert := by
    unfold CacheJob.expertValue replaceChar
    rw [List.map_append]
    have hexpert := @replaceChar_of_not_mem '\\' '/' _ hback
    unfold replaceChar at hexpert
    rw [hexpert]
    rfl
  have hsplit : ("Uploaded".toList ++ '/' :: job.expert).splitOn '/' =
      ["Uploaded".toList, job.expert] := by
    rw [List.splitOn_append_cons_self_of_not_mem (by decide), List.splitOn_eq_singleton hslash]
  have hstem : job.stem = nameStem (([("Uploaded".toList : List Char), job.expert].filter
      fun part => part ≠ [] ∧ part ≠ ['.']).getLast?.getD []) := by
    unfold CacheJob.stem pathStem pathName
    rw [String.toList_ofList, String.toList_ofList, hvalue, hsplit]
  by_cases hname : job.expert = [] ∨ job.expert = ['.']
  · refine .inr (.inr ⟨?_, hname⟩)
    rw [hstem]
    rcases hname with h | h <;> rw [h] <;> decide
  · rw [not_or] at hname
    have hlast : ([("Uploaded".toList : List Char), job.expert].filter
        fun part => part ≠ [] ∧ part ≠ ['.']).getLast?.getD [] = job.expert := by
      rw [List.filter_cons_of_pos (by decide), List.filter_cons_of_pos (by simpa using hname)]
      rfl
    rw [hlast] at hstem
    rw [hstem]
    exact (nameStem_cases job.expert).imp_right .inl

theorem eq_of_map_splitOn {a b : List Char} (h : (a.splitOn '.').map (List.map rules.fold) =
    (b.splitOn '.').map (List.map rules.fold)) : Same rules a b := by
  rw [← splitOn_map, ← splitOn_map] at h
  have hjoin := congrArg [rules.fold '.'].intercalate h
  rwa [List.intercalate_splitOn, List.intercalate_splitOn] at hjoin

/-- The pattern has the expert's name when that is so regardless of case. -/
theorem stem_eq_of_same (h : Same rules job.stem job.expert) : job.stem = job.expert := by
  rcases stem_cases job with hstem | ⟨suffix, -, hexpert⟩ | ⟨hstem, hname⟩
  · exact hstem
  · have hlength := h.length
    rw [hexpert, List.length_append, List.length_cons] at hlength
    omega
  · have hlength := h.length
    rw [hstem] at hlength
    rcases hname with hname | hname <;>
      (rw [hname] at hlength; exact absurd hlength (by decide))

/-- The expert has as many parts as what is left of its name, or one more. -/
theorem length_splitOn_expert (job : CacheJob) :
    (job.expert.splitOn '.').length = (job.stem.splitOn '.').length ∨
      (job.expert.splitOn '.').length = (job.stem.splitOn '.').length + 1 := by
  rcases stem_cases job with hstem | ⟨suffix, hsuffix, hexpert⟩ | ⟨hstem, hname⟩
  · exact .inl (by rw [hstem])
  · right
    rw [hexpert, List.splitOn_append_cons_self, List.splitOn_eq_singleton hsuffix,
      List.length_append, List.length_singleton]
  · rw [hstem]
    rcases hname with hname | hname <;> rw [hname] <;> decide

/-! ## When the cache of a job is found -/

/-- A job whose values are found again in the name of its cache. -/
structure CacheJob.Plain (decimal : Char → Option ℕ) (rules : Rules) (job : CacheJob) : Prop where
  uncut : job.stem = job.expert
  given : job.Given
  spelled : Same rules job.patternSymbol (job.component decimal)
  noDots : '.' ∉ job.component decimal ∧ '.' ∉ job.period
  literal : Literal job.front
  noSeparator : '/' ∉ job.front ∧ '\\' ∉ job.front

/-- No name of another expert or symbol has more parts than the pattern and begins with its parts.
-/
def CacheJob.Apart (decimal : Char → Option ℕ) (rules : Rules) (job : CacheJob)
    (cache : List CacheName) : Prop :=
  ∀ n ∈ cache, ¬ n.SameExpertSymbol rules (job.cacheName decimal [] []) →
    ¬ ((job.front.splitOn '.').map (List.map rules.fold) <+: n.fields.map (List.map rules.fold) ∧
      (job.front.splitOn '.').length < n.fields.length)

theorem notMem_compact (date : List Char) : '.' ∉ compact date := by
  simp [compact]

theorem front_append (job : CacheJob) : job.front = job.stem ++ '.' ::
    ['.'].intercalate
      [job.patternSymbol, job.period, compact job.fromDate, compact job.toDate] := by
  unfold CacheJob.front
  rw [List.intercalate_cons_cons]
  simp

/-- The parts of the pattern. -/
theorem splitOn_front (hsymbol : '.' ∉ job.patternSymbol) (hperiod : '.' ∉ job.period) :
    job.front.splitOn '.' = job.stem.splitOn '.' ++
      [job.patternSymbol, job.period, compact job.fromDate, compact job.toDate] := by
  have hparts : ∀ part ∈ [job.patternSymbol, job.period, compact job.fromDate,
      compact job.toDate], '.' ∉ part := by
    simp only [List.forall_mem_cons, List.not_mem_nil, false_implies, implies_true, and_true]
    exact ⟨hsymbol, hperiod, notMem_compact _, notMem_compact _⟩
  rw [front_append, List.splitOn_append_cons_self,
    List.splitOn_intercalate _ hparts (List.cons_ne_nil _ _)]

/-- The pattern of a plain job is one for a file name. -/
theorem oneComponent_of_plain (h : job.Plain decimal rules) :
    oneComponent (job.front ++ ['.'] ++ '*' :: ".opt".toList) = true := by
  obtain ⟨-, -, hdrive⟩ := notMem_expert job
  have hne : job.expert ≠ [] := by
    intro hnil
    rcases stem_cases job with hstem | ⟨suffix, -, hexpert⟩ | ⟨hstem, -⟩
    · have hvalue : job.stem = "Uploaded".toList := by
        unfold CacheJob.stem CacheJob.expertValue
        rw [hnil]
        decide
      rw [hstem, hnil] at hvalue
      exact absurd hvalue (by decide)
    · rw [hnil] at hexpert
      simp at hexpert
    · rw [h.uncut, hnil] at hstem
      exact absurd hstem (by decide)
  have hcolon : (job.front ++ ['.'] ++ '*' :: ".opt".toList)[1]? ≠ some ':' := by
    rw [front_append, h.uncut]
    obtain ⟨c, more, hexpert⟩ := List.exists_cons_of_ne_nil hne
    rw [hexpert] at hdrive ⊢
    cases more with
    | nil => simp
    | cons d more => simpa using hdrive
  have hbefore : Literal (job.front ++ ['.']) := by
    intro c hc
    rcases List.mem_append.mp hc with hc | hc
    · exact h.literal c hc
    · rw [List.mem_singleton.mp hc]
      decide
  have hmem : ∀ c, c ∉ job.front → c ∉ ['.'] ++ '*' :: ".opt".toList →
      c ∉ job.front ++ ['.'] ++ '*' :: ".opt".toList := by
    intro c hfront hrest hc
    rw [List.append_assoc] at hc
    exact (List.mem_append.mp hc).elim hfront hrest
  simp only [oneComponent, Bool.and_eq_true, decide_eq_true_eq, Bool.not_eq_true',
    doubleStar_of_literal hbefore (by decide : Literal ".opt".toList), and_true]
  exact ⟨⟨hmem _ h.noSeparator.1 (by decide), hmem _ h.noSeparator.2 (by decide)⟩, hcolon⟩

/-- The name of a job's cache begins as the pattern does. -/
theorem prefix_of_plain (h : job.Plain decimal rules) (build cacheHash : List Char) :
    (job.front ++ ['.']).map rules.fold <+:
      (job.cacheName decimal build cacheHash).stem.map rules.fold := by
  have hstem : (job.cacheName decimal build cacheHash).stem =
      job.expert ++ '.' :: (job.component decimal ++ '.' :: ['.'].intercalate
        [job.period, compact job.fromDate, compact job.toDate, build, cacheHash]) := by
    simp [CacheName.stem, CacheName.details, CacheJob.cacheName, List.intercalate_cons_cons]
  have hfront : job.front ++ ['.'] = job.stem ++ '.' :: (job.patternSymbol ++ '.' ::
      ['.'].intercalate [job.period, compact job.fromDate, compact job.toDate] ++ ['.']) := by
    simp [CacheJob.front, List.intercalate_cons_cons]
  have hmore : ['.'].intercalate
      [job.period, compact job.fromDate, compact job.toDate, build, cacheHash] =
        ['.'].intercalate [job.period, compact job.fromDate, compact job.toDate] ++ ['.'] ++
          ['.'].intercalate [build, cacheHash] := by
    simp [List.intercalate_cons_cons]
  refine ⟨(['.'].intercalate [build, cacheHash]).map rules.fold, ?_⟩
  have hspelled : job.patternSymbol.map rules.fold = (job.component decimal).map rules.fold :=
    h.spelled
  rw [hstem, hfront, hmore, h.uncut]
  simp only [List.map_append, List.map_cons, hspelled, List.append_assoc, List.cons_append]

/-- Parts that agree with one more or as many before them agree without, if two of them differ. -/
theorem parts_of_prefix {α : Type} {E B : List α} {a c p f t x y : α}
    (h : E ++ [a, p, f, t] <+: B ++ [c, p, f, t, x, y])
    (hlength : B.length = E.length ∨ B.length = E.length + 1) (hne : f ≠ t) : E = B ∧ a = c := by
  obtain ⟨rest, hrest⟩ := h
  rw [List.append_assoc] at hrest
  rcases hlength with hlength | hlength
  · obtain ⟨hE, hmore⟩ := List.append_inj hrest hlength.symm
    exact ⟨hE, (List.cons.inj hmore).1⟩
  · rcases List.eq_nil_or_concat B with rfl | ⟨B', z, rfl⟩
    · exact absurd hlength (by simp)
    · -- the end of the window would be its start
      rw [List.concat_eq_append, List.length_append, List.length_singleton] at hlength
      rw [List.concat_eq_append, List.append_assoc] at hrest
      obtain ⟨-, hmore⟩ := List.append_inj hrest (by omega)
      simp only [List.cons_append, List.nil_append, List.cons.injEq] at hmore
      exact absurd hmore.2.2.2.1.symm hne

theorem fields_cacheName {build cacheHash : List Char}
    (hdots : '.' ∉ job.component decimal ∧ '.' ∉ job.period) (hbuild : '.' ∉ build)
    (hhash : '.' ∉ cacheHash) : (job.cacheName decimal build cacheHash).fields =
      job.expert.splitOn '.' ++ [job.component decimal, job.period, compact job.fromDate,
        compact job.toDate, build, cacheHash] := by
  have hdetails : ∀ part ∈ (job.cacheName decimal build cacheHash).details, '.' ∉ part := by
    simp only [CacheName.details, CacheJob.cacheName, List.forall_mem_cons, List.not_mem_nil,
      false_implies, implies_true, and_true]
    exact ⟨hdots.1, hdots.2, notMem_compact _, notMem_compact _, hbuild, hhash⟩
  rw [fields_eq, flatMap_splitOn hdetails]
  rfl

/-- The pattern matches a name exactly when that has more parts and begins with its parts. -/
theorem matches_iff_fields (hgiven : job.Given) (hliteral : Literal job.front)
    (hone : oneComponent (job.front ++ ['.'] ++ '*' :: ".opt".toList) = true) (n : CacheName) :
    patternMatches rules job.settings n.text = true ↔
      (job.front.splitOn '.').map (List.map rules.fold) <+: n.fields.map (List.map rules.fold) ∧
        (job.front.splitOn '.').length < n.fields.length := by
  rw [matches_iff hgiven hliteral, prefix_iff, and_iff_right hone]
  rfl

theorem finds_of_plain (h : job.Plain decimal rules) (hcache : job.Apart decimal rules cache) :
    Finds decimal rules job cache where
  found build cacheHash _ _ := (matches_iff h.given h.literal _).mpr
    ⟨oneComponent_of_plain h, prefix_of_plain h build cacheHash⟩
  read build cacheHash hbuild hhash := by
    refine ⟨_, parseCacheFilename_text ?_, rfl, rfl, rfl, rfl, rfl⟩
    simp only [CacheName.details, CacheJob.cacheName, List.forall_mem_cons, List.not_mem_nil,
      false_implies, implies_true, and_true]
    exact ⟨h.noDots.1, h.noDots.2, notMem_compact _, notMem_compact _, hbuild, hhash⟩
  others n hn hother := by
    rw [← Bool.not_eq_true, matches_iff_fields h.given h.literal (oneComponent_of_plain h)]
    exact hcache n hn hother

theorem plain_of_finds (h : Finds decimal rules job cache) (hliteral : Literal job.front)
    (hdates : ¬ Same rules (compact job.fromDate) (compact job.toDate))
    (hsymbol : '.' ∉ job.patternSymbol) :
    job.Plain decimal rules ∧ job.Apart decimal rules cache := by
  have hfound := h.found [] [] List.not_mem_nil List.not_mem_nil
  have hgiven : job.Given := by
    by_contra hgiven
    have hnone : job.period = [] ∨ job.fromDate = [] ∨ job.toDate = [] := by
      simpa only [CacheJob.Given, ne_eq, not_and_or, not_not] using hgiven
    rw [patternMatches, buildCachePattern_eq_none hnone] at hfound
    cases hfound
  obtain ⟨hone, hprefix⟩ := (matches_iff hgiven hliteral _).mp hfound
  -- what is read are parts of the name without a dot
  have hdots : '.' ∉ job.component decimal ∧ '.' ∉ job.period := by
    obtain ⟨m, hread, -, hcomponent, hperiod, -⟩ := h.read [] [] List.not_mem_nil List.not_mem_nil
    have hparts := notMem_of_parseCacheFilename hread
    have hm : m.symbolComponent = job.component decimal ∧ m.period = job.period :=
      ⟨hcomponent, hperiod⟩
    rw [← hm.1, ← hm.2]
    exact ⟨hparts _ (by simp [CacheName.details]), hparts _ (by simp [CacheName.details])⟩
  have hparts := (prefix_iff.mp hprefix).1
  have hfields := @fields_cacheName decimal job [] [] hdots List.not_mem_nil
    List.not_mem_nil
  rw [CacheName.fields] at hfields
  rw [hfields, splitOn_front hsymbol hdots.2, List.map_append, List.map_append] at hparts
  obtain ⟨hexpert, hspelled⟩ := parts_of_prefix hparts
    (by simpa only [List.length_map] using length_splitOn_expert job) hdates
  have hseparator : '/' ∉ job.front ∧ '\\' ∉ job.front := by
    simp only [oneComponent, Bool.and_eq_true, decide_eq_true_eq] at hone
    exact ⟨fun hc => hone.1.1.1 (by simp [hc]), fun hc => hone.1.1.2 (by simp [hc])⟩
  refine ⟨⟨stem_eq_of_same (eq_of_map_splitOn hexpert), hgiven, hspelled, hdots, hliteral,
    hseparator⟩, fun n hn hother hbegins => ?_⟩
  have hnot := h.others n hn hother
  rw [(matches_iff_fields hgiven hliteral hone n).mpr hbegins] at hnot
  cases hnot

/-- The cache of a job is found and read, and no other, when the job is plain and no other name
begins as the pattern does; and only then, if the pattern has no wildcard but its own, the dates
differ and the symbol in the pattern has no dot. -/
theorem finds_plain (decimal : Char → Option ℕ) (rules : Rules) (job : CacheJob)
    (cache : List CacheName) :
    (job.Plain decimal rules ∧ job.Apart decimal rules cache → Finds decimal rules job cache) ∧
    (Finds decimal rules job cache → Literal job.front →
      ¬ Same rules (compact job.fromDate) (compact job.toDate) → '.' ∉ job.patternSymbol →
        job.Plain decimal rules ∧ job.Apart decimal rules cache) :=
  ⟨fun h => finds_of_plain h.1 h.2, plain_of_finds⟩

/-- Case is told, and classes have the characters in them. -/
def plainRules : Rules := ⟨id, fun stuff c => c ∈ stuff, fun _ h => h⟩

/-- A backtest of an index of a broker that marks its symbols. -/
def cashJob : CacheJob where
  expertFile := "ea.ex5".toList
  symbol := "US500.cash".toList
  period := "M5".toList
  fromDate := "2024.01.01".toList
  toDate := "2024.02.01".toList
  optimization := some ['2']
  accepted := by decide

/-- The expert of the cache of `US500.cash` is read as `ea.US500`. -/
theorem not_finds : ¬ ∀ (decimal : Char → Option ℕ) (rules : Rules) (job : CacheJob)
    (cache : List CacheName), Finds decimal rules job cache := by
  intro h
  have hread := (h PyInt.asciiDecimal plainRules cashJob []).read "4150".toList "00ff".toList
    (by decide) (by decide)
  obtain ⟨m, hm, hexpert, -⟩ := hread
  have hparsed : (parseCacheFilename (cashJob.cacheName PyInt.asciiDecimal "4150".toList
      "00ff".toList).text).map CacheName.expert = some "ea.US500".toList := by decide +kernel
  rw [hm, Option.map_some, hexpert] at hparsed
  revert hparsed
  decide +kernel

end Backtest

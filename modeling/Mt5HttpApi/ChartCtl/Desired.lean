import Mt5HttpApi.ChartCtl.Registry
import Mt5HttpApi.ChartCtl.Scanner

/-!
# What the API writes and the loader reads

`_write_desired_locked` writes the deployments of the registry to `desired.json`, and the loader
reads them from there. `reads_desired` says when it reads what was written: an expert's name and a
symbol are printable, their braces nest, and neither stands where the loader looks for another key
(`Readable`).
-/

namespace ChartCtl

open JsonText Text Transition

/-- `tpl_relative_name`. -/
def tplRelativeName (id : List Char) : List Char :=
  "\\Files\\chartctl\\".toList ++ id ++ ".tpl".toList

/-- A deployment as the API declares it to the loader. -/
def Deployment.declared (dep : Deployment) : ChartCtlDeployment where
  id := dep.id
  expert := dep.expertName
  templ := tplRelativeName dep.id
  symbol := dep.symbol
  timeframe := dep.timeframe
  enabled := dep.enabled

/-- The deployments that are declared, in the order of their creation. -/
def Registry.declared (reg : Registry) : List ChartCtlDeployment :=
  (reg.deployments.insertionSort fun a b => a.createdAt ≤ b.createdAt).map Deployment.declared

/-- The object of a deployment. -/
def entry (dep : ChartCtlDeployment) : Writer :=
  obj [("id", str dep.id), ("expert", str dep.expert), ("template", str dep.templ),
    ("symbol", str dep.symbol), ("timeframe", str dep.timeframe), ("enabled", bool dep.enabled)]

/-- The value that `_write_desired_locked` writes, for the configured `reconcile_hint_interval`. -/
def desired (interval : Nat) (now : Moment) (reg : Registry) : Writer :=
  obj [("protocol", num 1), ("revision", num reg.revision), ("updated_at", str now),
    ("reconcile_interval", num interval), ("deployments", arr (reg.declared.map entry))]

/-- A character as it is written with `newline="\r\n"`. -/
def crlf (c : Char) : List Char := if c = '\n' then ['\r', '\n'] else [c]

/-- The bytes of `atomic_write_text`. -/
def atomicWriteText (text : List Char) : List UInt8 :=
  (text.flatMap crlf).flatMap String.utf8EncodeChar

/-- `_write_desired_locked`: the content of `desired.json`. -/
def writeDesiredLocked (interval : Nat) (now : Moment) (reg : Registry) : List UInt8 :=
  atomicWriteText (dumps (desired interval now reg))

/-! ## The text without its lines -/

/-- A text without its line ends. -/
def flat (text : List Char) : List Char := text.filter (· ≠ '\n')

@[simp]
theorem flat_nil : flat [] = [] := rfl

theorem flat_cons (c : Char) (text : List Char) :
    flat (c :: text) = if c = '\n' then flat text else c :: flat text := by
  simp [flat, List.filter_cons]

theorem flat_append (s t : List Char) : flat (s ++ t) = flat s ++ flat t := List.filter_append ..

theorem flat_newline (level : Nat) : flat (newline level) = List.replicate (2 * level) ' ' := by
  simp [flat, newline]

/-- A text that has no line end. -/
theorem flat_of_not_mem {text : List Char} (h : '\n' ∉ text) : flat text = text := by
  rw [flat, List.filter_eq_self]
  intro c hc
  simpa using fun hline : c = '\n' => h (hline ▸ hc)

theorem flat_quote (s : List Char) : flat (quote s) = quote s :=
  flat_of_not_mem fun h => by cases List.all_eq_true.mp (printable_quote s) _ h

/-- The strings of an object and what stands between them. -/
def entryTokens (dep : ChartCtlDeployment) : List Token :=
  [⟨"enabled".toList, ": ".toList ++ (bool dep.enabled 0 ++ ",      ".toList)⟩,
    ⟨"expert".toList, ": ".toList⟩, ⟨dep.expert, ",      ".toList⟩,
    ⟨"id".toList, ": ".toList⟩, ⟨dep.id, ",      ".toList⟩,
    ⟨"symbol".toList, ": ".toList⟩, ⟨dep.symbol, ",      ".toList⟩,
    ⟨"template".toList, ": ".toList⟩, ⟨dep.templ, ",      ".toList⟩,
    ⟨"timeframe".toList, ": ".toList⟩, ⟨dep.timeframe, "    ".toList⟩]

/-- What stands in the braces of an object. -/
def entryBody (dep : ChartCtlDeployment) : List Char :=
  "      ".toList ++ render (entryTokens dep)

theorem flat_entry (dep : ChartCtlDeployment) :
    flat (entry dep 2) = '{' :: entryBody dep ++ ['}'] := by
  have hbool : flat (bool dep.enabled 3) = bool dep.enabled 0 := by
    cases dep.enabled <;> rfl
  simp [entry, obj, List.insertionSort, List.orderedInsert, block, List.intercalate, flat_cons,
    flat_append, flat_newline, str, hbool, flat_quote, entryBody, entryTokens, render]

theorem flat_intercalate (sep : List Char) (texts : List (List Char)) :
    flat (sep.intercalate texts) = (flat sep).intercalate (texts.map flat) := by
  induction texts with
  | nil => rfl
  | cons text texts ih =>
    cases texts with
    | nil => simp only [List.map_cons, List.map_nil, List.intercalate_singleton]
    | cons next texts =>
      simp only [List.map_cons] at ih
      simp only [List.map_cons, List.intercalate_cons_cons, flat_append, ih]

/-- The text of an object. -/
def entryText (dep : ChartCtlDeployment) : List Char := '{' :: entryBody dep ++ ['}']

/-- The text of the array after its bracket. -/
def arrayBody (deps : List ChartCtlDeployment) : List Char :=
  if deps = [] then "]".toList
  else "    ".toList ++ (",    ".toList.intercalate (deps.map entryText) ++ "  ]".toList)

theorem flat_arr (deps : List ChartCtlDeployment) :
    flat (arr (deps.map entry) 1) = '[' :: arrayBody deps := by
  have hentry : (deps.map fun dep => flat (entry dep 2)) = deps.map entryText :=
    List.map_congr_left fun dep _ => flat_entry dep
  have hgap : flat (',' :: newline 2) = ",    ".toList := by
    simp [flat_cons, flat_newline]
  by_cases h : deps = []
  · subst h
    rfl
  · simp [arr, block, arrayBody, h, flat_cons, flat_append, flat_newline, flat_intercalate,
      Function.comp_def, hentry, hgap]

/-- What comes after the array. -/
def tailTokens (interval : Nat) (now : Moment) (revision : Nat) : List Token :=
  [⟨"protocol".toList, ": 1,  ".toList⟩,
    ⟨"reconcile_interval".toList, ": ".toList ++ (Nat.toDigits 10 interval ++ ",  ".toList)⟩,
    ⟨"revision".toList, ": ".toList ++ (Nat.toDigits 10 revision ++ ",  ".toList)⟩,
    ⟨"updated_at".toList, ": ".toList⟩, ⟨now, "\x7d".toList⟩]

theorem flat_desired (interval : Nat) (now : Moment) (reg : Registry) :
    flat (dumps (desired interval now reg)) =
      "\x7b  ".toList ++ (quote "deployments".toList ++ (": ".toList ++
        '[' :: (arrayBody reg.declared ++ (",  ".toList ++
          render (tailTokens interval now reg.revision))))) := by
  have hnum : ∀ n level, flat (num n level) = Nat.toDigits 10 n := by
    intro n level
    refine flat_of_not_mem fun h => ?_
    cases Nat.isDigit_of_mem_toDigits (by decide) (by decide) h
  have hone : Nat.toDigits 10 1 = ['1'] := by decide
  simp [dumps, desired, obj, List.insertionSort, List.orderedInsert, block, List.intercalate,
    flat_cons, flat_append, flat_newline, str, hnum, flat_quote, flat_arr, tailTokens, render, hone]

/-! ## Reading an object -/

/-- What the loader needs of the texts of a deployment to read it. -/
structure Legible (dep : ChartCtlDeployment) : Prop where
  printable : ∀ s ∈ [dep.expert, dep.id, dep.symbol, dep.templ, dep.timeframe],
    ∀ c ∈ s, printable c = true
  nests : nests 0 (dep.expert ++ dep.symbol) = some 0
  braceless : ∀ s ∈ [dep.id, dep.templ, dep.timeframe], '{' ∉ s ∧ '}' ∉ s
  id_ne_nil : dep.id ≠ []
  expert_misses : ∀ key ∈ ["symbol", "template", "timeframe", "revision"],
    ¬ Hits key.toList dep.expert
  id_misses : ∀ key ∈ ["symbol", "template", "timeframe", "revision"], ¬ Hits key.toList dep.id
  symbol_misses : ∀ key ∈ ["timeframe", "revision"], ¬ Hits key.toList dep.symbol
  templ_misses : ¬ Hits "revision".toList dep.templ
  timeframe_misses : ¬ Hits "revision".toList dep.timeframe

variable {dep : ChartCtlDeployment}

/-- What stands between the strings of an object. -/
theorem apart_of_mem {key : List Char} (hkey : ∀ c ∈ [':', ',', ' '], c ∉ key) {t : Token}
    (ht : t ∈ entryTokens dep) : Apart key t.gap := by
  have hbool : '"' ∉ bool dep.enabled 0 := by
    cases dep.enabled <;> decide
  have hgap : t.gap = ": ".toList ++ (bool dep.enabled 0 ++ ",      ".toList) ∨
      t.gap = ": ".toList ∨ t.gap = ",      ".toList ∨ t.gap = "    ".toList := by
    simp only [entryTokens, List.mem_cons, List.not_mem_nil, or_false] at ht
    rcases ht with rfl | rfl | rfl | rfl | rfl | rfl | rfl | rfl | rfl | rfl | rfl <;> simp
  rw [Apart]
  rcases hgap with hgap | hgap | hgap | hgap <;> rw [hgap]
  · exact ⟨by simp [hbool], ':', _, rfl, hkey ':' (by decide)⟩
  · exact ⟨by decide, ':', _, rfl, hkey ':' (by decide)⟩
  · exact ⟨by decide, ',', _, rfl, hkey ',' (by decide)⟩
  · exact ⟨by decide, ' ', _, rfl, hkey ' ' (by decide)⟩

theorem entryText_eq : entryText dep =
    '{' :: "      ".toList ++ (render (entryTokens dep) ++ ['}']) := by
  simp [entryText, entryBody]

theorem jsonStr_expert (h : Legible dep) :
    jsonStr "expert".toList [] (entryText dep) = dep.expert := by
  rw [entryText_eq]
  have hpre : ∀ t ∈ (entryTokens dep).take 1, Apart "expert".toList t.gap :=
    fun t ht => apart_of_mem (by decide) (List.mem_of_mem_take ht)
  apply jsonStr_tokens [] (by decide) (by decide) hpre
  · simp only [entryTokens, List.take_succ_cons, List.take_zero, List.forall_mem_cons]
    exact ⟨by decide, nofun⟩
  · decide
  · exact h.printable dep.expert (by simp)

/-- A string under its key that is not found before, but for the string right before it. -/
theorem jsonStr_entry {key : String} (hkey : key ∈ ["id", "symbol", "template", "timeframe"])
    (pre : List Token) {more : List Token} {t : Token} {v stop : List Char}
    (hsplit : entryTokens dep = pre ++ t :: ⟨key.toList, ": ".toList⟩ :: ⟨v, stop⟩ :: more)
    (htcolon : ':' ∉ t.gap) (hmiss : ∀ u ∈ pre, ¬ Hits key.toList u.str)
    (hv : ∀ c ∈ v, printable c = true) :
    jsonStr key.toList [] (entryText dep) = v := by
  have hchars : ∀ key ∈ ["id", "symbol", "template", "timeframe"],
      (∀ c ∈ key.toList, plain c = true) ∧ ∀ c ∈ [':', ',', ' '], c ∉ key.toList := by decide
  obtain ⟨hplain, hfree⟩ := hchars key hkey
  rw [entryText_eq, hsplit]
  apply jsonStr_tokens_of_before [] hplain (by decide) _ hmiss _ htcolon (hfree ':' (by decide)) hv
  · exact fun u hu => apart_of_mem hfree (hsplit ▸ List.mem_append_left _ hu)
  · exact apart_of_mem hfree (hsplit ▸ List.mem_append_right _ List.mem_cons_self)

theorem jsonStr_id (h : Legible dep) : jsonStr "id".toList [] (entryText dep) = dep.id := by
  apply jsonStr_entry (by decide) ((entryTokens dep).take 2) rfl (by simp)
  · simp only [entryTokens, List.take_succ_cons, List.take_zero, List.forall_mem_cons]
    exact ⟨by decide, by decide, nofun⟩
  · exact h.printable dep.id (by simp)

theorem jsonStr_symbol (h : Legible dep) :
    jsonStr "symbol".toList [] (entryText dep) = dep.symbol := by
  apply jsonStr_entry (by decide) ((entryTokens dep).take 4) rfl (by simp)
  · simp only [entryTokens, List.take_succ_cons, List.take_zero, List.forall_mem_cons]
    exact ⟨by decide, by decide, h.expert_misses "symbol" (by decide), by decide, nofun⟩
  · exact h.printable dep.symbol (by simp)

theorem jsonStr_template (h : Legible dep) :
    jsonStr "template".toList [] (entryText dep) = dep.templ := by
  apply jsonStr_entry (by decide) ((entryTokens dep).take 6) rfl (by simp)
  · simp only [entryTokens, List.take_succ_cons, List.take_zero, List.forall_mem_cons]
    exact ⟨by decide, by decide, h.expert_misses "template" (by decide), by decide,
      h.id_misses "template" (by decide), by decide, nofun⟩
  · exact h.printable dep.templ (by simp)

theorem jsonStr_timeframe (h : Legible dep) :
    jsonStr "timeframe".toList [] (entryText dep) = dep.timeframe := by
  apply jsonStr_entry (by decide) ((entryTokens dep).take 8) rfl (by simp)
  · simp only [entryTokens, List.take_succ_cons, List.take_zero, List.forall_mem_cons]
    exact ⟨by decide, by decide, h.expert_misses "timeframe" (by decide), by decide,
      h.id_misses "timeframe" (by decide), by decide, h.symbol_misses "timeframe" (by decide),
      by decide, nofun⟩
  · exact h.printable dep.timeframe (by simp)

/-- After the key `enabled` in quotes the text is never a colon and `false`, but for the key of a
paused deployment. -/
theorem not_hits_enabled {needle : List Char}
    (hneedle : needle = ":false".toList ∨ needle = ": false".toList ∧ dep.enabled = true)
    {t : Token} (ht : t ∈ entryTokens dep) (rest : List Char) :
    ¬ (Hits "enabled".toList t.str ∧ needle <+: t.gap ++ rest) := by
  obtain ⟨more, hmore⟩ : ∃ more, needle = ':' :: more := by
    rcases hneedle with h | ⟨h, -⟩ <;> exact ⟨_, h⟩
  have hcases : t = ⟨"enabled".toList, ": ".toList ++ (bool dep.enabled 0 ++ ",      ".toList)⟩ ∨
      ¬ Hits "enabled".toList t.str ∨ ∃ c gap, t.gap = c :: gap ∧ c ≠ ':' := by
    simp only [entryTokens, List.mem_cons, List.not_mem_nil, or_false] at ht
    rcases ht with rfl | rfl | rfl | rfl | rfl | rfl | rfl | rfl | rfl | rfl | rfl
    · exact Or.inl rfl
    all_goals first
      | exact Or.inr (Or.inr ⟨',', _, rfl, by decide⟩)
      | exact Or.inr (Or.inr ⟨' ', _, rfl, by decide⟩)
      | exact Or.inr (Or.inl (by decide))
  rintro ⟨hhit, hpre⟩
  rcases hcases with rfl | hmiss | ⟨c, gap, hgap, hc⟩
  · rcases hneedle with rfl | ⟨rfl, htrue⟩
    · simp at hpre
    · simp [htrue, JsonText.bool] at hpre
  · exact hmiss hhit
  · rw [hmore, hgap] at hpre
    exact hc (List.cons_prefix_cons.mp hpre).1.symm

theorem not_contains_enabled {needle : List Char}
    (hneedle : needle = ":false".toList ∨ needle = ": false".toList ∧ dep.enabled = true) :
    contains ('"' :: ("enabled".toList ++ '"' :: needle)) (entryText dep) = false := by
  have hafter : after ('"' :: ("enabled".toList ++ '"' :: needle)) (entryText dep) =
      after ('"' :: ("enabled".toList ++ '"' :: needle)) ['}'] := by
    rw [entryText_eq, after_append (by decide), after_tokens (by decide)]
    · exact fun t ht => apart_of_mem (by decide) ht
    · exact fun before t more hsplit => not_hits_enabled hneedle (by simp [hsplit]) _
  rw [contains, hafter]
  rfl

/-- A paused deployment is found to be one, and no other. -/
theorem enabled_entryText :
    (!contains "\"enabled\": false".toList (entryText dep) &&
      !contains "\"enabled\":false".toList (entryText dep)) = dep.enabled := by
  have htwo : contains "\"enabled\":false".toList (entryText dep) = false :=
    not_contains_enabled (Or.inl rfl)
  cases henabled : dep.enabled with
  | true =>
    have hone : contains "\"enabled\": false".toList (entryText dep) = false :=
      not_contains_enabled (Or.inr ⟨rfl, henabled⟩)
    rw [hone, htwo]
    rfl
  | false =>
    have hone : contains "\"enabled\": false".toList (entryText dep) = true := by
      simp only [entryText_eq, entryTokens, henabled]
      rfl
    rw [hone]
    rfl

/-- The loader reads an object as it was declared. -/
theorem readDeployment_entryText (h : Legible dep) : readDeployment (entryText dep) = dep := by
  simp only [readDeployment, jsonStr_id h, jsonStr_expert h, jsonStr_template h, jsonStr_symbol h,
    jsonStr_timeframe h, enabled_entryText]

/-- The braces of an object nest. -/
theorem nests_entryBody (h : Legible dep) : nests 0 (entryBody dep) = some 0 := by
  have hprintable : ∀ t ∈ entryTokens dep, ∀ c ∈ t.str, printable c = true := by
    simp only [entryTokens, List.forall_mem_cons]
    have hvalue := h.printable
    simp only [List.forall_mem_cons] at hvalue
    obtain ⟨hexpert, hid, hsymbol, htempl, htimeframe, -⟩ := hvalue
    exact ⟨by decide, by decide, hexpert, by decide, hid, by decide, hsymbol, by decide, htempl,
      by decide, htimeframe, nofun⟩
  have hgap : ∀ t ∈ entryTokens dep, '{' ∉ t.gap ∧ '}' ∉ t.gap := by
    have hbool : '{' ∉ JsonText.bool dep.enabled 0 ∧ '}' ∉ JsonText.bool dep.enabled 0 := by
      cases dep.enabled <;> decide
    simp [entryTokens, hbool]
  -- only the expert's name and the symbol have braces
  have hvalue := h.braceless
  simp only [List.forall_mem_cons] at hvalue
  obtain ⟨hid, htempl, htimeframe, -⟩ := hvalue
  obtain ⟨e, hexpert, hsymbol⟩ : ∃ e, nests 0 dep.expert = some e ∧
      nests e dep.symbol = some 0 := by
    have hnests := h.nests
    rw [nests_append] at hnests
    exact Option.bind_eq_some_iff.mp hnests
  have hlit : ∀ key ∈ ["enabled", "expert", "id", "symbol", "template", "timeframe"], ∀ d,
      nests d key.toList = some d := by
    have hbrace : ∀ key ∈ ["enabled", "expert", "id", "symbol", "template", "timeframe"],
        '{' ∉ key.toList ∧ '}' ∉ key.toList := by decide
    exact fun key hkey => nests_of_not_mem (hbrace key hkey).1 (hbrace key hkey).2
  simp only [List.forall_mem_cons] at hlit
  obtain ⟨henabled, hexpertKey, hidKey, hsymbolKey, htemplKey, htimeframeKey, -⟩ := hlit
  rw [entryBody, nests_append, nests_of_not_mem (by decide) (by decide), Option.bind_some,
    nests_render hprintable hgap]
  simp only [entryTokens, List.flatMap_cons, List.flatMap_nil, List.append_nil, nests_append,
    henabled, hexpertKey, hidKey, hsymbolKey, htemplKey, htimeframeKey, hexpert, hsymbol,
    nests_of_not_mem hid.1 hid.2, nests_of_not_mem htempl.1 htempl.2,
    nests_of_not_mem htimeframe.1 htimeframe.2, Option.bind_some]

/-- The loader finds an object of the array. -/
theorem scan_entryText (h : Legible dep) (out : List ChartCtlDeployment) (rest : List Char) :
    scan ⟨0, none, out⟩ (entryText dep ++ rest) = scan ⟨0, none, out ++ [dep]⟩ rest := by
  have hfound : found (entryText dep) out = out ++ [dep] := by
    rw [found, readDeployment_entryText h, if_pos h.id_ne_nil]
  have hobject := scan_object out rest (nests_entryBody h)
  rw [← hfound]
  simpa [entryText] using hobject

/-! ## Reading the array -/

variable {deps : List ChartCtlDeployment}

theorem scan_objects (h : ∀ dep ∈ deps, Legible dep) (hne : deps ≠ [])
    (out : List ChartCtlDeployment) (rest : List Char) :
    scan ⟨0, none, out⟩ (",    ".toList.intercalate (deps.map entryText) ++ rest) =
      scan ⟨0, none, out ++ deps⟩ rest := by
  induction deps generalizing out with
  | nil => exact absurd rfl hne
  | cons dep deps ih =>
    have hdep := h dep List.mem_cons_self
    cases deps with
    | nil =>
      rw [List.map_cons, List.map_nil, List.intercalate_singleton]
      exact scan_entryText hdep out rest
    | cons next deps =>
      have hmore := ih (fun d hd => h d (List.mem_cons_of_mem dep hd)) (by simp) (out ++ [dep])
      rw [List.append_assoc, List.singleton_append, List.map_cons] at hmore
      rw [List.map_cons, List.map_cons, List.intercalate_cons_cons, List.append_assoc,
        List.append_assoc, scan_entryText hdep, scan_gap _ (by decide), hmore]

theorem scan_arrayBody (h : ∀ dep ∈ deps, Legible dep) (rest : List Char) :
    scan ⟨0, none, []⟩ ('[' :: (arrayBody deps ++ rest)) = deps := by
  have hbracket : ∀ text, scan ⟨0, none, []⟩ ('[' :: text) = scan ⟨0, none, []⟩ text :=
    fun text => scan_gap ['['] (by decide)
  have hstop : ∀ out, scan ⟨0, none, out⟩ ("  ]".toList ++ rest) = out :=
    fun out => scan_gap "  ".toList (by decide)
  rw [hbracket, arrayBody]
  split
  next hnil =>
    rw [hnil]
    rfl
  next hne =>
    rw [List.append_assoc, List.append_assoc, scan_gap _ (by decide), scan_objects h hne, hstop,
      List.nil_append]

/-- The search for the revision passes over the objects. -/
theorem after_objects (h : ∀ dep ∈ deps, Legible dep) (rest : List Char) :
    after ('"' :: ("revision".toList ++ ['"']))
        (",    ".toList.intercalate (deps.map entryText) ++ rest) =
      after ('"' :: ("revision".toList ++ ['"'])) rest := by
  have hentry : ∀ dep ∈ deps, ∀ rest,
      after ('"' :: ("revision".toList ++ ['"'])) (entryText dep ++ rest) =
        after ('"' :: ("revision".toList ++ ['"'])) rest := by
    intro dep hdep rest
    have hlegible := h dep hdep
    have htokens : ∀ t ∈ entryTokens dep, ¬ Hits "revision".toList t.str := by
      simp only [entryTokens, List.forall_mem_cons]
      exact ⟨by decide, by decide, hlegible.expert_misses "revision" (by decide), by decide,
        hlegible.id_misses "revision" (by decide), by decide,
        hlegible.symbol_misses "revision" (by decide), by decide, hlegible.templ_misses, by decide,
        hlegible.timeframe_misses, nofun⟩
    have hbrace : '"' ∉ ['}'] := by decide
    rw [entryText_eq, List.append_assoc, List.append_assoc, after_append (by decide),
      after_tokens (by decide), after_append hbrace]
    · exact fun t ht => apart_of_mem (by decide) ht
    · rintro before t more hsplit ⟨hhit, -⟩
      exact htokens t (by simp [hsplit]) hhit
  induction deps with
  | nil => rfl
  | cons dep deps ih =>
    have hdep := hentry dep List.mem_cons_self
    have hmore := ih (fun d hd => h d (List.mem_cons_of_mem dep hd))
      fun d hd => hentry d (List.mem_cons_of_mem dep hd)
    cases deps with
    | nil =>
      rw [List.map_cons, List.map_nil, List.intercalate_singleton]
      exact hdep rest
    | cons next deps =>
      rw [List.map_cons] at hmore
      rw [List.map_cons, List.map_cons, List.intercalate_cons_cons, List.append_assoc,
        List.append_assoc, hdep, after_append (by decide), hmore]

theorem after_arrayBody (h : ∀ dep ∈ deps, Legible dep) (rest : List Char) :
    after ('"' :: ("revision".toList ++ ['"'])) ('[' :: (arrayBody deps ++ rest)) =
      after ('"' :: ("revision".toList ++ ['"'])) rest := by
  have hbracket : ∀ text, after ('"' :: ("revision".toList ++ ['"'])) ('[' :: text) =
      after ('"' :: ("revision".toList ++ ['"'])) text :=
    fun text => after_append (show '"' ∉ ['['] by decide)
  rw [hbracket, arrayBody]
  split
  next => exact after_append (by decide)
  next =>
    rw [List.append_assoc, List.append_assoc, after_append (by decide), after_objects h,
      after_append (by decide)]

/-! ## Reading the file -/

variable {interval : Nat} {now : Moment} {reg : Registry}

theorem extractDeployments_flat (h : ∀ dep ∈ reg.declared, Legible dep) :
    extractDeployments (flat (dumps (desired interval now reg))) = some reg.declared := by
  have hkey : ∀ rest, after "\"deployments\"".toList
      ("\x7b  ".toList ++ (quote "deployments".toList ++ (": ".toList ++ rest))) =
      some (": ".toList ++ rest) := by
    intro rest
    let t : Token := ⟨"deployments".toList, ": ".toList⟩
    have hapart : Apart t.str t.gap := ⟨by decide, ':', _, rfl, by decide⟩
    have hafter : after ('"' :: (t.str ++ ['"'])) (render [] ++ (quote t.str ++ (t.gap ++ rest))) =
        some (t.gap ++ rest) :=
      after_tokens_of_hit (by decide) nofun nofun hapart (Or.inl rfl)
    exact (after_append (by decide)).trans hafter
  have hbracket : ∀ rest, after ['['] (": ".toList ++ '[' :: rest) = some rest :=
    after_singleton (by decide)
  rw [flat_desired, extractDeployments, hkey, Option.bind_some, hbracket, Option.map_some,
    scan_arrayBody h]

/-- A number between a colon and a comma. -/
theorem apart_number (n : Nat) :
    Apart "revision".toList (": ".toList ++ (Nat.toDigits 10 n ++ ",  ".toList)) := by
  refine ⟨?_, ':', _, rfl, by decide⟩
  rw [List.mem_append, List.mem_append]
  rintro (h | h | h)
  · revert h
    decide
  · cases Nat.isDigit_of_mem_toDigits (by decide) (by decide) h
  · revert h
    decide

theorem jsonNum_flat (numerals : Numerals) (h : ∀ dep ∈ reg.declared, Legible dep)
    (hrev : reg.revision < 2 ^ 63) :
    jsonNum numerals "revision".toList (flat (dumps (desired interval now reg))) =
      reg.revision := by
  have hfirst : ∀ rest, after ('"' :: ("revision".toList ++ ['"']))
      ("\x7b  ".toList ++ (quote "deployments".toList ++ (": ".toList ++ rest))) =
      after ('"' :: ("revision".toList ++ ['"'])) rest := by
    intro rest
    have htoken : Apart "revision".toList ": ".toList := ⟨by decide, ':', _, rfl, by decide⟩
    rw [after_append (by decide), after_token (by decide) htoken.not_prefix,
      if_neg (fun hhit => absurd hhit.1 (by decide)), after_append (by decide)]
  have htail : after ('"' :: ("revision".toList ++ ['"']))
      (",  ".toList ++ render (tailTokens interval now reg.revision)) =
      some (": ".toList ++ (Nat.toDigits 10 reg.revision ++ ',' ::
        (' ' :: ' ' :: render [⟨"updated_at".toList, ": ".toList⟩, ⟨now, "\x7d".toList⟩]))) := by
    have hsplit : render (tailTokens interval now reg.revision) =
        render ((tailTokens interval now reg.revision).take 2) ++ (quote "revision".toList ++
          ((": ".toList ++ (Nat.toDigits 10 reg.revision ++ ",  ".toList)) ++
            render [⟨"updated_at".toList, ": ".toList⟩, ⟨now, "\x7d".toList⟩])) := by
      simp [tailTokens, render]
    rw [after_append (by decide), hsplit]
    refine (after_tokens_of_hit (t := ⟨"revision".toList, _⟩) (by decide) ?_ ?_
      (apart_number reg.revision) (Or.inl rfl)).trans ?_
    · simp only [tailTokens, List.take_succ_cons, List.take_zero, List.forall_mem_cons]
      exact ⟨⟨by decide, ':', _, rfl, by decide⟩, apart_number interval, List.forall_mem_nil _⟩
    · simp only [tailTokens, List.take_succ_cons, List.take_zero, List.forall_mem_cons]
      exact ⟨by decide, by decide, List.forall_mem_nil _⟩
    · simp
  have hafter := ((hfirst _).trans (after_arrayBody h _)).trans htail
  rw [flat_desired]
  exact jsonNum_of_after numerals hrev rfl hafter

theorem replacePair_crlf {text : List Char} (h : ∀ c ∈ text, printable c = true ∨ c = '\n') :
    replacePair '\r' '\n' [] (text.flatMap crlf) = flat text := by
  induction text with
  | nil => rfl
  | cons c text ih =>
    have hmore := ih fun d hd => h d (List.mem_cons_of_mem c hd)
    rw [List.flatMap_cons, flat_cons, crlf]
    split
    next =>
      show replacePair '\r' '\n' [] ('\r' :: '\n' :: text.flatMap crlf) = _
      simp [replacePair, hmore]
    next hline =>
      have hreturn : c ≠ '\r' := by
        rintro rfl
        cases (h _ List.mem_cons_self).resolve_right hline
      rw [List.singleton_append, replacePair_cons_of_ne hreturn, hmore]

/-- UTF-8 has a byte for each character of ASCII. -/
theorem flatMap_utf8EncodeChar {text : List Char} (h : ∀ c ∈ text, c.toNat < 0x80) :
    text.flatMap String.utf8EncodeChar = text.map Char.toUInt8 := by
  induction text with
  | nil => rfl
  | cons c text ih =>
    have hsize : c.utf8Size = 1 := by
      have hc : c.toNat < 0x80 := h c List.mem_cons_self
      rw [Char.utf8Size_eq_one_iff, UInt32.le_iff_toNat_le]
      exact Nat.le_of_lt_succ hc
    rw [List.flatMap_cons, List.map_cons, String.utf8EncodeChar_eq_singleton hsize,
      ih fun d hd => h d (List.mem_cons_of_mem c hd)]
    rfl

/-- The terminal reads what the API writes, without the line ends. -/
theorem readFile_atomicWriteText (page : CodePage) {text : List Char}
    (h : ∀ c ∈ text, printable c = true ∨ c = '\n') :
    readFile page (atomicWriteText text) = flat text := by
  have hascii : ∀ c ∈ text.flatMap crlf, c.toNat < 0x80 := by
    intro d hd
    obtain ⟨c, hc, hd⟩ := List.mem_flatMap.mp hd
    rw [crlf] at hd
    split at hd
    · simp only [List.mem_cons, List.not_mem_nil, or_false] at hd
      rcases hd with rfl | rfl <;> decide
    next hline =>
      have hprintable := (h c hc).resolve_right hline
      simp only [printable, Bool.and_eq_true, decide_eq_true_eq] at hprintable
      rw [List.mem_singleton.mp hd]
      omega
  rw [readFile, atomicWriteText, flatMap_utf8EncodeChar hascii, page.decode_ascii _ hascii,
    replacePair_crlf h]

/-- From the file the loader reads the revision and the deployments that are declared. -/
def LoaderReads (page : CodePage) (numerals : Numerals) (interval : Nat) (now : Moment)
    (reg : Registry) : Prop :=
  let json := readFile page (writeDesiredLocked interval now reg)
  jsonNum numerals "revision".toList json = reg.revision ∧
    extractDeployments json = some reg.declared

theorem clean_desired : Clean (desired interval now reg) := by
  have hentry : ∀ item ∈ reg.declared.map entry, Clean item := by
    intro item hitem
    obtain ⟨dep, -, rfl⟩ := List.mem_map.mp hitem
    apply clean_obj
    simp only [List.forall_mem_cons]
    exact ⟨clean_str _, clean_str _, clean_str _, clean_str _, clean_str _, clean_bool _, nofun⟩
  apply clean_obj
  simp only [List.forall_mem_cons]
  exact ⟨clean_num _, clean_num _, clean_str _, clean_num _, clean_arr hentry, nofun⟩

/-- The loader reads deployments with legible texts. -/
theorem loaderReads_of_legible (page : CodePage) (numerals : Numerals)
    (h : ∀ d ∈ reg.deployments, Legible d.declared) (hrev : reg.revision < 2 ^ 63) :
    LoaderReads page numerals interval now reg := by
  have hdeclared : ∀ dep ∈ reg.declared, Legible dep := by
    intro dep hdep
    obtain ⟨d, hd, rfl⟩ := List.mem_map.mp hdep
    exact h d ((List.mem_insertionSort _).mp hd)
  have hread : readFile page (writeDesiredLocked interval now reg) =
      flat (dumps (desired interval now reg)) :=
    readFile_atomicWriteText page (clean_desired 0)
  rw [LoaderReads]
  simp only [hread]
  exact ⟨jsonNum_flat numerals hdeclared hrev, extractDeployments_flat hdeclared⟩

/-! ## Runs -/

/-- An expert's name and a symbol that the loader can read. -/
def Readable (expert symbol : List Char) : Prop :=
  (∀ c ∈ expert ++ symbol, printable c = true) ∧ nests 0 (expert ++ symbol) = some 0 ∧
    (∀ key ∈ ["symbol", "template", "timeframe", "revision"], ¬ Hits key.toList expert) ∧
    ∀ key ∈ ["timeframe", "revision"], ¬ Hits key.toList symbol

instance (expert symbol : List Char) : Decidable (Readable expert symbol) :=
  inferInstanceAs (Decidable (_ ∧ _))

/-- A request that adds, if it adds any, a deployment with a readable name and symbol, while the
revision is one of a `long`. -/
def MeetsReader (casing : Casing) (reg : Registry) (label : Host × Request) : Prop :=
  reg.revision + 2 < 2 ^ 63 ∧
    ∀ body draft, label.2 = .create body → acceptCreate casing label.1 body = .ok draft →
      checkAdd casing reg draft = none → Readable draft.expertName draft.symbol

/-- The characters of an id. -/
theorem mem_newId {random : UInt32} {c : Char} (hc : c ∈ newId random) :
    c ≠ '"' ∧ c ≠ '{' ∧ c ≠ '}' ∧ printable c = true := by
  have hdigit : ∀ n < 16, hexDigit n ≠ '"' ∧ hexDigit n ≠ '{' ∧ hexDigit n ≠ '}' ∧
      printable (hexDigit n) = true := by decide
  have hlit : ∀ c ∈ "dep_".toList, c ≠ '"' ∧ c ≠ '{' ∧ c ≠ '}' ∧ printable c = true := by decide
  rcases List.mem_append.mp hc with hc | hc
  · exact hlit c hc
  · obtain ⟨i, -, rfl⟩ := List.mem_map.mp hc
    exact hdigit _ (Nat.mod_lt _ (by decide))

theorem mem_tplRelativeName {random : UInt32} {c : Char} (hc : c ∈ tplRelativeName (newId random)) :
    c ≠ '"' ∧ c ≠ '{' ∧ c ≠ '}' ∧ printable c = true := by
  have hlit : ∀ c ∈ "\\Files\\chartctl\\".toList ++ ".tpl".toList,
      c ≠ '"' ∧ c ≠ '{' ∧ c ≠ '}' ∧ printable c = true := by decide
  rcases List.mem_append.mp hc with hc | hc
  · rcases List.mem_append.mp hc with hc | hc
    · exact hlit c (List.mem_append_left _ hc)
    · exact mem_newId hc
  · exact hlit c (List.mem_append_right _ hc)

/-- A string without quotes that is not the key. -/
theorem not_hits {key s : List Char} (hquote : '"' ∉ s) (hne : s ≠ key) : ¬ Hits key s := by
  rintro (rfl | hsuffix)
  · exact hne rfl
  · exact hquote (hsuffix.subset List.mem_cons_self)

theorem legible_of_readable {casing : Casing} {host : Host} {body : CreateRequest} {draft : Draft}
    (haccept : acceptCreate casing host body = .ok draft)
    (h : Readable draft.expertName draft.symbol) :
    Legible (draft.deployment host).declared := by
  obtain ⟨hprintable, hnests, hexpert, hsymbol⟩ := h
  have htimeframe := timeframe_of_checkCreate (checkCreate_of_accept haccept)
  have hframes : ∀ s ∈ validTimeframes, (∀ c ∈ s, printable c = true) ∧ ('{' ∉ s ∧ '}' ∉ s) ∧
      ¬ Hits "revision".toList s := by decide
  obtain ⟨hframe, hbrace, hmiss⟩ := hframes _ htimeframe
  refine ⟨?_, hnests, ?_, ?_, hexpert, ?_, hsymbol, ?_, hmiss⟩
  · simp only [List.forall_mem_cons]
    exact ⟨fun c hc => hprintable c (List.mem_append_left _ hc), fun c hc => (mem_newId hc).2.2.2,
      fun c hc => hprintable c (List.mem_append_right _ hc),
      fun c hc => (mem_tplRelativeName hc).2.2.2, hframe, nofun⟩
  · simp only [List.forall_mem_cons]
    exact ⟨⟨fun hc => (mem_newId hc).2.1 rfl, fun hc => (mem_newId hc).2.2.1 rfl⟩,
      ⟨fun hc => (mem_tplRelativeName hc).2.1 rfl, fun hc => (mem_tplRelativeName hc).2.2.1 rfl⟩,
      hbrace, nofun⟩
  · exact List.cons_ne_nil _ _
  · intro key hkey
    have hhead : ∀ key ∈ ["symbol", "template", "timeframe", "revision"],
        key.toList.head? ≠ some 'd' := by decide
    refine not_hits (fun hc => (mem_newId hc).1 rfl) fun heq => hhead key hkey ?_
    rw [← heq]
    rfl
  · exact not_hits (fun hc => (mem_tplRelativeName hc).1 rfl)
      fun heq => absurd (congrArg List.head? heq) (by
        show some '\\' ≠ some 'r'
        decide)

/-- In every state that requests lead to which the loader can read, it reads from `desired.json` the
revision and the deployments of the registry, in order. -/
theorem reads_desired (casing : Casing) (page : CodePage) (numerals : Numerals) (interval : Nat)
    (now : Moment) {reg : Registry}
    (h : RunOf (step casing) (MeetsReader casing) emptyState reg) :
    LoaderReads page numerals interval now reg := by
  have hinv : (∀ d ∈ reg.deployments, Legible d.declared) ∧ reg.revision < 2 ^ 63 := by
    refine h.invariant (P := fun reg => (∀ d ∈ reg.deployments, Legible d.declared) ∧
      reg.revision < 2 ^ 63) ?_ ⟨nofun, by decide⟩
    rintro reg label after ⟨hlegible, -⟩ ⟨hrev, hcreate⟩ hstep
    obtain rfl := Option.some.inj hstep
    have hupdate : ∀ (d : Deployment) changes now, Legible d.declared →
        Legible (d.update changes now).declared := fun d changes now hd =>
      ⟨hd.printable, hd.nests, hd.braceless, hd.id_ne_nil, hd.expert_misses, hd.id_misses,
        hd.symbol_misses, hd.templ_misses, hd.timeframe_misses⟩
    obtain ⟨hkept, hnext⟩ : _ ∧ (handle casing label.1 reg label.2).revision ≤ reg.revision + 2 :=
      handle_forall (P := fun d => Legible d.declared) hlegible hupdate
        fun body draft hbody haccept hadd =>
          legible_of_readable haccept (hcreate body draft hbody haccept hadd)
    exact ⟨hkept, by omega⟩
  exact loaderReads_of_legible page numerals hinv.1 hinv.2

/-- The code page of Latin-1. -/
def latin1 : CodePage where
  decode bytes := bytes.map fun b => Char.ofNat b.toNat
  decode_ascii text h := by
    rw [List.map_map]
    refine (List.map_congr_left fun c hc => ?_).trans (List.map_id text)
    have hmod : c.toUInt8.toNat = c.toNat := Nat.mod_eq_of_lt (Nat.lt_trans (h c hc) (by decide))
    simp only [Function.comp_apply, hmod, id, Char.ofNat_toNat]

/-- Decimals. -/
def decimals : Numerals where
  stringToInteger text := (Nat.ofDigitChars 10 text 0 : Nat)
  decimal _ _ := congrArg Nat.cast Nat.ofDigitChars_ten_toDigits

theorem reads_desired_created :
    LoaderReads latin1 decimals 5 openHost.now (handle asciiCasing openHost emptyState
      (.create ⟨"ea.ex5".toList, none, "EURUSD".toList, "m5".toList, true⟩)) := by
  refine reads_desired asciiCasing latin1 decimals 5 openHost.now
    (RunOf.refl.tail (a := (openHost, .create ⟨"ea.ex5".toList, none, "EURUSD".toList,
      "m5".toList, true⟩)) ⟨by decide, ?_⟩ rfl)
  intro body draft hbody haccept _
  obtain rfl := Request.create.inj hbody
  have hdraft : acceptCreate asciiCasing openHost ⟨"ea.ex5".toList, none, "EURUSD".toList,
      "m5".toList, true⟩ = .ok ⟨"ea.ex5".toList, "ea".toList, none, "EURUSD".toList, "M5".toList,
        true⟩ := by rfl
  rw [← Except.ok.inj (hdraft.symm.trans haccept)]
  decide

/-- A deployment is not found whose expert has a brace that closes in its name. -/
theorem not_loaderReads :
    ¬ ∀ (casing : Casing) (page : CodePage) (numerals : Numerals) (interval : Nat) (now : Moment)
      (reg : Registry), Run (step casing) emptyState reg →
        LoaderReads page numerals interval now reg := by
  intro h
  have hread := (h asciiCasing latin1 decimals 5 openHost.now _ (RunOf.refl.tail
    (a := (openHost, .create ⟨"\x7dx.ex5".toList, none, "EURUSD".toList, "m5".toList, true⟩))
    trivial rfl)).2
  revert hread
  decide +kernel

end ChartCtl

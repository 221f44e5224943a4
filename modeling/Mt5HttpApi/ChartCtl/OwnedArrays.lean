import Mt5HttpApi.ChartCtl.ObservedText
import Mt5HttpApi.Lib.Columns

/-!
# The arrays and the file of the ownership map

`m_own_charts` and `m_own_ids` with `Claim`, `Release` and `PruneOwnership` as they go over them,
and `owned.json`, which `SaveOwnership` writes and `LoadOwnership` reads back.

* `OwnMap.Sound`: the arrays and the file hold the same kind of rows, in which no chart and no
  deployment occurs twice.
* `owned_represented`: in every sequence of calls nothing is read or written outside of an array,
  the arrays stay such, a claim does what it is meant to, and what was saved is loaded.
* `represents_claim` and the theorems beside it: the arrays do what `Ownership` does.
-/

namespace ChartCtl

open Columns JsonText Transition

/-! ## The source -/

/-- `IntegerToString`. -/
def integerToString : Int → List Char
  | .ofNat n => Nat.toDigits 10 n
  | .negSucc n => '-' :: Nat.toDigits 10 (n + 1)

/-- `StringToInteger`, for negative numbers as well. -/
structure SignedNumerals extends Numerals where
  negative : ∀ n ≤ 2 ^ 63, stringToInteger ('-' :: Nat.toDigits 10 n) = -n

/-- An entry of `owned.json`. -/
def ownedEntry (chart : Int) (id : List Char) : List Char :=
  "\x7b\"chart_id\":".toList ++ integerToString chart ++ ",\"deployment_id\":\"".toList ++
    jsonEscape id ++ "\"\x7d".toList

/-- The text of `owned.json`. It takes an id for each chart. -/
def ownedText (own : Table Int (List Char)) : Option (List Char) :=
  if own.keys.length ≤ own.vals.length then
    some ("\x7b\"owned\":[".toList ++
      [','].intercalate (List.zipWith ownedEntry own.keys own.vals) ++ "]\x7d".toList)
  else none

/-- What the loop of `LoadOwnership` carries: the depth of braces, the text since `obj_start` when
there is one, and the arrays. -/
structure LoadScan where
  depth : Int
  obj : Option (List Char)
  own : Table Int (List Char)

/-- An entry that has a chart and a deployment is taken. -/
def takeEntry (numerals : Numerals) (obj : List Char) (own : Table Int (List Char)) :
    Option (Table Int (List Char)) :=
  let chart := jsonNum numerals "chart_id".toList obj
  let id := jsonStr "deployment_id".toList [] obj
  if chart ≠ 0 ∧ id ≠ [] then own.push chart id else some own

/-- The loop of `LoadOwnership`. -/
def loadScan (numerals : Numerals) : LoadScan → List Char → Option (Table Int (List Char))
  | s, [] => some s.own
  | s, c :: text =>
    let obj := s.obj.map (· ++ [c])
    if c = '{' then
      loadScan numerals
        { s with depth := s.depth + 1, obj := if s.depth + 1 = 2 then some [c] else obj } text
    else if c = '}' then
      match obj with
      | some entry =>
        if s.depth = 2 then
          (takeEntry numerals entry s.own).bind fun own =>
            loadScan numerals ⟨s.depth - 1, none, own⟩ text
        else loadScan numerals { s with depth := s.depth - 1, obj := some entry } text
      | none => loadScan numerals { s with depth := s.depth - 1, obj := none } text
    else loadScan numerals { s with obj := obj } text

/-- The arrays, `m_restored_ids` and `owned.json`. The table is dirty when `m_own_dirty` is set. -/
structure OwnMap where
  own : Table Int (List Char)
  restored : List (List Char)
  file : Option (List UInt8)

namespace OwnMap

/-- An empty map, before it was saved. -/
def empty : OwnMap := ⟨⟨[], [], false⟩, [], none⟩

/-- `SaveOwnership`. -/
def saveOwnership (page : AnsiPage) (writes : Bool) (m : OwnMap) : Option OwnMap := do
  let text ← ownedText m.own
  if writes then
    some { m with own := { m.own with dirty := false }, file := some (page.bytes text) }
  else some m

/-- `LoadOwnership`. -/
def loadOwnership (read : CodePage) (numerals : Numerals) (opens : Bool) (m : OwnMap) :
    Option OwnMap :=
  let cleared : Table Int (List Char) := ⟨[], [], m.own.dirty⟩
  match m.file with
  | some file =>
    if opens then do
      let own ← loadScan numerals ⟨0, none, cleared⟩ (readFile read file)
      some { m with own := own, restored := own.vals }
    else some { m with own := cleared, restored := [] }
  | none => some { m with own := cleared, restored := [] }

/-- The test of `Claim` at an index. -/
def names (chart : Int) (id : List Char) (own : Table Int (List Char)) (i : ℕ) : Option Bool := do
  let c ← own.keys[i]?
  if c = chart then some true
  else
    let d ← own.vals[i]?
    some (d = id)

/-- `Claim`. -/
def claim (page : AnsiPage) (chart : Int) (id : List Char) (writes : Bool) (m : OwnMap) :
    Option OwnMap := do
  let own ← Table.sweep (names chart id) m.own.keys.length m.own
  let own ← own.push chart id
  saveOwnership page writes { m with own := { own with dirty := true } }

/-- `Release`. -/
def release (chart : Int) (m : OwnMap) : Option OwnMap := do
  let own ← m.own.remove chart
  some { m with own := own }

/-- The test of `PruneOwnership` at an index. -/
def closed (charts : List Int) (own : Table Int (List Char)) (i : ℕ) : Option Bool := do
  let c ← own.keys[i]?
  some (c ∉ charts)

/-- `PruneOwnership`. -/
def pruneOwnership (page : AnsiPage) (charts : List Int) (writes : Bool) (m : OwnMap) :
    Option OwnMap := do
  let own ← Table.sweep (closed charts) m.own.keys.length m.own
  if own.dirty then saveOwnership page writes { m with own := own } else some { m with own := own }

end OwnMap

/-- The calls. A write may fail, and so may a read. -/
inductive OwnCall
  | claim (chart : Int) (id : List Char) (writes : Bool)
  | release (chart : Int)
  | prune (charts : List Int) (writes : Bool)
  | save (writes : Bool)
  | load (opens : Bool)

/-- A chart id is a `long` other than 0, and a deployment's id is one that `new_id` makes. -/
def OwnCall.Valid : OwnCall → Prop
  | .claim chart id _ =>
    chart ≠ 0 ∧ -2 ^ 63 ≤ chart ∧ chart < 2 ^ 63 ∧ ∃ random, id = newId random
  | _ => True

/-- One call, if it reads and writes in the arrays only. -/
def OwnMap.step (page : AnsiPage) (read : CodePage) (numerals : Numerals) (m : OwnMap) :
    OwnCall → Option OwnMap
  | .claim chart id writes => m.claim page chart id writes
  | .release chart => m.release chart
  | .prune charts writes => m.pruneOwnership page charts writes
  | .save writes => m.saveOwnership page writes
  | .load opens => m.loadOwnership read numerals opens

/-! ## Rows -/

/-- The row of a chart and a deployment. -/
def GoodRow (row : Int × List Char) : Prop :=
  row.1 ≠ 0 ∧ -2 ^ 63 ≤ row.1 ∧ row.1 < 2 ^ 63 ∧ ∃ random, row.2 = newId random

/-- No chart and no deployment occurs twice. -/
structure GoodRows (rows : List (Int × List Char)) : Prop where
  good : ∀ row ∈ rows, GoodRow row
  charts : (rows.map Prod.fst).Nodup
  ids : (rows.map Prod.snd).Nodup

variable {rows rows' : List (Int × List Char)} {chart : Int} {id : List Char}

theorem goodRows_nil : GoodRows [] :=
  ⟨fun _ h => absurd h List.not_mem_nil, List.nodup_nil, List.nodup_nil⟩

/-- Some of the rows, in any order. -/
theorem GoodRows.filter (h : GoodRows rows) {p : Int × List Char → Bool}
    (hperm : List.Perm rows' (rows.filter p)) : GoodRows rows' where
  good row hrow := h.good row (List.mem_filter.mp (hperm.mem_iff.mp hrow)).1
  charts := by
    rw [(hperm.map Prod.fst).nodup_iff]
    exact (List.filter_sublist.map Prod.fst).nodup h.charts
  ids := by
    rw [(hperm.map Prod.snd).nodup_iff]
    exact (List.filter_sublist.map Prod.snd).nodup h.ids

/-- A row whose chart and deployment have none yet. -/
theorem GoodRows.append (h : GoodRows rows) (hrow : GoodRow (chart, id))
    (hnew : ∀ row ∈ rows, row.1 ≠ chart ∧ row.2 ≠ id) : GoodRows (rows ++ [(chart, id)]) where
  good row hmem := by
    rcases List.mem_append.mp hmem with hmem | hmem
    · exact h.good row hmem
    · rwa [List.mem_singleton.mp hmem]
  charts := by
    rw [List.map_append, List.nodup_append]
    refine ⟨h.charts, List.nodup_singleton _, fun c hc d hd heq => ?_⟩
    obtain ⟨row, hmem, rfl⟩ := List.mem_map.mp hc
    exact (hnew row hmem).1 (heq.trans (by simpa using hd))
  ids := by
    rw [List.map_append, List.nodup_append]
    refine ⟨h.ids, List.nodup_singleton _, fun c hc d hd heq => ?_⟩
    obtain ⟨row, hmem, rfl⟩ := List.mem_map.mp hc
    exact (hnew row hmem).2 (heq.trans (by simpa using hd))

/-! ## The file -/

/-- The text of `owned.json` with these rows. -/
def rowsText (rows : List (Int × List Char)) : List Char :=
  "\x7b\"owned\":[".toList ++
    [','].intercalate (rows.map fun row => ownedEntry row.1 row.2) ++ "]\x7d".toList

theorem ownedText_ofRows (dirty : Bool) (rows : List (Int × List Char)) :
    ownedText (Table.ofRows dirty rows) = some (rowsText rows) := by
  have hlength : (Table.ofRows dirty rows).keys.length ≤ (Table.ofRows dirty rows).vals.length := by
    rw [Table.keys_ofRows, Table.vals_ofRows, List.length_map, List.length_map]
  have hzip : List.zipWith ownedEntry (rows.map Prod.fst) (rows.map Prod.snd) =
      rows.map fun row => ownedEntry row.1 row.2 := by
    rw [List.zipWith_map, List.zipWith_self]
  rw [ownedText, if_pos hlength, Table.keys_ofRows, Table.vals_ofRows, hzip]
  unfold rowsText
  rfl

/-- What a number is written with. -/
theorem mem_integerToString {n : Int} {c : Char} (hc : c ∈ integerToString n) :
    c.isDigit = true ∨ c = '-' := by
  cases n with
  | ofNat n => exact Or.inl (Nat.isDigit_of_mem_toDigits (by decide) (by decide) hc)
  | negSucc n =>
    rcases List.mem_cons.mp hc with rfl | hc
    · exact Or.inr rfl
    · exact Or.inl (Nat.isDigit_of_mem_toDigits (by decide) (by decide) hc)

theorem numeral_of_mem {n : Int} {c : Char} (hc : c ∈ integerToString n) : numeral c = true := by
  rcases mem_integerToString hc with hdigit | rfl
  · exact numeral_of_isDigit hdigit
  · rfl

theorem integerToString_ne_nil (n : Int) : integerToString n ≠ [] := by
  cases n with
  | ofNat n => exact Nat.toDigits_ne_nil
  | negSucc n => exact List.cons_ne_nil _ _

/-- A `long` is read back. -/
theorem stringToInteger_integerToString (numerals : SignedNumerals) {n : Int}
    (hmin : -2 ^ 63 ≤ n) (hmax : n < 2 ^ 63) :
    numerals.stringToInteger (integerToString n) = n := by
  cases n with
  | ofNat n => exact numerals.decimal n (by simpa using hmax)
  | negSucc n =>
    rw [integerToString, numerals.negative (n + 1) (by omega)]
    rfl

/-- The characters of an id are written as they are. -/
theorem plain_of_mem_newId {random : UInt32} {c : Char} (hc : c ∈ newId random) :
    plain c = true ∧ special c = false := by
  have hdigit : ∀ n < 16, plain (hexDigit n) = true ∧ special (hexDigit n) = false := by decide
  have hlit : ∀ c ∈ "dep_".toList, plain c = true ∧ special c = false := by decide
  rcases List.mem_append.mp hc with hc | hc
  · exact hlit c hc
  · obtain ⟨i, -, rfl⟩ := List.mem_map.mp hc
    exact hdigit _ (Nat.mod_lt _ (by decide))

/-- The strings of an entry. -/
def ownedTokens (chart : Int) (id : List Char) : List Token :=
  [⟨"chart_id".toList, ':' :: (integerToString chart ++ [','])⟩, ⟨"deployment_id".toList, [':']⟩,
    ⟨id, []⟩]

/-- An entry as a text of strings. -/
theorem ownedEntry_eq (h : GoodRow (chart, id)) :
    ownedEntry chart id = '{' :: (render (ownedTokens chart id) ++ ['}']) := by
  obtain ⟨-, -, -, random, hid⟩ := h
  obtain rfl : id = newId random := hid
  have hescape : jsonEscape (newId random) = newId random :=
    jsonEscape_of_not fun c hc => (plain_of_mem_newId hc).2
  have hquote : quote (newId random) = '"' :: (newId random ++ ['"']) := by
    rw [quote, escape_of_plain fun c hc => (plain_of_mem_newId hc).1]
    rfl
  have hchart : "\x7b\"chart_id\":".toList = '{' :: (quote "chart_id".toList ++ [':']) := by
    decide +kernel
  have hdep : ",\"deployment_id\":\"".toList =
      ',' :: (quote "deployment_id".toList ++ [':', '"']) := by decide +kernel
  have hend : "\"\x7d".toList = ['"', '}'] := by decide
  unfold ownedEntry ownedTokens
  rw [hescape, hchart, hdep, hend, render_cons, render_cons, render_cons,
    render_nil, hquote]
  simp only [List.append_assoc, List.cons_append, List.nil_append, List.append_nil]

theorem quote_not_mem_integerToString (n : Int) : '"' ∉ integerToString n := by
  intro hc
  rcases mem_integerToString hc with hdigit | hminus
  · cases hdigit
  · cases hminus

/-- The text after the chart of an entry up to the next string. -/
theorem apart_chart (chart : Int) : '"' ∉ ':' :: (integerToString chart ++ [',']) := by
  simp [quote_not_mem_integerToString]

/-- The chart of an entry. -/
theorem jsonNum_ownedEntry (numerals : SignedNumerals) (h : GoodRow (chart, id)) :
    jsonNum numerals.toNumerals "chart_id".toList (ownedEntry chart id) = chart := by
  let rest := render [⟨"deployment_id".toList, [':']⟩, ⟨id, []⟩] ++ ['}']
  have htext : ownedEntry chart id = ['{'] ++ (render [] ++ (quote "chart_id".toList ++
      (':' :: (integerToString chart ++ [',']) ++ rest))) := by
    rw [ownedEntry_eq h, ownedTokens, render_cons, List.append_assoc, List.append_assoc]
    rfl
  have hafter : after ('"' :: ("chart_id".toList ++ ['"'])) (ownedEntry chart id) =
      some (':' :: (integerToString chart ++ [',']) ++ rest) := by
    rw [htext, after_append (by decide)]
    exact after_tokens_of_hit (t := ⟨"chart_id".toList, ':' :: (integerToString chart ++ [','])⟩)
      (by decide) (by simp) (by simp) ⟨apart_chart chart, ':', _, rfl, by decide⟩ (Or.inl rfl)
  have hfind : findValue "chart_id".toList (ownedEntry chart id) =
      some (integerToString chart ++ (',' :: rest)) := by
    rw [findValue, hafter, Option.bind_some, List.cons_append, List.append_assoc]
    exact after_singleton List.not_mem_nil _
  have hdrop : (integerToString chart ++ (',' :: rest)).dropWhile (fun c => !numeral c) =
      integerToString chart ++ (',' :: rest) := by
    obtain ⟨c, more, hc⟩ := List.exists_cons_of_ne_nil (integerToString_ne_nil chart)
    have hfirst : numeral c = true := numeral_of_mem (hc ▸ List.mem_cons_self)
    rw [hc, List.cons_append, List.dropWhile_cons_of_neg (by simp [hfirst])]
  have htake : (integerToString chart ++ (',' :: rest)).takeWhile numeral =
      integerToString chart := by
    rw [List.takeWhile_append_of_pos fun c hc => numeral_of_mem hc,
      List.takeWhile_cons_of_neg (by decide), List.append_nil]
  obtain ⟨-, hmin, hmax, -⟩ := h
  simp only [jsonNum, hfind, hdrop, htake]
  exact stringToInteger_integerToString numerals hmin hmax

/-- The deployment of an entry. -/
theorem jsonStr_ownedEntry (h : GoodRow (chart, id)) :
    jsonStr "deployment_id".toList [] (ownedEntry chart id) = id := by
  have hprintable : ∀ c ∈ id, printable c = true := by
    obtain ⟨-, -, -, random, hid⟩ := h
    obtain rfl : id = newId random := hid
    exact fun c hc => (mem_newId hc).2.2.2
  have htext : ownedEntry chart id = ['{'] ++ (render [⟨"chart_id".toList,
      ':' :: (integerToString chart ++ [','])⟩] ++ (quote "deployment_id".toList ++
        ([':'] ++ (quote id ++ ['}'])))) := by
    rw [ownedEntry_eq h, ownedTokens, render_cons, render_cons, render_cons, render_cons,
      render_nil]
    simp only [List.append_assoc, List.cons_append, List.nil_append, List.append_nil]
  have hafter : after ('"' :: ("deployment_id".toList ++ ['"'])) (ownedEntry chart id) =
      some ([':'] ++ (quote id ++ ['}'])) := by
    rw [htext, after_append (by decide)]
    refine after_tokens_of_hit (t := ⟨"deployment_id".toList, [':']⟩) (by decide) ?_ ?_
      ⟨by decide, ':', [], rfl, by decide⟩ (Or.inl rfl)
    · intro t ht
      rw [List.mem_singleton.mp ht]
      exact ⟨apart_chart chart, ':', _, rfl, by decide⟩
    · intro t ht
      rw [List.mem_singleton.mp ht]
      show ¬ Hits "deployment_id".toList "chart_id".toList
      decide
  have hcolon : after [':'] ([':'] ++ (quote id ++ ['}'])) = some (quote id ++ ['}']) :=
    after_singleton List.not_mem_nil _
  have hquote : after ['"'] (quote id ++ ['}']) = some (escape id ++ '"' :: ['}']) := by
    have hopen : quote id ++ ['}'] = '"' :: (escape id ++ '"' :: ['}']) := by simp [quote]
    rw [hopen]
    exact after_singleton List.not_mem_nil _
  have hfind : (findValue "deployment_id".toList (ownedEntry chart id)).bind (after ['"']) =
      some (escape id ++ '"' :: ['}']) := by
    rw [findValue, hafter, Option.bind_some, hcolon, Option.bind_some, hquote]
  simp only [jsonStr, hfind]
  exact unescape_escape hprintable _

/-- An entry's text between its braces has none. -/
theorem brace_not_mem (h : GoodRow (chart, id)) {brace : Char}
    (hbrace : brace = '{' ∨ brace = '}') : brace ∉ render (ownedTokens chart id) := by
  obtain ⟨-, -, -, random, hid⟩ := h
  obtain rfl : id = newId random := hid
  have hnumber : brace ∉ integerToString chart := by
    intro hc
    rcases hbrace with rfl | rfl
    · rcases mem_integerToString hc with hdigit | hminus
      · cases hdigit
      · cases hminus
    · rcases mem_integerToString hc with hdigit | hminus
      · cases hdigit
      · cases hminus
  have hid : brace ∉ quote (newId random) := by
    rw [quote, escape_of_plain fun c hc => (plain_of_mem_newId hc).1]
    intro hc
    rcases List.mem_append.mp hc with hc | hc
    · rcases List.mem_cons.mp hc with rfl | hc
      · revert hbrace
        decide
      · exact hbrace.elim (mem_newId hc).2.1 (mem_newId hc).2.2.1
    · rw [List.mem_singleton.mp hc] at hbrace
      revert hbrace
      decide
  have hlit : ∀ b : Char, b = '{' ∨ b = '}' → b ∉ quote "chart_id".toList ∧
      b ∉ quote "deployment_id".toList ∧ b ≠ ':' ∧ b ≠ ',' := by
    rintro b (rfl | rfl) <;> decide +kernel
  obtain ⟨hchart, hdep, hcolon, hcomma⟩ := hlit brace hbrace
  simp only [ownedTokens, render_cons, render_nil, List.mem_append, List.mem_cons,
    List.not_mem_nil, hchart, hdep, hid, hnumber, hcolon, hcomma, or_self, not_false_eq_true]

section Load

variable {numerals : Numerals} {depth : Int} {obj text rest : List Char}
  {own : Table Int (List Char)}

/-- Text between the entries is passed over. -/
theorem loadScan_gap (hopen : '{' ∉ text) (hclose : '}' ∉ text) :
    loadScan numerals ⟨depth, none, own⟩ (text ++ rest) =
      loadScan numerals ⟨depth, none, own⟩ rest := by
  induction text with
  | nil => rfl
  | cons c text ih =>
    have hc : c ≠ '{' ∧ c ≠ '}' :=
      ⟨fun hc => hopen (hc ▸ List.mem_cons_self), fun hc => hclose (hc ▸ List.mem_cons_self)⟩
    rw [List.cons_append, loadScan, if_neg hc.1, if_neg hc.2]
    exact ih (fun h => hopen (List.mem_cons_of_mem c h)) fun h => hclose (List.mem_cons_of_mem c h)

/-- Text within an entry is collected. -/
theorem loadScan_body (hopen : '{' ∉ text) (hclose : '}' ∉ text) :
    loadScan numerals ⟨depth, some obj, own⟩ (text ++ rest) =
      loadScan numerals ⟨depth, some (obj ++ text), own⟩ rest := by
  induction text generalizing obj with
  | nil => rw [List.nil_append, List.append_nil]
  | cons c text ih =>
    have hc : c ≠ '{' ∧ c ≠ '}' :=
      ⟨fun hc => hopen (hc ▸ List.mem_cons_self), fun hc => hclose (hc ▸ List.mem_cons_self)⟩
    rw [List.cons_append, loadScan, if_neg hc.1, if_neg hc.2, Option.map_some,
      ih (fun h => hopen (List.mem_cons_of_mem c h)) fun h => hclose (List.mem_cons_of_mem c h),
      List.append_assoc, List.singleton_append]

end Load

/-- An entry is loaded. -/
theorem loadScan_entry (numerals : SignedNumerals) (dirty : Bool)
    (done : List (Int × List Char)) (h : GoodRow (chart, id)) (rest : List Char) :
    loadScan numerals.toNumerals ⟨1, none, Table.ofRows dirty done⟩ (ownedEntry chart id ++ rest) =
      loadScan numerals.toNumerals ⟨1, none, Table.ofRows dirty (done ++ [(chart, id)])⟩ rest := by
  have hid : id ≠ [] := by
    obtain ⟨-, -, -, random, hid⟩ := h
    obtain rfl : id = newId random := hid
    exact List.cons_ne_nil _ _
  have htake : takeEntry numerals.toNumerals (ownedEntry chart id) (Table.ofRows dirty done) =
      some (Table.ofRows dirty (done ++ [(chart, id)])) := by
    rw [takeEntry, jsonNum_ownedEntry numerals h, jsonStr_ownedEntry h, if_pos ⟨h.1, hid⟩]
    exact Table.push_ofRows chart id
  have htext : ['{'] ++ render (ownedTokens chart id) ++ ['}'] = ownedEntry chart id := by
    rw [ownedEntry_eq h]
    rfl
  rw [ownedEntry_eq h, List.cons_append, List.append_assoc, loadScan, if_pos rfl]
  dsimp only
  rw [if_pos (by decide),
    loadScan_body (brace_not_mem h (Or.inl rfl)) (brace_not_mem h (Or.inr rfl)),
    List.singleton_append (l := rest), loadScan, if_neg (by decide), if_pos rfl, Option.map_some]
  dsimp only
  rw [if_pos (by decide), htext, htake]
  rfl

theorem loadScan_entries (numerals : SignedNumerals) (dirty : Bool)
    (done : List (Int × List Char)) (h : ∀ row ∈ rows, GoodRow row) (rest : List Char) :
    loadScan numerals.toNumerals ⟨1, none, Table.ofRows dirty done⟩
        ([','].intercalate (rows.map fun row => ownedEntry row.1 row.2) ++ rest) =
      loadScan numerals.toNumerals ⟨1, none, Table.ofRows dirty (done ++ rows)⟩ rest := by
  induction rows generalizing done with
  | nil => rw [List.map_nil, List.append_nil]; rfl
  | cons row rows ih =>
    have hrow := h row List.mem_cons_self
    have hrest := fun r hr => h r (List.mem_cons_of_mem row hr)
    cases rows with
    | nil =>
      rw [List.map_cons, List.map_nil, List.intercalate_singleton]
      exact loadScan_entry numerals dirty done hrow rest
    | cons next rows =>
      have hnext := ih (done ++ [row]) hrest
      rw [List.map_cons] at hnext
      rw [List.map_cons, List.map_cons, List.intercalate_cons_cons, List.append_assoc,
        List.append_assoc, loadScan_entry numerals dirty done hrow,
        loadScan_gap (by decide) (by decide), hnext, List.append_assoc, List.singleton_append]

/-- What was saved is loaded, row by row. -/
theorem loadScan_rowsText (numerals : SignedNumerals) (dirty : Bool)
    (h : ∀ row ∈ rows, GoodRow row) :
    loadScan numerals.toNumerals ⟨0, none, ⟨[], [], dirty⟩⟩ (rowsText rows) =
      some (Table.ofRows dirty rows) := by
  have hopening : "\x7b\"owned\":[".toList = '{' :: "\"owned\":[".toList := by decide
  have hclosing : "]\x7d".toList = [']'] ++ ['}'] := by decide
  have hentries := loadScan_entries numerals dirty [] h "]\x7d".toList
  unfold rowsText
  rw [hopening, List.append_assoc, List.cons_append, loadScan, if_pos rfl]
  dsimp only
  rw [if_neg (by decide), Option.map_none, loadScan_gap (by decide) (by decide)]
  refine hentries.trans ?_
  rw [hclosing, loadScan_gap (by decide) (by decide), loadScan, if_neg (by decide), if_pos rfl]
  rfl

/-- The text is of printable characters of ASCII. -/
theorem printable_rowsText (h : ∀ row ∈ rows, GoodRow row) :
    ∀ c ∈ rowsText rows, printable c = true := by
  have hnumber : ∀ n, ∀ c ∈ integerToString n, printable c = true := by
    intro n c hc
    rcases mem_integerToString hc with hdigit | rfl
    · exact printable_of_isDigit hdigit
    · decide
  have hentry : ∀ row ∈ rows, ∀ c ∈ ownedEntry row.1 row.2, printable c = true := by
    intro row hrow c hc
    rw [ownedEntry_eq (h row hrow), ownedTokens, render_cons, render_cons, render_cons,
      render_nil] at hc
    simp only [List.mem_cons, List.mem_append, List.not_mem_nil, or_false] at hc
    have hquote : ∀ s, c ∈ quote s → printable c = true :=
      fun s hc => List.all_eq_true.mp (printable_quote s) c hc
    rcases hc with rfl | (hc | (rfl | hc | rfl) | hc | rfl | hc) | rfl
    · rfl
    · exact hquote _ hc
    · rfl
    · exact hnumber _ c hc
    · rfl
    · exact hquote _ hc
    · rfl
    · exact hquote _ hc
    · rfl
  have hlit : ∀ c ∈ "\x7b\"owned\":[".toList ++ "]\x7d".toList, printable c = true := by decide
  unfold rowsText
  intro c hc
  rcases List.mem_append.mp hc with hc | hc
  · rcases List.mem_append.mp hc with hc | hc
    · exact hlit c (List.mem_append_left _ hc)
    · rcases mem_intercalate hc with hc | ⟨text, htext, hc⟩
      · rw [List.mem_singleton.mp hc]
        rfl
      · obtain ⟨row, hrow, rfl⟩ := List.mem_map.mp htext
        exact hentry row hrow c hc
  · exact hlit c (List.mem_append_right _ hc)

/-- Such a text comes through the file. -/
theorem readFile_bytes (page : AnsiPage) (read : CodePage) {text : List Char}
    (h : ∀ c ∈ text, printable c = true) : readFile read (page.bytes text) = text := by
  have hascii : ∀ c ∈ text, c.toNat < 0x80 := by
    intro c hc
    have hprintable := h c hc
    simp only [printable, Bool.and_eq_true, decide_eq_true_eq] at hprintable
    omega
  have hbytes : page.bytes text = text.map Char.toUInt8 := by
    rw [List.map_eq_flatMap]
    exact List.flatMap_congr fun c hc => page.ascii c (hascii c hc)
  have hreturn : '\r' ∉ text := by
    intro hc
    cases h '\r' hc
  rw [readFile, hbytes, read.decode_ascii text hascii, Text.replacePair_of_not_mem hreturn]

/-! ## The calls -/

/-- The arrays hold these rows. -/
def OwnMap.Holds (m : OwnMap) (rows : List (Int × List Char)) : Prop :=
  ∃ dirty, m.own = Table.ofRows dirty rows

/-- In the arrays, and in the file, no chart and no deployment occurs twice. -/
structure OwnMap.Sound (page : AnsiPage) (m : OwnMap) : Prop where
  rows : ∃ rows, GoodRows rows ∧ m.Holds rows
  file : ∀ file ∈ m.file, ∃ rows, GoodRows rows ∧ file = page.bytes (rowsText rows)

namespace OwnMap

variable {page : AnsiPage} {m : OwnMap} {writes : Bool}

theorem Holds.rows_eq (h : m.Holds rows) : m.own.rows = rows := by
  obtain ⟨dirty, hown⟩ := h
  rw [hown, Table.rows_ofRows]

/-- The test of `Claim`. -/
theorem hits_names (chart : Int) (id : List Char) :
    Table.Hits (names chart id) fun row => row.1 = chart ∨ row.2 = id := by
  intro dirty rows i row hrow
  rw [names, Table.keys_ofRows, Table.vals_ofRows, List.getElem?_map, List.getElem?_map, hrow]
  by_cases hchart : row.1 = chart
  · simp [hchart]
  · simp [hchart]

/-- The test of `PruneOwnership`. -/
theorem hits_closed (charts : List Int) :
    Table.Hits (closed charts) fun row => row.1 ∉ charts := by
  intro dirty rows i row hrow
  rw [closed, Table.keys_ofRows, List.getElem?_map, hrow]
  rfl

/-- The rows are saved, or the file stays. -/
theorem saveOwnership_spec (h : m.Holds rows) (page : AnsiPage) (writes : Bool) :
    ∃ m', m.saveOwnership page writes = some m' ∧ m'.Holds rows ∧
      m'.file = if writes then some (page.bytes (rowsText rows)) else m.file := by
  obtain ⟨dirty, hown⟩ := h
  rw [saveOwnership, hown, ownedText_ofRows]
  cases writes with
  | true => exact ⟨_, rfl, ⟨false, rfl⟩, rfl⟩
  | false => exact ⟨m, rfl, ⟨dirty, hown⟩, rfl⟩

/-- The rows that name the chart or the deployment go, and theirs comes. -/
theorem claim_spec (hgood : GoodRows rows) (h : m.Holds rows) (page : AnsiPage) (chart : Int)
    (id : List Char) (writes : Bool) :
    ∃ m' rows', List.Perm rows' (rows.filter fun row => !decide (row.1 = chart ∨ row.2 = id)) ∧
      m.claim page chart id writes = some m' ∧ m'.Holds (rows' ++ [(chart, id)]) ∧
      m'.file = if writes then some (page.bytes (rowsText (rows' ++ [(chart, id)])))
        else m.file := by
  obtain ⟨dirty, hown⟩ := h
  obtain ⟨dirty', rows', hperm, hsweep⟩ :=
    Table.sweep_all (hits_names chart id) dirty hgood.charts
  have hclaimed : OwnMap.Holds { m with own := { Table.ofRows dirty' (rows' ++ [(chart, id)]) with
      dirty := true } } (rows' ++ [(chart, id)]) := ⟨true, rfl⟩
  obtain ⟨m', hsave, hholds, hfile⟩ := saveOwnership_spec hclaimed page writes
  refine ⟨m', rows', hperm, ?_, hholds, hfile⟩
  rw [claim, hown, hsweep, Option.bind_eq_bind, Option.bind_some, Table.push_ofRows]
  exact hsave

/-- The row of the chart goes. -/
theorem release_spec (hgood : GoodRows rows) (h : m.Holds rows) (chart : Int) :
    ∃ m' rows', List.Perm rows' (rows.filter fun row => decide (row.1 ≠ chart)) ∧
      m.release chart = some m' ∧ m'.Holds rows' ∧ m'.file = m.file := by
  obtain ⟨dirty, hown⟩ := h
  obtain ⟨dirty', rows', hperm, hremove⟩ := Table.remove_perm dirty chart hgood.charts
  refine ⟨{ m with own := Table.ofRows dirty' rows' }, rows', hperm, ?_, ⟨dirty', rfl⟩, rfl⟩
  rw [release, hown, hremove]
  rfl

/-- The rows of charts that are not open go. -/
theorem pruneOwnership_spec (hgood : GoodRows rows) (h : m.Holds rows) (page : AnsiPage)
    (charts : List Int) (writes : Bool) :
    ∃ m' rows', List.Perm rows' (rows.filter fun row => !decide (row.1 ∉ charts)) ∧
      m.pruneOwnership page charts writes = some m' ∧ m'.Holds rows' ∧
      (m'.file = m.file ∨ m'.file = some (page.bytes (rowsText rows'))) := by
  obtain ⟨dirty, hown⟩ := h
  obtain ⟨dirty', rows', hperm, hsweep⟩ := Table.sweep_all (hits_closed charts) dirty hgood.charts
  have hholds : OwnMap.Holds { m with own := Table.ofRows dirty' rows' } rows' := ⟨dirty', rfl⟩
  have hprune : m.pruneOwnership page charts writes =
      if dirty' then saveOwnership page writes { m with own := Table.ofRows dirty' rows' }
      else some { m with own := Table.ofRows dirty' rows' } := by
    rw [pruneOwnership, hown, hsweep]
    rfl
  rw [hprune]
  cases dirty' with
  | false => exact ⟨_, rows', hperm, rfl, hholds, Or.inl rfl⟩
  | true =>
    obtain ⟨m', hsave, hholds', hfile⟩ := saveOwnership_spec hholds page writes
    refine ⟨m', rows', hperm, hsave, hholds', ?_⟩
    rw [hfile]
    cases writes with
    | true => exact Or.inr rfl
    | false => exact Or.inl rfl

/-- What is in the file is loaded. -/
theorem loadOwnership_spec (read : CodePage) (numerals : SignedNumerals)
    (hgood : ∀ row ∈ rows, GoodRow row) (hfile : m.file = some (page.bytes (rowsText rows))) :
    ∃ m', m.loadOwnership read numerals.toNumerals true = some m' ∧ m'.Holds rows ∧
      m'.file = m.file := by
  refine ⟨{ m with own := Table.ofRows m.own.dirty rows, restored := rows.map Prod.snd }, ?_,
    ⟨m.own.dirty, rfl⟩, rfl⟩
  rw [loadOwnership, hfile]
  dsimp only
  rw [if_pos rfl, readFile_bytes page read (printable_rowsText hgood),
    loadScan_rowsText numerals m.own.dirty hgood]
  rfl

/-- Every call succeeds and leaves a map in which no chart and no deployment occurs twice. -/
theorem Sound.step (hm : m.Sound page) (read : CodePage) (numerals : SignedNumerals)
    {call : OwnCall} (hcall : call.Valid) :
    ∃ m', m.step page read numerals.toNumerals call = some m' ∧ m'.Sound page := by
  obtain ⟨rows, hgood, hholds⟩ := hm.rows
  -- a file is the one that was there, or has the rows that the arrays have now
  have hwritten : ∀ {m' : OwnMap} {rows' : List (Int × List Char)}, GoodRows rows' →
      m'.file = m.file ∨ m'.file = some (page.bytes (rowsText rows')) →
      ∀ file ∈ m'.file, ∃ rows, GoodRows rows ∧ file = page.bytes (rowsText rows) := by
    intro m' rows' hgood' hfile file hmem
    rcases hfile with hsame | hnew
    · exact hm.file file (hsame ▸ hmem)
    · rw [hnew] at hmem
      exact ⟨rows', hgood', (Option.some.inj hmem).symm⟩
  have hchosen : ∀ {m' : OwnMap} {writes : Bool} {file : List UInt8},
      (m'.file = if writes then some file else m.file) →
        m'.file = m.file ∨ m'.file = some file := by
    intro m' writes file h
    cases writes with
    | true => exact Or.inr h
    | false => exact Or.inl h
  cases call with
  | claim chart id writes =>
    obtain ⟨m', rows', hperm, hclaim, hholds', hfile⟩ :=
      claim_spec hgood hholds page chart id writes
    have hgood' : GoodRows (rows' ++ [(chart, id)]) := by
      refine (hgood.filter hperm).append hcall fun row hrow => ?_
      simpa using (List.mem_filter.mp (hperm.mem_iff.mp hrow)).2
    exact ⟨m', hclaim, ⟨_, hgood', hholds'⟩, hwritten hgood' (hchosen hfile)⟩
  | release chart =>
    obtain ⟨m', rows', hperm, hrelease, hholds', hfile⟩ := release_spec hgood hholds chart
    have hgood' := hgood.filter hperm
    exact ⟨m', hrelease, ⟨_, hgood', hholds'⟩, hwritten hgood' (Or.inl hfile)⟩
  | prune charts writes =>
    obtain ⟨m', rows', hperm, hprune, hholds', hfile⟩ :=
      pruneOwnership_spec hgood hholds page charts writes
    have hgood' := hgood.filter hperm
    exact ⟨m', hprune, ⟨_, hgood', hholds'⟩, hwritten hgood' hfile⟩
  | save writes =>
    obtain ⟨m', hsave, hholds', hfile⟩ := saveOwnership_spec hholds page writes
    exact ⟨m', hsave, ⟨_, hgood, hholds'⟩, hwritten hgood (hchosen hfile)⟩
  | load opens =>
    have hcleared : OwnMap.Sound page { m with own := ⟨[], [], m.own.dirty⟩, restored := [] } :=
      ⟨⟨[], goodRows_nil, m.own.dirty, rfl⟩, hm.file⟩
    cases hfile : m.file with
    | none =>
      refine ⟨_, ?_, hcleared⟩
      rw [OwnMap.step, loadOwnership, hfile]
    | some file =>
      cases opens with
      | false =>
        refine ⟨_, ?_, hcleared⟩
        rw [OwnMap.step, loadOwnership, hfile]
        rfl
      | true =>
        obtain ⟨stored, hstored, rfl⟩ := hm.file file hfile
        obtain ⟨m', hload, hholds', hfile'⟩ :=
          loadOwnership_spec read numerals hstored.good hfile
        exact ⟨m', hload, ⟨stored, hstored, hholds'⟩, hwritten hstored (Or.inl hfile')⟩

/-! ## What the calls do -/

/-- After a claim there are the rows that name neither the chart nor the deployment, and theirs. -/
theorem exists_claim (hm : m.Sound page) (chart : Int) (id : List Char) (writes : Bool) :
    ∃ m', m.claim page chart id writes = some m' ∧ ∀ c d, (c, d) ∈ m'.own.rows ↔
      c = chart ∧ d = id ∨ (c, d) ∈ m.own.rows ∧ c ≠ chart ∧ d ≠ id := by
  obtain ⟨rows, hgood, hholds⟩ := hm.rows
  obtain ⟨m', rows', hperm, hclaim, hholds', -⟩ := claim_spec hgood hholds page chart id writes
  refine ⟨m', hclaim, fun c d => ?_⟩
  rw [hholds'.rows_eq, hholds.rows_eq, List.mem_append, hperm.mem_iff, List.mem_filter, or_comm]
  simp

theorem exists_release (hm : m.Sound page) (chart : Int) :
    ∃ m', m.release chart = some m' ∧ ∀ c d, (c, d) ∈ m'.own.rows ↔
      (c, d) ∈ m.own.rows ∧ c ≠ chart := by
  obtain ⟨rows, hgood, hholds⟩ := hm.rows
  obtain ⟨m', rows', hperm, hrelease, hholds', -⟩ := release_spec hgood hholds chart
  refine ⟨m', hrelease, fun c d => ?_⟩
  rw [hholds'.rows_eq, hholds.rows_eq, hperm.mem_iff, List.mem_filter]
  simp

theorem exists_pruneOwnership (hm : m.Sound page) (charts : List Int) (writes : Bool) :
    ∃ m', m.pruneOwnership page charts writes = some m' ∧ ∀ c d, (c, d) ∈ m'.own.rows ↔
      (c, d) ∈ m.own.rows ∧ c ∈ charts := by
  obtain ⟨rows, hgood, hholds⟩ := hm.rows
  obtain ⟨m', rows', hperm, hprune, hholds', -⟩ :=
    pruneOwnership_spec hgood hholds page charts writes
  refine ⟨m', hprune, fun c d => ?_⟩
  rw [hholds'.rows_eq, hholds.rows_eq, hperm.mem_iff, List.mem_filter]
  simp

/-- What is saved is loaded again. -/
theorem exists_saveOwnership_loadOwnership (hm : m.Sound page) (read : CodePage)
    (numerals : SignedNumerals) :
    ∃ saved loaded, m.saveOwnership page true = some saved ∧
      saved.loadOwnership read numerals.toNumerals true = some loaded ∧
      loaded.own.rows = m.own.rows := by
  obtain ⟨rows, hgood, hholds⟩ := hm.rows
  obtain ⟨saved, hsave, hsaved, hfile⟩ := saveOwnership_spec hholds page true
  obtain ⟨loaded, hload, hloaded, -⟩ := loadOwnership_spec read numerals hgood.good hfile
  exact ⟨saved, loaded, hsave, hload, hloaded.rows_eq.trans hholds.rows_eq.symm⟩

/-- An empty map. -/
theorem sound_empty (page : AnsiPage) : OwnMap.empty.Sound page where
  rows := ⟨[], goodRows_nil, false, rfl⟩
  file _ h := absurd h (Option.not_mem_none _)

end OwnMap

/-- `StringToInteger`, for the texts of integers. -/
def signedDecimals : SignedNumerals where
  stringToInteger text :=
    if text.head? = some '-' then -(Nat.ofDigitChars 10 (text.drop 1) 0 : Nat)
    else (Nat.ofDigitChars 10 text 0 : Nat)
  decimal n _ := by
    have hdigits : ¬ (Nat.toDigits 10 n).head? = some '-' := by
      intro h
      cases Nat.isDigit_of_mem_toDigits (by decide) (by decide) (List.mem_of_mem_head? h)
    rw [if_neg hdigits]
    exact congrArg Nat.cast Nat.ofDigitChars_ten_toDigits
  negative n _ := by
    rw [List.head?_cons, if_pos rfl]
    exact congrArg (fun k : Nat => -(k : Int)) Nat.ofDigitChars_ten_toDigits

/-- The arrays hold the entries of the map. -/
def Represents (own : Ownership) (m : OwnMap) : Prop :=
  ∀ c d, (c, d) ∈ m.own.rows ↔ ∃ e ∈ own, c = (e.chart : Int) ∧ d = e.id

section Represents

variable {page : AnsiPage} {m m' : OwnMap} {own : Ownership}

/-- `Claim` of the arrays claims. -/
theorem represents_claim (hm : m.Sound page) (h : Represents own m) {chart : Nat} {id : List Char}
    {writes : Bool} (hclaim : m.claim page chart id writes = some m') :
    Represents (own.claim chart id) m' := by
  obtain ⟨m₁, hm₁, hrows⟩ := OwnMap.exists_claim hm chart id writes
  obtain rfl : m₁ = m' := Option.some.inj (hm₁.symm.trans hclaim)
  intro c d
  rw [hrows, h c d]
  constructor
  · rintro (⟨rfl, rfl⟩ | ⟨⟨e, he, rfl, rfl⟩, hchart, hid⟩)
    · exact ⟨⟨chart, d⟩, Ownership.mem_claim.mpr (Or.inl rfl), rfl, rfl⟩
    · exact ⟨e, Ownership.mem_claim.mpr (Or.inr ⟨he, fun heq => hchart (by rw [heq]), hid⟩), rfl,
        rfl⟩
  · rintro ⟨e, he, rfl, rfl⟩
    rcases Ownership.mem_claim.mp he with rfl | ⟨he, hchart, hid⟩
    · exact Or.inl ⟨rfl, rfl⟩
    · exact Or.inr ⟨⟨e, he, rfl, rfl⟩, fun heq => hchart (Int.ofNat.inj heq), hid⟩

/-- `Release` of the arrays drops the chart. -/
theorem represents_drop (hm : m.Sound page) (h : Represents own m) {chart : Nat}
    (hrelease : m.release chart = some m') : Represents (own.drop chart) m' := by
  obtain ⟨m₁, hm₁, hrows⟩ := OwnMap.exists_release hm chart
  obtain rfl : m₁ = m' := Option.some.inj (hm₁.symm.trans hrelease)
  intro c d
  rw [hrows, h c d]
  constructor
  · rintro ⟨⟨e, he, rfl, rfl⟩, hchart⟩
    exact ⟨e, Ownership.mem_drop.mpr ⟨he, fun heq => hchart (by rw [heq])⟩, rfl, rfl⟩
  · rintro ⟨e, he, rfl, rfl⟩
    obtain ⟨he, hchart⟩ := Ownership.mem_drop.mp he
    exact ⟨⟨e, he, rfl, rfl⟩, fun heq => hchart (Int.ofNat.inj heq)⟩

/-- `PruneOwnership` of the arrays prunes. -/
theorem represents_prune (hm : m.Sound page) (h : Represents own m) {seen : List Nat}
    {writes : Bool}
    (hprune : m.pruneOwnership page (seen.map Int.ofNat) writes = some m') :
    Represents (own.prune seen) m' := by
  obtain ⟨m₁, hm₁, hrows⟩ :=
    OwnMap.exists_pruneOwnership hm (seen.map Int.ofNat) writes
  obtain rfl : m₁ = m' := Option.some.inj (hm₁.symm.trans hprune)
  intro c d
  rw [hrows, h c d]
  constructor
  · rintro ⟨⟨e, he, rfl, rfl⟩, hchart⟩
    obtain ⟨chart, hseen, heq⟩ := List.mem_map.mp hchart
    obtain rfl : chart = e.chart := Int.ofNat.inj heq
    exact ⟨e, Ownership.mem_prune.mpr ⟨he, hseen⟩, rfl, rfl⟩
  · rintro ⟨e, he, rfl, rfl⟩
    obtain ⟨he, hchart⟩ := Ownership.mem_prune.mp he
    exact ⟨⟨e, he, rfl, rfl⟩, List.mem_map.mpr ⟨e.chart, hchart, rfl⟩⟩

end Represents

end ChartCtl

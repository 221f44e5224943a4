import Mathlib.Data.List.Nodup
import Mathlib.Data.List.TakeWhile
import Mt5HttpApi.Lib.Text

/-!
# URL lists, and the change of one session

Which URLs are acceptable, how a list of them is cleaned, how a request patches a stored list, and
what one session of the Options dialog does to the rows of the terminal: `planChanges` makes the
plan, `patchUrls` carries it out.

Lower-casing is a parameter: nothing below depends on what it does to a character.
-/

namespace WebRequest

open Text

/-- A URL, or the text of a row. -/
abbrev Url := List Char

/-! ### Acceptable URLs -/

/-- `norm_url`: URLs that differ in case or in slashes at the end have one key. -/
def normUrl (lower : List Char → List Char) (url : Url) : List Char :=
  lower ((strip url).reverse.dropWhile (· = '/')).reverse

/-- A character of the scheme, whatever its case. The long `s` is a case of `s`. -/
def isSchemeChar (c d : Char) : Bool := d = c || d = c.toUpper || (c = 's' && d = 'ſ')

/-- The rest of a URL row after `http`: an optional `s`, `://`, and something without a space. -/
def isUrlTail (text : List Char) : Bool :=
  match text with
  | c :: ':' :: '/' :: '/' :: host =>
    isSchemeChar 's' c && !host.isEmpty && host.all fun d => !isSpace d
  | ':' :: '/' :: '/' :: host => !host.isEmpty && host.all fun d => !isSpace d
  | _ => false

/-- `is_url_row`: a real entry of the list, by its text. -/
def isUrlRow (text : Url) : Bool :=
  match strip text with
  | h :: t :: t' :: p :: rest =>
    isSchemeChar 'h' h && isSchemeChar 't' t && isSchemeChar 't' t' && isSchemeChar 'p' p &&
      isUrlTail rest
  | _ => false

/-- `MAX_URL_LENGTH`. -/
def maxUrlLength : Nat := 750

/-- `_acceptable`. -/
def acceptable (url : Url) : Bool :=
  !url.isEmpty && url.length ≤ maxUrlLength && !url.contains ';' &&
    !(url.any fun c => c.toNat < 0x20) && isUrlRow url

/-- `clean_urls` of a list of texts: trimmed, no blanks, no duplicates, only acceptable ones. -/
def cleanUrls (urls : List Url) : List Url :=
  urls.foldl (fun out url =>
    if acceptable (strip url) && !out.contains (strip url) then out ++ [strip url] else out) []

/-- `invalid_urls`: what `clean_urls` drops for being malformed. -/
def invalidUrls (urls : List Url) : List Url :=
  urls.filter fun url => !(strip url).isEmpty && !acceptable (strip url)

/-- `_patched`. -/
def patched (current add remove : List Url) : List Url :=
  add.foldl (fun urls url => if urls.contains url then urls else urls ++ [url])
    (current.filter fun url => !remove.contains url)

/-! ### The session -/

/-- What one session of the dialog must do. -/
structure Plan where
  removeIdx : List Nat
  add : List Url
  wantEnabled : Option Bool

/-- The indices from `start` on of the rows that have a property. -/
def indicesFrom {α : Type} (p : α → Bool) : Nat → List α → List Nat
  | _, [] => []
  | start, row :: rows =>
    if p row then start :: indicesFrom p (start + 1) rows else indicesFrom p (start + 1) rows

section Plan

variable (lower : List Char → List Char)

/-- The URLs of `add` whose key is neither there nor to be removed, each key once. -/
def wantAdd (gone : List (List Char)) : List (List Char) → List Url → List Url
  | _, [] => []
  | here, url :: urls =>
    if here.contains (normUrl lower url) || gone.contains (normUrl lower url) then
      wantAdd gone here urls
    else url :: wantAdd gone (normUrl lower url :: here) urls

/-- The indices of the rows that a full replacement removes: no URL, not wanted, or a second copy.
-/
def replaceIdx (wanted : List (List Char)) : List (List Char) → Nat → List Url → List Nat
  | _, _, [] => []
  | kept, i, row :: rows =>
    if isUrlRow row && wanted.contains (normUrl lower row) &&
        !kept.contains (normUrl lower row) then
      replaceIdx wanted (normUrl lower row :: kept) (i + 1) rows
    else i :: replaceIdx wanted kept (i + 1) rows

/-- The keys of the rows that are URLs. -/
def urlKeys (rows : List Url) : List (List Char) := (rows.filter isUrlRow).map (normUrl lower)

/-- `plan_changes`. -/
def planChanges (rows add remove : List Url) (exact : Option (List Url)) (enabledBefore : Bool) :
    Plan :=
  match exact with
  | some exact =>
    let wanted := exact.map (normUrl lower)
    -- The keys kept are those of the rows that stay.
    let kept := (urlKeys lower rows).filter wanted.contains
    ⟨(replaceIdx lower wanted [] 0 rows).reverse, wantAdd lower [] kept exact,
      if (!exact.isEmpty) = enabledBefore then none else some (!exact.isEmpty)⟩
  | none =>
    let gone := remove.map (normUrl lower)
    ⟨(indicesFrom (fun row => isUrlRow row && gone.contains (normUrl lower row)) 0 rows).reverse,
      wantAdd lower gone (urlKeys lower rows) add,
      if add.isEmpty ∨ enabledBefore then none else some true⟩

/-- The rows after a plan was carried out: rows are removed from the last to the first, and a new
one comes at the end. -/
def Plan.apply (plan : Plan) (rows : List Url) : List Url :=
  plan.removeIdx.foldl (fun rows i => rows.eraseIdx i) rows ++ plan.add

/-- `_verify` of a patch: every added URL is there, and no key of a removed row. -/
def verified (plan : Plan) (before after : List Url) : Bool :=
  plan.add.all (fun url => (urlKeys lower after).contains (normUrl lower url)) &&
    !after.any fun row =>
      (plan.removeIdx.filterMap fun i => before[i]?.map (normUrl lower)).contains
        (normUrl lower row)

/-- The URL rows after a patch in which every access of the dialog succeeds. -/
def patchUrls (rows add remove : List Url) (enabledBefore : Bool) : Option (List Url) :=
  let plan := planChanges lower rows add remove none enabledBefore
  if plan.removeIdx.isEmpty && plan.add.isEmpty && plan.wantEnabled.isNone then
    some (rows.filter isUrlRow)
  else if verified lower plan rows (plan.apply rows) then
    some ((plan.apply rows).filter isUrlRow)
  else none

end Plan

/-! ### The list a request stores -/

/-- The list stored by a patch in the VM: the URL rows read back, cleaned. -/
def storedInVm (lower : List Char → List Char) (rows add remove : List Url) (enabledBefore : Bool) :
    Option (List Url) :=
  (patchUrls lower rows (cleanUrls add) (cleanUrls remove) enabledBefore).map fun live =>
    cleanUrls (cleanUrls live)

/-- The list stored by a patch on bare metal. -/
def storedOnBareMetal (current add remove : List Url) : List Url :=
  cleanUrls (patched current (cleanUrls add) (cleanUrls remove))

end WebRequest

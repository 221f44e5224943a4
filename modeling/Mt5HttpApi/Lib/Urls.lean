import Mathlib.Data.List.Basic

/-!
# Bytes of a URL path

Percent-encoding and dot segments, on the bytes of a URL's path.

* `unquote` decodes every escape and leaves a `%` that begins none.
* `quote` encodes what is not safe and leaves the escapes that are there: `unquote_quote`.
* `normalizePath` resolves the segments `.` and `..`.

None of them lengthens a path, and each changes it exactly when there is something to do:
`unquote_eq_self_iff`, `normalizePath_of_no_dots` and `normalizePath_length_lt`.
-/

namespace Urls

/-- The bytes of an ASCII text. -/
def ascii (text : String) : List UInt8 := text.toList.map fun c => c.toNat.toUInt8

/-- The byte of `%`. -/
def percent : UInt8 := 0x25

/-- The byte of `/`. -/
def slash : UInt8 := 0x2F

/-- The value of a hexadecimal digit. -/
def hexValue (b : UInt8) : Option UInt8 :=
  if 0x30 ≤ b ∧ b ≤ 0x39 then some (b - 0x30)
  else if 0x41 ≤ b ∧ b ≤ 0x46 then some (b - 0x41 + 10)
  else if 0x61 ≤ b ∧ b ≤ 0x66 then some (b - 0x61 + 10)
  else none

/-- The byte that `%` and two digits stand for. -/
def escape (a b : UInt8) : Option UInt8 :=
  (hexValue a).bind fun high => (hexValue b).map fun low => 16 * high + low

/-- The first two bytes are digits of an escape. -/
def digitsAhead : List UInt8 → Bool
  | a :: b :: _ => (escape a b).isSome
  | _ => false

/-- Percent-decoding. -/
def unquote : List UInt8 → List UInt8
  | c :: a :: b :: rest =>
    if c = percent then
      match escape a b with
      | some byte => byte :: unquote rest
      | none => c :: unquote (a :: b :: rest)
    else c :: unquote (a :: b :: rest)
  | rest => rest

/-- Some `%` is followed by two hexadecimal digits. -/
def hasEscape : List UInt8 → Bool
  | c :: rest => c == percent && digitsAhead rest || hasEscape rest
  | [] => false

/-- The digit of a value below 16. -/
def hexDigit (n : UInt8) : UInt8 := if n < 10 then 0x30 + n else 0x41 + (n - 10)

/-- `%XX` of a byte. -/
def encodeByte (b : UInt8) : List UInt8 := [percent, hexDigit (b / 16), hexDigit (b % 16)]

/-- A safe byte, or another one encoded. -/
def quoteByte (safe : UInt8 → Bool) (c : UInt8) : List UInt8 :=
  if safe c then [c] else encodeByte c

/-- Percent-encoding of what is not safe, outside of the escapes that are there. -/
def quote (safe : UInt8 → Bool) : List UInt8 → List UInt8
  | c :: a :: b :: rest =>
    if c = percent ∧ (escape a b).isSome then c :: a :: b :: quote safe rest
    else quoteByte safe c ++ quote safe (a :: b :: rest)
  | [c, a] => quoteByte safe c ++ quoteByte safe a
  | [c] => quoteByte safe c
  | [] => []

/-- Decoding does not lengthen a text. -/
theorem unquote_length_le (x : List UInt8) : (unquote x).length ≤ x.length := by
  fun_induction unquote x with
  | case1 a b rest byte _ ih =>
    simp only [List.length_cons]
    omega
  | case2 a b rest _ ih => simpa using ih
  | case3 c a b rest _ ih => simpa using ih
  | case4 rest => exact Nat.le_refl _

/-- What begins no escape is left. -/
theorem unquote_cons {c : UInt8} {rest : List UInt8} (h : c = percent → digitsAhead rest = false) :
    unquote (c :: rest) = c :: unquote rest := by
  rcases rest with _ | ⟨a, _ | ⟨b, rest⟩⟩
  · rfl
  · rfl
  · rw [unquote]
    split
    next hc =>
      have hnone : escape a b = none := by simpa [digitsAhead] using h hc
      rw [hnone]
    next => rfl

/-- Decoding leaves a text as it is exactly when it has no escape. -/
theorem unquote_eq_self_iff (x : List UInt8) : unquote x = x ↔ hasEscape x = false := by
  induction x with
  | nil => simp [unquote, hasEscape]
  | cons c rest ih =>
    by_cases h : c = percent → digitsAhead rest = false
    · have hhead : (c == percent && digitsAhead rest) = false := by
        by_cases hc : c = percent
        · simp [h hc]
        · simp [hc]
      rw [unquote_cons h, hasEscape, hhead, Bool.false_or, List.cons.injEq, ← ih]
      simp
    · simp only [Classical.not_imp, Bool.not_eq_false] at h
      obtain ⟨rfl, hdigits⟩ := h
      rcases rest with _ | ⟨a, _ | ⟨b, rest⟩⟩
      · cases hdigits
      · cases hdigits
      obtain ⟨byte, hbyte⟩ := Option.isSome_iff_exists.mp hdigits
      simp only [hasEscape, digitsAhead, hbyte, beq_self_eq_true, Option.isSome_some, Bool.and_self,
        Bool.true_or, Bool.true_eq_false, iff_false, unquote, if_true]
      intro heq
      have hle := unquote_length_le rest
      have hlen := congrArg List.length heq
      simp only [List.length_cons] at hlen
      omega

/-- A slash is no digit. -/
theorem digitsAhead_append_slash (x rest : List UInt8) :
    digitsAhead (x ++ slash :: rest) = digitsAhead x := by
  rcases x with _ | ⟨a, _ | ⟨b, x⟩⟩
  · cases rest <;> rfl
  · simp only [List.cons_append, List.nil_append, digitsAhead, escape,
      show hexValue slash = none from rfl, Option.map_none]
    cases hexValue a <;> rfl
  · rfl

/-- No escape reaches over a slash. -/
theorem hasEscape_append_slash (x rest : List UInt8) :
    hasEscape (x ++ slash :: rest) = (hasEscape x || hasEscape rest) := by
  induction x with
  | nil => rfl
  | cons c x ih =>
    rw [List.cons_append, hasEscape, hasEscape, ih, digitsAhead_append_slash, Bool.or_assoc]

/-- The escapes of a path are those of its segments. -/
theorem hasEscape_intercalate (segs : List (List UInt8)) :
    hasEscape ([slash].intercalate segs) = segs.any hasEscape := by
  induction segs with
  | nil => rfl
  | cons s segs ih =>
    cases segs with
    | nil => simp
    | cons t segs =>
      rw [List.intercalate_cons_cons, List.append_assoc, List.singleton_append,
        hasEscape_append_slash, ih]
      rfl

/-- Without a `%` there is no escape. -/
theorem hasEscape_of_not_mem {x : List UInt8} (h : percent ∉ x) : hasEscape x = false := by
  induction x with
  | nil => rfl
  | cons c x ih =>
    have hc : c ≠ percent := fun hc => h (hc ▸ List.mem_cons_self)
    rw [hasEscape, ih fun hx => h (List.mem_cons_of_mem c hx)]
    simp [hc]

set_option maxRecDepth 4096 in
/-- The digits of a byte stand for it. -/
theorem escape_hexDigit (b : UInt8) : escape (hexDigit (b / 16)) (hexDigit (b % 16)) = some b := by
  have hall : ∀ n : Fin 256, escape (hexDigit (UInt8.ofFin n / 16))
      (hexDigit (UInt8.ofFin n % 16)) = some (UInt8.ofFin n) := by decide
  simpa using hall b.toFin

/-- An encoded byte is decoded to itself. -/
theorem unquote_encodeByte (b : UInt8) (rest : List UInt8) :
    unquote (encodeByte b ++ rest) = b :: unquote rest := by
  simp only [encodeByte, List.cons_append, List.nil_append, unquote, if_true, escape_hexDigit]

theorem unquote_quoteByte {safe : UInt8 → Bool} {c : UInt8} {rest : List UInt8}
    (h : c = percent → digitsAhead rest = false) :
    unquote (quoteByte safe c ++ rest) = c :: unquote rest := by
  unfold quoteByte
  split
  · exact unquote_cons h
  · exact unquote_encodeByte c rest

/-- A `%` is no digit. -/
theorem digitsAhead_percent (rest : List UInt8) : digitsAhead (percent :: rest) = false := by
  cases rest <;> rfl

theorem digitsAhead_percent_second (c : UInt8) (rest : List UInt8) :
    digitsAhead (c :: percent :: rest) = false := by
  simp only [digitsAhead, escape, show hexValue percent = none from rfl, Option.map_none]
  cases hexValue c <;> rfl

/-- An encoded text begins with its first byte or with a `%`. -/
theorem quote_cons (safe : UInt8 → Bool) (c : UInt8) (rest : List UInt8) :
    ∃ more, quote safe (c :: rest) = c :: more ∨ quote safe (c :: rest) = percent :: more := by
  have hbyte : ∀ q, ∃ more, quoteByte safe c ++ q = c :: more ∨ quoteByte safe c ++ q =
      percent :: more := by
    intro q
    unfold quoteByte
    split
    · exact ⟨q, Or.inl rfl⟩
    · exact ⟨_, Or.inr rfl⟩
  rcases rest with _ | ⟨a, _ | ⟨b, rest⟩⟩
  · simpa [quote] using hbyte []
  · exact hbyte _
  · rw [quote]
    split
    · exact ⟨_, Or.inl rfl⟩
    · exact hbyte _

/-- Encoding puts no digits of an escape where there were none. -/
theorem digitsAhead_quote {safe : UInt8 → Bool} {x : List UInt8} (h : digitsAhead x = false) :
    digitsAhead (quote safe x) = false := by
  have hbyte : ∀ c a rest, escape c a = none →
      digitsAhead (quoteByte safe c ++ quote safe (a :: rest)) = false := by
    intro c a rest hnone
    unfold quoteByte
    split
    · obtain ⟨more, hmore | hmore⟩ := quote_cons safe a rest
      · simp [hmore, digitsAhead, hnone]
      · rw [hmore]
        exact digitsAhead_percent_second c more
    · exact digitsAhead_percent _
  rcases x with _ | ⟨c, _ | ⟨a, _ | ⟨b, rest⟩⟩⟩
  · rfl
  · rw [quote, quoteByte]
    split
    · rfl
    · exact digitsAhead_percent _
  · exact hbyte c a [] (by simpa [digitsAhead] using h)
  · have hnone : escape c a = none := by simpa [digitsAhead] using h
    rw [quote]
    split
    next hc =>
      rw [hc.1]
      exact digitsAhead_percent _
    next => exact hbyte c a (b :: rest) hnone

/-- Decoding undoes the encoding, and the escapes that were there. -/
theorem unquote_quote (safe : UInt8 → Bool) (x : List UInt8) :
    unquote (quote safe x) = unquote x := by
  fun_induction quote safe x with
  | case1 c a b rest h ih =>
    obtain ⟨rfl, hescape⟩ := h
    obtain ⟨byte, hbyte⟩ := Option.isSome_iff_exists.mp hescape
    simp only [unquote, if_true, hbyte, ih]
  | case2 c a b rest h ih =>
    have hnot : c = percent → digitsAhead (a :: b :: rest) = false := by
      intro hc
      simpa [hc, digitsAhead] using h
    rw [unquote_quoteByte fun hc => digitsAhead_quote (hnot hc), ih, unquote_cons hnot]
  | case3 c a =>
    have hfirst : unquote (quoteByte safe c ++ quoteByte safe a) =
        c :: unquote (quoteByte safe a) :=
      unquote_quoteByte fun _ => digitsAhead_quote (x := [a]) rfl
    have hlast : unquote (quoteByte safe a ++ []) = a :: unquote [] :=
      unquote_quoteByte fun _ => rfl
    rw [List.append_nil] at hlast
    rw [hfirst, hlast]
    rfl
  | case4 c =>
    rw [← List.append_nil (quoteByte safe c), unquote_quoteByte fun _ => rfl]
    rfl
  | case5 => rfl

/-! ## Dot segments -/

/-- The segments that a path resolution takes away. -/
def dots : List (List UInt8) := [ascii ".", ascii ".."]

/-- One segment of a path after those in `output`. -/
def dotStep (output : List (List UInt8)) (segment : List UInt8) : List (List UInt8) :=
  if segment = ascii "." then output
  else if segment = ascii ".." then
    if output ≠ [] ∧ output ≠ [[]] then output.dropLast else output
  else output ++ [segment]

/-- The path with its dot segments resolved. -/
def normalizePath (path : List UInt8) : List UInt8 :=
  [slash].intercalate ((path.splitOn slash).foldl dotStep [])

/-- Without dot segments the path stays as it is. -/
theorem normalizePath_of_no_dots {path : List UInt8} (h : ∀ s ∈ path.splitOn slash, s ∉ dots) :
    normalizePath path = path := by
  have hfold : ∀ (segs output : List (List UInt8)), (∀ s ∈ segs, s ∉ dots) →
      segs.foldl dotStep output = output ++ segs := by
    intro segs
    induction segs with
    | nil => simp
    | cons s segs ih =>
      intro output hsegs
      have hs : s ≠ ascii "." ∧ s ≠ ascii ".." := by simpa [dots] using hsegs s List.mem_cons_self
      rw [List.foldl_cons, dotStep, if_neg hs.1, if_neg hs.2,
        ih _ fun s hs => hsegs s (List.mem_cons_of_mem _ hs)]
      simp
  rw [normalizePath, hfold _ _ h, List.nil_append, List.intercalate_splitOn]

/-- The length of segments that each have a slash before them. -/
def weight : List (List UInt8) → Nat
  | [] => 0
  | s :: segs => s.length + 1 + weight segs

theorem weight_append (segs segs' : List (List UInt8)) :
    weight (segs ++ segs') = weight segs + weight segs' := by
  induction segs with
  | nil => simp [weight]
  | cons s segs ih =>
    rw [List.cons_append, weight, weight, ih]
    omega

theorem length_intercalate (segs : List (List UInt8)) :
    ([slash].intercalate segs).length = weight segs - 1 := by
  induction segs with
  | nil => rfl
  | cons s segs ih =>
    cases segs with
    | nil => simp [weight]
    | cons t segs =>
      rw [List.intercalate_cons_cons, List.length_append, List.length_append, ih]
      simp [weight]
      omega

/-- A dot segment is taken away, and nothing is added. -/
theorem weight_dotStep (output : List (List UInt8)) (s : List UInt8) :
    weight (dotStep output s) + (if s ∈ dots then 1 else 0) ≤ weight output + weight [s] := by
  have hone : 1 ≤ weight [s] := by simp [weight]
  have hdrop : weight output.dropLast ≤ weight output := by
    rcases List.eq_nil_or_concat output with rfl | ⟨init, last, rfl⟩
    · exact Nat.le_refl _
    · rw [List.concat_eq_append, List.dropLast_concat, weight_append]
      omega
  unfold dotStep
  split
  · split <;> omega
  next hdot =>
    split
    · split <;> split <;> omega
    next hdotdot =>
      rw [if_neg (by simp [dots, hdot, hdotdot]), weight_append]
      omega

/-- The segments that a resolution leaves weigh less than the path's, by its dot segments. -/
theorem weight_foldl_dotStep (segs output : List (List UInt8)) :
    weight (segs.foldl dotStep output) + segs.countP (· ∈ dots) ≤ weight output + weight segs := by
  induction segs generalizing output with
  | nil => simp [weight]
  | cons s segs ih =>
    have hstep := weight_dotStep output s
    have hrest := ih (dotStep output s)
    have hweight : weight (s :: segs) = weight [s] + weight segs := weight_append [s] segs
    rw [List.foldl_cons, List.countP_cons, hweight]
    simp only [decide_eq_true_eq]
    omega

/-- A path with a dot segment gets shorter. -/
theorem normalizePath_length_lt {path s : List UInt8} (hs : s ∈ path.splitOn slash)
    (hdots : s ∈ dots) : (normalizePath path).length < path.length := by
  have hcount : 0 < (path.splitOn slash).countP (· ∈ dots) :=
    List.countP_pos_iff.mpr ⟨s, hs, decide_eq_true hdots⟩
  have hfold := weight_foldl_dotStep (path.splitOn slash) []
  have hpath : path.length = weight (path.splitOn slash) - 1 := by
    rw [← length_intercalate, List.intercalate_splitOn]
  have hmore : 2 ≤ weight (path.splitOn slash) := by
    obtain ⟨before, after, heq⟩ := List.append_of_mem hs
    have hlen : 1 ≤ s.length := by
      simp only [dots, List.mem_cons, List.not_mem_nil, or_false] at hdots
      rcases hdots with rfl | rfl <;> decide
    rw [heq, weight_append, weight]
    omega
  have hnil : weight [] = 0 := rfl
  rw [normalizePath, length_intercalate, hpath]
  omega

theorem normalizePath_length_le (path : List UInt8) :
    (normalizePath path).length ≤ path.length := by
  by_cases h : ∀ s ∈ path.splitOn slash, s ∉ dots
  · exact Nat.le_of_eq (congrArg List.length (normalizePath_of_no_dots h))
  · simp only [not_forall, not_not] at h
    obtain ⟨s, hs, hdots⟩ := h
    exact Nat.le_of_lt (normalizePath_length_lt hs hdots)

end Urls

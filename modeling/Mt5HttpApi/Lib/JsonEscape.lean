import Mt5HttpApi.Lib.JsonPieces
import Mt5HttpApi.Lib.JsonText

/-!
# What Python reads of a string it has written

`json.dumps` writes a string in ASCII, a surrogate by its number and a character above U+FFFF by two
of them. Python reads back the string with its surrogates joined (`reads_quote`), which is the
string itself if they are not in pairs (`joined_eq_self`).
-/

namespace JsonLoads

open Utf8

/-! ### Pairs of surrogates -/

/-- A high surrogate and a low one. -/
def isPair : CodePoint → CodePoint → Bool
  | .surrogate high, .surrogate low => high.val < 0x400 && 0x400 ≤ low.val
  | _, _ => false

/-- No two surrogates of the string are a pair. -/
def Unpaired (s : List CodePoint) : Prop := s.IsChain fun x y => isPair x y = false

instance : DecidablePred Unpaired := fun s =>
  inferInstanceAs (Decidable (s.IsChain fun x y => isPair x y = false))

variable {s rest : List CodePoint} {x y : CodePoint}

theorem joined_cons_scalar (c : Char) (rest : List CodePoint) :
    joined (.scalar c :: rest) = .scalar c :: joined rest := by
  rw [joined]
  rintro _ _ _ ⟨⟩

theorem joined_pair {high low : Fin 2048} (hhigh : high.val < 0x400) (hlow : 0x400 ≤ low.val)
    (rest : List CodePoint) : joined (.surrogate high :: .surrogate low :: rest) =
      .scalar (join high low) :: joined rest := by
  rw [joined, if_pos ⟨hhigh, hlow⟩]

theorem joined_cons_cons (h : isPair x y = false) (rest : List CodePoint) :
    joined (x :: y :: rest) = x :: joined (y :: rest) := by
  cases x with
  | scalar c => exact joined_cons_scalar c _
  | surrogate high =>
    cases y with
    | scalar c =>
      rw [joined]
      rintro _ _ _ - ⟨⟩
    | surrogate low =>
      rw [joined, if_neg]
      rintro ⟨hhigh, hlow⟩
      simp [isPair, hhigh, hlow] at h

theorem joined_singleton (x : CodePoint) : joined [x] = [x] := by
  cases x with
  | scalar c => exact joined_cons_scalar c []
  | surrogate n =>
    rw [joined, joined]
    rintro _ _ _ - ⟨⟩

/-- A string without pairs is left as it is. -/
theorem joined_eq_self (h : Unpaired s) : joined s = s := by
  induction s with
  | nil => rw [joined]
  | cons x s ih =>
    cases s with
    | nil => exact joined_singleton x
    | cons y s =>
      obtain ⟨hxy, hs⟩ := List.isChain_cons_cons.mp h
      rw [joined_cons_cons hxy, ih hs]

/-- The code points that are written for a character. -/
def points : CodePoint → List CodePoint
  | .scalar c =>
    if c.toNat < 0x10000 then [.scalar c]
    else [codePoint (0xD800 + (c.toNat - 0x10000) / 0x400),
      codePoint (0xDC00 + (c.toNat - 0x10000) % 0x400)]
  | .surrogate n => [.surrogate n]

theorem codePoint_toNat (c : Char) : codePoint c.toNat = .scalar c := by
  have hvalid := c.valid
  rw [codePoint, dif_neg, Char.ofNat_toNat]
  rw [UInt32.isValidChar, Nat.isValidChar] at hvalid
  show ¬ (0xD800 ≤ c.val.toNat ∧ c.val.toNat < 0xE000)
  omega

theorem codePoint_surrogate {n : ℕ} (h : n < 2048) :
    codePoint (0xD800 + n) = .surrogate ⟨n, h⟩ := by
  rw [codePoint, dif_pos (by omega)]
  exact congrArg CodePoint.surrogate (Fin.ext (Nat.add_sub_cancel_left _ _))

/-- A large character is two surrogates. -/
theorem points_large {c : Char} (h : 0x10000 ≤ c.toNat) : ∃ high low : Fin 2048,
    points (.scalar c) = [.surrogate high, .surrogate low] ∧ high.val < 0x400 ∧
      0x400 ≤ low.val ∧ join high low = c := by
  have hmax : c.toNat < 0x110000 := by
    have hvalid := c.valid
    rw [UInt32.isValidChar, Nat.isValidChar] at hvalid
    show c.val.toNat < 0x110000
    omega
  obtain ⟨high, hhigh⟩ : ∃ high, high = (c.toNat - 0x10000) / 0x400 := ⟨_, rfl⟩
  obtain ⟨low, hlow⟩ : ∃ low, low = 0x400 + (c.toNat - 0x10000) % 0x400 := ⟨_, rfl⟩
  have hpoints : points (.scalar c) = [codePoint (0xD800 + high), codePoint (0xD800 + low)] := by
    have hsum : 0xDC00 + (c.toNat - 0x10000) % 0x400 = 0xD800 + low := by omega
    rw [points, if_neg (by omega), hsum, ← hhigh]
  have hjoin : 0x10000 + 0x400 * high + (low - 0x400) = c.toNat := by omega
  rw [codePoint_surrogate (by omega), codePoint_surrogate (by omega)] at hpoints
  exact ⟨_, _, hpoints, by show high < 0x400; omega, by show 0x400 ≤ low; omega,
    by rw [join, hjoin, Char.ofNat_toNat]⟩

/-- What is written begins with no low surrogate, unless the character is one. -/
theorem head_points (x : CodePoint) : ∃ y more, points x = y :: more ∧
    ∀ z, isPair z x = false → isPair z y = false := by
  cases x with
  | surrogate n => exact ⟨_, _, rfl, fun z h => h⟩
  | scalar c =>
    by_cases hc : c.toNat < 0x10000
    · exact ⟨.scalar c, [], by rw [points, if_pos hc], fun z h => h⟩
    · obtain ⟨high, low, hpoints, hhigh, -⟩ := points_large (c := c) (by omega)
      refine ⟨.surrogate high, _, hpoints, fun z _ => ?_⟩
      cases z with
      | scalar d => rfl
      | surrogate n =>
        rw [isPair, Bool.and_eq_false_iff]
        exact Or.inr (decide_eq_false (by omega))

/-- Joining undoes it. -/
theorem joined_points (s : List CodePoint) : joined (s.flatMap points) = joined s := by
  fun_induction joined s with
  | case1 high low rest hpair ih =>
    rw [List.flatMap_cons, List.flatMap_cons]
    show joined (.surrogate high :: .surrogate low :: rest.flatMap points) = _
    rw [joined_pair hpair.1 hpair.2, ih]
  | case2 high low rest hpair ih =>
    rw [List.flatMap_cons]
    show joined (.surrogate high :: .surrogate low :: rest.flatMap points) = _
    rw [joined, if_neg hpair]
    exact congrArg _ ih
  | case3 x rest hrest ih =>
    rw [List.flatMap_cons]
    cases x with
    | scalar c =>
      by_cases hc : c.toNat < 0x10000
      · rw [points, if_pos hc, List.singleton_append, joined_cons_scalar, ih]
      · obtain ⟨high, low, hpoints, hhigh, hlow, hjoin⟩ := points_large (c := c) (by omega)
        rw [hpoints, List.cons_append, List.singleton_append, joined_pair hhigh hlow, hjoin, ih]
    | surrogate n =>
      show joined (.surrogate n :: rest.flatMap points) = _
      cases rest with
      | nil => rw [List.flatMap_nil, joined_singleton, joined]
      | cons y rest =>
        have hpair : isPair (.surrogate n) y = false := by
          cases y with
          | scalar c => rfl
          | surrogate m => exact absurd rfl (hrest n m rest rfl)
        obtain ⟨z, more, hpoints, hz⟩ := head_points y
        rw [List.flatMap_cons, hpoints, List.cons_append, joined_cons_cons (hz _ hpair),
          ← List.cons_append, ← hpoints, ← List.flatMap_cons, ih]
  | case4 => rw [List.flatMap_nil, joined]

/-! ### The text of a string -/

/-- The text of a character in a string. -/
def escapePoint : CodePoint → List Char
  | .scalar c => JsonText.escapeChar c
  | .surrogate n => JsonText.unicodeEscape (0xD800 + n)

/-- The text of a string between its quotes. -/
def escape (s : List CodePoint) : List Char := s.flatMap escapePoint

/-- `json.dumps` of a string. -/
def quote (s : List CodePoint) : List Char := '"' :: escape s ++ ['"']

theorem hexValue_hexDigit {n : ℕ} (h : n < 16) : hexValue (JsonText.hexDigit n) = some n := by
  have hall : ∀ n < 16, hexValue (JsonText.hexDigit n) = some n := by decide
  exact hall n h

theorem ReadsBody.unicodeEscape {body : List Char} {s : Option (List CodePoint)}
    (h : ReadsBody body s) {n : ℕ} (hn : n < 0x10000) :
    ReadsBody (JsonText.unicodeEscape n ++ body) (s.map (codePoint n :: ·)) := by
  refine h.quad ?_
  have hsum : 0x1000 * (n / 0x1000 % 16) + 0x100 * (n / 0x100 % 16) + 0x10 * (n / 0x10 % 16) +
      n % 16 = n := by omega
  rw [hexQuad]
  simp only [hexValue_hexDigit (Nat.mod_lt _ (by decide : 0 < 16)), Option.bind_eq_bind,
    Option.bind_some, hsum]

theorem ReadsBody.escapePoint {body : List Char} {s : List CodePoint}
    (h : ReadsBody body (some s)) (x : CodePoint) :
    ReadsBody (escapePoint x ++ body) (some (points x ++ s)) := by
  cases x with
  | surrogate n =>
    have hread := h.unicodeEscape (n := 0xD800 + n) (by omega)
    rw [codePoint_surrogate n.isLt] at hread
    exact hread
  | scalar c =>
    -- one of the escapes with a letter, or the character itself
    have hsmall : ∀ {body : List Char}, c.toNat < 0x10000 →
        ReadsBody body (some (.scalar c :: s)) →
          ReadsBody body (some (points (.scalar c) ++ s)) := by
      intro body hlt hbody
      rw [points, if_pos hlt]
      exact hbody
    have hletter : ∀ e, e ≠ 'u' → escaped e = some c → c.toNat < 0x10000 →
        ReadsBody (['\\', e] ++ body) (some (points (.scalar c) ++ s)) :=
      fun e hu he hlt => hsmall hlt (h.escape hu he)
    rw [JsonLoads.escapePoint, JsonText.escapeChar]
    split_ifs with hquote hback hprint hnewline hreturn htab hfeed hdelete hlt
    · subst hquote
      exact hletter '"' (by decide) rfl (by decide)
    · subst hback
      exact hletter '\\' (by decide) rfl (by decide)
    · have hrange : 0x20 ≤ c.toNat ∧ c.toNat ≤ 0x7E := by
        simpa [JsonText.printable] using hprint
      have hbody := h.cons hquote hback
      rw [if_neg (by omega)] at hbody
      exact hsmall (by omega) hbody
    · subst hnewline
      exact hletter 'n' (by decide) rfl (by decide)
    · subst hreturn
      exact hletter 'r' (by decide) rfl (by decide)
    · subst htab
      exact hletter 't' (by decide) rfl (by decide)
    · obtain rfl : c = '\x0c' := Char.toNat_inj.mp hfeed
      exact hletter 'f' (by decide) rfl (by decide)
    · obtain rfl : c = '\x08' := Char.toNat_inj.mp hdelete
      exact hletter 'b' (by decide) rfl (by decide)
    · have hbody := h.unicodeEscape hlt
      rw [Option.map_some, codePoint_toNat] at hbody
      exact hsmall hlt hbody
    · have hmax : c.toNat < 0x110000 := by
        have hvalid := c.valid
        rw [UInt32.isValidChar, Nat.isValidChar] at hvalid
        show c.val.toNat < 0x110000
        omega
      have hlow := h.unicodeEscape (n := 0xDC00 + (c.toNat - 0x10000) % 0x400) (by omega)
      have hboth := hlow.unicodeEscape (n := 0xD800 + (c.toNat - 0x10000) / 0x400) (by omega)
      rw [points, if_neg hlt, List.append_assoc]
      exact hboth

/-- What stands between the quotes. -/
theorem readsBody_escape (s : List CodePoint) : ReadsBody (escape s) (some (s.flatMap points)) := by
  induction s with
  | nil => exact readsBody_nil
  | cons x s ih =>
    rw [escape, List.flatMap_cons, List.flatMap_cons]
    exact ih.escapePoint x

variable {F : Type} {float : List Char → F} {depth : ℕ}

/-- A string is read back with its surrogates joined. -/
theorem reads_quote (s : List CodePoint) :
    Reads float depth (quote s) (some (.str (joined s))) := by
  have hread := @reads_str F float depth _ _ (readsBody_escape s)
  rw [Option.map_some, joined_points] at hread
  exact hread

/-! ### Plain text -/

theorem joined_scalars (text : List Char) :
    joined (text.map .scalar) = text.map CodePoint.scalar := by
  induction text with
  | nil => rw [List.map_nil, joined]
  | cons c text ih => rw [List.map_cons, joined_cons_scalar, ih]

/-- The characters of a string. -/
def ofString (s : String) : List CodePoint := s.toList.map .scalar

theorem ofString_inj {s t : String} : ofString s = ofString t ↔ s = t := by
  refine ⟨fun h => String.toList_inj.mp ?_, congrArg ofString⟩
  exact List.map_injective_iff.mpr (fun _ _ h => CodePoint.scalar.inj h) h

/-- Text that needs no escape. -/
theorem readsBody_plain {text : List Char} (h : ∀ c ∈ text, JsonText.plain c = true) :
    ReadsBody text (some (text.map .scalar)) := by
  induction text with
  | nil => exact readsBody_nil
  | cons c text ih =>
    have hc := h c List.mem_cons_self
    simp only [JsonText.plain, JsonText.printable, Bool.and_eq_true, decide_eq_true_eq,
      bne_iff_ne] at hc
    have hbody := (ih fun d hd => h d (List.mem_cons_of_mem _ hd)).cons hc.1.2 hc.2
    rw [if_neg (by omega)] at hbody
    exact hbody

/-- A field whose key needs no escape. -/
def Entry.named (key : List Char) (text : List Char) (value : Option (Value F)) : Entry F :=
  ⟨key, key.map .scalar, text, value⟩

theorem Entry.Reads.named {key text : List Char} {value : Option (Value F)}
    (hkey : key.all JsonText.plain = true) (h : JsonLoads.Reads float depth text value) :
    (Entry.named key text value).Reads float depth :=
  ⟨⟨_, readsBody_plain (List.all_eq_true.mp hkey), joined_scalars key⟩, h⟩

/-- The characters of an object. -/
theorem mem_object {gap : List Char} {fields : List (List Char × List Char)} {c : Char}
    (h : c ∈ object gap fields) : c ∈ ['{', '}', ',', ':', '"'] ∨ c ∈ gap ∨
      ∃ item ∈ fields, c ∈ item.1 ∨ c ∈ item.2 := by
  have hmark : ∀ mark ∈ ['{', '}', ',', ':', '"'], c = mark →
      c ∈ ['{', '}', ',', ':', '"'] ∨ c ∈ gap ∨ ∃ item ∈ fields, c ∈ item.1 ∨ c ∈ item.2 := by
    rintro mark hmark rfl
    exact Or.inl hmark
  rw [object, List.mem_append, List.mem_cons, List.mem_singleton] at h
  rcases h with (h | h) | h
  · exact hmark '{' (by decide) h
  · rcases JsonText.mem_intercalate h with h | ⟨text, htext, h⟩
    · rcases List.mem_cons.mp h with h | h
      · exact hmark ',' (by decide) h
      · exact Or.inr (Or.inl h)
    · obtain ⟨item, hitem, rfl⟩ := List.mem_map.mp htext
      rw [field] at h
      simp only [List.mem_append, List.mem_cons] at h
      rcases h with ((h | h) | h | h | h) | h
      · exact hmark '"' (by decide) h
      · exact Or.inr (Or.inr ⟨item, hitem, Or.inl h⟩)
      · exact hmark '"' (by decide) h
      · exact hmark ':' (by decide) h
      · exact Or.inr (Or.inl h)
      · exact Or.inr (Or.inr ⟨item, hitem, Or.inr h⟩)
  · exact hmark '}' (by decide) h

end JsonLoads

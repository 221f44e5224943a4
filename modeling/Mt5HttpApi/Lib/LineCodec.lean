import Mathlib.Algebra.GroupWithZero.Nat
import Mathlib.Data.List.DropRight
import Mathlib.Data.List.TakeWhile
import Mathlib.Data.Nat.Find
import Mt5HttpApi.Lib.Utf16

/-!
# Decoding from the middle

What a decoder makes of the end of some bytes, and what it makes of the whole of them. A `Stepwise`
decoder makes one item after another, each of what is left. It is `LineSafe` when a line feed is
made of its own bytes only, and of them wherever they are: then both agree after the first line
feed.

* `LineSafe.split`: the bytes before and after a line feed are decoded on their own.
* `LineSafe.afterBreak_eq`: what comes after the first line feed of the end is what comes after the
  first line feed of the whole from there on.
* `Utf16.lineSafe`: the decoder of UTF-16 is line safe.
-/

namespace Codec

/-- The items are made one after another, each of what is left. -/
structure Stepwise (items : List UInt8 → List Item) (next : UInt8 → List UInt8 → Item) : Prop where
  nil : items [] = []
  cons : ∀ b rest, items (b :: rest) = next b rest :: items (rest.drop ((next b rest).width - 1))
  pos : ∀ b rest, 0 < (next b rest).width
  le : ∀ b rest, (next b rest).width ≤ rest.length + 1

/-- A line feed is an item of its own. All items but the last are made of as many bytes as it, or a
multiple of them. -/
structure LineSafe (newline : List UInt8) (next : UInt8 → List UInt8 → Item) : Prop where
  aligned : ∀ b rest, newline.length ∣ (next b rest).width ∨ (next b rest).width = rest.length + 1
  before : ∀ b bytes rest, newline.length ∣ bytes.length + 1 →
    next b (bytes ++ newline ++ rest) = next b bytes
  here : ∀ b bytes, newline <+: b :: bytes → next b bytes = ⟨some '\n', newline.length⟩
  found : ∀ b bytes, (next b bytes).char = some '\n' → newline <+: b :: bytes

/-- How many bytes items are. -/
def widths (items : List Item) : ℕ := (items.map Item.width).sum

/-- What comes after the first line feed that is at a position or later. -/
def afterBreak (start position : ℕ) : List Item → Option (List Char)
  | [] => none
  | item :: items =>
    if start ≤ position ∧ item.char = some '\n' then some (replace items)
    else afterBreak start (position + item.width) items

/-- What comes after the first line feed of a text. -/
def afterFirst (text : List Char) : List Char := (text.dropWhile (· ≠ '\n')).drop 1

variable {items : List UInt8 → List Item} {next : UInt8 → List UInt8 → Item}
  {newline bytes rest : List UInt8} {start position : ℕ}

/-- The items are of all the bytes. -/
theorem Stepwise.widths_eq (h : Stepwise items next) (bytes : List UInt8) :
    widths (items bytes) = bytes.length := by
  induction hn : bytes.length using Nat.strong_induction_on generalizing bytes with
  | _ n ih =>
    cases bytes with
    | nil =>
      rw [h.nil, ← hn]
      rfl
    | cons b rest =>
      have hpos := h.pos b rest
      have hle := h.le b rest
      rw [List.length_cons] at hn
      have hrest := ih _ (by rw [List.length_drop]; omega)
        (rest.drop ((next b rest).width - 1)) rfl
      unfold widths at hrest ⊢
      rw [h.cons, List.map_cons, List.sum_cons, hrest, List.length_drop]
      omega

/-- What comes after some items is made of what is left. -/
theorem Stepwise.drop_eq (h : Stepwise items next) {before after : List Item}
    (hitems : items bytes = before ++ after) : items (bytes.drop (widths before)) = after := by
  induction before generalizing bytes with
  | nil => exact hitems
  | cons item before ih =>
    cases bytes with
    | nil =>
      rw [h.nil] at hitems
      cases hitems
    | cons b rest =>
      rw [h.cons, List.cons_append, List.cons.injEq] at hitems
      obtain ⟨hitem, hmore⟩ := hitems
      have hpos := h.pos b rest
      have hwidths : widths (item :: before) =
          ((next b rest).width - 1 + widths before) + 1 := by
        unfold widths
        rw [List.map_cons, List.sum_cons, ← hitem]
        omega
      rw [hwidths, List.drop_succ_cons, ← List.drop_drop]
      exact ih hmore

/-- The bytes before a line feed and after it are decoded on their own. -/
theorem LineSafe.split (hstep : Stepwise items next) (h : LineSafe newline next)
    (hne : newline ≠ []) (haligned : newline.length ∣ bytes.length) (rest : List UInt8) :
    items (bytes ++ newline ++ rest) =
      items bytes ++ ⟨some '\n', newline.length⟩ :: items rest := by
  induction hn : bytes.length using Nat.strong_induction_on generalizing bytes with
  | _ n ih =>
    cases bytes with
    | nil =>
      obtain ⟨b, more, rfl⟩ := List.exists_cons_of_ne_nil hne
      have hhere := h.here b (more ++ rest) (by simp)
      rw [List.nil_append, hstep.nil, List.nil_append, List.cons_append, hstep.cons, hhere]
      simp
    | cons b bytes =>
      rw [List.length_cons] at hn haligned
      have hpos := hstep.pos b bytes
      have hle := hstep.le b bytes
      have hshort : (next b bytes).width - 1 ≤ bytes.length := by omega
      -- what is left is aligned too
      have hleft : newline.length ∣ (bytes.drop ((next b bytes).width - 1)).length := by
        rw [List.length_drop]
        rcases h.aligned b bytes with hdvd | hall
        · have hsub := Nat.dvd_sub haligned hdvd
          rwa [show bytes.length - ((next b bytes).width - 1) =
            bytes.length + 1 - (next b bytes).width by omega]
        · rw [hall]
          simp
      have hmore := ih _ (by rw [List.length_drop]; omega) hleft rfl
      rw [List.cons_append, List.cons_append, hstep.cons, h.before b bytes rest haligned,
        hstep.cons b bytes, List.append_assoc, List.drop_append_of_le_length hshort,
        ← List.append_assoc, hmore, List.cons_append]

/-- A line feed among the items is one of the bytes, at an aligned position. -/
theorem LineSafe.exists_of_items (hstep : Stepwise items next) (h : LineSafe newline next)
    {before after : List Item} {item : Item} (hitems : items bytes = before ++ item :: after)
    (hitem : item.char = some '\n') :
    newline.length ∣ widths before ∧ newline <+: bytes.drop (widths before) := by
  constructor
  · -- none of the items before is the last
    induction before generalizing bytes with
    | nil => exact Nat.dvd_zero _
    | cons first before ih =>
      cases bytes with
      | nil =>
        rw [hstep.nil] at hitems
        cases hitems
      | cons b rest =>
        rw [hstep.cons, List.cons_append, List.cons.injEq] at hitems
        obtain ⟨hfirst, hmore⟩ := hitems
        have hwidths : widths (first :: before) = (next b rest).width + widths before := by
          unfold widths
          rw [List.map_cons, List.sum_cons, hfirst]
        rw [hwidths]
        refine Nat.dvd_add ((h.aligned b rest).resolve_right fun hall => ?_) (ih hmore)
        rw [hall, Nat.add_sub_cancel, List.drop_length, hstep.nil] at hmore
        exact absurd hmore (by simp)
  · have hleft := hstep.drop_eq hitems
    rcases hdrop : bytes.drop (widths before) with _ | ⟨b, rest⟩
    · rw [hdrop, hstep.nil] at hleft
      cases hleft
    · rw [hdrop, hstep.cons, List.cons.injEq] at hleft
      rw [← hleft.1] at hitem
      exact h.found b rest hitem

/-- Items before the position, or without a line feed, are gone through. -/
theorem afterBreak_append {before : List Item}
    (hbefore : ∀ done item more, before = done ++ item :: more → item.char = some '\n' →
      position + widths done < start) (after : List Item) :
    afterBreak start position (before ++ after) =
      afterBreak start (position + widths before) after := by
  induction before generalizing position with
  | nil => rfl
  | cons item before ih =>
    have hitem : ¬ (start ≤ position ∧ item.char = some '\n') := by
      rintro ⟨hle, hchar⟩
      have hlt := hbefore [] item before rfl hchar
      simp only [widths, List.map_nil, List.sum_nil] at hlt
      omega
    rw [List.cons_append, afterBreak, if_neg hitem, ih]
    · unfold widths
      rw [List.map_cons, List.sum_cons, Nat.add_assoc]
    · intro done other more hsplit hchar
      have hlt := hbefore (item :: done) other more (by rw [hsplit, List.cons_append]) hchar
      unfold widths at hlt ⊢
      rw [List.map_cons, List.sum_cons] at hlt
      omega

/-- A text without a line feed and what comes after one. -/
theorem afterFirst_append {text : List Char} (h : '\n' ∉ text) (rest : List Char) :
    afterFirst (text ++ '\n' :: rest) = rest := by
  have hplain : ∀ c ∈ text, decide (c ≠ '\n') = true := by
    intro c hc
    rw [decide_eq_true_eq]
    rintro rfl
    exact h hc
  unfold afterFirst
  rw [List.dropWhile_append_of_pos hplain]
  simp

/-- A line feed is shown for an item that is one. -/
theorem mem_replace {items : List Item} (h : '\n' ∈ replace items) :
    ∃ before item after, items = before ++ item :: after ∧ item.char = some '\n' := by
  obtain ⟨item, hitem, hshown⟩ := List.mem_map.mp h
  obtain ⟨before, after, rfl⟩ := List.append_of_mem hitem
  refine ⟨before, item, after, rfl, ?_⟩
  unfold Item.shown at hshown
  cases hchar : item.char with
  | some c =>
    rw [hchar] at hshown
    exact congrArg some hshown
  | none =>
    rw [hchar] at hshown
    revert hshown
    decide

/-- Bytes with a line feed: those before the first one, and those after it. -/
theorem LineSafe.exists_first (hstep : Stepwise items next) (h : LineSafe newline next)
    (hne : newline ≠ []) (hmem : '\n' ∈ replace (items bytes)) :
    ∃ before rest, bytes = before ++ newline ++ rest ∧ newline.length ∣ before.length ∧
      ∀ p, newline.length ∣ p → ¬ newline <+: before.drop p := by
  classical
  have hexists : ∃ p, newline.length ∣ p ∧ newline <+: bytes.drop p := by
    obtain ⟨before, item, after, hitems, hchar⟩ := mem_replace hmem
    exact ⟨_, h.exists_of_items hstep hitems hchar⟩
  obtain ⟨hdvd, rest, hrest⟩ := Nat.find_spec hexists
  set p := Nat.find hexists with hp
  have hlength := congrArg List.length hrest
  have hpos := List.length_pos_iff.mpr hne
  rw [List.length_append, List.length_drop] at hlength
  have htake : (bytes.take p).length = p := by
    rw [List.length_take]
    omega
  refine ⟨bytes.take p, rest, ?_, by rwa [htake], fun p' hdvd' hprefix => ?_⟩
  · rw [List.append_assoc, hrest, List.take_append_drop]
  · have hshort := hprefix.length_le
    rw [List.length_drop, htake] at hshort
    -- a line feed before the first one would be the first one
    refine Nat.find_min hexists (show p' < Nat.find hexists by omega) ⟨hdvd', hprefix.trans ?_⟩
    rw [List.drop_take]
    exact List.take_prefix _ _

/-- What comes after the first line feed of the end of some bytes is what comes after the first line
feed of all of them that is there or later. -/
theorem LineSafe.afterBreak_eq (hstep : Stepwise items next) (h : LineSafe newline next)
    (hne : newline ≠ []) {before : List UInt8} (hbefore : newline.length ∣ before.length)
    (hmem : '\n' ∈ replace (items bytes)) :
    afterBreak before.length 0 (items (before ++ bytes)) =
      some (afterFirst (replace (items bytes))) := by
  obtain ⟨line, rest, hbytes, hline, hfirst⟩ := h.exists_first hstep hne hmem
  have hnone : '\n' ∉ replace (items line) := by
    intro hmem'
    obtain ⟨done, item, more, hitems, hchar⟩ := mem_replace hmem'
    obtain ⟨hdvd, hprefix⟩ := h.exists_of_items hstep hitems hchar
    exact hfirst _ hdvd hprefix
  have haligned : newline.length ∣ (before ++ line).length := by
    rw [List.length_append]
    exact Nat.dvd_add hbefore hline
  have hwhole : items (before ++ bytes) = items (before ++ line) ++
      ⟨some '\n', newline.length⟩ :: items rest := by
    rw [hbytes, ← List.append_assoc, ← List.append_assoc, h.split hstep hne haligned]
  have hskip : ∀ done item more, items (before ++ line) = done ++ item :: more →
      item.char = some '\n' → 0 + widths done < before.length := by
    intro done item more hitems hchar
    obtain ⟨hdvd, hprefix⟩ := h.exists_of_items hstep hitems hchar
    by_contra hlt
    obtain ⟨p, hp⟩ : ∃ p, widths done = before.length + p := ⟨widths done - before.length, by omega⟩
    rw [hp, List.drop_length_add_append] at hprefix
    rw [hp] at hdvd
    exact hfirst p ((Nat.dvd_add_right hbefore).mp hdvd) hprefix
  have hposition : before.length ≤ 0 + widths (items (before ++ line)) := by
    rw [hstep.widths_eq, List.length_append]
    omega
  have hraw : replace (items bytes) = replace (items line) ++ '\n' :: replace (items rest) := by
    rw [hbytes, h.split hstep hne hline]
    unfold replace
    rw [List.map_append, List.map_cons]
    rfl
  rw [hwhole, afterBreak_append hskip, afterBreak, if_pos ⟨hposition, rfl⟩, hraw,
    afterFirst_append hnone]

/-- No other number is a line feed. -/
theorem eq_of_ofNat_newline {n : ℕ} (h : Char.ofNat n = '\n') : n = 10 := by
  by_cases hvalid : n.isValidChar
  · have htoNat : (Char.ofNat n).toNat = n := by
      unfold Char.ofNat
      rw [dif_pos hvalid]
      rfl
    rw [← htoNat, h]
    rfl
  · have hnul : Char.ofNat n = '\x00' := by
      unfold Char.ofNat
      rw [dif_neg hvalid]
      rfl
    rw [hnul] at h
    exact absurd h (by decide)

end Codec

namespace Utf16

open Codec

variable {order : Order}

/-- The first item of bytes. -/
def next (order : Order) (a : UInt8) : List UInt8 → Item
  | [] => ⟨none, 1⟩
  | b :: rest =>
    if isHigh (unitOf order a b) then
      match rest with
      | c :: d :: _ =>
        if isLow (unitOf order c d) then
          ⟨some (join (unitOf order a b) (unitOf order c d)), 4⟩
        else ⟨none, 2⟩
      | _ => ⟨none, 2 + rest.length⟩
    else if isLow (unitOf order a b) then ⟨none, 2⟩
    else ⟨some (Char.ofNat (unitOf order a b)), 2⟩

/-- The cases of the first item: a single byte, a first half with its other half, one before another
unit, one at the end, a second half, and a character. -/
theorem next_cases {motive : UInt8 → List UInt8 → Item → Prop} (a : UInt8)
    (single : motive a [] ⟨none, 1⟩)
    (pair : ∀ b c d rest, isHigh (unitOf order a b) = true → isLow (unitOf order c d) = true →
      motive a (b :: c :: d :: rest) ⟨some (join (unitOf order a b) (unitOf order c d)), 4⟩)
    (high : ∀ b c d rest, isHigh (unitOf order a b) = true → isLow (unitOf order c d) = false →
      motive a (b :: c :: d :: rest) ⟨none, 2⟩)
    (last : ∀ b, isHigh (unitOf order a b) = true → motive a [b] ⟨none, 2⟩)
    (lastOdd : ∀ b c, isHigh (unitOf order a b) = true → motive a [b, c] ⟨none, 3⟩)
    (low : ∀ b rest, isHigh (unitOf order a b) = false → isLow (unitOf order a b) = true →
      motive a (b :: rest) ⟨none, 2⟩)
    (char : ∀ b rest, isHigh (unitOf order a b) = false → isLow (unitOf order a b) = false →
      motive a (b :: rest) ⟨some (Char.ofNat (unitOf order a b)), 2⟩)
    (bytes : List UInt8) : motive a bytes (next order a bytes) := by
  rcases bytes with _ | ⟨b, rest⟩
  · exact single
  cases hhigh : isHigh (unitOf order a b) with
  | true =>
    rcases rest with _ | ⟨c, _ | ⟨d, rest⟩⟩
    · have hnext : next order a [b] = ⟨none, 2⟩ := by simp [next, hhigh]
      rw [hnext]
      exact last b hhigh
    · have hnext : next order a [b, c] = ⟨none, 3⟩ := by simp [next, hhigh]
      rw [hnext]
      exact lastOdd b c hhigh
    · cases hlow : isLow (unitOf order c d) with
      | true =>
        have hnext : next order a (b :: c :: d :: rest) =
            ⟨some (join (unitOf order a b) (unitOf order c d)), 4⟩ := by simp [next, hhigh, hlow]
        rw [hnext]
        exact pair b c d rest hhigh hlow
      | false =>
        have hnext : next order a (b :: c :: d :: rest) = ⟨none, 2⟩ := by
          simp [next, hhigh, hlow]
        rw [hnext]
        exact high b c d rest hhigh hlow
  | false =>
    cases hlow : isLow (unitOf order a b) with
    | true =>
      have hnext : next order a (b :: rest) = ⟨none, 2⟩ := by simp [next, hhigh, hlow]
      rw [hnext]
      exact low b rest hhigh hlow
    | false =>
      have hnext : next order a (b :: rest) = ⟨some (Char.ofNat (unitOf order a b)), 2⟩ := by
        simp [next, hhigh, hlow]
      rw [hnext]
      exact char b rest hhigh hlow

theorem stepwise (order : Order) : Stepwise (items order) (next order) where
  nil := by rw [items]
  cons a bytes := by
    refine next_cases (motive := fun a bytes item =>
      items order (a :: bytes) = item :: items order (bytes.drop (item.width - 1)))
      a ?_ ?_ ?_ ?_ ?_ ?_ ?_ bytes
    · simp [items]
    · intro b c d rest hhigh hlow
      rw [items.eq_def]
      simp [hhigh, hlow]
    · intro b c d rest hhigh hlow
      rw [items.eq_def]
      simp [hhigh, hlow]
    · intro b hhigh
      rw [items.eq_def]
      simp [hhigh, items]
    · intro b c hhigh
      rw [items.eq_def]
      simp [hhigh, items]
    · intro b rest hhigh hlow
      rw [items.eq_def]
      simp [hhigh, hlow]
    · intro b rest hhigh hlow
      rw [items.eq_def]
      simp [hhigh, hlow]
  pos a bytes := next_cases (motive := fun _ _ item => 0 < item.width) a (by simp) (by simp)
    (by simp) (by simp) (by simp) (by simp) (by simp) bytes
  le a bytes := next_cases (motive := fun _ bytes item => item.width ≤ bytes.length + 1) a
    (by simp) (by simp) (by simp) (by simp) (by simp) (by simp) (by simp) bytes

theorem bytesOf_unitOf (order : Order) (a b : UInt8) :
    bytesOf order (unitOf order a b) = [a, b] := by
  have ha := a.toNat_lt
  have hb := b.toNat_lt
  cases order with
  | little =>
    have hlow : (a.toNat + 256 * b.toNat) % 256 = a.toNat := by omega
    have hhigh : (a.toNat + 256 * b.toNat) / 256 = b.toNat := by omega
    unfold bytesOf unitOf
    simp only [hlow, hhigh, UInt8.ofNat_toNat]
  | big =>
    have hlow : (b.toNat + 256 * a.toNat) % 256 = b.toNat := by omega
    have hhigh : (b.toNat + 256 * a.toNat) / 256 = a.toNat := by omega
    unfold bytesOf unitOf
    simp only [hlow, hhigh, UInt8.ofNat_toNat]

/-- A line feed is made of its own unit, and no other item takes that. -/
theorem lineSafe (order : Order) : LineSafe (bytesOf order 10) (next order) := by
  obtain ⟨x, y, hline, hunit⟩ := @unitOf_bytesOf order 10 (by decide)
  -- a line feed is no surrogate
  have hnotHigh : isHigh (unitOf order x y) = false := by rw [hunit]; decide
  have hnotLow : isLow (unitOf order x y) = false := by rw [hunit]; decide
  rw [hline]
  refine ⟨fun a bytes => ?_, fun a bytes rest => ?_, fun a bytes h => ?_, fun a bytes => ?_⟩
  · exact next_cases (motive := fun _ bytes item =>
      [x, y].length ∣ item.width ∨ item.width = bytes.length + 1) a (by simp) (by simp) (by simp)
        (by simp) (by simp) (by simp) (by simp) bytes
  · refine next_cases (motive := fun a bytes item =>
      [x, y].length ∣ bytes.length + 1 → next order a (bytes ++ [x, y] ++ rest) = item)
      a ?_ ?_ ?_ ?_ ?_ ?_ ?_ bytes
    · simp
    · intro b c d more hhigh hlow _
      simp [next, hhigh, hlow]
    · intro b c d more hhigh hlow _
      simp [next, hhigh, hlow]
    · intro b hhigh _
      simp [next, hhigh, hnotLow]
    -- three bytes are no whole units
    · intro b c _ hodd
      simp at hodd
    · intro b more hhigh hlow _
      simp [next, hhigh, hlow]
    · intro b more hhigh hlow _
      simp [next, hhigh, hlow]
  · obtain ⟨more, hmore⟩ := h
    obtain ⟨rfl, rfl⟩ : x = a ∧ y :: more = bytes := by simpa using hmore
    simp only [next, hnotHigh, hnotLow, Bool.false_eq_true, if_false]
    rw [hunit]
    rfl
  · refine next_cases (motive := fun a bytes item =>
      item.char = some '\n' → [x, y] <+: a :: bytes) a ?_ ?_ ?_ ?_ ?_ ?_ ?_ bytes
    · simp
    · intro b c d more _ _ hchar
      have hvalue := eq_of_ofNat_newline (Option.some.inj hchar)
      omega
    · simp
    · simp
    · simp
    · simp
    · intro b more _ _ hchar
      have hvalue := eq_of_ofNat_newline (Option.some.inj hchar)
      have hbytes := bytesOf_unitOf order a b
      rw [hvalue, hline] at hbytes
      rw [hbytes]
      exact ⟨more, rfl⟩

end Utf16

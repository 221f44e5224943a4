import Mt5HttpApi.Lib.JsonEscape

/-!
# JSON text that a program writes by hand

A program without a JSON library puts text together from literals, numbers and strings that it
escapes on its own, and writes it through a code page. `Tree` is what it writes. `Legal.reads_text`
says what Python's parser makes of the text when `esc` is the escaper, and `Legal.matches_text` what
the bytes are when the text is written in another encoding than it is read in.
-/

namespace JsonLoads

open Utf8

/-- What is written: numbers, bools, strings, arrays and objects. A `lit` is a string that is
written as it is. -/
inductive Tree
  | int (n : ℤ)
  | bool (b : Bool)
  | lit (s : List Char)
  | str (s : List Char)
  | arr (items : List Tree)
  | obj (fields : List (List Char × Tree))

namespace Tree

/-- What is made of each kind of tree. -/
structure Alg (α : Type) where
  int : ℤ → α
  bool : Bool → α
  lit : List Char → α
  str : List Char → α
  arr : List α → α
  obj : List (List Char × α) → α

section Fold

variable {α : Type} (alg : Alg α)

mutual

/-- What is made of a tree, from the leaves up. -/
def fold : Tree → α
  | int n => alg.int n
  | bool b => alg.bool b
  | lit s => alg.lit s
  | str s => alg.str s
  | arr items => alg.arr (foldItems items)
  | obj fields => alg.obj (foldFields fields)

def foldItems : List Tree → List α
  | [] => []
  | t :: items => fold t :: foldItems items

def foldFields : List (List Char × Tree) → List (List Char × α)
  | [] => []
  | (key, t) :: fields => (key, fold t) :: foldFields fields

end

theorem fold_arr (items : List Tree) : fold alg (arr items) = alg.arr (items.map (fold alg)) := by
  have hitems : ∀ items, foldItems alg items = items.map (fold alg) := by
    intro items
    induction items with
    | nil => rw [foldItems, List.map_nil]
    | cons t items ih => rw [foldItems, ih, List.map_cons]
  rw [fold, hitems]

theorem fold_obj (fields : List (List Char × Tree)) :
    fold alg (obj fields) = alg.obj (fields.map fun item => (item.1, fold alg item.2)) := by
  have hfields : ∀ fields, foldFields alg fields =
      fields.map fun item => (item.1, fold alg item.2) := by
    intro fields
    induction fields with
    | nil => rw [foldFields, List.map_nil]
    | cons item fields ih => rw [foldFields, ih, List.map_cons]
  rw [fold, hfields]

end Fold

/-- The text, with its strings escaped. -/
def text (esc : List Char → List Char) : Tree → List Char :=
  fold ⟨intText, boolText, fun s => '"' :: s ++ ['"'], fun s => '"' :: esc s ++ ['"'], array [],
    object []⟩

/-- The value, with what its strings are read as. -/
def value {F : Type} (read : List Char → List CodePoint) : Tree → Value F :=
  fold ⟨.int, .bool, fun s => .str (s.map .scalar), fun s => .str (read s), .arr,
    fun fields => .obj (fields.map fun item => (item.1.map .scalar, item.2))⟩

/-- The strings that are escaped. -/
def strings : Tree → List (List Char) :=
  fold ⟨fun _ => [], fun _ => [], fun _ => [], fun s => [s], List.flatten, List.flatMap Prod.snd⟩

/-- Other strings in the place of the strings. -/
def map (f : List Char → List Char) : Tree → Tree :=
  fold ⟨int, bool, lit, fun s => str (f s), arr, obj⟩

/-- A tree that nests no deeper than `depth`. Its keys need no escape and are distinct, and its
numbers are short enough to be read. -/
inductive Legal : ℕ → Tree → Prop
  | int {depth : ℕ} {n : ℤ} (h : (Nat.toDigits 10 n.natAbs).length ≤ PyInt.maxDigits) :
      Legal depth (int n)
  | bool {depth : ℕ} (b : Bool) : Legal depth (bool b)
  | lit {depth : ℕ} {s : List Char} (h : s.all JsonText.plain = true) : Legal depth (lit s)
  | str {depth : ℕ} (s : List Char) : Legal depth (str s)
  | arr {depth : ℕ} {items : List Tree} (h : ∀ t ∈ items, Legal depth t) :
      Legal (depth + 1) (arr items)
  | obj {depth : ℕ} {fields : List (List Char × Tree)}
      (hkeys : ∀ item ∈ fields, item.1.all JsonText.plain = true)
      (hnodup : (fields.map Prod.fst).Nodup) (h : ∀ item ∈ fields, Legal depth item.2) :
      Legal (depth + 1) (obj fields)

/-- An object, by its keys. -/
theorem Legal.of_keys {depth : ℕ} {fields : List (List Char × Tree)} (keys : List String)
    (hfst : fields.map Prod.fst = keys.map String.toList)
    (hplain : (keys.all fun key => key.toList.all JsonText.plain) = true) (hnodup : keys.Nodup)
    (h : ∀ item ∈ fields, Legal depth item.2) : Legal (depth + 1) (Tree.obj fields) := by
  refine .obj (fun item hitem => ?_) ?_ h
  · have hmem : item.1 ∈ keys.map String.toList := hfst ▸ List.mem_map_of_mem hitem
    obtain ⟨key, hkey, heq⟩ := List.mem_map.mp hmem
    rw [← heq]
    exact List.all_eq_true.mp hplain key hkey
  · rw [hfst]
    exact hnodup.map fun _ _ heq => String.toList_inj.mp heq

section Lemmas

variable {esc : List Char → List Char} {depth : ℕ} {t : Tree} {items : List Tree}
  {fields : List (List Char × Tree)}

@[simp]
theorem strings_int (n : ℤ) : (int n).strings = [] := rfl

@[simp]
theorem strings_bool (b : Bool) : (bool b).strings = [] := rfl

@[simp]
theorem strings_lit (s : List Char) : (lit s).strings = [] := rfl

@[simp]
theorem strings_str (s : List Char) : (str s).strings = [s] := rfl

theorem text_arr : (arr items).text esc = array [] (items.map (text esc)) := fold_arr _ items

theorem text_obj :
    (obj fields).text esc = object [] (fields.map fun item => (item.1, item.2.text esc)) :=
  fold_obj _ fields

theorem strings_arr : (arr items).strings = (items.map strings).flatten := fold_arr _ items

theorem strings_obj : (obj fields).strings = fields.flatMap fun item => item.2.strings :=
  (fold_obj _ fields).trans (List.flatMap_map _ _ _)

theorem map_arr {f : List Char → List Char} : (arr items).map f = arr (items.map (map f)) :=
  fold_arr _ items

theorem map_obj {f : List Char → List Char} :
    (obj fields).map f = obj (fields.map fun item => (item.1, item.2.map f)) := fold_obj _ fields

variable {F : Type} {read : List Char → List CodePoint}

theorem value_arr : (arr items).value (F := F) read = .arr (items.map (value read)) :=
  fold_arr _ items

theorem value_obj : (obj fields).value (F := F) read =
    .obj (fields.map fun item => (item.1.map .scalar, item.2.value read)) :=
  (fold_obj _ fields).trans (congrArg Value.obj List.map_map)

theorem mem_strings_arr {s : List Char} :
    s ∈ (arr items).strings ↔ ∃ t ∈ items, s ∈ t.strings := by
  rw [strings_arr, ← List.flatMap_def, List.mem_flatMap]

theorem mem_strings_obj {s : List Char} :
    s ∈ (obj fields).strings ↔ ∃ item ∈ fields, s ∈ item.2.strings := by
  rw [strings_obj, List.mem_flatMap]

/-! ### What is read -/

theorem mapM_if {α β : Type} (p : α → Prop) [DecidablePred p] (f : α → β) (l : List α) :
    (l.mapM fun a => if p a then some (f a) else none) =
      if ∀ a ∈ l, p a then some (l.map f) else none := by
  induction l with
  | nil => rfl
  | cons a l ih =>
    rw [List.mapM_cons, ih]
    by_cases ha : p a
    · by_cases hl : ∀ b ∈ l, p b
      · have hall : ∀ b ∈ a :: l, p b := List.forall_mem_cons.mpr ⟨ha, hl⟩
        rw [if_pos ha, if_pos hl, if_pos hall]
        rfl
      · rw [if_pos ha, if_neg hl, if_neg fun hall => hl (List.forall_mem_cons.mp hall).2]
        rfl
    · rw [if_neg ha, if_neg fun hall => ha (List.forall_mem_cons.mp hall).1]
      rfl

variable {float : List Char → F} {body : List Char → Option (List CodePoint)}

/-- What is read, when `body` is what a string is read as. -/
def readBack (body : List Char → Option (List CodePoint)) (t : Tree) : Option (Value F) :=
  if ∀ s ∈ t.strings, (body s).isSome = true then
    some (t.value fun s => joined ((body s).getD []))
  else none

theorem readBack_str (s : List Char) :
    (str s).readBack (F := F) body = (body s).map fun points => .str (joined points) := by
  rw [readBack, strings_str]
  cases hbody : body s with
  | none => rw [if_neg (by simp [hbody]), Option.map_none]
  | some points =>
    rw [if_pos (by simp [hbody]), Option.map_some]
    show some (Value.str (joined ((body s).getD []))) = _
    rw [hbody, Option.getD_some]

theorem readBack_arr :
    (arr items).readBack (F := F) body = (items.mapM (readBack body)).map .arr := by
  have hmap := mapM_if (fun t => ∀ s ∈ t.strings, (body s).isSome = true)
    (value (F := F) fun s => joined ((body s).getD [])) items
  have hall : (∀ s ∈ (arr items).strings, (body s).isSome = true) ↔
      ∀ t ∈ items, ∀ s ∈ t.strings, (body s).isSome = true :=
    ⟨fun h t ht s hs => h s (mem_strings_arr.mpr ⟨t, ht, hs⟩), fun h s hs =>
      (mem_strings_arr.mp hs).elim fun t ht => h t ht.1 s ht.2⟩
  have hread : items.mapM (readBack (F := F) body) = _ := hmap
  rw [hread, readBack, value_arr]
  by_cases h : ∀ t ∈ items, ∀ s ∈ t.strings, (body s).isSome = true
  · rw [if_pos h, if_pos (hall.mpr h), Option.map_some]
  · rw [if_neg h, if_neg (mt hall.mp h), Option.map_none]

/-- What is read of the fields of an object. -/
theorem mapM_fields : (fields.mapM fun item : List Char × Tree =>
    (item.2.readBack (F := F) body).map fun v => (item.1.map CodePoint.scalar, v)) =
      if ∀ s ∈ (obj fields).strings, (body s).isSome = true then
        some (fields.map fun item => (item.1.map CodePoint.scalar,
          item.2.value fun s => joined ((body s).getD [])))
      else none := by
  have hmap := mapM_if (fun item : List Char × Tree =>
      ∀ s ∈ item.2.strings, (body s).isSome = true)
    (fun item => (item.1.map CodePoint.scalar,
      item.2.value (F := F) fun s => joined ((body s).getD []))) fields
  have hitem : ∀ item : List Char × Tree, ((item.2.readBack (F := F) body).map fun v =>
      (item.1.map CodePoint.scalar, v)) = if ∀ s ∈ item.2.strings, (body s).isSome = true then
        some (item.1.map CodePoint.scalar, item.2.value fun s => joined ((body s).getD []))
      else none := by
    intro item
    rw [readBack]
    split
    next => rw [Option.map_some]
    next => rw [Option.map_none]
  rw [funext hitem, hmap]
  refine if_congr ⟨fun h s hs => ?_, fun h item hitem s hs => ?_⟩ rfl rfl
  · obtain ⟨item, hitem, hs⟩ := mem_strings_obj.mp hs
    exact h item hitem s hs
  · exact h s (mem_strings_obj.mpr ⟨item, hitem, hs⟩)

/-- What a parser makes of the text: an error if a string is one. -/
theorem Legal.reads_text (h : Legal depth t) (hesc : ∀ s, ReadsBody (esc s) (body s)) :
    Reads float depth (t.text esc) (t.readBack body) := by
  induction h with
  | int h =>
    rw [readBack, if_pos (by simp)]
    exact (reads_int h).mono (Nat.zero_le _)
  | bool b =>
    rw [readBack, if_pos (by simp)]
    exact (reads_bool b).mono (Nat.zero_le _)
  | @lit depth s h =>
    have hread := @reads_str F float depth _ _ (readsBody_plain (List.all_eq_true.mp h))
    rw [Option.map_some, joined_scalars] at hread
    rw [readBack, if_pos (by simp)]
    exact hread
  | str s =>
    rw [readBack_str]
    exact reads_str (hesc s)
  | @arr depth items h ih =>
    have hread := @reads_array F float depth [] (by simp)
      (items.map fun t => (t.text esc, t.readBack body)) (by simpa using ih)
    rw [List.map_map, List.mapM_map] at hread
    rw [text_arr, readBack_arr]
    exact hread
  | @obj depth fields hkeys hnodup h ih =>
    have hread := @reads_object F float depth [] (by simp)
      (fields.map fun item => Entry.named item.1 (item.2.text esc) (item.2.readBack body)) (by
        intro e he
        obtain ⟨item, hitem, rfl⟩ := List.mem_map.mp he
        exact .named (hkeys item hitem) (ih item hitem))
    rw [List.map_map, List.mapM_map] at hread
    -- the keys are distinct, so all fields are kept
    have hkept : ∀ read : List Char → List CodePoint,
        fieldsOf (fields.map fun item => (item.1.map CodePoint.scalar,
          item.2.value (F := F) read)) =
            fields.map fun item => (item.1.map CodePoint.scalar, item.2.value read) := by
      intro read
      apply fieldsOf_of_nodup
      rw [List.map_map]
      have hinj : Function.Injective (List.map CodePoint.scalar) :=
        List.map_injective_iff.mpr fun _ _ h => CodePoint.scalar.inj h
      have hkeys := hnodup.map hinj
      rwa [List.map_map] at hkeys
    have hvalue : ((fields.mapM fun item : List Char × Tree =>
        (item.2.readBack (F := F) body).map fun v => (item.1.map CodePoint.scalar, v)).map
          fun items => Value.obj (fieldsOf items)) = (Tree.obj fields).readBack body := by
      rw [mapM_fields, readBack, value_obj]
      split
      next => rw [Option.map_some, hkept]
      next => rw [Option.map_none]
    rw [text_obj, ← hvalue]
    exact hread

/-- Values are the same when their strings are. -/
theorem Legal.value_inj {read' : List Char → List CodePoint} (h : Legal depth t) :
    t.value (F := F) read = t.value read' ↔ ∀ s ∈ t.strings, read s = read' s := by
  induction h with
  | int h => exact ⟨fun _ s hs => absurd hs List.not_mem_nil, fun _ => rfl⟩
  | bool b => exact ⟨fun _ s hs => absurd hs List.not_mem_nil, fun _ => rfl⟩
  | lit h => exact ⟨fun _ s hs => absurd hs List.not_mem_nil, fun _ => rfl⟩
  | str s =>
    rw [strings_str, List.forall_mem_singleton]
    exact ⟨fun h => Value.str.inj h, fun h => congrArg Value.str h⟩
  | arr h ih =>
    rw [value_arr, value_arr, Value.arr.injEq, List.map_inj_left]
    refine ⟨fun heq s hs => ?_, fun hread t ht => ?_⟩
    · obtain ⟨t, ht, hs⟩ := mem_strings_arr.mp hs
      exact (ih t ht).mp (heq t ht) s hs
    · exact (ih t ht).mpr fun s hs => hread s (mem_strings_arr.mpr ⟨t, ht, hs⟩)
  | obj hkeys hnodup h ih =>
    rw [value_obj, value_obj, Value.obj.injEq, List.map_inj_left]
    refine ⟨fun heq s hs => ?_, fun hread item hitem => ?_⟩
    · obtain ⟨item, hitem, hs⟩ := mem_strings_obj.mp hs
      exact (ih item hitem).mp (Prod.mk.inj (heq item hitem)).2 s hs
    · exact congrArg _ ((ih item hitem).mpr fun s hs =>
        hread s (mem_strings_obj.mpr ⟨item, hitem, hs⟩))

/-- The strings of a tree are changed in the value alone. -/
theorem Legal.value_map {f : List Char → List Char} (h : Legal depth t) :
    (t.map f).value (F := F) read = t.value fun s => read (f s) := by
  induction h with
  | int h => rfl
  | bool b => rfl
  | lit h => rfl
  | str s => rfl
  | arr h ih =>
    rw [map_arr, value_arr, value_arr, List.map_map]
    exact congrArg Value.arr (List.map_congr_left ih)
  | obj hkeys hnodup h ih =>
    rw [map_obj, value_obj, value_obj, List.map_map]
    exact congrArg Value.obj (List.map_congr_left fun item hitem => congrArg _ (ih item hitem))

theorem Legal.strings_map {f : List Char → List Char} (h : Legal depth t) :
    (t.map f).strings = t.strings.map f := by
  induction h with
  | int h => rfl
  | bool b => rfl
  | lit h => rfl
  | str s => rfl
  | arr h ih =>
    rw [map_arr, strings_arr, strings_arr, List.map_map, List.map_flatten, List.map_map]
    exact congrArg List.flatten (List.map_congr_left ih)
  | obj hkeys hnodup h ih =>
    rw [map_obj, strings_obj, strings_obj, List.flatMap_map, List.map_flatMap]
    exact List.flatMap_congr ih

theorem Legal.map {f : List Char → List Char} (h : Legal depth t) : Legal depth (t.map f) := by
  induction h with
  | int h => exact .int h
  | bool b => exact .bool b
  | lit h => exact .lit h
  | str s => exact .str (f s)
  | arr h ih =>
    rw [map_arr]
    refine .arr fun t ht => ?_
    obtain ⟨t', ht', rfl⟩ := List.mem_map.mp ht
    exact ih t' ht'
  | @obj depth fields hkeys hnodup h ih =>
    rw [map_obj]
    have hfst : (fields.map fun item => (item.1, item.2.map f)).map Prod.fst =
        fields.map Prod.fst := by
      rw [List.map_map]
      rfl
    refine .obj (fun item hitem => ?_) (by rwa [hfst]) fun item hitem => ?_
    · obtain ⟨item', hitem', rfl⟩ := List.mem_map.mp hitem
      exact hkeys item' hitem'
    · obtain ⟨item', hitem', rfl⟩ := List.mem_map.mp hitem
      exact ih item' hitem'

/-! ### Where the strings stand -/

theorem infix_intercalate {sep piece : List Char} {pieces : List (List Char)}
    (h : piece ∈ pieces) : piece <:+: List.intercalate sep pieces := by
  induction pieces with
  | nil => cases h
  | cons first pieces ih =>
    cases pieces with
    | nil =>
      rw [List.intercalate_singleton, List.mem_singleton.mp h]
    | cons second pieces =>
      rw [List.intercalate_cons_cons]
      rcases List.mem_cons.mp h with rfl | h
      · rw [List.append_assoc]
        exact (List.prefix_append _ _).isInfix
      · exact (ih h).trans (List.suffix_append _ _).isInfix

theorem plain_of_isDigit {c : Char} (h : c.isDigit = true) : JsonText.plain c = true := by
  have hle := Text.toNat_of_isDigit h
  simp only [JsonText.plain, JsonText.printable, Bool.and_eq_true, decide_eq_true_eq, bne_iff_ne]
  refine ⟨⟨by omega, ?_⟩, ?_⟩
  · rintro rfl
    exact absurd hle (by decide)
  · rintro rfl
    exact absurd hle (by decide)

theorem printable_of_plain {text : List Char} (h : text.all JsonText.plain = true) :
    text.all JsonText.printable = true := by
  rw [List.all_eq_true] at h ⊢
  intro c hc
  have hplain := h c hc
  simp only [JsonText.plain, Bool.and_eq_true] at hplain
  exact hplain.1.1

/-- The digits of a number need no escape. -/
theorem plain_toDigits (n : ℕ) : (Nat.toDigits 10 n).all JsonText.plain = true := by
  rw [List.all_eq_true]
  exact fun c hc => plain_of_isDigit (Nat.isDigit_of_mem_toDigits (by decide) (by decide) hc)

theorem printable_intText (n : ℤ) : (intText n).all JsonText.printable = true := by
  have hdigits := printable_of_plain (plain_toDigits n.natAbs)
  rw [intText]
  split
  next => rw [List.all_cons, hdigits]; rfl
  next => exact hdigits

theorem printable_boolText (b : Bool) : (boolText b).all JsonText.printable = true := by
  cases b with
  | false => decide
  | true => decide

/-- The characters of the text are printable, but for those of its strings. -/
theorem Legal.mem_text {c : Char} (h : Legal depth t) (hc : c ∈ t.text esc) :
    JsonText.printable c = true ∨ ∃ s ∈ t.strings, c ∈ esc s := by
  induction h with
  | @int depth n h => exact Or.inl (List.all_eq_true.mp (printable_intText n) c hc)
  | bool b => exact Or.inl (List.all_eq_true.mp (printable_boolText b) c hc)
  -- quotes, separators and gaps are printable
  | @lit depth s h =>
    change c ∈ '"' :: s ++ ['"'] at hc
    rw [List.mem_append, List.mem_cons, List.mem_singleton] at hc
    rcases hc with (rfl | hc) | rfl
    · exact Or.inl (by decide)
    · exact Or.inl (List.all_eq_true.mp (printable_of_plain h) c hc)
    · exact Or.inl (by decide)
  | str s =>
    change c ∈ '"' :: esc s ++ ['"'] at hc
    rw [List.mem_append, List.mem_cons, List.mem_singleton] at hc
    rcases hc with (rfl | hc) | rfl
    · exact Or.inl (by decide)
    · exact Or.inr ⟨s, List.mem_singleton_self s, hc⟩
    · exact Or.inl (by decide)
  | @arr depth items h ih =>
    rw [text_arr, array, List.mem_append, List.mem_cons, List.mem_singleton] at hc
    rcases hc with (rfl | hc) | rfl
    · exact Or.inl (by decide)
    · rcases JsonText.mem_intercalate hc with hc | ⟨text, htext, hc⟩
      · rw [List.mem_singleton.mp hc]
        exact Or.inl (by decide)
      · obtain ⟨t, ht, rfl⟩ := List.mem_map.mp htext
        rcases ih t ht hc with hprintable | ⟨s, hs, hmem⟩
        · exact Or.inl hprintable
        · exact Or.inr ⟨s, mem_strings_arr.mpr ⟨t, ht, hs⟩, hmem⟩
    · exact Or.inl (by decide)
  | @obj depth fields hkeys hnodup h ih =>
    rw [text_obj] at hc
    rcases mem_object hc with hc | hc | ⟨item, hitem, hc⟩
    · simp only [List.mem_cons, List.not_mem_nil, or_false] at hc
      rcases hc with rfl | rfl | rfl | rfl | rfl
      all_goals exact Or.inl (by decide)
    · exact absurd hc List.not_mem_nil
    · obtain ⟨item', hitem', rfl⟩ := List.mem_map.mp hitem
      rcases hc with hc | hc
      · exact Or.inl (List.all_eq_true.mp (printable_of_plain (hkeys item' hitem')) c hc)
      rcases ih item' hitem' hc with hprintable | ⟨s, hs, hmem⟩
      · exact Or.inl hprintable
      · exact Or.inr ⟨s, mem_strings_obj.mpr ⟨item', hitem', hs⟩, hmem⟩

/-- A string stands between quotes. -/
theorem Legal.quoted_infix {s : List Char} (h : Legal depth t) (hs : s ∈ t.strings) :
    '"' :: esc s ++ ['"'] <:+: t.text esc := by
  induction h with
  | int h => exact absurd hs List.not_mem_nil
  | bool b => exact absurd hs List.not_mem_nil
  | lit h => exact absurd hs List.not_mem_nil
  | str s' =>
    obtain rfl := List.mem_singleton.mp hs
    exact List.infix_rfl
  | arr h ih =>
    obtain ⟨t, ht, hs⟩ := mem_strings_arr.mp hs
    have hitem : t.text esc <:+: List.intercalate [','] _ :=
      infix_intercalate (List.mem_map_of_mem ht)
    rw [text_arr, array]
    exact (ih t ht hs).trans (hitem.trans ⟨['['], [']'], rfl⟩)
  | @obj depth fields hkeys hnodup h ih =>
    obtain ⟨item, hitem, hs⟩ := mem_strings_obj.mp hs
    have hfield : field [] (item.1, item.2.text esc) <:+: List.intercalate [',']
        ((fields.map fun item => (item.1, item.2.text esc)).map (field [])) :=
      infix_intercalate (List.mem_map_of_mem (List.mem_map_of_mem hitem))
    have htext : item.2.text esc <:+: field [] (item.1, item.2.text esc) :=
      (List.suffix_append _ _).isInfix
    rw [text_obj, object]
    exact (ih item hitem hs).trans (htext.trans (hfield.trans ⟨['{'], ['}'], rfl⟩))

end Lemmas

end Tree

/-! ### Another encoding -/

section Encoders

variable {β : Type} {enc enc' : Char → List β} {x x' y y' : List Char}

variable (enc enc') in
/-- What one encoder writes for the first text is what the other writes for the second. -/
def Matches (x y : List Char) : Prop := x.flatMap enc = y.flatMap enc'

theorem Matches.append (h : Matches enc enc' x y) (h' : Matches enc enc' x' y') :
    Matches enc enc' (x ++ x') (y ++ y') := by
  rw [Matches, List.flatMap_append, List.flatMap_append, h, h']

/-- Encoders that agree on ASCII. -/
theorem matches_ascii (henc : ∀ c : Char, c.toNat < 0x80 → enc c = enc' c)
    (h : x.all (fun c => c.toNat < 0x80) = true) : Matches enc enc' x x :=
  List.flatMap_congr fun c hc => henc c (of_decide_eq_true (List.all_eq_true.mp h c hc))

theorem matches_intercalate {α : Type} {sep : List Char} {l : List α} {g g' : α → List Char}
    (hsep : Matches enc enc' sep sep) (h : ∀ a ∈ l, Matches enc enc' (g a) (g' a)) :
    Matches enc enc' (List.intercalate sep (l.map g)) (List.intercalate sep (l.map g')) := by
  induction l with
  | nil => rfl
  | cons a l ih =>
    have ha := h a List.mem_cons_self
    have hl := ih fun b hb => h b (List.mem_cons_of_mem _ hb)
    cases l with
    | nil =>
      rw [List.map_singleton, List.map_singleton, List.intercalate_singleton,
        List.intercalate_singleton]
      exact ha
    | cons b l =>
      rw [List.map_cons, List.map_cons, List.map_cons, List.map_cons,
        List.intercalate_cons_cons, List.intercalate_cons_cons]
      exact (ha.append hsep).append hl

theorem ascii_of_printable {text : List Char} (h : text.all JsonText.printable = true) :
    text.all (fun c => c.toNat < 0x80) = true := by
  rw [List.all_eq_true] at h ⊢
  intro c hc
  have hprint := h c hc
  simp only [JsonText.printable, Bool.and_eq_true, decide_eq_true_eq] at hprint
  exact decide_eq_true (by omega)

theorem ascii_of_plain {key : List Char} (h : key.all JsonText.plain = true) :
    key.all (fun c => c.toNat < 0x80) = true :=
  ascii_of_printable (Tree.printable_of_plain h)

/-- Encoders that agree on ASCII, and on each escaped string with another one, agree on the text
with the others in the place of the strings. -/
theorem Tree.Legal.matches_text {esc f : List Char → List Char} {depth : ℕ} {t : Tree}
    (h : t.Legal depth) (henc : ∀ c : Char, c.toNat < 0x80 → enc c = enc' c)
    (hs : ∀ s ∈ t.strings, Matches enc enc' (esc s) (esc (f s))) :
    Matches enc enc' (t.text esc) ((t.map f).text esc) := by
  have hmark : ∀ c : Char, c.toNat < 0x80 → Matches enc enc' [c] [c] := fun c hc =>
    matches_ascii henc (by rw [List.all_cons, List.all_nil, decide_eq_true hc]; rfl)
  induction h with
  | int h => exact matches_ascii henc (ascii_of_printable (Tree.printable_intText _))
  | bool b => exact matches_ascii henc (ascii_of_printable (Tree.printable_boolText b))
  | @lit depth s h =>
    show Matches enc enc' (['"'] ++ s ++ ['"']) (['"'] ++ s ++ ['"'])
    exact ((hmark '"' (by decide)).append (matches_ascii henc (ascii_of_plain h))).append
      (hmark '"' (by decide))
  | str s =>
    show Matches enc enc' (['"'] ++ esc s ++ ['"']) (['"'] ++ esc (f s) ++ ['"'])
    exact ((hmark '"' (by decide)).append (hs s List.mem_cons_self)).append
      (hmark '"' (by decide))
  | @arr depth items h ih =>
    rw [Tree.map_arr, Tree.text_arr, Tree.text_arr, List.map_map]
    exact ((hmark '[' (by decide)).append (matches_intercalate (hmark ',' (by decide))
      fun t ht => ih t ht fun s hmem => hs s (Tree.mem_strings_arr.mpr ⟨t, ht, hmem⟩))).append
        (hmark ']' (by decide))
  | @obj depth fields hkeys hnodup h ih =>
    rw [Tree.map_obj, Tree.text_obj, Tree.text_obj, object, object, List.map_map, List.map_map,
      List.map_map]
    refine ((hmark '{' (by decide)).append (matches_intercalate (hmark ',' (by decide))
      fun item hitem => ?_)).append (hmark '}' (by decide))
    have htext := ih item hitem fun s hmem =>
      hs s (Tree.mem_strings_obj.mpr ⟨item, hitem, hmem⟩)
    have hkey := matches_ascii henc (ascii_of_plain (hkeys item hitem))
    exact (((hmark '"' (by decide)).append hkey).append
      ((hmark '"' (by decide)).append (hmark ':' (by decide)))).append htext

end Encoders

end JsonLoads

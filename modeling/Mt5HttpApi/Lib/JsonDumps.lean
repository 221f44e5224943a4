import Mt5HttpApi.Lib.JsonTree

/-!
# What Python writes of what it has read

`json.dumps` of a value of `json.loads`. What the parser makes of a text is `Proper`: its integers
are short, its strings have no pairs of surrogates in them, and no object has a key twice
(`fits_of_load`). A proper value is read back from its text (`Value.Fits.load_dumps`), where the
text of a float is read as that float.
-/

namespace JsonLoads

open Utf8

variable {F α : Type}

namespace Value

/-! ### What is made of a value -/

/-- What is made of each kind of value. -/
structure Alg (F α : Type) where
  null : α
  bool : Bool → α
  int : ℤ → α
  float : F → α
  str : List CodePoint → α
  arr : List α → α
  obj : List (List CodePoint × α) → α

section Fold

variable (alg : Alg F α)

mutual

/-- What is made of a value, from the leaves up. -/
def fold : Value F → α
  | null => alg.null
  | bool b => alg.bool b
  | int n => alg.int n
  | float x => alg.float x
  | str s => alg.str s
  | arr items => alg.arr (foldItems items)
  | obj fields => alg.obj (foldFields fields)

def foldItems : List (Value F) → List α
  | [] => []
  | v :: items => fold v :: foldItems items

def foldFields : List (List CodePoint × Value F) → List (List CodePoint × α)
  | [] => []
  | (key, v) :: fields => (key, fold v) :: foldFields fields

end

theorem fold_arr (items : List (Value F)) :
    fold alg (arr items) = alg.arr (items.map (fold alg)) := by
  have hitems : ∀ items, foldItems alg items = items.map (fold alg) := by
    intro items
    induction items with
    | nil => rw [foldItems, List.map_nil]
    | cons v items ih => rw [foldItems, ih, List.map_cons]
  rw [fold, hitems]

theorem fold_obj (fields : List (List CodePoint × Value F)) :
    fold alg (obj fields) = alg.obj (fields.map fun item => (item.1, fold alg item.2)) := by
  have hfields : ∀ fields, foldFields alg fields =
      fields.map fun item => (item.1, fold alg item.2) := by
    intro fields
    induction fields with
    | nil => rw [foldFields, List.map_nil]
    | cons item fields ih => rw [foldFields, ih, List.map_cons]
  rw [fold, hfields]

end Fold

/-- `json.dumps`, where `repr` is the text of a float. -/
def dumps (repr : F → List Char) : Value F → List Char :=
  fold ⟨"null".toList, boolText, intText, repr, quote, array [' '],
    fun fields => object [' '] (fields.map fun item => (escape item.1, item.2))⟩

/-- How deep the arrays and objects of a value nest. -/
def nesting : Value F → ℕ :=
  fold ⟨0, fun _ => 0, fun _ => 0, fun _ => 0, fun _ => 0, fun depths => depths.foldr max 0 + 1,
    fun depths => (depths.map Prod.snd).foldr max 0 + 1⟩

variable {repr : F → List Char} {items : List (Value F)}
  {fields : List (List CodePoint × Value F)} {n : ℕ}

theorem dumps_arr : (arr items).dumps repr = array [' '] (items.map (dumps repr)) :=
  fold_arr _ items

theorem dumps_obj : (obj fields).dumps repr =
    object [' '] (fields.map fun item => (escape item.1, item.2.dumps repr)) := by
  rw [dumps, fold_obj]
  dsimp only
  rw [List.map_map]
  rfl

theorem foldr_max_le_iff {depths : List ℕ} : depths.foldr max 0 ≤ n ↔ ∀ d ∈ depths, d ≤ n := by
  induction depths with
  | nil => simp
  | cons d depths ih => rw [List.foldr_cons, max_le_iff, ih, List.forall_mem_cons]

theorem nesting_arr_le : (arr items).nesting ≤ n + 1 ↔ ∀ v ∈ items, v.nesting ≤ n := by
  have hfold : (arr items).nesting = (items.map nesting).foldr max 0 + 1 := fold_arr _ items
  rw [hfold, Nat.add_le_add_iff_right, foldr_max_le_iff, List.forall_mem_map]

theorem nesting_obj_le : (obj fields).nesting ≤ n + 1 ↔ ∀ item ∈ fields, item.2.nesting ≤ n := by
  have hfold : (obj fields).nesting = (fields.map fun item => item.2.nesting).foldr max 0 + 1 := by
    rw [nesting, fold_obj]
    dsimp only
    rw [List.map_map]
    rfl
  rw [hfold, Nat.add_le_add_iff_right, foldr_max_le_iff, List.forall_mem_map]

/-- An array or an object is one level on its own. -/
theorem one_le_nesting_obj : 1 ≤ (obj fields).nesting := by
  rw [nesting, fold_obj]
  exact Nat.le_add_left _ _

theorem one_le_nesting_arr : 1 ≤ (arr items).nesting := by
  rw [nesting, fold_arr]
  exact Nat.le_add_left _ _

/-! ### Proper values -/

/-- An integer that `str` and `int` take. -/
def Short (n : ℤ) : Prop := (Nat.toDigits 10 n.natAbs).length ≤ PyInt.maxDigits

/-- A value that may be read: integers are short, surrogates unpaired and keys distinct. -/
inductive Proper : Value F → Prop
  | null : Proper null
  | bool (b : Bool) : Proper (bool b)
  | int {n : ℤ} (h : Short n) : Proper (int n)
  | float (x : F) : Proper (float x)
  | str {s : List CodePoint} (h : Unpaired s) : Proper (str s)
  | arr {items : List (Value F)} (h : ∀ v ∈ items, Proper v) : Proper (arr items)
  | obj {fields : List (List CodePoint × Value F)} (hkeys : ∀ item ∈ fields, Unpaired item.1)
      (hnodup : (fields.map Prod.fst).Nodup) (h : ∀ item ∈ fields, Proper item.2) :
      Proper (obj fields)

end Value

/-! ### What is read is proper -/

theorem head?_joined (s : List CodePoint) :
    (joined s).head? = s.head? ∨ ∃ c, (joined s).head? = some (.scalar c) := by
  fun_cases joined s with
  | case1 high low rest hpair => exact Or.inr ⟨_, rfl⟩
  | case2 => exact Or.inl rfl
  | case3 => exact Or.inl rfl
  | case4 => exact Or.inl rfl

/-- Joined surrogates leave no pairs. -/
theorem unpaired_joined (s : List CodePoint) : Unpaired (joined s) := by
  -- what comes after a character is the next one, or a scalar
  have hcons : ∀ x (rest : List CodePoint), (∀ y ∈ rest.head?, isPair x y = false) →
      Unpaired (joined rest) → Unpaired (x :: joined rest) := by
    intro x rest hx hrest
    refine List.isChain_cons.mpr ⟨fun y hy => ?_, hrest⟩
    rcases head?_joined rest with hhead | ⟨c, hhead⟩
    · exact hx y (hhead ▸ hy)
    · rw [hhead, Option.mem_some_iff] at hy
      rw [← hy, isPair]
      rintro _ _ _ ⟨⟩
  fun_induction joined s with
  | case1 high low rest hpair ih =>
    refine hcons _ rest (fun y _ => ?_) ih
    rfl
  | case2 high low rest hpair ih =>
    refine hcons _ _ (fun y hy => ?_) ih
    rw [List.head?_cons, Option.mem_some_iff] at hy
    rw [← hy, isPair]
    simpa using hpair
  | case3 x rest hnot ih =>
    refine hcons x rest (fun y hy => ?_) ih
    cases x with
    | scalar c => rfl
    | surrogate high =>
      cases y with
      | scalar c => rfl
      | surrogate low =>
        obtain ⟨more, rfl⟩ := List.head?_eq_some_iff.mp hy
        exact absurd rfl (hnot high low more rfl)
  | case4 => exact List.isChain_nil

/-- The value of `k` digits. -/
theorem ofDigitChars_lt {digits : List Char} (h : ∀ c ∈ digits, c.isDigit = true) (before : ℕ) :
    Nat.ofDigitChars 10 digits before < 10 ^ digits.length * (before + 1) := by
  induction digits generalizing before with
  | nil => simp
  | cons c digits ih =>
    obtain ⟨hc, hdigits⟩ := List.forall_mem_cons.mp h
    have hle : c.toNat ≤ 57 := (Text.toNat_of_isDigit hc).2
    have hzero : '0'.toNat = 48 := rfl
    have hnext : 10 * before + (c.toNat - '0'.toNat) + 1 ≤ 10 * (before + 1) := by omega
    rw [Nat.ofDigitChars_cons, List.length_cons, pow_succ, mul_assoc]
    exact (ih hdigits _).trans_le (Nat.mul_le_mul_left _ hnext)

namespace Value

theorem short_iff {n : ℤ} : Short n ↔ n.natAbs < 10 ^ PyInt.maxDigits :=
  Nat.length_toDigits_le_iff (by decide) (by decide)

end Value

open Value

variable {float : List Char → F} {text rest : List Char} {v : Value F}

theorem isDigit_of_mem_scanWhole {c : Char} (h : c ∈ scanWhole text) : c.isDigit = true := by
  rw [scanWhole] at h
  split at h
  next => rw [List.mem_singleton.mp h]; decide
  next => exact List.mem_takeWhile_imp h

/-- A value that is proper and nests no deeper than `n`. -/
def Value.Fits (n : ℕ) (v : Value F) : Prop := v.Proper ∧ v.nesting ≤ n

theorem fits_scanNumber (h : scanNumber float text = some (v, rest)) (n : ℕ) : v.Fits n := by
  rw [scanNumber] at h
  dsimp only at h
  split at h
  next => cases h
  split at h
  next =>
    split at h
    next hlength =>
      have hlt := @ofDigitChars_lt _ (fun c => @isDigit_of_mem_scanWhole
        (text.drop (scanMinus text).length) c) 0
      have hshort := hlt.trans_le
        (Nat.mul_le_mul_right _ (Nat.pow_le_pow_right (by decide) hlength))
      rw [Nat.zero_add, Nat.mul_one] at hshort
      cases h
      refine ⟨.int (short_iff.mpr ?_), Nat.zero_le n⟩
      split
      next => rwa [Int.natAbs_natCast]
      next => rwa [Int.natAbs_neg, Int.natAbs_natCast]
    next => cases h
  next =>
    cases h
    exact ⟨.float _, Nat.zero_le n⟩

theorem fits_scanPlain (h : scanPlain float text = some (v, rest)) (n : ℕ) : v.Fits n := by
  rw [scanPlain] at h
  split at h
  next name hname =>
    have hmem := List.mem_of_find?_eq_some hname
    cases h
    simp only [named, List.map_cons, List.map_nil, List.mem_cons, List.not_mem_nil,
      or_false] at hmem
    rcases hmem with rfl | rfl | rfl | rfl | rfl | rfl
    · exact ⟨.null, Nat.zero_le n⟩
    · exact ⟨.bool true, Nat.zero_le n⟩
    · exact ⟨.bool false, Nat.zero_le n⟩
    all_goals exact ⟨.float _, Nat.zero_le n⟩
  next => exact fits_scanNumber h n

/-- What an object is made of, when its keys may come twice. -/
theorem fits_fieldsOf {n : ℕ} {items : List (List CodePoint × Value F)}
    (h : ∀ item ∈ items, Unpaired item.1 ∧ item.2.Fits n) :
    (Value.obj (fieldsOf items)).Fits (n + 1) := by
  have hloop : ∀ (items before : List (List CodePoint × Value F)),
      (∀ item ∈ items, Unpaired item.1 ∧ item.2.Fits n) →
      (∀ item ∈ before, Unpaired item.1 ∧ item.2.Fits n) → (before.map Prod.fst).Nodup →
      (∀ item ∈ items.foldl (fun fields item => Dict.set fields item.1 item.2) before,
        Unpaired item.1 ∧ item.2.Fits n) ∧
      ((items.foldl (fun fields item => Dict.set fields item.1 item.2) before).map
        Prod.fst).Nodup := by
    intro items
    induction items with
    | nil => exact fun before _ hbefore hnodup => ⟨hbefore, hnodup⟩
    | cons item items ih =>
      intro before hitems hbefore hnodup
      obtain ⟨hitem, hitems⟩ := List.forall_mem_cons.mp hitems
      rw [List.foldl_cons]
      refine ih _ hitems (fun other hother => ?_) (Dict.nodup_set hnodup _ _)
      rcases Dict.mem_set hother with rfl | ⟨hother, -⟩
      · exact hitem
      · exact hbefore other hother
  obtain ⟨hfields, hnodup⟩ := hloop items [] h (fun _ hmem => absurd hmem List.not_mem_nil)
    List.nodup_nil
  exact ⟨.obj (fun item hitem => (hfields item hitem).1) hnodup
    fun item hitem => (hfields item hitem).2.1,
    nesting_obj_le.mpr fun item hitem => (hfields item hitem).2.2⟩

/-- What a scanner gives has a property. -/
def Gives {β : Type} (P : β → Prop) (scan : List Char → Except Error (β × List Char)) : Prop :=
  ∀ text r, scan text = .ok r → P r.1

theorem Gives.nested {β : Type} {P : β → Prop} {close : Char} {empty : β}
    {inner : List Char → Except Error (β × List Char)} (hempty : P empty) (h : Gives P inner) :
    Gives P (nested close empty inner) := by
  intro text r hr
  rw [JsonLoads.nested] at hr
  split at hr
  next => cases hr
  split at hr
  next =>
    cases hr
    exact hempty
  next => exact h _ r hr

/-- One item, and what more of them are after it. -/
theorem Gives.continued {β : Type} {P : β → Prop} {close : Char} {first : β}
    {more : List Char → Except Error (List β × List Char)} (hfirst : P first)
    (hmore : Gives (fun items => ∀ x ∈ items, P x) more) :
    Gives (fun items => ∀ x ∈ items, P x) (continued close [first] fun text =>
      (more text).map fun r => (first :: r.1, r.2)) := by
  intro text r hr
  rw [JsonLoads.continued] at hr
  split at hr
  next => cases hr
  split at hr
  next =>
    cases hr
    exact fun x hx => List.mem_singleton.mp hx ▸ hfirst
  split at hr
  next =>
    obtain ⟨items, hitems, rfl⟩ := map_eq_ok hr
    exact List.forall_mem_cons.mpr ⟨hfirst, hmore _ items hitems⟩
  next => cases hr

theorem unpaired_of_scanString {s : List CodePoint} (h : scanString text = some (s, rest)) :
    Unpaired s := by
  obtain ⟨r, -, hr⟩ := Option.map_eq_some_iff.mp h
  cases hr
  exact unpaired_joined r.1

theorem unpaired_of_scanKey {s : List CodePoint} (h : scanKey text = some (s, rest)) :
    Unpaired s := by
  rw [scanKey] at h
  split at h
  next =>
    obtain ⟨r, hr, hkey⟩ := Option.bind_eq_some_iff.mp h
    split at hkey
    next =>
      cases hkey
      exact @unpaired_of_scanString _ r.2 r.1 hr
    next => cases hkey
  next => cases h

/-- What is scanned is proper, and nests as deep as it may. -/
theorem gives_scan (fuel : ℕ) :
    (∀ depth, Gives (Value.Fits depth) (scanOnce float fuel depth)) ∧
    (∀ depth, Gives (fun items => ∀ v ∈ items, Value.Fits depth v)
      (scanItems float fuel depth)) ∧
    ∀ depth, Gives (fun items => ∀ item ∈ items, Unpaired item.1 ∧ Value.Fits depth item.2)
      (scanFields float fuel depth) := by
  -- the three scanners call each other with less fuel
  induction fuel with
  | zero =>
    refine ⟨fun depth text r h => ?_, fun depth text r h => ?_, fun depth text r h => ?_⟩
    · cases h
    · cases h
    · cases h
  | succ fuel ih =>
    obtain ⟨ihOnce, ihItems, ihFields⟩ := ih
    refine ⟨fun depth text r h => ?_, fun depth text r h => ?_, fun depth text r h => ?_⟩
    · rw [scanOnce.eq_def] at h
      dsimp only at h
      split at h
      next =>
        obtain ⟨s, hs, rfl⟩ := map_eq_ok h
        exact ⟨.str (@unpaired_of_scanString _ s.2 s.1 (orError_eq_ok hs)), Nat.zero_le depth⟩
      split at h
      next =>
        cases depth with
        | zero => cases h
        | succ depth =>
          obtain ⟨items, hitems, rfl⟩ := map_eq_ok h
          have hfits := (ihItems depth).nested (fun _ hmem => absurd hmem List.not_mem_nil) _ _
            hitems
          -- an array takes one of the depth
          exact ⟨.arr fun v hv => (hfits v hv).1,
            nesting_arr_le.mpr fun v hv => (hfits v hv).2⟩
      split at h
      next =>
        cases depth with
        | zero => cases h
        | succ depth =>
          obtain ⟨fields, hfields, rfl⟩ := map_eq_ok h
          exact fits_fieldsOf ((ihFields depth).nested
            (fun _ hmem => absurd hmem List.not_mem_nil) _ _ hfields)
      next => exact @fits_scanPlain _ _ _ r.2 r.1 (orError_eq_ok h) depth
    · rw [scanItems_succ] at h
      obtain ⟨item, hitem, h⟩ := bind_eq_ok h
      exact Gives.continued (ihOnce _ _ _ hitem) (ihItems depth) _ _ h
    · rw [scanFields_succ] at h
      obtain ⟨item, hitem, h⟩ := bind_eq_ok h
      rw [scanField] at hitem
      obtain ⟨key, hkey, hitem⟩ := bind_eq_ok hitem
      obtain ⟨value, hvalue, rfl⟩ := map_eq_ok hitem
      refine Gives.continued (P := fun item : List CodePoint × Value F =>
        Unpaired item.1 ∧ item.2.Fits depth) ⟨?_, ihOnce _ _ _ hvalue⟩ (ihFields depth) _ _ h
      exact @unpaired_of_scanKey _ key.2 key.1 (orError_eq_ok hkey)

variable {depth : ℕ}

theorem fits_of_loads (h : loads float depth text = .ok v) : v.Fits depth := by
  rw [loads] at h
  split at h
  next => cases h
  obtain ⟨r, hr, h⟩ := bind_eq_ok h
  have hfits := (gives_scan _).1 _ _ _ hr
  dsimp only at h
  split at h
  next =>
    cases h
    exact hfits
  next => cases h

/-- What is read from a file is proper. -/
theorem fits_of_load {bytes : List UInt8} (h : load float depth bytes = .ok v) :
    v.Fits depth := by
  obtain ⟨text, -, hloads⟩ := bind_eq_ok h
  exact fits_of_loads hloads

/-! ### A proper value is read back -/

/-- How floats are read and written. -/
structure FloatText (F : Type) where
  parse : List Char → F
  repr : F → List Char
  reads_repr : ∀ x, Reads parse 0 (repr x) (some (.float x))
  printable_repr : ∀ x, (repr x).all JsonText.printable = true

variable {t : FloatText F}

theorem joined_points_eq_self {s : List CodePoint} (h : Unpaired s) :
    joined (s.flatMap points) = s := (joined_points s).trans (joined_eq_self h)

theorem reads_null : Reads float 0 "null".toList (some .null) where
  head := ⟨'n', "ull".toList, rfl, by decide⟩
  scan fuel d rest hfuel _ _ := by
    obtain ⟨fuel, rfl⟩ := Nat.exists_eq_succ_of_ne_zero (n := fuel) (by omega)
    show scanOnce float (fuel + 1) d ('n' :: ("ull".toList ++ rest)) = _
    rw [scanOnce_plain (by decide) (by decide) (by decide)]
    simp [scanPlain, named, orError, Except.map]

/-- The text of a proper value is read as that value. -/
theorem Value.Proper.reads_dumps (h : v.Proper) :
    Reads t.parse v.nesting (v.dumps t.repr) (some v) := by
  induction h with
  | null => exact reads_null
  | bool b => exact reads_bool b
  | int hshort => exact reads_int hshort
  | float x => exact t.reads_repr x
  | @str s hs =>
    have hread := @reads_quote F t.parse 0 s
    rwa [joined_eq_self hs] at hread
  | @arr items h ih =>
    obtain ⟨n, hn⟩ := Nat.exists_eq_add_of_le' (@one_le_nesting_arr F items)
    have hread := @reads_array F t.parse n [' '] (by simp [isBlank])
      (items.map fun v => (v.dumps t.repr, some v)) (by
        intro item hitem
        obtain ⟨v, hv, rfl⟩ := List.mem_map.mp hitem
        exact (ih v hv).mono (nesting_arr_le.mp hn.le v hv))
    have hall : (items.map fun v => (v.dumps t.repr, some v)).mapM Prod.snd = some items := by
      rw [List.mapM_map]
      exact (List.mapM_pure (f := id)).trans (congrArg some (List.map_id items))
    rw [hall, List.map_map] at hread
    rw [hn, dumps_arr]
    exact hread
  | @obj fields hkeys hnodup h ih =>
    obtain ⟨n, hn⟩ := Nat.exists_eq_add_of_le' (@one_le_nesting_obj F fields)
    let entry : List CodePoint × Value F → Entry F := fun item =>
      ⟨escape item.1, item.1, item.2.dumps t.repr, some item.2⟩
    have hread := @reads_object F t.parse n [' '] (by simp [isBlank]) (fields.map entry) (by
      intro e he
      obtain ⟨item, hitem, rfl⟩ := List.mem_map.mp he
      exact ⟨⟨_, readsBody_escape item.1, joined_points_eq_self (hkeys item hitem)⟩,
        (ih item hitem).mono (nesting_obj_le.mp hn.le item hitem)⟩)
    have hall : (fields.map entry).mapM Entry.item = some fields := by
      rw [List.mapM_map]
      exact (List.mapM_pure (f := id)).trans (congrArg some (List.map_id fields))
    rw [hall, Option.map_some, fieldsOf_of_nodup hnodup, List.map_map] at hread
    rw [hn, dumps_obj]
    exact hread

/-- The text is in ASCII, without line breaks. -/
theorem Value.Proper.printable_dumps (h : v.Proper) :
    (v.dumps t.repr).all JsonText.printable = true := by
  have hquote : ∀ s : List CodePoint, (escape s).all JsonText.printable = true := by
    intro s
    refine List.all_eq_true.mpr fun c hc => ?_
    obtain ⟨x, -, hx⟩ := List.mem_flatMap.mp hc
    cases x with
    | scalar d => exact List.all_eq_true.mp (JsonText.printable_escapeChar d) c hx
    | surrogate n => exact List.all_eq_true.mp (JsonText.printable_unicodeEscape _) c hx
  induction h with
  | null =>
    show "null".toList.all JsonText.printable = true
    decide
  | bool b => exact Tree.printable_boolText b
  | @int n _ => exact Tree.printable_intText n
  | float x => exact t.printable_repr x
  | @str s _ =>
    show (quote s).all JsonText.printable = true
    rw [quote, List.cons_append, List.all_cons, List.all_append, hquote]
    decide
  | @arr items h ih =>
    refine List.all_eq_true.mpr fun c hc => ?_
    rw [dumps_arr, array, List.cons_append, List.mem_cons, List.mem_append] at hc
    rcases hc with rfl | hc | hc
    · decide
    · rcases JsonText.mem_intercalate hc with hc | ⟨text, htext, hc⟩
      · exact List.all_eq_true.mp (by decide : [',', ' '].all JsonText.printable = true) c hc
      · obtain ⟨v, hv, rfl⟩ := List.mem_map.mp htext
        exact List.all_eq_true.mp (ih v hv) c hc
    · rw [List.mem_singleton.mp hc]
      decide
  | @obj fields hkeys hnodup h ih =>
    refine List.all_eq_true.mpr fun c hc => ?_
    rw [dumps_obj] at hc
    rcases mem_object hc with hc | hc | ⟨item, hitem, hc⟩
    · exact List.all_eq_true.mp
        (by decide : ['{', '}', ',', ':', '"'].all JsonText.printable = true) c hc
    · exact List.all_eq_true.mp (by decide : [' '].all JsonText.printable = true) c hc
    · obtain ⟨field, hfield, rfl⟩ := List.mem_map.mp hitem
      rcases hc with hc | hc
      · exact List.all_eq_true.mp (hquote field.1) c hc
      · exact List.all_eq_true.mp (ih field hfield) c hc

/-- A file that a proper value was written to is read as that value. -/
theorem Value.Fits.load_dumps (h : v.Fits depth) :
    load t.parse depth (Utf8.encode (v.dumps t.repr)) = .ok v := by
  have hreturn : '\r' ∉ v.dumps t.repr := fun hmem =>
    absurd (List.all_eq_true.mp h.1.printable_dumps _ hmem) (by decide)
  rw [load, decode_encode, orError_some, ok_bind, universalNewlines_of_not_mem hreturn,
    (h.1.reads_dumps.mono h.2).loads, orError_some]

end JsonLoads

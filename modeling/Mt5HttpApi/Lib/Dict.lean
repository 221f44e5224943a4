import Mathlib.Data.List.Find
import Mathlib.Data.List.Nodup

/-!
# Dictionaries in the order of insertion

A dictionary is the list of its items. `set` changes the value of a key in its place and puts a new
key at the end, `pop` takes a key out, and `get` looks one up. `get_set` and `get_pop` say what a
lookup finds afterwards, `mem_set` which items there are, and `nodup_set` that no key comes to be
there twice.
-/

namespace Dict

variable {κ ν : Type} [DecidableEq κ]

/-- The value of a key. -/
def get (items : List (κ × ν)) (key : κ) : Option ν :=
  (items.find? fun item => item.1 = key).map Prod.snd

/-- A key is given a value. -/
def set (items : List (κ × ν)) (key : κ) (value : ν) : List (κ × ν) :=
  if items.any fun item => item.1 = key then
    items.map fun item => if item.1 = key then (key, value) else item
  else items ++ [(key, value)]

/-- A key is taken out. -/
def pop (items : List (κ × ν)) (key : κ) : List (κ × ν) :=
  items.filter fun item => item.1 ≠ key

variable {items : List (κ × ν)} {key id : κ} {value : ν}

theorem get_cons (item : κ × ν) :
    get (item :: items) id = if item.1 = id then some item.2 else get items id := by
  rw [get, List.find?_cons]
  by_cases hid : item.1 = id
  · simp [hid]
  · simp [hid, get]

theorem get_append (items' : List (κ × ν)) :
    get (items ++ items') id = (get items id).or (get items' id) := by
  induction items with
  | nil => rfl
  | cons item items ih =>
    rw [List.cons_append, get_cons, get_cons, ih]
    split <;> rfl

/-- The values of all keys are changed alike. -/
theorem get_map_values {ν' : Type} (f : ν → ν') :
    get (items.map fun item => (item.1, f item.2)) id = (get items id).map f := by
  induction items with
  | nil => rfl
  | cons item items ih =>
    rw [List.map_cons, get_cons, get_cons, ih]
    split <;> rfl

theorem get_eq_none_iff : get items key = none ↔ ∀ item ∈ items, item.1 ≠ key := by
  rw [get, Option.map_eq_none_iff, List.find?_eq_none]
  simp only [decide_eq_true_eq, ne_eq]

/-- The item of a lookup. -/
theorem mem_of_get (h : get items key = some value) : (key, value) ∈ items := by
  obtain ⟨item, hfind, rfl⟩ := Option.map_eq_some_iff.mp h
  have hkey : item.1 = key := by simpa using List.find?_some hfind
  rw [← hkey]
  exact List.mem_of_find?_eq_some hfind

/-- Where no key is there twice, every item is found. -/
theorem get_of_mem (hnodup : (items.map Prod.fst).Nodup) {item : κ × ν} (h : item ∈ items) :
    get items item.1 = some item.2 := by
  cases hget : get items item.1 with
  | none => exact absurd rfl (get_eq_none_iff.mp hget item h)
  | some value =>
    have heq : (item.1, value) = item :=
      List.inj_on_of_nodup_map hnodup (mem_of_get hget) h rfl
    rw [← heq]

/-- A key that is there is given another value in its place. -/
theorem get_map_set : get (items.map fun item => if item.1 = key then (key, value) else item) id =
    if id = key then (get items id).map fun _ => value else get items id := by
  induction items with
  | nil => simp [get]
  | cons item items ih =>
    rw [List.map_cons, get_cons, get_cons, ih]
    by_cases hkey : item.1 = key
    · by_cases hid : id = key
      · simp [hkey, hid]
      · simp [hkey, hid, Ne.symm hid]
    · by_cases hid : id = key
      · simp [hkey, hid]
      · simp [hkey, hid]

/-- What is set is found, and nothing else changes. -/
@[simp]
theorem get_set : get (set items key value) id = if id = key then some value else get items id := by
  rw [set]
  split
  next hany =>
    rw [get_map_set]
    split
    next hid =>
      subst hid
      have hsome : get items id ≠ none := by
        obtain ⟨item, hitem, hkey⟩ := List.any_eq_true.mp hany
        rw [Ne, get_eq_none_iff]
        exact fun hne => hne item hitem (by simpa using hkey)
      obtain ⟨old, hold⟩ := Option.ne_none_iff_exists'.mp hsome
      rw [hold, Option.map_some]
    next => rfl
  next hnone =>
    have hget : get items key = none := by
      rw [get_eq_none_iff]
      intro item hitem hkey
      exact hnone (List.any_eq_true.mpr ⟨item, hitem, by simpa using hkey⟩)
    rw [get_append, get_cons]
    by_cases hid : id = key
    · simp [hid, hget]
    · simp [hid, Ne.symm hid, get]

/-- What is popped is gone, and nothing else changes. -/
@[simp]
theorem get_pop : get (pop items key) id = if id = key then none else get items id := by
  split
  next hid =>
    rw [hid, get_eq_none_iff]
    intro item hitem
    simpa using (List.mem_filter.mp hitem).2
  next hid =>
    induction items with
    | nil => rfl
    | cons item items ih =>
      rw [pop, List.filter_cons, ← pop]
      by_cases hkey : item.1 = key
      · have hne : item.1 ≠ id := fun heq => hid (heq.symm.trans hkey)
        rw [if_neg (by simpa using hkey), ih, get_cons, if_neg hne]
      · rw [if_pos (by simpa using hkey), get_cons, get_cons, ih]

/-- Items are filtered by their keys. -/
theorem get_filter_key (p : κ → Bool) :
    get (items.filter fun item => p item.1) id = if p id then get items id else none := by
  induction items with
  | nil => exact (ite_self _).symm
  | cons item items ih =>
    rw [List.filter_cons, get_cons]
    by_cases hid : item.1 = id
    · subst hid
      rw [if_pos rfl]
      split_ifs with hp
      · rw [get_cons, if_pos rfl]
      · rw [ih, if_neg hp]
    · rw [if_neg hid, ← ih]
      split_ifs
      · rw [get_cons, if_neg hid]
      · rfl

/-- Where no key is there twice, what is filtered out is not found, and the rest is. -/
theorem get_filter (hnodup : (items.map Prod.fst).Nodup) (p : κ × ν → Bool) :
    get (items.filter p) id = (get items id).filter fun value => p (id, value) := by
  induction items with
  | nil => rfl
  | cons item items ih =>
    obtain ⟨hnotMem, hnodup⟩ := List.nodup_cons.mp hnodup
    rw [get_cons]
    by_cases hid : item.1 = id
    · subst hid
      have hrest : get (items.filter p) item.1 = none := by
        rw [get_eq_none_iff]
        intro other hother heq
        exact hnotMem (heq ▸ List.mem_map_of_mem (List.mem_of_mem_filter hother))
      rw [if_pos rfl, List.filter_cons]
      split
      next hp => rw [get_cons, if_pos rfl, Option.filter_some, if_pos hp]
      next hp => rw [hrest, Option.filter_some, if_neg hp]
    · rw [if_neg hid, List.filter_cons, ← ih hnodup]
      split
      next => rw [get_cons, if_neg hid]
      next => rfl

/-- A new key comes to the end. -/
theorem set_of_get_eq_none (h : get items key = none) :
    set items key value = items ++ [(key, value)] := by
  refine if_neg fun hany => ?_
  obtain ⟨item, hitem, hkey⟩ := List.any_eq_true.mp hany
  exact get_eq_none_iff.mp h item hitem (by simpa using hkey)

/-- The last key is found, if it is not there before. -/
theorem get_concat_self (h : get items key = none) :
    get (items ++ [(key, value)]) key = some value := by
  rw [get_append, h, get_cons, if_pos rfl, Option.none_or]

/-- So is its value changed in its place. -/
theorem set_concat_self {old : ν} (h : get items key = none) :
    set (items ++ [(key, old)]) key value = items ++ [(key, value)] := by
  have hothers : items.map (fun item => if item.1 = key then (key, value) else item) = items := by
    refine (List.map_congr_left fun item hitem => ?_).trans (List.map_id items)
    exact if_neg (get_eq_none_iff.mp h item hitem)
  rw [set, if_pos (by simp), List.map_append, hothers]
  simp

/-- The items after a key is given a value. -/
theorem mem_set {item : κ × ν} (h : item ∈ set items key value) :
    item = (key, value) ∨ item ∈ items ∧ item.1 ≠ key := by
  rw [set] at h
  split at h
  next =>
    obtain ⟨old, hold, rfl⟩ := List.mem_map.mp h
    split
    next => exact Or.inl rfl
    next hne => exact Or.inr ⟨hold, hne⟩
  next hnone =>
    rcases List.mem_append.mp h with hold | hnew
    · refine Or.inr ⟨hold, fun heq => hnone ?_⟩
      exact List.any_eq_true.mpr ⟨item, hold, by simpa using heq⟩
    · exact Or.inl (List.mem_singleton.mp hnew)

/-- The items of other keys are left as they are. -/
theorem mem_set_of_ne {item : κ × ν} (hne : item.1 ≠ key) :
    item ∈ set items key value ↔ item ∈ items := by
  constructor
  · intro h
    rcases mem_set h with rfl | ⟨hold, -⟩
    · exact absurd rfl hne
    · exact hold
  · intro h
    rw [set]
    split
    next => exact List.mem_map.mpr ⟨item, h, if_neg hne⟩
    next => exact List.mem_append_left _ h

/-- A key that is new comes last. -/
theorem map_fst_set : (set items key value).map Prod.fst =
    if (get items key).isSome then items.map Prod.fst else items.map Prod.fst ++ [key] := by
  have hany : (items.any fun item => item.1 = key) = (get items key).isSome := by
    rw [Bool.eq_iff_iff, List.any_eq_true, get, Option.isSome_map, List.find?_isSome]
  rw [set, hany]
  split
  next =>
    rw [List.map_map]
    refine List.map_congr_left fun item _ => ?_
    simp only [Function.comp_apply]
    split
    next heq => exact heq.symm
    next => rfl
  next => rw [List.map_append, List.map_singleton]

/-- No key comes to be there twice. -/
theorem nodup_set (h : (items.map Prod.fst).Nodup) (key : κ) (value : ν) :
    ((set items key value).map Prod.fst).Nodup := by
  rw [map_fst_set]
  split
  next => exact h
  next hnone =>
    rw [List.nodup_append]
    refine ⟨h, List.nodup_singleton _, ?_⟩
    intro a ha b hb
    obtain ⟨item, hitem, rfl⟩ := List.mem_map.mp ha
    rw [List.mem_singleton.mp hb]
    rw [Bool.not_eq_true, Option.isSome_eq_false_iff, Option.isNone_iff_eq_none] at hnone
    exact get_eq_none_iff.mp hnone item hitem

/-- A key is given the value that it has. -/
theorem set_of_get (hnodup : (items.map Prod.fst).Nodup) (h : get items key = some value) :
    set items key value = items := by
  rw [set, if_pos (List.any_eq_true.mpr ⟨_, mem_of_get h, by simp⟩)]
  conv_rhs => rw [← List.map_id items]
  refine List.map_congr_left fun item hitem => ?_
  split
  next heq =>
    have hvalue := get_of_mem hnodup hitem
    rw [heq, h] at hvalue
    rw [← heq, Option.some.inj hvalue]
    rfl
  next => rfl

end Dict

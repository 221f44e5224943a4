import Mathlib.Data.List.Induction
import Mathlib.Data.List.Nodup
import Mathlib.Data.List.Perm.Basic

/-!
# A table in two arrays

The rows of a table, their keys in one array and their values in another one. A row is removed by
putting the last row in its place and shortening both arrays, and a loop from the last index to the
first removes the rows that it hits by looking up their keys. To read or write outside of an array
is a fault (`none`).

`Table.ofRows` is the table of a list of rows. On such tables nothing faults, and where no key has
two rows, what is removed is just what is meant: `remove_ofRows` and `sweep_ofRows`.
-/

namespace Columns

variable {α κ ν : Type}

/-- An element is overwritten. -/
def put (xs : List α) (i : ℕ) (x : α) : Option (List α) :=
  if i < xs.length then some (xs.set i x) else none

/-- An array gets a length: it loses elements at its end, or gets new ones. -/
def resize [Inhabited α] (n : ℕ) (xs : List α) : List α :=
  xs.take n ++ List.replicate (n - xs.length) default

/-- Two arrays, and whether they were changed since they were saved. -/
structure Table (κ ν : Type) where
  keys : List κ
  vals : List ν
  dirty : Bool

namespace Table

/-- The rows. -/
def rows (t : Table κ ν) : List (κ × ν) := t.keys.zip t.vals

/-- The table of a list of rows. -/
def ofRows (dirty : Bool) (rows : List (κ × ν)) : Table κ ν :=
  ⟨rows.map Prod.fst, rows.map Prod.snd, dirty⟩

variable [Inhabited κ] [Inhabited ν]

/-- The last row takes the place of the one at an index. -/
def swapOut (t : Table κ ν) (i : ℕ) : Option (Table κ ν) := do
  let last := t.keys.length - 1
  let keys ← put t.keys i (← t.keys[last]?)
  let vals ← put t.vals i (← t.vals[last]?)
  some ⟨resize last keys, resize last vals, true⟩

/-- The first row of a key is removed. -/
def remove [DecidableEq κ] (t : Table κ ν) (key : κ) : Option (Table κ ν) :=
  match t.keys.findIdx? fun k => k = key with
  | some i => t.swapOut i
  | none => some t

/-- The loop over the indices below `n`, from the last one: where it hits, the key is removed. -/
def sweep [DecidableEq κ] (hit : Table κ ν → ℕ → Option Bool) : ℕ → Table κ ν → Option (Table κ ν)
  | 0, t => some t
  | n + 1, t => do
    if ← hit t n then sweep hit n (← t.remove (← t.keys[n]?)) else sweep hit n t

/-- A row comes at the end. -/
def push (t : Table κ ν) (key : κ) (val : ν) : Option (Table κ ν) := do
  let n := t.keys.length
  let keys ← put (resize (n + 1) t.keys) n key
  let vals ← put (resize (n + 1) t.vals) n val
  some ⟨keys, vals, t.dirty⟩

end Table

/-! ## Arrays -/

theorem put_append (xs : List α) (y x : α) (ys : List α) :
    put (xs ++ y :: ys) xs.length x = some (xs ++ x :: ys) := by
  rw [put, if_pos (by simp)]
  simp

theorem resize_of_le [Inhabited α] {xs : List α} {n : ℕ} (h : n ≤ xs.length) :
    resize n xs = xs.take n := by
  rw [resize, Nat.sub_eq_zero_of_le h, List.replicate_zero, List.append_nil]

theorem resize_succ [Inhabited α] (xs : List α) :
    resize (xs.length + 1) xs = xs ++ [default] := by
  rw [resize, List.take_of_length_le (Nat.le_succ _), Nat.add_sub_cancel_left]
  rfl

/-- An array whose last element takes the place of another one. -/
theorem take_over [Inhabited α] (before between : List α) (x last : α) :
    (before ++ x :: (between ++ [last]))[before.length + between.length + 1]? = some last ∧
      resize (before.length + between.length + 1) (before ++ last :: (between ++ [last])) =
        before ++ last :: between := by
  have hsplit : ∀ y, before ++ y :: (between ++ [last]) = (before ++ y :: between) ++ [last] := by
    simp
  have hlength : ∀ y, (before ++ y :: between).length = before.length + between.length + 1 := by
    intro y
    rw [List.length_append, List.length_cons]
    omega
  refine ⟨?_, ?_⟩
  · rw [hsplit, ← hlength x, List.getElem?_concat_length]
  · rw [hsplit, ← hlength last, resize_of_le (by simp), List.take_left']
    rfl

namespace Table

variable {before after rows : List (κ × ν)} {row : κ × ν} {dirty : Bool}

@[simp]
theorem keys_ofRows : (ofRows dirty rows).keys = rows.map Prod.fst := rfl

@[simp]
theorem vals_ofRows : (ofRows dirty rows).vals = rows.map Prod.snd := rfl

@[simp]
theorem rows_ofRows : (ofRows dirty rows).rows = rows := by
  rw [Table.rows, keys_ofRows, vals_ofRows, List.zip_map', List.map_id']

variable [Inhabited κ] [Inhabited ν]

/-- A row goes, and those behind it stay in some order. -/
theorem swapOut_ofRows (dirty : Bool) (before after : List (κ × ν)) (row : κ × ν) :
    ∃ after', List.Perm after' after ∧
      (ofRows dirty (before ++ row :: after)).swapOut before.length =
        some (ofRows true (before ++ after')) := by
  rcases List.eq_nil_or_concat after with rfl | ⟨between, last, rfl⟩
  · -- the row is the last one
    refine ⟨[], List.Perm.refl _, ?_⟩
    have harray : ∀ {α : Type} [Inhabited α] (f : κ × ν → α),
        ((before ++ [row]).map f)[before.length]? = some (f row) ∧
          put ((before ++ [row]).map f) before.length (f row) =
            some ((before ++ [row]).map f) ∧
          resize before.length ((before ++ [row]).map f) = before.map f := by
      intro α _ f
      have hput := put_append (before.map f) (f row) (f row) []
      rw [List.length_map] at hput
      rw [List.map_append, List.map_singleton]
      refine ⟨?_, hput, ?_⟩
      · simp
      · rw [resize_of_le (by simp), List.take_left' (List.length_map f)]
    have hlast : ((before ++ [row]).map Prod.fst).length - 1 = before.length := by simp
    obtain ⟨hkey, hkeyPut, hkeys⟩ := harray Prod.fst
    obtain ⟨hval, hvalPut, hvals⟩ := harray Prod.snd
    simp only [swapOut, keys_ofRows, vals_ofRows, hlast, hkey, hval, hkeyPut, hvalPut, hkeys,
      hvals, Option.bind_eq_bind, Option.bind_some, List.append_nil]
    rfl
  · refine ⟨last :: between, ?_, ?_⟩
    · rw [List.concat_eq_append]
      exact (List.perm_append_singleton last between).symm
    rw [List.concat_eq_append]
    have hlast : ((before ++ row :: (between ++ [last])).map Prod.fst).length - 1 =
        before.length + between.length + 1 := by
      simp only [List.length_map, List.length_append, List.length_cons, List.length_nil]
      omega
    have harray : ∀ {α : Type} [Inhabited α] (f : κ × ν → α),
        ((before ++ row :: (between ++ [last])).map f)[before.length + between.length + 1]? =
            some (f last) ∧
          put ((before ++ row :: (between ++ [last])).map f) before.length (f last) =
            some ((before ++ last :: (between ++ [last])).map f) ∧
          resize (before.length + between.length + 1)
              ((before ++ last :: (between ++ [last])).map f) =
            (before ++ last :: between).map f := by
      intro α _ f
      have hput := put_append (before.map f) (f row) (f last) ((between ++ [last]).map f)
      obtain ⟨hget, hresize⟩ := take_over (before.map f) (between.map f) (f row) (f last)
      rw [List.length_map] at hput
      rw [List.length_map, List.length_map] at hget hresize
      simp only [List.map_append, List.map_cons, List.map_nil] at hput ⊢
      exact ⟨hget, hput, hresize⟩
    obtain ⟨hkey, hkeyPut, hkeys⟩ := harray Prod.fst
    obtain ⟨hval, hvalPut, hvals⟩ := harray Prod.snd
    simp only [swapOut, keys_ofRows, vals_ofRows, hlast, hkey, hval, hkeyPut, hvalPut, hkeys,
      hvals, Option.bind_eq_bind, Option.bind_some]
    rfl

/-- A row is added. -/
theorem push_ofRows (key : κ) (val : ν) :
    (ofRows dirty rows).push key val = some (ofRows dirty (rows ++ [(key, val)])) := by
  have harray : ∀ {α : Type} [Inhabited α] (f : κ × ν → α) (x : α),
      put (resize (rows.length + 1) (rows.map f)) rows.length x = some (rows.map f ++ [x]) := by
    intro α _ f x
    have hresize := resize_succ (rows.map f)
    have hput := put_append (rows.map f) default x []
    rw [List.length_map] at hresize hput
    rw [hresize, hput]
  simp only [push, List.length_map, harray, Option.bind_eq_bind, Option.bind_some, ofRows,
    List.map_append, List.map_cons, List.map_nil]

variable [DecidableEq κ]

/-- A key without a row. -/
theorem remove_of_not_mem {key : κ} (h : ∀ r ∈ rows, r.1 ≠ key) :
    (ofRows dirty rows).remove key = some (ofRows dirty rows) := by
  have hnone : (rows.map Prod.fst).findIdx? (fun k => decide (k = key)) = none := by
    rw [List.findIdx?_eq_none_iff]
    intro k hk
    obtain ⟨r, hr, rfl⟩ := List.mem_map.mp hk
    exact decide_eq_false (h r hr)
  rw [remove, keys_ofRows, hnone]

/-- The row of a key that no row before it has. -/
theorem remove_ofRows (dirty : Bool) (after : List (κ × ν)) (h : ∀ r ∈ before, r.1 ≠ row.1) :
    ∃ after', List.Perm after' after ∧ (ofRows dirty (before ++ row :: after)).remove row.1 =
      some (ofRows true (before ++ after')) := by
  have hindex : ((before ++ row :: after).map Prod.fst).findIdx? (fun k => decide (k = row.1)) =
      some before.length := by
    have hnone : (before.map Prod.fst).findIdx? (fun k => decide (k = row.1)) = none := by
      rw [List.findIdx?_eq_none_iff]
      intro k hk
      obtain ⟨r, hr, rfl⟩ := List.mem_map.mp hk
      exact decide_eq_false (h r hr)
    rw [List.map_append, List.findIdx?_append, hnone, List.map_cons, List.findIdx?_cons]
    simp
  rw [remove, keys_ofRows, hindex]
  exact swapOut_ofRows dirty before after row

/-- Where no key has two rows, the row of the key goes. -/
theorem remove_perm (dirty : Bool) (key : κ) (h : (rows.map Prod.fst).Nodup) :
    ∃ dirty' rows', List.Perm rows' (rows.filter fun r => decide (r.1 ≠ key)) ∧
      (ofRows dirty rows).remove key = some (ofRows dirty' rows') := by
  by_cases hkey : key ∈ rows.map Prod.fst
  · obtain ⟨row, hrow, rfl⟩ := List.mem_map.mp hkey
    obtain ⟨before, after, rfl⟩ := List.append_of_mem hrow
    rw [List.map_append, List.map_cons, List.nodup_append, List.nodup_cons] at h
    obtain ⟨-, ⟨hafter, -⟩, hbefore⟩ := h
    have hfirst : ∀ r ∈ before, r.1 ≠ row.1 := fun r hr =>
      hbefore r.1 (List.mem_map_of_mem hr) row.1 List.mem_cons_self
    have hlater : ∀ r ∈ after, r.1 ≠ row.1 := fun r hr heq =>
      hafter (heq ▸ List.mem_map_of_mem hr)
    obtain ⟨after', hperm, hremove⟩ := remove_ofRows dirty after hfirst
    refine ⟨true, before ++ after', ?_, hremove⟩
    rw [List.filter_append, List.filter_cons_of_neg (by simp),
      List.filter_eq_self.mpr fun r hr => decide_eq_true (hfirst r hr),
      List.filter_eq_self.mpr fun r hr => decide_eq_true (hlater r hr)]
    exact hperm.append_left before
  · have hnone : ∀ r ∈ rows, r.1 ≠ key := fun r hr heq =>
      hkey (heq ▸ List.mem_map_of_mem hr)
    refine ⟨dirty, rows, ?_, remove_of_not_mem hnone⟩
    rw [List.filter_eq_self.mpr fun r hr => decide_eq_true (hnone r hr)]

/-- What a loop hits in a table of rows is said by a predicate of the row. -/
def Hits (hit : Table κ ν → ℕ → Option Bool) (p : κ × ν → Bool) : Prop :=
  ∀ dirty rows i row, rows[i]? = some row → hit (ofRows dirty rows) i = some (p row)

/-- Where no key has two rows, the loop removes exactly the rows before `n` that it hits. -/
theorem sweep_ofRows {hit : Table κ ν → ℕ → Option Bool} {p : κ × ν → Bool} (hhit : Hits hit p)
    (dirty : Bool) (h : ((before ++ after).map Prod.fst).Nodup) :
    ∃ dirty' rows', List.Perm rows' (before.filter (fun r => !p r) ++ after) ∧
      sweep hit before.length (ofRows dirty (before ++ after)) = some (ofRows dirty' rows') := by
  induction before using List.reverseRecOn generalizing after dirty with
  | nil => exact ⟨dirty, after, List.Perm.refl _, rfl⟩
  | append_singleton before row ih =>
    have hassoc : before ++ [row] ++ after = before ++ row :: after := by simp
    have hrow : (before ++ row :: after)[before.length]? = some row := by simp
    have hkey : ((before ++ row :: after).map Prod.fst)[before.length]? = some row.1 := by
      rw [List.getElem?_map, hrow, Option.map_some]
    rw [hassoc] at h
    simp only [hassoc, List.length_append, List.length_singleton, sweep, keys_ofRows,
      hhit dirty _ _ row hrow, hkey, Option.bind_eq_bind, Option.bind_some]
    cases hp : p row with
    | true =>
      have hfirst : ∀ r ∈ before, r.1 ≠ row.1 := by
        intro r hr heq
        rw [List.map_append, List.nodup_append] at h
        exact h.2.2 r.1 (List.mem_map_of_mem hr) row.1 (by simp) heq
      obtain ⟨after', hperm, hremove⟩ := remove_ofRows dirty after hfirst
      have hrest : ((before ++ after').map Prod.fst).Nodup := by
        have hsub : (before ++ after).Sublist (before ++ row :: after) :=
          (List.sublist_cons_self row after).append_left before
        rw [((hperm.append_left before).map Prod.fst).nodup_iff]
        exact (hsub.map Prod.fst).nodup h
      obtain ⟨dirty', rows', hrows, hsweep⟩ := ih true hrest
      refine ⟨dirty', rows', hrows.trans ?_, ?_⟩
      · simpa [List.filter_append, hp] using hperm.append_left _
      · simp only [if_true, hremove, Option.bind_some, hsweep]
    | false =>
      obtain ⟨dirty', rows', hrows, hsweep⟩ := ih dirty h
      refine ⟨dirty', rows', ?_, ?_⟩
      · simpa [List.filter_append, hp] using hrows
      · simpa using hsweep

/-- The loop over all indices. -/
theorem sweep_all {hit : Table κ ν → ℕ → Option Bool} {p : κ × ν → Bool} (hhit : Hits hit p)
    (dirty : Bool) (h : (rows.map Prod.fst).Nodup) :
    ∃ dirty' rows', List.Perm rows' (rows.filter fun r => !p r) ∧
      sweep hit (ofRows dirty rows).keys.length (ofRows dirty rows) =
        some (ofRows dirty' rows') := by
  have hnil : ((rows ++ []).map Prod.fst).Nodup := by rwa [List.append_nil]
  have hlength : (ofRows dirty rows).keys.length = rows.length := List.length_map Prod.fst
  have hsweep := sweep_ofRows hhit dirty hnil
  rwa [List.append_nil, List.append_nil, ← hlength] at hsweep

end Table

end Columns

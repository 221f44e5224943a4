import Mathlib.Data.List.Induction
import Mathlib.Data.List.Perm.Basic
import Mathlib.Data.List.Nodup

/-!
# Which deployment owns which chart

The ownership map of the loader: the arrays `m_own_charts` and `m_own_ids`, entry by entry.
`release` fills the gap of an entry with the last one, and `releaseWhere` is the loop from the last
index to the first in which `Claim` and `PruneOwnership` release entries.

In an `Ownership` a chart has one owner and a deployment one chart. `mem_claim` and `mem_prune` say
what is in the map after `Claim` and `PruneOwnership`.
-/

namespace ChartCtl

/-- An entry of the ownership map. -/
structure Owned where
  chart : Nat
  id : List Char
  deriving DecidableEq

/-- The last element of an array takes the place of one before the others. -/
def fillGap {α : Type} (slots : List α) : List α :=
  match slots.getLast? with
  | none => []
  | some last => last :: slots.dropLast

/-- The first element that meets `p` goes, and the last one takes its place. -/
def removeFirst {α : Type} (p : α → Bool) : List α → List α
  | [] => []
  | slot :: slots => if p slot then fillGap slots else slot :: removeFirst p slots

/-- `Release`. -/
def release (chart : Nat) (entries : List Owned) : List Owned :=
  removeFirst (fun e => e.chart = chart) entries

/-- The chart of the entry at an index is released when the entry meets `p`. -/
def releaseAt (p : Owned → Bool) (entries : List Owned) (i : Nat) : List Owned :=
  match entries[i]? with
  | some entry => if p entry then release entry.chart entries else entries
  | none => entries

/-- The loop from the last index to the first. -/
def releaseWhere (p : Owned → Bool) (entries : List Owned) : List Owned :=
  (List.range entries.length).reverse.foldl (releaseAt p) entries

theorem fillGap_perm {α : Type} (slots : List α) : List.Perm (fillGap slots) slots := by
  rw [fillGap]
  rcases List.eq_nil_or_concat slots with rfl | ⟨front, last, rfl⟩
  · exact List.Perm.nil
  · simp only [List.concat_eq_append, List.getLast?_append, List.getLast?_singleton,
      Option.some_or, List.dropLast_concat]
    exact (List.perm_append_singleton last front).symm

/-- The entry of a chart that no earlier entry has. -/
theorem release_append {before after : List Owned} {entry : Owned}
    (h : ∀ e ∈ before, e.chart ≠ entry.chart) :
    release entry.chart (before ++ entry :: after) = before ++ fillGap after := by
  rw [release]
  induction before with
  | nil => simp [removeFirst]
  | cons e before ih =>
    have he := h e List.mem_cons_self
    rw [List.cons_append, removeFirst, if_neg (by simp [he]),
      ih fun f hf => h f (List.mem_cons_of_mem e hf), List.cons_append]

/-- A released chart has no entry left. -/
theorem release_perm {chart : Nat} {entries : List Owned}
    (h : (entries.map Owned.chart).Nodup) :
    List.Perm (release chart entries) (entries.filter fun e => e.chart ≠ chart) := by
  induction entries with
  | nil => exact List.Perm.nil
  | cons entry entries ih =>
    rw [List.map_cons, List.nodup_cons] at h
    rw [release, removeFirst]
    split
    next hchart =>
      have hchart : entry.chart = chart := by simpa using hchart
      have hrest : entries.filter (fun e => decide (e.chart ≠ chart)) = entries := by
        rw [List.filter_eq_self]
        intro e he
        simp only [ne_eq, decide_not, Bool.not_eq_true', decide_eq_false_iff_not]
        rintro rfl
        exact h.1 (hchart ▸ List.mem_map_of_mem he)
      rw [List.filter_cons_of_neg (by simp [hchart]), hrest]
      exact fillGap_perm entries
    next hchart =>
      rw [List.filter_cons_of_pos (by simpa using hchart)]
      exact (ih h.2).cons entry

/-- Where no chart has two entries, exactly the entries that do not meet `p` stay. -/
theorem releaseWhere_perm {p : Owned → Bool} {entries : List Owned}
    (h : (entries.map Owned.chart).Nodup) :
    List.Perm (releaseWhere p entries) (entries.filter fun e => !p e) := by
  -- the entries from index `before.length` on have been looked at
  have hloop : ∀ before after : List Owned, ((before ++ after).map Owned.chart).Nodup →
      List.Perm ((List.range before.length).reverse.foldl (releaseAt p) (before ++ after))
        (before.filter (fun e => !p e) ++ after) := by
    intro before
    induction before using List.reverseRecOn with
    | nil => exact fun after _ => List.Perm.refl _
    | append_singleton before entry ih =>
      intro after hnodup
      have hassoc : before ++ [entry] ++ after = before ++ entry :: after := by simp
      have hindex : (before ++ entry :: after)[before.length]? = some entry := by simp
      rw [List.length_append, List.length_singleton, List.range_succ, List.reverse_append,
        List.reverse_singleton, List.singleton_append, List.foldl_cons, hassoc, releaseAt, hindex]
      rw [hassoc] at hnodup
      cases hp : p entry with
      | true =>
        have hfirst : ∀ e ∈ before, e.chart ≠ entry.chart := by
          intro e he heq
          rw [List.map_append, List.nodup_append] at hnodup
          exact hnodup.2.2 e.chart (List.mem_map_of_mem he) entry.chart (by simp) heq
        have hrest : ((before ++ fillGap after).map Owned.chart).Nodup := by
          have hperm : List.Perm (before ++ fillGap after) (before ++ after) :=
            (fillGap_perm after).append_left before
          have hsub : (before ++ after).Sublist (before ++ entry :: after) :=
            (List.sublist_cons_self entry after).append_left before
          rw [(hperm.map Owned.chart).nodup_iff]
          exact (hsub.map Owned.chart).nodup hnodup
        simp only [if_true, hp, release_append hfirst]
        refine (ih (fillGap after) hrest).trans ?_
        simpa [List.filter_append, hp] using (fillGap_perm after).append_left _
      | false =>
        simpa [List.filter_append, hp] using ih (entry :: after) hnodup
  have hall := hloop entries [] (by simpa using h)
  rwa [List.append_nil, List.append_nil] at hall

/-- The ownership map. -/
structure Ownership where
  entries : List Owned
  charts_nodup : (entries.map Owned.chart).Nodup
  ids_nodup : (entries.map Owned.id).Nodup

namespace Ownership

/-- One chart of one deployment. -/
def single (chart : Nat) (id : List Char) : Ownership :=
  ⟨[⟨chart, id⟩], List.nodup_singleton chart, List.nodup_singleton id⟩

variable (own : Ownership) {e : Owned}

instance : Membership Owned Ownership := ⟨fun own e => e ∈ own.entries⟩

/-- `OwnerOf`: the empty text for none. -/
def ownerOf (chart : Nat) : List Char :=
  match own.entries.find? fun e => e.chart = chart with
  | some e => e.id
  | none => []

variable {own}

theorem eq_of_chart {f : Owned} (he : e ∈ own) (hf : f ∈ own) (h : e.chart = f.chart) : e = f :=
  List.inj_on_of_nodup_map own.charts_nodup he hf h

theorem eq_of_id {f : Owned} (he : e ∈ own) (hf : f ∈ own) (h : e.id = f.id) : e = f :=
  List.inj_on_of_nodup_map own.ids_nodup he hf h

theorem ownerOf_of_mem (he : e ∈ own) : own.ownerOf e.chart = e.id := by
  rw [ownerOf]
  cases hfind : own.entries.find? fun f => f.chart = e.chart with
  | none =>
    have hnone := List.find?_eq_none.mp hfind e he
    simp at hnone
  | some f =>
    have hchart : f.chart = e.chart := by simpa using List.find?_some hfind
    rw [eq_of_chart (List.mem_of_find?_eq_some hfind) he hchart]

/-- An owner is in the map. -/
theorem mem_of_ownerOf_ne {chart : Nat} (h : own.ownerOf chart ≠ []) :
    ⟨chart, own.ownerOf chart⟩ ∈ own := by
  rw [ownerOf] at h ⊢
  cases hfind : own.entries.find? fun f => f.chart = chart with
  | none => exact absurd (by rw [hfind]) h
  | some f =>
    have hchart : f.chart = chart := by simpa using List.find?_some hfind
    rw [← hchart]
    exact List.mem_of_find?_eq_some hfind

/-- The owner of a chart is that of its entries. -/
theorem ownerOf_congr {own' : Ownership} {chart : Nat}
    (h : ∀ e : Owned, e.chart = chart → (e ∈ own' ↔ e ∈ own)) :
    own'.ownerOf chart = own.ownerOf chart := by
  by_cases hempty : own.ownerOf chart = []
  · by_contra hne
    rw [hempty] at hne
    have hmem := (h _ rfl).mp (mem_of_ownerOf_ne hne)
    exact hne ((ownerOf_of_mem hmem).symm.trans hempty)
  · exact ownerOf_of_mem ((h _ rfl).mpr (mem_of_ownerOf_ne hempty))

/-- What of a map stays when entries are released. -/
def filterOut (own : Ownership) (p : Owned → Bool) : Ownership where
  entries := releaseWhere p own.entries
  charts_nodup := by
    rw [((releaseWhere_perm own.charts_nodup).map Owned.chart).nodup_iff]
    exact (List.filter_sublist.map Owned.chart).nodup own.charts_nodup
  ids_nodup := by
    rw [((releaseWhere_perm own.charts_nodup).map Owned.id).nodup_iff]
    exact (List.filter_sublist.map Owned.id).nodup own.ids_nodup

theorem mem_filterOut {p : Owned → Bool} : e ∈ own.filterOut p ↔ e ∈ own ∧ p e = false := by
  show e ∈ releaseWhere p own.entries ↔ _
  rw [(releaseWhere_perm own.charts_nodup).mem_iff, List.mem_filter, Bool.not_eq_true']
  rfl

/-- `Claim`: what the chart and the deployment had goes, and the chart is the deployment's. -/
def claim (own : Ownership) (chart : Nat) (id : List Char) : Ownership :=
  let kept := own.filterOut fun e => e.chart = chart ∨ e.id = id
  { entries := kept.entries ++ [⟨chart, id⟩]
    charts_nodup := by
      have hnew : ∀ e ∈ kept, e.chart ≠ chart := fun e he => by
        have hp := (mem_filterOut.mp he).2
        simp only [decide_eq_false_iff_not, not_or] at hp
        exact hp.1
      rw [List.map_append, List.nodup_append]
      refine ⟨kept.charts_nodup, List.nodup_singleton _, ?_⟩
      rintro a ha b hb rfl
      obtain ⟨e, he, rfl⟩ := List.mem_map.mp ha
      exact hnew e he (by simpa using hb)
    ids_nodup := by
      have hnew : ∀ e ∈ kept, e.id ≠ id := fun e he => by
        have hp := (mem_filterOut.mp he).2
        simp only [decide_eq_false_iff_not, not_or] at hp
        exact hp.2
      rw [List.map_append, List.nodup_append]
      refine ⟨kept.ids_nodup, List.nodup_singleton _, ?_⟩
      rintro a ha b hb rfl
      obtain ⟨e, he, rfl⟩ := List.mem_map.mp ha
      exact hnew e he (by simpa using hb) }

theorem mem_claim {chart : Nat} {id : List Char} :
    e ∈ own.claim chart id ↔ e = ⟨chart, id⟩ ∨ e ∈ own ∧ e.chart ≠ chart ∧ e.id ≠ id := by
  show e ∈ (own.filterOut _).entries ++ [⟨chart, id⟩] ↔ _
  rw [List.mem_append, List.mem_singleton, or_comm]
  refine or_congr_right (mem_filterOut.trans ?_)
  simp only [decide_eq_false_iff_not, not_or]

/-- `Release` in `DetachChart`. -/
def drop (own : Ownership) (chart : Nat) : Ownership where
  entries := release chart own.entries
  charts_nodup := by
    rw [((release_perm own.charts_nodup).map Owned.chart).nodup_iff]
    exact (List.filter_sublist.map Owned.chart).nodup own.charts_nodup
  ids_nodup := by
    rw [((release_perm own.charts_nodup).map Owned.id).nodup_iff]
    exact (List.filter_sublist.map Owned.id).nodup own.ids_nodup

theorem mem_drop {chart : Nat} : e ∈ own.drop chart ↔ e ∈ own ∧ e.chart ≠ chart := by
  show e ∈ release chart own.entries ↔ _
  rw [(release_perm own.charts_nodup).mem_iff, List.mem_filter, decide_eq_true_eq]
  rfl

/-- `PruneOwnership`: the entries of charts that were not seen go. -/
def prune (own : Ownership) (seen : List Nat) : Ownership := own.filterOut fun e => e.chart ∉ seen

theorem mem_prune {seen : List Nat} : e ∈ own.prune seen ↔ e ∈ own ∧ e.chart ∈ seen := by
  rw [prune, mem_filterOut]
  simp

/-! ### The owners after a change -/

variable {chart other : Nat} {id : List Char}

theorem ownerOf_claim_self : (own.claim chart id).ownerOf chart = id :=
  ownerOf_of_mem (e := ⟨chart, id⟩) (mem_claim.mpr (Or.inl rfl))

/-- Another chart keeps its owner, unless it was the deployment's. -/
theorem ownerOf_claim_of_ne (hne : other ≠ chart) (hid : own.ownerOf other ≠ id) :
    (own.claim chart id).ownerOf other = own.ownerOf other := by
  apply ownerOf_congr
  rintro e rfl
  rw [mem_claim]
  constructor
  · rintro (rfl | ⟨he, -⟩)
    · exact absurd rfl hne
    · exact he
  · intro he
    refine Or.inr ⟨he, hne, ?_⟩
    rwa [ownerOf_of_mem he] at hid

theorem ownerOf_drop_of_ne (hne : other ≠ chart) :
    (own.drop chart).ownerOf other = own.ownerOf other := by
  apply ownerOf_congr
  rintro e rfl
  exact mem_drop.trans (and_iff_left hne)

theorem ownerOf_prune_of_mem {seen : List Nat} (h : chart ∈ seen) :
    (own.prune seen).ownerOf chart = own.ownerOf chart := by
  apply ownerOf_congr
  rintro e rfl
  exact mem_prune.trans (and_iff_left h)

/-- A deployment has one chart. -/
theorem eq_of_ownerOf (hid : id ≠ []) (hchart : own.ownerOf chart = id)
    (hother : own.ownerOf other = id) : chart = other := by
  have hmem := mem_of_ownerOf_ne (hchart ▸ hid)
  have hmem' := mem_of_ownerOf_ne (hother ▸ hid)
  exact congrArg Owned.chart (eq_of_id hmem hmem' (hchart.trans hother.symm))

end Ownership

end ChartCtl

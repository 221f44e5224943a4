import Mathlib.Data.List.Perm.Basic
import Mt5HttpApi.WebRequest.Urls

/-!
# The two ways a patch is stored

A patch of the list is stored in one of two ways: in the VM the named rows of the terminal are
changed and what is read back becomes the stored list, and on bare metal the stored list itself is
changed. The first compares keys and lets `remove` win, the second compares texts and lets `add`
win.

`stored_perm_iff` says exactly when both store the same URLs (`Agrees`), and `not_stored_perm` that
they need not.
-/

namespace WebRequest

open Text

/-! ### Clean lists -/

/-- A list as it is stored: every URL once, trimmed and acceptable. -/
structure Clean (urls : List Url) : Prop where
  nodup : urls.Nodup
  stripped : ∀ url ∈ urls, strip url = url
  acceptable : ∀ url ∈ urls, acceptable url = true

variable {urls more : List Url} {url : Url}

theorem Clean.nil : Clean [] := ⟨List.nodup_nil, by simp, by simp⟩

theorem Clean.concat (h : Clean urls) (hstrip : strip url = url)
    (hacceptable : WebRequest.acceptable url = true) (hnew : url ∉ urls) :
    Clean (urls ++ [url]) where
  nodup := by
    rw [List.nodup_append]
    refine ⟨h.nodup, List.nodup_singleton _, fun a ha b hb => ?_⟩
    rw [List.mem_singleton.mp hb]
    exact fun heq => hnew (heq ▸ ha)
  stripped u hu := by
    rcases List.mem_append.mp hu with hu | hu
    · exact h.stripped u hu
    · rw [List.mem_singleton.mp hu, hstrip]
  acceptable u hu := by
    rcases List.mem_append.mp hu with hu | hu
    · exact h.acceptable u hu
    · rw [List.mem_singleton.mp hu, hacceptable]

/-- One URL of `clean_urls`. -/
def cleanStep (out : List Url) (url : Url) : List Url :=
  if acceptable (strip url) && !out.contains (strip url) then out ++ [strip url] else out

theorem clean_cleanStep (h : Clean urls) (url : Url) : Clean (cleanStep urls url) := by
  rw [cleanStep]
  split
  next hnew =>
    rw [Bool.and_eq_true, Bool.not_eq_true', List.contains_eq_mem, decide_eq_false_iff_not] at hnew
    exact h.concat (strip_strip url) hnew.1 hnew.2
  next => exact h

theorem clean_foldl_cleanStep (h : Clean urls) (more : List Url) :
    Clean (more.foldl cleanStep urls) := by
  induction more generalizing urls with
  | nil => exact h
  | cons url more ih => exact ih (clean_cleanStep h url)

/-- Cleaned lists are clean. -/
theorem clean_cleanUrls (urls : List Url) : Clean (cleanUrls urls) :=
  clean_foldl_cleanStep Clean.nil urls

theorem foldl_cleanStep_of_clean (h : Clean (urls ++ more)) :
    more.foldl cleanStep urls = urls ++ more := by
  induction more generalizing urls with
  | nil => rw [List.foldl_nil, List.append_nil]
  | cons url more ih =>
    have hmem : url ∈ urls ++ url :: more := by simp
    have hnew : url ∉ urls := fun hu => by
      have hdisjoint := (List.nodup_append.mp h.nodup).2.2 url hu url List.mem_cons_self
      exact hdisjoint rfl
    have hstep : cleanStep urls url = urls ++ [url] := by
      rw [cleanStep, h.stripped url hmem]
      simp [h.acceptable url hmem, hnew]
    rw [List.foldl_cons, hstep, ih (by simpa using h)]
    simp

/-- A clean list stays as it is. -/
theorem cleanUrls_of_clean (h : Clean urls) : cleanUrls urls = urls := by
  have hnil : Clean ([] ++ urls) := h
  exact foldl_cleanStep_of_clean hnil

theorem mem_foldl_cleanStep (hmore : ∀ u ∈ more, strip u = u ∧ acceptable u = true) :
    url ∈ more.foldl cleanStep urls ↔ url ∈ urls ∨ url ∈ more := by
  induction more generalizing urls with
  | nil => simp
  | cons first more ih =>
    obtain ⟨hstrip, hacceptable⟩ := hmore first List.mem_cons_self
    have hstep : url ∈ cleanStep urls first ↔ url ∈ urls ∨ url = first := by
      rw [cleanStep, hstrip, hacceptable]
      by_cases hthere : first ∈ urls
      · simp only [List.contains_eq_mem, hthere, decide_true, Bool.not_true, Bool.and_false,
          Bool.false_eq_true, if_false]
        exact ⟨.inl, fun h => h.elim id fun h => h ▸ hthere⟩
      · simp [hthere]
    rw [List.foldl_cons, ih fun u hu => hmore u (List.mem_cons_of_mem _ hu), hstep, List.mem_cons,
      or_assoc]

/-- Cleaning drops no acceptable URL. -/
theorem mem_cleanUrls (h : ∀ u ∈ urls, strip u = u ∧ acceptable u = true) :
    url ∈ cleanUrls urls ↔ url ∈ urls :=
  (mem_foldl_cleanStep h).trans (by simp)

theorem isUrlRow_of_acceptable (h : acceptable url = true) : isUrlRow url = true := by
  rw [acceptable, Bool.and_eq_true] at h
  exact h.2

/-! ### Bare metal -/

theorem mem_foldl_patched : url ∈ more.foldl (fun urls url =>
    if urls.contains url then urls else urls ++ [url]) urls ↔ url ∈ urls ∨ url ∈ more := by
  induction more generalizing urls with
  | nil => simp
  | cons first more ih =>
    rw [List.foldl_cons, ih]
    split
    next hthere =>
      rw [List.contains_eq_mem, decide_eq_true_eq] at hthere
      grind
    next => grind

/-- On bare metal, what is added is there, and what is removed is not unless it is added. -/
theorem mem_patched {current add remove : List Url} :
    url ∈ patched current add remove ↔ (url ∈ current ∧ url ∉ remove) ∨ url ∈ add := by
  rw [patched, mem_foldl_patched]
  simp

theorem clean_patched {current add : List Url} (hcurrent : Clean current) (hadd : Clean add)
    (remove : List Url) : Clean (patched current add remove) := by
  have hfold : ∀ {urls more : List Url}, Clean urls → Clean more →
      Clean
        (more.foldl (fun urls url => if urls.contains url then urls else urls ++ [url]) urls) := by
    intro urls more hurls hmore
    induction more generalizing urls with
    | nil => exact hurls
    | cons first more ih =>
      have hrest : Clean more := ⟨(List.nodup_cons.mp hmore.nodup).2,
        fun u hu => hmore.stripped u (List.mem_cons_of_mem _ hu),
        fun u hu => hmore.acceptable u (List.mem_cons_of_mem _ hu)⟩
      rw [List.foldl_cons]
      split
      next => exact ih hurls hrest
      next hnew =>
        refine ih (hurls.concat (hmore.stripped _ List.mem_cons_self)
          (hmore.acceptable _ List.mem_cons_self) ?_) hrest
        simpa using hnew
  refine hfold ⟨hcurrent.nodup.filter _, fun u hu => ?_, fun u hu => ?_⟩ hadd
  · exact hcurrent.stripped u (List.mem_of_mem_filter hu)
  · exact hcurrent.acceptable u (List.mem_of_mem_filter hu)

/-! ### In the VM -/

/-- Removing rows from the last index to the first leaves those that do not have the property. -/
theorem foldr_eraseIdx_indicesFrom {α : Type} (p : α → Bool) (kept rows : List α) :
    (indicesFrom p kept.length rows).foldr (fun i rows => rows.eraseIdx i) (kept ++ rows) =
      kept ++ rows.filter fun row => !p row := by
  induction rows generalizing kept with
  | nil => rfl
  | cons row rows ih =>
    have hnext := ih (kept ++ [row])
    rw [List.length_append, List.length_singleton, List.append_assoc, List.singleton_append,
      List.append_assoc] at hnext
    rw [indicesFrom, List.filter_cons]
    by_cases hrow : p row = true
    · rw [if_pos hrow, List.foldr_cons, hnext]
      simp [hrow, List.eraseIdx_append_of_length_le]
    · rw [if_neg hrow, hnext]
      simp [hrow]

section Vm

variable {lower : List Char → List Char} {gone here : List (List Char)}

theorem mem_wantAdd_iff : ∀ {here : List (List Char)} {urls : List Url},
    url ∈ wantAdd lower gone here urls → url ∈ urls ∧ normUrl lower url ∉ here ∧
      normUrl lower url ∉ gone := by
  intro here urls h
  induction urls generalizing here with
  | nil => cases h
  | cons first urls ih =>
    rw [wantAdd] at h
    split at h
    next =>
      obtain ⟨hmem, hrest⟩ := ih h
      exact ⟨List.mem_cons_of_mem _ hmem, hrest⟩
    next hfirst =>
      simp only [Bool.or_eq_true, List.contains_eq_mem, decide_eq_true_eq, not_or] at hfirst
      rcases List.mem_cons.mp h with rfl | h
      · exact ⟨List.mem_cons_self, hfirst⟩
      · obtain ⟨hmem, hhere, hgone⟩ := ih h
        exact ⟨List.mem_cons_of_mem _ hmem, fun h => hhere (List.mem_cons_of_mem _ h), hgone⟩

/-- Each key is added once. -/
theorem wantAdd_inj : ∀ {here : List (List Char)} {urls : List Url} {u v : Url},
    u ∈ wantAdd lower gone here urls → v ∈ wantAdd lower gone here urls →
      normUrl lower u = normUrl lower v → u = v := by
  intro here urls u v hu hv hkey
  induction urls generalizing here with
  | nil => cases hu
  | cons first urls ih =>
    rw [wantAdd] at hu hv
    split at hu
    next hfirst =>
      rw [if_pos hfirst] at hv
      exact ih hu hv
    next hfirst =>
      rw [if_neg hfirst] at hv
      -- What comes after the first has another key.
      have hafter : ∀ {w : Url}, w ∈ wantAdd lower gone (normUrl lower first :: here) urls →
          normUrl lower w ≠ normUrl lower first := fun hw heq =>
        (mem_wantAdd_iff hw).2.1 (heq ▸ List.mem_cons_self)
      rcases List.mem_cons.mp hu with rfl | hu <;> rcases List.mem_cons.mp hv with rfl | hv
      · rfl
      · exact absurd hkey.symm (hafter hv)
      · exact absurd hkey (hafter hu)
      · exact ih hu hv

/-- A key that is neither there nor to be removed is added. -/
theorem exists_mem_wantAdd (hmem : url ∈ urls) (hhere : normUrl lower url ∉ here)
    (hgone : normUrl lower url ∉ gone) :
    ∃ u ∈ wantAdd lower gone here urls, normUrl lower u = normUrl lower url := by
  induction urls generalizing here with
  | nil => cases hmem
  | cons first urls ih =>
    rw [wantAdd]
    by_cases hkey : normUrl lower first = normUrl lower url
    · rw [if_neg (by simp [hkey, hhere, hgone])]
      exact ⟨first, List.mem_cons_self, hkey⟩
    · have hmem : url ∈ urls := by
        rcases List.mem_cons.mp hmem with rfl | hmem
        · exact absurd rfl hkey
        · exact hmem
      split
      next => exact ih hmem hhere
      next =>
        have hnew : normUrl lower url ∉ normUrl lower first :: here := by
          simp [hhere, Ne.symm hkey]
        obtain ⟨u, hu, hnorm⟩ := ih hmem hnew
        exact ⟨u, List.mem_cons_of_mem _ hu, hnorm⟩

/-- The rows after a patch: those whose key is not removed, and what is added. -/
theorem apply_planChanges (rows add remove : List Url) (enabledBefore : Bool) :
    (planChanges lower rows add remove none enabledBefore).apply rows =
      (rows.filter fun row => !(isUrlRow row && (remove.map (normUrl lower)).contains
        (normUrl lower row))) ++
      wantAdd lower (remove.map (normUrl lower)) (urlKeys lower rows) add := by
  rw [Plan.apply, planChanges, List.foldl_reverse]
  exact congrArg (· ++ _) (foldr_eraseIdx_indicesFrom _ [] rows)

variable {rows add remove live : List Url} {enabledBefore : Bool}

/-- What is read back after a patch. -/
theorem eq_of_patchUrls (hadd : ∀ url ∈ add, isUrlRow url = true)
    (h : patchUrls lower rows add remove enabledBefore = some live) :
    live = ((rows.filter isUrlRow).filter fun row =>
        !(remove.map (normUrl lower)).contains (normUrl lower row)) ++
      wantAdd lower (remove.map (normUrl lower)) (urlKeys lower rows) add := by
  have hlive : live = ((planChanges lower rows add remove none enabledBefore).apply rows).filter
      isUrlRow := by
    rw [patchUrls] at h
    split at h
    next hnothing =>
      -- With nothing to do the rows are those that were there before.
      simp only [Bool.and_eq_true, List.isEmpty_iff] at hnothing
      obtain rfl := Option.some.inj h
      rw [Plan.apply, hnothing.1.1, hnothing.1.2, List.foldl_nil, List.append_nil]
    next =>
      obtain ⟨-, h⟩ := Option.ite_none_right_eq_some.mp h
      exact (Option.some.inj h).symm
  have hwanted : (wantAdd lower (remove.map (normUrl lower)) (urlKeys lower rows) add).filter
      isUrlRow = wantAdd lower (remove.map (normUrl lower)) (urlKeys lower rows) add :=
    List.filter_eq_self.mpr fun url hurl => hadd url (mem_wantAdd_iff hurl).1
  rw [hlive, apply_planChanges, List.filter_append, hwanted, List.filter_filter,
    List.filter_filter]
  congr 1
  refine List.filter_congr fun row _ => ?_
  cases isUrlRow row <;> simp

/-- When both ways agree: stored URLs that a removed one matches but for case and slashes at the end
are themselves removed, no added URL matches a removed one so, an added URL that matches a stored
one so is stored, and two new ones never match so. -/
structure Agrees (lower : List Char → List Char) (current add remove : List Url) : Prop where
  removed : ∀ url ∈ current, ∀ gone ∈ remove, normUrl lower url = normUrl lower gone → url ∈ remove
  apart : ∀ url ∈ add, ∀ gone ∈ remove, normUrl lower url ≠ normUrl lower gone
  stored : ∀ url ∈ add, ∀ row ∈ current, normUrl lower url = normUrl lower row → url ∈ current
  once : ∀ url ∈ add, ∀ url' ∈ add, normUrl lower url = normUrl lower url' →
    url = url' ∨ url ∈ current

/-- What the VM stores, URL by URL. -/
def InVm (lower : List Char → List Char) (current add remove : List Url) (url : Url) : Prop :=
  (url ∈ current ∧ normUrl lower url ∉ remove.map (normUrl lower)) ∨
    url ∈ wantAdd lower (remove.map (normUrl lower)) (current.map (normUrl lower)) add

theorem InVm.patched {current : List Url} (h : InVm lower current add remove url) :
    (url ∈ current ∧ url ∉ remove) ∨ url ∈ add := by
  rcases h with ⟨hcurrent, hgone⟩ | hadded
  · exact .inl ⟨hcurrent, fun hremove => hgone (List.mem_map_of_mem hremove)⟩
  · exact .inr (mem_wantAdd_iff hadded).1

theorem Agrees.inVm {current : List Url} (hagrees : Agrees lower current add remove)
    (h : (url ∈ current ∧ url ∉ remove) ∨ url ∈ add) : InVm lower current add remove url := by
  have happart : ∀ u ∈ add, normUrl lower u ∉ remove.map (normUrl lower) := fun u hu hgone => by
    obtain ⟨gone, hremove, hkey⟩ := List.mem_map.mp hgone
    exact hagrees.apart u hu gone hremove hkey.symm
  rcases h with ⟨hcurrent, hkept⟩ | hadd
  · refine .inl ⟨hcurrent, fun hgone => hkept ?_⟩
    obtain ⟨gone, hremove, hkey⟩ := List.mem_map.mp hgone
    exact hagrees.removed url hcurrent gone hremove hkey.symm
  · by_cases hcurrent : url ∈ current
    · exact .inl ⟨hcurrent, happart url hadd⟩
    · have hnew : normUrl lower url ∉ current.map (normUrl lower) := fun hkey => by
        obtain ⟨row, hrow, hkey⟩ := List.mem_map.mp hkey
        exact hcurrent (hagrees.stored url hadd row hrow hkey.symm)
      -- Of the new URLs with one key the first is added, and there is one.
      obtain ⟨u, hu, hkey⟩ := exists_mem_wantAdd hadd hnew (happart url hadd)
      rcases hagrees.once url hadd u (mem_wantAdd_iff hu).1 hkey.symm with rfl | hthere
      · exact .inr hu
      · exact absurd hthere hcurrent

theorem agrees_of_inVm {current : List Url}
    (h : ∀ url, (url ∈ current ∧ url ∉ remove) ∨ url ∈ add → InVm lower current add remove url) :
    Agrees lower current add remove where
  removed url hcurrent gone hremove hkey := by
    by_contra hkept
    have hgone : normUrl lower url ∈ remove.map (normUrl lower) :=
      hkey ▸ List.mem_map_of_mem hremove
    rcases h url (.inl ⟨hcurrent, hkept⟩) with ⟨-, hnot⟩ | hadded
    · exact hnot hgone
    · exact (mem_wantAdd_iff hadded).2.2 hgone
  apart url hadd gone hremove hkey := by
    have hgone : normUrl lower url ∈ remove.map (normUrl lower) :=
      hkey ▸ List.mem_map_of_mem hremove
    rcases h url (.inr hadd) with ⟨-, hnot⟩ | hadded
    · exact hnot hgone
    · exact (mem_wantAdd_iff hadded).2.2 hgone
  stored url hadd row hrow hkey := by
    rcases h url (.inr hadd) with ⟨hcurrent, -⟩ | hadded
    · exact hcurrent
    · exact absurd (hkey ▸ List.mem_map_of_mem hrow) (mem_wantAdd_iff hadded).2.1
  once url hadd url' hadd' hkey := by
    rcases h url (.inr hadd) with ⟨hcurrent, -⟩ | hadded
    · exact .inr hcurrent
    · rcases h url' (.inr hadd') with ⟨hcurrent', -⟩ | hadded'
      · exact absurd (hkey ▸ List.mem_map_of_mem hcurrent') (mem_wantAdd_iff hadded).2.1
      · exact .inl (wantAdd_inj hadded hadded' hkey)

/-- **The two ways to store a patch.** Where the URL rows of the terminal are the stored list and
every step succeeds, the VM stores the same URLs as bare metal, up to their order, if and only if
the lists of the request agree with the stored one. -/
theorem stored_perm_iff {current stored : List Url} (hcurrent : Clean current)
    (hrows : rows.filter isUrlRow = current)
    (hstored : storedInVm lower rows add remove enabledBefore = some stored) :
    stored.Perm (storedOnBareMetal current add remove) ↔
      Agrees lower current (cleanUrls add) (cleanUrls remove) := by
  have hadd := clean_cleanUrls add
  obtain ⟨live, hlive, rfl⟩ := Option.map_eq_some_iff.mp hstored
  have hread := eq_of_patchUrls (fun url hurl => isUrlRow_of_acceptable (hadd.acceptable url hurl))
    hlive
  have hmem : ∀ url, url ∈ live ↔ InVm lower current (cleanUrls add) (cleanUrls remove) url := by
    intro url
    rw [hread, hrows, List.mem_append, List.mem_filter, urlKeys, hrows, InVm]
    simp
  have hgood : ∀ url ∈ live, strip url = url ∧ acceptable url = true := by
    intro url hurl
    rcases (hmem url).mp hurl with ⟨hthere, -⟩ | hadded
    · exact ⟨hcurrent.stripped url hthere, hcurrent.acceptable url hthere⟩
    · have hurl := (mem_wantAdd_iff hadded).1
      exact ⟨hadd.stripped url hurl, hadd.acceptable url hurl⟩
  have hbare := clean_patched hcurrent hadd (cleanUrls remove)
  rw [cleanUrls_of_clean (clean_cleanUrls live), storedOnBareMetal, cleanUrls_of_clean hbare,
    List.perm_ext_iff_of_nodup (clean_cleanUrls live).nodup hbare.nodup]
  simp only [mem_cleanUrls hgood, hmem, mem_patched]
  exact ⟨fun h => agrees_of_inVm fun url hurl => (h url).mpr hurl,
    fun h url => ⟨InVm.patched, h.inVm⟩⟩

end Vm

/-- Lower-casing of ASCII letters. -/
def asciiLower (text : List Char) : List Char := text.map Char.toLower

/-- A URL named both to add and to remove: the VM leaves it out, bare metal stores it. -/
theorem not_stored_perm : ¬ ∀ (lower : List Char → List Char) (rows current add remove stored :
    List Url) (enabledBefore : Bool), Clean current → rows.filter isUrlRow = current →
      storedInVm lower rows add remove enabledBefore = some stored →
        stored.Perm (storedOnBareMetal current add remove) := by
  intro h
  have hperm := h asciiLower [] [] ["https://a.example".toList] ["https://a.example".toList] []
    false Clean.nil rfl (by decide)
  exact absurd hperm.length_eq (by decide)

/-- A new URL, and one of two stored ones removed. -/
theorem stored_perm_plain :
    storedInVm asciiLower ["https://a.example".toList, "https://b.example".toList]
        ["https://c.example".toList] ["https://a.example".toList] true =
      some ["https://b.example".toList, "https://c.example".toList] ∧
    (["https://b.example".toList, "https://c.example".toList].Perm
        (storedOnBareMetal ["https://a.example".toList, "https://b.example".toList]
          ["https://c.example".toList] ["https://a.example".toList]) ↔
      Agrees asciiLower ["https://a.example".toList, "https://b.example".toList]
        (cleanUrls ["https://c.example".toList]) (cleanUrls ["https://a.example".toList])) := by
  have hstored : storedInVm asciiLower ["https://a.example".toList, "https://b.example".toList]
      ["https://c.example".toList] ["https://a.example".toList] true =
        some ["https://b.example".toList, "https://c.example".toList] := by
    decide
  refine ⟨hstored, stored_perm_iff ⟨by decide, by decide, by decide⟩ ?_ hstored⟩
  decide

end WebRequest

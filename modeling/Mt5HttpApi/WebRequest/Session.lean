import Mt5HttpApi.WebRequest.Patch

/-!
# Planning, carrying out and verifying a session

One session of the Options dialog reads the rows of the terminal, plans the change
(`planChanges`), carries it out (`Plan.apply`) and compares the rows afterwards with what was wanted
(`verify`).

A replacement is always verified. A patch is if and only if no row that is not a URL has the key of
a URL row that is removed (`planned_iff`): only URL rows are removed, but no row at all may have
such a key afterwards.
-/

namespace WebRequest

open Text

/-- What did not take. -/
structure Check where
  missing : List Url
  notRemoved : List Url
  deriving DecidableEq

/-- Nothing is missing, and nothing is left. -/
def Check.Passes (check : Check) : Prop := check.missing = [] ∧ check.notRemoved = []

section Verify

variable (lower : List Char → List Char)

/-- The rows with the key of an earlier one. -/
def dupes : List Url → List Url → List Url
  | _, [] => []
  | earlier, row :: rows =>
    if (earlier.map (normUrl lower)).contains (normUrl lower row) then
      row :: dupes (earlier ++ [row]) rows
    else dupes (earlier ++ [row]) rows

/-- `_verify` -/
def verify (after before : List Url) (plan : Plan) (exact : Option (List Url))
    (rejected : List Url) : Check :=
  let skip := rejected.map (normUrl lower)
  match exact with
  | some exact =>
    let want := exact.filter fun url => !skip.contains (normUrl lower url)
    let wantKeys := want.map (normUrl lower)
    { missing := want.filter fun url => !(after.map (normUrl lower)).contains (normUrl lower url)
      notRemoved := (after.filter fun row =>
        !wantKeys.contains (normUrl lower row) || !isUrlRow row) ++ dupes lower [] after }
  | none =>
    let now := urlKeys lower after
    let gone := plan.removeIdx.filterMap fun i => before[i]?.map (normUrl lower)
    { missing := plan.add.filter fun url =>
        !now.contains (normUrl lower url) && !skip.contains (normUrl lower url)
      -- every row counts here, a URL or not
      notRemoved := after.filter fun row => gone.contains (normUrl lower row) }

/-- What `_session` reports. -/
structure Report where
  enabled : Bool
  urls : List Url
  added : List Url
  removed : List Url
  rejected : List Url
  changed : Bool
  deriving DecidableEq

/-- `_session`, when every access of the dialog does what it is for. -/
def session (rows add remove : List Url) (exact : Option (List Url)) (enabledBefore : Bool) :
    Option Report :=
  let plan := planChanges lower rows add remove exact enabledBefore
  if plan.removeIdx.isEmpty && plan.add.isEmpty && plan.wantEnabled.isNone then
    some ⟨enabledBefore, rows.filter isUrlRow, [], [], [], false⟩
  else
    let after := plan.apply rows
    let enabled := plan.wantEnabled.getD enabledBefore
    let expectEnabled := match exact with
      | some exact => !exact.isEmpty
      | none => enabled
    let check := verify lower after rows plan exact []
    if !check.missing.isEmpty || !check.notRemoved.isEmpty || enabled != expectEnabled then none
    else some ⟨enabled, after.filter isUrlRow, plan.add,
      plan.removeIdx.filterMap fun i => rows[i]?, [], true⟩

/-- After a replacement: URL rows with the keys that were wanted, each once. -/
structure Replaced (exact after : List Url) : Prop where
  urls : ∀ row ∈ after, isUrlRow row = true
  keys : ∀ key, key ∈ after.map (normUrl lower) ↔ key ∈ exact.map (normUrl lower)
  once : (after.map (normUrl lower)).Nodup

/-- What a plan is to do. -/
structure Planned (rows add remove : List Url) (exact : Option (List Url)) (enabledBefore : Bool)
    (plan : Plan) : Prop where
  passes : (verify lower (plan.apply rows) rows plan exact []).Passes
  replaced : ∀ urls, exact = some urls → Replaced lower urls (plan.apply rows)
  frame : exact = none → (rows.filter fun row =>
    !(remove.map (normUrl lower)).contains (normUrl lower row)).Sublist (plan.apply rows)
  /-- The next plan is to do nothing. -/
  settled : planChanges lower (plan.apply rows) add remove exact
    (plan.wantEnabled.getD enabledBefore) = ⟨[], [], none⟩

/-- No row that is not a URL has the key of a URL row that a patch removes. -/
def Apart (rows remove : List Url) : Prop :=
  ∀ row ∈ rows, isUrlRow row = false → ∀ url ∈ rows, isUrlRow url = true →
    normUrl lower url ∈ remove.map (normUrl lower) → normUrl lower row ≠ normUrl lower url

/-- The rows that a replacement keeps. -/
def keptRows (wanted : List (List Char)) : List (List Char) → List Url → List Url
  | _, [] => []
  | kept, row :: rows =>
    if isUrlRow row && wanted.contains (normUrl lower row) &&
        !kept.contains (normUrl lower row) then
      row :: keptRows wanted (normUrl lower row :: kept) rows
    else keptRows wanted kept rows

end Verify

variable {lower : List Char → List Char} {gone here wanted kept : List (List Char)}
  {rows add remove urls : List Url} {url row : Url} {exact : Option (List Url)}
  {enabledBefore : Bool}

/-! ### The URLs to add -/

/-- Nothing is added whose key is there or to be removed. -/
theorem wantAdd_eq_nil (h : ∀ url ∈ urls, normUrl lower url ∈ here ∨ normUrl lower url ∈ gone) :
    wantAdd lower gone here urls = [] := by
  apply List.eq_nil_iff_forall_not_mem.mpr
  intro url hurl
  obtain ⟨hmem, hhere, hgone⟩ := mem_wantAdd_iff hurl
  rcases h url hmem with hin | hin
  · exact hhere hin
  · exact hgone hin

/-- No two URLs that are added have one key. -/
theorem nodup_wantAdd (gone here : List (List Char)) (urls : List Url) :
    ((wantAdd lower gone here urls).map (normUrl lower)).Nodup := by
  induction urls generalizing here with
  | nil => exact List.nodup_nil
  | cons url urls ih =>
    rw [wantAdd]
    split
    next => exact ih here
    next =>
      rw [List.map_cons, List.nodup_cons]
      refine ⟨fun hmem => ?_, ih _⟩
      -- what comes after the first has another key
      obtain ⟨later, hlater, hkey⟩ := List.mem_map.mp hmem
      rw [← hkey] at hlater
      exact (mem_wantAdd_iff hlater).2.1 List.mem_cons_self

/-! ### The rows that a replacement keeps -/

/-- Removing rows from the last index to the first leaves those that are kept. -/
theorem foldr_eraseIdx_replaceIdx (wanted kept : List (List Char)) (before rows : List Url) :
    (replaceIdx lower wanted kept before.length rows).foldr (fun i rows => rows.eraseIdx i)
        (before ++ rows) = before ++ keptRows lower wanted kept rows := by
  induction rows generalizing kept before with
  | nil => rfl
  | cons row rows ih =>
    have hnext := fun kept => ih kept (before ++ [row])
    simp only [List.length_append, List.length_singleton, List.append_assoc,
      List.singleton_append] at hnext
    rw [replaceIdx, keptRows]
    split
    next => exact hnext _
    next =>
      rw [List.foldr_cons, hnext, List.eraseIdx_append_of_length_le le_rfl, Nat.sub_self,
        List.eraseIdx_cons_zero]

/-- What is kept is a URL row with a key that is wanted and was not kept before. -/
theorem of_mem_keptRows (h : row ∈ keptRows lower wanted kept rows) :
    row ∈ rows ∧ isUrlRow row = true ∧ normUrl lower row ∈ wanted ∧ normUrl lower row ∉ kept := by
  induction rows generalizing kept with
  | nil => cases h
  | cons first rows ih =>
    rw [keptRows] at h
    split at h
    next hfirst =>
      simp only [Bool.and_eq_true, Bool.not_eq_true', List.contains_eq_mem, decide_eq_true_eq,
        decide_eq_false_iff_not] at hfirst
      rcases List.mem_cons.mp h with rfl | h
      · exact ⟨List.mem_cons_self, hfirst.1.1, hfirst.1.2, hfirst.2⟩
      · obtain ⟨hmem, hurl, hwanted, hkept⟩ := ih h
        exact ⟨List.mem_cons_of_mem _ hmem, hurl, hwanted,
          fun hin => hkept (List.mem_cons_of_mem _ hin)⟩
    next =>
      obtain ⟨hmem, hrest⟩ := ih h
      exact ⟨List.mem_cons_of_mem _ hmem, hrest⟩

/-- Every key that is wanted is kept with the first URL row that has it. -/
theorem exists_mem_keptRows (hmem : row ∈ rows) (hurl : isUrlRow row = true)
    (hwanted : normUrl lower row ∈ wanted) (hkept : normUrl lower row ∉ kept) :
    ∃ row' ∈ keptRows lower wanted kept rows, normUrl lower row' = normUrl lower row := by
  induction rows generalizing kept with
  | nil => cases hmem
  | cons first rows ih =>
    rw [keptRows]
    by_cases hkey : isUrlRow first = true ∧ normUrl lower first = normUrl lower row
    · rw [if_pos (by simp [hkey.1, hkey.2, hwanted, hkept])]
      exact ⟨first, List.mem_cons_self, hkey.2⟩
    have hmem : row ∈ rows := by
      rcases List.mem_cons.mp hmem with rfl | hmem
      · exact absurd ⟨hurl, rfl⟩ hkey
      · exact hmem
    split
    next hfirst =>
      have hnew : normUrl lower row ∉ normUrl lower first :: kept := by
        simp only [Bool.and_eq_true] at hfirst
        rw [List.mem_cons, not_or]
        exact ⟨fun heq => hkey ⟨hfirst.1.1, heq.symm⟩, hkept⟩
      obtain ⟨row', hrow', hnorm⟩ := ih hmem hnew
      exact ⟨row', List.mem_cons_of_mem _ hrow', hnorm⟩
    next => exact ih hmem hkept

theorem nodup_keptRows (wanted kept : List (List Char)) (rows : List Url) :
    ((keptRows lower wanted kept rows).map (normUrl lower)).Nodup := by
  induction rows generalizing kept with
  | nil => exact List.nodup_nil
  | cons row rows ih =>
    rw [keptRows]
    split
    next =>
      rw [List.map_cons, List.nodup_cons]
      refine ⟨fun hmem => ?_, ih _⟩
      obtain ⟨later, hlater, hkey⟩ := List.mem_map.mp hmem
      rw [← hkey] at hlater
      exact (of_mem_keptRows hlater).2.2.2 List.mem_cons_self
    next => exact ih kept

/-- Nothing is to be removed of URL rows that are wanted, each key once. -/
theorem replaceIdx_eq_nil {start : ℕ} (hurl : ∀ row ∈ rows, isUrlRow row = true)
    (hwanted : ∀ row ∈ rows, normUrl lower row ∈ wanted)
    (hkept : ∀ row ∈ rows, normUrl lower row ∉ kept) (hnodup : (rows.map (normUrl lower)).Nodup) :
    replaceIdx lower wanted kept start rows = [] := by
  induction rows generalizing kept start with
  | nil => rfl
  | cons row rows ih =>
    obtain ⟨hnew, hnodup⟩ := List.nodup_cons.mp hnodup
    have hstays : (isUrlRow row && wanted.contains (normUrl lower row) &&
        !kept.contains (normUrl lower row)) = true := by
      simp [hurl row List.mem_cons_self, hwanted row List.mem_cons_self,
        hkept row List.mem_cons_self]
    rw [replaceIdx, if_pos hstays]
    apply ih (fun r hr => hurl r (List.mem_cons_of_mem _ hr))
      (fun r hr => hwanted r (List.mem_cons_of_mem _ hr)) _ hnodup
    intro r hr hin
    rcases List.mem_cons.mp hin with heq | hin
    · exact hnew (heq ▸ List.mem_map_of_mem hr)
    · exact hkept r (List.mem_cons_of_mem _ hr) hin

/-- The rows after a replacement: those that are kept, and what is added. -/
theorem apply_planChanges_some (rows add remove urls : List Url) (enabledBefore : Bool) :
    (planChanges lower rows add remove (some urls) enabledBefore).apply rows =
      keptRows lower (urls.map (normUrl lower)) [] rows ++
        wantAdd lower [] ((urlKeys lower rows).filter (urls.map (normUrl lower)).contains)
          urls := by
  rw [Plan.apply, planChanges, List.foldl_reverse]
  exact congrArg (· ++ _) (foldr_eraseIdx_replaceIdx _ [] [] rows)

/-- A replacement leaves the box ticked unless the list is empty. -/
theorem getD_wantEnabled (lower : List Char → List Char) (rows add remove urls : List Url)
    (enabledBefore : Bool) :
    (planChanges lower rows add remove (some urls) enabledBefore).wantEnabled.getD enabledBefore =
      !urls.isEmpty := by
  rw [planChanges]
  dsimp only
  split
  next heq => exact heq.symm
  next => rfl

theorem replaced_apply (hurls : ∀ url ∈ urls, isUrlRow url = true) :
    Replaced lower urls
      ((planChanges lower rows add remove (some urls) enabledBefore).apply rows) := by
  rw [apply_planChanges_some]
  constructor
  · intro row hrow
    rcases List.mem_append.mp hrow with hrow | hrow
    · exact (of_mem_keptRows hrow).2.1
    · exact hurls row (mem_wantAdd_iff hrow).1
  · intro key
    rw [List.map_append, List.mem_append]
    constructor
    · rintro (hkey | hkey)
      · obtain ⟨row, hrow, rfl⟩ := List.mem_map.mp hkey
        exact (of_mem_keptRows hrow).2.2.1
      · obtain ⟨url, hurl, rfl⟩ := List.mem_map.mp hkey
        exact List.mem_map_of_mem (mem_wantAdd_iff hurl).1
    · intro hkey
      obtain ⟨url, hurl, rfl⟩ := List.mem_map.mp hkey
      by_cases hthere : normUrl lower url ∈
          (urlKeys lower rows).filter (urls.map (normUrl lower)).contains
      · -- a row has it
        obtain ⟨row, hrow, hnorm⟩ := List.mem_map.mp (List.mem_of_mem_filter hthere)
        obtain ⟨hmem, hrow⟩ := List.mem_filter.mp hrow
        obtain ⟨row', hrow', hnorm'⟩ := exists_mem_keptRows hmem hrow (hnorm ▸ hkey)
          (List.not_mem_nil : normUrl lower row ∉ [])
        left
        rw [← hnorm, ← hnorm']
        exact List.mem_map_of_mem hrow'
      · obtain ⟨url', hurl', hnorm⟩ := exists_mem_wantAdd hurl hthere
          (List.not_mem_nil : normUrl lower url ∉ [])
        right
        rw [← hnorm]
        exact List.mem_map_of_mem hurl'
  · rw [List.map_append, List.nodup_append]
    refine ⟨nodup_keptRows _ _ _, nodup_wantAdd _ _ _, ?_⟩
    rintro key hkept _ hadded rfl
    obtain ⟨row, hrow, rfl⟩ := List.mem_map.mp hkept
    obtain ⟨url, hurl, hnorm⟩ := List.mem_map.mp hadded
    obtain ⟨hmem, hisUrl, hwanted, -⟩ := of_mem_keptRows hrow
    -- the key of a row that is kept is not added
    apply (mem_wantAdd_iff hurl).2.1
    rw [hnorm, List.mem_filter, List.contains_iff_mem]
    exact ⟨List.mem_map_of_mem (List.mem_filter.mpr ⟨hmem, hisUrl⟩), hwanted⟩

theorem dupes_eq_nil {earlier : List Url}
    (h : ((earlier ++ rows).map (normUrl lower)).Nodup) : dupes lower earlier rows = [] := by
  induction rows generalizing earlier with
  | nil => rfl
  | cons row rows ih =>
    rw [dupes, if_neg, ih]
    · rw [List.append_assoc, List.singleton_append]
      exact h
    · rw [List.contains_iff_mem]
      intro hin
      rw [List.map_append, List.nodup_append] at h
      exact h.2.2 _ hin _ (List.mem_map_of_mem List.mem_cons_self) rfl

/-- A replacement does what it is to do. -/
theorem planned_some (hurls : ∀ url ∈ urls, isUrlRow url = true) :
    Planned lower rows add remove (some urls) enabledBefore
      (planChanges lower rows add remove (some urls) enabledBefore) := by
  have hreplaced : Replaced lower urls
      ((planChanges lower rows add remove (some urls) enabledBefore).apply rows) :=
    replaced_apply hurls
  -- the rows of after are those of the list
  generalize hafter : (planChanges lower rows add remove (some urls) enabledBefore).apply rows =
    after at hreplaced
  have henabled := getD_wantEnabled lower rows add remove urls enabledBefore
  constructor
  · rw [hafter]
    constructor
    · apply List.filter_eq_nil_iff.mpr
      intro url hurl
      have hkey := (hreplaced.keys _).mpr (List.mem_map_of_mem (List.mem_of_mem_filter hurl))
      simp [hkey]
    · apply List.append_eq_nil_iff.mpr
      constructor
      · apply List.filter_eq_nil_iff.mpr
        intro row hrow
        have hkey := (hreplaced.keys _).mp (List.mem_map_of_mem hrow)
        simpa [hreplaced.urls row hrow] using hkey
      · apply dupes_eq_nil
        exact hreplaced.once
  · intro urls' heq
    rw [hafter, ← Option.some.inj heq]
    exact hreplaced
  · intro heq
    cases heq
  · rw [hafter, henabled, planChanges]
    rw [replaceIdx_eq_nil hreplaced.urls
      (fun row hrow => (hreplaced.keys _).mp (List.mem_map_of_mem hrow))
      (fun _ _ => List.not_mem_nil) hreplaced.once, wantAdd_eq_nil, if_pos rfl]
    · rfl
    · intro url hurl
      left
      have hkey := List.mem_map_of_mem (f := normUrl lower) hurl
      obtain ⟨row, hrow, hnorm⟩ := List.mem_map.mp ((hreplaced.keys _).mpr hkey)
      rw [List.mem_filter, List.contains_iff_mem]
      refine ⟨?_, hkey⟩
      rw [← hnorm]
      exact List.mem_map_of_mem (List.mem_filter.mpr ⟨hrow, hreplaced.urls row hrow⟩)

/-! ### A patch -/

/-- The rows at the indices are those with the property. -/
theorem filterMap_indicesFrom {α : Type} (p : α → Bool) (before rows : List α) :
    (indicesFrom p before.length rows).filterMap (fun i => (before ++ rows)[i]?) =
      rows.filter p := by
  induction rows generalizing before with
  | nil => rfl
  | cons row rows ih =>
    have hnext := ih (before ++ [row])
    simp only [List.length_append, List.length_singleton, List.append_assoc,
      List.singleton_append] at hnext
    rw [indicesFrom, List.filter_cons]
    split
    next =>
      rw [List.filterMap_cons, hnext]
      simp
    next => exact hnext

/-- The keys that `_verify` looks for are those of the URL rows that a patch removes. -/
theorem mem_goneKeys {key : List Char} :
    key ∈ ((planChanges lower rows add remove none enabledBefore).removeIdx.filterMap fun i =>
        rows[i]?.map (normUrl lower)) ↔
      ∃ url ∈ rows, isUrlRow url = true ∧ normUrl lower url ∈ remove.map (normUrl lower) ∧
        normUrl lower url = key := by
  have hkeys : ((planChanges lower rows add remove none enabledBefore).removeIdx.filterMap fun i =>
      rows[i]?.map (normUrl lower)) = ((rows.filter fun row => isUrlRow row &&
        (remove.map (normUrl lower)).contains (normUrl lower row)).map
          (normUrl lower)).reverse := by
    rw [planChanges]
    dsimp only
    rw [List.filterMap_reverse, ← filterMap_indicesFrom _ [] rows, List.map_filterMap]
    rfl
  rw [hkeys, List.mem_reverse, List.mem_map]
  simp only [List.mem_filter, Bool.and_eq_true, List.contains_iff_mem]
  constructor
  · rintro ⟨url, ⟨hmem, hurl, hgone⟩, rfl⟩
    exact ⟨url, hmem, hurl, hgone, rfl⟩
  · rintro ⟨url, hmem, hurl, hgone, rfl⟩
    exact ⟨url, ⟨hmem, hurl, hgone⟩, rfl⟩

/-- A row after a patch. -/
theorem mem_apply_planChanges : row ∈ (planChanges lower rows add remove none
      enabledBefore).apply rows ↔
    (row ∈ rows ∧ (isUrlRow row = true → normUrl lower row ∉ remove.map (normUrl lower))) ∨
      row ∈ wantAdd lower (remove.map (normUrl lower)) (urlKeys lower rows) add := by
  rw [apply_planChanges, List.mem_append, List.mem_filter, Bool.not_eq_true', Bool.and_eq_false_imp,
    List.contains_eq_mem, decide_eq_false_iff_not]

/-- Nothing that was added is missing. -/
theorem missing_eq_nil (hadd : ∀ url ∈ add, isUrlRow url = true) :
    (verify lower ((planChanges lower rows add remove none enabledBefore).apply rows) rows
      (planChanges lower rows add remove none enabledBefore) none []).missing = [] := by
  apply List.filter_eq_nil_iff.mpr
  intro url hurl
  have hrow : url ∈ (planChanges lower rows add remove none enabledBefore).apply rows :=
    mem_apply_planChanges.mpr (Or.inr hurl)
  have hkey : normUrl lower url ∈ urlKeys lower
      ((planChanges lower rows add remove none enabledBefore).apply rows) :=
    List.mem_map_of_mem (List.mem_filter.mpr ⟨hrow, hadd url (mem_wantAdd_iff hurl).1⟩)
  simp [hkey]

/-- Nothing that was removed is left exactly when the rows are apart. -/
theorem notRemoved_eq_nil_iff :
    (verify lower ((planChanges lower rows add remove none enabledBefore).apply rows) rows
        (planChanges lower rows add remove none enabledBefore) none []).notRemoved = [] ↔
      Apart lower rows remove := by
  have hleft : (verify lower ((planChanges lower rows add remove none enabledBefore).apply rows)
      rows (planChanges lower rows add remove none enabledBefore) none []).notRemoved = [] ↔
        ∀ row ∈ (planChanges lower rows add remove none enabledBefore).apply rows,
          ¬ ∃ url ∈ rows, isUrlRow url = true ∧ normUrl lower url ∈ remove.map (normUrl lower) ∧
            normUrl lower url = normUrl lower row := by
    simp only [verify, List.filter_eq_nil_iff, List.contains_iff_mem, mem_goneKeys]
  rw [hleft]
  constructor
  · intro h row hrow hnot url hurl hisUrl hgone heq
    refine h row (mem_apply_planChanges.mpr (Or.inl ⟨hrow, ?_⟩))
      ⟨url, hurl, hisUrl, hgone, heq.symm⟩
    rw [hnot]
    exact Bool.noConfusion
  · rintro h row hrow ⟨url, hurl, hisUrl, hgone, heq⟩
    rcases mem_apply_planChanges.mp hrow with ⟨hmem, hkept⟩ | hadded
    · cases hrowUrl : isUrlRow row with
      | true => exact hkept hrowUrl (heq ▸ hgone)
      | false => exact h row hmem hrowUrl url hurl hisUrl hgone heq.symm
    · exact (mem_wantAdd_iff hadded).2.2 (heq ▸ hgone)

theorem indicesFrom_eq_nil {α : Type} {p : α → Bool} {start : ℕ} {rows : List α}
    (h : ∀ row ∈ rows, p row = false) : indicesFrom p start rows = [] := by
  induction rows generalizing start with
  | nil => rfl
  | cons row rows ih =>
    rw [indicesFrom, h row List.mem_cons_self]
    exact ih fun r hr => h r (List.mem_cons_of_mem _ hr)

/-- After a patch nothing is left to do. -/
theorem settled_none (hadd : ∀ url ∈ add, isUrlRow url = true) :
    planChanges lower ((planChanges lower rows add remove none enabledBefore).apply rows) add remove
        none ((planChanges lower rows add remove none enabledBefore).wantEnabled.getD
          enabledBefore) = ⟨[], [], none⟩ := by
  have hafter := fun row =>
    @mem_apply_planChanges lower rows add remove row enabledBefore
  have henabled : add.isEmpty ∨ (planChanges lower rows add remove none
      enabledBefore).wantEnabled.getD enabledBefore = true := by
    rw [planChanges]
    dsimp only
    split
    next h =>
      rcases h with h | h
      · exact Or.inl h
      · exact Or.inr h
    next => exact Or.inr rfl
  generalize (planChanges lower rows add remove none enabledBefore).wantEnabled.getD
    enabledBefore = enabled at henabled ⊢
  generalize (planChanges lower rows add remove none enabledBefore).apply rows = after at hafter ⊢
  rw [planChanges, if_pos henabled, wantAdd_eq_nil, indicesFrom_eq_nil]
  · rfl
  · intro row hrow
    -- no row is left with a key that is removed
    rw [Bool.and_eq_false_imp, List.contains_eq_mem, decide_eq_false_iff_not]
    intro hurl
    rcases (hafter row).mp hrow with ⟨-, hkept⟩ | hadded
    · exact hkept hurl
    · exact (mem_wantAdd_iff hadded).2.2
  · intro url hurl
    by_cases hgone : normUrl lower url ∈ remove.map (normUrl lower)
    · exact Or.inr hgone
    left
    by_cases hthere : normUrl lower url ∈ urlKeys lower rows
    · obtain ⟨row, hrow, hnorm⟩ := List.mem_map.mp hthere
      obtain ⟨hmem, hisUrl⟩ := List.mem_filter.mp hrow
      rw [← hnorm] at hgone ⊢
      apply List.mem_map_of_mem
      exact List.mem_filter.mpr ⟨(hafter row).mpr (Or.inl ⟨hmem, fun _ => hgone⟩), hisUrl⟩
    · obtain ⟨url', hurl', hnorm⟩ := exists_mem_wantAdd hurl hthere hgone
      rw [← hnorm]
      apply List.mem_map_of_mem
      apply List.mem_filter.mpr
      exact ⟨(hafter url').mpr (Or.inr hurl'), hadd url' (mem_wantAdd_iff hurl').1⟩

/-- A patch does what it is to do exactly when the rows are apart. -/
theorem planned_none_iff (hadd : ∀ url ∈ add, isUrlRow url = true) :
    Planned lower rows add remove none enabledBefore
      (planChanges lower rows add remove none enabledBefore) ↔ Apart lower rows remove := by
  constructor
  · intro h
    exact notRemoved_eq_nil_iff.mp h.passes.2
  · intro h
    refine ⟨⟨missing_eq_nil hadd, notRemoved_eq_nil_iff.mpr h⟩, ?_, fun _ => ?_, settled_none hadd⟩
    · intro urls heq
      cases heq
    rw [apply_planChanges]
    refine List.Sublist.trans ?_ (List.sublist_append_left _ _)
    apply List.monotone_filter_right
    intro row hrow
    rw [Bool.not_eq_true'] at hrow
    rw [hrow, Bool.and_false, Bool.not_false]

/-! ### Every session -/

/-- **What a session is to do.** The planned change is verified, and of all else that it is to do
nothing ever fails, exactly when the list is replaced, or no row that is not a URL has the key of a
URL row that the patch removes. -/
theorem planned_iff (lower : List Char → List Char) (rows add remove : List Url)
    (exact : Option (List Url)) (enabledBefore : Bool)
    (hadd : ∀ url ∈ add, acceptable url = true)
    (hexact : ∀ urls, exact = some urls → ∀ url ∈ urls, acceptable url = true) :
    Planned lower rows add remove exact enabledBefore
        (planChanges lower rows add remove exact enabledBefore) ↔
      (exact = none → Apart lower rows remove) := by
  cases exact with
  | none =>
    rw [planned_none_iff fun url hurl => isUrlRow_of_acceptable (hadd url hurl)]
    exact ⟨fun h _ => h, fun h => h rfl⟩
  | some urls =>
    have hurls := fun url hurl => isUrlRow_of_acceptable (hexact urls rfl url hurl)
    refine ⟨fun _ heq => ?_, fun _ => planned_some hurls⟩
    cases heq

/-- A session in which every access of the dialog does what it is for fails exactly when its change
is not verified. -/
theorem session_eq_none_iff (lower : List Char → List Char) (rows add remove : List Url)
    (exact : Option (List Url)) (enabledBefore : Bool)
    (hadd : ∀ url ∈ add, acceptable url = true)
    (hexact : ∀ urls, exact = some urls → ∀ url ∈ urls, acceptable url = true) :
    session lower rows add remove exact enabledBefore = none ↔
      exact = none ∧ ¬ Apart lower rows remove := by
  have hplanned := planned_iff lower rows add remove exact enabledBefore hadd hexact
  unfold session
  dsimp only
  cases exact with
  | some urls =>
    obtain ⟨hmissing, hnotRemoved⟩ := (hplanned.mpr fun heq => by cases heq).passes
    rw [hmissing, hnotRemoved, getD_wantEnabled, bne_self_eq_false]
    constructor
    · intro h
      split at h <;> cases h
    · rintro ⟨heq, -⟩
      cases heq
  | none =>
    have hmissing := @missing_eq_nil lower rows add remove enabledBefore
      fun url hurl => isUrlRow_of_acceptable (hadd url hurl)
    rw [hmissing, bne_self_eq_false, Bool.or_false]
    constructor
    · intro h
      refine ⟨rfl, fun hapart => ?_⟩
      rw [notRemoved_eq_nil_iff.mpr hapart] at h
      split at h <;> cases h
    · rintro ⟨-, hnot⟩
      have hleft : (verify lower ((planChanges lower rows add remove none enabledBefore).apply rows)
          rows (planChanges lower rows add remove none enabledBefore) none []).notRemoved ≠ [] :=
        fun heq => hnot (notRemoved_eq_nil_iff.mp heq)
      have hsome : (planChanges lower rows add remove none enabledBefore).removeIdx ≠ [] := by
        intro heq
        apply hnot
        intro row hrow hrowUrl url hurl hisUrl hgone hkey
        -- a row with such a key is removed
        have hkeys := (@mem_goneKeys lower rows add remove enabledBefore _).mpr
          ⟨url, hurl, hisUrl, hgone, rfl⟩
        rw [heq] at hkeys
        cases hkeys
      rw [← List.isEmpty_eq_false_iff] at hleft hsome
      rw [hsome, hleft]
      rfl

/-- A URL row is replaced. -/
theorem planned_iff_replace :
    Planned asciiLower ["https://a.example/".toList, "add new URL".toList] [] []
        (some ["https://A.example".toList, "https://b.example".toList]) false
        (planChanges asciiLower ["https://a.example/".toList, "add new URL".toList] [] []
          (some ["https://A.example".toList, "https://b.example".toList]) false) ↔
      (some ["https://A.example".toList, "https://b.example".toList] = none →
        Apart asciiLower ["https://a.example/".toList, "add new URL".toList] []) := by
  apply planned_iff
  · exact fun url hurl => absurd hurl List.not_mem_nil
  · intro urls heq
    obtain rfl := Option.some.inj heq
    decide

/-- A URL of slashes is removed, and a row without them is there. -/
theorem not_planned : ¬ ∀ (lower : List Char → List Char) (rows add remove : List Url)
    (exact : Option (List Url)) (enabledBefore : Bool), (∀ url ∈ add, acceptable url = true) →
      (∀ url ∈ remove, acceptable url = true) →
      (∀ urls, exact = some urls → ∀ url ∈ urls, acceptable url = true) →
        Planned lower rows add remove exact enabledBefore
          (planChanges lower rows add remove exact enabledBefore) := by
  intro h
  have hplanned := h asciiLower ["https:///".toList, "https:".toList] [] ["https:///".toList] none
    true (by decide) (by decide) (fun urls heq => by cases heq)
  exact absurd hplanned.passes.2 (by decide)

end WebRequest

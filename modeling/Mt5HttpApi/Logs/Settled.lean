import Mt5HttpApi.Logs.Accounted

/-!
# A pass that nothing disturbs

While no process writes, a pass whose commands all do what they are for leaves the directory
`Settled`: archives that are too old are gone, those of an earlier version are compressed, and each
log is rotated. A pass over a settled directory changes nothing, whatever its commands answer.

* `pass_settles`, `pass_of_settled`: one pass.
* `second_pass_changes_nothing`: two passes on one day.
-/

namespace Logs

open Interaction Transition

variable {gz : Bytes → Bytes} {retain : ℕ} {d u v : Dir} {name f : Name} {bytes : Bytes}
  {day cutoff : ℕ} {s t w : Site}

/-- The surroundings of the script while no process writes. -/
def quiet (gz : Bytes → Bytes) : World Dir Ans where
  Choice := Choice
  answer := answer gz
  Event := Empty
  move _ e := nomatch e

/-- Each command does what it is for. -/
abbrev AllDone (gz : Bytes → Bytes) (_ : Dir) (_ : Call) (c : (quiet gz).Choice) : Prop :=
  c.ok = true

/-- The directory after a program that nothing disturbs. -/
abbrev After (gz : Bytes → Bytes) (allowed : Dir → Call → (quiet gz).Choice → Prop)
    (Q : Dir → Prop) (p : Program Ans PUnit) (d : Dir) : Prop :=
  Leads (W := quiet gz) (fun _ _ => True) allowed (fun _ => Q) p d

/-- Nothing moves. -/
theorem stable_quiet (P : Dir → Prop) (d : Dir) (e : (quiet gz).Event) (u : Dir)
    (_ : (quiet gz).move d e = some u) (_ : P d) : P u := nomatch e

variable {allowed : Dir → Call → (quiet gz).Choice → Prop} {Q : Dir → Prop}

theorem after_pure (h : Q d) : After gz allowed Q (pure ⟨⟩) d :=
  leads_done (stable_quiet Q) h fun _ hu => hu

/-- A command is answered at once. -/
theorem after_call {o : Call} {next : Ans o → Program Ans PUnit}
    (hnext : ∀ c a u, allowed d o c → answer gz d o c = some (a, u) →
      After gz allowed Q (next a) u) : After gz allowed Q (.call o next) d :=
  leads_call (stable_quiet (· = d)) rfl (fun _ _ => trivial) fun _ ht c a u hc hanswer =>
    hnext c a u (ht ▸ hc) (ht ▸ hanswer)

/-- There is a file of that name. -/
def Dir.HasFile (d : Dir) (name : Name) : Prop := ∃ bytes, d.entry name = some (.file bytes)

/-- `[ -f "$name" ]`, and what follows if it is. -/
theorem after_isFile {next : Bool → Program Ans PUnit}
    (hyes : d.HasFile name → After gz allowed Q (next true) d)
    (hno : ¬ d.HasFile name → After gz allowed Q (next false) d) :
    After gz allowed Q (.call (.isFile name) next) d := by
  refine after_call fun c a u _ hanswer => ?_
  obtain ⟨rfl, rfl⟩ := Prod.mk.inj (Option.some.inj hanswer)
  split
  next bytes hentry => exact hyes ⟨bytes, hentry⟩
  next hother => exact hno fun hfile => hfile.elim hother

/-- `[ -e "$name" ]`, and what follows if it is. -/
theorem after_isThere {next : Bool → Program Ans PUnit}
    (hyes : d.entry name ≠ none → After gz allowed Q (next true) d)
    (hno : d.entry name = none → After gz allowed Q (next false) d) :
    After gz allowed Q (.call (.isThere name) next) d := by
  refine after_call fun c a u _ hanswer => ?_
  obtain ⟨rfl, rfl⟩ := Prod.mk.inj (Option.some.inj hanswer)
  cases hentry : d.entry name with
  | none => exact hno hentry
  | some e => exact hyes (by simp [hentry])

/-! ## What is left to do -/

/-- An archive is not older than `cutoff`. -/
def Young (cutoff : ℕ) (n : Name) (d : Dir) : Prop :=
  shellMatches archivePattern n = true → d.HasFile n → ¬ Expired n cutoff

/-- An archive is compressed, or was so already. -/
def Packed (n : Name) (d : Dir) : Prop :=
  shellMatches archivePattern n = true → d.HasFile n → isArchive n = true →
    ¬ ".gz".toList <:+ n → d.entry (n ++ ".gz".toList) ≠ none

/-- A log is empty or has an archive of the day; where a directory is in the way of the copy, there
can be none. -/
def Rotated (date : Name) (f : Name) (d : Dir) : Prop :=
  shellMatches livePattern f = true → d.HasFile f →
    d.entry f = some (.file []) ∨ d.entry (archiveName f date) ≠ none ∨
      d.entry (f ++ '.' :: date) ≠ none ∨ d.entry (tmpName f date) = some .other

/-- There is nothing to do for a pass. -/
structure Settled (day cutoff : ℕ) (d : Dir) : Prop where
  young : ∀ n, Young cutoff n d
  packed : ∀ n, Packed n d
  rotated : ∀ f, Rotated (dateText day) f d

/-- A pattern stands for the names that it matches. -/
theorem mem_expands {pattern : Name} (hmatch : shellMatches pattern name = true)
    (hthere : d.entry name ≠ none) : name ∈ d.expands pattern := by
  obtain ⟨e, he⟩ := Option.ne_none_iff_exists'.mp hthere
  have hmem : name ∈ (d.entries.map Prod.fst).filter (shellMatches pattern) :=
    List.mem_filter.mpr ⟨List.mem_map_of_mem (Dict.mem_of_get he), hmatch⟩
  rw [Dir.expands]
  split
  next hnil => exact absurd (hnil ▸ hmem) List.not_mem_nil
  next => exact hmem

/-- The loop over a pattern. -/
theorem after_glob {pattern : Name} {next : List Name → Program Ans PUnit}
    (hnext : ∀ names, names.Perm (d.expands pattern) → After gz allowed Q (next names) d) :
    After gz allowed Q (.call (.glob pattern) next) d := by
  refine after_call fun c a u _ hanswer => ?_
  simp only [answer] at hanswer
  split at hanswer
  next hperm =>
    obtain ⟨rfl, rfl⟩ := Prod.mk.inj (Option.some.inj hanswer)
    exact hnext c.order hperm
  next => cases hanswer

/-! ## Over a settled directory -/

/-- Nothing is deleted that is young. -/
theorem after_pruneArchive_of_young (hyoung : Young cutoff name d)
    (hmatch : isArchive name = true → shellMatches archivePattern name = true) :
    After gz allowed (· = d) (pruneArchive cutoff name) d := by
  refine after_isFile (fun hfile => ?_) fun _ => after_pure rfl
  have hkeep : ¬ (isArchive name = true ∧ archiveNumber name < cutoff) := fun hold =>
    hyoung (hmatch hold.1) hfile hold
  show After gz allowed (· = d) (if _ then _ else _) d
  rw [if_neg hkeep]
  exact after_pure rfl

theorem after_compressArchive_of_packed (hpacked : Packed name d)
    (hmatch : isArchive name = true → shellMatches archivePattern name = true) :
    After gz allowed (· = d) (compressArchive name) d := by
  refine after_isFile (fun hfile => ?_) fun _ => after_pure rfl
  show After gz allowed (· = d) (if _ then _ else _) d
  split
  next hplain =>
    refine after_isThere (fun _ => after_pure rfl) fun hnone => ?_
    exact absurd hnone (hpacked (hmatch hplain.2) hfile hplain.2 hplain.1)
  next => exact after_pure rfl

/-- A directory is not removed. -/
theorem after_rm_other (hother : d.entry name = some .other) :
    After gz allowed (· = d) (rm name) d := by
  refine after_call fun c a u _ hanswer => ?_
  simp only [answer, hother] at hanswer
  obtain ⟨-, rfl⟩ := Prod.mk.inj (Option.some.inj hanswer)
  exact after_pure rfl

theorem after_rotateLog_of_rotated {date : Name} (hrotated : Rotated date f d)
    (hmatch : shellMatches livePattern f = true) :
    After gz allowed (· = d) (rotateLog date f) d := by
  refine after_isFile (fun hfile => ?_) fun _ => after_pure rfl
  refine after_isThere (fun _ => after_pure rfl) fun hnone => ?_
  refine after_isThere (fun _ => after_pure rfl) fun hnone' => ?_
  refine after_call fun c notEmpty u _ hanswer => ?_
  obtain ⟨hempty, rfl⟩ := Prod.mk.inj (Option.some.inj hanswer)
  rcases hrotated hmatch hfile with hnil | harchive | hplain | hother
  · obtain rfl : false = notEmpty := by simpa [hnil] using hempty
    exact after_pure rfl
  · exact absurd hnone harchive
  · exact absurd hnone' hplain
  · cases notEmpty with
    | false => exact after_pure rfl
    | true =>
      -- the copy cannot be opened, and what is in its place cannot be removed
      refine after_call fun c read v _ hread => ?_
      simp only [answer, hother] at hread
      obtain ⟨rfl, rfl⟩ := Prod.mk.inj (Option.some.inj hread)
      exact after_rm_other hother

/-- A loop is over what its pattern matches, or once over the pattern. -/
theorem shellMatches_of_mem_expands {pattern : Name} (h : name ∈ d.expands pattern) :
    shellMatches pattern name = true ∨ name = pattern := by
  rw [Dir.expands] at h
  split at h
  next => exact Or.inr (List.mem_singleton.mp h)
  next => exact Or.inl (List.mem_filter.mp h).2

/-- The pattern of the archives is none. -/
theorem shellMatches_of_isArchive (h : name ∈ d.expands archivePattern)
    (harchive : isArchive name = true) : shellMatches archivePattern name = true := by
  refine (shellMatches_of_mem_expands h).resolve_right ?_
  rintro rfl
  exact absurd harchive (by decide)

/-- The pattern of the logs matches itself. -/
theorem shellMatches_of_live (h : name ∈ d.expands livePattern) :
    shellMatches livePattern name = true := by
  rcases shellMatches_of_mem_expands h with hmatch | rfl
  · exact hmatch
  · decide

/-- A pass over a settled directory changes nothing, whatever its commands answer. -/
theorem pass_of_settled (h : Settled day cutoff d) :
    After gz allowed (· = d) (rotateDir (dateText day) cutoff) d := by
  have hloop : ∀ (body : Name → Program Ans PUnit) (names : List Name),
      (∀ n ∈ names, After gz allowed (· = d) (body n) d) →
        After gz allowed (· = d) (names.forM body) d := by
    intro body names hbody
    refine leads_forM (stable_quiet (· = d)) rfl fun n hn u hu => ?_
    rw [hu]
    exact hbody n hn
  refine after_call fun c isMounted u _ hanswer => ?_
  obtain ⟨-, rfl⟩ := Prod.mk.inj (Option.some.inj hanswer)
  cases isMounted with
  | false => exact after_pure rfl
  | true =>
    refine after_glob fun old hold => ?_
    refine (hloop (pruneArchive cutoff) old fun n hn => after_pruneArchive_of_young (h.young n)
      (shellMatches_of_isArchive (hold.mem_iff.mp hn))).bind fun _ u hu => ?_
    rw [hu]
    refine after_glob fun plain hplain => ?_
    refine (hloop compressArchive plain fun n hn => after_compressArchive_of_packed (h.packed n)
      (shellMatches_of_isArchive (hplain.mem_iff.mp hn))).bind fun _ u hu => ?_
    rw [hu]
    exact after_glob fun live hlive => hloop (rotateLog (dateText day)) live fun n hn =>
      after_rotateLog_of_rotated (h.rotated n) (shellMatches_of_live (hlive.mem_iff.mp hn))

/-! ## Settling a directory -/

/-- The first loop: an archive is deleted if it is too old. -/
theorem after_pruneArchive (name : Name) (d : Dir) :
    After gz (AllDone gz) (fun u => (u = d ∨ u = d.drop name) ∧ (u.HasFile name →
      ¬ Expired name cutoff)) (pruneArchive cutoff name) d := by
  refine after_isFile (fun hfile => ?_) fun hno => after_pure ⟨Or.inl rfl, fun h => absurd h hno⟩
  show After gz _ _ (if isArchive name = true ∧ archiveNumber name < cutoff then _ else _) d
  split
  next =>
    refine after_call fun c a u hok hanswer => after_pure ?_
    obtain ⟨bytes, hentry⟩ := hfile
    simp only [answer, hentry] at hanswer
    obtain ⟨-, rfl⟩ := Prod.mk.inj (Option.some.inj hanswer)
    rw [if_pos hok]
    refine ⟨Or.inr rfl, ?_⟩
    rintro ⟨b, hb⟩
    rw [Dir.entry_drop, if_pos rfl] at hb
    cases hb
  next hyoung => exact after_pure ⟨Or.inl rfl, fun _ => hyoung⟩

/-- The second loop: an archive is compressed if it is not. -/
theorem after_compressArchive (name : Name) (d : Dir) :
    After gz (AllDone gz) (fun u =>
      (u = d ∨ isArchive name = true ∧ ¬ ".gz".toList <:+ name ∧ d.HasFile name ∧
        ∃ bytes, u = (d.put (name ++ ".gz".toList) bytes).drop name) ∧
      (u.HasFile name → isArchive name = true → ¬ ".gz".toList <:+ name →
        u.entry (name ++ ".gz".toList) ≠ none)) (compressArchive name) d := by
  refine after_isFile (fun hfile => ?_) fun hno => after_pure ⟨Or.inl rfl, fun h => absurd h hno⟩
  show After gz _ _ (if ¬ ".gz".toList <:+ name ∧ isArchive name = true then _ else _) d
  split
  next hplain =>
    refine after_isThere (fun hthere => after_pure ⟨Or.inl rfl, fun _ _ _ => hthere⟩)
      fun hnone => ?_
    refine after_call fun c a u hok hanswer => after_pure ?_
    obtain ⟨bytes, hentry⟩ := hfile
    simp only [answer, hentry, hnone] at hanswer
    rw [if_pos hok] at hanswer
    obtain ⟨-, rfl⟩ := Prod.mk.inj (Option.some.inj hanswer)
    refine ⟨Or.inr ⟨hplain.2, hplain.1, ⟨bytes, hentry⟩, gz bytes, rfl⟩, ?_⟩
    rintro ⟨b, hb⟩
    rw [Dir.entry_drop, if_pos rfl] at hb
    cases hb
  next hplain => exact after_pure ⟨Or.inl rfl, fun _ harchive hgz => absurd ⟨hgz, harchive⟩ hplain⟩

/-- The third loop: a log is rotated if it has to be, and nothing but it, its archive and the copy
on the way is touched. -/
theorem after_rotateLog (date : Name) (f : Name) (d : Dir) :
    After gz (AllDone gz) (fun u =>
      (u = d ∨ d.HasFile f ∧ (∀ n, n ≠ f → n ≠ archiveName f date → n ≠ tmpName f date →
          u.entry n = d.entry n) ∧ u.entry f = some (.file []) ∧
        (∃ bytes, u.entry (archiveName f date) = some (.file bytes)) ∧
        u.entry (tmpName f date) = none ∧ d.entry (tmpName f date) ≠ some .other) ∧
      (u.HasFile f → u.entry f = some (.file []) ∨ u.entry (archiveName f date) ≠ none ∨
        u.entry (f ++ '.' :: date) ≠ none ∨ u.entry (tmpName f date) = some .other))
      (rotateLog date f) d := by
  obtain ⟨hfa, hft, hat⟩ := rotation_names_ne f date
  refine after_isFile (fun hfile => ?_) fun hno => after_pure ⟨Or.inl rfl, fun h => absurd h hno⟩
  refine after_isThere (fun hthere => after_pure ⟨Or.inl rfl, fun _ => Or.inr (Or.inl hthere)⟩)
    fun hnone => ?_
  refine after_isThere (fun hthere => after_pure
    ⟨Or.inl rfl, fun _ => Or.inr (Or.inr (Or.inl hthere))⟩) fun _ => ?_
  obtain ⟨bytes, hentry⟩ := hfile
  refine after_call fun c notEmpty u _ hanswer => ?_
  obtain ⟨hempty, rfl⟩ := Prod.mk.inj (Option.some.inj hanswer)
  cases notEmpty with
  | false =>
    have hnil : bytes = [] := by
      rw [hentry] at hempty
      cases bytes with
      | nil => rfl
      | cons => cases hempty
    exact after_pure ⟨Or.inl rfl, fun _ => Or.inl (hnil ▸ hentry)⟩
  | true =>
    refine after_call fun c read u hok hread => ?_
    simp only [answer, hentry] at hread
    split at hread
    next hother =>
      -- a directory is in the way of the copy
      obtain ⟨rfl, rfl⟩ := Prod.mk.inj (Option.some.inj hread)
      refine (after_rm_other hother).mono fun _ v hv => ?_
      rw [hv]
      exact ⟨Or.inl rfl, fun _ => Or.inr (Or.inr (Or.inr hother))⟩
    next content hcontent hother =>
      obtain rfl : bytes = content := by simpa using hcontent
      rw [if_pos hok] at hread
      obtain ⟨rfl, hu⟩ := Prod.mk.inj (Option.some.inj hread)
      have hcopied : ∀ n, u.entry n =
          if n = tmpName f date then some (.file (gz bytes)) else d.entry n := fun n => by
        rw [← hu]
        exact d.entry_put _ _ _
      refine after_call fun c moved v hok hmoved => ?_
      have htmp := (hcopied (tmpName f date)).trans (if_pos rfl)
      have harchive := ((hcopied (archiveName f date)).trans (if_neg hat)).trans hnone
      simp only [answer, htmp, harchive] at hmoved
      rw [if_pos hok] at hmoved
      obtain ⟨rfl, hv⟩ := Prod.mk.inj (Option.some.inj hmoved)
      have hmoved : ∀ n, v.entry n = if n = archiveName f date then some (.file (gz bytes))
          else if n = tmpName f date then none else u.entry n := fun n => by
        rw [← hv, Dir.entry_put, Dir.entry_drop]
      have hf : v.entry f = some (.file bytes) := by
        rw [hmoved, if_neg hfa, if_neg hft, hcopied, if_neg hft, hentry]
      refine after_call fun c a w hok htruncated => ?_
      simp only [answer, hf] at htruncated
      rw [if_pos hok] at htruncated
      obtain ⟨-, hw⟩ := Prod.mk.inj (Option.some.inj htruncated)
      have hemptied : ∀ n, w.entry n = if n = f then some (.file []) else v.entry n := fun n => by
        rw [← hw]
        exact v.entry_put _ _ _
      refine after_pure ⟨Or.inr ⟨⟨bytes, hentry⟩, fun n hnf hna hnt => ?_, ?_, ⟨gz bytes, ?_⟩, ?_,
        hother⟩, fun _ => Or.inl ((hemptied f).trans (if_pos rfl))⟩
      · rw [hemptied, if_neg hnf, hmoved, if_neg hna, if_neg hnt, hcopied, if_neg hnt]
      · rw [hemptied, if_pos rfl]
      · rw [hemptied, if_neg hfa.symm, hmoved, if_pos rfl]
      · rw [hemptied, if_neg hft.symm, hmoved, if_neg hat.symm, if_pos rfl]
    next hnot _ => exact absurd rfl (hnot bytes)

/-- After the first loop each archive is young. -/
theorem after_prune {old : List Name} (hold : old.Perm (d.expands archivePattern)) :
    After gz (AllDone gz) (fun u => ∀ n, Young cutoff n u) (old.forM (pruneArchive cutoff)) d := by
  have hloop : After gz (AllDone gz) (fun u =>
      (∀ n, u.entry n = d.entry n ∨ u.entry n = none) ∧
      ∀ n ∈ old, u.HasFile n → ¬ Expired n cutoff) (old.forM (pruneArchive cutoff)) d := by
    refine leads_forM_each (stable_quiet _) (fun n => stable_quiet _) (fun n => Or.inl rfl)
      fun n _ u hu => (after_pruneArchive n u).mono fun _ v hv =>
        ⟨fun m => ?_, hv.2, fun m hm => ?_⟩
    · rcases hv.1 with rfl | rfl
      · exact hu m
      · rw [Dir.entry_drop]
        split
        · exact Or.inr rfl
        · exact hu m
    · rcases hv.1 with rfl | rfl
      · exact hm
      · rintro ⟨bytes, hentry⟩
        rw [Dir.entry_drop] at hentry
        split at hentry
        · cases hentry
        · exact hm ⟨bytes, hentry⟩
  refine hloop.mono fun _ u hu n hmatch hfile => hu.2 n (hold.mem_iff.mpr ?_) hfile
  obtain ⟨bytes, hentry⟩ := hfile
  refine mem_expands hmatch ?_
  rw [← (hu.1 n).resolve_right (by simp [hentry]), hentry]
  simp

/-- After the second loop each archive is young and compressed. -/
theorem after_compress {plain : List Name} (hyoung : ∀ n, Young cutoff n d)
    (hplain : plain.Perm (d.expands archivePattern)) :
    After gz (AllDone gz) (fun u => (∀ n, Young cutoff n u) ∧ ∀ n, Packed n u)
      (plain.forM compressArchive) d := by
  have hloop : After gz (AllDone gz) (fun u => ((∀ n, Young cutoff n u) ∧
      ∀ n, u.entry n ≠ none → ¬ ".gz".toList <:+ n → d.entry n ≠ none) ∧
      ∀ n ∈ plain, u.HasFile n → isArchive n = true → ¬ ".gz".toList <:+ n →
        u.entry (n ++ ".gz".toList) ≠ none) (plain.forM compressArchive) d := by
    refine leads_forM_each (stable_quiet _) (fun n => stable_quiet _) ⟨hyoung, fun _ h _ => h⟩
      fun n hn u hu => (after_compressArchive n u).mono fun _ v hv => ⟨?_, hv.2, ?_⟩
    · rcases hv.1 with rfl | ⟨harchive, hgz, hfile, bytes, rfl⟩
      · exact hu
      have hentry : ∀ m, ((u.put (n ++ ".gz".toList) bytes).drop n).entry m =
          if m = n then none else if m = n ++ ".gz".toList then some (.file bytes)
            else u.entry m := fun m => by rw [Dir.entry_drop, Dir.entry_put]
      refine ⟨?_, fun m hm hplain => ?_⟩
      · rintro m hmatch ⟨b, hb⟩ hold
        rw [hentry] at hb
        split_ifs at hb with _ hcompressed
        · -- the compressed archive is as old as the one that it is made of
          subst hcompressed
          exact hu.1 n (shellMatches_of_isArchive (hplain.mem_iff.mp hn) harchive) hfile
            ((expired_gz_iff hgz).mp hold)
        · exact hu.1 m hmatch ⟨b, hb⟩ hold
      · rw [hentry] at hm
        split_ifs at hm with _ hcompressed
        · exact absurd rfl hm
        · exact absurd (hcompressed ▸ List.suffix_append _ _) hplain
        · exact hu.2 m hm hplain
    · rcases hv.1 with rfl | ⟨-, hgz, -, bytes, rfl⟩
      · exact fun _ h => h
      intro other hother ⟨b, hb⟩ harchive' hgz'
      rw [Dir.entry_drop, Dir.entry_put] at hb
      split_ifs at hb with _ hcompressed
      · exact absurd (hcompressed ▸ List.suffix_append _ _) hgz'
      · have hne : other ++ ".gz".toList ≠ n := fun heq => hgz (heq ▸ List.suffix_append _ _)
        rw [Dir.entry_drop, if_neg hne, Dir.entry_put]
        split_ifs
        · simp
        · exact hother ⟨b, hb⟩ harchive' hgz'
  refine hloop.mono fun _ u hu => ?_
  obtain ⟨⟨hyoung, hsub⟩, hpacked⟩ := hu
  refine ⟨hyoung, ?_⟩
  intro n hmatch hfile harchive hgz
  refine hpacked n (hplain.mem_iff.mpr (mem_expands hmatch ?_)) hfile harchive hgz
  obtain ⟨bytes, hentry⟩ := hfile
  exact hsub n (by simp [hentry]) hgz

/-- After the third loop each log is rotated, and each archive is still young and compressed. -/
theorem after_rotate {live : List Name} (hcutoff : cutoff ≤ ymd day)
    (hyoung : ∀ n, Young cutoff n d) (hpacked : ∀ n, Packed n d)
    (hlive : live.Perm (d.expands livePattern)) :
    After gz (AllDone gz) (Settled day cutoff) (live.forM (rotateLog (dateText day))) d := by
  have hgz := gz_suffix_archiveName
  have hloop : After gz (AllDone gz) (fun u => ((∀ n, Young cutoff n u) ∧ (∀ n, Packed n u) ∧
      ∀ n, isLog n → u.HasFile n → d.entry n ≠ none) ∧
      ∀ f ∈ live, isLog f → u.HasFile f → u.entry f = some (.file []) ∨
        u.entry (archiveName f (dateText day)) ≠ none ∨ u.entry (f ++ '.' :: dateText day) ≠ none ∨
        u.entry (tmpName f (dateText day)) = some .other)
      (live.forM (rotateLog (dateText day))) d := by
    refine leads_forM_each (stable_quiet _) (fun n => stable_quiet _)
      ⟨hyoung, hpacked, fun n _ hfile => hfile.elim fun b hb => by simp [hb]⟩ fun f hf u hu =>
        (after_rotateLog (dateText day) f u).mono fun _ v hv => ⟨?_, fun _ => hv.2, ?_⟩
    · rcases hv.1 with rfl | ⟨hfile, hsame, hempty, harchive, htmp, -⟩
      · exact hu
      have hlog : isLog f := isLog_of_mem_expands (hlive.mem_iff.mp hf)
      -- a file of `v` is the log, its archive or one that was there before
      have hcases : ∀ n, v.HasFile n →
          n = f ∨ n = archiveName f (dateText day) ∨ u.HasFile n := by
        rintro n ⟨b, hb⟩
        by_cases hnf : n = f
        · exact Or.inl hnf
        by_cases hna : n = archiveName f (dateText day)
        · exact Or.inr (Or.inl hna)
        have hnt : n ≠ tmpName f (dateText day) := by
          rintro rfl
          cases htmp.symm.trans hb
        exact Or.inr (Or.inr ⟨b, (hsame n hnf hna hnt).symm.trans hb⟩)
      refine ⟨fun n hmatch hn hold => ?_, fun n hmatch hn hnarchive hngz => ?_,
        fun n hnlog hn => ?_⟩
      · rcases hcases n hn with rfl | rfl | hn'
        · exact not_isLog_of_isArchive hold.1 hlog
        · -- the new archive is of yesterday
          have hlt := hold.2
          rw [archiveNumber_archiveName] at hlt
          omega
        · exact hu.1 n hmatch hn' hold
      · have hthere : u.entry (n ++ ".gz".toList) ≠ none := by
          rcases hcases n hn with rfl | rfl | hn'
          · exact absurd hlog (not_isLog_of_isArchive hnarchive)
          · exact absurd (hgz _ _) hngz
          · exact hu.2.1 n hmatch hn' hnarchive hngz
        have hsuffix : ".gz".toList <:+ n ++ ".gz".toList := List.suffix_append _ _
        by_cases hna : n ++ ".gz".toList = archiveName f (dateText day)
        · obtain ⟨b, hb⟩ := harchive
          rw [hna, hb]
          exact Option.some_ne_none _
        · have hnf : n ++ ".gz".toList ≠ f := fun heq => not_isLog_of_gz (heq ▸ hsuffix) hlog
          rw [hsame _ hnf hna fun heq => not_gz_tmpName f (dateText day) (heq ▸ hsuffix)]
          exact hthere
      · rcases hcases n hn with rfl | rfl | hn'
        · exact hu.2.2 n hlog hfile
        · exact absurd hnlog (not_isLog_archiveName _ _)
        · exact hu.2.2 n hnlog hn'
    · rcases hv.1 with rfl | ⟨hfile, hsame, hempty, harchive, htmp, hfree⟩
      · exact fun _ h => h
      have hlog : isLog f := isLog_of_mem_expands (hlive.mem_iff.mp hf)
      intro g hg hglog hgfile
      by_cases hgf : g = f
      · exact Or.inl (hgf ▸ hempty)
      have hother : ∀ n, ¬ isLog n → n ≠ archiveName f (dateText day) →
          n ≠ tmpName f (dateText day) → v.entry n = u.entry n := fun n hn =>
        hsame n fun heq => hn (heq ▸ hlog)
      have hgsame : v.entry g = u.entry g := hsame g hgf
        (fun heq => not_isLog_archiveName f (dateText day) (heq ▸ hglog))
        fun heq => not_isLog_tmpName f (dateText day) (heq ▸ hglog)
      have hgfile' : u.HasFile g := by
        obtain ⟨b, hb⟩ := hgfile
        exact ⟨b, hgsame.symm.trans hb⟩
      rcases hg hglog hgfile' with hnil | hnew | hold | hdir
      · exact Or.inl (hgsame.trans hnil)
      · by_cases hna : archiveName g (dateText day) = archiveName f (dateText day)
        · obtain ⟨b, hb⟩ := harchive
          exact Or.inr (Or.inl (by simp [hna, hb]))
        · refine Or.inr (Or.inl ?_)
          rw [hother _ (not_isLog_archiveName _ _) hna
            fun heq => not_gz_tmpName f (dateText day) (heq ▸ hgz g (dateText day))]
          exact hnew
      · refine Or.inr (Or.inr (Or.inl ?_))
        by_cases hna : g ++ '.' :: dateText day = archiveName f (dateText day)
        · obtain ⟨b, hb⟩ := harchive
          simp [hna, hb]
        · rw [hother _ (not_isLog_plain _ _) hna (plain_ne_tmpName _ _ _ _)]
          exact hold
      · refine Or.inr (Or.inr (Or.inr ?_))
        have hnt : tmpName g (dateText day) ≠ tmpName f (dateText day) := fun heq =>
          hfree (heq ▸ hdir)
        rw [hother _ (not_isLog_tmpName _ _)
          (fun heq => not_gz_tmpName g (dateText day) (heq ▸ hgz f (dateText day))) hnt]
        exact hdir
  refine hloop.mono fun _ u hu => ?_
  obtain ⟨⟨hyoung, hpacked, hsub⟩, hrotated⟩ := hu
  refine ⟨hyoung, hpacked, ?_⟩
  intro f hmatch hfile
  have hlog := isLog_of_shellMatches hmatch
  exact hrotated f (hlive.mem_iff.mpr (mem_expands hmatch (hsub f hlog hfile))) hlog hfile

/-- A pass whose commands all do what they are for settles a directory, if no process writes. -/
theorem pass_settles (hcutoff : cutoff ≤ ymd day) (hhere : d.here = true) :
    After gz (AllDone gz) (Settled day cutoff) (rotateDir (dateText day) cutoff) d := by
  refine after_call fun c isMounted u _ hanswer => ?_
  obtain ⟨rfl, rfl⟩ := Prod.mk.inj (Option.some.inj hanswer)
  rw [hhere]
  refine after_glob fun old hold => ?_
  refine (after_prune hold).bind fun _ u hyoung => ?_
  refine after_glob fun plain hplain => ?_
  refine (after_compress hyoung hplain).bind fun _ u hu => ?_
  exact after_glob fun live hlive => after_rotate hcutoff hu.1 hu.2 hlive

/-! ## Two passes -/

/-- No process writes and no pass is killed, and the answers are as `good` has them. -/
abbrev OnlyAnswers (good : Choice → Prop) (_ : Site) (l : Label) : Prop :=
  ∃ c, l = .answer c ∧ good c

/-- A pass that is over has brought about what it leads to. -/
theorem after_run {good : Choice → Prop} {pass : Program Ans PUnit}
    (hrun : RunOf (step gz retain) (OnlyAnswers good) s t) (hpass : s.pass = some pass)
    (hafter : After gz (fun _ _ c => good c) Q pass s.dir) (hdone : t.pass = some (.done ⟨⟩)) :
    Q t.dir := by
  obtain ⟨rest, hrest, hlast⟩ : ∃ rest, t.pass = some rest ∧
      After gz (fun _ _ c => good c) Q rest t.dir := by
    refine hrun.invariant (P := fun t => ∃ rest, t.pass = some rest ∧
      After gz (fun _ _ c => good c) Q rest t.dir) ?_ ⟨pass, hpass, hafter⟩
    rintro v l w ⟨rest, hrest, hv⟩ ⟨c, rfl, hgood⟩ hstep
    obtain ⟨rest', hrest', hresume⟩ := Option.bind_eq_some_iff.mp hstep
    obtain rfl := Option.some.inj (hrest.symm.trans hrest')
    obtain ⟨r, hr, rfl⟩ := Option.map_eq_some_iff.mp hresume
    exact ⟨r.2, rfl, hv.resume (fun _ _ _ => hgood) hr⟩
  obtain rfl := Option.some.inj (hrest.symm.trans hdone)
  exact hlast.of_done

/-- A pass that nothing disturbs and whose commands all do what they are for leaves nothing to do:
every archive in the directory is within the days to retain and is compressed, and every log is
empty or has its archive of the day before. A second pass on the same day then changes nothing,
whatever its commands answer. -/
theorem second_pass_changes_nothing {today : ℕ} {s₁ t₁ : Site} (hretain : 1 ≤ retain)
    (hhere : s.dir.here = true) (hbegin : step gz retain s (.begin today) = some s₁)
    (hfirst : RunOf (step gz retain) (OnlyAnswers fun c => c.ok = true) s₁ t)
    (ht : t.pass = some (.done ⟨⟩)) (hagain : step gz retain t (.begin today) = some t₁)
    (hsecond : RunOf (step gz retain) (OnlyAnswers fun _ => True) t₁ w)
    (hw : w.pass = some (.done ⟨⟩)) :
    Settled (today - 1) (ymd (today - retain)) t.dir ∧ w.dir.entries = t.dir.entries := by
  obtain rfl := (Option.some.inj hbegin).symm
  obtain rfl := (Option.some.inj hagain).symm
  have hcutoff : ymd (today - retain) ≤ ymd (today - 1) := strictMono_ymd.monotone (by omega)
  have hsettled := after_run hfirst rfl (pass_settles hcutoff hhere) ht
  refine ⟨hsettled, ?_⟩
  have hafter : After gz (fun _ _ _ => True) (· = { t.dir with reading := none, since := [] })
      (rotateDir (dateText (today - 1)) (ymd (today - retain)))
      { t.dir with reading := none, since := [] } :=
    pass_of_settled ⟨hsettled.young, hsettled.packed, hsettled.rotated⟩
  have heq : w.dir = { t.dir with reading := none, since := [] } :=
    after_run hsecond rfl hafter hw
  rw [heq]

/-- Answers that are all good, one after another. -/
theorem runOf_answers {good : Choice → Prop} : ∀ (answers : List Choice) {s t : Site},
    exec (step gz retain) s (answers.map .answer) = some t → (∀ c ∈ answers, good c) →
    RunOf (step gz retain) (OnlyAnswers good) s t
  | [], _, _, h, _ => by
    cases h
    exact RunOf.refl
  | c :: answers, _, _, h, hgood => by
    obtain ⟨u, hu, ht⟩ := Option.bind_eq_some_iff.mp h
    exact RunOf.head ⟨c, rfl, hgood c List.mem_cons_self⟩ hu
      (runOf_answers answers ht fun c' hc' => hgood c' (List.mem_cons_of_mem _ hc'))

/-- A log is rotated in the first pass, and the second leaves it and its archive. -/
theorem second_pass_after_rotation : ∃ t w : Site,
    t.dir.entries = [("a.log".toList, .file []), ("a.log.19700109.gz".toList, .file [31, 1])] ∧
    Settled 8 (ymd 2) t.dir ∧ w.dir.entries = t.dir.entries := by
  refine ⟨_, _, ?_, second_pass_changes_nothing (by decide) rfl
    (rfl : step (fun b => 31 :: b) 7 (initial true [("a.log".toList, .file [1])]) (.begin 9) =
      some _)
    (runOf_answers [⟨true, none, []⟩, ⟨true, none, [archivePattern]⟩, ⟨true, none, []⟩,
      ⟨true, none, [archivePattern]⟩, ⟨true, none, []⟩, ⟨true, none, ["a.log".toList]⟩,
      ⟨true, none, []⟩, ⟨true, none, []⟩, ⟨true, none, []⟩, ⟨true, none, []⟩, ⟨true, none, []⟩,
      ⟨true, none, []⟩, ⟨true, none, []⟩] rfl (by decide)) rfl rfl
    (runOf_answers [⟨true, none, []⟩, ⟨true, none, ["a.log.19700109.gz".toList]⟩,
      ⟨true, none, []⟩, ⟨true, none, ["a.log.19700109.gz".toList]⟩, ⟨true, none, []⟩,
      ⟨true, none, ["a.log".toList]⟩, ⟨true, none, []⟩, ⟨true, none, []⟩] rfl (by simp)) rfl⟩
  decide

end Logs

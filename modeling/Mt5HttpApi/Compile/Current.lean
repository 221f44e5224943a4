import Mt5HttpApi.Compile.Refresh

/-!
# What a compile finds in the mirror

* `compiles_current`: when a compile begins, the mirror has every file of the source whose last
  change was marked, or a minute old, when the process looked.
-/

namespace Compile.Refresh

open Transition

variable {P K : Type} [DecidableEq K]

namespace System

/-! ## What is kept -/

/-- The clocks. -/
def now (s : System P K) : ℕ × ℕ := (s.mono, s.wall)

/-- No other version of the file is taken for it. -/
def Told (s : System P K) (k : K) (file : File) : Prop :=
  ∀ old ∈ s.versions k, isCurrent file old = true → old = file

/-- What a step puts in the source or in the mirror. -/
def written (s : System P K) : Label P K → Option (K × File)
  | .change k file => file.map fun new => (k, new)
  | .copied p content =>
    match (s.process p).pc with
    | .copying _ _ k => (Dict.get s.source k).map fun file => (k, ⟨content, file.second⟩)
    | _ => none
  | .fail p torn | .restart p torn =>
    match (s.process p).pc with
    | .copying _ _ k => torn.map fun file => (k, file)
    | _ => none
  | _ => none

/-- What is put at a path differs from what was there before in its size or in its second. -/
def Ok (s : System P K) (l : Label P K) : Prop :=
  ∀ k file, s.written l = some (k, file) → s.Told k file

/-- No process has begun, and nothing in the mirror is taken for another file of the source. -/
structure Start (s : System P K) : Prop where
  process : ∀ p, s.process p = .new
  holder : s.holder = none
  seen : ∀ p k, s.seen p k = false
  changed : ∀ k, s.changed k ≤ s.now
  marker : ∀ mtime ∈ s.marker, mtime ≤ s.wall
  source : ∀ k file, Dict.get s.source k = some file → file ∈ s.versions k
  mirror : ∀ k file, Dict.get s.mirror k = some file → file ∈ s.versions k
  told : ∀ k, ∀ file ∈ s.versions k, s.Told k file

end System

/-- What was looked at is not later than a time. -/
def Look.Before (look : Look) (time : ℕ × ℕ) : Prop :=
  look.mono ≤ time.1 ∧ ∀ mtime ∈ look.marker, mtime ≤ time.2

/-- The last change at a path is one that the look was to find: it was marked, or it was
`INCLUDE_REFRESH_SECONDS` old. -/
def Look.Finds (look : Look) (changed : ℕ × ℕ) : Prop :=
  changed.1 + includeRefreshSeconds ≤ look.mono ∨ ∃ mtime ∈ look.marker, changed.2 < mtime

/-- The look of a process that has looked. -/
def Pc.look : Pc K → Option Look
  | .checking look | .walking look _ | .copying look _ _ | .compiling look => some look
  | _ => none

/-- What a process in a pass has visited. -/
def Pc.pass : Pc K → Option (Look × List K)
  | .walking look expected | .copying look expected _ => some (look, expected)
  | _ => none

/-- The last check, on both clocks. -/
def Process.checked (process : Process K) : ℕ × ℕ := (process.checkedAt, process.checkedWall)

/-- The process compiles from the mirror, and its last pass did all it was to do. -/
def Process.Whole (process : Process K) : Prop :=
  process.toolchain = .mirror ∧ process.short = false

namespace System

/-- What is so during a pass. -/
structure Walk (s : System P K) (p : P) (look : Look) (expected : List K) : Prop where
  touched : ∀ k, s.touched k = true → (s.process p).checked ≤ s.changed k ∧
    look.Before (s.changed k) ∧ ∀ q, s.seen q k = false
  same : ∀ k ∈ expected, s.touched k = false → Dict.get s.mirror k = Dict.get s.source k

/-- What is so of a process. -/
structure Fits (s : System P K) (p : P) : Prop where
  checked : (s.process p).checked ≤ s.now
  look : ∀ look ∈ (s.process p).pc.look, look.Before s.now
  /-- What it has not seen was changed after its check. -/
  unseen : (s.process p).pc.pass = none → (s.process p).Whole →
    ∀ k, s.seen p k = false → (s.process p).checked ≤ s.changed k
  walk : ∀ look expected, (s.process p).pc.pass = some (look, expected) →
    s.Walk p look expected
  copy : ∀ look expected k, (s.process p).pc = .copying look expected k →
    ∀ q, s.seen q k = false
  compiles : ∀ look, (s.process p).pc = .compiling look → (s.process p).Whole →
    ∀ k, look.Finds (s.changed k) → s.seen p k = true

/-- What is so of the files, and of what was seen of them. -/
structure Files (s : System P K) : Prop where
  told : ∀ k, ∀ file ∈ s.versions k, s.Told k file
  source : ∀ k file, Dict.get s.source k = some file → file ∈ s.versions k
  mirror : ∀ k file, Dict.get s.mirror k = some file → file ∈ s.versions k
  changed : ∀ k, s.changed k ≤ s.now
  marker : ∀ mtime ∈ s.marker, mtime ≤ s.wall
  /-- What a process has seen is in the mirror as it is in the source. -/
  agree : ∀ p k, s.seen p k = true → Dict.get s.mirror k = Dict.get s.source k

/-- What is so in every state. -/
structure Sound (s : System P K) : Prop where
  files : s.Files
  alone : ∀ p, (s.process p).pc ≠ .idle → s.holder = some p
  process : ∀ p, s.Fits p

variable {s t : System P K} {p q : P} {k : K} {look : Look} {file : File} {time time' : ℕ × ℕ}

theorem isCurrent_comm (src dst : File) : isCurrent src dst = isCurrent dst src := by
  simp only [isCurrent, eq_comm]

theorem isCurrent_self (src : File) : isCurrent src src = true := by simp [isCurrent]

theorem before_mono (h : look.Before time) (hle : time ≤ time') : look.Before time' :=
  ⟨h.1.trans hle.1, fun mtime hmtime => (h.2 mtime hmtime).trans hle.2⟩

/-- A change after the look is none that it was to find. -/
theorem not_finds (h : look.Before time) : ¬ look.Finds time := by
  rintro (hold | ⟨mtime, hmtime, hlt⟩)
  · have := h.1
    rw [includeRefreshSeconds] at hold
    omega
  · exact absurd (h.2 mtime hmtime) (by omega)

/-! ### Processes -/

omit [DecidableEq K] in
theorem look_of_pass {pc : Pc K} {expected : List K} (h : pc.pass = some (look, expected)) :
    look ∈ pc.look := by
  cases pc with
  | walking look' expected' => exact congrArg (Option.map Prod.fst) h
  | copying look' expected' k => exact congrArg (Option.map Prod.fst) h
  | _ => cases h

/-- Only the process that has the lock is in a compile. -/
theorem Sound.idle_of_ne (hs : s.Sound) (hp : (s.process p).pc ≠ .idle) (hne : q ≠ p) :
    (s.process q).pc = .idle := by
  by_contra hq
  exact hne (Option.some.inj ((hs.alone q hq).symm.trans (hs.alone p hp)))

/-- A process that is not in a compile. -/
theorem fits_idle (hidle : (s.process p).pc = .idle) (hchecked : (s.process p).checked ≤ s.now)
    (hunseen : (s.process p).Whole → ∀ k, s.seen p k = false →
      (s.process p).checked ≤ s.changed k) : s.Fits p where
  checked := hchecked
  look := by simp [hidle, Pc.look]
  unseen := fun _ => hunseen
  walk := by simp [hidle, Pc.pass]
  copy := by simp [hidle]
  compiles := by simp [hidle]

/-- Another process goes on. -/
theorem Fits.of_idle (h : s.Fits q) (hidle : (s.process q).pc = .idle)
    (hprocess : t.process q = s.process q) (hnow : s.now ≤ t.now) (hchanged : t.changed = s.changed)
    (hseen : t.seen q = s.seen q) : t.Fits q := by
  refine fits_idle (hprocess ▸ hidle) (hprocess ▸ h.checked.trans hnow) ?_
  rw [hprocess, hchanged, hseen]
  exact h.unseen (by rw [hidle]; rfl)

/-- The surroundings go on, and others may see less. -/
theorem Fits.later (h : s.Fits p) (hprocess : t.process p = s.process p) (hnow : s.now ≤ t.now)
    (hchanged : t.changed = s.changed) (htouched : t.touched = s.touched)
    (hseen : t.seen p = s.seen p) (hunseen : ∀ q k, s.seen q k = false → t.seen q k = false)
    (hsource : t.source = s.source) (hmirror : t.mirror = s.mirror) : t.Fits p where
  checked := hprocess ▸ h.checked.trans hnow
  look := hprocess ▸ fun look hlook => before_mono (h.look look hlook) hnow
  unseen := by
    rw [hprocess, hchanged, hseen]
    exact h.unseen
  walk := by
    rw [hprocess]
    intro look expected hpass
    obtain ⟨hwalk, hsame⟩ := h.walk look expected hpass
    refine ⟨fun k hk => ?_, ?_⟩
    · rw [htouched] at hk
      rw [hprocess, hchanged]
      exact ⟨(hwalk k hk).1, (hwalk k hk).2.1, fun q => hunseen q k ((hwalk k hk).2.2 q)⟩
    · rw [htouched, hsource, hmirror]
      exact hsame
  copy := by
    rw [hprocess]
    exact fun look expected k hpc q => hunseen q k (h.copy look expected k hpc q)
  compiles := by
    rw [hprocess, hchanged, hseen]
    exact h.compiles

/-! ### Files -/

/-- What is put at a path is told from what was there. -/
theorem told_noted {versions : K → List File} {file : Option File}
    (h : ∀ k, ∀ new ∈ versions k, ∀ old ∈ versions k, isCurrent new old = true → old = new)
    (hfile : ∀ new ∈ file, ∀ old ∈ versions k, isCurrent new old = true → old = new) :
    ∀ id, ∀ new ∈ noted versions k file id, ∀ old ∈ noted versions k file id,
      isCurrent new old = true → old = new := by
  intro id new hnew old hold hcurrent
  rcases eq_or_ne id k with rfl | hne
  · rw [noted, Function.update_self, List.mem_append, Option.mem_toList] at hnew hold
    rcases hnew with hnew | hnew
    · rcases hold with hold | hold
      · exact Option.some.inj (hold.symm.trans hnew)
      · exact hfile new hnew old hold hcurrent
    · rcases hold with hold | hold
      · exact (hfile old hold new hnew (isCurrent_comm new old ▸ hcurrent)).symm
      · exact h id new hnew old hold hcurrent
  · rw [noted, Function.update_of_ne hne] at hnew hold
    exact h id new hnew old hold hcurrent

theorem mem_noted {versions : K → List File} {file : Option File} {id : K} {old : File}
    (h : old ∈ versions id) : old ∈ noted versions k file id := by
  rcases eq_or_ne id k with rfl | hne
  · rw [noted, Function.update_self]
    exact List.mem_append_right _ h
  · rwa [noted, Function.update_of_ne hne]

theorem mem_noted_self {versions : K → List File} {file : Option File} {new : File}
    (h : new ∈ file) : new ∈ noted versions k file k := by
  rw [noted, Function.update_self]
  exact List.mem_append_left _ (Option.mem_toList.mpr h)

theorem get_change (s : System P K) (k : K) (file : Option File) (id : K) :
    Dict.get (s.change k file).source id = if id = k then file else Dict.get s.source id := by
  cases file with
  | none => exact Dict.get_pop
  | some file => exact Dict.get_set

/-! ### The surroundings -/

theorem Sound.tick (hs : s.Sound) (mono wall : ℕ) :
    System.Sound { s with mono := s.mono + mono, wall := s.wall + wall } := by
  have hnow : s.now ≤ (s.mono + mono, s.wall + wall) :=
    ⟨Nat.le_add_right _ _, Nat.le_add_right _ _⟩
  obtain ⟨told, source, mirror, changed, marker, agree⟩ := hs.files
  exact ⟨⟨told, source, mirror, fun k => (changed k).trans hnow,
    fun mtime hmtime => (marker mtime hmtime).trans hnow.2, agree⟩, hs.alone,
    fun p => (hs.process p).later rfl hnow rfl rfl rfl (fun _ _ h => h) rfl rfl⟩

theorem Sound.mark (hs : s.Sound) : System.Sound { s with marker := some s.wall } := by
  obtain ⟨told, source, mirror, changed, -, agree⟩ := hs.files
  refine ⟨⟨told, source, mirror, changed, fun mtime hmtime => ?_, agree⟩, hs.alone,
    fun p => (hs.process p).later rfl le_rfl rfl rfl rfl (fun _ _ h => h) rfl rfl⟩
  exact (Option.some.inj hmtime).ge

/-- A change of the source, which no process has seen yet. -/
theorem Sound.change {file : Option File} (hs : s.Sound) (hok : ∀ new ∈ file, s.Told k new) :
    (s.change k file).Sound := by
  have hchanged : ∀ id, (s.change k file).changed id = if id = k then s.now else s.changed id :=
    fun id => Function.update_apply ..
  have htouched : ∀ id, (s.change k file).touched id = if id = k then true else s.touched id :=
    fun id => Function.update_apply ..
  have hseen : ∀ p id, (s.change k file).seen p id = if id = k then false else s.seen p id :=
    fun p id => Function.update_apply ..
  obtain ⟨told, source, mirror, changed, marker, agree⟩ := hs.files
  refine ⟨⟨told_noted told hok, ?_, fun id old hold => mem_noted (mirror id old hold), ?_, marker,
    ?_⟩, hs.alone, ?_⟩
  · intro id new hnew
    rw [get_change] at hnew
    split_ifs at hnew with hid
    · rw [hid]
      exact mem_noted_self hnew
    · exact mem_noted (source id new hnew)
  · intro id
    rw [hchanged]
    split_ifs
    · exact le_rfl
    · exact changed id
  · intro p id hid
    rw [hseen] at hid
    split_ifs at hid with hne
    rw [get_change, if_neg hne]
    exact agree p id hid
  · intro p
    have hp := hs.process p
    refine ⟨hp.checked, hp.look, ?_, ?_, ?_, ?_⟩
    · intro hpass hwhole id hid
      rw [hseen] at hid
      rw [hchanged]
      split_ifs at hid ⊢
      · exact hp.checked
      · exact hp.unseen hpass hwhole id hid
    · intro look expected hpass
      obtain ⟨hwalk, hsame⟩ := hp.walk look expected hpass
      have hlook : look.Before s.now := hp.look look (look_of_pass hpass)
      refine ⟨fun id hid => ?_, fun id hmem hid => ?_⟩
      · rw [htouched] at hid
        simp only [hchanged, hseen]
        split_ifs at hid ⊢
        · exact ⟨hp.checked, hlook, fun _ => rfl⟩
        · exact hwalk id hid
      · rw [htouched] at hid
        split_ifs at hid with hne
        rw [get_change, if_neg hne]
        exact hsame id hmem hid
    · intro look expected id hpc q
      rw [hseen]
      split_ifs
      · rfl
      · exact hp.copy look expected id hpc q
    · intro look hpc hwhole id hfinds
      rw [hchanged] at hfinds
      rw [hseen]
      split_ifs at hfinds ⊢
      · -- the change is later than the look
        exact absurd hfinds (not_finds (hp.look look (congrArg Pc.look hpc)))
      · exact hp.compiles look hpc hwhole id hfinds

/-! ### A process -/

variable [DecidableEq P]

omit [DecidableEq K] in
@[simp]
theorem process_goto (s : System P K) (p : P) (pc : Pc K) (q : P) : (s.goto p pc).process q =
    if q = p then { s.process p with pc := pc } else s.process q :=
  Function.update_apply ..

omit [DecidableEq P] in
/-- A process goes on while it has the lock, or gives it back. -/
theorem Sound.act (hs : s.Sound) (hothers : ∀ q, q ≠ p → (s.process q).pc = .idle)
    (hprocess : ∀ q, q ≠ p → t.process q = s.process q) (hfiles : t.Files)
    (hholder : (t.process p).pc = .idle ∨ t.holder = some p) (hnow : t.now = s.now)
    (hchanged : t.changed = s.changed) (hseen : ∀ q, q ≠ p → t.seen q = s.seen q)
    (hfits : t.Fits p) : t.Sound := by
  refine ⟨hfiles, fun q hq => ?_, fun q => ?_⟩
  · rcases eq_or_ne q p with rfl | hne
    · exact hholder.resolve_left hq
    · rw [hprocess q hne] at hq
      exact absurd (hothers q hne) hq
  · rcases eq_or_ne q p with rfl | hne
    · exact hfits
    · exact (hs.process q).of_idle (hothers q hne) (hprocess q hne) hnow.ge hchanged (hseen q hne)

theorem Sound.goto {pc : Pc K} (hs : s.Sound) (hholder : s.holder = some p ∨ pc = .idle)
    (hothers : ∀ q, q ≠ p → (s.process q).pc = .idle)
    (hfits : (s.goto p pc).Fits p) : (s.goto p pc).Sound := by
  have hprocess := process_goto s p pc
  refine hs.act hothers (fun q hne => by rw [hprocess, if_neg hne])
    ⟨hs.files.told, hs.files.source, hs.files.mirror, hs.files.changed, hs.files.marker,
      hs.files.agree⟩ ?_ rfl rfl (fun _ _ => rfl) hfits
  rw [hprocess, if_pos rfl]
  exact hholder.symm

omit [DecidableEq P] in
/-- Where no process is in a compile, the lock may be anyone's. -/
theorem Sound.setHolder (hs : s.Sound) (hidle : ∀ q, (s.process q).pc = .idle)
    (holder : Option P) : System.Sound { s with holder := holder } :=
  ⟨⟨hs.files.told, hs.files.source, hs.files.mirror, hs.files.changed, hs.files.marker,
    hs.files.agree⟩, fun q hq => absurd (hidle q) hq,
    fun q => (hs.process q).later rfl le_rfl rfl rfl rfl (fun _ _ h => h) rfl rfl⟩

/-- A process that goes on between passes. -/
theorem Fits.goto {pc : Pc K} (h : s.Fits p) (hfrom : (s.process p).pc.pass = none)
    (hpass : pc.pass = none) (hlook : ∀ look ∈ pc.look, look.Before s.now)
    (hcompiles : ∀ look, pc = .compiling look → (s.process p).Whole →
      ∀ k, look.Finds (s.changed k) → s.seen p k = true) : (s.goto p pc).Fits p := by
  have hprocess : (s.goto p pc).process p = { s.process p with pc := pc } := by
    rw [process_goto, if_pos rfl]
  refine ⟨?_, ?_, ?_, ?_, ?_, ?_⟩ <;> rw [hprocess]
  · exact h.checked
  · exact hlook
  · exact fun _ => h.unseen hfrom
  · intro look expected hwalk
    cases hpass.symm.trans hwalk
  · rintro look expected k rfl
    cases hpass
  · exact hcompiles

theorem Sound.acquire (hs : s.Sound) (hholder : s.holder = none)
    (hidle : (s.process p).pc = .idle) :
    (System.goto { s with holder := some p } p .locked).Sound := by
  have hall : ∀ q, (s.process q).pc = .idle := by
    intro q
    by_contra hq
    cases hholder.symm.trans (hs.alone q hq)
  have hs' := hs.setHolder hall (some p)
  refine hs'.goto (Or.inl rfl) (fun q _ => hall q) ?_
  exact (hs'.process p).goto (by simp [hidle, Pc.pass]) rfl (by simp [Pc.look]) (by simp)

theorem Sound.release (hs : s.Sound) (hpc : (s.process p).pc = .compiling look) :
    (System.goto { s with holder := none } p .idle).Sound := by
  have hothers : ∀ q, q ≠ p → (s.process q).pc = .idle :=
    fun q hne => hs.idle_of_ne (by simp [hpc]) hne
  have hgone : (s.goto p .idle).Sound := hs.goto (Or.inr rfl) hothers
    ((hs.process p).goto (by simp [hpc, Pc.pass]) rfl (by simp [Pc.look]) (by simp))
  refine hgone.setHolder (fun q => ?_) none
  rw [process_goto]
  split_ifs with hqp
  · rfl
  · exact hothers q hqp

/-- A process looks. What it is to find, it has seen, or else it goes on to a pass. -/
theorem Sound.lookUp (hs : s.Sound) (hpc : (s.process p).pc = .locked) :
    (s.goto p (s.looked p)).Sound := by
  have hbusy : (s.process p).pc ≠ .idle := by simp [hpc]
  have hbefore : (Look.mk s.mono s.marker).Before s.now := ⟨le_rfl, hs.files.marker⟩
  have hpass : (s.process p).pc.pass = none := by simp [hpc, Pc.pass]
  refine hs.goto (Or.inl (hs.alone p hbusy)) (fun q hne => hs.idle_of_ne hbusy hne) ?_
  unfold looked
  split
  next => exact (hs.process p).goto hpass rfl (by simpa [Pc.look] using hbefore) (by simp)
  next hshared =>
    refine (hs.process p).goto hpass rfl (by simpa [Pc.look] using hbefore) ?_
    rintro look - ⟨hmirror, -⟩
    cases hshared.symm.trans hmirror
  next =>
    split_ifs with hdue
    · exact (hs.process p).goto hpass rfl (by simpa [Pc.look] using hbefore) (by simp)
    · refine (hs.process p).goto hpass rfl (by simpa [Pc.look] using hbefore) ?_
      intro look hlook hwhole k hfinds
      obtain rfl := Pc.compiling.inj hlook
      by_contra hseen
      -- the change would be one after the last check
      obtain ⟨hmono, hwall⟩ := (hs.process p).unseen hpass hwhole k (by simpa using hseen)
      simp only [due, includesChanged, Bool.or_eq_true, Bool.not_eq_true', decide_eq_false_iff_not,
        not_or, not_not, Option.any_eq_true, decide_eq_true_eq, not_exists, not_and] at hdue
      obtain ⟨hrecent, hunmarked⟩ := hdue
      rcases hfinds with hold | ⟨mtime, hmtime, hlt⟩
      · have hle : (s.process p).checkedAt ≤ (s.changed k).1 := hmono
        have hlate : (s.changed k).1 + includeRefreshSeconds ≤ s.mono := hold
        omega
      · have hle : (s.process p).checkedWall ≤ (s.changed k).2 := hwall
        exact hunmarked mtime hmtime (hle.trans_lt hlt)

/-! ### A pass -/

/-- The pass begins. -/
theorem Sound.check (hs : s.Sound) (hpc : (s.process p).pc = .checking look) :
    (s.check p look).Sound := by
  have hbusy : (s.process p).pc ≠ .idle := by simp [hpc]
  have hprocess : ∀ q, (s.check p look).process q = if q = p then
      { s.process p with checkedAt := s.mono, checkedWall := s.wall, pc := .walking look [] }
        else s.process q := fun q => Function.update_apply ..
  refine hs.act (fun q hne => hs.idle_of_ne hbusy hne) (fun q hne => by rw [hprocess, if_neg hne])
    ⟨hs.files.told, hs.files.source, hs.files.mirror, hs.files.changed, hs.files.marker,
      hs.files.agree⟩ (Or.inr (hs.alone p hbusy)) rfl rfl (fun _ _ => rfl) ?_
  have hself := hprocess p
  rw [if_pos rfl] at hself
  refine ⟨?_, ?_, ?_, ?_, ?_, ?_⟩ <;> rw [hself]
  · exact le_rfl
  · intro look' hlook'
    obtain rfl := Option.some.inj hlook'
    exact (hs.process p).look look (congrArg Pc.look hpc)
  · simp [Pc.pass]
  · intro look' expected hpass
    obtain ⟨rfl, rfl⟩ := Prod.mk.inj (Option.some.inj hpass)
    exact ⟨fun k hk => absurd hk Bool.false_ne_true, fun k hk => absurd hk List.not_mem_nil⟩
  · simp
  · simp

omit [DecidableEq P] in
/-- The pass goes on from file to file. -/
theorem Fits.pass {pc : Pc K} {expected expected' : List K} (h : s.Fits p)
    (hfrom : (s.process p).pc.pass = some (look, expected))
    (hpass : pc.pass = some (look, expected'))
    (hprocess : t.process p = { s.process p with pc := pc }) (hnow : t.now = s.now)
    (hchanged : t.changed = s.changed) (htouched : t.touched = s.touched) (hseen : t.seen = s.seen)
    (hsame : ∀ k ∈ expected', s.touched k = false →
      (k ∈ expected → Dict.get s.mirror k = Dict.get s.source k) →
        Dict.get t.mirror k = Dict.get t.source k)
    (hcopy : ∀ look expected k, pc = .copying look expected k → ∀ q, s.seen q k = false) :
    t.Fits p := by
  obtain ⟨hwalk, hold⟩ := h.walk look expected hfrom
  refine ⟨?_, ?_, ?_, ?_, ?_, ?_⟩ <;> rw [hprocess]
  · exact hnow ▸ h.checked
  · intro look' hlook'
    obtain rfl := Option.some.inj (hlook'.symm.trans (look_of_pass hpass))
    exact hnow ▸ h.look look' (look_of_pass hfrom)
  · intro hnone
    cases hnone.symm.trans hpass
  · intro look' expected'' hgiven
    obtain ⟨rfl, rfl⟩ := Prod.mk.inj (Option.some.inj (hgiven.symm.trans hpass))
    refine ⟨?_, fun k hk hnot => ?_⟩
    · rw [hprocess, htouched, hchanged, hseen]
      exact hwalk
    · rw [htouched] at hnot
      exact hsame k hk hnot fun hmem => hold k hmem hnot
  · rw [hseen]
    exact hcopy
  · rintro look' rfl
    cases hpass

/-- A file of the source is current in the mirror, or else no process has seen it. -/
theorem Sound.visit {expected : List K} (hs : s.Sound)
    (hpc : (s.process p).pc = .walking look expected) (hfile : Dict.get s.source k = some file) :
    (s.visit p look expected k file).Sound := by
  have hbusy : (s.process p).pc ≠ .idle := by simp [hpc]
  have hfrom : (s.process p).pc.pass = some (look, expected) := by simp [hpc, Pc.pass]
  have hothers : ∀ q, q ≠ p → (s.process q).pc = .idle := fun q hne => hs.idle_of_ne hbusy hne
  rw [System.visit]
  split_ifs with hcurrent
  · obtain ⟨old, hold, hsame⟩ := (Option.any_eq_true _ _).mp hcurrent
    have heq : old = file := hs.files.told k file (hs.files.source k file hfile) old
      (hs.files.mirror k old hold) hsame
    refine hs.goto (Or.inl (hs.alone p hbusy)) hothers ((hs.process p).pass hfrom rfl
      (by rw [process_goto, if_pos rfl]) rfl rfl rfl rfl (fun id hid _ hmem => ?_) (by simp))
    rcases List.mem_cons.mp hid with rfl | hid
    · exact (heq ▸ hold).trans hfile.symm
    · exact hmem hid
  · refine hs.goto (Or.inl (hs.alone p hbusy)) hothers ((hs.process p).pass hfrom rfl
      (by rw [process_goto, if_pos rfl]) rfl rfl rfl rfl (fun id hid _ hmem => hmem hid) ?_)
    intro look' expected' id hcopying q
    obtain ⟨-, -, rfl⟩ := Pc.copying.inj hcopying
    -- what a process has seen is in the mirror, and current
    by_contra hseen
    have hmirror := hs.files.agree q k (by simpa using hseen)
    rw [hmirror, hfile] at hcurrent
    exact hcurrent (isCurrent_self file)

omit [DecidableEq P] in
/-- A path that no process has seen is given a file. -/
theorem Files.put (h : s.Files) (hok : s.Told k file) (hseen : ∀ q, s.seen q k = false) :
    (s.put k file).Files := by
  have hget : ∀ id, Dict.get (s.put k file).mirror id =
      if id = k then some file else Dict.get s.mirror id := fun id => Dict.get_set
  refine ⟨told_noted h.told fun new hnew => ?_, fun id old hold => mem_noted (h.source id old hold),
    ?_, h.changed, h.marker, ?_⟩
  · obtain rfl := Option.some.inj hnew
    exact hok
  · intro id old hold
    rw [hget] at hold
    split_ifs at hold with hid
    · rw [hid]
      exact mem_noted_self hold
    · exact mem_noted (h.mirror id old hold)
  · intro q id hid
    have hne : id ≠ k := by
      rintro rfl
      exact Bool.false_ne_true ((hseen q).symm.trans hid)
    rw [hget, if_neg hne]
    exact h.agree q id hid

/-- A file is copied. -/
theorem Sound.copied {expected : List K} {content : List UInt8} (hs : s.Sound)
    (hpc : (s.process p).pc = .copying look expected k) (hfile : Dict.get s.source k = some file)
    (hcontent : s.touched k = true ∨ content = file.content)
    (hok : s.Told k ⟨content, file.second⟩) :
    ((s.put k ⟨content, file.second⟩).goto p (.walking look (k :: expected))).Sound := by
  have hbusy : (s.process p).pc ≠ .idle := by simp [hpc]
  have hfrom : (s.process p).pc.pass = some (look, expected) := by simp [hpc, Pc.pass]
  have hprocess := process_goto (s.put k ⟨content, file.second⟩) p (.walking look (k :: expected))
  have hfiles := hs.files.put hok ((hs.process p).copy look expected k hpc)
  refine hs.act (fun q hne => hs.idle_of_ne hbusy hne)
    (fun q hne => by rw [hprocess, if_neg hne]; rfl)
    ⟨hfiles.told, hfiles.source, hfiles.mirror, hfiles.changed, hfiles.marker, hfiles.agree⟩
    (Or.inr (hs.alone p hbusy)) rfl rfl (fun _ _ => rfl)
    ((hs.process p).pass hfrom rfl (by rw [hprocess, if_pos rfl]; rfl) rfl rfl rfl rfl ?_ (by simp))
  intro id hid hnot hmem
  have hget : Dict.get (Dict.set s.mirror k ⟨content, file.second⟩) id =
      if id = k then some ⟨content, file.second⟩ else Dict.get s.mirror id := Dict.get_set
  change Dict.get (Dict.set s.mirror k ⟨content, file.second⟩) id = Dict.get s.source id
  rw [hget]
  split_ifs with hidk
  · subst hidk
    obtain rfl := hcontent.resolve_left (by simp [hnot])
    exact hfile.symm
  · exact hmem ((List.mem_cons.mp hid).resolve_left hidk)

omit [DecidableEq P] in
theorem get_pruned (s : System P K) (expected kept : List K) (k : K) :
    Dict.get (s.pruned expected kept) k =
      if expected = [] ∨ k ∈ expected ∨ k ∈ kept then Dict.get s.mirror k else none := by
  rw [pruned]
  by_cases hnil : expected = []
  · rw [if_pos hnil, if_pos (Or.inl hnil)]
  · rw [if_neg hnil, Dict.get_filter_key (p := fun id => id ∈ expected || id ∈ kept)]
    simp [hnil]

omit [DecidableEq P] in
/-- A file that has been in the source since the pass began has been visited. -/
theorem mem_of_walked {expected : List K} (h : s.walked expected = true)
    (hfile : Dict.get s.source k = some file) (hnot : s.touched k = false) : k ∈ expected := by
  have hitem := List.all_eq_true.mp h _ (Dict.mem_of_get hfile)
  simpa [hnot] using hitem

theorem seen_finish (s : System P K) (p : P) (look : Look) (expected kept : List K) (editor : Bool)
    (q : P) : (s.finish p look expected kept editor).seen q =
      if q = p ∧ expected ≠ [] ∧ kept = [] then fun k => !s.touched k else s.seen q := by
  change (if (expected = [] || kept ≠ []) = true then s.seen
    else Function.update s.seen p fun k => !s.touched k) q = _
  by_cases hnil : expected = [] <;> by_cases hkept : kept = [] <;>
    simp [hnil, hkept, Function.update_apply]

/-- The pass ends. Where it did all it was to do, every path is seen that has not changed since it
began. -/
theorem Sound.finish {expected : List K} (hs : s.Sound)
    (hpc : (s.process p).pc = .walking look expected) (hwalked : s.walked expected = true)
    (kept : List K) (editor : Bool) : (s.finish p look expected kept editor).Sound := by
  have hbusy : (s.process p).pc ≠ .idle := by simp [hpc]
  obtain ⟨hwalk, hsame⟩ := (hs.process p).walk look expected (by simp [hpc, Pc.pass])
  -- pruning takes nothing that the source has had since the pass began
  have hpruned : ∀ id, s.touched id = false → Dict.get s.mirror id = Dict.get s.source id →
      Dict.get (s.pruned expected kept) id = Dict.get s.source id := by
    intro id hnot hid
    rw [get_pruned]
    split_ifs with hleft
    · exact hid
    · rcases hfile : Dict.get s.source id with _ | file
      · rfl
      · exact absurd (Or.inr (Or.inl (mem_of_walked hwalked hfile hnot))) hleft
  have hall : expected ≠ [] → kept = [] → ∀ id, s.touched id = false →
      Dict.get (s.pruned expected kept) id = Dict.get s.source id := by
    rintro hne rfl id hnot
    by_cases hmem : id ∈ expected
    · exact hpruned id hnot (hsame id hmem hnot)
    · rw [get_pruned, if_neg (by simp [hne, hmem])]
      rcases hfile : Dict.get s.source id with _ | file
      · rfl
      · exact absurd (mem_of_walked hwalked hfile hnot) hmem
  have hagree : ∀ q id, s.seen q id = true →
      Dict.get (s.pruned expected kept) id = Dict.get s.source id := by
    intro q id hseen
    refine hpruned id ?_ (hs.files.agree q id hseen)
    by_contra htouched
    rw [(hwalk id (by simpa using htouched)).2.2 q] at hseen
    cases hseen
  have hseen : ∀ q id, (s.finish p look expected kept editor).seen q id = true →
      Dict.get (s.pruned expected kept) id = Dict.get s.source id := by
    intro q id hid
    rw [seen_finish] at hid
    split_ifs at hid with hwhole
    · exact hall hwhole.2.1 hwhole.2.2 id (by simpa using hid)
    · exact hagree q id hid
  obtain ⟨told, source, mirror, changed, marker, -⟩ := hs.files
  have hmirror : ∀ id old, Dict.get (s.pruned expected kept) id = some old →
      old ∈ s.versions id := by
    intro id old hold
    rw [get_pruned] at hold
    split_ifs at hold
    exact mirror id old hold
  have hprocess : (s.finish p look expected kept editor).process p = { s.process p with
      toolchain := if (s.process p).toolchain = .unresolved && !editor then .shared else .mirror
      pc := .compiling look
      short := expected = [] || kept ≠ [] } := Function.update_self ..
  refine hs.act (fun q hne => hs.idle_of_ne hbusy hne) (fun q hne => Function.update_of_ne hne ..)
    ⟨told, source, hmirror, changed, marker, hseen⟩ (Or.inr (hs.alone p hbusy)) rfl rfl
    (fun q hne => by rw [seen_finish, if_neg (by simp [hne])]) ?_
  · have hself : (expected = [] || kept ≠ []) = false →
        (s.finish p look expected kept editor).seen p = fun k => !s.touched k := by
      intro hshort
      rw [seen_finish, if_pos (by simpa using hshort)]
    refine ⟨?_, ?_, ?_, ?_, ?_, ?_⟩ <;> rw [hprocess]
    · exact (hs.process p).checked
    · intro look' hlook'
      obtain rfl := Option.some.inj hlook'
      exact (hs.process p).look look (by rw [hpc]; rfl)
    · rintro - ⟨-, hshort⟩ k hk
      rw [hself hshort] at hk
      exact (hwalk k (by simpa using hk)).1
    · simp [Pc.pass]
    · simp
    · rintro look' hlook' ⟨-, hshort⟩ k hfinds
      obtain rfl := Pc.compiling.inj hlook'
      rw [hself hshort]
      by_contra htouched
      exact not_finds (hwalk k (by simpa using htouched)).2.1 hfinds

omit [DecidableEq P] in
/-- Without a copy there is nothing to break off. -/
theorem tear_eq (torn : Option File)
    (h : ∀ look expected k, (s.process p).pc ≠ .copying look expected k) : s.tear p torn = s := by
  unfold System.tear
  split
  next look expected k file hpc => exact absurd hpc (h look expected k)
  next => rfl

omit [DecidableEq P] in
/-- A copy that is broken off leaves what is seen of the mirror as it is. -/
theorem Sound.tear {torn : Option File} (hs : s.Sound) (hok : s.Ok (.fail p torn)) :
    ∃ mirror versions, s.tear p torn = { s with mirror := mirror, versions := versions } ∧
      System.Files { s with mirror := mirror, versions := versions } := by
  unfold System.tear
  split
  next look expected k file hpc =>
    refine ⟨_, _, rfl, hs.files.put (hok k file ?_) ((hs.process p).copy look expected k hpc)⟩
    rw [written, hpc]
    rfl
  next => exact ⟨_, _, rfl, hs.files⟩

/-- The pass raises, and a compile after it is not one from a whole mirror. -/
theorem Sound.fail {torn : Option File} {expected : List K} (hs : s.Sound)
    (hpass : (s.process p).pc.pass = some (look, expected)) (hok : s.Ok (.fail p torn)) :
    ((s.tear p torn).fail p look).Sound := by
  have hbusy : (s.process p).pc ≠ .idle := by
    intro hidle
    rw [hidle] at hpass
    cases hpass
  obtain ⟨mirror, versions, htear, hfiles⟩ := hs.tear hok
  rw [htear]
  have hself : (System.fail { s with mirror := mirror, versions := versions } p look).process p =
      { s.process p with
        toolchain := if (s.process p).toolchain = .unresolved then .shared else .mirror
        pc := .compiling look
        short := true } := Function.update_self ..
  refine hs.act (fun q hne => hs.idle_of_ne hbusy hne) (fun q hne => Function.update_of_ne hne ..)
    ⟨hfiles.told, hfiles.source, hfiles.mirror, hfiles.changed, hfiles.marker, hfiles.agree⟩
    (Or.inr (hs.alone p hbusy)) rfl rfl (fun _ _ => rfl) ?_
  refine ⟨?_, ?_, ?_, ?_, ?_, ?_⟩ <;> rw [hself]
  · exact (hs.process p).checked
  · intro look' hlook'
    obtain rfl := Option.some.inj hlook'
    exact (hs.process p).look look (look_of_pass hpass)
  · rintro - ⟨-, hshort⟩
    cases hshort
  · simp [Pc.pass]
  · simp
  · rintro look' - ⟨-, hshort⟩
    cases hshort

/-- A new process has seen nothing. -/
theorem Sound.restart {torn : Option File} (hs : s.Sound) (hok : s.Ok (.fail p torn)) :
    ((s.tear p torn).restart p).Sound := by
  obtain ⟨mirror, versions, htear, told, source, hmirror, changed, marker, agree⟩ := hs.tear hok
  have hprocess : ∀ q, ((s.tear p torn).restart p).process q =
      if q = p then .new else s.process q := by
    rw [htear]
    exact fun q => Function.update_apply ..
  have hseen : ∀ q, ((s.tear p torn).restart p).seen q =
      if q = p then fun _ => false else s.seen q := by
    rw [htear]
    exact fun q => Function.update_apply ..
  have hholder : ((s.tear p torn).restart p).holder =
      if s.holder = some p then none else s.holder := by
    rw [htear]
    rfl
  refine ⟨?_, fun q hq => ?_, fun q => ?_⟩
  · rw [htear] at hseen ⊢
    refine ⟨told, source, hmirror, changed, marker, fun q id hid => ?_⟩
    rw [hseen] at hid
    split_ifs at hid
    exact agree q id hid
  · rw [hprocess] at hq
    split_ifs at hq with hqp
    · exact absurd rfl hq
    · rw [hholder, hs.alone q hq, if_neg (by simpa using hqp)]
  · rcases eq_or_ne q p with rfl | hqp
    · refine fits_idle ?_ ?_ ?_ <;> rw [hprocess, if_pos rfl]
      · rfl
      · exact ⟨Nat.zero_le _, Nat.zero_le _⟩
      · rintro ⟨hmirror, -⟩
        cases hmirror
    · have hsame : ((s.tear p torn).restart p).process q = s.process q := by
        rw [hprocess, if_neg hqp]
      have hseenq : ((s.tear p torn).restart p).seen q = s.seen q := by
        rw [hseen, if_neg hqp]
      by_cases hidle : (s.process p).pc = .idle
      · -- the process has nothing to leave behind
        rw [tear_eq torn (by simp [hidle])] at hsame hseen hseenq ⊢
        refine (hs.process q).later hsame le_rfl rfl rfl hseenq (fun q' id hid => ?_) rfl rfl
        rw [hseen]
        split_ifs
        · rfl
        · exact hid
      · rw [htear] at hsame hseenq ⊢
        exact (hs.process q).of_idle (hs.idle_of_ne hidle hqp) hsame le_rfl rfl hseenq

/-! ## Runs -/

omit [DecidableEq P] in
theorem Start.sound (h : s.Start) : s.Sound := by
  refine ⟨⟨h.told, h.source, h.mirror, h.changed, h.marker, fun p k hk => ?_⟩, fun p hp => ?_,
    fun p => ?_⟩
  · cases (h.seen p k).symm.trans hk
  · exact absurd (by rw [h.process]; rfl) hp
  · refine fits_idle ?_ ?_ ?_ <;> rw [h.process]
    · rfl
    · exact ⟨Nat.zero_le _, Nat.zero_le _⟩
    · rintro ⟨hmirror, -⟩
      cases hmirror

theorem Sound.step {l : Label P K} (hs : s.Sound) (hok : s.Ok l) (hstep : s.step l = some t) :
    t.Sound := by
  cases l with
  | tick mono wall => exact Option.some.inj hstep ▸ hs.tick mono wall
  | mark => exact Option.some.inj hstep ▸ hs.mark
  | change k file =>
    refine Option.some.inj hstep ▸ hs.change fun new hnew => hok k new ?_
    rw [written, Option.mem_def.mp hnew]
    rfl
  | acquire p =>
    obtain ⟨⟨hholder, hidle⟩, hstep⟩ := Option.ite_none_right_eq_some.mp hstep
    exact Option.some.inj hstep ▸ hs.acquire hholder hidle
  | look p =>
    obtain ⟨hpc, hstep⟩ := Option.ite_none_right_eq_some.mp hstep
    exact Option.some.inj hstep ▸ hs.lookUp hpc
  | check p =>
    rw [System.step] at hstep
    split at hstep
    next look hpc => exact Option.some.inj hstep ▸ hs.check hpc
    next => cases hstep
  | visit p k =>
    rw [System.step] at hstep
    split at hstep
    next look expected file hpc hfile => exact Option.some.inj hstep ▸ hs.visit hpc hfile
    next => cases hstep
  | copied p content =>
    rw [System.step] at hstep
    split at hstep
    next look expected k hpc =>
      split at hstep
      next file hfile =>
        obtain ⟨hcontent, hstep⟩ := Option.ite_none_right_eq_some.mp hstep
        exact Option.some.inj hstep ▸ hs.copied hpc hfile (by simpa using hcontent)
          (hok k _ (by simp [written, hpc, hfile]))
      next => cases hstep
    next => cases hstep
  | finish p kept editor =>
    rw [System.step] at hstep
    split at hstep
    next look expected hpc =>
      obtain ⟨hwalked, hstep⟩ := Option.ite_none_right_eq_some.mp hstep
      exact Option.some.inj hstep ▸ hs.finish hpc hwalked kept editor
    next => cases hstep
  | fail p torn =>
    rw [System.step] at hstep
    split at hstep
    next look expected hpc =>
      have hfail := hs.fail (by rw [hpc]; rfl) hok
      rw [tear_eq torn (by simp [hpc])] at hfail
      exact Option.some.inj hstep ▸ hfail
    next look expected k hpc => exact Option.some.inj hstep ▸ hs.fail (by rw [hpc]; rfl) hok
    next => cases hstep
  | release p =>
    rw [System.step] at hstep
    split at hstep
    next look hpc => exact Option.some.inj hstep ▸ hs.release hpc
    next => cases hstep
  | restart p torn => exact Option.some.inj hstep ▸ hs.restart hok

theorem sound (hstart : s.Start) (hrun : RunOf System.step System.Ok s t) : t.Sound :=
  hrun.invariant (fun _ _ _ hs hok hstep => hs.step hok hstep) hstart.sound

/-- The check of the condition on a step. -/
def okCheck (s : System P K) (l : Label P K) : Bool :=
  (s.written l).all fun new =>
    (s.versions new.1).all fun old => !isCurrent new.2 old || old = new.2

omit [DecidableEq P] in
theorem ok_of_okCheck {l : Label P K} (h : s.okCheck l = true) : s.Ok l := by
  intro k file hwritten old hold hcurrent
  have hcheck := List.all_eq_true.mp ((Option.all_eq_true _ _).mp h _ hwritten) old hold
  simpa [hcurrent] using hcheck

/-- Before the first file is written. -/
def empty : System Bool Bool :=
  ⟨[], [], none, 100, 1000, none, fun _ => .new, fun _ => (0, 0), fun _ => [], fun _ => false,
    fun _ _ => false⟩

end System

end Compile.Refresh

import Mt5HttpApi.Symbols.Import

/-!
# What the symbol cache is trusted for

A sequential run of saves and imports in one cache file, and the passing of time. What `load`
returns is the last full book that was written, with the names of the partial imports since, and
that book is at most `MAX_AGE_SECONDS` old (`load_trusted`).
-/

namespace Symbols.Trusted

open Json Transition

/-- A write that succeeded. -/
structure Written where
  /-- The names that the caller gave. -/
  names : List Name
  /-- They were a full book. -/
  book : Bool
  time : ℤ

/-- The cache file, the time, and the writes until now, newest first. -/
structure State where
  file : File
  now : ℤ
  log : List Written

/-- What happens. -/
inductive Event
  /-- `GET /symbols`: `save` of all symbols of the broker. -/
  | saved (names : List Name) (writes : Bool)
  /-- `POST /symbols/import`: `merge`, and how many seconds pass between its read and its write. -/
  | imported (names : List Name) (complete opens : Bool) (took : ℕ) (writes : Bool)
  | wait (seconds : ℕ)

/-- No full book is written. -/
def Event.Partial : Event → Prop
  | .saved _ _ => False
  | .imported _ complete _ _ _ => complete = false
  | .wait _ => True

/-- A `save` of names that the caller gave. -/
def State.store (s : State) (names : List Name) (book : Bool) (merged : Merged) (took : ℕ)
    (writes : Bool) : State :=
  let now := s.now + took
  let result := save merged now writes s.file
  { file := result.2, now := now,
    log := if result.1 then ⟨names, book, now⟩ :: s.log else s.log }

/-- One step. -/
def step (rendering : Rendering) (limit : ℤ) (s : State) : Event → Option State
  | .saved names writes => some (s.store names true ⟨names, true, none⟩ 0 writes)
  | .imported names complete opens took writes =>
    let current := readCache rendering limit s.now opens s.file
    some (s.store names complete (merge names complete current) took writes)
  | .wait seconds => some { s with now := s.now + seconds }

/-- There is no cache yet. -/
def start (now : ℤ) : State := ⟨.absent, now, []⟩

/-- The names are those of a full book and of the partial imports after it. -/
structure Backed (log : List Written) (stamp : ℤ) (symbols : List Name) (book : Written)
    (later earlier : List Written) : Prop where
  log_eq : log = later ++ book :: earlier
  full : book.book = true
  partials : ∀ written ∈ later, written.book = false
  time_eq : book.time = stamp
  mem_iff : ∀ name, name ∈ symbols ↔
    name ≠ [] ∧ (name ∈ book.names ∨ ∃ written ∈ later, name ∈ written.names)

variable {rendering : Rendering} {limit now : ℤ} {opens : Bool} {file : File} {cache : Cache}
  {s s' : State} {event : Event}

/-! ## What a file holds -/

/-- What is read is what the file holds, and it is not too old. -/
theorem contents_of_readCache (h : readCache rendering limit now opens file = some cache) :
    file.contents rendering = some cache ∧ now - cache.updated ≤ limit := by
  cases file with
  | absent | broken => cases h
  | json value =>
    rw [readCache] at h
    split at h
    next =>
      rw [File.contents, readCache, if_pos rfl]
      cases value with
      | obj fields =>
        simp only [readPayload] at h ⊢
        -- the same lookups, and no stamp that is valid is too old at the time 0
        split at h
        next updated hupdated =>
          split at h
          next => cases h
          next hpos =>
            split at h
            next => cases h
            next hfresh =>
              split at h
              next first rest hsymbols =>
                obtain rfl := Option.some.inj h
                have hage : ¬ (0 : ℤ) < 0 - updated := by omega
                rw [if_neg hpos, if_neg hage]
                exact ⟨rfl, not_lt.mp hfresh⟩
              next => cases h
        next => cases h
      | _ => cases h
    next => cases h

/-- What a written file holds is what was written. -/
theorem contents_payload {merged : Merged}
    (h : (File.json (merged.payload now)).contents rendering = some cache)
    (hnames : sortedNames merged.names ≠ []) :
    cache = ⟨sortedNames merged.names, merged.complete, merged.updated.getD now⟩ := by
  by_cases hstamp : 0 < merged.updated.getD now
  · rw [contents_save hnames hstamp] at h
    exact (Option.some.inj h).symm
  · -- a stamp that is not valid is not read
    rw [File.contents, readCache, if_pos rfl, Merged.payload, payload, readPayload] at h
    change (if merged.updated.getD now ≤ 0 then none else _) = _ at h
    rw [if_pos (not_lt.mp hstamp)] at h
    cases h

/-! ## What a step does -/

/-- A `save` leaves the file and the log as they are, or writes the names and logs them. -/
theorem store_cases (s : State) (names : List Name) (book : Bool) (merged : Merged) (took : ℕ)
    (writes : Bool) :
    ((s.store names book merged took writes).file = s.file ∧
      (s.store names book merged took writes).log = s.log) ∨
    sortedNames merged.names ≠ [] ∧ s.store names book merged took writes =
      ⟨.json (merged.payload (s.now + took)), s.now + took,
        ⟨names, book, s.now + took⟩ :: s.log⟩ := by
  rw [State.store]
  rcases save_cases merged (s.now + took) writes s.file with hsave | ⟨hne, hsave⟩
  · rw [hsave]
    exact Or.inl ⟨rfl, rfl⟩
  · rw [hsave]
    exact Or.inr ⟨hne, rfl⟩

/-- A step leaves the file and the log as they are, or writes names and logs them. A partial import
writes what it has read with them. -/
theorem step_cases (h : step rendering limit s event = some s') :
    s'.file = s.file ∧ s'.log = s.log ∨
    ∃ names book merged, s'.file = .json (Merged.payload merged s'.now) ∧
      s'.log = ⟨names, book, s'.now⟩ :: s.log ∧ sortedNames merged.names ≠ [] ∧
      (book = true ∧ ¬ event.Partial ∧ merged = ⟨names, true, none⟩ ∨
        book = false ∧ ∃ opens,
          merged = merge names false (readCache rendering limit s.now opens s.file)) := by
  cases event with
  | wait seconds =>
    obtain rfl := Option.some.inj h
    exact Or.inl ⟨rfl, rfl⟩
  | saved names writes =>
    obtain rfl := Option.some.inj h
    rcases store_cases s names true ⟨names, true, none⟩ 0 writes with hsame | ⟨hne, hstore⟩
    · exact Or.inl hsame
    · rw [hstore]
      exact Or.inr ⟨names, true, _, rfl, rfl, hne, Or.inl ⟨rfl, id, rfl⟩⟩
  | imported names complete opens took writes =>
    obtain rfl := Option.some.inj h
    rcases store_cases s names complete
      (merge names complete (readCache rendering limit s.now opens s.file)) took writes
      with hsame | ⟨hne, hstore⟩
    · exact Or.inl hsame
    · rw [hstore]
      refine Or.inr ⟨names, complete, _, rfl, rfl, hne, ?_⟩
      cases complete with
      | true => exact Or.inl ⟨rfl, Bool.noConfusion, rfl⟩
      | false => exact Or.inr ⟨rfl, opens, rfl⟩

theorem now_le_of_step (h : step rendering limit s event = some s') : s.now ≤ s'.now := by
  cases event with
  | wait | saved | imported =>
    obtain rfl := Option.some.inj h
    simp only [State.store]
    omega

/-- A partial import that makes a complete cache has read a complete cache, and keeps its stamp. -/
theorem of_merge_complete {names : List Name} {current : Option Cache}
    (h : (merge names false current).complete = true) :
    ∃ cache, current = some cache ∧ cache.complete = true ∧
      merge names false current = ⟨names ++ cache.symbols, true, some cache.updated⟩ := by
  cases current with
  | none => cases h
  | some cache =>
    change cache.complete = true at h
    refine ⟨cache, rfl, h, ?_⟩
    show (⟨names ++ cache.symbols, cache.complete, some cache.updated⟩ : Merged) = _
    rw [h]

/-! ## Every run -/

/-- A cache that is complete is backed by a full book. -/
structure Sound (rendering : Rendering) (s : State) : Prop where
  backed : ∀ cache, s.file.contents rendering = some cache → cache.complete = true →
    ∃ book later earlier, Backed s.log cache.updated cache.symbols book later earlier
  past : ∀ written ∈ s.log, written.time ≤ s.now

theorem sound_start (now : ℤ) : Sound rendering (start now) where
  backed _ h := by cases h
  past _ h := absurd h List.not_mem_nil

/-- A full book backs itself. -/
theorem backed_book (names : List Name) (log : List Written) :
    Backed (⟨names, true, now⟩ :: log) now (sortedNames names) ⟨names, true, now⟩ [] log where
  log_eq := rfl
  full := rfl
  partials _ h := absurd h List.not_mem_nil
  time_eq := rfl
  mem_iff name := by
    rw [mem_sortedNames, and_comm]
    simp only [List.not_mem_nil, false_and, exists_false, or_false]

/-- A partial import adds its names to what a book backs. -/
theorem Backed.imported {log later earlier : List Written} {stamp : ℤ} {symbols names : List Name}
    {book : Written} (h : Backed log stamp symbols book later earlier) :
    Backed (⟨names, false, now⟩ :: log) stamp (sortedNames (names ++ symbols)) book
      (⟨names, false, now⟩ :: later) earlier where
  log_eq := by rw [h.log_eq, List.cons_append]
  full := h.full
  partials := List.forall_mem_cons.mpr ⟨rfl, h.partials⟩
  time_eq := h.time_eq
  mem_iff name := by
    rw [mem_sortedNames, List.mem_append, h.mem_iff]
    simp only [List.mem_cons, exists_eq_or_imp]
    tauto

theorem Sound.step (hs : Sound rendering s) (h : step rendering limit s event = some s') :
    Sound rendering s' := by
  have hnow := now_le_of_step h
  rcases step_cases h with ⟨hfile, hlog⟩ | ⟨names, book, merged, hfile, hlog, hne, hmerged⟩
  · constructor
    · rw [hfile, hlog]
      exact hs.backed
    · rw [hlog]
      exact fun written hmem => le_trans (hs.past written hmem) hnow
  constructor
  · rw [hfile, hlog]
    intro cache hcache hcomplete
    obtain rfl := contents_payload hcache hne
    rcases hmerged with ⟨rfl, -, rfl⟩ | ⟨rfl, opens, rfl⟩
    · exact ⟨_, _, _, backed_book names s.log⟩
    · -- what it has read was backed
      obtain ⟨current, hread, hcurrent, hmerge⟩ := of_merge_complete hcomplete
      obtain ⟨book, later, earlier, hbacked⟩ :=
        hs.backed current (contents_of_readCache hread).1 hcurrent
      rw [hmerge]
      exact ⟨_, _, _, hbacked.imported⟩
  · rw [hlog]
    intro written hmem
    rcases List.mem_cons.mp hmem with rfl | hmem
    · exact le_rfl
    · exact le_trans (hs.past written hmem) hnow

theorem sound_of_run (h : Run (step rendering limit) (start now) s) : Sound rendering s :=
  h.invariant (fun _ _ _ hs _ hstep => hs.step hstep) (sound_start now)

/-- `load` returns the names of a complete cache that is not too old. -/
theorem load_eq_some_iff {symbols : List Name} :
    load rendering limit now opens file = some symbols ↔ ∃ cache,
      readCache rendering limit now opens file = some cache ∧ cache.complete = true ∧
        cache.symbols = symbols := by
  rw [load]
  cases readCache rendering limit now opens file with
  | none => simp
  | some cache =>
    simp only [Option.some.injEq, exists_eq_left']
    split
    next hcomplete => simp only [hcomplete, Option.some.injEq, true_and]
    next hcomplete => simp only [hcomplete, Bool.false_eq_true, reduceCtorEq, false_and]

/-- Where only partial imports were made, a complete cache is the one from before, with the stamp
it had. -/
theorem complete_before (h : RunOf (step rendering limit) (fun _ event => event.Partial) s s') :
    ∀ cache', s'.file.contents rendering = some cache' → cache'.complete = true →
      ∃ cache, s.file.contents rendering = some cache ∧ cache.complete = true ∧
        cache.updated = cache'.updated := by
  refine h.invariant (P := fun s' => ∀ cache', s'.file.contents rendering = some cache' →
    cache'.complete = true → ∃ cache, s.file.contents rendering = some cache ∧
      cache.complete = true ∧ cache.updated = cache'.updated) ?_
    fun cache hcache hcomplete => ⟨cache, hcache, hcomplete, rfl⟩
  intro t event t' ih hpartial hstep cache' hcache' hcomplete
  rcases step_cases hstep with ⟨hfile, -⟩ | ⟨names, book, merged, hfile, -, hne, hmerged⟩
  · rw [hfile] at hcache'
    exact ih cache' hcache' hcomplete
  · rw [hfile] at hcache'
    obtain rfl := contents_payload hcache' hne
    rcases hmerged with ⟨-, hfull, -⟩ | ⟨-, opens, rfl⟩
    · exact absurd hpartial hfull
    · obtain ⟨current, hread, hcurrent, hmerge⟩ := of_merge_complete hcomplete
      rw [hmerge]
      exact ih current (contents_of_readCache hread).1 hcurrent

/-- In every run: what `load` returns are the names of a full book that was written in the last
`MAX_AGE_SECONDS`, and of the partial imports after it; without a full book it returns nothing; and
partial imports never make it return something at a time when it would not have without them. -/
theorem load_trusted (rendering : Rendering) (limit now : ℤ) (s : State)
    (h : Run (step rendering limit) (start now) s) :
    (∀ opens symbols, load rendering limit s.now opens s.file = some symbols →
      ∃ book later earlier, Backed s.log book.time symbols book later earlier ∧
        book.time ≤ s.now ∧ s.now - book.time ≤ limit) ∧
    ((∀ written ∈ s.log, written.book = false) →
      ∀ opens, load rendering limit s.now opens s.file = none) ∧
    ∀ s', RunOf (step rendering limit) (fun _ event => event.Partial) s s' →
      ∀ opens, load rendering limit s'.now true s.file = none →
        load rendering limit s'.now opens s'.file = none := by
  have hsound := sound_of_run h
  have htrusted : ∀ opens symbols, load rendering limit s.now opens s.file = some symbols →
      ∃ book later earlier, Backed s.log book.time symbols book later earlier ∧
        book.time ≤ s.now ∧ s.now - book.time ≤ limit := by
    intro opens symbols hload
    obtain ⟨cache, hread, hcomplete, rfl⟩ := load_eq_some_iff.mp hload
    obtain ⟨hcontents, hfresh⟩ := contents_of_readCache hread
    obtain ⟨book, later, earlier, hbacked⟩ := hsound.backed cache hcontents hcomplete
    have hmem : book ∈ s.log := by
      rw [hbacked.log_eq]
      exact List.mem_append_right later List.mem_cons_self
    have htime := hbacked.time_eq
    refine ⟨book, later, earlier, ?_, hsound.past book hmem, by omega⟩
    rw [htime]
    exact hbacked
  refine ⟨htrusted, ?_, ?_⟩
  · intro hpartial opens
    apply Option.eq_none_iff_forall_ne_some.mpr
    intro symbols hload
    obtain ⟨book, later, earlier, hbacked, -⟩ := htrusted opens symbols hload
    have hbook := hpartial book (by
      rw [hbacked.log_eq]
      exact List.mem_append_right later List.mem_cons_self)
    rw [hbacked.full] at hbook
    cases hbook
  · intro s' hrun opens hnone
    apply Option.eq_none_iff_forall_ne_some.mpr
    intro symbols hload
    obtain ⟨cache', hread, hcomplete, -⟩ := load_eq_some_iff.mp hload
    obtain ⟨hcontents, hfresh⟩ := contents_of_readCache hread
    -- the book was there before, with the same stamp
    obtain ⟨cache, hbefore, hfull, hstamp⟩ := complete_before hrun cache' hcontents hcomplete
    have hload' : load rendering limit s'.now true s.file = some cache.symbols := by
      apply load_eq_some_iff.mpr
      exact ⟨cache, readCache_of_contents hbefore (by omega), hfull, rfl⟩
    rw [hload'] at hnone
    cases hnone

/-- A full book, a partial import, and both are loaded a day later. -/
theorem load_trusted_book : ∃ s, (∃ symbols,
      load ⟨fun _ => []⟩ 604800 s.now true s.file = some symbols ∧ "XAUUSD".toList ∈ symbols) ∧
    ∀ s', RunOf (step ⟨fun _ => []⟩ 604800) (fun _ event => event.Partial) s s' →
      ∀ opens, load ⟨fun _ => []⟩ 604800 s'.now true s.file = none →
        load ⟨fun _ => []⟩ 604800 s'.now opens s'.file = none := by
  obtain ⟨s, hrun, hload⟩ := exists_run_of_exec
    (show (exec (step ⟨fun _ => []⟩ 604800) (start 1000)
      [.saved ["EURUSD.i".toList] true, .imported ["XAUUSD".toList] false true 0 true,
        .wait 86400]).any (fun s => load ⟨fun _ => []⟩ 604800 s.now true s.file ==
          some ["EURUSD.i".toList, "XAUUSD".toList]) = true by decide +kernel)
  refine ⟨s, ⟨_, beq_iff_eq.mp hload, by decide⟩, ?_⟩
  exact (load_trusted ⟨fun _ => []⟩ 604800 1000 s hrun).2.2

end Symbols.Trusted

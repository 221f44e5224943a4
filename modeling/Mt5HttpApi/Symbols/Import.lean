import Mt5HttpApi.Lib.Transition
import Mt5HttpApi.Symbols.Cache
import Mathlib.Logic.Function.Basic

/-!
# Concurrent imports of symbols

The saves of `POST /symbols/import` and of `GET /symbols` in one cache file. A partial import reads
the file and replaces it later with what it read and its own names; nothing keeps another save from
replacing it in between.

- `System.keeps`: no name and no full book is lost as long as no save comes between the read of a
  partial import and its own save, and the cache it reads is not too old;
- `System.not_keeps`: of two partial imports at the same time one is lost.
-/

namespace Symbols

open Json Text Transition

/-! ## The request -/

/-- The settings of `config.py`. -/
structure Limits where
  maxBodyBytes : ℕ
  maxSymbols : ℕ
  maxSymbolLength : ℕ
  /-- `MAX_AGE_SECONDS` -/
  maxAge : ℤ

/-- A request to import. -/
structure Request where
  contentLength : Option ℕ
  transferEncoding : Bool
  /-- `get_json(silent=True)` -/
  body : Option Value

/-- A status and the text of an error. -/
abbrev Refusal := ℕ × String

/-- The size of the body is checked before it is read. -/
def checkLength (limits : Limits) (request : Request) : Except Refusal Unit :=
  match request.contentLength with
  | none =>
    if request.transferEncoding then
      .error (411, "request must declare a Content-Length; chunked bodies are not accepted on " ++
        "this endpoint")
    else .ok ()
  | some declared =>
    if limits.maxBodyBytes < declared then
      .error (413, s!"request body is {declared} bytes; this server accepts at most " ++
        s!"{limits.maxBodyBytes} (SYMBOL_IMPORT_MAX_BODY_BYTES)")
    else .ok ()

/-- The names and the completeness that the body gives. -/
def readBody : Option Value → Except Refusal (List Name × Bool)
  | some (.obj fields) =>
    match (Fields.find fields "symbols").bind Value.texts? with
    | none => .error (400, "request body must include a 'symbols' array of strings")
    | some names =>
      match Fields.find fields "complete" with
      | none => .ok (names, false)
      | some (.bool complete) => .ok (names, complete)
      | some _ => .error (400, "'complete' must be true or false")
  | _ => .error (400, "request body must be a JSON object with a 'symbols' array")

/-- `cleaned`, when the names are not too many or too long. -/
def checkNames (limits : Limits) (names : List Name) : Except Refusal (List Name) :=
  if limits.maxSymbols < names.length then
    .error (400, s!"'symbols' has {names.length} entries; this server accepts at most " ++
      s!"{limits.maxSymbols} (SYMBOL_IMPORT_MAX_SYMBOLS)")
  else
    let cleaned := sortedNames (names.map strip)
    if cleaned = [] then .error (400, "'symbols' must contain at least one non-empty name")
    else
      let tooLong := cleaned.filter fun name => limits.maxSymbolLength < name.length
      if tooLong = [] then .ok cleaned
      else
        let longest := (tooLong.map List.length).foldl max 0
        .error (400,
          s!"{tooLong.length} symbol name(s) exceed {limits.maxSymbolLength} characters " ++
          s!"(SYMBOL_IMPORT_MAX_SYMBOL_LENGTH); longest is {longest}")

/-- `import_symbols` up to `merge`. -/
def checkImport (limits : Limits) (request : Request) : Except Refusal (List Name × Bool) := do
  checkLength limits request
  let (names, complete) ← readBody request.body
  let cleaned ← checkNames limits names
  pure (cleaned, complete)

/-- The names of an import are not empty. -/
theorem ne_nil_of_checkImport {limits : Limits} {request : Request} {names : List Name}
    {complete : Bool} (h : checkImport limits request = .ok (names, complete)) :
    ∀ name ∈ names, name ≠ [] := by
  rw [checkImport] at h
  cases hlength : checkLength limits request with
  | error e =>
    rw [hlength] at h
    cases h
  | ok _ =>
    cases hbody : readBody request.body with
    | error e =>
      rw [hlength, hbody] at h
      cases h
    | ok given =>
      cases hnames : checkNames limits given.1 with
      | error e =>
        rw [hlength, hbody] at h
        change (checkNames limits given.1 >>= _) = _ at h
        rw [hnames] at h
        cases h
      | ok cleaned =>
        rw [hlength, hbody] at h
        change (checkNames limits given.1 >>= _) = _ at h
        rw [hnames] at h
        cases h
        intro name hname
        -- only the stripped and sorted names are ever returned
        simp only [checkNames] at hnames
        split_ifs at hnames
        cases hnames
        exact (mem_sortedNames.mp hname).2

/-! ## The system -/

/-- A save that succeeded. -/
structure Saved where
  /-- The names the request brought. -/
  names : List Name
  /-- It was a full book. -/
  book : Bool
  stamp : ℤ

/-- Where a request is. -/
inductive Place
  | idle
  /-- A partial import, before `_read`. -/
  | reading (names : List Name)
  /-- Before the time is taken. `seen` tells how many saves there had been when it read the
  cache, if it did. -/
  | saving (names : List Name) (seen : Option ℕ) (merged : Merged)
  /-- Before `os.replace`. -/
  | storing (names : List Name) (seen : Option ℕ) (merged : Merged) (now : ℤ)
  | finished (saved : Bool)

/-- The cache file and the requests. -/
structure System (ρ : Type) where
  file : File
  place : ρ → Place
  /-- The saves until now; newest first. -/
  log : List Saved

/-- What happens. -/
inductive Event (ρ : Type)
  | post (r : ρ) (request : Request)
  /-- `GET /symbols` has the list of all symbols. -/
  | listed (r : ρ) (names : List Name)
  | read (r : ρ) (now : ℤ) (opens : Bool)
  | stamp (r : ρ) (now : ℤ)
  | replace (r : ρ) (writes : Bool)

variable {ρ : Type} [DecidableEq ρ]

/-- A request goes on. -/
def System.goto (s : System ρ) (r : ρ) (place : Place) : System ρ :=
  { s with place := Function.update s.place r place }

/-- `os.replace`, by a request that brought the names. -/
def System.store (s : System ρ) (r : ρ) (names : List Name) (seen : Option ℕ) (merged : Merged)
    (now : ℤ) (writes : Bool) : System ρ :=
  let saved := save merged now writes s.file
  let log := if saved.1 then ⟨names, seen.isNone, merged.updated.getD now⟩ :: s.log else s.log
  { file := saved.2, place := Function.update s.place r (.finished saved.1), log := log }

/-- One step. -/
def System.step (rendering : Rendering) (limits : Limits) (s : System ρ) :
    Event ρ → Option (System ρ)
  | .post r request =>
    match s.place r with
    | .idle =>
      match checkImport limits request with
      | .error _ => some (s.goto r (.finished false))
      | .ok (names, true) => some (s.goto r (.saving names none (merge names true none)))
      | .ok (names, false) => some (s.goto r (.reading names))
    | _ => none
  | .listed r names =>
    match s.place r with
    | .idle => some (s.goto r (.saving names none ⟨names, true, none⟩))
    | _ => none
  | .read r now opens =>
    match s.place r with
    | .reading names =>
      let current := readCache rendering limits.maxAge now opens s.file
      some (s.goto r (.saving names (some s.log.length) (merge names false current)))
    | _ => none
  | .stamp r now =>
    match s.place r with
    | .saving names seen merged =>
      -- the clock is past 1970
      if 0 < now then some (s.goto r (.storing names seen merged now)) else none
    | _ => none
  | .replace r writes =>
    match s.place r with
    | .storing names seen merged now => some (s.store r names seen merged now writes)
    | _ => none

/-- A file, and requests yet to come. -/
def System.start (file : File) : System ρ := ⟨file, fun _ => .idle, []⟩

/-- Every request has been answered. -/
def System.Finished (s : System ρ) : Prop :=
  ∀ r, s.place r = .idle ∨ ∃ saved, s.place r = .finished saved

/-- The names of the partial imports since the last full book. -/
def added : List Saved → List Name
  | [] => []
  | saved :: log => if saved.book then [] else saved.names ++ added log

/-- The stamp of the last full book. -/
def lastBook : List Saved → Option ℤ
  | [] => none
  | saved :: log => if saved.book then some saved.stamp else lastBook log

/-- What the file holds, however old it is. -/
def File.contents (rendering : Rendering) (file : File) : Option Cache :=
  readCache rendering 0 0 true file

/-- Nothing that was saved is lost. -/
structure System.Kept (rendering : Rendering) (s : System ρ) : Prop where
  names : ∀ name ∈ added s.log, ∃ cache, s.file.contents rendering = some cache ∧
    name ∈ cache.symbols
  book : ∀ stamp, lastBook s.log = some stamp → ∃ cache, s.file.contents rendering = some cache ∧
    cache.complete = true ∧ stamp ≤ cache.updated

/-- A partial import that reads what was saved can open it, and it is not too old; and when it
replaces the file, no other save has come in between. -/
def System.Orderly (rendering : Rendering) (limits : Limits) (s : System ρ) : Event ρ → Prop
  | .read _ now opens => s.log ≠ [] → opens = true ∧
    ∀ cache, s.file.contents rendering = some cache → now - cache.updated ≤ limits.maxAge
  | .replace r _ => ∀ names seen merged now,
    s.place r = .storing names (some seen) merged now → s.log.length = seen
  | _ => True

/-! ## What a file holds -/

section Contents

variable {rendering : Rendering} {file : File} {cache : Cache} {limit now : ℤ}

/-- What a file holds is read as long as it is not too old. -/
theorem readCache_of_contents (h : file.contents rendering = some cache)
    (hfresh : now - cache.updated ≤ limit) :
    readCache rendering limit now true file = some cache := by
  cases file with
  | absent | broken => cases h
  | json value =>
    cases value with
    | obj fields =>
      simp only [File.contents, readCache, readPayload, if_true] at h ⊢
      -- the same lookups, and the same answer but for the age
      cases hupdated : Fields.find fields "updated" with
      | none => simp [hupdated] at h
      | some updated =>
        cases updated with
        | int stamp =>
          simp only [hupdated] at h ⊢
          split at h
          next => cases h
          next hpos =>
            split at h
            next => cases h
            next =>
              split at h
              next first rest hsymbols =>
                obtain rfl := Option.some.inj h
                have hage : ¬ limit < now - stamp := not_lt.mpr hfresh
                simp only [if_neg hpos, if_neg hage]
              next => cases h
        | _ => simp [hupdated] at h
    | _ => cases h

/-- A stamp that is read is valid. -/
theorem updated_pos_of_readCache {opens : Bool}
    (h : readCache rendering limit now opens file = some cache) : 0 < cache.updated := by
  simp only [readCache, readPayload] at h
  repeat' split at h
  all_goals cases h
  all_goals dsimp only
  all_goals omega

/-- What `save` writes is what the file holds then. -/
theorem contents_save {merged : Merged} (hnames : sortedNames merged.names ≠ [])
    (hstamp : 0 < merged.updated.getD now) :
    (File.json (merged.payload now)).contents rendering =
      some ⟨sortedNames merged.names, merged.complete, merged.updated.getD now⟩ := by
  rw [File.contents, readCache, if_pos rfl, Merged.payload]
  apply readPayload_payload hstamp _ hnames
  omega

end Contents

/-! ## Every run -/

/-- A cache has what was saved. -/
structure Holds (log : List Saved) (cache : Cache) : Prop where
  names : ∀ name ∈ added log, name ∈ cache.symbols
  book : ∀ stamp, lastBook log = some stamp → cache.complete = true ∧ stamp ≤ cache.updated

/-- The file has what was saved. -/
def Stands (rendering : Rendering) (log : List Saved) (file : File) : Prop :=
  ∃ cache, file.contents rendering = some cache ∧ Holds log cache

/-- A partial import that has read the cache brings its names. If no save has come since, it brings
what was saved too. -/
structure Joins (rendering : Rendering) (log : List Saved) (file : File) (names : List Name)
    (seen : ℕ) (merged : Merged) : Prop where
  ne_nil : ∀ name ∈ names, name ≠ []
  seen_le : seen ≤ log.length
  brings : names ⊆ merged.names
  /-- A stamp that is kept is valid. -/
  stamp_pos : ∀ stamp, merged.updated = some stamp → 0 < stamp
  current : log.length = seen → log ≠ [] → ∃ cache, file.contents rendering = some cache ∧
    Holds log cache ∧ merged = merge names false (some cache)

/-- What a request holds before it saves. -/
def Ready (rendering : Rendering) (log : List Saved) (file : File) (names : List Name) :
    Option ℕ → Merged → Prop
  | none, merged => merged.complete = true ∧ merged.updated = none
  | some seen, merged => Joins rendering log file names seen merged

/-- What a request holds where it is. -/
def Place.Sound (rendering : Rendering) (log : List Saved) (file : File) : Place → Prop
  | .reading names => ∀ name ∈ names, name ≠ []
  | .saving names seen merged => Ready rendering log file names seen merged
  | .storing names seen merged now => Ready rendering log file names seen merged ∧ 0 < now
  | .idle | .finished _ => True

/-- What holds in every state. -/
structure System.Whole (rendering : Rendering) (s : System ρ) : Prop where
  ne_nil : ∀ name ∈ added s.log, name ≠ []
  stands : s.log ≠ [] → Stands rendering s.log s.file
  places : ∀ r, (s.place r).Sound rendering s.log s.file

variable {rendering : Rendering} {limits : Limits} {log : List Saved} {file : File}
  {s s' : System ρ} {r : ρ}

/-- A save takes the place of the ones before it, so what was read before is out of date. -/
theorem Place.Sound.saved {place : Place} (h : place.Sound rendering log file) (saved : Saved)
    (file' : File) : place.Sound rendering (saved :: log) file' := by
  have hready : ∀ names seen merged, Ready rendering log file names seen merged →
      Ready rendering (saved :: log) file' names seen merged := by
    intro names seen merged h
    cases seen with
    | none => exact h
    | some n =>
      have hn := h.seen_le
      refine ⟨h.ne_nil, Nat.le_succ_of_le hn, h.brings, h.stamp_pos, fun heq => ?_⟩
      rw [List.length_cons] at heq
      omega
  cases place with
  | idle | finished => trivial
  | reading names => exact h
  | saving names seen merged => exact hready names seen merged h
  | storing names seen merged now => exact ⟨hready names seen merged h.1, h.2⟩

/-- A save of a full book holds itself. -/
theorem holds_book (names : List Name) (cache : Cache) (hcomplete : cache.complete = true) :
    Holds (⟨names, true, cache.updated⟩ :: log) cache where
  names name hname := absurd hname List.not_mem_nil
  book stamp hstamp := by
    obtain rfl := Option.some.inj hstamp
    exact ⟨hcomplete, le_rfl⟩

/-- A partial import that merges into what was saved holds it, and its own names. -/
theorem Holds.merge {cache : Cache} {names : List Name} (h : Holds log cache)
    (hne : ∀ name ∈ added log, name ≠ []) (hne' : ∀ name ∈ names, name ≠ []) (stamp : ℤ) :
    Holds (⟨names, false, stamp⟩ :: log)
      ⟨sortedNames (names ++ cache.symbols), cache.complete, cache.updated⟩ where
  names name hname := by
    rw [mem_sortedNames, List.mem_append]
    rcases List.mem_append.mp hname with hown | hold
    · exact ⟨Or.inl hown, hne' name hown⟩
    · exact ⟨Or.inr (h.names name hold), hne name hold⟩
  book := h.book

/-- A request goes on, and the file stays as it is. -/
theorem System.Whole.goto (hs : s.Whole rendering) {place : Place}
    (hplace : place.Sound rendering s.log s.file) : (s.goto r place).Whole rendering where
  ne_nil := hs.ne_nil
  stands := hs.stands
  places r' := by
    show Place.Sound rendering s.log s.file (Function.update s.place r place r')
    by_cases hr : r' = r
    · rw [hr, Function.update_self]
      exact hplace
    · rw [Function.update_of_ne hr]
      exact hs.places r'

/-- A save of a request that read the cache, if it did, after the last save. -/
theorem System.Whole.store (hs : s.Whole rendering) {names : List Name} {seen : Option ℕ}
    {merged : Merged} {now : ℤ} (hplace : s.place r = .storing names seen merged now)
    (hlast : ∀ n, seen = some n → s.log.length = n) (writes : Bool) :
    (s.store r names seen merged now writes).Whole rendering := by
  have hready := hs.places r
  rw [hplace] at hready
  obtain ⟨hready, hnow⟩ := hready
  rcases save_cases merged now writes s.file with hsave | ⟨hnames, hsave⟩
  · -- nothing was written
    have hstore : s.store r names seen merged now writes = s.goto r (.finished false) := by
      rw [System.store, hsave]
      rfl
    rw [hstore]
    exact hs.goto trivial
  have hstore : s.store r names seen merged now writes =
      { file := .json (merged.payload now),
        place := Function.update s.place r (.finished true),
        log := ⟨names, seen.isNone, merged.updated.getD now⟩ :: s.log } := by
    rw [System.store, hsave]
    rfl
  rw [hstore]
  have hplaces : ∀ r', Place.Sound rendering
      (⟨names, seen.isNone, merged.updated.getD now⟩ :: s.log) (.json (merged.payload now))
      (Function.update s.place r (.finished true) r') := by
    intro r'
    by_cases hr : r' = r
    · rw [hr, Function.update_self]
      trivial
    · rw [Function.update_of_ne hr]
      exact (hs.places r').saved _ _
  cases seen with
  | none =>
    -- a full book, with the time of now
    obtain ⟨hcomplete, hupdated⟩ := hready
    refine ⟨fun name hname => absurd hname List.not_mem_nil, fun _ => ?_, hplaces⟩
    have hstamp : 0 < merged.updated.getD now := by
      rw [hupdated]
      exact hnow
    refine ⟨_, contents_save hnames hstamp, ?_⟩
    apply holds_book names ⟨sortedNames merged.names, _, _⟩ hcomplete
  | some n =>
    have hne : ∀ name ∈ added (⟨names, false, merged.updated.getD now⟩ :: s.log), name ≠ [] := by
      intro name hname
      rcases List.mem_append.mp hname with hown | hold
      · exact hready.ne_nil name hown
      · exact hs.ne_nil name hold
    refine ⟨hne, fun _ => ?_, hplaces⟩
    by_cases hlog : s.log = []
    · -- the first save brings its own names
      have hstamp : 0 < merged.updated.getD now := by
        cases hupdated : merged.updated with
        | none => exact hnow
        | some stamp => exact hready.stamp_pos stamp hupdated
      refine ⟨_, contents_save hnames hstamp, ?_⟩
      rw [hlog]
      refine ⟨fun name hname => ?_, fun stamp hbook => by cases hbook⟩
      change name ∈ names ++ [] at hname
      rw [List.append_nil] at hname
      exact mem_sortedNames.mpr ⟨hready.brings hname, hready.ne_nil name hname⟩
    · obtain ⟨cache, hcache, hholds, hmerged⟩ := hready.current (hlast n rfl) hlog
      subst hmerged
      refine ⟨_, contents_save hnames (updated_pos_of_readCache hcache), ?_⟩
      exact hholds.merge hs.ne_nil hready.ne_nil _

omit [DecidableEq ρ] in
/-- A partial import reads the cache. -/
theorem joins_read (hs : s.Whole rendering) {names : List Name} (hne : ∀ name ∈ names, name ≠ [])
    {now : ℤ} {opens : Bool} (hok : s.log ≠ [] → opens = true ∧ ∀ cache,
      s.file.contents rendering = some cache → now - cache.updated ≤ limits.maxAge) :
    Joins rendering s.log s.file names s.log.length
      (merge names false (readCache rendering limits.maxAge now opens s.file)) where
  ne_nil := hne
  seen_le := le_rfl
  brings := by
    cases readCache rendering limits.maxAge now opens s.file with
    | none => exact List.Subset.refl _
    | some cache => exact List.subset_append_left _ _
  stamp_pos stamp hstamp := by
    cases hread : readCache rendering limits.maxAge now opens s.file with
    | none =>
      rw [hread] at hstamp
      cases hstamp
    | some cache =>
      rw [hread] at hstamp
      obtain rfl : cache.updated = stamp := Option.some.inj hstamp
      exact updated_pos_of_readCache hread
  current _ hlog := by
    obtain ⟨cache, hcache, hholds⟩ := hs.stands hlog
    obtain ⟨rfl, hfresh⟩ := hok hlog
    refine ⟨cache, hcache, hholds, ?_⟩
    rw [readCache_of_contents hcache (hfresh cache hcache)]

/-- A step that meets the condition keeps it. -/
theorem System.Whole.step (hs : s.Whole rendering) {event : Event ρ}
    (hok : s.Orderly rendering limits event)
    (h : s.step rendering limits event = some s') : s'.Whole rendering := by
  cases event with
  | post r request =>
    simp only [System.step] at h
    split at h
    next =>
      split at h
      next =>
        obtain rfl := Option.some.inj h
        exact hs.goto trivial
      next names hcheck =>
        obtain rfl := Option.some.inj h
        exact hs.goto ⟨rfl, rfl⟩
      next names hcheck =>
        obtain rfl := Option.some.inj h
        exact hs.goto (ne_nil_of_checkImport hcheck)
    next => cases h
  | listed r names =>
    simp only [System.step] at h
    split at h
    next =>
      obtain rfl := Option.some.inj h
      exact hs.goto ⟨rfl, rfl⟩
    next => cases h
  | read r now opens =>
    simp only [System.step] at h
    split at h
    next names hplace =>
      obtain rfl := Option.some.inj h
      have hne := hs.places r
      rw [hplace] at hne
      exact hs.goto (joins_read hs hne hok)
    next => cases h
  | stamp r now =>
    simp only [System.step] at h
    split at h
    next names seen merged hplace =>
      have hready := hs.places r
      rw [hplace] at hready
      split at h
      next hnow =>
        obtain rfl := Option.some.inj h
        exact hs.goto ⟨hready, hnow⟩
      next => cases h
    next => cases h
  | replace r writes =>
    simp only [System.step] at h
    split at h
    next names seen merged now hplace =>
      obtain rfl := Option.some.inj h
      refine hs.store hplace (fun n hn => ?_) writes
      subst hn
      exact hok names n merged now hplace
    next => cases h

/-- In every state of a run whose steps meet the condition, the cache has every name of every
partial import since the last full book, and is as complete and as new as that. -/
theorem System.keeps (rendering : Rendering) (limits : Limits) (file : File) {s : System ρ}
    (h : RunOf (System.step rendering limits) (System.Orderly rendering limits)
      (System.start file) s) : s.Kept rendering := by
  have hs : s.Whole rendering := by
    refine h.invariant (P := System.Whole rendering)
      (fun _ _ _ hs hok hstep => hs.step hok hstep) ?_
    -- nothing has been saved
    exact ⟨fun name hname => absurd hname List.not_mem_nil, fun hne => absurd rfl hne,
      fun _ => trivial⟩
  have hstands : s.log ≠ [] → Stands rendering s.log s.file := hs.stands
  constructor
  · intro name hname
    have hlog : s.log ≠ [] := by
      rintro heq
      rw [heq] at hname
      cases hname
    obtain ⟨cache, hcache, hholds⟩ := hstands hlog
    exact ⟨cache, hcache, hholds.names name hname⟩
  · intro stamp hstamp
    have hlog : s.log ≠ [] := by
      rintro heq
      rw [heq] at hstamp
      cases hstamp
    obtain ⟨cache, hcache, hholds⟩ := hstands hlog
    exact ⟨cache, hcache, hholds.book stamp hstamp⟩

/-- The settings as they are without configuration. -/
def defaultLimits : Limits := ⟨2097152, 20000, 64, 604800⟩

/-- A request with a list of names. -/
def imports (names : List String) : Request where
  contentLength := some 100
  transferEncoding := false
  body := some (.obj [("symbols".toList, .arr (names.map fun name => .str name.toList))])

/-- A check of the condition that runs. -/
def checkOrderly (rendering : Rendering) (limits : Limits) (s : System Bool) : Event Bool → Bool
  | .read _ now opens => s.log.isEmpty || opens && (s.file.contents rendering).all
    fun cache => now - cache.updated ≤ limits.maxAge
  | .replace r _ =>
    match s.place r with
    | .storing _ (some seen) _ _ => s.log.length == seen
    | _ => true
  | _ => true

theorem orderly_of_checkOrderly {s : System Bool} {event : Event Bool}
    (h : checkOrderly rendering limits s event = true) : s.Orderly rendering limits event := by
  cases event with
  | read r now opens =>
    intro hlog
    rw [checkOrderly, Bool.or_eq_true, List.isEmpty_iff, Bool.and_eq_true] at h
    obtain ⟨hopens, hfresh⟩ := h.resolve_left hlog
    refine ⟨hopens, fun cache hcache => ?_⟩
    rw [hcache] at hfresh
    exact of_decide_eq_true hfresh
  | replace r writes =>
    intro names seen merged now hplace
    rw [checkOrderly, hplace] at h
    exact beq_iff_eq.mp h
  | _ => trivial

/-- A full book, and a partial import after it. -/
def bookThenImport : List (Event Bool) :=
  [.listed true ["EURUSD.i".toList], .stamp true 1000, .replace true true,
    .post false (imports ["XAUUSD "]), .read false 1600 true, .stamp false 1600,
    .replace false true]

theorem System.keeps_bookThenImport : ∃ s : System Bool, s.Kept ⟨fun _ => []⟩ ∧
    s.file.contents ⟨fun _ => []⟩ =
      some ⟨["EURUSD.i".toList, "XAUUSD".toList], true, 1000⟩ := by
  obtain ⟨s, hrun, hcontents⟩ := exists_runOf_of_execOf (checkOrderly ⟨fun _ => []⟩ defaultLimits)
    (fun _ _ => orderly_of_checkOrderly)
    (show (execOf (System.step ⟨fun _ => []⟩ defaultLimits) _ (System.start .absent)
      bookThenImport).any (fun s => s.file.contents ⟨fun _ => []⟩ ==
        some ⟨["EURUSD.i".toList, "XAUUSD".toList], true, 1000⟩) = true by decide +kernel)
  exact ⟨s, System.keeps ⟨fun _ => []⟩ defaultLimits .absent hrun, beq_iff_eq.mp hcontents⟩

/-- Two partial imports read the cache before either replaces it: the names of the first are lost.
-/
theorem System.not_keeps : ¬ ∀ (rendering : Rendering) (limits : Limits) (file : File)
    (s : System Bool), Run (System.step rendering limits) (System.start file) s → s.Finished →
      s.Kept rendering := by
  intro h
  obtain ⟨s, hrun, hlost⟩ := exists_run_of_exec
    (show (exec (System.step ⟨fun _ => []⟩ defaultLimits) (System.start .absent)
      [.post false (imports ["EURUSD"]), .post true (imports ["GBPUSD"]), .read false 1000 true,
        .read true 1000 true, .stamp false 1000, .replace false true, .stamp true 1001,
        .replace true true]).any (fun s =>
          ([false, true].all fun r => match s.place r with
            | .finished _ => true
            | _ => false) &&
          (added s.log).contains "EURUSD".toList &&
          (s.file.contents ⟨fun _ => []⟩).all fun cache =>
            !cache.symbols.contains "EURUSD".toList) = true by decide +kernel)
  rw [Bool.and_eq_true, Bool.and_eq_true] at hlost
  obtain ⟨⟨hfinished, hadded⟩, hcache⟩ := hlost
  have hdone : s.Finished := by
    intro r
    have hr := List.all_eq_true.mp hfinished r (by cases r <;> decide)
    split at hr
    next saved hplace => exact Or.inr ⟨saved, hplace⟩
    next => cases hr
  obtain ⟨cache, hcontents, hname⟩ :=
    (h _ _ _ s hrun hdone).names _ (List.contains_iff_mem.mp hadded)
  rw [hcontents, Option.all_some, Bool.not_eq_true'] at hcache
  rw [List.contains_iff_mem.mpr hname] at hcache
  cases hcache

end Symbols

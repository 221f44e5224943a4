import Mt5HttpApi.WebRequest.Patch
import Mt5HttpApi.WebRequest.Reapply

/-!
# What `is_stale` knows

Each successful apply records the terminal process it went to, in memory and in a status file that
survives a restart of the API. `is_stale` compares the process that runs now with the recorded one.
The requests that change or apply the stored list follow one another here (they hold one lock), in
any order and with any outcome, between starts and ends of the terminal's process.

- `Site.tells_truth`: a list that is not stale was given to the running process, if no apply fails
  on the process that was recorded and leaves another list stored;
- `Site.not_tells_truth`: a `PUT` stores its list before it applies it, so its failure is not seen.
-/

namespace WebRequest

open Transition

/-- What the status file says. -/
structure Status where
  reason : String
  ok : Bool
  code : Option String
  rejected : List Url
  generation : Option Generation

/-- What driving the Options dialog comes to: a failure with its code, or the URL rows read back and
those the terminal would not take. -/
inductive Driven where
  | failed (code : String)
  | done (urls rejected : List Url)

/-- The stored list, the records of the last apply, and the terminal's process. -/
structure Site where
  /-- The list in `common.ini`, for a terminal without a stored list. -/
  current : List Url
  /-- `webrequest.json`. -/
  desired : Option (List Url)
  status : Option Status
  /-- `_applied_generation`. -/
  applied : Option Generation
  running : Option Generation
  /-- The processes there have been. -/
  used : List Generation
  /-- The lists given to processes, or read back from them after a patch; newest first. -/
  given : List (Generation × List Url)

/-- An operation. `written` says whether the status file can be written. -/
inductive Op where
  | put (urls : List Url) (driven : Driven) (written : Bool)
  | patch (add remove : List Url) (driven : Driven) (written : Bool)
  /-- `POST /webrequest/apply`, or an attempt of a re-apply in the background. -/
  | apply (reason : String) (driven : Driven) (written : Bool)
  | verify (driven : Driven)
  /-- The terminal's process ends, or another one starts. -/
  | process (generation : Option Generation)
  | restartApi

namespace Site

/-- `effective_urls`. -/
def effectiveUrls (s : Site) : List Url := cleanUrls (s.desired.getD s.current)

/-- The process in the status file, if that tells of a success. -/
def statusGeneration (s : Site) : Option Generation :=
  s.status.bind fun status =>
    if status.ok then status.generation.filter fun generation => generation.pid ≠ 0 else none

/-- `applied_generation`. -/
def appliedGeneration (s : Site) : Option Generation := s.applied.or s.statusGeneration

/-- `is_stale`. -/
def isStale (s : Site) (generation : Option Generation) : Bool :=
  if generation = none ∨ s.effectiveUrls = [] then false else generation ≠ s.appliedGeneration

/-- `save_desired`. -/
def saveDesired (s : Site) (urls : List Url) : Site := { s with desired := some (cleanUrls urls) }

/-- `_write_status`: a failure to write is logged. -/
def writeStatus (s : Site) (written : Bool) (status : Status) : Site :=
  { s with status := if written then some status else s.status }

/-- `_run`: `urls` is the list that a success gives to the terminal. There is no success without a
process. -/
def run (s : Site) (reason : String) (urls : List Url) (driven : Driven) (written : Bool) :
    Option Site :=
  match driven with
  | .failed code =>
    if reason = "verify" then some s
    else some (s.writeStatus written ⟨reason, false, some code, [], none⟩)
  | .done _ rejected =>
    match s.running with
    | none => none
    | some generation =>
      if reason = "verify" then some s
      else
        let t := s.writeStatus written ⟨reason, true, none, rejected, some generation⟩
        some { t with applied := some generation, given := (generation, urls) :: s.given }

/-- The list that a patch stores: the URLs read back, or the patched list if the apply failed. -/
def patchedUrls (s : Site) (add remove : List Url) : Driven → List Url
  | .failed _ => patched s.effectiveUrls (cleanUrls add) (cleanUrls remove)
  | .done urls _ => cleanUrls urls

/-- One operation, or `none` if it cannot come to this. -/
def step (s : Site) : Op → Option Site
  | .put urls driven written =>
    -- A request with a malformed URL is refused.
    if invalidUrls urls ≠ [] then some s
    else (s.saveDesired (cleanUrls urls)).run "put" (cleanUrls urls) driven written
  | .patch add remove driven written =>
    if invalidUrls (add ++ remove) ≠ [] then some s
    else
      (s.run "patch" (s.patchedUrls add remove driven) driven written).map fun t =>
        t.saveDesired (s.patchedUrls add remove driven)
  | .apply reason driven written =>
    if s.effectiveUrls = [] then some s else s.run reason s.effectiveUrls driven written
  | .verify driven => s.run "verify" [] driven true
  | .process none => some { s with running := none }
  | .process (some generation) =>
    -- The creation time tells apart two processes with one pid.
    if generation ∈ s.used then none
    else some { s with running := some generation, used := generation :: s.used }
  | .restartApi => some { s with applied := none }

/-- Nothing was applied yet. -/
structure Start (s : Site) : Prop where
  status : s.status = none
  applied : s.applied = none
  running : ∀ g ∈ s.running, g ∈ s.used

/-- The running process `g` was given the stored list. -/
def WasGiven (s : Site) (g : Generation) : Prop := (g, s.effectiveUrls) ∈ s.given

/-- The stored list is the last one that process `g` was given. -/
def LastGiven (s : Site) (g : Generation) : Prop :=
  s.given.find? (fun entry => entry.1 = g) = some (g, s.effectiveUrls)

/-- A list that a failing apply may leave stored: the process that runs is not the one recorded, or
the list is the one that was stored before, or it is empty. -/
def MayStore (s : Site) (urls : List Url) : Prop :=
  ∀ g ∈ s.running, s.appliedGeneration = some g →
    cleanUrls urls = s.effectiveUrls ∨ cleanUrls urls = []

/-- An apply that fails does not hide that another list is stored. -/
def Ok (s : Site) : Op → Prop
  | .put urls (.failed _) _ => invalidUrls urls = [] → s.MayStore (cleanUrls urls)
  | .patch add remove (.failed code) _ =>
    invalidUrls (add ++ remove) = [] → s.MayStore (s.patchedUrls add remove (.failed code))
  | _ => True

/-! ### What an operation can do -/

variable {s t : Site} {op : Op} {g : Generation} {urls : List Url} {reason : String}
  {driven : Driven} {written : Bool}

@[simp]
theorem effectiveUrls_saveDesired : (s.saveDesired urls).effectiveUrls = cleanUrls urls :=
  cleanUrls_of_clean (clean_cleanUrls urls)

/-- A run of the dialog only reads, records a failure, or records that the running process was given
`urls`. -/
theorem run_cases (h : s.run reason urls driven written = some t) :
    reason = "verify" ∧ t = s ∨
    (∃ code, driven = .failed code ∧
      t = s.writeStatus written ⟨reason, false, some code, [], none⟩) ∨
    ∃ live rejected g, driven = .done live rejected ∧ s.running = some g ∧
      t = { s.writeStatus written ⟨reason, true, none, rejected, some g⟩ with
        applied := some g, given := (g, urls) :: s.given } := by
  cases driven with
  | failed code =>
    rw [run] at h
    split at h <;> cases h
    next hverify => exact .inl ⟨hverify, rfl⟩
    next => exact .inr (.inl ⟨code, rfl, rfl⟩)
  | done live rejected =>
    rw [run] at h
    split at h
    next => cases h
    next g hrunning =>
      split at h <;> cases h
      next hverify => exact .inl ⟨hverify, rfl⟩
      next => exact .inr (.inr ⟨live, rejected, g, rfl, hrunning, rfl⟩)

/-- A read of the live list leaves everything as it was. -/
theorem run_verify (h : s.run "verify" urls driven written = some t) : t = s := by
  cases driven with
  | failed code =>
    cases h
    rfl
  | done live rejected =>
    rw [run] at h
    split at h <;> cases h
    rfl

/-- It makes no difference to the records whether the list is stored before or after. -/
theorem run_saveDesired : (s.saveDesired urls).run reason urls driven written =
    (s.run reason urls driven written).map fun t => t.saveDesired urls := by
  cases driven with
  | failed code =>
    rw [run, run]
    split <;> rfl
  | done live rejected =>
    rw [run, run, show (s.saveDesired urls).running = s.running from rfl]
    split
    next => rfl
    next => split <;> rfl

/-- A failure leaves at most the status that was there. -/
theorem statusGeneration_of_failed {code : Option String} {rejected : List Url}
    (h : (s.writeStatus written ⟨reason, false, code, rejected, none⟩).statusGeneration = some g) :
    s.statusGeneration = some g := by
  cases written with
  | false => exact h
  | true => cases h

/-- After a success the status tells of it, or of what it told before. -/
theorem statusGeneration_of_done {g' : Generation} {code : Option String} {rejected : List Url}
    (h : (s.writeStatus written ⟨reason, true, code, rejected, some g'⟩).statusGeneration =
      some g) : g = g' ∨ s.statusGeneration = some g := by
  cases written with
  | false => exact .inr h
  | true =>
    simp only [statusGeneration, writeStatus, if_true, Option.bind_some] at h
    exact .inl (Option.some.inj (Option.filter_eq_some_iff.mp h).1).symm

/-! ### The invariant -/

/-- The records tell of processes there have been, and if they name the one that runs, the stored
list is the last one it was given. -/
structure Inv (s : Site) : Prop where
  used_running : ∀ g, s.running = some g → g ∈ s.used
  used_applied : ∀ g, s.applied = some g → g ∈ s.used
  used_status : ∀ g, s.statusGeneration = some g → g ∈ s.used
  /-- The file never names the running process beside another one in memory. -/
  agree : ∀ g, s.running = some g → s.statusGeneration = some g →
    s.applied = none ∨ s.applied = some g
  last_given : ∀ g, s.running = some g → s.applied = some g ∨ s.statusGeneration = some g →
    s.effectiveUrls ≠ [] → s.LastGiven g

namespace Inv

theorem appliedGeneration_eq (hs : s.Inv) (hrunning : s.running = some g)
    (h : s.applied = some g ∨ s.statusGeneration = some g) : s.appliedGeneration = some g := by
  rcases h with happlied | hstatus
  · rw [appliedGeneration, happlied, Option.some_or]
  · rcases hs.agree g hrunning hstatus with happlied | happlied
    · rw [appliedGeneration, happlied, Option.none_or, hstatus]
    · rw [appliedGeneration, happlied, Option.some_or]

/-- A failure: the file tells of no more than before, and the list stored by now is harmless. -/
theorem failed (hs : s.Inv) (desired : Option (List Url)) {code : Option String}
    (hurls : ∀ g, s.running = some g → s.appliedGeneration = some g →
      Site.effectiveUrls { s with desired } = s.effectiveUrls ∨
        Site.effectiveUrls { s with desired } = []) :
    Inv { s.writeStatus written ⟨reason, false, code, [], none⟩ with desired } where
  used_running := hs.used_running
  used_applied := hs.used_applied
  used_status g hg := hs.used_status g (statusGeneration_of_failed hg)
  agree g hg hfile := hs.agree g hg (statusGeneration_of_failed hfile)
  last_given g hg hrecord hne := by
    have hrecord' : s.applied = some g ∨ s.statusGeneration = some g :=
      hrecord.imp id statusGeneration_of_failed
    have heq : Site.effectiveUrls { s with desired } = s.effectiveUrls :=
      (hurls g hg (hs.appliedGeneration_eq hg hrecord')).resolve_right hne
    have hlast := hs.last_given g hg hrecord' (by rwa [← heq])
    rwa [LastGiven, ← heq] at hlast

/-- A success: the running process is recorded, and was given the list stored by now. -/
theorem done (hs : s.Inv) (hrunning : s.running = some g) (desired : Option (List Url))
    (hurls : Site.effectiveUrls { s with desired } = urls) {code : Option String}
    {rejected : List Url} :
    Inv { s.writeStatus written ⟨reason, true, code, rejected, some g⟩ with
      desired, applied := some g, given := (g, urls) :: s.given } where
  used_running := hs.used_running
  used_applied g' hg' := by
    obtain rfl : g = g' := Option.some.inj hg'
    exact hs.used_running g hrunning
  used_status g' hg' := by
    rcases statusGeneration_of_done hg' with rfl | hfile
    · exact hs.used_running g' hrunning
    · exact hs.used_status g' hfile
  agree g' hg' _ := by
    obtain rfl : g = g' := Option.some.inj (hrunning.symm.trans hg')
    exact .inr rfl
  last_given g' hg' _ _ := by
    obtain rfl : g = g' := Option.some.inj (hrunning.symm.trans hg')
    rw [LastGiven, List.find?_cons_of_pos (by simp)]
    exact congrArg (fun urls => some (g, urls)) hurls.symm

/-- A list is applied and stored. -/
theorem save (hs : s.Inv) (h : s.run reason urls driven written = some t)
    (hverify : reason ≠ "verify")
    (hdone : ∀ live rejected, driven = .done live rejected → cleanUrls urls = urls)
    (hfailed : ∀ code, driven = .failed code → s.MayStore urls) : (t.saveDesired urls).Inv := by
  obtain ⟨hreason, -⟩ | ⟨code, hcode, rfl⟩ | ⟨live, rejected, g, hlive, hrunning, rfl⟩ :=
    run_cases h
  · exact absurd hreason hverify
  · refine hs.failed (some (cleanUrls urls)) fun g hg hrecord => ?_
    have hstored : (s.saveDesired urls).effectiveUrls = cleanUrls urls :=
      effectiveUrls_saveDesired
    rw [show Site.effectiveUrls { s with desired := some (cleanUrls urls) } = cleanUrls urls
      from hstored]
    exact hfailed code hcode g hg hrecord
  · refine hs.done hrunning (some (cleanUrls urls)) ?_
    exact effectiveUrls_saveDesired.trans (hdone live rejected hlive)

theorem step (hs : s.Inv) (hok : s.Ok op) (h : s.step op = some t) : t.Inv := by
  cases op with
  | put urls driven written =>
    rw [Site.step] at h
    split at h
    next => cases h; exact hs
    next hvalid =>
      rw [run_saveDesired] at h
      obtain ⟨u, hu, rfl⟩ := Option.map_eq_some_iff.mp h
      refine hs.save hu (by decide) (fun _ _ _ => cleanUrls_of_clean (clean_cleanUrls urls)) ?_
      rintro code rfl
      exact hok (not_not.mp hvalid)
  | patch add remove driven written =>
    rw [Site.step] at h
    split at h
    next => cases h; exact hs
    next hvalid =>
      obtain ⟨u, hu, rfl⟩ := Option.map_eq_some_iff.mp h
      refine hs.save hu (by decide) ?_ ?_
      · rintro live rejected rfl
        exact cleanUrls_of_clean (clean_cleanUrls live)
      · rintro code rfl
        exact hok (not_not.mp hvalid)
  | apply reason driven written =>
    rw [Site.step] at h
    split at h
    next => cases h; exact hs
    next =>
      obtain ⟨-, rfl⟩ | ⟨code, -, rfl⟩ | ⟨live, rejected, g, -, hrunning, rfl⟩ := run_cases h
      · exact hs
      · exact hs.failed s.desired fun _ _ _ => .inl rfl
      · exact hs.done hrunning s.desired rfl
  | verify driven =>
    rw [run_verify h]
    exact hs
  | process generation =>
    cases generation with
    | none =>
      cases h
      exact { hs with
        used_running := fun g hg => by cases hg
        agree := fun g hg => by cases hg
        last_given := fun g hg => by cases hg }
    | some generation =>
      obtain ⟨hnew, h⟩ := Option.ite_none_left_eq_some.mp h
      cases h
      -- A new process is in no record.
      have happlied : s.applied ≠ some generation := fun hg => hnew (hs.used_applied _ hg)
      have hstatus : s.statusGeneration ≠ some generation := fun hg => hnew (hs.used_status _ hg)
      exact {
        used_running := fun g hg => by
          cases hg
          exact List.mem_cons_self
        used_applied := fun g hg => List.mem_cons_of_mem _ (hs.used_applied g hg)
        used_status := fun g hg => List.mem_cons_of_mem _ (hs.used_status g hg)
        agree := fun g hg hfile => by
          cases hg
          exact absurd hfile hstatus
        last_given := fun g hg hrecord => by
          cases hg
          exact absurd hrecord (not_or.mpr ⟨happlied, hstatus⟩) }
  | restartApi =>
    cases h
    exact { hs with
      used_applied := fun g hg => by cases hg
      agree := fun _ _ _ => .inl rfl
      last_given := fun g hg hrecord => hs.last_given g hg (.inr (hrecord.resolve_left (by simp))) }

end Inv

theorem Start.inv (hs : s.Start) : s.Inv := by
  have hstatus : s.statusGeneration = none := by rw [statusGeneration, hs.status, Option.bind_none]
  refine ⟨hs.running, fun g hg => ?_, fun g hg => ?_, fun g _ hg => ?_, fun g _ hrecord => ?_⟩
  · cases hs.applied.symm.trans hg
  · cases hstatus.symm.trans hg
  · cases hstatus.symm.trans hg
  · rcases hrecord with hg | hg
    · cases hs.applied.symm.trans hg
    · cases hstatus.symm.trans hg

/-- A list that is not stale is in the records of the running process. -/
theorem appliedGeneration_of_not_stale (hstale : s.isStale (some g) = false)
    (hne : s.effectiveUrls ≠ []) : s.appliedGeneration = some g := by
  rw [isStale, if_neg (by simp [hne])] at hstale
  exact (not_not.mp (of_decide_eq_false hstale)).symm

/-- If the running process `g` is found not stale, the list stored now was given to it, and no other
list since. -/
theorem tells_truth {s₀ : Site} (hstart : s₀.Start) (hrun : RunOf step Ok s₀ s)
    (hrunning : s.running = some g) (hstale : s.isStale (some g) = false)
    (hne : s.effectiveUrls ≠ []) : s.WasGiven g ∧ s.LastGiven g := by
  have hs : s.Inv := hrun.invariant (fun _ _ _ hs hok h => hs.step hok h) hstart.inv
  have hrecord : s.applied = some g ∨ s.statusGeneration = some g := by
    have happlied := appliedGeneration_of_not_stale hstale hne
    rw [appliedGeneration, Option.or_eq_some_iff] at happlied
    exact happlied.imp id And.right
  have hlast := hs.last_given g hrunning hrecord hne
  exact ⟨List.mem_of_find?_eq_some hlast, hlast⟩

/-! ### Runs -/

/-- A terminal that runs with no list. -/
def noList : Site := ⟨[], none, none, none, some ⟨100, 1⟩, [⟨100, 1⟩], []⟩

theorem noList_start : noList.Start := ⟨rfl, rfl, by simp [noList]⟩

def urlA : Url := "https://a.example".toList

def urlB : Url := "https://b.example".toList

/-- A list is applied, and the apply of another one fails. -/
def secondFails : List Op :=
  [.put [urlA] (.done [urlA] []) true, .put [urlB] (.failed "terminal_busy") true]

/-- A list that was never given to the running process is stored and not stale. -/
theorem not_tells_truth : ¬ ∀ s₀ s : Site, s₀.Start → Run step s₀ s → ∀ g, s.running = some g →
    s.isStale (some g) = false → s.effectiveUrls ≠ [] → s.WasGiven g := by
  intro h
  have hexec : (exec step noList secondFails).any (fun s =>
      decide (s.running = some ⟨100, 1⟩) && !s.isStale (some ⟨100, 1⟩) &&
        !s.effectiveUrls.isEmpty && !s.given.contains (⟨100, 1⟩, s.effectiveUrls)) = true := by
    decide
  obtain ⟨s, hrun, hs⟩ := exists_run_of_exec hexec
  simp only [Bool.and_eq_true, decide_eq_true_eq, Bool.not_eq_true', List.isEmpty_eq_false_iff]
    at hs
  obtain ⟨⟨⟨hrunning, hstale⟩, hne⟩, hnever⟩ := hs
  have hgiven := h noList s noList_start hrun _ hrunning hstale hne
  rw [WasGiven, ← List.contains_iff_mem, hnever] at hgiven
  cases hgiven

/-- No request fails on the process that is recorded. -/
def failsUnrecorded (s : Site) : Op → Bool
  | .put _ (.failed _) _ => decide (s.running ≠ s.appliedGeneration)
  | .patch _ _ (.failed _) _ => decide (s.running ≠ s.appliedGeneration)
  | _ => true

theorem ok_of_failsUnrecorded (h : s.failsUnrecorded op = true) : s.Ok op := by
  have hmay : decide (s.running ≠ s.appliedGeneration) = true → ∀ urls, s.MayStore urls := by
    intro hne urls g hg hrecord
    exact absurd (hg.trans hrecord.symm) (of_decide_eq_true hne)
  cases op with
  | put urls driven written =>
    cases driven with
    | failed code => exact fun _ => hmay h _
    | done live rejected => trivial
  | patch add remove driven written =>
    cases driven with
    | failed code => exact fun _ => hmay h _
    | done live rejected => trivial
  | _ => trivial

/-- A list fails on a new process and is then applied to it; the status file keeps that over a
restart of the API. -/
theorem tells_truth_restarted : ∃ s : Site, s.applied = none ∧ s.effectiveUrls = [urlB] ∧
    s.WasGiven ⟨200, 2⟩ ∧ s.LastGiven ⟨200, 2⟩ := by
  have hexec : (execOf step failsUnrecorded noList
      [.put [urlA] (.done [urlA] []) true, .process none, .process (some ⟨200, 2⟩),
        .patch [urlB] [urlA] (.failed "window_not_found") true,
        .apply "new terminal process" (.done [urlB] []) true, .restartApi]).any (fun s =>
      decide (s.applied = none) && decide (s.effectiveUrls = [urlB]) &&
        decide (s.running = some ⟨200, 2⟩) && !s.isStale (some ⟨200, 2⟩)) = true := by
    decide
  obtain ⟨s, hrun, hs⟩ := exists_runOf_of_execOf _ (fun _ _ h => ok_of_failsUnrecorded h) hexec
  simp only [Bool.and_eq_true, decide_eq_true_eq, Bool.not_eq_true'] at hs
  obtain ⟨⟨⟨happlied, hstored⟩, hrunning⟩, hstale⟩ := hs
  refine ⟨s, happlied, hstored, tells_truth noList_start hrun hrunning hstale ?_⟩
  rw [hstored]
  simp

end Site

end WebRequest

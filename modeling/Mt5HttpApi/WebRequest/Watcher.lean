import Mt5HttpApi.WebRequest.Reapply

/-!
# The generation watcher

The watcher looks at the terminal process now and then. Where it finds another one than last time it
records that, reconnects, and asks for a pass over the list if the new process has not been given it
and no pass is pending.

A pass that is pending may have no attempt ahead of it any more: then the new process is not given
the list. `gets_list` says that a recorded generation found stale is given an attempt in every run
in which the watcher leaves it to a pass with an attempt ahead, and `not_gets_list` is a run in
which it does not.

The watcher, the loop threads of `Loops` and the terminal move by turns; the stored list stays as it
is and is not empty.
-/

namespace WebRequest

open Transition

variable {J : Type} [DecidableEq J]

/-! ### Passes with an attempt ahead -/

/-- The pass has an attempt ahead of it: one that is still to look the process up. -/
def LoopPc.ahead : LoopPc → Bool
  | .enter _ => true
  | .delay => true
  | .top attempt => attempt < reapplyAttempts
  | .polling attempt => attempt < reapplyAttempts
  | .reading _ => true
  | .driving _ => true
  | .applying _ _ => false
  | .retrying attempt => attempt < reapplyAttempts
  | .leaving => false

/-- At most this many steps are left up to that, sleeps during a backtest not counted. -/
def LoopPc.toLookup : LoopPc → Nat
  | .enter _ => 13
  | .delay => 12
  | .top attempt => 4 * (reapplyAttempts - 1 - attempt) + 3
  | .polling attempt => 4 * (reapplyAttempts - 1 - attempt) + 3
  | .reading attempt => 4 * (reapplyAttempts - 1 - attempt) + 2
  | .driving attempt => 4 * (reapplyAttempts - attempt) + 1
  | .applying _ _ => 0
  | .retrying attempt => 4 * (reapplyAttempts - 1 - attempt) + 4
  | .leaving => 0

omit [DecidableEq J] in
/-- A step that neither looks up nor ends the pass keeps an attempt ahead. -/
theorem ahead_passStep {pc pc' : LoopPc} {act : LoopAct} (h : passStep pc act = some pc')
    (hahead : pc.ahead = true) (hlookup : ∀ found, act ≠ .lookup found) (hraise : act ≠ .raise)
    (hread : act ≠ .read false)
    (hrefuse : act = .refuse → ∀ attempt, pc = .driving attempt → attempt < reapplyAttempts)
    {j : J} : pc'.ahead = true ∧
      pc'.toLookup + (if (Label.loop j act).advances then 1 else 0) ≤ pc.toLookup := by
  cases pc with
  | enter ask =>
    cases act <;> cases h
    exact ⟨rfl, Nat.le_refl _⟩
  | delay =>
    cases act <;> cases h
    · exact ⟨rfl, Nat.le_refl _⟩
    · exact absurd rfl hraise
  | top attempt =>
    have hattempt : attempt < reapplyAttempts := of_decide_eq_true hahead
    cases act with
    | look backtest =>
      obtain rfl := Option.some.inj h
      rw [if_pos hattempt]
      -- a backtest is waited for within the attempt
      cases backtest with
      | true => exact ⟨hahead, Nat.le_refl _⟩
      | false => exact ⟨rfl, Nat.le_refl _⟩
    | raise => exact absurd rfl hraise
    | _ => cases h
  | polling attempt =>
    cases act with
    | poll =>
      obtain rfl := Option.some.inj h
      exact ⟨hahead, Nat.le_refl _⟩
    | raise => exact absurd rfl hraise
    | _ => cases h
  | reading attempt =>
    cases act with
    | read listed =>
      obtain rfl := Option.some.inj h
      cases listed with
      | true =>
        refine ⟨rfl, ?_⟩
        simp only [if_true, LoopPc.toLookup, Label.advances]
        omega
      | false => exact absurd rfl hread
    | raise => exact absurd rfl hraise
    | _ => cases h
  | driving attempt =>
    cases act with
    | refuse =>
      -- a refusal that is not the last leaves an attempt
      have hattempt := hrefuse rfl attempt rfl
      obtain rfl := Option.some.inj h
      refine ⟨decide_eq_true hattempt, ?_⟩
      simp only [LoopPc.toLookup, Label.advances, if_true]
      omega
    | lookup found => exact absurd rfl (hlookup found)
    | raise => exact absurd rfl hraise
    | _ => cases h
  | applying attempt generation => cases hahead
  | retrying attempt =>
    cases act with
    | retry =>
      obtain rfl := Option.some.inj h
      exact ⟨hahead, Nat.le_refl _⟩
    | raise => exact absurd rfl hraise
    | _ => cases h
  | leaving => cases hahead

/-- The worker has an attempt ahead of it. -/
def Loops.Worker.ahead : Loops.Worker J → Bool
  | .none => false
  | .starting _ _ => true
  | .looping _ pc => pc.ahead

/-- What is left for it up to that. -/
def Loops.Worker.toLookup : Loops.Worker J → Nat
  | .none => 0
  | .starting _ _ => 14
  | .looping _ pc => pc.toLookup

namespace Loops

variable {s t : Loops J} {w : Worker J} {l : Label J}

/-- An attempt is to come: of the pass that is pending, or of the next one. -/
def Promises (s : Loops J) : Prop :=
  s.again.isSome ∨ (∃ j ask, s.call j = .spawning ask) ∨
    ∃ j pc, s.loop j = some pc ∧ pc.ahead = true

omit [DecidableEq J] in
theorem Is.promises_iff (hs : s.Is w) : s.Promises ↔ s.again.isSome ∨ w.ahead = true := by
  rw [Promises]
  refine or_congr_right ⟨?_, fun h => ?_⟩
  · rintro (⟨j, ask, hcall⟩ | ⟨j, pc, hloop, hahead⟩)
    · rw [(hs.call j ask).mp hcall]
      rfl
    · rw [(hs.loop j pc).mp hloop]
      exact hahead
  · cases w with
    | none => cases h
    | starting j ask => exact .inl ⟨j, ask, (hs.call j ask).mpr rfl⟩
    | looping j pc => exact .inr ⟨j, pc, (hs.loop j pc).mpr rfl, h⟩

/-- At most this many steps are left up to the next look for the process. -/
def Worker.untilLookup (w : Worker J) : Nat :=
  if w.ahead = true then w.toLookup else w.left + 12

omit [DecidableEq J] in
theorem Worker.toLookup_le (w : Worker J) : w.toLookup ≤ w.left + 12 := by
  cases w with
  | none => simp [Worker.toLookup]
  | starting => simp [Worker.toLookup, Worker.left]
  | looping j pc =>
    cases pc <;>
      simp only [Worker.toLookup, Worker.left, LoopPc.toLookup, LoopPc.left, reapplyAttempts] <;>
      omega

omit [DecidableEq J] in
theorem Worker.untilLookup_le (w : Worker J) : w.untilLookup ≤ w.left + 12 := by
  rw [Worker.untilLookup]
  split
  next => exact w.toLookup_le
  next => exact Nat.le_refl _

/-- The step does not end an attempt, or the pass, before the process is looked up. -/
def Attempts (s : Loops J) : Label J → Prop
  | .spawn _ ok => ok = true
  | .loop j .refuse => ∀ attempt, s.loop j = some (.driving attempt) → attempt < reapplyAttempts
  | .loop _ .raise => False
  | .loop _ (.read listed) => listed = true
  | .loop _ (.lookup _) => False
  | _ => True

omit [DecidableEq J] in
theorem starts_of_attempts (h : s.Attempts l) : s.Starts l := by
  cases l with
  | spawn j ok => exact h
  | _ => trivial

/-- An attempt that is to come stays so, and every step that advances brings it nearer. -/
theorem Is.step_promises (hs : s.Is w) (hpromises : s.again.isSome ∨ w.ahead = true)
    (hattempts : s.Attempts l) (h : step s l = some t) :
    ∃ w', t.Is w' ∧ (t.again.isSome ∨ w'.ahead = true) ∧
      w'.untilLookup + (if l.advances then 1 else 0) ≤ w.untilLookup := by
  obtain ⟨w', hfollows, ht⟩ := hs.follows (starts_of_attempts hattempts) h
  refine ⟨w', ht, ?_⟩
  cases hfollows with
  | checks => exact ⟨hpromises.imp_left (again_of_step h (by simp)), Nat.le_refl _⟩
  | queues => exact ⟨hpromises.imp_left (again_of_step h (by simp)), Nat.le_refl _⟩
  | starts hw =>
    subst hw
    rcases hpromises with hagain | hahead
    · exact absurd rfl (hs.slot hagain)
    · cases hahead
  | spawns hw =>
    subst hw
    exact ⟨.inr rfl, Nat.le_refl _⟩
  | ends hw hagain =>
    subst hw
    simp [hagain, Worker.ahead, LoopPc.ahead] at hpromises
  | rounds hw =>
    subst hw
    exact ⟨.inr rfl, Nat.le_refl _⟩
  | @passes j act pc pc' hw hpass =>
    subst hw
    have hloop : s.loop j = some pc := (hs.loop j pc).mpr rfl
    by_cases hahead : pc.ahead = true
    · have hnext := ahead_passStep (j := j) hpass hahead
        (by rintro found rfl; exact hattempts) (by rintro rfl; exact hattempts)
        (by rintro rfl; cases hattempts)
        (by rintro rfl attempt rfl; exact hattempts attempt hloop)
      refine ⟨.inr hnext.1, ?_⟩
      have hrank : (Worker.looping j pc).untilLookup = pc.toLookup := if_pos hahead
      have hrank' : (Worker.looping j pc').untilLookup = pc'.toLookup := if_pos hnext.1
      rw [hrank, hrank']
      exact hnext.2
    · -- Past its last attempt, the pass runs to its end, and the next one is asked for.
      have hagain : s.again.isSome := hpromises.resolve_right hahead
      have hbegin : act ≠ .begin := by
        rintro rfl
        cases pc with
        | enter ask => exact hahead rfl
        | _ => cases hpass
      have hleave : act ≠ .leave := by
        rintro rfl
        cases pc <;> cases hpass
      refine ⟨.inl (again_of_step h (by simp [hleave]) hagain), ?_⟩
      have hleft := left_passStep (j := j) hpass hbegin
      have hle : (Worker.looping j pc').untilLookup ≤ pc'.left + 12 := Worker.untilLookup_le _
      have hrank : (Worker.looping j pc).untilLookup = pc.left + 12 := if_neg hahead
      rw [hrank]
      omega

/-- A call that has found a list comes to the lock, and from there on an attempt is to come. -/
theorem call_of_step {j : J} (hcall : s.call j = .idle ∨ s.call j = .checked)
    (hlisted : ∀ listed, l = .check j listed → listed = true) (h : step s l = some t) :
    (t.call j = .idle ∨ t.call j = .checked) ∨ t.again.isSome ∨
      ∃ ask, t.call j = .spawning ask := by
  have hother : ∀ {k : J} {pc : CallPc}, j ≠ k →
      (s.setCall k pc).call j = .idle ∨ (s.setCall k pc).call j = .checked := by
    intro k pc hjk
    rw [setCall_call_of_ne hjk]
    exact hcall
  cases step_moves h with
  | @checked k listed =>
    rcases eq_or_ne j k with rfl | hjk
    · exact .inl (.inr (by simp [hlisted listed rfl]))
    · exact .inl (hother hjk)
  | queued => exact .inr (.inl rfl)
  | @claimed k ask =>
    rcases eq_or_ne j k with rfl | hjk
    · exact .inr (.inr ⟨ask, by simp [setWaiting, setCall]⟩)
    · exact .inl (hother hjk)
  | @spawned k ask hspawning =>
    rcases eq_or_ne j k with rfl | hjk
    · rcases hcall with hcall | hcall <;> cases hcall.symm.trans hspawning
    · exact .inl (hother hjk)
  | @unspawned k ask hspawning =>
    rcases eq_or_ne j k with rfl | hjk
    · rcases hcall with hcall | hcall <;> cases hcall.symm.trans hspawning
    · exact .inl (hother hjk)
  | _ => exact .inl hcall

end Loops

/-! ### The watcher -/

/-- Where the watcher is in a check. -/
inductive WatcherPc (J : Type) where
  | idle
  /-- Another process than last time: before it is recorded. -/
  | seen (generation : Generation)
  /-- Recorded: before the SDK is reconnected. -/
  | recorded (generation : Generation)
  /-- Before the list is judged stale. -/
  | reconnected (generation : Generation)
  /-- Stale: before the look for a pending pass. -/
  | stale (generation : Generation)
  /-- In call `j` of `reapply_in_background`. -/
  | asking (j : J)
  deriving DecidableEq

/-- The loop threads, the terminal process, the process of the last successful apply, and the
watcher. -/
structure Watched (J : Type) where
  loops : Loops J
  process : Option Generation
  applied : Option Generation
  lastSeen : Option Generation
  watcher : WatcherPc J
  /-- An attempt has looked the process up since a generation was last recorded. -/
  lookedUp : Bool
  /-- A recorded generation was found stale, and no attempt has looked the process up since it was
  recorded. -/
  owed : Bool

/-- A step: of a call or a loop thread, of the terminal, or of the watcher. -/
inductive WatchLabel (J : Type) where
  | loops (l : Label J)
  /-- The terminal ends or starts. -/
  | terminal (process : Option Generation)
  /-- The process is looked for; the look may fail. -/
  | look (found : Option Generation)
  /-- The generation is recorded, unless a backtest or a restart is under way. -/
  | record (underWay : Bool)
  | reconnect
  | judge
  | pending (j : J)
  | done

namespace WatchLabel

/-- An attempt looks the process up. -/
def looksUp : WatchLabel J → Bool
  | .loops (.loop _ (.lookup _)) => true
  | _ => false

/-- The step is one of the loop side, sleeps during a backtest not counted. -/
def advances : WatchLabel J → Bool
  | .loops l => l.advances
  | _ => false

end WatchLabel

namespace Watched

/-- Nothing was asked for or looked at yet. -/
def start (process applied : Option Generation) : Watched J :=
  ⟨Loops.start, process, applied, none, .idle, false, false⟩

/-- What the threads find is how things are. -/
def Finds (s : Watched J) : Label J → Prop
  | .check _ listed => listed = true
  | .loop _ (.read listed) => listed = true
  | .loop _ (.lookup found) => found = none ∨ found = s.process
  | _ => True

instance decidableFinds (s : Watched J) : ∀ l, Decidable (s.Finds l)
  | .check _ listed => inferInstanceAs (Decidable (listed = true))
  | .loop _ (.read listed) => inferInstanceAs (Decidable (listed = true))
  | .loop _ (.lookup found) => inferInstanceAs (Decidable (found = none ∨ found = s.process))
  | .ask _ _ | .spawn _ _ => inferInstanceAs (Decidable True)
  | .loop _ .begin | .loop _ .wake | .loop _ (.look _) | .loop _ .poll | .loop _ .refuse
  | .loop _ (.finish _) | .loop _ .retry | .loop _ .raise | .loop _ .leave =>
    inferInstanceAs (Decidable True)

/-- The process of the last successful apply, after a step of the threads. -/
def appliedAfter (s : Watched J) : Label J → Option Generation
  | .loop j (.finish true) =>
    match s.loops.loop j with
    | some (.applying _ generation) => some generation
    | _ => s.applied
  | _ => s.applied

/-- One step, or `none` if it is not enabled. -/
def step (s : Watched J) : WatchLabel J → Option (Watched J)
  | .loops l =>
    if s.Finds l then
      (Loops.step s.loops l).map fun loops =>
        { s with
          loops
          applied := s.appliedAfter l
          lookedUp := s.lookedUp || (WatchLabel.loops l).looksUp
          owed := s.owed && !(WatchLabel.loops l).looksUp }
    else none
  | .terminal process => some { s with process }
  | .look found =>
    match s.watcher with
    | .idle =>
      if found = none ∨ found = s.process then
        match found with
        | none => some s
        | some generation =>
          some (if found = s.lastSeen then s else { s with watcher := .seen generation })
      else none
    | _ => none
  | .record underWay =>
    match s.watcher with
    | .seen generation =>
      if underWay then some { s with watcher := .idle }
      else
        some { s with
          lastSeen := some generation
          lookedUp := false
          -- The first sighting is left to the start of the API.
          watcher := if s.lastSeen = none then .idle else .recorded generation }
    | _ => none
  | .reconnect =>
    match s.watcher with
    | .recorded generation => some { s with watcher := .reconnected generation }
    | _ => none
  | .judge =>
    match s.watcher with
    | .reconnected generation =>
      some (if some generation = s.applied then { s with watcher := .idle }
        else { s with watcher := .stale generation, owed := s.owed || !s.lookedUp })
    | _ => none
  | .pending j =>
    match s.watcher with
    | .stale _ =>
      if s.loops.running then some { s with watcher := .idle }
      else if s.loops.call j = .idle then some { s with watcher := .asking j } else none
    | _ => none
  | .done =>
    match s.watcher with
    | .asking j =>
      if s.loops.call j = .returned ∨ s.loops.call j = .raised then
        some { s with watcher := .idle }
      else none
    | _ => none

variable {s t : Watched J} {l : WatchLabel J}

/-- The watcher has found the list stale, and is about to look for a pending pass or to ask for
one. -/
def AboutToAsk (s : Watched J) : Prop :=
  (∃ generation, s.watcher = .stale generation) ∨
    ∃ j, s.watcher = .asking j ∧ (s.loops.call j = .idle ∨ s.loops.call j = .checked)

/-- The step does not take away an attempt that a new process is owed: every thread that is created
starts; while an attempt is owed no exception ends a pass, no backtest that began since the pass
looked for one refuses its last attempt, and the watcher leaves it to a pending pass only if that
has an attempt ahead of it or another pass follows. -/
def Keeps (s : Watched J) : WatchLabel J → Prop
  | .loops (.spawn _ ok) => ok = true
  | .loops (.loop j .refuse) => s.owed = true →
    ∀ attempt, s.loops.loop j = some (.driving attempt) → attempt < reapplyAttempts
  | .loops (.loop _ .raise) => s.owed = false
  | .pending _ => s.owed = true → s.loops.running = true → s.loops.Promises
  | _ => True

/-- What is owed is about to be asked for, or an attempt is to come. -/
def Inv (s : Watched J) : Prop :=
  ∃ w, s.loops.Is w ∧
    (s.owed = true → s.AboutToAsk ∨ s.loops.again.isSome ∨ w.ahead = true)

omit [DecidableEq J] in
theorem inv_start (process applied : Option Generation) :
    (start process applied : Watched J).Inv :=
  ⟨_, Loops.is_start, by simp [start]⟩

omit [DecidableEq J] in
/-- While an attempt is owed, a step that looks nothing up keeps the attempts of the pass. -/
theorem Keeps.attempts {l : Label J} (hkeeps : s.Keeps (.loops l)) (howed : s.owed = true)
    (hfinds : s.Finds l) (hlooks : (WatchLabel.loops l).looksUp = false) : s.loops.Attempts l := by
  cases l with
  | check => trivial
  | ask => trivial
  | spawn => exact hkeeps
  | loop j act =>
    cases act with
    | read listed => exact hfinds
    | refuse => exact hkeeps howed
    | raise =>
      have hnot : s.owed = false := hkeeps
      rw [howed] at hnot
      cases hnot
    | lookup found => cases hlooks
    | _ => trivial

omit [DecidableEq J] in
theorem Keeps.starts {l : Label J} (hkeeps : s.Keeps (.loops l)) : s.loops.Starts l := by
  cases l with
  | spawn => exact hkeeps
  | _ => trivial

/-- A step of the calls and the loop threads. -/
theorem Inv.step_loops {l : Label J} (hs : s.Inv) (hkeeps : s.Keeps (.loops l))
    (h : s.step (.loops l) = some t) : t.Inv := by
  obtain ⟨w, hw, howes⟩ := hs
  obtain ⟨hfinds, h⟩ := Option.ite_none_right_eq_some.mp h
  obtain ⟨loops, hstep, rfl⟩ := Option.map_eq_some_iff.mp h
  obtain ⟨w', -, hw'⟩ := hw.follows hkeeps.starts hstep
  by_cases howed : s.owed = true
  · cases hlooks : (WatchLabel.loops l).looksUp with
    | true => exact ⟨w', hw', by simp⟩
    | false =>
      rcases howes howed with (⟨generation, hstale⟩ | ⟨j, hasking, hcall⟩) | hpromises
      · exact ⟨w', hw', fun _ => .inl (.inl ⟨generation, hstale⟩)⟩
      · have hlisted : ∀ listed, l = .check j listed → listed = true := by
          rintro listed rfl
          exact hfinds
        refine ⟨w', hw', fun _ => ?_⟩
        rcases Loops.call_of_step hcall hlisted hstep with hcall' | hagain | ⟨ask, hspawning⟩
        · exact .inl (.inr ⟨j, hasking, hcall'⟩)
        · exact .inr (.inl hagain)
        · obtain rfl := (hw'.call j ask).mp hspawning
          exact .inr (.inr rfl)
      · obtain ⟨w'', hw'', hpromises', -⟩ :=
          hw.step_promises hpromises (hkeeps.attempts howed hfinds hlooks) hstep
        exact ⟨w'', hw'', fun _ => .inr hpromises'⟩
  · exact ⟨w', hw', by simp [howed]⟩

omit [DecidableEq J] in
/-- A step of the watcher that is not about to ask, or of the terminal. -/
theorem Inv.of_eq (hs : s.Inv) (hloops : t.loops = s.loops) (howed : t.owed = s.owed)
    (hask : s.AboutToAsk → t.AboutToAsk) : t.Inv := by
  obtain ⟨w, hw, howes⟩ := hs
  refine ⟨w, hloops ▸ hw, fun h => ?_⟩
  rw [hloops]
  exact (howes (howed ▸ h)).imp_left hask

theorem Inv.step (hs : s.Inv) (hkeeps : s.Keeps l) (h : s.step l = some t) : t.Inv := by
  cases l with
  | loops l => exact hs.step_loops hkeeps h
  | terminal process =>
    obtain rfl := Option.some.inj h
    exact hs.of_eq rfl rfl id
  | look found =>
    simp only [step] at h
    split at h
    next hidle =>
      obtain ⟨-, h⟩ := Option.ite_none_right_eq_some.mp h
      have hask : ¬ s.AboutToAsk := by simp [AboutToAsk, hidle]
      split at h
      next =>
        obtain rfl := Option.some.inj h
        exact hs
      next =>
        obtain rfl := Option.some.inj h
        split
        next => exact hs
        next => exact hs.of_eq rfl rfl fun h => absurd h hask
    next => cases h
  | record underWay =>
    simp only [step] at h
    split at h
    next hseen =>
      have hask : ¬ s.AboutToAsk := by simp [AboutToAsk, hseen]
      split at h
      next =>
        obtain rfl := Option.some.inj h
        exact hs.of_eq rfl rfl fun h => absurd h hask
      next =>
        obtain rfl := Option.some.inj h
        exact hs.of_eq rfl rfl fun h => absurd h hask
    next => cases h
  | reconnect =>
    simp only [step] at h
    split at h
    next hrecorded =>
      obtain rfl := Option.some.inj h
      exact hs.of_eq rfl rfl fun h => absurd h (by simp [AboutToAsk, hrecorded])
    next => cases h
  | judge =>
    simp only [step] at h
    split at h
    next hreconnected =>
      obtain rfl := Option.some.inj h
      split
      next => exact hs.of_eq rfl rfl fun h => absurd h (by simp [AboutToAsk, hreconnected])
      next =>
        -- Whatever was owed before, the watcher is about to ask now.
        obtain ⟨w, hw, -⟩ := hs
        exact ⟨w, hw, fun _ => .inl (.inl ⟨_, rfl⟩)⟩
    next => cases h
  | pending j =>
    simp only [step] at h
    split at h
    next hstale =>
      split at h
      next hrunning =>
        obtain rfl := Option.some.inj h
        obtain ⟨w, hw, -⟩ := hs
        exact ⟨w, hw, fun howed => .inr (hw.promises_iff.mp (hkeeps howed hrunning))⟩
      next =>
        obtain ⟨hcall, h⟩ := Option.ite_none_right_eq_some.mp h
        obtain rfl := Option.some.inj h
        exact hs.of_eq rfl rfl fun _ => .inr ⟨j, rfl, .inl hcall⟩
    next => cases h
  | done =>
    simp only [step] at h
    split at h
    next j hasking =>
      obtain ⟨hcall, h⟩ := Option.ite_none_right_eq_some.mp h
      obtain rfl := Option.some.inj h
      refine hs.of_eq rfl rfl fun hask => ?_
      rcases hask with ⟨generation, hstale⟩ | ⟨k, hk, hcall'⟩
      · cases hasking.symm.trans hstale
      · obtain rfl := WatcherPc.asking.inj (hasking.symm.trans hk)
        rcases hcall with hcall | hcall <;> simp [hcall] at hcall'
    next => cases h

theorem inv_of_run {process applied : Option Generation}
    (h : RunOf step Keeps (start process applied) s) : s.Inv :=
  h.invariant (fun _ _ _ hs hkeeps hstep => hs.step hkeeps hstep) (inv_start _ _)

omit [DecidableEq J] in
theorem finds_next {w : Loops.Worker J} {l : Label J} (hl : l ∈ w.next) : s.Finds l := by
  cases w with
  | none => cases hl
  | starting =>
    obtain rfl := Option.some.inj hl
    trivial
  | looping j pc =>
    obtain rfl := Option.some.inj hl
    cases pc <;> simp [LoopPc.next, Finds]

/-- The watcher and the terminal leave the threads alone, and what is owed as well. -/
theorem loops_of_step (hl : ∀ l', l ≠ .loops l') (h : s.step l = some t) :
    t.loops = s.loops ∧ (s.owed = true → t.owed = true) := by
  cases l with
  | loops l => exact absurd rfl (hl l)
  | terminal process =>
    obtain rfl := Option.some.inj h
    exact ⟨rfl, id⟩
  | _ =>
    simp only [step] at h
    grind

/-- What a process that is owed an attempt can count on, where every further step meets `ok`: the
watcher is about to ask for one, or the loop side has a step to take and looks the process up within
34 of them, sleeps during a backtest not counted. -/
def GetsList (ok : Watched J → WatchLabel J → Prop) (s : Watched J) : Prop :=
  s.owed = true → s.AboutToAsk ∨
    (∃ l, l.serves = true ∧ (s.step (.loops l)).isSome) ∧
    ∀ as t, Trace step ok s as t → (∀ l ∈ as, l.looksUp = false) →
      as.countP WatchLabel.advances ≤ 33

/-- **A new process gets the list**: it is given an attempt, in every run whose steps all keep those
that are owed. -/
theorem gets_list {process applied : Option Generation}
    (h : RunOf step Keeps (start process applied) s) : s.GetsList Keeps := by
  intro howed
  obtain ⟨w, hw, howes⟩ := inv_of_run h
  refine (howes howed).imp_right fun hpromises => ?_
  have hne : w ≠ .none := by
    rintro rfl
    rcases hpromises with hagain | hahead
    · exact hw.slot hagain rfl
    · cases hahead
  refine ⟨?_, fun as t htrace hquiet => ?_⟩
  · obtain ⟨l, hl⟩ := Loops.Worker.exists_next hne
    obtain ⟨hserves, -, hsome⟩ := hw.isSome_step_next hl
    refine ⟨l, hserves, ?_⟩
    rw [step, if_pos (finds_next hl), Option.isSome_map]
    exact hsome
  · have hbound : w.untilLookup ≤ 33 :=
      Nat.le_trans w.untilLookup_le (Nat.add_le_add_right w.left_le 12)
    refine Nat.le_trans ?_ hbound
    refine htrace.countP_le (I := fun _ => True)
      (L := fun s n => s.owed = true ∧ ∃ w, s.loops.Is w ∧
        (s.loops.again.isSome ∨ w.ahead = true) ∧ n = w.untilLookup)
      (fun _ _ _ _ _ _ => trivial) ?_ trivial ⟨howed, w, hw, hpromises, rfl⟩ hquiet
    rintro s l t n - ⟨howed, w, hw, hpromises, rfl⟩ hkeeps hlooks hstep
    cases l with
    | loops l =>
      obtain ⟨hfinds, hstep⟩ := Option.ite_none_right_eq_some.mp hstep
      obtain ⟨loops, hloops, rfl⟩ := Option.map_eq_some_iff.mp hstep
      obtain ⟨w', hw', hpromises', hle⟩ :=
        hw.step_promises hpromises (hkeeps.attempts howed hfinds hlooks) hloops
      exact ⟨_, ⟨by simp [howed, hlooks], w', hw', hpromises', rfl⟩, hle⟩
    | _ =>
      obtain ⟨hloops, howed'⟩ := loops_of_step (by simp) hstep
      exact ⟨_, ⟨howed' howed, w, hloops ▸ hw, hloops ▸ hpromises, rfl⟩, Nat.le_refl _⟩

/-- The first process seen, and the one it is replaced by. -/
def firstProcess : Generation := ⟨100, 1⟩

def secondProcess : Generation := ⟨200, 2⟩

/-- Steps of the loop thread that call `false` starts. -/
def inLoop (acts : List LoopAct) : List (WatchLabel Bool) :=
  acts.map fun act => .loops (.loop false act)

/-- An attempt on the first process, which fails. -/
def failedAttempt : List (WatchLabel Bool) :=
  inLoop [.look false, .read true, .lookup (some firstProcess), .finish false]

/-- A pass makes three attempts that fail, the terminal restarts while it sleeps before it gives up,
and the watcher leaves the new process to it. -/
def givenUp : List (WatchLabel Bool) :=
  [.look (some firstProcess), .record false, .loops (.check false true),
    .loops (.ask false ⟨25, "api start"⟩), .loops (.spawn false true)] ++
  inLoop [.begin, .wake] ++ failedAttempt ++ inLoop [.retry] ++ failedAttempt ++ inLoop [.retry] ++
  failedAttempt ++
  [.terminal (some secondProcess), .look (some secondProcess), .record false, .reconnect, .judge,
    .pending true] ++
  inLoop [.retry, .look false, .leave]

/-- A new process is owed an attempt, and nobody is left to make one. -/
theorem not_gets_list : ¬ ∀ (process applied : Option Generation) (s : Watched Bool),
    Run step (start process applied) s → s.GetsList fun _ _ => True := by
  intro h
  have hexec : (exec step (start (some firstProcess) none) givenUp).any (fun s =>
      s.owed && s.watcher == .idle && s.loops.call false == .returned &&
        s.loops.call true == .idle &&
        s.loops.loop false == none && s.loops.loop true == none) = true := by
    decide
  obtain ⟨s, hrun, hs⟩ := exists_run_of_exec hexec
  simp only [Bool.and_eq_true, beq_iff_eq] at hs
  obtain ⟨⟨⟨⟨⟨howed, hidle⟩, hreturned⟩, hunused⟩, hloop⟩, hloop'⟩ := hs
  rcases h _ _ s hrun howed with hask | ⟨⟨l, hserves, hsome⟩, -⟩
  · simp [AboutToAsk, hidle] at hask
  · have hcalls : ∀ j ask, s.loops.call j ≠ .spawning ask := by
      rintro (_ | _) ask <;> simp [hreturned, hunused]
    have hloops : ∀ j, s.loops.loop j = none := by
      rintro (_ | _) <;> assumption
    rw [step, Loops.step_eq_none hcalls hloops hserves] at hsome
    simp at hsome

/-- The check of a step that `Keeps` asks, for a run in which no pass is pending. -/
def keepsAll (s : Watched Bool) : WatchLabel Bool → Bool
  | .loops (.spawn _ ok) => ok
  | .loops (.loop _ _) => false
  | .pending _ => !s.loops.running
  | _ => true

theorem keeps_of_keepsAll {s : Watched Bool} {l : WatchLabel Bool} (h : s.keepsAll l = true) :
    s.Keeps l := by
  cases l with
  | loops l =>
    cases l with
    | spawn j ok => exact h
    | loop j act => cases h
    | _ => trivial
  | pending j =>
    intro _ hrunning
    rw [keepsAll, hrunning] at h
    cases h
  | _ => trivial

/-- The watcher finds no pass pending and asks for one: the new process is owed an attempt, and gets
it. -/
theorem gets_list_asked : ∃ s : Watched Bool, s.owed = true ∧ s.lastSeen = some secondProcess ∧
    s.GetsList Keeps := by
  have hexec : (execOf step keepsAll (start (some firstProcess) (some firstProcess))
      [.look (some firstProcess), .record false, .terminal (some secondProcess),
        .look (some secondProcess), .record false, .reconnect, .judge, .pending true,
        .loops (.check true true), .loops (.ask true ⟨25, "new terminal process"⟩),
        .loops (.spawn true true), .done]).any
      (fun s => s.owed && s.lastSeen == some secondProcess) = true := by
    decide
  obtain ⟨s, hrun, hs⟩ := exists_runOf_of_execOf _ (fun _ _ => keeps_of_keepsAll) hexec
  obtain ⟨howed, hseen⟩ := Bool.and_eq_true_iff.mp hs
  exact ⟨s, howed, beq_iff_eq.mp hseen, gets_list hrun⟩

end Watched

end WebRequest

import Mathlib.Logic.Function.Basic
import Mt5HttpApi.Lib.Transition

/-!
# Re-applying the WebRequest list in the background

Any number of threads ask for a pass over the list. The first starts a loop thread, and a request
while one is there only asks the thread for one more pass. A running flag and a slot for the next
pass, both behind one lock, hand the work over.

A pass waits out its delay and makes up to three attempts. Every step below is one critical section,
one sleep, or one access of an attempt, and the steps of the threads interleave freely.

Where every thread that is created also starts, there is one loop thread at most, a thread that ends
leaves no request waiting, and a waiting request is soon followed by a pass (`reapplies`). A thread
that fails to start leaves the flag set for ever (`not_reapplies`).
-/

namespace WebRequest

open Transition

variable {J : Type} [DecidableEq J]

/-! ### The pass -/

/-- What a request asks for: the delay before its pass, and why. -/
structure Ask where
  delaySeconds : Nat
  reason : String
  deriving DecidableEq

/-- A terminal process: its pid and when it was created. -/
structure Generation where
  pid : Nat
  createTime : Nat
  deriving DecidableEq

/-- How many attempts a pass makes. -/
def reapplyAttempts : Nat := 3

/-- Where a loop thread is. -/
inductive LoopPc where
  /-- Before a pass. -/
  | enter (ask : Ask)
  /-- Waiting out the delay. -/
  | delay
  /-- Before the test of the loop over attempts. -/
  | top (attempt : Nat)
  /-- Waiting for a backtest to end. -/
  | polling (attempt : Nat)
  /-- Before the list is read. -/
  | reading (attempt : Nat)
  /-- An attempt has begun: before it looks for a backtest again, and for the terminal process. -/
  | driving (attempt : Nat)
  /-- The process was looked up; its window is driven. -/
  | applying (attempt : Nat) (generation : Generation)
  /-- Asleep after an attempt that failed. -/
  | retrying (attempt : Nat)
  /-- The pass is over: before the lock. -/
  | leaving
  deriving DecidableEq

/-- What a loop thread does, with what it finds. -/
inductive LoopAct where
  /-- A pass starts. -/
  | begin
  | wake
  | look (backtest : Bool)
  | poll
  | read (listed : Bool)
  /-- The attempt is refused because a backtest runs. -/
  | refuse
  /-- The process is looked up; there may be none. -/
  | lookup (found : Option Generation)
  | finish (ok : Bool)
  | retry
  /-- An exception ends the pass. -/
  | raise
  | leave
  deriving DecidableEq

/-- A step of a pass. -/
def passStep : LoopPc → LoopAct → Option LoopPc
  | .enter _, .begin => some .delay
  | .delay, .wake => some (.top 0)
  | .top attempt, .look backtest =>
    some (if attempt < reapplyAttempts then
      if backtest then .polling attempt else .reading attempt
    else .leaving)
  | .polling attempt, .poll => some (.top attempt)
  | .reading attempt, .read listed => some (if listed then .driving (attempt + 1) else .leaving)
  | .driving attempt, .refuse => some (.retrying attempt)
  | .driving attempt, .lookup (some generation) => some (.applying attempt generation)
  | .driving attempt, .lookup none => some (.retrying attempt)
  | .applying attempt _, .finish ok => some (if ok then .leaving else .retrying attempt)
  | .retrying attempt, .retry => some (.top attempt)
  | .enter _, .raise => none
  | .leaving, .raise => none
  | _, .raise => some .leaving
  | _, _ => none

/-- Something that a thread can do next. -/
def LoopPc.next : LoopPc → LoopAct
  | .enter _ => .begin
  | .delay => .wake
  | .top _ => .look false
  | .polling _ => .poll
  | .reading _ => .read true
  | .driving _ => .refuse
  | .applying _ _ => .finish true
  | .retrying _ => .retry
  | .leaving => .leave

/-! ### Requests and the loop thread -/

/-- Where a call of `reapply_in_background` is. -/
inductive CallPc where
  | idle
  /-- There is a list to apply: before the lock. -/
  | checked
  /-- The flag was set: before the thread is started. -/
  | spawning (ask : Ask)
  | returned
  | raised
  deriving DecidableEq

/-- The flag and the slot, the calls, and the loop thread that each of them started. `waiting` marks
the requests that no pass has started after. -/
structure Loops (J : Type) where
  running : Bool
  again : Option Ask
  call : J → CallPc
  loop : J → Option LoopPc
  waiting : J → Bool

/-- A step: of a call, or of the loop thread that a call started. -/
inductive Label (J : Type) where
  | check (j : J) (listed : Bool)
  | ask (j : J) (ask : Ask)
  | spawn (j : J) (ok : Bool)
  | loop (j : J) (act : LoopAct)

/-- At most this many steps of a loop thread are left up to the next pass, sleeps during a backtest
not counted. -/
def LoopPc.left : LoopPc → Nat
  | .enter _ => 1
  | .delay => 19
  | .top attempt => 5 * (reapplyAttempts - attempt) + 3
  | .polling attempt => 5 * (reapplyAttempts - attempt) + 3
  | .reading attempt => 5 * (reapplyAttempts - 1 - attempt) + 7
  | .driving attempt => 5 * (reapplyAttempts - attempt) + 6
  | .applying attempt _ => 5 * (reapplyAttempts - attempt) + 5
  | .retrying attempt => 5 * (reapplyAttempts - attempt) + 4
  | .leaving => 2

/-- The step is one of the worker, and no sleep during a backtest or look that leads to one. -/
def Label.advances : Label J → Bool
  | .spawn _ _ => true
  | .loop _ (.look true) => false
  | .loop _ .poll => false
  | .loop _ _ => true
  | _ => false

/-- The step is one of a thread that is about to be started, or of a loop thread. -/
def Label.serves : Label J → Bool
  | .spawn _ _ => true
  | .loop _ _ => true
  | _ => false

/-- A pass starts. -/
def Label.begins : Label J → Bool
  | .loop _ .begin => true
  | _ => false

namespace Loops

/-- No request yet. -/
def start : Loops J := ⟨false, none, fun _ => .idle, fun _ => none, fun _ => false⟩

def setCall (s : Loops J) (j : J) (pc : CallPc) : Loops J :=
  { s with call := Function.update s.call j pc }

def setLoop (s : Loops J) (j : J) (pc : Option LoopPc) : Loops J :=
  { s with loop := Function.update s.loop j pc }

def setWaiting (s : Loops J) (j : J) : Loops J :=
  { s with waiting := Function.update s.waiting j true }

/-- One step, or `none` if the thread is elsewhere. -/
def step (s : Loops J) : Label J → Option (Loops J)
  | .check j listed =>
    if s.call j = .idle then some (s.setCall j (if listed then .checked else .returned)) else none
  | .ask j ask =>
    if s.call j = .checked then
      if s.running then some (({ s with again := some ask }.setCall j .returned).setWaiting j)
      else some (({ s with running := true }.setCall j (.spawning ask)).setWaiting j)
    else none
  | .spawn j ok =>
    match s.call j with
    | .spawning ask =>
      some (if ok then (s.setCall j .returned).setLoop j (some (.enter ask))
        else s.setCall j .raised)
    | _ => none
  | .loop j .leave =>
    if s.loop j = some .leaving then
      match s.again with
      | none => some ({ s with running := false }.setLoop j none)
      | some ask => some ({ s with again := none }.setLoop j (some (.enter ask)))
    else none
  | .loop j .begin =>
    ((s.loop j).bind fun pc => passStep pc .begin).map fun pc =>
      { s with waiting := fun _ => false }.setLoop j (some pc)
  | .loop j act =>
    ((s.loop j).bind fun pc => passStep pc act).map fun pc => s.setLoop j (some pc)

/-- Every thread that is created starts. -/
def Starts (_ : Loops J) : Label J → Prop
  | .spawn _ ok => ok = true
  | _ => True

instance decidableStarts (s : Loops J) : ∀ l, Decidable (s.Starts l)
  | .spawn _ ok => inferInstanceAs (Decidable (ok = true))
  | .check _ _ => inferInstanceAs (Decidable True)
  | .ask _ _ => inferInstanceAs (Decidable True)
  | .loop _ _ => inferInstanceAs (Decidable True)

/-- What a step does. -/
inductive Moves (s : Loops J) : Label J → Loops J → Prop
  | checked {j : J} {listed : Bool} (hcall : s.call j = .idle) :
      Moves s (.check j listed) (s.setCall j (if listed then .checked else .returned))
  | queued {j : J} {ask : Ask} (hcall : s.call j = .checked) (hrunning : s.running = true) :
      Moves s (.ask j ask) (({ s with again := some ask }.setCall j .returned).setWaiting j)
  | claimed {j : J} {ask : Ask} (hcall : s.call j = .checked) (hrunning : s.running = false) :
      Moves s (.ask j ask) (({ s with running := true }.setCall j (.spawning ask)).setWaiting j)
  | spawned {j : J} {ask : Ask} (hcall : s.call j = .spawning ask) :
      Moves s (.spawn j true) ((s.setCall j .returned).setLoop j (some (.enter ask)))
  | unspawned {j : J} {ask : Ask} (hcall : s.call j = .spawning ask) :
      Moves s (.spawn j false) (s.setCall j .raised)
  | left {j : J} (hloop : s.loop j = some .leaving) (hagain : s.again = none) :
      Moves s (.loop j .leave) ({ s with running := false }.setLoop j none)
  | rounded {j : J} {ask : Ask} (hloop : s.loop j = some .leaving) (hagain : s.again = some ask) :
      Moves s (.loop j .leave) ({ s with again := none }.setLoop j (some (.enter ask)))
  | began {j : J} {ask : Ask} (hloop : s.loop j = some (.enter ask)) :
      Moves s (.loop j .begin) ({ s with waiting := fun _ => false }.setLoop j (some .delay))
  | passed {j : J} {act : LoopAct} {pc pc' : LoopPc} (hloop : s.loop j = some pc)
      (hpass : passStep pc act = some pc') (hbegin : act ≠ .begin) (hleave : act ≠ .leave) :
      Moves s (.loop j act) (s.setLoop j (some pc'))

variable {s t : Loops J} {l : Label J} {j k : J}

theorem step_moves (h : step s l = some t) : Moves s l t := by
  cases l with
  | check j listed =>
    obtain ⟨hcall, h⟩ := Option.ite_none_right_eq_some.mp h
    obtain rfl := Option.some.inj h
    exact .checked hcall
  | ask j ask =>
    obtain ⟨hcall, h⟩ := Option.ite_none_right_eq_some.mp h
    split at h
    next hrunning =>
      obtain rfl := Option.some.inj h
      exact .queued hcall hrunning
    next hrunning =>
      obtain rfl := Option.some.inj h
      exact .claimed hcall (Bool.not_eq_true _ ▸ hrunning)
  | spawn j ok =>
    simp only [step] at h
    split at h
    next ask hcall =>
      obtain rfl := Option.some.inj h
      cases ok with
      | true => exact .spawned hcall
      | false => exact .unspawned hcall
    next => cases h
  | loop j act =>
    by_cases hleave : act = .leave
    · subst hleave
      obtain ⟨hloop, h⟩ := Option.ite_none_right_eq_some.mp h
      split at h
      next hagain =>
        obtain rfl := Option.some.inj h
        exact .left hloop hagain
      next ask hagain =>
        obtain rfl := Option.some.inj h
        exact .rounded hloop hagain
    by_cases hbegin : act = .begin
    · subst hbegin
      obtain ⟨pc', hpass, rfl⟩ := Option.map_eq_some_iff.mp h
      obtain ⟨pc, hloop, hpass⟩ := Option.bind_eq_some_iff.mp hpass
      cases pc with
      | enter ask =>
        obtain rfl := Option.some.inj hpass
        exact .began hloop
      | _ => cases hpass
    · rw [step] at h
      · obtain ⟨pc', hpass, rfl⟩ := Option.map_eq_some_iff.mp h
        obtain ⟨pc, hloop, hpass⟩ := Option.bind_eq_some_iff.mp hpass
        exact .passed hloop hpass hbegin hleave
      · exact hleave
      · exact hbegin

/-! ### The one worker -/

/-- Who serves the requests: nobody, a call about to start the loop thread, or that thread. -/
inductive Worker (J : Type) where
  | none
  | starting (j : J) (ask : Ask)
  | looping (j : J) (pc : LoopPc)

/-- The next step of the worker leads up to a pass, or starts one. -/
def Worker.Ready : Worker J → Prop
  | .starting _ _ => True
  | .looping _ (.enter _) => True
  | _ => False

/-- A step that the worker has to take. -/
def Worker.next : Worker J → Option (Label J)
  | .none => Option.none
  | .starting j _ => some (.spawn j true)
  | .looping j pc => some (.loop j pc.next)

/-- The calls and threads are those of one worker. The flag is set while there is one, and a request
waits in the slot or with a worker that is ready for a pass. -/
structure Is (s : Loops J) (w : Worker J) : Prop where
  call : ∀ k ask, s.call k = .spawning ask ↔ w = .starting k ask
  loop : ∀ k pc, s.loop k = some pc ↔ w = .looping k pc
  running : s.running = true ↔ w ≠ .none
  slot : s.again.isSome → w ≠ .none
  waits : ∀ k, s.waiting k = true → s.again.isSome ∨ w.Ready

omit [DecidableEq J] in
theorem is_start : (start : Loops J).Is .none where
  call := by simp [start]
  loop := by simp [start]
  running := by simp [start]
  slot := by simp [start]
  waits := by simp [start]

@[simp]
theorem setCall_call_self (pc : CallPc) : (s.setCall j pc).call j = pc := Function.update_self _ _ _

theorem setCall_call_of_ne (h : k ≠ j) (pc : CallPc) : (s.setCall j pc).call k = s.call k :=
  Function.update_of_ne h _ _

@[simp]
theorem setLoop_loop_self (pc : Option LoopPc) : (s.setLoop j pc).loop j = pc :=
  Function.update_self _ _ _

theorem setLoop_loop_of_ne (h : k ≠ j) (pc : Option LoopPc) : (s.setLoop j pc).loop k = s.loop k :=
  Function.update_of_ne h _ _

variable {w : Worker J}

/-- A call that is not the worker moves on without becoming it. -/
theorem Is.call_setCall (hs : s.Is w) {pc : CallPc} (hbefore : ∀ ask, s.call j ≠ .spawning ask)
    (hafter : ∀ ask, pc ≠ .spawning ask) (k : J) (ask : Ask) :
    (s.setCall j pc).call k = .spawning ask ↔ w = .starting k ask := by
  rcases eq_or_ne k j with rfl | hkj
  · rw [setCall_call_self, ← hs.call]
    exact iff_of_false (hafter ask) (hbefore ask)
  · rw [setCall_call_of_ne hkj, hs.call]

/-- The thread that works goes on. -/
theorem Is.loop_setLoop (hs : s.Is (.looping j pc)) (pc' : LoopPc) (k : J) (at' : LoopPc) :
    (s.setLoop j (some pc')).loop k = some at' ↔
      Worker.looping j pc' = .looping k at' := by
  rcases eq_or_ne k j with rfl | hkj
  · rw [setLoop_loop_self, Option.some_inj, Worker.looping.injEq]
    exact (and_iff_right rfl).symm
  · rw [setLoop_loop_of_ne hkj, hs.loop, Worker.looping.injEq, Worker.looping.injEq]
    exact iff_of_false (fun h => hkj h.1.symm) (fun h => hkj h.1.symm)

/-- The worker after a step. -/
inductive Follows (s : Loops J) (w : Worker J) : Label J → Worker J → Prop
  | checks {j : J} {listed : Bool} : Follows s w (.check j listed) w
  | queues {j : J} {ask : Ask} (hw : w ≠ .none) : Follows s w (.ask j ask) w
  | starts {j : J} {ask : Ask} (hw : w = .none) : Follows s w (.ask j ask) (.starting j ask)
  | spawns {j : J} {ask : Ask} (hw : w = .starting j ask) :
      Follows s w (.spawn j true) (.looping j (.enter ask))
  | ends {j : J} (hw : w = .looping j .leaving) (hagain : s.again = none) :
      Follows s w (.loop j .leave) .none
  | rounds {j : J} {ask : Ask} (hw : w = .looping j .leaving) :
      Follows s w (.loop j .leave) (.looping j (.enter ask))
  | passes {j : J} {act : LoopAct} {pc pc' : LoopPc} (hw : w = .looping j pc)
      (hpass : passStep pc act = some pc') : Follows s w (.loop j act) (.looping j pc')

/-- Every step is one of the worker, or a call that leaves it as it is. -/
theorem Is.follows (hs : s.Is w) (hstarts : s.Starts l) (h : step s l = some t) :
    ∃ w', Follows s w l w' ∧ t.Is w' := by
  cases step_moves h with
  | @checked j listed hcall =>
    exact ⟨w, .checks, hs.call_setCall (by simp [hcall]) (by split <;> simp), hs.loop, hs.running,
      hs.slot, hs.waits⟩
  | @queued j ask hcall hrunning =>
    have hw := hs.running.mp hrunning
    exact ⟨w, .queues hw, hs.call_setCall (by simp [hcall]) (by simp), hs.loop, hs.running,
      fun _ => hw, fun _ _ => .inl rfl⟩
  | @claimed j ask hcall hrunning =>
    -- the flag is up as long as there is a worker
    have hw : w = .none := by
      by_contra hne
      rw [hs.running.mpr hne] at hrunning
      cases hrunning
    subst hw
    refine ⟨.starting j ask, .starts rfl, fun k ask' => ?_, fun k pc => ?_,
      by simp [setWaiting, setCall], by simp, fun _ _ => .inr trivial⟩
    · rcases eq_or_ne k j with rfl | hkj
      · simp [setWaiting, setCall]
      · have hnot : s.call k ≠ .spawning ask' := fun h => by simpa using (hs.call k ask').mp h
        simp [setWaiting, setCall, Function.update_of_ne hkj, hnot, hkj.symm]
    · have hnot : s.loop k ≠ some pc := fun h => by simpa using (hs.loop k pc).mp h
      simp [setWaiting, setCall, hnot]
  | @spawned j ask hcall =>
    obtain rfl := (hs.call j ask).mp hcall
    -- the call that claimed the flag is the worker, and no loop runs
    have hidle : ∀ k pc, s.loop k ≠ some pc := fun k pc h => by simpa using (hs.loop k pc).mp h
    have hrunning : s.running = true := hs.running.mpr (by simp)
    refine ⟨.looping j (.enter ask), .spawns rfl, fun k ask' => ?_, fun k pc => ?_,
      by simpa [setLoop, setCall] using hrunning, by simp, fun _ _ => .inr trivial⟩
    · rcases eq_or_ne k j with rfl | hkj
      · simp [setLoop, setCall]
      · have hnot : s.call k ≠ .spawning ask' := fun h =>
          hkj (Worker.starting.inj ((hs.call k ask').mp h)).1.symm
        simp [setLoop, setCall, Function.update_of_ne hkj, hnot]
    · rcases eq_or_ne k j with rfl | hkj
      · simp
      · simp [setLoop_loop_of_ne hkj, setCall, hidle, hkj.symm]
  | unspawned => cases hstarts
  | @left j hloop hagain =>
    obtain rfl := (hs.loop j _).mp hloop
    have hcall : ∀ k ask, s.call k ≠ .spawning ask := fun k ask h => by
      simpa using (hs.call k ask).mp h
    refine ⟨.none, .ends rfl hagain, fun k ask => by simp [setLoop, hcall], fun k pc => ?_,
      by simp [setLoop], by simp [setLoop, hagain], fun k hk => ?_⟩
    · rcases eq_or_ne k j with rfl | hkj
      · simp
      · have hnot : s.loop k ≠ some pc := fun h =>
          hkj (Worker.looping.inj ((hs.loop k pc).mp h)).1.symm
        simp [setLoop_loop_of_ne hkj, hnot]
    -- nobody waits: no round is asked for, and the worker is leaving
    · have h := hs.waits k hk
      simp [hagain, Worker.Ready] at h
  | @rounded j ask hloop hagain =>
    obtain rfl := (hs.loop j _).mp hloop
    exact ⟨.looping j (.enter ask), .rounds rfl, by simpa [setLoop] using hs.call,
      hs.loop_setLoop _, by simpa [setLoop] using hs.running, by simp [setLoop],
      fun _ _ => .inr trivial⟩
  | @began j ask hloop =>
    obtain rfl := (hs.loop j _).mp hloop
    exact ⟨.looping j .delay, .passes rfl rfl, by simpa [setLoop] using hs.call, hs.loop_setLoop _,
      by simpa [setLoop] using hs.running, by simp, by simp [setLoop]⟩
  | @passed j act pc pc' hloop hpass hbegin hleave =>
    obtain rfl := (hs.loop j _).mp hloop
    refine ⟨.looping j pc', .passes rfl hpass, by simpa [setLoop] using hs.call, hs.loop_setLoop _,
      by simpa [setLoop] using hs.running, by simp, fun k hk => ?_⟩
    rcases hs.waits k hk with hslot | hready
    · exact .inl hslot
    · cases pc with
      -- from its entry a pass only begins, which is the case before
      | enter => cases act <;> simp [passStep] at hpass hbegin
      | _ => cases hready

/-- In a run in which every thread starts, there is one worker. -/
theorem exists_worker (h : RunOf step Starts start s) : ∃ w, s.Is w :=
  h.invariant (P := fun s => ∃ w, s.Is w)
    (fun _ _ _ ⟨_, hs⟩ hstarts hstep => (hs.follows hstarts hstep).imp fun _ h => h.2) ⟨_, is_start⟩

/-! ### How long a request waits -/

/-- What is left for the worker, who may have a thread to start first. -/
def Worker.left : Worker J → Nat
  | .none => 0
  | .starting _ _ => 2
  | .looping _ pc => pc.left

omit [DecidableEq J] in
/-- A step of a pass that advances uses up what is left. -/
theorem left_passStep {pc pc' : LoopPc} {act : LoopAct} (h : passStep pc act = some pc')
    (hbegin : act ≠ .begin) :
    pc'.left + (if (Label.loop j act).advances then 1 else 0) ≤ pc.left := by
  unfold passStep at h
  split at h
  case h_1 => exact absurd rfl hbegin
  case h_3 attempt backtest =>
    obtain rfl := Option.some.inj h
    by_cases hattempt : attempt < reapplyAttempts
    · rw [if_pos hattempt]
      cases backtest with
      | true => simp [LoopPc.left, Label.advances]
      | false =>
        simp only [Bool.false_eq_true, if_false, LoopPc.left, Label.advances, if_true]
        omega
    · rw [if_neg hattempt]
      simp only [LoopPc.left]
      split <;> omega
  case h_5 attempt listed =>
    obtain rfl := Option.some.inj h
    cases listed with
    | true =>
      simp only [if_true, LoopPc.left, Label.advances]
      omega
    | false => simp [LoopPc.left, Label.advances]
  case h_9 attempt generation ok =>
    obtain rfl := Option.some.inj h
    cases ok <;> simp [LoopPc.left, Label.advances]
  case h_13 hneEnter hneLeaving =>
    -- The shortest way on from the middle of a pass is the exception itself.
    obtain rfl := Option.some.inj h
    cases pc with
    | enter ask => exact absurd rfl (hneEnter ask)
    | leaving => exact absurd rfl hneLeaving
    | _ =>
      simp only [LoopPc.left, Label.advances, if_true]
      omega
  all_goals first
    | (obtain rfl := Option.some.inj h
       simp [LoopPc.left, Label.advances, reapplyAttempts])
    | cases h

theorem passStep_next {pc : LoopPc} (h : pc ≠ .leaving) :
    ∃ pc', passStep pc pc.next = some pc' := by
  cases pc with
  | leaving => exact absurd rfl h
  | _ => exact ⟨_, rfl⟩

/-- A worker has a step to take. -/
theorem Is.isSome_step_next (hs : s.Is w) (hl : l ∈ w.next) :
    l.serves = true ∧ s.Starts l ∧ (step s l).isSome := by
  cases w with
  | none => cases hl
  | starting j ask =>
    obtain rfl := Option.some.inj hl
    refine ⟨rfl, rfl, ?_⟩
    simp [step, (hs.call j ask).mpr rfl]
  | looping j pc =>
    obtain rfl := Option.some.inj hl
    refine ⟨rfl, trivial, ?_⟩
    have hloop := (hs.loop j pc).mpr rfl
    by_cases hpc : pc = .leaving
    · subst hpc
      cases hagain : s.again <;> simp [step, LoopPc.next, hloop, hagain]
    · obtain ⟨pc', hpass⟩ := passStep_next hpc
      have hleave : pc.next ≠ .leave := by
        cases pc with
        | leaving => exact absurd rfl hpc
        | _ => simp [LoopPc.next]
      by_cases hbegin : pc.next = .begin
      · rw [hbegin] at hpass ⊢
        simp [step, hloop, hpass]
      · simp [step, hloop, hpass]

omit [DecidableEq J] in
theorem Worker.exists_next (hw : w ≠ .none) : ∃ l, l ∈ w.next := by
  cases w with
  | none => exact absurd rfl hw
  | starting => exact ⟨_, rfl⟩
  | looping => exact ⟨_, rfl⟩

/-- Only a loop thread between two passes empties the slot. -/
theorem again_of_step (h : step s l = some t) (hleave : ∀ j, l ≠ .loop j .leave)
    (hagain : s.again.isSome) : t.again.isSome := by
  cases step_moves h with
  | queued => rfl
  | @left j => exact absurd rfl (hleave j)
  | @rounded j => exact absurd rfl (hleave j)
  | _ => exact hagain

/-- Until a pass starts, every step that advances uses up what is left. -/
theorem Is.step_left (hs : s.Is w) (hw : w ≠ .none)
    (hwait : s.again.isSome ∨ w.Ready) (hstarts : s.Starts l) (hbegins : l.begins = false)
    (h : step s l = some t) : ∃ w', t.Is w' ∧ w' ≠ .none ∧ (t.again.isSome ∨ w'.Ready) ∧
      w'.left + (if l.advances then 1 else 0) ≤ w.left := by
  obtain ⟨w', hfollows, ht⟩ := hs.follows hstarts h
  refine ⟨w', ht, ?_⟩
  cases hfollows with
  | checks => exact ⟨hw, hwait.imp_left (again_of_step h (by simp)), Nat.le_refl _⟩
  | queues => exact ⟨hw, hwait.imp_left (again_of_step h (by simp)), Nat.le_refl _⟩
  | starts hnone => exact absurd hnone hw
  | spawns hstarting =>
    subst hstarting
    exact ⟨by simp, .inr trivial, Nat.le_refl 2⟩
  | ends hleaving hagain =>
    subst hleaving
    simp [hagain, Worker.Ready] at hwait
  | rounds hleaving =>
    subst hleaving
    exact ⟨by simp, .inr trivial, Nat.le_refl 2⟩
  | @passes j act pc pc' hlooping hpass =>
    subst hlooping
    have hbegin : act ≠ .begin := by
      rintro rfl
      cases hbegins
    have hleave : act ≠ .leave := by
      rintro rfl
      cases pc <;> cases hpass
    refine ⟨by simp, .inl ?_, left_passStep hpass hbegin⟩
    rcases hwait with hagain | hready
    · exact again_of_step h (by simp [hleave]) hagain
    · -- A thread before its pass can only begin it.
      cases pc with
      | enter ask => cases act <;> simp [passStep] at hpass hbegin
      | _ => cases hready

omit [DecidableEq J] in
theorem Worker.left_le (w : Worker J) : w.left ≤ 21 := by
  cases w with
  | none => simp [Worker.left]
  | starting => simp [Worker.left]
  | looping j pc =>
    cases pc <;> simp only [Worker.left, LoopPc.left, reapplyAttempts] <;> omega

/-- What the hand-over of requests promises, where every further step meets `ok`: there is one loop
thread at most, a thread that ends leaves nothing in the slot and no request waiting, and while a
request waits that has not raised, the loop side has a step to take and starts a pass within 22 of
them, sleeps during a backtest not counted. -/
def HandsOver (ok : Loops J → Label J → Prop) (s : Loops J) : Prop :=
  (∀ j k, (s.loop j).isSome → (s.loop k).isSome → j = k) ∧
  (∀ l t j, ok s l → step s l = some t → (s.loop j).isSome → t.loop j = none →
    t.again = none ∧ ∀ k, t.waiting k = false) ∧
  ∀ j, s.waiting j = true → s.call j ≠ .raised →
    (∃ l, l.serves = true ∧ ok s l ∧ (step s l).isSome) ∧
    ∀ as t, Trace step ok s as t → (∀ l ∈ as, l.begins = false) →
      as.countP Label.advances ≤ 21

/-- **Requests are neither lost nor doubled** in a run in which every thread that is created
starts. -/
theorem reapplies (h : RunOf step Starts start s) : s.HandsOver Starts := by
  obtain ⟨w, hs⟩ := exists_worker h
  refine ⟨fun j k hj hk => ?_, fun l t j hstarts hstep hj hended => ?_, fun j hj _ => ?_⟩
  · obtain ⟨pc, hpc⟩ := Option.isSome_iff_exists.mp hj
    obtain ⟨pc', hpc'⟩ := Option.isSome_iff_exists.mp hk
    exact (Worker.looping.inj (((hs.loop j pc).mp hpc).symm.trans ((hs.loop k pc').mp hpc'))).1
  · obtain ⟨pc, hpc⟩ := Option.isSome_iff_exists.mp hj
    obtain rfl := (hs.loop j pc).mp hpc
    -- the loop has ended, so it is not the worker any more
    have hgone : ∀ pc', ¬ t.Is (.looping j pc') := fun pc' ht => by
      rw [(ht.loop j pc').mpr rfl] at hended
      cases hended
    obtain ⟨w', hfollows, ht⟩ := hs.follows hstarts hstep
    cases hfollows with
    | checks => exact absurd ht (hgone pc)
    | queues => exact absurd ht (hgone pc)
    | starts hw => cases hw
    | spawns hw => cases hw
    | rounds hw =>
      cases hw
      exact absurd ht (hgone _)
    | passes hw =>
      cases hw
      exact absurd ht (hgone _)
    | ends =>
      -- it left because no round was asked for
      have hagain : t.again = none := by
        by_contra hne
        exact absurd rfl (ht.slot (Option.isSome_iff_ne_none.mpr hne))
      refine ⟨hagain, fun k => Bool.eq_false_iff.mpr fun hk => ?_⟩
      have hwaits := ht.waits k hk
      simp [hagain, Worker.Ready] at hwaits
  · have hwait := hs.waits j hj
    have hw : w ≠ .none := by
      rcases hwait with hagain | hready
      · exact hs.slot hagain
      · rintro rfl
        exact hready
    -- the worker can go on, and its distance to the round is a bound
    obtain ⟨l, hl⟩ := Worker.exists_next hw
    refine ⟨⟨l, hs.isSome_step_next hl⟩, fun as t htrace hquiet => Nat.le_trans ?_ w.left_le⟩
    refine htrace.countP_le
      (L := fun s n => ∃ w, s.Is w ∧ w ≠ .none ∧ (s.again.isSome ∨ w.Ready) ∧ n = w.left)
      (I := fun _ => True) (fun _ _ _ _ _ _ => trivial) ?_ trivial ⟨w, hs, hw, hwait, rfl⟩ hquiet
    rintro s l t n - ⟨w, hs, hw, hwait, rfl⟩ hstarts hbegins hstep
    obtain ⟨w', ht, hw', hwait', hle⟩ := hs.step_left hw hwait hstarts hbegins hstep
    exact ⟨_, ⟨w', ht, hw', hwait', rfl⟩, hle⟩

/-- Where no thread is about to be started and none is there, the loop side has no step to take. -/
theorem step_eq_none (hcalls : ∀ j ask, s.call j ≠ .spawning ask) (hloops : ∀ j, s.loop j = none)
    (hserves : l.serves = true) : step s l = none := by
  by_contra hne
  obtain ⟨t, hstep⟩ := Option.ne_none_iff_exists'.mp hne
  cases step_moves hstep with
  | checked => cases hserves
  | queued => cases hserves
  | claimed => cases hserves
  | spawned hcall => exact hcalls _ _ hcall
  | unspawned hcall => exact hcalls _ _ hcall
  | @left j hloop => cases (hloops j).symm.trans hloop
  | @rounded j _ hloop => cases (hloops j).symm.trans hloop
  | @began j _ hloop => cases (hloops j).symm.trans hloop
  | @passed j _ _ _ hloop => cases (hloops j).symm.trans hloop

/-- A request whose thread does not start, and one after it. -/
def unstarted : List (Label Bool) :=
  [.check false true, .ask false ⟨25, "api start"⟩, .spawn false false,
    .check true true, .ask true ⟨25, "terminal restart"⟩]

/-- After a thread that did not start, a request is accepted and nobody is there to serve it. -/
theorem not_reapplies : ¬ ∀ s : Loops Bool, Run step start s → s.HandsOver fun _ _ => True := by
  intro h
  have hexec : (exec step start unstarted).any (fun s =>
      s.waiting true && s.call true == .returned && s.call false == .raised &&
        s.loop true == none && s.loop false == none) = true := by
    decide
  obtain ⟨s, hrun, hs⟩ := exists_run_of_exec hexec
  simp only [Bool.and_eq_true, beq_iff_eq] at hs
  obtain ⟨⟨⟨⟨hwaiting, hreturned⟩, hraised⟩, hloop⟩, hloop'⟩ := hs
  obtain ⟨⟨l, hserves, -, hsome⟩, -⟩ := (h s hrun).2.2 true hwaiting (by simp [hreturned])
  have hcalls : ∀ j ask, s.call j ≠ .spawning ask := by
    rintro (_ | _) ask <;> simp [hreturned, hraised]
  have hloops : ∀ j, s.loop j = none := by
    rintro (_ | _) <;> assumption
  rw [step_eq_none hcalls hloops hserves] at hsome
  cases hsome

/-- A request comes while the loop thread is between its last attempt and the lock. -/
theorem reapplies_queued : ∃ s : Loops Bool, s.waiting true = true ∧ s.again.isSome ∧
    s.HandsOver Starts := by
  have hexec : (execOf step (fun s l => decide (s.Starts l)) start
      ([.check false true, .ask false ⟨25, "api start"⟩, .spawn false true] ++
        [.begin, .wake, .look false, .read true, .lookup none, .raise].map (.loop false) ++
        [.check true true, .ask true ⟨25, "terminal restart"⟩])).any
      (fun s => s.waiting true && s.again.isSome) = true := by
    decide
  obtain ⟨s, hrun, hs⟩ := exists_runOf_of_execOf _ (fun _ _ h => of_decide_eq_true h) hexec
  obtain ⟨hwaiting, hagain⟩ := Bool.and_eq_true_iff.mp hs
  exact ⟨s, hwaiting, hagain, reapplies hrun⟩

end Loops

end WebRequest

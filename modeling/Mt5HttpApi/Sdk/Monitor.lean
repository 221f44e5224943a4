import Mathlib.Data.List.TakeWhile
import Mt5HttpApi.Lib.Transition

/-!
# The health monitor

`mt5api/monitor.py`: a pass over the terminal every minute. Passes in which the terminal does not
answer, or the lock of the SDK is not to be had, are counted, and at the fifth the terminal is
restarted, or killed to free the lock.

The count is what has failed since the last answer or restart, up to four (`count_eq`). So the
terminal is restarted or killed in a failing pass, and from the fifth one on (`acts_iff`).
-/

namespace Sdk.Monitor

open Transition

/-- `DEAD_CHECKS_BEFORE_RESTART` -/
def deadChecksBeforeRestart : ℕ := 5

/-- What the monitor does in a pass. -/
inductive Act
  | info (text : String)
  | warning (text : String)
  | error (text : String)
  | restartTerminal
  | killTerminal
  deriving DecidableEq

/-- The terminal is restarted or killed. -/
def Act.strikes : Act → Bool
  | .restartTerminal | .killTerminal => true
  | .info _ | .warning _ | .error _ => false

/-- How a call ends: with a truth value, or an exception. -/
inductive Call
  | returned (value : Bool)
  | raised (error : String)

/-- What `terminal_info` answers. -/
structure Info where
  tradeAllowed : Call

/-- What comes of `m(mt5.terminal_info, _timeout=15)`. -/
inductive Probe
  | answered (info : Info)
  | nothing
  | timeout
  | raised

/-- What `account_info` answers. -/
structure Account where
  login : ℤ
  server : String

/-- What a pass meets, with how the calls end that it may come to make. -/
inductive Pass
  /-- `session` raises `MT5LockTimeout`. -/
  | lockTimeout (kill : Call)
  /-- `session` fails in another way. -/
  | failed (error : String)
  /-- The lock is held. No exception of `restart_terminal` is an `MT5LockTimeout`, as `session`
  alone raises it. -/
  | checked (probe : Probe) (restart iniAutotrading : Call) (account : Option Account)

/-- What `_monitor_loop` keeps from one pass to the next. -/
structure State where
  deadCount : ℕ
  prevLoggedIn : Option Bool
  prevTradeAllowed : Option Bool
  /-- The loop has been left by an exception. -/
  ended : Bool

/-- The state before the first pass. -/
def State.init : State := ⟨0, none, none, false⟩

/-- One more dead check. -/
def State.dead (s : State) : State :=
  { s with deadCount := s.deadCount + 1, prevLoggedIn := none, prevTradeAllowed := none }

/-- `except Exception as e`, around the whole of a session. -/
def sessionFailed (error : String) : Act := .warning s!"Monitor session failed: {error}"

/-- A lock time-out. -/
def lockTimedOut (acquireTimeout : ℕ) (s : State) (kill : Call) : State × List Act :=
  let s := s.dead
  let held := Act.error (s!"!!! MT5 LOCK HELD FOR OVER {acquireTimeout}s !!! " ++
    s!"({s.deadCount}/{deadChecksBeforeRestart} before restart)")
  if deadChecksBeforeRestart ≤ s.deadCount then
    let killing := Act.error (s!"MT5 lock unobtainable for {s.deadCount} checks, " ++
      "killing the terminal to release it...")
    match kill with
    -- an exception in a handler is not caught by the next one
    | .raised _ => ({ s with ended := true }, [held, killing, .killTerminal])
    | .returned killed =>
      ({ s with deadCount := deadChecksBeforeRestart - 1 }, [held, killing, .killTerminal,
        if killed then .info "Terminal killed; the next check restarts it."
        else .error "No terminal process found to kill."])
  else (s, [held])

/-- `terminal_info` did not answer. -/
def notRunning (s : State) (restart : Call) : State × List Act :=
  let s := s.dead
  let down := Act.error (s!"!!! TERMINAL NOT RUNNING !!! " ++
    s!"({s.deadCount}/{deadChecksBeforeRestart} before restart)")
  if deadChecksBeforeRestart ≤ s.deadCount then
    let restarting := Act.error s!"Terminal dead for {s.deadCount} checks, restarting..."
    ({ s with deadCount := 0 }, [down, restarting, .restartTerminal,
      match restart with
      | .returned true => .info "Auto-restart succeeded."
      | .returned false => .error "Auto-restart FAILED, will keep trying."
      | .raised error => sessionFailed error])
  else (s, [down])

/-- What comes after the session. -/
def checkLogin (s : State) : Option Account → State × List Act
  | some acc =>
    if acc.login = 0 then ({ s with prevLoggedIn := some false }, [.error "!!! NOT LOGGED IN !!!"])
    else ({ s with prevLoggedIn := some true },
      if s.prevLoggedIn = some true then []
      else [.info s!"Logged in as {acc.login} on {acc.server}"])
  | none => ({ s with prevLoggedIn := some false }, [.error "!!! NOT LOGGED IN !!!"])

/-- `terminal_info` answered. -/
def running (s : State) (info : Info) (iniAutotrading : Call) (account : Option Account) :
    State × List Act :=
  let s := { s with deadCount := 0 }
  match info.tradeAllowed with
  | .raised error => (s, [sessionFailed error])
  | .returned true =>
    let enabled := if s.prevTradeAllowed = some true then []
      else [Act.info "Algo trading is enabled."]
    let login := checkLogin { s with prevTradeAllowed := some true } account
    (login.1, enabled ++ login.2)
  | .returned false =>
    let disabled := Act.error "!!! ALGO TRADING DISABLED IN TERMINAL !!!"
    match iniAutotrading with
    -- the file may not be text
    | .raised error => (s, [disabled, sessionFailed error])
    | .returned autotrading =>
      let broken := if autotrading then []
        else [Act.error "!!! INI FILE MISSING AutoTrading=1 — config is broken !!!"]
      let login := checkLogin { s with prevTradeAllowed := some false } account
      (login.1, disabled :: broken ++ login.2)

/-- A pass of `_monitor_loop`. -/
def State.pass (acquireTimeout : ℕ) (s : State) : Pass → State × List Act
  | .lockTimeout kill => lockTimedOut acquireTimeout s kill
  | .failed error => (s, [sessionFailed error])
  | .checked (.answered info) _ iniAutotrading account => running s info iniAutotrading account
  | .checked .nothing restart _ _ | .checked .timeout restart _ _
  | .checked .raised restart _ _ => notRunning s restart

/-! ## A run of passes -/

/-- The terminal answered. -/
def Pass.answered : Pass → Bool
  | .checked (.answered _) _ _ _ => true
  | _ => false

/-- The terminal did not answer, or the lock was not to be had. -/
def Pass.failing : Pass → Bool
  | .lockTimeout _ => true
  | .failed _ => false
  | .checked probe _ _ _ =>
    match probe with
    | .answered _ => false
    | .nothing | .timeout | .raised => true

/-- A pass, with what the monitor did. -/
structure Done where
  pass : Pass
  acts : List Act

/-- The monitor called `restart_terminal`. -/
def Done.restarts (done : Done) : Bool := done.acts.contains .restartTerminal

/-- The monitor called `restart_terminal` or `_kill_terminal`. -/
def Done.strikes (done : Done) : Bool := done.acts.any Act.strikes

/-- The passes since the last that was answered or restarted the terminal. Passes are listed from
the newest to the oldest. -/
def since (history : List Done) : List Done :=
  history.takeWhile fun done => !(done.pass.answered || done.restarts)

/-- How many of them failed. -/
def failures (history : List Done) : ℕ := (since history).countP fun done => done.pass.failing

/-- The monitor and the passes it has made. -/
structure System where
  state : State
  history : List Done

/-- The monitor makes a pass. -/
def System.step (acquireTimeout : ℕ) (s : System) (pass : Pass) : Option System :=
  if s.state.ended then none
  else
    let (state, acts) := s.state.pass acquireTimeout pass
    some ⟨state, ⟨pass, acts⟩ :: s.history⟩

/-- Before the first pass. -/
def System.start : System := ⟨.init, []⟩

variable {acquireTimeout : ℕ} {s s' : System} {state : State} {history : List Done} {done : Done}

theorem failures_cons_of_answered (h : (done.pass.answered || done.restarts) = true) :
    failures (done :: history) = 0 := by
  rw [failures, since, List.takeWhile_cons_of_neg (by rw [h]; decide), List.countP_nil]

theorem failures_cons (h : (done.pass.answered || done.restarts) = false) :
    failures (done :: history) = failures history + if done.pass.failing then 1 else 0 := by
  rw [failures, since, List.takeWhile_cons_of_pos (by rw [h]; decide), List.countP_cons]
  rfl

/-! ### What a pass does -/

/-- What comes after the session leaves the count, and strikes nothing. -/
theorem checkLogin_spec (state : State) (account : Option Account) :
    (checkLogin state account).1.deadCount = state.deadCount ∧
      (checkLogin state account).2.any Act.strikes = false := by
  unfold checkLogin
  split
  · split_ifs <;> exact ⟨rfl, rfl⟩
  · exact ⟨rfl, rfl⟩

/-- An answer sets the count back, and strikes nothing. -/
theorem running_spec (state : State) (info : Info) (iniAutotrading : Call)
    (account : Option Account) :
    (running state info iniAutotrading account).1.deadCount = 0 ∧
      (running state info iniAutotrading account).2.any Act.strikes = false := by
  unfold running
  split
  · exact ⟨rfl, rfl⟩
  · obtain ⟨hcount, hacts⟩ :=
      checkLogin_spec { state with deadCount := 0, prevTradeAllowed := some true } account
    refine ⟨hcount, ?_⟩
    show List.any (_ ++ _) _ = false
    rw [List.any_append, hacts]
    split_ifs <;> rfl
  · split
    · exact ⟨rfl, rfl⟩
    · obtain ⟨hcount, hacts⟩ :=
        checkLogin_spec { state with deadCount := 0, prevTradeAllowed := some false } account
      refine ⟨hcount, ?_⟩
      show List.any (_ :: (_ ++ _)) _ = false
      rw [List.any_cons, List.any_append, hacts]
      split_ifs <;> rfl

/-- A failing pass is a lock time-out, or the terminal does not answer. -/
theorem pass_eq_of_failing (state : State) {pass : Pass} (h : pass.failing = true) :
    (∃ kill, state.pass acquireTimeout pass = lockTimedOut acquireTimeout state kill) ∨
      ∃ restart, state.pass acquireTimeout pass = notRunning state restart := by
  cases pass with
  | lockTimeout kill => exact Or.inl ⟨kill, rfl⟩
  | failed error => cases h
  | checked probe restart ini account =>
    cases probe with
    | answered info => cases h
    | nothing | timeout | raised => exact Or.inr ⟨restart, rfl⟩

/-- A failing pass counts one more. -/
theorem pass_of_failing_of_lt {pass : Pass} (h : pass.failing = true)
    (hcount : state.deadCount + 1 < deadChecksBeforeRestart) :
    (state.pass acquireTimeout pass).2.any Act.strikes = false ∧
      (state.pass acquireTimeout pass).1.deadCount = state.deadCount + 1 := by
  have hbelow : ¬ deadChecksBeforeRestart ≤ state.dead.deadCount := not_le.mpr hcount
  rcases pass_eq_of_failing state h with ⟨kill, heq⟩ | ⟨restart, heq⟩
  · rw [heq, lockTimedOut, if_neg hbelow]
    exact ⟨rfl, rfl⟩
  · rw [heq]
    unfold notRunning
    rw [if_neg hbelow]
    exact ⟨rfl, rfl⟩

/-- The fifth strikes: a restart sets the count back, and a kill leaves it at four. -/
theorem pass_of_failing_of_le {pass : Pass} (h : pass.failing = true)
    (hcount : deadChecksBeforeRestart ≤ state.deadCount + 1) :
    (state.pass acquireTimeout pass).2.any Act.strikes = true ∧
      ((state.pass acquireTimeout pass).2.contains .restartTerminal = true ∧
          (state.pass acquireTimeout pass).1.deadCount = 0 ∨
        (state.pass acquireTimeout pass).2.contains .restartTerminal = false ∧
          ((state.pass acquireTimeout pass).1.ended = false →
            (state.pass acquireTimeout pass).1.deadCount = deadChecksBeforeRestart - 1)) := by
  have hthere : deadChecksBeforeRestart ≤ state.dead.deadCount := hcount
  rcases pass_eq_of_failing state h with ⟨kill, heq⟩ | ⟨restart, heq⟩
  · rw [heq, lockTimedOut, if_pos hthere]
    cases kill with
    | raised error => exact ⟨rfl, Or.inr ⟨rfl, Bool.noConfusion⟩⟩
    | returned killed => cases killed <;> exact ⟨rfl, Or.inr ⟨rfl, fun _ => rfl⟩⟩
  · rw [heq]
    unfold notRunning
    rw [if_pos hthere]
    exact ⟨rfl, Or.inl ⟨rfl, rfl⟩⟩

/-- A pass that neither fails nor is answered strikes nothing and leaves everything. -/
theorem pass_of_failed {pass : Pass} (hfailing : pass.failing = false)
    (hanswered : pass.answered = false) :
    (state.pass acquireTimeout pass).1 = state ∧
      (state.pass acquireTimeout pass).2.any Act.strikes = false := by
  cases pass with
  | lockTimeout kill => cases hfailing
  | failed error => exact ⟨rfl, rfl⟩
  | checked probe restart ini account =>
    cases probe with
    | answered info => cases hanswered
    | nothing | timeout | raised => cases hfailing

/-- An answered pass sets the count back and strikes nothing. -/
theorem pass_of_answered {pass : Pass} (h : pass.answered = true) :
    (state.pass acquireTimeout pass).1.deadCount = 0 ∧
      (state.pass acquireTimeout pass).2.any Act.strikes = false := by
  cases pass with
  | lockTimeout kill | failed error => cases h
  | checked probe restart ini account =>
    cases probe with
    | answered info => exact running_spec state info ini account
    | nothing | timeout | raised => cases h

/-- What strikes nothing does not restart. -/
theorem restarts_of_strikes (h : done.strikes = false) : done.restarts = false := by
  rw [Done.restarts, List.contains_eq_any_beq, ← Bool.not_eq_true, List.any_eq_true]
  rintro ⟨act, hact, heq⟩
  have hnot := List.any_eq_false.mp h act hact
  rw [← beq_iff_eq.mp heq] at hnot
  exact hnot rfl

/-! ### Every run -/

/-- The count is the number of failures since the last answer or restart, but for those that a kill
has followed: after a kill four are left. -/
def Counted (s : System) : Prop :=
  s.state.ended = false →
    s.state.deadCount = min (failures s.history) (deadChecksBeforeRestart - 1)

theorem step_eq_some {pass : Pass} (h : s.step acquireTimeout pass = some s') :
    s.state.ended = false ∧ s' = ⟨(s.state.pass acquireTimeout pass).1,
      ⟨pass, (s.state.pass acquireTimeout pass).2⟩ :: s.history⟩ := by
  rw [System.step] at h
  split at h
  next => cases h
  next hended =>
    obtain rfl := Option.some.inj h
    exact ⟨Bool.eq_false_iff.mpr hended, rfl⟩

theorem Counted.step {pass : Pass} (hs : Counted s) (h : s.step acquireTimeout pass = some s') :
    Counted s' := by
  obtain ⟨hended, rfl⟩ := step_eq_some h
  have hcount := hs hended
  intro hrunning
  dsimp only at hrunning ⊢
  have hfour : deadChecksBeforeRestart - 1 = 4 := rfl
  rw [hfour] at hcount ⊢
  by_cases hanswered : pass.answered = true
  · rw [failures_cons_of_answered (by rw [hanswered, Bool.true_or]), (pass_of_answered hanswered).1]
    omega
  rw [Bool.not_eq_true] at hanswered
  by_cases hfailing : pass.failing = true
  · by_cases hfive : deadChecksBeforeRestart ≤ s.state.deadCount + 1
    · obtain ⟨-, ⟨hrestart, hzero⟩ | ⟨hkill, hleft⟩⟩ :=
        @pass_of_failing_of_le acquireTimeout _ _ hfailing hfive
      · -- a restart begins a new count
        rw [failures_cons_of_answered (by rw [Done.restarts, hrestart, Bool.or_true]), hzero]
        omega
      · -- a kill does not, and the count stays where it was
        rw [failures_cons (by rw [Done.restarts, hkill, hanswered, Bool.or_false]),
          hleft hrunning, if_pos hfailing, hfour]
        change 5 ≤ _ at hfive
        omega
    · obtain ⟨hquiet, hnext⟩ := @pass_of_failing_of_lt acquireTimeout _ _ hfailing
        (not_le.mp hfive)
      have hrestarts := @restarts_of_strikes ⟨pass, _⟩ hquiet
      rw [failures_cons (by rw [hrestarts, hanswered, Bool.or_false]), hnext, if_pos hfailing]
      change ¬ 5 ≤ _ at hfive
      omega
  · rw [Bool.not_eq_true] at hfailing
    obtain ⟨hsame, hquiet⟩ :=
      @pass_of_failed acquireTimeout s.state _ hfailing hanswered
    have hrestarts := @restarts_of_strikes ⟨pass, _⟩ hquiet
    rw [failures_cons (by rw [hrestarts, hanswered, Bool.or_false]), hsame, hcount, hfailing]
    rfl

theorem counted_of_run (h : Run (System.step acquireTimeout) .start s) : Counted s :=
  h.invariant (fun _ _ _ hs _ hstep => hs.step hstep) fun _ => rfl

/-- In every run: a pass restarts or kills the terminal exactly when it is a failing one, and with
it at least five have failed since the last that was answered or restarted the terminal. A kill does
not begin a new count, so the failing passes after it are among them. A pass that fails otherwise
does neither, and leaves the count. -/
theorem strikes_iff (acquireTimeout : ℕ) (s s' : System) (pass : Pass)
    (h : Run (System.step acquireTimeout) .start s)
    (hstep : s.step acquireTimeout pass = some s') :
    ∃ done, done.pass = pass ∧ s'.history = done :: s.history ∧
      (done.strikes = true ↔
        pass.failing = true ∧ deadChecksBeforeRestart ≤ failures s.history + 1) ∧
      (pass.failing = false → pass.answered = false → s'.state = s.state) := by
  obtain ⟨hended, rfl⟩ := step_eq_some hstep
  have hcount := counted_of_run h hended
  have hfive : deadChecksBeforeRestart = 5 := rfl
  refine ⟨⟨pass, _⟩, rfl, rfl, ⟨fun hstrikes => ?_, fun ⟨hfailing, hmany⟩ => ?_⟩,
    fun hfailing hanswered => (pass_of_failed hfailing hanswered).1⟩
  · -- nothing else strikes
    rw [Done.strikes] at hstrikes
    have hfailing : pass.failing = true := by
      by_contra hnot
      rw [Bool.not_eq_true] at hnot
      by_cases hanswered : pass.answered = true
      · rw [(pass_of_answered hanswered).2] at hstrikes
        cases hstrikes
      · rw [(pass_of_failed hnot (Bool.eq_false_iff.mpr hanswered)).2] at hstrikes
        cases hstrikes
    refine ⟨hfailing, ?_⟩
    by_contra hfew
    rw [(pass_of_failing_of_lt hfailing (by omega)).1] at hstrikes
    cases hstrikes
  · exact (pass_of_failing_of_le hfailing (by omega)).1

/-- Five lock time-outs, of which the last kills the terminal. -/
theorem strikes_iff_lockTimeout : ∃ s s' : System,
    (∃ done, done.pass = .lockTimeout (.returned true) ∧ s'.history = done :: s.history ∧
      (done.strikes = true ↔ (Pass.lockTimeout (.returned true)).failing = true ∧
        deadChecksBeforeRestart ≤ failures s.history + 1) ∧
      ((Pass.lockTimeout (.returned true)).failing = false →
        (Pass.lockTimeout (.returned true)).answered = false → s'.state = s.state)) ∧
    s'.history.map Done.strikes = [true, false, false, false, false] := by
  have hrun : ∃ s, Run (System.step 60) .start s ∧
      ((s.step 60 (.lockTimeout (.returned true))).any fun s' =>
        s'.history.map Done.strikes == [true, false, false, false, false]) = true :=
    exists_run_of_exec
      (show (exec (System.step 60) .start
        (List.replicate 4 (.lockTimeout (.returned true)))).any _ = true by decide +kernel)
  obtain ⟨s, hrun, hlast⟩ := hrun
  obtain ⟨s', hstep, hacts⟩ := (Option.any_eq_true _ _).mp hlast
  exact ⟨s, s', strikes_iff 60 s s' _ hrun hstep, beq_iff_eq.mp hacts⟩

end Sdk.Monitor

import Mathlib.Data.List.Basic

/-!
# When the watchdog recreates a VM

The watchdog polls the health of a VM and keeps one record of it, on disk between two passes.
`decide` makes the next action of the record and the poll. `decide_decides` says once what an answer
can be: quiet, a restart with all that was asked before it, or a reset of the budget.
-/

namespace Watchdog

/-! ### The policy -/

/-- The numbers of the policy. Reading the environment refuses smaller ones and an empty list. -/
structure Policy where
  minFailingStreak : Int
  backoffAttempts : List Int
  maxAttempts : Int
  resetSeconds : Int
  one_le_minFailingStreak : 1 ≤ minFailingStreak
  one_le_backoff : ∀ delay ∈ backoffAttempts, 1 ≤ delay
  backoff_ne_nil : backoffAttempts ≠ []
  one_le_maxAttempts : 1 ≤ maxAttempts
  one_le_resetSeconds : 1 ≤ resetSeconds

/-- What is kept of one VM. A time of 0 stands for none. -/
structure Record where
  lastRestart : Int
  attempts : Int
  healthySince : Int
  deriving DecidableEq

/-- The record of a VM that nothing is known of. -/
def Record.fresh : Record := ⟨0, 0, 0⟩

/-- What the state file of a VM is to a reader: absent, text that is no JSON, or a record. -/
inductive StateFile where
  | absent
  | corrupt
  | holds (record : Record)
  deriving DecidableEq

/-- The record of the state file, or a fresh one. -/
def loadState : StateFile → Record
  | .absent => Record.fresh
  | .corrupt => Record.fresh
  | .holds record => record

/-- The state file is put in place of the last one, whole. -/
def saveState (record : Record) : StateFile := .holds record

@[simp]
theorem loadState_saveState (record : Record) : loadState (saveState record) = record := rfl

/-- What Docker says of a container at one poll. -/
structure Observation where
  status : String
  failingStreak : Int
  now : Int
  deriving DecidableEq

/-- The next action. -/
inductive Action where
  | wait
  | restart
  | giveUp
  deriving DecidableEq

/-- Why an action was chosen. -/
inductive Reason where
  | budgetReset
  | health (status : String)
  | shortStreak (failing least : Int)
  | exhausted (attempts most : Int)
  | backoff (elapsed delay attempt : Int)
  | due (failing least attempt : Int)
  deriving DecidableEq

/-- The text of a reason. -/
def Reason.text : Reason → String
  | .budgetReset => "healthy long enough - attempt budget reset"
  | .health status => s!"health={status}"
  | .shortStreak failing least => s!"unhealthy streak {failing} < {least}"
  | .exhausted attempts most => s!"attempts {attempts} >= MAX_ATTEMPTS {most}"
  | .backoff elapsed delay attempt => s!"backoff {elapsed}s < {delay}s (attempt {attempt})"
  | .due failing least attempt => s!"unhealthy streak {failing} >= {least} (attempt {attempt})"

/-- The delay before the restart that follows `attempts` restarts. -/
def Policy.backoffAfter (p : Policy) (attempts : Int) : Int :=
  p.backoffAttempts.get
    ⟨(max 0 (min (attempts - 1) (p.backoffAttempts.length - 1))).toNat, by
      have hpos := List.length_pos_iff.mpr p.backoff_ne_nil
      omega⟩

/-- The next action for a VM, with its reason and the record as it is left. -/
def decide (p : Policy) (state : Record) (o : Observation) : Action × Reason × Record :=
  -- Any poll but a healthy one ends the healthy run.
  let state := if o.status = "healthy" then state else { state with healthySince := 0 }
  if o.status = "unhealthy" then
    if o.failingStreak < p.minFailingStreak then
      (.wait, .shortStreak o.failingStreak p.minFailingStreak, state)
    else if p.maxAttempts ≤ state.attempts then
      (.giveUp, .exhausted state.attempts p.maxAttempts, state)
    else
      let delay := if state.attempts ≠ 0 then p.backoffAfter state.attempts else 0
      if state.lastRestart ≠ 0 ∧ o.now - state.lastRestart < delay then
        (.wait, .backoff (o.now - state.lastRestart) delay (state.attempts + 1), state)
      else
        (.restart, .due o.failingStreak p.minFailingStreak (state.attempts + 1),
          ⟨o.now, state.attempts + 1, 0⟩)
  else if o.status = "healthy" then
    let state := if state.healthySince = 0 then { state with healthySince := o.now } else state
    if p.resetSeconds ≤ o.now - state.healthySince then
      (.wait, .budgetReset, { state with attempts := 0, lastRestart := 0 })
    else (.wait, .health o.status, state)
  else (.wait, .health o.status, state)

/-- The start of the healthy run that a healthy poll belongs to. -/
def Record.sinceAt (state : Record) (o : Observation) : Int :=
  if state.healthySince = 0 then o.now else state.healthySince

/-- What an answer can be: `decide_decides` says that there is no other. -/
inductive Decides (p : Policy) (state : Record) (o : Observation) :
    Action × Reason × Record → Prop
  /-- No restart and no reset: only the healthy run is brought up to date. -/
  | quiet {action : Action} {reason : Reason} (haction : action ≠ .restart)
      (hreason : reason ≠ .budgetReset) :
      Decides p state o (action, reason,
        { state with healthySince := if o.status = "healthy" then state.sinceAt o else 0 })
  /-- A restart, with all that was asked before it. -/
  | restart (hstatus : o.status = "unhealthy") (hstreak : p.minFailingStreak ≤ o.failingStreak)
      (hattempts : state.attempts < p.maxAttempts)
      (hdelay : state.attempts ≠ 0 → state.lastRestart ≠ 0 →
        p.backoffAfter state.attempts ≤ o.now - state.lastRestart) :
      Decides p state o (.restart, .due o.failingStreak p.minFailingStreak (state.attempts + 1),
        ⟨o.now, state.attempts + 1, 0⟩)
  /-- A reset of the budget. -/
  | reset (hstatus : o.status = "healthy") (hheld : p.resetSeconds ≤ o.now - state.sinceAt o) :
      Decides p state o (.wait, .budgetReset, ⟨0, 0, state.sinceAt o⟩)

theorem decide_decides (p : Policy) (state : Record) (o : Observation) :
    Decides p state o (decide p state o) := by
  have hquiet : ∀ {action : Action} {reason : Reason} (since : Int), action ≠ .restart →
      reason ≠ .budgetReset → (since = if o.status = "healthy" then state.sinceAt o else 0) →
      Decides p state o (action, reason, { state with healthySince := since }) := by
    rintro action reason since haction hreason rfl
    exact .quiet haction hreason
  by_cases hhealthy : o.status = "healthy"
  · have hnot : o.status ≠ "unhealthy" := fun h => absurd (hhealthy.symm.trans h) (by decide)
    have hsince : (if state.healthySince = 0 then { state with healthySince := o.now } else state) =
        { state with healthySince := state.sinceAt o } := by
      rw [Record.sinceAt]
      split <;> rfl
    simp only [decide, if_neg hnot, if_pos hhealthy, hsince]
    split
    next hheld => exact .reset hhealthy hheld
    next => exact hquiet _ (by decide) (by simp) (if_pos hhealthy).symm
  · have hzero : (0 : Int) = if o.status = "healthy" then state.sinceAt o else 0 :=
      (if_neg hhealthy).symm
    simp only [decide, if_neg hhealthy]
    split
    next hunhealthy =>
      by_cases hstreak : o.failingStreak < p.minFailingStreak
      · rw [if_pos hstreak]
        exact hquiet 0 (by decide) (by simp) hzero
      rw [if_neg hstreak]
      by_cases hattempts : p.maxAttempts ≤ state.attempts
      · rw [if_pos hattempts]
        exact hquiet 0 (by decide) (by simp) hzero
      rw [if_neg hattempts]
      by_cases hdelay : state.lastRestart ≠ 0 ∧ o.now - state.lastRestart <
          if state.attempts ≠ 0 then p.backoffAfter state.attempts else 0
      · rw [if_pos hdelay]
        exact hquiet 0 (by decide) (by simp) hzero
      rw [if_neg hdelay]
      refine .restart hunhealthy (by omega) (by omega) fun hne hlast => ?_
      rw [if_pos hne, not_and] at hdelay
      have hnot := hdelay hlast
      omega
    next => exact hquiet 0 (by decide) (by simp) hzero

end Watchdog

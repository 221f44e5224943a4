import Mathlib.Data.List.TakeWhile
import Mt5HttpApi.Lib.Transition
import Mt5HttpApi.Watchdog.Decide

/-!
# The watchdog's record over a whole run

The record is a summary of the answers given so far: the restarts since the last reset of the
budget, the time of the last one, and the start of the healthy run that still lasts
(`Record.ofLog`). `decide_ofLog` says that one answer keeps it so, and the bounds on restarts and
resets are read off the log of answers (`recovery_policy`).
-/

namespace Watchdog

open Transition

/-! ### Answers, and the record as their summary -/

/-- A poll with the answer it got. -/
structure Answer where
  poll : Observation
  action : Action
  reason : Reason
  deriving DecidableEq

namespace Answer

/-- The VM was healthy. -/
def healthy (a : Answer) : Bool := a.poll.status = "healthy"

/-- The VM is recreated. -/
def restarts (a : Answer) : Bool := a.action = .restart

/-- The attempt budget is reset. -/
def resets (a : Answer) : Bool := a.reason = .budgetReset

end Answer

/-- The restarts since the last reset. Answers are listed from the newest to the oldest. -/
def spent (log : List Answer) : List Answer :=
  (log.takeWhile fun a => !a.resets).filter Answer.restarts

/-- The healthy run that still lasts. -/
def healthyRun (log : List Answer) : List Answer := log.takeWhile Answer.healthy

/-- The time of an answer, or 0 if there is none. -/
def timeOf (a : Option Answer) : Int := (a.map fun a => a.poll.now).getD 0

/-- The record that belongs to a log. -/
def Record.ofLog (log : List Answer) : Record where
  lastRestart := timeOf (spent log).head?
  attempts := (spent log).length
  healthySince := timeOf (healthyRun log).getLast?

theorem Record.ofLog_def (log : List Answer) : Record.ofLog log =
    ⟨timeOf (spent log).head?, (spent log).length, timeOf (healthyRun log).getLast?⟩ := rfl

variable {log older : List Answer} {a b : Answer} {o : Observation} {p : Policy}

@[simp]
theorem timeOf_none : timeOf none = 0 := rfl

@[simp]
theorem timeOf_some : timeOf (some a) = a.poll.now := rfl

theorem spent_cons : spent (a :: log) =
    if a.resets then [] else if a.restarts then a :: spent log else spent log := by
  rw [spent, List.takeWhile_cons]
  by_cases hreset : a.resets
  · simp [hreset]
  · simp only [hreset, Bool.not_false, if_true, List.filter_cons]
    rfl

theorem healthyRun_cons :
    healthyRun (a :: log) = if a.healthy then a :: healthyRun log else [] := by
  rw [healthyRun, List.takeWhile_cons]
  rfl

theorem mem_of_mem_spent (h : a ∈ spent log) : a ∈ log :=
  (List.takeWhile_prefix _).subset (List.mem_filter.mp h).1

theorem mem_of_mem_healthyRun (h : a ∈ healthyRun log) : a ∈ log :=
  (List.takeWhile_prefix _).subset h

/-- Where every poll has a positive time, 0 stands for no answer. -/
theorem timeOf_eq_zero_iff {a : Option Answer} (hpos : ∀ b ∈ a, 0 < b.poll.now) :
    timeOf a = 0 ↔ a = none := by
  cases a with
  | none => exact iff_of_true rfl rfl
  | some b =>
    have hb : 0 < b.poll.now := hpos b rfl
    refine iff_of_false ?_ (Option.some_ne_none b)
    rw [timeOf_some]
    omega

/-- The oldest answer of the healthy run. -/
theorem timeOf_getLast_healthyRun_cons (h : a.healthy = true) :
    timeOf (healthyRun (a :: log)).getLast? =
      if healthyRun log = [] then a.poll.now else timeOf (healthyRun log).getLast? := by
  rw [healthyRun_cons, if_pos h, List.getLast?_cons]
  cases hrun : (healthyRun log).getLast? with
  | none => rw [if_pos (List.getLast?_eq_none_iff.mp hrun)]; rfl
  | some b =>
    rw [if_neg fun hnil => Option.some_ne_none b (hrun ▸ List.getLast?_eq_none_iff.mpr hnil)]
    rfl

/-- The answer to a poll. -/
def answer (p : Policy) (state : Record) (o : Observation) : Answer :=
  ⟨o, (decide p state o).1, (decide p state o).2.1⟩

/-- Where the healthy run starts that a healthy answer is put to. -/
theorem timeOf_getLast_healthyRun (hlog : ∀ b ∈ log, 0 < b.poll.now) (h : a.healthy = true) :
    timeOf (healthyRun (a :: log)).getLast? = (Record.ofLog log).sinceAt a.poll := by
  have hzero : (Record.ofLog log).healthySince = 0 ↔ healthyRun log = [] := by
    rw [Record.ofLog, timeOf_eq_zero_iff fun b hb =>
      hlog b (mem_of_mem_healthyRun (List.mem_of_getLast? hb)), List.getLast?_eq_none_iff]
  rw [timeOf_getLast_healthyRun_cons h, Record.sinceAt]
  simp only [hzero]
  rfl

/-- One answer keeps the record a summary of the log. -/
theorem decide_ofLog (hlog : ∀ b ∈ log, 0 < b.poll.now) :
    (decide p (Record.ofLog log) o).2.2 =
      Record.ofLog (answer p (Record.ofLog log) o :: log) := by
  have hdecides := decide_decides p (Record.ofLog log) o
  rw [answer]
  generalize decide p (Record.ofLog log) o = answered at hdecides ⊢
  cases hdecides with
  | @quiet action reason haction hreason =>
    have hspent : spent (⟨o, action, reason⟩ :: log) = spent log := by
      rw [spent_cons, if_neg (by simpa [Answer.resets] using hreason),
        if_neg (by simpa [Answer.restarts] using haction)]
    by_cases hhealthy : o.status = "healthy"
    · rw [if_pos hhealthy, Record.ofLog_def (_ :: log), hspent,
        timeOf_getLast_healthyRun hlog (decide_eq_true hhealthy)]
      rfl
    · rw [if_neg hhealthy, Record.ofLog_def (_ :: log), hspent, healthyRun_cons,
        if_neg (by simpa [Answer.healthy] using hhealthy)]
      rfl
  | restart hstatus hstreak hattempts hdelay =>
    rw [Record.ofLog_def (_ :: log), healthyRun_cons, if_neg (by simp [Answer.healthy, hstatus]),
      spent_cons, if_neg (by simp [Answer.resets]), if_pos (by simp [Answer.restarts])]
    rfl
  | reset hstatus hheld =>
    rw [Record.ofLog_def (_ :: log),
      timeOf_getLast_healthyRun hlog (by simp [Answer.healthy, hstatus]),
      spent_cons, if_pos (by simp [Answer.resets])]
    rfl

/-! ### What the log of a run is -/

/-- Every answer is the one that `decide` gives to the record of the answers before it, at a
positive time. -/
def Answered (p : Policy) : List Answer → Prop
  | [] => True
  | a :: older => a = answer p (Record.ofLog older) a.poll ∧ 0 < a.poll.now ∧ Answered p older

theorem Answered.pos (h : Answered p log) : ∀ b ∈ log, 0 < b.poll.now := by
  induction log with
  | nil => simp
  | cons a older ih =>
    rintro b (_ | ⟨_, hb⟩)
    · exact h.2.1
    · exact ih h.2.2 b hb

theorem Answered.of_append {newer : List Answer} (h : Answered p (newer ++ older)) :
    Answered p older := by
  induction newer with
  | nil => exact h
  | cons a newer ih => exact ih h.2.2

/-- An answer of the log as an answer of `decide`. -/
theorem Answered.decides (h : Answered p (a :: older)) :
    ∃ after, Decides p (Record.ofLog older) a.poll (a.action, a.reason, after) := by
  have hdecides := decide_decides p (Record.ofLog older) a.poll
  obtain ⟨haction, hreason⟩ : a.action = (decide p (Record.ofLog older) a.poll).1 ∧
      a.reason = (decide p (Record.ofLog older) a.poll).2.1 :=
    ⟨congrArg Answer.action h.1, congrArg Answer.reason h.1⟩
  rw [haction, hreason]
  exact ⟨_, hdecides⟩

/-- A restart comes of an unhealthy poll with a long streak, has attempts left and waited out the
delay. -/
theorem Answered.restart (h : Answered p (a :: older)) (hrestart : a.restarts = true) :
    a.poll.status = "unhealthy" ∧ p.minFailingStreak ≤ a.poll.failingStreak ∧
      a.resets = false ∧ ((spent older).length : Int) < p.maxAttempts ∧
      ∀ prev rest, spent older = prev :: rest →
        p.backoffAfter (spent older).length ≤ a.poll.now - prev.poll.now := by
  obtain ⟨after, hdecides⟩ := h.decides
  have haction : a.action = .restart := of_decide_eq_true hrestart
  have hpos := h.2.2.pos
  generalize hreason : a.reason = reason at hdecides
  rw [haction] at hdecides
  cases hdecides with
  | quiet hne => exact absurd rfl hne
  | restart hstatus hstreak hattempts hdelay =>
    refine ⟨hstatus, hstreak, by simp [Answer.resets, hreason], hattempts,
      fun prev rest hspent => ?_⟩
    have hlast : (Record.ofLog older).lastRestart = prev.poll.now := by
      rw [Record.ofLog, hspent]
      rfl
    have hprev : 0 < prev.poll.now := hpos prev (mem_of_mem_spent (by rw [hspent]; simp))
    have hattempts : (Record.ofLog older).attempts ≠ 0 := by
      rw [Record.ofLog_def, hspent]
      show ((rest.length + 1 : Nat) : Int) ≠ 0
      omega
    have hne : (Record.ofLog older).lastRestart ≠ 0 := by
      rw [hlast]
      omega
    rw [← hlast]
    exact hdelay hattempts hne

/-- A reset ends a healthy run that is long enough. -/
theorem Answered.reset (h : Answered p (a :: older)) (hreset : a.resets = true) :
    a.healthy = true ∧ p.resetSeconds ≤ a.poll.now - timeOf (healthyRun (a :: older)).getLast? := by
  obtain ⟨after, hdecides⟩ := h.decides
  have hreason : a.reason = .budgetReset := of_decide_eq_true hreset
  generalize a.action = action at hdecides
  rw [hreason] at hdecides
  cases hdecides with
  | quiet _ hne => exact absurd rfl hne
  | reset hstatus hheld =>
    have hhealthy : a.healthy = true := decide_eq_true hstatus
    rw [timeOf_getLast_healthyRun h.2.2.pos hhealthy]
    exact ⟨hhealthy, hheld⟩

/-- The budget is never exceeded. -/
theorem Answered.spent_le (h : Answered p log) : ((spent log).length : Int) ≤ p.maxAttempts := by
  induction log with
  | nil =>
    have hmax := p.one_le_maxAttempts
    rw [spent, List.takeWhile_nil, List.filter_nil, List.length_nil]
    omega
  | cons a older ih =>
    rw [spent_cons]
    split
    next =>
      have hmax := p.one_le_maxAttempts
      rw [List.length_nil]
      omega
    next =>
      split
      next hrestart =>
        have hlt := (h.restart hrestart).2.2.2.1
        rw [List.length_cons]
        omega
      next => exact ih h.2.2

/-- Without a reset in them, further answers add their restarts to those spent. -/
theorem spent_append {newer : List Answer} (h : ∀ a ∈ newer, a.resets = false) :
    spent (newer ++ older) = newer.filter Answer.restarts ++ spent older := by
  induction newer with
  | nil => rfl
  | cons a newer ih =>
    rw [List.cons_append, spent_cons, if_neg (by simp [h a]), List.filter_cons,
      ih fun b hb => h b (List.mem_cons_of_mem _ hb)]
    split <;> rfl

/-- The delay after `k` restarts, as an entry of the list. -/
theorem Policy.getElem?_backoffAttempts (p : Policy) {k : Nat} (hk : 0 < k) :
    p.backoffAttempts[min (k - 1) (p.backoffAttempts.length - 1)]? = some (p.backoffAfter k) := by
  have hpos := List.length_pos_iff.mpr p.backoff_ne_nil
  have hindex : (max 0 (min ((k : Int) - 1) (p.backoffAttempts.length - 1))).toNat =
      min (k - 1) (p.backoffAttempts.length - 1) := by
    omega
  simp only [Policy.backoffAfter, List.get_eq_getElem, hindex]
  exact List.getElem?_eq_getElem (by omega)

/-! ### The watchdog over a run -/

/-- The watchdog of one VM: the record at hand, the state file and the answers given so far. -/
structure Watch where
  record : Record
  file : StateFile
  log : List Answer

/-- What happens to it: a poll, or the record is saved and loaded again. -/
inductive Event where
  | poll (o : Observation)
  | saveAndLoad

/-- A watchdog with a fresh record. -/
def Watch.fresh (file : StateFile) : Watch := ⟨Record.fresh, file, []⟩

/-- One event. -/
def Watch.step (p : Policy) (w : Watch) : Event → Option Watch
  | .poll o =>
    some { w with record := (decide p w.record o).2.2, log := answer p w.record o :: w.log }
  | .saveAndLoad =>
    some { w with file := saveState w.record, record := loadState (saveState w.record) }

/-- The time of a poll is positive and not before the poll before it. -/
def Watch.Timely (w : Watch) : Event → Prop
  | .poll o => 0 < o.now ∧ ∀ a ∈ w.log.head?, a.poll.now ≤ o.now
  | .saveAndLoad => True

instance Watch.decidableTimely (w : Watch) : ∀ e, Decidable (w.Timely e)
  | .poll o => inferInstanceAs (Decidable (0 < o.now ∧ ∀ a ∈ w.log.head?, a.poll.now ≤ o.now))
  | .saveAndLoad => inferInstanceAs (Decidable True)

/-- The record is the summary of a log of answers of `decide`. -/
structure Watch.Inv (p : Policy) (w : Watch) : Prop where
  record_eq : w.record = Record.ofLog w.log
  answered : Answered p w.log

theorem Watch.Inv.step {w w' : Watch} {e : Event} (hw : w.Inv p) (htimely : w.Timely e)
    (h : w.step p e = some w') : w'.Inv p := by
  cases e with
  | poll o =>
    obtain rfl := Option.some.inj h
    rw [hw.record_eq]
    exact ⟨decide_ofLog hw.answered.pos, rfl, htimely.1, hw.answered⟩
  | saveAndLoad =>
    obtain rfl := Option.some.inj h
    exact ⟨hw.record_eq, hw.answered⟩

theorem Watch.inv_of_run {file : StateFile} {w : Watch}
    (h : RunOf (Watch.step p) Watch.Timely (Watch.fresh file) w) : w.Inv p :=
  h.invariant (fun _ _ _ hw htimely hstep => hw.step htimely hstep) ⟨rfl, trivial⟩

/-- **The recovery policy.** A restart answers an unhealthy poll with a streak that is long enough.
Without a reset in them, the answers hold at most `maxAttempts` restarts. The restart after the
`k`-th since the last reset comes at least the `k`-th delay later. A reset answers a healthy poll,
and the polls before it are healthy for at least `resetSeconds`. The attempts of the record are the
restarts since the last reset. -/
theorem recovery_policy {file : StateFile} {w : Watch}
    (h : RunOf (Watch.step p) Watch.Timely (Watch.fresh file) w) :
    (∀ a ∈ w.log, a.restarts = true →
      a.poll.status = "unhealthy" ∧ p.minFailingStreak ≤ a.poll.failingStreak) ∧
    (∀ newer answers older, w.log = newer ++ answers ++ older →
      (∀ a ∈ answers, a.resets = false) →
        ((answers.filter Answer.restarts).length : Int) ≤ p.maxAttempts) ∧
    (∀ newer next between prev older, w.log = newer ++ next :: (between ++ prev :: older) →
      next.restarts = true → prev.restarts = true →
      (∀ a ∈ between, a.resets = false ∧ a.restarts = false) →
        ∃ delay, p.backoffAttempts[min ((spent (prev :: older)).length - 1)
            (p.backoffAttempts.length - 1)]? = some delay ∧
          delay ≤ next.poll.now - prev.poll.now) ∧
    (∀ newer a older, w.log = newer ++ a :: older → a.resets = true →
      ∃ first run rest, a :: older = run ++ first :: rest ∧
        (∀ b ∈ run ++ [first], b.poll.status = "healthy") ∧
        p.resetSeconds ≤ a.poll.now - first.poll.now) ∧
    w.record.attempts = (spent w.log).length := by
  have hw := Watch.inv_of_run h
  have hanswered := hw.answered
  refine ⟨fun a ha hrestart => ?_, fun newer answers older hlog hreset => ?_,
    fun newer next between prev older hlog hnext hprev hbetween => ?_,
    fun newer a older hlog hreset => ?_, by rw [hw.record_eq]; rfl⟩
  · obtain ⟨newer, older, hlog⟩ := List.append_of_mem ha
    rw [hlog] at hanswered
    have hfacts := hanswered.of_append.restart hrestart
    exact ⟨hfacts.1, hfacts.2.1⟩
  · rw [hlog, List.append_assoc] at hanswered
    have hle := hanswered.of_append.spent_le
    rw [spent_append hreset, List.length_append] at hle
    omega
  · rw [hlog] at hanswered
    have hprevious : Answered p (prev :: older) := hanswered.of_append.2.2.of_append
    have hcurrent : spent (between ++ prev :: older) = prev :: spent older := by
      have hnone : between.filter Answer.restarts = [] :=
        List.filter_eq_nil_iff.mpr fun a ha => by simp [(hbetween a ha).2]
      rw [spent_append fun a ha => (hbetween a ha).1, hnone, List.nil_append, spent_cons,
        if_neg (by simp [(hprevious.restart hprev).2.2.1]), if_pos hprev]
    have hspent : spent (prev :: older) = prev :: spent older := by
      rw [spent_cons, if_neg (by simp [(hprevious.restart hprev).2.2.1]), if_pos hprev]
    have hdelay := (hanswered.of_append.restart hnext).2.2.2.2 prev _ hcurrent
    rw [hcurrent, ← hspent] at hdelay
    exact ⟨_, p.getElem?_backoffAttempts (by rw [hspent]; exact Nat.succ_pos _), hdelay⟩
  · rw [hlog] at hanswered
    obtain ⟨hhealthy, hheld⟩ := hanswered.of_append.reset hreset
    have hne : healthyRun (a :: older) ≠ [] := by
      rw [healthyRun_cons, if_pos hhealthy]
      exact List.cons_ne_nil _ _
    -- The run starts at the oldest of the answers that `takeWhile` takes.
    have hsplit : a :: older = healthyRun (a :: older) ++ (a :: older).dropWhile Answer.healthy :=
      List.takeWhile_append_dropWhile.symm
    rw [← List.dropLast_append_getLast hne, List.append_assoc] at hsplit
    refine ⟨_, _, _, hsplit, fun b hb => ?_, ?_⟩
    · rw [List.dropLast_append_getLast hne] at hb
      exact of_decide_eq_true (List.mem_takeWhile_imp (p := Answer.healthy) hb)
    · rw [List.getLast?_eq_getLast_of_ne_nil hne] at hheld
      exact hheld

/-- The policy of an environment that sets nothing. -/
def defaults : Policy where
  minFailingStreak := 10
  backoffAttempts := [300, 900, 3600]
  maxAttempts := 3
  resetSeconds := 1800
  one_le_minFailingStreak := by decide
  one_le_backoff := by decide
  backoff_ne_nil := by decide
  one_le_maxAttempts := by decide
  one_le_resetSeconds := by decide

/-- Two restarts 900 seconds apart, with a backoff in between, and a reset. -/
theorem recovery_policy_defaults : ∃ w : Watch,
    w.log.map Answer.action = [.wait, .wait, .restart, .wait, .restart] ∧
      (∀ a ∈ w.log, a.restarts = true → 10 ≤ a.poll.failingStreak) ∧
      w.record.attempts = (spent w.log).length := by
  have hexec : (execOf (Watch.step defaults) (fun w e => Decidable.decide (w.Timely e))
      (Watch.fresh .absent)
      [.poll ⟨"unhealthy", 10, 1000⟩, .saveAndLoad, .poll ⟨"unhealthy", 12, 1200⟩,
        .poll ⟨"unhealthy", 14, 1900⟩, .saveAndLoad, .poll ⟨"healthy", 0, 2500⟩,
        .poll ⟨"healthy", 0, 4300⟩]).any
      (fun w => w.log.map Answer.action == [.wait, .wait, .restart, .wait, .restart]) = true := by
    decide
  obtain ⟨w, hrun, hactions⟩ :=
    exists_runOf_of_execOf _ (fun _ _ h => of_decide_eq_true h) hexec
  obtain ⟨hrestart, -, -, -, hattempts⟩ := recovery_policy hrun
  exact ⟨w, beq_iff_eq.mp hactions, fun a ha h => (hrestart a ha h).2, hattempts⟩

end Watchdog

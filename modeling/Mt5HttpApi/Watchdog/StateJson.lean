import Mt5HttpApi.Lib.JsonDumps
import Mt5HttpApi.Watchdog.Decide

/-!
# The watchdog on a record of any shape

`load_state` asks no more of a state file than that it is JSON, so what `decide` is given may be any
value. Here `decide` is what Python makes of it, with the exceptions of wrong types. On a record of
integers it is the `decide` of the policy (`decide_of_record`), and `leaves_valid_iff` says on which
objects it leaves a valid record.
-/

namespace Watchdog

namespace Raw

open JsonLoads Utf8

/-! ### Numbers -/

/-- Floats, as far as `decide` calculates with them: `subFrom n x` is `n - x`. -/
structure Floats (F : Type) extends FloatText F where
  isZero : F → Bool
  add : F → ℤ → F
  sub : F → ℤ → F
  subFrom : ℤ → F → F
  lt : F → ℤ → Bool
  gt : F → ℤ → Bool
  ge : F → ℤ → Bool

/-- The exceptions. -/
inductive Raised
  | typeError
  | attributeError
  | keyError
  | indexError
  | recursionError
  deriving DecidableEq

/-- What `except (RuntimeError, OSError)` takes: a `RecursionError` is a `RuntimeError`. -/
def Raised.caught : Raised → Bool
  | .recursionError => true
  | _ => false

/-- A number. -/
inductive Num (F : Type)
  | int (n : ℤ)
  | float (x : F)

section Decide

variable {F : Type} (fl : Floats F)

namespace Num

def value : Num F → Value F
  | int n => .int n
  | float x => .float x

def truthy : Num F → Bool
  | int n => n ≠ 0
  | float x => !fl.isZero x

def add : Num F → ℤ → Num F
  | int n, m => int (n + m)
  | float x, m => float (fl.add x m)

def sub : Num F → ℤ → Num F
  | int n, m => int (n - m)
  | float x, m => float (fl.sub x m)

def subFrom (m : ℤ) : Num F → Num F
  | int n => int (m - n)
  | float x => float (fl.subFrom m x)

def lt : Num F → ℤ → Bool
  | int n, m => n < m
  | float x, m => fl.lt x m

def gt : Num F → ℤ → Bool
  | int n, m => m < n
  | float x, m => fl.gt x m

def ge : Num F → ℤ → Bool
  | int n, m => m ≤ n
  | float x, m => fl.ge x m

/-- `min(x, m)`: of two that are equal the first. -/
def minWith (x : Num F) (m : ℤ) : Num F := if x.gt fl m then int m else x

/-- `max(m, x)`. -/
def maxWith (m : ℤ) (x : Num F) : Num F := if x.gt fl m then x else int m

end Num

/-- An operand of arithmetic. A bool is an integer. -/
def number : Value F → Except Raised (Num F)
  | .int n => .ok (.int n)
  | .bool b => .ok (.int (if b then 1 else 0))
  | .float x => .ok (.float x)
  | _ => .error .typeError

/-- `bool` of a value. -/
def truthy : Value F → Bool
  | .null => false
  | .bool b => b
  | .int n => n ≠ 0
  | .float x => !fl.isZero x
  | .str s => !s.isEmpty
  | .arr items => !items.isEmpty
  | .obj fields => !fields.isEmpty

/-! ### The next action -/

/-- `state.get(name)`. -/
def get (state : Value F) (name : String) : Except Raised (Option (Value F)) :=
  match state with
  | .obj fields => .ok (Dict.get fields (ofString name))
  | _ => .error .attributeError

/-- `state[name]`. -/
def getItem (state : Value F) (name : String) : Except Raised (Value F) :=
  match state with
  | .obj fields =>
    match Dict.get fields (ofString name) with
    | some v => .ok v
    | none => .error .keyError
  | _ => .error .typeError

/-- `state[name] = v`. -/
def setItem (state : Value F) (name : String) (v : Value F) : Except Raised (Value F) :=
  match state with
  | .obj fields => .ok (.obj (Dict.set fields (ofString name) v))
  | _ => .error .typeError

/-- The delay before the next restart. -/
def delayAfter (p : Policy) (attempts : Num F) : Except Raised ℤ :=
  let index := ((attempts.sub fl 1).minWith fl (p.backoffAttempts.length - 1)).maxWith fl 0
  if attempts.truthy fl then
    match index with
    | .int n =>
      match p.backoffAttempts[n.toNat]? with
      | some delay => .ok delay
      | none => .error .indexError
    | .float _ => .error .typeError
  else .ok 0

/-- `last_restart and (now - last_restart) < delay`. -/
def backsOff (lastRestart : Value F) (now delay : ℤ) : Except Raised Bool :=
  if truthy fl lastRestart then do
    let last ← number lastRestart
    .ok ((last.subFrom fl now).lt fl delay)
  else .ok false

/-- A healthy run starts, unless there is one. -/
def startRun (state : Value F) (now : ℤ) : Except Raised (Value F) := do
  let since ← get state "healthy_since"
  if since.any (truthy fl) then .ok state else setItem state "healthy_since" (.int now)

/-- Any poll but a healthy one ends the healthy run. -/
def endRun (state : Value F) (status : String) : Except Raised (Value F) :=
  if status ≠ "healthy" then setItem state "healthy_since" (.int 0) else .ok state

/-- The next action for a VM that is healthy. -/
def decideHealthy (p : Policy) (state : Value F) (now : ℤ) : Except Raised (Action × Value F) := do
  let state ← startRun fl state now
  let since ← getItem state "healthy_since"
  let since ← number since
  if (since.subFrom fl now).ge fl p.resetSeconds then
    let state ← setItem state "attempts" (.int 0)
    let state ← setItem state "last_restart" (.int 0)
    .ok (.wait, state)
  else .ok (.wait, state)

/-- The next action for a VM that is unhealthy past the streak. -/
def decideUnhealthy (p : Policy) (state : Value F) (now : ℤ) :
    Except Raised (Action × Value F) := do
  let attempts ← get state "attempts"
  let attempts ← number (attempts.getD (.int 0))
  if attempts.ge fl p.maxAttempts then .ok (.giveUp, state)
  else
    let lastRestart ← get state "last_restart"
    let delay ← delayAfter fl p attempts
    let backing ← backsOff fl (lastRestart.getD (.int 0)) now delay
    if backing then .ok (.wait, state)
    else
      let state ← setItem state "attempts" (attempts.add fl 1).value
      let state ← setItem state "last_restart" (.int now)
      let state ← setItem state "healthy_since" (.int 0)
      .ok (.restart, state)

/-- The next action for a VM, and the record as it is left. -/
def decide (p : Policy) (state : Value F) (o : Observation) :
    Except Raised (Action × Value F) := do
  let state ← endRun state o.status
  if o.status ≠ "unhealthy" then
    if o.status = "healthy" then decideHealthy fl p state o.now else .ok (.wait, state)
  else if o.failingStreak < p.minFailingStreak then .ok (.wait, state)
  else decideUnhealthy fl p state o.now

/-! ### Records of integers -/

/-- The integer of a field, 0 if it is not there. -/
def int? (field : Option (Value F)) : Option ℤ :=
  match number (field.getD (.int 0)) with
  | .ok (.int n) => some n
  | _ => none

/-- The record of an object whose fields are integers. -/
def record? : Value F → Option Record
  | .obj fields => do
    let lastRestart ← int? (Dict.get fields (ofString "last_restart"))
    let attempts ← int? (Dict.get fields (ofString "attempts"))
    let healthySince ← int? (Dict.get fields (ofString "healthy_since"))
    some ⟨lastRestart, attempts, healthySince⟩
  | _ => none

/-- A valid record: integers, and no negative number of attempts. -/
def Valid (state : Value F) : Prop := ∃ r, record? state = some r ∧ 0 ≤ r.attempts

/-- The delay after `n` restarts. -/
def delayFor (p : Policy) (n : ℤ) : ℤ := if n ≠ 0 then p.backoffAfter n else 0

/-- What a healthy run is taken to have started at. -/
def sinceOf (field : Option (Value F)) (now : ℤ) : Value F :=
  (field.filter (truthy fl)).getD (.int now)

section Copes

variable (p : Policy) (fields : List (List CodePoint × Value F))

/-- The attempts and the last restart are integers, the attempts not negative. -/
def Counted : Prop :=
  (∃ n, int? (Dict.get fields (ofString "attempts")) = some n ∧ 0 ≤ n) ∧
    ∃ n, int? (Dict.get fields (ofString "last_restart")) = some n

/-- The record of a healthy VM: a reset of the budget puts integers where others may have been. -/
def CopesHealthy (now : ℤ) : Prop :=
  ∃ n, int? (some (sinceOf fl (Dict.get fields (ofString "healthy_since")) now)) = some n ∧
    (p.resetSeconds ≤ now - n ∨ Counted fields)

/-- The record of a VM that is unhealthy past the streak: so does a restart. -/
def CopesUnhealthy (now : ℤ) : Prop :=
  ∃ n, int? (Dict.get fields (ofString "attempts")) = some n ∧
    if p.maxAttempts ≤ n then Counted fields
    else
      match backsOff fl ((Dict.get fields (ofString "last_restart")).getD (.int 0)) now
          (delayFor p n) with
      | .ok true => Counted fields
      | .ok false => -1 ≤ n
      | .error _ => False

/-- `decide` copes with the record of these fields: it raises nothing and leaves a valid record. -/
def Copes (o : Observation) : Prop :=
  if o.status = "healthy" then CopesHealthy fl p fields o.now
  else if o.status = "unhealthy" ∧ p.minFailingStreak ≤ o.failingStreak then
    CopesUnhealthy fl p fields o.now
  else Counted fields

end Copes

variable {fl} {p : Policy} {fields : List (List CodePoint × Value F)} {o : Observation}
  {state : Value F} {action : Action} {now : ℤ}

@[simp]
theorem get_obj (name : String) :
    get (.obj fields) name = .ok (Dict.get fields (ofString name)) := rfl

@[simp]
theorem setItem_obj (name : String) (v : Value F) :
    setItem (.obj fields) name v = .ok (.obj (Dict.set fields (ofString name) v)) := rfl

theorem ok_bind {ε α β : Type} (a : α) (f : α → Except ε β) : (Except.ok a >>= f) = f a := rfl

theorem minWith_int (n m : ℤ) : (Num.int n).minWith fl m = .int (min n m) := by
  rw [Num.minWith]
  simp only [Num.gt, decide_eq_true_eq]
  split
  next => rw [min_eq_right (by omega)]
  next => rw [min_eq_left (by omega)]

theorem maxWith_int (n m : ℤ) : (Num.int n).maxWith fl m = .int (max m n) := by
  rw [Num.maxWith]
  simp only [Num.gt, decide_eq_true_eq]
  split
  next => rw [max_eq_right (by omega)]
  next => rw [max_eq_left (by omega)]

/-- Of integers the delay is that of the policy. -/
theorem delayAfter_int (n : ℤ) : delayAfter fl p (.int n) = .ok (delayFor p n) := by
  have hpos := List.length_pos_iff.mpr p.backoff_ne_nil
  rw [delayAfter, delayFor]
  simp only [Num.sub, minWith_int, maxWith_int, Num.truthy, decide_eq_true_eq]
  split
  next => rw [List.getElem?_eq_getElem (by omega), Policy.backoffAfter, List.get_eq_getElem]
  next => rfl

/-- The fields with the start of the healthy run among them. -/
def started (fl : Floats F) (fields : List (List CodePoint × Value F)) (now : ℤ) :
    List (List CodePoint × Value F) :=
  if (Dict.get fields (ofString "healthy_since")).any (truthy fl) then fields
  else Dict.set fields (ofString "healthy_since") (.int now)

theorem get_started (key : List CodePoint) : Dict.get (started fl fields now) key =
    if key = ofString "healthy_since" then
      some (sinceOf fl (Dict.get fields (ofString "healthy_since")) now)
    else Dict.get fields key := by
  rw [started, sinceOf]
  cases hsince : Dict.get fields (ofString "healthy_since") with
  | none =>
    rw [Option.any_none, if_neg (by simp), Dict.get_set]
    rfl
  | some v =>
    cases htruthy : truthy fl v with
    | false =>
      rw [Option.any_some, htruthy, if_neg (by simp), Dict.get_set,
        Option.filter_some, htruthy]
      rfl
    | true =>
      rw [Option.any_some, htruthy, if_pos rfl, Option.filter_some, htruthy]
      split
      next hkey => rw [hkey, hsince]; rfl
      next => rfl

theorem decideHealthy_obj : decideHealthy fl p (.obj fields) now =
    (number (sinceOf fl (Dict.get fields (ofString "healthy_since")) now)).map fun since =>
      (.wait, .obj (if (since.subFrom fl now).ge fl p.resetSeconds then
        Dict.set (Dict.set (started fl fields now) (ofString "attempts") (.int 0))
          (ofString "last_restart") (.int 0)
        else started fl fields now)) := by
  have hstart : startRun fl (.obj fields) now = .ok (.obj (started fl fields now)) := by
    rw [startRun, get_obj, ok_bind, started]
    split <;> rfl
  have hitem : getItem (.obj (started fl fields now)) "healthy_since" =
      .ok (sinceOf fl (Dict.get fields (ofString "healthy_since")) now) := by
    rw [getItem, get_started, if_pos rfl]
  rw [decideHealthy, hstart, ok_bind, hitem, ok_bind]
  cases number (sinceOf fl (Dict.get fields (ofString "healthy_since")) now) with
  | error e => rfl
  | ok since =>
    rw [ok_bind, Except.map]
    by_cases hheld : (since.subFrom fl now).ge fl p.resetSeconds = true
    · simp only [if_pos hheld]
      rfl
    · simp only [if_neg hheld]

theorem decideUnhealthy_obj : decideUnhealthy fl p (.obj fields) now =
    number ((Dict.get fields (ofString "attempts")).getD (.int 0)) >>= fun attempts =>
      if attempts.ge fl p.maxAttempts then .ok (.giveUp, .obj fields)
      else delayAfter fl p attempts >>= fun delay =>
        (backsOff fl ((Dict.get fields (ofString "last_restart")).getD (.int 0)) now delay).map
          fun backing => if backing then (.wait, .obj fields) else
            (.restart, .obj (Dict.set (Dict.set (Dict.set fields (ofString "attempts")
              (attempts.add fl 1).value) (ofString "last_restart") (.int now))
                (ofString "healthy_since") (.int 0))) := by
  rw [decideUnhealthy, get_obj, ok_bind]
  congr 1
  funext attempts
  split
  next => rfl
  next =>
    rw [get_obj, ok_bind]
    congr 1
    funext delay
    cases backsOff fl ((Dict.get fields (ofString "last_restart")).getD (.int 0)) now delay with
    | error e => rfl
    | ok backing =>
      cases backing with
      | true => rfl
      | false => rfl

/-- `decide` of an object. -/
theorem decide_obj : decide fl p (.obj fields) o =
    if o.status = "healthy" then decideHealthy fl p (.obj fields) o.now
    else if o.status = "unhealthy" ∧ p.minFailingStreak ≤ o.failingStreak then
      decideUnhealthy fl p (.obj (Dict.set fields (ofString "healthy_since") (.int 0))) o.now
    else .ok (.wait, .obj (Dict.set fields (ofString "healthy_since") (.int 0))) := by
  rw [decide, endRun]
  by_cases hhealthy : o.status = "healthy"
  · have hne : o.status ≠ "unhealthy" := fun h => absurd (hhealthy.symm.trans h) (by decide)
    rw [if_neg (not_not.mpr hhealthy), ok_bind, if_pos hne, if_pos hhealthy, if_pos hhealthy]
  · rw [if_pos hhealthy, setItem_obj, ok_bind, if_neg hhealthy]
    by_cases hunhealthy : o.status = "unhealthy"
    · rw [if_neg (not_not.mpr hunhealthy), if_neg hhealthy]
      by_cases hstreak : o.failingStreak < p.minFailingStreak
      · rw [if_pos hstreak, if_neg fun h => absurd h.2 (by omega)]
      · rw [if_neg hstreak, if_pos ⟨hunhealthy, by omega⟩]
    · rw [if_pos hunhealthy, if_neg hhealthy, if_neg fun h => hunhealthy h.1]

/-! ### What is changed of a record -/

/-- Fields of `decide` are given numbers. -/
inductive Edited (fields : List (List CodePoint × Value F)) :
    List (List CodePoint × Value F) → Prop
  | refl : Edited fields fields
  | set {fields' : List (List CodePoint × Value F)} (h : Edited fields fields') {name : String}
      (hname : name ∈ ["last_restart", "attempts", "healthy_since"]) {n : Num F}
      (hproper : n.value.Proper) :
      Edited fields (Dict.set fields' (ofString name) n.value)

theorem Edited.setInt {fields' : List (List CodePoint × Value F)} (h : Edited fields fields')
    {name : String} (hname : name ∈ ["last_restart", "attempts", "healthy_since"]) {n : ℤ}
    (hshort : Value.Short n) : Edited fields (Dict.set fields' (ofString name) (.int n)) :=
  Edited.set h hname (n := .int n) (.int hshort)

theorem short_of_digit {n : ℤ} (h : n.natAbs < 10) : Value.Short n := by
  rw [Value.Short, Nat.toDigits_of_lt_base h, List.length_singleton]
  decide

theorem short_zero : Value.Short 0 := short_of_digit (by decide)

/-- One more than a number below another. -/
theorem short_add_one {n m : ℤ} (hn : Value.Short n) (hm : Value.Short m) (hlt : n < m) :
    Value.Short (n + 1) := by
  rw [Value.short_iff] at hn hm ⊢
  omega

theorem proper_of_get {key : List CodePoint} {v : Value F} (h : (Value.obj fields).Proper)
    (hget : Dict.get fields key = some v) : v.Proper := by
  cases h with
  | obj _ _ hall => exact hall _ (Dict.mem_of_get hget)

/-- An operand is as proper as the field it is read from. -/
theorem proper_of_number {v : Value F} {n : Num F} (h : v.Proper) (hn : number v = .ok n) :
    n.value.Proper := by
  cases v with
  | int m =>
    cases hn
    exact h
  | bool b =>
    cases hn
    cases b with
    | false => exact .int (short_of_digit (by decide))
    | true => exact .int (short_of_digit (by decide))
  | float x =>
    cases hn
    exact .float x
  | null => cases hn
  | str s => cases hn
  | arr items => cases hn
  | obj fields => cases hn

theorem edited_of_decideHealthy (hnow : Value.Short now)
    (h : decideHealthy fl p (.obj fields) now = .ok (action, state)) :
    ∃ fields', state = .obj fields' ∧ Edited fields fields' := by
  have hstarted : Edited fields (started fl fields now) := by
    rw [started]
    split
    next => exact .refl
    next => exact Edited.refl.setInt (by decide) hnow
  rw [decideHealthy_obj] at h
  cases hsince : number (sinceOf fl (Dict.get fields (ofString "healthy_since")) now) with
  | error e =>
    rw [hsince] at h
    cases h
  | ok since =>
    rw [hsince] at h
    cases h
    refine ⟨_, rfl, ?_⟩
    split
    next => exact (hstarted.setInt (by decide) short_zero).setInt (by decide) short_zero
    next => exact hstarted

theorem edited_of_decideUnhealthy (hproper : (Value.obj fields).Proper)
    (hmax : Value.Short p.maxAttempts) (hnow : Value.Short now)
    (h : decideUnhealthy fl p (.obj fields) now = .ok (action, state)) :
    ∃ fields', state = .obj fields' ∧ Edited fields fields' := by
  rw [decideUnhealthy_obj] at h
  cases hattempts : number ((Dict.get fields (ofString "attempts")).getD (.int 0)) with
  | error e =>
    rw [hattempts] at h
    cases h
  | ok attempts =>
    rw [hattempts, ok_bind] at h
    split at h
    next =>
      cases h
      exact ⟨fields, rfl, .refl⟩
    next hfew =>
      have hvalue : attempts.value.Proper := by
        refine proper_of_number ?_ hattempts
        cases hget : Dict.get fields (ofString "attempts") with
        | none => exact .int short_zero
        | some v => exact proper_of_get hproper hget
      have hadd : (attempts.add fl 1).value.Proper := by
        cases attempts with
        | float x => exact .float _
        | int n =>
          cases hvalue with
          | int hshort =>
            have hlt : n < p.maxAttempts := by simpa [Num.ge] using hfew
            exact .int (short_add_one hshort hmax hlt)
      cases hdelay : delayAfter fl p attempts with
      | error e =>
        rw [hdelay] at h
        cases h
      | ok delay =>
        rw [hdelay, ok_bind] at h
        cases hback : backsOff fl
            ((Dict.get fields (ofString "last_restart")).getD (.int 0)) now delay with
        | error e =>
          rw [hback] at h
          cases h
        | ok backing =>
          rw [hback] at h
          cases backing with
          | true =>
            cases h
            exact ⟨fields, rfl, .refl⟩
          | false =>
            cases h
            exact ⟨_, rfl, ((Edited.refl.set (by decide) hadd).setInt (by decide) hnow).setInt
              (by decide) short_zero⟩

theorem Edited.trans {fields' fields'' : List (List CodePoint × Value F)}
    (h : Edited fields fields') (h' : Edited fields' fields'') : Edited fields fields'' := by
  induction h' with
  | refl => exact h
  | set _ hname hproper ih => exact ih.set hname hproper

theorem unpaired_ofString (name : String) : Unpaired (ofString name) := by
  rw [Unpaired, ofString, List.isChain_map]
  exact (List.pairwise_of_forall fun _ _ => rfl).isChain

/-- An edited record is proper. -/
theorem Edited.proper {fields' : List (List CodePoint × Value F)} (h : Edited fields fields')
    (hproper : (Value.obj fields).Proper) : (Value.obj fields').Proper := by
  induction h with
  | refl => exact hproper
  | @set before _ name _ n hvalue ih =>
    cases ih with
    | obj hkeys hnodup hall =>
      refine .obj (fun item hitem => ?_) (Dict.nodup_set hnodup _ _) fun item hitem => ?_
      · rcases Dict.mem_set hitem with rfl | ⟨hold, -⟩
        · exact unpaired_ofString name
        · exact hkeys item hold
      · rcases Dict.mem_set hitem with rfl | ⟨hold, -⟩
        · exact hvalue
        · exact hall item hold

/-- `decide` gives numbers to its fields, and changes nothing else. -/
theorem edited_of_decide (hproper : (Value.obj fields).Proper)
    (hmax : Value.Short p.maxAttempts) (hnow : Value.Short o.now)
    (h : decide fl p (.obj fields) o = .ok (action, state)) :
    ∃ fields', state = .obj fields' ∧ Edited fields fields' := by
  have hended : Edited fields (Dict.set fields (ofString "healthy_since") (.int 0)) :=
    Edited.refl.setInt (by decide) short_zero
  rw [decide_obj] at h
  split at h
  next => exact edited_of_decideHealthy hnow h
  split at h
  next =>
    obtain ⟨fields', rfl, hedited⟩ :=
      edited_of_decideUnhealthy (hended.proper hproper) hmax hnow h
    exact ⟨fields', rfl, hended.trans hedited⟩
  next =>
    cases h
    exact ⟨_, rfl, hended⟩

/-! ### On records of integers -/

theorem int?_eq_some_iff {field : Option (Value F)} {n : ℤ} :
    int? field = some n ↔ number (field.getD (.int 0)) = .ok (.int n) := by
  rw [int?]
  cases number (field.getD (.int 0)) with
  | error e => simp
  | ok m =>
    cases m with
    | int m => simp
    | float x => simp

theorem record?_obj_iff {r : Record} : record? (.obj fields) = some r ↔
    int? (Dict.get fields (ofString "last_restart")) = some r.lastRestart ∧
    int? (Dict.get fields (ofString "attempts")) = some r.attempts ∧
    int? (Dict.get fields (ofString "healthy_since")) = some r.healthySince := by
  obtain ⟨lastRestart, attempts, healthySince⟩ := r
  simp only [record?, Option.bind_eq_bind, Option.bind_eq_some_iff, Option.some.injEq,
    Record.mk.injEq]
  constructor
  · rintro ⟨_, hlast, _, hattempts, _, hsince, rfl, rfl, rfl⟩
    exact ⟨hlast, hattempts, hsince⟩
  · rintro ⟨hlast, hattempts, hsince⟩
    exact ⟨_, hlast, _, hattempts, _, hsince, rfl, rfl, rfl⟩

theorem valid_obj_iff : Valid (.obj fields) ↔
    Counted fields ∧ ∃ n, int? (Dict.get fields (ofString "healthy_since")) = some n := by
  simp only [Valid, record?_obj_iff]
  constructor
  · rintro ⟨r, ⟨hlast, hattempts, hsince⟩, hcount⟩
    exact ⟨⟨⟨_, hattempts, hcount⟩, _, hlast⟩, _, hsince⟩
  · rintro ⟨⟨⟨n, hattempts, hcount⟩, l, hlast⟩, s, hsince⟩
    exact ⟨⟨l, n, s⟩, ⟨hlast, hattempts, hsince⟩, hcount⟩

/-- An integer counts as true unless it is 0. -/
theorem truthy_of_number {v : Value F} {n : ℤ} (h : number v = .ok (.int n)) :
    truthy fl v = Decidable.decide (n ≠ 0) := by
  cases v with
  | int m =>
    cases h
    rfl
  | bool b =>
    cases h
    cases b with
    | false => rfl
    | true => rfl
  | float x => cases h
  | null => cases h
  | str s => cases h
  | arr items => cases h
  | obj fields => cases h

theorem number_sinceOf {field : Option (Value F)} {n : ℤ} (h : int? field = some n) :
    number (sinceOf fl field now) = .ok (.int (if n = 0 then now else n)) := by
  rw [int?_eq_some_iff] at h
  cases field with
  | none =>
    cases h
    rfl
  | some v =>
    have hv : number v = .ok (.int n) := h
    rw [sinceOf, Option.filter_some, truthy_of_number hv]
    by_cases hzero : n = 0
    · rw [if_neg (by simpa using hzero), if_pos hzero]
      rfl
    · rw [if_pos (by simpa using hzero), if_neg hzero]
      exact hv

theorem backsOff_int {field : Option (Value F)} {n delay : ℤ} (h : int? field = some n) :
    backsOff fl (field.getD (.int 0)) now delay =
      .ok (Decidable.decide (n ≠ 0 ∧ now - n < delay)) := by
  rw [int?_eq_some_iff] at h
  rw [backsOff, truthy_of_number h, h]
  by_cases hzero : n = 0
  · rw [if_neg (by simpa using hzero), decide_eq_false fun hne => hne.1 hzero]
  · rw [if_pos (by simpa using hzero)]
    simp [ok_bind, Num.lt, Num.subFrom, hzero]

/-- The fields after a restart. -/
theorem int?_restarted {name : String} (attempts : Value F) :
    int? (Dict.get (Dict.set (Dict.set (Dict.set fields (ofString "attempts") attempts)
      (ofString "last_restart") (.int now)) (ofString "healthy_since") (.int 0))
      (ofString name)) =
    if name = "healthy_since" then some 0 else if name = "last_restart" then some now
    else if name = "attempts" then int? (some attempts)
    else int? (Dict.get fields (ofString name)) := by
  simp only [Dict.get_set, ofString_inj]
  split
  next => rfl
  split
  next => rfl
  split
  next => rfl
  next => rfl

/-- A healthy VM with a record of integers. -/
theorem decideHealthy_of_record {r : Record} (h : record? (.obj fields) = some r) :
    ∃ state', decideHealthy fl p (.obj fields) o.now = .ok (.wait, state') ∧
      record? state' = some (if p.resetSeconds ≤ o.now - r.sinceAt o then ⟨0, 0, r.sinceAt o⟩
        else { r with healthySince := r.sinceAt o }) := by
  obtain ⟨hlast, hattempts, hsince⟩ := record?_obj_iff.mp h
  have hnumber : number (sinceOf fl (Dict.get fields (ofString "healthy_since")) o.now) =
      .ok (.int (r.sinceAt o)) := number_sinceOf hsince
  have hkept : int? (some (sinceOf fl (Dict.get fields (ofString "healthy_since")) o.now)) =
      some (r.sinceAt o) := int?_eq_some_iff.mpr hnumber
  rw [decideHealthy_obj, hnumber]
  refine ⟨_, rfl, ?_⟩
  by_cases hreset : p.resetSeconds ≤ o.now - r.sinceAt o
  · rw [if_pos (by simpa [Num.ge, Num.subFrom] using hreset), if_pos hreset, record?_obj_iff]
    simp only [Dict.get_set, get_started, ofString_inj]
    exact ⟨rfl, rfl, hkept⟩
  · rw [if_neg (by simpa [Num.ge, Num.subFrom] using hreset), if_neg hreset, record?_obj_iff]
    simp only [get_started, ofString_inj]
    exact ⟨hlast, hattempts, hkept⟩

/-- On a record of integers it is the `decide` of the policy. -/
theorem decide_of_record {r : Record} (h : record? (.obj fields) = some r) :
    ∃ state', decide fl p (.obj fields) o = .ok ((Watchdog.decide p r o).1, state') ∧
      record? state' = some (Watchdog.decide p r o).2.2 := by
  obtain ⟨hlast, hattempts, -⟩ := record?_obj_iff.mp h
  rw [decide_obj]
  by_cases hhealthy : o.status = "healthy"
  · have hnot : o.status ≠ "unhealthy" := fun hne => absurd (hhealthy.symm.trans hne) (by decide)
    have hstate : (if r.healthySince = 0 then { r with healthySince := o.now } else r) =
        { r with healthySince := r.sinceAt o } := by
      rw [Record.sinceAt]
      split <;> rfl
    obtain ⟨state', hdecide, hrecord⟩ := @decideHealthy_of_record F fl p fields o r h
    rw [if_pos hhealthy, hdecide]
    simp only [Watchdog.decide, if_neg hnot, if_pos hhealthy, hstate]
    by_cases hreset : p.resetSeconds ≤ o.now - r.sinceAt o
    · rw [if_pos hreset] at hrecord ⊢
      exact ⟨state', rfl, hrecord⟩
    · rw [if_neg hreset] at hrecord ⊢
      exact ⟨state', rfl, hrecord⟩
  -- any other status ends the healthy time
  · have hended : record? (.obj (Dict.set fields (ofString "healthy_since") (.int 0))) =
        some { r with healthySince := 0 } := by
      rw [record?_obj_iff]
      simp only [Dict.get_set, ofString_inj]
      exact ⟨hlast, hattempts, rfl⟩
    obtain ⟨hlast, hattempts, -⟩ := record?_obj_iff.mp hended
    rw [if_neg hhealthy]
    simp only [Watchdog.decide, if_neg hhealthy]
    by_cases hunhealthy : o.status = "unhealthy"
    · by_cases hstreak : o.failingStreak < p.minFailingStreak
      · rw [if_neg fun hpast => absurd hpast.2 (by omega), if_pos hunhealthy, if_pos hstreak]
        exact ⟨_, rfl, hended⟩
      rw [if_pos ⟨hunhealthy, by omega⟩, if_pos hunhealthy, if_neg hstreak, decideUnhealthy_obj,
        int?_eq_some_iff.mp hattempts, ok_bind]
      by_cases hmax : p.maxAttempts ≤ r.attempts
      · rw [if_pos (by simpa [Num.ge] using hmax), if_pos hmax]
        exact ⟨_, rfl, hended⟩
      rw [if_neg (by simpa [Num.ge] using hmax), if_neg hmax, delayAfter_int, ok_bind,
        backsOff_int hlast]
      -- it waits for the delay, or restarts
      by_cases hdelay : r.lastRestart ≠ 0 ∧ o.now - r.lastRestart < delayFor p r.attempts
      · rw [decide_eq_true hdelay]
        rw [delayFor] at hdelay
        rw [if_pos hdelay]
        exact ⟨_, rfl, hended⟩
      · rw [decide_eq_false hdelay]
        rw [delayFor] at hdelay
        rw [if_neg hdelay]
        refine ⟨_, rfl, ?_⟩
        rw [record?_obj_iff]
        simp only [int?_restarted]
        exact ⟨rfl, rfl, rfl⟩
    · rw [if_neg fun hpast => hunhealthy hpast.1, if_neg hunhealthy]
      exact ⟨_, rfl, hended⟩

/-! ### When a valid record is left -/

/-- The number of a field that is an integer afterwards. -/
theorem int_of_number {v : Value F} {m : Num F} {n : ℤ} (hm : number v = .ok m)
    (hn : int? (some v) = some n) : m = .int n := by
  rw [int?_eq_some_iff] at hn
  exact Except.ok.inj (hm.symm.trans hn)

theorem exists_ok_iff {P : Value F → Prop} {a : Action} {left : Value F} :
    (∃ action state, (.ok (a, left) : Except Raised _) = .ok (action, state) ∧ P state) ↔
      P left := by
  refine ⟨?_, fun h => ⟨a, left, rfl, h⟩⟩
  rintro ⟨action, state, heq, h⟩
  cases heq
  exact h

theorem not_exists_error {P : Value F → Prop} {e : Raised} :
    ¬ ∃ (action : Action) (state : Value F),
      (.error e : Except Raised _) = .ok (action, state) ∧ P state := by
  rintro ⟨action, state, heq, -⟩
  cases heq

theorem leaves_valid_healthy : (∃ action state,
    decideHealthy fl p (.obj fields) now = .ok (action, state) ∧ Valid state) ↔
      CopesHealthy fl p fields now := by
  have hreset : Valid (.obj (Dict.set (Dict.set (started fl fields now) (ofString "attempts")
      (.int 0)) (ofString "last_restart") (.int 0))) ↔
        ∃ n, int? (some (sinceOf fl (Dict.get fields (ofString "healthy_since")) now)) =
          some n := by
    rw [valid_obj_iff, Counted]
    simp only [Dict.get_set, get_started, ofString_inj]
    exact ⟨fun h => h.2, fun h => ⟨⟨⟨0, rfl, le_rfl⟩, 0, rfl⟩, h⟩⟩
  have hkept : Valid (.obj (started fl fields now)) ↔ Counted fields ∧
      ∃ n, int? (some (sinceOf fl (Dict.get fields (ofString "healthy_since")) now)) = some n := by
    rw [valid_obj_iff, Counted]
    simp only [get_started, ofString_inj]
    rfl
  rw [decideHealthy_obj, CopesHealthy]
  constructor
  · rintro ⟨action, state, hdecide, hvalid⟩
    cases hnumber : number (sinceOf fl (Dict.get fields (ofString "healthy_since")) now) with
    | error e =>
      rw [hnumber] at hdecide
      cases hdecide
    | ok since =>
      rw [hnumber] at hdecide
      cases hdecide
      -- a reset sets the counts to zero
      by_cases hheld : (since.subFrom fl now).ge fl p.resetSeconds = true
      · rw [if_pos hheld, hreset] at hvalid
        obtain ⟨n, hn⟩ := hvalid
        rw [int_of_number hnumber hn] at hheld
        exact ⟨n, hn, Or.inl (of_decide_eq_true hheld)⟩
      · rw [if_neg hheld, hkept] at hvalid
        obtain ⟨hcounted, n, hn⟩ := hvalid
        exact ⟨n, hn, Or.inr hcounted⟩
  · rintro ⟨n, hn, hor⟩
    have hnumber : number (sinceOf fl (Dict.get fields (ofString "healthy_since")) now) =
        .ok (.int n) := int?_eq_some_iff.mp hn
    rw [hnumber]
    refine ⟨_, _, rfl, ?_⟩
    by_cases hheld : p.resetSeconds ≤ now - n
    · rw [if_pos (by simpa [Num.ge, Num.subFrom] using hheld), hreset]
      exact ⟨n, hn⟩
    · rw [if_neg (by simpa [Num.ge, Num.subFrom] using hheld), hkept]
      exact ⟨hor.resolve_left hheld, n, hn⟩

/-- The next action where the attempts are an integer. -/
theorem decideUnhealthy_int {n : ℤ} (h : int? (Dict.get fields (ofString "attempts")) = some n) :
    decideUnhealthy fl p (.obj fields) now =
      if p.maxAttempts ≤ n then .ok (.giveUp, .obj fields)
      else (backsOff fl ((Dict.get fields (ofString "last_restart")).getD (.int 0)) now
          (delayFor p n)).map fun backing => if backing then (.wait, .obj fields) else
        (.restart, .obj (Dict.set (Dict.set (Dict.set fields (ofString "attempts") (.int (n + 1)))
          (ofString "last_restart") (.int now)) (ofString "healthy_since") (.int 0))) := by
  rw [decideUnhealthy_obj, int?_eq_some_iff.mp h, ok_bind, delayAfter_int, ok_bind]
  simp only [Num.ge, Num.add, Num.value, decide_eq_true_eq]

/-- Where they are none, no valid record is left. -/
theorem not_valid_of_attempts (h : int? (Dict.get fields (ofString "attempts")) = none)
    (hdecide : decideUnhealthy fl p (.obj fields) now = .ok (action, state)) : ¬ Valid state := by
  have hkept : ¬ Valid (.obj fields) := by
    rw [valid_obj_iff, Counted, h]
    rintro ⟨⟨⟨n, hn, -⟩, -⟩, -⟩
    cases hn
  rw [decideUnhealthy_obj] at hdecide
  cases hnumber : number ((Dict.get fields (ofString "attempts")).getD (.int 0)) with
  | error e =>
    rw [hnumber] at hdecide
    cases hdecide
  | ok attempts =>
    rw [hnumber, ok_bind] at hdecide
    cases attempts with
    | int n =>
      rw [int?_eq_some_iff.mpr hnumber] at h
      cases h
    -- a float stays one, whether it is counted up or not
    | float x =>
      split at hdecide
      next =>
        cases hdecide
        exact hkept
      cases hdelay : delayAfter fl p (.float x) with
      | error e =>
        rw [hdelay] at hdecide
        cases hdecide
      | ok delay =>
        rw [hdelay, ok_bind] at hdecide
        cases hback : backsOff fl ((Dict.get fields (ofString "last_restart")).getD (.int 0)) now
            delay with
        | error e =>
          rw [hback] at hdecide
          cases hdecide
        | ok backing =>
          rw [hback] at hdecide
          cases backing with
          | true =>
            cases hdecide
            exact hkept
          | false =>
            cases hdecide
            rw [valid_obj_iff, Counted]
            simp only [int?_restarted]
            rintro ⟨⟨⟨n, hn, -⟩, -⟩, -⟩
            cases hn

theorem leaves_valid_unhealthy
    (hsince : int? (Dict.get fields (ofString "healthy_since")) = some 0) : (∃ action state,
      decideUnhealthy fl p (.obj fields) now = .ok (action, state) ∧ Valid state) ↔
        CopesUnhealthy fl p fields now := by
  have hkept : Valid (.obj fields) ↔ Counted fields :=
    valid_obj_iff.trans ⟨fun h => h.1, fun h => ⟨h, 0, hsince⟩⟩
  rw [CopesUnhealthy]
  cases hattempts : int? (Dict.get fields (ofString "attempts")) with
  | none =>
    refine iff_of_false ?_ (by simp)
    rintro ⟨action, state, hdecide, hvalid⟩
    exact not_valid_of_attempts hattempts hdecide hvalid
  | some n =>
    have hrestart : Valid (.obj (Dict.set (Dict.set (Dict.set fields (ofString "attempts")
        (.int (n + 1))) (ofString "last_restart") (.int now)) (ofString "healthy_since")
          (.int (F := F) 0))) ↔ -1 ≤ n := by
      have hadd : int? (some (.int (F := F) (n + 1))) = some (n + 1) := rfl
      rw [valid_obj_iff, Counted]
      simp only [int?_restarted, hadd]
      constructor
      · rintro ⟨⟨⟨m, hm, hcount⟩, -⟩, -⟩
        obtain rfl : n + 1 = m := Option.some.inj hm
        omega
      · intro hcount
        exact ⟨⟨⟨n + 1, rfl, by omega⟩, now, rfl⟩, 0, rfl⟩
    rw [decideUnhealthy_int hattempts]
    simp only [Option.some.injEq, exists_eq_left']
    split
    next => exact exists_ok_iff.trans hkept
    next =>
      cases backsOff fl ((Dict.get fields (ofString "last_restart")).getD (.int 0)) now
          (delayFor p n) with
      | error e => exact iff_of_false not_exists_error id
      | ok backing =>
        cases backing with
        | true => exact exists_ok_iff.trans hkept
        | false => exact exists_ok_iff.trans hrestart

theorem leaves_valid_iff :
    (∃ action state, decide fl p (.obj fields) o = .ok (action, state) ∧ Valid state) ↔
      Copes fl p fields o := by
  have hget : ∀ name, name ≠ "healthy_since" →
      Dict.get (Dict.set fields (ofString "healthy_since") (.int 0)) (ofString name) =
        Dict.get fields (ofString name) := by
    intro name hname
    rw [Dict.get_set, if_neg (by rwa [ofString_inj])]
  have hsince : int? (Dict.get (Dict.set fields (ofString "healthy_since") (.int 0))
      (ofString "healthy_since")) = some 0 := by
    rw [Dict.get_set, if_pos rfl]
    rfl
  have hcounted : Counted (Dict.set fields (ofString "healthy_since") (.int 0)) ↔
      Counted fields := by
    rw [Counted, Counted, hget _ (by decide), hget _ (by decide)]
  rw [decide_obj, Copes]
  split
  next => exact leaves_valid_healthy
  split
  next =>
    rw [leaves_valid_unhealthy hsince, CopesUnhealthy, CopesUnhealthy, hget _ (by decide),
      hget _ (by decide)]
    simp only [hcounted]
  next =>
    rw [← hcounted]
    exact exists_ok_iff.trans (valid_obj_iff.trans ⟨fun h => h.1, fun h => ⟨h, 0, hsince⟩⟩)

end Decide

end Raw

end Watchdog

import Mathlib.Data.Finset.Card
import Mathlib.Data.List.Nodup
import Mathlib.Logic.Function.Basic
import Mt5HttpApi.Lib.Transition

/-!
# Sessions and the queue before them

`session` of `mt5api/mt5client.py`: a thread that needs the SDK counts itself in `_queue_depth`, is
refused if that makes too many, waits for the lock of the SDK, and counts itself out on every way
out. Threads read and write the counter one access at a time under a lock of its own, they come and
go in any order, any of them may give up waiting and any block may raise.

`Line` is the queue that the code has no object for: the threads that have counted themselves, in
the order in which they did. `Inv.step` keeps it in agreement with the counter.

* `sessions_bounded`: the counter is the number of the threads in the queue, at most one of them has
  the lock of the SDK, at most `MAX_QUEUE_DEPTH` of those that obey the cap are admitted, and a
  thread is refused only if as many others were in the queue.
* `sessions_return`: when no thread is in a session, the counter is zero and both locks are free.
-/

namespace Sessions

open Transition

/-- Where a thread is in `session`. `depth` is what `_bump_depth` has returned to it. -/
inductive Pc
  | outside
  /-- Before `with _queue_depth_lock` in `_bump_depth`. -/
  | bumping
  /-- Before `_queue_depth` is read for `+= 1`. -/
  | loading
  /-- Before `_queue_depth` is written. -/
  | storing (value : ℤ)
  /-- Before `_queue_depth` is read for `return`. -/
  | reading
  /-- Before the lock of the counter is released. -/
  | bumped (depth : ℤ)
  /-- Before the check of the depth. -/
  | entered (depth : ℤ)
  /-- Before `QueueFull` is raised. -/
  | refused (depth : ℤ)
  /-- In `_mt5_lock.acquire`. -/
  | waiting (depth : ℤ)
  /-- In the block. -/
  | inside (depth : ℤ)
  /-- Before `with _queue_depth_lock` in `_drop_depth`. -/
  | dropping
  /-- Before `_queue_depth` is read for `-= 1`. -/
  | dropLoading
  /-- Before `_queue_depth` is written. -/
  | dropStoring (value : ℤ)
  /-- Before the lock of the counter is released. -/
  | dropped
  deriving DecidableEq, Repr

namespace Pc

/-- The thread has the lock of the counter. -/
def hasDepthLock : Pc → Bool
  | .loading | .storing _ | .reading | .bumped _ | .dropLoading | .dropStoring _ | .dropped => true
  | _ => false

/-- The thread has counted itself and not yet counted itself out. -/
def isCounted : Pc → Bool
  | .reading | .bumped _ | .entered _ | .refused _ | .waiting _ | .inside _ | .dropping
  | .dropLoading | .dropStoring _ => true
  | _ => false

/-- The depth that the thread knows. -/
def depth? : Pc → Option ℤ
  | .bumped depth | .entered depth | .refused depth | .waiting depth | .inside depth => some depth
  | _ => none

/-- The thread has the lock of the SDK. -/
def isInside : Pc → Bool
  | .inside _ => true
  | _ => false

/-- The thread waits for the lock of the SDK or has it. -/
def isAdmitted : Pc → Bool
  | .waiting _ | .inside _ => true
  | _ => false

end Pc

variable {T : Type} [DecidableEq T]

/-- The threads, the counter and the two locks. `line` and `ahead` are history variables: who has
counted itself, first to last, and who had when a thread did. -/
structure State (T : Type) where
  pc : T → Pc
  /-- `bypass_queue_cap` of the session that a thread is in. -/
  bypass : T → Bool
  queueDepth : ℤ
  depthLock : Option T
  mt5Lock : Option T
  line : List T
  ahead : T → List T

/-- What may happen next. -/
inductive Label (T : Type)
  /-- A thread calls `session`. -/
  | enter (t : T) (bypass : Bool)
  /-- A thread takes its next step; the time-out of a wait may have run out. -/
  | step (t : T) (timedOut : Bool)

/-- A thread is somewhere else. -/
def State.goto (s : State T) (t : T) (pc : Pc) : State T :=
  { s with pc := Function.update s.pc t pc }

variable (maxDepth : ℤ)

/-- The next step of a thread. -/
def advance (s : State T) (t : T) (timedOut : Bool) : Option (State T) :=
  match s.pc t with
  | .outside => none
  | .bumping =>
    if s.depthLock = none then some { s.goto t .loading with depthLock := some t } else none
  | .loading => some (s.goto t (.storing (s.queueDepth + 1)))
  | .storing value => some
      { s.goto t .reading with
        queueDepth := value
        line := s.line ++ [t]
        ahead := Function.update s.ahead t s.line }
  | .reading => some (s.goto t (.bumped s.queueDepth))
  | .bumped depth => some { s.goto t (.entered depth) with depthLock := none }
  | .entered depth =>
    if maxDepth < depth ∧ s.bypass t = false then some (s.goto t (.refused depth))
    else some (s.goto t (.waiting depth))
  | .refused _ => some (s.goto t .dropping)
  | .waiting depth =>
    -- `MT5LockTimeout`
    if timedOut then some (s.goto t .dropping)
    else if s.mt5Lock = none then some { s.goto t (.inside depth) with mt5Lock := some t }
    else none
  -- the block ends or raises, and the lock is released
  | .inside _ => some { s.goto t .dropping with mt5Lock := none }
  | .dropping =>
    if s.depthLock = none then some { s.goto t .dropLoading with depthLock := some t } else none
  | .dropLoading => some (s.goto t (.dropStoring (s.queueDepth - 1)))
  | .dropStoring value => some
      { s.goto t .dropped with queueDepth := value, line := s.line.erase t }
  | .dropped => some { s.goto t .outside with depthLock := none }

/-- One step. -/
def step (s : State T) : Label T → Option (State T)
  | .enter t bypass =>
    if s.pc t = .outside then
      some { s.goto t .bumping with bypass := Function.update s.bypass t bypass }
    else none
  | .step t timedOut => advance maxDepth s t timedOut

/-- No thread has called `session`. -/
def initial : State T where
  pc _ := .outside
  bypass _ := false
  queueDepth := 0
  depthLock := none
  mt5Lock := none
  line := []
  ahead _ := []

/-! ## The invariant -/

/-- A lock is with the one thread that is where a thread has it. -/
def Owns (has : Pc → Bool) (pc : T → Pc) (lock : Option T) : Prop :=
  ∀ t, lock = some t ↔ has (pc t) = true

section Locks

variable {has : Pc → Bool} {pc : T → Pc} {lock : Option T} {t : T} {new : Pc}

theorem Owns.keep (h : Owns has pc lock) (hnew : has new = has (pc t)) :
    Owns has (Function.update pc t new) lock := by
  intro u
  by_cases hu : u = t
  · rw [hu, Function.update_self, hnew]
    exact h t
  · rw [Function.update_of_ne hu]
    exact h u

theorem Owns.take (h : Owns has pc none) (hnew : has new = true) :
    Owns has (Function.update pc t new) (some t) := by
  intro u
  by_cases hu : u = t
  · simp [hu, hnew]
  · rw [Function.update_of_ne hu, ← h u]
    simp [Ne.symm hu]

theorem Owns.free (h : Owns has pc lock) (ht : has (pc t) = true) (hnew : has new = false) :
    Owns has (Function.update pc t new) none := by
  intro u
  by_cases hu : u = t
  · simp [hu, hnew]
  · rw [Function.update_of_ne hu, ← h u, (h t).mpr ht]
    simp [Ne.symm hu]

omit [DecidableEq T] in
/-- Two threads do not both have a lock. -/
theorem Owns.unique (h : Owns has pc lock) {u : T} (ht : has (pc t) = true)
    (hu : has (pc u) = true) : u = t :=
  Option.some.inj (((h u).mpr hu).symm.trans ((h t).mpr ht))

end Locks

/-- What a thread knows of the counter, which is at `depth`, and of those before it. -/
def Pc.Agrees (depth : ℤ) (ahead : List T) : Pc → Prop
  | .storing value => value = depth + 1
  | .dropStoring value => value = depth - 1
  | .reading => depth = ahead.length + 1
  | .bumped told | .entered told | .waiting told | .inside told => told = ahead.length + 1
  | .refused told => told = ahead.length + 1 ∧ maxDepth < told
  | _ => True

/-- The counter is the length of the queue, the locks are with whom they should be, and no thread
has more before it in the queue than it was told. -/
structure Inv (s : State T) : Prop where
  depth : s.queueDepth = s.line.length
  nodup : s.line.Nodup
  counted : ∀ t, t ∈ s.line ↔ (s.pc t).isCounted = true
  depthLock : Owns Pc.hasDepthLock s.pc s.depthLock
  mt5Lock : Owns Pc.isInside s.pc s.mt5Lock
  agrees : ∀ t, (s.pc t).Agrees maxDepth s.queueDepth (s.ahead t)
  ahead : ∀ t front back, s.line = front ++ t :: back → front.length ≤ (s.ahead t).length
  others : ∀ t ∈ s.line, (s.ahead t).Nodup ∧ t ∉ s.ahead t
  admitted : ∀ t, (s.pc t).isAdmitted = true → s.bypass t = false →
    ((s.ahead t).length : ℤ) < maxDepth

omit [DecidableEq T] in
theorem inv_initial : Inv maxDepth (initial : State T) where
  depth := rfl
  nodup := List.nodup_nil
  counted t := by simp [initial, Pc.isCounted]
  depthLock t := by simp [initial, Pc.hasDepthLock]
  mt5Lock t := by simp [initial, Pc.isInside]
  agrees t := trivial
  ahead t front back h := by simp [initial] at h
  others t h := nomatch h
  admitted t h := nomatch h

variable {maxDepth} {s u : State T} {t : T} {new : Pc}

/-- A step that leaves the counter and the queue as they are. -/
theorem Inv.move (hs : Inv maxDepth s) {bypass : T → Bool} {depthLock mt5Lock : Option T}
    (hcounted : new.isCounted = (s.pc t).isCounted)
    (hdepthLock : Owns Pc.hasDepthLock (Function.update s.pc t new) depthLock)
    (hmt5Lock : Owns Pc.isInside (Function.update s.pc t new) mt5Lock)
    (hagrees : new.Agrees maxDepth s.queueDepth (s.ahead t))
    (hbypass : ∀ u, u ≠ t → bypass u = s.bypass u)
    (hadmitted : new.isAdmitted = true → bypass t = false →
      ((s.ahead t).length : ℤ) < maxDepth) :
    Inv maxDepth { s.goto t new with
      bypass := bypass, depthLock := depthLock, mt5Lock := mt5Lock } where
  depth := hs.depth
  nodup := hs.nodup
  counted u := by
    show u ∈ s.line ↔ (Function.update s.pc t new u).isCounted = true
    rw [hs.counted u]
    by_cases hu : u = t
    · rw [hu, Function.update_self, hcounted]
    · rw [Function.update_of_ne hu]
  depthLock := hdepthLock
  mt5Lock := hmt5Lock
  agrees u := by
    show (Function.update s.pc t new u).Agrees maxDepth s.queueDepth (s.ahead u)
    by_cases hu : u = t
    · rw [hu, Function.update_self]
      exact hagrees
    · rw [Function.update_of_ne hu]
      exact hs.agrees u
  ahead := hs.ahead
  others := hs.others
  admitted u := by
    show (Function.update s.pc t new u).isAdmitted = true → bypass u = false → _
    by_cases hu : u = t
    · rw [hu, Function.update_self]
      exact hadmitted
    · rw [Function.update_of_ne hu, hbypass u hu]
      exact hs.admitted u

omit [DecidableEq T] in
/-- The counter matters only to the thread that has its lock. -/
theorem Pc.Agrees.of_hasDepthLock {pc : Pc} {depth depth' : ℤ} {ahead : List T}
    (h : pc.Agrees maxDepth depth ahead) (hlock : pc.hasDepthLock = false) :
    pc.Agrees maxDepth depth' ahead := by
  cases pc with
  | storing | dropStoring | reading => cases hlock
  | _ => exact h

/-- The thread counts itself: it is the last in the queue. -/
theorem Inv.countIn (hs : Inv maxDepth s) {value : ℤ} (hpc : s.pc t = .storing value) :
    Inv maxDepth { s.goto t .reading with
      queueDepth := value, line := s.line ++ [t]
      ahead := Function.update s.ahead t s.line } := by
  have hvalue : value = s.queueDepth + 1 := by
    have hagrees := hs.agrees t
    rwa [hpc] at hagrees
  have hout : t ∉ s.line := by simp [hs.counted t, hpc, Pc.isCounted]
  have hne : ∀ {v}, v ∈ s.line → v ≠ t := fun hv heq => hout (heq ▸ hv)
  refine
    { depth := ?_, nodup := ?_, counted := fun v => ?_
      depthLock := hs.depthLock.keep (by rw [hpc]; rfl)
      mt5Lock := hs.mt5Lock.keep (by rw [hpc]; rfl)
      agrees := fun v => ?_, ahead := fun v front back h => ?_, others := fun v hv => ?_
      admitted := fun v => ?_ }
  · show value = ((s.line ++ [t]).length : ℤ)
    rw [hvalue, hs.depth, List.length_append]
    simp
  · exact List.nodup_append.mpr ⟨hs.nodup, List.nodup_singleton t, fun v hv w hw =>
      List.mem_singleton.mp hw ▸ hne hv⟩
  · show v ∈ s.line ++ [t] ↔ (Function.update s.pc t .reading v).isCounted = true
    by_cases hv : v = t
    · simp [hv, Pc.isCounted]
    · rw [Function.update_of_ne hv, ← hs.counted v, List.mem_append]
      simp [hv]
  · show (Function.update s.pc t .reading v).Agrees maxDepth value
      (Function.update s.ahead t s.line v)
    by_cases hv : v = t
    · rw [hv, Function.update_self, Function.update_self]
      show value = (s.line.length : ℤ) + 1
      rw [hvalue, hs.depth]
    · -- no other thread has the lock of the counter
      rw [Function.update_of_ne hv, Function.update_of_ne hv]
      refine (hs.agrees v).of_hasDepthLock (Bool.eq_false_iff.mpr fun hlock => hv ?_)
      exact hs.depthLock.unique (by rw [hpc]; rfl) hlock
  · show front.length ≤ (Function.update s.ahead t s.line v).length
    have h : s.line ++ [t] = front ++ v :: back := h
    rcases List.eq_nil_or_concat back with rfl | ⟨back, w, rfl⟩
    · obtain ⟨rfl, hv⟩ := List.append_inj' h rfl
      obtain rfl := List.singleton_inj.mp hv
      rw [Function.update_self]
    · have hline : s.line = front ++ v :: back := by
        have h' : s.line ++ [t] = (front ++ v :: back) ++ [w] := by simpa using h
        exact (List.append_inj' h' rfl).1
      have hv : v ∈ s.line := by simp [hline]
      rw [Function.update_of_ne (hne hv)]
      exact hs.ahead v front back hline
  · show (Function.update s.ahead t s.line v).Nodup ∧ v ∉ Function.update s.ahead t s.line v
    by_cases hvt : v = t
    · rw [hvt, Function.update_self]
      exact ⟨hs.nodup, hout⟩
    · rw [Function.update_of_ne hvt]
      exact hs.others v ((List.mem_append.mp hv).resolve_right (by simpa using hvt))
  · show (Function.update s.pc t .reading v).isAdmitted = true → s.bypass v = false →
      ((Function.update s.ahead t s.line v).length : ℤ) < maxDepth
    by_cases hv : v = t
    · rw [hv, Function.update_self]
      exact fun h => nomatch h
    · rw [Function.update_of_ne hv, Function.update_of_ne hv]
      exact hs.admitted v

omit [DecidableEq T] in
/-- Who is behind so many in a part of the queue is behind at least as many in the whole. -/
theorem exists_front {l₁ l₂ front back : List T} {t v : T} (h : l₁ ++ l₂ = front ++ v :: back) :
    ∃ front' back', l₁ ++ t :: l₂ = front' ++ v :: back' ∧ front.length ≤ front'.length := by
  rcases List.append_eq_append_iff.mp h with ⟨c, rfl, rfl⟩ | ⟨c, rfl, hc⟩
  · exact ⟨l₁ ++ t :: c, back, by simp, by simp⟩
  · cases c with
    | nil =>
      rw [List.nil_append] at hc
      exact ⟨front ++ [t], back, by simp [hc], by simp⟩
    | cons w c =>
      obtain ⟨rfl, rfl⟩ := List.cons.inj hc
      exact ⟨front, c ++ t :: l₂, by simp, le_rfl⟩

/-- The thread counts itself out: the others keep their order. -/
theorem Inv.countOut (hs : Inv maxDepth s) {value : ℤ} (hpc : s.pc t = .dropStoring value) :
    Inv maxDepth { s.goto t .dropped with queueDepth := value, line := s.line.erase t } := by
  have hvalue : value = s.queueDepth - 1 := by
    have hagrees := hs.agrees t
    rwa [hpc] at hagrees
  have hin : t ∈ s.line := by simp [hs.counted t, hpc, Pc.isCounted]
  refine
    { depth := ?_, nodup := hs.nodup.erase t, counted := fun v => ?_
      depthLock := hs.depthLock.keep (by rw [hpc]; rfl)
      mt5Lock := hs.mt5Lock.keep (by rw [hpc]; rfl)
      agrees := fun v => ?_, ahead := fun v front back h => ?_
      others := fun v hv => hs.others v (List.mem_of_mem_erase hv), admitted := fun v => ?_ }
  · show value = ((s.line.erase t).length : ℤ)
    have hpos := List.length_pos_of_mem hin
    rw [hvalue, hs.depth, List.length_erase_of_mem hin]
    omega
  · show v ∈ s.line.erase t ↔ (Function.update s.pc t .dropped v).isCounted = true
    rw [hs.nodup.mem_erase_iff]
    by_cases hv : v = t
    · simp [hv, Pc.isCounted]
    · rw [Function.update_of_ne hv, ← hs.counted v]
      simp [hv]
  · show (Function.update s.pc t .dropped v).Agrees maxDepth value (s.ahead v)
    by_cases hv : v = t
    · rw [hv, Function.update_self]
      trivial
    · rw [Function.update_of_ne hv]
      refine (hs.agrees v).of_hasDepthLock (Bool.eq_false_iff.mpr fun hlock => hv ?_)
      exact hs.depthLock.unique (by rw [hpc]; rfl) hlock
  · have h : s.line.erase t = front ++ v :: back := h
    obtain ⟨l₁, l₂, hnot, hline, herase⟩ := List.exists_erase_eq hin
    obtain ⟨front', back', hfront, hle⟩ := exists_front (t := t) (herase ▸ h)
    exact hle.trans (hs.ahead v front' back' (hline.trans hfront))
  · show (Function.update s.pc t .dropped v).isAdmitted = true → _
    by_cases hv : v = t
    · rw [hv, Function.update_self]
      exact fun h => nomatch h
    · rw [Function.update_of_ne hv]
      exact hs.admitted v

/-- Each step of a thread keeps the queue in agreement with the counter. -/
theorem Inv.advance {timedOut : Bool} (hs : Inv maxDepth s)
    (h : advance maxDepth s t timedOut = some u) : Inv maxDepth u := by
  have hagrees := hs.agrees t
  have hlock := hs.depthLock
  have hmt5 := hs.mt5Lock
  cases hpc : s.pc t with
  | outside => simp [Sessions.advance, hpc] at h
  | bumping =>
    simp only [Sessions.advance, hpc] at h
    split at h
    next hfree =>
      obtain rfl := (Option.some.inj h).symm
      exact hs.move (by rw [hpc]; rfl) ((hfree ▸ hlock).take rfl) (hmt5.keep (by rw [hpc]; rfl))
        trivial (fun _ _ => rfl) fun h => nomatch h
    next => cases h
  | loading =>
    simp only [Sessions.advance, hpc] at h
    obtain rfl := (Option.some.inj h).symm
    exact hs.move (by rw [hpc]; rfl) (hlock.keep (by rw [hpc]; rfl)) (hmt5.keep (by rw [hpc]; rfl))
      rfl (fun _ _ => rfl) fun h => nomatch h
  | storing value =>
    simp only [Sessions.advance, hpc] at h
    obtain rfl := (Option.some.inj h).symm
    exact hs.countIn hpc
  | reading =>
    simp only [Sessions.advance, hpc] at h
    obtain rfl := (Option.some.inj h).symm
    rw [hpc] at hagrees
    exact hs.move (by rw [hpc]; rfl) (hlock.keep (by rw [hpc]; rfl)) (hmt5.keep (by rw [hpc]; rfl))
      hagrees (fun _ _ => rfl) fun h => nomatch h
  | bumped depth =>
    simp only [Sessions.advance, hpc] at h
    obtain rfl := (Option.some.inj h).symm
    rw [hpc] at hagrees
    exact hs.move (by rw [hpc]; rfl) (hlock.free (by rw [hpc]; rfl) rfl)
      (hmt5.keep (by rw [hpc]; rfl)) hagrees (fun _ _ => rfl) fun h => nomatch h
  | entered depth =>
    simp only [Sessions.advance, hpc] at h
    rw [hpc] at hagrees
    have hdepth : depth = ((s.ahead t).length : ℤ) + 1 := hagrees
    split at h
    next hover =>
      obtain rfl := (Option.some.inj h).symm
      exact hs.move (by rw [hpc]; rfl) (hlock.keep (by rw [hpc]; rfl))
        (hmt5.keep (by rw [hpc]; rfl)) ⟨hdepth, hover.1⟩ (fun _ _ => rfl) fun h => nomatch h
    next hfits =>
      obtain rfl := (Option.some.inj h).symm
      refine hs.move (by rw [hpc]; rfl) (hlock.keep (by rw [hpc]; rfl))
        (hmt5.keep (by rw [hpc]; rfl)) hagrees (fun _ _ => rfl) fun _ hbypass => ?_
      -- who obeys the cap has been told a depth that is within it
      have hle : ¬ maxDepth < depth := fun hlt => hfits ⟨hlt, hbypass⟩
      omega
  | refused depth =>
    simp only [Sessions.advance, hpc] at h
    obtain rfl := (Option.some.inj h).symm
    exact hs.move (by rw [hpc]; rfl) (hlock.keep (by rw [hpc]; rfl)) (hmt5.keep (by rw [hpc]; rfl))
      trivial (fun _ _ => rfl) fun h => nomatch h
  | waiting depth =>
    simp only [Sessions.advance, hpc] at h
    have hadmitted := hs.admitted t (by rw [hpc]; rfl)
    rw [hpc] at hagrees
    split at h
    next =>
      obtain rfl := (Option.some.inj h).symm
      exact hs.move (by rw [hpc]; rfl) (hlock.keep (by rw [hpc]; rfl))
        (hmt5.keep (by rw [hpc]; rfl)) trivial (fun _ _ => rfl) fun h => nomatch h
    next =>
      split at h
      next hfree =>
        obtain rfl := (Option.some.inj h).symm
        exact hs.move (by rw [hpc]; rfl) (hlock.keep (by rw [hpc]; rfl))
          ((hfree ▸ hmt5).take rfl) hagrees (fun _ _ => rfl) fun _ => hadmitted
      next => cases h
  | inside depth =>
    simp only [Sessions.advance, hpc] at h
    obtain rfl := (Option.some.inj h).symm
    exact hs.move (by rw [hpc]; rfl) (hlock.keep (by rw [hpc]; rfl))
      (hmt5.free (by rw [hpc]; rfl) rfl) trivial (fun _ _ => rfl) fun h => nomatch h
  | dropping =>
    simp only [Sessions.advance, hpc] at h
    split at h
    next hfree =>
      obtain rfl := (Option.some.inj h).symm
      exact hs.move (by rw [hpc]; rfl) ((hfree ▸ hlock).take rfl) (hmt5.keep (by rw [hpc]; rfl))
        trivial (fun _ _ => rfl) fun h => nomatch h
    next => cases h
  | dropLoading =>
    simp only [Sessions.advance, hpc] at h
    obtain rfl := (Option.some.inj h).symm
    exact hs.move (by rw [hpc]; rfl) (hlock.keep (by rw [hpc]; rfl)) (hmt5.keep (by rw [hpc]; rfl))
      rfl (fun _ _ => rfl) fun h => nomatch h
  | dropStoring value =>
    simp only [Sessions.advance, hpc] at h
    obtain rfl := (Option.some.inj h).symm
    exact hs.countOut hpc
  | dropped =>
    simp only [Sessions.advance, hpc] at h
    obtain rfl := (Option.some.inj h).symm
    exact hs.move (by rw [hpc]; rfl) (hlock.free (by rw [hpc]; rfl) rfl)
      (hmt5.keep (by rw [hpc]; rfl)) trivial (fun _ _ => rfl) fun h => nomatch h

theorem Inv.step {l : Label T} (hs : Inv maxDepth s) (h : step maxDepth s l = some u) :
    Inv maxDepth u := by
  cases l with
  | step t timedOut => exact hs.advance h
  | enter t bypass =>
    simp only [Sessions.step] at h
    split at h
    next hpc =>
      obtain rfl := (Option.some.inj h).symm
      exact hs.move (by rw [hpc]; rfl) (hs.depthLock.keep (by rw [hpc]; rfl))
        (hs.mt5Lock.keep (by rw [hpc]; rfl)) trivial
        (fun v hv => Function.update_of_ne hv bypass s.bypass) fun h => nomatch h
    next => cases h

theorem inv_run (hrun : Run (Sessions.step maxDepth) initial s) : Inv maxDepth s :=
  RunOf.invariant (fun _ _ _ hP _ hstep => Inv.step hP hstep) hrun (inv_initial maxDepth)

/-! ## What the cap bounds -/

omit [DecidableEq T] in
/-- If none of some elements of a list has `n` elements before it, there are `n` of them at most. -/
theorem length_filter_le_of_front {p : T → Bool} {n : ℕ} {line : List T}
    (h : ∀ front t back, line = front ++ t :: back → p t = true → front.length < n) :
    (line.filter p).length ≤ n := by
  induction line using List.reverseRecOn with
  | nil => exact Nat.zero_le n
  | append_singleton line a ih =>
    rw [List.filter_append, List.length_append]
    by_cases ha : p a = true
    · -- all the others are before the last
      have hlast := h line a [] rfl ha
      have hle := List.length_filter_le p line
      simp only [List.filter_cons_of_pos ha, List.filter_nil, List.length_singleton]
      omega
    · have hrest : (line.filter p).length ≤ n := ih fun front t back hline =>
        h front t (back ++ [a]) (by rw [hline]; simp)
      rw [List.filter_cons_of_neg ha]
      exact hrest

/-- In every run, with any number of threads that enter, wait, give up, raise and leave in any
order: `_queue_depth` is the number of the threads that have counted themselves and not yet counted
themselves out; no two threads are inside at once; of the threads that obey the cap at most
`MAX_QUEUE_DEPTH` are inside or waiting; and a thread that is refused had as many others before it
when it counted itself. -/
theorem sessions_bounded (hrun : Run (Sessions.step maxDepth) (initial : State T) s) :
    (s.queueDepth = s.line.length ∧ s.line.Nodup ∧
      ∀ t, t ∈ s.line ↔ (s.pc t).isCounted = true) ∧
    (∀ t u, (s.pc t).isInside = true → (s.pc u).isInside = true → u = t) ∧
    (∀ A : Finset T, (∀ t ∈ A, (s.pc t).isAdmitted = true ∧ s.bypass t = false) →
      A.card ≤ maxDepth.toNat) ∧
    ∀ t depth, s.pc t = .refused depth →
      (s.ahead t).Nodup ∧ t ∉ s.ahead t ∧ maxDepth ≤ (s.ahead t).length := by
  have hs := inv_run hrun
  refine ⟨⟨hs.depth, hs.nodup, hs.counted⟩, fun t u ht hu => hs.mt5Lock.unique ht hu,
    fun A hA => ?_, fun t depth hpc => ?_⟩
  · let obeys (t : T) : Bool := (s.pc t).isAdmitted && !s.bypass t
    have hfilter : (s.line.filter obeys).length ≤ maxDepth.toNat := by
      refine length_filter_le_of_front fun front t back hline ht => ?_
      rw [Bool.and_eq_true, Bool.not_eq_true'] at ht
      have hfront := hs.ahead t front back hline
      have hcap := hs.admitted t ht.1 ht.2
      omega
    have hsubset : A ⊆ (s.line.filter obeys).toFinset := by
      intro t ht
      obtain ⟨hadmitted, hbypass⟩ := hA t ht
      have hcounted : (s.pc t).isCounted = true := by
        cases hpc : s.pc t <;> rw [hpc] at hadmitted <;> first | rfl | cases hadmitted
      rw [List.mem_toFinset, List.mem_filter, hs.counted t]
      exact ⟨hcounted, by simp [obeys, hadmitted, hbypass]⟩
    exact (Finset.card_le_card hsubset).trans ((List.toFinset_card_le _).trans hfilter)
  · have hline : t ∈ s.line := by simp [hs.counted t, hpc, Pc.isCounted]
    have hagrees := hs.agrees t
    rw [hpc] at hagrees
    obtain ⟨hdepth, hover⟩ := hagrees
    exact ⟨(hs.others t hline).1, (hs.others t hline).2, by omega⟩

/-- While one thread is inside, a second one is refused under a cap of one. -/
theorem sessions_bounded_refused : ∃ s : State Bool, Run (Sessions.step 1) initial s ∧
    s.pc true = .refused 2 ∧ s.queueDepth = s.line.length ∧
    ∀ A : Finset Bool, (∀ t ∈ A, (s.pc t).isAdmitted = true ∧ s.bypass t = false) →
      A.card ≤ 1 := by
  have hexec : (exec (Sessions.step 1) (initial : State Bool)
      ([.enter false false] ++ List.replicate 7 (.step false false) ++
        [.enter true false] ++ List.replicate 6 (.step true false))).any
      (fun s => s.pc true = .refused 2) = true := by decide
  obtain ⟨s, hrun, hrefused⟩ := exists_run_of_exec hexec
  have hbounded := sessions_bounded hrun
  exact ⟨s, hrun, of_decide_eq_true hrefused, hbounded.1.1, hbounded.2.2.1⟩

/-- When every thread has left its session, however it did, the counter is zero and both locks are
free. -/
theorem sessions_return (hrun : Run (Sessions.step maxDepth) (initial : State T) s)
    (hout : ∀ t, s.pc t = .outside) :
    s.queueDepth = 0 ∧ s.depthLock = none ∧ s.mt5Lock = none := by
  have hs := inv_run hrun
  have hline : s.line = [] := List.eq_nil_iff_forall_not_mem.mpr fun t ht => by
    simpa [hout t, Pc.isCounted] using (hs.counted t).mp ht
  refine ⟨by rw [hs.depth, hline]; rfl, ?_, ?_⟩
  · refine Option.eq_none_iff_forall_ne_some.mpr fun t ht => ?_
    simpa [hout t, Pc.hasDepthLock] using (hs.depthLock t).mp ht
  · refine Option.eq_none_iff_forall_ne_some.mpr fun t ht => ?_
    simpa [hout t, Pc.isInside] using (hs.mt5Lock t).mp ht

/-- A thread that has given up waiting has left no trace. -/
theorem sessions_return_timeout : ∃ s : State Unit, Run (Sessions.step 20) initial s ∧
    s.queueDepth = 0 ∧ s.depthLock = none ∧ s.mt5Lock = none := by
  have hexec : (exec (Sessions.step 20) (initial : State Unit)
      ([.enter () false] ++ List.replicate 11 (.step () true))).any
      (fun s => s.pc () = .outside) = true := by decide
  obtain ⟨s, hrun, hout⟩ := exists_run_of_exec hexec
  exact ⟨s, hrun, sessions_return hrun fun _ => of_decide_eq_true hout⟩

end Sessions

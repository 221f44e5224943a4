import Mathlib.Data.Finset.Card
import Mathlib.Logic.Function.Basic
import Mt5HttpApi.Lib.Transition

/-!
# Who may use the compiler

Any number of API processes on one machine, each with compile requests and a warm-up. A request
takes a slot and the lock of its process, then the lock file that all processes share, and only then
the toolchain: it refreshes the local mirror of it and runs MetaEditor. Every access is one step,
and the steps of all threads interleave freely.

The lock file lies in the local cache, or in the installation directory if the cache cannot be
created at that moment. The toolchain is chosen apart from that, once in a process.

- `System.compiles_alone`: no two threads use one toolchain directory, if a thread takes its lock
  file while a thread with the other one is in use only where both processes have chosen their
  toolchain, and not the same;
- `System.not_compiles_alone`: two processes with different lock files refresh one mirror.
-/

namespace Compile

open Transition

/-- A toolchain directory, which is also a place for the lock file. -/
inductive Place where
  | install
  | cache
  deriving DecidableEq

/-- What `_local_toolchain` has settled on, once in a process. -/
inductive Toolchain where
  | unresolved
  /-- The configured paths. -/
  | shared
  /-- The copy in the local cache. -/
  | mirror
  deriving DecidableEq

/-- Where a thread is. From `polling` on it has chosen the place of its lock file. -/
inductive Pc where
  | idle
  /-- Before the lock of the process. -/
  | queued
  /-- Before `_cross_process_lock_path`. -/
  | locked
  | polling (file : Place)
  /-- Before `_local_toolchain`. -/
  | holding (file : Place)
  /-- Copies into the mirror and prunes it. -/
  | mirroring (file : Place)
  /-- Runs MetaEditor from `dir`, and reads what came of it. -/
  | running (file dir : Place)
  /-- Before the lock file is unlocked. -/
  | releasing (file : Place)
  /-- Before the handle of the lock file is closed. -/
  | closing (file : Place)
  /-- Before the lock of the process is released. -/
  | unlocking
  /-- Before the slot is released. -/
  | leaving
  | exited
  deriving DecidableEq

/-- How often a thread has taken a resource and given it back. -/
structure Tally where
  taken : ℕ
  given : ℕ
  deriving DecidableEq

structure Thread where
  pc : Pc
  slot : Tally
  lock : Tally
  cross : Tally
  deriving DecidableEq

/-- The configuration, the same for every process, and what each thread is. -/
structure Config (P J : Type) where
  /-- `COMPILE_LOCAL_CACHE` is set. -/
  localCache : Bool
  process : J → P
  warmup : J → Bool

/-- The threads, the slots and the lock of each process, the lock files, and the toolchains. -/
structure System (P J : Type) where
  thread : J → Thread
  slots : P → Finset J
  compileLock : P → Option J
  fileLock : Place → Option J
  toolchain : P → Toolchain

/-- `1 + MAX_WAITING_COMPILES`. -/
def compileSlots : ℕ := 3

/-- What a thread does next. The flags say whether the operation succeeds. -/
inductive Act where
  /-- A request passes its checks and takes a slot; a warm-up claims this boot. -/
  | enter (ok : Bool)
  | takeLock
  /-- The wait for a lock has run out. -/
  | giveUp
  | choosePath (made : Bool)
  | tryLock (opened : Bool)
  /-- The handle of a lock file that another thread holds cannot be closed. -/
  | raise
  | resolve
  | mirrored (ok : Bool)
  /-- The compile ends, with an answer or an exception. -/
  | finish
  | unlock (ok : Bool)
  | close (ok : Bool)
  | releaseLock
  | releaseSlot
  deriving DecidableEq

namespace Tally

def take (t : Tally) : Tally := { t with taken := t.taken + 1 }

def give (t : Tally) : Tally := { t with given := t.given + 1 }

/-- What was taken, at most once, was given back as often. -/
def Settled (t : Tally) : Prop := t.given = t.taken ∧ t.taken ≤ 1

end Tally

/-- The place of the lock file of a thread that has it and may use a toolchain. -/
def Pc.inUse : Pc → Option Place
  | .holding file => some file
  | .mirroring file => some file
  | .running file _ => some file
  | _ => none

namespace System

variable {P J : Type} [DecidableEq P] [DecidableEq J]

def setThread (s : System P J) (j : J) (thread : Thread) : System P J :=
  { s with thread := Function.update s.thread j thread }

/-- Thread `j` goes on at `pc`. -/
def goto (s : System P J) (j : J) (pc : Pc) : System P J :=
  s.setThread j { s.thread j with pc }

/-- Thread `j` of process `p` takes a slot. -/
def takeSlot (s : System P J) (p : P) (j : J) : System P J :=
  { s with slots := Function.update s.slots p (insert j (s.slots p)) }

def giveSlot (s : System P J) (p : P) (j : J) : System P J :=
  { s with slots := Function.update s.slots p ((s.slots p).erase j) }

def setLock (s : System P J) (p : P) (holder : Option J) : System P J :=
  { s with compileLock := Function.update s.compileLock p holder }

def takeFile (s : System P J) (file : Place) (j : J) : System P J :=
  { s with fileLock := Function.update s.fileLock file (some j) }

/-- The lock of the file is dropped, if it is the thread's. -/
def dropFile (s : System P J) (file : Place) (j : J) : System P J :=
  { s with
    fileLock :=
      if s.fileLock file = some j then Function.update s.fileLock file none else s.fileLock }

def setToolchain (s : System P J) (p : P) (toolchain : Toolchain) : System P J :=
  { s with toolchain := Function.update s.toolchain p toolchain }

/-- The directory of a toolchain. -/
def dirOf : Toolchain → Place
  | .mirror => .cache
  | _ => .install

/-- What a toolchain is after a build or refresh of the mirror. -/
def built (ok : Bool) : Toolchain → Toolchain
  | .unresolved => if ok then .mirror else .shared
  | toolchain => toolchain

/-- One step of thread `j`, or `none` if it is elsewhere or has to wait. -/
def step (cfg : Config P J) (s : System P J) : J × Act → Option (System P J)
  | (j, .enter ok) =>
    match (s.thread j).pc with
    | .idle =>
      if cfg.warmup j then some (s.goto j (if ok then .queued else .exited))
      else if ok ∧ (s.slots (cfg.process j)).card < compileSlots then
        some ((s.takeSlot (cfg.process j) j).setThread j
          { s.thread j with pc := .queued, slot := (s.thread j).slot.take })
      else some (s.goto j .exited)
    | _ => none
  | (j, .takeLock) =>
    match (s.thread j).pc with
    | .queued =>
      if s.compileLock (cfg.process j) = none then
        some ((s.setLock (cfg.process j) (some j)).setThread j
          { s.thread j with pc := .locked, lock := (s.thread j).lock.take })
      else none
    | _ => none
  | (j, .giveUp) =>
    match (s.thread j).pc with
    | .queued => some (s.goto j (if cfg.warmup j then .exited else .leaving))
    | .polling _ => some (s.goto j .unlocking)
    | _ => none
  | (j, .choosePath made) =>
    match (s.thread j).pc with
    | .locked => some (s.goto j (.polling (if cfg.localCache && made then .cache else .install)))
    | _ => none
  | (j, .tryLock opened) =>
    match (s.thread j).pc with
    | .polling file =>
      if opened ∧ s.fileLock file = none then
        some ((s.takeFile file j).setThread j
          { s.thread j with pc := .holding file, cross := (s.thread j).cross.take })
      else some s
    | _ => none
  | (j, .raise) =>
    match (s.thread j).pc with
    | .polling _ => some (s.goto j .unlocking)
    | _ => none
  | (j, .resolve) =>
    match (s.thread j).pc with
    | .holding file =>
      match s.toolchain (cfg.process j) with
      | .unresolved =>
        if cfg.localCache then some (s.goto j (.mirroring file))
        else some ((s.setToolchain (cfg.process j) .shared).goto j (.running file .install))
      | .shared => some (s.goto j (.running file .install))
      | .mirror => some (s.goto j (.mirroring file))
    | _ => none
  | (j, .mirrored ok) =>
    match (s.thread j).pc with
    | .mirroring file =>
      let toolchain := built ok (s.toolchain (cfg.process j))
      some ((s.setToolchain (cfg.process j) toolchain).goto j (.running file (dirOf toolchain)))
    | _ => none
  | (j, .finish) =>
    match (s.thread j).pc with
    | .running file _ => some (s.goto j (.releasing file))
    | _ => none
  | (j, .unlock ok) =>
    match (s.thread j).pc with
    | .releasing file => some ((if ok then s.dropFile file j else s).goto j (.closing file))
    | _ => none
  | (j, .close ok) =>
    match (s.thread j).pc with
    | .closing file =>
      -- The handle is gone even if closing it raises. A warm-up does not release the lock then.
      some ((s.dropFile file j).setThread j
        { s.thread j with
          pc := if cfg.warmup j && !ok then .exited else .unlocking
          cross := (s.thread j).cross.give })
    | _ => none
  | (j, .releaseLock) =>
    match (s.thread j).pc with
    | .unlocking =>
      some ((s.setLock (cfg.process j) none).setThread j
        { s.thread j with
          pc := if cfg.warmup j then .exited else .leaving
          lock := (s.thread j).lock.give })
    | _ => none
  | (j, .releaseSlot) =>
    match (s.thread j).pc with
    | .leaving =>
      some ((s.giveSlot (cfg.process j) j).setThread j
        { s.thread j with pc := .exited, slot := (s.thread j).slot.give })
    | _ => none

/-- No thread has begun, and no process has chosen its toolchain. -/
structure Start (s : System P J) : Prop where
  thread : ∀ j, s.thread j = ⟨.idle, ⟨0, 0⟩, ⟨0, 0⟩, ⟨0, 0⟩⟩
  slots : ∀ p, s.slots p = ∅
  compileLock : ∀ p, s.compileLock p = none
  fileLock : ∀ file, s.fileLock file = none
  toolchain : ∀ p, s.toolchain p = .unresolved

/-- Thread `j` uses a toolchain directory: it refreshes the mirror, or runs MetaEditor from it. -/
def Uses (s : System P J) (j : J) (dir : Place) : Prop :=
  (∃ file, (s.thread j).pc = .mirroring file ∧ dir = .cache) ∨
    ∃ file, (s.thread j).pc = .running file dir

/-- No two threads use one toolchain directory. -/
def Exclusive (s : System P J) : Prop := ∀ j k dir, s.Uses j dir → s.Uses k dir → j = k

/-- A request that has ended has given back what it took, and holds nothing. -/
structure GivenBack (s : System P J) (j : J) : Prop where
  slot : (s.thread j).slot.Settled
  lock : (s.thread j).lock.Settled
  cross : (s.thread j).cross.Settled
  not_slot : ∀ p, j ∉ s.slots p
  not_lock : ∀ p, s.compileLock p ≠ some j
  not_file : ∀ file, s.fileLock file ≠ some j

/-- Compiles exclude one another, and a request gives back what it took. -/
structure Alone (cfg : Config P J) (s : System P J) : Prop where
  exclusive : s.Exclusive
  given_back : ∀ j, cfg.warmup j = false → (s.thread j).pc = .exited → s.GivenBack j

/-- Both processes have chosen their toolchain, and not the same. -/
def Apart (a b : Toolchain) : Prop := a ≠ .unresolved ∧ b ≠ .unresolved ∧ a ≠ b

/-- A thread takes its lock file while a thread with the other one is in use only if their
toolchains are apart. -/
def Ok (cfg : Config P J) (s : System P J) : J × Act → Prop
  | (j, .tryLock true) => ∀ file, (s.thread j).pc = .polling file → s.fileLock file = none →
    ∀ k file', (s.thread k).pc.inUse = some file' → file' ≠ file →
      Apart (s.toolchain (cfg.process j)) (s.toolchain (cfg.process k))
  | _ => True

/-! ### What a step can do -/

/-- Whether a thread has yet to take a resource, has it, or is done with it. -/
inductive Stage where
  | before
  | held
  | after
  deriving DecidableEq

/-- The stage of a place, for the slot, the lock of the process and the handle of the lock file. -/
def slotStage : Pc → Stage
  | .idle => .before
  | .exited => .after
  | _ => .held

def lockStage : Pc → Stage
  | .idle | .queued => .before
  | .leaving | .exited => .after
  | _ => .held

def crossStage : Pc → Stage
  | .idle | .queued | .locked | .polling _ => .before
  | .holding _ | .mirroring _ | .running _ _ | .releasing _ | .closing _ => .held
  | .unlocking | .leaving | .exited => .after

/-- The lock file a thread has open, from its taking on. -/
def handle : Pc → Option Place
  | .holding file | .mirroring file | .running file _ | .releasing file | .closing file => some file
  | _ => none

/-- The lock file a thread is sure to have locked. -/
def owns : Pc → Option Place
  | .holding file | .mirroring file | .running file _ | .releasing file => some file
  | _ => none

/-- A resource is kept, or done without. -/
def Skips (a b : Stage) : Prop := a = b ∨ a = .before ∧ b = .after

/-- A place at which a thread holds no more than before, and has open what it had. A request keeps
what it has. -/
structure Onto (warmup : Bool) (old new : Pc) : Prop where
  slot : warmup = false → Skips (slotStage old) (slotStage new)
  lock : warmup = false → Skips (lockStage old) (lockStage new)
  cross : warmup = false → Skips (crossStage old) (crossStage new)
  held : lockStage new = .held → lockStage old = .held
  handle : handle new = handle old
  owns : ∀ file, owns new = some file → owns old = some file
  inUse : ∀ file, new.inUse = some file → old.inUse = some file

/-- What a thread at a place knows of the toolchain of its process. -/
def Fits (toolchain : Toolchain) : Pc → Prop
  | .mirroring _ => toolchain ≠ .shared
  | .running _ dir => toolchain ≠ .unresolved ∧ dir = dirOf toolchain
  | _ => True

/-- The steps of thread `j`, each with what it needs and what it does. -/
inductive Move (cfg : Config P J) (s : System P J) (j : J) : System P J → Prop where
  | stay : Move cfg s j s
  | goto (pc) (honto : Onto (cfg.warmup j) (s.thread j).pc pc)
    (hfits : Fits (s.toolchain (cfg.process j)) pc) : Move cfg s j (s.goto j pc)
  | takeSlot (hpc : (s.thread j).pc = .idle) :
    Move cfg s j ((s.takeSlot (cfg.process j) j).setThread j
      { s.thread j with pc := .queued, slot := (s.thread j).slot.take })
  | takeLock (hpc : (s.thread j).pc = .queued) (hfree : s.compileLock (cfg.process j) = none) :
    Move cfg s j ((s.setLock (cfg.process j) (some j)).setThread j
      { s.thread j with pc := .locked, lock := (s.thread j).lock.take })
  | takeFile (file) (hpc : (s.thread j).pc = .polling file) (hfree : s.fileLock file = none)
    (hapart : ∀ k file', (s.thread k).pc.inUse = some file' → file' ≠ file →
      Apart (s.toolchain (cfg.process j)) (s.toolchain (cfg.process k))) :
    Move cfg s j ((s.takeFile file j).setThread j
      { s.thread j with pc := .holding file, cross := (s.thread j).cross.take })
  | settle (toolchain pc) (honto : Onto (cfg.warmup j) (s.thread j).pc pc)
      (hfits : Fits toolchain pc)
    (huse : ∃ file, (s.thread j).pc.inUse = some file)
    (htoolchain : s.toolchain (cfg.process j) = .unresolved ∨
      toolchain = s.toolchain (cfg.process j)) :
    Move cfg s j ((s.setToolchain (cfg.process j) toolchain).goto j pc)
  | unlock (file) (hpc : (s.thread j).pc = .releasing file) :
    Move cfg s j ((s.dropFile file j).goto j (.closing file))
  | close (file pc) (hpc : (s.thread j).pc = .closing file)
    (hnext : pc = .unlocking ∨ cfg.warmup j = true ∧ pc = .exited) :
    Move cfg s j ((s.dropFile file j).setThread j
      { s.thread j with pc, cross := (s.thread j).cross.give })
  | releaseLock (pc) (hpc : (s.thread j).pc = .unlocking)
    (hnext : pc = .leaving ∨ cfg.warmup j = true ∧ pc = .exited) :
    Move cfg s j ((s.setLock (cfg.process j) none).setThread j
      { s.thread j with pc, lock := (s.thread j).lock.give })
  | releaseSlot (hpc : (s.thread j).pc = .leaving) :
    Move cfg s j ((s.giveSlot (cfg.process j) j).setThread j
      { s.thread j with pc := .exited, slot := (s.thread j).slot.give })

variable {cfg : Config P J} {s t : System P J} {j k : J} {act : Act} {pc : Pc} {file dir : Place}

/-! The ways on without taking or giving anything. -/

section Onto

variable {w : Bool}

theorem onto_exited_of_idle : Onto w .idle .exited :=
  ⟨fun _ => .inr ⟨rfl, rfl⟩, fun _ => .inr ⟨rfl, rfl⟩, fun _ => .inr ⟨rfl, rfl⟩,
    (fun h => by cases h), rfl, fun _ h => h, fun _ h => h⟩

theorem onto_queued_of_idle : Onto true .idle .queued :=
  ⟨(fun h => by cases h), (fun h => by cases h), (fun h => by cases h), fun h => h, rfl,
    fun _ h => h,
    fun _ h => h⟩

/-- A warm-up may end wherever it has no lock file open. -/
theorem onto_exited_of_warmup (hhandle : handle pc = none) : Onto true pc .exited :=
  ⟨(fun h => by cases h), (fun h => by cases h), (fun h => by cases h), (fun h => by cases h),
    hhandle.symm, (fun _ h => by cases h), (fun _ h => by cases h)⟩

theorem onto_leaving_of_queued : Onto w .queued .leaving :=
  ⟨fun _ => .inl rfl, fun _ => .inr ⟨rfl, rfl⟩, fun _ => .inr ⟨rfl, rfl⟩, (fun h => by cases h),
    rfl,
    fun _ h => h, fun _ h => h⟩

theorem onto_polling_of_locked : Onto w .locked (.polling file) :=
  ⟨fun _ => .inl rfl, fun _ => .inl rfl, fun _ => .inl rfl, fun h => h, rfl, fun _ h => h,
    fun _ h => h⟩

theorem onto_unlocking_of_polling : Onto w (.polling file) .unlocking :=
  ⟨fun _ => .inl rfl, fun _ => .inl rfl, fun _ => .inr ⟨rfl, rfl⟩, fun h => h, rfl,
    fun _ h => h, fun _ h => h⟩

theorem onto_mirroring_of_holding : Onto w (.holding file) (.mirroring file) :=
  ⟨fun _ => .inl rfl, fun _ => .inl rfl, fun _ => .inl rfl, fun h => h, rfl, fun _ h => h,
    fun _ h => h⟩

theorem onto_running_of_holding : Onto w (.holding file) (.running file dir) :=
  ⟨fun _ => .inl rfl, fun _ => .inl rfl, fun _ => .inl rfl, fun h => h, rfl, fun _ h => h,
    fun _ h => h⟩

theorem onto_running_of_mirroring : Onto w (.mirroring file) (.running file dir) :=
  ⟨fun _ => .inl rfl, fun _ => .inl rfl, fun _ => .inl rfl, fun h => h, rfl, fun _ h => h,
    fun _ h => h⟩

theorem onto_releasing_of_running : Onto w (.running file dir) (.releasing file) :=
  ⟨fun _ => .inl rfl, fun _ => .inl rfl, fun _ => .inl rfl, fun h => h, rfl, fun _ h => h,
    (fun _ h => by cases h)⟩

theorem onto_closing_of_releasing : Onto w (.releasing file) (.closing file) :=
  ⟨fun _ => .inl rfl, fun _ => .inl rfl, fun _ => .inl rfl, fun h => h, rfl,
    (fun _ h => by cases h), (fun _ h => by cases h)⟩

end Onto

theorem move_enter {ok : Bool} (h : step cfg s (j, .enter ok) = some t) : Move cfg s j t := by
  rw [step] at h
  split at h
  next hpc =>
    split at h
    next hwarmup =>
      cases h
      cases ok with
      | true => exact .goto _ (by rw [hpc, hwarmup]; exact onto_queued_of_idle) trivial
      | false => exact .goto _ (by rw [hpc]; exact onto_exited_of_idle) trivial
    next =>
      split at h <;> cases h
      · exact .takeSlot hpc
      · exact .goto _ (by rw [hpc]; exact onto_exited_of_idle) trivial
  next => cases h

theorem move_resolve (h : step cfg s (j, .resolve) = some t) : Move cfg s j t := by
  rw [step] at h
  split at h
  next file hpc =>
    split at h
    next hunresolved =>
      split at h <;> cases h
      · refine .goto _ (by rw [hpc]; exact onto_mirroring_of_holding) ?_
        rw [hunresolved]
        exact (by decide : Toolchain.unresolved ≠ .shared)
      · refine .settle _ _ (by rw [hpc]; exact onto_running_of_holding) ?_ ⟨file, by rw [hpc]; rfl⟩
          (.inl hunresolved)
        exact ⟨by decide, rfl⟩
    next hshared =>
      cases h
      refine .goto _ (by rw [hpc]; exact onto_running_of_holding) ?_
      rw [hshared]
      exact ⟨by decide, rfl⟩
    next hmirror =>
      cases h
      refine .goto _ (by rw [hpc]; exact onto_mirroring_of_holding) ?_
      rw [hmirror]
      exact (by decide : Toolchain.mirror ≠ .shared)
  next => cases h

theorem move_mirrored {ok : Bool} (h : step cfg s (j, .mirrored ok) = some t) : Move cfg s j t := by
  rw [step] at h
  split at h
  next file hpc =>
    cases h
    refine .settle _ _ (by rw [hpc]; exact onto_running_of_mirroring) ?_ ⟨file, by rw [hpc]; rfl⟩ ?_
    · refine ⟨?_, rfl⟩
      cases s.toolchain (cfg.process j) with
      | unresolved => cases ok <;> decide
      | shared => exact (by decide : Toolchain.shared ≠ .unresolved)
      | mirror => exact (by decide : Toolchain.mirror ≠ .unresolved)
    · cases s.toolchain (cfg.process j) with
      | unresolved => exact .inl rfl
      | shared => exact .inr rfl
      | mirror => exact .inr rfl
  next => cases h

theorem move_tryLock {opened : Bool} (hok : Ok cfg s (j, .tryLock opened))
    (h : step cfg s (j, .tryLock opened) = some t) : Move cfg s j t := by
  rw [step] at h
  split at h
  next file hpc =>
    split at h <;> cases h
    next hfree =>
      obtain ⟨rfl, hfree⟩ := hfree
      exact .takeFile file hpc hfree (hok file hpc hfree)
    next => exact .stay
  next => cases h

/-- Every step under the condition is a move. -/
theorem move_of_step (hok : Ok cfg s (j, act)) (h : step cfg s (j, act) = some t) :
    Move cfg s j t := by
  cases act with
  | enter ok => exact move_enter h
  | resolve => exact move_resolve h
  | mirrored ok => exact move_mirrored h
  | tryLock opened => exact move_tryLock hok h
  | takeLock =>
    rw [step] at h
    split at h
    next hpc =>
      obtain ⟨hfree, h⟩ := Option.ite_none_right_eq_some.mp h
      cases h
      exact .takeLock hpc hfree
    next => cases h
  | giveUp =>
    rw [step] at h
    split at h <;> cases h
    next hpc =>
      refine .goto _ ?_ (by split <;> trivial)
      rw [hpc]
      split
      -- a warm-up has no slot that it would give back
      next hwarmup => rw [hwarmup]; exact onto_exited_of_warmup rfl
      next => exact onto_leaving_of_queued
    next file hpc => exact .goto _ (by rw [hpc]; exact onto_unlocking_of_polling) trivial
  | choosePath made =>
    rw [step] at h
    split at h <;> cases h
    next hpc => exact .goto _ (by rw [hpc]; exact onto_polling_of_locked) trivial
  | raise =>
    rw [step] at h
    split at h <;> cases h
    next file hpc => exact .goto _ (by rw [hpc]; exact onto_unlocking_of_polling) trivial
  | finish =>
    rw [step] at h
    split at h <;> cases h
    next file dir hpc => exact .goto _ (by rw [hpc]; exact onto_releasing_of_running) trivial
  | unlock ok =>
    rw [step] at h
    split at h <;> cases h
    next file hpc =>
      cases ok with
      | true => exact .unlock file hpc
      -- closing the file unlocks it all the same
      | false => exact .goto _ (by rw [hpc]; exact onto_closing_of_releasing) trivial
  | close ok =>
    rw [step] at h
    split at h <;> cases h
    next file hpc =>
      refine .close file _ hpc ?_
      split
      next hraised => exact .inr ⟨(Bool.and_eq_true_iff.mp hraised).1, rfl⟩
      next => exact .inl rfl
  | releaseLock =>
    rw [step] at h
    split at h <;> cases h
    next hpc =>
      refine .releaseLock _ hpc ?_
      split
      next hwarmup => exact .inr ⟨hwarmup, rfl⟩
      next => exact .inl rfl
  | releaseSlot =>
    rw [step] at h
    split at h <;> cases h
    next hpc => exact .releaseSlot hpc

/-! ### The invariant -/

/-- A tally at a stage of the resource. -/
def Tallied (t : Tally) : Stage → Prop
  | .before => t = ⟨0, 0⟩
  | .held => t = ⟨1, 0⟩
  | .after => t = ⟨0, 0⟩ ∨ t = ⟨1, 1⟩

theorem Tallied.skip {t : Tally} {a b : Stage} (h : Tallied t a) (hskip : Skips a b) :
    Tallied t b := by
  obtain rfl | ⟨rfl, rfl⟩ := hskip
  · exact h
  · exact .inl h

theorem Skips.held_left {b : Stage} (h : Skips .held b) : b = .held := by
  rcases h with rfl | ⟨h, -⟩
  · rfl
  · cases h

theorem Tallied.take {t : Tally} (h : Tallied t .before) : Tallied t.take .held := by
  obtain rfl : t = ⟨0, 0⟩ := h
  rfl

theorem Tallied.give {t : Tally} (h : Tallied t .held) : Tallied t.give .after := by
  obtain rfl : t = ⟨1, 0⟩ := h
  exact .inr rfl

theorem Tallied.settled {t : Tally} (h : Tallied t .after) : t.Settled := by
  rcases h with rfl | rfl
  · exact ⟨rfl, Nat.zero_le 1⟩
  · exact ⟨rfl, le_refl 1⟩

/-- A thread against what is shared. -/
structure ThreadOk (cfg : Config P J) (s : System P J) (j : J) : Prop where
  slot : cfg.warmup j = false → Tallied (s.thread j).slot (slotStage (s.thread j).pc)
  lock : cfg.warmup j = false → Tallied (s.thread j).lock (lockStage (s.thread j).pc)
  cross : cfg.warmup j = false → Tallied (s.thread j).cross (crossStage (s.thread j).pc)
  slot_of_mem : cfg.warmup j = false → ∀ p, j ∈ s.slots p →
    p = cfg.process j ∧ slotStage (s.thread j).pc = .held
  lock_of_held : lockStage (s.thread j).pc = .held → s.compileLock (cfg.process j) = some j
  /-- A warm-up may end with the lock. -/
  held_of_lock : ∀ p, s.compileLock p = some j →
    p = cfg.process j ∧ (cfg.warmup j = false → lockStage (s.thread j).pc = .held)
  file_of_owns : ∀ file, owns (s.thread j).pc = some file → s.fileLock file = some j
  handle_of_file : ∀ file, s.fileLock file = some j → handle (s.thread j).pc = some file
  fits : Fits (s.toolchain (cfg.process j)) (s.thread j).pc

/-- Threads in use of a toolchain with different lock files have different toolchains. -/
def UsesApart (cfg : Config P J) (s : System P J) : Prop :=
  ∀ j k file file', (s.thread j).pc.inUse = some file → (s.thread k).pc.inUse = some file' →
    file ≠ file' → Apart (s.toolchain (cfg.process j)) (s.toolchain (cfg.process k))

structure Inv (cfg : Config P J) (s : System P J) : Prop where
  thread : ∀ j, ThreadOk cfg s j
  apart : UsesApart cfg s

/-! ### Frames -/

omit [DecidableEq P] in
@[simp]
theorem setThread_thread_self {thread : Thread} : (s.setThread j thread).thread j = thread :=
  Function.update_self _ _ _

omit [DecidableEq P] in
theorem setThread_thread_of_ne (hkj : k ≠ j) {thread : Thread} :
    (s.setThread j thread).thread k = s.thread k :=
  Function.update_of_ne hkj _ _

omit [DecidableEq P] in
/-- A warm-up that is done ends after what it did last. -/
theorem setThread_goto {thread : Thread} :
    (s.setThread j thread).goto j pc = s.setThread j { thread with pc } := by
  rw [goto, setThread_thread_self, setThread, setThread, setThread]
  simp only [Function.update_idem]

omit [DecidableEq J] in
/-- Who else holds a resource does not change when `j` takes or gives it. -/
theorem update_eq_some_iff {A : Type} [DecidableEq A] {f : A → Option J} {a : A} {o : Option J}
    (hbefore : f a ≠ some k) (hafter : o ≠ some k) (b : A) :
    Function.update f a o b = some k ↔ f b = some k := by
  rcases eq_or_ne b a with rfl | hba
  · rw [Function.update_self]
    exact ⟨fun h => absurd h hafter, fun h => absurd h hbefore⟩
  · rw [Function.update_of_ne hba]

omit [DecidableEq P] in
theorem dropFile_fileLock_of_ne (hkj : k ≠ j) (file' : Place) :
    (s.dropFile file j).fileLock file' = some k ↔ s.fileLock file' = some k := by
  rw [dropFile]
  dsimp only
  split
  next hheld =>
    refine update_eq_some_iff ?_ (by simp) file'
    rw [hheld]
    exact fun h => hkj (Option.some.inj h).symm
  next => exact Iff.rfl

omit [DecidableEq P] in
theorem dropFile_fileLock_self (file' : Place) :
    (s.dropFile file j).fileLock file' = some j ↔ s.fileLock file' = some j ∧ file' ≠ file := by
  rw [dropFile]
  dsimp only
  rcases eq_or_ne file' file with rfl | hne
  · split
    next => simp
    next hfree => simp [hfree]
  · split
    next => rw [Function.update_of_ne hne]; simp [hne]
    next => simp [hne]

theorem mem_slots_takeSlot {p p' : P} (h : k ∈ (s.takeSlot p j).slots p') :
    k ∈ s.slots p' ∨ k = j ∧ p' = p := by
  change k ∈ Function.update s.slots p (insert j (s.slots p)) p' at h
  rcases eq_or_ne p' p with rfl | hp
  · rw [Function.update_self] at h
    exact (Finset.mem_insert.mp h).symm.imp id fun hkj => ⟨hkj, rfl⟩
  · rw [Function.update_of_ne hp] at h
    exact .inl h

theorem mem_slots_giveSlot {p p' : P} (h : k ∈ (s.giveSlot p j).slots p') :
    k ∈ s.slots p' ∧ ¬ (k = j ∧ p' = p) := by
  change k ∈ Function.update s.slots p ((s.slots p).erase j) p' at h
  rcases eq_or_ne p' p with rfl | hp
  · rw [Function.update_self] at h
    obtain ⟨hkj, hk⟩ := Finset.mem_erase.mp h
    exact ⟨hk, fun h => hkj h.1⟩
  · rw [Function.update_of_ne hp] at h
    exact ⟨h, fun h => hp h.2⟩

omit [DecidableEq P] [DecidableEq J] in
/-- What a step of another thread leaves as it is. -/
theorem ThreadOk.frame (hk : ThreadOk cfg s k) (hthread : t.thread k = s.thread k)
    (hslots : ∀ p, k ∈ t.slots p → k ∈ s.slots p)
    (hlock : ∀ p, t.compileLock p = some k ↔ s.compileLock p = some k)
    (hfile : ∀ file, t.fileLock file = some k ↔ s.fileLock file = some k)
    (hfits : Fits (t.toolchain (cfg.process k)) (s.thread k).pc) : ThreadOk cfg t k where
  slot := by
    rw [hthread]
    exact hk.slot
  lock := by
    rw [hthread]
    exact hk.lock
  cross := by
    rw [hthread]
    exact hk.cross
  slot_of_mem hw p hp := by
    rw [hthread]
    exact hk.slot_of_mem hw p (hslots p hp)
  lock_of_held h := by
    rw [hthread] at h
    exact (hlock _).mpr (hk.lock_of_held h)
  held_of_lock p hp := by
    rw [hthread]
    exact hk.held_of_lock p ((hlock p).mp hp)
  file_of_owns file h := by
    rw [hthread] at h
    exact (hfile file).mpr (hk.file_of_owns file h)
  handle_of_file file h := by
    rw [hthread]
    exact hk.handle_of_file file ((hfile file).mp h)
  fits := by
    rw [hthread]
    exact hfits

omit [DecidableEq P] in
/-- Thread `j` goes on, after a change of its resources from `s` to `u`. -/
theorem forall_threadOk {u : System P J} {thread : Thread} (hs : ∀ k, ThreadOk cfg s k)
    (hj : ThreadOk cfg (u.setThread j thread) j) (hthread : u.thread = s.thread)
    (hslots : ∀ k, k ≠ j → ∀ p, k ∈ u.slots p → k ∈ s.slots p)
    (hlock : ∀ k, k ≠ j → ∀ p, u.compileLock p = some k ↔ s.compileLock p = some k)
    (hfile : ∀ k, k ≠ j → ∀ file, u.fileLock file = some k ↔ s.fileLock file = some k)
    (hfits : ∀ k, k ≠ j → Fits (u.toolchain (cfg.process k)) (s.thread k).pc) (k : J) :
    ThreadOk cfg (u.setThread j thread) k := by
  rcases eq_or_ne k j with rfl | hkj
  · exact hj
  · refine (hs k).frame ?_ (hslots k hkj) (hlock k hkj) (hfile k hkj) (hfits k hkj)
    rw [setThread_thread_of_ne hkj, hthread]

omit [DecidableEq P] in
theorem UsesApart.setThread {u : System P J} {thread : Thread} (hs : UsesApart cfg s)
    (hthread : u.thread = s.thread) (htoolchain : u.toolchain = s.toolchain)
    (hinUse : ∀ file, thread.pc.inUse = some file → (s.thread j).pc.inUse = some file) :
    UsesApart cfg (u.setThread j thread) := by
  have hbefore : ∀ k file, ((u.setThread j thread).thread k).pc.inUse = some file →
      (s.thread k).pc.inUse = some file := by
    intro k file hk
    rcases eq_or_ne k j with rfl | hkj
    · rw [setThread_thread_self] at hk
      exact hinUse file hk
    · rwa [setThread_thread_of_ne hkj, hthread] at hk
  intro k k' file file' hk hk' hne
  change Apart (u.toolchain _) (u.toolchain _)
  rw [htoolchain]
  exact hs k k' file file' (hbefore k file hk) (hbefore k' file' hk') hne

omit [DecidableEq P] in
/-- The thread after it has gone on without taking or giving anything. -/
theorem ThreadOk.goto (hj : ThreadOk cfg s j) (honto : Onto (cfg.warmup j) (s.thread j).pc pc)
    {u : System P J} (hslots : u.slots = s.slots) (hlock : u.compileLock = s.compileLock)
    (hfile : u.fileLock = s.fileLock) (hfits : Fits (u.toolchain (cfg.process j)) pc) :
    ThreadOk cfg (u.setThread j { s.thread j with pc }) j where
  slot hw := by
    rw [setThread_thread_self]
    exact (hj.slot hw).skip (honto.slot hw)
  lock hw := by
    rw [setThread_thread_self]
    exact (hj.lock hw).skip (honto.lock hw)
  cross hw := by
    rw [setThread_thread_self]
    exact (hj.cross hw).skip (honto.cross hw)
  slot_of_mem hw p hp := by
    rw [setThread_thread_self]
    change j ∈ u.slots p at hp
    rw [hslots] at hp
    obtain ⟨hprocess, hheld⟩ := hj.slot_of_mem hw p hp
    refine ⟨hprocess, Skips.held_left ?_⟩
    rw [← hheld]
    exact honto.slot hw
  lock_of_held h := by
    rw [setThread_thread_self] at h
    change u.compileLock _ = _
    rw [hlock]
    exact hj.lock_of_held (honto.held h)
  held_of_lock p hp := by
    rw [setThread_thread_self]
    change u.compileLock p = _ at hp
    rw [hlock] at hp
    obtain ⟨hprocess, hheld⟩ := hj.held_of_lock p hp
    refine ⟨hprocess, fun hw => Skips.held_left ?_⟩
    rw [← hheld hw]
    exact honto.lock hw
  file_of_owns file h := by
    rw [setThread_thread_self] at h
    change u.fileLock file = _
    rw [hfile]
    exact hj.file_of_owns file (honto.owns file h)
  handle_of_file file h := by
    rw [setThread_thread_self]
    change u.fileLock file = _ at h
    rw [hfile] at h
    exact honto.handle.trans (hj.handle_of_file file h)
  fits := by
    rw [setThread_thread_self]
    exact hfits

theorem Apart.symm {a b : Toolchain} (h : Apart a b) : Apart b a := ⟨h.2.1, h.1, h.2.2.symm⟩

namespace Inv

omit [DecidableEq P] in
theorem goto (hs : Inv cfg s) (honto : Onto (cfg.warmup j) (s.thread j).pc pc)
    (hfits : Fits (s.toolchain (cfg.process j)) pc) : Inv cfg (s.goto j pc) where
  thread := forall_threadOk hs.thread ((hs.thread j).goto honto rfl rfl rfl hfits) rfl
    (fun _ _ _ h => h) (fun _ _ _ => Iff.rfl) (fun _ _ _ => Iff.rfl)
    (fun k _ => (hs.thread k).fits)
  apart := hs.apart.setThread rfl rfl honto.inUse

omit [DecidableEq P] in
/-- A warm-up with no lock file open ends. -/
theorem exit (hs : Inv cfg s) (hw : cfg.warmup j = true) (hhandle : handle (s.thread j).pc = none) :
    Inv cfg (s.goto j .exited) := by
  refine hs.goto ?_ trivial
  rw [hw]
  exact onto_exited_of_warmup hhandle

omit [DecidableEq P] [DecidableEq J] in
/-- Two threads of one process do not both hold its lock. -/
theorem eq_of_held (hs : Inv cfg s) (hj : lockStage (s.thread j).pc = .held)
    (hk : lockStage (s.thread k).pc = .held) (hprocess : cfg.process j = cfg.process k) :
    j = k := by
  have hlock := (hs.thread j).lock_of_held hj
  rw [hprocess, (hs.thread k).lock_of_held hk] at hlock
  exact (Option.some.inj hlock).symm

omit [DecidableEq P] [DecidableEq J] in
theorem lockStage_of_inUse (h : pc.inUse = some file) : lockStage pc = .held := by
  cases pc with
  | holding file => rfl
  | mirroring file => rfl
  | running file dir => rfl
  | _ => cases h

omit [DecidableEq P] [DecidableEq J] in
/-- What knows of the toolchain is in use. -/
theorem fits_of_not_held (h : lockStage pc ≠ .held) (toolchain : Toolchain) :
    Fits toolchain pc := by
  cases pc with
  | mirroring file => exact absurd rfl h
  | running file dir => exact absurd rfl h
  | _ => trivial

/-- The process of a thread in use settles on a toolchain. -/
theorem settle (hs : Inv cfg s) {toolchain : Toolchain}
    (honto : Onto (cfg.warmup j) (s.thread j).pc pc) (hfits : Fits toolchain pc)
    (huse : ∃ file, (s.thread j).pc.inUse = some file)
    (htoolchain : s.toolchain (cfg.process j) = .unresolved ∨
      toolchain = s.toolchain (cfg.process j)) :
    Inv cfg ((s.setToolchain (cfg.process j) toolchain).goto j pc) := by
  obtain ⟨file, huse⟩ := huse
  have hheld := lockStage_of_inUse huse
  have hself : (s.setToolchain (cfg.process j) toolchain).toolchain (cfg.process j) = toolchain :=
    Function.update_self _ _ _
  -- Nobody else in the process holds its lock.
  have hother : ∀ k, k ≠ j → lockStage (s.thread k).pc = .held →
      (s.setToolchain (cfg.process j) toolchain).toolchain (cfg.process k) =
        s.toolchain (cfg.process k) := by
    intro k hkj hk
    refine Function.update_of_ne (fun hprocess => ?_) _ _
    exact hkj (hs.eq_of_held hk hheld hprocess)
  have hfits' : Fits ((s.setToolchain (cfg.process j) toolchain).toolchain (cfg.process j)) pc := by
    rwa [hself]
  constructor
  · refine forall_threadOk hs.thread ((hs.thread j).goto honto rfl rfl rfl hfits') rfl
      (fun _ _ _ h => h) (fun _ _ _ => Iff.rfl) (fun _ _ _ => Iff.rfl) fun k hkj => ?_
    by_cases hk : lockStage (s.thread k).pc = .held
    · rw [hother k hkj hk]
      exact (hs.thread k).fits
    · exact fits_of_not_held hk _
  · -- If somebody is in use with the other file, the toolchain was chosen already.
    have hsame : ∀ k file', k ≠ j → (s.thread k).pc.inUse = some file' → file ≠ file' →
        toolchain = s.toolchain (cfg.process j) := by
      intro k file' _ hk hne
      exact htoolchain.resolve_left (hs.apart j k file file' huse hk hne).1
    have hnow : ∀ k file', ((s.goto j pc).thread k).pc.inUse = some file' →
        (s.thread k).pc.inUse = some file' := by
      intro k file' hk
      rcases eq_or_ne k j with rfl | hkj
      · rw [System.goto, setThread_thread_self] at hk
        exact honto.inUse file' hk
      · rwa [System.goto, setThread_thread_of_ne hkj] at hk
    intro k k' file₁ file₂ hk hk' hne
    replace hk := hnow k file₁ hk
    replace hk' := hnow k' file₂ hk'
    have happart := hs.apart k k' file₁ file₂ hk hk' hne
    change Apart ((s.setToolchain _ toolchain).toolchain _)
      ((s.setToolchain _ toolchain).toolchain _)
    rcases eq_or_ne k j with rfl | hkj
    · obtain rfl : file = file₁ := Option.some.inj (huse.symm.trans hk)
      rcases eq_or_ne k' k with rfl | hkj'
      · exact absurd (Option.some.inj (hk.symm.trans hk')) hne
      · rw [hself, hother k' hkj' (lockStage_of_inUse hk'), hsame k' file₂ hkj' hk' hne]
        exact happart
    · rw [hother k hkj (lockStage_of_inUse hk)]
      rcases eq_or_ne k' j with rfl | hkj'
      · obtain rfl : file = file₂ := Option.some.inj (huse.symm.trans hk')
        rw [hself, hsame k file₁ hkj hk hne.symm]
        exact happart
      · rw [hother k' hkj' (lockStage_of_inUse hk')]
        exact happart

theorem takeSlot (hs : Inv cfg s) (hpc : (s.thread j).pc = .idle) :
    Inv cfg ((s.takeSlot (cfg.process j) j).setThread j
      { s.thread j with pc := .queued, slot := (s.thread j).slot.take }) where
  thread := by
    obtain ⟨hslot, hlock, hcross, hmem, -, hlocked, -, hopen, -⟩ := hs.thread j
    rw [hpc] at hslot hlock hcross hlocked hopen
    refine forall_threadOk hs.thread ?_ rfl (fun k hkj p hk => ?_) (fun _ _ _ => Iff.rfl)
      (fun _ _ _ => Iff.rfl) fun k _ => (hs.thread k).fits
    · constructor <;> rw [setThread_thread_self]
      · exact fun hw => (hslot hw).take
      · exact hlock
      · exact hcross
      · intro hw p hp
        refine ⟨?_, rfl⟩
        rcases mem_slots_takeSlot hp with hp | ⟨-, hprocess⟩
        · exact (hmem hw p hp).1
        · exact hprocess
      · exact fun h => by cases h
      · exact hlocked
      · exact fun file h => by cases h
      · exact hopen
      · trivial
    · exact (mem_slots_takeSlot hk).resolve_right fun h => hkj h.1
  apart := hs.apart.setThread rfl rfl fun file h => by cases h

theorem takeLock (hs : Inv cfg s) (hpc : (s.thread j).pc = .queued)
    (hfree : s.compileLock (cfg.process j) = none) :
    Inv cfg ((s.setLock (cfg.process j) (some j)).setThread j
      { s.thread j with pc := .locked, lock := (s.thread j).lock.take }) where
  thread := by
    obtain ⟨hslot, hlock, hcross, hmem, -, hlocked, -, hopen, -⟩ := hs.thread j
    rw [hpc] at hslot hlock hcross hmem hopen
    refine forall_threadOk hs.thread ?_ rfl (fun _ _ _ h => h) (fun k hkj => ?_)
      (fun _ _ _ => Iff.rfl) fun k _ => (hs.thread k).fits
    · constructor <;> rw [setThread_thread_self]
      · exact hslot
      · exact fun hw => (hlock hw).take
      · exact hcross
      · exact hmem
      · exact fun _ => Function.update_self _ _ _
      · intro p hp
        refine ⟨?_, fun _ => rfl⟩
        by_contra hne
        refine hne (hlocked p ?_).1
        exact (Function.update_of_ne hne _ _).symm.trans hp
      · exact fun file h => by cases h
      · exact hopen
      · trivial
    · refine update_eq_some_iff ?_ fun h => hkj (Option.some.inj h).symm
      rw [hfree]
      exact fun h => by cases h
  apart := hs.apart.setThread rfl rfl fun file h => by cases h

theorem releaseSlot (hs : Inv cfg s) (hpc : (s.thread j).pc = .leaving) :
    Inv cfg ((s.giveSlot (cfg.process j) j).setThread j
      { s.thread j with pc := .exited, slot := (s.thread j).slot.give }) where
  thread := by
    obtain ⟨hslot, hlock, hcross, hmem, -, hlocked, -, hopen, -⟩ := hs.thread j
    rw [hpc] at hslot hlock hcross hlocked hopen
    refine forall_threadOk hs.thread ?_ rfl (fun k _ p hk => (mem_slots_giveSlot hk).1)
      (fun _ _ _ => Iff.rfl) (fun _ _ _ => Iff.rfl) fun k _ => (hs.thread k).fits
    constructor <;> rw [setThread_thread_self]
    · exact fun hw => (hslot hw).give
    · exact hlock
    · exact hcross
    · intro hw p hp
      obtain ⟨hp, hother⟩ := mem_slots_giveSlot hp
      exact absurd ⟨rfl, (hmem hw p hp).1⟩ hother
    · exact fun h => by cases h
    · exact hlocked
    · exact fun file h => by cases h
    · exact hopen
    · trivial
  apart := hs.apart.setThread rfl rfl fun file h => by cases h

omit [DecidableEq P] in
theorem unlock (hs : Inv cfg s) (hpc : (s.thread j).pc = .releasing file) :
    Inv cfg ((s.dropFile file j).goto j (.closing file)) where
  thread := by
    obtain ⟨hslot, hlock, hcross, hmem, hheld, hlocked, -, hopen, -⟩ := hs.thread j
    rw [hpc] at hslot hlock hcross hmem hheld hlocked hopen
    refine forall_threadOk hs.thread ?_ rfl (fun _ _ _ h => h) (fun _ _ _ => Iff.rfl)
      (fun k hkj => dropFile_fileLock_of_ne hkj) fun k _ => (hs.thread k).fits
    constructor <;> rw [setThread_thread_self]
    · exact hslot
    · exact hlock
    · exact hcross
    · exact hmem
    · exact hheld
    · exact hlocked
    · exact fun file h => by cases h
    · exact fun file' h => hopen file' ((dropFile_fileLock_self file').mp h).1
    · trivial
  apart := hs.apart.setThread rfl rfl fun file h => by cases h

omit [DecidableEq P] in
theorem close (hs : Inv cfg s) (hpc : (s.thread j).pc = .closing file)
    (hnext : pc = .unlocking ∨ cfg.warmup j = true ∧ pc = .exited) :
    Inv cfg ((s.dropFile file j).setThread j
      { s.thread j with pc, cross := (s.thread j).cross.give }) := by
  have hunlocking : Inv cfg ((s.dropFile file j).setThread j
      { s.thread j with pc := .unlocking, cross := (s.thread j).cross.give }) := by
    obtain ⟨hslot, hlock, hcross, hmem, hheld, hlocked, -, hopen, -⟩ := hs.thread j
    rw [hpc] at hslot hlock hcross hmem hheld hlocked hopen
    refine ⟨forall_threadOk hs.thread ?_ rfl (fun _ _ _ h => h) (fun _ _ _ => Iff.rfl)
      (fun k hkj => dropFile_fileLock_of_ne hkj) fun k _ => (hs.thread k).fits,
      hs.apart.setThread rfl rfl fun file h => by cases h⟩
    constructor <;> rw [setThread_thread_self]
    · exact hslot
    · exact hlock
    · exact fun hw => (hcross hw).give
    · exact hmem
    · exact hheld
    · exact hlocked
    · exact fun file h => by cases h
    · intro file' h
      -- The only lock file it can hold is the one whose handle it closes.
      obtain ⟨h, hne⟩ := (dropFile_fileLock_self file').mp h
      exact absurd (Option.some.inj (hopen file' h)).symm hne
    · trivial
  rcases hnext with rfl | ⟨hw, rfl⟩
  · exact hunlocking
  · have hexited := hunlocking.exit hw (by rw [setThread_thread_self]; rfl)
    rw [setThread_goto] at hexited
    exact hexited

theorem releaseLock (hs : Inv cfg s) (hpc : (s.thread j).pc = .unlocking)
    (hnext : pc = .leaving ∨ cfg.warmup j = true ∧ pc = .exited) :
    Inv cfg ((s.setLock (cfg.process j) none).setThread j
      { s.thread j with pc, lock := (s.thread j).lock.give }) := by
  have hleaving : Inv cfg ((s.setLock (cfg.process j) none).setThread j
      { s.thread j with pc := .leaving, lock := (s.thread j).lock.give }) := by
    obtain ⟨hslot, hlock, hcross, hmem, hheld, hlocked, -, hopen, -⟩ := hs.thread j
    rw [hpc] at hslot hlock hcross hmem hheld hopen
    refine ⟨forall_threadOk hs.thread ?_ rfl (fun _ _ _ h => h) (fun k hkj => ?_)
      (fun _ _ _ => Iff.rfl) fun k _ => (hs.thread k).fits,
      hs.apart.setThread rfl rfl fun file h => by cases h⟩
    · constructor <;> rw [setThread_thread_self]
      · exact hslot
      · exact fun hw => (hlock hw).give
      · exact hcross
      · exact hmem
      · exact fun h => by cases h
      · intro p hp
        change Function.update s.compileLock (cfg.process j) none p = some j at hp
        rcases eq_or_ne p (cfg.process j) with rfl | hne
        · rw [Function.update_self] at hp
          cases hp
        · rw [Function.update_of_ne hne] at hp
          exact absurd (hlocked p hp).1 hne
      · exact fun file h => by cases h
      · exact hopen
      · trivial
    · refine update_eq_some_iff ?_ (by simp)
      rw [hheld rfl]
      exact fun h => hkj (Option.some.inj h).symm
  rcases hnext with rfl | ⟨hw, rfl⟩
  · exact hleaving
  · have hexited := hleaving.exit hw (by rw [setThread_thread_self]; rfl)
    rw [setThread_goto] at hexited
    exact hexited

omit [DecidableEq P] in
theorem takeFile (hs : Inv cfg s) (hpc : (s.thread j).pc = .polling file)
    (hfree : s.fileLock file = none)
    (hapart : ∀ k file', (s.thread k).pc.inUse = some file' → file' ≠ file →
      Apart (s.toolchain (cfg.process j)) (s.toolchain (cfg.process k))) :
    Inv cfg ((s.takeFile file j).setThread j
      { s.thread j with pc := .holding file, cross := (s.thread j).cross.take }) where
  thread := by
    obtain ⟨hslot, hlock, hcross, hmem, hheld, hlocked, -, hopen, -⟩ := hs.thread j
    rw [hpc] at hslot hlock hcross hmem hheld hlocked hopen
    refine forall_threadOk hs.thread ?_ rfl (fun _ _ _ h => h) (fun _ _ _ => Iff.rfl)
      (fun k hkj => ?_) fun k _ => (hs.thread k).fits
    · constructor <;> rw [setThread_thread_self]
      · exact hslot
      · exact hlock
      · exact fun hw => (hcross hw).take
      · exact hmem
      · exact hheld
      · exact hlocked
      -- the thread has this file and no other
      · intro file' h
        obtain rfl : file = file' := Option.some.inj h
        exact Function.update_self _ _ _
      · intro file' h
        change Function.update s.fileLock file (some j) file' = some j at h
        rcases eq_or_ne file' file with rfl | hne
        · rfl
        · rw [Function.update_of_ne hne] at h
          cases hopen file' h
      · trivial
    · refine update_eq_some_iff ?_ fun h => hkj (Option.some.inj h).symm
      rw [hfree]
      simp
  apart := by
    have hself : ∀ file', (((s.takeFile file j).setThread j
        { s.thread j with
          pc := .holding file
          cross := (s.thread j).cross.take }).thread j).pc.inUse
          = some file' → file' = file := by
      intro file' h
      rw [setThread_thread_self] at h
      exact (Option.some.inj h).symm
    intro k k' file₁ file₂ hk hk' hne
    change Apart (s.toolchain _) (s.toolchain _)
    -- one of the two threads may be the one that takes the file
    rcases eq_or_ne k j with rfl | hkj
    · obtain rfl := hself file₁ hk
      rcases eq_or_ne k' k with rfl | hkj'
      · exact absurd (hself file₂ hk').symm hne
      · rw [setThread_thread_of_ne hkj'] at hk'
        exact hapart k' file₂ hk' hne.symm
    · rw [setThread_thread_of_ne hkj] at hk
      rcases eq_or_ne k' j with rfl | hkj'
      · obtain rfl := hself file₂ hk'
        exact (hapart k file₁ hk hne).symm
      · rw [setThread_thread_of_ne hkj'] at hk'
        exact hs.apart k k' file₁ file₂ hk hk' hne

/-- A step under the condition keeps the invariant. -/
theorem move (hs : Inv cfg s) (h : Move cfg s j t) : Inv cfg t := by
  cases h with
  | stay => exact hs
  | goto pc honto hfits => exact hs.goto honto hfits
  | takeSlot hpc => exact hs.takeSlot hpc
  | takeLock hpc hfree => exact hs.takeLock hpc hfree
  | takeFile file hpc hfree hapart => exact hs.takeFile hpc hfree hapart
  | settle toolchain pc honto hfits huse htoolchain => exact hs.settle honto hfits huse htoolchain
  | unlock file hpc => exact hs.unlock hpc
  | close file pc hpc hnext => exact hs.close hpc hnext
  | releaseLock pc hpc hnext => exact hs.releaseLock hpc hnext
  | releaseSlot hpc => exact hs.releaseSlot hpc

end Inv

omit [DecidableEq P] [DecidableEq J] in
theorem Start.inv (hs : s.Start) : Inv cfg s where
  thread j := by
    constructor <;> rw [hs.thread j]
    · exact fun _ => rfl
    · exact fun _ => rfl
    · exact fun _ => rfl
    · intro _ p hp
      rw [hs.slots p] at hp
      exact absurd hp (Finset.notMem_empty j)
    · exact fun h => by cases h
    · intro p hp
      cases (hs.compileLock p).symm.trans hp
    · exact fun file h => by cases h
    · intro file hfile
      cases (hs.fileLock file).symm.trans hfile
    · trivial
  apart j k file file' hj := by
    rw [hs.thread j] at hj
    cases hj

omit [DecidableEq P] [DecidableEq J] in
/-- A thread that uses a directory holds its lock file, and if its process has chosen a toolchain,
the directory is that one's. -/
theorem ThreadOk.uses (hj : ThreadOk cfg s j) (h : s.Uses j dir) :
    ∃ file, (s.thread j).pc.inUse = some file ∧ s.fileLock file = some j ∧
      (s.toolchain (cfg.process j) ≠ .unresolved → dir = dirOf (s.toolchain (cfg.process j))) := by
  obtain ⟨hslot, hlock, hcross, hmem, hheld, hlocked, howns, hopen, hfits⟩ := hj
  obtain ⟨file, hpc, rfl⟩ | ⟨file, hpc⟩ := h
  · rw [hpc] at howns hfits ⊢
    refine ⟨file, rfl, howns file rfl, fun hresolved => ?_⟩
    change s.toolchain (cfg.process j) ≠ .shared at hfits
    cases htoolchain : s.toolchain (cfg.process j) with
    | mirror => rfl
    | shared => exact absurd htoolchain hfits
    | unresolved => exact absurd htoolchain hresolved
  · rw [hpc] at howns hfits ⊢
    exact ⟨file, rfl, howns file rfl, fun _ => hfits.2⟩

/-- Toolchains that have been chosen differ if their directories do. -/
theorem Apart.dirOf_ne {a b : Toolchain} (h : Apart a b) : dirOf a ≠ dirOf b := by
  obtain ⟨ha, hb, hne⟩ := h
  cases a <;> cases b <;> first | decide | exact absurd rfl ha | exact absurd rfl hb |
    exact absurd rfl hne

omit [DecidableEq P] [DecidableEq J] in
theorem Inv.exclusive (hs : Inv cfg s) : s.Exclusive := by
  intro j k dir hj hk
  obtain ⟨file, hfile, hheld, hdir⟩ := (hs.thread j).uses hj
  obtain ⟨file', hfile', hheld', hdir'⟩ := (hs.thread k).uses hk
  rcases eq_or_ne file file' with rfl | hne
  · exact Option.some.inj (hheld.symm.trans hheld')
  · have happart := hs.apart j k file file' hfile hfile' hne
    exact absurd ((hdir happart.1).symm.trans (hdir' happart.2.1)) happart.dirOf_ne

omit [DecidableEq P] [DecidableEq J] in
theorem ThreadOk.givenBack (hj : ThreadOk cfg s j) (hw : cfg.warmup j = false)
    (hexited : (s.thread j).pc = .exited) : s.GivenBack j := by
  obtain ⟨hslot, hlock, hcross, hmem, hheld, hlocked, howns, hopen, hfits⟩ := hj
  rw [hexited] at hslot hlock hcross hmem hlocked hopen
  refine ⟨(hslot hw).settled, (hlock hw).settled, (hcross hw).settled, fun p hp => ?_,
    fun p hp => ?_, fun file hfile => ?_⟩
  · cases (hmem hw p hp).2
  · cases (hlocked p hp).2 hw
  · cases hopen file hfile

/-- In every run under the condition, compiles exclude one another, and a request that has ended has
given back what it took. -/
theorem compiles_alone {s₀ : System P J} (hstart : s₀.Start)
    (hrun : RunOf (step cfg) (Ok cfg) s₀ s) : Alone cfg s := by
  have hs : Inv cfg s := by
    refine hrun.invariant (fun s l t hs hok h => ?_) hstart.inv
    obtain ⟨j, act⟩ := l
    exact hs.move (move_of_step hok h)
  exact ⟨hs.exclusive, fun j hw hexited => (hs.thread j).givenBack hw hexited⟩

/-! ### Runs -/

/-- Two processes with a local cache, and one request each. -/
def twoProcesses : Config Bool Bool := ⟨true, id, fun _ => false⟩

def notBegun : System Bool Bool where
  thread := fun _ => ⟨.idle, ⟨0, 0⟩, ⟨0, 0⟩, ⟨0, 0⟩⟩
  slots := fun _ => ∅
  compileLock := fun _ => none
  fileLock := fun _ => none
  toolchain := fun _ => .unresolved

theorem notBegun_start : notBegun.Start :=
  ⟨fun _ => rfl, fun _ => rfl, fun _ => rfl, fun _ => rfl, fun _ => rfl⟩

/-- A request up to the refresh of the mirror. -/
def upToMirror (j : Bool) (made : Bool) : List (Bool × Act) :=
  [.enter true, .takeLock, .choosePath made, .tryLock true, .resolve].map fun act => (j, act)

/-- The cache cannot be created for one process, and it locks in the installation directory; the
other one locks in the cache. Both refresh the mirror. -/
theorem not_compiles_alone : ¬ ∀ (cfg : Config Bool Bool) (s₀ s : System Bool Bool), s₀.Start →
    Run (step cfg) s₀ s → Alone cfg s := by
  intro h
  have hexec : (exec (step twoProcesses) notBegun
      (upToMirror false false ++ upToMirror true true)).any (fun s =>
        decide ((s.thread false).pc = .mirroring .install) &&
          decide ((s.thread true).pc = .mirroring .cache)) = true := by
    decide
  obtain ⟨s, hrun, hs⟩ := exists_run_of_exec hexec
  simp only [Bool.and_eq_true, decide_eq_true_eq] at hs
  have heq := (h twoProcesses notBegun s notBegun_start hrun).exclusive false true .cache
    (.inl ⟨_, hs.1, rfl⟩) (.inl ⟨_, hs.2, rfl⟩)
  cases heq

/-- Nobody is in use where a lock file is taken. -/
def takesAlone (s : System Bool Bool) : Bool × Act → Bool
  | (_, .tryLock true) => decide (∀ k, (s.thread k).pc.inUse = none)
  | _ => true

theorem ok_of_takesAlone {cfg : Config Bool Bool} {s : System Bool Bool} {l : Bool × Act}
    (h : takesAlone s l = true) : Ok cfg s l := by
  obtain ⟨j, act⟩ := l
  cases act with
  | tryLock opened =>
    cases opened with
    | true =>
      intro file _ _ k file' hk
      cases (of_decide_eq_true h k).symm.trans hk
    | false => trivial
  | _ => trivial

/-- A request locks in the installation directory and ends; the next one locks in the cache. -/
theorem compiles_alone_in_turn : ∃ s : System Bool Bool, (s.thread false).pc = .exited ∧
    (s.thread true).pc = .mirroring .cache ∧ Alone twoProcesses s := by
  have hexec : (execOf (step twoProcesses) takesAlone notBegun
      (upToMirror false false ++
        ([.mirrored true, .finish, .unlock false, .close true, .releaseLock, .releaseSlot].map
          fun act => (false, act)) ++ upToMirror true true)).any (fun s =>
        decide ((s.thread false).pc = .exited) &&
          decide ((s.thread true).pc = .mirroring .cache)) = true := by
    decide
  obtain ⟨s, hrun, hs⟩ := exists_runOf_of_execOf _ (fun _ _ h => ok_of_takesAlone h) hexec
  simp only [Bool.and_eq_true, decide_eq_true_eq] at hs
  exact ⟨s, hs.1, hs.2, compiles_alone notBegun_start hrun⟩

end System

end Compile

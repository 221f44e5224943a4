import Mathlib.Logic.Function.Basic
import Mt5HttpApi.Lib.Transition

/-!
# The lock directory that a boot starts under

Any number of instances of the script that takes the lock directory, started in one boot. Each step
of an instance is one access to the directory, and the steps of the instances interleave freely.

An instance that judges a directory left behind to be stale removes whatever directory is there by
then. `acquires_once` says that at most one instance acquires the lock as long as no removal hits a
directory that an instance of this boot holds, and `not_acquires_once` is a run in which one does.
-/

namespace Boot

open Transition

variable {J : Type} [DecidableEq J]

/-- The content of the stamp file. An empty file has no text to trim. -/
inductive Stamp where
  | empty
  | text (trimmed : String)
  deriving DecidableEq

/-- The lock directory. `newest` is the newer of its two times, in minutes, and `maker` the instance
of this boot that created it. -/
structure LockDir (J : Type) where
  stamp : Option Stamp
  newest : Int
  maker : Option J

/-- How the script ends: with the lock, because the lock is held, or by an error. -/
inductive Exit where
  | acquired
  | held
  | failed
  deriving DecidableEq

/-- The exit code. -/
def Exit.code : Exit → Nat
  | .acquired => 0
  | .held => 10
  | .failed => 1

/-- Where an instance is in the script. -/
inductive Pc where
  /-- Before `Test-Path` of the lock directory. -/
  | testLock
  /-- In `Test-LockStale`, before `Test-Path` of the stamp. -/
  | testStamp
  /-- No stamp was found: before `Get-LockAge`. -/
  | getAge
  /-- A stamp was found: before `Get-Content`. -/
  | readStamp
  /-- Judged stale: before `Remove-Item`. -/
  | remove
  /-- Before `New-Item`. -/
  | create
  /-- Created: before `Set-Content` of the stamp. -/
  | writeStamp
  | exited (exit : Exit)
  deriving DecidableEq

/-- What `Remove-Item -Recurse` gets done; its errors are silent. -/
inductive Removal where
  | whole
  | stampOnly
  | nothing
  deriving DecidableEq

/-- The boot and the parameter of the script. -/
structure Params where
  bootId : String
  staleAfterMinutes : Int

/-- The directory, the clock and the instances. -/
structure System (J : Type) where
  lock : Option (LockDir J)
  now : Int
  pc : J → Pc

/-- A step of the system. The flags say whether the access succeeds. -/
inductive Label (J : Type) where
  | testLock (j : J)
  | testStamp (j : J)
  | getAge (j : J) (ok : Bool)
  | readStamp (j : J) (ok : Bool)
  | remove (j : J) (removal : Removal)
  | create (j : J) (ok : Bool)
  | writeStamp (j : J) (ok : Bool)
  /-- Time passes. -/
  | tick (minutes : Nat)

namespace System

/-- Instance `j` goes on at `pc`. -/
def goto (s : System J) (j : J) (pc : Pc) : System J := { s with pc := Function.update s.pc j pc }

/-- What is left of a directory. -/
def removed (now : Int) (lock : Option (LockDir J)) : Removal → Option (LockDir J)
  | .whole => none
  | .stampOnly => lock.map fun d =>
    if d.stamp.isSome then { d with stamp := none, newest := now } else d
  | .nothing => lock

/-- The stamp is written into the directory; the directory is as new as the file it gets. -/
def stamped (bootId : String) (now : Int) (d : LockDir J) : LockDir J :=
  { d with stamp := some (.text bootId), newest := if d.stamp.isSome then d.newest else now }

/-- One step, or `none` if the instance is elsewhere. -/
def step (p : Params) (s : System J) : Label J → Option (System J)
  | .testLock j =>
    if s.pc j = .testLock then
      some (s.goto j (if s.lock.isSome then .testStamp else .create))
    else none
  | .testStamp j =>
    if s.pc j = .testStamp then
      some (s.goto j (if (s.lock.bind LockDir.stamp).isSome then .readStamp else .getAge))
    else none
  | .getAge j ok =>
    if s.pc j = .getAge then
      match s.lock, ok with
      | some d, true =>
        some (s.goto j
          (if p.staleAfterMinutes ≤ s.now - d.newest then .remove else .exited .held))
      | _, _ => some (s.goto j (.exited .failed))
    else none
  | .readStamp j ok =>
    if s.pc j = .readStamp then
      match s.lock.bind LockDir.stamp, ok with
      | some (.text ownerBoot), true =>
        some (s.goto j (if ownerBoot ≠ p.bootId then .remove else .exited .held))
      | _, _ => some (s.goto j (.exited .failed))
    else none
  | .remove j removal =>
    if s.pc j = .remove then
      some ({ s with lock := removed s.now s.lock removal }.goto j .create)
    else none
  | .create j ok =>
    if s.pc j = .create then
      -- `New-Item` of a directory that is there is an error.
      if s.lock.isNone ∧ ok then
        some ({ s with lock := some ⟨none, s.now, some j⟩ }.goto j .writeStamp)
      else some (s.goto j (.exited .held))
    else none
  | .writeStamp j ok =>
    if s.pc j = .writeStamp then
      match s.lock, ok with
      | some d, true =>
        some ({ s with lock := some (stamped p.bootId s.now d) }.goto j (.exited .acquired))
      | _, _ => some (s.goto j (.exited .failed))
    else none
  | .tick minutes => some { s with now := s.now + minutes }

/-- Nobody has begun. The directory may be in any state, but no instance has made it. -/
def Start (s : System J) : Prop :=
  (∀ j, s.pc j = .testLock) ∧ ∀ d ∈ s.lock, d.maker = none

/-- Instance `j` has exited with a code. -/
def ExitedWith (s : System J) (j : J) (code : Nat) : Prop :=
  ∃ exit, s.pc j = .exited exit ∧ exit.code = code

/-- At most one instance has exited with code 0. -/
def Exclusive (s : System J) : Prop :=
  ∀ j k, s.ExitedWith j 0 → s.ExitedWith k 0 → j = k

/-- Instance `j` holds the lock it has created: it has still to stamp it, or has exited with 0. -/
def Holds (s : System J) (j : J) : Prop := s.pc j = .writeStamp ∨ s.pc j = .exited .acquired

/-- The step does not remove a directory that an instance of this boot has created and holds. -/
def Spares (s : System J) : Label J → Prop
  | .remove _ .whole => ∀ d ∈ s.lock, ∀ j, d.maker = some j → ¬ s.Holds j
  | _ => True

/-! ### What a step can do -/

variable {s t : System J} {p : Params} {l : Label J} {j k : J} {pc : Pc}

/-- The script is at a place where it holds no lock. -/
def Idle (pc : Pc) : Prop := pc ≠ .writeStamp ∧ pc ≠ .exited .acquired

omit [DecidableEq J] in
theorem holds_iff : s.Holds j ↔ ¬ Idle (s.pc j) := by
  rw [Holds, Idle, not_and_or, not_not, not_not]

/-- Every step is one of these. -/
theorem step_cases (h : step p s l = some t) :
    (∃ j pc, Idle pc ∧ t = s.goto j pc) ∨
    (∃ j removal, l = .remove j removal ∧
      t = { s with lock := removed s.now s.lock removal }.goto j .create) ∨
    (∃ j, s.lock = none ∧ t = { s with lock := some ⟨none, s.now, some j⟩ }.goto j .writeStamp) ∨
    (∃ j d, s.pc j = .writeStamp ∧ s.lock = some d ∧
      t = { s with lock := some (stamped p.bootId s.now d) }.goto j (.exited .acquired)) ∨
    ∃ minutes : Nat, t = { s with now := s.now + minutes } := by
  cases l with
  | tick minutes => exact .inr (.inr (.inr (.inr ⟨minutes, (Option.some.inj h).symm⟩)))
  | testLock j =>
    obtain ⟨-, h⟩ := Option.ite_none_right_eq_some.mp h
    refine .inl ⟨j, _, ?_, (Option.some.inj h).symm⟩
    split <;> exact ⟨by decide, by decide⟩
  | testStamp j =>
    obtain ⟨-, h⟩ := Option.ite_none_right_eq_some.mp h
    refine .inl ⟨j, _, ?_, (Option.some.inj h).symm⟩
    split <;> exact ⟨by decide, by decide⟩
  | getAge j ok =>
    obtain ⟨-, h⟩ := Option.ite_none_right_eq_some.mp h
    split at h
    next =>
      refine .inl ⟨j, _, ?_, (Option.some.inj h).symm⟩
      split <;> exact ⟨by decide, by decide⟩
    next => exact .inl ⟨j, _, ⟨by decide, by decide⟩, (Option.some.inj h).symm⟩
  | readStamp j ok =>
    obtain ⟨-, h⟩ := Option.ite_none_right_eq_some.mp h
    split at h
    next =>
      refine .inl ⟨j, _, ?_, (Option.some.inj h).symm⟩
      split <;> exact ⟨by decide, by decide⟩
    next => exact .inl ⟨j, _, ⟨by decide, by decide⟩, (Option.some.inj h).symm⟩
  -- the three steps that touch the lock
  | remove j removal =>
    obtain ⟨-, h⟩ := Option.ite_none_right_eq_some.mp h
    exact .inr (.inl ⟨j, removal, rfl, (Option.some.inj h).symm⟩)
  | create j ok =>
    obtain ⟨-, h⟩ := Option.ite_none_right_eq_some.mp h
    split at h
    next hfree =>
      exact .inr (.inr (.inl ⟨j, Option.isNone_iff_eq_none.mp hfree.1, (Option.some.inj h).symm⟩))
    next => exact .inl ⟨j, _, ⟨by decide, by decide⟩, (Option.some.inj h).symm⟩
  | writeStamp j ok =>
    obtain ⟨hpc, h⟩ := Option.ite_none_right_eq_some.mp h
    split at h
    next d hlock _ =>
      exact .inr (.inr (.inr (.inl ⟨j, d, hpc, hlock, (Option.some.inj h).symm⟩)))
    next => exact .inl ⟨j, _, ⟨by decide, by decide⟩, (Option.some.inj h).symm⟩

/-! ### The invariant -/

/-- Whoever holds the lock has made the directory that is there. -/
def Inv (s : System J) : Prop :=
  ∀ j, s.Holds j → ∃ d, s.lock = some d ∧ d.maker = some j

@[simp]
theorem goto_pc_self : (s.goto j pc).pc j = pc := Function.update_self _ _ _

theorem goto_pc_of_ne (h : k ≠ j) : (s.goto j pc).pc k = s.pc k := Function.update_of_ne h _ _

theorem holds_goto_of_ne (h : k ≠ j) : (s.goto j pc).Holds k ↔ s.Holds k := by
  rw [Holds, Holds, goto_pc_of_ne h]

theorem holds_goto_self : (s.goto j pc).Holds j ↔ ¬ Idle pc := by
  rw [holds_iff, goto_pc_self]

/-- An instance that goes on without holding the lock. -/
theorem Inv.goto (hs : s.Inv) (hpc : Idle pc) : (s.goto j pc).Inv := by
  intro k hk
  rcases eq_or_ne k j with rfl | hkj
  · exact absurd hpc (holds_goto_self.mp hk)
  · exact hs k ((holds_goto_of_ne hkj).mp hk)

theorem Inv.step (hs : s.Inv) (hspares : s.Spares l) (h : step p s l = some t) : t.Inv := by
  obtain ⟨j, pc, hpc, rfl⟩ | ⟨j, removal, rfl, rfl⟩ | ⟨j, hfree, rfl⟩ | ⟨j, d, hpc, hlock, rfl⟩ |
    ⟨minutes, rfl⟩ := step_cases h
  · exact hs.goto hpc
  · refine Inv.goto (fun k hk => ?_) ⟨by decide, by decide⟩
    obtain ⟨d, hd, hmaker⟩ := hs k hk
    cases removal with
    | whole => exact absurd hk (hspares d hd k hmaker)
    | nothing => exact ⟨d, hd, hmaker⟩
    | stampOnly =>
      refine ⟨_, congrArg (Option.map _) hd, ?_⟩
      dsimp only
      split <;> exact hmaker
  · -- The directory was not there, so nobody held the lock.
    intro k hk
    rcases eq_or_ne k j with rfl | hkj
    · exact ⟨_, rfl, rfl⟩
    · obtain ⟨d, hd, -⟩ := hs k ((holds_goto_of_ne hkj).mp hk)
      rw [hfree] at hd
      cases hd
  · intro k hk
    have hheld : s.Holds k := by
      rcases eq_or_ne k j with rfl | hkj
      · exact .inl hpc
      · exact (holds_goto_of_ne hkj).mp hk
    obtain ⟨d', hd', hmaker⟩ := hs k hheld
    obtain rfl : d = d' := Option.some.inj (hlock.symm.trans hd')
    exact ⟨_, rfl, hmaker⟩
  · exact hs

omit [DecidableEq J] in
theorem Start.inv (hs : s.Start) : s.Inv := by
  intro j hj
  rw [Holds, hs.1 j] at hj
  rcases hj with h | h <;> cases h

omit [DecidableEq J] in
theorem Inv.exclusive (hs : s.Inv) : s.Exclusive := by
  have hholds : ∀ j, s.ExitedWith j 0 → s.Holds j := by
    rintro j ⟨exit, hpc, hcode⟩
    cases exit with
    | acquired => exact .inr hpc
    | held => cases hcode
    | failed => cases hcode
  intro j k hj hk
  obtain ⟨d, hd, hmaker⟩ := hs j (hholds j hj)
  obtain ⟨d', hd', hmaker'⟩ := hs k (hholds k hk)
  obtain rfl : d = d' := Option.some.inj (hd.symm.trans hd')
  exact Option.some.inj (hmaker.symm.trans hmaker')

/-- At most one instance acquires the lock in a boot, if no removal hits a directory that an
instance of this boot has created and holds. -/
theorem acquires_once (h : RunOf (step p) Spares s t) (hs : s.Start) : t.Exclusive :=
  Inv.exclusive (h.invariant (fun _ _ _ hs hspares hstep => hs.step hspares hstep) hs.inv)

/-- A lock directory stamped by another boot, two hours old, and instances that begin. -/
def leftBehind : System Bool where
  lock := some ⟨some (.text "20260101000000"), 0, none⟩
  now := 120
  pc := fun _ => .testLock

/-- The boot of the runs below. -/
def thisBoot : Params := ⟨"20260101020000", 30⟩

/-- The slow instance judges the directory stale, the fast one replaces it and exits with 0, and
then the slow one removes what the fast one has made. -/
def overtaken : List (Label Bool) :=
  [.testLock true, .testStamp true, .readStamp true true,
    .testLock false, .testStamp false, .readStamp false true, .remove false .whole,
    .create false true, .writeStamp false true,
    .remove true .whole, .create true true, .writeStamp true true]

/-- Two instances of one boot exit with code 0. -/
theorem not_acquires_once : ¬ ∀ (p : Params) (s t : System Bool),
    s.Start → Run (step p) s t → t.Exclusive := by
  intro h
  have hexec : (exec (step thisBoot) leftBehind overtaken).any (fun t =>
      t.pc false == .exited .acquired && t.pc true == .exited .acquired) = true := by
    decide
  obtain ⟨t, hrun, hpc⟩ := exists_run_of_exec hexec
  obtain ⟨hfast, hslow⟩ := Bool.and_eq_true_iff.mp hpc
  have heq := h thisBoot leftBehind t ⟨fun _ => rfl, by simp [leftBehind]⟩ hrun false true
    ⟨_, beq_iff_eq.mp hfast, rfl⟩ ⟨_, beq_iff_eq.mp hslow, rfl⟩
  cases heq

/-- The check of a step that `Spares` asks, for a run in which no maker holds what is removed. -/
def sparesNobody (s : System Bool) : Label Bool → Bool
  | .remove _ .whole => s.lock.all fun d => d.maker.isNone
  | _ => true

/-- The instances one after the other: the first acquires the lock, the second finds it held. -/
theorem acquires_once_in_turn : ∃ t : System Bool, t.pc false = .exited .acquired ∧
    t.pc true = .exited .held ∧ t.Exclusive := by
  have hexec : (execOf (step thisBoot) sparesNobody leftBehind
      [.testLock false, .testStamp false, .readStamp false true, .remove false .whole,
        .testLock true, .create false true, .writeStamp false true, .create true true]).any
      (fun t => t.pc false == .exited .acquired && t.pc true == .exited .held) = true := by
    decide
  have hspares : ∀ (s : System Bool) l, sparesNobody s l = true → s.Spares l := by
    intro s l hl
    unfold sparesNobody at hl
    split at hl
    next j =>
      intro d hd k hk
      have hnone := (Option.all_eq_true _ _).mp hl d hd
      rw [hk] at hnone
      cases hnone
    next hne =>
      unfold Spares
      split
      next j => exact absurd rfl (hne j)
      next => trivial
  obtain ⟨t, hrun, hpc⟩ := exists_runOf_of_execOf _ hspares hexec
  obtain ⟨hfirst, hsecond⟩ := Bool.and_eq_true_iff.mp hpc
  exact ⟨t, beq_iff_eq.mp hfirst, beq_iff_eq.mp hsecond,
    acquires_once hrun ⟨fun _ => rfl, by simp [leftBehind]⟩⟩

end System

end Boot

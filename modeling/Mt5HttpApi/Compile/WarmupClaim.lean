import Mathlib.Data.Finset.Card
import Mathlib.Logic.Function.Basic
import Mt5HttpApi.Lib.Decimal
import Mt5HttpApi.Lib.PyInt
import Mt5HttpApi.Lib.Transition

/-!
# The claim of a boot's warm-up

Every API process of a VM calls `_claim_warmup` once. The claim is a file in the shared cache that
outlives a boot: what an earlier boot has left there is to be removed, what this boot has made is
not, and no lock is held meanwhile.

* `claims_bounded`: at most one process wins where there is no claim yet, and one more for each
  that has removed a claim it judged stale: the one of an earlier boot, or one that its maker has
  created and not yet written.
* `someone_claims`: where there is no claim of this boot and nothing fails but a removal of a file
  that another process has open, some process wins.
-/

namespace Compile.Warmup

open Transition

/-- `_BOOT_TIME_TOLERANCE_SECONDS`. -/
def bootTimeToleranceSeconds : ℕ := 60

/-- A claim file: the one that was there, or one that a process of this boot has created. -/
inductive Claim (J : Type)
  | old
  | made (j : J)
  deriving DecidableEq

/-- Where a process is in `_claim_warmup`. -/
inductive Pc (J : Type)
  | start
  /-- It has the claim open. -/
  | reading (claim : Claim J)
  /-- It has judged a claim stale. -/
  | removing
  | creating
  /-- It has created its claim, and has it open. -/
  | writing
  | exited (claimed : Bool)
  deriving DecidableEq

/-- The claim file and the processes. The last two are history. -/
structure System (J : Type) where
  claim : Option (Claim J)
  pc : J → Pc J
  /-- The boot time is in the claim that the process has created. -/
  written : J → Bool
  /-- The text that a process has judged stale. -/
  outdated : J → Option (List Char)
  /-- Those that have created a claim, the last one first. -/
  creators : List J
  /-- Those that have removed one. -/
  removers : List J

/-- A step of a process. The flag says whether the access succeeds. -/
inductive Label (J : Type)
  /-- `os.makedirs` raises. -/
  | giveUp (j : J)
  | open (j : J) (ok : Bool)
  | read (j : J) (ok : Bool)
  | remove (j : J) (ok : Bool)
  | create (j : J) (ok : Bool)
  | write (j : J) (ok : Bool)

/-- Whether a claim with this text is of another boot. -/
def isStale (booted : Option ℕ) (text : List Char) : Bool :=
  -- what is no number is not the time of this boot
  let claimed := (PyInt.int PyInt.asciiDecimal (text.take 32)).getD (-1)
  booted.all fun time : ℕ => bootTimeToleranceSeconds < (claimed - (time : ℤ)).natAbs

variable {J : Type} [DecidableEq J] (booted : J → Option ℕ) (oldText : List Char)

/-- The text of a claim. -/
def System.text (s : System J) : Claim J → List Char
  | .old => oldText
  | .made j => if s.written j then Nat.toDigits 10 ((booted j).getD 0) else []

/-- Process `j` goes on at `pc`. -/
def System.goto (s : System J) (j : J) (pc : Pc J) : System J :=
  { s with pc := Function.update s.pc j pc }

/-- Process `j` has read a claim. -/
def System.judge (s : System J) (j : J) (text : List Char) : System J :=
  if isStale (booted j) text then
    { s.goto j .removing with outdated := Function.update s.outdated j (some text) }
  else s.goto j .creating

/-- One step, or `none` if the process is elsewhere. -/
def step (s : System J) : Label J → Option (System J)
  | .giveUp j => if s.pc j = .start then some (s.goto j (.exited false)) else none
  | .open j ok =>
    if s.pc j = .start then
      match s.claim with
      | some claim => some (s.goto j (if ok then .reading claim else .creating))
      | none => some (s.goto j .creating)
    else none
  | .read j ok =>
    match s.pc j with
    | .reading claim =>
      if ok then some (s.judge booted j (s.text booted oldText claim))
      else some (s.goto j .creating)
    | _ => none
  | .remove j ok =>
    if s.pc j = .removing then
      if ok ∧ s.claim ≠ none then
        some { s.goto j .creating with claim := none, removers := j :: s.removers }
      else some (s.goto j .creating)
    else none
  | .create j ok =>
    if s.pc j = .creating then
      -- `O_EXCL`
      if ok ∧ s.claim = none then
        some { s.goto j .writing with claim := some (.made j), creators := j :: s.creators }
      else some (s.goto j (.exited false))
    else none
  | .write j ok =>
    if s.pc j = .writing then
      some { s.goto j (.exited ok) with written := Function.update s.written j ok }
    else none

/-- The processes have just started. -/
def start (claim : Bool) : System J :=
  ⟨if claim then some .old else none, fun _ => .start, fun _ => false, fun _ => none, [], []⟩

/-! ## Which claims are stale -/

/-- The processes are of one boot. -/
structure OneBoot : Prop where
  known : ∀ j, ∃ time, booted j = some time ∧ (Nat.toDigits 10 time).length ≤ 32
  near : ∀ i j time time', booted i = some time → booted j = some time' →
    ((time : ℤ) - time').natAbs ≤ bootTimeToleranceSeconds

variable {booted oldText} {s t : System J} {i j : J}

omit [DecidableEq J] in
/-- A claim of this boot is not stale. -/
theorem isStale_toDigits (h : OneBoot booted) (i j : J) :
    isStale (booted j) (Nat.toDigits 10 ((booted i).getD 0)) = false := by
  obtain ⟨time, hi, hlength⟩ := h.known i
  obtain ⟨time', hj, -⟩ := h.known j
  rw [isStale, hi, hj, Option.getD_some, List.take_of_length_le hlength,
    PyInt.int_numeral (Decimal.isNumeral_toDigits time) (hlength.trans (by decide)),
    Nat.ofDigitChars_ten_toDigits, Option.getD_some, Option.all_some, decide_eq_false_iff_not,
    not_lt]
  exact h.near i j time time' hi hj

/-! ## How many win -/

/-- Every creation but the first is of a path that a removal has made free. -/
structure Counted (claim : Bool) (s : System J) : Prop where
  balance : s.creators.length + (if s.claim = none then 1 else 0) =
    s.removers.length + if claim then 0 else 1
  nodup : s.removers.Nodup
  /-- Who has removed a claim has judged one stale, and does not come back. -/
  removers : ∀ j ∈ s.removers, (s.outdated j).isSome = true ∧
    s.pc j ≠ .start ∧ (∀ claim, s.pc j ≠ .reading claim) ∧ s.pc j ≠ .removing
  removing : ∀ j, s.pc j = .removing → (s.outdated j).isSome = true
  creators : ∀ j, s.pc j = .writing ∨ s.pc j = .exited true → j ∈ s.creators

@[simp]
theorem pc_goto (s : System J) (j : J) (pc : Pc J) (i : J) :
    (s.goto j pc).pc i = if i = j then pc else s.pc i :=
  Function.update_apply ..

/-- A process goes on, and the file stays. -/
theorem Counted.goto {claim : Bool} (h : Counted claim s) {pc : Pc J}
    (hfrom : s.pc j ≠ .writing) (hremover : j ∈ s.removers → s.pc j = .creating)
    (hpc : pc = .creating ∨ (∃ claim, pc = .reading claim ∧ s.pc j ≠ .creating) ∨
      pc = .exited false) : Counted claim (s.goto j pc) where
  balance := h.balance
  nodup := h.nodup
  removers := by
    intro i hi
    obtain ⟨houtdated, hold⟩ := h.removers i hi
    refine ⟨houtdated, ?_⟩
    rw [pc_goto]
    split_ifs with hij
    · subst hij
      rcases hpc with rfl | ⟨claim, -, hno⟩ | rfl
      · simp
      · exact absurd (hremover hi) hno
      · simp
    · exact hold
  removing := by
    intro i hi
    rw [pc_goto] at hi
    split_ifs at hi with hij
    · rcases hpc with rfl | ⟨claim, rfl, -⟩ | rfl <;> cases hi
    · exact h.removing i hi
  creators := by
    intro i hi
    rw [pc_goto] at hi
    split_ifs at hi with hij
    · rcases hpc with rfl | ⟨claim, rfl, -⟩ | rfl <;> simp at hi
    · exact h.creators i hi

/-- A process has judged a claim stale. -/
theorem Counted.judged {claim : Bool} {text : List Char} (h : Counted claim s)
    (hpc : ∃ claim, s.pc j = .reading claim) : Counted claim
      { s.goto j .removing with outdated := Function.update s.outdated j (some text) } := by
  obtain ⟨read, hpc⟩ := hpc
  have hsome : ∀ i, (s.outdated i).isSome = true →
      (Function.update s.outdated j (some text) i).isSome = true := by
    intro i hi
    rw [Function.update_apply]
    split_ifs
    · rfl
    · exact hi
  have hpc' := pc_goto s j .removing
  refine ⟨h.balance, h.nodup, fun i hi => ?_, fun i hi => ?_, fun i hi => ?_⟩
  · obtain ⟨houtdated, hold⟩ := h.removers i hi
    have hij : i ≠ j := by
      rintro rfl
      exact hold.2.1 read hpc
    refine ⟨hsome i houtdated, ?_⟩
    rw [hpc', if_neg hij]
    exact hold
  · rcases eq_or_ne i j with rfl | hij
    · change (Function.update s.outdated i (some text) i).isSome = true
      rw [Function.update_self]
      rfl
    · rw [hpc', if_neg hij] at hi
      exact hsome i (h.removing i hi)
  · rw [hpc'] at hi
    split_ifs at hi
    · simp at hi
    · exact h.creators i hi

/-- A process removes a claim. -/
theorem Counted.removed {claim : Bool} (h : Counted claim s) (hpc : s.pc j = .removing)
    (hthere : s.claim ≠ none) : Counted claim
      { s.goto j .creating with claim := none, removers := j :: s.removers } := by
  have hpc' := pc_goto s j .creating
  have hbalance := h.balance
  rw [if_neg hthere] at hbalance
  refine ⟨?_, List.nodup_cons.mpr ⟨fun hj => (h.removers j hj).2.2.2 hpc, h.nodup⟩,
    fun i hi => ?_, fun i hi => ?_, fun i hi => ?_⟩
  · change s.creators.length + 1 = (s.removers.length + 1) + _
    omega
  · rw [hpc']
    split_ifs with hij
    · subst hij
      exact ⟨h.removing i hpc, by simp⟩
    · exact h.removers i ((List.mem_cons.mp hi).resolve_left hij)
  · rw [hpc'] at hi
    split_ifs at hi
    exact h.removing i hi
  · rw [hpc'] at hi
    split_ifs at hi
    · simp at hi
    · exact h.creators i hi

/-- A process creates its claim. -/
theorem Counted.created {claim : Bool} (h : Counted claim s) (hnone : s.claim = none) :
    Counted claim
      { s.goto j .writing with claim := some (.made j), creators := j :: s.creators } := by
  have hpc' := pc_goto s j .writing
  have hbalance := h.balance
  rw [if_pos hnone] at hbalance
  refine ⟨?_, h.nodup, fun i hi => ?_, fun i hi => ?_, fun i hi => ?_⟩
  · change (s.creators.length + 1) + 0 = s.removers.length + _
    omega
  · obtain ⟨houtdated, hold⟩ := h.removers i hi
    refine ⟨houtdated, ?_⟩
    rw [hpc']
    split_ifs
    · simp
    · exact hold
  · rw [hpc'] at hi
    split_ifs at hi
    exact h.removing i hi
  · rw [hpc'] at hi
    split_ifs at hi with hij
    · exact List.mem_cons.mpr (Or.inl hij)
    · exact List.mem_cons_of_mem j (h.creators i hi)

/-- A process has written its claim, or could not. -/
theorem Counted.wrote {claim ok : Bool} (h : Counted claim s) (hpc : s.pc j = .writing) :
    Counted claim
      { s.goto j (.exited ok) with written := Function.update s.written j ok } := by
  have hpc' := pc_goto s j (.exited ok)
  refine ⟨h.balance, h.nodup, fun i hi => ?_, fun i hi => ?_, fun i hi => ?_⟩
  · obtain ⟨houtdated, hold⟩ := h.removers i hi
    refine ⟨houtdated, ?_⟩
    rw [hpc']
    split_ifs
    · simp
    · exact hold
  · rw [hpc'] at hi
    split_ifs at hi
    exact h.removing i hi
  · rw [hpc'] at hi
    split_ifs at hi with hij
    · exact hij ▸ h.creators j (Or.inl hpc)
    · exact h.creators i hi

theorem Counted.step {claim : Bool} {l : Label J} (h : Counted claim s)
    (hstep : step booted oldText s l = some t) : Counted claim t := by
  cases l with
  | giveUp j =>
    obtain ⟨hpc, hstep⟩ := Option.ite_none_right_eq_some.mp hstep
    refine Option.some.inj hstep ▸ h.goto (by simp [hpc]) (fun hj => ?_) (Or.inr (Or.inr rfl))
    exact absurd hpc (h.removers j hj).2.1
  | «open» j ok =>
    obtain ⟨hpc, hstep⟩ := Option.ite_none_right_eq_some.mp hstep
    have hremover : j ∈ s.removers → s.pc j = .creating :=
      fun hj => absurd hpc (h.removers j hj).2.1
    split at hstep
    next read hread =>
      refine Option.some.inj hstep ▸ h.goto (by simp [hpc]) hremover ?_
      split_ifs
      · exact Or.inr (Or.inl ⟨read, rfl, by simp [hpc]⟩)
      · exact Or.inl rfl
    next =>
      exact Option.some.inj hstep ▸ h.goto (by simp [hpc]) hremover (Or.inl rfl)
  | read j ok =>
    rw [Warmup.step] at hstep
    split at hstep
    next read hpc =>
      have hcreating : Counted claim (s.goto j .creating) :=
        h.goto (by simp [hpc]) (fun hj => absurd hpc ((h.removers j hj).2.2.1 read)) (Or.inl rfl)
      split_ifs at hstep
      · refine Option.some.inj hstep ▸ ?_
        rw [System.judge]
        split_ifs
        · exact h.judged ⟨read, hpc⟩
        · exact hcreating
      · exact Option.some.inj hstep ▸ hcreating
    next => cases hstep
  | remove j ok =>
    obtain ⟨hpc, hstep⟩ := Option.ite_none_right_eq_some.mp hstep
    split_ifs at hstep with hthere
    · exact Option.some.inj hstep ▸ h.removed hpc hthere.2
    · exact Option.some.inj hstep ▸ h.goto (by simp [hpc])
        (fun hj => absurd hpc (h.removers j hj).2.2.2) (Or.inl rfl)
  | create j ok =>
    obtain ⟨hpc, hstep⟩ := Option.ite_none_right_eq_some.mp hstep
    split_ifs at hstep with hfree
    · exact Option.some.inj hstep ▸ h.created hfree.2
    · exact Option.some.inj hstep ▸ h.goto (by simp [hpc]) (fun _ => hpc) (Or.inr (Or.inr rfl))
  | write j ok =>
    obtain ⟨hpc, hstep⟩ := Option.ite_none_right_eq_some.mp hstep
    exact Option.some.inj hstep ▸ h.wrote hpc

omit [DecidableEq J] in
theorem counted_start (claim : Bool) : Counted claim (start claim : System J) := by
  refine ⟨?_, List.nodup_nil, fun j hj => absurd hj List.not_mem_nil, ?_, ?_⟩
  · cases claim <;> rfl
  · simp [start]
  · simp [start]

/-- What a step adds to what was judged stale. -/
theorem outdated_step {l : Label J} (hstep : step booted oldText s l = some t) :
    t.outdated = s.outdated ∨ ∃ j claim, isStale (booted j) (s.text booted oldText claim) = true ∧
      t.outdated = Function.update s.outdated j (some (s.text booted oldText claim)) := by
  cases l with
  | giveUp j | create j ok | write j ok | remove j ok =>
    obtain ⟨-, hstep⟩ := Option.ite_none_right_eq_some.mp hstep
    try split_ifs at hstep
    all_goals exact Or.inl (Option.some.inj hstep ▸ rfl)
  | «open» j ok =>
    obtain ⟨-, hstep⟩ := Option.ite_none_right_eq_some.mp hstep
    split at hstep
    all_goals exact Or.inl (Option.some.inj hstep ▸ rfl)
  | read j ok =>
    rw [Warmup.step] at hstep
    split at hstep
    next read hpc =>
      split_ifs at hstep
      · obtain rfl := Option.some.inj hstep
        rw [System.judge]
        split_ifs with hstale
        · exact Or.inr ⟨j, read, hstale, rfl⟩
        · exact Or.inl rfl
      · exact Or.inl (Option.some.inj hstep ▸ rfl)
    next => cases hstep

/-- Only the old claim and one that is not yet written are judged stale. -/
theorem stale_step {l : Label J} (hboot : OneBoot booted)
    (h : ∀ j text, s.outdated j = some text → text = oldText ∨ text = [])
    (hstep : step booted oldText s l = some t) :
    ∀ j text, t.outdated j = some text → text = oldText ∨ text = [] := by
  intro i text htext
  rcases outdated_step hstep with hsame | ⟨j, claim, hstale, hnew⟩
  · exact h i text (hsame ▸ htext)
  · rw [hnew, Function.update_apply] at htext
    split_ifs at htext
    · obtain rfl := Option.some.inj htext
      cases claim with
      | old => exact Or.inl rfl
      | made maker =>
        rw [System.text] at hstale ⊢
        split_ifs at hstale ⊢
        · rw [isStale_toDigits hboot] at hstale
          cases hstale
        · exact Or.inr rfl
    · exact h i text htext

/-- However the processes of a boot go on: at most one of them wins where there was no claim, and
one more for each that has removed a claim. Those have judged stale the claim that was there, or one
whose boot time was not yet written. -/
theorem claims_bounded {claim : Bool} (hboot : OneBoot booted)
    (hrun : Run (step booted oldText) (start claim) s) :
    ∃ removers : Finset J,
      (∀ winners : Finset J, (∀ j ∈ winners, s.pc j = .exited true) →
        winners.card ≤ removers.card + if claim then 0 else 1) ∧
      ∀ j ∈ removers, ∃ text, s.outdated j = some text ∧ (text = oldText ∨ text = []) := by
  have hcounted : Counted claim s :=
    hrun.invariant (fun _ _ _ h _ hstep => h.step hstep) (counted_start claim)
  have hstale : ∀ j text, s.outdated j = some text → text = oldText ∨ text = [] :=
    hrun.invariant (P := fun s => ∀ j text, s.outdated j = some text → text = oldText ∨ text = [])
      (fun _ _ _ h _ hstep => stale_step hboot h hstep) (fun _ _ h => by cases h)
  refine ⟨s.removers.toFinset, fun winners hwinners => ?_, fun j hj => ?_⟩
  · have hsubset : winners ⊆ s.creators.toFinset := fun j hj =>
      List.mem_toFinset.mpr (hcounted.creators j (Or.inr (hwinners j hj)))
    have hbalance := hcounted.balance
    calc winners.card ≤ s.creators.toFinset.card := Finset.card_le_card hsubset
      _ ≤ s.creators.length := List.toFinset_card_le _
      _ ≤ s.removers.length + if claim then 0 else 1 := by omega
      _ = s.removers.toFinset.card + if claim then 0 else 1 := by
        rw [List.toFinset_card_of_nodup hcounted.nodup]
  · obtain ⟨text, htext⟩ := Option.isSome_iff_exists.mp
      (hcounted.removers j (List.mem_toFinset.mp hj)).1
    exact ⟨text, htext, hstale j text htext⟩

/-- Both processes find the claim of an earlier boot, and the second one removes the claim of the
first. -/
theorem claims_bounded_both : ∃ (s : System Bool) (removers : Finset Bool),
    (∀ j, s.pc j = .exited true) ∧
    (∀ winners : Finset Bool, (∀ j ∈ winners, s.pc j = .exited true) →
      winners.card ≤ removers.card + 0) ∧
    ∀ j ∈ removers, ∃ text, s.outdated j = some text ∧ (text = "1000".toList ∨ text = []) := by
  have hboot : OneBoot fun _ : Bool => some 5000 :=
    ⟨fun _ => ⟨5000, rfl, by decide⟩, fun _ _ _ _ hi hj => by cases hi; cases hj; decide⟩
  have hexec : (exec (step (fun _ => some 5000) "1000".toList) (start true)
      [.open false true, .open true true, .read true true, .read false true, .remove false true,
        .create false true, .write false true, .remove true true, .create true true,
        .write true true]).any
      (fun s : System Bool => ∀ j, s.pc j = .exited true) = true := by decide
  obtain ⟨s, hrun, hs⟩ := exists_run_of_exec hexec
  obtain ⟨removers, hbound, hremovers⟩ := claims_bounded hboot hrun
  exact ⟨s, removers, of_decide_eq_true hs, hbound, hremovers⟩

/-! ## Some process wins -/

/-- What the steps of a boot without errors meet: a removal of a claim fails only where another
process has it open. -/
def Ok (s : System J) : Label J → Prop
  | .giveUp _ => False
  | .open _ ok | .read _ ok | .create _ ok | .write _ ok => ok = true
  | .remove _ ok => ok = true ∨ s.claim = none ∨
    ∃ i, s.pc i = .writing ∨ ∃ claim, s.pc i = .reading claim

/-- A process has won or will, or else one can that has not come too late. -/
def Pending (s : System J) : Prop :=
  (∃ j, s.pc j = .writing ∨ s.pc j = .exited true) ∨
    (∀ j, s.claim ≠ some (.made j)) ∧ (∀ j claim, s.pc j = .reading claim → claim = .old) ∧
      ∃ j, s.pc j = .start ∨ s.pc j = .reading .old ∨ s.pc j = .removing ∨
        s.pc j = .creating ∧ s.claim = none

/-- Who has won or is writing stays so. -/
theorem won_step {l : Label J} (hok : Ok s l) (hstep : step booted oldText s l = some t)
    (hj : s.pc j = .writing ∨ s.pc j = .exited true) :
    t.pc j = .writing ∨ t.pc j = .exited true := by
  have hgoto : ∀ i pc, (i = j → pc = .exited true) →
      (s.goto i pc).pc j = .writing ∨ (s.goto i pc).pc j = .exited true := by
    intro i pc hpc
    rw [pc_goto]
    split_ifs with hij
    · exact Or.inr (hpc hij.symm)
    · exact hj
  have hne : ∀ i, (s.pc i ≠ .writing ∧ s.pc i ≠ .exited true) → ∀ pc : Pc J,
      i = j → pc = .exited true := by
    rintro i ⟨hwriting, hexited⟩ pc rfl
    exact (hj.elim hwriting hexited).elim
  cases l with
  | giveUp i => exact absurd hok id
  | «open» i ok =>
    obtain ⟨hpc, hstep⟩ := Option.ite_none_right_eq_some.mp hstep
    split at hstep
    all_goals exact Option.some.inj hstep ▸ hgoto i _ (hne i (by simp [hpc]) _)
  | read i ok =>
    rw [step] at hstep
    split at hstep
    next read hpc =>
      rw [System.judge] at hstep
      split_ifs at hstep
      all_goals exact Option.some.inj hstep ▸ hgoto i _ (hne i (by simp [hpc]) _)
    next => cases hstep
  | remove i ok | create i ok =>
    obtain ⟨hpc, hstep⟩ := Option.ite_none_right_eq_some.mp hstep
    split_ifs at hstep
    all_goals exact Option.some.inj hstep ▸ hgoto i _ (hne i (by simp [hpc]) _)
  | write i ok =>
    obtain ⟨hpc, hstep⟩ := Option.ite_none_right_eq_some.mp hstep
    exact Option.some.inj hstep ▸ hgoto i _ fun _ => by rw [show ok = true from hok]

omit [DecidableEq J] in
/-- The process that takes a step is one that can still win. -/
theorem pending_of_self (hmade : ∀ i, t.claim ≠ some (.made i))
    (hreading : ∀ i claim, t.pc i = .reading claim → claim = .old)
    (hj : t.pc j = .reading .old ∨ t.pc j = .removing ∨ t.pc j = .creating ∧ t.claim = none) :
    Pending t :=
  Or.inr ⟨hmade, hreading, j, Or.inr hj⟩

theorem Pending.step {l : Label J} (hstale : ∀ j, isStale (booted j) oldText = true) (hok : Ok s l)
    (hstep : step booted oldText s l = some t) (h : Pending s) : Pending t := by
  rcases h with ⟨j, hj⟩ | ⟨hmade, hreading, j, hj⟩
  · exact Or.inl ⟨j, won_step hok hstep hj⟩
  have hreads : ∀ i pc, (∀ claim, pc = .reading claim → claim = .old) →
      ∀ k claim, (s.goto i pc).pc k = .reading claim → claim = .old := by
    intro i pc hpc k claim hk
    rw [pc_goto] at hk
    split_ifs at hk
    · exact hpc claim hk
    · exact hreading k claim hk
  have hself : ∀ i pc, (s.goto i pc).pc i = pc := fun i pc => by rw [pc_goto, if_pos rfl]
  cases l with
  | giveUp i => exact absurd hok id
  | «open» i ok =>
    obtain ⟨-, hstep⟩ := Option.ite_none_right_eq_some.mp hstep
    obtain rfl : ok = true := hok
    split at hstep
    next read hread =>
      have hold : read = .old := by
        cases read with
        | old => rfl
        | made maker => exact absurd hread (hmade maker)
      subst hold
      refine Option.some.inj hstep ▸ pending_of_self hmade (hreads i _ ?_) (Or.inl (hself i _))
      exact fun claim hclaim => (Pc.reading.inj hclaim).symm
    next hnone =>
      exact Option.some.inj hstep ▸ pending_of_self hmade (hreads i _ (by simp))
        (Or.inr (Or.inr ⟨hself i _, hnone⟩))
  | read i ok =>
    rw [Warmup.step] at hstep
    split at hstep
    next read hpc =>
      obtain rfl := hreading i read hpc
      rw [if_pos (show ok = true from hok), System.judge, System.text, if_pos (hstale i)] at hstep
      exact Option.some.inj hstep ▸ pending_of_self hmade (hreads i .removing (by simp))
        (Or.inr (Or.inl (hself i .removing)))
    next => cases hstep
  | remove i ok =>
    obtain ⟨hpc, hstep⟩ := Option.ite_none_right_eq_some.mp hstep
    split_ifs at hstep with hgone
    · exact Option.some.inj hstep ▸ pending_of_self (by simp) (hreads i .creating (by simp))
        (Or.inr (Or.inr ⟨hself i .creating, rfl⟩))
    · obtain rfl := Option.some.inj hstep
      by_cases hnone : s.claim = none
      · exact pending_of_self hmade (hreads i _ (by simp)) (Or.inr (Or.inr ⟨hself i _, hnone⟩))
      · -- another process has the claim open, and comes to remove it later
        obtain ⟨k, hk⟩ := (hok.resolve_left fun htrue => hgone ⟨htrue, hnone⟩).resolve_left hnone
        have hki : k ≠ i := by
          rintro rfl
          simp [hpc] at hk
        rcases hk with hwriting | ⟨claim, hclaim⟩
        · exact Or.inl ⟨k, Or.inl (by rw [pc_goto, if_neg hki]; exact hwriting)⟩
        · obtain rfl := hreading k claim hclaim
          exact pending_of_self (j := k) hmade (hreads i _ (by simp))
            (Or.inl (by rw [pc_goto, if_neg hki]; exact hclaim))
  | create i ok =>
    obtain ⟨hpc, hstep⟩ := Option.ite_none_right_eq_some.mp hstep
    split_ifs at hstep with hfree
    · exact Option.some.inj hstep ▸ Or.inl ⟨i, Or.inl (hself i .writing)⟩
    · obtain rfl := Option.some.inj hstep
      have hji : j ≠ i := by
        rintro rfl
        simp [hpc] at hj
        exact hfree ⟨hok, hj⟩
      refine Or.inr ⟨hmade, hreads i _ (by simp), j, ?_⟩
      rw [pc_goto, if_neg hji]
      exact hj
  | write i ok =>
    obtain ⟨-, hstep⟩ := Option.ite_none_right_eq_some.mp hstep
    obtain rfl : ok = true := hok
    exact Option.some.inj hstep ▸ Or.inl ⟨i, Or.inr (hself i (.exited true))⟩

/-- Where the claim that is there is of another boot, or there is none, and nothing fails but a
removal of a claim that another process has open: when all processes are done, one has won. -/
theorem someone_claims [Nonempty J] {claim : Bool}
    (hstale : ∀ j, isStale (booted j) oldText = true)
    (hrun : RunOf (step booted oldText) Ok (start claim) s)
    (hdone : ∀ j, ∃ claimed, s.pc j = .exited claimed) : ∃ j, s.pc j = .exited true := by
  have hstart : Pending (start claim : System J) := by
    obtain ⟨j⟩ := ‹Nonempty J›
    refine Or.inr ⟨fun i => ?_, fun i read hread => ?_, j, Or.inl rfl⟩
    · cases claim <;> simp [start]
    · cases hread
  have hpending : Pending s :=
    hrun.invariant (fun _ _ _ h hok hstep => h.step hstale hok hstep) hstart
  rcases hpending with ⟨j, hwriting | hwon⟩ | ⟨-, -, j, hj⟩
  · obtain ⟨claimed, hclaimed⟩ := hdone j
    cases hwriting.symm.trans hclaimed
  · exact ⟨j, hwon⟩
  · obtain ⟨claimed, hclaimed⟩ := hdone j
    simp [hclaimed] at hj

/-- The check of the condition on a step of two processes. -/
def okCheck (s : System Bool) : Label Bool → Bool
  | .giveUp _ => false
  | .open _ ok | .read _ ok | .create _ ok | .write _ ok => ok
  | .remove _ ok => ok || s.claim = none ||
    [false, true].any fun i => s.pc i = .writing || s.pc i matches .reading _

theorem ok_of_okCheck {s : System Bool} {l : Label Bool} (h : okCheck s l = true) : Ok s l := by
  cases l with
  | giveUp => cases h
  | «open» | read | create | write => exact h
  | remove j ok =>
    simp only [okCheck, Bool.or_eq_true, decide_eq_true_eq, List.any_eq_true, or_assoc] at h
    refine h.imp_right (Or.imp_right ?_)
    rintro ⟨i, -, hwriting | hreading⟩
    · exact ⟨i, Or.inl hwriting⟩
    · split at hreading
      next claim hclaim => exact ⟨i, Or.inr ⟨claim, hclaim⟩⟩
      next => cases hreading

/-- The first process cannot remove the claim while the second has it open, and gives up. -/
theorem someone_claims_open : ∃ s : System Bool,
    s.pc false = .exited false ∧ ∃ j, s.pc j = .exited true := by
  have hexec : (execOf (step (fun _ => some 5000) "1000".toList) okCheck (start true)
      [.open false true, .open true true, .read false true, .remove false false,
        .create false true, .read true true, .remove true true, .create true true,
        .write true true]).any
      (fun s => s.pc false = .exited false && s.pc true = .exited true) = true := by decide
  obtain ⟨s, hrun, hs⟩ := exists_runOf_of_execOf okCheck (fun _ _ h => ok_of_okCheck h) hexec
  simp only [Bool.and_eq_true, decide_eq_true_eq] at hs
  refine ⟨s, hs.1, someone_claims (fun _ => by decide) hrun ?_⟩
  rintro (_ | _)
  · exact ⟨false, hs.1⟩
  · exact ⟨true, hs.2⟩

end Compile.Warmup

import Mathlib.Data.List.Perm.Basic
import Mt5HttpApi.Lib.Dict
import Mt5HttpApi.Lib.Interaction
import Mt5HttpApi.Lib.Transition
import Mt5HttpApi.Logs.Archives

/-!
# Rotating the logs

`scripts/rotate-logs.sh` walks a log directory: it deletes archives that are too old, compresses
those that an earlier version left, and rotates each log that has no archive of the day before. The
processes of the stack append to their logs all the while, each command may fail, and the container
may be stopped between any two and started again, on any day.

* `nothing_lost`: whatever happens in whatever order, what has been written to a log is in the log
  or in its archives, but for archives that have expired and for what was appended between the
  reading of the log by `gzip` and its truncation.
* `archive_kept`: what is in an archive stays readable until it has expired.
-/

namespace Logs

open Interaction Transition

/-- The content of a file. -/
abbrev Bytes := List UInt8

/-- What has a name in a directory. -/
inductive Entry
  | file (bytes : Bytes)
  /-- A directory, as the lock of `full.log` is. -/
  | other
  deriving DecidableEq, Repr

/-- The commands that the script calls on a log directory. -/
inductive Call
  | mounted
  | glob (pattern : Name)
  | isFile (name : Name)
  | isThere (name : Name)
  | notEmpty (name : Name)
  | rm (name : Name)
  | gzip (name : Name)
  | gzipTo (f tmp : Name)
  | mv (source target : Name)
  | truncate (f : Name)

/-- What a command tells: the names of a pattern, its status, or nothing that is looked at. -/
abbrev Ans : Call → Type
  | .glob _ => List Name
  | .rm _ | .truncate _ => PUnit
  | .mounted | .isFile _ | .isThere _ | .notEmpty _ | .gzip _ | .gzipTo _ _ | .mv _ _ => Bool

/-! ## The script -/

section Commands

open Program (ask)

/-- `[ -d "$dir" ]` -/
abbrev mounted : Program Ans Bool := ask Call.mounted

/-- `for name in "$dir"/pattern` -/
abbrev glob (pattern : Name) : Program Ans (List Name) := ask (Call.glob pattern)

/-- `[ -f "$name" ]` -/
abbrev isFile (name : Name) : Program Ans Bool := ask (Call.isFile name)

/-- `[ -e "$name" ]` -/
abbrev isThere (name : Name) : Program Ans Bool := ask (Call.isThere name)

/-- `[ -s "$name" ]` -/
abbrev notEmpty (name : Name) : Program Ans Bool := ask (Call.notEmpty name)

/-- `rm -f "$name"` -/
abbrev rm (name : Name) : Program Ans PUnit := ask (Call.rm name)

/-- `gzip "$name"` -/
abbrev gzip (name : Name) : Program Ans Bool := ask (Call.gzip name)

/-- `gzip -c "$f" >"$tmp"` -/
abbrev gzipTo (f tmp : Name) : Program Ans Bool := ask (Call.gzipTo f tmp)

/-- `mv "$source" "$target"` -/
abbrev mv (source target : Name) : Program Ans Bool := ask (Call.mv source target)

/-- `: >"$f"` -/
abbrev truncate (f : Name) : Program Ans PUnit := ask (Call.truncate f)

end Commands

/-- The body of the first loop: an archive older than `cutoff` is deleted. -/
def pruneArchive (cutoff : ℕ) (old : Name) : Program Ans PUnit := do
  if ← isFile old then
    if isArchive old ∧ archiveNumber old < cutoff then
      rm old

/-- The body of the second loop: an archive that is not compressed is. -/
def compressArchive (plain : Name) : Program Ans PUnit := do
  if ← isFile plain then
    if ¬ ".gz".toList <:+ plain ∧ isArchive plain then
      if ← isThere (plain ++ ".gz".toList) then
        pure ⟨⟩
      else
        -- either way there is only a message
        let _ ← gzip plain
        pure ⟨⟩

/-- The body of the third loop: a log that has no archive of `yesterday` is rotated. -/
def rotateLog (yesterday : Name) (f : Name) : Program Ans PUnit := do
  if ← isFile f then
    if ← isThere (archiveName f yesterday) then
      pure ⟨⟩
    -- an older version has rotated it
    else if ← isThere (f ++ '.' :: yesterday) then
      pure ⟨⟩
    else if ← notEmpty f then
      if ← gzipTo f (tmpName f yesterday) then
        if ← mv (tmpName f yesterday) (archiveName f yesterday) then
          truncate f
        else
          rm (tmpName f yesterday)
      else
        rm (tmpName f yesterday)

/-- `rotate_dir`. -/
def rotateDir (yesterday : Name) (cutoff : ℕ) : Program Ans PUnit := do
  if ← mounted then
    let old ← glob archivePattern
    old.forM (pruneArchive cutoff)
    let plain ← glob archivePattern
    plain.forM compressArchive
    let live ← glob livePattern
    live.forM (rotateLog yesterday)

/-! ## The directory -/

/-- A log directory, and what has happened to its logs. -/
structure Dir where
  /-- The directory is mounted. -/
  here : Bool
  entries : List (Name × Entry)
  /-- All that has been written to a log, first to last. -/
  written : Name → Bytes
  /-- The log that `gzip -c` has read and that is not truncated yet. -/
  reading : Option Name
  /-- What has been appended to that log since it was read. -/
  since : Bytes
  /-- What has been appended to a log between such a reading and the truncation. -/
  between : Name → Bytes

namespace Dir

/-- What has a name. -/
def entry (d : Dir) (name : Name) : Option Entry := Dict.get d.entries name

/-- A file has a content. -/
def put (d : Dir) (name : Name) (bytes : Bytes) : Dir :=
  { d with entries := Dict.set d.entries name (.file bytes) }

/-- A name is gone. -/
def drop (d : Dir) (name : Name) : Dir := { d with entries := Dict.pop d.entries name }

/-- What is in a log. -/
def content (d : Dir) (f : Name) : Bytes :=
  match d.entry f with
  | some (.file bytes) => bytes
  | _ => []

/-- The names that a pattern stands for, or itself if there are none. -/
def expands (d : Dir) (pattern : Name) : List Name :=
  match (d.entries.map Prod.fst).filter (shellMatches pattern) with
  | [] => [pattern]
  | names => names

end Dir

/-- How the surroundings answer a command. -/
structure Choice where
  /-- The command does what it is for. -/
  ok : Bool
  /-- What a compression that fails or is killed leaves in its target. -/
  left : Option Bytes
  /-- The names of a pattern in the order of the locale. -/
  order : List Name

variable (gz : Bytes → Bytes)

/-- What a command does to the directory and what it tells. -/
def answer (d : Dir) : (o : Call) → Choice → Option (Ans o × Dir)
  | .mounted, _ => some (d.here, d)
  | .glob pattern, c => if c.order.Perm (d.expands pattern) then some (c.order, d) else none
  | .isFile name, _ => some (d.entry name matches some (.file _), d)
  | .isThere name, _ => some ((d.entry name).isSome, d)
  | .notEmpty name, _ => some (!(d.entry name matches none | some (.file [])), d)
  | .rm name, c =>
    match d.entry name with
    | some (.file _) => some ((), if c.ok then d.drop name else d)
    | _ => some ((), d)
  | .gzip name, c =>
    match d.entry name, d.entry (name ++ ".gz".toList) with
    -- the source goes when the target is whole, and a target that is there is not overwritten
    | some (.file bytes), none =>
      if c.ok then some (true, (d.put (name ++ ".gz".toList) (gz bytes)).drop name)
      else some (false, c.left.elim d (d.put (name ++ ".gz".toList)))
    | _, _ => some (false, d)
  | .gzipTo f tmp, c =>
    match d.entry f, d.entry tmp with
    | _, some .other => some (false, d)
    | some (.file bytes), _ =>
      if c.ok then
        some (true, { d.put tmp (gz bytes) with reading := some f, since := [] })
      else some (false, c.left.elim d (d.put tmp))
    | _, _ => some (false, d.put tmp [])
  | .mv source target, c =>
    match d.entry source, d.entry target with
    | some (.file _), some .other => some (false, d)
    | some (.file bytes), _ =>
      if c.ok then some (true, (d.drop source).put target bytes) else some (false, d)
    | _, _ => some (false, d)
  | .truncate f, c =>
    match d.entry f with
    | some (.file _) =>
      if c.ok then
        some ((), { d.put f [] with
          reading := none
          between := Function.update d.between f (d.between f ++ d.since) })
      else some ((), d)
    | _ => some ((), d)

/-- A process appends to a log, which comes to be if it is not there. -/
def append (d : Dir) (f : Name) (bytes : Bytes) : Option Dir :=
  if isLog f then
    match d.entry f with
    | some .other => none
    | _ => some { d.put f (d.content f ++ bytes) with
        written := Function.update d.written f (d.written f ++ bytes)
        since := if d.reading = some f then d.since ++ bytes else d.since }
  else none

/-- The surroundings of the script. -/
def surroundings : World Dir Ans where
  Choice := Choice
  answer := answer gz
  Event := Name × Bytes
  move d e := append d e.1 e.2

/-- A log directory with the script at work on it. -/
structure Site where
  dir : Dir
  /-- What is left of the pass that has begun last. -/
  pass : Option (Program Ans PUnit)
  /-- The latest day on which a pass has begun. -/
  latest : ℕ

/-- What may happen next. -/
inductive Label
  /-- A process appends to a log. -/
  | append (f : Name) (bytes : Bytes)
  /-- A pass begins; the one before is over or has been killed. -/
  | begin (today : ℕ)
  /-- The next command of the pass is answered. -/
  | answer (c : Choice)

variable (retain : ℕ)

/-- One step; `retain` is `$RETAIN_DAYS`. -/
def step (s : Site) : Label → Option Site
  | .append f bytes => (append s.dir f bytes).map fun dir => { s with dir := dir }
  | .begin today => some
      { dir := { s.dir with reading := none, since := [] }
        pass := some (rotateDir (dateText (today - 1)) (ymd (today - retain)))
        latest := max s.latest today }
  | .answer c => s.pass.bind fun pass =>
      (resume (surroundings gz) s.dir c pass).map fun r =>
        { s with dir := r.1, pass := some r.2 }

/-- No pass has begun. -/
def initial (here : Bool) (entries : List (Name × Entry)) : Site where
  dir :=
    { here := here
      entries := entries
      written := fun f => match Dict.get entries f with
        | some (.file bytes) => bytes
        | _ => []
      reading := none
      since := []
      between := fun _ => [] }
  pass := none
  latest := 0

/-! ## What a command may be called on -/

variable {gz retain} {d u : Dir} {name f : Name} {bytes kept : Bytes} {day cutoff : ℕ} {c : Choice}

/-- `gzip` has read `kept` of a log, and the rest of the log has been appended since. -/
structure HasRead (d : Dir) (f : Name) (kept : Bytes) : Prop where
  log : isLog f
  reading : d.reading = some f
  entry : d.entry f = some (.file (kept ++ d.since))

/-- Where a pass of the day after `day` calls a command. Nothing but an archive older than `cutoff`
and a file of its own is deleted, an archive comes to be under a name that is free, and a log is
truncated once it is in one. -/
def legal (gz : Bytes → Bytes) (day cutoff : ℕ) (d : Dir) : Call → Prop
  | .rm name =>
    (isArchive name = true ∧ archiveNumber name < cutoff) ∨ ∃ f, name = tmpName f (dateText day)
  | .gzip name => isArchive name = true ∧ ¬ ".gz".toList <:+ name
  | .gzipTo f tmp => isLog f ∧ tmp = tmpName f (dateText day)
  | .mv source target => ∃ f kept, HasRead d f kept ∧ source = tmpName f (dateText day) ∧
      target = archiveName f (dateText day) ∧ d.entry target = none ∧
      d.entry source = some (.file (gz kept))
  | .truncate f => ∃ kept, HasRead d f kept ∧
      d.entry (archiveName f (dateText day)) = some (.file (gz kept))
  | _ => True

@[simp]
theorem Dir.entry_put (d : Dir) (n name : Name) (bytes : Bytes) :
    (d.put n bytes).entry name = if name = n then some (.file bytes) else d.entry name :=
  Dict.get_set

@[simp]
theorem Dir.entry_drop (d : Dir) (n name : Name) :
    (d.drop n).entry name = if name = n then none else d.entry name :=
  Dict.get_pop

/-! ## Appending -/

/-- What an append to a log does. -/
theorem append_cases (h : append d f bytes = some u) : isLog f ∧
    u = { d.put f (d.content f ++ bytes) with
      written := Function.update d.written f (d.written f ++ bytes)
      since := if d.reading = some f then d.since ++ bytes else d.since } := by
  rw [append] at h
  split at h
  next hlog =>
    split at h
    · cases h
    · exact ⟨hlog, (Option.some.inj h).symm⟩
  next => cases h

/-- An append changes logs only. -/
theorem entry_append (h : append d f bytes = some u) (hname : ¬ isLog name) :
    u.entry name = d.entry name := by
  obtain ⟨hlog, rfl⟩ := append_cases h
  have hne : name ≠ f := fun heq => hname (heq ▸ hlog)
  exact (d.entry_put f name _).trans (if_neg hne)

/-- What `gzip` has read stays the front of the log. -/
theorem HasRead.append {g : Name} (h : HasRead d f kept) (hu : append d g bytes = some u) :
    HasRead u f kept := by
  obtain ⟨-, rfl⟩ := append_cases hu
  refine ⟨h.log, h.reading, (d.entry_put g f _).trans ?_⟩
  by_cases hg : f = g
  · subst hg
    have hcontent : d.content f = kept ++ d.since := by rw [Dir.content, h.entry]
    rw [if_pos rfl, hcontent, List.append_assoc]
    simp [h.reading]
  · have hreading : d.reading ≠ some g := fun heq => hg (Option.some.inj (h.reading.symm.trans heq))
    rw [if_neg hg, h.entry]
    simp [hreading]

/-! ## What a pass calls -/

/-- Any answer may come. -/
abbrev anyAnswer (gz : Bytes → Bytes) (_ : Dir) (_ : Call) (_ : (surroundings gz).Choice) : Prop :=
  True

/-- A pass of the day after `day` calls its commands where they are legal, whatever they answer. -/
abbrev Careful (gz : Bytes → Bytes) (day cutoff : ℕ) (p : Program Ans PUnit) (d : Dir) : Prop :=
  Leads (W := surroundings gz) (legal gz day cutoff) (anyAnswer gz) (fun _ _ => True) p d

/-- What is so of every directory stays so. -/
theorem stable_true (d : Dir) (e : (surroundings gz).Event) (u : Dir)
    (_ : (surroundings gz).move d e = some u) (_ : True) : True := trivial

theorem careful_pure (d : Dir) : Careful gz day cutoff (pure ⟨⟩) d := fun _ _ => trivial

/-- A last command. -/
theorem careful_ask {o : Call} {next : Ans o → Program Ans PUnit} {P : Dir → Prop}
    (hstable : ∀ d e u, (surroundings gz).move d e = some u → P d → P u) (hd : P d)
    (hlegal : ∀ u, P u → legal gz day cutoff u o)
    (hnext : ∀ a u, Careful gz day cutoff (next a) u) :
    Careful gz day cutoff (.call o next) d :=
  leads_call hstable hd hlegal fun _ _ _ a u _ _ => hnext a u

theorem careful_pruneArchive (old : Name) (d : Dir) :
    Careful gz day cutoff (pruneArchive cutoff old) d := by
  refine careful_ask stable_true trivial (fun _ _ => trivial) fun isFile u => ?_
  cases isFile with
  | false => exact careful_pure u
  | true =>
    show Careful gz day cutoff (if _ then _ else _) u
    split
    next hold =>
      exact careful_ask stable_true trivial (fun _ _ => Or.inl hold) fun _ u => careful_pure u
    next => exact careful_pure u

theorem careful_compressArchive (plain : Name) (d : Dir) :
    Careful gz day cutoff (compressArchive plain) d := by
  refine careful_ask stable_true trivial (fun _ _ => trivial) fun isFile u => ?_
  cases isFile with
  | false => exact careful_pure u
  | true =>
    show Careful gz day cutoff (if _ then _ else _) u
    split
    next hplain =>
      refine careful_ask stable_true trivial (fun _ _ => trivial) fun isThere u => ?_
      cases isThere with
      | true => exact careful_pure u
      | false =>
        refine careful_ask stable_true trivial (fun _ _ => ⟨hplain.2, hplain.1⟩) fun _ u => ?_
        exact careful_pure u
    next => exact careful_pure u

/-- The archive of a log is not there. -/
theorem stable_notThere (f : Name) (d : Dir) (e : (surroundings gz).Event) (u : Dir)
    (hmove : (surroundings gz).move d e = some u)
    (h : d.entry (archiveName f (dateText day)) = none) :
    u.entry (archiveName f (dateText day)) = none :=
  (entry_append hmove (not_isLog_archiveName _ _)).trans h

/-- What has been read of a log is in a file that is none. -/
theorem stable_hasRead (f : Name) (hname : ¬ isLog name) (d : Dir)
    (e : (surroundings gz).Event) (u : Dir) (hmove : (surroundings gz).move d e = some u)
    (h : ∃ kept, HasRead d f kept ∧ d.entry name = some (.file (gz kept))) :
    ∃ kept, HasRead u f kept ∧ u.entry name = some (.file (gz kept)) := by
  obtain ⟨kept, hread, hentry⟩ := h
  exact ⟨kept, hread.append hmove, (entry_append hmove hname).trans hentry⟩

/-- A partial copy is removed. -/
theorem careful_rm_tmp (f : Name) (d : Dir) :
    Careful gz day cutoff (rm (tmpName f (dateText day))) d :=
  careful_ask stable_true trivial (fun _ _ => Or.inr ⟨f, rfl⟩) fun _ u => careful_pure u

/-- The copy of a log that has been read becomes its archive, and then the log is truncated. -/
theorem careful_mv_truncate (f : Name)
    (hnone : d.entry (archiveName f (dateText day)) = none)
    (hread : ∃ kept, HasRead d f kept ∧
      d.entry (tmpName f (dateText day)) = some (.file (gz kept))) :
    Careful gz day cutoff (do
      if ← mv (tmpName f (dateText day)) (archiveName f (dateText day)) then
        truncate f
      else
        rm (tmpName f (dateText day))) d := by
  refine leads_call (P := fun u => u.entry (archiveName f (dateText day)) = none ∧
    ∃ kept, HasRead u f kept ∧ u.entry (tmpName f (dateText day)) = some (.file (gz kept)))
    (fun d e u hmove h => ⟨stable_notThere f d e u hmove h.1,
      stable_hasRead f (not_isLog_tmpName _ _) d e u hmove h.2⟩) ⟨hnone, hread⟩ ?_ ?_
  · rintro u ⟨hnone, kept, hread, htmp⟩
    exact ⟨f, kept, hread, rfl, rfl, hnone, htmp⟩
  · rintro u ⟨hnone, kept, hread, htmp⟩ c moved v - hanswer
    have hne : f ≠ tmpName f (dateText day) := fun heq =>
      not_isLog_tmpName f (dateText day) (heq ▸ hread.log)
    have hne' : f ≠ archiveName f (dateText day) := fun heq =>
      not_isLog_archiveName f (dateText day) (heq ▸ hread.log)
    cases moved with
    | false => exact careful_rm_tmp f v
    | true =>
      -- `mv` has told that it is done: the archive is there, and the log is as it was
      simp only [surroundings, answer, htmp, hnone] at hanswer
      split at hanswer
      next =>
        obtain ⟨-, rfl⟩ := Prod.mk.inj (Option.some.inj hanswer)
        refine careful_ask (stable_hasRead f (not_isLog_archiveName f (dateText day)))
          ⟨kept, ⟨hread.log, hread.reading, ?_⟩, ?_⟩ (fun _ h => h) fun _ u => careful_pure u
        · rw [Dir.entry_put, if_neg hne', Dir.entry_drop, if_neg hne, hread.entry]
          rfl
        · rw [Dir.entry_put, if_pos rfl]
      next => cases hanswer

/-- A log is rotated with care, whatever is written in the meantime. -/
theorem careful_rotateLog (hlog : isLog f) (d : Dir) :
    Careful gz day cutoff (rotateLog (dateText day) f) d := by
  refine careful_ask stable_true trivial (fun _ _ => trivial) fun isFile u => ?_
  cases isFile with
  | false => exact careful_pure u
  | true =>
    refine leads_call stable_true trivial (fun _ _ => trivial) ?_
    rintro u - c isThere v - hanswer
    obtain ⟨hthere, rfl⟩ := Prod.mk.inj (Option.some.inj hanswer)
    cases isThere with
    | true => exact careful_pure u
    | false =>
      -- no archive is there, and none comes to be there but by this pass
      have hnone : u.entry (archiveName f (dateText day)) = none := by simpa using hthere
      refine leads_call (stable_notThere f) hnone (fun _ _ => trivial) ?_
      rintro u hnone c isThere v - hanswer
      obtain ⟨-, rfl⟩ := Prod.mk.inj (Option.some.inj hanswer)
      cases isThere with
      | true => exact careful_pure u
      | false =>
        refine leads_call (stable_notThere f) hnone (fun _ _ => trivial) ?_
        rintro u hnone c notEmpty v - hanswer
        obtain ⟨-, rfl⟩ := Prod.mk.inj (Option.some.inj hanswer)
        cases notEmpty with
        | false => exact careful_pure u
        | true =>
          refine leads_call (stable_notThere f) hnone (fun _ _ => ⟨hlog, rfl⟩) ?_
          rintro u hnone c read v - hanswer
          cases read with
          | false => exact careful_rm_tmp f v
          | true =>
            simp only [surroundings, answer] at hanswer
            split at hanswer
            next => cases hanswer
            next bytes hf htmp =>
              split at hanswer
              next =>
                obtain ⟨-, rfl⟩ := Prod.mk.inj (Option.some.inj hanswer)
                have hne : f ≠ tmpName f (dateText day) := fun heq =>
                  not_isLog_tmpName f (dateText day) (heq ▸ hlog)
                have hne' : archiveName f (dateText day) ≠ tmpName f (dateText day) := fun heq =>
                  not_gz_tmpName f (dateText day) (heq ▸ gz_suffix_archiveName f (dateText day))
                refine careful_mv_truncate f ?_ ⟨bytes, ⟨hlog, rfl, ?_⟩, ?_⟩
                · exact (u.entry_put _ _ _).trans ((if_neg hne').trans hnone)
                · exact (u.entry_put _ _ _).trans ((if_neg hne).trans (by simpa using hf))
                · exact (u.entry_put _ _ _).trans (if_pos rfl)
              next => cases hanswer
            next => cases hanswer

/-- The names that the pattern of the logs stands for are logs. -/
theorem isLog_of_mem_expands (h : name ∈ d.expands livePattern) : isLog name := by
  rw [Dir.expands] at h
  split at h
  next =>
    obtain rfl := List.mem_singleton.mp h
    decide
  next => exact isLog_of_shellMatches (List.mem_filter.mp h).2

/-- A pass calls its commands where they are legal. -/
theorem careful_rotateDir (d : Dir) :
    Careful gz day cutoff (rotateDir (dateText day) cutoff) d := by
  refine careful_ask stable_true trivial (fun _ _ => trivial) fun isMounted u => ?_
  cases isMounted with
  | false => exact careful_pure u
  | true =>
    refine careful_ask stable_true trivial (fun _ _ => trivial) fun old u => ?_
    refine (leads_forM stable_true trivial fun n _ u _ => careful_pruneArchive n u).bind
      fun _ u _ => ?_
    refine careful_ask stable_true trivial (fun _ _ => trivial) fun plain u => ?_
    refine (leads_forM stable_true trivial fun n _ u _ => careful_compressArchive n u).bind
      fun _ u _ => ?_
    refine leads_call stable_true trivial (fun _ _ => trivial) ?_
    rintro u - c live v - hanswer
    simp only [surroundings, answer] at hanswer
    split at hanswer
    next hperm =>
      obtain ⟨rfl, rfl⟩ := Prod.mk.inj (Option.some.inj hanswer)
      refine leads_forM stable_true trivial fun n hn u _ => careful_rotateLog ?_ u
      exact isLog_of_mem_expands (hperm.mem_iff.mp hn)
    next => cases hanswer

end Logs

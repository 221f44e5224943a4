import Mt5HttpApi.Logs.Rotation

/-!
# No log is lost

Every command of a pass is called where it is legal (`careful_rotateDir`), so `Effect` lists all
that may become of the directory. What has been written to a log is accounted for by `Accounted`,
which every effect and every append keeps.

* `nothing_lost`: whatever happens in whatever order, all that has been written to a log is in the
  log or was in an archive that is still there or has expired, except for what was appended between
  the reading of the log by `gzip` and its truncation.
* `archive_kept`: an archive stays, compressed or not, until it has expired.
-/

namespace Logs

open Interaction Transition

variable {gz : Bytes → Bytes} {retain : ℕ} {d u : Dir} {name f : Name} {bytes kept : Bytes}
  {day cutoff : ℕ} {c : Choice} {s t : Site}

/-- What may become of the directory when a pass calls a command. -/
inductive Effect (gz : Bytes → Bytes) (day cutoff : ℕ) (d : Dir) : Dir → Prop
  | same : Effect gz day cutoff d d
  | prune (old : Name) (hold : isArchive old = true ∧ archiveNumber old < cutoff) :
    Effect gz day cutoff d (d.drop old)
  | clean (f : Name) : Effect gz day cutoff d (d.drop (tmpName f (dateText day)))
  | compress (plain : Name) (bytes : Bytes) (harchive : isArchive plain = true)
    (hplain : ¬ ".gz".toList <:+ plain)
    (hentry : d.entry plain = some (.file bytes))
    (hnone : d.entry (plain ++ ".gz".toList) = none) :
    Effect gz day cutoff d ((d.put (plain ++ ".gz".toList) (gz bytes)).drop plain)
  | tear (plain : Name) (left : Bytes) (hnone : d.entry (plain ++ ".gz".toList) = none) :
    Effect gz day cutoff d (d.put (plain ++ ".gz".toList) left)
  | copy (f : Name) (left : Bytes) : Effect gz day cutoff d (d.put (tmpName f (dateText day)) left)
  | read (f : Name) (bytes : Bytes) :
    Effect gz day cutoff d
      { d.put (tmpName f (dateText day)) (gz bytes) with reading := some f, since := [] }
  | move (f : Name) (kept : Bytes) (hnone : d.entry (archiveName f (dateText day)) = none) :
    Effect gz day cutoff d
      ((d.drop (tmpName f (dateText day))).put (archiveName f (dateText day)) (gz kept))
  | truncate (f : Name) (kept : Bytes) (hread : HasRead d f kept)
    (harchive : d.entry (archiveName f (dateText day)) = some (.file (gz kept))) :
    Effect gz day cutoff d
      { d.put f [] with
        reading := none
        between := Function.update d.between f (d.between f ++ d.since) }

/-- A command that is called where it is legal has one of these effects. -/
theorem effect_of_answer {o : Call} {a : Ans o} (hlegal : legal gz day cutoff d o)
    (h : answer gz d o c = some (a, u)) : Effect gz day cutoff d u := by
  cases o with
  | mounted | isFile | isThere | notEmpty =>
    obtain ⟨-, rfl⟩ := Prod.mk.inj (Option.some.inj h)
    exact .same
  | glob pattern =>
    simp only [answer] at h
    split at h
    next =>
      obtain ⟨-, rfl⟩ := Prod.mk.inj (Option.some.inj h)
      exact .same
    next => cases h
  | rm name =>
    have hdrop : Effect gz day cutoff d (d.drop name) := by
      rcases hlegal with hold | ⟨f, rfl⟩
      · exact .prune name hold
      · exact .clean f
    simp only [answer] at h
    split at h
    next =>
      obtain ⟨-, rfl⟩ := Prod.mk.inj (Option.some.inj h)
      split
      · exact hdrop
      · exact .same
    next =>
      obtain ⟨-, rfl⟩ := Prod.mk.inj (Option.some.inj h)
      exact .same
  | gzip plain =>
    simp only [answer] at h
    split at h
    next bytes hentry hnone =>
      split at h
      next =>
        obtain ⟨-, rfl⟩ := Prod.mk.inj (Option.some.inj h)
        exact .compress plain bytes hlegal.1 hlegal.2 hentry hnone
      next =>
        obtain ⟨-, rfl⟩ := Prod.mk.inj (Option.some.inj h)
        cases c.left with
        | none => exact .same
        | some left => exact .tear plain left hnone
    next =>
      obtain ⟨-, rfl⟩ := Prod.mk.inj (Option.some.inj h)
      exact .same
  | gzipTo f tmp =>
    obtain ⟨-, rfl⟩ := hlegal
    simp only [answer] at h
    split at h
    next =>
      obtain ⟨-, rfl⟩ := Prod.mk.inj (Option.some.inj h)
      exact .same
    next bytes _ _ =>
      split at h
      next =>
        obtain ⟨-, rfl⟩ := Prod.mk.inj (Option.some.inj h)
        exact .read f bytes
      next =>
        obtain ⟨-, rfl⟩ := Prod.mk.inj (Option.some.inj h)
        cases c.left with
        | none => exact .same
        | some left => exact .copy f left
    next =>
      obtain ⟨-, rfl⟩ := Prod.mk.inj (Option.some.inj h)
      exact .copy f []
  | mv source target =>
    obtain ⟨f, kept, -, rfl, rfl, hnone, htmp⟩ := hlegal
    simp only [answer, htmp, hnone] at h
    split at h
    next =>
      obtain ⟨-, rfl⟩ := Prod.mk.inj (Option.some.inj h)
      exact .move f kept hnone
    next =>
      obtain ⟨-, rfl⟩ := Prod.mk.inj (Option.some.inj h)
      exact .same
  | truncate f =>
    obtain ⟨kept, hread, harchive⟩ := hlegal
    simp only [answer, hread.entry] at h
    split at h
    next =>
      obtain ⟨-, rfl⟩ := Prod.mk.inj (Option.some.inj h)
      exact .truncate f kept hread harchive
    next =>
      obtain ⟨-, rfl⟩ := Prod.mk.inj (Option.some.inj h)
      exact .same

/-! ## Archives -/

/-- An archive that is there under a compressed name is not written to. -/
theorem Effect.entry_gz (h : Effect gz day cutoff d u) (hgz : ".gz".toList <:+ name) {e : Entry}
    (hentry : d.entry name = some e) :
    u.entry name = some e ∨ isArchive name = true ∧ archiveNumber name < cutoff := by
  have htmp : ∀ f, name ≠ tmpName f (dateText day) := fun f heq => not_gz_tmpName _ _ (heq ▸ hgz)
  have hfree : ∀ n, d.entry n = none → name ≠ n := by
    rintro n hnone rfl
    cases hnone.symm.trans hentry
  cases h with
  | same => exact Or.inl hentry
  | prune old hold =>
    by_cases heq : name = old
    · exact Or.inr (heq ▸ hold)
    · exact Or.inl (by rw [Dir.entry_drop, if_neg heq, hentry])
  | clean f => exact Or.inl (by rw [Dir.entry_drop, if_neg (htmp f), hentry])
  | compress plain bytes _ hplain _ hnone =>
    have hne : name ≠ plain := fun heq => hplain (heq ▸ hgz)
    exact Or.inl (by rw [Dir.entry_drop, if_neg hne, Dir.entry_put, if_neg (hfree _ hnone), hentry])
  | tear plain left hnone =>
    exact Or.inl (by rw [Dir.entry_put, if_neg (hfree _ hnone), hentry])
  | copy f left => exact Or.inl (by rw [Dir.entry_put, if_neg (htmp f), hentry])
  | read f bytes => exact Or.inl ((d.entry_put _ _ _).trans ((if_neg (htmp f)).trans hentry))
  | move f kept hnone =>
    exact Or.inl (by rw [Dir.entry_put, if_neg (hfree _ hnone), Dir.entry_drop, if_neg (htmp f),
      hentry])
  | truncate f kept hread _ =>
    have hne : name ≠ f := fun heq => not_isLog_of_gz hgz (heq ▸ hread.log)
    exact Or.inl ((d.entry_put _ _ _).trans ((if_neg hne).trans hentry))

/-- An archive holds a content, as it is or compressed. -/
def Holds (gz : Bytes → Bytes) (d : Dir) (name : Name) (bytes : Bytes) : Prop :=
  d.entry name = some (.file bytes) ∨
    ¬ ".gz".toList <:+ name ∧ d.entry (name ++ ".gz".toList) = some (.file (gz bytes))

/-- An archive is older than a day. -/
def Expired (name : Name) (cutoff : ℕ) : Prop := isArchive name = true ∧ archiveNumber name < cutoff

theorem archiveDate_gz (hgz : ¬ ".gz".toList <:+ name) :
    archiveDate (name ++ ".gz".toList) = archiveDate name := by
  rw [archiveDate, stripGz_gz, archiveDate, stripGz, if_neg hgz]

/-- Compressing changes nothing about the day. -/
theorem expired_gz_iff (hgz : ¬ ".gz".toList <:+ name) :
    Expired (name ++ ".gz".toList) cutoff ↔ Expired name cutoff := by
  simp only [Expired, isArchive, archiveNumber, archiveDate_gz hgz]

/-- What an archive holds it goes on holding, unless it is older than the pass allows. -/
theorem Effect.holds (h : Effect gz day cutoff d u) (harchive : isArchive name = true)
    (hholds : Holds gz d name bytes) : Holds gz u name bytes ∨ Expired name cutoff := by
  by_cases hgz : ".gz".toList <:+ name
  · rcases hholds with hentry | ⟨hplain, -⟩
    · exact (h.entry_gz hgz hentry).imp_left Or.inl
    · exact absurd hgz hplain
  rcases hholds with hentry | ⟨-, hentry⟩
  · -- it is not compressed yet
    have hne : ∀ n, ".gz".toList <:+ n → name ≠ n := fun n hn heq => hgz (heq ▸ hn)
    have htmp : ∀ f, name ≠ tmpName f (dateText day) := fun f heq =>
      not_isArchive_tmpName _ _ (heq ▸ harchive)
    cases h with
    | same => exact Or.inl (Or.inl hentry)
    | prune old hold =>
      by_cases heq : name = old
      · exact Or.inr (heq ▸ hold)
      · exact Or.inl (Or.inl (by rw [Dir.entry_drop, if_neg heq, hentry]))
    | clean f => exact Or.inl (Or.inl (by rw [Dir.entry_drop, if_neg (htmp f), hentry]))
    | compress plain content _ _ hcontent hnone =>
      have hgz' : plain ++ ".gz".toList ≠ plain := by simp
      by_cases heq : name = plain
      · subst heq
        obtain rfl : content = bytes := by simpa using hcontent.symm.trans hentry
        exact Or.inl (Or.inr ⟨hgz, by rw [Dir.entry_drop, if_neg hgz', Dir.entry_put, if_pos rfl]⟩)
      · exact Or.inl (Or.inl (by rw [Dir.entry_drop, if_neg heq, Dir.entry_put,
          if_neg (hne _ (List.suffix_append _ _)), hentry]))
    | tear plain left hnone =>
      exact Or.inl (Or.inl (by rw [Dir.entry_put, if_neg (hne _ (List.suffix_append _ _)), hentry]))
    | copy f left => exact Or.inl (Or.inl (by rw [Dir.entry_put, if_neg (htmp f), hentry]))
    | read f content =>
      exact Or.inl (Or.inl ((d.entry_put _ _ _).trans ((if_neg (htmp f)).trans hentry)))
    | move f kept hnone =>
      exact Or.inl (Or.inl (by rw [Dir.entry_put, if_neg (hne _ (gz_suffix_archiveName _ _)),
        Dir.entry_drop, if_neg (htmp f), hentry]))
    | truncate f kept hread _ =>
      have hlog : name ≠ f := fun heq => not_isLog_of_isArchive harchive (heq ▸ hread.log)
      exact Or.inl (Or.inl ((d.entry_put _ _ _).trans ((if_neg hlog).trans hentry)))
  · refine (h.entry_gz (List.suffix_append _ _) hentry).imp (fun hkept => Or.inr ⟨hgz, hkept⟩) ?_
    exact (expired_gz_iff hgz).mp

/-- An append to a log leaves an archive as it is. -/
theorem holds_append (h : append d f bytes = some u) (harchive : isArchive name = true)
    (hholds : Holds gz d name kept) : Holds gz u name kept := by
  refine hholds.imp (fun hentry => ?_) fun hentry => ⟨hentry.1, ?_⟩
  · exact (entry_append h (not_isLog_of_isArchive harchive)).trans hentry
  · exact (entry_append h (not_isLog_of_gz (List.suffix_append _ _))).trans hentry.2

/-! ## Runs -/

/-- The pass that is on its way calls its commands where they are legal. -/
def Guarded (gz : Bytes → Bytes) (retain : ℕ) (s : Site) : Prop :=
  ∀ pass, s.pass = some pass →
    ∃ today ≤ s.latest, Careful gz (today - 1) (ymd (today - retain)) pass s.dir

/-- What a step does: a process appends, a pass begins, or a command has its effect. -/
theorem step_cases {l : Label} (hs : Guarded gz retain s) (h : step gz retain s l = some t) :
    (∃ f bytes, append s.dir f bytes = some t.dir ∧ t.latest = s.latest) ∨
    (t.dir = { s.dir with reading := none, since := [] } ∧ s.latest ≤ t.latest) ∨
    ∃ today ≤ s.latest, Effect gz (today - 1) (ymd (today - retain)) s.dir t.dir ∧
      t.latest = s.latest := by
  cases l with
  | append f bytes =>
    obtain ⟨dir, hdir, rfl⟩ := Option.map_eq_some_iff.mp h
    exact Or.inl ⟨f, bytes, hdir, rfl⟩
  | begin today =>
    obtain rfl := (Option.some.inj h).symm
    exact Or.inr (Or.inl ⟨rfl, le_max_left _ _⟩)
  | answer c =>
    obtain ⟨pass, hpass, hresume⟩ := Option.bind_eq_some_iff.mp h
    obtain ⟨r, hr, rfl⟩ := Option.map_eq_some_iff.mp hresume
    obtain ⟨today, htoday, hcareful⟩ := hs pass hpass
    refine Or.inr (Or.inr ⟨today, htoday, ?_, rfl⟩)
    cases pass with
    | done a => cases hr
    | call o next =>
      obtain ⟨answered, hanswer, rfl⟩ := Option.map_eq_some_iff.mp hr
      exact effect_of_answer hcareful.of_call.1 hanswer

/-- Each step leaves a pass that calls its commands where they are legal. -/
theorem guarded_step {l : Label} (hs : Guarded gz retain s) (h : step gz retain s l = some t) :
    Guarded gz retain t := by
  cases l with
  | append f bytes =>
    obtain ⟨dir, hdir, rfl⟩ := Option.map_eq_some_iff.mp h
    intro pass hpass
    obtain ⟨today, htoday, hcareful⟩ := hs pass hpass
    exact ⟨today, htoday, hcareful.moved (Relation.ReflTransGen.single ⟨(f, bytes), hdir⟩)⟩
  | begin today =>
    obtain rfl := (Option.some.inj h).symm
    intro pass hpass
    obtain rfl := Option.some.inj hpass
    exact ⟨today, le_max_right _ _, careful_rotateDir _⟩
  | answer c =>
    obtain ⟨pass, hpass, hresume⟩ := Option.bind_eq_some_iff.mp h
    obtain ⟨r, hr, rfl⟩ := Option.map_eq_some_iff.mp hresume
    obtain ⟨today, htoday, hcareful⟩ := hs pass hpass
    intro pass' hpass'
    obtain rfl := Option.some.inj hpass'
    exact ⟨today, htoday, hcareful.resume (fun _ _ _ => trivial) hr⟩

theorem guarded_initial (here : Bool) (entries : List (Name × Entry)) :
    Guarded gz retain (initial here entries) := fun _ hpass => nomatch hpass

theorem guarded_run (hrun : Run (step gz retain) s t) (hs : Guarded gz retain s) :
    Guarded gz retain t :=
  RunOf.invariant (fun _ _ _ hP _ hstep => guarded_step hP hstep) hrun hs

/-- A cutoff is reached on the latest day. -/
theorem Expired.mono {cutoff' : ℕ} (h : Expired name cutoff) (hle : cutoff ≤ cutoff') :
    Expired name cutoff' := ⟨h.1, h.2.trans_le hle⟩

theorem ymd_sub_le {a b : ℕ} (h : a ≤ b) : ymd (a - retain) ≤ ymd (b - retain) :=
  strictMono_ymd.monotone (Nat.sub_le_sub_right h retain)

/-- Once content is in an archive, compressed or not, it stays readable there through appends,
passes, failures and restarts in any order, until a pass has begun that finds the archive older
than the days to retain. -/
theorem archive_kept {here : Bool} {entries : List (Name × Entry)}
    (hreach : Run (step gz retain) (initial here entries) s) (hrun : Run (step gz retain) s t)
    (harchive : isArchive name = true) (hholds : Holds gz s.dir name bytes) :
    Holds gz t.dir name bytes ∨ Expired name (ymd (t.latest - retain)) := by
  have hguarded : Guarded gz retain s := guarded_run hreach (guarded_initial here entries)
  suffices hboth : Guarded gz retain t ∧
      (Holds gz t.dir name bytes ∨ Expired name (ymd (t.latest - retain))) from hboth.2
  refine RunOf.invariant (P := fun t => Guarded gz retain t ∧
    (Holds gz t.dir name bytes ∨ Expired name (ymd (t.latest - retain)))) ?_ hrun
    ⟨hguarded, Or.inl hholds⟩
  rintro v l w ⟨hv, hkept⟩ - hstep
  refine ⟨guarded_step hv hstep, ?_⟩
  have hlatest : v.latest ≤ w.latest := by
    rcases step_cases hv hstep with ⟨f, b, -, h⟩ | ⟨-, h⟩ | ⟨today, -, -, h⟩
    · exact h.ge
    · exact h
    · exact h.ge
  rcases hkept with hkept | hexpired
  · rcases step_cases hv hstep with ⟨f, b, happend, -⟩ | ⟨hdir, -⟩ | ⟨today, htoday, heffect, -⟩
    · exact Or.inl (holds_append happend harchive hkept)
    · exact Or.inl (by rw [hdir]; exact hkept)
    · exact (heffect.holds harchive hkept).imp_right fun h =>
        h.mono (ymd_sub_le (htoday.trans hlatest))
  · exact Or.inr (hexpired.mono (ymd_sub_le hlatest))

/-- A pass compresses an archive that an earlier version has left. -/
theorem archive_kept_compressed : ∃ t,
    Run (step (fun b => 31 :: b) 7) (initial true [("a.log.19700105".toList, .file [5])]) t ∧
    t.dir.entry "a.log.19700105".toList = none ∧
    (Holds (fun b => 31 :: b) t.dir "a.log.19700105".toList [5] ∨
      Expired "a.log.19700105".toList (ymd (t.latest - 7))) := by
  have hexec : (exec (step (fun b => 31 :: b) 7)
      (initial true [("a.log.19700105".toList, .file [5])])
      [.begin 9, .answer ⟨true, none, []⟩, .answer ⟨true, none, ["a.log.19700105".toList]⟩,
        .answer ⟨true, none, []⟩, .answer ⟨true, none, ["a.log.19700105".toList]⟩,
        .answer ⟨true, none, []⟩, .answer ⟨true, none, []⟩, .answer ⟨true, none, []⟩]).any
      (fun t => t.dir.entry "a.log.19700105".toList = none) = true := by decide
  obtain ⟨t, hrun, hgone⟩ := exists_run_of_exec hexec
  exact ⟨t, hrun, of_decide_eq_true hgone,
    archive_kept RunOf.refl hrun (by decide) (Or.inl rfl)⟩

/-! ## Logs -/

theorem written_append (h : append d name bytes = some u) :
    u.written f = if f = name then d.written f ++ bytes else d.written f := by
  obtain ⟨-, rfl⟩ := append_cases h
  by_cases hf : f = name
  · subst hf
    exact (Function.update_self _ _ _).trans (if_pos rfl).symm
  · exact (Function.update_of_ne hf _ _).trans (if_neg hf).symm

theorem content_append (h : append d name bytes = some u) :
    u.content f = if f = name then d.content f ++ bytes else d.content f := by
  obtain ⟨-, hu⟩ := append_cases h
  have hentry : u.entry f =
      if f = name then some (.file (d.content name ++ bytes)) else d.entry f := by
    rw [hu]
    exact d.entry_put _ _ _
  rw [Dir.content, hentry]
  by_cases hf : f = name
  · rw [if_pos hf, if_pos hf, hf]
  · rw [if_neg hf, if_neg hf, Dir.content]

theorem between_append (h : append d name bytes = some u) (f : Name) :
    u.between f = d.between f := by
  obtain ⟨-, rfl⟩ := append_cases h
  rfl

/-- What an effect does to a log: nothing, or all that it holds is in its archive, but for what has
been appended since it was read, and it is emptied. -/
theorem Effect.log (h : Effect gz day cutoff d u) (hlog : isLog f) :
    (u.written = d.written ∧ u.entry f = d.entry f ∧ u.between f = d.between f) ∨
    ∃ kept, d.content f = kept ++ d.since ∧
      d.entry (archiveName f (dateText day)) = some (.file (gz kept)) ∧ u.written = d.written ∧
      u.entry f = some (.file []) ∧ u.between f = d.between f ++ d.since := by
  have htmp : ∀ g, f ≠ tmpName g (dateText day) := fun g heq => not_isLog_tmpName _ _ (heq ▸ hlog)
  have hgz : ∀ n, ".gz".toList <:+ n → f ≠ n := fun n hn heq => not_isLog_of_gz hn (heq ▸ hlog)
  cases h with
  | same => exact Or.inl ⟨rfl, rfl, rfl⟩
  | prune old hold =>
    have hne : f ≠ old := fun heq => not_isLog_of_isArchive hold.1 (heq ▸ hlog)
    exact Or.inl ⟨rfl, by rw [Dir.entry_drop, if_neg hne], rfl⟩
  | clean g => exact Or.inl ⟨rfl, by rw [Dir.entry_drop, if_neg (htmp g)], rfl⟩
  | compress plain bytes harchive hplain _ _ =>
    have hne : f ≠ plain := fun heq => not_isLog_of_isArchive harchive (heq ▸ hlog)
    exact Or.inl ⟨rfl, by rw [Dir.entry_drop, if_neg hne, Dir.entry_put,
      if_neg (hgz _ (List.suffix_append _ _))], rfl⟩
  | tear plain left _ =>
    exact Or.inl ⟨rfl, by rw [Dir.entry_put, if_neg (hgz _ (List.suffix_append _ _))], rfl⟩
  | copy g left => exact Or.inl ⟨rfl, by rw [Dir.entry_put, if_neg (htmp g)], rfl⟩
  | read g bytes => exact Or.inl ⟨rfl, (d.entry_put _ _ _).trans (if_neg (htmp g)), rfl⟩
  | move g kept _ =>
    exact Or.inl ⟨rfl, by rw [Dir.entry_put, if_neg (hgz _ (gz_suffix_archiveName _ _)),
      Dir.entry_drop, if_neg (htmp g)], rfl⟩
  | truncate g kept hread harchive =>
    by_cases heq : f = g
    · subst heq
      have hcontent : d.content f = kept ++ d.since := by rw [Dir.content, hread.entry]
      exact Or.inr ⟨kept, hcontent, harchive, rfl, (d.entry_put _ _ _).trans (if_pos rfl),
        Function.update_self _ _ _⟩
    · exact Or.inl ⟨rfl, (d.entry_put _ _ _).trans (if_neg heq), Function.update_of_ne heq _ _⟩

/-- A rotation of a log: the day of the archive, what is in it, and what was appended between the
reading and the truncation. -/
structure Segment where
  day : ℕ
  kept : Bytes
  late : Bytes

/-- The archive of a rotation is there as `gzip` has written it, or it has expired. -/
def Segment.Archived (gz : Bytes → Bytes) (retain : ℕ) (s : Site) (f : Name) (g : Segment) : Prop :=
  s.dir.entry (archiveName f (dateText g.day)) = some (.file (gz g.kept)) ∨
    g.day + retain < s.latest

/-- All that has been written to a log: what its rotations have kept and what came too late for
them, and what is in it. -/
def Accounted (gz : Bytes → Bytes) (retain : ℕ) (s : Site) (f : Name) : Prop :=
  ∃ segments : List Segment,
    s.dir.written f = (segments.flatMap fun g => g.kept ++ g.late) ++ s.dir.content f ∧
    s.dir.between f = segments.flatMap Segment.late ∧
    ∀ g ∈ segments, g.Archived gz retain s f

/-- The archive of a rotation stays through a step. -/
theorem Segment.Archived.step {g : Segment} {l : Label} (hs : Guarded gz retain s)
    (h : step gz retain s l = some t) (hg : g.Archived gz retain s f) :
    g.Archived gz retain t f := by
  have hgz := gz_suffix_archiveName f (dateText g.day)
  rcases step_cases hs h with ⟨g', b, happend, hlatest⟩ | ⟨hdir, hlatest⟩ |
    ⟨today, htoday, heffect, hlatest⟩
  · refine hg.imp (fun hentry => ?_) fun hlt => hlt.trans_eq hlatest.symm
    exact (entry_append happend (not_isLog_of_gz hgz)).trans hentry
  · exact hg.imp (fun hentry => by rw [hdir]; exact hentry) fun hlt => hlt.trans_le hlatest
  · rcases hg with hentry | hlt
    · refine (heffect.entry_gz hgz hentry).imp_right fun hold => ?_
      -- the day of the archive is before the day `retain` days before today
      have hday := strictMono_ymd.lt_iff_lt.mp
        ((archiveNumber_archiveName f g.day).symm.trans_lt hold.2)
      rw [hlatest]
      omega
    · exact Or.inr (hlt.trans_eq hlatest.symm)

theorem accounted_step {l : Label} (hlog : isLog f) (hs : Guarded gz retain s)
    (h : step gz retain s l = some t) (haccounted : Accounted gz retain s f) :
    Accounted gz retain t f := by
  obtain ⟨segments, hwritten, hbetween, harchived⟩ := haccounted
  have hkept : ∀ g ∈ segments, g.Archived gz retain t f := fun g hg => (harchived g hg).step hs h
  rcases step_cases hs h with ⟨g, b, happend, -⟩ | ⟨hdir, -⟩ | ⟨today, -, heffect, -⟩
  · refine ⟨segments, ?_, (between_append happend f).trans hbetween, hkept⟩
    by_cases hg : f = g
    · subst hg
      rw [written_append happend, content_append happend, if_pos rfl, if_pos rfl, hwritten,
        List.append_assoc]
    · rw [written_append happend, content_append happend, if_neg hg, if_neg hg, hwritten]
  · exact ⟨segments, by rw [hdir]; exact hwritten, by rw [hdir]; exact hbetween, hkept⟩
  · rcases heffect.log hlog with ⟨hsame, hentry, hsame'⟩ |
      ⟨kept, hcontent, harchive, hsame, hempty, hlate⟩
    · refine ⟨segments, ?_, by rw [hsame']; exact hbetween, hkept⟩
      rw [Dir.content, hsame, hentry]
      exact hwritten
    · -- the truncation ends a rotation: its archive is that of the day before
      have hnew : Segment.Archived gz retain s f ⟨today - 1, kept, s.dir.since⟩ := Or.inl harchive
      refine ⟨segments ++ [⟨today - 1, kept, s.dir.since⟩], ?_, ?_, fun g hg => ?_⟩
      · rw [hsame, hwritten, hcontent, Dir.content, hempty]
        simp
      · rw [hlate, hbetween]
        simp
      · rcases List.mem_append.mp hg with hg | hg
        · exact hkept g hg
        · obtain rfl := List.mem_singleton.mp hg
          exact hnew.step hs h

/-- In every run of appends by any processes, passes on any days, commands that fail and passes that
are killed between any two commands, all that has been written to a log is there in its order: first
what its rotations have kept, each in an archive that is as `gzip` has written it or older than the
days to retain, each followed by what was appended between the reading of the log and its
truncation, and last what is in the log. -/
theorem nothing_lost {here : Bool} {entries : List (Name × Entry)}
    (hrun : Run (step gz retain) (initial here entries) s) (hlog : isLog f) :
    ∃ segments : List Segment,
      s.dir.written f = (segments.flatMap fun g => g.kept ++ g.late) ++ s.dir.content f ∧
      s.dir.between f = segments.flatMap Segment.late ∧
      ∀ g ∈ segments, g.Archived gz retain s f := by
  suffices hboth : Guarded gz retain s ∧ Accounted gz retain s f from hboth.2
  refine RunOf.invariant (P := fun s => Guarded gz retain s ∧ Accounted gz retain s f) ?_ hrun
    ⟨guarded_initial here entries, [], rfl, rfl, fun _ hg => nomatch hg⟩
  rintro v l w ⟨hv, haccounted⟩ - hstep
  exact ⟨guarded_step hv hstep, accounted_step hlog hv hstep haccounted⟩

/-- A process appends while the archive of its log is given its name. -/
theorem nothing_lost_between : ∃ s,
    Run (step (fun b => 31 :: b) 7) (initial true [("a.log".toList, .file [1, 2])]) s ∧
    s.dir.between "a.log".toList = [3] ∧ ∃ segments : List Segment,
      s.dir.written "a.log".toList =
        (segments.flatMap fun g => g.kept ++ g.late) ++ s.dir.content "a.log".toList ∧
      s.dir.between "a.log".toList = segments.flatMap Segment.late ∧
      ∀ g ∈ segments, g.Archived (fun b => 31 :: b) 7 s "a.log".toList := by
  have hexec : (exec (step (fun b => 31 :: b) 7) (initial true [("a.log".toList, .file [1, 2])])
      [.begin 9, .answer ⟨true, none, []⟩, .answer ⟨true, none, [archivePattern]⟩,
        .answer ⟨true, none, []⟩, .answer ⟨true, none, [archivePattern]⟩, .answer ⟨true, none, []⟩,
        .answer ⟨true, none, ["a.log".toList]⟩, .answer ⟨true, none, []⟩,
        .answer ⟨true, none, []⟩, .answer ⟨true, none, []⟩, .answer ⟨true, none, []⟩,
        .answer ⟨true, none, []⟩, .append "a.log".toList [3], .answer ⟨true, none, []⟩,
        .answer ⟨true, none, []⟩]).any (fun s => s.dir.between "a.log".toList = [3]) = true := by
    decide
  obtain ⟨s, hrun, hbetween⟩ := exists_run_of_exec hexec
  exact ⟨s, hrun, of_decide_eq_true hbetween, nothing_lost hrun (by decide)⟩

end Logs

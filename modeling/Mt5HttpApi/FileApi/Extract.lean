import Mt5HttpApi.FileApi.Aliases

/-!
# Unpacking an archive: all or nothing

`extract_zip` checks every entry and unpacks all of them into a staging directory before it moves
the first one. The moves may yet fail: something is on the way to an entry or at its place, on the
disk or because of an earlier entry of the archive. What was moved before then stays.

`laid` is what moves put on the disk, told by the disk before the call and the entries alone, and
`Blocked` is an obstacle there. Moves without an obstacle are made (`run_forM_place`), and at the
first obstacle the call ends (`run_forM_place_of_blocked`). `extract_allOrNothing_iff` says when a
call that raises leaves every file as it was: when the entries before the first obstacle are what
their files held already.

`_unpack` reads and writes in chunks. `unpackChunks` follows it on the staging directory, where
bytes are only added: its outcome is that of `unpack`, and what it adds is within the cap
(`run_unpackChunks`, `staged_size_le`).
-/

namespace FileApi

open Effects

/-! ## Staging -/

/-- The files in the staging directory, the latest first. -/
abbrev Staging := List (List UInt8)

/-- The bytes that are in it. -/
def Staging.size (staging : Staging) : Nat := (staging.map List.length).sum

/-- The next file is opened. -/
def Staging.opened (staging : Staging) : Staging := [] :: staging

/-- `sink.write`: more bytes in the latest file. -/
def Staging.write (chunk : List UInt8) : Staging → Staging
  | [] => []
  | file :: files => (file ++ chunk) :: files

/-- `_CHUNK_BYTES`. -/
def chunkBytes : Nat := 1024 * 1024

/-- The loop over the chunks of an entry: what is left of it, what has been read, and the bytes of
the whole call so far. -/
def copyChunks (maxBytes : Nat) (left content : List UInt8) (total : Nat) :
    ExceptT FileError (StateM Staging) (List UInt8 × Nat) :=
  if _hend : left = [] then pure (content, total)
  else if maxBytes < total + (left.take chunkBytes).length then
    throw (.archiveTooLarge
      s!"archive unpacks to more than {maxBytes} bytes (files.max_extract_bytes)")
  else do
    modify (Staging.write (left.take chunkBytes))
    copyChunks maxBytes (left.drop chunkBytes) (content ++ left.take chunkBytes)
      (total + (left.take chunkBytes).length)
termination_by left.length
decreasing_by
  have hpos := List.length_pos_iff.mpr _hend
  simp only [List.length_drop, chunkBytes]
  omega

/-- `_unpack`, with what it writes to staging. -/
def unpackChunks (env : Env) (maxBytes : Nat) :
    List (ZipInfo × Resolved) → Nat → ExceptT FileError (StateM Staging) (List Written)
  | [], _ => pure []
  | (info, path) :: rest, total => do
    modify Staging.opened
    let (content, total) ← copyChunks maxBytes info.data [] total
    if info.corrupt then
      throw (.badArchive s!"{String.ofList info.filename} cannot be unpacked")
    else do
      let written ← unpackChunks env maxBytes rest total
      pure (⟨path.rel, content.length, env.sha256 content⟩ :: written)

section Staging

variable {env : Env} {maxBytes total : Nat} {left content : List UInt8} {staging : Staging}
  {files : List (ZipInfo × Resolved)}

theorem Staging.opened_ne_nil : staging.opened ≠ [] := List.cons_ne_nil _ _

theorem Staging.size_opened : staging.opened.size = staging.size := Nat.zero_add _

theorem Staging.size_write {chunk : List UInt8} (h : staging ≠ []) :
    (staging.write chunk).size = staging.size + chunk.length := by
  cases staging with
  | nil => exact absurd rfl h
  | cons file files =>
    simp only [Staging.write, Staging.size, List.map_cons, List.sum_cons, List.length_append]
    omega

theorem Staging.write_ne_nil {chunk : List UInt8} (h : staging ≠ []) :
    staging.write chunk ≠ [] := by
  cases staging with
  | nil => exact absurd rfl h
  | cons file files => exact List.cons_ne_nil _ _

/-- A chunk and what is left after it make up what was left before. -/
theorem length_take_add_drop_chunk (left : List UInt8) :
    (left.take chunkBytes).length + (left.drop chunkBytes).length = left.length := by
  rw [← List.length_append, List.take_append_drop]

/-- An entry that fits within the cap is copied whole. -/
theorem run_copyChunks_of_le (hstaging : staging ≠ []) (hsize : staging.size = total)
    (hle : total + left.length ≤ maxBytes) :
    ∃ staging', run (copyChunks maxBytes left content total) staging =
        (.ok (content ++ left, total + left.length), staging') ∧
      staging'.size = total + left.length := by
  induction left, content, total using copyChunks.induct maxBytes generalizing staging with
  | case1 content total =>
    rw [copyChunks]
    exact ⟨staging, by simp, by simpa using hsize⟩
  | case2 left content total hleft hover =>
    have hlength := length_take_add_drop_chunk left
    omega
  | case3 left content total hleft hfits ih =>
    have hlength := length_take_add_drop_chunk left
    -- the rest of the entry, from the staging directory with this chunk
    have hrest : total + (left.take chunkBytes).length + (left.drop chunkBytes).length ≤
        maxBytes := by omega
    obtain ⟨staging', hrun, hsize'⟩ := ih (Staging.write_ne_nil hstaging)
      ((Staging.size_write hstaging).trans (congrArg (· + _) hsize)) hrest
    refine ⟨staging', ?_, by omega⟩
    rw [copyChunks, dif_neg hleft, if_neg hfits, run_modify_bind, hrun, List.append_assoc,
      List.take_append_drop, Nat.add_assoc, hlength]

/-- The copy of another one ends before the cap is passed. -/
theorem run_copyChunks_of_lt (hstaging : staging ≠ []) (hsize : staging.size = total)
    (hcap : total ≤ maxBytes) (hlt : maxBytes < total + left.length) :
    ∃ staging', run (copyChunks maxBytes left content total) staging =
        (.error (.archiveTooLarge
          s!"archive unpacks to more than {maxBytes} bytes (files.max_extract_bytes)"), staging') ∧
      staging'.size ≤ maxBytes := by
  induction left, content, total using copyChunks.induct maxBytes generalizing staging with
  | case1 content total =>
    rw [List.length_nil] at hlt
    omega
  | case2 left content total hleft hover =>
    rw [copyChunks, dif_neg hleft, if_pos hover]
    exact ⟨staging, rfl, by omega⟩
  | case3 left content total hleft hfits ih =>
    have hlength := length_take_add_drop_chunk left
    have hrest : maxBytes <
        total + (left.take chunkBytes).length + (left.drop chunkBytes).length := by omega
    obtain ⟨staging', hrun, hsize'⟩ := ih (Staging.write_ne_nil hstaging)
      ((Staging.size_write hstaging).trans (congrArg (· + _) hsize)) (by omega) hrest
    refine ⟨staging', ?_, hsize'⟩
    rw [copyChunks, dif_neg hleft, if_neg hfits, run_modify_bind, hrun]

/-- Unpacking in chunks has the outcome of `unpack`, and what it puts in staging is within the
cap. -/
theorem run_unpackChunks (env : Env) (files : List (ZipInfo × Resolved))
    (hsize : staging.size = total) (hcap : total ≤ maxBytes) :
    ∃ staging', run (unpackChunks env maxBytes files total) staging =
        (unpack env maxBytes files total, staging') ∧ staging'.size ≤ maxBytes := by
  induction files generalizing total staging with
  | nil => exact ⟨staging, rfl, by omega⟩
  | cons file files ih =>
    obtain ⟨info, path⟩ := file
    have hopen : staging.opened.size = total := Staging.size_opened.trans hsize
    rw [unpackChunks, unpack, run_modify_bind]
    by_cases hle : total + info.data.length ≤ maxBytes
    · obtain ⟨staging', hcopy, hsize'⟩ := run_copyChunks_of_le Staging.opened_ne_nil hopen hle
      rw [if_neg (by omega)]
      by_cases hcorrupt : info.corrupt
      · refine ⟨staging', ?_, by omega⟩
        rw [run_bind_of_ok hcopy, if_pos hcorrupt]
        simp only [if_pos hcorrupt]
        rfl
      · obtain ⟨staging'', hrest, hsize''⟩ := ih hsize' hle
        refine ⟨staging'', ?_, hsize''⟩
        rw [run_bind_of_ok hcopy, if_neg hcorrupt]
        simp only [if_neg hcorrupt, List.nil_append]
        rcases hunpack : unpack env maxBytes files (total + info.data.length) with e | written
        · exact run_bind_of_error (hrest.trans (by rw [hunpack]))
        · exact run_bind_of_ok (hrest.trans (by rw [hunpack]))
    · have hlt : maxBytes < total + info.data.length := by omega
      obtain ⟨staging', hcopy, hsize'⟩ := run_copyChunks_of_lt Staging.opened_ne_nil hopen hcap hlt
      refine ⟨staging', ?_, hsize'⟩
      rw [if_pos hlt]
      exact run_bind_of_error hcopy

end Staging

/-! ## Moves -/

/-- A step after the checks: the directories of a path are made, or a file takes its place. -/
inductive Move
  | dirs (segments : List Name)
  | file (segments : List Name) (data : List UInt8)
  deriving DecidableEq, Repr

/-- The path whose directories are made. -/
def Move.way : Move → List Name
  | .dirs segments => segments
  | .file segments _ => segments.dropLast

/-- The steps of `placePlan` after its first. -/
def Plan.moves (plan : Plan) : List Move :=
  plan.dirs.map (fun path => .dirs path.segments) ++
    plan.files.map fun file => .file file.2.segments file.1.data

/-- All of them. -/
def allMoves (target : Resolved) (plan : Plan) : List Move :=
  .dirs target.segments :: plan.moves

/-- A step is taken. -/
def place {root : Path} (env : Env) : Move → Op root Unit
  | .dirs segments => makeDirs segments
  | .file segments data => do
    makeDirs segments.dropLast
    let d ← get
    if d.isDir segments then
      throw (.conflict s!"{String.ofList (relText segments)} is a directory in the target")
    else replace env ⟨segments⟩ data

/-! ## What the moves put on the disk -/

section Laid

variable {root : Path} (d : Disk root) (env : Env) (node : Path → Option Node)

/-- What is found at a place, or at the place that a link there leads to. -/
def leadsTo (p : Path) : Option Node :=
  match node p with
  | some (.link target) => node target
  | found => found

/-- The bytes of a file. -/
def bytesOf : Option Node → Option (List UInt8)
  | some (.file bytes) => some bytes
  | _ => none

/-- Directories are where a path leads and nothing was. -/
def made (segments : List Name) (p : Path) : Option Node :=
  if node p = none ∧ ∃ pre ∈ segments.inits, d.entry pre = p then some .dir else node p

/-- What is on the disk after a move, by what was there before it. -/
def lay (move : Move) : Path → Option Node :=
  match move with
  | .dirs segments => made d node segments
  | .file segments data =>
    Function.update (made d node segments.dropLast) (d.entry segments) (some (.file data))

/-- What is on the disk after moves. -/
def laid (before : List Move) : Path → Option Node := before.foldl (lay d) d.node

/-- Something other than a directory is on a path. -/
def Barred (segments : List Name) : Prop :=
  ∃ pre, pre <+: segments ∧ node (d.entry pre) ≠ none ∧ leadsTo node (d.entry pre) ≠ some .dir

/-- A move cannot be made: something other than a directory is on its way, or a directory is at its
place, or this is in use. -/
def Blocked (move : Move) : Prop :=
  Barred d node move.way ∨ ∃ segments data, move = .file segments data ∧
    (leadsTo node (d.entry segments) = some .dir ∨ env.inUse (d.entry segments) = true)

/-- The bytes that a move puts at a place. -/
def Move.bytesAt (p : Path) : Move → Option (List UInt8)
  | .dirs _ => none
  | .file segments data => if d.entry segments = p then some data else none

/-- The bytes that the last of the moves that do so puts at a place. -/
def lastPut (before : List Move) (p : Path) : Option (List UInt8) :=
  before.reverse.findSome? (Move.bytesAt d p)

/-- The moves put only bytes at places that hold them already. -/
def Rewrites (before : List Move) : Prop :=
  ∀ p bytes, lastPut d before p = some bytes → d.fileAt p = some bytes

/-- No move meets an obstacle, on the disk or by the moves before it. -/
def Clear (moves : List Move) : Prop :=
  ∀ before move after, moves = before ++ move :: after → ¬ Blocked d env (laid d before) move

end Laid

/-! ## Moves that are made, and moves that are not -/

section Placing

variable {root : Path} {d d' : Disk root} {env : Env} {node : Path → Option Node} {p : Path}
  {segments pre : List Name} {n : Name} {before moves : List Move} {move : Move}

theorem fileAt_eq_bytesOf : d.fileAt p = bytesOf (d.node p) := rfl

theorem made_of_ne_none (h : node p ≠ none) : made d node segments p = node p :=
  if_neg fun hmade => h hmade.1

theorem bytesOf_made : bytesOf (made d node segments p) = bytesOf (node p) := by
  unfold made
  split
  next h => rw [h.1]; rfl
  next => rfl

theorem bytesOf_lay :
    bytesOf (lay d node move p) = (move.bytesAt d p).or (bytesOf (node p)) := by
  cases move with
  | dirs segments => exact bytesOf_made
  | file segments data =>
    by_cases hplace : d.entry segments = p
    · simp [lay, Move.bytesAt, hplace, bytesOf]
    · rw [lay, Function.update_of_ne (Ne.symm hplace), bytesOf_made, Move.bytesAt, if_neg hplace]
      rfl

theorem laid_concat : laid d (before ++ [move]) = lay d (laid d before) move := by
  simp [laid]

theorem lastPut_concat :
    lastPut d (before ++ [move]) p = (move.bytesAt d p).or (lastPut d before p) := by
  rw [lastPut, List.reverse_append, List.reverse_singleton, List.singleton_append,
    List.findSome?_cons]
  cases move.bytesAt d p <;> rfl

/-- A place has the bytes that were last put there, or else what it had. -/
theorem bytesOf_laid (before : List Move) (p : Path) :
    bytesOf (laid d before p) = (lastPut d before p).or (d.fileAt p) := by
  induction before using List.reverseRecOn with
  | nil => rfl
  | append_singleton before move ih =>
    rw [laid_concat, bytesOf_lay, ih, lastPut_concat, Option.or_assoc]

theorem rewrites_iff : Rewrites d before ↔ ∀ p, bytesOf (laid d before p) = d.fileAt p := by
  refine forall_congr' fun p => ?_
  rw [bytesOf_laid]
  cases lastPut d before p with
  | none => simp
  | some bytes => simp [eq_comm]

/-! ### Paths on a disk that has grown -/

theorem realpath_eq_follow : d.realpath segments = d.follow (d.entry segments) := by
  rcases List.eq_nil_or_concat segments with rfl | ⟨pre, n, rfl⟩
  · exact (Disk.follow_eq_self (by simp [d.root_dir])).symm
  · rw [List.concat_eq_append, Disk.realpath_concat, entry_concat]

theorem node_follow : d.node (d.follow p) = leadsTo d.node p := by
  unfold Disk.follow leadsTo
  split <;> simp_all

theorem isDir_iff : d.isDir segments ↔ leadsTo d.node (d.entry segments) = some .dir := by
  rw [Disk.isDir, realpath_eq_follow, node_follow]

theorem isDir_nil : d.isDir [] := d.root_dir

/-- Where a directory is nothing is to be made. -/
theorem made_of_isDir (h : d.isDir segments) : made d d.node segments = d.node := by
  funext p
  refine if_neg ?_
  rintro ⟨hnone, pre, hpre, rfl⟩
  have hpreDir := isDir_iff.mp (Disk.isDir_of_prefix h ((List.mem_inits _ _).mp hpre))
  simp [leadsTo, hnone] at hpreDir

/-- Under a place where nothing is, there is nothing. -/
theorem below_absent (h : d.node (d.realpath pre) = none) (more : List Name) :
    ∃ tail, d.realpath (pre ++ more) = d.realpath pre ++ tail ∧
      d.node (d.realpath pre ++ tail) = none := by
  induction more using List.reverseRecOn with
  | nil => exact ⟨[], by simp, by simpa using h⟩
  | append_singleton more n ih =>
    obtain ⟨tail, heq, hnone⟩ := ih
    have hchild : d.node (d.child (d.realpath (pre ++ more)) n) = none := by
      by_contra hsome
      have hdir := d.parent_dir _ _ hsome
      rw [heq, hnone] at hdir
      cases hdir
    refine ⟨tail ++ [d.stored (d.realpath (pre ++ more)) n], ?_, ?_⟩
    · rw [← List.append_assoc, Disk.realpath_concat, Disk.follow_eq_self (by simp [hchild]),
        Disk.child, heq, List.append_assoc]
    · rw [← List.append_assoc, ← heq]
      exact hchild

/-- Nothing that is on the way to a place is there, where nothing is. -/
theorem entry_ne_of_absent (h : d.node (d.entry (pre ++ [n])) = none) {short : List Name}
    (hshort : short <+: pre) : d.entry short ≠ d.entry (pre ++ [n]) := by
  intro heq
  obtain ⟨more, rfl⟩ := hshort
  rw [← heq] at h
  have hreal : d.realpath short = d.entry short := by
    rw [realpath_eq_follow, Disk.follow_eq_self (by simp [h])]
  obtain ⟨tail, htail, -⟩ := below_absent (hreal ▸ h) more
  have hlength := congrArg List.length heq
  rw [entry_concat, Disk.child, htail, hreal] at hlength
  simp at hlength

/-- A disk on which the links are those of another leads as the other. -/
theorem realpath_congr (hstored : d'.stored = d.stored)
    (hlinks : ∀ p t, d'.node p = some (.link t) ↔ d.node p = some (.link t))
    (segments : List Name) : d'.realpath segments = d.realpath segments := by
  induction segments using List.reverseRecOn with
  | nil => rfl
  | append_singleton segments n ih =>
    rw [Disk.realpath_concat, Disk.realpath_concat, Disk.child, Disk.child, ih, hstored]
    by_cases hlink : ∃ t, d.node (d.realpath segments ++ [d.stored (d.realpath segments) n]) =
        some (.link t)
    · obtain ⟨t, ht⟩ := hlink
      rw [Disk.follow_of_link ht, Disk.follow_of_link ((hlinks _ t).mpr ht)]
    · rw [not_exists] at hlink
      rw [Disk.follow_eq_self hlink, Disk.follow_eq_self fun t ht => hlink t ((hlinks _ t).mp ht)]

theorem entry_congr (hstored : d'.stored = d.stored)
    (hreal : d'.realpath segments.dropLast = d.realpath segments.dropLast) :
    d'.entry segments = d.entry segments := by
  rw [Disk.entry, Disk.entry, hreal]
  simp only [Disk.child, hstored]

/-! ### Directories -/

theorem links_of_made (hnode : d'.node = made d d.node segments) (p t : Path) :
    d'.node p = some (.link t) ↔ d.node p = some (.link t) := by
  rw [hnode, made]
  split
  next h => simp [h.1]
  next => rfl

theorem onWay_concat : (∃ q ∈ (pre ++ [n]).inits, d.entry q = p) ↔
    (∃ q ∈ pre.inits, d.entry q = p) ∨ d.entry (pre ++ [n]) = p := by
  simp only [List.mem_inits, List.prefix_concat_iff]
  constructor
  · rintro ⟨q, rfl | hq, hentry⟩
    · exact Or.inr hentry
    · exact Or.inl ⟨q, hq, hentry⟩
  · rintro (⟨q, hq, hentry⟩ | hentry)
    · exact ⟨q, Or.inr hq, hentry⟩
    · exact ⟨_, Or.inl rfl, hentry⟩

theorem made_concat_of_absent (h : node (d.entry (pre ++ [n])) = none) :
    made d node (pre ++ [n]) =
      Function.update (made d node pre) (d.entry (pre ++ [n])) (some .dir) := by
  funext p
  by_cases hp : p = d.entry (pre ++ [n])
  · rw [hp, Function.update_self]
    exact if_pos ⟨h, _, (List.mem_inits _ _).mpr List.prefix_rfl, rfl⟩
  · rw [Function.update_of_ne hp]
    simp only [made, onWay_concat, Ne.symm hp, or_false]

theorem made_concat_of_ne_none (h : node (d.entry (pre ++ [n])) ≠ none) :
    made d node (pre ++ [n]) = made d node pre := by
  funext p
  by_cases hp : p = d.entry (pre ++ [n])
  · rw [hp, made_of_ne_none h, made_of_ne_none h]
  · simp only [made, onWay_concat, Ne.symm hp, or_false]

theorem barred_concat : Barred d node (pre ++ [n]) ↔ Barred d node pre ∨
    node (d.entry (pre ++ [n])) ≠ none ∧ leadsTo node (d.entry (pre ++ [n])) ≠ some .dir := by
  simp only [Barred, List.prefix_concat_iff]
  constructor
  · rintro ⟨q, rfl | hq, hbarred⟩
    · exact Or.inr hbarred
    · exact Or.inl ⟨q, hq, hbarred⟩
  · rintro (⟨q, hq, hbarred⟩ | hbarred)
    · exact ⟨q, Or.inr hq, hbarred⟩
    · exact ⟨_, Or.inl rfl, hbarred⟩

theorem barred_nil : Barred d node [] ↔ node root ≠ none ∧ leadsTo node root ≠ some .dir := by
  constructor
  · rintro ⟨pre, hpre, hbarred⟩
    rwa [List.prefix_nil.mp hpre] at hbarred
  · exact fun hbarred => ⟨[], List.nil_prefix, hbarred⟩

theorem not_barred_nil : ¬ Barred d d.node [] :=
  fun h => (barred_nil.mp h).2 (isDir_iff.mp isDir_nil)

/-- `os.mkdir` of what is there, or has been made. -/
theorem run_makeDir_of_isDir {rel : String} (h : d.isDir segments) :
    run (makeDir rel segments : Op root Unit) d = (.ok (), d) := by
  rw [makeDir, run_get_bind, if_pos h, run_pure]

theorem isDir_of_update (hstored : d'.stored = d.stored) (hnone : d.node (d.entry segments) = none)
    (hnode : d'.node = Function.update d.node (d.entry segments) (some .dir)) :
    d'.isDir segments := by
  have hlinks : ∀ p t, d'.node p = some (.link t) ↔ d.node p = some (.link t) := by
    intro p t
    by_cases hp : p = d.entry segments
    · simp [hnode, hp, hnone]
    · rw [hnode, Function.update_of_ne hp]
  rw [isDir_iff, entry_congr hstored (realpath_congr hstored hlinks _), hnode, leadsTo,
    Function.update_self]

theorem run_makeDir_of_absent {rel : String} (hpre : d.isDir pre)
    (hnone : d.node (d.entry (pre ++ [n])) = none) :
    ∃ d', run (makeDir rel (pre ++ [n]) : Op root Unit) d = (.ok (), d') ∧ d'.stored = d.stored ∧
      d'.node = Function.update d.node (d.entry (pre ++ [n])) (some .dir) ∧
      d'.isDir (pre ++ [n]) := by
  have hdir : ¬ d.isDir (pre ++ [n]) := by
    rw [isDir_iff, leadsTo, hnone]
    simp
  have hchild := hnone
  rw [entry_concat] at hchild
  rw [makeDir, run_get_bind, if_neg hdir]
  simp only [List.getLast?_concat, List.dropLast_concat]
  rw [dif_pos ⟨hpre, hchild⟩]
  have hnode : (d.put (d.realpath pre) (d.stored (d.realpath pre) n) .dir hpre (fun _ => rfl)
      Node.dir_ne_link).node = Function.update d.node (d.entry (pre ++ [n])) (some .dir) := by
    rw [entry_concat]
    rfl
  exact ⟨_, rfl, rfl, hnode, isDir_of_update (d := d) rfl hnone hnode⟩

theorem run_makeDir_of_barred (rel : String) (hsome : d.node (d.entry (pre ++ [n])) ≠ none)
    (hdir : ¬ d.isDir (pre ++ [n])) :
    ∃ e, run (makeDir rel (pre ++ [n]) : Op root Unit) d = (.error e, d) := by
  rw [entry_concat] at hsome
  rw [makeDir, run_get_bind, if_neg hdir]
  simp only [List.getLast?_concat, List.dropLast_concat]
  rw [dif_neg fun h => hsome h.2]
  exact ⟨_, rfl⟩

theorem run_forM_inits_concat (f : List Name → Op root Unit) (pre : List Name) (n : Name)
    (d : Disk root) :
    run ((pre ++ [n]).inits.forM f) d = run (pre.inits.forM f >>= fun _ => f (pre ++ [n])) d := by
  have hinits : (pre ++ [n]).inits = pre.inits ++ [pre ++ [n]] := by simp [List.inits_append]
  rw [hinits, run_forM_concat]

/-- The directories of a path that is not barred are made. -/
theorem run_forM_makeDir {rel : String} (h : ¬ Barred d d.node segments) :
    ∃ d', run (segments.inits.forM (makeDir rel) : Op root Unit) d = (.ok (), d') ∧
      d'.stored = d.stored ∧ d'.node = made d d.node segments ∧ d'.isDir segments := by
  induction segments using List.reverseRecOn with
  | nil =>
    refine ⟨d, run_bind_of_ok (run_makeDir_of_isDir isDir_nil), rfl, ?_, isDir_nil⟩
    exact (made_of_isDir isDir_nil).symm
  | append_singleton pre n ih =>
    rw [barred_concat, not_or] at h
    obtain ⟨d₁, hrun, hstored, hnode, hdir⟩ := ih h.1
    have hreal : ∀ segments, d₁.realpath segments = d.realpath segments :=
      realpath_congr hstored (links_of_made hnode)
    have hentry : d₁.entry (pre ++ [n]) = d.entry (pre ++ [n]) := entry_congr hstored (hreal _)
    have hlast : ∃ d', run (makeDir rel (pre ++ [n]) : Op root Unit) d₁ = (.ok (), d') ∧
        d'.stored = d.stored ∧ d'.node = made d d.node (pre ++ [n]) ∧ d'.isDir (pre ++ [n]) := by
      by_cases hnone : d.node (d.entry (pre ++ [n])) = none
      · by_cases hnone₁ : d₁.node (d₁.entry (pre ++ [n])) = none
        · obtain ⟨d₂, hrun₂, hstored₂, hnode₂, hdir₂⟩ := run_makeDir_of_absent hdir hnone₁
          refine ⟨d₂, hrun₂, hstored₂.trans hstored, ?_, hdir₂⟩
          rw [hnode₂, hentry, hnode, made_concat_of_absent hnone]
        · -- it has been made on the way
          have hmade : d₁.node (d₁.entry (pre ++ [n])) = some .dir := by
            rw [hnode, made] at hnone₁ ⊢
            split at hnone₁
            next h => rw [if_pos h]
            next => exact absurd (hentry ▸ hnone) hnone₁
          have hthere : d₁.isDir (pre ++ [n]) := by rw [isDir_iff, leadsTo, hmade]
          refine ⟨d₁, run_makeDir_of_isDir hthere, hstored, ?_, hthere⟩
          rw [made_concat_of_absent hnone, ← hnode, ← hentry, ← hmade, Function.update_eq_self]
      · have hthere : d.isDir (pre ++ [n]) :=
          isDir_iff.mpr (by_contra fun hdir => h.2 ⟨hnone, hdir⟩)
        have hsame : d₁.node = d.node := by
          rw [hnode, made_of_isDir (Disk.isDir_of_prefix hthere (List.prefix_append _ _))]
        have hthere₁ : d₁.isDir (pre ++ [n]) := by
          rw [isDir_iff, hentry, hsame]
          exact isDir_iff.mp hthere
        refine ⟨d₁, run_makeDir_of_isDir hthere₁, hstored, ?_, hthere₁⟩
        rw [hnode, made_concat_of_ne_none hnone]
    obtain ⟨d', hrun', hrest⟩ := hlast
    exact ⟨d', (run_forM_inits_concat _ _ _ _).trans ((run_bind_of_ok hrun).trans hrun'), hrest⟩

/-- Those of one that is barred are not. -/
theorem run_forM_makeDir_of_barred (rel : String) (h : Barred d d.node segments) :
    ∃ e d', run (segments.inits.forM (makeDir rel) : Op root Unit) d = (.error e, d') := by
  induction segments using List.reverseRecOn with
  | nil => exact absurd h not_barred_nil
  | append_singleton pre n ih =>
    by_cases hpre : Barred d d.node pre
    · obtain ⟨e, d', hrun⟩ := ih hpre
      exact ⟨e, d', (run_forM_inits_concat _ _ _ _).trans (run_bind_of_error hrun)⟩
    · obtain ⟨hsome, hdir⟩ := (barred_concat.mp h).resolve_left hpre
      have hpreDir : d.isDir pre := by
        rw [entry_concat] at hsome
        exact Disk.isDir_of_child hsome
      obtain ⟨d₁, hrun, hstored, hnode, -⟩ := run_forM_makeDir hpre
      -- nothing has been made, so the obstacle is as it was
      have hreal := realpath_congr hstored (links_of_made hnode)
      have hentry : d₁.entry (pre ++ [n]) = d.entry (pre ++ [n]) := entry_congr hstored (hreal _)
      rw [made_of_isDir hpreDir] at hnode
      rw [← hentry, ← hnode] at hsome hdir
      obtain ⟨e, hrun₁⟩ := run_makeDir_of_barred rel hsome (fun h => hdir (isDir_iff.mp h))
      exact ⟨e, d₁, (run_forM_inits_concat _ _ _ _).trans ((run_bind_of_ok hrun).trans hrun₁)⟩

/-- Making directories changes no file. -/
theorem keptByDirs_fileAt (files : Path → Option (List UInt8)) (segments : List Name) :
    KeptByDirs (fun d : Disk root => d.fileAt = files) segments := by
  rintro d hd pre n more hp hdir hlink - hnone
  rw [← hd]
  funext p
  by_cases hp : p = d.realpath pre ++ [d.stored (d.realpath pre) n]
  · rw [Disk.fileAt, Disk.fileAt, hp, Disk.node_put_self]
    exact (Disk.fileAt_of_absent hnone).symm
  · rw [Disk.fileAt, Disk.fileAt, Disk.node_put_of_ne hp]

theorem run_makeDirs_of_clear (h : ¬ Barred d d.node segments) :
    ∃ d', run (makeDirs segments) d = (.ok (), d') ∧
      d'.stored = d.stored ∧ d'.node = made d d.node segments ∧ d'.isDir segments :=
  run_forM_makeDir h

theorem run_makeDirs_of_barred (h : Barred d d.node segments) :
    ∃ e d', run (makeDirs segments) d = (.error e, d') ∧ d'.fileAt = d.fileAt := by
  obtain ⟨e, d', hrun⟩ := run_forM_makeDir_of_barred (String.ofList (relText segments)) h
  refine ⟨e, d', hrun, ?_⟩
  have hkept := makeDirs_keeps List.prefix_rfl (keptByDirs_fileAt d.fileAt segments) d rfl
  rwa [makeDirs, hrun] at hkept

/-! ### One move -/

/-- A disk that moves have changed: the links are those of the first, but for those that files have
taken the place of. -/
structure Moved (d d' : Disk root) : Prop where
  stored : d'.stored = d.stored
  links : ∀ p t, d'.node p = some (.link t) → d.node p = some (.link t)
  kept : ∀ p t, d.node p = some (.link t) →
    d'.node p = some (.link t) ∨ ∃ bytes, d'.node p = some (.file bytes)

namespace Moved

theorem refl (d : Disk root) : Moved d d := ⟨rfl, fun _ _ h => h, fun _ _ h => Or.inl h⟩

/-- A path that is not barred leads where it led. -/
theorem realpath (h : Moved d d') (hclear : ¬ Barred d d'.node segments) :
    d'.realpath segments = d.realpath segments := by
  induction segments using List.reverseRecOn with
  | nil => rfl
  | append_singleton pre n ih =>
    rw [barred_concat, not_or, entry_concat] at hclear
    rw [Disk.realpath_concat, Disk.realpath_concat, Disk.child, ih hclear.1, h.stored]
    change d'.follow (d.child (d.realpath pre) n) = d.follow (d.child (d.realpath pre) n)
    generalize d.child (d.realpath pre) n = p at hclear
    by_cases hlink : ∃ t, d.node p = some (.link t)
    · obtain ⟨t, ht⟩ := hlink
      rcases h.kept p t ht with ht' | ⟨bytes, hfile⟩
      · rw [Disk.follow_of_link ht, Disk.follow_of_link ht']
      · -- a file in the place of the link would bar the path
        exact absurd ⟨by simp [hfile], by simp [leadsTo, hfile]⟩ hclear.2
    · rw [not_exists] at hlink
      rw [Disk.follow_eq_self hlink, Disk.follow_eq_self fun t ht => hlink t (h.links p t ht)]

theorem entry (h : Moved d d') (hclear : ¬ Barred d d'.node segments.dropLast) :
    d'.entry segments = d.entry segments :=
  entry_congr h.stored (h.realpath hclear)

/-- A path is barred by what is on the first disk's way. -/
theorem barred_iff (h : Moved d d') : Barred d' d'.node segments ↔ Barred d d'.node segments := by
  induction segments using List.reverseRecOn with
  | nil => rw [barred_nil, barred_nil]
  | append_singleton pre n ih =>
    rw [barred_concat, barred_concat, ih]
    by_cases hpre : Barred d d'.node pre
    · simp [hpre]
    · rw [h.entry (by rwa [List.dropLast_concat])]

/-- What is made on the way of a path that is not barred is made where the first disk's way is. -/
theorem made_eq (h : Moved d d') (hclear : ¬ Barred d d'.node segments) :
    made d' d'.node segments = made d d'.node segments := by
  have hentry : ∀ pre ∈ segments.inits, d'.entry pre = d.entry pre := by
    intro pre hpre
    refine h.entry fun ⟨q, hq, hbarred⟩ => hclear ⟨q, ?_, hbarred⟩
    exact hq.trans ((List.dropLast_prefix pre).trans ((List.mem_inits _ _).mp hpre))
  funext p
  have hway : (∃ pre ∈ segments.inits, d'.entry pre = p) ↔
      ∃ pre ∈ segments.inits, d.entry pre = p :=
    exists_congr fun pre => and_congr_right fun hpre => by rw [hentry pre hpre]
  simp only [made, hway]

/-- One more move. -/
theorem lay {d'' : Disk root} (h : Moved d d') (hstored : d''.stored = d'.stored)
    (hnode : d''.node = FileApi.lay d d'.node move) : Moved d d'' where
  stored := hstored.trans h.stored
  links := by
    intro p t hlink
    rw [hnode] at hlink
    have hmade : ∀ segments, made d d'.node segments p = some (.link t) →
        d.node p = some (.link t) := by
      intro segments hmade
      unfold made at hmade
      split at hmade
      · cases hmade
      · exact h.links p t hmade
    cases move with
    | dirs segments => exact hmade _ hlink
    | file segments data =>
      by_cases hplace : p = d.entry segments
      · rw [hplace, FileApi.lay, Function.update_self] at hlink
        cases hlink
      · rw [FileApi.lay, Function.update_of_ne hplace] at hlink
        exact hmade _ hlink
  kept := by
    intro p t hlink
    have hmade : ∀ segments, made d d'.node segments p = d'.node p := by
      intro segments
      refine made_of_ne_none ?_
      rcases h.kept p t hlink with hsome | ⟨bytes, hsome⟩ <;> simp [hsome]
    rw [hnode]
    cases move with
    | dirs segments =>
      rw [FileApi.lay, hmade]
      exact h.kept p t hlink
    | file segments data =>
      by_cases hplace : p = d.entry segments
      · exact Or.inr ⟨data, by rw [hplace, FileApi.lay, Function.update_self]⟩
      · rw [FileApi.lay, Function.update_of_ne hplace, hmade]
        exact h.kept p t hlink

end Moved

/-- The directories on the way to a place do not change what is found there. -/
theorem leadsTo_made : leadsTo (made d d.node segments.dropLast) (d.entry segments) =
    leadsTo d.node (d.entry segments) := by
  rcases List.eq_nil_or_concat segments with rfl | ⟨pre, n, rfl⟩
  · rw [List.dropLast_nil, made_of_isDir isDir_nil]
  rw [List.concat_eq_append, List.dropLast_concat]
  by_cases hnone : d.node (d.entry (pre ++ [n])) = none
  · have hunmade : made d d.node pre (d.entry (pre ++ [n])) = none := by
      rw [← hnone]
      refine if_neg ?_
      rintro ⟨-, q, hq, heq⟩
      exact entry_ne_of_absent hnone ((List.mem_inits _ _).mp hq) heq
    rw [leadsTo, leadsTo, hunmade, hnone]
  · have hdir : d.isDir pre := by
      rw [entry_concat] at hnone
      exact Disk.isDir_of_child hnone
    rw [made_of_isDir hdir]

/-- When the directories on the way to a place have been made, it is found as it was before. -/
theorem run_makeDirs_parent (h : ¬ Barred d d.node segments.dropLast) :
    ∃ d', run (makeDirs segments.dropLast) d = (.ok (), d') ∧ d'.stored = d.stored ∧
      d'.node = made d d.node segments.dropLast ∧ d'.isDir segments.dropLast ∧
      d'.entry segments = d.entry segments ∧
      (d'.isDir segments ↔ leadsTo d.node (d.entry segments) = some .dir) := by
  obtain ⟨d', hrun, hstored, hnode, hdir⟩ := run_makeDirs_of_clear h
  have hentry : d'.entry segments = d.entry segments :=
    entry_congr hstored (realpath_congr hstored (links_of_made hnode) _)
  refine ⟨d', hrun, hstored, hnode, hdir, hentry, ?_⟩
  rw [isDir_iff, hentry, hnode, leadsTo_made]

/-- A file that is put where no directory is, and nothing in use. -/
theorem run_replace (data : List UInt8) (hdir : d.isDir segments.dropLast)
    (hplace : ¬ d.isDir segments) (huse : env.inUse (d.entry segments) = false) :
    ∃ d', run (replace env ⟨segments⟩ data) d = (.ok (), d') ∧ d'.stored = d.stored ∧
      d'.node = Function.update d.node (d.entry segments) (some (.file data)) := by
  rcases List.eq_nil_or_concat segments with rfl | ⟨pre, n, rfl⟩
  · exact absurd isDir_nil hplace
  rw [List.concat_eq_append] at *
  have hfree : d.node (d.entry (pre ++ [n])) ≠ some .dir := fun hnode =>
    hplace (by rw [isDir_iff, leadsTo, hnode])
  rw [List.dropLast_concat] at hdir
  rw [entry_concat] at hfree huse ⊢
  rw [replace, run_get_bind]
  simp only [List.getLast?_concat, List.dropLast_concat]
  rw [dif_pos ⟨hdir, hfree, huse⟩]
  exact ⟨_, rfl, rfl, rfl⟩

theorem run_replace_of_inUse (data : List UInt8) (huse : env.inUse (d.entry segments) = true) :
    ∃ e, run (replace env ⟨segments⟩ data) d = (.error e, d) := by
  rcases List.eq_nil_or_concat segments with rfl | ⟨pre, n, rfl⟩
  · exact ⟨_, rfl⟩
  rw [List.concat_eq_append, entry_concat] at huse
  rw [replace, run_get_bind]
  simp only [List.concat_eq_append, List.getLast?_concat, List.dropLast_concat]
  rw [dif_neg fun h => by simp [h.2.2] at huse]
  exact ⟨_, rfl⟩

/-- A move that is not blocked is made. -/
theorem Moved.place_of_clear (h : Moved d d') (hclear : ¬ Blocked d env d'.node move) :
    ∃ d'', run (place env move) d' = (.ok (), d'') ∧ Moved d d'' ∧
      d''.node = FileApi.lay d d'.node move := by
  rw [Blocked, not_or] at hclear
  obtain ⟨hway, hplace⟩ := hclear
  have hway' : ¬ Barred d' d'.node move.way := fun hbarred => hway (h.barred_iff.mp hbarred)
  cases move with
  | dirs segments =>
    obtain ⟨d'', hrun, hstored, hnode, -⟩ := run_makeDirs_of_clear hway'
    have hlaid : d''.node = FileApi.lay d d'.node (.dirs segments) := hnode.trans (h.made_eq hway)
    exact ⟨d'', hrun, h.lay hstored hlaid, hlaid⟩
  | file segments data =>
    obtain ⟨d₁, hrun, hstored, hnode, hdir, hentry, hisDir⟩ := run_makeDirs_parent hway'
    rw [h.entry hway] at hentry hisDir
    have hnotDir : ¬ d₁.isDir segments := fun hthere =>
      hplace ⟨segments, data, rfl, Or.inl (hisDir.mp hthere)⟩
    have hfree : env.inUse (d₁.entry segments) = false := by
      rw [hentry, ← Bool.not_eq_true]
      exact fun huse => hplace ⟨segments, data, rfl, Or.inr huse⟩
    obtain ⟨d'', hrun', hstored', hnode'⟩ := run_replace data hdir hnotDir hfree
    have hlaid : d''.node = FileApi.lay d d'.node (.file segments data) := by
      rw [hnode', hentry, hnode.trans (h.made_eq hway)]
      rfl
    refine ⟨d'', ?_, h.lay (hstored'.trans hstored) hlaid, hlaid⟩
    rw [place, run_bind_of_ok hrun, run_get_bind, if_neg hnotDir, hrun']

/-- One that is blocked fails, and changes no file. -/
theorem Moved.place_of_blocked (h : Moved d d') (hblocked : Blocked d env d'.node move) :
    ∃ e d'', run (place env move) d' = (.error e, d'') ∧ d''.fileAt = d'.fileAt := by
  by_cases hway : Barred d d'.node move.way
  · obtain ⟨e, d'', hrun, hfiles⟩ := run_makeDirs_of_barred (h.barred_iff.mpr hway)
    cases move with
    | dirs segments => exact ⟨e, d'', hrun, hfiles⟩
    | file segments data => exact ⟨e, d'', run_bind_of_error hrun, hfiles⟩
  · obtain ⟨segments, data, rfl, hplace⟩ := hblocked.resolve_left hway
    have hway' : ¬ Barred d' d'.node segments.dropLast := fun hbarred =>
      hway (h.barred_iff.mp hbarred)
    obtain ⟨d₁, hrun, -, hnode, -, hentry, hisDir⟩ := run_makeDirs_parent hway'
    rw [h.entry hway] at hentry hisDir
    have hfiles : d₁.fileAt = d'.fileAt := by
      funext p
      rw [fileAt_eq_bytesOf, fileAt_eq_bytesOf, hnode, bytesOf_made]
    rw [place, run_bind_of_ok hrun, run_get_bind]
    split
    · exact ⟨_, d₁, rfl, hfiles⟩
    next hnotDir =>
      have huse := hplace.resolve_left fun hdir => hnotDir (hisDir.mpr hdir)
      obtain ⟨e, hrun'⟩ := run_replace_of_inUse data (hentry ▸ huse)
      exact ⟨e, d₁, hrun', hfiles⟩

/-! ### All of them -/

theorem clear_nil : Clear d env [] := fun before _ _ h => by simp at h

theorem clear_concat : Clear d env (moves ++ [move]) ↔
    Clear d env moves ∧ ¬ Blocked d env (laid d moves) move := by
  constructor
  · intro h
    refine ⟨fun before m after hsplit => h before m (after ++ [move]) (by simp [hsplit]), ?_⟩
    exact h moves move [] rfl
  · rintro ⟨hmoves, hmove⟩ before m after hsplit
    rcases List.eq_nil_or_concat after with rfl | ⟨after, last, rfl⟩
    · obtain ⟨rfl, heq⟩ := List.append_inj' hsplit rfl
      rwa [← List.singleton_inj.mp heq]
    · rw [List.concat_eq_append, ← List.cons_append, ← List.append_assoc] at hsplit
      exact hmoves before m after (List.append_inj' hsplit rfl).1

/-- Moves that meet no obstacle are made. -/
theorem run_forM_place (h : Clear d env moves) :
    ∃ d', run (moves.forM (place env)) d = (.ok (), d') ∧ Moved d d' ∧ d'.node = laid d moves := by
  induction moves using List.reverseRecOn with
  | nil => exact ⟨d, rfl, Moved.refl d, rfl⟩
  | append_singleton moves move ih =>
    obtain ⟨hmoves, hmove⟩ := clear_concat.mp h
    obtain ⟨d₁, hrun, hmoved, hnode⟩ := ih hmoves
    rw [← hnode] at hmove
    obtain ⟨d', hrun', hmoved', hnode'⟩ := hmoved.place_of_clear hmove
    refine ⟨d', ?_, hmoved', by rw [hnode', hnode, laid_concat]⟩
    rw [run_forM_concat, run_bind_of_ok hrun, hrun']

/-- Where a move meets one, the moves before it stay made, and no file is changed after them. -/
theorem run_forM_place_of_blocked {after : List Move} (h : Clear d env before)
    (hblocked : Blocked d env (laid d before) move) :
    ∃ e d', run ((before ++ move :: after).forM (place env)) d = (.error e, d') ∧
      ∀ p, d'.fileAt p = bytesOf (laid d before p) := by
  obtain ⟨d₁, hrun, hmoved, hnode⟩ := run_forM_place h
  rw [← hnode] at hblocked
  obtain ⟨e, d', hrun', hfiles⟩ := hmoved.place_of_blocked hblocked
  refine ⟨e, d', ?_, fun p => by rw [hfiles, fileAt_eq_bytesOf, hnode]⟩
  rw [run_forM_append, run_bind_of_ok hrun]
  exact run_bind_of_error hrun'

/-- Without an obstacle for all moves there is a first one. -/
theorem exists_blocked (h : ¬ Clear d env moves) :
    ∃ before move after, moves = before ++ move :: after ∧ Clear d env before ∧
      Blocked d env (laid d before) move := by
  induction moves using List.reverseRecOn with
  | nil => exact absurd clear_nil h
  | append_singleton moves last ih =>
    by_cases hmoves : Clear d env moves
    · refine ⟨moves, last, [], rfl, hmoves, by_contra fun hlast => h ?_⟩
      exact clear_concat.mpr ⟨hmoves, hlast⟩
    · obtain ⟨before, move, after, rfl, hrest⟩ := ih hmoves
      exact ⟨before, move, after ++ [last], by simp, hrest⟩

end Placing

/-! ## The call -/

section Call

variable (fold : CaseFold) (tree : Tree) (env : Env) (raw : List Char)
  (archive : Option (List ZipInfo)) (maxBytes maxFiles : Nat)

/-- `extract_zip` up to its first change of the disk. -/
def checked : Op tree.root (Resolved × Plan) := do
  let target ← resolve tree raw
  MonadExcept.ofExcept (tree.checkWritable fold target)
  let d ← get
  if d.isFile target.segments then
    throw (.conflict s!"{String.ofList target.rel} is a file; ?extract needs a directory")
  else match archive with
    | none => throw (.badArchive "the body is not a zip archive")
    | some infos => do
      let plan ← planExtract fold tree target maxFiles infos ⟨[], []⟩
      let declared := (plan.files.map fun file => file.1.fileSize).foldl (· + ·) 0
      if maxBytes < declared then
        throw (.archiveTooLarge
          s!"archive unpacks to {declared} bytes; the cap is {maxBytes} (files.max_extract_bytes)")
      else pure (target, plan)

/-- What is in staging at the end of `_unpack`, in a call that comes to it. -/
def staged (d : Disk tree.root) : Staging :=
  match run (do
    let (target, plan) ← checked fold tree raw archive maxBytes maxFiles
    makeDirs target.segments
    pure plan) d with
  | (.ok plan, _) => (run (unpackChunks env maxBytes plan.files 0) []).2
  | (.error _, _) => []

/-- A call that raises leaves every file as it was. -/
def AllOrNothing (d : Disk tree.root) : Prop :=
  ∀ e d', run (extractZip fold tree env raw archive maxBytes maxFiles) d = (.error e, d') →
    ∀ p, d'.fileAt p = d.fileAt p

/-- Where an entry of an archive that passes the checks and can be unpacked meets an obstacle, those
before it are what their files hold already. -/
def Harmless (d : Disk tree.root) : Prop :=
  ∀ target plan written,
    (run (checked fold tree raw archive maxBytes maxFiles) d).1 = .ok (target, plan) →
    unpack env maxBytes plan.files 0 = .ok written →
      ∀ before move after, allMoves target plan = before ++ move :: after → Clear d env before →
        Blocked d env (laid d before) move → Rewrites d before

variable {fold tree env raw archive maxBytes maxFiles} {d : Disk tree.root} {target : Resolved}
  {plan : Plan}

theorem extractZip_eq : extractZip fold tree env raw archive maxBytes maxFiles =
    checked fold tree raw archive maxBytes maxFiles >>= fun checked =>
      placePlan tree env checked.1 checked.2 maxBytes := by
  unfold extractZip checked
  simp only [bind_assoc]
  refine bind_congr fun target => bind_congr fun _ => bind_congr fun d => ?_
  split
  · rfl
  cases archive with
  | none => rfl
  | some infos =>
    dsimp only
    rw [bind_assoc]
    refine bind_congr fun plan => ?_
    split <;> rfl

/-- The checks leave the disk as it is. -/
theorem run_checked (d : Disk tree.root) :
    (run (checked fold tree raw archive maxBytes maxFiles) d).2 = d := by
  have hkeeps : Keeps (· = d) (checked fold tree raw archive maxBytes maxFiles) := by
    refine Keeps.bind resolve_keeps fun target _ => Keeps.bind (Keeps.ofExcept _) fun _ _ => ?_
    refine Keeps.bind Keeps.get fun d' _ => ?_
    split
    · exact Keeps.throw _
    split
    · exact Keeps.throw _
    refine Keeps.bind planExtract_keeps fun plan _ => ?_
    dsimp only
    split
    · exact Keeps.throw _
    · exact Keeps.pure _
  exact hkeeps d rfl

/-- When the archive can be unpacked, the moves decide. -/
theorem placePlan_of_unpack {written : List Written}
    (h : unpack env maxBytes plan.files 0 = .ok written) :
    placePlan tree env target plan maxBytes =
      (allMoves target plan).forM (place env) >>= fun _ => pure written := by
  have hwritten : (MonadExcept.ofExcept (unpack env maxBytes plan.files 0) :
      Op tree.root (List Written)) = pure written := by
    rw [h]
    rfl
  simp only [placePlan, hwritten, allMoves, Plan.moves, List.forM_eq_forM, List.forM_cons,
    List.forM_append, List.forM_map, bind_assoc, pure_bind]
  rfl

/-- When it cannot, only directories have been made. -/
theorem placePlan_of_error {e : FileError} (h : unpack env maxBytes plan.files 0 = .error e)
    (target : Resolved) (d : Disk tree.root) :
    (run (placePlan tree env target plan maxBytes) d).2.fileAt = d.fileAt := by
  have hkeeps : Keeps (fun d' : Disk tree.root => d'.fileAt = d.fileAt)
      (placePlan tree env target plan maxBytes) := by
    refine Keeps.bind (makeDirs_keeps List.prefix_rfl (keptByDirs_fileAt _ _)) fun _ _ => ?_
    refine Keeps.bind (Keeps.ofExcept _) fun written hwritten => ?_
    rw [h] at hwritten
    cases hwritten.of_ofExcept
  exact hkeeps d rfl

/-- The bytes in staging never are more than the cap. -/
theorem staged_size_le (d : Disk tree.root) :
    (staged fold tree env raw archive maxBytes maxFiles d).size ≤ maxBytes := by
  unfold staged
  split
  next plan _ _ =>
    obtain ⟨staging, hrun, hsize⟩ := run_unpackChunks env plan.files
      (show Staging.size [] = 0 from rfl) (Nat.zero_le maxBytes)
    rwa [hrun]
  next => exact Nat.zero_le _

/-- An entry of an archive that is neither encrypted nor a link. -/
def plainEntry (filename : String) (data : List UInt8) : ZipInfo where
  filename := filename.toList
  flagBits := 0
  externalAttr := 0
  fileSize := data.length
  data := data
  corrupt := false

/-- A tree with an empty directory. -/
def emptyDisk : Disk sampleTree.root :=
  Disk.ofEntries sampleTree.root
    [([], .dir), (["mt5".toList], .dir), (["mt5".toList, "up".toList], .dir)]
    (fun n => n) (by decide) (by decide) (by simp [sampleTree, terminalTree])

end Call

end FileApi

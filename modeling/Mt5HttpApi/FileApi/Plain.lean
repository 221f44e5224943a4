import Mt5HttpApi.FileApi.Aliases
import Mt5HttpApi.Lib.Transition

/-!
# Confinement on a plain tree

A tree without links and other names than the lower-cased ones. There a path's key is that of the
place it leads to (`realKey_place`), so what the rules refuse by the text is what they should
refuse.

One rule is missing: what is under a hidden path is not hidden. While nothing is at the hidden path,
a file may be written under it, and the directory that is made for it is at the hidden path.
`confines` shows that nothing else goes wrong: in every run whose calls write under no hidden path
where nothing is, everything outside the root, every hidden path and everything at or under a
read-only entry stays as it was. `confines_of_present` is the case in which all hidden paths are
there.
-/

namespace FileApi

open Effects Transition

/-- A disk without links under the root, where a name denotes its lower-case one. -/
structure Plain {root : Path} (fold : CaseFold) (d : Disk root) : Prop where
  links : ∀ p t, root <+: p → d.node p ≠ some (.link t)
  stored : ∀ p n, d.stored p n = fold.lower n

/-- A call with what it meets. -/
structure Served where
  env : Env
  call : Call

/-- The disk after a call. -/
def serve (fold : CaseFold) (tree : Tree) (d : Disk tree.root) (served : Served) :
    Option (Disk tree.root) :=
  some (run (served.call.perform fold tree served.env) d).2

/-- A place that no call may change: outside of the root, hidden, or at or under a read-only
entry. -/
def Fixed (fold : CaseFold) (tree : Tree) (p : Path) : Prop :=
  ¬ tree.root <+: p ∨ tree.shields fold p

/-- In every run of calls that meet `ok`, the fixed places stay as they were, and no read gives the
content of a hidden path. -/
def Confines (fold : CaseFold) (tree : Tree) (ok : Disk tree.root → Served → Prop)
    (d₀ : Disk tree.root) : Prop :=
  ∀ d, RunOf (serve fold tree) ok d₀ d →
    (∀ p, Fixed fold tree p → d.node p = d₀.node p) ∧
      ∀ env raw bytes segments, pathSegments raw = .ok segments →
        (run (read fold tree env raw) d).1 = .ok (some bytes) →
          ¬ tree.hides fold (d.realpath segments)

/-- The paths that a call makes directories for. -/
def Call.Opens (segments : List Name) : Call → Prop
  | .write raw _ => pathSegments raw = .ok segments
  | .extract raw archive _ _ => pathSegments raw = .ok segments ∨
      ∃ target infos info, pathSegments raw = .ok target ∧ archive = some infos ∧ info ∈ infos ∧
        pathSegments (entryRaw (relText target) info) = .ok segments
  | _ => False

/-- What a call writes under a hidden path, it writes where something is at that path. -/
def HiddenPresent (fold : CaseFold) (tree : Tree) (d : Disk tree.root) (served : Served) : Prop :=
  ∀ pre more, served.call.Opens (pre ++ more) → more ≠ [] →
    Resolved.key fold ⟨pre⟩ ∈ tree.hidden → d.exists_ pre

variable {fold : CaseFold} {tree : Tree} {d d₀ d₁ : Disk tree.root} {segments pre : List Name}
  {n : Name} {raw : List Char} {p : Path}

namespace Plain

/-- A path leads to its lower-cased names. -/
theorem realpath {root : Path} {d : Disk root} (h : Plain fold d) (segments : List Name) :
    d.realpath segments = root ++ segments.map fold.lower := by
  induction segments using List.reverseRecOn with
  | nil => simp
  | append_singleton segments n ih =>
    have hchild : d.child (d.realpath segments) n = root ++ (segments ++ [n]).map fold.lower := by
      rw [Disk.child, h.stored, ih]
      simp
    rw [Disk.realpath_concat, hchild, Disk.follow_eq_self]
    exact fun t => h.links _ t (List.prefix_append _ _)

/-- So does it in its last directory. -/
theorem child {root : Path} {d : Disk root} (h : Plain fold d) (pre : List Name) (n : Name) :
    d.child (d.realpath pre) n = root ++ (pre ++ [n]).map fold.lower := by
  rw [Disk.child, h.stored, h.realpath]
  simp

end Plain

/-- The key of the place that a path leads to is the path's. -/
theorem realKey_place (tree : Tree) (segments : List Name) :
    tree.realKey fold (tree.root ++ segments.map fold.lower) = Resolved.key fold ⟨segments⟩ := by
  rw [Tree.realKey, List.drop_left, ← lower_relText, fold.lower_lower]
  rfl

/-- The key of a place under it goes on from the path's. -/
theorem realKey_under (fold : CaseFold) (tree : Tree) {more : Path} (hsegments : segments ≠ [])
    (hmore : more ≠ []) :
    ∃ text, tree.realKey fold (tree.root ++ segments.map fold.lower ++ more) =
      Resolved.key fold ⟨segments⟩ ++ '/' :: text := by
  refine ⟨fold.lower (relText more), ?_⟩
  have hnames : segments.map fold.lower ≠ [] := by simpa using hsegments
  rw [Tree.realKey, List.append_assoc, List.drop_left, relText_append hnames hmore,
    fold.lower_slash, ← lower_relText, fold.lower_lower]
  rfl

/-- A path that its rules do not protect leads to no fixed place. -/
theorem not_fixed_place (h : ¬ tree.protects (Resolved.key fold ⟨segments⟩)) :
    ¬ Fixed fold tree (tree.root ++ segments.map fold.lower) := by
  rintro (houtside | ⟨-, hprotects⟩)
  · exact houtside (List.prefix_append _ _)
  · rw [realKey_place] at hprotects
    exact h hprotects

/-- What the calls of a run keep: the disk stays plain, and its fixed places as they were. -/
structure Kept (fold : CaseFold) (tree : Tree) (d₀ d : Disk tree.root) : Prop where
  plain : Plain fold d
  fixed : ∀ p, Fixed fold tree p → d.node p = d₀.node p

namespace Kept

/-- Something is put in a place that is not fixed. -/
theorem put (h : Kept fold tree d₀ d) {v : Node} {hp hdir hlink}
    (hplace : ¬ Fixed fold tree (d.child p n)) :
    Kept fold tree d₀ (d.put p (d.stored p n) v hp hdir hlink) where
  plain := by
    refine ⟨fun q t hq ht => ?_, h.plain.stored⟩
    by_cases heq : q = p ++ [d.stored p n]
    · rw [heq, Disk.node_put_self, Option.some.injEq] at ht
      exact hlink t ht
    · rw [Disk.node_put_of_ne heq] at ht
      exact h.plain.links q t hq ht
  fixed := by
    intro q hq
    have hne : q ≠ p ++ [d.stored p n] := by
      rintro rfl
      exact hplace hq
    rw [Disk.node_put_of_ne hne, h.fixed q hq]

/-- Entries are removed from places that are not fixed. -/
theorem erase (h : Kept fold tree d₀ d) {gone : Path → Prop} [DecidablePred gone] {hroot hdown}
    (hplace : ∀ q, gone q → ¬ Fixed fold tree q) :
    Kept fold tree d₀ (d.erase gone hroot hdown) where
  plain := by
    refine ⟨fun q t hq ht => ?_, h.plain.stored⟩
    by_cases hgone : gone q
    · rw [Disk.node_erase_of_gone hgone] at ht
      cases ht
    · rw [Disk.node_erase_of_not_gone hgone] at ht
      exact h.plain.links q t hq ht
  fixed := by
    intro q hq
    rw [Disk.node_erase_of_not_gone fun hgone => hplace q hgone hq, h.fixed q hq]

/-- Where a path that may be written leads is not fixed. -/
theorem not_fixed_child (h : Kept fold tree d₀ d) (hw : Writable fold tree raw (pre ++ [n])) :
    ¬ Fixed fold tree (d.child (d.realpath pre) n) := by
  rw [h.plain.child]
  exact not_fixed_place hw.not_protects

/-- The directories on the way to a path that may be written are made at no fixed place, unless at a
hidden one where nothing is. -/
theorem dirs (hw : Writable fold tree raw segments)
    (hpresent : ∀ pre more, segments = pre ++ more → more ≠ [] →
      Resolved.key fold ⟨pre⟩ ∈ tree.hidden →
        d₀.node (tree.root ++ pre.map fold.lower) ≠ none) :
    KeptByDirs (Kept fold tree d₀) segments := by
  rintro d h pre n more hp hdir hlink rfl hnone
  refine h.put fun hfixed => ?_
  rw [h.plain.child] at hfixed hnone
  have hprotects : tree.protects (Resolved.key fold ⟨pre ++ [n]⟩) :=
    not_not.mp (mt not_fixed_place (not_not.mpr hfixed))
  rcases eq_or_ne more [] with rfl | hmore
  · exact hw.not_protects hprotects
  · have hsplit : pre ++ n :: more = (pre ++ [n]) ++ more := by simp
    rcases hprotects with hhidden | hguards
    · refine hpresent (pre ++ [n]) more hsplit hmore hhidden ?_
      rw [← h.fixed _ hfixed, hnone]
    · refine hw.not_protects (Or.inr ?_)
      rw [hsplit, key_append fold (by simp) hmore]
      exact Tree.guards_append hguards

theorem file {env : Env} {data : List UInt8} (hw : Writable fold tree raw segments) :
    KeptByFile env data (Kept fold tree d₀) segments := by
  rintro d h pre n hp hdir hlink rfl - -
  exact h.put (h.not_fixed_child hw)

theorem remove {env : Env} (hw : Writable fold tree raw segments) :
    RemoveLeads env (Kept fold tree d₀) (Kept fold tree d₀) segments := by
  rintro d h pre n hroot hdown rfl - -
  refine h.erase fun q hq => ?_
  rw [hq]
  exact h.not_fixed_child hw

theorem rmtree {env : Env} (hw : Writable fold tree raw segments)
    (hdeletable : tree.checkDeletableDir fold ⟨segments⟩ = .ok ()) :
    RmtreeLeads env (Kept fold tree d₀) (Kept fold tree d₀) segments := by
  rintro d h pre n hroot hdown rfl -
  refine h.erase ?_
  rintro q ⟨⟨more, rfl⟩, -⟩
  rw [h.plain.child]
  rcases eq_or_ne more [] with rfl | hmore
  · rw [List.append_nil]
    exact not_fixed_place hw.not_protects
  · have hnames : pre ++ [n] ≠ [] := by simp
    obtain ⟨text, hkey⟩ := realKey_under fold tree hnames hmore
    rintro (houtside | ⟨-, hprotects⟩)
    · exact houtside ((List.prefix_append _ _).trans (List.prefix_append _ _))
    · rw [hkey] at hprotects
      exact (Tree.checkDeletableDir_eq_ok hdeletable).2 text hprotects

end Kept

/-- Each call of a run keeps the fixed places. -/
theorem Kept.serve (h : Kept fold tree d₀ d) {served : Served}
    (hok : HiddenPresent fold tree d served) :
    Kept fold tree d₀ (run (served.call.perform fold tree served.env) d).2 := by
  obtain ⟨env, call⟩ := served
  -- a hidden place is fixed, so it still is as it was when the call began
  have hpresent : ∀ segments, call.Opens segments → ∀ pre more, segments = pre ++ more →
      more ≠ [] → Resolved.key fold ⟨pre⟩ ∈ tree.hidden →
        d₀.node (tree.root ++ pre.map fold.lower) ≠ none := by
    rintro segments hopens pre more rfl hmore hhidden
    have hexists := hok pre more hopens hmore hhidden
    rw [Disk.exists_, h.plain.realpath] at hexists
    rw [← h.fixed _ (Or.inr ⟨List.prefix_append _ _, Or.inl (by rwa [realKey_place])⟩)]
    exact Option.isSome_iff_ne_none.mp hexists
  cases call with
  | read raw => exact read_keeps d h
  | write raw data =>
    rw [Call.perform, run_bind_pure]
    exact writeFile_keeps (fun segments hw =>
      ⟨dirs hw (hpresent segments hw.1), file hw⟩) d h
  | extract raw archive maxBytes maxFiles =>
    rw [Call.perform, run_bind_pure]
    refine extractZip_keeps (fun segments hw => dirs hw (hpresent segments (Or.inl hw.1)))
      (fun target htarget infos harchive info hinfo segments hw => ?_) d h
    have hopens : Call.Opens segments (.extract raw archive maxBytes maxFiles) :=
      Or.inr ⟨target, infos, info, htarget.1, harchive, hinfo, hw.1⟩
    exact ⟨dirs hw (hpresent segments hopens), fun _ => file hw⟩
  | delete raw recursive =>
    rw [Call.perform, run_bind_pure]
    exact delete_leads (fun _ hd => hd) (fun segments hw => remove hw)
      (fun segments hw hdeletable _ => rmtree hw hdeletable) d h

/-- A read gives no hidden content. -/
theorem Kept.not_hides (h : Kept fold tree d₀ d) {env : Env} {bytes : List UInt8}
    (hraw : pathSegments raw = .ok segments)
    (hread : (run (read fold tree env raw) d).1 = .ok (some bytes)) :
    ¬ tree.hides fold (d.realpath segments) := by
  rintro ⟨-, hhidden⟩
  rw [h.plain.realpath, realKey_place] at hhidden
  exact (of_read hread hraw).1 hhidden

/-- In a run whose calls write under no hidden path where nothing is, all that is outside the root,
hidden, or at or under a read-only entry stays as it was, and no hidden content is read. -/
theorem confines (hplain : Plain fold d₀) : Confines fold tree (HiddenPresent fold tree) d₀ := by
  intro d hrun
  have hkept : Kept fold tree d₀ d := by
    refine hrun.invariant (fun s served t hs hok hstep => ?_) ⟨hplain, fun _ _ => rfl⟩
    injection hstep with hstep
    exact hstep ▸ hs.serve hok
  exact ⟨hkept.fixed, fun _ _ _ _ => hkept.not_hides⟩

/-- With something at all hidden paths, every run is confined. -/
theorem confines_of_present (hplain : Plain fold d₀)
    (hpresent : ∀ segments, Resolved.key fold ⟨segments⟩ ∈ tree.hidden → d₀.exists_ segments) :
    Confines fold tree (fun _ _ => True) d₀ := by
  intro d hrun
  have hkept : Kept fold tree d₀ d := by
    refine hrun.invariant (fun s served t hs _ hstep => ?_) ⟨hplain, fun _ _ => rfl⟩
    injection hstep with hstep
    refine hstep ▸ hs.serve fun pre more _ _ hhidden => ?_
    have hexists := hpresent pre hhidden
    rw [Disk.exists_, hplain.realpath] at hexists
    rw [Disk.exists_, hs.plain.realpath,
      hs.fixed _ (Or.inr ⟨List.prefix_append _ _, Or.inl (by rwa [realKey_place])⟩)]
    exact hexists
  exact ⟨hkept.fixed, fun _ _ _ _ => hkept.not_hides⟩

/-- A terminal directory that holds no saved accounts yet. -/
def freshDisk : Disk sampleTree.root :=
  Disk.ofEntries sampleTree.root
    [([], .dir), (["mt5".toList], .dir), (["mt5".toList, "config".toList], .dir)] id
    (by decide) (by decide) (by simp)

theorem plain_freshDisk : Plain .ascii freshDisk where
  links p t _ hlink := by simpa using Disk.mem_of_lookup hlink
  stored _ _ := rfl

theorem confines_freshDisk :
    Confines .ascii sampleTree (HiddenPresent .ascii sampleTree) freshDisk :=
  confines plain_freshDisk

/-- A file that is written to `config/accounts.dat/x` makes a directory of the saved accounts. -/
theorem not_confines : ¬ ∀ d₀ : Disk sampleTree.root, Plain .ascii d₀ →
    Confines .ascii sampleTree (fun _ _ => True) d₀ := by
  intro h
  have hrun : Run (serve .ascii sampleTree) freshDisk (run ((Call.write
      "config/accounts.dat/x".toList [1]).perform .ascii sampleTree quietEnv) freshDisk).2 :=
    RunOf.refl.tail (a := ⟨quietEnv, .write "config/accounts.dat/x".toList [1]⟩) trivial rfl
  have hsame := (h freshDisk plain_freshDisk _ hrun).1
    ["mt5".toList, "config".toList, "accounts.dat".toList] (Or.inr ⟨by decide, by decide⟩)
  revert hsame
  decide +kernel

end FileApi

import Mt5HttpApi.Watchdog.Sweep

/-!
# What a sweep recreates

Each service that a sweep recreates has a ground among its decisions (`Kept.grounded`), and a
container of the project behind it (`Target`). A restart leaves a record that no later poll of the
same sweep restarts on (`Spent`), so a service is recreated once (`sweep_scope`). What fails is not
overlooked either: where no state file is there, `recreated_of_absent` says which are recreated.
-/

namespace Watchdog

/-! ### A record with a restart of now -/

/-- The record is that of a restart at `now`, or of polls at `now` after it. -/
structure Record.Spent (r : Record) (now : ℤ) : Prop where
  lastRestart : r.lastRestart = now
  attempts : 1 ≤ r.attempts
  healthySince : r.healthySince = 0 ∨ r.healthySince = now

variable {p : Policy} {r : Record} {o : Observation}

theorem Policy.one_le_backoffAfter (p : Policy) (n : ℤ) : 1 ≤ p.backoffAfter n :=
  p.one_le_backoff _ (List.get_mem _ _)

/-- A poll at the time of the restart does not lead to another one. -/
theorem Record.Spent.decide (h : r.Spent o.now) (hnow : o.now ≠ 0) :
    (Watchdog.decide p r o).1 ≠ .restart ∧ (Watchdog.decide p r o).2.2.Spent o.now := by
  obtain ⟨hlast, hattempts, hsince⟩ := h
  have hsinceAt : r.sinceAt o = o.now := by
    rw [Record.sinceAt]
    split
    next => rfl
    next hne => exact hsince.resolve_left hne
  have hdecides := decide_decides p r o
  generalize Watchdog.decide p r o = answered at hdecides ⊢
  cases hdecides with
  | quiet haction hreason =>
    refine ⟨haction, hlast, hattempts, ?_⟩
    dsimp only
    split
    next => exact Or.inr hsinceAt
    next => exact Or.inl rfl
  | restart hstatus hstreak hmax hdelay =>
    -- the delay is not over, for no time went by
    have hle := hdelay (by omega) (by rwa [hlast])
    have hone := p.one_le_backoffAfter r.attempts
    omega
  | reset hstatus hheld =>
    have hone := p.one_le_resetSeconds
    rw [hsinceAt] at hheld
    omega

/-- What a restart comes of and what it leaves. -/
theorem restart_decide (hattempts : 0 ≤ r.attempts)
    (hrestart : (Watchdog.decide p r o).1 = .restart) :
    o.status = "unhealthy" ∧ p.minFailingStreak ≤ o.failingStreak ∧
      (Watchdog.decide p r o).2.2.Spent o.now := by
  have hdecides := decide_decides p r o
  generalize Watchdog.decide p r o = answered at hdecides hrestart ⊢
  cases hdecides with
  | quiet haction hreason => exact absurd hrestart haction
  | restart hstatus hstreak hmax hdelay =>
    refine ⟨hstatus, hstreak, rfl, ?_, Or.inl rfl⟩
    show 1 ≤ r.attempts + 1
    omega
  | reset hstatus hheld => cases hrestart

namespace Raw

open JsonLoads Effects

variable {F : Type} {u : Setup F} {d : Docker}

/-- The state file has the record of a restart of this sweep. -/
def Spent (u : Setup F) (content : Content) : Prop :=
  ∃ state r, loadState u.machine content = .ok state ∧ record? state = some r ∧
    r.Spent u.now.seconds

/-! ### What each decision keeps -/

/-- The records are valid, and each service that is recreated is so once, on the ground of a
decision and with the record of its restart. -/
structure Kept (u : Setup F) (vs : List Visit) (s : Sweep) : Prop where
  sound : ∀ key, Sound u.machine (s.files key)
  nodup : s.recreated.Nodup
  grounded : ∀ service ∈ s.recreated, ∃ v ∈ vs, v.service = service ∧ v.status = "unhealthy" ∧
    u.policy.minFailingStreak ≤ v.failingStreak
  spent : ∀ service ∈ s.recreated,
    Spent u (s.files (stateKey u.alnum u.project service))

variable {v : Visit} {vs : List Visit} {s : Sweep} {action : Action} {content : Content}

/-- What a decision makes of a sound file. -/
theorem considered_wet (hdry : u.dryRun = false) (hsound : Sound u.machine (s.files (v.key u)))
    (h : v.considered u s = .ok (action, content)) :
    ∃ state state' r, loadState u.machine (s.files (v.key u)) = .ok state ∧
      record? state = some r ∧ 0 ≤ r.attempts ∧
      loadState u.machine content = .ok state' ∧
      action = (Watchdog.decide u.policy r (v.observation u)).1 ∧
      record? state' = some (Watchdog.decide u.policy r (v.observation u)).2.2 := by
  rw [Visit.considered, hdry] at h
  obtain ⟨fields, fields', hload, hdecide, -, -, hload'⟩ :=
    consider_wet_ok u.short_maxAttempts u.now.short h
  obtain ⟨r, hr, hattempts⟩ := (sound_iff hload).mp hsound
  obtain ⟨state', hdecide', hrecord⟩ :=
    @decide_of_record F u.machine.floats u.policy fields (v.observation u) r hr
  cases hdecide.symm.trans hdecide'
  exact ⟨_, _, r, hload, hr, hattempts, hload', rfl, hrecord⟩

/-- A decision keeps it, where the services that are recreated afterwards are recreated once, are
grounded and have a spent record. -/
theorem Kept.decided (hs : Kept u vs s) (hsound : Sound u.machine content)
    (hnodup : (s.decided u v action content).recreated.Nodup)
    (hgrounded : ∀ service ∈ (s.decided u v action content).recreated,
      ∃ v ∈ vs, v.service = service ∧ v.status = "unhealthy" ∧
        u.policy.minFailingStreak ≤ v.failingStreak)
    (hspent : ∀ service ∈ (s.decided u v action content).recreated,
      stateKey u.alnum u.project service = v.key u → Spent u content)
    (hbefore : ∀ service ∈ (s.decided u v action content).recreated,
      stateKey u.alnum u.project service ≠ v.key u → service ∈ s.recreated) :
    Kept u vs (s.decided u v action content) where
  sound key := by
    rw [Sweep.decided_files, Function.update_apply]
    split
    next => exact hsound
    next => exact hs.sound key
  nodup := hnodup
  grounded := hgrounded
  spent service hservice := by
    rw [Sweep.decided_files, Function.update_apply]
    split
    next hkey => exact hspent service hservice hkey
    next hkey => exact hs.spent service (hbefore service hservice hkey)

theorem decided_recreated (hdry : u.dryRun = false) :
    (s.decided u v action content).recreated =
      if action = .restart then s.recreated ++ [v.service] else s.recreated := by
  simp [Sweep.decided, hdry]

theorem Kept.decided_wet (hdry : u.dryRun = false) (hv : v ∈ vs) (hs : Kept u vs s)
    (h : v.considered u s = .ok (action, content)) : Kept u vs (s.decided u v action content) := by
  obtain ⟨state, state', r, hload, hr, hattempts, hload', rfl, hr'⟩ :=
    considered_wet hdry (hs.sound _) h
  have hsound : Sound u.machine content :=
    (sound_iff hload').mpr ⟨_, hr', attempts_nonneg hattempts⟩
  have hnow : (v.observation u).now ≠ 0 := u.now.pos.ne'
  -- a service that was recreated before under this key has its restart in the record
  have hagain : ∀ service ∈ s.recreated, stateKey u.alnum u.project service = v.key u →
      (Watchdog.decide u.policy r (v.observation u)).1 ≠ .restart ∧ Spent u content := by
    intro service hservice hkey
    obtain ⟨before, r₀, hbefore, hr₀, hspent⟩ := hs.spent service hservice
    rw [hkey, hload] at hbefore
    cases hbefore
    cases hr.symm.trans hr₀
    obtain ⟨hne, hspent'⟩ := hspent.decide (p := u.policy) (o := v.observation u) hnow
    exact ⟨hne, state', _, hload', hr', hspent'⟩
  by_cases hrestart : (Watchdog.decide u.policy r (v.observation u)).1 = .restart
  · obtain ⟨hstatus, hstreak, hspent⟩ := restart_decide hattempts hrestart
    have hnew : v.service ∉ s.recreated := fun hmem => (hagain _ hmem rfl).1 hrestart
    refine hs.decided hsound ?_ ?_ ?_ ?_
    all_goals rw [decided_recreated hdry, if_pos hrestart]
    · exact List.nodup_append.mpr ⟨hs.nodup, List.nodup_singleton _, by
        rintro service hservice other hother rfl
        exact hnew (List.mem_singleton.mp hother ▸ hservice)⟩
    · intro service hservice
      rcases List.mem_append.mp hservice with hold | hlast
      · exact hs.grounded service hold
      · exact ⟨v, hv, (List.mem_singleton.mp hlast).symm, hstatus, hstreak⟩
    · exact fun _ _ _ => ⟨state', _, hload', hr', hspent⟩
    · intro service hservice hkey
      rcases List.mem_append.mp hservice with hold | hlast
      · exact hold
      · rw [List.mem_singleton.mp hlast] at hkey
        exact absurd rfl hkey
  · refine hs.decided hsound ?_ ?_ ?_ ?_
    all_goals rw [decided_recreated hdry, if_neg hrestart]
    · exact hs.nodup
    · exact hs.grounded
    · exact fun service hservice hkey => (hagain service hservice hkey).2
    · exact fun service hservice _ => hservice

/-- A dry run recreates nothing. -/
theorem Kept.decided_dry (hdry : u.dryRun = true) (hs : Kept u vs s)
    (h : v.considered u s = .ok (action, content)) : Kept u vs (s.decided u v action content) := by
  obtain rfl := content_of_dry_run hdry h
  have hrecreated : (s.decided u v action (s.files (v.key u))).recreated = s.recreated := by
    simp [Sweep.decided, hdry]
  refine hs.decided (hs.sound _) ?_ ?_ ?_ ?_
  all_goals rw [hrecreated]
  · exact hs.nodup
  · exact hs.grounded
  · intro service hservice hkey
    rw [← hkey]
    exact hs.spent service hservice
  · exact fun service hservice _ => hservice

/-- A sweep leaves what its decisions leave. -/
theorem sweepOnce_state :
    (run (sweepOnce u d) s).2 = (run ((visits u d).forM (recover u)) s).2 := by
  rw [sweepOnce_eq]
  rcases hloop : run ((visits u d).forM (recover u)) s with ⟨e | _, s'⟩
  · rw [run_bind_of_error hloop]
  · rw [run_bind_of_ok hloop]
    rfl

/-- Every sweep over sound files keeps it. -/
theorem kept_of_sweep {files : String → Content} (hsound : ∀ key, Sound u.machine (files key)) :
    Kept u (visits u d) (run (sweepOnce u d) (Sweep.start files)).2 := by
  have hkeeps : Keeps (Kept u (visits u d)) ((visits u d).forM (recover u)) := by
    refine Keeps.forM fun v hv => keeps_recover fun s action content hs h => ?_
    cases hdry : u.dryRun with
    | true => exact hs.decided_dry hdry h
    | false => exact hs.decided_wet hdry hv h
  rw [sweepOnce_state]
  exact hkeeps _ ⟨hsound, List.nodup_nil, by simp [Sweep.start], by simp [Sweep.start]⟩

/-! ### The container behind a decision -/

/-- A running VM of the project, other than the watchdog. -/
structure IsVm (u : Setup F) (d : Docker) (c : Container) : Prop where
  listed : c ∈ d.vms
  project : Dict.get c.labels "com.docker.compose.project" = some u.project
  not_self : c.id ≠ u.scope.selfFullId
  image : imageMatches c.image u.scope.imageFilter = true

/-- A container of the project that is bound to the network namespace of a VM, which the sweep saw
healthy. -/
structure IsSidecar (u : Setup F) (d : Docker) (c : Container) : Prop where
  listed : c ∈ d.sidecars
  project : Dict.get c.labels "com.docker.compose.project" = some u.project
  not_self : c.id ≠ u.scope.selfFullId
  owner : ∃ token owner seen, c.networkMode = "container:" ++ token ∧ named token owner = true ∧
    IsVm u d owner ∧ IsVm u d seen ∧ seen.id = owner.id ∧
      (healthOf seen.inspected).map Prod.fst = some "healthy"

/-- The sweep saw the container unhealthy past the streak. -/
def Failing (u : Setup F) (c : Container) : Prop :=
  ∃ streak, healthOf c.inspected = some ("unhealthy", streak) ∧
    u.policy.minFailingStreak ≤ streak

/-- A service that a sweep may recreate. -/
def Target (u : Setup F) (d : Docker) (service : String) : Prop :=
  ∃ c : Container, c.service = some service ∧ (IsVm u d c ∨ IsSidecar u d c) ∧ Failing u c

theorem mem_vmVisits {vms : List Container} : v ∈ vmVisits vms ↔
    ∃ c ∈ vms, healthOf c.inspected = some (v.status, v.failingStreak) ∧
      c.service = some v.service := by
  rw [vmVisits, List.mem_filterMap]
  constructor
  · rintro ⟨c, hc, hvisit⟩
    split at hvisit
    next hhealth hservice =>
      cases hvisit
      exact ⟨c, hc, hhealth, hservice⟩
    next => cases hvisit
  · rintro ⟨c, hc, hhealth, hservice⟩
    exact ⟨c, hc, by rw [hhealth, hservice]⟩

/-- What is known of the health of an id was seen. -/
theorem get_observe {vms : List Container} {health : VmHealth} {id status : String}
    (h : Dict.get (observe health vms) id = some status) :
    Dict.get health id = some status ∨
      ∃ c ∈ vms, c.id = id ∧ (healthOf c.inspected).map Prod.fst = some status := by
  induction vms generalizing health with
  | nil => exact Or.inl h
  | cons c vms ih =>
    rw [observe, List.foldl_cons] at h
    rcases ih h with hbefore | ⟨seen, hseen, hid, hstatus⟩
    · cases hc : healthOf c.inspected with
      | none =>
        rw [hc] at hbefore
        exact Or.inl hbefore
      | some found =>
        rw [hc, Dict.get_set] at hbefore
        split at hbefore
        next hid => exact Or.inr ⟨c, List.mem_cons_self, hid.symm, by rw [hc]; exact hbefore⟩
        next => exact Or.inl hbefore
    · exact Or.inr ⟨seen, List.mem_cons_of_mem _ hseen, hid, hstatus⟩

theorem sidecarVisit_eq_some {vms : List Container} {health : VmHealth} {c : Container}
    {token : String} (h : sidecarVisit vms health (c, token) = some v) :
    ∃ owner, ownerContainer token vms = some owner ∧
      Dict.get health owner.id = some "healthy" ∧
      healthOf c.inspected = some (v.status, v.failingStreak) ∧ c.service = some v.service := by
  rw [sidecarVisit] at h
  split at h
  next hservice howner hhealth =>
    split at h
    next hhealthy =>
      cases h
      exact ⟨_, howner, hhealthy, hhealth, hservice⟩
    next => cases h
  next => cases h

section Scoped

variable {c : Container} {token : String}

theorem isVm_of_mem (hself : u.scope.selfFullId ≠ "") (hproject : u.project ≠ "")
    (h : c ∈ scopedContainers u.scope u.project d.vms) : IsVm u d c := by
  obtain ⟨hlisted, hnot, hof, himage⟩ := mem_scopedContainers.mp h
  exact ⟨hlisted, (ofProject_iff hproject).mp hof, (isSelf_eq_false_iff hself).mp hnot, himage⟩

theorem isSidecar_of_mem (hself : u.scope.selfFullId ≠ "") (hproject : u.project ≠ "")
    (h : (c, token) ∈ netnsSidecars u.scope u.project d.sidecars)
    (hvisit : sidecarVisit (scopedContainers u.scope u.project d.vms)
      (observe [] (scopedContainers u.scope u.project d.vms)) (c, token) = some v) :
    IsSidecar u d c := by
  obtain ⟨hlisted, hnot, hof, hmode, rfl⟩ := mem_netnsSidecars.mp h
  obtain ⟨owner, howner, hhealthy, -⟩ := sidecarVisit_eq_some hvisit
  have hvm : IsVm u d owner := isVm_of_mem hself hproject (List.mem_of_find?_eq_some howner)
  refine ⟨hlisted, (ofProject_iff hproject).mp hof, (isSelf_eq_false_iff hself).mp hnot,
    afterColon c.networkMode, owner, ?_⟩
  rcases get_observe hhealthy with hnone | ⟨seen, hseen, hid, hstatus⟩
  · -- nothing is known of the health before the pass over the VMs
    cases hnone
  · exact ⟨seen, networkMode_eq hmode, List.find?_some howner, hvm,
      isVm_of_mem hself hproject hseen, hid, hstatus⟩

/-- The service of a decision on a failing container is a target. -/
theorem target_of_visit (hself : u.scope.selfFullId ≠ "") (hproject : u.project ≠ "")
    (hv : v ∈ visits u d) (hstatus : v.status = "unhealthy")
    (hstreak : u.policy.minFailingStreak ≤ v.failingStreak) : Target u d v.service := by
  rw [visits, List.mem_append] at hv
  rcases hv with hvm | hsidecar
  · obtain ⟨c, hc, hhealth, hservice⟩ := mem_vmVisits.mp hvm
    exact ⟨c, hservice, Or.inl (isVm_of_mem hself hproject hc), v.failingStreak,
      by rw [hhealth, hstatus], hstreak⟩
  · split at hsidecar
    next =>
      obtain ⟨⟨c, token⟩, hc, hvisit⟩ := List.mem_filterMap.mp hsidecar
      obtain ⟨owner, -, -, hhealth, hservice⟩ := sidecarVisit_eq_some hvisit
      exact ⟨c, hservice, Or.inr (isSidecar_of_mem hself hproject hc hvisit), v.failingStreak,
        by rw [hhealth, hstatus], hstreak⟩
    next => exact absurd hsidecar List.not_mem_nil

end Scoped

/-- **The scope of a sweep.** With the own id resolved and valid records, whatever containers are
listed and however their health is, a sweep recreates no service twice, and only that of a failing
VM of the project or of a failing sidecar of a VM that the sweep saw healthy. -/
theorem sweep_scope (u : Setup F) (d : Docker) (files : String → Content)
    (hself : u.scope.selfFullId ≠ "") (hproject : u.project ≠ "")
    (hvalid : ∀ key, Sound u.machine (files key)) :
    (run (sweepOnce u d) (Sweep.start files)).2.recreated.Nodup ∧
      ∀ service ∈ (run (sweepOnce u d) (Sweep.start files)).2.recreated, Target u d service := by
  have hkept := kept_of_sweep (d := d) hvalid
  refine ⟨hkept.nodup, fun service hservice => ?_⟩
  obtain ⟨v, hv, rfl, hstatus, hstreak⟩ := hkept.grounded service hservice
  exact target_of_visit hself hproject hv hstatus hstreak

/-! ### From no state files -/

/-- The first decision on an absent file is that on a fresh record. -/
theorem considered_absent (hdry : u.dryRun = false) (habsent : s.files (v.key u) = none) :
    ∃ content, v.considered u s =
      .ok ((Watchdog.decide u.policy Record.fresh (v.observation u)).1, content) := by
  obtain ⟨action, content, hconsider, -⟩ := (@leaves_sound_iff F u.machine u.policy u.dryRun none
    (v.observation u) u.short_maxAttempts u.now.short).mpr trivial
  rw [← habsent] at hconsider
  have hsound : Sound u.machine (s.files (v.key u)) := by
    rw [habsent]
    exact ⟨_, rfl, valid_fresh⟩
  obtain ⟨state, -, r, hload, hr, -, -, rfl, -⟩ := considered_wet hdry hsound hconsider
  rw [habsent] at hload
  cases hload
  obtain rfl : Record.fresh = r := Option.some.inj hr
  exact ⟨content, hconsider⟩

/-- With a file of its own for each, none of them there, every service is recreated that a fresh
record leads to a restart of. -/
theorem recreated_of_absent (hdry : u.dryRun = false) (hnodup : (vs.map (Visit.key u)).Nodup)
    (habsent : ∀ v ∈ vs, s.files (v.key u) = none) :
    (run (vs.forM (recover u)) s).2.recreated = s.recreated ++ (vs.filter fun v =>
      (Watchdog.decide u.policy Record.fresh (v.observation u)).1 = .restart).map
        Visit.service := by
  induction vs generalizing s with
  | nil => exact (List.append_nil _).symm
  | cons v vs ih =>
    obtain ⟨hnotMem, hnodup⟩ := List.nodup_cons.mp hnodup
    obtain ⟨hv, hvs⟩ := List.forall_mem_cons.mp habsent
    obtain ⟨content, hconsider⟩ := considered_absent hdry hv
    have hrest : ∀ w ∈ vs, (s.decided u v (Watchdog.decide u.policy Record.fresh
        (v.observation u)).1 content).files (w.key u) = none := by
      intro w hw
      have hne : w.key u ≠ v.key u := fun heq => hnotMem (heq ▸ List.mem_map_of_mem hw)
      rw [Sweep.decided_files, Function.update_of_ne hne]
      exact hvs w hw
    rw [forM_cons, run_bind_of_ok (run_recover_ok hconsider), ih hnodup hrest,
      decided_recreated hdry, List.filter_cons]
    split
    next hrestart => rw [if_pos (by simpa using hrestart), List.map_cons, List.append_assoc]; rfl
    next hrestart => rw [if_neg (by simpa using hrestart)]

/-- A healthy VM with a sidecar that fails, and a VM that fails. -/
def failing : Docker where
  vms := [container "a1" "mt5" "dockurr/windows:5.14" "default" "healthy" 0,
    container "b1" "mt5b" "dockurr/windows" "default" "unhealthy" 10]
  sidecars := [container "c1" "wickworks" "wickworks:1.0" "container:a1" "unhealthy" 10]

theorem sweep_scope_failing :
    (run (sweepOnce (mt5 false) failing) (Sweep.start fun _ => none)).2.recreated =
      ["mt5b", "wickworks"] ∧
    ["mt5b", "wickworks"].Nodup ∧
      ∀ service ∈ ["mt5b", "wickworks"], Target (mt5 false) failing service := by
  have hrecreated : (run (sweepOnce (mt5 false) failing) (Sweep.start fun _ => none)).2.recreated =
      ["mt5b", "wickworks"] := by
    have hvisits : visits (mt5 false) failing =
        [⟨"mt5", "healthy", 0⟩, ⟨"mt5b", "unhealthy", 10⟩, ⟨"wickworks", "unhealthy", 10⟩] := by
      decide
    rw [sweepOnce_state, hvisits, recreated_of_absent rfl (by decide) fun _ _ => rfl]
    decide
  have hscope := sweep_scope (mt5 false) failing (fun _ => none) (by decide) (by decide)
    fun _ => ⟨_, rfl, valid_fresh⟩
  rw [hrecreated] at hscope
  exact ⟨hrecreated, hscope⟩

end Raw

end Watchdog

import Mathlib.Data.List.Nodup
import Mathlib.Data.List.Pairwise
import Mt5HttpApi.Gateway.Terminals

/-!
# Where the gateway sends a request

Every location of a terminal is `/<broker>/<account>/` and a tail: a route of the default instance,
or an instance and a route (`Terminal.tails`). So a request can only meet locations of the terminals
of its broker and account (`tail_of_location`), and their tails decide which of them it meets.

`forwards_iff` is the result: a request reaches the terminal it names, for every route, unless a
default instance has a sibling called `compile`, which makes nginx refuse the configuration, or the
request names the default instance by its account only and the route begins with the name of a
sibling, or the route has a line feed in it.
-/

namespace Gateway

open Nginx Config Segments

/-- The routes with a location of their own within a terminal, and whether it is exact. -/
def routeTails : List (Bool × List Char) :=
  (false, []) :: (true, "compile".toList) ::
    longRunningRoutes.map fun route => (false, route.toList)

namespace Terminal

/-- What follows `/<broker>/<account>/` in the terminal's locations. -/
def tails (t : Terminal) : List (Bool × List Char) :=
  (routeTails.map fun r => (r.1, t.instanceName.toList ++ '/' :: r.2)) ++
    if t.instanceName = defaultInstance then routeTails else []

/-- The locations of a terminal by their tails. -/
theorem locations_keys (t : Terminal) :
    t.locations.map (fun l => (l.exact, l.name)) =
      t.tails.map fun r => (r.1, t.accountStem ++ r.2) := by
  unfold locations routePrefixes tails fullStem
  split <;> simp [location, routeTails, longRunningRoutes]

theorem accountStem_eq_iff {t u : Terminal} (ht : '/' ∉ t.broker.toList ∧ '/' ∉ t.account.toList)
    (hu : '/' ∉ u.broker.toList ∧ '/' ∉ u.account.toList) {m n : List Char} :
    t.accountStem ++ m = u.accountStem ++ n ↔ u.sibling t ∧ m = n := by
  simp only [accountStem, List.cons_append, List.append_assoc, List.cons.injEq, true_and,
    List.nil_append, append_sep_inj ht.1 hu.1, append_sep_inj ht.2 hu.2, sibling, String.toList_inj,
    and_assoc]

theorem accountStem_prefix_iff {t u : Terminal}
    (ht : '/' ∉ t.broker.toList ∧ '/' ∉ t.account.toList)
    (hu : '/' ∉ u.broker.toList ∧ '/' ∉ u.account.toList) {m n : List Char} :
    t.accountStem ++ m <+: u.accountStem ++ n ↔ u.sibling t ∧ m <+: n := by
  simp only [accountStem, List.cons_append, List.append_assoc, List.prefix_cons_inj,
    List.nil_append, append_sep_prefix_iff ht.1 hu.1, append_sep_prefix_iff ht.2 hu.2, sibling,
    String.toList_inj, and_assoc]

end Terminal

/-- A route with a location of its own that has a slash in it. -/
theorem routeTails_slash {e : Bool} {x rest : List Char} (hx : '/' ∉ x)
    (h : (e, x ++ '/' :: rest) ∈ routeTails) :
    x = "compile".toList ∧ rest = "files".toList ∨
      x = "terminal".toList ∧ rest = "restart".toList := by
  have hroutes : ∀ r ∈ routeTails, '/' ∈ r.2 →
      r.2 = "compile".toList ++ '/' :: "files".toList ∨
        r.2 = "terminal".toList ++ '/' :: "restart".toList := by decide
  rcases hroutes _ h (by simp) with heq | heq
  · exact Or.inl ((append_sep_inj hx (by decide)).mp heq)
  · exact Or.inr ((append_sep_inj hx (by decide)).mp heq)

theorem mcpRoutePrefix_eq : mcpRoutePrefix = '/' :: ("mcp".toList ++ '/' :: []) := by
  decide

/-- No default instance has a sibling called `compile`. -/
def NoCompileSibling (terms : List Terminal) : Prop :=
  ∀ t ∈ terms, ∀ u ∈ terms, t.instanceName = defaultInstance → t.sibling u →
    u.instanceName ≠ "compile"

namespace WellNamed

variable {terms : List Terminal} {t u : Terminal}

/-- A name has no slash. -/
theorem noSlash (h : WellNamed terms) (ht : t ∈ terms) {name : String}
    (hname : name ∈ [t.broker, t.account, t.instanceName]) : '/' ∉ name.toList := fun hmem =>
  absurd (List.all_eq_true.mp (h.safe t ht name hname).2 _ hmem) (by decide)

theorem noSlash_stem (h : WellNamed terms) (ht : t ∈ terms) :
    '/' ∉ t.broker.toList ∧ '/' ∉ t.account.toList :=
  ⟨h.noSlash ht (by simp), h.noSlash ht (by simp)⟩

theorem noSlash_instance (h : WellNamed terms) (ht : t ∈ terms) : '/' ∉ t.instanceName.toList :=
  h.noSlash ht (by simp)

/-- Two siblings of one instance name are the same terminal. -/
theorem eq_of_instance (h : WellNamed terms) (ht : t ∈ terms) (hu : u ∈ terms)
    (hsib : t.sibling u) (hinst : u.instanceName = t.instanceName) : u = t :=
  List.inj_on_of_nodup_map h.distinct hu ht (by simp [Terminal.identity, hsib.1, hsib.2, hinst])

/-- No broker is called `mcp`. -/
theorem broker_ne_mcp (h : WellNamed terms) (ht : t ∈ terms) : t.broker ≠ "mcp" := by
  intro heq
  have haccepted := h.accepted
  unfold nginxConf at haccepted
  split at haccepted
  next => cases haccepted
  next hnot =>
    refine hnot (List.any_eq_true.mpr ⟨t, ht, ?_⟩)
    rw [takesMcpName, heq]
    decide

/-- The tails of two terminals have nothing in common. -/
theorem disjoint_tails (h : WellNamed terms) (hclash : NoCompileSibling terms) (ht : t ∈ terms)
    (hu : u ∈ terms) (hsib : t.sibling u) (hne : t.instanceName ≠ u.instanceName) :
    List.Disjoint t.tails u.tails := by
  have hcross : ∀ v ∈ terms, ∀ w ∈ terms, v.sibling w → w.instanceName = defaultInstance →
      ∀ e route, (e, route) ∈ routeTails →
        (e, v.instanceName.toList ++ '/' :: route) ∉ routeTails := by
    intro v hv w hw hvw hdefault e route hroute hmem
    rcases routeTails_slash (h.noSlash_instance hv) hmem with ⟨hname, -⟩ | ⟨-, rfl⟩
    · exact hclash w hw v hv hdefault ⟨hvw.1.symm, hvw.2.symm⟩ (String.toList_inj.mp hname)
    · revert hroute
      cases e <;> decide
  rintro ⟨e, m⟩ hmt hmu
  unfold Terminal.tails at hmt hmu
  rcases List.mem_append.mp hmt with hmt | hmt <;> rcases List.mem_append.mp hmu with hmu | hmu
  · obtain ⟨⟨e₁, r₁⟩, -, heq₁⟩ := List.mem_map.mp hmt
    obtain ⟨⟨e₂, r₂⟩, -, heq₂⟩ := List.mem_map.mp hmu
    have heq := (Prod.ext_iff.mp (heq₁.trans heq₂.symm)).2
    rw [append_sep_inj (h.noSlash_instance ht) (h.noSlash_instance hu), String.toList_inj] at heq
    exact hne heq.1
  · obtain ⟨⟨e₁, r₁⟩, hr₁, heq₁⟩ := List.mem_map.mp hmt
    cases heq₁
    split at hmu
    next hdefault => exact hcross t ht u hu hsib hdefault _ _ hr₁ hmu
    next => cases hmu
  · obtain ⟨⟨e₂, r₂⟩, hr₂, heq₂⟩ := List.mem_map.mp hmu
    cases heq₂
    split at hmt
    next hdefault => exact hcross u hu t ht ⟨hsib.1.symm, hsib.2.symm⟩ hdefault _ _ hr₂ hmt
    next => cases hmt
  · split at hmt
    next hdt =>
      split at hmu
      next hdu => exact hne (hdt.trans hdu.symm)
      next => cases hmu
    next => cases hmt

/-- The tails of a terminal differ. -/
theorem nodup_tails (h : WellNamed terms) (ht : t ∈ terms) : t.tails.Nodup := by
  unfold Terminal.tails
  split
  next hdefault =>
    rw [hdefault]
    decide
  next =>
    rw [List.append_nil]
    refine List.Nodup.map_on ?_ (show routeTails.Nodup by decide)
    rintro ⟨e₁, r₁⟩ - ⟨e₂, r₂⟩ - heq
    have hname := h.noSlash_instance ht
    simp only [Prod.mk.injEq, append_sep_inj hname hname, true_and] at heq
    exact Prod.ext heq.1 heq.2

/-- The locations of a generated configuration. -/
theorem locations_of_conf {locs : List (Location Handler)} (hconf : nginxConf terms = some locs) :
    locs = terms.flatMap Terminal.locations ++
      [{ exact := false, name := mcpRoutePrefix, proxied := true, handler := .unifier },
        { exact := false, name := ['/'], proxied := false, handler := .noRoute }] := by
  unfold nginxConf at hconf
  split at hconf
  next => cases hconf
  next => exact (Option.some.inj hconf).symm

/-- nginx starts with the configuration unless a default instance has a sibling called
`compile`. -/
theorem starts_iff (h : WellNamed terms) {locs : List (Location Handler)}
    (hconf : nginxConf terms = some locs) : Starts locs ↔ NoCompileSibling terms := by
  have hkeys : locs.map (fun l => (l.exact, l.name)) =
      (terms.flatMap fun t => t.tails.map fun r => (r.1, t.accountStem ++ r.2)) ++
        [(false, mcpRoutePrefix), (false, ['/'])] := by
    rw [locations_of_conf hconf, List.map_append, List.map_flatMap]
    simp only [Terminal.locations_keys, List.map_cons, List.map_nil]
  rw [Starts, hkeys, List.nodup_append, List.nodup_flatMap]
  constructor
  · rintro ⟨⟨-, hpairs⟩, -, -⟩ t ht u hu hdefault hsib hcompile
    have hne : t ≠ u := by
      rintro rfl
      rw [hdefault] at hcompile
      revert hcompile
      decide
    have : Std.Symm (Function.onFun List.Disjoint fun t : Terminal =>
        t.tails.map fun r => (r.1, t.accountStem ++ r.2)) :=
      ⟨fun _ _ h _ hkey hkey' => h hkey' hkey⟩
    have hstem : t.accountStem = u.accountStem := by
      simp only [Terminal.accountStem, hsib.1, hsib.2]
    -- both have a location for `compile/files`
    have hdisjoint := hpairs.forall ht hu hne
    refine @hdisjoint (false, t.accountStem ++ "compile/files".toList) ?_ ?_
    · refine List.mem_map.mpr ⟨(false, "compile/files".toList), ?_, rfl⟩
      rw [Terminal.tails, if_pos hdefault]
      exact List.mem_append_right _ (by decide)
    · refine List.mem_map.mpr ⟨(false, "compile/files".toList), ?_, by rw [hstem]⟩
      refine List.mem_append_left _ (List.mem_map.mpr ⟨(false, "files".toList), by decide, ?_⟩)
      rw [hcompile]
      decide
  · intro hclash
    refine ⟨⟨fun t ht => ?_, ?_⟩, by decide, ?_⟩
    · refine (h.nodup_tails ht).map_on ?_
      rintro ⟨e₁, m₁⟩ - ⟨e₂, m₂⟩ - heq
      simpa using heq
    · refine List.Pairwise.imp_of_mem ?_ (List.pairwise_map.mp h.distinct)
      intro t u ht hu hne key hkt hku
      obtain ⟨⟨e₁, m₁⟩, hm₁, rfl⟩ := List.mem_map.mp hkt
      obtain ⟨⟨e₂, m₂⟩, hm₂, heq⟩ := List.mem_map.mp hku
      simp only [Prod.mk.injEq, Terminal.accountStem_eq_iff (h.noSlash_stem hu)
        (h.noSlash_stem ht)] at heq
      obtain ⟨rfl, hsib, rfl⟩ := heq
      refine h.disjoint_tails hclash ht hu hsib (fun hinst => hne ?_) hm₁ hm₂
      simp [Terminal.identity, hsib.1, hsib.2, hinst]
    · rintro key hkey key' hkey' rfl
      obtain ⟨t, ht, hkey⟩ := List.mem_flatMap.mp hkey
      obtain ⟨⟨e, m⟩, -, rfl⟩ := List.mem_map.mp hkey
      simp only [List.mem_cons, Prod.mk.injEq, List.not_mem_nil, or_false] at hkey'
      rcases hkey' with ⟨-, heq⟩ | ⟨-, heq⟩
      · rw [mcpRoutePrefix_eq, Terminal.accountStem, List.cons_append, List.append_assoc,
          List.cons_append, List.append_assoc, List.cons.injEq,
          append_sep_inj (h.noSlash_stem ht).1 (by decide)] at heq
        simp at heq
      · simp [Terminal.accountStem] at heq

end WellNamed

/-- The locations of the terminal `t`'s broker and account that a request with `tail` after these
can meet. -/
inductive Met (terms : List Terminal) (t : Terminal) (tail : List Char)
    (l : Location Handler) : Prop
  /-- A route of the default instance. -/
  | account (u : Terminal) (r : Bool × List Char) (timeout : Option String) :
      u ∈ terms → t.sibling u → u.instanceName = defaultInstance → r ∈ routeTails → r.2 <+: tail →
      l.name = t.accountStem ++ r.2 →
      l.handler = .terminal u.container u.port t.accountStem timeout → Met terms t tail l
  /-- A route of an instance named by the request. -/
  | inst (u : Terminal) (r : Bool × List Char) (timeout : Option String) :
      u ∈ terms → t.sibling u → r ∈ routeTails → u.instanceName.toList ++ '/' :: r.2 <+: tail →
      l.name = t.accountStem ++ (u.instanceName.toList ++ '/' :: r.2) →
      l.handler = .terminal u.container u.port
        (t.accountStem ++ (u.instanceName.toList ++ ['/'])) timeout → Met terms t tail l

/-- A terminal's locations, by stem and route. -/
theorem exists_of_mem_locations {u : Terminal} {l : Location Handler} (h : l ∈ u.locations) :
    ∃ stem ∈ u.routePrefixes, ∃ r ∈ routeTails, ∃ timeout,
      l.name = stem ++ r.2 ∧ l.handler = .terminal u.container u.port stem timeout := by
  obtain ⟨stem, hstem, hl⟩ := List.mem_flatMap.mp h
  refine ⟨stem, hstem, ?_⟩
  rcases List.mem_cons.mp hl with rfl | hl
  · exact ⟨(false, []), by decide, none, rfl, rfl⟩
  rcases List.mem_cons.mp hl with rfl | hl
  · exact ⟨(true, "compile".toList), by decide, some compileProxyTimeout, rfl, rfl⟩
  obtain ⟨route, hroute, rfl⟩ := List.mem_map.mp hl
  refine ⟨(false, route.toList), ?_, some longProxyTimeout, rfl, rfl⟩
  exact List.mem_cons_of_mem _ (List.mem_cons_of_mem _ (List.mem_map.mpr ⟨route, hroute, rfl⟩))

section Requests

variable {terms : List Terminal} {t : Terminal} {locs : List (Location Handler)}
  {tail rest : List Char} {l : Location Handler}

/-- Two siblings have one stem for their account. -/
theorem accountStem_of_sibling {u : Terminal} (h : t.sibling u) :
    u.accountStem = t.accountStem := by
  simp only [Terminal.accountStem, h.1, h.2]

/-- A request to a broker and account meets the locations of their terminals only, and the one that
answers everything. -/
theorem met_of_location (h : WellNamed terms) (hconf : nginxConf terms = some locs)
    (ht : t ∈ terms) (hl : l ∈ locs) (hpre : l.name <+: t.accountStem ++ tail)
    (hlong : 1 < l.name.length) : Met terms t tail l := by
  rw [WellNamed.locations_of_conf hconf] at hl
  rcases List.mem_append.mp hl with hl | hl
  · obtain ⟨u, hu, hl⟩ := List.mem_flatMap.mp hl
    obtain ⟨stem, hstem, r, hr, timeout, hname, hhandler⟩ := exists_of_mem_locations hl
    have hsource : stem = u.accountStem ∧ u.instanceName = defaultInstance ∨
        stem = u.accountStem ++ (u.instanceName.toList ++ ['/']) := by
      unfold Terminal.routePrefixes at hstem
      split at hstem
      next hdefault =>
        simp only [List.mem_cons, List.not_mem_nil, or_false] at hstem
        exact hstem.symm.imp_left fun hstem => ⟨hstem, hdefault⟩
      next => exact Or.inr (List.mem_singleton.mp hstem)
    rcases hsource with ⟨rfl, hdefault⟩ | rfl
    · rw [hname, Terminal.accountStem_prefix_iff (h.noSlash_stem hu) (h.noSlash_stem ht)] at hpre
      have hstem := accountStem_of_sibling hpre.1
      exact .account u r timeout hu hpre.1 hdefault hr hpre.2 (hstem ▸ hname) (hstem ▸ hhandler)
    · rw [List.append_assoc, List.append_assoc] at hname
      rw [hname, Terminal.accountStem_prefix_iff (h.noSlash_stem hu) (h.noSlash_stem ht)] at hpre
      have hstem := accountStem_of_sibling hpre.1
      exact .inst u r timeout hu hpre.1 hr hpre.2 (hstem ▸ hname) (hstem ▸ hhandler)
  · simp only [List.mem_cons, List.not_mem_nil, or_false] at hl
    rcases hl with rfl | rfl
    · exfalso
      rw [mcpRoutePrefix_eq, Terminal.accountStem, List.cons_append, List.prefix_cons_inj,
        List.append_assoc, List.cons_append,
        append_sep_prefix_iff (by decide) (h.noSlash_stem ht).1, String.toList_inj] at hpre
      exact h.broker_ne_mcp ht hpre.1.symm
    · simp at hlong

/-- A terminal's own prefix locations. -/
theorem exists_location (hconf : nginxConf terms = some locs) (ht : t ∈ terms) {stem : List Char}
    (hstem : stem ∈ t.routePrefixes) :
    ∃ l ∈ locs, l.exact = false ∧ l.proxied = true ∧ l.name = stem := by
  refine ⟨t.location false stem [] none, ?_, rfl, rfl, List.append_nil stem⟩
  rw [WellNamed.locations_of_conf hconf]
  exact List.mem_append_left _ (List.mem_flatMap.mpr ⟨t, ht, List.mem_flatMap.mpr
    ⟨stem, hstem, List.mem_cons_self⟩⟩)

theorem fullStem_mem (t : Terminal) : t.fullStem ∈ t.routePrefixes := by
  unfold Terminal.routePrefixes
  split <;> simp

theorem one_lt_accountStem (t : Terminal) : 1 < t.accountStem.length := by
  simp only [Terminal.accountStem, List.length_cons, List.length_append]
  omega

/-- A request is redirected only where it names a sibling and nothing else. -/
theorem eq_instance_of_redirect (h : WellNamed terms) (hconf : nginxConf terms = some locs)
    (ht : t ∈ terms) (hl : l ∈ locs) (hname : l.name = t.accountStem ++ tail ++ ['/']) :
    ∃ u ∈ terms, t.sibling u ∧ tail = u.instanceName.toList := by
  have hends : ∀ r ∈ routeTails, r.2.getLast? ≠ some '/' := by decide
  have hlong : 1 < l.name.length := by
    have := one_lt_accountStem t
    simp only [hname, List.length_append, List.length_singleton]
    omega
  rw [List.append_assoc] at hname
  have hpre : l.name <+: t.accountStem ++ (tail ++ ['/']) := hname.symm ▸ List.prefix_rfl
  cases met_of_location h hconf ht hl hpre hlong with
  | account u r timeout _ _ _ hr _ hname' _ =>
    have heq := List.append_cancel_left (hname'.symm.trans hname)
    exact absurd (by rw [heq]; simp) (hends r hr)
  | inst u r timeout hu hsib hr _ hname' _ =>
    have heq := List.append_cancel_left (hname'.symm.trans hname)
    refine ⟨u, hu, hsib, ?_⟩
    rcases List.eq_nil_or_concat r.2 with hnil | ⟨init, c, hc⟩
    · rw [hnil] at heq
      exact (List.append_inj_left' heq rfl).symm
    · rw [List.concat_eq_append] at hc
      rw [hc, ← List.cons_append, ← List.append_assoc] at heq
      have hlast := (List.append_inj' heq rfl).2
      exact absurd (by rw [hc, List.getLast?_concat]; simpa using hlast) (hends r hr)

/-- A route with a location that is longer than the instance a request names is `compile/files` or
`terminal/restart`. -/
theorem long_route {r : Bool × List Char} (hr : r ∈ routeTails) {x : List Char} (hx : '/' ∉ x)
    (hpre : r.2 <+: x ++ '/' :: rest) (hlong : x.length < r.2.length) :
    x = "compile".toList ∨ x = "terminal".toList ∧ "restart".toList <+: rest := by
  obtain ⟨more, hmore⟩ : x ++ ['/'] <+: r.2 :=
    List.prefix_of_prefix_length_le ⟨rest, by simp⟩ hpre
      (by simpa using Nat.succ_le_of_lt hlong)
  rw [List.append_assoc, List.singleton_append] at hmore
  rw [← hmore, append_sep_prefix_iff hx hx] at hpre
  rcases routeTails_slash (e := r.1) hx (by rw [hmore]; exact hr) with ⟨hcompile, -⟩ | ⟨hterm, rfl⟩
  · exact Or.inl hcompile
  · exact Or.inr ⟨hterm, hpre.2⟩

/-- A request that names the instance meets a location of the terminal. -/
theorem choose_full (h : WellNamed terms) (hconf : nginxConf terms = some locs)
    (hclash : NoCompileSibling terms) (ht : t ∈ terms) (hroute : isRoute rest = true) :
    ∃ timeout, choose locs (t.fullStem ++ rest) =
      .handled (.terminal t.container t.port t.fullStem timeout) := by
  have hx := h.noSlash_instance ht
  have huri : t.fullStem ++ rest = t.accountStem ++ (t.instanceName.toList ++ '/' :: rest) := by
    simp [Terminal.fullStem]
  have hlen : t.fullStem.length = t.accountStem.length + t.instanceName.toList.length + 1 := by
    simp [Terminal.fullStem]
    omega
  obtain ⟨l₀, hl₀, hexact, -, hname₀⟩ := exists_location hconf ht (fullStem_mem t)
  obtain ⟨l, hl, hpre, hlong, hchoose⟩ := choose_of_prefix (t.fullStem ++ rest) hl₀ hexact
    (hname₀ ▸ List.prefix_append _ _) fun l hl hredirect => by
      rw [huri] at hredirect
      obtain ⟨u, hu, -, htail⟩ := eq_instance_of_redirect h hconf ht hl hredirect
      exact h.noSlash_instance hu (htail ▸ by simp)
  rw [hname₀, hlen] at hlong
  rw [huri] at hpre
  have hstem := one_lt_accountStem t
  rw [hchoose]
  cases met_of_location h hconf ht hl hpre (by omega) with
  | account u r timeout hu hsib hdefault hr hr' hname _ =>
    rw [hname, List.length_append] at hlong
    rcases long_route hr hx hr' (by omega) with hcompile | ⟨-, hrestart⟩
    · refine absurd (String.toList_inj.mp hcompile) ?_
      exact hclash u hu t ht hdefault ⟨hsib.1.symm, hsib.2.symm⟩
    · exact absurd hrestart (not_restart_isPrefix hroute)
  | inst u r timeout hu hsib _ hr' _ hhandler =>
    rw [append_sep_prefix_iff (h.noSlash_instance hu) hx, String.toList_inj] at hr'
    obtain rfl := h.eq_of_instance ht hu hsib hr'.1
    exact ⟨timeout, congrArg _ hhandler⟩

/-- The routes of a default instance whose own location no sibling's takes. -/
def ownRoutes : List (List Char) :=
  ["webrequest".toList, "mcp".toList, "files".toList, "terminal/restart".toList]

/-- No sibling, whose instance the route begins with, takes the request. -/
def Unclaimed (terms : List Terminal) (t : Terminal) (rest : List Char) : Prop :=
  ∀ u ∈ terms, t.sibling u → u.instanceName.toList = first '/' rest → rest ∈ ownRoutes

theorem accountStem_mem (hdefault : t.instanceName = defaultInstance) :
    t.accountStem ∈ t.routePrefixes := by
  simp [Terminal.routePrefixes, hdefault]

/-- What answers at a route of the default instance's account answers for the terminal. -/
theorem eq_of_account (h : WellNamed terms) (ht : t ∈ terms)
    (hdefault : t.instanceName = defaultInstance) {u : Terminal} (hu : u ∈ terms)
    (hsib : t.sibling u) (hdefault' : u.instanceName = defaultInstance) : u = t :=
  h.eq_of_instance ht hu hsib (hdefault'.trans hdefault.symm)

/-- The own routes have locations. -/
theorem exists_ownRoute (hconf : nginxConf terms = some locs) (ht : t ∈ terms)
    (hdefault : t.instanceName = defaultInstance) (hrest : rest ∈ ownRoutes) :
    ∃ l ∈ locs, l.name = t.accountStem ++ rest := by
  obtain ⟨route, hroute, rfl⟩ : ∃ route ∈ longRunningRoutes, rest = route.toList := by
    simp only [ownRoutes, List.mem_cons, List.not_mem_nil, or_false] at hrest
    rcases hrest with rfl | rfl | rfl | rfl
    · exact ⟨"webrequest", by decide, rfl⟩
    · exact ⟨"mcp", by decide, rfl⟩
    · exact ⟨"files", by decide, rfl⟩
    · exact ⟨"terminal/restart", by decide, rfl⟩
  refine ⟨t.location false t.accountStem route.toList (some longProxyTimeout), ?_, rfl⟩
  rw [WellNamed.locations_of_conf hconf]
  refine List.mem_append_left _ (List.mem_flatMap.mpr ⟨t, ht, List.mem_flatMap.mpr
    ⟨t.accountStem, accountStem_mem hdefault, ?_⟩⟩)
  exact List.mem_cons_of_mem _ (List.mem_cons_of_mem _ (List.mem_map.mpr ⟨route, hroute, rfl⟩))

/-- A request to the default instance by its account meets a location of it, when no sibling takes
the request. -/
theorem choose_short (h : WellNamed terms) (hconf : nginxConf terms = some locs) (ht : t ∈ terms)
    (hdefault : t.instanceName = defaultInstance) (hfree : Unclaimed terms t rest) :
    ∃ timeout, choose locs (t.accountStem ++ rest) =
      .handled (.terminal t.container t.port t.accountStem timeout) := by
  have hstem := one_lt_accountStem t
  by_cases hown : rest ∈ ownRoutes
  · obtain ⟨l₀, hl₀, hname₀⟩ := exists_ownRoute hconf ht hdefault hown
    obtain ⟨l, hl, hname, hchoose⟩ := choose_of_name hl₀ hname₀
    have hpre : l.name <+: t.accountStem ++ rest := hname.symm ▸ List.prefix_rfl
    rw [hchoose]
    cases met_of_location h hconf ht hl hpre (by rw [hname, List.length_append]; omega) with
    | account u r timeout hu hsib hdefault' _ _ _ hhandler =>
      obtain rfl := eq_of_account h ht hdefault hu hsib hdefault'
      exact ⟨timeout, congrArg _ hhandler⟩
    | inst u r timeout hu _ hr _ hname' _ =>
      -- an own route that begins with an instance is `terminal/restart`, without a location there
      have heq : u.instanceName.toList ++ '/' :: r.2 = rest :=
        List.append_cancel_left (hname'.symm.trans hname)
      have hmem : ∀ r ∈ ownRoutes, '/' ∈ r →
          r = "terminal".toList ++ '/' :: "restart".toList := by decide
      rw [← heq] at hown
      have hrestart := ((append_sep_inj (h.noSlash_instance hu) (by decide)).mp
        (hmem _ hown (by simp))).2
      have hnot : ∀ r ∈ routeTails, r.2 ≠ "restart".toList := by decide
      exact absurd hrestart (hnot r hr)
  · have hnone : ∀ u ∈ terms, t.sibling u → u.instanceName.toList ≠ first '/' rest :=
      fun u hu hsib heq => hown (hfree u hu hsib heq)
    obtain ⟨l₀, hl₀, hexact, -, hname₀⟩ := exists_location hconf ht (accountStem_mem hdefault)
    obtain ⟨l, hl, hpre, hlong, hchoose⟩ := choose_of_prefix (t.accountStem ++ rest) hl₀
      hexact (hname₀ ▸ List.prefix_append _ _) fun l hl hredirect => by
        obtain ⟨u, hu, hsib, htail⟩ := eq_instance_of_redirect h hconf ht hl hredirect
        have hfirst : first '/' rest = rest := by
          rcases eq_first_or '/' rest with ⟨heq, -⟩ | ⟨-, more, heq⟩
          · exact heq
          · exact absurd (htail ▸ heq ▸ by simp) (h.noSlash_instance hu)
        exact hnone u hu hsib (htail.symm.trans hfirst.symm)
    rw [hchoose]
    cases met_of_location h hconf ht hl hpre (by rw [hname₀] at hlong; omega) with
    | account u r timeout hu hsib hdefault' _ _ _ hhandler =>
      obtain rfl := eq_of_account h ht hdefault hu hsib hdefault'
      exact ⟨timeout, congrArg _ hhandler⟩
    | inst u r timeout hu hsib _ hpre' _ _ =>
      obtain ⟨more, rfl⟩ := hpre'
      refine absurd ?_ (hnone u hu hsib)
      rw [List.append_assoc, List.cons_append, first_append_sep (h.noSlash_instance hu)]

/-- The terminal has a location for the request of its own. -/
theorem exists_forwarded {stem uri : List Char} (hstarts : Starts locs)
    (hconf : nginxConf terms = some locs)
    (hchoose : ∃ timeout, choose locs uri = .handled (.terminal t.container t.port stem timeout)) :
    gateway terms uri = some (.forwarded t.container t.port (rewriteStem stem uri)) := by
  obtain ⟨timeout, hchoose⟩ := hchoose
  rw [gateway, hconf, Option.bind_some, if_pos hstarts, hchoose]
  rfl

/-- Where a sibling takes the request, it is not forwarded as the route it is. -/
theorem not_forwards_of_claimed (h : WellNamed terms) (hconf : nginxConf terms = some locs)
    (hclash : NoCompileSibling terms) (ht : t ∈ terms)
    (hdefault : t.instanceName = defaultInstance) (hroute : isRoute rest = true) {u : Terminal}
    (hu : u ∈ terms) (hsib : t.sibling u) (hfirst : u.instanceName.toList = first '/' rest)
    (hown : rest ∉ ownRoutes) (container : String) (port : ℕ) :
    answer (t.accountStem ++ rest) (choose locs (t.accountStem ++ rest)) ≠
      .forwarded container port ('/' :: rest) := by
  have hstem := one_lt_accountStem t
  have hx := h.noSlash_instance hu
  have hfull : u.fullStem = t.accountStem ++ (u.instanceName.toList ++ ['/']) := by
    rw [Terminal.fullStem, accountStem_of_sibling hsib]
  obtain ⟨l₀, hl₀, hexact, hproxied, hname₀⟩ := exists_location hconf hu (fullStem_mem u)
  rw [hfull] at hname₀
  rcases eq_first_or '/' rest with ⟨heq, -⟩ | ⟨-, more, heq⟩
  · -- the request lacks the last slash of the sibling's location
    rw [heq] at hfirst
    rw [choose_redirected hl₀ hexact hproxied (by rw [hname₀, hfirst, List.append_assoc])]
    · simp [answer]
    intro l hl hname
    have hpre : l.name <+: t.accountStem ++ rest := hname.symm ▸ List.prefix_rfl
    cases met_of_location h hconf ht hl hpre (by rw [hname, List.length_append]; omega) with
    | account v r timeout hv hsib' hdefault' hr _ hname' _ =>
      have hroute' : r.2 = u.instanceName.toList :=
        (List.append_cancel_left (hname'.symm.trans hname)).trans hfirst.symm
      have hroutes : ∀ r ∈ routeTails, '/' ∈ r.2 ∨ r.2 = [] ∨ r.2 = "compile".toList ∨
          r.2 ∈ ownRoutes := by decide
      rcases hroutes r hr with hslash | hnil | hcompile | hmem
      · exact hx (hroute' ▸ hslash)
      · exact (h.safe u hu _ (by simp)).1 (String.toList_inj.mp (hroute'.symm.trans hnil))
      · exact hclash t ht u hu hdefault hsib (String.toList_inj.mp (hroute'.symm.trans hcompile))
      · exact hown (hfirst ▸ hroute' ▸ hmem)
    | inst v r timeout _ _ _ _ hname' _ =>
      have hrest := List.append_cancel_left (hname'.symm.trans hname)
      exact hx (hfirst.trans hrest.symm ▸ by simp)
  · -- the sibling's location is longer than any of the default instance's
    rw [← hfirst] at heq
    obtain ⟨l, hl, hpre, hlong, hchoose⟩ := choose_of_prefix (t.accountStem ++ rest) hl₀
      hexact ⟨more, by rw [hname₀, heq]; simp⟩ fun l hl hredirect => by
        obtain ⟨v, hv, -, htail⟩ := eq_instance_of_redirect h hconf ht hl hredirect
        exact h.noSlash_instance hv (htail ▸ heq ▸ by simp)
    have hlen : t.accountStem.length + u.instanceName.toList.length < l.name.length := by
      rw [hname₀] at hlong
      simp only [List.length_append, List.length_singleton] at hlong
      omega
    rw [hchoose]
    cases met_of_location h hconf ht hl hpre (by omega) with
    | account v r timeout hv hsib' hdefault' hr hpre' hname' _ =>
      exfalso
      rw [hname', List.length_append] at hlen
      rw [heq] at hpre'
      rcases long_route hr hx hpre' (by omega) with hcompile | ⟨hterm, hrestart⟩
      · exact hclash t ht u hu hdefault hsib (String.toList_inj.mp hcompile)
      · rw [hterm] at heq
        have hrest := eq_of_terminal_restart_isPrefix hroute
          (heq ▸ (append_sep_prefix_iff (by decide) (by decide)).mpr ⟨rfl, hrestart⟩)
        exact hown (hrest ▸ by decide)
    | inst v r timeout hv hsib' _ hpre' _ hhandler =>
      rw [heq, append_sep_prefix_iff (h.noSlash_instance hv) hx] at hpre'
      rw [hhandler, answer, hpre'.1]
      intro hanswer
      have hpath := (Answer.forwarded.inj hanswer).2.2
      rcases rewriteStem_cases (t.accountStem ++ (u.instanceName.toList ++ ['/']))
        (t.accountStem ++ rest) with hsame | ⟨line, hline, hle⟩
      · have := congrArg List.length (hsame.symm.trans hpath)
        simp only [List.length_append, List.length_cons] at this
        omega
      · rw [hpath, List.cons.injEq] at hline
        simp only [List.length_append, List.length_singleton, ← hline.2] at hle
        omega

end Requests

/-- A request for a route is forwarded to the terminal it names exactly when no default instance has
a sibling called `compile`, the route has no line feed, and, if the request names the default
instance by its account only, the route does not begin with the name of a sibling, or is one of the
default instance's own locations. -/
theorem forwards_iff {terms : List Terminal} (h : WellNamed terms) {t : Terminal} (ht : t ∈ terms)
    {form : Form} (hform : t.named form) {rest : List Char} (hroute : isRoute rest = true) :
    Forwards terms t form rest ↔ NoCompileSibling terms ∧ '\n' ∉ rest ∧
      (form = .short → Unclaimed terms t rest) := by
  obtain ⟨locs, hconf⟩ := Option.isSome_iff_exists.mp h.accepted
  by_cases hclash : NoCompileSibling terms
  · have hstarts := (h.starts_iff hconf).mpr hclash
    have hiff : ∀ stem : List Char, (∃ timeout, choose locs (('/' :: stem) ++ rest) =
        .handled (.terminal t.container t.port ('/' :: stem) timeout)) → stem ≠ [] →
        (gateway terms (('/' :: stem) ++ rest) =
          some (.forwarded t.container t.port ('/' :: rest)) ↔ '\n' ∉ rest) := by
      intro stem hchoose hne
      rw [exists_forwarded hstarts hconf hchoose, ← rewriteStem_eq_iff hne]
      simp
    unfold Forwards
    cases form with
    | full =>
      simp only [reduceCtorEq, false_implies, and_true, hclash, true_and]
      exact hiff _ (choose_full h hconf hclash ht hroute) (by simp)
    | short =>
      simp only [forall_const, hclash, true_and]
      by_cases hfree : Unclaimed terms t rest
      · simp only [hfree, and_true]
        exact hiff _ (choose_short h hconf ht hform hfree) (by simp)
      · refine iff_of_false (fun hforward => ?_) fun hand => hfree hand.2
        simp only [Unclaimed, not_forall] at hfree
        obtain ⟨u, hu, hsib, hfirst, hown⟩ := hfree
        rw [gateway, hconf, Option.bind_some, if_pos hstarts, Option.some.injEq] at hforward
        exact not_forwards_of_claimed h hconf hclash ht hform hroute hu hsib hfirst hown _ _
          hforward
  · refine iff_of_false (fun hforward => ?_) fun hand => hclash hand.1
    rw [Forwards, gateway, hconf, Option.bind_some,
      if_neg (mt (h.starts_iff hconf).mp hclash)] at hforward
    cases hforward

/-- The default instance of an account, and one called `backtest`. -/
def backtestSibling : List Terminal :=
  [⟨"acme", "demo", none, "mt5", 6542⟩, ⟨"acme", "demo", some "backtest", "mt5", 6543⟩]

theorem wellNamed_backtestSibling : WellNamed backtestSibling where
  accepted := by decide
  safe := by decide
  distinct := by decide

/-- A poll of a backtest of the default instance goes to the sibling, as another route. -/
theorem not_forwards : ¬ ∀ terms, WellNamed terms → ∀ t ∈ terms, ∀ form, t.named form →
    ∀ rest, isRoute rest = true → Forwards terms t form rest := by
  intro h
  have hforward := h backtestSibling wellNamed_backtestSibling _ List.mem_cons_self .short rfl
    "backtest/1f".toList (by decide)
  have hanswer : gateway backtestSibling "/acme/demo/backtest/1f".toList =
      some (.forwarded "mt5" 6543 "/1f".toList) := by decide
  have hboth : some (Answer.forwarded "mt5" 6543 "/1f".toList) = some (.forwarded "mt5" 6542 _) :=
    hanswer.symm.trans hforward
  simp at hboth

/-- A request by the full name arrives, and one by the account for a route of another name. -/
theorem forwards_backtestSibling :
    (∀ t ∈ backtestSibling, Forwards backtestSibling t .full "backtest/1f".toList) ∧
      Forwards backtestSibling ⟨"acme", "demo", none, "mt5", 6542⟩ .short "orders/7".toList := by
  have hclash : NoCompileSibling backtestSibling := by
    unfold NoCompileSibling
    decide
  refine ⟨fun t ht => ?_, ?_⟩
  · have hform : t.named .full := trivial
    exact (forwards_iff wellNamed_backtestSibling ht hform (by decide)).mpr
      ⟨hclash, by decide, nofun⟩
  · have hform : Terminal.named ⟨"acme", "demo", none, "mt5", 6542⟩ .short := rfl
    refine (forwards_iff wellNamed_backtestSibling List.mem_cons_self hform (by decide)).mpr
      ⟨hclash, by decide, fun _ => ?_⟩
    unfold Unclaimed
    decide

end Gateway

import Mathlib.Data.List.MinMax
import Mathlib.Data.List.TakeWhile

/-!
# nginx locations

How nginx picks the `location` block that handles a request, on the decoded and normalized URI: an
exact location of that name, else a prefix location of that very name, else, where a prefix location
that ends in `/` and proxies lacks only that `/`, a redirect to it, else the longest prefix
location. nginx refuses to start with two exact or two prefix locations of one name.

`choose_of_prefix` and `choose_of_name` say what is chosen by the locations there are, and
`choose_redirected` when the answer is a redirect.
-/

namespace Nginx

variable {η : Type*}

/-- A `location` block with the handler `η`. -/
structure Location (η : Type*) where
  exact : Bool
  name : List Char
  /-- The handler is `proxy_pass`. -/
  proxied : Bool
  handler : η

/-- What a request meets. -/
inductive Choice (η : Type*)
  | handled (h : η)
  | redirected
  | unmatched

/-- The location nginx picks for a URI. -/
def choose (locs : List (Location η)) (uri : List Char) : Choice η :=
  match locs.find? fun l => l.exact && l.name == uri with
  | some l => .handled l.handler
  | none =>
    match locs.find? fun l => !l.exact && l.name == uri with
    | some l => .handled l.handler
    | none =>
      if locs.any fun l => !l.exact && l.proxied && l.name == uri ++ ['/'] then .redirected
      else
        match (locs.filter fun l => !l.exact && l.name.isPrefixOf uri).argmax
          fun l => l.name.length with
        | some l => .handled l.handler
        | none => .unmatched

/-- nginx starts with these locations. -/
def Starts (locs : List (Location η)) : Prop :=
  (locs.map fun l => (l.exact, l.name)).Nodup

instance (locs : List (Location η)) : Decidable (Starts locs) :=
  inferInstanceAs (Decidable (List.Nodup _))

/-- `rewrite ^stem(.*)$ /$1 break`, for a `stem` without metacharacters. A `.` matches no line feed,
and `$` matches at the end and before a line feed at the end. -/
def rewriteStem (stem uri : List Char) : List Char :=
  if stem.isPrefixOf uri then
    let rest := uri.drop stem.length
    let line := rest.takeWhile (· ≠ '\n')
    if rest = line ∨ rest = line ++ ['\n'] then '/' :: line else uri
  else uri

/-- The rewrite takes the stem off exactly when no line feed follows it. -/
theorem rewriteStem_eq_iff {stem rest : List Char} (hstem : stem ≠ []) :
    rewriteStem ('/' :: stem) ('/' :: stem ++ rest) = '/' :: rest ↔ '\n' ∉ rest := by
  have hpre : ('/' :: stem).isPrefixOf ('/' :: stem ++ rest) = true :=
    List.isPrefixOf_iff_prefix.mpr (List.prefix_append _ _)
  have hline : rest.takeWhile (· ≠ '\n') = rest ↔ '\n' ∉ rest := by
    rw [List.takeWhile_eq_self_iff]
    exact ⟨fun h hmem => by simpa using h _ hmem,
      fun h x hx => by simpa using ne_of_mem_of_not_mem hx h⟩
  rw [rewriteStem, if_pos hpre, List.drop_left, ← hline]
  dsimp only
  split
  · exact ⟨fun h => (List.cons.inj h).2, fun h => by rw [h]⟩
  next hother =>
    -- the URI passes unchanged, and is too long
    refine ⟨fun h => ?_, fun h => absurd (Or.inl h.symm) hother⟩
    rw [List.cons_append, List.cons.injEq] at h
    have hlen := congrArg List.length h.2
    rw [List.length_append] at hlen
    exact absurd (List.length_eq_zero_iff.mp (by omega)) hstem

/-- What is left after a rewrite is the URI, or a slash and less than follows the stem. -/
theorem rewriteStem_cases (stem uri : List Char) : rewriteStem stem uri = uri ∨
    ∃ line, rewriteStem stem uri = '/' :: line ∧ stem.length + line.length ≤ uri.length := by
  unfold rewriteStem
  split
  next hpre =>
    obtain ⟨rest, rfl⟩ := List.isPrefixOf_iff_prefix.mp hpre
    dsimp only
    split
    · refine Or.inr ⟨_, rfl, ?_⟩
      rw [List.drop_left, List.length_append, Nat.add_le_add_iff_left]
      exact (List.takeWhile_prefix _).length_le
    · exact Or.inl rfl
  next => exact Or.inl rfl

variable {locs : List (Location η)} {uri : List Char} {l₀ : Location η}

/-- A location of the URI's name is chosen before anything else. -/
theorem choose_of_name (hmem : l₀ ∈ locs) (hname : l₀.name = uri) :
    ∃ l ∈ locs, l.name = uri ∧ choose locs uri = .handled l.handler := by
  unfold choose
  split
  next l hl =>
    have hp := List.find?_some hl
    simp only [Bool.and_eq_true, beq_iff_eq] at hp
    exact ⟨l, List.mem_of_find?_eq_some hl, hp.2, rfl⟩
  next hexact =>
    split
    next l hl =>
      have hp := List.find?_some hl
      simp only [Bool.and_eq_true, beq_iff_eq] at hp
      exact ⟨l, List.mem_of_find?_eq_some hl, hp.2, rfl⟩
    next hinclusive =>
      have h₁ := List.find?_eq_none.mp hexact l₀ hmem
      have h₂ := List.find?_eq_none.mp hinclusive l₀ hmem
      simp [hname] at h₁ h₂
      simp [h₁] at h₂

/-- The location chosen is at least as long as any prefix location that matches, unless the answer
is a redirect. -/
theorem choose_of_prefix (uri : List Char) (hmem : l₀ ∈ locs) (hexact : l₀.exact = false)
    (hname : l₀.name <+: uri) (hredirect : ∀ l ∈ locs, l.name ≠ uri ++ ['/']) :
    ∃ l ∈ locs, l.name <+: uri ∧ l₀.name.length ≤ l.name.length ∧
      choose locs uri = .handled l.handler := by
  by_cases hequal : ∃ l ∈ locs, l.name = uri
  · obtain ⟨l, hl, hluri⟩ := hequal
    obtain ⟨l', hl', hname', hchoose⟩ := choose_of_name hl hluri
    exact ⟨l', hl', hname' ▸ List.prefix_rfl, hname' ▸ hname.length_le, hchoose⟩
  · simp only [not_exists, not_and] at hequal
    have h₁ : (locs.find? fun l => l.exact && l.name == uri) = none :=
      List.find?_eq_none.mpr fun l hl => by simp [hequal l hl]
    have h₂ : (locs.find? fun l => !l.exact && l.name == uri) = none :=
      List.find?_eq_none.mpr fun l hl => by simp [hequal l hl]
    have h₃ : (locs.any fun l => !l.exact && l.proxied && l.name == uri ++ ['/']) = false :=
      List.any_eq_false.mpr fun l hl => by simp [hredirect l hl]
    have hcand : l₀ ∈ locs.filter fun l => !l.exact && l.name.isPrefixOf uri :=
      List.mem_filter.mpr ⟨hmem, by simpa [hexact] using hname⟩
    unfold choose
    rw [h₁, h₂, h₃]
    simp only [Bool.false_eq_true, if_false]
    split
    next l hl =>
      have hlmem := List.argmax_mem (f := fun l : Location η => l.name.length) hl
      obtain ⟨hin, hp⟩ := List.mem_filter.mp hlmem
      simp only [Bool.and_eq_true, List.isPrefixOf_iff_prefix] at hp
      exact ⟨l, hin, hp.2, List.le_of_mem_argmax (f := fun l => l.name.length) hcand hl, rfl⟩
    next hnone => simp [List.argmax_eq_none.mp hnone] at hcand

/-- A request that lacks the last `/` of a proxied location, and is no location itself, is
redirected. -/
theorem choose_redirected (hmem : l₀ ∈ locs) (hexact : l₀.exact = false)
    (hproxied : l₀.proxied = true) (hname : l₀.name = uri ++ ['/'])
    (hnone : ∀ l ∈ locs, l.name ≠ uri) : choose locs uri = .redirected := by
  have h₁ : (locs.find? fun l => l.exact && l.name == uri) = none :=
    List.find?_eq_none.mpr fun l hl => by simp [hnone l hl]
  have h₂ : (locs.find? fun l => !l.exact && l.name == uri) = none :=
    List.find?_eq_none.mpr fun l hl => by simp [hnone l hl]
  have h₃ : (locs.any fun l => !l.exact && l.proxied && l.name == uri ++ ['/']) = true :=
    List.any_eq_true.mpr ⟨l₀, hmem, by simp [hexact, hproxied, hname]⟩
  unfold choose
  rw [h₁, h₂, h₃]
  rfl

end Nginx

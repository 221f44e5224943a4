import Mathlib.Data.List.Infix
import Mathlib.Tactic.Ring

/-!
# Searches through a window that is widened

A search asks for the items of a window, and as long as they are too few it asks again for a window
of twice the width, at most so many times. A query that fails ends it, and so does one that is not
answered, which leaves it with nothing.

It keeps what its queries returned if and only if none of those that it makes fails, and none that
is not answered comes after one that returned something (`keeps_iff`).

The windows are parts of a `History`, which is sorted by time: what is inside one is an initial part
of what is not before it (`within_prefix`) and a final part of what is not after it
(`within_suffix`).
-/

namespace Widening

variable {ε α : Type*}

/-! ## Histories -/

/-- Items in the order of their times. -/
structure History (time : α → ℤ) where
  items : List α
  sorted : items.Pairwise fun a b => time a ≤ time b

namespace History

variable {time : α → ℤ} (history : History time) {lo hi lo' hi' : ℤ}

/-- The items of a window. -/
def within (lo hi : ℤ) : List α := history.items.filter fun a => lo ≤ time a ∧ time a ≤ hi

/-- The items that are not before an instant. -/
def since (lo : ℤ) : List α := history.items.filter fun a => lo ≤ time a

/-- The items that are not after an instant. -/
def upTo (hi : ℤ) : List α := history.items.filter fun a => time a ≤ hi

theorem mem_within {a : α} :
    a ∈ history.within lo hi ↔ a ∈ history.items ∧ lo ≤ time a ∧ time a ≤ hi := by
  rw [within, List.mem_filter, decide_eq_true_eq]

theorem filter_le_prefix {l : List α} (hl : l.Pairwise fun a b => time a ≤ time b) :
    l.filter (fun a => time a ≤ hi) <+: l := by
  induction l with
  | nil => exact List.prefix_refl _
  | cons a l ih =>
    rw [List.pairwise_cons] at hl
    by_cases ha : time a ≤ hi
    · rw [List.filter_cons_of_pos (by simpa using ha), List.prefix_cons_inj]
      exact ih hl.2
    · -- the items after one that is too late are too late
      have hnone : (a :: l).filter (fun a => time a ≤ hi) = [] := by
        rw [List.filter_eq_nil_iff]
        intro b hb
        have hab : time a ≤ time b := (List.mem_cons.mp hb).elim (fun h => h ▸ le_rfl) (hl.1 b)
        simp only [decide_eq_true_eq]
        omega
      rw [hnone]
      exact List.nil_prefix

theorem filter_ge_suffix {l : List α} (hl : l.Pairwise fun a b => time a ≤ time b) :
    l.filter (fun a => lo ≤ time a) <:+ l := by
  induction l with
  | nil => exact List.suffix_refl _
  | cons a l ih =>
    rw [List.pairwise_cons] at hl
    by_cases ha : lo ≤ time a
    · -- the items after one that is late enough are late enough
      have hall : (a :: l).filter (fun a => lo ≤ time a) = a :: l := by
        rw [List.filter_eq_self]
        intro b hb
        have hab : time a ≤ time b := (List.mem_cons.mp hb).elim (fun h => h ▸ le_rfl) (hl.1 b)
        simp only [decide_eq_true_eq]
        omega
      rw [hall]
    · rw [List.filter_cons_of_neg (by simpa using ha)]
      exact (ih hl.2).trans (List.suffix_cons a l)

theorem within_prefix : history.within lo hi <+: history.since lo := by
  have hsplit : history.within lo hi = (history.since lo).filter fun a => time a ≤ hi := by
    rw [within, since, List.filter_filter]
    refine List.filter_congr fun a _ => ?_
    rw [Bool.decide_and, Bool.and_comm]
  rw [hsplit]
  exact filter_le_prefix (history.sorted.filter _)

theorem within_suffix : history.within lo hi <:+ history.upTo hi := by
  have hsplit : history.within lo hi = (history.upTo hi).filter fun a => lo ≤ time a := by
    rw [within, upTo, List.filter_filter]
    exact List.filter_congr fun a _ => Bool.decide_and _ _
  rw [hsplit]
  exact filter_ge_suffix (history.sorted.filter _)

/-- A wider window has no fewer items. -/
theorem length_within_le (hlo : lo' ≤ lo) (hhi : hi ≤ hi') :
    (history.within lo hi).length ≤ (history.within lo' hi').length := by
  apply List.Sublist.length_le
  apply List.monotone_filter_right
  intro a ha
  simp only [decide_eq_true_eq] at ha ⊢
  omega

end History

/-! ## Searches -/

/-- The items that each query of a search returned, and its result. -/
structure Search (ε α : Type*) where
  returned : List (List α)
  result : Except ε (List α)

namespace Search

/-- A search with a query before. -/
def after (items : List α) (s : Search ε α) : Search ε α := ⟨items :: s.returned, s.result⟩

/-- The largest number of items that a query returned. -/
def most (s : Search ε α) : ℕ := (s.returned.map List.length).foldr max 0

/-- It returns something with `P`, no more than it wants, and no less than it wants or a query
returned. -/
def Keeps (s : Search ε α) (count : ℕ) (P : List α → Prop) : Prop :=
  ∃ found, s.result = .ok found ∧ P found ∧ found.length ≤ count ∧ min count s.most ≤ found.length

@[simp]
theorem most_after (items : List α) (s : Search ε α) :
    (s.after items).most = max items.length s.most := rfl

@[simp]
theorem result_after (items : List α) (s : Search ε α) : (s.after items).result = s.result := rfl

/-- Each item of the result may be answered in another form. -/
theorem keeps_map {β : Type*} (f : α → β) {Q : List β → Prop} {s : Search ε α} {count : ℕ} :
    (∃ rows, s.result.map (List.map f) = .ok rows ∧ Q rows ∧ rows.length ≤ count ∧
      min count s.most ≤ rows.length) ↔ s.Keeps count fun found => Q (found.map f) := by
  constructor
  · rintro ⟨rows, hrows, hQ, hle, hmost⟩
    rcases hresult : s.result with e | found
    · rw [hresult] at hrows
      cases hrows
    · rw [hresult] at hrows
      obtain rfl := Except.ok.inj hrows
      rw [List.length_map] at hle hmost
      exact ⟨found, hresult, hQ, hle, hmost⟩
  · rintro ⟨found, hresult, hQ, hle, hmost⟩
    refine ⟨found.map f, by rw [hresult]; rfl, hQ, ?_, ?_⟩
    · rwa [List.length_map]
    · rwa [List.length_map]

end Search

/-- Ask for the window of a width, and if it has too few items for one of twice the width. The
arguments are how many attempts are left, the number of the next, its width, and what is found so
far. -/
def search (ask : ℕ → ℕ → Except ε (Option (List α))) (count : ℕ) (cut : List α → List α) :
    ℕ → ℕ → ℕ → List α → Search ε α
  | 0, _, _, found => ⟨[], .ok found⟩
  | attempts + 1, i, width, _ =>
    match ask i width with
    | .error e => ⟨[], .error e⟩
    | .ok none => ⟨[], .ok []⟩
    | .ok (some items) =>
      if count ≤ items.length then ⟨[items], .ok (cut items)⟩
      else (search ask count cut attempts (i + 1) (2 * width) items).after items

/-- What the attempts from a number and a width on come to. -/
def attempt (ask : ℕ → ℕ → Except ε (Option (List α))) (i width j : ℕ) :
    Except ε (Option (List α)) :=
  ask (i + j) (2 ^ j * width)

/-- Items are returned, too few of them: another attempt is made. -/
def Short (count : ℕ) (r : Except ε (Option (List α))) : Prop :=
  ∃ items, r = .ok (some items) ∧ items.length < count

/-- None of the attempts that are made fails, and one that is not answered comes only after such
that returned nothing. -/
def Heard (r : ℕ → Except ε (Option (List α))) (count attempts : ℕ) (found : List α) : Prop :=
  ∀ i < attempts, (∀ j < i, Short count (r j)) →
    ∃ answer, r i = .ok answer ∧
      (answer = none → found = [] ∧ ∀ j < i, ∀ items, r j = .ok (some items) → items = [])

variable {ask : ℕ → ℕ → Except ε (Option (List α))} {count attempts i width : ℕ}
  {cut : List α → List α} {P : List α → Prop} {found items : List α}
  {r : ℕ → Except ε (Option (List α))}

theorem search_of_error {e : ε} (h : ask i width = .error e) :
    search ask count cut (attempts + 1) i width found = ⟨[], .error e⟩ := by
  simp only [search, h]

theorem search_of_none (h : ask i width = .ok none) :
    search ask count cut (attempts + 1) i width found = ⟨[], .ok []⟩ := by
  simp only [search, h]

theorem search_of_enough (h : ask i width = .ok (some items)) (henough : count ≤ items.length) :
    search ask count cut (attempts + 1) i width found = ⟨[items], .ok (cut items)⟩ := by
  simp only [search, h, if_pos henough]

theorem search_of_short (h : ask i width = .ok (some items)) (hshort : items.length < count) :
    search ask count cut (attempts + 1) i width found =
      (search ask count cut attempts (i + 1) (2 * width) items).after items := by
  simp only [search, h, if_neg (Nat.not_le.mpr hshort)]

theorem not_short_error {e : ε} : ¬ Short count (.error e : Except ε (Option (List α))) := by
  rintro ⟨_, ⟨⟩, _⟩

theorem not_short_none : ¬ Short count (.ok none : Except ε (Option (List α))) := by
  rintro ⟨_, ⟨⟩, _⟩

theorem not_short_of_le {items : List α} (h : count ≤ items.length) :
    ¬ Short count (.ok (some items) : Except ε (Option (List α))) := by
  rintro ⟨_, ⟨⟩, hlt⟩
  exact absurd h (Nat.not_le.mpr hlt)

theorem attempt_zero : attempt ask i width 0 = ask i width := by
  rw [attempt, Nat.pow_zero, Nat.one_mul, Nat.add_zero]

theorem attempt_succ (j : ℕ) :
    attempt ask i width (j + 1) = attempt ask (i + 1) (2 * width) j := by
  have hwidth : 2 ^ (j + 1) * width = 2 ^ j * (2 * width) := by ring
  rw [attempt, attempt, hwidth, Nat.add_right_comm, Nat.add_assoc]

/-- After an attempt that returns too little the next ones count. -/
theorem heard_succ (h : r 0 = .ok (some items)) (hshort : items.length < count)
    (hfound : found.length ≤ items.length) :
    Heard r count (attempts + 1) found ↔ Heard (fun j => r (j + 1)) count attempts items := by
  constructor
  · intro hheard i hi hbefore
    have hall : ∀ j < i + 1, Short count (r j) := by
      rintro (_ | j) hj
      · exact ⟨items, h, hshort⟩
      · exact hbefore j (by omega)
    obtain ⟨answer, hanswer, hnone⟩ := hheard (i + 1) (by omega) hall
    refine ⟨answer, hanswer, fun hn => ⟨?_, fun j hj => ?_⟩⟩
    · exact (hnone hn).2 0 (by omega) items h
    · exact (hnone hn).2 (j + 1) (by omega)
  · rintro hheard (_ | i) hi hbefore
    · exact ⟨some items, h, fun hn => absurd hn (Option.some_ne_none items)⟩
    obtain ⟨answer, hanswer, hnone⟩ :=
      hheard i (by omega) fun j hj => hbefore (j + 1) (by omega)
    refine ⟨answer, hanswer, fun hn => ?_⟩
    obtain ⟨rfl, hlater⟩ := hnone hn
    refine ⟨List.length_eq_zero_iff.mp (Nat.le_zero.mp hfound), ?_⟩
    rintro (_ | j) hj later hj'
    · rw [h] at hj'
      injection hj' with hj'
      exact (Option.some.inj hj').symm
    · exact hlater j (by omega) later hj'

/-- An attempt that ends the search settles whether it is heard. -/
theorem heard_iff_of_not_short (h : ¬ Short count (r 0)) :
    Heard r count (attempts + 1) found ↔ ∃ answer, r 0 = .ok answer ∧ (answer = none → found = [])
    := by
  constructor
  · intro hheard
    obtain ⟨answer, hanswer, hnone⟩ := hheard 0 (by omega) fun j hj => absurd hj (Nat.not_lt_zero j)
    exact ⟨answer, hanswer, fun hn => (hnone hn).1⟩
  · rintro ⟨answer, hanswer, hnone⟩ (_ | i) - hbefore
    · exact ⟨answer, hanswer, fun hn => ⟨hnone hn, fun j hj => absurd hj (Nat.not_lt_zero j)⟩⟩
    · exact absurd (hbefore 0 (by omega)) h

/-- A search loses nothing if and only if it is heard. It starts here with something that is found:
the induction is on the attempts that are left. -/
theorem keeps_iff_from (hcount : 0 < count) (hnil : P [])
    (hcut : ∀ items : List α, count ≤ items.length → (cut items).length = count)
    (hP : ∀ j items, attempt ask i width j = .ok (some items) → P items ∧ P (cut items))
    (hmono : ∀ j items items', attempt ask i width j = .ok (some items) →
      attempt ask i width (j + 1) = .ok (some items') → items.length ≤ items'.length)
    (hfound : P found) (hshort : found.length < count)
    (hfirst : ∀ items, attempt ask i width 0 = .ok (some items) → found.length ≤ items.length) :
    (∃ final, (search ask count cut attempts i width found).result = .ok final ∧ P final ∧
      final.length ≤ count ∧
      min count (max found.length (search ask count cut attempts i width found).most) ≤
        final.length) ↔
    Heard (attempt ask i width) count attempts found := by
  induction attempts generalizing i width found with
  | zero =>
    refine iff_of_true ⟨found, rfl, hfound, hshort.le, ?_⟩ fun j hj => absurd hj (Nat.not_lt_zero j)
    show min count (max found.length 0) ≤ found.length
    omega
  | succ attempts ih =>
    rcases hask : ask i width with e | answer
    · -- the query fails
      have hended : ¬ Short count (attempt ask i width 0) := by
        rw [attempt_zero, hask]
        exact not_short_error
      rw [search_of_error hask, heard_iff_of_not_short hended, attempt_zero, hask]
      constructor
      · rintro ⟨final, ⟨⟩, -⟩
      · rintro ⟨answer, ⟨⟩, -⟩
    rcases answer with _ | items
    · -- it is not answered: whatever was found is gone
      have hended : ¬ Short count (attempt ask i width 0) := by
        rw [attempt_zero, hask]
        exact not_short_none
      rw [search_of_none hask, heard_iff_of_not_short hended, attempt_zero, hask]
      constructor
      · rintro ⟨final, ⟨⟩, -, -, hmost⟩
        change min count (max found.length 0) ≤ 0 at hmost
        exact ⟨none, rfl, fun _ => List.length_eq_zero_iff.mp (by omega)⟩
      · rintro ⟨answer, ⟨⟩, hnone⟩
        obtain rfl := hnone rfl
        exact ⟨[], rfl, hnil, Nat.zero_le _, Nat.min_le_right _ _⟩
    have hzero : attempt ask i width 0 = .ok (some items) := by rw [attempt_zero, hask]
    obtain ⟨hPitems, hPcut⟩ := hP 0 items hzero
    have hle := hfirst items hzero
    rcases Nat.lt_or_ge items.length count with hless | henough
    · -- it has too little: what the next attempts find is no less
      rw [search_of_short hask hless, Search.result_after, Search.most_after, ← Nat.max_assoc,
        Nat.max_eq_right hle, heard_succ hzero hless hle]
      simp only [attempt_succ]
      apply ih
      · exact fun j xs h => hP (j + 1) xs (by rw [attempt_succ, h])
      · exact fun j xs ys h h' =>
          hmono (j + 1) xs ys (by rw [attempt_succ, h]) (by rw [attempt_succ, h'])
      · exact hPitems
      · exact hless
      · exact fun ys h => hmono 0 items ys hzero (by rw [attempt_succ, h])
    · -- it has enough
      have hended : ¬ Short count (attempt ask i width 0) := by
        rw [hzero]
        exact not_short_of_le henough
      rw [search_of_enough hask henough, heard_iff_of_not_short hended]
      refine iff_of_true ⟨cut items, rfl, hPcut, (hcut items henough).le, ?_⟩
        ⟨some items, hzero, fun hn => absurd hn (Option.some_ne_none items)⟩
      rw [hcut items henough]
      exact Nat.min_le_left _ _

/-- A search loses nothing if and only if it is heard. -/
theorem keeps_iff (hcount : 0 < count) (hnil : P [])
    (hcut : ∀ items : List α, count ≤ items.length → (cut items).length = count)
    (hP : ∀ j items, attempt ask 0 width j = .ok (some items) → P items ∧ P (cut items))
    (hmono : ∀ j items items', attempt ask 0 width j = .ok (some items) →
      attempt ask 0 width (j + 1) = .ok (some items') → items.length ≤ items'.length) :
    (search ask count cut attempts 0 width []).Keeps count P ↔
      Heard (attempt ask 0 width) count attempts [] := by
  rw [← keeps_iff_from hcount hnil hcut hP hmono hnil hcount fun items _ => Nat.zero_le _]
  simp only [Search.Keeps, List.length_nil, Nat.zero_max]

/-! ## Searches that ask for windows -/

/-- What a search gets whose queries are answered by the items of a window or by nothing, and fail
if the window cannot be asked for. -/
def answered (takes : ℕ → Prop) [DecidablePred takes] (answers : ℕ → Bool) (window : ℕ → List α)
    (e : ε) (j : ℕ) : Except ε (Option (List α)) :=
  if takes j then .ok (if answers j then some (window j) else none) else .error e

/-- A query is made if the ones before are answered with too little. Every window that is asked for
can be asked for, and a query without an answer comes only after such that returned nothing. -/
def NoneLost (takes : ℕ → Prop) (answers : ℕ → Bool) (window : ℕ → List α) (count attempts : ℕ) :
    Prop :=
  ∀ i < attempts, (∀ j < i, takes j ∧ answers j = true ∧ (window j).length < count) →
    takes i ∧ (answers i = false → ∀ j < i, window j = [])

variable {takes : ℕ → Prop} [DecidablePred takes] {answers : ℕ → Bool} {window : ℕ → List α} {e : ε}

theorem answered_eq_some {j : ℕ} :
    answered takes answers window e j = .ok (some items) ↔
      takes j ∧ answers j = true ∧ window j = items := by
  by_cases htakes : takes j <;> by_cases hanswers : answers j = true <;>
    simp [answered, htakes, hanswers]

theorem short_answered {j : ℕ} :
    Short count (answered takes answers window e j) ↔
      takes j ∧ answers j = true ∧ (window j).length < count := by
  constructor
  · rintro ⟨items, hitems, hlt⟩
    obtain ⟨htakes, hanswers, rfl⟩ := answered_eq_some.mp hitems
    exact ⟨htakes, hanswers, hlt⟩
  · rintro ⟨htakes, hanswers, hlt⟩
    exact ⟨window j, answered_eq_some.mpr ⟨htakes, hanswers, rfl⟩, hlt⟩

theorem heard_answered :
    Heard (answered takes answers window e) count attempts [] ↔
      NoneLost takes answers window count attempts := by
  simp only [Heard, NoneLost, short_answered, answered_eq_some]
  refine forall₂_congr fun i _ => forall_congr' fun hbefore => ?_
  constructor
  · rintro ⟨answer, hanswer, hnone⟩
    have htakes : takes i := by
      by_contra h
      rw [answered, if_neg h] at hanswer
      cases hanswer
    refine ⟨htakes, fun hanswers j hj => ?_⟩
    rw [answered, if_pos htakes, hanswers] at hanswer
    obtain ⟨-, hempty⟩ := hnone (Except.ok.inj hanswer).symm
    obtain ⟨htakes', hanswers', -⟩ := hbefore j hj
    exact hempty j hj (window j) ⟨htakes', hanswers', rfl⟩
  · rintro ⟨htakes, hempty⟩
    refine ⟨_, if_pos htakes, fun hnone => ⟨trivial, ?_⟩⟩
    rintro j hj _ ⟨-, -, rfl⟩
    apply hempty _ j hj
    by_contra hanswers
    rw [if_pos (by simpa using hanswers)] at hnone
    exact Option.some_ne_none _ hnone

/-- A search through windows that grow loses nothing if and only if no window is lost. -/
theorem keeps_iff_noneLost (hcount : 0 < count)
    (hask : attempt ask 0 width = answered takes answers window e) (hnil : P [])
    (hcut : ∀ items : List α, count ≤ items.length → (cut items).length = count)
    (hP : ∀ j, P (window j) ∧ P (cut (window j)))
    (hmono : ∀ j, (window j).length ≤ (window (j + 1)).length) :
    (search ask count cut attempts 0 width []).Keeps count P ↔
      NoneLost takes answers window count attempts := by
  rw [keeps_iff hcount hnil hcut, hask, heard_answered]
  · intro j items hitems
    rw [hask, answered_eq_some] at hitems
    obtain ⟨-, -, rfl⟩ := hitems
    exact hP j
  · intro j items items' hitems hitems'
    rw [hask, answered_eq_some] at hitems hitems'
    obtain ⟨-, -, rfl⟩ := hitems
    obtain ⟨-, -, rfl⟩ := hitems'
    exact hmono j

end Widening

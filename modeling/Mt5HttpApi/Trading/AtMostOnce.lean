import Mt5HttpApi.Trading.CreateOrder

/-!
# A client order id is placed at most once

`OneOrder` says that `create_order` does not send for an id that the account has an order of from
the last seven days. The lookup reads one place after another while orders move, always to a place
that is read later, so an order that was there when the lookup began is found
(`Desk.Searched`).

A read that answers `None` is taken for one without items. `atMostOnce` is for the runs in which
such a read does not hide an order of the id (`SeesOrders`), and `not_atMostOnce` sends the same
order twice in a run in which it does.
-/

namespace Trading

open Transition

variable {O : Conversions} {s t : Desk} {a : Act} {cid : String}

/-- An order of the id, sent at most seven days before `start`. -/
def Order.RecentOf (order : Order) (cid : String) (start : ℤ) : Prop :=
  order.clientOrderId = some cid ∧ start - clientOrderIdLookbackSeconds ≤ order.sentAt

instance (order : Order) (cid : String) (start : ℤ) : Decidable (order.RecentOf cid start) :=
  inferInstanceAs (Decidable (_ ∧ _))

theorem Order.RecentOf.mono {order : Order} {start now : ℤ} (h : order.RecentOf cid now)
    (hle : start ≤ now) : order.RecentOf cid start :=
  ⟨h.1, by have := h.2; omega⟩

/-- The account has no order of the id from the last seven days. -/
def Desk.Unplaced (s : Desk) (cid : String) : Prop :=
  ∀ order ∈ s.account, ¬ order.RecentOf cid s.now

/-- When the handler is at `order_send` for an id, the account has no order of it from the last
seven days. -/
def OneOrder (s : Desk) : Prop :=
  ∀ out cid, s.call = .sending out → out.cid = some cid → s.Unplaced cid

/-- The property over all runs from an account of others, when each step meets `ok`. -/
def AtMostOnce (O : Conversions) (ok : Desk → Act → Prop) : Prop :=
  ∀ s₀ s, s₀.Opens → RunOf (deskStep O) ok s₀ s → OneOrder s

/-- A read of the lookup that answers `None` hides no order of the id from the last seven days. -/
def SeesOrders (s : Desk) (a : Act) : Prop :=
  match s.call, a with
  | .reading place _ cid start, .read false =>
    ∀ order ∈ s.account, order.place = place → ¬ order.RecentOf cid start
  | _, _ => True

/-! ## What a step does -/

/-- The clock does not go back, and an order of the account is an earlier one that may have moved
on, or a new one: of somebody else, or of a send that ends the handler. -/
structure Desk.Later (s t : Desk) : Prop where
  now : s.now ≤ t.now
  orders : ∀ order ∈ t.account,
    (order.sentAt = s.now ∧ (order.clientOrderId = none ∨ t.call = .idle)) ∨
    ∃ earlier ∈ s.account, earlier.clientOrderId = order.clientOrderId ∧
      earlier.sentAt = order.sentAt ∧ earlier.place.rank ≤ order.place.rank

theorem Desk.Later.of_account (hnow : s.now ≤ t.now) (haccount : t.account = s.account) :
    s.Later t :=
  ⟨hnow, fun order hmem => Or.inr ⟨order, haccount ▸ hmem, rfl, rfl, Nat.le_refl _⟩⟩

/-- A send that the broker has decided ends the handler. -/
theorem Desk.Later.of_place (out : Outgoing) (placed : Option Place) (hnow : t.now = s.now)
    (hcall : t.call = .idle) (haccount : t.account = (s.place out placed).account) :
    s.Later t := by
  cases placed with
  | none => exact .of_account (Int.le_of_eq hnow.symm) haccount
  | some place =>
    refine ⟨(Int.le_of_eq hnow.symm), fun order hmem => ?_⟩
    rw [haccount] at hmem
    rcases List.mem_cons.mp hmem with rfl | hmem
    · exact Or.inl ⟨rfl, Or.inr hcall⟩
    · exact Or.inr ⟨order, hmem, rfl, rfl, Nat.le_refl _⟩

theorem Desk.Later.of_settle {placed : Option Place} (hnow : t.now = s.now)
    (hcall : t.call = .idle) (haccount : t.account = (s.settle placed).account) :
    s.Later t := by
  unfold Desk.settle at haccount
  split at haccount
  next out _ =>
    have hplace : ({ s with worker := none }.place out placed).account =
        (s.place out placed).account := by cases placed <;> rfl
    exact .of_place out placed hnow hcall (haccount.trans hplace)
  next => exact .of_account (Int.le_of_eq hnow.symm) haccount

theorem deskStep_later (halone : s.call ≠ .idle → s.worker = none)
    (h : deskStep O s a = some t) : s.Later t := by
  cases a with
  | request probe body =>
    refine .of_account ?_ ?_
    all_goals
      simp only [deskStep] at h
      repeat' split at h
      all_goals cases h
      all_goals simp
  | read answered =>
    refine .of_account ?_ ?_
    all_goals
      simp only [deskStep] at h
      split at h
      all_goals cases h
      simp
  | prepare known tick =>
    refine .of_account ?_ ?_
    all_goals
      simp only [deskStep] at h
      repeat' split at h
      all_goals cases h
      all_goals simp
  | send placed result =>
    simp only [deskStep] at h
    split at h
    next out _ =>
      split at h
      next => cases h
      next =>
        cases h
        exact .of_place out placed (by simp) (by simp) (by simp)
    next => cases h
  | raise placed =>
    simp only [deskStep] at h
    split at h
    next => cases h
    next out _ =>
      cases h
      exact .of_place out placed (by simp) (by simp) (by simp)
    next =>
      cases h
      exact .of_account (by simp) (by simp)
  | timeOut =>
    refine .of_account ?_ ?_
    all_goals
      simp only [deskStep] at h
      split at h
      all_goals cases h
      all_goals simp
  | otherTimeOut =>
    refine .of_account ?_ ?_
    all_goals
      simp only [deskStep] at h
      split at h
      all_goals cases h
      simp
  | workerReturns placed =>
    simp only [deskStep] at h
    split at h
    next hworker =>
      cases h
      -- a thread is left in the SDK, so no handler is under way
      have hidle : s.call = .idle := by
        by_contra hcall
        simp [halone hcall] at hworker
      exact .of_settle (by simp) (by simpa using hidle) rfl
    next => cases h
  | restart placed =>
    simp only [deskStep] at h
    split at h
    next out _ =>
      cases h
      exact .of_place out placed (by simp) rfl rfl
    next =>
      cases h
      exact .of_settle (by simp) rfl rfl
  | advance i place =>
    simp only [deskStep] at h
    split at h
    next => cases h
    next order hi =>
      split at h
      next hrank =>
        cases h
        refine ⟨Int.le_refl _, fun moved hmoved => Or.inr ?_⟩
        rcases List.mem_or_eq_of_mem_set hmoved with hmem | rfl
        · exact ⟨moved, hmem, rfl, rfl, Nat.le_refl _⟩
        · exact ⟨order, List.mem_of_getElem? hi, rfl, rfl, hrank.le⟩
      next => cases h
  | placeOther comment place =>
    cases h
    refine ⟨Int.le_refl _, fun order horder => ?_⟩
    rcases List.mem_cons.mp horder with rfl | hmem
    · exact Or.inl ⟨rfl, Or.inl rfl⟩
    · exact Or.inr ⟨order, hmem, rfl, rfl, Nat.le_refl _⟩
  | tick seconds =>
    cases h
    refine .of_account ?_ rfl
    show s.now ≤ s.now + seconds
    omega

theorem cid_of_prepareOrder {checked : Checked} {known : Bool} {tick : Option (ℚ × ℚ)}
    {out : Outgoing} (h : prepareOrder O checked known tick = .ok out) :
    out.cid = checked.cid := by
  unfold prepareOrder at h
  repeat' split at h
  all_goals cases h
  rfl

/-- A step ends the handler, lets it wait, or takes it from one call to the next. -/
theorem deskStep_cases (h : deskStep O s a = some t) :
    t.call = .idle ∨
    (t.call = s.call ∧ (t.call ≠ .idle → s.worker = none → t.worker = none)) ∨
    (∃ checked, s.worker = none ∧ t = s.lookUp checked) ∨
    (∃ place checked cid start answered, a = .read answered ∧
      s.call = .reading place checked cid start ∧
      t = s.readItems place checked cid start
        (if answered then s.orders place start else [])) ∨
    (∃ checked out, s.call = .preparing checked ∧ out.cid = checked.cid ∧
      t = { s with call := .sending out }) := by
  cases a with
  | request probe body =>
    simp only [deskStep] at h
    split at h
    next => cases h
    next =>
      split at h
      next => cases h; exact Or.inl rfl
      -- no worker is left at an earlier order
      next hworker =>
        cases probe with
        | notReady => cases h; exact Or.inl rfl
        | stuck => cases h; exact Or.inl rfl
        | ready =>
          simp only at h
          split at h
          next => cases h; exact Or.inl rfl
          next checked _ =>
            cases h
            -- the lookup begins
            exact Or.inr (Or.inr (Or.inl ⟨checked, by simpa using hworker, rfl⟩))
  | read answered =>
    simp only [deskStep] at h
    split at h
    next place checked cid start hcall =>
      cases h
      exact Or.inr (Or.inr (Or.inr (Or.inl
        ⟨place, checked, cid, start, answered, rfl, hcall, rfl⟩)))
    next => cases h
  | prepare known tick =>
    simp only [deskStep] at h
    split at h
    next checked hcall =>
      split at h
      next => cases h; exact Or.inl rfl
      next out hout =>
        cases h
        exact Or.inr (Or.inr (Or.inr (Or.inr
          ⟨checked, out, hcall, cid_of_prepareOrder hout, rfl⟩)))
    next => cases h
  | send placed result =>
    simp only [deskStep] at h
    split at h
    next =>
      split at h
      next => cases h
      next => cases h; exact Or.inl (Desk.sent_call _ _ _)
    next => cases h
  | raise placed =>
    simp only [deskStep] at h
    split at h
    next => cases h
    next => cases h; exact Or.inl rfl
    next => cases h; exact Or.inl rfl
  | timeOut =>
    simp only [deskStep] at h
    split at h
    next => cases h
    next => cases h; exact Or.inl rfl
    next => cases h; exact Or.inl rfl
  | otherTimeOut =>
    simp only [deskStep] at h
    split at h
    next hidle => cases h; exact Or.inl hidle.1
    next => cases h
  -- a worker that was given up on leaves the handler where it is
  | workerReturns placed =>
    simp only [deskStep] at h
    split at h
    next hworker =>
      cases h
      exact Or.inr (Or.inl ⟨by simp, fun _ hnone => by simp [hnone] at hworker⟩)
    next => cases h
  | restart placed =>
    cases h
    exact Or.inl rfl
  | advance i place =>
    simp only [deskStep] at h
    repeat' split at h
    all_goals cases h
    exact Or.inr (Or.inl ⟨rfl, fun _ hnone => hnone⟩)
  | placeOther comment place =>
    cases h
    exact Or.inr (Or.inl ⟨rfl, fun _ hnone => hnone⟩)
  | tick seconds =>
    cases h
    exact Or.inr (Or.inl ⟨rfl, fun _ hnone => hnone⟩)

/-! ## The lookup -/

/-- How far the lookup is: at a read, the orders of the id are all at a place that is yet to be
read, and after the reads there is none. -/
def Desk.Searched (s : Desk) : Prop :=
  match s.call with
  | .idle => True
  | .reading place checked cid start => checked.cid = some cid ∧ start ≤ s.now ∧
      ∀ order ∈ s.account, order.clientOrderId = some cid → order.sentAt ≤ start ∧
        (order.RecentOf cid start → place.rank ≤ order.place.rank)
  | .preparing checked => ∀ cid, checked.cid = some cid → s.Unplaced cid
  | .sending out => ∀ cid, out.cid = some cid → s.Unplaced cid

/-- What holds between any two steps. -/
structure Desk.Sound (s : Desk) : Prop where
  past : ∀ order ∈ s.account, order.sentAt ≤ s.now
  alone : s.call ≠ .idle → s.worker = none
  searched : s.Searched

theorem Desk.Opens.sound (h : s.Opens) : s.Sound where
  past order hmem := (h.others order hmem).2
  alone _ := h.worker
  searched := by rw [Desk.Searched, h.call]; trivial

theorem Desk.Later.past (h : s.Later t) (hpast : ∀ order ∈ s.account, order.sentAt ≤ s.now) :
    ∀ order ∈ t.account, order.sentAt ≤ t.now := by
  intro order hmem
  have hnow := h.now
  rcases h.orders order hmem with ⟨hsent, -⟩ | ⟨earlier, hearlier, -, hsent, -⟩
  · omega
  · have := hpast earlier hearlier
    omega

/-- While a handler is under way, an order of an id is an earlier one that may have moved on. -/
theorem Desk.Later.earlier (h : s.Later t) (hcall : t.call ≠ .idle) {order : Order}
    (hmem : order ∈ t.account) (hcid : order.clientOrderId = some cid) :
    ∃ earlier ∈ s.account, earlier.clientOrderId = some cid ∧ earlier.sentAt = order.sentAt ∧
      earlier.place.rank ≤ order.place.rank := by
  rcases h.orders order hmem with ⟨-, hnone | hidle⟩ | ⟨earlier, hearlier, hsame, hrest⟩
  · simp [hnone] at hcid
  · exact absurd hidle hcall
  · exact ⟨earlier, hearlier, hsame.trans hcid, hrest⟩

theorem Desk.Later.unplaced (h : s.Later t) (hcall : t.call ≠ .idle) (hs : s.Unplaced cid) :
    t.Unplaced cid := by
  intro order hmem hrecent
  obtain ⟨earlier, hearlier, hcid, hsent, -⟩ := h.earlier hcall hmem hrecent.1
  have hnow := hrecent.mono h.now
  exact hs earlier hearlier ⟨hcid, hsent ▸ hnow.2⟩

/-- A handler that waits stays as far as it is. -/
theorem Desk.Later.searched (h : s.Later t) (hsame : t.call = s.call) (hs : s.Searched) :
    t.Searched := by
  unfold Desk.Searched at hs ⊢
  rw [hsame]
  cases hcall : s.call with
  | idle => trivial
  | reading place checked cid start =>
    simp only [hcall] at hs
    obtain ⟨hcid, hstart, horders⟩ := hs
    have hnow := h.now
    refine ⟨hcid, by omega, fun order hmem hid => ?_⟩
    obtain ⟨earlier, hearlier, hid', hsent, hrank⟩ := h.earlier (by simp [hsame, hcall]) hmem hid
    have hbefore := horders earlier hearlier hid'
    rw [hsent] at hbefore
    refine ⟨hbefore.1, fun hrecent => ?_⟩
    have := hbefore.2 ⟨hid', hsent ▸ hrecent.2⟩
    omega
  | preparing checked =>
    simp only [hcall] at hs
    exact fun cid hcid => h.unplaced (by simp [hsame, hcall]) (hs cid hcid)
  | sending out =>
    simp only [hcall] at hs
    exact fun cid hcid => h.unplaced (by simp [hsame, hcall]) (hs cid hcid)

/-- A lookup begins with every order of the id ahead. -/
theorem Desk.searched_lookUp (hpast : ∀ order ∈ s.account, order.sentAt ≤ s.now)
    (checked : Checked) : (s.lookUp checked).Searched := by
  unfold Desk.lookUp
  split
  next hcid =>
    intro cid hsome
    simp [hcid] at hsome
  next cid hcid =>
    dsimp only
    split
    next => trivial
    next =>
      exact ⟨hcid, Int.le_refl _, fun order hmem _ => ⟨hpast order hmem, fun _ => Nat.zero_le _⟩⟩

/-- An order of the id that is at the place is among the items of an answered read. -/
theorem Desk.mem_orders {order : Order} {place : Place} {start : ℤ} (hmem : order ∈ s.account)
    (hplace : order.place = place) (hrecent : order.RecentOf cid start)
    (hsent : order.sentAt ≤ start) : order ∈ s.orders place start := by
  have hslack : order.sentAt ≤ start + clientOrderIdHistorySlackSeconds := by
    rw [clientOrderIdHistorySlackSeconds]
    omega
  exact List.mem_filter.mpr ⟨hmem, decide_eq_true ⟨hplace, fun _ => ⟨hrecent.2, hslack⟩⟩⟩

/-- A read that finds nothing and hides nothing leaves the orders of the id at later places. -/
theorem Desk.searched_readItems {place : Place} {checked : Checked} {start : ℤ}
    {answered : Bool} (hs : s.Searched) (hcall : s.call = .reading place checked cid start)
    (hok : SeesOrders s (.read answered)) :
    (s.readItems place checked cid start
      (if answered then s.orders place start else [])).Searched := by
  have hread := hs
  simp only [Desk.Searched, hcall] at hread
  obtain ⟨hcid, hstart, horders⟩ := hread
  unfold Desk.readItems
  split
  next => trivial
  next hnone =>
    -- no order of the id is at the place that has been read
    have hnotHere : ∀ order ∈ s.account, order.RecentOf cid start → order.place ≠ place := by
      intro order hmem hrecent hplace
      cases answered with
      | false =>
        simp only [SeesOrders, hcall] at hok
        exact hok order hmem hplace hrecent
      | true =>
        have hitem := Desk.mem_orders hmem hplace hrecent (horders order hmem hrecent.1).1
        have hne := List.find?_eq_none.mp hnone order hitem
        exact hne (by simpa using order.named cid hrecent.1)
    have hahead : ∀ order ∈ s.account, order.RecentOf cid start →
        place.rank < order.place.rank := by
      intro order hmem hrecent
      have hle := (horders order hmem hrecent.1).2 hrecent
      have hne := hnotHere order hmem hrecent
      revert hle hne
      cases place <;> cases order.place <;> simp [Place.rank]
    cases place with
    | pending =>
      exact ⟨hcid, hstart, fun order hmem hid => ⟨(horders order hmem hid).1, hahead order hmem⟩⟩
    | position =>
      exact ⟨hcid, hstart, fun order hmem hid => ⟨(horders order hmem hid).1, hahead order hmem⟩⟩
    | history =>
      intro cid' hcid' order hmem hrecent
      obtain rfl : cid = cid' := Option.some.inj (hcid.symm.trans hcid')
      have hrank := hahead order hmem (hrecent.mono hstart)
      revert hrank
      cases order.place <;> simp [Place.rank]

theorem Desk.Sound.step (hs : s.Sound) (hok : SeesOrders s a) (h : deskStep O s a = some t) :
    t.Sound := by
  have hlater := deskStep_later hs.alone h
  have hpast := hlater.past hs.past
  rcases deskStep_cases h with hidle | ⟨hsame, hworker⟩ | ⟨checked, hworker, rfl⟩ |
    ⟨place, checked, cid, start, answered, rfl, hcall, rfl⟩ | ⟨checked, out, hcall, hcid, rfl⟩
  · exact ⟨hpast, fun hne => absurd hidle hne, by rw [Desk.Searched, hidle]; trivial⟩
  · exact ⟨hpast, fun hne => hworker hne (hs.alone (hsame ▸ hne)),
      hlater.searched hsame hs.searched⟩
  · exact ⟨hpast, fun _ => by simpa using hworker, Desk.searched_lookUp hs.past checked⟩
  · have hnone := hs.alone (by simp [hcall])
    exact ⟨hpast, fun _ => by simpa using hnone, Desk.searched_readItems hs.searched hcall hok⟩
  · have hnone := hs.alone (by simp [hcall])
    have hsearched := hs.searched
    simp only [Desk.Searched, hcall] at hsearched
    exact ⟨hpast, fun _ => hnone, fun cid hout => hsearched cid (hcid ▸ hout)⟩

theorem Desk.Sound.oneOrder (hs : s.Sound) : OneOrder s := by
  intro out cid hcall hcid
  have hsearched := hs.searched
  simp only [Desk.Searched, hcall] at hsearched
  exact hsearched cid hcid

theorem sound_of_run {s₀ : Desk} (h₀ : s₀.Opens) (h : RunOf (deskStep O) SeesOrders s₀ s) :
    s.Sound :=
  h.invariant (fun _ _ _ hs hok hstep => hs.step hok hstep) h₀.sound

/-! ## Results -/

/-- When no read that answers `None` hides an order of the id, `create_order` does not send twice
for an id within seven days: over restarts, lost answers and orders that move between the reads. -/
theorem atMostOnce (O : Conversions) : AtMostOnce O SeesOrders :=
  fun _ _ h₀ h => (sound_of_run h₀ h).oneOrder

/-- Conversions enough for the requests below. -/
def Conversions.sample : Conversions where
  upper s := s
  text _ := ""
  floatOf
    | .num q => some q
    | _ => none
  intOf _ := none

/-- An empty account and a process that has just started. -/
def Desk.sample : Desk :=
  { account := [], recent := [], worker := none, call := .idle, answer := none, now := 0 }

theorem Desk.opens_sample : Desk.sample.Opens where
  others order hmem := by cases hmem
  recent := rfl
  worker := rfl
  call := rfl

/-- A limit order with an id. -/
def limitOrder : Fields :=
  [("symbol", .str "EURUSD"), ("type", .str "BUY_LIMIT"), ("volume", .num 1), ("price", .num 1),
    ("client_order_id", .str "rebalance-01")]

/-- The request with the reads `pending`, `position` and `history` answered or not, up to the
send. -/
def upToSend (pending position history : Bool) : List Act :=
  [.request .ready limitOrder, .read pending, .read position, .read history, .prepare true none]

/-- The account has an order of the id, and the handler is at a send for it. -/
def sendsAgain (s : Desk) : Bool :=
  match s.call with
  | .sending out => out.cid == some "rebalance-01" &&
      s.account.any fun order => order.clientOrderId == some "rebalance-01"
  | _ => false

/-- A send whose answer is lost. The order is filled and closed, and eight days later the id is free
again. -/
def reuseAfterEightDays : List Act :=
  upToSend true true true ++
    [.timeOut, .workerReturns (some .position), .restart none, .advance 0 .history,
      .tick (8 * 24 * 3600)] ++
    upToSend true true true

/-- A read of the lookup answers. -/
def answersReads : Act → Bool
  | .read answered => answered
  | _ => true

theorem atMostOnce_reuseAfterEightDays : ∃ s, RunOf (deskStep .sample) SeesOrders .sample s ∧
    sendsAgain s = true ∧ OneOrder s := by
  have hsees : ∀ (s : Desk) a, answersReads a = true → SeesOrders s a := by
    intro s a h
    unfold SeesOrders
    split
    next => cases h
    next => trivial
  have hreach : ∃ s, RunOf (deskStep .sample) SeesOrders .sample s ∧ sendsAgain s = true :=
    exists_runOf_of_execOf (fun _ => answersReads) hsees (show (execOf (deskStep .sample) _ .sample
      reuseAfterEightDays).any sendsAgain = true by decide)
  obtain ⟨s, hrun, hp⟩ := hreach
  exact ⟨s, hrun, hp, atMostOnce .sample .sample s Desk.opens_sample hrun⟩

/-- The order is filled at once, and the process restarts. The retry's read of the positions answers
`None`. -/
def retryWithoutPositions : List Act :=
  upToSend true true true ++
    [.send (some .position) (.ok ⟨tradeRetcodeDone, "done"⟩), .restart none] ++
    upToSend true false true

/-- Without the condition, a retry right after a restart sends the order again. -/
theorem not_atMostOnce : ¬ AtMostOnce .sample fun _ _ => True := by
  intro h
  obtain ⟨s, hrun, hp⟩ := exists_run_of_exec (show (exec (deskStep .sample) .sample
    retryWithoutPositions).any (fun s => sendsAgain s && s.account.all fun order =>
      decide (order.RecentOf "rebalance-01" s.now)) = true by decide)
  rw [Bool.and_eq_true, List.all_eq_true] at hp
  obtain ⟨hsends, hrecent⟩ := hp
  unfold sendsAgain at hsends
  split at hsends
  next out hcall =>
    rw [Bool.and_eq_true, List.any_eq_true] at hsends
    obtain ⟨hcid, order, hmem, -⟩ := hsends
    exact h _ s Desk.opens_sample hrun out "rebalance-01" hcall (by simpa using hcid) order hmem
      (by simpa using hrecent order hmem)
  next => cases hsends

end Trading

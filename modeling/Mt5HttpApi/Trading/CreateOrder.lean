import Mt5HttpApi.Lib.Transition
import Mt5HttpApi.Trading.Orders

/-!
# `create_order` on an account

The handler as a machine over the account, the API process and the clock. The states of the handler
are the SDK calls it waits in: one read for each place that `_find_client_order` looks at, then the
calls that complete the request, then `order_send`.
-/

namespace Trading

open Transition

/-- `mt5.TRADE_RETCODE_PLACED`. -/
def tradeRetcodePlaced : ℕ := 10008

/-- `mt5.TRADE_RETCODE_DONE_PARTIAL`. -/
def tradeRetcodeDonePartial : ℕ := 10010

/-- `_accepted`. -/
def accepted (retcode : ℕ) : Bool :=
  retcode ∈ [tradeRetcodeDone, tradeRetcodePlaced, tradeRetcodeDonePartial]

/-- `CLIENT_ORDER_ID_LOOKBACK_SECONDS`. -/
def clientOrderIdLookbackSeconds : ℤ := 7 * 24 * 3600

/-- `CLIENT_ORDER_ID_HISTORY_SLACK_SECONDS`. -/
def clientOrderIdHistorySlackSeconds : ℤ := 24 * 3600

/-! ## The account -/

/-- Where an order of the account is. -/
inductive Place
  | pending
  | position
  | history
  deriving DecidableEq, Repr

/-- Orders move to places of higher rank only. -/
def Place.rank : Place → ℕ
  | .pending => 0
  | .position => 1
  | .history => 2

/-- An order of the account, with the id of the request that sent it, if it had one. -/
structure Order where
  comment : String
  place : Place
  sentAt : ℤ
  clientOrderId : Option String
  named : ∀ c, clientOrderId = some c → comment = c
  deriving DecidableEq

/-- The same order at another place. -/
def Order.moveTo (order : Order) (place : Place) : Order := { order with place := place }

/-- The comment that the broker stores. -/
def OrderRequest.commentText (req : OrderRequest) : String :=
  match req.comment with
  | some (.str c) => c
  | _ => ""

/-- The order that a request becomes. -/
def Outgoing.order (out : Outgoing) (place : Place) (now : ℤ) : Order where
  comment := out.req.commentText
  place := place
  sentAt := now
  clientOrderId := out.cid
  named c hc := by rw [OrderRequest.commentText, out.named c hc]

/-! ## The handler -/

/-- The `source` of a duplicate. -/
inductive Source
  | recentSend
  | pendingOrder
  | position
  | historyOrder
  deriving DecidableEq, Repr

/-- The `source` for a place. -/
def Place.source : Place → Source
  | .pending => .pendingOrder
  | .position => .position
  | .history => .historyOrder

/-- The `existing` of a duplicate. -/
inductive Existing
  | result (result : TradeResult)
  | order (order : Order)
  deriving DecidableEq

/-- What `create_order` answers. -/
inductive Answer
  | error (failure : Failure)
  | duplicate (cid : String) (source : Source) (existing : Existing)
  | sent (status : ℕ) (result : TradeResult) (cid : Option String)
  deriving DecidableEq

/-- The SDK call that the handler is in. -/
inductive Call
  | idle
  | reading (place : Place) (checked : Checked) (cid : String) (start : ℤ)
  | preparing (checked : Checked)
  | sending (out : Outgoing)
  deriving DecidableEq

/-- A thread that `m` left behind inside the SDK. -/
inductive SdkWorker
  | query
  | send (out : Outgoing)
  deriving DecidableEq

/-- The account, the API process and the clock. -/
structure Desk where
  account : List Order
  recent : List (String × ℤ × TradeResult)
  worker : Option SdkWorker
  call : Call
  answer : Option Answer
  now : ℤ
  deriving DecidableEq

/-- `_forget_old_client_orders`. -/
def forgetOldClientOrders (recent : List (String × ℤ × TradeResult)) (now : ℤ) :
    List (String × ℤ × TradeResult) :=
  recent.filter fun entry => ¬ entry.2.1 < now - clientOrderIdLookbackSeconds

/-- What a read of a place finds, for a lookup that began at `start`. -/
def Desk.orders (s : Desk) (place : Place) (start : ℤ) : List Order :=
  s.account.filter fun order => order.place = place ∧
    (place = .history → start - clientOrderIdLookbackSeconds ≤ order.sentAt ∧
      order.sentAt ≤ start + clientOrderIdHistorySlackSeconds)

/-- The handler ends with an answer. -/
def Desk.finish (s : Desk) (answer : Answer) : Desk :=
  { s with call := .idle, answer := some answer }

@[simp] theorem Desk.finish_call (s : Desk) (answer : Answer) :
    (s.finish answer).call = .idle := rfl

@[simp] theorem Desk.finish_account (s : Desk) (answer : Answer) :
    (s.finish answer).account = s.account := rfl

@[simp] theorem Desk.finish_now (s : Desk) (answer : Answer) : (s.finish answer).now = s.now := rfl

/-- The 503 of the guard of `m`. -/
def wedged : Answer := .error (503, "mt5 call is wedged")

/-- The 504 of a call that ran past its timeout. -/
def timedOut : Answer := .error (504, "mt5 call timed out")

/-- `_find_client_order` up to its first read, for a request with an id. -/
def Desk.lookUp (s : Desk) (checked : Checked) : Desk :=
  match checked.cid with
  | none => { s with call := .preparing checked }
  | some cid =>
    let recent := forgetOldClientOrders s.recent s.now
    match recent.lookup cid with
    | some (_, result) =>
      { s with recent := recent }.finish (.duplicate cid .recentSend (.result result))
    | none => { s with recent := recent, call := .reading .pending checked cid s.now }

@[simp] theorem Desk.lookUp_account (s : Desk) (checked : Checked) :
    (s.lookUp checked).account = s.account := by
  unfold Desk.lookUp
  split
  next => rfl
  next => dsimp only; split <;> rfl

@[simp] theorem Desk.lookUp_now (s : Desk) (checked : Checked) :
    (s.lookUp checked).now = s.now := by
  unfold Desk.lookUp
  split
  next => rfl
  next => dsimp only; split <;> rfl

@[simp] theorem Desk.lookUp_worker (s : Desk) (checked : Checked) :
    (s.lookUp checked).worker = s.worker := by
  unfold Desk.lookUp
  split
  next => rfl
  next => dsimp only; split <;> rfl

/-- The rest of the lookup after the items of one place: `None` has been read as no items. -/
def Desk.readItems (s : Desk) (place : Place) (checked : Checked) (cid : String) (start : ℤ)
    (items : List Order) : Desk :=
  match items.find? fun item => item.comment = cid with
  | some item => s.finish (.duplicate cid place.source (.order item))
  | none =>
    match place with
    | .pending => { s with call := .reading .position checked cid start }
    | .position => { s with call := .reading .history checked cid start }
    | .history => { s with call := .preparing checked }

@[simp] theorem Desk.readItems_account (s : Desk) (place : Place) (checked : Checked)
    (cid : String) (start : ℤ) (items : List Order) :
    (s.readItems place checked cid start items).account = s.account := by
  unfold Desk.readItems
  split
  next => rfl
  next => cases place <;> rfl

@[simp] theorem Desk.readItems_now (s : Desk) (place : Place) (checked : Checked)
    (cid : String) (start : ℤ) (items : List Order) :
    (s.readItems place checked cid start items).now = s.now := by
  unfold Desk.readItems
  split
  next => rfl
  next => cases place <;> rfl

@[simp] theorem Desk.readItems_worker (s : Desk) (place : Place) (checked : Checked)
    (cid : String) (start : ℤ) (items : List Order) :
    (s.readItems place checked cid start items).worker = s.worker := by
  unfold Desk.readItems
  split
  next => rfl
  next => cases place <;> rfl

/-- `create_order` from `ensure_symbol` to the request. -/
def prepareOrder (O : Conversions) (checked : Checked) (known : Bool) (tick : Option (ℚ × ℚ)) :
    Except Failure Outgoing :=
  let symbol := O.text ((checked.body.lookup "symbol").getD .null)
  if !known then .error (404, s!"Symbol {symbol} not found")
  else
    match hbody : completeBody O checked tick with
    | .error failure => .error failure
    | .ok body =>
      match hreq : buildOrderRequest O body with
      | .error failure => .error failure
      | .ok req =>
        .ok { req := req, cid := checked.cid
              named := fun c hc => by
                rw [comment_of_buildOrderRequest hreq, comment_of_completeBody hbody,
                  checked.named c hc] }

/-- The account after the broker has decided a send. -/
def Desk.place (s : Desk) (out : Outgoing) (placed : Option Place) : Desk :=
  match placed with
  | none => s
  | some place => { s with account := out.order place s.now :: s.account }

@[simp] theorem Desk.place_call (s : Desk) (out : Outgoing) (placed : Option Place) :
    (s.place out placed).call = s.call := by
  cases placed <;> rfl

@[simp] theorem Desk.place_now (s : Desk) (out : Outgoing) (placed : Option Place) :
    (s.place out placed).now = s.now := by
  cases placed <;> rfl

/-- What the handler does with the answer of `order_send`. -/
def Desk.sent (s : Desk) (out : Outgoing) (result : Except String TradeResult) : Desk :=
  match result with
  | .error lastError => s.finish (.error (500, s!"order_send failed: {lastError}"))
  | .ok result =>
    let status := if result.retcode = tradeRetcodeDone then 201 else 200
    let answer := Answer.sent status result out.cid
    match out.cid with
    | none => s.finish answer
    | some cid =>
      if accepted result.retcode then
        { s with recent := (cid, s.now, result) :: s.recent.filter fun entry => entry.1 ≠ cid
          }.finish answer
      else s.finish answer

@[simp] theorem Desk.sent_call (s : Desk) (out : Outgoing) (result : Except String TradeResult) :
    (s.sent out result).call = .idle := by
  unfold Desk.sent
  repeat' split
  all_goals rfl

@[simp] theorem Desk.sent_account (s : Desk) (out : Outgoing)
    (result : Except String TradeResult) : (s.sent out result).account = s.account := by
  unfold Desk.sent
  repeat' split
  all_goals rfl

@[simp] theorem Desk.sent_now (s : Desk) (out : Outgoing) (result : Except String TradeResult) :
    (s.sent out result).now = s.now := by
  unfold Desk.sent
  repeat' split
  all_goals rfl

/-! ## Steps -/

/-- What `ensure_initialized` finds: the terminal ready, not ready, or a call of its own that ran
past the timeout. -/
inductive Probe
  | ready
  | notReady
  | stuck
  deriving DecidableEq, Repr

/-- A step, with what comes from outside. -/
inductive Act
  /-- `POST /orders`, up to the handler's first SDK call after `ensure_initialized`. -/
  | request (probe : Probe) (body : Fields)
  /-- The read of the lookup returns: `None` if not `answered`. -/
  | read (answered : Bool)
  /-- The calls that complete the request return. -/
  | prepare (known : Bool) (tick : Option (ℚ × ℚ))
  /-- `order_send` returns. `placed` is what the broker did with the order. -/
  | send (placed : Option Place) (result : Except String TradeResult)
  /-- The handler's call raises an exception. -/
  | raise (placed : Option Place)
  /-- The handler's call runs past its timeout. -/
  | timeOut
  /-- A call of another handler runs past its timeout. -/
  | otherTimeOut
  /-- The thread left inside the SDK returns. -/
  | workerReturns (placed : Option Place)
  /-- The API process starts again. A send still in the SDK is decided now. -/
  | restart (placed : Option Place)
  /-- An order of the account moves on. -/
  | advance (i : ℕ) (place : Place)
  /-- An order that `create_order` did not send. -/
  | placeOther (comment : String) (place : Place)
  /-- Time passes. -/
  | tick (seconds : ℕ)

/-- The broker decides the send of a thread that leaves the SDK. -/
def Desk.settle (s : Desk) (placed : Option Place) : Desk :=
  match s.worker with
  | some (.send out) => { s with worker := none }.place out placed
  | _ => { s with worker := none }

@[simp] theorem Desk.settle_call (s : Desk) (placed : Option Place) :
    (s.settle placed).call = s.call := by
  unfold Desk.settle
  split <;> simp

@[simp] theorem Desk.settle_now (s : Desk) (placed : Option Place) :
    (s.settle placed).now = s.now := by
  unfold Desk.settle
  split <;> simp

/-- One step; `none` when it is not enabled. -/
def deskStep (O : Conversions) (s : Desk) : Act → Option Desk
  | .request probe body =>
    if s.call ≠ .idle then none
    -- the guard of `m`, for the first call of `ensure_initialized`
    else if s.worker.isSome then some (s.finish wedged)
    else match probe with
      | .notReady => some (s.finish (.error (503, "MT5 not initialized")))
      | .stuck => some ({ s with worker := some .query }.finish wedged)
      | .ready =>
        match checkBody O body with
        | .error failure => some (s.finish (.error failure))
        | .ok checked => some (s.lookUp checked)
  | .read answered =>
    match s.call with
    | .reading place checked cid start =>
      -- `items or ()`: `None` is read as no items
      let items := if answered then s.orders place start else []
      some (s.readItems place checked cid start items)
    | _ => none
  | .prepare known tick =>
    match s.call with
    | .preparing checked =>
      match prepareOrder O checked known tick with
      | .error failure => some (s.finish (.error failure))
      | .ok out => some { s with call := .sending out }
    | _ => none
  | .send placed result =>
    match s.call with
    | .sending out =>
      -- what the broker accepts is in the account
      if result.toOption.any (fun r => accepted r.retcode) && placed.isNone then none
      else some ((s.place out placed).sent out result)
    | _ => none
  | .raise placed =>
    match s.call with
    | .idle => none
    | .sending out => some ((s.place out placed).finish (.error serverError))
    | _ => some (s.finish (.error serverError))
  | .timeOut =>
    match s.call with
    | .idle => none
    | .sending out => some ({ s with worker := some (.send out) }.finish timedOut)
    | _ => some ({ s with worker := some .query }.finish timedOut)
  | .otherTimeOut =>
    if s.call = .idle ∧ s.worker = none then some { s with worker := some .query } else none
  | .workerReturns placed => if s.worker.isSome then some (s.settle placed) else none
  | .restart placed =>
    let settled := match s.call with
      | .sending out => s.place out placed
      | _ => s.settle placed
    some { settled with recent := [], call := .idle, answer := none }
  | .advance i place =>
    match s.account[i]? with
    | none => none
    | some order =>
      if order.place.rank < place.rank then
        some { s with account := s.account.set i (order.moveTo place) }
      else none
  | .placeOther comment place =>
    let order : Order :=
      { comment := comment, place := place, sentAt := s.now, clientOrderId := none
        named := by simp }
    some { s with account := order :: s.account }
  | .tick seconds => some { s with now := s.now + seconds }

/-- Before the first request: an account of orders that others placed. -/
structure Desk.Opens (s : Desk) : Prop where
  others : ∀ order ∈ s.account, order.clientOrderId = none ∧ order.sentAt ≤ s.now
  recent : s.recent = []
  worker : s.worker = none
  call : s.call = .idle

end Trading

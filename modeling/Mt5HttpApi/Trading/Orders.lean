import Mathlib.Data.Rat.Defs
import Mt5HttpApi.Trading.Positions

/-!
# Placing an order

`create_order` of `mt5api/handlers/orders.py` with its lookup of an earlier order of the same
`client_order_id`, `build_order_request` of `mt5api/mt5client.py`, and the account they work on.

A step is one SDK call of the handler, or a step of its surroundings: an order of the account moves
on, somebody else places one, time passes, the API process restarts. The handler holds the MT5 lock
for its whole body, so there is one at a time. What the SDK answers is part of the label: `None`, or
what the account holds.

A call that runs past its timeout leaves its thread behind. Until that thread returns, the guard of
`m` refuses every call, and the first one of a handler is in `ensure_initialized`. A send in such a
thread is decided when the thread returns, or at the latest when the process restarts.

Times are seconds of the broker's clock, which `utc_seconds_to_broker_dt` renders, and what is said
of a comment supposes that the broker keeps it.
-/

namespace Trading

/-! ## Requests -/

/-- A JSON value, as far as the handler tells them apart. -/
inductive Json
  | null
  | bool (b : Bool)
  | num (q : ℚ)
  | str (s : String)
  | other
  deriving DecidableEq

/-- A JSON object. -/
abbrev Fields := List (String × Json)

/-- `body[key] = value`. -/
def Fields.set (body : Fields) (key : String) (value : Json) : Fields :=
  (key, value) :: body.filter fun field => field.1 ≠ key

theorem Fields.lookup_set_self (body : Fields) (key : String) (value : Json) :
    (body.set key value).lookup key = some value := by
  simp [Fields.set]

theorem Fields.lookup_set_of_ne (body : Fields) {key other : String} (value : Json)
    (h : other ≠ key) : (body.set key value).lookup other = body.lookup other := by
  have hne : (other == key) = false := by simpa using h
  have hfilter : (body.filter fun field => field.1 ≠ key).lookup other = body.lookup other := by
    induction body with
    | nil => rfl
    | cons field fields ih =>
      obtain ⟨name, _⟩ := field
      by_cases hkey : name = key
      · rw [List.filter_cons_of_neg (by simpa using hkey), ih, List.lookup_cons, hkey, hne]
      · rw [List.filter_cons_of_pos (by simpa using hkey), List.lookup_cons, List.lookup_cons, ih]
  rw [Fields.set, List.lookup_cons, hne, hfilter]

/-- `str.upper`, `str`, `float` and `int` on what a body can hold: `none` where they raise. The
results hold for every choice. -/
structure Conversions where
  upper : String → String
  text : Json → String
  floatOf : Json → Option ℚ
  intOf : Json → Option ℤ

/-- An error answer: its status and text. -/
abbrev Failure := ℕ × String

/-- An exception that only Flask answers. -/
def serverError : Failure := (500, "Internal Server Error")

/-- `repr` of a list of plain strings. -/
def pyList (items : List String) : String :=
  "[" ++ String.intercalate ", " (items.map fun item => s!"'{item}'") ++ "]"

/-- The keys of `ORDER_TYPE_MAP`. -/
def orderTypes : List String :=
  ["BUY", "SELL", "BUY_LIMIT", "SELL_LIMIT", "BUY_STOP", "SELL_STOP", "BUY_STOP_LIMIT",
    "SELL_STOP_LIMIT"]

/-- The keys of `FILLING_MAP`. -/
def fillings : List String := ["FOK", "IOC", "RETURN"]

/-- The keys of `TIME_MAP`. -/
def times : List String := ["GTC", "DAY", "SPECIFIED", "SPECIFIED_DAY"]

/-- The keys of `action_map`. -/
def actions : List String := ["DEAL", "PENDING", "SLTP", "MODIFY", "REMOVE", "CLOSE_BY"]

/-- `CLIENT_ORDER_ID_RE.match`. Its `$` also matches before a newline at the end. -/
def clientOrderIdRe (cid : String) : Bool :=
  let chars := cid.toList
  let core := if chars.getLast? = some '\n' then chars.dropLast else chars
  1 ≤ core.length && core.length ≤ 31 &&
    core.all fun c => c.isAlphanum || c ∈ ['.', '_', ':', '-']

/-- `body[key].upper()`. -/
def upperField (O : Conversions) (value : Json) : Except Failure String :=
  match value with
  | .str s => .ok (O.upper s)
  | _ => .error serverError

/-- A body that passed the checks, its order type and its `client_order_id`. The id is in the
comment. -/
structure Checked where
  body : Fields
  orderType : String
  cid : Option String
  named : ∀ c, cid = some c → body.lookup "comment" = some (.str c)
  deriving DecidableEq

/-- The text of the 400 for an id that is not one. -/
def badClientOrderId : Failure :=
  (400, "'client_order_id' must be 1 to 31 letters, digits or ._:-")

/-- The part of `create_order`'s checks on `client_order_id`. -/
def checkClientOrderId (body : Fields) (orderType : String) : Except Failure Checked :=
  match body.lookup "client_order_id" with
  | none | some .null =>
    .ok { body := body, orderType := orderType, cid := none, named := by simp }
  | some (.str cid) =>
    if !clientOrderIdRe cid then .error badClientOrderId
    else if (body.lookup "comment").getD (.str cid) ≠ .str cid then
      .error (400, "'client_order_id' is stored in the order comment; " ++
        "send no 'comment' or the same value")
    else .ok { body := body.set "comment" (.str cid), orderType := orderType, cid := some cid
               named := fun c h => by
                 cases h
                 exact body.lookup_set_self "comment" (.str cid) }
  | some _ => .error badClientOrderId

/-- The checks of `create_order` before its lookup. -/
def checkBody (O : Conversions) (body : Fields) : Except Failure Checked :=
  if body = [] then .error (400, "Request body required")
  else match ["symbol", "type", "volume"].find? fun field => (body.lookup field).isNone with
    | some field => .error (400, s!"'{field}' is required")
    | none => do
      let orderType ← upperField O ((body.lookup "type").getD .null)
      if orderType ∈ orderTypes then checkClientOrderId body orderType
      else .error (400, s!"Invalid type: {orderType}. Use: {pyList orderTypes}")

/-! ## Building the request -/

/-- The request that `order_send` gets. A field that is `none` is not in it. -/
structure OrderRequest where
  action : Option String
  symbol : Option Json
  volume : Option ℚ
  price : Option ℚ
  sl : Option ℚ
  tp : Option ℚ
  deviation : Option ℤ
  magic : Option ℤ
  comment : Option Json
  position : Option ℤ
  positionBy : Option ℤ
  type : Option String
  typeFilling : Option String
  typeTime : Option String
  deriving DecidableEq

/-- A field of the body through a conversion that may raise. -/
def convertField {α : Type*} (body : Fields) (key : String) (convert : Json → Option α) :
    Except Failure (Option α) :=
  match body.lookup key with
  | none => .ok none
  | some value =>
    match convert value with
    | some x => .ok (some x)
    | none => .error serverError

/-- A field of the body in upper case. -/
def mappedField (O : Conversions) (body : Fields) (key : String) :
    Except Failure (Option String) :=
  match body.lookup key with
  | none => .ok none
  | some value => (upperField O value).map some

/-- A field that must be one of `valid` when it is there. -/
def validField (name : String) (valid : List String) : Option String → Except Failure Unit
  | none => .ok ()
  | some x =>
    if x ∈ valid then .ok () else .error (400, s!"Invalid {name}: {x}. Use: {pyList valid}")

/-- `build_order_request`. -/
def buildOrderRequest (O : Conversions) (body : Fields) : Except Failure OrderRequest := do
  let action ← mappedField O body "action"
  validField "action" actions action
  let volume ← convertField body "volume" O.floatOf
  let price ← convertField body "price" O.floatOf
  let sl ← convertField body "sl" O.floatOf
  let tp ← convertField body "tp" O.floatOf
  let deviation ← convertField body "deviation" O.intOf
  let magic ← convertField body "magic" O.intOf
  let position ← convertField body "position" O.intOf
  let positionBy ← convertField body "position_by" O.intOf
  let type ← mappedField O body "type"
  validField "type" orderTypes type
  let filling ← mappedField O body "type_filling"
  let time ← mappedField O body "type_time"
  -- a filling that the map does not have is left out, and IOC is only for a body without one
  pure { action := action, symbol := body.lookup "symbol", volume := volume, price := price,
         sl := sl, tp := tp, deviation := deviation, magic := magic,
         comment := body.lookup "comment", position := position, positionBy := positionBy,
         type := type,
         typeFilling := match filling with
           | none => some "IOC"
           | some f => if f ∈ fillings then some f else none,
         typeTime := time.filter (· ∈ times) }

/-- A request has the comment of its body. -/
theorem comment_of_buildOrderRequest {O : Conversions} {body : Fields} {req : OrderRequest}
    (h : buildOrderRequest O body = .ok req) : req.comment = body.lookup "comment" := by
  simp only [buildOrderRequest, bind, Except.bind, pure, Except.pure] at h
  repeat' split at h
  all_goals cases h
  all_goals rfl

/-- A request under way, with the `client_order_id` it is for. -/
structure Outgoing where
  req : OrderRequest
  cid : Option String
  named : ∀ c, cid = some c → req.comment = some (.str c)
  deriving DecidableEq

/-- The body as `create_order` completes it: with the tick's price for a market order without one,
and with its action. -/
def completeBody (O : Conversions) (checked : Checked) (tick : Option (ℚ × ℚ)) :
    Except Failure Fields :=
  let body := checked.body
  if checked.orderType ∉ ["BUY", "SELL"] then .ok (body.set "action" (.str "PENDING"))
  else if (body.lookup "price").isSome then .ok (body.set "action" (.str "DEAL"))
  else
    let symbol := O.text ((body.lookup "symbol").getD .null)
    let failed : Failure := (500, s!"Cannot get price for {symbol}")
    match tick with
    | none => .error failed
    | some (ask, bid) =>
      if ask = 0 ∧ bid = 0 then .error failed
      else
        let price := if checked.orderType = "BUY" then ask else bid
        .ok ((body.set "price" (.num price)).set "action" (.str "DEAL"))

/-- The completed body has the comment of the checked one. -/
theorem comment_of_completeBody {O : Conversions} {checked : Checked} {tick : Option (ℚ × ℚ)}
    {body : Fields} (h : completeBody O checked tick = .ok body) :
    body.lookup "comment" = checked.body.lookup "comment" := by
  have hkeeps : ∀ (fields : Fields) (key : String) (value : Json), key = "price" ∨ key = "action" →
      (fields.set key value).lookup "comment" = fields.lookup "comment" := by
    rintro fields key value (rfl | rfl) <;> exact fields.lookup_set_of_ne value (by decide)
  simp only [completeBody] at h
  repeat' split at h
  all_goals cases h
  all_goals simp [hkeeps]

end Trading

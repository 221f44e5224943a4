import Mathlib.Algebra.Ring.Nat
import Mathlib.Logic.Basic

/-!
# Changing an open position

`PUT /positions/{ticket}` (`update_position` of `mt5api/handlers/positions.py`) and the
`modify_position` tools of the two MCP servers, which build its JSON body.

The handler tells an absent field from a present one. The tools do not: an omitted argument is 0
there, and the body always has both fields. `modifyPosition_keeps_iff` says when a call still does
what the tools' docstrings say, that omitted fields keep the position's current value.

Prices are of any type `P` with a zero: nothing is computed with them.
-/

namespace Trading

/-- `mt5.TRADE_RETCODE_DONE`. -/
def tradeRetcodeDone : ℕ := 10009

/-- The fields of an open position that `update_position` reads. -/
structure Position (P : Type*) where
  symbol : String
  sl : P
  tp : P
  deriving DecidableEq

/-- The request of `TRADE_ACTION_SLTP` that `update_position` sends. -/
structure SltpRequest (P : Type*) where
  position : ℕ
  symbol : String
  sl : P
  tp : P
  deriving DecidableEq

/-- What `order_send` answers. -/
structure TradeResult where
  retcode : ℕ
  comment : String
  deriving DecidableEq, Repr

/-- The SDK as `update_position` uses it. `none` is the SDK's `None`. -/
structure PositionSdk (P : Type*) where
  /-- `ensure_initialized()`. -/
  initialized : Bool
  /-- `mt5.positions_get(ticket=ticket)`. -/
  positionsGet : ℕ → Option (List (Position P))
  /-- `mt5.order_send`. -/
  orderSend : SltpRequest P → Option TradeResult
  /-- `str(mt5.last_error())`. -/
  lastError : String

/-- A JSON object with number values. -/
abbrev Body (P : Type*) := List (String × P)

/-- `body.get(key, default)`. -/
def Body.get {P : Type*} (body : Body P) (key : String) (default : P) : P :=
  (body.lookup key).getD default

/-- An HTTP answer: an error with its status and text, or the SDK's result. -/
inductive Reply
  | error (status : ℕ) (text : String)
  | done (result : TradeResult)
  deriving DecidableEq, Repr

variable {P : Type*}

/-- `update_position`: the request it sends, if it gets that far, and its answer. -/
def updatePosition (sdk : PositionSdk P) (ticket : ℕ) (body : Option (Body P)) :
    Option (SltpRequest P) × Reply :=
  if !sdk.initialized then (none, .error 503 "MT5 not initialized")
  else match body with
    | none | some [] => (none, .error 400 "Request body required")
    | some body =>
      match sdk.positionsGet ticket with
      | none | some [] => (none, .error 404 s!"Position {ticket} not found")
      | some (pos :: _) =>
        let req : SltpRequest P :=
          { position := ticket, symbol := pos.symbol, sl := body.get "sl" pos.sl,
            tp := body.get "tp" pos.tp }
        match sdk.orderSend req with
        | none => (some req, .error 500 s!"Failed to update position: {sdk.lastError}")
        | some result =>
          if result.retcode = tradeRetcodeDone then (some req, .done result)
          else (some req, .error 500 s!"Failed to update position: {result.comment}")

/-- The two MCP servers. -/
inductive McpServer
  | mt5api
  | mcpunifier
  deriving DecidableEq, Repr

/-- The `sl` and `tp` arguments of a `modify_position` call: `none` when omitted. -/
structure SltpArgs (P : Type*) where
  sl : Option P
  tp : Option P
  deriving DecidableEq

/-- The body that a server's `modify_position` sends, with 0 for an omitted argument. -/
def modifyPositionBody [Zero P] (server : McpServer) (args : SltpArgs P) : Body P :=
  match server with
  | .mt5api => [("sl", args.sl.getD 0), ("tp", args.tp.getD 0)]
  | .mcpunifier => [("sl", args.sl.getD 0), ("tp", args.tp.getD 0)]

/-- `modify_position` on a terminal. -/
def modifyPosition [Zero P] (server : McpServer) (sdk : PositionSdk P) (ticket : ℕ)
    (args : SltpArgs P) : Option (SltpRequest P) × Reply :=
  updatePosition sdk ticket (some (modifyPositionBody server args))

/-- The request carries the named values, and the position's current ones for the omitted. -/
def KeepsOmitted (pos : Position P) (args : SltpArgs P) (req : SltpRequest P) : Prop :=
  req.sl = args.sl.getD pos.sl ∧ req.tp = args.tp.getD pos.tp

instance [DecidableEq P] (pos : Position P) (args : SltpArgs P) (req : SltpRequest P) :
    Decidable (KeepsOmitted pos args req) := inferInstanceAs (Decidable (_ ∧ _))

/-- `update_position` with a body that has some field sends the body's fields, and the position's
own values for the fields that it does not have. -/
theorem updatePosition_request {sdk : PositionSdk P} {ticket : ℕ} {body : Body P}
    {pos : Position P} {rest : List (Position P)} (hinit : sdk.initialized = true)
    (hbody : body ≠ []) (hpos : sdk.positionsGet ticket = some (pos :: rest)) :
    (updatePosition sdk ticket (some body)).1 =
      some { position := ticket, symbol := pos.symbol, sl := body.get "sl" pos.sl,
             tp := body.get "tp" pos.tp } := by
  obtain ⟨field, fields, rfl⟩ := List.exists_cons_of_ne_nil hbody
  simp only [updatePosition, hinit, Bool.not_true, Bool.false_eq_true, if_false, hpos]
  split
  next => rfl
  next => split <;> rfl

/-- What `modify_position` sends for an open position: 0 for the omitted fields. -/
theorem modifyPosition_request [Zero P] {server : McpServer} {sdk : PositionSdk P} {ticket : ℕ}
    {args : SltpArgs P} {pos : Position P} {rest : List (Position P)}
    (hinit : sdk.initialized = true) (hpos : sdk.positionsGet ticket = some (pos :: rest)) :
    (modifyPosition server sdk ticket args).1 =
      some { position := ticket, symbol := pos.symbol, sl := args.sl.getD 0,
             tp := args.tp.getD 0 } := by
  have hbody : modifyPositionBody server args ≠ [] := by cases server <;> simp [modifyPositionBody]
  rw [modifyPosition, updatePosition_request hinit hbody hpos]
  cases server <;> rfl

/-- A default of 0 keeps the current value of an omitted field just when that value is 0. -/
theorem getD_zero_eq_iff [Zero P] (given : Option P) (current : P) :
    given.getD 0 = given.getD current ↔ (given = none → current = 0) := by
  cases given with
  | none => simp [eq_comm]
  | some value => simp

/-- On either server, a `modify_position` call for an open position sends a request that keeps the
omitted fields if and only if the omitted fields are 0 on the position. -/
theorem modifyPosition_keeps_iff [Zero P] (server : McpServer) (sdk : PositionSdk P) (ticket : ℕ)
    (args : SltpArgs P) (pos : Position P) (rest : List (Position P))
    (hinit : sdk.initialized = true) (hpos : sdk.positionsGet ticket = some (pos :: rest)) :
    (∃ req, (modifyPosition server sdk ticket args).1 = some req ∧ KeepsOmitted pos args req) ↔
      (args.sl = none → pos.sl = 0) ∧ (args.tp = none → pos.tp = 0) := by
  rw [modifyPosition_request hinit hpos]
  simp only [Option.some.injEq, exists_eq_left', KeepsOmitted]
  rw [getD_zero_eq_iff, getD_zero_eq_iff]

/-- A terminal with one open position at ticket 7, with a stop loss and no take profit. Prices are
in points. -/
def PositionSdk.sample : PositionSdk ℕ where
  initialized := true
  positionsGet ticket := if ticket = 7 then some [⟨"EURUSD", 1200, 0⟩] else some []
  orderSend _ := some ⟨tradeRetcodeDone, "done"⟩
  lastError := ""

/-- Naming the stop loss keeps the take profit, which is 0. -/
theorem modifyPosition_keeps_takeProfit :
    ∃ req, (modifyPosition .mcpunifier .sample 7 ⟨some 1100, none⟩).1 = some req ∧
      KeepsOmitted ⟨"EURUSD", 1200, 0⟩ ⟨some 1100, none⟩ req :=
  (modifyPosition_keeps_iff .mcpunifier .sample 7 ⟨some 1100, none⟩ ⟨"EURUSD", 1200, 0⟩ []
    rfl rfl).mpr ⟨by simp, by simp⟩

/-- Naming the take profit removes the stop loss, on both servers. -/
theorem modifyPosition_loses_stopLoss : ¬ ∀ (server : McpServer) (sdk : PositionSdk ℕ)
    (ticket : ℕ) (args : SltpArgs ℕ) (pos : Position ℕ) (rest : List (Position ℕ)),
    sdk.initialized = true → sdk.positionsGet ticket = some (pos :: rest) →
    ∃ req, (modifyPosition server sdk ticket args).1 = some req ∧ KeepsOmitted pos args req := by
  intro h
  obtain ⟨req, hreq, hsl, -⟩ := h .mt5api .sample 7 ⟨none, some 1300⟩
    ⟨"EURUSD", 1200, 0⟩ [] rfl rfl
  rw [modifyPosition_request rfl rfl] at hreq
  cases hreq
  exact absurd hsl (by decide)

end Trading

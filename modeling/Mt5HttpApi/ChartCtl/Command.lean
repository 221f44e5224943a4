import Mt5HttpApi.ChartCtl.Desired
import Mt5HttpApi.Lib.Transition

/-!
# The command channel

`run_command` of `mt5api/chartctl/command.py` and `HandleCommand` of
`assets/experts/include/ChartControl.mqh`: one call at a time writes `command.json` and waits for
`command_result.json`, and the loader reads the one, executes, writes the other and deletes the
first. A caller that waited too long removes its command and is gone; the loader does not look
whether the file it deletes is the one it read.

* `Command.received_eq`: the loader reads the id that `run_command` wrote.
* `Channel.Honest` is what every run keeps, `Channel.Handed` what a run keeps whose steps are
  `Orderly`.
* `Channel.sound_iff_orderly` is the result.
-/

namespace ChartCtl

open JsonText Transition

/-! ## The two files -/

/-- What `run_command` is called for, with its payload. -/
inductive Action
  | closeChart (chartId : Int)
  | screenshot (chartId width height : Int)
  deriving DecidableEq

/-- The text of a Python integer. -/
def int (n : Int) : Writer := fun level =>
  if n < 0 then '-' :: num n.natAbs level else num n.natAbs level

/-- The argument `action`. -/
def Action.name : Action → List Char
  | .closeChart _ => "close_chart".toList
  | .screenshot _ _ _ => "screenshot".toList

/-- The argument `payload`. -/
def Action.payload : Action → List (String × Writer)
  | .closeChart chartId => [("chart_id", int chartId)]
  | .screenshot chartId width height =>
    [("chart_id", int chartId), ("width", int width), ("height", int height)]

/-- `"cmd_" + secrets.token_hex(4)`. -/
def newCommandId (random : UInt32) : List Char :=
  "cmd_".toList ++ (List.range 8).map fun i => hexDigit (random.toNat / 16 ^ (7 - i) % 16)

/-- A command as a call of `run_command` writes it, and which call that was. -/
structure Command where
  call : Nat
  random : UInt32
  action : Action
  deriving DecidableEq

/-- `command_id`. -/
def Command.id (c : Command) : List Char := newCommandId c.random

/-- The text of `command.json`. -/
def Command.text (c : Command) : List Char :=
  dumps (obj (("command_id", str c.id) :: ("action", str c.action.name) :: c.action.payload))

/-- `cmd_id` of `HandleCommand`. -/
def Command.received (c : Command) : List Char := jsonStr "command_id".toList [] (flat c.text)

/-- `command_result.json`: an id, and `status` with what belongs to it. -/
structure Reply where
  commandId : List Char
  status : String
  file : Option (List Char)
  errorCode : Option String
  errorDetail : Option (List Char)
  deriving DecidableEq

/-- What the terminal answers when a command is executed. -/
structure Execution where
  /-- `ChartID()`. -/
  self : Int
  /-- `ChartScreenShot` or `ChartClose` succeeds. -/
  succeeds : Bool
  /-- `GetLastError()`. -/
  lastError : Nat

/-- The result of a command that fails. -/
def failure (id : List Char) (code : String) (detail : List Char) : Reply :=
  ⟨id, "error", none, some code, some detail⟩

/-- `HandleCommand` from the reading of `action` to the end of `result`. -/
def Command.reply (numerals : Numerals) (c : Command) (x : Execution) : Reply :=
  let body := flat c.text
  let action := jsonStr "action".toList [] body
  let error := "err=".toList ++ Nat.toDigits 10 x.lastError
  if action = "screenshot".toList then
    if x.succeeds then ⟨c.received, "ok", some (c.received ++ ".png".toList), none, none⟩
    else failure c.received "SCREENSHOT_FAILED" error
  else if action = "reconcile".toList then ⟨c.received, "ok", none, none, none⟩
  else if action = "close_chart".toList then
    if jsonNum numerals "chart_id".toList body = x.self then
      failure c.received "CLOSE_REFUSED" "refusing to close the loader's own chart".toList
    else if x.succeeds then ⟨c.received, "ok", none, none, none⟩
    else failure c.received "CLOSE_FAILED" error
  else failure c.received "UNKNOWN_ACTION" action

theorem commandId_reply (numerals : Numerals) (c : Command) (x : Execution) :
    (c.reply numerals x).commandId = c.received := by
  simp only [Command.reply]
  split_ifs <;> rfl

/-! ## The id is read back -/

theorem not_mem_int {c : Char} (hc : c ≠ '-') (hdigit : c.isDigit = false) (n : Int) (level : Nat) :
    c ∉ int n level := by
  have hnum : c ∉ num n.natAbs level := by
    intro hmem
    rw [Nat.isDigit_of_mem_toDigits (by decide) (by decide) hmem] at hdigit
    cases hdigit
  rw [int]
  split
  · rw [List.mem_cons, not_or]
    exact ⟨hc, hnum⟩
  · exact hnum

theorem flat_int (n : Int) (level : Nat) : flat (int n level) = int n 0 :=
  flat_of_not_mem (not_mem_int (by decide) (by decide) n level)

theorem printable_newCommandId (random : UInt32) :
    ∀ c ∈ newCommandId random, printable c = true := by
  have hlit : ∀ c ∈ "cmd_".toList, printable c = true := by decide
  have hdigit : ∀ n < 16, printable (hexDigit n) = true := by decide
  intro c hc
  rcases List.mem_append.mp hc with hc | hc
  · exact hlit c hc
  · obtain ⟨i, -, rfl⟩ := List.mem_map.mp hc
    exact hdigit _ (Nat.mod_lt _ (by decide))

theorem Action.name_misses (action : Action) : ¬ Hits "command_id".toList action.name := by
  cases action with
  | closeChart =>
    show ¬ Hits "command_id".toList "close_chart".toList
    decide
  | screenshot =>
    show ¬ Hits "command_id".toList "screenshot".toList
    decide

/-- What stands before `command_id`. -/
def Action.before (action : Action) (chartId : Int) : List Token :=
  [⟨"action".toList, ": ".toList⟩, ⟨action.name, ",  ".toList⟩,
    ⟨"chart_id".toList, ": ".toList ++ (int chartId 0 ++ ",  ".toList)⟩]

/-- `command.json` as the loader has it. -/
theorem Command.flat_text (c : Command) : ∃ chartId stop more, flat c.text =
    "\x7b  ".toList ++ (render (c.action.before chartId ++ ⟨"command_id".toList, ": ".toList⟩ ::
      ⟨c.id, stop⟩ :: more) ++ []) := by
  obtain ⟨call, random, action⟩ := c
  cases action with
  | closeChart chartId =>
    refine ⟨chartId, "\x7d".toList, [], ?_⟩
    simp [Command.text, dumps, obj, List.insertionSort, List.orderedInsert, block, List.intercalate,
      flat_cons, flat_append, flat_newline, str, flat_quote, flat_int, Action.payload,
      Action.before, render]
  | screenshot chartId width height =>
    refine ⟨chartId, ",  ".toList,
      [⟨"height".toList, ": ".toList ++ (int height 0 ++ ",  ".toList)⟩,
        ⟨"width".toList, ": ".toList ++ (int width 0 ++ "\x7d".toList)⟩], ?_⟩
    simp [Command.text, dumps, obj, List.insertionSort, List.orderedInsert, block, List.intercalate,
      flat_cons, flat_append, flat_newline, str, flat_quote, flat_int, Action.payload,
      Action.before, render]

/-- The loader reads the id that `run_command` wrote. -/
theorem Command.received_eq (c : Command) : c.received = c.id := by
  obtain ⟨chartId, stop, more, htext⟩ := c.flat_text
  rw [Command.received, htext]
  have hgap : '"' ∉ int chartId 0 := not_mem_int (by decide) (by decide) chartId 0
  have hcolon : ':' ∉ "command_id".toList := by decide
  have hcomma : ',' ∉ "command_id".toList := by decide
  apply jsonStr_tokens [] (by decide) (by decide) _ _ hcolon (printable_newCommandId c.random)
  · simp only [Action.before, List.forall_mem_cons]
    exact ⟨⟨by decide, ':', _, rfl, hcolon⟩, ⟨by decide, ',', _, rfl, hcomma⟩,
      ⟨by simp [hgap], ':', _, rfl, hcolon⟩, nofun⟩
  · simp only [Action.before, List.forall_mem_cons]
    exact ⟨by decide, c.action.name_misses, by decide, nofun⟩

theorem Command.received_ne_nil (c : Command) : c.received ≠ [] := by
  rw [c.received_eq]
  exact List.cons_ne_nil _ _

/-! ## The steps of both sides -/

/-- Where `run_command` is: before the call it makes next. -/
inductive Caller
  | idle
  /-- `os.path.exists(COMMAND_PATH)`. -/
  | looking (action : Action)
  /-- `_try_remove(COMMAND_PATH)`. -/
  | clearing (action : Action)
  /-- The first `_try_remove(COMMAND_RESULT_PATH)`. -/
  | clearingResult (action : Action)
  /-- `atomic_write_text`. -/
  | writing (action : Action)
  /-- The loop that reads the result: the caller waits. -/
  | polling (c : Command)
  /-- `_try_remove(COMMAND_RESULT_PATH)`, and the result is returned. -/
  | received (c : Command) (r : Reply)
  /-- `_try_remove(COMMAND_PATH)`, and `LoaderTimeout` is raised. -/
  | expired (c : Command)
  deriving DecidableEq

/-- Where `HandleCommand` is: before the call it makes next. -/
inductive Handler
  /-- `ReadFile`. -/
  | idle
  /-- `DeleteFileSafe`, of a command without an id. -/
  | deletingNameless
  | executing (c : Command)
  /-- `WriteFileAtomic`. -/
  | writing (c : Command) (r : Reply)
  /-- `DeleteFileSafe`. -/
  | deleting (c : Command)
  deriving DecidableEq

/-- The two files, both sides, and the commands that were executed so far. -/
structure Channel where
  /-- How often `command.json` was written. -/
  calls : Nat
  commandFile : Option Command
  resultFile : Option Reply
  caller : Caller
  handler : Handler
  executed : List (Command × Reply)

/-- What happens. A call of either side may fail. -/
inductive ChannelEvent
  | call (action : Action)
  | caller (succeeds : Bool) (random : UInt32)
  /-- The deadline is over. -/
  | expire
  | handler (succeeds : Bool) (x : Execution)

namespace Channel

/-- A removal that may fail. -/
def removed {α : Type} (file : Option α) (succeeds : Bool) : Option α :=
  if succeeds then none else file

/-- The next call of `run_command`. -/
def callerStep (s : Channel) (succeeds : Bool) (random : UInt32) : Option Channel :=
  match s.caller with
  | .idle => none
  | .looking action =>
    some { s with
      caller := if s.commandFile.isSome then .clearing action else .clearingResult action }
  | .clearing action =>
    some { s with commandFile := removed s.commandFile succeeds, caller := .clearingResult action }
  | .clearingResult action =>
    some { s with resultFile := removed s.resultFile succeeds, caller := .writing action }
  | .writing action =>
    if succeeds then
      let c : Command := ⟨s.calls, random, action⟩
      some { s with calls := s.calls + 1, commandFile := some c, caller := .polling c }
    else some { s with caller := .idle }
  | .polling c =>
    match s.resultFile.filter fun r => succeeds ∧ r.commandId = c.id with
    | some r => some { s with caller := .received c r }
    | none => some s
  | .received _ _ => some { s with resultFile := removed s.resultFile succeeds, caller := .idle }
  | .expired _ => some { s with commandFile := removed s.commandFile succeeds, caller := .idle }

/-- The next call of `HandleCommand`. -/
def handlerStep (numerals : Numerals) (s : Channel) (succeeds : Bool) (x : Execution) : Channel :=
  match s.handler with
  | .idle =>
    match s.commandFile.filter fun _ => succeeds with
    | some c => { s with handler := if c.received = [] then .deletingNameless else .executing c }
    | none => s
  | .deletingNameless => { s with commandFile := removed s.commandFile succeeds, handler := .idle }
  | .executing c =>
    let r := c.reply numerals x
    { s with executed := (c, r) :: s.executed, handler := .writing c r }
  | .writing c r =>
    { s with resultFile := if succeeds then some r else s.resultFile, handler := .deleting c }
  | .deleting _ => { s with commandFile := removed s.commandFile succeeds, handler := .idle }

/-- One step. The lock admits one call at a time. -/
def step (numerals : Numerals) (s : Channel) : ChannelEvent → Option Channel
  | .call action => if s.caller = .idle then some { s with caller := .looking action } else none
  | .caller succeeds random => s.callerStep succeeds random
  | .expire =>
    match s.caller with
    | .polling c => some { s with caller := .expired c }
    | _ => none
  | .handler succeeds x => some (s.handlerStep numerals succeeds x)

/-- Neither side has done anything yet. -/
def start : Channel := ⟨0, none, none, .idle, .idle, []⟩

/-- What is asked of the channel in every state. -/
structure Sound (s : Channel) : Prop where
  /-- A command that is waited for is in its file, or in the loader's hands, or executed. -/
  waited : ∀ c, s.caller = .polling c →
    s.commandFile = some c ∨ s.handler = .executing c ∨ ∃ r, (c, r) ∈ s.executed
  once : (s.executed.map fun e => e.1.call).Nodup
  /-- The result that is returned was written for the id of the caller's command. -/
  own : ∀ c r, s.caller = .received c r →
    r.commandId = c.id ∧ ∃ d, (d, r) ∈ s.executed ∧ d.id = c.id

/-- `run_command` writes a command while the loader is in no command, and the loader deletes the
command it executed when it is still there. -/
def Orderly (s : Channel) : ChannelEvent → Prop
  | .caller true _ => ∀ action, s.caller = .writing action → s.handler = .idle
  | .handler false _ => ∀ c, s.handler = .deleting c → s.commandFile ≠ some c
  | _ => True

/-! ## What a step can do -/

end Channel

/-- The caller waits for a result, or has one. -/
def Caller.waits : Caller → Bool
  | .polling _ => true
  | .received _ _ => true
  | _ => false

/-- The command that the loader has read. -/
def Handler.command : Handler → Option Command
  | .executing c => some c
  | .writing c _ => some c
  | .deleting c => some c
  | _ => none

namespace Channel

/-- What a step does, by what it does to the commands. -/
inductive Moves (numerals : Numerals) (s : Channel) (e : ChannelEvent) : Channel → Prop
  | stays : Moves numerals s e s
  /-- A caller that does not wait may remove the files. -/
  | clears (file : Option Command) (result : Option Reply) (caller : Caller)
      (hfile : file = none ∨ file = s.commandFile) (hresult : result = none ∨ result = s.resultFile)
      (hcaller : caller.waits = false) :
      Moves numerals s e { s with commandFile := file, resultFile := result, caller := caller }
  | writes (action : Action) (random : UInt32) (he : e = .caller true random)
      (hcaller : s.caller = .writing action) :
      Moves numerals s e { s with
        calls := s.calls + 1
        commandFile := some ⟨s.calls, random, action⟩
        caller := .polling ⟨s.calls, random, action⟩ }
  | receives (c : Command) (r : Reply) (hresult : s.resultFile = some r)
      (hid : r.commandId = c.id) : Moves numerals s e { s with caller := .received c r }
  | reads (c : Command) (hhandler : s.handler = .idle) (hfile : s.commandFile = some c) :
      Moves numerals s e { s with handler := .executing c }
  | executes (c : Command) (r : Reply) (hhandler : s.handler = .executing c)
      (hid : r.commandId = c.id) :
      Moves numerals s e { s with executed := (c, r) :: s.executed, handler := .writing c r }
  | replies (c : Command) (r : Reply) (result : Option Reply) (hhandler : s.handler = .writing c r)
      (hresult : result = some r ∨ result = s.resultFile) :
      Moves numerals s e { s with resultFile := result, handler := .deleting c }
  | deletes (c : Command) (succeeds : Bool) (x : Execution) (he : e = .handler succeeds x)
      (hhandler : s.handler = .deleting c) :
      Moves numerals s e
        { s with commandFile := removed s.commandFile succeeds, handler := .idle }
  /-- No run comes here: every command has an id. -/
  | deletesNameless (file : Option Command) (hhandler : s.handler = .deletingNameless) :
      Moves numerals s e { s with commandFile := file, handler := .idle }

variable {numerals : Numerals} {s t : Channel} {e : ChannelEvent}

theorem removed_eq {α : Type} (file : Option α) (succeeds : Bool) :
    removed file succeeds = none ∨ removed file succeeds = file := by
  cases succeeds with
  | true => exact Or.inl rfl
  | false => exact Or.inr rfl

theorem Moves.of_callerStep {succeeds : Bool} {random : UInt32}
    (h : s.callerStep succeeds random = some t) : Moves numerals s (.caller succeeds random) t := by
  rw [callerStep] at h
  split at h
  next => cases h
  next action hcaller =>
    obtain rfl := Option.some.inj h
    refine .clears _ _ _ (Or.inr rfl) (Or.inr rfl) ?_
    split <;> rfl
  next action hcaller =>
    obtain rfl := Option.some.inj h
    exact .clears _ _ _ (removed_eq _ _) (Or.inr rfl) rfl
  next action hcaller =>
    obtain rfl := Option.some.inj h
    exact .clears _ _ _ (Or.inr rfl) (removed_eq _ _) rfl
  next action hcaller =>
    cases succeeds with
    | true =>
      obtain rfl := Option.some.inj h
      exact .writes action random rfl hcaller
    | false =>
      obtain rfl := Option.some.inj h
      exact .clears _ _ _ (Or.inr rfl) (Or.inr rfl) rfl
  next c hcaller =>
    split at h
    next r hr =>
      obtain rfl := Option.some.inj h
      obtain ⟨hresult, hid⟩ := Option.filter_eq_some_iff.mp hr
      exact .receives c r hresult (by simpa using (of_decide_eq_true hid).2)
    next =>
      obtain rfl := Option.some.inj h
      exact .stays
  next c r hcaller =>
    obtain rfl := Option.some.inj h
    exact .clears _ _ _ (Or.inr rfl) (removed_eq _ _) rfl
  next c hcaller =>
    obtain rfl := Option.some.inj h
    exact .clears _ _ _ (removed_eq _ _) (Or.inr rfl) rfl

theorem Moves.of_handlerStep (succeeds : Bool) (x : Execution) :
    Moves numerals s (.handler succeeds x) (s.handlerStep numerals succeeds x) := by
  rw [handlerStep]
  split
  next hhandler =>
    split
    next c hc =>
      obtain ⟨hfile, -⟩ := Option.filter_eq_some_iff.mp hc
      rw [if_neg c.received_ne_nil]
      exact .reads c hhandler hfile
    next => exact .stays
  next hhandler => exact .deletesNameless _ hhandler
  next c hhandler =>
    exact .executes c _ hhandler ((commandId_reply numerals c x).trans c.received_eq)
  next c r hhandler =>
    refine .replies c r _ hhandler ?_
    cases succeeds with
    | true => exact Or.inl rfl
    | false => exact Or.inr rfl
  next c hhandler => exact .deletes c succeeds x rfl hhandler

theorem Moves.of_step (h : step numerals s e = some t) : Moves numerals s e t := by
  cases e with
  | call action =>
    rw [step] at h
    split at h
    · obtain rfl := Option.some.inj h
      exact .clears _ _ _ (Or.inr rfl) (Or.inr rfl) rfl
    · cases h
  | caller succeeds random => exact .of_callerStep h
  | expire =>
    rw [step] at h
    split at h
    · obtain rfl := Option.some.inj h
      exact .clears _ _ _ (Or.inr rfl) (Or.inr rfl) rfl
    · cases h
  | handler succeeds x =>
    obtain rfl := Option.some.inj h
    exact .of_handlerStep succeeds x

/-! ## What every run keeps -/

/-- Commands are numbered, and every result was written for the id of a command that was executed.
-/
structure Honest (s : Channel) : Prop where
  file_lt : ∀ c, s.commandFile = some c → c.call < s.calls
  handler_lt : ∀ c, s.handler.command = some c → c.call < s.calls
  executed_lt : ∀ e ∈ s.executed, e.1.call < s.calls
  answers : ∀ e ∈ s.executed, e.2.commandId = e.1.id
  named : s.handler ≠ .deletingNameless
  writing : ∀ c r, s.handler = .writing c r → (c, r) ∈ s.executed
  deleting : ∀ c, s.handler = .deleting c → ∃ r, (c, r) ∈ s.executed
  result : ∀ r, s.resultFile = some r → ∃ d, (d, r) ∈ s.executed
  own : ∀ c r, s.caller = .received c r →
    r.commandId = c.id ∧ ∃ d, (d, r) ∈ s.executed ∧ d.id = c.id

theorem Honest.step (hs : Honest s) (h : Moves numerals s e t) : Honest t := by
  cases h with
  | stays => exact hs
  | clears file result caller hfile hresult hcaller =>
    refine { hs with file_lt := ?_, result := ?_, own := ?_ }
    · rintro c rfl
      -- a file is as it was, or there is none
      rcases hfile with hfile | hfile
      · cases hfile
      · exact hs.file_lt c hfile.symm
    · rintro r rfl
      rcases hresult with hresult | hresult
      · cases hresult
      · exact hs.result r hresult.symm
    · rintro c r rfl
      cases hcaller
  | writes action random he hcaller =>
    refine { hs with file_lt := ?_, handler_lt := ?_, executed_lt := ?_, own := nofun }
    · rintro c hc
      obtain rfl := Option.some.inj hc
      exact Nat.lt_succ_self _
    · exact fun c hc => Nat.lt_succ_of_lt (hs.handler_lt c hc)
    · exact fun e he => Nat.lt_succ_of_lt (hs.executed_lt e he)
  | receives c r hresult hid =>
    refine { hs with own := ?_ }
    rintro c' r' hreceived
    obtain ⟨rfl, rfl⟩ := Caller.received.inj hreceived
    -- the result was made of a command, and has the name of that
    obtain ⟨d, hd⟩ := hs.result r hresult
    exact ⟨hid, d, hd, (hs.answers _ hd).symm.trans hid⟩
  | reads c hhandler hfile =>
    refine { hs with handler_lt := ?_, named := nofun, writing := nofun, deleting := nofun }
    rintro c' hc'
    obtain rfl := Option.some.inj hc'
    exact hs.file_lt c hfile
  | executes c r hhandler hid =>
    have hlt : c.call < s.calls := hs.handler_lt c (by rw [hhandler, Handler.command])
    refine { hs with
      handler_lt := ?_, executed_lt := ?_, answers := ?_, named := nofun, writing := ?_
      deleting := nofun, result := ?_, own := ?_ }
    · rintro c' hc'
      obtain rfl := Option.some.inj hc'
      exact hlt
    · exact List.forall_mem_cons.mpr ⟨hlt, hs.executed_lt⟩
    · exact List.forall_mem_cons.mpr ⟨hid, hs.answers⟩
    · rintro c' r' hwriting
      obtain ⟨rfl, rfl⟩ := Handler.writing.inj hwriting
      exact List.mem_cons_self
    -- what was executed before stays executed
    · intro r' hr'
      obtain ⟨d, hd⟩ := hs.result r' hr'
      exact ⟨d, List.mem_cons_of_mem _ hd⟩
    · intro c' r' hreceived
      obtain ⟨hid', d, hd, hdid⟩ := hs.own c' r' hreceived
      exact ⟨hid', d, List.mem_cons_of_mem _ hd, hdid⟩
  | replies c r result hhandler hresult =>
    have hmem := hs.writing c r hhandler
    refine { hs with
      handler_lt := ?_, named := nofun, writing := nofun, deleting := ?_, result := ?_ }
    · rintro c' hc'
      obtain rfl := Option.some.inj hc'
      exact hs.handler_lt c (by rw [hhandler, Handler.command])
    · intro c' hdeleting
      obtain rfl := Handler.deleting.inj hdeleting
      exact ⟨r, hmem⟩
    · rintro r' rfl
      rcases hresult with hresult | hresult
      · obtain rfl := Option.some.inj hresult
        exact ⟨c, hmem⟩
      · exact hs.result r' hresult.symm
  | deletes c succeeds x he hhandler =>
    refine { hs with
      file_lt := ?_, handler_lt := nofun, named := nofun, writing := nofun, deleting := nofun }
    intro c' hc'
    -- a file that could not be deleted is still there
    rcases removed_eq s.commandFile succeeds with hgone | hsame
    · cases hgone.symm.trans hc'
    · exact hs.file_lt c' (hsame.symm.trans hc')
  | deletesNameless file hhandler => exact absurd hhandler hs.named

theorem honest_start : Honest start :=
  ⟨nofun, nofun, nofun, nofun, nofun, nofun, nofun, nofun, nofun⟩

theorem honest_of_run (h : Run (step numerals) start s) : Honest s :=
  h.invariant (fun _ _ _ hs _ hstep => hs.step (.of_step hstep)) honest_start

/-! ## What a run of orderly steps keeps -/

/-- The command was not executed. -/
def Untouched (s : Channel) (c : Command) : Prop := ∀ e ∈ s.executed, e.1.call ≠ c.call

/-- The file holds no command but the one in the loader's hands, which is executed once. -/
structure Handed (s : Channel) : Prop where
  inHand : ∀ c, s.handler.command = some c → ∀ d, s.commandFile = some d → d = c
  file : s.handler = .idle → ∀ c, s.commandFile = some c → s.Untouched c
  executing : ∀ c, s.handler = .executing c → s.Untouched c
  waited : ∀ c, s.caller = .polling c →
    s.commandFile = some c ∨ s.handler = .executing c ∨ ∃ r, (c, r) ∈ s.executed
  once : (s.executed.map fun e => e.1.call).Nodup

theorem Handed.step (hs : Handed s) (honest : Honest s) (hok : Orderly s e)
    (h : Moves numerals s e t) : Handed t := by
  cases h with
  | stays => exact hs
  | clears file result caller hfile hresult hcaller =>
    have hsub : ∀ c, file = some c → s.commandFile = some c := by
      rintro c rfl
      rcases hfile with hfile | hfile
      · cases hfile
      · exact hfile.symm
    refine { hs with inHand := ?_, file := ?_, waited := ?_ }
    · exact fun c hc d hd => hs.inHand c hc d (hsub d hd)
    · exact fun hidle c hc => hs.file hidle c (hsub c hc)
    · rintro c rfl
      cases hcaller
  | writes action random he hcaller =>
    subst he
    have hidle : s.handler = .idle := hok action hcaller
    refine { hs with inHand := ?_, file := ?_, waited := ?_ }
    · intro c hc
      rw [hidle] at hc
      cases hc
    · rintro - c hc e he heq
      obtain rfl := Option.some.inj hc
      -- no call was numbered so before
      exact absurd (honest.executed_lt e he) (by simp [heq])
    · intro c hpolling
      obtain rfl := Caller.polling.inj hpolling
      exact Or.inl rfl
  | receives c r hresult hid => exact { hs with waited := nofun }
  | reads c hhandler hfile =>
    refine { hs with inHand := ?_, file := nofun, executing := ?_, waited := ?_ }
    · intro c' hc' d hd
      obtain rfl := Option.some.inj hc'
      exact Option.some.inj (hd.symm.trans hfile)
    · intro c' hexecuting
      obtain rfl := Handler.executing.inj hexecuting
      exact hs.file hhandler c hfile
    · intro d hd
      rcases hs.waited d hd with hd | hd | hd
      · exact Or.inl hd
      · rw [hhandler] at hd
        cases hd
      · exact Or.inr (Or.inr hd)
  | executes c r hhandler hid =>
    have huntouched := hs.executing c hhandler
    refine { hs with inHand := ?_, file := nofun, executing := nofun, waited := ?_, once := ?_ }
    · intro c' hc' d hd
      obtain rfl := Option.some.inj hc'
      exact hs.inHand c (by rw [hhandler, Handler.command]) d hd
    · intro d hd
      rcases hs.waited d hd with hd | hd | ⟨r', hd⟩
      · exact Or.inl hd
      · rw [hhandler] at hd
        obtain rfl := Handler.executing.inj hd
        exact Or.inr (Or.inr ⟨r, List.mem_cons_self⟩)
      · exact Or.inr (Or.inr ⟨r', List.mem_cons_of_mem _ hd⟩)
    · refine List.nodup_cons.mpr ⟨fun hmem => ?_, hs.once⟩
      obtain ⟨e, he, heq⟩ := List.mem_map.mp hmem
      exact huntouched e he heq
  | replies c r result hhandler hresult =>
    refine { hs with inHand := ?_, file := nofun, executing := nofun, waited := ?_ }
    · intro c' hc' d hd
      obtain rfl := Option.some.inj hc'
      exact hs.inHand c (by rw [hhandler, Handler.command]) d hd
    · intro d hd
      rcases hs.waited d hd with hd | hd | hd
      · exact Or.inl hd
      · rw [hhandler] at hd
        cases hd
      · exact Or.inr (Or.inr hd)
  | deletes c succeeds x he hhandler =>
    subst he
    have hhand := hs.inHand c (by rw [hhandler, Handler.command])
    -- what the file held, if anything, was the command that was executed
    have hgone : removed s.commandFile succeeds = none := by
      cases succeeds with
      | true => rfl
      | false =>
        rcases hfile : s.commandFile with _ | d
        · rfl
        · rw [hhand d hfile] at hfile
          exact absurd hfile (hok c hhandler)
    refine { hs with inHand := nofun, file := ?_, executing := nofun, waited := ?_ }
    · intro _ d hd
      cases hgone.symm.trans hd
    · intro d hd
      rcases hs.waited d hd with hd | hd | hd
      · rw [hhand d hd]
        exact Or.inr (Or.inr (honest.deleting c hhandler))
      · rw [hhandler] at hd
        cases hd
      · exact Or.inr (Or.inr hd)
  | deletesNameless file hhandler => exact absurd hhandler honest.named

theorem sound_of_run (h : RunOf (step numerals) Orderly start s) : Sound s := by
  have handed : Handed s := by
    refine h.invariant_of (Q := Honest) (fun t ht => honest_of_run ht.run) ?_ ?_
    · exact fun t a u honest _ handed hok hstep => handed.step honest hok (.of_step hstep)
    · exact ⟨nofun, nofun, nofun, nofun, List.nodup_nil⟩
  exact ⟨handed.waited, handed.once, (honest_of_run h.run).own⟩

/-! ## What a step that is not orderly leads to -/

/-- The loader goes on, and all its calls succeed. -/
def goesOn : ChannelEvent := .handler true ⟨0, true, 0⟩

/-- A command is waited for that the loader has not read while it is in another one. -/
structure Doomed (s : Channel) (c : Command) : Prop where
  polling : s.caller = .polling c
  untouched : s.Untouched c
  other : ∀ d, s.handler.command = some d → d.call ≠ c.call

theorem lost_of_deleting {c d : Command} (hs : Doomed s c) (h : s.handler = .deleting d) :
    ∃ u, Run (step numerals) s u ∧ ¬ Sound u := by
  have hstep : step numerals s goesOn = some { s with commandFile := none, handler := .idle } := by
    simp [step, goesOn, handlerStep, h, removed]
  refine ⟨_, RunOf.head trivial hstep RunOf.refl, fun hsound => ?_⟩
  rcases hsound.waited c hs.polling with hfile | hhandler | ⟨r, hr⟩
  · cases hfile
  · cases hhandler
  · exact hs.untouched _ hr rfl

theorem lost_of_writing {c d : Command} {r : Reply} (hs : Doomed s c)
    (h : s.handler = .writing d r) : ∃ u, Run (step numerals) s u ∧ ¬ Sound u := by
  let t : Channel := { s with resultFile := some r, handler := .deleting d }
  have hstep : step numerals s goesOn = some t := by
    simp [step, goesOn, handlerStep, h, t]
  have ht : Doomed t c := by
    refine { hs with other := ?_ }
    intro d' hd'
    obtain rfl := Option.some.inj hd'
    exact hs.other d (by rw [h, Handler.command])
  have hlost : ∃ u, Run (step numerals) t u ∧ ¬ Sound u := lost_of_deleting ht rfl
  obtain ⟨u, hrun, hu⟩ := hlost
  exact ⟨u, RunOf.head trivial hstep hrun, hu⟩

theorem lost_of_executing {c d : Command} (hs : Doomed s c) (h : s.handler = .executing d) :
    ∃ u, Run (step numerals) s u ∧ ¬ Sound u := by
  let r := d.reply numerals ⟨0, true, 0⟩
  let t : Channel := { s with executed := (d, r) :: s.executed, handler := .writing d r }
  have hstep : step numerals s goesOn = some t := by
    simp [step, goesOn, handlerStep, h, t, r]
  have hother : d.call ≠ c.call := hs.other d (by rw [h, Handler.command])
  have ht : Doomed t c := by
    refine { hs with untouched := List.forall_mem_cons.mpr ⟨hother, hs.untouched⟩, other := ?_ }
    intro d' hd'
    obtain rfl := Option.some.inj hd'
    exact hother
  have hlost : ∃ u, Run (step numerals) t u ∧ ¬ Sound u := lost_of_writing ht rfl
  obtain ⟨u, hrun, hu⟩ := hlost
  exact ⟨u, RunOf.head trivial hstep hrun, hu⟩

/-- A command that is executed and still in its file is executed again. -/
theorem twice_of_idle {c : Command} {r : Reply} (h : s.handler = .idle)
    (hfile : s.commandFile = some c) (hr : (c, r) ∈ s.executed) :
    ∃ u, Run (step numerals) s u ∧ ¬ Sound u := by
  let t : Channel := { s with handler := .executing c }
  have hread : step numerals s goesOn = some t := by
    simp [step, goesOn, handlerStep, h, hfile, Option.filter, c.received_ne_nil, t]
  obtain ⟨r', hstep⟩ : ∃ r', step numerals t goesOn =
      some { t with executed := (c, r') :: s.executed, handler := .writing c r' } :=
    ⟨_, rfl⟩
  refine ⟨_, RunOf.head trivial hread (RunOf.head trivial hstep RunOf.refl), fun hsound => ?_⟩
  have hnodup := hsound.once
  rw [List.map_cons, List.nodup_cons] at hnodup
  exact hnodup.1 (List.mem_map.mpr ⟨_, hr, rfl⟩)

theorem not_sound_of_not_orderly (h : Run (step numerals) start s) (hok : ¬ Orderly s e)
    (hstep : step numerals s e = some t) : ∃ u, Run (step numerals) t u ∧ ¬ Sound u := by
  have honest := honest_of_run h
  cases e with
  | call action => exact absurd trivial hok
  | expire => exact absurd trivial hok
  | caller succeeds random =>
    cases succeeds with
    | false => exact absurd trivial hok
    | true =>
      obtain ⟨action, hcaller, hbusy⟩ : ∃ action, s.caller = .writing action ∧
          s.handler ≠ .idle := by
        simpa [Orderly] using hok
      let c : Command := ⟨s.calls, random, action⟩
      have ht : { s with
          calls := s.calls + 1, commandFile := some c, caller := .polling c } = t := by
        simpa [step, callerStep, hcaller] using hstep
      have hsame : t.handler = s.handler := by rw [← ht]
      have hdoomed : Doomed t c := by
        rw [← ht]
        exact ⟨rfl, fun e he => (honest.executed_lt e he).ne,
          fun d hd => (honest.handler_lt d hd).ne⟩
      cases hhandler : t.handler with
      | idle => exact absurd (hsame.symm.trans hhandler) hbusy
      | deletingNameless => exact absurd (hsame.symm.trans hhandler) honest.named
      | executing d => exact lost_of_executing hdoomed hhandler
      | writing d r => exact lost_of_writing hdoomed hhandler
      | deleting d => exact lost_of_deleting hdoomed hhandler
  | handler succeeds x =>
    cases succeeds with
    | true => exact absurd trivial hok
    | false =>
      obtain ⟨c, hhandler, hfile⟩ : ∃ c, s.handler = .deleting c ∧ s.commandFile = some c := by
        simpa [Orderly] using hok
      obtain ⟨r, hr⟩ := honest.deleting c hhandler
      obtain rfl : _ = t := by simpa [step, handlerStep, hhandler, removed] using hstep
      exact twice_of_idle rfl hfile hr

/-- In every state of a run of orderly steps no command is lost that is waited for, none is executed
twice, and each caller has its own result; every other step that a run may take can lead on to a
state where this is wrong. -/
theorem sound_iff_orderly (numerals : Numerals) :
    (∀ s, RunOf (step numerals) Orderly start s → Sound s) ∧
      ∀ s e t, Run (step numerals) start s → step numerals s e = some t → ¬ Orderly s e →
        ∃ u, Run (step numerals) t u ∧ ¬ Sound u :=
  ⟨fun _ h => sound_of_run h, fun _ _ _ h hstep hok => not_sound_of_not_orderly h hok hstep⟩

/-- The loader has read a command when its caller gives up, and the next one is written. -/
def lateLoader : List ChannelEvent :=
  [.call (.closeChart 7), .caller true 1, .caller true 1, .caller true 1, goesOn, .expire,
    .caller true 1, .call (.closeChart 8), .caller true 2, .caller true 2]

theorem not_sound : ¬ ∀ (numerals : Numerals) (s : Channel), Run (step numerals) start s →
    Sound s := by
  intro h
  let s : Channel := ⟨1, none, none, .writing (.closeChart 8), .executing ⟨0, 1, .closeChart 7⟩, []⟩
  have hexec : exec (step decimals) start lateLoader = some s := by
    simp [lateLoader, exec, start, step, goesOn, callerStep, handlerStep, removed, Option.filter,
      Command.received_ne_nil, s]
  have hrun := run_of_exec hexec
  have hwrite : ¬ Orderly s (.caller true 2) := by
    intro hok
    cases hok (.closeChart 8) rfl
  obtain ⟨t, hstep⟩ : ∃ t, step decimals s (.caller true 2) = some t := ⟨_, rfl⟩
  obtain ⟨u, hlater, hu⟩ := not_sound_of_not_orderly hrun hwrite hstep
  exact hu (h decimals u ((hrun.tail trivial hstep).trans hlater))

end Channel

end ChartCtl

import Mt5HttpApi.DesktopHeap.SharedSection
import Mt5HttpApi.Lib.Decimal
import Mt5HttpApi.Lib.Interaction
import Mt5HttpApi.Lib.JsonEscape
import Mt5HttpApi.Lib.Transition

/-!
# Raising the heap and restoring it

`scripts/desktop_heap.py`: the script saves the value that it finds before it writes the first time,
and `--restore` writes it back. Each call on the registry and on the disk may fail, a write to the
registry may be lost, and the script may be killed between two calls.

`raise_exact_and_reversible` is about every run of raises and restores from a value without a
backup. The backup is of that value, no raise lowers the field, and a restore that succeeds leaves
that value.
-/

namespace DesktopHeap

open Utf8 Interaction Transition
open JsonLoads (ofString ofString_inj)

/-! ### The backup -/

/-- What is raised. -/
inductive Exc
  | osError
  | fileNotFound
  | valueError
  | typeError
  | recursionError

/-- `except OSError` -/
def Exc.isOs : Exc → Bool
  | .osError | .fileNotFound => true
  | _ => false

/-- `except (OSError, ValueError, TypeError)` -/
def Exc.caught : Exc → Bool
  | .recursionError => false
  | _ => true

/-- `KEY` -/
def keyPath : Str := ofString "SYSTEM\\CurrentControlSet\\Control\\Session Manager\\SubSystems"

/-- The text that `json.dump` writes. -/
def dumpText (value : Str) (type : ℤ) : List Char :=
  JsonLoads.object [' '] [("key".toList, JsonLoads.quote keyPath),
    ("value_name".toList, JsonLoads.quote (ofString "Windows")),
    ("value".toList, JsonLoads.quote value), ("type".toList, JsonLoads.intText type)]

/-- The content of the backup. -/
def dump (value : Str) (type : ℤ) : List UInt8 := Utf8.encode (dumpText value type)

/-- How `json.load` fails. -/
def Exc.ofJson : JsonLoads.Error → Exc
  | .value => .valueError
  | .recursion => .recursionError

/-- What `_load_original` makes of the backup. The parser nests at least one deep. -/
def savedOriginal (depth : ℕ) (bytes : List UInt8) : Except Exc (Str × ℤ) :=
  match JsonLoads.load id (depth + 1) bytes with
  | .error e => .error (.ofJson e)
  | .ok (.obj saved) =>
    match Dict.get saved (ofString "value"), Dict.get saved (ofString "type") with
    | some (.str value), some (.int type) => .ok (value, type)
    | _, _ => .error .typeError
  | .ok _ => .error .typeError

/-- A string that the registry gives: it has no NUL, and its surrogates are no pairs. -/
structure IsRead (value : Str) : Prop where
  unpaired : JsonLoads.Unpaired value
  noNul : .scalar '\x00' ∉ value

/-- What the registry gives of a string that was written to it. -/
def stored (value : Str) : Str := JsonLoads.joined (value.takeWhile fun c => c ≠ .scalar '\x00')

theorem stored_of_isRead {value : Str} (h : IsRead value) : stored value = value := by
  have hall : value.takeWhile (fun c => c ≠ .scalar '\x00') = value := by
    rw [List.takeWhile_eq_self_iff]
    intro c hc
    exact decide_eq_true fun heq => h.noNul (heq ▸ hc)
  rw [stored, hall, JsonLoads.joined_eq_self h.unpaired]

/-- No character of a string in JSON ends a line. -/
theorem no_return_quote (s : Str) : '\r' ∉ JsonLoads.quote s := by
  have hpoint : ∀ x, '\r' ∉ JsonLoads.escapePoint x := by
    intro x hmem
    have hprint : ∀ text : List Char, text.all JsonText.printable = true → '\r' ∉ text := by
      intro text htext hr
      exact absurd (List.all_eq_true.mp htext _ hr) (by decide)
    cases x with
    | scalar c => exact hprint _ (JsonText.printable_escapeChar c) hmem
    | surrogate n => exact hprint _ (JsonText.printable_unicodeEscape _) hmem
  simp only [JsonLoads.quote, JsonLoads.escape, List.mem_append, List.mem_cons, List.mem_flatMap,
    List.not_mem_nil, or_false, not_or]
  refine ⟨⟨by decide, ?_⟩, by decide⟩
  rintro ⟨x, -, hx⟩
  exact hpoint x hx

/-- What was saved is read back. -/
theorem savedOriginal_dump (depth : ℕ) {value : Str} (hvalue : IsRead value) (type : UInt32) :
    savedOriginal depth (dump value type.toNat) = .ok (value, type.toNat) := by
  -- a type has ten digits at most
  have hshort : (Nat.toDigits 10 (type.toNat : ℤ).natAbs).length ≤ PyInt.maxDigits := by
    have hlt := type.toNat_lt
    have hten := (@Nat.length_toDigits_le_iff 10 type.toNat 10 (by decide) (by decide)).mpr
      (by omega)
    rw [Int.natAbs_natCast]
    exact hten.trans (by decide)
  have htype : JsonLoads.Reads id depth (JsonLoads.intText type.toNat)
      (some (.int type.toNat)) := (JsonLoads.reads_int hshort).mono (Nat.zero_le _)
  have hblank : ∀ c ∈ [' '], JsonLoads.isBlank c = true := by simp [JsonLoads.isBlank]
  -- the object is read entry by entry
  let entries : List (JsonLoads.Entry (List Char)) :=
    [.named "key".toList (JsonLoads.quote keyPath) (some (.str (JsonLoads.joined keyPath))),
      .named "value_name".toList (JsonLoads.quote (ofString "Windows"))
        (some (.str (JsonLoads.joined (ofString "Windows")))),
      .named "value".toList (JsonLoads.quote value) (some (.str (JsonLoads.joined value))),
      .named "type".toList (JsonLoads.intText type.toNat) (some (.int type.toNat))]
  have hreads : ∀ e ∈ entries, e.Reads id depth := by
    intro e he
    simp only [entries, List.mem_cons, List.not_mem_nil, or_false] at he
    rcases he with rfl | rfl | rfl | rfl
    · exact JsonLoads.Entry.Reads.named (by decide) (JsonLoads.reads_quote _)
    · exact JsonLoads.Entry.Reads.named (by decide) (JsonLoads.reads_quote _)
    · exact JsonLoads.Entry.Reads.named (by decide) (JsonLoads.reads_quote _)
    · exact JsonLoads.Entry.Reads.named (by decide) htype
  have hload := (JsonLoads.reads_object hblank hreads).loads
  -- reading it as text changes no line ends
  have hreturn : '\r' ∉ dumpText value type.toNat := by
    have hkey : ∀ key : String, key.toList.contains '\r' = false → '\r' ∉ key.toList :=
      fun key hkey hmem => by simp [hmem] at hkey
    intro hmem
    rcases JsonLoads.mem_object hmem with h | h | ⟨item, hitem, h⟩
    · exact absurd h (by decide)
    · exact absurd h (by decide)
    · simp only [List.mem_cons, List.not_mem_nil, or_false] at hitem
      rcases hitem with rfl | rfl | rfl | rfl
      · exact h.elim (absurd · (hkey "key" (by decide))) (no_return_quote _)
      · exact h.elim (absurd · (hkey "value_name" (by decide))) (no_return_quote _)
      · exact h.elim (absurd · (hkey "value" (by decide))) (no_return_quote _)
      · refine h.elim (absurd · (hkey "type" (by decide))) fun h => ?_
        have hdigit := Nat.isDigit_of_mem_toDigits (b := 10) (by decide) (by decide)
          (intText_natCast _ ▸ h)
        exact absurd hdigit (by decide)
  have hvalues : entries.mapM JsonLoads.Entry.item =
      some [(ofString "key", .str (JsonLoads.joined keyPath)),
        (ofString "value_name", .str (JsonLoads.joined (ofString "Windows"))),
        (ofString "value", .str (JsonLoads.joined value)), (ofString "type", .int type.toNat)] := by
    simp only [entries, List.mapM_cons, List.mapM_nil, JsonLoads.Entry.item,
      JsonLoads.Entry.named, Option.map_some, Option.bind_eq_bind, Option.bind_some,
      Option.pure_def, ofString]
  have htext : JsonLoads.object [' '] (entries.map fun e => (e.body, e.text)) =
      dumpText value type.toNat := by
    simp only [entries, List.map_cons, List.map_nil, JsonLoads.Entry.named, dumpText]
  rw [htext, hvalues, Option.map_some, JsonLoads.orError_some, JsonLoads.fieldsOf_of_nodup] at hload
  · rw [savedOriginal, JsonLoads.load, dump, Utf8.decode_encode, JsonLoads.orError_some,
      JsonLoads.ok_bind, JsonLoads.universalNewlines_of_not_mem hreturn, hload]
    dsimp only
    simp only [Dict.get_cons, ofString_inj, JsonLoads.joined_eq_self hvalue.unpaired,
      String.reduceEq, if_true, if_false]
  · simp only [List.map_cons, List.map_nil, List.nodup_cons, List.mem_cons, List.not_mem_nil,
      ofString_inj, String.reduceEq, or_false, not_false_eq_true, List.nodup_nil, and_self]

/-! ### The script -/

/-- A call on the registry or on the disk. -/
inductive Op
  | openKey
  | closeKey
  | queryValue
  | setValue (type : ℤ) (value : Str)
  | backupExists
  | makeDirs
  | writeTmp (bytes : List UInt8)
  | replaceTmp
  | readBackup

/-- What a call returns, or raises. -/
def Ans : Op → Type
  | .queryValue => Except Exc (Str × ℤ)
  | .backupExists => Bool
  | .readBackup => Except Exc (List UInt8)
  | _ => Except Exc Unit

/-- A part of the script. -/
abbrev Script (α : Type) := ExceptT Exc (Program Ans) α

def openKey : Script Unit := @Program.ask Op Ans .openKey

def closeKey : Script Unit := @Program.ask Op Ans .closeKey

def queryValue : Script (Str × ℤ) := @Program.ask Op Ans .queryValue

def setValue (type : ℤ) (value : Str) : Script Unit := @Program.ask Op Ans (.setValue type value)

def backupExists : Script Bool := ExceptT.lift (@Program.ask Op Ans .backupExists)

def makeDirs : Script Unit := @Program.ask Op Ans .makeDirs

def writeTmp (bytes : List UInt8) : Script Unit := @Program.ask Op Ans (.writeTmp bytes)

def replaceTmp : Script Unit := @Program.ask Op Ans .replaceTmp

def readBackup : Script (List UInt8) := @Program.ask Op Ans .readBackup

variable (u : Decimals) (depth : ℕ)

/-- `_load_original`. -/
def loadOriginal : Script (Str × ℤ) := do
  let bytes ← readBackup
  ExceptT.mk (Program.done (savedOriginal depth bytes))

/-- `_save_original`. -/
def saveOriginal (value : Str) (type : ℤ) : Script Unit := do
  if ← backupExists then
    let _ ← loadOriginal depth
  else
    makeDirs
    writeTmp (dump value type)
    replaceTmp

/-- `with winreg.OpenKey(...)`: the key is closed however the body ends. -/
def withKey {α : Type} (body : Script α) : Script α := do
  openKey
  let outcome ← ExceptT.lift body.run
  closeKey
  ExceptT.mk (Program.done outcome)

/-- The body of `_raise`: what is there after the write, if there is one. -/
def raiseBody (target : ℤ) : Script (Option Str) := do
  let (value, type) ← queryValue
  match raisedSharedSection u value target with
  | .error _ => throw .valueError
  | .ok none => pure none
  | .ok (some newValue) =>
    -- No write without a way back.
    saveOriginal depth value type
    setValue type newValue
    let (written, _) ← queryValue
    pure (some written)

/-- How `_raise` ends: with an exit code, or by what it does not catch. -/
def raiseExit (target : ℤ) : Except Exc (Option Str) → Except Exc ℕ
  | .error e => if e.caught then .ok 1 else .error e
  | .ok none => .ok 0
  | .ok (some written) =>
    match raisedSharedSection u written target with
    | .ok none => .ok 3
    | _ => .ok 1

/-- `_raise`. -/
def raiseHeap (target : ℤ) : Program Ans (Except Exc ℕ) := do
  let outcome ← (withKey (raiseBody u depth target)).run
  pure (raiseExit u target outcome)

/-- The body of `_restore`: what is there after the write, if there is one. -/
def restoreBody (original : Str × ℤ) : Script (Option Str) := do
  let (current, _) ← queryValue
  if current = original.1 then pure none
  else
    setValue original.2 original.1
    let (written, _) ← queryValue
    pure (some written)

/-- How `_restore` ends once it has an original. -/
def restoreExit (original : Str × ℤ) : Except Exc (Option Str) → Except Exc ℕ
  | .error e => if e.isOs then .ok 1 else .error e
  | .ok none => .ok 0
  | .ok (some written) => if written = original.1 then .ok 3 else .ok 1

/-- `_restore`. -/
def restoreHeap : Program Ans (Except Exc ℕ) := do
  match ← (loadOriginal depth).run with
  | .error e => pure (if e.caught then .ok 1 else .error e)
  | .ok original =>
    let outcome ← (withKey (restoreBody original)).run
    pure (restoreExit original outcome)

/-! ### The machine -/

/-- The value in the registry with its type, and the files. -/
structure Machine where
  value : Str
  type : UInt32
  tmp : Option (List UInt8)
  backup : Option (List UInt8)

/-- How a call goes: what it raises, whether its effect is there, and what a write that fails leaves
in the file. -/
structure Choice where
  raises : Option Exc
  acts : Bool
  part : List UInt8

/-- What a call gives that may raise. -/
def Choice.gives {α : Type} (c : Choice) (a : α) : Except Exc α :=
  match c.raises with
  | some e => .error e
  | none => .ok a

namespace Machine

/-- What a call gives and does. -/
def answer (m : Machine) : (o : Op) → Choice → Option (Ans o × Machine)
  | .openKey, c => some (c.gives (), m)
  | .closeKey, c => some (c.gives (), m)
  | .queryValue, c => some (c.gives (m.value, (m.type.toNat : ℤ)), m)
  | .setValue type value, c =>
    some (c.gives (), if c.acts then
      { m with value := stored value, type := UInt32.ofInt type } else m)
  | .backupExists, _ => some (m.backup.isSome, m)
  | .makeDirs, c => some (c.gives (), m)
  | .writeTmp bytes, c =>
    match c.raises with
    | none => some (.ok (), { m with tmp := some bytes })
    | some e => some (.error e, if c.acts then { m with tmp := some c.part } else m)
  | .replaceTmp, c =>
    match m.tmp with
    | none => some (.error .fileNotFound, m)
    | some bytes => some (c.gives (), if c.raises = none ∨ c.acts then
        { m with tmp := none, backup := some bytes } else m)
  | .readBackup, c =>
    match m.backup with
    | none => some (.error .fileNotFound, m)
    | some bytes => some (c.gives bytes, m)

end Machine

/-- The machine does nothing on its own. -/
def world : World Machine Ans where
  Choice := Choice
  answer := Machine.answer
  Event := Empty
  move _ e := e.elim

/-- What the script is run for. -/
inductive Command
  | raise (target : ℤ)
  | restore

/-- The script. -/
def Command.program : Command → Program Ans (Except Exc ℕ)
  | .raise target => raiseHeap u depth target
  | .restore => restoreHeap depth

/-- The machine, and the script that runs on it. -/
structure System where
  machine : Machine
  script : Option (Command × Program Ans (Except Exc ℕ))

/-- The script is started, goes on, or is over or killed. -/
inductive Label
  | start (c : Command)
  | answer (choice : Choice)
  | stop

/-- One step. -/
def System.step (s : System) : Label → Option System
  | .start c =>
    match s.script with
    | none => some { s with script := some (c, c.program u depth) }
    | some _ => none
  | .answer choice =>
    match s.script with
    | none => none
    | some (c, p) => (resume world s.machine choice p).map fun r => ⟨r.1, some (c, r.2)⟩
  | .stop => some { s with script := none }

/-! ### What the calls do -/

/-- The number in the field of a value. -/
def FieldIs (value : Str) (n : ℕ) : Prop :=
  ∃ before field after, SecondField u value before field after ∧ number u field = n

/-- A value whose field is at least as large. -/
def NotLower (value value' : Str) : Prop :=
  ∀ n, FieldIs u value n → ∃ n', n ≤ n' ∧ FieldIs u value' n'

/-- The value is the first one, or there is a backup of that one. -/
structure Kept (first m : Machine) : Prop where
  isRead : IsRead m.value
  type : m.type = first.type
  backup : m.backup = none ∧ m.value = first.value ∨
    m.backup = some (dump first.value first.type.toNat)

/-- A call that may be made: a raise does not lower the field. -/
def Legal (first : Machine) (c : Command) (m : Machine) (o : Op) : Prop :=
  Kept first m ∧ ∀ target type value, c = .raise target → o = .setValue type value →
    NotLower u m.value (stored value)

/-- What a part of the script leads to, however its calls go. -/
abbrev Safe {α : Type} (first : Machine) (c : Command) (Q : α → Machine → Prop)
    (p : Program Ans α) (m : Machine) : Prop :=
  Interaction.Leads (W := world) (Legal u first c) (fun _ _ _ => True) Q p m

variable {u depth} {first m : Machine} {c : Command}

theorem moved_eq {m' : Machine} (h : Moved world m m') : m' = m := by
  induction h with
  | refl => rfl
  | tail _ hlast _ =>
    obtain ⟨e, -⟩ := hlast
    exact e.elim

theorem safe_done {α : Type} {Q : α → Machine → Prop} {a : α} (h : Q a m) :
    Safe u first c Q (.done a) m := by
  intro m' hmoved
  rw [moved_eq hmoved]
  exact h

/-- A call, by what it gives and does. -/
theorem safe_ask {o : Op} {Q : Ans o → Machine → Prop} (hlegal : Legal u first c m o)
    (h : ∀ choice a m', m.answer o choice = some (a, m') → Q a m') :
    Safe u first c Q (.ask o) m := by
  intro m' hmoved
  obtain rfl := moved_eq hmoved
  exact ⟨hlegal, fun choice a m' _ ha => safe_done (h choice a m' ha)⟩

/-- Only a write to the registry might lower the field. -/
theorem Kept.legal (h : Kept first m) {o : Op} (ho : ∀ type value, o ≠ .setValue type value) :
    Legal u first c m o :=
  ⟨h, fun _ type value _ heq => absurd heq (ho type value)⟩

theorem Choice.gives_eq_ok {α : Type} {choice : Choice} {a b : α} (h : choice.gives a = .ok b) :
    b = a := by
  rw [Choice.gives] at h
  split at h
  next => cases h
  next => exact (Except.ok.inj h).symm

theorem safe_openKey (h : Kept first m) : Safe u first c (fun _ m' => m' = m) openKey.run m := by
  apply safe_ask (h.legal (by rintro _ _ ⟨⟩))
  intro choice a m' ha
  exact (Prod.mk.inj (Option.some.inj ha)).2.symm

theorem safe_closeKey (h : Kept first m) : Safe u first c (fun _ m' => m' = m) closeKey.run m := by
  apply safe_ask (h.legal (by rintro _ _ ⟨⟩))
  intro choice a m' ha
  exact (Prod.mk.inj (Option.some.inj ha)).2.symm

theorem safe_makeDirs (h : Kept first m) : Safe u first c (fun _ m' => m' = m) makeDirs.run m := by
  apply safe_ask (h.legal (by rintro _ _ ⟨⟩))
  intro choice a m' ha
  exact (Prod.mk.inj (Option.some.inj ha)).2.symm

theorem safe_queryValue (h : Kept first m) : Safe u first c
    (fun r m' => m' = m ∧ ∀ a, r = .ok a → a = (m.value, (m.type.toNat : ℤ))) queryValue.run m := by
  apply safe_ask (h.legal (by rintro _ _ ⟨⟩))
  intro choice a m' ha
  obtain ⟨rfl, rfl⟩ := Prod.mk.inj (Option.some.inj ha)
  exact ⟨rfl, fun b hb => Choice.gives_eq_ok hb⟩

theorem safe_backupExists (h : Kept first m) : Safe u first c
    (fun r m' => m' = m ∧ r = .ok m.backup.isSome) backupExists.run m := by
  apply Interaction.Leads.bind (Q := fun b m' => m' = m ∧ b = m.backup.isSome)
  · apply safe_ask (h.legal (by rintro _ _ ⟨⟩))
    intro choice a m' ha
    obtain ⟨rfl, rfl⟩ := Prod.mk.inj (Option.some.inj ha)
    exact ⟨rfl, rfl⟩
  · rintro b m' ⟨rfl, rfl⟩
    exact safe_done ⟨rfl, rfl⟩

theorem safe_readBackup (h : Kept first m) : Safe u first c
    (fun r m' => m' = m ∧ ∀ bytes, r = .ok bytes → m.backup = some bytes) readBackup.run m := by
  apply safe_ask (h.legal (by rintro _ _ ⟨⟩))
  intro choice a m' ha
  rw [Machine.answer] at ha
  split at ha
  next =>
    obtain ⟨rfl, rfl⟩ := Prod.mk.inj (Option.some.inj ha)
    exact ⟨rfl, fun bytes hbytes => by cases hbytes⟩
  next bytes hbackup =>
    obtain ⟨rfl, rfl⟩ := Prod.mk.inj (Option.some.inj ha)
    exact ⟨rfl, fun b hb => by rw [hbackup, Choice.gives_eq_ok hb]⟩

theorem safe_writeTmp (h : Kept first m) (bytes : List UInt8) : Safe u first c
    (fun r m' => ∃ tmp, m' = { m with tmp := tmp } ∧ (r = .ok () → tmp = some bytes))
    (writeTmp bytes).run m := by
  apply safe_ask (h.legal (by rintro _ _ ⟨⟩))
  intro choice a m' ha
  rw [Machine.answer] at ha
  split at ha
  next =>
    obtain ⟨rfl, rfl⟩ := Prod.mk.inj (Option.some.inj ha)
    exact ⟨_, rfl, fun _ => rfl⟩
  next =>
    obtain ⟨rfl, rfl⟩ := Prod.mk.inj (Option.some.inj ha)
    split
    next => exact ⟨_, rfl, fun herror => by cases herror⟩
    next => exact ⟨m.tmp, rfl, fun herror => by cases herror⟩

theorem safe_replaceTmp (h : Kept first m) {bytes : List UInt8} (htmp : m.tmp = some bytes) :
    Safe u first c (fun r m' => (m' = m ∨ m' = { m with tmp := none, backup := some bytes }) ∧
      (r = .ok () → m' = { m with tmp := none, backup := some bytes })) replaceTmp.run m := by
  apply safe_ask (h.legal (by rintro _ _ ⟨⟩))
  intro choice a m' ha
  rw [Machine.answer, htmp] at ha
  obtain ⟨rfl, rfl⟩ := Prod.mk.inj (Option.some.inj ha)
  split
  next => exact ⟨Or.inr rfl, fun _ => rfl⟩
  next hnot =>
    refine ⟨Or.inl rfl, fun hok => ?_⟩
    rw [Choice.gives] at hok
    split at hok
    next => cases hok
    next hnone => exact absurd (Or.inl hnone) hnot

theorem safe_setValue (h : Kept first m) {type : ℤ} {value : Str}
    (hnot : ∀ target, c = .raise target → NotLower u m.value (stored value)) :
    Safe u first c (fun _ m' => m' = m ∨
      m' = { m with value := stored value, type := UInt32.ofInt type })
      (setValue type value).run m := by
  apply safe_ask
  · refine ⟨h, fun target type' value' hc ho => ?_⟩
    cases ho
    exact hnot target hc
  · intro choice a m' ha
    obtain ⟨-, rfl⟩ := Prod.mk.inj (Option.some.inj ha)
    split
    next => exact Or.inr rfl
    next => exact Or.inl rfl

/-! ### What the script keeps -/

/-- Digits in the place of the field are read back. -/
theorem IsRead.replaced {before field after : Str} (h : IsRead (before ++ (field ++ after)))
    {n : ℕ} : IsRead (before ++ ((Nat.toDigits 10 n).map .scalar ++ after)) := by
  have hscalar : ∀ c ∈ (Nat.toDigits 10 n).map CodePoint.scalar,
      ∃ d : Char, c = .scalar d ∧ d.isDigit = true := by
    intro c hc
    obtain ⟨d, hd, rfl⟩ := List.mem_map.mp hc
    exact ⟨d, rfl, Nat.isDigit_of_mem_toDigits (by decide) (by decide) hd⟩
  have hleft : ∀ x, ∀ y ∈ (Nat.toDigits 10 n).map CodePoint.scalar,
      JsonLoads.isPair x y = false ∧ JsonLoads.isPair y x = false := by
    intro x y hy
    obtain ⟨d, rfl, -⟩ := hscalar y hy
    cases x with
    | scalar e => exact ⟨rfl, rfl⟩
    | surrogate k => exact ⟨rfl, rfl⟩
  constructor
  · obtain ⟨hbefore, hrest, -⟩ := List.isChain_append.mp h.unpaired
    obtain ⟨-, hafter, -⟩ := List.isChain_append.mp hrest
    refine List.isChain_append.mpr ⟨hbefore, List.isChain_append.mpr ⟨?_, hafter, ?_⟩, ?_⟩
    · apply List.Pairwise.isChain
      apply List.pairwise_of_forall_mem_list
      exact fun x _ y hy => (hleft x y hy).1
    · exact fun x hx y _ => (hleft y x (List.mem_of_mem_getLast? hx)).2
    · intro x _ y hy
      rw [List.head?_append_of_ne_nil _ (by simp)] at hy
      exact (hleft x y (List.mem_of_mem_head? hy)).1
  · intro hmem
    rcases List.mem_append.mp hmem with hmem | hmem
    · exact h.noNul (List.mem_append_left _ hmem)
    rcases List.mem_append.mp hmem with hmem | hmem
    · obtain ⟨d, hd, hdigit⟩ := hscalar _ hmem
      rw [← CodePoint.scalar.inj hd] at hdigit
      exact absurd hdigit (by decide)
    · exact h.noNul (List.mem_append_right _ (List.mem_append_right _ hmem))

/-- What is written for a target is read back, and its field is no lower. -/
theorem raised_written {value newValue : Str} {target : ℤ}
    (h : raisedSharedSection u value target = .ok (some newValue)) (hread : IsRead value) :
    IsRead newValue ∧ NotLower u value newValue := by
  have hspec := @raisedSharedSection_spec u value target
  rw [h] at hspec
  cases hspec with
  | @written before field after hfield hlow hnext =>
    obtain ⟨n, rfl⟩ := Int.eq_ofNat_of_zero_le (show 0 ≤ target by omega)
    rw [strText_natCast]
    refine ⟨IsRead.replaced (hfield.eq ▸ hread), ?_⟩
    rintro k ⟨before', field', after', hfield', rfl⟩
    refine ⟨n, ?_, before, _, after, hfield.replaced (digits_toDigits n), number_toDigits n⟩
    rw [← hfield.unique hfield']
    omega

/-- A type is written as it was read. -/
theorem ofInt_toNat (type : UInt32) : UInt32.ofInt type.toNat = type := by
  rw [UInt32.ofInt, Int.emod_eq_of_lt (by omega) (by have := type.toNat_lt; omega),
    Int.toNat_natCast, UInt32.ofNat_toNat]

/-- `_load_original` changes nothing, and what it returns is the first value. -/
theorem safe_loadOriginal (h : Kept first m) (hfirst : IsRead first.value) :
    Safe u first c (fun r m' => m' = m ∧ ∀ original, r = .ok original →
      m.backup = some (dump first.value first.type.toNat) ∧
        original = (first.value, (first.type.toNat : ℤ))) (loadOriginal depth).run m := by
  apply Interaction.Leads.bindExcept (safe_readBackup h)
  · rintro bytes m' ⟨rfl, hbytes⟩
    apply safe_done
    refine ⟨rfl, fun original horiginal => ?_⟩
    have hbackup := hbytes bytes rfl
    rcases h.backup with ⟨hnone, -⟩ | hsome
    · rw [hnone] at hbackup
      cases hbackup
    · obtain rfl := Option.some.inj (hsome.symm.trans hbackup)
      have hsaved := savedOriginal_dump depth hfirst first.type
      exact ⟨hsome, Except.ok.inj (horiginal.symm.trans hsaved)⟩
  · rintro e m' ⟨rfl, -⟩
    exact safe_done ⟨rfl, fun original horiginal => by cases horiginal⟩

/-- `_save_original` leaves a backup of the first value when it returns. -/
theorem safe_saveOriginal (h : Kept first m) (hfirst : IsRead first.value) :
    Safe u first c (fun r m' => Kept first m' ∧ m'.value = m.value ∧
      (r = .ok () → m'.backup = some (dump first.value first.type.toNat)))
      (saveOriginal depth m.value m.type.toNat).run m := by
  have herror : ∀ (e : Exc) (m' : Machine), Kept first m' ∧ m'.value = m.value →
      Safe u first c (fun (r : Except Exc Unit) m' => Kept first m' ∧ m'.value = m.value ∧
        (r = .ok () → m'.backup = some (dump first.value first.type.toNat)))
        (.done (.error e)) m' :=
    fun e m' hm' => safe_done ⟨hm'.1, hm'.2, fun hok => by cases hok⟩
  apply Interaction.Leads.bindExcept (safe_backupExists h)
  · rintro found m₁ ⟨rfl, hfound⟩
    rcases h.backup with ⟨hnone, hvalue⟩ | hsome
    · -- there is none yet: the value is still the first one
      rw [hnone] at hfound
      cases hfound
      apply Interaction.Leads.bindExcept (safe_makeDirs h)
      · rintro - m₂ rfl
        apply Interaction.Leads.bindExcept (safe_writeTmp h _)
        · rintro _ m₃ ⟨tmp, rfl, htmp⟩
          have hkept : Kept first { m₂ with tmp := tmp } := ⟨h.isRead, h.type, h.backup⟩
          apply (safe_replaceTmp hkept (htmp rfl)).mono
          rintro r m₄ ⟨hm₄, hok⟩
          have hdump : dump m₂.value m₂.type.toNat = dump first.value first.type.toNat := by
            rw [hvalue, h.type]
          rw [hdump] at hm₄ hok
          refine ⟨?_, ?_, fun hr => by rw [hok hr]⟩
          · rcases hm₄ with rfl | rfl
            · exact hkept
            · exact ⟨h.isRead, h.type, Or.inr rfl⟩
          · rcases hm₄ with rfl | rfl
            · rfl
            · rfl
        · rintro e m₃ ⟨tmp, rfl, -⟩
          exact herror e _ ⟨⟨h.isRead, h.type, h.backup⟩, rfl⟩
      · rintro e m₂ rfl
        exact herror e _ ⟨h, rfl⟩
    · rw [hsome] at hfound
      cases hfound
      apply Interaction.Leads.bindExcept (safe_loadOriginal h hfirst)
      · rintro original m₂ ⟨rfl, -⟩
        exact safe_done ⟨h, rfl, fun _ => hsome⟩
      · rintro e m₂ ⟨rfl, -⟩
        exact herror e _ ⟨h, rfl⟩
  · rintro e m₁ ⟨rfl, he⟩
    cases he

/-- What the body leads to is so when the key is closed. -/
theorem safe_withKey {α : Type} {body : Script α} {Q : α → Machine → Prop} (h : Kept first m)
    (hbody : Safe u first c (fun r m' => Kept first m' ∧ ∀ a, r = .ok a → Q a m') body.run m) :
    Safe u first c (fun r m' => Kept first m' ∧ ∀ a, r = .ok a → Q a m') (withKey body).run m := by
  have herror : ∀ (e : Exc) (m' : Machine), Kept first m' →
      Safe u first c (fun (r : Except Exc α) m' => Kept first m' ∧ ∀ a, r = .ok a → Q a m')
        (.done (.error e)) m' :=
    fun e m' hm' => safe_done ⟨hm', fun a ha => by cases ha⟩
  apply Interaction.Leads.bindExcept (safe_openKey h)
  · rintro - m₁ rfl
    -- the body, whatever it raises
    have hlift : Safe u first c
        (fun (r : Except Exc (Except Exc α)) m' => ∃ outcome, r = .ok outcome ∧ Kept first m' ∧
          ∀ a, outcome = .ok a → Q a m')
        (ExceptT.lift body.run : Script (Except Exc α)).run m₁ := by
      apply Interaction.Leads.bind hbody
      intro outcome m₂ hm₂
      exact safe_done ⟨outcome, rfl, hm₂⟩
    apply Interaction.Leads.bindExcept hlift
    · rintro outcome m₂ ⟨_, heq, hkept, hQ⟩
      obtain rfl := Except.ok.inj heq
      apply Interaction.Leads.bindExcept (safe_closeKey hkept)
      · rintro - m₃ rfl
        exact safe_done ⟨hkept, hQ⟩
      · rintro e m₃ rfl
        exact herror e _ hkept
    · rintro e m₂ ⟨_, heq, -⟩
      cases heq
  · rintro e m₁ rfl
    exact herror e _ h

/-- A raise. -/
theorem safe_raiseBody (h : Kept first m) (hfirst : IsRead first.value) (target : ℤ) :
    Safe u first (.raise target) (fun _ m' => Kept first m') (raiseBody u depth target).run m := by
  have hdone : ∀ (r : Except Exc (Option Str)) (m' : Machine), Kept first m' →
      Safe u first (.raise target) (fun _ m' => Kept first m') (.done r) m' :=
    fun r m' hm' => safe_done hm'
  apply Interaction.Leads.bindExcept (safe_queryValue h)
  · rintro ⟨value, type⟩ m₁ ⟨rfl, hvalue⟩
    obtain ⟨rfl, rfl⟩ := Prod.mk.inj (hvalue _ rfl)
    dsimp only
    cases hraised : raisedSharedSection u m₁.value target with
    | error refusal => exact hdone _ _ h
    | ok newValue =>
      cases newValue with
      | none => exact hdone _ _ h
      | some newValue =>
        obtain ⟨hread, hlower⟩ := raised_written hraised h.isRead
        apply Interaction.Leads.bindExcept (safe_saveOriginal h hfirst)
        · rintro _ m₂ ⟨hkept, hsame, hbackup⟩
          have hset : Safe u first (.raise target) (fun _ m' => Kept first m')
              (setValue m₁.type.toNat newValue).run m₂ := by
            have hnot : ∀ target', Command.raise target = .raise target' →
                NotLower u m₂.value (stored newValue) :=
              fun _ _ => by rwa [hsame, stored_of_isRead hread]
            apply (safe_setValue hkept hnot).mono
            intro r m₃ hm₃
            rcases hm₃ with rfl | rfl
            · exact hkept
            · refine ⟨by rwa [stored_of_isRead hread], ?_, Or.inr (hbackup rfl)⟩
              show UInt32.ofInt m₁.type.toNat = first.type
              rw [ofInt_toNat, h.type]
          apply Interaction.Leads.bindExcept hset
          · rintro - m₃ hkept
            apply Interaction.Leads.bindExcept (safe_queryValue hkept)
            · rintro written m₄ ⟨rfl, -⟩
              exact hdone _ _ hkept
            · rintro e m₄ ⟨rfl, -⟩
              exact hdone _ _ hkept
          · exact fun e m₃ hkept => hdone _ _ hkept
        · rintro e m₂ ⟨hkept, -⟩
          exact hdone _ _ hkept
  · rintro e m₁ ⟨rfl, -⟩
    exact hdone _ _ h

/-- A restore: what it finds to be there or reads back is there. -/
theorem safe_restoreBody (h : Kept first m)
    (hbackup : m.backup = some (dump first.value first.type.toNat)) (hfirst : IsRead first.value) :
    Safe u first .restore (fun r m' => Kept first m' ∧ ∀ a, r = .ok a →
      m'.value = a.getD first.value)
      (restoreBody (first.value, first.type.toNat)).run m := by
  have herror : ∀ (e : Exc) (m' : Machine), Kept first m' →
      Safe u first .restore (fun (r : Except Exc (Option Str)) m' => Kept first m' ∧ ∀ a,
        r = .ok a → m'.value = a.getD first.value) (.done (.error e)) m' :=
    fun e m' hm' => safe_done ⟨hm', fun a ha => by cases ha⟩
  apply Interaction.Leads.bindExcept (safe_queryValue h)
  · rintro ⟨current, type⟩ m₁ ⟨rfl, hvalue⟩
    obtain ⟨rfl, rfl⟩ := Prod.mk.inj (hvalue _ rfl)
    dsimp only
    split
    next heq =>
      refine safe_done ⟨h, fun a ha => ?_⟩
      obtain rfl := Except.ok.inj ha
      exact heq
    next =>
      have hset : Safe u first .restore (fun _ m' => Kept first m')
          (setValue first.type.toNat first.value).run m₁ := by
        apply (safe_setValue h fun target htarget => by cases htarget).mono
        intro r m₂ hm₂
        rcases hm₂ with rfl | rfl
        · exact h
        · exact ⟨by rwa [stored_of_isRead hfirst], ofInt_toNat _, Or.inr hbackup⟩
      apply Interaction.Leads.bindExcept hset
      · rintro - m₂ hkept
        apply Interaction.Leads.bindExcept (safe_queryValue hkept)
        · rintro ⟨written, type⟩ m₃ ⟨rfl, hwritten⟩
          obtain ⟨rfl, -⟩ := Prod.mk.inj (hwritten _ rfl)
          refine safe_done ⟨hkept, fun a ha => ?_⟩
          obtain rfl := Except.ok.inj ha
          rfl
        · rintro e m₃ ⟨rfl, -⟩
          exact herror _ _ hkept
      · exact fun e m₂ hkept => herror _ _ hkept
  · rintro e m₁ ⟨rfl, -⟩
    exact herror _ _ h

/-- A restore has succeeded: the first value is there. -/
def Restored (first : Machine) (c : Command) (r : Except Exc ℕ) (m : Machine) : Prop :=
  c = .restore → r = .ok 0 ∨ r = .ok 3 → m.value = first.value ∧ m.type = first.type

/-- Whatever the script is run for. -/
theorem safe_program (h : Kept first m) (hfirst : IsRead first.value) (c : Command) :
    Safe u first c (fun r m' => Kept first m' ∧ Restored first c r m') (c.program u depth) m := by
  cases c with
  | raise target =>
    have hraise : Safe u first (.raise target) (fun r m' => Kept first m' ∧ ∀ a, r = .ok a → True)
        (raiseBody u depth target).run m :=
      (safe_raiseBody h hfirst target).mono fun _ _ hkept => ⟨hkept, fun _ _ => trivial⟩
    have hbody := safe_withKey h hraise
    apply Interaction.Leads.bind hbody
    rintro outcome m' ⟨hkept, -⟩
    exact safe_done ⟨hkept, fun hc => by cases hc⟩
  | restore =>
    apply Interaction.Leads.bind (safe_loadOriginal h hfirst)
    rintro loaded m₁ ⟨rfl, hloaded⟩
    cases loaded with
    | error e =>
      refine safe_done ⟨h, fun _ hcode => ?_⟩
      cases hcaught : e.caught with
      | true => simp [hcaught] at hcode
      | false => simp [hcaught] at hcode
    | ok original =>
      obtain ⟨hbackup, rfl⟩ := hloaded original rfl
      have hbody := safe_withKey h (@safe_restoreBody u first m₁ h hbackup hfirst)
      apply Interaction.Leads.bind hbody
      rintro outcome m₂ ⟨hkept, hvalue⟩
      refine safe_done ⟨hkept, fun _ hcode => ⟨?_, hkept.type⟩⟩
      cases outcome with
      | error e =>
        rw [restoreExit] at hcode
        split at hcode
        next => rcases hcode with hcode | hcode <;> cases hcode
        next => rcases hcode with hcode | hcode <;> cases hcode
      | ok written =>
        rw [hvalue _ rfl]
        cases written with
        | none => rfl
        | some written =>
          rw [restoreExit] at hcode
          split at hcode
          next heq => exact heq
          next => rcases hcode with hcode | hcode <;> cases hcode

/-! ### Runs -/

variable (u) in
/-- What a run keeps: the script that runs is safe from where it is. -/
def Invariant (first : Machine) (s : System) : Prop :=
  Kept first s.machine ∧ ∀ c p, s.script = some (c, p) →
    Safe u first c (fun r m => Kept first m ∧ Restored first c r m) p s.machine

/-- The script may be killed anywhere. -/
theorem Safe.kept {p : Program Ans (Except Exc ℕ)} {Q : Except Exc ℕ → Machine → Prop}
    (h : Safe u first c (fun r m => Kept first m ∧ Q r m) p m) : Kept first m := by
  cases p with
  | done r => exact h.of_done.1
  | call o next => exact h.of_call.1.1

theorem step_invariant {s t : System} {l : Label} (h : Invariant u first s)
    (hfirst : IsRead first.value) (hstep : s.step u depth l = some t) :
    Invariant u first t := by
  cases l with
  | start c =>
    rw [System.step] at hstep
    split at hstep
    next =>
      cases hstep
      refine ⟨h.1, fun c p hcp => ?_⟩
      cases hcp
      exact safe_program h.1 hfirst c
    next => cases hstep
  | answer choice =>
    rw [System.step] at hstep
    split at hstep
    next => cases hstep
    next c p hscript =>
      obtain ⟨⟨m, q⟩, hresume, rfl⟩ := Option.map_eq_some_iff.mp hstep
      have hsafe := (h.2 c p hscript).resume (fun _ _ _ => trivial) hresume
      refine ⟨Safe.kept hsafe, fun c' p' hcp => ?_⟩
      cases hcp
      exact hsafe
  | stop =>
    cases hstep
    exact ⟨h.1, fun c p hcp => by cases hcp⟩

/-- A step of the script changes the value by a write to the registry, if at all. -/
theorem answer_value {m' : Machine} {o : Op} {choice : Choice} {a : Ans o}
    (h : m.answer o choice = some (a, m')) : m'.value = m.value ∨
      ∃ type value, o = .setValue type value ∧ m'.value = stored value := by
  cases o with
  | setValue type value =>
    obtain ⟨-, rfl⟩ := Prod.mk.inj (Option.some.inj h)
    split
    next => exact Or.inr ⟨type, value, rfl, rfl⟩
    next => exact Or.inl rfl
  -- a call on a file leaves the value
  | writeTmp bytes =>
    rw [Machine.answer] at h
    split at h
    next =>
      obtain ⟨-, rfl⟩ := Prod.mk.inj (Option.some.inj h)
      exact Or.inl rfl
    next =>
      obtain ⟨-, rfl⟩ := Prod.mk.inj (Option.some.inj h)
      split
      next => exact Or.inl rfl
      next => exact Or.inl rfl
  | replaceTmp =>
    rw [Machine.answer] at h
    split at h
    next =>
      obtain ⟨-, rfl⟩ := Prod.mk.inj (Option.some.inj h)
      exact Or.inl rfl
    next =>
      obtain ⟨-, rfl⟩ := Prod.mk.inj (Option.some.inj h)
      split
      next => exact Or.inl rfl
      next => exact Or.inl rfl
  | readBackup =>
    rw [Machine.answer] at h
    split at h
    next =>
      obtain ⟨-, rfl⟩ := Prod.mk.inj (Option.some.inj h)
      exact Or.inl rfl
    next =>
      obtain ⟨-, rfl⟩ := Prod.mk.inj (Option.some.inj h)
      exact Or.inl rfl
  | openKey | closeKey | queryValue | backupExists | makeDirs =>
    obtain ⟨-, rfl⟩ := Prod.mk.inj (Option.some.inj h)
    exact Or.inl rfl

/-- A step of a raise does not lower the field. -/
theorem raise_notLower {s t : System} {target : ℤ} {p : Program Ans (Except Exc ℕ)}
    {choice : Choice} (h : Invariant u first s)
    (hscript : s.script = some (.raise target, p))
    (hstep : s.step u depth (.answer choice) = some t) :
    NotLower u s.machine.value t.machine.value := by
  rw [System.step, hscript] at hstep
  obtain ⟨⟨m, q⟩, hresume, rfl⟩ := Option.map_eq_some_iff.mp hstep
  cases p with
  | done r => cases hresume
  | call o next =>
    obtain ⟨⟨a, m'⟩, hanswer, heq⟩ := Option.map_eq_some_iff.mp hresume
    cases heq
    rcases answer_value hanswer with hsame | ⟨type, value, rfl, hvalue⟩
    · intro n hn
      exact ⟨n, le_rfl, by rwa [hsame]⟩
    · show NotLower u s.machine.value m'.value
      rw [hvalue]
      exact (h.2 _ _ hscript).of_call.1.2 target type value rfl rfl

variable (u depth) in
/-- Where a run from `first` has got to. -/
structure Reversible (first : Machine) (t : System) : Prop where
  /-- A backup is of the first value. -/
  backup : ∀ bytes ∈ t.machine.backup,
    savedOriginal depth bytes = .ok (first.value, (first.type.toNat : ℤ))
  /-- Without one, nothing has changed. -/
  unchanged : t.machine.backup = none →
    t.machine.value = first.value ∧ t.machine.type = first.type
  /-- The next step of a raise does not lower the field. -/
  raise : ∀ target p choice t', t.script = some (.raise target, p) →
    t.step u depth (.answer choice) = some t' → NotLower u t.machine.value t'.machine.value
  /-- A restore with one of these exit codes has succeeded. -/
  restore : ∀ code, t.script = some (.restore, .done (.ok code)) → code = 0 ∨ code = 3 →
    t.machine.value = first.value ∧ t.machine.type = first.type

/-- The digits of ASCII alone. -/
def asciiDigits : Decimals where
  value := PyInt.asciiDecimal
  ascii _ _ := rfl
  space c hc := by
    rw [PyInt.asciiDecimal, if_neg]
    intro hdigit
    rw [Decimal.isSpace_of_isDigit hdigit] at hc
    cases hc

/-- A value of three fields, and no backup. -/
def exampleStart : System := ⟨⟨ofString "SharedSection=1,2,3 x", 2, none, none⟩, none⟩

/-- A call that goes well. -/
def Choice.well : Choice := ⟨none, true, []⟩

/-- A raise, and a restore after it. -/
def exampleLabels : List Label :=
  [.start (.raise 9)] ++ List.replicate 9 (.answer .well) ++ [.stop, .start .restore] ++
    List.replicate 6 (.answer .well)

/-- The restore has ended, and has written. -/
def hasRestored (s : System) : Bool :=
  match s.script with
  | some (.restore, .done (.ok code)) => code = 3
  | _ => false

end DesktopHeap

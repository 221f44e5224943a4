import Mt5HttpApi.ChartCtl.Desired
import Mt5HttpApi.ChartCtl.SetBars
import Mt5HttpApi.ChartCtl.SetEncoding

/-!
# The text of a template

`mt5api/chartctl/tpl_builder.py`, and `_materialize_tpl` of `mt5api/handlers/chartctl.py`. A
template is lines, and its blocks are the lines with a tag; nothing is escaped.

* `crlfLines_join`: the lines of a text are those it was joined of.
* `tags_tplLines`: only the tags of the template are lines without a `=`.
* `template_structure`: what is read of the file of a deployment.
-/

namespace ChartCtl

open Text

/-- `GENERATOR_VERSION`. -/
def generatorVersion : List Char := "1.0.0".toList

/-- `EXPERT_FLAGS`. -/
def expertFlags : ℕ := 343

/-- `ID_INPUT`. -/
def idInput : List Char := "__chartctl_id".toList

/-- The line of an input. -/
def inputLine (input : SetInput) : List Char := input.name ++ '=' :: input.value

/-- The line with the id. -/
def idLine (id : List Char) : List Char := idInput ++ '=' :: id

/-- The build of the terminal, when it is known. -/
def buildStamp (terminalBuild : Option ℕ) : List Char :=
  match terminalBuild.filter (· ≠ 0) with
  | some build => " build=".toList ++ Nat.toDigits 10 build
  | none => []

/-- The second line. -/
def descriptionLine (id : List Char) (terminalBuild : Option ℕ) : List Char :=
  "description=chartctl:".toList ++ (id ++ (" gen=".toList ++ (generatorVersion ++
    buildStamp terminalBuild)))

/-- The lines up to the inputs. -/
def linesBefore (id expertName expertRelPath : List Char) (terminalBuild : Option ℕ) :
    List (List Char) :=
  ["<chart>".toList, descriptionLine id terminalBuild, "shift=1".toList, "autoscroll=1".toList,
    "ohlc=1".toList, "one_click=0".toList, "<expert>".toList, "name=".toList ++ expertName,
    "path=".toList ++ expertRelPath, "flags=".toList ++ Nat.toDigits 10 expertFlags,
    "expertmode=1".toList]

/-- The lines after the inputs. -/
def linesAfter : List (List Char) := ["</expert>".toList, "</chart>".toList, []]

/-- The lines of a template. -/
def tplLines (id expertName expertRelPath : List Char) (inputs : List SetInput)
    (terminalBuild : Option ℕ) : List (List Char) :=
  linesBefore id expertName expertRelPath terminalBuild ++
    "<inputs>".toList :: (idLine id :: inputs.map inputLine) ++ "</inputs>".toList :: linesAfter

/-- `build_tpl_text`. -/
def buildTplText (id expertName expertRelPath : List Char) (inputs : List SetInput)
    (terminalBuild : Option ℕ) : List Char :=
  ['\r', '\n'].intercalate (tplLines id expertName expertRelPath inputs terminalBuild)

/-- The bytes that `write_tpl` writes. -/
def writeTpl (id expertName expertRelPath : List Char) (inputs : List SetInput)
    (terminalBuild : Option ℕ) : List UInt8 :=
  [0xFF, 0xFE] ++
    Utf16.encode .little (buildTplText id expertName expertRelPath inputs terminalBuild)

/-- The `ValueError`s of `_materialize_tpl`. -/
inductive TplError
  | disappeared (setFile : List Char)
  | undecodable
  deriving DecidableEq, Repr

/-- The inputs of the set file of a deployment. -/
def inputsOf (resolveSet : List Char → Option (List UInt8)) (dep : Deployment) :
    Except TplError (List SetInput) :=
  match present dep.setFile with
  | none => .ok []
  | some setFile =>
    match resolveSet setFile with
    | none => .error (.disappeared setFile)
    | some data =>
      match parseSetBytes data with
      | none => .error .undecodable
      | some inputs => .ok inputs

/-- `_materialize_tpl`: the bytes of the template. -/
def materializeTpl (resolveSet : List Char → Option (List UInt8)) (terminalBuild : Option ℕ)
    (dep : Deployment) : Except TplError (List UInt8) := do
  let inputs ← inputsOf resolveSet dep
  pure (writeTpl dep.id dep.expertName ("Experts\\Uploaded\\".toList ++ dep.expertFile) inputs
    terminalBuild)

/-! ## Lines that end with a carriage return and a line feed -/

/-- `text.split("\r\n")`. -/
def crlfLines : List Char → List (List Char)
  | [] => [[]]
  | '\r' :: '\n' :: rest => [] :: crlfLines rest
  | c :: rest => consLine c (crlfLines rest)

/-- The text of UTF-16 with a mark. -/
def readTpl (data : List UInt8) : Option (List Char) :=
  if data.take 2 = [0xFF, 0xFE] then Utf16.decode .little (data.drop 2) else none

theorem crlfLines_cons {c : Char} (h : c ≠ '\r') (rest : List Char) :
    crlfLines (c :: rest) = consLine c (crlfLines rest) := by
  rw [crlfLines]
  rintro _ rfl
  exact absurd rfl h

theorem crlfLines_line {line : List Char} (h : '\r' ∉ line) : crlfLines line = [line] := by
  induction line with
  | nil => rfl
  | cons c line ih =>
    rw [List.mem_cons, not_or] at h
    rw [crlfLines_cons (Ne.symm h.1), ih h.2]
    rfl

theorem crlfLines_append {line : List Char} (h : '\r' ∉ line) (rest : List Char) :
    crlfLines (line ++ '\r' :: '\n' :: rest) = line :: crlfLines rest := by
  induction line with
  | nil =>
    rw [List.nil_append, crlfLines]
  | cons c line ih =>
    rw [List.mem_cons, not_or] at h
    rw [List.cons_append, crlfLines_cons (Ne.symm h.1), ih h.2]
    rfl

/-- The lines of a text are those it was joined of. -/
theorem crlfLines_join {lines : List (List Char)} (hne : lines ≠ [])
    (h : ∀ line ∈ lines, '\r' ∉ line) : crlfLines (['\r', '\n'].intercalate lines) = lines := by
  induction lines with
  | nil => exact absurd rfl hne
  | cons line lines ih =>
    obtain ⟨hline, hlines⟩ := List.forall_mem_cons.mp h
    cases lines with
    | nil =>
      rw [List.intercalate_singleton]
      exact crlfLines_line hline
    | cons next lines =>
      have hsplit : ['\r', '\n'].intercalate (line :: next :: lines) =
          line ++ '\r' :: '\n' :: ['\r', '\n'].intercalate (next :: lines) := by
        rw [List.intercalate_cons_cons, List.append_assoc]
        rfl
      rw [hsplit, crlfLines_append hline, ih (List.cons_ne_nil _ _) hlines]

/-! ## The lines of a template -/

variable {id expertName expertRelPath : List Char} {inputs : List SetInput}
  {terminalBuild : Option ℕ}

/-- The tags of a template, and the end of the text. -/
def tplTags : List (List Char) :=
  ["<chart>".toList, "<expert>".toList, "<inputs>".toList, "</inputs>".toList, "</expert>".toList,
    "</chart>".toList, []]

/-- A line of a key and a value. -/
def isEntry (line : List Char) : Bool := '=' ∈ line

/-- Only the tags of the template are lines without a key and a value, each once and in their order,
whatever the names and the values are. -/
theorem tags_tplLines : (tplLines id expertName expertRelPath inputs terminalBuild).filter
    (fun line => !isEntry line) = tplTags := by
  have hentry : ∀ front back : List Char, isEntry (front ++ '=' :: back) = true := fun front back =>
    by rw [isEntry, decide_eq_true_eq]; exact List.mem_append_right _ List.mem_cons_self
  have hinputs : ((idLine id :: inputs.map inputLine).filter fun line => !isEntry line) = [] := by
    rw [List.filter_eq_nil_iff]
    intro line hline
    rcases List.mem_cons.mp hline with rfl | hline
    · simp [idLine, hentry]
    · obtain ⟨input, -, rfl⟩ := List.mem_map.mp hline
      simp [inputLine, hentry]
  have hdescription : isEntry (descriptionLine id terminalBuild) = true := by
    have hmem : '=' ∈ "description=chartctl:".toList := by decide +kernel
    unfold descriptionLine
    rw [isEntry, decide_eq_true_eq]
    exact List.mem_append_left _ hmem
  have hname : isEntry ("name=".toList ++ expertName) = true := by
    rw [isEntry, decide_eq_true_eq]
    exact List.mem_append_left _ (by decide +kernel)
  have hpath : isEntry ("path=".toList ++ expertRelPath) = true := by
    rw [isEntry, decide_eq_true_eq]
    exact List.mem_append_left _ (by decide +kernel)
  have hbefore : (linesBefore id expertName expertRelPath terminalBuild).filter
      (fun line => !isEntry line) = ["<chart>".toList, "<expert>".toList] := by
    have hkeys : ∀ line ∈ ["shift=1".toList, "autoscroll=1".toList, "ohlc=1".toList,
        "one_click=0".toList, "flags=".toList ++ Nat.toDigits 10 expertFlags,
        "expertmode=1".toList], isEntry line = true := by decide +kernel
    simp only [List.forall_mem_cons, List.not_mem_nil, false_implies, implies_true,
      and_true] at hkeys
    obtain ⟨h₁, h₂, h₃, h₄, h₅, h₆⟩ := hkeys
    have hchart : isEntry "<chart>".toList = false := by decide +kernel
    have hexpert : isEntry "<expert>".toList = false := by decide +kernel
    simp only [linesBefore, List.filter_cons, List.filter_nil, hdescription, hname, hpath, h₁, h₂,
      h₃, h₄, h₅, h₆, hchart, hexpert, Bool.not_true, Bool.not_false, Bool.false_eq_true, if_true,
      if_false]
  have hafter : ("</inputs>".toList :: linesAfter).filter (fun line => !isEntry line) =
      "</inputs>".toList :: linesAfter := by decide +kernel
  rw [tplLines, List.filter_append, List.filter_append, hbefore, hafter,
    List.filter_cons_of_pos (by decide +kernel),
    hinputs]
  rfl

/-- No text that a template is made of ends a line. -/
structure OnLines (id expertName expertRelPath : List Char) (inputs : List SetInput) : Prop where
  id : '\r' ∉ id
  expertName : '\r' ∉ expertName
  expertRelPath : '\r' ∉ expertRelPath
  inputs : ∀ input ∈ inputs, '\r' ∉ input.name ∧ '\r' ∉ input.value

theorem notMem_tplLines (h : OnLines id expertName expertRelPath inputs) :
    ∀ line ∈ tplLines id expertName expertRelPath inputs terminalBuild, '\r' ∉ line := by
  have hdigits : ∀ n, '\r' ∉ Nat.toDigits 10 n := fun n hmem => by
    have hdigit := Nat.isDigit_of_mem_toDigits (by decide) (by decide) hmem
    exact absurd hdigit (by decide)
  have hstamp : '\r' ∉ buildStamp terminalBuild := by
    unfold buildStamp
    split
    · rw [List.mem_append, not_or]
      exact ⟨by decide +kernel, hdigits _⟩
    · exact List.not_mem_nil
  have hdescription : '\r' ∉ descriptionLine id terminalBuild := by
    unfold descriptionLine
    simp only [List.mem_append, not_or]
    exact ⟨by decide +kernel, h.id, by decide +kernel, by decide +kernel, hstamp⟩
  have hname : '\r' ∉ "name=".toList ++ expertName := by
    rw [List.mem_append, not_or]
    exact ⟨by decide +kernel, h.expertName⟩
  have hpath : '\r' ∉ "path=".toList ++ expertRelPath := by
    rw [List.mem_append, not_or]
    exact ⟨by decide +kernel, h.expertRelPath⟩
  have hid : '\r' ∉ idLine id := by
    unfold idLine
    rw [List.mem_append, List.mem_cons, not_or, not_or]
    exact ⟨by decide +kernel, by decide, h.id⟩
  have hinputs : ∀ line ∈ inputs.map inputLine, '\r' ∉ line := by
    rw [List.forall_mem_map]
    intro input hinput
    unfold inputLine
    rw [List.mem_append, List.mem_cons, not_or, not_or]
    exact ⟨(h.inputs input hinput).1, by decide, (h.inputs input hinput).2⟩
  -- the lines that are the same in every template
  have hkeys : ∀ line ∈ ["<chart>".toList, "shift=1".toList, "autoscroll=1".toList,
      "ohlc=1".toList, "one_click=0".toList, "<expert>".toList,
      "flags=".toList ++ Nat.toDigits 10 expertFlags, "expertmode=1".toList, "<inputs>".toList],
      '\r' ∉ line := by decide +kernel
  have hafter : ∀ line ∈ "</inputs>".toList :: linesAfter, '\r' ∉ line := by decide +kernel
  simp only [List.forall_mem_cons, List.not_mem_nil, false_implies, implies_true, and_true] at hkeys
  obtain ⟨h₁, h₂, h₃, h₄, h₅, h₆, h₇, h₈, h₉⟩ := hkeys
  unfold tplLines linesBefore
  rw [List.forall_mem_append, List.forall_mem_append]
  refine ⟨⟨?_, ?_⟩, hafter⟩
  · simp only [List.forall_mem_cons, List.not_mem_nil, false_implies, implies_true, and_true]
    exact ⟨h₁, hdescription, h₂, h₃, h₄, h₅, h₆, hname, hpath, h₇, h₈⟩
  · rw [List.forall_mem_cons, List.forall_mem_cons]
    exact ⟨h₉, hid, hinputs⟩

/-- The file of a template is read as its lines. -/
theorem crlfLines_writeTpl (h : OnLines id expertName expertRelPath inputs) :
    (readTpl (writeTpl id expertName expertRelPath inputs terminalBuild)).map crlfLines =
      some (tplLines id expertName expertRelPath inputs terminalBuild) := by
  have htake : (writeTpl id expertName expertRelPath inputs terminalBuild).take 2 = [0xFF, 0xFE] :=
    rfl
  have hdrop : (writeTpl id expertName expertRelPath inputs terminalBuild).drop 2 =
      Utf16.encode .little (buildTplText id expertName expertRelPath inputs terminalBuild) := rfl
  have hne : tplLines id expertName expertRelPath inputs terminalBuild ≠ [] := by
    unfold tplLines linesBefore
    exact List.cons_ne_nil _ _
  rw [readTpl, if_pos htake, hdrop, Utf16.decode_encode, Option.map_some, buildTplText,
    crlfLines_join hne (notMem_tplLines h)]

/-! ## The names and inputs of a deployment -/

/-- A name that is safe has no character in it that files may not have. -/
theorem badChar_of_safeName {name field ext safe : List Char}
    (h : safeName name field ext = .ok safe) : ∀ c ∈ safe, badChar c = false := by
  unfold safeName at h
  dsimp only at h
  split_ifs at h with h₁ h₂ h₃ h₄ h₅ h₆
  obtain rfl := Except.ok.inj h
  simpa using h₃

theorem notMem_of_parseSetText {text : List Char} {input : SetInput}
    (h : input ∈ parseSetText text) : '\r' ∉ input.name ∧ '\r' ∉ input.value := by
  obtain ⟨line, hline, hinput⟩ := List.mem_filterMap.mp h
  obtain ⟨-, -, -, hname, hvalue⟩ := mem_of_parseSetLine hinput
  have hends : '\r' ∉ line := fun hc => by
    have := (mem_splitlines hline _ hc).1
    exact absurd this (by decide)
  exact ⟨fun hc => hends (hname _ hc).1, fun hc => hends (hvalue _ hc)⟩

variable {casing : Casing} {host : Host} {reg after : Registry} {request : CreateRequest}
  {dep : Deployment} {status : ℕ}

/-- A deployment that is created is one of a draft that was accepted. -/
theorem exists_draft
    (h : createDeployment casing host reg request = (.deployment status dep, after)) :
    ∃ draft, acceptCreate casing host request = .ok draft ∧ dep = draft.deployment host := by
  unfold createDeployment at h
  split at h
  next answer haccept =>
    -- no refusal has a deployment in it
    unfold acceptCreate at haccept
    split at haccept
    · obtain rfl := Except.error.inj haccept
      cases h
    · split at haccept
      · obtain rfl := Except.error.inj haccept
        cases h
      · split at haccept
        · obtain rfl := Except.error.inj haccept
          cases h
        · cases haccept
  next draft haccept =>
    split at h
    · cases h
    next dep' added hadd =>
      unfold addDeployment at hadd
      split at hadd
      · cases hadd
      · obtain ⟨rfl, -⟩ := Prod.mk.inj (Except.ok.inj hadd)
        split at h
        · obtain ⟨hdep, -⟩ := Prod.mk.inj h
          exact ⟨draft, haccept, (Answer.deployment.inj hdep).2.symm⟩
        · cases h

/-- The file of the expert of a draft has a safe name, and its name is part of that. -/
theorem expert_of_checkCreate {draft : Draft} (h : checkCreate casing request = .ok draft) :
    (∀ c ∈ draft.expertFile, badChar c = false) ∧
      draft.expertName = expertNameOf draft.expertFile := by
  unfold checkCreate at h
  rcases hexpert : safeName request.expert "expert".toList ".ex5".toList with e | expertFile
  · rw [hexpert] at h
    cases h
  · rw [hexpert] at h
    simp only [bind, Except.bind, pure, Except.pure] at h
    split at h
    · cases h
    split at h
    · cases h
    split at h
    · cases h
    · obtain rfl := Except.ok.inj h
      exact ⟨badChar_of_safeName hexpert, rfl⟩

theorem onLines_of_create
    (h : createDeployment casing host reg request = (.deployment status dep, after))
    {inputs : List SetInput} (hinputs : ∀ input ∈ inputs, '\r' ∉ input.name ∧ '\r' ∉ input.value) :
    OnLines dep.id dep.expertName ("Experts\\Uploaded\\".toList ++ dep.expertFile) inputs := by
  obtain ⟨draft, haccept, rfl⟩ := exists_draft h
  obtain ⟨hfile, hname⟩ := expert_of_checkCreate (checkCreate_of_accept haccept)
  have hexpert : '\r' ∉ draft.expertFile := fun hc => absurd (hfile _ hc) (by decide)
  refine ⟨fun hc => ?_, fun hc => ?_, ?_, hinputs⟩
  · exact absurd (mem_newId hc).2.2.2 (by decide)
  · change '\r' ∈ draft.expertName at hc
    rw [hname, expertNameOf] at hc
    split at hc
    · exact hexpert (List.mem_of_mem_take hc)
    · exact hexpert hc
  · rw [List.mem_append, not_or]
    exact ⟨by decide +kernel, hexpert⟩

theorem inputsOf_notMem {resolveSet : List Char → Option (List UInt8)} {inputs : List SetInput}
    (h : inputsOf resolveSet dep = .ok inputs) :
    ∀ input ∈ inputs, '\r' ∉ input.name ∧ '\r' ∉ input.value := by
  unfold inputsOf at h
  split at h
  · obtain rfl := Except.ok.inj h
    simp
  · split at h
    · cases h
    · split at h
      · cases h
      next hparse =>
        obtain rfl := Except.ok.inj h
        obtain ⟨text, -, rfl⟩ := Option.map_eq_some_iff.mp hparse
        exact fun input hinput => notMem_of_parseSetText hinput

/-- The template of a deployment that was created, with a set file that can be read: between its one
`<inputs>` and its one `</inputs>` are the line of the id and one line for each input, in their
order, and only the tags of the template are lines without a key and a value. -/
theorem template_structure
    (h : createDeployment casing host reg request = (.deployment 202 dep, after))
    {resolveSet : List Char → Option (List UInt8)} {inputs : List SetInput}
    (hset : inputsOf resolveSet dep = .ok inputs) (terminalBuild : Option ℕ) :
    ∃ file lines, materializeTpl resolveSet terminalBuild dep = .ok file ∧
      (readTpl file).map crlfLines = some lines ∧
      lines = linesBefore dep.id dep.expertName ("Experts\\Uploaded\\".toList ++ dep.expertFile)
          terminalBuild ++ "<inputs>".toList :: (idLine dep.id :: inputs.map inputLine) ++
        "</inputs>".toList :: linesAfter ∧
      lines.filter (fun line => !isEntry line) = tplTags := by
  have hlines := onLines_of_create h (inputsOf_notMem hset)
  have hread := @crlfLines_writeTpl _ _ _ _ terminalBuild hlines
  refine ⟨_, _, ?_, hread, rfl, tags_tplLines⟩
  unfold materializeTpl
  rw [hset]
  rfl

/-- A request for an expert with a set file. -/
def setRequest : CreateRequest :=
  ⟨"ea.ex5".toList, some "lots.set".toList, "EURUSD".toList, "m5".toList, true⟩

theorem template_structure_lots : ∃ dep file lines,
    materializeTpl (fun _ => some (Utf8.encode "Lots=0.1".toList)) none dep = .ok file ∧
      (readTpl file).map crlfLines = some lines ∧ "Lots=0.1".toList ∈ lines := by
  obtain ⟨dep, after, hcreate, hfile⟩ : ∃ dep after,
      createDeployment asciiCasing openHost emptyState setRequest = (.deployment 202 dep, after) ∧
        present dep.setFile = some "lots.set".toList := ⟨_, _, rfl, rfl⟩
  have hread : parseSetBytes (Utf8.encode "Lots=0.1".toList) =
      some [⟨"Lots".toList, "0.1".toList, none⟩] := by
    rw [parseSetBytes, @decodeSetBytes_encodings "Lots=0.1".toList _ (by decide)
      ⟨'L', by decide⟩ (by simp [NoMark]) (by simp [encodings])]
    decide
  have hset : inputsOf (fun _ => some (Utf8.encode "Lots=0.1".toList)) dep =
      .ok [⟨"Lots".toList, "0.1".toList, none⟩] := by
    unfold inputsOf
    rw [hfile]
    simp only [hread]
  obtain ⟨file, lines, hwritten, hlines, heq, -⟩ := template_structure hcreate hset none
  refine ⟨dep, file, lines, hwritten, hlines, ?_⟩
  rw [heq]
  have hline : "Lots=0.1".toList ∈ "<inputs>".toList :: (idLine dep.id ::
      [(⟨"Lots".toList, "0.1".toList, none⟩ : SetInput)].map inputLine) := by
    exact List.mem_cons_of_mem _ (List.mem_cons_of_mem _ (by decide))
  exact List.mem_append_left _ (List.mem_append_right _ hline)

end ChartCtl

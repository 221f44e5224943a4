import Mathlib.Data.List.TakeWhile
import Mt5HttpApi.Lib.Segments
import Mt5HttpApi.Lib.Text
import Mt5HttpApi.Lib.Urls

/-!
# Paths that MCP tools build from an argument

`mcpunifier/mcp_server.py` and `mt5api/mcp_server.py` both have tools that put a symbol, a job id or
an action into the path of the request they make, as it is. Other tools of both send their argument
through `_path_segment`, which refuses separators and encodes the rest.

The unifier's request goes through httpx to the terminal's HTTP server, the other one through
Flask's test client to the application. Both cut the text at `#` and `?` and decode it once; httpx
resolves dot segments, and the test client drops tabs and line breaks. Texts are given by their
UTF-8 bytes.

`oneSegment_iff` says for which arguments the request is the documented one.
-/

namespace Mcp

open Urls Segments

/-- The method of a request. -/
inductive Method
  | get
  | post
  deriving DecidableEq, Repr

/-- The `part` argument of `get_backtest`. -/
inductive Part
  | status
  | report
  | log
  | tail
  deriving DecidableEq, Repr

/-- The tools in question. -/
inductive Tool
  | getSymbol
  | getTick
  | getRates
  | getTicks
  | getRatesTa
  | getBacktest (part : Part)
  | terminalControl
  deriving DecidableEq, Repr

namespace Tool

/-- The method of the tool's request. -/
def method : Tool → Method
  | getSymbol | getTick | getRates | getTicks | getBacktest _ => .get
  | getRatesTa | terminalControl => .post

/-- The path the tool calls, from its symbol, job id or action. -/
def path (value : List UInt8) : Tool → List UInt8
  | getSymbol => ascii "/symbols/" ++ value
  | getTick => ascii "/symbols/" ++ value ++ ascii "/tick"
  | getRates => ascii "/symbols/" ++ value ++ ascii "/rates"
  | getTicks => ascii "/symbols/" ++ value ++ ascii "/ticks"
  | getRatesTa => ascii "/symbols/" ++ value ++ ascii "/rates/ta"
  | getBacktest .status => ascii "/backtest/" ++ value
  | getBacktest .report => ascii "/backtest/" ++ value ++ ascii "/report"
  | getBacktest .log => ascii "/backtest/" ++ value ++ ascii "/log"
  | getBacktest .tail => ascii "/backtest/" ++ value ++ ascii "/tail"
  | terminalControl => ascii "/terminal/" ++ value

/-- The first segment of the documented route. -/
def before : Tool → List UInt8
  | getSymbol | getTick | getRates | getTicks | getRatesTa => ascii "symbols"
  | getBacktest _ => ascii "backtest"
  | terminalControl => ascii "terminal"

/-- The segments of the documented route after the argument. -/
def after : Tool → List (List UInt8)
  | getSymbol | getBacktest .status | terminalControl => []
  | getTick => [ascii "tick"]
  | getRates => [ascii "rates"]
  | getTicks => [ascii "ticks"]
  | getRatesTa => [ascii "rates", ascii "ta"]
  | getBacktest .report => [ascii "report"]
  | getBacktest .log => [ascii "log"]
  | getBacktest .tail => [ascii "tail"]

/-- The tool sends a query. -/
def takesQuery : Tool → Bool
  | getRates | getTicks | getRatesTa => true
  | _ => false

end Tool

/-- The two MCP servers. -/
inductive Server
  | unifier
  | inProcess
  deriving DecidableEq, Repr

/-- A query, as a mapping. -/
abbrev Query := List (String × String)

/-- A call of a tool: its path argument, and the query its other arguments make. -/
structure Call where
  tool : Tool
  value : List UInt8
  query : Query
  deriving DecidableEq, Repr

/-- The query of the request, if it has one of the tool's. -/
def Call.params (call : Call) : Option Query :=
  if call.tool.takesQuery ∧ call.query ≠ [] then some call.query else none

/-- A request as the application sees it: `path` is decoded, and `stray` is a query that was cut off
the path. -/
structure Request where
  method : Method
  path : List UInt8
  params : Option Query
  stray : List UInt8
  deriving DecidableEq, Repr

/-! ## What becomes of the text -/

/-- The text before a fragment. -/
def cutFragment (text : List UInt8) : List UInt8 := text.takeWhile (· ≠ 0x23)

/-- The path of a text. -/
def pathPart (text : List UInt8) : List UInt8 := (cutFragment text).takeWhile (· ≠ 0x3F)

/-- The query of a text. -/
def queryPart (text : List UInt8) : List UInt8 := ((cutFragment text).dropWhile (· ≠ 0x3F)).drop 1

/-- The bytes that httpx leaves in a path. -/
def httpxSafe (b : UInt8) : Bool :=
  0x21 ≤ b ∧ b ≤ 0x7E ∧ b ∉ [0x22, 0x23, 0x3C, 0x3E, 0x3F, 0x60, 0x7B, 0x7D]

/-- The bytes that `iri_to_uri` leaves in a path. -/
def werkzeugSafe (b : UInt8) : Bool :=
  (0x30 ≤ b ∧ b ≤ 0x39) ∨ (0x41 ≤ b ∧ b ≤ 0x5A) ∨ (0x61 ≤ b ∧ b ≤ 0x7A) ∨
    b ∈ ascii "_.-~%!$&'()*+,/:;=@"

/-- `urlsplit` removes tabs and line breaks. -/
def removeUnsafe (text : List UInt8) : List UInt8 := text.filter (· ∉ [0x09, 0x0A, 0x0D])

namespace Server

/-- The text that a server's client splits. -/
def read : Server → List UInt8 → List UInt8
  | unifier, text => text
  | inProcess, text => removeUnsafe text

/-- The decoded path of the request for a text. -/
def decoded : Server → List UInt8 → List UInt8
  | unifier, text => unquote (quote httpxSafe (normalizePath (pathPart (unifier.read text))))
  | inProcess, text => unquote (quote werkzeugSafe (pathPart (inProcess.read text)))

end Server

/-- Nothing is sent: httpx refuses the URL, or the test client gets a query twice. `invalidUrl` is
what httpx refuses. -/
def refused (invalidUrl : List UInt8 → Bool) (server : Server) (call : Call) : Bool :=
  let text := call.tool.path call.value
  match server with
  | .unifier => invalidUrl text
  | .inProcess => call.params.isSome && queryPart (server.read text) != []

/-- The request that a call makes, as the application sees it. -/
def send (invalidUrl : List UInt8 → Bool) (server : Server) (call : Call) : Option Request :=
  let text := call.tool.path call.value
  if refused invalidUrl server call then none
  else some
    { method := call.tool.method
      path := server.decoded text
      params := call.params
      stray := if call.params.isSome then [] else queryPart (server.read text) }

/-- The request is the documented one, with the argument as one segment, or there is none. -/
def OneSegment (invalidUrl : List UInt8 → Bool) (server : Server) (call : Call) : Prop :=
  ∀ r, send invalidUrl server call = some r →
    r.method = call.tool.method ∧
      r.path.splitOn slash = [] :: call.tool.before :: call.value :: call.tool.after ∧
      call.value ≠ [] ∧ r.params = call.params ∧ r.stray = []

/-- The bytes that end or split a segment on the way. -/
def Server.breaks : Server → List UInt8
  | .unifier => [slash, 0x3F, 0x23]
  | .inProcess => [slash, 0x3F, 0x23, 0x09, 0x0A, 0x0D]

/-- The argument arrives as it is. -/
def Plain (server : Server) (value : List UInt8) : Prop :=
  value ≠ [] ∧ hasEscape value = false ∧ (∀ b ∈ value, b ∉ server.breaks) ∧
    (server = .unifier → value ∉ dots)

/-! ## Which texts stay as they are -/

/-- The path of a tool by its segments. -/
theorem path_eq_intercalate (tool : Tool) (value : List UInt8) :
    tool.path value = [slash].intercalate ([] :: tool.before :: value :: tool.after) := by
  have hbefore : ascii "/symbols/" = slash :: ascii "symbols" ++ [slash] ∧
      ascii "/backtest/" = slash :: ascii "backtest" ++ [slash] ∧
      ascii "/terminal/" = slash :: ascii "terminal" ++ [slash] := by decide
  have hafter : ascii "/tick" = slash :: ascii "tick" ∧ ascii "/rates" = slash :: ascii "rates" ∧
      ascii "/ticks" = slash :: ascii "ticks" ∧
      ascii "/rates/ta" = slash :: ascii "rates" ++ slash :: ascii "ta" ∧
      ascii "/report" = slash :: ascii "report" ∧ ascii "/log" = slash :: ascii "log" ∧
      ascii "/tail" = slash :: ascii "tail" := by decide
  cases tool with
  | getBacktest part =>
    cases part <;>
      simp [Tool.path, Tool.before, Tool.after, List.intercalate_cons_cons, hbefore, hafter]
  | _ => simp [Tool.path, Tool.before, Tool.after, List.intercalate_cons_cons, hbefore, hafter]

/-- The fixed segments of a route are words of small letters. -/
theorem fixed_segments (tool : Tool) : ∀ s ∈ tool.before :: tool.after,
    s ∉ dots ∧ ∀ b ∈ s, 0x61 ≤ b ∧ b ≤ 0x7A := by
  have hall : (tool.before :: tool.after).all (fun s => !dots.contains s &&
      s.all fun b => decide (0x61 ≤ b) && decide (b ≤ 0x7A)) = true := by
    cases tool with
    | getBacktest part => cases part <;> rfl
    | _ => rfl
  intro s hs
  simpa using List.all_eq_true.mp hall s hs

theorem pathPart_isPrefix (text : List UInt8) : pathPart text <+: text :=
  (List.takeWhile_prefix _).trans (List.takeWhile_prefix _)

/-- A text is its own path when it has no `#` and no `?`. -/
theorem pathPart_eq_self_iff {text : List UInt8} :
    pathPart text = text ↔ ∀ b ∈ text, b ≠ 0x23 ∧ b ≠ 0x3F := by
  have hcut : cutFragment text <+: text := List.takeWhile_prefix _
  have hpart : pathPart text <+: cutFragment text := List.takeWhile_prefix _
  constructor
  · intro h
    have hlen : text.length ≤ (cutFragment text).length := by
      rw [h] at hpart
      exact hpart.length_le
    have hself := hcut.eq_of_length_le hlen
    rw [pathPart, hself, List.takeWhile_eq_self_iff] at h
    rw [cutFragment, List.takeWhile_eq_self_iff] at hself
    exact fun b hb => ⟨by simpa using hself b hb, by simpa using h b hb⟩
  · intro h
    have hself : cutFragment text = text :=
      List.takeWhile_eq_self_iff.mpr fun b hb => by simpa using (h b hb).1
    rw [pathPart, hself, List.takeWhile_eq_self_iff]
    exact fun b hb => by simpa using (h b hb).2

/-- A path without a query leaves none. -/
theorem queryPart_eq_nil {text : List UInt8} (h : pathPart text = text) : queryPart text = [] := by
  have hboth := pathPart_eq_self_iff.mp h
  have hself : cutFragment text = text :=
    List.takeWhile_eq_self_iff.mpr fun b hb => by simpa using (hboth b hb).1
  rw [queryPart, hself, List.dropWhile_eq_nil_iff.mpr fun b hb => by simpa using (hboth b hb).2]
  rfl

/-- The segments of a request with the argument in its place. -/
def segments (tool : Tool) (value : List UInt8) : List (List UInt8) :=
  [] :: tool.before :: value :: tool.after

theorem mem_segments {tool : Tool} {value s : List UInt8} :
    s ∈ segments tool value ↔ s = [] ∨ s = value ∨ s ∈ tool.before :: tool.after := by
  simp only [segments, List.mem_cons]
  tauto

/-- The bytes of a tool's path. -/
theorem mem_path {tool : Tool} {value : List UInt8} {b : UInt8} (h : b ∈ tool.path value) :
    b = slash ∨ b ∈ value ∨ 0x61 ≤ b ∧ b ≤ 0x7A := by
  rw [path_eq_intercalate] at h
  rcases mem_intercalate h with h | ⟨s, hs, hb⟩
  · exact Or.inl h
  · rcases mem_segments.mp hs with rfl | rfl | hfixed
    · cases hb
    · exact Or.inr (Or.inl hb)
    · exact Or.inr (Or.inr ((fixed_segments tool s hfixed).2 b hb))

/-- The argument is part of the path. -/
theorem mem_path_of_mem {tool : Tool} {value : List UInt8} {b : UInt8} (h : b ∈ value) :
    b ∈ tool.path value := by
  rw [path_eq_intercalate]
  exact mem_intercalate_of_mem (mem_segments.mpr (Or.inr (Or.inl rfl))) h

/-- The path has an escape when the argument has one. -/
theorem hasEscape_path (tool : Tool) (value : List UInt8) :
    hasEscape (tool.path value) = hasEscape value := by
  have hfixed : ∀ s ∈ tool.before :: tool.after, hasEscape s = false := fun s hs =>
    hasEscape_of_not_mem fun hmem => absurd ((fixed_segments tool s hs).2 _ hmem) (by decide)
  have hafter : tool.after.any hasEscape = false := by
    simpa using fun s hs => hfixed s (List.mem_cons_of_mem _ hs)
  rw [path_eq_intercalate, hasEscape_intercalate, List.any_cons, List.any_cons, List.any_cons,
    hfixed _ List.mem_cons_self, hafter]
  simp [hasEscape]

/-- An argument without a slash is one segment of the path. -/
theorem splitOn_path {tool : Tool} {value : List UInt8} (h : slash ∉ value) :
    (tool.path value).splitOn slash = segments tool value := by
  rw [path_eq_intercalate]
  refine List.splitOn_intercalate slash (fun s hs => ?_) (by simp)
  rcases mem_segments.mp hs with rfl | rfl | hfixed
  · exact List.not_mem_nil
  · exact h
  · exact fun hmem => absurd ((fixed_segments tool s hfixed).2 _ hmem) (by decide)

theorem read_sublist (server : Server) (text : List UInt8) : (server.read text).Sublist text := by
  cases server
  · exact List.Sublist.refl text
  · exact List.filter_sublist

/-- A request does not get a longer path than its text has. -/
theorem decoded_length_le (server : Server) (text : List UInt8) :
    (server.decoded text).length ≤ (pathPart (server.read text)).length := by
  cases server
  · rw [Server.decoded, unquote_quote]
    exact (unquote_length_le _).trans (normalizePath_length_le _)
  · rw [Server.decoded, unquote_quote]
    exact unquote_length_le _

/-- When the path of a request is the text it was made from. -/
theorem decoded_eq_self_iff {server : Server} {text : List UInt8} :
    server.decoded text = text ↔ server.read text = text ∧ pathPart text = text ∧
      hasEscape text = false ∧ (server = .unifier → ∀ s ∈ text.splitOn slash, s ∉ dots) := by
  constructor
  · intro h
    have hpart := (pathPart_isPrefix (server.read text)).length_le
    have hle := decoded_length_le server text
    rw [h] at hle
    have hread : server.read text = text :=
      (read_sublist server text).eq_of_length_le (hle.trans hpart)
    rw [hread] at hle
    have hself : pathPart text = text := (pathPart_isPrefix text).eq_of_length_le hle
    refine ⟨hread, hself, ?_⟩
    cases server with
    | unifier =>
      rw [Server.decoded, hread, hself, unquote_quote] at h
      have hdots : ∀ s ∈ text.splitOn slash, s ∉ dots := by
        intro s hs hdot
        have hlt := normalizePath_length_lt hs hdot
        have hlen := unquote_length_le (normalizePath text)
        rw [h] at hlen
        omega
      rw [normalizePath_of_no_dots hdots, unquote_eq_self_iff] at h
      exact ⟨h, fun _ => hdots⟩
    | inProcess =>
      rw [Server.decoded, hread, hself, unquote_quote, unquote_eq_self_iff] at h
      exact ⟨h, nofun⟩
  · rintro ⟨hread, hself, hescape, hdots⟩
    cases server with
    | unifier =>
      rw [Server.decoded, hread, hself, unquote_quote, normalizePath_of_no_dots (hdots rfl)]
      exact (unquote_eq_self_iff text).mpr hescape
    | inProcess =>
      rw [Server.decoded, hread, hself, unquote_quote]
      exact (unquote_eq_self_iff text).mpr hescape

/-- When a server's client reads a tool's path as it is. -/
theorem read_pathPart_iff {server : Server} (tool : Tool) {value : List UInt8} :
    slash ∉ value ∧ server.read (tool.path value) = tool.path value ∧
      pathPart (tool.path value) = tool.path value ↔ ∀ b ∈ value, b ∉ server.breaks := by
  constructor
  · rintro ⟨hslash, hread, hpart⟩ b hb hbreak
    have hmem : b ∈ tool.path value := mem_path_of_mem hb
    have hends := pathPart_eq_self_iff.mp hpart b hmem
    cases server with
    | unifier =>
      simp only [Server.breaks, List.mem_cons, List.not_mem_nil, or_false] at hbreak
      rcases hbreak with rfl | rfl | rfl
      · exact hslash hb
      · exact hends.2 rfl
      · exact hends.1 rfl
    | inProcess =>
      have hkept : b ∉ [0x09, 0x0A, 0x0D] := by
        simpa using List.filter_eq_self.mp hread b hmem
      simp only [Server.breaks, List.mem_cons, List.not_mem_nil, or_false] at hbreak hkept
      rcases hbreak with rfl | rfl | rfl | htab
      · exact hslash hb
      · exact hends.2 rfl
      · exact hends.1 rfl
      · exact hkept htab
  · intro h
    have hbytes : ∀ b ∈ tool.path value, b ∉ server.breaks ∨ b = slash := by
      intro b hb
      rcases mem_path hb with hb | hb | hb
      · exact Or.inr hb
      · exact Or.inl (h b hb)
      · refine Or.inl fun hbreak => ?_
        -- no small letter ends a segment
        have hsmall : server.breaks.all (fun c => !(decide (0x61 ≤ c) && decide (c ≤ 0x7A))) := by
          cases server <;> rfl
        have hnot := List.all_eq_true.mp hsmall b hbreak
        simp [hb] at hnot
    refine ⟨fun hslash => h slash hslash (by cases server <;> decide), ?_, ?_⟩
    · cases server with
      | unifier => rfl
      | inProcess =>
        refine List.filter_eq_self.mpr fun b hb => decide_eq_true fun htab => ?_
        rcases hbytes b hb with hb | rfl
        · exact hb (List.mem_append_right [slash, 0x3F, 0x23] htab)
        · exact absurd htab (by decide)
    · refine pathPart_eq_self_iff.mpr fun b hb => ?_
      have hboth : 0x23 ∈ server.breaks ∧ 0x3F ∈ server.breaks := by cases server <;> decide
      rcases hbytes b hb with hb | rfl
      · exact ⟨fun heq => hb (heq ▸ hboth.1), fun heq => hb (heq ▸ hboth.2)⟩
      · decide

/-- The path arrives with the argument as a segment exactly when this is plain. -/
theorem splitOn_decoded_iff {server : Server} (tool : Tool) {value : List UInt8} :
    (server.decoded (tool.path value)).splitOn slash = segments tool value ∧ value ≠ [] ↔
      Plain server value := by
  have hvalue : value ∈ segments tool value := mem_segments.mpr (Or.inr (Or.inl rfl))
  constructor
  · rintro ⟨hsplit, hne⟩
    have hslash : slash ∉ value := by
      intro hmem
      rw [← hsplit, List.splitOn_eq_splitOnP] at hvalue
      simpa using (Text.mem_of_mem_splitOnP hvalue slash hmem).1
    have hself : server.decoded (tool.path value) = tool.path value :=
      calc server.decoded (tool.path value)
          = [slash].intercalate ((server.decoded (tool.path value)).splitOn slash) :=
            (List.intercalate_splitOn slash).symm
        _ = tool.path value := by rw [hsplit, path_eq_intercalate, segments]
    obtain ⟨hread, hpart, hescape, hdots⟩ := decoded_eq_self_iff.mp hself
    rw [hasEscape_path] at hescape
    refine ⟨hne, hescape, (read_pathPart_iff tool).mp ⟨hslash, hread, hpart⟩, fun hserver => ?_⟩
    exact hdots hserver value (by rwa [splitOn_path hslash])
  · rintro ⟨hne, hescape, hbreaks, hdots⟩
    obtain ⟨hslash, hread, hpart⟩ := (read_pathPart_iff tool).mpr hbreaks
    have hself : server.decoded (tool.path value) = tool.path value := by
      refine decoded_eq_self_iff.mpr ⟨hread, hpart, by rwa [hasEscape_path], fun hserver s hs => ?_⟩
      rw [splitOn_path hslash] at hs
      rcases mem_segments.mp hs with rfl | rfl | hfixed
      · decide
      · exact hdots hserver
      · exact (fixed_segments tool s hfixed).1
    exact ⟨by rw [hself, splitOn_path hslash], hne⟩

/-- A request that is made is the documented one exactly when the argument arrives as it is: not
empty, without a separator or an escape, and to httpx no dot segment. -/
theorem oneSegment_iff (invalidUrl : List UInt8 → Bool) (server : Server) (call : Call) :
    OneSegment invalidUrl server call ↔
      refused invalidUrl server call = true ∨ Plain server call.value := by
  cases hrefused : refused invalidUrl server call with
  | true =>
    have hnone : send invalidUrl server call = none := by simp [send, hrefused]
    simp [OneSegment, hnone]
  | false =>
    have hsome : send invalidUrl server call = some
        { method := call.tool.method
          path := server.decoded (call.tool.path call.value)
          params := call.params
          stray := if call.params.isSome then []
            else queryPart (server.read (call.tool.path call.value)) } := by
      simp [send, hrefused]
    rw [OneSegment, hsome]
    simp only [Option.some.injEq, forall_eq', true_and, Bool.false_eq_true, false_or]
    constructor
    · rintro ⟨hsplit, hne, -⟩
      exact (splitOn_decoded_iff _).mp ⟨hsplit, hne⟩
    · intro h
      have hread := (read_pathPart_iff call.tool).mpr h.2.2.1
      obtain ⟨hsplit, hne⟩ := (splitOn_decoded_iff call.tool).mpr h
      refine ⟨hsplit, hne, ?_⟩
      rw [hread.2.1, queryPart_eq_nil hread.2.2, ite_self]

/-- `../positions/1` as a symbol reaches a position, and `#AAPL` the list of symbols. -/
theorem not_oneSegment :
    ¬ OneSegment (fun _ => false) .unifier ⟨.getSymbol, ascii "../positions/1", []⟩ ∧
      ¬ OneSegment (fun _ => false) .unifier ⟨.getSymbol, ascii "#AAPL", []⟩ ∧
      (send (fun _ => false) .unifier ⟨.getSymbol, ascii "../positions/1", []⟩).map Request.path =
        some (ascii "/positions/1") ∧
      (send (fun _ => false) .unifier ⟨.getSymbol, ascii "#AAPL", []⟩).map Request.path =
        some (ascii "/symbols/") := by
  refine ⟨fun h => ?_, fun h => ?_, by decide, by decide⟩
  · exact absurd (h _ rfl).2.1 (by decide)
  · exact absurd (h _ rfl).2.1 (by decide)

end Mcp

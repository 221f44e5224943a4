import Mt5HttpApi.Lib.Segments

/-!
# The routes of the terminal API

The route table of `mt5api/server.py`, with the routes that `chartctl_routes.py` and `files.py`
register, Flask's own static files, and the MCP application that `main.py` mounts at `/mcp`. Methods
are left out: a route is what stands after the terminal in a request's path.
-/

namespace Gateway

/-- A piece of a route between slashes. -/
inductive Piece
  /-- A fixed text. -/
  | text (s : String)
  /-- `<name>`: at least one character, none of them a slash. -/
  | name
  /-- `<int:name>`. -/
  | int
  /-- `<path:name>`: the rest of the path, not beginning with a slash. -/
  | path
  /-- A mounted application: the rest of the path, whatever it is. -/
  | mount
  deriving DecidableEq, Repr

/-- The segments of a path fit a route. -/
def fitsRoute : List Piece → List (List Char) → Bool
  | [], [] => true
  | .text s :: pieces, seg :: segs => seg == s.toList && fitsRoute pieces segs
  | .name :: pieces, seg :: segs => seg != [] && fitsRoute pieces segs
  | .int :: pieces, seg :: segs =>
    seg != [] && seg.all Char.isDigit && fitsRoute pieces segs
  | [.path], seg :: _ => seg != []
  | [.mount], _ => true
  | _, _ => false

/-- The routes, in the order they are registered. -/
def routes : List (List Piece) :=
  [[.text "static", .path],
    [.text "ping"],
    [.text "error"],
    [.text "busy"],
    [.text "terminal"],
    [.text "terminal", .text "init"],
    [.text "terminal", .text "shutdown"],
    [.text "terminal", .text "restart"],
    [.text "account"],
    [.text "symbols"],
    [.text "symbols", .text "import"],
    [.text "symbols", .name],
    [.text "symbols", .name, .text "tick"],
    [.text "symbols", .name, .text "rates"],
    [.text "symbols", .name, .text "rates", .text "ta"],
    [.text "symbols", .name, .text "ticks"],
    [.text "positions"],
    [.text "positions", .int],
    [.text "orders"],
    [.text "orders", .int],
    [.text "history", .text "orders"],
    [.text "history", .text "deals"],
    [.text "compile"],
    [.text "experts"],
    [.text "experts", .name],
    [.text "sets"],
    [.text "sets", .name],
    [.text "deployments"],
    [.text "deployments", .text "reconcile"],
    [.text "deployments", .name],
    [.text "charts"],
    [.text "loader"],
    [.text "charts", .name, .text "screenshot"],
    [.text "charts", .name, .text "close"],
    [.text "webrequest"],
    [.text "webrequest", .text "apply"],
    [.text "webrequest", .text "verify"],
    [.text "files"],
    [.text "files", .path],
    [.text "compile", .text "files"],
    [.text "compile", .text "files", .path],
    [.text "backtest", .text "build-ini"],
    [.text "backtest", .text "build-set"],
    [.text "backtest"],
    [.text "backtest", .name],
    [.text "backtest", .name, .text "report"],
    [.text "backtest", .name, .text "log"],
    [.text "backtest", .name, .text "tail"],
    [.text "backtest", .name, .text "cancel"],
    [.text "mcp", .mount]]

/-- `rest` is the path of a route of the terminal API, without its leading slash. -/
def isRoute (rest : List Char) : Bool :=
  routes.any fun pieces => fitsRoute pieces (rest.splitOn '/')

open Segments

/-- A route of fixed texts is fitted by these segments only. -/
theorem fitsRoute_text {s : String} {segs : List (List Char)}
    (h : fitsRoute [.text s] segs = true) : segs = [s.toList] := by
  rcases segs with _ | ⟨seg, _ | ⟨seg', segs⟩⟩
  · simp [fitsRoute] at h
  · simpa [fitsRoute] using h
  · simp [fitsRoute] at h

/-- The first text of a route. -/
def firstText : List Piece → String
  | .text s :: _ => s
  | _ => ""

/-- A route begins with its first text. -/
theorem exists_route {rest : List Char} (h : isRoute rest = true) :
    ∃ pieces ∈ routes, fitsRoute pieces (rest.splitOn '/') = true ∧
      first '/' rest = (firstText pieces).toList := by
  obtain ⟨pieces, hmem, hfits⟩ := List.any_eq_true.mp h
  refine ⟨pieces, hmem, hfits, ?_⟩
  obtain ⟨segs, hsegs⟩ := splitOn_eq_cons '/' rest
  rw [hsegs] at hfits
  have htext : routes.all fun pieces => pieces.head? == some (.text (firstText pieces)) := by decide
  have hhead := List.all_eq_true.mp htext pieces hmem
  rcases pieces with _ | ⟨piece, pieces⟩
  · simp at hhead
  · have hpiece : piece = .text (firstText (piece :: pieces)) := by simpa using hhead
    rw [hpiece, fitsRoute, Bool.and_eq_true, beq_iff_eq] at hfits
    exact hfits.1

/-- No route begins with `restart`. -/
theorem not_restart_isPrefix {rest : List Char} (h : isRoute rest = true) :
    ¬ "restart".toList <+: rest := by
  intro hpre
  obtain ⟨pieces, hmem, -, hfirst⟩ := exists_route h
  have htexts :
      routes.all fun pieces => !"restart".toList.isPrefixOf (firstText pieces).toList := by
    decide
  have hnot := List.all_eq_true.mp htexts pieces hmem
  have hpre' : "restart".toList <+: first '/' rest := by
    rcases eq_first_or '/' rest with ⟨heq, -⟩ | ⟨-, more, heq⟩
    · rwa [heq]
    · rw [heq] at hpre
      exact prefix_of_append_sep (by decide) hpre
  rw [hfirst, ← List.isPrefixOf_iff_prefix] at hpre'
  rw [hpre'] at hnot
  cases hnot

/-- The only route that begins with `terminal/restart` is this one. -/
theorem eq_of_terminal_restart_isPrefix {rest : List Char} (h : isRoute rest = true)
    (hpre : "terminal".toList ++ '/' :: "restart".toList <+: rest) :
    rest = "terminal/restart".toList := by
  obtain ⟨more, rfl⟩ := hpre
  rw [List.append_assoc, List.cons_append] at h ⊢
  obtain ⟨pieces, hmem, hfits, hfirst⟩ := exists_route h
  rw [List.splitOn_append_cons_self_of_not_mem (by decide)] at hfits
  rw [first_append_sep (by decide), String.toList_inj] at hfirst
  have hfour : routes.all fun pieces => firstText pieces != "terminal" ||
      pieces ∈ [[.text "terminal"], [.text "terminal", .text "init"],
        [.text "terminal", .text "shutdown"], [.text "terminal", .text "restart"]] := by decide
  have hpieces := List.all_eq_true.mp hfour pieces hmem
  rw [← hfirst] at hpieces
  simp only [bne_self_eq_false, Bool.false_or, decide_eq_true_eq, List.mem_cons, List.not_mem_nil,
    or_false] at hpieces
  -- what follows `terminal/` is one fixed text
  have hone : ∀ s : String, fitsRoute [.text "terminal", .text s]
      ("terminal".toList :: ("restart".toList ++ more).splitOn '/') = true →
        "restart".toList ++ more = s.toList := by
    intro s hs
    rw [fitsRoute, Bool.and_eq_true] at hs
    have hsegs := congrArg (['/'].intercalate ·) (fitsRoute_text hs.2)
    simpa [List.intercalate_splitOn] using hsegs
  rcases hpieces with rfl | rfl | rfl | rfl
  · have hnil := (List.cons.inj (fitsRoute_text hfits)).2
    exact absurd hnil (List.splitOn_ne_nil _ _)
  · have hmore := hone "init" hfits
    exact absurd (show "restart".toList <+: "init".toList from ⟨more, hmore⟩) (by decide)
  · have hmore := hone "shutdown" hfits
    exact absurd (show "restart".toList <+: "shutdown".toList from ⟨more, hmore⟩) (by decide)
  · rw [hone "restart" hfits]
    decide

end Gateway

import Mt5HttpApi.Config
import Mt5HttpApi.Lib.Segments
import Mt5HttpApi.Gateway.Nginx
import Mt5HttpApi.Gateway.Routes

/-!
# The gateway's configuration

`nginx_conf` of `scripts/config_helper.py`: for each terminal a proxying prefix location for
`/<broker>/<account>/<instance>/`, and, for the default instance, one for `/<broker>/<account>/`
too. Within each there is an exact location for `compile` and a prefix location for each
long-running route, which differ from the others in their timeouts only.
-/

namespace Gateway

open Nginx Config

/-- An entry of the `terminals` list, with the container `_vm_container_name` answers for it. -/
structure Terminal where
  broker : String
  account : String
  inst : Option String
  container : String
  port : ℕ
  deriving DecidableEq, Repr

/-- What a location does with a request. -/
inductive Handler
  /-- `rewrite ^stem(.*)$ /$1 break` and `proxy_pass`, with a read timeout unless it is nginx's. -/
  | terminal (container : String) (port : ℕ) (stem : List Char) (readTimeout : Option String)
  /-- The unified MCP endpoint. -/
  | unifier
  /-- `return 404`. -/
  | noRoute
  deriving DecidableEq, Repr

/-- `COMPILE_PROXY_TIMEOUT`. -/
def compileProxyTimeout : String := "180s"

/-- `LONG_PROXY_TIMEOUT`. -/
def longProxyTimeout : String := "300s"

/-- `LONG_RUNNING_ROUTES`. -/
def longRunningRoutes : List String :=
  ["webrequest", "mcp", "files", "compile/files", "terminal/restart"]

/-- `MCP_ROUTE_PREFIX`. -/
def mcpRoutePrefix : List Char := "/mcp/".toList

namespace Terminal

/-- `_normalize_instance(terminal.get("instance"))`. -/
def instanceName (t : Terminal) : String := normalizeInstance t.inst

/-- The broker, account and instance that name the terminal. -/
def identity (t : Terminal) : String × String × String := (t.broker, t.account, t.instanceName)

/-- `/<broker>/<account>/`. -/
def accountStem (t : Terminal) : List Char :=
  '/' :: (t.broker.toList ++ '/' :: (t.account.toList ++ ['/']))

/-- `/<broker>/<account>/<instance>/`. -/
def fullStem (t : Terminal) : List Char :=
  t.accountStem ++ (t.instanceName.toList ++ ['/'])

/-- `_route_prefixes`. -/
def routePrefixes (t : Terminal) : List (List Char) :=
  if t.instanceName = defaultInstance then [t.fullStem, t.accountStem] else [t.fullStem]

/-- `_terminal_location`. -/
def location (t : Terminal) (exact : Bool) (stem route : List Char) (readTimeout : Option String) :
    Location Handler :=
  { exact, name := stem ++ route, proxied := true,
    handler := .terminal t.container t.port stem readTimeout }

/-- The locations of a terminal. -/
def locations (t : Terminal) : List (Location Handler) :=
  t.routePrefixes.flatMap fun stem =>
    t.location false stem [] none ::
      t.location true stem "compile".toList (some compileProxyTimeout) ::
        longRunningRoutes.map fun route =>
          t.location false stem route.toList (some longProxyTimeout)

end Terminal

/-- A broker of the name of the unified MCP endpoint is refused. -/
def takesMcpName (t : Terminal) : Bool :=
  (Text.strip t.broker.toList).map Char.toLower == "mcp".toList

/-- `nginx_conf`: the locations of the generated server, or `none` for its error exit. -/
def nginxConf (terms : List Terminal) : Option (List (Location Handler)) :=
  if terms.any takesMcpName then none
  else some (terms.flatMap Terminal.locations ++
    [{ exact := false, name := mcpRoutePrefix, proxied := true, handler := .unifier },
      { exact := false, name := ['/'], proxied := false, handler := .noRoute }])

/-- What the gateway answers. -/
inductive Answer
  | forwarded (container : String) (port : ℕ) (path : List Char)
  | unified
  | redirected
  | noRoute
  deriving DecidableEq, Repr

/-- What the location chosen for the URI does. -/
def answer (uri : List Char) : Choice Handler → Answer
  | .handled (.terminal container port stem _) => .forwarded container port (rewriteStem stem uri)
  | .handled .unifier => .unified
  | .handled .noRoute | .unmatched => .noRoute
  | .redirected => .redirected

/-- The answer to a request for the decoded URI, or `none` when no gateway runs: the configuration
is not written, or nginx does not start with it. -/
def gateway (terms : List Terminal) (uri : List Char) : Option Answer :=
  (nginxConf terms).bind fun locs =>
    if Starts locs then some (answer uri (choose locs uri)) else none

/-- A character that may stand in a URL as it is and has no meaning in a regular expression. -/
def urlSafe (c : Char) : Bool := c.isAlphanum || c == '-' || c == '_' || c == '~'

/-- The terminals lists in question: accepted by `nginx_conf`, with distinct names made of URL-safe
characters. -/
structure WellNamed (terms : List Terminal) : Prop where
  accepted : (nginxConf terms).isSome = true
  safe : ∀ t ∈ terms, ∀ name ∈ [t.broker, t.account, t.instanceName],
    name ≠ "" ∧ name.toList.all urlSafe = true
  distinct : (terms.map Terminal.identity).Nodup

/-- How a request names a terminal: with its instance, or, for the default instance, without. -/
inductive Form
  | full
  | short
  deriving DecidableEq, Repr

namespace Terminal

/-- The terminal can be named so. -/
def named (t : Terminal) : Form → Prop
  | .full => True
  | .short => t.instanceName = defaultInstance

/-- What stands before `<rest>` in a request to the terminal. -/
def stem (t : Terminal) : Form → List Char
  | .full => t.fullStem
  | .short => t.accountStem

end Terminal

/-- The request for `<rest>` is forwarded to the terminal's container and port, as `/<rest>`. -/
def Forwards (terms : List Terminal) (t : Terminal) (form : Form) (rest : List Char) : Prop :=
  gateway terms (t.stem form ++ rest) = some (.forwarded t.container t.port ('/' :: rest))

/-- Two terminals of one broker and account. -/
def Terminal.sibling (t u : Terminal) : Prop := u.broker = t.broker ∧ u.account = t.account

instance (t u : Terminal) : Decidable (t.sibling u) := inferInstanceAs (Decidable (_ ∧ _))

end Gateway

/-
The front door for previews.

A request's host names an environment and a port of its box, or the environment alone; then the
port is the one of the first service in its `services.yaml` that has one.  The box's address is
where fern-init serves, and the request goes to the same host at the other port.
-/
import Fern.Setup.Key
import Fern.Store.Names

namespace Fern

namespace Preview

/-- `boxexec.Port`: where fern-init serves exec, jobs and the stop of its box. -/
def execPort : Int := 7070

/-- A decimal number, as long as it has nothing but digits. -/
def number? : List Char → Option Nat
  | [] => none
  | c :: l => (c :: l).foldl
      (fun n? c => n?.bind fun n => if c.isDigit then some (10 * n + (c.toNat - 48)) else none)
      (some 0)

/-- `strconv.Atoi`, of a 64-bit integer. -/
def atoi (l : List Char) : Option Int :=
  let n? : Option Int :=
    match l with
    | '-' :: l => (number? l).map fun n => -(n : Int)
    | '+' :: l => (number? l).map Int.ofNat
    | l => (number? l).map Int.ofNat
  n?.filter fun n => -9223372036854775808 ≤ n && n ≤ 9223372036854775807

/-- `strings.CutSuffix`. -/
def cutSuffix (ending l : List Char) : Option (List Char) :=
  if ending.isSuffixOf l then some (l.take (l.length - ending.length)) else none

/-- What the front door is given. -/
structure Server where
  /-- The host previews are under. -/
  host : List Char
  /-- `net.SplitHostPort`: the host, unless the text isn't a host with a port. -/
  splitHost : List Char → Option (List Char)
  /-- `strings.ToLower`. -/
  lower : List Char → List Char
  decoders : Setup.Decoders
  /-- The workspace of an environment; none if the store doesn't give it. -/
  workspace : EnvID → Option Setup.Checkout
  /-- `Boxes.Preview`: the exec address of the environment's box, once it is awake. -/
  wake : EnvID → Option (List Char)

variable (s : Server)

/-- The port a label starts with, and the rest of it; an error refuses the label. -/
def portOf (label : List Char) : Except Unit (Int × List Char) :=
  match cutText ['-'] label with
  | some (p, env) =>
    if env = [] then .ok (0, label)
    else
      match atoi p with
      | some n =>
        if p.head? = some '+' then .ok (0, label)
        else if n ≤ 0 ∨ 65535 < n ∨ n = execPort then .error ()
        else .ok (n, env)
      | none => .ok (0, label)
  | none => .ok (0, label)

/-- `route`: the environment and the port a request's host names; port 0 is the default
preview. -/
def route (hostport : List Char) : Option (EnvID × Int) :=
  let host := (s.splitHost hostport).getD hostport
  match cutSuffix ('.' :: s.host) (s.lower host) with
  | none => none
  | some label =>
    if label = [] ∨ '.' ∈ label then none
    else
      match portOf label with
      | .error () => none
      | .ok (port, label) =>
        if checkEnvID (String.ofList label) then some (String.ofList label, port) else none

/-- `defaultPort`; none if it can't be learnt. -/
def defaultPort (id : EnvID) : Option Int :=
  (s.workspace id).bind fun ws =>
    match Setup.previewPort s.decoders ws.readFile with
    | .ok port => some port
    | .error _ => none

/-- What becomes of a request. -/
inductive Served where
  /-- 404: the host isn't a preview's. -/
  | notPreview
  /-- 404: the environment has no default preview. -/
  | noDefault
  /-- The environment or its box isn't there. -/
  | failed
  /-- It goes to a port of the box. -/
  | forwarded (boxHost : List Char) (port : Int)
  deriving DecidableEq, Repr

/-- The box is woken and gets the request. -/
def forward (id : EnvID) (port : Int) : Served :=
  match (s.wake id).bind s.splitHost with
  | some boxHost => .forwarded boxHost port
  | none => .failed

/-- `ServeHTTP`. -/
def serveHTTP (hostport : List Char) : Served :=
  match route s hostport with
  | none => .notPreview
  | some (id, port) =>
    if port = 0 then
      match defaultPort s id with
      | none => .failed
      | some port => if port = 0 then .noDefault else forward s id port
    else forward s id port

end Preview

end Fern

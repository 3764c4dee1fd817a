/-
What the daemon knows of Claude's conversation with its SDK.

Claude and the SDK that drives it exchange lines of JSON.  A `Stream` follows both directions
to tell when Claude has nothing to do, and how to start it again where it was: the session
it is in, and the newest line of each kind that sets a session up.  Decoding a line is the
JSON library's work, so it is a parameter here; what is decoded is the handful of fields the
tracker reads.
-/
import Mathlib.Data.Finset.Basic
import Fern.Lib.Cut
import Fern.Lib.FinMap
import Fern.Store.Names

namespace Fern

/-- The `type` of a line. -/
inductive LineType where
  | user
  | result
  | system
  | controlRequest
  | controlResponse
  | controlCancelRequest
  | other
  deriving DecidableEq, Repr

/-- The `subtype` of a line of type `system`. -/
inductive SystemSubtype where
  | init
  | backgroundTasksChanged
  | taskStarted
  | taskNotification
  | other
  deriving DecidableEq, Repr

/-- The `subtype` of a control request. -/
inductive RequestSubtype where
  | initializeSession
  | mcpSetServers
  | setModel
  | setPermissionMode
  | setMaxThinkingTokens
  | applyFlagSettings
  | updateSettings
  | setMcpPermissionModeOverride
  | setCwd
  | channelEnable
  | setChromeBrowserHints
  /-- `interrupt`, `stop_task`, `get_context_usage` and the like. -/
  | other (name : String)
  deriving DecidableEq, Repr

open RequestSubtype in
/-- The control requests that set up a session: a restarted Claude gets the newest of each,
in this order. -/
def replayed : List RequestSubtype :=
  [initializeSession, mcpSetServers, setModel, setPermissionMode, setMaxThinkingTokens,
    applyFlagSettings, updateSettings, setMcpPermissionModeOverride, setCwd, channelEnable,
    setChromeBrowserHints]

/-- The fields of a line that the tracker reads. -/
structure Message where
  type : LineType := .other
  subtype : SystemSubtype := .other
  sessionID : String := ""
  requestID : String := ""
  /-- `request.subtype`, if the line has a request. -/
  request : Option RequestSubtype := none
  /-- `response.request_id`, if the line has a response. -/
  response : Option String := none
  taskID : String := ""
  tasks : List Bytes := []
  deriving DecidableEq, Repr

structure Stream where
  /-- From Claude's init message. -/
  session : String
  /-- A user message went in and no result came out since. -/
  busy : Bool
  /-- The SDK's control requests that Claude hasn't answered. -/
  toClaude : Finset String
  /-- Claude's control requests that the SDK hasn't answered. -/
  toSDK : Finset String
  /-- How many tasks Claude's newest `background_tasks_changed` lists. -/
  tasks : Nat
  /-- Tasks started and not notified as ended. -/
  running : Finset String
  /-- The newest line of each replayed subtype. -/
  setup : FinMap RequestSubtype Bytes
  /-- Replayed requests whose answers the SDK mustn't see. -/
  swallow : Finset String
  lastLine : Time

def newStream : Stream where
  session := ""
  busy := false
  toClaude := ∅
  toSDK := ∅
  tasks := 0
  running := ∅
  setup := FinMap.empty
  swallow := ∅
  lastLine := 0

namespace Stream

/-! ### A line -/

/-- The setup with control request `m`, which was `line`, in it if it is replayed. -/
def noteSetup (s : Stream) (line : Bytes) (m : Message) : FinMap RequestSubtype Bytes :=
  match m.request with
  | some sub => if sub ∈ replayed then s.setup.set sub line else s.setup
  | none => s.setup

/-- What a message of the SDK changes. -/
def hear (s : Stream) (line : Bytes) (m : Message) : Stream :=
  match m.type with
  | .user => { s with busy := true }
  | .controlRequest =>
    { s with toClaude := insert m.requestID s.toClaude, setup := s.noteSetup line m }
  | .controlCancelRequest => { s with toClaude := s.toClaude.erase m.requestID }
  | .controlResponse =>
    match m.response with
    | some id => { s with toSDK := s.toSDK.erase id }
    | none => s
  | _ => s

/-- What a message of Claude changes. -/
def tell (s : Stream) (m : Message) : Stream :=
  match m.type with
  | .system =>
    match m.subtype with
    | .init => { s with session := m.sessionID }
    | .backgroundTasksChanged => { s with tasks := m.tasks.length }
    | .taskStarted => { s with running := insert m.taskID s.running }
    | .taskNotification => { s with running := s.running.erase m.taskID }
    | .other => s
  | .result => { s with busy := false }
  | .controlRequest => { s with toSDK := insert m.requestID s.toSDK }
  | .controlResponse =>
    match m.response with
    | some id => { s with toClaude := s.toClaude.erase id, swallow := s.swallow.erase id }
    | none => s
  | _ => s

/-- Whether a message of Claude answers a replayed request: the SDK doesn't see it. -/
def swallows (s : Stream) (m : Message) : Bool :=
  match m.type, m.response with
  | .controlResponse, some id => id ∈ s.swallow
  | _, _ => false

section

variable (json : Bytes → Option Message)

/-- Read a line the SDK sent to Claude. -/
def In (s : Stream) (now : Time) (line : Bytes) : Stream :=
  let s := { s with lastLine := now }
  match json line with
  | none => s
  | some m => s.hear line m

/-- Read a line Claude sent to the SDK, and say whether the SDK may see it. -/
def Out (s : Stream) (now : Time) (line : Bytes) : Stream × Bool :=
  let s := { s with lastLine := now }
  match json line with
  | none => (s, true)
  | some m => (s.tell m, !s.swallows m)

/-! ### Idle, and started again -/

/-- Whether Claude has nothing to do. -/
def idle (s : Stream) : Bool :=
  s.session != "" && !s.busy && s.toClaude = ∅ && s.toSDK = ∅ && s.tasks == 0 && s.running = ∅

/-- Since when Claude has had nothing to do. -/
def idleSince (s : Stream) : Option Time := if s.idle then some s.lastLine else none

/-- The newest line of each replayed subtype, in their order. -/
def setupLines (s : Stream) : List Bytes := replayed.filterMap s.setup.get

/-- The IDs of the requests among `lines`. -/
def requestIDs (lines : List Bytes) : Finset String :=
  (lines.filterMap fun line => (json line).map Message.requestID).toFinset

/-- Forget what the stopped Claude was running, and replay the setup. -/
def restart (s : Stream) : Stream :=
  let ids := requestIDs json s.setupLines
  { s with
    tasks := 0
    running := ∅
    toClaude := ids
    toSDK := ∅
    swallow := s.swallow ∪ ids }

end

end Stream

/-! ### Claude's command line -/

/-- Claude's flags that pick or fork a session; the Boolean says whether the flag takes a
value. -/
def sessionFlag? (name : String) : Option Bool :=
  if name ∈ ["--session-id", "--resume", "-r", "--resume-session-at", "--resume-drops-turn"] then
    some true
  else if name ∈ ["--fork-session", "--continue", "-c"] then some false
  else none

/-- A flag's name, and whether it has its value after an `=`. -/
def cutFlag (arg : String) : String × Bool :=
  (String.ofList (arg.toList.takeWhile (· ≠ '=')), '=' ∈ arg.toList)

/-- The arguments other than those that pick a session. -/
def dropSession : List String → List String
  | [] => []
  | arg :: rest =>
    match sessionFlag? (cutFlag arg).1 with
    | none => arg :: dropSession rest
    | some takesValue =>
      if takesValue && !(cutFlag arg).2 then
        match rest with
        | [] => []
        | _ :: rest => dropSession rest
      else dropSession rest

/-- The command line that starts Claude again in `session`. -/
def resumeArgs (argv : List String) (session : String) : List String :=
  match argv with
  | [] => ["--resume=" ++ session]
  | cmd :: rest => cmd :: dropSession rest ++ ["--resume=" ++ session]

end Fern

/-
A conversation between the SDK and Claude, as the two see it.

This is the protocol the tracker follows, in its own terms: who said what, in order, and the
restarts in between.  A restarted Claude is first told the newest line of each kind that sets
up a session, so those lines are part of what was said to it.  What it means for Claude to
have nothing to do is said of the whole conversation, not of the tracker.
-/
import Fern.Lib.Since
import Fern.Hibernate.Stream

namespace Fern

/-! ### What happens -/

/-- One thing that happens in a conversation: a line goes one way or the other, or the daemon
starts Claude again. -/
inductive Said where
  | sdk (now : Time) (line : Bytes)
  | claude (now : Time) (line : Bytes)
  | restart

/-- The lines the SDK has sent. -/
def sentLines (l : List Said) : List Bytes :=
  l.filterMap fun
    | .sdk _ line => some line
    | _ => none

section

variable (json : Bytes → Option Message)

/-- What the tracker makes of one event. -/
def Stream.follow (s : Stream) : Said → Stream
  | .sdk now line => s.In json now line
  | .claude now line => (s.Out json now line).1
  | .restart => s.restart json

/-- The tracker after a conversation. -/
def track (l : List Said) : Stream := l.foldl (Stream.follow json) newStream

/-- Whether a line is a control request of subtype `sub`. -/
def isSetup (sub : RequestSubtype) (line : Bytes) : Bool :=
  match json line with
  | some m => m.type = .controlRequest && m.request = some sub
  | none => false

/-- The newest control request of subtype `sub` among the lines sent. -/
def newest (sub : RequestSubtype) (sent : List Bytes) : Option Bytes :=
  sent.reverse.find? (isSetup json sub)

/-- What a restarted Claude is told first: the newest line of each replayed subtype. -/
def replays (sent : List Bytes) : List Bytes := replayed.filterMap (newest json · sent)

end

/-! ### Who said what -/

inductive Side where
  | sdk
  | claude
  deriving DecidableEq, Repr

/-- What passes between the two sides: a line, decoded if it could be, or a restart. -/
inductive Wire where
  | said (side : Side) (m : Option Message)
  | restart

namespace Wire

/-- `side` says a message of which `P` holds. -/
def Sends (side : Side) (P : Message → Prop) : Wire → Prop
  | said s (some m) => s = side ∧ P m
  | _ => False

/-- Claude names the session it is in. -/
def Inits : Wire → Prop := Sends .claude fun m => m.type = .system ∧ m.subtype = .init

/-- Claude names the session it is in, with a name that isn't empty. -/
def NamesSession : Wire → Prop :=
  Sends .claude fun m => m.type = .system ∧ m.subtype = .init ∧ m.sessionID ≠ ""

def User : Wire → Prop := Sends .sdk fun m => m.type = .user

def Result : Wire → Prop := Sends .claude fun m => m.type = .result

/-- `side` makes control request `r`. -/
def Asks (side : Side) (r : String) : Wire → Prop :=
  Sends side fun m => m.type = .controlRequest ∧ m.requestID = r

/-- `side` takes its control request `r` back. -/
def Cancels (side : Side) (r : String) : Wire → Prop :=
  Sends side fun m => m.type = .controlCancelRequest ∧ m.requestID = r

/-- `side` answers the other side's control request `r`. -/
def Answers (side : Side) (r : String) : Wire → Prop :=
  Sends side fun m => m.type = .controlResponse ∧ m.response = some r

/-- Claude lists its background tasks. -/
def ListsTasks : Wire → Prop :=
  Sends .claude fun m => m.type = .system ∧ m.subtype = .backgroundTasksChanged

/-- Claude lists its background tasks, and there are some. -/
def ListsSomeTask : Wire → Prop :=
  Sends .claude fun m => m.type = .system ∧ m.subtype = .backgroundTasksChanged ∧ m.tasks ≠ []

def Starts (t : String) : Wire → Prop :=
  Sends .claude fun m => m.type = .system ∧ m.subtype = .taskStarted ∧ m.taskID = t

def Ends (t : String) : Wire → Prop :=
  Sends .claude fun m => m.type = .system ∧ m.subtype = .taskNotification ∧ m.taskID = t

end Wire

def Side.other : Side → Side
  | .sdk => .claude
  | .claude => .sdk

/-- What passes in a conversation before which the SDK had sent `sent`. -/
def wire (json : Bytes → Option Message) : List Bytes → List Said → List Wire
  | _, [] => []
  | sent, .sdk _ line :: l => .said .sdk (json line) :: wire json (sent ++ [line]) l
  | sent, .claude _ line :: l => .said .claude (json line) :: wire json sent l
  | sent, .restart :: l =>
    .restart :: ((replays json sent).map fun line => .said .sdk (json line)) ++ wire json sent l

/-! ### Nothing to do -/

open Wire

/-- Control request `r` of `side`, made since the last restart, has been neither answered nor
taken back. -/
def OpenRequest (side : Side) (r : String) : List Wire → Prop :=
  Since (Asks side r) fun e => Answers side.other r e ∨ Cancels side r e ∨ e = .restart

/-- Control request `r` of `side`, made since the last restart, hasn't been answered. -/
def UnansweredRequest (side : Side) (r : String) : List Wire → Prop :=
  Since (Asks side r) fun e => Answers side.other r e ∨ e = .restart

/-- Claude has nothing to do: its session is known, the newest user message was followed by a
result, every control request made in either direction since the last restart was answered or
taken back, the newest list of background tasks is empty, and every task started was notified
as ended. -/
structure NothingToDo (w : List Wire) : Prop where
  session : Since NamesSession Inits w
  turn : ¬ Since User Result w
  requests : ∀ side r, ¬ OpenRequest side r w
  listed : ¬ Since ListsSomeTask ListsTasks w
  started : ∀ t, ¬ Since (Starts t) (Ends t) w

/-- Claude, as it runs since its last start, has something to do. -/
def Occupied (w : List Wire) : Prop :=
  ¬ Since NamesSession Inits w ∨ Since User Result w ∨ (∃ side r, OpenRequest side r w) ∨
    Since ListsSomeTask (fun e => ListsTasks e ∨ e = .restart) w ∨
    ∃ t, Since (Starts t) (fun e => Ends t e ∨ e = .restart) w

/-- A control request of Claude's since its last start has had no answer. -/
def Unanswered (w : List Wire) : Prop := ∃ r, UnansweredRequest .claude r w

/-- A background task, of this Claude or of one stopped before it, is listed or was started
and never notified as ended. -/
def TaskLeft (w : List Wire) : Prop :=
  Since ListsSomeTask ListsTasks w ∨ ∃ t, Since (Starts t) (Ends t) w

end Fern

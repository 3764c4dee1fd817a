/-
Who runs a change, and when.

A call of `do` looks for the box's actor, which `Run` finds or starts, and then waits until the
actor takes its message, is done, or the caller gives up.  Channels have no buffers but the one
for the reply, so a message is handed over at one moment: when the actor is waiting for one.
An actor ends on its own and is done for its callers before `Run` has received it.  `endExec`
sends its message to the very actor it knows, and looks for no other.

This is one box's part of it: its actors are numbered as they are started.
-/
import Mathlib.Logic.Function.Basic

namespace Fern

namespace Mailbox

/-- What an actor is doing when it doesn't wait for a message. -/
inductive Job where
  /-- It runs the change of a caller. -/
  | change (caller : Nat)
  /-- It puts an idle box to sleep. -/
  | sleep
  deriving DecidableEq, Repr

/-- Where an actor is in its `run`. -/
inductive Phase where
  /-- Not started. -/
  | absent
  /-- Waiting for a message, the idle timer or the end of `Run`'s context. -/
  | ready
  /-- Asleep with nothing running: it takes a message only if one is waiting. -/
  | last
  /-- At work on what it took while `ready`, or while it was about to exit. -/
  | busy (job : Job) (exiting : Bool)
  /-- `run` has returned. -/
  | ended
  /-- `done` is closed. -/
  | done
  /-- Received by `Run`. -/
  | received
  deriving DecidableEq, Repr

/-- It may take a message. -/
def Phase.takes : Phase → Bool
  | .ready | .last => true
  | _ => false

/-- It handles messages or makes a change. -/
def Phase.works : Phase → Bool
  | .ready | .last | .busy _ _ => true
  | _ => false

/-- Started, and `done` isn't closed. -/
def Phase.live : Phase → Bool
  | .ready | .last | .busy _ _ | .ended => true
  | _ => false

/-- `isClosed(a.done)`. -/
def Phase.isDone : Phase → Bool
  | .done | .received => true
  | _ => false

/-- What `do` returns. -/
inductive Result where
  /-- The change's own. -/
  | own
  /-- The error of the caller's context. -/
  | context
  /-- `ErrStopped`. -/
  | stopped
  /-- The ID's error. -/
  | badID
  deriving DecidableEq, Repr

/-- Where a caller is. -/
inductive Caller where
  | new
  /-- In `actorOf`. -/
  | looking
  /-- In `do`, with an actor. -/
  | holding (actor : Nat)
  /-- In `do`, with its message taken. -/
  | waiting
  | returned (r : Result)
  /-- In `endExec`, with its actor. -/
  | closing (actor : Nat)
  /-- Out of `endExec`, its message taken. -/
  | handed
  /-- Out of `endExec`, its actor done. -/
  | dropped
  deriving DecidableEq, Repr

end Mailbox

open Mailbox

/-- One box's actors and callers. -/
structure Mailbox where
  /-- The box's ID is one that `CheckEnvID` takes. -/
  valid : Bool := true
  /-- `Run` hasn't returned. -/
  running : Bool := true
  /-- `Run`'s context is done. -/
  stopping : Bool := false
  /-- `actors[id]`. -/
  current : Option Nat := none
  /-- How many actors were started. -/
  count : Nat := 0
  phase : Nat → Phase := fun _ => .absent
  callers : Nat → Caller := fun _ => .new
  /-- How often a caller's change was begun. -/
  begun : Nat → Nat := fun _ => 0
  /-- How often it came to its end. -/
  ended : Nat → Nat := fun _ => 0

namespace Mailbox

inductive Event where
  /-- A caller calls `do`. -/
  | call (i : Nat)
  /-- A command ends that actor `k` counted. -/
  | close (i k : Nat)
  /-- `Run` answers a caller that looks for the actor. -/
  | find (i : Nat)
  /-- A caller sees that `Run` has returned. -/
  | seesStopped (i : Nat)
  /-- A caller's context is done. -/
  | givesUp (i : Nat)
  /-- The caller's actor takes its message. -/
  | take (i : Nat)
  /-- A caller sees that its actor is done. -/
  | seesDone (i : Nat)
  /-- The idle timer of actor `k` fires. -/
  | idle (k : Nat)
  /-- Actor `k` comes to the end of what it does; then the box is awake or has commands, or not. -/
  | finish (k : Nat) (up : Bool)
  /-- A caller takes the reply. -/
  | reply (i : Nat)
  /-- Actor `k` returns from `run`. -/
  | ends (k : Nat)
  /-- Its `done` is closed. -/
  | closeDone (k : Nat)
  /-- `Run` receives it. -/
  | exited (k : Nat)
  /-- `Run`'s context is done. -/
  | shutdown
  /-- `Run` returns. -/
  | stop
  deriving DecidableEq, Repr

/-- Caller `i` goes on to `c`. -/
def goTo (s : Mailbox) (i : Nat) (c : Caller) : Mailbox :=
  { s with callers := Function.update s.callers i c }

/-- Actor `k` goes on to `p`. -/
def enter (s : Mailbox) (k : Nat) (p : Phase) : Mailbox :=
  { s with phase := Function.update s.phase k p }

/-- Actor `k` begins the change of caller `i`. -/
def begin (s : Mailbox) (k i : Nat) : Mailbox :=
  { s.enter k (.busy (.change i) (s.phase k = .last)) with
    begun := Function.update s.begun i (s.begun i + 1) }

/-- Where an actor goes on when its work is over. -/
def afterWork (exiting up : Bool) : Phase := if exiting || up then .ready else .last

/-- `Run` finds the box's actor, or starts one. -/
def findOrStart (s : Mailbox) : Mailbox × Nat :=
  match s.current with
  | some k =>
    if (s.phase k).isDone then
      ({ s.enter s.count .ready with current := some s.count, count := s.count + 1 }, s.count)
    else (s, k)
  | none => ({ s.enter s.count .ready with current := some s.count, count := s.count + 1 }, s.count)

def step (s : Mailbox) : Event → Option Mailbox
  | .call i =>
    if s.callers i = .new then
      some (s.goTo i (if s.valid then .looking else .returned .badID))
    else none
  | .close i k => if s.callers i = .new ∧ k < s.count then some (s.goTo i (.closing k)) else none
  | .find i =>
    if s.callers i = .looking ∧ s.running then
      some (s.findOrStart.1.goTo i (.holding s.findOrStart.2))
    else none
  | .seesStopped i =>
    if s.callers i = .looking ∧ !s.running then some (s.goTo i (.returned .stopped)) else none
  | .givesUp i =>
    match s.callers i with
    | .looking | .holding _ => some (s.goTo i (.returned .context))
    | _ => none
  | .take i =>
    match s.callers i with
    | .holding k => if (s.phase k).takes then some ((s.begin k i).goTo i .waiting) else none
    | .closing k => if (s.phase k).takes then some ((s.begin k i).goTo i .handed) else none
    | _ => none
  | .seesDone i =>
    match s.callers i with
    | .holding k => if (s.phase k).isDone then some (s.goTo i .looking) else none
    | .closing k => if (s.phase k).isDone then some (s.goTo i .dropped) else none
    | _ => none
  | .idle k => if s.phase k = .ready then some (s.enter k (.busy .sleep false)) else none
  | .finish k up =>
    match s.phase k with
    | .busy (.change i) exiting =>
      some { s.enter k (afterWork exiting up) with
        ended := Function.update s.ended i (s.ended i + 1) }
    | .busy .sleep exiting => some (s.enter k (afterWork exiting up))
    | _ => none
  | .reply i =>
    if s.callers i = .waiting ∧ 0 < s.ended i then some (s.goTo i (.returned .own)) else none
  | .ends k =>
    if s.phase k = .last ∨ (s.phase k = .ready ∧ s.stopping) then some (s.enter k .ended) else none
  | .closeDone k => if s.phase k = .ended then some (s.enter k .done) else none
  | .exited k =>
    if s.phase k = .done ∧ s.running then
      some { s.enter k .received with
        current := if s.current = some k then none else s.current }
    else none
  | .shutdown => some { s with stopping := true }
  | .stop => if s.stopping ∧ s.running then some { s with running := false } else none

def run (s : Mailbox) (events : List Event) : Option Mailbox := events.foldlM step s

/-- `Run` at its start: it can't learn which boxes are running and returns, or the box is one
that an earlier daemon left awake, or it isn't. -/
def start (valid : Bool) : Option Bool → Mailbox
  | none => { valid, running := false }
  | some true =>
    { valid, current := some 0, count := 1, phase := Function.update (fun _ => .absent) 0 .ready }
  | some false => { valid }

end Mailbox

end Fern

/-
An actor's loop, with the box it is for.

`Mailbox` says where actors and callers are, and `Actor` what a message makes of an actor's fields.
Here they go together: after a message or an idle sleep, the actor's own fields say whether it goes
on or is about to exit.  A message taken when it was about to exit is followed by no such check.
-/
import Fern.Actor.Actor
import Fern.Actor.Mailbox

namespace Fern

/-- The caller has actor `k`, and has yet to hand its message over. -/
def Mailbox.Caller.holds (c : Mailbox.Caller) (k : Nat) : Bool := c = .holding k ∨ c = .closing k

/-- A caller is about to hand actor `k` a message. -/
def Mailbox.Held (s : Mailbox) (k : Nat) : Prop := ∃ i, (s.callers i).holds k = true

/-- One box's actors and callers, with the actors' fields. -/
structure Loop (Addr : Type) where
  box : Mailbox
  actor : Nat → Actor Addr

namespace Loop

variable {Addr : Type} [DecidableEq Addr]

/-- `a.awake || len(a.execs) > 0 || len(a.jobs) > 0`. -/
def up (a : Actor Addr) : Bool := a.awake || !a.execs.isEmpty || !a.jobs.isEmpty

inductive Event (Addr : Type) where
  /-- What no actor's fields have a part in. -/
  | mail (e : Mailbox.Event)
  /-- `Run` answers a caller; an actor it starts for it goes on counting these crashes. -/
  | find (i : Nat) (crashes : List Nat)
  /-- The idle timer of actor `k` fires. -/
  | fires (k now : Nat)
  /-- Actor `k` has handled the message it took, at `now`. -/
  | handles (k now : Nat) (m : Actor.Msg Addr)
  /-- Actor `k` comes to the end of `sleepIfIdle`. -/
  | sleeps (k now : Nat) (ok : Bool) (took : Nat)
  deriving DecidableEq

/-- An event of the mailbox that no actor's fields have a part in. -/
def isMail : Mailbox.Event → Bool
  | .find _ | .idle _ | .finish _ _ => false
  | _ => true

/-- Actor `k` comes to the end of its work, with these fields. -/
def finish (s : Loop Addr) (k : Nat) (a : Actor Addr) : Option (Loop Addr) :=
  (s.box.step (.finish k (up a))).map fun box => ⟨box, Function.update s.actor k a⟩

def step (idle : Idle) (s : Loop Addr) : Event Addr → Option (Loop Addr)
  | .mail e => if isMail e then (s.box.step e).map fun box => { s with box } else none
  | .find i crashes =>
    (s.box.step (.find i)).map fun box =>
      -- the number of a new actor is the count before it
      ⟨box, if box.count = s.box.count then s.actor
        else Function.update s.actor s.box.count (Actor.start 0 crashes false)⟩
  | .fires k now =>
    if ((s.actor k).armIdle idle).any (· ≤ now) then
      (s.box.step (.idle k)).map fun box => { s with box }
    else none
  | .handles k now m =>
    match s.box.phase k with
    | .busy (.change _) _ => s.finish k ((s.actor k).handle idle now m).1
    | _ => none
  | .sleeps k now ok took =>
    match s.box.phase k with
    | .busy .sleep _ => s.finish k ((s.actor k).sleepIfIdle idle now ok took).1
    | _ => none

def run (idle : Idle) (s : Loop Addr) (events : List (Event Addr)) : Option (Loop Addr) :=
  events.foldlM (step idle) s

/-- `Run` at its start, at time `now`. -/
def start (valid : Bool) (states : Option Bool) (now : Nat) : Loop Addr :=
  ⟨Mailbox.start valid states, fun _ => Actor.start now [] (states = some true)⟩

end Loop

end Fern

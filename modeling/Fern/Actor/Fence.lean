/-
An environment's own box and its agent box, with an actor each.

`Sleep`, `Restore` and `Delete` run on the environment's own actor: they stop its box, ask the
agent box's actor to stop that one, and go on when it has answered; only then do `Restore` and
`Delete` call the store.  The environment's actor takes no other message meanwhile.  The agent
box's actor does, and it never waits for the environment's.

Each actor's clock shows the time of what it did last: what the two do is ordered by the run.
Beside what an actor knows of its box stands whether the box is running.
-/
import Fern.Actor.Actor

namespace Fern

namespace Fence

variable {Addr : Type} [DecidableEq Addr]

/-- A box and its actor. -/
structure Box (Addr : Type) where
  actor : Actor.At Addr
  /-- The box is running. -/
  up : Bool

/-- Whether the box is running after what the actor does.  The driver does what it says where it
succeeds; a `Wake` or a `Sleep` that fails may have left the box running. -/
def Box.upAfter (idle : Idle) (b : Box Addr) (left : Bool) : Actor.Event Addr → Bool
  | .msg _ (.stop true ok _) => !ok && b.up && left
  | .msg wait m =>
    if b.actor.a.callsWake (b.actor.now + wait) m then
      (b.actor.a.handle idle (b.actor.now + wait) m).1.addr.isSome || left
    else b.up
  | .idle wait ok _ =>
    if b.actor.a.stopsIfIdle idle (b.actor.now + wait) then !ok && b.up && left else b.up

/-- The actor takes a message, or its idle timer fires. -/
def Box.step (idle : Idle) (b : Box Addr) (e : Actor.Event Addr) (left : Bool) :
    Option (Box Addr) :=
  (Actor.step idle b.actor e).map fun actor => { actor, up := b.upAfter idle left e }

/-- The actor has ended, and another is started. -/
def Box.restart (b : Box Addr) (wait : Nat) (crashes : List Nat) : Box Addr :=
  { b with actor := ⟨b.actor.now + wait, .start (b.actor.now + wait) crashes false⟩ }

/-- Asleep with nothing running, an actor ends. -/
def Box.mayEnd (b : Box Addr) : Bool :=
  !b.actor.a.awake && b.actor.a.execs.isEmpty && b.actor.a.jobs.isEmpty

/-- What stops both boxes. -/
inductive Change where
  | sleep
  | restore
  | delete
  deriving DecidableEq, Repr

/-- How far the environment's own actor is. -/
inductive Pc where
  /-- It may take a message. -/
  | free
  /-- It has stopped its box, and asks for the agent box to be stopped. -/
  | stopped (c : Change)
  /-- The agent box's actor has answered: the store is called next. -/
  | fenced (c : Change)
  deriving DecidableEq, Repr

/-- Where the actor goes on after `stopAgent`. -/
def Pc.after : Change → Pc
  | .sleep => .free
  | c => .fenced c

inductive Event (Addr : Type) where
  /-- The environment's own actor takes a message that isn't a `Change`, or its timer fires. -/
  | own (e : Actor.Event Addr) (left : Bool)
  /-- The agent box's does. -/
  | agent (e : Actor.Event Addr) (left : Bool)
  /-- The environment's actor takes a `Change`, checks what it checks first, and stops its box. -/
  | begins (c : Change) (wait : Nat) (checked ok : Bool) (took : Nat) (left : Bool)
  /-- The agent box's actor takes `stopAgent`'s message. -/
  | stopAgent (wait : Nat) (ok : Bool) (took : Nat) (left : Bool)
  /-- `stopAgent` gives up before its message is taken. -/
  | givesUp
  /-- The store's `Restore` or `Delete` is called and returns. -/
  | store
  /-- The environment's own actor has ended, and another is started. -/
  | restartOwn (wait : Nat) (crashes : List Nat)
  /-- The agent box's has. -/
  | restartAgent (wait : Nat) (crashes : List Nat)
  /-- A box dies. -/
  | ownDies
  | agentDies
  /-- `Run`'s context is done: actors end whatever they know. -/
  | shutdown

end Fence

open Fence in
/-- The two boxes of an environment. -/
structure Fence (Addr : Type) where
  own : Box Addr
  agent : Box Addr
  pc : Pc := .free
  shutdown : Bool := false

namespace Fence

variable {Addr : Type} [DecidableEq Addr]

/-- Whether what an actor is asked is a `Change` of its box. -/
def isStop : Actor.Event Addr → Bool
  | .msg _ (.stop _ _ _) => true
  | _ => false

def step (idle : Idle) (s : Fence Addr) : Event Addr → Option (Fence Addr)
  | .own e left =>
    if s.pc = .free ∧ !isStop e then (s.own.step idle e left).map ({ s with own := · }) else none
  | .agent e left => (s.agent.step idle e left).map ({ s with agent := · })
  | .begins c wait checked ok took left =>
    if s.pc = .free then
      (s.own.step idle (.msg wait (.stop checked ok took)) left).map fun own =>
        { s with own, pc := if checked && ok then .stopped c else .free }
    else none
  | .stopAgent wait ok took left =>
    match s.pc with
    | .stopped c =>
      (s.agent.step idle (.msg wait (.stop s.agent.actor.a.awake ok took)) left).map fun agent =>
        { s with agent, pc := if !s.agent.actor.a.awake || ok then Pc.after c else .free }
    | _ => none
  | .givesUp =>
    match s.pc with
    | .stopped _ => some { s with pc := .free }
    | _ => none
  | .store =>
    match s.pc with
    | .fenced _ => some { s with pc := .free }
    | _ => none
  | .restartOwn wait crashes =>
    if s.pc = .free ∧ (s.own.mayEnd || s.shutdown) then
      some { s with own := s.own.restart wait crashes }
    else none
  | .restartAgent wait crashes =>
    if s.agent.mayEnd || s.shutdown then some { s with agent := s.agent.restart wait crashes }
    else none
  | .ownDies => some { s with own := { s.own with up := false } }
  | .agentDies => some { s with agent := { s.agent with up := false } }
  | .shutdown => some { s with shutdown := true }

def run (idle : Idle) (s : Fence Addr) (events : List (Event Addr)) : Option (Fence Addr) :=
  events.foldlM (step idle) s

/-- When the daemon starts: it learns which boxes are running. -/
def start (now : Nat) (own agent : Bool) : Fence Addr where
  own := ⟨⟨now, .start now [] own⟩, own⟩
  agent := ⟨⟨now, .start now [] agent⟩, agent⟩

/-- No box of the environment is running, is thought to be, or has a command counted in it. -/
structure Quiet (s : Fence Addr) : Prop where
  ownDown : s.own.up = false
  agentDown : s.agent.up = false
  ownAsleep : s.own.actor.a.awake = false
  agentAsleep : s.agent.actor.a.awake = false
  ownIdle : s.own.actor.a.execs = [] ∧ s.own.actor.a.jobs = []
  agentIdle : s.agent.actor.a.execs = [] ∧ s.agent.actor.a.jobs = []

end Fence

end Fern

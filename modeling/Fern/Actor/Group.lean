/-
The actors of one box, one after another.

An actor ends when its box is asleep with nothing running.  A caller that looks for the box's
actor then gets a new one, which `Run` starts with the crash times it keeps for the box.  `Run`
takes those of an actor that ended over the channel `exited`, in its own time: until then an
actor that ended is done for the callers, but its crash times aren't kept yet.
-/
import Fern.Actor.Actor

namespace Fern

/-- What `Run` has of one box. -/
structure Group (Addr : Type) where
  now : Nat
  /-- `crashes[id]`. -/
  kept : List Nat := []
  /-- The box's actor, unless it is done. -/
  live : Option (Actor Addr) := none
  /-- The crash times of the actors that are done and that `Run` hasn't received yet. -/
  exiting : List (List Nat) := []
  deriving DecidableEq, Repr

namespace Group

variable {Addr : Type} [DecidableEq Addr]

inductive Event (Addr : Type) where
  /-- The actor takes a message. -/
  | msg (wait : Nat) (m : Actor.Msg Addr)
  /-- Its idle timer fires. -/
  | idle (wait : Nat) (ok : Bool) (took : Nat)
  /-- It ends, asleep with nothing running. -/
  | finish
  /-- `Run` answers a caller who looks for the actor by starting one. -/
  | start (wait : Nat)
  /-- `Run` receives one that ended. -/
  | exited (wait i : Nat)
  deriving DecidableEq, Repr

/-- Asleep with nothing running. -/
def finished (a : Actor Addr) : Bool := !a.awake && a.execs = [] && a.jobs = []

/-- What `Run` has after an event. -/
def step (idle : Idle) (g : Group Addr) : Event Addr → Option (Group Addr)
  | .msg wait m =>
    g.live.map fun a =>
      { g with
        now := (a.handle idle (g.now + wait) m).2.1
        live := some (a.handle idle (g.now + wait) m).1 }
  | .idle wait ok took => do
    let a ← g.live
    let s ← Actor.step idle ⟨g.now, a⟩ (.idle wait ok took)
    pure { g with now := s.now, live := some s.a }
  | .finish => do
    let a ← g.live
    if finished a then pure { g with live := none, exiting := g.exiting ++ [a.crashes] } else none
  | .start wait =>
    match g.live with
    | some _ => none
    | none =>
      some { g with now := g.now + wait, live := some (.start (g.now + wait) g.kept false) }
  | .exited wait i => do
    let crashes ← g.exiting[i]?
    pure
      { g with
        now := g.now + wait
        kept := recent (g.now + wait) crashes
        exiting := g.exiting.eraseIdx i }

/-- The box when `Run` starts: asleep, or left awake by an earlier daemon. -/
def begin (now : Nat) (awake : Bool) : Group Addr where
  now := now
  live := if awake then some (.start now [] true) else none

end Group

/-! ### What was recorded -/

namespace Actor

variable {Addr : Type} [DecidableEq Addr]

/-- The death that an address that didn't answer stands for. -/
def died (now : Nat) (stale : Option Addr) : List Nat := if stale.isSome then [now] else []

/-- The crash times a wake records: a death if an address was reported that isn't known to be
replaced, and a wake of the driver's that failed. -/
def wakeCrashes (a : Actor Addr) (now : Nat) (stale : Option Addr) (ans : WakeAnswers Addr) :
    List Nat :=
  if !ans.found ∨ (a.addr.isSome ∧ a.addr ≠ stale) then []
  else
    died now stale ++
      (if (a.crashesAt now stale).length < crashLimit ∧
        ans.addr = none then [now + ans.took] else [])

/-- The crash times recorded since a person last woke the box, after a message. -/
def recorded (a : Actor Addr) (now : Nat) (record : List Nat) : Msg Addr → List Nat
  | .exec _ stale ans => record ++ a.wakeCrashes now stale ans
  | .wake ans => { a with crashes := [] }.wakeCrashes now none ans
  | .prewake ans => if a.awake then record else record ++ a.wakeCrashes now none ans
  | _ => record

end Actor

/-- What `Run` has of a box, and all crash times recorded of it since a person last woke it. -/
structure Chronicle (Addr : Type) where
  g : Group Addr
  record : List Nat := []
  deriving DecidableEq, Repr

namespace Chronicle

variable {Addr : Type} [DecidableEq Addr]

def step (idle : Idle) (c : Chronicle Addr) (e : Group.Event Addr) : Option (Chronicle Addr) :=
  (c.g.step idle e).map fun g =>
    { g := g
      record :=
        match e, c.g.live with
        | .msg wait m, some a => a.recorded (c.g.now + wait) c.record m
        | _, _ => c.record }

def run (idle : Idle) (c : Chronicle Addr) (events : List (Group.Event Addr)) :
    Option (Chronicle Addr) :=
  events.foldlM (step idle) c

end Chronicle

end Fern

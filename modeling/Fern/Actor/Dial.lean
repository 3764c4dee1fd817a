/-
Commands, the box they dial, and the deaths they report.

A command opens the box and dials the address it is given.  If that fails it closes, and opens
the box once more naming that address as stale; there is no third time.  The box answers at an
address while it runs.  It may die at any time, and the next one may get the same address.
-/
import Fern.Actor.Group

namespace Fern

namespace Actor

variable {Addr : Type} [DecidableEq Addr]

/-- What came of the wake that a message asks for, and the address the driver gave. -/
def wakeOf (a : Actor Addr) (now : Nat) : Msg Addr → Option (Woken × Option Addr)
  | .exec _ stale ans => some ((a.wake now stale ans).2.2, ans.addr)
  | .wake ans => some (({ a with crashes := [] }.wake now none ans).2.2, ans.addr)
  | .prewake ans => if a.awake then none else some ((a.wake now none ans).2.2, ans.addr)
  | _ => none

/-- The crash times a message records. -/
def crashesOf (a : Actor Addr) (now : Nat) : Msg Addr → List Nat
  | .exec _ stale ans => a.wakeCrashes now stale ans
  | .wake ans => { a with crashes := [] }.wakeCrashes now none ans
  | .prewake ans => if a.awake then [] else a.wakeCrashes now none ans
  | _ => []

/-- The box after a wake for which the driver gave `addr`, if it answered at `box` before. -/
def boxAfterWake (r : Woken) (addr box : Option Addr) : Option Addr :=
  match r with
  | .woke => addr
  | .failed => none
  | _ => box

/-- The box after a message, if it answered at `box` before. -/
def boxAfter (a : Actor Addr) (now : Nat) (box : Option Addr) (m : Msg Addr) : Option Addr :=
  match a.wakeOf now m, m with
  | some (r, addr), _ => boxAfterWake r addr box
  | none, .stop true true _ => none
  | none, _ => box

end Actor

/-- A box, its actors and its commands. -/
structure Scene (Addr : Type) where
  g : Group Addr
  /-- The address at which the box answers, while it runs. -/
  box : Option Addr := none
  /-- The addresses commands were given and haven't dialled yet. -/
  held : List Addr := []
  /-- The addresses commands dialled in vain and haven't reported yet. -/
  late : List Addr := []
  /-- How often the box died. -/
  deaths : Nat := 0
  /-- How many wakes of the driver's failed. -/
  failed : Nat := 0
  /-- How many crash times were recorded. -/
  recorded : Nat := 0
  /-- A command has reported the address the actor knows. -/
  reported : Bool := false
  deriving DecidableEq, Repr

namespace Scene

variable {Addr : Type} [DecidableEq Addr]

inductive Event (Addr : Type) where
  /-- A command opens the box. -/
  | opens (wait : Nat) (kind : Actor.Kind) (ans : WakeAnswers Addr)
  /-- A command dials the address it was given. -/
  | dials (addr : Addr)
  /-- A command whose dial failed opens the box again. -/
  | reports (wait : Nat) (kind : Actor.Kind) (addr : Addr) (ans : WakeAnswers Addr)
  | dies
  /-- Any other message. -/
  | msg (wait : Nat) (m : Actor.Msg Addr)
  /-- The idle timer, and actors that end, are received and are started. -/
  | group (e : Group.Event Addr)
  deriving DecidableEq, Repr

/-- The actor takes a message. -/
def take (idle : Idle) (s : Scene Addr) (wait : Nat)
    (m : Actor.Msg Addr) : Option (Scene Addr) := do
  let a ← s.g.live
  let g ← s.g.step idle (.msg wait m)
  let now := s.g.now + wait
  pure
    { s with
      g := g
      box := a.boxAfter now s.box m
      failed := s.failed + if (a.wakeOf now m).map Prod.fst = some .failed then 1 else 0
      recorded := s.recorded + (a.crashesOf now m).length
      reported :=
        if (a.wakeOf now m).map Prod.fst = some .woke then false
        else s.reported || !(a.crashesOf now m).isEmpty }

/-- The address a command that was opened is given. -/
def given (idle : Idle) (s : Scene Addr) (wait : Nat) (m : Actor.Msg Addr) : Option Addr := do
  let a ← s.g.live
  match (a.handle idle (s.g.now + wait) m).2.2 with
  | .opened _ addr => addr
  | _ => none

def step (idle : Idle) (s : Scene Addr) : Event Addr → Option (Scene Addr)
  | .opens wait kind ans =>
    (s.take idle wait (.exec kind none ans)).map fun s' =>
      { s' with held := (s.given idle wait (.exec kind none ans)).toList ++ s.held }
  | .dials addr =>
    if addr ∈ s.held then
      if s.box = some addr then some { s with held := s.held.erase addr }
      else some { s with held := s.held.erase addr, late := addr :: s.late }
    else none
  | .reports wait kind addr ans =>
    if addr ∈ s.late then
      (s.take idle wait (.exec kind (some addr) ans)).map fun s' =>
        { s' with late := s.late.erase addr }
    else none
  | .dies => s.box.map fun _ => { s with box := none, deaths := s.deaths + 1 }
  | .msg wait m =>
    match m with
    | .exec .. => none
    | m => s.take idle wait m
  | .group e =>
    match e with
    | .msg .. => none
    | .idle wait ok took =>
      (s.g.step idle (.idle wait ok took)).map fun g =>
        { s with g := g, box := if ok then none else s.box }
    | e => (s.g.step idle e).map fun g => { s with g := g }

def run (idle : Idle) (s : Scene Addr) (events : List (Event Addr)) : Option (Scene Addr) :=
  events.foldlM (step idle) s

end Scene

end Fern

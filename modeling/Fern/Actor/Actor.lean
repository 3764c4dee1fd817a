/-
The actor that owns a box.

Its fields are touched by its own goroutine alone, so what it does is a function of its state,
the message it takes, the answers of the store and the driver, and the time.  A handler's own
code takes no time; calls of the driver take any.  Between two messages any time passes.

An idle timer is set before each message is waited for, to when the box may go to sleep.  What
the actor does when it fires is `sleepIfIdle`.
-/
import Mathlib.Algebra.Ring.Nat
import Mathlib.Data.List.Basic

namespace Fern

/-- `crashLimit`. -/
def crashLimit : Nat := 3

/-- `crashWindow`, in nanoseconds. -/
def crashWindow : Nat := 5 * 60 * 10 ^ 9

/-- `recent`: the times within `crashWindow` of `now`. -/
def recent (now : Nat) (ts : List Nat) : List Nat := ts.filter fun t => now < t + crashWindow

/-- `Idle`; a zero keeps boxes awake. -/
structure Idle where
  agent : Nat
  human : Nat
  prewake : Nat

/-- The fields of `actor`, with what it counts in `fern_prewakes_total`. -/
structure Actor (Addr : Type) where
  /-- The box's address while it is known to be up. -/
  addr : Option Addr := none
  /-- The box may be running. -/
  awake : Bool := false
  /-- The commands running in the box, by number. -/
  execs : List Nat := []
  /-- The background commands running in it. -/
  jobs : List Nat := []
  next : Nat := 0
  opened : Nat := 0
  closed : Nat := 0
  lease : Option Nat := none
  prewoken : Bool := false
  crashes : List Nat := []
  woken : Nat := 0
  used : Nat := 0
  wasted : Nat := 0
  deriving DecidableEq, Repr

/-- How the store and the driver answer a wake. -/
structure WakeAnswers (Addr : Type) where
  /-- The store knows the environment. -/
  found : Bool
  /-- The address the box got, or the driver's `Wake` failed. -/
  addr : Option Addr
  /-- How long the driver's `Wake` took. -/
  took : Nat
  deriving DecidableEq, Repr

/-- What came of a wake. -/
inductive Woken where
  | notFound
  /-- It is up already. -/
  | up
  /-- `ErrCrashing`. -/
  | crashing
  /-- The driver's `Wake` failed. -/
  | failed
  | woke
  deriving DecidableEq, Repr

/-- There is a box that may be used. -/
def Woken.ok : Woken → Bool
  | .up | .woke => true
  | _ => false

/-- The driver's `Wake` was called. -/
def Woken.called : Woken → Bool
  | .failed | .woke => true
  | _ => false

namespace Actor

variable {Addr : Type} [DecidableEq Addr]

/-- `run`'s first lines: an actor at time `now` with the crashes of those before it, of a box that
may be running already. -/
def start (now : Nat) (crashes : List Nat) (awake : Bool) : Actor Addr :=
  if awake then { awake := true, opened := now, closed := now, crashes := crashes }
  else { crashes := crashes }

/-- The crashes `wake` decides by: with an address that didn't answer, the box died. -/
def crashesAt (a : Actor Addr) (now : Nat) (stale : Option Addr) : List Nat :=
  recent now (if stale.isSome then a.crashes ++ [now] else a.crashes)

/-- `wake` before the driver is called: a box that was asleep may be running from now on. -/
def beginWake (a : Actor Addr) (now : Nat) (stale : Option Addr) : Actor Addr :=
  { a with
    addr := none
    crashes := a.crashesAt now stale
    awake := true
    opened := if a.awake then a.opened else now
    closed := if a.awake then a.closed else now }

/-- `wake`: what the actor is then, what time it is, and what came of it. -/
def wake (a : Actor Addr) (now : Nat) (stale : Option Addr) (ans : WakeAnswers Addr) :
    Actor Addr × Nat × Woken :=
  if !ans.found then (a, now, .notFound)
  else if a.addr.isSome ∧ a.addr ≠ stale then (a, now, .up)
  else if crashLimit ≤ (a.crashesAt now stale).length then
    ({ a with crashes := a.crashesAt now stale }, now, .crashing)
  else
    match ans.addr with
    | none =>
      ({ a.beginWake now stale with
        crashes := a.crashesAt now stale ++ [now + ans.took] }, now + ans.took, .failed)
    | some addr => ({ a.beginWake now stale with addr := some addr }, now + ans.took, .woke)

/-- `endLease("used")`. -/
def endLeaseUsed (a : Actor Addr) : Actor Addr :=
  { a with used := a.used + if a.prewoken then 1 else 0, lease := none, prewoken := false }

/-- `endLease("wasted")`. -/
def endLeaseWasted (a : Actor Addr) : Actor Addr :=
  { a with wasted := a.wasted + if a.prewoken then 1 else 0, lease := none, prewoken := false }

/-- `stopBox`, with whether the driver's `Sleep` succeeds. -/
def stopBox (a : Actor Addr) (ok : Bool) : Actor Addr :=
  if ok then { a.endLeaseWasted with addr := none, awake := false, execs := [], jobs := [] }
  else { a with addr := none }

/-- What kind of command is opened. -/
inductive Kind where
  | exec
  | job
  | preview
  deriving DecidableEq, Repr

/-- What the actor is asked to do, with the answers of the store and the driver. -/
inductive Msg (Addr : Type) where
  /-- `Exec`, `Job`, `Preview`; a preview has no stale address. -/
  | exec (kind : Kind) (stale : Option Addr) (ans : WakeAnswers Addr)
  | wake (ans : WakeAnswers Addr)
  | prewake (ans : WakeAnswers Addr)
  /-- `Sleep`, `Restore`, `Delete` and `stopAgent`: if what they check first holds (the
  environment is there, the snapshot is there, the forks are gone; the agent box is awake), they
  stop the box. -/
  | stop (checked ok : Bool) (took : Nat)
  | touch (found : Bool)
  /-- The end of command `n`, with how long after it the box is to sleep if it asked to. -/
  | endExec (n : Nat) (sleep : Option Nat)
  /-- A change that touches none of the actor's fields. -/
  | other
  deriving DecidableEq, Repr

/-- What a caller gets. -/
inductive Reply (Addr : Type) where
  | ok
  /-- A command was opened, with this number at this address. -/
  | opened (n : Nat) (addr : Option Addr)
  | notFound
  | crashing
  | failed
  deriving DecidableEq, Repr

/-- The error of a wake. -/
def wakeError : Woken → Reply Addr
  | .notFound => .notFound
  | .crashing => .crashing
  | _ => .failed

/-- Count a command: `exec` after its wake. -/
def openCommand (a : Actor Addr) (now : Nat) (kind : Kind) : Actor Addr :=
  let a := a.endLeaseUsed
  { a with
    next := a.next + 1
    execs := if kind = .job then a.execs else (a.next + 1) :: a.execs
    jobs := if kind = .job then (a.next + 1) :: a.jobs else a.jobs
    opened := now }

/-- `endExec`. -/
def endExec (a : Actor Addr) (now n : Nat) (sleep : Option Nat) : Actor Addr :=
  if n ∈ a.jobs then { a with jobs := a.jobs.filter (· ≠ n) }
  else if n ∈ a.execs then
    let execs := a.execs.filter (· ≠ n)
    { a with
      execs := execs
      closed := now
      lease := if execs = [] then (sleep.map (now + ·)).or a.lease else a.lease }
  else a

/-- `prewake`, for a box that isn't awake. -/
def prewake (idle : Idle) (a : Actor Addr) (now : Nat) (ans : WakeAnswers Addr) :
    Actor Addr × Nat × Reply Addr :=
  match { a with lease := some (now + idle.prewake) }.wake now none ans with
  | (a, now, r) =>
    if r.ok then
      ({ a with
        lease := some (now + idle.prewake)
        prewoken := true
        woken := a.woken + 1 }, now, .ok)
    else ({ a with lease := if a.awake then a.lease else none }, now, wakeError r)

/-- Handle a message at time `now`. -/
def handle (idle : Idle) (a : Actor Addr) (now : Nat) : Msg Addr → Actor Addr × Nat × Reply Addr
  | .exec kind stale ans =>
    match a.wake now stale ans with
    | (a, now, r) =>
      if r.ok then (a.openCommand now kind, now, .opened (a.next + 1) a.addr)
      else (a, now, wakeError r)
  | .wake ans =>
    match { a with crashes := [] }.wake now none ans with
    | (a, now, r) =>
      if r.ok then ({ a.endLeaseUsed with opened := now, closed := now }, now, .ok)
      else (a, now, wakeError r)
  | .prewake ans => if a.awake then (a, now, .ok) else a.prewake idle now ans
  | .stop checked ok took =>
    if checked then (a.stopBox ok, now + took, if ok then .ok else .failed)
    else (a, now, .failed)
  | .touch found =>
    if a.addr.isSome ∧ found then ({ a with opened := now }, now, .ok) else (a, now, .ok)
  | .endExec n sleep => (a.endExec now n sleep, now, .ok)
  | .other => (a, now, .ok)

/-- Whether the driver's `Wake` is called for a message. -/
def callsWake (a : Actor Addr) (now : Nat) : Msg Addr → Bool
  | .exec _ stale ans => (a.wake now stale ans).2.2.called
  | .wake ans => ({ a with crashes := [] }.wake now none ans).2.2.called
  | .prewake ans => !a.awake && (a.wake now none ans).2.2.called
  | _ => false

/-! ### Idle sleep -/

/-- `deadline`: when an awake box with nothing running but jobs may go to sleep. -/
def deadline (idle : Idle) (a : Actor Addr) : Nat :=
  match a.lease, a.jobs with
  | some t, [] => t
  | _, _ => max (a.closed + idle.agent) (a.opened + idle.human)

/-- `armIdle`: when the idle timer fires, if it is set. -/
def armIdle (idle : Idle) (a : Actor Addr) : Option Nat :=
  if !a.awake ∨ a.execs ≠ [] ∨ idle.agent = 0 ∨ idle.human = 0 then none
  else some (a.deadline idle)

/-- Whether `sleepIfIdle` stops the box. -/
def stopsIfIdle (idle : Idle) (a : Actor Addr) (now : Nat) : Bool :=
  a.awake && a.execs = [] && decide (a.deadline idle ≤ now)

/-- `sleepIfIdle`, with whether the driver's `Sleep` succeeds and how long it takes. -/
def sleepIfIdle (idle : Idle) (a : Actor Addr) (now : Nat) (ok : Bool) (took : Nat) :
    Actor Addr × Nat :=
  if a.stopsIfIdle idle now then
    if ok then (a.stopBox true, now + took)
    else ({ a.stopBox false with closed := now + took }, now + took)
  else (a, now)

/-! ### Runs -/

/-- An actor at a time. -/
structure At (Addr : Type) where
  now : Nat
  a : Actor Addr

/-- What happens next, after `wait`. -/
inductive Event (Addr : Type) where
  | msg (wait : Nat) (m : Msg Addr)
  /-- The idle timer fires. -/
  | idle (wait : Nat) (ok : Bool) (took : Nat)
  deriving DecidableEq, Repr

/-- What the actor is after an event.  The timer was set before the wait. -/
def step (idle : Idle) (s : At Addr) : Event Addr → Option (At Addr)
  | .msg wait m =>
    match s.a.handle idle (s.now + wait) m with
    | (a, now, _) => some ⟨now, a⟩
  | .idle wait ok took =>
    if (s.a.armIdle idle).any (· ≤ s.now + wait) then
      match s.a.sleepIfIdle idle (s.now + wait) ok took with
      | (a, now) => some ⟨now, a⟩
    else none

/-- What the actor is after events. -/
def run (idle : Idle) (s : At Addr) (events : List (Event Addr)) : Option (At Addr) :=
  events.foldlM (step idle) s

end Actor

end Fern

/-
A service kept running.

`supervisor.run` starts a service again whenever it exits, after a pause that doubles as long as it
keeps exiting.  `stop` closes `quit`, and what is due by then may still win against it.  Times are
nanoseconds.
-/
import Mathlib.Logic.Relation
import Fern.Store.Names

namespace Fern

namespace Init

def minBackoff : Nat := second

def maxBackoff : Nat := 30 * second

def stableRun : Nat := 60 * second

/-- Where `run`'s loop is. -/
inductive Phase where
  /-- In `runService`. -/
  | runs (started : Nat)
  /-- In the select with `time.After`. -/
  | pauses (due : Nat)
  | returned

/-- `supervisor`, with the time. -/
structure Supervisor where
  now : Nat
  phase : Phase
  backoff : Nat := minBackoff
  /-- How often the service was started. -/
  starts : Nat := 1
  /-- `quit` is closed. -/
  quit : Bool := false
  /-- How often the service was started since. -/
  late : Nat := 0

namespace Supervisor

/-- The pause after an exit. -/
def pause (s : Supervisor) (started : Nat) : Nat :=
  if stableRun < s.now - started then minBackoff else s.backoff

inductive Step (s : Supervisor) : Supervisor → Prop
  | passes (d : Nat) : Step s { s with now := s.now + d }
  | exits {started : Nat} (h : s.phase = .runs started) (hq : s.quit = false) :
      Step s { s with
        backoff := s.pause started, phase := .pauses (s.now + s.pause started) }
  | restarts {due : Nat} (h : s.phase = .pauses due) (hd : due ≤ s.now) :
      Step s { s with
        phase := .runs s.now, backoff := min (2 * s.backoff) maxBackoff, starts := s.starts + 1,
        late := s.late + s.quit.toNat }
  | quits (h : s.quit = false) : Step s { s with quit := true }
  /-- The service has exited, or the loop pauses. -/
  | ends (hq : s.quit = true) : Step s { s with phase := .returned }

/-- The states after `startService` at a time. -/
def Reached (t : Nat) (s : Supervisor) : Prop :=
  Relation.ReflTransGen Step { now := t, phase := .runs t } s

end Supervisor

end Init

end Fern

/-
Who waits for whom among actors.

A change is made by its environment's actor, one at a time.  Some changes call other actors and wait
for them: a delete its forks' and its agent box's, a fork the new ones', a restore and a sleep the
agent box's.  A change that stops the box first ends the goroutine that watches the agent box's
writes, and waits for its end; that goroutine passes what it sees to its own actor, as a touch, and
waits for it.  All else an actor does (the store's work, the driver's) waits for no actor.
-/
import Mathlib.Logic.Function.Basic
import Mathlib.Logic.Relation
import Fern.Setup.Names

namespace Fern

namespace Waits

/-- `agentSuffix`. -/
def agentSuffix : List Char := ['.', 'a', 'g', 'e', 'n', 't']

/-- `AgentBox`. -/
def agentBox (id : String) : String := String.ofList (id.toList ++ agentSuffix)

/-- `IsAgentBox`. -/
def isAgentBox (box : String) : Bool := agentSuffix.isSuffixOf box.toList

/-- The changes, by the name `do` is given. -/
inductive Change where
  | create
  | delete
  | fork
  | snapshot
  | deleteSnapshot
  | restore
  | sleep
  | stopAgent
  | wake
  /-- `exec`, `job` and `preview`. -/
  | exec
  | endExec
  | prewake
  | goldenPrebuild
  | goldenBuild
  | touch
  deriving DecidableEq, Repr

/-- What there is to do in a change that can make an actor wait, or start the watch. -/
inductive Todo where
  /-- `a.stopWatch`, with which `stopBox` and `run`'s end begin. -/
  | stopWatch
  /-- `a.wake`. -/
  | wake
  /-- `do` of another change. -/
  | call (box : String) (change : Change)
  deriving DecidableEq, Repr

/-- What `box`'s actor has to do for a change; `forks` are the forks that a delete has listed, or
that a fork makes. -/
def program (box : String) (forks : List Nat) : Change → List Todo
  | .delete => forks.map (fun n => .call (forkID box n) .delete) ++
      [.stopWatch, .call (agentBox box) .stopAgent]
  | .fork => forks.map fun n => .call (forkID box n) .create
  | .restore => [.stopWatch, .call (agentBox box) .stopAgent]
  | .sleep => .stopWatch :: if isAgentBox box then [] else [.call (agentBox box) .stopAgent]
  | .stopAgent => [.stopWatch]
  | .wake | .exec | .prewake => [.wake]
  | .goldenBuild => [.stopWatch, .wake, .stopWatch]
  | .create | .snapshot | .deleteSnapshot | .endExec | .goldenPrebuild | .touch => []

/-- Who waits for a change's end: another actor, the box's watch, or anyone else. -/
inductive Caller where
  | actor (box : String)
  | watch
  | other
  deriving DecidableEq, Repr

/-- Where an actor is. -/
inductive Stage where
  /-- At work, with this still to do. -/
  | work (todo : List Todo)
  /-- In `do`: the callee has taken the message, or not yet. -/
  | calling (callee : String) (change : Change) (taken : Bool) (todo : List Todo)
  /-- In `stopWatch`: the watch is cancelled, and may not have ended. -/
  | joining (todo : List Todo)
  deriving DecidableEq, Repr

structure Doing where
  caller : Caller
  stage : Stage
  deriving DecidableEq, Repr

/-- Where a watch's goroutine is. -/
inductive Watching where
  | watching
  /-- In `touch`'s `do`, before the actor takes it. -/
  | sending
  | sent
  /-- It sends the paths to the box. -/
  | touching
  | ended
  deriving DecidableEq, Repr

structure Watch where
  cancelled : Bool
  pc : Watching
  deriving DecidableEq, Repr

end Waits

open Waits

/-- What each box's actor does, if anything, and the watch its `stopWatch` would stop. -/
structure Actors where
  doing : String → Option Doing := fun _ => none
  watch : String → Option Watch := fun _ => none

namespace Actors

def setDoing (s : Actors) (a : String) (d : Option Doing) : Actors :=
  { s with doing := Function.update s.doing a d }

def setWatch (s : Actors) (a : String) (w : Option Watch) : Actors :=
  { s with watch := Function.update s.watch a w }

/-- Who called `a`'s actor hears of the change's end: a calling actor goes on, or gives up for an
error. -/
def answer (s : Actors) (a : String) (ok : Bool) : Caller → Actors
  | .other => s
  | .watch =>
    match s.watch a with
    | some w => s.setWatch a (some { w with pc := .touching })
    | none => s
  | .actor p =>
    match s.doing p with
    | some ⟨caller, .calling _ _ _ todo⟩ =>
      s.setDoing p (some ⟨caller, .work (if ok then todo else [])⟩)
    | _ => s

/-- A step of `a`'s actor, or of the one that takes its message. -/
inductive ActorStep (a : String) : Actors → Actors → Prop where
  /-- It takes a message from anyone but actors and watches. -/
  | takes {s : Actors} (c : Change) (forks : List Nat) : s.doing a = none →
      ActorStep a s (s.setDoing a (some ⟨.other, .work (program a forks c)⟩))
  /-- The idle timer fires and the box is stopped, or `run` ends. -/
  | stops {s : Actors} : s.doing a = none →
      ActorStep a s (s.setDoing a (some ⟨.other, .work [.stopWatch]⟩))
  | takesTouch {s : Actors} {w : Watch} : s.doing a = none → s.watch a = some w →
      w.pc = .sending →
      ActorStep a s ((s.setDoing a (some ⟨.watch, .work (program a [] .touch)⟩)).setWatch a
        (some { w with pc := .sent }))
  | calls {s : Actors} {caller callee change todo} :
      s.doing a = some ⟨caller, .work (.call callee change :: todo)⟩ →
      ActorStep a s (s.setDoing a (some ⟨caller, .calling callee change false todo⟩))
  /-- The callee takes `a`'s message. -/
  | taken {s : Actors} {caller callee change todo} (forks : List Nat) :
      s.doing a = some ⟨caller, .calling callee change false todo⟩ → s.doing callee = none →
      ActorStep a s ((s.setDoing a (some ⟨caller, .calling callee change true todo⟩)).setDoing
        callee (some ⟨.actor a, .work (program callee forks change)⟩))
  /-- The group has stopped, or the change's time is over. -/
  | givesUp {s : Actors} {caller callee change todo} :
      s.doing a = some ⟨caller, .calling callee change false todo⟩ →
      ActorStep a s (s.setDoing a (some ⟨caller, .work []⟩))
  /-- An error, or a check that ends the change. -/
  | fails {s : Actors} {caller todo} : s.doing a = some ⟨caller, .work todo⟩ →
      ActorStep a s (s.setDoing a (some ⟨caller, .work []⟩))
  /-- A wake that starts the watch: an environment's own box has one. -/
  | wakesWatched {s : Actors} {caller todo} : s.doing a = some ⟨caller, .work (.wake :: todo)⟩ →
      isAgentBox a = false → isBuilder a = false → s.watch a = none →
      ActorStep a s ((s.setDoing a (some ⟨caller, .work todo⟩)).setWatch a
        (some ⟨false, .watching⟩))
  | wakes {s : Actors} {caller todo} : s.doing a = some ⟨caller, .work (.wake :: todo)⟩ →
      ActorStep a s (s.setDoing a (some ⟨caller, .work todo⟩))
  | unwatched {s : Actors} {caller todo} : s.doing a = some ⟨caller, .work (.stopWatch :: todo)⟩ →
      s.watch a = none → ActorStep a s (s.setDoing a (some ⟨caller, .work todo⟩))
  /-- `stopWatch` cancels the watch, and waits for its end. -/
  | cancels {s : Actors} {caller todo w} : s.doing a = some ⟨caller, .work (.stopWatch :: todo)⟩ →
      s.watch a = some w →
      ActorStep a s ((s.setDoing a (some ⟨caller, .joining todo⟩)).setWatch a
        (some { w with cancelled := true }))
  | joined {s : Actors} {caller todo c} : s.doing a = some ⟨caller, .joining todo⟩ →
      s.watch a = some ⟨c, .ended⟩ →
      ActorStep a s ((s.setDoing a (some ⟨caller, .work todo⟩)).setWatch a none)
  /-- The change is made, and who called hears of it. -/
  | ends {s : Actors} {caller} (ok : Bool) : s.doing a = some ⟨caller, .work []⟩ →
      ActorStep a s ((s.setDoing a none).answer a ok caller)

/-- A step of `a`'s watch. -/
inductive WatchStep (a : String) : Actors → Actors → Prop where
  /-- The agent box has written files. -/
  | sees {s : Actors} {c} : s.watch a = some ⟨c, .watching⟩ →
      WatchStep a s (s.setWatch a (some ⟨c, .sending⟩))
  /-- Reading the changes fails, which cancels the watch from inside. -/
  | breaks {s : Actors} {c pc} : s.watch a = some ⟨c, pc⟩ →
      WatchStep a s (s.setWatch a (some ⟨true, pc⟩))
  /-- `do` sees that the context is done. -/
  | drops {s : Actors} : s.watch a = some ⟨true, .sending⟩ →
      WatchStep a s (s.setWatch a (some ⟨true, .watching⟩))
  /-- The request to the box has ended, or its context is done. -/
  | touched {s : Actors} {c} : s.watch a = some ⟨c, .touching⟩ →
      WatchStep a s (s.setWatch a (some ⟨c, .watching⟩))
  /-- `Watcher.Watch` returns. -/
  | quits {s : Actors} {c} : s.watch a = some ⟨c, .watching⟩ →
      WatchStep a s (s.setWatch a (some ⟨c, .ended⟩))

inductive Reach : Actors → Prop where
  | start : Reach {}
  | actor {s s' : Actors} (a : String) : Reach s → ActorStep a s s' → Reach s'
  | watch {s s' : Actors} (a : String) : Reach s → WatchStep a s s' → Reach s'

/-- A goroutine that others can wait for. -/
inductive Party where
  | actor (box : String)
  | watch (box : String)
  deriving DecidableEq

/-- One waits for the other: for its mailbox, its answer or its end. -/
inductive WaitsFor (s : Actors) : Party → Party → Prop where
  | calls {a caller callee change taken todo} :
      s.doing a = some ⟨caller, .calling callee change taken todo⟩ →
      WaitsFor s (.actor a) (.actor callee)
  | joins {a caller todo w} : s.doing a = some ⟨caller, .joining todo⟩ → s.watch a = some w →
      w.pc ≠ .ended → WaitsFor s (.actor a) (.watch a)
  /-- A watch whose context is done doesn't wait. -/
  | sends {a} : s.watch a = some ⟨false, .sending⟩ → WaitsFor s (.watch a) (.actor a)
  | sent {a c} : s.watch a = some ⟨c, .sent⟩ → WaitsFor s (.watch a) (.actor a)

end Actors

end Fern

/-
Forks, and their deletion with their source.

A fork's source and number are in its ID.  The source's actor numbers new forks by the environments
it lists, and makes each on the fork's own actor; it deletes its forks the same way before itself.
So a change here is a task of one environment's actor, which goes on in steps while other actors are
at theirs.  An environment that isn't a fork may also be made or removed by others, as golden
sources are; a fork only by its source's `Fork` and by `Delete`.
-/
import Mathlib.Logic.Function.Basic
import Fern.Setup.Names

namespace Fern

/-- `MaxForks`. -/
def maxForks : Nat := 8

/-- `forks`: the numbers of an environment's forks. -/
def forksOf (envs : List EnvID) (id : EnvID) : List Nat :=
  envs.filterMap fun e => (forkOf e).bind fun parent =>
    if parent.1 = id then some parent.2 else none

/-- `ownFork`, whose error quotes the ID as Go's `%q` does. -/
def ownFork (quote : String → String) (id env : EnvID) : Except String Unit :=
  if (forkOf env).any fun parent => parent.1 = id then .ok ()
  else .error (quote env ++ " isn't a fork of this thread: env_fork gives their IDs")

namespace Forks

/-- How a `Delete` is going: on its own, waiting for a fork's, or to its error. -/
inductive Going where
  | onItsOwn
  | waiting
  | failed
  deriving DecidableEq

/-- What an environment's actor is at. -/
inductive Task where
  /-- `Fork`, with the environments it listed, the number it has come to and those it made. -/
  | fork (count : Nat) (before : List EnvID) (next : Nat) (made : List Nat)
  /-- `Delete`, with the forks still to delete; `nested` in that of its source. -/
  | delete (todo : List Nat) (going : Going) (nested : Bool)
  deriving DecidableEq

/-- What a `Fork` returned, with the environments it listed. -/
structure Returned where
  id : EnvID
  count : Nat
  before : List EnvID
  ids : List EnvID
  deriving DecidableEq

inductive Event where
  /-- An environment that isn't a fork is made. -/
  | create (id : EnvID)
  /-- An environment that isn't a fork is removed without its forks. -/
  | drop (id : EnvID)
  /-- The actor of `id` takes a `Fork`. -/
  | fork (id : EnvID) (count : Nat)
  /-- The number it has come to is taken. -/
  | skip (id : EnvID)
  /-- The `Create` of the fork it has come to; if it fails, the fork may be there (`left`). -/
  | make (id : EnvID) (ok left : Bool)
  /-- The `Fork` of `id` returns. -/
  | forked (id : EnvID)
  /-- The actor of `id` takes a caller's `Delete`. -/
  | delete (id : EnvID)
  /-- The `Delete` of `id` calls that of its next fork. -/
  | ask (id : EnvID)
  /-- The actor of `id` takes the `Delete` its source's calls. -/
  | deleteFork (id : EnvID)
  /-- The `Delete` of `id` gives up before its fork's actor has taken the call. -/
  | giveUp (id : EnvID)
  /-- The `Delete` of `id` returns; if it fails, the environment may be gone. -/
  | deleted (id : EnvID) (ok gone : Bool)
  /-- The daemon starts again. -/
  | restart
  deriving DecidableEq

end Forks

open Forks

/-- The environments, and what their actors are at. -/
structure Forks where
  envs : List EnvID := []
  task : EnvID → Option Task := fun _ => none
  returned : List Returned := []

namespace Forks

def setTask (s : Forks) (id : EnvID) (t : Option Task) : Forks :=
  { s with task := Function.update s.task id t }

def addEnv (s : Forks) (id : EnvID) : Forks :=
  { s with envs := if id ∈ s.envs then s.envs else id :: s.envs }

def removeEnv (s : Forks) (id : EnvID) : Forks := { s with envs := s.envs.filter (· ≠ id) }

/-- The source's `Delete` waits for that of `id`. -/
def awaited (s : Forks) (id : EnvID) : Option (EnvID × List Nat × Bool) :=
  match forkOf id with
  | none => none
  | some (source, n) =>
    match s.task source with
    | some (.delete (m :: todo) .waiting nested) =>
      if m = n then some (source, todo, nested) else none
    | _ => none

/-- The `Delete` of `id` gives its source's an answer: that it is gone, or an error. -/
def answer (s : Forks) (id : EnvID) (ok : Bool) : Forks :=
  match s.awaited id with
  | none => s
  | some (source, todo, nested) =>
    s.setTask source (some (.delete todo (if ok then .onItsOwn else .failed) nested))

/-- The environment exists and its actor is free. -/
def ready (s : Forks) (id : EnvID) : Bool := checkEnvID id && s.task id = none && id ∈ s.envs

def step (s : Forks) : Event → Option Forks
  | .create id => if forkOf id = none then some (s.addEnv id) else none
  | .drop id => if forkOf id = none then some (s.removeEnv id) else none
  | .fork id count =>
    if s.ready id ∧ 1 ≤ count ∧ count ≤ maxForks ∧
        (forksOf s.envs id).length + count ≤ maxForks then
      some (s.setTask id (some (.fork count s.envs 1 [])))
    else none
  | .skip id =>
    match s.task id with
    | some (.fork count before next made) =>
      if made.length < count ∧ next ∈ forksOf before id then
        some (s.setTask id (some (.fork count before (next + 1) made)))
      else none
    | _ => none
  | .make id ok left =>
    match s.task id with
    | some (.fork count before next made) =>
      if made.length < count ∧ next ∉ forksOf before id ∧ s.task (forkID id next) = none then
        if ok then
          some ((s.addEnv (forkID id next)).setTask id
            (some (.fork count before (next + 1) (made ++ [next]))))
        else some ((if left then s.addEnv (forkID id next) else s).setTask id none)
      else none
    | _ => none
  | .forked id =>
    match s.task id with
    | some (.fork count before _ made) =>
      if made.length < count then none
      else
        some { s.setTask id none with
          returned := ⟨id, count, before, made.map (forkID id)⟩ :: s.returned }
    | _ => none
  | .delete id =>
    if s.ready id then some (s.setTask id (some (.delete (forksOf s.envs id) .onItsOwn false)))
    else none
  | .ask id =>
    match s.task id with
    | some (.delete (n :: todo) .onItsOwn nested) =>
      some (s.setTask id (some (.delete (n :: todo) .waiting nested)))
    | _ => none
  | .deleteFork id =>
    if (s.awaited id).isSome ∧ s.task id = none then
      if id ∈ s.envs then some (s.setTask id (some (.delete (forksOf s.envs id) .onItsOwn true)))
      else some (s.answer id true)
    else none
  | .giveUp id =>
    match s.task id with
    | some (.delete (n :: todo) .waiting nested) =>
      match s.task (forkID id n) with
      | some (.delete _ _ true) => none
      | _ => some (s.setTask id (some (.delete (n :: todo) .failed nested)))
    | _ => none
  | .deleted id ok gone =>
    match s.task id with
    | some (.delete [] .onItsOwn nested) =>
      let s := if ok || gone then s.removeEnv id else s
      some (if nested then (s.setTask id none).answer id ok else s.setTask id none)
    | some (.delete _ .failed nested) =>
      if ok || gone then none
      else some (if nested then (s.setTask id none).answer id false else s.setTask id none)
    | _ => none
  | .restart => some { s with task := fun _ => none }

inductive Reach : Forks → Prop where
  | start : Reach {}
  | step {s t : Forks} (e : Event) : Reach s → s.step e = some t → Reach t

end Forks

end Fern

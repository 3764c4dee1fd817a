/-
The golden builder and the environments it takes for its own.

A daemon that starts queues the builds whose sources its predecessor left, deletes the sources of
prebuilds that stopped before their snapshot, and then makes one build after another.  A queue that
is full drops a build, and a prebuild's source with it.  All the while callers create, fork and
delete environments, under any ID the store takes.
-/
import Mathlib.Logic.Function.Basic
import Fern.Setup.Names

namespace Fern

namespace Goldens

/-- Who made an environment: a caller, with `Create` or `Fork`, or Fern for a golden. -/
inductive Maker where
  | caller
  | fern
  deriving DecidableEq, Repr

/-- Where `buildGoldens` is. -/
inductive Phase where
  | starting
  /-- It queues the sources found, of which `todo` are left. -/
  | queueing (srcs todo : List EnvID)
  /-- In `clearSources`, with the environments still to delete. -/
  | clearing (todo : List EnvID)
  /-- It waits for a build. -/
  | idle
  | building (src : EnvID)
  /-- The build of a prebuild's source is over, and its environment goes. -/
  | deleting (src : EnvID)
  deriving DecidableEq, Repr

/-- `buildQueue`. -/
def buildQueue : Nat := 16

end Goldens

open Goldens

/-- The environments, and the golden builder. -/
structure Goldens where
  /-- The environments in the index, by who made them. -/
  made : EnvID → Option Maker
  /-- The environments that have a snapshot `golden-source`. -/
  source : EnvID → Bool
  queue : List EnvID := []
  phase : Goldens.Phase := .starting

namespace Goldens

/-- An environment is gone. -/
def erase (s : Goldens) (id : EnvID) : Goldens := { s with made := Function.update s.made id none }

/-- `g.store.DeleteSnapshot` of a source. -/
def unsource (s : Goldens) (id : EnvID) : Goldens :=
  { s with source := Function.update s.source id false }

/-- `Create` of an environment for a golden; one that exists is as it is. -/
def provide (s : Goldens) (id : EnvID) : Goldens :=
  { s with made := Function.update s.made id (some ((s.made id).getD .fern)) }

/-- `queueBuild`: a build that finds no room is dropped, and a prebuild's source with it; deleting
the snapshot or the environment may fail. -/
def queueBuild (s : Goldens) (src : EnvID) (unsourced deleted : Bool) : Goldens :=
  if s.queue.length < buildQueue then { s with queue := s.queue ++ [src] }
  else if !unsourced then s
  else if (builderOf src).isSome && deleted then (s.unsource src).erase src
  else s.unsource src

/-- `id` is `root`, or a fork of it, or of a fork of it. -/
inductive Under (root : EnvID) : EnvID → Prop where
  | self : Under root root
  | fork {id p : EnvID} {n : Nat} : forkOf id = some (p, n) → Under root p → Under root id

/-- `Group.Delete` of `root` comes to `id`: it deletes an environment's forks, and then itself, so
that all between the two are still there. -/
def Deletes (s : Goldens) (root id : EnvID) : Prop :=
  Under root id ∧ ∀ e, Under root e → Under e id → s.made e ≠ none

/-- What the golden builder does, and the calls of `queueBuild`.  A `Group.Delete` may stop before
its end. -/
inductive Golden : Goldens → Goldens → Prop where
  /-- It looks for the sources the last daemon left, or fails to. -/
  | finds {s : Goldens} (srcs : List EnvID) : s.phase = .starting →
      (srcs = [] ∨ ∀ id, id ∈ srcs ↔ s.source id = true) →
      Golden s { s with phase := .queueing srcs srcs }
  | queues {s : Goldens} {srcs todo src} (unsourced deleted : Bool) :
      s.phase = .queueing srcs (src :: todo) →
      Golden s { s.queueBuild src unsourced deleted with phase := .queueing srcs todo }
  /-- It lists the environments, or fails to. -/
  | lists {s : Goldens} {srcs} (todo : List EnvID) : s.phase = .queueing srcs [] →
      (todo = [] ∨ ∀ id, id ∈ todo ↔ s.made id ≠ none ∧ (builderOf id).isSome ∧ id ∉ srcs) →
      Golden s { s with phase := .clearing todo }
  | clears {s : Goldens} {root todo id} : s.phase = .clearing (root :: todo) → s.Deletes root id →
      Golden s (s.erase id)
  | cleared {s : Goldens} {root todo} : s.phase = .clearing (root :: todo) →
      Golden s { s with phase := .clearing todo }
  | waits {s : Goldens} : s.phase = .clearing [] → Golden s { s with phase := .idle }
  | takes {s : Goldens} {src queue} : s.phase = .idle → s.queue = src :: queue →
      Golden s { s with phase := .building src, queue }
  /-- The build makes its builder's environment. -/
  | provides {s : Goldens} {src} (builder : EnvID) : s.phase = .building src →
      Golden s (s.provide builder)
  /-- The build is over, well or not; its source's snapshot goes, or not. -/
  | built {s : Goldens} {src} (unsourced : Bool) : s.phase = .building src →
      Golden s { (if unsourced then s.unsource src else s) with
        phase := if (builderOf src).isSome then .deleting src else .idle }
  | deletes {s : Goldens} {src id} : s.phase = .deleting src → s.Deletes src id →
      Golden s (s.erase id)
  | deleted {s : Goldens} {src} : s.phase = .deleting src → Golden s { s with phase := .idle }
  /-- A create or a prebuild queues a build. -/
  | asks {s : Goldens} (src : EnvID) (unsourced deleted : Bool) :
      Golden s (s.queueBuild src unsourced deleted)

/-- What callers do. -/
inductive Others : Goldens → Goldens → Prop where
  | creates {s : Goldens} {id} : checkEnvID id = true → s.made id = none →
      Others s { s with made := Function.update s.made id (some .caller) }
  | forks {s : Goldens} {id n} : s.made id ≠ none → checkEnvID (forkID id n) = true →
      s.made (forkID id n) = none →
      Others s { s with made := Function.update s.made (forkID id n) (some .caller) }
  /-- A prebuild makes its source afresh. -/
  | prebuilds {s : Goldens} (lower sum : List Char → List Char) (repo : List Char) :
      Others s { s with made := Function.update s.made (sourceID lower sum repo) (some .fern) }
  | deletes {s : Goldens} (id : EnvID) : Others s (s.erase id)
  /-- Snapshots are taken and deleted. -/
  | snapshots {s : Goldens} (source : EnvID → Bool) : Others s { s with source }

/-- A daemon starts with the environments that are there. -/
structure Start (s : Goldens) : Prop where
  valid : ∀ id, s.made id ≠ none → checkEnvID id = true
  queue : s.queue = []
  phase : s.phase = .starting

inductive Reach : Goldens → Prop where
  | start {s : Goldens} : s.Start → Reach s
  | golden {s s' : Goldens} : Reach s → Golden s s' → Reach s'
  | others {s s' : Goldens} : Reach s → Others s s' → Reach s'

/-- An ID that the golden builder takes for a prebuild's source, or for a fork of one. -/
def TakenForSource (id : EnvID) : Prop := ∃ root, (builderOf root).isSome ∧ Under root id

end Goldens

end Fern

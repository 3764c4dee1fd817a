/-
Retention: how many snapshots of an environment are kept.

Every turn of a thread takes a snapshot, and each taking prunes.  `Prune` finds the oldest ones in
the index: by the second the clock showed when the row was made, by the order of the rows within a
second, and without those whose name says that a restore made them.

What was really taken, when and by whom is read off the operations on the disk, in a log beside the
pool: what is there, and every taking and every deletion by a caller there has been.  What should be
there follows from the latter alone.  Time itself is a number for each reading of the clock, which
the clock may show or not.
-/
import Mathlib.Data.List.DropRight
import Mathlib.Logic.Relation
import Fern.Lib.Ghost
import Fern.Store.Calls

namespace Fern

open Call StoreM

variable {T : Type}

/-- `keepTurns`. -/
def keepTurns : Nat := 50

/-- `SnapshotsBeyond`: the snapshots not `LIKE` a restore's, newest first, after the newest `keep`.
-/
def Index.snapshotsBeyond (x : Index) (env : EnvID) (keep : Nat) : List SnapID :=
  (((x.snaps.filter fun r => r.env = env && !isPreRestore r.id).reverse.insertionSort
    fun a b => b.created ≤ a.created).drop keep).map SnapRow.id

section Calls

variable [Tree T]

/-- `Prune`. -/
def Prune (id : EnvID) : StoreM T Unit := do
  prunePreRestores id ""
  let old := (← read).index.snapshotsBeyond id keepTurns
  each (DeleteSnapshot id) old

/-- `Group.Snapshot`: that an old snapshot is left over is no error. -/
def takeSnapshot (id : EnvID) (snap : SnapID) (replace : Bool) : StoreM T Unit := do
  (if replace then DeleteSnapshot id snap else pure ())
  Snapshot id snap
  let _ ← attempt (Prune id)
  pure ()

end Calls

/-! ### Turns -/

/-- What callers do to an environment's snapshots. -/
inductive Turn where
  | snapshot (snap : SnapID) (replace : Bool)
  | delete (snap : SnapID)
  | restore (snap : SnapID)
  | prune
  deriving DecidableEq

/-- What a turn runs. -/
def Turn.call [Tree T] (id : EnvID) : Turn → StoreM T Unit
  | snapshot snap replace => takeSnapshot id snap replace
  | delete snap => DeleteSnapshot id snap
  | restore snap => Restore id snap
  | prune => Prune id

/-- Whether a snapshot that the turn takes is a restore's. -/
def Turn.byRestore : Turn → Bool
  | restore _ => true
  | _ => false

/-- What a caller has deleted by the turn. -/
def Turn.deletes : Turn → Option SnapID
  | delete snap => some snap
  | snapshot snap true => some snap
  | _ => none

/-- A snapshot that was taken: its name, whether a restore made it, and the reading of the clock
that followed it. -/
structure Taken where
  id : SnapID
  byRestore : Bool
  tick : Nat
  deriving DecidableEq

namespace Retention

/-- What happens to the snapshots of an environment, prunes aside. -/
inductive Event where
  | took (e : Taken)
  /-- A caller has one deleted. -/
  | deleted (x : SnapID)
  deriving DecidableEq

/-- The snapshots of an environment that are there, in the order in which they were taken, and all
that has happened to them. -/
structure Log where
  there : List Taken := []
  events : List Event := []

def Log.take (log : Log) (e : Taken) : Log := ⟨log.there ++ [e], log.events ++ [.took e]⟩

/-- The snapshot is gone; why, its subvolume doesn't tell. -/
def Log.lose (log : Log) (x : SnapID) : Log :=
    { log with there := log.there.filter fun e => e.id ≠ x }

/-- A caller is about to have a snapshot deleted. -/
def Log.ask (log : Log) (x : Option SnapID) : Log :=
  { log with events := log.events ++ x.toList.map .deleted }

/-- What an operation does to the snapshots of `id`. -/
def logOp (id : EnvID) (byRestore : Bool) (log : Log) (p : Op T × Pool T) : Log :=
  match p.1 with
  | .snapshotSubvolume _ (.snap env x) =>
    if env = id then log.take ⟨x, byRestore, p.2.ticks⟩ else log
  | .deleteSubvolume (.snap env x) => if env = id then log.lose x else log
  | .deleteNested (.snap env x) => if env = id then log.lose x else log
  | _ => log

/-! ### What should be kept -/

/-- Of the snapshots callers took: each new one leaves the newest `keepTurns` of them, and one that
a caller deletes goes. -/
def retain (kept : List Taken) : Event → List Taken
  | .took e => if e.byRestore then kept else (kept ++ [e]).rtake keepTurns
  | .deleted x => kept.filter fun e => e.id ≠ x

def retained (events : List Event) : List Taken := events.foldl retain []

/-- Of the restores' copies: all that callers haven't deleted. -/
def addCopy (copies : List Taken) : Event → List Taken
  | .took e => if e.byRestore then copies ++ [e] else copies
  | .deleted x => copies.filter fun e => e.id ≠ x

def copiesIn (events : List Event) : List Taken := events.foldl addCopy []

/-! ### Histories -/

/-- A pool, and what has happened to the snapshots of one environment. -/
structure Logged (T : Type) where
  pool : Pool T
  log : Log

/-- What else happens to the pool leaves the environment's snapshots alone. -/
structure Elsewhere (id : EnvID) (s t : Pool T) : Prop where
  rows : (t.index.snaps.filter fun r => r.env = id) = s.index.snaps.filter fun r => r.env = id
  node : ∀ x, t.node (.snap id x) = s.node (.snap id x)
  workspace : ∀ row, t.env? id = some row → row.workspace.IsWorkspace id
  clock : t.clock = s.clock
  ticks : s.ticks ≤ t.ticks

/-- The environment has no snapshots yet. -/
structure Begun (id : EnvID) (s : Pool T) : Prop where
  valid : checkEnvID id = true
  rows : (s.index.snaps.filter fun r => r.env = id) = []
  node : ∀ x, s.node (.snap id x) = none
  workspace : ∀ row, s.env? id = some row → row.workspace.IsWorkspace id

variable [Tree T]

/-- After a turn. -/
def Logged.after (n : Logged T) (id : EnvID) (turn : Turn) : Logged T where
  pool := (turn.call id n.pool).final
  log := note (logOp id turn.byRestore) (turn.call id) n.pool (n.log.ask turn.deletes)

/-- One step of a history whose turns all meet `ok`. -/
inductive Step (id : EnvID) (ok : Logged T → Turn → Prop) : Logged T → Logged T → Prop
  | turn (n : Logged T) (turn : Turn) (h : ok n turn) : Step id ok n (n.after id turn)
  | elsewhere {n : Logged T} {t : Pool T} (h : Elsewhere id n.pool t) : Step id ok n ⟨t, n.log⟩

/-- What some history leads to. -/
def Reached (id : EnvID) (ok : Logged T → Turn → Prop) (n : Logged T) : Prop :=
  ∃ s, Begun id s ∧ Relation.ReflTransGen (Step id ok) ⟨s, {}⟩ n

end Retention

end Fern

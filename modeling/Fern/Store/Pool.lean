/-
The pool and the operations on it.

A call of the store changes the pool one operation at a time: a btrfs ioctl, a rename
exchange, an SQLite statement, a directory or file made or removed.  Each is atomic, so
`Op` lists them and `Op.run` says what each does and when it fails.  What is between two
of them can be stopped at; the steps the source names for its crash tests are some of
these places.

The pool also holds what the calls read and others decide: whether it is almost full,
which git folder `repoGitDir` finds at a path, and the readings the clock will give.
-/
import Fern.Lib.Call
import Fern.Store.Index

namespace Fern

variable {T : Type}

/-- Whose a workspace is: root's, or the box user's. -/
inductive Owner where
  | root
  | box
  deriving DecidableEq

/-- A pool. -/
structure Pool (T : Type) where
  disk : FinMap Path (Node T)
  index : Index
  /-- Whose the subvolume at a path is. -/
  owner : Path → Owner := fun _ => .box
  /-- `checkFree` fails. -/
  full : Bool
  /-- What `repoGitDir` returns for a workspace. -/
  gitDir : Path → Except Err String
  /-- The readings of the daemon's clock, past and to come. -/
  clock : Nat → Time
  /-- How many of them have been taken. -/
  ticks : Nat

namespace Pool

/-- The environment with an ID, as `Get` finds it. -/
def env? (s : Pool T) (id : EnvID) : Option EnvRow := s.index.env? id

/-- What is at a path. -/
def node (s : Pool T) (p : Path) : Option (Node T) := s.disk.get p

/-- The marker in an environment's directory, with the workspace it names. -/
def marker? (s : Pool T) (id : EnvID) : Option (Option Path) :=
  match s.node (.marker id) with
  | some (.mark ws) => some ws
  | _ => none

/-- The directories under `envs/`, by name. -/
def envDirs (s : Pool T) : List EnvID :=
  (s.disk.keys.filterMap fun
    | .envDir id => some id
    | _ => none).insertionSort (· ≤ ·)

/-- The entries of an environment's `snaps/`, by name. -/
def snapDirs (s : Pool T) (id : EnvID) : List SnapID :=
  (s.disk.keys.filterMap fun
    | .snap env x => if env = id then some x else none
    | _ => none).insertionSort (· ≤ ·)

/-- Put a node at a path. -/
def put (s : Pool T) (p : Path) (n : Node T) : Pool T := { s with disk := s.disk.set p n }

/-- Give what is at a path to an owner. -/
def own (s : Pool T) (p : Path) (o : Owner) : Pool T :=
  { s with owner := fun q => if q = p then o else s.owner q }

/-- Take away what is at a path. -/
def drop (s : Pool T) (p : Path) : Pool T := { s with disk := s.disk.erase p }

/-- Whether the directory a path is in exists. -/
def hasParent (s : Pool T) (p : Path) : Bool :=
  match p.parent? with
  | none => true
  | some d =>
    match s.node d with
    | some n => n.isDir
    | none => false

end Pool

/-- An operation on the pool. -/
inductive Op (T : Type) where
  /-- `os.Mkdir`. -/
  | mkdir (p : Path)
  /-- `BTRFS_IOC_SUBVOL_CREATE`. -/
  | createSubvolume (p : Path)
  /-- `os.Chown` to the box user. -/
  | chown (p : Path)
  /-- `BTRFS_IOC_SNAP_CREATE_V2`. -/
  | snapshotSubvolume (source p : Path)
  /-- `BTRFS_IOC_SNAP_DESTROY`. -/
  | deleteSubvolume (p : Path)
  /-- `btrfs subvolume delete --recursive`. -/
  | deleteNested (p : Path)
  /-- Files written below a path. -/
  | fill (p : Path) (tree : T)
  /-- `renameat2` with `RENAME_EXCHANGE`. -/
  | exchange (p q : Path)
  /-- `os.RemoveAll`. -/
  | removeAll (p : Path)
  /-- `os.Remove` of a file. -/
  | remove (p : Path)
  /-- The marker written anew, with nothing in it. -/
  | truncateMarker (id : EnvID)
  /-- The marker's text. -/
  | writeMarker (id : EnvID) (workspace : Path)
  /-- `source.list` renamed into place. -/
  | listSource (id : EnvID) (tree : T)
  | insertEnv (row : EnvRow)
  | setEnvGit (id : EnvID) (git : String)
  | deleteEnv (id : EnvID)
  | keepSnapshot (row : SnapRow)
  | replaceSnapshot (row : SnapRow)
  | deleteSnapshot (env : EnvID) (id : SnapID)
  | recoverSnapshots (env : EnvID) (missing stale : List SnapID) (created : Int)
  /-- `time.Now`. -/
  | clock

namespace Op

variable [Tree T]

/-- What `MkdirAll` makes where nothing is. -/
def freshDir : Path → Node T
  | .claude _ => .plain Tree.empty
  | _ => .dir

/-- What an operation does. -/
def run : Op T → Pool T → Except Err (Pool T)
  | mkdir p, s =>
    match s.node p with
    | some n => if n.isDir then .ok s else .error .notDir
    | none => if s.hasParent p then .ok (s.put p (freshDir p)) else .error .noEntry
  | createSubvolume p, s =>
    match s.node p with
    | some _ => .error .exist
    | none =>
      if s.hasParent p then .ok ((s.own p .root).put p (.subvol Tree.empty false))
      else .error .noEntry
  | chown p, s =>
    match s.node p with
    | some _ => .ok (s.own p .box)
    | none => .error .noEntry
  | snapshotSubvolume source p, s =>
    match s.node source, s.node p with
    | none, _ => .error .noEntry
    | some _, some _ => .error .exist
    | some (.subvol t _), none =>
      -- A snapshot is not recursive: a nested subvolume is an empty directory in it.
      if s.hasParent p then .ok ((s.own p (s.owner source)).put p (.subvol t false))
      else .error .noEntry
    | some _, none => .error .invalid
  | deleteSubvolume p, s =>
    match s.node p with
    | some (.subvol _ nested) => if nested then .error .notEmpty else .ok (s.drop p)
    | some _ => .error .invalid
    | none => .error .noEntry
  | deleteNested p, s =>
    match s.node p with
    | some (.subvol _ _) => .ok (s.drop p)
    | some _ => .error .invalid
    | none => .error .noEntry
  | fill p t, s =>
    match s.node p with
    | some (.subvol _ nested) => .ok (s.put p (.subvol t nested))
    | some (.plain _) => .ok (s.put p (.plain t))
    | some _ => .error .notDir
    | none => .error .noEntry
  | exchange p q, s =>
    match s.node p, s.node q with
    | some _, some _ =>
      .ok { (s.own p (s.owner q)).own q (s.owner p) with disk := s.disk.swap p q }
    | _, _ => .error .noEntry
  | removeAll p, s =>
    match p with
    | .envDir id => .ok { s with disk := s.disk.eraseIf fun q => q.env? = some id }
    | _ => .ok (s.drop p)
  | remove p, s =>
    match s.node p with
    | some _ => .ok (s.drop p)
    | none => .error .noEntry
  | truncateMarker id, s =>
    if s.hasParent (.marker id) then .ok (s.put (.marker id) (.mark none)) else .error .noEntry
  | writeMarker id ws, s =>
    if s.hasParent (.marker id) then .ok (s.put (.marker id) (.mark (some ws))) else .error .noEntry
  | listSource id t, s =>
    if s.hasParent (.sourceList id) then .ok (s.put (.sourceList id) (.listing t))
    else .error .noEntry
  | insertEnv row, s => do
    let x ← s.index.insertEnv row
    pure { s with index := x }
  | setEnvGit id git, s => .ok { s with index := s.index.setEnvGit id git }
  | deleteEnv id, s => .ok { s with index := s.index.deleteEnv id }
  | keepSnapshot row, s => do
    let x ← s.index.keepSnapshot row
    pure { s with index := x }
  | replaceSnapshot row, s => do
    let x ← s.index.replaceSnapshot row
    pure { s with index := x }
  | deleteSnapshot env id, s => .ok { s with index := s.index.deleteSnapshot env id }
  | recoverSnapshots env missing stale created, s => do
    let x ← s.index.recoverSnapshots env missing stale created
    pure { s with index := x }
  | clock, s => .ok { s with ticks := s.ticks + 1 }

end Op

/-- A call of the store. -/
abbrev StoreM (T : Type) : Type → Type := Call (Pool T) (Op T) Err

namespace StoreM

variable [Tree T]

/-- Perform an operation. -/
def op (o : Op T) : StoreM T Unit := Call.perform o o.run

/-- `time.Now`. -/
def timeNow : StoreM T Time := do
  let s ← Call.read
  op .clock
  pure (s.clock s.ticks)

end StoreM

end Fern

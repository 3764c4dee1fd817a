/-
What is on the pool's disk.

The layout is the one `store.go` draws: an environment's directory with its workspace,
its snapshots, Claude's folder and the leftovers of changes that stopped, and beside it
the worktrees callers chose paths for.  A path here names a place in that layout rather
than a string, so two different paths are never one file.

What a file tree holds is left open.  The store only ever copies a tree, lays a worktree
over a golden one, or asks whether a folder is empty; `Tree` is those operations.
-/
import Fern.Lib.FinMap
import Fern.Store.Names

namespace Fern

/-- A place in the pool. -/
inductive Path where
  /-- `worktrees/<repo>` -/
  | repo (repo : String)
  /-- `worktrees/<repo>/<name>` -/
  | worktree (repo name : String)
  /-- `envs/<id>` -/
  | envDir (id : EnvID)
  /-- `envs/<id>/live` -/
  | live (id : EnvID)
  /-- `envs/<id>/live.new` -/
  | restore (id : EnvID)
  /-- `envs/<id>/adopt.new` -/
  | adopt (id : EnvID)
  /-- `envs/<id>/claude` -/
  | claude (id : EnvID)
  /-- `envs/<id>/incomplete` -/
  | marker (id : EnvID)
  /-- `envs/<id>/source.list` -/
  | sourceList (id : EnvID)
  /-- `envs/<id>/snaps` -/
  | snapsDir (id : EnvID)
  /-- `envs/<id>/snaps/<snap>` -/
  | snap (id : EnvID) (snap : SnapID)
  deriving DecidableEq

namespace Path

/-- The environment whose directory a path is in, or is. -/
def env? : Path → Option EnvID
  | repo _ => none
  | worktree _ _ => none
  | envDir id => some id
  | live id => some id
  | restore id => some id
  | adopt id => some id
  | claude id => some id
  | marker id => some id
  | sourceList id => some id
  | snapsDir id => some id
  | snap id _ => some id

/-- The directory a path is in, unless the pool is opened with it. -/
def parent? : Path → Option Path
  | repo _ => none
  | worktree r _ => some (repo r)
  | envDir _ => none
  | live id => some (envDir id)
  | restore id => some (envDir id)
  | adopt id => some (envDir id)
  | claude id => some (envDir id)
  | marker id => some (envDir id)
  | sourceList id => some (envDir id)
  | snapsDir id => some (envDir id)
  | snap id _ => some (snapsDir id)

/-- A path a workspace can be at: `envs/<id>/live` or a worktree's. -/
inductive IsWorkspace (id : EnvID) : Path → Prop
  | live : IsWorkspace id (live id)
  | worktree (r n : String) : IsWorkspace id (worktree r n)

end Path

/-- File trees, as far as the store looks at them. -/
class Tree (T : Type) where
  /-- What a new subvolume holds. -/
  empty : T
  /-- Whether a folder has no entries. -/
  isEmpty : T → Bool
  /-- `overlay`: a worktree's tree laid over a golden one. -/
  overlay : T → T → T
  /-- The trees a copy passes through, from what was there to what will be. -/
  between : T → T → List T

/-- What is at a path. -/
inductive Node (T : Type) where
  /-- A directory that is no workspace. -/
  | dir
  /-- A btrfs subvolume, with whether it holds subvolumes of its own. -/
  | subvol (tree : T) (nested : Bool)
  /-- A plain directory with files. -/
  | plain (tree : T)
  /-- The marker of a create or a delete, with the workspace it names. -/
  | mark (workspace : Option Path)
  /-- `source.list`: the files of a tree. -/
  | listing (tree : T)
  /-- A symlink. -/
  | link
  /-- Anything else. -/
  | other
  deriving DecidableEq

namespace Node

variable {T : Type}

/-- The files at a node that is a directory tree. -/
def tree? : Node T → Option T
  | subvol t _ => some t
  | plain t => some t
  | _ => none

/-- Whether `os.Lstat` says a subvolume: a directory with inode 256. -/
def isSubvolume : Node T → Bool
  | subvol _ _ => true
  | _ => false

/-- Whether it is a directory. -/
def isDir : Node T → Bool
  | dir => true
  | subvol _ _ => true
  | plain _ => true
  | _ => false

end Node

/-- Why a call of the store fails. -/
inductive Err where
  /-- `ErrNotFound` -/
  | notFound
  /-- `ErrInvalidID` -/
  | invalidID
  /-- `ErrInvalidPath` -/
  | invalidPath
  /-- `errUnindexed` -/
  | unindexed
  /-- `ErrPoolFull` -/
  | poolFull
  /-- `EEXIST` -/
  | exist
  /-- `ENOENT` -/
  | noEntry
  /-- `EINVAL`: not a subvolume -/
  | invalid
  /-- `ENOTDIR` -/
  | notDir
  /-- `ENOTEMPTY` -/
  | notEmpty
  /-- A constraint of the index. -/
  | constraint
  /-- Any other failure. -/
  | io
  deriving DecidableEq

end Fern

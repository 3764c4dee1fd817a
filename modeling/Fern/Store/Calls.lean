/-
The store's calls, as `create.go`, `recover.go`, `snapshot.go` and `golden.go` make them.

Each function below is the function of the same name in the source, with its checks and
its operations in the source's order.  Of owners, only whose a workspace is is kept, and modes
are left out: no call of the store reads them.
-/
import Fern.Store.Pool

namespace Fern

open Call StoreM

variable {T : Type} [Tree T]

/-- A snapshot of an environment. -/
structure SnapshotRef where
  env : EnvID
  snapshot : SnapID
  deriving DecidableEq

/-- What a caller gives for a workspace: a path below `worktrees/` with two more parts,
or anything else. -/
inductive PathArg where
  | worktree (repo name : String)
  | elsewhere
  deriving DecidableEq

/-- `CreateOptions`, with the box token the create will draw. -/
structure CreateOptions (T : Type) where
  workspace : Option PathArg := none
  /-- The seed, as the trees that unpacking it passes through on top of what is there. -/
  seed : Option (List (T → T)) := none
  «from» : Option SnapshotRef := none
  fork : Option SnapshotRef := none
  boxToken : String := ""

/-! ### Reading the index -/

/-- `Get`. -/
def get (id : EnvID) : StoreM T EnvRow := do
  if checkEnvID id then
    match (← read).env? id with
    | some row => pure row
    | none => fail .notFound
  else fail .invalidID

/-- `HasSnapshot`. -/
def hasSnapshot (ref : SnapshotRef) : StoreM T Bool := do
  if checkSnapID ref.snapshot then
    pure ((← read).index.hasSnapshot ref.env ref.snapshot)
  else fail .invalidID

/-- `snapshotPath`. -/
def snapshotPath (ref : SnapshotRef) : StoreM T Path := do
  if ← hasSnapshot ref then pure (.snap ref.env ref.snapshot) else fail .notFound

/-- `checkFree`. -/
def checkFree : StoreM T Unit := do
  if (← read).full then fail .poolFull else pure ()

/-! ### Subvolumes -/

/-- One round of `deleteSubvolumes`: a subvolume without others inside goes at once, one
with them is left for the end. -/
def deleteOne (nested : List Path) (p : Path) : StoreM T (List Path) := do
  match (← read).node p with
  | some (.subvol _ true) => pure (nested ++ [p])
  | some (.subvol _ false) => do
    op (.deleteSubvolume p)
    pure nested
  | _ => pure nested

/-- `deleteSubvolumes`: paths that don't exist or aren't subvolumes are left alone. -/
def deleteSubvolumes (paths : List Path) : StoreM T Unit := do
  let nested ← eachWith deleteOne [] paths
  each (fun p => op (.deleteNested p)) nested

/-- A copy of `tree` into the subvolume at `p`, file by file. -/
def copyInto (p : Path) (base tree : T) : StoreM T Unit := do
  each (fun t => op (.fill p t)) (Tree.between base tree)
  op (.fill p tree)

/-! ### Creates and deletes that stopped -/

/-- `holdsData`. -/
def holdsData (s : Pool T) (id : EnvID) : Bool :=
  (s.node (.live id)).isSome || !(s.snapDirs id).isEmpty ||
    match s.node (.claude id) with
    | some (.plain t) => !Tree.isEmpty t
    | _ => false

/-- `removeDisk`. -/
def removeDisk (id : EnvID) (workspace : Option Path) : StoreM T Unit := do
  let s ← read
  deleteSubvolumes ([.live id, .restore id, .adopt id] ++
    (workspace.toList.filter fun ws => ws ≠ .live id) ++ (s.snapDirs id).map (.snap id))
  op (.removeAll (.envDir id))

/-- `clearLeftovers`. -/
def clearLeftovers (id : EnvID) : StoreM T Unit := do
  let s ← read
  match s.node (.envDir id) with
  | none => pure ()
  | some _ =>
    match s.marker? id with
    | some workspace => removeDisk id workspace
    | none => if holdsData s id then fail .unindexed else removeDisk id none

/-- `writeMarker`: the file is made empty, then the workspace is written to it. -/
def writeMarker (id : EnvID) (workspace : Option Path) : StoreM T Unit := do
  op (.mkdir (.envDir id))
  op (.truncateMarker id)
  match workspace with
  | none => pure ()
  | some ws => op (.writeMarker id ws)

/-! ### Workspaces -/

/-- `checkWorkspace`. -/
def checkWorkspace (arg : PathArg) : StoreM T Path := do
  match arg with
  | .elsewhere => fail .invalidPath
  | .worktree r n => do
    let s ← read
    if !(pathPart r && pathPart n) then fail .invalidPath
    else
      match s.node (.worktree r n), s.node (.repo r) with
      | some .link, _ => fail .invalidPath
      | _, some .link => fail .invalidPath
      | _, _ =>
        match s.index.envAt? (.worktree r n) with
        | some _ => fail .invalidPath
        | none => pure (.worktree r n)

/-- `adopt` up to its swap: a copy of the files `tree` at `adopt.new`, on top of the golden's. -/
def adoptCopy (id : EnvID) (tree : T) (golden : Option Path) : StoreM T Unit :=
  match golden with
  | some src => do
    op (.snapshotSubvolume src (.adopt id))
    match (← read).node (.adopt id) with
    | some (.subvol base _) => copyInto (.adopt id) base (Tree.overlay base tree)
    | _ => fail .io
  | none => do
    op (.createSubvolume (.adopt id))
    copyInto (.adopt id) Tree.empty tree
    -- The copy gets the folder's own owner last; worktrees are the box user's.
    op (.chown (.adopt id))

/-- `adopt`: the plain directory at `path`, with the files `tree`, becomes a subvolume. -/
def adopt (id : EnvID) (path : Path) (tree : T) (golden : Option Path) : StoreM T Unit := do
  adoptCopy id tree golden
  op (.exchange (.adopt id) path)
  op (.removeAll (.adopt id))

/-- The directory a workspace will be in. -/
def makeParent : Path → StoreM T Unit
  | .worktree r _ => op (.mkdir (.repo r))
  | _ => pure ()

/-- `makeWorkspace`. -/
def makeWorkspace (id : EnvID) (workspace : Path) (golden : Option Path) : StoreM T Unit := do
  match (← read).node workspace with
  | none => do
    makeParent workspace
    op (.createSubvolume workspace)
    op (.chown workspace)
  | some (.subvol _ _) => pure ()
  | some (.plain tree) => adopt id workspace tree golden
  | some .dir => adopt id workspace Tree.empty golden
  | some _ => fail .invalidPath

/-- `forkWorkspace`. -/
def forkWorkspace (src : SnapshotRef) (workspace : Path) : StoreM T Unit := do
  if src.snapshot = "" then do
    let env ← get src.env
    op (.snapshotSubvolume env.workspace workspace)
    op (.chown workspace)
  else do
    let path ← snapshotPath src
    op (.snapshotSubvolume path workspace)
    op (.chown workspace)

/-- `untar`: a seed's files, one after another. -/
def untar (workspace : Path) (seed : List (T → T)) : StoreM T Unit :=
  each (fun f => do
    match (← read).node workspace with
    | some (.subvol t _) => op (.fill workspace (f t))
    | _ => fail .io) seed

/-! ### Create -/

/-- The workspace a create makes: envs/<id>/live, or the caller's path once checked. -/
def workspaceOf (id : EnvID) (arg : Option PathArg) : StoreM T Path :=
  match arg with
  | some arg => checkWorkspace arg
  | none => pure (.live id)

/-- The path of the snapshot a create starts from. -/
def goldenPath (opts : CreateOptions T) : StoreM T (Option Path) :=
  match opts.from with
  | some ref => do
    let path ← snapshotPath ref
    pure (some path)
  | none => pure none

/-- The workspace of a new environment: a fork's copy, or made. -/
def forkOrMake (id : EnvID) (workspace : Path) (fork : Option SnapshotRef)
    (golden : Option Path) : StoreM T Unit :=
  match fork with
  | some src => forkWorkspace src workspace
  | none => makeWorkspace id workspace golden

/-- The workspace of a new environment, with its seed. -/
def fillWorkspace (id : EnvID) (workspace : Path) (opts : CreateOptions T) : StoreM T Unit := do
  let golden ← goldenPath opts
  forkOrMake id workspace opts.fork golden
  match opts.seed with
  | some seed => untar workspace seed
  | none => pure ()

/-- The directory of a new environment: cleared, marked as incomplete, and with its folders. -/
def makeEnvDir (id : EnvID) : StoreM T Unit := do
  clearLeftovers id
  writeMarker id none
  op (.mkdir (.snapsDir id))
  op (.mkdir (.claude id))

/-- `create` up to its row: the marker goes first, so what is left of it when it stops is
garbage. -/
def prepare (id : EnvID) (opts : CreateOptions T) : StoreM T EnvRow := do
  let workspace ← workspaceOf id opts.workspace
  makeEnvDir id
  fillWorkspace id workspace opts
  match (← read).gitDir workspace with
  | .error e => fail e
  | .ok git => do
    let now ← timeNow
    pure ⟨id, workspace, git, unix now, opts.boxToken⟩

/-- `create`: with the row written, the marker means nothing. -/
def create (id : EnvID) (opts : CreateOptions T) : StoreM T EnvRow := do
  let row ← prepare id opts
  op (.insertEnv row)
  op (.remove (.marker id))
  pure row

/-- `readopt`. -/
def readopt (env : EnvRow) : StoreM T EnvRow := do
  if env.workspace = .live env.id then pure env
  else
    match (← read).node env.workspace with
    | some (.subvol _ _) => pure env
    | _ => do
      makeWorkspace env.id env.workspace none
      match (← read).gitDir env.workspace with
      | .error e => fail e
      | .ok git => do
        op (.setEnvGit env.id git)
        pure { env with git := git }

/-- Whether the path a caller names is the workspace an environment has. -/
def PathArg.names : PathArg → Path → Bool
  | .worktree r n, ws => ws = .worktree r n
  | .elsewhere, _ => false

/-- `Create`. -/
def Create (id : EnvID) (opts : CreateOptions T) : StoreM T EnvRow := do
  if !checkEnvID id then fail .invalidID
  else
    match (← read).env? id with
    | some env =>
      if opts.workspace.all fun arg => arg.names env.workspace then readopt env
      else fail .invalidPath
    | none =>
      if opts.fork.isSome && (opts.workspace.isSome || opts.seed.isSome || opts.from.isSome) then
        fail .invalidPath
      else do
        checkFree
        create id opts

/-! ### Delete -/

/-- `Delete`. -/
def Delete (id : EnvID) : StoreM T Unit := do
  if !checkEnvID id then fail .invalidID
  else do
    match (← read).env? id with
    | some env => do
      writeMarker id (some env.workspace)
      op (.deleteEnv id)
    | none => pure ()
    clearLeftovers id

/-! ### Snapshots -/

/-- `snapshot`: one that is there keeps its row if it has one. -/
def snapshot (env : EnvRow) (id : SnapID) : StoreM T Unit := do
  match (← read).node (.snap env.id id) with
  | some _ => do
    let now ← timeNow
    op (.keepSnapshot ⟨env.id, id, unix now⟩)
  | none => do
    op (.snapshotSubvolume env.workspace (.snap env.id id))
    let now ← timeNow
    op (.replaceSnapshot ⟨env.id, id, unix now⟩)

/-- `Snapshot`. -/
def Snapshot (id : EnvID) (snap : SnapID) : StoreM T Unit := do
  if checkSnapID snap then do
    let env ← get id
    checkFree
    snapshot env snap
  else fail .invalidID

/-- `DeleteSnapshot`: the subvolume goes first. -/
def DeleteSnapshot (id : EnvID) (snap : SnapID) : StoreM T Unit := do
  if checkSnapID snap then do
    let _ ← get id
    deleteSubvolumes [.snap id snap]
    op (.deleteSnapshot id snap)
  else fail .invalidID

/-- `prunePreRestores`. -/
def prunePreRestores (id : EnvID) (keep : SnapID) : StoreM T Unit := do
  let now ← timeNow
  let old := (← read).index.snapshotsBefore id keep (unix ((now : Int) - preRestoreKeep))
  each (DeleteSnapshot id) old

/-- `restore` up to the copy of the snapshot. -/
def restoreCopy (env : EnvRow) (snap : SnapID) : StoreM T Unit := do
  prunePreRestores env.id snap
  -- A leftover is a half-made copy, or the old workspace of a restore that stopped.
  deleteSubvolumes [.restore env.id]
  op (.snapshotSubvolume (.snap env.id snap) (.restore env.id))

/-- `restore` up to the swap: the copy made, and the workspace kept. -/
def restoreKeep (env : EnvRow) (snap : SnapID) : StoreM T Unit := do
  restoreCopy env snap
  let now ← timeNow
  snapshot env (preRestoreID now)

/-- `restore`. -/
def restore (env : EnvRow) (snap : SnapID) : StoreM T Unit := do
  restoreKeep env snap
  op (.exchange (.restore env.id) env.workspace)
  deleteSubvolumes [.restore env.id]

/-- `Restore`. -/
def Restore (id : EnvID) (snap : SnapID) : StoreM T Unit := do
  if checkSnapID snap then do
    let env ← get id
    let _ ← snapshotPath ⟨id, snap⟩
    restore env snap
  else fail .invalidID

/-! ### Golden builds -/

/-- `BuildSource`. -/
def BuildSource (id : EnvID) (src : SnapshotRef) : StoreM T Unit := do
  let env ← get id
  if env.workspace = .live id then do
    let path ← snapshotPath src
    match (← read).node path with
    | some (.subvol t _) => do
      op (.listSource id t)
      deleteSubvolumes [env.workspace]
      op (.snapshotSubvolume path env.workspace)
    | _ => fail .noEntry
  else fail .invalidPath

/-! ### Reconcile -/

/-- An environment's snapshots that have a row. -/
def indexed (s : Pool T) (id : EnvID) : List SnapID := (s.index.snapshots id).map SnapRow.id

/-- An environment's snapshots on disk. -/
def found (s : Pool T) (id : EnvID) : List SnapID :=
  (s.snapDirs id).filter fun x =>
    checkSnapID x && ((s.node (.snap id x)).map Node.isSubvolume).getD false

/-- `reconcileSnapshots`: rows for the snapshots on disk, and no others. -/
def reconcileSnapshots (id : EnvID) : StoreM T Unit := do
  let s ← read
  match s.node (.snapsDir id) with
  | none => fail .noEntry
  | some _ => do
    let missing := (found s id).filter fun x => x ∉ indexed s id
    let stale := (indexed s id).filter fun x => x ∉ found s id
    if missing.isEmpty && stale.isEmpty then pure ()
    else do
      let now ← timeNow
      op (.recoverSnapshots id missing stale (unix now))

/-- What a restore or an adopt that stopped left of an environment in the index. -/
def clearChange (id : EnvID) : StoreM T Unit := do
  deleteSubvolumes [.restore id, .adopt id]
  op (.removeAll (.adopt id))

/-- The marker of an environment that is in the index means nothing. -/
def dropMarker (id : EnvID) : StoreM T Unit := do
  match (← read).node (.marker id) with
  | some _ => op (.remove (.marker id))
  | none => pure ()

/-- Only a golden build that stopped leaves an indexed environment without its `live`. -/
def putBackLive (env : EnvRow) : StoreM T Unit := do
  if (← read).node env.workspace = none ∧ env.workspace = .live env.id then
    makeWorkspace env.id env.workspace none
  else pure ()

/-- What `Reconcile` does for an environment that is in the index. -/
def reconcileEnv (env : EnvRow) : StoreM T Unit := do
  clearChange env.id
  dropMarker env.id
  reconcileSnapshots env.id
  putBackLive env
  prunePreRestores env.id ""

/-- What `Reconcile` does for a directory under `envs/`. -/
def reconcileDir (lost : List EnvID) (id : EnvID) : StoreM T (List EnvID) := do
  if !checkEnvID id then pure (lost ++ [id])
  else
    match (← read).env? id with
    | some env => do
      reconcileEnv env
      pure lost
    | none => do
      match ← attempt (clearLeftovers id) with
      | .ok () => pure lost
      | .error .unindexed => pure (lost ++ [id])
      | .error e => fail e

/-- `Reconcile`: the directories it keeps because the index has lost them. -/
def Reconcile : StoreM T (List EnvID) := do
  let s ← read
  eachWith reconcileDir [] s.envDirs

end Fern

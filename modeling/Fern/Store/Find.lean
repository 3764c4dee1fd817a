/-
The environment at a path.

A row of the index has its workspace as a text, and the schema keeps those apart.  Calls run at the
same time: between any two statements of one, others run theirs, so what a create has found of a
path may no longer hold when it writes its row.  What a call does on disk decides only whether and
with what it goes on, and can be anything here.  `FindByPath` goes up from a path, asking for each
folder.
-/
import Fern.Lib.Filepath
import Fern.Lib.Threads
import Fern.Store.Calls

namespace Fern

open List

namespace Find

open Filepath

/-- A row of `environments`. -/
structure Row where
  id : EnvID
  workspace : Text
  git : Text
  created : Int
  boxToken : String
  deriving DecidableEq

/-- The table `environments`. -/
structure Rows where
  list : List Row
  /-- `id TEXT PRIMARY KEY` -/
  idUnique : (list.map Row.id).Nodup
  /-- `workspace TEXT NOT NULL UNIQUE` -/
  workspaceUnique : (list.map Row.workspace).Nodup

namespace Rows

def empty : Rows := ⟨[], nodup_nil, nodup_nil⟩

/-- `Env`. -/
def env? (x : Rows) (id : EnvID) : Option Row := x.list.find? fun r => r.id = id

/-- `EnvAt`. -/
def envAt? (x : Rows) (workspace : Text) : Option Row :=
  x.list.find? fun r => r.workspace = workspace

theorem nodup_map_concat {α β : Type} {f : α → β} {l : List α} {a : α} (h : (l.map f).Nodup)
    (ha : f a ∉ l.map f) : ((l ++ [a]).map f).Nodup := by
  rw [map_append, map_singleton]
  refine nodup_append.mpr ⟨h, nodup_singleton _, ?_⟩
  intro b hb c hc hbc
  rw [mem_singleton] at hc
  exact ha (hc ▸ hbc ▸ hb)

/-- `InsertEnv`. -/
def insertEnv (x : Rows) (row : Row) : Except Err Rows :=
  if h : row.id ∈ x.list.map Row.id ∨ row.workspace ∈ x.list.map Row.workspace then
    .error .constraint
  else
    .ok ⟨x.list ++ [row], nodup_map_concat x.idUnique (not_or.mp h).1,
      nodup_map_concat x.workspaceUnique (not_or.mp h).2⟩

/-- The row with its git folder set, if it is the one with that ID. -/
def setGit (id : EnvID) (git : Text) (r : Row) : Row :=
    if r.id = id then { r with git := git } else r

theorem id_setGit (id : EnvID) (git : Text) : Row.id ∘ setGit id git = Row.id := by
  funext r
  unfold Function.comp setGit
  split <;> rfl

theorem workspace_setGit (id : EnvID) (git : Text) :
    Row.workspace ∘ setGit id git = Row.workspace := by
  funext r
  unfold Function.comp setGit
  split <;> rfl

/-- `SetEnvGit`. -/
def setEnvGit (x : Rows) (id : EnvID) (git : Text) : Rows where
  list := x.list.map (setGit id git)
  idUnique := by
    rw [map_map, id_setGit]
    exact x.idUnique
  workspaceUnique := by
    rw [map_map, workspace_setGit]
    exact x.workspaceUnique

/-- `DeleteEnv`. -/
def deleteEnv (x : Rows) (id : EnvID) : Rows where
  list := x.list.filter fun r => r.id ≠ id
  idUnique := (filter_sublist.map _).nodup x.idUnique
  workspaceUnique := (filter_sublist.map _).nodup x.workspaceUnique

end Rows

/-! ### Calls, as the table sees them -/

open Prog

abbrev StoreP := Prog Rows Err

variable (root : Text)

/-- `worktrees`. -/
def worktrees : Text := join root "worktrees".toList

/-- `livePath`. -/
def livePath (id : EnvID) : Text := join (join (join root "envs".toList) id.toList) "live".toList

/-- A query, which may also fail. -/
def ask {β : Type} (q : Rows → β) : StoreP β := do
  outside
  query q

/-- A statement, which may fail by itself too. -/
def run (f : Rows → Except Err Rows) : StoreP Unit := do
  outside
  statement f

/-- `Get`; none where there is no such environment. -/
def get (id : EnvID) : StoreP (Option Row) :=
  if checkEnvID id then ask fun x => x.env? id else fail .invalidID

/-- `CreateOptions`. -/
structure Options where
  /-- Empty for `envs/<id>/live`. -/
  workspace : Text := []
  seed : Bool := false
  source : Option SnapshotRef := none
  fork : Option SnapshotRef := none

/-- `checkWorkspace`. -/
def checkWorkspace (path : Text) : StoreP Text :=
  let clean := clean path
  match (rel (worktrees root) clean).map fun rel => rel.splitOn '/' with
  | some [repo, name] =>
    if pathPart (String.ofList repo) && pathPart (String.ofList name) then do
      -- neither the path nor the folder it is in may be a link
      let isLink ← learn Bool
      if isLink then fail .invalidPath
      else
        match ← ask fun x => x.envAt? clean with
        | some _ => fail .invalidPath
        | none => pure clean
    else fail .invalidPath
  | _ => fail .invalidPath

/-- The workspace of a new environment. -/
def workspaceOf (id : EnvID) (opts : Options) : StoreP Text :=
  if opts.workspace ≠ [] then checkWorkspace root opts.workspace else pure (livePath root id)

/-- `forkWorkspace`: a copy of another environment's workspace needs its row. -/
def forkWorkspace (src : SnapshotRef) : StoreP Unit :=
  if src.snapshot = "" then do
    match ← get src.env with
    | some _ => outside
    | none => fail .notFound
  else outside

/-- The workspace made: a fork's copy, or a subvolume. -/
def forkOrMake : Option SnapshotRef → StoreP Unit
  | some src => forkWorkspace src
  | none => outside

/-- `create`. -/
def create (id : EnvID) (opts : Options) : StoreP Unit := do
  let workspace ← workspaceOf root id opts
  -- the leftovers cleared, the marker, the folders, and the snapshot it is made from
  outside
  forkOrMake opts.fork
  -- the seed, and the files that name the git folder
  outside
  let git ← learn Text
  let created ← learn Int
  let boxToken ← learn String
  run fun x => x.insertEnv ⟨id, workspace, git, created, boxToken⟩
  -- the marker
  outside

/-- `readopt`. -/
def readopt (env : Row) : StoreP Unit := do
  if env.workspace = livePath root env.id then pure ()
  else do
    let isSubvolume ← learn Bool
    if isSubvolume then pure ()
    else do
      outside
      let git ← learn Text
      run fun x => .ok (x.setEnvGit env.id git)

/-- `Create`, of forks too. -/
def Create (id : EnvID) (opts : Options) : StoreP Unit := do
  match ← get id with
  | some env =>
    if opts.workspace ≠ [] ∧ clean opts.workspace ≠ env.workspace then fail .invalidPath
    else readopt root env
  | none =>
    if opts.fork.isSome ∧ (opts.workspace ≠ [] ∨ opts.seed ∨ opts.source.isSome) then
      fail .invalidPath
    else do
      -- the room in the pool
      outside
      create root id opts

/-- The rows of an environment that has them dropped, once it is marked. -/
def dropRows (id : EnvID) : Option Row → StoreP Unit
  | some _ => do
    outside
    run fun x => .ok (x.deleteEnv id)
  | none => pure ()

/-- `Delete`. -/
def Delete (id : EnvID) : StoreP Unit := do
  let env ← get id
  dropRows id env
  -- what is left on disk
  outside

/-- `Reconcile`, for one folder below `envs/`: it writes rows of snapshots only. -/
def reconcileDir (id : EnvID) : StoreP Unit :=
  if checkEnvID id then do
    let _ ← get id
    outside
  else pure ()

/-- `Reconcile`. -/
def Reconcile : StoreP Unit := do
  outside
  let dirs ← learn (List EnvID)
  each reconcileDir dirs

/-- The calls that run at the same time. -/
inductive Calls : StoreP Unit → Prop
  | create (id : EnvID) (opts : Options) : Calls (Create root id opts)
  | delete (id : EnvID) : Calls (Delete id)
  | reconcile : Calls Reconcile

/-! ### The environment at a path -/

/-- The loop of `FindByPath`, for so many rounds; none where it isn't done by then. -/
def findFrom (x : Rows) : Nat → Text → Option (Option Row)
  | 0, _ => none
  | rounds + 1, p =>
    if p ≠ root ∧ p ≠ dir p then
      match x.envAt? p with
      | some row => some (some row)
      | none => findFrom x rounds (dir p)
    else some none

/-- `FindByPath`; none of the rows where it finds no environment. -/
def findByPath (x : Rows) (rounds : Nat) (path : Text) : Option (Option Row) :=
  findFrom root x rounds (clean path)

end Find

end Fern

/-
The index: the two tables of `schema.sql` and the queries of `queries.sql`.

Rows stand in the order of their rowids.  The constraints of the schema are fields of
`Index`, as SQLite keeps them of every table it holds: an environment's ID and its
workspace are unique, a snapshot's name is unique within its environment, and a snapshot's
environment exists.  A statement that would break one fails and changes nothing.
-/
import Mathlib.Data.List.Nodup
import Mathlib.Data.List.Sort
import Fern.Store.Disk

namespace Fern

open List

/-- A row of `environments`. -/
structure EnvRow where
  id : EnvID
  workspace : Path
  git : String
  created : Int
  boxToken : String
  deriving DecidableEq

/-- A row of `snapshots`. -/
structure SnapRow where
  env : EnvID
  id : SnapID
  created : Int
  deriving DecidableEq

/-- The primary key of `snapshots`. -/
def SnapRow.key (r : SnapRow) : EnvID × SnapID := (r.env, r.id)

/-- The index. -/
structure Index where
  envs : List EnvRow
  snaps : List SnapRow
  /-- `id TEXT PRIMARY KEY` -/
  idUnique : (envs.map EnvRow.id).Nodup
  /-- `workspace TEXT NOT NULL UNIQUE` -/
  workspaceUnique : (envs.map EnvRow.workspace).Nodup
  /-- `PRIMARY KEY (env, id)` -/
  keyUnique : (snaps.map SnapRow.key).Nodup
  /-- `env TEXT NOT NULL REFERENCES environments(id)` -/
  envExists : ∀ r ∈ snaps, r.env ∈ envs.map EnvRow.id

namespace Index

/-- The index a pool is opened with first. -/
def empty : Index where
  envs := []
  snaps := []
  idUnique := nodup_nil
  workspaceUnique := nodup_nil
  keyUnique := nodup_nil
  envExists := by intro r hr; simp at hr

/-! ### Queries -/

/-- `Env`: the environment with an ID. -/
def env? (x : Index) (id : EnvID) : Option EnvRow := x.envs.find? fun r => r.id = id

/-- `EnvAt`: the environment with a workspace. -/
def envAt? (x : Index) (ws : Path) : Option EnvRow := x.envs.find? fun r => r.workspace = ws

/-- `Envs`: all environments, by ID. -/
def list (x : Index) : List EnvRow := x.envs.insertionSort fun a b => a.id ≤ b.id

/-- The row of a snapshot. -/
def snap? (x : Index) (env : EnvID) (id : SnapID) : Option SnapRow :=
  x.snaps.find? fun r => r.key = (env, id)

/-- `HasSnapshot`. -/
def hasSnapshot (x : Index) (env : EnvID) (id : SnapID) : Bool := (x.snap? env id).isSome

/-- `Snapshots`: an environment's snapshots, oldest first. -/
def snapshots (x : Index) (env : EnvID) : List SnapRow :=
  (x.snaps.filter fun r => r.env = env).insertionSort fun a b => a.created ≤ b.created

/-- `SnapshotsBefore`: the snapshots `LIKE` a restore's, except `keep`, taken before. -/
def snapshotsBefore (x : Index) (env : EnvID) (keep : SnapID) (before : Int) : List SnapID :=
  (x.snaps.filter fun r =>
    r.env = env && isPreRestore r.id && r.id ≠ keep && r.created < before).map
    SnapRow.id

/-! ### Statements -/

/-- `InsertEnv`. -/
def insertEnv (x : Index) (row : EnvRow) : Except Err Index :=
  if h : row.id ∈ x.envs.map EnvRow.id ∨ row.workspace ∈ x.envs.map EnvRow.workspace then
    .error .constraint
  else
    .ok {
      envs := x.envs ++ [row]
      snaps := x.snaps
      idUnique := by
        rw [map_append, map_singleton]
        exact nodup_append.mpr ⟨x.idUnique, nodup_singleton _, by
          intro a ha b hb hab
          rw [mem_singleton] at hb
          exact h (.inl (by rw [← hb, ← hab]; exact ha))⟩
      workspaceUnique := by
        rw [map_append, map_singleton]
        exact nodup_append.mpr ⟨x.workspaceUnique, nodup_singleton _, by
          intro a ha b hb hab
          rw [mem_singleton] at hb
          exact h (.inr (by rw [← hb, ← hab]; exact ha))⟩
      keyUnique := x.keyUnique
      envExists := by
        intro r hr
        rw [map_append]
        exact mem_append_left _ (x.envExists r hr) }

/-- `SetEnvGit`. -/
def setEnvGit (x : Index) (id : EnvID) (git : String) : Index where
  envs := x.envs.map fun r => if r.id = id then { r with git := git } else r
  snaps := x.snaps
  idUnique := by
    rw [map_map]
    convert x.idUnique using 2
    funext r
    by_cases h : r.id = id <;> simp [h]
  workspaceUnique := by
    rw [map_map]
    convert x.workspaceUnique using 2
    funext r
    by_cases h : r.id = id <;> simp [h]
  keyUnique := x.keyUnique
  envExists := by
    intro r hr
    rw [map_map]
    convert x.envExists r hr using 2
    funext r
    by_cases h : r.id = id <;> simp [h]

/-- `DeleteEnv`, which takes the environment's snapshots along (`ON DELETE CASCADE`). -/
def deleteEnv (x : Index) (id : EnvID) : Index where
  envs := x.envs.filter fun r => r.id ≠ id
  snaps := x.snaps.filter fun r => r.env ≠ id
  idUnique := (filter_sublist.map _).nodup x.idUnique
  workspaceUnique := (filter_sublist.map _).nodup x.workspaceUnique
  keyUnique := (filter_sublist.map _).nodup x.keyUnique
  envExists := by
    intro r hr
    rw [mem_filter] at hr
    obtain ⟨e, he, hid⟩ := mem_map.mp (x.envExists r hr.1)
    refine mem_map.mpr ⟨e, mem_filter.mpr ⟨he, ?_⟩, hid⟩
    rw [hid]
    exact hr.2

/-- `DeleteSnapshot`. -/
def deleteSnapshot (x : Index) (env : EnvID) (id : SnapID) : Index where
  envs := x.envs
  snaps := x.snaps.filter fun r => r.key ≠ (env, id)
  idUnique := x.idUnique
  workspaceUnique := x.workspaceUnique
  keyUnique := (filter_sublist.map _).nodup x.keyUnique
  envExists := fun r hr => x.envExists r (mem_filter.mp hr).1

/-- Add a snapshot's row, whose environment exists and which has none. -/
def addSnapshot (x : Index) (row : SnapRow) (henv : row.env ∈ x.envs.map EnvRow.id)
    (hnew : row.key ∉ x.snaps.map SnapRow.key) : Index where
  envs := x.envs
  snaps := x.snaps ++ [row]
  idUnique := x.idUnique
  workspaceUnique := x.workspaceUnique
  keyUnique := by
    rw [map_append, map_singleton]
    exact nodup_append.mpr ⟨x.keyUnique, nodup_singleton _, by
      intro a ha b hb hab
      rw [mem_singleton] at hb
      exact hnew (by rw [← hb, ← hab]; exact ha)⟩
  envExists := by
    intro r hr
    rcases mem_append.mp hr with h | h
    · exact x.envExists r h
    · rw [mem_singleton.mp h]; exact henv

/-- `KeepSnapshot`: add a snapshot's row unless it has one. -/
def keepSnapshot (x : Index) (row : SnapRow) : Except Err Index :=
  if henv : row.env ∈ x.envs.map EnvRow.id then
    if hnew : row.key ∈ x.snaps.map SnapRow.key then .ok x
    else .ok (x.addSnapshot row henv hnew)
  else .error .constraint

theorem not_mem_deleteSnapshot (x : Index) (env : EnvID) (id : SnapID) :
    (env, id) ∉ (x.deleteSnapshot env id).snaps.map SnapRow.key := by
  intro h
  obtain ⟨r, hr, hkey⟩ := mem_map.mp h
  have := (mem_filter.mp hr).2
  rw [hkey] at this
  simp at this

/-- `ReplaceSnapshot`: add a snapshot's row, replacing one of a snapshot that is gone. -/
def replaceSnapshot (x : Index) (row : SnapRow) : Except Err Index :=
  if henv : row.env ∈ x.envs.map EnvRow.id then
    .ok ((x.deleteSnapshot row.env row.id).addSnapshot row henv
      (not_mem_deleteSnapshot x row.env row.id))
  else .error .constraint

/-- The transaction of `reconcileSnapshots`: rows for the snapshots that miss one, none
for the rows without a snapshot. -/
def recoverSnapshots (x : Index) (env : EnvID) (missing stale : List SnapID) (created : Int) :
    Except Err Index := do
  let kept ← missing.foldlM (fun y id => y.keepSnapshot ⟨env, id, created⟩) x
  pure (stale.foldl (fun y id => y.deleteSnapshot env id) kept)

end Index

end Fern

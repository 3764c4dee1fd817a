/-
A backup, step by step.

`Once` works on its own copy of the manifest.  It extends the chain of each environment that
changed and saves the copy after each, uploads the state, saves the copy with it, and deletes the
objects the copy doesn't name.  Between any two of its calls others act: boxes write, environments
are made, restored, pruned and deleted, and so may another backup.

A run is a program counter with what the code has at hand there, and each step makes one call of
the store, of btrfs or of S3.  A call of S3 can fail, and then may have had its effect or not; a
call of the store can fail after any of its operations.
-/
import Fern.Backup.Manifest

namespace Fern

variable {T : Type}

/-! ### What backups work on -/

/-- The pool and the bucket. -/
structure World (T : Type) where
  pool : Pool T
  /-- The pool's btrfs generation: every change has a new one. -/
  gen : Gen := 0
  /-- The generation of the last change to the workspace at a path. -/
  last : Path → Gen := fun _ => 0
  /-- The generation a snapshot was taken at. -/
  taken : EnvID → SnapID → Gen := fun _ _ => 0
  bucket : FinMap Key (Object T) := .empty
  /-- The time in nanoseconds. -/
  clock : Time := 0

/-- How a call ends: `lost` is an error after the call had its effect. -/
inductive Answer where
  | ok
  | error
  | lost
  deriving DecidableEq, Repr

/-- What a step finds. -/
structure Input where
  /-- The answer to its call. -/
  answer : Answer := .ok
  /-- The time since the clock was last read. -/
  wait : Nat := 0
  /-- The operation of the store after which a call of it fails, if it does. -/
  stop : Option Nat := none
  /-- A file shrinks while it is archived. -/
  shrank : Bool := false
  /-- The keys on a page of a listing, unless it has all that are there. -/
  page : Option (List Key) := none
  /-- Another page follows. -/
  truncated : Bool := false
  deriving DecidableEq, Repr

namespace World

/-- The time as it is read next. -/
def now (w : World T) (x : Input) : Time := w.clock + 1 + x.wait

/-- The manifest in the bucket. -/
def manifest? (w : World T) : Option Manifest :=
  match w.bucket.get .manifest with
  | some (.manifest m) => some m
  | _ => none

/-- `S3.Put`. -/
def put (w : World T) (k : Key) (o : Object T) : World T := { w with bucket := w.bucket.set k o }

/-- `S3.Delete`. -/
def delete (w : World T) (k : Key) : World T := { w with bucket := w.bucket.erase k }

/-- A page of `S3.List`.  Which of the keys that are there a page has is up to S3. -/
def page (w : World T) (x : Input) : List Key :=
  match x.page with
  | some keys => keys.filter fun k => (w.bucket.get k).isSome
  | none => w.bucket.keys

/-- A call of the store that fails after `stop` operations, or runs to its end: what it leaves,
and whether it succeeded. -/
def call (pool : Pool T) (c : StoreM T Unit) : Option Nat → Pool T × Bool
  | some k => (c.stopAt k pool, false)
  | none => ((c pool).final, (c pool).result.isOk)

/-- `Envs.Snapshot`: the snapshot, once it is there, and the workspace it is of have a new
generation. -/
def takeSnapshot [Tree T] (w : World T) (id : EnvID) (name : SnapID) (x : Input) :
    World T × Bool :=
  let r := call w.pool (Snapshot id name) x.stop
  let made := (r.1.node (.snap id name)).isSome
  ({ w with
      pool := r.1
      gen := w.gen + 1
      last := fun p =>
        if made ∧ (w.pool.env? id).map EnvRow.workspace = some p then w.gen + 1 else w.last p
      taken := fun e y => if made ∧ e = id ∧ y = name then w.gen + 1 else w.taken e y
      clock := w.now x }, r.2)

/-- `Envs.DeleteSnapshot`. -/
def dropSnapshot [Tree T] (w : World T) (id : EnvID) (name : SnapID) (x : Input) :
    World T × Bool :=
  ({ w with pool := (call w.pool (DeleteSnapshot id name) x.stop).1 },
    (call w.pool (DeleteSnapshot id name) x.stop).2)

/-- The subvolume at a path. -/
def subvol? (w : World T) (p : Path) : Option T :=
  match w.pool.node p with
  | some (.subvol tree _) => some tree
  | _ => none

/-- `btrfs send` of a snapshot, from `parent` if there is one: both have to be there. -/
def stream (w : World T) (id : EnvID) (name : SnapID) (parent : Option SnapID) :
    Option (SendStream T) := do
  let tree ← w.subvol? (.snap id name)
  match parent with
  | none => some ⟨name, w.taken id name, tree, none⟩
  | some p => do
    let _ ← w.subvol? (.snap id p)
    some ⟨name, w.taken id name, tree, some (p, w.taken id p)⟩

/-- Claude's folders. -/
def claudes (w : World T) : FinMap EnvID T where
  get id :=
    match w.pool.node (.claude id) with
    | some (.plain tree) => some tree
    | _ => none
  dom := w.pool.disk.dom.filterMap fun
    | .claude id => some id
    | _ => none
  complete id h := by
    refine List.mem_filterMap.mpr ⟨.claude id, w.pool.disk.complete _ fun hnone => h ?_, rfl⟩
    simp [Pool.node, hnone]

end World

namespace Manifest

/-- The snapshot the next send of an environment is to be made from. -/
def parent? (m : Manifest) (id : EnvID) : Option SnapID := do
  let eb ← m.envs.get id
  if eb.chain.length < maxChain then eb.chain.getLast?.map Send.snapshot else none

/-- The environment's backup with one more send, or with a first one. -/
def extend (m : Manifest) (env : EnvRow) (parent : Option SnapID) (name : SnapID) (taken : Gen) :
    EnvBackup where
  workspace := env.workspace
  generation := taken
  chain :=
    match parent, m.envs.get env.id with
    | some _, some eb => eb.chain ++ [⟨name, .send env.id name⟩]
    | _, _ => [⟨name, .send env.id name⟩]

/-- `m.Envs[id] = eb`. -/
def setEnv (m : Manifest) (id : EnvID) (eb : EnvBackup) : Manifest :=
  { m with envs := m.envs.set id eb }

/-- Only the environments that are there. -/
def keepOnly (m : Manifest) (live : List EnvID) : Manifest :=
  { m with envs := m.envs.eraseIf fun id => decide (id ∉ live) }

/-- Whether the sweep keeps an object. -/
def keeps (m : Manifest) (k : Key) : Bool :=
  k = .manifest || m.state = some k ||
    m.envs.keys.any fun id => (m.envs.get id).any fun eb => eb.chain.any fun s => s.key = k

end Manifest

/-! ### A run -/

/-- Where a run is, with what it has at hand there. -/
inductive Pc (T : Type) where
  /-- It reads the manifest. -/
  | manifest
  /-- It lists the environments. -/
  | list
  /-- At the head of its loop over them. -/
  | next
  /-- It reads the generation of a workspace. -/
  | generation (env : EnvRow)
  /-- It lists an environment's snapshots. -/
  | snapshots (env : EnvRow)
  /-- It goes through them, with the parent it wants and whether it has come across it. -/
  | leftovers (env : EnvRow) (want : Option SnapID) (has : Bool) (rest : List SnapID)
  /-- It takes a snapshot. -/
  | snapshot (env : EnvRow) (parent : Option SnapID)
  /-- It starts `btrfs send`. -/
  | send (env : EnvRow) (parent : Option SnapID) (name : SnapID)
  /-- It uploads the stream. -/
  | put (env : EnvRow) (parent : Option SnapID) (name : SnapID) (stream : SendStream T)
  /-- It deletes the snapshot of a send that failed. -/
  | unsend (env : EnvRow) (name : SnapID)
  /-- It reads the generation the snapshot was taken at. -/
  | createdAt (env : EnvRow) (parent : Option SnapID) (name : SnapID)
  /-- It deletes the parent. -/
  | dropParent (env : EnvRow) (parent : SnapID) (eb : EnvBackup)
  /-- It saves the manifest with the environment's backup. -/
  | save (env : EnvRow) (eb : EnvBackup)
  /-- It copies the index. -/
  | index
  /-- It reads Claude's folders. -/
  | claudes (index : Index)
  /-- It uploads the state. -/
  | putState (a : Archive T)
  /-- It saves the manifest with the state. -/
  | saveState (k : Key)
  /-- It lists the bucket, page by page. -/
  | sweepList (keys : List Key)
  /-- It deletes objects. -/
  | sweep (keys : List Key)
  | done

/-- A run of `Once`. -/
structure Run (T : Type) where
  m : Manifest := .empty
  /-- The environments it hasn't come to. -/
  todo : List EnvRow := []
  live : List EnvID := []
  /-- It has come across an error. -/
  failed : Bool := false
  pc : Pc T := .manifest
  /-- The environments it listed. -/
  listed : List EnvRow := []
  /-- The generations of workspaces it read. -/
  seen : List (EnvID × Gen) := []

namespace Run

/-- An environment's backup fails: the run goes on with the next. -/
def fail (r : Run T) : Run T := { r with failed := true, pc := .next }

/-- The run returns an error. -/
def abort (r : Run T) : Run T := { r with failed := true, pc := .done }

/-- Put an object, and go on in `r` or, if that fails, in `r'`. -/
def upload (w : World T) (k : Key) (o : Object T) (x : Input) (r r' : Run T) : World T × Run T :=
  match x.answer with
  | .ok => (w.put k o, r)
  | .error => (w, r')
  | .lost => (w.put k o, r')

/-- What a run does next. -/
def step [Tree T] (w : World T) (r : Run T) (x : Input) : World T × Run T :=
  match r.pc with
  | .manifest =>
    match x.answer, w.bucket.get .manifest with
    | .ok, none => (w, { r with m := .empty, pc := .list })
    | .ok, some (.manifest m) => (w, { r with m := m, pc := .list })
    | _, _ => (w, r.abort)
  | .list =>
    if x.answer = .ok then
      (w, { r with todo := w.pool.index.list, listed := w.pool.index.list, pc := .next })
    else (w, r.abort)
  | .next =>
    match r.todo with
    | [] => (w, { r with m := r.m.keepOnly r.live, pc := .index })
    | env :: rest =>
      if isBuilder env.id then (w, { r with todo := rest })
      else (w, { r with todo := rest, live := env.id :: r.live, pc := .generation env })
  | .generation env =>
    if x.answer = .ok ∧ (w.subvol? env.workspace).isSome then
      let r := { r with seen := (env.id, w.last env.workspace) :: r.seen }
      match r.m.envs.get env.id with
      | some eb =>
        if eb.chain ≠ [] ∧ eb.generation = w.last env.workspace then
          (w, { r with pc := .save env eb })
        else (w, { r with pc := .snapshots env })
      | none => (w, { r with pc := .snapshots env })
    else (w, r.fail)
  | .snapshots env =>
    if x.answer = .ok ∧ (w.pool.env? env.id).isSome then
      (w, { r with
        pc := .leftovers env (r.m.parent? env.id) false
          ((w.pool.index.snapshots env.id).map SnapRow.id) })
    else (w, r.fail)
  | .leftovers env want has rest =>
    match rest with
    | [] => (w, { r with pc := .snapshot env (if has then want else none) })
    | s :: rest =>
      if !isBackup s then (w, { r with pc := .leftovers env want has rest })
      else if want = some s then (w, { r with pc := .leftovers env want true rest })
      else if (w.dropSnapshot env.id s x).2 then
        ((w.dropSnapshot env.id s x).1, { r with pc := .leftovers env want has rest })
      else ((w.dropSnapshot env.id s x).1, r.fail)
  | .snapshot env parent =>
    let name := backupID (w.now x)
    if (w.takeSnapshot env.id name x).2 then
      ((w.takeSnapshot env.id name x).1, { r with pc := .send env parent name })
    else ((w.takeSnapshot env.id name x).1, r.fail)
  | .send env parent name =>
    match x.answer, w.stream env.id name parent with
    | .ok, some stream => (w, { r with pc := .put env parent name stream })
    | _, _ => (w, { r with pc := .unsend env name })
  | .put env parent name stream =>
    upload w (.send env.id name) (.send stream) x { r with pc := .createdAt env parent name }
      { r with pc := .unsend env name }
  | .unsend env name => ((w.dropSnapshot env.id name x).1, r.fail)
  | .createdAt env parent name =>
    if x.answer = .ok ∧ (w.subvol? (.snap env.id name)).isSome then
      let eb := r.m.extend env parent name (w.taken env.id name)
      match parent with
      | none => (w, { r with pc := .save env eb })
      | some p => (w, { r with pc := .dropParent env p eb })
    else (w, r.fail)
  | .dropParent env p eb => ((w.dropSnapshot env.id p x).1, { r with pc := .save env eb })
  | .save env eb =>
    let r := { r with m := r.m.setEnv env.id eb }
    upload w .manifest (.manifest r.m) x { r with pc := .next } r.abort
  | .index => if x.answer = .ok then (w, { r with pc := .claudes w.pool.index }) else (w, r.abort)
  | .claudes index =>
    if x.answer = .ok then (w, { r with pc := .putState ⟨index, w.claudes, x.shrank⟩ })
    else (w, r.abort)
  | .putState a =>
    upload { w with clock := w.now x } (.state (w.now x)) (.state a) x
      { r with pc := .saveState (.state (w.now x)) } r.abort
  | .saveState k =>
    let r := { r with m := { r.m with state := some k } }
    upload w .manifest (.manifest r.m) x { r with pc := .sweepList [] } r.abort
  | .sweepList keys =>
    if x.answer = .ok then
      let keys := keys ++ w.page x
      if x.truncated then (w, { r with pc := .sweepList keys })
      else (w, { r with pc := .sweep (keys.filter fun k => !r.m.keeps k) })
    else (w, r.abort)
  | .sweep [] => (w, { r with pc := .done })
  | .sweep (k :: keys) =>
    match x.answer with
    | .ok => (w.delete k, { r with pc := .sweep keys })
    | .error => (w, { r with pc := .sweep keys, failed := true })
    | .lost => (w.delete k, { r with pc := .sweep keys, failed := true })
  | .done => (w, r)

end Run

/-! ### Backups beside each other -/

/-- What others do: anything to the pool, but every change has a new generation, and no one but a
backup takes a snapshot with the name of a backup's. -/
structure World.Others (w w' : World T) : Prop where
  bucket : w'.bucket = w.bucket
  clock : w.clock ≤ w'.clock
  gen : w.gen ≤ w'.gen
  last : ∀ p, w'.last p = w.last p ∨ w.gen < w'.last p ∧ w'.last p ≤ w'.gen
  snaps : ∀ id name, isBackup name →
    w'.pool.node (.snap id name) = none ∨
      w'.pool.node (.snap id name) = w.pool.node (.snap id name) ∧
        w'.taken id name = w.taken id name

/-- The hourly backup and one that was asked for. -/
structure Backups (T : Type) where
  w : World T
  run : Bool → Option (Run T) := fun _ => none

namespace Backups

/-- What happens next. -/
inductive Step [Tree T] : Backups T → Backups T → Prop
  /-- A run begins. -/
  | begins {s : Backups T} (i : Bool) (hnone : s.run i = none) :
      Step s { s with run := Function.update s.run i (some {}) }
  /-- A run makes a step. -/
  | goes {s : Backups T} (i : Bool) (r : Run T) (hrun : s.run i = some r) (x : Input) :
      Step s ⟨(r.step s.w x).1, Function.update s.run i (some (r.step s.w x).2)⟩
  /-- A run is over, or is stopped wherever it is. -/
  | stops {s : Backups T} (i : Bool) : Step s { s with run := Function.update s.run i none }
  | others {s : Backups T} {w : World T} (h : s.w.Others w) : Step s { s with w }

/-- An empty bucket, and a pool in which no snapshot has the name of a backup's. -/
structure Start (s : Backups T) : Prop where
  bucket : s.w.bucket = .empty
  snaps : ∀ id name, isBackup name → s.w.pool.node (.snap id name) = none
  last : ∀ p, s.w.last p ≤ s.w.gen
  run : ∀ i, s.run i = none

end Backups

end Fern

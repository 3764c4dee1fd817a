/-
A backup brought into a new server's pool, as `state.go` does.

`Restore` receives the chain of each environment the manifest names, in whatever order the map
gives them, and puts a copy of its last snapshot where the workspace was.  Then it unpacks the
state archive: the index as it was copied, and Claude's folders of all environments that had one,
whether the manifest names them or not.
-/
import Fern.Backup.Once

namespace Fern

variable {T : Type}

/-- The files of the last snapshot of an environment's chain. -/
def EnvBackup.tree? (b : FinMap Key (Object T)) (eb : EnvBackup) : Option T := do
  let last ← eb.chain.getLast?
  match b.get last.key with
  | some (.send st) => some st.tree
  | _ => none

/-- The files a manifest has for an environment whose workspace was at `w`. -/
def Manifest.at? (b : FinMap Key (Object T)) (m : Manifest) (w : Path) (id : EnvID) : Option T := do
  let eb ← m.envs.get id
  if eb.workspace = w then eb.tree? b else none

/-- A pool with nothing in it. -/
def Pool.Empty (p : Pool T) : Prop := ∀ q, p.node q = none

/-- A directory with a subvolume made in it. -/
def Node.nest : Node T → Node T
  | .subvol tree _ => .subvol tree true
  | n => n

namespace Backup

/-- `receive`: a send made from a snapshot needs that one, and none of its own name. -/
def receive (b : FinMap Key (Object T)) (id : EnvID) (p : Pool T) (send : Send) :
    Except Err (Pool T) :=
  match b.get send.key with
  | some (.send st) =>
    if st.parent.all fun q => ((p.node (.snap id q.1)).map Node.isSubvolume).getD false then
      match p.node (.snap id st.snapshot) with
      | none => .ok (p.put (.snap id st.snapshot) (.subvol st.tree false))
      | some _ => .error .exist
    else .error .noEntry
  | _ => .error .io

variable [Tree T]

/-- `btrfs subvolume snapshot`: into the folder at `dest`, if there is one, under the snapshot's
own name. -/
def snapshotTo (source dest : Path) (p : Pool T) : Except Err (Pool T) :=
  match p.node dest with
  | some n => if n.isDir then .ok (p.put dest n.nest) else .error .exist
  | none => (Op.snapshotSubvolume source dest).run p

/-- `os.MkdirAll` of the folder a path is in. -/
def mkdirParent (q : Path) (p : Pool T) : Except Err (Pool T) :=
  match q.parent? with
  | some d => (Op.mkdir d).run p
  | none => .ok p

/-- An environment's workspace, received from its sends. -/
def restoreEnv (b : FinMap Key (Object T)) (id : EnvID) (eb : EnvBackup) (p : Pool T) :
    Except Err (Pool T) := do
  let p ← (Op.mkdir (.envDir id)).run p
  let p ← (Op.mkdir (.snapsDir id)).run p
  let p ← eb.chain.foldlM (receive b id) p
  match eb.chain.getLast? with
  | none => .error .io
  | some last => do
    let p ← mkdirParent eb.workspace p
    snapshotTo (.snap id last.snapshot) eb.workspace p

/-- The entry of the manifest the loop has come to. -/
def restoreNext (b : FinMap Key (Object T)) (m : Manifest) (p : Pool T) (id : EnvID) :
    Except Err (Pool T) :=
  match m.envs.get id with
  | some eb => restoreEnv b id eb p
  | none => .ok p

/-- Claude's folder of one environment, unpacked. -/
def extractClaude (a : Archive T) (p : Pool T) (id : EnvID) : Except Err (Pool T) :=
  match a.claudes.get id with
  | some tree => do
    let p ← (Op.mkdir (.envDir id)).run p
    let p ← (Op.mkdir (.claude id)).run p
    (Op.fill (.claude id) tree).run p
  | none => .ok p

/-- `extractState`, which comes to an unexpected end if the archive has one. -/
def extractState (a : Archive T) (p : Pool T) : Except Err (Pool T) :=
  if a.torn then .error .io
  else a.claudes.keys.foldlM (extractClaude a) { p with index := a.index }

/-- `Restore`, which goes through the manifest's environments in the order `order`. -/
def Restore (b : FinMap Key (Object T)) (order : List EnvID) (p : Pool T) : Except Err (Pool T) :=
  if !p.envDirs.isEmpty then .error .exist
  else
    match b.get .manifest with
    | some (.manifest m) =>
      match m.state with
      | none => .error .notFound
      | some k => do
        let p ← order.foldlM (restoreNext b m) p
        match b.get k with
        | some (.state a) => extractState a p
        | _ => .error .io
    | _ => .error .notFound

end Backup

end Fern

/-
What a backup is made of.

The bucket holds one object for each send of a workspace, one for each archive of the state
around them, and the manifest, which names those that make up the latest backup.  Objects are
what was put there: encryption and compression give it back whole, and sizes and times are left
out, as nothing reads them.
-/
import Fern.Store.Calls

namespace Fern

/-- A btrfs generation. -/
abbrev Gen := Nat

/-! ### Names -/

/-- `snapPrefix`: `fern-backup-`. -/
def snapPrefix : List Char := ['f', 'e', 'r', 'n', '-', 'b', 'a', 'c', 'k', 'u', 'p', '-']

/-- What a backup at `t` calls the snapshot it sends. -/
def backupID (t : Time) : SnapID := String.ofList (snapPrefix ++ Nat.toDigits 10 t)

/-- Whether a snapshot has the name of a backup's. -/
def isBackup (x : SnapID) : Bool := snapPrefix.isPrefixOf x.toList

/-- `builderPrefix`: `golden-`. -/
def builderPrefix : List Char := ['g', 'o', 'l', 'd', 'e', 'n', '-']

/-- `IsBuilder`. -/
def isBuilder (id : EnvID) : Bool := builderPrefix.isPrefixOf id.toList

/-- The name of a backup's snapshot tells its time. -/
theorem backupID_injective : Function.Injective backupID := by
  intro a b h
  have hchars : snapPrefix ++ Nat.toDigits 10 a = snapPrefix ++ Nat.toDigits 10 b :=
    String.ofList_injective h
  have hdigits := List.append_cancel_left hchars
  have := congrArg (Nat.ofDigitChars 10 · 0) hdigits
  simpa using this

theorem isBackup_backupID (t : Time) : isBackup (backupID t) = true := by
  unfold isBackup backupID
  rw [String.toList_ofList]
  simp

/-! ### Objects -/

/-- A key under the node's place in the bucket. -/
inductive Key where
  /-- `manifest.json` -/
  | manifest
  /-- `state/<time>` -/
  | state (t : Time)
  /-- `envs/<id>/<snapshot>` -/
  | send (env : EnvID) (name : SnapID)
  deriving DecidableEq, Repr

/-- `Send`: one btrfs send stream of a backup's snapshot. -/
structure Send where
  snapshot : SnapID
  key : Key
  deriving DecidableEq

/-- `EnvBackup`: a full send, then incremental ones, each from the one before. -/
structure EnvBackup where
  workspace : Path
  /-- The generation the last sent snapshot was taken at. -/
  generation : Gen
  chain : List Send

/-- `Manifest`: what makes up a node's latest backup. -/
structure Manifest where
  state : Option Key
  envs : FinMap EnvID EnvBackup

/-- The manifest of a node without a backup. -/
def Manifest.empty : Manifest := ⟨none, .empty⟩

/-- A btrfs send stream: the snapshot it is of, with the generation it was taken at and its
files, and the snapshot it was made from, if it is not a full one. -/
structure SendStream (T : Type) where
  snapshot : SnapID
  taken : Gen
  tree : T
  parent : Option (SnapID × Gen)

/-- The state archive: a copy of the index, and Claude's folders.  What else it holds is T3's,
and no call of the store reads it. -/
structure Archive (T : Type) where
  index : Index
  claudes : FinMap EnvID T
  /-- It ends early.  A file that shrinks while it is read ends the stream with `io.EOF`, which is
  no error to the upload. -/
  torn : Bool

/-- An object in the bucket. -/
inductive Object (T : Type) where
  | manifest (m : Manifest)
  | state (a : Archive T)
  | send (s : SendStream T)

/-- The objects a manifest names: its state, and every send of every chain. -/
def Manifest.Names (m : Manifest) (k : Key) : Prop :=
  m.state = some k ∨ ∃ id eb, m.envs.get id = some eb ∧ ∃ s ∈ eb.chain, s.key = k

/-- `maxChain`: a week of sends, one each hour. -/
def maxChain : Nat := 7 * 24

end Fern

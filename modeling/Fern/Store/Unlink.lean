/-
`os.RemoveAll`, one removal at a time.

`Op.removeAll` takes an environment's directory away at once.  The system has no such operation:
`RemoveAll` unlinks the files and removes the folders one by one, in whatever order a directory
lists them, and can be stopped between any two.  Here a removal is a step, and any that the system
allows can be next; so a run visits the entries in every order, and every mixture of them.
-/
import Mathlib.Logic.Relation
import Fern.Store.Calls

namespace Fern

open Call StoreM

variable {T : Type} [Tree T]

/-- Whether a path is inside another. -/
def Path.isBelow (q p : Path) : Bool :=
  q.parent? = some p || q.parent?.bind Path.parent? = some p

/-- One removal in environment `id`'s directory; `lose` says what a tree is with one entry less. -/
inductive Unlink (lose : T → T → Prop) (id : EnvID) : Pool T → Pool T → Prop
  /-- A file or an empty folder in Claude's folder, or in a directory that was to be adopted. -/
  | entry {s : Pool T} {p : Path} {tree tree' : T} : p.env? = some id →
      s.node p = some (.plain tree) → lose tree tree' → Unlink lose id s (s.put p (.plain tree'))
  /-- A file of the store's layout, or a folder with nothing left in it. -/
  | path {s : Pool T} {p : Path} {n : Node T} : p.env? = some id → s.node p = some n →
      (∀ tree, n.tree? = some tree → Tree.isEmpty tree = true) →
      (∀ q : Path, q.isBelow p = true → s.node q = none) → Unlink lose id s (s.drop p)

/-- `removeDisk` up to its `RemoveAll`. -/
def removeSubvolumes (id : EnvID) (workspace : Option Path) : StoreM T Unit := do
  let s ← read
  deleteSubvolumes ([.live id, .restore id, .adopt id] ++
    (workspace.toList.filter fun ws => ws ≠ .live id) ++ (s.snapDirs id).map (.snap id))

/-- Where a `removeDisk` can be stopped: among its subvolumes, or in its `RemoveAll`. -/
def Interrupted (lose : T → T → Prop) (id : EnvID) (workspace : Option Path) (s t : Pool T) :
    Prop :=
  Stops (removeSubvolumes id workspace) s t ∨
    (removeSubvolumes id workspace s).result = .ok () ∧
      Relation.ReflTransGen (Unlink lose id) (removeSubvolumes id workspace s).final t

end Fern

/-
What happens to a pool over time.

Callers make requests one after another.  A request ends, with or without an error, or is
stopped between two of its operations.  In between, others change what is theirs: T3 the
worktrees, and boxes the workspaces and Claude's folders of the environments they run.
-/
import Mathlib.Logic.Relation
import Fern.Store.Calls

namespace Fern

open Call

variable {T : Type}

/-- A call of the store. -/
inductive Request (T : Type) where
  | create (id : EnvID) (opts : CreateOptions T)
  | delete (id : EnvID)
  | snapshot (id : EnvID) (snap : SnapID)
  | deleteSnapshot (id : EnvID) (snap : SnapID)
  | restore (id : EnvID) (snap : SnapID)
  | buildSource (id : EnvID) (src : SnapshotRef)
  | reconcile

namespace Request

/-- The environment a request is for; `Reconcile` is for all of them. -/
def env? : Request T → Option EnvID
  | create id _ => some id
  | delete id => some id
  | snapshot id _ => some id
  | deleteSnapshot id _ => some id
  | restore id _ => some id
  | buildSource id _ => some id
  | reconcile => none

/-- What a request runs. -/
def call [Tree T] : Request T → StoreM T Unit
  | create id opts => do
    let _ ← Create id opts
    pure ()
  | delete id => Delete id
  | snapshot id snap => Snapshot id snap
  | deleteSnapshot id snap => DeleteSnapshot id snap
  | restore id snap => Restore id snap
  | buildSource id src => BuildSource id src
  | reconcile => do
    let _ ← Reconcile
    pure ()

end Request

/-- A pool that has just been made: no rows, and no environment has a directory. -/
def Pool.Fresh (s : Pool T) : Prop :=
  s.index = Index.empty ∧ ∀ p, p.env? ≠ none → s.node p = none

/-- The paths others may change: worktrees, the directories they are in, and, of an
environment with a row, the workspace in its directory and Claude's folder. -/
def Pool.Outer (s : Pool T) : Path → Prop
  | .repo _ => True
  | .worktree _ _ => True
  | .live id => s.env? id ≠ none
  | .claude id => s.env? id ≠ none
  | _ => False

/-- What others may change between two calls.  Neither the subvolume at a `live` nor Claude's
folder itself can go: their parent is root's. -/
structure Outside (s t : Pool T) : Prop where
  index : t.index = s.index
  clock : t.clock = s.clock
  ticks : t.ticks = s.ticks
  node : ∀ p, ¬ s.Outer p → t.node p = s.node p
  live : ∀ id, (∀ tree nested, s.node (.live id) = some (.subvol tree nested) →
    ∃ tree' nested', t.node (.live id) = some (.subvol tree' nested')) ∧
    (s.node (.live id) = none → t.node (.live id) = none)
  claude : ∀ id tree, s.node (.claude id) = some (.plain tree) →
    ∃ tree', t.node (.claude id) = some (.plain tree')

/-- One step of a history whose requests all meet `ok`. -/
inductive Step [Tree T] (ok : Pool T → Request T → Prop) : Pool T → Pool T → Prop
  /-- A request ends, with or without an error. -/
  | ends {s : Pool T} (r : Request T) (h : ok s r) : Step ok s (r.call s).final
  /-- A request is stopped. -/
  | stops {s t : Pool T} (r : Request T) (h : ok s r) (ht : Stops r.call s t) : Step ok s t
  /-- Others make a change. -/
  | outside {s t : Pool T} (h : Outside s t) : Step ok s t

/-- A state some history leads to. -/
def Reached [Tree T] (ok : Pool T → Request T → Prop) (t : Pool T) : Prop :=
  ∃ s, s.Fresh ∧ Relation.ReflTransGen (Step ok) s t

/-- What holds of a fresh pool and is kept by each step holds of every state reached. -/
theorem Reached.invariant [Tree T] {ok : Pool T → Request T → Prop} {I : Pool T → Prop}
    (hfresh : ∀ s, s.Fresh → I s) (hstep : ∀ s t, I s → Step ok s t → I t) {t : Pool T}
    (h : Reached ok t) : I t := by
  obtain ⟨s, hs, hrun⟩ := h
  induction hrun with
  | refl => exact hfresh s hs
  | tail _ hst ih => exact hstep _ _ ih hst

/-! ### A pool to run -/

/-- Trees as the names of their files, copied in order. -/
instance : Tree (List String) where
  empty := []
  isEmpty := List.isEmpty
  overlay golden tree := golden ++ tree
  between _ tree := tree.inits

/-- A fresh pool whose clock reads a second more each time. -/
def Pool.new : Pool (List String) where
  disk := .empty
  index := .empty
  full := false
  gitDir := fun _ => .ok ""
  clock := fun k => k * second
  ticks := 0

theorem Pool.new_fresh : Pool.new.Fresh := ⟨rfl, fun _ _ => rfl⟩

end Fern

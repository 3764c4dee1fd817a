/-
Goldens: the merge of a worktree onto one.

A new environment's workspace is a copy of a golden with the worktree's files over it.  Both are
reached through roots, so that no symbolic link leads the copy out of them.  What a new entry's
attributes are before they are set, and what a change of its owner makes of its mode, is left to the
system.
-/
import Fern.Lib.FileTree

namespace Fern

namespace Overlay

/-- What the system gives a new entry, and a mode whose owner is changed. -/
structure System where
  newAttrs : Nat → FileTree.Path → FileTree.Attrs
  newOwner : FileTree.Path → Nat × Nat
  chowned : Nat → Nat

/-- `Lchown` on what is there. -/
def chown (sys : System) (uid gid : Nat) : FileTree.Node → FileTree.Node
  | .dir a => .dir ⟨uid, gid, sys.chowned a.mode⟩
  | .file a data => .file ⟨uid, gid, sys.chowned a.mode⟩ data
  | .link _ _ target => .link uid gid target

/-- `Chmod` on what is there. -/
def chmod (mode : Nat) : FileTree.Node → FileTree.Node
  | .dir a => .dir { a with mode := mode }
  | .file a data => .file { a with mode := mode } data
  | .link uid gid target => .link uid gid target

/-- `IoctlFileClone`. -/
def clone (data : Bytes) : FileTree.Node → FileTree.Node
  | .file a _ => .file a data
  | node => node

/-- The owner and the mode of an entry; a link's mode isn't set. -/
def ownerOf : FileTree.Node → Nat × Nat
  | .dir a => (a.uid, a.gid)
  | .file a _ => (a.uid, a.gid)
  | .link uid gid _ => (uid, gid)

/-- `setAttrs`. -/
def setAttrs (sys : System) (root : FileTree.Root) (rel : FileTree.Path) (fi : FileTree.Node) :
    Except FileTree.Errno FileTree.Root := do
  let root ← root.change rel (chown sys (ownerOf fi).1 (ownerOf fi).2)
  match fi with
  | .dir a => root.change rel (chmod a.mode)
  | .file a _ => root.change rel (chmod a.mode)
  | .link _ _ _ => return root

/-- The two roots. -/
structure Roots where
  dst : FileTree.Root
  src : FileTree.Root

/-- `overlay`'s directory: one that the build made is kept, anything else replaced. -/
def overlayDir (sys : System) (dst : FileTree.Root) (rel : FileTree.Path) (perm : Nat) :
    Except FileTree.Errno FileTree.Root :=
  match dst.create rel (.dir (sys.newAttrs perm rel)) with
  | .ok dst => .ok dst
  | .error .exist => do
    let cur ← dst.lstat rel
    if cur.1.isDir then return cur.2
    else
      let dst ← cur.2.removeAll rel
      dst.create rel (.dir (sys.newAttrs perm rel))
  | .error e => .error e

/-- `cloneFile`. -/
def cloneFile (sys : System) (dst : FileTree.Root) (rel : FileTree.Path) (perm : Nat)
    (data : Bytes) : Except FileTree.Errno FileTree.Root := do
  let dst ← dst.removeAll rel
  let dst ← dst.create rel (.file (sys.newAttrs perm rel) [])
  dst.change rel (clone data)

/-- `overlay` at one path of the worktree. -/
def overlayOne (sys : System) (s : Roots) (rel : FileTree.Path) : Except FileTree.Errno Roots := do
  let found ← s.src.lstat rel
  match found.1 with
  | .dir a => do
    let dst ← overlayDir sys s.dst rel a.mode
    let dst ← setAttrs sys dst rel found.1
    return ⟨dst, found.2⟩
  | .link _ _ target => do
    let dst ← s.dst.removeAll rel
    let dst ← dst.create rel (.link (sys.newOwner rel).1 (sys.newOwner rel).2 target)
    let dst ← setAttrs sys dst rel found.1
    return ⟨dst, found.2⟩
  | .file a data => do
    let dst ← cloneFile sys s.dst rel a.mode data
    let dst ← setAttrs sys dst rel found.1
    return ⟨dst, found.2⟩

/-- `overlay`. -/
def overlay (sys : System) (golden worktree : FileTree.Nodes) : Except FileTree.Errno Roots :=
  (FileTree.walk worktree).foldlM (overlayOne sys) ⟨⟨golden, []⟩, ⟨worktree, []⟩⟩

end Overlay

end Fern

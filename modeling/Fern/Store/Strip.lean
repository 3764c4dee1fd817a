/-
Goldens: the source that a build is given, and its strip.

A builder's workspace is a copy of a checkout, and a list has the checkout's files.  The build does
what it likes in the workspace.  What is listed is then removed, through a root; that a listed path
has nothing any more, or a directory that holds something, is no error.
-/
import Fern.Lib.FileTree

namespace Fern

namespace Strip

/-! ### The list -/

/-- What ends a path in the list. -/
def nul : Char := '\x00'

/-- A path as the list has it. -/
def relText (p : FileTree.Path) : List Char := ['/'].intercalate (p.map String.toList)

/-- A checkout's files and links, in the order of the walk. -/
def listed (checkout : FileTree.Nodes) : List FileTree.Path :=
  (FileTree.walk checkout).filter fun p => !FileTree.isDirAt checkout p

/-- `listSource`. -/
def listSource (checkout : FileTree.Nodes) : List Char :=
  (listed checkout).flatMap fun p => relText p ++ [nul]

/-- The parts never lead above where they begin; `depth` is how far below they have come. -/
def staysBelow : Nat → List (List Char) → Bool
  | _, [] => true
  | depth, part :: rest =>
    if part = [] || part = ['.'] then staysBelow depth rest
    else if part = ['.', '.'] then depth ≠ 0 && staysBelow (depth - 1) rest
    else staysBelow (depth + 1) rest

/-- `filepath.IsLocal`. -/
def isLocal (rel : List Char) : Bool :=
  rel ≠ [] && rel.head? ≠ some '/' && staysBelow 0 (rel.splitOn '/')

/-! ### The builder -/

/-- A builder environment: its source list, if there is one, and its workspace. -/
structure Builder where
  list : Option (List Char)
  workspace : FileTree.Root

/-- `BuildSource`. -/
def Builder.buildSource (_ : Builder) (checkout : FileTree.Nodes) : Builder where
  list := some (listSource checkout)
  workspace := { nodes := checkout }

/-- `root.Remove`. -/
def remove (root : FileTree.Root) (rel : List Char) : Except FileTree.Errno FileTree.Root :=
  match FileTree.targetParts (String.ofList rel) with
  | none => .error .escapes
  | some parts => root.remove parts

def isNotEmpty (e : FileTree.Errno) : Bool := e = .notempty || e = .exist

/-- `StripSource` at one path of the list; the error names it. -/
def stripOne (root : FileTree.Root) (rel : List Char) :
    Except (List Char × FileTree.Errno) FileTree.Root :=
  if rel = [] || !isLocal rel then .ok root
  else
    match remove root rel with
    | .ok root => .ok root
    -- a build may have replaced a file with a directory; then it is the build's
    | .error e => if e = .noent || isNotEmpty e then .ok root else .error (rel, e)

/-- `StripSource`. -/
def Builder.stripSource (b : Builder) : Except (List Char × FileTree.Errno) Builder :=
  match b.list with
  | none => .ok b
  | some data => do
    let root ← (data.splitOn nul).foldlM stripOne b.workspace
    return { list := none, workspace := root }

/-- The build leaves `build` in the workspace. -/
def Builder.built (b : Builder) (build : FileTree.Nodes) : Builder :=
  { b with workspace := { nodes := build } }

end Strip

end Fern

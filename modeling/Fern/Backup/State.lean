/-
The archive of the state around the workspaces.

T3's folder, the repositories and the Claude folders go into a tar file, T3's databases as
SQLite copies them.  Two walks decide what is in it: `copyDatabases` picks the databases, and
`addTree` leaves out what belongs to one.  What a walk finds is a list of items to add; adding
one can fail at each of its steps, and a file may have become shorter since its header was
written.
-/
import Mathlib.Data.List.Basic
import Fern.Backup.Crypt

namespace Fern

/-! ### Trees -/

/-- What is at a path. -/
inductive FileKind where
  | dir
  | symlink (target : String)
  | regular (data : Bytes)
  /-- A socket, a pipe or a device. -/
  | other
  deriving DecidableEq, Repr

/-- What is in a folder: each entry with what is in it, which is nothing unless it is a
folder. -/
inductive Forest where
  | nil
  | cons (name : String) (kind : FileKind) (inside rest : Forest)

namespace Forest

/-- The names in a folder. -/
def names : Forest → List String
  | nil => []
  | cons name _ _ rest => name :: rest.names

/-- No folder has two entries of one name. -/
def Distinct : Forest → Prop
  | nil => True
  | cons name _ inside rest => name ∉ rest.names ∧ inside.Distinct ∧ rest.Distinct

end Forest

/-- A path below a folder: the names on the way. -/
abbrev RelPath := List String

/-- What `filepath.WalkDir` finds in a folder at `at'`, in order. -/
def walk (at' : RelPath) : Forest → List (RelPath × FileKind)
  | .nil => []
  | .cons name kind inside rest =>
    (at' ++ [name], kind) ::
      ((if kind = .dir then walk (at' ++ [name]) inside else []) ++ walk at' rest)

/-- The last name of a path. -/
def baseName (p : RelPath) : String := p.getLast?.getD ""

/-! ### Which files are databases -/

/-- `strings.HasSuffix`. -/
def hasSuffix (name suffix : String) : Bool := suffix.toList.isSuffixOf name.toList

/-- T3's lock on its state folder. -/
def lockFile : String := "server-owner.sqlite"

/-- The endings of what `addTree` takes for a part of a database. -/
def databaseSuffixes : List String :=
  [".sqlite", ".sqlite-journal", ".sqlite-wal", ".sqlite-shm", ".db", ".db-wal", ".db-shm"]

/-- `isDatabase`. -/
def isDatabase (name : String) : Bool := databaseSuffixes.any (hasSuffix name)

def FileKind.isRegular : FileKind → Bool
  | .regular _ => true
  | _ => false

/-- Whether `copyDatabases` copies what it finds. -/
def copied (p : RelPath) (kind : FileKind) : Bool :=
  kind.isRegular && (hasSuffix (baseName p) ".sqlite" || hasSuffix (baseName p) ".db") &&
    baseName p != lockFile

/-- One of its copies, with the path it is of. -/
def copyDatabase (vacuumInto : RelPath → Except IOErr Bytes) (f : RelPath × FileKind) :
    Except IOErr (RelPath × Bytes) :=
  (vacuumInto f.1).map (Prod.mk f.1)

/-- `copyDatabases`: the copies SQLite makes, by their paths, or the first error. -/
def copyDatabases (vacuumInto : RelPath → Except IOErr Bytes) (found : List (RelPath × FileKind)) :
    Except IOErr (List (RelPath × Bytes)) :=
  (found.filter fun f => copied f.1 f.2).mapM (copyDatabase vacuumInto)

/-! ### The archive -/

/-- What a tar header says. -/
structure TarHeader where
  name : RelPath
  kind : FileKind
  size : Nat

/-- Something to add: its header, and what comes of adding it. -/
structure TarItem where
  name : RelPath
  kind : FileKind
  /-- The size when the header was made. -/
  size : Nat
  /-- What a file holds when it is copied. -/
  content : Bytes := []
  /-- What fails before the header is written. -/
  before : Option IOErr := none
  /-- What fails opening a file after its header. -/
  opening : Option IOErr := none
  /-- What fails reading a file after `content`. -/
  reading : Option IOErr := none
  /-- Copied up to its size (`addTree`), not whole (`addFile`). -/
  limited : Bool

def TarItem.header (it : TarItem) : TarHeader := ⟨it.name, it.kind, it.size⟩

/-- `tar.Writer`. -/
structure TarWriter where
  out : Bytes := []
  /-- How much of the present entry is still to be written. -/
  left : Nat := 0
  /-- How much padding follows it. -/
  pad : Nat := 0

/-- The padding after an entry of `size`: to a whole block of 512. -/
def tarPadding (size : Nat) : Nat := (512 - size % 512) % 512

def tarZeros (n : Nat) : Bytes := List.replicate n 0

namespace TarWriter

/-- `tw.Flush`: the present entry must be whole. -/
def flush (w : TarWriter) : TarWriter × Option IOErr :=
  if 0 < w.left then (w, some (.other "archive/tar: missed writing bytes"))
  else ({ w with out := w.out ++ tarZeros w.pad, pad := 0 }, none)

/-- `tw.WriteHeader`. -/
def writeHeader (encode : TarHeader → Bytes) (w : TarWriter) (hdr : TarHeader) :
    TarWriter × Option IOErr :=
  match w.flush with
  | (w, some e) => (w, some e)
  | (w, none) =>
    let size := if hdr.kind.isRegular then hdr.size else 0
    ({ out := w.out ++ encode hdr, left := size, pad := tarPadding size }, none)

/-- `tw.Write`. -/
def write (w : TarWriter) (data : Bytes) : TarWriter × Option IOErr :=
  ({ w with out := w.out ++ data.take w.left, left := w.left - data.length },
    if w.left < data.length then some (.other "archive/tar: write too long") else none)

/-- `tw.Close`. -/
def close (w : TarWriter) : TarWriter × Option IOErr :=
  match w.flush with
  | (w, some e) => (w, some e)
  | (w, none) => ({ w with out := w.out ++ tarZeros 1024 }, none)

/-- `io.Copy` of what `it` holds: the end of a file is no error. -/
def copyAll (w : TarWriter) (it : TarItem) : TarWriter × Option IOErr :=
  match w.write it.content with
  | (w, some e) => (w, some e)
  | (w, none) => (w, it.reading.filter (· ≠ .eof))

/-- `io.CopyN` of what `it` holds, up to its size: a file with less ends with `io.EOF`. -/
def copyN (w : TarWriter) (it : TarItem) : TarWriter × Option IOErr :=
  match w.write (it.content.take it.size) with
  | (w, some e) => (w, some e)
  | (w, none) => (w, if it.size ≤ it.content.length then none else some (it.reading.getD .eof))

/-- Add one item: `addFile`, or a step of `addTree`. -/
def add (encode : TarHeader → Bytes) (w : TarWriter) (it : TarItem) : TarWriter × Option IOErr :=
  match it.before with
  | some e => (w, some e)
  | none =>
    match w.writeHeader encode it.header with
    | (w, some e) => (w, some e)
    | (w, none) =>
      if !it.kind.isRegular then (w, none)
      else
        match it.opening with
        | some e => (w, some e)
        | none => if it.limited then w.copyN it else w.copyAll it

/-- Add items until one fails. -/
def addItems (encode : TarHeader → Bytes) (w : TarWriter) :
    List TarItem → TarWriter × Option IOErr
  | [] => (w, none)
  | it :: items =>
    match w.add encode it with
    | (w, some e) => (w, some e)
    | (w, none) => w.addItems encode items

end TarWriter

/-- `writeState` of what it found to add: what it wrote, and its error. -/
def writeState (encode : TarHeader → Bytes) (items : List TarItem) : Bytes × Option IOErr :=
  match ({} : TarWriter).addItems encode items with
  | (w, some e) => (w.out, some e)
  | (w, none) => (w.close.1.out, w.close.2)

/-! ### What is added -/

/-- What `addTree` adds for one thing it finds in a tree that doesn't change; with `skipDBs`,
nothing that looks like a part of a database. -/
def treeItem (skipDBs : Bool) (f : RelPath × FileKind) : Option TarItem :=
  if skipDBs && isDatabase (baseName f.1) then none
  else
    match f.2 with
    | .other => none
    | .regular data =>
      some { name := f.1, kind := f.2, size := data.length, content := data, limited := true }
    | _ => some { name := f.1, kind := f.2, size := 0, limited := true }

def treeItems (skipDBs : Bool) (found : List (RelPath × FileKind)) : List TarItem :=
  found.filterMap (treeItem skipDBs)

/-- What `addFile` adds of a copy. -/
def copyItem (p : RelPath) (copy : Bytes) : TarItem where
  name := p
  kind := .regular copy
  size := copy.length
  content := copy
  limited := false

/-- A folder that may not be there: what it is, and what is in it. -/
abbrev Folder := Option (FileKind × Forest)

/-- What a walk of `name` in `at'` finds. -/
def Folder.walk (at' : RelPath) (name : String) : Folder → List (RelPath × FileKind)
  | none => []
  | some (kind, inside) => Fern.walk at' (.cons name kind inside .nil)

/-- What is in T3's folder. -/
def t3Files (userdata : Folder) : List (RelPath × FileKind) := userdata.walk [] "userdata"

/-- What `addTree` finds to add of the other folders, which may change meanwhile. -/
structure OtherItems where
  repos : List TarItem
  projects : List TarItem
  claudes : List TarItem
  repos_below : ∀ it ∈ repos, it.name.head? = some "repos"
  projects_below : ∀ it ∈ projects, it.name.head? = some "projects"
  claudes_below : ∀ it ∈ claudes, it.name.head? = some "envs"

/-- What `writeState` adds: the index, T3's folder, the other folders of `stateDirs`, the copies
of T3's databases and the Claude folders. -/
def stateItems (index : Bytes) (t3 : List (RelPath × FileKind)) (t3dbs : List (RelPath × Bytes))
    (others : OtherItems) : List TarItem :=
  copyItem ["fern.sqlite"] index :: (treeItems true t3 ++ (others.repos ++ (others.projects ++
    (t3dbs.map (fun c => copyItem c.1 c.2) ++ others.claudes))))

/-- What an item leaves in the archive. -/
def TarItem.entry (it : TarItem) : RelPath × FileKind :=
  (it.name, if it.kind.isRegular then .regular (it.content.take it.size) else it.kind)

/-- The archive that holds all of `items` whole. -/
def archiveOf (encode : TarHeader → Bytes) (items : List TarItem) : Bytes :=
  items.flatMap (fun it =>
    let size := if it.kind.isRegular then it.size else 0
    encode it.header ++ it.content.take size ++ tarZeros (tarPadding size)) ++ tarZeros 1024

end Fern

/-
Images, as `image.go` loads them.

A stream as `docker save` writes it is staged in a temporary folder; each of its images is unpacked
in another and renamed to its ID, and each of its tags becomes a link to it.  Every operation on the
directory of images may fail, and a load may be stopped between any two.  How JSON is read, what a
layer does to a root and which random names are drawn is left open.
-/
import Mathlib.Data.List.SplitOn
import Fern.Lib.Call
import Fern.Lib.Cut
import Fern.Lib.FinMap
import Fern.Lib.Text

namespace Fern

namespace Image

/-! ### Names -/

/-- A path relative to a folder, by its parts. -/
abbrev Parts := List String

/-- `clean`: `path.Clean` of the name below `/`; the root itself is none. -/
def clean (name : String) : Option Parts :=
  let parts := (name.toList.splitOn '/').foldl (fun parts p =>
    if p = [] ∨ p = ['.'] then parts
    else if p = ['.', '.'] then parts.dropLast
    else parts ++ [String.ofList p]) []
  if parts = [] then none else some parts

/-- `tagName`. -/
def tagName (tag : String) : String :=
  String.ofList ((trimStart "localhost/".toList tag.toList).map fun c => if c = '/' then '_' else c)

/-- `stagePrefix`. -/
def stagePrefix : String := ".load-"

/-- `unpackPrefix`. -/
def unpackPrefix : String := ".unpack-"

/-- The name of a leftover of a load that stopped. -/
def isLeftover (name : String) : Bool :=
  stagePrefix.toList.isPrefixOf name.toList || unpackPrefix.toList.isPrefixOf name.toList

/-- A hex digit. -/
def isHex (c : Char) : Bool := c.isDigit || ('a' ≤ c && c ≤ 'f') || ('A' ≤ c && c ≤ 'F')

/-- `isID`: 64 hex digits. -/
def isID (name : String) : Bool := name.toList.length == 64 && name.toList.all isHex

/-! ### The directory -/

/-- A folder: its files (`none` is a folder among them) and, of an image, its root. -/
structure Folder (ρ : Type) where
  files : FinMap Parts (Option Bytes) := .empty
  root : Option ρ := none

inductive Entry (ρ : Type) where
  | folder (f : Folder ρ)
  | link (target : String)
  | other

/-- The directory of images, whether the load under way has begun to prune, and how many images and
tags loads have renamed into place. -/
structure Images (ρ : Type) where
  dir : FinMap String (Entry ρ)
  pruning : Bool := false
  renames : Nat := 0

/-- An operation on the directory. -/
inductive Op (ρ : Type) where
  | removeAll (name : String)
  | mkdirTemp (name : String)
  | mkdirAll (tmp : String) (dir : Parts)
  | write (tmp : String) (name : Parts) (data : Bytes)
  /-- The root of the image unpacked in `tmp` is `root`. -/
  | root (tmp : String) (root : ρ)
  | rename (tmp id : String)
  | symlink (id tmp : String)
  | renameLink (tmp tag : String)
  /-- `prune` begins. -/
  | prune

/-- Nothing is in the folder. -/
def Folder.isEmpty {ρ : Type} (f : Folder ρ) : Bool := f.files.keys.isEmpty && f.root.isNone

/-- `MkdirAll` in a folder. -/
def Folder.mkdirAll {ρ : Type} (f : Folder ρ) (dir : Parts) : Except String (Folder ρ) :=
  dir.inits.tail.foldlM (fun f d =>
    match f.files.get d with
    | none => .ok { f with files := f.files.set d none }
    | some none => .ok f
    | some (some _) => .error "not a directory") f

/-- A new file in a folder. -/
def Folder.write {ρ : Type} (f : Folder ρ) (name : Parts)
    (data : Bytes) : Except String (Folder ρ) :=
  match f.files.get name with
  | none => .ok { f with files := f.files.set name (some data) }
  | some _ => .error "file exists"

namespace Images

variable {ρ : Type} (s : Images ρ)

def setEntry (name : String) (e : Entry ρ) : Images ρ := { s with dir := s.dir.set name e }

def eraseEntry (name : String) : Images ρ := { s with dir := s.dir.erase name }

/-- An entry is renamed to `name`; under a leftover's name it isn't counted. -/
def place (name : String) (e : Entry ρ) : Images ρ :=
  { s.setEntry name e with renames := s.renames + if isLeftover name then 0 else 1 }

/-- Change the folder `tmp`. -/
def inFolder (tmp : String) (change : Folder ρ → Except String (Folder ρ)) :
    Except String (Images ρ) :=
  match s.dir.get tmp with
  | some (.folder f) => (change f).map fun f => s.setEntry tmp (.folder f)
  | _ => .error "no such file or directory"

end Images

/-- What an operation does. -/
def Op.run {ρ : Type} (s : Images ρ) : Op ρ → Except String (Images ρ)
  | .removeAll name => .ok (s.eraseEntry name)
  | .mkdirTemp name =>
    match s.dir.get name with
    | none => .ok (s.setEntry name (.folder {}))
    | some _ => .error "file exists"
  | .mkdirAll tmp dir => s.inFolder tmp fun f => f.mkdirAll dir
  | .write tmp name data => s.inFolder tmp fun f => f.write name data
  | .root tmp r => s.inFolder tmp fun f => .ok { f with root := some r }
  | .rename tmp id =>
    match s.dir.get tmp with
    | some (.folder f) =>
      -- a folder takes the place of an empty one only
      match s.dir.get id with
      | none => .ok ((s.eraseEntry tmp).place id (.folder f))
      | some (.folder g) =>
        if g.isEmpty then .ok ((s.eraseEntry tmp).place id (.folder f))
        else .error "directory not empty"
      | some _ => .error "not a directory"
    | _ => .error "no such file or directory"
  | .symlink id tmp =>
    match s.dir.get tmp with
    | none => .ok (s.setEntry tmp (.link id))
    | some _ => .error "file exists"
  | .renameLink tmp tag =>
    match s.dir.get tmp with
    | some (.link id) =>
      match s.dir.get tag with
      | some (.folder _) => .error "file exists"
      | _ =>
        -- these name the directory and the one above
        if tag = "" ∨ tag = "." ∨ tag = ".." then .error "file exists"
        else .ok ((s.eraseEntry tmp).place tag (.link id))
    | _ => .error "no such file or directory"
  | .prune => .ok { s with pruning := true }

/-! ### Streams -/

/-- `manifest`. -/
structure Manifest where
  config : String
  repoTags : List String
  layers : List String
  deriving DecidableEq, Repr

/-- A file of the stream; `cut` is one whose data ends too early. -/
structure TarFile where
  name : String
  regular : Bool := true
  data : Bytes := []
  cut : Bool := false

/-- A stream, and the error it ends with, if any. -/
structure ImageStream where
  files : List TarFile
  ending : Option String := none

/-- `Image`; its root is the folder `root` of its ID's. -/
structure Loaded where
  id : String
  env : List String
  deriving DecidableEq, Repr

/-- What a load is given beside the stream. -/
structure Host (ρ : Type) where
  /-- The SHA-256 of a config, in hex. -/
  sha : Bytes → String
  isID_sha : ∀ data, isID (sha data) = true
  manifests : Bytes → Except String (List Manifest)
  /-- The environment in a config. -/
  config : Bytes → Except String (List String)
  /-- The root before the first layer. -/
  bare : ρ
  /-- The roots that applying a layer passes through, and the error it ends with, if any. -/
  layer : ρ → Bytes → List ρ × Option String
  /-- Go's `%q`. -/
  quote : String → String
  /-- The random text drawn. -/
  text : Images ρ → String
  /-- The operations that fail, whatever the reason. -/
  fault : Op ρ → Images ρ → Option String

abbrev ImageM (ρ : Type) := Call (Images ρ) (Op ρ) String

open Call

variable {ρ : Type} (host : Host ρ)

/-! ### Calls -/

def op (o : Op ρ) : ImageM ρ Unit := perform o fun s =>
  match host.fault o s with
  | some e => .error e
  | none => o.run s

/-- The error of `c` with `text` before it. -/
def wrap {α : Type} (text : String) (c : ImageM ρ α) : ImageM ρ α := do
  match ← attempt c with
  | .ok a => pure a
  | .error e => fail (text ++ e)

/-- `c`, and then the folder `tmp` is removed, however `c` ends. -/
def thenRemove {α : Type} (tmp : String) (c : ImageM ρ α) : ImageM ρ α := do
  let r ← attempt c
  let _ ← attempt (op host (.removeAll tmp))
  match r with
  | .ok a => pure a
  | .error e => fail e

/-- `os.MkdirTemp`. -/
def mkdirTemp (start : String) : ImageM ρ String := do
  let tmp := start ++ host.text (← read)
  op host (.mkdirTemp tmp)
  pure tmp

/-- `clearLeftovers`. -/
def clearLeftovers : ImageM ρ Unit := do
  let s ← read
  each (fun name => op host (.removeAll name)) (s.dir.keys.filter isLeftover)

/-- `os.ReadFile` of a file in the folder `tmp`. -/
def readFile (tmp : String) (name : Parts) : ImageM ρ Bytes := do
  match (← read).dir.get tmp with
  | some (.folder f) =>
    match f.files.get name with
    | some (some data) => pure data
    | some none => fail "is a directory"
    | none => fail "no such file or directory"
  | _ => fail "no such file or directory"

/-- One round of `extract`. -/
def extractFile (stage : String) (f : TarFile) : ImageM ρ Unit :=
  match clean f.name with
  | none => pure ()
  | some name =>
    if f.regular then do
      op host (.mkdirAll stage name.dropLast)
      op host (.write stage name f.data)
      if f.cut then fail "unexpected EOF" else pure ()
    else pure ()

/-- `extract`. -/
def extract (stage : String) (r : ImageStream) : ImageM ρ Unit := do
  each (extractFile host stage) r.files
  match r.ending with
  | none => pure ()
  | some e => fail e

/-- The folder `name` is, or leads to over at most `n` links. -/
def Images.folderAt (s : Images ρ) : Nat → String → Option (Folder ρ)
  | 0, _ => none
  | n + 1, name =>
    match s.dir.get name with
    | some (.folder f) => some f
    | some (.link target) => s.folderAt n target
    | _ => none

/-- `read`. -/
def readImage (id : String) : ImageM ρ Loaded := do
  match ((← read).folderAt 41 id).map fun f => f.files.get ["config.json"] with
  | some (some (some data)) =>
    match host.config data with
    | .ok env => pure ⟨id, env⟩
    | .error e => fail ("image " ++ id ++ ": config: " ++ e)
  | _ => fail ("image " ++ id ++ ": no such file or directory")

/-- A layer of the image unpacked in `tmp`. -/
def unpackLayer (stage tmp id : String) (root : ρ) (l : String) : ImageM ρ ρ :=
  match clean l with
  | none => fail ("manifest.json: bad layer path " ++ host.quote l)
  | some name => wrap ("image " ++ id ++ ": layer " ++ l ++ ": ") do
    let data ← readFile stage name
    let (roots, err) := host.layer root data
    each (fun r => op host (.root tmp r)) roots
    match err with
    | none => pure (roots.getLast?.getD root)
    | some e => fail e

/-- The rest of `unpack`, for an image that isn't there. -/
def unpackNew (stage id : String) (cfg : Bytes) (layers : List String) : ImageM ρ Loaded := do
  let tmp ← mkdirTemp host unpackPrefix
  thenRemove host tmp do
    op host (.root tmp host.bare)
    let _ ← eachWith (unpackLayer host stage tmp id) host.bare layers
    op host (.write tmp ["config.json"] cfg)
    op host (.rename tmp id)
    readImage host id

/-- `unpack`. -/
def unpack (stage : String) (m : Manifest) : ImageM ρ Loaded :=
  match clean m.config with
  | none => fail ("manifest.json: bad config path " ++ host.quote m.config)
  | some cfgName => do
    let cfg ← wrap "image config: " (readFile stage cfgName)
    let id := host.sha cfg
    match ← attempt (readImage host id) with
    | .ok img => pure img
    | .error _ => unpackNew host stage id cfg m.layers

/-- `link`. -/
def link (id tag : String) : ImageM ρ Unit := do
  let tmp := stagePrefix ++ "link-" ++ host.text (← read)
  op host (.symlink id tmp)
  match ← attempt (op host (.renameLink tmp tag)) with
  | .ok () => pure ()
  | .error e => do
    let _ ← attempt (op host (.removeAll tmp))
    fail e

/-- `os.Readlink`. -/
def Images.readlink (s : Images ρ) (name : String) : Option String :=
  match s.dir.get name with
  | some (.link target) => some target
  | _ => none

/-- What `Load` has gathered of the images so far. -/
structure Tally where
  keep : List String := []
  moved : Bool := false
  out : List Loaded := []

/-- A tag of image `id`. -/
def loadTag (id : String) (t : Tally) (tag : String) : ImageM ρ Tally := do
  match (← read).readlink (tagName tag) with
  | some prev =>
    if prev = id then pure t
    else do
      link host id (tagName tag)
      pure { t with keep := t.keep ++ [prev], moved := true }
  | none => do
    link host id (tagName tag)
    pure { t with moved := true }

/-- An image of the stream. -/
def loadImage (stage : String) (t : Tally) (m : Manifest) : ImageM ρ Tally := do
  let img ← unpack host stage m
  let t ← eachWith (loadTag host img.id) { t with keep := t.keep ++ [img.id] } m.repoTags
  pure { t with out := t.out ++ [img] }

/-- What the links in the directory lead to. -/
def Images.targets (s : Images ρ) : List String := s.dir.keys.filterMap s.readlink

def Images.isFolder (s : Images ρ) (name : String) : Bool :=
  match s.dir.get name with
  | some (.folder _) => true
  | _ => false

/-- `prune`. -/
def prune (keep : List String) : ImageM ρ Unit := do
  op host .prune
  let s ← read
  each (fun name => op host (.removeAll name)) (s.dir.keys.filter fun name =>
    s.isFolder name && !(keep ++ s.targets).contains name && isID name)

/-- The images of the staged stream. -/
def loadAll (stage : String) (ms : List Manifest) : ImageM ρ (List Loaded) := do
  let t ← eachWith (loadImage host stage) {} ms
  if t.moved then do
    prune host t.keep
    pure t.out
  else pure t.out

/-- `Load`. -/
def load (r : ImageStream) : ImageM ρ (List Loaded) := do
  clearLeftovers host
  let stage ← mkdirTemp host stagePrefix
  thenRemove host stage do
    wrap "read image stream: " (extract host stage r)
    let data ← wrap "read image stream: " (readFile stage ["manifest.json"])
    match host.manifests data with
    | .error e => fail ("manifest.json: " ++ e)
    | .ok ms => loadAll host stage ms

end Image

end Fern

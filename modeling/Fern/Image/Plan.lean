/-
What a load changes of what is seen.

Seen of the directory is all but the names of leftovers.  A load changes it in two ways only: a
whole image appears, and a tag points to another.  `plan` lists these changes, in order, as the
directory and the stream determine them; a load that stops has made the first ones of them.
-/
import Mathlib.Logic.Function.Basic
import Fern.Image.Load

namespace Fern

namespace Image

variable {ρ : Type}

/-- The entries by name. -/
abbrev View (ρ : Type) := String → Option (Entry ρ)

/-- A change that is seen. -/
inductive Change (ρ : Type) where
  /-- An image appears. -/
  | place (id : String) (f : Folder ρ)
  /-- A tag points to an image. -/
  | point (tag id : String)

namespace View

variable (V : View ρ)

def apply : Change ρ → View ρ
  | .place id f => Function.update V id (some (.folder f))
  | .point tag id => Function.update V tag (some (.link id))

def after (l : List (Change ρ)) : View ρ := l.foldl apply V

/-- What a tag points to. -/
def readlink (tag : String) : Option String :=
  match V tag with
  | some (.link target) => some target
  | _ => none

/-- A folder can be renamed to `id`. -/
def free (id : String) : Bool :=
  match V id with
  | none => true
  | some (.folder g) => g.isEmpty
  | some _ => false

end View

/-- The changes of an image's tags. -/
def tagChanges (id : String) : View ρ → List String → List (Change ρ)
  | _, [] => []
  | V, tag :: tags =>
    if isLeftover (tagName tag) ∨ V.readlink (tagName tag) = some id then tagChanges id V tags
    else .point (tagName tag) id :: tagChanges id (V.apply (.point (tagName tag) id)) tags

variable (host : Host ρ)

/-- The root the layers make, if each can be applied. -/
def rootOf (files : FinMap Parts (Option Bytes)) : ρ → List String → Option ρ
  | r, [] => some r
  | r, l :: ls =>
    match (clean l).bind fun name => (files.get name).join with
    | none => none
    | some data =>
      match host.layer r data with
      | (roots, none) => rootOf files (roots.getLast?.getD r) ls
      | (_, some _) => none

/-- An image's folder. -/
def imageFolder (cfg : Bytes) (r : ρ) : Folder ρ :=
  { files := FinMap.empty.set ["config.json"] (some cfg), root := some r }

/-- An image's ID, and its appearance if it isn't there, or nothing if it can't be unpacked. -/
def imagePlace (files : FinMap Parts (Option Bytes)) (V : View ρ) (m : Manifest) :
    Option (String × List (Change ρ)) :=
  match (clean m.config).bind fun name => (files.get name).join with
  | none => none
  | some cfg =>
    if V.free (host.sha cfg) then
      (rootOf host files host.bare m.layers).map fun r =>
        (host.sha cfg, [.place (host.sha cfg) (imageFolder cfg r)])
    else some (host.sha cfg, [])

/-- The changes of the images of a stream. -/
def planImages (files : FinMap Parts (Option Bytes)) : View ρ → List Manifest → List (Change ρ)
  | _, [] => []
  | V, m :: ms =>
    match imagePlace host files V m with
    | none => []
    | some (id, placed) =>
      let tags := tagChanges id (V.after placed) m.repoTags
      placed ++ tags ++ planImages files ((V.after placed).after tags) ms

/-- The stage with one more file. -/
def stageFile (f : Folder ρ) (t : TarFile) : Except String (Folder ρ) :=
  match clean t.name with
  | none => .ok f
  | some name =>
    if t.regular then do
      let f ← f.mkdirAll name.dropLast
      let f ← f.write name t.data
      if t.cut then .error "unexpected EOF" else .ok f
    else .ok f

/-- The manifests of a stream and its files, if it can be read. -/
def staged (r : ImageStream) : Option (FinMap Parts (Option Bytes) × List Manifest) :=
  match r.files.foldlM stageFile ({} : Folder ρ), r.ending with
  | .ok f, none =>
    match (f.files.get ["manifest.json"]).join with
    | none => none
    | some data =>
      match host.manifests data with
      | .ok ms => some (f.files, ms)
      | .error _ => none
  | _, _ => none

/-- **The changes a load makes, in order.** -/
def plan (V : View ρ) (r : ImageStream) : List (Change ρ) :=
  match staged host r with
  | none => []
  | some (files, ms) => planImages host files V ms

/-- All that is seen of the directory is `V`. -/
def Seen (V : View ρ) (s : Images ρ) : Prop :=
  ∀ name, isLeftover name = false → s.dir.get name = V name

/-- The images of a stream, as far as they can be unpacked. -/
def imageIDs (files : FinMap Parts (Option Bytes)) : View ρ → List Manifest → List String
  | _, [] => []
  | V, m :: ms =>
    match imagePlace host files V m with
    | none => []
    | some (id, placed) =>
      id :: imageIDs files ((V.after placed).after (tagChanges id (V.after placed) m.repoTags)) ms

def Change.isPoint : Change ρ → Bool
  | .point .. => true
  | .place .. => false

/-- What the tags that changes move pointed to before. -/
def prevs : View ρ → List (Change ρ) → List String
  | _, [] => []
  | V, .point tag id :: l => (V.readlink tag).toList ++ prevs (V.apply (.point tag id)) l
  | V, .place id f :: l => prevs (V.apply (.place id f)) l

/-- What each tag pointed to immediately before its last move, from what it was before the changes.
-/
def before : View ρ → (String → Option String) → List (Change ρ) → String → Option String
  | _, prev, [] => prev
  | V, prev, .point tag id :: l =>
    before (V.apply (.point tag id)) (Function.update prev tag (V.readlink tag)) l
  | V, prev, .place id f :: l => before (V.apply (.place id f)) prev l

def View.isFolder (V : View ρ) (name : String) : Bool :=
  match V name with
  | some (.folder _) => true
  | _ => false

/-- What a tag was last pointed to, after one more change. -/
def retarget (tag : String) (last : Option String) : Change ρ → Option String
  | .point t id => if t = tag then some id else last
  | .place .. => last

/-- What the last change of a tag pointed it to. -/
def lastTarget (tag : String) (l : List (Change ρ)) : Option String := l.foldl (retarget tag) none

end Image

end Fern

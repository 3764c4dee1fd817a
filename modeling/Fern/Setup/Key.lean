/-
The golden key: what a golden snapshot was built from.

It is a hash over the paths of the setup contract's files, each with the hash of its contents or
the word that it is missing.  Which files go in depends on what some of them say: `services.yaml`
lists more, and without it the files a guess reads do.
-/
import Fern.Setup.Guess

namespace Fern

namespace Setup

/-- `version`. -/
def version : Text := lit "fern-golden-2"

/-- What a golden build runs. -/
def contractFiles : List Text :=
  [lit "services.yaml", lit ".agents/setup", lit ".agents/prepare", lit ".fern/setup",
    lit ".fern/prepare"] ++ toolFiles

/-- What a golden build installs. -/
def lockFiles : List Text :=
  [lit "package-lock.json", lit "npm-shrinkwrap.json", lit "pnpm-lock.yaml", lit "yarn.lock",
    lit "bun.lock", lit "bun.lockb", lit "go.sum", lit "Cargo.lock", lit "uv.lock",
    lit "poetry.lock", lit "requirements.txt", lit "Gemfile.lock", lit "composer.lock"]

/-! ### Hashes -/

/-- SHA-256, of which only the length of what it gives is known. -/
structure Sha where
  sum : Bytes → Bytes
  length : ∀ b, (sum b).length = 32

def hexDigit (n : Nat) : UInt8 := if n < 10 then UInt8.ofNat (48 + n) else UInt8.ofNat (87 + n)

/-- `hex.EncodeToString`. -/
def hex (b : Bytes) : Text := b.flatMap fun x => [hexDigit (x.toNat / 16), hexDigit (x.toNat % 16)]

variable (sha : Sha) (d : Decoders) (read : Text → Except ReadErr Bytes)

/-- `fileSum`. -/
def fileSum (p : Text) : Except ReadErr Text :=
  match read p with
  | .error .notExist => .ok (lit "missing")
  | .error (.other text) => .error (.other text)
  | .ok data => .ok (hex (sha.sum data))

/-- The paths, each with its file's sum; an error names what the sums are for, and the path. -/
def fileSums (what : Text) : List Text → Except ReadErr (List (Text × Text))
  | [] => .ok []
  | p :: paths =>
    match fileSum sha read p with
    | .error .notExist => .error .notExist
    | .error (.other text) => .error (.other (what ++ p ++ lit ": " ++ text))
    | .ok sum =>
      match fileSums what paths with
      | .error e => .error e
      | .ok sums => .ok ((p, sum) :: sums)

/-- Texts, each with a NUL byte behind it. -/
def ended (texts : List Text) : Bytes := texts.flatMap fun x => x ++ [0]

/-- What is hashed of paths and sums. -/
def fields (sums : List (Text × Text)) : List Text := sums.flatMap fun s => [s.1, s.2]

/-- `ToolsKey`; empty if there are no tools. -/
def toolsKey : Except ReadErr Text :=
  match hasToolFiles read toolFiles with
  | .error e => .error e
  | .ok false =>
    match makeGuess d read with
    | .error e => .error e
    | .ok g => .ok ((g.tools.map fun tools => hex (sha.sum tools)).getD [])
  | .ok true =>
    match fileSums sha read (lit "tools: ") toolFiles with
    | .error e => .error e
    | .ok sums => .ok (hex (sha.sum (ended (fields sums))))

/-- The paths of `golden.inputs`, cleaned, unless one is outside the repository. -/
def cleanInputs : List Text → Except ReadErr (List Text)
  | [] => .ok []
  | p :: paths =>
    if d.isLocal (d.clean p) then
      match cleanInputs paths with
      | .error e => .error e
      | .ok cleaned => .ok (d.clean p :: cleaned)
    else
      .error (.other (lit "services.yaml: golden input " ++ d.quoted p ++
        lit " is outside the repository"))

/-- `goldenInputs`. -/
def goldenInputs : Except ReadErr (List Text) :=
  match read (lit "services.yaml") with
  | .error .notExist => .ok []
  | .error (.other text) => .error (.other text)
  | .ok data =>
    match d.inputs data with
    | .error text => .error (.other (lit "services.yaml: " ++ text))
    | .ok paths => cleanInputs d paths

/-- Why there is no key. -/
inductive KeyErr where
  /-- `ErrNoContract`. -/
  | noContract
  | failed (e : ReadErr)
  deriving DecidableEq, Repr

/-- The paths that go into a key, each once and in order. -/
def keyPaths (g : Guess) (inputs : List Text) : List Text :=
  compact (sortTexts (contractFiles ++ lockFiles ++ (if g.applies then g.inputs else []) ++ inputs))

/-- What is hashed for the key. -/
def keyText (image : Text) (sums : List (Text × Text)) : Bytes :=
  ended (version :: image :: fields sums)

/-- The first 16 hex digits of a hash. -/
def truncated (b : Bytes) : Text := (hex (sha.sum b)).take 16

/-- `Key`, of a checkout `c`. -/
def key (c : Checkout) (image : Text) : Except KeyErr Text :=
  match makeGuess d c.readFile with
  | .error e => .error (.failed e)
  | .ok g =>
    if !(contractFiles.any c.lstat) && !g.applies then .error .noContract
    else
      match goldenInputs d c.readFile with
      | .error e => .error (.failed e)
      | .ok inputs =>
        match fileSums sha c.readFile (lit "golden key: ") (keyPaths g inputs) with
        | .error e => .error (.failed e)
        | .ok sums => .ok (lit "golden-" ++ truncated sha (keyText image sums))

/-- `ServicesFile`: the file, or the guessed one, and whether it is guessed. -/
def servicesFile : Except ReadErr (Option Bytes × Bool) :=
  match read (lit "services.yaml") with
  | .ok data => .ok (some data, false)
  | .error (.other text) => .error (.other text)
  | .error .notExist =>
    match makeGuess d read with
    | .error e => .error e
    | .ok g => .ok (g.services, g.applies)

/-- `PreviewPort`: the port of the first service, by name, that has one; 0 means none. -/
def previewPort : Except ReadErr Int :=
  match servicesFile d read with
  | .error e => .error e
  | .ok (none, _) => .ok 0
  | .ok (some data, _) =>
    match d.ports data with
    | .error text => .error (.other (lit "services.yaml: " ++ text))
    | .ok ports =>
      let port? := (sortTexts ports.keys).findSome? fun name =>
        (ports.get name).filter fun p => 0 < p && p ≤ 65535
      .ok (port?.getD 0)

end Setup

end Fern

/-
A repository's setup contract, as far as Fern has to guess it.

A checkout is the agent's and is read as root, so every file is opened below the checkout and
without following a symlink.  `MakeGuess` reads a Node project's files and writes the
`services.yaml` and the mise config the repository doesn't have.  JSON and YAML are read and
quoted by libraries, which are parameters here: `Decoders`.
-/
import Mathlib.Data.List.Sort
import Fern.Lib.Text
import Fern.Lib.FinMap

namespace Fern

namespace Setup

/-- A string of the source: its bytes. -/
abbrev Text := Bytes

/-! ### Reading a checkout -/

/-- Why a file couldn't be read. -/
inductive ReadErr where
  /-- `fs.ErrNotExist`. -/
  | notExist
  | other (text : Text)
  deriving DecidableEq, Repr

/-- What is opened. -/
inductive Opened where
  | regular (data : Bytes)
  /-- A folder, a device or a pipe. -/
  | special
  deriving DecidableEq, Repr

/-- Why opening failed. -/
inductive OpenErr where
  | notExist
  /-- `ELOOP`, of the symlink that isn't followed. -/
  | loop
  | other (text : Text)
  deriving DecidableEq, Repr

/-- A checked out repository. -/
structure Checkout where
  /-- `OpenFile` below the checkout's root. -/
  openFile : Text → Except OpenErr Opened
  /-- `Lstat` finds something. -/
  lstat : Text → Bool
  /-- No file's name holds a NUL byte. -/
  nul : ∀ p, 0 ∈ p → openFile p = .error (.other (lit "invalid argument"))

/-- `maxFile`, in bytes. -/
def maxFile : Nat := 16 * 1024 * 1024

/-- `readFile`. -/
def Checkout.readFile (c : Checkout) (p : Text) : Except ReadErr Bytes :=
  match c.openFile p with
  | .error .notExist => .error .notExist
  | .error .loop => .error (.other (p ++ lit " is a symlink"))
  | .error (.other text) => .error (.other text)
  | .ok .special => .error (.other (p ++ lit " is not a regular file"))
  | .ok (.regular data) =>
    if maxFile < data.length then .error (.other (p ++ lit " is over 16 MiB"))
    else .ok (data.take maxFile)

/-! ### What the libraries do -/

/-- The part of a `package.json` that is read; an absent entry is empty. -/
structure Package where
  scripts : Text → Text
  dependencies : Text → Text
  devDependencies : Text → Text
  packageManager : Text
  enginesNode : Text

/-- A compose service's `environment`; a value that isn't a string is `none`. -/
inductive ComposeEnv where
  | map (vars : FinMap Text (Option Text))
  | list (items : List (Option Text))
  | other

/-- A compose file's service. -/
structure ComposeService where
  image : Text
  environment : ComposeEnv

/-- What the libraries make of a file, and of a text. -/
structure Decoders where
  /-- `json.Unmarshal` of a `package.json`, or its error. -/
  package : Bytes → Except Text Package
  /-- `yaml.Unmarshal` of a compose file: its services by name. -/
  compose : Bytes → Except Text (FinMap Text ComposeService)
  /-- `yaml.Unmarshal` of a `services.yaml`, for `golden.inputs`. -/
  inputs : Bytes → Except Text (List Text)
  /-- `yaml.Unmarshal` of a `services.yaml`, for its services' ports. -/
  ports : Bytes → Except Text (FinMap Text Int)
  /-- `filepath.Clean`. -/
  clean : Text → Text
  /-- `filepath.IsLocal`. -/
  isLocal : Text → Bool
  /-- `strings.TrimSpace`. -/
  trimSpace : Text → Text
  /-- `json.Marshal` of a string. -/
  quote : Text → Text
  /-- A string as `%q` prints it. -/
  quoted : Text → Text

/-- Texts in the order of their bytes. -/
def sortTexts (l : List Text) : List Text := l.insertionSort fun a b => ¬ b < a

/-! ### The tables -/

/-- How a framework's dev server is told its address, and the port it uses when it isn't. -/
structure Framework where
  pkg : Text := []
  args : Text := []
  port : Nat

def frameworks : List Framework :=
  [⟨lit "next", lit "-H 0.0.0.0 -p $PORT", 3000⟩,
    ⟨lit "nuxt", lit "--host 0.0.0.0 --port $PORT", 3000⟩,
    ⟨lit "astro", lit "--host 0.0.0.0 --port $PORT", 4321⟩,
    ⟨lit "vite", lit "--host 0.0.0.0 --port $PORT --strictPort", 5173⟩,
    ⟨lit "@tanstack/react-start", lit "--host 0.0.0.0 --port $PORT --strictPort", 3000⟩,
    ⟨lit "@sveltejs/kit", lit "--host 0.0.0.0 --port $PORT --strictPort", 5173⟩,
    ⟨lit "@react-router/dev", lit "--host 0.0.0.0 --port $PORT", 5173⟩]

/-- How a project installs and runs its scripts. -/
structure PackageManager where
  name : Text
  /-- The lockfile that names it. -/
  lock : Text
  install : Text
  /-- Without a lockfile. -/
  fresh : Text
  run : Text
  /-- Arguments to the script need `--`. -/
  dashdash : Bool
  /-- mise installs it. -/
  tool : Bool

def npm : PackageManager :=
  ⟨lit "npm", lit "package-lock.json", lit "npm install --prefer-offline --no-audit --no-fund",
    lit "npm install --prefer-offline --no-audit --no-fund", lit "npm run", true, false⟩

def packageManagers : List PackageManager :=
  [⟨lit "pnpm", lit "pnpm-lock.yaml", lit "pnpm install --frozen-lockfile --prefer-offline",
      lit "pnpm install --prefer-offline", lit "pnpm run", false, true⟩,
    ⟨lit "bun", lit "bun.lock", lit "bun install --frozen-lockfile", lit "bun install",
      lit "bun run", false, true⟩,
    ⟨lit "bun", lit "bun.lockb", lit "bun install --frozen-lockfile", lit "bun install",
      lit "bun run", false, true⟩,
    ⟨lit "yarn", lit "yarn.lock", lit "corepack yarn install", lit "corepack yarn install",
      lit "corepack yarn run", false, false⟩,
    npm]

/-- The compose files a guess looks for Postgres in. -/
def composeFiles : List Text :=
  [lit "docker-compose.yml", lit "docker-compose.yaml", lit "compose.yml", lit "compose.yaml"]

/-- The files a guess reads, at the repository's root. -/
def guessInputs : List Text :=
  [lit "package.json", lit ".nvmrc", lit ".node-version"] ++ composeFiles

/-- mise's files that pin a repository's tools. -/
def toolFiles : List Text :=
  [lit "mise.toml", lit ".mise.toml", lit ".tool-versions", lit ".config/mise.toml",
    lit ".config/mise/config.toml"]

/-! ### The guess -/

/-- A digit, a letter. -/
def isDigit (b : UInt8) : Bool := 48 ≤ b && b ≤ 57

def isAlnum (b : UInt8) : Bool := isDigit b || (65 ≤ b && b ≤ 90) || (97 ≤ b && b ≤ 122)

/-- `versionRE`: `^[0-9A-Za-z.\-]{1,32}$`. -/
def isVersion (v : Text) : Bool :=
  1 ≤ v.length && v.length ≤ 32 && v.all fun b => isAlnum b || b == 46 || b == 45

/-- `identifier`: `^[A-Za-z0-9_]{1,63}$`. -/
def isIdentifier (v : Text) : Bool :=
  1 ≤ v.length && v.length ≤ 63 && v.all fun b => isAlnum b || b == 95

/-- `firstNumber.FindString`. -/
def firstNumber (v : Text) : Text := (v.dropWhile fun b => !isDigit b).takeWhile isDigit

/-- `Guess`. -/
structure Guess where
  /-- A `services.yaml`; none if there is nothing to run. -/
  services : Option Text := none
  /-- A mise config for Node and the package manager. -/
  tools : Option Text := none
  /-- The files the guess read. -/
  inputs : List Text := []
  deriving DecidableEq

/-- Whether it holds what a repository without a contract doesn't. -/
def Guess.applies (g : Guess) : Bool := g.services.isSome

variable (d : Decoders) (read : Text → Except ReadErr Bytes)

/-- The file can be read. -/
def isThere (p : Text) : Bool :=
  match read p with
  | .ok _ => true
  | .error _ => false

/-- `pickPackageManager`: the one the field names, else the one whose lockfile is there, else npm;
and whether its lockfile is there. -/
def pickPackageManager (field : Text) : PackageManager × Bool :=
  let name := ((cutText (lit "@") field).map Prod.fst).getD field
  match packageManagers.find? fun pm => isThere read pm.lock && (name = [] || name = pm.name) with
  | some pm => (pm, true)
  | none => ((packageManagers.find? fun pm => pm.name = name).getD npm, false)

/-- The Node version a file names, if it does. -/
def versionIn (p : Text) : Option Text :=
  match read p with
  | .error _ => none
  | .ok data =>
    let v := trimStart (lit "v") (d.trimSpace data)
    if (lit "lts").isPrefixOf v || v = lit "node" then some (lit "lts")
    else if isVersion v then some v
    else none

/-- `nodeVersion`. -/
def nodeVersion (engines : Text) : Text :=
  match [lit ".nvmrc", lit ".node-version"].findSome? (versionIn d read) with
  | some v => v
  | none => if firstNumber engines = [] then lit "lts" else firstNumber engines

/-- The database a compose file runs. -/
structure Postgres where
  user : Text
  password : Text
  db : Text
  deriving DecidableEq

/-- One of a compose service's variables is set, its default for `${NAME:-default}`; a value that
couldn't be a plain name is dropped. -/
def setVar (env : Text → Text) (k val : Text) : Text → Text :=
  let val? :=
    if (lit "$\x7b").isPrefixOf val
      then (cutText (lit ":-") (trimEnd (lit "\x7d") val)).map Prod.snd
    else some val
  match val? with
  | some val => if isIdentifier val then Function.update env k val else env
  | none => env

/-- `composeEnv`; a variable that isn't set is empty. -/
def composeEnv : ComposeEnv → Text → Text
  | .map vars =>
    vars.keys.foldl
      (fun env k =>
        match vars.get k with
        | some (some val) => setVar env k val
        | _ => env)
      fun _ => []
  | .list items =>
    items.foldl
      (fun env item =>
        match item.bind (cutText (lit "=")) with
        | some (k, val) => setVar env k val
        | none => env)
      fun _ => []
  | .other => fun _ => []

/-- An empty text's default. -/
def orElse (v deflt : Text) : Text := if v = [] then deflt else v

/-- The Postgres that a service runs, if it is one. -/
def postgresOf (svc : ComposeService) : Option Postgres :=
  let image := afterLast 47 svc.image
  if (lit "postgres").isPrefixOf image || (lit "postgis").isPrefixOf image then
    let env := composeEnv svc.environment
    let user := orElse (env (lit "POSTGRES_USER")) (lit "postgres")
    some ⟨user, orElse (env (lit "POSTGRES_PASSWORD")) (lit "postgres"),
      orElse (env (lit "POSTGRES_DB")) user⟩
  else none

/-- `composePostgres`, in the files that are left. -/
def composePostgres : List Text → Except ReadErr (Option Postgres)
  | [] => .ok none
  | p :: files =>
    match read p with
    | .error .notExist => composePostgres files
    | .error (.other text) => .error (.other text)
    | .ok data =>
      match d.compose data with
      | .error text => .error (.other (p ++ lit ": " ++ text))
      | .ok services =>
        match (sortTexts services.keys).findSome? fun name =>
          (services.get name).bind postgresOf with
        | some pg => .ok (some pg)
        | none => composePostgres files

/-- `hasToolFiles`, of the files that are left. -/
def hasToolFiles : List Text → Except ReadErr Bool
  | [] => .ok false
  | p :: files =>
    match read p with
    | .error .notExist => hasToolFiles files
    | .error (.other text) => .error (.other (lit "tools: " ++ p ++ lit ": " ++ text))
    | .ok _ => .ok true

/-- `postgresRun`: Postgres with its data in the environment; once, the role and the database. -/
def postgresRun (pg : Postgres) : Text :=
  (lit "\n").intercalate
    [lit "set -e",
      lit "PGDATA=.fern/pg",
      lit ("if [ ! -s $PGDATA/PG_VERSION ]; then rm -rf $PGDATA; mkdir -p .fern; " ++
        "initdb --no-sync -D $PGDATA -U postgres --auth=trust >/dev/null; fi"),
      lit "rm -f $PGDATA/postmaster.pid",
      lit "postgres -D $PGDATA -k /tmp -c listen_addresses=127.0.0.1 &",
      lit ("if [ ! -e .fern/pg-ready ]; then until pg_isready -q -h 127.0.0.1; " ++
        "do sleep 0.2; done"),
      lit ("psql -q -h 127.0.0.1 -U postgres -c \"DO \\$\\$BEGIN IF NOT EXISTS " ++
          "(SELECT FROM pg_roles WHERE rolname = '") ++ pg.user ++
        lit "') THEN CREATE ROLE " ++ pg.user ++ lit " LOGIN SUPERUSER; END IF; END\\$\\$\"",
      lit ("(psql -q -h 127.0.0.1 -U postgres -tAc \"SELECT 1 FROM pg_database " ++
          "WHERE datname = '") ++ pg.db ++
        lit "'\" | grep -q 1 || createdb -h 127.0.0.1 -U postgres -O " ++ pg.user ++ lit " " ++
        pg.db ++ lit ")",
      lit "touch .fern/pg-ready; fi",
      lit "wait"]

/-- The framework whose package the project depends on, the first of them. -/
def frameworkOf (pkg : Package) : Framework :=
  (frameworks.find? fun f => pkg.dependencies f.pkg ≠ [] || pkg.devDependencies f.pkg ≠ []).getD
    { port := 3000 }

/-- What starts the dev server. -/
def webRun (pm : PackageManager) (locked : Bool) (fw : Framework) : Text :=
  let run := pm.run ++ lit " dev" ++
    if fw.args = [] then [] else (if pm.dashdash then lit " --" else []) ++ lit " " ++ fw.args
  (if locked then pm.install else pm.fresh) ++ lit " && exec " ++ run

/-- The guessed `services.yaml`. -/
def guessServices (web : Text) (pg : Option Postgres) (port : Nat) : Text :=
  let url := fun pg : Postgres =>
    lit "postgres://" ++ pg.user ++ lit ":" ++ pg.password ++ lit "@localhost:5432/" ++ pg.db
  let web := match pg with
    | some pg => lit "export DATABASE_URL=$\x7bDATABASE_URL:-" ++ url pg ++ lit "\x7d; " ++ web
    | none => web
  lit ("# Fern's guess, from package.json: this repository has no services.yaml.\n" ++
      "services:\n") ++
    (match pg with
      | some pg => lit "  postgres:\n    run: " ++ d.quote (postgresRun pg) ++
          lit ("\n    stop: pg_ctl stop -D .fern/pg -m fast\n" ++
            "    ready: test -e .fern/pg-ready && pg_isready -q -h 127.0.0.1\n")
      | none => []) ++
    lit "  web:\n    run: " ++ d.quote web ++ lit "\n    ready: " ++
    d.quote (lit "bash -c 'exec 3<>/dev/tcp/127.0.0.1/$PORT'") ++ lit "\n    port: " ++
    lit (Nat.repr port) ++ lit "\n"

/-- The guessed mise config. -/
def guessTools (pkg : Package) (pm : PackageManager) (node : Text) : Text :=
  let version :=
    match cutText (lit "@") pkg.packageManager with
    | some (name, rest) =>
      let v := ((cutText (lit "+") rest).map Prod.fst).getD rest
      if name = pm.name && isVersion v then v else lit "latest"
    | none => lit "latest"
  lit "# Fern's guess, from package.json.\n[tools]\nnode = " ++ d.quoted node ++ lit "\n" ++
    if pm.tool then pm.name ++ lit " = " ++ d.quoted version ++ lit "\n" else []

/-- The guess for a project with a dev script. -/
def guessOf (pkg : Package) : Except ReadErr Guess :=
  let (pm, locked) := pickPackageManager read pkg.packageManager
  let fw := frameworkOf pkg
  match composePostgres d read composeFiles with
  | .error e => .error e
  | .ok pg =>
    let services := guessServices d (webRun pm locked fw) pg fw.port
    let tools := guessTools d pkg pm (nodeVersion d read pkg.enginesNode)
    -- A repository that pins its own tools keeps them.
    match hasToolFiles read toolFiles with
    | .error e => .error e
    | .ok true => .ok ⟨some services, none, guessInputs⟩
    | .ok false => .ok ⟨some services, some tools, guessInputs⟩

/-- `MakeGuess`. -/
def makeGuess : Except ReadErr Guess :=
  match read (lit "services.yaml") with
  | .ok _ => .ok {}
  | .error (.other text) => .error (.other text)
  | .error .notExist =>
    match read (lit "package.json") with
    | .error .notExist => .ok {}
    | .error (.other text) => .error (.other text)
    | .ok data =>
      match d.package data with
      | .error text => .error (.other (lit "package.json: " ++ text))
      | .ok pkg => if pkg.scripts (lit "dev") = [] then .ok {} else guessOf d read pkg

end Setup

end Fern

/-
The IDs of the environments Fern makes for itself, and of forks.

A repository's builder is `golden-<name>-<hash>`, the source of a build ahead of the first worktree
has the builder's ID with `-src` behind it, and a fork its source's ID with `-fork-` and a number.
Whose an environment is, is told from its ID alone.
-/
import Fern.Backup.Manifest
import Fern.Lib.Text
import Fern.Lib.Utf8

namespace Fern

/-- `sourceSuffix`. -/
def sourceSuffix : List Char := ['-', 's', 'r', 'c']

/-- `BuilderOf`: the builder whose source environment `id` is. -/
def builderOf (id : EnvID) : Option EnvID :=
  if isBuilder id && sourceSuffix.isSuffixOf id.toList then
    some (String.ofList (id.toList.take (id.toList.length - sourceSuffix.length)))
  else none

/-- `forkInfix`. -/
def forkInfix : List Char := ['-', 'f', 'o', 'r', 'k', '-']

/-- `ForkID`. -/
def forkID (id : EnvID) (n : Nat) : EnvID :=
  String.ofList (id.toList ++ forkInfix ++ Nat.toDigits 10 n)

/-- `ForkOf`: the environment a fork was forked from, and its number. -/
def forkOf (fork : EnvID) : Option (EnvID × Nat) :=
  -- the last place of the infix is the first one from behind
  match cutText forkInfix.reverse fork.toList.reverse with
  | none => none
  | some (number, parent) =>
    let n := Nat.ofDigitChars 10 number.reverse 0
    if parent ≠ [] ∧ 1 ≤ n ∧ n < 9223372036854775808 ∧ Nat.toDigits 10 n = number.reverse then
      some (String.ofList parent.reverse, n)
    else none

/-- Without the dashes at its ends. -/
def trimDashes (l : List Char) : List Char :=
  ((l.dropWhile (· == '-')).reverse.dropWhile (· == '-')).reverse

/-- The readable part of a builder's ID. -/
def readable (lower : List Char → List Char) (repo : List Char) : List Char :=
  let name := trimDashes ((lower repo).map fun r => if labelChar r then r else '-')
  let name := if 30 < name.length then trimDashes (name.take 30) else name
  if name = [] then ['r', 'e', 'p', 'o'] else name

/-- `ID`: the environment that builds a repository's golden snapshots; `sum` is the first eight
digits of the name's hash. -/
def builderID (lower sum : List Char → List Char) (repo : List Char) : EnvID :=
  String.ofList (builderPrefix ++ readable lower repo ++ ['-'] ++ sum repo)

/-- `SourceID`. -/
def sourceID (lower sum : List Char → List Char) (repo : List Char) : EnvID :=
  String.ofList ((builderID lower sum repo).toList ++ sourceSuffix)

/-- `hex.EncodeToString`. -/
def hexText (b : Bytes) : List Char :=
  b.flatMap fun x => [Nat.digitChar (x.toNat / 16), Nat.digitChar (x.toNat % 16)]

/-- What the IDs of a repository are made with. -/
structure Naming where
  /-- `unicode.ToLower`. -/
  lower : Char → Char
  /-- `sha256.Sum256`. -/
  sum256 : Bytes → Vector UInt8 32

namespace Naming

variable (n : Naming)

/-- The digits of a name's hash that its IDs end with. -/
def sum (repo : Bytes) : List Char := (hexText (n.sum256 repo).toList).take 8

/-- `ID` of a name that is any bytes: it is lowered character by character. -/
def id (repo : Bytes) : EnvID :=
  builderID (List.map n.lower) (fun _ => n.sum repo) (Utf8.runes repo)

/-- `SourceID`. -/
def sourceID (repo : Bytes) : EnvID :=
  Fern.sourceID (List.map n.lower) (fun _ => n.sum repo) (Utf8.runes repo)

end Naming

example : builderOf "golden-app-1a2b3c4d-src" = some "golden-app-1a2b3c4d" := by decide

example : forkOf "demo-fork-1-fork-12" = some ("demo-fork-1", 12) := by decide

end Fern

/-
Which repository a worktree belongs to.

A worktree's `.git` file names its own git folder, and a `commondir` file there the repository's.
Both files are written by others, the first by whoever has the workspace, so the two paths are
compared as texts with the folders of repositories, and each has to be a folder that no link is on
the way to.  Beside its answer each function gives the places it read.
-/
import Fern.Lib.Links

namespace Fern

namespace GitDir

open Filepath Links

variable (trimSpace : Text → Text) (fs : Fs)

/-- `pathIn`: the path that the file `dir/name` holds after `start`, empty if it holds none. -/
def pathIn (dir name start : Text) : Except Errno Text × List Place :=
  let file := join dir name
  match lstat fs file with
  | .error .noent => (.ok [], [])
  | .error e => (.error e, [])
  | .ok (.file _) =>
    match readFile fs file with
    | .error e => (.error e, [])
    | .ok (place, data) =>
      let text := trimSpace data
      let path := text.drop start.length
      if start.isPrefixOf text = false ∨ path = [] then (.ok [], [place])
      else (.ok (clean (if isAbs path then path else join dir path)), [place])
  | .ok _ => (.ok [], [])

/-- `isRealDir`. -/
def isRealDir (path : Text) : Bool :=
  evalSymlinks fs path = .ok path && stat fs path = .ok .dir

/-- `within`. -/
def within (dir path : Text) : Bool := (rel dir path).any isBelow

/-- `repoGitDir`, in the pool at `root`; empty if there is none. -/
def repoGitDir (root workspace : Text) : Except Errno Text × List Place :=
  match pathIn trimSpace fs workspace ".git".toList "gitdir: ".toList with
  | (.error e, reads) => (.error e, reads)
  | (.ok own, reads) =>
    if own = [] then (.ok [], reads)
    else
      match [join root "repos".toList, join root "projects".toList].find?
          fun folder => within folder own with
      | none => (.ok [], reads)
      | some folder =>
        if isRealDir fs own = false then (.ok [], reads)
        else
          match pathIn trimSpace fs own "commondir".toList [] with
          | (.error e, more) => (.error e, reads ++ more)
          | (.ok common, more) =>
            -- the box gets exactly this folder, so it must be what it says
            if common = [] ∨ within folder common = false ∨ within common own = false ∨
                isRealDir fs common = false then (.ok [], reads ++ more)
            else (.ok common, reads ++ more)

end GitDir

end Fern

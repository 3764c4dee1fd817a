/-
A box gets its own repository's git folder, or none.

What is read off a file is a cleaned path from the root, so `within` is about its parts, and a path
that `isRealDir` accepts is the place it names: folders all the way.  From that a file in such a
folder is read at that very place, and the answer lies where its text says.
-/
import Fern.Store.GitDir

namespace Fern

namespace GitDir

open Filepath Links

variable {trimSpace : Text → Text} {fs : Fs} {root workspace dir name start path : Text}

/-- `p` lies strictly below `q`. -/
def Below (q p : Place) : Prop := ∃ name rest, p = q ++ name :: rest

theorem within_iff (hdir : isAbs dir = true) (hpath : isAbs path = true) :
    within dir path = true ↔ Below (parse dir).parts (parse path).parts :=
  rel_isBelow_iff hdir hpath

/-- What `isRealDir` says of a path: it is folders all the way, and is written that way. -/
theorem isRealDir_spec (h : isRealDir fs path = true) :
    Filepath.Path.text ⟨true, (parse path).parts⟩ = path ∧ Folders fs (parse path).parts := by
  unfold isRealDir at h
  simp only [Bool.and_eq_true, decide_eq_true_eq] at h
  obtain ⟨heval, hstat⟩ := h
  obtain ⟨habs, hclean, hliteral⟩ := evalSymlinks_literal heval
  have htext : Filepath.Path.text ⟨true, (parse path).parts⟩ = path := by
    rw [(absolute_parse habs).eta, ← clean, ← hclean]
  refine ⟨htext, hliteral.folders_of_stat ?_⟩
  rw [htext]
  exact hstat

theorem isRealDir_folders (h : isRealDir fs path = true) : Folders fs (parse path).parts :=
  (isRealDir_spec h).2

/-! ### What a file names -/

variable (trimSpace fs name start) in
/-- The ways `pathIn` can end: with an answer read off the file that the name is, or without
one. -/
theorem pathIn_cases (hdir : isAbs dir = true) :
    let r := pathIn trimSpace fs dir name start
    (∀ t, r.1 = .ok t → t = [] ∨ isAbs t = true) ∧
      ∀ p ∈ r.2, place fs false (join dir name) = .ok p := by
  dsimp only
  unfold pathIn
  dsimp only
  cases hlstat : lstat fs (join dir name) with
  | error e =>
    cases e with
    | noent => simp
    | notdir => simp
    | loop => simp
    | io => simp
  | ok node =>
    cases node with
    | dir => simp
    | link target => simp
    | other => simp
    | file data =>
      dsimp only
      cases hread : readFile fs (join dir name) with
      | error e => simp
      | ok found =>
        obtain ⟨p, text⟩ := found
        dsimp only
        -- the place `Lstat` came to isn't a link, so it is the one that is opened
        have hplace : place fs false (join dir name) = .ok p := by
          unfold lstat at hlstat
          cases hfalse : place fs false (join dir name) with
          | error e =>
            rw [hfalse] at hlstat
            cases hlstat
          | ok q =>
            rw [hfalse, Except.bind] at hlstat
            have hlink : ∀ target, fs q ≠ some (.link target) := by
              intro target heq
              unfold nodeAt at hlstat
              split at hlstat
              · cases hlstat
              · rw [heq] at hlstat
                cases hlstat
            unfold readFile at hread
            rw [place_true_of_lstat hfalse hlink, Except.bind] at hread
            split at hread
            case h_1 =>
              rw [(Prod.mk.inj (Except.ok.inj hread)).1]
            case h_2 => cases hread
        refine ⟨?_, ?_⟩
        · intro t ht
          split at ht
          · left
            exact (Except.ok.inj ht).symm
          · right
            rw [← Except.ok.inj ht]
            refine absolute_clean ?_
            split
            · assumption
            · exact isAbs_join hdir _
        · intro q hq
          have hmem : q = p := by
            split at hq
            · exact List.mem_singleton.mp hq
            · exact List.mem_singleton.mp hq
          rw [hmem]
          exact hplace

theorem pathIn_reads_folder {p : Place} (hdir : isAbs dir = true)
    (hfolders : Folders fs (parse dir).parts) (hname : IsName name)
    (h : p ∈ (pathIn trimSpace fs dir name start).2) : p = (parse dir).parts ++ [name] := by
  have hplace := (pathIn_cases trimSpace fs name start hdir).2 p h
  have htext : join dir name = Filepath.Path.text ⟨true, (parse dir).parts ++ [name]⟩ := by
    rw [join_eq hdir, clean, ← parse_clean (isAbs_append hdir _), ← join_eq hdir,
      parse_join hdir hname]
  rw [htext, place_false_concat hfolders hname] at hplace
  split at hplace
  · cases hplace
  · exact (Except.ok.inj hplace).symm

/-! ### The repository's folder -/

theorem commondir_isName : IsName "commondir".toList := by
  refine ⟨?_, ?_, ?_, ?_⟩ <;> decide

/-- The folders repositories are in. -/
def folders (root : Text) : List Text := [join root "repos".toList, join root "projects".toList]

theorem isAbs_folders (hroot : isAbs root = true) : ∀ folder ∈ folders root,
    isAbs folder = true := by
  intro folder hfolder
  simp only [folders, List.mem_cons, List.not_mem_nil, or_false] at hfolder
  obtain rfl | rfl := hfolder
  · exact isAbs_join hroot _
  · exact isAbs_join hroot _

theorem Below.trans {p q r : Place} (h : Below p q) (h' : Below q r) : Below p r := by
  obtain ⟨name, rest, rfl⟩ := h
  obtain ⟨name', rest', rfl⟩ := h'
  exact ⟨name, rest ++ name' :: rest', by simp⟩

theorem Below.concat {p q : Place} (h : Below p q) (name : Text) : Below p (q ++ [name]) :=
  h.trans ⟨name, [], rfl⟩

/-- What is given out: a folder that no link is on the way to, below `folder` and above `own`. -/
structure Given (fs : Fs) (folder own common : Text) : Prop where
  isAbs : isAbs common = true
  real : isRealDir fs common = true
  below : Below (parse folder).parts (parse common).parts
  above : Below (parse common).parts (parse own).parts

variable (trimSpace fs) in
theorem repoGitDir_cases (hroot : isAbs root = true) (hws : isAbs workspace = true) :
    let r := repoGitDir trimSpace fs root workspace
    (∀ common, r.1 = .ok common → common = [] ∨
      ∃ own, (pathIn trimSpace fs workspace ".git".toList "gitdir: ".toList).1 = .ok own ∧
        ∃ folder ∈ folders root, Given fs folder own common) ∧
    ∀ p ∈ r.2, place fs false (join workspace ".git".toList) = .ok p ∨
      ∃ folder ∈ folders root, Below (parse folder).parts p := by
  have hgit := pathIn_cases trimSpace fs ".git".toList "gitdir: ".toList hws
  dsimp only at hgit ⊢
  unfold repoGitDir
  rcases hpath : pathIn trimSpace fs workspace ".git".toList "gitdir: ".toList with
    ⟨result, reads⟩
  rw [hpath] at hgit
  obtain ⟨hown, hreads⟩ := hgit
  have hfirst : ∀ p ∈ reads, place fs false (join workspace ".git".toList) = .ok p ∨
      ∃ folder ∈ folders root, Below (parse folder).parts p := by
    intro p hp
    exact .inl (hreads p hp)
  cases result with
  | error e => exact ⟨by simp, hfirst⟩
  | ok own =>
    dsimp only at hown ⊢
    by_cases hempty : own = []
    · rw [if_pos hempty]
      exact ⟨by simp, hfirst⟩
    rw [if_neg hempty]
    have hownAbs : isAbs own = true := (hown own rfl).resolve_left hempty
    split
    case h_1 => exact ⟨by simp, hfirst⟩
    case h_2 folder hfind =>
      have hmem : folder ∈ folders root := List.mem_of_find?_eq_some hfind
      have hfolder := isAbs_folders hroot folder hmem
      have hsome : within folder own = true := List.find?_some (p := fun f => within f own) hfind
      have hwithin := (within_iff hfolder hownAbs).mp hsome
      by_cases hreal : isRealDir fs own = false
      · rw [if_pos hreal]
        exact ⟨by simp, hfirst⟩
      rw [if_neg hreal]
      rw [Bool.not_eq_false] at hreal
      -- the second file is in the folder the first names, so below the same folder
      rcases hpath' : pathIn trimSpace fs own "commondir".toList [] with ⟨result, more⟩
      have hcommon := (pathIn_cases trimSpace fs "commondir".toList [] hownAbs).1
      have hmore : ∀ p ∈ reads ++ more, place fs false (join workspace ".git".toList) = .ok p ∨
          ∃ folder ∈ folders root, Below (parse folder).parts p := by
        intro p hp
        obtain hp | hp := List.mem_append.mp hp
        · exact hfirst p hp
        · right
          have hread : p ∈ (pathIn trimSpace fs own "commondir".toList []).2 := by
            rw [hpath']
            exact hp
          rw [pathIn_reads_folder hownAbs (isRealDir_folders hreal) commondir_isName hread]
          exact ⟨folder, hmem, hwithin.concat _⟩
      rw [hpath'] at hcommon
      cases result with
      | error e => exact ⟨by simp, hmore⟩
      | ok common =>
        dsimp only at hcommon ⊢
        split
        case isTrue => exact ⟨by simp, hmore⟩
        case isFalse hchecks =>
          simp only [not_or, Bool.not_eq_false] at hchecks
          obtain ⟨hne, hbelow, habove, hcommonReal⟩ := hchecks
          have habs : isAbs common = true := (hcommon common rfl).resolve_left hne
          refine ⟨?_, hmore⟩
          intro common' heq
          cases heq
          refine .inr ⟨own, rfl, folder, hmem, habs, hcommonReal, ?_, ?_⟩
          · exact (within_iff hfolder habs).mp hbelow
          · exact (within_iff habs hownAbs).mp habove

theorem Given.place {folder own common : Text} (h : Given fs folder own common) :
    Links.place fs true common = .ok (parse common).parts := by
  obtain ⟨htext, hfolders⟩ := isRealDir_spec h.real
  have hplace := place_folders true hfolders
  rw [htext] at hplace
  exact hplace

/-- **A box is given its own repository's git folder or none**, whatever the workspace, the folders
of repositories and the links in the pool are: what is given is a folder at the place its path says,
with folders and no link all the way there, strictly below `repos/` or `projects/` and strictly
above the folder that the workspace's `.git` file names, which is below the same one.  And nothing
is read but that file and files below those two. -/
theorem repoGitDir_own (hroot : isAbs root = true) (hws : isAbs workspace = true) :
    (∀ common, (repoGitDir trimSpace fs root workspace).1 = .ok common → common = [] ∨
      ∃ own, (pathIn trimSpace fs workspace ".git".toList "gitdir: ".toList).1 = .ok own ∧
        ∃ folder ∈ [join root "repos".toList, join root "projects".toList],
          Below (parse folder).parts (parse common).parts ∧
          Below (parse folder).parts (parse own).parts ∧
          Below (parse common).parts (parse own).parts ∧
          Links.place fs true common = .ok (parse common).parts ∧
          ∀ q, q <+: (parse common).parts → q ≠ [] → fs q = some .dir) ∧
    ∀ p ∈ (repoGitDir trimSpace fs root workspace).2,
      Links.place fs false (join workspace ".git".toList) = .ok p ∨
        ∃ folder ∈ [join root "repos".toList, join root "projects".toList],
          Below (parse folder).parts p := by
  obtain ⟨hresult, hreads⟩ := repoGitDir_cases trimSpace fs hroot hws
  refine ⟨?_, hreads⟩
  intro common heq
  obtain hempty | ⟨own, hown, folder, hmem, hgiven⟩ := hresult common heq
  · exact .inl hempty
  · refine .inr ⟨own, hown, folder, hmem, hgiven.below, hgiven.below.trans hgiven.above,
      hgiven.above, hgiven.place, ?_⟩
    exact (isRealDir_folders hgiven.real).dirs

/-- A pool with a repository `r`, a worktree of it and a link to the repository. -/
def onePool : Fs := fun p =>
  [("/fern", .dir), ("/fern/repos", .dir), ("/fern/repos/r", .dir), ("/fern/repos/r/.git", .dir),
    ("/fern/repos/r/.git/worktrees", .dir), ("/fern/repos/r/.git/worktrees/w", .dir),
    ("/fern/repos/r/.git/worktrees/w/commondir", .file (some "../..".toList)),
    ("/fern/repos/l", .link "r".toList),
    ("/fern/worktrees", .dir), ("/fern/worktrees/w", .dir),
    ("/fern/worktrees/w/.git",
      .file (some "gitdir: /fern/repos/r/.git/worktrees/w".toList)),
    ("/fern/worktrees/v", .dir),
    ("/fern/worktrees/v/.git",
      .file (some "gitdir: ../../repos/l/.git/worktrees/w".toList))].findSome?
    fun (entry : String × Node) => if (parse entry.1.toList).parts = p then some entry.2 else none

/-- The worktree is given the repository's folder; what goes through the link is given none. -/
theorem repoGitDir_own_onePool :
    (repoGitDir id onePool "/fern".toList "/fern/worktrees/w".toList).1 =
        .ok "/fern/repos/r/.git".toList ∧
      (repoGitDir id onePool "/fern".toList "/fern/worktrees/v".toList).1 = .ok [] ∧
      Links.place onePool true "/fern/repos/r/.git".toList =
        .ok (parse "/fern/repos/r/.git".toList).parts := by
  have hgiven : (repoGitDir id onePool "/fern".toList "/fern/worktrees/w".toList).1 =
      .ok "/fern/repos/r/.git".toList := by decide +kernel
  refine ⟨hgiven, by decide +kernel, ?_⟩
  obtain hempty | ⟨own, -, folder, -, -, -, -, hplace, -⟩ :=
    (repoGitDir_own (by decide) (by decide)).1 _ hgiven
  · cases hempty
  · exact hplace

end GitDir

end Fern

/-
Where a path leads in a file system with symbolic links.

A file system binds places, which are names from the root, to folders, files and links.  A system
call is given a path and goes along its parts; a link on the way is followed, a given number of
times, to anywhere.  `evalSymlinks` is Go's, which asks for each part itself.  What it answers is a
place that no link is on the way to (`evalSymlinks_literal`), and a path that is such a place leads
to itself.
-/
import Fern.Lib.Filepath

namespace Links

open Filepath List

variable {part : Text} {rest : List Text}

/-- Names from the root. -/
abbrev Place := List Text

inductive Node where
  | dir
  /-- A regular file; none where it can't be read. -/
  | file (data : Option Text)
  | link (target : Text)
  /-- A pipe, a socket or a device. -/
  | other
  deriving DecidableEq

inductive Errno where
  | noent
  | notdir
  | loop
  | io
  deriving DecidableEq

/-- What there is; the root is a folder and is bound to nothing. -/
abbrev Fs := Place → Option Node

/-! ### System calls -/

/-- At `part` of the folder `done`, with `rest` still to go: `inside` is the way on if it is a
folder, `follow` the one from where a link leads; `last` says whether a link at the end is followed
too. -/
def arrive (follow : Place → List Text → Except Errno Place) (last : Bool) (done : Place)
    (part : Text) (rest : List Text) (inside : Except Errno Place) :
    Option Node → Except Errno Place
  | none => .error .noent
  | some .dir => inside
  | some (.link target) =>
    if rest = [] ∧ last = false then .ok (done ++ [part])
    else follow (if isAbs target then [] else done) (target.splitOn '/' ++ rest)
  | some (.file _) => if rest = [] then .ok (done ++ [part]) else .error .notdir
  | some .other => if rest = [] then .ok (done ++ [part]) else .error .notdir

/-- The way from the folder `done`. -/
def along (follow : Place → List Text → Except Errno Place) (fs : Fs) (last : Bool) :
    Place → List Text → Except Errno Place
  | done, [] => .ok done
  | done, part :: rest =>
    if part = [] ∨ part = ['.'] then along follow fs last done rest
    else if part = dots then along follow fs last done.dropLast rest
    else
      arrive follow last done part rest (along follow fs last (done ++ [part]) rest)
        (fs (done ++ [part]))

/-- The way from `done` with at most so many links followed. -/
def resolve (fs : Fs) (last : Bool) : Nat → Place → List Text → Except Errno Place
  | 0 => along (fun _ _ => .error .loop) fs last
  | links + 1 => along (resolve fs last links) fs last

/-- How many links the kernel follows. -/
def maxLinks : Nat := 40

/-- Where a path from the root leads. -/
def place (fs : Fs) (last : Bool) (t : Text) : Except Errno Place :=
  resolve fs last maxLinks [] (t.splitOn '/')

def nodeAt (fs : Fs) (p : Place) : Except Errno Node :=
  if p = [] then .ok .dir
  else
    match fs p with
    | some node => .ok node
    | none => .error .noent

/-- `os.Lstat`. -/
def lstat (fs : Fs) (t : Text) : Except Errno Node := (place fs false t).bind (nodeAt fs)

/-- `os.Stat`. -/
def stat (fs : Fs) (t : Text) : Except Errno Node := (place fs true t).bind (nodeAt fs)

/-- `os.ReadFile`, with the place that is read. -/
def readFile (fs : Fs) (t : Text) : Except Errno (Place × Text) :=
  (place fs true t).bind fun p =>
    match fs p with
    | some (.file (some data)) => .ok (p, data)
    | _ => .error .io

/-- The way of `filepath.EvalSymlinks`, which asks for what is at each part.  Two dots leave the
part before them, at the root too: it keeps them in the text there, and cleans that in the end. -/
def evalAlong (follow : Place → List Text → Except Errno Place) (fs : Fs) :
    Place → List Text → Except Errno Place
  | dest, [] => .ok dest
  | dest, part :: rest =>
    if part = [] ∨ part = ['.'] then evalAlong follow fs dest rest
    else if part = dots then evalAlong follow fs dest.dropLast rest
    else
      (lstat fs (Path.text ⟨true, dest ++ [part]⟩)).bind fun node =>
        arrive follow true dest part rest (evalAlong follow fs (dest ++ [part]) rest) (some node)

def evalResolve (fs : Fs) : Nat → Place → List Text → Except Errno Place
  | 0 => evalAlong (fun _ _ => .error .loop) fs
  | links + 1 => evalAlong (evalResolve fs links) fs

/-- `filepath.EvalSymlinks`, of a path from the root. -/
def evalSymlinks (fs : Fs) (t : Text) : Except Errno Text :=
  (evalResolve fs 255 [] (t.splitOn '/')).map fun dest => Path.text ⟨true, dest⟩

/-! ### Places that no link is on the way to -/

variable {fs : Fs} {follow : Place → List Text → Except Errno Place} {last : Bool}

/-- `p` is folders all the way. -/
structure Folders (fs : Fs) (p : Place) : Prop where
  names : ∀ part ∈ p, IsName part
  dirs : ∀ q, q <+: p → q ≠ [] → fs q = some .dir

theorem folders_nil : Folders fs [] where
  names := by
    intro part hpart
    cases hpart
  dirs := by
    intro q hq hne
    exact absurd (prefix_nil.mp hq) hne

theorem Folders.dropLast {p : Place} (h : Folders fs p) : Folders fs p.dropLast where
  names := by
    intro part hpart
    exact h.names part (mem_of_mem_dropLast hpart)
  dirs := by
    intro q hq hne
    exact h.dirs q (hq.trans ( dropLast_prefix p)) hne

theorem Folders.concat {p : Place} (h : Folders fs p) (hname : IsName part)
    (hdir : fs (p ++ [part]) = some .dir) : Folders fs (p ++ [part]) where
  names := by
    intro q hq
    obtain hq | hq := mem_append.mp hq
    · exact h.names q hq
    · rw [mem_singleton.mp hq]
      exact hname
  dirs := by
    intro q hq hne
    obtain rfl | hq := prefix_concat_iff.mp hq
    · exact hdir
    · exact h.dirs q hq hne

theorem Folders.absolute {p : Place} (h : Folders fs p) : Path.Absolute ⟨true, p⟩ :=
  ⟨rfl, h.names⟩

/-! ### Going through folders -/

/-- The step to a name. -/
theorem along_name {done : List Text} (hname : IsName part) :
    along follow fs last done (part :: rest) =
      arrive follow last done part rest (along follow fs last (done ++ [part]) rest)
        (fs (done ++ [part])) := by
  rw [along, if_neg (not_or.mpr ⟨hname.ne_nil, hname.ne_dot⟩), if_neg hname.ne_dots]

/-- Folders are gone through as they are. -/
theorem along_folders {names : List Text} (rest : List Text) :
    ∀ done : Place, Folders fs (done ++ names) →
      along follow fs last done (names ++ rest) = along follow fs last (done ++ names) rest := by
  induction names with
  | nil =>
    intro done _
    rw [append_nil, nil_append]
  | cons part names ih =>
    intro done h
    have hname : IsName part := h.names part (by simp)
    have hdir : fs (done ++ [part]) = some .dir := by
      refine h.dirs _ ?_ (by simp)
      rw [prefix_append_right_inj]
      exact prefix_iff_eq_append.mpr rfl
    have heq : done ++ part :: names = (done ++ [part]) ++ names := by
      rw [append_assoc, singleton_append]
    rw [cons_append, along_name hname, hdir, heq, arrive]
    exact ih (done ++ [part]) (heq ▸ h)

theorem resolve_folders {p : Place} (h : Folders fs p) (links : Nat) (rest : List Text) :
    resolve fs last links [] (p ++ rest) = resolve fs last links p rest := by
  cases links with
  | zero => exact along_folders rest [] h
  | succ links => exact along_folders rest [] h

theorem resolve_skip (links : Nat) (done : Place) (rest : List Text) :
    resolve fs last links done ([] :: rest) = resolve fs last links done rest := by
  cases links with
  | zero =>
    rw [resolve, along, if_pos (.inl rfl)]
  | succ links =>
    rw [resolve, along, if_pos (.inl rfl)]

theorem resolve_nil (links : Nat) (done : Place) :
    resolve fs last links done [] = .ok done := by
  cases links <;> rfl

variable (last) in
/-- A path through folders leads to itself. -/
theorem place_folders {p : Place} (h : Folders fs p) :
    place fs last (Path.text ⟨true, p⟩) = .ok p := by
  unfold place
  rw [h.absolute.splitOn_text, resolve_skip]
  dsimp only
  split
  case isTrue hnil =>
    rw [resolve_skip, resolve_nil, hnil]
  case isFalse =>
    rw [← append_nil p, resolve_folders h, resolve_nil, append_nil]

/-- A path into a folder is asked for in that folder. -/
theorem place_concat {p : Place} (h : Folders fs p) (hname : IsName part) :
    place fs last (Path.text ⟨true, p ++ [part]⟩) = resolve fs last maxLinks p [part] := by
  have habs : Path.Absolute ⟨true, p ++ [part]⟩ := by
    refine ⟨rfl, ?_⟩
    intro q hq
    obtain hq | hq := mem_append.mp hq
    · exact h.names q hq
    · rw [mem_singleton.mp hq]
      exact hname
  unfold place
  rw [habs.splitOn_text, resolve_skip]
  dsimp only
  rw [if_neg (by simp), resolve_folders h]

/-- What is in a folder is there, whatever it is. -/
theorem place_false_concat {p : Place} (h : Folders fs p) (hname : IsName part) :
    place fs false (Path.text ⟨true, p ++ [part]⟩) =
      if fs (p ++ [part]) = none then .error .noent else .ok (p ++ [part]) := by
  rw [place_concat h hname, maxLinks, resolve, along_name hname]
  cases hnode : fs (p ++ [part]) with
  | none => rw [arrive, if_pos rfl]
  | some node =>
    have hsome : some node ≠ none := Option.some_ne_none node
    rw [if_neg hsome]
    cases node with
    | dir => rfl
    | file data => rfl
    | link target => rw [arrive, if_pos ⟨rfl, rfl⟩]
    | other => rfl

theorem nodeAt_concat (p : Place) (part : Text) :
    nodeAt fs (p ++ [part]) =
      (fs (p ++ [part])).elim (.error .noent) fun node => .ok node := by
  have hne : p ++ [part] ≠ [] := by simp
  rw [nodeAt, if_neg hne]
  cases fs (p ++ [part]) <;> rfl

theorem lstat_concat {p : Place} (h : Folders fs p) (hname : IsName part) :
    lstat fs (Path.text ⟨true, p ++ [part]⟩) = nodeAt fs (p ++ [part]) := by
  unfold lstat
  rw [place_false_concat h hname, nodeAt_concat]
  cases hnode : fs (p ++ [part]) with
  | none => rw [if_pos rfl, Except.bind, Option.elim_none]
  | some node =>
    rw [if_neg (Option.some_ne_none node), Except.bind, nodeAt_concat, hnode]

/-! ### The end of the way -/

/-- Where a way doesn't end at a link, it makes no difference whether that would be followed. -/
theorem along_last {follow' : Place → List Text → Except Errno Place} {p : Place}
    (hfollow : ∀ done rest, follow done rest = .ok p → follow' done rest = .ok p)
    (hlink : ∀ target, fs p ≠ some (.link target)) :
    ∀ done : Place, along follow fs false done rest = .ok p →
      along follow' fs true done rest = .ok p := by
  induction rest with
  | nil =>
    intro done h
    exact h
  | cons part rest ih =>
    intro done h
    rw [along] at h ⊢
    by_cases hskip : part = [] ∨ part = ['.']
    · rw [if_pos hskip] at h ⊢
      exact ih done h
    rw [if_neg hskip] at h ⊢
    by_cases hdots : part = dots
    · rw [if_pos hdots] at h ⊢
      exact ih _ h
    rw [if_neg hdots] at h ⊢
    cases hnode : fs (done ++ [part]) with
    | none =>
      rw [hnode] at h
      cases h
    | some node =>
      rw [hnode] at h
      cases node with
      | dir => exact ih _ h
      | file data => exact h
      | other => exact h
      | link target =>
        rw [arrive] at h ⊢
        rw [if_neg (by simp)]
        by_cases hrest : rest = []
        · -- a way that ends here ends at a link
          rw [if_pos ⟨hrest, rfl⟩] at h
          rw [← Except.ok.inj h] at hlink
          exact absurd hnode (hlink target)
        · rw [if_neg (fun hand => hrest hand.1)] at h
          exact hfollow _ _ h

theorem resolve_last {p : Place} (hlink : ∀ target, fs p ≠ some (.link target)) (links : Nat) :
    ∀ done rest, resolve fs false links done rest = .ok p →
      resolve fs true links done rest = .ok p := by
  induction links with
  | zero =>
    intro done rest h
    refine along_last ?_ hlink done h
    intro done rest h
    cases h
  | succ links ih =>
    intro done rest h
    exact along_last ih hlink done h

/-- A file that `Lstat` finds is the one that is read. -/
theorem place_true_of_lstat {t : Text} {p : Place} (h : place fs false t = .ok p)
    (hlink : ∀ target, fs p ≠ some (.link target)) : place fs true t = .ok p :=
  resolve_last hlink maxLinks [] _ h

/-! ### `EvalSymlinks` -/

/-- A place that no link is on the way to, and that isn't one itself. -/
structure Literal (fs : Fs) (p : Place) : Prop where
  names : ∀ part ∈ p, IsName part
  folders : Folders fs p.dropLast
  noLink : p ≠ [] → ∀ target, fs p ≠ some (.link target)

theorem Folders.literal {p : Place} (h : Folders fs p) : Literal fs p where
  names := h.names
  folders := h.dropLast
  noLink := by
    intro hne target heq
    rw [h.dirs p prefix_rfl hne] at heq
    cases heq

theorem Folders.literal_concat {p : Place} (h : Folders fs p) (hname : IsName part)
    (hlink : ∀ target, fs (p ++ [part]) ≠ some (.link target)) : Literal fs (p ++ [part]) where
  names := by
    intro q hq
    obtain hq | hq := mem_append.mp hq
    · exact h.names q hq
    · rw [mem_singleton.mp hq]
      exact hname
  folders := by
    rw [dropLast_concat]
    exact h
  noLink := fun _ => hlink

theorem evalAlong_literal {q : Place}
    (hfollow : ∀ dest rest, Folders fs dest → (∀ part ∈ rest, '/' ∉ part) →
      follow dest rest = .ok q → Literal fs q) :
    ∀ dest : Place, Folders fs dest → (∀ part ∈ rest, '/' ∉ part) →
      evalAlong follow fs dest rest = .ok q → Literal fs q := by
  induction rest with
  | nil =>
    intro dest hdest _ h
    rw [← Except.ok.inj h]
    exact hdest.literal
  | cons part rest ih =>
    intro dest hdest hslash h
    have hrest : ∀ part ∈ rest, '/' ∉ part := fun q hq => hslash q (mem_cons_of_mem _ hq)
    rw [evalAlong] at h
    by_cases hskip : part = [] ∨ part = ['.']
    · rw [if_pos hskip] at h
      exact ih dest hdest hrest h
    rw [if_neg hskip] at h
    by_cases hdots : part = dots
    · rw [if_pos hdots] at h
      exact ih _ hdest.dropLast hrest h
    rw [if_neg hdots] at h
    obtain ⟨hnil, hdot⟩ := not_or.mp hskip
    have hname : IsName part := ⟨hnil, hdot, hdots, hslash part mem_cons_self⟩
    rw [lstat_concat hdest hname, nodeAt_concat] at h
    cases hnode : fs (dest ++ [part]) with
    | none =>
      rw [hnode] at h
      cases h
    | some node =>
      rw [hnode, Option.elim_some, Except.bind] at h
      have hend : (∀ target, node ≠ .link target) →
          (if rest = [] then Except.ok (dest ++ [part]) else .error Errno.notdir) = .ok q →
            Literal fs q := by
        intro hnot hif
        split at hif
        · rw [← Except.ok.inj hif]
          refine hdest.literal_concat hname ?_
          intro target heq
          rw [hnode] at heq
          exact hnot target (Option.some.inj heq)
        · cases hif
      cases node with
      | dir => exact ih _ (hdest.concat hname hnode) hrest h
      | file data => exact hend (by simp) h
      | other => exact hend (by simp) h
      | link target =>
        rw [arrive, if_neg (by simp)] at h
        refine hfollow _ _ ?_ ?_ h
        · split
          · exact folders_nil
          · exact hdest
        · intro p hp
          obtain hp | hp := mem_append.mp hp
          · exact slash_notMem_splitOn target p hp
          · exact hrest p hp

theorem evalResolve_literal {q : Place} (links : Nat) :
    ∀ dest rest, Folders fs dest → (∀ part ∈ rest, '/' ∉ part) →
      evalResolve fs links dest rest = .ok q → Literal fs q := by
  induction links with
  | zero =>
    intro dest rest hdest hslash h
    refine evalAlong_literal ?_ dest hdest hslash h
    intro dest rest _ _ h
    cases h
  | succ links ih =>
    intro dest rest hdest hslash h
    exact evalAlong_literal ih dest hdest hslash h

/-- **A path that `EvalSymlinks` answers with is a place that no link is on the way to.** -/
theorem evalSymlinks_literal {t r : Text} (h : evalSymlinks fs t = .ok r) :
    isAbs r = true ∧ r = clean r ∧ Literal fs (parse r).parts := by
  unfold evalSymlinks at h
  cases hq : evalResolve fs 255 [] (t.splitOn '/') with
  | error e =>
    rw [hq] at h
    cases h
  | ok q =>
    rw [hq] at h
    have hliteral := evalResolve_literal 255 [] _ folders_nil (slash_notMem_splitOn t) hq
    have habs : Path.Absolute ⟨true, q⟩ := ⟨rfl, hliteral.names⟩
    cases h
    refine ⟨habs.isAbs_text, ?_, ?_⟩
    · rw [clean, parse_text habs]
    · rw [parse_text habs]
      exact hliteral

/-- A literal place that is a folder is folders all the way. -/
theorem Literal.folders_of_stat {p : Place} (h : Literal fs p)
    (hstat : stat fs (Path.text ⟨true, p⟩) = .ok .dir) : Folders fs p := by
  obtain rfl | ⟨parent, part, rfl⟩ := eq_nil_or_concat' p
  · exact folders_nil
  have hparent : Folders fs parent := by
    have hfolders := h.folders
    rw [dropLast_concat] at hfolders
    exact hfolders
  have hname : IsName part := h.names part (by simp)
  have hlink := h.noLink (by simp)
  refine hparent.concat hname ?_
  unfold stat at hstat
  cases hnode : fs (parent ++ [part]) with
  | none =>
    rw [place_concat hparent hname, maxLinks, resolve, along_name hname, hnode] at hstat
    cases hstat
  | some node =>
    have hplace : place fs false (Path.text ⟨true, parent ++ [part]⟩) = .ok (parent ++ [part]) := by
      rw [place_false_concat hparent hname, hnode, if_neg (by simp)]
    rw [place_true_of_lstat hplace hlink, Except.bind, nodeAt_concat, hnode] at hstat
    rw [Except.ok.inj hstat]

end Links

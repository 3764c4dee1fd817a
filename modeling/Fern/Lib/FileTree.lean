/-
What is below a directory, and operations that stay below it.

A tree binds paths to directories, files and symbolic links; the root itself is a directory and is
bound to nothing.  An operation names a path.  Its last part is meant as it is, and the parts before
it lead through directories; a symbolic link among them is followed, a given number of times and
never out of the root.  Where the parts before the last are directories themselves, the operation is
at that very path: `place_of_literal`.
-/
import Mathlib.Data.List.Induction
import Mathlib.Data.List.Sort
import Mathlib.Data.String.Basic
import Fern.Lib.Cut
import Fern.Lib.FinMap

namespace FileTree

open List

abbrev Path := List String

structure Attrs where
  uid : Nat
  gid : Nat
  mode : Nat
  deriving DecidableEq

inductive Node where
  | dir (attrs : Attrs)
  | file (attrs : Attrs) (data : Bytes)
  | link (uid gid : Nat) (target : String)
  deriving DecidableEq

def Node.isDir : Node → Bool
  | .dir _ => true
  | _ => false

inductive Errno where
  | noent
  | notdir
  | exist
  | notempty
  | loop
  /-- The path leads out of the root. -/
  | escapes
  deriving DecidableEq

abbrev Nodes := FinMap Path Node

variable {t : Nodes} {p q : Path}

/-! ### Where a path leads -/

/-- The parts of a link's target, if it is relative. -/
def targetParts (target : String) : Option Path :=
  if target.toList.head? = some '/' then none
  else some (((target.toList.splitOn '/').filter fun part => part ≠ [] ∧ part ≠ ['.']).map
    String.ofList)

/-- The way through directories from `done`; `follow` goes on where a link leads. -/
def along (follow : Path → Path → Except Errno Path) (t : Nodes) :
    Path → Path → Except Errno Path
  | done, [] => .ok done
  | done, part :: rest =>
    if rest = [] then .ok (done ++ [part])
    else if part = ".." then
      if done = [] then .error .escapes else along follow t done.dropLast rest
    else
      match t.get (done ++ [part]) with
      | none => .error .noent
      | some (.dir _) => along follow t (done ++ [part]) rest
      | some (.file _ _) => .error .notdir
      | some (.link _ _ target) =>
        match targetParts target with
        | none => .error .escapes
        | some parts => follow done (parts ++ rest)

/-- The way from `done`, with at most `links` links followed. -/
def resolve (t : Nodes) : Nat → Path → Path → Except Errno Path
  | 0 => along (fun _ _ => .error .loop) t
  | links + 1 => along (resolve t links) t

/-- A way fails only on what it comes to. -/
def Errno.onTheWay : Errno → Bool
  | .exist => false
  | .notempty => false
  | _ => true

/-- How many links are followed. -/
def maxSymlinks : Nat := 8

/-- Where an operation on `p` is. -/
def place (t : Nodes) (p : Path) : Except Errno Path := resolve t maxSymlinks [] p

/-- `p` is a directory. -/
def isDirAt (t : Nodes) (p : Path) : Bool := p = [] || (t.get p).any Node.isDir

/-- What may be a name in a directory. -/
def isName (part : String) : Bool :=
  part ≠ "" && part ≠ "." && part ≠ ".." && '/' ∉ part.toList && '\x00' ∉ part.toList

/-- The directories on the way to `p` are at that very path. -/
structure Literal (t : Nodes) (p : Path) : Prop where
  ne_nil : p ≠ []
  names : ∀ part ∈ p, isName part = true
  dirs : ∀ q, q <+: p → q ≠ p → isDirAt t q = true

theorem along_error (follow : Path → Path → Except Errno Path) {e : Errno}
    (hfollow : ∀ done rest e, follow done rest = .error e → e.onTheWay = true) {rest : Path} :
    ∀ done : Path, along follow t done rest = .error e → e.onTheWay = true := by
  induction rest with
  | nil =>
    intro done h
    cases h
  | cons part rest ih =>
    intro done h
    rw [along] at h
    by_cases hlast : rest = []
    · rw [if_pos hlast] at h
      cases h
    · rw [if_neg hlast] at h
      by_cases hdots : part = ".."
      · rw [if_pos hdots] at h
        by_cases hdone : done = []
        · rw [if_pos hdone] at h
          cases h
          rfl
        · rw [if_neg hdone] at h
          exact ih _ h
      · rw [if_neg hdots] at h
        cases hnode : t.get (done ++ [part]) with
        | none =>
          rw [hnode] at h
          cases h
          rfl
        | some node =>
          rw [hnode] at h
          cases node with
          | dir attrs => exact ih _ h
          | file attrs data =>
            cases h
            rfl
          | link uid gid target =>
            cases hparts : targetParts target with
            | none =>
              simp only [hparts] at h
              cases h
              rfl
            | some parts =>
              simp only [hparts] at h
              exact hfollow _ _ _ h

/-- A path that leads nowhere doesn't exist, goes through a file, or leads out or round. -/
theorem place_error {e : Errno} (h : place t p = .error e) : e.onTheWay = true := by
  have hresolve (links : Nat) : ∀ done rest e, resolve t links done rest = .error e →
      e.onTheWay = true := by
    induction links with
    | zero =>
      intro done rest e h
      refine along_error (fun _ _ => .error .loop) ?_ done h
      intro done rest e h
      cases h
      rfl
    | succ links ih =>
      intro done rest e h
      exact along_error (resolve t links) ih done h
  exact hresolve maxSymlinks [] p e h

theorem along_of_literal (follow : Path → Path → Except Errno Path) {rest : Path} :
    ∀ done : Path, rest ≠ [] → (∀ part ∈ rest, isName part = true) →
      (∀ q, q <+: rest → q ≠ [] → q ≠ rest → (t.get (done ++ q)).any Node.isDir = true) →
      along follow t done rest = .ok (done ++ rest) := by
  induction rest with
  | nil =>
    intro done hne
    exact absurd rfl hne
  | cons part rest ih =>
    intro done _ hnames hdirs
    rw [along]
    by_cases hlast : rest = []
    · rw [if_pos hlast, hlast]
    · have hdots : part ≠ ".." := by
        rintro rfl
        exact absurd (hnames ".." mem_cons_self) (by decide)
      have hdir := hdirs [part] (by simp) (by simp) (by simpa using hlast)
      rw [if_neg hlast, if_neg hdots]
      obtain ⟨attrs, hattrs⟩ : ∃ attrs, t.get (done ++ [part]) = some (.dir attrs) := by
        cases hnode : t.get (done ++ [part]) with
        | none => simp [hnode] at hdir
        | some node =>
          cases node with
          | dir attrs => exact ⟨attrs, rfl⟩
          | file attrs data => simp [hnode, Node.isDir] at hdir
          | link uid gid target => simp [hnode, Node.isDir] at hdir
      rw [hattrs]
      show along follow t (done ++ [part]) rest = _
      rw [ih (done ++ [part]) hlast (fun q hq => hnames q (mem_cons_of_mem _ hq)) ?_]
      · simp
      · intro q hq hq' hne
        have hpre : part :: q <+: part :: rest := (prefix_cons_inj part).2 hq
        have := hdirs (part :: q) hpre (by simp) (by simpa using hne)
        simpa using this

/-- **Where the way is literal, the operation is at that very path.** -/
theorem place_of_literal (h : Literal t p) : place t p = .ok p := by
  have hway (follow : Path → Path → Except Errno Path) : along follow t [] p = .ok p := by
    rw [along_of_literal follow [] h.ne_nil h.names, nil_append]
    intro q hq hnil hne
    simpa [isDirAt, hnil] using h.dirs q hq hne
  exact hway _

/-! ### Trees -/

/-- Everything has a name, in a directory. -/
structure WF (t : Nodes) : Prop where
  names : ∀ p, t.get p ≠ none → p ≠ [] ∧ ∀ part ∈ p, isName part = true
  parents : ∀ p, t.get p ≠ none → isDirAt t p.dropLast = true

theorem isDirAt_of_get {attrs : Attrs} (h : t.get p = some (.dir attrs)) : isDirAt t p = true := by
  simp [isDirAt, h, Node.isDir]

theorem get_ne_none_of_isDirAt (h : isDirAt t p = true) (hp : p ≠ []) : t.get p ≠ none := by
  intro hnone
  simp [isDirAt, hp, hnone] at h

/-- What is there is there at that very path. -/
theorem WF.literal (h : WF t) (hp : t.get p ≠ none) : Literal t p := by
  refine ⟨(h.names p hp).1, (h.names p hp).2, ?_⟩
  induction p using List.reverseRecOn with
  | nil => exact absurd rfl (h.names [] hp).1
  | append_singleton dir last ih =>
    intro q hq hne
    have hdir : isDirAt t dir = true := by
      have := h.parents _ hp
      rwa [dropLast_concat] at this
    have hq : q <+: dir := by
      rcases prefix_concat_iff.1 hq with rfl | hq
      · exact absurd rfl hne
      · exact hq
    by_cases hqd : q = dir
    · rw [hqd]
      exact hdir
    · by_cases hd : dir = []
      · rw [hd, prefix_nil] at hq
        exact absurd (hq.trans hd.symm) hqd
      · exact ih (get_ne_none_of_isDirAt hdir hd) q hq hqd

/-- Nothing is below what isn't a directory. -/
theorem WF.none_below {node : Node} (h : WF t) (hp : t.get p = some node)
    (hnode : node.isDir = false) (hq : p <+: q) (hne : p ≠ q) : t.get q = none := by
  by_contra hsome
  have hdir := (h.literal hsome).dirs p hq hne
  have hp0 : p ≠ [] := (h.names p (by simp [hp])).1
  simp [isDirAt, hp0, hp, hnode] at hdir

/-- A tree. -/
structure Tree where
  nodes : Nodes
  wf : WF nodes

/-- A tree is checked entry by entry. -/
theorem WF.of_dom (h : ∀ p ∈ t.dom, t.get p ≠ none →
    (p ≠ [] ∧ ∀ part ∈ p, isName part = true) ∧ isDirAt t p.dropLast = true) : WF t :=
  ⟨fun p hp => (h p (t.complete p hp) hp).1, fun p hp => (h p (t.complete p hp) hp).2⟩

/-- The tree with these entries. -/
def ofList (entries : List (Path × Node)) : Nodes :=
  entries.foldr (fun entry t => t.set entry.1 entry.2) .empty

/-- A tree that is as `t` on the way to `p` has the same way to it. -/
theorem Literal.congr {t' : Nodes} (h : Literal t p)
    (hsame : ∀ q, q <+: p → q ≠ p → t'.get q = t.get q) : Literal t' p := by
  refine ⟨h.ne_nil, h.names, ?_⟩
  intro q hq hne
  have hdir := h.dirs q hq hne
  unfold isDirAt at hdir ⊢
  rwa [hsame q hq hne]

/-! ### Operations -/

/-- A root, and where operations on it have been. -/
structure Root where
  nodes : Nodes
  touched : List Path := []

namespace Root

variable {r : Root}

/-- Go where `p` leads. -/
def locate (r : Root) (p : Path) : Except Errno (Path × Root) := do
  let q ← place r.nodes p
  return (q, { r with touched := q :: r.touched })

/-- `Lstat`, and what else reads what is at `p`. -/
def lstat (r : Root) (p : Path) : Except Errno (Node × Root) := do
  let found ← r.locate p
  match found.2.nodes.get found.1 with
  | some node => return (node, found.2)
  | none => .error .noent

/-- `Mkdir`, `Symlink` and an exclusive `OpenFile` make what wasn't there. -/
def create (r : Root) (p : Path) (node : Node) : Except Errno Root := do
  let found ← r.locate p
  match found.2.nodes.get found.1 with
  | some _ => .error .exist
  | none => return { found.2 with nodes := found.2.nodes.set found.1 node }

/-- `Lchown`, `Chmod` and a write change what is there. -/
def change (r : Root) (p : Path) (f : Node → Node) : Except Errno Root := do
  let found ← r.locate p
  match found.2.nodes.get found.1 with
  | some node => return { found.2 with nodes := found.2.nodes.set found.1 (f node) }
  | none => .error .noent

/-- `RemoveAll`. -/
def removeAll (r : Root) (p : Path) : Except Errno Root :=
  match r.locate p with
  | .ok found => .ok { found.2 with nodes := found.2.nodes.eraseIf fun q => found.1.isPrefixOf q }
  | .error .noent => .ok r
  | .error e => .error e

/-- Something is in the directory `p`. -/
def holds (t : Nodes) (p : Path) : Bool := t.keys.any fun q => p.isPrefixOf q && q ≠ p

/-- `Remove`. -/
def remove (r : Root) (p : Path) : Except Errno Root := do
  let found ← r.locate p
  match found.2.nodes.get found.1 with
  | none => .error .noent
  | some node =>
    if node.isDir && holds found.2.nodes found.1 then .error .notempty
    else return { found.2 with nodes := found.2.nodes.erase found.1 }

theorem locate_of_literal (h : Literal r.nodes p) :
    r.locate p = .ok (p, { r with touched := p :: r.touched }) := by
  rw [locate, place_of_literal h]
  rfl

theorem lstat_of_literal {node : Node} (h : Literal r.nodes p) (hp : r.nodes.get p = some node) :
    r.lstat p = .ok (node, { r with touched := p :: r.touched }) := by
  simp [lstat, locate_of_literal h, bind, Except.bind, hp, pure, Except.pure]

theorem create_of_literal {node : Node} (h : Literal r.nodes p) (hp : r.nodes.get p = none) :
    r.create p node = .ok ⟨r.nodes.set p node, p :: r.touched⟩ := by
  simp [create, locate_of_literal h, bind, Except.bind, hp, pure, Except.pure]

theorem create_exists {old : Node} (h : Literal r.nodes p) (hp : r.nodes.get p = some old)
    (node : Node) : r.create p node = .error .exist := by
  simp [create, locate_of_literal h, bind, Except.bind, hp]

theorem change_of_literal {node : Node} {f : Node → Node} (h : Literal r.nodes p)
    (hp : r.nodes.get p = some node) :
    r.change p f = .ok ⟨r.nodes.set p (f node), p :: r.touched⟩ := by
  simp [change, locate_of_literal h, bind, Except.bind, hp, pure, Except.pure]

theorem removeAll_of_literal (h : Literal r.nodes p) : r.removeAll p =
    .ok ⟨r.nodes.eraseIf fun q => p.isPrefixOf q, p :: r.touched⟩ := by
  simp [removeAll, locate_of_literal h]

end Root

/-! ### Walking -/

/-- The order in which a walk comes to paths: a directory before what is in it, and names in a
directory in their order. -/
def pathLE : Path → Path → Bool
  | [], _ => true
  | _ :: _, [] => false
  | a :: p, b :: q => decide (a < b) || (a == b && pathLE p q)

theorem pathLE_of_above (h : p <+: q) : pathLE p q = true := by
  induction p generalizing q with
  | nil => rfl
  | cons a p ih =>
    obtain ⟨rest, rfl⟩ := h
    simp [pathLE, ih (prefix_append p rest)]

theorem pathLE_antisymm (h : pathLE p q = true) (h' : pathLE q p = true) : p = q := by
  induction p generalizing q with
  | nil =>
    cases q with
    | nil => rfl
    | cons b q => cases h'
  | cons a p ih =>
    cases q with
    | nil => cases h
    | cons b q =>
      simp only [pathLE, Bool.or_eq_true, decide_eq_true_eq, Bool.and_eq_true, beq_iff_eq] at h h'
      rcases h with hlt | ⟨rfl, hpq⟩
      · rcases h' with hlt' | ⟨rfl, -⟩
        · exact absurd hlt' (lt_asymm hlt)
        · exact absurd hlt (lt_irrefl _)
      · rcases h' with hlt' | ⟨-, hqp⟩
        · exact absurd hlt' (lt_irrefl _)
        · rw [ih hpq hqp]

theorem pathLE_total (p q : Path) : pathLE p q = true ∨ pathLE q p = true := by
  induction p generalizing q with
  | nil => exact .inl rfl
  | cons a p ih =>
    cases q with
    | nil => exact .inr rfl
    | cons b q =>
      simp only [pathLE, Bool.or_eq_true, decide_eq_true_eq, Bool.and_eq_true, beq_iff_eq]
      rcases lt_trichotomy a b with hlt | rfl | hlt
      · exact .inl (.inl hlt)
      · rcases ih q with hpq | hqp
        · exact .inl (.inr ⟨rfl, hpq⟩)
        · exact .inr (.inr ⟨rfl, hqp⟩)
      · exact .inr (.inl hlt)

theorem pathLE_trans {u : Path} (h : pathLE p q = true) (h' : pathLE q u = true) :
    pathLE p u = true := by
  induction p generalizing q u with
  | nil => rfl
  | cons a p ih =>
    cases q with
    | nil => cases h
    | cons b q =>
      cases u with
      | nil => cases h'
      | cons c u =>
        simp only [pathLE, Bool.or_eq_true, decide_eq_true_eq, Bool.and_eq_true, beq_iff_eq]
          at h h' ⊢
        rcases h with hab | ⟨rfl, hpq⟩
        · rcases h' with hbc | ⟨rfl, -⟩
          · exact .inl (lt_trans hab hbc)
          · exact .inl hab
        · rcases h' with hbc | ⟨rfl, hqu⟩
          · exact .inl hbc
          · exact .inr ⟨rfl, ih hpq hqu⟩

instance : Std.Total (fun p q : Path => pathLE p q = true) := ⟨pathLE_total⟩

instance : IsTrans Path (fun p q : Path => pathLE p q = true) := ⟨fun _ _ _ => pathLE_trans⟩

/-- `WalkDir`: everything below the root, in the order it is come to. -/
def walk (t : Nodes) : List Path := t.keys.insertionSort fun p q => pathLE p q = true

theorem mem_walk : p ∈ walk t ↔ t.get p ≠ none := by
  rw [walk, (perm_insertionSort _ _).mem_iff, FinMap.mem_keys]

theorem nodup_walk (t : Nodes) : (walk t).Nodup :=
  (perm_insertionSort _ _).nodup_iff.2 t.nodup_keys

/-- What a walk comes to after a path isn't on the way to it. -/
theorem mem_before_of_above {before after : List Path} (h : walk t = before ++ p :: after)
    (hq : q ∈ walk t) (hpre : q <+: p) (hne : q ≠ p) : q ∈ before := by
  rw [h, mem_append, mem_cons] at hq
  rcases hq with hq | hq | hq
  · exact hq
  · exact absurd hq hne
  · have hsorted := pairwise_insertionSort (fun p q : Path => pathLE p q = true) t.keys
    rw [← walk, h, pairwise_append, pairwise_cons] at hsorted
    exact absurd (pathLE_antisymm (pathLE_of_above hpre) (hsorted.2.1.1 q hq)) hne

end FileTree

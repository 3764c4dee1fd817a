/-
The folders a watch knows.

Processes make, delete and rename files and folders; for each change the kernel queues events of the
marked folders it was in, or adds it to the mask of a queued event of the same process for the same
name.  The reader takes events off the queue, and `apply` works through what it has read: it forgets
folders that are gone, and walks new ones.  A walk is a sequence of system calls, each of which
finds what is there when it is made, so an `Act` is one change, one read, one event or one system
call, and a run is any sequence of acts.

A folder's path is the list of its names from the workspace on.  Folders outside the workspace are
nodes too, whose parents don't lead to it: so moving a folder out of the workspace, and in, is
renaming it.  A handle may be that of a new folder once its folder is deleted, which the kernel
doesn't do.
-/
import Fern.Lib.FinMap
import Fern.Watch.Event
import Mathlib.Data.List.Sort

namespace Fern

namespace Watch

open Fanotify (Event)

/-- A path relative to the workspace. -/
abbrev Rel := List Bytes

/-! ### Files and folders -/

/-- What can be a name: neither empty, nor `.` or `..`, and without `/` and NUL. -/
def isName (x : Bytes) : Bool :=
    x ≠ [] && x ≠ [46] && x ≠ [46, 46] && !x.contains 47 && !x.contains 0

structure Node where
  isDir : Bool
  parent : String
  name : Bytes
  deriving DecidableEq

/-- What there is, by handle, besides the workspace's own folder. -/
structure Fs where
  root : String
  nodes : FinMap String Node
  root_none : nodes.get root = none
  /-- Two in one folder differ by their names. -/
  names : ∀ {h h' : String} {n n' : Node}, nodes.get h = some n → nodes.get h' = some n' →
    n.parent = n'.parent → n.name = n'.name → h = h'
  named : ∀ {h : String} {n : Node}, nodes.get h = some n → isName n.name = true

/-- Why a path leads nowhere. -/
inductive Errno where
  | noEnt
  | notDir
  deriving DecidableEq

namespace Fs

variable (fs : Fs)

/-- The name `x` in folder `g`. -/
def child (g : String) (x : Bytes) : Option String :=
  fs.nodes.keys.find? fun h => (fs.nodes.get h).any fun n => n.parent = g && n.name = x

def isFolder (h : String) : Bool := h = fs.root || (fs.nodes.get h).any Node.isDir

/-- One step of looking a path up. -/
def lookup (g : String) (x : Bytes) : Except Errno String :=
  if fs.isFolder g then (fs.child g x).elim (.error .noEnt) .ok else .error .notDir

/-- What a path leads to. -/
def find (p : Rel) : Except Errno String := p.foldlM fs.lookup fs.root

/-- The entries of a folder, sorted by name as `os.ReadDir` does. -/
def entries (g : String) : List Node :=
  ((fs.nodes.keys.filterMap fs.nodes.get).filter fun n => n.parent = g).insertionSort
    fun n n' => n.name ≤ n'.name

def erase (h : String) : Fs where
  root := fs.root
  nodes := fs.nodes.erase h
  root_none := by
    rw [FinMap.get_erase, fs.root_none]
    split
    · rfl
    · rfl
  names := by
    intro a b n n' ha hb
    rw [FinMap.get_erase] at ha hb
    split at ha
    · cases ha
    · split at hb
      · cases hb
      · exact fs.names ha hb
  named := by
    intro a n ha
    rw [FinMap.get_erase] at ha
    split at ha
    · cases ha
    · exact fs.named ha

theorem child_eq_none {fs : Fs} {g : String} {x : Bytes} (h : fs.child g x = none) {b : String}
    {n : Node} (hb : fs.nodes.get b = some n) (hparent : n.parent = g) : n.name ≠ x := by
  intro hname
  have hno := List.find?_eq_none.1 h b (FinMap.mem_keys.2 (by simp [hb]))
  simp [hb, hparent, hname] at hno

/-- Puts `n` at `h`, where its name is free. -/
def put (h : String) (n : Node) (hroot : h ≠ fs.root) (hname : isName n.name = true)
    (hfree : fs.child n.parent n.name = none) : Fs where
  root := fs.root
  nodes := fs.nodes.set h n
  root_none := by
    rw [FinMap.get_set, if_neg (fun hr => hroot hr.symm)]
    exact fs.root_none
  names := by
    intro a b m m' ha hb hparent hname
    rw [FinMap.get_set] at ha hb
    split at ha
    · split at hb
      · rename_i ha' hb'
        exact ha'.trans hb'.symm
      · cases ha
        exact absurd hname.symm (child_eq_none hfree hb hparent.symm)
    · split at hb
      · cases hb
        exact absurd hname (child_eq_none hfree ha hparent)
      · exact fs.names ha hb hparent hname
  named := by
    intro a m ha
    rw [FinMap.get_set] at ha
    split at ha
    · cases ha
      exact hname
    · exact fs.named ha

/-- Makes a file or folder. -/
def create (h : String) (n : Node) : Option Fs :=
  if hok : h ≠ fs.root ∧ isName n.name = true ∧ fs.child n.parent n.name = none then
    if fs.nodes.get h = none && fs.isFolder n.parent then some (fs.put h n hok.1 hok.2.1 hok.2.2)
    else none
  else none

def isEmpty (h : String) : Bool := fs.entries h = []

/-- Removes a file, or a folder with nothing in it. -/
def delete (h : String) : Option Fs := if fs.isEmpty h then some (fs.erase h) else none

/-- What may be replaced by `h`: the like of it, with nothing in it. -/
def replaceable (h b : String) : Bool :=
  fs.isFolder h = fs.isFolder b && b ≠ h && fs.isEmpty b

/-- Renames `h`, in place of what has the new name.  That a folder isn't moved below itself isn't
asked. -/
def rename (h g : String) (x : Bytes) : Option Fs :=
  match fs.nodes.get h with
  | none => none
  | some n =>
    if (fs.child g x).all (fs.replaceable h) && fs.isFolder g then
      let rest := (fs.child g x).elim (fs.erase h) (fs.erase h).erase
      if hok : h ≠ rest.root ∧ isName x = true ∧ rest.child g x = none then
        some (rest.put h { n with parent := g, name := x } hok.1 hok.2.1 hok.2.2)
      else none
    else none

end Fs

/-! ### Events -/

def FAN_MODIFY : Nat := 0x2

def FAN_MOVED_FROM : Nat := 0x40

def FAN_MOVED_TO : Nat := 0x80

def FAN_CREATE : Nat := 0x100

def FAN_DELETE : Nat := 0x200

def FAN_Q_OVERFLOW : Nat := 0x4000

def FAN_ONDIR : Nat := 0x40000000

/-- `mask&bits != 0`. -/
def has (mask bits : Nat) : Bool := mask &&& bits ≠ 0

/-- `skip`. -/
def skip (name : Bytes) : Bool :=
  name = ".git".toUTF8.toList || name = "node_modules".toUTF8.toList || name = ".fern".toUTF8.toList

/-- Events of one process for one name, and not one of a folder and one of a file. -/
def alike (e e' : Event) : Bool :=
  e.handle = e'.handle && e.name = e'.name && e.pid = e'.pid &&
    has e.mask FAN_ONDIR = has e'.mask FAN_ONDIR

/-- The kernel queues `e`, or adds it to the mask of the queued event `how` tells. -/
def enqueue (how : Option Nat) (e : Event) (queue : List Event) : List Event :=
  match how with
  | none => queue ++ [e]
  | some i =>
    match queue[i]? with
    | none => queue ++ [e]
    | some old =>
      if alike old e then queue.set i { old with mask := old.mask ||| e.mask } else queue ++ [e]

/-! ### The watch -/

/-- What a walk does next. -/
inductive Item where
  /-- `Lstat` of the folder the walk is of. -/
  | stat (p : Rel)
  /-- A file among a folder's entries. -/
  | file (p : Rel)
  /-- `FanotifyMark`, unless it is skipped. -/
  | visit (p : Rel)
  /-- `NameToHandleAt`. -/
  | handle (p : Rel)
  /-- `os.ReadDir`. -/
  | list (p : Rel)
  deriving DecidableEq

/-- `add`, as far as it is. -/
structure Walk where
  todo : List Item
  files : List Rel := []
  /-- Who made the folder; nobody for the workspace's own. -/
  pid : Option Int

structure Watching where
  fs : Fs
  marks : List String := []
  /-- In the kernel. -/
  queue : List Event := []
  /-- Read, but not applied. -/
  inbox : List Event := []
  walk : Option Walk
  /-- `tree.dirs`. -/
  dirs : FinMap String Rel := .empty
  /-- The files to report. -/
  pending : List Rel := []

namespace Watching

variable (s : Watching)

/-- The kernel hears of a change to `x` in folder `g`. -/
def notify (g : String) (x : Bytes) (pid : Int) (mask : Nat) (how : Option Nat) : Watching :=
  if g ∈ s.marks then
    { s with queue := enqueue how { mask := mask, pid := pid, handle := g, name := x } s.queue }
  else s

/-- `forget`. -/
def forget (rel : Rel) : Watching :=
  { s with dirs := s.dirs.eraseIf fun h => (s.dirs.get h).any rel.isPrefixOf }

/-- `apply` on one event; the walk of a new folder is begun. -/
def applyOne (mine : Int → Bool) (e : Event) : Watching :=
  if has e.mask FAN_Q_OVERFLOW then s
  else
    match s.dirs.get e.handle with
    | none => s
    | some parent =>
      if e.name = [] || e.name = [46] then s
      else if !has e.mask FAN_ONDIR then
        if mine e.pid && has e.mask (FAN_MODIFY ||| FAN_CREATE ||| FAN_MOVED_TO) then
          { s with pending := s.pending ++ [parent ++ [e.name]] }
        else s
      else if has e.mask (FAN_DELETE ||| FAN_MOVED_FROM) then s.forget (parent ++ [e.name])
      else if has e.mask (FAN_CREATE ||| FAN_MOVED_TO) && !skip e.name then
        { s with walk := some { todo := [.stat (parent ++ [e.name])], pid := some e.pid } }
      else s

/-- An entry of folder `p`. -/
def item (p : Rel) (n : Node) : Item :=
  if n.isDir then .visit (p ++ [n.name]) else .file (p ++ [n.name])

/-- `add` by one system call.  What fails but for a folder that is gone ends the walk. -/
def walkOne (mine : Int → Bool) (w : Walk) : Watching :=
  match w.todo with
  | [] =>
    { s with
      walk := none
      pending := if w.pid.any mine then s.pending ++ w.files else s.pending }
  | .stat p :: todo =>
    match s.fs.find p with
    | .error _ => { s with walk := some { w with todo := todo } }
    | .ok h =>
      if s.fs.isFolder h then { s with walk := some { w with todo := .visit p :: todo } }
      else { s with walk := some { w with todo := todo, files := w.files ++ [p] } }
  | .file p :: todo => { s with walk := some { w with todo := todo, files := w.files ++ [p] } }
  | .visit p :: todo =>
    if p ≠ [] && skip (p.getLastD []) then { s with walk := some { w with todo := todo } }
    else
      match s.fs.find p with
      | .error _ => { s with walk := some { w with todo := todo } }
      | .ok h =>
        if s.fs.isFolder h then
          { s with marks := h :: s.marks, walk := some { w with todo := .handle p :: todo } }
        else { s with walk := some { w with todo := todo } }
  | .handle p :: todo =>
    match s.fs.find p with
    | .error _ => { s with walk := some { w with todo := [] } }
    | .ok h => { s with dirs := s.dirs.set h p, walk := some { w with todo := .list p :: todo } }
  | .list p :: todo =>
    match s.fs.find p with
    | .error .noEnt => { s with walk := some { w with todo := todo } }
    | .error .notDir => { s with walk := some { w with todo := [] } }
    | .ok h =>
      if s.fs.isFolder h then
        { s with walk := some { w with todo := (s.fs.entries h).map (item p) ++ todo } }
      else { s with walk := some { w with todo := [] } }

end Watching

/-- The bit that tells an event of a folder. -/
def onDir (isDir : Bool) : Nat := if isDir then FAN_ONDIR else 0

inductive Act where
  /-- A process makes a file or folder. -/
  | create (h : String) (n : Node) (pid : Int) (how : Option Nat)
  | delete (h : String) (pid : Int) (how : Option Nat)
  /-- A process renames, which the kernel tells in two events. -/
  | rename (h g : String) (x : Bytes) (pid : Int) (how how' : Option Nat)
  /-- A process writes to a file. -/
  | modify (h : String) (pid : Int) (how : Option Nat)
  /-- The reader reads `n` events. -/
  | read (n : Nat)
  /-- `apply` goes on to the next event. -/
  | apply
  /-- `add` makes its next system call. -/
  | walk
  /-- `report` calls `changed`. -/
  | report

def Watching.step (mine : Int → Bool) (s : Watching) : Act → Option Watching
  | .create h n pid how =>
    (s.fs.create h n).map fun fs =>
      { s with fs := fs }.notify n.parent n.name pid (FAN_CREATE ||| onDir n.isDir) how
  | .delete h pid how =>
    match s.fs.nodes.get h with
    | none => none
    | some n =>
      (s.fs.delete h).map fun fs =>
        { s with fs := fs }.notify n.parent n.name pid (FAN_DELETE ||| onDir n.isDir) how
  | .rename h g x pid how how' =>
    match s.fs.nodes.get h with
    | none => none
    | some n =>
      (s.fs.rename h g x).map fun fs =>
        ({ s with fs := fs }.notify n.parent n.name pid
          (FAN_MOVED_FROM ||| onDir n.isDir) how).notify
          g x pid (FAN_MOVED_TO ||| onDir n.isDir) how'
  | .modify h pid how =>
    match s.fs.nodes.get h with
    | none => none
    | some n => if n.isDir then none else some (s.notify n.parent n.name pid FAN_MODIFY how)
  | .read n => some { s with inbox := s.inbox ++ s.queue.take n, queue := s.queue.drop n }
  | .apply =>
    match s.walk, s.inbox with
    | none, e :: inbox => some ({ s with inbox := inbox }.applyOne mine e)
    | _, _ => none
  | .walk => s.walk.map (s.walkOne mine)
  | .report => some { s with pending := [] }

/-- `Watch` begins with `add(".")`, whose files it doesn't report. -/
def Watching.start (fs : Fs) : Watching where
  fs := fs
  walk := some { todo := [.stat []], pid := none }

/-- What some run leads to whose acts all meet `ok`. -/
inductive Watching.Reached (ok : Watching → Act → Prop) (mine : Int → Bool) : Watching → Prop
  | start (fs : Fs) : Reached ok mine (.start fs)
  | step {s t : Watching} (act : Act) (h : Reached ok mine s) (hok : ok s act)
      (hstep : s.step mine act = some t) : Reached ok mine t

/-- All events have been applied. -/
def Watching.Quiet (s : Watching) : Prop := s.queue = [] ∧ s.inbox = [] ∧ s.walk = none

end Watch

end Fern

/-
What a change does to the folders, and what it does to the queue.

Of a change only where the folders are counts (`Fs.dir`).  Of the queue, that a removal stays one
whatever is joined with it, and that the events for other names are left as they are.
-/
import Fern.Watch.Tree
import Mathlib.Data.List.Induction

namespace Fern

open List

namespace Watch

open Fanotify (Event)

/-! ### Files and folders -/

namespace Fs

variable {fs fs' : Fs} {n : Node} {g h : String} {x : Bytes} {p : Rel}

/-- Where a folder is. -/
def dir (fs : Fs) (h : String) : Option (String × Bytes) :=
  (fs.nodes.get h).bind fun n => if n.isDir then some (n.parent, n.name) else none

theorem dir_eq_some : fs.dir h = some (g, x) ↔
    ∃ n, fs.nodes.get h = some n ∧ n.isDir = true ∧ n.parent = g ∧ n.name = x := by
  unfold dir
  cases fs.nodes.get h with
  | none => simp
  | some n => cases hdir : n.isDir <;> simp [hdir]

theorem dir_inj {h' : String} (h₁ : fs.dir h = some (g, x)) (h₂ : fs.dir h' = some (g, x)) :
    h = h' := by
  obtain ⟨n, hn, -, hparent, hname⟩ := dir_eq_some.1 h₁
  obtain ⟨n', hn', -, hparent', hname'⟩ := dir_eq_some.1 h₂
  exact fs.names hn hn' (hparent.trans hparent'.symm) (hname.trans hname'.symm)

theorem child_eq_some : fs.child g x = some h ↔
    ∃ n, fs.nodes.get h = some n ∧ n.parent = g ∧ n.name = x := by
  constructor
  · intro hchild
    have hfound := find?_some hchild
    cases hn : fs.nodes.get h with
    | none => simp [hn] at hfound
    | some n =>
      simp only [hn, Option.any_some, Bool.and_eq_true, decide_eq_true_eq] at hfound
      exact ⟨n, rfl, hfound⟩
  · rintro ⟨n, hn, hparent, hname⟩
    cases hchild : fs.child g x with
    | none => exact absurd hname (child_eq_none hchild hn hparent)
    | some h' =>
      have hfound := find?_some hchild
      cases hn' : fs.nodes.get h' with
      | none => simp [hn'] at hfound
      | some n' =>
        simp only [hn', Option.any_some, Bool.and_eq_true, decide_eq_true_eq] at hfound
        rw [fs.names hn' hn (hfound.1.trans hparent.symm) (hfound.2.trans hname.symm)]

theorem isFolder_of_dir (hdir : fs.dir h = some (g, x)) : fs.isFolder h = true := by
  obtain ⟨n, hn, hisDir, -⟩ := dir_eq_some.1 hdir
  simp [isFolder, hn, hisDir]

theorem dir_of_child (hchild : fs.child g x = some h) (hfolder : fs.isFolder h = true) :
    fs.dir h = some (g, x) := by
  obtain ⟨n, hn, hparent, hname⟩ := child_eq_some.1 hchild
  have hroot : h ≠ fs.root := by
    rintro rfl
    rw [fs.root_none] at hn
    cases hn
  refine dir_eq_some.2 ⟨n, hn, ?_, hparent, hname⟩
  simpa [isFolder, hroot, hn] using hfolder

theorem find_concat : fs.find (p ++ [x]) = fs.find p >>= fun g => fs.lookup g x := by
  simp [find, foldlM_append]

theorem find_below (hfind : fs.find p = .ok g) (hfolder : fs.isFolder g = true)
    (hdir : fs.dir h = some (g, x)) : fs.find (p ++ [x]) = .ok h := by
  obtain ⟨n, hn, -, hparent, hname⟩ := dir_eq_some.1 hdir
  rw [find_concat, hfind]
  show fs.lookup g x = .ok h
  rw [lookup, if_pos hfolder, child_eq_some.2 ⟨n, hn, hparent, hname⟩]
  rfl

theorem of_find_concat (hfind : fs.find (p ++ [x]) = .ok h) :
    ∃ g, fs.find p = .ok g ∧ fs.isFolder g = true ∧ fs.child g x = some h := by
  rw [find_concat] at hfind
  cases hp : fs.find p with
  | error e =>
    rw [hp] at hfind
    cases hfind
  | ok g =>
    rw [hp] at hfind
    have hlookup : fs.lookup g x = .ok h := hfind
    unfold lookup at hlookup
    split at hlookup
    · rename_i hfolder
      refine ⟨g, rfl, hfolder, ?_⟩
      cases hchild : fs.child g x with
      | none =>
        rw [hchild] at hlookup
        cases hlookup
      | some h' =>
        rw [hchild] at hlookup
        cases hlookup
        rfl
    · cases hlookup

theorem find_inj {q : Rel} (hp : fs.find p = .ok h) (hq : fs.find q = .ok h) : p = q := by
  -- the workspace's own folder is in none
  have hroot {p : Rel} {x : Bytes} (hfind : fs.find (p ++ [x]) = .ok fs.root) : False := by
    obtain ⟨g, -, -, hchild⟩ := of_find_concat hfind
    obtain ⟨n, hn, -⟩ := child_eq_some.1 hchild
    rw [fs.root_none] at hn
    cases hn
  induction p using List.reverseRecOn generalizing q h with
  | nil =>
    cases hp
    rcases eq_nil_or_concat' q with rfl | ⟨q, x, rfl⟩
    · rfl
    · exact (hroot hq).elim
  | append_singleton p x ih =>
    rcases eq_nil_or_concat' q with rfl | ⟨q, y, rfl⟩
    · cases hq
      exact (hroot hp).elim
    · obtain ⟨g, hg, -, hchild⟩ := of_find_concat hp
      obtain ⟨g', hg', -, hchild'⟩ := of_find_concat hq
      obtain ⟨n, hn, hparent, hname⟩ := child_eq_some.1 hchild
      obtain ⟨n', hn', hparent', hname'⟩ := child_eq_some.1 hchild'
      rw [hn] at hn'
      cases hn'
      rw [← hname, ← hname', ih hg (by rw [← hparent, hparent']; exact hg')]

theorem mem_entries : n ∈ fs.entries g ↔ n.parent = g ∧ ∃ h, fs.nodes.get h = some n := by
  unfold entries
  rw [mem_insertionSort, mem_filter, mem_filterMap]
  constructor
  · rintro ⟨⟨h, -, hn⟩, hparent⟩
    exact ⟨of_decide_eq_true hparent, h, hn⟩
  · rintro ⟨hparent, h, hn⟩
    exact ⟨⟨h, FinMap.mem_keys.2 (by simp [hn]), hn⟩, decide_eq_true hparent⟩

/-- All folders but `h` are where they were, and `h` is at `place`. -/
structure Moves (fs fs' : Fs) (h : String) (place : Option (String × Bytes)) : Prop where
  root : fs'.root = fs.root
  moved : fs'.dir h = place
  others : ∀ q, q ≠ h → fs'.dir q = fs.dir q

theorem moves_create (hstep : fs.create h n = some fs') :
    fs.dir h = none ∧ Moves fs fs' h (if n.isDir then some (n.parent, n.name) else none) := by
  unfold create at hstep
  split at hstep
  · split at hstep
    · rename_i hok hcond
      cases hstep
      simp only [Bool.and_eq_true, decide_eq_true_eq] at hcond
      refine ⟨by simp [dir, hcond.1], rfl, by simp [dir, put], ?_⟩
      intro q hq
      simp [dir, put, hq]
    · cases hstep
  · cases hstep

theorem moves_erase (fs : Fs) (h : String) : Moves fs (fs.erase h) h none := by
  refine ⟨rfl, by simp [dir, erase], ?_⟩
  intro q hq
  simp [dir, erase, hq]

theorem moves_delete (hstep : fs.delete h = some fs') : Moves fs fs' h none := by
  unfold delete at hstep
  split at hstep
  · cases hstep
    exact moves_erase fs h
  · cases hstep

/-- Renaming is taking it from its place, and what has the new name, and putting it there. -/
theorem moves_rename (hn : fs.nodes.get h = some n) (hstep : fs.rename h g x = some fs') :
    Moves ((fs.child g x).elim (fs.erase h) (fs.erase h).erase) fs' h
      (if n.isDir then some (g, x) else none) := by
  simp only [rename, hn] at hstep
  split at hstep
  · split at hstep
    · cases hstep
      refine ⟨rfl, by simp [dir, put], ?_⟩
      intro q hq
      simp [dir, put, hq]
    · cases hstep
  · cases hstep

theorem dir_rename (hn : fs.nodes.get h = some n) (hfile : n.isDir = false)
    (hstep : fs.rename h g x = some fs') : fs'.root = fs.root ∧ ∀ a, fs'.dir a = fs.dir a := by
  have hmoves := moves_rename hn hstep
  rw [hfile] at hmoves
  simp only [rename, hn] at hstep
  split at hstep
  swap
  · cases hstep
  rename_i hcond
  simp only [Bool.and_eq_true] at hcond
  have hroot : h ≠ fs.root := by
    rintro rfl
    rw [fs.root_none] at hn
    cases hn
  have hnone : fs.dir h = none := by simp [dir, hn, hfile]
  cases hchild : fs.child g x with
  | none =>
    rw [hchild] at hmoves
    refine ⟨hmoves.root, ?_⟩
    intro a
    by_cases ha : a = h
    · rw [ha, hmoves.moved, hnone]
      rfl
    · exact (hmoves.others a ha).trans ((moves_erase fs h).others a ha)
  | some b =>
    rw [hchild] at hmoves hcond
    have hb : fs.dir b = none := by
      have hkind := hcond.1
      simp only [Option.all_some, replaceable, Bool.and_eq_true, decide_eq_true_eq] at hkind
      have hfolder : fs.isFolder b = false := by
        rw [← hkind.1.1]
        simp [isFolder, hroot, hn, hfile]
      cases hdir : fs.dir b with
      | none => rfl
      | some place =>
        rw [isFolder_of_dir (g := place.1) (x := place.2) hdir] at hfolder
        cases hfolder
    refine ⟨hmoves.root, ?_⟩
    intro a
    by_cases ha : a = h
    · rw [ha, hmoves.moved, hnone]
      rfl
    rw [hmoves.others a ha]
    show ((fs.erase h).erase b).dir a = fs.dir a
    by_cases hab : a = b
    · rw [hab, (moves_erase (fs.erase h) b).moved, hb]
    · rw [(moves_erase (fs.erase h) b).others a hab]
      exact (moves_erase fs h).others a ha

theorem isName_create (hstep : fs.create h n = some fs') : isName n.name = true := by
  unfold create at hstep
  split at hstep
  · rename_i hok
    exact hok.2.1
  · cases hstep

theorem isName_rename (hstep : fs.rename h g x = some fs') : isName x = true := by
  unfold rename at hstep
  split at hstep
  · cases hstep
  · split at hstep
    · simp only at hstep
      split at hstep
      · rename_i hok
        exact hok.2.1
      · cases hstep
    · cases hstep

end Fs

/-! ### Events -/

theorem has_or (a b bits : Nat) : has (a ||| b) bits = (has a bits || has b bits) := by
  unfold has
  rw [Nat.and_or_distrib_right]
  by_cases ha : a &&& bits = 0
  · simp [ha]
  · simp [ha, Nat.or_eq_zero_iff]

/-- Of a folder with name `x` in folder `g`. -/
def about (g : String) (x : Bytes) (e : Event) : Bool :=
  e.handle = g && e.name = x && has e.mask FAN_ONDIR

def removal (e : Event) : Bool := has e.mask (FAN_DELETE ||| FAN_MOVED_FROM)

def addition (e : Event) : Bool := has e.mask (FAN_CREATE ||| FAN_MOVED_TO)

/-- `apply` forgets `x` in `g` for it. -/
def Removes (e : Event) (g : String) (x : Bytes) : Prop := about g x e = true ∧ removal e = true

/-- `apply` walks `x` in `g` for it. -/
def Adds (e : Event) (g : String) (x : Bytes) : Prop :=
  about g x e = true ∧ addition e = true ∧ removal e = false

/-- What `apply` doesn't pass over. -/
def Plain (e : Event) : Prop := has e.mask FAN_Q_OVERFLOW = false ∧ e.name ≠ [] ∧ e.name ≠ [46]

section events

variable {e old : Event} {g g' : String} {x x' : Bytes} {queue : List Event} {how : Option Nat}

theorem about_iff : about g x e = true ↔ e.handle = g ∧ e.name = x ∧
    has e.mask FAN_ONDIR = true := by
  simp [about, and_assoc]

theorem about_inj (h : about g x e = true) (h' : about g' x' e = true) : g = g' ∧ x = x' := by
  obtain ⟨hg, hx, -⟩ := about_iff.1 h
  obtain ⟨hg', hx', -⟩ := about_iff.1 h'
  exact ⟨hg.symm.trans hg', hx.symm.trans hx'⟩

theorem not_adds_of_removes (h : Removes e g x) : ¬ Adds e g' x' := by
  intro hadds
  have hno := hadds.2.2
  rw [h.2] at hno
  cases hno

/-- The event that has taken up another. -/
def joined (old e : Event) : Event := { old with mask := old.mask ||| e.mask }

theorem enqueue_cases (how : Option Nat) (e : Event) (queue : List Event) :
    enqueue how e queue = queue ++ [e] ∨
      ∃ l old r, queue = l ++ old :: r ∧ alike old e = true ∧
        enqueue how e queue = l ++ joined old e :: r := by
  cases how with
  | none => exact .inl rfl
  | some i =>
    cases hi : queue[i]? with
    | none =>
      left
      simp only [enqueue, hi]
    | some old =>
      by_cases halike : alike old e = true
      · obtain ⟨hlt, hget⟩ := List.getElem?_eq_some_iff.1 hi
        refine .inr ⟨queue.take i, old, queue.drop (i + 1), ?_, halike, ?_⟩
        · rw [← hget, getElem_cons_drop, take_append_drop]
        · simp only [enqueue, hi]
          rw [if_pos halike, set_eq_take_append_cons_drop, if_pos hlt]
          rfl
      · left
        simp only [enqueue, hi]
        rw [if_neg halike]

theorem alike_iff : alike old e = true ↔ old.handle = e.handle ∧ old.name = e.name ∧
    old.pid = e.pid ∧ has old.mask FAN_ONDIR = has e.mask FAN_ONDIR := by
  simp [alike, and_assoc]

theorem about_alike (h : alike old e = true) : about g x old = about g x e := by
  obtain ⟨hhandle, hname, -, hdir⟩ := alike_iff.1 h
  simp only [about, hhandle, hname, hdir]

theorem about_joined (h : alike old e = true) : about g x (joined old e) = about g x e := by
  obtain ⟨hhandle, hname, -, hdir⟩ := alike_iff.1 h
  simp only [about, joined, has_or, hhandle, hname, hdir, Bool.or_self]

theorem removes_enqueue (h : ∃ old ∈ queue, Removes old g x) (how : Option Nat) (e : Event) :
    ∃ old ∈ enqueue how e queue, Removes old g x := by
  obtain ⟨old, hold, hremoves⟩ := h
  rcases enqueue_cases how e queue with heq | ⟨l, old', r, hqueue, halike, heq⟩
  · exact ⟨old, by rw [heq]; exact mem_append_left _ hold, hremoves⟩
  · rw [heq]
    rw [hqueue] at hold
    rcases mem_append.1 hold with hl | hr
    · exact ⟨old, mem_append_left _ hl, hremoves⟩
    rcases mem_cons.1 hr with rfl | hr
    · refine ⟨joined old e, by simp, ?_, ?_⟩
      · rw [about_joined halike, ← about_alike halike]
        exact hremoves.1
      · show has (old.mask ||| e.mask) _ = true
        rw [has_or, Bool.or_eq_true]
        exact .inl hremoves.2
    · exact ⟨old, mem_append_right _ (mem_cons_of_mem _ hr), hremoves⟩

theorem removes_new (h : Removes e g x) (how : Option Nat) (queue : List Event) :
    ∃ old ∈ enqueue how e queue, Removes old g x := by
  rcases enqueue_cases how e queue with heq | ⟨l, old, r, hqueue, halike, heq⟩
  · exact ⟨e, by simp [heq], h⟩
  · refine ⟨joined old e, by simp [heq], ?_, ?_⟩
    · rw [about_joined halike]
      exact h.1
    · show has (old.mask ||| e.mask) _ = true
      rw [has_or, Bool.or_eq_true]
      exact .inr h.2

theorem filter_enqueue (h : about g x e = false) (how : Option Nat) (queue : List Event) :
    (enqueue how e queue).filter (about g x) = queue.filter (about g x) := by
  rcases enqueue_cases how e queue with heq | ⟨l, old, r, hqueue, halike, heq⟩
  · rw [heq, filter_append, filter_cons_of_neg (by simp [h]), filter_nil,
      append_nil]
  · rw [heq, hqueue, filter_append, filter_append,
      filter_cons_of_neg (by simp [about_joined halike, h]),
      filter_cons_of_neg (by simp [about_alike halike, h])]

theorem plain_enqueue {P : String → Prop} (hqueue : ∀ old ∈ queue, P old.handle ∧ Plain old)
    (hnew : P e.handle ∧ Plain e) (how : Option Nat) :
    ∀ old ∈ enqueue how e queue, P old.handle ∧ Plain old := by
  intro old hold
  rcases enqueue_cases how e queue with heq | ⟨l, old', r, hsplit, halike, heq⟩
  · rw [heq] at hold
    rcases mem_append.1 hold with hold | hold
    · exact hqueue old hold
    · rw [mem_singleton.1 hold]
      exact hnew
  · rw [heq] at hold
    rw [hsplit] at hqueue
    rcases mem_append.1 hold with hl | hr
    · exact hqueue old (mem_append_left _ hl)
    rcases mem_cons.1 hr with rfl | hr
    · obtain ⟨hP, hover, hname⟩ := hqueue old' (by simp)
      refine ⟨hP, ?_, hname⟩
      show has (old'.mask ||| e.mask) _ = false
      rw [has_or, hover, hnew.2.1]
      rfl
    · exact hqueue old (mem_append_right _ (mem_cons_of_mem _ hr))

end events

end Watch

end Fern

/-
A watch comes to know the workspace's folders.

A folder is `Known` if the tree has its path, and those of all folders above it, and all are marked.
What else the tree has is `Doomed`: a queued event will have it forgotten.  And what is next below a
known folder and isn't known is `Owed`: an event or the walk will come to it.  Each act keeps that,
so once there are no events and no walk the tree has the folders' paths and nothing else.

It takes that a folder's addition is an event of its own.  Joined with an earlier event for its
name, it comes before a removal that it came after, or in one mask with it, and then the removal
wins.
-/
import Fern.Proofs.Watch.Tree

namespace Fern

open List

variable {mine : Int → Bool} {l : List Event}

namespace Watch

open Fanotify (Event)

variable {s t : Watching} {a g h : String} {x : Bytes} {p q : Rel} {e : Event}

/-! ### What the tree knows

`Known`, `Doomed` and `Owed` speak of the state alone: of the folders as they are now, and of the
events and the items of the walk that are still to come.  `Inv` puts them together. -/

def Watching.events (s : Watching) : List Event := s.inbox ++ s.queue

def Watching.todo (s : Watching) : List Item := s.walk.elim [] Walk.todo

/-- The tree has the folder's path, as all those above it, and hears of what happens in it. -/
inductive Known (s : Watching) : String → Rel → Prop
  | root (hdirs : s.dirs.get s.fs.root = some []) (hmark : s.fs.root ∈ s.marks) :
      Known s s.fs.root []
  | child {g h : String} {p : Rel} {x : Bytes} (hparent : Known s g p)
      (hdir : s.fs.dir h = some (g, x)) (hskip : skip x = false)
      (hdirs : s.dirs.get h = some (p ++ [x])) (hmark : h ∈ s.marks) : Known s h (p ++ [x])

/-- What the tree has at `q` and below will be forgotten. -/
def Doomed (s : Watching) (q : Rel) : Prop :=
  ∃ g p x, (∃ e ∈ s.events, Removes e g x) ∧ Known s g p ∧ p ++ [x] <+: q

/-- The item comes to folder `a`, which is `x` in the folder at `p`. -/
def Item.ComesTo (marks : List String) (a : String) (p : Rel) (x : Bytes) : Item → Prop
  | .stat q | .visit q => q = p ++ [x]
  | .handle q => q = p ++ [x] ∧ a ∈ marks
  | .list q => q = p
  | .file _ => False

/-- The item comes to the workspace's own folder. -/
def Item.ComesToRoot : Item → Prop
  | .stat q | .visit q | .handle q => q = []
  | _ => False

/-- An event or the walk will come to folder `a`, which is `x` in folder `g` at `p`. -/
inductive Owed (s : Watching) (a g : String) (p : Rel) (x : Bytes) : Prop
  | event (e : Event) (he : e ∈ s.events) (hadds : Adds e g x)
  | walk (item : Item) (hitem : item ∈ s.todo) (hcomes : item.ComesTo s.marks a p x)
  | doomed (h : Doomed s (p ++ [x]))

theorem Known.of_root {r : String} (hr : s.fs.root = r) (hdirs : s.dirs.get r = some [])
    (hmark : r ∈ s.marks) : Known s r [] := by
  subst hr
  exact .root hdirs hmark

theorem Known.dirs_eq (hk : Known s h p) : s.dirs.get h = some p := by
  cases hk with
  | root hdirs => exact hdirs
  | child _ _ _ hdirs => exact hdirs

theorem Known.mem_marks (hk : Known s h p) : h ∈ s.marks := by
  cases hk with
  | root _ hmark => exact hmark
  | child _ _ _ _ hmark => exact hmark

theorem Known.isFolder (hk : Known s h p) : s.fs.isFolder h = true := by
  cases hk with
  | root => simp [Fs.isFolder]
  | child _ hdir => exact Fs.isFolder_of_dir hdir

theorem Known.find_eq (hk : Known s h p) : s.fs.find p = .ok h := by
  induction hk with
  | root => rfl
  | child hparent hdir _ _ _ ih => exact Fs.find_below ih hparent.isFolder hdir

theorem Known.unique {h' : String} (hk : Known s h p) (hk' : Known s h' p) : h = h' := by
  have heq := hk.find_eq.symm.trans hk'.find_eq
  cases heq
  rfl

theorem Known.skip_eq (hk : Known s h p) : ∀ x ∈ p, skip x = false := by
  induction hk with
  | root =>
    intro x hx
    cases hx
  | child _ _ hskip _ _ ih =>
    intro y hy
    rcases mem_append.1 hy with hy | hy
    · exact ih y hy
    · rw [mem_singleton.1 hy]
      exact hskip

theorem Known.mono (hk : Known s h p) (hroot : t.fs.root = s.fs.root)
    (hdir : ∀ a d, s.fs.dir a = some d → t.fs.dir a = some d)
    (hmarks : ∀ m ∈ s.marks, m ∈ t.marks)
    (hdirs : ∀ c q, Known s c q → q <+: p → t.dirs.get c = some q) : Known t h p := by
  induction hk with
  | root hd hmark =>
    exact .of_root hroot (hdirs _ _ (.root hd hmark) prefix_rfl) (hmarks _ hmark)
  | child hparent ha hskip hd hmark ih =>
    have hk := hdirs _ _ (.child hparent ha hskip hd hmark) prefix_rfl
    refine .child (ih ?_) (hdir _ _ ha) hskip hk (hmarks _ hmark)
    intro c q hc hq
    exact hdirs c q hc (hq.trans (prefix_append _ _))

theorem Item.ComesTo.mono {item : Item} {marks marks' : List String}
    (hcomes : item.ComesTo marks a p x) (hmarks : ∀ m ∈ marks, m ∈ marks') :
    item.ComesTo marks' a p x := by
  cases item with
  | handle q => exact ⟨hcomes.1, hmarks a hcomes.2⟩
  | stat q => exact hcomes
  | visit q => exact hcomes
  | list q => exact hcomes
  | file q => exact hcomes

theorem Doomed.below (hd : Doomed s p) (hpq : p <+: q) : Doomed s q := by
  obtain ⟨g, p', x, he, hk, hpre⟩ := hd
  exact ⟨g, p', x, he, hk, hpre.trans hpq⟩

theorem not_doomed_nil : ¬ Doomed s [] := by
  rintro ⟨g, p, x, -, -, hpre⟩
  have hlen := hpre.length_le
  simp at hlen

/-- The walk may be sent to `p`. -/
def Next (s : Watching) (p : Rel) : Prop :=
  p = [] ∨ Doomed s p ∨ ∃ g q x, Known s g q ∧ p = q ++ [x]

theorem next_child (h : Known s g p ∨ Doomed s p) (x : Bytes) : Next s (p ++ [x]) := by
  rcases h with hk | hd
  · exact .inr (.inr ⟨g, p, x, hk, rfl⟩)
  · exact .inr (.inl (hd.below (prefix_append p [x])))

/-- What the walk is on. -/
def Item.Sound (s : Watching) : Item → Prop
  | .stat p | .visit p => Next s p
  | .handle p => (p = [] ∧ s.fs.root ∈ s.marks) ∨ Doomed s p ∨
      ∃ a g q x, Known s g q ∧ p = q ++ [x] ∧ skip x = false ∧ s.fs.dir a = some (g, x) ∧
        a ∈ s.marks
  | .list p => Doomed s p ∨ ∃ g, Known s g p
  | .file _ => True

/-- What holds in every state. -/
structure Inv (s : Watching) : Prop where
  plain : ∀ e ∈ s.events, e.handle ∈ s.marks ∧ Plain e
  /-- The last event for a folder that is there is its addition. -/
  last : ∀ a g x, s.fs.dir a = some (g, x) →
    ∀ e, (s.events.filter (about g x)).getLast? = some e → Adds e g x
  root : Known s s.fs.root [] ∨ ∃ item ∈ s.todo, item.ComesToRoot
  known : ∀ h p, s.dirs.get h = some p → Known s h p ∨ Doomed s p
  owed : ∀ a g p x, s.fs.dir a = some (g, x) → Known s g p → skip x = false →
    Known s a (p ++ [x]) ∨ Owed s a g p x
  walk : ∀ item ∈ s.todo, item.Sound s

/-! ### What an act keeps

Whatever an act does, a known folder stays known or is doomed, and a removal that is queued stays
queued (`Keeps`).  `Inv.advance` takes the rest from that: an act has to answer only for what it
adds. -/

/-- What is known is known or doomed, and what is doomed is doomed. -/
structure Keeps (s t : Watching) : Prop where
  root : t.fs.root = s.fs.root
  marks : ∀ h ∈ s.marks, h ∈ t.marks
  known : ∀ h p, Known s h p → Known t h p ∨ Doomed t p
  removes : ∀ g p x, Known s g p → (∃ e ∈ s.events, Removes e g x) → ∃ e ∈ t.events, Removes e g x

theorem Keeps.doomed (hkeeps : Keeps s t) (hd : Doomed s q) : Doomed t q := by
  obtain ⟨g, p, x, he, hks, hpre⟩ := hd
  rcases hkeeps.known g p hks with hk | hd
  · exact ⟨g, p, x, hkeeps.removes g p x hks he, hk, hpre⟩
  · exact hd.below ((prefix_append p [x]).trans hpre)

theorem Keeps.next (hkeeps : Keeps s t) (h : Next s p) : Next t p := by
  rcases h with h | h | ⟨g, q, x, hk, rfl⟩
  · exact .inl h
  · exact .inr (.inl (hkeeps.doomed h))
  · exact next_child (hkeeps.known g q hk) x

/-- The walk's items stay sound, where the folder to be recorded stays or is doomed. -/
theorem Keeps.sound (hkeeps : Keeps s t) {item : Item} (hsound : item.Sound s)
    (hdir : ∀ a g q x, Known t g q → s.fs.dir a = some (g, x) →
      t.fs.dir a = some (g, x) ∨ Doomed t (q ++ [x])) : item.Sound t := by
  cases item with
  | stat p => exact hkeeps.next hsound
  | visit p => exact hkeeps.next hsound
  | file p => exact trivial
  | handle p =>
    rcases hsound with ⟨hp, hmark⟩ | hd | ⟨a, g, q, x, hk, rfl, hskip, ha, hmark⟩
    · refine .inl ⟨hp, ?_⟩
      rw [hkeeps.root]
      exact hkeeps.marks _ hmark
    · exact .inr (.inl (hkeeps.doomed hd))
    · rcases hkeeps.known g q hk with hk | hd
      · rcases hdir a g q x hk ha with ha | hd
        · exact .inr (.inr ⟨a, g, q, x, hk, rfl, hskip, ha, hkeeps.marks a hmark⟩)
        · exact .inr (.inl hd)
      · exact .inr (.inl (hd.below (prefix_append q [x])))
  | list p =>
    rcases hsound with hd | ⟨g, hk⟩
    · exact .inl (hkeeps.doomed hd)
    · rcases hkeeps.known g p hk with hk | hd
      · exact .inr ⟨g, hk⟩
      · exact .inl hd

/-- The rule for acts that forget nothing.  What the act is about is given by `hdirs`, which says
what is new in the tree, and `howed`, which says that what was owed is owed or known. -/
theorem Inv.advance (hs : Inv s) (hkeeps : Keeps s t)
    (hplain : ∀ e ∈ t.events, e.handle ∈ t.marks ∧ Plain e)
    (hlast : ∀ a g x, t.fs.dir a = some (g, x) →
      ∀ e, (t.events.filter (about g x)).getLast? = some e → Adds e g x)
    (hroot : Known t t.fs.root [] ∨ ∃ item ∈ t.todo, item.ComesToRoot)
    (hdirs : ∀ h p, t.dirs.get h = some p →
      s.dirs.get h = some p ∨ (.list p ∈ t.todo ∧ (Known t h p ∨ Doomed t p)))
    (howed : ∀ a g p x, t.fs.dir a = some (g, x) → Known s g p → Known t g p → skip x = false →
      (s.fs.dir a = some (g, x) ∧ Known s a (p ++ [x])) ∨ Known t a (p ++ [x]) ∨ Owed t a g p x)
    (hwalk : ∀ item ∈ t.todo, item.Sound t) : Inv t := by
  refine ⟨hplain, hlast, hroot, ?_, ?_, hwalk⟩
  · intro h p hp
    rcases hdirs h p hp with hp | ⟨-, hp⟩
    · rcases hs.known h p hp with hk | hd
      · exact hkeeps.known h p hk
      · exact .inr (hkeeps.doomed hd)
    · exact hp
  · intro a g p x ha hk hskip
    rcases hdirs g p hk.dirs_eq with hp | ⟨hlist, -⟩
    · rcases hs.known g p hp with hks | hd
      · rcases howed a g p x ha hks hk hskip with ⟨-, hka⟩ | hka | howed
        · rcases hkeeps.known a _ hka with hka | hd
          · exact .inl hka
          · exact .inr (.doomed hd)
        · exact .inl hka
        · exact .inr howed
      -- known anew though it was doomed: then it still is
      · exact .inr (.doomed ((hkeeps.doomed hd).below (prefix_append p [x])))
    · exact .inr (.walk _ hlist rfl)

/-! ### Changes

A change to the workspace is one event, put in the queue if the folder it happened in is marked.
Joining it with an earlier one keeps the removals; an addition stays the last of its name because
the change is orderly. -/

section notify

variable {pid : Int} {mask : Nat} {how : Option Nat}

theorem notify_eq : s.notify g x pid mask how = { s with
    queue := if g ∈ s.marks then
      enqueue how { mask := mask, pid := pid, handle := g, name := x } s.queue else s.queue } := by
  unfold Watching.notify
  split
  · rfl
  · rfl

@[simp] theorem notify_fs : (s.notify g x pid mask how).fs = s.fs := by rw [notify_eq]

@[simp] theorem notify_marks : (s.notify g x pid mask how).marks = s.marks := by rw [notify_eq]

@[simp] theorem notify_dirs : (s.notify g x pid mask how).dirs = s.dirs := by rw [notify_eq]

@[simp] theorem notify_todo : (s.notify g x pid mask how).todo = s.todo := by
  rw [notify_eq]
  rfl

theorem notify_events : (s.notify g x pid mask how).events =
    if g ∈ s.marks then
      s.inbox ++ enqueue how { mask := mask, pid := pid, handle := g, name := x } s.queue
    else s.events := by
  rw [notify_eq, Watching.events, Watching.events, apply_ite (s.inbox ++ ·)]

theorem notify_removes {g' : String} {x' : Bytes} (h : ∃ e ∈ s.events, Removes e g' x') :
    ∃ e ∈ (s.notify g x pid mask how).events, Removes e g' x' := by
  rw [notify_events]
  split
  · obtain ⟨e, he, hremoves⟩ := h
    rcases mem_append.1 he with he | he
    · exact ⟨e, mem_append_left _ he, hremoves⟩
    · obtain ⟨old, hold, hremoves⟩ := removes_enqueue ⟨e, he, hremoves⟩ how
        { mask := mask, pid := pid, handle := g, name := x }
      exact ⟨old, mem_append_right _ hold, hremoves⟩
  · exact h

theorem notify_filter {g' : String} {x' : Bytes}
    (h : about g' x' { mask := mask, pid := pid, handle := g, name := x } = false) :
    (s.notify g x pid mask how).events.filter (about g' x') = s.events.filter (about g' x') := by
  rw [notify_events]
  split
  · rw [filter_append, filter_enqueue h, ← filter_append]
    rfl
  · rfl

theorem notify_plain (hs : ∀ e ∈ s.events, e.handle ∈ s.marks ∧ Plain e) (hname : isName x = true)
    (hmask : has mask FAN_Q_OVERFLOW = false) :
    ∀ e ∈ (s.notify g x pid mask how).events, e.handle ∈ s.marks ∧ Plain e := by
  rw [notify_events]
  split
  · rename_i hg
    intro e he
    rcases mem_append.1 he with he | he
    · exact hs e (mem_append_left _ he)
    · have hx : x ≠ [] ∧ x ≠ [46] := by
        simp only [isName, Bool.and_eq_true, decide_eq_true_eq] at hname
        exact ⟨hname.1.1.1.1, hname.1.1.1.2⟩
      refine plain_enqueue (P := (· ∈ s.marks)) ?_ ⟨hg, hmask, hx⟩ how e he
      intro old hold
      exact hs old (mem_append_right _ hold)
  · exact hs

theorem adds_of_filter {l' : List Event} (hfilter : l'.filter (about g x) = l.filter (about g x))
    (he : e ∈ l) (hadds : Adds e g x) : e ∈ l' := by
  have hmem : e ∈ l'.filter (about g x) := by
    rw [hfilter]
    exact mem_filter.2 ⟨he, hadds.1⟩
  exact (mem_filter.1 hmem).1

end notify

theorem Owed.keep (howed : Owed s a g p x) (hkeeps : Keeps s t) (htodo : t.todo = s.todo)
    (hfilter : t.events.filter (about g x) = s.events.filter (about g x)) : Owed t a g p x := by
  cases howed with
  | event e he hadds => exact .event e (adds_of_filter hfilter he hadds) hadds
  | walk item hitem hcomes => exact .walk item (htodo ▸ hitem) (hcomes.mono hkeeps.marks)
  | doomed h => exact .doomed (hkeeps.doomed h)

theorem Inv.root_keep (hs : Inv s) (hkeeps : Keeps s t)
    (hwalk : ∀ i ∈ s.todo, i.ComesToRoot → Known t t.fs.root [] ∨ ∃ i ∈ t.todo, i.ComesToRoot) :
    Known t t.fs.root [] ∨ ∃ i ∈ t.todo, i.ComesToRoot := by
  rcases hs.root with hk | ⟨i, hi, hcomes⟩
  · rw [hkeeps.root]
    exact .inl ((hkeeps.known _ _ hk).resolve_right not_doomed_nil)
  · exact hwalk i hi hcomes

section change

variable {fs' : Fs} {pid : Int} {mask : Nat} {how : Option Nat}

/-- The event that is told of a change. -/
def told (g : String) (x : Bytes) (pid : Int) (mask : Nat) : Event :=
  { mask := mask, pid := pid, handle := g, name := x }

/-- The rule for changes: `hat` says of each folder that it is where it was and isn't told of, or
that its addition is told behind all events; `hgone` that a folder is where it was, or doomed there.
-/
theorem Inv.change (hs : Inv s) (hroot : fs'.root = s.fs.root) (hname : isName x = true)
    (hmask : has mask FAN_Q_OVERFLOW = false)
    (hknown : ∀ c q, Known s c q → Known ({ s with fs := fs' }.notify g x pid mask how) c q ∨
      Doomed ({ s with fs := fs' }.notify g x pid mask how) q)
    (hat : ∀ a g' x', fs'.dir a = some (g', x') →
      (s.fs.dir a = some (g', x') ∧ about g' x' (told g x pid mask) = false) ∨
        (g' = g ∧ x' = x ∧ how = none ∧ Adds (told g x pid mask) g x))
    (hgone : ∀ a g' q x', Known ({ s with fs := fs' }.notify g x pid mask how) g' q →
      s.fs.dir a = some (g', x') → fs'.dir a = some (g', x') ∨
        Doomed ({ s with fs := fs' }.notify g x pid mask how) (q ++ [x'])) :
    Inv ({ s with fs := fs' }.notify g x pid mask how) := by
  have hkeeps : Keeps s ({ s with fs := fs' }.notify g x pid mask how) := by
    refine ⟨?_, ?_, hknown, fun g' _ x' _ h => notify_removes (s := { s with fs := fs' }) h⟩
    · rw [notify_fs]
      exact hroot
    · intro m hm
      rwa [notify_marks]
  have hevents (hg : g ∈ s.marks) (hnone : how = none) :
      ({ s with fs := fs' }.notify g x pid mask how).events = s.events ++ [told g x pid mask] := by
    rw [notify_events, if_pos hg, hnone]
    exact (append_assoc _ _ _).symm
  refine hs.advance hkeeps ?_ ?_ (hs.root_keep hkeeps ?_) ?_ ?_ ?_
  · rw [notify_marks]
    exact notify_plain hs.plain hname hmask
  · intro a g' x' ha e he
    rw [notify_fs] at ha
    rcases hat a g' x' ha with ⟨ha, habout⟩ | ⟨rfl, rfl, hnone, hadds⟩
    · rw [notify_filter habout] at he
      exact hs.last a g' x' ha e he
    · by_cases hg : g' ∈ s.marks
      · rw [hevents hg hnone, filter_append, filter_cons_of_pos hadds.1, filter_nil,
          getLast?_concat] at he
        cases he
        exact hadds
      -- no event is of a folder that isn't marked
      · rw [notify_events, if_neg hg] at he
        have hmem := mem_filter.1 (mem_of_getLast? he)
        have hhandle := (about_iff.1 hmem.2).1
        exact absurd (hhandle ▸ (hs.plain e hmem.1).1) hg
  · intro i hi hcomes
    exact .inr ⟨i, by rwa [notify_todo], hcomes⟩
  · intro c q hq
    left
    simpa using hq
  · intro a g' q x' ha hks hk hskip
    rw [notify_fs] at ha
    rcases hat a g' x' ha with ⟨ha, habout⟩ | ⟨rfl, rfl, hnone, hadds⟩
    · rcases hs.owed a g' q x' ha hks hskip with hka | howed
      · exact .inl ⟨ha, hka⟩
      · exact .inr (.inr (howed.keep hkeeps notify_todo (notify_filter habout)))
    · refine .inr (.inr (.event _ ?_ hadds))
      rw [hevents hks.mem_marks hnone]
      simp
  · intro item hitem
    rw [notify_todo] at hitem
    refine hkeeps.sound (hs.walk item hitem) ?_
    intro a g' q x' hk ha
    rw [notify_fs]
    exact hgone a g' q x' hk ha

/-- What is known stays so, where the folders stay. -/
theorem Known.stay (hroot : fs'.root = s.fs.root) {c : String} (hk : Known s c q)
    (hstay : ∀ a, s.fs.dir a ≠ none → fs'.dir a = s.fs.dir a) :
    Known ({ s with fs := fs' }.notify g x pid mask how) c q := by
  refine hk.mono (by simpa using hroot) ?_ (by simp) fun c q hc _ => by simpa using hc.dirs_eq
  intro a d ha
  rw [notify_fs]
  exact (hstay a (by simp [ha])).trans ha

/-- **A change of files.** -/
theorem Inv.files (hs : Inv s) (hroot : fs'.root = s.fs.root) (hname : isName x = true)
    (hmask : has mask FAN_Q_OVERFLOW = false) (hfile : has mask FAN_ONDIR = false)
    (hsame : ∀ a, fs'.dir a = s.fs.dir a) : Inv ({ s with fs := fs' }.notify g x pid mask how) := by
  refine hs.change hroot hname hmask ?_ ?_ ?_
  · intro c q hk
    exact .inl (hk.stay hroot fun a _ => hsame a)
  · intro a g' x' ha
    refine .inl ⟨hsame a ▸ ha, ?_⟩
    simp [about, told, hfile]
  · intro a g' q x' _ ha
    exact .inl ((hsame a).trans ha)

/-- **A folder comes to a place**, and that is told behind all events. -/
theorem Inv.attach (hs : Inv s) (hmoves : s.fs.Moves fs' h (some (g, x)))
    (hfree : s.fs.dir h = none)
    (hname : isName x = true) (hmask : has mask FAN_Q_OVERFLOW = false)
    (hadds : Adds (told g x pid mask) g x) :
    Inv ({ s with fs := fs' }.notify g x pid mask none) := by
  have hstay (a : String) (ha : s.fs.dir a ≠ none) : fs'.dir a = s.fs.dir a := by
    refine hmoves.others a ?_
    rintro rfl
    exact ha hfree
  refine hs.change hmoves.root hname hmask ?_ ?_ ?_
  · intro c q hk
    exact .inl (hk.stay hmoves.root hstay)
  · intro a g' x' ha
    by_cases hah : a = h
    · subst hah
      rw [hmoves.moved] at ha
      cases ha
      exact .inr ⟨rfl, rfl, rfl, hadds⟩
    · refine .inl ⟨(hmoves.others a hah).symm.trans ha, ?_⟩
      by_contra habout
      obtain ⟨rfl, rfl, -⟩ := about_iff.1 (eq_true_of_ne_false habout)
      exact hah (Fs.dir_inj ha hmoves.moved)
  · intro a g' q x' _ ha
    exact .inl ((hstay a (by simp [ha])).trans ha)

/-- **A folder leaves its place.** -/
theorem Inv.detach (hs : Inv s) (hmoves : s.fs.Moves fs' h none)
    (hdir : s.fs.dir h = some (g, x)) (hname : isName x = true)
    (hmask : has mask FAN_Q_OVERFLOW = false) (hremoves : Removes (told g x pid mask) g x) :
    Inv ({ s with fs := fs' }.notify g x pid mask how) := by
  -- what is at its place will be forgotten, for the folder it is in is marked
  have hdoomed {q : Rel} (hk : Known ({ s with fs := fs' }.notify g x pid mask how) g q) :
      Doomed ({ s with fs := fs' }.notify g x pid mask how) (q ++ [x]) := by
    refine ⟨g, q, x, ?_, hk, prefix_rfl⟩
    have hg : g ∈ s.marks := by
      have hmark := hk.mem_marks
      rwa [notify_marks] at hmark
    rw [notify_events, if_pos hg]
    obtain ⟨e, he, hremoves⟩ := removes_new hremoves how s.queue
    exact ⟨e, mem_append_right _ he, hremoves⟩
  refine hs.change hmoves.root hname hmask ?_ ?_ ?_
  · intro c q hk
    induction hk with
    | root hdirs hmark =>
      refine .inl (.of_root ?_ ?_ ?_)
      · rw [notify_fs]
        exact hmoves.root
      · simpa using hdirs
      · simpa using hmark
    | @child g' c q x' _ hc hskip hdirs hmark ih =>
      rcases ih with hk | hd
      · by_cases hch : c = h
        · subst hch
          rw [hdir] at hc
          cases hc
          exact .inr (hdoomed hk)
        · refine .inl (.child hk ?_ hskip ?_ ?_)
          · rw [notify_fs]
            exact (hmoves.others c hch).trans hc
          · simpa using hdirs
          · simpa using hmark
      · exact .inr (hd.below (prefix_append q [x']))
  · intro a g' x' ha
    have hah : a ≠ h := by
      rintro rfl
      rw [hmoves.moved] at ha
      cases ha
    rw [hmoves.others a hah] at ha
    refine .inl ⟨ha, ?_⟩
    by_contra habout
    obtain ⟨rfl, rfl, -⟩ := about_iff.1 (eq_true_of_ne_false habout)
    exact hah (Fs.dir_inj ha hdir)
  · intro a g' q x' hk ha
    by_cases hah : a = h
    · subst hah
      rw [hdir] at ha
      cases ha
      exact .inr (hdoomed hk)
    · exact .inl ((hmoves.others a hah).trans ha)

end change

/-- The system call doesn't make the walk fail: neither is what it has just marked gone, nor what it
has recorded a file. -/
def Fs.serves (fs : Fs) : Item → Bool
  | .handle p => (fs.find p).toOption.isSome
  | .list p => decide (fs.find p ≠ .error .notDir) && (fs.find p).toOption.all fs.isFolder
  | _ => true

/-- No folder's addition joins an earlier event, no folder is renamed over another, and no walk
fails. -/
def Orderly (s : Watching) : Act → Prop
  | .create _ n _ how => n.isDir = true → how = none
  | .rename h g x _ _ how' => s.fs.isFolder h = true → how' = none ∧ s.fs.child g x = none
  | .walk => s.todo.head?.all s.fs.serves = true
  | _ => True

instance (s : Watching) (act : Act) : Decidable (Orderly s act) := by
  cases act with
  | create h n pid how => exact inferInstanceAs (Decidable (n.isDir = true → how = none))
  | rename h g x pid how how' =>
    exact inferInstanceAs
      (Decidable (s.fs.isFolder h = true → how' = none ∧ s.fs.child g x = none))
  | walk => exact inferInstanceAs (Decidable (s.todo.head?.all s.fs.serves = true))
  | _ => exact isTrue trivial

section changes

variable {mine : Int → Bool} {pid : Int} {mask : Nat} {how how' : Option Nat} {n : Node}

theorem removes_told (hdir : has mask FAN_ONDIR = true)
    (hremoval : has mask (FAN_DELETE ||| FAN_MOVED_FROM) = true) :
    Removes (told g x pid mask) g x :=
  ⟨about_iff.2 ⟨rfl, rfl, hdir⟩, hremoval⟩

theorem adds_told (hdir : has mask FAN_ONDIR = true)
    (haddition : has mask (FAN_CREATE ||| FAN_MOVED_TO) = true)
    (hremoval : has mask (FAN_DELETE ||| FAN_MOVED_FROM) = false) : Adds (told g x pid mask) g x :=
  ⟨about_iff.2 ⟨rfl, rfl, hdir⟩, haddition, hremoval⟩

theorem notify_with_fs (mid fs' : Fs) : ({ s with fs := fs' } : Watching).notify g x pid mask how =
    { ({ s with fs := mid } : Watching).notify g x pid mask how with fs := fs' } := by
  rw [notify_eq, notify_eq]

theorem Inv.create (hs : Inv s) (hok : Orderly s (.create h n pid how))
    (hstep : s.step mine (.create h n pid how) = some t) : Inv t := by
  obtain ⟨fs', hcreate, rfl⟩ := Option.map_eq_some_iff.1 hstep
  obtain ⟨hfree, hmoves⟩ := Fs.moves_create hcreate
  have hname := Fs.isName_create hcreate
  cases hdir : n.isDir with
  | true =>
    rw [hok hdir]
    rw [if_pos hdir] at hmoves
    exact hs.attach hmoves hfree hname (by decide) (adds_told (by decide) (by decide) (by decide))
  | false =>
    simp only [hdir, Bool.false_eq_true, if_false] at hmoves
    refine hs.files hmoves.root hname (by decide) (by decide) ?_
    intro a
    by_cases ha : a = h
    · rw [ha, hmoves.moved, hfree]
    · exact hmoves.others a ha

theorem Inv.delete (hs : Inv s) (hstep : s.step mine (.delete h pid how) = some t) : Inv t := by
  simp only [Watching.step] at hstep
  cases hn : s.fs.nodes.get h with
  | none => simp [hn] at hstep
  | some n =>
    simp only [hn] at hstep
    obtain ⟨fs', hdelete, rfl⟩ := Option.map_eq_some_iff.1 hstep
    have hmoves := Fs.moves_delete hdelete
    have hname := s.fs.named hn
    cases hdir : n.isDir with
    | true =>
      exact hs.detach hmoves (Fs.dir_eq_some.2 ⟨n, hn, hdir, rfl, rfl⟩) hname (by decide)
        (removes_told (by decide) (by decide))
    | false =>
      refine hs.files hmoves.root hname (by decide) (by decide) ?_
      intro a
      by_cases ha : a = h
      · rw [ha, hmoves.moved]
        simp [Fs.dir, hn, hdir]
      · exact hmoves.others a ha

theorem Inv.modify (hs : Inv s) (hstep : s.step mine (.modify h pid how) = some t) : Inv t := by
  simp only [Watching.step] at hstep
  cases hn : s.fs.nodes.get h with
  | none => simp [hn] at hstep
  | some n =>
    simp only [hn] at hstep
    split at hstep
    · cases hstep
    · cases hstep
      have hfiles : Inv ({ s with fs := s.fs }.notify n.parent n.name pid FAN_MODIFY how) :=
        hs.files rfl (s.fs.named hn) (by decide) (by decide) fun _ => rfl
      exact hfiles

theorem Inv.rename (hs : Inv s) (hok : Orderly s (.rename h g x pid how how'))
    (hstep : s.step mine (.rename h g x pid how how') = some t) : Inv t := by
  simp only [Watching.step] at hstep
  cases hn : s.fs.nodes.get h with
  | none => simp [hn] at hstep
  | some n =>
    simp only [hn] at hstep
    obtain ⟨fs', hrename, rfl⟩ := Option.map_eq_some_iff.1 hstep
    have hmoves := Fs.moves_rename hn hrename
    have hname := s.fs.named hn
    have hname' := Fs.isName_rename hrename
    cases hdir : n.isDir with
    | true =>
      have hplace : s.fs.dir h = some (n.parent, n.name) :=
        Fs.dir_eq_some.2 ⟨n, hn, hdir, rfl, rfl⟩
      obtain ⟨hnone, hchild⟩ := hok (Fs.isFolder_of_dir hplace)
      rw [hchild, if_pos hdir] at hmoves
      have hleft : Inv ({ s with fs := s.fs.erase h }.notify n.parent n.name pid
          (FAN_MOVED_FROM ||| onDir true) how) :=
        hs.detach (s.fs.moves_erase h) hplace hname (by decide)
          (removes_told (by decide) (by decide))
      have hadds : Adds (told g x pid (FAN_MOVED_TO ||| onDir true)) g x :=
        adds_told (by decide) (by decide) (by decide)
      rw [hnone, notify_with_fs (s := s) (s.fs.erase h)]
      refine hleft.attach (h := h) ?_ ?_ hname' ?_ hadds
      · rw [notify_fs]
        exact hmoves
      · rw [notify_fs]
        exact (s.fs.moves_erase h).moved
      · decide
    | false =>
      obtain ⟨hroot, hsame⟩ := Fs.dir_rename hn hdir hrename
      have hleft : Inv ({ s with fs := fs' }.notify n.parent n.name pid
          (FAN_MOVED_FROM ||| onDir false) how) :=
        hs.files hroot hname (by decide) (by decide) hsame
      rw [notify_with_fs (s := s) fs']
      refine hleft.files ?_ hname' ?_ ?_ ?_
      · rw [notify_fs]
      · decide
      · decide
      · intro a
        rw [notify_fs]

end changes

/-! ### Events are applied

An event taken from the inbox has folders forgotten, or makes the walk come to one.  Nothing is lost
with it: what it was to remove is gone, and what it was to add the walk has to do. -/

theorem Inv.events_keep (hs : Inv s) (hfs : t.fs = s.fs) (hmarks : ∀ m ∈ s.marks, m ∈ t.marks)
    (hevents : t.events <:+ s.events) :
    (∀ e ∈ t.events, e.handle ∈ t.marks ∧ Plain e) ∧ ∀ a g x, t.fs.dir a = some (g, x) →
      ∀ e, (t.events.filter (about g x)).getLast? = some e → Adds e g x := by
  constructor
  · intro e he
    have hplain := hs.plain e (hevents.subset he)
    exact ⟨hmarks _ hplain.1, hplain.2⟩
  · intro a g x ha e he
    obtain ⟨taken, htaken⟩ := hevents
    rw [hfs] at ha
    refine hs.last a g x ha e ?_
    rw [← htaken, filter_append, getLast?_append, he]
    rfl

/-- The rule for acts that leave the files and take at most the first events: `hadds` says that the
walk comes to what an event taken adds, `hcomes` what becomes of a folder an item comes to, `hdirs`
what is new in the tree, and `hnew` that the new items are sound. -/
theorem Inv.goes (hs : Inv s) (hfs : t.fs = s.fs) (hevents : t.events <:+ s.events)
    (hmarks : ∀ m ∈ s.marks, m ∈ t.marks) (hknown : ∀ c q, Known s c q → t.dirs.get c = some q)
    (hremoves : ∀ g p x, Known s g p → (∃ e ∈ s.events, Removes e g x) →
      ∃ e ∈ t.events, Removes e g x)
    (hroot : ∀ i ∈ s.todo, i.ComesToRoot → Known t t.fs.root [] ∨ ∃ i ∈ t.todo, i.ComesToRoot)
    (hdirs : Keeps s t → ∀ h p, t.dirs.get h = some p →
      s.dirs.get h = some p ∨ (.list p ∈ t.todo ∧ (Known t h p ∨ Doomed t p)))
    (hadds : ∀ e ∈ s.events, e ∉ t.events → ∀ g p x, Known s g p → Adds e g x → skip x = false →
      .stat (p ++ [x]) ∈ t.todo)
    (hcomes : ∀ a g p x, s.fs.dir a = some (g, x) → Known s g p → Known t g p → skip x = false →
      ∀ i ∈ s.todo, i.ComesTo s.marks a p x → Known t a (p ++ [x]) ∨ Owed t a g p x)
    (hnew : Keeps s t → ∀ i ∈ t.todo, i ∈ s.todo ∨ i.Sound t) : Inv t := by
  have hdir (a : String) (d : String × Bytes) (ha : s.fs.dir a = some d) : t.fs.dir a = some d := by
    rwa [hfs]
  have hkeeps : Keeps s t := by
    refine ⟨by rw [hfs], hmarks, ?_, hremoves⟩
    intro c q hk
    exact .inl (hk.mono (by rw [hfs]) hdir hmarks fun c q hc _ => hknown c q hc)
  obtain ⟨hplain, hlast⟩ := hs.events_keep hfs hmarks hevents
  refine hs.advance hkeeps hplain hlast (hs.root_keep hkeeps hroot) (hdirs hkeeps) ?_ ?_
  · intro a g p x ha hks hk hskip
    rw [hfs] at ha
    rcases hs.owed a g p x ha hks hskip with hka | howed
    · exact .inl ⟨ha, hka⟩
    refine .inr ?_
    cases howed with
    | event e he hadd =>
      by_cases he' : e ∈ t.events
      · exact .inr (.event e he' hadd)
      · exact .inr (.walk _ (hadds e he he' g p x hks hadd hskip) rfl)
    | doomed h => exact .inr (.doomed (hkeeps.doomed h))
    | walk i hi hcome => exact hcomes a g p x ha hks hk hskip i hi hcome
  · intro i hi
    rcases hnew hkeeps i hi with hi | hi
    · exact hkeeps.sound (hs.walk i hi) fun a g q x _ ha => Or.inl (hdir a _ ha)
    · exact hi

/-- **An event that has nothing forgotten**: either it is of no known folder, or the walk it begins
comes to what was owed by it. -/
theorem Inv.pop (hs : Inv s) (hidle : s.todo = []) (hevents : s.events = e :: t.events)
    (hfs : t.fs = s.fs) (hmarks : t.marks = s.marks) (hdirs : t.dirs = s.dirs)
    (hremoves : ∀ g p x, Known s g p → ¬ Removes e g x)
    (hadds : ∀ g p x, Known s g p → Adds e g x → skip x = false → .stat (p ++ [x]) ∈ t.todo)
    (hwalk : ∀ item ∈ t.todo, item.Sound s) : Inv t := by
  refine hs.goes hfs (by rw [hevents]; exact suffix_cons e _) (by simp [hmarks])
    (fun c q hk => by rw [hdirs, hk.dirs_eq]) ?_ (by simp [hidle])
    (fun _ c q hq => Or.inl (by rwa [← hdirs])) ?_ (by simp [hidle]) ?_
  · rintro g p x hk ⟨e', he', hremoves'⟩
    rw [hevents] at he'
    rcases mem_cons.1 he' with rfl | he'
    · exact absurd hremoves' (hremoves g p x hk)
    · exact ⟨e', he', hremoves'⟩
  · intro e' he' hno
    rw [hevents] at he'
    rcases mem_cons.1 he' with rfl | he'
    · exact hadds
    · exact absurd he' hno
  · intro hkeeps i hi
    exact .inr (hkeeps.sound (hwalk i hi) fun a g q x _ ha => Or.inl (by rwa [hfs]))

theorem Inv.adds_behind (hs : Inv s) (hevents : s.events = e :: l) (hremoves : Removes e g x)
    (ha : s.fs.dir a = some (g, x)) : ∃ e' ∈ l, Adds e' g x := by
  have hlast := hs.last a g x ha
  rw [hevents, filter_cons_of_pos hremoves.1] at hlast
  cases hl : l.filter (about g x) with
  | nil =>
    rw [hl] at hlast
    exact absurd (hlast e rfl) (not_adds_of_removes hremoves)
  | cons d l' =>
    rw [hl, getLast?_cons_cons] at hlast
    obtain ⟨e', he'⟩ : ∃ e', (d :: l').getLast? = some e' := by
      rw [getLast?_cons]
      exact ⟨_, rfl⟩
    refine ⟨e', ?_, hlast e' he'⟩
    have hmem := mem_of_getLast? he'
    rw [← hl] at hmem
    exact (mem_filter.1 hmem).1

/-- **An event that has `p ++ [x]` forgotten.** -/
theorem Inv.forgets (hs : Inv s) (hidle : s.todo = []) (hevents : s.events = e :: t.events)
    (hfs : t.fs = s.fs) (hmarks : t.marks = s.marks) (htodo : t.todo = [])
    (hparent : s.dirs.get g = some p) (hremoves : Removes e g x)
    (hdirs : ∀ c q, t.dirs.get c = some q ↔ s.dirs.get c = some q ∧ ¬ p ++ [x] <+: q) : Inv t := by
  have hstill {c : String} {q : Rel} (hk : Known s c q) (hq : ¬ p ++ [x] <+: q) : Known t c q := by
    refine hk.mono (by rw [hfs]) (by simp [hfs]) (by simp [hmarks]) ?_
    intro c' q' hc hpre
    exact (hdirs c' q').2 ⟨hc.dirs_eq, fun hr => hq (hr.trans hpre)⟩
  have hback {c : String} {q : Rel} (hk : Known t c q) : Known s c q := by
    refine hk.mono (by rw [hfs]) (by simp [hfs]) (by simp [hmarks]) ?_
    intro c' q' hc _
    exact ((hdirs c' q').1 hc.dirs_eq).1
  have hdoomed {q : Rel} (hd : Doomed s q) (hq : ¬ p ++ [x] <+: q) : Doomed t q := by
    obtain ⟨g', p', x', ⟨e', he', hremoves'⟩, hk, hpre⟩ := hd
    rw [hevents] at he'
    rcases mem_cons.1 he' with rfl | he'
    · -- then this is what it has forgotten
      obtain ⟨rfl, rfl⟩ := about_inj hremoves.1 hremoves'.1
      have hp := hk.dirs_eq
      rw [hparent] at hp
      cases hp
      exact absurd hpre hq
    · refine ⟨g', p', x', ⟨e', he', hremoves'⟩, hstill hk ?_, hpre⟩
      intro hr
      exact hq (hr.trans ((prefix_append p' [x']).trans hpre))
  obtain ⟨hplain, hlast⟩ := hs.events_keep hfs (by simp [hmarks])
    (by rw [hevents]; exact suffix_cons e t.events)
  refine ⟨hplain, hlast, ?_, ?_, ?_, ?_⟩
  · rcases hs.root with hk | hwalk
    · left
      rw [hfs]
      refine hstill hk ?_
      intro hr
      have hlen := hr.length_le
      simp at hlen
    · simp [hidle] at hwalk
  · intro c q hq
    obtain ⟨hq, hr⟩ := (hdirs c q).1 hq
    rcases hs.known c q hq with hk | hd
    · exact .inl (hstill hk hr)
    · exact .inr (hdoomed hd hr)
  · intro a' g' p' x' ha hk hskip
    rw [hfs] at ha
    have hks := hback hk
    have hr : ¬ p ++ [x] <+: p' := ((hdirs g' p').1 hk.dirs_eq).2
    -- what is forgotten itself is owed: its addition is behind this event
    have hexact (heq : p ++ [x] = p' ++ [x']) : Owed t a' g' p' x' := by
      obtain ⟨rfl, hx⟩ := append_inj' heq rfl
      cases hx
      rcases hs.known g p hparent with hkg | hd
      · cases hkg.unique hks
        obtain ⟨e', he', hadds⟩ := hs.adds_behind hevents hremoves ha
        exact .event e' he' hadds
      · exact .doomed ((hdoomed hd hr).below (prefix_append p [x]))
    by_cases hcut : p ++ [x] <+: p' ++ [x']
    · rcases prefix_concat_iff.1 hcut with heq | hpre
      · exact .inr (hexact heq)
      · exact absurd hpre hr
    rcases hs.owed a' g' p' x' ha hks hskip with hka | howed
    · exact .inl (hstill hka hcut)
    refine .inr ?_
    cases howed with
    | event e' he' hadds =>
      rw [hevents] at he'
      rcases mem_cons.1 he' with rfl | he'
      · exact absurd hadds (not_adds_of_removes hremoves)
      · exact .event e' he' hadds
    | doomed h => exact .doomed (hdoomed h hcut)
    | walk item hitem => simp [hidle] at hitem
  · intro item hitem
    rw [htodo] at hitem
    cases hitem

theorem get_forget {c : String} {r : Rel} :
    (s.forget r).dirs.get c = some q ↔ s.dirs.get c = some q ∧ ¬ r <+: q := by
  show (if (s.dirs.get c).any r.isPrefixOf = true then none else s.dirs.get c) = some q ↔ _
  cases hc : s.dirs.get c with
  | none => simp
  | some q' =>
    simp only [Option.any_some, isPrefixOf_iff_prefix, Option.some.injEq]
    by_cases hr : r <+: q'
    · rw [if_pos hr]
      constructor
      · intro hno
        cases hno
      · rintro ⟨rfl, hno⟩
        exact absurd hr hno
    · rw [if_neg hr, Option.some.injEq]
      constructor
      · rintro rfl
        exact ⟨rfl, hr⟩
      · exact fun h => h.1

section apply

variable {mine : Int → Bool} {inbox : List Event}

theorem Inv.passes (hs : Inv s) (hidle : s.todo = []) (hinbox : s.inbox = e :: inbox)
    (hremoves : ∀ g p x, Known s g p → ¬ Removes e g x)
    (hadds : ∀ g p x, Known s g p → Adds e g x → skip x = true) (pending : List Rel) :
    Inv { s with inbox := inbox, pending := pending } := by
  refine hs.pop hidle ?_ rfl rfl rfl hremoves ?_ ?_
  · simp [Watching.events, hinbox]
  · intro g p x hk he hskip
    rw [hadds g p x hk he] at hskip
    cases hskip
  · intro item hitem
    have hno : item ∈ s.todo := hitem
    simp [hidle] at hno

/-- **Applying an event keeps it.** -/
theorem Inv.applyOne (hs : Inv s) (hwalk : s.walk = none) (hinbox : s.inbox = e :: inbox) :
    Inv ({ s with inbox := inbox }.applyOne mine e) := by
  have hidle : s.todo = [] := by simp [Watching.todo, hwalk]
  have hevents : s.events = e :: (inbox ++ s.queue) := by simp [Watching.events, hinbox]
  obtain ⟨-, hover, hname, hdot⟩ := hs.plain e (by simp [hevents])
  -- events that aren't of a folder, or of one that isn't known
  have hother (hno : ∀ g p x, Known s g p → about g x e = false) (pending : List Rel) :
      Inv { s with inbox := inbox, pending := pending } := by
    refine hs.passes hidle hinbox ?_ ?_ pending
    · intro g p x hk hremoves
      have habout := hremoves.1
      rw [hno g p x hk] at habout
      cases habout
    · intro g p x hk hadds
      have habout := hadds.1
      rw [hno g p x hk] at habout
      cases habout
  cases hparent : s.dirs.get e.handle with
  | none =>
    have hpass := hother (fun g p x hk => ?_) s.pending
    · simpa only [Watching.applyOne, hover, Bool.false_eq_true, if_false, hparent] using hpass
    · by_contra habout
      obtain ⟨rfl, -⟩ := about_iff.1 (eq_true_of_ne_false habout)
      rw [hk.dirs_eq] at hparent
      cases hparent
  | some parent =>
    have happly : ({ s with inbox := inbox } : Watching).applyOne mine e =
        if !has e.mask FAN_ONDIR then
          if mine e.pid && has e.mask (FAN_MODIFY ||| FAN_CREATE ||| FAN_MOVED_TO) then
            { s with inbox := inbox, pending := s.pending ++ [parent ++ [e.name]] }
          else { s with inbox := inbox }
        else if removal e then Watching.forget { s with inbox := inbox } (parent ++ [e.name])
        else if addition e && !skip e.name then
          { s with
            inbox := inbox
            walk := some { todo := [.stat (parent ++ [e.name])], pid := some e.pid } }
        else { s with inbox := inbox } := by
      simp only [Watching.applyOne, hover, Bool.false_eq_true, if_false, hparent, hname, hdot,
        decide_false, Bool.or_self]
      rfl
    rw [happly]
    by_cases hondir : has e.mask FAN_ONDIR = true
    swap
    · have hno (g : String) (p : Rel) (x : Bytes) (_ : Known s g p) : about g x e = false := by
        simp [about, hondir]
      rw [if_pos (by simp [hondir])]
      split
      · exact hother hno _
      · exact hother hno s.pending
    rw [if_neg (by simp [hondir])]
    have habout : about e.handle e.name e = true := about_iff.2 ⟨rfl, rfl, hondir⟩
    by_cases hremoval : removal e = true
    · rw [if_pos hremoval]
      exact hs.forgets hidle hevents rfl rfl hidle hparent ⟨habout, hremoval⟩ fun c q => get_forget
    rw [if_neg hremoval]
    have hremoves (g : String) (p : Rel) (x : Bytes) (_ : Known s g p) : ¬ Removes e g x :=
      fun hremoves => hremoval hremoves.2
    by_cases hwalks : (addition e && !skip e.name) = true
    · rw [if_pos hwalks]
      refine hs.pop hidle hevents rfl rfl rfl hremoves ?_ ?_
      · intro g p x hk hadds _
        obtain ⟨rfl, rfl, -⟩ := about_iff.1 hadds.1
        have hp := hk.dirs_eq
        rw [hparent] at hp
        cases hp
        exact mem_singleton.2 rfl
      · intro item hitem
        rw [mem_singleton.1 hitem]
        exact next_child (hs.known e.handle parent hparent) e.name
    · rw [if_neg hwalks]
      refine hs.passes hidle hinbox hremoves ?_ s.pending
      intro g p x _ hadds
      obtain ⟨-, rfl, -⟩ := about_iff.1 hadds.1
      simpa [hadds.2.1] using hwalks

end apply

/-! ### The walk

Each of its system calls takes one item and leaves the folders to the items it makes of it.  What it
reads may be out of date, but then an event for it has been queued since the mark was set. -/

section walk

variable {w : Walk} {item : Item} {todo : List Item} {mine : Int → Bool}

theorem Known.find_child (hk : Known s g p) (ha : s.fs.dir a = some (g, x)) :
    s.fs.find (p ++ [x]) = .ok a := Fs.find_below hk.find_eq hk.isFolder ha

/-- The rule for the walk's system calls.  `hitem` says what becomes of a folder the next item comes
to, `hdirs` what is new in the tree, and `hnew` that the new items are sound. -/
theorem Inv.walked (hs : Inv s) (htodo : s.todo = item :: todo) (hfs : t.fs = s.fs)
    (hevents : t.events = s.events) (hmarks : ∀ m ∈ s.marks, m ∈ t.marks)
    (hknown : ∀ c q, Known s c q → t.dirs.get c = some q)
    (hrest : ∀ i ∈ todo, i ∈ t.todo)
    (hroot : item.ComesToRoot → Known t t.fs.root [] ∨ ∃ i ∈ t.todo, i.ComesToRoot)
    (hdirs : Keeps s t → ∀ h p, t.dirs.get h = some p →
      s.dirs.get h = some p ∨ (.list p ∈ t.todo ∧ (Known t h p ∨ Doomed t p)))
    (hitem : ∀ a g p x, s.fs.dir a = some (g, x) → Known s g p → Known t g p → skip x = false →
      item.ComesTo s.marks a p x → Known t a (p ++ [x]) ∨ Owed t a g p x)
    (hnew : Keeps s t → ∀ i ∈ t.todo, i ∈ todo ∨ i.Sound t) : Inv t := by
  refine hs.goes hfs (by simp [hevents]) hmarks hknown (by simp [hevents]) ?_ hdirs
    (by simp +contextual [hevents]) ?_ ?_
  · rw [htodo]
    intro i hi hcomes
    rcases mem_cons.1 hi with rfl | hi
    · exact hroot hcomes
    · exact .inr ⟨i, hrest i hi, hcomes⟩
  · rw [htodo]
    intro a g p x ha hks hk hskip i hi hcomes
    rcases mem_cons.1 hi with rfl | hi
    · exact hitem a g p x ha hks hk hskip hcomes
    · exact .inr (.walk i (hrest i hi) (hcomes.mono hmarks))
  · intro hkeeps i hi
    rw [htodo]
    exact (hnew hkeeps i hi).imp_left (mem_cons_of_mem _)

theorem find_nil : s.fs.find [] = .ok s.fs.root := rfl

theorem isFolder_root : s.fs.isFolder s.fs.root = true := by simp [Fs.isFolder]

theorem todo_of_walk (hw : s.walk = some w) : s.todo = w.todo := by simp [Watching.todo, hw]

theorem Inv.head_sound (hs : Inv s) (hw : s.walk = some w) (htodo : w.todo = item :: todo) :
    item.Sound s :=
  hs.walk item (by simp [todo_of_walk hw, htodo])

theorem Inv.skips (hs : Inv s) (hw : s.walk = some w) (htodo : w.todo = item :: todo)
    (hroot : ¬ item.ComesToRoot)
    (hitem : ∀ a g p x, s.fs.dir a = some (g, x) → Known s g p → skip x = false →
      ¬ item.ComesTo s.marks a p x) (files : List Rel) :
    Inv { s with walk := some { w with todo := todo, files := files } } := by
  refine hs.walked ((todo_of_walk hw).trans htodo) rfl rfl (fun _ hm => hm)
    (fun _ _ hk => hk.dirs_eq) (fun _ hi => hi) (fun h => absurd h hroot)
    (fun _ _ _ hd => Or.inl hd) ?_ (fun _ _ hi => Or.inl hi)
  intro a g p x ha hk _ hskip hno
  exact absurd hno (hitem a g p x ha hk hskip)

theorem Inv.misses (hs : Inv s) (hw : s.walk = some w) (htodo : w.todo = item :: todo)
    (hitem : item = .stat p ∨ item = .visit p)
    (hno : ∀ h, s.fs.find p = .ok h → s.fs.isFolder h = false) (files : List Rel) :
    Inv { s with walk := some { w with todo := todo, files := files } } := by
  refine hs.skips hw htodo ?_ ?_ files
  · intro hcomes
    have hp : p = [] := by
      rcases hitem with rfl | rfl
      · exact hcomes
      · exact hcomes
    subst hp
    have hfile := hno _ find_nil
    rw [isFolder_root] at hfile
    cases hfile
  · intro a g q x ha hk _ hcomes
    have hp : p = q ++ [x] := by
      rcases hitem with rfl | rfl
      · exact hcomes
      · exact hcomes
    subst hp
    have hfile := hno a (hk.find_child ha)
    rw [Fs.isFolder_of_dir ha] at hfile
    cases hfile

theorem Inv.stat (hs : Inv s) (hw : s.walk = some w) (htodo : w.todo = .stat p :: todo) :
    Inv (s.walkOne mine w) := by
  cases hfind : s.fs.find p with
  | error e =>
    simp only [Watching.walkOne, htodo, hfind]
    refine hs.misses hw htodo (.inl rfl) ?_ w.files
    intro h hok
    rw [hfind] at hok
    cases hok
  | ok h =>
    cases hfolder : s.fs.isFolder h with
    | false =>
      simp only [Watching.walkOne, htodo, hfind, hfolder, Bool.false_eq_true, if_false]
      refine hs.misses hw htodo (.inl rfl) ?_ _
      intro h' hok
      rw [hfind] at hok
      cases hok
      exact hfolder
    | true =>
      simp only [Watching.walkOne, htodo, hfind, hfolder, if_true]
      refine hs.walked ((todo_of_walk hw).trans htodo) rfl rfl (fun _ hm => hm)
        (fun _ _ hk => hk.dirs_eq) (fun _ hi => mem_cons_of_mem _ hi) ?_
        (fun _ _ _ hd => Or.inl hd) ?_ ?_
      · intro hcomes
        exact .inr ⟨.visit p, mem_cons_self, hcomes⟩
      · intro a g q x _ _ _ _ hcomes
        exact .inr (.walk (.visit p) mem_cons_self hcomes)
      · intro hkeeps i hi
        rcases mem_cons.1 hi with rfl | hi
        · right
          exact hkeeps.next (hs.head_sound hw htodo)
        · exact .inl hi

theorem Inv.visit (hs : Inv s) (hw : s.walk = some w) (htodo : w.todo = .visit p :: todo) :
    Inv (s.walkOne mine w) := by
  by_cases hskipped : (decide (p ≠ []) && skip (p.getLastD [])) = true
  · simp only [Watching.walkOne, htodo, hskipped, if_true]
    simp only [Bool.and_eq_true, decide_eq_true_eq] at hskipped
    refine hs.skips hw htodo (fun hcomes => hskipped.1 hcomes) ?_ w.files
    intro a g q x _ _ hskip hcomes
    have hp : p = q ++ [x] := hcomes
    rw [hp, getLastD_concat, hskip] at hskipped
    cases hskipped.2
  have hwatched (q : Rel) (x : Bytes) (hp : p = q ++ [x]) : skip x = false := by
    rw [hp, getLastD_concat] at hskipped
    simpa using hskipped
  cases hfind : s.fs.find p with
  | error e =>
    simp only [Watching.walkOne, htodo, hskipped, if_false, hfind, Bool.false_eq_true]
    refine hs.misses hw htodo (.inr rfl) ?_ w.files
    intro h hok
    rw [hfind] at hok
    cases hok
  | ok h =>
    cases hfolder : s.fs.isFolder h with
    | false =>
      simp only [Watching.walkOne, htodo, hskipped, if_false, hfind, hfolder, Bool.false_eq_true]
      refine hs.misses hw htodo (.inr rfl) ?_ w.files
      intro h' hok
      rw [hfind] at hok
      cases hok
      exact hfolder
    | true =>
      simp only [Watching.walkOne, htodo, hskipped, if_false, hfind, hfolder, if_true,
        Bool.false_eq_true]
      refine hs.walked ((todo_of_walk hw).trans htodo) rfl rfl
        (fun _ hm => mem_cons_of_mem _ hm) (fun _ _ hk => hk.dirs_eq)
        (fun _ hi => mem_cons_of_mem _ hi) ?_ (fun _ _ _ hd => Or.inl hd) ?_ ?_
      · intro hcomes
        exact .inr ⟨.handle p, mem_cons_self, hcomes⟩
      · intro a g q x ha hk _ _ hcomes
        have hp : p = q ++ [x] := hcomes
        subst hp
        have hah := hk.find_child ha
        rw [hfind] at hah
        cases hah
        exact .inr (.walk (.handle (q ++ [x])) mem_cons_self ⟨rfl, mem_cons_self⟩)
      · intro hkeeps i hi
        rcases mem_cons.1 hi with rfl | hi
        swap
        · exact .inl hi
        right
        rcases hs.head_sound hw htodo with rfl | hd | ⟨g, q, x, hk, rfl⟩
        · cases hfind
          exact .inl ⟨rfl, mem_cons_self⟩
        · exact .inr (.inl (hkeeps.doomed hd))
        · rcases hkeeps.known g q hk with hkt | hd
          · obtain ⟨g', hg', -, hchild⟩ := Fs.of_find_concat hfind
            rw [hk.find_eq] at hg'
            cases hg'
            exact .inr (.inr ⟨h, g, q, x, hkt, rfl, hwatched q x rfl,
              Fs.dir_of_child hchild hfolder, mem_cons_self⟩)
          · exact .inr (.inl (hd.below (prefix_append q [x])))

theorem Inv.handle (hs : Inv s) (hw : s.walk = some w) (htodo : w.todo = .handle p :: todo)
    (hfind : s.fs.find p = .ok h) : Inv (s.walkOne mine w) := by
  simp only [Watching.walkOne, htodo, hfind]
  have hhandle := hs.head_sound hw htodo
  -- what is recorded is known now, unless it is doomed
  have hrecord (hkeeps : Keeps s { s with
        dirs := s.dirs.set h p, walk := some { w with todo := .list p :: todo } }) :
      Known { s with dirs := s.dirs.set h p, walk := some { w with todo := .list p :: todo } } h p ∨
        Doomed { s with dirs := s.dirs.set h p, walk := some { w with todo := .list p :: todo } }
          p := by
    rcases hhandle with ⟨rfl, hmark⟩ | hd | ⟨a, g, q, x, hk, rfl, hskip, ha, hmark⟩
    · cases hfind
      exact .inl (.of_root rfl (if_pos rfl) hmark)
    · exact .inr (hkeeps.doomed hd)
    · have hah := hk.find_child ha
      rw [hfind] at hah
      cases hah
      rcases hkeeps.known g q hk with hkt | hd
      · exact .inl (.child hkt ha hskip (if_pos rfl) hmark)
      · exact .inr (hd.below (prefix_append q [x]))
  refine hs.walked ((todo_of_walk hw).trans htodo) rfl rfl (fun _ hm => hm) ?_
    (fun _ hi => mem_cons_of_mem _ hi) ?_ ?_ ?_ ?_
  · intro c q hk
    show (if c = h then some p else s.dirs.get c) = some q
    by_cases hch : c = h
    · subst hch
      rw [if_pos rfl, Fs.find_inj hk.find_eq hfind]
    · rw [if_neg hch]
      exact hk.dirs_eq
  · intro hcomes
    have hp : p = [] := hcomes
    subst hp
    cases hfind
    rcases hhandle with ⟨-, hmark⟩ | hd | ⟨a, g, q, x, -, hp, -⟩
    · exact .inl (.of_root rfl (if_pos rfl) hmark)
    · exact absurd hd not_doomed_nil
    · simp at hp
  · intro hkeeps c q hq
    have hq : (if c = h then some p else s.dirs.get c) = some q := hq
    by_cases hch : c = h
    · subst hch
      rw [if_pos rfl] at hq
      cases hq
      exact .inr ⟨mem_cons_self, hrecord hkeeps⟩
    · rw [if_neg hch] at hq
      exact .inl hq
  · rintro a g q x ha hk hkt hskip ⟨rfl, hmark⟩
    have hah := hk.find_child ha
    rw [hfind] at hah
    cases hah
    exact .inl (.child hkt ha hskip (if_pos rfl) hmark)
  · intro hkeeps i hi
    rcases mem_cons.1 hi with rfl | hi
    · right
      rcases hrecord hkeeps with hk | hd
      · exact .inr ⟨h, hk⟩
      · exact .inl hd
    · exact .inl hi

theorem Inv.list (hs : Inv s) (hw : s.walk = some w) (htodo : w.todo = .list p :: todo)
    (hdir : s.fs.find p ≠ .error .notDir)
    (hfolder : ∀ h, s.fs.find p = .ok h → s.fs.isFolder h = true) : Inv (s.walkOne mine w) := by
  cases hfind : s.fs.find p with
  | error e =>
    cases e with
    | notDir => exact absurd hfind hdir
    | noEnt =>
      simp only [Watching.walkOne, htodo, hfind]
      refine hs.skips hw htodo (fun hcomes => hcomes) ?_ w.files
      intro a g q x _ hk _ hcomes
      have hp : p = q := hcomes
      rw [hp, hk.find_eq] at hfind
      cases hfind
  | ok h =>
    simp only [Watching.walkOne, htodo, hfind, hfolder h hfind, if_true]
    refine hs.walked ((todo_of_walk hw).trans htodo) rfl rfl (fun _ hm => hm)
      (fun _ _ hk => hk.dirs_eq) (fun _ hi => mem_append_right _ hi)
      (fun hcomes => absurd hcomes id) (fun _ _ _ hd => Or.inl hd) ?_ ?_
    · intro a g q x ha hk _ _ hcomes
      have hp : p = q := hcomes
      subst hp
      rw [hk.find_eq] at hfind
      cases hfind
      obtain ⟨n, hn, hisDir, hparent, hname⟩ := Fs.dir_eq_some.1 ha
      refine .inr (.walk (.visit (p ++ [x])) ?_ rfl)
      refine mem_append_left _ (mem_map.2 ⟨n, Fs.mem_entries.2 ⟨hparent, a, hn⟩, ?_⟩)
      simp [Watching.item, hisDir, hname]
    · intro hkeeps i hi
      rcases mem_append.1 hi with hi | hi
      swap
      · exact .inl hi
      right
      obtain ⟨n, -, rfl⟩ := mem_map.1 hi
      unfold Watching.item
      split
      · rcases hs.head_sound hw htodo with hd | ⟨g, hk⟩
        · exact next_child (g := h) (.inr (hkeeps.doomed hd)) n.name
        · exact next_child (hkeeps.known g p hk) n.name
      · exact trivial

theorem Inv.same (hs : Inv s) (hfs : t.fs = s.fs) (hmarks : t.marks = s.marks)
    (hdirs : t.dirs = s.dirs) (hevents : t.events = s.events) (htodo : t.todo = s.todo) :
      Inv t := by
  refine hs.goes hfs (by simp [hevents]) (by simp [hmarks])
    (fun c q hk => by rw [hdirs, hk.dirs_eq]) (by simp [hevents]) ?_
    (fun _ c q hq => Or.inl (by rwa [← hdirs])) (by simp +contextual [hevents]) ?_ ?_
  · intro i hi hcomes
    exact .inr ⟨i, by rwa [htodo], hcomes⟩
  · intro a g p x _ _ _ _ i hi hcomes
    exact .inr (.walk i (by rwa [htodo]) (by rwa [hmarks]))
  · intro _ i hi
    exact .inl (by rwa [← htodo])

theorem Fs.of_serves_handle {fs : Fs} (h : fs.serves (.handle p) = true) :
    ∃ h, fs.find p = .ok h := by
  have hsome : (fs.find p).toOption.isSome = true := h
  cases hfind : fs.find p with
  | error e =>
    rw [hfind] at hsome
    cases hsome
  | ok h => exact ⟨h, rfl⟩

theorem Fs.of_serves_list {fs : Fs} (h : fs.serves (.list p) = true) :
    fs.find p ≠ .error .notDir ∧ ∀ h, fs.find p = .ok h → fs.isFolder h = true := by
  simp only [Fs.serves, Bool.and_eq_true, decide_eq_true_eq] at h
  refine ⟨h.1, ?_⟩
  intro a ha
  have hall := h.2
  rw [ha] at hall
  exact hall

/-- **A system call of the walk keeps it.** -/
theorem Inv.walkOne (hs : Inv s) (hw : s.walk = some w) (hok : Orderly s .walk) :
    Inv (s.walkOne mine w) := by
  have hhead : s.todo.head? = w.todo.head? := by rw [todo_of_walk hw]
  have hserves (item : Item) (h : s.todo.head? = some item) : s.fs.serves item = true := by
    have hall : s.todo.head?.all s.fs.serves = true := hok
    rwa [h] at hall
  cases htodo : w.todo with
  | nil =>
    simp only [Watching.walkOne, htodo]
    refine hs.same rfl rfl rfl rfl ?_
    rw [todo_of_walk hw, htodo]
    rfl
  | cons item todo =>
    rw [htodo, head?_cons] at hhead
    cases item with
    | stat p => exact hs.stat hw htodo
    | visit p => exact hs.visit hw htodo
    | handle p =>
      obtain ⟨h, hfind⟩ := Fs.of_serves_handle (hserves _ hhead)
      exact hs.handle hw htodo hfind
    | list p =>
      obtain ⟨hdir, hfolder⟩ := Fs.of_serves_list (hserves _ hhead)
      exact hs.list hw htodo hdir hfolder
    | file p =>
      simp only [Watching.walkOne, htodo]
      exact hs.skips hw htodo id (fun _ _ _ _ _ _ _ => id) _

end walk

/-! ### The tree has the workspace's folders

When no event and no item is left, nothing is doomed or owed; so what the tree has is what is known,
and that is every folder that isn't skipped. -/

theorem inv_start (fs : Fs) : Inv (.start fs) := by
  refine ⟨?_, ?_, ?_, ?_, ?_, ?_⟩
  · intro e he
    cases he
  · intro a g x _ e he
    cases he
  · exact .inr ⟨.stat [], mem_singleton.2 rfl, rfl⟩
  · intro h p hp
    cases hp
  · intro a g p x _ hk _
    have hno := hk.dirs_eq
    cases hno
  · intro item hitem
    rw [mem_singleton.1 hitem]
    exact .inl rfl

/-- **Each act keeps it.** -/
theorem Inv.step (hs : Inv s) {act : Act} (hok : Orderly s act) (hstep : s.step mine act = some t) :
    Inv t := by
  cases act with
  | create h n pid how => exact hs.create hok hstep
  | delete h pid how => exact hs.delete hstep
  | rename h g x pid how how' => exact hs.rename hok hstep
  | modify h pid how => exact hs.modify hstep
  | read n =>
    cases hstep
    refine hs.same rfl rfl rfl ?_ rfl
    simp [Watching.events, append_assoc]
  | apply =>
    simp only [Watching.step] at hstep
    cases hwalk : s.walk with
    | some w => simp [hwalk] at hstep
    | none =>
      cases hinbox : s.inbox with
      | nil => simp [hwalk, hinbox] at hstep
      | cons e inbox =>
        simp only [hwalk, hinbox, Option.some.injEq] at hstep
        subst hstep
        have happly : Inv ({ s with inbox := inbox }.applyOne mine e) := hs.applyOne hwalk hinbox
        rwa [hwalk] at happly
  | walk =>
    obtain ⟨w, hw, rfl⟩ := Option.map_eq_some_iff.1 hstep
    exact hs.walkOne hw hok
  | report =>
    cases hstep
    exact hs.same rfl rfl rfl rfl rfl

theorem Watching.Reached.inv (h : Watching.Reached Orderly mine s) : Inv s := by
  induction h with
  | start fs => exact inv_start fs
  | step act _ hok hstep ih => exact ih.step hok hstep

theorem Inv.known_of_find (hs : Inv s) (hquiet : s.Quiet) (hfind : s.fs.find p = .ok h)
    (hfolder : s.fs.isFolder h = true) (hskip : ∀ x ∈ p, skip x = false) : Known s h p := by
  obtain ⟨hqueue, hinbox, hwalk⟩ := hquiet
  have hevents : s.events = [] := by simp [Watching.events, hqueue, hinbox]
  have htodo : s.todo = [] := by simp [Watching.todo, hwalk]
  induction p using List.reverseRecOn generalizing h with
  | nil =>
    cases hfind
    rcases hs.root with hk | ⟨item, hitem, -⟩
    · exact hk
    · simp [htodo] at hitem
  | append_singleton p x ih =>
    obtain ⟨g, hg, hgfolder, hchild⟩ := Fs.of_find_concat hfind
    have hk := ih hg hgfolder fun y hy => hskip y (mem_append_left _ hy)
    have hx : skip x = false := hskip x (by simp)
    rcases hs.owed h g p x (Fs.dir_of_child hchild hfolder) hk hx with hka | howed
    · exact hka
    · cases howed with
      | event e he => simp [hevents] at he
      | walk item hitem => simp [htodo] at hitem
      | doomed hd =>
        obtain ⟨g', p', x', ⟨e, he, -⟩, -⟩ := hd
        simp [hevents] at he

/-- **The watch knows the workspace's folders.**  Once all events of an orderly history have been
applied, the tree maps exactly the folders that are neither skipped nor below a skipped one, to
their paths. -/
theorem tree_knows_folders (hr : Watching.Reached Orderly mine s) (hquiet : s.Quiet) (h : String)
    (p : Rel) :
    s.dirs.get h = some p ↔
      s.fs.find p = .ok h ∧ s.fs.isFolder h = true ∧ ∀ x ∈ p, skip x = false := by
  have hs := hr.inv
  constructor
  · intro hp
    rcases hs.known h p hp with hk | ⟨g, p', x, ⟨e, he, -⟩, -⟩
    · exact ⟨hk.find_eq, hk.isFolder, hk.skip_eq⟩
    · simp [Watching.events, hquiet.1, hquiet.2.1] at he
  · rintro ⟨hfind, hfolder, hskip⟩
    exact (hs.known_of_find hquiet hfind hfolder hskip).dirs_eq

/-- The acts one after the other, as long as they are allowed. -/
def Watching.run (ok : Watching → Act → Prop) [∀ s act, Decidable (ok s act)] (mine : Int → Bool)
    (s : Watching) : List Act → Option Watching
  | [] => some s
  | act :: acts => if ok s act then (s.step mine act).bind fun t => t.run ok mine acts else none

theorem Watching.Reached.run {ok : Watching → Act → Prop} [∀ s act, Decidable (ok s act)]
    {acts : List Act} (h : Watching.Reached ok mine s) (hrun : s.run ok mine acts = some t) :
    Watching.Reached ok mine t := by
  induction acts generalizing s with
  | nil =>
    cases hrun
    exact h
  | cons act acts ih =>
    rw [Watching.run] at hrun
    split at hrun
    · rename_i hok
      obtain ⟨u, hstep, hrun⟩ := Option.bind_eq_some_iff.1 hrun
      exact ih (h.step act hok hstep) hrun
    · cases hrun

/-- A workspace with nothing in it. -/
def emptyFs : Fs where
  root := "1:00"
  nodes := .empty
  root_none := rfl
  names := by
    intro h h' n n' hn
    cases hn
  named := by
    intro h n hn
    cases hn

def src : Bytes := [115, 114, 99]

def lib : Bytes := [108, 105, 98]

/-- The folder `src` is made, and renamed to `lib` while it is walked. -/
def tidy : List Act :=
  [.walk, .walk, .walk, .walk, .walk, .create "1:01" ⟨true, "1:00", src⟩ 7 none, .read 1, .apply,
    .walk, .rename "1:01" "1:00" lib 7 none none, .walk, .walk, .read 2, .apply, .apply,
      .walk, .walk,
    .walk, .walk, .walk]

theorem tidy_knows : ∃ s, Watching.Reached Orderly (fun _ => true) s ∧ s.Quiet ∧
    s.dirs.get "1:01" = some [lib] := by
  have hrun : ((Watching.start emptyFs).run Orderly (fun _ => true) tidy).map (fun s =>
      (s.queue, s.inbox, s.walk.isNone, (s.fs.find [lib]).toOption, s.fs.isFolder "1:01")) =
        some ([], [], true, some "1:01", true) := by
    decide +kernel
  obtain ⟨s, hs, hend⟩ := Option.map_eq_some_iff.1 hrun
  simp only [Prod.mk.injEq] at hend
  obtain ⟨hqueue, hinbox, hwalk, hfind, hfolder⟩ := hend
  have hreached := (Watching.Reached.start emptyFs).run hs
  have hquiet : s.Quiet := ⟨hqueue, hinbox, Option.isNone_iff_eq_none.1 hwalk⟩
  refine ⟨s, hreached, hquiet,
    (tree_knows_folders hreached hquiet "1:01" [lib]).2 ⟨?_, hfolder, ?_⟩⟩
  · cases hlib : s.fs.find [lib] with
    | error e =>
      rw [hlib] at hfind
      cases hfind
    | ok h =>
      rw [hlib] at hfind
      cases hfind
      rfl
  · decide +kernel

/-- One process makes a folder, deletes it and makes it again, and the kernel has all three in one
event. -/
def remade : List Act :=
  [.walk, .walk, .walk, .walk, .walk, .create "1:01" ⟨true, "1:00", src⟩ 7 none,
    .delete "1:01" 7 (some 0), .create "1:02" ⟨true, "1:00", src⟩ 7 (some 0), .read 1, .apply]

/-- **A folder that is made again is missed.**  Its event tells that a folder was made and that one
was deleted, and `apply` looks at the deletion first. -/
theorem remade_missed : ∃ s, Watching.Reached (fun _ _ => True) (fun _ => true) s ∧ s.Quiet ∧
    (s.fs.find [src]).toOption = some "1:02" ∧ s.fs.isFolder "1:02" = true ∧ skip src = false ∧
      s.dirs.get "1:02" = none := by
  have hrun : ((Watching.start emptyFs).run (fun _ _ => True) (fun _ => true) remade).map (fun s =>
      (s.queue ++ s.inbox, s.walk.isNone && (s.dirs.get "1:02").isNone,
        (s.fs.find [src]).toOption, s.fs.isFolder "1:02")) =
          some ([], true, some "1:02", true) := by
    decide +kernel
  obtain ⟨s, hs, hend⟩ := Option.map_eq_some_iff.1 hrun
  simp only [Prod.mk.injEq, append_eq_nil_iff, Bool.and_eq_true,
    Option.isNone_iff_eq_none] at hend
  obtain ⟨⟨hqueue, hinbox⟩, ⟨hwalk, hdirs⟩, hfind, hfolder⟩ := hend
  exact ⟨s, (Watching.Reached.start emptyFs).run hs, ⟨hqueue, hinbox, hwalk⟩, hfind, hfolder,
    by decide +kernel, hdirs⟩

/-- A folder in whose place another is renamed stays in the tree. -/
example : ((Watching.start emptyFs).run (fun _ _ => True) (fun _ => true)
    [.create "1:01" ⟨true, "1:00", src⟩ 7 none, .create "1:02" ⟨true, "1:00", lib⟩ 7 none,
      .walk, .walk, .walk, .walk, .walk, .walk, .walk, .walk, .walk, .walk, .walk,
      .rename "1:01" "1:00" lib 7 none none, .read 2, .apply, .apply, .walk, .walk, .walk, .walk,
      .walk]).map (fun s => (s.fs.isFolder "1:02", s.dirs.get "1:02", s.walk.isNone)) =
    some (false, some [lib], true) := by decide +kernel

end Watch

end Fern

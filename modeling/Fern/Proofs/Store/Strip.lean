/-
What the strip of a golden's source removes.

The list is read back as it was written, so the strip is one removal for each listed path, in the
order of the walk.  A removal is where the path leads now.  It spares what the build made if the
path leads nowhere, to a directory that holds something, or to a file or a link that is listed
itself; and then a listed file that is still at its path goes, because the directories on the way to
it do not.
-/
import Fern.Store.Strip

namespace Fern

open List

variable {l : List FileTree.Path}

namespace Strip

variable {checkout build t t' : FileTree.Nodes} {p q : FileTree.Path} {r r' : FileTree.Root}

/-! ### The list is read back -/

/-- What a walk comes to. -/
structure Named (p : FileTree.Path) : Prop where
  ne_nil : p ≠ []
  names : ∀ part ∈ p, FileTree.isName part = true

theorem isName_iff {part : String} : FileTree.isName part = true ↔
    part ≠ "" ∧ part ≠ "." ∧ part ≠ ".." ∧ '/' ∉ part.toList ∧ nul ∉ part.toList := by
  simp [FileTree.isName, nul, and_assoc]

theorem Named.splitOn (h : Named p) : (relText p).splitOn '/' = p.map String.toList := by
  refine splitOn_intercalate '/' ?_ (by simpa using h.ne_nil)
  intro part hpart
  obtain ⟨name, hname, rfl⟩ := mem_map.1 hpart
  exact (isName_iff.1 (h.names name hname)).2.2.2.1

theorem Named.nul_notMem (h : Named p) : nul ∉ relText p := by
  obtain ⟨-, h⟩ := h
  induction p with
  | nil => simp [relText]
  | cons name p ih =>
    have hname := (isName_iff.1 (h name mem_cons_self)).2.2.2.2
    have ih := ih fun part hpart => h part (mem_cons_of_mem _ hpart)
    by_cases hp : p = []
    · simpa [relText, hp] using hname
    · have hne : p.map String.toList ≠ [] := by simpa using hp
      rw [relText, map_cons, intercalate_cons_of_ne_nil hne]
      intro hmem
      rcases mem_append.1 hmem with hmem | hmem
      · rcases mem_append.1 hmem with hmem | hmem
        · exact hname hmem
        · exact absurd hmem (by decide)
      · exact ih hmem

theorem Named.head (h : Named p) : ∃ c rest, relText p = c :: rest ∧ c ≠ '/' := by
  obtain ⟨hne, h⟩ := h
  cases p with
  | nil => exact absurd rfl hne
  | cons name p =>
    obtain ⟨hempty, -, -, hslash, -⟩ := isName_iff.1 (h name mem_cons_self)
    cases hchars : name.toList with
    | nil => exact absurd (String.toList_eq_nil_iff.1 hchars) hempty
    | cons c chars =>
      refine ⟨c, ['/'].intercalate (chars :: p.map String.toList), ?_, ?_⟩
      · rw [relText, map_cons, hchars, intercalate_cons_cons_left]
      · rintro rfl
        exact hslash (by simp [hchars])

theorem staysBelow_names (h : ∀ part ∈ p, FileTree.isName part = true) (depth : Nat) :
    staysBelow depth (p.map String.toList) = true := by
  induction p generalizing depth with
  | nil => rfl
  | cons name p ih =>
    obtain ⟨hempty, hdot, hdots, -, -⟩ := isName_iff.1 (h name mem_cons_self)
    have hempty : name.toList ≠ [] := fun he => hempty (String.toList_eq_nil_iff.1 he)
    have hdot : name.toList ≠ ['.'] := fun he => hdot (String.toList_inj.1 he)
    have hdots : name.toList ≠ ['.', '.'] := fun he => hdots (String.toList_inj.1 he)
    rw [map_cons, staysBelow, if_neg (by simp [hempty, hdot]), if_neg hdots]
    exact ih (fun part hpart => h part (mem_cons_of_mem _ hpart)) (depth + 1)

theorem Named.isLocal (h : Named p) : isLocal (relText p) = true := by
  obtain ⟨c, rest, htext, hc⟩ := h.head
  have hsplit := h.splitOn
  rw [htext] at hsplit
  simp [Strip.isLocal, htext, hc, hsplit, staysBelow_names h.names 0]

theorem Named.targetParts (h : Named p) :
    FileTree.targetParts (String.ofList (relText p)) = some p := by
  obtain ⟨c, rest, htext, hc⟩ := h.head
  have hhead : (relText p).head? ≠ some '/' := by simp [htext, hc]
  have hkeep : (p.map String.toList).filter (fun part => part ≠ [] ∧ part ≠ ['.']) =
      p.map String.toList := by
    rw [filter_eq_self]
    intro part hpart
    obtain ⟨name, hname, rfl⟩ := mem_map.1 hpart
    obtain ⟨hempty, hdot, -⟩ := isName_iff.1 (h.names name hname)
    have hdot : name.toList ≠ ['.'] := fun he => hdot (String.toList_inj.1 he)
    simp [hempty, hdot]
  rw [FileTree.targetParts, String.toList_ofList, if_neg hhead, h.splitOn, hkeep, map_map]
  simp [Function.comp_def]

theorem named_of_mem (h : FileTree.WF checkout) (hp : p ∈ listed checkout) : Named p := by
  have hp := FileTree.mem_walk.1 (mem_filter.1 hp).1
  exact ⟨(h.names p hp).1, (h.names p hp).2⟩

theorem splitOn_listSource (h : ∀ p ∈ listed checkout, Named p) :
    (listSource checkout).splitOn nul = (listed checkout).map relText ++ [[]] := by
  unfold listSource
  generalize listed checkout = l at h ⊢
  induction l with
  | nil => simp
  | cons p l ih =>
    rw [flatMap_cons, append_assoc, singleton_append,
      splitOn_append_cons_self_of_not_mem (h p mem_cons_self).nul_notMem,
      ih fun q hq => h q (mem_cons_of_mem _ hq), map_cons, cons_append]

/-- `StripSource` at one path. -/
def stripAt (r : FileTree.Root) (p : FileTree.Path) :
    Except (List Char × FileTree.Errno) FileTree.Root :=
  stripOne r (relText p)

theorem stripSource_eq (h : FileTree.WF checkout) (b : Builder) (build : FileTree.Nodes) :
    ((b.buildSource checkout).built build).stripSource =
      ((listed checkout).foldlM stripAt { nodes := build }).map (Builder.mk none) := by
  have hfold (l : List FileTree.Path) (r : FileTree.Root) :
      (l.map relText ++ [[]]).foldlM stripOne r = l.foldlM stripAt r := by
    induction l generalizing r with
    | nil => rfl
    | cons p l ih =>
      rw [map_cons, cons_append, foldlM_cons, foldlM_cons]
      exact bind_congr fun r => ih r
  show ((listSource checkout).splitOn nul).foldlM stripOne { nodes := build } >>= _ = _
  rw [splitOn_listSource fun p hp => named_of_mem h hp, hfold]
  cases (listed checkout).foldlM stripAt { nodes := build } with
  | error e => rfl
  | ok r => rfl

/-! ### Where a listed path leads -/

/-- A file or a link is at `p`. -/
def isFileAt (t : FileTree.Nodes) (p : FileTree.Path) : Bool :=
  (t.get p).any fun node => !node.isDir

/-- The tree without the file or the link that `p` leads to. -/
def unlinked (t : FileTree.Nodes) (p : FileTree.Path) : FileTree.Nodes :=
  match FileTree.place t p with
  | .ok q => if isFileAt t q then t.erase q else t
  | .error _ => t

/-- `p` leads nowhere, or to a directory that holds something. -/
inductive Stays (t : FileTree.Nodes) (p : FileTree.Path) : Prop
  | nowhere (h : FileTree.place t p = .error .noent)
  | nothing (q : FileTree.Path) (h : FileTree.place t p = .ok q) (hq : t.get q = none)
  | holds (q : FileTree.Path) (h : FileTree.place t p = .ok q) (attrs : FileTree.Attrs)
      (hq : t.get q = some (.dir attrs)) (hholds : FileTree.Root.holds t q = true)

/-- What `p` leads to may be removed: nothing is, or a file or a link that is listed. -/
def Harmless (checkout t : FileTree.Nodes) (p : FileTree.Path) : Prop :=
  Stays t p ∨
    ∃ q, FileTree.place t p = .ok q ∧ q ∈ listed checkout ∧ isFileAt t q = true

theorem Stays.unlinked (h : Stays t p) : unlinked t p = t := by
  cases h with
  | nowhere h => simp only [Strip.unlinked, h]
  | nothing q h hq => simp [Strip.unlinked, h, isFileAt, hq]
  | holds q h attrs hq _ => simp [Strip.unlinked, h, isFileAt, hq, FileTree.Node.isDir]

/-- **What `Remove` does to a listed path**: nothing, and that is no error; it removes what the path
leads to; or it fails, and the strip with it. -/
theorem stripAt_cases (h : Named p) (r : FileTree.Root) :
    (Stays r.nodes p ∧ stripAt r p = .ok r) ∨
    (∃ q r', FileTree.place r.nodes p = .ok q ∧ r.nodes.get q ≠ none ∧ ¬ Stays r.nodes p ∧
      r'.nodes = r.nodes.erase q ∧ stripAt r p = .ok r') ∨
    ∃ e, FileTree.place r.nodes p = .error e ∧ e ≠ .noent ∧
      stripAt r p = .error (relText p, e) := by
  have hskip : ¬ (decide (relText p = []) || !isLocal (relText p)) = true := by
    obtain ⟨c, rest, htext, -⟩ := h.head
    rw [h.isLocal, htext]
    simp
  have hremove : remove r (relText p) = r.remove p := by
    simp only [remove, h.targetParts]
  cases hplace : FileTree.place r.nodes p with
  | error e =>
    have hr : r.remove p = .error e := by
      simp [FileTree.Root.remove, FileTree.Root.locate, hplace, bind, Except.bind]
    by_cases he : e = .noent
    · subst he
      refine .inl ⟨.nowhere hplace, ?_⟩
      simp [stripAt, stripOne, hskip, hremove, hr]
    · have hway := FileTree.place_error hplace
      refine .inr (.inr ⟨e, rfl, he, ?_⟩)
      have hstop : ¬ (decide (e = .noent) || isNotEmpty e) = true := by
        cases e <;> simp_all [FileTree.Errno.onTheWay, isNotEmpty]
      simp only [stripAt, stripOne, if_neg hskip, hremove, hr, if_neg hstop]
  | ok q =>
    cases hnode : r.nodes.get q with
    | none =>
      have hr : r.remove p = .error .noent := by
        simp [FileTree.Root.remove, FileTree.Root.locate, hplace, bind, Except.bind, pure,
          Except.pure, hnode]
      refine .inl ⟨.nothing q hplace hnode, ?_⟩
      simp [stripAt, stripOne, hskip, hremove, hr]
    | some node =>
      by_cases hfull : (node.isDir && FileTree.Root.holds r.nodes q) = true
      · have hr : r.remove p = .error .notempty := by
          simp [FileTree.Root.remove, FileTree.Root.locate, hplace, bind, Except.bind, pure,
            Except.pure, hnode, hfull]
        obtain ⟨hdir, hholds⟩ := Bool.and_eq_true_iff.1 hfull
        cases node with
        | dir attrs =>
          refine .inl ⟨.holds q hplace attrs hnode hholds, ?_⟩
          simp [stripAt, stripOne, hskip, hremove, hr, isNotEmpty]
        | file attrs data => cases hdir
        | link uid gid target => cases hdir
      · have hgoes : ¬ Stays r.nodes p := by
          intro hstays
          cases hstays with
          | nowhere h => simp [hplace] at h
          | nothing q' h hq => simp_all
          | holds q' h attrs hq hholds => simp_all [FileTree.Node.isDir]
        refine .inr (.inl ⟨q, ⟨r.nodes.erase q, q :: r.touched⟩, rfl, by simp [hnode],
          hgoes, rfl, ?_⟩)
        have hr : r.remove p = .ok ⟨r.nodes.erase q, q :: r.touched⟩ := by
          simp [FileTree.Root.remove, FileTree.Root.locate, hplace, bind, Except.bind, pure,
            Except.pure, hnode, hfull]
        simp only [stripAt, stripOne, if_neg hskip, hremove, hr]

/-! ### The whole strip -/

/-- Files and links went, and they are listed. -/
def Spares (checkout t t' : FileTree.Nodes) : Prop :=
  ∀ q, t'.get q = t.get q ∨ t'.get q = none ∧ q ∈ listed checkout ∧ isFileAt t q = true

theorem Spares.refl (checkout t : FileTree.Nodes) : Spares checkout t t := fun _ => .inl rfl

theorem Spares.trans {t'' : FileTree.Nodes} (h : Spares checkout t t')
    (h' : Spares checkout t' t'') : Spares checkout t t'' := by
  intro q
  rcases h' q with hsame | ⟨hnone, hlisted, hfile⟩
  · rw [hsame]
    exact h q
  · rcases h q with hsame | hgone
    · unfold isFileAt at hfile ⊢
      rw [hsame] at hfile
      exact .inr ⟨hnone, hlisted, hfile⟩
    · exact .inr ⟨hnone, hgone.2⟩

theorem isFileAt_of_isDirAt (h : FileTree.isDirAt t p = true) (hp : p ≠ []) :
    isFileAt t p = false := by
  unfold isFileAt
  cases hnode : t.get p with
  | none => rfl
  | some node =>
    have hdir : node.isDir = true := by simpa [FileTree.isDirAt, hp, hnode] using h
    simp [hdir]

theorem Spares.literal (h : Spares checkout t t') (hp : FileTree.Literal t p) :
    FileTree.Literal t' p := by
  refine ⟨hp.ne_nil, hp.names, ?_⟩
  intro q hq hne
  have hdir := hp.dirs q hq hne
  by_cases h0 : q = []
  · simp [FileTree.isDirAt, h0]
  · rcases h q with hsame | ⟨-, -, hfile⟩
    · unfold FileTree.isDirAt at hdir ⊢
      rwa [hsame]
    · rw [isFileAt_of_isDirAt hdir h0] at hfile
      cases hfile

theorem Harmless.step (h : Harmless checkout r.nodes p) (hp : Named p) :
    ∃ r', stripAt r p = .ok r' ∧ r'.nodes = unlinked r.nodes p ∧
      Spares checkout r.nodes r'.nodes := by
  rcases stripAt_cases hp r with
    ⟨hstays, hstrip⟩ | ⟨q, r', hplace, -, hgoes, hnodes, hstrip⟩ | ⟨e, hplace, he, -⟩
  · exact ⟨r, hstrip, hstays.unlinked.symm, .refl _ _⟩
  · rcases h with hstays | ⟨q', hplace', hlisted, hfile⟩
    · exact absurd hstays hgoes
    · obtain rfl : q' = q := by simpa [hplace] using hplace'.symm
      refine ⟨r', hstrip, ?_, ?_⟩
      · rw [hnodes, unlinked, hplace]
        exact (if_pos hfile).symm
      · intro u
        rw [hnodes, FinMap.get_erase]
        by_cases hu : u = q'
        · rw [if_pos hu, hu]
          exact .inr ⟨rfl, hlisted, hfile⟩
        · rw [if_neg hu]
          exact .inl rfl
  · rcases h with hstays | ⟨q', hplace', -⟩
    · cases hstays with
      | nowhere h => exact absurd (by simpa [hplace] using h) he
      | nothing q' h hq => simp [hplace] at h
      | holds q' h attrs hq hholds => simp [hplace] at h
    · simp [hplace] at hplace'

/-- A strip of harmless paths succeeds; only listed files and links go, and of those on the list
whichever are at their path. -/
theorem strip_of_harmless :
    ∀ r : FileTree.Root, (∀ p ∈ l, Named p) →
      (∀ done p rest, l = done ++ p :: rest → Harmless checkout (done.foldl unlinked r.nodes) p) →
      ∃ r', l.foldlM stripAt r = .ok r' ∧ Spares checkout r.nodes r'.nodes ∧
        ∀ p ∈ l, FileTree.Literal r.nodes p → isFileAt r.nodes p = true →
          r'.nodes.get p = none := by
  induction l with
  | nil =>
    intro r _ _
    refine ⟨r, rfl, .refl _ _, ?_⟩
    intro p hp
    cases hp
  | cons p l ih =>
    intro r hnamed hharmless
    have hpnamed := hnamed p mem_cons_self
    obtain ⟨r₁, hstep, hnodes, hspares⟩ := (hharmless [] p l rfl).step hpnamed
    have hrest : ∀ done q rest, l = done ++ q :: rest →
        Harmless checkout (done.foldl unlinked r₁.nodes) q := by
      intro done q rest hl
      rw [hnodes]
      exact hharmless (p :: done) q rest (by rw [hl]; rfl)
    obtain ⟨r', hfold, hspares', hgone⟩ := ih r₁
      (fun q hq => hnamed q (mem_cons_of_mem _ hq)) hrest
    refine ⟨r', ?_, hspares.trans hspares', ?_⟩
    · rw [foldlM_cons, hstep]
      exact hfold
    · intro q hq hway hfile
      have hstill : r₁.nodes.get q = none → r'.nodes.get q = none := by
        intro hnone
        rcases hspares' q with hsame | hgone
        · rw [hsame, hnone]
        · exact hgone.1
      rcases mem_cons.1 hq with rfl | hq
      -- its turn: the way is literal, so it is what goes
      · refine hstill ?_
        rw [hnodes, unlinked, FileTree.place_of_literal hway]
        simp [hfile]
      · rcases hspares q with hsame | hgone'
        · refine hgone q hq (hspares.literal hway) ?_
          unfold isFileAt at hfile ⊢
          rwa [hsame]
        · exact hstill hgone'.1

theorem get_stripped :
    ∀ r : FileTree.Root, (∀ p ∈ l, Named p) → l.foldlM stripAt r = .ok r' →
      ∀ q, r.nodes.get q = none → r'.nodes.get q = none := by
  induction l with
  | nil =>
    intro r _ h q hq
    cases h
    exact hq
  | cons p l ih =>
    intro r hnamed h q hq
    have hl (u : FileTree.Path) (hu : u ∈ l) := hnamed u (mem_cons_of_mem _ hu)
    rw [foldlM_cons] at h
    rcases stripAt_cases (hnamed p mem_cons_self) r with
      ⟨-, hstrip⟩ | ⟨u, r₁, -, -, -, hnodes, hstrip⟩ | ⟨e, -, -, hstrip⟩
    · rw [hstrip] at h
      exact ih r hl h q hq
    · rw [hstrip] at h
      refine ih r₁ hl h q ?_
      rw [hnodes, FinMap.get_erase, hq, ite_self]
    · rw [hstrip] at h
      cases h

/-- A strip that succeeds, and by which only listed files and links went, was of harmless paths. -/
theorem harmless_of_strip :
    ∀ r : FileTree.Root, (∀ p ∈ l, Named p) → l.foldlM stripAt r = .ok r' →
      (∀ q, r.nodes.get q ≠ none → r'.nodes.get q = none →
        q ∈ listed checkout ∧ isFileAt r.nodes q = true) →
      ∀ done p rest, l = done ++ p :: rest →
        Harmless checkout (done.foldl unlinked r.nodes) p := by
  induction l with
  | nil =>
    intro r _ _ _ done p rest hl
    simp at hl
  | cons p l ih =>
    intro r hnamed h hgone done u rest hsplit
    have hl (v : FileTree.Path) (hv : v ∈ l) := hnamed v (mem_cons_of_mem _ hv)
    rw [foldlM_cons] at h
    -- the step is harmless, and the rest goes on from the tree without what went
    obtain ⟨r₁, hnodes, hfirst, hfold⟩ : ∃ r₁ : FileTree.Root, r₁.nodes = unlinked r.nodes p ∧
        Harmless checkout r.nodes p ∧ l.foldlM stripAt r₁ = .ok r' := by
      rcases stripAt_cases (hnamed p mem_cons_self) r with
        ⟨hstays, hstrip⟩ | ⟨q, r₁, hplace, hq, -, hnodes, hstrip⟩ | ⟨e, -, -, hstrip⟩
      · rw [hstrip] at h
        exact ⟨r, hstays.unlinked.symm, .inl hstays, h⟩
      · rw [hstrip] at h
        have hnone : r₁.nodes.get q = none := by simp [hnodes]
        obtain ⟨hlisted, hfile⟩ := hgone q hq (get_stripped r₁ hl h q hnone)
        refine ⟨r₁, ?_, .inr ⟨q, hplace, hlisted, hfile⟩, h⟩
        rw [hnodes, unlinked, hplace]
        exact (if_pos hfile).symm
      · rw [hstrip] at h
        cases h
    cases done with
    | nil =>
      obtain ⟨rfl, -⟩ := cons_eq_cons.1 hsplit
      exact hfirst
    | cons p' done =>
      obtain ⟨rfl, hl'⟩ := cons_eq_cons.1 hsplit
      rw [foldl_cons, ← hnodes]
      refine ih r₁ hl hfold ?_ done u rest hl'
      intro q hq hnone
      obtain ⟨r₂, hstep, hnodes₂, hspares⟩ := hfirst.step (hnamed p mem_cons_self)
      rw [← hnodes₂] at hnodes
      have hsame : r₁.nodes.get q = r.nodes.get q := by
        rw [hnodes]
        rcases hspares q with hsame | hgone'
        · exact hsame
        · rw [hnodes] at hq
          exact absurd hgone'.1 hq
      rw [hsame] at hq
      obtain ⟨hlisted, hfile⟩ := hgone q hq hnone
      refine ⟨hlisted, ?_⟩
      unfold isFileAt at hfile ⊢
      rwa [hsame]

/-- The list is gone, and of the workspace what is listed and is a file or a link at that path. -/
structure Stripped (checkout build : FileTree.Nodes) (b : Builder) : Prop where
  list : b.list = none
  gone : ∀ p ∈ listed checkout, isFileAt build p = true → b.workspace.nodes.get p = none
  kept : ∀ p, ¬ (p ∈ listed checkout ∧ isFileAt build p = true) →
    b.workspace.nodes.get p = build.get p

/-- **When a strip leaves what the build made.**  For every checkout and whatever the build left,
`StripSource` succeeds and removes exactly the listed paths that are still files or links, if and
only if every listed path, in the tree without the files and links that the paths before it lead to,
leads nowhere, to a directory that holds something, or to a file or a link that is listed itself. -/
theorem stripSource_exact_iff (b : Builder) (checkout build : FileTree.Tree) :
    (∃ b', ((b.buildSource checkout.nodes).built build.nodes).stripSource = .ok b' ∧
      Stripped checkout.nodes build.nodes b') ↔
    ∀ done p rest, listed checkout.nodes = done ++ p :: rest →
      Harmless checkout.nodes (done.foldl unlinked build.nodes) p := by
  have hnamed (p : FileTree.Path) (hp : p ∈ listed checkout.nodes) : Named p :=
    named_of_mem checkout.wf hp
  rw [stripSource_eq checkout.wf]
  constructor
  · rintro ⟨b', hstrip, hexact⟩
    cases hfold : (listed checkout.nodes).foldlM stripAt { nodes := build.nodes } with
    | error e =>
      rw [hfold] at hstrip
      cases hstrip
    | ok r' =>
      rw [hfold] at hstrip
      cases hstrip
      refine harmless_of_strip { nodes := build.nodes } hnamed hfold ?_
      intro q hq hnone
      by_contra hnot
      exact hq ((hexact.kept q hnot).symm.trans hnone)
  · intro hharmless
    obtain ⟨r', hfold, hspares, hgone⟩ :=
      strip_of_harmless { nodes := build.nodes } hnamed hharmless
    refine ⟨⟨none, r'⟩, by rw [hfold]; rfl, rfl, ?_, ?_⟩
    · intro p hp hfile
      refine hgone p hp (build.wf.literal ?_) hfile
      intro hnone
      simp [isFileAt, hnone] at hfile
    · intro p hp
      rcases hspares p with hsame | hgone'
      · exact hsame
      · exact absurd hgone'.2 hp

theorem not_stripped {b b' : Builder} (p : FileTree.Path)
    (hkept : ¬ (p ∈ listed checkout ∧ isFileAt build p = true))
    (hget : b.stripSource.toOption.map (fun b => b.workspace.nodes.get p) = some none)
    (hbuild : (build.get p).isSome = true) (h : b.stripSource = .ok b') :
    ¬ Stripped checkout build b' := by
  intro hexact
  rw [h] at hget
  have hnone : b'.workspace.nodes.get p = none := Option.some.inj hget
  rw [← hexact.kept p hkept, hnone] at hbuild
  cases hbuild

section Counterexample

/-- Root's, with everything allowed. -/
def plain : FileTree.Attrs := ⟨0, 0, 0o755⟩

/-- A checkout with a file in a directory. -/
def libX : FileTree.Tree where
  nodes := FileTree.ofList [(["lib"], .dir plain), (["lib", "x"], .file plain [1])]
  wf := .of_dom (by decide +kernel)

/-- The build replaced the file with a directory. -/
def emptyDir : FileTree.Tree where
  nodes := FileTree.ofList [(["lib"], .dir plain), (["lib", "x"], .dir plain)]
  wf := .of_dom (by decide +kernel)

/-- The build replaced the directory with a link to one of its own. -/
def linkedDir : FileTree.Tree where
  nodes := FileTree.ofList [(["lib"], .link 0 0 "out"), (["out"], .dir plain),
    (["out", "x"], .file plain [2])]
  wf := .of_dom (by decide +kernel)

/-- The build replaced the directory with a file. -/
def fileOnTheWay : FileTree.Tree where
  nodes := FileTree.ofList [(["lib"], .file plain [3])]
  wf := .of_dom (by decide +kernel)

/-- **What the build made goes.**  An empty directory in a file's place is removed, and so is the
build's file to which a link in a directory's place leads; and with a file in a directory's place
the strip fails. -/
theorem strip_takes_builds_own :
    (∀ b', (((Builder.mk none { nodes := .empty }).buildSource libX.nodes).built
      emptyDir.nodes).stripSource = .ok b' → ¬ Stripped libX.nodes emptyDir.nodes b') ∧
    (∀ b', (((Builder.mk none { nodes := .empty }).buildSource libX.nodes).built
      linkedDir.nodes).stripSource = .ok b' → ¬ Stripped libX.nodes linkedDir.nodes b') ∧
    (((Builder.mk none { nodes := .empty }).buildSource libX.nodes).built
      fileOnTheWay.nodes).stripSource.toOption.isNone = true := by
  refine ⟨?_, ?_, by decide +kernel⟩
  · intro b' h
    exact not_stripped ["lib", "x"] (by decide +kernel) (by decide +kernel) (by decide +kernel) h
  · intro b' h
    exact not_stripped ["out", "x"] (by decide +kernel) (by decide +kernel) (by decide +kernel) h

end Counterexample

end Strip

end Fern

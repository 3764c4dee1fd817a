/-
The merge of a worktree onto a golden.

The walk comes to a directory before what is in it.  So when it comes to a path, everything on the
way there is the worktree's already, and a directory: whatever link the golden had there is gone,
and the operation is at that very path.  The step then makes the worktree's entry there, and what
was below goes with what was there unless both are directories.
-/
import Fern.Store.Overlay

namespace Fern

open List

namespace Overlay

variable {sys : System} {r r' : FileTree.Root} {rel q : FileTree.Path} {node : FileTree.Node}

/-! ### One path -/

/-- `rel` has become `node`; what was below it is there if that is a directory, and nothing else
changed or was touched. -/
structure Put (r r' : FileTree.Root) (rel : FileTree.Path) (node : FileTree.Node) : Prop where
  here : r'.nodes.get rel = some node
  below : ∀ q, rel <+: q → q ≠ rel →
    r'.nodes.get q = if node.isDir then r.nodes.get q else none
  other : ∀ q, ¬ rel <+: q → r'.nodes.get q = r.nodes.get q
  touched : ∀ q ∈ r'.touched, q = rel ∨ q ∈ r.touched

theorem not_above (hq : q <+: rel) (hne : q ≠ rel) : ¬ rel <+: q := by
  intro h
  exact hne (hq.eq_of_length_le h.length_le)

theorem Put.literal (h : Put r r' rel node) (hway : FileTree.Literal r.nodes rel) :
    FileTree.Literal r'.nodes rel :=
  hway.congr fun q hq hne => h.other q (not_above hq hne)

/-- What is at `rel` may be changed to what is a directory just if it is one. -/
theorem Put.change (h : Put r r' rel node) (hway : FileTree.Literal r.nodes rel)
    {f : FileTree.Node → FileTree.Node} (hdir : (f node).isDir = node.isDir) :
    ∃ r'', r'.change rel f = .ok r'' ∧ Put r r'' rel (f node) := by
  refine ⟨_, FileTree.Root.change_of_literal (h.literal hway) h.here, ?_, ?_, ?_, ?_⟩
  · simp
  · intro q hq hne
    rw [FinMap.get_set, if_neg hne, hdir]
    exact h.below q hq hne
  · intro q hq
    have hne : q ≠ rel := by
      rintro rfl
      exact hq prefix_rfl
    rw [FinMap.get_set, if_neg hne]
    exact h.other q hq
  · intro q hq
    rcases mem_cons.1 hq with hq | hq
    · exact .inl hq
    · exact h.touched q hq

theorem put_create (hwf : FileTree.WF r.nodes) (hway : FileTree.Literal r.nodes rel)
    (hnone : r.nodes.get rel = none) (node : FileTree.Node) :
    ∃ r', r.create rel node = .ok r' ∧ Put r r' rel node := by
  have hbelow (q : FileTree.Path) (hq : rel <+: q) (hne : q ≠ rel) : r.nodes.get q = none := by
    by_contra hsome
    have hdir := (hwf.literal hsome).dirs rel hq (Ne.symm hne)
    exact FileTree.get_ne_none_of_isDirAt hdir hway.ne_nil hnone
  refine ⟨_, FileTree.Root.create_of_literal hway hnone, ?_, ?_, ?_, ?_⟩
  · simp
  · intro q hq hne
    rw [FinMap.get_set, if_neg hne, hbelow q hq hne, ite_self]
  · intro q hq
    have hne : q ≠ rel := by
      rintro rfl
      exact hq prefix_rfl
    rw [FinMap.get_set, if_neg hne]
  · intro q hq
    exact mem_cons.1 hq

theorem put_replace (hway : FileTree.Literal r.nodes rel) (node : FileTree.Node)
    (hgone : ∀ q, rel <+: q → q ≠ rel → node.isDir = true → r.nodes.get q = none) :
    ∃ r₁ r₂, r.removeAll rel = .ok r₁ ∧ r₁.create rel node = .ok r₂ ∧ Put r r₂ rel node := by
  have hway' : FileTree.Literal (r.nodes.eraseIf fun q => rel.isPrefixOf q) rel := by
    refine hway.congr fun q hq hne => ?_
    rw [FinMap.get_eraseIf, if_neg]
    rw [ isPrefixOf_iff_prefix]
    exact not_above hq hne
  have hnone : (r.nodes.eraseIf fun q => rel.isPrefixOf q).get rel = none := by
    simp
  refine ⟨_, _, FileTree.Root.removeAll_of_literal hway,
    FileTree.Root.create_of_literal hway' hnone, ?_, ?_, ?_, ?_⟩
  · simp
  · intro q hq hne
    rw [FinMap.get_set, if_neg hne, FinMap.get_eraseIf, if_pos ( isPrefixOf_iff_prefix.2 hq)]
    by_cases hdir : node.isDir = true
    · rw [if_pos hdir, hgone q hq hne hdir]
    · rw [if_neg hdir]
  · intro q hq
    have hne : q ≠ rel := by
      rintro rfl
      exact hq prefix_rfl
    rw [FinMap.get_set, if_neg hne, FinMap.get_eraseIf, if_neg]
    rw [ isPrefixOf_iff_prefix]
    exact hq
  · intro q hq
    rcases mem_cons.1 hq with hq | hq
    · exact .inl hq
    · exact mem_cons.1 hq

/-! ### The entry's attributes -/

theorem ok_bind {α β : Type} (a : α) (f : α → Except FileTree.Errno β) : (.ok a >>= f) = f a := rfl

theorem Put.setAttrs_dir (sys : System) {b : FileTree.Attrs} (h : Put r r' rel (.dir b))
    (hway : FileTree.Literal r.nodes rel) (a : FileTree.Attrs) :
    ∃ r'', setAttrs sys r' rel (.dir a) = .ok r'' ∧ Put r r'' rel (.dir a) := by
  obtain ⟨r₁, hown, h₁⟩ := h.change hway (f := chown sys a.uid a.gid) rfl
  obtain ⟨r₂, hmode, h₂⟩ := h₁.change hway (f := chmod a.mode) rfl
  refine ⟨r₂, ?_, h₂⟩
  simp only [setAttrs, ownerOf, hown, ok_bind, hmode]

theorem Put.setAttrs_file (sys : System) {b : FileTree.Attrs} {data : Bytes}
    (h : Put r r' rel (.file b data)) (hway : FileTree.Literal r.nodes rel) (a : FileTree.Attrs) :
    ∃ r'', setAttrs sys r' rel (.file a data) = .ok r'' ∧ Put r r'' rel (.file a data) := by
  obtain ⟨r₁, hown, h₁⟩ := h.change hway (f := chown sys a.uid a.gid) rfl
  obtain ⟨r₂, hmode, h₂⟩ := h₁.change hway (f := chmod a.mode) rfl
  refine ⟨r₂, ?_, h₂⟩
  simp only [setAttrs, ownerOf, hown, ok_bind, hmode]

theorem Put.setAttrs_link (sys : System) {uid' gid' : Nat} {target : String}
    (h : Put r r' rel (.link uid' gid' target)) (hway : FileTree.Literal r.nodes rel)
    (uid gid : Nat) :
    ∃ r'', setAttrs sys r' rel (.link uid gid target) = .ok r'' ∧
      Put r r'' rel (.link uid gid target) := by
  obtain ⟨r₁, hown, h₁⟩ := h.change hway (f := chown sys uid gid) rfl
  refine ⟨r₁, ?_, h₁⟩
  simp only [setAttrs, ownerOf, hown, ok_bind]
  rfl

/-- A directory is there: the golden's, or a new one in the place of anything else. -/
theorem put_dir (sys : System) (hwf : FileTree.WF r.nodes) (hway : FileTree.Literal r.nodes rel)
    (perm : Nat) :
    ∃ r' a, overlayDir sys r rel perm = .ok r' ∧ Put r r' rel (.dir a) := by
  cases hcur : r.nodes.get rel with
  | none =>
    obtain ⟨r', hcreate, hput⟩ := put_create hwf hway hcur (.dir (sys.newAttrs perm rel))
    exact ⟨r', _, by simp only [overlayDir, hcreate], hput⟩
  | some cur =>
    have hexists := FileTree.Root.create_exists hway hcur (.dir (sys.newAttrs perm rel))
    have hstat := FileTree.Root.lstat_of_literal hway hcur
    by_cases hdir : cur.isDir = true
    · cases cur with
      | dir a =>
        refine ⟨{ r with touched := rel :: r.touched }, a, ?_, hcur, ?_, ?_, ?_⟩
        · simp only [overlayDir, hexists, hstat, ok_bind, hdir]
          rfl
        · intro q _ _
          rfl
        · intro q _
          rfl
        · intro q hq
          exact mem_cons.1 hq
      | file a data => cases hdir
      | link uid gid target => cases hdir
    · have hgone (q : FileTree.Path) (hq : rel <+: q) (hne : q ≠ rel) : r.nodes.get q = none :=
        hwf.none_below hcur (eq_false_of_ne_true hdir) hq (Ne.symm hne)
      -- the golden's entry has been touched by the look at it
      obtain ⟨r₁, r₂, hremove, hcreate, hput⟩ := put_replace
        (r := { r with touched := rel :: r.touched }) hway (.dir (sys.newAttrs perm rel))
        fun q hq hne _ => hgone q hq hne
      refine ⟨r₂, _, ?_, hput.here, hput.below, hput.other, ?_⟩
      · simp only [overlayDir, hexists, hstat, ok_bind, if_neg hdir, hremove, hcreate]
      · intro q hq
        rcases hput.touched q hq with hq | hq
        · exact .inl hq
        · exact mem_cons.1 hq

/-- **One step** of the walk puts the worktree's entry where it is. -/
theorem put_one (sys : System) {s : Roots} (hwf : FileTree.WF s.dst.nodes)
    (hway : FileTree.Literal s.dst.nodes rel) (hsrc : FileTree.WF s.src.nodes)
    (hnode : s.src.nodes.get rel = some node) :
    ∃ dst, overlayOne sys s rel = .ok ⟨dst, { s.src with touched := rel :: s.src.touched }⟩ ∧
      Put s.dst dst rel node := by
  have hstat := FileTree.Root.lstat_of_literal (hsrc.literal (by simp [hnode])) hnode
  cases node with
  | dir a =>
    obtain ⟨r₁, b, hmade, h₁⟩ := put_dir sys hwf hway a.mode
    obtain ⟨r₂, hset, h₂⟩ := h₁.setAttrs_dir sys hway a
    exact ⟨r₂, by simp only [overlayOne, hstat, ok_bind, hmade, hset]; rfl, h₂⟩
  | link uid gid target =>
    obtain ⟨r₁, r₂, hremove, hcreate, h₂⟩ := put_replace hway
      (.link (sys.newOwner rel).1 (sys.newOwner rel).2 target) (by simp [FileTree.Node.isDir])
    obtain ⟨r₃, hset, h₃⟩ := h₂.setAttrs_link sys hway uid gid
    exact ⟨r₃, by simp only [overlayOne, hstat, ok_bind, hremove, hcreate, hset]; rfl, h₃⟩
  | file a data =>
    obtain ⟨r₁, r₂, hremove, hcreate, h₂⟩ := put_replace hway
      (.file (sys.newAttrs a.mode rel) []) (by simp [FileTree.Node.isDir])
    obtain ⟨r₃, hclone, h₃⟩ := h₂.change hway (f := clone data) rfl
    obtain ⟨r₄, hset, h₄⟩ := Put.setAttrs_file sys h₃ hway a
    refine ⟨r₄, ?_, h₄⟩
    simp only [overlayOne, hstat, ok_bind, cloneFile, hremove, hcreate, hclone, hset]
    rfl

/-! ### The walk -/

theorem prefix_dropLast (h : rel <+: q) (hne : q ≠ rel) : rel <+: q.dropLast := by
  obtain ⟨rest, rfl⟩ := h
  have hrest : rest ≠ [] := by
    rintro rfl
    exact hne (append_nil _)
  rw [dropLast_append_of_ne_nil hrest]
  exact prefix_append _ _

theorem Put.wf (h : Put r r' rel node) (hway : FileTree.Literal r.nodes rel)
    (hwf : FileTree.WF r.nodes) : FileTree.WF r'.nodes := by
  have hdirs {q : FileTree.Path} (hq : ¬ rel <+: q) (hdir : FileTree.isDirAt r.nodes q = true) :
      FileTree.isDirAt r'.nodes q = true := by
    unfold FileTree.isDirAt at hdir ⊢
    rwa [h.other q hq]
  constructor
  · intro q hq
    by_cases hqr : q = rel
    · rw [hqr]
      exact ⟨hway.ne_nil, hway.names⟩
    · refine hwf.names q ?_
      by_cases hpre : rel <+: q
      · rw [h.below q hpre hqr] at hq
        by_cases hdir : node.isDir = true
        · rwa [if_pos hdir] at hq
        · rw [if_neg hdir] at hq
          exact absurd rfl hq
      · rwa [h.other q hpre] at hq
  · intro q hq
    by_cases hqr : q = rel
    · subst hqr
      have hne : q.dropLast ≠ q := by
        intro heq
        have hlen := congrArg List.length heq
        have hpos := length_pos_iff.2 hway.ne_nil
        rw [length_dropLast] at hlen
        omega
      exact hdirs (not_above q.dropLast_prefix hne) (hway.dirs _ q.dropLast_prefix hne)
    · by_cases hpre : rel <+: q
      · -- below `rel` there is something only if it is a directory
        rw [h.below q hpre hqr] at hq
        by_cases hdir : node.isDir = true
        · rw [if_pos hdir] at hq
          have hparent := hwf.parents q hq
          by_cases hpar : q.dropLast = rel
          · rw [hpar]
            cases node with
            | dir a => exact FileTree.isDirAt_of_get h.here
            | file a data => cases hdir
            | link uid gid target => cases hdir
          · unfold FileTree.isDirAt at hparent ⊢
            rw [h.below _ (prefix_dropLast hpre hqr) hpar, if_pos hdir]
            exact hparent
        · rw [if_neg hdir] at hq
          exact absurd rfl hq
      · rw [h.other q hpre] at hq
        refine hdirs ?_ (hwf.parents q hq)
        intro hpre'
        exact hpre (hpre'.trans q.dropLast_prefix)

/-- The worktree has something at or above `q` that isn't a directory, among `paths`. -/
def Covers (worktree : FileTree.Nodes) (paths : List FileTree.Path) (q : FileTree.Path) : Prop :=
  ∃ p ∈ paths, p <+: q ∧ ∃ node, worktree.get p = some node ∧ node.isDir = false

/-- What holds when the walk has come to `done`: these are the worktree's, and the others the
golden's unless they are below something that isn't a directory. -/
structure Merged (golden worktree : FileTree.Nodes) (done : List FileTree.Path) (s : Roots) :
    Prop where
  wf : FileTree.WF s.dst.nodes
  src : s.src.nodes = worktree
  walked : ∀ p ∈ done, s.dst.nodes.get p = worktree.get p
  covered : ∀ p ∉ done, Covers worktree done p → s.dst.nodes.get p = none
  kept : ∀ p ∉ done, ¬ Covers worktree done p → s.dst.nodes.get p = golden.get p
  touched : ∀ p ∈ s.dst.touched, p ∈ done
  read : ∀ p ∈ s.src.touched, p ∈ done

theorem Merged.step (sys : System) {golden worktree : FileTree.Nodes}
    {done after : List FileTree.Path} {s : Roots}
    (h : Merged golden worktree done s) (hworktree : FileTree.WF worktree)
    (hwalk : FileTree.walk worktree = done ++ rel :: after) :
    ∃ s', overlayOne sys s rel = .ok s' ∧ Merged golden worktree (done ++ [rel]) s' := by
  have hmem : rel ∈ FileTree.walk worktree := by simp [hwalk]
  obtain ⟨node, hnode⟩ := Option.ne_none_iff_exists'.1 (FileTree.mem_walk.1 hmem)
  have hlit := hworktree.literal (FileTree.mem_walk.1 hmem)
  have hdone (q : FileTree.Path) (hq : q <+: rel) (hne : q ≠ rel) (h0 : q ≠ []) : q ∈ done := by
    refine FileTree.mem_before_of_above hwalk (FileTree.mem_walk.2 ?_) hq hne
    exact FileTree.get_ne_none_of_isDirAt (hlit.dirs q hq hne) h0
  -- everything on the way is the worktree's, and a directory
  have hway : FileTree.Literal s.dst.nodes rel := by
    refine ⟨hlit.ne_nil, hlit.names, ?_⟩
    intro q hq hne
    have hdir := hlit.dirs q hq hne
    by_cases h0 : q = []
    · simp [FileTree.isDirAt, h0]
    · unfold FileTree.isDirAt at hdir ⊢
      rwa [h.walked q (hdone q hq hne h0)]
  have hfresh : rel ∉ done := by
    have hnodup := FileTree.nodup_walk worktree
    rw [hwalk, nodup_append] at hnodup
    intro hin
    exact hnodup.2.2 rel hin rel mem_cons_self rfl
  obtain ⟨dst, hone, hput⟩ := put_one sys h.wf hway (h.src ▸ hworktree) (h.src ▸ hnode)
  have hnew {p : FileTree.Path} (hp : p ∉ done ++ [rel]) : p ∉ done ∧ p ≠ rel := by
    simpa [not_or] using hp
  refine ⟨_, hone, hput.wf hway h.wf, h.src, ?_, ?_, ?_, ?_, ?_⟩
  · intro p hp
    rcases mem_append.1 hp with hp | hp
    · rw [hput.other p, h.walked p hp]
      -- what is below `rel` comes after it
      intro hpre
      obtain ⟨d₁, d₂, rfl⟩ := append_of_mem hp
      have hne : rel ≠ p := by
        rintro rfl
        exact hfresh hp
      rw [append_assoc, cons_append] at hwalk
      exact hfresh (mem_append_left _ (FileTree.mem_before_of_above hwalk hmem hpre hne))
    · obtain rfl := mem_singleton.1 hp
      rw [hput.here, hnode]
  · intro p hp hcovers
    obtain ⟨hp, hpr⟩ := hnew hp
    by_cases hpre : rel <+: p
    · show dst.nodes.get p = none
      rw [hput.below p hpre hpr]
      by_cases hdir : node.isDir = true
      · rw [if_pos hdir]
        refine h.covered p hp ?_
        obtain ⟨a, ha, hap, other, hother, hfile⟩ := hcovers
        rcases mem_append.1 ha with ha | ha
        · exact ⟨a, ha, hap, other, hother, hfile⟩
        · obtain rfl := mem_singleton.1 ha
          rw [hnode] at hother
          cases hother
          rw [hdir] at hfile
          cases hfile
      · rw [if_neg hdir]
    · show dst.nodes.get p = none
      rw [hput.other p hpre]
      refine h.covered p hp ?_
      obtain ⟨a, ha, hap, other, hother, hfile⟩ := hcovers
      rcases mem_append.1 ha with ha | ha
      · exact ⟨a, ha, hap, other, hother, hfile⟩
      · obtain rfl := mem_singleton.1 ha
        exact absurd hap hpre
  · intro p hp hnone
    obtain ⟨hp, hpr⟩ := hnew hp
    have hnone' : ¬ Covers worktree done p := by
      rintro ⟨a, ha, hrest⟩
      exact hnone ⟨a, mem_append_left _ ha, hrest⟩
    rw [← h.kept p hp hnone']
    by_cases hpre : rel <+: p
    · have hdir : node.isDir = true := by
        by_contra hfile
        exact hnone ⟨rel, by simp, hpre, node, hnode, eq_false_of_ne_true hfile⟩
      show dst.nodes.get p = s.dst.nodes.get p
      rw [hput.below p hpre hpr, if_pos hdir]
    · exact hput.other p hpre
  · intro p hp
    rcases hput.touched p hp with rfl | hp
    · simp
    · exact mem_append_left _ (h.touched p hp)
  · intro p hp
    rcases mem_cons.1 hp with rfl | hp
    · simp
    · exact mem_append_left _ (h.read p hp)

theorem Merged.walk (sys : System) {golden worktree : FileTree.Nodes}
    (hworktree : FileTree.WF worktree) (after : List FileTree.Path) :
    ∀ (done : List FileTree.Path) (s : Roots), Merged golden worktree done s →
      FileTree.walk worktree = done ++ after →
      ∃ s', after.foldlM (overlayOne sys) s = .ok s' ∧
        Merged golden worktree (FileTree.walk worktree) s' := by
  induction after with
  | nil =>
    intro done s h hwalk
    rw [append_nil] at hwalk
    exact ⟨s, rfl, hwalk ▸ h⟩
  | cons rel after ih =>
    intro done s h hwalk
    obtain ⟨s₁, hone, h₁⟩ := h.step sys hworktree hwalk
    obtain ⟨s₂, hrest, h₂⟩ := ih (done ++ [rel]) s₁ h₁ (by simp [hwalk])
    refine ⟨s₂, ?_, h₂⟩
    rw [foldlM_cons, hone, ok_bind, hrest]

/-- **A right-biased merge that stays inside.**  For every golden and every worktree, `overlay`
succeeds; the result has the worktree's entries, and elsewhere the golden's where nothing on the way
is other than a directory in the worktree; and every operation was at a path of the worktree itself,
in either root. -/
theorem overlay_merges (sys : System) (golden worktree : FileTree.Tree) :
    ∃ (s : Roots) (result : FileTree.Tree),
      overlay sys golden.nodes worktree.nodes = .ok s ∧ s.dst.nodes = result.nodes ∧
      s.src.nodes = worktree.nodes ∧
      (∀ p, worktree.nodes.get p ≠ none → result.nodes.get p = worktree.nodes.get p) ∧
      (∀ p node, worktree.nodes.get p = none → (result.nodes.get p = some node ↔
        golden.nodes.get p = some node ∧
          ∀ q, q <+: p → ∀ n, worktree.nodes.get q = some n → n.isDir = true)) ∧
      (∀ p ∈ s.dst.touched, worktree.nodes.get p ≠ none) ∧
      ∀ p ∈ s.src.touched, worktree.nodes.get p ≠ none := by
  have hstart : Merged golden.nodes worktree.nodes []
      ⟨⟨golden.nodes, []⟩, ⟨worktree.nodes, []⟩⟩ := by
    refine ⟨golden.wf, rfl, by simp, ?_, fun _ _ _ => rfl, by simp, by simp⟩
    rintro p - ⟨a, ha, -⟩
    cases ha
  obtain ⟨s, hrun, h⟩ := hstart.walk sys worktree.wf (FileTree.walk worktree.nodes) [] _ rfl
  refine ⟨s, ⟨s.dst.nodes, h.wf⟩, hrun, rfl, h.src, ?_, ?_, ?_, ?_⟩
  · intro p hp
    exact h.walked p (FileTree.mem_walk.2 hp)
  · intro p node hp
    have hp : p ∉ FileTree.walk worktree.nodes := by
      rw [FileTree.mem_walk]
      exact fun hne => hne hp
    constructor
    · intro hnode
      have hcovers : ¬ Covers worktree.nodes (FileTree.walk worktree.nodes) p := by
        intro hcovers
        have hnode : s.dst.nodes.get p = some node := hnode
        rw [h.covered p hp hcovers] at hnode
        cases hnode
      refine ⟨(h.kept p hp hcovers).symm.trans hnode, ?_⟩
      intro q hq n hn
      by_contra hfile
      exact hcovers ⟨q, FileTree.mem_walk.2 (by simp [hn]), hq, n, hn, eq_false_of_ne_true hfile⟩
    · rintro ⟨hgolden, hdirs⟩
      have hcovers : ¬ Covers worktree.nodes (FileTree.walk worktree.nodes) p := by
        rintro ⟨q, -, hq, n, hn, hfile⟩
        rw [hdirs q hq n hn] at hfile
        cases hfile
      exact (h.kept p hp hcovers).trans hgolden
  · intro p hp
    exact FileTree.mem_walk.1 (h.touched p hp)
  · intro p hp
    exact FileTree.mem_walk.1 (h.read p hp)

end Overlay

end Fern

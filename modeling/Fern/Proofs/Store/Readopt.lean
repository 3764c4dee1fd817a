/-
Creating an environment again whose worktree was made anew.

`readopt` makes a worktree that is gone, or is a plain directory again, a subvolume.  Stopped on the
way it leaves one of three things: `adopt.new`, which the next one's adopt stumbles over; the
subvolume in place, with the git folder of the worktree before, which the next one takes for done;
or nothing.  Only from the last does calling `Create` again do what the first call would have done.
-/
import Fern.Proofs.Store.Separation

namespace Fern

open Call StoreM

variable {T : Type} [Tree T]

/-- `Get` finds an environment, with a worktree for its workspace. -/
structure AtWorktree (s : Pool T) (id : EnvID) (r n : String) (env : EnvRow) : Prop where
  valid : checkEnvID id = true
  row : s.env? id = some env
  workspace : env.workspace = .worktree r n

/-- A `Create` of `id` that names `worktrees/r/n` or no path, stopped. -/
def CreateStops (id : EnvID) (r n : String) (s t : Pool T) : Prop :=
  ∃ opts : CreateOptions T, (opts.workspace.all fun arg => arg.names (.worktree r n)) = true ∧
    Stops (Create id opts) s t

/-- What a `Create` is to end with: the worktree is a subvolume with these files, and the git folder
recorded is the one `repoGitDir` gives. -/
def Recreated (id : EnvID) (r n : String) (files : T) (out : Outcome (Pool T) (Op T) Err EnvRow) :
    Prop :=
  ∃ row, out.result = .ok row ∧ out.final.env? id = some row ∧ row.workspace = .worktree r n ∧
    out.final.node (.worktree r n) = some (.subvol files false) ∧
    out.final.gitDir (.worktree r n) = .ok row.git

/-- A workspace that is gone can be made, and one that is a directory can be adopted. -/
def CanMake (s : Pool T) (id : EnvID) (r n : String) : Prop :=
  (s.node (.worktree r n) = none → ∀ d, s.node (.repo r) = some d → d.isDir = true) ∧
    (s.node (.worktree r n) ≠ none →
      s.node (.adopt id) = none ∧ s.hasParent (.adopt id) = true)

/-- A `Create` finds things as the first one did, or done to the end. -/
def Retriable (s : Pool T) (id : EnvID) (r n : String) : Prop :=
  ∃ git, s.gitDir (.worktree r n) = .ok git ∧
    ((∃ files nested, s.node (.worktree r n) = some (.subvol files nested)) ∧
        (s.env? id).map EnvRow.git = some git ∨
      (∀ files nested, s.node (.worktree r n) ≠ some (.subvol files nested)) ∧ CanMake s id r n)

section Made

variable {s t : Pool T} {id : EnvID} {r n : String} {files : T}

/-! ### The workspace made -/

theorem gone_or_dir {p : Path} (h : madeTree s p none = some files) :
    (s.node p = none ∧ files = Tree.empty) ∨ s.node p = some (.plain files) ∨
      (s.node p = some .dir ∧ files = Tree.empty) := by
  unfold madeTree at h
  split at h
  · rename_i hnode
    exact .inl ⟨hnode, (Option.some.inj h).symm⟩
  · rename_i tree hnode
    rw [← (Option.some.inj h : tree = files)]
    exact .inr (.inl hnode)
  · rename_i hnode
    exact .inr (.inr ⟨hnode, (Option.some.inj h).symm⟩)
  · cases h

/-- How far a workspace is made: it is as before, or a subvolume with its files. -/
structure Making (s t : Pool T) (id : EnvID) (r n : String) (files : T) : Prop where
  frame : Frame (WorkspacePlaces id (.worktree r n)) s t
  whole : t.node (.worktree r n) = s.node (.worktree r n) ∨
    t.node (.worktree r n) = some (.subvol files false)

omit [Tree T] in
theorem Making.refl : Making s s id r n files := ⟨Frame.refl _ s, .inl rfl⟩

theorem Making.run {o : Op T} (h : Making s t id r n files) {u : Pool T} (hu : o.run t = .ok u)
    (hwrites : ∀ q, o.writes q → q = .node (.adopt id) ∨ q = .node (.repo r)) :
    Making s u id r n files := by
  have hframe := Op.run_frame hu
  have hsame : u.node (.worktree r n) = t.node (.worktree r n) := by
    refine hframe.node _ fun hw => ?_
    rcases hwrites _ hw with h | h <;> cases h
  refine ⟨h.frame.trans (hframe.mono fun q hq => ?_), ?_⟩
  · rcases hwrites q hq with rfl | rfl
    · exact .inr (.inl rfl)
    · exact .inr (.inr ⟨r, rfl⟩)
  · rw [hsame]
    exact h.whole

omit [Tree T] in
theorem Making.own (h : Making s t id r n files) (p : Path) (o : Owner) :
    Making s (t.own p o) id r n files := ⟨h.frame.own p o, h.whole⟩

/-- An adopt whose `adopt.new` is free ends with the directory's files in a subvolume. -/
theorem wp_adopt_done (hfree : s.node (.adopt id) = none)
    (hparent : s.hasParent (.adopt id) = true) (hpath : s.node (.worktree r n) ≠ none) :
    Completes (adopt id (.worktree r n) files none) (fun t => Making s t id r n files)
      (fun _ t => t.node (.worktree r n) = some (.subvol files false)) s := by
  have hcopied : Completes (adoptCopy id files none)
    (fun t => Making s t id r n files ∧ t.node (.worktree r n) = s.node (.worktree r n))
    (fun _ t => t.node (.adopt id) = some (.subvol files false)) s := by
    unfold adoptCopy
    refine wp_seq (P := fun _ t => (Making s t id r n files ∧
      t.node (.worktree r n) = s.node (.worktree r n)) ∧
      t.node (.adopt id) = some (.subvol Tree.empty false))
      (wp_op (fun t ht => ?_) fun e he => ?_) ?_
    · have hmaking : Making s t id r n files := Making.refl.run ht fun q hq => Or.inl hq
      have hsame := (Op.run_frame ht).node (.worktree r n) fun h => by cases h
      have hnew : t.node (.adopt id) = some (.subvol Tree.empty false) := by
        rw [(Op.run_createSubvolume ht).2.2]
        simp
      exact ⟨⟨hmaking, hsame⟩, ⟨hmaking, hsame⟩, hnew⟩
    · simp [Op.run, hfree, hparent] at he
    · rintro _ t ⟨ht, hnew⟩
      refine wp_seq (wp_copyInto_keeps ht hnew fun tree u v hu hv => ?_) ?_
      · exact ⟨hu.1.run hv fun q hq => Or.inl hq,
          ((Op.run_frame hv).node (.worktree r n) fun h => by cases h).trans hu.2⟩
      · rintro _ u ⟨hu, hcopy⟩
        exact wp_chown (by simp [hcopy]) ⟨hu.1.own _ _, hu.2⟩ ⟨⟨hu.1.own _ _, hu.2⟩, hcopy⟩
  unfold adopt
  refine wp_step hcopied (fun _ _ h => h.1) (fun _ _ h => h) ?_
  rintro _ t ⟨⟨ht, hsame⟩, hnew⟩
  refine wp_seq (P := fun _ u => Making s u id r n files ∧
    u.node (.worktree r n) = some (.subvol files false)) (wp_op (fun u hu => ?_) fun e he => ?_) ?_
  · have hnode := (Op.run_exchange hu).2.2.2 (by simp)
    rw [hnew] at hnode
    have hframe : Frame (WorkspacePlaces id (.worktree r n)) s u := by
      refine ht.frame.trans ((Op.run_frame hu).mono fun q hq => ?_)
      rcases hq with rfl | rfl
      · exact .inr (.inl rfl)
      · exact .inl rfl
    exact ⟨⟨hframe, .inr hnode⟩, ⟨hframe, .inr hnode⟩, hnode⟩
  · obtain ⟨d, hd⟩ := Option.ne_none_iff_exists'.mp hpath
    simp [Op.run, hnew, hsame, hd] at he
  · rintro _ u ⟨hu, hnode⟩
    refine wp_op (fun v hv => ?_) fun e he => by cases he
    have hmaking : Making s v id r n files := hu.run hv fun q hq => Or.inl hq
    have hsame := (Op.run_frame hv).node (.worktree r n) fun h => by cases h
    exact ⟨hmaking, hmaking, hsame.trans hnode⟩

/-- The folder a worktree is in is made, unless something else is there. -/
theorem wp_makeParent_done (hrepo : ∀ d, s.node (.repo r) = some d → d.isDir = true) :
    wp (makeParent (.worktree r n)) (fun _ t => Making s t id r n files)
      (fun _ t => (Making s t id r n files ∧ t.node (.worktree r n) = s.node (.worktree r n)) ∧
        t.hasParent (.worktree r n) = true)
      (fun _ _ => False) s := by
  have hparent : ∀ {t : Pool T} {d : Node T}, t.node (.repo r) = some d → d.isDir = true →
      t.hasParent (.worktree r n) = true := by
    intro t d ht hd
    simpa [Pool.hasParent, Path.parent?, ht] using hd
  refine wp_op (fun t ht => ?_) fun e he => ?_
  · have hmaking : Making s t id r n files := Making.refl.run ht fun q hq => Or.inr hq
    refine ⟨hmaking, ⟨hmaking, (Op.run_frame ht).node _ fun h => by cases h⟩, ?_⟩
    cases hr : s.node (.repo r) with
    | none =>
      simp only [Op.run, hr, Pool.hasParent, Path.parent?, if_true, Except.ok.injEq] at ht
      exact hparent (d := .dir) (by rw [← ht]; simp [Op.freshDir]) rfl
    | some d =>
      simp only [Op.run, hr, hrepo d hr, if_true, Except.ok.injEq] at ht
      exact hparent (ht ▸ hr) (hrepo d hr)
  · cases hr : s.node (.repo r) with
    | none => simp [Op.run, hr, Pool.hasParent, Path.parent?] at he
    | some d => simp [Op.run, hr, hrepo d hr] at he

theorem wp_makeWorkspace_done (hfiles : madeTree s (.worktree r n) none = some files)
    (hcan : CanMake s id r n) :
    Completes (makeWorkspace id (.worktree r n) none) (fun t => Making s t id r n files)
      (fun _ t => t.node (.worktree r n) = some (.subvol files false)) s := by
  have hadopt : ∀ {d : Node T}, s.node (.worktree r n) = some d →
      Completes (adopt id (.worktree r n) files none) (fun t => Making s t id r n files)
        (fun _ t => t.node (.worktree r n) = some (.subvol files false)) s := by
    intro d hd
    have hsome : s.node (.worktree r n) ≠ none := by simp [hd]
    obtain ⟨hfree, hparent⟩ := hcan.2 hsome
    exact wp_adopt_done hfree hparent hsome
  unfold makeWorkspace
  rw [Completes, wp_bind, wp_read]
  rcases gone_or_dir hfiles with ⟨hnode, rfl⟩ | hnode | ⟨hnode, rfl⟩
  · rw [hnode]
    refine wp_seq (wp_makeParent_done (hcan.1 hnode)) ?_
    rintro _ t ⟨⟨ht, hsame⟩, hparent⟩
    rw [hnode] at hsame
    refine wp_seq (P := fun _ u => Making s u id r n Tree.empty ∧
      u.node (.worktree r n) = some (.subvol Tree.empty false))
      (wp_op (fun u hu => ?_) fun e he => ?_) fun _ u hu =>
        wp_chown (by simp [hu.2]) (hu.1.own _ _) ⟨hu.1.own _ _, hu.2⟩
    · have hu' := (Op.run_createSubvolume hu).2.2
      have hmade : u.node (.worktree r n) = some (.subvol Tree.empty false) := by
        rw [hu']
        simp
      have hframe : Frame (WorkspacePlaces id (.worktree r n)) s u :=
        ht.frame.trans ((Op.run_frame hu).mono (by rintro _ rfl; exact .inl rfl))
      exact ⟨⟨hframe, .inr hmade⟩, ⟨hframe, .inr hmade⟩, hmade⟩
    · simp [Op.run, hsame, hparent] at he
  · rw [hnode]
    exact hadopt hnode
  · rw [hnode]
    exact hadopt hnode

theorem wp_makeWorkspace_fails (hfiles : madeTree s (.worktree r n) none = some files)
    (hcan : ¬ CanMake s id r n) :
    wp (makeWorkspace id (.worktree r n) none) (fun _ _ => False) (fun _ _ => False)
      (fun _ t => t = s) s := by
  have hadopt : ∀ tree : T, s.node (.worktree r n) ≠ none →
      wp (adopt id (.worktree r n) tree none) (fun _ _ => False) (fun _ _ => False)
        (fun _ t => t = s) s := by
    intro tree hsome
    -- `adopt.new` is in the way, or has nowhere to be
    have htaken : ¬ (s.node (.adopt id) = none ∧ s.hasParent (.adopt id) = true) := fun hfree =>
      hcan ⟨fun hnone => absurd hnone hsome, fun _ => hfree⟩
    unfold adopt adoptCopy
    have hcreate : wp (op (.createSubvolume (.adopt id))) (fun _ _ => False) (fun _ _ => False)
        (fun _ t => t = s) s :=
      wp_op (fun t ht => absurd ((Op.run_createSubvolume ht).imp_right And.left) htaken)
        fun e _ => rfl
    exact wp_seq (P := fun _ _ => False) (wp_seq hcreate fun _ _ h => h.elim) fun _ _ h => h.elim
  unfold makeWorkspace
  rw [wp_bind, wp_read]
  rcases gone_or_dir hfiles with ⟨hnode, rfl⟩ | hnode | ⟨hnode, rfl⟩
  · rw [hnode]
    have hrepo : ∃ d, s.node (.repo r) = some d ∧ d.isDir = false := by
      by_contra hc
      refine hcan ⟨fun _ d hd => ?_, fun hsome => absurd hnode hsome⟩
      by_contra hfile
      exact hc ⟨d, hd, by simpa using hfile⟩
    obtain ⟨d, hd, hfile⟩ := hrepo
    refine wp_seq (P := fun _ _ => False) (wp_op (fun t ht => ?_) fun e _ => rfl)
      fun _ _ h => h.elim
    simp [Op.run, hd, hfile] at ht
  · rw [hnode]
    exact hadopt files (by simp [hnode])
  · rw [hnode]
    exact hadopt Tree.empty (by simp [hnode])

/-! ### The git folder recorded -/

/-- How far an environment is created again. -/
structure Recreating (s t : Pool T) (id : EnvID) (r n : String) (files : T) : Prop where
  row : ∃ env, AtWorktree t id r n env
  gitDir : t.gitDir = s.gitDir
  whole : t.node (.worktree r n) = s.node (.worktree r n) ∨
    t.node (.worktree r n) = some (.subvol files false)

variable {env : EnvRow}

omit [Tree T] in
theorem AtWorktree.making (h : AtWorktree s id r n env) (hm : Making s t id r n files) :
    AtWorktree t id r n env where
  valid := h.valid
  row := (hm.frame.env id fun hc => hc).trans h.row
  workspace := h.workspace

omit [Tree T] in
theorem Making.recreating (hm : Making s t id r n files) (h : AtWorktree s id r n env) :
    Recreating s t id r n files :=
  ⟨⟨env, h.making hm⟩, hm.frame.gitDir, hm.whole⟩

/-- A readopt of a workspace that is gone or a directory ends well just if the workspace can be made
and `repoGitDir` gives a git folder. -/
theorem wp_readopt_made (h : AtWorktree s id r n env)
    (hfiles : madeTree s (.worktree r n) none = some files) :
    wp (readopt env) (fun _ t => Recreating s t id r n files)
      (fun row t => (CanMake s id r n ∧ ∃ git, s.gitDir (.worktree r n) = .ok git) ∧
        t.env? id = some row ∧ row.workspace = .worktree r n ∧
        t.node (.worktree r n) = some (.subvol files false) ∧
        t.gitDir (.worktree r n) = .ok row.git)
      (fun _ _ => ¬ (CanMake s id r n ∧ ∃ git, s.gitDir (.worktree r n) = .ok git)) s := by
  obtain ⟨env, ws, old, created, token⟩ := env
  obtain rfl : env = id := Index.env?_id h.row
  obtain rfl : ws = .worktree r n := h.workspace
  unfold readopt
  rw [if_neg (by simp), wp_bind, wp_read]
  split
  · rename_i hnode
    rcases gone_or_dir hfiles with ⟨hc, _⟩ | hc | ⟨hc, _⟩ <;> rw [hc] at hnode <;> cases hnode
  by_cases hcan : CanMake s env r n
  · refine wp_seq (wp_mono (wp_makeWorkspace_done hfiles hcan)
      (fun _ t ht => ht.recreating h) (fun _ _ ht => ht) fun _ _ ht => ht.elim) ?_
    rintro _ t ⟨ht, hmade⟩
    rw [wp_bind, wp_read, ht.frame.gitDir]
    cases hgit : s.gitDir (.worktree r n) with
    | error e =>
      dsimp only
      rw [wp_fail]
      rintro ⟨_, git, hok⟩
      cases hok
    | ok git =>
      have hrow := (h.making ht).row
      refine wp_seq (P := fun _ u => u.env? env = some ⟨env, .worktree r n, git, created, token⟩ ∧
        u.node = t.node ∧ u.gitDir = s.gitDir) (wp_op (fun u hu => ?_) fun e he => by cases he) ?_
      · cases hu
        have hrow' : (t.index.setEnvGit env git).env? env =
            some ⟨env, .worktree r n, git, created, token⟩ := by
          rw [Index.env?_setEnvGit, if_pos rfl]
          exact congrArg (Option.map _) hrow
        refine ⟨⟨⟨_, h.valid, hrow', h.workspace⟩, ht.frame.gitDir, ht.whole⟩,
          hrow', rfl, ht.frame.gitDir⟩
      · rintro _ u ⟨hrow', hnode, hdir⟩
        rw [wp_pure]
        exact ⟨⟨hcan, git, rfl⟩, hrow', h.workspace, by rw [hnode, hmade], by rw [hdir, hgit]⟩
  · refine wp_seq (P := fun _ _ => False) (wp_mono (wp_makeWorkspace_fails hfiles hcan)
      (fun _ _ ht => ht.elim) (fun _ _ ht => ht) fun _ _ _ hc => hcan hc.1) fun _ _ ht => ht.elim

/-! ### Create called again -/

theorem Create_eq_readopt (h : AtWorktree s id r n env) {opts : CreateOptions T}
    (hopts : (opts.workspace.all fun arg => arg.names (.worktree r n)) = true) :
    Create id opts s = readopt env s := by
  unfold Create
  rw [if_neg (by simp [h.valid]), read_bind, h.row]
  simp only [h.workspace, hopts, if_true]

/-- A workspace that is a subvolume is left, and so is the row. -/
theorem readopt_of_subvol (h : AtWorktree s id r n env) {nested : Bool}
    (hnode : s.node (.worktree r n) = some (.subvol files nested)) :
    readopt env s = (pure env : StoreM T EnvRow) s := by
  unfold readopt
  rw [if_neg (by simp [h.workspace]), read_bind, h.workspace, hnode]

theorem madeTree_congr {p : Path} (h : t.node p = s.node p) :
    madeTree t p none = madeTree s p none := by
  unfold madeTree
  rw [h]
  rfl

theorem Recreating.stops (hfiles : madeTree s (.worktree r n) none = some files)
    (h : Recreating s t id r n files) {u : Pool T} (hstop : CreateStops id r n t u) :
    Recreating s u id r n files := by
  obtain ⟨opts, hopts, hstop⟩ := hstop
  obtain ⟨env, hat⟩ := h.row
  have hcreate := Create_eq_readopt hat hopts
  rcases h.whole with hsame | hmade
  · have hkeep := wp_readopt_made hat ((madeTree_congr hsame).trans hfiles)
    rw [← wp_congr hcreate] at hkeep
    rcases hstop with rfl | ⟨o, ho⟩
    · exact h
    · have hu := hkeep.1 _ ho
      refine ⟨hu.row, hu.gitDir.trans h.gitDir, ?_⟩
      rw [← hsame]
      exact hu.whole
  · rw [readopt_of_subvol hat hmade] at hcreate
    rcases hstop with rfl | ⟨o, ho⟩
    · exact h
    · rw [hcreate] at ho
      cases ho

theorem Recreating.run (hat : AtWorktree s id r n env)
    (hfiles : madeTree s (.worktree r n) none = some files)
    (hrun : Relation.ReflTransGen (CreateStops id r n) s t) : Recreating s t id r n files := by
  induction hrun with
  | refl => exact ⟨⟨env, hat⟩, rfl, .inl rfl⟩
  | tail _ hstop ih => exact ih.stops hfiles hstop

/-- With the workspace in place a `Create` changes nothing, so the git folder has to be recorded. -/
theorem recreated_iff_of_subvol (h : AtWorktree s id r n env)
    (hmade : s.node (.worktree r n) = some (.subvol files false)) :
    Recreated id r n files (readopt env s) ↔ Retriable s id r n := by
  rw [readopt_of_subvol h hmade]
  constructor
  · rintro ⟨row, hrow, -, -, -, hgit⟩
    cases hrow
    exact ⟨env.git, hgit, .inl ⟨⟨files, false, hmade⟩, by rw [h.row]; rfl⟩⟩
  · rintro ⟨git, hgit, ⟨-, hrow⟩ | ⟨hnot, -⟩⟩
    · obtain rfl : env.git = git := by simpa [h.row] using hrow
      exact ⟨env, rfl, h.row, h.workspace, hmade, hgit⟩
    · exact absurd hmade (hnot files false)

theorem recreated_iff_of_gone (h : AtWorktree s id r n env)
    (hfiles : madeTree s (.worktree r n) none = some files) :
    Recreated id r n files (readopt env s) ↔ Retriable s id r n := by
  have hnot : ∀ f nested, s.node (.worktree r n) ≠ some (.subvol f nested) := by
    intro f nested hnode
    rcases gone_or_dir hfiles with ⟨hc, _⟩ | hc | ⟨hc, _⟩ <;> rw [hc] at hnode <;> cases hnode
  have hend := (wp_readopt_made h hfiles).2
  cases hres : (readopt env s).result with
  | ok row =>
    rw [hres] at hend
    obtain ⟨⟨hcan, git, hgit⟩, hdone⟩ := hend
    exact ⟨fun _ => ⟨git, hgit, .inr ⟨hnot, hcan⟩⟩, fun _ => ⟨row, hres, hdone⟩⟩
  | error e =>
    rw [hres] at hend
    constructor
    · rintro ⟨row, hrow, -⟩
      rw [hres] at hrow
      cases hrow
    · rintro ⟨git, hgit, ⟨⟨f, nested, hnode⟩, -⟩ | ⟨-, hcan⟩⟩
      · exact absurd hnode (hnot f nested)
      · exact absurd ⟨hcan, git, hgit⟩ hend

end Made

/-- **After any number of stopped creates, a `Create` makes the workspace a subvolume with the
worktree's files and records its git folder just if it finds `adopt.new` gone and the workspace not
yet in place, or the git folder recorded too.** -/
theorem create_again_iff (s t : Pool T) (id : EnvID) (r n : String) (env : EnvRow) (files : T)
    (opts : CreateOptions T) (hat : AtWorktree s id r n env)
    (hfiles : madeTree s (.worktree r n) none = some files)
    (hrun : Relation.ReflTransGen (CreateStops id r n) s t)
    (hopts : (opts.workspace.all fun arg => arg.names (.worktree r n)) = true) :
    Recreated id r n files (Create id opts t) ↔ Retriable t id r n := by
  have ht := Recreating.run hat hfiles hrun
  obtain ⟨env', hat'⟩ := ht.row
  rw [Create_eq_readopt hat' hopts]
  rcases ht.whole with hsame | hmade
  · exact recreated_iff_of_gone hat' ((madeTree_congr hsame).trans hfiles)
  · exact recreated_iff_of_subvol hat' hmade

/-- `next`, whose worktree was removed and made again with one file, for another repository. -/
def threadRemade : Pool (List String) :=
  { madeNext.put (.worktree "repo" "thread") (.plain ["main.go"]) with
    gitDir := fun _ => .ok "repos/app/.git" }

theorem threadRemade_reached : Reached (fun _ _ => True) threadRemade := by
  refine ⟨Pool.new, Pool.new_fresh, .tail (.single (.ends (atThread "next") trivial))
    (.outside (.worktree "repo" "thread" rfl rfl rfl fun p hp => ?_))⟩
  show (madeNext.put _ _).node p = madeNext.node p
  rw [Pool.node_put, if_neg hp]

/-- `next`, whose worktree was removed and made again with one file, for the same repository. -/
def threadAgain : Pool (List String) :=
  madeNext.put (.worktree "repo" "thread") (.plain ["main.go"])

/-- There a `Create` stopped after its swap can be called again. -/
theorem create_again_swapped :
    ((Create "next" {}).stopAt 6 threadAgain).node (.worktree "repo" "thread") =
        some (.subvol ["main.go"] false) ∧
      Recreated "next" "repo" "thread" ["main.go"]
        (Create "next" {} ((Create "next" {}).stopAt 6 threadAgain)) := by
  have hswapped : ((Create "next" {}).stopAt 6 threadAgain).node (.worktree "repo" "thread") =
      some (.subvol ["main.go"] false) := by decide
  have hstop : CreateStops "next" "repo" "thread" threadAgain
      ((Create "next" {}).stopAt 6 threadAgain) := ⟨{}, rfl, stops_stopAt _ 6 _⟩
  exact ⟨hswapped, (create_again_iff threadAgain _ "next" "repo" "thread"
    ⟨"next", .worktree "repo" "thread", "", 0, ""⟩ ["main.go"] {}
    ⟨by decide, by decide, rfl⟩ (by decide) (.single hstop) rfl).mpr
      ⟨"", rfl, .inl ⟨⟨["main.go"], false, hswapped⟩, by decide⟩⟩⟩

/-- Stopped in its copy, a `Create` fails from then on; stopped after its swap, the next one leaves
the git folder of the worktree before. -/
theorem create_again_stopped : Reached (fun _ _ => True) threadRemade ∧
    (CreateStops "next" "repo" "thread" threadRemade
        ((Create "next" {}).stopAt 1 threadRemade) ∧
      ¬ Recreated "next" "repo" "thread" ["main.go"]
        (Create "next" {} ((Create "next" {}).stopAt 1 threadRemade))) ∧
    CreateStops "next" "repo" "thread" threadRemade ((Create "next" {}).stopAt 6 threadRemade) ∧
      ¬ Recreated "next" "repo" "thread" ["main.go"]
        (Create "next" {} ((Create "next" {}).stopAt 6 threadRemade)) := by
  refine ⟨threadRemade_reached, ⟨⟨{}, rfl, stops_stopAt _ 1 _⟩, ?_⟩,
    ⟨{}, rfl, stops_stopAt _ 6 _⟩, ?_⟩
  · rintro ⟨row, hrow, -⟩
    have hfails : (Create "next" {} ((Create "next" {}).stopAt 1 threadRemade)).result =
        .error .exist := rfl
    rw [hfails] at hrow
    cases hrow
  · rintro ⟨row, -, hrow, -, -, hgit⟩
    have hold : ((Create "next" {} ((Create "next" {}).stopAt 6 threadRemade)).final.env?
        "next").map EnvRow.git = some "" := by decide +kernel
    have hnew : (Create "next" {} ((Create "next" {}).stopAt 6 threadRemade)).final.gitDir
        (.worktree "repo" "thread") = .ok "repos/app/.git" := rfl
    rw [hrow] at hold
    rw [hnew] at hgit
    have hsame : "repos/app/.git" = "" :=
      (Except.ok.inj hgit).trans (Option.some.inj hold)
    exact absurd hsame (by decide)

end Fern

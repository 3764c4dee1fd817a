/-
What creates and deletes do.

A create does everything else before it writes its row, and a delete everything else after it
has removed it.  Until then, and from then on, the environment is not there: what `prepare`
and `clearLeftovers` leave when they are stopped is in a directory without a row.
-/
import Fern.Proofs.Store.Disk

namespace Fern

open Call StoreM

variable {T : Type} [Tree T] {named : Prop} {s : Pool T} {id : EnvID} {t : Pool T}
  {P : Place → Prop}

/-! ### Reading the index -/

omit [Tree T] in
theorem wp_get {C : Op T → Pool T → Prop} (e : EnvID) (s : Pool T) :
    wp (get e) C (fun row t => t = s ∧ s.env? e = some row)
      (fun _ t => t = s ∧ (checkEnvID e = true → s.env? e = none)) s := by
  unfold get
  split
  · rw [wp_bind, wp_read]
    split
    · rename_i row hrow
      rw [wp_pure]
      exact ⟨rfl, hrow⟩
    · rename_i hnone
      rw [wp_fail]
      exact ⟨rfl, fun _ => hnone⟩
  · rename_i hid
    rw [wp_fail]
    exact ⟨rfl, fun h => absurd h hid⟩

omit [Tree T] in
theorem wp_snapshotPath {C : Op T → Pool T → Prop} (ref : SnapshotRef) (s : Pool T) :
    wp (snapshotPath ref) C
      (fun p t => t = s ∧ p = .snap ref.env ref.snapshot ∧
        s.index.snap? ref.env ref.snapshot ≠ none ∧ checkSnapID ref.snapshot = true)
      (fun _ t => t = s) s := by
  unfold snapshotPath hasSnapshot
  rw [wp_bind]
  split
  · rename_i hid
    rw [wp_bind, wp_read, wp_pure]
    split
    · rename_i hfound
      rw [wp_pure]
      refine ⟨rfl, rfl, ?_, hid⟩
      rw [Index.hasSnapshot] at hfound
      exact Option.isSome_iff_ne_none.mp hfound
    · rw [wp_fail]
  · rw [wp_fail]

omit [Tree T] in
theorem wp_checkFree {C : Op T → Pool T → Prop} (s : Pool T) :
    wp checkFree C (fun _ t => t = s) (fun _ t => t = s) s := by
  unfold checkFree
  rw [wp_bind, wp_read]
  split
  · rw [wp_fail]
  · rw [wp_pure]

omit [Tree T] in
theorem wp_workspaceOf {C : Op T → Pool T → Prop} (e : EnvID) (arg : Option PathArg) (s : Pool T) :
    wp (workspaceOf e arg) C
      (fun w t => t = s ∧ ((arg = none ∧ w = .live e) ∨ ∃ r n, arg = some (.worktree r n) ∧
        w = .worktree r n ∧ s.index.envAt? (.worktree r n) = none))
      (fun _ t => t = s) s := by
  unfold workspaceOf checkWorkspace
  cases arg with
  | none => simp
  | some arg =>
    cases arg with
    | elsewhere => simp
    | worktree r n =>
      dsimp only
      rw [wp_bind, wp_read]
      split
      · simp
      · split
        · simp
        · simp
        · split
          · simp
          · rename_i hnone
            simp [hnone]

theorem wp_timeNow {α : Type} {C : Op T → Pool T → Prop} {Q : α → Pool T → Prop}
    {E : Err → Pool T → Prop} {k : Time → StoreM T α}
    (hC : C .clock { s with ticks := s.ticks + 1 })
    (hk : wp (k (s.clock s.ticks)) C Q E { s with ticks := s.ticks + 1 }) :
    wp (timeNow >>= k) C Q E s := by
  unfold timeNow
  rw [wp_bind, wp_bind, wp_read, wp_bind]
  refine wp_op (fun t ht => ?_) fun e he => by cases he
  cases ht
  exact ⟨hC, (wp_pure _).mpr hk⟩

theorem Sound.tick (hs : Sane named s) :
    Sound named P s { s with ticks := s.ticks + 1 } :=
  (Sound.run (o := .clock) hs trivial rfl).mono nofun

/-! ### Workspaces filled -/

section Fill

variable {workspace : Path}

theorem wp_forkWorkspace {src : SnapshotRef} (hs : Sane named s) (hc : Claimed s id)
    (hws : Path.IsWorkspace id workspace) :
    Leads (forkWorkspace src workspace) (fun t => Sound named (AtPaths [workspace]) s t)
      (fun _ t => t.node workspace ≠ none) s := by
  have hcopy : ∀ source,
      Leads (do op (.snapshotSubvolume source workspace); op (.chown workspace))
        (fun t => Sound named (AtPaths [workspace]) s t)
        (fun _ t => t.node workspace ≠ none) s := by
    intro source
    have hsafe : (Op.snapshotSubvolume source workspace).Safe named s := by
      cases hws with
      | live => exact ⟨fun _ => rfl, fun e he => by cases he; exact hc⟩
      | worktree r n => exact ⟨fun _ => trivial, nofun⟩
    refine wp_seq (P := fun _ t => Sound named (AtPaths [workspace]) s t ∧ t.node workspace ≠ none)
      (wp_op (fun t ht => ?_) fun e _ => Sound.refl hs)
      fun _ t ht => wp_chown ht.2 (ht.1.own _ _) ⟨ht.1.own _ _, ht.2⟩
    have hsound : Sound named (AtPaths [workspace]) s t :=
      (Sound.run hs hsafe ht).mono (by rintro _ rfl; simp [AtPaths])
    obtain ⟨tree, _, _, _, _, rfl⟩ := Op.run_snapshotSubvolume ht
    exact ⟨hsound, hsound, by simp⟩
  unfold forkWorkspace
  split
  · refine wp_step (wp_get src.env s) (fun _ _ h => h)
      (fun _ t ht => by rw [ht.1]; exact Sound.refl hs) ?_
    rintro row _ ⟨rfl, _⟩
    exact hcopy row.workspace
  · refine wp_step (wp_snapshotPath src s) (fun _ _ h => h)
      (fun _ t ht => by rw [ht]; exact Sound.refl hs) ?_
    rintro p _ ⟨rfl, _⟩
    exact hcopy p

theorem wp_untar {seed : List (T → T)} (hs : Sane named s) (hc : Claimed s id)
    (hws : Path.IsWorkspace id workspace) (hsome : s.node workspace ≠ none) :
    Leads (untar workspace seed) (fun t => Sound named (AtPaths [workspace]) s t)
      (fun _ t => t.node workspace ≠ none) s := by
  unfold untar
  refine wp_each seed ⟨Sound.refl hs, hsome⟩ ?_
  rintro f _ t ⟨ht, hsome'⟩
  rw [wp_bind, wp_read]
  split
  · rename_i tree b hnode
    have hct : Claimed t id := hc.frame ht.1 (by simp [AtPaths])
      (by simpa [AtPaths] using (hws.ne_marker id).symm)
    have hsafe : (Op.fill workspace (f tree)).Safe named t := by
      intro e he
      rcases hws.env? with h | h
      · rw [h] at he; cases he; exact hct
      · rw [h] at he; cases he
    refine wp_op (fun u hu => ?_) fun e _ => ht
    have hsound : Sound named (AtPaths [workspace]) s u :=
      ht.step hsafe hu (by rintro _ rfl; simp [AtPaths])
    simp only [Op.run, hnode] at hu
    cases hu
    exact ⟨hsound, hsound, by simp⟩
  · rw [wp_fail]
    exact ht

/-- The snapshot a create starts from. -/
def CreateOptions.golden (opts : CreateOptions T) : Option Path :=
  opts.from.map fun ref => .snap ref.env ref.snapshot

/-- The path of a workspace being filled holds what was there or the whole of what a create
without a seed or a fork's source is to put there. -/
def Filled (s t : Pool T) (workspace : Path) (opts : CreateOptions T) : Prop :=
  opts.seed = none → opts.fork = none → t.node workspace = s.node workspace ∨
    ((∀ ref, opts.from = some ref → s.index.snap? ref.env ref.snapshot ≠ none) ∧
      ∃ a, madeTree s workspace opts.golden = some a ∧ t.node workspace = some (.subvol a false))

omit [Tree T] in
private theorem wp_goldenPath {C : Op T → Pool T → Prop} (opts : CreateOptions T) (s : Pool T) :
    wp (goldenPath opts) C
      (fun golden t => t = s ∧ golden = opts.golden ∧
        ∀ ref, opts.from = some ref → s.index.snap? ref.env ref.snapshot ≠ none)
      (fun _ t => t = s) s := by
  unfold goldenPath CreateOptions.golden
  split
  · rename_i ref href
    refine wp_seq (wp_snapshotPath ref s) ?_
    rintro p _ ⟨rfl, rfl, hrow, _⟩
    rw [wp_pure, href]
    refine ⟨rfl, rfl, fun ref' h => ?_⟩
    cases h
    exact hrow
  · rename_i hnone
    rw [wp_pure, hnone]
    exact ⟨rfl, rfl, (by simp)⟩

private theorem wp_forkOrMake {opts : CreateOptions T} (hs : Sane named s) (hc : Claimed s id)
    (hws : Path.IsWorkspace id workspace)
    (hrows : ∀ ref, opts.from = some ref → s.index.snap? ref.env ref.snapshot ≠ none) :
    Leads (forkOrMake id workspace opts.fork opts.golden)
      (fun t => Sound named (WorkspacePlaces id workspace) s t ∧ Filled s t workspace opts)
      (fun _ t => t.node workspace ≠ none) s := by
  unfold forkOrMake
  split
  · rename_i src hfork
    have hstep : ∀ t, Sound named (AtPaths [workspace]) s t →
        Sound named (WorkspacePlaces id workspace) s t ∧ Filled s t workspace opts := by
      intro t ht
      refine ⟨ht.mono ?_, fun _ hnone => by rw [hfork] at hnone; cases hnone⟩
      rintro q hq
      rw [hq.eq]
      exact .inl rfl
    exact wp_mono (wp_forkWorkspace hs hc hws) (fun _ => hstep) (fun _ t h => ⟨hstep t h.1, h.2⟩)
      fun _ => hstep
  · refine wp_mono (wp_makeWorkspace hs hc hws) (fun _ t h => ⟨h.1, fun _ _ => ?_⟩)
      (fun _ t h => ⟨⟨h.1, fun _ _ => ?_⟩, ?_⟩) fun _ t h => ⟨h.1, fun _ _ => Or.inl h.2⟩
    · exact h.2.imp_right fun hmade => ⟨hrows, hmade⟩
    · rcases h.2 with ⟨rfl, _⟩ | hmade
      · exact .inl rfl
      · exact .inr ⟨hrows, hmade⟩
    · rcases h.2 with ⟨rfl, tree, b, hsub⟩ | ⟨a, _, hnode⟩
      · rw [hsub]; simp
      · rw [hnode]; simp

/-- `fillWorkspace` leaves a workspace.  Without a seed or a fork's source, its path holds at
every moment what was there or the whole of what is to be there. -/
theorem wp_fillWorkspace {opts : CreateOptions T} (hs : Sane named s) (hc : Claimed s id)
    (hws : Path.IsWorkspace id workspace) :
    Leads (fillWorkspace id workspace opts)
      (fun t => Sound named (WorkspacePlaces id workspace) s t ∧ Filled s t workspace opts)
      (fun _ t => t.node workspace ≠ none) s := by
  unfold fillWorkspace
  refine wp_step (wp_goldenPath opts s) (fun _ _ h => h) ?_ ?_
  · rintro _ _ rfl
    exact ⟨Sound.refl hs, fun _ _ => Or.inl rfl⟩
  rintro golden s ⟨rfl, rfl, hrows⟩
  refine wp_seq (wp_forkOrMake hs hc hws hrows) ?_
  rintro _ t ⟨⟨ht, hfill⟩, hsome⟩
  split
  · rename_i seed hseed
    have hct : Claimed t id := by
      refine hc.frame ht.1 (fun h => h) ?_
      rintro (h | h | ⟨r, h⟩)
      · exact hws.ne_marker id h.symm
      · cases h
      · cases h
    have hstep : ∀ u, Sound named (AtPaths [workspace]) t u →
        Sound named (WorkspacePlaces id workspace) s u ∧ Filled s u workspace opts := by
      intro u hu
      refine ⟨ht.trans (hu.mono ?_), fun hnone _ => by rw [hseed] at hnone; cases hnone⟩
      rintro q hq
      rw [hq.eq]
      exact .inl rfl
    exact wp_mono (wp_untar ht.2 hct hws hsome) (fun _ => hstep) (fun _ u h => ⟨hstep u h.1, h.2⟩)
      fun _ => hstep
  · rw [wp_pure]
    exact ⟨⟨ht, hfill⟩, hsome⟩

end Fill

/-! ### Creates

All that `prepare` does is in a directory that has a marker and no row; the row makes the
environment, and the marker goes after it. -/

section Create

variable {opts : CreateOptions T}

/-- The directory of a new environment: its marker and its folders. -/
structure HasDirs (t : Pool T) (id : EnvID) : Prop where
  marker : t.marker? id = some none
  envDir : t.node (.envDir id) ≠ none
  snapsDir : t.node (.snapsDir id) ≠ none
  claude : t.node (.claude id) ≠ none
  snaps : ∀ x, t.node (.snap id x) = none

/-- A folder of an environment made where nothing is, which never fails. -/
theorem wp_mkdir {p : Path} (hs : Sane named s) (hsafe : (Op.mkdir p).Safe named s)
    (hnone : s.node p = none) (hparent : p.parent? = some (.envDir id))
    (hdir : s.node (.envDir id) ≠ none) :
    Completes (op (.mkdir p)) (fun t => Sound named (AtPaths [p]) s t) (fun _ t => t.node p ≠ none)
      s := by
  obtain ⟨n, hn⟩ := Option.ne_none_iff_exists'.mp hdir
  have hpar : s.hasParent p = true :=
    Pool.hasParent_of_dir hparent (by rw [hn, (hs.holds _ n hn).1])
  refine wp_op (fun t ht => ?_) fun e he => by simp [Op.run, hnone, hpar] at he
  have hsound : Sound named (AtPaths [p]) s t :=
    (Sound.run hs hsafe ht).mono (by rintro _ rfl; simp [AtPaths])
  simp only [Op.run, hnone, hpar, if_true, Except.ok.injEq] at ht
  subst ht
  exact ⟨hsound, hsound, by simp⟩

/-- A marker that names a workspace did so before. -/
def Unmarking (s t : Pool T) (id : EnvID) : Prop :=
  ∀ p, t.marker? id = some (some p) → s.marker? id = some (some p)

omit [Tree T] in
theorem Unmarking.trans {u : Pool T} (h : Unmarking s t id) (h' : Unmarking t u id) :
    Unmarking s u id := fun p hp => h p (h' p hp)

omit [Tree T] in
theorem Unmarking.frame (hf : Frame P s t) (hout : ¬ P (.node (.marker id))) :
    Unmarking s t id := fun p hp => by
  rw [← hf.marker? hout]; exact hp

omit [Tree T] in
theorem Less.unmarking (h : Less s t) : Unmarking s t id := fun p hp => by
  rw [Pool.marker?_eq_some] at hp ⊢
  rcases h (.marker id) with hsame | hnone
  · rw [← hsame]; exact hp
  · rw [hnone] at hp; cases hp

/-- `makeEnvDir` leaves the directory of a new environment, and never fails. -/
theorem wp_makeEnvDir (hs : Sane named s) (hid : checkEnvID id = true) (hnone : s.env? id = none) :
    wp (makeEnvDir id)
      (fun _ t => Sound named (DiskOf id (s.marker? id).join) s t ∧ Unmarking s t id)
      (fun _ t => Sound named (DiskOf id (s.marker? id).join) s t ∧ HasDirs t id)
      (fun _ _ => False) s := by
  have hin : ∀ {paths : List Path}, (∀ p ∈ paths, Path.env? p = some id) → ∀ q, AtPaths paths q →
      DiskOf id (s.marker? id).join q := by
    rintro paths hp (q | _ | _) hq
    · exact .inl (hp q hq)
    · exact hq
    · exact hq
  unfold makeEnvDir
  refine wp_step (wp_clearLeftovers hs hnone) (fun _ _ h => ⟨h.1, h.2.unmarking⟩) (fun _ _ h => h)
    ?_
  rintro _ t₁ ⟨⟨h₁, hless⟩, hclear⟩
  have hto₂ : ∀ u, Sound named (AtPaths [.envDir id, .marker id]) t₁ u →
      Sound named (DiskOf id (s.marker? id).join) s u := fun u hu =>
    h₁.trans (hu.mono (hin (by simp [Path.env?])))
  refine wp_step (wp_writeMarker h₁.2 hid (by simp))
    (fun _ u h => ⟨hto₂ u h.1, hless.unmarking.trans fun p hp => ?_⟩) (fun _ _ h => h) ?_
  · rcases h.2 with hm | hm | hm <;> rw [hm] at hp
    · exact hp
    all_goals cases hp
  rintro _ t₂ ⟨h₂, hmark⟩
  -- From here on the marker names nothing.
  have hunmark : ∀ {u : Pool T}, u.marker? id = some none → Unmarking s u id := fun hu p hp => by
    rw [hu] at hp; cases hp
  have hclear₂ : ∀ p : Path, p.env? = some id → p ≠ .envDir id → p ≠ .marker id →
      t₂.node p = none := fun p hp hd hm => by
    rw [h₂.1.node _ (by simp [AtPaths, hd, hm])]
    exact hclear p hp
  have hdir₂ : t₂.node (.envDir id) ≠ none :=
    h₂.2.inside (.marker id) id rfl (by rw [Pool.marker?_eq_some.mp hmark]; simp)
  have hto₃ : ∀ u, Sound named (AtPaths [.snapsDir id]) t₂ u →
      Sound named (DiskOf id (s.marker? id).join) s u := fun u hu =>
    (hto₂ t₂ h₂).trans (hu.mono (hin (by simp [Path.env?])))
  refine wp_seq
    (wp_mono (wp_mkdir h₂.2 ⟨rfl, (by simp)⟩ (hclear₂ (.snapsDir id) rfl (by simp) (by simp)) rfl
    hdir₂) (fun _ u hu => ⟨hto₃ u hu, hunmark ((hu.1.marker? (by simp [AtPaths])).trans hmark)⟩)
    (fun _ _ h => h) fun _ _ h => h) ?_
  rintro _ t₃ ⟨h₃, hsnaps⟩
  have hto₄ : ∀ u, Sound named (AtPaths [.claude id]) t₃ u →
      Sound named (DiskOf id (s.marker? id).join) s u := fun u hu =>
    (hto₃ t₃ h₃).trans (hu.mono (hin (by simp [Path.env?])))
  have hmark₃ : t₃.marker? id = some none := (h₃.1.marker? (by simp [AtPaths])).trans hmark
  have hclaim : Claimed t₃ id := Or.inr (by rw [Pool.marker?_eq_some.mp hmark₃]; simp)
  have hnone₃ : t₃.node (.claude id) = none := by
    rw [h₃.1.node _ (by simp [AtPaths])]
    exact hclear₂ (.claude id) rfl (by simp) (by simp)
  refine wp_mono (wp_mkdir h₃.2 ⟨⟨_, rfl⟩, fun e he => by cases he; exact hclaim⟩ hnone₃ rfl
      (h₃.2.inside (.snapsDir id) id rfl hsnaps))
    (fun _ u hu => ⟨hto₄ u hu, hunmark ((hu.1.marker? (by simp [AtPaths])).trans hmark₃)⟩)
    (fun _ t₄ h => ⟨hto₄ t₄ h.1, ?_⟩) fun _ _ h => h
  obtain ⟨h₄, hclaude⟩ := h
  refine ⟨(h₄.1.marker? (by simp [AtPaths])).trans hmark₃, ?_, ?_, hclaude, fun x => ?_⟩
  · exact h₄.2.inside (.claude id) id rfl hclaude
  · rw [h₄.1.node _ (by simp [AtPaths])]
    exact hsnaps
  · rw [h₄.1.node _ (by simp [AtPaths]), h₃.1.node _ (by simp [AtPaths])]
    exact hclear₂ (.snap id x) rfl (by simp) (by simp)

/-- The places on the disk a call for environment `id` may change: the paths in its directory,
the workspaces `W`, and the directories that worktrees are in. -/
def OnDisk (id : EnvID) (W : Path → Prop) : Place → Prop
  | .node p => p.env? = some id ∨ W p ∨ ∃ r, p = .repo r
  | _ => False

/-- The workspaces a create works on: its marker's, and the one it is given if no row has it. -/
def CreateWorkspaces (s : Pool T) (id : EnvID) (opts : CreateOptions T) (w : Path) : Prop :=
  s.marker? id = some (some w) ∨ ∃ repo name, opts.workspace = some (.worktree repo name) ∧
    w = .worktree repo name ∧ s.index.envAt? w = none

/-- What `prepare` has made once it is through. -/
structure Prepared (s t : Pool T) (id : EnvID) (opts : CreateOptions T) (row : EnvRow) : Prop
    extends HasDirs t id where
  rowID : row.id = id
  workspace : row.workspace = .live id ∨ ∃ repo name,
    opts.workspace = some (.worktree repo name) ∧ row.workspace = .worktree repo name ∧
      s.index.envAt? row.workspace = none
  filled : t.node row.workspace ≠ none

/-- An environment being created: its worktree is there whole, before and after it is adopted,
its marker names nothing new, and once it has its row its workspace is there. -/
structure Creating (s t : Pool T) (id : EnvID) (opts : CreateOptions T) : Prop where
  whole : ∀ repo name, opts.workspace = some (.worktree repo name) →
    s.marker? id ≠ some (some (.worktree repo name)) → Filled s t (.worktree repo name) opts
  marker : Unmarking s t id
  made : ∀ row, t.env? id = some row → t.node row.workspace ≠ none

omit [Tree T] in
theorem made_of_no_row (h : t.env? id = none) :
    ∀ row, t.env? id = some row → t.node row.workspace ≠ none := fun row hr => by
  rw [h] at hr; cases hr

/-- Filling is the same from a state that has the worktree and every indexed snapshot. -/
theorem Filled.of_frame {u : Pool T} {w : Path} (hf : Frame P s t) (hw : t.node w = s.node w)
    (hrow : ∀ e x, ¬ P (.snap e x))
    (hsnap : ∀ e x, s.index.snap? e x ≠ none → ¬ P (.node (.snap e x))) (h : Filled t u w opts) :
    Filled s u w opts := by
  intro hseed hfork
  rcases h hseed hfork with h | ⟨hrows, a, ha, hnode⟩
  · exact .inl (h.trans hw)
  · have hrows' : ∀ ref, opts.from = some ref → s.index.snap? ref.env ref.snapshot ≠ none := by
      intro ref href
      rw [← hf.snap _ _ (hrow _ _)]
      exact hrows ref href
    refine .inr ⟨hrows', a, ?_, hnode⟩
    rw [← ha]
    unfold madeTree CreateOptions.golden
    rw [hw]
    cases href : opts.from with
    | none => rfl
    | some ref =>
      have hgold := hf.node _ (hsnap _ _ (hrows' ref href))
      simp only [adopted, Option.map_some, hgold]

omit [Tree T] in
theorem HasDirs.fill {u : Pool T} {w : Path} (h : HasDirs t id) (hw : Path.IsWorkspace id w)
    (hu : Frame (WorkspacePlaces id w) t u) : HasDirs u id := by
  have hsame : ∀ p : Path, p.env? = some id → p ≠ .live id → p ≠ .adopt id →
      u.node p = t.node p := by
    intro p hp hlive hadopt
    refine hu.node p ?_
    rintro (rfl | hc | ⟨r, rfl⟩)
    · cases hw with
      | live => exact hlive rfl
      | worktree r n => cases hp
    · exact hadopt hc
    · cases hp
  refine ⟨?_, ?_, ?_, ?_, fun x => ?_⟩
  · rw [Pool.marker?_eq_some, hsame (.marker id) rfl (by simp) (by simp), ← Pool.marker?_eq_some]
    exact h.marker
  · rw [hsame (.envDir id) rfl (by simp) (by simp)]; exact h.envDir
  · rw [hsame (.snapsDir id) rfl (by simp) (by simp)]; exact h.snapsDir
  · rw [hsame (.claude id) rfl (by simp) (by simp)]; exact h.claude
  · rw [hsame (.snap id x) rfl (by simp) (by simp)]; exact h.snaps x

theorem wp_prepare (hs : Sane named s) (hid : checkEnvID id = true) (hnone : s.env? id = none) :
    wp (prepare id opts)
      (fun _ t => Sound named (OnDisk id (CreateWorkspaces s id opts)) s t ∧ Creating s t id opts)
      (fun row t => (Sound named (OnDisk id (CreateWorkspaces s id opts)) s t ∧
        Creating s t id opts) ∧ Prepared s t id opts row)
      (fun _ t => (Sound named (OnDisk id (CreateWorkspaces s id opts)) s t ∧
        Creating s t id opts) ∧ (t = s ∨ t.marker? id = some none)) s := by
  unfold prepare
  refine wp_step (wp_workspaceOf id opts.workspace s) (fun _ _ h => h) ?_ ?_
  · rintro _ _ rfl
    exact ⟨⟨Sound.refl hs, fun _ _ _ _ _ _ => Or.inl rfl, fun _ h => h, made_of_no_row hnone⟩,
      Or.inl rfl⟩
  rintro w s ⟨rfl, hw⟩
  have hisw : Path.IsWorkspace id w := by
    rcases hw with ⟨_, rfl⟩ | ⟨r, n, _, rfl, _⟩
    · exact .live
    · exact .worktree r n
  -- The directory, cleared and marked.
  have hto₁ : ∀ t, Sound named (DiskOf id (s.marker? id).join) s t ∧ Unmarking s t id →
      Sound named (OnDisk id (CreateWorkspaces s id opts)) s t ∧ Creating s t id opts := by
    rintro t ⟨ht, hunmark⟩
    refine ⟨ht.mono ?_, fun r n _ hmark _ _ => Or.inl (ht.1.node _ ?_), hunmark,
      made_of_no_row ((ht.1.env id fun h => h).trans hnone)⟩
    · rintro (p | _ | _) (hp | hp)
      · exact .inl hp
      · exact .inr (.inl (.inl (Option.join_eq_some_iff.mp hp)))
    · rintro (hc | hc)
      · cases hc
      · exact hmark (Option.join_eq_some_iff.mp hc)
  refine wp_step (wp_makeEnvDir hs hid hnone) (fun _ => hto₁) (fun _ _ h => h.elim) ?_
  rintro _ t ⟨ht, hdirs⟩
  have ht' := hto₁ t ⟨ht, fun p hp => by rw [hdirs.marker] at hp; cases hp⟩
  -- The workspace.
  have hclaim : Claimed t id := Or.inr (by rw [Pool.marker?_eq_some.mp hdirs.marker]; simp)
  have hto₂ : ∀ u, Sound named (WorkspacePlaces id w) t u ∧ Filled t u w opts →
      Sound named (OnDisk id (CreateWorkspaces s id opts)) s u ∧ Creating s u id opts := by
    rintro u ⟨hu, hfill⟩
    refine ⟨ht'.1.trans (hu.mono ?_), fun r n harg hmark => ?_, fun p hp => ?_,
      made_of_no_row ((hu.1.env id fun h => h).trans ((ht.1.env id fun h => h).trans hnone))⟩
    · rintro (p | _ | _) hp
      · rcases hp with rfl | rfl | hr
        · rcases hw with ⟨_, rfl⟩ | ⟨r, n, harg, rfl, hfree⟩
          · exact .inl rfl
          · exact .inr (.inl (.inr ⟨r, n, harg, rfl, hfree⟩))
        · exact .inl rfl
        · exact .inr (.inr hr)
      · exact hp
      · exact hp
    · rcases hw with ⟨hnoarg, _⟩ | ⟨r', n', harg', rfl, _⟩
      · rw [hnoarg] at harg; cases harg
      · rw [harg] at harg'
        cases harg'
        refine hfill.of_frame ht.1 (ht.1.node _ ?_) (fun _ _ => fun h => h) fun e x hsnap => ?_
        · rintro (hc | hc)
          · cases hc
          · exact hmark (Option.join_eq_some_iff.mp hc)
        · -- An indexed snapshot is of an environment with a row.
          rintro (hc | hc)
          · cases hc
            exact Index.env?_of_snap? hsnap hnone
          · have := hs.marked id _ (Option.join_eq_some_iff.mp hc)
            cases this
    · rw [(hdirs.fill hisw hu.1).marker] at hp
      cases hp
  refine wp_step (wp_fillWorkspace ht.2 hclaim hisw) (fun _ => hto₂)
    (fun _ u h => ⟨hto₂ u h, .inr (hdirs.fill hisw h.1.1).marker⟩) ?_
  rintro _ u ⟨hu, hsome⟩
  rw [wp_bind, wp_read]
  split
  · rw [wp_fail]
    exact ⟨hto₂ u hu, .inr (hdirs.fill hisw hu.1.1).marker⟩
  · rename_i git _
    have htick : Sound named (OnDisk id (CreateWorkspaces s id opts)) s
        { u with ticks := u.ticks + 1 } := (hto₂ u hu).1.trans (Sound.tick hu.1.2)
    refine wp_timeNow ⟨htick, (hto₂ u hu).2.whole, (hto₂ u hu).2.marker, (hto₂ u hu).2.made⟩ ?_
    rw [wp_pure]
    have hdirs' := hdirs.fill hisw hu.1.1
    refine ⟨⟨htick, (hto₂ u hu).2.whole, (hto₂ u hu).2.marker, (hto₂ u hu).2.made⟩,
      ⟨hdirs'.marker, hdirs'.envDir, hdirs'.snapsDir, hdirs'.claude,
      hdirs'.snaps⟩, rfl, hw.imp And.right ?_, hsome⟩
    rintro ⟨r, n, harg, rfl, hfree⟩
    exact ⟨r, n, harg, rfl, hfree⟩

/-- The places a create changes: those `prepare` does, and its row. -/
def Creates (s : Pool T) (id : EnvID) (opts : CreateOptions T) (q : Place) : Prop :=
  OnDisk id (CreateWorkspaces s id opts) q ∨ q = .env id

omit [Tree T] in
theorem not_onDisk_marker {W : Path → Prop} (hW : ∀ w, W w → Path.IsWorkspace id w) {e : EnvID}
    (he : e ≠ id) : ¬ OnDisk id W (.node (.marker e)) := by
  rintro (h | h | ⟨r, h⟩)
  · exact he (Option.some.inj h)
  · exact (hW _ h).ne_marker e rfl
  · cases h

theorem CreateWorkspaces.isWorkspace (hs : Sane named s) {w : Path}
    (h : CreateWorkspaces s id opts w) : Path.IsWorkspace id w := by
  rcases h with h | ⟨r, n, _, rfl, _⟩
  · exact hs.marked id w h
  · exact .worktree r n

/-- The row a create writes is safe, if no other environment's marker names its workspace. -/
theorem Prepared.safe {row : EnvRow} (hs : Sane named s)
    (ht : Sound named (OnDisk id (CreateWorkspaces s id opts)) s t) (h : Prepared s t id opts row)
    (hmark : ∀ repo name, opts.workspace = some (.worktree repo name) → ∀ e, e ≠ id →
      s.marker? e ≠ some (some (.worktree repo name))) : (Op.insertEnv row).Safe named t := by
  have hid := h.rowID
  subst hid
  refine ⟨⟨?_, fun e he hc => ?_⟩, h.envDir, h.snapsDir, h.claude⟩
  · rcases h.workspace with hw | ⟨r, n, _, hw, _⟩ <;> rw [hw]
    · exact .live
    · exact .worktree r n
  · rcases h.workspace with hw | ⟨r, n, harg, hw, _⟩ <;> rw [hw] at hc
    · have := ht.2.marked e _ hc
      cases this
      exact he rfl
    · rw [ht.1.marker? (not_onDisk_marker (fun w hw => hw.isWorkspace hs) he)] at hc
      exact hmark r n harg e he hc

theorem wp_create (hs : Sane named s) (hid : checkEnvID id = true) (hnone : s.env? id = none)
    (hmark : ∀ repo name, opts.workspace = some (.worktree repo name) → ∀ e, e ≠ id →
      s.marker? e ≠ some (some (.worktree repo name))) :
    wp (create id opts)
      (fun _ t => Sound named (Creates s id opts) s t ∧ Creating s t id opts)
      (fun row t => (Sound named (Creates s id opts) s t ∧ Creating s t id opts) ∧
        t.env? id = some row ∧ t.node (.marker id) = none ∧ t.node row.workspace ≠ none ∧
        ∀ x, t.node (.snap id x) = none)
      (fun _ t => (Sound named (Creates s id opts) s t ∧ Creating s t id opts) ∧
        t.env? id = none ∧ (t = s ∨ t.marker? id = some none)) s := by
  have hto : ∀ {t}, Sound named (OnDisk id (CreateWorkspaces s id opts)) s t →
      Sound named (Creates s id opts) s t := fun ht => ht.mono fun q hq => Or.inl hq
  unfold create
  refine wp_step (wp_prepare hs hid hnone) (fun _ t h => ⟨hto h.1, h.2⟩)
    (fun _ t h => ⟨⟨hto h.1.1, h.1.2⟩, ?_, h.2⟩) ?_
  · rw [h.1.1.1.env id fun h => h]
    exact hnone
  rintro row t ⟨⟨ht, hadopt⟩, hprep⟩
  have hrowID := hprep.rowID
  -- The row.
  refine wp_seq (P := fun _ u => (Sound named (Creates s id opts) s u ∧ Creating s u id opts) ∧
      u.env? id = some row ∧ ∀ p, u.node p = t.node p) (wp_op (fun u hu => ?_) fun e _ =>
      ⟨⟨hto ht, hadopt⟩, (ht.1.env id fun h => h).trans hnone, .inr hprep.marker⟩) ?_
  · have hsound : Sound named (Creates s id opts) s u :=
      (hto ht).step (hprep.safe hs ht hmark) hu fun q hq =>
        Or.inr (by rw [show q = .env row.id from hq, hrowID])
    obtain ⟨x, hx, rfl⟩ := Op.run_insertEnv hu
    have hrow : x.env? id = some row := (Index.env?_insertEnv hx id).trans (if_pos hrowID.symm)
    have hmade : Creating s { t with index := x } id opts := ⟨hadopt.whole, hadopt.marker,
      fun row' hr => by cases hrow.symm.trans hr; exact hprep.filled⟩
    exact ⟨⟨hsound, hmade⟩, ⟨hsound, hmade⟩, hrow, fun _ => rfl⟩
  rintro _ u ⟨⟨hu, hadopt'⟩, hrow, hnode⟩
  have hthere : u.node (.marker id) = some (.mark none) := by
    rw [hnode]
    exact Pool.marker?_eq_some.mp hprep.marker
  -- The marker.
  refine wp_seq (P := fun _ v => (Sound named (Creates s id opts) s v ∧ Creating s v id opts) ∧
      v.env? id = some row ∧ v = u.drop (.marker id)) (wp_op (fun v hv => ?_) fun e he => ?_) ?_
  · have hsound : Sound named (Creates s id opts) s v :=
      hu.step (o := .remove (.marker id)) ⟨id, rfl, by rw [hrow]; simp⟩ hv fun q hq =>
        Or.inl (by rw [show q = .node (.marker id) from hq]; exact .inl rfl)
    simp only [Op.run, hthere, Except.ok.injEq] at hv
    subst hv
    have hadopt'' : Creating s (u.drop (.marker id)) id opts := by
      refine ⟨fun r n harg hm hseed hfork => ?_, fun p hp => ?_, fun row' hr => ?_⟩
      · simpa using hadopt'.whole r n harg hm hseed hfork
      · rw [Pool.marker?_eq_some, Pool.node_drop, if_pos rfl] at hp
        cases hp
      · rw [Pool.node_drop, if_neg ((hu.2.workspace id row' hr).ne_marker id)]
        exact hadopt'.made row' hr
    exact ⟨⟨hsound, hadopt''⟩, ⟨hsound, hadopt''⟩, hrow, rfl⟩
  · simp [Op.run, hthere] at he
  rintro _ v ⟨hv, hrow', rfl⟩
  have hwork : row.workspace ≠ .marker id := by
    rcases hprep.workspace with hw | ⟨r, n, _, hw, _⟩ <;> rw [hw] <;> simp
  rw [wp_pure]
  refine ⟨hv, hrow', by simp, ?_, fun x => ?_⟩
  · rw [Pool.node_drop, if_neg hwork, hnode]
    exact hprep.filled
  · rw [Pool.node_drop, if_neg (by simp), hnode]
    exact hprep.snaps x

/-- The places a readopt changes: the workspace's, and the row. -/
def Readopts (env : EnvRow) (q : Place) : Prop :=
  WorkspacePlaces env.id env.workspace q ∨ q = .env env.id

/-- A readopt changes no more of the row than its git folder, and the worktree is there whole. -/
def Readopted (s t : Pool T) (env : EnvRow) : Prop :=
  (∃ git, t.env? env.id = some { env with git := git }) ∧
    Whole s t env.workspace (madeTree s env.workspace none)

theorem keeps_readopt {env : EnvRow} (hs : Sane named s) (henv : s.env? env.id = some env) :
    Keeps (fun t => Sound named (Readopts env) s t ∧ Readopted s t env) (readopt env) s := by
  have hrefl : Sound named (Readopts env) s s ∧ Readopted s s env :=
    ⟨Sound.refl hs, ⟨env.git, henv⟩, .inl rfl⟩
  unfold readopt
  split
  · rw [keeps_pure]; exact hrefl
  rw [keeps_read_bind]
  split
  · rw [keeps_pure]; exact hrefl
  have hto : ∀ {t : Pool T}, Sound named (WorkspacePlaces env.id env.workspace) s t →
      Whole s t env.workspace (madeTree s env.workspace none) →
      Sound named (Readopts env) s t ∧ Readopted s t env := fun ht hwhole =>
    ⟨ht.mono fun q hq => Or.inl hq, ⟨env.git, (ht.1.env env.id fun h => h).trans henv⟩, hwhole⟩
  refine wp_seq (P := fun _ t => Sound named (WorkspacePlaces env.id env.workspace) s t ∧
      Whole s t env.workspace (madeTree s env.workspace none))
    (wp_mono (wp_makeWorkspace hs (.inl (by rw [henv]; simp)) (hs.workspace _ env henv))
      (fun _ t h => hto h.1 h.2) (fun _ t h => ⟨h.1, ?_⟩) fun _ t h => hto h.1 (.inl h.2)) ?_
  · rcases h.2 with ⟨rfl, _⟩ | hmade
    · exact .inl rfl
    · exact .inr hmade
  rintro _ t ⟨ht, hwhole⟩
  rw [wp_bind, wp_read]
  split
  · rw [wp_fail]
    exact hto ht hwhole
  · rename_i git _
    refine keeps_bind (keeps_perform (hto ht hwhole) fun u hu => ?_) fun _ u hu => by
      rw [keeps_pure]; exact hu
    have hsound : Sound named (Readopts env) s u :=
      (hto ht hwhole).1.step (o := .setEnvGit env.id git) trivial hu fun q hq => Or.inr hq
    cases hu
    refine ⟨hsound, ⟨git, (Index.env?_setEnvGit _ _ _).trans ?_⟩, hwhole⟩
    rw [if_pos rfl]
    exact congrArg (Option.map _) ((ht.1.env env.id fun h => h).trans henv)

theorem Create_cases (id : EnvID) (opts : CreateOptions T) (s : Pool T) :
    (∃ e, Create id opts s = (fail e : StoreM T EnvRow) s) ∨
      (∃ env, env.id = id ∧ s.env? id = some env ∧ Create id opts s = readopt env s) ∨
      (checkEnvID id = true ∧ s.env? id = none ∧ Create id opts s = create id opts s) := by
  unfold Create
  split
  · exact .inl ⟨_, rfl⟩
  rename_i hid
  rw [read_bind]
  cases hrow : s.env? id with
  | some env =>
    dsimp only
    split
    · exact .inr (.inl ⟨env, Index.env?_id hrow, rfl, rfl⟩)
    · exact .inl ⟨_, rfl⟩
  | none =>
    dsimp only
    split
    · exact .inl ⟨_, rfl⟩
    rcases cases_of_reads (P := fun _ => True) (wp_mono (wp_checkFree s) (fun _ _ h => h)
      (fun _ _ h => ⟨h, trivial⟩) fun _ _ h => h) with ⟨e, he⟩ | ⟨_, _, hfree⟩
    · exact .inl ⟨e, bind_of_fail he _⟩
    · exact .inr (.inr ⟨by simpa using hid, rfl, bind_of_pure hfree _⟩)

end Create

/-! ### Deletes

The marker comes back before the row goes, so that recovery knows what is left to delete. -/

/-- The workspaces a delete works on: its row's, or its marker's. -/
def DeleteWorkspaces (s : Pool T) (id : EnvID) (w : Path) : Prop :=
  (∃ row, s.env? id = some row ∧ row.workspace = w) ∨ s.marker? id = some (some w)

/-- The places a delete changes: the environment's rows, and its disk. -/
def Deletes (s : Pool T) (id : EnvID) (q : Place) : Prop :=
  OnDisk id (DeleteWorkspaces s id) q ∨ q = .env id ∨ ∃ x, q = .snap id x

/-- Until its row is gone, a delete has changed nothing of the environment but its marker. -/
def Deleted (s t : Pool T) (id : EnvID) : Prop :=
  t.env? id = none ∨ Frame (AtPaths [.envDir id, .marker id]) s t

/-- `Delete` leaves nothing of the environment, and fails for no ID but an invalid one. -/
theorem wp_Delete (hs : Sane named s) :
    wp (Delete id) (fun _ t => Sound named (Deletes s id) s t ∧ Deleted s t id)
      (fun _ t => (Sound named (Deletes s id) s t ∧ t.env? id = none) ∧
        ∀ p : Path, p.env? = some id → t.node p = none)
      (fun _ t => t = s ∧ checkEnvID id = false) s := by
  have hclear : ∀ {t : Pool T}, Sound named (Deletes s id) s t → t.env? id = none →
      (∀ w, t.marker? id = some (some w) → DeleteWorkspaces s id w) →
      wp (clearLeftovers id) (fun _ u => Sound named (Deletes s id) s u ∧ Deleted s u id)
        (fun _ u => (Sound named (Deletes s id) s u ∧ u.env? id = none) ∧
          ∀ p : Path, p.env? = some id → u.node p = none)
        (fun _ u => u = s ∧ checkEnvID id = false) t := by
    intro t ht hrow hmark
    have hto : ∀ u, Sound named (DiskOf id (t.marker? id).join) t u →
        Sound named (Deletes s id) s u ∧ u.env? id = none := by
      intro u hu
      refine ⟨ht.trans (hu.mono ?_), (hu.1.env id fun h => h).trans hrow⟩
      rintro (p | _ | _) (hp | hp)
      · exact .inl (.inl hp)
      · exact .inl (.inr (.inl (hmark p (Option.join_eq_some_iff.mp hp))))
    exact wp_mono (wp_clearLeftovers ht.2 hrow)
      (fun _ u h => ⟨(hto u h.1).1, .inl (hto u h.1).2⟩) (fun _ u h => ⟨hto u h.1.1, h.2⟩)
      fun _ _ h => h.elim
  unfold Delete
  split
  · rename_i hid
    rw [wp_fail]
    exact ⟨rfl, by simpa using hid⟩
  rename_i hid
  rw [wp_bind, wp_read]
  split
  · rename_i env henv
    have hto : ∀ t, Sound named (AtPaths [.envDir id, .marker id]) s t →
        Sound named (Deletes s id) s t := by
      refine fun t ht => ht.mono ?_
      rintro (p | _ | _) hp
      · refine .inl (.inl ?_)
        rcases List.mem_pair.mp hp with rfl | rfl <;> rfl
      · exact hp.elim
      · exact hp.elim
    refine wp_step
      (wp_writeMarker hs (by simpa using hid) fun w hw => ⟨env, henv, Option.some.inj hw⟩)
      (fun _ t h => ⟨hto t h.1, .inr h.1.1⟩) (fun _ _ h => h.elim) ?_
    rintro _ t ⟨ht, hmark⟩
    refine wp_seq (P := fun _ u => Sound named (Deletes s id) s u ∧ u.env? id = none ∧
      u.marker? id = some (some env.workspace)) (wp_op (fun u hu => ?_) fun e he => by cases he) ?_
    · have hsound : Sound named (Deletes s id) s u :=
        (hto t ht).step (o := .deleteEnv id) (by rw [Op.Safe, Pool.marker?_eq_some.mp hmark]; simp)
          hu fun q hq => Or.inr hq
      cases hu
      have hgone : (t.index.deleteEnv id).env? id = none :=
        (Index.env?_deleteEnv _ _).trans (if_pos rfl)
      exact ⟨⟨hsound, .inl hgone⟩, hsound, hgone, hmark⟩
    rintro _ u ⟨hu, hgone, hmark'⟩
    refine hclear hu hgone fun w hw => ?_
    rw [hmark'] at hw
    cases hw
    exact .inl ⟨env, henv, rfl⟩
  · rename_i hnone
    exact hclear (Sound.refl hs) hnone fun w hw => Or.inr hw

end Fern

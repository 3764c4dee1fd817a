/-
A call that is stopped leaves every environment as it was or as it would have been.

Of each call one operation is the one that counts: the row of a create, the row of a delete,
the snapshot made or removed, the swap of a restore or an adopt.  Before it, the environment is
as it was; after it, as the call will leave it.  Recovery then changes neither.
-/
import Fern.Lib.Commit
import Fern.Proofs.Store.Between

namespace Fern

open Call StoreM

variable {T : Type}

/-! ### What an environment is -/

/-- An environment as its users know it: its row without the git folder, the files of its
workspace, Claude's folder, and the snapshots other than those restores made. -/
structure EnvView (T : Type) where
  row : EnvRow
  files : Option (Node T)
  claude : Option (Node T)
  snaps : SnapID → Option (Node T)

/-- An environment's snapshots other than those restores made. -/
def Pool.ownSnaps (t : Pool T) (e : EnvID) (x : SnapID) : Option (Node T) :=
  if isPreRestore x then none else t.node (.snap e x)

/-- An environment of a pool, if it is there. -/
def Pool.view (t : Pool T) (e : EnvID) : Option (EnvView T) :=
  (t.env? e).map fun row =>
    ⟨{ row with git := "" }, t.node row.workspace, t.node (.claude e), t.ownSnaps e⟩

section View

variable {s t : Pool T} {e : EnvID}

theorem view_eq_none : t.view e = none ↔ t.env? e = none := by
  unfold Pool.view
  rw [Option.map_eq_none_iff]

theorem view_of_row {row : EnvRow} (hrow : t.env? e = some row) :
    t.view e =
      some ⟨{ row with git := "" }, t.node row.workspace, t.node (.claude e), t.ownSnaps e⟩ := by
  rw [Pool.view, hrow]
  rfl

theorem ownSnaps_congr
    (h : ∀ x, isPreRestore x = false → t.node (.snap e x) = s.node (.snap e x)) :
    t.ownSnaps e = s.ownSnaps e := by
  funext x
  unfold Pool.ownSnaps
  cases hx : isPreRestore x with
  | true => rfl
  | false => rw [h x hx]

/-- Two states with the same row and the same files show the same environment. -/
theorem view_congr {row : EnvRow} (git : String) (hs : s.env? e = some row)
    (ht : t.env? e = some { row with git := git })
    (hfiles : t.node row.workspace = s.node row.workspace)
    (hclaude : t.node (.claude e) = s.node (.claude e))
    (hsnaps : ∀ x, isPreRestore x = false → t.node (.snap e x) = s.node (.snap e x)) :
    t.view e = s.view e := by
  rw [view_of_row ht, view_of_row hs, ownSnaps_congr hsnaps]
  simp only [hfiles, hclaude]

theorem view_same (hrow : t.env? e = s.env? e)
    (hfiles : ∀ row, s.env? e = some row → t.node row.workspace = s.node row.workspace)
    (hclaude : t.node (.claude e) = s.node (.claude e))
    (hsnaps : ∀ x, isPreRestore x = false → t.node (.snap e x) = s.node (.snap e x)) :
    t.view e = s.view e := by
  cases hs : s.env? e with
  | none => rw [view_eq_none.mpr hs, view_eq_none, hrow, hs]
  | some row => exact view_congr row.git hs (hrow.trans hs) (hfiles row hs) hclaude hsnaps

/-- Changes elsewhere. -/
theorem view_frame {P : Place → Prop} (hf : Frame P s t) (hrow : ¬ P (.env e))
    (hfiles : ∀ row, s.env? e = some row → ¬ P (.node row.workspace))
    (hclaude : ¬ P (.node (.claude e)))
    (hsnaps : ∀ x, isPreRestore x = false → ¬ P (.node (.snap e x))) : t.view e = s.view e :=
  view_same (hf.env e hrow) (fun row hr => hf.node _ (hfiles row hr)) (hf.node _ hclaude)
    fun x hx => hf.node _ (hsnaps x hx)

end View

/-! ### The operation that counts

A call `Commits` if up to some operation the environment is seen as before, and from it on as at the
end.  The rules for sequences say that one part of a call has that operation and the others change
nothing that is seen. -/

variable [Tree T] {s t : Pool T} {id : EnvID}

section Commit

/-- A workspace is made at once. -/
theorem commits_makeWorkspace {workspace : Path} {golden : Option Path} {named : Prop}
    (hs : Sane named s) (hc : Claimed s id) (hws : Path.IsWorkspace id workspace) :
    Commits (fun t => t.node workspace = s.node workspace) (fun t => t.node workspace)
      (makeWorkspace id workspace golden) s := by
  have hne : workspace ≠ .adopt id := by
    rintro rfl
    cases hws
  have hadopt (tree : T) : Commits (fun t => t.node workspace = s.node workspace)
      (fun t => t.node workspace) (adopt id workspace tree golden) s := by
    unfold adopt
    refine commits_bind (wp_adoptCopy hs hc) (fun _ t ht => ht.1.node _ (by simp [AtPaths, hne]))
      fun _ t ht => ?_
    refine commits_perform_bind fun u hu => keeps_perform rfl fun v hv => ?_
    exact (Op.run_frame hv).node _ fun hc => hne (Place.node.inj hc)
  unfold makeWorkspace
  refine commits_read_bind ?_
  split
  · exact commits_bind (wp_makeParent hs hws) (fun _ _ h => h.2) fun _ _ _ =>
      commits_perform_bind fun u hu => keeps_perform rfl fun v hv =>
        (Op.run_frame hv).node _ fun h => h
  · exact commits_pure _
  · exact hadopt _
  · exact hadopt _
  · exact commits_fail _

/-- A readopt changes the workspace at once. -/
theorem commits_readopt {env : EnvRow} {named : Prop} (hs : Sane named s)
    (henv : s.env? env.id = some env) :
    Commits (fun t => t.view env.id = s.view env.id) (fun t => t.view env.id) (readopt env) s := by
  have hisw := hs.workspace _ env henv
  unfold readopt
  split
  · exact commits_pure _
  refine commits_read_bind ?_
  split
  · exact commits_pure _
  -- Everything but the workspace stays.
  have hrow : ∀ {t}, Sound named (WorkspacePlaces env.id env.workspace) s t →
      t.env? env.id = some env := fun ht => (ht.1.env _ fun h => h).trans henv
  have hview : ∀ t u, Sound named (WorkspacePlaces env.id env.workspace) s t →
      Sound named (WorkspacePlaces env.id env.workspace) s u →
      t.node env.workspace = u.node env.workspace → t.view env.id = u.view env.id := by
    intro t u ht hu hfiles
    have hsame {p : Path} (hp : p.env? = some env.id) (hlive : p ≠ .live env.id)
        (hadopt : p ≠ .adopt env.id) : t.node p = u.node p := by
      have hnot : ¬ WorkspacePlaces env.id env.workspace (.node p) := by
        rintro (hc | hc | ⟨r, rfl⟩)
        · rw [← hc] at hisw
          cases hisw with
          | live => exact hlive rfl
          | worktree r n => cases hp
        · exact hadopt hc
        · cases hp
      exact (ht.1.node p hnot).trans (hu.1.node p hnot).symm
    exact view_congr env.git (hrow hu) (hrow ht) hfiles (hsame rfl (by simp) (by simp))
      fun x _ => hsame rfl (by simp) (by simp)
  have hclaim : Claimed s env.id := Or.inl (by rw [henv]; simp)
  have hkeep : Keeps (Sound named (WorkspacePlaces env.id env.workspace) s)
      (makeWorkspace env.id env.workspace none) s :=
    wp_mono (wp_makeWorkspace hs hclaim hisw) (fun _ _ h => h.1) (fun _ _ h => h.1) fun _ _ h => h.1
  refine commits_then ((commits_makeWorkspace hs hclaim hisw).map hkeep
    (fun t ht hfiles => hview t s ht (Sound.refl hs) hfiles) hview) hkeep fun _ t ht => ?_
  rw [keeps_read_bind]
  split
  · rw [keeps_fail]
  · refine keeps_bind (keeps_perform rfl fun u hu => ?_) fun _ u hu => by rw [keeps_pure]; exact hu
    rename_i git _
    cases hu
    refine view_congr git (hrow ht) ?_ rfl rfl fun _ _ => rfl
    refine (Index.env?_setEnvGit _ _ _).trans ?_
    rw [if_pos rfl]
    exact congrArg (Option.map _) (hrow ht)

/-- A create counts from its row on. -/
theorem commits_create {opts : CreateOptions T} (hs : Tidy s) (hid : checkEnvID id = true)
    (hnone : s.env? id = none) :
    Commits (fun t => t.view id = s.view id) (fun t => t.view id) (create id opts) s := by
  have hto : ∀ {t}, Sound True (OnDisk id (CreateWorkspaces s id opts)) s t →
      t.view id = s.view id := fun ht => by
    rw [view_eq_none.mpr hnone, view_eq_none, ht.1.env id fun h => h, hnone]
  unfold create
  refine commits_bind (wp_prepare hs.toSane hid hnone) (fun _ t h => hto h.1) fun row t h => ?_
  obtain ⟨⟨ht, _⟩, hprep⟩ := h
  have hsafe := hprep.safe hs.toSane ht fun repo name _ e _ =>
    (hs.tidy e).unmarked (.worktree repo name)
  refine commits_perform_bind fun u hu => ?_
  have hu' := ht.2.run hsafe hu
  refine keeps_bind (keeps_perform rfl fun v hv => ?_) fun _ v hv => by rw [keeps_pure]; exact hv
  -- The marker is none of what is looked at.
  exact view_frame (Op.run_frame hv) nofun
    (fun r hr hc => (hu'.workspace _ r hr).ne_marker id (Place.node.inj hc)) nofun fun _ _ => nofun

/-- A snapshot counts from its subvolume on. -/
theorem commits_snapshot {env : EnvRow} {x : SnapID} {named : Prop} (hs : Sane named s)
    (henv : s.env? env.id = some env) (hx : checkSnapID x = true) :
    Commits (fun t => t.view env.id = s.view env.id) (fun t => t.view env.id)
      (snapshot env x) s := by
  have hisw := hs.workspace _ env henv
  cases hnode : s.node (.snap env.id x) with
  | some n =>
    -- The snapshot is there, and only its row can change.
    refine commits_of_before (wp_snapshot hs henv hx) fun _ t h => ?_
    obtain ⟨ht, htake⟩ := h
    have hsame : t.node (.snap env.id x) = s.node (.snap env.id x) :=
      htake.node.resolve_right fun hc => by rw [hnode] at hc; cases hc.1
    refine view_congr env.git henv ((ht.1.env _ snapPlaces_env).trans henv)
      (ht.1.node _ ?_) (ht.1.node _ (by simp)) fun y _ => ?_
    · simp [hisw.ne_snap]
    · by_cases hy : y = x
      · rw [hy]; exact hsame
      · exact ht.1.node _ (by simpa using hy)
  | none =>
    unfold snapshot
    refine commits_read_bind ?_
    rw [hnode]
    refine commits_perform_bind fun u hu => ?_
    refine wp_timeNow rfl ?_
    refine keeps_perform rfl fun w hw => ?_
    show w.view env.id = ({ u with ticks := u.ticks + 1 } : Pool T).view env.id
    exact view_frame (Op.run_frame hw) nofun (fun _ _ => nofun) nofun fun _ _ => nofun

/-- A restore counts from its swap on. -/
theorem commits_restore {env : EnvRow} {x : SnapID} {named : Prop} (hs : Sane named s)
    (henv : s.env? env.id = some env) (hfree : named → s.Free env.id s.preRestore ∨
      ∃ tree b, s.node env.workspace = some (.subvol tree b)) :
    Commits (fun t => t.view env.id = s.view env.id) (fun t => t.view env.id)
      (restore env x) s := by
  have hisw := hs.workspace _ env henv
  unfold restore
  refine commits_bind (wp_restoreKeep hs henv) (fun _ t ht => ?_) fun _ t ht => ?_
  · refine view_frame ht.sound.1 (by simp [RestoreKeeps, RestoreCopies]) (fun row hr => ?_)
      (by simp [RestoreKeeps, RestoreCopies]) fun y hy => ?_
    · rw [henv] at hr
      cases hr
      exact hisw.not_restoreKeeps
    · -- Only restores' snapshots are pruned or made.
      have hne : y ≠ s.preRestore := by
        rintro rfl
        rw [Pool.preRestore, isPreRestore_preRestoreID] at hy
        cases hy
      simp [RestoreKeeps, RestoreCopies, Prunable, hy, hne]
  · obtain ⟨ht, hkept, hsync, tree, htree, hnew⟩ := ht
    refine commits_perform_bind fun u hu => ?_
    have hsub : named → ∃ tree b, s.node env.workspace = some (.subvol tree b) := by
      intro hnamed
      rcases hfree hnamed with hfree | hsub
      · obtain ⟨old, b, hold, -⟩ := hkept hfree
        exact ⟨old, b, hold⟩
      · exact hsub
    have hu' := run_swap hisw henv ht hkept hsub hsync htree hnew hu
    have hsame : ∀ v, Shed [.restore env.id] u v → v.view env.id = u.view env.id := by
      intro v hv
      refine view_frame hv.frame (fun h => h) (fun row hr hc => ?_) (by simp [AtPaths])
        fun _ _ => by simp [AtPaths]
      have hisw' := hu'.sound.2.workspace _ row hr
      rw [List.mem_singleton.mp hc] at hisw'
      cases hisw'
    exact wp_mono (wp_deleteSubvolumes hu'.sound.2 (List.nodup_singleton _))
      (fun _ v h => hsame v h.2) (fun _ v h => hsame v h.1.2) fun _ _ h => h.elim

/-- A delete counts from its row on. -/
theorem commits_Delete {named : Prop} (hs : Sane named s) :
    Commits (fun t => t.view id = s.view id) (fun t => t.view id) (Delete id) s := by
  refine commits_of_same none (wp_mono (wp_Delete hs) (fun _ t h => ?_)
    (fun _ t h => view_eq_none.mpr h.1.2) fun _ t h => ?_)
  · rcases h.2 with hgone | hf
    · exact .inr (view_eq_none.mpr hgone)
    · refine .inl (view_frame hf (fun h => h) (fun row hr => ?_) (by simp [AtPaths])
        fun _ _ => by simp [AtPaths])
      have hisw := hs.workspace _ row hr
      cases hw : row.workspace <;> rw [hw] at hisw <;> cases hisw <;> simp [AtPaths]
  · rw [h.1, view_eq_none]
    by_contra hsome
    rw [hs.checkEnvID hsome] at h
    cases h.2

omit [Tree T] in
/-- An environment without one of its snapshots. -/
private theorem view_without {x : SnapID} (hs : Apart s) (hf : Frame (SnapPlaces id [x]) s t)
    (hnone : t.node (.snap id x) = none) : t.view id = (s.view id).map fun v =>
      { v with snaps := fun y => if y = x then none else v.snaps y } := by
  have henv := hf.env id snapPlaces_env
  cases hrow : s.env? id with
  | none => rw [view_eq_none.mpr hrow, Option.map_none, view_eq_none, henv, hrow]
  | some row =>
    rw [view_of_row hrow, view_of_row (henv.trans hrow), Option.map_some,
      hf.node row.workspace (by simp [(hs.workspace id row hrow).ne_snap]),
      hf.node (.claude id) (by simp)]
    congr 2
    funext y
    unfold Pool.ownSnaps
    by_cases hy : y = x
    · rw [hy, hnone]
      simp
    · rw [hf.node _ (by simpa using hy), if_neg hy]

/-- A snapshot's removal counts from its subvolume on. -/
theorem commits_DeleteSnapshot {x : SnapID} {named : Prop} (hs : Sane named s) :
    Commits (fun t => t.view id = s.view id) (fun t => t.view id) (DeleteSnapshot id x) s := by
  refine commits_of_same _ (wp_mono (wp_DeleteSnapshot hs) (fun _ t h => ?_)
    (fun _ t h => view_without hs.toApart h.1.1.1 h.2.1) fun _ t h => ?_)
  · rcases (h.2.1 x).1 with hsame | hnone
    · refine .inl (view_same (h.1.1.env id snapPlaces_env) (fun row hr => h.1.1.node _ ?_)
        (h.1.1.node _ (by simp)) fun y _ => ?_)
      · simp [(hs.workspace id row hr).ne_snap]
      · by_cases hy : y = x
        · rw [hy]; exact hsame
        · exact h.1.1.node _ (by simpa using hy)
    · exact .inr (view_without hs.toApart h.1.1 hnone)
  · rw [h.1]
    rcases h.2 with henv | hname
    · rw [view_eq_none.mpr henv]
      rfl
    · refine view_without hs.toApart (Frame.refl _ s) ?_
      by_contra hn
      obtain ⟨n, hn'⟩ := Option.ne_none_iff_exists'.mp hn
      rw [(hs.holds _ n hn').2] at hname
      cases hname

/-- An environment with other files. -/
def EnvView.withFiles (n : Option (Node T)) (v : EnvView T) : EnvView T := { v with files := n }

/-- A golden build has the old workspace, none, or the one it will leave. -/
theorem commits_BuildSource {src : SnapshotRef} {named : Prop} (hs : Sane named s) :
    Commits (fun t => t.view id = s.view id ∨
        s.HasLive id ∧ t.view id = (s.view id).map (EnvView.withFiles none))
      (fun t => t.view id) (BuildSource id src) s := by
  unfold BuildSource
  refine commits_bind (wp_get id s) (fun _ _ h => h) ?_
  rintro env s ⟨rfl, henv⟩
  split
  swap
  · exact commits_fail _
  rename_i hlive
  rw [hlive]
  refine commits_bind (wp_snapshotPath src s) (fun _ _ h => h) ?_
  rintro path s ⟨rfl, _⟩
  refine commits_read_bind ?_
  split
  swap
  · exact commits_fail _
  -- The list is none of what is looked at.
  have hlist : ∀ {t}, Frame (AtPaths [.sourceList id]) s t → t.view id = s.view id := by
    intro t hf
    refine view_frame hf (fun h => h) (fun row hr => ?_) (by simp [AtPaths])
      fun _ _ => by simp [AtPaths]
    rw [henv] at hr
    cases hr
    simp [AtPaths, hlive]
  rename_i tree b hsrc
  refine commits_bind (C := fun _ t => Sound named (AtPaths [.sourceList id]) s t)
    (Q := fun _ t => Sound named (AtPaths [.sourceList id]) s t) (E := fun _ _ => True)
    (wp_op (fun t ht => ?_) fun _ _ => trivial) (fun _ t ht => .inl (hlist ht.1)) fun _ t ht => ?_
  · have hsound : Sound named (AtPaths [.sourceList id]) s t :=
      ⟨(Op.run_frame ht).mono (by rintro _ rfl; simp [AtPaths]),
        hs.run (o := .listSource id tree) trivial ht⟩
    exact ⟨hsound, hsound⟩
  obtain ⟨hf, ht'⟩ := ht
  refine commits_bind (wp_deleteSubvolumes ht' (List.nodup_singleton _)) (fun _ u h => ?_)
    fun _ _ _ => commits_perform _ _
  obtain ⟨_, hshed⟩ := h
  have hrow : u.env? id = some env := by
    rw [Pool.env?, hshed.index]
    exact (hf.env id fun h => h).trans henv
  have hother : ∀ p : Path, p ≠ .live id → p ≠ .sourceList id → u.node p = s.node p := by
    intro p hl hp
    rw [hshed.frame.node p (by simpa [AtPaths] using hl), hf.node p (by simpa [AtPaths] using hp)]
  rcases hshed.node (.live id) with hsame | ⟨_, hnone, _⟩
  · refine .inl (view_congr env.git henv hrow ?_ (hother (.claude id) (by simp) (by simp))
      fun x _ => hother (.snap id x) (by simp) (by simp))
    rw [hlive, hsame]
    exact hf.node _ (by simp [AtPaths])
  · refine .inr ⟨⟨env, henv, hlive⟩, ?_⟩
    rw [view_of_row henv, view_of_row hrow, Option.map_some, EnvView.withFiles, hlive, hnone,
      hother (.claude id) (by simp) (by simp),
      ownSnaps_congr fun x _ => hother (.snap id x) (by simp) (by simp)]

/-- Before the operation that counts: as before, or, of a golden build, without files. -/
def Request.Before (r : Request T) (s t : Pool T) (e : EnvID) : Prop :=
  t.view e = s.view e ∨ (∃ src, r = .buildSource e src) ∧ s.HasLive e ∧
    t.view e = (s.view e).map (EnvView.withFiles none)

/-- **Every state a request passes through shows its environment as before or as after.** -/
theorem commits_request (hs : Tidy s) {r : Request T} (hname : Named s r) (hid : r.env? = some id) :
    Commits (fun t => r.Before s t id) (fun t => t.view id) r.call s := by
  cases r with
  | reconcile => cases hid
  | create e opts =>
    cases hid
    refine Commits.mono (B := fun t => t.view id = s.view id) ?_ fun _ => Or.inl
    refine commits_then ?_ (wp_true _ s) fun _ _ _ => by rw [keeps_pure]
    rcases Create_cases id opts s with ⟨e, hrun⟩ | ⟨env, rfl, henv, hrun⟩ |
      ⟨hcheck, hnone, hrun⟩ <;>
      rw [commits_congr hrun]
    · exact commits_fail _
    · exact commits_readopt hs.toSane henv
    · exact commits_create hs hcheck hnone
  | delete e =>
    cases hid
    exact (commits_Delete hs.toSane).mono fun _ => Or.inl
  | snapshot e x =>
    cases hid
    refine Commits.mono (B := fun t => t.view id = s.view id) ?_ fun _ => Or.inl
    show Commits _ _ (Snapshot id x) s
    rcases Snapshot_cases id x s with ⟨e, hrun⟩ | ⟨env, rfl, henv, hx, hrun⟩ <;>
      rw [commits_congr hrun]
    · exact commits_fail _
    · exact commits_snapshot hs.toSane henv hx
  | deleteSnapshot e x =>
    cases hid
    exact (commits_DeleteSnapshot hs.toSane).mono fun _ => Or.inl
  | restore e x =>
    cases hid
    refine Commits.mono (B := fun t => t.view id = s.view id) ?_ fun _ => Or.inl
    show Commits _ _ (Restore id x) s
    rcases Restore_cases id x s with ⟨e, hrun⟩ | ⟨env, rfl, henv, hrun⟩ <;>
      rw [commits_congr hrun]
    · exact commits_fail _
    · exact commits_restore hs.toSane henv fun _ => hname _ _ env rfl henv
  | buildSource e src =>
    cases hid
    exact (commits_BuildSource hs.toSane).mono fun _ => Or.imp_right fun h => ⟨⟨src, rfl⟩, h⟩

end Commit

/-! ### Snapshots kept -/

section Snapshots

/-- A request keeps the snapshots of its environment, but for the one it is to delete and those
of restores over a day old. -/
theorem keepsSnap_request (hs : Tidy s) {r : Request T} (hname : Named s r)
    (hid : r.env? = some id) :
    wp r.call (fun _ t => ∀ x, t.env? id ≠ none → r ≠ .deleteSnapshot id x → KeepsSnap s t id x)
      (fun _ _ => True) (fun _ _ => True) s := by
  have hnew : s.env? id = none → ∀ {t : Pool T} x, KeepsSnap s t id x := fun hnone t x row hrow =>
    absurd hnone (Index.env?_of_snap? (by rw [hrow]; simp))
  cases r with
  | reconcile => cases hid
  | create e opts =>
    cases hid
    refine wp_seq (P := fun _ _ => True) ?_ fun _ t _ => by rw [wp_pure]; trivial
    rcases Create_cases id opts s with ⟨e, hrun⟩ | ⟨env, rfl, henv, hrun⟩ | ⟨_, hnone, hrun⟩ <;>
      rw [wp_congr hrun]
    · rw [wp_fail]; trivial
    · have hread := keeps_readopt hs.toSane henv
      refine wp_past hread fun _ t ht x _ _ => KeepsSnap.frame ht.1.1 ?_ ?_
      · rintro ((hc | hc | ⟨r, hc⟩) | hc)
        · exact (hs.workspace _ env henv).ne_snap _ _ hc.symm
        all_goals cases hc
      · rintro (hc | hc)
        · exact hc
        · cases hc
    · exact wp_past (wp_true _ s) fun _ _ _ x _ _ => hnew hnone x
  | delete e =>
    cases hid
    refine wp_past (wp_Delete hs.toSane) fun _ t h x hsome _ => ?_
    exact KeepsSnap.frame (h.2.resolve_left hsome) (by simp [AtPaths]) fun h => h
  | snapshot e x =>
    cases hid
    show wp (Snapshot id x) _ _ _ s
    rcases Snapshot_cases id x s with ⟨e, hrun⟩ | ⟨env, rfl, henv, hx, hrun⟩ <;>
      rw [wp_congr hrun]
    · rw [wp_fail]; trivial
    · exact wp_past (wp_snapshot hs.toSane henv hx) fun _ t h y _ _ => h.2.keepsSnap h.1.1 y
  | deleteSnapshot e x =>
    cases hid
    refine wp_past (wp_DeleteSnapshot hs.toSane) fun _ t h y _ hy => ?_
    have hne : y ≠ x := fun hc => hy (by rw [hc])
    exact KeepsSnap.frame h.1.1 (by simpa using hne) (by simpa using hne)
  | restore e x =>
    cases hid
    show wp (Restore id x) _ _ _ s
    rcases Restore_cases id x s with ⟨e, hrun⟩ | ⟨env, rfl, henv, hrun⟩ <;> rw [wp_congr hrun]
    · rw [wp_fail]; trivial
    · exact wp_past (wp_restore hs.toSane henv fun _ => hname _ _ env rfl henv)
        fun _ t h y _ _ => h.elim (fun h => h.snaps y) fun h => h.snaps y
  | buildSource e src =>
    cases hid
    exact wp_past (wp_BuildSource hs.toSane)
      fun _ t h x _ _ => KeepsSnap.frame h.1.1 (by simp [AtPaths]) fun h => h

end Snapshots

/-! ### Recovery -/

section Recover

variable {D : EnvID → Prop} {e : EnvID}

/-- Recovery leaves an environment as it is, but puts back a missing `live`. -/
theorem Recovered.view (h : Recovered D s t) (hs : Apart s) :
    t.view e = s.view e ∨ (∃ row, s.env? e = some row ∧ row.workspace = .live e ∧
      s.node (.live e) = none) ∧
        t.view e = (s.view e).map (EnvView.withFiles (some (.subvol Tree.empty false))) := by
  cases hrow : s.env? e with
  | none => exact .inl (by rw [view_eq_none.mpr hrow, view_eq_none, h.env?, hrow])
  | some row =>
    have hsome : s.env? e ≠ none := by rw [hrow]; simp
    have hclaude : t.node (.claude e) = s.node (.claude e) := by
      refine h.frame.node _ ?_
      rintro (⟨e', _, hnone, hc | hc⟩ | ⟨_, _, _, hc, _⟩ | ⟨_, _, _, _, _, hc, _⟩ |
        ⟨_, _, _, _, hc, _⟩)
      · cases hc
        exact hsome hnone
      · have := hs.marked e' _ hc
        cases this
      · simp at hc
      · cases hc
      · cases hc
    have hsnaps : ∀ x, isPreRestore x = false → t.node (.snap e x) = s.node (.snap e x) := by
      intro x hx
      refine h.frame.node _ fun hc => ?_
      rw [(hc.expired hs hsome).2.1] at hx
      cases hx
    by_cases hfiles : t.node row.workspace = s.node row.workspace
    · exact .inl (view_congr row.git hrow ((h.env? e).trans hrow) hfiles hclaude hsnaps)
    · have hc : Recovery D s t (.node row.workspace) := by
        by_contra hc
        exact hfiles (h.frame.node _ hc)
      obtain ⟨hlive, hnone⟩ := hc.workspace hs hrow
      refine .inr ⟨⟨row, rfl, hlive, hlive ▸ hnone⟩, ?_⟩
      have hmade : t.node row.workspace = some (.subvol Tree.empty false) := by
        rcases h.node row.workspace with h' | h' | ⟨_, _, _, _, h'⟩
        · exact absurd h' hfiles
        · exact absurd (h'.trans hnone.symm) hfiles
        · exact h'
      rw [view_of_row hrow, view_of_row ((h.env? e).trans hrow), Option.map_some,
        EnvView.withFiles, hmade, hclaude, ownSnaps_congr hsnaps]

end Recover

/-! ### Whose the workspaces are

A workspace is root's from `createSubvolume` to `Chown`.  `Reconcile` never gives one away that it
finds; but one that it makes it gives away, unless it is stopped in between. -/

section Owners

variable {e : EnvID}

/-- The subvolume at a path is root's. -/
def Pool.RootsAt (t : Pool T) (p : Path) : Prop :=
  (∃ tree b, t.node p = some (.subvol tree b)) ∧ t.owner p = .root

/-- No environment has a workspace that is root's, unless it is so before or after the request. -/
def GivenAway (r : Request T) (s t : Pool T) : Prop :=
  ∀ e row, t.env? e = some row → t.RootsAt row.workspace →
    s.RootsAt row.workspace ∨ (r.call s).final.RootsAt row.workspace

/-- What recovery clears makes nothing root's. -/
theorem clearing_rootsAt (s : Pool T) (e : EnvID) :
    Clearing (fun t : Pool T => ∀ p, t.RootsAt p → s.RootsAt p) (fun _ => True) e := by
  have hless : ∀ {t u : Pool T}, (∀ p n, u.node p = some n → t.node p = some n) →
      u.owner = t.owner → (∀ p, t.RootsAt p → s.RootsAt p) → ∀ p, u.RootsAt p → s.RootsAt p := by
    rintro t u hnode howner ht p ⟨⟨tree, b, hp⟩, hroot⟩
    exact ht p ⟨⟨tree, b, hnode p _ hp⟩, howner ▸ hroot⟩
  have hdrop : ∀ {t : Pool T} {q : Path}, (∀ p, t.RootsAt p → s.RootsAt p) →
      ∀ p, (t.drop q).RootsAt p → s.RootsAt p :=
    hless (fun p n hp => by rw [Pool.node_drop] at hp; split at hp <;> simp_all) rfl
  refine ⟨⟨fun _ _ => trivial, fun _ _ _ _ => trivial, fun o t u ho ht hu => ?_⟩,
    fun o t u ho ht hu => ?_⟩
  · cases o <;> simp only [Op.Removes] at ho
    case removeAll =>
      subst ho
      cases hu
      refine hless (t := t) (fun p n hp => ?_) rfl ht
      simp only [Pool.node, FinMap.get_eraseIf] at hp
      split at hp
      · cases hp
      · exact hp
    all_goals
      simp only [Op.run] at hu
      repeat' split at hu
      all_goals cases hu
      exact hdrop ht
  · cases o <;> simp only [Op.Clears] at ho
    case clock => cases hu; exact ht
    case deleteSnapshot => cases hu; exact ht
    case recoverSnapshots =>
      obtain ⟨x, _, rfl⟩ := Op.run_recoverSnapshots hu
      exact ht
    case removeAll =>
      subst ho
      cases hu
      exact hdrop ht
    case remove =>
      simp only [Op.run] at hu
      split at hu
      · cases hu
        exact hdrop ht
      · cases hu

theorem wp_putBackLive_rootsAt {env : EnvRow} (ht : ∀ p, t.RootsAt p → s.RootsAt p) :
    wp (putBackLive env) (fun _ _ => True) (fun _ t => ∀ p, t.RootsAt p → s.RootsAt p)
      (fun _ _ => True) t := by
  unfold putBackLive
  rw [wp_bind, wp_read]
  split
  · rename_i hmiss
    obtain ⟨hnone, hlive⟩ := hmiss
    rw [hlive] at hnone ⊢
    refine wp_makeLive hnone (.inr trivial) (fun _ => trivial) ?_
    rintro p ⟨⟨tree, b, hp⟩, hroot⟩
    by_cases hpl : p = .live env.id
    · simp [Pool.withLive, Pool.own, Pool.put, hpl] at hroot
    · exact ht p ⟨⟨tree, b, by simpa [Pool.withLive, hpl] using hp⟩,
        by simpa [Pool.withLive, Pool.own, Pool.put, hpl] using hroot⟩
  · rw [wp_pure]
    exact ht

/-- **A `Reconcile` that isn't stopped makes nothing root's.** -/
theorem reconcile_rootsAt {lost : List EnvID} (hok : (Reconcile s).result = .ok lost) {p : Path}
    (hp : (Reconcile s).final.RootsAt p) : s.RootsAt p := by
  have hrun : wp Reconcile (fun _ _ => True) (fun _ t => ∀ p, t.RootsAt p → s.RootsAt p)
      (fun _ _ => True) s := by
    unfold Reconcile
    rw [wp_bind, wp_read]
    refine wp_eachWith s.envDirs (fun _ h => h) fun e _ lost t ht => ?_
    unfold reconcileDir
    split
    · rw [wp_pure]
      exact ht
    rw [wp_bind, wp_read]
    split
    · refine wp_seq ((clearing_rootsAt s _).reconcileEnv (C := fun _ => True) ht
        (fun _ _ => trivial) fun _ => wp_putBackLive_rootsAt) fun _ u hu => ?_
      rw [wp_pure]
      exact hu
    · refine wp_seq (P := fun _ t => ∀ p, t.RootsAt p → s.RootsAt p) ((wp_attempt _).mpr (wp_mono
        ((clearing_rootsAt s e).clearLeftovers ht) (fun _ _ _ => trivial) (fun _ _ h => h)
        fun _ _ h => h)) fun result u hu => ?_
      split
      · rw [wp_pure]
        exact hu
      · rw [wp_pure]
        exact hu
      · rw [wp_fail]
        trivial
  have hend := hrun.2
  rw [hok] at hend
  exact hend p hp

end Owners

/-! ### After a stop

What was seen at the stop is what recovery leaves, as recovery changes nothing that is seen but a
missing `live`; and a pool that is settled has none missing. -/

section After

variable {u v : Pool T} {e : EnvID} {r : Request T}

/-- What recovery promises of the whole pool. -/
structure Settled (v : Pool T) : Prop where
  /-- One row for each snapshot of an environment in the index. -/
  row : ∀ e x tree b, v.env? e ≠ none → v.node (.snap e x) = some (.subvol tree b) →
    ∃! row, row ∈ v.index.snaps ∧ row.key = (e, x)
  /-- No row without a snapshot. -/
  snap : ∀ row ∈ v.index.snaps, ∃ tree b, v.node (.snap row.env row.id) = some (.subvol tree b)
  /-- Nothing of a call that stopped. -/
  leftovers : ∀ e, v.env? e ≠ none → ∀ p ∈ [Path.marker e, .restore e, .adopt e], v.node p = none
  /-- No directory without a row. -/
  dirs : ∀ e, v.node (.envDir e) ≠ none → v.env? e ≠ none
  /-- A workspace for each environment that has it in its directory. -/
  live : ∀ e, v.HasLive e → ∃ tree b, v.node (.live e) = some (.subvol tree b)

omit [Tree T] in
theorem cleanEnv_of_ne_none (hclean : ∀ e, Clean True v e) (he : v.env? e ≠ none) :
    ∃ row, row.id = e ∧ CleanEnv True v row := by
  obtain ⟨row, hrow⟩ := Option.ne_none_iff_exists'.mp he
  exact ⟨row, Index.env?_id hrow, (hclean _).indexed row hrow⟩

omit [Tree T] in
theorem Clean.live_ne_none (h : Clean True v e) (hl : v.HasLive e) : v.node (.live e) ≠ none := by
  obtain ⟨row, hrow, hw⟩ := hl
  obtain rfl := Index.env?_id hrow
  exact hw ▸ (h.indexed row hrow).live hw

/-- What `Reconcile` leaves is settled. -/
theorem Settled.of_clean (hv : Sane True v) (hclean : ∀ e, Clean True v e) : Settled v := by
  have hsub : ∀ {p : Path} {n : Node T}, v.node p = some n → n.isSubvolume = true →
      ∃ tree b, v.node p = some (.subvol tree b) := by
    intro p n hn hsub
    cases n with
    | subvol tree b => exact ⟨tree, b, hn⟩
    | _ => cases hsub
  refine ⟨fun e x tree b he hn => ?_, fun row hrow => ?_, fun e he p hp => ?_, fun e he hc => ?_,
    fun e hl => ?_⟩
  · obtain ⟨_, rfl, hce⟩ := cleanEnv_of_ne_none hclean he
    obtain ⟨row, hrow⟩ := Option.ne_none_iff_exists'.mp ((hce.synced x).mpr (by rw [hn]; simp))
    obtain ⟨hmem, hkey⟩ := Index.snap?_eq_some.mp hrow
    refine ⟨row, ⟨hmem, hkey⟩, fun row' ⟨hmem', hkey'⟩ => ?_⟩
    exact List.inj_on_of_nodup_map v.index.keyUnique hmem' hmem (hkey'.trans hkey.symm)
  · have hsnap : v.index.snap? row.env row.id ≠ none := by
      rw [Index.snap?_eq_some.mpr ⟨hrow, rfl⟩]; simp
    obtain ⟨_, hid, hce⟩ := cleanEnv_of_ne_none hclean (Index.env?_of_snap? hsnap)
    obtain ⟨n, hn⟩ := Option.ne_none_iff_exists'.mp ((hid ▸ hce.synced row.id).mp hsnap)
    exact hsub hn (hv.holds _ n hn).1
  · obtain ⟨_, rfl, hce⟩ := cleanEnv_of_ne_none hclean he
    simp only [List.mem_cons, List.not_mem_nil, or_false] at hp
    rcases hp with rfl | rfl | rfl
    exacts [hce.marker, hce.restore trivial, hce.adopt]
  · exact he ((hclean e).unindexed hc _ rfl)
  · obtain ⟨n, hn⟩ := Option.ne_none_iff_exists'.mp ((hclean e).live_ne_none hl)
    exact hsub hn (hv.holds _ n hn)

/-- The places of the restores' snapshots that a `Reconcile` from `s` to `t` finds over a day
old. -/
def AgedPlaces (s t : Pool T) (q : Place) : Prop :=
  ∃ e x row, s.index.snap? e x = some row ∧ isPreRestore x = true ∧ Aged s t row ∧
    (q = .node (.snap e x) ∨ q = .snap e x)

/-- Where nothing is left to recover, recovery only removes old snapshots of restores. -/
theorem Recovered.aged {D : EnvID → Prop} (h : Recovered D s t) (hclean : ∀ e, Clean True s e) :
    Frame (AgedPlaces s t) s t := by
  have hexp : ∀ {e x}, s.env? e ≠ none → Expired s t e x →
      ∃ row, s.index.snap? e x = some row ∧ isPreRestore x = true ∧ Aged s t row := by
    rintro e x he ⟨hpre, ⟨hnone, hn⟩ | ⟨row, hrow, hold⟩⟩
    · obtain ⟨_, rfl, hce⟩ := cleanEnv_of_ne_none hclean he
      exact absurd hnone ((hce.synced x).mpr hn)
    · exact ⟨row, hrow, hpre, hold⟩
  refine ⟨fun p hp => ?_, fun e _ => h.env? e, fun e x hx => ?_, h.frame.clock, h.frame.ticks,
    h.frame.gitDir⟩
  · by_contra hne
    have hc : Recovery D s t (.node p) := by
      by_contra hc
      exact hne (h.frame.node p hc)
    rcases hc with ⟨e, _, hnone, hpe | hm⟩ | ⟨e, _, he, hpe, hn⟩ | ⟨e, row, _, hrow, hw, rfl, hn⟩ |
      ⟨e, x, _, he, rfl, hx⟩
    · -- There is nothing in a directory without a row, and nothing is made there.
      have hgone := (hclean e).unindexed hnone p hpe
      rcases h.node p with h' | h' | ⟨e', rfl, he', _⟩
      · exact hne h'
      · exact hne (h'.trans hgone.symm)
      · cases hpe
        exact he' hnone
    · rw [Pool.marker?_eq_some, (hclean e).unindexed hnone _ rfl] at hm
      cases hm
    · obtain ⟨_, rfl, hce⟩ := cleanEnv_of_ne_none hclean he
      simp only [List.mem_cons, List.not_mem_nil, or_false] at hpe
      rcases hpe with rfl | rfl | rfl
      exacts [hn (hce.restore trivial), hn hce.adopt, hn hce.marker]
    · exact (hclean e).live_ne_none ⟨row, hrow, hw⟩ hn
    · obtain ⟨row, hrow, hpre, hold⟩ := hexp he hx
      exact hp ⟨e, x, row, hrow, hpre, hold, .inl rfl⟩
  · by_contra hne
    have hc : Recovery D s t (.snap e x) := by
      by_contra hc
      exact hne (h.frame.snap e x hc)
    obtain ⟨_, he, hx' | hsync⟩ := hc
    · obtain ⟨row, hrow, hpre, hold⟩ := hexp he hx'
      exact hx ⟨e, x, row, hrow, hpre, hold, .inr rfl⟩
    · obtain ⟨_, rfl, hce⟩ := cleanEnv_of_ne_none hclean he
      exact hsync (hce.synced x)

/-- An environment is as before the request or as after it; a golden build that stopped may
have left its workspace empty. -/
def AsBeforeOrAfter (r : Request T) (s v : Pool T) (e : EnvID) : Prop :=
  v.view e = s.view e ∨ v.view e = (r.call s).final.view e ∨
    (∃ src, r = .buildSource e src) ∧
      v.view e = (s.view e).map (EnvView.withFiles (some (.subvol Tree.empty false)))

omit [Tree T] in
/-- Where a tidy pool shows an environment, its `live` is there. -/
theorem TidyAt.live_of_view (hs : TidyAt s e) (hview : t.view e = s.view e) (hl : t.HasLive e) :
    t.node (.live e) ≠ none := by
  obtain ⟨row, hrow, hw⟩ := hl
  cases hs' : s.env? e with
  | none =>
    rw [view_of_row hrow, view_eq_none.mpr hs'] at hview
    cases hview
  | some row' =>
    rw [view_of_row hrow, view_of_row hs', Option.some.injEq, EnvView.mk.injEq] at hview
    obtain ⟨hrows, hfiles, _⟩ := hview
    have hw' : row'.workspace = .live e := (congrArg EnvRow.workspace hrows).symm.trans hw
    rw [hw, hw'] at hfiles
    rw [hfiles]
    exact hs.live row' hs' hw'

/-- A stopped request shows every environment as before or as after. -/
theorem Tidy.stops_view (hs : Tidy s) (hname : Named s r) (ht : Stops r.call s t) (e : EnvID) :
    r.Before s t e ∨ t.view e = (r.call s).final.view e := by
  cases (hs.stops hname ht).2 with
  | own id hid hf =>
    by_cases he : e = id
    · subst he
      exact (commits_request hs hname hid).stops (.inl rfl) ht
    · have hws : ∀ w, r.Workspaces s id w → Path.IsWorkspace id w :=
        fun _ hw => hw.isWorkspace hs.toApart
      refine .inl (.inl (view_frame hf he (fun row hrow => ?_)
        (not_owns_env hws he rfl) fun _ _ => not_owns_env hws he rfl))
      exact not_owns_workspace (hs.workspace e row hrow) he
        (Request.Workspaces.not_other hs.toApart hrow he)
  | recovery _ hrec =>
    rcases hrec.view hs.toApart with h | ⟨⟨row, hrow, hw, hnone⟩, _⟩
    · exact .inl (.inl h)
    · exact absurd hnone ((hs.tidy e).live row hrow hw)

/-- Recovery after a stopped request leaves every environment as before it or as after it. -/
theorem Recovered.asBeforeOrAfter {D : EnvID → Prop} (h : Recovered D t v) (hs : Tidy s)
    (hname : Named s r) (ht : Stops r.call s t) (hv : Clean True v e) :
    AsBeforeOrAfter r s v e := by
  have ht' := (hs.stops hname ht).1
  rcases hs.stops_view hname ht e with (hview | ⟨hsrc, hl, hview⟩) | hview
  · rcases h.view ht'.toApart with hsame | ⟨⟨row, hrow, hw, hnone⟩, _⟩
    · exact .inl (hsame.trans hview)
    · exact absurd hnone ((hs.tidy e).live_of_view hview ⟨row, hrow, hw⟩)
  · -- The workspace a golden build removed is made again.
    obtain ⟨row, hrow, hw⟩ := hl
    rcases h.view ht'.toApart with hsame | ⟨_, hmade⟩
    · rw [hview, view_of_row hrow] at hsame
      cases hrow' : v.env? e with
      | none =>
        rw [view_eq_none.mpr hrow'] at hsame
        cases hsame
      | some row' =>
        rw [view_of_row hrow', Option.map_some, EnvView.withFiles, Option.some.injEq,
          EnvView.mk.injEq] at hsame
        have hw' : row'.workspace = .live e := (congrArg EnvRow.workspace hsame.1).trans hw
        exact absurd (hw' ▸ hsame.2.1) (hv.live_ne_none ⟨row', hrow', hw'⟩)
    · rw [hview, Option.map_map] at hmade
      exact .inr (.inr ⟨hsrc, hmade⟩)
  · rcases h.view ht'.toApart with hsame | ⟨⟨row, hrow, hw, hnone⟩, _⟩
    · exact .inr (.inl (hsame.trans hview))
    · exact absurd hnone (((hs.ends hname).tidy e).live_of_view hview ⟨row, hrow, hw⟩)

/-- A stopped request keeps the snapshots of the environments that are there. -/
theorem Tidy.stops_keepsSnap (hs : Tidy s) (hname : Named s r) (ht : Stops r.call s t)
    (he : t.env? e ≠ none) {x : SnapID} (hx : r ≠ .deleteSnapshot e x) : KeepsSnap s t e x := by
  cases (hs.stops hname ht).2 with
  | own id hid hf =>
    by_cases he' : e = id
    · subst he'
      rcases ht with rfl | ⟨o, ho⟩
      · exact KeepsSnap.refl _ e x
      · exact (keepsSnap_request hs hname hid).1 _ ho x he hx
    · exact KeepsSnap.frame hf (not_owns_env (fun _ hw => hw.isWorkspace hs.toApart) he' rfl) he'
  | recovery _ hrec =>
    exact hrec.keepsSnap hs.toApart (by rw [← hrec.env?]; exact he) x

end After

/-- **The store is crash-safe if no stop comes between a workspace and its owner.**  A request is
stopped anywhere, and `Reconcile` is run until one is not stopped; when that one begins, no
environment has a workspace that is root's but for those the request finds or makes so.  Then it
fails at nothing and loses nothing, and the pool is settled.  Every environment is as before the
request or as after it, its workspace's owner too, and keeps its snapshots but for the one to
delete and restores' over a day old.  One more `Reconcile` only finds more of those. -/
theorem crash_safe {s t u : Pool T} (hs : Between s) {r : Request T} (hr : Named s r)
    (ht : Stops r.call s t) (hu : Relation.ReflTransGen (Stops Reconcile) t u)
    (hgiven : GivenAway r s u) :
    (Reconcile u).result = .ok [] ∧ Settled (Reconcile u).final ∧
      (∀ e, AsBeforeOrAfter r s (Reconcile u).final e) ∧ GivenAway r s (Reconcile u).final ∧
      (∀ e x, (Reconcile u).final.env? e ≠ none → r ≠ .deleteSnapshot e x →
        KeepsSnap s (Reconcile u).final e x) ∧
      (Reconcile (Reconcile u).final).result = .ok [] ∧
      Frame (AgedPlaces (Reconcile u).final (Reconcile (Reconcile u).final).final)
        (Reconcile u).final (Reconcile (Reconcile u).final).final ∧
      ∀ p, (Reconcile (Reconcile u).final).final.RootsAt p → (Reconcile u).final.RootsAt p := by
  have htidy := hs.tidy
  obtain ⟨hsane, hchange⟩ := htidy.stops hr ht
  obtain ⟨husane, hurec⟩ := recovered_of_retries hsane hu
  obtain ⟨hok, ⟨hvsane, hvrec⟩, hclean⟩ := reconcile_spec husane
  obtain ⟨hok', ⟨_, hrec'⟩, _⟩ := reconcile_spec hvsane
  have hrec := Recovered.step hsane.toApart hurec hvrec
  refine ⟨hok, .of_clean hvsane hclean, fun e => hrec.asBeforeOrAfter htidy hr ht (hclean e),
    fun e row hrow hroot => ?_, fun e x he hx => ?_, hok', hrec'.aged hclean,
    fun _ => reconcile_rootsAt hok'⟩
  · exact hgiven e row ((hvrec.env? e).symm.trans hrow) (reconcile_rootsAt hok hroot)
  rw [hrec.env?] at he
  exact (htidy.stops_keepsSnap hr ht he hx).trans (hrec.keepsSnap hsane.toApart he x)
    hchange.clock hchange.ticks hrec.frame.ticks

/-- A create of `next`, whose worktree is gone, stopped once the worktree is made and given away,
and a `Reconcile` stopped after that. -/
def stoppedTwice : Pool (List String) :=
  Reconcile.stopAt 1 ((Request.create "next" {}).call.stopAt 3 worktreeGone)

theorem between_worktreeGone : Between worktreeGone :=
  .outside (.ends (.fresh Pool.new_fresh) (atThread "next") fun _ _ _ => (by simp [atThread]))
    worktreeGone_outside

theorem crash_safe_stoppedTwice :
    stoppedTwice.node (.worktree "repo" "thread") = some (.subvol [] false) ∧
      (Reconcile stoppedTwice).result = .ok [] ∧ Settled (Reconcile stoppedTwice).final ∧
      AsBeforeOrAfter (.create "next" {}) worktreeGone (Reconcile stoppedTwice).final "next" ∧
      ¬ (Reconcile stoppedTwice).final.RootsAt (.worktree "repo" "thread") := by
  have hgiven : GivenAway (.create "next" {}) worktreeGone stoppedTwice := by
    intro e row hrow hroot
    have henvs : stoppedTwice.index.envs = [⟨"next", .worktree "repo" "thread", "", 0, ""⟩] := by
      decide
    have hmem := (Index.env?_eq_some.mp hrow).1
    rw [henvs, List.mem_singleton] at hmem
    subst hmem
    exact absurd hroot.2 (by decide)
  obtain ⟨hok, hsettled, hview, hend, _⟩ := crash_safe between_worktreeGone
    (r := .create "next" {}) (fun _ _ _ => (by simp)) (stops_stopAt _ 3 _)
    (.single (stops_stopAt Reconcile 1 _)) hgiven
  refine ⟨by decide, hok, hsettled, hview "next", fun hroot => ?_⟩
  obtain ⟨⟨tree, b, hnode⟩, -⟩ | ⟨-, hafter⟩ :=
    hend "next" ⟨"next", .worktree "repo" "thread", "", 0, ""⟩ (by decide) hroot
  · have hgone : worktreeGone.node (.worktree "repo" "thread") = none := by decide
    cases hgone.symm.trans hnode
  · exact absurd hafter (by decide)

/-- Stopped one operation earlier, the create leaves a worktree that is root's: it was gone before,
and would have been the box user's.  Neither `Reconcile` nor another create gives it away. -/
theorem create_leaves_root :
    Between worktreeGone ∧ worktreeGone.node (.worktree "repo" "thread") = none ∧
      ((Request.create "next" {}).call worktreeGone).final.owner (.worktree "repo" "thread") =
        .box ∧
      ∃ t, Stops (Request.create "next" {}).call worktreeGone t ∧
        (Reconcile t).result = .ok [] ∧
        (Reconcile t).final.RootsAt (.worktree "repo" "thread") ∧
        ((Request.create "next" {}).call (Reconcile t).final).result = .ok () ∧
        ((Request.create "next" {}).call (Reconcile t).final).final.RootsAt
          (.worktree "repo" "thread") :=
  ⟨between_worktreeGone, by decide, by decide, _, stops_stopAt _ 2 _, by decide,
    ⟨⟨[], false, by decide⟩, by decide⟩, by decide, ⟨[], false, by decide⟩, by decide⟩

end Fern

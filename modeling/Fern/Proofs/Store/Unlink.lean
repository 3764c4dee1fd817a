/-
A cleanup that was stopped, and repeated.

`removeDisk` deletes the subvolumes and then everything else, the marker among it.  While the marker
is there the directory is garbage.  Once it is gone the directory is garbage only if it holds no
data, and `RemoveAll` may have come to the marker before Claude's files: then `Reconcile` reports
the directory as lost and `Create` refuses it.
-/
import Fern.Store.Unlink
import Fern.Proofs.Store.Separation

namespace Fern

open Call StoreM

variable {T : Type} [Tree T] {named : Prop} {s m t u : Pool T} {id : EnvID} {lose : T → T → Prop}

/-! ### What removals leave -/

/-- `t` is `m` with less in environment `id`'s directory. -/
structure Thinned (id : EnvID) (m t : Pool T) : Prop where
  index : t.index = m.index
  full : t.full = m.full
  gitDir : t.gitDir = m.gitDir
  other : ∀ p : Path, p.env? ≠ some id → t.node p = m.node p
  less : ∀ p n, t.node p = some n →
    m.node p = some n ∨ ∃ a b, m.node p = some (.plain a) ∧ n = .plain b
  inside : ∀ p : Path, p.env? = some id → t.node p ≠ none → t.node (.envDir id) ≠ none

theorem isBelow_envDir {p : Path} (hp : p.env? = some id) (hne : p ≠ .envDir id) :
    p.isBelow (.envDir id) = true := by
  cases p <;> simp_all [Path.env?, Path.isBelow, Path.parent?]

theorem Thinned.unlink (h : Thinned id m t) (hstep : Unlink lose id t u) : Thinned id m u := by
  cases hstep with
  | @entry p tree tree' hp hnode hlose =>
    refine ⟨h.index, h.full, h.gitDir, fun q hq => ?_, fun q n hn => ?_, fun q hq hn => ?_⟩
    · rw [Pool.node_put, if_neg (by rintro rfl; exact hq hp)]
      exact h.other q hq
    · rw [Pool.node_put] at hn
      split at hn
      · rename_i hqp
        cases hn
        rw [hqp]
        rcases h.less p _ hnode with hm | ⟨a, b, hm, hab⟩
        · exact .inr ⟨tree, tree', hm, rfl⟩
        · exact .inr ⟨a, tree', hm, rfl⟩
      · exact h.less q n hn
    · have hdir : t.node (.envDir id) ≠ none := h.inside p hp (by simp [hnode])
      rw [Pool.node_put]
      split
      · simp
      · exact hdir
  | @path p n hp hnode hempty hbelow =>
    refine ⟨h.index, h.full, h.gitDir, fun q hq => ?_, fun q n hn => ?_, fun q hq hn => ?_⟩
    · rw [Pool.node_drop, if_neg (by rintro rfl; exact hq hp)]
      exact h.other q hq
    · rw [Pool.node_drop] at hn
      split at hn
      · cases hn
      · exact h.less q n hn
    · rw [Pool.node_drop] at hn
      split at hn
      · exact absurd rfl hn
      · rename_i hqp
        rw [Pool.node_drop, if_neg]
        · exact h.inside q hq hn
        · -- the directory goes last
          rintro rfl
          exact hn (hbelow q (isBelow_envDir hq hqp))

theorem Sane.thinned (hs : Sane named m)
    (hrun : Relation.ReflTransGen (Unlink lose id) m t) : Thinned id m t := by
  induction hrun with
  | refl => exact ⟨rfl, rfl, rfl, fun _ _ => rfl, fun _ _ => Or.inl, fun p hp => hs.inside p id hp⟩
  | tail _ hstep ih => exact ih.unlink hstep

omit [Tree T] in
theorem Thinned.marker? (h : Thinned id m t) {e : EnvID} {w : Option Path}
    (hw : t.marker? e = some w) : m.marker? e = some w := by
  rw [Pool.marker?_eq_some] at hw ⊢
  rcases h.less _ _ hw with hm | ⟨a, b, _, hab⟩
  · exact hm
  · cases hab

omit [Tree T] in
theorem Path.Holds.plain {p : Path} {a b : T} (h : p.Holds named (.plain a)) :
    p.Holds named (.plain b) := by
  cases p <;> simp_all [Path.Holds, Node.isSubvolume]

/-- What removals leave is a sane pool as long as the directory is marked or holds no data. -/
theorem Sane.of_thinned (hs : Sane named m) (hnone : m.env? id = none) (h : Thinned id m t)
    (hkept : t.node (.marker id) ≠ none ∨ NoData t id) : Sane named t := by
  have henv : ∀ e, t.env? e = m.env? e := fun e => by rw [Pool.env?, h.index]; rfl
  have hrow : ∀ e, t.env? e ≠ none → e ≠ id := by
    rintro e he rfl
    exact he ((henv e).trans hnone)
  have hsame : ∀ (p : Path) (e : EnvID), p.env? = some e → e ≠ id → t.node p = m.node p :=
    fun p e hp he => h.other p (by rw [hp]; simpa using he)
  refine ⟨⟨?_, ?_, ?_⟩, ?_, ?_, ?_, ?_, ?_⟩
  · intro e row he
    exact hs.workspace e row ((henv e).symm.trans he)
  · intro e p hp
    exact hs.marked e p (h.marker? hp)
  · intro e p hp e' row he' hw
    exact hs.taken e p (h.marker? hp) e' row ((henv e').symm.trans he') hw
  · intro p n hn
    rcases h.less p n hn with hm | ⟨a, b, hm, rfl⟩
    · exact hs.holds p n hm
    · exact (hs.holds p _ hm).plain
  · intro p e hp hn
    by_cases he : e = id
    · subst he
      exact h.inside p hp hn
    · rw [hsame p e hp he] at hn
      rw [hsame _ e rfl he]
      exact hs.inside p e hp hn
  · intro e he
    have hne := hrow e he
    rw [hsame _ e rfl hne, hsame _ e rfl hne, hsame _ e rfl hne]
    exact hs.indexed e (by rw [← henv]; exact he)
  · intro e
    by_cases he : e = id
    · subst he
      exact hkept.imp_left Or.inr
    · unfold Claimed NoData
      rw [henv, hsame _ e rfl he, hsame _ e rfl he, hsame _ e rfl he]
      simp only [fun x => hsame (.snap e x) e rfl he]
      exact hs.unindexed e
  · intro e x hx
    rw [h.index] at hx
    exact hs.snapNames e x hx

/-! ### The subvolumes -/

theorem wp_removeSubvolumes {workspace : Option Path} (hs : Sane named s)
    (hws : ∀ w, workspace = some w → Path.IsWorkspace id w) :
    wp (removeSubvolumes id workspace)
      (fun _ t => Sane named t ∧ t.env? id = s.env? id ∧ t.marker? id = s.marker? id)
      (fun _ t => Sane named t ∧ t.env? id = s.env? id ∧ t.marker? id = s.marker? id)
      (fun _ _ => False) s := by
  have hto : ∀ t, Sane named t ∧ Shed (removePaths s id workspace) s t →
      Sane named t ∧ t.env? id = s.env? id ∧ t.marker? id = s.marker? id := by
    rintro t ⟨ht, hshed⟩
    refine ⟨ht, by rw [Pool.env?, hshed.index]; rfl, hshed.frame.marker? ?_⟩
    intro hmem
    rcases List.mem_append.mp hmem with hmem | hmem
    · rcases List.mem_append.mp hmem with hmem | hmem
      · simp at hmem
      · exact (hws _ (by simpa using (List.mem_filter.mp hmem).1)).ne_marker id rfl
    · obtain ⟨x, _, hx⟩ := List.mem_map.mp hmem
      cases hx
  unfold removeSubvolumes
  rw [wp_bind, wp_read]
  exact wp_mono (wp_deleteSubvolumes hs (removePaths_nodup s hws)) (fun _ t => hto t)
    (fun _ t ht => hto t ht.1) fun _ _ h => h

theorem Interrupted.thinned {workspace : Option Path} (hs : Sane named s) (hnone : s.env? id = none)
    (hmark : s.marker? id = some workspace) (h : Interrupted lose id workspace s t) :
    ∃ m, Sane named m ∧ m.env? id = none ∧ m.marker? id = some workspace ∧ Thinned id m t := by
  have hws : ∀ w, workspace = some w → Path.IsWorkspace id w := fun w hw =>
    hs.marked id w (by rw [hmark, hw])
  have hspec := wp_removeSubvolumes hs hws
  rcases h with hstop | ⟨hok, hrun⟩
  · have ht : Sane named t ∧ t.env? id = s.env? id ∧ t.marker? id = s.marker? id := by
      rcases hstop with rfl | ⟨o, ho⟩
      · exact ⟨hs, rfl, rfl⟩
      · exact hspec.1 _ ho
    have hrun : Relation.ReflTransGen (Unlink lose id) t t := .refl
    exact ⟨t, ht.1, ht.2.1.trans hnone, ht.2.2.trans hmark, ht.1.thinned hrun⟩
  · have hm := hspec.2
    rw [hok] at hm
    exact ⟨_, hm.1, hm.2.1.trans hnone, hm.2.2.trans hmark, hm.1.thinned hrun⟩

/-! ### A directory the index has lost

With data in it and neither row nor marker, nothing may touch it: `Reconcile` passes it by and
reports it. -/

/-- Environment `id`, which has no row, is as in `t`, and markers name workspaces of their own. -/
structure LeftAlone (id : EnvID) (t u : Pool T) : Prop where
  node : ∀ p : Path, p.env? = some id → u.node p = t.node p
  row : u.env? id = none
  marked : ∀ e p, u.marker? e = some (some p) → Path.IsWorkspace e p

/-- An operation that changes nothing of environment `id`, nor what a marker names. -/
structure Op.Spares (id : EnvID) (o : Op T) : Prop where
  node : ∀ p : Path, p.env? = some id → ¬ o.writes (.node p)
  row : ¬ o.writes (.env id)
  marker : (∀ e w, o ≠ .writeMarker e w) ∧ ∀ p q, o ≠ .exchange p q

omit [Tree T] in
theorem Op.Spares.of_path {o : Op T} {p : Path} (hp : p.env? ≠ some id)
    (hwrites : ∀ q, o.writes q → q = .node p) (hmarker : ∀ e w, o ≠ .writeMarker e w)
    (hexchange : ∀ p q, o ≠ .exchange p q) : o.Spares id := by
  refine ⟨fun q hq hw => ?_, fun hw => ?_, hmarker, hexchange⟩
  · have hqp := hwrites _ hw
    cases hqp
    exact hp hq
  · have hqp := hwrites _ hw
    cases hqp

omit [Tree T] in
theorem Op.Spares.of_index {o : Op T} (hwrites : ∀ q, o.writes q → ∃ e x, q = .snap e x)
    (hmarker : ∀ e w, o ≠ .writeMarker e w) (hexchange : ∀ p q, o ≠ .exchange p q) :
    o.Spares id := by
  refine ⟨fun q _ hw => ?_, fun hw => ?_, hmarker, hexchange⟩
  · obtain ⟨e, x, hq⟩ := hwrites _ hw
    cases hq
  · obtain ⟨e, x, hq⟩ := hwrites _ hw
    cases hq

theorem LeftAlone.run {o : Op T} {v : Pool T} (h : LeftAlone id t u) (ho : o.Spares id)
    (hv : o.run u = .ok v) : LeftAlone id t v := by
  refine ⟨fun p hp => ?_, ?_, fun e p hp => ?_⟩
  · exact ((Op.run_frame hv).node p (ho.node p hp)).trans (h.node p hp)
  · exact ((Op.run_frame hv).env id ho.row).trans h.row
  · rcases Op.run_marker hv hp with h' | h' | ⟨a, b, h', _⟩
    · exact h.marked e p h'
    · exact absurd h' (ho.marker.1 e p)
    · exact absurd h' (ho.marker.2 a b)

theorem LeftAlone.keeps_op {o : Op T} (h : LeftAlone id t u) (ho : o.Spares id) :
    Keeps (LeftAlone id t) (op o) u :=
  keeps_perform h fun _ hv => h.run ho hv

/-- What recovery clears of another environment. -/
theorem LeftAlone.clearing {e : EnvID} (he : e ≠ id) :
    Clearing (LeftAlone id t) (fun p => p.env? ≠ some id) e where
  inside p hp := by
    rw [hp]
    simpa using he
  marked u w hu hw := by
    rcases (hu.marked e w hw).env? with hp | hp
    · rw [hp]
      simpa using he
    · simp [hp]
  removes o u v ho hu hv := by
    refine hu.run ?_ hv
    cases o <;> simp only [Op.Removes] at ho
    case removeAll p =>
      subst ho
      refine ⟨?_, nofun, by simp, by simp⟩
      rintro p hp ⟨q, hq, hqe⟩
      cases hq
      exact he (Option.some.inj (hqe.symm.trans hp))
    all_goals exact .of_path ho (fun _ h => h) (by simp) (by simp)
  clears o u v ho hu hv := by
    refine hu.run ?_ hv
    cases o <;> simp only [Op.Clears] at ho
    case clock => exact .of_index (fun _ h => h.elim) (by simp) (by simp)
    case removeAll | remove =>
      subst ho
      exact .of_path (by simpa [Path.env?] using he) (fun _ h => h) (by simp) (by simp)
    case deleteSnapshot => exact .of_index (by rintro _ rfl; exact ⟨_, _, rfl⟩) (by simp) (by simp)
    case recoverSnapshots =>
      exact .of_index (by rintro _ ⟨x, rfl⟩; exact ⟨_, x, rfl⟩) (by simp) (by simp)

variable {e : EnvID}

theorem LeftAlone.putBackLive {env : EnvRow} (h : LeftAlone id t u) (he : env.id ≠ id) :
    Keeps (LeftAlone id t) (putBackLive env) u := by
  unfold Fern.putBackLive
  rw [keeps_read_bind]
  split
  · rename_i hlive
    unfold makeWorkspace
    rw [keeps_read_bind, hlive.1, hlive.2]
    refine keeps_bind (I := LeftAlone id t) (c := makeParent (.live env.id)) ?_ fun _ v hv => ?_
    · exact (keeps_pure ()).mpr h
    · exact keeps_bind (hv.keeps_op (.of_path (p := .live env.id) (by simpa [Path.env?] using he)
        (fun _ h => h) (by simp) (by simp)))
        fun _ w hw => hw.keeps_op (.of_index (fun _ h => h.elim) (by simp) (by simp))
  · rw [keeps_pure]
    exact h

theorem clearLeftovers_refuses (hdir : s.node (.envDir id) ≠ none)
    (hmark : s.node (.marker id) = none) (hdata : ¬ NoData s id) :
    clearLeftovers id s = (fail .unindexed : StoreM T Unit) s := by
  have hholds : holdsData s id = true := by
    rw [← holdsData_eq_false_iff] at hdata
    simpa using hdata
  obtain ⟨n, hn⟩ := Option.ne_none_iff_exists'.mp hdir
  unfold clearLeftovers
  rw [read_bind, hn]
  simp [Pool.marker?, hmark, hholds]

theorem LeftAlone.noData (h : LeftAlone id t u) : NoData u id ↔ NoData t id := by
  unfold NoData
  rw [h.node _ rfl, h.node (.claude id) rfl]
  simp only [fun x => h.node (.snap id x) rfl]

/-- `Reconcile` goes over the other directories without touching one the index has lost, and reports
that one. -/
theorem wp_reconcileDir_lost {lost : List EnvID} (h : LeftAlone id t u)
    (hid : checkEnvID id = true) (hdir : t.node (.envDir id) ≠ none)
    (hmark : t.node (.marker id) = none) (hdata : ¬ NoData t id) :
    wp (reconcileDir lost e) (fun _ _ => True)
      (fun lost' v => LeftAlone id t v ∧ (∀ a ∈ lost, a ∈ lost') ∧ (e = id → id ∈ lost'))
      (fun _ _ => True) u := by
  by_cases he : e = id
  · subst he
    have hrefuse : clearLeftovers e u = (fail .unindexed : StoreM T Unit) u := by
      refine clearLeftovers_refuses ?_ ?_ fun hc => hdata (h.noData.mp hc)
      · rw [h.node _ rfl]
        exact hdir
      · rw [h.node _ rfl]
        exact hmark
    have hdir : reconcileDir lost e u = (pure (lost ++ [e]) : StoreM T (List EnvID)) u := by
      unfold reconcileDir
      rw [if_neg (by simp [hid]), read_bind, h.row]
      show next (attempt (clearLeftovers e) u) _ = _
      unfold attempt
      rw [hrefuse]
      rfl
    rw [wp_congr hdir, wp_pure]
    exact ⟨h, fun a ha => List.mem_append_left _ ha, fun _ => by simp⟩
  · have hto : ∀ {v : Pool T} {lost' : List EnvID}, LeftAlone id t v → (∀ a ∈ lost, a ∈ lost') →
        LeftAlone id t v ∧ (∀ a ∈ lost, a ∈ lost') ∧ (e = id → id ∈ lost') :=
      fun hv hl => ⟨hv, hl, fun hc => absurd hc he⟩
    unfold reconcileDir
    split
    · rw [wp_pure]
      exact hto h fun a ha => List.mem_append_left _ ha
    rw [wp_bind, wp_read]
    split
    · rename_i env henv
      have hrow := Index.env?_id henv
      subst hrow
      refine wp_seq (P := fun _ => LeftAlone id t) (wp_mono
        ((LeftAlone.clearing he).reconcileEnv h (fun _ hv => hv) fun _ hv => hv.putBackLive he)
        (fun _ _ _ => trivial) (fun _ _ hv => hv) fun _ _ _ => trivial) fun _ v hv => ?_
      rw [wp_pure]
      exact hto hv fun _ ha => ha
    · refine wp_seq (P := fun _ => LeftAlone id t) ((wp_attempt _).mpr
        (wp_mono ((LeftAlone.clearing he).clearLeftovers h) (fun _ _ _ => trivial)
          (fun _ _ hv => hv)
          fun _ _ hv => hv)) fun result v hv => ?_
      split
      · rw [wp_pure]
        exact hto hv fun _ ha => ha
      · rw [wp_pure]
        exact hto hv fun a ha => List.mem_append_left _ ha
      · rw [wp_fail]
        trivial

theorem reconcile_reports (h : LeftAlone id t t) (hid : checkEnvID id = true)
    (hdir : t.node (.envDir id) ≠ none) (hmark : t.node (.marker id) = none)
    (hdata : ¬ NoData t id) {lost : List EnvID} (hok : (Reconcile t).result = .ok lost) :
    id ∈ lost := by
  have hrun : wp Reconcile (fun _ _ => True)
      (fun lost u => LeftAlone id t u ∧ (id ∈ t.envDirs → id ∈ lost)) (fun _ _ => True) t := by
    unfold Reconcile
    rw [wp_bind, wp_read]
    refine wp_eachWith_done (I := fun done lost u => LeftAlone id t u ∧ (id ∈ done → id ∈ lost))
      t.envDirs ⟨h, by simp⟩ ?_
    rintro done a rest - lost u ⟨hu, hlost⟩
    refine wp_mono (wp_reconcileDir_lost hu hid hdir hmark hdata) (fun _ _ h => h) ?_ fun _ _ h => h
    rintro lost' v ⟨hv, hmore, hown⟩
    refine ⟨hv, fun hmem => ?_⟩
    rcases List.mem_append.mp hmem with hmem | hmem
    · exact hmore id (hlost hmem)
    · exact hown (List.mem_singleton.mp hmem).symm
  have hend := hrun.2
  rw [hok] at hend
  exact hend.2 (Pool.mem_envDirs.mpr hdir)

/-! ### A create of the same environment

Clearing what is left can take away no more of the rest than a worktree, so a create goes as it
would from the cleared pool. -/

/-- `live` is made in the folder of a new environment, unless it is there. -/
theorem wp_makeOwnLive (hs : Sane named s) (hdirs : HasDirs s id) :
    wp (makeWorkspace id (.live id) none) (fun _ _ => True)
      (fun _ t => Sane named t ∧ Frame (WorkspacePlaces id (.live id)) s t)
      (fun _ _ => False) s := by
  have hclaim : Claimed s id := Or.inr (by rw [Pool.marker?_eq_some.mp hdirs.marker]; simp)
  have hmade : wp (makeWorkspace id (.live id) none) (fun _ _ => True) (fun _ _ => True)
      (fun _ _ => False) s := by
    cases hlive : s.node (.live id) with
    | none =>
      obtain ⟨d, hd⟩ := Option.ne_none_iff_exists'.mp hdirs.envDir
      exact wp_makeLive hlive
        (.inl (Pool.hasParent_of_dir rfl (by rw [hd, (hs.holds _ d hd).1])))
        (fun _ => trivial) trivial
    | some n =>
      have hsub := hs.holds _ n hlive
      unfold makeWorkspace
      rw [wp_bind, wp_read, hlive]
      cases n <;> simp [Path.Holds, Node.isSubvolume] at hsub
      rw [wp_pure]
      trivial
  exact wp_mono (wp_and (wp_makeWorkspace hs hclaim .live) hmade) (fun _ _ _ => trivial)
    (fun _ t ht => ⟨ht.1.1.2, ht.1.1.1⟩) fun _ _ h => h.2

/-- Without a caller's choices, a create gets to its row if `repoGitDir` gives a git folder. -/
theorem wp_prepare_plain (hs : Sane named s) (hid : checkEnvID id = true) (hnone : s.env? id = none)
    {git : String} (hgit : s.gitDir (.live id) = .ok git) :
    wp (prepare id ({} : CreateOptions T)) (fun _ _ => True)
      (fun row t => (row.id = id ∧ row.workspace = .live id) ∧ Sane named t ∧
        t.env? id = none ∧ t.marker? id = some none)
      (fun _ _ => False) s := by
  unfold prepare
  refine wp_seq (P := fun w t => w = .live id ∧ t = s) ((wp_pure _).mpr ⟨rfl, rfl⟩) ?_
  rintro _ _ ⟨rfl, rfl⟩
  refine wp_step (wp_makeEnvDir hs hid hnone) (fun _ _ _ => trivial) (fun _ _ h => h) ?_
  rintro _ t ⟨ht, hdirs⟩
  refine wp_seq (P := fun _ u => Sane named u ∧ Frame (WorkspacePlaces id (.live id)) t u) ?_ ?_
  · unfold fillWorkspace
    refine wp_seq (P := fun golden u => golden = none ∧ u = t) ((wp_pure _).mpr ⟨rfl, rfl⟩) ?_
    rintro _ _ ⟨rfl, rfl⟩
    exact wp_seq (wp_makeOwnLive ht.2 hdirs) fun _ u hu => (wp_pure _).mpr hu
  · rintro _ u ⟨hu, hframe⟩
    rw [wp_bind, wp_read, hframe.gitDir, ht.1.gitDir, hgit]
    refine wp_timeNow trivial ?_
    rw [wp_pure]
    refine ⟨⟨rfl, rfl⟩, (Sound.tick (P := fun _ => False) hu).2, ?_, ?_⟩
    · exact (hframe.env id fun h => h).trans ((ht.1.env id fun h => h).trans hnone)
    · exact (hframe.marker? (by simp [WorkspacePlaces])).trans hdirs.marker

/-- A pool that isn't full takes a new environment, whatever a stopped call left of it. -/
theorem create_plain_ok (hs : Sane named s) (hid : checkEnvID id = true) (hnone : s.env? id = none)
    (hfull : s.full = false) {git : String} (hgit : s.gitDir (.live id) = .ok git) :
    ∃ row, (Create id ({} : CreateOptions T) s).result = .ok row := by
  have hcreate : Create id ({} : CreateOptions T) s = create id {} s := by
    unfold Create
    rw [if_neg (by simp [hid]), read_bind, hnone]
    simp only [Option.isSome_none, Bool.false_and, Bool.false_eq_true, if_false]
    refine bind_of_pure (a := ()) ?_ _
    unfold checkFree
    rw [read_bind, hfull]
    rfl
  have hrun : wp (create id ({} : CreateOptions T)) (fun _ _ => True) (fun _ _ => True)
      (fun _ _ => False) s := by
    unfold create
    refine wp_seq (wp_prepare_plain hs hid hnone hgit) ?_
    rintro row t ⟨⟨hrow, hws⟩, ht, henv, hmark⟩
    have hinsert : ∃ y, t.index.insertEnv row = .ok y := by
      refine Index.insertEnv_ok (by rw [hrow]; exact henv) fun e r hr hc => ?_
      have hisw := ht.workspace e r hr
      rw [hc, hws] at hisw
      cases hisw
      rw [show t.index.env? id = none from henv] at hr
      cases hr
    obtain ⟨y, hy⟩ := hinsert
    refine wp_seq (P := fun _ u => u.marker? id = some none) (wp_op (fun u hu => ?_)
      fun e he => ?_) ?_
    · obtain ⟨x, _, rfl⟩ := Op.run_insertEnv hu
      exact ⟨trivial, hmark⟩
    · simp [Op.run, hy, bind, Except.bind, pure, Except.pure] at he
    · intro _ u hu
      refine wp_seq (P := fun _ _ => True) (wp_op (fun _ _ => ⟨trivial, trivial⟩) fun e he => ?_)
        fun _ _ _ => (wp_pure _).mpr trivial
      simp [Op.run, Pool.marker?_eq_some.mp hu] at he
  rw [hcreate]
  have hend := hrun.2
  cases hres : (create id ({} : CreateOptions T) s).result with
  | ok row => exact ⟨row, rfl⟩
  | error e =>
    rw [hres] at hend
    exact hend.elim

/-- What clearing an environment's leftovers changes of the rest: a worktree it deletes. -/
structure Stripped (t u : Pool T) : Prop where
  index : u.index = t.index
  full : u.full = t.full
  node : ∀ p : Path, p.env? = none → u.node p = t.node p ∨
    u.node p = none ∧ ∃ tree nested, t.node p = some (.subvol tree nested)

omit [Tree T] in
theorem Stripped.drop (h : Stripped t u) {p : Path} {tree : T} {nested : Bool}
    (hp : u.node p = some (.subvol tree nested)) : Stripped t (u.drop p) := by
  refine ⟨h.index, h.full, fun q hq => ?_⟩
  rw [Pool.node_drop]
  split
  · rename_i hqp
    subst hqp
    rcases h.node q hq with hsame | ⟨hgone, _⟩
    · exact .inr ⟨rfl, tree, nested, hsame.symm.trans hp⟩
    · rw [hgone] at hp
      cases hp
  · exact h.node q hq

theorem Stripped.deleted {v : Pool T} {p : Path} (h : Stripped t u)
    (hv : (Op.deleteSubvolume p).run u = .ok v ∨ (Op.deleteNested p).run u = .ok v) :
    Stripped t v := by
  cases hnode : u.node p with
  | none => simp [Op.run, hnode] at hv
  | some n =>
    cases n with
    | subvol tree nested =>
      cases nested <;> simp [Op.run, hnode] at hv <;> subst hv <;> exact h.drop hnode
    | _ => simp [Op.run, hnode] at hv

theorem Stripped.removing (t : Pool T) (id : EnvID) : Removing (Stripped t) (fun _ => True) id where
  inside _ _ := trivial
  marked _ _ _ _ := trivial
  removes o u v ho hu hv := by
    cases o <;> simp only [Op.Removes] at ho
    case deleteSubvolume => exact hu.deleted (.inl hv)
    case deleteNested => exact hu.deleted (.inr hv)
    case removeAll =>
      subst ho
      cases hv
      refine ⟨hu.index, hu.full, fun p hp => ?_⟩
      have hsame : Pool.node { u with disk := u.disk.eraseIf fun q => q.env? = some id } p =
        u.node p := by
        simp [Pool.node, hp]
      rw [hsame]
      exact hu.node p hp

theorem keeps_stripped (t : Pool T) (id : EnvID) : Keeps (Stripped t) (clearLeftovers id) t :=
  (Stripped.removing t id).clearLeftovers ⟨rfl, rfl, fun _ _ => Or.inl rfl⟩

/-- Whether a symlink is there. -/
def isLink : Option (Node T) → Bool
  | some .link => true
  | _ => false

omit [Tree T] in
theorem checkWorkspace_result (s : Pool T) (r n : String) :
    (checkWorkspace (.worktree r n) s).result =
      if (pathPart r && pathPart n) && !isLink (s.node (.worktree r n)) &&
          !isLink (s.node (.repo r)) && (s.index.envAt? (.worktree r n)).isNone then
        .ok (.worktree r n)
      else .error .invalidPath := by
  unfold checkWorkspace
  dsimp only
  rw [read_bind]
  cases hpart : pathPart r && pathPart n with
  | false => rfl
  | true =>
    rcases s.node (.worktree r n) with _ | (_ | _ | _ | _ | _ | _ | _) <;>
      rcases s.node (.repo r) with _ | (_ | _ | _ | _ | _ | _ | _) <;>
        cases s.index.envAt? (.worktree r n) <;> rfl

omit [Tree T] in
/-- A deleted worktree was no symlink, so a path that could be a workspace still can. -/
theorem Stripped.isLink (h : Stripped t u) {p : Path} (hp : p.env? = none) :
    isLink (u.node p) = isLink (t.node p) := by
  rcases h.node p hp with hsame | ⟨hgone, tree, nested, hsub⟩
  · rw [hsame]
  · rw [hgone, hsub]
    rfl

omit [Tree T] in
theorem Stripped.workspaceOf (h : Stripped t u) (arg : Option PathArg) :
    (workspaceOf id arg t).result = (workspaceOf id arg u).result := by
  cases arg with
  | none => rfl
  | some arg =>
    cases arg with
    | elsewhere => rfl
    | worktree r n =>
      show (checkWorkspace _ t).result = (checkWorkspace _ u).result
      rw [checkWorkspace_result, checkWorkspace_result, h.isLink rfl, h.isLink rfl, h.index]

omit [Tree T] in
theorem workspaceOf_final (arg : Option PathArg) (s : Pool T) : (workspaceOf id arg s).final = s :=
  wp_final (I := (· = s)) (wp_mono (wp_workspaceOf (C := fun _ _ => True) id arg s)
    (fun _ _ h => h) (fun _ _ h => h.1) fun _ _ h => h)

omit [Tree T] in
theorem Stripped.checkFree (h : Stripped t u) :
    (checkFree t : Outcome (Pool T) (Op T) Err Unit).result = (checkFree u).result := by
  unfold Fern.checkFree
  rw [read_bind, read_bind, h.full]
  cases t.full <;> rfl

omit [Tree T] in
theorem checkFree_final (s : Pool T) :
    (checkFree s : Outcome (Pool T) (Op T) Err Unit).final = s :=
  wp_final (I := (· = s)) (wp_checkFree (C := fun _ _ => True) s)

theorem alike_clearLeftovers (hok : (clearLeftovers id t).result = .ok ())
    (hgone : (clearLeftovers id t).final.node (.envDir id) = none) :
    Alike (clearLeftovers id t) (clearLeftovers id (clearLeftovers id t).final) := by
  have hnothing : clearLeftovers id (clearLeftovers id t).final =
      (pure () : StoreM T Unit) (clearLeftovers id t).final := by
    generalize (clearLeftovers id t).final = u at hgone
    unfold clearLeftovers
    rw [read_bind, hgone]
  rw [hnothing, Alike, hok]
  exact ⟨rfl, fun _ _ => rfl⟩

theorem alike_create (hstrip : Stripped t u)
    (hclear : Alike (clearLeftovers id t) (clearLeftovers id u)) (opts : CreateOptions T) :
    Alike (create id opts t) (create id opts u) := by
  unfold create
  refine Alike.bind ?_ _
  unfold prepare
  refine Alike.bind_of (hstrip.workspaceOf opts.workspace) fun w _ => ?_
  rw [workspaceOf_final, workspaceOf_final]
  refine Alike.bind ?_ _
  unfold makeEnvDir
  exact hclear.bind _

theorem Create_result (hs : Sane named t) (hid : checkEnvID id = true) (hnone : t.env? id = none)
    (opts : CreateOptions T) :
    (Create id opts t).result = (Create id opts (clearLeftovers id t).final).result := by
  have hspec := wp_clearLeftovers hs hnone
  have hok : (clearLeftovers id t).result = .ok () := by
    have hend := hspec.2
    cases hres : (clearLeftovers id t).result with
    | ok _ => rfl
    | error e =>
      rw [hres] at hend
      exact hend.elim
  have hgone : (clearLeftovers id t).final.node (.envDir id) = none := by
    have hend := hspec.2
    rw [hok] at hend
    exact hend.2 _ rfl
  have hclear := alike_clearLeftovers hok hgone
  have hstrip : Stripped t (clearLeftovers id t).final := (keeps_stripped t id).final
  have hnone' : (clearLeftovers id t).final.env? id = none := by
    rw [Pool.env?, hstrip.index]
    exact hnone
  generalize (clearLeftovers id t).final = u at hclear hstrip hnone'
  unfold Create
  simp only [hid, Bool.not_true, Bool.false_eq_true, if_false]
  rw [read_bind, read_bind, hnone, hnone']
  dsimp only
  cases opts.fork.isSome && (opts.workspace.isSome || opts.seed.isSome || opts.from.isSome) with
  | true => rfl
  | false =>
    simp only [Bool.false_eq_true, if_false]
    refine (Alike.bind_of hstrip.checkFree fun _ _ => ?_).1
    rw [checkFree_final, checkFree_final]
    exact alike_create hstrip hclear opts

/-! ### A cleanup repeated -/

/-- What is to be possible after a cleanup was stopped: `Reconcile` removes the rest and doesn't
report the directory, and a `Create` succeeds as it would with nothing left. -/
structure CanRepeat (t : Pool T) (id : EnvID) : Prop where
  reconcile : ∃ lost, (Reconcile t).result = .ok lost ∧ id ∉ lost
  removed : ∀ p : Path, p.env? = some id → (Reconcile t).final.node p = none
  create : t.full = false → ∀ git, t.gitDir (.live id) = .ok git →
    ∃ row, (Create id ({} : CreateOptions T) t).result = .ok row
  cleared : ∀ p : Path, p.env? = some id → (clearLeftovers id t).final.node p = none
  anew : ∀ opts, (Create id opts t).result = (Create id opts (clearLeftovers id t).final).result

theorem canRepeat_of_sane (hs : Sane named t) (hid : checkEnvID id = true)
    (hnone : t.env? id = none) :
    CanRepeat t id := by
  obtain ⟨hok, ⟨hsane, hrec⟩, hclean⟩ := reconcile_spec hs
  refine ⟨⟨[], hok, by simp⟩, (hclean id).unindexed ((hrec.env? id).trans hnone), ?_, ?_,
    Create_result hs hid hnone⟩
  · intro hfull git hgit
    exact create_plain_ok hs hid hnone hfull hgit
  · have hend := (wp_clearLeftovers hs hnone).2
    cases hres : (clearLeftovers id t).result with
    | ok _ =>
      rw [hres] at hend
      exact hend.2
    | error e =>
      rw [hres] at hend
      exact hend.elim

/-- **A cleanup that was stopped anywhere can be repeated just if its marker is still there, or the
directory holds no data any more.** -/
theorem cleanup_repeats_iff (named : Prop) (lose : T → T → Prop) (s t : Pool T) (id : EnvID)
    (workspace : Option Path) (hs : Sane named s) (hnone : s.env? id = none)
    (hmark : s.marker? id = some workspace) (hstop : Interrupted lose id workspace s t) :
    CanRepeat t id ↔ t.node (.marker id) ≠ none ∨ NoData t id := by
  obtain ⟨m, hm, hrow, hmarked, hthin⟩ := hstop.thinned hs hnone hmark
  have hid : checkEnvID id = true := by
    have hdir := hm.inside (.marker id) id rfl (by rw [Pool.marker?_eq_some.mp hmarked]; simp)
    obtain ⟨n, hn⟩ := Option.ne_none_iff_exists'.mp hdir
    exact (hm.holds _ n hn).2
  have hrow' : t.env? id = none := by
    rw [Pool.env?, hthin.index]
    exact hrow
  constructor
  · intro hrepeat
    by_contra hc
    obtain ⟨hgone, hdata⟩ := not_or.mp hc
    have hgone : t.node (.marker id) = none := by simpa using hgone
    -- something is left in the directory, so it is there itself
    have hdir : t.node (.envDir id) ≠ none := by
      intro hdir
      have hnothing : ∀ p : Path, p.env? = some id → t.node p = none := by
        intro p hp
        by_contra hnode
        exact hthin.inside p hp hnode hdir
      refine hdata ⟨hnothing _ rfl, fun x => hnothing _ rfl, fun tree htree => ?_⟩
      rw [hnothing _ rfl] at htree
      cases htree
    have halone : LeftAlone id t t :=
      ⟨fun _ _ => rfl, hrow', fun e p hp => hm.marked e p (hthin.marker? hp)⟩
    obtain ⟨lost, hok, hlost⟩ := hrepeat.reconcile
    exact hlost (reconcile_reports halone hid hdir hgone hdata hok)
  · intro hkept
    exact canRepeat_of_sane (hm.of_thinned hrow hthin hkept) hid hrow'

/-- `old` made, with a session of Claude's. -/
def oldLogged : Pool (List String) :=
  ((Request.create "old" {}).call Pool.new).final.put (.claude "old") (.plain ["session.jsonl"])

/-- A delete of it, stopped once its row was gone. -/
def oldMarked : Pool (List String) := (Request.delete "old").call.stopAt 4 oldLogged

omit [Tree T] in
theorem Outside.put_claude (hrow : s.env? id ≠ none) (tree : T) :
    Outside s (s.put (.claude id) (.plain tree)) := by
  have hother : ∀ p, p ≠ .claude id → (s.put (.claude id) (.plain tree)).node p = s.node p := by
    intro p hp
    rw [Pool.node_put, if_neg hp]
  refine ⟨rfl, rfl, rfl, fun p hp => hother p ?_, fun e => ?_, fun e files he => ?_⟩
  · rintro rfl
    exact hp hrow
  · rw [hother _ (by simp)]
    exact ⟨fun files nested h => ⟨files, nested, h⟩, fun h => h⟩
  · by_cases hc : e = id
    · subst hc
      exact ⟨tree, by simp⟩
    · exact ⟨files, by rw [hother _ (by simpa using hc)]; exact he⟩

theorem oldMarked_reached : Reached Unclaimed oldMarked := by
  have hmade : Step Unclaimed Pool.new ((Request.create "old" {}).call Pool.new).final :=
    .ends _ fun _ _ _ _ hc _ hopts => by cases hc; cases hopts
  have hlogged : Step Unclaimed ((Request.create "old" {}).call Pool.new).final oldLogged :=
    .outside (Outside.put_claude (by decide +kernel) _)
  have hstop : Step Unclaimed oldLogged oldMarked :=
    .stops (.delete "old") (fun _ _ _ _ hc => by cases hc) (stops_stopAt _ 4 _)
  exact ⟨Pool.new, Pool.new_fresh, .tail (.tail (.single hmade) hlogged) hstop⟩

/-- A file less, of a tree that is a list of names. -/
def loseName (names names' : List String) : Prop := ∃ x ∈ names, names' = names.erase x

/-- Where `RemoveAll` begins. -/
def oldRemoving : Pool (List String) :=
    (removeSubvolumes "old" (some (.live "old")) oldMarked).final

/-- Stopped when Claude's session was gone and the marker was not, the cleanup can be repeated. -/
theorem cleanup_repeats_marked :
    CanRepeat (oldRemoving.put (.claude "old") (.plain [])) "old" := by
  have hsane : Sane False oldMarked :=
    sane_of_reached (fun _ _ h => h) (fun _ _ _ => False.elim) oldMarked_reached
  have hstop : Interrupted loseName "old" (some (.live "old")) oldMarked
      (oldRemoving.put (.claude "old") (.plain [])) := by
    have hclaude : oldRemoving.node (.claude "old") = some (.plain ["session.jsonl"]) := by
      decide +kernel
    exact .inr ⟨rfl, .single (.entry rfl hclaude ⟨"session.jsonl", by decide, by decide⟩)⟩
  exact (cleanup_repeats_iff False loseName oldMarked _ "old" _ hsane (by decide +kernel)
    (by decide +kernel) hstop).mpr (.inl (by decide +kernel))

/-- Stopped when the marker was gone and Claude's session was not, the directory is reported as
lost, and the environment can't be created. -/
theorem cleanup_loses_marker : Reached Unclaimed oldMarked ∧
    Interrupted loseName "old" (some (.live "old")) oldMarked (oldRemoving.drop (.marker "old")) ∧
    (Reconcile (oldRemoving.drop (.marker "old"))).result = .ok ["old"] ∧
    (Create "old" {} (oldRemoving.drop (.marker "old"))).result = .error .unindexed := by
  have hmarker : oldRemoving.node (.marker "old") = some (.mark (some (.live "old"))) := by
    decide +kernel
  have hunlink : Unlink loseName "old" oldRemoving (oldRemoving.drop (.marker "old")) := by
    refine .path rfl hmarker (by simp [Node.tree?]) fun q hq => ?_
    cases q <;> simp [Path.isBelow, Path.parent?] at hq
  exact ⟨oldMarked_reached, .inr ⟨rfl, .single hunlink⟩, rfl, rfl⟩

end Fern

/-
What holds between calls.

A pool is tidy when it is sane, every environment's rows and snapshots are in step, every
workspace in an environment's directory is there and no delete is half done.  A call that ends,
with or without an error, leaves a tidy pool tidy, and so does a `Reconcile` that ends, from
wherever calls were stopped.
-/
import Fern.Proofs.Store.Separation

namespace Fern

open Call StoreM

variable {T : Type}

/-- An environment is tidy. -/
structure TidyAt (t : Pool T) (e : EnvID) : Prop where
  synced : t.env? e ≠ none → Synced t e
  live : ∀ row, t.env? e = some row → row.workspace = .live e → t.node (.live e) ≠ none
  unmarked : ∀ p, t.marker? e ≠ some (some p)

/-- A pool is tidy. -/
structure Tidy [Tree T] (t : Pool T) : Prop extends Sane True t where
  tidy : ∀ e, TidyAt t e

namespace TidyAt

variable {s t : Pool T} {e : EnvID}

theorem frame {P : Place → Prop} (h : TidyAt s e) (hf : Frame P s t) (hrow : ¬ P (.env e))
    (hnode : ∀ p : Path, p.env? = some e → ¬ P (.node p)) (hsnap : ∀ x, ¬ P (.snap e x)) :
    TidyAt t e := by
  have henv := hf.env e hrow
  refine ⟨fun hsome => ?_, fun row hr hw => ?_, fun p => ?_⟩
  · rw [henv] at hsome
    exact (h.synced hsome).frame hf fun x => ⟨hnode _ rfl, hsnap x⟩
  · rw [henv] at hr
    rw [hf.node _ (hnode _ rfl)]
    exact h.live row hr hw
  · rw [hf.marker? (hnode _ rfl)]
    exact h.unmarked p

/-- A change that keeps the row's workspace, the marker, and `live` and the snapshots in order. -/
theorem keep (h : TidyAt s e) (hrow : ∀ row, t.env? e = some row →
      ∃ row', s.env? e = some row' ∧ row'.workspace = row.workspace)
    (hsync : Synced s e → Synced t e) (hlive : s.node (.live e) ≠ none → t.node (.live e) ≠ none)
    (hmark : t.marker? e = s.marker? e) : TidyAt t e := by
  refine ⟨fun hsome => ?_, fun row hr hw => ?_, fun p => ?_⟩
  · obtain ⟨row, hr⟩ := Option.ne_none_iff_exists'.mp hsome
    obtain ⟨row', hr', _⟩ := hrow row hr
    exact hsync (h.synced (by rw [hr']; simp))
  · obtain ⟨row', hr', hw'⟩ := hrow row hr
    exact hlive (h.live row' hr' (hw'.trans hw))
  · rw [hmark]
    exact h.unmarked p

theorem snapshots {snaps : List SnapID} (h : TidyAt s e) (hf : Frame (SnapPlaces e snaps) s t)
    (hsync : ∀ x ∈ snaps, t.index.snap? e x ≠ none ↔ t.node (.snap e x) ≠ none) : TidyAt t e := by
  refine h.keep (fun row hr => ⟨row, by rw [← hf.env e snapPlaces_env]; exact hr, rfl⟩)
    (fun hs x => ?_) (fun hl => by rw [hf.node _ (by simp)]; exact hl) (hf.marker? (by simp))
  by_cases hx : x ∈ snaps
  · exact hsync x hx
  · rw [hf.node _ (by simpa using hx), hf.snap _ _ (by simpa using hx)]
    exact hs x

end TidyAt

variable [Tree T] {s t : Pool T} {id : EnvID}

theorem Tidy.unclaimed (hs : Tidy s) (r : Request T) : Unclaimed s r :=
  fun _ _ repo name _ _ _ e _ => (hs.tidy e).unmarked (.worktree repo name)

section Ends

variable {opts : CreateOptions T} {x : SnapID} {src : SnapshotRef}

private theorem wp_create_tidy (hs : Tidy s) (hid : checkEnvID id = true)
    (hnone : s.env? id = none) :
    wp (create id opts) (fun _ _ => True) (fun _ t => TidyAt t id) (fun _ t => TidyAt t id) s := by
  refine wp_mono (wp_create hs.toSane hid hnone fun repo name _ e _ =>
    (hs.tidy e).unmarked (.worktree repo name)) (fun _ _ _ => trivial) (fun row t h => ?_)
    fun _ t h => ?_
  · obtain ⟨⟨ht, _⟩, hrow, hmark, hws, hsnaps⟩ := h
    refine ⟨fun _ x => ?_, fun row' hr hw => ?_, fun p hp => ?_⟩
    · -- A new environment has no snapshots.
      have hx : t.index.snap? id x = none := by
        rw [ht.1.snap id x (by rintro (hc | hc); exacts [hc, by cases hc])]
        by_contra hc
        exact Index.env?_of_snap? hc hnone
      simp [hx, hsnaps x]
    · rw [hrow] at hr
      cases hr
      rw [← hw]
      exact hws
    · rw [Pool.marker?_eq_some, hmark] at hp
      cases hp
  · obtain ⟨⟨ht, _⟩, hrow, hmark⟩ := h
    refine ⟨fun hc => absurd hrow hc, fun row' hr => ?_, fun p hp => ?_⟩
    · rw [hrow] at hr
      cases hr
    · rcases hmark with rfl | hmark
      · exact (hs.tidy id).unmarked p hp
      · rw [hmark] at hp
        cases hp

private theorem TidyAt.readopted {env : EnvRow} (hs : Tidy s) (henv : s.env? env.id = some env)
    (ht : Sound True (Readopts env) s t) (hread : Readopted s t env) : TidyAt t env.id := by
  obtain ⟨⟨git, hgit⟩, hwhole⟩ := hread
  have hout : ∀ p : Path, p.env? = some env.id → p ≠ env.workspace → p ≠ .adopt env.id →
      ¬ Readopts env (.node p) := by
    rintro p hp hw ha ((hc | hc | ⟨r, rfl⟩) | hc)
    · exact hw hc
    · exact ha hc
    · cases hp
    · cases hc
  have hisw := hs.workspace _ env henv
  refine (hs.tidy env.id).keep (fun row hr => ?_) (fun hsync => hsync.frame ht.1 fun y => ⟨?_, ?_⟩)
    (fun hl => ?_) (ht.1.marker? (hout _ rfl ?_ (by simp)))
  · rw [hgit] at hr
    cases hr
    exact ⟨env, henv, rfl⟩
  · exact hout _ rfl (fun hc => by rw [← hc] at hisw; cases hisw) (by simp)
  · rintro (hc | hc)
    · exact hc
    · cases hc
  · by_cases hlive : Path.live env.id = env.workspace
    · rw [hlive] at hl ⊢
      rcases hwhole with h | ⟨a, _, h⟩
      · rw [h]; exact hl
      · rw [h]; simp
    · rw [ht.1.node _ (hout _ rfl hlive (by simp))]
      exact hl
  · exact (hisw.ne_marker _).symm

private theorem TidyAt.restored {env : EnvRow} (hs : Tidy s) (henv : s.env? env.id = some env)
    (hf : Frame (Restores s env x) s t) (hsync : Synced s env.id → Synced t env.id)
    (hwork : s.node env.workspace ≠ none → t.node env.workspace ≠ none) : TidyAt t env.id := by
  have hisw := hs.workspace _ env henv
  refine (hs.tidy env.id).keep (fun row hr => ⟨row, ?_, rfl⟩) hsync (fun hl => ?_) (hf.marker? ?_)
  · rw [← hf.env _ (by simp [Restores, RestoreKeeps, RestoreCopies])]; exact hr
  · by_cases hlive : Path.live env.id = env.workspace
    · rw [hlive] at hl ⊢
      exact hwork hl
    · rw [hf.node _ (by simp [Restores, RestoreKeeps, RestoreCopies, hlive])]
      exact hl
  · have := (hisw.ne_marker env.id).symm
    simp [Restores, RestoreKeeps, RestoreCopies, this]

theorem wp_request_tidyAt (hs : Tidy s) {r : Request T} (hname : Named s r)
    (hid : r.env? = some id) :
    wp r.call (fun _ _ => True) (fun _ t => TidyAt t id) (fun _ t => TidyAt t id) s := by
  have hrefl := hs.tidy id
  cases r with
  | reconcile => cases hid
  | create e opts =>
    cases hid
    refine wp_seq (P := fun _ t => TidyAt t id) ?_ fun _ t ht => by rw [wp_pure]; exact ht
    rcases Create_cases id opts s with ⟨e, hrun⟩ | ⟨env, rfl, henv, hrun⟩ |
      ⟨hcheck, hnone, hrun⟩ <;>
      rw [wp_congr hrun]
    · rw [wp_fail]; exact hrefl
    · have hread := keeps_readopt hs.toSane henv
      exact wp_mono hread (fun _ _ _ => trivial) (fun _ t h => .readopted hs henv h.1 h.2)
        fun _ t h => .readopted hs henv h.1 h.2
    · exact wp_create_tidy hs hcheck hnone
  | delete e =>
    cases hid
    refine wp_mono (wp_Delete hs.toSane) (fun _ _ _ => trivial) (fun _ t h => ?_)
      fun _ t h => by rw [h.1]; exact hrefl
    refine ⟨fun hc => absurd h.1.2 hc, fun row hr => ?_, fun p hp => ?_⟩
    · rw [h.1.2] at hr; cases hr
    · rw [Pool.marker?_eq_some, h.2 _ rfl] at hp; cases hp
  | snapshot e x =>
    cases hid
    show wp (Snapshot id x) _ _ _ s
    rcases Snapshot_cases id x s with ⟨e, hrun⟩ | ⟨env, rfl, henv, hx, hrun⟩ <;>
      rw [wp_congr hrun]
    · rw [wp_fail]; exact hrefl
    · refine wp_mono (wp_snapshot hs.toSane henv hx) (fun _ _ _ => trivial) (fun _ t h => ?_)
        fun _ t h => by rw [h]; exact hrefl
      refine hrefl.snapshots h.1.1.1 fun y hy => ?_
      rw [List.mem_singleton.mp hy]
      exact iff_of_true h.2.2 h.2.1
  | deleteSnapshot e x =>
    cases hid
    refine wp_mono (wp_DeleteSnapshot hs.toSane) (fun _ _ _ => trivial) (fun _ t h => ?_)
      fun _ t h => by rw [h.1]; exact hrefl
    refine hrefl.snapshots h.1.1.1 fun y hy => ?_
    rw [List.mem_singleton.mp hy]
    simp [h.2.1, h.2.2]
  | restore e x =>
    cases hid
    show wp (Restore id x) _ _ _ s
    rcases Restore_cases id x s with ⟨e, hrun⟩ | ⟨env, rfl, henv, hrun⟩ <;> rw [wp_congr hrun]
    · rw [wp_fail]; exact hrefl
    · refine wp_mono (wp_restore hs.toSane henv fun _ => hname _ _ env rfl henv)
        (fun _ _ _ => trivial) (fun _ t h => ?_) fun _ t h => ?_
      · obtain ⟨tree, _, hnode⟩ := h.files
        exact .restored hs henv h.sound.1 h.synced fun _ => by rw [hnode]; simp
      · exact .restored hs henv (h.1.sound.1.mono fun q hq => Or.inl hq) h.2 fun hw => by
          rw [h.1.files (hs.workspace _ env henv)]; exact hw
  | buildSource e src =>
    cases hid
    have hkeep : ∀ t, Frame (AtPaths [.sourceList id, .live id]) s t →
        (s.node (.live id) ≠ none → t.node (.live id) ≠ none) → TidyAt t id := by
      intro t hf hlive
      exact hrefl.keep (fun row hr => ⟨row, by rw [← hf.env id fun h => h]; exact hr, rfl⟩)
        (fun hs => hs.atPaths hf (by simp)) hlive (hf.marker? (by simp [AtPaths]))
    exact wp_mono (wp_BuildSource hs.toSane) (fun _ _ _ => trivial)
      (fun _ t h => hkeep t h.1.1 fun _ => h.2) fun _ t h => hkeep t h.1.1 fun hl => by
        rw [h.2]; exact hl

omit [Tree T] in
theorem Request.Workspaces.isWorkspace {r : Request T} (hs : Apart s) {w : Path}
    (hw : r.Workspaces s id w) : Path.IsWorkspace id w := by
  rcases hw with ⟨row, hrow, rfl⟩ | hmark | ⟨_, repo, name, _, _, rfl, _⟩
  · exact hs.workspace id row hrow
  · exact hs.marked id w hmark
  · exact .worktree repo name

theorem Tidy.other (hs : Tidy s) {r : Request T} (hf : Frame (Owns id (r.Workspaces s id)) s t)
    {e : EnvID} (he : e ≠ id) : TidyAt t e :=
  (hs.tidy e).frame hf he (fun _ hp => not_owns_env (fun _ hw => hw.isWorkspace hs.toApart) he hp)
    fun _ => he

/-- A `Reconcile` that ends leaves the pool tidy, from wherever calls were stopped. -/
theorem Sane.tidy_reconcile (hs : Sane True s) : Tidy (Reconcile s).final := by
  obtain ⟨_, ⟨ht, _⟩, hclean⟩ := reconcile_spec hs
  refine ⟨ht, fun e => ?_⟩
  cases hrow : (Reconcile s).final.env? e with
  | some row =>
    have hid := Index.env?_id hrow
    subst hid
    have henv := (hclean row.id).indexed row hrow
    refine ⟨fun _ => henv.synced, fun row' hr hw => ?_, fun p hp => ?_⟩
    · rw [hrow] at hr
      cases hr
      have := henv.live hw
      rw [hw] at this
      exact this
    · rw [Pool.marker?_eq_some, henv.marker] at hp
      cases hp
  | none =>
    refine ⟨fun hc => absurd hrow hc, fun row' hr => ?_, fun p hp => ?_⟩
    · rw [hrow] at hr
      cases hr
    · rw [Pool.marker?_eq_some, (hclean e).unindexed hrow _ rfl] at hp
      cases hp

/-- **A request that ends leaves a tidy pool tidy**, with or without an error. -/
theorem Tidy.ends (hs : Tidy s) {r : Request T} (hname : Named s r) : Tidy (r.call s).final := by
  cases hid : r.env? with
  | none =>
    cases r <;> cases hid
    refine wp_final (C := fun _ _ => True) (wp_seq (P := fun _ t => Tidy t) ?_ fun _ t ht => by
      rw [wp_pure]; exact ht)
    refine ⟨fun _ _ => trivial, ?_⟩
    rw [(reconcile_spec hs.toSane).1]
    exact hs.toSane.tidy_reconcile
  | some id =>
    have hsound := (keeps_request hs.toSane (hs.unclaimed r) (fun _ => hname) hid).final
    refine ⟨hsound.2, fun e => ?_⟩
    by_cases he : e = id
    · rw [he]
      exact wp_final (wp_request_tidyAt hs hname hid)
    · exact hs.other hsound.1 he

theorem Tidy.outside (hs : Tidy s) (h : Outside s t) : Tidy t := by
  have hrow : ∀ e, t.env? e = s.env? e := fun e => by rw [Pool.env?, h.index]; rfl
  refine ⟨hs.toSane.outside h, fun e => (hs.tidy e).keep (fun row hr => ⟨row, ?_, rfl⟩)
    (fun hsync x => ?_) (fun hl => ?_) ?_⟩
  · rw [← hrow]; exact hr
  · rw [h.index, h.node (.snap e x) id]
    exact hsync x
  · obtain ⟨n, hn⟩ := Option.ne_none_iff_exists'.mp hl
    have hsub : n.isSubvolume = true := hs.holds _ n hn
    cases n with
    | subvol tree b =>
      obtain ⟨tree', b', ht⟩ := (h.live e).1 tree b hn
      rw [ht]; simp
    | _ => cases hsub
  · unfold Pool.marker?
    rw [h.node (.marker e) id]

theorem Tidy.fresh (hs : s.Fresh) : Tidy s := by
  have hnone : ∀ e, s.env? e = none := fun e => by rw [Pool.env?, hs.1]; rfl
  refine ⟨Sane.fresh hs, fun e => ⟨fun hc => absurd (hnone e) hc, fun row hr => ?_, fun p hp => ?_⟩⟩
  · rw [hnone] at hr; cases hr
  · rw [Pool.marker?_eq_some, hs.2 (.marker e) (fun h => by cases h)] at hp; cases hp

end Ends

end Fern

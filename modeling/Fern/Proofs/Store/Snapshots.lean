/-
What snapshots, restores and golden builds do.

A snapshot is there before its row is and is gone before its row is, so a stop leaves at most
one row without a snapshot or one snapshot without a row.  A restore keeps the workspace it
replaces as a snapshot first; the swap then puts the whole copy in its place.
-/
import Fern.Proofs.Store.Create

namespace Fern

open Call StoreM List

variable {T : Type} [Tree T] {named : Prop} {s t : Pool T} {id : EnvID} {P : Place → Prop}
  {keep : SnapID}

/-- The places of some of an environment's snapshots. -/
def SnapPlaces (id : EnvID) (snaps : List SnapID) (q : Place) : Prop :=
  ∃ x ∈ snaps, q = .node (.snap id x) ∨ q = .snap id x

section SnapPlaces

variable {snaps : List SnapID} {e : EnvID}

@[simp] theorem snapPlaces_node {p : Path} :
    SnapPlaces id snaps (.node p) ↔ ∃ x ∈ snaps, p = .snap id x := by simp [SnapPlaces]

@[simp] theorem snapPlaces_env : ¬ SnapPlaces id snaps (.env e) := by simp [SnapPlaces]

@[simp] theorem snapPlaces_snap {x : SnapID} :
    SnapPlaces id snaps (.snap e x) ↔ e = id ∧ x ∈ snaps := by
  simp [SnapPlaces, and_comm]

end SnapPlaces

/-- Every snapshot of an environment has a row, and every row a snapshot. -/
def Synced (t : Pool T) (id : EnvID) : Prop :=
  ∀ x, t.index.snap? id x ≠ none ↔ t.node (.snap id x) ≠ none

theorem Sane.checkEnvID (hs : Sane named s) (h : s.env? id ≠ none) : checkEnvID id = true := by
  obtain ⟨n, hn⟩ := Option.ne_none_iff_exists'.mp (hs.indexed id h).1
  exact (hs.holds _ n hn).2

omit [Tree T] in
theorem Pool.node_eq_none {p : Path} (hp : ∀ n, s.node p = some n → n.isSubvolume = true)
    (h : ∀ tree b, s.node p ≠ some (.subvol tree b)) : s.node p = none := by
  cases hn : s.node p with
  | none => rfl
  | some n =>
    have hsub := hp n hn
    cases n with
    | subvol tree b => exact absurd hn (h tree b)
    | _ => cases hsub

/-- A snapshot was taken, by a reading of the clock between `s` and `t`, over a day ago. -/
def Aged (s t : Pool T) (row : SnapRow) : Prop :=
  ∃ k, s.ticks ≤ k ∧ k < t.ticks ∧ row.created < unix ((s.clock k : Int) - preRestoreKeep)

omit [Tree T] in
theorem Aged.mono {row : SnapRow} {s' t' : Pool T} (h : Aged s t row) (hclock : s'.clock = s.clock)
    (hs : s'.ticks ≤ s.ticks) (ht : t.ticks ≤ t'.ticks) : Aged s' t' row := by
  obtain ⟨k, hk, hk', hold⟩ := h
  exact ⟨k, by omega, by omega, by rw [hclock]; exact hold⟩

/-- A snapshot with its row is there still, unless it was a restore's and over a day old. -/
def KeepsSnap (s t : Pool T) (e : EnvID) (x : SnapID) : Prop :=
  ∀ row, s.index.snap? e x = some row → s.node (.snap e x) ≠ none →
    (t.index.snap? e x = some row ∧ t.node (.snap e x) = s.node (.snap e x)) ∨
      (isPreRestore x = true ∧ Aged s t row)

namespace KeepsSnap

omit [Tree T]

variable {u : Pool T} {e : EnvID} {x : SnapID}

theorem refl (s : Pool T) (e : EnvID) (x : SnapID) : KeepsSnap s s e x :=
  fun _ h _ => Or.inl ⟨h, rfl⟩

theorem trans (h : KeepsSnap s t e x) (h' : KeepsSnap t u e x) (hclock : t.clock = s.clock)
    (hst : s.ticks ≤ t.ticks) (htu : t.ticks ≤ u.ticks) : KeepsSnap s u e x := by
  intro row hrow hn
  rcases h row hrow hn with ⟨hrow', hn'⟩ | ⟨hpre, hold⟩
  · rcases h' row hrow' (by rw [hn']; exact hn) with ⟨hrow'', hn''⟩ | ⟨hpre, hold⟩
    · exact .inl ⟨hrow'', hn''.trans hn'⟩
    · exact .inr ⟨hpre, hold.mono hclock.symm hst (le_refl _)⟩
  · exact .inr ⟨hpre, hold.mono rfl (le_refl _) htu⟩

theorem frame (hf : Frame P s t) (hn : ¬ P (.node (.snap e x))) (hr : ¬ P (.snap e x)) :
    KeepsSnap s t e x := fun _ hrow _ =>
  Or.inl ⟨(hf.snap e x hr).trans hrow, hf.node _ hn⟩

end KeepsSnap

/-! ### Snapshots deleted

The subvolume goes first and the row after it, so a stop leaves a row without a snapshot, and never
a snapshot without its row. -/

section Delete

/-- Snapshots are removed, and each row after its snapshot. -/
def Dropping (s t : Pool T) (id : EnvID) : Prop :=
  ∀ x, (t.node (.snap id x) = s.node (.snap id x) ∨ t.node (.snap id x) = none) ∧
    (t.index.snap? id x = s.index.snap? id x ∨
      (t.index.snap? id x = none ∧ t.node (.snap id x) = none))

omit [Tree T] in
theorem Dropping.refl (s : Pool T) (id : EnvID) : Dropping s s id :=
    fun _ => ⟨.inl rfl, .inl rfl⟩

omit [Tree T] in
theorem Dropping.trans {u : Pool T} (h : Dropping s t id) (h' : Dropping t u id) :
    Dropping s u id := by
  intro x
  obtain ⟨hn, hr⟩ := h x
  obtain ⟨hn', hr'⟩ := h' x
  constructor
  · rcases hn' with hn' | hn'
    · rw [hn']; exact hn
    · exact .inr hn'
  · rcases hr' with hr' | hr'
    · rw [hr']
      refine hr.imp_right fun ⟨hnone, hgone⟩ => ⟨hnone, ?_⟩
      exact hn'.elim (fun h => h.trans hgone) fun h => h
    · exact .inr hr'

theorem wp_DeleteSnapshot {x : SnapID} (hs : Sane named s) :
    wp (DeleteSnapshot id x)
      (fun _ t => Sound named (SnapPlaces id [x]) s t ∧ Dropping s t id ∧ t.ticks = s.ticks)
      (fun _ t => (Sound named (SnapPlaces id [x]) s t ∧ Dropping s t id ∧ t.ticks = s.ticks) ∧
        t.node (.snap id x) = none ∧ t.index.snap? id x = none)
      (fun _ t => t = s ∧ (s.env? id = none ∨ checkSnapID x = false)) s := by
  unfold DeleteSnapshot
  split
  · refine wp_step (wp_get id s) (fun _ _ h => h) (fun _ t h => ⟨h.1, .inl ?_⟩) ?_
    · by_contra hsome
      exact hsome (h.2 (hs.checkEnvID hsome))
    rintro row s ⟨rfl, _⟩
    have hto : ∀ t, Sane named t ∧ Shed [.snap id x] s t →
        Sound named (SnapPlaces id [x]) s t ∧ Dropping s t id ∧ t.ticks = s.ticks := by
      rintro t ⟨ht, hshed⟩
      refine ⟨⟨hshed.frame.mono fun q hq => ⟨x, by simp, .inl hq.eq⟩, ht⟩,
        fun y => ⟨?_, .inl (by rw [hshed.index])⟩, hshed.ticks⟩
      exact (hshed.node (.snap id y)).imp_right fun h => h.2.1
    refine wp_step (wp_deleteSubvolumes hs (nodup_singleton _)) (fun _ => hto) (fun _ _ h => h.elim)
      ?_
    rintro _ t ⟨ht, hgone⟩
    refine wp_op (fun u hu => ?_) fun e he => by cases he
    have hsound : Sound named (SnapPlaces id [x]) s u :=
      (hto t ht).1.step (o := .deleteSnapshot id x) trivial hu fun q hq => ⟨x, by simp, .inr hq⟩
    cases hu
    have hnone : t.node (.snap id x) = none :=
      Pool.node_eq_none (fun n hn => (ht.1.holds _ n hn).1) (hgone _ (by simp))
    have hdrop : Dropping s { t with index := t.index.deleteSnapshot id x } id := by
      refine (hto t ht).2.1.trans fun y => ⟨.inl rfl, ?_⟩
      have hrow := Index.snap?_deleteSnapshot (x := t.index) id x id y
      by_cases hy : y = x
      · rw [if_pos ⟨rfl, hy⟩] at hrow
        rw [hy] at hrow ⊢
        exact .inr ⟨hrow, hnone⟩
      · rw [if_neg fun h => hy h.2] at hrow
        exact .inl hrow
    exact ⟨⟨hsound, hdrop, ht.2.ticks⟩, ⟨hsound, hdrop, ht.2.ticks⟩, hnone,
      (Index.snap?_deleteSnapshot _ _ _ _).trans (if_pos ⟨rfl, rfl⟩)⟩
  · rename_i hx
    rw [wp_fail]
    exact ⟨rfl, .inr (by simpa using hx)⟩

private theorem wp_deleteSnapshots :
    ∀ (l : List SnapID) {s : Pool T}, Sane named s → s.env? id ≠ none →
      (∀ x ∈ l, checkSnapID x = true) →
      Completes (each (DeleteSnapshot id) l)
        (fun t => Sound named (SnapPlaces id l) s t ∧ Dropping s t id ∧ t.ticks = s.ticks)
        (fun _ t => ∀ x ∈ l, t.node (.snap id x) = none ∧ t.index.snap? id x = none) s := by
  intro l
  induction l with
  | nil =>
    intro s hs _ _
    rw [Completes, each, wp_pure]
    exact ⟨⟨Sound.refl hs, Dropping.refl s id, rfl⟩, (by simp)⟩
  | cons x rest ih =>
    intro s hs henv hnames
    rw [each]
    have hx : ∀ q, SnapPlaces id [x] q → SnapPlaces id (x :: rest) q := by
      rintro q ⟨y, hy, hq⟩
      exact ⟨y, by rw [mem_singleton.mp hy]; simp, hq⟩
    have hrest : ∀ q, SnapPlaces id rest q → SnapPlaces id (x :: rest) q := by
      rintro q ⟨y, hy, hq⟩
      exact ⟨y, by simp [hy], hq⟩
    refine wp_step (wp_DeleteSnapshot hs) (fun _ t h => ⟨h.1.mono hx, h.2⟩) (fun _ _ h => ?_) ?_
    · rcases h.2 with hc | hc
      · exact henv hc
      · rw [hnames x (by simp)] at hc
        cases hc
    rintro _ t ⟨⟨ht, hdrop, hticks⟩, hgone⟩
    have henv' : t.env? id ≠ none := by
      rw [ht.1.env id snapPlaces_env]
      exact henv
    have hto : ∀ u, Sound named (SnapPlaces id rest) t u ∧ Dropping t u id ∧ u.ticks = t.ticks →
        Sound named (SnapPlaces id (x :: rest)) s u ∧ Dropping s u id ∧ u.ticks = s.ticks :=
      fun u hu => ⟨(ht.mono hx).trans (hu.1.mono hrest), hdrop.trans hu.2.1, hu.2.2.trans hticks⟩
    refine wp_mono (ih ht.2 henv' fun y hy => hnames y (by simp [hy])) (fun _ => hto)
      (fun _ u h => ⟨hto u h.1, ?_⟩) fun _ _ h => h
    intro y hy
    rcases mem_cons.mp hy with rfl | hy'
    · by_cases hmem : y ∈ rest
      · exact h.2 y hmem
      · rw [h.1.1.1.node _ (by simpa using hmem), h.1.1.1.snap _ _ (by simpa using hmem)]
        exact hgone
    · exact h.2 y hy'

/-- The snapshots of restores that `prunePreRestores` removes: those that were taken, by the
next reading of the clock, over `preRestoreKeep` ago. -/
def Prunable (s : Pool T) (id : EnvID) (keep x : SnapID) : Prop :=
  ∃ row, s.index.snap? id x = some row ∧ isPreRestore x = true ∧ x ≠ keep ∧
    row.created < unix ((s.clock s.ticks : Int) - preRestoreKeep)

/-- The places `prunePreRestores` changes. -/
def Prunes (s : Pool T) (id : EnvID) (keep : SnapID) (q : Place) : Prop :=
  ∃ x, Prunable s id keep x ∧ (q = .node (.snap id x) ∨ q = .snap id x)

section Prunes

variable {keep x : SnapID} {e : EnvID}

omit [Tree T]

@[simp] theorem prunes_node {p : Path} :
    Prunes s id keep (.node p) ↔ ∃ x, Prunable s id keep x ∧ p = .snap id x := by simp [Prunes]

@[simp] theorem prunes_env : ¬ Prunes s id keep (.env e) := by simp [Prunes]

@[simp] theorem prunes_snap : Prunes s id keep (.snap e x) ↔ e = id ∧ Prunable s id keep x := by
  simp [Prunes, and_comm]

end Prunes

/-- `prunePreRestores` removes the old snapshots and their rows, and never fails. -/
theorem wp_prunePreRestores (hs : Sane named s) (henv : s.env? id ≠ none) :
    Completes (prunePreRestores id keep)
      (fun t => Sound named (Prunes s id keep) s t ∧ Dropping s t id ∧ t.ticks = s.ticks + 1)
      (fun _ t => ∀ x, Prunable s id keep x → t.node (.snap id x) = none ∧
        t.index.snap? id x = none) s := by
  unfold prunePreRestores
  have htick : Sound named (Prunes s id keep) s { s with ticks := s.ticks + 1 } := Sound.tick hs
  refine wp_timeNow ⟨htick, Dropping.refl s id, rfl⟩ ?_
  rw [wp_bind, wp_read]
  have hmem : ∀ x, x ∈ s.index.snapshotsBefore id keep
      (unix ((s.clock s.ticks : Int) - preRestoreKeep)) ↔ Prunable s id keep x :=
    fun x => Index.mem_snapshotsBefore
  have hto : ∀ t, Sound named (SnapPlaces id (s.index.snapshotsBefore id keep
      (unix ((s.clock s.ticks : Int) - preRestoreKeep)))) { s with ticks := s.ticks + 1 } t ∧
        Dropping { s with ticks := s.ticks + 1 } t id ∧ t.ticks = s.ticks + 1 →
        Sound named (Prunes s id keep) s t ∧ Dropping s t id ∧ t.ticks = s.ticks + 1 := by
    rintro t ⟨ht, hdrop, hticks⟩
    refine ⟨htick.trans (ht.mono ?_), hdrop, hticks⟩
    rintro q ⟨x, hx, hq⟩
    exact ⟨x, (hmem x).mp hx, hq⟩
  refine wp_mono (wp_deleteSnapshots _ htick.2 henv fun x hx => ?_) (fun _ => hto)
    (fun _ t h => ⟨hto t h.1, fun x hx => h.2 x ((hmem x).mpr hx)⟩) fun _ _ h => h
  obtain ⟨row, hrow, _⟩ := (hmem x).mp hx
  exact hs.snapNames id x (by rw [hrow]; simp)

omit [Tree T] in
theorem KeepsSnap.prune (hf : Frame (Prunes s id keep) s t) (hticks : t.ticks = s.ticks + 1)
    (x : SnapID) : KeepsSnap s t id x := by
  by_cases hx : Prunable s id keep x
  · obtain ⟨row, hrow, hpre, _, hold⟩ := hx
    intro row' hrow' _
    rw [hrow] at hrow'
    cases hrow'
    exact .inr ⟨hpre, s.ticks, le_refl _, by omega, hold⟩
  · exact KeepsSnap.frame hf (by simpa using hx) (by simpa using hx)

end Delete

/-! ### Snapshots taken

The subvolume comes first and the row after it.  A snapshot that is there already is kept, and its
row with the time it has. -/

section Take

variable {env : EnvRow} {x : SnapID}

/-- A snapshot being taken: one that is there stays, another is a copy of the workspace, and a
row that is written is written now. -/
structure Taking (s t : Pool T) (env : EnvRow) (x : SnapID) : Prop where
  node : t.node (.snap env.id x) = s.node (.snap env.id x) ∨
    (s.node (.snap env.id x) = none ∧ ∃ tree b, s.node env.workspace = some (.subvol tree b) ∧
      t.node (.snap env.id x) = some (.subvol tree false))
  row : t.index.snap? env.id x = s.index.snap? env.id x ∨
    ((s.node (.snap env.id x) ≠ none → s.index.snap? env.id x = none) ∧
      t.node (.snap env.id x) ≠ none ∧
      t.index.snap? env.id x = some ⟨env.id, x, unix (s.clock s.ticks)⟩)

omit [Tree T] in
theorem Taking.keepsSnap (h : Taking s t env x) (hf : Frame (SnapPlaces env.id [x]) s t)
    (y : SnapID) : KeepsSnap s t env.id y := by
  by_cases hy : y = x
  · subst hy
    intro row hrow hn
    refine .inl ⟨?_, h.node.resolve_right fun hc => hn hc.1⟩
    rcases h.row with h | h
    · exact h.trans hrow
    · rw [h.1 hn] at hrow
      cases hrow
  · exact KeepsSnap.frame hf (by simpa using hy) (by simpa using hy)

theorem wp_snapshot (hs : Sane named s) (henv : s.env? env.id = some env)
    (hx : checkSnapID x = true) :
    wp (snapshot env x)
      (fun _ t => Sound named (SnapPlaces env.id [x]) s t ∧ Taking s t env x)
      (fun _ t => (Sound named (SnapPlaces env.id [x]) s t ∧ Taking s t env x) ∧
        t.node (.snap env.id x) ≠ none ∧ t.index.snap? env.id x ≠ none)
      (fun _ t => t = s) s := by
  have hwrites : ∀ q, q = Place.snap env.id x → SnapPlaces env.id [x] q :=
    fun q hq => ⟨x, by simp, .inr hq⟩
  unfold snapshot
  rw [wp_bind, wp_read]
  split
  · rename_i n hn
    have htick : Sound named (SnapPlaces env.id [x]) s { s with ticks := s.ticks + 1 } :=
      Sound.tick hs
    refine wp_timeNow ⟨htick, .inl rfl, .inl rfl⟩ ?_
    refine wp_op (fun u hu => ?_) fun e he => ?_
    · have hsound := htick.step (o := .keepSnapshot ⟨env.id, x, _⟩) hx hu hwrites
      obtain ⟨y, hy, rfl⟩ := Op.run_keepSnapshot hu
      have hrow : y.snap? env.id x =
          some ((s.index.snap? env.id x).getD ⟨env.id, x, unix (s.clock s.ticks)⟩) :=
        (Index.snap?_keepSnapshot hy _ _).trans (if_pos ⟨rfl, rfl⟩)
      have hthere : s.node (.snap env.id x) ≠ none := by rw [hn]; simp
      have htaking : Taking s { s with index := y, ticks := s.ticks + 1 } env x := by
        refine ⟨.inl rfl, ?_⟩
        cases hsnap : s.index.snap? env.id x with
        | none => exact .inr ⟨fun _ => rfl, hthere, by rw [hrow, hsnap]; rfl⟩
        | some r => exact .inl (by rw [hrow, hsnap]; rfl)
      exact ⟨⟨hsound, htaking⟩, ⟨hsound, htaking⟩, hthere, by rw [hrow]; simp⟩
    · obtain ⟨y, hy⟩ : ∃ y, s.index.keepSnapshot ⟨env.id, x, unix (s.clock s.ticks)⟩ = .ok y :=
        Index.keepSnapshot_ok (by rw [← Pool.env?, henv]; simp)
      simp [Op.run, hy] at he
  · rename_i hn
    refine wp_seq (P := fun _ t => ∃ tree b, s.node env.workspace = some (.subvol tree b) ∧
      t = (s.own (.snap env.id x) (s.owner env.workspace)).put (.snap env.id x)
        (.subvol tree false) ∧ Sound named (SnapPlaces env.id [x]) s t)
      (wp_op (fun t ht => ?_) fun _ _ => rfl) ?_
    · have hsound : Sound named (SnapPlaces env.id [x]) s t :=
        (Sound.run (o := .snapshotSubvolume env.workspace (.snap env.id x)) hs
          ⟨fun _ => ⟨rfl, hx⟩, fun e he => by cases he; exact .inl (by rw [henv]; simp)⟩
          ht).mono fun q hq => ⟨x, by simp, .inl hq⟩
      obtain ⟨tree, b, htree, _, _, rfl⟩ := Op.run_snapshotSubvolume ht
      exact ⟨⟨hsound, .inr ⟨hn, tree, b, htree, by simp⟩, .inl rfl⟩, tree, b, htree,
        rfl, hsound⟩
    rintro _ t ⟨tree, b, htree, ht, hsound⟩
    have hnode : t.node (.snap env.id x) = some (.subvol tree false) := by rw [ht]; simp
    have hindex : t.index = s.index := by rw [ht]; rfl
    have hclock : t.clock t.ticks = s.clock s.ticks := by rw [ht]; rfl
    have htick := hsound.trans (Sound.tick (P := SnapPlaces env.id [x]) hsound.2)
    refine wp_timeNow
      ⟨htick, .inr ⟨hn, tree, b, htree, hnode⟩, .inl (by rw [← hindex])⟩ ?_
    rw [hclock]
    refine wp_op (fun u hu => ?_) fun e he => ?_
    · have hsound' := htick.step (o := .replaceSnapshot ⟨env.id, x, _⟩) hx hu hwrites
      obtain ⟨y, hy, rfl⟩ := Op.run_replaceSnapshot hu
      have hrow : y.snap? env.id x = some ⟨env.id, x, unix (s.clock s.ticks)⟩ :=
        (Index.snap?_replaceSnapshot hy _ _).trans (if_pos ⟨rfl, rfl⟩)
      have hthere : t.node (.snap env.id x) ≠ none := by rw [hnode]; simp
      have htaking : Taking s { t with index := y, ticks := t.ticks + 1 } env x :=
        ⟨.inr ⟨hn, tree, b, htree, hnode⟩, .inr ⟨fun h => absurd hn h, hthere, hrow⟩⟩
      exact ⟨⟨hsound', htaking⟩, ⟨hsound', htaking⟩, hthere, by rw [hrow]; simp⟩
    · obtain ⟨y, hy⟩ : ∃ y, t.index.replaceSnapshot ⟨env.id, x, unix (s.clock s.ticks)⟩ = .ok y :=
        Index.replaceSnapshot_ok (by rw [hindex, ← Pool.env?, henv]; simp)
      simp [Op.run, hy] at he

theorem Snapshot_cases (id : EnvID) (x : SnapID) (s : Pool T) :
    (∃ e, Snapshot id x s = (fail e : StoreM T Unit) s) ∨
      ∃ env, env.id = id ∧ s.env? id = some env ∧ checkSnapID x = true ∧
        Snapshot id x s = snapshot env x s := by
  unfold Snapshot
  split
  swap
  · exact .inl ⟨_, rfl⟩
  rename_i hx
  rcases cases_of_reads (wp_mono (wp_get id s) (fun _ _ h => h) (fun _ _ h => h)
    fun _ _ h => h.1) with ⟨e, he⟩ | ⟨env, henv, hget⟩
  · exact .inl ⟨e, bind_of_fail he _⟩
  rw [bind_of_pure hget]
  rcases cases_of_reads (P := fun _ => True) (wp_mono (wp_checkFree s) (fun _ _ h => h)
    (fun _ _ h => ⟨h, trivial⟩) fun _ _ h => h) with ⟨e, he⟩ | ⟨_, _, hfree⟩
  · exact .inl ⟨e, bind_of_fail he _⟩
  · exact .inr ⟨env, Index.env?_id henv, henv, hx, bind_of_pure hfree _⟩

end Take

/-! ### Restores

The old workspace is kept as a snapshot before the swap.  So a restore is `BeforeSwap`, with the
workspace as it was, or `AfterSwap`, with the whole of the snapshot in its place and the old one
kept. -/

section Restore

variable {env : EnvRow} {x y : SnapID}

/-- The name under which a restore that starts now will keep the workspace. -/
def Pool.preRestore (s : Pool T) : SnapID := preRestoreID (s.clock (s.ticks + 1))

/-- Nothing has a snapshot's name: no subvolume, and no row. -/
def Pool.Free (s : Pool T) (id : EnvID) (x : SnapID) : Prop :=
  s.node (.snap id x) = none ∧ s.index.snap? id x = none

/-- The places a restore changes before it keeps the workspace. -/
def RestoreCopies (s : Pool T) (id : EnvID) (x : SnapID) (q : Place) : Prop :=
  Prunes s id x q ∨ q = .node (.restore id)

/-- The places a restore changes before its swap. -/
def RestoreKeeps (s : Pool T) (id : EnvID) (x : SnapID) (q : Place) : Prop :=
  RestoreCopies s id x q ∨ SnapPlaces id [s.preRestore] q

/-- The snapshot a restore keeps the workspace as is not there, or is the whole of it. -/
def Keeping (s t : Pool T) (env : EnvRow) : Prop :=
  s.Free env.id s.preRestore → t.Free env.id s.preRestore ∨
    ∃ tree b, s.node env.workspace = some (.subvol tree b) ∧
      t.node (.snap env.id s.preRestore) = some (.subvol tree false) ∧
      (t.index.snap? env.id s.preRestore = none ∨ ∃ k, s.ticks < k ∧
        t.index.snap? env.id s.preRestore = some ⟨env.id, s.preRestore, unix (s.clock k)⟩)

/-- The workspace is kept: the snapshot is there, with its row. -/
def KeptCopy (s t : Pool T) (env : EnvRow) : Prop :=
  s.Free env.id s.preRestore →
    ∃ tree b, s.node env.workspace = some (.subvol tree b) ∧
      t.node (.snap env.id s.preRestore) = some (.subvol tree false) ∧
      ∃ k, s.ticks < k ∧
        t.index.snap? env.id s.preRestore = some ⟨env.id, s.preRestore, unix (s.clock k)⟩

/-- The tree a restore is to put in place. -/
def restoreTree (s : Pool T) (id : EnvID) (x : SnapID) : Option T :=
  match s.node (.snap id x) with
  | some (.subvol tree _) => some tree
  | _ => none

omit [Tree T] in
theorem Path.IsWorkspace.not_restoreKeeps {e : EnvID} {w : Path} (hw : Path.IsWorkspace e w) :
    ¬ RestoreKeeps s id x (.node w) := by
  cases hw <;> simp [RestoreKeeps, RestoreCopies]

omit [Tree T] in
theorem Pool.Free.copies (h : s.Free id y) (hf : Frame (RestoreCopies s id x) s t) :
    t.Free id y := by
  have hkeep : ¬ Prunable s id x y := by
    rintro ⟨row, hrow, _⟩
    rw [h.2] at hrow
    cases hrow
  exact ⟨(hf.node _ (by simpa [RestoreCopies] using hkeep)).trans h.1,
    (hf.snap _ _ (by simpa [RestoreCopies] using hkeep)).trans h.2⟩

omit [Tree T] in
theorem Synced.prune (h : Synced s id) (hf : Frame (Prunes s id keep) s t)
    (hgone : ∀ y, Prunable s id keep y →
      t.node (.snap id y) = none ∧ t.index.snap? id y = none) : Synced t id := by
  intro y
  by_cases hy : Prunable s id keep y
  · simp [hgone y hy]
  · rw [hf.node _ (by simpa using hy), hf.snap _ _ (by simpa using hy)]
    exact h y

omit [Tree T] in
theorem Synced.frame (h : Synced s id) (hf : Frame P s t)
    (hout : ∀ y, ¬ P (.node (.snap id y)) ∧ ¬ P (.snap id y)) : Synced t id := by
  intro y
  rw [hf.node _ (hout y).1, hf.snap _ _ (hout y).2]
  exact h y

omit [Tree T] in
theorem Synced.atPaths {paths : List Path} (h : Synced s id) (hf : Frame (AtPaths paths) s t)
    (hout : ∀ y, Path.snap id y ∉ paths) : Synced t id :=
  h.frame hf fun y => ⟨hout y, fun h => h⟩

theorem wp_restoreCopy (hs : Sane named s) (henv : s.env? env.id ≠ none) :
    wp (restoreCopy env x)
      (fun _ t => Sound named (RestoreCopies s env.id x) s t ∧ ∀ y, KeepsSnap s t env.id y)
      (fun _ t => (Sound named (RestoreCopies s env.id x) s t ∧ ∀ y, KeepsSnap s t env.id y) ∧
        t.ticks = s.ticks + 1 ∧ (Synced s env.id → Synced t env.id) ∧
        ∃ tree, restoreTree s env.id x = some tree ∧
          t.node (.restore env.id) = some (.subvol tree false))
      (fun _ t => (Sound named (RestoreCopies s env.id x) s t ∧ ∀ y, KeepsSnap s t env.id y) ∧
        (Synced s env.id → Synced t env.id)) s := by
  unfold restoreCopy
  have hto₁ : ∀ t, Sound named (Prunes s env.id x) s t → t.ticks = s.ticks + 1 →
      Sound named (RestoreCopies s env.id x) s t ∧ ∀ y, KeepsSnap s t env.id y :=
    fun t ht hticks => ⟨ht.mono fun q hq => Or.inl hq, KeepsSnap.prune ht.1 hticks⟩
  -- `live.new` is no snapshot.
  have hstep : ∀ {t u : Pool T}, Sound named (RestoreCopies s env.id x) s t ∧
      (∀ y, KeepsSnap s t env.id y) → Sound named (AtPaths [.restore env.id]) t u →
      Sound named (RestoreCopies s env.id x) s u ∧ ∀ y, KeepsSnap s u env.id y := by
    rintro t u ⟨ht, hkeep⟩ hu
    refine ⟨ht.trans (hu.mono fun q hq => .inr hq.eq), fun y =>
      (hkeep y).trans (KeepsSnap.frame hu.1 ?_ fun h => h)
      ht.1.clock ht.1.ticks hu.1.ticks⟩
    simp [AtPaths]
  refine wp_step (wp_prunePreRestores hs henv) (fun _ t h => hto₁ t h.1 h.2.2) (fun _ _ h => h.elim)
    ?_
  rintro _ t ⟨⟨ht, _, hticks⟩, hgone⟩
  have hsync : Synced s env.id → Synced t env.id := fun h => h.prune ht.1 hgone
  refine wp_seq (wp_mono (wp_deleteSubvolumes ht.2 (nodup_singleton _))
    (fun _ u hu => hstep (hto₁ t ht hticks) ⟨hu.2.frame, hu.1⟩) (fun _ _ h => h.1)
    fun _ _ h => h.elim) ?_
  rintro _ u ⟨hsane, hshed⟩
  have hsync' : Synced s env.id → Synced u env.id := fun h =>
    (hsync h).atPaths hshed.frame (by simp)
  have hu := hstep (hto₁ t ht hticks) ⟨hshed.frame, hsane⟩
  refine wp_op (fun v hv => ?_) fun e _ => ⟨hu, hsync'⟩
  have hlast : Sound named (AtPaths [.restore env.id]) u v :=
    (Sound.run (o := .snapshotSubvolume (.snap env.id x) (.restore env.id)) hsane
      ⟨fun _ _ => rfl, fun e he => by
        cases he
        exact .inl (by rw [hu.1.1.env env.id (by simp [RestoreCopies])]; exact henv)⟩
      hv).mono (by rintro _ rfl; simp [AtPaths])
  have hv' := hstep hu hlast
  refine ⟨hv', hv', ?_, fun h => (hsync' h).atPaths hlast.1 (by simp), ?_⟩
  · obtain ⟨_, _, _, _, _, rfl⟩ := Op.run_snapshotSubvolume hv
    exact hshed.ticks.trans hticks
  · obtain ⟨tree, b, hsrc, _, _, rfl⟩ := Op.run_snapshotSubvolume hv
    refine ⟨tree, ?_, by simp⟩
    -- The snapshot to restore is not one that was pruned.
    have hkeep : u.node (.snap env.id x) = s.node (.snap env.id x) := by
      refine hu.1.1.node _ ?_
      simp [RestoreCopies, Prunable]
    rw [restoreTree, ← hkeep, hsrc]

/-- A restore before its swap. -/
structure BeforeSwap (named : Prop) (s t : Pool T) (env : EnvRow) (x : SnapID) : Prop where
  sound : Sound named (RestoreKeeps s env.id x) s t
  keeping : Keeping s t env
  snaps : ∀ y, KeepsSnap s t env.id y

/-- `restoreKeep` leaves a copy of the snapshot at `live.new`, and the workspace kept. -/
theorem wp_restoreKeep (hs : Sane named s) (henv : s.env? env.id = some env) :
    wp (restoreKeep env x) (fun _ t => BeforeSwap named s t env x)
      (fun _ t => BeforeSwap named s t env x ∧ KeptCopy s t env ∧
        (Synced s env.id → Synced t env.id) ∧ ∃ tree, restoreTree s env.id x = some tree ∧
          t.node (.restore env.id) = some (.subvol tree false))
      (fun _ t => BeforeSwap named s t env x ∧ (Synced s env.id → Synced t env.id)) s := by
  have hisw := hs.workspace _ env henv
  have hto : ∀ t, Sound named (RestoreCopies s env.id x) s t ∧ (∀ y, KeepsSnap s t env.id y) →
      BeforeSwap named s t env x := fun t ht =>
    ⟨ht.1.mono fun q hq => Or.inl hq, fun hfree => Or.inl (hfree.copies ht.1.1), ht.2⟩
  unfold restoreKeep
  refine wp_step (wp_restoreCopy hs (by rw [henv]; simp)) (fun _ => hto)
    (fun _ t h => ⟨hto t h.1, h.2⟩) ?_
  rintro _ t ⟨⟨ht, hsnaps⟩, hticks, hsync, hcopy⟩
  have hname : preRestoreID (t.clock t.ticks) = s.preRestore := by
    rw [hticks, ht.1.clock]
    rfl
  have htick : Sound named (RestoreCopies s env.id x) s { t with ticks := t.ticks + 1 } :=
    ht.trans (Sound.tick ht.2)
  have hsnaps' : ∀ y, KeepsSnap s { t with ticks := t.ticks + 1 } env.id y := fun y =>
    (hsnaps y).trans (KeepsSnap.frame (Sound.tick (P := fun _ => False) ht.2).1 (fun h => h)
      fun h => h) ht.1.clock ht.1.ticks (Nat.le_succ _)
  refine wp_timeNow (hto _ ⟨htick, hsnaps'⟩) ?_
  rw [hname]
  have husync : Synced s env.id → Synced { t with ticks := t.ticks + 1 } env.id := hsync
  generalize hu : ({ t with ticks := t.ticks + 1 } : Pool T) = u at htick hsnaps' husync ⊢
  have hrow : u.env? env.id = some env :=
    (htick.1.env _ (by simp [RestoreCopies])).trans henv
  have hwork : u.node env.workspace = s.node env.workspace :=
    htick.1.node _ fun h => hisw.not_restoreKeeps (.inl h)
  -- The row the snapshot gets is written after the name was chosen.
  have hwritten : ∀ {v : Pool T}, v.index.snap? env.id s.preRestore =
      some ⟨env.id, s.preRestore, unix (u.clock u.ticks)⟩ → ∃ k, s.ticks < k ∧
        v.index.snap? env.id s.preRestore = some ⟨env.id, s.preRestore, unix (s.clock k)⟩ := by
    intro v hv
    refine ⟨u.ticks, ?_, by rw [hv, htick.1.clock]⟩
    rw [← hu]
    exact Nat.lt_succ_of_lt (by rw [hticks]; exact Nat.lt_succ_self _)
  have hkeeping : ∀ v, Taking u v env s.preRestore → Keeping s v env := by
    intro v hv hfree
    have hfree' := hfree.copies htick.1
    rcases hv.node with hsame | ⟨_, tree, b, htree, hnode⟩
    · refine .inl ⟨hsame.trans hfree'.1, ?_⟩
      rcases hv.row with hr | ⟨_, hthere, _⟩
      · exact hr.trans hfree'.2
      · exact absurd (hsame.trans hfree'.1) hthere
    · refine .inr ⟨tree, b, by rw [← hwork]; exact htree, hnode, ?_⟩
      exact hv.row.imp (fun hr => hr.trans hfree'.2) fun hr => hwritten hr.2.2
  have hto' : ∀ v, Sound named (SnapPlaces env.id [s.preRestore]) u v ∧
      Taking u v env s.preRestore → BeforeSwap named s v env x := fun v hv =>
    ⟨(hto u ⟨htick, hsnaps'⟩).sound.trans (hv.1.mono fun q hq => Or.inr hq), hkeeping v hv.2,
      fun y => (hsnaps' y).trans (hv.2.keepsSnap hv.1.1 y) htick.1.clock htick.1.ticks hv.1.1.ticks⟩
  refine wp_mono (wp_snapshot htick.2 hrow (checkSnapID_preRestoreID _)) (fun _ => hto')
    (fun _ v h => ?_) fun _ v h => ?_
  · obtain ⟨⟨hv, htaking⟩, hthere, hrow'⟩ := h
    refine ⟨hto' v ⟨hv, htaking⟩, fun hfree => ?_, fun h y => ?_, ?_⟩
    · have hfree' := hfree.copies htick.1
      rcases htaking.node with hsame | ⟨_, tree, b, htree, hnode⟩
      · exact absurd (hsame.trans hfree'.1) hthere
      · refine ⟨tree, b, by rw [← hwork]; exact htree, hnode, ?_⟩
        rcases htaking.row with hr | hr
        · exact absurd (hr.trans hfree'.2) hrow'
        · exact hwritten hr.2.2
    · by_cases hy : y = s.preRestore
      · rw [hy]
        exact iff_of_true hrow' hthere
      · rw [hv.1.node _ (by simpa using hy), hv.1.snap _ _ (by simpa using hy)]
        exact husync h y
    · obtain ⟨tree, htree, hnode⟩ := hcopy
      refine ⟨tree, htree, ?_⟩
      rw [hv.1.node _ (by simp), ← hu]
      exact hnode
  · rw [h]
    exact ⟨hto u ⟨htick, hsnaps'⟩, husync⟩

omit [Tree T] in
theorem KeptCopy.frame {u : Pool T} (h : KeptCopy s t env) (hf : Frame P t u)
    (hout : ∀ y, ¬ P (.node (.snap env.id y)) ∧ ¬ P (.snap env.id y)) : KeptCopy s u env := by
  intro hfree
  rw [hf.node _ (hout _).1, hf.snap _ _ (hout _).2]
  exact h hfree

/-- The places a restore changes. -/
def Restores (s : Pool T) (env : EnvRow) (x : SnapID) (q : Place) : Prop :=
  RestoreKeeps s env.id x q ∨ q = .node env.workspace

/-- A restore after its swap: the whole of the snapshot is in place, and the old workspace
kept. -/
structure AfterSwap (named : Prop) (s t : Pool T) (env : EnvRow) (x : SnapID) : Prop where
  sound : Sound named (Restores s env x) s t
  kept : KeptCopy s t env
  snaps : ∀ y, KeepsSnap s t env.id y
  synced : Synced s env.id → Synced t env.id
  files : ∃ tree, restoreTree s env.id x = some tree ∧
    t.node env.workspace = some (.subvol tree false)

theorem BeforeSwap.files (h : BeforeSwap named s t env x)
    (hisw : Path.IsWorkspace env.id env.workspace) :
    t.node env.workspace = s.node env.workspace :=
  h.sound.1.node _ hisw.not_restoreKeeps

theorem run_swap (hisw : Path.IsWorkspace env.id env.workspace)
    (henv : s.env? env.id = some env) (ht : BeforeSwap named s t env x) (hkept : KeptCopy s t env)
    (hsub : named → ∃ tree b, s.node env.workspace = some (.subvol tree b))
    (hsync : Synced s env.id → Synced t env.id) {tree : T}
    (htree : restoreTree s env.id x = some tree)
    (hnew : t.node (.restore env.id) = some (.subvol tree false)) {u : Pool T}
    (hu : (Op.exchange (.restore env.id) env.workspace).run t = .ok u) :
    AfterSwap named s u env x := by
  have hne : env.workspace ≠ .restore env.id := by intro hc; rw [hc] at hisw; cases hisw
  have hwork := ht.files hisw
  have hsafe : (Op.exchange (.restore env.id) env.workspace : Op T).Safe named t := by
    refine ⟨fun n hn => ?_, fun n hn hnamed => ?_, fun e he => ?_, fun e =>
      ⟨(by simp), hisw.ne_marker e⟩⟩
    · rw [hnew] at hn
      cases hn
      cases hw : env.workspace with
      | live e => exact rfl
      | worktree r n => trivial
      | _ => rw [hw] at hisw; cases hisw
    · obtain ⟨old, b, hold⟩ := hsub hnamed
      rw [hwork, hold] at hn
      cases hn
      rfl
    · have hid : e = env.id := by
        rcases he with he | he
        · exact (Option.some.inj he).symm
        · rcases hisw.env? with h | h <;> rw [h] at he <;> cases he
          rfl
      rw [hid, Claimed, ht.sound.1.env _ (by simp [RestoreKeeps, RestoreCopies]), henv]
      exact .inl (by simp)
  have hf := Op.run_frame hu
  have hout : ∀ y, ¬ (Op.exchange (.restore env.id) env.workspace : Op T).writes
      (.node (.snap env.id y)) ∧ ¬ (Op.exchange (.restore env.id) env.workspace : Op T).writes
        (.snap env.id y) := by
    refine fun y => ⟨?_, nofun⟩
    rintro (hc | hc)
    · cases hc
    · rw [← Place.node.inj hc] at hisw
      cases hisw
  refine ⟨?_, hkept.frame hf hout, fun y => ?_, fun h => (hsync h).frame hf hout, tree, htree, ?_⟩
  · refine (ht.sound.mono fun q hq => Or.inl hq).step hsafe hu ?_
    rintro q (rfl | rfl)
    · exact .inl (.inl (.inr rfl))
    · exact .inr rfl
  · exact (ht.snaps y).trans (KeepsSnap.frame hf (hout y).1 (hout y).2) ht.sound.1.clock
      ht.sound.1.ticks hf.ticks
  · rw [(Op.run_exchange hu).2.2.2 hne]
    exact hnew

theorem AfterSwap.shed {u : Pool T} (hisw : Path.IsWorkspace env.id env.workspace)
    (h : AfterSwap named s t env x) (hu : Sane named u) (hshed : Shed [.restore env.id] t u) :
    AfterSwap named s u env x := by
  have hout : ∀ y, ¬ AtPaths [.restore env.id] (.node (.snap env.id y)) ∧
      ¬ AtPaths [.restore env.id] (.snap env.id y) := fun y => ⟨by simp [AtPaths], fun h => h⟩
  refine ⟨h.sound.trans ⟨hshed.frame.mono fun q hq => .inl (.inl (.inr hq.eq)), hu⟩,
    h.kept.frame hshed.frame hout, fun y => ?_,
    fun hsync => (h.synced hsync).frame hshed.frame hout, ?_⟩
  · exact (h.snaps y).trans (KeepsSnap.frame hshed.frame (hout y).1 (hout y).2) h.sound.1.clock
      h.sound.1.ticks hshed.frame.ticks
  · obtain ⟨tree, htree, hnode⟩ := h.files
    refine ⟨tree, htree, ?_⟩
    rw [hshed.frame.node _ ?_, hnode]
    rw [AtPaths, mem_singleton]
    intro hc
    rw [hc] at hisw
    cases hisw

/-- `restore`: at every moment the path holds the old workspace or the whole of the snapshot,
and the old one is kept before it is replaced.  A restore of a workspace that is no subvolume
must find the name it keeps it under free, or it swaps without keeping it. -/
theorem wp_restore (hs : Sane named s) (henv : s.env? env.id = some env)
    (hfree : named → s.Free env.id s.preRestore ∨
      ∃ tree b, s.node env.workspace = some (.subvol tree b)) :
    wp (restore env x) (fun _ t => BeforeSwap named s t env x ∨ AfterSwap named s t env x)
      (fun _ t => AfterSwap named s t env x)
      (fun _ t => BeforeSwap named s t env x ∧ (Synced s env.id → Synced t env.id)) s := by
  have hisw := hs.workspace _ env henv
  unfold restore
  refine wp_step (wp_restoreKeep hs henv) (fun _ _ h => Or.inl h) (fun _ _ h => h) ?_
  rintro _ t ⟨ht, hkept, hsync, tree, htree, hnew⟩
  have hsub : named → ∃ tree b, s.node env.workspace = some (.subvol tree b) := fun hnamed =>
    (hfree hnamed).elim (fun h => let ⟨old, b, hold, _⟩ := hkept h; ⟨old, b, hold⟩) id
  refine wp_seq (P := fun _ u => AfterSwap named s u env x) (wp_op (fun u hu => ?_)
    fun e _ => ⟨ht, hsync⟩) ?_
  · have hafter := run_swap hisw henv ht hkept hsub hsync htree hnew hu
    exact ⟨.inr hafter, hafter⟩
  · intro _ u hu
    exact wp_mono (wp_deleteSubvolumes hu.sound.2 (nodup_singleton _))
      (fun _ v h => Or.inr (hu.shed hisw h.1 h.2)) (fun _ v h => hu.shed hisw h.1.1 h.1.2)
      fun _ _ h => h.elim

theorem Restore_cases (id : EnvID) (x : SnapID) (s : Pool T) :
    (∃ e, Restore id x s = (fail e : StoreM T Unit) s) ∨
      ∃ env, env.id = id ∧ s.env? id = some env ∧ Restore id x s = restore env x s := by
  unfold Restore
  split
  swap
  · exact .inl ⟨_, rfl⟩
  rcases cases_of_reads (wp_mono (wp_get id s) (fun _ _ h => h) (fun _ _ h => h)
    fun _ _ h => h.1) with ⟨e, he⟩ | ⟨env, henv, hget⟩
  · exact .inl ⟨e, bind_of_fail he _⟩
  rw [bind_of_pure hget]
  rcases cases_of_reads (wp_snapshotPath ⟨id, x⟩ s) with ⟨e, he⟩ | ⟨_, _, hpath⟩
  · exact .inl ⟨e, bind_of_fail he _⟩
  · exact .inr ⟨env, Index.env?_id henv, henv, bind_of_pure hpath _⟩

end Restore

/-! ### Golden builds -/

section BuildSource

variable {src : SnapshotRef}

/-- The workspace of a build: the old one, none, or a copy of the source. -/
def Building (s t : Pool T) (id : EnvID) : Prop :=
  t.node (.live id) = s.node (.live id) ∨ t.node (.live id) = none ∨
    ∃ tree, t.node (.live id) = some (.subvol tree false)

theorem Sane.hasParent_live (hs : Sane named s) (henv : s.env? id ≠ none) :
    s.hasParent (.live id) = true := by
  obtain ⟨n, hn⟩ := Option.ne_none_iff_exists'.mp (hs.indexed id henv).1
  have hdir : n = .dir := (hs.holds _ n hn).1
  exact Pool.hasParent_of_dir rfl (by rw [hn, hdir])

theorem wp_BuildSource (hs : Sane named s) :
    wp (BuildSource id src)
      (fun _ t => Sound named (AtPaths [.sourceList id, .live id]) s t ∧ Building s t id)
      (fun _ t => Sound named (AtPaths [.sourceList id, .live id]) s t ∧ t.node (.live id) ≠ none)
      (fun _ t => Sound named (AtPaths [.sourceList id, .live id]) s t ∧
        t.node (.live id) = s.node (.live id)) s := by
  unfold BuildSource
  refine wp_step (wp_get id s) (fun _ _ h => h)
    (fun _ t h => by rw [h.1]; exact ⟨Sound.refl hs, rfl⟩) ?_
  rintro env s ⟨rfl, henv⟩
  split
  · rename_i hlive
    rw [hlive]
    refine wp_step (wp_snapshotPath src s) (fun _ _ h => h)
      (fun _ t h => by rw [h]; exact ⟨Sound.refl hs, rfl⟩) ?_
    rintro path s ⟨rfl, rfl, _⟩
    rw [wp_bind, wp_read]
    split
    · rename_i tree b hsrc
      refine wp_seq (P := fun _ t => Sound named (AtPaths [.sourceList id, .live id]) s t ∧
        t.node (.live id) = s.node (.live id) ∧
        t.node (.snap src.env src.snapshot) = some (.subvol tree b)) (wp_op (fun t ht => ?_)
          fun e _ => ⟨Sound.refl hs, rfl⟩) ?_
      · have hstep : Sound named (AtPaths [.sourceList id]) s t :=
          (Sound.run (o := .listSource id tree) hs trivial ht).mono
            (by rintro _ rfl; simp [AtPaths])
        have hsame : t.node (.live id) = s.node (.live id) := hstep.1.node _ (by simp [AtPaths])
        have hsound : Sound named (AtPaths [.sourceList id, .live id]) s t :=
          hstep.mono fun q hq => by rw [hq.eq]; exact mem_cons_self
        refine ⟨⟨hsound, .inl hsame⟩, hsound, hsame, ?_⟩
        rw [hstep.1.node _ (by simp [AtPaths])]
        exact hsrc
      rintro _ t ⟨ht, hsame, hsrc'⟩
      have hto : ∀ {P : Place → Prop} {u : Pool T}, (∀ q, P q → q = .node (.live id)) →
          Sound named P t u → Sound named (AtPaths [.sourceList id, .live id]) s u :=
        fun hP hu => ht.trans (hu.mono fun q hq => by rw [hP q hq]; simp [AtPaths])
      refine wp_step (wp_deleteSubvolumes ht.2 (nodup_singleton _)) (fun _ u h => ?_)
        (fun _ _ h => h.elim) ?_
      · refine ⟨hto (fun _ hq => hq.eq) ⟨h.2.frame, h.1⟩, ?_⟩
        rcases h.2.node (.live id) with hn | ⟨_, hn, _⟩
        · exact .inl (hn.trans hsame)
        · exact .inr (.inl hn)
      rintro _ u ⟨⟨hsane, hshed⟩, hgone⟩
      have hu : Sound named (AtPaths [.sourceList id, .live id]) s u :=
        hto (fun _ hq => hq.eq) ⟨hshed.frame, hsane⟩
      have hnone : u.node (.live id) = none := Pool.node_eq_none (hsane.holds _) (hgone _ (by simp))
      have hrow : u.env? id ≠ none := by
        rw [hu.1.env id fun h => h, henv]
        simp
      have hsrc'' : u.node (.snap src.env src.snapshot) = some (.subvol tree b) := by
        rw [hshed.frame.node _ (by simp [AtPaths])]
        exact hsrc'
      refine wp_op (fun v hv => ?_) fun e he => ?_
      · have hsound : Sound named (AtPaths [.sourceList id, .live id]) s v :=
          hu.step (o := .snapshotSubvolume (.snap src.env src.snapshot) (.live id))
            ⟨fun _ => rfl, fun e he => by cases he; exact .inl hrow⟩ hv fun q hq => by
              rw [show q = .node (.live id) from hq]; simp [AtPaths]
        obtain ⟨tree', _, _, _, _, rfl⟩ := Op.run_snapshotSubvolume hv
        exact ⟨⟨hsound, .inr (.inr ⟨tree', by simp⟩)⟩, hsound, by simp⟩
      · simp [Op.run, hsrc'', hnone, hsane.hasParent_live hrow] at he
    · rw [wp_fail]
      exact ⟨Sound.refl hs, rfl⟩
  · rw [wp_fail]
    exact ⟨Sound.refl hs, rfl⟩

end BuildSource

end Fern

/-
Restores and adopts never lose a workspace.

Both put a complete copy next to the workspace and swap the two in one step, so the path holds
the old tree or the new one at every moment, wherever calls are stopped and whether `Reconcile`
or the next call comes after.  A restore also keeps what it replaces, as a snapshot made before
the swap.  Only age removes that snapshot.
-/
import Fern.Proofs.Store.Between

namespace Fern

open Call StoreM

variable {T : Type} [Tree T]

/-- The calls of these histories: restores of an environment, creates that adopt its worktree
without a seed, and `Reconcile`.  A restore finds the name it will keep the workspace under
free, as two restores never start in the same nanosecond. -/
inductive Mends (id : EnvID) (s : Pool T) : Request T → Prop
  | restore (x : SnapID) (hfree : s.Free id s.preRestore) : Mends id s (.restore id x)
  | create (opts : CreateOptions T) (hseed : opts.seed = none) (hfork : opts.fork = none)
      (hpath : s.env? id = none → opts.workspace ≠ none) : Mends id s (.create id opts)
  | reconcile : Mends id s .reconcile

/-- Where workspaces are: the worktrees, and what the rows say. -/
def Pool.Workspace (s : Pool T) (p : Path) : Prop :=
  (∃ repo name, p = .worktree repo name) ∨ ∃ e row, s.env? e = some row ∧ row.workspace = p

/-- The tree a request is to put at a path: a restore its snapshot's, an adopt the files that
are there, over the golden's if there is one. -/
def Request.target (s : Pool T) (p : Path) : Request T → Option T
  | .restore id x => if (s.env? id).map EnvRow.workspace = some p then restoreTree s id x else none
  | .create id opts =>
    match s.env? id with
    | some row => if row.workspace = p then madeTree s p none else none
    | none => if opts.workspace.any fun arg => arg.names p then madeTree s p opts.golden else none
  | _ => none

/-- What holds between the steps of such a history: no delete is half done, and every
workspace in an environment's directory is there. -/
structure Steady (s : Pool T) : Prop extends Sane True s where
  unmarked : ∀ e p, s.marker? e ≠ some (some p)
  live : ∀ e, s.HasLive e → s.node (.live e) ≠ none

/-- What such a request can have done to the pool. -/
structure Mended (id : EnvID) (r : Request T) (s t : Pool T) : Prop where
  steady : Steady t
  whole : ∀ p, s.Workspace p → Whole s t p (r.target s p)
  row : s.env? id ≠ none → t.env? id ≠ none
  snaps : s.env? id ≠ none → ∀ y, KeepsSnap s t id y
  clock : t.clock = s.clock
  ticks : s.ticks ≤ t.ticks

section Mended

variable {s t : Pool T} {id : EnvID} {r : Request T}

theorem Tidy.steady (hs : Tidy s) : Steady s where
  toSane := hs.toSane
  unmarked e := (hs.tidy e).unmarked
  live e := fun ⟨row, hrow, hw⟩ => (hs.tidy e).live row hrow hw

theorem Mended.refl (hs : Steady s) : Mended id r s s :=
  ⟨hs, fun _ _ => Or.inl rfl, fun h => h, fun _ y => KeepsSnap.refl s id y, rfl, le_refl _⟩

theorem Steady.isWorkspace (hs : Steady s) {p : Path} (hp : s.Workspace p) :
    ∃ e, Path.IsWorkspace e p := by
  rcases hp with ⟨repo, name, rfl⟩ | ⟨e, row, hrow, rfl⟩
  · exact ⟨"", .worktree repo name⟩
  · exact ⟨e, hs.workspace e row hrow⟩

theorem Steady.keep (hs : Steady s) (ht : Sane True t) (hmark : ∀ e, Unmarking s t e)
    {w : Path} {tree : Option T} (hwhole : Whole s t w tree)
    (hlive : ∀ e, t.HasLive e → .live e = w ∨ s.HasLive e ∧ t.node (.live e) = s.node (.live e))
    (hw : ∀ e, .live e = w → s.node w ≠ none) : Steady t := by
  refine ⟨ht, fun e p hp => hs.unmarked e p (hmark e p hp), fun e he => ?_⟩
  rcases hlive e he with hc | ⟨hl, hsame⟩
  · rw [hc]
    rcases hwhole with h | ⟨a, _, h⟩
    · rw [h]; exact hw e hc
    · rw [h]; simp
  · rw [hsame]
    exact hs.live e hl

theorem mended_restore {env : EnvRow} {x : SnapID} (hs : Steady s) (henv : s.env? env.id = some env)
    (ht : Sound True (Restores s env x) s t) (hsnaps : ∀ y, KeepsSnap s t env.id y)
    (hwhole : Whole s t env.workspace (restoreTree s env.id x)) :
    Mended env.id (.restore env.id x) s t := by
  have hisw := hs.workspace _ env henv
  have hrow : ∀ e, t.env? e = s.env? e := fun e =>
    ht.1.env e (by simp [Restores, RestoreKeeps, RestoreCopies])
  have hother : ∀ {e p}, Path.IsWorkspace e p → p ≠ env.workspace → t.node p = s.node p := by
    intro e p hp hne
    refine ht.1.node p ?_
    rintro (hc | hc)
    · exact hp.not_restoreKeeps hc
    · exact hne (Place.node.inj hc)
  refine ⟨hs.keep ht.2 (fun e => .frame ht.1 ?_) hwhole (fun e he => ?_) fun e he => ?_,
    fun p hp => ?_, fun h => by rw [hrow]; exact h, fun _ => hsnaps, ht.1.clock, ht.1.ticks⟩
  · have := (hisw.ne_marker e).symm
    simp [Restores, RestoreKeeps, RestoreCopies, this]
  · by_cases hc : Path.live e = env.workspace
    · exact .inl hc
    · obtain ⟨row, hr, hw⟩ := he
      exact .inr ⟨⟨row, by rw [← hrow]; exact hr, hw⟩, hother (@Path.IsWorkspace.live e) hc⟩
  · have hid : e = env.id := by
      rw [← he] at hisw
      cases hisw
      rfl
    rw [← he]
    exact hs.live e ⟨env, by rw [hid]; exact henv, he.symm⟩
  · by_cases hc : p = env.workspace
    · rw [hc, Request.target, henv, Option.map_some, if_pos rfl]
      exact hwhole
    · obtain ⟨e, he⟩ := hs.isWorkspace hp
      exact .inl (hother he hc)

theorem mended_readopt {env : EnvRow} {opts : CreateOptions T} (hs : Steady s)
    (henv : s.env? env.id = some env) (ht : Sound True (Readopts env) s t)
    (hread : Readopted s t env) : Mended env.id (.create env.id opts) s t := by
  have hisw := hs.workspace _ env henv
  obtain ⟨⟨git, hgit⟩, hwhole⟩ := hread
  have hrow : ∀ e row, t.env? e = some row → ∃ row', s.env? e = some row' ∧
      row'.workspace = row.workspace := by
    intro e row hr
    by_cases he : e = env.id
    · subst he
      rw [hgit] at hr
      cases hr
      exact ⟨env, henv, rfl⟩
    · rw [ht.1.env e (by rintro (hc | hc); exacts [hc, he (Place.env.inj hc)])] at hr
      exact ⟨row, hr, rfl⟩
  have hother : ∀ {e p}, Path.IsWorkspace e p → p ≠ env.workspace → t.node p = s.node p := by
    intro e p hp hne
    refine ht.1.node p ?_
    rintro ((hc | hc | ⟨r, hc⟩) | hc)
    · exact hne hc
    · rw [hc] at hp; cases hp
    · rw [hc] at hp; cases hp
    · cases hc
  refine ⟨hs.keep ht.2 (fun e => .frame ht.1 ?_) hwhole (fun e he => ?_) fun e he => ?_,
    fun p hp => ?_, fun _ => by rw [hgit]; simp, fun _ y => KeepsSnap.frame ht.1 ?_ ?_, ht.1.clock,
    ht.1.ticks⟩
  · rintro ((hc | hc | ⟨r, hc⟩) | hc)
    · exact hisw.ne_marker e hc.symm
    all_goals cases hc
  · by_cases hc : Path.live e = env.workspace
    · exact .inl hc
    · obtain ⟨row, hr, hw⟩ := he
      obtain ⟨row', hr', hw'⟩ := hrow e row hr
      exact .inr ⟨⟨row', hr', hw'.trans hw⟩, hother (@Path.IsWorkspace.live e) hc⟩
  · have hid : e = env.id := by
      rw [← he] at hisw
      cases hisw
      rfl
    rw [← he]
    exact hs.live e ⟨env, by rw [hid]; exact henv, he.symm⟩
  · by_cases hc : p = env.workspace
    · simp only [hc, Request.target, henv, if_true]
      exact hwhole
    · obtain ⟨e, he⟩ := hs.isWorkspace hp
      exact .inl (hother he hc)
  · rintro ((hc | hc | ⟨r, hc⟩) | hc)
    · exact hisw.ne_snap _ _ hc.symm
    all_goals cases hc
  · rintro (hc | hc)
    · exact hc
    · cases hc

theorem mended_create {opts : CreateOptions T} (hs : Steady s) (hnone : s.env? id = none)
    (hseed : opts.seed = none) (hfork : opts.fork = none)
    (ht : Sound True (Creates s id opts) s t) (hmake : Creating s t id opts) :
    Mended id (.create id opts) s t := by
  -- No marker names a workspace, so only the one given is worked on.
  have hgiven : ∀ {w}, CreateWorkspaces s id opts w →
      ∃ repo name, opts.workspace = some (.worktree repo name) ∧ w = .worktree repo name := by
    rintro w (hc | ⟨repo, name, harg, rfl, _⟩)
    · exact absurd hc (hs.unmarked id w)
    · exact ⟨repo, name, harg, rfl⟩
  have hlive : ∀ e, e ≠ id → t.node (.live e) = s.node (.live e) := by
    intro e he
    refine ht.1.node _ ?_
    rintro ((hc | hc | ⟨r, hc⟩) | hc)
    · exact he (Option.some.inj hc)
    · obtain ⟨_, _, _, hc⟩ := hgiven hc
      cases hc
    all_goals cases hc
  have hrow : ∀ e, e ≠ id → t.env? e = s.env? e := fun e he =>
    ht.1.env e (by rintro (hc | hc); exacts [hc, he (Place.env.inj hc)])
  refine ⟨⟨ht.2, fun e p hp => ?_, fun e he => ?_⟩, fun p hp => ?_, fun h => absurd hnone h,
    fun h => absurd hnone h, ht.1.clock, ht.1.ticks⟩
  · by_cases he : e = id
    · subst he
      exact hs.unmarked e p (hmake.marker p hp)
    · refine hs.unmarked e p ?_
      rw [← ht.1.marker? ?_]
      · exact hp
      · rintro (hc | hc)
        · exact not_onDisk_marker (fun w hw => hw.isWorkspace hs.toSane) he hc
        · cases hc
  · obtain ⟨row, hr, hw⟩ := he
    by_cases he : e = id
    · subst he
      rw [← hw]
      exact hmake.made row hr
    · rw [hlive e he]
      exact hs.live e ⟨row, by rw [← hrow e he]; exact hr, hw⟩
  · obtain ⟨e, he⟩ := hs.isWorkspace hp
    cases he with
    | live =>
      refine .inl (hlive e ?_)
      rintro rfl
      rcases hp with ⟨_, _, hc⟩ | ⟨e', row, hr, hw⟩
      · cases hc
      · have hisw := hs.workspace e' row hr
        rw [hw] at hisw
        cases hisw
        rw [hnone] at hr
        cases hr
    | worktree repo name =>
      by_cases harg : opts.workspace = some (.worktree repo name)
      · simp only [Request.target, hnone, harg, Option.any_some, PathArg.names,
          decide_true, if_true]
        exact (hmake.whole repo name harg (hs.unmarked id _) hseed hfork).imp_right fun h => h.2
      · refine .inl (ht.1.node _ ?_)
        rintro ((hc | hc | ⟨r, hc⟩) | hc)
        · cases hc
        · obtain ⟨_, _, harg', hc⟩ := hgiven hc
          cases hc
          exact harg harg'
        all_goals cases hc

theorem mended_reconcile (hs : Steady s) (ht : Sane True t)
    (hrec : Recovered (fun _ => True) s t) : Mended id .reconcile s t := by
  have hlive : ∀ e, s.HasLive e → t.node (.live e) = s.node (.live e) := by
    rintro e ⟨row, hr, hw⟩
    refine hrec.frame.node _ fun hc => ?_
    exact hs.live e ⟨row, hr, hw⟩ (hc.live_eq_none hs.toApart (by rw [hr]; simp))
  refine ⟨⟨ht, fun e p hp => hs.unmarked e p (hrec.marker? hp), fun e he => ?_⟩,
    fun p hp => Or.inl ?_,
    fun h => by rw [hrec.env?]; exact h, fun h y => hrec.keepsSnap hs.toApart h y, hrec.frame.clock,
    hrec.frame.ticks⟩
  · obtain ⟨row, hr, hw⟩ := he
    have hs' : s.HasLive e := ⟨row, by rw [← hrec.env?]; exact hr, hw⟩
    rw [hlive e hs']
    exact hs.live e hs'
  · have hwork : ∀ repo name, t.node (.worktree repo name) = s.node (.worktree repo name) := by
      intro repo name
      refine hrec.frame.node _ ?_
      rintro (⟨e, _, _, hc | hc⟩ | ⟨_, _, _, hc, _⟩ | ⟨_, _, _, _, _, hc, _⟩ | ⟨_, _, _, _, hc, _⟩)
      · cases hc
      · exact hs.unmarked e _ hc
      · simp at hc
      · cases hc
      · cases hc
    rcases hp with ⟨repo, name, rfl⟩ | ⟨e, row, hr, rfl⟩
    · exact hwork repo name
    · cases hw : row.workspace with
      | live e' =>
        have hisw := hs.workspace e row hr
        rw [hw] at hisw
        cases hisw
        exact hlive e ⟨row, hr, hw⟩
      | worktree repo name => exact hwork repo name
      | _ =>
        have hisw := hs.workspace e row hr
        rw [hw] at hisw
        cases hisw

/-- **Every state such a request passes through.** -/
theorem keeps_mends (hs : Steady s) (hr : Mends id s r) : Keeps (Mended id r s) r.call s := by
  cases hr with
  | restore x hfree =>
    show wp (Restore id x) _ _ _ s
    rcases Restore_cases id x s with ⟨e, hrun⟩ | ⟨env, rfl, henv, hrun⟩ <;> rw [wp_congr hrun]
    · rw [wp_fail]; exact .refl hs
    have hbefore : ∀ t, BeforeSwap True s t env x → Mended env.id (.restore env.id x) s t :=
      fun t h => mended_restore hs henv (h.sound.mono fun q hq => Or.inl hq) h.snaps
        (.inl (h.files (hs.workspace _ env henv)))
    have hafter : ∀ t, AfterSwap True s t env x → Mended env.id (.restore env.id x) s t :=
      fun t h => mended_restore hs henv h.sound h.snaps (.inr h.files)
    exact wp_mono (wp_restore hs.toSane henv fun _ => Or.inl hfree)
      (fun _ t h => h.elim (hbefore t) (hafter t)) (fun _ => hafter) fun _ t h => hbefore t h.1
  | create opts hseed hfork hpath =>
    refine keeps_bind ?_ fun _ t ht => by rw [keeps_pure]; exact ht
    rcases Create_cases id opts s with ⟨e, hrun⟩ | ⟨env, rfl, henv, hrun⟩ |
      ⟨hcheck, hnone, hrun⟩ <;>
      rw [Keeps, wp_congr hrun]
    · rw [wp_fail]; exact .refl hs
    · exact (keeps_readopt hs.toSane henv).mono fun t h => mended_readopt hs henv h.1 h.2
    · have hto : ∀ t, Sound True (Creates s id opts) s t ∧ Creating s t id opts →
          Mended id (.create id opts) s t := fun t h => mended_create hs hnone hseed hfork h.1 h.2
      exact wp_mono (wp_create hs.toSane hcheck hnone fun repo name _ e _ => hs.unmarked e _)
        (fun _ => hto) (fun _ t h => hto t h.1) fun _ t h => hto t h.1
  | reconcile =>
    refine wp_seq (P := fun _ t => Mended id .reconcile s t) (wp_mono (wp_Reconcile hs.toSane)
      (fun _ _ h => mended_reconcile hs h.1 h.2) (fun _ _ h =>
        mended_reconcile hs h.2.1.1 h.2.1.2)
      fun _ _ h => h.elim) fun _ t ht => ?_
    rw [wp_pure]; exact ht

theorem Steady.outside (hs : Steady s) (h : Outside s t) : Steady t := by
  refine ⟨hs.toSane.outside h, fun e p hp => hs.unmarked e p ?_, fun e ⟨row, hr, hw⟩ => ?_⟩
  · unfold Pool.marker? at hp ⊢
    rw [← h.node (.marker e) fun hc => hc]
    exact hp
  · have hl := hs.live e ⟨row, by rw [Pool.env?, ← h.index]; exact hr, hw⟩
    obtain ⟨n, hn⟩ := Option.ne_none_iff_exists'.mp hl
    have hsub : n.isSubvolume = true := hs.holds _ n hn
    cases n with
    | subvol tree b =>
      obtain ⟨tree', b', ht⟩ := (h.live e).1 tree b hn
      rw [ht]; simp
    | _ => cases hsub

/-- A step of such a history is one of its requests, ended or stopped, or a change of others'. -/
theorem Steady.step (hs : Steady s) (h : Step (Mends id) s t) :
    (∃ r, Mends id s r ∧ Mended id r s t) ∨ Outside s t := by
  cases h with
  | ends r hr => exact .inl ⟨r, hr, (keeps_mends hs hr).final⟩
  | stops r hr ht => exact .inl ⟨r, hr, (keeps_mends hs hr).stops (.refl hs) ht⟩
  | outside h => exact .inr h

theorem Steady.run (hs : Steady s) (h : Relation.ReflTransGen (Step (Mends id)) s t) :
    Steady t := by
  induction h with
  | refl => exact hs
  | tail _ hst ih =>
    rcases ih.step hst with ⟨r, _, hm⟩ | hout
    · exact hm.steady
    · exact ih.outside hout

end Mended

/-! ### Trees a restore keeps -/

section Held

variable {s t : Pool T} {id : EnvID} {x : SnapID} {tree : T} {n j : Nat}

/-- Snapshot `x`, dated by reading `j` of the clock, holds `tree`, unless a reading since the
`n`th was over a day later. -/
structure Held (id : EnvID) (x : SnapID) (tree : T) (n j : Nat) (t : Pool T) : Prop where
  row : t.env? id ≠ none
  ticks : n ≤ t.ticks
  held : (t.node (.snap id x) = some (.subvol tree false) ∧
      t.index.snap? id x = some ⟨id, x, unix (t.clock j)⟩) ∨
    ∃ k, n ≤ k ∧ k < t.ticks ∧ t.clock j + preRestoreKeep < t.clock k

theorem lt_of_unix_lt {a b : Int} (h : unix a < unix b) : a < b := by
  by_contra hc
  exact absurd h (not_lt.mpr (Int.ediv_le_ediv (by decide) (not_lt.mp hc)))

omit [Tree T] in
theorem Held.keep (h : Held id x tree n j s) (hrow : t.env? id ≠ none) (hkeep : KeepsSnap s t id x)
    (hclock : t.clock = s.clock) (hticks : s.ticks ≤ t.ticks) : Held id x tree n j t := by
  refine ⟨hrow, h.ticks.trans hticks, ?_⟩
  rw [hclock]
  rcases h.held with ⟨hnode, hdate⟩ | ⟨k, hn, hk, hold⟩
  · rcases hkeep _ hdate (by rw [hnode]; simp) with ⟨hdate', hnode'⟩ | ⟨_, k, hk, hk', hold⟩
    · exact .inl ⟨hnode'.trans hnode, hdate'⟩
    · refine .inr ⟨k, h.ticks.trans hk, hk', ?_⟩
      have hlater : (s.clock j : Int) < s.clock k - preRestoreKeep := lt_of_unix_lt hold
      exact Int.ofNat_lt.mp (by push_cast; omega)
  · exact .inr ⟨k, hn, lt_of_lt_of_le hk hticks, hold⟩

theorem Held.step (hs : Steady s) (h : Held id x tree n j s) (hst : Step (Mends id) s t) :
    Held id x tree n j t := by
  rcases hs.step hst with ⟨r, _, hm⟩ | hout
  · exact h.keep (hm.row h.row) (hm.snaps h.row x) hm.clock hm.ticks
  · refine h.keep (by rw [Pool.env?, hout.index]; exact h.row) (fun row hrow _ => Or.inl ⟨?_, ?_⟩)
      hout.clock (le_of_eq hout.ticks.symm)
    · rw [hout.index]; exact hrow
    · exact hout.node _ fun hc => hc

theorem Held.run (hs : Steady s) (h : Held id x tree n j s)
    (hrun : Relation.ReflTransGen (Step (Mends id)) s t) : Held id x tree n j t := by
  have hboth : Steady t ∧ Held id x tree n j t := by
    induction hrun with
    | refl => exact ⟨hs, h⟩
    | tail hmid hst ih => exact ⟨hs.run (hmid.tail hst), ih.2.step ih.1 hst⟩
  exact hboth.2

end Held

/-- A restore is through with its copies in `u`, and its swap makes `t` of that. -/
structure Swaps (s : Pool T) (env : EnvRow) (x : SnapID) (u t : Pool T) : Prop where
  kept : (restoreKeep env x s).result = .ok ()
  before : (restoreKeep env x s).final = u
  swap : (Op.exchange (.restore env.id) env.workspace).run u = .ok t

section Swap

variable {s t u v : Pool T} {env : EnvRow} {x : SnapID}

theorem Swaps.before_swap (h : Swaps s env x u t) (hs : Steady s) (henv : s.env? env.id = some env)
    (hfree : s.Free env.id s.preRestore) :
    AfterSwap True s t env x ∧ ∃ tree b j, u.node env.workspace = some (.subvol tree b) ∧
      s.ticks < j ∧ Held env.id s.preRestore tree s.ticks j u := by
  obtain ⟨hend, rfl, hswap⟩ := h
  have hisw := hs.workspace _ env henv
  have hkeep := (wp_restoreKeep (x := x) hs.toSane henv).2
  rw [hend] at hkeep
  obtain ⟨hu, hkept, hsync, new, hnew, hcopy⟩ := hkeep
  obtain ⟨tree, b, hold, hnode, j, hj, hdate⟩ := hkept hfree
  refine ⟨run_swap hisw henv hu hkept (fun _ => ⟨tree, b, hold⟩) hsync hnew hcopy hswap, tree, b, j,
    (hu.files hisw).trans hold, hj, ?_, hu.sound.1.ticks, .inl ⟨hnode, ?_⟩⟩
  · rw [hu.sound.1.env _ (by simp [RestoreKeeps, RestoreCopies]), henv]
    simp
  · rw [hu.sound.1.clock]
    exact hdate

theorem Swaps.after_swap (h : Swaps s env x u t) (hs : Steady s) (henv : s.env? env.id = some env)
    (ht : AfterSwap True s t env x) {y : SnapID} {tree : T} {n j : Nat}
    (hheld : Held env.id y tree n j u) (hv : Stops (deleteSubvolumes [.restore env.id]) t v ∨
      v = (deleteSubvolumes [.restore env.id] t).final) : Steady v ∧ Held env.id y tree n j v := by
  have hisw := hs.workspace _ env henv
  have hshed : Sane True v ∧ Shed [.restore env.id] t v := by
    have hkeep : Keeps (fun v => Sane True v ∧ Shed [.restore env.id] t v)
        (deleteSubvolumes [.restore env.id]) t :=
      wp_mono (wp_deleteSubvolumes ht.sound.2 (List.nodup_singleton _)) (fun _ _ h => h)
        (fun _ _ h => h.1) fun _ _ h => h.elim
    rcases hv with hv | rfl
    · exact hkeep.stops ⟨ht.sound.2, .refl _ t⟩ hv
    · exact hkeep.final
  have hrest := ht.shed hisw hshed.1 hshed.2
  have hrow : ∀ {v}, Sound True (Restores s env x) s v → v.env? env.id ≠ none := fun hv => by
    rw [hv.1.env _ (by simp [Restores, RestoreKeeps, RestoreCopies]), henv]; simp
  refine ⟨(mended_restore hs henv hrest.sound hrest.snaps (.inr hrest.files)).steady, ?_⟩
  have hf := Op.run_frame h.swap
  have hswapped : Held env.id y tree n j t := by
    refine hheld.keep (hrow ht.sound) (KeepsSnap.frame hf ?_ (by rintro (h | h) <;> cases h))
      hf.clock hf.ticks
    rintro (hc | hc)
    · cases hc
    · exact hisw.ne_snap _ _ (Place.node.inj hc).symm
  exact hswapped.keep (hrow hrest.sound) (KeepsSnap.frame hshed.2.frame (by simp [AtPaths])
    fun h => h) hshed.2.frame.clock hshed.2.frame.ticks

end Swap

/-- **Restores and adopts never lose a workspace.**  In a history of such calls, stopped
anywhere, each workspace's path holds at every moment of a call what it held before, or the whole
of what the call was to put there.  What a restore's swap replaces is held by a snapshot
before the swap and in every state after it, until the snapshot is a day old. -/
theorem workspace_never_lost {id : EnvID} {s₀ s : Pool T} (h₀ : Between s₀)
    (hrun : Relation.ReflTransGen (Step (Mends id)) s₀ s) {r : Request T} (hr : Mends id s r) :
    (∀ t, Stops r.call s t ∨ t = (r.call s).final →
      ∀ p, s.Workspace p → Whole s t p (r.target s p)) ∧
    ∀ x env u t, r = .restore id x → s.env? id = some env → Swaps s env x u t →
      ∃ tree b j, u.node env.workspace = some (.subvol tree b) ∧ s.ticks < j ∧
        Held id s.preRestore tree s.ticks j u ∧
        ∀ v, Stops (deleteSubvolumes [.restore id]) t v ∨
            v = (deleteSubvolumes [.restore id] t).final →
          ∀ w, Relation.ReflTransGen (Step (Mends id)) v w →
            Held id s.preRestore tree s.ticks j w := by
  have hs := h₀.tidy.steady.run hrun
  refine ⟨fun t ht => ?_, ?_⟩
  · have hkeep := keeps_mends hs hr
    rcases ht with ht | rfl
    · exact (hkeep.stops (.refl hs) ht).whole
    · exact hkeep.final.whole
  · rintro x env u t rfl henv hswap
    cases hr with
    | restore _ hfree =>
    have hid := Index.env?_id henv
    subst hid
    obtain ⟨ht, tree, b, j, hold, hj, hheld⟩ := hswap.before_swap hs henv hfree
    refine ⟨tree, b, j, hold, hj, hheld, fun v hv w hw => ?_⟩
    obtain ⟨hsteady, hheld'⟩ := hswap.after_swap hs henv ht hheld hv
    exact hheld'.run hsteady hw

/-- `demo`, made in a fresh pool from a seed of one file, with a snapshot. -/
def snapped : Pool (List String) :=
  ((Request.snapshot "demo" "s1").call
    ((Request.create "demo" { seed := some [fun _ => ["s"]] }).call Pool.new).final).final

/-- Its box has changed the workspace since. -/
def written (nested : Bool) : Pool (List String) :=
  snapped.put (.live "demo") (.subvol ["a"] nested)

theorem between_written (nested : Bool) : Between (written nested) := by
  have hsnapped : Between snapped :=
    .ends (.ends (.fresh Pool.new_fresh) _ fun _ _ _ => (by simp)) (.snapshot "demo" "s1")
      fun _ _ _ => (by simp)
  have hlive : snapped.node (.live "demo") = some (.subvol ["s"] false) := by decide
  have hother : ∀ p, p ≠ .live "demo" → (written nested).node p = snapped.node p := fun p hp => by
    rw [written, Pool.node_put, if_neg hp]
  refine .outside hsnapped ⟨rfl, rfl, rfl, fun p hp => hother p ?_, fun id => ?_, ?_⟩
  · rintro rfl
    exact hp (show snapped.env? "demo" ≠ none by decide)
  · by_cases hid : id = "demo"
    · subst hid
      refine ⟨fun _ _ _ => ⟨["a"], nested, by rw [written, Pool.node_put, if_pos rfl]⟩, fun h => ?_⟩
      rw [hlive] at h
      cases h
    · rw [hother (.live id) (by simpa using hid)]
      exact ⟨fun tree nested h => ⟨tree, nested, h⟩, fun h => h⟩
  · intro id tree h
    exact ⟨tree, by rw [hother (.claude id) (by simp), h]⟩

/-- A restore of the snapshot puts its file in place and holds what the box had written. -/
theorem workspace_never_lost_written :
    let s := written false
    let t := ((Request.restore "demo" "s1").call s).final
    Whole s t (.live "demo") (some ["s"]) ∧ t.node (.live "demo") = some (.subvol ["s"] false) ∧
      ∃ j, Held "demo" s.preRestore ["a"] s.ticks j t := by
  have hfree : (written false).Free "demo" (written false).preRestore := ⟨by decide, by decide⟩
  obtain ⟨hwhole, hheld⟩ :=
    workspace_never_lost (between_written false) .refl (.restore "s1" hfree)
  refine ⟨hwhole _ (.inr rfl) _
    (.inr ⟨"demo", ⟨"demo", .live "demo", "", 0, ""⟩, by decide, rfl⟩),
    by decide, ?_⟩
  obtain ⟨tree, b, j, hu, -, -, hafter⟩ := hheld "s1" ⟨"demo", .live "demo", "", 0, ""⟩ _ _ rfl
    (by decide) ⟨rfl, rfl, rfl⟩
  obtain rfl : ["a"] = tree := by
    have hlive : (restoreKeep ⟨"demo", .live "demo", "", 0, ""⟩ "s1" (written false)).final.node
        (.live "demo") = some (.subvol ["a"] false) := by decide
    exact (Node.subvol.inj (Option.some.inj (hlive.symm.trans hu))).1
  exact ⟨j, hafter _ (.inr rfl) _ .refl⟩

/-- A worktree with a file. -/
def worktreeThere : Pool (List String) :=
  (Pool.new.put (.repo "repo") .dir).put (.worktree "repo" "thread") (.plain ["f"])

/-- A create that adopts it, with a seed of two files. -/
def seeded : Request (List String) :=
  .create "demo" { workspace := some (.worktree "repo" "thread"),
                   seed := some [fun t => t ++ ["x"], fun t => t ++ ["y"]] }

/-- A restore keeps the workspace without the subvolume in it, which is nowhere afterwards.  A
create with a seed passes through what is neither the worktree nor all of the seed. -/
theorem restore_drops_inside :
    (let s := written true
      let t := ((Request.restore "demo" "s1").call s).final
      Between s ∧ s.Free "demo" s.preRestore ∧
        s.node (.live "demo") = some (.subvol ["a"] true) ∧
        t.node (.live "demo") = some (.subvol ["s"] false) ∧
        t.node (.snap "demo" s.preRestore) = some (.subvol ["a"] false) ∧
        (t.disk.keys.all fun p =>
          match t.node p with
          | some (.subvol _ nested) => !nested
          | _ => true) = true) ∧
    Between worktreeThere ∧
      worktreeThere.node (.worktree "repo" "thread") = some (.plain ["f"]) ∧
      (seeded.call.stopAt 12 worktreeThere).node (.worktree "repo" "thread") =
        some (.subvol ["f", "x"] false) ∧
      (seeded.call worktreeThere).final.node (.worktree "repo" "thread") =
        some (.subvol ["f", "x", "y"] false) := by
  refine ⟨⟨between_written true,
    ⟨by decide, by decide⟩, by decide, by decide, by decide, by decide⟩,
    .fresh ⟨rfl, fun p hp => ?_⟩, by decide, by decide, by decide⟩
  have hout : p ≠ .repo "repo" ∧ p ≠ .worktree "repo" "thread" :=
    ⟨by rintro rfl; exact hp rfl, by rintro rfl; exact hp rfl⟩
  rw [worktreeThere, Pool.node_put, if_neg hout.2, Pool.node_put, if_neg hout.1]
  rfl

end Fern

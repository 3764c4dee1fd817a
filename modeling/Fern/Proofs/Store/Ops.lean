/-
What one operation can change.

`Op.writes` is the places an operation may change: paths of the disk and rows of the index.
Everything else stays, and that is proved once here, by cases on the operation.  A call's
effect on what it does not own then follows from the operations it performs, without looking
at what they do.
-/
import Fern.Store.Pool
import Fern.Proofs.Store.Index

namespace Fern

open Call

variable {T : Type} {id : EnvID}

/-! ### The pool after a write -/

namespace Pool

variable (s : Pool T)

@[simp] theorem node_put (p q : Path) (n : Node T) :
    (s.put p n).node q = if q = p then some n else s.node q := rfl

@[simp] theorem node_drop (p q : Path) :
    (s.drop p).node q = if q = p then none else s.node q := by
  simp [drop, node]

@[simp] theorem node_own (p q : Path) (o : Owner) : (s.own p o).node q = s.node q := rfl

theorem mem_envDirs {s : Pool T} :
    id ∈ s.envDirs ↔ s.node (.envDir id) ≠ none := by
  unfold envDirs
  rw [List.mem_insertionSort, List.mem_filterMap]
  constructor
  · rintro ⟨p, hp, hid⟩
    cases p <;> simp at hid
    subst hid
    exact FinMap.mem_keys.mp hp
  · intro h
    exact ⟨.envDir id, FinMap.mem_keys.mpr h, rfl⟩

theorem mem_snapDirs {s : Pool T} {x : SnapID} :
    x ∈ s.snapDirs id ↔ s.node (.snap id x) ≠ none := by
  unfold snapDirs
  rw [List.mem_insertionSort, List.mem_filterMap]
  constructor
  · rintro ⟨p, hp, hx⟩
    cases p <;> simp at hx
    obtain ⟨rfl, rfl⟩ := hx
    exact FinMap.mem_keys.mp hp
  · intro h
    exact ⟨.snap id x, FinMap.mem_keys.mpr h, by simp⟩

theorem marker?_eq_some {s : Pool T} {ws : Option Path} :
    s.marker? id = some ws ↔ s.node (.marker id) = some (.mark ws) := by
  unfold marker?
  constructor
  · intro h
    split at h
    · rename_i ws' hn
      cases h
      exact hn
    · cases h
  · intro h
    rw [h]

end Pool

/-! ### Footprints -/

/-- A place in the pool: a path, an environment's row, or a snapshot's. -/
inductive Place where
  | node (p : Path)
  | env (id : EnvID)
  | snap (env : EnvID) (id : SnapID)

/-- `t` differs from `s` only in the places `P`, and the clock has only gone on. -/
structure Frame (P : Place → Prop) (s t : Pool T) : Prop where
  node : ∀ p, ¬ P (.node p) → t.node p = s.node p
  env : ∀ e, ¬ P (.env e) → t.env? e = s.env? e
  snap : ∀ e x, ¬ P (.snap e x) → t.index.snap? e x = s.index.snap? e x
  clock : t.clock = s.clock
  ticks : s.ticks ≤ t.ticks
  gitDir : t.gitDir = s.gitDir

namespace Frame

variable {P P' : Place → Prop} {s t u : Pool T}

theorem refl (P : Place → Prop) (s : Pool T) : Frame P s s :=
  ⟨fun _ _ => rfl, fun _ _ => rfl, fun _ _ _ => rfl, rfl, le_refl _, rfl⟩

theorem trans (h : Frame P s t) (h' : Frame P t u) : Frame P s u where
  node p hp := (h'.node p hp).trans (h.node p hp)
  env e he := (h'.env e he).trans (h.env e he)
  snap e x hx := (h'.snap e x hx).trans (h.snap e x hx)
  clock := h'.clock.trans h.clock
  ticks := h.ticks.trans h'.ticks
  gitDir := h'.gitDir.trans h.gitDir

theorem mono (h : Frame P s t) (hP : ∀ q, P q → P' q) : Frame P' s t where
  node p hp := h.node p fun hc => hp (hP _ hc)
  env e he := h.env e fun hc => he (hP _ hc)
  snap e x hx := h.snap e x fun hc => hx (hP _ hc)
  clock := h.clock
  ticks := h.ticks
  gitDir := h.gitDir

theorem own (h : Frame P s t) (p : Path) (o : Owner) : Frame P s (t.own p o) :=
  ⟨h.node, h.env, h.snap, h.clock, h.ticks, h.gitDir⟩

theorem marker? {e : EnvID} (h : Frame P s t) (he : ¬ P (.node (.marker e))) :
    t.marker? e = s.marker? e := by
  unfold Pool.marker?
  rw [h.node _ he]

end Frame

namespace Op

/-- The places an operation may change. -/
def writes : Op T → Place → Prop
  | mkdir p, q => q = .node p
  | createSubvolume p, q => q = .node p
  | chown _, _ => False
  | snapshotSubvolume _ p, q => q = .node p
  | deleteSubvolume p, q => q = .node p
  | deleteNested p, q => q = .node p
  | fill p _, q => q = .node p
  | exchange a b, q => q = .node a ∨ q = .node b
  | removeAll (.envDir id), q => ∃ p : Path, q = .node p ∧ p.env? = some id
  | removeAll p, q => q = .node p
  | remove p, q => q = .node p
  | truncateMarker id, q => q = .node (.marker id)
  | writeMarker id _, q => q = .node (.marker id)
  | listSource id _, q => q = .node (.sourceList id)
  | insertEnv row, q => q = .env row.id
  | setEnvGit id _, q => q = .env id
  | deleteEnv id, q => q = .env id ∨ ∃ x, q = .snap id x
  | keepSnapshot row, q => q = .snap row.env row.id
  | replaceSnapshot row, q => q = .snap row.env row.id
  | deleteSnapshot env id, q => q = .snap env id
  | recoverSnapshots env _ _ _, q => ∃ x, q = .snap env x
  | clock, _ => False

variable [Tree T] {o : Op T} {s t : Pool T}

/-! A statement of the index replaces the index, if it succeeds, and nothing else. -/

omit [Tree T] in
private theorem bind_index_ok {r : Except Err Index}
    (h : (do let x ← r; pure { s with index := x }) = Except.ok t) :
    ∃ x, r = .ok x ∧ t = { s with index := x } := by
  cases r with
  | error e => cases h
  | ok x => cases h; exact ⟨x, rfl, rfl⟩

theorem run_insertEnv {row : EnvRow} (h : (insertEnv row).run s = .ok t) :
    ∃ x, s.index.insertEnv row = .ok x ∧ t = { s with index := x } := bind_index_ok h

theorem run_keepSnapshot {row : SnapRow} (h : (keepSnapshot row).run s = .ok t) :
    ∃ x, s.index.keepSnapshot row = .ok x ∧ t = { s with index := x } := bind_index_ok h

theorem run_replaceSnapshot {row : SnapRow} (h : (replaceSnapshot row).run s = .ok t) :
    ∃ x, s.index.replaceSnapshot row = .ok x ∧ t = { s with index := x } := bind_index_ok h

theorem run_recoverSnapshots {env : EnvID} {missing stale : List SnapID} {created : Int}
    (h : (recoverSnapshots env missing stale created).run s = .ok t) :
    ∃ x, s.index.recoverSnapshots env missing stale created = .ok x ∧
      t = { s with index := x } := bind_index_ok h

theorem run_createSubvolume {p : Path} (h : (createSubvolume p).run s = .ok t) :
    s.node p = none ∧ s.hasParent p = true ∧
      t = (s.own p .root).put p (.subvol Tree.empty false) := by
  simp only [run] at h
  repeat' split at h
  all_goals cases h
  rename_i hp hpar
  exact ⟨hp, hpar, rfl⟩

theorem run_snapshotSubvolume {source p : Path} (h : (snapshotSubvolume source p).run s = .ok t) :
    ∃ tree nested, s.node source = some (.subvol tree nested) ∧ s.node p = none ∧
      s.hasParent p = true ∧ t = (s.own p (s.owner source)).put p (.subvol tree false) := by
  simp only [run] at h
  repeat' split at h
  all_goals cases h
  rename_i tree nested hsource hp hpar
  exact ⟨tree, nested, hsource, hp, hpar, rfl⟩

theorem run_exchange {p q : Path} (h : (exchange p q).run s = .ok t) :
    s.node p ≠ none ∧ s.node q ≠ none ∧ t = { (s.own p (s.owner q)).own q (s.owner p) with
      disk := s.disk.swap p q } ∧ (q ≠ p → t.node q = s.node p) := by
  simp only [run] at h
  split at h
  · rename_i hp hq
    cases h
    exact ⟨by simp [hp], by simp [hq], rfl, fun hne => by simp [Pool.node, hne]⟩
  · cases h

omit [Tree T] in
private theorem frame_of_node {P : Place → Prop}
    (hnode : ∀ p, ¬ P (.node p) → t.node p = s.node p) (hindex : t.index = s.index)
    (hclock : t.clock = s.clock) (hticks : s.ticks ≤ t.ticks) (hgit : t.gitDir = s.gitDir) :
    Frame P s t :=
  ⟨hnode, fun e _ => by rw [Pool.env?, hindex]; rfl, fun e x _ => by rw [hindex], hclock, hticks,
    hgit⟩

omit [Tree T] in
private theorem frame_of_index {P : Place → Prop} {x : Index}
    (henv : ∀ e, ¬ P (.env e) → x.env? e = s.index.env? e)
    (hsnap : ∀ e i, ¬ P (.snap e i) → x.snap? e i = s.index.snap? e i) :
    Frame P s { s with index := x } :=
  ⟨fun _ _ => rfl, henv, hsnap, rfl, le_refl _, rfl⟩

/-- **What an operation does not write stays.** -/
theorem run_frame (h : o.run s = .ok t) : Frame o.writes s t := by
  cases o
  case clock =>
    cases h
    exact frame_of_node (fun _ _ => rfl) rfl rfl (Nat.le_succ _) rfl
  case removeAll p =>
    cases p
    case envDir id =>
      cases h
      refine frame_of_node (fun q hq => ?_) rfl rfl (le_refl _) rfl
      have : ¬ q.env? = some id := fun hc => hq ⟨q, rfl, hc⟩
      simp [Pool.node, this]
    all_goals
      cases h
      refine frame_of_node (fun q hq => ?_) rfl rfl (le_refl _) rfl
      simp only [writes, Place.node.injEq] at hq
      simp [hq]
  case insertEnv row =>
    obtain ⟨x, hx, rfl⟩ := run_insertEnv h
    refine frame_of_index (fun e he => ?_) fun e i _ => Index.snap?_insertEnv hx e i
    exact (Index.env?_insertEnv hx e).trans (if_neg fun hc => he (by rw [hc]; rfl))
  case setEnvGit a git =>
    cases h
    refine frame_of_index (fun e he => ?_) fun _ _ _ => rfl
    exact (Index.env?_setEnvGit _ _ _).trans (if_neg fun hc => he (by rw [hc]; rfl))
  case deleteEnv a =>
    cases h
    refine frame_of_index (fun e he => ?_) fun e i hi => ?_
    · exact (Index.env?_deleteEnv _ _).trans (if_neg fun hc => he (.inl (by rw [hc])))
    · exact (Index.snap?_deleteEnv _ _ _).trans
        (if_neg fun hc => hi (.inr ⟨i, by rw [hc]⟩))
  case keepSnapshot row =>
    obtain ⟨x, hx, rfl⟩ := run_keepSnapshot h
    refine frame_of_index (fun e _ => Index.env?_keepSnapshot hx e) fun e i hi => ?_
    exact (Index.snap?_keepSnapshot hx e i).trans
      (if_neg fun hc => hi (by rw [hc.1, hc.2]; rfl))
  case replaceSnapshot row =>
    obtain ⟨x, hx, rfl⟩ := run_replaceSnapshot h
    refine frame_of_index (fun e _ => Index.env?_replaceSnapshot hx e) fun e i hi => ?_
    exact (Index.snap?_replaceSnapshot hx e i).trans
      (if_neg fun hc => hi (by rw [hc.1, hc.2]; rfl))
  case deleteSnapshot a b =>
    cases h
    refine frame_of_index (fun _ _ => rfl) fun e i hi => ?_
    exact (Index.snap?_deleteSnapshot _ _ _ _).trans
      (if_neg fun hc => hi (by rw [hc.1, hc.2]; rfl))
  case recoverSnapshots env missing stale created =>
    obtain ⟨x, hx, rfl⟩ := run_recoverSnapshots h
    obtain ⟨henv, hsnap⟩ := Index.recoverSnapshots_spec hx
    refine frame_of_index (fun e _ => henv e) fun e i hi => (hsnap e i).trans ?_
    have hne : e ≠ env := fun hc => hi ⟨i, by rw [hc]⟩
    rw [if_neg fun hc => hne hc.1, if_neg fun hc => hne hc.1]
  case exchange a b =>
    obtain ⟨-, -, rfl, -⟩ := run_exchange h
    refine frame_of_node (fun q hq => ?_) rfl rfl (le_refl _) rfl
    simp only [writes, Place.node.injEq, not_or] at hq
    simp [Pool.node, hq.1, hq.2]
  all_goals
    simp only [run] at h
    repeat' split at h
    all_goals first
      | (cases h; done)
      | (cases h; exact Frame.refl _ _)
      | skip
    all_goals
      cases h
      refine frame_of_node (fun q hq => ?_) rfl rfl (le_refl _) rfl
      simp only [writes, Place.node.injEq] at hq
      simp [hq]

theorem run_marker (h : o.run s = .ok t) {ws : Path} (hmark : t.marker? id = some (some ws)) :
    s.marker? id = some (some ws) ∨ o = writeMarker id ws ∨
      ∃ p q, o = exchange p q ∧ (p = .marker id ∨ q = .marker id) := by
  by_cases hw : o.writes (.node (.marker id))
  · rw [Pool.marker?_eq_some] at hmark ⊢
    cases o <;> simp only [writes, Place.node.injEq, reduceCtorEq, exists_const, or_self] at hw
    case exchange p q => exact .inr (.inr ⟨p, q, rfl, hw.imp Eq.symm Eq.symm⟩)
    case removeAll p =>
      exfalso
      cases p <;> simp only [Place.node.injEq, reduceCtorEq] at hw
      case envDir =>
        cases h
        obtain ⟨q, hq, hid⟩ := hw
        cases hq
        simp [Pool.node, hid] at hmark
      case marker =>
        cases h
        simp [hw] at hmark
    case truncateMarker id' =>
      simp only [run] at h
      split at h
      · cases h
        simp [hw] at hmark
      · cases h
    case writeMarker id' ws' =>
      simp only [run] at h
      split at h
      · cases h
        cases hw
        simp at hmark
        exact .inr (.inl (by rw [hmark]))
      · cases h
    case mkdir p =>
      subst hw
      simp only [run] at h
      repeat' split at h
      all_goals first | (cases h; done) | (cases h; exact .inl hmark) | skip
      cases h
      simp [freshDir] at hmark
    all_goals
      subst hw
      simp only [run] at h
      repeat' split at h
      all_goals first | (cases h; done) | skip
      all_goals
        cases h
        simp at hmark
  · refine .inl ?_
    rw [Pool.marker?_eq_some] at hmark ⊢
    rw [← (run_frame h).node _ hw]
    exact hmark

end Op

end Fern

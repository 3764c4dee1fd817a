/-
What retention keeps.

While the clock never shows less than it did at a snapshot that is still there, the rows of the
index stand in the order in which the snapshots were taken, by their second as well; and while no
caller takes a snapshot under a restore's name, the names tell the restores' copies from the others.
Then the oldest rows are the oldest snapshots, and what `Prune` deletes is what should go.
-/
import Mathlib.Data.List.DropRight
import Fern.Store.History
import Fern.Store.Retention
import Fern.Proofs.Store.Snapshots

namespace Fern

open List

namespace Retention

open Call StoreM

variable {T : Type} {id : EnvID} {s t : Pool T} {log log' : List Taken} {g : Log}
  {x : SnapID} {b : Bool}

/-! ### Lists -/

section Lists

variable {α β : Type} [DecidableEq α] [DecidableEq β] {f : α → β} {l l' : List α}

theorem filter_notMem_map (hnodup : (l.map f).Nodup) (hsub : ∀ a ∈ l', a ∈ l) :
    (l.filter fun a => f a ∉ l'.map f) = l.filter fun a => a ∉ l' := by
  refine filter_congr ?_
  intro a ha
  have hiff : f a ∈ l'.map f ↔ a ∈ l' := by
    constructor
    · intro h
      obtain ⟨c, hc, hfc⟩ := mem_map.1 h
      rwa [← inj_on_of_nodup_map hnodup (hsub c hc) ha hfc]
    · exact mem_map_of_mem
  simp [hiff]

omit [DecidableEq β] in
theorem filter_notMem_drop_reverse (hnodup : l.Nodup) (k : Nat) :
    (l.filter fun a => a ∉ l.reverse.drop k) = l.rtake k := by
  have hsplit := take_append_drop (l.length - k) l
  have hold : l.reverse.drop k = (l.take (l.length - k)).reverse := by
    rw [drop_reverse]
  rw [← hsplit, nodup_append] at hnodup
  have htake : (l.take (l.length - k)).filter
      (fun a => a ∉ (l.take (l.length - k)).reverse) = [] := by
    rw [filter_eq_nil_iff]
    intro a ha
    simpa using ha
  have hdrop : (l.drop (l.length - k)).filter
      (fun a => a ∉ (l.take (l.length - k)).reverse) = l.drop (l.length - k) := by
    rw [filter_eq_self]
    intro a ha
    refine decide_eq_true ?_
    intro hmem
    exact hnodup.2.2 a (mem_reverse.1 hmem) a ha rfl
  calc (l.filter fun a => a ∉ l.reverse.drop k)
      = (l.take (l.length - k) ++ l.drop (l.length - k)).filter
          fun a => a ∉ (l.take (l.length - k)).reverse := by rw [hold, hsplit]
    _ = l.drop (l.length - k) := by rw [filter_append, htake, hdrop, nil_append]

end Lists

/-! ### The log and the pool

`Kept` ties the log to the pool.  Each call is shown to keep it first, whatever goes; that what goes
is what should go is shown of the log alone.
-/

/-- The row of a snapshot. -/
def row (clock : Nat → Time) (id : EnvID) (e : Taken) : SnapRow := ⟨id, e.id, unix (clock e.tick)⟩

/-- The rows of an environment's snapshots. -/
def rowsOf (x : Index) (id : EnvID) : List SnapRow := x.snaps.filter fun r => r.env = id

/-- The environment's rows and subvolumes are those of the log, in its order. -/
structure Kept (id : EnvID) (s : Pool T) (log : List Taken) : Prop where
  valid : checkEnvID id = true
  rows : rowsOf s.index id = log.map (row s.clock id)
  there : ∀ x ∈ log.map Taken.id, ∃ tree nested, s.node (.snap id x) = some (.subvol tree nested)
  gone : ∀ x ∉ log.map Taken.id, s.node (.snap id x) = none
  names : ∀ e ∈ log, checkSnapID e.id = true
  read : ∀ e ∈ log, e.tick < s.ticks
  workspace : ∀ env, s.env? id = some env → env.workspace.IsWorkspace id

theorem Kept.nodup (h : Kept id s log) : (log.map Taken.id).Nodup := by
  have hkeys : ((rowsOf s.index id).map SnapRow.key).Nodup :=
    (filter_sublist.map _).nodup s.index.keyUnique
  rw [h.rows, map_map] at hkeys
  have hpair : log.map (SnapRow.key ∘ row s.clock id) =
      (log.map Taken.id).map fun x => (id, x) := by
    rw [map_map]
    rfl
  rw [hpair] at hkeys
  exact hkeys.of_map _

/-- What a call leaves of the rest: the environments, the clock, and how often it was read. -/
structure Later (s t : Pool T) : Prop where
  envs : t.index.envs = s.index.envs
  clock : t.clock = s.clock
  ticks : s.ticks ≤ t.ticks

theorem Later.refl (s : Pool T) : Later s s := ⟨rfl, rfl, le_refl _⟩

theorem Later.trans {u : Pool T} (h : Later s t) (h' : Later t u) : Later s u :=
  ⟨h'.envs.trans h.envs, h'.clock.trans h.clock, le_trans h.ticks h'.ticks⟩

theorem Later.env? (h : Later s t) (id : EnvID) : t.env? id = s.env? id :=
  Index.env?_congr h.envs id

theorem Kept.elsewhere (h : Kept id s log) (he : Elsewhere id s t) : Kept id t log where
  valid := h.valid
  rows := by
    rw [rowsOf, he.rows, he.clock]
    exact h.rows
  there x hx := by
    rw [he.node]
    exact h.there x hx
  gone x hx := by
    rw [he.node]
    exact h.gone x hx
  names := h.names
  read e hin := lt_of_lt_of_le (h.read e hin) he.ticks
  workspace := he.workspace

theorem Kept.later (h : Kept id s log) (hlater : Later s t) (hsnaps : t.index.snaps = s.index.snaps)
    (hnode : ∀ x, t.node (.snap id x) = s.node (.snap id x)) : Kept id t log :=
  h.elsewhere ⟨by rw [hsnaps], hnode,
    fun env henv => h.workspace env ((hlater.env? id).symm.trans henv), hlater.clock, hlater.ticks⟩

theorem Kept.hasSnapshot (h : Kept id s log) (x : SnapID) :
    s.index.hasSnapshot id x = true ↔ x ∈ log.map Taken.id := by
  have hrow : s.index.hasSnapshot id x = true ↔ ∃ r ∈ rowsOf s.index id, r.id = x := by
    rw [Index.hasSnapshot, Index.snap?, find?_isSome]
    simp [rowsOf, SnapRow.key, and_assoc]
  rw [hrow, h.rows]
  simp [row]

/-! ### Deleting -/

section Calls

variable [Tree T]

omit [Tree T] in
theorem get_eq {env : EnvRow} (hid : checkEnvID id = true) (henv : s.env? id = some env) :
    get id s = (pure env : StoreM T EnvRow) s := by
  unfold get
  rw [if_pos hid, read_bind]
  simp only [henv]

theorem op_eq {o : Op T} (h : o.run s = .ok t) : op o s = ⟨[(o, t)], t, .ok ()⟩ := by
  unfold op perform
  rw [h]

/-- Of one path: a subvolume goes, and else nothing happens. -/
theorem noted_deleteSubvolumes (p : Path) : noted (logOp id b) (deleteSubvolumes [p])
    (fun _ t g' => t = s.drop p ∧ g' = logOp id b g (.deleteSubvolume p, t) ∨
      t = s ∧ g' = g ∧ ∀ tree nested, s.node p ≠ some (.subvol tree nested))
    (fun _ _ _ => False) s g := by
  unfold deleteSubvolumes eachWith deleteOne
  rw [noted_bind, noted_bind, noted_read_bind]
  split
  case h_1 tree hnode =>
    have hrun : (Op.deleteNested p).run s = .ok (s.drop p) := by simp [Op.run, hnode]
    simp only [noted_pure, eachWith, nil_append, each, noted_bind, noted_of_eq (op_eq hrun)]
    refine .inl ⟨trivial, ?_⟩
    cases p <;> rfl
  case h_2 tree hnode =>
    have hrun : (Op.deleteSubvolume p).run s = .ok (s.drop p) := by simp [Op.run, hnode]
    exact (noted_bind _ _).2 ((noted_of_eq (op_eq hrun)).2 (Or.inl ⟨rfl, rfl⟩))
  case h_3 htrue hfalse =>
    refine .inr ⟨rfl, rfl, ?_⟩
    intro tree nested hnode
    cases nested with
    | true => exact htrue tree hnode
    | false => exact hfalse tree hnode

theorem DeleteSnapshot_eq {env : EnvRow} (hid : checkEnvID id = true) (henv : s.env? id = some env)
    (hx : checkSnapID x = true) : DeleteSnapshot id x s =
      (deleteSubvolumes [.snap id x] >>= fun _ => op (.deleteSnapshot id x)) s := by
  unfold DeleteSnapshot
  rw [if_pos hx]
  exact bind_of_pure (get_eq hid henv) _

theorem rowsOf_deleteSnapshot (y : Index) (id : EnvID) (x : SnapID) :
    rowsOf (y.deleteSnapshot id x) id = (rowsOf y id).filter fun r => r.id ≠ x := by
  unfold rowsOf Index.deleteSnapshot
  rw [filter_filter, filter_filter]
  refine filter_congr ?_
  intro r _
  by_cases hr : r.env = id
  · simp [hr, SnapRow.key]
  · simp [hr]

theorem run_deleteSnapshot (id : EnvID) (x : SnapID) (s : Pool T) :
    (Op.deleteSnapshot id x).run s = .ok { s with index := s.index.deleteSnapshot id x } := rfl

omit [Tree T] in
theorem Kept.delete (h : Kept id s log) (x : SnapID) (htree : t = s ∨ t = s.drop (.snap id x))
    (hgone : t.node (.snap id x) = none) :
    Kept id { t with index := t.index.deleteSnapshot id x } (log.filter fun e => e.id ≠ x) := by
  have hsame : t.index = s.index ∧ t.clock = s.clock ∧ t.ticks = s.ticks := by
    rcases htree with rfl | rfl
    · exact ⟨rfl, rfl, rfl⟩
    · exact ⟨rfl, rfl, rfl⟩
  have hnode (y : SnapID) (hy : y ≠ x) : t.node (.snap id y) = s.node (.snap id y) := by
    rcases htree with rfl | rfl
    · rfl
    · simp [Pool.node, Pool.drop, hy]
  refine ⟨h.valid, ?_, ?_, ?_, ?_, ?_, ?_⟩
  · show rowsOf (t.index.deleteSnapshot id x) id = _
    rw [rowsOf_deleteSnapshot, hsame.1, h.rows, filter_map, hsame.2.1]
    rfl
  · intro y hy
    obtain ⟨e, he, rfl⟩ := mem_map.1 hy
    obtain ⟨he, hne⟩ := mem_filter.1 he
    show ∃ tree nested, t.node (.snap id e.id) = _
    rw [hnode e.id (by simpa using hne)]
    exact h.there e.id (mem_map_of_mem he)
  · intro y hy
    show t.node (.snap id y) = none
    by_cases hyx : y = x
    · rw [hyx]
      exact hgone
    · rw [hnode y hyx]
      refine h.gone y ?_
      intro hmem
      obtain ⟨e, he, rfl⟩ := mem_map.1 hmem
      exact hy (mem_map_of_mem (mem_filter.2 ⟨he, by simpa using hyx⟩))
  · intro e he
    exact h.names e (mem_filter.1 he).1
  · intro e he
    show e.tick < t.ticks
    rw [hsame.2.2]
    exact h.read e (mem_filter.1 he).1
  · intro env henv
    have hcongr : (t.index.deleteSnapshot id x).env? id = s.index.env? id := by
      refine Index.env?_congr ?_ id
      show t.index.envs = s.index.envs
      rw [hsame.1]
    exact h.workspace env (hcongr.symm.trans henv)

omit [Tree T] in
theorem filter_ne_of_notMem (h : x ∉ log.map Taken.id) : (log.filter fun e => e.id ≠ x) = log := by
  rw [filter_eq_self]
  intro e he
  refine decide_eq_true ?_
  rintro rfl
  exact h (mem_map_of_mem he)

omit [Tree T] in
theorem Kept.env (h : Kept id s log) (hx : x ∈ log.map Taken.id) : ∃ env, s.env? id = some env := by
  obtain ⟨e, he, -⟩ := mem_map.1 hx
  have hrow : row s.clock id e ∈ rowsOf s.index id := by
    rw [h.rows]
    exact mem_map_of_mem he
  have hid := s.index.envExists _ (mem_filter.1 hrow).1
  exact Option.ne_none_iff_exists'.1 (Index.env?_ne_none.2 hid)

omit [Tree T] in
theorem Kept.valid_name (h : Kept id s log) (hx : x ∈ log.map Taken.id) : checkSnapID x = true := by
  obtain ⟨e, he, rfl⟩ := mem_map.1 hx
  exact h.names e he

/-- `DeleteSnapshot`: what is not there needn't go. -/
theorem noted_DeleteSnapshot (h : Kept id s g.there) : noted (logOp id b) (DeleteSnapshot id x)
    (fun _ t g' => g' = g.lose x ∧ Kept id t g'.there ∧ Later s t ∧ t.ticks = s.ticks)
    (fun _ t g' => t = s ∧ g' = g ∧ g = g.lose x ∧ (checkSnapID x = true → s.env? id = none))
    s g := by
  have hsame (hnot : x ∉ g.there.map Taken.id) : g = g.lose x := by
    rw [Log.lose, filter_ne_of_notMem hnot]
  by_cases hx : checkSnapID x = true
  swap
  · unfold DeleteSnapshot
    rw [if_neg hx]
    exact ⟨rfl, rfl, hsame fun hmem => hx (h.valid_name hmem), fun h => absurd h hx⟩
  cases henv : s.env? id with
  | none =>
    have hget : get id s = (fail .notFound : StoreM T EnvRow) s := by
      unfold get
      rw [if_pos h.valid, read_bind]
      simp only [henv]
    unfold DeleteSnapshot
    rw [if_pos hx, noted_congr (bind_of_fail hget _)]
    refine ⟨rfl, rfl, hsame fun hmem => ?_, fun _ => rfl⟩
    obtain ⟨env, hsome⟩ := h.env hmem
    rw [henv] at hsome
    cases hsome
  | some env =>
    rw [noted_congr (DeleteSnapshot_eq h.valid henv hx)]
    refine noted_seq (noted_mono (noted_deleteSubvolumes _) (fun _ _ _ hq => hq)
      fun _ _ _ he => he.elim) ?_
    rintro _ t g' (⟨rfl, rfl⟩ | ⟨rfl, rfl, hno⟩)
    · rw [noted_of_eq (op_eq (run_deleteSnapshot id x _))]
      exact ⟨by simp [logOp], by simpa [logOp, Log.lose] using h.delete x (.inr rfl) (by simp),
        ⟨rfl, rfl, le_refl _⟩, rfl⟩
    · have hmem : x ∉ g'.there.map Taken.id := by
        intro hmem
        obtain ⟨tree, nested, hnode⟩ := h.there x hmem
        exact hno tree nested hnode
      rw [noted_of_eq (op_eq (run_deleteSnapshot id x _))]
      refine ⟨hsame hmem, ?_, ⟨rfl, rfl, le_refl _⟩, rfl⟩
      have hkept := h.delete x (.inl rfl) (h.gone x hmem)
      rwa [filter_ne_of_notMem hmem] at hkept

theorem noted_deletes (h : Kept id s g.there) {l : List SnapID}
    (hl : ∀ x ∈ l, x ∈ g.there.map Taken.id) : noted (logOp id b) (each (DeleteSnapshot id) l)
      (fun _ t g' => g' = { g with there := g.there.filter fun e => e.id ∉ l } ∧
        Kept id t g'.there ∧
        Later s t ∧ t.ticks = s.ticks) (fun _ _ _ => False) s g := by
  -- what is left when those still to come are left out is what is left in the end
  let I (rest : List SnapID) (t : Pool T) (g' : Log) : Prop :=
    (∀ x ∈ rest, x ∈ g.there.map Taken.id) ∧
      { g' with there := g'.there.filter fun e => e.id ∉ rest } =
        { g with there := g.there.filter fun e => e.id ∉ l } ∧
      Kept id t g'.there ∧ Later s t ∧ t.ticks = s.ticks
  have hround (y : SnapID) (rest : List SnapID) (t : Pool T) (g' : Log)
      (hI : I (y :: rest) t g') : noted (logOp id b) (DeleteSnapshot id y) (fun _ => I rest)
        (fun _ _ _ => False) t g' := by
    obtain ⟨hthere, hlog, hkept, hlater, hticks⟩ := hI
    obtain ⟨env, henv⟩ := h.env (hthere y mem_cons_self)
    refine noted_mono (noted_DeleteSnapshot hkept) ?_ ?_
    swap
    · rintro _ _ _ ⟨-, -, -, hnone⟩
      rw [← hlater.env? id, hnone (h.valid_name (hthere y mem_cons_self))] at henv
      cases henv
    rintro _ u g'' ⟨rfl, hkept', hlater', hticks'⟩
    refine ⟨fun x hx => hthere x (mem_cons_of_mem _ hx), ?_, hkept', hlater.trans hlater',
      hticks'.trans hticks⟩
    rw [← hlog, Log.lose, filter_filter]
    congr 1
    refine filter_congr ?_
    intro e _
    rw [Bool.eq_iff_iff]
    simp [and_comm]
  refine noted_mono (noted_each hround l s g ⟨hl, rfl, h, .refl s, rfl⟩) ?_ fun _ _ _ he => he
  rintro _ t g' ⟨-, hlog, hrest⟩
  refine ⟨?_, hrest⟩
  rw [← hlog]
  simp

theorem noted_timeNow {Q : Time → Pool T → Log → Prop} {E : Err → Pool T → Log → Prop} :
    noted (logOp id b) timeNow Q E s g ↔ Q (s.clock s.ticks) { s with ticks := s.ticks + 1 } g :=
  Iff.rfl

omit [Tree T] in
theorem Kept.tick (h : Kept id s log) : Kept id { s with ticks := s.ticks + 1 } log :=
  h.later ⟨rfl, rfl, Nat.le_succ _⟩ rfl fun _ => rfl

/-- By the reading `j`, a snapshot seems to be over a day old. -/
def seemsOld (clock : Nat → Time) (j : Nat) (e : Taken) : Bool :=
  unix (clock e.tick) < unix ((clock j : Int) - preRestoreKeep)

theorem noted_prunePreRestores (h : Kept id s g.there) (keep : SnapID) :
    noted (logOp id b) (prunePreRestores id keep)
      (fun _ t g' => g' = { g with there := g.there.filter fun e =>
          !(isPreRestore e.id && e.id ≠ keep && seemsOld s.clock s.ticks e) } ∧
        Kept id t g'.there ∧ Later s t ∧ t.ticks = s.ticks + 1) (fun _ _ _ => False) s g := by
  let old : List Taken := g.there.filter fun e =>
    isPreRestore e.id && e.id ≠ keep && seemsOld s.clock s.ticks e
  have hold : s.index.snapshotsBefore id keep (unix ((s.clock s.ticks : Int) - preRestoreKeep)) =
      old.map Taken.id := by
    have hfilter : (s.index.snaps.filter fun r => r.env = id && isPreRestore r.id && r.id ≠ keep &&
        r.created < unix ((s.clock s.ticks : Int) - preRestoreKeep)) =
        (rowsOf s.index id).filter fun r => isPreRestore r.id && r.id ≠ keep &&
          r.created < unix ((s.clock s.ticks : Int) - preRestoreKeep) := by
      rw [rowsOf, filter_filter]
      refine filter_congr ?_
      intro r _
      cases decide (r.env = id) <;> simp
    rw [Index.snapshotsBefore, hfilter, h.rows, filter_map, map_map]
    rfl
  have hsub : ∀ e ∈ old, e ∈ g.there := fun e he => (mem_filter.1 he).1
  have hthere : ∀ x ∈ old.map Taken.id, x ∈ g.there.map Taken.id := by
    intro x hx
    obtain ⟨e, he, rfl⟩ := mem_map.1 hx
    exact mem_map_of_mem (hsub e he)
  unfold prunePreRestores
  rw [noted_bind, noted_timeNow, noted_read_bind]
  show noted (logOp id b) (each (DeleteSnapshot id)
    (s.index.snapshotsBefore id keep (unix ((s.clock s.ticks : Int) - preRestoreKeep)))) _ _ _ g
  rw [hold]
  refine noted_mono (noted_deletes h.tick hthere) ?_ fun _ _ _ he => he
  rintro _ t g' ⟨hlog, hkept, hlater, hticks⟩
  refine ⟨?_, hkept, ⟨hlater.envs, hlater.clock, by rw [hticks]; exact Nat.le_succ _⟩, hticks⟩
  rw [hlog, filter_notMem_map h.nodup hsub]
  congr 1
  refine filter_congr ?_
  intro e he
  have hiff : e ∈ old ↔
      (isPreRestore e.id && e.id ≠ keep && seemsOld s.clock s.ticks e) = true := by
    rw [mem_filter]
    exact and_iff_right he
  rw [Bool.eq_iff_iff, decide_eq_true_eq, hiff]
  cases (isPreRestore e.id && e.id ≠ keep && seemsOld s.clock s.ticks e) <;> simp

/-! ### Pruning

`Prune` goes by names and seconds.  While the pool is `Good` these say what the log says, so the
callers' last `keepTurns` stay.
-/

/-- The snapshots that callers took. -/
def callers (log : List Taken) : List Taken := log.filter fun e => !e.byRestore

/-- The names tell who took a snapshot, and the seconds in which order callers did. -/
structure Good (id : EnvID) (s : Pool T) (log : List Taken) : Prop where
  kept : Kept id s log
  named : ∀ e ∈ log, isPreRestore e.id = e.byRestore
  sorted : (callers log).Pairwise fun e e' => unix (s.clock e.tick) ≤ unix (s.clock e'.tick)

omit [Tree T] in
theorem Good.less (h : Good id s log) (hkept : Kept id t log') (hlater : Later s t)
    (hsub : ∀ e ∈ log', e ∈ log) (hcallers : (callers log').Sublist (callers log)) :
    Good id t log' := by
  refine ⟨hkept, fun e he => h.named e (hsub e he), ?_⟩
  rw [hlater.clock]
  exact h.sorted.sublist hcallers

omit [Tree T] in
theorem Good.snapshotsBeyond (h : Good id s log) (k : Nat) :
    s.index.snapshotsBeyond id k = ((callers log).reverse.drop k).map Taken.id := by
  have hrows : (s.index.snaps.filter fun r => r.env = id && !isPreRestore r.id) =
      (callers log).map (row s.clock id) := by
    have hfilter : (s.index.snaps.filter fun r => r.env = id && !isPreRestore r.id) =
        (rowsOf s.index id).filter fun r => !isPreRestore r.id := by
      rw [rowsOf, filter_filter]
      refine filter_congr ?_
      intro r _
      rw [Bool.and_comm]
    rw [hfilter, h.kept.rows, filter_map, callers]
    congr 1
    refine filter_congr ?_
    intro e he
    show (!isPreRestore e.id) = !e.byRestore
    rw [h.named e he]
  have hsorted : ((callers log).map (row s.clock id)).reverse.Pairwise
      fun a b => b.created ≤ a.created := by
    rw [pairwise_reverse, pairwise_map]
    exact h.sorted
  rw [Index.snapshotsBeyond, hrows, hsorted.insertionSort_eq, ← map_reverse, ← map_drop,
    map_map]
  rfl

/-- What pruning leaves: the callers' last `keepTurns`, and of the restores' all that don't seem
old. -/
structure Pruned (s : Pool T) (log log' : List Taken) : Prop where
  sub : ∀ e ∈ log', e ∈ log
  callers : callers log' = (callers log).rtake keepTurns
  copies : ∀ e ∈ log, e.byRestore = true → e ∉ log' → seemsOld s.clock s.ticks e = true

omit [Tree T] in
theorem Good.callers_young (h : Good id s log) (keep : SnapID) (j : Nat) :
    callers (log.filter fun e => !(isPreRestore e.id && e.id ≠ keep && seemsOld s.clock j e)) =
      callers log := by
  rw [callers, callers, filter_filter]
  refine filter_congr ?_
  intro e he
  rw [h.named e he]
  cases e.byRestore <;> simp

theorem noted_Prune (h : Good id s g.there) : noted (logOp id b) (Prune id)
      (fun _ t g' => Pruned s g.there g'.there ∧ g'.events = g.events ∧ Good id t g'.there ∧
        Later s t ∧ t.ticks = s.ticks + 1) (fun _ _ _ => False) s g := by
  unfold Prune
  refine noted_seq (noted_prunePreRestores h.kept "") ?_
  rintro _ t g₁ ⟨hg₁, hkept, hlater, hticks⟩
  have hlog₁ : g₁.there = _ := congrArg Log.there hg₁
  have hsub : ∀ e ∈ g₁.there, e ∈ g.there := by
    intro e he
    rw [hlog₁] at he
    exact (mem_filter.1 he).1
  have hcallers : callers g₁.there = callers g.there := by
    rw [hlog₁]
    exact h.callers_young "" s.ticks
  have hgood : Good id t g₁.there := h.less hkept hlater hsub (by rw [hcallers])
  have hbeyond : ∀ e ∈ (callers g₁.there).reverse.drop keepTurns, e ∈ callers g₁.there :=
    fun e he => mem_reverse.1 (mem_of_mem_drop he)
  rw [noted_read_bind, hgood.snapshotsBeyond]
  refine noted_mono (noted_deletes hkept ?_) ?_ fun _ _ _ he => he
  · intro x hx
    obtain ⟨e, he, rfl⟩ := mem_map.1 hx
    exact mem_map_of_mem (mem_filter.1 (hbeyond e he)).1
  · rintro _ u g₂ ⟨hg₂, hkept₂, hlater₂, hticks₂⟩
    have hlog₂ : g₂.there = _ := congrArg Log.there hg₂
    rw [filter_notMem_map hkept.nodup fun e he => (mem_filter.1 (hbeyond e he)).1] at hlog₂
    have hsub₂ : ∀ e ∈ g₂.there, e ∈ g₁.there := by
      intro e he
      rw [hlog₂] at he
      exact (mem_filter.1 he).1
    have hcallers₂ : callers g₂.there = (callers g.there).rtake keepTurns := by
      have hnodup : (callers g₁.there).Nodup := (hkept.nodup.of_map _).filter _
      rw [hlog₂, ← hcallers, ← filter_notMem_drop_reverse hnodup]
      show ((g₁.there.filter _).filter _) = ((g₁.there.filter _).filter _)
      exact filter_comm _ _ _
    refine ⟨⟨fun e he => hsub e (hsub₂ e he), hcallers₂, ?_⟩, by rw [hg₂, hg₁], ?_,
      hlater.trans hlater₂, hticks₂.trans hticks⟩
    · intro e he hrestore hgone
      by_contra hyoung
      have hin₁ : e ∈ g₁.there := by
        rw [hlog₁, mem_filter]
        exact ⟨he, by simp [hyoung]⟩
      refine hgone ?_
      rw [hlog₂, mem_filter]
      refine ⟨hin₁, decide_eq_true ?_⟩
      intro hmem
      have hcaller := (mem_filter.1 (hbeyond e hmem)).2
      rw [hrestore] at hcaller
      cases hcaller
    · refine h.less hkept₂ (hlater.trans hlater₂) (fun e he => hsub e (hsub₂ e he)) ?_
      rw [hcallers₂]
      exact drop_sublist _ _

/-! ### Taking -/

theorem rowsOf_replaceSnapshot {y z : Index} {created : Int}
    (h : y.replaceSnapshot ⟨id, x, created⟩ = .ok z) :
    rowsOf z id = ((rowsOf y id).filter fun r => r.id ≠ x) ++ [⟨id, x, created⟩] ∧
      z.envs = y.envs := by
  unfold Index.replaceSnapshot at h
  split at h
  · cases h
    refine ⟨?_, rfl⟩
    rw [← rowsOf_deleteSnapshot]
    simp [rowsOf, Index.addSnapshot]
  · cases h

omit [Tree T] in
theorem Kept.take (h : Kept id s log) (b : Bool) (tree : T) (hx : checkSnapID x = true)
    (hmem : x ∉ log.map Taken.id) {y : Index}
    (hy : s.index.replaceSnapshot ⟨id, x, unix (s.clock s.ticks)⟩ = .ok y) :
    Kept id { s.put (.snap id x) (.subvol tree false) with index := y, ticks := s.ticks + 1 }
      (log ++ [⟨x, b, s.ticks⟩]) := by
  obtain ⟨hrows, henvs⟩ := rowsOf_replaceSnapshot hy
  refine ⟨h.valid, ?_, ?_, ?_, ?_, ?_, ?_⟩
  · show rowsOf y id = _
    have hkeep : ((rowsOf s.index id).filter fun r => r.id ≠ x) = rowsOf s.index id := by
      rw [filter_eq_self, h.rows]
      intro r hr
      obtain ⟨e, he, rfl⟩ := mem_map.1 hr
      refine decide_eq_true ?_
      rintro rfl
      exact hmem (mem_map_of_mem he)
    rw [hrows, hkeep, h.rows, map_append]
    rfl
  · intro z hz
    show ∃ tree' nested, (s.put (.snap id x) (.subvol tree false)).node (.snap id z) = _
    by_cases hzx : z = x
    · exact ⟨tree, false, by simp [Pool.node, Pool.put, hzx]⟩
    · have hz : z ∈ log.map Taken.id := by simpa [hzx] using hz
      simpa [Pool.node, Pool.put, hzx] using h.there z hz
  · intro z hz
    show (s.put (.snap id x) (.subvol tree false)).node (.snap id z) = none
    have hzx : z ≠ x := by
      rintro rfl
      simp at hz
    have hz : z ∉ log.map Taken.id := by
      intro hin
      exact hz (by simp [map_append, hin])
    simpa [Pool.node, Pool.put, hzx] using h.gone z hz
  · exact forall_mem_append.2 ⟨h.names, forall_mem_singleton.2 hx⟩
  · exact forall_mem_append.2 ⟨fun e he => Nat.lt_succ_of_lt (h.read e he),
      forall_mem_singleton.2 (Nat.lt_succ_self _)⟩
  · intro env henv
    exact h.workspace env ((Index.env?_congr henvs id).symm.trans henv)

/-- `snapshot`: what is there stays as it is, and what isn't is the last of the log. -/
theorem noted_snapshot {env : EnvRow} (h : Kept env.id s g.there) (henv : s.env? env.id = some env)
    (hx : checkSnapID x = true) : noted (logOp env.id b) (snapshot env x)
      (fun _ t g' => g' = (if x ∈ g.there.map Taken.id then g else g.take ⟨x, b, s.ticks⟩) ∧
        Kept env.id t g'.there ∧ Later s t ∧ t.ticks = s.ticks + 1)
      (fun _ t g' => t = s ∧ g' = g) s g := by
  have hsome : s.env? env.id ≠ none := by simp [henv]
  unfold snapshot
  rw [noted_read_bind]
  by_cases hmem : x ∈ g.there.map Taken.id
  · obtain ⟨tree, nested, hnode⟩ := h.there x hmem
    simp only [hnode, if_pos hmem]
    rw [noted_bind, noted_timeNow]
    -- its row is there
    have hkeep : (Op.keepSnapshot ⟨env.id, x, unix (s.clock s.ticks)⟩).run
        { s with ticks := s.ticks + 1 } = .ok { s with ticks := s.ticks + 1 } := by
      have hkey : (⟨env.id, x, unix (s.clock s.ticks)⟩ : SnapRow).key ∈
          s.index.snaps.map SnapRow.key := by
        obtain ⟨e, he, rfl⟩ := mem_map.1 hmem
        have hrow : row s.clock env.id e ∈ rowsOf s.index env.id := by
          rw [h.rows]
          exact mem_map_of_mem he
        exact mem_map.2 ⟨_, (mem_filter.1 hrow).1, rfl⟩
      have hindex : s.index.keepSnapshot ⟨env.id, x, unix (s.clock s.ticks)⟩ = .ok s.index := by
        unfold Index.keepSnapshot
        rw [dif_pos (Index.env?_ne_none.1 hsome), dif_pos hkey]
      simp only [Op.run, hindex]
      rfl
    rw [noted_of_eq (op_eq hkeep)]
    exact ⟨rfl, h.tick, ⟨rfl, rfl, Nat.le_succ _⟩, rfl⟩
  · have hnone := h.gone x hmem
    simp only [hnone, if_neg hmem]
    rw [noted_bind]
    cases htake : (Op.snapshotSubvolume env.workspace (.snap env.id x)).run s with
    | error e =>
      rw [op, noted_perform_error htake]
      exact ⟨rfl, rfl⟩
    | ok t =>
      obtain ⟨tree, nested, -, -, -, rfl⟩ := Op.run_snapshotSubvolume htake
      -- whose the snapshot is doesn't matter
      let s' : Pool T := s.own (.snap env.id x) (s.owner env.workspace)
      have hs' : Kept env.id s' g.there := h.later ⟨rfl, rfl, le_refl _⟩ rfl fun _ => rfl
      have hlog : logOp env.id b g (.snapshotSubvolume env.workspace (.snap env.id x),
          s'.put (.snap env.id x) (.subvol tree false)) = g.take ⟨x, b, s.ticks⟩ := by
        simp [logOp, s', Pool.put, Pool.own]
      rw [noted_of_eq (op_eq htake), foldl_cons, foldl_nil, hlog, noted_bind,
        noted_timeNow]
      obtain ⟨y, hy⟩ : ∃ y, s.index.replaceSnapshot ⟨env.id, x, unix (s.clock s.ticks)⟩ = .ok y :=
        Index.replaceSnapshot_ok hsome
      have hreplace : (Op.replaceSnapshot ⟨env.id, x, unix (s.clock s.ticks)⟩).run
          { s'.put (.snap env.id x) (.subvol tree false) with ticks := s.ticks + 1 } =
          .ok { s'.put (.snap env.id x) (.subvol tree false) with
            index := y, ticks := s.ticks + 1 } := by
        show Except.bind (s.index.replaceSnapshot _) _ = _
        rw [hy]
        rfl
      refine (noted_of_eq (op_eq hreplace)).2 ?_
      exact ⟨rfl, hs'.take b tree hx hmem hy,
        ⟨(rowsOf_replaceSnapshot hy).2, rfl, Nat.le_succ _⟩, rfl⟩

theorem noted_Snapshot (h : Kept id s g.there) : noted (logOp id b) (Snapshot id x)
      (fun _ t g' => g' = (if x ∈ g.there.map Taken.id then g else g.take ⟨x, b, s.ticks⟩) ∧
        Kept id t g'.there ∧ Later s t ∧ t.ticks = s.ticks + 1)
      (fun _ t g' => t = s ∧ g' = g) s g := by
  rcases Snapshot_cases id x s with ⟨e, hfail⟩ | ⟨env, rfl, henv, hx, hsnapshot⟩
  · rw [noted_congr hfail]
    exact ⟨rfl, rfl⟩
  · rw [noted_congr hsnapshot]
    exact noted_snapshot h henv hx

/-! ### Restoring

A restore takes a copy and prunes copies.  All else it does is `Beside` the snapshots.
-/

/-- Only what is beside the environment's snapshots changed. -/
structure Beside (id : EnvID) (s t : Pool T) : Prop where
  index : t.index = s.index
  clock : t.clock = s.clock
  ticks : t.ticks = s.ticks
  node : ∀ x, t.node (.snap id x) = s.node (.snap id x)

omit [Tree T] in
theorem Beside.later (h : Beside id s t) : Later s t :=
  ⟨by rw [h.index], h.clock, by rw [h.ticks]⟩

omit [Tree T] in
theorem Good.beside (h : Good id s log) (hb : Beside id s t) : Good id t log :=
  h.less (h.kept.later hb.later (by rw [hb.index]) hb.node) hb.later (fun _ he => he)
    (List.Sublist.refl _)

omit [Tree T] in
theorem Beside.drop {p : Path} (h : ∀ x, p ≠ .snap id x) (s : Pool T) : Beside id s (s.drop p) :=
  ⟨rfl, rfl, rfl, fun x => by simp [Pool.node, Pool.drop, (h x).symm]⟩

theorem noted_op_beside {o : Op T} (hlog : ∀ t, logOp id b g (o, t) = g)
    (hrun : ∀ t, o.run s = .ok t → Beside id s t) : noted (logOp id b) (op o)
      (fun _ t g' => g' = g ∧ Beside id s t) (fun _ t g' => g' = g ∧ t = s) s g := by
  cases h : o.run s with
  | error e =>
    rw [op, noted_perform_error h]
    exact ⟨rfl, rfl⟩
  | ok t =>
    rw [noted_of_eq (op_eq h)]
    exact ⟨hlog t, hrun t h⟩

theorem noted_deleteSubvolumes_beside {p : Path} (h : ∀ e x, p ≠ .snap e x) :
    noted (logOp id b) (deleteSubvolumes [p]) (fun _ t g' => g' = g ∧ Beside id s t)
      (fun _ _ _ => False) s g := by
  refine noted_mono (noted_deleteSubvolumes p) ?_ fun _ _ _ he => he
  rintro _ t g' (⟨rfl, rfl⟩ | ⟨rfl, rfl, -⟩)
  · refine ⟨?_, .drop (h id) s⟩
    cases p with
    | snap e x => exact absurd rfl (h e x)
    | _ => rfl
  · exact ⟨rfl, rfl, rfl, rfl, fun _ => rfl⟩

/-- What a restore does to the snapshots: callers' stay, what it takes is a copy and there, and the
copies that have gone seemed old by a reading of the clock. -/
structure Restored (id : EnvID) (s : Pool T) (g : Log) (t : Pool T) (g' : Log) : Prop where
  good : Good id t g'.there
  later : Later s t
  callers : callers g'.there = callers g.there
  events : g'.events = g.events ∨
    ∃ e ∈ g'.there, e.byRestore = true ∧ g'.events = g.events ++ [.took e]
  copies : ∀ e ∈ g.there, e.byRestore = true → e ∉ g'.there →
    ∃ j, s.ticks ≤ j ∧ j < t.ticks ∧ seemsOld s.clock j e = true

omit [Tree T] in
theorem Restored.beside {u : Pool T} {g' : Log} (h : Restored id s g t g') (hb : Beside id t u) :
    Restored id s g u g' := by
  refine ⟨h.good.beside hb, h.later.trans hb.later, h.callers, h.events, ?_⟩
  rw [hb.ticks]
  exact h.copies

theorem noted_restoreCopy {env : EnvRow} (h : Good env.id s g.there) :
    noted (logOp env.id b) (restoreCopy env x)
      (fun _ t g' => Restored env.id s g t g' ∧ g'.events = g.events)
      (fun _ t g' => Restored env.id s g t g' ∧ g'.events = g.events) s g := by
  unfold restoreCopy
  refine noted_seq (P := fun _ t g' => Restored env.id s g t g' ∧ g'.events = g.events) ?_ ?_
  · refine noted_mono (noted_prunePreRestores h.kept x) ?_ fun _ _ _ he => he.elim
    rintro _ t g' ⟨rfl, hkept, hlater, hticks⟩
    have hcallers := h.callers_young x s.ticks
    refine ⟨⟨h.less hkept hlater (fun e he => (mem_filter.1 he).1) (by rw [hcallers]), hlater,
      hcallers, .inl rfl, ?_⟩, rfl⟩
    intro e he _ hgone
    refine ⟨s.ticks, le_refl _, by rw [hticks]; exact Nat.lt_succ_self _, ?_⟩
    by_contra hyoung
    exact hgone (mem_filter.2 ⟨he, by simp [hyoung]⟩)
  · rintro _ t g₁ ⟨h₁, hevents⟩
    refine noted_seq (P := fun _ t g' => Restored env.id s g t g' ∧ g'.events = g.events) ?_ ?_
    · refine noted_mono (noted_deleteSubvolumes_beside (by simp)) ?_ fun _ _ _ he => he.elim
      rintro _ u _ ⟨rfl, hb⟩
      exact ⟨h₁.beside hb, hevents⟩
    · rintro _ u g₂ ⟨h₂, hevents⟩
      refine noted_mono (noted_op_beside (fun _ => rfl) ?_) ?_ ?_
      · intro v hv
        obtain ⟨tree, nested, -, -, -, rfl⟩ := Op.run_snapshotSubvolume hv
        exact ⟨rfl, rfl, rfl, fun x => by simp⟩
      · rintro _ v _ ⟨rfl, hb⟩
        exact ⟨h₂.beside hb, hevents⟩
      · rintro _ v _ ⟨rfl, rfl⟩
        exact ⟨h₂, hevents⟩

theorem noted_restoreKeep {env : EnvRow} (h : Good env.id s g.there)
    (henv : s.env? env.id = some env) : noted (logOp env.id true) (restoreKeep env x)
      (fun _ => Restored env.id s g) (fun _ => Restored env.id s g) s g := by
  unfold restoreKeep
  refine noted_seq (noted_mono (noted_restoreCopy h) (fun _ _ _ hq => hq) fun _ _ _ he => he.1) ?_
  rintro _ t g₁ ⟨h₁, hevents⟩
  rw [noted_bind, noted_timeNow]
  have htick : Restored env.id s g { t with ticks := t.ticks + 1 } g₁ := by
    have hlater : Later t { t with ticks := t.ticks + 1 } := ⟨rfl, rfl, Nat.le_succ _⟩
    refine ⟨h₁.good.less h₁.good.kept.tick hlater (fun _ he => he) (List.Sublist.refl _),
      h₁.later.trans hlater, h₁.callers, h₁.events, ?_⟩
    intro e he hrestore hgone
    obtain ⟨j, hle, hlt, hold⟩ := h₁.copies e he hrestore hgone
    exact ⟨j, hle, Nat.lt_succ_of_lt hlt, hold⟩
  refine noted_mono (noted_snapshot htick.good.kept ((htick.later.env? _).trans henv)
    (checkSnapID_preRestoreID _)) ?_ ?_
  · rintro _ u g₂ ⟨hlog, hkept, hlater, -⟩
    have hcopies : ∀ e ∈ g.there, e.byRestore = true → e ∉ g₂.there →
        ∃ j, s.ticks ≤ j ∧ j < u.ticks ∧ seemsOld s.clock j e = true := by
      intro e he hrestore hgone
      have hgone₁ : e ∉ g₁.there := by
        intro hin
        refine hgone ?_
        rw [hlog]
        split
        · exact hin
        · exact mem_append_left _ hin
      obtain ⟨j, hle, hlt, hold⟩ := htick.copies e he hrestore hgone₁
      exact ⟨j, hle, lt_of_lt_of_le hlt hlater.ticks, hold⟩
    split at hlog
    · subst hlog
      exact ⟨htick.good.less hkept hlater (fun _ he => he) (List.Sublist.refl _),
        htick.later.trans hlater, h₁.callers, h₁.events, hcopies⟩
    · subst hlog
      have hcallers (e : Taken) (he : e.byRestore = true) :
          callers (g₁.there ++ [e]) = callers g₁.there := by
        simp [Retention.callers, he]
      refine ⟨⟨hkept, ?_, ?_⟩, htick.later.trans hlater, (hcallers _ rfl).trans h₁.callers,
        .inr ⟨_, mem_append_right _ mem_cons_self,
          rfl, by rw [Log.take, hevents]⟩, hcopies⟩
      · exact forall_mem_append.2
          ⟨htick.good.named, forall_mem_singleton.2 (isPreRestore_preRestoreID _)⟩
      · rw [Log.take, hcallers _ rfl, hlater.clock]
        exact htick.good.sorted
  · rintro _ u _ ⟨rfl, rfl⟩
    exact htick

theorem noted_Restore (h : Good id s g.there) : noted (logOp id true) (Restore id x)
    (fun _ => Restored id s g) (fun _ => Restored id s g) s g := by
  have hsame : Restored id s g s g :=
    ⟨h, .refl s, rfl, .inl rfl, fun e he _ hgone => absurd he hgone⟩
  rcases Restore_cases id x s with ⟨e, hfail⟩ | ⟨env, rfl, henv, hrestore⟩
  · rw [noted_congr hfail]
    exact hsame
  · rw [noted_congr hrestore]
    have hworkspace := h.kept.workspace env henv
    unfold restore
    refine noted_seq (noted_restoreKeep h henv) ?_
    intro _ t g₁ h₁
    refine noted_seq (P := fun _ => Restored env.id s g) ?_ ?_
    · refine noted_mono (noted_op_beside (fun _ => rfl) ?_) ?_ ?_
      · intro u hu
        have hnode := (Op.run_frame hu).node
        obtain ⟨-, -, rfl, -⟩ := Op.run_exchange hu
        refine ⟨rfl, rfl, rfl, fun y => hnode _ ?_⟩
        rintro (heq | heq)
        · cases heq
        · rw [← Place.node.inj heq] at hworkspace
          cases hworkspace
      · rintro _ u _ ⟨rfl, hb⟩
        exact h₁.beside hb
      · rintro _ u _ ⟨rfl, rfl⟩
        exact h₁
    · intro _ u g₂ h₂
      refine noted_mono (noted_deleteSubvolumes_beside (by simp)) ?_ fun _ _ _ he => he.elim
      rintro _ v _ ⟨rfl, hb⟩
      exact h₂.beside hb

/-! ### Turns -/

/-- What is there once a snapshot that is to be replaced has gone. -/
def Log.cleared (g : Log) (x : SnapID) (replace : Bool) : Log := if replace then g.lose x else g

theorem mem_of_mem_cleared {replace : Bool} {e : Taken} (h : e ∈ (g.cleared x replace).there) :
    e ∈ g.there := by
  unfold Log.cleared at h
  split at h
  · exact (mem_filter.1 h).1
  · exact h

/-- With `x` taken, unless it is there. -/
def Log.retaken (g : Log) (x : SnapID) (tick : Nat) : Log :=
  if x ∈ g.there.map Taken.id then g else g.take ⟨x, false, tick⟩

/-- The clock shows no less than it did for what callers took before, if `x` will be taken. -/
def InOrder (s : Pool T) (log : List Taken) (x : SnapID) : Prop :=
  x ∉ log.map Taken.id → ∀ e ∈ callers log, unix (s.clock e.tick) ≤ unix (s.clock s.ticks)

omit [Tree T] in
theorem Good.lose (h : Good id s g.there) (hkept : Kept id t (g.lose x).there)
    (hlater : Later s t) :
    Good id t (g.lose x).there :=
  h.less hkept hlater (fun _ he => (mem_filter.1 he).1) (filter_sublist.filter _)

theorem callers_take (g : Log) (x : SnapID) (tick : Nat) :
    callers (g.take ⟨x, false, tick⟩).there = callers g.there ++ [⟨x, false, tick⟩] := by
  simp [callers, Log.take]

omit [Tree T] in
theorem Good.retaken (h : Good id s g.there) (hname : isPreRestore x = false)
    (horder : InOrder s g.there x) (hkept : Kept id t (g.retaken x s.ticks).there)
    (hlater : Later s t) : Good id t (g.retaken x s.ticks).there := by
  by_cases hthere : x ∈ g.there.map Taken.id
  · rw [Log.retaken, if_pos hthere] at hkept ⊢
    exact h.less hkept hlater (fun _ he => he) (List.Sublist.refl _)
  · rw [Log.retaken, if_neg hthere] at hkept ⊢
    refine ⟨hkept, ?_, ?_⟩
    · exact forall_mem_append.2 ⟨h.named, forall_mem_singleton.2 hname⟩
    · rw [callers_take, hlater.clock, pairwise_append]
      refine ⟨h.sorted, pairwise_singleton _ _, ?_⟩
      intro e he e' he'
      rw [mem_singleton.1 he']
      exact horder hthere e he

theorem noted_taken {replace : Bool} (h : Good id s g.there) (hname : isPreRestore x = false)
    (horder : InOrder s (g.cleared x replace).there x) :
    noted (logOp id false) ((if replace then DeleteSnapshot id x else pure ()) >>= fun _ =>
      Snapshot id x)
      (fun _ t g' => g' = (g.cleared x replace).retaken x s.ticks ∧ Good id t g'.there ∧ Later s t ∧
        t.ticks = s.ticks + 1)
      (fun _ t g' => g' = g.cleared x replace ∧ Good id t g'.there ∧ Later s t) s g := by
  refine noted_seq (P := fun _ t g₁ => g₁ = g.cleared x replace ∧ Good id t g₁.there ∧ Later s t ∧
    t.ticks = s.ticks) ?_ ?_
  · cases replace with
    | false => exact ⟨rfl, h, .refl s, rfl⟩
    | true =>
      refine noted_mono (noted_DeleteSnapshot h.kept) ?_ ?_
      · rintro _ t g₁ ⟨rfl, hkept, hlater, hticks⟩
        exact ⟨rfl, h.lose hkept hlater, hlater, hticks⟩
      · rintro _ t g₁ ⟨rfl, rfl, hsame, -⟩
        exact ⟨hsame, h, .refl t⟩
  · rintro _ t g₁ ⟨rfl, hgood, hlater, hticks⟩
    have horder : InOrder t (g.cleared x replace).there x := by
      unfold InOrder
      rw [hlater.clock, hticks]
      exact horder
    refine noted_mono (noted_Snapshot hgood.kept) ?_ ?_
    · rintro _ u g₂ ⟨hg₂, hkept, hlater', hticks'⟩
      obtain rfl : g₂ = (g.cleared x replace).retaken x t.ticks := hg₂
      refine ⟨by rw [hticks], hgood.retaken hname horder hkept hlater', hlater.trans hlater',
        hticks'.trans (by rw [hticks])⟩
    · rintro _ u g₂ ⟨rfl, rfl⟩
      exact ⟨rfl, hgood, hlater⟩

/-- `Group.Snapshot`, in order: the callers' newest are kept, and the copies that don't seem old. -/
structure Turned (id : EnvID) (s : Pool T) (g : Log) (x : SnapID) (replace : Bool) (t : Pool T)
    (g' : Log) : Prop where
  good : Good id t g'.there
  later : Later s t
  ticks : t.ticks = s.ticks + 2
  callers : callers g'.there =
    (callers ((g.cleared x replace).retaken x s.ticks).there).rtake keepTurns
  events : g'.events = ((g.cleared x replace).retaken x s.ticks).events
  copies : ∀ e ∈ g.there, e.byRestore = true → e ∉ g'.there →
    seemsOld s.clock (s.ticks + 1) e = true

theorem noted_takeSnapshot {replace : Bool} (h : Good id s g.there) (hname : isPreRestore x = false)
    (horder : InOrder s (g.cleared x replace).there x) :
    noted (logOp id false) (takeSnapshot id x replace)
      (fun _ => Turned id s g x replace)
      (fun _ t g' => g' = g.cleared x replace ∧ Good id t g'.there ∧ Later s t) s g := by
  have htaken := noted_taken h hname horder
  rw [noted_bind] at htaken
  unfold takeSnapshot
  rw [noted_bind]
  refine noted_mono htaken ?_ fun _ _ _ he => he
  intro _ _ _ hsnapshot
  refine noted_seq hsnapshot ?_
  rintro _ t g₁ ⟨rfl, hgood, hlater, hticks⟩
  rw [noted_bind, noted_attempt]
  refine noted_mono (noted_Prune hgood) ?_ fun _ _ _ he => he.elim
  rintro _ u g₂ ⟨hpruned, hevents, hgood₂, hlater₂, hticks₂⟩
  show Turned id s g x replace u g₂
  refine ⟨hgood₂, hlater.trans hlater₂, by rw [hticks₂, hticks], hpruned.callers, hevents, ?_⟩
  intro e he hrestore hgone
  -- the copy has another name, so it is there when `Prune` comes to it
  have hcleared : e ∈ (g.cleared x replace).there := by
    unfold Log.cleared
    split
    · refine mem_filter.2 ⟨he, decide_eq_true ?_⟩
      rintro rfl
      rw [h.named e he, hrestore] at hname
      cases hname
    · exact he
  have hin : e ∈ ((g.cleared x replace).retaken x s.ticks).there := by
    unfold Log.retaken
    split
    · exact hcleared
    · exact mem_append_left _ hcleared
  have := hpruned.copies e hin hrestore hgone
  rwa [hlater.clock, hticks] at this

/-! ### What should be there is

What should be kept follows from the takings and the callers' deletions alone.  A turn does to what
is there what its events do to that, so the two stay equal.
-/

theorem retained_append (events : List Event) (ev : Event) :
    retained (events ++ [ev]) = retain (retained events) ev := by
  simp [retained]

theorem copies_append (events : List Event) (ev : Event) :
    copiesIn (events ++ [ev]) = addCopy (copiesIn events) ev := by
  simp [copiesIn]

theorem length_retained_le (events : List Event) : (retained events).length ≤ keepTurns := by
  induction events using List.reverseRecOn with
  | nil => exact Nat.zero_le _
  | append_singleton events ev ih =>
    rw [retained_append]
    cases ev with
    | took e =>
      dsimp only [retain]
      split
      · exact ih
      · rw [List.rtake, length_drop]
        omega
    | deleted x => exact le_trans (length_filter_le _ _) ih

theorem byRestore_of_mem_copies {events : List Event} {e : Taken} (h : e ∈ copiesIn events) :
    e.byRestore = true := by
  induction events using List.reverseRecOn with
  | nil => cases h
  | append_singleton events ev ih =>
    rw [copies_append] at h
    cases ev with
    | took e' =>
      dsimp only [addCopy] at h
      split at h
      case isTrue hrestore =>
        rcases mem_append.1 h with h | h
        · exact ih h
        · rw [mem_singleton.1 h]
          exact hrestore
      case isFalse => exact ih h
    | deleted x => exact ih (mem_filter.1 h).1

/-- The callers' snapshots that are there are those that should be. -/
def Settled (g : Log) : Prop := callers g.there = retained g.events

theorem Settled.rtake (h : Settled g) : (callers g.there).rtake keepTurns = callers g.there := by
  have hfew : (callers g.there).length ≤ keepTurns := by
    rw [h]
    exact length_retained_le g.events
  rw [List.rtake, Nat.sub_eq_zero_of_le hfew, drop_zero]

theorem Settled.lose (h : Settled g) (x : SnapID) : Settled ((g.ask (some x)).lose x) := by
  show callers (g.there.filter fun e => e.id ≠ x) = retained (g.events ++ [.deleted x])
  rw [retained_append, retain, ← h]
  exact filter_comm _ _ _

theorem Log.ask_none (g : Log) : g.ask none = g := by simp [Log.ask]

theorem Settled.cleared (h : Settled g) (x : SnapID) (replace : Bool) :
    Settled ((g.ask (Turn.snapshot x replace).deletes).cleared x replace) := by
  cases replace with
  | false =>
    show Settled (g.ask none)
    rw [Log.ask_none]
    exact h
  | true => exact h.lose x

theorem Settled.retaken {g' : Log} (h : Settled g) (tick : Nat)
    (hcallers : callers g'.there = (callers (g.retaken x tick).there).rtake keepTurns)
    (hevents : g'.events = (g.retaken x tick).events) : Settled g' := by
  unfold Log.retaken at hcallers hevents
  unfold Settled
  split at hcallers
  case isTrue hthere =>
    rw [if_pos hthere] at hevents
    rw [hcallers, hevents, h.rtake]
    exact h
  case isFalse hthere =>
    rw [if_neg hthere] at hevents
    rw [hcallers, hevents, callers_take, h, Log.take, retained_append]
    rfl

/-! ### Histories -/

/-- The condition on a turn, from what is there before it.  A caller's name isn't like a restore's;
the clock shows no less than it did for what callers took before; and by none of the turn's readings
of the clock does a restore's copy seem over a day old that isn't. -/
structure Steady (id : EnvID) (real : Nat → Int) (n : Logged T) (turn : Turn) : Prop where
  name : ∀ x replace, turn = .snapshot x replace → isPreRestore x = false
  order : ∀ x replace, turn = .snapshot x replace →
    InOrder n.pool (n.log.cleared x replace).there x
  age : ∀ j, n.pool.ticks ≤ j → j < (n.after id turn).pool.ticks → ∀ e ∈ n.log.there,
    e.byRestore = true → (preRestoreKeep : Int) < n.pool.clock j - n.pool.clock e.tick →
      (preRestoreKeep : Int) < real j - real e.tick

/-- The restores' copies that have gone, though no caller deleted them, were over a day old. -/
def OldGone (real : Nat → Int) (ticks : Nat) (g : Log) : Prop :=
  ∀ e ∈ copiesIn g.events, e ∉ g.there →
    ∃ j, e.tick < j ∧ j < ticks ∧ (preRestoreKeep : Int) < real j - real e.tick

/-- What should hold after a `Snapshot` of `x`: it exists; what exists and isn't a restore's are, of
all that callers have ever taken, those that should be kept; and of the restores' copies only ones
over a day old have gone. -/
structure Newest (id : EnvID) (real : Nat → Int) (x : SnapID) (n : Logged T) : Prop where
  taken : n.pool.index.hasSnapshot id x = true ∧ (n.pool.node (.snap id x)).isSome = true
  exist : ∀ y, (n.pool.index.hasSnapshot id y = true ↔ y ∈ n.log.there.map Taken.id) ∧
    ((n.pool.node (.snap id y)).isSome = true ↔ y ∈ n.log.there.map Taken.id)
  newest : Settled n.log
  copies : OldGone real n.pool.ticks n.log

omit [Tree T] in
theorem lt_of_seemsOld {clock : Nat → Time} {j : Nat} {e : Taken} (h : seemsOld clock j e = true) :
    (preRestoreKeep : Int) < clock j - clock e.tick := by
  have hlt : unix (clock e.tick) < unix ((clock j : Int) - preRestoreKeep) := of_decide_eq_true h
  by_contra hge
  have hle : (clock j : Int) - preRestoreKeep ≤ clock e.tick := by omega
  have hmono : unix ((clock j : Int) - preRestoreKeep) ≤ unix (clock e.tick) :=
    Int.ediv_le_ediv (by decide) hle
  omega

/-- What holds in every history whose turns are steady. -/
structure Held (id : EnvID) (real : Nat → Int) (n : Logged T) : Prop where
  good : Good id n.pool n.log.there
  newest : Settled n.log
  copies : OldGone real n.pool.ticks n.log

variable {real : Nat → Int} {n : Logged T}

omit [Tree T] in
theorem Held.begun (h : Begun id s) : Held id real ⟨s, {}⟩ := by
  refine ⟨⟨⟨h.valid, h.rows, by simp, ?_, by simp, by simp, h.workspace⟩, by simp, ?_⟩, rfl, nofun⟩
  · intro x _
    exact h.node x
  · exact List.Pairwise.nil

omit [Tree T] in
theorem Held.elsewhere (h : Held id real n) (he : Elsewhere id n.pool t) :
    Held id real ⟨t, n.log⟩ := by
  obtain ⟨⟨hkept, hnamed, hsorted⟩, hnewest, hcopies⟩ := h
  refine ⟨⟨hkept.elsewhere he, hnamed, ?_⟩, hnewest, ?_⟩
  · show (callers n.log.there).Pairwise fun e e' => unix (t.clock e.tick) ≤ unix (t.clock e'.tick)
    rw [he.clock]
    exact hsorted
  · intro e hin hgone
    obtain ⟨j, hj, hlt, hold⟩ := hcopies e hin hgone
    exact ⟨j, hj, lt_of_lt_of_le hlt he.ticks, hold⟩

theorem Held.oldGone {turn : Turn} (h : Held id real n) (hok : Steady id real n turn)
    (hlater : n.pool.ticks ≤ (n.after id turn).pool.ticks)
    (hnew : ∀ e ∈ copiesIn (n.after id turn).log.events, e ∉ (n.after id turn).log.there →
      e ∈ copiesIn n.log.events)
    (hgone : ∀ e ∈ copiesIn (n.after id turn).log.events, e ∈ n.log.there → e.byRestore = true →
      e ∉ (n.after id turn).log.there → ∃ j, n.pool.ticks ≤ j ∧
        j < (n.after id turn).pool.ticks ∧ seemsOld n.pool.clock j e = true) :
    OldGone real (n.after id turn).pool.ticks (n.after id turn).log := by
  intro e he hlost
  have hbefore := hnew e he hlost
  have hrestore := byRestore_of_mem_copies hbefore
  by_cases hthere : e ∈ n.log.there
  · obtain ⟨j, hle, hlt, hold⟩ := hgone e he hthere hrestore hlost
    exact ⟨j, lt_of_lt_of_le (h.good.kept.read e hthere) hle, hlt,
      hok.age j hle hlt e hthere hrestore (lt_of_seemsOld hold)⟩
  · obtain ⟨j, hj, hlt, hold⟩ := h.copies e hbefore hthere
    exact ⟨j, hj, lt_of_lt_of_le hlt hlater, hold⟩

theorem copies_ask {d : Option SnapID} {e : Taken} (h : e ∈ copiesIn (g.ask d).events) :
    e ∈ copiesIn g.events ∧ ∀ x, d = some x → e.id ≠ x := by
  cases d with
  | none =>
    rw [Log.ask_none] at h
    exact ⟨h, nofun⟩
  | some y =>
    rw [show (g.ask (some y)).events = g.events ++ [.deleted y] from rfl, copies_append] at h
    obtain ⟨h, hne⟩ := mem_filter.1 h
    refine ⟨h, ?_⟩
    rintro x ⟨⟩
    exact of_decide_eq_true hne

theorem copies_retaken (g : Log) (x : SnapID) (tick : Nat) :
    copiesIn (g.retaken x tick).events = copiesIn g.events := by
  unfold Log.retaken
  split
  · rfl
  · rw [Log.take, copies_append]
    rfl

theorem events_cleared (g : Log) (x : SnapID) (replace : Bool) :
    (g.cleared x replace).events = g.events := by
  unfold Log.cleared
  split <;> rfl

theorem Held.noted_snapshot {replace : Bool} (h : Held id real n)
    (hok : Steady id real n (.snapshot x replace)) :
    noted (logOp id false) (takeSnapshot id x replace)
      (fun _ => Turned id n.pool (n.log.ask (Turn.snapshot x replace).deletes) x replace)
      (fun _ t g' => g' = (n.log.ask (Turn.snapshot x replace).deletes).cleared x replace ∧
        Good id t g'.there ∧ Later n.pool t) n.pool
          (n.log.ask (Turn.snapshot x replace).deletes) := by
  refine noted_takeSnapshot h.good (hok.name x replace rfl) ?_
  have := hok.order x replace rfl
  cases replace <;> exact this

theorem Held.snapshot {replace : Bool} (h : Held id real n)
    (hok : Steady id real n (.snapshot x replace)) :
    Held id real (n.after id (.snapshot x replace)) := by
  let g := n.log.ask (Turn.snapshot x replace).deletes
  have hnoted := h.noted_snapshot hok
  have hend := noted_final (I := fun t g' => Turned id n.pool g x replace t g' ∨
    g' = g.cleared x replace ∧ Good id t g'.there ∧ Later n.pool t)
    (noted_mono hnoted (fun _ _ _ hq => .inl hq) fun _ _ _ he => .inr he)
  have hcleared := h.newest.cleared x replace
  rcases hend with hturned | ⟨hlog, hgood, hlater⟩
  · refine ⟨hturned.good, hcleared.retaken _ hturned.callers hturned.events,
      h.oldGone hok hturned.later.ticks ?_ ?_⟩
    · intro e he _
      have he : e ∈ copiesIn g.events := by
        have := hturned.events ▸ he
        rwa [copies_retaken, events_cleared] at this
      exact (copies_ask he).1
    · intro e _ hthere hrestore hlost
      have hticks : (n.after id (.snapshot x replace)).pool.ticks = n.pool.ticks + 2 :=
        hturned.ticks
      exact ⟨n.pool.ticks + 1, Nat.le_succ _, by omega,
        hturned.copies e hthere hrestore hlost⟩
  · have hlog : (n.after id (.snapshot x replace)).log = g.cleared x replace := hlog
    refine ⟨hgood, by rw [hlog]; exact hcleared, h.oldGone hok hlater.ticks ?_ ?_⟩
    · intro e he _
      rw [hlog, events_cleared] at he
      exact (copies_ask he).1
    · intro e he hthere _ hlost
      rw [hlog, events_cleared] at he
      rw [hlog] at hlost
      refine absurd ?_ hlost
      cases replace with
      | false => exact hthere
      | true => exact mem_filter.2 ⟨hthere, decide_eq_true ((copies_ask he).2 x rfl)⟩

theorem Held.delete (h : Held id real n) (hok : Steady id real n (.delete x)) :
    Held id real (n.after id (.delete x)) := by
  let g := n.log.ask (some x)
  have hend := noted_final (I := fun t g' => g' = g.lose x ∧ Good id t g'.there ∧ Later n.pool t)
    (noted_mono (noted_DeleteSnapshot (g := g) (x := x) (b := false) h.good.kept) ?_ ?_)
  · obtain ⟨hlog, hgood, hlater⟩ := hend
    have hlog : (n.after id (.delete x)).log = g.lose x := hlog
    refine ⟨hgood, by rw [hlog]; exact h.newest.lose x, h.oldGone hok hlater.ticks ?_ ?_⟩
    · intro e he _
      rw [hlog] at he
      exact (copies_ask (d := some x) he).1
    · intro e he hthere _ hlost
      rw [hlog] at he hlost
      exact absurd (mem_filter.2 ⟨hthere, decide_eq_true ((copies_ask he).2 x rfl)⟩) hlost
  · rintro _ t g' ⟨rfl, hkept, hlater, -⟩
    exact ⟨rfl, h.good.lose hkept hlater, hlater⟩
  · rintro _ t g' ⟨rfl, rfl, hsame, -⟩
    exact ⟨hsame, h.good, .refl _⟩

theorem Held.restore (h : Held id real n) (hok : Steady id real n (.restore x)) :
    Held id real (n.after id (.restore x)) := by
  have hnoted := noted_Restore (x := x) (g := n.log.ask none) (by rw [Log.ask_none]; exact h.good)
  have hend : Restored id n.pool (n.log.ask none) (n.after id (.restore x)).pool
      (n.after id (.restore x)).log := noted_final hnoted
  rw [Log.ask_none] at hend
  refine ⟨hend.good, ?_, h.oldGone hok hend.later.ticks ?_ fun e _ hthere => hend.copies e hthere⟩
  · show callers _ = retained _
    rw [hend.callers, h.newest]
    rcases hend.events with hevents | ⟨e, -, hrestore, hevents⟩
    · rw [hevents]
    · rw [hevents, retained_append, retain, if_pos hrestore]
  · intro e he hlost
    rcases hend.events with hevents | ⟨e', hthere, hrestore, hevents⟩
    · rwa [hevents] at he
    · rw [hevents, copies_append, addCopy, if_pos hrestore] at he
      rcases mem_append.1 he with he | he
      · exact he
      · rw [mem_singleton.1 he] at hlost
        exact absurd hthere hlost

theorem Held.prune (h : Held id real n) (hok : Steady id real n .prune) :
    Held id real (n.after id .prune) := by
  have hnoted := noted_Prune (g := n.log.ask none) (b := false) (by rw [Log.ask_none]; exact h.good)
  have hend : Pruned n.pool (n.log.ask none).there (n.after id .prune).log.there ∧
      (n.after id .prune).log.events = (n.log.ask none).events ∧
      Good id (n.after id .prune).pool (n.after id .prune).log.there ∧
      Later n.pool (n.after id .prune).pool ∧
      (n.after id .prune).pool.ticks = n.pool.ticks + 1 :=
    noted_final (noted_mono hnoted (fun _ _ _ hq => hq) fun _ _ _ he => he.elim)
  rw [Log.ask_none] at hend
  obtain ⟨hpruned, hevents, hgood, hlater, hticks⟩ := hend
  refine ⟨hgood, ?_, h.oldGone hok hlater.ticks ?_ ?_⟩
  · show callers _ = retained _
    rw [hevents, ← h.newest, ← h.newest.rtake]
    exact hpruned.callers
  · intro e he _
    rwa [hevents] at he
  · intro e _ hthere hrestore hlost
    exact ⟨n.pool.ticks, le_refl _, by omega,
      hpruned.copies e hthere hrestore hlost⟩

/-- **A steady turn keeps it.** -/
theorem Held.turn (h : Held id real n) (turn : Turn) (hok : Steady id real n turn) :
    Held id real (n.after id turn) := by
  cases turn with
  | snapshot x replace => exact h.snapshot hok
  | delete x => exact h.delete hok
  | restore x => exact h.restore hok
  | prune => exact h.prune hok

theorem Held.reached (h : Reached id (Steady id real) n) : Held id real n := by
  obtain ⟨s, hs, hrun⟩ := h
  induction hrun with
  | refl => exact .begun hs
  | tail _ hstep ih =>
    cases hstep with
    | turn turn hok => exact ih.turn turn hok
    | elsewhere he => exact ih.elsewhere he

omit [Tree T] in
theorem mem_newest (hnamed : ∀ e ∈ g.there, isPreRestore e.id = e.byRestore) (tick : Nat)
    (hsettled : Settled g) (hname : isPreRestore x = false) :
    x ∈ ((callers (g.retaken x tick).there).rtake keepTurns).map Taken.id := by
  unfold Log.retaken
  split
  case isTrue hthere =>
    obtain ⟨e, he, rfl⟩ := mem_map.1 hthere
    have hcaller : e ∈ callers g.there := by
      refine mem_filter.2 ⟨he, ?_⟩
      rw [← hnamed e he, hname]
      rfl
    rw [hsettled.rtake]
    exact mem_map_of_mem hcaller
  case isFalse =>
    have hlast : (⟨x, false, tick⟩ : Taken) ∈
        (callers g.there ++ [(⟨x, false, tick⟩ : Taken)]).rtake keepTurns := by
      rw [List.rtake, length_append, length_singleton,
        drop_append_of_le_length (by simp [keepTurns])]
      simp
    rw [callers_take]
    exact mem_map_of_mem hlast

/-- **Retention keeps the newest.**  In every history whose turns are steady, after each `Snapshot`
that succeeded the snapshot exists; the snapshots that no restore made are, of all that callers have
ever taken, those that should be kept, which prunes of any kind didn't touch; and of the restores'
copies that no caller deleted only ones over a day old have gone. -/
theorem retention_keeps_newest (h : Reached id (Steady id real) n) (x : SnapID) (replace : Bool)
    (hok : Steady id real n (.snapshot x replace))
    (hdone : ((Turn.snapshot x replace).call id n.pool).result = .ok ()) :
    Newest id real x (n.after id (.snapshot x replace)) := by
  have hheld := Held.reached h
  have hafter := hheld.turn _ hok
  have hkept := hafter.good.kept
  have hnode (y : SnapID) :
    ((n.after id (.snapshot x replace)).pool.node (.snap id y)).isSome = true ↔
      y ∈ (n.after id (.snapshot x replace)).log.there.map Taken.id := by
    constructor
    · intro hsome
      by_contra hnot
      rw [hkept.gone y hnot] at hsome
      cases hsome
    · intro hin
      obtain ⟨tree, nested, hnode⟩ := hkept.there y hin
      rw [hnode]
      rfl
  have hx : x ∈ (n.after id (.snapshot x replace)).log.there.map Taken.id := by
    have hturned : Turned id n.pool _ x replace (n.after id (.snapshot x replace)).pool
        (n.after id (.snapshot x replace)).log := noted_ok (hheld.noted_snapshot hok) hdone
    have hmem := mem_newest (g := (n.log.ask _).cleared x replace)
      (fun e he => hheld.good.named e (mem_of_mem_cleared (g := n.log.ask _) he)) n.pool.ticks
      (hheld.newest.cleared x replace) (hok.name x replace rfl)
    rw [← hturned.callers] at hmem
    exact (filter_sublist.map _).subset hmem
  exact ⟨⟨(hkept.hasSnapshot x).2 hx, (hnode x).2 hx⟩, fun y => ⟨hkept.hasSnapshot y, hnode y⟩,
    hafter.newest, hafter.copies⟩

end Calls

/-! ### Histories to run -/

section Counterexample

/-- An environment without snapshots. -/
def started (clock : Nat → Time) : Pool (List String) where
  disk := ((FinMap.empty.set (.envDir "demo") .dir).set (.snapsDir "demo") .dir).set (.live "demo")
    (.subvol [] false)
  index := ⟨[⟨"demo", .live "demo", "", 0, ""⟩], [], by simp, by simp, by simp, by simp⟩
  full := false
  gitDir := fun _ => .ok ""
  clock := clock
  ticks := 0

theorem started_begun (clock : Nat → Time) : Begun "demo" (started clock) := by
  refine ⟨by decide, rfl, fun x => by simp [started, Pool.node], ?_⟩
  intro row hrow
  have hrow : row = ⟨"demo", .live "demo", "", 0, ""⟩ := by
    simpa [started, Pool.env?, Index.env?, eq_comm] using hrow
  rw [hrow]
  exact .live

/-- One turn after another. -/
def Logged.run (n : Logged (List String)) (turns : List Turn) : Logged (List String) :=
  turns.foldl (fun n turn => n.after "demo" turn) n

theorem reached_run (clock : Nat → Time) (turns : List Turn) :
    Reached "demo" (fun _ _ => True) (Logged.run ⟨started clock, {}⟩ turns) := by
  refine ⟨started clock, started_begun clock, ?_⟩
  generalize (⟨started clock, {}⟩ : Logged (List String)) = n
  induction turns generalizing n with
  | nil => exact .refl
  | cons turn turns ih => exact .head (.turn n turn trivial) (ih _)

theorem eq_ok_of_toBool {r : Except Err Unit} (h : r.toBool = true) : r = .ok () := by
  cases r with
  | error e => cases h
  | ok a => rfl

/-- By a clock that shows a second more at each reading, as is true, every turn is steady whose name
is none of a restore's. -/
theorem steady_of_clock {n : Logged (List String)} {turn : Turn}
    (h : Held "demo" (fun k => k * second) n) (hclock : n.pool.clock = fun k => k * second)
    (hname : ∀ x replace, turn = .snapshot x replace → isPreRestore x = false) :
    Steady "demo" (fun k => k * second) n turn := by
  refine ⟨hname, ?_, ?_⟩
  · rintro x replace - - e he
    have hread := h.good.kept.read e (mem_of_mem_cleared (mem_filter.1 he).1)
    have hle : e.tick * second ≤ n.pool.ticks * second := Nat.mul_le_mul_right _ (le_of_lt hread)
    rw [hclock]
    exact Int.ediv_le_ediv (by decide) (by exact_mod_cast hle)
  · intro j _ _ e _ _ hold
    rw [hclock] at hold
    simpa using hold

theorem Reached.turn {n : Logged (List String)} (turn : Turn)
    (h : Reached "demo" (Steady "demo" fun k => k * second) n)
    (hclock : n.pool.clock = fun k => k * second)
    (hname : ∀ x replace, turn = .snapshot x replace → isPreRestore x = false) :
    Reached "demo" (Steady "demo" fun k => k * second) (n.after "demo" turn) := by
  obtain ⟨s, hs, hrun⟩ := h
  exact ⟨s, hs, hrun.tail (.turn n turn (steady_of_clock (.reached ⟨s, hs, hrun⟩) hclock hname))⟩

/-- Two turns, a restore of the first, and its deletion. -/
def someTurns : Logged (List String) :=
  Logged.run ⟨started fun k => k * second, {}⟩
    [.snapshot "turn-1" false, .snapshot "turn-2" false, .restore "turn-1", .delete "turn-1"]

theorem reached_someTurns : Reached "demo" (Steady "demo" fun k => k * second) someTurns :=
  Reached.turn _ (Reached.turn _ (Reached.turn _ (Reached.turn _ ⟨_, started_begun _, .refl⟩ rfl
    (by rintro x replace ⟨⟩; decide)) rfl (by rintro x replace ⟨⟩; decide)) rfl nofun) rfl nofun

/-- The next turn is there, with the second and the restore's copy. -/
theorem retention_keeps_someTurns :
    let n := someTurns.after "demo" (.snapshot "turn-3" false)
    n.log.there.map (fun e => (e.id, e.byRestore)) =
        [("turn-2", false), (preRestoreID (5 * second), true), ("turn-3", false)] ∧
      Newest "demo" (fun k => k * second) "turn-3" n :=
  ⟨by decide +kernel, retention_keeps_newest reached_someTurns "turn-3" false
    (steady_of_clock (.reached reached_someTurns) rfl (by rintro x replace ⟨⟩; decide))
    (eq_ok_of_toBool (by decide +kernel))⟩

/-- A caller's snapshot whose name is like a restore's, half a day before each reading. -/
def likeRestore : Logged (List String) :=
  Logged.run ⟨started fun k => k * (preRestoreKeep / 2), {}⟩ [.snapshot "Pre-Restore-mine" false]

def turnName (k : Nat) : SnapID := String.ofList [Char.ofNat (97 + k / 8), Char.ofNat (97 + k % 8)]

/-- As many turns as are kept, and then the clock steps back. -/
def steppedBack : Logged (List String) :=
  Logged.run ⟨started fun k => if k < 2 * keepTurns then (k + 1) * second else 0, {}⟩
    ((List.range keepTurns).map fun k => .snapshot (turnName k) false)

/-- **What retention loses.**  A caller's snapshot that is called like a restore's goes after a day,
and a snapshot that is taken when the clock has stepped back goes at once. -/
theorem retention_loses_newest :
    (Reached "demo" (fun _ _ => True) likeRestore ∧
      ((Turn.snapshot "next" false).call "demo" likeRestore.pool).result = .ok () ∧
      ¬ Newest "demo" (fun k => k * (preRestoreKeep / 2)) "next"
        (likeRestore.after "demo" (.snapshot "next" false))) ∧
    Reached "demo" (fun _ _ => True) steppedBack ∧
      ((Turn.snapshot "next" false).call "demo" steppedBack.pool).result = .ok () ∧
      ¬ Newest "demo" (fun k => k) "next"
        (steppedBack.after "demo" (.snapshot "next" false)) := by
  have hback : ((Turn.snapshot "next" false).call "demo" steppedBack.pool).result.toBool = true ∧
      (steppedBack.after "demo" (.snapshot "next" false)).pool.index.hasSnapshot "demo" "next" =
        false := by
    decide +kernel
  refine ⟨⟨reached_run _ _, eq_ok_of_toBool (by decide +kernel), ?_⟩,
    reached_run _ _, eq_ok_of_toBool hback.1, ?_⟩
  · intro h
    exact absurd h.newest (by unfold Settled; decide +kernel)
  · intro h
    rw [h.taken.1] at hback
    cases hback.2

end Counterexample

end Retention

end Fern

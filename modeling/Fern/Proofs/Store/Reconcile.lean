/-
What `Reconcile` does.

`Recovered` is what recovery can do to a pool, in any number of its steps: it removes what is
in a directory without a row, the leftovers of environments with one and the old snapshots of
restores, brings rows and snapshots in step and puts back a missing `live`.  It is a relation
that composes, so each step is looked at alone, and a `Reconcile` that is stopped and run again
is one more composition.
-/
import Fern.Proofs.Store.Snapshots

namespace Fern

open Call StoreM List

variable {T : Type} [Tree T] {named : Prop} {s t u : Pool T} {id : EnvID} {e : EnvID} {x : SnapID}

/-! ### Recovery

The places are those of the state recovery began in.  That two parts make one needs that the second
finds nothing to do that the first couldn't have: no row goes before its snapshot, and what is
missing was missing before. -/

/-- A restore's snapshot that recovery may remove: it is old, or has no row yet. -/
def Expired (s t : Pool T) (e : EnvID) (x : SnapID) : Prop :=
  isPreRestore x = true ∧ ((s.index.snap? e x = none ∧ s.node (.snap e x) ≠ none) ∨
    ∃ row, s.index.snap? e x = some row ∧ Aged s t row)

/-- The places recovery of the environments `D` may change. -/
def Recovery (D : EnvID → Prop) (s t : Pool T) : Place → Prop
  | .node p =>
    (∃ e, D e ∧ s.env? e = none ∧ (p.env? = some e ∨ s.marker? e = some (some p))) ∨
    (∃ e, D e ∧ s.env? e ≠ none ∧ p ∈ [.restore e, .adopt e, .marker e] ∧ s.node p ≠ none) ∨
    (∃ e row, D e ∧ s.env? e = some row ∧ row.workspace = .live e ∧ p = .live e ∧
      s.node p = none) ∨
    ∃ e x, D e ∧ s.env? e ≠ none ∧ p = .snap e x ∧ Expired s t e x
  | .env _ => False
  | .snap e x => D e ∧ s.env? e ≠ none ∧ (Expired s t e x ∨
      ¬ (s.index.snap? e x ≠ none ↔ s.node (.snap e x) ≠ none))

/-- `t` is `s` with some recovery of the environments `D` done. -/
structure Recovered (D : EnvID → Prop) (s t : Pool T) : Prop where
  frame : Frame (Recovery D s t) s t
  /-- What changes goes, but for an empty `live`. -/
  node : ∀ p, t.node p = s.node p ∨ t.node p = none ∨
    ∃ e, p = .live e ∧ s.env? e ≠ none ∧ s.node p = none ∧
      t.node p = some (.subvol Tree.empty false)
  /-- A row that is new is of a snapshot without one, and of now. -/
  row : ∀ e x r, t.index.snap? e x = some r → s.index.snap? e x = some r ∨
    (s.index.snap? e x = none ∧ s.node (.snap e x) ≠ none ∧
      ∃ k, s.ticks ≤ k ∧ k < t.ticks ∧ r = ⟨e, x, unix (s.clock k)⟩)
  /-- A row goes after its snapshot. -/
  gone : ∀ e x, s.index.snap? e x ≠ none → t.index.snap? e x = none → t.node (.snap e x) = none

section Compose

variable {D D' : EnvID → Prop}

omit [Tree T] in
theorem Expired.mono (h : Expired s t e x) (ht : t.ticks ≤ u.ticks) :
    Expired s u e x :=
  ⟨h.1, h.2.imp id fun ⟨row, hrow, hold⟩ => ⟨row, hrow, hold.mono rfl (le_refl _) ht⟩⟩

omit [Tree T] in
theorem Recovery.mono (hD : ∀ e, D e → D' e) (ht : t.ticks ≤ u.ticks) {q : Place}
    (h : Recovery D s t q) : Recovery D' s u q := by
  cases q with
  | node p =>
    rcases h with ⟨e, he, h⟩ | ⟨e, he, h⟩ | ⟨e, row, he, h⟩ | ⟨e, x, he, h1, h2, h3⟩
    · exact .inl ⟨e, hD e he, h⟩
    · exact .inr (.inl ⟨e, hD e he, h⟩)
    · exact .inr (.inr (.inl ⟨e, row, hD e he, h⟩))
    · exact .inr (.inr (.inr ⟨e, x, hD e he, h1, h2, h3.mono ht⟩))
  | env e => exact h
  | snap e x => exact ⟨hD e h.1, h.2.1, h.2.2.imp (fun h => h.mono ht) id⟩

omit [Tree T] in
/-- A workspace in the directory of an environment with a row is changed only if it is
missing. -/
theorem Recovery.live_eq_none (hs : Apart s) (he : s.env? e ≠ none)
    (h : Recovery D s t (.node (.live e))) : s.node (.live e) = none := by
  rcases h with ⟨e', _, hnone, h | h⟩ | ⟨e', _, _, h, _⟩ | ⟨_, _, _, _, _, _, h⟩ |
    ⟨_, _, _, _, h, _⟩
  · cases h
    exact absurd hnone he
  · have := hs.marked e' _ h
    cases this
    exact absurd hnone he
  · simp at h
  · exact h
  · cases h

omit [Tree T] in
theorem Recovery.expired (hs : Apart s) (he : s.env? e ≠ none)
    (h : Recovery D s t (.node (.snap e x))) : D e ∧ Expired s t e x := by
  rcases h with ⟨e', _, hnone, h | h⟩ | ⟨e', _, _, h, _⟩ | ⟨_, _, _, _, _, h, _⟩ |
    ⟨e', y, hD, _, h, hx⟩
  · cases h
    exact absurd hnone he
  · have := hs.marked e' _ h
    cases this
  · simp at h
  · cases h
  · cases h
    exact ⟨hD, hx⟩

omit [Tree T] in
theorem Recovery.dir {p : Path} (hs : Apart s) (hp : p.env? = some e)
    (h : Recovery D s t (.node p)) : D e := by
  rcases h with ⟨e', hD, hnone, h | h⟩ | ⟨e', hD, _, h, _⟩ | ⟨e', _, hD, _, _, rfl, _⟩ |
    ⟨e', y, hD, _, rfl, _⟩
  · rw [hp] at h
    cases h
    exact hD
  · rcases (hs.marked e' _ h).env? with h' | h' <;> rw [hp] at h' <;> cases h'
    exact hD
  · simp only [mem_cons, not_mem_nil, or_false] at h
    rcases h with rfl | rfl | rfl <;> cases hp <;> exact hD
  · cases hp
    exact hD
  · cases hp
    exact hD

namespace Recovered

theorem env? (h : Recovered D s t) (e : EnvID) : t.env? e = s.env? e := h.frame.env e id

theorem refl (D : EnvID → Prop) (s : Pool T) : Recovered D s s :=
  ⟨Frame.refl _ s, fun _ => Or.inl rfl, fun _ _ _ h => Or.inl h, fun _ _ h h' => absurd h' h⟩

/-- What is there is what was there, unless it is an empty `live`. -/
theorem node_of_ne_none (h : Recovered D s t) {p : Path} (hlive : ∀ e, p ≠ .live e)
    (hp : t.node p ≠ none) : t.node p = s.node p := by
  rcases h.node p with h | h | ⟨e, h, _⟩
  · exact h
  · exact absurd h hp
  · exact absurd h (hlive e)

theorem marker? (h : Recovered D s t) {w : Option Path} (hm : t.marker? e = some w) :
    s.marker? e = some w := by
  rw [Pool.marker?_eq_some] at hm ⊢
  rw [← h.node_of_ne_none (p := .marker e) (by simp) (by rw [hm]; simp)]
  exact hm

/-- A snapshot that was changed had expired; one that was removed is gone with its row's turn. -/
private theorem snap_ne_none (h : Recovered D s t) (ht : t.node (.snap e x) ≠ none) :
    t.node (.snap e x) = s.node (.snap e x) :=
  h.node_of_ne_none (by simp) ht

private theorem trans_node (h : Recovered D s t) (h' : Recovered D' t u) {p : Path}
    (hp : ¬ Recovery (fun e => D e ∨ D' e) s u (.node p)) : u.node p = s.node p := by
  have htu := h'.frame.ticks
  have hsame : t.node p = s.node p := h.frame.node p fun hc =>
    hp (hc.mono (fun e => Or.inl) htu)
  by_cases hR : Recovery D' t u (.node p)
  swap
  · exact (h'.frame.node p hR).trans hsame
  -- What the second part may change, the first could have.
  refine absurd ?_ hp
  rcases hR with ⟨e, he, hnone, hp'⟩ | ⟨e, he, hsome, hmem, hn⟩ | ⟨e, row, he, hrow, hws, rfl, hn⟩ |
    ⟨e, x, he, hsome, rfl, hpre, hexp⟩
  · rw [h.env?] at hnone
    exact .inl ⟨e, .inr he, hnone, hp'.imp id fun hm => h.marker? hm⟩
  · rw [h.env?] at hsome
    exact .inr (.inl ⟨e, .inr he, hsome, hmem, by rw [← hsame]; exact hn⟩)
  · rw [h.env?] at hrow
    exact .inr (.inr (.inl ⟨e, row, .inr he, hrow, hws, rfl, by rw [← hsame]; exact hn⟩))
  · rw [h.env?] at hsome
    refine .inr (.inr (.inr ⟨e, x, .inr he, hsome, rfl, hpre, ?_⟩))
    rcases hexp with ⟨hrow, hn⟩ | ⟨row, hrow, hold⟩
    · -- A row that went would have gone after the snapshot.
      refine .inl ⟨?_, by rw [← hsame]; exact hn⟩
      by_contra hne
      exact hn (h.gone e x hne hrow)
    · rcases h.row e x row hrow with hrow' | ⟨hrow', hn, _⟩
      · exact .inr ⟨row, hrow', hold.mono h.frame.clock.symm h.frame.ticks (le_refl _)⟩
      · exact .inl ⟨hrow', hn⟩

private theorem trans_snap (hs : Apart s) (h : Recovered D s t) (h' : Recovered D' t u)
    (hx : ¬ Recovery (fun e => D e ∨ D' e) s u (.snap e x)) :
    u.index.snap? e x = s.index.snap? e x := by
  have htu := h'.frame.ticks
  have hsame : t.index.snap? e x = s.index.snap? e x := h.frame.snap e x fun hc =>
    hx (hc.mono (fun e => Or.inl) htu)
  by_cases hR : Recovery D' t u (.snap e x)
  swap
  · exact (h'.frame.snap e x hR).trans hsame
  refine absurd ?_ hx
  obtain ⟨he, hsome, hR⟩ := hR
  rw [h.env?] at hsome
  rcases hR with ⟨hpre, ⟨hrow, hn⟩ | ⟨row, hrow, hold⟩⟩ | hsync
  · refine ⟨.inr he, hsome, .inr ?_⟩
    rw [← hsame, ← h.snap_ne_none hn, hrow]
    simp [hn]
  · rw [hsame] at hrow
    exact ⟨.inr he, hsome, .inl ⟨hpre, .inr ⟨row, hrow,
      hold.mono h.frame.clock.symm h.frame.ticks (le_refl _)⟩⟩⟩
  · by_cases hnode : t.node (.snap e x) = s.node (.snap e x)
    · rw [hsame, hnode] at hsync
      exact ⟨.inr he, hsome, .inr hsync⟩
    · have hc : Recovery D s t (.node (.snap e x)) := by
        by_contra hc
        exact hnode (h.frame.node _ hc)
      obtain ⟨hD, hexp⟩ := hc.expired hs hsome
      exact ⟨.inl hD, hsome, .inl (hexp.mono htu)⟩

theorem trans (hs : Apart s) (h : Recovered D s t) (h' : Recovered D' t u) :
    Recovered (fun e => D e ∨ D' e) s u where
  frame := {
    node := fun p hp => trans_node h h' hp
    env := fun e _ => (h'.env? e).trans (h.env? e)
    snap := fun e x hx => trans_snap hs h h' hx
    clock := h'.frame.clock.trans h.frame.clock
    ticks := h.frame.ticks.trans h'.frame.ticks
    gitDir := h'.frame.gitDir.trans h.frame.gitDir }
  node p := by
    rcases h'.node p with hu | hu | ⟨e, rfl, he, hnone, hu⟩
    · rw [hu]
      exact h.node p
    · exact .inr (.inl hu)
    · -- A `live` that is missing was missing before.
      rw [h.env?] at he
      refine .inr (.inr ⟨e, rfl, he, ?_, hu⟩)
      by_cases hR : Recovery D s t (.node (.live e))
      · exact hR.live_eq_none hs he
      · rw [← h.frame.node _ hR]
        exact hnone
  row e x r hr := by
    rcases h'.row e x r hr with ht | ⟨hnone, hn, k, hk, hk', rfl⟩
    · refine (h.row e x r ht).imp id fun ⟨h1, h2, k, hk, hk', hr'⟩ => ?_
      exact ⟨h1, h2, k, hk, lt_of_lt_of_le hk' h'.frame.ticks, hr'⟩
    · refine .inr ⟨?_, by rw [← h.snap_ne_none hn]; exact hn, k, h.frame.ticks.trans hk, hk',
        by rw [h.frame.clock]⟩
      by_contra hne
      exact hn (h.gone e x hne hnone)
  gone e x hrow hnone := by
    have hstay : t.node (.snap e x) = none → u.node (.snap e x) = none := by
      intro hn
      rcases h'.node (.snap e x) with hu | hu | ⟨_, hc, _⟩
      · exact hu.trans hn
      · exact hu
      · cases hc
    by_cases ht : t.index.snap? e x = none
    · exact hstay (h.gone e x hrow ht)
    · exact h'.gone e x ht hnone

theorem mono (h : Recovered D s t) (hD : ∀ e, D e → D' e) : Recovered D' s t :=
  ⟨h.frame.mono fun _ => Recovery.mono hD (le_refl _), h.node, h.row, h.gone⟩

theorem step (hs : Apart s) (h : Recovered D s t) (h' : Recovered D t u) : Recovered D s u :=
  (trans hs h h').mono fun _ he => he.elim id id

end Recovered

end Compose

/-! ### The steps of recovery

Each is a change the calls below make: leftovers go, old snapshots go, a `live` comes, rows follow
the snapshots. -/

section Steps

theorem Recovered.leftover (henv : s.env? id ≠ none)
    (hf : Frame (AtPaths [.restore id, .adopt id, .marker id]) s t) (hless : Less s t) :
    Recovered (· = id) s t where
  frame := {
    node := by
      intro p hp
      by_cases hmem : p ∈ [Path.restore id, .adopt id, .marker id]
      · have hnone : s.node p = none := by
          by_contra hsome
          exact hp (.inr (.inl ⟨id, rfl, henv, hmem, hsome⟩))
        rw [hnone]
        exact (hless p).elim (fun h => h.trans hnone) fun h => h
      · exact hf.node p hmem
    env := fun e _ => hf.env e fun h => h
    snap := fun e x _ => hf.snap e x fun h => h
    clock := hf.clock
    ticks := hf.ticks
    gitDir := hf.gitDir }
  node p := (hless p).imp_right Or.inl
  row e x r hr := Or.inl (by rw [← hf.snap e x fun h => h]; exact hr)
  gone e x hs ht := absurd (by rw [← hf.snap e x fun h => h]; exact ht) hs

theorem Recovered.prune {keep : SnapID} (henv : s.env? id ≠ none)
    (hf : Frame (Prunes s id keep) s t) (hdrop : Dropping s t id)
    (hticks : t.ticks = s.ticks + 1) : Recovered (· = id) s t := by
  have hexp : ∀ x, Prunable s id keep x → Expired s t id x := by
    rintro x ⟨row, hrow, hpre, _, hold⟩
    exact ⟨hpre, .inr ⟨row, hrow, s.ticks, le_refl _, by omega, hold⟩⟩
  have hnode : ∀ p, t.node p = s.node p ∨ t.node p = none := by
    intro p
    by_cases hp : ∃ x, p = .snap id x
    · obtain ⟨x, rfl⟩ := hp
      exact (hdrop x).1
    · refine .inl (hf.node p ?_)
      rw [prunes_node]
      rintro ⟨x, _, hc⟩
      exact hp ⟨x, hc⟩
  have hrow : ∀ e x, t.index.snap? e x = s.index.snap? e x ∨
      (t.index.snap? e x = none ∧ t.node (.snap e x) = none) := by
    intro e x
    by_cases he : e = id
    · rw [he]
      exact (hdrop x).2
    · exact .inl (hf.snap e x (by simp [he]))
  refine ⟨hf.mono ?_, fun p => (hnode p).imp_right Or.inl, fun e x r hr => Or.inl ?_,
    fun e x hs ht => ?_⟩
  · rintro q ⟨x, hx, rfl | rfl⟩
    · exact .inr (.inr (.inr ⟨id, x, rfl, henv, rfl, hexp x hx⟩))
    · exact ⟨rfl, henv, .inl (hexp x hx)⟩
  · rcases hrow e x with h | ⟨h, _⟩
    · rw [← h]; exact hr
    · rw [hr] at h; cases h
  · rcases hrow e x with h | ⟨_, h⟩
    · rw [h] at ht; exact absurd ht hs
    · exact h

theorem Recovered.live {row : EnvRow} (hrow : s.env? id = some row)
    (hws : row.workspace = .live id) (hnone : s.node (.live id) = none) (o : Owner) :
    Recovered (· = id) s (s.withLive id o) where
  frame := {
    node := by
      intro p hp
      rw [Pool.withLive, Pool.node_put, if_neg, Pool.node_own]
      rintro rfl
      exact hp (.inr (.inr (.inl ⟨id, row, rfl, hrow, hws, rfl, hnone⟩)))
    env := fun _ _ => rfl
    snap := fun _ _ _ => rfl
    clock := rfl
    ticks := le_refl _
    gitDir := rfl }
  node p := by
    rw [Pool.withLive, Pool.node_put]
    split
    · rename_i hp
      rw [hp]
      exact .inr (.inr ⟨id, rfl, by rw [hrow]; simp, hnone, rfl⟩)
    · exact .inl rfl
  row _ _ _ hr := Or.inl hr
  gone _ _ hs ht := absurd ht hs

theorem Recovered.tick (D : EnvID → Prop) (s : Pool T) :
    Recovered D s { s with ticks := s.ticks + 1 } :=
  ⟨⟨fun _ _ => rfl, fun _ _ => rfl, fun _ _ _ => rfl, rfl, Nat.le_succ _, rfl⟩, fun _ => Or.inl rfl,
    fun _ _ _ h => Or.inl h, fun _ _ h h' => absurd h' h⟩

theorem Recovered.sync {y : Index} (henv : s.env? id ≠ none)
    (henvs : ∀ e, y.env? e = s.env? e)
    (hother : ∀ e x, e ≠ id → y.snap? e x = s.index.snap? e x)
    (hrows : ∀ x, y.snap? id x = if s.node (.snap id x) = none then none
      else some ((s.index.snap? id x).getD ⟨id, x, unix (s.clock s.ticks)⟩)) :
    Recovered (· = id) s { s with index := y, ticks := s.ticks + 1 } where
  frame := {
    node := fun _ _ => rfl
    env := fun e _ => henvs e
    snap := by
      intro e x hx
      by_cases he : e = id
      · subst he
        have hsync : s.index.snap? e x ≠ none ↔ s.node (.snap e x) ≠ none := by
          by_contra hc
          exact hx ⟨rfl, henv, .inr hc⟩
        refine (hrows x).trans ?_
        cases hsnap : s.index.snap? e x with
        | none =>
          rw [if_pos]
          by_contra hn
          exact hsync.mpr hn hsnap
        | some r => rw [if_neg (hsync.mp (by rw [hsnap]; simp))]; rfl
      · exact hother e x he
    clock := rfl
    ticks := Nat.le_succ _
    gitDir := rfl }
  node _ := Or.inl rfl
  row e x r hr := by
    by_cases he : e = id
    · subst he
      have hrow := (hrows x).symm.trans hr
      split at hrow
      · cases hrow
      · rename_i hn
        cases hsnap : s.index.snap? e x with
        | some r' => rw [hsnap] at hrow; exact .inl hrow
        | none =>
          rw [hsnap] at hrow
          exact .inr ⟨rfl, hn, s.ticks, le_refl _, Nat.lt_succ_self _,
            (Option.some.inj hrow).symm⟩
    · exact .inl ((hother e x he).symm.trans hr)
  gone e x hs ht := by
    by_cases he : e = id
    · subst he
      have hrow := (hrows x).symm.trans ht
      split at hrow
      · assumption
      · cases hrow
    · exact absurd ((hother e x he).symm.trans ht) hs

end Steps

/-! ### What `Reconcile` runs -/

section Calls

variable {env : EnvRow}

/-- `reconcileSnapshots` brings rows and snapshots in step, and never fails. -/
theorem wp_reconcileSnapshots (hs : Sane named s) (henv : s.env? id ≠ none) :
    Completes (reconcileSnapshots id) (fun t => Sane named t ∧ Recovered (· = id) s t)
      (fun _ t => Synced t id ∧ ∀ p, t.node p = s.node p) s := by
  have hfound : ∀ x, x ∈ found s id ↔ s.node (.snap id x) ≠ none := by
    intro x
    rw [found, mem_filter, Pool.mem_snapDirs]
    refine ⟨And.left, fun hx => ⟨hx, ?_⟩⟩
    obtain ⟨n, hn⟩ := Option.ne_none_iff_exists'.mp hx
    obtain ⟨hsub, hname⟩ := hs.holds _ n hn
    simp [hn, hsub, hname]
  have hmissing : ∀ x, x ∈ (found s id).filter (fun x => x ∉ indexed s id) ↔
      s.node (.snap id x) ≠ none ∧ s.index.snap? id x = none := by
    intro x
    rw [mem_filter, hfound, decide_eq_true_iff, indexed, Index.mem_snapshots, not_not]
  have hstale : ∀ x, x ∈ (indexed s id).filter (fun x => x ∉ found s id) ↔
      s.index.snap? id x ≠ none ∧ s.node (.snap id x) = none := by
    intro x
    rw [mem_filter, indexed, Index.mem_snapshots, decide_eq_true_iff, hfound, not_not]
  unfold reconcileSnapshots
  rw [Completes, wp_bind, wp_read]
  split
  · rename_i hnone
    exact absurd hnone (hs.indexed id henv).2.1
  dsimp only
  split
  · rename_i hempty
    rw [Bool.and_eq_true, List.isEmpty_iff, List.isEmpty_iff] at hempty
    rw [wp_pure]
    refine ⟨⟨hs, Recovered.refl _ s⟩, fun x => ⟨fun hrow hn => ?_, fun hn hrow => ?_⟩, fun _ => rfl⟩
    · have := (hstale x).mpr ⟨hrow, hn⟩
      rw [hempty.2] at this
      cases this
    · have := (hmissing x).mpr ⟨hn, hrow⟩
      rw [hempty.1] at this
      cases this
  · have htick : Sane named { s with ticks := s.ticks + 1 } :=
      (Sound.tick (P := fun _ => True) hs).2
    refine wp_timeNow ⟨htick, Recovered.tick _ s⟩ ?_
    refine wp_op (fun u hu => ?_) fun e he => ?_
    · have hsafe : (Op.recoverSnapshots id ((found s id).filter fun x => x ∉ indexed s id)
          ((indexed s id).filter fun x => x ∉ found s id) (unix (s.clock s.ticks)) :
            Op T).Safe named
          { s with ticks := s.ticks + 1 } := by
        intro x hx
        obtain ⟨n, hn⟩ := Option.ne_none_iff_exists'.mp ((hmissing x).mp hx).1
        exact (hs.holds _ n hn).2
      have hsane := htick.run hsafe hu
      obtain ⟨y, hy, rfl⟩ := Op.run_recoverSnapshots hu
      obtain ⟨henvs, hsnaps⟩ := Index.recoverSnapshots_spec hy
      have hrows : ∀ x, y.snap? id x = if s.node (.snap id x) = none then none
          else some ((s.index.snap? id x).getD ⟨id, x, unix (s.clock s.ticks)⟩) := by
        intro x
        rw [hsnaps]
        simp only [true_and, hmissing, hstale]
        by_cases hn : s.node (.snap id x) = none <;> cases hrow : s.index.snap? id x <;>
          simp [hn]
      have hrec : Recovered (· = id) s { s with index := y, ticks := s.ticks + 1 } := by
        refine Recovered.sync henv henvs (fun e x he => ?_) hrows
        rw [hsnaps, if_neg fun h => he h.1, if_neg fun h => he h.1]
      refine ⟨⟨hsane, hrec⟩, ⟨hsane, hrec⟩, fun x => ?_, fun _ => rfl⟩
      show y.snap? id x ≠ none ↔ s.node (.snap id x) ≠ none
      rw [hrows x]
      by_cases hn : s.node (.snap id x) = none <;> simp [hn]
    · obtain ⟨y, hy⟩ := Index.recoverSnapshots_ok ((found s id).filter fun x => x ∉ indexed s id)
        ((indexed s id).filter fun x => x ∉ found s id) (unix (s.clock s.ticks)) henv
      simp only [Op.run, hy] at he
      cases he

theorem wp_dropMarker (hs : Sane named s) (henv : s.env? id ≠ none) :
    Completes (dropMarker id) (fun t => Sane named t ∧ Recovered (· = id) s t)
      (fun _ t => t.node (.marker id) = none ∧ ∀ p, p ≠ .marker id → t.node p = s.node p) s := by
  unfold dropMarker
  rw [Completes, wp_bind, wp_read]
  split
  · rename_i n hn
    refine wp_op (fun t ht => ?_) fun e he => by simp [Op.run, hn] at he
    have hsane : Sane named t := hs.run (o := .remove (.marker id)) ⟨id, rfl, henv⟩ ht
    have hf := Op.run_frame ht
    simp only [Op.run, hn, Except.ok.injEq] at ht
    subst ht
    have hrec : Recovered (· = id) s (s.drop (.marker id)) := by
      refine Recovered.leftover henv (hf.mono ?_) fun p => ?_
      · rintro _ rfl
        simp [AtPaths]
      · by_cases hp : p = .marker id <;> simp [hp]
    exact ⟨⟨hsane, hrec⟩, ⟨hsane, hrec⟩, by simp, fun p hp => by simp [hp]⟩
  · rename_i hnone
    rw [wp_pure]
    exact ⟨⟨hs, Recovered.refl _ s⟩, hnone, fun _ _ => rfl⟩

theorem wp_putBackLive (hs : Sane named s) (henv : s.env? env.id = some env) :
    Completes (putBackLive env) (fun t => Sane named t ∧ Recovered (· = env.id) s t)
      (fun _ t => t.index = s.index ∧
        (env.workspace = .live env.id → t.node env.workspace ≠ none) ∧
        ∀ p, p ≠ .live env.id → t.node p = s.node p) s := by
  have hsome : s.env? env.id ≠ none := by rw [henv]; simp
  unfold putBackLive
  rw [Completes, wp_bind, wp_read]
  split
  · rename_i hmiss
    obtain ⟨hnone, hlive⟩ := hmiss
    rw [hlive] at hnone ⊢
    have hparent := hs.hasParent_live hsome
    have hrun : (Op.createSubvolume (.live env.id)).run s = .ok (s.withLive env.id .root) := by
      simp [Op.run, hnone, hparent, Pool.withLive]
    have hmade : ∀ o, Sane named (s.withLive env.id o) := by
      intro o
      rw [← s.own_withLive env.id .root o]
      exact (hs.run (o := .createSubvolume (.live env.id))
        ⟨rfl, fun e he => by cases he; exact .inl hsome⟩ hrun).own _ o
    exact wp_makeLive hnone (.inl hparent)
      (fun o => ⟨hmade o, Recovered.live henv hlive hnone o⟩)
      ⟨⟨hmade .box, Recovered.live henv hlive hnone .box⟩, rfl, fun _ => by simp [Pool.withLive],
        fun p hp => by simp [Pool.withLive, hp]⟩
  · rename_i hok
    rw [wp_pure]
    exact ⟨⟨hs, Recovered.refl _ s⟩, rfl, fun hlive hnone => hok ⟨hnone, hlive⟩, fun _ _ => rfl⟩

/-- What `Reconcile` leaves of an environment with a row. -/
structure CleanEnv (named : Prop) (t : Pool T) (env : EnvRow) : Prop where
  restore : named → t.node (.restore env.id) = none
  adopt : t.node (.adopt env.id) = none
  marker : t.node (.marker env.id) = none
  synced : Synced t env.id
  live : env.workspace = .live env.id → t.node env.workspace ≠ none

theorem wp_clearChange (hs : Sane named s) (henv : s.env? id ≠ none) :
    Completes (clearChange id) (fun t => Sane named t ∧ Recovered (· = id) s t)
      (fun _ t => (named → t.node (.restore id) = none) ∧ t.node (.adopt id) = none) s := by
  have hto : ∀ t, Sane named t ∧ Shed [.restore id, .adopt id] s t →
      Sane named t ∧ Recovered (· = id) s t := by
    rintro t ⟨ht, hshed⟩
    refine ⟨ht, Recovered.leftover henv (hshed.frame.mono ?_) hshed.less⟩
    rintro (p | _ | _) hq
    · rcases mem_pair.mp hq with rfl | rfl <;> simp [AtPaths]
    · exact hq
    · exact hq
  unfold clearChange
  refine wp_step (wp_deleteSubvolumes hs (by simp)) (fun _ => hto) (fun _ _ h => h) ?_
  rintro _ t ⟨ht, hgone⟩
  obtain ⟨hsane, hrec⟩ := hto t ht
  have hrestore : named → t.node (.restore id) = none := by
    intro hnamed
    cases hn : t.node (.restore id) with
    | none => rfl
    | some n =>
      have hsub := hsane.holds _ n hn hnamed
      cases n with
      | subvol tree b => exact absurd hn (hgone _ (by simp) tree b)
      | _ => cases hsub
  refine wp_op (fun u hu => ?_) fun e he => by cases he
  have hsane' : Sane named u := hsane.run (o := .removeAll (.adopt id)) ⟨id, rfl⟩ hu
  have hf := Op.run_frame hu
  cases hu
  have hrec' : Recovered (· = id) t (t.drop (.adopt id)) := by
    refine Recovered.leftover (by rw [hrec.env?]; exact henv) (hf.mono ?_) fun p => ?_
    · rintro _ rfl
      simp [AtPaths]
    · by_cases hp : p = .adopt id <;> simp [hp]
  have hstep := Recovered.step hs.toApart hrec hrec'
  exact ⟨⟨hsane', hstep⟩, ⟨hsane', hstep⟩, fun h => by simp [hrestore h], by simp⟩

theorem wp_reconcileEnv (hs : Sane named s) (henv : s.env? env.id = some env) :
    Completes (reconcileEnv env) (fun t => Sane named t ∧ Recovered (· = env.id) s t)
      (fun _ t => CleanEnv named t env) s := by
  have hsome : ∀ {t : Pool T}, Recovered (· = env.id) s t → t.env? env.id = some env :=
    fun h => (h.env? _).trans henv
  have hne : ∀ {t : Pool T}, Recovered (· = env.id) s t → t.env? env.id ≠ none :=
    fun h => by rw [hsome h]; simp
  have hstep : ∀ {t : Pool T}, Recovered (· = env.id) s t → ∀ u,
      Sane named u ∧ Recovered (· = env.id) t u → Sane named u ∧ Recovered (· = env.id) s u :=
    fun ht u hu => ⟨hu.1, Recovered.step hs.toApart ht hu.2⟩
  unfold reconcileEnv
  refine wp_seq (wp_clearChange hs (by rw [henv]; simp)) ?_
  rintro _ t₁ ⟨h₁, hrestore, hadopt⟩
  refine wp_step (wp_dropMarker h₁.1 (hne h₁.2)) (fun _ => hstep h₁.2) (fun _ _ h => h) ?_
  rintro _ t₂ ⟨h₂, hmarker, hnode₂⟩
  have hr₂ := hstep h₁.2 t₂ h₂
  refine wp_step (wp_reconcileSnapshots h₂.1 (hne hr₂.2)) (fun _ => hstep hr₂.2) (fun _ _ h => h) ?_
  rintro _ t₃ ⟨h₃, hsync, hnode₃⟩
  have hr₃ := hstep hr₂.2 t₃ h₃
  refine wp_step (wp_putBackLive h₃.1 (hsome hr₃.2)) (fun _ => hstep hr₃.2) (fun _ _ h => h) ?_
  rintro _ t₄ ⟨h₄, hindex, hlive, hnode₄⟩
  have hr₄ := hstep hr₃.2 t₄ h₄
  have hprune : ∀ {u : Pool T}, Sound named (Prunes t₄ env.id "") t₄ u ∧ Dropping t₄ u env.id ∧
      u.ticks = t₄.ticks + 1 → Sane named u ∧ Recovered (· = env.id) s u := fun h =>
    hstep hr₄.2 _ ⟨h.1.2, Recovered.prune (hne hr₄.2) h.1.1 h.2.1 h.2.2⟩
  refine wp_mono (wp_prunePreRestores h₄.1 (hne hr₄.2)) (fun _ u h => hprune h)
    (fun _ u h => ⟨hprune h.1, ?_⟩) fun _ _ h => h
  -- Nothing of what was cleared comes back.
  obtain ⟨⟨hu, _, _⟩, hgone⟩ := h
  have hsync₄ : Synced t₄ env.id := fun x => by
    rw [hindex, hnode₄ (.snap env.id x) (by simp)]
    exact hsync x
  refine ⟨fun hnamed => ?_, ?_, ?_, hsync₄.prune hu.1 hgone, fun hw => ?_⟩
  · rw [hu.1.node _ (by simp), hnode₄ (.restore env.id) (by simp), hnode₃,
      hnode₂ (.restore env.id) (by simp)]
    exact hrestore hnamed
  · rw [hu.1.node _ (by simp), hnode₄ (.adopt env.id) (by simp), hnode₃,
      hnode₂ (.adopt env.id) (by simp)]
    exact hadopt
  · rw [hu.1.node _ (by simp), hnode₄ (.marker env.id) (by simp), hnode₃]
    exact hmarker
  · rw [hu.1.node _ (by simp [hw])]
    exact hlive hw

/-- What `Reconcile` leaves of an environment. -/
structure Clean (named : Prop) (t : Pool T) (e : EnvID) : Prop where
  indexed : ∀ row, t.env? e = some row → CleanEnv named t row
  unindexed : t.env? e = none → ∀ p : Path, p.env? = some e → t.node p = none

theorem Recovered.clear (hnone : s.env? id = none)
    (hf : Frame (DiskOf id (s.marker? id).join) s t) (hless : Less s t) :
    Recovered (· = id) s t where
  frame := by
    refine hf.mono ?_
    rintro (p | _ | _) hq
    · exact .inl ⟨id, rfl, hnone, hq.imp_right fun h => Option.join_eq_some_iff.mp h⟩
    · exact hq
    · exact hq.elim
  node p := (hless p).imp_right Or.inl
  row e x r hr := Or.inl (by rw [← hf.snap e x fun h => h]; exact hr)
  gone e x hs ht := absurd (by rw [← hf.snap e x fun h => h]; exact ht) hs

omit [Tree T] in
theorem Clean.frame {P : Place → Prop} (h : Clean named s id) (hf : Frame P s t)
    (henv : ∀ e, ¬ P (.env e)) (hnode : ∀ p : Path, p.env? = some id → ¬ P (.node p))
    (hsnap : ∀ x, ¬ P (.snap id x)) : Clean named t id := by
  have hsame : ∀ p : Path, p.env? = some id → t.node p = s.node p := fun p hp =>
    hf.node p (hnode p hp)
  refine ⟨fun row hrow => ?_, fun hnone p hp => ?_⟩
  · rw [hf.env id (henv id)] at hrow
    have hid := Index.env?_id hrow
    obtain ⟨hr, ha, hm, hsync, hl⟩ := h.indexed row hrow
    rw [hid] at hr ha hm hsync hl
    refine ⟨fun hn => ?_, ?_, ?_, fun x => ?_, fun hw => ?_⟩
    · rw [hid, hsame _ rfl]; exact hr hn
    · rw [hid, hsame _ rfl]; exact ha
    · rw [hid, hsame _ rfl]; exact hm
    · rw [hid, hsame _ rfl, hf.snap _ _ (hsnap x)]; exact hsync x
    · rw [hid] at hw
      have hl' := hl hw
      rw [hw] at hl' ⊢
      rw [hsame _ rfl]; exact hl'
  · rw [hsame p hp]
    exact h.unindexed ((hf.env id (henv id)).symm.trans hnone) p hp

/-- `reconcileDir` loses nothing, and never fails. -/
theorem wp_reconcileDir {lost : List EnvID} (hs : Sane named s)
    (hdir : s.node (.envDir id) ≠ none) :
    wp (reconcileDir lost id) (fun _ t => Sane named t ∧ Recovered (· = id) s t)
      (fun lost' t => lost' = lost ∧ (Sane named t ∧ Recovered (· = id) s t) ∧ Clean named t id)
      (fun _ _ => False) s := by
  have hid : checkEnvID id = true := by
    obtain ⟨n, hn⟩ := Option.ne_none_iff_exists'.mp hdir
    exact (hs.holds _ n hn).2
  unfold reconcileDir
  rw [hid]
  show wp (read >>= _) _ _ _ s
  rw [wp_bind, wp_read]
  split
  · rename_i env henv
    have hrow := Index.env?_id henv
    subst hrow
    refine wp_seq (wp_reconcileEnv hs henv) ?_
    rintro _ t ⟨ht, hclean⟩
    rw [wp_pure]
    refine ⟨rfl, ht, fun row h => ?_, fun h => ?_⟩
    · rw [ht.2.env?, henv] at h
      cases h
      exact hclean
    · rw [ht.2.env?, henv] at h
      cases h
  · rename_i hnone
    have hto : ∀ t, Sound named (DiskOf id (s.marker? id).join) s t ∧ Less s t →
        Sane named t ∧ Recovered (· = id) s t := fun t ht =>
      ⟨ht.1.2, Recovered.clear hnone ht.1.1 ht.2⟩
    refine wp_seq (P := fun result t => result = .ok () ∧
      (Sane named t ∧ Recovered (· = id) s t) ∧ Clean named t id) ?_ ?_
    · rw [wp_attempt]
      refine wp_mono (wp_clearLeftovers hs hnone) (fun _ => hto) (fun _ t h => ?_)
        fun _ _ h => h.elim
      refine ⟨rfl, hto t h.1, fun row hrow => ?_, fun _ => h.2⟩
      rw [(hto t h.1).2.env?, hnone] at hrow
      cases hrow
    · rintro _ t ⟨rfl, ht⟩
      rw [wp_pure]
      exact ⟨rfl, ht⟩

omit [Tree T] in
private theorem envDirs_nodup (s : Pool T) : s.envDirs.Nodup := by
  unfold Pool.envDirs
  refine (perm_insertionSort _ _).nodup_iff.mpr (List.Nodup.filterMap ?_ s.disk.nodup_keys)
  intro p q e hp hq
  cases p <;> cases q <;> simp at hp hq
  rw [hp, hq]

/-- **`Reconcile` never fails and loses nothing**, and leaves every environment clean. -/
theorem wp_Reconcile (hs : Sane named s) :
    wp Reconcile (fun _ t => Sane named t ∧ Recovered (fun _ => True) s t)
      (fun lost t => lost = [] ∧ (Sane named t ∧ Recovered (fun _ => True) s t) ∧
        ∀ e, Clean named t e)
      (fun _ _ => False) s := by
  unfold Reconcile
  rw [wp_bind, wp_read]
  refine wp_mono (wp_eachWith_done (I := fun done lost t => lost = [] ∧
    (Sane named t ∧ Recovered (· ∈ done) s t) ∧ ∀ e ∈ done, Clean named t e) s.envDirs
      ⟨rfl, ⟨hs, Recovered.refl _ s⟩, (by simp)⟩ ?_) (fun _ _ h => h) ?_ fun _ _ h => h
  · rintro done a rest hl lost t ⟨rfl, ⟨ht, hrec⟩, hclean⟩
    have hnd := envDirs_nodup s
    rw [hl] at hnd
    have hfresh : a ∉ done := fun ha =>
      (nodup_append.mp hnd).2.2 a ha a (mem_cons_self ..) rfl
    have hdir : t.node (.envDir a) ≠ none := by
      rw [hrec.frame.node _ fun hc => hfresh (hc.dir hs.toApart rfl)]
      exact Pool.mem_envDirs.mp (by rw [hl]; simp)
    have hto : ∀ u, Sane named u ∧ Recovered (· = a) t u →
        Sane named u ∧ Recovered (· ∈ done ++ [a]) s u := fun u hu =>
      ⟨hu.1, (Recovered.trans hs.toApart hrec hu.2).mono fun e he => by simpa using he⟩
    refine wp_mono (wp_reconcileDir ht hdir) (fun _ u hu => ?_) (fun lost' u hu => ?_)
      fun _ _ h => h
    · exact ⟨hu.1, (hto u hu).2.mono fun _ _ => trivial⟩
    · obtain ⟨rfl, hu, hdone⟩ := hu
      refine ⟨rfl, hto u hu, fun e he => ?_⟩
      by_cases hea : e = a
      · rw [hea]; exact hdone
      · refine (hclean e (by simpa [hea] using he)).frame hu.2.frame (fun _ h => h)
          (fun p hp hc => hea (Recovery.dir (D := (· = a)) ht.toApart hp hc)) fun x hc => hea hc.1
  · rintro lost t ⟨rfl, ⟨ht, hrec⟩, hclean⟩
    refine ⟨rfl, ⟨ht, hrec.mono fun _ _ => trivial⟩, fun e => ?_⟩
    by_cases he : e ∈ s.envDirs
    · exact hclean e he
    · -- An environment without a directory has neither a row nor anything else.
      have hnone : t.node (.envDir e) = none := by
        rw [hrec.frame.node _ fun hc => he (hc.dir hs.toApart rfl)]
        by_contra hc
        exact he (Pool.mem_envDirs.mpr hc)
      refine ⟨fun row hrow => ?_, fun _ p hp => ?_⟩
      · exact absurd hnone (ht.indexed e (by rw [hrow]; simp)).1
      · by_contra hc
        exact ht.inside p e hp hc hnone

theorem reconcile_spec (hs : Sane named s) : (Reconcile s).result = .ok [] ∧
    (Sane named (Reconcile s).final ∧ Recovered (fun _ => True) s (Reconcile s).final) ∧
      ∀ e, Clean named (Reconcile s).final e := by
  have hend := (wp_Reconcile hs).2
  cases hr : (Reconcile s).result with
  | error e => rw [hr] at hend; exact hend.elim
  | ok lost =>
    rw [hr] at hend
    obtain ⟨rfl, hend⟩ := hend
    exact ⟨rfl, hend⟩

end Calls

/-! ### What recovery performs

Some facts about recovery need no more than the kinds of operations it performs: what all of these
keep, it keeps, wherever it is stopped.  Only a `live` that is put back is another matter. -/

/-- An operation of `removeDisk`. -/
def Op.Removes (own : Path → Prop) (e : EnvID) : Op T → Prop
  | .deleteSubvolume p => own p
  | .deleteNested p => own p
  | .removeAll p => p = .envDir e
  | _ => False

/-- Another operation of recovery in environment `e`, deletions of its subvolumes aside. -/
def Op.Clears (e : EnvID) : Op T → Prop
  | .removeAll p => p = .adopt e
  | .remove p => p = .marker e
  | .deleteSnapshot e' _ => e' = e
  | .recoverSnapshots e' _ _ _ => e' = e
  | .clock => True
  | _ => False

/-- `I` is kept where environment `e` is removed from the disk, from the paths `own`. -/
structure Removing (I : Pool T → Prop) (own : Path → Prop) (e : EnvID) : Prop where
  inside : ∀ p : Path, p.env? = some e → own p
  marked : ∀ t w, I t → t.marker? e = some (some w) → own w
  removes : ∀ o t u, Op.Removes own e o → I t → o.run t = .ok u → I u

/-- And where it is recovered. -/
structure Clearing (I : Pool T → Prop) (own : Path → Prop) (e : EnvID) : Prop
    extends Removing I own e where
  clears : ∀ o t u, Op.Clears e o → I t → o.run t = .ok u → I u

section Performed

variable {I : Pool T → Prop} {own : Path → Prop} {e : EnvID}

theorem keeps_deleteSubvolumes {paths : List Path} (hs : I s)
    (hI : ∀ p ∈ paths, ∀ t u, I t →
      ((Op.deleteSubvolume p).run t = .ok u ∨ (Op.deleteNested p).run t = .ok u) → I u) :
    Keeps I (deleteSubvolumes paths) s := by
  unfold deleteSubvolumes
  refine wp_seq (P := fun nested t => I t ∧ ∀ p ∈ nested, p ∈ paths) ?_ ?_
  · refine wp_eachWith paths ⟨hs, by simp⟩ ?_
    rintro p hp nested t ⟨ht, hnested⟩
    unfold deleteOne
    rw [wp_bind, wp_read]
    split
    · rw [wp_pure]
      refine ⟨ht, fun q hq => ?_⟩
      rcases mem_append.mp hq with hq | hq
      · exact hnested q hq
      · rw [mem_singleton.mp hq]
        exact hp
    · refine wp_seq (P := fun _ u => I u) (wp_op (fun u hu => ?_) fun e _ => ht) fun _ u hu => ?_
      · exact ⟨hI p hp t u ht (.inl hu), hI p hp t u ht (.inl hu)⟩
      · rw [wp_pure]
        exact ⟨hu, hnested⟩
    · rw [wp_pure]
      exact ⟨ht, hnested⟩
  · rintro nested t ⟨ht, hnested⟩
    exact keeps_each nested ht fun p hp t ht =>
      keeps_perform ht fun u hu => hI p (hnested p hp) t u ht (.inr hu)

theorem Removing.deleteSubvolumes (h : Removing I own e) (hs : I s) {paths : List Path}
    (hpaths : ∀ p ∈ paths, own p) : Keeps I (deleteSubvolumes paths) s :=
  keeps_deleteSubvolumes hs fun p hp t u ht hu =>
    hu.elim (h.removes _ t u (hpaths p hp) ht) (h.removes _ t u (hpaths p hp) ht)

theorem Removing.removeDisk (h : Removing I own e) (hs : I s) {workspace : Option Path}
    (hws : ∀ w, workspace = some w → own w) : Keeps I (removeDisk e workspace) s := by
  unfold Fern.removeDisk
  rw [keeps_read_bind]
  refine keeps_bind (h.deleteSubvolumes hs fun p hp => ?_) fun _ t ht =>
    keeps_perform ht fun u hu => h.removes (.removeAll (.envDir e)) t u rfl ht hu
  rcases mem_append.mp hp with hp | hp
  · rcases mem_append.mp hp with hp | hp
    · simp only [mem_cons, not_mem_nil, or_false] at hp
      rcases hp with rfl | rfl | rfl <;> exact h.inside _ rfl
    · exact hws p (by simpa using (mem_filter.mp hp).1)
  · obtain ⟨x, _, rfl⟩ := mem_map.mp hp
    exact h.inside _ rfl

theorem Removing.clearLeftovers (h : Removing I own e) (hs : I s) :
    Keeps I (clearLeftovers e) s := by
  unfold Fern.clearLeftovers
  rw [keeps_read_bind]
  split
  · rw [keeps_pure]
    exact hs
  · split
    · rename_i workspace hmark
      exact h.removeDisk hs fun w hw => h.marked s w hs (by rw [hmark, hw])
    · split
      · rw [keeps_fail]
        exact hs
      · exact h.removeDisk hs (by simp)

theorem Clearing.op (h : Clearing I own e) (hs : I s) {o : Op T} (ho : Op.Clears e o) :
    Keeps I (op o) s :=
  keeps_perform hs fun t ht => h.clears o s t ho hs ht

theorem Clearing.clearChange (h : Clearing I own e) (hs : I s) : Keeps I (clearChange e) s := by
  unfold Fern.clearChange
  refine keeps_bind (h.deleteSubvolumes hs fun p hp => h.inside p ?_) fun _ t ht => h.op ht rfl
  rcases mem_pair.mp hp with rfl | rfl <;> rfl

theorem Clearing.dropMarker (h : Clearing I own e) (hs : I s) : Keeps I (dropMarker e) s := by
  unfold Fern.dropMarker
  rw [keeps_read_bind]
  split
  · exact h.op hs rfl
  · rw [keeps_pure]
    exact hs

theorem Clearing.timeNow (h : Clearing I own e) (hs : I s) : Keeps I timeNow s := by
  unfold StoreM.timeNow
  rw [keeps_read_bind]
  refine keeps_bind (h.op hs trivial) fun _ t ht => ?_
  rw [keeps_pure]
  exact ht

theorem Clearing.reconcileSnapshots (h : Clearing I own e) (hs : I s) :
    Keeps I (reconcileSnapshots e) s := by
  unfold Fern.reconcileSnapshots
  rw [keeps_read_bind]
  split
  · rw [keeps_fail]
    exact hs
  · dsimp only
    split
    · rw [keeps_pure]
      exact hs
    · exact keeps_bind (h.timeNow hs) fun _ t ht => h.op ht rfl

theorem Clearing.prunePreRestores (h : Clearing I own e) (hs : I s) (keep : SnapID) :
    Keeps I (prunePreRestores e keep) s := by
  unfold Fern.prunePreRestores
  refine keeps_bind (h.timeNow hs) fun _ t ht => ?_
  rw [keeps_read_bind]
  refine keeps_each _ ht fun x _ u hu => ?_
  unfold DeleteSnapshot
  split
  · refine keeps_bind (wp_mono (wp_get (C := fun _ => I) e u) (fun _ _ h => h)
      (fun _ v hv => hv.1 ▸ hu) fun _ v hv => hv.1 ▸ hu) fun _ v hv => ?_
    refine keeps_bind (h.deleteSubvolumes hv fun p hp => h.inside p ?_) fun _ w hw => h.op hw rfl
    rw [mem_singleton.mp hp]
    rfl
  · rw [keeps_fail]
    exact hu

/-- With a `live` put back, in which `C` and not `I` may hold for a moment. -/
theorem Clearing.reconcileEnv {C : Pool T → Prop} {env : EnvRow} (h : Clearing I own env.id)
    (hs : I s) (hC : ∀ t, I t → C t)
    (hlive : ∀ t, I t → wp (putBackLive env) (fun _ => C) (fun _ => I) (fun _ => C) t) :
    wp (reconcileEnv env) (fun _ => C) (fun _ => I) (fun _ => C) s := by
  have hkeeps : ∀ {c : StoreM T Unit} {t}, Keeps I c t →
      wp c (fun _ => C) (fun _ => I) (fun _ => C) t := fun hc =>
    wp_mono hc (fun _ => hC) (fun _ _ ht => ht) fun _ => hC
  unfold Fern.reconcileEnv
  refine wp_seq (hkeeps (h.clearChange hs)) fun _ t ht => ?_
  refine wp_seq (hkeeps (h.dropMarker ht)) fun _ t ht => ?_
  refine wp_seq (hkeeps (h.reconcileSnapshots ht)) fun _ t ht => ?_
  exact wp_seq (hlive t ht) fun _ t ht => hkeeps (h.prunePreRestores ht "")

end Performed

end Fern

/-
What holds of a pool at every moment, whatever was stopped.

`Sane` says of each path what can be at it, that an environment's files are in its directory,
that one with a row has its folders, and that one without a row is marked or holds no data.
These are what recovery relies on: they make a directory without a row garbage and let every
step of `Reconcile` succeed.  Each operation keeps them when it is `Safe`, and that it is, at
the point where a call performs it, is all that is left to show of the calls.

A restore that finds the name of its snapshot taken keeps no copy and does not notice that its
workspace is no subvolume, so `live.new` can then become something that no one removes.  The
parameter `named` stands for restores that find their names free.
-/
import Fern.Proofs.Store.Apart

namespace Fern

open Call StoreM

variable {T : Type}

/-- What can be at a path. -/
def Path.Holds (named : Prop) : Path → Node T → Prop
  | .envDir e, n => n = .dir ∧ checkEnvID e = true
  | .snapsDir _, n => n = .dir
  | .claude _, n => ∃ tree, n = .plain tree
  | .live _, n => n.isSubvolume = true
  | .restore _, n => named → n.isSubvolume = true
  | .snap _ x, n => n.isSubvolume = true ∧ checkSnapID x = true
  | .marker _, n => ∃ ws, n = .mark ws
  | _, _ => True

/-- An environment has a row or a marker, so what is in its directory is accounted for. -/
def Claimed (s : Pool T) (e : EnvID) : Prop := s.env? e ≠ none ∨ s.node (.marker e) ≠ none

/-- An environment's directory holds no data, as `holdsData` looks for it. -/
def NoData [Tree T] (s : Pool T) (e : EnvID) : Prop :=
  s.node (.live e) = none ∧ (∀ x, s.node (.snap e x) = none) ∧
    ∀ tree, s.node (.claude e) = some (.plain tree) → Tree.isEmpty tree = true

/-- What holds at every moment. -/
structure Sane [Tree T] (named : Prop) (s : Pool T) : Prop extends Apart s where
  holds : ∀ p n, s.node p = some n → p.Holds named n
  inside : ∀ p e, Path.env? p = some e → s.node p ≠ none → s.node (.envDir e) ≠ none
  indexed : ∀ e, s.env? e ≠ none →
    s.node (.envDir e) ≠ none ∧ s.node (.snapsDir e) ≠ none ∧ s.node (.claude e) ≠ none
  unindexed : ∀ e, Claimed s e ∨ NoData s e
  snapNames : ∀ e x, s.index.snap? e x ≠ none → checkSnapID x = true

/-- An operation is safe at a state. -/
def Op.Safe [Tree T] (named : Prop) (s : Pool T) : Op T → Prop
  | .mkdir p => p.Holds named (Op.freshDir p : Node T) ∧ ∀ e, p = .claude e → Claimed s e
  | .createSubvolume p =>
    p.Holds named (.subvol Tree.empty false : Node T) ∧ ∀ e, p.env? = some e → Claimed s e
  | .snapshotSubvolume _ p =>
    (∀ t : T, p.Holds named (.subvol t false)) ∧ ∀ e, p.env? = some e → Claimed s e
  | .fill p _ => ∀ e, p.env? = some e → Claimed s e
  | .exchange p q => (∀ n, s.node p = some n → q.Holds named n) ∧
    (∀ n, s.node q = some n → p.Holds named n) ∧
    (∀ e, p.env? = some e ∨ q.env? = some e → Claimed s e) ∧
    ∀ e, p ≠ .marker e ∧ q ≠ .marker e
  | .removeAll (.envDir e) => s.env? e = none
  | .removeAll p => ∃ e, p = .adopt e
  | .remove p => ∃ e, p = .marker e ∧ s.env? e ≠ none
  | .writeMarker e p => ∃ row, s.env? e = some row ∧ row.workspace = p
  | .insertEnv row => (Path.IsWorkspace row.id row.workspace ∧
      ∀ e, e ≠ row.id → s.marker? e ≠ some (some row.workspace)) ∧
    s.node (.envDir row.id) ≠ none ∧ s.node (.snapsDir row.id) ≠ none ∧
      s.node (.claude row.id) ≠ none
  | .deleteEnv e => s.node (.marker e) ≠ none
  | .keepSnapshot row => checkSnapID row.id = true
  | .replaceSnapshot row => checkSnapID row.id = true
  | .recoverSnapshots _ missing _ _ => ∀ x ∈ missing, checkSnapID x = true
  | _ => True

variable [Tree T] {named : Prop} {s t : Pool T}

theorem Op.Safe.fits {o : Op T} (h : o.Safe named s) : o.Fits s := by
  cases o
  case insertEnv row => exact h.1
  case writeMarker e p => exact h
  case exchange p q => exact h.2.2.2
  all_goals trivial

/-! ### Changes of the disk -/

namespace Sane

variable {p : Path}

theorem parent_inside (hs : Sane named s) {e : EnvID} (hp : p.env? = some e)
    (hpar : s.hasParent p = true) : p = .envDir e ∨ s.node (.envDir e) ≠ none := by
  cases p <;> simp only [Path.env?, reduceCtorEq, Option.some.injEq] at hp
  case envDir id => exact .inl (by rw [hp])
  case snap id x =>
    refine .inr ?_
    subst hp
    simp only [Pool.hasParent, Path.parent?] at hpar
    split at hpar
    · rename_i hn
      exact hs.inside (.snapsDir id) id rfl (by rw [hn]; simp)
    · cases hpar
  all_goals
    refine .inr ?_
    subst hp
    simp only [Pool.hasParent, Path.parent?] at hpar
    split at hpar
    · rename_i hn
      rw [hn]; simp
    · cases hpar

/-- Whose a workspace is doesn't matter. -/
theorem own (hs : Sane named s) (p : Path) (o : Owner) : Sane named (s.own p o) :=
  ⟨⟨hs.workspace, hs.marked, hs.taken⟩, hs.holds, hs.inside, hs.indexed, hs.unindexed,
    hs.snapNames⟩

theorem put (hs : Sane named s) {n : Node T} (hapart : Apart (s.put p n)) (hn : p.Holds named n)
    (hin : ∀ e, p.env? = some e → p = .envDir e ∨ s.node (.envDir e) ≠ none)
    (hdata : ∀ e, p = .live e ∨ (∃ x, p = .snap e x) ∨ p = .claude e → Claimed s e) :
    Sane named (s.put p n) := by
  have hmono : ∀ q, s.node q ≠ none → (s.put p n).node q ≠ none := by
    intro q hq
    by_cases h : q = p <;> simp [h, hq]
  have hclaim : ∀ e, Claimed s e → Claimed (s.put p n) e := fun e h => h.imp id (hmono _)
  refine ⟨hapart, ?_, ?_, ?_, ?_, hs.snapNames⟩
  · intro q m hq
    by_cases h : q = p
    · rw [Pool.node_put, if_pos h] at hq
      cases hq
      rw [h]
      exact hn
    · rw [Pool.node_put, if_neg h] at hq
      exact hs.holds q m hq
  · intro q e hqe hq
    by_cases h : q = p
    · subst h
      rcases hin e hqe with rfl | h'
      · exact hq
      · exact hmono _ h'
    · rw [Pool.node_put, if_neg h] at hq
      exact hmono _ (hs.inside q e hqe hq)
  · intro e he
    obtain ⟨h1, h2, h3⟩ := hs.indexed e he
    exact ⟨hmono _ h1, hmono _ h2, hmono _ h3⟩
  · intro e
    by_cases hplace : p = .live e ∨ (∃ x, p = .snap e x) ∨ p = .claude e
    · exact .inl (hclaim e (hdata e hplace))
    · rcases hs.unindexed e with h | ⟨hlive, hsnap, hclaude⟩
      · exact .inl (hclaim e h)
      · rw [not_or, not_or, not_exists] at hplace
        refine .inr ⟨?_, fun x => ?_, fun tree htree => ?_⟩
        · rw [Pool.node_put, if_neg fun h => hplace.1 h.symm]
          exact hlive
        · rw [Pool.node_put, if_neg fun h => hplace.2.1 x h.symm]
          exact hsnap x
        · rw [Pool.node_put, if_neg fun h => hplace.2.2 h.symm] at htree
          exact hclaude tree htree

/-- Something taken away that is none of an environment's folders, nor the marker of one
without a row. -/
theorem drop (hs : Sane named s) (hapart : Apart (s.drop p))
    (hdir : ∀ e, p ≠ .envDir e ∧ p ≠ .snapsDir e ∧ p ≠ .claude e)
    (hmark : ∀ e, p = .marker e → s.env? e ≠ none) : Sane named (s.drop p) := by
  have hsub : ∀ q m, (s.drop p).node q = some m → s.node q = some m := by
    intro q m hq
    by_cases h : q = p
    · rw [Pool.node_drop, if_pos h] at hq; cases hq
    · rw [Pool.node_drop, if_neg h] at hq; exact hq
  have hkeep : ∀ q, q ≠ p → (s.drop p).node q = s.node q := fun q h => by
    rw [Pool.node_drop, if_neg h]
  refine ⟨hapart, fun q m hq => hs.holds q m (hsub q m hq), ?_, ?_, ?_, hs.snapNames⟩
  · intro q e hqe hq
    obtain ⟨m, hm⟩ := Option.ne_none_iff_exists'.mp hq
    rw [hkeep _ fun h => (hdir e).1 h.symm]
    exact hs.inside q e hqe (by rw [hsub q m hm]; simp)
  · intro e he
    rw [hkeep _ fun h => (hdir e).1 h.symm, hkeep _ fun h => (hdir e).2.1 h.symm,
      hkeep _ fun h => (hdir e).2.2 h.symm]
    exact hs.indexed e he
  · intro e
    have hnone : ∀ q, s.node q = none → (s.drop p).node q = none := by
      intro q hq
      by_cases h : q = p <;> simp [h, hq]
    rcases hs.unindexed e with (h | h) | ⟨hlive, hsnap, hclaude⟩
    · exact .inl (.inl h)
    · by_cases hp : p = .marker e
      · exact .inl (.inl (hmark e hp))
      · exact .inl (.inr (by rw [hkeep _ fun h => hp h.symm]; exact h))
    · exact .inr ⟨hnone _ hlive, fun x => hnone _ (hsnap x),
        fun tree htree => hclaude tree (hsub _ _ htree)⟩

theorem eraseEnv (hs : Sane named s) {e : EnvID} (hnone : s.env? e = none)
    (hapart : Apart { s with disk := s.disk.eraseIf fun q => q.env? = some e }) :
    Sane named { s with disk := s.disk.eraseIf fun q => q.env? = some e } := by
  have hnode : ∀ q, Pool.node { s with disk := s.disk.eraseIf fun q => q.env? = some e } q =
      if q.env? = some e then none else s.node q := by
    intro q
    simp [Pool.node]
  have hsub : ∀ q m, Pool.node { s with disk := s.disk.eraseIf fun q => q.env? = some e } q =
      some m → q.env? ≠ some e ∧ s.node q = some m := by
    intro q m hq
    rw [hnode] at hq
    split at hq
    · cases hq
    · rename_i h
      exact ⟨h, hq⟩
  refine ⟨hapart, fun q m hq => hs.holds q m (hsub q m hq).2, ?_, ?_, ?_, hs.snapNames⟩
  · intro q e' hqe hq
    obtain ⟨m, hm⟩ := Option.ne_none_iff_exists'.mp hq
    obtain ⟨hne, hm'⟩ := hsub q m hm
    rw [hnode, if_neg (by rw [hqe] at hne; exact hne)]
    exact hs.inside q e' hqe (by rw [hm']; simp)
  · intro e' he'
    have hne : e' ≠ e := by
      rintro rfl
      exact he' hnone
    rw [hnode, hnode, hnode, if_neg (by simpa [Path.env?] using hne),
      if_neg (by simpa [Path.env?] using hne), if_neg (by simpa [Path.env?] using hne)]
    exact hs.indexed e' he'
  · intro e'
    by_cases he : e' = e
    · subst he
      refine .inr ⟨?_, fun x => ?_, fun tree htree => ?_⟩
      · rw [hnode]; simp [Path.env?]
      · rw [hnode]; simp [Path.env?]
      · exact absurd rfl (hsub _ _ htree).1
    · have hkeep : ∀ q : Path, q.env? = some e' →
          Pool.node { s with disk := s.disk.eraseIf fun q => q.env? = some e } q = s.node q := by
        intro q hq
        rw [hnode, if_neg (by rw [hq]; simpa using he)]
      rcases hs.unindexed e' with (h | h) | ⟨hlive, hsnap, hclaude⟩
      · exact .inl (.inl h)
      · exact .inl (.inr (by rw [hkeep _ rfl]; exact h))
      · refine .inr ⟨?_, fun x => ?_, fun tree htree => ?_⟩
        · rw [hkeep _ rfl]; exact hlive
        · rw [hkeep _ rfl]; exact hsnap x
        · rw [hkeep _ rfl] at htree; exact hclaude tree htree

theorem swap (hs : Sane named s) {q : Path} (hapart : Apart { s with disk := s.disk.swap p q })
    (hp : s.node p ≠ none) (hq : s.node q ≠ none) (hpq : ∀ n, s.node p = some n → q.Holds named n)
    (hqp : ∀ n, s.node q = some n → p.Holds named n)
    (hc : ∀ e, p.env? = some e ∨ q.env? = some e → Claimed s e) :
    Sane named { s with disk := s.disk.swap p q } := by
  have hnode : ∀ a, Pool.node { s with disk := s.disk.swap p q } a =
      if a = p then s.node q else if a = q then s.node p else s.node a := fun a => by
    simp [Pool.node]
  -- A swap takes nothing away and adds nothing.
  have hex : ∀ a, Pool.node { s with disk := s.disk.swap p q } a ≠ none ↔ s.node a ≠ none := by
    intro a
    rw [hnode]
    split
    · rename_i h
      simp [h, hp, hq]
    · split
      · rename_i h
        simp [h, hp, hq]
      · rfl
  refine ⟨hapart, ?_, ?_, ?_, ?_, hs.snapNames⟩
  · intro a n ha
    rw [hnode] at ha
    split at ha
    · rename_i h
      rw [h]; exact hqp n ha
    · split at ha
      · rename_i h
        rw [h]; exact hpq n ha
      · exact hs.holds a n ha
  · intro a e hae ha
    exact (hex _).mpr (hs.inside a e hae ((hex a).mp ha))
  · intro e he
    rw [hex, hex, hex]
    exact hs.indexed e he
  · intro e
    by_cases hown : p.env? = some e ∨ q.env? = some e
    · exact .inl ((hc e hown).imp id (hex _).mpr)
    · rw [not_or] at hown
      have hkeep : ∀ a : Path, a.env? = some e →
          Pool.node { s with disk := s.disk.swap p q } a = s.node a := by
        intro a ha
        rw [hnode, if_neg (by rintro rfl; exact hown.1 ha), if_neg (by rintro rfl; exact hown.2 ha)]
      rcases hs.unindexed e with h | ⟨hlive, hsnap, hclaude⟩
      · exact .inl (h.imp id (hex _).mpr)
      · refine .inr ⟨?_, fun x => ?_, fun tree htree => ?_⟩
        · rw [hkeep _ rfl]; exact hlive
        · rw [hkeep _ rfl]; exact hsnap x
        · rw [hkeep _ rfl] at htree; exact hclaude tree htree

theorem reindex (hs : Sane named s) {x : Index} (hapart : Apart { s with index := x })
    (hdirs : ∀ e, x.env? e ≠ none → s.env? e = none →
      s.node (.envDir e) ≠ none ∧ s.node (.snapsDir e) ≠ none ∧ s.node (.claude e) ≠ none)
    (hgone : ∀ e, x.env? e = none → s.env? e ≠ none → s.node (.marker e) ≠ none)
    (hsnap : ∀ e i, x.snap? e i ≠ none → s.index.snap? e i = none → checkSnapID i = true) :
    Sane named { s with index := x } := by
  refine ⟨hapart, hs.holds, hs.inside, ?_, ?_, ?_⟩
  · intro e he
    by_cases h : s.env? e = none
    · exact hdirs e he h
    · exact hs.indexed e h
  · intro e
    rcases hs.unindexed e with (h | h) | h
    · by_cases hx : x.env? e = none
      · exact .inl (.inr (hgone e hx h))
      · exact .inl (.inl hx)
    · exact .inl (.inr h)
    · exact .inr h
  · intro e i hi
    by_cases h : s.index.snap? e i = none
    · exact hsnap e i hi h
    · exact hs.snapNames e i h

theorem drop_subvol (hs : Sane named s) {tree : T} {nested : Bool}
    (hp : s.node p = some (.subvol tree nested)) (hapart : Apart (s.drop p)) :
    Sane named (s.drop p) := by
  have hholds := hs.holds p _ hp
  refine hs.drop hapart (fun e => ⟨?_, ?_, ?_⟩) fun e he => ?_
  · rintro rfl
    simp [Path.Holds] at hholds
  · rintro rfl
    simp [Path.Holds] at hholds
  · rintro rfl
    simp [Path.Holds] at hholds
  · subst he
    simp [Path.Holds] at hholds

theorem put_over (hs : Sane named s) {n m : Node T} (hp : s.node p = some m)
    (hapart : Apart (s.put p n)) (hn : p.Holds named m → p.Holds named n)
    (hc : ∀ e, p.env? = some e → Claimed s e) : Sane named (s.put p n) := by
  refine hs.put hapart (hn (hs.holds p m hp)) (fun e he => Or.inr ?_) fun e he => hc e ?_
  · exact hs.inside p e he (by rw [hp]; simp)
  · rcases he with rfl | ⟨x, rfl⟩ | rfl <;> rfl

/-! ### One operation at a time

An operation changes one path of the disk, two that it exchanges, or the index; which of the changes
above it is, and that it may be made, is what its safety says. -/

/-- A safe operation that leaves the environments apart leaves the pool sane. -/
private def KeptBy (named : Prop) (s : Pool T) (o : Op T) : Prop :=
  o.Safe named s → ∀ t, o.run s = .ok t → Apart t → Sane named t

private theorem mkdir (hs : Sane named s) (p : Path) : KeptBy named s (.mkdir p) := by
  intro hsafe t h hapart
  simp only [Op.run] at h
  split at h
  · split at h
    · cases h; exact hs
    · cases h
  · split at h
    · rename_i hpar
      cases h
      refine hs.put hapart hsafe.1 (fun e he => hs.parent_inside he hpar) fun e he => ?_
      rcases he with rfl | ⟨x, rfl⟩ | rfl
      · exact absurd hsafe.1 (by simp [Path.Holds, Op.freshDir, Node.isSubvolume])
      · exact absurd hsafe.1 (by simp [Path.Holds, Op.freshDir, Node.isSubvolume])
      · exact hsafe.2 e rfl
    · cases h

private theorem createSubvolume (hs : Sane named s) (p : Path) :
    KeptBy named s (.createSubvolume p) := by
  intro hsafe t h hapart
  obtain ⟨-, hpar, rfl⟩ := Op.run_createSubvolume h
  refine (hs.own p .root).put hapart hsafe.1 (fun e he => hs.parent_inside he hpar)
    fun e he => hsafe.2 e ?_
  rcases he with rfl | ⟨x, rfl⟩ | rfl <;> rfl

private theorem snapshotSubvolume (hs : Sane named s) (source p : Path) :
    KeptBy named s (.snapshotSubvolume source p) := by
  intro hsafe t h hapart
  obtain ⟨tree, nested, -, -, hpar, rfl⟩ := Op.run_snapshotSubvolume h
  refine (hs.own p (s.owner source)).put hapart (hsafe.1 _) (fun e he => hs.parent_inside he hpar)
    fun e he => hsafe.2 e ?_
  rcases he with rfl | ⟨x, rfl⟩ | rfl <;> rfl

private theorem deleteSubvolume (hs : Sane named s) (p : Path) :
    KeptBy named s (.deleteSubvolume p) := by
  intro _ t h hapart
  simp only [Op.run] at h
  split at h
  · split at h
    · cases h
    · rename_i hp _
      cases h
      exact hs.drop_subvol hp hapart
  · cases h
  · cases h

private theorem deleteNested (hs : Sane named s) (p : Path) :
    KeptBy named s (.deleteNested p) := by
  intro _ t h hapart
  simp only [Op.run] at h
  split at h
  · rename_i hp
    cases h
    exact hs.drop_subvol hp hapart
  · cases h
  · cases h

private theorem fill (hs : Sane named s) (p : Path) (tree : T) : KeptBy named s (.fill p tree) := by
  intro hsafe t h hapart
  simp only [Op.run] at h
  split at h
  · rename_i hp
    cases h
    exact hs.put_over hp hapart (by cases p <;> simp [Path.Holds, Node.isSubvolume]) hsafe
  · rename_i hp
    cases h
    exact hs.put_over hp hapart (by cases p <;> simp [Path.Holds, Node.isSubvolume]) hsafe
  · cases h
  · cases h

private theorem exchange (hs : Sane named s) (p q : Path) : KeptBy named s (.exchange p q) := by
  intro hsafe t h hapart
  obtain ⟨hp, hq, rfl, -⟩ := Op.run_exchange h
  exact ((hs.own p (s.owner q)).own q (s.owner p)).swap hapart hp hq hsafe.1 hsafe.2.1 hsafe.2.2.1

private theorem removeAll (hs : Sane named s) (p : Path) : KeptBy named s (.removeAll p) := by
  intro hsafe t h hapart
  cases p
  case envDir e =>
    cases h
    exact hs.eraseEnv hsafe hapart
  all_goals
    obtain ⟨e, he⟩ := hsafe
    cases he
  cases h
  exact hs.drop hapart (fun e => ⟨(by simp), (by simp), (by simp)⟩) (by simp)

private theorem remove (hs : Sane named s) (p : Path) : KeptBy named s (.remove p) := by
  rintro ⟨e, rfl, he⟩ t h hapart
  simp only [Op.run] at h
  split at h
  · cases h
    refine hs.drop hapart (fun e => ⟨(by simp), (by simp), (by simp)⟩) fun e' he' => ?_
    cases he'
    exact he
  · cases h

private theorem file (hs : Sane named s) (p : Path) (n : Node T) (hn : p.Holds named n)
    (hne : ∀ e, p ≠ .live e ∧ (∀ x, p ≠ .snap e x) ∧ p ≠ .claude e)
    (h : (if s.hasParent p then .ok (s.put p n) else .error .noEntry : Except Err (Pool T)) = .ok t)
    (hapart : Apart t) : Sane named t := by
  split at h
  · rename_i hpar
    cases h
    refine hs.put hapart hn (fun e he => hs.parent_inside he hpar) fun e he => ?_
    obtain ⟨hlive, hsnap, hclaude⟩ := hne e
    rcases he with he | ⟨x, he⟩ | he
    exacts [absurd he hlive, absurd he (hsnap x), absurd he hclaude]
  · cases h

private theorem insertEnv (hs : Sane named s) (row : EnvRow) : KeptBy named s (.insertEnv row) := by
  intro hsafe t h hapart
  obtain ⟨x, hx, rfl⟩ := Op.run_insertEnv h
  refine hs.reindex hapart (fun e hxe he => ?_) (fun e hxe he => ?_) fun e i hi hi' => ?_
  · rw [Index.env?_insertEnv hx] at hxe
    split at hxe
    · rename_i heq
      rw [heq]
      exact hsafe.2
    · exact absurd he hxe
  · rw [Index.env?_insertEnv hx] at hxe
    split at hxe
    · cases hxe
    · exact absurd hxe he
  · rw [Index.snap?_insertEnv hx] at hi
    exact absurd hi' hi

private theorem setEnvGit (hs : Sane named s) (e : EnvID) (git : String) :
    KeptBy named s (.setEnvGit e git) := by
  intro _ t h hapart
  cases h
  refine hs.reindex hapart (fun e' hxe he => ?_) (fun e' hxe he => ?_) fun e i hi hi' => ?_
  · rw [Index.env?_setEnvGit] at hxe
    rw [Pool.env?] at he
    simp [he] at hxe
  · rw [Index.env?_setEnvGit] at hxe
    split at hxe
    · rw [Option.map_eq_none_iff] at hxe
      exact absurd hxe he
    · exact absurd hxe he
  · exact absurd hi' hi

private theorem deleteEnv (hs : Sane named s) (e : EnvID) : KeptBy named s (.deleteEnv e) := by
  intro hsafe t h hapart
  cases h
  refine hs.reindex hapart (fun e' hxe he => ?_) (fun e' hxe he => ?_) fun e' i hi hi' => ?_
  · rw [Index.env?_deleteEnv] at hxe
    split at hxe
    · exact absurd rfl hxe
    · exact absurd he hxe
  · rw [Index.env?_deleteEnv] at hxe
    split at hxe
    · rename_i heq
      rw [heq]
      exact hsafe
    · exact absurd hxe he
  · rw [Index.snap?_deleteEnv] at hi
    split at hi
    · exact absurd rfl hi
    · exact absurd hi' hi

private theorem resnap (hs : Sane named s) {x : Index} (hapart : Apart { s with index := x })
    (henv : ∀ e, x.env? e = s.index.env? e)
    (hsnap : ∀ e i, x.snap? e i ≠ none → s.index.snap? e i = none → checkSnapID i = true) :
    Sane named { s with index := x } :=
  hs.reindex hapart (fun e hxe he => absurd ((henv e).trans he) hxe)
    (fun e hxe he => absurd ((henv e).symm.trans hxe) he) hsnap

private theorem keepSnapshot (hs : Sane named s) (row : SnapRow) :
    KeptBy named s (.keepSnapshot row) := by
  intro hsafe t h hapart
  obtain ⟨x, hx, rfl⟩ := Op.run_keepSnapshot h
  refine hs.resnap hapart (Index.env?_keepSnapshot hx) fun e i hi hi' => ?_
  rw [Index.snap?_keepSnapshot hx] at hi
  split at hi
  · rename_i heq
    rw [heq.2]
    exact hsafe
  · exact absurd hi' hi

private theorem replaceSnapshot (hs : Sane named s) (row : SnapRow) :
    KeptBy named s (.replaceSnapshot row) := by
  intro hsafe t h hapart
  obtain ⟨x, hx, rfl⟩ := Op.run_replaceSnapshot h
  refine hs.resnap hapart (Index.env?_replaceSnapshot hx) fun e i hi hi' => ?_
  rw [Index.snap?_replaceSnapshot hx] at hi
  split at hi
  · rename_i heq
    rw [heq.2]
    exact hsafe
  · exact absurd hi' hi

private theorem deleteSnapshot (hs : Sane named s) (e : EnvID) (x : SnapID) :
    KeptBy named s (.deleteSnapshot e x) := by
  intro _ t h hapart
  cases h
  refine hs.resnap hapart (fun _ => rfl) fun e i hi hi' => ?_
  rw [Index.snap?_deleteSnapshot] at hi
  split at hi
  · exact absurd rfl hi
  · exact absurd hi' hi

private theorem recoverSnapshots (hs : Sane named s) (e : EnvID) (missing stale : List SnapID)
    (created : Int) : KeptBy named s (.recoverSnapshots e missing stale created) := by
  intro hsafe t h hapart
  obtain ⟨x, hx, rfl⟩ := Op.run_recoverSnapshots h
  obtain ⟨henv, hsnap⟩ := Index.recoverSnapshots_spec hx
  refine hs.resnap hapart henv fun e i hi hi' => ?_
  rw [hsnap] at hi
  split at hi
  · exact absurd rfl hi
  · split at hi
    · rename_i hmiss
      exact hsafe i hmiss.2
    · exact absurd hi' hi

/-- **Safe operations keep a pool sane.** -/
theorem run {o : Op T} (hs : Sane named s) (hsafe : o.Safe named s) (h : o.run s = .ok t) :
    Sane named t := by
  have hapart : Apart t := hs.toApart.run hsafe.fits h
  refine (?_ : KeptBy named s o) hsafe t h hapart
  cases o with
  | mkdir p => exact hs.mkdir p
  | createSubvolume p => exact hs.createSubvolume p
  | chown p =>
    intro _ t h _
    simp only [Op.run] at h
    split at h
    · cases h
      exact hs.own p .box
    · cases h
  | snapshotSubvolume a p => exact hs.snapshotSubvolume a p
  | deleteSubvolume p => exact hs.deleteSubvolume p
  | deleteNested p => exact hs.deleteNested p
  | fill p tree => exact hs.fill p tree
  | exchange p q => exact hs.exchange p q
  | removeAll p => exact hs.removeAll p
  | remove p => exact hs.remove p
  | truncateMarker e => exact fun _ _ => hs.file (.marker e) _ ⟨none, rfl⟩ fun _ => by simp
  | writeMarker e p => exact fun _ _ => hs.file (.marker e) _ ⟨some p, rfl⟩ fun _ => by simp
  | listSource e tree => exact fun _ _ => hs.file (.sourceList e) _ trivial fun _ => by simp
  | insertEnv row => exact hs.insertEnv row
  | setEnvGit e git => exact hs.setEnvGit e git
  | deleteEnv e => exact hs.deleteEnv e
  | keepSnapshot row => exact hs.keepSnapshot row
  | replaceSnapshot row => exact hs.replaceSnapshot row
  | deleteSnapshot e x => exact hs.deleteSnapshot e x
  | recoverSnapshots e missing stale created => exact hs.recoverSnapshots e missing stale created
  | clock =>
    rintro - _ ⟨⟩ hapart
    exact ⟨hapart, hs.holds, hs.inside, hs.indexed, hs.unindexed, hs.snapNames⟩

end Sane

end Fern

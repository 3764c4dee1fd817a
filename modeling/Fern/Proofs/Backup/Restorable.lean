/-
What is in the bucket can be restored.

Made one at a time, backups leave a manifest whose objects are all there and whose chains can be
received, at any moment and wherever they are stopped.  Made at once they do so only as long as
neither sweeps away what the other has put.
-/
import Fern.Proofs.Backup.Alone
import Fern.Proofs.Store.Separation

namespace Fern

namespace Backups

variable {T : Type} {s : Backups T}

/-! ### Runs to look at -/

/-- A run makes a step with the answer `x`, or begins. -/
def go [Tree T] (s : Backups T) (p : Bool × Input) : Backups T :=
  match s.run p.1 with
  | some r => ⟨(r.step s.w p.2).1, Function.update s.run p.1 (some (r.step s.w p.2).2)⟩
  | none => { s with run := Function.update s.run p.1 (some {}) }

theorem step_go [Tree T] (s : Backups T) (p : Bool × Input) : Step s (s.go p) := by
  unfold go
  split
  case h_1 r hrun => exact .goes p.1 r hrun p.2
  case h_2 hnone => exact .begins p.1 hnone

theorem one_go [Tree T] (x : Input) (hnone : s.run true = none) : s.One (s.go (false, x)) := by
  intro i hi hsome j
  cases i with
  | true =>
    refine absurd ?_ hsome
    unfold go
    split <;> simp [hnone]
  | false => cases j <;> assumption

theorem Reach.alone_go [Tree T] (inputs : List Input) (h : Reach One s)
    (hnone : s.run true = none) :
    Reach One ((inputs.map (false, ·)).foldl go s) := by
  induction inputs generalizing s with
  | nil => exact h
  | cons x inputs ih =>
    refine ih (h.step (one_go x hnone) (step_go s (false, x))) ?_
    unfold go
    split <;> simp [hnone]

theorem start_of_pool {pool : Pool T} (h : ∀ id name, pool.node (.snap id name) = none) :
    Start (⟨{ pool }, fun _ => none⟩ : Backups T) :=
  ⟨rfl, fun id name _ => h id name, fun _ => Nat.le_refl _, fun _ => rfl⟩

/-! ### One backup at a time -/

/-- A run that has ended without an error has saved a manifest in which every environment it listed,
but the golden builders, has a chain whose last snapshot was taken no earlier than the last change
to the workspace that the run saw. -/
theorem Reach.done_covers [Tree T] (h : Reach One s) {i : Bool} {r : Run T}
    (hrun : s.run i = some r)
    (hpc : r.pc = .done) (hok : r.failed = false) :
    ∃ m, s.w.manifest? = some m ∧ ∀ env ∈ r.listed,
      if isBuilder env.id then m.envs.get env.id = none
      else ∃ g eb send st, (env.id, g) ∈ r.seen ∧ m.envs.get env.id = some eb ∧
        eb.chain.getLast? = some send ∧ s.w.bucket.get send.key = some (.send st) ∧
        st.snapshot = send.snapshot ∧ g ≤ st.taken := by
  have halone := h.alone
  have hm := halone.saved i r hrun (by simp [Run.saved, hpc, hok])
  have haccount := halone.account i r hrun
  have hpast : r.pc.past := by rw [hpc]; rfl
  refine ⟨r.m, hm, fun env hin => ?_⟩
  split
  case isTrue hbuilder =>
    by_contra hsome
    have := haccount.builders _ (haccount.kept hok hpast env.id hsome)
    simp [hbuilder] at this
  case isFalse hbuilder =>
    -- the run has come to it, and read it
    have hseen : ∃ g, (env.id, g) ∈ r.seen := by
      rcases haccount.listed hok env hin (by simpa using hbuilder) with htodo | hgen | hseen
      · rw [haccount.todo hok hpast] at htodo
        contradiction
      · simp [hpc] at hgen
      · exact hseen
    obtain ⟨g, hg⟩ := hseen
    obtain ⟨eb, heb, hle⟩ := haccount.covered hok env.id g hg (by simp [hpc, Pc.env?])
    obtain ⟨x, hx⟩ := ((halone.inv.world.stored r.m hm).chains env.id eb heb).chain
    obtain ⟨st, hlast, hget, hsnap, htaken⟩ := hx.last
    exact ⟨g, eb, _, st, hg, heb, hlast, hget, hsnap, htaken ▸ hle⟩

/-- **One backup at a time keeps a restorable bucket at every moment.**  Every object the stored
manifest names is there; every chain is a full send and at most `maxChain - 1` sends, each made
from the one before it.  After a run without an error every environment it listed, but the golden
builders, which have no chain, has one whose last snapshot was taken no earlier than the last
change to the workspace that the run saw. -/
theorem one_backup_restorable [Tree T] (h : Reach One s) :
    (∀ m, s.w.manifest? = some m →
      (∀ k, m.Names k → s.w.bucket.get k ≠ none) ∧
      ∀ id eb, m.envs.get id = some eb → eb.chain ≠ [] ∧ eb.chain.length ≤ maxChain ∧
        ∃ tip, Chain s.w.bucket id eb.chain tip) ∧
    ∀ i r, s.run i = some r → r.pc = .done → r.failed = false →
      ∃ m, s.w.manifest? = some m ∧ ∀ env ∈ r.listed,
        if isBuilder env.id then m.envs.get env.id = none
        else ∃ g eb send st, (env.id, g) ∈ r.seen ∧ m.envs.get env.id = some eb ∧
          eb.chain.getLast? = some send ∧ s.w.bucket.get send.key = some (.send st) ∧
          st.snapshot = send.snapshot ∧ g ≤ st.taken := by
  refine ⟨fun m hm => ?_, fun i r hrun hpc hok => h.done_covers hrun hpc hok⟩
  have hwhole := h.alone.inv.world.stored m hm
  refine ⟨fun k hk => (hwhole.names hk).1, fun id eb heb => ?_⟩
  have hchained := hwhole.chains id eb heb
  obtain ⟨x, hx⟩ := hchained.chain
  exact ⟨hchained.nonempty, hchained.length, _, hx⟩

/-- `next` is backed up. -/
def nextBackedUp : Backups (List String) :=
  ((List.replicate 19 {}).map (false, ·)).foldl go ⟨{ pool := madeNext }, fun _ => none⟩

theorem reach_nextBackedUp : Reach One nextBackedUp :=
  Reach.alone_go _ (.start (start_of_pool fun _ _ => rfl)) rfl

theorem nextBackedUp_run : ∃ r env, nextBackedUp.run false = some r ∧ r.pc = .done ∧
    r.failed = false ∧ env ∈ r.listed ∧ env.id = "next" :=
  ⟨_, _, rfl, rfl, rfl, .head _, rfl⟩

/-- The chain of `next` is there and ends with a send. -/
theorem one_backup_restorable_next :
    ∃ m eb send, nextBackedUp.w.manifest? = some m ∧ m.envs.get "next" = some eb ∧
      eb.chain.getLast? = some send ∧ nextBackedUp.w.bucket.get send.key ≠ none := by
  obtain ⟨r, env, hrun, hpc, hok, hin, hid⟩ := nextBackedUp_run
  obtain ⟨m, hm, henvs⟩ := (one_backup_restorable reach_nextBackedUp).2 false r hrun hpc hok
  have hnext := henvs env hin
  rw [hid, if_neg (by decide)] at hnext
  obtain ⟨g, eb, send, st, -, heb, hlast, hget, -, -⟩ := hnext
  exact ⟨m, eb, send, hm, heb, hlast, by simp [hget]⟩

/-! ### Two backups at once -/

/-- **Two backups at once keep the bucket consistent as long as their sweeps are fair**: whenever a
run reads a page of the bucket's listing, the objects on it that its own manifest doesn't name are
not named by the stored manifest and not held by the other run. -/
theorem two_backups_consistent [Tree T] (h : Reach Fair s) {m : Manifest}
    (hm : s.w.manifest? = some m) :
    (∀ k, m.Names k → s.w.bucket.get k ≠ none) ∧
      ∀ id eb, m.envs.get id = some eb → eb.chain ≠ [] ∧
        ∃ tip, Chain s.w.bucket id eb.chain tip := by
  have hwhole := h.inv.world.stored m hm
  refine ⟨fun k hk => (hwhole.names hk).1, fun id eb heb => ?_⟩
  have hchained := hwhole.chains id eb heb
  obtain ⟨x, hx⟩ := hchained.chain
  exact ⟨hchained.nonempty, _, hx⟩

/-- What a step adds to the objects its run will delete, the stored manifest doesn't name, and the
other run doesn't either and holds nothing else. -/
def fairly [Tree T] (s : Backups T) (p : Bool × Input) : Bool :=
  (s.run p.1).all fun r => ((s.go p).run p.1).all fun r' =>
    (r'.pc.sweepKeys r'.m).all fun k => k ∈ r.pc.sweepKeys r.m ||
      (s.w.manifest?.all fun m => !m.keeps k) &&
        (s.run (!p.1)).all fun q => q.pc.plain && !q.m.keeps k

theorem fair_go [Tree T] {p : Bool × Input} (h : s.fairly p = true) : s.Fair (s.go p) := by
  have hnames : ∀ {m : Manifest} {k : Key}, (!m.keeps k) = true → ¬ m.Names k := by
    intro m k hkeep hk
    rw [Manifest.keeps_iff.mpr (.inr hk)] at hkeep
    contradiction
  have hrun : (s.go p).run = Function.update s.run p.1 ((s.go p).run p.1) := by
    unfold go
    split <;> simp
  rw [show s.go p = ⟨(s.go p).w, (s.go p).run⟩ from rfl, hrun]
  refine .of_update fun r r' hr hr' k hk hnew => ?_
  simp only [fairly, hr, hr', Option.all_some, List.all_eq_true, Bool.or_eq_true,
    Bool.and_eq_true, decide_eq_true_eq] at h
  obtain ⟨hstored, hother⟩ := (h k hk).resolve_left hnew
  refine ⟨fun m hm => ?_, fun q hq hheld => ?_⟩
  · rw [hm, Option.all_some] at hstored
    exact hnames hstored
  · simp only [hq, Option.all_some, Bool.and_eq_true] at hother
    rcases hheld with hheld | hheld
    · exact hnames hother.2 hheld
    · exact Pc.not_holds_of_plain hother.1 k hheld

/-- Steps of two runs that all are fair. -/
def allFairly [Tree T] : Backups T → List (Bool × Input) → Bool
  | _, [] => true
  | s, p :: l => s.fairly p && (s.go p).allFairly l

theorem Reach.fair_go [Tree T] {l : List (Bool × Input)} (h : Reach Fair s)
    (hl : s.allFairly l = true) : Reach Fair (l.foldl go s) := by
  induction l generalizing s with
  | nil => exact h
  | cons p l ih =>
    simp only [allFairly, Bool.and_eq_true] at hl
    exact ih (h.step (Backups.fair_go hl.1) (step_go s p)) hl.2

/-- Steps of one run in which nothing fails. -/
def steps (n : Nat) (i : Bool) : List (Bool × Input) := List.replicate n (i, {})

/-- One run's send of `next` fails after its object was put.  The other run backs `next` up and
lists that object on a first page; then the one goes on, and then comes the second page.  The one
saves its manifest while the other sweeps. -/
def besideNext : List (Bool × Input) :=
  steps 9 true ++ [(true, { answer := .lost })] ++ steps 1 true ++ steps 17 false ++
    [(false, { page := some [.send "next" (backupID 1)], truncated := true })] ++ steps 2 true ++
    [(false, { page := some [.send "next" (backupID 2), .manifest, .state 3] })] ++ steps 3 true ++
    steps 1 false

/-- Two runs are under way. -/
def nextBeside : Backups (List String) := besideNext.foldl go ⟨{ pool := madeNext }, fun _ => none⟩

/-- The object that was left over is gone, and the manifest in the bucket is consistent. -/
theorem two_backups_consistent_next :
    ((nextBeside.run false).map fun r => r.pc.sweepKeys r.m) = some [] ∧
      ((nextBeside.run true).map Run.saved) = some true ∧
      nextBeside.w.bucket.get (.send "next" (backupID 1)) = none ∧
      ∃ m, nextBeside.w.manifest? = some m ∧
        ∀ k, m.Names k → nextBeside.w.bucket.get k ≠ none := by
  have hreach : Reach Fair nextBeside :=
    .fair_go (.start (start_of_pool fun _ _ => rfl)) (by decide +kernel)
  refine ⟨by decide +kernel, by decide +kernel, by decide +kernel, _, rfl, ?_⟩
  exact (two_backups_consistent hreach rfl).1

theorem steps_go [Tree T] (l : List (Bool × Input)) (s : Backups T) :
    Relation.ReflTransGen Step s (l.foldl go s) := by
  induction l generalizing s with
  | nil => exact .refl
  | cons p l ih => exact (ih (s.go p)).head (step_go s p)

/-- Two backups of an empty pool at once: one has put its state, the other one saves its manifest
and sweeps before the first one saves its own. -/
def bothAtOnce : List (Bool × Input) :=
  steps 6 true ++ steps 8 false ++ steps 1 true ++ steps 2 false ++ steps 1 true

/-- The sweep of one backup deletes the state of the other, which is then named by the stored
manifest. -/
theorem state_swept_away :
    ∃ s s' : Backups (List String), s.Start ∧ Relation.ReflTransGen Step s s' ∧
      ∃ m k, s'.w.manifest? = some m ∧ m.Names k ∧ s'.w.bucket.get k = none :=
  ⟨⟨{ pool := Pool.new }, fun _ => none⟩, bothAtOnce.foldl go ⟨{ pool := Pool.new }, fun _ => none⟩,
    start_of_pool fun _ _ => rfl, steps_go _ _, _, .state 2, rfl, .inl rfl, by decide⟩

end Backups

end Fern

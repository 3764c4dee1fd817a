/-
What backups say about places.

A manifest keeps the path of a workspace from the backup that last sent it, and an archive is a
copy of the index.  Both then name only paths that a row of the index had, so where workspaces are
put back is where the store would have them.
-/
import Fern.Proofs.Backup.Alone
import Fern.Proofs.Store.Snapshots

namespace Fern

variable {T : Type}

/-- A row as the store writes it. -/
def EnvRow.Laid (env : EnvRow) : Prop :=
  checkEnvID env.id = true ∧ Path.IsWorkspace env.id env.workspace

/-- An index as the store leaves it. -/
def Index.Laid (x : Index) : Prop := ∀ env ∈ x.envs, env.Laid

theorem Sane.laid [Tree T] {named : Prop} {s : Pool T} (h : Sane named s) : s.index.Laid := by
  intro env henv
  have hrow : s.env? env.id = some env := Index.env?_eq_some.mpr ⟨henv, rfl⟩
  exact ⟨h.checkEnvID (by simp [hrow]), h.workspace _ _ hrow⟩

/-- A manifest names workspaces where the store has them. -/
def Manifest.Placed (m : Manifest) : Prop :=
  ∀ id eb, m.envs.get id = some eb → Path.IsWorkspace id eb.workspace

/-- What an object says about places. -/
def Object.Placed : Object T → Prop
  | .manifest m => m.Placed
  | .state a => a.index.Laid
  | .send _ => True

/-- All objects in the bucket name places of the store. -/
def World.Placed (w : World T) : Prop := ∀ k o, w.bucket.get k = some o → o.Placed

/-- What a run has at hand names places of the store. -/
def Pc.Placed : Pc T → Prop
  | .generation env | .snapshots env | .leftovers env _ _ _ | .snapshot env _ | .send env _ _
  | .put env _ _ _ | .unsend env _ | .createdAt env _ _ => env.Laid
  | .dropParent env _ eb | .save env eb => Path.IsWorkspace env.id eb.workspace
  | .claudes x => x.Laid
  | .putState a => a.index.Laid
  | _ => True

/-- What a run has names places of the store, and what it has saved names a state. -/
structure Run.Placed (r : Run T) : Prop where
  m : r.m.Placed
  todo : ∀ env ∈ r.todo, env.Laid
  pc : r.pc.Placed
  state : r.saved → r.m.state ≠ none

namespace Manifest.Placed

variable {m : Manifest}

theorem setEnv (h : m.Placed) {id : EnvID} {eb : EnvBackup}
    (heb : Path.IsWorkspace id eb.workspace) :
    (m.setEnv id eb).Placed := by
  intro id' eb' heb'
  simp only [Manifest.setEnv, FinMap.get_set] at heb'
  split at heb'
  case isTrue hid =>
    cases heb'
    exact hid ▸ heb
  case isFalse => exact h id' eb' heb'

theorem keepOnly (h : m.Placed) (live : List EnvID) : (m.keepOnly live).Placed := by
  intro id eb heb
  simp only [Manifest.keepOnly, FinMap.get_eraseIf] at heb
  split at heb
  · contradiction
  · exact h id eb heb

end Manifest.Placed

namespace World.Placed

variable {w w' : World T}

theorem put (h : w.Placed) {k : Key} {o : Object T} (ho : o.Placed) : (w.put k o).Placed := by
  intro k' o' hget
  simp only [World.put, FinMap.get_set] at hget
  split at hget
  · cases hget
    exact ho
  · exact h k' o' hget

theorem delete (h : w.Placed) (k : Key) : (w.delete k).Placed := by
  intro k' o' hget
  simp only [World.delete, FinMap.get_erase] at hget
  split at hget
  · contradiction
  · exact h k' o' hget

theorem congr (h : w.Placed) (hbucket : w'.bucket = w.bucket) : w'.Placed := by
  intro k o hget
  rw [hbucket] at hget
  exact h k o hget

end World.Placed

namespace Run.Placed

variable {w : World T} {r r' : Run T} {env : EnvRow}

theorem upload (hw : w.Placed) {k : Key} {o : Object T} (ho : o.Placed) (hr : r.Placed)
    (hr' : r'.Placed) (x : Input) :
    (Run.upload w k o x r r').1.Placed ∧ (Run.upload w k o x r r').2.Placed := by
  unfold Run.upload
  cases x.answer with
  | ok => exact ⟨hw.put ho, hr⟩
  | error => exact ⟨hw, hr'⟩
  | lost => exact ⟨hw.put ho, hr'⟩

theorem fail (h : r.Placed) : r.fail.Placed :=
  ⟨h.m, h.todo, trivial, by simp [Run.fail, saved]⟩

theorem abort (h : r.Placed) : r.abort.Placed :=
  ⟨h.m, h.todo, trivial, by simp [Run.abort, saved]⟩

theorem goTo (h : r.Placed) {pc : Pc T} (hpc : pc.Placed)
    (hsaved : ({ r with pc } : Run T).saved = false) : ({ r with pc } : Run T).Placed :=
  ⟨h.m, h.todo, hpc, by simp [hsaved]⟩

section Places

variable [Tree T] {x : Input} (h : r.Placed) (hw : w.Placed)

/-- After the step from here, the bucket and the run name places of the store. -/
def After (w : World T) (r : Run T) (x : Input) : Prop :=
  (r.step w x).1.Placed ∧ (r.step w x).2.Placed

include h hw

private theorem after_manifest (hr : r.pc = .manifest) : After w r x := by
  simp only [After, Run.step, hr]
  split
  case h_1 => exact ⟨hw, ⟨fun _ _ heb => by contradiction, h.todo, trivial, by simp [saved]⟩⟩
  case h_2 m hget => exact ⟨hw, ⟨hw _ _ hget, h.todo, trivial, by simp [saved]⟩⟩
  case h_3 => exact ⟨hw, h.abort⟩

private theorem after_next (hr : r.pc = .next) : After w r x := by
  simp only [After, Run.step, hr]
  split
  case h_1 => exact ⟨hw, ⟨h.m.keepOnly _, h.todo, trivial, by simp [saved]⟩⟩
  case h_2 env rest htodo =>
    have hrest : ∀ env' ∈ rest, env'.Laid := fun env' henv' =>
      h.todo env' (by rw [htodo]; exact List.mem_cons_of_mem _ henv')
    split
    · exact ⟨hw, ⟨h.m, hrest, by simp [Pc.Placed], by simp [saved]⟩⟩
    · refine ⟨hw, ⟨h.m, hrest, ?_, by simp [saved]⟩⟩
      exact h.todo env (by rw [htodo]; exact List.mem_cons_self)

private theorem after_generation (hr : r.pc = .generation env) : After w r x := by
  have hpc := h.pc
  rw [hr] at hpc
  simp only [After, Run.step, hr]
  split
  · split
    case h_1 eb heb =>
      split
      · exact ⟨hw, ⟨h.m, h.todo, h.m _ _ heb, by simp [saved]⟩⟩
      · exact ⟨hw, ⟨h.m, h.todo, hpc, by simp [saved]⟩⟩
    case h_2 => exact ⟨hw, ⟨h.m, h.todo, hpc, by simp [saved]⟩⟩
  · exact ⟨hw, h.fail⟩

private theorem after_leftovers {want : Option SnapID} {has : Bool} {rest : List SnapID}
    (hr : r.pc = .leftovers env want has rest) : After w r x := by
  have hpc := h.pc
  rw [hr] at hpc
  simp only [After, Run.step, hr]
  split
  · exact ⟨hw, h.goTo hpc rfl⟩
  split
  · exact ⟨hw, h.goTo hpc rfl⟩
  split
  · exact ⟨hw, h.goTo hpc rfl⟩
  split
  · exact ⟨hw.congr rfl, h.goTo hpc rfl⟩
  · exact ⟨hw.congr rfl, h.fail⟩

private theorem after_save {eb : EnvBackup} (hr : r.pc = .save env eb) :
    After w r x := by
  have hpc := h.pc
  rw [hr] at hpc
  have hm : (r.m.setEnv env.id eb).Placed := h.m.setEnv hpc
  simp only [After, Run.step, hr]
  refine upload hw ?_ ?_ ?_ x
  · exact hm
  · exact ⟨hm, h.todo, trivial, by simp [saved]⟩
  · exact ⟨hm, h.todo, trivial, by simp [saved, Run.abort]⟩

private theorem after_saved {keys : List Key} (hr : r.pc = .sweepList keys ∨ r.pc = .sweep keys) :
    After w r x := by
  have hstate := h.state (by rcases hr with hr | hr <;> simp [saved, hr])
  have hgo : ∀ {pc : Pc T} {failed : Bool}, pc.Placed →
      ({ r with pc, failed } : Run T).Placed :=
    fun hpc => ⟨h.m, h.todo, hpc, fun _ => hstate⟩
  rcases hr with hr | hr
  · simp only [After, Run.step, hr]
    split
    · split
      · exact ⟨hw, hgo trivial⟩
      · exact ⟨hw, hgo trivial⟩
    · exact ⟨hw, h.abort⟩
  · cases keys with
    | nil =>
      simp only [After, Run.step, hr]
      exact ⟨hw, hgo trivial⟩
    | cons k keys =>
      simp only [After, Run.step, hr]
      cases x.answer with
      | ok | lost => exact ⟨hw.delete k, hgo trivial⟩
      | error => exact ⟨hw, hgo trivial⟩

theorem step (hindex : w.pool.index.Laid) (x : Input) : After w r x := by
  have hpc := h.pc
  cases hr : r.pc with
  | manifest => exact after_manifest h hw hr
  | list =>
    simp only [After, Run.step, hr]
    split
    · refine ⟨hw, ⟨h.m, fun env henv => ?_, trivial, by simp [saved]⟩⟩
      exact hindex env (List.mem_insertionSort _ |>.mp henv)
    · exact ⟨hw, h.abort⟩
  | next => exact after_next h hw hr
  | generation => exact after_generation h hw hr
  | snapshots =>
    rw [hr] at hpc
    simp only [After, Run.step, hr]
    split
    · exact ⟨hw, h.goTo hpc rfl⟩
    · exact ⟨hw, h.fail⟩
  | leftovers => exact after_leftovers h hw hr
  | snapshot =>
    rw [hr] at hpc
    simp only [After, Run.step, hr]
    split
    · exact ⟨hw.congr rfl, h.goTo hpc rfl⟩
    · exact ⟨hw.congr rfl, h.fail⟩
  | send =>
    rw [hr] at hpc
    simp only [After, Run.step, hr]
    split
    · exact ⟨hw, h.goTo hpc rfl⟩
    · exact ⟨hw, h.goTo hpc rfl⟩
  | put =>
    rw [hr] at hpc
    simp only [After, Run.step, hr]
    refine upload hw ?_ ?_ ?_ x
    · trivial
    · exact h.goTo hpc rfl
    · exact h.goTo hpc rfl
  | unsend =>
    simp only [After, Run.step, hr]
    exact ⟨hw.congr rfl, h.fail⟩
  | createdAt =>
    rw [hr] at hpc
    simp only [After, Run.step, hr]
    split
    · split
      · exact ⟨hw, h.goTo hpc.2 rfl⟩
      · exact ⟨hw, h.goTo hpc.2 rfl⟩
    · exact ⟨hw, h.fail⟩
  | dropParent =>
    rw [hr] at hpc
    simp only [After, Run.step, hr]
    exact ⟨hw.congr rfl, h.goTo hpc rfl⟩
  | save => exact after_save h hw hr
  | index =>
    simp only [After, Run.step, hr]
    split
    · exact ⟨hw, h.goTo hindex rfl⟩
    · exact ⟨hw, h.abort⟩
  | claudes =>
    rw [hr] at hpc
    simp only [After, Run.step, hr]
    split
    · exact ⟨hw, h.goTo hpc rfl⟩
    · exact ⟨hw, h.abort⟩
  | putState =>
    rw [hr] at hpc
    simp only [After, Run.step, hr]
    refine upload ?_ ?_ ?_ h.abort x
    · exact hw.congr rfl
    · exact hpc
    · exact h.goTo trivial rfl
  | saveState =>
    simp only [After, Run.step, hr]
    refine upload hw ?_ ?_ ?_ x
    · exact h.m
    · exact ⟨h.m, h.todo, trivial, by simp⟩
    · exact ⟨h.m, h.todo, trivial, by simp [saved, Run.abort]⟩
  | sweepList => exact after_saved h hw (.inl hr)
  | sweep => exact after_saved h hw (.inr hr)
  | done =>
    simp only [After, Run.step, hr]
    exact ⟨hw, h⟩

end Places

end Run.Placed

namespace Backups

/-- One run at a time, of a pool whose index the store writes. -/
def OneLaid (s s' : Backups T) : Prop := s.One s' ∧ s.w.pool.index.Laid

variable {s : Backups T}

theorem Reach.one [Tree T] (h : Reach OneLaid s) : Reach One s := by
  induction h with
  | start h => exact .start h
  | step _ hok hstep ih => exact ih.step hok.1 hstep

/-- **Backups name only places of the store.** -/
theorem Reach.placed [Tree T] (h : Reach OneLaid s) :
    s.w.Placed ∧ ∀ i r, s.run i = some r → r.Placed := by
  induction h with
  | start h =>
    refine ⟨fun k o hget => ?_, fun i r hr => ?_⟩
    · simp [h.bucket] at hget
    · simp [h.run i] at hr
  | @step s s' _ hok hstep ih =>
    obtain ⟨hw, hruns⟩ := ih
    cases hstep with
    | begins i hnone =>
      refine ⟨hw, fun j r hr => ?_⟩
      by_cases hj : j = i
      · subst hj
        obtain rfl : {} = r := by simpa using hr
        exact ⟨fun _ _ heb => by contradiction, by simp, trivial, by simp [Run.saved]⟩
      · exact hruns j r (by simpa [hj] using hr)
    | goes i r hrun x =>
      obtain ⟨hw', hr'⟩ := (hruns i r hrun).step hw hok.2 x
      refine ⟨hw', fun j q hq => ?_⟩
      by_cases hj : j = i
      · subst hj
        obtain rfl : (r.step s.w x).2 = q := by simpa using hq
        exact hr'
      · exact hruns j q (by simpa [hj] using hq)
    | stops i =>
      refine ⟨hw, fun j r hr => ?_⟩
      by_cases hj : j = i
      · simp [hj] at hr
      · exact hruns j r (by simpa [hj] using hr)
    | others hothers => exact ⟨hw.congr hothers.bucket, hruns⟩

end Backups

end Fern

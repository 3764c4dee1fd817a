/-
What the sweep deletes.

From the look that found an environment's worktree gone to the store's `Delete` of it nothing
looks again.  Whether the worktree is still gone then is up to the others.
-/
import Fern.Actor.Sweep
import Fern.Lib.Run
import Fern.Proofs.Store.Separation

namespace Fern

open List

namespace Sweep

variable {T : Type} {s s' : Sweep T}

/-- Of the environments that were gone at the last look: others make nothing at the workspace of one
that this look found gone, and give none that it has listed another workspace. -/
structure Spared (s : Sweep T) (t : Pool T) : Prop where
  unseen : ∀ r ∈ s.unseen, ∀ row, t.env? r.id = some row →
    ∃ row', s.pool.env? r.id = some row' ∧ row'.workspace = row.workspace
  pending : ∀ id ∈ s.pending, ∀ row, t.env? id = some row →
    (∃ row', s.pool.env? id = some row' ∧ row'.workspace = row.workspace) ∧
    (s.pool.node row.workspace = none → t.node row.workspace = none)

/-- What holds of the sweep, for environments that were gone at the last look: the rows it hasn't
looked at yet are those of the index, and what it found gone is. -/
structure Inv (s : Sweep T) : Prop where
  unseen : ∀ r ∈ s.unseen, ∀ row, s.pool.env? r.id = some row → row.workspace = r.workspace
  gone : ∀ id ∈ s.pending, Gone s.pool id

theorem Inv.others (h : s.Inv) {t : Pool T} (hspared : s.Spared t) :
    Inv { s with pool := t } := by
  refine ⟨fun r hr row hrow => ?_, fun id hid row hrow => ?_⟩
  · obtain ⟨row', hrow', hws⟩ := hspared.unseen r hr row hrow
    rw [← hws]
    exact h.unseen r hr row' hrow'
  · obtain ⟨⟨row', hrow', hws⟩, hnode⟩ := hspared.pending id hid row hrow
    refine hnode ?_
    rw [← hws]
    exact h.gone id hid row' hrow'

private theorem Inv.goTo (h : s.Inv) {pc : Pc}
    (hunseen : ∀ r ∈ Sweep.unseen { s with pc := pc }, r ∈ s.unseen)
    (hpending : ∀ id ∈ Sweep.pending { s with pc := pc }, id ∈ s.pending) :
    Inv { s with pc := pc } :=
  ⟨fun r hr => h.unseen r (hunseen r hr), fun id hid => h.gone id (hpending id hid)⟩

theorem mem_list {x : Index} {row : EnvRow} (h : row ∈ x.list) : x.env? row.id = some row := by
  rw [Index.env?_eq_some]
  exact ⟨(mem_insertionSort _).mp h, rfl⟩

private theorem inv_lists : Inv { s with pc := .looking s.pool.index.list [] } := by
  refine ⟨fun r hr row hrow => ?_, nofun⟩
  have hlisted : s.pool.env? r.id = some r := mem_list (mem_filter.mp hr).1
  rw [show s.pool.env? r.id = some row from hrow, Option.some.injEq] at hlisted
  rw [hlisted]

section Look

variable {row : EnvRow} {rows : List EnvRow} {found : List EnvID}
  (hpc : s.pc = .looking (row :: rows) found)
include hpc

private theorem Inv.passes (h : s.Inv) : Inv { s with pc := .looking rows found } := by
  refine h.goTo (fun r hr => ?_) fun id hid => by simpa [Sweep.pending, hpc] using hid
  obtain ⟨hr, hgone⟩ := mem_filter.mp hr
  rw [Sweep.unseen, hpc]
  exact mem_filter.mpr ⟨mem_cons_of_mem _ hr, hgone⟩

private theorem Inv.finds (h : s.Inv) (hnone : s.pool.node row.workspace = none) :
    Inv { s with pc := .looking rows (found ++ [row.id]) } := by
  have hon := h.passes hpc
  refine ⟨hon.unseen, fun id hid => ?_⟩
  obtain ⟨hid, hgone⟩ := mem_filter.mp hid
  rcases mem_append.mp hid with hid | hid
  · exact hon.gone id (mem_filter.mpr ⟨hid, hgone⟩)
  · -- nothing is at the workspace the list has, which is still the row's
    rw [mem_singleton] at hid
    subst hid
    intro row' hrow'
    have hrow : row ∈ s.unseen := by
      rw [Sweep.unseen, hpc]
      exact mem_filter.mpr ⟨mem_cons_self, hgone⟩
    rw [h.unseen row hrow row' hrow']
    exact hnone

end Look

theorem Inv.advance {e : Event} (h : s.Inv) (hstep : s.advance e = some s') : s'.Inv := by
  cases e with
  | tick ok =>
    dsimp only [Sweep.advance] at hstep
    split at hstep
    case h_1 hpc =>
      cases hstep
      cases ok with
      | false => exact h.goTo nofun nofun
      | true => exact inv_lists
    case h_2 => contradiction
  | look ok =>
    dsimp only [Sweep.advance] at hstep
    split at hstep
    case h_2 => contradiction
    case h_1 row rows found hpc =>
      split at hstep
      · cases hstep
        exact h.passes hpc
      split at hstep
      · cases hstep
        exact h.goTo nofun nofun
      split at hstep
      case h_1 hnone =>
        cases hstep
        exact h.finds hpc hnone
      case h_2 =>
        cases hstep
        exact h.passes hpc
  | looked =>
    dsimp only [Sweep.advance] at hstep
    split at hstep
    case h_2 => contradiction
    case h_1 found hpc =>
      cases hstep
      exact h.goTo nofun fun id hid => by simpa [Sweep.pending, hpc] using hid
  | next =>
    dsimp only [Sweep.advance] at hstep
    split at hstep
    case h_2 => contradiction
    case h_1 id ids now hpc =>
      split at hstep <;> rename_i hgone <;> obtain rfl := Option.some.inj hstep
      · exact h.goTo nofun fun id' hid => by
          simpa [Sweep.pending, hpc, filter_cons_of_pos, hgone] using hid
      · exact h.goTo nofun fun id' hid => by
          simpa [Sweep.pending, hpc, filter_cons_of_neg, hgone] using hid
  | take =>
    dsimp only [Sweep.advance] at hstep
    split at hstep
    case h_2 => contradiction
    case h_1 id ids now hpc =>
      split at hstep <;> obtain rfl := Option.some.inj hstep
      · exact h.goTo nofun fun id' hid => by simpa [Sweep.pending, hpc] using hid
      · exact h.goTo nofun fun id' hid => by
          rw [Sweep.pending, hpc]
          exact mem_cons_of_mem _ hid
  | delete =>
    dsimp only [Sweep.advance] at hstep
    split at hstep
    case h_2 => contradiction
    case h_1 id ids now hpc =>
      cases hstep
      exact h.goTo nofun fun id' hid => by
        rw [Sweep.pending, hpc]
        exact mem_cons_of_mem _ hid
  | returns =>
    dsimp only [Sweep.advance] at hstep
    split at hstep
    case h_4 => contradiction
    case h_1 id ids now hpc | h_2 id ids now hpc =>
      cases hstep
      exact h.goTo nofun fun id' hid => by
        rw [Sweep.pending, hpc]
        exact mem_cons_of_mem _ hid
    case h_3 id ids now hpc =>
      cases hstep
      exact h.goTo nofun fun id' hid => by simpa [Sweep.pending, hpc] using hid
  | done =>
    dsimp only [Sweep.advance] at hstep
    split at hstep
    case h_2 => contradiction
    case h_1 =>
      cases hstep
      exact ⟨nofun, nofun⟩

/-- The states of the runs in which others spare what the sweep has looked at. -/
inductive Reach [Tree T] : Sweep T → Prop
  | start (pool : Pool T) : Reach { pool }
  | sweep {s s' : Sweep T} (h : Reach s) (e : Event) (hstep : s.advance e = some s') : Reach s'
  | others {s : Sweep T} {t : Pool T} (h : Reach s) (hspared : s.Spared t)
      (hstep : Step s { s with pool := t }) : Reach { s with pool := t }

theorem Reach.inv [Tree T] (h : Reach s) : s.Inv := by
  induction h with
  | start pool => exact ⟨nofun, nofun⟩
  | sweep _ e hstep ih => exact ih.advance hstep
  | others _ hspared _ ih => exact ih.others hspared

/-- **The sweep deletes only what is gone.**  In every run in which, from the sweep's look at an
environment that was gone at its last look too, nothing is made at its workspace and it isn't made
anew elsewhere, the workspace of an environment doesn't exist when the sweep's `Delete` of it
reaches the store's. -/
theorem sweep_deletes_gone [Tree T] (h : Reach s) (hdelete : s.advance .delete = some s') :
    ∃ id ids now, s'.pc = .deleting id ids now ∧ Gone s.pool id := by
  dsimp only [Sweep.advance] at hdelete
  split at hdelete
  case h_2 => contradiction
  case h_1 id ids now hpc =>
    cases hdelete
    exact ⟨id, ids, now, rfl, h.inv.gone id (by simp [Sweep.pending, hpc])⟩

/-! ### A worktree that comes back -/

/-- It is made again, with a file in it. -/
def worktreeBack : Pool (List String) :=
  worktreeGone.put (.worktree "repo" "thread") (.plain ["README"])

/-- And adopted. -/
def worktreeAdopted : Pool (List String) := ((atThread "next").call worktreeBack).final

/-- A worktree that is made again after the second look, and adopted back into its environment
before the sweep's message is taken, is there when the store's `Delete` is called, and gone with
its file afterwards. -/
theorem adopted_worktree_deleted :
    ∃ s s' : Sweep (List String), Relation.ReflTransGen Step ⟨madeNext, [], .idle⟩ s ∧
      s.advance .delete = some s' ∧ s'.pc = .deleting "next" [] ["next"] ∧
      (s.pool.env? "next").map EnvRow.workspace = some (.worktree "repo" "thread") ∧
      s.pool.node (.worktree "repo" "thread") = some (.subvol ["README"] false) ∧
      (Delete "next" s.pool).final.node (.worktree "repo" "thread") = none := by
  refine ⟨⟨worktreeAdopted, ["next"], .taken "next" [] ["next"]⟩, _, ?_, rfl, rfl, by decide,
    by decide, by decide⟩
  have hback : Outside worktreeGone worktreeBack :=
    .worktree "repo" "thread" rfl rfl rfl fun p hp => by simp [worktreeBack, hp]
  have hlooks : Relation.ReflTransGen Step ⟨worktreeGone, [], .idle⟩
      ⟨worktreeGone, ["next"], .queued "next" [] ["next"]⟩ :=
    foldlM_keeps (l := [.tick true, .look true, .looked, .next, .done, .tick true, .look true,
      .looked, .next]) (fun _ _ e _ h hstep => h.tail (.sweep e hstep)) rfl .refl
  have htake : Sweep.advance ⟨worktreeAdopted, ["next"], .queued "next" [] ["next"]⟩ .take =
      some ⟨worktreeAdopted, ["next"], .taken "next" [] ["next"]⟩ := rfl
  refine .head (.outside worktreeGone_outside) (hlooks.trans ?_)
  exact .head (.outside hback) (.head (.call (atThread "next")) (.single (.sweep .take htake)))

/-- The worktree of `next` stays away, and the sweep deletes it. -/
theorem sweep_deletes_gone_next :
    ∃ s s' : Sweep (List String), s.advance .delete = some s' ∧
      ∃ id ids now, s'.pc = .deleting id ids now ∧ Gone s.pool id := by
  have h : Reach ⟨worktreeGone, ["next"], .taken "next" [] ["next"]⟩ :=
    foldlM_keeps (l := [.tick true, .look true, .looked, .next, .done, .tick true, .look true,
      .looked, .next, .take]) (fun _ _ e _ h hstep => h.sweep e hstep) rfl (.start worktreeGone)
  exact ⟨_, _, rfl, sweep_deletes_gone h rfl⟩

end Sweep

end Fern

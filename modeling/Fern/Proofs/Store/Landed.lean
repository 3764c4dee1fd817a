/-
`Reconcile` of a pool that a restore filled.

Such a pool is not one the store itself leaves: the index may have environments without a directory,
and directories may be there without a row.  But no change was stopped in it, so there is little to
clear, and nothing with data goes.  All `Reconcile` can fail at is an environment in the index that
has a directory without `snaps/` in it.
-/
import Fern.Proofs.Store.Reconcile

namespace Fern

open Call StoreM List

variable {T : Type} [Tree T] {q s t u : Pool T} {id : EnvID}

/-- `t` is `q` with some of `Reconcile` done: what is new is an empty `live`, and what is gone was
in a directory that has no row, and isn't a workspace. -/
structure Kept (q t : Pool T) : Prop where
  env? : ∀ e, t.env? e = q.env? e
  node : ∀ p n, t.node p = some n → q.node p = some n ∨ (∃ e, p = .live e) ∧ q.node p = none
  own : ∀ p e, Path.env? p = some e → q.env? e ≠ none → q.node p ≠ none → t.node p = q.node p
  data : ∀ p e, Path.IsWorkspace e p → q.node p ≠ none → t.node p = q.node p

/-- `t` has the disk of `s`, and its environments. -/
structure Same (s t : Pool T) : Prop where
  env? : ∀ e, t.env? e = s.env? e
  node : ∀ p, t.node p = s.node p

omit [Tree T] in
theorem Kept.refl (q : Pool T) : Kept q q :=
  ⟨fun _ => rfl, fun _ _ h => Or.inl h, fun _ _ _ _ _ => rfl, fun _ _ _ _ => rfl⟩

omit [Tree T] in
theorem Kept.same (h : Kept q s) (hst : Same s t) : Kept q t where
  env? e := (hst.env? e).trans (h.env? e)
  node p n hn := h.node p n ((hst.node p).symm.trans hn)
  own p e hp he hq := (hst.node p).trans (h.own p e hp he hq)
  data p e hp hq := (hst.node p).trans (h.data p e hp hq)

omit [Tree T] in
theorem Kept.clear (h : Kept q s) (hnone : q.env? id = none) (hlive : s.node (.live id) = none) :
    Kept q { s with disk := s.disk.eraseIf fun p => p.env? = some id } := by
  have hnode : ∀ p : Path, p.env? ≠ some id →
      ({ s with disk := s.disk.eraseIf fun p => p.env? = some id } : Pool T).node p = s.node p := by
    intro p hp
    simp [Pool.node, hp]
  refine ⟨h.env?, fun p n hn => h.node p n ?_, fun p e hp he hq => ?_, fun p e hp hq => ?_⟩
  · by_cases hp : p.env? = some id
    · simp [Pool.node, hp] at hn
    · rw [← hnode p hp]
      exact hn
  · rw [hnode p, h.own p e hp he hq]
    rw [hp]
    rintro ⟨⟩
    exact he hnone
  · rw [hnode p, h.data p e hp hq]
    intro hid
    -- the `live` it would be isn't there
    have hsq := h.data p e hp hq
    cases hp with
    | live =>
      cases hid
      exact hq (hsq.symm.trans hlive)
    | worktree r n => contradiction

/-! ### The steps -/

end Fern

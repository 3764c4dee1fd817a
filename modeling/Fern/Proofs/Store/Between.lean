/-
States between calls.

A call that is stopped is followed by `Reconcile`, which may itself be stopped and run again.  What
all these runs do together is one recovery, so between calls the pool is tidy however it got there.
-/
import Fern.Proofs.Store.Tidy

namespace Fern

open Call StoreM

variable {T : Type} [Tree T] {s t : Pool T}

/-! ### Recovery -/

section Recover

variable {D : EnvID → Prop} {e : EnvID}

theorem Recovered.keepsSnap (h : Recovered D s t) (hs : Apart s) (he : s.env? e ≠ none)
    (x : SnapID) : KeepsSnap s t e x := by
  intro row hrow hn
  by_cases hexp : Expired s t e x
  · obtain ⟨hpre, ⟨hnone, _⟩ | ⟨row', hrow', hold⟩⟩ := hexp
    · rw [hrow] at hnone
      cases hnone
    · rw [hrow] at hrow'
      cases hrow'
      exact .inr ⟨hpre, hold⟩
  · refine .inl ⟨?_, h.frame.node _ fun hc => hexp (hc.expired hs he).2⟩
    rw [h.frame.snap e x, hrow]
    rintro ⟨_, _, hc | hc⟩
    · exact hexp hc
    · exact hc (iff_of_true (by rw [hrow]; simp) hn)

theorem recovered_of_retries {named : Prop} {u : Pool T} (hs : Sane named s)
    (h : Relation.ReflTransGen (Stops Reconcile) s u) :
    Sane named u ∧ Recovered (fun _ => True) s u := by
  induction h with
  | refl => exact ⟨hs, Recovered.refl _ s⟩
  | tail _ hstop ih =>
    obtain ⟨hsane, hrec⟩ := ih
    rcases hstop with rfl | ⟨o, ho⟩
    · exact ⟨hsane, hrec⟩
    · obtain ⟨hsane', hrec'⟩ := (wp_Reconcile hsane).1 _ ho
      exact ⟨hsane', Recovered.step hs.toApart hrec hrec'⟩

end Recover

/-! ### Histories in which every stop is followed by recovery -/

/-- A state between calls: of a fresh pool, after a call that ended or a change of others', or,
after a call that was stopped, once a `Reconcile` has ended, however often one was stopped. -/
inductive Between : Pool T → Prop
  | fresh {s : Pool T} (h : s.Fresh) : Between s
  | ends {s : Pool T} (h : Between s) (r : Request T) (hr : Named s r) : Between (r.call s).final
  | outside {s t : Pool T} (h : Between s) (ht : Outside s t) : Between t
  | restarts {s t u : Pool T} (h : Between s) (r : Request T) (hr : Named s r)
      (ht : Stops r.call s t) (hu : Relation.ReflTransGen (Stops Reconcile) t u) :
      Between (Reconcile u).final

/-- The environment has its workspace in its directory. -/
def Pool.HasLive (s : Pool T) (e : EnvID) : Prop :=
  ∃ row, s.env? e = some row ∧ row.workspace = .live e

theorem Tidy.stops (hs : Tidy s) {r : Request T} (hname : Named s r) (ht : Stops r.call s t) :
    Sane True t ∧ r.Changes s t :=
  (keeps_call hs.toSane (hs.unclaimed r) fun _ => hname).stops ⟨hs.toSane, .refl s⟩ ht

/-- **The pool is tidy between calls.** -/
theorem Between.tidy (h : Between s) : Tidy s := by
  induction h with
  | fresh h => exact Tidy.fresh h
  | ends _ r hr ih => exact ih.ends hr
  | outside _ ht ih => exact ih.outside ht
  | restarts _ r hr ht hu ih => exact (recovered_of_retries (ih.stops hr ht).1 hu).1.tidy_reconcile

end Fern

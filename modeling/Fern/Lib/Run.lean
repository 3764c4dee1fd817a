/-
Runs of a machine that takes one event at a time, or refuses it.

A run is the fold of the step over the events.  `foldlM_concat` takes its last step off, and
`foldlM_keeps` is the rule for invariants: what every step keeps, a run keeps.
-/
import Mathlib.Data.List.Induction

section

variable {σ ε : Type} {step : σ → ε → Option σ} {s s' : σ} {l : List ε}

theorem foldlM_concat {e : ε} : (l ++ [e]).foldlM step s = some s' ↔
    ∃ m, l.foldlM step s = some m ∧ step m e = some s' := by
  simp [Option.bind_eq_some_iff]

/-- **What every step of a run keeps, the run keeps.** -/
theorem foldlM_keeps {I : σ → Prop}
    (hkeep : ∀ s s', ∀ e ∈ l, I s → step s e = some s' → I s')
    (hrun : l.foldlM step s = some s') (hs : I s) : I s' := by
  induction l generalizing s with
  | nil =>
    cases hrun
    exact hs
  | cons e l ih =>
    rw [List.foldlM_cons] at hrun
    obtain ⟨m, hstep, hrun⟩ := Option.bind_eq_some_iff.mp hrun
    have hm := hkeep s m e List.mem_cons_self hs hstep
    exact ih (fun s s' f hf => hkeep s s' f (List.mem_cons_of_mem _ hf)) hrun hm

end

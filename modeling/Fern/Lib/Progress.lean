/-
What a system can always come to.

`comes_to` is the rule for progress: where a measure falls by some step as long as the goal hasn't
been come to, some run comes to it.
-/
import Mathlib.Logic.Relation

/-- **Steps that bring the goal nearer come to it.**  `good` is kept by those steps. -/
theorem comes_to {α : Type} {step : α → α → Prop} {good goal : α → Prop} (way : α → Nat)
    (hnear : ∀ a, good a → ¬ goal a → ∃ b, step a b ∧ good b ∧ way b < way a) {a : α} (h : good a) :
    ∃ b, Relation.ReflTransGen step a b ∧ good b ∧ goal b := by
  induction hn : way a using Nat.strongRecOn generalizing a with
  | _ n ih =>
    by_cases hgoal : goal a
    · exact ⟨a, .refl, h, hgoal⟩
    · obtain ⟨b, hstep, hb, hway⟩ := hnear a h hgoal
      obtain ⟨c, hrun, hc⟩ := ih (way b) (hn ▸ hway) hb rfl
      exact ⟨c, hrun.head hstep, hc⟩

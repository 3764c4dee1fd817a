/-
How often a service is started.

Each start costs 15 s.  Short pauses don't pay for theirs, but come only after a run that lasted:
what they owe is `weight`, never over 45 s.
-/
import Fern.Init.Services

namespace Fern

namespace Init

namespace Supervisor

variable {s t : Supervisor} {a n : Nat}

/-- What may still be owed at a pause. -/
def weight (backoff : Nat) : Nat :=
  if backoff = second then 0
  else if backoff = 2 * second then 14 * second
  else if backoff = 4 * second then 27 * second
  else if backoff = 8 * second then 38 * second
  else if backoff = 16 * second then 45 * second
  else 44 * second

def backoffs : List Nat := [1, 2, 4, 8, 16, 30].map (· * second)

/-- The next pause is another of them, and pays for a start with what it may owe more. -/
theorem pays {b : Nat} (hb : b ∈ backoffs) : min (2 * b) maxBackoff ∈ backoffs ∧
    15 * second + weight b ≤ b + weight (min (2 * b) maxBackoff) ∧ weight b ≤ 45 * second ∧
    14 * second ≤ weight (min (2 * b) maxBackoff) := by
  simp only [backoffs, List.map_cons, List.map_nil, List.mem_cons, List.not_mem_nil, or_false] at hb
  rcases hb with rfl | rfl | rfl | rfl | rfl | rfl <;> decide

/-- What holds since time `a`, when there had been `n` starts. -/
structure Paced (a n : Nat) (s : Supervisor) : Prop where
  time : a ≤ s.now
  backoff : s.backoff ∈ backoffs
  runs : ∀ started, s.phase = .runs started → started ≤ s.now ∧ (s.starts = n ∨ a ≤ started) ∧
    15 * second * s.starts + a ≤ 15 * second * n + max started a + weight s.backoff + second
  pauses : ∀ due, s.phase = .pauses due → 15 * second * s.starts + 15 * second + a ≤
    15 * second * n + max due a + weight (min (2 * s.backoff) maxBackoff) + second
  bound : 15 * second * s.starts + a ≤ 15 * second * n + s.now + 46 * second
  late : s.late ≤ 1
  prompt : (s.quit = false ∨ ∃ due, s.phase = .pauses due) → s.late = 0

theorem Paced.step (h : Paced a n s) (hst : Step s t) : Paced a n t := by
  obtain ⟨htime, hback, hruns, hpauses, hbound, hlate, hprompt⟩ := h
  obtain ⟨hnext, hpay, hw, _⟩ := pays hback
  cases hst with
  | passes d =>
    refine ⟨by simp; omega, hback, fun started h => ?_, hpauses, by simp; omega, hlate, hprompt⟩
    obtain ⟨hle, hrest⟩ := hruns started h
    exact ⟨by simp; omega, hrest⟩
  | @exits started h hq =>
    obtain ⟨hle, hwhen, hpaid⟩ := hruns started h
    refine ⟨htime, ?_, by simp, ?_, hbound, hlate, fun _ => hprompt (.inl hq)⟩ <;>
      unfold pause <;> split <;> rename_i hlong
    · exact List.mem_cons_self
    · exact hback
    · -- A run that lasted pays for more than is owed.
      rintro _ ⟨⟩
      have hstart : weight (min (2 * minBackoff) maxBackoff) = 14 * second := by decide
      rw [stableRun] at hlong
      dsimp only
      rw [hstart, minBackoff]
      generalize second = sec at *
      rcases hwhen with hwhen | hwhen
      · rw [hwhen]
        omega
      · omega
    · rintro _ ⟨⟩
      dsimp only
      omega
  | @restarts due h hd =>
    have hpaid := hpauses due h
    obtain ⟨_, _, hw', _⟩ := pays hnext
    have hstarts : 15 * second * (s.starts + 1) = 15 * second * s.starts + 15 * second :=
      Nat.mul_add_one ..
    have hnone : s.late = 0 := hprompt (.inr ⟨due, h⟩)
    refine ⟨htime, hnext, ?_, by simp, by dsimp only; omega, by simp [hnone, Bool.toNat_le],
      by simp [hnone]⟩
    rintro _ ⟨⟩
    exact ⟨Nat.le_refl _, .inr htime, by dsimp only; omega⟩
  | quits h =>
    exact ⟨htime, hback, hruns, hpauses, hbound, hlate, fun _ => hprompt (.inl h)⟩
  | ends hq => exact ⟨htime, hback, by simp, by simp, hbound, hlate, by grind⟩

theorem Paced.run (h : Paced a n s) (hrun : Relation.ReflTransGen Step s t) : Paced a n t := by
  induction hrun with
  | refl => exact h
  | tail _ hst ih => exact ih.step hst

theorem Paced.again (h : Paced a n s) : Paced s.now s.starts s := by
  obtain ⟨_, _, _, hnext⟩ := pays h.backoff
  refine ⟨Nat.le_refl _, h.backoff, fun started hp => ⟨(h.runs started hp).1, .inl rfl, ?_⟩,
    fun due _ => ?_, ?_, h.late, h.prompt⟩ <;> omega

/-- **A service that keeps exiting isn't started over and over.**  However long its runs last, in
any time there are at most as many starts as 15 s fit into it and 46 s more.  After `quit` is closed
there is at most one. -/
theorem restarts_paced {t₀ : Nat} (hs : Reached t₀ s) (hrun : Relation.ReflTransGen Step s t) :
    15 * second * t.starts + s.now ≤ 15 * second * s.starts + t.now + 46 * second ∧
      t.late ≤ 1 := by
  have hstart : Paced t₀ 1 { now := t₀, phase := .runs t₀ } := by
    refine ⟨Nat.le_refl _, List.mem_cons_self, ?_, by simp, by dsimp only; omega, by simp, by simp⟩
    rintro _ ⟨⟩
    exact ⟨Nat.le_refl _, .inl rfl, by dsimp only; omega⟩
  have ht := (hstart.run hs).again.run hrun
  exact ⟨ht.bound, ht.late⟩

theorem restarts_paced_once : 15 * second * 2 + 0 ≤ 15 * second * 1 + second + 46 * second :=
  (restarts_paced (show Reached 0 _ from .refl) (((Relation.ReflTransGen.refl.tail
    (.exits rfl rfl)).tail (.passes second)).tail (.restarts rfl (by decide)))).1

end Supervisor

end Init

end Fern

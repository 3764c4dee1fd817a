/-
Calls that take effect at once.

Seen through `V`, such a call is as before in every state it passes through, or already as it
will leave things.
-/
import Fern.Lib.Call

namespace Call

variable {σ ω ε α β γ δ : Type} {B I : σ → Prop} {V : σ → γ} {c : Call σ ω ε α}
  {k : α → Call σ ω ε β} {C : ω → σ → Prop} {Q : α → σ → Prop} {E : ε → σ → Prop} {s : σ}

/-- Every state `c` passes through from `s` satisfies `B`, or looks through `V` as the one `c`
ends in. -/
def Commits (B : σ → Prop) (V : σ → γ) (c : Call σ ω ε α) (s : σ) : Prop :=
  ∀ p ∈ (c s).trace, B p.2 ∨ V p.2 = V (c s).final

theorem commits_of_before (h : wp c C Q E s) (hB : ∀ o t, C o t → B t) : Commits B V c s :=
  fun p hp => .inl (hB _ _ (h.1 p hp))

theorem commits_of_same (v : γ)
    (h : wp c (fun _ t => B t ∨ V t = v) (fun _ t => V t = v) (fun _ t => V t = v) s) :
    Commits B V c s := fun p hp => (h.1 p hp).imp_right fun hv => hv.trans (wp_final h).symm

@[simp] theorem commits_pure (a : α) : Commits B V (pure a : Call σ ω ε α) s :=
  fun _ hp => by cases hp

@[simp] theorem commits_fail (e : ε) : Commits B V (fail e : Call σ ω ε α) s :=
  fun _ hp => by cases hp

/-- One operation takes effect at once. -/
theorem commits_perform (o : ω) (f : σ → Except ε σ) : Commits B V (perform o f) s := by
  intro p hp
  unfold perform at hp ⊢
  cases hf : f s with
  | error e =>
    rw [hf] at hp
    cases hp
  | ok t =>
    rw [hf] at hp
    rw [List.mem_singleton.mp hp]
    exact .inr rfl

theorem commits_congr {c' : Call σ ω ε α} (h : c s = c' s) :
    Commits B V c s ↔ Commits B V c' s := by
  unfold Commits
  rw [h]

/-- What doesn't change `B` may go before. -/
theorem commits_bind (h : wp c C Q E s) (hB : ∀ o t, C o t → B t)
    (hk : ∀ a t, Q a t → Commits B V (k a) t) : Commits B V (c >>= k) s := by
  intro p hp
  have hend := h.2
  change p ∈ (next (c s) k).trace at hp
  change B p.2 ∨ V p.2 = V (next (c s) k).final
  unfold next at hp ⊢
  cases hr : (c s).result with
  | error e =>
    rw [hr] at hp
    exact .inl (hB _ _ (h.1 p hp))
  | ok a =>
    rw [hr] at hp hend
    rcases List.mem_append.mp hp with hp | hp
    · exact .inl (hB _ _ (h.1 p hp))
    · exact hk a _ hend p hp

/-- What doesn't change `V` may go after. -/
theorem commits_then (h : Commits B V c s) (hc : wp c C Q E s)
    (hk : ∀ a t, Q a t → Keeps (fun u => V u = V t) (k a) t) : Commits B V (c >>= k) s := by
  intro p hp
  have hend := hc.2
  change p ∈ (next (c s) k).trace at hp
  change B p.2 ∨ V p.2 = V (next (c s) k).final
  unfold next at hp ⊢
  cases hr : (c s).result with
  | error e =>
    rw [hr] at hp
    exact h p hp
  | ok a =>
    rw [hr] at hp hend
    have hkeeps := hk a _ hend
    rcases List.mem_append.mp hp with hp | hp
    · exact (h p hp).imp_right fun hv => hv.trans hkeeps.final.symm
    · exact .inr ((hkeeps.1 p hp).trans hkeeps.final.symm)

theorem commits_read_bind {k : σ → Call σ ω ε α} (h : Commits B V (k s) s) :
    Commits B V (read >>= k) s := (commits_congr (read_bind k s)).mpr h

/-- One operation, and what doesn't change `V` after it. -/
theorem commits_perform_bind {o : ω} {f : σ → Except ε σ} {k : Unit → Call σ ω ε α}
    (hk : ∀ t, f s = .ok t → Keeps (fun u => V u = V t) (k ()) t) :
    Commits B V (perform o f >>= k) s := by
  refine commits_then (C := fun _ _ => True) (Q := fun _ t => f s = .ok t) (E := fun _ _ => True)
    (commits_perform o f) ?_ fun _ => hk
  rw [wp_perform]
  cases hf : f s with
  | error e => trivial
  | ok t => exact ⟨trivial, rfl⟩

/-- Another view of what a call is known to keep. -/
theorem Commits.map {B' : σ → Prop} {V' : σ → δ} (h : Commits B V c s) (hI : Keeps I c s)
    (hB : ∀ t, I t → B t → B' t) (hV : ∀ t u, I t → I u → V t = V u → V' t = V' u) :
    Commits B' V' c s := fun p hp =>
  (h p hp).imp (hB _ (hI.1 p hp)) (hV _ _ (hI.1 p hp) hI.final)

theorem Commits.mono {B' : σ → Prop} (h : Commits B V c s) (hB : ∀ t, B t → B' t) :
    Commits B' V c s := fun p hp => (h p hp).imp_left (hB _)

theorem Commits.stops (h : Commits B V c s) (hs : B s) {t : σ} (ht : Stops c s t) :
    B t ∨ V t = V (c s).final := by
  rcases ht with rfl | ⟨o, ho⟩
  · exact .inl hs
  · exact h _ ho

end Call

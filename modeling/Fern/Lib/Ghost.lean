/-
A history variable beside a call.

What a call did is read off its operations, one after another, by a function the call knows nothing
of.  `noted` is the logic of calls with what has been read so far beside the state.
-/
import Fern.Lib.Call

namespace Call

variable {σ ω ε α β γ : Type} {s : σ} {g : γ} {c : Call σ ω ε α}

/-- What `f` makes of the operations of `c` from `s`. -/
def note (f : γ → ω × σ → γ) (c : Call σ ω ε α) (s : σ) (g : γ) : γ := (c s).trace.foldl f g

/-- From `s` and `g`, `c` ends with a value satisfying `Q` or an error satisfying `E`. -/
def noted (f : γ → ω × σ → γ) (c : Call σ ω ε α) (Q : α → σ → γ → Prop) (E : ε → σ → γ → Prop)
    (s : σ) (g : γ) : Prop :=
  match (c s).result with
  | .ok a => Q a (c s).final (c.note f s g)
  | .error e => E e (c s).final (c.note f s g)

variable {f : γ → ω × σ → γ} {Q Q' : α → σ → γ → Prop} {E E' : ε → σ → γ → Prop}

theorem noted_bind (c : Call σ ω ε β) (k : β → Call σ ω ε α) :
    noted f (c >>= k) Q E s g ↔ noted f c (fun b t h => noted f (k b) Q E t h) E s g := by
  show noted f (fun s => next (c s) k) Q E s g ↔ _
  unfold noted note
  dsimp only
  rcases c s with ⟨trace, t, e | b⟩
  · exact Iff.rfl
  · simp only [next, List.foldl_append]

@[simp] theorem noted_pure (a : α) : noted f (pure a) Q E s g ↔ Q a s g := Iff.rfl

@[simp] theorem noted_read_bind (k : σ → Call σ ω ε α) :
    noted f (read >>= k) Q E s g ↔ noted f (k s) Q E s g := by
  rw [noted_bind]
  exact Iff.rfl

/-- An operation that fails. -/
theorem noted_perform_error {o : ω} {r : σ → Except ε σ} {Q : Unit → σ → γ → Prop} {e : ε}
    (hr : r s = .error e) : noted f (perform o r) Q E s g ↔ E e s g := by
  unfold noted note perform
  rw [hr]
  exact Iff.rfl

theorem noted_mono (h : noted f c Q E s g) (hQ : ∀ a t g', Q a t g' → Q' a t g')
    (hE : ∀ e t g', E e t g' → E' e t g') :
    noted f c Q' E' s g := by
  unfold noted at h ⊢
  cases hr : (c s).result with
  | error e =>
    rw [hr] at h
    exact hE _ _ _ h
  | ok a =>
    rw [hr] at h
    exact hQ _ _ _ h

/-- Run `c`, then the rest from whatever `c` is known to leave. -/
theorem noted_seq {c : Call σ ω ε β} {k : β → Call σ ω ε α} {P : β → σ → γ → Prop}
    (h : noted f c P E s g) (hk : ∀ b t g', P b t g' → noted f (k b) Q E t g') :
    noted f (c >>= k) Q E s g := by
  rw [noted_bind]
  exact noted_mono h hk fun _ _ _ he => he

theorem noted_congr {c' : Call σ ω ε α} (h : c s = c' s) :
    noted f c Q E s g ↔ noted f c' Q E s g := by
  unfold noted note
  rw [h]

/-- A call whose operations are known. -/
theorem noted_of_eq {trace : List (ω × σ)} {t : σ} {a : α} (h : c s = ⟨trace, t, .ok a⟩) :
    noted f c Q E s g ↔ Q a t (trace.foldl f g) := by
  unfold noted note
  rw [h]

/-- A call whose errors don't matter. -/
theorem noted_attempt {Q : Except ε α → σ → γ → Prop} :
    noted f (attempt c) Q E s g ↔
      noted f c (fun a t g' => Q (.ok a) t g') (fun e t g' => Q (.error e) t g') s g := by
  unfold noted note attempt
  rcases c s with ⟨trace, t, e | a⟩
  · exact Iff.rfl
  · exact Iff.rfl

/-- The loop rule, with the elements to come in the invariant. -/
theorem noted_each {c : β → Call σ ω ε Unit} {I : List β → σ → γ → Prop}
    (hc : ∀ b rest t g', I (b :: rest) t g' → noted f (c b) (fun _ => I rest) E t g') :
    ∀ (l : List β) (s : σ) (g : γ), I l s g → noted f (each c l) (fun _ => I []) E s g := by
  intro l
  induction l with
  | nil =>
    intro s g h
    exact h
  | cons b rest ih =>
    intro s g h
    rw [each]
    refine noted_seq (hc b rest s g h) ?_
    intro _ t g' h'
    exact ih t g' h'

/-- What holds however a call ends. -/
theorem noted_final {I : σ → γ → Prop} (h : noted f c (fun _ => I) (fun _ => I) s g) :
    I (c s).final (c.note f s g) := by
  unfold noted at h
  cases hr : (c s).result with
  | error e =>
    rw [hr] at h
    exact h
  | ok a =>
    rw [hr] at h
    exact h

/-- What holds if a call ends with a value. -/
theorem noted_ok {a : α} (h : noted f c Q E s g) (hr : (c s).result = .ok a) :
    Q a (c s).final (c.note f s g) := by
  unfold noted at h
  rw [hr] at h
  exact h

end Call

/-
Calls that can be stopped between any two of their operations.

A call reads the state as it likes, performs operations on it one at a time, and
ends with a value or an error.  An operation is atomic: it either takes the state
to the next one or fails and leaves it.  What a crash can leave behind is then
exactly the state before the call and the state after each of its operations, so
running a call returns those too, in order, each with the operation that led to it.

`wp` is the logic for it.  Next to a postcondition for each way of ending it carries
a condition on every operation performed and the state it leaves, which is the one
that speaks about crashes.
-/
import Mathlib.Logic.Basic

/-- What a call from one state did: the operations it performed with the states they
left, the state it ended in, and how it ended. -/
structure Outcome (σ ω ε α : Type) where
  trace : List (ω × σ)
  final : σ
  result : Except ε α

/-- A call on states `σ` that performs operations `ω` and fails with errors `ε`. -/
def Call (σ ω ε α : Type) : Type := σ → Outcome σ ω ε α

namespace Call

variable {σ ω ε α β : Type} {c c' : Call σ ω ε α} {f : β → α → Call σ ω ε β} {k : α → Call σ ω ε β}

/-- Run the rest of a call once the first part has ended. -/
def next (r : Outcome σ ω ε α) (k : α → Call σ ω ε β) : Outcome σ ω ε β :=
  match r.result with
  | .error e => ⟨r.trace, r.final, .error e⟩
  | .ok a =>
    let q := k a r.final
    ⟨r.trace ++ q.trace, q.final, q.result⟩

instance : Monad (Call σ ω ε) where
  pure a := fun s => ⟨[], s, .ok a⟩
  bind c k := fun s => next (c s) k

/-- The state as it is now. -/
def read : Call σ ω ε σ := fun s => ⟨[], s, .ok s⟩

/-- End with an error. -/
def fail (e : ε) : Call σ ω ε α := fun s => ⟨[], s, .error e⟩

/-- Perform operation `o`, whose effect is `f`. -/
def perform (o : ω) (f : σ → Except ε σ) : Call σ ω ε Unit := fun s =>
  match f s with
  | .error e => ⟨[], s, .error e⟩
  | .ok t => ⟨[(o, t)], t, .ok ()⟩

/-- Run `c` and go on with how it ended. -/
def attempt (c : Call σ ω ε α) : Call σ ω ε (Except ε α) := fun s =>
  let r := c s
  ⟨r.trace, r.final, .ok r.result⟩

/-- Run `f` on each element in turn. -/
def each (f : α → Call σ ω ε Unit) : List α → Call σ ω ε Unit
  | [] => pure ()
  | a :: rest => f a >>= fun _ => each f rest

/-- Run `f` on each element in turn, passing an accumulator along. -/
def eachWith (f : β → α → Call σ ω ε β) : β → List α → Call σ ω ε β
  | b, [] => pure b
  | b, a :: rest => f b a >>= fun b' => eachWith f b' rest

/-- A state a call from `s` can be stopped in: before its first operation, or after
any of them. -/
def Stops (c : Call σ ω ε α) (s t : σ) : Prop :=
  t = s ∨ ∃ o, (o, t) ∈ (c s).trace

/-- Where `c` from `s` is when it is stopped after `k` operations. -/
def stopAt (c : Call σ ω ε α) (k : Nat) (s : σ) : σ :=
  match k with
  | 0 => s
  | k + 1 => ((c s).trace[k]?.map Prod.snd).getD s

theorem stops_stopAt (c : Call σ ω ε α) (k : Nat) (s : σ) : Stops c s (c.stopAt k s) := by
  cases k with
  | zero => exact .inl rfl
  | succ k =>
    show Stops c s (((c s).trace[k]?.map Prod.snd).getD s)
    cases h : (c s).trace[k]? with
    | none => exact .inl rfl
    | some p => exact .inr ⟨p.1, List.mem_of_getElem? h⟩

/-! ### The logic -/

/-- From `s`, every operation of `c` and the state it leaves satisfy `C`, and `c`
ends with a value satisfying `Q` or an error satisfying `E`. -/
def wp (c : Call σ ω ε α) (C : ω → σ → Prop) (Q : α → σ → Prop) (E : ε → σ → Prop)
    (s : σ) : Prop :=
  (∀ p ∈ (c s).trace, C p.1 p.2) ∧
    match (c s).result with
    | .ok a => Q a (c s).final
    | .error e => E e (c s).final

variable {C : ω → σ → Prop} {Q : α → σ → Prop} {E : ε → σ → Prop} {s : σ}

@[simp] theorem wp_pure (a : α) : wp (pure a : Call σ ω ε α) C Q E s ↔ Q a s := by
  show (_ ∧ _) ↔ _
  simp [pure]

@[simp] theorem wp_read {Q : σ → σ → Prop} : wp (read : Call σ ω ε σ) C Q E s ↔ Q s s := by
  show (_ ∧ _) ↔ _
  simp [read]

@[simp] theorem wp_fail (e : ε) : wp (fail e : Call σ ω ε α) C Q E s ↔ E e s := by
  show (_ ∧ _) ↔ _
  simp [fail]

@[simp] theorem wp_bind (c : Call σ ω ε α) (k : α → Call σ ω ε β) {Q : β → σ → Prop} :
    wp (c >>= k) C Q E s ↔ wp c C (fun a t => wp (k a) C Q E t) E s := by
  show wp (fun s => next (c s) k) C Q E s ↔ _
  unfold wp
  dsimp only
  rcases c s with ⟨tr, t, _ | a⟩
  · simp [next]
  · simp only [next, List.mem_append]
    constructor
    · rintro ⟨htr, hend⟩
      exact ⟨fun p hp => htr p (.inl hp), fun p hp => htr p (.inr hp), hend⟩
    · rintro ⟨h1, h2, hend⟩
      exact ⟨fun p hp => hp.elim (h1 p) (h2 p), hend⟩

theorem wp_perform {o : ω} {f : σ → Except ε σ} {Q : Unit → σ → Prop} :
    wp (perform o f) C Q E s ↔
      match f s with
      | .ok t => C o t ∧ Q () t
      | .error e => E e s := by
  unfold wp perform
  rcases f s with _ | t
  · simp
  · simp

@[simp] theorem wp_attempt (c : Call σ ω ε α) {Q : Except ε α → σ → Prop} :
    wp (attempt c) C Q E s ↔
      wp c C (fun a t => Q (.ok a) t) (fun e t => Q (.error e) t) s := by
  unfold wp attempt
  rcases c s with ⟨tr, t, _ | a⟩ <;> rfl

theorem wp_true (c : Call σ ω ε α) (s : σ) :
    wp c (fun _ _ => True) (fun _ _ => True) (fun _ _ => True) s := by
  refine ⟨fun _ _ => trivial, ?_⟩
  cases (c s).result <;> trivial

theorem wp_mono {C' : ω → σ → Prop} {Q' : α → σ → Prop} {E' : ε → σ → Prop} (h : wp c C Q E s)
    (hC : ∀ o t, C o t → C' o t) (hQ : ∀ a t, Q a t → Q' a t) (hE : ∀ e t, E e t → E' e t) :
    wp c C' Q' E' s := by
  refine ⟨fun p hp => hC _ _ (h.1 p hp), ?_⟩
  have hend := h.2
  cases hr : (c s).result with
  | error e => rw [hr] at hend; exact hE _ _ hend
  | ok a => rw [hr] at hend; exact hQ _ _ hend

theorem wp_past {C' : ω → σ → Prop} (h : wp c C Q E s) (hC : ∀ o t, C o t → C' o t) :
    wp c C' (fun _ _ => True) (fun _ _ => True) s :=
  wp_mono h hC (fun _ _ _ => trivial) fun _ _ _ => trivial

theorem wp_and {C' : ω → σ → Prop} {Q' : α → σ → Prop} {E' : ε → σ → Prop} (h : wp c C Q E s)
    (h' : wp c C' Q' E' s) :
    wp c (fun o t => C o t ∧ C' o t) (fun a t => Q a t ∧ Q' a t) (fun e t => E e t ∧ E' e t) s := by
  refine ⟨fun p hp => ⟨h.1 p hp, h'.1 p hp⟩, ?_⟩
  have hend := h.2
  have hend' := h'.2
  cases hr : (c s).result with
  | error e => rw [hr] at hend hend'; exact ⟨hend, hend'⟩
  | ok a => rw [hr] at hend hend'; exact ⟨hend, hend'⟩

/-- Run `c`, then the rest from whatever `c` is known to leave. -/
theorem wp_seq {P : α → σ → Prop} {Q : β → σ → Prop} (h : wp c C P E s)
    (hk : ∀ a t, P a t → wp (k a) C Q E t) : wp (c >>= k) C Q E s := by
  rw [wp_bind]
  exact wp_mono h (fun _ _ h => h) hk (fun _ _ h => h)

/-- First `c`, of which more is known than is asked. -/
theorem wp_step {C' : ω → σ → Prop} {E' : ε → σ → Prop} {P : α → σ → Prop} {Q : β → σ → Prop}
    (h : wp c C' P E' s) (hC : ∀ o t, C' o t → C o t) (hE : ∀ e t, E' e t → E e t)
    (hk : ∀ a t, P a t → wp (k a) C Q E t) : wp (c >>= k) C Q E s :=
  wp_seq (wp_mono h hC (fun _ _ h => h) hE) hk

/-- The loop rule: an invariant of the accumulator and the state that each round keeps. -/
theorem wp_eachWith {I : β → σ → Prop} :
    ∀ (l : List α) {b : β} {s : σ}, I b s →
      (∀ a ∈ l, ∀ b t, I b t → wp (f b a) C I E t) → wp (eachWith f b l) C I E s := by
  intro l
  induction l with
  | nil => intro b s hs _; simpa [eachWith] using hs
  | cons a rest ih =>
    intro b s hs hf
    rw [eachWith]
    refine wp_seq (hf a (by simp) b s hs) ?_
    intro b' t ht
    exact ih ht fun a' ha' => hf a' (by simp [ha'])

/-- The loop rule with the elements done so far in the invariant. -/
theorem wp_eachWith_done {I : List α → β → σ → Prop} (l : List α) {b : β} (hs : I [] b s)
    (hf : ∀ done a rest, l = done ++ a :: rest → ∀ b t, I done b t →
      wp (f b a) C (I (done ++ [a])) E t) : wp (eachWith f b l) C (I l) E s := by
  have hgo : ∀ (rest done : List α) {b : β} {t : σ}, l = done ++ rest → I done b t →
      wp (eachWith f b rest) C (I l) E t := by
    intro rest
    induction rest with
    | nil =>
      intro done b t hl ht
      rw [List.append_nil] at hl
      rw [eachWith, wp_pure, hl]
      exact ht
    | cons a rest ih =>
      intro done b t hl ht
      rw [eachWith]
      refine wp_seq (hf done a rest hl b t ht) ?_
      intro b' u hu
      exact ih (done ++ [a]) (by rw [hl, List.append_assoc]; rfl) hu
  exact hgo l [] rfl hs

theorem each_eq_eachWith (f : α → Call σ ω ε Unit) :
    ∀ l : List α, each f l = eachWith (fun _ a => f a) () l
  | [] => rfl
  | a :: rest => by rw [each, eachWith]; exact congrArg _ (funext fun _ => each_eq_eachWith f rest)

theorem wp_each {f : α → Call σ ω ε Unit} {I : σ → Prop} (l : List α) (hs : I s)
    (hf : ∀ a ∈ l, ∀ t, I t → wp (f a) C (fun _ => I) E t) :
    wp (each f l) C (fun _ => I) E s := by
  rw [each_eq_eachWith]
  exact wp_eachWith (I := fun _ => I) l hs fun a ha _ => hf a ha

/-! ### Calls that come down to others

What a call does from `s` is all there is to know about it there, so a call whose checks pass
is the rest of it.
-/

theorem wp_congr (h : c s = c' s) : wp c C Q E s ↔ wp c' C Q E s := by
  unfold wp
  rw [h]

theorem bind_of_pure {a : α} (h : c s = (pure a : Call σ ω ε α) s) (k : α → Call σ ω ε β) :
    (c >>= k) s = k a s := by
  show next (c s) k = _
  rw [h]
  rfl

theorem bind_of_fail {e : ε} (h : c s = (fail e : Call σ ω ε α) s) (k : α → Call σ ω ε β) :
    (c >>= k) s = (fail e : Call σ ω ε β) s := by
  show next (c s) k = _
  rw [h]
  rfl

/-- Two runs have one result, and where it is a value they end in one state. -/
def Alike (r r' : Outcome σ ω ε α) : Prop :=
  r.result = r'.result ∧ ∀ a, r.result = .ok a → r.final = r'.final

/-- What follows two runs with one result is alike if it is from where each of them ended. -/
theorem Alike.bind_of {s' : σ} (hresult : (c s).result = (c' s').result)
    (hk : ∀ a, (c s).result = .ok a → Alike (k a (c s).final) (k a (c' s').final)) :
    Alike ((c >>= k) s) ((c' >>= k) s') := by
  show Alike (next (c s) k) (next (c' s') k)
  unfold next
  rw [← hresult]
  cases h : (c s).result with
  | error e => exact ⟨rfl, fun a ha => by cases ha⟩
  | ok a => exact ⟨(hk a h).1, (hk a h).2⟩

theorem Alike.bind {s' : σ} (h : Alike (c s) (c' s')) (k : α → Call σ ω ε β) :
    Alike ((c >>= k) s) ((c' >>= k) s') := by
  refine Alike.bind_of h.1 fun a ha => ?_
  rw [h.2 a ha]
  exact ⟨rfl, fun _ _ => rfl⟩

theorem read_bind (k : σ → Call σ ω ε α) (s : σ) : (read >>= k) s = k s s := rfl

/-- A call that only reads is its value or its error. -/
theorem cases_of_reads {P : α → Prop} (h : wp c (fun _ _ => False)
    (fun a t => t = s ∧ P a) (fun _ t => t = s) s) :
    (∃ e, c s = (fail e : Call σ ω ε α) s) ∨ ∃ a, P a ∧ c s = (pure a : Call σ ω ε α) s := by
  obtain ⟨htrace, hend⟩ := h
  have hnil : (c s).trace = [] := List.eq_nil_iff_forall_not_mem.mpr htrace
  rcases hc : c s with ⟨trace, t, e | a⟩ <;> rw [hc] at hnil hend
  · cases hnil
    cases hend
    exact .inl ⟨e, rfl⟩
  · obtain ⟨rfl, hP⟩ := hend
    cases hnil
    exact .inr ⟨a, hP, rfl⟩

/-! ### Invariants -/

/-- Every state `c` passes through from `s`, or ends in, satisfies `I`. -/
def Keeps (I : σ → Prop) (c : Call σ ω ε α) (s : σ) : Prop :=
  wp c (fun _ => I) (fun _ => I) (fun _ => I) s

/-- `c` keeps `I`, and leads to `Q` if it returns. -/
def Leads (c : Call σ ω ε α) (I : σ → Prop) (Q : α → σ → Prop) (s : σ) : Prop :=
  wp c (fun _ => I) (fun a t => I t ∧ Q a t) (fun _ => I) s

/-- `c` keeps `I`, leads to `Q` and never fails. -/
def Completes (c : Call σ ω ε α) (I : σ → Prop) (Q : α → σ → Prop) (s : σ) : Prop :=
  wp c (fun _ => I) (fun a t => I t ∧ Q a t) (fun _ _ => False) s

variable {I : σ → Prop}

@[simp] theorem keeps_pure (a : α) : Keeps I (pure a : Call σ ω ε α) s ↔ I s := wp_pure a

@[simp] theorem keeps_fail (e : ε) : Keeps I (fail e : Call σ ω ε α) s ↔ I s := wp_fail e

@[simp] theorem keeps_read_bind (k : σ → Call σ ω ε α) :
    Keeps I (read >>= k) s ↔ Keeps I (k s) s := by
  unfold Keeps
  rw [wp_bind, wp_read]

theorem keeps_perform {o : ω} {f : σ → Except ε σ} (hs : I s)
    (h : ∀ t, f s = .ok t → I t) : Keeps I (perform o f) s := by
  unfold Keeps
  rw [wp_perform]
  cases hf : f s with
  | error e => exact hs
  | ok t => exact ⟨h t hf, h t hf⟩

theorem keeps_bind (h : Keeps I c s) (hk : ∀ a t, I t → Keeps I (k a) t) :
    Keeps I (c >>= k) s := wp_seq h hk

theorem keeps_each {f : α → Call σ ω ε Unit} (l : List α) (hs : I s)
    (hf : ∀ a ∈ l, ∀ t, I t → Keeps I (f a) t) : Keeps I (each f l) s :=
  wp_each l hs hf

theorem keeps_eachWith (l : List α) {b : β} (hs : I s)
    (hf : ∀ a ∈ l, ∀ b t, I t → Keeps I (f b a) t) : Keeps I (eachWith f b l) s :=
  wp_eachWith (I := fun _ => I) l hs hf

theorem Keeps.mono {I' : σ → Prop} (h : Keeps I c s) (hI : ∀ t, I t → I' t) : Keeps I' c s :=
  wp_mono h (fun _ => hI) (fun _ => hI) (fun _ => hI)

/-- What a call keeps holds wherever it is stopped. -/
theorem Keeps.stops (h : Keeps I c s) (hs : I s) {t : σ} (ht : Stops c s t) : I t := by
  rcases ht with rfl | ⟨o, ho⟩
  · exact hs
  · exact h.1 _ ho

/-- What holds however a call ends holds where it ends. -/
theorem wp_final (h : wp c C (fun _ => I) (fun _ => I) s) : I (c s).final := by
  have hend := h.2
  cases hr : (c s).result with
  | error e => rw [hr] at hend; exact hend
  | ok a => rw [hr] at hend; exact hend

/-- What a call keeps holds where it ends. -/
theorem Keeps.final (h : Keeps I c s) : I (c s).final := wp_final h

end Call

/-
Programs that share a state and run interleaved.

A program asks the state, changes it by statements that are atomic, and does work elsewhere, whose
answer can be anything.  Between any two of these, other programs run.  `Keeps` says of a program
that every statement it comes to keeps an invariant, whatever it was answered; an answer counts for
no more than the moment it was given, so the program may use of it only what it says of the answer
itself.  Programs that keep an invariant keep it together: `Reached.keeps`.
-/
import Mathlib.Logic.Relation

/-- A program on states `σ` with errors `ε`. -/
inductive Prog (σ ε α : Type) : Type 1 where
  | done (result : Except ε α)
  /-- A question to the state. -/
  | ask {β : Type} (q : σ → β) (k : β → Prog σ ε α)
  /-- A statement, which changes the state or fails. -/
  | exec (f : σ → Except ε σ) (k : Except ε Unit → Prog σ ε α)
  /-- Work elsewhere, with any answer. -/
  | work {β : Type} (k : β → Prog σ ε α)

namespace Prog

open List

variable {σ ε α β : Type} {calls : Prog σ ε Unit → Prop}

def bind : Prog σ ε α → (α → Prog σ ε β) → Prog σ ε β
  | done (.ok a), f => f a
  | done (.error e), _ => done (.error e)
  | ask q k, f => ask q fun b => (k b).bind f
  | exec g k, f => exec g fun r => (k r).bind f
  | work k, f => work fun b => (k b).bind f

instance : Monad (Prog σ ε) where
  pure a := done (.ok a)
  bind := bind

/-- End with an error. -/
def fail (e : ε) : Prog σ ε α := done (.error e)

def query (q : σ → β) : Prog σ ε β := ask q fun b => done (.ok b)

def statement (f : σ → Except ε σ) : Prog σ ε Unit := exec f done

/-- Work elsewhere, which may fail. -/
def outside : Prog σ ε Unit := work done

/-- Something that is decided elsewhere. -/
def learn (β : Type) : Prog σ ε β := work fun b => done (.ok b)

/-- Run `f` for each element in turn. -/
def each (f : α → Prog σ ε Unit) : List α → Prog σ ε Unit
  | [] => pure ()
  | a :: rest => f a >>= fun _ => each f rest

/-! ### Running interleaved -/

/-- One step of programs that run together: one is started, goes on, or is stopped for good. -/
inductive Step (calls : Prog σ ε Unit → Prop) :
    σ × List (Prog σ ε Unit) → σ × List (Prog σ ε Unit) → Prop
  | start {s : σ} {ps : List (Prog σ ε Unit)} {p : Prog σ ε Unit} (h : calls p) :
      Step calls (s, ps) (s, p :: ps)
  | ask {s : σ} {before after : List (Prog σ ε Unit)} {β : Type} (q : σ → β)
      (k : β → Prog σ ε Unit) :
      Step calls (s, before ++ ask q k :: after) (s, before ++ k (q s) :: after)
  | exec {s t : σ} {before after : List (Prog σ ε Unit)} {f : σ → Except ε σ}
      (k : Except ε Unit → Prog σ ε Unit) (h : f s = .ok t) :
      Step calls (s, before ++ exec f k :: after) (t, before ++ k (.ok ()) :: after)
  | execFails {s : σ} {e : ε} {before after : List (Prog σ ε Unit)} {f : σ → Except ε σ}
      (k : Except ε Unit → Prog σ ε Unit) (h : f s = .error e) :
      Step calls (s, before ++ exec f k :: after) (s, before ++ k (.error e) :: after)
  | work {s : σ} {before after : List (Prog σ ε Unit)} {β : Type} (k : β → Prog σ ε Unit) (b : β) :
      Step calls (s, before ++ work k :: after) (s, before ++ k b :: after)
  | stop {s : σ} {before after : List (Prog σ ε Unit)} (p : Prog σ ε Unit) :
      Step calls (s, before ++ p :: after) (s, before ++ after)

/-- A state that programs of `calls` can bring about together, from `init`. -/
def Reached (calls : Prog σ ε Unit → Prop) (init s : σ) : Prop :=
  ∃ ps, Relation.ReflTransGen (Step calls) (init, []) (s, ps)

/-! ### Keeping an invariant -/

/-- Every statement the program comes to keeps `I`, and what it ends with satisfies `Q`. -/
def Keeps (I : σ → Prop) (Q : α → Prop) : Prog σ ε α → Prop
  | done (.ok a) => Q a
  | done (.error _) => True
  | ask q k => ∀ s, I s → Keeps I Q (k (q s))
  | exec f k => (∀ s t, I s → f s = .ok t → I t) ∧ ∀ r, Keeps I Q (k r)
  | work k => ∀ b, Keeps I Q (k b)

variable {I : σ → Prop} {Q : α → Prop}

theorem keeps_pure {a : α} (h : Q a) : Keeps I Q (pure a : Prog σ ε α) := h

theorem keeps_fail (e : ε) : Keeps I Q (fail e : Prog σ ε α) := trivial

theorem keeps_query {Q : β → Prop} {q : σ → β} (h : ∀ s, I s → Q (q s)) :
    Keeps I Q (query q : Prog σ ε β) := h

theorem keeps_outside : Keeps I (fun _ => True) (outside : Prog σ ε Unit) := by
  intro result
  cases result with
  | ok a => exact trivial
  | error e => exact trivial

theorem keeps_learn (β : Type) : Keeps I (fun _ => True) (learn β : Prog σ ε β) := by
  intro b
  exact trivial

theorem keeps_statement {f : σ → Except ε σ} (h : ∀ s t, I s → f s = .ok t → I t) :
    Keeps I (fun _ => True) (statement f) := by
  refine ⟨h, ?_⟩
  intro result
  cases result with
  | ok a => exact trivial
  | error e => exact trivial

/-- The rest of a program may use what its first part ends with. -/
theorem keeps_bind {R : β → Prop} {p : Prog σ ε α} {f : α → Prog σ ε β} (hp : Keeps I Q p)
    (hf : ∀ a, Q a → Keeps I R (f a)) : Keeps I R (p >>= f) := by
  show Keeps I R (p.bind f)
  induction p with
  | done result =>
    cases result with
    | ok a => exact hf a hp
    | error e => exact trivial
  | ask q k ih =>
    intro s hs
    exact ih (q s) (hp s hs)
  | exec g k ih =>
    refine ⟨hp.1, ?_⟩
    intro r
    exact ih r (hp.2 r)
  | work k ih =>
    intro b
    exact ih b (hp b)

theorem keeps_each {f : α → Prog σ ε Unit} (h : ∀ a, Keeps I (fun _ => True) (f a))
    (l : List α) : Keeps I (fun _ => True) (each f l) := by
  induction l with
  | nil => exact trivial
  | cons a rest ih =>
    refine keeps_bind (h a) ?_
    intro _ _
    exact ih

/-- One step keeps the invariant, and leaves programs that do. -/
theorem Step.keeps (hcalls : ∀ p, calls p → Keeps I (fun _ => True) p)
    {c d : σ × List (Prog σ ε Unit)} (h : Step calls c d)
    (hc : I c.1 ∧ ∀ p ∈ c.2, Keeps I (fun _ => True) p) :
    I d.1 ∧ ∀ p ∈ d.2, Keeps I (fun _ => True) p := by
  -- a program among others is replaced by one that keeps the invariant as well
  have hreplace : ∀ {before after : List (Prog σ ε Unit)} {p p' : Prog σ ε Unit},
      (∀ q ∈ before ++ p :: after, Keeps I (fun _ => True) q) →
        Keeps I (fun _ => True) p' → ∀ q ∈ before ++ p' :: after, Keeps I (fun _ => True) q := by
    intro before after p p' hall hp' q hq
    obtain hq | hq := mem_append.mp hq
    · exact hall q (mem_append_left _ hq)
    · obtain rfl | hq := mem_cons.mp hq
      · exact hp'
      · exact hall q (mem_append_right _ (mem_cons_of_mem _ hq))
  have hmem : ∀ {before after : List (Prog σ ε Unit)} {p : Prog σ ε Unit},
      p ∈ before ++ p :: after := by
    intro before after p
    exact mem_append_right _ mem_cons_self
  obtain ⟨hs, hps⟩ := hc
  cases h with
  | start hp =>
    refine ⟨hs, ?_⟩
    intro q hq
    obtain rfl | hq := mem_cons.mp hq
    · exact hcalls q hp
    · exact hps q hq
  | ask q k =>
    have hask := hps _ hmem
    exact ⟨hs, hreplace hps (hask _ hs)⟩
  | exec k hf =>
    have hexec := hps _ hmem
    exact ⟨hexec.1 _ _ hs hf, hreplace hps (hexec.2 _)⟩
  | execFails k hf =>
    have hexec := hps _ hmem
    exact ⟨hs, hreplace hps (hexec.2 _)⟩
  | work k b =>
    have hwork := hps _ hmem
    exact ⟨hs, hreplace hps (hwork b)⟩
  | stop p =>
    refine ⟨hs, ?_⟩
    intro q hq
    obtain hq | hq := mem_append.mp hq
    · exact hps q (mem_append_left _ hq)
    · exact hps q (mem_append_right _ (mem_cons_of_mem _ hq))

/-- **What each program keeps, all of them keep together**, however they are interleaved. -/
theorem Reached.keeps {init s : σ} (h : Reached calls init s)
    (hcalls : ∀ p, calls p → Keeps I (fun _ => True) p) (hinit : I init) : I s := by
  obtain ⟨ps, hsteps⟩ := h
  have hall : ∀ c, Relation.ReflTransGen (Step calls) (init, []) c →
      I c.1 ∧ ∀ p ∈ c.2, Keeps I (fun _ => True) p := by
    intro c hc
    induction hc with
    | refl => exact ⟨hinit, by simp⟩
    | tail _ hstep ih => exact hstep.keeps hcalls ih
  exact (hall _ hsteps).1

/-! ### Running alone -/

/-- From `s` the program can come to `t` and end with `r` while no other runs. -/
inductive Leads : σ → Prog σ ε α → σ → Except ε α → Prop
  | done {s : σ} (r : Except ε α) : Leads s (done r) s r
  | ask {s t : σ} {r : Except ε α} {β : Type} {q : σ → β} {k : β → Prog σ ε α}
      (h : Leads s (k (q s)) t r) : Leads s (ask q k) t r
  | exec {s s' t : σ} {r : Except ε α} {f : σ → Except ε σ} {k : Except ε Unit → Prog σ ε α}
      (hf : f s = .ok s') (h : Leads s' (k (.ok ())) t r) : Leads s (exec f k) t r
  | execFails {s t : σ} {e : ε} {r : Except ε α} {f : σ → Except ε σ}
      {k : Except ε Unit → Prog σ ε α} (hf : f s = .error e) (h : Leads s (k (.error e)) t r) :
      Leads s (exec f k) t r
  | work {s t : σ} {r : Except ε α} {β : Type} {k : β → Prog σ ε α} (b : β)
      (h : Leads s (k b) t r) : Leads s (work k) t r

variable {s t u : σ} {a : α}

theorem leads_pure : Leads s (pure a : Prog σ ε α) s (.ok a) := .done _

theorem leads_query {q : σ → β} : Leads s (query q : Prog σ ε β) s (.ok (q s)) := .ask (.done _)

theorem leads_outside : Leads s (outside : Prog σ ε Unit) s (.ok ()) := .work _ (.done _)

theorem leads_learn (b : β) : Leads s (learn β : Prog σ ε β) s (.ok b) := .work b (.done _)

theorem leads_statement {f : σ → Except ε σ} (h : f s = .ok t) :
    Leads s (statement f) t (.ok ()) := .exec h (.done _)

theorem leads_bind {p : Prog σ ε α} {f : α → Prog σ ε β} {r : Except ε β}
    (hp : Leads s p t (.ok a)) (hf : Leads t (f a) u r) : Leads s (p >>= f) u r := by
  show Leads s (p.bind f) u r
  generalize hr : (Except.ok a : Except ε α) = result at hp
  induction hp with
  | done result =>
    subst hr
    exact hf
  | ask _ ih => exact .ask (ih hf hr)
  | exec hg _ ih => exact .exec hg (ih hf hr)
  | execFails hg _ ih => exact .execFails hg (ih hf hr)
  | work b _ ih => exact .work b (ih hf hr)

/-- What a program comes to alone, it comes to among others. -/
theorem Reached.leads {init : σ} {p : Prog σ ε Unit} {r : Except ε Unit} (h : Reached calls init s)
    (hp : calls p) (hleads : Leads s p t r) :
    Reached calls init t := by
  obtain ⟨ps, hsteps⟩ := h
  have hrun : ∀ {s t : σ} {p : Prog σ ε Unit} {r : Except ε Unit}, Leads s p t r →
      ∃ p', Relation.ReflTransGen (Step calls) (s, [] ++ p :: ps) (t, [] ++ p' :: ps) := by
    intro s t p r hleads
    induction hleads with
    | done r => exact ⟨_, .refl⟩
    | ask _ ih =>
      obtain ⟨p', hp'⟩ := ih
      exact ⟨p', .head (.ask _ _) hp'⟩
    | exec hf _ ih =>
      obtain ⟨p', hp'⟩ := ih
      exact ⟨p', .head (.exec _ hf) hp'⟩
    | execFails hf _ ih =>
      obtain ⟨p', hp'⟩ := ih
      exact ⟨p', .head (.execFails _ hf) hp'⟩
    | work b _ ih =>
      obtain ⟨p', hp'⟩ := ih
      exact ⟨p', .head (.work _ b) hp'⟩
  obtain ⟨p', hp'⟩ := hrun hleads
  exact ⟨p' :: ps, (hsteps.tail (.start hp)).trans hp'⟩

end Prog

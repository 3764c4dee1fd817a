/-
What has happened in a history and has not been undone since.

`Since p q l` says that some event of `l` is a `p` and no event after it is a `q`: the past
operator "not `q` since `p`".  A tracker that keeps, of each question, whether it is still
open is right if what it keeps is a `Since`; and it is kept right by one rule, which says
what one more event does.

`Each p l` says that every event of `l` is right after the events before it.
-/
import Mathlib.Data.List.Induction

/-- Some event of `l` is a `p`, and no event after it a `q`. -/
def Since {α : Type} (p q : α → Prop) (l : List α) : Prop :=
  ∃ before e after, l = before ++ e :: after ∧ p e ∧ ∀ f ∈ after, ¬ q f

namespace Since

open List

variable {α : Type} {p p' q q' : α → Prop} {l l' : List α}

@[simp] theorem nil : ¬ Since p q [] := by
  rintro ⟨before, e, after, h, -⟩
  simp at h

/-- One more event: it opens, or it leaves open what was. -/
theorem concat {e : α} : Since p q (l ++ [e]) ↔ p e ∨ (Since p q l ∧ ¬ q e) := by
  constructor
  · rintro ⟨before, f, after, h, hp, hq⟩
    rcases List.eq_nil_or_concat after with rfl | ⟨after, g, rfl⟩
    · obtain ⟨rfl, rfl⟩ : l = before ∧ e = f := by
        have := List.append_inj' h rfl
        simpa using this
      exact .inl hp
    · have hsplit : l = before ++ f :: after ∧ e = g := by
        have hassoc : l ++ [e] = (before ++ f :: after) ++ [g] := by
          rw [h]
          simp
        have := List.append_inj' hassoc rfl
        simpa using this
      obtain ⟨rfl, rfl⟩ := hsplit
      exact .inr ⟨⟨before, f, after, rfl, hp, fun x hx => hq x (by simp [hx])⟩,
        hq e (by simp)⟩
  · rintro (hp | ⟨⟨before, f, after, rfl, hp, hq⟩, hqe⟩)
    · exact ⟨l, e, [], rfl, hp, by simp⟩
    · refine ⟨before, f, after ++ [e], by simp, hp, ?_⟩
      intro x hx
      rcases mem_append.mp hx with hx | hx
      · exact hq x hx
      · rw [mem_singleton.mp hx]
        exact hqe

/-- The first event opens and none after it undoes that, or a later one is open. -/
theorem cons {e : α} : Since p q (e :: l) ↔ (p e ∧ ∀ f ∈ l, ¬ q f) ∨ Since p q l := by
  constructor
  · rintro ⟨before, f, after, h, hp, hq⟩
    cases before with
    | nil =>
      obtain ⟨rfl, rfl⟩ := List.cons.inj h
      exact .inl ⟨hp, hq⟩
    | cons g before =>
      obtain ⟨rfl, rfl⟩ := List.cons.inj h
      exact .inr ⟨before, f, after, rfl, hp, hq⟩
  · rintro (⟨hp, hq⟩ | ⟨before, f, after, rfl, hp, hq⟩)
    · exact ⟨[], e, l, rfl, hp, hq⟩
    · exact ⟨e :: before, f, after, rfl, hp, hq⟩

/-- Fewer events that undo leave more open. -/
theorem mono (hp : ∀ e, p e → p' e) (hq : ∀ e, q' e → q e) (h : Since p q l) : Since p' q' l := by
  obtain ⟨before, e, after, rfl, hpe, hafter⟩ := h
  exact ⟨before, e, after, rfl, hp e hpe, fun f hf hqf => hafter f hf (hq f hqf)⟩

/-- Several more events that undo nothing: one of them opens, or what was open still is. -/
theorem append_of_none (hq : ∀ e ∈ l', ¬ q e) :
    Since p q (l ++ l') ↔ (∃ e ∈ l', p e) ∨ Since p q l := by
  induction l' using List.reverseRecOn with
  | nil => simp
  | append_singleton l' e ih =>
    have ih := ih fun f hf => hq f (by simp [hf])
    have hqe : ¬ q e := hq e (by simp)
    rw [← append_assoc, concat, ih]
    constructor
    · rintro (hp | ⟨⟨f, hf, hp⟩ | h, -⟩)
      · exact .inl ⟨e, by simp, hp⟩
      · exact .inl ⟨f, by simp [hf], hp⟩
      · exact .inr h
    · rintro (⟨f, hf, hp⟩ | h)
      · rcases mem_append.mp hf with hf | hf
        · exact .inr ⟨.inl ⟨f, hf, hp⟩, hqe⟩
        · rw [mem_singleton.mp hf] at hp
          exact .inl hp
      · exact .inr ⟨.inr h, hqe⟩

end Since

/-- Every event of `l` is right after the events before it. -/
def Each {α : Type} (p : List α → α → Prop) (l : List α) : Prop :=
  ∀ before e after, l = before ++ e :: after → p before e

namespace Each

variable {α : Type} {p : List α → α → Prop} {l : List α}

@[simp] theorem nil : Each p [] := by
  intro before e after h
  simp at h

theorem cons {e : α} : Each p (e :: l) ↔ p [] e ∧ Each (fun before => p (e :: before)) l := by
  constructor
  · intro h
    exact ⟨h [] e l rfl, fun before f after hl => h (e :: before) f after (by simp [hl])⟩
  · rintro ⟨he, hl⟩ before f after h
    cases before with
    | nil =>
      obtain ⟨rfl, -⟩ := List.cons.inj h
      exact he
    | cons g before =>
      obtain ⟨rfl, htail⟩ := List.cons.inj h
      exact hl before f after htail

theorem concat {e : α} : Each p (l ++ [e]) ↔ Each p l ∧ p l e := by
  constructor
  · intro h
    refine ⟨fun before f after hl => h before f (after ++ [e]) (by simp [hl]), h l e [] rfl⟩
  · rintro ⟨hl, he⟩ before f after h
    rcases List.eq_nil_or_concat after with rfl | ⟨after, g, rfl⟩
    · obtain ⟨rfl, rfl⟩ : l = before ∧ e = f := by simpa using List.append_inj' h rfl
      exact he
    · have hassoc : l ++ [e] = (before ++ f :: after) ++ [g] := by
        rw [h]
        simp
      exact hl before f after (List.append_inj' hassoc rfl).1

end Each

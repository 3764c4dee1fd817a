/-
Texts as lists.

A text is the list of its characters, or of its bytes: `cutText` finds the first place where
another text stands in it, `trimStart` and `trimEnd` take one off its ends, and `compact` drops
what repeats its neighbour.  Texts without a mark can be written one after another with the mark
behind each, and be told apart again: `flatMap_ended_inj`.
-/
import Mathlib.Data.List.Infix
import Fern.Lib.Cut

variable {α : Type} [DecidableEq α]

/-- The bytes of a text of ASCII characters. -/
def lit (s : String) : Bytes := s.toList.map fun c => UInt8.ofNat c.toNat

/-- What stands before and after the first `sep`. -/
def cutText (sep : List α) : List α → Option (List α × List α)
  | [] => if sep = [] then some ([], []) else none
  | a :: l =>
    if sep.isPrefixOf (a :: l) then some ([], (a :: l).drop sep.length)
    else (cutText sep l).map fun p => (a :: p.1, p.2)

/-- The text is what stands before, the separator and what stands after. -/
theorem cutText_eq_some {sep l before after : List α} (h : cutText sep l = some (before, after)) :
    l = before ++ sep ++ after := by
  induction l generalizing before after with
  | nil =>
    rw [cutText] at h
    split at h
    case isTrue hsep =>
      obtain ⟨rfl, rfl⟩ := Prod.mk.inj (Option.some.inj h)
      simp [hsep]
    case isFalse => cases h
  | cons a l ih =>
    rw [cutText] at h
    split at h
    case isTrue hstart =>
      obtain ⟨rfl, rfl⟩ := Prod.mk.inj (Option.some.inj h)
      obtain ⟨t, ht⟩ := List.isPrefixOf_iff_prefix.mp hstart
      rw [← ht, List.drop_left, List.nil_append]
    case isFalse =>
      obtain ⟨p, hp, heq⟩ := Option.map_eq_some_iff.mp h
      obtain ⟨rfl, rfl⟩ := Prod.mk.inj heq
      rw [List.cons_append, List.cons_append, ← ih hp]

/-- A separator is found behind what has none of its first elements. -/
theorem cutText_append {a : α} {sep before after : List α} (h : a ∉ before) :
    cutText (a :: sep) (before ++ (a :: sep ++ after)) = some (before, after) := by
  induction before with
  | nil => simp [cutText]
  | cons b before ih =>
    obtain ⟨hne, hrest⟩ := not_or.1 (fun hor => h (List.mem_cons.2 hor))
    have hstart : (a :: sep).isPrefixOf (b :: before ++ (a :: sep ++ after)) = false := by
      simp [List.isPrefixOf, hne]
    rw [List.cons_append] at hstart ⊢
    rw [cutText, if_neg (by rw [hstart]; simp), ih hrest]
    rfl

/-- A text without `start`, if it starts with it. -/
def trimStart (start l : List α) : List α := if start.isPrefixOf l then l.drop start.length else l

/-- A text without `ending`, if it ends with it. -/
def trimEnd (ending l : List α) : List α :=
  if ending.isSuffixOf l then l.take (l.length - ending.length) else l

/-- What follows the last `a`, or everything. -/
def afterLast (a : α) (l : List α) : List α := (l.reverse.takeWhile (· ≠ a)).reverse

/-- Without what repeats the element before it. -/
def compact : List α → List α
  | [] => []
  | a :: l =>
    match compact l with
    | [] => [a]
    | b :: l' => if a = b then b :: l' else a :: b :: l'

theorem mem_compact {a : α} {l : List α} : a ∈ compact l ↔ a ∈ l := by
  induction l with
  | nil => simp [compact]
  | cons b l ih =>
    rw [compact, List.mem_cons, ← ih]
    split
    case h_1 h => simp [h]
    case h_2 c l' h =>
      rw [h]
      split
      case isTrue hbc => simp [hbc]
      case isFalse => simp

/-- Pieces that hold no `mark` are cut out again where each ends. -/
theorem cut_flatMap_ended {mark : α} {l : List (List α)} (h : ∀ x ∈ l, mark ∉ x) :
    cut mark (l.flatMap fun x => x ++ [mark]) = (l, []) := by
  induction l with
  | nil => rfl
  | cons x l ih =>
    have ih := ih fun y hy => h y (List.mem_cons_of_mem _ hy)
    have hx := h x List.mem_cons_self
    rw [List.flatMap_cons]
    induction x with
    | nil =>
      rw [List.nil_append, List.singleton_append, cut_cons_sep, ih]
    | cons a x ihx =>
      obtain ⟨ha, hx⟩ := not_or.mp (fun hor => hx (List.mem_cons.mpr hor))
      rw [List.cons_append, List.cons_append, cut_cons_of_ne (Ne.symm ha),
        ihx (by simpa [hx] using fun y hy => h y (List.mem_cons_of_mem _ hy)) hx]

/-- **Marked pieces are told apart.** -/
theorem flatMap_ended_inj {mark : α} {l l' : List (List α)} (h : ∀ x ∈ l, mark ∉ x)
    (h' : ∀ x ∈ l', mark ∉ x)
    (heq : (l.flatMap fun x => x ++ [mark]) = l'.flatMap fun x => x ++ [mark]) : l = l' := by
  have hcut := congrArg (fun s => (cut mark s).1) heq
  simpa [cut_flatMap_ended h, cut_flatMap_ended h'] using hcut

/-- A text up to its first `mark`. -/
theorem takeWhile_mark {mark : α} {l : List α} (h : mark ∉ l) (rest : List α) :
    (l ++ mark :: rest).takeWhile (· ≠ mark) = l := by
  rw [List.takeWhile_append_of_pos]
  · simp
  · intro a ha
    refine decide_eq_true ?_
    rintro rfl
    exact h ha

/-- Two texts with a mark between them are told apart, if the first has none. -/
theorem append_mark_inj {mark : α} {l l' rest rest' : List α} (h : mark ∉ l) (h' : mark ∉ l')
    (heq : l ++ mark :: rest = l' ++ mark :: rest') : l = l' ∧ rest = rest' := by
  have hl : l = l' := by
    rw [← takeWhile_mark h rest, heq, takeWhile_mark h']
  subst hl
  have hrest := List.append_cancel_left heq
  exact ⟨rfl, (List.cons.inj hrest).2⟩

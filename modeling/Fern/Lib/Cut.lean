/-
Cutting a sequence at a separator.

`cut sep l` is the pieces of `l` that a separator ends, without it, and what comes after the
last separator.  A reader that is given a sequence a part at a time and keeps the unended
rest sees the same pieces, in the same order, however the parts are cut: that is `cut_append`.
-/
import Mathlib.Data.List.Basic

abbrev Bytes := List UInt8

variable {α : Type} [DecidableEq α]

/-- The pieces of `l` that `sep` ends, and the unended rest. -/
def cut (sep : α) : List α → List (List α) × List α
  | [] => ([], [])
  | a :: l =>
    if a = sep then ([] :: (cut sep l).1, (cut sep l).2)
    else
      match cut sep l with
      | ([], rest) => ([], a :: rest)
      | (piece :: pieces, rest) => ((a :: piece) :: pieces, rest)

variable {sep : α}

@[simp] theorem cut_nil : cut sep [] = ([], []) := rfl

theorem cut_cons_sep (l : List α) : cut sep (sep :: l) = ([] :: (cut sep l).1, (cut sep l).2) := by
  simp [cut]

/-- A first element that ends nothing goes to the first piece, or to the rest. -/
theorem cut_cons_of_ne {a : α} (h : a ≠ sep) (l : List α) :
    cut sep (a :: l) =
      match cut sep l with
      | ([], rest) => ([], a :: rest)
      | (piece :: pieces, rest) => ((a :: piece) :: pieces, rest) := by
  simp [cut, h]

/-- **Cutting what comes in parts**: the unended rest of the first is put before the second. -/
theorem cut_append (l l' : List α) :
    cut sep (l ++ l') =
      ((cut sep l).1 ++ (cut sep ((cut sep l).2 ++ l')).1, (cut sep ((cut sep l).2 ++ l')).2) := by
  induction l with
  | nil => simp
  | cons a l ih =>
    by_cases ha : a = sep
    · rw [ha, List.cons_append, cut_cons_sep, cut_cons_sep, ih]
      rfl
    · rw [List.cons_append, cut_cons_of_ne ha, cut_cons_of_ne ha, ih]
      rcases hcut : cut sep l with ⟨_ | ⟨piece, pieces⟩, rest⟩
      · simp only [List.nil_append, List.cons_append]
        rw [cut_cons_of_ne ha]
      · simp

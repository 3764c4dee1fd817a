/-
Finite maps kept as a lookup function.

A lookup function is what proofs want: a write is one `if`, and two writes commute
by comparing their keys.  What a function alone cannot do is list its keys, so a map
carries beside it a list that covers every key it binds.  `complete` is a field and
not a side condition, so a map that binds a key it cannot list is never built.
-/
import Mathlib.Data.List.Dedup

/-- A finite map: a lookup function and a list that covers its domain. -/
structure FinMap (κ ν : Type) where
  get : κ → Option ν
  dom : List κ
  complete : ∀ k, get k ≠ none → k ∈ dom

namespace FinMap

variable {κ ν : Type}

/-- The map that binds nothing. -/
def empty : FinMap κ ν where
  get := fun _ => none
  dom := []
  complete := fun _ h => absurd rfl h

@[simp] theorem get_empty (k : κ) : (empty : FinMap κ ν).get k = none := rfl

variable [DecidableEq κ]

/-- Bind `k` to `v`. -/
def set (m : FinMap κ ν) (k : κ) (v : ν) : FinMap κ ν where
  get := fun q => if q = k then some v else m.get q
  dom := k :: m.dom
  complete := by
    intro q hq
    by_cases h : q = k
    · simp [h]
    · rw [if_neg h] at hq
      exact List.mem_cons_of_mem _ (m.complete q hq)

/-- Unbind every key `p` holds of. -/
def eraseIf (m : FinMap κ ν) (p : κ → Bool) : FinMap κ ν where
  get := fun q => if p q then none else m.get q
  dom := m.dom
  complete := by
    intro q hq
    by_cases h : p q = true
    · simp [h] at hq
    · rw [if_neg h] at hq
      exact m.complete q hq

/-- Unbind `k`. -/
def erase (m : FinMap κ ν) (k : κ) : FinMap κ ν := m.eraseIf (fun q => q = k)

/-- Exchange what `a` and `b` are bound to. -/
def swap (m : FinMap κ ν) (a b : κ) : FinMap κ ν where
  get := fun q => if q = a then m.get b else if q = b then m.get a else m.get q
  dom := a :: b :: m.dom
  complete := by
    intro q hq
    by_cases ha : q = a
    · simp [ha]
    · by_cases hb : q = b
      · simp [hb]
      · rw [if_neg ha, if_neg hb] at hq
        simp [m.complete q hq]

/-- The keys the map binds, each once. -/
def keys (m : FinMap κ ν) : List κ := m.dom.dedup.filter fun k => (m.get k).isSome

theorem nodup_keys (m : FinMap κ ν) : m.keys.Nodup := (List.nodup_dedup _).filter _

theorem mem_keys {m : FinMap κ ν} {k : κ} : k ∈ m.keys ↔ m.get k ≠ none := by
  unfold keys
  rw [List.mem_filter, List.mem_dedup, Option.isSome_iff_ne_none]
  exact ⟨fun h => h.2, fun h => ⟨m.complete k h, h⟩⟩

@[simp] theorem get_set (m : FinMap κ ν) (k q : κ) (v : ν) :
    (m.set k v).get q = if q = k then some v else m.get q := rfl

omit [DecidableEq κ] in
@[simp] theorem get_eraseIf (m : FinMap κ ν) (p : κ → Bool) (q : κ) :
    (m.eraseIf p).get q = if p q then none else m.get q := rfl

@[simp] theorem get_erase (m : FinMap κ ν) (k q : κ) :
    (m.erase k).get q = if q = k then none else m.get q := by
  simp [erase]

@[simp] theorem get_swap (m : FinMap κ ν) (a b q : κ) :
    (m.swap a b).get q = if q = a then m.get b else if q = b then m.get a else m.get q := rfl

end FinMap

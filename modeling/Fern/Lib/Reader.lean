/-
Readers: what is read from them a bit at a time.

A reader is asked for at most so many elements and gives some of them, or an error.  What it
says over a whole sequence of such requests is `drain`.  A reader `Yields` some data and then
an error if every sequence of requests, however it cuts them, gets the data in order, the
error only after all of it, and the error for sure once it has asked often enough.  The rule
`Yields.of_invariant` proves it from one request.

A `Source` is a reader at the bottom: its elements in the pieces in which they happen to
arrive.
-/
import Mathlib.Data.List.Basic

variable {σ α ε : Type}

/-- Ask a reader for at most `n` elements: what it is then, what it gave, and its error. -/
abbrev ReadFn (σ α ε : Type) := σ → Nat → σ × List α × Option ε

/-- Ask for `ns` one after another, until an error. -/
def drain (read : ReadFn σ α ε) : σ → List Nat → List α × Option ε
  | _, [] => ([], none)
  | s, n :: ns =>
    match read s n with
    | (_, data, some e) => (data, some e)
    | (s', data, none) => (data ++ (drain read s' ns).1, (drain read s' ns).2)

/-- However it is read, `s` gives `data` and then the error `e`. -/
structure Yields (read : ReadFn σ α ε) (s : σ) (data : List α) (e : ε) : Prop where
  part : ∀ ns, (drain read s ns).1 <+: data
  whole : ∀ ns e', (drain read s ns).2 = some e' → e' = e ∧ (drain read s ns).1 = data
  ends : ∀ ns, data.length < (ns.filter (0 < ·)).length → (drain read s ns).2 = some e

/-- The rule for readers: a request either gives the next of the data, and something if
anything was asked for, or, when none is left, the error. -/
theorem Yields.of_invariant {read : ReadFn σ α ε} {e : ε} (Inv : σ → List α → Prop)
    (hread : ∀ s data n, Inv s data →
      (∃ s' got rest, read s n = (s', got, none) ∧ data = got ++ rest ∧ Inv s' rest ∧
        (0 < n → got ≠ [])) ∨
      ∃ s', read s n = (s', [], some e) ∧ data = [])
    {s : σ} {data : List α} (hinv : Inv s data) : Yields read s data e := by
  have key : ∀ ns s data, Inv s data →
      (drain read s ns).1 <+: data ∧
      (∀ e', (drain read s ns).2 = some e' → e' = e ∧ (drain read s ns).1 = data) ∧
      (data.length < (ns.filter (0 < ·)).length → (drain read s ns).2 = some e) := by
    intro ns
    induction ns with
    | nil =>
      intro s data _
      refine ⟨List.nil_prefix, nofun, ?_⟩
      intro hlen
      simp at hlen
    | cons n ns ih =>
      intro s data hinv
      rcases hread s data n hinv with ⟨s', got, rest, hstep, rfl, hrest, hgot⟩ | ⟨s', hstep, rfl⟩
      · obtain ⟨hpart, hwhole, hends⟩ := ih s' rest hrest
        simp only [drain, hstep]
        refine ⟨(List.prefix_append_right_inj got).mpr hpart, ?_, ?_⟩
        · intro e' he'
          obtain ⟨rfl, hall⟩ := hwhole e' he'
          exact ⟨rfl, by rw [hall]⟩
        · intro hlen
          refine hends ?_
          by_cases hn : 0 < n
          · have hpos := List.length_pos_of_ne_nil (hgot hn)
            simp only [List.filter_cons, hn, decide_true, if_true, List.length_cons,
              List.length_append] at hlen
            omega
          · simp only [List.filter_cons, hn, decide_false, Bool.false_eq_true, if_false,
              List.length_append] at hlen
            omega
      · simp only [drain, hstep]
        refine ⟨List.nil_prefix, ?_, fun _ => trivial⟩
        intro e' he'
        exact ⟨(Option.some.inj he').symm, trivial⟩
  exact ⟨fun ns => (key ns s data hinv).1, fun ns => (key ns s data hinv).2.1,
    fun ns => (key ns s data hinv).2.2⟩

/-- A reader gives only one thing. -/
theorem Yields.unique {read : ReadFn σ α ε} {s : σ} {data data' : List α} {e e' : ε}
    (h : Yields read s data e) (h' : Yields read s data' e') : data = data' ∧ e = e' := by
  -- enough requests for either to end
  have hend := h.ends (List.replicate (data.length + 1) 1) (by simp)
  obtain ⟨he, hdata⟩ := h'.whole _ _ hend
  obtain ⟨-, hdata'⟩ := h.whole _ _ hend
  exact ⟨hdata'.symm.trans hdata, he⟩

/-- What a reader gives when it still holds `held`: as much of it as was asked for. -/
theorem split_at_request (held rest : List α) (n : Nat) :
    held ++ rest = held.take n ++ (held.drop n ++ rest) := by
  rw [← List.append_assoc, List.take_append_drop]

/-! ### Elements in the pieces in which they arrive -/

/-- The first `n` elements that arrive, or all of them, and what is left. -/
def takeFull : Nat → List (List α) → List α × List (List α)
  | _, [] => ([], [])
  | n, seg :: segs =>
    if n ≤ seg.length then (seg.take n, seg.drop n :: segs)
    else (seg ++ (takeFull (n - seg.length) segs).1, (takeFull (n - seg.length) segs).2)

theorem takeFull_eq (n : Nat) (segs : List (List α)) :
    (takeFull n segs).1 = segs.flatten.take n ∧
      (takeFull n segs).2.flatten = segs.flatten.drop n := by
  induction segs generalizing n with
  | nil => simp [takeFull]
  | cons seg segs ih =>
    obtain ⟨hfirst, hrest⟩ := ih (n - seg.length)
    by_cases hn : n ≤ seg.length
    · simp [takeFull, hn, List.take_append_of_le_length, List.drop_append_of_le_length]
    · simp only [takeFull, hn, if_false, List.flatten_cons, hfirst, hrest]
      have hle : seg.length ≤ n := by omega
      rw [List.take_append, List.drop_append, List.take_of_length_le hle,
        List.drop_of_length_le hle,
        List.nil_append]
      exact ⟨rfl, rfl⟩

/-! ### Pieces of one size -/

/-- `l` in pieces of `size`, the last of which may be shorter; there is always one. -/
def piecesOf (size : Nat) (l : List α) : List (List α) :=
  if _h : 0 < size ∧ size < l.length then l.take size :: piecesOf size (l.drop size) else [l]
termination_by l.length
decreasing_by
  rw [List.length_drop]
  omega

theorem piecesOf_of_le {size : Nat} {l : List α} (h : l.length ≤ size) : piecesOf size l = [l] := by
  rw [piecesOf, dif_neg]
  omega

theorem piecesOf_of_lt {size : Nat} {l : List α} (hpos : 0 < size) (h : size < l.length) :
    piecesOf size l = l.take size :: piecesOf size (l.drop size) := by
  rw [piecesOf, dif_pos ⟨hpos, h⟩]

theorem flatten_piecesOf (size : Nat) (l : List α) : (piecesOf size l).flatten = l := by
  fun_induction piecesOf size l with
  | case1 l h ih => rw [List.flatten_cons, ih, List.take_append_drop]
  | case2 l h => simp

theorem piecesOf_ne_nil (size : Nat) (l : List α) : piecesOf size l ≠ [] := by
  unfold piecesOf
  split <;> simp

theorem length_piecesOf_le {size : Nat} (hpos : 0 < size) {l : List α} {m : Nat} (hm : 0 < m)
    (h : l.length ≤ m * size) : (piecesOf size l).length ≤ m := by
  induction m generalizing l with
  | zero => omega
  | succ m ih =>
    by_cases hl : l.length ≤ size
    · rw [piecesOf_of_le hl, List.length_singleton]
      omega
    · rw [Nat.succ_mul] at h
      have hm : 0 < m := by
        rcases Nat.eq_zero_or_pos m with rfl | hm
        · omega
        · exact hm
      have := ih hm (l := l.drop size) (by rw [List.length_drop]; omega)
      rw [piecesOf_of_lt hpos (by omega), List.length_cons]
      omega

/-- `ls` are pieces of `size`: all but the last are full, and the last isn't empty unless it is
the only one. -/
def Sized (size : Nat) : List (List α) → Prop
  | [] => False
  | [l] => l.length ≤ size
  | l :: ls => l.length = size ∧ ls.flatten ≠ [] ∧ Sized size ls

theorem sized_cons {size : Nat} {l : List α} {ls : List (List α)} (h : ls ≠ []) :
    Sized size (l :: ls) ↔ l.length = size ∧ ls.flatten ≠ [] ∧ Sized size ls := by
  cases ls with
  | nil => exact absurd rfl h
  | cons l' ls => rfl

theorem sized_piecesOf {size : Nat} (hpos : 0 < size) (l : List α) :
    Sized size (piecesOf size l) := by
  fun_induction piecesOf size l with
  | case1 l h ih =>
    refine (sized_cons (piecesOf_ne_nil size _)).mpr ⟨?_, ?_, ih⟩
    · rw [List.length_take]
      omega
    · rw [flatten_piecesOf]
      intro hnil
      have := congrArg List.length hnil
      rw [List.length_drop, List.length_nil] at this
      omega
  | case2 l h =>
    simp only [Sized]
    omega

/-- Pieces of a size are how what they make up is cut. -/
theorem piecesOf_flatten {size : Nat} (hpos : 0 < size) {ls : List (List α)}
    (h : Sized size ls) : piecesOf size ls.flatten = ls := by
  induction ls with
  | nil => exact absurd h id
  | cons l ls ih =>
    by_cases hls : ls = []
    · subst hls
      simp only [Sized] at h
      simpa using piecesOf_of_le h
    · obtain ⟨hlen, hne, hrest⟩ := (sized_cons hls).mp h
      have hlong := List.length_pos_of_ne_nil hne
      rw [List.flatten_cons, piecesOf_of_lt hpos (by rw [List.length_append]; omega),
        List.take_append_of_le_length (by omega), List.take_of_length_le (by omega),
        List.drop_append_of_le_length (by omega), List.drop_of_length_le (by omega),
        List.nil_append, ih hrest]

/-- A piece that isn't the last is full. -/
theorem Sized.length_eq {size : Nat} {ls : List (List α)} (h : Sized size ls) {k : Nat}
    {l : List α} (hk : ls[k]? = some l) (hlast : k + 1 ≠ ls.length) : l.length = size := by
  induction ls generalizing k with
  | nil => exact absurd h id
  | cons l' ls ih =>
    by_cases hls : ls = []
    · subst hls
      cases k with
      | zero => simp at hlast
      | succ k => simp at hk
    · obtain ⟨hlen, -, hrest⟩ := (sized_cons hls).mp h
      cases k with
      | zero =>
        rw [List.getElem?_cons_zero, Option.some.injEq] at hk
        rw [← hk]
        exact hlen
      | succ k =>
        refine ih hrest (by simpa using hk) ?_
        rw [List.length_cons] at hlast
        omega

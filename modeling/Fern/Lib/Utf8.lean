/-
UTF-8 as bytes.

Which bytes begin with a well-formed character is a table over the first byte.  A reader that
meets a byte no character begins at puts the replacement character in its place, one for each such
byte, and goes on with the next; so what it makes is as long as what it read just if there was none.
-/
import Fern.Lib.Cut

namespace Utf8

open List

/-- Whether a byte continues a character. -/
def isTail (b : UInt8) : Bool := 0x80 ≤ b && b ≤ 0xBF

/-- The bounds of the second byte of a character, by the first: they leave out the surrogates, what
has a shorter form, and what is above the last character. -/
def second (b : UInt8) : UInt8 × UInt8 :=
  if b = 0xE0 then (0xA0, 0xBF)
  else if b = 0xED then (0x80, 0x9F)
  else if b = 0xF0 then (0x90, 0xBF)
  else if b = 0xF4 then (0x80, 0x8F)
  else (0x80, 0xBF)

/-- How many bytes a character has, by its first; 0 for a byte none begins with. -/
def width (b : UInt8) : Nat :=
  if b < 0x80 then 1
  else if b < 0xC2 then 0
  else if b < 0xE0 then 2
  else if b < 0xF0 then 3
  else if b ≤ 0xF4 then 4
  else 0

/-- How many bytes the character that `b :: rest` begins with has after its first. -/
def character (b : UInt8) (rest : Bytes) : Option Nat :=
  match width b, rest with
  | 1, _ => some 0
  | 2, c :: _ => if isTail c then some 1 else none
  | 3, c :: d :: _ => if (second b).1 ≤ c && c ≤ (second b).2 && isTail d then some 2 else none
  | 4, c :: d :: e :: _ =>
    if (second b).1 ≤ c && c ≤ (second b).2 && isTail d && isTail e then some 3 else none
  | _, _ => none

/-- The replacement character. -/
def replacement : Bytes := [0xEF, 0xBF, 0xBD]

/-- Bytes with the replacement character for each that is no part of a character; the first `skip`
are known to be. -/
def coerceFrom : Nat → Bytes → Bytes
  | _, [] => []
  | skip + 1, b :: rest => b :: coerceFrom skip rest
  | 0, b :: rest =>
    match character b rest with
    | some more => b :: coerceFrom more rest
    | none => replacement ++ coerceFrom 0 rest

def coerce (bytes : Bytes) : Bytes := coerceFrom 0 bytes

/-- Whether bytes are characters one after another, the first `skip` apart. -/
def validFrom : Nat → Bytes → Bool
  | _, [] => true
  | skip + 1, _ :: rest => validFrom skip rest
  | 0, b :: rest =>
    match character b rest with
    | some more => validFrom more rest
    | none => false

def valid (bytes : Bytes) : Bool := validFrom 0 bytes

theorem coerceFrom_of_valid : ∀ (bytes : Bytes) (skip : Nat),
    validFrom skip bytes = true → coerceFrom skip bytes = bytes := by
  intro bytes
  induction bytes with
  | nil => intro skip _; rfl
  | cons b rest ih =>
    intro skip h
    cases skip with
    | succ skip => rw [coerceFrom, ih skip h]
    | zero =>
      rw [validFrom] at h
      rw [coerceFrom]
      cases hc : character b rest with
      | some more =>
        rw [hc] at h
        exact congrArg (b :: ·) (ih more h)
      | none =>
        rw [hc] at h
        cases h

theorem length_le_coerceFrom : ∀ (bytes : Bytes) (skip : Nat),
    bytes.length ≤ (coerceFrom skip bytes).length := by
  intro bytes
  induction bytes with
  | nil => intro skip; exact Nat.zero_le _
  | cons b rest ih =>
    intro skip
    cases skip with
    | succ skip =>
      have := ih skip
      simp only [coerceFrom, length_cons]
      omega
    | zero =>
      rw [coerceFrom]
      cases hc : character b rest with
      | some more =>
        have := ih more
        simp only [length_cons]
        omega
      | none =>
        have := ih 0
        simp only [replacement, length_append, length_cons, length_nil]
        omega

/-- Every byte replaced makes the whole longer. -/
theorem length_lt_coerceFrom : ∀ (bytes : Bytes) (skip : Nat),
    validFrom skip bytes = false → bytes.length < (coerceFrom skip bytes).length := by
  intro bytes
  induction bytes with
  | nil => intro skip h; cases skip <;> cases h
  | cons b rest ih =>
    intro skip h
    cases skip with
    | succ skip =>
      have := ih skip h
      simp only [coerceFrom, length_cons]
      omega
    | zero =>
      rw [validFrom] at h
      rw [coerceFrom]
      cases hc : character b rest with
      | some more =>
        rw [hc] at h
        have := ih more h
        simp only [length_cons]
        omega
      | none =>
        have := length_le_coerceFrom rest 0
        simp only [replacement, length_append, length_cons, length_nil]
        omega

theorem length_le_coerce (bytes : Bytes) : bytes.length ≤ (coerce bytes).length :=
  length_le_coerceFrom bytes 0

theorem coerce_of_valid {bytes : Bytes} (h : valid bytes = true) : coerce bytes = bytes :=
  coerceFrom_of_valid bytes 0 h

/-- Nothing is replaced in valid bytes, and only there does the length stay. -/
theorem length_coerce_eq_iff (bytes : Bytes) :
    (coerce bytes).length = bytes.length ↔ valid bytes = true := by
  constructor
  · intro h
    by_contra hc
    have := length_lt_coerceFrom bytes 0 (by simpa [valid] using hc)
    rw [coerce] at h
    omega
  · intro h
    rw [coerce_of_valid h]

/-- Pieces read one by one come out as they are just if each is valid: a byte replaced in one makes
the whole longer, and no other piece makes up for it. -/
theorem flatMap_coerce_eq_iff (pieces : List Bytes) :
    pieces.flatMap coerce = pieces.flatten ↔ ∀ piece ∈ pieces, valid piece = true := by
  constructor
  · intro h
    have hlen (pieces : List Bytes) :
        pieces.flatten.length ≤ (pieces.flatMap coerce).length := by
      induction pieces with
      | nil => exact Nat.le_refl _
      | cons piece pieces ih =>
        have := length_le_coerce piece
        simp only [flatten_cons, flatMap_cons, length_append]
        omega
    induction pieces with
    | nil => intro piece hp; cases hp
    | cons piece pieces ih =>
      rw [flatMap_cons, flatten_cons] at h
      have hsum := congrArg List.length h
      simp only [length_append] at hsum
      have hfirst : (coerce piece).length = piece.length := by
        have := length_le_coerce piece
        have := hlen pieces
        omega
      have hrest := (append_inj h hfirst).2
      intro p hp
      rcases mem_cons.1 hp with rfl | hp
      · exact (length_coerce_eq_iff p).1 hfirst
      · exact ih hrest p hp
  · intro h
    rw [flatMap_def, map_congr_left fun piece hp => coerce_of_valid (h piece hp),
      map_id']

example : coerce [0x68, 0xC3, 0xA9] = [0x68, 0xC3, 0xA9] := by decide

example : coerce [0xC3] = replacement := by decide

/-! ### The characters of a text -/

/-- The character of `b` and the bytes that continue it. -/
def scalar (b : UInt8) (tail : Bytes) : Char :=
  let lead := match tail.length with
    | 0 => b.toNat
    | 1 => b.toNat % 32
    | 2 => b.toNat % 16
    | _ => b.toNat % 8
  Char.ofNat (tail.foldl (fun n c => 64 * n + c.toNat % 64) lead)

/-- The characters of bytes, the first `skip` apart; a byte that is no part of one reads as the
replacement character. -/
def runesFrom : Nat → Bytes → List Char
  | _, [] => []
  | skip + 1, _ :: rest => runesFrom skip rest
  | 0, b :: rest =>
    match character b rest with
    | some more => scalar b (rest.take more) :: runesFrom more rest
    | none => Char.ofNat 0xFFFD :: runesFrom 0 rest

def runes (bytes : Bytes) : List Char := runesFrom 0 bytes

example : runes [0x68, 0xC3, 0xA9, 0xC3, 0xE2, 0x82, 0xAC] =
    ['h', 'é', Char.ofNat 0xFFFD, '€'] := by decide

end Utf8

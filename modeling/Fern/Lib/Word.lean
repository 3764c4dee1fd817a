/-
Machine words as bytes, the lowest first or the highest first.
-/
import Fern.Lib.Cut
import Mathlib.Algebra.Ring.Nat

namespace Word

/-- The number bytes stand for, the lowest first. -/
def ofLittle : Bytes → Nat
  | [] => 0
  | b :: bytes => b.toNat + 256 * ofLittle bytes

/-- The `n` lowest bytes of a number, the lowest first. -/
def toLittle : Nat → Nat → Bytes
  | 0, _ => []
  | n + 1, v => UInt8.ofNat v :: toLittle n (v / 256)

/-- The number bytes stand for; with `big` the highest comes first. -/
def read (big : Bool) (bytes : Bytes) : Nat := ofLittle (if big then bytes.reverse else bytes)

/-- The `n` lowest bytes of a number; with `big` the highest first. -/
def write (big : Bool) (n v : Nat) : Bytes :=
  if big then (toLittle n v).reverse else toLittle n v

theorem length_toLittle (n v : Nat) : (toLittle n v).length = n := by
  induction n generalizing v with
  | zero => rfl
  | succ n ih => rw [toLittle, List.length_cons, ih]

theorem ofLittle_toLittle {n v : Nat} (h : v < 256 ^ n) : ofLittle (toLittle n v) = v := by
  induction n generalizing v with
  | zero =>
    rw [Nat.pow_zero] at h
    simp only [toLittle, ofLittle]
    omega
  | succ n ih =>
    have hrest : v / 256 < 256 ^ n := by
      rw [Nat.pow_succ] at h
      omega
    have hbyte : (UInt8.ofNat v).toNat = v % 256 := UInt8.toNat_ofNat'
    rw [toLittle, ofLittle, ih hrest, hbyte]
    omega

@[simp] theorem length_write (big : Bool) (n v : Nat) : (write big n v).length = n := by
  cases big <;> simp [write, length_toLittle]

/-- **Round trip.** -/
theorem read_write (big : Bool) {n v : Nat} (h : v < 256 ^ n) : read big (write big n v) = v := by
  cases big <;> simp [read, write, ofLittle_toLittle h]

end Word

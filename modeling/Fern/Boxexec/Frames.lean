/-
Frames: how a stream is put on a WebSocket.

A frame is a binary message whose first byte says what it carries.  A frame writer sends what is
written to it, or what it reads, through one buffer that it reuses and that grows when the stream is
busy.  The buffer is the frame: its first byte is the kind, and what is copied or read goes behind
it.
-/
import Fern.Lib.Cut

namespace Fern

open List

namespace Boxexec

/-- Frame kinds. -/
inductive Kind where
  | stdin
  | stdout
  | stderr
  | stdinEOF
  | resize
  | signal
  deriving DecidableEq

/-- The first byte of a binary message. -/
def Kind.byte : Kind → UInt8
  | stdin => 0
  | stdout => 1
  | stderr => 2
  | stdinEOF => 3
  | resize => 4
  | signal => 5

/-- `frameData`: the most data in one frame. -/
def frameData : Nat := 65536

def initialFrameData : Nat := 4096

/-- `frameWriter`: its buffer has room for the kind and something more. -/
structure FrameWriter where
  buf : Bytes
  two_le : 2 ≤ buf.length
  le : buf.length ≤ 1 + frameData

namespace FrameWriter

/-- `frames`. -/
def new (kind : Kind) : FrameWriter where
  buf := kind.byte :: List.replicate initialFrameData 0
  two_le := by
    rw [length_cons, length_replicate]
    decide
  le := by
    rw [length_cons, length_replicate]
    decide

/-- `buf[0]`. -/
def kind (w : FrameWriter) : UInt8 := w.buf.headD 0

/-- `len(buf[1:])`. -/
def room (w : FrameWriter) : Nat := w.buf.length - 1

/-- `grow`. -/
def grow (w : FrameWriter) (size : Nat) (two_le : 2 ≤ size) (le : size ≤ 1 + frameData) :
    FrameWriter where
  buf := w.kind :: List.replicate (size - 1) 0
  two_le := by
    simp only [length_cons, length_replicate]
    omega
  le := by
    simp only [length_cons, length_replicate]
    omega

/-- What of `p` fits behind the kind. -/
def fits (w : FrameWriter) (p : Bytes) : Bytes := p.take w.room

/-- `copy(buf[1:], p)`, or a read of `p` into it. -/
def fill (w : FrameWriter) (p : Bytes) : FrameWriter where
  buf := w.kind :: (w.fits p ++ w.buf.drop (1 + (w.fits p).length))
  two_le := by
    have := w.two_le
    simp only [fits, room, length_cons, length_append, length_take, length_drop]
    omega
  le := by
    have := w.two_le
    have := w.le
    simp only [fits, room, length_cons, length_append, length_take, length_drop]
    omega

/-- `buf[:1+n]`. -/
def frame (w : FrameWriter) (n : Nat) : Bytes := w.buf.take (1 + n)

theorem room_pos (w : FrameWriter) : 0 < w.room := by
  have := w.two_le
  unfold room
  omega

/-- The loop of `Write`: the frames sent. -/
def sendAll (w : FrameWriter) (p : Bytes) : FrameWriter × List Bytes :=
  if _h : p = [] then (w, [])
  else
    let sent := (w.fill p).frame (w.fits p).length
    let rest := (w.fill p).sendAll (p.drop (w.fits p).length)
    (rest.1, sent :: rest.2)
termination_by p.length
decreasing_by
  have hp := length_pos_of_ne_nil _h
  have := w.room_pos
  simp only [fits, length_drop, length_take]
  omega

/-- `Write`. -/
def write (w : FrameWriter) (p : Bytes) : FrameWriter × List Bytes :=
  if h : w.buf.length < 1 + min p.length frameData then
    (w.grow (1 + min p.length frameData) (by have := w.two_le; omega) (by omega)).sendAll p
  else w.sendAll p

/-- One `Write` after another. -/
def writes (w : FrameWriter) : List Bytes → FrameWriter × List Bytes
  | [] => (w, [])
  | p :: ps => (((w.write p).1.writes ps).1, (w.write p).2 ++ ((w.write p).1.writes ps).2)

/-- What `ReadFrom` does after a read of `n` bytes. -/
def afterRead (w : FrameWriter) (n : Nat) : FrameWriter :=
  if n = w.room ∧ w.buf.length < 1 + frameData then
    w.grow (1 + frameData) (by simp [frameData]) (Nat.le_refl _)
  else w

end FrameWriter

/-! ### Readers -/

/-- A stream, and how much of it the next reads will give at most; the one after them gives what is
left. -/
structure Supply where
  rest : Bytes
  wants : List Nat

/-- What a read of at most `k` bytes gives: the data, whether the stream has ended, and what is
left.  A read may give nothing, and the end may come with the last data. -/
def Supply.read (s : Supply) (k : Nat) : Bytes × Bool × Supply :=
  match s.wants with
  | [] => (s.rest.take k, s.rest.length ≤ k, ⟨s.rest.drop k, []⟩)
  | want :: wants => (s.rest.take (min want k), false, ⟨s.rest.drop (min want k), wants⟩)

/-- What the reads to come depend on. -/
def Supply.size (s : Supply) : Nat := s.wants.length + s.rest.length

theorem Supply.read_size {s : Supply} {k : Nat} (hk : 0 < k) (h : (s.read k).2.1 = false) :
    (s.read k).2.2.size < s.size := by
  unfold Supply.read Supply.size at *
  cases hw : s.wants with
  | nil =>
    simp only [hw, decide_eq_false_iff_not, length_drop, length_nil] at h ⊢
    omega
  | cons want wants =>
    simp only [length_drop, length_cons]
    omega

/-- `ReadFrom`: the frames sent until the end. -/
def FrameWriter.readFrom (w : FrameWriter) (s : Supply) : FrameWriter × List Bytes :=
  let data := (s.read w.room).1
  let sent := if data = [] then [] else [(w.fill data).frame data.length]
  if _h : (s.read w.room).2.1 = true then (w.fill data, sent)
  else
    let rest := ((w.fill data).afterRead data.length).readFrom (s.read w.room).2.2
    (rest.1, sent ++ rest.2)
termination_by s.size
decreasing_by exact Supply.read_size w.room_pos (Bool.eq_false_iff.2 _h)

end Boxexec

end Fern

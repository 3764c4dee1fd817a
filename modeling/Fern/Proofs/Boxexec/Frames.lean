/-
What the frames of a stream carry.

Whatever is in the buffer, the frame that is sent has the writer's kind and then exactly what was
copied or read; and a buffer never grows beyond what a frame may carry.  So the frames carry the
stream, however it is cut.
-/
import Fern.Boxexec.Frames

namespace Fern

open List

namespace Boxexec

variable {w : FrameWriter} {p data stream stream' : Bytes} {frames frames' :
  List Bytes} {kind : UInt8}

/-- The frames carry `stream` as frames of one kind. -/
structure Framed (kind : UInt8) (stream : Bytes) (frames : List Bytes) : Prop where
  each : ∀ f ∈ frames, ∃ data, f = kind :: data ∧ 1 ≤ data.length ∧ data.length ≤ frameData
  all : (frames.map List.tail).flatten = stream

theorem Framed.nil (kind : UInt8) : Framed kind [] [] := ⟨by simp, rfl⟩

theorem Framed.append (h : Framed kind stream frames) (h' : Framed kind stream' frames') :
    Framed kind (stream ++ stream') (frames ++ frames') := by
  refine ⟨?_, ?_⟩
  · intro f hf
    rcases mem_append.1 hf with hf | hf
    · exact h.each f hf
    · exact h'.each f hf
  · rw [map_append, flatten_append, h.all, h'.all]

theorem Framed.single (h : 1 ≤ data.length) (h' : data.length ≤ frameData) :
    Framed kind data [kind :: data] := by
  refine ⟨?_, by simp⟩
  intro f hf
  exact ⟨data, mem_singleton.1 hf, h, h'⟩

namespace FrameWriter

@[simp] theorem kind_fill (w : FrameWriter) (p : Bytes) : (w.fill p).kind = w.kind := rfl

@[simp] theorem kind_grow (w : FrameWriter) (size : Nat) (two_le : 2 ≤ size)
    (le : size ≤ 1 + frameData) : (w.grow size two_le le).kind = w.kind := rfl

@[simp] theorem kind_afterRead (w : FrameWriter) (n : Nat) : (w.afterRead n).kind = w.kind := by
  unfold afterRead
  split
  · rfl
  · rfl

theorem room_le (w : FrameWriter) : w.room ≤ frameData := by
  have := w.le
  unfold room
  omega

theorem length_fits (w : FrameWriter) (p : Bytes) : (w.fits p).length = min w.room p.length := by
  unfold fits
  rw [length_take]

theorem length_fits_le (w : FrameWriter) (p : Bytes) : (w.fits p).length ≤ frameData := by
  have := w.room_le
  rw [length_fits]
  omega

/-- **The frame is the kind and what was copied.** -/
theorem frame_fill (w : FrameWriter) (p : Bytes) :
    (w.fill p).frame (w.fits p).length = w.kind :: w.fits p := by
  show (w.kind :: (w.fits p ++ w.buf.drop (1 + (w.fits p).length))).take (1 + (w.fits p).length) = _
  rw [Nat.add_comm 1, take_succ_cons, take_left' rfl]

theorem fits_of_le (h : data.length ≤ w.room) : w.fits data = data := take_of_length_le h

theorem fits_append_drop (w : FrameWriter) (p : Bytes) :
    w.fits p ++ p.drop (w.fits p).length = p :=
  prefix_iff_eq_append.1 ( take_prefix w.room p)

theorem framed_sendAll (w : FrameWriter) (p : Bytes) :
    Framed w.kind p (w.sendAll p).2 ∧ (w.sendAll p).1.kind = w.kind := by
  induction w, p using sendAll.induct with
  | case1 w =>
    rw [sendAll, dif_pos rfl]
    exact ⟨.nil _, rfl⟩
  | case2 w p hp ih =>
    rw [sendAll, dif_neg hp]
    obtain ⟨hrest, hkind⟩ := ih
    refine ⟨?_, hkind⟩
    have hpos := length_pos_of_ne_nil hp
    have hroom := w.room_pos
    have hone : 1 ≤ (w.fits p).length := by
      rw [length_fits]
      omega
    have hall := (Framed.single hone (w.length_fits_le p)).append hrest
    rw [fits_append_drop] at hall
    show Framed w.kind p ((w.fill p).frame _ :: _)
    rw [frame_fill]
    exact hall

theorem framed_write (w : FrameWriter) (p : Bytes) :
    Framed w.kind p (w.write p).2 ∧ (w.write p).1.kind = w.kind := by
  unfold write
  split
  · have hgrown := framed_sendAll (w.grow (1 + min p.length frameData)
      (by have := w.two_le; omega) (by omega)) p
    rw [kind_grow] at hgrown
    exact hgrown
  · exact framed_sendAll w p

/-- **Writes carry what they are given, however it is cut.** -/
theorem framed_writes (w : FrameWriter) (ps : List Bytes) :
    Framed w.kind ps.flatten (w.writes ps).2 := by
  induction ps generalizing w with
  | nil => exact .nil _
  | cons p ps ih =>
    obtain ⟨hfirst, hkind⟩ := w.framed_write p
    have hrest := ih (w.write p).1
    rw [hkind] at hrest
    exact hfirst.append hrest

end FrameWriter

theorem Supply.read_spec (s : Supply) (k : Nat) :
    (s.read k).1.length ≤ k ∧ s.rest = (s.read k).1 ++ (s.read k).2.2.rest ∧
      ((s.read k).2.1 = true → (s.read k).2.2.rest = []) := by
  unfold Supply.read
  cases s.wants with
  | nil =>
    refine ⟨?_, (take_append_drop k s.rest).symm, ?_⟩
    · rw [length_take]
      omega
    · intro hend
      exact drop_of_length_le (of_decide_eq_true hend)
  | cons want wants =>
    refine ⟨?_, (take_append_drop (min want k) s.rest).symm, ?_⟩
    · rw [length_take]
      omega
    · intro hend
      cases hend

theorem framed_read (w : FrameWriter) (h : data.length ≤ w.room) :
    Framed w.kind data (if data = [] then [] else [(w.fill data).frame data.length]) := by
  by_cases hd : data = []
  · rw [if_pos hd, hd]
    exact .nil _
  · rw [if_neg hd]
    have hpos := length_pos_of_ne_nil hd
    have hframe := w.frame_fill data
    rw [FrameWriter.fits_of_le h] at hframe
    rw [hframe]
    exact .single hpos (Nat.le_trans h w.room_le)

/-- **Reads carry the stream, however it is cut.** -/
theorem framed_readFrom (w : FrameWriter) (s : Supply) :
    Framed w.kind s.rest (w.readFrom s).2 := by
  induction w, s using FrameWriter.readFrom.induct with
  | case1 w s h =>
    obtain ⟨hle, hsplit, hend⟩ := s.read_spec w.room
    rw [FrameWriter.readFrom, dif_pos h, hsplit, hend h, append_nil]
    exact framed_read w hle
  | case2 w s data h ih =>
    obtain ⟨hle, hsplit, -⟩ := s.read_spec w.room
    rw [FrameWriter.readFrom, dif_neg h]
    rw [FrameWriter.kind_afterRead, FrameWriter.kind_fill] at ih
    have hall := (framed_read w hle).append ih
    rw [← hsplit] at hall
    exact hall

end Boxexec

end Fern

/-
What readings of a job's output give.

A job holds the newest of the bytes written since the last reading and counts the others, however
they are cut into writes.  So a reading gets just these bytes; but it gets them as a JSON string.  A
character that a reading cuts in two, or whose first bytes were dropped, is no character any more
and comes out as replacements, which are longer: the readings are faithful just if each piece read
is valid by itself.
-/
import Fern.Boxexec.Jobs

namespace Fern

open List

namespace Boxexec

/-- How many of the bytes are more than a job keeps. -/
def beyond (bytes : Bytes) : Nat := bytes.length - maxJobOutput

/-- The newest bytes, those it keeps. -/
def newest (bytes : Bytes) : Bytes := bytes.drop (beyond bytes)

@[simp] theorem beyond_nil : beyond [] = 0 := Nat.zero_sub _

@[simp] theorem newest_nil : newest [] = [] := drop_nil

theorem length_newest (bytes : Bytes) : (newest bytes).length + beyond bytes = bytes.length := by
  simp only [newest, beyond, length_drop]
  omega

theorem length_newest_le (bytes : Bytes) : (newest bytes).length ≤ maxJobOutput := by
  simp only [newest, beyond, length_drop]
  omega

theorem newest_of_beyond {bytes : Bytes} (h : beyond bytes = 0) : newest bytes = bytes := by
  rw [newest, h, drop_zero]

/-! ### A job keeps the newest -/

theorem Job.out_write (j : Job) (p : Bytes) : (j.write p).out = newest (j.out ++ p) := by
  simp only [Job.write, newest, beyond]

theorem Job.dropped_write (j : Job) (p : Bytes) :
    (j.write p).dropped = j.dropped + beyond (j.out ++ p) := by
  simp only [Job.write, beyond]

/-- The job holds the newest of `since`. -/
structure Job.Holds (j : Job) (since : Bytes) : Prop where
  out : j.out = newest since
  dropped : j.dropped = beyond since

/-- What a write drops is what is beyond the bound of all there is since the last reading. -/
theorem Job.Holds.write {j : Job} {since : Bytes} (h : j.Holds since) (p : Bytes) :
    (j.write p).Holds (since ++ p) := by
  have hlen := length_newest since
  have hle := length_newest_le since
  have hover : beyond since + beyond (newest since ++ p) = beyond (since ++ p) := by
    simp only [beyond, length_append] at hlen ⊢
    omega
  constructor
  · have hkept : newest since ++ p = (since ++ p).drop (beyond since) := by
      rw [drop_append_of_le_length (by omega), newest]
    rw [Job.out_write, h.out, newest, hkept, drop_drop, ← hkept, hover, newest]
  · rw [Job.dropped_write, h.out, h.dropped, hover]

theorem Job.holds_nil (j : Job) : j.forgets.Holds [] := ⟨newest_nil.symm, beyond_nil.symm⟩

/-! ### Every session -/

/-- What holds of a session: the job has the newest of what is unread, the readings got the newest
of what was, and after one that saw the job ended there is nothing more. -/
structure Session.Ok (s : Session) : Prop where
  holds : s.job.Holds s.since
  written : s.written = (s.readings.map Reading.since).flatten ++ s.since
  output : ∀ r ∈ s.readings, r.got.output = Utf8.coerce (newest r.since)
  dropped : ∀ r ∈ s.readings, r.got.dropped = beyond r.since
  finished : ∀ r ∈ s.readings, r.got.running = false → s.job.ended = true ∧ s.since = []
  later : s.readings.Pairwise fun r r' => r.got.running = false → r'.since = []

namespace Session.Ok

variable {s : Session}

theorem writes (h : s.Ok) (hrunning : s.job.ended = false) (p : Bytes) :
    Session.Ok { s with
      job := s.job.write p, written := s.written ++ p, since := s.since ++ p } where
  holds := h.holds.write p
  written := by
    show s.written ++ p = _
    rw [h.written, append_assoc]
  output := h.output
  dropped := h.dropped
  finished := by
    intro r hr hdone
    have hended := (h.finished r hr hdone).1
    rw [hrunning] at hended
    cases hended
  later := h.later

/-- A change to the job that leaves its output as it is, and doesn't take back its end. -/
theorem moves (h : s.Ok) {j : Job} (hout : j.out = s.job.out) (hdropped : j.dropped = s.job.dropped)
    (hended : s.job.ended = true → j.ended = true) : Session.Ok { s with job := j } where
  holds := ⟨hout.trans h.holds.out, hdropped.trans h.holds.dropped⟩
  written := h.written
  output := h.output
  dropped := h.dropped
  finished := fun r hr hdone => ⟨hended (h.finished r hr hdone).1, (h.finished r hr hdone).2⟩
  later := h.later

theorem reads (h : s.Ok) {done : Bool} (hdone : done = true → s.job.ended = true) :
    Session.Ok { s with
      job := s.job.forgets, since := [],
      readings := s.readings ++ [⟨s.since, (s.job.taken done).carried⟩] } where
  holds := s.job.holds_nil
  written := by
    show s.written = _
    rw [h.written]
    simp
  output := by
    intro r hr
    rcases mem_append.1 hr with hr | hr
    · exact h.output r hr
    · obtain rfl := mem_singleton.1 hr
      show Utf8.coerce s.job.out = _
      rw [h.holds.out]
  dropped := by
    intro r hr
    rcases mem_append.1 hr with hr | hr
    · exact h.dropped r hr
    · obtain rfl := mem_singleton.1 hr
      exact h.holds.dropped
  finished := by
    intro r hr hsaw
    rcases mem_append.1 hr with hr | hr
    · exact ⟨(h.finished r hr hsaw).1, rfl⟩
    · obtain rfl := mem_singleton.1 hr
      have hsaw : (!done) = false := hsaw
      exact ⟨hdone (by simpa using hsaw), rfl⟩
  later := by
    rw [pairwise_append]
    refine ⟨h.later, pairwise_singleton _ _, ?_⟩
    intro r hr r' hr' hsaw
    obtain rfl := mem_singleton.1 hr'
    exact (h.finished r hr hsaw).2

theorem step {s' : Session} (h : s.Ok) (hstep : SessionStep s s') : s'.Ok := by
  cases hstep with
  | writes p hrunning => exact h.writes hrunning p
  | ends code hrunning => exact h.moves rfl rfl fun _ => rfl
  | kills => exact h.moves rfl rfl id
  | reads done hdone => exact h.reads hdone

end Session.Ok

theorem Session.Reached.ok {s : Session} (h : s.Reached) : s.Ok := by
  induction h with
  | starts id => exact ⟨Job.holds_nil { id := id }, rfl, by simp, by simp, by simp,
    List.Pairwise.nil⟩
  | step _ hstep ih => exact ih.step hstep

/-! ### Readings lose nothing -/

/-- What the readings are to give. -/
structure Session.Faithful (s : Session) : Prop where
  /-- Where none reported bytes dropped, together they are what was written up to the last. -/
  whole : (∀ r ∈ s.readings, r.got.dropped = 0) →
    s.readings.flatMap (fun r => r.got.output) ++ s.since = s.written
  /-- Else each gives the newest of the bytes since the one before, and counts the others. -/
  newest : (∃ r ∈ s.readings, r.got.dropped ≠ 0) → ∀ r ∈ s.readings,
    r.got.dropped + r.got.output.length = r.since.length ∧ r.got.output <:+ r.since ∧
      r.got.output.length ≤ maxJobOutput
  /-- After one that says the job isn't running, there is no more output. -/
  last : s.readings.Pairwise fun r r' => r.got.running = false → r'.got.output = []

namespace Session.Ok

variable {s : Session}

theorem outputs (h : s.Ok) : s.readings.flatMap (fun r => r.got.output) =
    (s.readings.map fun r => Boxexec.newest r.since).flatMap Utf8.coerce := by
  rw [flatMap_map, flatMap_def, flatMap_def, map_congr_left h.output]

theorem pieces (h : s.Ok) (hall : ∀ r ∈ s.readings, r.got.dropped = 0) :
    s.readings.map (fun r => Boxexec.newest r.since) = s.readings.map Reading.since := by
  refine map_congr_left fun r hr => newest_of_beyond ?_
  rw [← h.dropped r hr]
  exact hall r hr

theorem last (h : s.Ok) :
    s.readings.Pairwise fun r r' => r.got.running = false → r'.got.output = [] := by
  refine h.later.imp_of_mem ?_
  intro r r' _ hr' hlater hdone
  rw [h.output r' hr', hlater hdone, newest_nil]
  rfl

/-- The whole is right just if every piece is valid. -/
theorem whole_iff (h : s.Ok) (hall : ∀ r ∈ s.readings, r.got.dropped = 0) :
    s.readings.flatMap (fun r => r.got.output) ++ s.since = s.written ↔
      ∀ r ∈ s.readings, Utf8.valid (Boxexec.newest r.since) = true := by
  rw [h.written, append_left_inj, h.outputs, ← h.pieces hall, Utf8.flatMap_coerce_eq_iff]
  simp

/-- A reading has the bytes it counts just if its piece is valid. -/
theorem newest_iff (h : s.Ok) {r : Reading} (hr : r ∈ s.readings) :
    (r.got.dropped + r.got.output.length = r.since.length ∧ r.got.output <:+ r.since ∧
      r.got.output.length ≤ maxJobOutput) ↔ Utf8.valid (Boxexec.newest r.since) = true := by
  have hlen := length_newest r.since
  rw [← Utf8.length_coerce_eq_iff, h.output r hr, h.dropped r hr]
  constructor
  · rintro ⟨hsum, -, -⟩
    omega
  · intro heq
    rw [Utf8.coerce_of_valid ((Utf8.length_coerce_eq_iff _).1 heq)]
    exact ⟨by omega, drop_suffix _ _, length_newest_le _⟩

end Session.Ok

/-- **Reading a job's output loses nothing**, just if every piece read (the newest `maxJobOutput`
bytes written since the reading before) is valid UTF-8 by itself. -/
theorem readings_faithful_iff {s : Session} (h : s.Reached) :
    s.Faithful ↔ ∀ r ∈ s.readings, Utf8.valid (newest r.since) = true := by
  have hok := h.ok
  constructor
  · intro hf
    by_cases hall : ∀ r ∈ s.readings, r.got.dropped = 0
    · exact (hok.whole_iff hall).1 (hf.whole hall)
    · have hsome : ∃ r ∈ s.readings, r.got.dropped ≠ 0 := by
        simpa using hall
      exact fun r hr => (hok.newest_iff hr).1 (hf.newest hsome r hr)
  · intro hvalid
    exact ⟨fun hall => (hok.whole_iff hall).2 hvalid,
      fun _ r hr => (hok.newest_iff hr).2 (hvalid r hr), hok.last⟩

/-- A job that writes "é" in two halves, with a reading between them or without, and is read after
them. -/
def halves (between : Bool) : Session :=
  let first : Reading := ⟨[0xC3], ⟨Utf8.coerce [0xC3], 0, true, false, 0⟩⟩
  let since : Bytes := if between then [0xA9] else [0xC3, 0xA9]
  { job := { id := "0" }, written := [0xC3, 0xA9],
    readings := (if between then [first] else []) ++
      [⟨since, ⟨Utf8.coerce since, 0, true, false, 0⟩⟩] }

theorem reached_halves (between : Bool) : (halves between).Reached := by
  have h₁ := (Session.Reached.starts "0").step (.writes [0xC3] rfl)
  have hw₁ : ({ id := "0" } : Job).write [0xC3] = { id := "0", out := [0xC3] } := by decide +kernel
  simp only [hw₁] at h₁
  cases between with
  | true =>
    have h₂ := (h₁.step (.reads false (by simp))).step (.writes [0xA9] rfl)
    have hw₂ : ({ id := "0" } : Job).write [0xA9] = { id := "0", out := [0xA9] } := by
      decide +kernel
    simp only [Job.forgets, hw₂] at h₂
    exact h₂.step (.reads false (by simp))
  | false =>
    have h₂ := h₁.step (.writes [0xA9] rfl)
    have hw₂ : ({ id := "0", out := [0xC3] } : Job).write [0xA9] =
        { id := "0", out := [0xC3, 0xA9] } := by decide +kernel
    simp only [hw₂] at h₂
    exact h₂.step (.reads false (by simp))

theorem readings_faithful_undivided :
    (halves false).Reached ∧ (halves false).Faithful := by
  refine ⟨reached_halves false, (readings_faithful_iff (reached_halves false)).2 ?_⟩
  decide +kernel

/-- "é" read in two halves is two replacement characters, not "é". -/
theorem readings_divide_character :
    (halves true).Reached ∧ Utf8.valid (halves true).written = true ∧
      (∀ r ∈ (halves true).readings, r.got.dropped = 0) ∧
      (halves true).since = [] ∧
      (halves true).readings.flatMap (fun r => r.got.output) = Utf8.replacement ++
        Utf8.replacement ∧
      (halves true).written = [0xC3, 0xA9] := by
  refine ⟨reached_halves true, ?_, ?_, ?_, ?_, ?_⟩ <;> decide +kernel

end Boxexec

end Fern

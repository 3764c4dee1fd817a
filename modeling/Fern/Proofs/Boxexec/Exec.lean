/-
What a command and its client get.

Stdin is always somewhere on its way, in order, with its end behind it; so a command that comes to
the end has got all of it.  An output is with the client, on the connection or in its pipe, unless
the copier gave up at the deadline; and the exit code is behind what the copiers have sent.
-/
import Fern.Boxexec.Exec
import Fern.Lib.Progress
import Fern.Proofs.Boxexec.Frames

namespace Fern

open List

namespace Boxexec

/-! ### Messages -/

theorem item?_control (c : Control) : (readMessage c.message).item? = none := by
  cases c with
  | resize rows cols => rfl
  | signal sig =>
    show (if forwardable sig then Said.signal sig else .nothing).item? = none
    cases forwardable sig with
    | false => rfl
    | true => rfl

theorem item?_stdin {data : Bytes} (h : data ≠ []) :
    (readMessage (Kind.stdin.byte :: data)).item? = some (some data) := by
  rw [readMessage, if_pos rfl, if_neg h]
  rfl

theorem frame_take (w : FrameWriter) {data : Bytes} {n : Nat} (hroom : n ≤ w.room)
    (hlen : n ≤ data.length) : (w.fill (data.take n)).frame n = w.kind :: data.take n := by
  have hlength := length_take_of_le hlen
  have hframe := w.frame_fill (data.take n)
  rwa [FrameWriter.fits_of_le (Nat.le_trans (Nat.le_of_eq hlength) hroom), hlength] at hframe

/-! ### Stdin

`Flow` says where each byte of stdin is: with the command, in the pipe, in the write under way,
queued or on the connection as `ds`, or not read yet.  An act moves bytes from one of these to the
next.  It ends when the command stops reading; what it has got until then is `Fed`.
-/

/-- What is queued for stdin, on the server and on the way. -/
def Input.flow (i : Input) : List (Option Bytes) :=
  i.queue ++ i.up.filterMap fun message => (readMessage message).item?

/-- All of `stdin` is on its way in order, `ds` of it queued, with its end behind it. -/
structure Flow (stdin : Bytes) (i : Input) (ds : List Bytes) : Prop where
  flow : i.flow = ds.map some ++ if i.sentEnd && !i.closed then [none] else []
  bytes : i.got ++ i.pipe ++ i.writing ++ ds.flatten ++ i.rest = stdin
  closed : i.closed = true → i.sentEnd = true ∧ ds = [] ∧ i.writing = []
  rest : i.sentEnd = true → i.rest = []
  done : i.done = i.closed
  kind : i.sender.kind = Kind.stdin.byte

variable {stdin : Bytes} {i j : Input} {ds : List Bytes}

theorem Flow.unsent (h : Flow stdin i ds) (hend : i.sentEnd = false) :
    i.flow = ds.map some ∧ i.closed = false := by
  refine ⟨by simpa [hend] using h.flow, ?_⟩
  by_contra hclosed
  rw [(h.closed (eq_true_of_ne_false hclosed)).1] at hend
  cases hend

theorem Flow.send (h : Flow stdin i ds) {n : Nat} (hstep : i.step (.send n) = some j) :
    ∃ ds, Flow stdin j ds := by
  obtain ⟨hcond, ⟨⟩⟩ := Option.ite_none_right_eq_some.1 hstep
  simp only [Bool.and_eq_true, Bool.not_eq_true', decide_eq_true_eq] at hcond
  obtain ⟨⟨hend, hroom⟩, hlen⟩ := hcond
  have hsent (hsent : i.sentEnd = true) : i.rest.drop n = [] := by
    rw [hend] at hsent
    cases hsent
  by_cases hn : n = 0
  · refine ⟨ds, ?_, ?_, h.closed, hsent, h.done, by simpa using h.kind⟩
    · simpa [Input.flow, hn] using h.flow
    · simpa [hn] using h.bytes
  · have hne : i.rest.take n ≠ [] := by
      intro hnil
      have hlength := length_take_of_le hlen
      rw [hnil] at hlength
      exact hn hlength.symm
    obtain ⟨hflow, hopen⟩ := h.unsent hend
    refine ⟨ds ++ [i.rest.take n], ?_, ?_, ?_, hsent, h.done, by simpa using h.kind⟩
    · simp only [Input.flow, if_neg hn, filterMap_append, filterMap_cons,
        filterMap_nil, frame_take i.sender hroom hlen, h.kind, item?_stdin hne, hend,
        Bool.false_and, Bool.false_eq_true, if_false, map_append, map_cons, map_nil,
        append_nil]
      rw [← hflow, Input.flow, append_assoc]
    · rw [flatten_append, flatten_singleton, ← h.bytes]
      simp only [append_assoc, take_append_drop]
    · intro hclosed
      rw [hopen] at hclosed
      cases hclosed

theorem Flow.sendEnd (h : Flow stdin i ds) (hstep : i.step .sendEnd = some j) :
    ∃ ds, Flow stdin j ds := by
  obtain ⟨hcond, ⟨⟩⟩ := Option.ite_none_right_eq_some.1 hstep
  simp only [Bool.and_eq_true, Bool.not_eq_true', decide_eq_true_eq] at hcond
  obtain ⟨hend, hrest⟩ := hcond
  obtain ⟨hflow, hopen⟩ := h.unsent hend
  refine ⟨ds, ?_, h.bytes, ?_, fun _ => hrest, h.done, h.kind⟩
  · simp only [hopen, Bool.true_and, Bool.not_false, if_true]
    rw [← hflow, Input.flow, Input.flow, filterMap_append, append_assoc]
    rfl
  · intro hclosed
    rw [hopen] at hclosed
    cases hclosed

theorem Flow.same (h : Flow stdin i ds) {up : List Bytes} {queue : List (Option Bytes)}
    {signals : List UInt8}
    (hflow : (queue ++ up.filterMap fun message => (readMessage message).item?) = i.flow) :
    Flow stdin { i with up := up, queue := queue, signals := signals } ds :=
  ⟨hflow.trans h.flow, h.bytes, h.closed, h.rest, h.done, h.kind⟩

theorem Flow.take (h : Flow stdin i ds) (hstep : i.step .take = some j) :
    ∃ ds, Flow stdin j ds := by
  simp only [Input.step] at hstep
  cases hup : i.up with
  | nil =>
    rw [hup] at hstep
    cases hstep
  | cons message up =>
    simp only [hup] at hstep
    cases hsaid : readMessage message with
    | nothing =>
      simp only [hsaid] at hstep
      cases hstep
      exact ⟨ds, h.same (by simp [Input.flow, hup, hsaid, Said.item?])⟩
    | signal sig =>
      simp only [hsaid] at hstep
      split at hstep
      all_goals
        cases hstep
        exact ⟨ds, h.same (by simp [Input.flow, hup, hsaid, Said.item?])⟩
    | stdin data =>
      simp only [hsaid] at hstep
      obtain ⟨-, ⟨⟩⟩ := Option.ite_none_right_eq_some.1 hstep
      exact ⟨ds, h.same (by simp [Input.flow, hup, hsaid, Said.item?])⟩

theorem Flow.next (h : Flow stdin i ds) (hstep : i.step .next = some j) :
    ∃ ds, Flow stdin j ds := by
  simp only [Input.step] at hstep
  cases hqueue : i.queue with
  | nil =>
    rw [hqueue] at hstep
    cases hstep
  | cons data queue =>
    simp only [hqueue] at hstep
    by_cases hwriting : i.writing ≠ []
    · rw [if_pos hwriting] at hstep
      cases hstep
    · rw [if_neg hwriting] at hstep
      have hwriting : i.writing = [] := not_not.1 hwriting
      have hflow := h.flow
      rw [Input.flow, hqueue, cons_append] at hflow
      by_cases hdone : i.done = true
      -- behind the end there is nothing
      · have hclosed := h.done.symm.trans hdone
        rw [(h.closed hclosed).2.1, hclosed] at hflow
        simp at hflow
      · rw [if_neg hdone] at hstep
        have hopen : i.closed = false := by
          rw [← h.done]
          exact eq_false_of_ne_true hdone
        cases data with
        | none =>
          simp only [Option.some.injEq] at hstep
          subst hstep
          -- the end comes after all the data
          cases ds with
          | cons d ds =>
            simp at hflow
          | nil =>
            have hpending : (i.sentEnd && !i.closed) = true := by
              by_contra hno
              rw [if_neg hno] at hflow
              cases hflow
            have hsent : i.sentEnd = true := (Bool.and_eq_true_iff.1 hpending).1
            rw [if_pos hpending, map_nil, nil_append, cons_eq_cons] at hflow
            refine ⟨[], ?_, h.bytes, fun _ => ⟨hsent, rfl, hwriting⟩, h.rest, rfl, h.kind⟩
            simpa [Input.flow] using hflow.2
        | some d =>
          simp only [Option.some.injEq] at hstep
          subst hstep
          cases ds with
          | nil =>
            by_cases hpending : (i.sentEnd && !i.closed) = true
            · simp [hpending] at hflow
            · simp [hpending] at hflow
          | cons d' ds =>
            rw [map_cons, cons_append, cons_eq_cons] at hflow
            obtain ⟨hd, hflow⟩ := hflow
            cases hd
            refine ⟨ds, hflow, ?_, ?_, h.rest, h.done, h.kind⟩
            · have hbytes := h.bytes
              rw [hwriting, append_nil, flatten_cons] at hbytes
              simpa [append_assoc] using hbytes
            · intro hclosed
              rw [hopen] at hclosed
              cases hclosed

theorem Flow.write (h : Flow stdin i ds) {n : Nat} (hstep : i.step (.write n) = some j) :
    Flow stdin j ds := by
  obtain ⟨-, ⟨⟩⟩ := Option.ite_none_right_eq_some.1 hstep
  refine ⟨h.flow, ?_, ?_, h.rest, h.done, h.kind⟩
  · rw [← h.bytes]
    simp only [append_assoc]
    rw [← append_assoc (i.writing.take n), take_append_drop]
  · intro hclosed
    obtain ⟨hsent, hds, hwriting⟩ := h.closed hclosed
    exact ⟨hsent, hds, by simp [hwriting]⟩

theorem Flow.read (h : Flow stdin i ds) {n : Nat} (hstep : i.step (.read n) = some j) :
    Flow stdin j ds := by
  obtain ⟨-, ⟨⟩⟩ := Option.ite_none_right_eq_some.1 hstep
  refine ⟨h.flow, ?_, h.closed, h.rest, h.done, h.kind⟩
  rw [← h.bytes]
  simp only [append_assoc]
  rw [← append_assoc (i.pipe.take n), take_append_drop]

/-- What the command has got, and what it will get while it reads. -/
structure Fed (stdin : Bytes) (i : Input) : Prop where
  part : i.got <+: stdin
  whole : i.ended = true → i.got = stdin
  flow : i.reading = true → ∃ ds, Flow stdin i ds

theorem Flow.got_eq (h : Flow stdin i ds) (hclosed : i.closed = true) (hpipe : i.pipe = []) :
    i.got = stdin := by
  obtain ⟨hsent, hds, hwriting⟩ := h.closed hclosed
  have hbytes := h.bytes
  rw [hpipe, hwriting, hds, h.rest hsent] at hbytes
  simpa using hbytes

theorem Flow.got_part (h : Flow stdin i ds) : i.got <+: stdin := by
  refine ⟨i.pipe ++ i.writing ++ ds.flatten ++ i.rest, ?_⟩
  rw [← h.bytes]
  simp only [append_assoc]

theorem Fed.of_flow (h : Fed stdin i) (hgot : j.got = i.got) (hended : j.ended = i.ended)
    (hflow : j.reading = true → ∃ ds, Flow stdin j ds) : Fed stdin j := by
  refine ⟨?_, ?_, hflow⟩
  · rw [hgot]
    exact h.part
  · rw [hgot, hended]
    exact h.whole

theorem Input.step_frame {act : InputAct} (hstep : i.step act = some j) :
    (j.reading = true → i.reading = true) ∧
      ((∀ n, act ≠ .read n) → act ≠ .readEnd → j.got = i.got ∧ j.ended = i.ended) := by
  cases act with
  | control c =>
    cases hstep
    exact ⟨id, fun _ _ => ⟨rfl, rfl⟩⟩
  | close =>
    cases hstep
    exact ⟨(fun h => by cases h), fun _ _ => ⟨rfl, rfl⟩⟩
  | read n =>
    obtain ⟨-, ⟨⟩⟩ := Option.ite_none_right_eq_some.1 hstep
    exact ⟨id, fun h => absurd rfl (h n)⟩
  | readEnd =>
    obtain ⟨-, ⟨⟩⟩ := Option.ite_none_right_eq_some.1 hstep
    exact ⟨id, fun _ h => absurd rfl h⟩
  | _ =>
    simp only [Input.step] at hstep
    repeat' split at hstep
    all_goals first | cases hstep; exact ⟨id, fun _ _ => ⟨rfl, rfl⟩⟩ | cases hstep

theorem Flow.step (h : Flow stdin i ds) (hreading : i.reading = true) {act : InputAct}
    (hact : act ≠ .close) (hstep : i.step act = some j) : ∃ ds, Flow stdin j ds := by
  cases act with
  | send n => exact h.send hstep
  | sendEnd => exact h.sendEnd hstep
  | control c =>
    cases hstep
    exact ⟨ds, h.same (by simp [Input.flow, item?_control])⟩
  | take => exact h.take hstep
  | next => exact h.next hstep
  | write n => exact ⟨ds, h.write hstep⟩
  | fail => simp [Input.step, hreading] at hstep
  | read n => exact ⟨ds, h.read hstep⟩
  | readEnd =>
    obtain ⟨-, ⟨⟩⟩ := Option.ite_none_right_eq_some.1 hstep
    exact ⟨ds, h.flow, h.bytes, h.closed, h.rest, h.done, h.kind⟩
  | close => exact absurd rfl hact

/-- **Each act keeps it.** -/
theorem Fed.step (h : Fed stdin i) {act : InputAct}
    (hstep : i.step act = some j) : Fed stdin j := by
  obtain ⟨hreading, hframe⟩ := Input.step_frame hstep
  have hflow (hj : j.reading = true) : ∃ ds, Flow stdin j ds := by
    obtain ⟨ds, hds⟩ := h.flow (hreading hj)
    refine hds.step (hreading hj) ?_ hstep
    rintro rfl
    cases hstep
    cases hj
  by_cases hread : ∃ n, act = .read n
  · obtain ⟨n, rfl⟩ := hread
    obtain ⟨hcond, ⟨⟩⟩ := Option.ite_none_right_eq_some.1 hstep
    simp only [Bool.and_eq_true, decide_eq_true_eq] at hcond
    obtain ⟨ds, hds⟩ := hflow hcond.1.1
    refine ⟨hds.got_part, ?_, hflow⟩
    -- it had got everything, and there is no more
    intro hended
    refine hds.got_part.eq_of_length_le ?_
    rw [length_append, h.whole hended]
    exact Nat.le_add_right _ _
  · by_cases hend : act = .readEnd
    · subst hend
      obtain ⟨hcond, ⟨⟩⟩ := Option.ite_none_right_eq_some.1 hstep
      simp only [Bool.and_eq_true, decide_eq_true_eq] at hcond
      obtain ⟨ds, hds⟩ := hflow hcond.1.1
      exact ⟨h.part, fun _ => hds.got_eq hcond.1.2 hcond.2, hflow⟩
    · obtain ⟨hgot, hended⟩ := hframe (fun n hn => hread ⟨n, hn⟩) hend
      exact h.of_flow hgot hended hflow

/-! ### Stdin comes through

While the command reads, some act brings stdin forward, and each act that does makes the way
shorter.
-/

/-- How much of the way messages have before them. -/
def upWeight (up : List Bytes) : Nat := 2 * up.length + 8 * up.flatten.length

def queueWeight (queue : List (Option Bytes)) : Nat :=
  queue.length + 6 * (queue.flatMap fun data => data.getD []).length

/-- How long the way to the end still is. -/
def Input.way (i : Input) : Nat :=
  20 * i.rest.length + (if i.sentEnd then 0 else 20) + upWeight i.up + queueWeight i.queue +
    4 * i.writing.length + 2 * i.pipe.length + if i.ended then 0 else 1

theorem upWeight_cons (message : Bytes) (up : List Bytes) :
    upWeight (message :: up) = 2 + 8 * message.length + upWeight up := by
  simp only [upWeight, length_cons, flatten_cons, length_append]
  omega

theorem upWeight_concat (up : List Bytes) (message : Bytes) :
    upWeight (up ++ [message]) = upWeight up + 2 + 8 * message.length := by
  simp only [upWeight, length_append, length_cons, length_nil, flatten_append,
    flatten_singleton]
  omega

theorem queueWeight_cons (data : Option Bytes) (queue : List (Option Bytes)) :
    queueWeight (data :: queue) = 1 + 6 * (data.getD []).length + queueWeight queue := by
  simp only [queueWeight, length_cons, flatMap_cons, length_append]
  omega

/-- Some act brings stdin forward. -/
def Input.GoesOn (i : Input) : Prop :=
  ∃ act j, i.step act = some j ∧ j.reading = true ∧ j.way < i.way

theorem goesOn_read (hreading : i.reading = true) (h : i.pipe ≠ []) : i.GoesOn := by
  have hone : 1 ≤ i.pipe.length := length_pos_of_ne_nil h
  have hstep : i.step (.read i.pipe.length) =
      some { i with pipe := [], got := i.got ++ i.pipe } := by
    simp [Input.step, hreading, hone]
  refine ⟨_, _, hstep, hreading, ?_⟩
  simp only [Input.way, length_nil]
  omega

theorem goesOn_write (hreading : i.reading = true) (hpipe : i.pipe = []) (h : i.writing ≠ []) :
    i.GoesOn := by
  have hone : 1 ≤ i.writing.length := length_pos_of_ne_nil h
  have hstep : i.step (.write 1) =
      some { i with writing := i.writing.drop 1, pipe := i.writing.take 1 } := by
    simp [Input.step, hreading, hone, hpipe, pipeSize]
  refine ⟨_, _, hstep, hreading, ?_⟩
  simp only [Input.way, length_drop, length_take, hpipe, length_nil]
  omega

theorem goesOn_next (hreading : i.reading = true) (hwriting : i.writing = []) (h : i.queue ≠ []) :
    i.GoesOn := by
  cases hqueue : i.queue with
  | nil => exact absurd hqueue h
  | cons data queue =>
    have hweight := queueWeight_cons data queue
    rw [← hqueue] at hweight
    cases hdone : i.done with
    | true =>
      have hstep : i.step .next = some { i with queue := queue } := by
        simp [Input.step, hqueue, hwriting, hdone]
      refine ⟨_, _, hstep, hreading, ?_⟩
      simp only [Input.way, hweight]
      omega
    | false =>
      cases data with
      | none =>
        have hstep : i.step .next =
            some { i with queue := queue, closed := true, done := true } := by
          simp [Input.step, hqueue, hwriting, hdone]
        refine ⟨_, _, hstep, hreading, ?_⟩
        simp only [Input.way, hweight]
        omega
      | some data =>
        have hstep : i.step .next = some { i with queue := queue, writing := data } := by
          simp [Input.step, hqueue, hwriting, hdone]
        refine ⟨_, _, hstep, hreading, ?_⟩
        simp only [Input.way, hweight, hwriting, length_nil, Option.getD_some]
        omega

theorem length_of_said {message : Bytes} {data : Option Bytes}
    (h : readMessage message = .stdin data) :
    (data.getD []).length ≤ message.length := by
  cases message with
  | nil => cases h
  | cons kind rest =>
    simp only [readMessage] at h
    repeat' split at h
    all_goals cases h
    all_goals simp

theorem goesOn_take (hreading : i.reading = true) (hqueue : i.queue = []) (h : i.up ≠ []) :
    i.GoesOn := by
  cases hup : i.up with
  | nil => exact absurd hup h
  | cons message up =>
    have hweight := upWeight_cons message up
    rw [← hup] at hweight
    cases hsaid : readMessage message with
    | nothing =>
      have hstep : i.step .take = some { i with up := up } := by
        simp [Input.step, hup, hsaid]
      refine ⟨_, _, hstep, hreading, ?_⟩
      simp only [Input.way, hweight]
      omega
    | signal sig =>
      have hstep : i.step .take = some { i with
          up := up, signals := if i.exited then i.signals else i.signals ++ [sig] } := by
        cases hexited : i.exited with
        | false => simp [Input.step, hup, hsaid, hexited]
        | true => simp [Input.step, hup, hsaid, hexited]
      refine ⟨_, _, hstep, hreading, ?_⟩
      simp only [Input.way, hweight]
      omega
    | stdin data =>
      have hstep : i.step .take = some { i with up := up, queue := [data] } := by
        simp [Input.step, hup, hsaid, hqueue, stdinQueue]
      have hlen := length_of_said hsaid
      refine ⟨_, _, hstep, hreading, ?_⟩
      simp only [Input.way, hweight, hqueue, queueWeight_cons]
      omega

theorem goesOn_send (hreading : i.reading = true) (hsent : i.sentEnd = false) : i.GoesOn := by
  by_cases hrest : i.rest = []
  · have hstep : i.step .sendEnd =
        some { i with sentEnd := true, up := i.up ++ [[Kind.stdinEOF.byte]] } := by
      simp [Input.step, hsent, hrest]
    refine ⟨_, _, hstep, hreading, ?_⟩
    simp only [Input.way, hsent, upWeight_concat, length_cons, length_nil, if_true,
      Bool.false_eq_true, if_false]
    omega
  · have hone : 1 ≤ i.rest.length := length_pos_of_ne_nil hrest
    have hroom : 1 ≤ i.sender.room := i.sender.room_pos
    have hstep : i.step (.send 1) = some { i with
        rest := i.rest.drop 1
        sender := (i.sender.fill (i.rest.take 1)).afterRead 1
        up := i.up ++ [(i.sender.fill (i.rest.take 1)).frame 1] } := by
      simp [Input.step, hsent, hone, hroom]
    have hframe : ((i.sender.fill (i.rest.take 1)).frame 1).length ≤ 2 := by
      unfold FrameWriter.frame
      rw [length_take]
      omega
    refine ⟨_, _, hstep, hreading, ?_⟩
    simp only [Input.way, upWeight_concat, length_drop]
    omega

/-- **A command that reads isn't held up.** -/
theorem Flow.goesOn (h : Flow stdin i ds) (hreading : i.reading = true) (hended : i.ended = false) :
    i.GoesOn := by
  by_cases hpipe : i.pipe = []
  swap
  · exact goesOn_read hreading hpipe
  by_cases hwriting : i.writing = []
  swap
  · exact goesOn_write hreading hpipe hwriting
  by_cases hqueue : i.queue = []
  swap
  · exact goesOn_next hreading hwriting hqueue
  by_cases hup : i.up = []
  swap
  · exact goesOn_take hreading hqueue hup
  cases hsent : i.sentEnd with
  | false => exact goesOn_send hreading hsent
  | true =>
    -- nothing is on its way, so the end has come through
    have hclosed : i.closed = true := by
      by_contra hopen
      have hflow := h.flow
      rw [Input.flow, hqueue, hup, hsent, eq_false_of_ne_true hopen] at hflow
      simp at hflow
    have hstep : i.step .readEnd = some { i with ended := true } := by
      simp [Input.step, hreading, hclosed, hpipe]
    refine ⟨_, _, hstep, hreading, ?_⟩
    simp only [Input.way, hended, if_true, Bool.false_eq_true, if_false]
    omega

/-- Some act leads on. -/
def Input.Goes (i j : Input) : Prop := ∃ act, i.step act = some j

/-- **While the command reads, stdin can come through to its end.** -/
theorem Fed.comes_through (h : Fed stdin i) (hreading : i.reading = true) :
    ∃ j, Relation.ReflTransGen Input.Goes i j ∧ j.ended = true ∧ j.got = stdin := by
  have hnear (i : Input) (h : Fed stdin i ∧ i.reading = true) (hended : ¬ i.ended = true) :
      ∃ j, i.Goes j ∧ (Fed stdin j ∧ j.reading = true) ∧ j.way < i.way := by
    obtain ⟨ds, hflow⟩ := h.1.flow h.2
    obtain ⟨act, j, hstep, hreading, hway⟩ := hflow.goesOn h.2 (eq_false_of_ne_true hended)
    exact ⟨j, ⟨act, hstep⟩, ⟨h.1.step hstep, hreading⟩, hway⟩
  obtain ⟨j, hrun, hj, hended⟩ := comes_to Input.way hnear ⟨h, hreading⟩
  exact ⟨j, hrun, hended, hj.1.whole hended⟩

/-! ### Outputs

`Carried` is the same for the outputs, and `Phase` says where the exit code is: not sent, behind
the last frame, or with the client.  A copier that gives up with bytes in its pipe breaks it, so
the acts are asked to be `InTime`.
-/

/-- What of a message the client writes to `o`. -/
def Message.data (o : Out) : Message → Bytes
  | .frame data => ((readFrame data).filter fun p => p.1 = o).elim [] Prod.snd
  | .exit _ => []

/-- What of `o` is on its way to the client. -/
def carried (o : Out) (down : List Message) : Bytes := down.flatMap (Message.data o)

@[simp] theorem carried_append (o : Out) (down rest : List Message) :
    carried o (down ++ rest) = carried o down ++ carried o rest := flatMap_append

@[simp] theorem carried_exit (o : Out) (code : Int) : carried o [.exit code] = [] := rfl

theorem readFrame_kind (o : Out) (data : Bytes) :
    readFrame (o.kind.byte :: data) = some (o, data) := by
  cases o with
  | stdout => rfl
  | stderr => rfl

theorem carried_frame (o p : Out) (data : Bytes) :
    carried o [.frame (p.kind.byte :: data)] = if o = p then data else [] := by
  unfold carried
  rw [flatMap_singleton, Message.data, readFrame_kind, Option.filter_some]
  by_cases hop : o = p
  · rw [if_pos hop, if_pos (decide_eq_true hop.symm)]
    rfl
  · rw [if_neg hop, if_neg (by simpa using fun h : p = o => hop h.symm)]
    rfl

/-- Where the exit code is. -/
inductive Phase (s : Exec) : Prop
  | running (hfinished : s.finished = false) (hdown : ∀ code, .exit code ∉ s.down)
      (hresult : s.result = none)
  | sent (frames : List Message) (code : Int) (hfinished : s.finished = true)
      (hcopied : ∀ o, (s.out o).copying = false) (hexited : s.exited = some code)
      (hdown : s.down = frames ++ [.exit code]) (hframes : ∀ code, .exit code ∉ frames)
      (hresult : s.result = none)
  | returned (code : Int) (hfinished : s.finished = true) (hcopied : ∀ o, (s.out o).copying = false)
      (hexited : s.exited = some code) (hdown : s.down = []) (hresult : s.result = some code)

/-- What was written to an output is with the client, on its way or in the pipe, and the exit code
is behind it. -/
structure Carried (s : Exec) : Prop where
  bytes : ∀ o, s.received o ++ carried o s.down ++ (s.out o).pipe = (s.out o).written
  kind : ∀ o, (s.out o).writer.kind = o.kind.byte
  copied : ∀ o, (s.out o).copying = false → (s.out o).pipe = [] ∧ (s.out o).isOpen = false
  phase : Phase s

/-- No copier comes to read after the deadline what is left in its pipe, or will be written to it.
-/
def InTime (s : Exec) : Act → Prop
  | .copy o _ => s.late = true → (s.out o).pipe = [] ∧ (s.out o).isOpen = false
  | _ => True

instance (s : Exec) (act : Act) : Decidable (InTime s act) := by
  cases act with
  | copy o n =>
    exact inferInstanceAs
      (Decidable (s.late = true → (s.out o).pipe = [] ∧ (s.out o).isOpen = false))
  | _ => exact isTrue trivial

variable {s t : Exec} {o : Out}

theorem carried_start (stdin : Bytes) : Carried (.start stdin) := by
  refine ⟨fun o => rfl, fun o => rfl, ?_, .running rfl ?_ rfl⟩
  · intro o h
    cases h
  · intro code h
    cases h

theorem forall_setOut {P : Out → Output → Prop} {p : Output} (hself : P o p)
    (hrest : ∀ q, q ≠ o → P q (s.out q)) (q : Out) : P q ((s.setOut o p).out q) := by
  show P q (if q = o then p else s.out q)
  by_cases hq : q = o
  · rw [if_pos hq, hq]
    exact hself
  · rw [if_neg hq]
    exact hrest q hq

theorem Phase.same (h : Phase s) (input : Input) (now : Nat) (deadline : Option Nat)
    {out : Out → Output} (hout : ∀ q, (s.out q).copying = false → (out q).copying = false) :
    Phase { s with input := input, now := now, deadline := deadline, out := out } := by
  cases h with
  | running hfinished hdown hresult => exact .running hfinished hdown hresult
  | sent frames code hfinished hall hexited hdown hframes hresult =>
    exact .sent frames code hfinished (fun q => hout q (hall q)) hexited hdown hframes hresult
  | returned code hfinished hall hexited hdown hresult =>
    exact .returned code hfinished (fun q => hout q (hall q)) hexited hdown hresult

theorem Carried.setOut (h : Carried s) {p : Output}
    (hbytes : s.received o ++ carried o s.down ++ p.pipe = p.written)
    (hkind : p.writer.kind = o.kind.byte)
    (hcopied : p.copying = false → p.pipe = [] ∧ p.isOpen = false)
    (hcopying : (s.out o).copying = false → p.copying = false) : Carried (s.setOut o p) := by
  refine ⟨?_, ?_, ?_, h.phase.same s.input s.now s.deadline ?_⟩
  · exact forall_setOut (P := fun q p => s.received q ++ carried q s.down ++ p.pipe = p.written)
      hbytes fun q _ => h.bytes q
  · exact forall_setOut (P := fun q p => p.writer.kind = q.kind.byte) hkind fun q _ => h.kind q
  · exact forall_setOut (P := fun _ p => p.copying = false → p.pipe = [] ∧ p.isOpen = false)
      hcopied fun q _ => h.copied q
  · exact forall_setOut (P := fun q p => (s.out q).copying = false → p.copying = false) hcopying
      fun q _ => id

theorem Carried.write (h : Carried s) {data : Bytes} (hstep : s.step (.write o data) = some t) :
    Carried t := by
  obtain ⟨hcond, ⟨⟩⟩ := Option.ite_none_right_eq_some.1 hstep
  refine h.setOut ?_ (h.kind o) ?_ id
  · rw [← h.bytes o]
    simp only [append_assoc]
  · intro hcopying
    -- the copier doesn't end while someone can write
    rw [(h.copied o hcopying).2] at hcond
    cases hcond

theorem Phase.of_copying (h : Phase s) (hcopying : (s.out o).copying = true) :
    s.finished = false ∧ (∀ code, .exit code ∉ s.down) ∧ s.result = none := by
  cases h with
  | running hfinished hdown hresult => exact ⟨hfinished, hdown, hresult⟩
  | sent frames code hfinished hall =>
    rw [hall o] at hcopying
    cases hcopying
  | returned code hfinished hall =>
    rw [hall o] at hcopying
    cases hcopying

theorem Phase.of_result (h : Phase s) {code : Int} (hcode : s.result = some code) :
    s.down = [] ∧ (∀ o, (s.out o).copying = false) ∧ s.exited = some code := by
  cases h with
  | running _ _ hresult =>
    rw [hresult] at hcode
    cases hcode
  | sent _ _ _ _ _ _ _ hresult =>
    rw [hresult] at hcode
    cases hcode
  | returned code' hfinished hcopied hexited hdown hresult =>
    rw [hresult] at hcode
    cases hcode
    exact ⟨hdown, hcopied, hexited⟩

/-- The output once its copier has read `n` bytes. -/
def Output.copied (p : Output) (n : Nat) : Output :=
  { p with pipe := p.pipe.drop n, writer := (p.writer.fill (p.pipe.take n)).afterRead n }

/-- The copier of `o` has sent `n` bytes. -/
def Exec.copied (s : Exec) (o : Out) (n : Nat) : Exec :=
  { s.setOut o ((s.out o).copied n) with
    down := s.down ++ [.frame (((s.out o).writer.fill ((s.out o).pipe.take n)).frame n)] }

theorem Carried.send (h : Carried s) (hcopying : (s.out o).copying = true) {n : Nat}
    (hroom : n ≤ (s.out o).writer.room) (hlen : n ≤ (s.out o).pipe.length) :
    Carried (s.copied o n) := by
  obtain ⟨hfinished, hdown, hresult⟩ := h.phase.of_copying hcopying
  rw [Exec.copied, Output.copied, frame_take _ hroom hlen, h.kind o]
  refine ⟨?_, ?_, ?_, .running hfinished ?_ hresult⟩
  · refine forall_setOut (P := fun q p => s.received q ++
      carried q (s.down ++ [.frame (o.kind.byte :: (s.out o).pipe.take n)]) ++ p.pipe = p.written)
      ?_ ?_
    · rw [← h.bytes o, carried_append, carried_frame, if_pos rfl]
      simp only [append_assoc, take_append_drop]
    · intro q hq
      rw [carried_append, carried_frame, if_neg hq, append_nil]
      exact h.bytes q
  · exact forall_setOut (P := fun q p => p.writer.kind = q.kind.byte)
      (by simpa using h.kind o) fun q _ => h.kind q
  · refine forall_setOut (P := fun _ p => p.copying = false → p.pipe = [] ∧ p.isOpen = false)
      ?_ fun q _ => h.copied q
    intro hno
    rw [hcopying] at hno
    cases hno
  · intro code hmem
    rcases mem_append.1 hmem with hmem | hmem
    · exact hdown code hmem
    · simp at hmem

theorem Carried.copy (h : Carried s) {n : Nat} (hok : InTime s (.copy o n))
    (hstep : s.step (.copy o n) = some t) : Carried t := by
  simp only [Exec.step] at hstep
  by_cases hcopying : (s.out o).copying = true
  swap
  · simp [hcopying] at hstep
  have hends (hdone : (s.out o).pipe = [] ∧ (s.out o).isOpen = false) :
      Carried (s.setOut o { s.out o with copying := false }) :=
    h.setOut (h.bytes o) (h.kind o) (fun _ => hdone) fun _ => rfl
  rw [if_neg (by simp [hcopying])] at hstep
  by_cases hlate : s.late = true
  · rw [if_pos hlate] at hstep
    cases hstep
    exact hends (hok hlate)
  rw [if_neg hlate] at hstep
  by_cases hpipe : (s.out o).pipe = []
  · rw [if_pos hpipe] at hstep
    by_cases hopen : (s.out o).isOpen = true
    · rw [if_pos hopen] at hstep
      cases hstep
    · rw [if_neg hopen] at hstep
      cases hstep
      exact hends ⟨hpipe, eq_false_of_ne_true hopen⟩
  rw [if_neg hpipe] at hstep
  obtain ⟨hcond, ⟨⟩⟩ := Option.ite_none_right_eq_some.1 hstep
  simp only [Bool.and_eq_true, decide_eq_true_eq] at hcond
  exact h.send hcopying hcond.1.2 hcond.2

theorem Carried.finish (h : Carried s) (hstep : s.step .finish = some t) : Carried t := by
  simp only [Exec.step] at hstep
  cases hexited : s.exited with
  | none => simp [hexited] at hstep
  | some code =>
    simp only [hexited] at hstep
    obtain ⟨hcond, ⟨⟩⟩ := Option.ite_none_right_eq_some.1 hstep
    simp only [Bool.and_eq_true, Bool.not_eq_true'] at hcond
    obtain ⟨⟨⟨-, hstdout⟩, hstderr⟩, hfinished⟩ := hcond
    have hcopied (o : Out) : (s.out o).copying = false := by
      cases o with
      | stdout => exact hstdout
      | stderr => exact hstderr
    refine ⟨?_, h.kind, h.copied, ?_⟩
    · intro o
      rw [carried_append, carried_exit, append_nil]
      exact h.bytes o
    · cases h.phase with
      | running _ hdown hresult =>
        exact .sent s.down code rfl hcopied rfl rfl hdown hresult
      | sent frames code htrue =>
        rw [hfinished] at htrue
        cases htrue
      | returned code htrue =>
        rw [hfinished] at htrue
        cases htrue

theorem Phase.shift {data : Bytes} {down : List Message} (h : Phase s)
    (hdown : s.down = .frame data :: down) (received : Out → Bytes) :
    Phase { s with down := down, received := received } := by
  cases h with
  | running hfinished hno hresult =>
    refine .running hfinished ?_ hresult
    intro code hmem
    exact hno code (hdown ▸ mem_cons_of_mem _ hmem)
  | sent frames code hfinished hcopied hexited hsplit hframes hresult =>
    rw [hsplit] at hdown
    cases frames with
    | nil => cases hdown
    | cons frame frames =>
      rw [cons_append, cons_eq_cons] at hdown
      refine .sent frames code hfinished hcopied hexited hdown.2.symm ?_ hresult
      intro code hmem
      exact hframes code (mem_cons_of_mem _ hmem)
  | returned code hfinished hcopied hexited hnil hresult =>
    rw [hnil] at hdown
    cases hdown

theorem Phase.last {code : Int} {down : List Message} (h : Phase s)
    (hdown : s.down = .exit code :: down) :
    Phase { s with down := down, result := some code } ∧ down = [] := by
  cases h with
  | running _ hno => exact absurd (hdown ▸ mem_cons_self) (hno code)
  | returned _ _ _ _ hnil =>
    rw [hnil] at hdown
    cases hdown
  | sent frames code' hfinished hcopied hexited hsplit hframes hresult =>
    rw [hsplit] at hdown
    cases frames with
    | nil =>
      cases hdown
      exact ⟨.returned code hfinished hcopied hexited rfl rfl, rfl⟩
    | cons frame frames =>
      rw [cons_append, cons_eq_cons] at hdown
      exact absurd (hdown.1 ▸ mem_cons_self) (hframes code)

theorem received_data (o : Out) (data : Bytes) (received : Bytes) :
    ((readFrame data).elim received fun p => if o = p.1 then received ++ p.2 else received) =
      received ++ (Message.frame data).data o := by
  cases hread : readFrame data with
  | none => simp [Message.data, hread]
  | some p =>
    by_cases hp : o = p.1
    · simp [Message.data, hread, Option.filter_some, hp]
    · have hne : ¬ p.1 = o := fun h => hp h.symm
      simp [Message.data, hread, Option.filter_some, hp, hne]

theorem Carried.receive (h : Carried s) (hstep : s.step .receive = some t) : Carried t := by
  simp only [Exec.step] at hstep
  cases hdown : s.down with
  | nil => simp [hdown] at hstep
  | cons message down =>
    have hbytes := h.bytes
    rw [hdown] at hbytes
    cases message with
    | exit code =>
      simp only [hdown] at hstep
      obtain ⟨-, ⟨⟩⟩ := Option.ite_none_right_eq_some.1 hstep
      obtain ⟨hphase, rfl⟩ := h.phase.last hdown
      exact ⟨hbytes, h.kind, h.copied, hphase⟩
    | frame data =>
      simp only [hdown] at hstep
      split at hstep
      · have ht : t = { s with
            down := down
            received := fun q => (readFrame data).elim (s.received q)
              fun p => if q = p.1 then s.received q ++ p.2 else s.received q } := by
          cases hread : readFrame data with
          | none =>
            simp only [hread] at hstep
            cases hstep
            rfl
          | some p =>
            simp only [hread] at hstep
            cases hstep
            rfl
        subst ht
        refine ⟨?_, h.kind, h.copied, h.phase.shift hdown _⟩
        intro o
        simp only [received_data]
        have hall := hbytes o
        rw [carried, flatMap_cons, ← append_assoc] at hall
        exact hall
      · cases hstep

theorem Carried.same (h : Carried s) (input : Input) (now : Nat) (deadline : Option Nat) :
    Carried { s with input := input, now := now, deadline := deadline } :=
  ⟨h.bytes, h.kind, h.copied, h.phase.same input now deadline fun _ => id⟩

theorem Carried.exit (h : Carried s) {code : Int} (hstep : s.step (.exit code) = some t) :
    Carried t := by
  obtain ⟨hnone, ⟨⟩⟩ := Option.ite_none_right_eq_some.1 hstep
  refine ⟨h.bytes, h.kind, h.copied, ?_⟩
  cases h.phase with
  | running hfinished hdown hresult => exact .running hfinished hdown hresult
  | sent frames code hfinished hall hexited =>
    rw [hnone] at hexited
    cases hexited
  | returned code hfinished hall hexited =>
    rw [hnone] at hexited
    cases hexited

/-- **Each act in time keeps it.** -/
theorem Carried.step (h : Carried s) {act : Act} (hok : InTime s act)
    (hstep : s.step act = some t) : Carried t := by
  cases act with
  | input act =>
    obtain ⟨i, -, rfl⟩ := Option.map_eq_some_iff.1 hstep
    exact h.same i s.now s.deadline
  | write o data => exact h.write hstep
  | shut o =>
    cases hstep
    exact h.setOut (h.bytes o) (h.kind o) (fun hno => ⟨(h.copied o hno).1, rfl⟩) id
  | exit code => exact h.exit hstep
  | wait =>
    obtain ⟨-, ⟨⟩⟩ := Option.ite_none_right_eq_some.1 hstep
    exact h.same s.input s.now _
  | copy o n => exact h.copy hok hstep
  | pass ms =>
    cases hstep
    exact h.same s.input _ s.deadline
  | finish => exact h.finish hstep
  | receive => exact h.receive hstep

theorem Exec.Reached.carried {stdin : Bytes} (h : Exec.Reached InTime stdin s) : Carried s := by
  induction h with
  | start => exact carried_start stdin
  | step act _ hok hstep ih => exact ih.step hok hstep

theorem fed_start (stdin : Bytes) : Fed stdin { rest := stdin } := by
  refine ⟨ nil_prefix, ?_, ?_⟩
  · intro h
    cases h
  · intro _
    refine ⟨[], rfl, rfl, ?_, ?_, rfl, rfl⟩
    · intro h
      cases h
    · intro h
      cases h

theorem Exec.step_input {act : Act} (hstep : s.step act = some t) :
    t.input = s.input ∨ (∃ act, s.input.step act = some t.input) ∨
      t.input = { s.input with exited := true, reading := false } := by
  cases act with
  | input act =>
    obtain ⟨i, hi, rfl⟩ := Option.map_eq_some_iff.1 hstep
    exact .inr (.inl ⟨act, hi⟩)
  | exit code =>
    obtain ⟨-, ⟨⟩⟩ := Option.ite_none_right_eq_some.1 hstep
    exact .inr (.inr rfl)
  | _ =>
    refine .inl ?_
    simp only [Exec.step] at hstep
    repeat' split at hstep
    all_goals first | cases hstep; rfl | cases hstep

theorem Exec.Reached.fed {ok : Exec → Act → Prop} {stdin : Bytes} (h : Exec.Reached ok stdin s) :
    Fed stdin s.input := by
  induction h with
  | start => exact fed_start stdin
  | step act _ _ hstep ih =>
    rcases Exec.step_input hstep with hsame | ⟨act, hact⟩ | hexit
    · rw [hsame]
      exact ih
    · exact ih.step hact
    · rw [hexit]
      exact ih.of_flow rfl rfl fun hno => by cases hno

/-! ### The exit code comes

As with stdin some act always shortens the way: an output is closed or read on, the deadline set,
the code sent, a message received.
-/

def Output.way (p : Output) : Nat :=
  3 * p.pipe.length + (if p.isOpen then 1 else 0) + if p.copying then 1 else 0

/-- What is left to do but for the outputs. -/
def Exec.left (s : Exec) : Nat :=
  (if s.deadline = none then 1 else 0) + (if s.finished then 0 else 2) + s.down.length

/-- How far the client is from the exit code. -/
def Exec.way (s : Exec) : Nat := (s.out .stdout).way + (s.out .stderr).way + s.left

theorem way_setOut (s : Exec) (o : Out) (p : Output) :
    (s.setOut o p).way + (s.out o).way = s.way + p.way := by
  cases o with
  | stdout =>
    show p.way + (s.out .stderr).way + s.left + (s.out .stdout).way = s.way + p.way
    unfold Exec.way
    omega
  | stderr =>
    show (s.out .stdout).way + p.way + s.left + (s.out .stderr).way = s.way + p.way
    unfold Exec.way
    omega

theorem way_setOut_lt {p : Output} (h : p.way < (s.out o).way) : (s.setOut o p).way < s.way := by
  have hway := way_setOut s o p
  omega

theorem way_send (s : Exec) (message : Message) :
    ({ s with down := s.down ++ [message] } : Exec).way = s.way + 1 := by
  simp only [Exec.way, Exec.left, length_append, length_cons, length_nil]
  omega

/-- Some act in time leads on. -/
def Exec.Goes (s t : Exec) : Prop := ∃ act, InTime s act ∧ s.step act = some t

/-- The command has exited, and no deadline holds its outputs back. -/
structure Ending (stdin : Bytes) (s : Exec) : Prop where
  reached : Exec.Reached InTime stdin s
  exited : s.exited.isSome = true
  left : s.late = true → ∀ o, (s.out o).pipe = [] ∧ (s.out o).isOpen = false

/-- Some act brings the exit code nearer. -/
def Ending.Nears (stdin : Bytes) (s : Exec) : Prop :=
  ∃ t, s.Goes t ∧ (Ending stdin t ∧ t.exited = s.exited) ∧ t.way < s.way

variable {stdin : Bytes}

theorem Ending.shut (h : Ending stdin s) (hopen : (s.out o).isOpen = true) :
    Ending.Nears stdin s := by
  have hok : InTime s (.shut o) := trivial
  refine ⟨_, ⟨.shut o, hok, rfl⟩, ⟨⟨h.reached.step _ hok rfl, h.exited, ?_⟩, rfl⟩, ?_⟩
  · intro hlate
    have hclosed := (h.left hlate o).2
    rw [hopen] at hclosed
    cases hclosed
  · apply way_setOut_lt
    simp [Output.way, hopen]

theorem Ending.wait (h : Ending stdin s) (hnone : s.deadline = none) : Ending.Nears stdin s := by
  have hok : InTime s .wait := trivial
  have hstep : s.step .wait = some { s with deadline := some (s.now + outputDelay) } := by
    simp [Exec.step, h.exited, hnone]
  refine ⟨_, ⟨.wait, hok, hstep⟩, ⟨⟨h.reached.step _ hok hstep, h.exited, ?_⟩, rfl⟩, ?_⟩
  · intro hlate
    simp only [Exec.late, outputDelay, Option.any_some, decide_eq_true_eq] at hlate
    omega
  · simp only [Exec.way, Exec.left, hnone, if_true]
    simp

theorem Ending.ends (h : Ending stdin s) (hcopying : (s.out o).copying = true)
    (hpipe : (s.out o).pipe = []) (hclosed : (s.out o).isOpen = false) : Ending.Nears stdin s := by
  have hok : InTime s (.copy o 0) := fun hlate => h.left hlate o
  have hstep : s.step (.copy o 0) = some (s.setOut o { s.out o with copying := false }) := by
    simp [Exec.step, hcopying, hpipe, hclosed]
  refine ⟨_, ⟨.copy o 0, hok, hstep⟩, ⟨⟨h.reached.step _ hok hstep, h.exited, ?_⟩, rfl⟩, ?_⟩
  · intro hlate
    exact forall_setOut (P := fun _ p => p.pipe = [] ∧ p.isOpen = false) ⟨hpipe, hclosed⟩
      fun q _ => h.left hlate q
  · apply way_setOut_lt
    simp [Output.way, hcopying]

theorem Ending.copy (h : Ending stdin s) (hcopying : (s.out o).copying = true)
    (hpipe : (s.out o).pipe ≠ []) : Ending.Nears stdin s := by
  have hontime : s.late = false := by
    by_contra hlate
    exact hpipe (h.left (eq_true_of_ne_false hlate) o).1
  have hok : InTime s (.copy o 1) := fun hlate => h.left hlate o
  have hone : 1 ≤ (s.out o).pipe.length := length_pos_of_ne_nil hpipe
  have hroom : 1 ≤ (s.out o).writer.room := (s.out o).writer.room_pos
  have hstep : s.step (.copy o 1) = some (s.copied o 1) := by
    simp [Exec.step, hcopying, hontime, hpipe, hone, hroom, Exec.copied, Output.copied]
  refine ⟨_, ⟨.copy o 1, hok, hstep⟩, ⟨⟨h.reached.step _ hok hstep, h.exited, ?_⟩, rfl⟩, ?_⟩
  · intro hlate
    have hsame : s.late = true := hlate
    rw [hontime] at hsame
    cases hsame
  · -- a byte less to read is more than a message more to receive
    refine Nat.lt_of_le_of_lt (Nat.le_of_eq (way_send (s.setOut o _) _)) ?_
    have hway := way_setOut s o ((s.out o).copied 1)
    have hless : ((s.out o).copied 1).way + 3 = (s.out o).way := by
      rw [Output.copied]
      simp only [Output.way, length_drop]
      omega
    omega

theorem Ending.finish (h : Ending stdin s) (hdeadline : s.deadline ≠ none)
    (hcopied : ∀ o, (s.out o).copying = false) (hfinished : s.finished = false) :
    Ending.Nears stdin s := by
  obtain ⟨code, hexited⟩ := Option.isSome_iff_exists.1 h.exited
  have hok : InTime s .finish := trivial
  have hstep : s.step .finish =
      some { s with finished := true, down := s.down ++ [.exit code] } := by
    have hsome : s.deadline.isSome = true := Option.isSome_iff_ne_none.2 hdeadline
    simp [Exec.step, hexited, hsome, hcopied, hfinished]
  refine ⟨_, ⟨.finish, hok, hstep⟩, ⟨⟨h.reached.step _ hok hstep, h.exited, h.left⟩, rfl⟩, ?_⟩
  simp only [Exec.way, Exec.left, hfinished, if_true, Bool.false_eq_true, if_false,
    length_append,
    length_cons, length_nil]
  omega

theorem Ending.receive (h : Ending stdin s) (hresult : s.result = none) (hdown : s.down ≠ []) :
    Ending.Nears stdin s := by
  have hok : InTime s .receive := trivial
  obtain ⟨message, down, hcons⟩ := exists_cons_of_ne_nil hdown
  obtain ⟨received, result, hstep⟩ : ∃ received result,
      s.step .receive = some { s with down := down, received := received, result := result } := by
    cases message with
    | exit code => exact ⟨s.received, some code, by simp [Exec.step, hcons, hresult]⟩
    | frame data =>
      cases hread : readFrame data with
      | none => exact ⟨s.received, none, by simp [Exec.step, hcons, hresult, hread]⟩
      | some p => exact ⟨_, none, by simp [Exec.step, hcons, hresult, hread]; rfl⟩
  refine ⟨_, ⟨.receive, hok, hstep⟩, ⟨⟨h.reached.step _ hok hstep, h.exited, h.left⟩, rfl⟩, ?_⟩
  simp only [Exec.way, Exec.left, hcons, length_cons]
  omega

/-- **Until the client has the exit code something goes on.** -/
theorem Ending.nears (h : Ending stdin s) (hresult : s.result = none) : Ending.Nears stdin s := by
  by_cases hopen : ∃ o, (s.out o).isOpen = true
  · obtain ⟨o, ho⟩ := hopen
    exact h.shut ho
  by_cases hcopying : ∃ o, (s.out o).copying = true
  · obtain ⟨o, ho⟩ := hcopying
    by_cases hpipe : (s.out o).pipe = []
    · exact h.ends ho hpipe (eq_false_of_ne_true fun hyes => hopen ⟨o, hyes⟩)
    · exact h.copy ho hpipe
  have hcopied (o : Out) : (s.out o).copying = false :=
    eq_false_of_ne_true fun hyes => hcopying ⟨o, hyes⟩
  by_cases hdeadline : s.deadline = none
  · exact h.wait hdeadline
  cases h.reached.carried.phase with
  | running hfinished => exact h.finish hdeadline hcopied hfinished
  | sent frames code _ _ _ hdown => exact h.receive hresult (by simp [hdown])
  | returned code _ _ _ _ hsome =>
    rw [hresult] at hsome
    cases hsome

/-- **The exit code of a command that has exited can come to the client.** -/
theorem Ending.comes_to_result (h : Ending stdin s) :
    ∃ t, Relation.ReflTransGen Exec.Goes s t ∧ t.result.isSome = true ∧ t.result = s.exited := by
  have hnear (t : Exec) (ht : Ending stdin t ∧ t.exited = s.exited)
    (hgoal : ¬ t.result.isSome = true) :
      ∃ u, t.Goes u ∧ (Ending stdin u ∧ u.exited = s.exited) ∧ u.way < t.way := by
    obtain ⟨u, hgoes, ⟨hu, hexited⟩, hway⟩ := ht.1.nears (Option.not_isSome_iff_eq_none.1 hgoal)
    exact ⟨u, hgoes, ⟨hu, hexited.trans ht.2⟩, hway⟩
  obtain ⟨t, hrun, ⟨ht, hexited⟩, hsome⟩ := comes_to Exec.way hnear ⟨h, rfl⟩
  refine ⟨t, hrun, hsome, ?_⟩
  obtain ⟨code, hcode⟩ := Option.isSome_iff_exists.1 hsome
  rw [← hexited, hcode]
  exact (ht.reached.carried.phase.of_result hcode).2.2.symm

/-! ### Streams are carried unchanged -/

/-- What the streams of a command have in every state. -/
structure Unchanged (stdin : Bytes) (s : Exec) : Prop where
  /-- The command has got a part of the client's stdin, from its start on. -/
  stdin_part : s.input.got <+: stdin
  /-- At the end of file it has got all of it. -/
  stdin_whole : s.input.ended = true → s.input.got = stdin
  /-- While it reads it can come to that. -/
  stdin_comes : s.input.reading = true →
    ∃ j, Relation.ReflTransGen Input.Goes s.input j ∧ j.ended = true ∧ j.got = stdin
  /-- The client has got a part of each output, from its start on. -/
  output_part : ∀ o, s.received o <+: (s.out o).written
  /-- With the exit code it has got all of it. -/
  output_whole : ∀ code, s.result = some code →
    s.exited = some code ∧ ∀ o, s.received o = (s.out o).written
  /-- Before the deadline it can come to that. -/
  output_comes : s.exited.isSome = true → s.late = false →
    ∃ t, Relation.ReflTransGen Exec.Goes s t ∧ t.result.isSome = true ∧ t.result = s.exited

/-- **Streams are carried unchanged.**  However a stream is cut, its frames have its kind and its
bytes; and in every run in which no copier is late, however the parties' acts are interleaved, the
command gets the client's stdin and the client gets the command's outputs. -/
theorem streams_carried (h : Exec.Reached InTime stdin s) :
    (∀ kind writes,
      Framed (Kind.byte kind) writes.flatten ((FrameWriter.new kind).writes writes).2) ∧
      (∀ kind (supply : Supply),
        Framed (Kind.byte kind) supply.rest ((FrameWriter.new kind).readFrom supply).2) ∧
      Unchanged stdin s := by
  have hfed := h.fed
  have hcarried := h.carried
  refine ⟨fun kind writes => (FrameWriter.new kind).framed_writes writes,
    fun kind supply => framed_readFrom (FrameWriter.new kind) supply,
    hfed.part, hfed.whole, hfed.comes_through, ?_, ?_, ?_⟩
  · intro o
    refine ⟨carried o s.down ++ (s.out o).pipe, ?_⟩
    rw [← append_assoc]
    exact hcarried.bytes o
  · intro code hcode
    obtain ⟨hdown, hcopied, hexited⟩ := hcarried.phase.of_result hcode
    refine ⟨hexited, ?_⟩
    intro o
    have hbytes := hcarried.bytes o
    rw [hdown, (hcarried.copied o (hcopied o)).1] at hbytes
    simpa [carried] using hbytes
  · intro hexited hontime
    refine Ending.comes_to_result ⟨h, hexited, ?_⟩
    intro hlate
    rw [hontime] at hlate
    cases hlate

/-- The acts one after the other, as long as they are allowed. -/
def Exec.run (ok : Exec → Act → Prop) [∀ s act, Decidable (ok s act)] (s : Exec) :
    List Act → Option Exec
  | [] => some s
  | act :: acts => if ok s act then (s.step act).bind fun t => t.run ok acts else none

theorem Exec.Reached.run {ok : Exec → Act → Prop} [∀ s act, Decidable (ok s act)] {acts : List Act}
    (h : Exec.Reached ok stdin s) (hrun : s.run ok acts = some t) : Exec.Reached ok stdin t := by
  induction acts generalizing s with
  | nil =>
    cases hrun
    exact h
  | cons act acts ih =>
    rw [Exec.run] at hrun
    split at hrun
    · rename_i hok
      obtain ⟨u, hstep, hrun⟩ := Option.bind_eq_some_iff.1 hrun
      exact ih (h.step act hok hstep) hrun
    · cases hrun

/-- `tr a-z A-Z` on one byte, interrupted by a signal. -/
def upcase : List Act :=
  [.input (.send 1), .input (.control (.signal 1)), .input .sendEnd, .input .take, .input .next,
    .input .take, .input (.write 1), .input .take, .input (.read 1), .write .stdout [65],
    .input .next, .input .readEnd, .copy .stdout 1, .shut .stdout, .shut .stderr, .exit 0,
    .copy .stderr 0, .wait, .copy .stdout 0, .finish, .receive, .receive]

theorem upcase_carried :
    ∃ s, Exec.Reached InTime [97] s ∧ s.result = some 0 ∧ s.input.ended = true ∧
      s.received .stdout = [65] ∧ Unchanged [97] s := by
  have hrun : ((Exec.start [97]).run InTime upcase).map (fun s =>
      (s.result, s.input.ended, s.received .stdout)) = some (some 0, true, [65]) := by
    decide +kernel
  obtain ⟨s, hs, hend⟩ := Option.map_eq_some_iff.1 hrun
  simp only [Prod.mk.injEq] at hend
  have hreached := Exec.Reached.start.run hs
  exact ⟨s, hreached, hend.1, hend.2.1, hend.2.2, (streams_carried hreached).2.2⟩

/-- A client that takes two seconds for the first of two frames. -/
def slowClient : List Act :=
  [.write .stdout [1], .copy .stdout 1, .write .stdout [2], .shut .stdout, .shut .stderr, .exit 0,
    .wait, .copy .stderr 0, .pass 2000, .copy .stdout 1, .finish, .receive, .receive]

/-- **A slow client loses the end of an output.**  The deadline is for processes that can't be
killed, but it also ends a copier that has something left to read. -/
theorem slowClient_loses :
    ∃ s, Exec.Reached (fun _ _ => True) [] s ∧ s.result = some 0 ∧
      s.received .stdout = [1] ∧ (s.out .stdout).written = [1, 2] := by
  have hrun : ((Exec.start []).run (fun _ _ => True) slowClient).map (fun s =>
      (s.result, s.received .stdout, (s.out .stdout).written)) = some (some 0, [1], [1, 2]) := by
    decide +kernel
  obtain ⟨s, hs, hend⟩ := Option.map_eq_some_iff.1 hrun
  simp only [Prod.mk.injEq] at hend
  exact ⟨s, Exec.Reached.start.run hs, hend⟩

end Boxexec

end Fern

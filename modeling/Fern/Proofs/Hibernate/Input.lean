/-
The SDK's lines reach Claude, each once and in order.

`Fed` is what the loop keeps of its input: what the Claudes have read, what the round still has
to write and what waits for the next Claude are together what was read from the SDK; and each
Claude read its setup before anything else.  Only a Claude that ended by itself leaves lines
unread, and then `Run` ends with it, unless a tick takes that Claude for an idle one first: a
stop is begun without looking whether there is still something to stop.
-/
import Fern.Hibernate.Hibernator
import Fern.Lib.Run
import Fern.Proofs.Hibernate.Idle

namespace Fern

open List

variable {cfg : RunConfig}

/-! ### Who was given what -/

def Given.sdk? : Given → Option Bytes
  | .sdk line => some line
  | .setup _ => none

/-- The SDK's lines a Claude has read. -/
def Claude.lines (c : Claude) : List Bytes := c.stdin.filterMap Given.sdk?

namespace Hibernator

variable {c : Claude}

def Act.given? : Act → Option Given
  | .write g => some g
  | _ => none

def Act.noted? : Act → Option Bytes
  | .note line => some line
  | _ => none

variable (h : Hibernator)

/-- The SDK's lines the Claudes have read, one Claude after another. -/
def given : List Bytes := h.claudes.flatMap Claude.lines

/-- What is left of the round to write to Claude. -/
def toWrite : List Given := h.todo.filterMap Act.given?

/-- The SDK's lines left of the round to write to Claude. -/
def pending : List Bytes := h.toWrite.filterMap Given.sdk?

/-- The lines left of the round to show to the tracker. -/
def toNote : List Bytes := h.todo.filterMap Act.noted?

/-- Claude has ended, and not because it was stopped. -/
def Gone : Prop := ∃ c, h.c = some c ∧ c.done ≠ none ∧ h.stopping = none

/-- What a Claude started after `before` is told first. -/
def firstTold (json : Bytes → Option Message) (before : List Claude) : List Bytes :=
  if before = [] then [] else replays json (before.flatMap Claude.lines)

/-- A Claude that was told its setup, as far as it read, and then only lines of the SDK's. -/
def ToldFirst (c : Claude) : Prop :=
  ∃ lines : List Bytes, c.stdin <+: c.setup.map .setup ++ lines.map .sdk

/-- A tick at `now` begins an idle stop: the guards of `Run`'s tick. -/
def BeginsStop (cfg : RunConfig) (now : Time) : Prop :=
  h.ending = false ∧ h.stopping = none ∧
    ∃ since, h.st.idleSince = some since ∧ since + cfg.idle ≤ now

/-- A tick that begins an idle stop finds Claude still running.  Other ticks may come between
Claude's end and the loop's taking it. -/
def StopsRunning (cfg : RunConfig) (h : Hibernator) : Event → Prop
  | .tick now => h.BeginsStop cfg now → ∀ c, h.c = some c → c.done = none
  | _ => True

variable {h} in
theorem takeTick_of_not {now : Time} (hstop : h.stopping = none) (hnot : ¬ h.BeginsStop cfg now) :
    h.takeTick cfg now = h := by
  unfold takeTick
  cases hc : h.c with
  | none => rfl
  | some c =>
    by_cases hend : h.ending = true
    · simp [hend]
    · cases hidle : h.st.idleSince with
      | none => simp [hstop]
      | some since =>
        have hlate : ¬ since + cfg.idle ≤ now := fun hle =>
          hnot ⟨by simpa using hend, hstop, since, hidle, hle⟩
        simp [hstop, hlate]

/-- What the loop keeps of its input. -/
structure Fed (json : Bytes → Option Message) (h : Hibernator) : Prop where
  noted : ∃ lines, lines ++ h.toNote ++ h.waiting = h.read ∧
    ∀ sub ∈ replayed, h.st.setup.get sub = newest json sub lines
  whole : ¬ h.Gone → h.given ++ h.pending ++ h.waiting = h.read
  order : h.given <+: h.read
  stopping : h.stopping ≠ none → h.todo = [] ∧ h.c ≠ none
  waiting : h.stopping = none → h.waiting = []
  asleep : h.c = none → h.todo = [] ∧ h.past ≠ []
  past : Each (fun before c => c.setup = firstTold json before ∧ ToldFirst c) h.past
  setup : ∀ c, h.c = some c → c.setup = firstTold json h.past
  told : ∀ c, h.c = some c → ¬ h.Gone →
    ∃ lines : List Bytes, c.stdin ++ h.toWrite = c.setup.map .setup ++ lines.map .sdk
  first : ∀ c, h.c = some c → ToldFirst c

namespace Fed

variable {json : Bytes → Option Message} {cfg : RunConfig} {h h' : Hibernator}

theorem begin : Fed json (begin cfg) where
  noted := ⟨[], by simp [Hibernator.begin, toNote, newest, newStream]⟩
  whole _ := by simp [Hibernator.begin, given, claudes, pending, toWrite, Claude.lines]
  order := by simp [Hibernator.begin, given, claudes, Claude.lines]
  stopping hs := absurd rfl hs
  waiting _ := rfl
  asleep hc := by cases hc
  past := Each.nil
  setup := by
    rintro c ⟨⟩
    rfl
  told := by
    rintro c ⟨⟩ -
    exact ⟨[], rfl⟩
  first := by
    rintro c ⟨⟩
    exact ⟨[], nil_prefix⟩

/-! ### Steps that move no line

Most of a round touches neither the input nor what is to be written of it; such steps are done with
once. -/

/-- What of a Claude matters to its input. -/
def inputOf (c : Claude) : List Bytes × List Given × Option ExecResult := (c.setup, c.stdin, c.done)

/-- `h'` differs from `h` in nothing that matters to the input. -/
structure Same (h h' : Hibernator) : Prop where
  setup : h'.st.setup = h.st.setup
  past : h'.past = h.past
  c : h'.c.map inputOf = h.c.map inputOf
  waiting : h'.waiting = h.waiting
  stopping : h'.stopping = h.stopping
  todo : h'.todo = h.todo
  read : h'.read = h.read

namespace Same

theorem refl (h : Hibernator) : Same h h := ⟨rfl, rfl, rfl, rfl, rfl, rfl, rfl⟩

theorem trans {h'' : Hibernator} (a : Same h h') (b : Same h' h'') : Same h h'' :=
  ⟨b.setup.trans a.setup, b.past.trans a.past, b.c.trans a.c, b.waiting.trans a.waiting,
    b.stopping.trans a.stopping, b.todo.trans a.todo, b.read.trans a.read⟩

theorem c_none (same : Same h h') : h'.c = none ↔ h.c = none := by
  rw [← Option.map_eq_none_iff (f := inputOf), same.c, Option.map_eq_none_iff]

theorem c_some (same : Same h h') {c' : Claude} (hc' : h'.c = some c') :
    ∃ c, h.c = some c ∧ c'.setup = c.setup ∧ c'.stdin = c.stdin ∧ c'.done = c.done := by
  have hmap := same.c
  rw [hc', Option.map_some, eq_comm, Option.map_eq_some_iff] at hmap
  obtain ⟨c, hc, hkey⟩ := hmap
  simp only [inputOf, Prod.mk.injEq] at hkey
  exact ⟨c, hc, hkey.1.symm, hkey.2.1.symm, hkey.2.2.symm⟩

theorem gone (same : Same h h') (hg : h'.Gone) : h.Gone := by
  obtain ⟨c', hc', hdone, hstop⟩ := hg
  obtain ⟨c, hc, -, -, hd⟩ := same.c_some hc'
  exact ⟨c, hc, hd ▸ hdone, same.stopping ▸ hstop⟩

theorem symm (same : Same h h') : Same h' h :=
  ⟨same.setup.symm, same.past.symm, same.c.symm, same.waiting.symm, same.stopping.symm,
    same.todo.symm, same.read.symm⟩

theorem given (same : Same h h') : h'.given = h.given := by
  unfold Hibernator.given claudes
  rw [same.past, flatMap_append, flatMap_append]
  congr 1
  cases hc' : h'.c with
  | none => rw [same.c_none.mp hc']
  | some c' =>
    obtain ⟨c, hc, -, hstdin, -⟩ := same.c_some hc'
    simp [hc, Claude.lines, hstdin]

end Same

theorem same (fed : Fed json h) (same : Same h h') : Fed json h' where
  noted := by
    obtain ⟨lines, hread, hsetup⟩ := fed.noted
    refine ⟨lines, ?_, ?_⟩
    · rw [toNote, same.todo, same.waiting, same.read]
      exact hread
    · rw [same.setup]
      exact hsetup
  whole hgone := by
    have := fed.whole fun hg => hgone (same.symm.gone hg)
    rw [same.given, pending, toWrite, same.todo, same.waiting, same.read]
    exact this
  order := by
    rw [same.given, same.read]
    exact fed.order
  stopping hs := by
    rw [same.stopping] at hs
    obtain ⟨htodo, hc⟩ := fed.stopping hs
    exact ⟨same.todo.trans htodo, fun hnone => hc (same.c_none.mp hnone)⟩
  waiting hs := by
    rw [same.waiting]
    exact fed.waiting (same.stopping ▸ hs)
  asleep hc := by
    obtain ⟨htodo, hpast⟩ := fed.asleep (same.c_none.mp hc)
    exact ⟨same.todo.trans htodo, same.past ▸ hpast⟩
  past := same.past ▸ fed.past
  setup c' hc' := by
    obtain ⟨c, hc, hset, -, -⟩ := same.c_some hc'
    rw [hset, same.past]
    exact fed.setup c hc
  told c' hc' hgone := by
    obtain ⟨c, hc, hset, hstdin, -⟩ := same.c_some hc'
    rw [hset, hstdin, toWrite, same.todo]
    exact fed.told c hc fun hg => hgone (same.symm.gone hg)
  first c' hc' := by
    obtain ⟨c, hc, hset, hstdin, -⟩ := same.c_some hc'
    unfold ToldFirst
    rw [hset, hstdin]
    exact fed.first c hc

theorem same_pass (h : Hibernator) (now : Time) (ending line : Bytes) :
    Same h (h.pass json now ending line) := by
  refine ⟨?_, rfl, rfl, rfl, rfl, rfl, rfl⟩
  unfold pass Stream.Out
  cases json line with
  | none => rfl
  | some m => exact Stream.tell_setup _ _

variable (json) in
theorem same_passAll (now : Time) (ending : Bytes) (lines : List Bytes) (h : Hibernator) :
    Same h (lines.foldl (fun h line => h.pass json now ending line) h) := by
  induction lines generalizing h with
  | nil => exact Same.refl h
  | cons line lines ih => exact (same_pass h now ending line).trans (ih _)

theorem output (fed : Fed json h) (hc : h.c = some c) (now : Time) (p : Bytes) :
    Fed json (h.lineWrite json now c p) := by
  have hpass := same_passAll json now [newline] (cut newline (c.buf ++ p)).1 h
  refine fed.same ⟨hpass.setup, hpass.past, ?_, hpass.waiting, hpass.stopping, hpass.todo,
    hpass.read⟩
  rw [hc]
  rfl

/-! ### Claude ends, or is told to

Lines that come while Claude is being stopped wait for the next.  A Claude that ends by itself
leaves its own unread, and is `Gone`. -/

theorem of_c {P : Claude → Prop} (hc : h.c = some c) (hp : P c) (d : Claude) (hd : h.c = some d) :
    P d := by
  cases hc.symm.trans hd
  exact hp

theorem not_gone_of_running (hc : h.c = some c) (hrun : c.done = none) : ¬ h.Gone := by
  rintro ⟨c', hc', hdone, -⟩
  cases hc.symm.trans hc'
  exact hdone hrun

/-- A running Claude stays a reader of what it was given, whatever becomes of it. -/
theorem renew (fed : Fed json h) {c' : Claude} (hc : h.c = some c) (hrun : c.done = none)
    (hh' : h'.c = some c') (hsetup : c'.setup = c.setup) (hstdin : c'.stdin = c.stdin)
    (hst : h'.st = h.st) (hpast : h'.past = h.past) (hwaiting : h'.waiting = h.waiting)
    (htodo : h'.todo = h.todo) (hread : h'.read = h.read)
    (hstop : h'.stopping = h.stopping ∨ (h.todo = [] ∧ h'.stopping ≠ none)) : Fed json h' := by
  have hgone := not_gone_of_running hc hrun
  have hgiven : h'.given = h.given := by
    simp [given, claudes, hpast, hc, hh', Claude.lines, hstdin]
  have hwhole := fed.whole hgone
  exact {
    noted := by
      rw [toNote, hst, hwaiting, htodo, hread]
      exact fed.noted
    whole := fun _ => by
      rw [hgiven, pending, toWrite, hwaiting, htodo, hread]
      exact hwhole
    order := by
      rw [hgiven, hread]
      exact fed.order
    stopping := fun hs => by
      refine ⟨htodo.trans ?_, by simp [hh']⟩
      rcases hstop with heq | ⟨hnil, -⟩
      · exact (fed.stopping (heq ▸ hs)).1
      · exact hnil
    waiting := fun hs => by
      rcases hstop with heq | ⟨-, hne⟩
      · exact hwaiting.trans (fed.waiting (heq ▸ hs))
      · exact absurd hs hne
    asleep := fun hnone => by simp [hh'] at hnone
    past := hpast ▸ fed.past
    setup := of_c hh' (by
      rw [hsetup, hpast]
      exact fed.setup c hc)
    told := of_c hh' fun _ => by
      rw [hsetup, hstdin, toWrite, htodo]
      exact fed.told c hc hgone
    first := of_c hh' (by
      unfold ToldFirst
      rw [hsetup, hstdin]
      exact fed.first c hc) }

theorem exit (fed : Fed json h) (hc : h.c = some c) (hrun : c.done = none) (now : Time)
    (r : ExecResult) :
    Fed json { h.flush json now c with c := some { c with done := some r } } := by
  have hflush : Same h (h.flush json now c) ∧ (h.flush json now c).c = some c := by
    unfold flush
    split
    · exact ⟨Same.refl h, hc⟩
    · exact ⟨same_pass h now [] c.buf, hc⟩
  exact (fed.same hflush.1).renew hflush.2 hrun rfl rfl rfl rfl rfl rfl rfl rfl (.inl rfl)

theorem todo_of_selecting (hsel : h.selecting = true) : h.todo = [] := by
  simp only [selecting, Bool.and_eq_true, List.isEmpty_iff] at hsel
  exact hsel.2

theorem tick (fed : Fed json h) (hsel : h.selecting = true) (now : Time)
    (hcond : h.StopsRunning cfg (.tick now)) : Fed json (h.takeTick cfg now) := by
  have htodo := todo_of_selecting hsel
  unfold takeTick
  cases hc : h.c with
  | none => exact fed
  | some c =>
    dsimp only
    split
    · exact fed
    rename_i hend
    cases hstop : h.stopping with
    | some since =>
      dsimp only
      split
      · refine fed.same ⟨rfl, rfl, ?_, rfl, ?_, rfl, rfl⟩
        · simp [hc, inputOf]
        · simp [hstop]
      · exact fed
    | none =>
      cases hidle : h.st.idleSince with
      | none => exact fed
      | some since =>
        dsimp only
        split
        · rename_i hlate
          have hrun : c.done = none :=
            hcond ⟨by simpa using hend, hstop, since, hidle, hlate⟩ c hc
          exact fed.renew hc hrun rfl rfl rfl rfl rfl rfl rfl rfl (.inr ⟨htodo, (by simp)⟩)
        · exact fed

/-! ### A line of the SDK's -/

theorem toWrite_send (lines : List Bytes) :
    (lines.flatMap send).filterMap Act.given? = lines.map .sdk := by
  induction lines with
  | nil => rfl
  | cons line lines ih => simp [send, filterMap_cons, Act.given?, ih]

theorem toNote_send (lines : List Bytes) : (lines.flatMap send).filterMap Act.noted? = lines := by
  induction lines with
  | nil => rfl
  | cons line lines ih => simp [send, filterMap_cons, Act.noted?, ih]

theorem toWrite_setup (lines : List Bytes) :
    (lines.map fun line => Act.write (.setup line)).filterMap Act.given? = lines.map .setup := by
  induction lines with
  | nil => rfl
  | cons line lines ih => simp [Act.given?, ih]

theorem toNote_setup (lines : List Bytes) :
    (lines.map fun line => Act.write (.setup line)).filterMap Act.noted? = [] := by
  simp [Act.noted?]

theorem sdk_of_sdk (lines : List Bytes) : (lines.map Given.sdk).filterMap Given.sdk? = lines := by
  induction lines with
  | nil => rfl
  | cons line lines ih => simp [Given.sdk?, ih]

theorem sdk_of_setup (lines : List Bytes) : (lines.map Given.setup).filterMap Given.sdk? = [] := by
  simp [Given.sdk?]

/-- Between two Claudes: what the tracker has to replay is the newest of what those before
have read. -/
structure Resting (json : Bytes → Option Message) (h : Hibernator) : Prop where
  past : Each (fun before c => c.setup = firstTold json before ∧ ToldFirst c) h.past
  nonempty : h.past ≠ []
  setup : ∀ sub ∈ replayed, h.st.setup.get sub = newest json sub (h.past.flatMap Claude.lines)

theorem resting (fed : Fed json h) (hc : h.c = none) (hstop : h.stopping = none) :
    Resting json h ∧ h.past.flatMap Claude.lines = h.read := by
  obtain ⟨htodo, hpast⟩ := fed.asleep hc
  have hwaiting := fed.waiting hstop
  have hgone : ¬ h.Gone := by
    rintro ⟨c, hsome, -⟩
    simp [hc] at hsome
  have hread : h.past.flatMap Claude.lines = h.read := by
    have := fed.whole hgone
    simpa [given, claudes, hc, pending, toWrite, htodo, hwaiting] using this
  refine ⟨⟨fed.past, hpast, ?_⟩, hread⟩
  obtain ⟨lines, hlines, hsetup⟩ := fed.noted
  have : lines = h.read := by simpa [toNote, htodo, hwaiting] using hlines
  rw [hread, ← this]
  exact hsetup

theorem Resting.restart (hrest : Resting json h) (lines : List Bytes) (last : List Act)
    (hc : h'.c = some c) (hsetup : c.setup = h.st.setupLines) (hstdin : c.stdin = [])
    (hst : h'.st = h.st.restart json) (hpast : h'.past = h.past) (hstop : h'.stopping = none)
    (hwaiting : h'.waiting = [])
    (htodo : h'.todo = (h.st.setupLines.map fun line => .write (.setup line)) ++
      lines.flatMap send ++ last)
    (hlast : last.filterMap Act.given? = [] ∧ last.filterMap Act.noted? = [])
    (hread : h'.read = h.past.flatMap Claude.lines ++ lines) : Fed json h' := by
  have hwrite : h'.toWrite = c.setup.map .setup ++ lines.map .sdk := by
    rw [toWrite, htodo, filterMap_append, filterMap_append, toWrite_setup, toWrite_send,
      hlast.1, append_nil, hsetup]
  have hnote : h'.toNote = lines := by
    rw [toNote, htodo, filterMap_append, filterMap_append, toNote_setup, toNote_send,
      hlast.2, append_nil, nil_append]
  have hgiven : h'.given = h.past.flatMap Claude.lines := by
    simp [given, claudes, hpast, hc, Claude.lines, hstdin]
  exact {
    noted := ⟨h.past.flatMap Claude.lines, by rw [hnote, hwaiting, hread, append_nil], by
      rw [hst]
      exact hrest.setup⟩
    whole := fun _ => by
      rw [hgiven, pending, hwrite, filterMap_append, sdk_of_setup, sdk_of_sdk, hwaiting, hread]
      simp
    order := by
      rw [hgiven, hread]
      exact prefix_append _ _
    stopping := fun hs => absurd hstop hs
    waiting := fun _ => hwaiting
    asleep := fun hnone => by simp [hc] at hnone
    past := hpast ▸ hrest.past
    setup := of_c hc (by
      rw [hsetup, hpast, firstTold, if_neg hrest.nonempty]
      exact filterMap_congr hrest.setup)
    told := of_c hc fun _ => ⟨lines, by rw [hstdin, nil_append, hwrite]⟩
    first := of_c hc ⟨[], by rw [hstdin]; exact nil_prefix⟩ }

theorem Resting.asleep (hrest : Resting json h) (hc : h.c = none) (hstop : h.stopping = none)
    (htodo : h.todo = []) (hwaiting : h.waiting = [])
    (hread : h.read = h.past.flatMap Claude.lines) : Fed json h where
  noted := ⟨h.read, by simp [toNote, htodo, hwaiting], hread ▸ hrest.setup⟩
  whole _ := by simp [given, claudes, hc, pending, toWrite, htodo, hwaiting, hread]
  order := by simp [given, claudes, hc, hread]
  stopping hs := absurd hstop hs
  waiting _ := hwaiting
  asleep _ := ⟨htodo, hrest.nonempty⟩
  past := hrest.past
  setup := by simp [hc]
  told := by simp [hc]
  first := by simp [hc]

/-- After a stop: the lines that waited go to the next Claude, and the end of input after
them. -/
theorem Resting.resumed (hrest : Resting json h) (hc : h.c = none) (hstop : h.stopping = none)
    (htodo : h.todo = []) (hread : h.read = h.past.flatMap Claude.lines ++ h.waiting) :
    Fed json (h.resume json cfg).resumeEOF := by
  by_cases hwaiting : h.waiting = []
  · have hresume : h.resume json cfg = h := by simp [resume, hwaiting]
    rw [hresume]
    have fed := hrest.asleep hc hstop htodo hwaiting (by rw [hread, hwaiting, append_nil])
    unfold resumeEOF
    split
    · exact fed
    · rw [hc]
      exact fed.same ⟨rfl, rfl, by simp [hc], rfl, rfl, rfl, rfl⟩
  · unfold resume
    rw [if_neg hwaiting]
    unfold resumeEOF
    split
    · exact hrest.restart h.waiting [] rfl rfl rfl rfl rfl hstop rfl
        (by simp [Hibernator.restart]) ⟨rfl, rfl⟩ hread
    · exact hrest.restart h.waiting [.endInput] rfl rfl rfl rfl rfl hstop rfl
        (by simp [Hibernator.restart]) ⟨rfl, rfl⟩ hread

theorem send (fed : Fed json h) (hc : h.c = some c) (hstop : h.stopping = none)
    (htodo : h.todo = []) (line : Bytes) :
    Fed json { h with read := h.read ++ [line], todo := Hibernator.send line } := by
  have hwaiting := fed.waiting hstop
  obtain ⟨lines, hlines, hsetup⟩ := fed.noted
  have hnoted : lines = h.read := by simpa [toNote, htodo, hwaiting] using hlines
  exact {
    noted := by
      refine ⟨lines, ?_, hsetup⟩
      simp [toNote, Hibernator.send, Act.noted?, hwaiting, hnoted, filterMap_cons]
    whole := fun hgone => by
      have hwhole := fed.whole hgone
      simp only [pending, toWrite, htodo, hwaiting, filterMap_nil, append_nil] at hwhole
      have hg : Hibernator.given { h with read := h.read ++ [line], todo := Hibernator.send line } =
          h.read := hwhole
      rw [hg]
      simp [pending, toWrite, Hibernator.send, filterMap_cons, Act.given?,
        Given.sdk?, hwaiting]
    order := fed.order.trans (prefix_append _ _)
    stopping := fun hs => absurd hstop hs
    waiting := fun _ => hwaiting
    asleep := fun hnone => by simp [hc] at hnone
    past := fed.past
    setup := fed.setup
    told := fun d hd hgone => by
      obtain ⟨told, htold⟩ := fed.told d hd hgone
      refine ⟨told ++ [line], ?_⟩
      simp only [toWrite, htodo, filterMap_nil, append_nil] at htold
      simp [toWrite, Hibernator.send, filterMap_cons, Act.given?, htold]
    first := fed.first }

theorem wait (fed : Fed json h) (hstop : h.stopping ≠ none) (line : Bytes) :
    Fed json { h with read := h.read ++ [line], waiting := h.waiting ++ [line] } where
  noted := by
    obtain ⟨lines, hlines, hsetup⟩ := fed.noted
    exact ⟨lines, by rw [← hlines]; simp [toNote], hsetup⟩
  whole hgone := by
    rw [← fed.whole hgone]
    simp [given, pending, toWrite, claudes]
  order := fed.order.trans (prefix_append _ _)
  stopping := fed.stopping
  waiting hs := absurd hs hstop
  asleep := fed.asleep
  past := fed.past
  setup := fed.setup
  told := fed.told
  first := fed.first

theorem line (fed : Fed json h) (hsel : h.selecting = true) (line : Bytes) :
    Fed json (h.takeLine json cfg line) := by
  have htodo := todo_of_selecting hsel
  by_cases hstop : h.stopping = none
  · cases hc : h.c with
    | some c =>
      have htake : h.takeLine json cfg line =
          { h with read := h.read ++ [line], todo := Hibernator.send line } := by
        simp [takeLine, hstop, hc]
      rw [htake]
      exact fed.send hc hstop htodo line
    | none =>
      have htake : h.takeLine json cfg line =
          { h.restart json cfg with
            read := h.read ++ [line]
            todo := (h.restart json cfg).todo ++ Hibernator.send line } := by
        simp [takeLine, hstop, hc, Hibernator.restart]
      rw [htake]
      obtain ⟨hrest, hread⟩ := fed.resting hc hstop
      exact hrest.restart [line] [] rfl rfl rfl rfl rfl hstop
        (fed.waiting hstop) (by simp [Hibernator.restart]) ⟨rfl, rfl⟩ (by rw [hread])
  · have htake : h.takeLine json cfg line =
        { h with read := h.read ++ [line], waiting := h.waiting ++ [line] } := by
      simp [takeLine, Option.isSome_iff_ne_none, hstop]
    rw [htake]
    exact fed.wait hstop line

/-! ### The end of a Claude that was stopped -/

theorem exited (fed : Fed json h) (hsel : h.selecting = true) (hc : h.c = some c) (r : ExecResult) :
    Fed json (h.takeExit json cfg c r) := by
  have htodo := todo_of_selecting hsel
  unfold takeExit
  by_cases hret : (h.stopping.isNone || h.ending) = true
  · rw [if_pos hret]
    exact fed.same ⟨rfl, rfl, rfl, rfl, rfl, rfl, rfl⟩
  rw [if_neg hret]
  have hstop : h.stopping ≠ none := by
    intro hnone
    simp [hnone] at hret
  have hgone : ¬ h.Gone := fun ⟨_, _, _, hnone⟩ => hstop hnone
  -- What the Claudes have read is what the tracker was shown.
  have hread : h.past.flatMap Claude.lines ++ c.lines ++ h.waiting = h.read := by
    have := fed.whole hgone
    simpa [given, claudes, hc, pending, toWrite, htodo] using this
  obtain ⟨lines, hlines, hsetup⟩ := fed.noted
  have hnoted : lines = h.past.flatMap Claude.lines ++ c.lines := by
    have happ : lines ++ h.waiting = h.past.flatMap Claude.lines ++ c.lines ++ h.waiting := by
      rw [hread, ← hlines]
      simp [toNote, htodo]
    exact append_cancel_right happ
  generalize hh₁ : ({ h with
    c := none, past := h.past ++ [c], stopping := none, code := stopCode r } : Hibernator) = h₁
  have hpast₁ : h₁.past.flatMap Claude.lines = h.past.flatMap Claude.lines ++ c.lines := by
    simp [← hh₁]
  have hrest : Resting json h₁ := by
    refine ⟨?_, by simp [← hh₁], ?_⟩
    · rw [← hh₁]
      exact Each.concat.mpr ⟨fed.past, fed.setup c hc, fed.first c hc⟩
    · rw [hpast₁, ← hnoted, ← hh₁]
      exact hsetup
  have hread₁ : h₁.read = h₁.past.flatMap Claude.lines ++ h₁.waiting := by
    rw [hpast₁, ← hh₁, hread]
  have hc₁ : h₁.c = none := by rw [← hh₁]
  have hstop₁ : h₁.stopping = none := by rw [← hh₁]
  have htodo₁ : h₁.todo = [] := by rw [← hh₁, htodo]
  exact hrest.resumed hc₁ hstop₁ htodo₁ hread₁

/-! ### The statements of a round

A round is a list of statements, and each moves at most one line: out of the round and into Claude's
input. -/

theorem In_setup {s : Stream} {sub : RequestSubtype} {sent : List Bytes} (hsub : sub ∈ replayed)
    (hs : s.setup.get sub = newest json sub sent) (now : Time) (line : Bytes) :
    (s.In json now line).setup.get sub = newest json sub (sent ++ [line]) := by
  unfold Stream.In
  cases hm : json line with
  | none => rw [newest_concat_of_undecoded hm, ← hs]
  | some m =>
    rw [newest_concat, ← hs]
    simp [Stream.hear_setup _ _ _ hsub, isSetup, hm]

variable {todo : List Act}

theorem running_of_todo (fed : Fed json h) {a : Act} (htodo : h.todo = a :: todo) :
    h.stopping = none ∧ ∃ c, h.c = some c := by
  refine ⟨?_, ?_⟩
  · by_contra hstop
    have := (fed.stopping hstop).1
    simp [htodo] at this
  · cases hc : h.c with
    | some c => exact ⟨c, rfl⟩
    | none =>
      have := (fed.asleep hc).1
      simp [htodo] at this

theorem note (fed : Fed json h) {line : Bytes} (htodo : h.todo = .note line :: todo) (now : Time) :
    Fed json { h with todo := todo, st := h.st.In json now line } := by
  obtain ⟨hstop, c, hc⟩ := fed.running_of_todo htodo
  have hwrite : h.toWrite = todo.filterMap Act.given? := by
    simp [toWrite, htodo, filterMap_cons, Act.given?]
  exact {
    noted := by
      obtain ⟨lines, hlines, hsetup⟩ := fed.noted
      refine ⟨lines ++ [line], ?_, fun sub hsub => In_setup hsub (hsetup sub hsub) now line⟩
      rw [← hlines]
      simp [toNote, htodo, Act.noted?]
    whole := fun hgone => by
      have := fed.whole hgone
      rwa [pending, hwrite] at this
    order := fed.order
    stopping := fun hs => absurd hstop hs
    waiting := fed.waiting
    asleep := fun hnone => by simp [hc] at hnone
    past := fed.past
    setup := fed.setup
    told := fun d hd hgone => by
      have := fed.told d hd hgone
      rwa [hwrite] at this
    first := fed.first }

/-- A statement that gives Claude nothing: the end of input, or a write to a Claude that has
ended, which is lost. -/
theorem skip (fed : Fed json h) {a : Act} (htodo : h.todo = a :: todo) (hnote : a.noted? = none)
    (hgiven : a.given? = none ∨ h.Gone) : Fed json { h with todo := todo } := by
  obtain ⟨hstop, c, hc⟩ := fed.running_of_todo htodo
  have hwrite : ¬ h.Gone → h.toWrite = todo.filterMap Act.given? := by
    intro hgone
    rw [toWrite, htodo, filterMap_cons_none (hgiven.resolve_right hgone)]
  exact {
    noted := by
      obtain ⟨lines, hlines, hsetup⟩ := fed.noted
      refine ⟨lines, ?_, hsetup⟩
      rw [← hlines, toNote, toNote, htodo, filterMap_cons_none hnote]
    whole := fun hgone => by
      have := fed.whole hgone
      rwa [pending, hwrite hgone] at this
    order := fed.order
    stopping := fun hs => absurd hstop hs
    waiting := fed.waiting
    asleep := fun hnone => by simp [hc] at hnone
    past := fed.past
    setup := fed.setup
    told := fun d hd hgone => by
      have := fed.told d hd hgone
      rwa [hwrite hgone] at this
    first := fed.first }

theorem write (fed : Fed json h) {g : Given} (htodo : h.todo = .write g :: todo)
    (hc : h.c = some c) (hrun : c.done = none) :
    Fed json { h with todo := todo, c := some { c with stdin := c.stdin ++ [g] } } := by
  obtain ⟨hstop, -⟩ := fed.running_of_todo htodo
  have hgone := not_gone_of_running hc hrun
  have hwrite : h.toWrite = g :: todo.filterMap Act.given? := by
    simp [toWrite, htodo, Act.given?]
  obtain ⟨lines, hlines⟩ := fed.told c hc hgone
  rw [hwrite] at hlines
  have hread := fed.whole hgone
  have hgiven : h.given = h.past.flatMap Claude.lines ++ c.lines := by simp [given, claudes, hc]
  have hgiven' : Hibernator.given
      { h with todo := todo, c := some { c with stdin := c.stdin ++ [g] } } =
        h.given ++ [g].filterMap Given.sdk? := by
    simp [given, claudes, hc, Claude.lines]
  have hpending : h.pending = [g].filterMap Given.sdk? ++
      (todo.filterMap Act.given?).filterMap Given.sdk? := by
    rw [pending, hwrite, ← filterMap_append]
    rfl
  exact {
    noted := by
      obtain ⟨lines, hlines, hsetup⟩ := fed.noted
      refine ⟨lines, ?_, hsetup⟩
      rw [← hlines, toNote, toNote, htodo, filterMap_cons_none rfl]
    whole := fun _ => by
      rw [hgiven', ← hread, hpending]
      simp [pending, toWrite]
    order := by
      rw [hgiven', ← hread, hpending]
      exact ⟨_, by simp; rfl⟩
    stopping := fun hs => absurd hstop hs
    waiting := fed.waiting
    asleep := (by simp)
    past := fed.past
    setup := by
      rintro d ⟨⟩
      exact fed.setup c hc
    told := by
      rintro d ⟨⟩ -
      exact ⟨lines, by rw [← hlines]; simp [toWrite]⟩
    first := by
      rintro d ⟨⟩
      exact ⟨lines, _, by rw [← hlines]; simp; rfl⟩ }

theorem act (fed : Fed json h) {a : Act} (htodo : h.todo = a :: todo) (now : Time) :
    Fed json ({ h with todo := todo }.act json now a) := by
  obtain ⟨hstop, c, hc⟩ := fed.running_of_todo htodo
  cases a with
  | note line => exact fed.note htodo now
  | write g =>
    by_cases hdone : c.done = none
    · have hact : ({ h with todo := todo } : Hibernator).act json now (.write g) =
          { h with todo := todo, c := some { c with stdin := c.stdin ++ [g] } } := by
        simp [Hibernator.act, hc, hdone]
      rw [hact]
      exact fed.write htodo hc hdone
    · have hact : ({ h with todo := todo } : Hibernator).act json now (.write g) =
          { h with todo := todo } := by
        simp [Hibernator.act, hc, Option.isSome_iff_ne_none, hdone]
      rw [hact]
      exact fed.skip htodo rfl (.inr ⟨c, hc, hdone, hstop⟩)
  | endInput =>
    refine (fed.skip htodo rfl (.inl rfl)).same ⟨rfl, rfl, ?_, rfl, rfl, rfl, rfl⟩
    simp [Hibernator.act, hc, inputOf]

/-! ### Whole runs -/

theorem eof (fed : Fed json h) : Fed json h.takeEOF := by
  unfold takeEOF
  cases hc : h.c with
  | none => exact fed.same ⟨rfl, rfl, by simp [hc], rfl, rfl, rfl, rfl⟩
  | some c =>
    dsimp only
    split
    · exact fed.same ⟨rfl, rfl, by simp [hc], rfl, rfl, rfl, rfl⟩
    · exact fed.same ⟨rfl, rfl, by simp [hc, inputOf], rfl, rfl, rfl, rfl⟩

theorem signal (fed : Fed json h) (sig : Nat) : Fed json (h.takeSignal sig) := by
  unfold takeSignal
  cases hc : h.c with
  | none => exact fed.same ⟨rfl, rfl, by simp [hc], rfl, rfl, rfl, rfl⟩
  | some c => exact fed.same ⟨rfl, rfl, by simp [hc, inputOf], rfl, rfl, rfl, rfl⟩

end Fed

/-- The rounds of the loop, and what Claude does. -/
inductive Goes (json : Bytes → Option Message) (cfg : RunConfig) (h : Hibernator) :
    Event → Hibernator → Prop
  | line (line : Bytes) (hsel : h.selecting = true) :
    Goes json cfg h (.line line) (h.takeLine json cfg line)
  | eof (hsel : h.selecting = true) : Goes json cfg h .eof h.takeEOF
  | signal (sig : Nat) (hsel : h.selecting = true) :
    Goes json cfg h (.signal sig) (h.takeSignal sig)
  | exited {c : Claude} {r : ExecResult} (hc : h.c = some c) (hr : c.done = some r)
    (hsel : h.selecting = true) : Goes json cfg h .exited (h.takeExit json cfg c r)
  | tick (now : Time) (hsel : h.selecting = true) :
    Goes json cfg h (.tick now) (h.takeTick cfg now)
  | next (now : Time) {a : Act} {todo : List Act} (htodo : h.todo = a :: todo)
    (hret : h.returned = none) : Goes json cfg h (.next now)
      ({ h with todo := todo }.act json now a)
  | output (now : Time) (p : Bytes) {c : Claude} (hc : h.c = some c) (hrun : c.done = none) :
    Goes json cfg h (.output now p) (h.lineWrite json now c p)
  | exit (now : Time) (r : ExecResult) {c : Claude} (hc : h.c = some c) (hrun : c.done = none) :
    Goes json cfg h (.exit now r) { h.flush json now c with c := some { c with done := some r } }

theorem goes_of_step {json : Bytes → Option Message} {h h' : Hibernator} {e : Event}
    (hstep : h.step json cfg e = some h') : Goes json cfg h e h' := by
  cases e with
  | line line =>
    obtain ⟨hok, ⟨⟩⟩ := Option.ite_none_right_eq_some.1 hstep
    exact .line line (Bool.and_eq_true_iff.1 hok).1
  | eof =>
    obtain ⟨hok, ⟨⟩⟩ := Option.ite_none_right_eq_some.1 hstep
    exact .eof (Bool.and_eq_true_iff.1 hok).1
  | signal sig =>
    obtain ⟨hsel, ⟨⟩⟩ := Option.ite_none_right_eq_some.1 hstep
    exact .signal sig hsel
  | exited =>
    cases hc : h.c with
    | none => simp [step, hc] at hstep
    | some c =>
      cases hr : c.done with
      | none => simp [step, hc, hr] at hstep
      | some r =>
        simp only [step, hc, hr] at hstep
        obtain ⟨hsel, ⟨⟩⟩ := Option.ite_none_right_eq_some.1 hstep
        exact .exited hc hr hsel
  | tick now =>
    obtain ⟨hsel, ⟨⟩⟩ := Option.ite_none_right_eq_some.1 hstep
    exact .tick now hsel
  | next now =>
    cases htodo : h.todo with
    | nil => simp [step, htodo] at hstep
    | cons a todo =>
      simp only [step, htodo] at hstep
      obtain ⟨hret, ⟨⟩⟩ := Option.ite_none_right_eq_some.1 hstep
      exact .next now htodo (Option.isNone_iff_eq_none.1 hret)
  | output now p =>
    cases hc : h.c with
    | none => simp [step, hc] at hstep
    | some c =>
      simp only [step, hc] at hstep
      obtain ⟨hrun, ⟨⟩⟩ := Option.ite_none_right_eq_some.1 hstep
      exact .output now p hc (Option.isNone_iff_eq_none.1 hrun)
  | exit now r =>
    cases hc : h.c with
    | none => simp [step, hc] at hstep
    | some c =>
      simp only [step, hc] at hstep
      obtain ⟨hrun, ⟨⟩⟩ := Option.ite_none_right_eq_some.1 hstep
      exact .exit now r hc (Option.isNone_iff_eq_none.1 hrun)

theorem Fed.step {json : Bytes → Option Message} {h h' : Hibernator} {e : Event} (fed : Fed json h)
    (hcond : h.StopsRunning cfg e) (hstep : h.step json cfg e = some h') :
    Fed json h' := by
  cases goes_of_step hstep with
  | line line hsel => exact fed.line hsel line
  | eof => exact fed.eof
  | signal sig => exact fed.signal sig
  | exited hc hr hsel => exact fed.exited hsel hc _
  | tick now hsel => exact fed.tick hsel now hcond
  | next now htodo => exact fed.act htodo now
  | output now p hc => exact fed.output hc now p
  | exit now r hc hrun => exact fed.exit hc hrun now r

/-! ### What `Run` returns -/

/-- What `Run` returned while it had a Claude is what that Claude's exec returned. -/
def ReturnsExit (h : Hibernator) : Prop :=
  ∀ res, h.returned = some res → ∀ c, h.c = some c → c.done = some res

section

variable {json : Bytes → Option Message} {cfg : RunConfig} {h h' : Hibernator} {e : Event}

theorem returned_of_selecting (hsel : h.selecting = true) : h.returned = none := by
  simp only [selecting, Bool.and_eq_true, Option.isNone_iff_eq_none] at hsel
  exact hsel.1

theorem ReturnsExit.of_none (hret : h.returned = none) : h.ReturnsExit := by
  intro res hres
  simp [hret] at hres

theorem passAll_returned (now : Time) (ending : Bytes) (lines : List Bytes) (h : Hibernator) :
    (lines.foldl (fun h line => h.pass json now ending line) h).returned = h.returned := by
  induction lines generalizing h with
  | nil => rfl
  | cons line lines ih => exact ih _

theorem flush_returned (now : Time) (c : Claude) :
    (h.flush json now c).returned = h.returned := by
  unfold flush
  split <;> rfl

theorem takeLine_returned (line : Bytes) : (h.takeLine json cfg line).returned = h.returned := by
  dsimp only [takeLine]
  split
  · rfl
  · split <;> rfl

theorem takeTick_returned (now : Time) : (h.takeTick cfg now).returned = h.returned := by
  unfold takeTick
  repeat' split
  all_goals rfl

theorem act_returned (now : Time) (a : Act) : (h.act json now a).returned = h.returned := by
  cases a with
  | note line => rfl
  | write g =>
    unfold act
    repeat' split
    all_goals rfl
  | endInput => rfl

theorem ReturnsExit.resumed (hret : h.returned = none) (hc : h.c = none) :
    (h.resume json cfg).resumeEOF.ReturnsExit := by
  unfold resume
  split
  · unfold resumeEOF
    split
    · exact .of_none hret
    · rw [hc]
      intro res hres c hsome
      simp at hsome
  · unfold resumeEOF
    split <;> exact .of_none hret

theorem ReturnsExit.step (hexit : h.ReturnsExit) (hstep : h.step json cfg e = some h') :
    h'.ReturnsExit := by
  -- A Claude that still runs is not one `Run` has returned the end of.
  have hnone : ∀ c, h.c = some c → c.done = none → h.returned = none := by
    intro c hc hrun
    by_contra hne
    obtain ⟨res, hres⟩ := Option.ne_none_iff_exists'.mp hne
    have := hexit res hres c hc
    simp [hrun] at this
  cases goes_of_step hstep with
  | line line hsel => exact .of_none ((takeLine_returned line).trans (returned_of_selecting hsel))
  | eof hsel =>
    unfold takeEOF
    cases hc : h.c with
    | none =>
      intro res hres c hsome
      simp at hsome
    | some c =>
      refine .of_none ?_
      dsimp only
      split <;> exact returned_of_selecting hsel
  | signal sig hsel =>
    unfold takeSignal
    cases hc : h.c with
    | none =>
      intro res hres c hsome
      simp at hsome
    | some c => exact .of_none (returned_of_selecting hsel)
  | exited hc hr hsel =>
    unfold takeExit
    split
    · intro res hres d hd
      cases hc.symm.trans hd
      exact hr.trans hres
    · exact .resumed (returned_of_selecting hsel) rfl
  | tick now hsel => exact .of_none ((takeTick_returned now).trans (returned_of_selecting hsel))
  | next now htodo hret => exact .of_none ((act_returned now _).trans hret)
  | output now p hc hrun => exact .of_none ((passAll_returned _ _ _ _).trans (hnone _ hc hrun))
  | exit now r hc hrun => exact .of_none ((flush_returned now _).trans (hnone _ hc hrun))

/-! ### A Claude that ended by itself is the last -/

theorem Gone.step (hgone : h.Gone) (hcond : h.StopsRunning cfg e)
    (hstep : h.step json cfg e = some h') : h'.Gone ∧ h'.given = h.given := by
  obtain ⟨c, hc, hdone, hstop⟩ := hgone
  have keep : ∀ (h₁ : Hibernator) (c₁ : Claude), h₁.c = some c₁ → c₁.done = c.done →
      c₁.stdin = c.stdin → h₁.stopping = h.stopping → h₁.past = h.past →
      h₁.Gone ∧ h₁.given = h.given := by
    intro h₁ c₁ hc₁ hd₁ hin₁ hstop₁ hpast₁
    refine ⟨⟨c₁, hc₁, hd₁ ▸ hdone, hstop₁.trans hstop⟩, ?_⟩
    simp [given, claudes, hpast₁, hc, hc₁, Claude.lines, hin₁]
  cases goes_of_step hstep with
  | line line => refine keep _ c ?_ rfl rfl ?_ ?_ <;> simp [takeLine, hstop, hc]
  | eof => refine keep _ { c with closed := true } ?_ rfl rfl ?_ ?_ <;> simp [takeEOF, hstop, hc]
  | signal sig =>
    refine keep _ { c with sigs := c.sigs ++ [sig] } ?_ rfl rfl ?_ ?_ <;> simp [takeSignal, hc]
  | exited => refine keep _ c ?_ rfl rfl ?_ ?_ <;> simp [takeExit, hstop, hc]
  | tick now =>
    have hnot : ¬ h.BeginsStop cfg now := fun hbegins => hdone (hcond hbegins c hc)
    rw [takeTick_of_not hstop hnot]
    exact keep h c hc rfl rfl rfl rfl
  | @next now a todo htodo hret =>
    cases a with
    | note line => exact keep _ c hc rfl rfl rfl rfl
    | write g =>
      refine keep _ c ?_ rfl rfl ?_ ?_ <;>
        simp [act, hc, Option.isSome_iff_ne_none, hdone]
    | endInput =>
      refine keep _ { c with closed := true } ?_ rfl rfl rfl rfl
      simp [act, hc]
  | output now p hd hrun =>
    cases hc.symm.trans hd
    exact absurd hrun hdone
  | exit now r hd hrun =>
    cases hc.symm.trans hd
    exact absurd hrun hdone

/-! ### Whole runs -/

end

/-- Lines of a Claude in a session, of its SDK setting the model, and of the answer. -/
def sampleSetup : Bytes → Option Message
  | [0] => some { type := .system, subtype := .init, sessionID := "s" }
  | [1, 10] => some { type := .controlRequest, requestID := "m", request := some .setModel }
  | [2] => some { type := .controlResponse, response := some "m" }
  | _ => none

/-- A Claude is told its model, is idle and stopped; a line that comes meanwhile is given to
the next, after the model. -/
def sampleStop : List Event :=
  [.output 0 [0, 10], .line [1, 10], .next 1, .next 1, .output 2 [2, 10], .tick 100,
    .line [9, 10], .exit 101 { code := 0 }, .exited, .next 102, .next 102, .next 102]

end Hibernator
end Fern

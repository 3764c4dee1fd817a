/-
Claude, and the processes standing in for it one after another.

`hibernator.run` is a loop over five channels: the SDK's lines, T3's signals, the end of the
Claude it runs, a ticker, and, unseen by it, what that Claude writes.  A `Hibernator` is the
loop between two of its statements: its variables, and the part of the present round that is
still to do, since a write to Claude waits for Claude and anything may happen meanwhile.
`step` is one of them, so that a list of events is one way the whole may go.
-/
import Fern.Lib.Cut
import Fern.Hibernate.Conversation

namespace Fern

/-- What an exec returned. -/
structure ExecResult where
  code : Int
  err : Option String := none
  deriving DecidableEq, Repr

/-- A line given to Claude: one of its setup, or one of the SDK's. -/
inductive Given where
  | setup (line : Bytes)
  | sdk (line : Bytes)
  deriving DecidableEq, Repr

/-- One Claude process. -/
structure Claude where
  argv : List String
  /-- The lines `restart` has for it. -/
  setup : List Bytes := []
  /-- What it has read of its stdin. -/
  stdin : List Given := []
  /-- Its stdin has ended. -/
  closed : Bool := false
  sigs : List Nat := []
  /-- Its exec was cut off. -/
  cancelled : Bool := false
  /-- What it has written to its stdout. -/
  written : Bytes := []
  /-- The start of a line it wrote, not yet ended: `lineWriter.buf`. -/
  buf : Bytes := []
  /-- What its exec returned, once it has. -/
  done : Option ExecResult := none
  deriving Repr

def newline : UInt8 := 10

def SIGTERM : Nat := 15

/-- How long a Claude sent SIGTERM may take to exit, 10 seconds. -/
def stopTimeout : Nat := 10 * second

/-- What is left to do of a round of the loop. -/
inductive Hibernator.Act where
  /-- `h.st.In(line)`. -/
  | note (line : Bytes)
  /-- `c.stdin.Write(line)`. -/
  | write (g : Given)
  /-- `ending = true; c.stdin.Close()`. -/
  | endInput
  deriving Repr

structure Hibernator where
  st : Stream := newStream
  /-- The Claudes stopped so far, oldest first. -/
  past : List Claude := []
  c : Option Claude
  /-- Lines for the next Claude, read while one stopped. -/
  waiting : List Bytes := []
  /-- The SDK's stdin has ended. -/
  eof : Bool := false
  /-- When `c` was sent SIGTERM because it was idle. -/
  stopping : Option Time := none
  /-- T3 is ending Claude: `c`'s exit is `Run`'s. -/
  ending : Bool := false
  /-- The exit code of the Claude stopped last. -/
  code : Int := 0
  todo : List Hibernator.Act := []
  /-- What the SDK has been sent. -/
  stdout : Bytes := []
  /-- The lines of Claude shown to the tracker. -/
  shown : List Bytes := []
  /-- The lines read from the SDK. -/
  read : List Bytes := []
  returned : Option ExecResult := none

/-- `Run`'s arguments: the command line, and how long an idle Claude is kept. -/
structure RunConfig where
  argv : List String
  idle : Nat

/-- What happens next: a case of the loop's select, the next statement of its round, or
something Claude does. -/
inductive Hibernator.Event where
  | line (line : Bytes)
  | eof
  | signal (sig : Nat)
  | exited
  | tick (now : Time)
  | next (now : Time)
  | output (now : Time) (p : Bytes)
  | exit (now : Time) (r : ExecResult)
  deriving Repr

namespace Hibernator

/-! ### Claude's output -/

/-- What `send` does with a line of the SDK's. -/
def send (line : Bytes) : List Act := [.note line, .write (.sdk line)]

section

variable (json : Bytes → Option Message)

/-- Show `line` to the tracker, and pass it on with its `ending` if it may be seen. -/
def pass (h : Hibernator) (now : Time) (ending : Bytes) (line : Bytes) : Hibernator :=
  let out := h.st.Out json now line
  { h with
    st := out.1
    shown := h.shown ++ [line]
    stdout := if out.2 then h.stdout ++ (line ++ ending) else h.stdout }

/-- `lineWriter.Write`. -/
def lineWrite (h : Hibernator) (now : Time) (c : Claude) (p : Bytes) : Hibernator :=
  let pieces := cut newline (c.buf ++ p)
  let h := pieces.1.foldl (fun h line => h.pass json now [newline] line) h
  { h with c := some { c with buf := pieces.2, written := c.written ++ p } }

/-- `lineWriter.flush`. -/
def flush (h : Hibernator) (now : Time) (c : Claude) : Hibernator :=
  if c.buf = [] then h else h.pass json now [] c.buf

/-! ### The loop -/

/-- Start Claude again in its session; the setup is to be sent to it. -/
def restart (cfg : RunConfig) (h : Hibernator) : Hibernator :=
  { h with
    st := h.st.restart json
    c := some { argv := resumeArgs cfg.argv h.st.session, setup := h.st.setupLines }
    todo := h.st.setupLines.map fun line => .write (.setup line) }

/-- A line of the SDK's. -/
def takeLine (cfg : RunConfig) (h : Hibernator) (line : Bytes) : Hibernator :=
  let h := { h with read := h.read ++ [line] }
  if h.stopping.isSome then { h with waiting := h.waiting ++ [line] }
  else
    match h.c with
    | none =>
      let h := h.restart json cfg
      { h with todo := h.todo ++ send line }
    | some _ => { h with todo := send line }

/-- The SDK's stdin ends. -/
def takeEOF (h : Hibernator) : Hibernator :=
  let h := { h with eof := true }
  match h.c with
  | none => { h with returned := some { code := 0 } }
  | some c =>
    if h.stopping.isSome then h else { h with ending := true, c := some { c with closed := true } }

/-- A signal of T3's. -/
def takeSignal (h : Hibernator) (sig : Nat) : Hibernator :=
  match h.c with
  | none => { h with returned := some { code := h.code } }
  | some c => { h with ending := true, c := some { c with sigs := c.sigs ++ [sig] } }

/-- After a Claude was stopped: the lines that waited go to the next. -/
def resume (cfg : RunConfig) (h : Hibernator) : Hibernator :=
  if h.waiting = [] then h
  else
    let lines := h.waiting
    let h := h.restart json cfg
    { h with todo := h.todo ++ lines.flatMap send, waiting := [] }

/-- Input that ended meanwhile ends for the next Claude, or ends `Run`. -/
def resumeEOF (h : Hibernator) : Hibernator :=
  if !h.eof then h
  else
    match h.c with
    | none => { h with returned := some { code := 0 } }
    | some _ => { h with todo := h.todo ++ [.endInput] }

/-- The exit code kept of a Claude that was stopped; that of SIGTERM for one cut off. -/
def stopCode (r : ExecResult) : Int := if r.err.isSome then 128 + SIGTERM else r.code

/-- The end of Claude `c`, with `r`. -/
def takeExit (cfg : RunConfig) (h : Hibernator) (c : Claude) (r : ExecResult) : Hibernator :=
  if h.stopping.isNone || h.ending then { h with returned := some r }
  else
    let h := { h with c := none, past := h.past ++ [c], stopping := none, code := stopCode r }
    (h.resume json cfg).resumeEOF

/-- A tick: an overdue Claude is cut off, an idle one is sent SIGTERM. -/
def takeTick (cfg : RunConfig) (h : Hibernator) (now : Time) : Hibernator :=
  match h.c with
  | none => h
  | some c =>
    if h.ending then h
    else
      match h.stopping with
      | some since =>
        if since + stopTimeout ≤ now then { h with c := some { c with cancelled := true } } else h
      | none =>
        match h.st.idleSince with
        | some since =>
          if since + cfg.idle ≤ now then
            { h with stopping := some now, c := some { c with sigs := c.sigs ++ [SIGTERM] } }
          else h
        | none => h

/-- The next statement of the round. -/
def act (h : Hibernator) (now : Time) : Act → Hibernator
  | .note line => { h with st := h.st.In json now line }
  | .write g =>
    match h.c with
    | none => h
    | some c =>
      -- A write to a Claude that has ended fails, and `run` doesn't look.
      if c.done.isSome then h else { h with c := some { c with stdin := c.stdin ++ [g] } }
  | .endInput => { h with ending := true, c := h.c.map fun c => { c with closed := true } }

/-- Whether the loop waits in its select. -/
def selecting (h : Hibernator) : Bool := h.returned.isNone && h.todo.isEmpty

/-- One event, if it can happen. -/
def step (cfg : RunConfig) (h : Hibernator) : Event → Option Hibernator
  | .line line => if h.selecting && !h.eof then some (h.takeLine json cfg line) else none
  | .eof => if h.selecting && !h.eof then some h.takeEOF else none
  | .signal sig => if h.selecting then some (h.takeSignal sig) else none
  | .exited =>
    match h.c with
    | none => none
    | some c =>
      match c.done with
      | none => none
      | some r => if h.selecting then some (h.takeExit json cfg c r) else none
  | .tick now => if h.selecting then some (h.takeTick cfg now) else none
  | .next now =>
    match h.todo with
    | [] => none
    | a :: todo => if h.returned.isNone then some ({ h with todo := todo }.act json now a) else none
  | .output now p =>
    match h.c with
    | none => none
    | some c => if c.done.isNone then some (h.lineWrite json now c p) else none
  | .exit now r =>
    match h.c with
    | none => none
    | some c =>
      if c.done.isNone then some { h.flush json now c with c := some { c with done := some r } }
      else none

/-- The loop as it begins: the first Claude has been started. -/
def begin (cfg : RunConfig) : Hibernator := { c := some { argv := cfg.argv } }

/-- The loop after `es`, if they can happen in this order. -/
def run (cfg : RunConfig) (es : List Event) : Option Hibernator :=
  es.foldlM (step json cfg) (begin cfg)

end

/-- All Claudes, oldest first. -/
def claudes (h : Hibernator) : List Claude := h.past ++ h.c.toList

end Hibernator

end Fern

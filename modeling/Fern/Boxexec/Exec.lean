/-
One command over a WebSocket.

The client's stdin goes through its sender, the connection, the server's reader, the queue of its
stdin writer and a pipe to the command; the command's outputs go through pipes, a copier each and
the connection to the client, and after them the exit code.  Each of these goes on by itself, so an
`Act` is one of them going on by one step, and a run is any sequence of acts.  What the command
does, when processes of its group end, what is sent of terminal sizes and signals and how time
passes is all up to the run.

A read and the send of its frame are one act: only the copier uses its buffer, and how long a send
takes is how long its next act is in coming.
-/
import Fern.Boxexec.Frames

namespace Fern

namespace Boxexec

/-! ### Messages -/

/-- What `sendControls` sends. -/
inductive Control where
  | resize (rows cols : UInt16)
  | signal (sig : UInt8)

def Control.message : Control → Bytes
  | resize rows cols => [Kind.resize.byte, (rows >>> 8).toUInt8, rows.toUInt8,
      (cols >>> 8).toUInt8, cols.toUInt8]
  | signal sig => [Kind.signal.byte, sig]

/-- `forwardable`: SIGHUP, SIGINT and SIGTERM. -/
def forwardable (sig : UInt8) : Bool := sig = 1 || sig = 2 || sig = 15

/-- What `readInput` makes of a message, for a command without a terminal. -/
inductive Said where
  | nothing
  /-- Data for stdin, or its end. -/
  | stdin (data : Option Bytes)
  | signal (sig : UInt8)
  deriving DecidableEq

/-- `readInput` on one message. -/
def readMessage : Bytes → Said
  | [] => .nothing
  | kind :: data =>
    if kind = Kind.stdin.byte then if data = [] then .nothing else .stdin (some data)
    else if kind = Kind.stdinEOF.byte then .stdin none
    else if kind = Kind.signal.byte then
      if data.length = 1 && forwardable (data.getLastD 0) then .signal (data.getLastD 0)
      else .nothing
    -- without a terminal there is nothing to resize
    else .nothing

/-- What `readInput` puts on the queue for what was said. -/
def Said.item? : Said → Option (Option Bytes)
  | stdin data => some data
  | _ => none

/-! ### Stdin -/

/-- `stdinQueue`. -/
def stdinQueue : Nat := 16

/-- What a pipe holds. -/
def pipeSize : Nat := 65536

/-- The way of stdin. -/
structure Input where
  /-- The client's stdin, as far as it hasn't been read. -/
  rest : Bytes
  sender : FrameWriter := .new .stdin
  /-- `sendStdin` has sent the end. -/
  sentEnd : Bool := false
  /-- On the way to the server. -/
  up : List Bytes := []
  /-- Signals to the command's group. -/
  signals : List UInt8 := []
  /-- `cmd.Wait` has returned. -/
  exited : Bool := false
  queue : List (Option Bytes) := []
  /-- Of what `writeStdin` writes, what isn't in the pipe yet. -/
  writing : Bytes := []
  /-- `writeStdin` drops the rest. -/
  done : Bool := false
  pipe : Bytes := []
  /-- The server has closed its end of the pipe. -/
  closed : Bool := false
  /-- The command has its end of the pipe. -/
  reading : Bool := true
  /-- What the command has read. -/
  got : Bytes := []
  /-- The command has read the end. -/
  ended : Bool := false

inductive InputAct where
  /-- The sender reads `n` bytes and sends them. -/
  | send (n : Nat)
  /-- The sender reads the end and sends it. -/
  | sendEnd
  | control (c : Control)
  /-- `readInput` goes on by a message. -/
  | take
  /-- `writeStdin` goes on by what is queued. -/
  | next
  /-- `n` bytes of a write are in the pipe. -/
  | write (n : Nat)
  /-- A write fails. -/
  | fail
  /-- The command reads `n` bytes. -/
  | read (n : Nat)
  /-- The command reads the end. -/
  | readEnd
  /-- The command closes its end, or ends. -/
  | close

def Input.step (i : Input) : InputAct → Option Input
  | .send n =>
    if !i.sentEnd && n ≤ i.sender.room && n ≤ i.rest.length then
      some { i with
        rest := i.rest.drop n
        sender := (i.sender.fill (i.rest.take n)).afterRead n
        up := if n = 0 then i.up else i.up ++ [(i.sender.fill (i.rest.take n)).frame n] }
    else none
  | .sendEnd =>
    if !i.sentEnd && i.rest = [] then
      some { i with sentEnd := true, up := i.up ++ [[Kind.stdinEOF.byte]] }
    else none
  | .control c => some { i with up := i.up ++ [c.message] }
  | .take =>
    match i.up with
    | [] => none
    | message :: up =>
      match readMessage message with
      | .nothing => some { i with up := up }
      | .signal sig =>
        -- the group's ID may be another's by then
        if i.exited then some { i with up := up }
        else some { i with up := up, signals := i.signals ++ [sig] }
      | .stdin data =>
        -- a full queue holds the reader up
        if i.queue.length < stdinQueue then some { i with up := up, queue := i.queue ++ [data] }
        else none
  | .next =>
    match i.queue with
    | [] => none
    | data :: queue =>
      if i.writing ≠ [] then none
      else if i.done then some { i with queue := queue }
      else
        match data with
        | none => some { i with queue := queue, closed := true, done := true }
        | some data => some { i with queue := queue, writing := data }
  | .write n =>
    if i.reading && 1 ≤ n && n ≤ i.writing.length && i.pipe.length + n ≤ pipeSize then
      some { i with writing := i.writing.drop n, pipe := i.pipe ++ i.writing.take n }
    else none
  | .fail =>
    if !i.reading && i.writing ≠ [] then some { i with writing := [], done := true } else none
  | .read n =>
    if i.reading && 1 ≤ n && n ≤ i.pipe.length then
      some { i with pipe := i.pipe.drop n, got := i.got ++ i.pipe.take n }
    else none
  | .readEnd => if i.reading && i.closed && i.pipe = [] then some { i with ended := true } else none
  | .close => some { i with reading := false }

/-! ### Outputs -/

/-- The outputs of a command without a terminal. -/
inductive Out where
  | stdout
  | stderr
  deriving DecidableEq

def Out.kind : Out → Kind
  | stdout => .stdout
  | stderr => .stderr

/-- One output's pipe and its copier. -/
structure Output where
  /-- All that was written to it. -/
  written : Bytes := []
  /-- What of that hasn't been read. -/
  pipe : Bytes := []
  /-- A process of the command's group holds it open. -/
  isOpen : Bool := true
  writer : FrameWriter
  /-- `io.Copy` goes on. -/
  copying : Bool := true

/-- What the server sends. -/
inductive Message where
  | frame (data : Bytes)
  | exit (code : Int)

/-- What `Run` makes of a frame: which output it writes it to. -/
def readFrame : Bytes → Option (Out × Bytes)
  | [] => none
  | kind :: data =>
    if kind = Kind.stdout.byte then some (.stdout, data)
    else if kind = Kind.stderr.byte then some (.stderr, data)
    else none

/-- `outputDelay`, in milliseconds. -/
def outputDelay : Nat := 2000

/-- A command that runs. -/
structure Exec where
  input : Input
  out : Out → Output := fun o => { writer := .new o.kind }
  /-- The exit code, from when `cmd.Wait` has returned. -/
  exited : Option Int := none
  /-- Milliseconds since the start. -/
  now : Nat := 0
  /-- The outputs' read deadline, once `wait` has set it. -/
  deadline : Option Nat := none
  /-- `finish` has sent the exit code. -/
  finished : Bool := false
  /-- On the way to the client. -/
  down : List Message := []
  /-- What the client has written to its outputs. -/
  received : Out → Bytes := fun _ => []
  /-- What `Run` has returned. -/
  result : Option Int := none

def Exec.setOut (s : Exec) (o : Out) (p : Output) : Exec :=
  { s with out := fun q => if q = o then p else s.out q }

/-- The deadline has passed: a read fails, whatever is in the pipe. -/
def Exec.late (s : Exec) : Bool := s.deadline.any fun d => d ≤ s.now

inductive Act where
  | input (act : InputAct)
  /-- The command's group writes. -/
  | write (o : Out) (data : Bytes)
  /-- No process of the group holds the output open any more. -/
  | shut (o : Out)
  /-- The command exits and `cmd.Wait` returns. -/
  | exit (code : Int)
  /-- `wait` has killed the group and sets the deadline. -/
  | wait
  /-- The copier reads up to `n` bytes and sends them. -/
  | copy (o : Out) (n : Nat)
  | pass (ms : Nat)
  /-- `finish`. -/
  | finish
  /-- `Run` goes on by a message. -/
  | receive

def Exec.step (s : Exec) : Act → Option Exec
  | .input act => (s.input.step act).map fun i => { s with input := i }
  | .write o data =>
    if (s.out o).isOpen && (s.out o).pipe.length + data.length ≤ pipeSize then
      some (s.setOut o { s.out o with
        written := (s.out o).written ++ data, pipe := (s.out o).pipe ++ data })
    else none
  | .shut o => some (s.setOut o { s.out o with isOpen := false })
  | .exit code =>
    if s.exited = none then
      some { s with
        exited := some code, input := { s.input with exited := true, reading := false } }
    else none
  | .wait =>
    if s.exited.isSome && s.deadline = none then
      some { s with deadline := some (s.now + outputDelay) }
    else none
  | .copy o n =>
    if !(s.out o).copying then none
    else if s.late then some (s.setOut o { s.out o with copying := false })
    else if (s.out o).pipe = [] then
      -- the end, once nobody holds the pipe open
      if (s.out o).isOpen then none else some (s.setOut o { s.out o with copying := false })
    else if 1 ≤ n && n ≤ (s.out o).writer.room && n ≤ (s.out o).pipe.length then
      let writer := (s.out o).writer.fill ((s.out o).pipe.take n)
      some { s.setOut o { s.out o with
          pipe := (s.out o).pipe.drop n, writer := writer.afterRead n } with
        down := s.down ++ [.frame (writer.frame n)] }
    else none
  | .pass ms => some { s with now := s.now + ms }
  | .finish =>
    match s.exited with
    | none => none
    | some code =>
      if s.deadline.isSome && !(s.out .stdout).copying && !(s.out .stderr).copying &&
          !s.finished then
        some { s with finished := true, down := s.down ++ [.exit code] }
      else none
  | .receive =>
    match s.down with
    | [] => none
    | .exit code :: down =>
      if s.result = none then some { s with down := down, result := some code } else none
    | .frame data :: down =>
      if s.result = none then
        match readFrame data with
        | none => some { s with down := down }
        | some (o, data) => some { s with
            down := down
            received := fun q => if q = o then s.received q ++ data else s.received q }
      else none

/-- The client has been given `stdin`. -/
def Exec.start (stdin : Bytes) : Exec where
  input := { rest := stdin }

/-- What some run leads to whose acts all meet `ok`. -/
inductive Exec.Reached (ok : Exec → Act → Prop) (stdin : Bytes) : Exec → Prop
  | start : Reached ok stdin (.start stdin)
  | step {s t : Exec} (act : Act) (h : Reached ok stdin s) (hok : ok s act)
      (hstep : s.step act = some t) : Reached ok stdin t

end Boxexec

end Fern

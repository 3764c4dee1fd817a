/-
A box's background commands.

fern-init keeps a list of jobs, oldest first, finished ones included.  A job's output is kept until
it is read, its newest part if it grows too long.  What a reader gets is the bytes read as a JSON
string: those that are no UTF-8 come out as the replacement character.
-/
import Fern.Lib.Utf8

namespace Fern

namespace Boxexec

/-- `MaxJobs`. -/
def maxJobs : Nat := 16

/-- `maxJobOutput`. -/
def maxJobOutput : Nat := 1048576

/-- `job`: its name, its unread output, and how it is. -/
structure Job where
  id : String
  out : Bytes := []
  dropped : Nat := 0
  killed : Bool := false
  code : Int := 0
  /-- `ended` is closed. -/
  ended : Bool := false
  deriving DecidableEq

/-- `JobOutput`. -/
structure JobOutput where
  output : Bytes
  dropped : Nat
  running : Bool
  killed : Bool
  code : Int
  deriving DecidableEq

namespace Job

/-- `job.Write`. -/
def write (j : Job) (p : Bytes) : Job :=
  let out := j.out ++ p
  let excess := out.length - maxJobOutput
  { j with out := out.drop excess, dropped := j.dropped + excess }

/-- `job.take`: what it returns; `done` is what it saw of `ended` before it locked the job. -/
def taken (j : Job) (done : Bool) : JobOutput :=
  ⟨j.out, j.dropped, !done, j.killed && done, j.code⟩

/-- `job.take`: what it leaves. -/
def forgets (j : Job) : Job := { j with out := [], dropped := 0 }

end Job

/-- A `JobOutput` as `writeJSONTo` sends it and `JobClient.call` decodes it. -/
def JobOutput.carried (o : JobOutput) : JobOutput := { o with output := Utf8.coerce o.output }

/-- `JobRequest`. -/
structure JobRequest where
  id : String
  argv : List String
  environ : List String := []
  deriving DecidableEq

/-- What `start` answers: 204, or an error with its text. -/
inductive StartAnswer where
  | noContent
  | badRequest (text : String)
  | conflict (text : String)
  | tooManyRequests (text : String)
  | unprocessableEntity (text : String)
  deriving DecidableEq

/-- `start`, from its check of the list on; `run` is `cmd.Start`. -/
def startJob (run : JobRequest → Except String Unit) (jobs : List Job) (req : JobRequest) :
    StartAnswer × List Job :=
  match run req with
  | .error err => (.unprocessableEntity err, jobs)
  | .ok () => (.noContent, jobs ++ [{ id := req.id }])

/-- `Jobs.start`; the request is missing where its JSON can't be decoded. -/
def start (run : JobRequest → Except String Unit) (jobs : List Job) (req : Option JobRequest) :
    StartAnswer × List Job :=
  match req with
  | none => (.badRequest "a job needs an id and a command", jobs)
  | some req =>
    if req.id = "" ∨ req.argv = [] then (.badRequest "a job needs an id and a command", jobs)
    else if jobs.any fun j => j.id = req.id then (.conflict ("job " ++ req.id ++ " exists"), jobs)
    else if maxJobs ≤ jobs.length then
      -- room is made by forgetting the oldest finished job
      match jobs.findIdx? Job.ended with
      | none =>
        (.tooManyRequests (toString maxJobs ++ " background commands are running: stop one"), jobs)
      | some i => startJob run (jobs.eraseIdx i) req
    else startJob run jobs req

/-- `Jobs.find`. -/
def find (jobs : List Job) (id : String) : Option Job := jobs.find? fun j => j.id = id

/-- `Jobs.read`, as `JobClient.Read` gets it: nothing (`ErrNoJob`) where there is no such job. -/
def read (jobs : List Job) (id : String) : Option JobOutput × List Job :=
  match find jobs id with
  | none => (none, jobs)
  | some j => (some (j.taken j.ended).carried, jobs.map fun k => if k.id = id then k.forgets else k)

/-- What a command, or who waits for it, does to its job. -/
inductive JobStep : Job → Job → Prop where
  /-- The command writes; all it writes is here once `Wait` has returned. -/
  | writes {j : Job} (p : Bytes) : j.ended = false → JobStep j (j.write p)
  /-- `Wait` has returned. -/
  | ends {j : Job} (code : Int) : j.ended = false → JobStep j { j with code := code, ended := true }
  /-- `kill` marks it, having seen it run; it may have ended since. -/
  | kills {j : Job} : JobStep j { j with killed := true }

/-- The lists of jobs a box can have. -/
inductive Jobs : List Job → Prop where
  | none : Jobs []
  | starts {jobs : List Job} (run : JobRequest → Except String Unit) (req : Option JobRequest) :
      Jobs jobs → Jobs (start run jobs req).2
  /-- A `read`, or the end of a `kill`. -/
  | reads {jobs : List Job} (id : String) : Jobs jobs → Jobs (read jobs id).2
  | moves {old new : List Job} {j j' : Job} :
      Jobs (old ++ j :: new) → JobStep j j' → Jobs (old ++ j' :: new)

/-! ### A job's readings -/

/-- What was read of a job: the bytes it had written since the reading before, and what the reader
got. -/
structure Reading where
  since : Bytes
  got : JobOutput
  deriving DecidableEq

/-- A job from its start on, with all it has written and the readings made of it, oldest first. -/
structure Session where
  job : Job
  written : Bytes := []
  /-- Written after the last reading. -/
  since : Bytes := []
  readings : List Reading := []
  deriving DecidableEq

/-- A writing, an end, a kill or a reading, in any order. -/
inductive SessionStep : Session → Session → Prop where
  | writes {s : Session} (p : Bytes) : s.job.ended = false →
      SessionStep s { s with
        job := s.job.write p, written := s.written ++ p, since := s.since ++ p }
  | ends {s : Session} (code : Int) : s.job.ended = false →
      SessionStep s { s with job := { s.job with code := code, ended := true } }
  | kills {s : Session} : SessionStep s { s with job := { s.job with killed := true } }
  /-- The job may have ended after `take` looked, not the other way. -/
  | reads {s : Session} (done : Bool) : (done = true → s.job.ended = true) →
      SessionStep s { s with
        job := s.job.forgets, since := [],
        readings := s.readings ++ [⟨s.since, (s.job.taken done).carried⟩] }

/-- The sessions there can be of a job. -/
inductive Session.Reached : Session → Prop where
  | starts (id : String) : Session.Reached { job := { id := id } }
  | step {s s' : Session} : Session.Reached s → SessionStep s s' → Session.Reached s'

end Boxexec

end Fern

/-
The sweep of environments whose worktree is gone.

It looks at the rows one after another from its own goroutine, and asks the actor of each
environment that was gone at the last look too to delete it.  That message is taken after those
that came before it, so others act in between: T3 makes and removes worktrees, and the actors'
store calls make and adopt them.
-/
import Fern.Store.History

namespace Fern

variable {T : Type}

namespace Sweep

/-- How far the sweep is. -/
inductive Pc where
  /-- It waits for its ticker. -/
  | idle
  /-- In `Orphans`: the rows still to look at, and the environments found gone. -/
  | looking (rows : List EnvRow) (found : List EnvID)
  /-- In its loop: the environments found gone, and those it has gone through. -/
  | each (ids now : List EnvID)
  /-- It has called `Group.Delete`, whose message isn't taken yet. -/
  | queued (id : EnvID) (ids now : List EnvID)
  /-- The environment's actor has taken it and found the row; it deletes the forks and stops the
  boxes. -/
  | taken (id : EnvID) (ids now : List EnvID)
  /-- The store's `Delete` is called. -/
  | deleting (id : EnvID) (ids now : List EnvID)
  deriving DecidableEq

inductive Event where
  /-- The ticker fires; the rows are listed, or that fails. -/
  | tick (ok : Bool)
  /-- The next row's workspace is looked at; `Lstat` may fail in another way than that nothing is
  there. -/
  | look (ok : Bool)
  /-- All rows have been looked at. -/
  | looked
  /-- The sweep goes on to the next environment found gone. -/
  | next
  /-- The environment's actor takes `Group.Delete`'s message. -/
  | take
  /-- `Group.Delete` calls the store's. -/
  | delete
  /-- `Group.Delete` returns, with or without an error. -/
  | returns
  /-- The sweep has gone through all it found. -/
  | done
  deriving DecidableEq, Repr

end Sweep

open Sweep

/-- The pool and the sweep. -/
structure Sweep (T : Type) where
  pool : Pool T
  /-- The environments gone at the last look. -/
  gone : List EnvID := []
  pc : Sweep.Pc := .idle

namespace Sweep

/-- What the sweep does next. -/
def advance (s : Sweep T) : Event → Option (Sweep T)
  | .tick ok =>
    match s.pc with
    | .idle => some { s with pc := if ok then .looking s.pool.index.list [] else .idle }
    | _ => none
  | .look ok =>
    match s.pc with
    | .looking (row :: rows) found =>
      if row.workspace = .live row.id then some { s with pc := .looking rows found }
      else if !ok then some { s with pc := .idle }
      else
        match s.pool.node row.workspace with
        | none => some { s with pc := .looking rows (found ++ [row.id]) }
        | some _ => some { s with pc := .looking rows found }
    | _ => none
  | .looked =>
    match s.pc with
    | .looking [] found => some { s with pc := .each found [] }
    | _ => none
  | .next =>
    match s.pc with
    | .each (id :: ids) now =>
      if id ∈ s.gone then some { s with pc := .queued id ids (now ++ [id]) }
      else some { s with pc := .each ids (now ++ [id]) }
    | _ => none
  | .take =>
    match s.pc with
    | .queued id ids now =>
      match s.pool.env? id with
      | some _ => some { s with pc := .taken id ids now }
      | none => some { s with pc := .each ids now }
    | _ => none
  | .delete =>
    match s.pc with
    | .taken id ids now => some { s with pc := .deleting id ids now }
    | _ => none
  | .returns =>
    match s.pc with
    | .queued _ ids now | .taken _ ids now | .deleting _ ids now =>
      some { s with pc := .each ids now }
    | _ => none
  | .done =>
    match s.pc with
    | .each [] now => some { s with pc := .idle, gone := now }
    | _ => none

/-- What happens next. -/
inductive Step [Tree T] : Sweep T → Sweep T → Prop
  | sweep {s s' : Sweep T} (e : Event) (h : s.advance e = some s') : Step s s'
  /-- An actor's store call performs an operation, this sweep's `Delete` among them. -/
  | op {s : Sweep T} {t : Pool T} (o : Op T) (h : o.run s.pool = .ok t) :
      Step s { s with pool := t }
  /-- An actor's store call performs all of its own. -/
  | call {s : Sweep T} (r : Request T) : Step s { s with pool := (r.call s.pool).final }
  /-- T3 makes and removes worktrees, and boxes write. -/
  | outside {s : Sweep T} {t : Pool T} (h : Outside s.pool t) : Step s { s with pool := t }

/-- The environments that this look found gone and may still delete: those gone at the last look
too, as the loop skips the others. -/
def pending (s : Sweep T) : List EnvID :=
  match s.pc with
  | .looking _ found => found.filter (· ∈ s.gone)
  | .each ids _ => ids.filter (· ∈ s.gone)
  | .queued id ids _ | .taken id ids _ => id :: ids.filter (· ∈ s.gone)
  | .deleting _ ids _ => ids.filter (· ∈ s.gone)
  | .idle => []

/-- The rows of environments gone at the last look that this one still has to look at. -/
def unseen (s : Sweep T) : List EnvRow :=
  match s.pc with
  | .looking rows _ => rows.filter (·.id ∈ s.gone)
  | _ => []

/-- The environment's workspace is gone. -/
def Gone (s : Pool T) (id : EnvID) : Prop :=
  ∀ row, s.env? id = some row → s.node row.workspace = none

end Sweep

end Fern

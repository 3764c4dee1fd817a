/-
Services that start on demand.

fern-init holds a service's socket.  The first connection starts the service, and a goroutine for
each, its relay, waits until it is ready.  The readiness goes through a channel with room for one:
who takes it puts it back.  A stop closes the socket, waits for `serve`, closes what is held, waits
for the relays and stops the service.  All of these run interleaved.  `ε` are the errors.
-/
import Mathlib.Logic.Relation

namespace Fern

namespace Init

/-- How far a `relay` is. -/
inductive Stage (ε : Type) where
  /-- In `wait`'s select. -/
  | waits
  /-- It has taken the readiness, and has to put it back. -/
  | took (err : Option ε)
  /-- `wait` has returned the readiness. -/
  | told (err : Option ε)
  /-- Connected to the service, which isn't in `conns` yet. -/
  | dialed
  | copies
  /-- All that is left is to forget its connection. -/
  | leaves

/-- How far `stop` is. -/
inductive Stop where
  | uncalled
  /-- At `<-o.done`. -/
  | joins
  /-- At `o.relays.Wait()`, with every connection in `conns` closed. -/
  | waits
  | returned
  deriving DecidableEq

/-- `onDemand`. -/
structure OnDemand (ε : Type) where
  /-- The network is `unix`, not `tcp`. -/
  unix : Bool
  /-- The listener isn't closed. -/
  listening : Bool := true
  /-- `done` isn't closed. -/
  serving : Bool := true
  /-- `serve` has a connection of `Accept`'s, which it has yet to deal with. -/
  accepted : Bool := false
  /-- How often `start` was called; `started` is nil where it is 0. -/
  starts : Nat := 0
  /-- The context is done. -/
  cancelled : Bool := false
  /-- `waitReady` runs. -/
  checking : Bool := false
  /-- What `waitReady` returned. -/
  result : Option (Option ε) := none
  /-- What is in the channel. -/
  ready : Option (Option ε) := none
  /-- The relays, each with its connection in `conns`. -/
  relays : List (Stage ε) := []
  stop : Stop := .uncalled
  /-- `stop` has stopped the service. -/
  stopped : Bool := false
  /-- `stop` has removed the socket's file. -/
  removed : Bool := false

variable {ε : Type}

/-- One step of `relay`, with the channel before and after it. -/
inductive Stage.Goes (cancelled : Bool) (c : Option (Option ε)) :
    Stage ε → Option (Option ε) → Stage ε → Prop
  | takes (err : Option ε) (h : c = some err) : Goes cancelled c .waits none (.took err)
  | passes (err : Option ε) (h : c = none) : Goes cancelled c (.took err) (some err) (.told err)
  | givesUp (h : cancelled = true) : Goes cancelled c .waits c .leaves
  /-- The service isn't ready, or can't be dialed. -/
  | drops (err : Option ε) : Goes cancelled c (.told err) c .leaves
  | dials : Goes cancelled c (.told none) c .dialed
  | registers : Goes cancelled c .dialed c .copies
  /-- Both copies end, which is up to the peers: a service dialed after `stop` has closed `conns` is
  told only that its client sends no more. -/
  | ends : Goes cancelled c .copies c .leaves

namespace OnDemand

/-- One step of `serve`, `waitReady`, a relay or `stop`. -/
inductive Step (o : OnDemand ε) : OnDemand ε → Prop
  | accepts (hs : o.serving = true) (hl : o.listening = true) (ha : o.accepted = false) :
      Step o { o with accepted := true }
  /-- A connection from the service itself is closed. -/
  | refuses (ha : o.accepted = true) (h : o.starts ≠ 0) : Step o { o with accepted := false }
  /-- The first connection.  A TCP port is let go of, for the service. -/
  | starts (ha : o.accepted = true) (h : o.starts = 0) :
      Step o { o with
        accepted := false, listening := o.listening && o.unix, starts := o.starts + 1,
        checking := true, relays := o.relays ++ [.waits] }
  | holds (ha : o.accepted = true) (h : o.starts ≠ 0) :
      Step o { o with accepted := false, relays := o.relays ++ [.waits] }
  /-- `Accept` fails, as it does once the listener is closed. -/
  | serveEnds (hs : o.serving = true) (ha : o.accepted = false) :
      Step o { o with serving := false }
  /-- `waitReady` lets go of a unix socket, and what it returns goes into the channel. -/
  | checked (err : Option ε) (hc : o.checking = true) (h : o.ready = none) :
      Step o { o with
        checking := false, listening := o.listening && !o.unix, result := some err,
        ready := some err }
  | relays {before after : List (Stage ε)} {stage stage' : Stage ε}
      {ready : Option (Option ε)} (h : o.relays = before ++ stage :: after)
      (hg : Stage.Goes o.cancelled o.ready stage ready stage') :
      Step o { o with ready := ready, relays := before ++ stage' :: after }
  /-- A relay's connection is closed and out of `conns`. -/
  | forgets {before after : List (Stage ε)}
      (h : o.relays = before ++ .leaves :: after) : Step o { o with relays := before ++ after }
  | cancels (h : o.cancelled = false) : Step o { o with cancelled := true }
  | stopCalled (h : o.stop = .uncalled) : Step o { o with listening := false, stop := .joins }
  /-- `serve` has returned, and `stop` closes every connection in `conns`. -/
  | stopCloses (h : o.stop = .joins) (hs : o.serving = false) :
      Step o { o with stop := .waits }
  /-- The relays and `waitReady` have ended.  That the supervisor's own `stop`, which `stop` calls
  and which waits for the service's process to be gone, returns is taken for granted: it is part of
  this step. -/
  | stopReturns (h : o.stop = .waits) (hr : o.relays = []) (hc : o.checking = false) :
      Step o { o with
        stop := .returned, stopped := decide (o.starts ≠ 0),
        removed := decide (o.starts = 0) && o.unix }

/-- The states after `listenOnDemand`. -/
def Reached (unix : Bool) (o : OnDemand ε) : Prop :=
  Relation.ReflTransGen Step { unix := unix } o

end OnDemand

end Init

end Fern

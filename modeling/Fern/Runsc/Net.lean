/-
The networks of boxes.

Every box has a /30 of its own, whose number is in the file `net` of the box's directory.  A wake
takes the lowest number that no file holds, under a lock, and makes a namespace and a link with the
number's addresses; a stop removes them and then the directory, without the lock.  An operation may
fail at any step, a daemon may crash, and its node may start afresh.  Operations on one box come one
after another, from its actor.
-/
import Mathlib.Logic.Function.Basic
import Mathlib.Algebra.Ring.Nat
import Fern.Lib.FinMap

namespace Fern

namespace Runsc

/-! ### Addresses -/

/-- An IPv4 address. -/
structure Addr where
  a : UInt8
  b : UInt8
  c : UInt8
  d : UInt8
  deriving DecidableEq, Repr

/-- An address as a number. -/
def Addr.value (ip : Addr) : Nat :=
  ip.a.toNat * 2 ^ 24 + ip.b.toNat * 2 ^ 16 + ip.c.toNat * 2 ^ 8 + ip.d.toNat

/-- `boxNet`: its first address; 16 bits are the network's. -/
def boxNet : Addr := ⟨10, 89, 0, 0⟩

/-- `maxBoxes`. -/
def maxBoxes : Nat := 1 <<< (32 - 16 - 2)

/-- The four bytes of `x`. -/
def ip (x : UInt32) : Addr :=
  ⟨(x >>> 24).toUInt8, (x >>> 16).toUInt8, (x >>> 8).toUInt8, x.toUInt8⟩

/-- `addrs`: the host's and the box's address in /30 number `n`. -/
def addrs (n : Int) : Except String (Addr × Addr) :=
  if n < 0 ∨ n ≥ maxBoxes then
    .error ("no address for box " ++ toString n ++ ": at most " ++ toString maxBoxes ++ " boxes")
  else
    let off := UInt32.ofNat n.toNat * 4
    let v := boxNet.a.toUInt32 <<< 24 ||| boxNet.b.toUInt32 <<< 16 ||| off
    .ok (ip (v + 1), ip (v + 2))

/-! ### The network of a box -/

/-- `Kind`. -/
inductive Kind where
  | services
  | agent
  deriving DecidableEq, Repr

/-- What the node has of a box's network.  Of an address, the number of its /30 is kept. -/
structure Network where
  ns : Bool := false
  /-- The link, whose host's end is named after the kind of the box. -/
  veth : Option Kind := none
  /-- The address of the host's end. -/
  host : Option Nat := none
  /-- The address of the box's end. -/
  guest : Option Nat := none
  deriving DecidableEq, Repr

/-- There is something of the network. -/
def Network.Exists (N : Network) : Prop := N ≠ {}

instance (N : Network) : Decidable N.Exists := inferInstanceAs (Decidable (_ ≠ _))

/-- A command of `netUp`. -/
inductive Up where
  | addNetns
  | addLink (kind : Kind)
  | addHost (n : Nat) (kind : Kind)
  | linkUp (kind : Kind)
  | addGuest (n : Nat)
  | guestUp
  | loUp
  | addRoute (n : Nat)
  deriving DecidableEq, Repr

/-- `netUp`. -/
def netUp (kind : Kind) (n : Nat) : Except String (List Up) :=
  match addrs n with
  | .error err => .error err
  | .ok _ => .ok [.addNetns, .addLink kind, .addHost n kind, .linkUp kind, .addGuest n, .guestUp,
      .loUp, .addRoute n]

/-- What a command does that finds what it needs, and doesn't find what it makes. -/
def Up.run (N : Network) : Up → Option Network
  | .addNetns => if N.ns then none else some { N with ns := true }
  | .addLink kind => if N.ns ∧ N.veth = none then some { N with veth := some kind } else none
  | .addHost n kind => if N.veth = some kind then some { N with host := some n } else none
  | .linkUp kind => if N.veth = some kind then some N else none
  | .addGuest n => if N.ns ∧ N.veth ≠ none then some { N with guest := some n } else none
  | .guestUp => if N.ns ∧ N.veth ≠ none then some N else none
  | .loUp => if N.ns then some N else none
  | .addRoute _ => if N.ns ∧ N.guest ≠ none then some N else none

/-- A command of `netDown`. -/
inductive Down where
  | delLink (kind : Kind)
  | delNetns
  deriving DecidableEq, Repr

/-- `netDown`. -/
def netDown : List Down := [.delLink .services, .delLink .agent, .delNetns]

/-- What a command of `netDown` does; it passes over what is gone already.  A link goes with both
its ends, and with the namespace one of them is in. -/
def Down.run (N : Network) : Down → Network
  | .delLink kind => if N.veth = some kind then { ns := N.ns } else N
  | .delNetns => {}

/-! ### What the daemon does with a box -/

/-- Where the operation on a box is.  A stop is an operation of its own, or a wake's first part; the
kind of the box to wake is kept in it. -/
inductive Pc (Id : Type) where
  | idle
  /-- In `stop`, while the box ends. -/
  | stopping (wake : Option Kind)
  /-- `ip` removes the network, and has these commands left. -/
  | unlinking (wake : Option Kind) (cmds : List Down)
  /-- `os.RemoveAll` of the directory, before `net` and after it. -/
  | removing (wake : Option Kind)
  | removed (wake : Option Kind)
  /-- In `Driver.netUp`: the directory is made. -/
  | entering (kind : Kind)
  /-- In `allocate`, under the lock, with the files still to read. -/
  | scanning (kind : Kind) (files : List Id) (taken : List Nat)
  /-- `os.WriteFile` has opened `net`, to write `n`. -/
  | writing (kind : Kind) (n : Nat)
  /-- `Driver.netUp` has these commands left. -/
  | raising (n : Nat) (cmds : List Up)
  deriving DecidableEq, Repr

/-- The first of the `k` numbers from `n` on that isn't taken. -/
def lowestFrom (taken : List Nat) : Nat → Nat → Option Nat
  | 0, _ => none
  | k + 1, n => if n ∈ taken then lowestFrom taken k (n + 1) else some n

/-- The loop of `allocate`: the lowest number that isn't taken. -/
def lowest (taken : List Nat) : Option Nat := lowestFrom taken maxBoxes 0

end Runsc

open Runsc

/-- A node with its boxes. -/
structure Boxes (Id : Type) where
  /-- The files `net`, with the number they hold, if it is one. -/
  net : FinMap Id (Option Nat) := .empty
  network : Id → Network := fun _ => {}
  /-- Who has the driver's lock. -/
  lock : Option Id := none
  op : Id → Pc Id := fun _ => .idle

namespace Boxes

variable {Id : Type} [DecidableEq Id]

/-- The operation on `b` goes on at `pc`. -/
def goto (s : Boxes Id) (b : Id) (pc : Pc Id) : Boxes Id :=
    { s with op := Function.update s.op b pc }

/-- The operation on `b` ends. -/
def quit (s : Boxes Id) (b : Id) : Boxes Id := s.goto b .idle

def unlock (s : Boxes Id) : Boxes Id := { s with lock := none }

def setNetwork (s : Boxes Id) (b : Id) (N : Network) : Boxes Id :=
  { s with network := Function.update s.network b N }

/-- The next step of the operation on `b`, when it does what it should. -/
def go (s : Boxes Id) (b : Id) : Boxes Id :=
  match s.op b with
  | .idle => s
  | .stopping wake => s.goto b (.unlinking wake netDown)
  | .unlinking wake (c :: cmds) =>
    (s.setNetwork b (c.run (s.network b))).goto b (.unlinking wake cmds)
  | .unlinking wake [] => s.goto b (.removing wake)
  | .removing wake => { s with net := s.net.erase b }.goto b (.removed wake)
  | .removed none => s.quit b
  | .removed (some kind) => s.goto b (.entering kind)
  | .entering kind =>
    match s.lock with
    | some _ => s
    | none => { s with lock := some b }.goto b (.scanning kind s.net.keys [])
  | .scanning kind (f :: files) taken =>
    -- a file that is gone or holds no number is passed over
    s.goto b (.scanning kind files (((s.net.get f).getD none).toList ++ taken))
  | .scanning kind [] taken =>
    match lowest taken with
    | none => s.unlock.quit b
    | some n => { s with net := s.net.set b none }.goto b (.writing kind n)
  | .writing kind n =>
    let s := { s with net := s.net.set b (some n) }.unlock
    match netUp kind n with
    | .error _ => s.quit b
    | .ok cmds => s.goto b (.raising n cmds)
  | .raising n (c :: cmds) =>
    match c.run (s.network b) with
    | none => s.quit b
    | some N => (s.setNetwork b N).goto b (.raising n cmds)
  | .raising _ [] => s.quit b

/-- The next step of the operation on `b` fails, or its context is done.  A write that fails leaves
anything in the file.  What comes of `ip` in a stop isn't looked at. -/
def fail (s : Boxes Id) (b : Id) (left : Option Nat) : Boxes Id :=
  match s.op b with
  | .unlinking wake _ => s.goto b (.removing wake)
  | .scanning .. => s.unlock.quit b
  | .writing .. => { s with net := s.net.set b left }.unlock.quit b
  | _ => s.quit b

/-- What happens on a node. -/
inductive Act (Id : Type) where
  | wake (b : Id) (kind : Kind)
  | sleep (b : Id)
  | go (b : Id)
  | fail (b : Id) (left : Option Nat)
  /-- The daemon stops, and starts again. -/
  | crash
  /-- The node starts again: the directories are on its tmpfs. -/
  | reboot

def act (s : Boxes Id) : Act Id → Boxes Id
  | .wake b kind => if s.op b = .idle then s.goto b (.stopping (some kind)) else s
  | .sleep b => if s.op b = .idle then s.goto b (.stopping none) else s
  | .go b => s.go b
  | .fail b left => s.fail b left
  | .crash => { s with op := fun _ => .idle, lock := none }
  | .reboot => {}

/-- `ip` isn't stopped before its end by a stop's context. -/
def Whole (s : Boxes Id) : Act Id → Prop
  | .fail b _ => ∀ wake cmds, s.op b = .unlinking wake cmds → cmds = []
  | _ => True

/-- What happens on a node whose steps meet `P`, from one without boxes on. -/
inductive Reach (P : Boxes Id → Act Id → Prop) : Boxes Id → Prop where
  | start : Reach P {}
  | step {s : Boxes Id} (a : Act Id) : Reach P s → P s a → Reach P (s.act a)

/-- The network of `b` exists and holds /30 number `n`: it is in the box's file, or an address of
the link's. -/
def Holds (s : Boxes Id) (b : Id) (n : Nat) : Prop :=
  (s.network b).Exists ∧
    (s.net.get b = some (some n) ∨ (s.network b).host = some n ∨ (s.network b).guest = some n)

end Boxes

end Fern

/-
What the store finds when a disk is swapped or removed.

A box that is running is one its actor knows to be awake, as long as no actor ends without having
put its box to sleep.  From the answer of `stopAgent` on nothing keeps the agent box's actor from
waking its box: what the store finds then is quiet exactly as long as nobody asks for that.
-/
import Fern.Actor.Fence
import Fern.Proofs.Actor.Idle

namespace Fern

variable {left : Bool}

namespace Actor

variable {Addr : Type} [DecidableEq Addr] {idle : Idle} {a : Actor Addr} {now : Nat}

/-- Whether a message is one that stops the box, and does. -/
def stopsBox : Msg Addr → Bool
  | .stop checked ok _ => checked && ok
  | _ => false

/-- **What a message does to whether the box is awake.**  It is if the driver's `Wake` was called,
it isn't if its `Sleep` succeeded, and is otherwise as it was. -/
theorem handle_awake (idle : Idle) (a : Actor Addr) (now : Nat) (m : Msg Addr) :
    (a.handle idle now m).1.awake = (a.callsWake now m || (!stopsBox m && a.awake)) := by
  cases m with
  | exec kind stale ans =>
    have hawake := wake_awake a now stale ans
    simp only [handle, callsWake, stopsBox, Bool.not_false, Bool.true_and]
    rw [← hawake]
    split <;> rfl
  | wake ans =>
    have hawake := wake_awake { a with crashes := [] } now none ans
    simp only [handle, callsWake, stopsBox, Bool.not_false, Bool.true_and]
    rw [← hawake]
    split <;> rfl
  | prewake ans =>
    simp only [handle, callsWake, stopsBox, Bool.not_false, Bool.true_and]
    split
    case isTrue hawake => simp [hawake]
    case isFalse hasleep =>
      have hawake : (a.prewake idle now ans).1.awake =
          ((a.wake now none ans).2.2.called || a.awake) := by
        rw [wake_lease a (some (now + idle.prewake)) now none ans]
        refine Eq.trans ?_ (wake_awake { a with lease := some (now + idle.prewake) } now none ans)
        simp only [prewake]
        split <;> rfl
      rw [hawake]
      simp [hasleep]
  | stop checked ok took =>
    cases checked <;> cases ok <;> simp [handle, callsWake, stopsBox, stopBox, endLeaseWasted]
  | touch found =>
    simp only [handle, callsWake, stopsBox]
    split <;> simp
  | endExec n sleep =>
    have hcase := endExec_cases a now n sleep
    simp only [handle, callsWake, stopsBox]
    generalize a.endExec now n sleep = a' at *
    cases hcase <;> simp
  | other => simp [handle, callsWake, stopsBox]

/-- What the actor does may call the driver's `Wake`. -/
def wakesAt (s : At Addr) : Event Addr → Bool
  | .msg wait m => s.a.callsWake (s.now + wait) m
  | .idle _ _ _ => false

/-- A box that is asleep stays so while nobody has it woken. -/
theorem step_asleep {s s' : At Addr} {e : Event Addr} (hasleep : s.a.awake = false)
    (hwakes : wakesAt s e = false) (hstep : step idle s e = some s') : s'.a.awake = false := by
  cases step_cases hstep with
  | msg wait m =>
    refine (handle_awake idle s.a (s.now + wait) m).trans ?_
    simp only [wakesAt] at hwakes
    simp [hwakes, hasleep]
  | idle wait ok took =>
    have hno : s.a.stopsIfIdle idle (s.now + wait) = false := by simp [stopsIfIdle, hasleep]
    simp [sleepIfIdle, hno, hasleep]

end Actor

namespace Fence

variable {Addr : Type} {idle : Idle} {e : Actor.Event Addr} {s : Fence Addr}

/-! ### A box and its actor -/

/-- What holds of a box and its actor: a box that is running is known to be awake. -/
structure Box.Inv (b : Box Addr) : Prop where
  actor : Actor.Inv b.actor.now b.actor.a
  up : b.up → b.actor.a.awake

theorem Box.Inv.down {b : Box Addr} (h : b.Inv) (hasleep : b.actor.a.awake = false) :
    b.up = false := by
  by_contra hup
  simp [h.up (by simpa using hup)] at hasleep

theorem Box.step_some [DecidableEq Addr] {b b' : Box Addr} (hstep : b.step idle e left = some b') :
    Actor.step idle b.actor e = some b'.actor ∧ b'.up = b.upAfter idle left e := by
  simp only [Box.step, Option.map_eq_some_iff] at hstep
  obtain ⟨actor, hactor, rfl⟩ := hstep
  exact ⟨hactor, rfl⟩

private theorem Box.Inv.msg_up [DecidableEq Addr] {b : Box Addr} (h : b.Inv) (wait : Nat)
    (m : Actor.Msg Addr) (hup : b.upAfter idle left (.msg wait m)) :
    (b.actor.a.handle idle (b.actor.now + wait) m).1.awake := by
  rw [Actor.handle_awake]
  by_cases hcalls : b.actor.a.callsWake (b.actor.now + wait) m
  · simp [hcalls]
  · -- it was running before, and nothing has stopped it
    have hbefore : b.up ∧ Actor.stopsBox m = false := by
      match m with
      | .stop true ok took =>
        simp only [Box.upAfter, Bool.and_eq_true, Bool.not_eq_true'] at hup
        exact ⟨hup.1.2, by simp [Actor.stopsBox, hup.1.1]⟩
      | .stop false ok took | .exec .. | .wake _ | .prewake _ | .touch _ | .endExec .. | .other =>
        simp only [Box.upAfter, if_neg hcalls] at hup
        exact ⟨hup, rfl⟩
    simp [hbefore.2, h.up hbefore.1]

theorem Box.Inv.step [DecidableEq Addr] {b b' : Box Addr} (h : b.Inv)
    (hstep : b.step idle e left = some b') : b'.Inv := by
  obtain ⟨hactor, hup⟩ := Box.step_some hstep
  refine ⟨h.actor.step hactor, fun hrunning => ?_⟩
  rw [hup] at hrunning
  obtain ⟨actor, up⟩ := b'
  dsimp only at hactor ⊢
  cases Actor.step_cases hactor with
  | msg wait m => exact h.msg_up wait m hrunning
  | idle wait ok took =>
    simp only [Box.upAfter] at hrunning
    simp only [Actor.sleepIfIdle]
    split
    case isTrue hstops =>
      -- only a `Sleep` that failed leaves it running, and the actor knows
      simp only [hstops, if_true, Bool.and_eq_true, Bool.not_eq_true'] at hrunning
      simp only [hrunning.1.1, Bool.false_eq_true, if_false]
      exact h.up hrunning.1.2
    case isFalse hstops =>
      simp only [hstops, Bool.false_eq_true, if_false] at hrunning
      exact h.up hrunning

theorem Box.Inv.restart {b : Box Addr} (h : b.Inv) (hasleep : b.actor.a.awake = false) (wait : Nat)
    (crashes : List Nat) : (b.restart wait crashes).Inv := by
  refine ⟨Actor.inv_start (b.actor.now + wait) crashes false, fun hup => ?_⟩
  have hdown : b.up = false := h.down hasleep
  simp [Box.restart, hdown] at hup

theorem Box.Inv.dies {b : Box Addr} (h : b.Inv) : Box.Inv { b with up := false } :=
  ⟨h.actor, (by simp)⟩

theorem Box.stopped [DecidableEq Addr] {b b' : Box Addr} {wait took : Nat}
    (hstep : b.step idle (.msg wait (.stop true true took)) left = some b') :
    b'.actor.a.awake = false := by
  obtain ⟨hactor, -⟩ := Box.step_some hstep
  obtain ⟨actor, up⟩ := b'
  cases Actor.step_cases hactor with
  | msg => rfl

/-- A box that is asleep stays so while its actor isn't asked to wake it. -/
theorem Box.asleep [DecidableEq Addr] {b b' : Box Addr} (hasleep : b.actor.a.awake = false)
    (hwakes : Actor.wakesAt b.actor e = false) (hstep : b.step idle e left = some b') :
    b'.actor.a.awake = false :=
  Actor.step_asleep hasleep hwakes (Box.step_some hstep).1

/-! ### Both boxes -/

/-- What holds of the two boxes: the environment's own is asleep once it was stopped, and the
agent box once its actor has answered. -/
structure Inv (s : Fence Addr) : Prop where
  own : s.own.Inv
  agent : s.agent.Inv
  stopped : ∀ c, s.pc = .stopped c → s.own.actor.a.awake = false
  fenced : ∀ c, s.pc = .fenced c → s.own.actor.a.awake = false ∧ s.agent.actor.a.awake = false

/-- Between `stopAgent`'s answer and the call of the store, the agent box's actor takes no message
that has its box woken; and no actor ends while its box is awake. -/
def Holds [DecidableEq Addr] (s : Fence Addr) : Event Addr → Prop
  | .agent e _ => ∀ c, s.pc = .fenced c → Actor.wakesAt s.agent.actor e = false
  | .restartOwn _ _ => s.own.actor.a.awake = false
  | .restartAgent _ _ => s.agent.actor.a.awake = false
  | _ => True

theorem start_inv (now : Nat) (own agent : Bool) : (start now own agent : Fence Addr).Inv := by
  have hbox : ∀ up : Bool, Box.Inv (⟨⟨now, .start now [] up⟩, up⟩ : Box Addr) := by
    intro up
    refine ⟨Actor.inv_start _ _ _, fun hup => ?_⟩
    dsimp only at hup
    subst hup
    rfl
  exact ⟨hbox own, hbox agent, nofun, nofun⟩

theorem Inv.step [DecidableEq Addr] {s' : Fence Addr} {e : Event Addr} (h : s.Inv)
    (holds : s.Holds e) (hstep : s.step idle e = some s') : s'.Inv := by
  cases e with
  | own e left =>
    simp only [Fence.step, Option.ite_none_right_eq_some, Option.map_eq_some_iff] at hstep
    obtain ⟨⟨hfree, -⟩, own, hown, rfl⟩ := hstep
    exact ⟨h.own.step hown, h.agent, by simp [hfree], by simp [hfree]⟩
  | agent e left =>
    simp only [Fence.step, Option.map_eq_some_iff] at hstep
    obtain ⟨agent, hagent, rfl⟩ := hstep
    refine ⟨h.own, h.agent.step hagent, h.stopped, fun c hc => ?_⟩
    obtain ⟨hown, hasleep⟩ := h.fenced c hc
    exact ⟨hown, Box.asleep hasleep (holds c hc) hagent⟩
  | begins c wait checked ok took left =>
    simp only [Fence.step, Option.ite_none_right_eq_some, Option.map_eq_some_iff] at hstep
    obtain ⟨hfree, own, hown, rfl⟩ := hstep
    refine ⟨h.own.step hown, h.agent, fun c' hc => ?_, fun c' hc => ?_⟩
    · dsimp only at hc ⊢
      split at hc
      case isTrue hok =>
        simp only [Bool.and_eq_true] at hok
        rw [hok.1, hok.2] at hown
        exact Box.stopped hown
      case isFalse => contradiction
    · dsimp only at hc
      split at hc <;> contradiction
  | stopAgent wait ok took left =>
    dsimp only [Fence.step] at hstep
    split at hstep
    case h_1 c hpc =>
      simp only [Option.map_eq_some_iff] at hstep
      obtain ⟨agent, hagent, rfl⟩ := hstep
      refine ⟨h.own, h.agent.step hagent, fun c' hc => ?_, fun c' hc => ?_⟩
      · exact h.stopped c hpc
      · refine ⟨h.stopped c hpc, ?_⟩
        dsimp only at hc ⊢
        split at hc
        case isTrue hok =>
          -- it was asleep already, or is now
          cases hawake : s.agent.actor.a.awake with
          | false => exact Box.asleep hawake rfl hagent
          | true =>
            simp only [hawake, Bool.not_true, Bool.false_or] at hok
            rw [hawake, hok] at hagent
            exact Box.stopped hagent
        case isFalse => contradiction
    case h_2 => contradiction
  | givesUp =>
    dsimp only [Fence.step] at hstep
    split at hstep
    case h_1 =>
      cases hstep
      exact ⟨h.own, h.agent, (by simp), (by simp)⟩
    case h_2 => contradiction
  | store =>
    dsimp only [Fence.step] at hstep
    split at hstep
    case h_1 =>
      cases hstep
      exact ⟨h.own, h.agent, (by simp), (by simp)⟩
    case h_2 => contradiction
  | restartOwn wait crashes =>
    simp only [Fence.step, Option.ite_none_right_eq_some, Option.some.injEq] at hstep
    obtain ⟨⟨hfree, -⟩, rfl⟩ := hstep
    exact ⟨h.own.restart holds wait crashes, h.agent, by simp [hfree], by simp [hfree]⟩
  | restartAgent wait crashes =>
    simp only [Fence.step, Option.ite_none_right_eq_some, Option.some.injEq] at hstep
    obtain ⟨-, rfl⟩ := hstep
    exact ⟨h.own, h.agent.restart holds wait crashes, h.stopped,
      fun c hc => ⟨(h.fenced c hc).1, rfl⟩⟩
  | ownDies =>
    cases hstep
    exact ⟨h.own.dies, h.agent, h.stopped, h.fenced⟩
  | agentDies =>
    cases hstep
    exact ⟨h.own, h.agent.dies, h.stopped, h.fenced⟩
  | shutdown =>
    cases hstep
    exact ⟨h.own, h.agent, h.stopped, h.fenced⟩

/-- The states of the runs whose steps all meet `Holds`. -/
inductive Reach [DecidableEq Addr] (idle : Idle) : Fence Addr → Prop
  | start (now : Nat) (own agent : Bool) : Reach idle (start now own agent)
  | step {s s' : Fence Addr} {e : Event Addr} (h : Reach idle s) (holds : s.Holds e)
      (hstep : s.step idle e = some s') : Reach idle s'

theorem Reach.inv [DecidableEq Addr] (h : Reach idle s) : s.Inv := by
  induction h with
  | start now own agent => exact start_inv now own agent
  | step _ holds hstep ih => exact ih.step holds hstep

/-- **`Restore` and `Delete` work on a quiet environment.**  In every run in which the agent box's
actor isn't asked to wake its box between `stopAgent`'s answer and the call of the store, and no
actor ends while its box is awake: when the store is called, neither box is running or thought to
be, and no command is counted in either. -/
theorem quiet_at_store [DecidableEq Addr] {s' : Fence Addr} (h : Reach idle s)
    (hstore : s.step idle .store = some s') : s.Quiet := by
  obtain ⟨c, hpc⟩ : ∃ c, s.pc = .fenced c := by
    dsimp only [Fence.step] at hstore
    split at hstore
    case h_1 c hpc => exact ⟨c, hpc⟩
    case h_2 => contradiction
  obtain ⟨hown, hagent⟩ := h.inv.fenced c hpc
  obtain ⟨-, hexecs, hjobs, -⟩ := h.inv.own.actor.asleep hown
  obtain ⟨-, hexecs', hjobs', -⟩ := h.inv.agent.actor.asleep hagent
  exact ⟨h.inv.own.down hown, h.inv.agent.down hagent, hown, hagent, ⟨hexecs, hjobs⟩,
    ⟨hexecs', hjobs'⟩⟩

/-- A command for the agent box that comes right after `stopAgent`'s answer wakes it before the
store swaps the disk. -/
theorem agent_woken_before_restore :
    ∃ s s' : Fence Nat, (start 0 true false).run ⟨60, 60, 60⟩
        [.begins .restore 0 true true 0 false, .stopAgent 0 true 0 false,
          .agent (.msg 0 (.exec .exec none ⟨true, some 7, 0⟩)) false] = some s ∧
      s.step ⟨60, 60, 60⟩ .store = some s' ∧
      s.agent.up = true ∧ s.agent.actor.a.awake = true ∧ s.agent.actor.a.execs = [1] :=
  ⟨_, _, rfl, rfl, rfl, rfl, rfl⟩

/-- Both boxes are awake, and the environment is restored. -/
theorem quiet_at_store_both_awake :
    ∃ s s' : Fence Nat, (start 0 true true).run ⟨60, 60, 60⟩
        [.begins .restore 0 true true 0 false, .stopAgent 0 true 0 false] = some s ∧
      s.step ⟨60, 60, 60⟩ .store = some s' ∧ s.Quiet := by
  have h₀ : Reach ⟨60, 60, 60⟩ (start 0 true true : Fence Nat) := .start 0 true true
  have h₁ := h₀.step (e := .begins .restore 0 true true 0 false) trivial rfl
  have h₂ := h₁.step (e := .stopAgent 0 true 0 false) trivial rfl
  exact ⟨_, _, rfl, rfl, quiet_at_store h₂ rfl⟩

end Fence

end Fern

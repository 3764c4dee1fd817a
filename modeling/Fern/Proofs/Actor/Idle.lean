/-
Idle sleep over whole runs.

What the actor knows of its box is kept by every handler (`Inv`): an address, a command or a
pre-wake still to be counted each mean that the box may be running.  Beside the actor's own
clocks stand the ones they are for, when a command last ended and when the box was last used
(`Life`).  The actor's are never behind them where they decide; and that is all an idle sleep
needs.
-/
import Fern.Actor.Actor
import Fern.Lib.Run

namespace Fern

open List

namespace Actor

variable {Addr : Type} {idle : Idle} {a a' a₁ : Actor Addr} {now now' now₁ : Nat}
  {ans : WakeAnswers Addr} {stale : Option Addr} {events : List (Event Addr)} {r : Woken}
  {e : Event Addr}

/-! ### What the actor keeps -/

/-- What holds of an actor between two messages. -/
structure Inv (now : Nat) (a : Actor Addr) : Prop where
  addr : a.addr.isSome = true → a.awake = true
  execs : a.execs ≠ [] → a.awake = true
  jobs : a.jobs ≠ [] → a.awake = true
  lease : a.prewoken = true → a.lease.isSome = true
  prewoken : a.prewoken = true → a.awake = true
  numbers : ∀ n, n ∈ a.execs ∨ n ∈ a.jobs → n ≤ a.next
  counted : a.woken = a.used + a.wasted + if a.prewoken then 1 else 0
  opened : a.opened ≤ now
  closed : a.closed ≤ now

theorem inv_start (now : Nat) (crashes : List Nat) (awake : Bool) :
    Inv now (start now crashes awake : Actor Addr) := by
  cases awake <;> constructor <;> simp [start]

theorem Inv.mono (h : Inv now a) (hle : now ≤ now') : Inv now' a :=
  { h with
    opened := Nat.le_trans h.opened hle
    closed := Nat.le_trans h.closed hle }

theorem Inv.asleep (h : Inv now a) (hawake : a.awake = false) :
    a.addr = none ∧ a.execs = [] ∧ a.jobs = [] ∧ a.prewoken = false := by
  refine ⟨?_, ?_, ?_, ?_⟩
  · refine Option.not_isSome_iff_eq_none.mp fun hsome => ?_
    simp [h.addr hsome] at hawake
  · by_contra hne
    simp [h.execs hne] at hawake
  · by_contra hne
    simp [h.jobs hne] at hawake
  · refine Bool.eq_false_iff.mpr fun htrue => ?_
    simp [h.prewoken htrue] at hawake

theorem Inv.crashes (h : Inv now a) (crashes : List Nat) :
    Inv now { a with crashes := crashes } :=
  { h with }

theorem Inv.beginWake (h : Inv now a) (stale : Option Addr) : Inv now (a.beginWake now stale) where
  addr := nofun
  execs _ := rfl
  jobs _ := rfl
  lease := h.lease
  prewoken _ := rfl
  numbers := h.numbers
  counted := h.counted
  opened := by
    simp only [Actor.beginWake]
    split
    · exact h.opened
    · exact Nat.le_refl now
  closed := by
    simp only [Actor.beginWake]
    split
    · exact h.closed
    · exact Nat.le_refl now

theorem Inv.endLeaseUsed (h : Inv now a) : Inv now a.endLeaseUsed :=
  { h with
    lease := nofun
    prewoken := nofun
    counted := by
      have := h.counted
      simp only [Actor.endLeaseUsed, Bool.false_eq_true, if_false]
      omega }

theorem Inv.stopBox (h : Inv now a) (ok : Bool) : Inv now (a.stopBox ok) := by
  cases ok with
  | false => exact { h with addr := nofun }
  | true =>
    refine { h with addr := nofun, execs := ?_, jobs := ?_, lease := nofun, prewoken := nofun,
                    numbers := ?_, counted := ?_ }
    · simp [Actor.stopBox]
    · simp [Actor.stopBox]
    · simp [Actor.stopBox]
    · have := h.counted
      simp only [Actor.stopBox, if_true, Actor.endLeaseWasted, Bool.false_eq_true, if_false]
      omega

theorem Inv.openCommand (h : Inv now a) (hawake : a.awake = true) (kind : Kind) :
    Inv now (a.openCommand now kind) :=
  { h.endLeaseUsed with
    execs := fun _ => hawake
    jobs := fun _ => hawake
    numbers := by
      intro n hn
      have hold := h.numbers n
      simp only [Actor.openCommand, Actor.endLeaseUsed] at hn ⊢
      split at hn
      · simp only [mem_cons] at hn
        rcases hn with hn | rfl | hn
        · exact Nat.le_succ_of_le (hold (.inl hn))
        · exact Nat.le_refl _
        · exact Nat.le_succ_of_le (hold (.inr hn))
      · simp only [mem_cons] at hn
        rcases hn with (rfl | hn) | hn
        · exact Nat.le_refl _
        · exact Nat.le_succ_of_le (hold (.inl hn))
        · exact Nat.le_succ_of_le (hold (.inr hn))
    opened := Nat.le_refl now }

/-- What the end of a command does. -/
inductive EndCase (a : Actor Addr) (now n : Nat) (sleep : Option Nat) : Actor Addr → Prop
  | job (hn : n ∈ a.jobs) : EndCase a now n sleep { a with jobs := a.jobs.filter (· ≠ n) }
  | exec (hjobs : n ∉ a.jobs) (hn : n ∈ a.execs) (lease : Option Nat)
      (hlease : a.lease.isSome = true → lease.isSome = true) :
      EndCase a now n sleep
        { a with execs := a.execs.filter (· ≠ n), closed := now, lease := lease }
  | nothing (hjobs : n ∉ a.jobs) (hexecs : n ∉ a.execs) : EndCase a now n sleep a

theorem endExec_cases (a : Actor Addr) (now n : Nat) (sleep : Option Nat) :
    EndCase a now n sleep (a.endExec now n sleep) := by
  unfold endExec
  split
  · rename_i hn
    exact .job hn
  split
  · rename_i hjobs hexecs
    refine .exec hjobs hexecs _ fun hlease => ?_
    split
    · simp [Option.isSome_or, hlease]
    · exact hlease
  · rename_i hjobs hexecs
    exact .nothing hjobs hexecs

theorem Inv.sleepIfIdle (h : Inv now a) (ok : Bool) (took : Nat) :
    Inv (a.sleepIfIdle idle now ok took).2 (a.sleepIfIdle idle now ok took).1 := by
  have hle : now ≤ now + took := Nat.le_add_right _ _
  simp only [Actor.sleepIfIdle]
  split
  · cases ok with
    | true => exact (h.stopBox true).mono hle
    | false => exact { (h.stopBox false).mono hle with closed := Nat.le_refl _ }
  · exact h

/-! ### What a wake does

The handlers are taken apart once, into the cases a wake, the end of a command and a message can
come to; every fact below goes through these cases and not through the handlers' branches. -/

/-- What can come of a wake. -/
inductive WakeCase (a : Actor Addr) (now : Nat) (stale : Option Addr) (ans : WakeAnswers Addr) :
    Actor Addr × Nat × Woken → Prop
  | notFound (hans : ans.found = false) : WakeCase a now stale ans (a, now, .notFound)
  | up (hans : ans.found = true) (haddr : a.addr.isSome = true) (hstale : a.addr ≠ stale) :
      WakeCase a now stale ans (a, now, .up)
  | crashing (hans : ans.found = true) (haddr : a.addr = none ∨ a.addr = stale)
      (hlimit : crashLimit ≤ (a.crashesAt now stale).length) :
      WakeCase a now stale ans ({ a with crashes := a.crashesAt now stale }, now, .crashing)
  | failed (hans : ans.found = true) (haddr : a.addr = none ∨ a.addr = stale)
      (hlimit : (a.crashesAt now stale).length < crashLimit) (hdriver : ans.addr = none) :
      WakeCase a now stale ans
        ({ a.beginWake now stale with
          crashes := a.crashesAt now stale ++ [now + ans.took] }, now + ans.took, .failed)
  | woke (hans : ans.found = true) (haddr : a.addr = none ∨ a.addr = stale)
      (hlimit : (a.crashesAt now stale).length < crashLimit) (addr : Addr)
      (hdriver : ans.addr = some addr) :
      WakeCase a now stale ans
        ({ a.beginWake now stale with addr := some addr }, now + ans.took, .woke)

theorem wake_cases [DecidableEq Addr] (a : Actor Addr) (now : Nat) (stale : Option Addr)
    (ans : WakeAnswers Addr) :
    WakeCase a now stale ans (a.wake now stale ans) := by
  unfold wake
  split
  · rename_i hans
    exact .notFound (by simpa using hans)
  rename_i hans
  have hans : ans.found = true := by simpa using hans
  split
  · rename_i hup
    exact .up hans hup.1 hup.2
  rename_i hup
  have haddr : a.addr = none ∨ a.addr = stale := by
    by_cases hnone : a.addr = none
    · exact .inl hnone
    · refine .inr (by_contra fun hne => hup ⟨?_, hne⟩)
      exact Option.isSome_iff_ne_none.mpr hnone
  split
  · rename_i hlimit
    exact .crashing hans haddr hlimit
  rename_i hlimit
  cases hdriver : ans.addr with
  | none => exact .failed hans haddr (by omega) hdriver
  | some addr => exact .woke hans haddr (by omega) addr hdriver

theorem wake_awake [DecidableEq Addr] (a : Actor Addr) (now : Nat) (stale : Option Addr)
    (ans : WakeAnswers Addr) :
    (a.wake now stale ans).1.awake = ((a.wake now stale ans).2.2.called || a.awake) := by
  have hcase := wake_cases a now stale ans
  generalize a.wake now stale ans = r at *
  cases hcase <;> rfl

theorem wake_lease [DecidableEq Addr] (a : Actor Addr) (lease : Option Nat) (now : Nat)
    (stale : Option Addr) (ans : WakeAnswers Addr) :
    (a.wake now stale ans).2.2 = ({ a with lease := lease }.wake now stale ans).2.2 := by
  have hat : { a with lease := lease }.crashesAt now stale = a.crashesAt now stale := rfl
  simp only [wake, hat]
  split
  · rfl
  split
  · rfl
  split
  · rfl
  cases ans.addr <;> rfl

/-- What can come of a message. -/
inductive HandleCase (idle : Idle) (a : Actor Addr) (now : Nat) :
    Msg Addr → Actor Addr × Nat × Reply Addr → Prop
  | opened {kind : Kind} {stale : Option Addr} {ans : WakeAnswers Addr} {a₁ : Actor Addr}
      {now₁ : Nat} {r : Woken} (hcase : WakeCase a now stale ans (a₁, now₁, r))
        (hok : r.ok = true) :
      HandleCase idle a now (.exec kind stale ans)
        (a₁.openCommand now₁ kind, now₁, .opened (a₁.next + 1) a₁.addr)
  | refused {kind : Kind} {stale : Option Addr} {ans : WakeAnswers Addr} {a₁ : Actor Addr}
      {now₁ : Nat} {r : Woken} (hcase : WakeCase a now stale ans (a₁, now₁, r))
        (hno : r.ok = false) :
      HandleCase idle a now (.exec kind stale ans) (a₁, now₁, wakeError r)
  | touched {ans : WakeAnswers Addr} {a₁ : Actor Addr} {now₁ : Nat} {r : Woken}
      (hcase : WakeCase { a with crashes := [] } now none ans (a₁, now₁, r)) (hok : r.ok = true) :
      HandleCase idle a now (.wake ans)
        ({ a₁.endLeaseUsed with opened := now₁, closed := now₁ }, now₁, .ok)
  | untouched {ans : WakeAnswers Addr} {a₁ : Actor Addr} {now₁ : Nat} {r : Woken}
      (hcase : WakeCase { a with crashes := [] } now none ans (a₁, now₁, r)) (hno : r.ok = false) :
      HandleCase idle a now (.wake ans) (a₁, now₁, wakeError r)
  | awake {ans : WakeAnswers Addr} (hawake : a.awake = true) :
      HandleCase idle a now (.prewake ans) (a, now, .ok)
  | ahead {ans : WakeAnswers Addr} {a₁ : Actor Addr} {now₁ : Nat} {r : Woken}
      (hasleep : a.awake = false)
      (hcase : WakeCase { a with lease := some (now + idle.prewake) } now none ans (a₁, now₁, r))
      (hok : r.ok = true) :
      HandleCase idle a now (.prewake ans)
        ({ a₁ with
          lease := some (now₁ + idle.prewake)
          prewoken := true
          woken := a₁.woken + 1 }, now₁, .ok)
  | notAhead {ans : WakeAnswers Addr} {a₁ : Actor Addr} {now₁ : Nat} {r : Woken}
      (hasleep : a.awake = false)
      (hcase : WakeCase { a with lease := some (now + idle.prewake) } now none ans (a₁, now₁, r))
      (hno : r.ok = false) :
      HandleCase idle a now (.prewake ans)
        ({ a₁ with lease := if a₁.awake then a₁.lease else none }, now₁, wakeError r)
  | stopped {ok : Bool} {took : Nat} :
      HandleCase idle a now (.stop true ok took)
        (a.stopBox ok, now + took, if ok then .ok else .failed)
  | unchecked {ok : Bool} {took : Nat} :
      HandleCase idle a now (.stop false ok took) (a, now, .failed)
  | used {found : Bool} (hfound : a.addr.isSome = true ∧ found = true) :
      HandleCase idle a now (.touch found) ({ a with opened := now }, now, .ok)
  | unused {found : Bool} (hnone : ¬(a.addr.isSome = true ∧ found = true)) :
      HandleCase idle a now (.touch found) (a, now, .ok)
  | ended {n : Nat} {sleep : Option Nat} {a' : Actor Addr} (hcase : EndCase a now n sleep a') :
      HandleCase idle a now (.endExec n sleep) (a', now, .ok)
  | other : HandleCase idle a now .other (a, now, .ok)

theorem handle_cases [DecidableEq Addr] (idle : Idle) (a : Actor Addr) (now : Nat) (m : Msg Addr) :
    HandleCase idle a now m (a.handle idle now m) := by
  cases m with
  | exec kind stale ans =>
    have hcase := wake_cases a now stale ans
    simp only [handle]
    split
    · rename_i hok
      exact .opened hcase hok
    · rename_i hno
      exact .refused hcase (by simpa using hno)
  | wake ans =>
    have hcase := wake_cases { a with crashes := [] } now none ans
    simp only [handle]
    split
    · rename_i hok
      exact .touched hcase hok
    · rename_i hno
      exact .untouched hcase (by simpa using hno)
  | prewake ans =>
    have hcase := wake_cases { a with lease := some (now + idle.prewake) } now none ans
    simp only [handle, prewake]
    split
    · rename_i hawake
      exact .awake hawake
    · rename_i hasleep
      have hasleep : a.awake = false := by simpa using hasleep
      split
      · rename_i hok
        exact .ahead hasleep hcase hok
      · rename_i hno
        exact .notAhead hasleep hcase (by simpa using hno)
  | stop checked ok took =>
    cases checked with
    | true => exact .stopped
    | false => exact .unchecked
  | touch found =>
    simp only [handle]
    split
    · rename_i hfound
      exact .used hfound
    · rename_i hnone
      exact .unused hnone
  | endExec n sleep => exact .ended (endExec_cases a now n sleep)
  | other => exact .other

/-! ### Every message keeps what the actor knows -/

theorem WakeCase.inv (hcase : WakeCase a now stale ans (a₁, now₁, r)) (h : Inv now a) :
    Inv now₁ a₁ := by
  cases hcase with
  | notFound => exact h
  | up => exact h
  | crashing => exact h.crashes _
  | failed => exact ((h.beginWake stale).mono (Nat.le_add_right _ _)).crashes _
  | woke => exact { (h.beginWake stale).mono (Nat.le_add_right _ _) with addr := fun _ => rfl }

theorem WakeCase.time (hcase : WakeCase a now stale ans (a₁, now₁, r)) : now ≤ now₁ := by
  cases hcase with
  | notFound | up | crashing => exact Nat.le_refl now
  | failed | woke => exact Nat.le_add_right _ _

theorem WakeCase.awake (hcase : WakeCase a now stale ans (a₁, now₁, r)) (h : Inv now a)
    (hok : r.ok = true) : a₁.awake = true := by
  cases hcase with
  | notFound | crashing | failed => simp [Woken.ok] at hok
  | up _ haddr => exact h.addr haddr
  | woke => rfl

theorem WakeCase.frame (hcase : WakeCase a now stale ans (a₁, now₁, r)) :
    a₁.execs = a.execs ∧ a₁.jobs = a.jobs ∧ a₁.next = a.next ∧ a₁.prewoken = a.prewoken := by
  cases hcase <;> exact ⟨rfl, rfl, rfl, rfl⟩

theorem EndCase.inv {n : Nat} {sleep : Option Nat} (hcase : EndCase a now n sleep a')
    (h : Inv now a) : Inv now a' := by
  have hsub : ∀ {l : List Nat}, l.filter (· ≠ n) ≠ [] → l ≠ [] := by
    rintro l hne rfl
    exact hne rfl
  cases hcase with
  | job =>
    refine { h with jobs := fun hne => h.jobs (hsub hne), numbers := ?_ }
    rintro m (hm | hm)
    · exact h.numbers m (.inl hm)
    · exact h.numbers m (.inr (mem_of_mem_filter hm))
  | exec hjobs hn lease hlease =>
    refine { h with execs := fun hne => h.execs (hsub hne), numbers := ?_,
                    lease := fun hpre => hlease (h.lease hpre), closed := Nat.le_refl now }
    rintro m (hm | hm)
    · exact h.numbers m (.inl (mem_of_mem_filter hm))
    · exact h.numbers m (.inr hm)
  | nothing => exact h

/-- **Every message keeps what the actor knows.** -/
theorem Inv.handle [DecidableEq Addr] (h : Inv now a) (m : Msg Addr) :
    Inv (a.handle idle now m).2.1 (a.handle idle now m).1 := by
  have hcase := handle_cases idle a now m
  generalize a.handle idle now m = r at *
  cases hcase with
  | opened hcase hok => exact (hcase.inv h).openCommand (hcase.awake h hok) _
  | refused hcase => exact hcase.inv h
  | touched hcase hok =>
    exact { (hcase.inv (h.crashes [])).endLeaseUsed with
            opened := Nat.le_refl _, closed := Nat.le_refl _ }
  | untouched hcase => exact hcase.inv (h.crashes [])
  | awake => exact h
  | ahead hasleep hcase hok =>
    have hlease : Inv now { a with lease := some (now + idle.prewake) } :=
      { h with lease := fun _ => rfl }
    have hinv := hcase.inv hlease
    -- the wake keeps it that no pre-wake is still to be counted
    have hpre := hcase.frame.2.2.2.trans (h.asleep hasleep).2.2.2
    have hcounted := hinv.counted
    simp only [hpre, Bool.false_eq_true, if_false] at hcounted
    exact
      { hinv with
        lease := fun _ => rfl
        prewoken := fun _ => hcase.awake hlease hok
        counted := by
          simp only [if_true]
          omega }
  | notAhead hasleep hcase hno =>
    have hlease : Inv now { a with lease := some (now + idle.prewake) } :=
      { h with lease := fun _ => rfl }
    have hpre := hcase.frame.2.2.2.trans (h.asleep hasleep).2.2.2
    refine { hcase.inv hlease with lease := fun hp => ?_ }
    simp [hpre] at hp
  | stopped => exact (h.stopBox _).mono (Nat.le_add_right _ _)
  | unchecked => exact h
  | used => exact { h with opened := Nat.le_refl now }
  | unused => exact h
  | ended hcase => exact hcase.inv h
  | other => exact h

/-! ### Commands -/

/-- The commands of `a'` are among those of `a` or have new numbers. -/
def NoneBack (a a' : Actor Addr) : Prop :=
  a.next ≤ a'.next ∧ ∀ n ≤ a.next, n ∈ a'.execs ∨ n ∈ a'.jobs → n ∈ a.execs ∨ n ∈ a.jobs

theorem NoneBack.of_same (hexecs : a'.execs = a.execs) (hjobs : a'.jobs = a.jobs)
    (hnext : a'.next = a.next) : NoneBack a a' :=
  ⟨Nat.le_of_eq hnext.symm, fun n _ hn => by rwa [hexecs, hjobs] at hn⟩

theorem NoneBack.stopBox (a : Actor Addr) (ok : Bool) : NoneBack a (a.stopBox ok) := by
  cases ok with
  | false => exact .of_same rfl rfl rfl
  | true => exact ⟨Nat.le_refl _, fun n _ hn => by simp [Actor.stopBox] at hn⟩

theorem NoneBack.handle [DecidableEq Addr] (a : Actor Addr) (now : Nat) (m : Msg Addr) :
    NoneBack a (a.handle idle now m).1 := by
  have hcase := handle_cases idle a now m
  generalize a.handle idle now m = r at *
  cases hcase with
  | opened hcase =>
    obtain ⟨hexecs, hjobs, hnext, -⟩ := hcase.frame
    refine ⟨?_, ?_⟩
    · simp only [Actor.openCommand, Actor.endLeaseUsed, hnext]
      exact Nat.le_succ _
    · intro n hle hn
      simp only [Actor.openCommand, Actor.endLeaseUsed, hexecs, hjobs, hnext] at hn
      have hne : n ≠ a.next + 1 := by omega
      split at hn <;> simpa [hne] using hn
  | refused hcase | touched hcase | untouched hcase | ahead _ hcase | notAhead _ hcase =>
    obtain ⟨hexecs, hjobs, hnext, -⟩ := hcase.frame
    exact .of_same hexecs hjobs hnext
  | awake | unchecked | used | unused | other => exact .of_same rfl rfl rfl
  | stopped => exact .stopBox a _
  | ended hcase =>
    cases hcase with
    | job => exact ⟨Nat.le_refl _, fun m _ hm => hm.imp_right mem_of_mem_filter⟩
    | exec => exact ⟨Nat.le_refl _, fun m _ hm => hm.imp_left mem_of_mem_filter⟩
    | nothing => exact .of_same rfl rfl rfl

/-- What an event does to an actor. -/
inductive StepCase [DecidableEq Addr] (idle : Idle) (s : At Addr) : Event Addr → At Addr → Prop
  | msg (wait : Nat) (m : Msg Addr) : StepCase idle s (.msg wait m)
      ⟨(s.a.handle idle (s.now + wait) m).2.1, (s.a.handle idle (s.now + wait) m).1⟩
  | idle (wait : Nat) (ok : Bool) (took : Nat)
      (harmed : ∃ t, s.a.armIdle idle = some t ∧ t ≤ s.now + wait) :
      StepCase idle s (.idle wait ok took)
        ⟨(s.a.sleepIfIdle idle (s.now + wait) ok took).2,
          (s.a.sleepIfIdle idle (s.now + wait) ok took).1⟩

theorem step_cases [DecidableEq Addr] {s s' : At Addr} (h : step idle s e = some s') :
    StepCase idle s e s' := by
  cases e with
  | msg wait m =>
    simp only [step, Option.some.injEq] at h
    subst h
    exact .msg wait m
  | idle wait ok took =>
    simp only [step] at h
    split at h
    · rename_i harmed
      simp only [Option.some.injEq] at h
      subst h
      refine .idle wait ok took ?_
      simpa [Option.any_eq_true] using harmed
    · simp at h

theorem NoneBack.step [DecidableEq Addr] {s s' : At Addr} (h : step idle s e = some s') :
    NoneBack s.a s'.a := by
  cases step_cases h with
  | msg wait m => exact .handle _ _ _
  | idle wait ok took =>
    simp only [Actor.sleepIfIdle]
    split
    · split
      · exact .stopBox _ _
      · exact .of_same rfl rfl rfl
    · exact .of_same rfl rfl rfl

theorem Inv.step [DecidableEq Addr] {s s' : At Addr} (h : Inv s.now s.a)
    (hstep : Actor.step idle s e = some s') : Inv s'.now s'.a := by
  cases step_cases hstep with
  | msg wait m => exact (h.mono (Nat.le_add_right _ wait)).handle m
  | idle wait ok took => exact (h.mono (Nat.le_add_right _ wait)).sleepIfIdle ok took

/-- A command that isn't counted any more is never counted again. -/
theorem NoneBack.run [DecidableEq Addr] {s s' : At Addr} (h : run idle s events = some s') :
    NoneBack s.a s'.a := by
  refine foldlM_keeps (I := fun t => NoneBack s.a t.a) ?_ h (.of_same rfl rfl rfl)
  rintro t t' e - ⟨hnext, hback⟩ hstep
  obtain ⟨hnext', hback'⟩ := NoneBack.step hstep
  refine ⟨Nat.le_trans hnext hnext', fun n hle hn => ?_⟩
  exact hback n hle (hback' n (Nat.le_trans hle hnext) hn)

/-! ### What the clocks are for

`Life` keeps the two times the actor's clocks stand for.  They differ only while a lease applies,
when the clock for uses may be behind: then the lease decides. -/

/-- When an event ends a command. -/
def closesAt (s : At Addr) : Event Addr → Option Nat
  | .msg wait (.endExec n _) => if n ∈ s.a.execs ∧ n ∉ s.a.jobs then some (s.now + wait) else none
  | _ => none

/-- A message that got this reply has used the box: a command or job was opened, the box was
touched or woken. -/
def uses (a : Actor Addr) : Msg Addr → Reply Addr → Bool
  | .exec .., .opened .. => true
  | .wake _, .ok => true
  | .prewake _, .ok => !a.awake
  | .touch found, _ => a.addr.isSome && found
  | _, _ => false

/-- When an event uses the box. -/
def usesAt [DecidableEq Addr] (idle : Idle) (s : At Addr) : Event Addr → Option Nat
  | .msg wait m =>
    if s.a.uses m (s.a.handle idle (s.now + wait) m).2.2 then
      some (s.a.handle idle (s.now + wait) m).2.1
    else none
  | .idle .. => none

/-- An actor, with when a command last ended and when its box was last used. -/
structure Life (Addr : Type) where
  s : At Addr
  lastClose : Option Nat := none
  lastUse : Option Nat := none

def Life.step [DecidableEq Addr] (idle : Idle) (l : Life Addr)
    (e : Event Addr) : Option (Life Addr) :=
  (Actor.step idle l.s e).map fun s =>
    ⟨s, (closesAt l.s e).or l.lastClose, (usesAt idle l.s e).or l.lastUse⟩

def Life.run [DecidableEq Addr] (idle : Idle) (l : Life Addr)
    (events : List (Event Addr)) : Option (Life Addr) :=
  events.foldlM (Life.step idle) l

/-- `lastUse` is not after what the actor goes by: its own clock, or a lease that applies. -/
def GoesBy (lastUse : Option Nat) (a : Actor Addr) : Prop :=
  a.awake = true → ∀ t ∈ lastUse, t ≤ a.opened ∨ (a.lease.isSome = true ∧ a.jobs = [])

theorem WakeCase.goesBy (hcase : WakeCase a now stale ans (a₁, now₁, r)) {lastUse : Option Nat}
    (h : GoesBy lastUse a) (hnow : ∀ t ∈ lastUse, t ≤ now) :
    GoesBy lastUse a₁ := by
  -- a wake of a box that is asleep sets the clock to now
  have hbegin : GoesBy lastUse (a.beginWake now stale) := by
    intro _ t ht
    by_cases hawake : a.awake = true
    · simpa [Actor.beginWake, hawake] using h hawake t ht
    · exact .inl (by simpa [Actor.beginWake, hawake] using hnow t ht)
  cases hcase with
  | notFound | up | crashing => exact h
  | failed | woke => exact hbegin

theorem goesBy_opened (lastUse : Option Nat) : GoesBy ((some a.opened).or lastUse) a :=
  fun _ t ht => .inl (by simp at ht; omega)

theorem uses_wakeError (a : Actor Addr) (r : Woken) (m : Msg Addr)
    (hm : ∀ found, m ≠ .touch found) : a.uses m (wakeError r) = false := by
  cases m with
  | touch found => exact absurd rfl (hm found)
  | _ => cases r <;> rfl

/-- **The actor's clock for uses is never behind where it decides.** -/
theorem GoesBy.handle [DecidableEq Addr] {lastUse : Option Nat} (hinv : Inv now a)
    (h : GoesBy lastUse a)
    (hnow : ∀ t ∈ lastUse, t ≤ now) (m : Msg Addr) :
    GoesBy ((if a.uses m (a.handle idle now m).2.2 then some (a.handle idle now m).2.1
      else none).or lastUse) (a.handle idle now m).1 := by
  have hcase := handle_cases idle a now m
  generalize a.handle idle now m = r at *
  cases hcase with
  | opened hcase => exact goesBy_opened lastUse
  | refused hcase hno =>
    dsimp only
    rw [uses_wakeError a _ (.exec _ _ _) (by simp)]
    exact hcase.goesBy h hnow
  | touched hcase => exact goesBy_opened lastUse
  | untouched hcase hno =>
    dsimp only
    rw [uses_wakeError a _ (.wake _) (by simp)]
    exact hcase.goesBy (a := { a with crashes := [] }) h hnow
  | awake hawake =>
    simpa [uses, hawake] using h
  | ahead hasleep hcase hok =>
    -- woken ahead: the lease applies
    obtain ⟨-, hjobs, -⟩ := hcase.frame
    exact fun _ t _ => .inr ⟨rfl, hjobs.trans (hinv.asleep hasleep).2.2.1⟩
  | @notAhead ans a₁ now₁ r hasleep hcase hno =>
    dsimp only
    rw [uses_wakeError a _ (.prewake _) (by simp)]
    have hlease : GoesBy lastUse { a with lease := some (now + idle.prewake) } :=
      fun hyes => by simp [hasleep] at hyes
    have hwake := hcase.goesBy hlease hnow
    intro hyes t ht
    have hyes : a₁.awake = true := hyes
    refine (hwake hyes t ht).imp_right fun hl => ?_
    simpa [hyes] using hl
  | @stopped ok took =>
    cases ok with
    | true => exact fun hyes => by simp [Actor.stopBox] at hyes
    | false => exact h
  | unchecked => exact h
  | used hfound =>
    simp only [uses, hfound, Bool.and_self, if_true]
    exact goesBy_opened lastUse
  | unused hnone =>
    rw [if_neg (by simpa [uses] using hnone)]
    exact h
  | ended hcase =>
    cases hcase with
    | job =>
      intro hyes t ht
      refine (h hyes t ht).imp_right fun hl => ⟨hl.1, ?_⟩
      show a.jobs.filter _ = []
      rw [hl.2]
      rfl
    | exec _ _ lease hlease =>
      intro hyes t ht
      exact (h hyes t ht).imp_right fun hl => ⟨hlease hl.1, hl.2⟩
    | nothing => exact h
  | other => exact h

theorem WakeCase.closed_le (hcase : WakeCase a now stale ans (a₁, now₁, r)) (h : Inv now a) :
    a.closed ≤ a₁.closed := by
  have hbegin : a.closed ≤ (a.beginWake now stale).closed := by
    simp only [Actor.beginWake]
    split
    · exact Nat.le_refl _
    · exact h.closed
  cases hcase with
  | notFound | up | crashing => exact Nat.le_refl _
  | failed | woke => exact hbegin

theorem Inv.closed_le [DecidableEq Addr] (h : Inv now a) (m : Msg Addr) :
    a.closed ≤ (a.handle idle now m).1.closed := by
  have hcase := handle_cases idle a now m
  generalize a.handle idle now m = r at *
  cases hcase with
  | opened hcase | refused hcase | ahead _ hcase | notAhead _ hcase =>
    exact hcase.closed_le { h with lease := by first | exact h.lease | exact fun _ => rfl }
  | touched hcase => exact Nat.le_trans h.closed hcase.time
  | untouched hcase => exact hcase.closed_le (h.crashes [])
  | awake | unchecked | used | unused | other => exact Nat.le_refl _
  | @stopped ok took => cases ok <;> exact Nat.le_refl _
  | ended hcase =>
    cases hcase with
    | job | nothing => exact Nat.le_refl _
    | exec => exact h.closed

theorem handle_time [DecidableEq Addr] (a : Actor Addr) (now : Nat) (m : Msg Addr) :
    now ≤ (a.handle idle now m).2.1 := by
  have hcase := handle_cases idle a now m
  generalize a.handle idle now m = r at *
  cases hcase with
  | opened hcase | refused hcase | touched hcase | untouched hcase | ahead _ hcase
  | notAhead _ hcase => exact hcase.time
  | awake | unchecked | used | unused | ended | other => exact Nat.le_refl now
  | stopped => exact Nat.le_add_right _ _

/-- What holds of an actor and the clocks it is for. -/
structure Life.Inv (l : Life Addr) : Prop where
  actor : Actor.Inv l.s.now l.s.a
  close : ∀ t ∈ l.lastClose, t ≤ l.s.a.closed
  useNow : ∀ t ∈ l.lastUse, t ≤ l.s.now
  use : GoesBy l.lastUse l.s.a

theorem Life.Inv.step [DecidableEq Addr] {l l' : Life Addr} (h : l.Inv)
    (hstep : l.step idle e = some l') : l'.Inv := by
  rw [Life.step, Option.map_eq_some_iff] at hstep
  obtain ⟨s', hs, rfl⟩ := hstep
  have hinv := h.actor.step hs
  cases step_cases hs with
  | msg wait m =>
    have hwait := h.actor.mono (Nat.le_add_right _ wait)
    have htime := @handle_time Addr idle _ l.s.a (l.s.now + wait) m
    refine ⟨hinv, ?_, ?_, h.use.handle hwait (fun t ht => ?_) m⟩
    · intro t ht
      rcases Option.or_eq_some_iff.mp ht with hc | ⟨-, hold⟩
      · -- the close of a command sets the clock
        cases m with
        | endExec n sleep =>
          simp only [closesAt, Option.ite_none_right_eq_some, Option.some.injEq] at hc
          obtain ⟨⟨hexec, hjob⟩, rfl⟩ := hc
          simp [Actor.handle, Actor.endExec, hexec, hjob]
        | _ => simp [closesAt] at hc
      · exact Nat.le_trans (h.close t hold) (hwait.closed_le m)
    · intro t ht
      rcases Option.or_eq_some_iff.mp ht with hu | ⟨-, hold⟩
      · simp only [usesAt, Option.ite_none_right_eq_some, Option.some.injEq] at hu
        exact Nat.le_of_eq hu.2.symm
      · have := h.useNow t hold
        dsimp only
        omega
    · exact Nat.le_trans (h.useNow t ht) (Nat.le_add_right _ _)
  | idle wait ok took =>
    have hwait := h.actor.mono (Nat.le_add_right _ wait)
    refine ⟨hinv, ?_, ?_, ?_⟩
    · intro t ht
      refine Nat.le_trans (h.close t ht) ?_
      simp only [Actor.sleepIfIdle]
      split
      · cases ok with
        | true => exact Nat.le_refl _
        | false => exact Nat.le_trans hwait.closed (Nat.le_add_right _ _)
      · exact Nat.le_refl _
    · intro t ht
      have := h.useNow t ht
      simp only [Actor.sleepIfIdle]
      split <;> (try split) <;> (dsimp only; omega)
    · simp only [usesAt, Option.none_or, Actor.sleepIfIdle]
      split
      · cases ok with
        | true => exact fun hyes => by simp [Actor.stopBox] at hyes
        | false => exact h.use
      · exact h.use

/-- The life of an actor that starts at `now`. -/
def Life.begin (now : Nat) (crashes : List Nat) (awake : Bool) : Life Addr where
  s := ⟨now, start now crashes awake⟩

/-- **Runs keep what the actor knows and what its clocks are for.** -/
theorem Life.inv_run [DecidableEq Addr] {crashes : List Nat} {awake : Bool} {l : Life Addr}
    (hrun : (Life.begin now crashes awake).run idle events = some l) : l.Inv :=
  foldlM_keeps (fun _ _ _ _ h hstep => h.step hstep) hrun
    ⟨inv_start now crashes awake, nofun, nofun, fun _ => nofun⟩

theorem Life.run_actor [DecidableEq Addr] {l l' : Life Addr} (hrun : l.run idle events = some l') :
    Actor.run idle l.s events = some l'.s := by
  induction events using List.reverseRecOn generalizing l' with
  | nil =>
    cases hrun
    rfl
  | append_singleton events e ih =>
    obtain ⟨l₁, hrun₁, hstep⟩ := foldlM_concat.mp hrun
    rw [Life.step, Option.map_eq_some_iff] at hstep
    obtain ⟨s', hs, rfl⟩ := hstep
    exact foldlM_concat.mpr ⟨l₁.s, ih hrun₁, hs⟩

/-! ### Idle sleep -/

/-- When a box may be stopped for being idle at `now`. -/
def MaySleep (idle : Idle) (l : Life Addr) (now : Nat) : Prop :=
  l.s.a.execs = [] ∧
    ((l.s.a.jobs = [] ∧ ∃ t, l.s.a.lease = some t ∧ t ≤ now) ∨
      ((l.s.a.lease = none ∨ l.s.a.jobs ≠ []) ∧
        (∀ t ∈ l.lastClose, t + idle.agent ≤ now) ∧ ∀ t ∈ l.lastUse, t + idle.human ≤ now))

theorem Life.Inv.maySleep {l : Life Addr} (h : l.Inv) (hstops : l.s.a.stopsIfIdle idle now = true) :
    MaySleep idle l now := by
  simp only [stopsIfIdle, Bool.and_eq_true, decide_eq_true_eq] at hstops
  obtain ⟨⟨hawake, hexecs⟩, hdead⟩ := hstops
  refine ⟨hexecs, ?_⟩
  by_cases hlease : ∃ t, l.s.a.lease = some t ∧ l.s.a.jobs = []
  · obtain ⟨t, hl, hj⟩ := hlease
    rw [deadline, hl, hj] at hdead
    exact .inl ⟨hj, t, hl, hdead⟩
  · -- without a lease that applies the actor goes by its clocks
    have hdead : max (l.s.a.closed + idle.agent) (l.s.a.opened + idle.human) ≤ now := by
      rw [deadline] at hdead
      split at hdead
      · rename_i t hl hj
        exact absurd ⟨t, hl, hj⟩ hlease
      · exact hdead
    refine .inr ⟨?_, ?_, ?_⟩
    · by_contra hno
      rw [not_or, not_not] at hno
      obtain ⟨t, ht⟩ := Option.ne_none_iff_exists'.mp hno.1
      exact hlease ⟨t, ht, hno.2⟩
    · intro t ht
      have := h.close t ht
      omega
    · intro t ht
      rcases h.use hawake t ht with hle | ⟨hsome, hj⟩
      · omega
      · obtain ⟨t', ht'⟩ := Option.isSome_iff_exists.mp hsome
        exact absurd ⟨t', ht', hj⟩ hlease

/-- **Idle sleep over whole runs.**  In every state an actor comes to: an address, an open command
or job means that the box may be running, and a pre-wake still to be counted that a lease is set.
The box is stopped for being idle only when it may be.  The end of a command uncounts no other
one, and nothing if the command isn't counted any more, which it never is again.  Every pre-wake
that woke the box is counted as used or wasted at most once, and once if the box is asleep. -/
theorem idle_sleep_sound [DecidableEq Addr] (idle : Idle) (now : Nat) (crashes : List Nat)
    (awake : Bool) (events : List (Event Addr)) (l : Life Addr)
    (hrun : (Life.begin now crashes awake).run idle events = some l) :
    ((l.s.a.addr.isSome = true → l.s.a.awake = true) ∧
      (l.s.a.execs ≠ [] ∨ l.s.a.jobs ≠ [] → l.s.a.awake = true) ∧
      (l.s.a.prewoken = true → l.s.a.lease.isSome = true)) ∧
    (∀ now', l.s.a.stopsIfIdle idle now' = true → MaySleep idle l now') ∧
    (∀ n now' sleep, (∀ m ≠ n, (m ∈ (l.s.a.endExec now' n sleep).execs ↔ m ∈ l.s.a.execs) ∧
        (m ∈ (l.s.a.endExec now' n sleep).jobs ↔ m ∈ l.s.a.jobs)) ∧
      (n ∉ l.s.a.execs → n ∉ l.s.a.jobs → l.s.a.endExec now' n sleep = l.s.a)) ∧
    (∀ n ≤ l.s.a.next, n ∉ l.s.a.execs → n ∉ l.s.a.jobs → ∀ more l', l.run idle more = some l' →
      n ∉ l'.s.a.execs ∧ n ∉ l'.s.a.jobs) ∧
    l.s.a.used + l.s.a.wasted ≤ l.s.a.woken ∧
    (l.s.a.awake = false → l.s.a.used + l.s.a.wasted = l.s.a.woken) := by
  have h := Life.inv_run hrun
  have hcounted := h.actor.counted
  refine ⟨⟨h.actor.addr, ?_, h.actor.lease⟩, fun now' hstops => h.maySleep hstops, ?_, ?_, ?_, ?_⟩
  · rintro (hne | hne)
    · exact h.actor.execs hne
    · exact h.actor.jobs hne
  · intro n now' sleep
    have hcase := endExec_cases l.s.a now' n sleep
    generalize l.s.a.endExec now' n sleep = a' at *
    cases hcase with
    | job hn => exact ⟨fun m hm => by simp [hm], fun _ hjobs => absurd hn hjobs⟩
    | exec _ hn => exact ⟨fun m hm => by simp [hm], fun hexecs => absurd hn hexecs⟩
    | nothing => exact ⟨fun m _ => ⟨Iff.rfl, Iff.rfl⟩, fun _ _ => rfl⟩
  · intro n hle hexecs hjobs more l' hmore
    obtain ⟨-, hback⟩ := NoneBack.run (Life.run_actor hmore)
    have hnot : ¬(n ∈ l'.s.a.execs ∨ n ∈ l'.s.a.jobs) := fun hn =>
      (hback n hle hn).elim hexecs hjobs
    exact not_or.mp hnot
  · omega
  · intro hasleep
    rw [(h.actor.asleep hasleep).2.2.2] at hcounted
    simpa using hcounted.symm

/-- A box that is woken ahead, used, left and put to sleep after its idle times. -/
theorem idle_sleep_sound_ahead :
    ∃ l : Life Nat, (Life.begin 0 [] false).run ⟨5, 10, 3⟩
        [.msg 1 (.prewake ⟨true, some 7, 1⟩), .msg 1 (.exec .exec none ⟨true, none, 0⟩),
          .msg 2 (.endExec 1 none), .idle 20 true 1] = some l ∧
      l.s.a.awake = false ∧ l.s.a.used + l.s.a.wasted = 1 :=
  have hrun : (Life.begin 0 [] false : Life Nat).run ⟨5, 10, 3⟩
      [.msg 1 (.prewake ⟨true, some 7, 1⟩), .msg 1 (.exec .exec none ⟨true, none, 0⟩),
        .msg 2 (.endExec 1 none), .idle 20 true 1] = some
          ⟨⟨26, { next := 1, opened := 3, closed := 5, woken := 1, used := 1 }⟩,
            some 5, some 3⟩ := by
    rfl
  ⟨_, hrun, rfl, (idle_sleep_sound _ _ _ _ _ _ hrun).2.2.2.2.2 rfl⟩

/-! ### A stop that fails

The failure counts as a close, so the next attempt is an idle time away; but a lease that has passed
is still there, and by it the box is due at once. -/

theorem armIdle_some {t : Nat} (h : a.armIdle idle = some t) :
    a.awake = true ∧ a.execs = [] ∧ idle.agent ≠ 0 ∧ idle.human ≠ 0 ∧ t = a.deadline idle := by
  simp only [armIdle] at h
  split at h
  · simp at h
  · rename_i hno
    simp only [not_or, Bool.not_eq_true', Bool.not_eq_false, not_not] at hno
    exact ⟨hno.1, hno.2.1, hno.2.2.1, hno.2.2.2, (Option.some.inj h).symm⟩

theorem stops_of_armed (h : ∃ t, a.armIdle idle = some t ∧ t ≤ now) :
    a.stopsIfIdle idle now = true := by
  obtain ⟨t, harm, hle⟩ := h
  obtain ⟨hawake, hexecs, -, -, rfl⟩ := armIdle_some harm
  simp [stopsIfIdle, hawake, hexecs, hle]

theorem step_idle_addr [DecidableEq Addr] {s s' : At Addr} {wait took : Nat} {ok : Bool}
    (h : step idle s (.idle wait ok took) = some s') : s'.a.addr = none := by
  cases step_cases h with
  | idle _ _ _ harmed =>
    simp only [Actor.sleepIfIdle, stops_of_armed harmed, if_true]
    cases ok <;> rfl

/-- What a failed idle sleep leaves: the box as it was, without its address, and the time of the
failure as its last close. -/
theorem failed_sleep [DecidableEq Addr] {s s' : At Addr} {wait took : Nat}
    (hfail : step idle s (.idle wait false took) = some s') :
    (idle.agent ≠ 0 ∧ idle.human ≠ 0 ∧ s.a.deadline idle ≤ s'.now) ∧
      s'.a = { s.a with addr := none, closed := s'.now } ∧ s'.a.awake = true ∧ s'.a.execs = [] := by
  cases step_cases hfail with
  | idle _ _ _ harmed =>
    have hstops := stops_of_armed harmed
    obtain ⟨t, harm, hle⟩ := harmed
    obtain ⟨hawake, hexecs, hagent, hhuman, rfl⟩ := armIdle_some harm
    have hsleep : s.a.sleepIfIdle idle (s.now + wait) false took =
        ({ s.a with addr := none, closed := s.now + wait + took }, s.now + wait + took) := by
      simp [Actor.sleepIfIdle, hstops, Actor.stopBox]
    rw [hsleep]
    exact ⟨⟨hagent, hhuman, Nat.le_trans hle (Nat.le_add_right _ _)⟩, rfl, hawake, hexecs⟩

/-- **A failed idle sleep is tried again after another idle time exactly if no lease applies.**
If the stop of an idle box fails, then the next attempt, with no message in between, comes no
earlier than `Idle.Agent` after that, iff no lease is set or a job runs. -/
theorem failed_sleep_retry_iff [DecidableEq Addr] (s s' : At Addr) (wait took : Nat)
    (hfail : step idle s (.idle wait false took) = some s') :
    (∀ wait' ok' took' s'', step idle s' (.idle wait' ok' took') = some s'' →
        s'.a.stopsIfIdle idle (s'.now + wait') = true → s'.now + idle.agent ≤ s'.now + wait') ↔
      s.a.lease = none ∨ s.a.jobs ≠ [] := by
  obtain ⟨⟨hagent, hhuman, hpassed⟩, heq, hawake, hexecs⟩ := failed_sleep hfail
  have hlease : s'.a.lease = s.a.lease := by rw [heq]
  have hjobs : s'.a.jobs = s.a.jobs := by rw [heq]
  have hclosed : s'.a.closed = s'.now := by rw [heq]
  constructor
  · intro hlate
    by_contra hno
    rw [not_or, not_not] at hno
    obtain ⟨t, ht⟩ := Option.ne_none_iff_exists'.mp hno.1
    -- the lease has passed already: the timer fires at once
    have hdead : s'.a.deadline idle = t := by rw [deadline, hlease, hjobs, ht, hno.2]
    have ht' : t ≤ s'.now := by rwa [deadline, ht, hno.2] at hpassed
    have harm : s'.a.armIdle idle = some t := by
      rw [armIdle, hdead, if_neg]
      simp [hawake, hexecs, hagent, hhuman]
    have hstops : s'.a.stopsIfIdle idle (s'.now + 0) = true := by
      simp [stopsIfIdle, hawake, hexecs, hdead, ht']
    have hstep : (step idle s' (.idle 0 true 0)).isSome = true := by
      simp [step, harm, ht']
    obtain ⟨s'', hs''⟩ := Option.isSome_iff_exists.mp hstep
    have := hlate 0 true 0 s'' hs'' hstops
    omega
  · intro hfree wait' ok' took' s'' _ hstops
    simp only [stopsIfIdle, Bool.and_eq_true, decide_eq_true_eq] at hstops
    have hdead := hstops.2
    rw [deadline, hlease, hjobs] at hdead
    split at hdead
    · rename_i t hl hj
      rw [hl, hj] at hfree
      simp at hfree
    · omega

/-- A command that asked for it is followed by sleep at once; the driver's `Sleep` fails, and is
called again in the same moment, and again. -/
theorem failed_sleep_retried_at_once :
    ∃ s s₁ s₂ : At Nat, run ⟨5, 10, 3⟩ ⟨0, start 0 [] false⟩
        [.msg 1 (.exec .exec none ⟨true, some 7, 1⟩), .msg 2 (.endExec 1 (some 0))] = some s ∧
      step ⟨5, 10, 3⟩ s (.idle 0 false 0) = some s₁ ∧
      step ⟨5, 10, 3⟩ s₁ (.idle 0 false 0) = some s₂ ∧ s₁.now = s₂.now ∧
      s₁.a.stopsIfIdle ⟨5, 10, 3⟩ s₁.now = true ∧ s₂.a.stopsIfIdle ⟨5, 10, 3⟩ s₂.now = true :=
  ⟨_, _, _, rfl, rfl, rfl, rfl, rfl, rfl⟩

/-- Without a lease the next attempt comes an idle time later. -/
theorem failed_sleep_retry_iff_unleased :
    ∃ s s' : At Nat, step ⟨5, 10, 3⟩ s (.idle 20 false 0) = some s' ∧
      ∀ wait' ok' took' s'', step ⟨5, 10, 3⟩ s' (.idle wait' ok' took') = some s'' →
        s'.a.stopsIfIdle ⟨5, 10, 3⟩ (s'.now + wait') = true → s'.now + 5 ≤ s'.now + wait' :=
  have hfail : step ⟨5, 10, 3⟩ ⟨0, start 0 [] true⟩ (.idle 20 false 0) =
      some (⟨20, { awake := true, closed := 20 }⟩ : At Nat) := rfl
  ⟨_, _, hfail, (failed_sleep_retry_iff _ _ _ _ hfail).mpr (.inl rfl)⟩

end Actor

end Fern

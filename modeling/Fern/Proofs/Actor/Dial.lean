/-
Deaths and the crash times recorded for them.

A report counts a crash when the actor knows no address but the reported one.  It stands for a
death of its own if the actor knows the box by that address, the box is dead, and nobody has
reported it yet.  As long as all reports that the actor takes for deaths are such, a crash time
is owed at most once for each death.
-/
import Mathlib.Data.List.Induction
import Fern.Actor.Dial
import Fern.Proofs.Actor.Crashes

namespace Fern

open List

namespace Actor

variable {Addr : Type} {a a₁ : Actor Addr} {now now₁ : Nat}

/-- What a wake records, by what came of it. -/
def recordsOf (r : Woken) (stale : Option Addr) : Nat :=
  match r with
  | .notFound | .up => 0
  | .failed => stale.toList.length + 1
  | .crashing | .woke => stale.toList.length

theorem length_recent_le (now : Nat) (ts : List Nat) : (recent now ts).length ≤ ts.length :=
  length_filter_le _ _

theorem length_crashesAt_le (a : Actor Addr) (now : Nat) (stale : Option Addr) :
    (a.crashesAt now stale).length ≤ a.crashes.length + stale.toList.length := by
  refine Nat.le_trans (length_recent_le _ _) ?_
  cases stale <;> simp

/-- How many crash times a wake records, and that the actor has no more than before and these. -/
theorem WakeCase.account [DecidableEq Addr] {stale : Option Addr} {ans : WakeAnswers Addr}
    {r : Woken} (hcase : WakeCase a now stale ans (a₁, now₁, r)) :
    (a.wakeCrashes now stale ans).length = recordsOf r stale ∧
      a₁.crashes.length ≤ a.crashes.length + recordsOf r stale ∧
      (r = .crashing → crashLimit ≤ a.crashes.length + recordsOf r stale) := by
  have hat := a.length_crashesAt_le now stale
  have hdied : (died now stale).length = stale.toList.length := by cases stale <;> rfl
  cases hcase with
  | notFound hans => simp [wakeCrashes, hans, recordsOf]
  | up hans haddr hstale => simp [wakeCrashes, haddr, hstale, recordsOf]
  | crashing hans haddr hlimit =>
    refine ⟨?_, hat, fun _ => Nat.le_trans hlimit hat⟩
    rw [wakeCrashes_died hans haddr, if_neg (fun h => absurd h.1 (Nat.not_lt.mpr hlimit)),
      append_nil, hdied]
    rfl
  | failed hans haddr hlimit hdriver =>
    refine ⟨?_, ?_, (by simp)⟩
    · rw [wakeCrashes_died hans haddr, if_pos ⟨hlimit, hdriver⟩, length_append, hdied]
      rfl
    · simp only [length_append, length_singleton, recordsOf]
      omega
  | woke hans haddr hlimit addr hdriver =>
    refine ⟨?_, hat, (by simp)⟩
    rw [wakeCrashes_died hans haddr, if_neg (fun h => by simp [hdriver] at h), append_nil,
      hdied]
    rfl

end Actor

namespace Scene

variable {Addr : Type} [DecidableEq Addr] {idle : Idle} {s s' : Scene Addr} {a : Actor Addr}
  {m : Actor.Msg Addr}

/-- A death that the actor doesn't know of yet: it knows the box by an address at which it died,
and nobody has reported it. -/
def owed (s : Scene Addr) : Nat :=
  if s.g.live.any (·.addr.isSome) && s.box.isNone && !s.reported then 1 else 0

/-- Crash times recorded, and still to be recorded for a death, are no more than deaths and failed
wakes; and nobody has more crash times than were recorded. -/
structure Inv (s : Scene Addr) : Prop where
  count : s.recorded + s.owed ≤ s.deaths + s.failed
  live : ∀ a, s.g.live = some a → a.crashes.length ≤ s.recorded
  kept : s.g.kept.length ≤ s.recorded
  exiting : ∀ crashes ∈ s.g.exiting, crashes.length ≤ s.recorded

/-- A message whose wake ended with `r`, from an actor with the crash times of `a₀`, has been
taken. -/
structure Wakes (s s' : Scene Addr) (a₀ : Actor Addr) (now : Nat) (stale : Option Addr)
    (ans : WakeAnswers Addr) (a₁ : Actor Addr) (now₁ : Nat) (r : Woken) : Prop where
  wake : a₀.WakeCase now stale ans (a₁, now₁, r)
  before : ∃ a, s.g.live = some a ∧ a.addr = a₀.addr ∧ a₀.crashes.length ≤ a.crashes.length
  after : ∃ a, s'.g.live = some a ∧ a.addr = a₁.addr ∧ a.crashes = a₁.crashes
  kept : s'.g.kept = s.g.kept
  exiting : s'.g.exiting = s.g.exiting
  box : s'.box = Actor.boxAfterWake r ans.addr s.box
  deaths : s'.deaths = s.deaths
  failed : s'.failed = s.failed + if r = .failed then 1 else 0
  recorded : s'.recorded = s.recorded + (a₀.wakeCrashes now stale ans).length
  reported : s'.reported =
    if r = .woke then false else s.reported || !(a₀.wakeCrashes now stale ans).isEmpty

/-- What a report must be for the crash it counts to be a death: the actor knows the box by
another address, so that none is counted, or by the reported one, the box there is dead, and
nobody has reported it before. -/
def ReportsDeath (s : Scene Addr) (stale : Option Addr) : Prop :=
  ∀ addr, stale = some addr → ∀ a, s.g.live = some a →
    (∃ other, a.addr = some other ∧ other ≠ addr) ∨
      (a.addr = some addr ∧ s.box = none ∧ s.reported = false)

variable {a₀ a₁ : Actor Addr} {now now₁ : Nat} {stale : Option Addr} {ans : WakeAnswers Addr}
  {r : Woken}

private theorem Wakes.count (h : Wakes s s' a₀ now stale ans a₁ now₁ r) (hinv : s.Inv)
    (hdeath : ans.found = true → s.ReportsDeath stale) :
    s'.recorded + s'.owed ≤ s'.deaths + s'.failed := by
  obtain ⟨a, hlive, haddr, -⟩ := h.before
  obtain ⟨a', hlive', haddr', -⟩ := h.after
  have hcount := hinv.count
  have hlen := h.wake.account.1
  have hrec := h.recorded
  have hdeaths := h.deaths
  have hfailed := h.failed
  have hbox := h.box
  have hrep := h.reported
  have howed : s'.owed ≤ if a₁.addr.isSome && s'.box.isNone && !s'.reported then 1 else 0 := by
    simp [owed, hlive', haddr']
  -- a report that counts is of a death that was owed
  have hreport : ans.found = true → a₀.addr = none ∨ a₀.addr = stale →
      stale.toList.length ≤ s.owed := by
    intro hans hnone
    cases hstale : stale with
    | none => exact Nat.zero_le _
    | some addr =>
      rcases hdeath hans addr hstale a hlive with ⟨other, ho, hne⟩ | ⟨hknown, hdead, hnot⟩
      · rw [← haddr, ho, hstale] at hnone
        simp [hne] at hnone
      · simp [owed, hlive, hknown, hdead, hnot]
  cases hcase : h.wake with
  | notFound hans => simp_all [Actor.recordsOf, owed, Actor.boxAfterWake]
  | up => simp_all [Actor.recordsOf, owed, Actor.boxAfterWake]
  | crashing hans hnone =>
    have hle := hreport hans hnone
    simp only [Actor.recordsOf] at hlen
    -- the box is as it was; if its death was counted, it is reported now
    have hless : s'.owed + stale.toList.length ≤ s.owed := by
      cases stale with
      | none =>
        have hempty : a₀.wakeCrashes now none ans = [] := length_eq_zero_iff.mp hlen
        simp_all [owed, Actor.boxAfterWake]
      | some addr =>
        have hrep' : s'.reported = true := by
          rw [hrep]
          cases hw : a₀.wakeCrashes now (some addr) ans with
          | nil => simp [hw] at hlen
          | cons t ts => simp
        simp only [hrep', Bool.not_true, Bool.and_false, Bool.false_eq_true, if_false] at howed
        omega
    simp only [reduceCtorEq, if_false] at hfailed
    omega
  | failed hans hnone =>
    have hle := hreport hans hnone
    simp only [Actor.recordsOf] at hlen
    have hzero : s'.owed = 0 := by simpa [Actor.beginWake] using howed
    simp only [if_true] at hfailed
    omega
  | woke hans hnone hlimit addr hdriver =>
    have hle := hreport hans hnone
    simp only [Actor.recordsOf] at hlen
    have hzero : s'.owed = 0 := by simpa [hbox, hdriver, Actor.boxAfterWake] using howed
    simp only [reduceCtorEq, if_false] at hfailed
    omega

/-- **A wake keeps the count.** -/
theorem Wakes.inv (h : Wakes s s' a₀ now stale ans a₁ now₁ r) (hinv : s.Inv)
    (hdeath : ans.found = true → s.ReportsDeath stale) : s'.Inv := by
  obtain ⟨a, hlive, -, hlen⟩ := h.before
  obtain ⟨a', hlive', -, hcrashes⟩ := h.after
  obtain ⟨hw, hle, -⟩ := h.wake.account
  have hrec := h.recorded
  have hold := hinv.live a hlive
  refine ⟨h.count hinv hdeath, ?_, ?_, ?_⟩
  · intro a'' hlive''
    cases hlive'.symm.trans hlive''
    rw [hcrashes]
    omega
  · rw [h.kept]
    exact Nat.le_trans hinv.kept (by omega)
  · rw [h.exiting]
    exact fun crashes hc => Nat.le_trans (hinv.exiting crashes hc) (by omega)

theorem Wakes.crashing (h : Wakes s s' a₀ now stale ans a₁ now₁ .crashing) (hinv : s.Inv) :
    crashLimit ≤ s'.recorded := by
  obtain ⟨a, hlive, -, hlen⟩ := h.before
  obtain ⟨hw, -, hlimit⟩ := h.wake.account
  have hrec := h.recorded
  have hold := hinv.live a hlive
  have := hlimit rfl
  omega

/-! ### Messages -/

/-- The wake a message asks for: of what box, and with what answers. -/
def wakeAsked (idle : Idle) (a : Actor Addr) (now : Nat) :
    Actor.Msg Addr → Option (Actor Addr × Option Addr × WakeAnswers Addr)
  | .exec _ stale ans => some (a, stale, ans)
  | .wake ans => some ({ a with crashes := [] }, none, ans)
  | .prewake ans =>
    if a.awake then none else some ({ a with lease := some (now + idle.prewake) }, none, ans)
  | _ => none

theorem take_eq (hlive : s.g.live = some a) (wait : Nat) (m : Actor.Msg Addr) :
    s.take idle wait m = some
      { s with
        g :=
          { s.g with
            now := (a.handle idle (s.g.now + wait) m).2.1
            live := some (a.handle idle (s.g.now + wait) m).1 }
        box := a.boxAfter (s.g.now + wait) s.box m
        failed := s.failed +
          if (a.wakeOf (s.g.now + wait) m).map Prod.fst = some .failed then 1 else 0
        recorded := s.recorded + (a.crashesOf (s.g.now + wait) m).length
        reported :=
          if (a.wakeOf (s.g.now + wait) m).map Prod.fst = some .woke then false
          else s.reported || !(a.crashesOf (s.g.now + wait) m).isEmpty } := by
  simp [take, hlive, Group.step]

theorem take_wakes (hlive : s.g.live = some a) {wait : Nat}
    (hask : wakeAsked idle a (s.g.now + wait) m = some (a₀, stale, ans))
    (htake : s.take idle wait m = some s') :
    Wakes s s' a₀ (s.g.now + wait) stale ans (a₀.wake (s.g.now + wait) stale ans).1
      (a₀.wake (s.g.now + wait) stale ans).2.1 (a₀.wake (s.g.now + wait) stale ans).2.2 := by
  rw [take_eq hlive, Option.some.injEq] at htake
  subst htake
  have hcase := Actor.wake_cases a₀ (s.g.now + wait) stale ans
  cases m with
  | exec kind stale' ans' =>
    simp only [wakeAsked, Option.some.injEq, Prod.mk.injEq] at hask
    obtain ⟨rfl, rfl, rfl⟩ := hask
    refine ⟨hcase, ⟨a, hlive, rfl, Nat.le_refl _⟩, ⟨_, rfl, ?_⟩, rfl, rfl, ?_, rfl, ?_, rfl, ?_⟩
    · simp only [Actor.handle]
      split <;> exact ⟨rfl, rfl⟩
    · rfl
    · simp [Actor.wakeOf]
    · simp [Actor.wakeOf, Actor.crashesOf]
  | wake ans' =>
    simp only [wakeAsked, Option.some.injEq, Prod.mk.injEq] at hask
    obtain ⟨rfl, rfl, rfl⟩ := hask
    refine ⟨hcase, ⟨a, hlive, rfl, Nat.zero_le _⟩, ⟨_, rfl, ?_⟩, rfl, rfl, ?_, rfl, ?_, rfl, ?_⟩
    · simp only [Actor.handle]
      split <;> exact ⟨rfl, rfl⟩
    · rfl
    · simp [Actor.wakeOf]
    · simp [Actor.wakeOf, Actor.crashesOf]
  | prewake ans' =>
    simp only [wakeAsked] at hask
    split at hask
    · simp at hask
    rename_i hasleep
    simp only [Option.some.injEq, Prod.mk.injEq] at hask
    obtain ⟨rfl, rfl, rfl⟩ := hask
    -- the lease is nothing to the wake's outcome
    have hsame : (a.wake (s.g.now + wait) none ans').2.2 =
        ({ a with lease := some (s.g.now + wait + idle.prewake) }.wake
          (s.g.now + wait) none ans').2.2 := Actor.wake_lease a _ _ _ _
    refine ⟨hcase, ⟨a, hlive, rfl, Nat.le_refl _⟩, ⟨_, rfl, ?_⟩, rfl, rfl, ?_, rfl, ?_, ?_, ?_⟩
    · have hhandle : a.handle idle (s.g.now + wait) (.prewake ans') =
          a.prewake idle (s.g.now + wait) ans' := if_neg hasleep
      simp only [hhandle, Actor.prewake]
      split <;> exact ⟨rfl, rfl⟩
    · simp only [Actor.boxAfter, Actor.wakeOf, hasleep, hsame]
      rfl
    · simp [Actor.wakeOf, hasleep, hsame]
    · simp [Actor.crashesOf, hasleep]
      rfl
    · simp [Actor.wakeOf, Actor.crashesOf, hasleep, hsame]
      rfl
  | _ => simp [wakeAsked] at hask

/-- A message that asks for no wake: no crash time comes or goes, and the actor knows no new
address. -/
theorem take_rest (hlive : s.g.live = some a) {wait : Nat}
    (hask : wakeAsked idle a (s.g.now + wait) m = none) (htake : s.take idle wait m = some s')
    (hinv : s.Inv) : s'.Inv := by
  rw [take_eq hlive, Option.some.injEq] at htake
  have hnone : a.wakeOf (s.g.now + wait) m = none ∧ a.crashesOf (s.g.now + wait) m = [] := by
    cases m with
    | prewake ans =>
      simp only [wakeAsked] at hask
      split at hask
      · rename_i hawake
        simp [Actor.wakeOf, Actor.crashesOf, hawake]
      · simp at hask
    | exec | wake => simp [wakeAsked] at hask
    | stop | touch | endExec | other => exact ⟨rfl, rfl⟩
  -- what the actor is then, and the box
  have hactor : (a.handle idle (s.g.now + wait) m).1.crashes = a.crashes ∧
      ((a.handle idle (s.g.now + wait) m).1.addr = none ∨
        (a.handle idle (s.g.now + wait) m).1.addr = a.addr ∧
          a.boxAfter (s.g.now + wait) s.box m = s.box) := by
    cases m with
    | prewake ans =>
      simp only [wakeAsked] at hask
      split at hask
      · rename_i hawake
        simp [Actor.handle, hawake, Actor.boxAfter, Actor.wakeOf]
      · simp at hask
    | exec | wake => simp [wakeAsked] at hask
    | stop checked ok took =>
      cases checked with
      | true => cases ok <;> exact ⟨rfl, .inl rfl⟩
      | false => exact ⟨rfl, .inr ⟨rfl, rfl⟩⟩
    | touch found =>
      simp only [Actor.handle]
      split <;> exact ⟨rfl, .inr ⟨rfl, rfl⟩⟩
    | endExec n sleep =>
      have hcase := Actor.endExec_cases a (s.g.now + wait) n sleep
      simp only [Actor.handle]
      generalize a.endExec (s.g.now + wait) n sleep = a' at *
      cases hcase <;> exact ⟨rfl, .inr ⟨rfl, rfl⟩⟩
    | other => exact ⟨rfl, .inr ⟨rfl, rfl⟩⟩
  have hcount := hinv.count
  obtain ⟨hwake, hcrash⟩ := hnone
  obtain ⟨hcrashes, haddr⟩ := hactor
  subst htake
  refine ⟨?_, ?_, by simpa [hcrash] using hinv.kept, by simpa [hcrash] using hinv.exiting⟩
  · rcases haddr with haddr | ⟨haddr, hbox⟩
    · simp [owed, hwake, hcrash, haddr]
      omega
    · simpa [owed, hwake, hcrash, haddr, hbox, hlive] using hcount
  · intro a' ha'
    cases ha'
    simpa [hcrash, hcrashes] using hinv.live a hlive

/-- **Taking a message keeps the count**, if a report that counts is of a death. -/
theorem take_inv {wait : Nat} (htake : s.take idle wait m = some s') (hinv : s.Inv)
    (hdeath : ∀ kind stale ans, m = .exec kind stale ans → ans.found = true →
      s.ReportsDeath stale) : s'.Inv := by
  cases hlive : s.g.live with
  | none => simp [take, hlive] at htake
  | some a =>
    cases hask : wakeAsked idle a (s.g.now + wait) m with
    | none => exact take_rest hlive hask htake hinv
    | some w =>
      obtain ⟨a₀, stale, ans⟩ := w
      refine (take_wakes hlive hask htake).inv hinv fun hans => ?_
      cases m with
      | exec kind stale' ans' =>
        simp only [wakeAsked, Option.some.injEq, Prod.mk.injEq] at hask
        obtain ⟨rfl, rfl, rfl⟩ := hask
        exact hdeath kind _ _ rfl hans
      | wake ans' =>
        simp only [wakeAsked, Option.some.injEq, Prod.mk.injEq] at hask
        obtain ⟨-, rfl, -⟩ := hask
        exact nofun
      | prewake ans' =>
        simp only [wakeAsked] at hask
        split at hask
        · simp at hask
        · simp only [Option.some.injEq, Prod.mk.injEq] at hask
          obtain ⟨-, rfl, -⟩ := hask
          exact nofun
      | _ => simp [wakeAsked] at hask

omit [DecidableEq Addr] in
theorem Inv.commands (h : s.Inv) (held late : List Addr) :
    ({ s with held := held, late := late } : Scene Addr).Inv :=
  ⟨h.count, h.live, h.kept, h.exiting⟩

/-- What an event must be: a report that the environment is found for is of a death. -/
def Honest (s : Scene Addr) : Event Addr → Prop
  | .reports _ _ addr ans => ans.found = true → s.ReportsDeath (some addr)
  | _ => True

theorem Inv.group (h : s.Inv) {e : Group.Event Addr} {g : Group Addr} (box : Option Addr)
    (hbox : (∃ wait took, e = .idle wait true took) ∨ box = s.box)
    (he : ∀ wait m, e ≠ .msg wait m) (hg : s.g.step idle e = some g) :
    ({ s with g := g, box := box } : Scene Addr).Inv := by
  have hcount := h.count
  cases e with
  | msg wait m => exact absurd rfl (he wait m)
  | idle wait ok took =>
    simp only [Group.step, bind, Option.bind_eq_some_iff, pure, Option.some.injEq] at hg
    obtain ⟨a, hlive, s₁, hstep, rfl⟩ := hg
    obtain ⟨hcrashes, -⟩ := Chronicle.idle_crashes hstep
    have haddr := Actor.step_idle_addr hstep
    refine ⟨?_, ?_, h.kept, h.exiting⟩
    · simp only [owed, Option.any_some, haddr, Option.isSome_none, Bool.false_and,
        Bool.false_eq_true, if_false]
      omega
    · intro a' ha'
      cases ha'
      rw [hcrashes]
      exact h.live a hlive
  | finish =>
    simp only [Group.step, bind, Option.bind_eq_some_iff] at hg
    obtain ⟨a, hlive, hg⟩ := hg
    split at hg
    · cases hg
      refine ⟨?_, (by simp), h.kept, ?_⟩
      · simp only [owed, Option.any_none, Bool.false_and, Bool.false_eq_true, if_false]
        omega
      · intro crashes hc
        rcases mem_append.mp hc with hc | hc
        · exact h.exiting crashes hc
        · rw [mem_singleton.mp hc]
          exact h.live a hlive
    · simp at hg
  | start wait =>
    simp only [Group.step] at hg
    split at hg
    · simp at hg
    · cases hg
      refine ⟨?_, ?_, h.kept, h.exiting⟩
      · simp [owed, Actor.start]
        omega
      · intro a' ha'
        cases ha'
        exact h.kept
  | exited wait i =>
    simp only [Group.step, bind, Option.bind_eq_some_iff, pure, Option.some.injEq] at hg
    obtain ⟨crashes, hexiting, rfl⟩ := hg
    have hmem : crashes ∈ s.g.exiting := mem_of_getElem? hexiting
    refine ⟨?_, h.live, ?_, ?_⟩
    · obtain rfl : box = s.box := hbox.resolve_left (by simp)
      exact hcount
    · exact Nat.le_trans (Actor.length_recent_le _ _) (h.exiting crashes hmem)
    · exact fun crashes' hc => h.exiting crashes' (mem_of_mem_eraseIdx hc)

/-- **Every event keeps the count**, if reports are of deaths. -/
theorem Inv.step (h : s.Inv) {e : Event Addr} (honest : s.Honest e)
    (hstep : s.step idle e = some s') : s'.Inv := by
  cases e with
  | opens wait kind ans =>
    simp only [Scene.step, Option.map_eq_some_iff] at hstep
    obtain ⟨s₁, htake, rfl⟩ := hstep
    have h₁ := take_inv htake h fun kind' stale ans' hm _ => by
      simp only [Actor.Msg.exec.injEq] at hm
      rw [← hm.2.1]
      exact nofun
    exact h₁.commands _ _
  | dials addr =>
    simp only [Scene.step] at hstep
    split at hstep
    · split at hstep <;> cases hstep
      · exact h.commands _ _
      · exact h.commands _ _
    · simp at hstep
  | reports wait kind addr ans =>
    simp only [Scene.step] at hstep
    split at hstep
    · simp only [Option.map_eq_some_iff] at hstep
      obtain ⟨s₁, htake, rfl⟩ := hstep
      have h₁ := take_inv htake h fun kind' stale ans' hm hans => by
        simp only [Actor.Msg.exec.injEq] at hm
        obtain ⟨-, rfl, rfl⟩ := hm
        exact honest hans
      exact h₁.commands _ _
    · simp at hstep
  | dies =>
    simp only [Scene.step, Option.map_eq_some_iff] at hstep
    obtain ⟨addr, -, rfl⟩ := hstep
    have hcount := h.count
    refine ⟨?_, h.live, h.kept, h.exiting⟩
    have howed : ∀ s : Scene Addr, s.owed ≤ 1 := by
      intro s
      unfold owed
      split <;> omega
    have := howed { s with box := none, deaths := s.deaths + 1 }
    show s.recorded + _ ≤ s.deaths + 1 + s.failed
    omega
  | msg wait m =>
    cases m with
    | exec => simp [Scene.step] at hstep
    | _ => exact take_inv hstep h (fun _ _ _ hm => by simp at hm)
  | group e =>
    cases e with
    | msg => simp [Scene.step] at hstep
    | idle wait ok took =>
      simp only [Scene.step, Option.map_eq_some_iff] at hstep
      obtain ⟨g, hg, rfl⟩ := hstep
      refine h.group _ ?_ (by simp) hg
      cases ok with
      | true => exact .inl ⟨wait, took, rfl⟩
      | false => exact .inr rfl
    | _ =>
      simp only [Scene.step, Option.map_eq_some_iff] at hstep
      obtain ⟨g, hg, rfl⟩ := hstep
      exact h.group s.box (.inr rfl) (by simp) hg

/-! ### Each death counts once -/

/-- What a scene comes to by honest reports. -/
inductive Reach (idle : Idle) : Scene Addr → Prop
  | begin (now : Nat) (awake : Bool) (box : Option Addr) :
      Reach idle { g := Group.begin now awake, box := box }
  | step {s s' : Scene Addr} {e : Event Addr} (h : Reach idle s) (honest : s.Honest e)
      (hstep : s.step idle e = some s') : Reach idle s'

theorem Reach.inv (h : Reach idle s) : s.Inv := by
  induction h with
  | begin now awake box =>
    cases awake with
    | true =>
      refine ⟨by simp [owed, Group.begin, Actor.start], ?_, Nat.le_refl _, fun _ h => by cases h⟩
      intro a ha
      cases ha
      exact Nat.le_refl _
    | false => exact ⟨by simp [owed, Group.begin], (fun _ h => by cases h), Nat.le_refl _,
        fun _ h => by cases h⟩
  | step _ honest hstep ih => exact ih.step honest hstep

/-- The reply to a message. -/
def reply (idle : Idle) (s : Scene Addr) (wait : Nat) (m : Actor.Msg Addr) :
    Option (Actor.Reply Addr) :=
  s.g.live.map fun a => (a.handle idle (s.g.now + wait) m).2.2

/-- **Each death of a box counts as one crash, as long as reports are of deaths.**  In every state
that a box, its actors and its commands come to by honest reports, the crash times recorded are at
most the deaths and the failed wakes; and a command that is refused as crashing, reporting
honestly, finds as many of these as the limit. -/
theorem death_counts_once (h : Reach idle s) :
    s.recorded ≤ s.deaths + s.failed ∧
    ∀ wait kind stale ans s', (ans.found = true → s.ReportsDeath stale) →
      s.take idle wait (.exec kind stale ans) = some s' →
      s.reply idle wait (.exec kind stale ans) = some .crashing →
      crashLimit ≤ s'.deaths + s'.failed := by
  have hinv := h.inv
  refine ⟨Nat.le_trans (Nat.le_add_right _ _) hinv.count, ?_⟩
  intro wait kind stale ans s' hdeath htake hreply
  cases hlive : s.g.live with
  | none => simp [take, hlive] at htake
  | some a =>
    have hwakes := take_wakes hlive (show wakeAsked idle a _ (.exec kind stale ans) = _ from rfl)
      htake
    have hcount := (hwakes.inv hinv hdeath).count
    -- it was the wake that refused
    have hcrashing : (a.wake (s.g.now + wait) stale ans).2.2 = .crashing := by
      rw [reply, hlive, Option.map_some, Option.some.injEq] at hreply
      simp only [Actor.handle] at hreply
      split at hreply
      · simp at hreply
      · generalize (a.wake (s.g.now + wait) stale ans).2.2 = r at *
        cases r <;> simp_all [Actor.wakeError]
    rw [hcrashing] at hwakes
    have := hwakes.crashing hinv
    omega

/-- Three commands hold the address of a box that dies once.  The first report counts the death
and wakes the box, at the same address; the others count a death each, and the last is refused. -/
theorem one_death_counted_thrice :
    ∃ s : Scene Nat, Scene.run ⟨5, 10, 3⟩ { g := Group.begin 0 false }
        [.group (.start 0), .opens 1 .exec ⟨true, some 7, 0⟩, .opens 1 .exec ⟨true, some 7, 0⟩,
          .opens 1 .exec ⟨true, some 7, 0⟩, .dies, .dials 7, .dials 7, .dials 7,
          .reports 1 .exec 7 ⟨true, some 7, 0⟩, .reports 1 .exec 7 ⟨true, some 7, 0⟩] = some s ∧
      s.deaths = 1 ∧ s.failed = 0 ∧ s.recorded = 2 ∧ s.late = [7] ∧ s.box = some 7 ∧
      s.reply ⟨5, 10, 3⟩ 1 (.exec .exec (some 7) ⟨true, some 7, 0⟩) = some .crashing :=
  ⟨_, rfl, by decide +kernel⟩

/-- A box that dies once, with one report. -/
theorem death_counts_once_reported :
    ∃ s : Scene Nat, Reach ⟨5, 10, 3⟩ s ∧ s.deaths = 1 ∧ s.recorded = 1 ∧
      s.recorded ≤ s.deaths + s.failed := by
  have hopen : Reach ⟨5, 10, 3⟩ (⟨⟨1, [], some
      { addr := some 7, awake := true, execs := [1], next := 1, opened := 1, closed := 1 }, []⟩,
        some 7, [7], [], 0, 0, 0, false⟩ : Scene Nat) := by
    refine .step (e := .opens 1 .exec ⟨true, some 7, 0⟩) (.step (e := .group (.start 0))
      (.begin 0 false none) trivial rfl) trivial ?_
    decide +kernel
  have hdead : Reach ⟨5, 10, 3⟩ (⟨⟨1, [], some
      { addr := some 7, awake := true, execs := [1], next := 1, opened := 1, closed := 1 }, []⟩,
        none, [], [7], 1, 0, 0, false⟩ : Scene Nat) :=
    .step (e := .dials 7) (.step (e := .dies) hopen trivial rfl) trivial rfl
  have hreport : Reach ⟨5, 10, 3⟩ (⟨⟨2, [], some
      { addr := some 8, awake := true, execs := [2, 1], next := 2, opened := 2, closed := 1,
        crashes := [2] }, []⟩, some 8, [], [], 1, 0, 1, false⟩ : Scene Nat) := by
    refine .step (e := .reports 1 .exec 7 ⟨true, some 8, 0⟩) hdead ?_ ?_
    · intro _ addr haddr a ha
      cases haddr
      cases ha
      exact .inr ⟨rfl, rfl, rfl⟩
    · decide +kernel
  exact ⟨_, hreport, rfl, rfl, (death_counts_once hreport).1⟩

end Scene

end Fern

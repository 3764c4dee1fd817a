/-
Crash times, from one actor to the next.

While each actor is started only after `Run` has received the one before it, the box's crash
times are always in one place: with the actor that isn't done, with the one that ended and
hasn't been received, or with `Run`.  They are then all that were recorded and are still within
the window.  That is what a newly started actor begins with, and what decides whether a command
is refused.
-/
import Fern.Actor.Group
import Fern.Proofs.Actor.Idle

namespace Fern

open List

/-! ### Times within the window -/

theorem recent_append (now : Nat) (ts ts' : List Nat) :
    recent now (ts ++ ts') = recent now ts ++ recent now ts' :=
  filter_append ..

theorem recent_recent {now now' : Nat} (h : now ≤ now') (ts : List Nat) :
    recent now' (recent now ts) = recent now' ts := by
  rw [recent, recent, filter_filter]
  refine filter_congr fun t _ => ?_
  by_cases ht : now' < t + crashWindow
  · simp only [ht, decide_true, Bool.true_and, decide_eq_true_eq]
    omega
  · simp [ht]

theorem recent_eq_of_le {now now' : Nat} (h : now ≤ now') {ts ts' : List Nat}
    (heq : recent now ts = recent now ts') : recent now' ts = recent now' ts' := by
  rw [← recent_recent h, heq, recent_recent h]

theorem mem_recent {now t : Nat} {ts : List Nat} :
    t ∈ recent now ts ↔ t ∈ ts ∧ now < t + crashWindow := by
  simp [recent]

/-! ### What a message records -/

namespace Actor

variable {Addr : Type} {idle : Idle} {a : Actor Addr} {now : Nat}

theorem wakeCrashes_died [DecidableEq Addr] {stale : Option Addr} {ans : WakeAnswers Addr}
    (hans : ans.found = true) (haddr : a.addr = none ∨ a.addr = stale) :
    a.wakeCrashes now stale ans = died now stale ++
      (if (a.crashesAt now stale).length < crashLimit ∧ ans.addr = none then [now + ans.took]
        else []) := by
  rw [wakeCrashes, if_neg]
  rintro (hno | ⟨hsome, hne⟩)
  · simp [hans] at hno
  · rcases haddr with h | h
    · simp [h] at hsome
    · exact hne h

theorem WakeCase.crashes [DecidableEq Addr] {stale : Option Addr} {ans : WakeAnswers Addr}
    {a₁ : Actor Addr} {now₁ : Nat} {r : Woken} (hcase : WakeCase a now stale ans (a₁, now₁, r)) :
    recent now₁ a₁.crashes = recent now₁ (a.crashes ++ a.wakeCrashes now stale ans) := by
  have hat : recent now (a.crashesAt now stale) = recent now (a.crashes ++ died now stale) := by
    rw [crashesAt, recent_recent (Nat.le_refl now), died]
    split <;> simp
  cases hcase with
  | notFound hans => simp [wakeCrashes, hans]
  | up hans haddr hstale => simp [wakeCrashes, haddr, hstale]
  | crashing hans haddr hlimit =>
    have hw : a.wakeCrashes now stale ans = died now stale := by
      rw [wakeCrashes_died hans haddr, if_neg (fun h => absurd h.1 (Nat.not_lt.mpr hlimit)),
        append_nil]
    rw [hw]
    exact hat
  | failed hans haddr hlimit hdriver =>
    have hw : a.wakeCrashes now stale ans = died now stale ++ [now + ans.took] := by
      rw [wakeCrashes_died hans haddr, if_pos ⟨hlimit, hdriver⟩]
    rw [hw, ← append_assoc, recent_append, recent_append,
      recent_eq_of_le (Nat.le_add_right now ans.took) hat]
  | woke hans haddr hlimit addr hdriver =>
    have hw : a.wakeCrashes now stale ans = died now stale := by
      rw [wakeCrashes_died hans haddr, if_neg (fun h => by simp [hdriver] at h),
        append_nil]
    rw [hw]
    exact recent_eq_of_le (Nat.le_add_right now ans.took) hat

theorem recorded_asleep [DecidableEq Addr] (hasleep : a.awake = false) (record : List Nat)
    (ans : WakeAnswers Addr) :
    a.recorded now record (.prewake ans) = record ++ a.wakeCrashes now none ans :=
  if_neg (by simp [hasleep])

/-- **The actor's crash times within the window are those recorded.** -/
theorem recent_handle [DecidableEq Addr] {record : List Nat}
    (h : recent now a.crashes = recent now record) (m : Msg Addr) :
    recent (a.handle idle now m).2.1 (a.handle idle now m).1.crashes =
      recent (a.handle idle now m).2.1 (a.recorded now record m) := by
  have hcase := handle_cases idle a now m
  generalize a.handle idle now m = r at *
  -- a wake from this list
  have hwake : ∀ {stale : Option Addr} {ans : WakeAnswers Addr} {a₁ : Actor Addr} {now₁ : Nat}
      {r : Woken}, WakeCase a now stale ans (a₁, now₁, r) →
      recent now₁ a₁.crashes = recent now₁ (record ++ a.wakeCrashes now stale ans) := by
    intro stale ans a₁ now₁ r hcase
    rw [hcase.crashes, recent_append, recent_append, recent_eq_of_le hcase.time h]
  cases hcase with
  | opened hcase =>
    have heq := hwake hcase
    exact heq
  | refused hcase => exact hwake hcase
  | touched hcase => exact hcase.crashes
  | untouched hcase => exact hcase.crashes
  | awake hawake => simpa [recorded, hawake] using h
  | ahead hasleep hcase | notAhead hasleep hcase =>
    rw [recorded_asleep hasleep, recent_append, ← recent_eq_of_le hcase.time h, ← recent_append]
    exact hcase.crashes
  | @stopped ok took =>
    have := recent_eq_of_le (Nat.le_add_right now took) h
    cases ok <;> exact this
  | unchecked | used | unused | other => exact h
  | ended hcase => cases hcase <;> exact h

end Actor

/-! ### One place at a time -/

namespace Chronicle

variable {Addr : Type} [DecidableEq Addr] {idle : Idle} {c c' : Chronicle Addr}
  {e : Group.Event Addr}

/-- An actor is started only after the one before it was received. -/
def HandsOver (c : Chronicle Addr) : Group.Event Addr → Prop
  | .start _ => c.g.exiting = []
  | _ => True

/-- The crash times are in one place, and are those recorded. -/
inductive OnePlace (c : Chronicle Addr) : Prop
  | live (a : Actor Addr) (hlive : c.g.live = some a) (hexiting : c.g.exiting = [])
      (hinv : a.Inv c.g.now) (hcrashes : recent c.g.now a.crashes = recent c.g.now c.record)
  | exiting (crashes : List Nat) (hlive : c.g.live = none) (hexiting : c.g.exiting = [crashes])
      (hcrashes : recent c.g.now crashes = recent c.g.now c.record)
  | kept (hlive : c.g.live = none) (hexiting : c.g.exiting = [])
      (hcrashes : recent c.g.now c.g.kept = recent c.g.now c.record)

/-- What an event does. -/
inductive StepCase (idle : Idle) (c : Chronicle Addr) : Group.Event Addr → Chronicle Addr → Prop
  | msg (wait : Nat) (m : Actor.Msg Addr) (a : Actor Addr) (hlive : c.g.live = some a) :
      StepCase idle c (.msg wait m)
        ⟨{ c.g with
          now := (a.handle idle (c.g.now + wait) m).2.1
          live := some (a.handle idle (c.g.now + wait) m).1 },
          a.recorded (c.g.now + wait) c.record m⟩
  | idle (wait : Nat) (ok : Bool) (took : Nat) (a : Actor Addr) (s : Actor.At Addr)
      (hlive : c.g.live = some a)
      (hstep : Actor.step idle ⟨c.g.now, a⟩ (.idle wait ok took) = some s) :
      StepCase idle c (.idle wait ok took) ⟨{ c.g with now := s.now, live := some s.a }, c.record⟩
  | finish (a : Actor Addr) (hlive : c.g.live = some a) :
      StepCase idle c .finish
        ⟨{ c.g with live := none, exiting := c.g.exiting ++ [a.crashes] }, c.record⟩
  | start (wait : Nat) (hlive : c.g.live = none) :
      StepCase idle c (.start wait)
        ⟨{ c.g with
          now := c.g.now + wait
          live := some (.start (c.g.now + wait) c.g.kept false) }, c.record⟩
  | exited (wait i : Nat) (crashes : List Nat) (hexiting : c.g.exiting[i]? = some crashes) :
      StepCase idle c (.exited wait i)
        ⟨{ c.g with
          now := c.g.now + wait
          kept := recent (c.g.now + wait) crashes
          exiting := c.g.exiting.eraseIdx i }, c.record⟩

theorem step_cases (h : c.step idle e = some c') : StepCase idle c e c' := by
  unfold step at h
  rw [Option.map_eq_some_iff] at h
  obtain ⟨g, hg, rfl⟩ := h
  cases e with
  | msg wait m =>
    rw [Group.step, Option.map_eq_some_iff] at hg
    obtain ⟨a, hlive, rfl⟩ := hg
    rw [hlive]
    exact .msg wait m a hlive
  | idle wait ok took =>
    simp only [Group.step, bind, Option.bind_eq_some_iff, pure, Option.some.injEq] at hg
    obtain ⟨a, hlive, s, hstep, rfl⟩ := hg
    exact .idle wait ok took a s hlive hstep
  | finish =>
    simp only [Group.step, bind, Option.bind_eq_some_iff] at hg
    obtain ⟨a, hlive, hg⟩ := hg
    split at hg
    · cases hg
      exact .finish a hlive
    · simp at hg
  | start wait =>
    simp only [Group.step] at hg
    split at hg
    · simp at hg
    · rename_i hlive
      cases hg
      exact .start wait hlive
  | exited wait i =>
    simp only [Group.step, bind, Option.bind_eq_some_iff, pure, Option.some.injEq] at hg
    obtain ⟨crashes, hexiting, rfl⟩ := hg
    exact .exited wait i crashes hexiting

theorem idle_crashes {s s' : Actor.At Addr} {wait took : Nat} {ok : Bool}
    (h : Actor.step idle s (.idle wait ok took) = some s') :
    s'.a.crashes = s.a.crashes ∧ s.now ≤ s'.now := by
  cases Actor.step_cases h with
  | idle =>
    simp only [Actor.sleepIfIdle]
    split
    · have hle := Nat.le_trans (Nat.le_add_right s.now wait) (Nat.le_add_right _ took)
      cases ok <;> exact ⟨rfl, hle⟩
    · exact ⟨rfl, Nat.le_add_right _ _⟩

/-- **An event keeps the crash times in one place**, if an actor is started only after the one
before it was received. -/
theorem OnePlace.step (h : c.OnePlace) (hover : c.HandsOver e) (hstep : c.step idle e = some c') :
    c'.OnePlace := by
  cases step_cases hstep with
  | msg wait m a hlive =>
    cases h with
    | live a' hlive' hexiting hinv hcrashes =>
      cases hlive.symm.trans hlive'
      have hwait : c.g.now ≤ c.g.now + wait := Nat.le_add_right _ _
      exact .live _ rfl hexiting ((hinv.mono hwait).handle m)
        (Actor.recent_handle (recent_eq_of_le hwait hcrashes) m)
    | exiting _ hnone | kept hnone => simp [hnone] at hlive
  | idle wait ok took a s hlive hidle =>
    cases h with
    | live a' hlive' hexiting hinv hcrashes =>
      cases hlive.symm.trans hlive'
      obtain ⟨heq, hle⟩ := idle_crashes hidle
      refine .live s.a rfl hexiting (Actor.Inv.step (s := ⟨c.g.now, a⟩) hinv hidle) ?_
      rw [heq]
      exact recent_eq_of_le hle hcrashes
    | exiting _ hnone | kept hnone => simp [hnone] at hlive
  | finish a hlive =>
    cases h with
    | live a' hlive' hexiting hinv hcrashes =>
      cases hlive.symm.trans hlive'
      exact .exiting a.crashes rfl (by rw [hexiting]; rfl) hcrashes
    | exiting _ hnone | kept hnone => simp [hnone] at hlive
  | start wait hlive =>
    cases h with
    | live a hlive' => simp [hlive] at hlive'
    | exiting crashes _ hexiting =>
      rw [HandsOver, hexiting] at hover
      simp at hover
    | kept _ hexiting hcrashes =>
      refine .live _ rfl hexiting (Actor.inv_start _ _ _) ?_
      exact recent_eq_of_le (Nat.le_add_right _ _) hcrashes
  | exited wait i crashes hreceived =>
    cases h with
    | live a _ hexiting | kept _ hexiting => simp [hexiting] at hreceived
    | exiting crashes' hlive hexiting hcrashes =>
      -- the only one there is
      rw [hexiting] at hreceived
      cases i with
      | zero =>
        obtain rfl : crashes' = crashes := by simpa using hreceived
        refine .kept hlive (by rw [hexiting]; rfl) ?_
        show recent _ (recent _ _) = _
        rw [recent_recent (Nat.le_refl _)]
        exact recent_eq_of_le (Nat.le_add_right _ _) hcrashes
      | succ i => simp at hreceived

/-- What a box comes to when every actor is started only after the one before it was received. -/
inductive Reach (idle : Idle) : Chronicle Addr → Prop
  | begin (now : Nat) (awake : Bool) : Reach idle ⟨Group.begin now awake, []⟩
  | step {c c' : Chronicle Addr} {e : Group.Event Addr} (h : Reach idle c) (hover : c.HandsOver e)
      (hstep : c.step idle e = some c') : Reach idle c'

theorem Reach.onePlace (h : Reach idle c) : c.OnePlace := by
  induction h with
  | begin now awake =>
    cases awake with
    | true => exact .live _ rfl rfl (Actor.inv_start now [] true) rfl
    | false => exact .kept rfl rfl rfl
  | step _ hover hstep ih => exact ih.step hover hstep

/-- Whether an event starts an actor. -/
def starts : Group.Event Addr → Bool
  | .start _ => true
  | _ => false

theorem Reach.run (h : Reach idle c) (events : List (Group.Event Addr))
    (hnone : events.all (!starts ·) = true) (hrun : c.run idle events = some c') :
    Reach idle c' := by
  refine foldlM_keeps (fun c c' e he h hstep => .step h ?_ hstep) hrun h
  cases e with
  | start wait => exact absurd (all_eq_true.mp hnone _ he) (by simp [starts])
  | _ => trivial

/-! ### Crash counts outlive the actor -/

/-- **Crash counts outlive the actor, as long as actors are handed over.**  In every state that a
box comes to by starting each actor only after the one before it was received, an actor that is
started begins with all crash times recorded since a person last woke the box that are within the
window; and when `Run` receives an actor, there is no later one, and `Run` then keeps all those
times. -/
theorem crash_counts_handed_over (h : Reach idle c) :
    (∀ wait c', c.HandsOver (.start wait) → c.step idle (.start wait) = some c' →
      ∃ a, c'.g.live = some a ∧
        ∀ t ∈ c.record, c'.g.now < t + crashWindow → t ∈ a.crashes) ∧
    (∀ wait i c', c.step idle (.exited wait i) = some c' →
      c'.g.live = none ∧ ∀ t ∈ c.record, c'.g.now < t + crashWindow → t ∈ c'.g.kept) := by
  have hplace := h.onePlace
  constructor
  · intro wait c' hover hstep
    cases hplace.step hover hstep with
    | live a hlive _ _ hcrashes =>
      refine ⟨a, hlive, fun t ht hwindow => ?_⟩
      cases step_cases hstep with
      | start =>
        have hmem : t ∈ recent (c.g.now + wait) c.record := mem_recent.mpr ⟨ht, hwindow⟩
        rw [← hcrashes] at hmem
        exact (mem_recent.mp hmem).1
    | exiting _ hlive | kept hlive =>
      cases step_cases hstep with
      | start => simp at hlive
  · intro wait i c' hstep
    cases step_cases hstep with
    | exited _ _ crashes hreceived =>
      cases hplace with
      | live a _ hexiting | kept _ hexiting => simp [hexiting] at hreceived
      | exiting crashes' hlive hexiting hcrashes =>
        refine ⟨hlive, fun t ht hwindow => ?_⟩
        -- the only one there is
        obtain rfl : crashes' = crashes := by
          rw [hexiting, getElem?_singleton] at hreceived
          split at hreceived
          · exact Option.some.inj hreceived
          · simp at hreceived
        have hmem : t ∈ recent (c.g.now + wait) c.record := mem_recent.mpr ⟨ht, hwindow⟩
        rwa [← recent_eq_of_le (Nat.le_add_right _ wait) hcrashes] at hmem

/-- An actor whose box failed to wake ends, and a caller finds it done before `Run` has received
it: the next actor begins without the crash.  It records one of its own and ends too, is received,
and then the first is: `Run` is left without the second's. -/
theorem crash_lost_in_hand_over :
    ∃ c₁ c₂ : Chronicle Nat,
      Chronicle.run ⟨5, 10, 3⟩ ⟨Group.begin 0 false, []⟩
        [.start 0, .msg 1 (.exec .exec none ⟨true, none, 0⟩), .msg 1 (.stop true true 0), .finish,
          .start 1] = some c₁ ∧
      c₁.record = [1] ∧ c₁.g.now < 1 + crashWindow ∧ c₁.g.live.map Actor.crashes = some [] ∧
      Chronicle.run ⟨5, 10, 3⟩ c₁
        [.msg 1 (.exec .exec none ⟨true, none, 0⟩), .msg 1 (.stop true true 0), .finish,
          .exited 0 1, .exited 0 0] = some c₂ ∧
      c₂.record = [1, 4] ∧ c₂.g.now < 1 + crashWindow ∧ c₂.g.kept = [1] :=
  ⟨_, _, rfl, rfl, by decide, rfl, rfl, rfl, by decide, by decide⟩

/-- The statement for an actor that was received before the next one. -/
theorem crash_counts_handed_over_once :
    ∃ (c c' : Chronicle Nat) (a : Actor Nat), Reach ⟨5, 10, 3⟩ c ∧ c.record = [1] ∧
      c.step ⟨5, 10, 3⟩ (.start 1) = some c' ∧ c'.g.live = some a ∧ 1 ∈ a.crashes := by
  have hreach : Reach ⟨5, 10, 3⟩ (⟨{ now := 2, kept := [1] }, [1]⟩ : Chronicle Nat) := by
    refine Reach.run (.step (.begin 0 false) rfl (e := .start 0) rfl)
      [.msg 1 (.exec .exec none ⟨true, none, 0⟩), .msg 1 (.stop true true 0), .finish,
        .exited 0 0] rfl ?_
    decide +kernel
  obtain ⟨a, hlive, hall⟩ := (crash_counts_handed_over hreach).1 1 _ rfl rfl
  exact ⟨_, _, a, hreach, rfl, rfl, hlive, hall 1 (by decide) (by decide)⟩

/-! ### A crashing box is refused -/

/-- **A crashing box is refused exactly if its environment is known and no address is known of it
but the one that the command reports.**  In every state that a box comes to by starting each actor
only after the one before it was received, with `crashLimit` recorded crashes within the window:
a command, job or preview gets `ErrCrashing`, with no address and without the driver's `Wake`, iff
that is so; and a pre-wake doesn't call the driver's `Wake`. -/
theorem crashing_refused_iff (h : Reach idle c) (a : Actor Addr) (hlive : c.g.live = some a)
    (wait : Nat) (hlimit : crashLimit ≤ (recent (c.g.now + wait) c.record).length) :
    (∀ kind stale ans,
      ((a.handle idle (c.g.now + wait) (.exec kind stale ans)).2.2 = .crashing ∧
        a.callsWake (c.g.now + wait) (.exec kind stale ans) = false) ↔
      ans.found = true ∧ (a.addr = none ∨ a.addr = stale)) ∧
    ∀ ans, a.callsWake (c.g.now + wait) (.prewake ans) = false := by
  cases h.onePlace with
  | exiting _ hnone | kept hnone => simp [hnone] at hlive
  | live a' hlive' _ hinv hcrashes =>
    cases hlive.symm.trans hlive'
    have hrecent := recent_eq_of_le (Nat.le_add_right _ wait) hcrashes
    have hat : ∀ stale, crashLimit ≤ (a.crashesAt (c.g.now + wait) stale).length := by
      intro stale
      rw [Actor.crashesAt]
      split
      · rw [recent_append, hrecent, length_append]
        omega
      · rw [hrecent]
        exact hlimit
    constructor
    · intro kind stale ans
      have hcase := Actor.wake_cases a (c.g.now + wait) stale ans
      simp only [Actor.handle, Actor.callsWake]
      generalize a.wake (c.g.now + wait) stale ans = r at *
      cases hcase with
      | notFound hans => simp [hans, Woken.ok, Actor.wakeError]
      | up hans haddr hstale =>
        have hne : a.addr ≠ none := Option.isSome_iff_ne_none.mp haddr
        simp [Woken.ok, hne, hstale]
      | crashing hans haddr => simp [hans, haddr, Woken.ok, Woken.called, Actor.wakeError]
      | failed _ _ hless => exact absurd hless (Nat.not_lt.mpr (hat stale))
      | woke _ _ hless => exact absurd hless (Nat.not_lt.mpr (hat stale))
    · intro ans
      have hcase := Actor.wake_cases a (c.g.now + wait) none ans
      simp only [Actor.callsWake]
      generalize a.wake (c.g.now + wait) none ans = r at *
      cases hcase with
      | notFound | up | crashing => simp [Woken.called]
      | failed _ _ hless => exact absurd hless (Nat.not_lt.mpr (hat none))
      | woke _ _ hless => exact absurd hless (Nat.not_lt.mpr (hat none))

/-- The third death within the window is reported and refused; the next command, which reports
none, is given the address at which the box died. -/
theorem dead_address_given :
    ∃ (c : Chronicle Nat) (a : Actor Nat), Chronicle.run ⟨5, 10, 3⟩ ⟨Group.begin 0 false, []⟩
        [.start 0, .msg 1 (.exec .exec none ⟨true, some 7, 0⟩),
          .msg 1 (.exec .exec (some 7) ⟨true, some 7, 0⟩),
          .msg 1 (.exec .exec (some 7) ⟨true, some 7, 0⟩),
          .msg 1 (.exec .exec (some 7) ⟨true, some 7, 0⟩)] = some c ∧
      c.g.live = some a ∧ crashLimit ≤ (recent (c.g.now + 1) c.record).length ∧
      (a.handle ⟨5, 10, 3⟩ (c.g.now + 1) (.exec .exec none ⟨true, some 7, 0⟩)).2.2 =
        .opened 4 (some 7) :=
  ⟨_, _, rfl, rfl, by decide, by decide⟩

/-- A box that fails to wake three times is refused. -/
theorem crashing_refused_iff_failing :
    ∃ (c : Chronicle Nat) (a : Actor Nat), Reach ⟨5, 10, 3⟩ c ∧ c.g.live = some a ∧
      (a.handle ⟨5, 10, 3⟩ (c.g.now + 1) (.exec .job none ⟨true, some 7, 0⟩)).2.2 = .crashing := by
  have hreach : Reach ⟨5, 10, 3⟩ (⟨⟨3, [], some
      { awake := true, opened := 1, closed := 1, crashes := [1, 2, 3] }, []⟩, [1, 2, 3]⟩ :
        Chronicle Nat) := by
    refine Reach.run (.step (.begin 0 false) rfl (e := .start 0) rfl)
      [.msg 1 (.exec .exec none ⟨true, none, 0⟩), .msg 1 (.exec .exec none ⟨true, none, 0⟩),
        .msg 1 (.exec .exec none ⟨true, none, 0⟩)] rfl ?_
    decide +kernel
  have hiff := (crashing_refused_iff hreach _ rfl 1 (by decide)).1 .job none ⟨true, some 7, 0⟩
  exact ⟨_, _, hreach, rfl, (hiff.mpr ⟨rfl, .inl rfl⟩).1⟩

end Chronicle

end Fern

/-
When an asleep box has no actor.

An actor checks whether it may exit after what it took while it waited, not after what it took when
it was about to exit; and one that was started for a caller waits for that caller alone.  Every
other step leaves no actor waiting that didn't wait before, and takes no caller away from one that
does. So the two steps that can leave an actor behind are a caller's giving up and the end of a
message taken on the way out, and just when they do is a condition on the state before.
-/
import Fern.Actor.Loop
import Fern.Lib.Run

namespace Fern

open Mailbox

/-! ### What keeps actors held -/

namespace Mailbox

variable {s t u : Mailbox}

/-- No more actors wait in `t` than in `s`, and those that do have the callers they had. -/
structure Fewer (s t : Mailbox) : Prop where
  ready : ∀ k, t.phase k = .ready → s.phase k = .ready
  stopping : t.stopping = false → s.stopping = false
  held : ∀ k, t.phase k = .ready → s.Held k → t.Held k

theorem Fewer.trans (h : Fewer s t) (h' : Fewer t u) : Fewer s u where
  ready := fun k hk => h.ready k (h'.ready k hk)
  stopping := fun hs => h.stopping (h'.stopping hs)
  held := fun k hk hheld => h'.held k hk (h.held k (h'.ready k hk) hheld)

theorem phase_enter (s : Mailbox) (k j : Nat) (p : Phase) :
    (s.enter k p).phase j = if j = k then p else s.phase j :=
  Function.update_apply ..

theorem callers_goTo (s : Mailbox) (i j : Nat) (c : Caller) :
    (s.goTo i c).callers j = if j = i then c else s.callers j :=
  Function.update_apply ..

theorem Fewer.enter {k : Nat} {p : Phase} (hp : p ≠ .ready) : Fewer s (s.enter k p) where
  ready := by
    intro j hj
    rw [phase_enter] at hj
    by_cases hjk : j = k
    · rw [if_pos hjk] at hj
      exact absurd hj hp
    · rwa [if_neg hjk] at hj
  stopping := id
  held := fun _ _ hheld => hheld

theorem Fewer.goTo {i : Nat} {c : Caller}
    (hfree : ∀ k, (s.callers i).holds k = true → s.phase k ≠ .ready) : Fewer s (s.goTo i c) where
  ready := fun _ hk => hk
  stopping := id
  held := by
    intro k hk hheld
    obtain ⟨j, hj⟩ := hheld
    refine ⟨j, ?_⟩
    rw [callers_goTo, if_neg]
    · exact hj
    · rintro rfl
      exact hfree k hj hk

@[simp] theorem holds_holding (k j : Nat) : (Caller.holding k).holds j = decide (k = j) := by
  simp [Caller.holds]

@[simp] theorem holds_closing (k j : Nat) : (Caller.closing k).holds j = decide (k = j) := by
  simp [Caller.holds]

theorem Fewer.takes {i k : Nat} {c : Caller}
    (hown : ∀ j, (s.callers i).holds j = true → j = k) : Fewer s ((s.begin k i).goTo i c) := by
  have hbegin : Fewer s (s.begin k i) := by
    have h : Fewer s (s.enter k (.busy (.change i) (s.phase k = .last))) := .enter (by simp)
    exact ⟨h.ready, h.stopping, h.held⟩
  refine hbegin.trans (.goTo ?_)
  intro j hj hready
  obtain rfl := hown j hj
  have hphase : (s.begin j i).phase j = .busy (.change i) (s.phase j = .last) := by
    show (s.enter j _).phase j = _
    rw [phase_enter, if_pos rfl]
  rw [hphase] at hready
  cases hready

theorem step_givesUp {i : Nat} (h : s.step (.givesUp i) = some t) :
    (s.callers i = .looking ∨ ∃ k, s.callers i = .holding k) ∧
      t = s.goTo i (.returned .context) := by
  cases hc : s.callers i <;> simp only [step, hc] at h
  case looking => exact ⟨.inl rfl, (Option.some.inj h).symm⟩
  case holding k => exact ⟨.inr ⟨k, rfl⟩, (Option.some.inj h).symm⟩
  all_goals cases h

theorem Fewer.step {e : Event} (hmail : Loop.isMail e = true) (hstays : ∀ i, e ≠ .givesUp i)
    (h : s.step e = some t) : Fewer s t := by
  cases e with
  | find i => cases hmail
  | idle k => cases hmail
  | finish k up => cases hmail
  | givesUp i => exact absurd rfl (hstays i)
  | call i =>
    simp only [Mailbox.step, Option.ite_none_right_eq_some, Option.some.injEq] at h
    obtain ⟨hnew, rfl⟩ := h
    exact .goTo (by simp [hnew, Caller.holds])
  | close i k =>
    simp only [Mailbox.step, Option.ite_none_right_eq_some, Option.some.injEq] at h
    obtain ⟨⟨hnew, -⟩, rfl⟩ := h
    exact .goTo (by simp [hnew, Caller.holds])
  | seesStopped i =>
    simp only [Mailbox.step, Option.ite_none_right_eq_some, Option.some.injEq] at h
    obtain ⟨⟨hlooking, -⟩, rfl⟩ := h
    exact .goTo (by simp [hlooking, Caller.holds])
  | take i =>
    cases hc : s.callers i <;>
      simp only [Mailbox.step, hc, Option.ite_none_right_eq_some, Option.some.injEq] at h
    case holding k =>
      obtain ⟨-, rfl⟩ := h
      exact .takes (by simp [hc, eq_comm])
    case closing k =>
      obtain ⟨-, rfl⟩ := h
      exact .takes (by simp [hc, eq_comm])
    all_goals cases h
  | seesDone i =>
    cases hc : s.callers i <;>
      simp only [Mailbox.step, hc, Option.ite_none_right_eq_some, Option.some.injEq] at h
    case holding k =>
      obtain ⟨hdone, rfl⟩ := h
      refine .goTo ?_
      simp only [hc, holds_holding, decide_eq_true_eq]
      rintro _ rfl hready
      simp [hready, Phase.isDone] at hdone
    case closing k =>
      obtain ⟨hdone, rfl⟩ := h
      refine .goTo ?_
      simp only [hc, holds_closing, decide_eq_true_eq]
      rintro _ rfl hready
      simp [hready, Phase.isDone] at hdone
    all_goals cases h
  | reply i =>
    simp only [Mailbox.step, Option.ite_none_right_eq_some, Option.some.injEq] at h
    obtain ⟨⟨hwaiting, -⟩, rfl⟩ := h
    exact .goTo (by simp [hwaiting, Caller.holds])
  | ends k =>
    simp only [Mailbox.step, Option.ite_none_right_eq_some, Option.some.injEq] at h
    obtain ⟨-, rfl⟩ := h
    exact .enter (by simp)
  | closeDone k =>
    simp only [Mailbox.step, Option.ite_none_right_eq_some, Option.some.injEq] at h
    obtain ⟨-, rfl⟩ := h
    exact .enter (by simp)
  | exited k =>
    simp only [Mailbox.step, Option.ite_none_right_eq_some, Option.some.injEq] at h
    obtain ⟨-, rfl⟩ := h
    have hleft : Fewer s (s.enter k .received) := .enter (by simp)
    exact ⟨hleft.ready, hleft.stopping, hleft.held⟩
  | shutdown =>
    cases h
    exact ⟨fun _ hk => hk, by simp, fun _ _ hheld => hheld⟩
  | stop =>
    simp only [Mailbox.step, Option.ite_none_right_eq_some, Option.some.injEq] at h
    obtain ⟨-, rfl⟩ := h
    exact ⟨fun _ hk => hk, id, fun _ _ hheld => hheld⟩

end Mailbox

/-! ### No actor is left behind

Two steps can leave one behind, and for each the condition is exact; for all others `Fewer` is
enough. -/

namespace Loop

variable {Addr : Type} [DecidableEq Addr] {idle : Idle} {s t : Loop Addr}

/-- An actor that waits for a message has one coming, or its box is up. -/
def Kept (s : Loop Addr) : Prop :=
  ∀ k, s.box.phase k = .ready → s.box.stopping = false → ¬ s.box.Held k → up (s.actor k) = true

omit [DecidableEq Addr] in
/-- What leaves no actor waiting that didn't, and takes no caller away, leaves none behind. -/
theorem Kept.fewer (h : s.Kept) {box : Mailbox} (hfewer : Fewer s.box box) :
    Kept { s with box } := by
  intro k hready hstop hheld
  exact h k (hfewer.ready k hready) (hfewer.stopping hstop)
    fun hheld' => hheld (hfewer.held k hready hheld')

/-- The idle sleep of an actor is never on its way out. -/
def Awaited (s : Loop Addr) : Prop := ∀ k, s.box.phase k ≠ .busy .sleep true

/-- What a step is to leave so that no actor is left behind: a caller doesn't give up as the only
one of an actor that waits with its box asleep and nothing open; and a message taken on the way out
leaves the box awake or something open, or there is another caller. -/
def Fine (idle : Idle) (s : Loop Addr) : Event Addr → Prop
  | .mail (.givesUp i) => ∀ k, s.box.callers i = .holding k → s.box.phase k = .ready →
      s.box.stopping = true ∨ up (s.actor k) = true ∨
        ∃ j, j ≠ i ∧ (s.box.callers j).holds k = true
  | .handles k now m => ∀ i, s.box.phase k = .busy (.change i) true →
      s.box.stopping = true ∨ up ((s.actor k).handle idle now m).1 = true ∨ s.box.Held k
  | _ => True

/-- A caller's giving up leaves an actor behind just if it was its only one. -/
theorem kept_givesUp_iff (h : s.Kept) {i : Nat} {box : Mailbox}
    (hstep : s.box.step (.givesUp i) = some box) :
    Kept { s with box } ↔ Fine idle s (.mail (.givesUp i)) := by
  obtain ⟨hbefore, rfl⟩ := step_givesUp hstep
  constructor
  · intro hkept k hk hready
    by_contra hnot
    simp only [not_or, not_exists, not_and] at hnot
    obtain ⟨hstop, hdown, halone⟩ := hnot
    refine hdown (hkept k hready (eq_false_of_ne_true hstop) ?_)
    rintro ⟨j, hj⟩
    rw [callers_goTo] at hj
    by_cases hji : j = i
    · rw [if_pos hji] at hj
      cases hj
    · rw [if_neg hji] at hj
      exact halone j hji hj
  · intro hfine k hready hstop hheld
    by_cases hk : s.box.callers i = .holding k
    · rcases hfine k hk hready with hstopping | hup | ⟨j, hji, hj⟩
      · exact absurd (hstopping.symm.trans hstop) (by simp)
      · exact hup
      · refine absurd ⟨j, ?_⟩ hheld
        rwa [callers_goTo, if_neg hji]
    · refine h k hready hstop ?_
      rintro ⟨j, hj⟩
      refine hheld ⟨j, ?_⟩
      rw [callers_goTo, if_neg]
      · exact hj
      · rintro rfl
        rcases hbefore with hlooking | ⟨k', hk'⟩
        · simp [hlooking, Caller.holds] at hj
        · simp only [hk', holds_holding, decide_eq_true_eq] at hj
          exact hk (by rw [hk', hj])

theorem step_finish {s t : Mailbox} {k : Nat} {up : Bool} (h : s.step (.finish k up) = some t) :
    ∃ job exiting, s.phase k = .busy job exiting ∧
      (∀ j, t.phase j = if j = k then afterWork exiting up else s.phase j) ∧
      t.callers = s.callers ∧ t.stopping = s.stopping := by
  cases hp : s.phase k <;> simp only [Mailbox.step, hp] at h
  case busy job exiting =>
    cases job <;> cases h <;> exact ⟨_, exiting, rfl, fun j => phase_enter s k j _, rfl, rfl⟩
  all_goals cases h

theorem afterWork_eq_ready {exiting up : Bool} :
    afterWork exiting up = .ready ↔ exiting = true ∨ up = true := by
  cases exiting <;> cases up <;> simp [afterWork]

omit [DecidableEq Addr] in
/-- The end of an actor's work leaves it behind just if it was on its way out, the box is asleep
with nothing open, and it has no caller. -/
theorem kept_finish_iff (h : s.Kept) {k : Nat} {a : Actor Addr} {job : Job} {exiting : Bool}
    (hbusy : s.box.phase k = .busy job exiting) (hstep : s.finish k a = some t) :
    t.Kept ↔ (exiting = true → s.box.stopping = true ∨ up a = true ∨ s.box.Held k) := by
  obtain ⟨box, hbox, rfl⟩ := Option.map_eq_some_iff.1 hstep
  obtain ⟨job', exiting', hbusy', hphase, hcallers, hstopping⟩ := step_finish hbox
  rw [hbusy, Phase.busy.injEq] at hbusy'
  obtain ⟨-, rfl⟩ := hbusy'
  have hheld (j : Nat) : box.Held j ↔ s.box.Held j := by
    rw [Held, Held, hcallers]
  constructor
  · intro hkept hexiting
    by_contra hnot
    simp only [not_or] at hnot
    obtain ⟨hstop, hdown, hnone⟩ := hnot
    have hready : box.phase k = .ready := by
      rw [hphase, if_pos rfl]
      exact afterWork_eq_ready.2 (.inl hexiting)
    have hup := hkept k hready (hstopping.trans (eq_false_of_ne_true hstop))
      fun hh => hnone ((hheld k).1 hh)
    exact hdown (by simpa using hup)
  · intro hfine j hready hstop hnone
    have hready' : box.phase j = .ready := hready
    by_cases hjk : j = k
    · subst hjk
      rw [hphase, if_pos rfl, afterWork_eq_ready] at hready'
      show up (Function.update s.actor j a j) = true
      rw [Function.update_self]
      rcases hready' with hexiting | hup
      · rcases hfine hexiting with hstop' | hup | hheld'
        · exact absurd (hstop'.symm.trans (hstopping.symm.trans hstop)) (by simp)
        · exact hup
        · exact absurd ((hheld j).2 hheld') hnone
      · exact hup
    · rw [hphase, if_neg hjk] at hready'
      show up (Function.update s.actor k a j) = true
      rw [Function.update_of_ne hjk]
      exact h j hready' (hstopping.symm.trans hstop) fun hh => hnone ((hheld j).2 hh)

theorem findOrStart_eq (s : Mailbox) : s.findOrStart.1 = s ∨ s.findOrStart =
    ({ s.enter s.count .ready with current := some s.count, count := s.count + 1 }, s.count) := by
  unfold findOrStart
  cases s.current with
  | none => exact .inr rfl
  | some k =>
    by_cases hdone : (s.phase k).isDone = true
    · exact .inr (if_pos hdone)
    · refine .inl ?_
      show (if (s.phase k).isDone = true then _ else (s, k)).1 = s
      rw [if_neg hdone]

theorem Kept.find (h : s.Kept) {i : Nat} {crashes : List Nat}
    (hstep : s.step idle (.find i crashes) = some t) : t.Kept := by
  obtain ⟨box, hbox, rfl⟩ := Option.map_eq_some_iff.1 hstep
  simp only [Mailbox.step, Option.ite_none_right_eq_some, Option.some.injEq] at hbox
  obtain ⟨⟨hlooking, -⟩, rfl⟩ := hbox
  have hfree (k : Nat) : (s.box.callers i).holds k = true → s.box.phase k ≠ .ready := by
    simp [hlooking, Caller.holds]
  rcases findOrStart_eq s.box with hsame | hnew
  · have hcount : (s.box.findOrStart.1.goTo i (.holding s.box.findOrStart.2)).count =
        s.box.count := by
      rw [hsame]
      rfl
    rw [if_pos hcount, hsame]
    exact h.fewer (.goTo hfree)
  · rw [hnew]
    intro k hready hstop hnone
    have hready : (s.box.enter s.box.count .ready).phase k = .ready := hready
    by_cases hk : k = s.box.count
    · refine absurd ⟨i, ?_⟩ hnone
      rw [callers_goTo, if_pos rfl, hk]
      simp
    · rw [phase_enter, if_neg hk] at hready
      have hactor := h k hready hstop fun hheld => hnone ((Fewer.goTo hfree).held k hready hheld)
      show up ((if _ = s.box.count then s.actor else _) k) = true
      split
      · exact hactor
      · rw [Function.update_of_ne hk]
        exact hactor

/-- **One step** leaves no actor behind just if it is fine. -/
theorem kept_step_iff (h : s.Kept) (hawaited : s.Awaited) {e : Event Addr}
    (hstep : s.step idle e = some t) : t.Kept ↔ Fine idle s e := by
  cases e with
  | mail e =>
    simp only [step, Option.ite_none_right_eq_some] at hstep
    obtain ⟨hmail, hstep⟩ := hstep
    obtain ⟨box, hbox, rfl⟩ := Option.map_eq_some_iff.1 hstep
    by_cases hgives : ∃ i, e = .givesUp i
    · obtain ⟨i, rfl⟩ := hgives
      exact kept_givesUp_iff h hbox
    · have hfine : Fine idle s (.mail e) := by
        cases e <;> first | trivial | exact absurd ⟨_, rfl⟩ hgives
      exact iff_of_true (h.fewer (.step hmail (fun i hi => hgives ⟨i, hi⟩) hbox)) hfine
  | find i crashes => exact iff_of_true (h.find hstep) trivial
  | fires k now =>
    simp only [step, Option.ite_none_right_eq_some] at hstep
    obtain ⟨-, hstep⟩ := hstep
    obtain ⟨box, hbox, rfl⟩ := Option.map_eq_some_iff.1 hstep
    simp only [Mailbox.step, Option.ite_none_right_eq_some, Option.some.injEq] at hbox
    obtain ⟨-, rfl⟩ := hbox
    exact iff_of_true (h.fewer (.enter (by simp))) trivial
  | handles k now m =>
    cases hp : s.box.phase k <;> simp only [step, hp] at hstep
    case busy job exiting =>
      cases job with
      | sleep => cases hstep
      | change i =>
        rw [kept_finish_iff h hp hstep]
        show _ ↔ ∀ i, s.box.phase k = .busy (.change i) true → _
        rw [hp]
        constructor
        · intro hfine j hj
          injection hj with _ hexiting
          exact hfine hexiting
        · intro hfine hexiting
          exact hfine i (by rw [hexiting])
    all_goals cases hstep
  | sleeps k now ok took =>
    cases hp : s.box.phase k <;> simp only [step, hp] at hstep
    case busy job exiting =>
      cases job with
      | change i => cases hstep
      | sleep =>
        refine iff_of_true ((kept_finish_iff h hp hstep).2 ?_) trivial
        rintro rfl
        exact absurd hp (hawaited k)
    all_goals cases hstep

/-! ### Whole runs -/

/-- At most one actor goes on, and never to an idle sleep on its way out. -/
theorem step_phase {s t : Mailbox} {e : Mailbox.Event} (h : s.step e = some t) :
    t.phase = s.phase ∨ ∃ k p, p ≠ .busy .sleep true ∧ t.phase = (s.enter k p).phase := by
  cases e with
  | call i | close i k | seesStopped i | reply i | stop =>
    simp only [Mailbox.step, Option.ite_none_right_eq_some, Option.some.injEq] at h
    obtain ⟨-, rfl⟩ := h
    exact .inl rfl
  | shutdown =>
    cases h
    exact .inl rfl
  | givesUp i =>
    obtain ⟨-, rfl⟩ := step_givesUp h
    exact .inl rfl
  | find i =>
    simp only [Mailbox.step, Option.ite_none_right_eq_some, Option.some.injEq] at h
    obtain ⟨-, rfl⟩ := h
    rcases findOrStart_eq s with hsame | hnew
    · rw [hsame]
      exact .inl rfl
    · rw [hnew]
      exact .inr ⟨s.count, .ready, by simp, rfl⟩
  | take i =>
    cases hc : s.callers i <;>
      simp only [Mailbox.step, hc, Option.ite_none_right_eq_some, Option.some.injEq] at h
    case holding k | closing k =>
      obtain ⟨-, rfl⟩ := h
      exact .inr ⟨k, _, by simp, rfl⟩
    all_goals cases h
  | seesDone i =>
    cases hc : s.callers i <;>
      simp only [Mailbox.step, hc, Option.ite_none_right_eq_some, Option.some.injEq] at h
    case holding k | closing k =>
      obtain ⟨-, rfl⟩ := h
      exact .inl rfl
    all_goals cases h
  | idle k | ends k | closeDone k | exited k =>
    simp only [Mailbox.step, Option.ite_none_right_eq_some, Option.some.injEq] at h
    obtain ⟨-, rfl⟩ := h
    exact .inr ⟨k, _, by simp, rfl⟩
  | finish k up =>
    obtain ⟨job, exiting, -, hphase, -, -⟩ := step_finish h
    refine .inr ⟨k, afterWork exiting up, ?_, ?_⟩
    · cases exiting <;> cases up <;> simp [afterWork]
    · funext j
      rw [hphase, phase_enter]

omit [DecidableEq Addr] in
theorem Awaited.box (h : s.Awaited) {e : Mailbox.Event} {box : Mailbox}
    (hstep : s.box.step e = some box) (actor : Nat → Actor Addr) : Awaited ⟨box, actor⟩ := by
  intro k hk
  have hk : box.phase k = .busy .sleep true := hk
  rcases step_phase hstep with hsame | ⟨j, p, hp, hphase⟩
  · rw [hsame] at hk
    exact h k hk
  · rw [hphase, phase_enter] at hk
    by_cases hkj : k = j
    · rw [if_pos hkj] at hk
      exact hp hk
    · rw [if_neg hkj] at hk
      exact h k hk

theorem step_box {e : Event Addr} (h : s.step idle e = some t) :
    ∃ e', s.box.step e' = some t.box := by
  cases e with
  | mail e =>
    simp only [step, Option.ite_none_right_eq_some] at h
    obtain ⟨box, hbox, rfl⟩ := Option.map_eq_some_iff.1 h.2
    exact ⟨_, hbox⟩
  | find i crashes =>
    obtain ⟨box, hbox, rfl⟩ := Option.map_eq_some_iff.1 h
    exact ⟨_, hbox⟩
  | fires k now =>
    simp only [step, Option.ite_none_right_eq_some] at h
    obtain ⟨box, hbox, rfl⟩ := Option.map_eq_some_iff.1 h.2
    exact ⟨_, hbox⟩
  | handles k now m =>
    cases hp : s.box.phase k <;> simp only [step, hp] at h
    case busy job exiting =>
      cases job with
      | sleep => cases h
      | change i =>
        obtain ⟨box, hbox, rfl⟩ := Option.map_eq_some_iff.1 h
        exact ⟨_, hbox⟩
    all_goals cases h
  | sleeps k now ok took =>
    cases hp : s.box.phase k <;> simp only [step, hp] at h
    case busy job exiting =>
      cases job with
      | change i => cases h
      | sleep =>
        obtain ⟨box, hbox, rfl⟩ := Option.map_eq_some_iff.1 h
        exact ⟨_, hbox⟩
    all_goals cases h

theorem start_phase (valid : Bool) (states : Option Bool) (k : Nat) :
    (Mailbox.start valid states).phase k = .absent ∨
      states = some true ∧ (Mailbox.start valid states).phase k = .ready := by
  rcases states with _ | _ | _
  · exact .inl rfl
  · exact .inl rfl
  · by_cases hk : k = 0
    · exact .inr ⟨rfl, by simp [Mailbox.start, hk]⟩
    · exact .inl (by simp [Mailbox.start, Function.update_of_ne hk])

omit [DecidableEq Addr] in
theorem awaited_start (valid : Bool) (states : Option Bool) (now : Nat) :
    Awaited (start valid states now : Loop Addr) := by
  intro k hk
  have hk : (Mailbox.start valid states).phase k = .busy .sleep true := hk
  rcases start_phase valid states k with habsent | ⟨-, hready⟩
  · rw [habsent] at hk
    cases hk
  · rw [hready] at hk
    cases hk

omit [DecidableEq Addr] in
theorem kept_start (valid : Bool) (states : Option Bool) (now : Nat) :
    Kept (start valid states now : Loop Addr) := by
  intro k hready _ _
  have hready : (Mailbox.start valid states).phase k = .ready := hready
  rcases start_phase valid states k with habsent | ⟨rfl, -⟩
  · rw [habsent] at hready
    cases hready
  · rfl

theorem exists_step {start last : Loop Addr} {before after : List (Event Addr)} {e : Event Addr}
    (hrun : start.run idle (before ++ e :: after) = some last)
    (hs : start.run idle before = some s) : ∃ t, s.step idle e = some t := by
  have hs' : before.foldlM (step idle) start = some s := hs
  rw [run, List.foldlM_append, hs', Option.bind_eq_bind, Option.bind_some, List.foldlM_cons,
    Option.bind_eq_bind, Option.bind_eq_some_iff] at hrun
  obtain ⟨t, ht, -⟩ := hrun
  exact ⟨t, ht⟩

theorem awaited_run (idle : Idle) {start : Loop Addr} (h : start.Awaited)
    (events : List (Event Addr)) (t : Loop Addr) (ht : start.run idle events = some t) :
    t.Awaited := by
  refine foldlM_keeps (fun s t e _ hs hstep => ?_) ht h
  obtain ⟨e', hbox⟩ := step_box hstep
  exact hs.box hbox t.actor

/-- An asleep box has no actor: one that is blocked waiting, with no caller about to hand it a
message, has its box up; and one whose box isn't, and that nobody is about to hand a message, ends.
-/
structure EndsAsleep (s : Loop Addr) : Prop where
  blocked : ∀ k, s.box.phase k = .ready → s.box.stopping = false → ¬ s.box.Held k →
    up (s.actor k) = true
  ends : ∀ k, (s.box.phase k).takes = true → up (s.actor k) = false → ¬ s.box.Held k →
    (s.box.step (.ends k)).isSome = true

omit [DecidableEq Addr] in
theorem endsAsleep_iff : s.EndsAsleep ↔ s.Kept := by
  refine ⟨EndsAsleep.blocked, fun h => ⟨h, ?_⟩⟩
  intro k htakes hdown hnone
  cases hp : s.box.phase k <;> simp only [hp, Phase.takes] at htakes
  case ready =>
    cases hstop : s.box.stopping with
    | true => simp [Mailbox.step, hp, hstop]
    | false =>
      have hup := h k hp hstop hnone
      rw [hdown] at hup
      cases hup
  case last => simp [Mailbox.step, hp]
  all_goals cases htakes

/-- **An asleep box has no actor**, in every state of a run, just if every step of the run is
fine. -/
theorem asleep_ends_iff (idle : Idle) (valid : Bool) (states : Option Bool) (now : Nat)
    {events : List (Event Addr)} {last : Loop Addr}
    (hrun : (start valid states now).run idle events = some last) :
    (∀ before after s, events = before ++ after →
      (start valid states now).run idle before = some s → s.EndsAsleep) ↔
    ∀ before e after s, events = before ++ e :: after →
      (start valid states now).run idle before = some s → Fine idle s e := by
  have hstart : Awaited (start valid states now : Loop Addr) := awaited_start valid states now
  have hawaited := awaited_run idle hstart
  constructor
  · intro hall before e after s hevents hs
    obtain ⟨t, ht⟩ := exists_step (hevents ▸ hrun) hs
    have hkept := endsAsleep_iff.1 (hall before (e :: after) s hevents hs)
    rw [← kept_step_iff hkept (hawaited before s hs) ht, ← endsAsleep_iff]
    refine hall (before ++ [e]) after t (by simp [hevents]) ?_
    exact foldlM_concat.2 ⟨s, hs, ht⟩
  · intro hfine before
    induction before using List.reverseRecOn with
    | nil =>
      intro after s hevents hs
      cases hs
      exact endsAsleep_iff.2 (kept_start valid states now)
    | append_singleton before e ih =>
      intro after t hevents ht
      obtain ⟨s, hs, hstep⟩ := foldlM_concat.1 ht
      rw [List.append_assoc] at hevents
      have hkept := endsAsleep_iff.1 (ih _ s hevents hs)
      rw [endsAsleep_iff, kept_step_iff hkept (hawaited before s hs) hstep]
      exact hfine before e after s hevents hs

/-! ### Actors left behind -/

/-- A caller looks for the actor, gets a new one, and gives up. -/
def gaveUp : List (Event Unit) := [.mail (.call 0), .find 0 [], .mail (.givesUp 0)]

/-- A caller's change leaves the box asleep; another caller has come meanwhile, whose message the
actor takes on its way out. -/
def onTheWayOut : List (Event Unit) :=
  [.mail (.call 0), .find 0 [], .mail (.take 0), .mail (.call 1), .find 1 [], .handles 0 0 .other,
    .mail (.take 1), .handles 0 0 .other]

/-- The actor waits, its box asleep with nothing open, and there is no caller. -/
def LeftBehind (events : List (Event Unit)) : Prop :=
  ∃ s, (start true (some false) 0).run ⟨1, 1, 1⟩ events = some s ∧ s.box.phase 0 = .ready ∧
    s.box.stopping = false ∧ up (s.actor 0) = false ∧ ¬ s.box.Held 0

/-- After a caller that gives up, or a message taken on the way out, an asleep box keeps its
actor. -/
theorem asleep_actor_left : LeftBehind gaveUp ∧ LeftBehind onTheWayOut := by
  refine ⟨⟨_, rfl, rfl, rfl, rfl, ?_⟩, ⟨_, rfl, rfl, rfl, rfl, ?_⟩⟩
  · rintro ⟨_ | i, hi⟩ <;> cases hi
  · rintro ⟨_ | _ | i, hi⟩ <;> cases hi

/-- Two callers get the actor, and one of them gives up. -/
def oneStays : List (Event Unit) :=
  [.mail (.call 0), .find 0 [], .mail (.call 1), .find 1 [], .mail (.givesUp 1)]

theorem asleep_ends_oneStays :
    ((start true (some false) 0).run ⟨1, 1, 1⟩ oneStays).isSome = true ∧
    ∀ before after s, oneStays = before ++ after →
      (start true (some false) 0).run ⟨1, 1, 1⟩ before = some s → s.EndsAsleep := by
  refine ⟨rfl, (asleep_ends_iff ⟨1, 1, 1⟩ true (some false) 0 rfl).2 ?_⟩
  intro before e after s hevents hs
  rcases before with _ | ⟨_, _ | ⟨_, _ | ⟨_, _ | ⟨_, _ | ⟨_, before⟩⟩⟩⟩⟩
  · cases hevents
    trivial
  · cases hevents
    trivial
  · cases hevents
    trivial
  · cases hevents
    trivial
  · -- the first caller still has the actor
    cases hevents
    cases hs
    intro k hk _
    cases hk
    exact .inr (.inr ⟨0, by decide, rfl⟩)
  · have hlen := congrArg List.length hevents
    simp [oneStays] at hlen

end Loop

end Fern

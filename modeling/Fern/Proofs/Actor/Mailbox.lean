/-
The mailbox runs each change once and alone.

Every actor but the one `Run` would give a caller is done, so at most one works.  A message is
taken at most once, because only a caller whose message wasn't taken can hand one over, and what
was taken is run to its end by the actor that took it.
-/
import Fern.Actor.Mailbox
import Fern.Lib.Run

namespace Fern

variable {i : Nat} {p : Phase}

namespace Mailbox

variable {s s' : Mailbox} {e : Event}

/-- The caller's message was taken. -/
def Caller.sent : Caller → Bool
  | .waiting | .handed | .returned .own => true
  | _ => false

/-! ### What a step does -/

/-- What one step does to the box's actors and callers. -/
inductive StepCase (s : Mailbox) : Mailbox → Prop where
  /-- A caller goes on without its message being taken. -/
  | moves (i : Nat) (c : Caller) (hbefore : (s.callers i).sent = false)
      (hreturned : ∀ r, s.callers i ≠ .returned r) (hafter : c.sent = false) :
      StepCase s (s.goTo i c)
  /-- `Run` gives a caller an actor. -/
  | finds (i : Nat) (hlooking : s.callers i = .looking) :
      StepCase s (s.findOrStart.1.goTo i (.holding s.findOrStart.2))
  /-- An actor takes a message. -/
  | takes (k i : Nat) (c : Caller) (htakes : (s.phase k).takes)
      (hbefore : (s.callers i).sent = false) (hreturned : ∀ r, s.callers i ≠ .returned r)
      (hafter : c.sent) (hown : c ≠ .returned .own) :
      StepCase s ((s.begin k i).goTo i c)
  /-- An actor goes on, at no caller's change. -/
  | goesOn (k : Nat) (p : Phase) (hlive : (s.phase k).live)
      (hbefore : ∀ i x, s.phase k ≠ .busy (.change i) x) (hafter : ∀ i x, p ≠ .busy (.change i) x) :
      StepCase s (s.enter k p)
  /-- An actor comes to the end of a caller's change. -/
  | finishes (k i : Nat) (exiting up : Bool) (hbusy : s.phase k = .busy (.change i) exiting) :
      StepCase s { s.enter k (afterWork exiting up) with
        ended := Function.update s.ended i (s.ended i + 1) }
  /-- A caller takes its reply. -/
  | replies (i : Nat) (hwaiting : s.callers i = .waiting) (hended : 0 < s.ended i) :
      StepCase s (s.goTo i (.returned .own))
  /-- `Run` receives an actor. -/
  | receives (k : Nat) (hdone : s.phase k = .done) :
      StepCase s { s.enter k .received with
        current := if s.current = some k then none else s.current }
  /-- `Run` is stopping or stops. -/
  | stops (running stopping : Bool) : StepCase s { s with running, stopping }

private theorem afterWork_ne (exiting up : Bool) (i : Nat) (x : Bool) :
    afterWork exiting up ≠ .busy (.change i) x := by
  unfold afterWork
  split <;> simp

theorem step_cases (h : s.step e = some s') : StepCase s s' := by
  cases e with
  | call i =>
    simp only [step, Option.ite_none_right_eq_some, Option.some.injEq] at h
    obtain ⟨hnew, rfl⟩ := h
    refine .moves i _ (by simp [hnew, Caller.sent]) (by simp [hnew]) ?_
    split <;> rfl
  | close i k =>
    simp only [step, Option.ite_none_right_eq_some, Option.some.injEq] at h
    obtain ⟨⟨hnew, -⟩, rfl⟩ := h
    exact .moves i _ (by simp [hnew, Caller.sent]) (by simp [hnew]) rfl
  | find i =>
    simp only [step, Option.ite_none_right_eq_some, Option.some.injEq] at h
    obtain ⟨⟨hlooking, -⟩, rfl⟩ := h
    exact .finds i hlooking
  | seesStopped i =>
    simp only [step, Option.ite_none_right_eq_some, Option.some.injEq] at h
    obtain ⟨⟨hlooking, -⟩, rfl⟩ := h
    exact .moves i _ (by simp [hlooking, Caller.sent]) (by simp [hlooking]) rfl
  | givesUp i =>
    dsimp only [step] at h
    split at h
    case h_1 hc | h_2 hc =>
      cases h
      exact .moves i _ (by simp [hc, Caller.sent]) (by simp [hc]) rfl
    case h_3 => contradiction
  | take i =>
    dsimp only [step] at h
    split at h
    case h_1 k hc | h_2 k hc =>
      simp only [Option.ite_none_right_eq_some, Option.some.injEq] at h
      obtain ⟨htakes, rfl⟩ := h
      exact .takes k i _ htakes (by simp [hc, Caller.sent]) (by simp [hc]) rfl (by simp)
    case h_3 => contradiction
  | seesDone i =>
    dsimp only [step] at h
    split at h
    case h_1 k hc | h_2 k hc =>
      simp only [Option.ite_none_right_eq_some, Option.some.injEq] at h
      obtain ⟨-, rfl⟩ := h
      exact .moves i _ (by simp [hc, Caller.sent]) (by simp [hc]) rfl
    case h_3 => contradiction
  | idle k =>
    simp only [step, Option.ite_none_right_eq_some, Option.some.injEq] at h
    obtain ⟨hready, rfl⟩ := h
    exact .goesOn k _ (by simp [hready, Phase.live]) (by simp [hready]) (by simp)
  | finish k up =>
    dsimp only [step] at h
    split at h
    case h_1 i exiting hbusy =>
      cases h
      exact .finishes k i exiting up hbusy
    case h_2 exiting hbusy =>
      cases h
      exact .goesOn k _ (by simp [hbusy, Phase.live]) (by simp [hbusy]) (afterWork_ne exiting up)
    case h_3 => contradiction
  | reply i =>
    simp only [step, Option.ite_none_right_eq_some, Option.some.injEq] at h
    obtain ⟨⟨hwaiting, hended⟩, rfl⟩ := h
    exact .replies i hwaiting hended
  | ends k =>
    simp only [step, Option.ite_none_right_eq_some, Option.some.injEq] at h
    obtain ⟨hlast | ⟨hready, -⟩, rfl⟩ := h
    · exact .goesOn k _ (by simp [hlast, Phase.live]) (by simp [hlast]) (by simp)
    · exact .goesOn k _ (by simp [hready, Phase.live]) (by simp [hready]) (by simp)
  | closeDone k =>
    simp only [step, Option.ite_none_right_eq_some, Option.some.injEq] at h
    obtain ⟨hended, rfl⟩ := h
    exact .goesOn k _ (by simp [hended, Phase.live]) (by simp [hended]) (by simp)
  | exited k =>
    simp only [step, Option.ite_none_right_eq_some, Option.some.injEq] at h
    obtain ⟨⟨hdone, -⟩, rfl⟩ := h
    exact .receives k hdone
  | shutdown =>
    cases h
    exact .stops s.running true
  | stop =>
    simp only [step, Option.ite_none_right_eq_some, Option.some.injEq] at h
    obtain ⟨-, rfl⟩ := h
    exact .stops false s.stopping

/-! ### What holds in every state -/

/-- What holds in every state of a run. -/
structure Inv (s : Mailbox) : Prop where
  /-- Only the actor that `Run` would give may be live. -/
  alone : ∀ k, (s.phase k).live → s.current = some k
  /-- A change is begun once its message is taken, and once only. -/
  begun : ∀ i, s.begun i = if (s.callers i).sent then 1 else 0
  /-- While an actor is at a change, it has begun once more than it ended. -/
  busy : ∀ k i x, s.phase k = .busy (.change i) x → s.begun i = s.ended i + 1
  /-- While no actor is at a change, it ended as often as it has begun. -/
  free : ∀ i, (∀ k x, s.phase k ≠ .busy (.change i) x) → s.begun i = s.ended i
  /-- A caller that returned a change's own result saw its end. -/
  own : ∀ i, s.callers i = .returned .own → 0 < s.ended i

theorem live_of_takes (h : p.takes) : p.live := by
  cases p <;> first | rfl | contradiction

theorem live_of_works (h : p.works) : p.live := by
  cases p <;> first | rfl | contradiction

theorem not_live_of_isDone (h : p.isDone) : ¬ p.live := by
  cases p <;> first | contradiction | simp [Phase.live]

theorem start_inv (valid : Bool) (states : Option Bool) : (start valid states).Inv := by
  match states with
  | none | some false =>
    exact ⟨nofun, fun _ => rfl, nofun, fun _ _ => rfl, nofun⟩
  | some true =>
    have hphase : ∀ k, (start valid (some true)).phase k = if k = 0 then .ready else .absent := by
      intro k
      simp [start, Function.update_apply]
    refine ⟨?_, fun _ => rfl, ?_, fun _ _ => rfl, nofun⟩
    · intro k hlive
      rw [hphase] at hlive
      split at hlive
      case isTrue h => rw [h]; rfl
      case isFalse => contradiction
    · intro k i x hbusy
      rw [hphase] at hbusy
      split at hbusy <;> contradiction

/-- What `findOrStart` does: the actor is there, or none is live and a new one is. -/
theorem findOrStart_cases (h : s.Inv) :
    s.findOrStart.1 = s ∨
      (∀ k, (s.phase k).live = false) ∧
        s.findOrStart.1 =
          { s.enter s.count .ready with current := some s.count, count := s.count + 1 } := by
  unfold findOrStart
  split
  case h_1 k hk =>
    split
    case isTrue hdone =>
      refine .inr ⟨fun k' => ?_, rfl⟩
      by_contra hlive
      have hcurrent := h.alone k' (by simpa using hlive)
      rw [hk, Option.some.injEq] at hcurrent
      subst hcurrent
      exact not_live_of_isDone hdone (by simpa using hlive)
    case isFalse => exact .inl rfl
  case h_2 hnone =>
    refine .inr ⟨fun k' => ?_, rfl⟩
    by_contra hlive
    have hcurrent := h.alone k' (by simpa using hlive)
    rw [hnone] at hcurrent
    contradiction

private theorem Inv.goTo (h : s.Inv) {c : Caller} (hsent : c.sent = (s.callers i).sent)
    (hown : c = .returned .own → 0 < s.ended i) :
    (s.goTo i c).Inv := by
  refine ⟨h.alone, fun j => ?_, h.busy, h.free, fun j hj => ?_⟩
  · rw [show (s.goTo i c).begun j = s.begun j from rfl, h.begun j]
    by_cases hij : j = i
    · subst hij
      simp [Mailbox.goTo, hsent]
    · simp [Mailbox.goTo, hij]
  · by_cases hij : j = i
    · subst hij
      exact hown (by simpa [Mailbox.goTo] using hj)
    · exact h.own j (by simpa [Mailbox.goTo, hij] using hj)

private theorem Inv.enter (h : s.Inv) {k : Nat} (hlive : p.live → s.current = some k)
    (hbefore : ∀ i x, s.phase k ≠ .busy (.change i) x) (hafter : ∀ i x, p ≠ .busy (.change i) x) :
    (s.enter k p).Inv := by
  refine ⟨fun k' hk' => ?_, h.begun, fun k' i x hk' => ?_, fun i hi => ?_, h.own⟩
  · by_cases hkk : k' = k
    · subst hkk
      exact hlive (by simpa [Mailbox.enter] using hk')
    · exact h.alone k' (by simpa [Mailbox.enter, hkk] using hk')
  · by_cases hkk : k' = k
    · subst hkk
      exact absurd (by simpa [Mailbox.enter] using hk') (hafter i x)
    · exact h.busy k' i x (by simpa [Mailbox.enter, hkk] using hk')
  · refine h.free i fun k' x hk' => ?_
    by_cases hkk : k' = k
    · subst hkk
      exact hbefore i x hk'
    · exact hi k' x (by simpa [Mailbox.enter, hkk] using hk')

private theorem Inv.eq_of_live (h : s.Inv) {k k' : Nat} (hk : (s.phase k).live)
    (hk' : (s.phase k').live) : k = k' := by
  have hcurrent := h.alone k hk
  rw [h.alone k' hk'] at hcurrent
  exact (Option.some.inj hcurrent).symm

private theorem Inv.take (h : s.Inv) {k : Nat} {c : Caller} (htakes : (s.phase k).takes)
    (hbefore : (s.callers i).sent = false) (hafter : c.sent) (hown : c ≠ .returned .own) :
    ((s.begin k i).goTo i c).Inv := by
  have hlive := live_of_takes htakes
  have hbegun : s.begun i = 0 := by rw [h.begun i, hbefore]; rfl
  -- nobody else works, and the actor itself was at no change
  have hidle : ∀ k' j x, s.phase k' ≠ .busy (.change j) x := by
    intro k' j x hk'
    obtain rfl := h.eq_of_live hlive (by rw [hk']; rfl)
    rw [hk'] at htakes
    contradiction
  have hended : ∀ j, s.begun j = s.ended j := fun j => h.free j fun k' x => hidle k' j x
  have hphase : ∀ k', ((s.begin k i).goTo i c).phase k' =
      if k' = k then .busy (.change i) (s.phase k = .last) else s.phase k' := by
    intro k'
    simp [Mailbox.goTo, begin, Mailbox.enter, Function.update_apply]
  have hcount : ∀ j, ((s.begin k i).goTo i c).begun j =
      if j = i then s.begun i + 1 else s.begun j := by
    intro j
    simp [Mailbox.goTo, begin, Mailbox.enter, Function.update_apply]
  refine ⟨fun k' hk' => ?_, fun j => ?_, fun k' j x hk' => ?_, fun j hj => ?_, fun j hj => ?_⟩
  · rw [hphase] at hk'
    split at hk'
    case isTrue hkk => rw [hkk]; exact h.alone k hlive
    case isFalse => exact h.alone k' hk'
  · rw [hcount]
    split
    case isTrue hij => simp [hij, Mailbox.goTo, hafter, hbegun]
    case isFalse hij => rw [h.begun j]; simp [Mailbox.goTo, hij, begin, Mailbox.enter]
  · rw [hphase] at hk'
    split at hk'
    case isTrue =>
      obtain rfl : i = j := by injection hk' with hjob; injection hjob
      rw [hcount, if_pos rfl, hended i]
      rfl
    case isFalse => exact absurd hk' (hidle k' j x)
  · have hij : j ≠ i := by
      rintro rfl
      exact hj k (s.phase k = .last) (by rw [hphase, if_pos rfl])
    rw [hcount, if_neg hij]
    exact hended j
  · by_cases hij : j = i
    · subst hij
      exact absurd (by simpa [Mailbox.goTo] using hj) hown
    · exact h.own j (by simpa [Mailbox.goTo, hij, begin, Mailbox.enter] using hj)

private theorem Inv.finish (h : s.Inv) {k : Nat} {exiting : Bool} (up : Bool)
    (hbusy : s.phase k = .busy (.change i) exiting) :
    Inv { s.enter k (afterWork exiting up) with
      ended := Function.update s.ended i (s.ended i + 1) } := by
  have hlive : (s.phase k).live := by rw [hbusy]; rfl
  have hbegun := h.busy k i exiting hbusy
  have hphase : ∀ k', (s.enter k (afterWork exiting up)).phase k' =
      if k' = k then afterWork exiting up else s.phase k' := by
    intro k'
    simp [Mailbox.enter, Function.update_apply]
  -- the actor leaves the change, and no other was at one
  have hidle : ∀ k' j x, (s.enter k (afterWork exiting up)).phase k' ≠ .busy (.change j) x := by
    intro k' j x hk'
    rw [hphase] at hk'
    split at hk'
    case isTrue => exact afterWork_ne exiting up j x hk'
    case isFalse hkk => exact hkk (h.eq_of_live (by rw [hk']; rfl) hlive)
  refine ⟨fun k' hk' => ?_, h.begun, fun k' j x hk' => absurd hk' (hidle k' j x), fun j _ => ?_,
    fun j hj => ?_⟩
  · by_cases hkk : k' = k
    · rw [hkk]
      exact h.alone k hlive
    · dsimp only at hk'
      rw [hphase, if_neg hkk] at hk'
      exact h.alone k' hk'
  · by_cases hij : j = i
    · subst hij
      simpa [Mailbox.enter] using hbegun
    · have hfree := h.free j fun k' x hk' => by
        obtain rfl := h.eq_of_live hlive (by rw [hk']; rfl)
        rw [hbusy] at hk'
        injection hk' with hjob
        injection hjob with hji
        exact hij hji.symm
      simpa [Mailbox.enter, hij] using hfree
  · have := h.own j hj
    by_cases hij : j = i
    · simp [hij]
    · simpa [hij] using this

theorem step_inv (h : s.Inv) (hstep : s.step e = some s') : s'.Inv := by
  cases step_cases hstep with
  | moves i c hbefore _ hafter =>
    refine h.goTo (hafter.trans hbefore.symm) ?_
    rintro rfl
    contradiction
  | finds i hlooking =>
    have hsame : s.findOrStart.1.Inv ∧ s.findOrStart.1.callers = s.callers := by
      rcases findOrStart_cases h with heq | ⟨hnone, heq⟩
      · rw [heq]
        exact ⟨h, rfl⟩
      · rw [heq]
        refine ⟨?_, rfl⟩
        have hinv : Inv { s with current := some s.count, count := s.count + 1 } :=
          ⟨fun k hk => by rw [hnone k] at hk; contradiction, h.begun, h.busy, h.free, h.own⟩
        refine hinv.enter (fun _ => rfl) (fun i x hbusy => ?_) (by simp)
        have := hnone s.count
        rw [hbusy] at this
        contradiction
    exact hsame.1.goTo (by rw [hsame.2, hlooking]; rfl) (by simp)
  | takes k i c htakes hbefore _ hafter hown => exact h.take htakes hbefore hafter hown
  | goesOn k p hlive hbefore hafter => exact h.enter (fun _ => h.alone k hlive) hbefore hafter
  | finishes k i exiting up hbusy => exact h.finish up hbusy
  | replies i hwaiting hended => exact h.goTo (by rw [hwaiting]; rfl) fun _ => hended
  | receives k hdone =>
    have hinv : (s.enter k .received).Inv := h.enter nofun (by simp [hdone]) nofun
    refine ⟨fun k' hk' => ?_, hinv.begun, hinv.busy, hinv.free, hinv.own⟩
    have hcurrent : s.current = some k' := hinv.alone k' hk'
    have hne : k' ≠ k := by
      rintro rfl
      simp [Mailbox.enter, Phase.live] at hk'
    simp [hcurrent, hne]
  | stops running stopping => exact ⟨h.alone, h.begun, h.busy, h.free, h.own⟩

theorem run_inv {es : List Event} (h : s.Inv) (hrun : s.run es = some s') : s'.Inv :=
  foldlM_keeps (fun _ _ _ _ h hstep => step_inv h hstep) hrun h

/-! ### Who has returned stays so -/

theorem step_returned (hstep : s.step e = some s') {r : Result} (hi : s.callers i = .returned r) :
    s'.callers i = .returned r := by
  have hkeep : ∀ {s₁ : Mailbox} {j : Nat} {c : Caller}, s₁.callers = s.callers →
      (∀ r, s.callers j ≠ .returned r) → (s₁.goTo j c).callers i = .returned r := by
    intro s₁ j c hsame hj
    have hij : i ≠ j := by
      rintro rfl
      exact hj r hi
    simp [Mailbox.goTo, hij, hsame, hi]
  cases step_cases hstep with
  | moves j c _ hreturned _ => exact hkeep rfl hreturned
  | finds j hlooking =>
    refine hkeep ?_ (by simp [hlooking])
    unfold findOrStart
    split
    · split <;> rfl
    · rfl
  | takes k j c _ _ hreturned => exact hkeep rfl hreturned
  | replies j hwaiting _ => exact hkeep rfl (by simp [hwaiting])
  | goesOn | finishes | receives | stops => exact hi

theorem run_returned {es : List Event} (hrun : s.run es = some s') {r : Result}
    (hi : s.callers i = .returned r) : s'.callers i = .returned r :=
  foldlM_keeps (I := fun s => s.callers i = .returned r)
    (fun _ _ _ _ hi hstep => step_returned hstep hi) hrun hi

/-! ### Once and alone -/

/-- The change of caller `i` is running. -/
def Running (s : Mailbox) (i : Nat) : Prop := s.ended i < s.begun i

private theorem Inv.busy_of_running (h : s.Inv) (hi : s.Running i) :
    ∃ k x, s.phase k = .busy (.change i) x := by
  by_contra hnone
  simp only [not_exists] at hnone
  exact absurd hi (by simp [Running, h.free i hnone])

private theorem Inv.one_runs (h : s.Inv) {j : Nat} (hi : s.Running i) (hj : s.Running j) :
    i = j := by
  obtain ⟨k, x, hk⟩ := h.busy_of_running hi
  obtain ⟨k', x', hk'⟩ := h.busy_of_running hj
  obtain rfl := h.eq_of_live (by rw [hk]; rfl) (by rw [hk']; rfl)
  rw [hk] at hk'
  injection hk' with hjob
  injection hjob

private theorem Inv.own_once (h : s.Inv) (hi : s.callers i = .returned .own) :
    s.begun i = 1 ∧ s.ended i = 1 := by
  have hbegun : s.begun i = 1 := by rw [h.begun i, hi]; rfl
  have hended := h.own i hi
  refine ⟨hbegun, ?_⟩
  by_cases hbusy : ∃ k x, s.phase k = .busy (.change i) x
  · obtain ⟨k, x, hk⟩ := hbusy
    have := h.busy k i x hk
    omega
  · simp only [not_exists] at hbusy
    have := h.free i hbusy
    omega

/-- **Each change runs once and alone.**  In every run of a box's callers, of `Run` and of the
actors it starts: at most one actor handles messages or makes a change; at most one change runs;
a change whose `do` returned its own result has run to its end by then, and never runs again; and
one whose `do` returned something else never runs. -/
theorem changes_once_and_alone {valid : Bool} {states : Option Bool} {events : List Event}
    (hrun : (start valid states).run events = some s) :
    (∀ k k', (s.phase k).works → (s.phase k').works → k = k') ∧
    (∀ i j, s.Running i → s.Running j → i = j) ∧
    (∀ i, s.callers i = .returned .own → ∀ later s', s.run later = some s' →
      s'.begun i = 1 ∧ s'.ended i = 1) ∧
    (∀ i r, s.callers i = .returned r → r ≠ .own → ∀ later s', s.run later = some s' →
      s'.begun i = 0) := by
  have hinv : s.Inv := run_inv (start_inv valid states) hrun
  refine ⟨fun k k' hk hk' => hinv.eq_of_live (live_of_works hk) (live_of_works hk'),
    fun i j => hinv.one_runs, fun i hi later s' hlater => ?_, fun i r hi hr later s' hlater => ?_⟩
  · exact (run_inv hinv hlater).own_once (run_returned hlater hi)
  · have hreturned := run_returned hlater hi
    rw [(run_inv hinv hlater).begun i, hreturned]
    cases r with
    | own => exact absurd rfl hr
    | context | stopped | badID => rfl

/-- Two callers get the box's one actor; it takes the first one's message, the second gives up,
and the actor ends. -/
theorem changes_once_and_alone_two_callers :
    ∃ s, (start true (some false)).run
        [.call 0, .call 1, .find 0, .find 1, .take 0, .givesUp 1, .finish 0 false, .reply 0,
          .ends 0] = some s ∧
      (s.begun 0 = 1 ∧ s.ended 0 = 1) ∧ s.begun 1 = 0 := by
  refine ⟨_, rfl, ?_⟩
  have h := @changes_once_and_alone _ true (some false)
    [.call 0, .call 1, .find 0, .find 1, .take 0, .givesUp 1, .finish 0 false, .reply 0,
      .ends 0] rfl
  exact ⟨h.2.2.1 0 rfl [] _ rfl, h.2.2.2 1 .context rfl (by simp) [] _ rfl⟩

end Mailbox

end Fern

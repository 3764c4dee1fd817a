/-
The relays of a service on demand, and its stop.

The readiness is in one place at any time: to be found out, in the channel, or with the relay that
passes it on.  Once `stop` is called every step of every goroutine brings its end nearer.
-/
import Fern.Init.OnDemand

namespace Fern

namespace Init

variable {ε : Type}

namespace Stage

variable {cancelled : Bool} {c c' : Option (Option ε)} {st st' : Stage ε}

/-- A relay is passing the readiness on. -/
def passing : Stage ε → Bool
  | .took _ => true
  | _ => false

def Knows (stage : Stage ε) (err : Option ε) : Prop := stage = .took err ∨ stage = .told err

/-- A relay's step moves the readiness between the channel and itself, and makes up none. -/
theorem Goes.moves (h : Goes cancelled c st c' st') :
    c'.isSome.toNat + st'.passing.toNat = c.isSome.toNat + st.passing.toNat ∧
      ∀ e, c' = some e ∨ st'.Knows e → c = some e ∨ st.Knows e := by
  cases h <;> simp [passing, Knows] <;> grind

/-- How many steps a relay has before it at most. -/
def rank : Stage ε → Nat
  | .waits => 6
  | .took _ => 5
  | .told _ => 4
  | .dialed => 3
  | .copies => 2
  | .leaves => 1

theorem Goes.rank_lt (h : Goes cancelled c st c' st') : st'.rank < st.rank := by
  cases h <;> simp [rank]

end Stage

namespace OnDemand

variable {o o' : OnDemand ε} {unix : Bool}

/-- How many have the readiness, or are to find it out. -/
def readiness (o : OnDemand ε) : Nat :=
  o.checking.toNat + o.ready.isSome.toNat + o.relays.countP Stage.passing

/-- There is one readiness, and it is what `waitReady` returned. -/
structure Answers (o : OnDemand ε) : Prop where
  once : o.starts ≤ 1
  unstarted : o.starts = 0 → o.checking = false ∧ o.ready = none ∧ o.relays = [] ∧ o.result = none
  one : o.starts ≠ 0 → o.readiness = 1
  unknown : o.checking = true → o.result = none
  known : ∀ e, (o.ready = some e ∨ ∃ stage ∈ o.relays, stage.Knows e) → o.result = some e

theorem Answers.started (h : Answers o) (hl : o.checking = true ∨ o.relays ≠ []) :
    o.starts ≠ 0 := by
  grind [h.unstarted]

theorem Answers.step (h : Answers o) (hst : Step o o') : Answers o' := by
  have hstarted := h.started
  obtain ⟨honce, hun, hone, hunk, hknown⟩ := h
  cases hst with
  | starts _ h0 =>
    obtain ⟨_, hr, hl, hres⟩ := hun h0
    refine ⟨by simp [h0], by simp, fun _ => ?_, fun _ => hres, ?_⟩
    · simp [readiness, hr, hl, Stage.passing]
    · simp [hr, hl, Stage.Knows]
  | holds _ h0 =>
    refine ⟨honce, fun h => absurd h h0, fun h => ?_, hunk, fun e he => hknown e ?_⟩
    · simpa [readiness, Stage.passing] using hone h
    · simpa [or_and_right, exists_or, Stage.Knows] using he
  | checked err hc hnone =>
    have h0 := hstarted (.inl hc)
    refine ⟨honce, fun h => absurd h h0, fun h => ?_, by simp, fun e he => ?_⟩
    · simpa [readiness, hc, hnone] using hone h
    · -- Nobody can have been told before.
      refine he.resolve_right fun hr => ?_
      rw [hunk hc] at hknown
      exact absurd (hknown e (.inr hr)) (by simp)
  | @relays before after stage stage' ready heq hg =>
    have h0 := hstarted (.inr (by simp [heq]))
    obtain ⟨hcount, hmoves⟩ := hg.moves
    refine ⟨honce, fun h => absurd h h0, fun h => ?_, hunk, fun e he => hknown e ?_⟩
    · have := hone h
      simp only [readiness, heq, List.countP_append, List.countP_cons] at this ⊢
      grind
    · rw [heq]
      grind
  | forgets heq =>
    have h0 := hstarted (.inr (by simp [heq]))
    refine ⟨honce, fun h => absurd h h0, fun h => ?_, hunk, fun e he => hknown e ?_⟩
    · simpa [readiness, heq, List.countP_cons, Stage.passing] using hone h
    · rw [heq]
      grind
  | _ => exact ⟨honce, hun, hone, hunk, hknown⟩

theorem Reached.answers (h : Reached unix o) : Answers o := by
  induction h with
  | refl => exact ⟨by simp, by simp, by simp, by simp, by simp⟩
  | tail _ hst ih => exact ih.step hst

/-- **Every connection is told the one readiness of the one start.**  The service is started at most
once.  A relay is told only what `waitReady` returned, and once that is known it is in the channel,
or with one relay alone, which finds the channel empty to put it back. -/
theorem readiness_shared (h : Reached unix o) :
    o.starts ≤ 1 ∧ (∀ stage ∈ o.relays, ∀ err, stage.Knows err → o.result = some err) ∧
      ∀ err, o.result = some err →
        (o.ready = some err ∧ ∀ stage ∈ o.relays, stage.passing = false) ∨
        (o.ready = none ∧ o.relays.countP Stage.passing = 1) := by
  obtain ⟨honce, hun, hone, hunk, hknown⟩ := h.answers
  refine ⟨honce, fun stage hs err he => hknown err (.inr ⟨stage, hs, he⟩), fun err herr => ?_⟩
  have h0 : o.starts ≠ 0 := fun h => by simp [(hun h).2.2.2] at herr
  have hc : o.checking = false := Bool.eq_false_iff.mpr fun hc => by simp [hunk hc] at herr
  have hcount := hone h0
  rw [readiness, hc] at hcount
  cases hr : o.ready with
  | none => exact .inr ⟨rfl, by simpa [hr] using hcount⟩
  | some e =>
    cases herr.symm.trans (hknown e (.inl hr))
    have hzero : o.relays.countP Stage.passing = 0 := by simpa [hr] using hcount
    exact .inl ⟨rfl, fun stage hs => by simpa using List.countP_eq_zero.mp hzero stage hs⟩

/-- A service is ready, and its first connection waits. -/
def oneWaits : OnDemand String where
  unix := true
  listening := false
  starts := 1
  result := some none
  ready := some none
  relays := [.waits]

theorem reached_oneWaits : Reached true oneWaits :=
  ((Relation.ReflTransGen.refl.tail (.accepts rfl rfl rfl)).tail (.starts rfl rfl)).tail
    (.checked none rfl rfl)

theorem readiness_shared_oneWaits :
    oneWaits.ready = some none ∧ ∀ stage ∈ oneWaits.relays, stage.passing = false :=
  ((readiness_shared reached_oneWaits).2.2 none rfl).resolve_right fun h => by cases h.1

/-! ### Its stop -/

def ranks : List (Stage ε) → Nat
  | [] => 0
  | stage :: rest => stage.rank + ranks rest

@[simp] theorem ranks_append (l l' : List (Stage ε)) : ranks (l ++ l') = ranks l + ranks l' := by
  induction l with
  | nil => simp [ranks]
  | cons stage rest ih => simp [ranks, ih, Nat.add_assoc]

/-- How many steps are left at most, from `stop` on. -/
def left (o : OnDemand ε) : Nat :=
  ranks o.relays + o.checking.toNat + 8 * o.accepted.toNat + o.serving.toNat +
    (!o.cancelled).toNat +
    match o.stop with
    | .uncalled => 3
    | .joins => 2
    | .waits => 1
    | .returned => 0

/-- What holds as `stop` goes on. -/
structure Stopping (o : OnDemand ε) : Prop where
  unheard : o.stop ≠ .uncalled → o.listening = false
  served : o.serving = false → o.accepted = false
  joined : o.stop = .waits ∨ o.stop = .returned → o.serving = false
  gone : o.stop = .returned → o.relays = [] ∧ o.checking = false ∧
    o.stopped = decide (o.starts ≠ 0) ∧ o.removed = (decide (o.starts = 0) && o.unix)

theorem Stopping.step (h : Stopping o) (hst : Step o o') : Stopping o' := by
  obtain ⟨hun, hserved, hjoin, hgone⟩ := h
  cases hst with
  | accepts hs => exact ⟨hun, by simp [hs], hjoin, hgone⟩
  | refuses => exact ⟨hun, fun _ => rfl, hjoin, hgone⟩
  | starts ha | holds ha =>
    exact ⟨fun h => by simp [hun h], fun _ => rfl, hjoin, fun h =>
      absurd (hserved (hjoin (.inr h))) (by simp [ha])⟩
  | serveEnds _ ha => exact ⟨hun, fun _ => ha, fun _ => rfl, hgone⟩
  | checked _ hc =>
    exact ⟨fun h => by simp [hun h], hserved, hjoin, fun h => absurd (hgone h).2.1 (by simp [hc])⟩
  | relays heq | forgets heq =>
    exact ⟨hun, hserved, hjoin, fun h => absurd (hgone h).1 (by simp [heq])⟩
  | cancels => exact ⟨hun, hserved, hjoin, hgone⟩
  | stopCalled => exact ⟨fun _ => rfl, hserved, by simp, by simp⟩
  | stopCloses h hs => exact ⟨fun _ => hun (by simp [h]), hserved, fun _ => hs, by simp⟩
  | stopReturns h hr hc =>
    exact ⟨fun _ => hun (by simp [h]), hserved, fun _ => hjoin (.inl h),
      fun _ => ⟨hr, hc, rfl, rfl⟩⟩

theorem Reached.stopping (h : Reached unix o) : Stopping o := by
  induction h with
  | refl => exact ⟨by simp, by simp, by simp, by simp⟩
  | tail _ hst ih => exact ih.step hst

theorem Stopping.left_lt (h : Stopping o) (hs : o.stop ≠ .uncalled) (hst : Step o o') :
    o'.left < o.left := by
  cases hst with
  | accepts _ hl => simp [h.unheard hs] at hl
  | refuses ha => simp [left, ha]
  | starts ha | holds ha =>
    simp only [left, ha, ranks_append, ranks, Stage.rank, Bool.toNat_true, Bool.toNat_false]
    omega
  | serveEnds hserve => simp [left, hserve]
  | checked _ hc => simp [left, hc]
  | relays heq hg =>
    have := hg.rank_lt
    simp [left, heq, ranks]
    omega
  | forgets heq => simp [left, heq, ranks, Stage.rank]
  | cancels hc => simp [left, hc]
  | stopCalled h0 => exact absurd h0 hs
  | stopCloses h0 | stopReturns h0 => simp [left, h0]

/-- Some goroutine can go on, without the context being done. -/
def Goes (o : OnDemand ε) : Prop := ∃ o', Step o o' ∧ o'.cancelled = o.cancelled

theorem Answers.empty (h : Answers o) (h0 : o.starts ≠ 0)
    (hp : o.checking = true ∨ 0 < o.relays.countP Stage.passing) : o.ready = none := by
  have hone := h.one h0
  cases hr : o.ready with
  | none => rfl
  | some err => rcases hp with hc | hp <;> simp [readiness, *] at hone <;> omega

theorem Answers.goes (h : Answers o) (hleft : o.checking = true ∨ o.relays ≠ []) : o.Goes := by
  have h0 := h.started hleft
  by_cases hc : o.checking = true
  · exact ⟨_, .checked none hc (h.empty h0 (.inl hc)), rfl⟩
  obtain ⟨stage, rest, heq⟩ := List.exists_cons_of_ne_nil (hleft.resolve_left hc)
  by_cases hp : 0 < o.relays.countP Stage.passing
  · -- The readiness is put back.
    obtain ⟨stage, hs, hpass⟩ := List.countP_pos_iff.mp hp
    obtain ⟨before, after, hsplit⟩ := List.append_of_mem hs
    cases stage with
    | took err => exact ⟨_, .relays hsplit (.passes err (h.empty h0 (.inr hp))), rfl⟩
    | _ => cases hpass
  have hrelay : ∀ {ready : Option (Option ε)} {stage' : Stage ε},
      Stage.Goes o.cancelled o.ready stage ready stage' → o.Goes :=
    fun hg => ⟨_, .relays (show _ = [] ++ _ from heq) hg, rfl⟩
  cases stage with
  | waits =>
    have hone := h.one h0
    cases hready : o.ready with
    | some err => exact hrelay (.takes err hready)
    | none => simp [readiness, hc, hready] at hone; omega
  | took err => simp [heq, Stage.passing] at hp
  | told err => exact hrelay (.drops err)
  | dialed => exact hrelay .registers
  | copies => exact hrelay .ends
  | leaves => exact ⟨_, .forgets (show _ = [] ++ _ from heq), rfl⟩

/-- **A stop ends, and leaves nothing.**  From its call on, whichever goroutine's step leaves fewer
to come, and until `stop` has returned there is one: it ends as long as the ready check, the copies
and the supervisor's `stop` do.  Then `serve`, the relays and the check have
ended; the service is stopped if it was started, and else a socket's file is removed. -/
theorem stop_ends (h : Reached unix o) (hs : o.stop ≠ .uncalled) :
    (∀ o', Step o o' → o'.left < o.left) ∧ (o.stop ≠ .returned → o.Goes) ∧
      (o.stop = .returned → o.serving = false ∧ o.listening = false ∧ o.relays = [] ∧
        o.checking = false ∧ o.stopped = decide (o.starts ≠ 0) ∧
        o.removed = (decide (o.starts = 0) && o.unix)) := by
  have hst := h.stopping
  refine ⟨fun o' => hst.left_lt hs, fun hne => ?_, fun hr =>
    ⟨hst.joined (.inr hr), hst.unheard hs, hst.gone hr⟩⟩
  by_cases ha : o.accepted = true
  · by_cases h0 : o.starts = 0
    · exact ⟨_, .starts ha h0, rfl⟩
    · exact ⟨_, .refuses ha h0, rfl⟩
  by_cases hserve : o.serving = true
  · exact ⟨_, .serveEnds hserve (by simpa using ha), rfl⟩
  by_cases hleft : o.checking = true ∨ o.relays ≠ []
  · exact h.answers.goes hleft
  obtain ⟨hc, hr⟩ := not_or.mp hleft
  cases hstop : o.stop with
  | uncalled => exact absurd hstop hs
  | joins => exact ⟨_, .stopCloses hstop (by simpa using hserve), rfl⟩
  | waits => exact ⟨_, .stopReturns hstop (by simpa using hr) (by simpa using hc), rfl⟩
  | returned => exact absurd hstop hne

theorem stop_ends_oneWaits : Goes { oneWaits with stop := .joins } :=
  (stop_ends (reached_oneWaits.tail (.stopCalled rfl)) (by simp)).2.1 (by simp)

end OnDemand

end Init

end Fern

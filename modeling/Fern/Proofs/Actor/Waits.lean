/-
Actors never wait in a circle.

An actor only ever calls boxes whose names are longer than its own: a fork's name and an agent box's
begin with the name they belong to.  A watch waits for its own actor alone, and not once it is
cancelled, and an actor waits for its watch only after it has cancelled it.  So along every wait a
number grows: the name's length for actors, with room for a watch that waits just below its actor
and for one that doesn't just above.
-/
import Fern.Actor.Waits

namespace Fern

open Waits

namespace Waits

/-! ### Whom an actor may call -/

def Todo.callee : Todo → Option String
  | .call box _ => some box
  | _ => none

/-- The boxes an actor waits for, and those it is still to call. -/
def Stage.callees : Stage → List String
  | .work todo | .joining todo => todo.filterMap Todo.callee
  | .calling callee _ _ todo => callee :: todo.filterMap Todo.callee

theorem length_lt_forkID (box : String) (n : Nat) : box.length < (forkID box n).length := by
  simp only [forkID, forkInfix, String.length_ofList, List.length_append, String.length_toList,
    List.length_cons, List.length_nil]
  omega

theorem length_lt_agentBox (box : String) : box.length < (agentBox box).length := by
  simp only [agentBox, agentSuffix, String.length_ofList, List.length_append, String.length_toList,
    List.length_cons, List.length_nil]
  omega

theorem callee_of_program {box callee : String} {forks : List Nat} {change : Change}
    (h : callee ∈ (program box forks change).filterMap Todo.callee) :
    (∃ n, callee = forkID box n) ∨ callee = agentBox box := by
  cases change <;> simp [program, Todo.callee] at h
  case delete =>
    rcases h with ⟨n, _, hn⟩ | hagent
    · exact .inl ⟨n, hn.symm⟩
    · exact .inr hagent.symm
  case fork =>
    obtain ⟨n, _, hn⟩ := h
    exact .inl ⟨n, hn.symm⟩
  case restore => exact .inr h.symm
  case sleep => exact .inr h.2.symm

theorem length_lt_of_program {box callee : String} {forks : List Nat} {change : Change}
    (h : callee ∈ (program box forks change).filterMap Todo.callee) :
    box.length < callee.length := by
  rcases callee_of_program h with ⟨n, hcallee⟩ | hcallee
  · rw [hcallee]
    exact length_lt_forkID box n
  · rw [hcallee]
    exact length_lt_agentBox box

/-- Whether a watch waits for its actor. -/
def Watch.waits (w : Watch) : Bool :=
  w.pc = .sent || (w.pc = .sending && !w.cancelled)

end Waits

namespace Actors

/-! ### What holds of each box -/

/-- What `a`'s actor does goes with where its watch is. -/
structure Fits (a : String) (d : Option Doing) (w : Option Watch) : Prop where
  longer : ∀ x ∈ d, ∀ callee ∈ x.stage.callees, a.length < callee.length
  cancelled : ∀ caller todo, d = some ⟨caller, .joining todo⟩ → ∃ pc, w = some ⟨true, pc⟩
  touch : ∀ c, w = some ⟨c, .sent⟩ → d = some ⟨.watch, .work []⟩

/-- Every box's actor goes with its watch. -/
def Sound (s : Actors) : Prop := ∀ a, Fits a (s.doing a) (s.watch a)

theorem Fits.idle {a : String} {w : Option Watch} (h : ∀ c, w ≠ some ⟨c, .sent⟩) :
    Fits a none w := by
  refine ⟨?_, ?_, ?_⟩
  · intro x hx
    simp at hx
  · intro caller todo hd
    simp at hd
  · intro c hw
    exact absurd hw (h c)

/-- An actor at work, unless on a touch, has no touch of its watch. -/
theorem Fits.work {a : String} {caller : Caller} {todo : List Todo} {w : Option Watch}
    (hlonger : ∀ callee ∈ todo.filterMap Todo.callee, a.length < callee.length)
    (h : ∀ c, w ≠ some ⟨c, .sent⟩) : Fits a (some ⟨caller, .work todo⟩) w := by
  refine ⟨?_, ?_, ?_⟩
  · intro x hx callee hcallee
    obtain rfl := Option.mem_some.mp hx
    exact hlonger callee hcallee
  · intro c t hd
    simp at hd
  · intro c hw
    exact absurd hw (h c)

section Steps

variable {s s' : Actors} {a : String} {d : Option Doing} {w : Option Watch}

theorem Sound.setDoing (h : Sound s) (ha : Fits a d (s.watch a)) : Sound (s.setDoing a d) := by
  intro b
  by_cases hb : b = a
  · subst hb
    simpa [Actors.setDoing] using ha
  · simpa [Actors.setDoing, Function.update_of_ne hb] using h b

theorem Sound.setWatch (h : Sound s) (ha : Fits a (s.doing a) w) : Sound (s.setWatch a w) := by
  intro b
  by_cases hb : b = a
  · subst hb
    simpa [Actors.setWatch] using ha
  · simpa [Actors.setWatch, Function.update_of_ne hb] using h b

theorem Sound.set (h : Sound s) (ha : Fits a d w) : Sound ((s.setDoing a d).setWatch a w) := by
  intro b
  by_cases hb : b = a
  · subst hb
    simpa [Actors.setDoing, Actors.setWatch] using ha
  · simpa [Actors.setDoing, Actors.setWatch, Function.update_of_ne hb] using h b

theorem Sound.not_sent (h : Sound s) (hd : s.doing a ≠ some ⟨.watch, .work []⟩) :
    ∀ c, s.watch a ≠ some ⟨c, .sent⟩ :=
  fun c hw => hd ((h a).touch c hw)

theorem Sound.longer (h : Sound s) {x : Doing} (hx : s.doing a = some x) {callee : String}
    (hc : callee ∈ x.stage.callees) : a.length < callee.length :=
  (h a).longer x hx callee hc

theorem Sound.goesOn (h : Sound s) {x y : Doing} (hx : s.doing a = some x)
    (hy : ∀ c ∈ y.stage.callees, c ∈ x.stage.callees) (hjoin : ∀ todo, y.stage ≠ .joining todo)
    (hw : ∀ c, w ≠ some ⟨c, .sent⟩) : Fits a (some y) w := by
  refine ⟨?_, ?_, fun c hsent => absurd hsent (hw c)⟩
  · intro z hz callee hc
    obtain rfl := Option.mem_some.mp hz
    exact h.longer hx (hy callee hc)
  · intro caller todo hd
    exact absurd (congrArg Doing.stage (Option.some.inj hd)) (hjoin todo)

theorem Sound.answer (h : Sound s) (ok : Bool) (p : String) : Sound (s.answer a ok (.actor p)) := by
  simp only [Actors.answer]
  split
  · rename_i caller callee change taken todo hp
    have htodo : ∀ c ∈ (if ok then todo else []).filterMap Todo.callee,
        c ∈ (Stage.calling callee change taken todo).callees := by
      intro c hc
      cases ok with
      | false => simp at hc
      | true => exact List.mem_cons_of_mem _ hc
    have hsent := h.not_sent (a := p) (by simp [hp])
    exact h.setDoing (h.goesOn hp htodo (by simp) hsent)
  · exact h

/-- A change's end leaves its actor idle, and its watch, if that called, no longer waiting. -/
theorem Sound.ends (h : Sound s) {caller : Caller} (hd : s.doing a = some ⟨caller, .work []⟩)
    (ok : Bool) : Sound ((s.setDoing a none).answer a ok caller) := by
  cases caller with
  | other =>
    exact h.setDoing (Fits.idle (h.not_sent (by simp [hd])))
  | actor p =>
    have hidle : Sound (s.setDoing a none) := h.setDoing (Fits.idle (h.not_sent (by simp [hd])))
    exact hidle.answer ok p
  | watch =>
    simp only [Actors.answer]
    split
    · exact h.set (Fits.idle (by simp))
    · rename_i hw
      have hw : s.watch a = none := hw
      exact h.setDoing (Fits.idle (by simp [hw]))

theorem Sound.actorStep (h : Sound s) (step : ActorStep a s s') : Sound s' := by
  cases step with
  | takes c forks hd =>
    exact h.setDoing (Fits.work (fun _ hc => length_lt_of_program hc) (h.not_sent (by simp [hd])))
  | stops hd =>
    exact h.setDoing (Fits.work (by simp [Todo.callee]) (h.not_sent (by simp [hd])))
  | takesTouch hd hw hat =>
    refine h.set ⟨by simp [program, Stage.callees], by simp, ?_⟩
    intro c _
    rfl
  | calls hd =>
    exact h.setDoing (h.goesOn hd (by simp [Stage.callees, Todo.callee]) (by simp)
      (h.not_sent (by simp [hd])))
  | @taken caller callee change todo forks hd hidle =>
    have hcaller : Sound (s.setDoing a (some ⟨caller, .calling callee change true todo⟩)) :=
      h.setDoing (h.goesOn hd (fun _ hc => hc) (by simp) (h.not_sent (by simp [hd])))
    exact hcaller.setDoing
      (Fits.work (fun _ hc => length_lt_of_program hc) (h.not_sent (by simp [hidle])))
  | givesUp hd => exact h.setDoing (Fits.work (by simp) (h.not_sent (by simp [hd])))
  | fails hd =>
    refine h.setDoing ⟨by simp [Stage.callees], by simp, ?_⟩
    intro c hw
    rw [(h a).touch c hw] at hd
    simp only [Option.some.injEq, Doing.mk.injEq] at hd
    rw [hd.1]
  | wakesWatched hd _ _ hw =>
    exact h.set (h.goesOn hd (by simp [Stage.callees, Todo.callee]) (by simp) (by simp))
  | wakes hd =>
    exact h.setDoing (h.goesOn hd (by simp [Stage.callees, Todo.callee]) (by simp)
      (h.not_sent (by simp [hd])))
  | unwatched hd hw =>
    exact h.setDoing (h.goesOn hd (by simp [Stage.callees, Todo.callee]) (by simp)
      (h.not_sent (by simp [hd])))
  | @cancels caller todo w hd hw =>
    have hsent := h.not_sent (a := a) (by simp [hd])
    refine h.set ⟨?_, fun _ _ _ => ⟨w.pc, rfl⟩, ?_⟩
    · intro x hx callee hc
      obtain rfl := Option.mem_some.mp hx
      exact h.longer hd (by simpa [Stage.callees, Todo.callee] using hc)
    · intro c hc
      have hat : w.pc = .sent := by simpa using congrArg (Option.map Watch.pc) hc
      exact absurd (by rw [hw, ← hat]) (hsent w.cancelled)
  | joined hd hw => exact h.set (h.goesOn hd (fun _ hc => hc) (by simp) (by simp))
  | ends ok hd => exact h.ends hd ok

theorem Sound.watchMoves (h : Sound s) {c c' : Bool} {pc pc' : Watching}
    (hw : s.watch a = some ⟨c, pc⟩) (hc : c = true → c' = true)
    (hat : pc' = .sent → pc = .sent) : Sound (s.setWatch a (some ⟨c', pc'⟩)) := by
  refine h.setWatch ⟨(h a).longer, ?_, ?_⟩
  · intro caller todo hd
    obtain ⟨_, hcancelled⟩ := (h a).cancelled caller todo hd
    rw [hw] at hcancelled
    simp only [Option.some.injEq, Watch.mk.injEq] at hcancelled
    exact ⟨pc', by rw [hc hcancelled.1]⟩
  · intro c hsent
    simp only [Option.some.injEq, Watch.mk.injEq] at hsent
    exact (h a).touch _ (by rw [hw, hat hsent.2])

theorem Sound.watchStep (h : Sound s) (step : WatchStep a s s') : Sound s' := by
  cases step with
  | sees hw => exact h.watchMoves hw id (by simp)
  | breaks hw => exact h.watchMoves hw (fun _ => rfl) id
  | drops hw => exact h.watchMoves hw id (by simp)
  | touched hw => exact h.watchMoves hw id (by simp)
  | quits hw => exact h.watchMoves hw id (by simp)

theorem Reach.sound (h : Reach s) : Sound s := by
  induction h with
  | start => exact fun a => Fits.idle (by simp)
  | actor a _ step ih => exact ih.actorStep step
  | watch a _ step ih => exact ih.watchStep step

/-! ### A number that grows along every wait -/

/-- A watch that waits is just below its actor, another just above. -/
def rank (s : Actors) : Party → Nat
  | .actor a => 3 * a.length + 1
  | .watch a => if (s.watch a).any Watch.waits then 3 * a.length else 3 * a.length + 2

theorem WaitsFor.rank_lt {p q : Party} (h : Sound s) (hw : WaitsFor s p q) :
    s.rank p < s.rank q := by
  cases hw with
  | @calls a caller callee change taken todo hd =>
    have hlonger : a.length < callee.length := h.longer hd (by simp [Stage.callees])
    simp only [rank]
    omega
  | @joins a caller todo w hd hwatch hended =>
    have hwaits : (s.watch a).any Watch.waits = false := by
      obtain ⟨pc, hcancelled⟩ := (h a).cancelled caller todo hd
      have hsent : pc ≠ .sent := by
        rintro rfl
        have := (h a).touch _ hcancelled
        simp [hd] at this
      simp [hcancelled, Watch.waits, hsent]
    simp [rank, hwaits]
  | sends hwatch =>
    simp [rank, hwatch, Watch.waits]
  | sent hwatch =>
    simp [rank, hwatch, Watch.waits]

theorem rank_lt_of_waits {p q : Party} (h : Sound s) (hw : Relation.TransGen s.WaitsFor p q) :
    s.rank p < s.rank q := by
  induction hw with
  | single hstep => exact hstep.rank_lt h
  | tail _ hstep ih => exact ih.trans (hstep.rank_lt h)

/-! ### A stop goes on -/

/-- A step of `a`'s actor or of its watch. -/
def Own (a : String) (s s' : Actors) : Prop := ActorStep a s s' ∨ WatchStep a s s'

/-- By `a`'s own steps its actor comes to `todo`. -/
def GoesOn (s : Actors) (a : String) (caller : Caller) (todo : List Todo) : Prop :=
  ∃ s', Relation.ReflTransGen (Own a) s s' ∧ s'.doing a = some ⟨caller, .work todo⟩

variable {caller : Caller} {todo : List Todo} {c : Bool}

theorem GoesOn.head (hstep : Own a s s') (h : GoesOn s' a caller todo) :
    GoesOn s a caller todo := by
  obtain ⟨t, hrun, hd⟩ := h
  exact ⟨t, hrun.head hstep, hd⟩

theorem goesOn_of_ended (hd : s.doing a = some ⟨caller, .joining todo⟩)
    (hw : s.watch a = some ⟨c, .ended⟩) : GoesOn s a caller todo :=
  GoesOn.head (.inl (.joined hd hw)) ⟨_, .refl, by simp [setDoing, setWatch]⟩

theorem goesOn_of_watching (hd : s.doing a = some ⟨caller, .joining todo⟩)
    (hw : s.watch a = some ⟨c, .watching⟩) : GoesOn s a caller todo :=
  GoesOn.head (.inr (.quits hw)) (goesOn_of_ended (c := c) hd (by simp [setWatch]))

theorem Sound.joining_goesOn (h : Sound s) (hd : s.doing a = some ⟨caller, .joining todo⟩) :
    GoesOn s a caller todo := by
  obtain ⟨pc, hw⟩ := (h a).cancelled caller todo hd
  cases pc with
  | watching => exact goesOn_of_watching hd hw
  | sending =>
    -- its context is done, so it needn't wait for the actor to take the touch
    exact GoesOn.head (.inr (.drops hw))
      (goesOn_of_watching (c := true) hd (by simp [Actors.setWatch]))
  | sent =>
    -- the actor would be on the touch
    have := (h a).touch _ hw
    simp [hd] at this
  | touching =>
    exact GoesOn.head (.inr (.touched hw))
      (goesOn_of_watching (c := true) hd (by simp [Actors.setWatch]))
  | ended => exact goesOn_of_ended hd hw

theorem Sound.stopWatch_goesOn (h : Sound s)
    (hd : s.doing a = some ⟨caller, .work (.stopWatch :: todo)⟩) : GoesOn s a caller todo := by
  cases hw : s.watch a with
  | none => exact GoesOn.head (.inl (.unwatched hd hw)) ⟨_, .refl, by simp [Actors.setDoing]⟩
  | some w =>
    have hstep : ActorStep a s _ := .cancels hd hw
    exact GoesOn.head (.inl hstep)
      ((h.actorStep hstep).joining_goesOn (by simp [Actors.setDoing, Actors.setWatch]))

end Steps

/-- **No actors or watches wait in a circle, and a box's stop always goes on.** -/
theorem no_waiting_cycle (s : Actors) (h : Reach s) :
    (∀ p, ¬ Relation.TransGen s.WaitsFor p p) ∧
    ∀ a caller todo,
      (s.doing a = some ⟨caller, .work (.stopWatch :: todo)⟩ ∨
        s.doing a = some ⟨caller, .joining todo⟩) →
      GoesOn s a caller todo := by
  refine ⟨?_, ?_⟩
  · intro p hcycle
    exact lt_irrefl _ (rank_lt_of_waits h.sound hcycle)
  · intro a caller todo hd
    rcases hd with hd | hd
    · exact h.sound.stopWatch_goesOn hd
    · exact h.sound.joining_goesOn hd

/-- `demo` is put to sleep while its watch hands it a touch. -/
theorem no_waiting_cycle_touch : ∃ s, Reach s ∧ s.watch "demo" = some ⟨true, .sending⟩ ∧
    s.WaitsFor (.actor "demo") (.watch "demo") ∧ (∀ p, ¬ Relation.TransGen s.WaitsFor p p) ∧
    GoesOn s "demo" .other [.call "demo.agent" .stopAgent] := by
  have hwake := Reach.start.actor "demo" (.takes .wake [] rfl)
  have hwoken := hwake.actor "demo" (.wakesWatched rfl (by decide) (by decide) rfl)
  have hidle := hwoken.actor "demo" (.ends true rfl)
  have htouch := hidle.watch "demo" (.sees rfl)
  have hsleep := htouch.actor "demo" (.takes .sleep [] rfl)
  have hstop := hsleep.actor "demo" (.cancels rfl rfl)
  obtain ⟨hcycle, hgoes⟩ := no_waiting_cycle _ hstop
  exact ⟨_, hstop, rfl, .joins rfl rfl (by decide), hcycle, hgoes "demo" .other _ (.inr rfl)⟩

end Actors

end Fern

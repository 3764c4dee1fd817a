/-
What the golden builder deletes, and what a backup leaves out.

An environment's ID is all that tells whose it is.  The golden builder deletes what has a source's
ID, with its forks; a backup leaves out what has a builder's.  Callers may give such IDs.
-/
import Fern.Actor.Golden
import Fern.Proofs.Backup.Restorable

namespace Fern

open List

namespace Goldens

variable {s s' : Goldens} {id root : EnvID}

/-! ### IDs -/

theorem forkOf_eq {p : EnvID} {n : Nat} (h : forkOf id = some (p, n)) :
    p.toList <+: id.toList ∧ ∃ c, id.toList.getLast? = some c ∧ c.isDigit = true := by
  unfold forkOf at h
  split at h
  case h_1 => cases h
  case h_2 number parent hcut =>
    dsimp only at h
    split at h
    case isFalse => cases h
    case isTrue hn =>
      obtain ⟨rfl, -⟩ := Prod.mk.inj (Option.some.inj h)
      obtain ⟨-, hpos, -, hdigits⟩ := hn
      have hrev := congrArg List.reverse (cutText_eq_some hcut)
      rw [reverse_reverse, reverse_append, reverse_append] at hrev
      rw [String.toList_ofList, hrev]
      refine ⟨prefix_append _ _, ?_⟩
      -- no digits are no number
      cases hlast : number.reverse.getLast? with
      | none =>
        rw [getLast?_eq_none_iff.mp hlast] at hpos
        exact absurd hpos (by decide)
      | some c =>
        refine ⟨c, by simp [getLast?_append, hlast], ?_⟩
        have hmem := mem_of_getLast? hlast
        rw [← hdigits] at hmem
        exact Nat.isDigit_of_mem_toDigits (by omega) (by omega) hmem

theorem Under.start (h : Under root id) : root.toList <+: id.toList := by
  induction h with
  | self => exact prefix_rfl
  | fork hfork _ ih => exact ih.trans (forkOf_eq hfork).1

theorem checkEnvID_of_start (h : checkEnvID id = true) (hstart : root.toList <+: id.toList)
    (hlast : ∃ c, root.toList.getLast? = some c ∧ labelChar c = true) :
    checkEnvID root = true := by
  obtain ⟨rest, hrest⟩ := hstart
  obtain ⟨last, hlast, hlabel⟩ := hlast
  unfold checkEnvID at h ⊢
  rw [← hrest] at h
  cases hroot : root.toList with
  | nil =>
    rw [hroot] at hlast
    cases hlast
  | cons c l =>
    rw [hroot] at h hlast
    simp only [cons_append, Bool.and_eq_true, Bool.or_eq_true, decide_eq_true_eq,
      all_eq_true] at h ⊢
    refine ⟨h.1, ?_⟩
    cases l with
    | nil => exact .inl rfl
    | cons c' l =>
      right
      obtain hnil | ⟨⟨hlen, hall⟩, hend⟩ := h.2
      · simp at hnil
      · rw [length_append] at hlen
        refine ⟨⟨by omega, fun x hx => ?_⟩, ?_⟩
        · -- every character of the ID is a dash or one a label may end with
          have hmem : x ∈ (c' :: l) ++ rest := mem_append_left _ (mem_of_mem_dropLast hx)
          by_cases hx : some x = ((c' :: l) ++ rest).getLast?
          · right
            rw [← hx] at hend
            simpa using hend
          · exact hall x (mem_dropLast_of_mem_of_ne_getLast? hmem hx)
        · rw [getLast?_cons_cons] at hlast
          rw [hlast]
          simpa using hlabel

theorem builderOf_last (h : (builderOf root).isSome) : root.toList.getLast? = some 'c' := by
  unfold builderOf at h
  split at h
  case isTrue hsource =>
    simp only [Bool.and_eq_true] at hsource
    obtain ⟨l, hl⟩ := isSuffixOf_iff_suffix.mp hsource.2
    rw [← hl, sourceSuffix, getLast?_append]
    rfl
  case isFalse => cases h

theorem builderOf_fork {p : EnvID} {n : Nat} (h : forkOf id = some (p, n)) :
    builderOf id = none := by
  obtain ⟨c, hc, hdigit⟩ := (forkOf_eq h).2
  by_contra hsome
  rw [builderOf_last (Option.isSome_iff_ne_none.mpr hsome)] at hc
  cases hc
  exact absurd hdigit (by decide)

theorem checkEnvID_of_under {e : EnvID} (hid : checkEnvID id = true)
    (hsource : (builderOf root).isSome)
    (hroot : Under root e) (hunder : Under e id) : checkEnvID e = true := by
  refine checkEnvID_of_start hid hunder.start ?_
  cases hroot with
  | self => exact ⟨'c', builderOf_last hsource, by decide⟩
  | fork hfork _ =>
    obtain ⟨c, hc, hdigit⟩ := (forkOf_eq hfork).2
    exact ⟨c, hc, by simp [labelChar, hdigit]⟩

theorem TakenForSource.isBuilder (h : TakenForSource id) : isBuilder id = true := by
  obtain ⟨root, hsource, hunder⟩ := h
  unfold builderOf at hsource
  split at hsource
  case isTrue hroot =>
    rw [Bool.and_eq_true] at hroot
    exact isPrefixOf_iff_prefix.mpr
      (( isPrefixOf_iff_prefix.mp hroot.1).trans hunder.start)
  case isFalse => cases hsource

/-! ### What is deleted -/

/-- What the golden builder is about to delete has a source's ID. -/
def Phase.Sources : Phase → Prop
  | .clearing todo => ∀ id ∈ todo, (builderOf id).isSome
  | .deleting src => (builderOf src).isSome
  | _ => True

/-- What a step of the golden builder does to the environments: it makes one that wasn't there, or
deletes one that is taken for a source or a fork of one. -/
theorem Golden.made (h : Golden s s') (hs : s.phase.Sources) :
    s'.made = s.made ∨ (∃ b, s' = s.provide b) ∨
      ∃ id, TakenForSource id ∧ s'.made = Function.update s.made id none := by
  have hqueue : ∀ src unsourced deleted, (s.queueBuild src unsourced deleted).made = s.made ∨
      ∃ id, TakenForSource id ∧
        (s.queueBuild src unsourced deleted).made = Function.update s.made id none := by
    intro src unsourced deleted
    unfold queueBuild
    split
    case isTrue => exact .inl rfl
    case isFalse =>
      split
      case isTrue => exact .inl rfl
      case isFalse =>
        split
        case isTrue hdrop =>
          rw [Bool.and_eq_true] at hdrop
          exact .inr ⟨src, ⟨src, hdrop.1, .self⟩, rfl⟩
        case isFalse => exact .inl rfl
  cases h with
  | finds | lists | cleared | waits | takes | deleted => exact .inl rfl
  | queues unsourced deleted hphase => exact (hqueue _ unsourced deleted).imp id .inr
  | asks src unsourced deleted => exact (hqueue src unsourced deleted).imp id .inr
  | provides builder => exact .inr (.inl ⟨builder, rfl⟩)
  | @clears root todo id hphase hunder =>
    rw [hphase] at hs
    exact .inr (.inr ⟨id, ⟨root, hs root mem_cons_self, hunder.1⟩, rfl⟩)
  | built unsourced =>
    left
    cases unsourced with
    | true => rfl
    | false => rfl
  | @deletes src id hphase hunder =>
    rw [hphase] at hs
    exact .inr (.inr ⟨id, ⟨src, hs, hunder.1⟩, rfl⟩)

theorem Golden.sources (h : Golden s s') (hs : s.phase.Sources) : s'.phase.Sources := by
  have hqueue : ∀ src unsourced deleted,
      (s.queueBuild src unsourced deleted).phase = s.phase := by
    intro src unsourced deleted
    unfold queueBuild
    split
    · rfl
    · split
      · rfl
      · split
        · rfl
        · rfl
  cases h with
  | finds | queues | waits | takes | deleted => trivial
  | lists todo hphase htodo =>
    intro id hid
    rcases htodo with rfl | htodo
    · cases hid
    · exact ((htodo id).mp hid).2.1
  | clears => exact hs
  | cleared hphase =>
    rw [hphase] at hs
    exact fun id hid => hs id (mem_cons_of_mem _ hid)
  | provides => exact hs
  | @built src unsourced hphase =>
    dsimp only
    split
    case isTrue hsource => exact hsource
    case isFalse => trivial
  | deletes => exact hs
  | asks src unsourced deleted =>
    rw [hqueue]
    exact hs

theorem Reach.sources (h : Reach s) : s.phase.Sources := by
  induction h with
  | start h => rw [h.phase]; trivial
  | golden _ hstep ih => exact hstep.sources ih
  | others _ hstep ih => cases hstep <;> exact ih

theorem Reach.kept (h : Reach s) (hstep : Golden s s') (hid : ¬ TakenForSource id)
    (hmade : s.made id = some .caller) : s'.made id = some .caller := by
  rcases hstep.made h.sources with hsame | ⟨b, rfl⟩ | ⟨gone, htaken, hgone⟩
  · rw [hsame, hmade]
  · by_cases hb : id = b
    · subst hb
      simp [provide, hmade]
    · simp [provide, hb, hmade]
  · have hne : id ≠ gone := by
      rintro rfl
      exact hid htaken
    rw [hgone, Function.update_of_ne hne, hmade]

open Classical in
/-- One that is, is deleted by a daemon that starts when callers made all from the source down to
it. -/
theorem exists_deleted (hid : checkEnvID id = true) (htaken : TakenForSource id) :
    ∃ s s', Reach s ∧ Golden s s' ∧ s.made id = some .caller ∧ s'.made id = none := by
  obtain ⟨root, hsource, hunder⟩ := htaken
  let made : EnvID → Option Maker :=
    fun e => if Under root e ∧ Under e id then some .caller else none
  have hmade : ∀ e, made e ≠ none ↔ Under root e ∧ Under e id := fun e => by simp [made]
  -- only the root has a source's ID: the others are forks
  have htodo : ∀ e, e ∈ [root] ↔ made e ≠ none ∧ (builderOf e).isSome ∧ e ∉ ([] : List EnvID) := by
    intro e
    rw [hmade, mem_singleton]
    constructor
    · rintro rfl
      exact ⟨⟨.self, hunder⟩, hsource, not_mem_nil⟩
    · rintro ⟨⟨hroot, -⟩, hbuilder, -⟩
      cases hroot with
      | self => rfl
      | fork hfork _ => simp [builderOf_fork hfork] at hbuilder
  have hstart : Start { made, source := fun _ => false } :=
    ⟨fun e he => checkEnvID_of_under hid hsource ((hmade e).mp he).1 ((hmade e).mp he).2, rfl, rfl⟩
  have hfinds := (Reach.start hstart).golden (.finds [] rfl (.inl rfl))
  have hlists := hfinds.golden (.lists [root] rfl (.inr htodo))
  refine ⟨_, _, hlists, .clears rfl ⟨hunder, fun e hroot he => (hmade e).mpr ⟨hroot, he⟩⟩, ?_, ?_⟩
  · exact if_pos ⟨hunder, .self⟩
  · simp [erase]

/-- **An environment that a caller made is kept by the golden builder, whatever it does, just when
its ID is neither a source's nor a fork's of one.  A backup that ended without an error has a chain
for each environment it listed whose ID isn't a builder's, and for no other.** -/
theorem callers_kept_iff {T : Type} [Tree T] :
    (∀ id, checkEnvID id = true →
      ((∀ s s', Reach s → Golden s s' → s.made id = some .caller → s'.made id = some .caller) ↔
        ¬ TakenForSource id)) ∧
    ∀ s : Backups T, Backups.Reach Backups.One s → ∀ i r, s.run i = some r → r.pc = .done →
      r.failed = false → ∃ m, s.w.manifest? = some m ∧
        ∀ env ∈ r.listed, (m.envs.get env.id ≠ none ↔ isBuilder env.id = false) := by
  refine ⟨fun id hid => ⟨fun hkept htaken => ?_, fun hfree s s' hs hstep hmade => ?_⟩, ?_⟩
  · obtain ⟨s, s', hs, hstep, hmade, hgone⟩ := exists_deleted hid htaken
    have := hkept s s' hs hstep hmade
    rw [hgone] at this
    cases this
  · exact hs.kept hstep hfree hmade
  · intro s hs i r hrun hpc hok
    obtain ⟨m, hm, hcovers⟩ := hs.done_covers hrun hpc hok
    refine ⟨m, hm, fun env hin => ?_⟩
    have := hcovers env hin
    cases hbuilder : isBuilder env.id with
    | true =>
      rw [hbuilder, if_pos rfl] at this
      simp [this]
    | false =>
      rw [hbuilder, if_neg Bool.false_ne_true] at this
      obtain ⟨g, eb, send, st, -, heb, -⟩ := this
      simp [heb]

/-- `demo` is kept, and the run that backed up `next` has its chain. -/
theorem callers_kept_demo :
    (∀ s s', Reach s → Golden s s' → s.made "demo" = some .caller →
      s'.made "demo" = some .caller) ∧
    ∃ m, Backups.nextBackedUp.w.manifest? = some m ∧ m.envs.get "next" ≠ none := by
  have hfree : ¬ TakenForSource "demo" := fun h => absurd h.isBuilder (by decide)
  obtain ⟨r, env, hrun, hpc, hok, hin, hid⟩ := Backups.nextBackedUp_run
  obtain ⟨hkept, hbacked⟩ := callers_kept_iff (T := List String)
  obtain ⟨m, hm, hcovers⟩ := hbacked _ Backups.reach_nextBackedUp false r hrun hpc hok
  refine ⟨(hkept "demo" (by decide)).mpr hfree, m, hm, ?_⟩
  rw [← hid]
  exact (hcovers env hin).mpr (by rw [hid]; decide)

/-- A caller makes `golden-app-src`, and the next daemon that starts deletes it. -/
theorem caller_taken_for_source : ∃ s s', Reach s ∧ Golden s s' ∧
    s.made "golden-app-src" = some .caller ∧ s'.made "golden-app-src" = none := by
  let made : EnvID → Option Maker := fun e => if e = "golden-app-src" then some .caller else none
  have hmade : ∀ e, made e ≠ none ↔ e = "golden-app-src" := fun e => by simp [made]
  have hsource : (builderOf "golden-app-src").isSome := by decide
  have hstart : Start { made, source := fun _ => false } := by
    refine ⟨fun e he => ?_, rfl, rfl⟩
    rw [(hmade e).mp he]
    decide
  have hfinds := (Reach.start hstart).golden (.finds [] rfl (.inr fun _ => by simp))
  have hlists := hfinds.golden (.lists ["golden-app-src"] rfl (.inr fun e => by
    rw [hmade, mem_singleton]
    constructor
    · rintro rfl
      exact ⟨rfl, hsource, not_mem_nil⟩
    · exact fun h => h.1))
  refine ⟨_, _, hlists, .clears rfl ⟨.self, fun e hroot he => (hmade e).mpr ?_⟩, rfl, rfl⟩
  exact String.toList_inj.mp (he.start.eq_of_length_le hroot.start.length_le)

end Goldens

end Fern

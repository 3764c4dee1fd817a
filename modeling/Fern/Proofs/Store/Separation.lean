/-
No call for one environment destroys another's workspace.

What could: a delete that stopped after it removed the row leaves a marker that names the
workspace, and whoever clears that marker deletes what is at the path, whose it has become in
the meantime.  `checkWorkspace` asks the index for the path and not the markers, so a create
can be given such a path.  As long as none is, the pool is sane in every state, and what a call
writes is never another environment's.
-/
import Fern.Proofs.Store.Reconcile
import Fern.Store.History

namespace Fern

open Call StoreM

variable {T : Type} [Tree T] {named : Prop} {s t : Pool T} {row : EnvRow} {W : Path → Prop}
  {e : EnvID}

/-! ### What a request may write -/

/-- The workspaces a request for `id` works on: its row's, its marker's, and the one a create
is given, if no row has it. -/
def Request.Workspaces (s : Pool T) (r : Request T) (id : EnvID) (w : Path) : Prop :=
  (∃ row, s.env? id = some row ∧ row.workspace = w) ∨ s.marker? id = some (some w) ∨
    ∃ opts repo name, r = .create id opts ∧ opts.workspace = some (.worktree repo name) ∧
      w = .worktree repo name ∧ s.index.envAt? w = none

/-- A new environment is given only a path that no other environment's marker names. -/
def Unclaimed (s : Pool T) (r : Request T) : Prop :=
  ∀ id opts repo name, r = .create id opts → s.env? id = none →
    opts.workspace = some (.worktree repo name) →
    ∀ e, e ≠ id → s.marker? e ≠ some (some (.worktree repo name))

/-- A restore of a workspace that is no subvolume finds the name it will keep it under free. -/
def Named (s : Pool T) (r : Request T) : Prop :=
  ∀ id snap row, r = .restore id snap → s.env? id = some row → s.Free id s.preRestore ∨
    ∃ tree b, s.node row.workspace = some (.subvol tree b)

section Request

variable {s : Pool T} {r : Request T} {id : EnvID}

omit [Tree T] in
theorem Request.Workspaces.not_other (hs : Apart s) (hrow : s.env? e = some row) (he : e ≠ id) :
    ¬ r.Workspaces s id row.workspace := by
  rintro (⟨own, hown, hws⟩ | hmark | ⟨_, _, _, _, _, _, hfree⟩)
  · exact he (Index.env?_workspace_inj hrow hown hws.symm)
  · exact he (hs.taken id row.workspace hmark e row hrow rfl)
  · exact Index.envAt?_eq_none hfree hrow rfl

omit [Tree T] in
theorem owns_atPaths {paths : List Path} (h : ∀ p ∈ paths, Path.env? p = some id) (q : Place)
    (hq : AtPaths paths q) : Owns id W q := by
  cases q with
  | node p => exact .inl (h p hq)
  | env e => exact hq.elim
  | snap e x => exact hq.elim

omit [Tree T] in
theorem owns_snapPlaces {snaps : List SnapID} (q : Place) (hq : SnapPlaces id snaps q) :
    Owns id W q := by
  obtain ⟨x, _, rfl | rfl⟩ := hq
  · exact .inl rfl
  · rfl

omit [Tree T] in
theorem owns_restores {env : EnvRow} {x : SnapID} (hws : W env.workspace) (q : Place)
    (hq : Restores s env x q) : Owns env.id W q := by
  rcases hq with ((⟨y, _, rfl | rfl⟩ | rfl) | hq) | rfl
  · exact .inl rfl
  · rfl
  · exact .inl rfl
  · exact owns_snapPlaces q hq
  · exact .inr (.inl hws)

/-- The places a request for one environment writes are that environment's, and the pool stays
sane. -/
theorem keeps_request (hs : Sane named s) (hok : Unclaimed s r) (hname : named → Named s r)
    (hid : r.env? = some id) :
    Keeps (Sound named (Owns id (r.Workspaces s id)) s) r.call s := by
  have hrefl : Sound named (Owns id (r.Workspaces s id)) s s := Sound.refl hs
  cases r with
  | reconcile => cases hid
  | create e opts =>
    cases hid
    refine keeps_bind ?_ fun _ t ht => by rw [keeps_pure]; exact ht
    rcases Create_cases id opts s with ⟨e, hrun⟩ | ⟨env, rfl, henv, hrun⟩ |
      ⟨hcheck, hnone, hrun⟩ <;>
      rw [Keeps, wp_congr hrun]
    · rw [wp_fail]; exact hrefl
    · refine (keeps_readopt hs henv).mono fun t ht => ht.1.mono ?_
      rintro q (hq | rfl)
      · cases q with
        | node p =>
          rcases hq with rfl | rfl | hr
          · exact .inr (.inl (.inl ⟨env, henv, rfl⟩))
          · exact .inl rfl
          · exact .inr (.inr hr)
        | env e => exact hq.elim
        | snap e x => exact hq.elim
      · rfl
    · have hto : ∀ t, Sound named (Creates s id opts) s t →
          Sound named (Owns id ((Request.create id opts).Workspaces s id)) s t := by
        refine fun t ht => ht.mono ?_
        rintro q (hq | rfl)
        · cases q with
          | node p =>
            refine hq.imp_right (Or.imp_left ?_)
            rintro (hm | ⟨repo, name, harg, rfl, hfree⟩)
            · exact .inr (.inl hm)
            · exact .inr (.inr ⟨opts, repo, name, rfl, harg, rfl, hfree⟩)
          | env e => exact hq.elim
          | snap e x => exact hq.elim
        · rfl
      exact wp_mono (wp_create hs hcheck hnone fun repo name harg =>
        hok id opts repo name rfl hnone harg) (fun _ t h => hto t h.1) (fun _ t h => hto t h.1.1)
        fun _ t h => hto t h.1.1
  | delete e =>
    cases hid
    have hto : ∀ t, Sound named (Deletes s id) s t →
        Sound named (Owns id ((Request.delete id).Workspaces s id)) s t := by
      refine fun t ht => ht.mono ?_
      rintro q (hq | rfl | ⟨x, rfl⟩)
      · cases q with
        | node p => exact hq.imp_right (Or.imp_left fun h => h.imp_right Or.inl)
        | env e => exact hq.elim
        | snap e x => exact hq.elim
      · rfl
      · rfl
    exact wp_mono (wp_Delete hs) (fun _ t h => hto t h.1) (fun _ t h => hto t h.1.1)
      fun _ t h => by rw [h.1]; exact hrefl
  | snapshot e x =>
    cases hid
    show wp (Snapshot id x) _ _ _ s
    rcases Snapshot_cases id x s with ⟨e, hrun⟩ | ⟨env, rfl, henv, hx, hrun⟩ <;>
      rw [wp_congr hrun]
    · rw [wp_fail]; exact hrefl
    · exact wp_mono (wp_snapshot hs henv hx) (fun _ t h => h.1.mono owns_snapPlaces)
        (fun _ t h => h.1.1.mono owns_snapPlaces) fun _ t h => by rw [h]; exact hrefl
  | deleteSnapshot e x =>
    cases hid
    exact wp_mono (wp_DeleteSnapshot hs) (fun _ t h => h.1.mono owns_snapPlaces)
      (fun _ t h => h.1.1.mono owns_snapPlaces) fun _ t h => by rw [h.1]; exact hrefl
  | restore e x =>
    cases hid
    show wp (Restore id x) _ _ _ s
    rcases Restore_cases id x s with ⟨e, hrun⟩ | ⟨env, rfl, henv, hrun⟩ <;> rw [wp_congr hrun]
    · rw [wp_fail]; exact hrefl
    · have hto := owns_restores (s := s) (x := x)
        (W := (Request.restore env.id x).Workspaces s env.id) (.inl ⟨env, henv, rfl⟩)
      have hbefore : ∀ t, BeforeSwap named s t env x →
          Sound named (Owns env.id ((Request.restore env.id x).Workspaces s env.id)) s t :=
        fun t ht => ht.sound.mono fun q hq => hto q (.inl hq)
      have hafter : ∀ t, AfterSwap named s t env x →
          Sound named (Owns env.id ((Request.restore env.id x).Workspaces s env.id)) s t :=
        fun t ht => ht.sound.mono hto
      exact wp_mono (wp_restore hs henv fun hn => hname hn _ _ env rfl henv)
        (fun _ t h => h.elim (hbefore t) (hafter t)) (fun _ => hafter) fun _ t h => hbefore t h.1
  | buildSource e src =>
    cases hid
    have hto : ∀ t, Sound named (AtPaths [.sourceList id, .live id]) s t →
        Sound named (Owns id ((Request.buildSource id src).Workspaces s id)) s t := fun t ht =>
      ht.mono (owns_atPaths (by simp [Path.env?]))
    exact wp_mono (wp_BuildSource hs) (fun _ t h => hto t h.1) (fun _ t h => hto t h.1)
      fun _ t h => hto t h.1

end Request

/-! ### What `Reconcile` may write -/

omit [Tree T] in
/-- Recovery changes the workspace of an environment with a row only if it is a `live` that is
missing. -/
theorem Recovery.workspace {D : EnvID → Prop} (hs : Apart s) (hrow : s.env? e = some row)
    (h : Recovery D s t (.node row.workspace)) :
    row.workspace = .live e ∧ s.node row.workspace = none := by
  have hisw := hs.workspace e row hrow
  cases hw : row.workspace with
  | live e' =>
    rw [hw] at h hisw
    cases hisw
    exact ⟨rfl, h.live_eq_none hs (by rw [hrow]; simp)⟩
  | worktree r n =>
    rw [hw] at h
    rcases h with ⟨e', _, hnone, h | h⟩ | ⟨e', _, _, h, _⟩ | ⟨_, _, _, _, _, h, _⟩ |
      ⟨_, _, _, _, h, _⟩
    · cases h
    · -- No marker names the workspace of another's row.
      have := hs.taken e' _ h e row hrow hw
      rw [← this, hrow] at hnone
      cases hnone
    · simp at h
    · cases h
    · cases h
  | _ => rw [hw] at hisw; cases hisw

theorem Recovered.spares {D : EnvID → Prop} (h : Recovered D s t) (hs : Apart s)
    (hrow : s.env? e = some row) :
    t.env? e = some row ∧
      (s.node row.workspace ≠ none → t.node row.workspace = s.node row.workspace) :=
  ⟨(h.env? e).trans hrow, fun hsome =>
    h.frame.node _ fun hc => hsome (hc.workspace hs hrow).2⟩

/-! ### Histories -/

theorem Sane.fresh (hs : s.Fresh) : Sane named s := by
  have hnone : ∀ e, s.env? e = none := fun e => by rw [Pool.env?, hs.1]; rfl
  have hin : ∀ {p : Path} {e}, p.env? = some e → s.node p = none := fun hp =>
    hs.2 _ (by rw [hp]; simp)
  have hmark : ∀ e, s.marker? e = none := fun e => by
    rw [Pool.marker?, hin (p := .marker e) rfl]
  refine ⟨⟨fun e row h => ?_, fun e p h => ?_, fun e p h => ?_⟩, fun p n hn => ?_,
    fun p e hp h => absurd (hin hp) h, fun e h => absurd (hnone e) h,
    fun e => Or.inr ⟨hin rfl, fun x => hin rfl, fun tree h => ?_⟩, fun e x h => ?_⟩
  · rw [hnone] at h; cases h
  · rw [hmark] at h; cases h
  · rw [hmark] at h; cases h
  · cases p with
    | repo r => trivial
    | worktree r n => trivial
    | _ => rw [hin rfl] at hn; cases hn
  · rw [hin (p := .claude e) rfl] at h; cases h
  · rw [hs.1] at h
    exact absurd rfl h

theorem Sane.outside (hs : Sane named s) (h : Outside s t) : Sane named t := by
  have hrow : ∀ e, t.env? e = s.env? e := fun e => by rw [Pool.env?, h.index]; rfl
  have hmarker : ∀ e, t.node (.marker e) = s.node (.marker e) := fun e => h.node _ fun hc => hc
  have hmark : ∀ e, t.marker? e = s.marker? e := fun e => by rw [Pool.marker?, hmarker]; rfl
  have hdir : ∀ e, t.node (.envDir e) = s.node (.envDir e) := fun e => h.node _ fun hc => hc
  -- Nothing new appears in an environment's directory.
  have hold : ∀ p e, Path.env? p = some e → t.node p ≠ none → s.node p ≠ none := by
    intro p e hp hn
    by_cases houter : s.Outer p
    · cases p <;> simp only [Pool.Outer] at houter
      case repo => cases hp
      case worktree => cases hp
      case live => exact fun hc => hn ((h.live _).2 hc)
      case claude => exact (hs.indexed _ houter).2.2
    · rw [← h.node p houter]; exact hn
  refine ⟨⟨fun e row hr => ?_, fun e p hp => ?_, fun e p hp e' row hr => ?_⟩, fun p n hn => ?_,
    fun p e hp hn => ?_, fun e he => ?_, fun e => ?_, fun e x hx => ?_⟩
  · exact hs.workspace e row ((hrow e).symm.trans hr)
  · exact hs.marked e p ((hmark e).symm.trans hp)
  · exact hs.taken e p ((hmark e).symm.trans hp) e' row ((hrow e').symm.trans hr)
  · by_cases houter : s.Outer p
    · cases p <;> simp only [Pool.Outer] at houter
      case repo => trivial
      case worktree => trivial
      case live e =>
        obtain ⟨m, hm⟩ := Option.ne_none_iff_exists'.mp (hold (.live e) e rfl (by rw [hn]; simp))
        have hsub : m.isSubvolume = true := hs.holds _ m hm
        cases m with
        | subvol tree b =>
          obtain ⟨tree', b', ht⟩ := (h.live e).1 tree b hm
          rw [hn] at ht
          cases ht
          rfl
        | _ => cases hsub
      case claude e =>
        obtain ⟨m, hm⟩ := Option.ne_none_iff_exists'.mp (hs.indexed e houter).2.2
        obtain ⟨tree, rfl⟩ := hs.holds _ m hm
        obtain ⟨tree', ht⟩ := h.claude e tree hm
        rw [hn] at ht
        cases ht
        exact ⟨tree', rfl⟩
    · exact hs.holds p n (by rw [← h.node p houter]; exact hn)
  · rw [hdir]
    exact hs.inside p e hp (hold p e hp hn)
  · rw [hrow] at he
    obtain ⟨h1, h2, h3⟩ := hs.indexed e he
    refine ⟨by rw [hdir]; exact h1, by rw [h.node (.snapsDir e) id]; exact h2, ?_⟩
    obtain ⟨m, hm⟩ := Option.ne_none_iff_exists'.mp h3
    obtain ⟨tree, rfl⟩ := hs.holds _ m hm
    obtain ⟨tree', ht⟩ := h.claude e tree hm
    rw [ht]; simp
  · rcases hs.unindexed e with hc | ⟨hlive, hsnap, hclaude⟩
    · exact .inl (by rw [Claimed, hrow, hmarker]; exact hc)
    · by_cases he : s.env? e = none
      · refine .inr ⟨?_, fun x => ?_, fun tree htree => hclaude tree ?_⟩
        · rw [h.node (.live e) fun hc => hc he]; exact hlive
        · rw [h.node (.snap e x) id]; exact hsnap x
        · rw [← h.node (.claude e) fun hc => hc he]; exact htree
      · exact .inl (.inl (by rw [hrow]; exact he))
  · rw [h.index] at hx
    exact hs.snapNames e x hx

/-- What a request may change: what is its environment's, or, if it is `Reconcile`, what
recovery may. -/
inductive Request.Changes (r : Request T) (s t : Pool T) : Prop
  | own (id : EnvID) (hid : r.env? = some id) (h : Frame (Owns id (r.Workspaces s id)) s t)
  | recovery (hid : r.env? = none) (h : Recovered (fun _ => True) s t)

/-- **Each state a request passes through is sane and differs only in what it may change.** -/
theorem keeps_call (hs : Sane named s) {r : Request T} (hok : Unclaimed s r)
    (hname : named → Named s r) : Keeps (fun t => Sane named t ∧ r.Changes s t) r.call s := by
  cases hid : r.env? with
  | some id => exact (keeps_request hs hok hname hid).mono fun _ h => ⟨h.2, .own id hid h.1⟩
  | none =>
    cases r <;> cases hid
    refine wp_seq (wp_mono (wp_Reconcile hs) (fun _ _ h => ⟨h.1, .recovery rfl h.2⟩)
      (fun _ _ h => ?_) fun _ _ h => h.elim) fun _ t ht => by rw [wp_pure]; exact ht
    exact ⟨h.2.1.1, .recovery rfl h.2.1.2⟩

theorem Request.Changes.refl {r : Request T} (s : Pool T) : r.Changes s s := by
  cases hid : r.env? with
  | some id => exact .own id hid (Frame.refl _ s)
  | none => exact .recovery hid (Recovered.refl _ s)

theorem Request.Changes.clock {r : Request T} (h : r.Changes s t) : t.clock = s.clock := by
  cases h with
  | own _ _ h => exact h.clock
  | recovery _ h => exact h.frame.clock

theorem Request.Changes.ticks {r : Request T} (h : r.Changes s t) : s.ticks ≤ t.ticks := by
  cases h with
  | own _ _ h => exact h.ticks
  | recovery _ h => exact h.frame.ticks

/-- **Every state of a history is sane**, as long as no new environment is given a path that a
marker names; with restores that find their names free, `live.new` is only ever a subvolume. -/
theorem sane_of_reached {ok : Pool T → Request T → Prop} (hun : ∀ s r, ok s r → Unclaimed s r)
    (hname : ∀ s r, ok s r → named → Named s r) (h : Reached ok s) : Sane named s := by
  refine h.invariant (fun s => Sane.fresh) fun s t hs hst => ?_
  have hkeep : ∀ r : Request T, ok s r → Keeps (Sane named) r.call s := fun r hok =>
    (keeps_call hs (hun s r hok) (hname s r hok)).mono fun _ h => h.1
  cases hst with
  | ends r hok => exact (hkeep r hok).final
  | stops r hok ht => exact (hkeep r hok).stops hs ht
  | outside hout => exact hs.outside hout

/-- **No request destroys another environment's workspace**, whether it ends or is stopped, in
a history in which no new environment is given a path that another's marker names. -/
theorem request_spares_workspace (hs : Reached Unclaimed s) {r : Request T} (hok : Unclaimed s r)
    (ht : t = (r.call s).final ∨ Stops r.call s t) (hrow : s.env? e = some row)
    (he : r.env? ≠ some e) :
    t.env? e = some row ∧ ∀ tree nested, s.node row.workspace = some (.subvol tree nested) →
      t.node row.workspace = some (.subvol tree nested) := by
  have hsane : Sane False s := sane_of_reached (fun _ _ h => h) (fun _ _ _ => False.elim) hs
  have hkeep := keeps_call hsane hok False.elim
  have hchange : r.Changes s t := by
    rcases ht with rfl | ht
    · exact hkeep.final.2
    · exact (hkeep.stops ⟨hsane, .refl s⟩ ht).2
  cases hchange with
  | own id hid hf =>
    have hne : e ≠ id := fun hc => he (by rw [hid, hc])
    refine ⟨(hf.env e hne).trans hrow, fun tree nested hnode => ?_⟩
    rw [hf.node _ (not_owns_workspace (hsane.workspace e row hrow) hne
      (Request.Workspaces.not_other hsane.toApart hrow hne)), hnode]
  | recovery _ hrec =>
    obtain ⟨hrow', hnode⟩ := hrec.spares hsane.toApart hrow
    refine ⟨hrow', fun tree nested h => ?_⟩
    rw [hnode (by rw [h]; simp), h]

/-- A create of `id` at `worktrees/repo/thread`. -/
def atThread (id : EnvID) : Request (List String) :=
  .create id { workspace := some (.worktree "repo" "thread") }

/-- `next` made there in a fresh pool. -/
def madeNext : Pool (List String) := ((atThread "next").call Pool.new).final

omit [Tree T] in
/-- T3 makes or removes a worktree. -/
theorem Outside.worktree {s t : Pool T} (r n : String) (hindex : t.index = s.index)
    (hclock : t.clock = s.clock) (hticks : t.ticks = s.ticks)
    (hnode : ∀ p, p ≠ .worktree r n → t.node p = s.node p) : Outside s t where
  index := hindex
  clock := hclock
  ticks := hticks
  node p hp := by
    refine hnode p ?_
    rintro rfl
    exact hp trivial
  live id := by
    rw [hnode (.live id) (by simp)]
    exact ⟨fun tree nested h => ⟨tree, nested, h⟩, fun h => h⟩
  claude id tree h := by
    rw [hnode (.claude id) (by simp)]
    exact ⟨tree, h⟩

/-- The worktree of `next` is removed. -/
def worktreeGone : Pool (List String) := madeNext.drop (.worktree "repo" "thread")

theorem worktreeGone_outside : Outside madeNext worktreeGone :=
  .worktree "repo" "thread" rfl rfl rfl fun p hp => by simp [worktreeGone, hp]

/-- `other` made beside it. -/
def madeOther : Pool (List String) := ((Request.create "other" {}).call madeNext).final

/-- A delete of `other` deletes its workspace, and not that of `next`. -/
theorem request_spares_workspace_madeOther :
    madeOther.node (.live "other") = some (.subvol [] false) ∧
      ((Request.delete "other").call madeOther).final.node (.live "other") = none ∧
      ((Request.delete "other").call madeOther).final.node (.worktree "repo" "thread") =
        some (.subvol [] false) := by
  have hreached : Reached Unclaimed madeOther :=
    ⟨Pool.new, Pool.new_fresh, .tail (.single (.ends _ fun _ _ _ _ _ _ _ _ _ => nofun))
      (.ends _ fun _ _ _ _ hr _ hopts => by cases hr; cases hopts)⟩
  have hrow : madeOther.env? "next" = some ⟨"next", .worktree "repo" "thread", "", 0, ""⟩ := by
    decide
  exact ⟨by decide, by decide, (request_spares_workspace hreached (r := .delete "other")
    (fun _ _ _ _ => (by simp)) (.inl rfl) hrow (by decide)).2 _ _ (by decide)⟩

/-- `old` made there, and deleted but stopped once its row was gone. -/
def halfDeleted : Pool (List String) :=
  (Request.delete "old").call.stopAt 4 ((atThread "old").call Pool.new).final

/-- `next` made there then. -/
def remade : Pool (List String) := ((atThread "next").call halfDeleted).final

theorem remade_reached : Reached (fun _ _ => True) remade :=
  ⟨Pool.new, Pool.new_fresh, .tail (.tail (.single (.ends _ trivial))
    (.stops _ trivial (stops_stopAt _ 4 _))) (.ends _ trivial)⟩

/-- A delete of `old`, repeated after it was stopped, takes the workspace of `next`. -/
theorem delete_takes_workspace_of_next :
    Reached (fun _ _ => True) remade ∧
      (remade.env? "next").map EnvRow.workspace = some (.worktree "repo" "thread") ∧
      remade.node (.worktree "repo" "thread") = some (.subvol [] false) ∧
      (((Request.delete "old").call remade).final.env? "next").map EnvRow.workspace =
        some (.worktree "repo" "thread") ∧
      ((Request.delete "old").call remade).final.node (.worktree "repo" "thread") = none :=
  ⟨remade_reached, by decide, by decide, by decide, by decide⟩

end Fern

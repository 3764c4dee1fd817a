/-
What the calls that only change the disk do.

One specification for each of the helpers that remove subvolumes, write markers and make
workspaces: the places it writes, that the pool stays sane at every moment, and what it leaves.
Callers use these and never look inside.
-/
import Fern.Proofs.Store.Sane

namespace Fern

open Call StoreM List

variable {T : Type} {p : Path} {golden workspace : Option Path} {tree : T} {nested : Bool}

/-- The pool is sane, and only the places `P` have changed since `s`. -/
def Sound [Tree T] (named : Prop) (P : Place → Prop) (s t : Pool T) : Prop :=
  Frame P s t ∧ Sane named t

/-- The places at some paths. -/
def AtPaths (paths : List Path) : Place → Prop
  | .node p => p ∈ paths
  | _ => False

theorem AtPaths.eq {p : Path} {q : Place} (h : AtPaths [p] q) : q = .node p := by
  cases q with
  | node p' => rw [mem_singleton.mp h]
  | _ => exact h.elim

variable [Tree T] {named : Prop} {P : Place → Prop} {s t u : Pool T} {id : EnvID}

theorem Sound.refl (hs : Sane named s) : Sound named P s s := ⟨Frame.refl P s, hs⟩

theorem Sound.trans (h : Sound named P s t) (h' : Sound named P t u) : Sound named P s u :=
  ⟨h.1.trans h'.1, h'.2⟩

theorem Sound.mono {P' : Place → Prop} (h : Sound named P s t) (hP : ∀ q, P q → P' q) :
    Sound named P' s t := ⟨h.1.mono hP, h.2⟩

theorem Sound.run {o : Op T} (hs : Sane named s) (hsafe : o.Safe named s) (h : o.run s = .ok t) :
    Sound named o.writes s t := ⟨Op.run_frame h, hs.run hsafe h⟩

theorem Sound.step {o : Op T} (h : Sound named P s t) (hsafe : o.Safe named t)
    (hu : o.run t = .ok u) (hP : ∀ q, o.writes q → P q) : Sound named P s u :=
  h.trans ((Sound.run h.2 hsafe hu).mono hP)

theorem Sound.own (h : Sound named P s t) (p : Path) (o : Owner) : Sound named P s (t.own p o) :=
  ⟨h.1.own p o, h.2.own p o⟩

theorem wp_op {C : Op T → Pool T → Prop} {Q : Unit → Pool T → Prop} {E : Err → Pool T → Prop}
    {o : Op T} (hok : ∀ t, o.run s = .ok t → C o t ∧ Q () t)
    (herr : ∀ e, o.run s = .error e → E e s) : wp (op o) C Q E s := by
  unfold op
  rw [wp_perform]
  cases h : o.run s with
  | error e => exact herr e h
  | ok t => exact hok t h

/-- An operation that is known to be made. -/
theorem wp_run {C : Op T → Pool T → Prop} {Q : Unit → Pool T → Prop} {E : Err → Pool T → Prop}
    {o : Op T} (hrun : o.run s = .ok t) (hC : C o t) (hQ : Q () t) : wp (op o) C Q E s := by
  unfold op
  rw [wp_perform, hrun]
  exact ⟨hC, hQ⟩

/-! ### Subvolumes deleted

`deleteSubvolumes` makes two rounds: those that hold others are left for the end.  Neither can fail
here, so a stop is all that leaves some of the subvolumes there. -/

/-- `t` is `s` without some of the subvolumes at `paths`. -/
structure Shed (paths : List Path) (s t : Pool T) : Prop where
  index : t.index = s.index
  clock : t.clock = s.clock
  ticks : t.ticks = s.ticks
  gitDir : t.gitDir = s.gitDir
  node : ∀ p, t.node p = s.node p ∨
    (p ∈ paths ∧ t.node p = none ∧ ∃ tree nested, s.node p = some (.subvol tree nested))

namespace Shed

omit [Tree T]

variable {paths : List Path}

theorem refl (paths : List Path) (s : Pool T) : Shed paths s s :=
  ⟨rfl, rfl, rfl, rfl, fun _ => Or.inl rfl⟩

theorem trans (h : Shed paths s t) (h' : Shed paths t u) : Shed paths s u where
  index := h'.index.trans h.index
  clock := h'.clock.trans h.clock
  ticks := h'.ticks.trans h.ticks
  gitDir := h'.gitDir.trans h.gitDir
  node p := by
    rcases h'.node p with hp | ⟨hmem, hnone, tree, nested, hsub⟩
    · rw [hp]; exact h.node p
    · rcases h.node p with hp' | ⟨_, hnone', _⟩
      · rw [hp'] at hsub
        exact .inr ⟨hmem, hnone, tree, nested, hsub⟩
      · rw [hnone'] at hsub; cases hsub

theorem mono {paths' : List Path} (h : Shed paths s t) (hp : ∀ p ∈ paths, p ∈ paths') :
    Shed paths' s t :=
  ⟨h.index, h.clock, h.ticks, h.gitDir, fun p => (h.node p).imp id fun hc => ⟨hp p hc.1, hc.2⟩⟩

theorem frame (h : Shed paths s t) : Frame (AtPaths paths) s t where
  node p hp := (h.node p).resolve_right fun hc => hp hc.1
  env e _ := by rw [Pool.env?, h.index]; rfl
  snap e x _ := by rw [h.index]
  clock := h.clock
  ticks := le_of_eq h.ticks.symm
  gitDir := h.gitDir

theorem not_subvol (h : Shed paths s t)
    (hp : ∀ tree nested, s.node p ≠ some (.subvol tree nested)) :
    ∀ tree nested, t.node p ≠ some (.subvol tree nested) := by
  intro tree nested hc
  rcases h.node p with h' | ⟨_, h', _⟩
  · exact hp tree nested (h'.symm.trans hc)
  · rw [h'] at hc; cases hc

theorem drop (hsub : s.node p = some (.subvol tree nested)) : Shed [p] s (s.drop p) where
  index := rfl
  clock := rfl
  ticks := rfl
  gitDir := rfl
  node q := by
    by_cases h : q = p
    · subst h
      exact .inr ⟨by simp, by simp, tree, nested, hsub⟩
    · exact .inl (by simp [h])

end Shed

section DeleteSubvolumes

variable {paths : List Path}

/-- One round: the subvolume is gone, unless it is left for the end. -/
private theorem wp_deleteOne {nested : List Path} (ht : Sane named t) :
    Completes (deleteOne nested p) (fun u => Sane named u ∧ Shed [p] t u)
      (fun nested' u => ((nested' = nested ∧ ∀ tree b, u.node p ≠ some (.subvol tree b)) ∨
        (nested' = nested ++ [p] ∧ ∃ tree, u.node p = some (.subvol tree true)))) t := by
  unfold deleteOne
  rw [Completes, wp_bind, wp_read]
  split
  · rename_i tree hnode
    rw [wp_pure]
    exact ⟨⟨ht, Shed.refl _ t⟩, .inr ⟨rfl, tree, hnode⟩⟩
  · rename_i tree hnode
    have hrun : (Op.deleteSubvolume p).run t = .ok (t.drop p) := by
      simp [Op.run, hnode]
    have hsane := ht.run (o := .deleteSubvolume p) trivial hrun
    rw [wp_bind]
    refine wp_run hrun ⟨hsane, Shed.drop hnode⟩ ?_
    rw [wp_pure]
    exact ⟨⟨hsane, Shed.drop hnode⟩, .inl ⟨rfl, fun tree b => by simp⟩⟩
  · rename_i h1 h2
    rw [wp_pure]
    refine ⟨⟨ht, Shed.refl _ t⟩, .inl ⟨rfl, fun tree b hc => ?_⟩⟩
    cases b with
    | true => exact h1 tree hc
    | false => exact h2 tree hc

/-- The paths left for the end hold subvolumes with others in them, each once. -/
private def Deferred (nested : List Path) (t : Pool T) : Prop :=
  nested.Nodup ∧ ∀ p ∈ nested, ∃ tree, t.node p = some (.subvol tree true)

private theorem wp_deleteRound :
    ∀ (l : List Path) {nested : List Path} {t : Pool T}, (nested ++ l).Nodup → Sane named t →
      Deferred nested t →
      Completes (eachWith deleteOne nested l) (fun u => Sane named u ∧ Shed l t u)
        (fun nested' u => Deferred nested' u ∧ (∀ p ∈ nested', p ∈ nested ∨ p ∈ l) ∧
          (∀ p ∈ nested, p ∈ nested') ∧ ∀ p ∈ l, p ∈ nested' ∨
          ∀ tree b, u.node p ≠ some (.subvol tree b)) t := by
  intro l
  induction l with
  | nil =>
    intro nested t _ ht hdef
    rw [Completes, eachWith, wp_pure]
    exact ⟨⟨ht, Shed.refl _ t⟩, hdef, fun p hp => Or.inl hp, fun p hp => hp, by simp⟩
  | cons p rest ih =>
    intro nested t hnd ht hdef
    have hdis := (nodup_append.mp hnd).2.2
    have hhead : ∀ q ∈ [p], q ∈ p :: rest := by simp
    have htail : ∀ q ∈ rest, q ∈ p :: rest := fun q hq => mem_cons_of_mem p hq
    rw [eachWith]
    refine wp_step (wp_deleteOne ht) (fun _ u hu => ⟨hu.1, hu.2.mono hhead⟩) (fun _ _ h => h) ?_
    rintro nested' u ⟨⟨hu, hstep⟩, hcase⟩
    -- What is left for the end so far is not `p`, so this round leaves it.
    have hold : ∀ q ∈ nested, u.node q = t.node q := fun q hq =>
      (hstep.node q).resolve_right fun hc =>
        hdis q hq p (by simp) (mem_singleton.mp hc.1)
    have hdef' : Deferred nested u := ⟨hdef.1, fun q hq => by rw [hold q hq]; exact hdef.2 q hq⟩
    -- What is left for the end after it.
    obtain ⟨hnd', hdefp, hsub', hmore', hp⟩ : (nested' ++ rest).Nodup ∧ Deferred nested' u ∧
        (∀ q ∈ nested', q ∈ nested ∨ q = p) ∧ (∀ q ∈ nested, q ∈ nested') ∧
        (p ∈ nested' ∨ ∀ tree b, u.node p ≠ some (.subvol tree b)) := by
      rcases hcase with ⟨rfl, hgone⟩ | ⟨rfl, tree, htree⟩
      · exact ⟨((sublist_cons_self p rest).append_left nested').nodup hnd, hdef',
          fun q hq => .inl hq, fun q hq => hq, .inr hgone⟩
      · have hnd' : (nested ++ [p] ++ rest).Nodup := by simpa using hnd
        refine ⟨hnd', ⟨(nodup_append.mp hnd').1, ?_⟩, by simp, fun q hq => mem_append_left _ hq,
          .inl (by simp)⟩
        exact forall_mem_append.mpr ⟨hdef'.2, forall_mem_singleton.mpr ⟨tree, htree⟩⟩
    have hto : ∀ v, Sane named v ∧ Shed rest u v → Sane named v ∧ Shed (p :: rest) t v :=
      fun v hv => ⟨hv.1, (hstep.mono hhead).trans (hv.2.mono htail)⟩
    refine wp_mono (ih hnd' hu hdefp) (fun _ => hto) ?_ fun _ _ h => h
    rintro nested'' v ⟨hv, hdefv, hsub, hmore, hdone⟩
    refine ⟨hto v hv, hdefv, fun q hq => ?_, fun q hq => hmore q (hmore' q hq), ?_⟩
    · rcases hsub q hq with h | h
      · exact (hsub' q h).imp_right fun h => by simp [h]
      · exact .inr (htail q h)
    · exact forall_mem_cons.mpr ⟨hp.imp (hmore p) hv.2.not_subvol, hdone⟩

private theorem wp_deleteNested :
    ∀ (nested : List Path) {t : Pool T}, Sane named t → Deferred nested t →
      Completes (each (fun p => op (.deleteNested p)) nested)
        (fun u => Sane named u ∧ Shed nested t u)
        (fun _ u => ∀ p ∈ nested, ∀ tree b, u.node p ≠ some (.subvol tree b)) t := by
  intro nested
  induction nested with
  | nil =>
    intro t ht _
    rw [Completes, each, wp_pure]
    exact ⟨⟨ht, Shed.refl _ t⟩, by simp⟩
  | cons p rest ih =>
    rintro t ht ⟨hnd, hsub⟩
    obtain ⟨tree, hnode⟩ := hsub p (by simp)
    have hrun : (Op.deleteNested p).run t = .ok (t.drop p) := by simp [Op.run, hnode]
    have hsane := ht.run (o := .deleteNested p) trivial hrun
    have hhead : Shed (p :: rest) t (t.drop p) := (Shed.drop hnode).mono (by simp)
    have htail : ∀ q ∈ rest, q ∈ p :: rest := fun q hq => mem_cons_of_mem p hq
    have hdef : Deferred rest (t.drop p) := by
      refine ⟨(nodup_cons.mp hnd).2, fun q hq => ?_⟩
      have hne : q ≠ p := by
        rintro rfl
        exact (nodup_cons.mp hnd).1 hq
      rw [Pool.node_drop, if_neg hne]
      exact hsub q (htail q hq)
    rw [Completes, each, wp_bind]
    refine wp_run hrun ⟨hsane, hhead⟩ ?_
    refine wp_mono (ih hsane hdef) (fun _ v hv => ⟨hv.1, hhead.trans (hv.2.mono htail)⟩) ?_
      fun _ _ h => h
    rintro _ v ⟨⟨hv, hshed⟩, hdone⟩
    refine ⟨⟨hv, hhead.trans (hshed.mono htail)⟩, fun q hq => ?_⟩
    rcases mem_cons.mp hq with rfl | hq
    · exact hshed.not_subvol fun tree b => by simp
    · exact hdone q hq

/-- `deleteSubvolumes` leaves no subvolume at any of the paths, and never fails. -/
theorem wp_deleteSubvolumes (hs : Sane named s) (hnd : paths.Nodup) :
    Completes (deleteSubvolumes paths) (fun t => Sane named t ∧ Shed paths s t)
      (fun _ t => ∀ p ∈ paths, ∀ tree b, t.node p ≠ some (.subvol tree b)) s := by
  unfold deleteSubvolumes
  refine wp_seq (wp_deleteRound paths (by simpa using hnd) hs ⟨nodup_nil, by simp⟩) ?_
  rintro nested t ⟨⟨ht, hshed⟩, hdef, hsub, _, hdone⟩
  have hmem : ∀ p ∈ nested, p ∈ paths := fun p hp => (hsub p hp).resolve_left (by simp)
  refine wp_mono (wp_deleteNested nested ht hdef)
    (fun _ u hu => ⟨hu.1, hshed.trans (hu.2.mono hmem)⟩) ?_ fun _ _ h => h
  rintro _ u ⟨⟨hu, hshed'⟩, hgone⟩
  refine ⟨⟨hu, hshed.trans (hshed'.mono hmem)⟩, fun p hp => ?_⟩
  rcases hdone p hp with h | h
  · exact hgone p h
  · exact hshed'.not_subvol h

end DeleteSubvolumes

/-! ### What a create or delete that stopped left

The marker says whose it is, and where its workspace is; `removeDisk` takes away both, and nothing
of another environment. -/

/-- The places of an environment's directory, and a workspace. -/
def DiskOf (id : EnvID) (workspace : Option Path) : Place → Prop
  | .node p => p.env? = some id ∨ workspace = some p
  | _ => False

/-- Nothing is at a path that was not there. -/
def Less (s t : Pool T) : Prop := ∀ p, t.node p = s.node p ∨ t.node p = none

omit [Tree T] in
theorem Less.trans (h : Less s t) (h' : Less t u) : Less s u := fun p =>
  (h' p).elim (fun he => he ▸ h p) Or.inr

omit [Tree T] in
theorem Shed.less {paths : List Path} (h : Shed paths s t) : Less s t := fun p =>
  (h.node p).imp_right fun hc => hc.2.1

omit [Tree T] in
private theorem snapDirs_nodup (s : Pool T) (id : EnvID) : (s.snapDirs id).Nodup := by
  unfold Pool.snapDirs
  rw [(perm_insertionSort _ _).nodup_iff]
  refine List.Nodup.filterMap ?_ s.disk.nodup_keys
  intro p q x hp hq
  cases p <;> simp at hp
  cases q <;> simp at hq
  rw [hp.1, hp.2, hq.1, hq.2]

/-- The paths `removeDisk` deletes subvolumes at. -/
abbrev removePaths (s : Pool T) (id : EnvID) (workspace : Option Path) : List Path :=
  [.live id, .restore id, .adopt id] ++ (workspace.toList.filter fun ws => ws ≠ .live id) ++
    (s.snapDirs id).map (.snap id)

omit [Tree T] in
theorem removePaths_nodup (s : Pool T) (hws : ∀ w, workspace = some w → Path.IsWorkspace id w) :
    (removePaths s id workspace).Nodup := by
  have hsnaps : ((s.snapDirs id).map (Path.snap id)).Nodup :=
    (snapDirs_nodup s id).map fun _ _ h => by cases h; rfl
  cases workspace with
  | none =>
    refine nodup_append.mpr ⟨by simp, hsnaps, ?_⟩
    intro p hp q hq hpq
    obtain ⟨x, _, rfl⟩ := mem_map.mp hq
    subst hpq
    simp at hp
  | some w =>
    have hw := hws w rfl
    refine nodup_append.mpr ⟨?_, hsnaps, ?_⟩
    · cases hw <;> simp
    · intro p hp q hq hpq
      obtain ⟨x, _, rfl⟩ := mem_map.mp hq
      subst hpq
      cases hw <;> simp at hp

/-- `removeDisk` leaves nothing in the environment's directory, and never fails. -/
theorem wp_removeDisk (hs : Sane named s) (hnone : s.env? id = none)
    (hws : ∀ w, workspace = some w → Path.IsWorkspace id w) :
    Completes (removeDisk id workspace) (fun t => Sound named (DiskOf id workspace) s t ∧ Less s t)
      (fun _ t => ∀ p : Path, p.env? = some id → t.node p = none) s := by
  have hpaths : ∀ q, AtPaths (removePaths s id workspace) q → DiskOf id workspace q := by
    intro q hq
    cases q with
    | env e => exact hq
    | snap e x => exact hq
    | node p =>
      rcases mem_append.mp hq with hq | hq
      · rcases mem_append.mp hq with hq | hq
        · simp only [mem_cons, not_mem_nil, or_false] at hq
          rcases hq with rfl | rfl | rfl <;> exact .inl rfl
        · exact .inr (by simpa using (mem_filter.mp hq).1)
      · obtain ⟨x, _, rfl⟩ := mem_map.mp hq
        exact .inl rfl
  unfold removeDisk
  rw [Completes, wp_bind, wp_read]
  refine wp_seq (wp_mono (wp_deleteSubvolumes hs (removePaths_nodup s hws))
    (fun _ t ht => ⟨⟨ht.2.frame.mono hpaths, ht.1⟩, ht.2.less⟩) (fun _ _ h => h.1)
    fun _ _ h => h) ?_
  rintro _ t ⟨ht, hshed⟩
  have hnone' : t.env? id = none := by rw [Pool.env?, hshed.index]; exact hnone
  refine wp_op (fun u hu => ?_) fun e he => by cases he
  have hsound : Sound named (DiskOf id workspace) s u := by
    refine Sound.trans ⟨hshed.frame.mono hpaths,
      ht⟩ ((Sound.run (o := .removeAll (.envDir id)) ht hnone' hu).mono ?_)
    rintro _ ⟨p, rfl, hp⟩
    exact .inl hp
  have hnode : ∀ p, u.node p = if Path.env? p = some id then none else t.node p := by
    intro p
    cases hu
    simp [Pool.node]
  have hless : Less s u := hshed.less.trans fun p => by
    rw [hnode]
    split
    · exact .inr rfl
    · exact .inl rfl
  exact ⟨⟨hsound, hless⟩, ⟨hsound, hless⟩, fun p hp => by rw [hnode, if_pos hp]⟩

theorem holdsData_eq_false_iff (s : Pool T) (id : EnvID) :
    holdsData s id = false ↔ NoData s id := by
  have hsnaps : s.snapDirs id = [] ↔ ∀ x, s.node (.snap id x) = none := by
    rw [eq_nil_iff_forall_not_mem]
    exact forall_congr' fun x => by rw [Pool.mem_snapDirs, not_not]
  unfold holdsData NoData
  rw [← hsnaps]
  cases hc : s.node (.claude id) with
  | none => simp
  | some n => cases n <;> simp [and_assoc]

theorem Sane.holdsData_eq_false (hs : Sane named s) (hnone : s.env? id = none)
    (hmark : s.marker? id = none) : holdsData s id = false := by
  rw [holdsData_eq_false_iff]
  refine (hs.unindexed id).resolve_left ?_
  rintro (h | h)
  · exact h hnone
  · obtain ⟨n, hn⟩ := Option.ne_none_iff_exists'.mp h
    obtain ⟨ws, rfl⟩ := hs.holds _ n hn
    rw [Pool.marker?_eq_some.mpr hn] at hmark
    cases hmark

/-- `clearLeftovers` of an environment without a row leaves nothing in its directory, and never
fails. -/
theorem wp_clearLeftovers (hs : Sane named s) (hnone : s.env? id = none) :
    Completes (clearLeftovers id)
      (fun t => Sound named (DiskOf id (s.marker? id).join) s t ∧ Less s t)
      (fun _ t => ∀ p : Path, p.env? = some id → t.node p = none) s := by
  unfold clearLeftovers
  rw [Completes, wp_bind, wp_read]
  split
  · rename_i hdir
    rw [wp_pure]
    refine ⟨⟨Sound.refl hs, fun _ => Or.inl rfl⟩, fun p hp => ?_⟩
    by_contra hc
    exact hs.inside p id hp hc hdir
  · split
    · rename_i ws hmark
      rw [hmark]
      refine wp_removeDisk hs hnone fun w hw => hs.marked id w ?_
      rw [hmark]
      exact congrArg some hw
    · rename_i hmark
      rw [hs.holdsData_eq_false hnone hmark, hmark]
      exact wp_removeDisk hs hnone (by simp)

theorem run_truncateMarker (h : (Op.truncateMarker id).run s = .ok t) :
    t.marker? id = some none := by
  rw [Pool.marker?_eq_some]
  simp only [Op.run] at h
  split at h
  · cases h; simp
  · cases h

theorem run_writeMarker {w : Path} (h : (Op.writeMarker id w).run s = .ok t) :
    t.marker? id = some (some w) := by
  rw [Pool.marker?_eq_some]
  simp only [Op.run] at h
  split at h
  · cases h; simp
  · cases h

omit [Tree T] in
theorem Claimed.frame (h : Claimed s id) (hf : Frame P s t) (hrow : ¬ P (.env id))
    (hmark : ¬ P (.node (.marker id))) : Claimed t id := by
  unfold Claimed
  rw [hf.env id hrow, hf.node _ hmark]
  exact h

omit [Tree T] in
theorem Pool.hasParent_of_dir {d : Path} (hp : p.parent? = some d) (hd : s.node d = some .dir) :
    s.hasParent p = true := by
  unfold Pool.hasParent
  rw [hp]
  simp [hd, Node.isDir]

/-- `writeMarker` writes the marker, and never fails. -/
theorem wp_writeMarker (hs : Sane named s) (hid : checkEnvID id = true)
    (hrow : ∀ w, workspace = some w → ∃ row, s.env? id = some row ∧ row.workspace = w) :
    wp (writeMarker id workspace)
      (fun _ t => Sound named (AtPaths [.envDir id, .marker id]) s t ∧
        (t.marker? id = s.marker? id ∨ t.marker? id = some none ∨ t.marker? id = some workspace))
      (fun _ t => Sound named (AtPaths [.envDir id, .marker id]) s t ∧
        t.marker? id = some workspace)
      (fun _ _ => False) s := by
  have hdir : ∀ q, q = Place.node (.envDir id) → AtPaths [.envDir id, .marker id] q := by
    rintro _ rfl
    simp [AtPaths]
  have hmark : ∀ q, q = Place.node (.marker id) → AtPaths [.envDir id, .marker id] q := by
    rintro _ rfl
    simp [AtPaths]
  unfold writeMarker
  refine wp_seq (P := fun _ t => Sound named (AtPaths [.envDir id, .marker id]) s t ∧
    t.env? id = s.env? id ∧ t.node (.envDir id) = some .dir)
    (wp_op (fun t ht => ?_) fun e he => ?_) ?_
  · have hsound : Sound named (AtPaths [.envDir id, .marker id]) s t :=
      (Sound.run (o := .mkdir (.envDir id)) hs ⟨⟨rfl, hid⟩, (by simp)⟩ ht).mono hdir
    refine ⟨⟨hsound, .inl ((Op.run_frame ht).marker? (fun h => by cases h))⟩, hsound,
      (Op.run_frame ht).env id (fun h => by cases h), ?_⟩
    simp only [Op.run] at ht
    split at ht
    · rename_i n hn
      split at ht
      · cases ht
        rw [hn, (hs.holds _ n hn).1]
      · cases ht
    · split at ht
      · cases ht; simp [Op.freshDir]
      · cases ht
  · simp only [Op.run] at he
    split at he
    · rename_i n hn
      simp [(hs.holds _ n hn).1, Node.isDir] at he
    · simp [Pool.hasParent, Path.parent?] at he
  rintro _ t ⟨ht, hsame, hd⟩
  have hpar : t.hasParent (.marker id) = true := Pool.hasParent_of_dir rfl hd
  refine wp_seq (P := fun _ u => Sound named (AtPaths [.envDir id, .marker id]) s u ∧
    u.env? id = s.env? id ∧ u.node (.envDir id) = some .dir ∧ u.marker? id = some none)
    (wp_op (fun u hu => ?_) fun e he => ?_) ?_
  · have hsound := ht.step (o := .truncateMarker id) trivial hu hmark
    exact ⟨⟨hsound, .inr (.inl (run_truncateMarker hu))⟩, hsound,
      ((Op.run_frame hu).env id (fun h => by cases h)).trans hsame,
      ((Op.run_frame hu).node (.envDir id) (fun h => by cases h)).trans hd, run_truncateMarker hu⟩
  · simp [Op.run, hpar] at he
  rintro _ u ⟨hu, hsame', hd', hm⟩
  cases workspace with
  | none => exact (wp_pure _).mpr ⟨hu, hm⟩
  | some w =>
    -- The row is still there when the workspace is written.
    obtain ⟨row, hr, hw⟩ := hrow w rfl
    refine wp_op (fun v hv => ?_) fun e he => ?_
    · have hsound := hu.step (o := .writeMarker id w) ⟨row, hsame'.trans hr, hw⟩ hv hmark
      exact ⟨⟨hsound, .inr (.inr (run_writeMarker hv))⟩, hsound, run_writeMarker hv⟩
    · simp [Op.run, Pool.hasParent_of_dir (p := .marker id) rfl hd'] at he

/-! ### Workspaces made

A copy is made beside the path and swapped in when it is whole, so a stop leaves what was there or
the whole of what is to be (`Whole`). -/

/-- `os.Chown` of what is there changes nothing but whose it is. -/
theorem wp_chown {I Q : Pool T → Prop} {E : Err → Pool T → Prop} (hp : s.node p ≠ none)
    (hI : I (s.own p .box)) (hQ : Q (s.own p .box)) :
    wp (op (.chown p)) (fun _ => I) (fun _ => Q) E s := by
  obtain ⟨n, hn⟩ := Option.ne_none_iff_exists'.mp hp
  exact wp_run (by simp [Op.run, hn]) hI hQ

/-- A pool with a new `live`. -/
def Pool.withLive (s : Pool T) (id : EnvID) (o : Owner) : Pool T :=
  (s.own (.live id) o).put (.live id) (.subvol Tree.empty false)

theorem Pool.own_withLive (s : Pool T) (id : EnvID) (o o' : Owner) :
    (s.withLive id o).own (.live id) o' = s.withLive id o' := by
  simp only [withLive, own, put, Pool.mk.injEq, true_and, and_true]
  funext q
  split <;> rfl

/-- A `live` that isn't there is made as root's, and then given away. -/
theorem wp_makeLive {I Q : Pool T → Prop} {E : Err → Pool T → Prop}
    (hnone : s.node (.live id) = none)
    (hparent : s.hasParent (.live id) = true ∨ E .noEntry s) (hI : ∀ o, I (s.withLive id o))
    (hQ : Q (s.withLive id .box)) :
    wp (makeWorkspace id (.live id) golden) (fun _ => I) (fun _ => Q) E s := by
  have hgiven := s.own_withLive id .root .box
  unfold makeWorkspace
  rw [wp_bind, wp_read, hnone]
  refine wp_seq (c := op (.createSubvolume (.live id))) (P := fun _ t => t = s.withLive id .root)
    (wp_op (fun t ht => ?_) fun e he => ?_) ?_
  · rw [(Op.run_createSubvolume ht).2.2]
    exact ⟨hI .root, rfl⟩
  · rcases hparent with hparent | hfails
    · simp [Op.run, hnone, hparent] at he
    · simp only [Op.run, hnone] at he
      split at he
      · cases he
      · exact Except.error.inj he ▸ hfails
  · rintro _ t rfl
    exact wp_chown (by simp [Pool.withLive]) (hgiven ▸ hI .box) (hgiven ▸ hQ)

/-- A copy into a subvolume ends with the tree copied, never fails, and keeps what each write
keeps. -/
theorem wp_copyInto_keeps {I : Pool T → Prop} {base b : T} (hs : I s)
    (hp : s.node p = some (.subvol b nested))
    (hI : ∀ tree t u, I t → (Op.fill p tree).run t = .ok u → I u) :
    wp (copyInto p base tree) (fun _ => I)
      (fun _ t => I t ∧ t.node p = some (.subvol tree nested)) (fun _ _ => False) s := by
  -- Each write finds the subvolume the one before left.
  have hfill : ∀ (tree : T) t, I t → (∃ b, t.node p = some (.subvol b nested)) →
      wp (op (.fill p tree)) (fun _ => I)
        (fun _ u => I u ∧ u.node p = some (.subvol tree nested)) (fun _ _ => False) t := by
    rintro tree t ht ⟨b, hb⟩
    have hrun : (Op.fill p tree).run t = .ok (t.put p (.subvol tree nested)) := by
      simp [Op.run, hb]
    have hu := hI tree t _ ht hrun
    exact wp_run hrun hu ⟨hu, by simp⟩
  unfold copyInto
  refine wp_seq (P := fun _ t => I t ∧ ∃ b, t.node p = some (.subvol b nested))
    (wp_each _ ⟨hs, b, hp⟩ ?_) ?_
  · rintro tree' _ t ⟨ht, hb⟩
    exact wp_mono (hfill tree' t ht hb) (fun _ _ h => h) (fun _ _ h => ⟨h.1, tree', h.2⟩)
      fun _ _ h => h
  · rintro _ t ⟨ht, hb⟩
    exact hfill tree t ht hb

theorem wp_copyInto {base b : T} (hs : Sane named s) (hp : s.node p = some (.subvol b nested))
    (hc : ∀ e, p.env? = some e → Claimed s e) (hmark : ∀ e, p ≠ .marker e) :
    Completes (copyInto p base tree) (fun t => Sound named (AtPaths [p]) s t)
      (fun _ t => t.node p = some (.subvol tree nested)) s := by
  refine wp_copyInto_keeps (Sound.refl hs) hp fun tree t u ht hu => ?_
  have hsafe : (Op.fill p tree).Safe named t := fun e he =>
    (hc e he).frame ht.1 (by simp [AtPaths]) (by simpa [AtPaths] using (hmark e).symm)
  exact ht.step hsafe hu (by rintro _ rfl; simp [AtPaths])

/-- The tree an adopt puts in place of a directory with the files `tree`. -/
def adopted (s : Pool T) (tree : T) : Option Path → Option T
  | none => some tree
  | some src =>
    match s.node src with
    | some (.subvol base _) => some (Tree.overlay base tree)
    | _ => none

/-- The path of a workspace holds what was there, or the whole of what is to be there. -/
def Whole (s t : Pool T) (p : Path) (tree : Option T) : Prop :=
  t.node p = s.node p ∨ ∃ a, tree = some a ∧ t.node p = some (.subvol a false)

private theorem wp_adoptSwap {r n : String} (hs : Sane named s) (hc : Claimed s id)
    (hpath : s.node (.worktree r n) ≠ none) (hnew : s.node (.adopt id) =
      some (.subvol tree false)) :
    wp (do op (.exchange (.adopt id) (.worktree r n)); op (.removeAll (.adopt id)))
      (fun _ t => Sound named (AtPaths [.adopt id, .worktree r n]) s t ∧
        t.node (.worktree r n) = some (.subvol tree false))
      (fun _ t => Sound named (AtPaths [.adopt id, .worktree r n]) s t ∧
        t.node (.worktree r n) = some (.subvol tree false))
      (fun _ _ => False) s := by
  have hex : s.node (.adopt id) ≠ none := by rw [hnew]; simp
  refine wp_seq (P := fun _ t => Sound named (AtPaths [.adopt id, .worktree r n]) s t ∧
    t.node (.worktree r n) = some (.subvol tree false)) (wp_op (fun t ht => ?_) fun e he => ?_) ?_
  · have hsafe : (Op.exchange (.adopt id) (.worktree r n)).Safe named s := by
      refine ⟨fun _ _ => trivial, fun _ _ => trivial, ?_, fun e => ⟨(by simp), (by simp)⟩⟩
      rintro e (he | he)
      · cases he; exact hc
      · cases he
    have hsound : Sound named (AtPaths [.adopt id, .worktree r n]) s t :=
      (Sound.run hs hsafe ht).mono (by rintro _ (rfl | rfl) <;> simp [AtPaths])
    have hnode := (Op.run_exchange ht).2.2.2 (by simp)
    rw [hnew] at hnode
    exact ⟨⟨hsound, hnode⟩, hsound, hnode⟩
  · simp only [Op.run] at he
    split at he
    · cases he
    · rename_i h
      obtain ⟨a, ha⟩ := Option.ne_none_iff_exists'.mp hpath
      exact h _ _ hnew ha
  · rintro _ t ⟨ht, hnode⟩
    refine wp_op (fun u hu => ?_) fun e he => by cases he
    have hsound : Sound named (AtPaths [.adopt id, .worktree r n]) s u :=
      ht.step (o := .removeAll (.adopt id)) ⟨id, rfl⟩ hu (by rintro _ rfl; simp [AtPaths])
    have hkeep := ((Op.run_frame hu).node (.worktree r n) (fun h => by cases h)).trans hnode
    exact ⟨⟨hsound, hkeep⟩, hsound, hkeep⟩

theorem wp_adoptCopy (hs : Sane named s) (hc : Claimed s id) :
    Leads (adoptCopy id tree golden) (fun t => Sound named (AtPaths [.adopt id]) s t)
      (fun _ t => ∃ a, adopted s tree golden = some a ∧ t.node (.adopt id) = some (.subvol a false))
      s := by
  have hclaim : ∀ {t : Pool T}, Sound named (AtPaths [.adopt id]) s t →
      ∀ e, (Path.adopt id).env? = some e → Claimed t e := by
    rintro t ht e he
    cases he
    exact hc.frame ht.1 (by simp [AtPaths]) (by simp [AtPaths])
  have hwiden : ∀ q, q = Place.node (.adopt id) → AtPaths [.adopt id] q := by
    rintro _ rfl
    simp [AtPaths]
  -- The copy, from a state with an `adopt.new`.
  have hcopy : ∀ {t : Pool T} {base b a : T}, Sound named (AtPaths [.adopt id]) s t →
      t.node (.adopt id) = some (.subvol b false) → adopted s tree golden = some a →
      Leads (copyInto (.adopt id) base a) (fun t => Sound named (AtPaths [.adopt id]) s t)
        (fun _ t => ∃ a, adopted s tree golden = some a ∧
          t.node (.adopt id) = some (.subvol a false)) t := by
    intro t base b a ht hnew ha
    exact wp_mono (wp_copyInto ht.2 hnew (hclaim ht) (by simp)) (fun _ u hu => ht.trans hu)
      (fun _ u hu => ⟨ht.trans hu.1, a, ha, hu.2⟩) fun _ _ h => h.elim
  unfold adoptCopy
  cases golden with
  | none =>
    refine wp_seq (P := fun _ t => Sound named (AtPaths [.adopt id]) s t ∧
      t.node (.adopt id) = some (.subvol Tree.empty false))
      (wp_op (fun t ht => ?_) fun e he => Sound.refl hs) ?_
    · have hsound := (Sound.run (o := .createSubvolume (.adopt id)) hs
        ⟨trivial, hclaim (Sound.refl hs)⟩ ht).mono hwiden
      refine ⟨hsound, hsound, ?_⟩
      rw [(Op.run_createSubvolume ht).2.2]
      simp
    · rintro _ t ⟨ht, hnew⟩
      refine wp_seq (hcopy ht hnew rfl) ?_
      rintro _ u ⟨hu, a, ha, hnode⟩
      exact wp_chown (by rw [hnode]; simp) (hu.own _ _) ⟨hu.own _ _, a, ha, hnode⟩
  | some src =>
    refine wp_seq (P := fun _ t => Sound named (AtPaths [.adopt id]) s t ∧
      ∃ base b, s.node src = some (.subvol base b) ∧
        t.node (.adopt id) = some (.subvol base false))
      (wp_op (fun t ht => ?_) fun e he => Sound.refl hs) ?_
    · have hsound := (Sound.run (o := .snapshotSubvolume src (.adopt id)) hs
        ⟨fun _ => trivial, hclaim (Sound.refl hs)⟩ ht).mono hwiden
      obtain ⟨base, b, hsrc, _, _, rfl⟩ := Op.run_snapshotSubvolume ht
      exact ⟨hsound, hsound, base, b, hsrc, by simp⟩
    · rintro _ t ⟨ht, base, b, hsrc, hnew⟩
      rw [wp_bind, wp_read, hnew]
      exact hcopy ht hnew (by simp [adopted, hsrc])

/-- `adopt`: at every moment the path holds the directory or the whole of its copy. -/
theorem wp_adopt {r n : String} (hs : Sane named s) (hc : Claimed s id)
    (hpath : s.node (.worktree r n) ≠ none) :
    wp (adopt id (.worktree r n) tree golden)
      (fun _ t => Sound named (AtPaths [.adopt id, .worktree r n]) s t ∧
        Whole s t (.worktree r n) (adopted s tree golden))
      (fun _ t => Sound named (AtPaths [.adopt id, .worktree r n]) s t ∧
        ∃ a, adopted s tree golden = some a ∧ t.node (.worktree r n) = some (.subvol a false))
      (fun _ t => Sound named (AtPaths [.adopt id, .worktree r n]) s t ∧
        t.node (.worktree r n) = s.node (.worktree r n)) s := by
  have hto : ∀ t, Sound named (AtPaths [.adopt id]) s t →
      Sound named (AtPaths [.adopt id, .worktree r n]) s t ∧
        t.node (.worktree r n) = s.node (.worktree r n) := by
    intro t ht
    refine ⟨ht.mono fun q hq => ?_, ht.1.node _ (by simp [AtPaths])⟩
    cases q <;> simp_all [AtPaths]
  unfold adopt
  refine wp_step (wp_adoptCopy hs hc) (fun _ t h => ⟨(hto t h).1, .inl (hto t h).2⟩) (fun _ => hto)
    ?_
  rintro _ t ⟨ht, a, ha, hnew⟩
  obtain ⟨ht', hsame⟩ := hto t ht
  have hct : Claimed t id := hc.frame ht.1 (by simp [AtPaths]) (by simp [AtPaths])
  exact wp_mono (wp_adoptSwap ht.2 hct (by rw [hsame]; exact hpath) hnew)
    (fun _ u hu => ⟨ht'.trans hu.1, .inr ⟨a, ha, hu.2⟩⟩) (fun _ u hu =>
      ⟨ht'.trans hu.1, a, ha, hu.2⟩)
    fun _ _ h => h.elim

/-- The places a workspace is made at. -/
def WorkspacePlaces (id : EnvID) (workspace : Path) : Place → Prop
  | .node p => p = workspace ∨ p = .adopt id ∨ ∃ r, p = .repo r
  | _ => False

/-- The files a workspace will have, when it has to be made a subvolume. -/
def madeTree (s : Pool T) (workspace : Path) (golden : Option Path) : Option T :=
  match s.node workspace with
  | none => some Tree.empty
  | some (.plain tree) => adopted s tree golden
  | some .dir => adopted s Tree.empty golden
  | _ => none

theorem wp_makeParent {workspace : Path} (hs : Sane named s)
    (hws : Path.IsWorkspace id workspace) :
    wp (makeParent workspace)
      (fun _ t => Sound named (WorkspacePlaces id workspace) s t ∧
        t.node workspace = s.node workspace)
      (fun _ t => (Sound named (WorkspacePlaces id workspace) s t ∧
        t.node workspace = s.node workspace) ∧ (Claimed s id → Claimed t id))
      (fun _ t => t = s) s := by
  cases hws with
  | live =>
    show wp (pure ()) _ _ _ s
    rw [wp_pure]
    exact ⟨⟨Sound.refl hs, rfl⟩, fun h => h⟩
  | worktree r n =>
    refine wp_op (fun t ht => ?_) fun _ _ => rfl
    have hsound : Sound named (WorkspacePlaces id (.worktree r n)) s t :=
      (Sound.run (o := .mkdir (.repo r)) hs ⟨trivial, nofun⟩ ht).mono
        (by rintro _ rfl; exact .inr (.inr ⟨r, rfl⟩))
    have hkeep := (Op.run_frame ht).node (.worktree r n) nofun
    exact ⟨⟨hsound, hkeep⟩, ⟨hsound, hkeep⟩, fun hc => hc.frame (Op.run_frame ht) nofun nofun⟩

/-- What a call that makes a workspace, begun in `s` and now in `t`, keeps and leaves. -/
def Makes (named : Prop) (s : Pool T) (id : EnvID) (workspace : Path)
    (golden : Option Path) (c : StoreM T Unit) (t : Pool T) : Prop :=
  wp c (fun _ t => Sound named (WorkspacePlaces id workspace) s t ∧
      Whole s t workspace (madeTree s workspace golden))
    (fun _ t => Sound named (WorkspacePlaces id workspace) s t ∧
      ((t = s ∧ ∃ tree b, s.node workspace = some (.subvol tree b)) ∨
        ∃ a, madeTree s workspace golden = some a ∧ t.node workspace = some (.subvol a false)))
    (fun _ t => Sound named (WorkspacePlaces id workspace) s t ∧
      t.node workspace = s.node workspace) t

/-- A workspace made where nothing is, once its parent is there. -/
private theorem makes_new {workspace : Path} (hws : Path.IsWorkspace id workspace)
    (ht : Sound named (WorkspacePlaces id workspace) s t)
    (hsame : t.node workspace = s.node workspace) (hct : Claimed t id)
    (htree : madeTree s workspace golden = some Tree.empty) :
    Makes named s id workspace golden
      (do op (.createSubvolume workspace); op (.chown workspace)) t := by
  refine wp_seq (P := fun _ u => Sound named (WorkspacePlaces id workspace) s u ∧
    u.node workspace = some (.subvol Tree.empty false))
    (wp_op (fun u hu => ?_) fun e he => ⟨ht, hsame⟩) ?_
  · have hsafe : (Op.createSubvolume workspace).Safe named t := by
      cases hws with
      | live => exact ⟨rfl, fun e he => by cases he; exact hct⟩
      | worktree r n => exact ⟨trivial, nofun⟩
    have hsound : Sound named (WorkspacePlaces id workspace) s u :=
      ht.step hsafe hu (by rintro _ rfl; exact .inl rfl)
    have hnode : u.node workspace = some (.subvol Tree.empty false) := by
      rw [(Op.run_createSubvolume hu).2.2]
      simp
    exact ⟨⟨hsound, .inr ⟨_, htree, hnode⟩⟩, hsound, hnode⟩
  · rintro _ u ⟨hu, hnode⟩
    exact wp_chown (by rw [hnode]; simp) ⟨hu.own _ _, .inr ⟨_, htree, hnode⟩⟩
      ⟨hu.own _ _, .inr ⟨_, htree, hnode⟩⟩

private theorem makes_adopt {r n : String} (hs : Sane named s) (hc : Claimed s id)
    (hsome : s.node (.worktree r n) ≠ none)
    (htree : madeTree s (.worktree r n) golden = adopted s tree golden) :
    Makes named s id (.worktree r n) golden (adopt id (.worktree r n) tree golden) s := by
  have hwiden : ∀ q, AtPaths [.adopt id, .worktree r n] q →
      WorkspacePlaces id (.worktree r n) q := by
    intro q hq
    cases q with
    | node p =>
      simp only [AtPaths, mem_cons, not_mem_nil, or_false] at hq
      rcases hq with rfl | rfl
      · exact .inr (.inl rfl)
      · exact .inl rfl
    | env e => exact hq
    | snap e x => exact hq
  unfold Makes
  rw [htree]
  exact wp_mono (wp_adopt hs hc hsome) (fun _ t ht => ⟨ht.1.mono hwiden, ht.2⟩)
    (fun _ t ht => ⟨ht.1.mono hwiden, .inr ht.2⟩) fun _ t ht => ⟨ht.1.mono hwiden, ht.2⟩

/-- `makeWorkspace`: at every moment the path holds what was there or the whole workspace. -/
theorem wp_makeWorkspace {workspace : Path} (hs : Sane named s) (hc : Claimed s id)
    (hws : Path.IsWorkspace id workspace) :
    Makes named s id workspace golden (makeWorkspace id workspace golden) s := by
  unfold makeWorkspace Makes
  rw [wp_bind, wp_read]
  split
  · rename_i hnone
    refine wp_step (wp_makeParent hs hws) (fun _ t h => ⟨h.1, .inl h.2⟩)
      (fun _ t h => by rw [h]; exact ⟨Sound.refl hs, rfl⟩) ?_
    rintro _ t ⟨⟨ht, hsame⟩, hct⟩
    exact makes_new hws ht hsame (hct hc) (by simp [madeTree, hnone])
  · rename_i tree b hsub
    rw [wp_pure]
    exact ⟨Sound.refl hs, .inl ⟨rfl, tree, b, hsub⟩⟩
  · rename_i tree hplain
    cases hws with
    | live => exact absurd (hs.holds _ _ hplain) (by simp [Path.Holds, Node.isSubvolume])
    | worktree r n => exact makes_adopt hs hc (by rw [hplain]; simp) (by simp [madeTree, hplain])
  · rename_i hdir
    cases hws with
    | live => exact absurd (hs.holds _ _ hdir) (by simp [Path.Holds, Node.isSubvolume])
    | worktree r n => exact makes_adopt hs hc (by rw [hdir]; simp) (by simp [madeTree, hdir])
  · rw [wp_fail]
    exact ⟨Sound.refl hs, rfl⟩

end Fern

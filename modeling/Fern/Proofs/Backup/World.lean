/-
What backups find in the pool and the bucket.

Names are never used twice, so an object with the name of a snapshot was sent from that snapshot,
as long as there is one.  That is what makes a parent found by its name the one the chain ends
with.
-/
import Fern.Proofs.Backup.Chain
import Fern.Proofs.Store.Snapshots

namespace Fern

open Call StoreM

variable {T : Type} {name : SnapID}

/-! ### Calls of the store -/

theorem World.call_keeps {I : Pool T → Prop} {s : Pool T} {c : StoreM T Unit} (h : Keeps I c s)
    (hs : I s) (stop : Option Nat) : I (World.call s c stop).1 := by
  cases stop with
  | none => exact h.final
  | some k => exact h.stops hs (stops_stopAt c k s)

/-- `t` is `s` on disk, but for a snapshot. -/
def ButSnap (s : Pool T) (id : EnvID) (x : SnapID) (t : Pool T) : Prop :=
  ∀ p, p ≠ .snap id x → t.node p = s.node p

theorem keeps_Snapshot [Tree T] (s : Pool T) (id : EnvID) (x : SnapID) :
    Keeps (ButSnap s id x) (Snapshot id x) s := by
  have hop : ∀ (o : Op T) t, ButSnap s id x t → (∀ p, o.writes (.node p) → p = .snap id x) →
      Keeps (ButSnap s id x) (op o) t := by
    intro o t ht hwrites
    refine keeps_perform ht fun u hu p hp => ?_
    rw [(Op.run_frame hu).node p fun hw => hp (hwrites p hw)]
    exact ht p hp
  have htime : ∀ t, ButSnap s id x t → Keeps (ButSnap s id x) timeNow t := by
    intro t ht
    refine (keeps_read_bind _).mpr (keeps_bind (hop .clock t ht nofun) fun _ u hu => ?_)
    exact (keeps_pure _).mpr hu
  have hs : ButSnap s id x s := fun _ _ => rfl
  unfold Keeps
  rcases Snapshot_cases id x s with ⟨e, he⟩ | ⟨env, rfl, -, -, heq⟩
  · rw [wp_congr he, wp_fail]
    exact hs
  rw [wp_congr heq]
  unfold snapshot
  refine (keeps_read_bind _).mpr ?_
  split
  · exact keeps_bind (htime s hs) fun now t ht => hop _ t ht nofun
  · refine keeps_bind (hop _ s hs fun p hw => ?_) fun _ t ht =>
      keeps_bind (htime t ht) fun now u hu => hop _ u hu nofun
    injection hw

theorem keeps_DeleteSnapshot [Tree T] (s : Pool T) (id : EnvID) (x : SnapID) :
    Keeps (Less s) (DeleteSnapshot id x) s := by
  have hs : Less s s := fun _ => .inl rfl
  have hdrop : ∀ t p, Less s t → Less s (t.drop p) := by
    intro t p ht
    refine ht.trans fun q => ?_
    by_cases hq : q = p
    · exact .inr (by simp [Pool.node, Pool.drop, hq])
    · exact .inl (by simp [Pool.node, Pool.drop, hq])
  have hone : ∀ p t, Less s t → ∀ nested, Keeps (Less s) (deleteOne nested p) t := by
    intro p t ht nested
    refine (keeps_read_bind _).mpr ?_
    split
    · exact (keeps_pure _).mpr ht
    · refine keeps_bind (keeps_perform ht fun u hu => ?_) fun _ u hu => (keeps_pure _).mpr hu
      simp only [Op.run] at hu
      split at hu
      · split at hu
        · contradiction
        · cases hu
          exact hdrop t p ht
      · contradiction
      · contradiction
    · exact (keeps_pure _).mpr ht
  have hnested : ∀ p t, Less s t → Keeps (Less s) (op (.deleteNested p) : StoreM T Unit) t := by
    intro p t ht
    refine keeps_perform ht fun u hu => ?_
    simp only [Op.run] at hu
    split at hu
    · cases hu
      exact hdrop t p ht
    · contradiction
    · contradiction
  unfold DeleteSnapshot
  split
  · refine keeps_bind (wp_mono (wp_get id s) (fun _ _ h => h) (fun _ t h => by rw [h.1]; exact hs)
      fun _ t h => by rw [h.1]; exact hs) fun _ t ht => ?_
    refine keeps_bind ?_ fun _ u hu => keeps_perform hu fun v hv => ?_
    · exact keeps_bind (keeps_eachWith _ ht fun p _ nested u hu => hone p u hu nested)
        fun nested u hu => keeps_each _ hu fun p _ v hv => hnested p v hv
    · cases hv
      exact hu
  · exact (keeps_fail _).mpr hs

namespace World

variable {w w' : World T}

/-! ### Names -/

/-- A backup may have used the name. -/
def Used (w : World T) (name : SnapID) : Prop := ∃ t ≤ w.clock, name = backupID t

/-- A backup may have put an object at the key. -/
def Old (w : World T) : Key → Prop
  | .manifest => True
  | .state t => t ≤ w.clock
  | .send _ name => w.Used name

theorem Used.isBackup (h : w.Used name) : isBackup name := by
  obtain ⟨t, -, rfl⟩ := h
  exact isBackup_backupID t

theorem Used.mono (h : w.Used name) (hclock : w.clock ≤ w'.clock) :
    w'.Used name := by
  obtain ⟨t, ht, rfl⟩ := h
  exact ⟨t, Nat.le_trans ht hclock, rfl⟩

theorem Old.mono {k : Key} (h : w.Old k) (hclock : w.clock ≤ w'.clock) : w'.Old k := by
  cases k with
  | manifest => trivial
  | state t => exact Nat.le_trans h hclock
  | send id name => exact Used.mono h hclock

theorem clock_lt_now (w : World T) (x : Input) : w.clock < w.now x :=
  Nat.lt_of_lt_of_le (Nat.lt_succ_self w.clock) (Nat.le_add_right _ x.wait)

theorem not_used_now (w : World T) (x : Input) : ¬ w.Used (backupID (w.now x)) := by
  rintro ⟨t, ht, heq⟩
  rw [← backupID_injective heq] at ht
  exact absurd ht (Nat.not_le.mpr (w.clock_lt_now x))

/-! ### What holds in the pool and the bucket -/

/-- What holds in the pool and the bucket at any time. -/
structure Inv (w : World T) : Prop where
  snaps : ∀ id name, isBackup name → w.pool.node (.snap id name) ≠ none → w.Used name
  old : ∀ k, w.bucket.get k ≠ none → w.Old k
  /-- What was sent under a snapshot's name was sent from it. -/
  sent : ∀ id name st, w.bucket.get (.send id name) = some (.send st) →
    w.pool.node (.snap id name) ≠ none → st.taken = w.taken id name
  last : ∀ p, w.last p ≤ w.gen
  stored : ∀ m, w.manifest? = some m → m.Whole w.bucket

/-- The pool goes on: of the snapshots that had the name of a backup's, each is there as it was
or is gone. -/
structure Ages (w w' : World T) : Prop where
  clock : w.clock ≤ w'.clock
  gen : w.gen ≤ w'.gen
  last : ∀ p, w'.last p ≤ w'.gen
  names : ∀ id name, isBackup name → w'.pool.node (.snap id name) ≠ none → w'.Used name
  snaps : ∀ id name, w.Used name → w'.pool.node (.snap id name) = none ∨
    w'.pool.node (.snap id name) = w.pool.node (.snap id name) ∧ w'.taken id name = w.taken id name

theorem Ages.there (h : w.Ages w') {id : EnvID} (hused : w.Used name)
    (hnode : w'.pool.node (.snap id name) ≠ none) :
    w.pool.node (.snap id name) ≠ none ∧ w'.taken id name = w.taken id name := by
  rcases h.snaps id name hused with hnone | ⟨hsame, htaken⟩
  · contradiction
  · exact ⟨hsame ▸ hnode, htaken⟩

theorem Inv.refl (h : w.Inv) : w.Ages w where
  clock := Nat.le_refl _
  gen := Nat.le_refl _
  last := h.last
  names := h.snaps
  snaps _ _ _ := .inr ⟨rfl, rfl⟩

theorem Inv.others (h : w.Inv) (hothers : w.Others w') : w.Ages w' where
  clock := hothers.clock
  gen := hothers.gen
  last p := by
    rcases hothers.last p with hp | hp
    · rw [hp]
      exact Nat.le_trans (h.last p) hothers.gen
    · exact hp.2
  names id name hname hnode := by
    rcases hothers.snaps id name hname with hnone | ⟨hsame, -⟩
    · contradiction
    · exact (h.snaps id name hname (hsame ▸ hnode)).mono hothers.clock
  snaps id name hused := hothers.snaps id name hused.isBackup

theorem Inv.tick (h : w.Inv) (x : Input) : w.Ages { w with clock := w.now x } where
  clock := Nat.le_of_lt (w.clock_lt_now x)
  gen := Nat.le_refl _
  last := h.last
  names id name hname hnode := (h.snaps id name hname hnode).mono (Nat.le_of_lt (w.clock_lt_now x))
  snaps _ _ _ := .inr ⟨rfl, rfl⟩

theorem dropSnapshot_others [Tree T] (w : World T) (id : EnvID) (name : SnapID) (x : Input) :
    w.Others (w.dropSnapshot id name x).1 where
  bucket := rfl
  clock := Nat.le_refl _
  gen := Nat.le_refl _
  last _ := .inl rfl
  snaps id' name' _ := by
    have hless := call_keeps (keeps_DeleteSnapshot w.pool id name) (fun _ => .inl rfl) x.stop
    rcases hless (.snap id' name') with h | h
    · exact .inr ⟨h, rfl⟩
    · exact .inl h

theorem Inv.took [Tree T] (h : w.Inv) (id : EnvID) (x : Input) :
    w.Ages (w.takeSnapshot id (backupID (w.now x)) x).1 := by
  have hkeep := call_keeps (keeps_Snapshot w.pool id (backupID (w.now x))) (fun _ _ => rfl) x.stop
  have hclock : w.clock ≤ w.now x := Nat.le_of_lt (w.clock_lt_now x)
  refine ⟨hclock, Nat.le_succ _, fun p => ?_, fun e name hname hnode => ?_, fun e name hused => ?_⟩
  · dsimp only [takeSnapshot]
    split
    · exact Nat.le_refl _
    · exact Nat.le_succ_of_le (h.last p)
  · by_cases hsnap : Path.snap e name = .snap id (backupID (w.now x))
    · injection hsnap with _ hsame
      exact ⟨w.now x, Nat.le_refl _, hsame⟩
    · have hsame := hkeep (.snap e name) hsnap
      exact (h.snaps e name hname (hsame ▸ hnode)).mono hclock
  · -- the name taken is a new one
    have hne : name ≠ backupID (w.now x) := by
      rintro rfl
      exact w.not_used_now x hused
    refine .inr ⟨hkeep (.snap e name) ?_, ?_⟩
    · intro hsnap
      injection hsnap with _ hsame
      exact hne hsame
    · simp [takeSnapshot, hne]

theorem taken_takeSnapshot [Tree T] (w : World T) (id : EnvID) (name : SnapID) (x : Input)
    (hnode : (w.takeSnapshot id name x).1.pool.node (.snap id name) ≠ none) :
    (w.takeSnapshot id name x).1.taken id name = w.gen + 1 := by
  have hsome : ((call w.pool (Snapshot id name) x.stop).1.node (.snap id name)).isSome = true :=
    Option.isSome_iff_ne_none.mpr hnode
  simp [takeSnapshot, hsome]

/-! ### What changes the bucket -/

theorem manifest?_eq_some {m : Manifest} :
    w.manifest? = some m ↔ w.bucket.get .manifest = some (.manifest m) := by
  unfold manifest?
  split
  case h_1 m' h => simp [h]
  case h_2 h => exact ⟨(by simp), fun hm => absurd hm (h m)⟩

theorem Inv.ages (h : w.Inv) (hages : w.Ages w') (hbucket : w'.bucket = w.bucket) : w'.Inv where
  snaps := hages.names
  old k hk := by
    rw [hbucket] at hk
    exact (h.old k hk).mono hages.clock
  sent id name st hget hnode := by
    rw [hbucket] at hget
    have hused : w.Used name := h.old (.send id name) (by simp [hget])
    obtain ⟨hnode, htaken⟩ := hages.there hused hnode
    rw [htaken]
    exact h.sent id name st hget hnode
  last := hages.last
  stored m hm := by
    rw [manifest?_eq_some, hbucket, ← manifest?_eq_some] at hm
    rw [hbucket]
    exact h.stored m hm

theorem Inv.put (h : w.Inv) {k : Key} {o : Object T} (hnone : w.bucket.get k = none)
    (hold : w.Old k) (hmanifest : k ≠ .manifest)
    (hsent : ∀ id name st, k = .send id name → o = .send st →
      w.pool.node (.snap id name) ≠ none → st.taken = w.taken id name) : (w.put k o).Inv where
  snaps := h.snaps
  old k' hk' := by
    by_cases hkk : k' = k
    · rw [hkk]
      exact hold
    · exact h.old k' (by simpa [World.put, hkk] using hk')
  sent id name st hget hnode := by
    by_cases hkk : Key.send id name = k
    · exact hsent id name st hkk.symm (by simpa [World.put, hkk] using hget) hnode
    · exact h.sent id name st (by simpa [World.put, hkk] using hget) hnode
  last := h.last
  stored m hm := by
    rw [manifest?_eq_some] at hm
    have hwhole :=
      h.stored m (manifest?_eq_some.mpr (by simpa [World.put, hmanifest.symm] using hm))
    exact hwhole.set hnone o

theorem Inv.save (h : w.Inv) {m : Manifest} (hm : m.Whole w.bucket) :
    (w.put .manifest (.manifest m)).Inv where
  snaps := h.snaps
  old k hk := by
    by_cases hkk : k = .manifest
    · rw [hkk]
      trivial
    · exact h.old k (by simpa [World.put, hkk] using hk)
  sent id name st hget := h.sent id name st (by simpa [World.put] using hget)
  last := h.last
  stored m' hm' := by
    obtain rfl : m = m' := by simpa [manifest?_eq_some, World.put] using hm'
    exact hm.congr fun k hk => by simp [World.put, (hm.names hk).2]

theorem Inv.delete (h : w.Inv) {k : Key} (hmanifest : k ≠ .manifest)
    (hnames : ∀ m, w.manifest? = some m → ¬ m.Names k) : (w.delete k).Inv where
  snaps := h.snaps
  old k' hk' := by
    refine h.old k' fun hnone => hk' ?_
    simp [World.delete, hnone]
  sent id name st hget := by
    refine h.sent id name st ?_
    simp only [World.delete, FinMap.get_erase] at hget
    split at hget
    · contradiction
    · exact hget
  last := h.last
  stored m hm := by
    have hstored : w.manifest? = some m := by
      rw [manifest?_eq_some] at hm ⊢
      simpa [World.delete, hmanifest.symm] using hm
    refine (h.stored m hstored).congr fun k' hk' => ?_
    have hne : k' ≠ k := by
      rintro rfl
      exact hnames m hstored hk'
    simp [World.delete, hne]

end World

end Fern

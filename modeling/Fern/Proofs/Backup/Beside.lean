/-
Backups beside each other.

Each run is fine as long as nobody deletes what it counts on.  Only a sweep deletes, and only what
it has listed; so it all comes down to what is on the pages of a listing and the run's own manifest
doesn't name.  Once that is doomed it stays so: neither run takes up an object it has not put itself
or found in the stored manifest.
-/
import Fern.Proofs.Backup.Once

namespace Fern

namespace Backups

variable {T : Type} {s s' : Backups T} {i : Bool} {r r' : Run T} {w w' : World T}

/-- A run has listed the object, and nothing counts on it. -/
structure Doomed (s : Backups T) (i : Bool) (r : Run T) (k : Key) : Prop where
  manifest : k ≠ .manifest
  old : s.w.Old k
  stored : ∀ m, s.w.manifest? = some m → ¬ m.Names k
  own : ¬ r.m.Names k
  other : ∀ r', s.run (!i) = some r' → ¬ r'.Claims k

/-- What holds at any time. -/
structure Inv (s : Backups T) : Prop where
  world : s.w.Inv
  runs : ∀ i r, s.run i = some r → r.Inv s.w
  /-- No two runs are sending under one key. -/
  apart : ∀ i r r', s.run i = some r → s.run (!i) = some r' → ∀ k, r.pc.inFlight = some k →
    r'.pc.inFlight ≠ some k
  swept : ∀ i r, s.run i = some r → ∀ k ∈ r.pc.sweepKeys r.m, s.Doomed i r k

/-- What a page of a run's listing adds to the objects the run will delete is not named by the
stored manifest and not held by the other run when the page is read. -/
def Fair (s s' : Backups T) : Prop :=
  ∀ i r r', s.run i = some r → s'.run i = some r' → ∀ k ∈ r'.pc.sweepKeys r'.m,
    k ∉ r.pc.sweepKeys r.m →
      (∀ m, s.w.manifest? = some m → ¬ m.Names k) ∧ ∀ q, s.run (!i) = some q → ¬ q.Holds k

theorem Fair.of_update {q : Option (Run T)}
    (h : ∀ r r', s.run i = some r → q = some r' → ∀ k ∈ r'.pc.sweepKeys r'.m,
      k ∉ r.pc.sweepKeys r.m →
        (∀ m, s.w.manifest? = some m → ¬ m.Names k) ∧ ∀ q, s.run (!i) = some q → ¬ q.Holds k) :
    s.Fair ⟨w, Function.update s.run i q⟩ := by
  intro j r r' hrun hrun' k hk hnew
  by_cases hj : j = i
  · subst hj
    exact h r r' hrun (by simpa using hrun') k hk hnew
  · obtain rfl : r = r' := by simpa [hj, hrun] using hrun'
    exact absurd hk hnew

theorem Start.inv (h : s.Start) : s.Inv where
  world :=
    { snaps := fun id name hname hnode => absurd (h.snaps id name hname) hnode
      old := fun k hk => by simp [h.bucket] at hk
      sent := fun id name st hget => by simp [h.bucket] at hget
      last := h.last
      stored := fun m hm => by simp [World.manifest?_eq_some, h.bucket] at hm }
  runs i r hr := by simp [h.run i] at hr
  apart i r r' hr := by simp [h.run i] at hr
  swept i r hr := by simp [h.run i] at hr

/-- What a run is sending under is a send's key, and there is no object there yet. -/
theorem flight_old (h : r.Inv w) {k : Key} (hk : r.pc.inFlight = some k) :
    w.Old k ∧ w.bucket.get k = none ∧ k ≠ .manifest := by
  have hpc := h.pc
  cases hcase : r.pc with
  | send env parent name =>
    rw [hcase] at hk hpc
    cases hk
    exact ⟨hpc.2.1, hpc.2.2, (by simp)⟩
  | put env parent name st =>
    rw [hcase] at hk hpc
    cases hk
    exact ⟨hpc.1, hpc.2.1, (by simp)⟩
  | _ => rw [hcase] at hk; contradiction

theorem claims_ne_manifest (h : r.Inv w) {k : Key} (hk : r.Claims k) :
    k ≠ .manifest :=
  hk.elim (fun hk => (h.holds hk).2) fun hk => (flight_old h hk).2.2

private theorem eq_not {j : Bool} (h : j ≠ i) : j = !i := by
  cases i <;> cases j <;> simp_all

private theorem Inv.replace (h : s.Inv) (hrun : s.run i = some r) (hworld : w'.Inv)
    (hages : s.w.Ages w') (hr' : r'.Inv w')
    (hsame : ∀ q, s.run (!i) = some q → ∀ k, q.Claims k → w'.bucket.get k = s.w.bucket.get k)
    (hflight : ∀ k, r'.pc.inFlight = some k → r.pc.inFlight = some k ∨ ¬ s.w.Old k)
    (hstored : ∀ m k, w'.manifest? = some m → m.Names k →
      r.Holds k ∨ ∃ m', s.w.manifest? = some m' ∧ m'.Names k)
    (hholds : ∀ k, r'.Holds k → r.Holds k ∨ ¬ s.w.Old k ∨ r.pc.inFlight = some k ∨
      ∃ m, s.w.manifest? = some m ∧ m.Names k) (hswept : ∀ k ∈ r'.pc.sweepKeys r'.m,
      Doomed ⟨w', Function.update s.run i (some r')⟩ i r' k) :
    Inv ⟨w', Function.update s.run i (some r')⟩ := by
  have hself : Function.update s.run i (some r') i = some r' := by simp
  have hother : ∀ j, j ≠ i → Function.update s.run i (some r') j = s.run j := by
    intro j hj
    simp [hj]
  have hi : (!i) ≠ i := by simp
  -- what the step's run is sending under, the other is not
  have hapart : ∀ q k, s.run (!i) = some q → r'.pc.inFlight = some k → q.pc.inFlight ≠ some k := by
    intro q k hq hk hqk
    rcases hflight k hk with hk | hk
    · exact h.apart i r q hrun hq k hk hqk
    · exact hk (flight_old (h.runs _ q hq) hqk).1
  refine ⟨hworld, fun j q hq => ?_, fun j q q' hq hq' k hk hk' => ?_, fun j q hq k hk => ?_⟩
  · by_cases hj : j = i
    · subst hj
      cases hself.symm.trans hq
      exact hr'
    · dsimp only at hq
      rw [hother j hj] at hq
      have hj := eq_not hj
      subst hj
      exact (h.runs _ q hq).stable hages (hsame q hq)
  · dsimp only at hq hq'
    by_cases hj : j = i
    · subst hj
      cases hself.symm.trans hq
      rw [hother _ hi] at hq'
      exact hapart q' k hq' hk hk'
    · rw [hother j hj] at hq
      have hj := eq_not hj
      subst hj
      rw [Bool.not_not] at hq'
      cases hself.symm.trans hq'
      exact hapart q k hq hk' hk
  · by_cases hj : j = i
    · subst hj
      cases hself.symm.trans hq
      exact hswept k hk
    · dsimp only at hq
      rw [hother j hj] at hq
      have hj := eq_not hj
      subst hj
      have hdoomed := h.swept _ q hq k hk
      have hclaims : ¬ r.Claims k := hdoomed.other r (by rw [Bool.not_not]; exact hrun)
      refine ⟨hdoomed.manifest, hdoomed.old.mono hages.clock, fun m hm hk => ?_, hdoomed.own,
        fun q' hq' hclaim => ?_⟩
      · rcases hstored m k hm hk with hk | ⟨m', hm', hk⟩
        · exact hclaims (.inl hk)
        · exact hdoomed.stored m' hm' hk
      · dsimp only at hq'
        rw [Bool.not_not, hself] at hq'
        cases hq'
        rcases hclaim with hclaim | hclaim
        · rcases hholds k hclaim with hk | hk | hk | ⟨m, hm, hk⟩
          · exact hclaims (.inl hk)
          · exact hk hdoomed.old
          · exact hclaims (.inr hk)
          · exact hdoomed.stored m hm hk
        · rcases hflight k hclaim with hk | hk
          · exact hclaims (.inr hk)
          · exact hk hdoomed.old

private theorem manifest?_congr (h : w'.bucket.get .manifest = w.bucket.get .manifest) :
    w'.manifest? = w.manifest? := by
  unfold World.manifest?
  rw [h]

private theorem ages_bucket (h : w.Ages w') (b : FinMap Key (Object T)) :
    w.Ages { w' with bucket := b } :=
  ⟨h.clock, h.gen, h.last, h.names, h.snaps⟩

/-- What is doomed stays so when its run goes on. -/
private theorem Doomed.keep {k : Key} (h : s.Doomed i r k) (hm : r'.m = r.m)
    (hclock : w'.clock = s.w.clock) (hstored : w'.manifest? = s.w.manifest?) :
    Doomed ⟨w', Function.update s.run i (some r')⟩ i r' k := by
  refine ⟨h.manifest, h.old.mono (Nat.le_of_eq hclock.symm), fun m hm => h.stored m (hstored ▸ hm),
    hm ▸ h.own, fun q hq => ?_⟩
  dsimp only at hq
  rw [Function.update_of_ne (by simp)] at hq
  exact h.other q hq

/-- **One run's step keeps everything.** -/
theorem Inv.goes (h : s.Inv) (hrun : s.run i = some r) (heffect : r.Effect s.w w' r')
    (hfair : ∀ k ∈ r'.pc.sweepKeys r'.m, k ∉ r.pc.sweepKeys r.m →
      (∀ m, s.w.manifest? = some m → ¬ m.Names k) ∧ ∀ q, s.run (!i) = some q → ¬ q.Holds k) :
    Inv ⟨w', Function.update s.run i (some r')⟩ := by
  have hr := h.runs i r hrun
  have hlisted := fun k hk hnew => heffect.listed (k := k) hk hnew
  cases heffect with
  | stays hages hbucket hinv hholds hflight hsweep =>
    have hmanifest : w'.manifest? = s.w.manifest? := manifest?_congr (by rw [hbucket])
    refine h.replace hrun (h.world.ages hages hbucket) hages hinv (fun q _ k _ => by rw [hbucket])
      hflight (fun m k hm hk => .inr ⟨m, hmanifest ▸ hm, hk⟩) (fun k hk => ?_) (by simp [hsweep])
    exact (hholds k hk).imp id fun hk => .inr (.inr hk)
  | lists keys page pc hpc _ hpc' =>
    obtain ⟨hlocal, hflight, hholds⟩ :
        pc.Local s.w r.m ∧ pc.inFlight = none ∧ ∀ k, ¬ pc.Holds k := by
      rcases hpc' with rfl | rfl
      · exact ⟨trivial, rfl, fun _ h => h⟩
      · exact ⟨trivial, rfl, fun _ h => h⟩
    refine h.replace hrun h.world h.world.refl ⟨hr.whole, hlocal⟩ (fun _ _ _ _ => rfl)
      (by simp [hflight]) (fun m k hm hk => .inr ⟨m, hm, hk⟩)
      (fun k hk => .inl (hk.imp id fun hk => absurd hk (hholds k))) (fun k hk => ?_)
    by_cases hold : k ∈ r.pc.sweepKeys r.m
    · exact (h.swept i r hrun k hold).keep rfl rfl rfl
    · -- it is on this page
      obtain ⟨-, hget, hkeep⟩ := hlisted k hk hold
      obtain ⟨hstored, hother⟩ := hfair k hk hold
      obtain ⟨hmanifest, hown⟩ : k ≠ .manifest ∧ ¬ r.m.Names k := by
        rw [← not_or, ← Manifest.keeps_iff, hkeep]
        simp
      refine ⟨hmanifest, h.world.old k hget, hstored, hown, fun q hq hclaim => ?_⟩
      dsimp only at hq
      rw [Function.update_of_ne (by simp)] at hq
      rcases hclaim with hclaim | hclaim
      · exact hother q hq hclaim
      · exact hget (flight_old (h.runs _ q hq) hclaim).2.1
  | @puts w₁ k o _ hages hbucket hnone hold hmanifest hsent hkey hinv hholds hflight hsweep =>
    have hstored : (w₁.put k o).manifest? = s.w.manifest? :=
      manifest?_congr (by simp [World.put, hbucket, hmanifest.symm])
    have hworld := (h.world.ages hages hbucket).put (by rw [hbucket]; exact hnone) hold hmanifest
      hsent
    refine h.replace hrun hworld (ages_bucket hages _) hinv (fun q hq k' hk' => ?_)
      (by simp [hflight]) (fun m k' hm hk' => .inr ⟨m, hstored ▸ hm, hk'⟩) (fun k' hk' => ?_)
      (by simp [hsweep])
    · -- the key is new to the other run as well
      have hne : k' ≠ k := by
        rintro rfl
        have hq' := h.runs _ q hq
        rcases hk' with hk' | hk'
        · exact (hq'.holds hk').1 hnone
        · rcases hkey with hkey | hkey
          · exact h.apart i r q hrun hq k' hkey hk'
          · exact hkey (flight_old hq' hk').1
      simp [World.put, hne, hbucket]
    · rcases hholds k' hk' with hk' | rfl
      · exact .inl hk'
      · exact .inr (hkey.elim (fun hkey => .inr (.inl hkey)) .inl)
  | @saves m _ hm hnames hinv hholds hflight hsweep =>
    refine h.replace hrun (h.world.save hm) (ages_bucket h.world.refl _) hinv
      (fun q hq k hk => ?_) (by simp [hflight]) (fun m' k hm' hk => .inl ?_)
      (fun k hk => .inl (hholds k hk)) (by simp [hsweep])
    · simp [World.put, claims_ne_manifest (h.runs _ q hq) hk]
    · obtain rfl : m = m' := by simpa [World.manifest?_eq_some, World.put] using hm'
      exact hnames k hk
  | @sweeps k keys hpc failed =>
    refine h.replace hrun h.world h.world.refl ⟨hr.whole, trivial⟩ (fun _ _ _ _ => rfl)
      (fun _ h => by cases h)
      (fun m k hm hk => .inr ⟨m, hm, hk⟩) (fun k hk => .inl (hk.imp id fun hk => hk.elim))
      (fun k' hk' => ?_)
    have hdoomed := h.swept i r hrun k' (by rw [hpc]; exact List.mem_cons_of_mem _ hk')
    exact hdoomed.keep rfl rfl rfl
  | @deletes k keys hpc failed =>
    have hk := h.swept i r hrun k (by rw [hpc]; exact List.mem_cons_self)
    have hstored : (s.w.delete k).manifest? = s.w.manifest? :=
      manifest?_congr (by simp [World.delete, hk.manifest.symm])
    have hsame : ∀ k', k' ≠ k → (s.w.delete k).bucket.get k' = s.w.bucket.get k' := by
      intro k' hne
      simp [World.delete, hne]
    refine h.replace hrun (h.world.delete hk.manifest hk.stored) (ages_bucket h.world.refl _)
      ⟨hr.whole.congr fun k' hk' => hsame k' ?_, trivial⟩ (fun q hq k' hk' => hsame k' ?_)
      (fun _ h => by cases h)
      (fun m k' hm hk' => .inr ⟨m, hstored ▸ hm, hk'⟩)
      (fun k hk => .inl (hk.imp id fun hk => hk.elim)) (fun k' hk' => ?_)
    · rintro rfl
      exact hk.own hk'
    · rintro rfl
      exact hk.other q hq hk'
    · have hdoomed := h.swept i r hrun k' (by rw [hpc]; exact List.mem_cons_of_mem _ hk')
      exact hdoomed.keep rfl rfl hstored

private theorem Inv.swap (h : s.Inv) (i : Bool) (q : Option (Run T))
    (hq : ∀ r', q = some r' → r'.Inv s.w ∧ (∀ k, ¬ r'.Claims k) ∧ r'.pc.sweepKeys r'.m = []) :
    Inv { s with run := Function.update s.run i q } := by
  have hrun : ∀ j r', Function.update s.run i q j = some r' →
      s.run j = some r' ∨ r'.Inv s.w ∧ (∀ k, ¬ r'.Claims k) ∧ r'.pc.sweepKeys r'.m = [] := by
    intro j r' hr'
    by_cases hj : j = i
    · subst hj
      exact .inr (hq r' (by simpa using hr'))
    · exact .inl (by simpa [hj] using hr')
  refine ⟨h.world, fun j r' hr' => ?_, fun j r₁ r₂ hr₁ hr₂ k hk => ?_, fun j r' hr' k hk => ?_⟩
  · exact (hrun j r' hr').elim (h.runs j r') fun hr' => hr'.1
  · rcases hrun j r₁ hr₁ with hr₁ | hr₁
    · rcases hrun _ r₂ hr₂ with hr₂ | hr₂
      · exact h.apart j r₁ r₂ hr₁ hr₂ k hk
      · exact fun hk' => hr₂.2.1 k (.inr hk')
    · exact absurd (.inr hk) (hr₁.2.1 k)
  · rcases hrun j r' hr' with hr' | hr'
    · have hdoomed := h.swept j r' hr' k hk
      refine ⟨hdoomed.manifest, hdoomed.old, hdoomed.stored, hdoomed.own, fun r₂ hr₂ => ?_⟩
      exact (hrun _ r₂ hr₂).elim (hdoomed.other r₂) fun hr₂ => hr₂.2.1 k
    · rw [hr'.2.2] at hk
      contradiction

private theorem Inv.others (h : s.Inv) (hothers : s.w.Others w) :
    Inv { s with w } := by
  have hages := h.world.others hothers
  have hmanifest : w.manifest? = s.w.manifest? := manifest?_congr (by rw [hothers.bucket])
  refine ⟨h.world.ages hages hothers.bucket, fun j r hr => ?_, h.apart, fun j r hr k hk => ?_⟩
  · exact (h.runs j r hr).stable hages fun k _ => by rw [hothers.bucket]
  · have hdoomed := h.swept j r hr k hk
    exact ⟨hdoomed.manifest, hdoomed.old.mono hages.clock,
      fun m hm => hdoomed.stored m (hmanifest ▸ hm), hdoomed.own, hdoomed.other⟩

theorem Inv.step [Tree T] (h : s.Inv) (hfair : s.Fair s') (hstep : Step s s') : s'.Inv := by
  cases hstep with
  | begins i =>
    refine h.swap i _ fun r' hr' => ?_
    cases hr'
    refine ⟨⟨.empty, trivial⟩, fun k hk => ?_, rfl⟩
    rcases hk with (hk | hk) | hk
    · exact Manifest.not_names_empty k hk
    · exact hk.elim
    · contradiction
  | goes i r hrun x =>
    exact h.goes hrun (Run.step_effect h.world (h.runs i r hrun) x)
      (hfair i r _ hrun (Function.update_self ..))
  | stops i => exact h.swap i none fun r' hr' => by contradiction
  | others hothers => exact h.others hothers

/-- The states reached by steps that all meet `ok`. -/
inductive Reach [Tree T] (ok : Backups T → Backups T → Prop) : Backups T → Prop
  | start {s : Backups T} (h : s.Start) : Reach ok s
  | step {s s' : Backups T} (h : Reach ok s) (hok : ok s s') (hstep : Step s s') : Reach ok s'

theorem Reach.inv [Tree T] (h : Reach Fair s) : s.Inv := by
  induction h with
  | start h => exact h.inv
  | step _ hok hstep ih => exact ih.step hok hstep

end Backups

end Fern

/-
What a run of `Once` keeps.

A run's own manifest is whole at any time, with what the run has put and is about to name.  What a
step does to the bucket is one of four things: nothing, an object at a new key, the run's manifest,
or one object less of those it has listed.  `Effect` says so, with what the run counts on before and
after, and `step_effect` shows it, one lemma for each place a run can be in where there is something
to show.  Everything about runs beside each other is derived from that.
-/
import Fern.Proofs.Backup.World

namespace Fern

variable {T : Type} {w w' : World T} {r r' : Run T} {m : Manifest} {st : SendStream T}

/-! ### What a run has in the bucket

Besides what its manifest names, a run counts on the objects it has put and will name with its next
save, and on the key it is sending under being free.
-/

namespace Pc

/-- The key under which the run is sending. -/
def inFlight : Pc T → Option Key
  | .send env _ name | .put env _ name _ => some (.send env.id name)
  | _ => none

/-- The objects the run has put and its manifest doesn't name yet. -/
def Holds : Pc T → Key → Prop
  | .createdAt env _ name, k => k = .send env.id name
  | .dropParent _ _ eb, k | .save _ eb, k => ∃ s ∈ eb.chain, s.key = k
  | .saveState k', k => k = k'
  | _, _ => False

/-- The objects a run with the manifest `m` has listed and will delete. -/
def sweepKeys (m : Manifest) : Pc T → List Key
  | .sweepList keys => keys.filter fun k => !m.keeps k
  | .sweep keys => keys
  | _ => []

/-- What the run knows where it is. -/
def Local (w : World T) (m : Manifest) : Pc T → Prop
  | .leftovers env want _ _ => want = m.parent? env.id
  | .snapshot env parent => parent = none ∨ parent = m.parent? env.id
  | .send env parent name =>
    (parent = none ∨ parent = m.parent? env.id) ∧ w.Used name ∧
      w.bucket.get (.send env.id name) = none
  | .put env parent name st =>
    w.Used name ∧ w.bucket.get (.send env.id name) = none ∧ st.snapshot = name ∧
      m.Extends env.id parent st.parent ∧
      (w.pool.node (.snap env.id name) ≠ none → st.taken = w.taken env.id name)
  | .createdAt env parent name =>
    ∃ st, w.bucket.get (.send env.id name) = some (.send st) ∧ st.snapshot = name ∧
      m.Extends env.id parent st.parent
  | .dropParent env _ eb | .save env eb => Chained w.bucket env.id eb
  | .saveState k => ∃ t a, k = .state t ∧ w.bucket.get k = some (.state a)
  | _ => True

/-- Where a run has nothing in the bucket but what its manifest names, and deletes nothing. -/
def plain : Pc T → Bool
  | .send .. | .put .. | .createdAt .. | .dropParent .. | .save .. | .saveState _
  | .sweep _ => false
  | .sweepList keys => keys.isEmpty
  | _ => true

variable {pc : Pc T}

theorem inFlight_of_plain (h : pc.plain = true) : pc.inFlight = none := by
  cases pc <;> first | rfl | contradiction

theorem not_holds_of_plain (h : pc.plain = true) (k : Key) : ¬ pc.Holds k := by
  cases pc <;> first | exact not_false | contradiction

theorem sweepKeys_of_plain (h : pc.plain = true) (m : Manifest) : pc.sweepKeys m = [] := by
  cases pc with
  | sweepList keys =>
    obtain rfl := List.isEmpty_iff.mp h
    rfl
  | sweep => contradiction
  | _ => rfl

end Pc

namespace Run

/-- What the run has put or taken over, and counts on. -/
def Holds (r : Run T) (k : Key) : Prop := r.m.Names k ∨ r.pc.Holds k

/-- What the run holds, and what it is sending. -/
def Claims (r : Run T) (k : Key) : Prop := r.Holds k ∨ r.pc.inFlight = some k

/-- What holds of a run at any time. -/
structure Inv (w : World T) (r : Run T) : Prop where
  whole : r.m.Whole w.bucket
  pc : r.pc.Local w r.m

theorem Inv.holds (h : r.Inv w) {k : Key} (hk : r.Holds k) :
    w.bucket.get k ≠ none ∧ k ≠ .manifest := by
  rcases hk with hk | hk
  · exact h.whole.names hk
  · have hpc := h.pc
    cases hcase : r.pc with
    | createdAt env parent name =>
      rw [hcase] at hk hpc
      obtain ⟨st, hget, -⟩ := hpc
      obtain rfl : k = .send env.id name := hk
      exact ⟨by simp [hget], (by simp)⟩
    | dropParent env p eb | save env eb =>
      rw [hcase] at hk hpc
      obtain ⟨x, hx⟩ := Chained.chain hpc
      obtain ⟨s, hs, rfl⟩ := hk
      obtain ⟨st, hkey, hget⟩ := hx.get hs
      exact ⟨by simp [hget], by simp [hkey]⟩
    | saveState k' =>
      rw [hcase] at hk hpc
      obtain ⟨t, a, rfl, hget⟩ := hpc
      obtain rfl : k = .state t := hk
      exact ⟨by simp [hget], (by simp)⟩
    | _ => rw [hcase] at hk; exact hk.elim

theorem Inv.stable (h : r.Inv w) (hages : w.Ages w')
    (hsame : ∀ k, r.Claims k → w'.bucket.get k = w.bucket.get k) : r.Inv w' := by
  refine ⟨h.whole.congr fun k hk => hsame k (.inl (.inl hk)), ?_⟩
  have hpc := h.pc
  have hheld : ∀ k, r.pc.Holds k → w'.bucket.get k = w.bucket.get k :=
    fun k hk => hsame k (.inl (.inr hk))
  have hflight : ∀ k, r.pc.inFlight = some k → w'.bucket.get k = w.bucket.get k :=
    fun k hk => hsame k (.inr hk)
  cases hcase : r.pc with
  | send env parent name =>
    rw [hcase] at hpc hflight
    obtain ⟨hparent, hused, hnone⟩ := hpc
    exact ⟨hparent, hused.mono hages.clock, by rw [hflight _ rfl, hnone]⟩
  | put env parent name st =>
    rw [hcase] at hpc hflight
    obtain ⟨hused, hnone, hsnap, hext, htaken⟩ := hpc
    refine ⟨hused.mono hages.clock, by rw [hflight _ rfl, hnone], hsnap, hext, fun hnode => ?_⟩
    obtain ⟨hnode, hsame⟩ := hages.there hused hnode
    rw [hsame]
    exact htaken hnode
  | createdAt env parent name =>
    rw [hcase] at hpc hheld
    obtain ⟨st, hget, hrest⟩ := hpc
    exact ⟨st, by rw [hheld _ rfl, hget], hrest⟩
  | dropParent env p eb | save env eb =>
    rw [hcase] at hpc hheld
    exact Chained.congr hpc fun s hs => hheld _ ⟨s, hs, rfl⟩
  | saveState k =>
    rw [hcase] at hpc hheld
    obtain ⟨t, a, rfl, hget⟩ := hpc
    exact ⟨t, a, rfl, by rw [hheld _ rfl, hget]⟩
  | leftovers | snapshot => rw [hcase] at hpc; exact hpc
  | _ => trivial

/-! ### What a step does -/

/-- What a step of a run does to the bucket, and to what the run claims there. -/
inductive Effect (w : World T) (r : Run T) : World T → Run T → Prop
  /-- The bucket stays as it is. -/
  | stays {w' : World T} {r' : Run T} (hages : w.Ages w') (hbucket : w'.bucket = w.bucket)
      (hinv : r'.Inv w')
      (hholds : ∀ k, r'.Holds k → r.Holds k ∨ ∃ m, w.manifest? = some m ∧ m.Names k)
      (hflight : ∀ k, r'.pc.inFlight = some k → r.pc.inFlight = some k ∨ ¬ w.Old k)
      (hsweep : r'.pc.sweepKeys r'.m = []) : Effect w r w' r'
  /-- A page of the bucket is listed. -/
  | lists (keys page : List Key) (pc : Pc T) (hpc : r.pc = .sweepList keys)
      (hpage : ∀ k ∈ page, w.bucket.get k ≠ none)
      (hpc' : pc = .sweepList (keys ++ page) ∨
        pc = .sweep ((keys ++ page).filter fun k => !r.m.keeps k)) :
      Effect w r w { r with pc }
  /-- An object is put at a new key. -/
  | puts {w₁ : World T} {k : Key} {o : Object T} {r' : Run T} (hages : w.Ages w₁)
      (hbucket : w₁.bucket = w.bucket) (hnone : w.bucket.get k = none) (hold : w₁.Old k)
      (hmanifest : k ≠ .manifest)
      (hsent : ∀ id name st, k = .send id name → o = .send st →
        w₁.pool.node (.snap id name) ≠ none → st.taken = w₁.taken id name)
      (hkey : r.pc.inFlight = some k ∨ ¬ w.Old k) (hinv : r'.Inv (w₁.put k o))
      (hholds : ∀ k', r'.Holds k' → r.Holds k' ∨ k' = k) (hflight : r'.pc.inFlight = none)
      (hsweep : r'.pc.sweepKeys r'.m = []) : Effect w r (w₁.put k o) r'
  /-- The run's manifest is saved. -/
  | saves {m : Manifest} {r' : Run T} (hm : m.Whole w.bucket)
      (hnames : ∀ k, m.Names k → r.Holds k) (hinv : r'.Inv (w.put .manifest (.manifest m)))
      (hholds : ∀ k, r'.Holds k → r.Holds k) (hflight : r'.pc.inFlight = none)
      (hsweep : r'.pc.sweepKeys r'.m = []) : Effect w r (w.put .manifest (.manifest m)) r'
  /-- The run goes through what it has listed, and may delete an object. -/
  | sweeps {k : Key} {keys : List Key} (hpc : r.pc = .sweep (k :: keys)) (failed : Bool) :
      Effect w r w { r with pc := .sweep keys, failed }
  | deletes {k : Key} {keys : List Key} (hpc : r.pc = .sweep (k :: keys)) (failed : Bool) :
      Effect w r (w.delete k) { r with pc := .sweep keys, failed }

/-- A run that deletes something more has listed it, and its manifest doesn't name it. -/
theorem Effect.listed (h : Effect w r w' r') {k : Key} (hk : k ∈ r'.pc.sweepKeys r'.m)
    (hnew : k ∉ r.pc.sweepKeys r.m) :
    (∃ keys, r.pc = .sweepList keys) ∧ w.bucket.get k ≠ none ∧ r.m.keeps k = false := by
  cases h with
  | stays _ _ _ _ _ hsweep | puts _ _ _ _ _ _ _ _ _ _ hsweep | saves _ _ _ _ _ hsweep =>
    rw [hsweep] at hk
    contradiction
  | lists keys page pc hpc hpage hpc' =>
    have hk : k ∈ (keys ++ page).filter fun k => !r.m.keeps k := by
      rcases hpc' with rfl | rfl
      · exact hk
      · exact hk
    rw [List.mem_filter, List.mem_append] at hk
    obtain ⟨hk | hk, hkeep⟩ := hk
    · exact absurd (List.mem_filter.mpr ⟨hk, hkeep⟩) (by rw [hpc] at hnew; exact hnew)
    · exact ⟨⟨keys, hpc⟩, hpage k hk, by simpa using hkeep⟩
  | sweeps hpc | deletes hpc =>
    rw [hpc] at hnew
    exact absurd (List.mem_cons_of_mem _ hk) hnew

/-- The run goes on to a place where it has nothing in the bucket but its manifest's. -/
private theorem Effect.plain (hages : w.Ages w') (hbucket : w'.bucket = w.bucket)
    (hwhole : r'.m.Whole w.bucket) (hlocal : r'.pc.Local w' r'.m) (hplain : r'.pc.plain = true)
    (hnames : ∀ k, r'.m.Names k → r.Holds k ∨ ∃ m, w.manifest? = some m ∧ m.Names k) :
    Effect w r w' r' := by
  refine .stays hages hbucket ⟨by rw [hbucket]; exact hwhole, hlocal⟩ (fun k hk => ?_) ?_
    (Pc.sweepKeys_of_plain hplain _)
  · rcases hk with hk | hk
    · exact hnames k hk
    · exact absurd hk (Pc.not_holds_of_plain hplain k)
  · simp [Pc.inFlight_of_plain hplain]

private theorem Effect.goesOn (hr : r.Inv w) (hages : w.Ages w') (hbucket : w'.bucket = w.bucket)
    (hm : r'.m = r.m) (hlocal : r'.pc.Local w' r'.m) (hplain : r'.pc.plain = true) :
    Effect w r w' r' :=
  .plain hages hbucket (hm ▸ hr.whole) hlocal hplain fun _ hk => .inl (.inl (hm ▸ hk))

private theorem Effect.fail (hr : r.Inv w) (hages : w.Ages w') (hbucket : w'.bucket = w.bucket) :
    Effect w r w' r.fail :=
  .goesOn hr hages hbucket rfl trivial rfl

private theorem Effect.abort (hw : w.Inv) (hr : r.Inv w) : Effect w r w r.abort :=
  .goesOn hr hw.refl rfl rfl trivial rfl

private theorem Effect.upload_manifest (x : Input) (ok r' : Run T) (hw : w.Inv)
    (hm : r'.m.Whole w.bucket) (hnames : ∀ k, r'.m.Names k → r.Holds k) (hok : ok.m = r'.m)
    (hlocal : ∀ w', ok.pc.Local w' ok.m) (hplain : ok.pc.plain = true) :
    Effect w r (upload w .manifest (.manifest r'.m) x ok r'.abort).1
      (upload w .manifest (.manifest r'.m) x ok r'.abort).2 := by
  have hsaved : r'.m.Whole (w.put .manifest (.manifest r'.m)).bucket :=
    (hw.save hm).stored _ (World.manifest?_eq_some.mpr (by simp [World.put]))
  have hholds : ∀ {r₁ : Run T}, r₁.m = r'.m → r₁.pc.plain = true → ∀ k, r₁.Holds k → r.Holds k := by
    rintro r₁ hm₁ hplain₁ k (hk | hk)
    · exact hnames k (hm₁ ▸ hk)
    · exact absurd hk (Pc.not_holds_of_plain hplain₁ k)
  unfold upload
  cases x.answer with
  | ok =>
    exact .saves hm hnames ⟨hok ▸ hsaved, hlocal _⟩ (hholds hok hplain)
      (Pc.inFlight_of_plain hplain) (Pc.sweepKeys_of_plain hplain _)
  | error =>
    exact .plain hw.refl rfl hm trivial rfl fun k hk => .inl (hnames k hk)
  | lost =>
    exact .saves hm hnames ⟨hsaved, trivial⟩ (hholds rfl rfl) rfl rfl

private theorem Effect.upload_new (x : Input) {w₁ : World T} {k : Key} {o : Object T}
    {ok err : Run T} (hr : r.Inv w) (hages : w.Ages w₁) (hbucket : w₁.bucket = w.bucket)
    (hnone : w.bucket.get k = none) (hold : w₁.Old k) (hmanifest : k ≠ .manifest)
    (hsent : ∀ id name st, k = .send id name → o = .send st →
      w₁.pool.node (.snap id name) ≠ none → st.taken = w₁.taken id name)
    (hkey : r.pc.inFlight = some k ∨ ¬ w.Old k) (hok : ok.m = r.m)
    (hlocal : ok.pc.Local (w₁.put k o) ok.m) (hholds : ∀ k', ok.pc.Holds k' → k' = k)
    (hflight : ok.pc.inFlight = none) (hsweep : ok.pc.sweepKeys ok.m = []) (herr : err.m = r.m)
    (hlocal' : ∀ w', err.pc.Local w' err.m) (hplain : err.pc.plain = true) :
    Effect w r (upload w₁ k o x ok err).1 (upload w₁ k o x ok err).2 := by
  have hwhole : r.m.Whole (w₁.put k o).bucket := by
    simp only [World.put, hbucket]
    exact hr.whole.set hnone o
  unfold upload
  cases x.answer with
  | ok =>
    refine .puts hages hbucket hnone hold hmanifest hsent hkey ⟨hok ▸ hwhole, hlocal⟩ ?_ hflight
      hsweep
    rintro k' (hk' | hk')
    · exact .inl (.inl (hok ▸ hk'))
    · exact .inr (hholds k' hk')
  | error => exact .goesOn hr hages hbucket herr (hlocal' _) hplain
  | lost =>
    refine .puts hages hbucket hnone hold hmanifest hsent hkey ⟨herr ▸ hwhole, hlocal' _⟩ ?_
      (Pc.inFlight_of_plain hplain) (Pc.sweepKeys_of_plain hplain _)
    rintro k' (hk' | hk')
    · exact .inl (.inl (herr ▸ hk'))
    · exact absurd hk' (Pc.not_holds_of_plain hplain k')

theorem stream_eq_some {id : EnvID} {name : SnapID} {parent : Option SnapID}
    (h : w.stream id name parent = some st) :
    st.snapshot = name ∧ st.taken = w.taken id name ∧
      (parent = none ∧ st.parent = none ∨
        ∃ p, parent = some p ∧ st.parent = some (p, w.taken id p) ∧
          w.pool.node (.snap id p) ≠ none) := by
  obtain ⟨tree, -, h⟩ := Option.bind_eq_some_iff.mp h
  cases parent with
  | none =>
    cases h
    exact ⟨rfl, rfl, .inl ⟨rfl, rfl⟩⟩
  | some p =>
    obtain ⟨tree', htree, h⟩ := Option.bind_eq_some_iff.mp h
    cases h
    refine ⟨rfl, rfl, .inr ⟨p, rfl, rfl, fun hnone => ?_⟩⟩
    simp [World.subvol?, hnone] at htree

/-- **What is sent goes on where the chain ends.**  The parent is found by its name, and the
snapshot of that name is the one the chain's last send was made of. -/
theorem extends_of_stream (hw : w.Inv) (hm : m.Whole w.bucket) {id : EnvID} {name : SnapID}
    {parent : Option SnapID} (hparent : parent = none ∨ parent = m.parent? id)
    (h : w.stream id name parent = some st) : m.Extends id parent st.parent := by
  obtain ⟨-, -, ⟨rfl, hfull⟩ | ⟨p, rfl, hfrom, hnode⟩⟩ := stream_eq_some h
  · rw [hfull]
    exact .full
  · rcases hparent with hnone | hparent
    · contradiction
    obtain ⟨eb, heb, hlength, hlast⟩ := Manifest.parent?_eq_some hparent.symm
    obtain ⟨x, hx⟩ := (hm.chains id eb heb).chain
    obtain ⟨sent, hlast', hget, -, htaken⟩ := hx.last
    obtain rfl : x = p := by simpa [hlast'] using hlast
    rw [hfrom, ← hw.sent id x sent hget hnode, htaken]
    exact .more eb x heb hlength hlast

/-! ### One place after another

At each place the step is one of the above.  What has to be shown there is what the run knows
afterwards: that a name it will send under is new, that what it sends goes on where its chain ends,
that a generation it reads is the one that was sent.
-/

section Places

variable [Tree T] {x : Input} {env : EnvRow} {parent : Option SnapID} {name : SnapID}

/-- What the step from here does is one of the effects. -/
def Fine (w : World T) (r : Run T) (x : Input) : Prop := Effect w r (r.step w x).1 (r.step w x).2

private theorem ages_drop (hw : w.Inv) (id : EnvID) (name : SnapID) (x : Input) :
    w.Ages (w.dropSnapshot id name x).1 :=
  hw.others (w.dropSnapshot_others id name x)

variable (hw : w.Inv) (hr : r.Inv w)

include hw hr

private theorem fine_manifest (hpc : r.pc = .manifest) :
    Fine w r x := by
  simp only [Fine, step, hpc]
  split
  · exact .plain hw.refl rfl .empty trivial rfl fun k hk => absurd hk (Manifest.not_names_empty k)
  · rename_i m _ hget
    have hstored := World.manifest?_eq_some.mpr hget
    exact .plain hw.refl rfl (hw.stored m hstored) trivial rfl fun k hk => .inr ⟨m, hstored, hk⟩
  · exact .abort hw hr

private theorem fine_next (hpc : r.pc = .next) : Fine w r x := by
  simp only [Fine, step, hpc]
  split
  · exact .plain hw.refl rfl (hr.whole.keepOnly _) trivial rfl
      fun k hk => .inl (.inl (Manifest.names_keepOnly hk))
  · split
    · exact .goesOn hr hw.refl rfl rfl trivial rfl
    · exact .goesOn hr hw.refl rfl rfl trivial rfl

private theorem fine_generation (hpc : r.pc = .generation env) :
    Fine w r x := by
  simp only [Fine, step, hpc]
  split
  · split
    · rename_i eb heb
      split
      · refine .stays hw.refl rfl ⟨hr.whole, hr.whole.chains _ eb heb⟩ (fun k hk => .inl ?_)
          (fun _ h => by cases h) rfl
        rcases hk with hk | ⟨s, hs, hk⟩
        · exact .inl hk
        · exact .inl (.inr ⟨env.id, eb, heb, s, hs, hk⟩)
      · exact .goesOn hr hw.refl rfl rfl trivial rfl
    · exact .goesOn hr hw.refl rfl rfl trivial rfl
  · exact .fail hr hw.refl rfl

private theorem fine_leftovers {want : Option SnapID} {has : Bool} {rest : List SnapID}
    (hpc : r.pc = .leftovers env want has rest) : Fine w r x := by
  have hlocal := hr.pc
  rw [hpc] at hlocal
  simp only [Fine, step, hpc]
  split
  · refine .goesOn hr hw.refl rfl rfl ?_ rfl
    split
    · exact .inr hlocal
    · exact .inl rfl
  · split
    · exact .goesOn hr hw.refl rfl rfl hlocal rfl
    split
    · exact .goesOn hr hw.refl rfl rfl hlocal rfl
    split
    · exact .goesOn hr (ages_drop hw _ _ x) rfl rfl hlocal rfl
    · exact .fail hr (ages_drop hw _ _ x) rfl

private theorem fine_snapshot (hpc : r.pc = .snapshot env parent) :
    Fine w r x := by
  have hlocal := hr.pc
  rw [hpc] at hlocal
  simp only [Fine, step, hpc]
  have hnew : ¬ w.Old (.send env.id (backupID (w.now x))) := w.not_used_now x
  have hnone : w.bucket.get (.send env.id (backupID (w.now x))) = none := by
    by_contra hsome
    exact hnew (hw.old _ hsome)
  split
  · refine .stays (hw.took env.id x) rfl ⟨hr.whole, hlocal, ?_, hnone⟩ (fun k hk => .inl ?_)
      (fun k hk => .inr ?_) rfl
    · exact ⟨w.now x, Nat.le_refl _, rfl⟩
    · rcases hk with hk | hk
      · exact .inl hk
      · exact hk.elim
    · cases hk
      exact hnew
  · exact .fail hr (hw.took env.id x) rfl

private theorem fine_send (hpc : r.pc = .send env parent name) :
    Fine w r x := by
  have hlocal := hr.pc
  rw [hpc] at hlocal
  obtain ⟨hparent, hused, hnone⟩ := hlocal
  simp only [Fine, step, hpc]
  split
  · rename_i st _ hst
    obtain ⟨hsnap, htaken, -⟩ := stream_eq_some hst
    have hext := extends_of_stream hw hr.whole hparent hst
    refine .stays hw.refl rfl ⟨hr.whole, hused, hnone, hsnap, hext, fun _ => htaken⟩
      (fun k hk => .inl ?_) (fun k hk => .inl ?_) rfl
    · rcases hk with hk | hk
      · exact .inl hk
      · exact hk.elim
    · rw [hpc]
      exact hk
  · exact .goesOn hr hw.refl rfl rfl trivial rfl

private theorem fine_put (hpc : r.pc = .put env parent name st) : Fine w r x := by
  have hlocal := hr.pc
  rw [hpc] at hlocal
  obtain ⟨hused, hnone, hsnap, hext, htaken⟩ := hlocal
  simp only [Fine, step, hpc]
  refine Effect.upload_new x hr hw.refl rfl hnone hused (by simp) ?_ (.inl (by rw [hpc]; rfl)) rfl
    ⟨st, by simp [World.put], hsnap, hext⟩ (fun _ hk => hk) rfl rfl rfl (fun _ => trivial) rfl
  rintro id name' st' hk ho hnode
  obtain ⟨rfl, rfl⟩ : env.id = id ∧ name = name' := by simpa using hk
  obtain rfl : st = st' := by simpa using ho
  exact htaken hnode

private theorem fine_createdAt (hpc : r.pc = .createdAt env parent name) : Fine w r x := by
  have hlocal := hr.pc
  rw [hpc] at hlocal
  obtain ⟨st, hget, hsnap, hext⟩ := hlocal
  simp only [Fine, step, hpc]
  split
  case isFalse => exact .fail hr hw.refl rfl
  case isTrue hok =>
    have hnode : w.pool.node (.snap env.id name) ≠ none := by
      intro hnone
      simp [World.subvol?, hnone] at hok
    -- the generation that is read is the one that was sent
    have htaken := hw.sent env.id name st hget hnode
    subst hsnap
    have hchained := hr.whole.extend hget hext
    rw [htaken] at hchained
    have hholds : ∀ k, (∃ s ∈ (r.m.extend env parent st.snapshot
        (w.taken env.id st.snapshot)).chain, s.key = k) → r.Holds k := by
      rintro k ⟨s, hs, rfl⟩
      rcases Manifest.mem_extend hs with hs | hs
      · exact .inl hs
      · exact .inr (by rw [hpc]; exact hs)
    cases parent with
    | none | some p =>
      refine .stays hw.refl rfl ⟨hr.whole, hchained⟩ (fun k hk => .inl ?_)
        (fun _ h => by cases h) rfl
      exact hk.elim .inl (hholds k)

private theorem fine_dropParent {p : SnapID} {eb : EnvBackup}
    (hpc : r.pc = .dropParent env p eb) : Fine w r x := by
  have hlocal := hr.pc
  rw [hpc] at hlocal
  simp only [Fine, step, hpc]
  refine .stays (ages_drop hw _ _ x) rfl ⟨hr.whole, hlocal⟩ (fun k hk => .inl ?_)
    (fun _ h => by cases h) rfl
  unfold Holds
  rw [hpc]
  exact hk

private theorem fine_save {eb : EnvBackup} (hpc : r.pc = .save env eb) :
    Fine w r x := by
  have hlocal := hr.pc
  rw [hpc] at hlocal
  simp only [Fine, step, hpc]
  refine Effect.upload_manifest x { r with m := r.m.setEnv env.id eb, pc := .next }
    { r with m := r.m.setEnv env.id eb } hw (hr.whole.setEnv hlocal) (fun k hk => ?_) rfl
    (fun _ => trivial) rfl
  rcases Manifest.names_setEnv hk with hk | hk
  · exact .inl hk
  · exact .inr (by rw [hpc]; exact hk)

private theorem fine_putState {a : Archive T} (hpc : r.pc = .putState a) : Fine w r x := by
  simp only [Fine, step, hpc]
  have hnew : ¬ w.Old (.state (w.now x)) := Nat.not_le.mpr (w.clock_lt_now x)
  have hnone : w.bucket.get (.state (w.now x)) = none := by
    by_contra hsome
    exact hnew (hw.old _ hsome)
  exact Effect.upload_new x hr (hw.tick x) rfl hnone (Nat.le_refl _) (by simp) (by simp)
    (.inr hnew) rfl ⟨w.now x, a, rfl, by simp [World.put]⟩ (fun _ hk => hk) rfl rfl rfl
    (fun _ => trivial) rfl

private theorem fine_saveState {k : Key} (hpc : r.pc = .saveState k) :
    Fine w r x := by
  have hlocal := hr.pc
  rw [hpc] at hlocal
  simp only [Fine, step, hpc]
  refine Effect.upload_manifest x { r with m := { r.m with state := some k }, pc := .sweepList [] }
    { r with m := { r.m with state := some k } } hw ⟨?_, hr.whole.chains⟩ ?_ rfl
    (fun _ => trivial) rfl
  · rintro k' hk'
    cases hk'
    exact hlocal
  · rintro k' (hk' | hk')
    · cases hk'
      exact .inr (by rw [hpc]; rfl)
    · exact .inl (.inr hk')

private theorem fine_sweepList {keys : List Key} (hpc : r.pc = .sweepList keys) : Fine w r x := by
  have hpage : ∀ k ∈ w.page x, w.bucket.get k ≠ none := by
    intro k hk
    unfold World.page at hk
    split at hk
    · exact Option.isSome_iff_ne_none.mp (List.mem_filter.mp hk).2
    · exact FinMap.mem_keys.mp hk
  simp only [Fine, step, hpc]
  split
  · split
    · exact .lists keys _ _ hpc hpage (.inl rfl)
    · exact .lists keys _ _ hpc hpage (.inr rfl)
  · exact .abort hw hr

private theorem fine_sweep {keys : List Key} (hpc : r.pc = .sweep keys) : Fine w r x := by
  cases keys with
  | nil =>
    simp only [Fine, step, hpc]
    exact .goesOn hr hw.refl rfl rfl trivial rfl
  | cons k keys =>
    simp only [Fine, step, hpc]
    cases x.answer with
    | ok => exact .deletes hpc r.failed
    | error => exact .sweeps hpc true
    | lost => exact .deletes hpc true

/-- **What a step does.** -/
theorem step_effect (x : Input) : Fine w r x := by
  cases hpc : r.pc with
  | manifest => exact fine_manifest hw hr hpc
  | next => exact fine_next hw hr hpc
  | generation => exact fine_generation hw hr hpc
  | leftovers => exact fine_leftovers hw hr hpc
  | snapshot => exact fine_snapshot hw hr hpc
  | send => exact fine_send hw hr hpc
  | put => exact fine_put hw hr hpc
  | createdAt => exact fine_createdAt hw hr hpc
  | dropParent => exact fine_dropParent hw hr hpc
  | save => exact fine_save hw hr hpc
  | putState => exact fine_putState hw hr hpc
  | saveState => exact fine_saveState hw hr hpc
  | sweepList => exact fine_sweepList hw hr hpc
  | sweep => exact fine_sweep hw hr hpc
  | list | index | claudes =>
    simp only [Fine, step, hpc]
    split
    · exact .goesOn hr hw.refl rfl rfl trivial rfl
    · exact .abort hw hr
  | snapshots =>
    simp only [Fine, step, hpc]
    split
    · exact .goesOn hr hw.refl rfl rfl rfl rfl
    · exact .fail hr hw.refl rfl
  | unsend =>
    simp only [Fine, step, hpc]
    exact .fail hr (ages_drop hw _ _ x) rfl
  | done =>
    simp only [Fine, step, hpc]
    exact .goesOn hr hw.refl rfl rfl hr.pc (by rw [hpc]; rfl)

end Places

end Run

end Fern
